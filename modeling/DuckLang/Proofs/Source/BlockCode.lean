import DuckLang.Proofs.Source.Block
import DuckLang.Proofs.Source.ExpressionCode

/-! What a parse of a list of statements drives an emitter to: it appends the code of the list, with
every jump filled in, and leaves the stacks as they were. -/

namespace DuckLang

open Emitter
open Emit (Ensures)
open DuckLang.Parser (Drives Effect reduceEffect shiftEffect)
open Grammar.Duck (rule t n)

namespace Emitter

/-- The emitter with the code of statements more. -/
def append (e : Emitter) (c : Code) : Emitter :=
  { e with quads := e.quads ++ c.quads.toArray, temps := c.temps, strings := c.strings }

def stock (e : Emitter) : Stock :=
  { temps := e.temps, strings := e.strings }

def Calm (e : Emitter) : Prop :=
  ∀ c ∈ e.controls.head?, c.isOpen = false

theorem append_append (e : Emitter) (c d : Code) :
    (e.append c).append d = e.append (c.append d) := by
  simp [append, Code.append, Array.append_assoc]

theorem append_none (e : Emitter) : e.append (.none e.stock) = e := by
  simp [append, Code.none, stock]

theorem size_append (e : Emitter) (c : Code) :
    (e.append c).quads.size = e.quads.size + c.quads.length := by
  simp [append]

variable {e : Emitter}

theorem Calm.sheltered (h : Calm e) : Sheltered e := by
  intro c hc hopen
  rw [h c hc] at hopen
  cases hopen

theorem Calm.not_awaits (h : Calm e) : awaitsCondition e = false := by
  simp only [awaitsCondition]
  split
  · rfl
  · rename_i c controls hcontrols
    rw [h c (by rw [hcontrols]; rfl)]
    rfl

/-! ### Actions -/

theorem put_push (e : Emitter) (b : Piece) (q : Quad) :
    { e with quads := (e.quads ++ b.quads.toArray).push q, temps := b.temps.without b.operand } =
      e.append { b.stock e.strings with quads := b.quads ++ [q] } := by
  simp [append, Piece.stock]

theorem run_assign {name : String} {symbol : Symbol} {b : Piece}
    (hsymbol : e.scope.symbol? name = some symbol)
    (htyped : Cube.canAssign symbol.type b.type = true) :
    (assign name).run (e.put b) = .ok () (e.append { b.stock e.strings with
      quads := b.quads ++ [{ op := .assign, left := b.operand,
                             result := .address symbol.address symbol.type }] }) := by
  refine Ensures.run ?_
  simp only [assign, put, ensures_bind, ensures_lookup, hsymbol, ensures_popOperand, htyped,
    if_true, ensures_emit, ensures_release]
  exact ⟨trivial, put_push e b _⟩

theorem run_write {b : Piece} (htype : b.type ≠ .void) :
    write.run (e.put b) = .ok () (e.append { b.stock e.strings with
      quads := b.quads ++ [{ op := .write, result := b.operand }] }) := by
  refine Ensures.run ?_
  simp only [write, put, ensures_bind, ensures_popOperand, htype, if_false, ensures_emit,
    ensures_release]
  exact ⟨trivial, put_push e b _⟩

theorem run_writeText {text : String} {bytes : Bytes}
    (hbytes : Text.Quoted.unquote? text = some bytes) :
    (pushString text >>= fun _ => write).run e = .ok () (e.append
      { temps := e.temps
        strings := (intern e.strings bytes).2
        quads := [{ op := .write, result := .text (intern e.strings bytes).1 }] }) := by
  refine Ensures.run ?_
  simp only [pushString, hbytes, write, ensures_bind, ensures_get, ensures_set, ensures_pushOperand,
    ensures_popOperand, reduceCtorEq, if_false, ensures_emit, ensures_release, append]
  simp [TempPool.without]

theorem run_read {name : String} {symbol : Symbol} (hsymbol : e.scope.symbol? name = some symbol) :
    (read name).run e = .ok () (e.append { e.stock with
      quads := [{ op := .read, result := .address symbol.address symbol.type }] }) := by
  refine Ensures.run ?_
  simp only [read, ensures_bind, ensures_lookup, hsymbol, ensures_emit, ensures_pure, append, stock]
  simp

/-! ### Headers -/

theorem size_headed (e : Emitter) (construct : Construct) (b : Piece) :
    (e.headed construct b).quads.size = e.quads.size + b.quads.length + 1 := by
  simp [headed, Nat.add_assoc]

theorem calm_headed (e : Emitter) (construct : Construct) (b : Piece) :
    Calm (e.headed construct b) := by
  rintro c ⟨⟩
  rfl

/-! ### Jumps filled in -/

theorem getElem?_behind (quads : Array Quad) (xs ys : List Quad) (q : Quad) :
    ((quads ++ xs.toArray).push q ++ ys.toArray)[quads.size + xs.length]? = some q := by
  have hsize : quads.size + xs.length = (quads ++ xs.toArray).size := by simp
  rw [hsize, Array.getElem?_append_left (by simp), Array.getElem?_push_size]

theorem size_behind (quads : Array Quad) (xs ys : List Quad) (q : Quad) :
    ((quads ++ xs.toArray).push q ++ ys.toArray).size = quads.size + xs.length + 1 + ys.length := by
  simp
  omega

theorem push_behind (quads : Array Quad) (xs ys : List Quad) (q q' : Quad) :
    ((quads ++ xs.toArray).push q ++ ys.toArray).push q' =
      (quads ++ xs.toArray).push q ++ (ys ++ [q']).toArray := by
  simp

theorem set_behind (quads : Array Quad) (xs ys : List Quad) (q q' : Quad) :
    ((quads ++ xs.toArray).push q ++ ys.toArray).set! (quads.size + xs.length) q' =
      quads ++ (xs ++ q' :: ys).toArray := by
  apply Array.ext'
  simp

theorem run_endIf_then (e : Emitter) (b : Piece) (d : Code) :
    endIf.run ((e.headed (.branch none) b).append d) =
      .ok () (e.append (.ifThen e.quads.size b d)) := by
  refine Ensures.run ?_
  simp only [endIf, popControl, topControl, append, headed, ensures_bind, ensures_get, ensures_pure,
    ensures_modify, ensures_backpatchHere, ensures_backpatch, getElem?_behind, Operand.isPending,
    if_true, patched, set_behind, size_behind, List.tail_cons]
  exact ⟨trivial, rfl⟩

/-- The emitter between the two branches of an `if`, with the jump over the second one. -/
def chosen (e : Emitter) (b : Piece) (d : Code) : Emitter :=
  let leap := e.quads.size + b.quads.length + 1 + d.quads.length
  { e with
    quads := (e.quads ++ (b.quads ++ { op := .gotoFalse, left := b.operand,
                                       result := .jump (leap + 1 : Nat) } :: d.quads).toArray).push
      { op := .goto, result := .pending }
    temps := d.temps
    strings := d.strings
    controls := { construct := .branch (some leap), isOpen := false, depth := e.operators.length,
                  falseJump := some (e.quads.size + b.quads.length) } :: e.controls }

theorem size_chosen (e : Emitter) (b : Piece) (d : Code) :
    (e.chosen b d).quads.size = e.quads.size + b.quads.length + 1 + d.quads.length + 1 := by
  simp [chosen]
  omega

theorem calm_chosen (e : Emitter) (b : Piece) (d : Code) : Calm (e.chosen b d) := by
  rintro c ⟨⟩
  rfl

theorem run_enterElse (e : Emitter) (b : Piece) (d : Code) :
    enterElse.run ((e.headed (.branch none) b).append d) = .ok () (e.chosen b d) := by
  refine Ensures.run ?_
  simp only [enterElse, topControl, setTopControl, append, headed, ensures_bind, ensures_get,
    ensures_pure, ensures_emit, ensures_modify, ensures_backpatchHere, ensures_backpatch,
    push_behind, getElem?_behind, Operand.isPending, if_true, patched, set_behind, size_behind,
    List.tail_cons, List.length_append, List.length_singleton]
  refine ⟨trivial, ?_⟩
  simp [chosen, Nat.add_assoc]

theorem run_endIf_else (e : Emitter) (b : Piece) (d f : Code) :
    endIf.run ((e.chosen b d).append f) = .ok () (e.append (.ifElse e.quads.size b d f)) := by
  refine Ensures.run ?_
  have hover : ∀ q : Quad, e.quads.size + b.quads.length + 1 + d.quads.length =
      e.quads.size + (b.quads ++ q :: d.quads).length := by
    intro q
    simp
    omega
  have hget : ∀ q q' : Quad, ((e.quads ++ (b.quads ++ q :: d.quads).toArray).push q' ++
      f.quads.toArray)[e.quads.size + b.quads.length + 1 + d.quads.length]? = some q' := by
    intro q q'
    rw [hover q]
    exact getElem?_behind _ _ _ _
  have hset : ∀ q q' q'' : Quad, ((e.quads ++ (b.quads ++ q :: d.quads).toArray).push q' ++
      f.quads.toArray).set! (e.quads.size + b.quads.length + 1 + d.quads.length) q'' =
        e.quads ++ (b.quads ++ q :: d.quads ++ q'' :: f.quads).toArray := by
    intro q q' q''
    rw [hover q]
    exact set_behind _ _ _ _ _
  simp only [endIf, popControl, topControl, append, chosen, ensures_bind, ensures_get, ensures_pure,
    ensures_modify, ensures_backpatchHere, ensures_backpatch, hget, Operand.isPending, if_true,
    patched, hset, size_behind, ← hover, List.tail_cons]
  refine ⟨trivial, ?_⟩
  simp [Code.ifElse]

theorem run_endWhile (e : Emitter) (b : Piece) (d : Code) :
    endWhile.run ((e.headed (.loop e.quads.size) b).append d) =
      .ok () (e.append (.loop e.quads.size b d)) := by
  refine Ensures.run ?_
  simp only [endWhile, popControl, topControl, append, headed, ensures_bind, ensures_get,
    ensures_pure, ensures_modify, ensures_emit, ensures_backpatchHere, ensures_backpatch,
    push_behind, getElem?_behind, Operand.isPending, if_true, patched, set_behind, size_behind,
    List.tail_cons, List.length_append, List.length_singleton]
  exact ⟨trivial, rfl⟩

end Emitter

namespace Duck

variable {e e' : Emitter} {u v : List Token}

theorem drives_hook {tok : Token} {kind : Token.Kind} {name : String} {hook : Hook}
    (htok : tok.kind = kind) (hname : kind.terminal = name) (hhook : Hook.of? name = some hook)
    (hrun : hook.effect.run e = .ok () e') :
    Drives Grammar.duck [t name] [tok] e [.ofText tok.text] e' := by
  subst htok hname
  refine .shift ?_ (.nil e')
  rw [shiftEffect_hook hhook]
  exact hrun

/-! ### Simple statements -/

theorem drives_assign {name : Name} {expr : Expr .whole} {c : Code} (hcalm : Calm e)
    (hmakes : (Action.assign name expr).Makes e.scope e.stock c)
    (hwords : u.map Token.word = (Simple.assign name expr).words) :
    Drives Grammar.duck [n "Stmt"] u e [.nothing] (e.append c) := by
  obtain ⟨target, _, rfl, htarget, hwords⟩ := List.map_eq_cons_iff.mp hwords
  obtain ⟨equals, _, rfl, hequals, hwords⟩ := List.map_eq_cons_iff.mp hwords
  obtain ⟨text, _, rfl, htext, hwords⟩ := List.map_eq_append_iff.mp hwords
  obtain ⟨semicolon, _, rfl, hsemicolon, hwords⟩ := List.map_eq_cons_iff.mp hwords
  obtain rfl := List.map_eq_nil_iff.mp hwords
  cases hmakes with
  | assign declared value typed =>
    obtain ⟨x, hexpr, _⟩ := expr.drives value htext hcalm.sheltered (by simp [hcalm.not_awaits])
    have hrun := run_assign declared typed
    refine drives_unit _ "Assign" (by decide) rfl ?_
    refine drives_rule "Assign" [t "id", t "=", n "Expr", t ";"] (by decide)
      (drives_cons (drives_word (Prod.mk.inj htarget).1 rfl rfl)
        (drives_cons (drives_word (Prod.mk.inj hequals).1 rfl rfl)
          (drives_cons hexpr (drives_word (Prod.mk.inj hsemicolon).1 rfl rfl)))) ?_
    rw [(Prod.mk.inj htarget).2, ofText_name]
    exact Emit.run_bind hrun

theorem drives_item {item : Item} {c : Code} (hcalm : Calm e)
    (hmakes : (Action.write item).Makes e.scope e.stock c)
    (hwords : u.map Token.word = item.words) :
    Drives Grammar.duck [n "PrintItem"] u e [.nothing] (e.append c) := by
  cases hmakes with
  | value value typed =>
    obtain ⟨x, hexpr, hx⟩ := Expr.drives _ value hwords hcalm.sheltered (by simp [hcalm.not_awaits])
    obtain rfl := hx rfl
    refine drives_rule "PrintItem" [n "Expr"] (by decide) hexpr ?_
    have hplain : ¬Attribute.expression.text.startsWith "\"" = true := by
      rw [String.startsWith_string_iff]
      decide
    simp only [reduceEffect, List.length_singleton,
      show Effect.of? "PrintItem" 1 = some .printItem from rfl, Effect.run, if_neg hplain]
    exact Emit.run_bind (run_write typed)
  | @text c _ bytes unquoted =>
    obtain ⟨tok, _, rfl, htok, hwords⟩ := List.map_eq_cons_iff.mp hwords
    obtain rfl := List.map_eq_nil_iff.mp hwords
    obtain ⟨hkind, htext⟩ := Prod.mk.inj htok
    refine drives_rule "PrintItem" [t "cte_string"] (by decide) (drives_word hkind rfl rfl) ?_
    have hquote : (Attribute.ofText tok.text).text.startsWith "\"" = true := by
      rw [htext]
      exact lexeme_of_spelled c.isQuote
    simp only [reduceEffect, List.length_singleton,
      show Effect.of? "PrintItem" 1 = some .printItem from rfl, Effect.run, if_pos hquote]
    rw [text_ofText, htext, ← bind_assoc]
    exact Emit.run_bind (run_writeText unquoted)

/-- A list that goes on: each further element stands behind a comma. -/
theorem drives_list {α : Type} (list : String) (act : α → Action)
    (words : α → List (Token.Kind × String))
    (hnext : ∀ {e : Emitter} {a : α} {c : Code} {x : Attribute} {e₀ : Emitter} {u v : List Token}
      {comma : Token}, Calm e → (act a).Makes e.scope e.stock c → v.map Token.word = words a →
      comma.kind = .comma → Drives Grammar.duck [n list] u e₀ [x] e →
      Drives Grammar.duck [n list] (u ++ comma :: v) e₀ [.nothing] (e.append c))
    {more : List α} {e e₀ : Emitter} {c : Code} {x : Attribute} {u v : List Token} (hcalm : Calm e)
    (hmakes : Action.MakesAll e.scope (more.map act) e.stock c)
    (hwords : v.map Token.word = more.flatMap fun a => Token.Kind.comma.word :: words a)
    (h : Drives Grammar.duck [n list] u e₀ [x] e) :
    ∃ y, Drives Grammar.duck [n list] (u ++ v) e₀ [y] (e.append c) := by
  induction more generalizing e x u v c with
  | nil =>
    obtain rfl := List.map_eq_nil_iff.mp hwords
    cases hmakes
    exact ⟨x, by rwa [append_none, List.append_nil]⟩
  | cons a more ih =>
    cases hmakes with
    | @cons _ _ _ c d first rest =>
      rw [List.flatMap_cons] at hwords
      obtain ⟨_, v, rfl, hfirst, hmore⟩ := List.map_eq_append_iff.mp hwords
      obtain ⟨comma, w, rfl, hcomma, hfirst⟩ := List.map_eq_cons_iff.mp hfirst
      obtain ⟨y, hy⟩ := ih (e := e.append c) hcalm rest hmore
        (hnext hcalm first hfirst (Prod.mk.inj hcomma).1 h)
      refine ⟨y, ?_⟩
      rwa [append_append, List.append_assoc] at hy

/-- A statement that is a keyword and a list in parentheses. -/
theorem drives_listed (kind : Token.Kind) {word : String} (list head : String)
    {words : List (Token.Kind × String)} (hname : kind.terminal = word)
    (hplain : Hook.of? word = none)
    (hrule : rule head [t word, t "(", n list, t ")", t ";"] ∈
      Grammar.Duck.statementRules ++ Grammar.Duck.expressionRules)
    (heffect : Effect.of? head 5 = none)
    (hunit : rule "Stmt" [n head] ∈ Grammar.Duck.statementRules ++ Grammar.Duck.expressionRules)
    (hlist : ∀ {v : List Token}, v.map Token.word = words →
      ∃ y, Drives Grammar.duck [n list] v e [y] e')
    (hwords : u.map Token.word = kind.word :: Token.Kind.leftParen.word ::
      (words ++ [Token.Kind.rightParen.word, Token.Kind.semicolon.word])) :
    Drives Grammar.duck [n "Stmt"] u e [.nothing] e' := by
  obtain ⟨tok, _, rfl, htok, hwords⟩ := List.map_eq_cons_iff.mp hwords
  obtain ⟨opening, _, rfl, hopening, hwords⟩ := List.map_eq_cons_iff.mp hwords
  obtain ⟨items, _, rfl, hitems, hwords⟩ := List.map_eq_append_iff.mp hwords
  obtain ⟨closing, _, rfl, hclosing, hwords⟩ := List.map_eq_cons_iff.mp hwords
  obtain ⟨semicolon, _, rfl, hsemicolon, hwords⟩ := List.map_eq_cons_iff.mp hwords
  obtain rfl := List.map_eq_nil_iff.mp hwords
  obtain ⟨y, hlist⟩ := hlist hitems
  refine drives_unit _ _ hunit rfl ?_
  refine drives_rule _ _ hrule
    (drives_cons (drives_word (Prod.mk.inj htok).1 hname hplain)
      (drives_cons (drives_word (Prod.mk.inj hopening).1 rfl rfl)
        (drives_cons hlist (drives_cons (drives_word (Prod.mk.inj hclosing).1 rfl rfl)
          (drives_word (Prod.mk.inj hsemicolon).1 rfl rfl))))) ?_
  simp only [reduceEffect, List.length_cons, List.length_nil, heffect]
  rfl

theorem drives_write {first : Item} {more : List Item} {c : Code} (hcalm : Calm e)
    (hmakes : Action.MakesAll e.scope (Simple.write first more).actions e.stock c)
    (hwords : u.map Token.word = (Simple.write first more).words) :
    Drives Grammar.duck [n "Stmt"] u e [.nothing] (e.append c) := by
  refine drives_listed .writeWord "PrintList" "Print" rfl rfl (by decide) rfl (by decide)
    (fun {v} hitems => ?_) hwords
  obtain ⟨us, vs, rfl, hfirst, hmore⟩ := List.map_eq_append_iff.mp hitems
  cases hmakes with
  | @cons _ _ _ c d now rest =>
    have hone := drives_unit "PrintList" "PrintItem" (by decide) rfl
      (drives_item hcalm now hfirst)
    obtain ⟨y, hlist⟩ := drives_list "PrintList" .write Item.words
      (fun hcalm hmakes hitem hcomma hlist =>
        drives_rule "PrintList" [n "PrintList", t ",", n "PrintItem"] (by decide)
          (drives_cons hlist (drives_cons (drives_word hcomma rfl rfl)
            (drives_item hcalm hmakes hitem))) rfl) (e := e.append c) hcalm rest hmore hone
    exact ⟨y, by rwa [append_append] at hlist⟩

theorem run_readEffect {name : Name} {c : Code} {tok : Token}
    (hmakes : (Action.read name).Makes e.scope e.stock c)
    (htok : tok.word = (.identifier, name.text)) :
    (read (Attribute.ofText tok.text).text).run e = .ok () (e.append c) := by
  cases hmakes with
  | read declared =>
    rw [(Prod.mk.inj htok).2, text_ofText]
    exact run_read declared

theorem drives_read {first : Name} {more : List Name} {c : Code} (hcalm : Calm e)
    (hmakes : Action.MakesAll e.scope (Simple.read first more).actions e.stock c)
    (hwords : u.map Token.word = (Simple.read first more).words) :
    Drives Grammar.duck [n "Stmt"] u e [.nothing] (e.append c) := by
  refine drives_listed .readWord "ReadList" "Read" rfl rfl (by decide) rfl (by decide)
    (fun {v} hnames => ?_) hwords
  obtain ⟨us, vs, rfl, hfirst, hmore⟩ := List.map_eq_append_iff.mp hnames
  obtain ⟨tok, _, rfl, htok, hnil⟩ := List.map_eq_cons_iff.mp hfirst
  obtain rfl := List.map_eq_nil_iff.mp hnil
  cases hmakes with
  | @cons _ _ _ c d now rest =>
    have hone := drives_rule (a := .nothing) "ReadList" [t "id"] (by decide)
      (drives_word (Prod.mk.inj htok).1 rfl rfl) (Emit.run_bind (run_readEffect now htok))
    obtain ⟨y, hlist⟩ := drives_list "ReadList" .read
      (fun name => [(.identifier, name.text)]) (by
        intro e a c x e₀ u v comma hcalm hmakes hname hcomma hlist
        obtain ⟨tok, _, rfl, htok, hnil⟩ := List.map_eq_cons_iff.mp hname
        obtain rfl := List.map_eq_nil_iff.mp hnil
        exact drives_rule "ReadList" [n "ReadList", t ",", t "id"] (by decide)
          (drives_cons hlist (drives_cons (drives_word hcomma rfl rfl)
            (drives_word (Prod.mk.inj htok).1 rfl rfl)))
          (Emit.run_bind (run_readEffect hmakes htok))) (e := e.append c) hcalm rest hmore hone
    exact ⟨y, by rwa [append_append] at hlist⟩

theorem drives_simple {now : Simple} {c : Code} (hcalm : Calm e)
    (hmakes : Action.MakesAll e.scope now.actions e.stock c)
    (hwords : u.map Token.word = now.words) :
    Drives Grammar.duck [n "Stmt"] u e [.nothing] (e.append c) := by
  cases now with
  | assign name expr =>
    cases hmakes with
    | @cons _ _ _ c d now rest =>
      cases rest
      have h := drives_assign hcalm now hwords
      simpa [Code.append, Code.none] using h
  | write first more => exact drives_write hcalm hmakes hwords
  | read first more => exact drives_read hcalm hmakes hwords

/-! ### Constructs -/

/-- A header behind its keyword: a test in parentheses, and the word that ends it. -/
theorem drives_header (construct : Construct) {test : Expr .whole} {b : Piece}
    {last : Token.Kind} {name : String} (hlast : last.terminal = name)
    (hhook : Hook.of? name = some .headerEnd) (htest : test.tree.isTest e.scope = true)
    (hmakes : test.tree.Makes e.scope e.temps b)
    (hwords : u.map Token.word = headerWords test last) :
    ∃ as, Drives Grammar.duck [t "(", n "Expr", t ")", t name] u (e.entered construct) as
      (e.headed construct b) := by
  obtain ⟨opening, _, rfl, hopening, hwords⟩ := List.map_eq_cons_iff.mp hwords
  obtain ⟨text, _, rfl, htext, hwords⟩ := List.map_eq_append_iff.mp hwords
  obtain ⟨closing, _, rfl, hclosing, hwords⟩ := List.map_eq_cons_iff.mp hwords
  obtain ⟨ending, _, rfl, hending, hwords⟩ := List.map_eq_cons_iff.mp hwords
  obtain rfl := List.map_eq_nil_iff.mp hwords
  obtain ⟨c, e₁, x, hexpr, hrenders, hleave, _⟩ := test.expression.drives_test e construct
    (Expr.type?_of_makes hmakes) htext
  obtain rfl := (hrenders.makes test.tree?_eq).unique hmakes
  have hrelational : test.expression.isRelational = true := by
    rw [Expression.isRelational_of_tree test.tree?_eq]
    rw [Tree.isTest, Bool.and_eq_true] at htest
    exact htest.1
  specialize hleave hrelational
  exact ⟨_, drives_cons (drives_word (Prod.mk.inj hopening).1 rfl rfl) (drives_cons hexpr
    (drives_cons (drives_word (Prod.mk.inj hclosing).1 rfl rfl)
      (drives_hook (Prod.mk.inj hending).1 hlast hhook hleave)))⟩

theorem drives_body {words : List (Token.Kind × String)} {x : Attribute}
    (h : ∀ {v : List Token}, v.map Token.word = words → Drives Grammar.duck [n "Stmts"] v e [x] e')
    (hwords : u.map Token.word = bodyWords words) :
    Drives Grammar.duck [n "Body"] u e [.nothing] e' := by
  obtain ⟨opening, _, rfl, hopening, hwords⟩ := List.map_eq_cons_iff.mp hwords
  obtain ⟨inner, _, rfl, hinner, hwords⟩ := List.map_eq_append_iff.mp hwords
  obtain ⟨closing, _, rfl, hclosing, hwords⟩ := List.map_eq_cons_iff.mp hwords
  obtain rfl := List.map_eq_nil_iff.mp hwords
  exact drives_rule "Body" [t "\x7b", n "Stmts", t "\x7d"] (by decide)
    (drives_cons (drives_word (Prod.mk.inj hopening).1 rfl rfl)
      (drives_cons (h hinner) (drives_word (Prod.mk.inj hclosing).1 rfl rfl))) rfl

/-- A construct: its header, and what stands behind it, up to the effect that closes it. -/
theorem drives_construct (head name last : String) {first ending : Token.Kind} {hook : Hook}
    {effect : Effect} {finish : Emit Unit} {construct : Construct} {rest : List Grammar.Symbol}
    {as : List Attribute} {test : Expr .whole} {b : Piece} {e₁ : Emitter} {tok : Token}
    (hrule : rule head (t name :: t "(" :: n "Expr" :: t ")" :: t last :: rest) ∈
      Grammar.Duck.statementRules ++ Grammar.Duck.expressionRules)
    (hname : first.terminal = name) (hhook : Hook.of? name = some hook)
    (henter : hook.effect.run e = .ok () (e.entered construct))
    (hending : ending.terminal = last) (hlast : Hook.of? last = some .headerEnd)
    (htok : tok.kind = first)
    (htest : test.tree.isTest e.scope = true) (hmakes : test.tree.Makes e.scope e.temps b)
    (hwords : u.map Token.word = headerWords test ending)
    (hrest : Drives Grammar.duck rest v (e.headed construct b) as e₁)
    (heffect : Effect.of? head (5 + rest.length) = some effect)
    (hfinish : ∀ inner, effect.run inner = finish >>= fun _ => pure .nothing)
    (hrun : finish.run e₁ = .ok () e')
    (hunit : rule "Stmt" [n head] ∈ Grammar.Duck.statementRules ++ Grammar.Duck.expressionRules) :
    Drives Grammar.duck [n "Stmt"] (tok :: (u ++ v)) e [.nothing] e' := by
  obtain ⟨bs, hheader⟩ := drives_header construct hending hlast htest hmakes hwords
  have hbody := drives_cons (drives_hook htok hname hhook henter) (hheader.append hrest)
  refine drives_unit _ _ hunit rfl (drives_rule _ _ hrule hbody ?_)
  have hlength := hbody.length_eq
  generalize Attribute.ofText tok.text :: (bs ++ as) = inner at hlength ⊢
  have hcount : inner.length = 5 + rest.length := by
    simp only [hlength, List.length_cons, List.length_append, List.length_nil]
    omega
  simp only [reduceEffect, hcount, heffect, hfinish]
  exact Emit.run_bind hrun

theorem drives_condition {as : List Attribute} {test : Expr .whole} {b : Piece} {e₁ : Emitter}
    {tok : Token} (htok : tok.word = Token.Kind.ifWord.word)
    (htest : test.tree.isTest e.scope = true) (hmakes : test.tree.Makes e.scope e.temps b)
    (hwords : u.map Token.word = headerWords test .thenWord)
    (hrest : Drives Grammar.duck [n "Body", n "ElseOpt"] v (e.headed (.branch none) b) as e₁)
    (hrun : endIf.run e₁ = .ok () e') :
    Drives Grammar.duck [n "Stmt"] (tok :: (u ++ v)) e [.nothing] e' :=
  drives_construct "Condition" "if" "then" (by decide) rfl rfl rfl rfl rfl (Prod.mk.inj htok).1
    htest hmakes hwords hrest rfl (fun _ => rfl) hrun (by decide)

theorem drives_cycle {as : List Attribute} {test : Expr .whole} {b : Piece} {e₁ : Emitter}
    {tok : Token} (htok : tok.word = Token.Kind.whileWord.word)
    (htest : test.tree.isTest e.scope = true) (hmakes : test.tree.Makes e.scope e.temps b)
    (hwords : u.map Token.word = headerWords test .doWord)
    (hrest : Drives Grammar.duck [n "Body"] v (e.headed (.loop e.quads.size) b) as e₁)
    (hrun : endWhile.run e₁ = .ok () e') :
    Drives Grammar.duck [n "Stmt"] (tok :: (u ++ v)) e [.nothing] e' :=
  drives_construct "Cycle" "while" "do" (by decide) rfl rfl rfl rfl rfl (Prod.mk.inj htok).1
    htest hmakes hwords hrest rfl (fun _ => rfl) hrun (by decide)

theorem drives_stmts {x : Attribute} {e₁ : Emitter}
    (hbefore : Drives Grammar.duck [n "Stmts"] u e [.nothing] e₁)
    (hlast : Drives Grammar.duck [n "Stmt"] v e₁ [x] e') :
    Drives Grammar.duck [n "Stmts"] (u ++ v) e [.nothing] e' :=
  drives_rule "Stmts" [n "Stmts", n "Stmt"] (by decide) (drives_cons hbefore hlast) rfl

end Duck

open Duck

/-- A parse of a list of statements drives an emitter to one with its code. -/
theorem Block.drives {block : Block} {e : Emitter} {c : Code} {tokens : List Token}
    (hcalm : Calm e) (hmakes : block.Makes e.scope e.quads.size e.stock c)
    (hwords : tokens.map Token.word = block.words) :
    Drives Grammar.duck [n "Stmts"] tokens e [.nothing] (e.append c) := by
  induction block generalizing e c tokens with
  | empty =>
    obtain rfl := List.map_eq_nil_iff.mp hwords
    cases hmakes
    rw [append_none]
    exact drives_rule "Stmts" [] (by decide) (.nil e) rfl
  | act before now ih =>
    obtain ⟨u, v, rfl, hbefore, hnow⟩ := List.map_eq_append_iff.mp hwords
    cases hmakes with
    | @act _ _ _ _ c d earlier last =>
      have h := drives_stmts (ih hcalm earlier hbefore)
        (drives_simple (e := e.append c) hcalm last hnow)
      rwa [append_append] at h
  | ifThen before test body ihBefore ihBody =>
    obtain ⟨u, _, rfl, hbefore, hwords⟩ := List.map_eq_append_iff.mp hwords
    obtain ⟨tok, _, rfl, htok, hwords⟩ := List.map_eq_cons_iff.mp hwords
    obtain ⟨header, inner, rfl, hheader, hinner⟩ := List.map_eq_append_iff.mp hwords
    cases hmakes with
    | @ifThen _ _ _ _ _ c d b earlier isTest tested body =>
      rw [← size_append, ← size_headed _ (.branch none)] at body
      have hcalm' := calm_headed (e.append c) (.branch none) b
      have hbody := drives_body (fun hv => ihBody hcalm' body hv) hinner
      have helse := drives_rule "ElseOpt" [] (by decide)
        (.nil (((e.append c).headed (.branch none) b).append d)) rfl
      have hstmt := drives_condition (e := e.append c) htok isTest tested hheader
        (drives_cons hbody helse) (run_endIf_then (e.append c) b d)
      have h := drives_stmts (ihBefore hcalm earlier hbefore) hstmt
      rwa [append_append, size_append, List.append_nil] at h
  | ifElse before test body other ihBefore ihBody ihOther =>
    obtain ⟨u, _, rfl, hbefore, hwords⟩ := List.map_eq_append_iff.mp hwords
    obtain ⟨tok, _, rfl, htok, hwords⟩ := List.map_eq_cons_iff.mp hwords
    obtain ⟨header, _, rfl, hheader, hwords⟩ := List.map_eq_append_iff.mp hwords
    obtain ⟨inner, _, rfl, hinner, hwords⟩ := List.map_eq_append_iff.mp hwords
    obtain ⟨elseTok, outer, rfl, helse, houter⟩ := List.map_eq_cons_iff.mp hwords
    cases hmakes with
    | @ifElse _ _ _ _ _ _ c d f b earlier isTest tested body other =>
      rw [← size_append, ← size_headed _ (.branch none)] at body
      rw [← size_append, ← size_chosen] at other
      have hcalm' := calm_headed (e.append c) (.branch none) b
      have hbody := drives_body (fun hv => ihBody hcalm' body hv) hinner
      have hother := drives_body (fun hv => ihOther (e := (e.append c).chosen b d)
        (calm_chosen _ _ _) other hv) houter
      have hopt := drives_rule "ElseOpt" [t "else", n "Body"] (by decide)
        (drives_cons (drives_hook (Prod.mk.inj helse).1 rfl rfl (run_enterElse (e.append c) b d))
          hother) rfl
      have hstmt := drives_condition (e := e.append c) htok isTest tested hheader
        (drives_cons hbody hopt) (run_endIf_else (e.append c) b d f)
      have h := drives_stmts (ihBefore hcalm earlier hbefore) hstmt
      rwa [append_append, size_append] at h
  | loop before test body ihBefore ihBody =>
    obtain ⟨u, _, rfl, hbefore, hwords⟩ := List.map_eq_append_iff.mp hwords
    obtain ⟨tok, _, rfl, htok, hwords⟩ := List.map_eq_cons_iff.mp hwords
    obtain ⟨header, inner, rfl, hheader, hinner⟩ := List.map_eq_append_iff.mp hwords
    cases hmakes with
    | @loop _ _ _ _ _ c d b earlier isTest tested body =>
      rw [← size_append, ← size_headed _ (.loop (e.append c).quads.size)] at body
      have hcalm' := calm_headed (e.append c) (.loop (e.append c).quads.size) b
      have hbody := drives_body (fun hv => ihBody hcalm' body hv) hinner
      have hstmt := drives_cycle (e := e.append c) htok isTest tested hheader hbody
        (run_endWhile (e.append c) b d)
      have h := drives_stmts (ihBefore hcalm earlier hbefore) hstmt
      rwa [append_append, size_append] at h

end DuckLang
