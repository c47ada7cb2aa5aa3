import DuckLang.Proofs.Source.ExprRun
import DuckLang.Proofs.Source.Operands
import DuckLang.Proofs.Source.Replay

/-! What a parse of an expression drives an emitter to.  The code that it appends leaves in the
operand on top what the expression stands for, whatever the temporaries held before it, and ends in a
comparison exactly if the expression is one in parentheses or without; without calls it is the code
of its tree. -/

namespace DuckLang

open Emitter
open Emit (Ensures)
open DuckLang.Parser (Drives Effect reduceEffect)
open Grammar.Duck (rule t n)

/-! ### The code of an expression -/

namespace Piece

variable {temps : TempPool} {a b : Piece}

/-- How code ends: its operand is no temporary, or the one that its last quadruple writes, which is
a comparison or not. -/
inductive Ends (b : Piece) : Bool → Prop
  | still (operand : b.operand.id? = none) : Ends b false
  | made {quads : List Quad} {q : Quad} {id : Int} {type : DataType}
      (last : b.quads = quads ++ [q]) (operand : b.operand = .temporary id type)
      (result : q.result = .temporary id type) : Ends b q.op.isRelational

/-- The operand on top is the result of a comparison exactly if the code of it ends in one. -/
theorem Ends.topIsRelational {isRelational : Bool} (h : b.Ends isRelational) (e : Emitter) :
    topIsRelational (e.put b) = isRelational := by
  cases h with
  | still operand =>
    simp only [Emitter.topIsRelational, put]
    split
    · rename_i hoperands _
      obtain ⟨htop, _⟩ := List.cons.inj hoperands
      rw [(Prod.mk.inj htop).1] at operand
      cases operand
    · rfl
  | made last operand result =>
    simp only [Emitter.topIsRelational, put, last, operand, ← List.append_toArray,
      ← Array.append_assoc, Array.back?_append]
    simp [result]

/-- The code of an expression. -/
structure Renders (s : Scope) (temps : TempPool) {rank : Rank} (expr : Expression rank)
    (type : DataType) (b : Piece) : Prop where
  type_eq : b.type = type
  makes : ∀ {tree : Tree}, expr.tree? = some tree → tree.Makes s temps b
  fits : temps.Orderly → b.Fits temps
  stands : temps.Orderly → ∀ r : Replay, ∃ x r', expr.standing? s r.made = some (x, r'.made) ∧
    Replay.Passes temps r b.quads r' ∧ r'.announced = r.announced ∧ r'.Holds b.operand x
  ends : b.Ends expr.isRelational

/-- The code of arguments: each of them goes to the slot of its parameter in the innermost call that
is announced. -/
structure Fills (s : Scope) (temps : TempPool) (params : List Symbol) (args : Arguments)
    (count : Nat) (b : Piece) : Prop where
  nothing : b.operand.id? = none
  fits : temps.Orderly → b.Fits temps
  slots : temps.Orderly → ∀ (r : Replay) (function : String) (calls : List Invocation),
    r.announced = { function } :: calls → ∃ slots r', args.slots? s params r.made =
      some (slots, r'.made) ∧ slots.length = count ∧ Replay.Passes temps r b.quads r' ∧
      r'.announced = { function, slots } :: calls

section Meaning

variable {s : Scope} {type : DataType} {params : List Symbol}

theorem renders_variable {name : Name} {symbol : Symbol}
    (hsymbol : s.symbol? name.text = some symbol) :
    Renders s temps (.var name) symbol.type
      { operand := .address symbol.address symbol.type, type := symbol.type, temps } where
  type_eq := rfl
  makes htree := by
    obtain rfl := Option.some.inj htree
    exact .var hsymbol
  fits htemps := .still htemps rfl rfl
  stands _ r := by
    refine ⟨.var symbol.address, r, ?_, .nil _ _, rfl, .var _ _⟩
    simp [Expression.standing?, hsymbol]
  ends := .still rfl

theorem renders_constant {c : Constant} {v : Value} (hvalue : c.value? = some v) :
    Renders s temps (.constant c) v.type { operand := .literal v, type := v.type, temps } where
  type_eq := rfl
  makes htree := by
    obtain rfl := Option.some.inj htree
    exact .constant hvalue
  fits htemps := .still htemps (Operand.id?_literal v) rfl
  stands _ r := by
    have hstorable := Constant.value?_storable hvalue
    refine ⟨.known (.constant v), r, ?_, .nil _ _, rfl, .constant ?_⟩
    · simp [Expression.standing?, hvalue]
    · cases v <;> first | rfl | cases hstorable
  ends := .still (Operand.id?_literal v)

theorem Renders.group {e : Expression .whole} (h : b.Renders s temps e type) :
    b.Renders s temps (.group e) type :=
  ⟨h.type_eq, h.makes, h.fits, by simpa [Expression.standing?] using h.stands, h.ends⟩

theorem Renders.loosen {rank loose : Rank} {e : Expression rank} (h : b.Renders s temps e type)
    (hbelow : rank.Below loose) : b.Renders s temps (.loosen hbelow e) type :=
  ⟨h.type_eq, h.makes, h.fits, by simpa [Expression.standing?] using h.stands, h.ends⟩

theorem Renders.combine {left right rank : Rank} {l : Expression left} {r : Expression right}
    {t u : DataType} (ha : a.Renders s temps l t) (hb : b.Renders s a.temps r u) {op : Operation}
    (hbinds : op.Binds left right rank) {type : DataType}
    (htype : Cube.result? a.type op.operator b.type = some type) :
    (a.combine op type b).Renders s temps (.binary op hbinds l r) type where
  type_eq := rfl
  makes htree := by
    obtain ⟨x, y, hx, hy, rfl⟩ := Expression.tree?_binary htree
    exact .binary (ha.makes hx) (hb.makes hy) htype
  fits htemps := (ha.fits htemps).combine (hb.fits (ha.fits htemps).orderly) op type
  stands htemps r₀ := by
    have hfits := ha.fits htemps
    have hfits' := hb.fits hfits.orderly
    obtain ⟨x, r₁, hx, hpass₁, hannounced₁, hholds₁⟩ := ha.stands htemps r₀
    obtain ⟨y, r₂, hy, hpass₂, hannounced₂, hholds₂⟩ := hb.stands hfits.orderly r₁
    -- the code of the right operand leaves the left one where it is
    have hkept := hholds₁.pass hpass₂ fun hid => hfits.live.mpr (.inr hid)
    have hstep := Replay.step_operation op a.operand b.operand b.temps.alloc.1 type hkept.read
      hholds₂.read
    have hlive : ∀ {id}, temps.IsLive id → a.temps.IsLive id := fun hid =>
      hfits.live.mpr (.inl hid)
    refine ⟨_, _, ?_, (hpass₁.append hpass₂ hlive).append (.single hstep ?_) hlive, ?_,
      .temporary (Replay.temps_write_self _ _ _)⟩
    · simp only [Expression.standing?, hx, hy, Option.bind_eq_bind, Option.bind_some]
      rfl
    · exact fun id type' hid => Replay.temps_write_ne (hfits'.ne_alloc hid) _ _ _
    · exact hannounced₂.trans hannounced₁
  ends := by
    have hmade := Ends.made (b := a.combine op type b) rfl rfl rfl
    cases op <;> exact hmade

theorem fills_none (params : List Symbol) : (Piece.blank temps).Fills s temps params .none 0 where
  nothing := rfl
  fits htemps := .still htemps rfl rfl
  slots _ r function calls hcalls := ⟨[], r, by simp [Arguments.slots?], rfl, .nil _ _, hcalls⟩

theorem Fills.pass {args : Arguments} {count : Nat} (hb : b.Fills s temps params args count)
    {last : Expression .whole} (ha : a.Renders s b.temps last type) {param : Symbol}
    (hparam : params[count]? = some param) :
    (b.pass a param).Fills s temps params (.also args last) (count + 1) where
  nothing := rfl
  fits htemps := (hb.fits htemps).pass hb.nothing (ha.fits (hb.fits htemps).orderly) param
  slots htemps r₀ function calls hcalls := by
    have hfits := hb.fits htemps
    obtain ⟨slots, r₁, hslots, rfl, hpass₁, hannounced₁⟩ := hb.slots htemps r₀ function calls hcalls
    obtain ⟨x, r₂, hx, hpass₂, hannounced₂, hholds⟩ := ha.stands hfits.orderly r₁
    let slots' := slots ++ [(param.address, x.read r₂.made.length)]
    have hstep : r₂.step
        { op := .param, left := a.operand, result := .address param.address param.type } =
        some { r₂ with announced := { function, slots := slots' } :: calls } := by
      simp only [Replay.step, hannounced₂, hannounced₁, hholds.read, slots']
    refine ⟨slots', { r₂ with announced := { function, slots := slots' } :: calls }, ?_,
      List.length_append, ?_, rfl⟩
    · simp only [Arguments.slots?, hslots, hx, hparam, Option.bind_eq_bind, Option.bind_some]
      rfl
    · have hlive : ∀ {id}, temps.IsLive id → b.temps.IsLive id := (hfits.isLive hb.nothing).mpr
      exact (hpass₁.append hpass₂ hlive).append (.single hstep fun _ _ _ => rfl) id

theorem Fills.called {function : Name} {entry : Scope.Entry} {args : Arguments} {count : Nat}
    (hb : b.Fills s temps entry.params args count) (hentry : s.entryOf? function.text = some entry) :
    (b.called function.text entry.returns).Renders s temps (.call function args)
      entry.returns where
  type_eq := rfl
  makes htree := by cases htree
  fits htemps := (hb.fits htemps).called hb.nothing _ _
  stands htemps r₀ := by
    let r₁ : Replay := { r₀ with announced := { function := function.text } :: r₀.announced }
    have hannounce : Replay.Passes temps r₀
        [{ op := .announce, result := .function function.text }] r₁ :=
      .single rfl fun _ _ _ => rfl
    obtain ⟨slots, r₂, hslots, _, hpass, hannounced⟩ :=
      hb.slots htemps r₁ function.text r₀.announced rfl
    have hcall : r₂.step
        { op := .call, left := .function function.text,
          result := .temporary b.temps.alloc.1 entry.returns } =
        some { r₂.write b.temps.alloc.1 entry.returns (.result r₂.made.length) with
          announced := r₀.announced
          made := r₂.made ++ [{ function := function.text, slots }] } := by
      simp [Replay.step, hannounced, Operand.functionName]
    refine ⟨.known (.result r₂.made.length), _, ?_,
      (hannounce.append hpass id).append (.single hcall ?_) id, rfl,
      .temporary (Replay.temps_write_self _ _ _)⟩
    · simp only [Expression.standing?, hentry, Option.bind_eq_bind, Option.bind_some]
      rw [show r₀.made = r₁.made from rfl, hslots]
      rfl
    · exact fun id type' hid => Replay.temps_write_ne ((hb.fits htemps).ne_alloc hid) _ _ _
  ends := by
    have hquads : (b.called function.text entry.returns).quads =
        ({ op := .announce, result := .function function.text } :: b.quads) ++
          [{ op := .call, left := .function function.text,
             result := .temporary b.temps.alloc.1 entry.returns }] := rfl
    exact .made hquads rfl rfl

end Meaning

end Piece

open Duck

/-! ### Parses -/

/-- A parse of an expression drives an emitter to one with its code, unless it is a comparison that
a header waits for. -/
def Expression.IsDriven {rank : Rank} (expr : Expression rank) : Prop :=
  ∀ (e : Emitter) {type : DataType} {tokens : List Token}, expr.type? e.scope = some type →
    tokens.map Token.word = expr.words → Sheltered e →
    (awaitsCondition e = true → expr.isComparison = false) →
    ∃ b x, Drives Grammar.duck [n rank.head] tokens e [x] (e.put b) ∧
      (rank = .whole → x = .expression) ∧ b.Renders e.scope e.temps expr type

/-- Arguments as they are listed, if there are any. -/
def Arguments.Lists (tokens : List Token) (e e' : Emitter) : Arguments → Prop
  | .none => tokens = [] ∧ e' = e
  | .also .. => ∃ x, Drives Grammar.duck [n "ArgList"] tokens e [x] e'

/-- A parse of the arguments of a call drives an emitter to one with their code. -/
def Arguments.IsDriven (args : Arguments) : Prop :=
  ∀ (e : Emitter) {function : String} {calls : List Call} {entry : Scope.Entry}
    {types : List DataType} {tokens : List Token},
    e.calls = { function, arguments := 0 } :: calls → e.scope.entryOf? function = some entry →
    args.types? e.scope = some types →
    (∀ {i : Nat} {type : DataType}, types[i]? = some type →
      ∃ param, entry.params[i]? = some param ∧ Cube.canAssign param.type type = true) →
    tokens.map Token.word = args.words → Sheltered e → awaitsCondition e = false →
    ∃ b, args.Lists tokens e (e.passing b types.length) ∧
      b.Fills e.scope e.temps entry.params args types.length

namespace Expression.IsDriven

theorem var (name : Name) : (Expression.var name).IsDriven := by
  intro e type tokens htype hwords _ _
  obtain ⟨symbol, hsymbol, rfl⟩ := Option.map_eq_some_iff.mp htype
  obtain ⟨tok, _, rfl, htok, hnil⟩ := List.map_eq_cons_iff.mp hwords
  obtain rfl := List.map_eq_nil_iff.mp hnil
  obtain ⟨x, h⟩ := drives_variable hsymbol htok
  exact ⟨_, x, h, by simp, Piece.renders_variable hsymbol⟩

theorem constant (c : Constant) : (Expression.constant c).IsDriven := by
  intro e type tokens htype hwords _ _
  obtain ⟨v, hvalue, rfl⟩ := Option.map_eq_some_iff.mp htype
  exact ⟨_, _, drives_constant hvalue hwords, by simp, Piece.renders_constant hvalue⟩

theorem group {inner : Expression .whole} (ih : inner.IsDriven) :
    (Expression.group inner).IsDriven := by
  intro e type tokens htype hwords hshelter _
  obtain ⟨opening, _, rfl, hopening, hwords⟩ := List.map_eq_cons_iff.mp hwords
  obtain ⟨text, _, rfl, htext, hwords⟩ := List.map_eq_append_iff.mp hwords
  obtain ⟨closing, _, rfl, hclosing, hnil⟩ := List.map_eq_cons_iff.mp hwords
  obtain rfl := List.map_eq_nil_iff.mp hnil
  -- inside of parentheses no header waits
  obtain ⟨b, x, h, _, hrenders⟩ := ih { e with operators := .paren :: e.operators } htype htext
    (hshelter.push _) fun h => absurd (h.symm.trans (hshelter.not_awaits .paren)) (by simp)
  exact ⟨b, _, drives_group hopening hclosing h, fun _ => rfl, hrenders.group⟩

theorem loosen {rank loose : Rank} {inner : Expression rank} (ih : inner.IsDriven)
    (hbelow : rank.Below loose) : (Expression.loosen hbelow inner).IsDriven := by
  intro e type tokens htype hwords hshelter _
  obtain ⟨b, x, h, _, hrenders⟩ := ih e htype hwords hshelter fun _ =>
    inner.isComparison_of_rank (by rintro rfl; cases hbelow)
  obtain ⟨y, h, hy⟩ := drives_loosen hbelow h
  exact ⟨b, y, h, hy, hrenders.loosen hbelow⟩

/-- The operands of an operation, up to the reduction that makes it. -/
theorem operands {left right rank : Rank} {l : Expression left} {r : Expression right}
    (hl : l.IsDriven) (hr : r.IsDriven) {op : Operation} (hbinds : op.Binds left right rank)
    {e : Emitter} {type : DataType} {tokens : List Token}
    (htype : (Expression.binary op hbinds l r).type? e.scope = some type)
    (hwords : tokens.map Token.word = (Expression.binary op hbinds l r).words)
    (hshelter : Sheltered e) :
    ∃ a b head x y z, Cube.result? a.type op.operator b.type = some type ∧
      (a.combine op type b).Renders e.scope e.temps (.binary op hbinds l r) type ∧
      rule rank.head [n left.head, n head, n right.head] ∈
        Grammar.Duck.statementRules ++ Grammar.Duck.expressionRules ∧
      Drives Grammar.duck [n left.head, n head, n right.head] tokens e [x, z, y]
        { (e.put a).put b with operators := .operator op.operator :: e.operators } := by
  obtain ⟨ts, _, rfl, hts, hwords⟩ := List.map_eq_append_iff.mp hwords
  obtain ⟨tok, us, rfl, htok, hus⟩ := List.map_eq_cons_iff.mp hwords
  obtain ⟨head, hrule, heffect, hjoin⟩ := operator_rules hbinds
  have hranks : left ≠ .whole ∧ right ≠ .whole := by cases hbinds <;> simp
  simp only [Expression.type?] at htype
  split at htype
  · rename_i t u ht hu
    obtain ⟨a, x, hleft, _, ha⟩ := hl e ht hts hshelter fun _ => l.isComparison_of_rank hranks.1
    obtain ⟨b, y, hright, _, hb⟩ := hr
      { e.put a with operators := .operator op.operator :: e.operators } hu hus (hshelter.push _)
      fun _ => r.isComparison_of_rank hranks.2
    obtain ⟨z, hbody⟩ := drives_operands hrule heffect htok hleft hright
    rw [← ha.type_eq, ← hb.type_eq] at htype
    exact ⟨a, b, head, x, y, z, htype, ha.combine hb hbinds htype, hjoin, hbody⟩
  · cases htype

theorem binary {left right rank : Rank} {l : Expression left} {r : Expression right}
    (hl : l.IsDriven) (hr : r.IsDriven) {op : Operation} (hbinds : op.Binds left right rank) :
    (Expression.binary op hbinds l r).IsDriven := by
  intro e type tokens htype hwords hshelter hfree
  obtain ⟨a, b, head, x, y, z, hresult, hrenders, hrule, hbody⟩ :=
    operands hl hr hbinds htype hwords hshelter
  refine ⟨_, _, drives_rule _ _ hrule hbody (run_binary hbinds hresult ?_ x y z), fun _ => rfl,
    hrenders⟩
  rintro hawaits rfl
  cases hbinds
  cases hfree hawaits

end Expression.IsDriven

theorem Emitter.passing_blank {e : Emitter} {function : String} {calls : List Call}
    (hcalls : e.calls = { function, arguments := 0 } :: calls) :
    e.passing (.blank e.temps) 0 = e := by
  obtain ⟨⟩ := e
  simp_all [passing, Piece.blank]

namespace Arguments.IsDriven

theorem none : Arguments.none.IsDriven := by
  intro e function calls entry types tokens hcalls _ htypes _ hwords _ _
  obtain rfl := Option.some.inj htypes
  obtain rfl := List.map_eq_nil_iff.mp hwords
  exact ⟨.blank e.temps, ⟨rfl, passing_blank hcalls⟩, Piece.fills_none _⟩

theorem also {before : Arguments} {last : Expression .whole} (hbefore : before.IsDriven)
    (hlast : last.IsDriven) : (Arguments.also before last).IsDriven := by
  intro e function calls entry types tokens hcalls hentry htypes hfits hwords hshelter hawaits
  simp only [Arguments.types?] at htypes
  split at htypes
  · rename_i types type hbeforeTypes hlastType
    obtain rfl := Option.some.inj htypes
    obtain ⟨us, vs, rfl, hus, hvs⟩ := List.map_eq_append_iff.mp hwords
    obtain ⟨ts, separator, rfl, hts, hseparator⟩ := List.map_eq_append_iff.mp hus
    obtain ⟨b, hlists, hb⟩ := hbefore e hcalls hentry hbeforeTypes
      (fun hi => hfits (List.getElem?_append_left (List.getElem?_eq_some_iff.mp hi).1 ▸ hi)) hts
      hshelter hawaits
    have hnext : (types ++ [type])[types.length]? = some type := by simp
    obtain ⟨param, hparam, hassign⟩ := hfits hnext
    obtain ⟨a, x, hexpr, _, ha⟩ := hlast (e.passing b types.length) hlastType hvs hshelter
      fun h => absurd (h.symm.trans hawaits) (by simp)
    rw [← ha.type_eq] at hassign
    have hargument : Drives Grammar.duck [n "Arg"] vs (e.passing b types.length) [.nothing]
        (e.passing (b.pass a param) (types.length + 1)) :=
      drives_rule "Arg" [n "Expr"] (by decide) hexpr
        (Emit.run_bind (run_argument hcalls hentry hparam hassign))
    rw [List.length_append]
    refine ⟨b.pass a param, ?_, hb.pass ha hparam⟩
    cases before with
    | none =>
      obtain ⟨rfl, hnone⟩ := hlists
      obtain rfl := List.map_eq_nil_iff.mp hseparator
      rw [hnone] at hargument
      exact ⟨_, drives_unit "ArgList" "Arg" (by decide) rfl hargument⟩
    | also first more =>
      obtain ⟨y, hlist⟩ := hlists
      obtain ⟨comma, _, rfl, hcomma, hnil⟩ := List.map_eq_cons_iff.mp hseparator
      obtain rfl := List.map_eq_nil_iff.mp hnil
      have hbody := drives_cons hlist (drives_cons (drives_word (Prod.mk.inj hcomma).1 rfl rfl)
        hargument)
      rw [List.append_assoc]
      exact ⟨_, drives_rule "ArgList" [n "ArgList", t ",", n "Arg"] (by decide) hbody rfl⟩
  · cases htypes

end Arguments.IsDriven

theorem Scope.entryOf?_of_lookupFunction {s : Scope} {name : String} {entry : Scope.Entry}
    (h : s.lookupFunction name = .ok entry) : s.entryOf? name = some entry := by
  simp only [Scope.lookupFunction] at h
  split at h
  · split at h <;> cases h
    assumption
  · cases h

/-- The parameters of a function that takes arguments of some types. -/
theorem Scope.Entry.takes_spec {entry : Scope.Entry} {types : List DataType}
    (h : entry.takes types = true) :
    types.length = entry.params.length ∧ ∀ {i : Nat} {type : DataType}, types[i]? = some type →
      ∃ param, entry.params[i]? = some param ∧ Cube.canAssign param.type type = true := by
  simp only [takes, Bool.and_eq_true, decide_eq_true_eq, List.all_eq_true] at h
  refine ⟨h.1, fun {i type} hi => ?_⟩
  have hlt := (List.getElem?_eq_some_iff.mp hi).1
  obtain ⟨param, hparam⟩ : ∃ param, entry.params[i]? = some param :=
    ⟨_, List.getElem?_eq_getElem (h.1 ▸ hlt)⟩
  refine ⟨param, hparam, h.2 (param, type) (List.mem_iff_getElem?.mpr ⟨i, ?_⟩)⟩
  rw [List.getElem?_zip_eq_some]
  exact ⟨hparam, hi⟩

/-- The arguments of a call, if it has any. -/
theorem Arguments.Lists.drives {args : Arguments} {tokens : List Token} {e e' : Emitter}
    (h : args.Lists tokens e e') : ∃ x, Drives Grammar.duck [n "ArgsOpt"] tokens e [x] e' := by
  cases args with
  | none =>
    obtain ⟨rfl, rfl⟩ := h
    exact ⟨_, drives_rule "ArgsOpt" [] (by decide) (.nil _) rfl⟩
  | also before last =>
    obtain ⟨x, hlist⟩ := h
    exact ⟨x, drives_unit _ _ (by decide) rfl hlist⟩

theorem Arguments.IsDriven.call {args : Arguments} (hargs : args.IsDriven) (function : Name) :
    (Expression.call function args).IsDriven := by
  intro e type tokens htype hwords hshelter _
  simp only [Expression.type?] at htype
  split at htype
  · rename_i entry types hfunction htypes
    split at htype
    · rename_i htakes
      obtain rfl := Option.some.inj htype
      simp only [Bool.and_eq_true, decide_eq_true_eq] at htakes
      obtain ⟨hlength, hfits⟩ := Scope.Entry.takes_spec htakes.1
      have hentry := Scope.entryOf?_of_lookupFunction hfunction
      obtain ⟨name, _, rfl, hname, hwords⟩ := List.map_eq_cons_iff.mp hwords
      obtain ⟨opening, _, rfl, hopening, hwords⟩ := List.map_eq_cons_iff.mp hwords
      obtain ⟨text, _, rfl, htext, hwords⟩ := List.map_eq_append_iff.mp hwords
      obtain ⟨closing, _, rfl, hclosing, hnil⟩ := List.map_eq_cons_iff.mp hwords
      obtain rfl := List.map_eq_nil_iff.mp hnil
      -- the mark of the argument list shelters the arguments
      obtain ⟨b, hlists, hb⟩ := hargs (e.announcing function.text) rfl hentry htypes hfits htext
        (hshelter.push .paren) (hshelter.not_awaits .paren)
      obtain ⟨x, hlisted⟩ := hlists.drives
      rw [hlength] at hlisted
      have hhead : Drives Grammar.duck [n "CallHead"] [name] e [.lexeme function.text]
          (e.announcing function.text) := by
        refine drives_rule "CallHead" [t "id"] (by decide)
          (drives_word (Prod.mk.inj hname).1 rfl rfl) ?_
        rw [(Prod.mk.inj hname).2, ofText_name]
        exact Emit.run_bind (run_beginCall hfunction)
      have hcall : Drives Grammar.duck [n "Call"] (name :: opening :: (text ++ [closing])) e
          [.call function.text] (e.put (b.called function.text entry.returns)) :=
        drives_rule "Call" [n "CallHead", t "(", n "ArgsOpt", t ")"] (by decide)
          (drives_cons hhead (drives_cons (drives_word (Prod.mk.inj hopening).1 rfl rfl)
            (drives_cons hlisted (drives_word (Prod.mk.inj hclosing).1 rfl rfl))))
          (Emit.run_bind (run_endCall hentry htakes.2))
      exact ⟨_, _, drives_rule "Factor" [n "Call"] (by decide) hcall rfl, by simp,
        hb.called hentry⟩
    · cases htype
  · cases htype

mutual

theorem Expression.drives {rank : Rank} : (expr : Expression rank) → expr.IsDriven
  | .var name => .var name
  | .constant c => .constant c
  | .group e => e.drives.group
  | .call function args => args.drives.call function
  | .loosen h e => e.drives.loosen h
  | .binary _ h l r => l.drives.binary r.drives h

theorem Arguments.drives : (args : Arguments) → args.IsDriven
  | .none => .none
  | .also before last => before.drives.also last.drives

end

/-- A comparison where a header waits for one becomes its condition. -/
theorem Expression.drives_header {expr : Expression .whole} (e : Emitter) {type : DataType}
    {tokens : List Token} (htype : expr.type? e.scope = some type)
    (hwords : tokens.map Token.word = expr.words) (hshelter : Sheltered e)
    (hawaits : awaitsCondition e = true) (hcomparison : expr.isComparison = true) :
    ∃ b, Drives Grammar.duck [n "Expr"] tokens e [.expression] (e.putHeader b) ∧
      b.Renders e.scope e.temps expr type := by
  cases expr with
  | loosen hbelow inner => cases hcomparison
  | @binary left right _ op hbinds l r =>
    obtain ⟨a, b, head, x, y, z, hresult, hrenders, hrule, hbody⟩ :=
      IsDriven.operands l.drives r.drives hbinds htype hwords hshelter
    cases hbinds with
    | @comparison op =>
      have hrun := run_generateRelational (e := e) hresult
      rw [if_pos hawaits, run_emitConditionJump _ (controls_of_awaits hawaits)] at hrun
      exact ⟨_, drives_rule _ _ hrule hbody (Emit.run_bind hrun), hrenders⟩

/-! ### Expressions without calls -/

namespace Expr

variable {rank : Rank} {e : Emitter} {b : Piece} {tokens : List Token}

theorem type?_of_makes {expr : Expr rank} {s : Scope} {temps : TempPool}
    (h : expr.tree.Makes s temps b) : expr.expression.type? s = some b.type :=
  (Expression.type?_of_tree s expr.tree?_eq).trans h.type_eq

/-- A parse of an expression without calls drives an emitter to one with the code of its tree. -/
theorem drives (expr : Expr rank) (hcode : expr.tree.Makes e.scope e.temps b)
    (hwords : tokens.map Token.word = expr.words) (hshelter : Sheltered e)
    (hfree : awaitsCondition e = true → expr.isComparison = false) :
    ∃ x, Drives Grammar.duck [n rank.head] tokens e [x] (e.put b) ∧
      (rank = .whole → x = .expression) := by
  obtain ⟨c, x, hdrives, hx, hrenders⟩ :=
    expr.expression.drives e (type?_of_makes hcode) hwords hshelter hfree
  obtain rfl := (hrenders.makes expr.tree?_eq).unique hcode
  exact ⟨x, hdrives, hx⟩

theorem drives_header {expr : Expr .whole} (hcode : expr.tree.Makes e.scope e.temps b)
    (hwords : tokens.map Token.word = expr.words) (hshelter : Sheltered e)
    (hawaits : awaitsCondition e = true) (hcomparison : expr.isComparison = true) :
    Drives Grammar.duck [n "Expr"] tokens e [.expression] (e.putHeader b) := by
  obtain ⟨c, hdrives, hrenders⟩ :=
    Expression.drives_header e (type?_of_makes hcode) hwords hshelter hawaits hcomparison
  obtain rfl := (hrenders.makes expr.tree?_eq).unique hcode
  exact hdrives

end Expr

/-! ### Conditions of headers -/

namespace Emitter

/-- The emitter with the header of a construct open. -/
def entered (e : Emitter) (construct : Construct) : Emitter :=
  { e with controls :=
      { construct, isOpen := true, depth := e.operators.length, falseJump := none } :: e.controls }

/-- The emitter behind the header of a construct, whose test is made with a jump out of it. -/
def headed (e : Emitter) (construct : Construct) (b : Piece) : Emitter :=
  { e with
    quads := (e.quads ++ b.quads.toArray).push
      { op := .gotoFalse, left := b.operand, result := .pending }
    temps := b.temps.without b.operand
    controls := { construct, isOpen := false, depth := e.operators.length,
                  falseJump := some (e.quads.size + b.quads.length) } :: e.controls }

theorem entered_awaits (e : Emitter) (construct : Construct) :
    awaitsCondition (e.entered construct) = true := by
  simp [awaitsCondition, entered]

theorem entered_sheltered (e : Emitter) (construct : Construct) :
    Sheltered (e.entered construct) := by
  rintro c ⟨⟩ _ _
  exact Nat.le_refl _

/-- The end of a header whose comparison has made its jump. -/
theorem run_leaveHeader_made (e : Emitter) (construct : Construct) (b : Piece) :
    leaveHeader.run ((e.entered construct).putHeader b) = .ok () (e.headed construct b) := by
  refine Ensures.run ?_
  simp [leaveHeader, topControl, setTopControl, entered, putHeader, headed]

/-- The end of a header whose comparison stands in parentheses. -/
theorem run_leaveHeader_waiting (e : Emitter) (construct : Construct) {b : Piece}
    (htop : topIsRelational ((e.entered construct).put b) = true) :
    leaveHeader.run ((e.entered construct).put b) = .ok () (e.headed construct b) := by
  refine Ensures.run ?_
  simp only [leaveHeader, topControl, setTopControl, entered, put, ensures_bind, ensures_get,
    ensures_pure, ensures_modify, Option.isNone_none, if_true, List.tail_cons]
  simp only [topIsRelational, entered, put] at htop
  simp only [topIsRelational, htop, if_true, emitConditionJump, topControl, setTopControl,
    ensures_bind, ensures_get, ensures_pure, ensures_popOperand, ensures_emit, ensures_modify,
    ensures_release, List.tail_cons, headed, Array.size_append, List.size_toArray]
  trivial

/-- The end of a header whose condition is no comparison. -/
theorem run_leaveHeader_refused (e : Emitter) (construct : Construct) {b : Piece}
    (htop : topIsRelational ((e.entered construct).put b) = false) :
    ∃ e', leaveHeader.run ((e.entered construct).put b) =
      .error .conditionNotRelational e' := by
  have h : Ensures leaveHeader ((e.entered construct).put b)
      (fun cause => cause = .conditionNotRelational) fun _ _ => False := by
    simp only [topIsRelational, entered, put] at htop
    simp only [leaveHeader, topControl, setTopControl, entered, put, ensures_bind, ensures_get,
      ensures_pure, ensures_modify, Option.isNone_none, if_true, List.tail_cons, topIsRelational,
      htop, Bool.false_eq_true, if_false, ensures_fail]
  cases hrun : leaveHeader.run ((e.entered construct).put b) with
  | ok a e' => exact (Ensures.ok h hrun).elim
  | error cause e' =>
    obtain rfl := Ensures.error h hrun
    exact ⟨e', rfl⟩

end Emitter

/-- The condition of a header, up to its end: it is closed or refused by what the condition is. -/
theorem Expression.drives_test (expr : Expression .whole) (e : Emitter) (construct : Construct)
    {type : DataType} {tokens : List Token} (htype : expr.type? e.scope = some type)
    (hwords : tokens.map Token.word = expr.words) :
    ∃ b e₁ x, Drives Grammar.duck [n "Expr"] tokens (e.entered construct) [x] e₁ ∧
      b.Renders e.scope e.temps expr type ∧
      (expr.isRelational = true → leaveHeader.run e₁ = .ok () (e.headed construct b)) ∧
      (expr.isRelational = false →
        ∃ e₂, leaveHeader.run e₁ = .error .conditionNotRelational e₂) := by
  have hawaits := entered_awaits e construct
  have hshelter := entered_sheltered e construct
  by_cases hcomparison : expr.isComparison = true
  · -- the header waits for this very comparison
    obtain ⟨b, hdrives, hrenders⟩ :=
      Expression.drives_header (e.entered construct) htype hwords hshelter hawaits hcomparison
    refine ⟨b, _, _, hdrives, hrenders, fun _ => run_leaveHeader_made e construct b, fun h => ?_⟩
    rw [expr.isRelational_of_isComparison hcomparison] at h
    cases h
  · obtain ⟨b, x, hdrives, _, hrenders⟩ := expr.drives (e.entered construct) htype hwords hshelter
      fun _ => by simpa using hcomparison
    have htop := hrenders.ends.topIsRelational (e.entered construct)
    exact ⟨b, _, x, hdrives, hrenders,
      fun h => run_leaveHeader_waiting e construct (htop.trans h),
      fun h => run_leaveHeader_refused e construct (htop.trans h)⟩

end DuckLang
