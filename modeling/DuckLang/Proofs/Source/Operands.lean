import DuckLang.Proofs.Duck.Walks
import DuckLang.Proofs.Parser.Drives
import DuckLang.Proofs.Source.Piece

/-! The parts of an expression: what the tokens and the reductions of each of them drive an emitter
to.  A piece of code is appended and its operand left on the stack, whatever waits there already; a
comparison that a header waits for becomes its condition. -/

namespace DuckLang

open Emitter
open Emit (Ensures)
open DuckLang.Parser (Drives Effect reduceEffect shiftEffect)
open Grammar.Duck (rule t n)

/-- An operation that gives one value and one emitter runs to them. -/
theorem Emit.Ensures.run {α : Type} {m : Emit α} {e e' : Emitter} {a : α}
    (h : Ensures m e (fun _ => False) fun b f => b = a ∧ f = e') : m.run e = .ok a e' := by
  cases hrun : m.run e with
  | ok b f =>
    obtain ⟨rfl, rfl⟩ := Ensures.ok h hrun
    rfl
  | error cause f => exact (Ensures.error h hrun).elim

theorem Emit.run_bind {α β : Type} {m : Emit α} {f : α → Emit β} {e e' : Emitter} {a : α}
    (h : m.run e = .ok a e') : (m >>= f).run e = (f a).run e' := by
  simp only [EStateM.run, bind, EStateM.bind] at h ⊢
  rw [h]

namespace Emitter

/-- The emitter with a piece of code more and its operand on top. -/
def put (e : Emitter) (b : Piece) : Emitter :=
  { e with
    quads := e.quads ++ b.quads.toArray
    operands := (b.operand, b.type) :: e.operands
    temps := b.temps }

/-- The emitter with a piece of code more and the jump of the innermost header behind it, which takes
its operand as the condition. -/
def putHeader (e : Emitter) (b : Piece) : Emitter :=
  { e with
    quads := (e.quads ++ b.quads.toArray).push
      { op := .gotoFalse, left := b.operand, result := .pending }
    controls := e.controls.modifyHead fun c =>
      { c with falseJump := some (e.quads.size + b.quads.length) }
    temps := b.temps.without b.operand }

/-- No header is waiting for a condition that would stand further out. -/
def Sheltered (e : Emitter) : Prop :=
  ∀ c ∈ e.controls.head?, c.isOpen = true → c.falseJump = none → c.depth ≤ e.operators.length

theorem Sheltered.not_awaits {e : Emitter} (h : Sheltered e) (w : Waiting) :
    awaitsCondition { e with operators := w :: e.operators } = false := by
  simp only [awaitsCondition]
  split
  · rfl
  · rename_i c controls hcontrols
    have hdepth := h c (by rw [hcontrols]; rfl)
    by_cases hopen : c.isOpen = true
    · by_cases hjump : c.falseJump = none
      · have := hdepth hopen hjump
        simp only [List.length_cons, Bool.and_eq_false_imp, decide_eq_false_iff_not]
        intros
        omega
      · simp [hjump]
    · simp [hopen]

theorem Sheltered.push {e : Emitter} (h : Sheltered e) (w : Waiting) :
    Sheltered { e with operators := w :: e.operators } := by
  intro c hc hopen hjump
  have := h c hc hopen hjump
  simp only [List.length_cons]
  omega

theorem run_generateBinary {e : Emitter} {a b : Piece} (op : Operation) {type : DataType}
    (htype : Cube.result? a.type op.operator b.type = some type) (w : Waiting) :
    (generateBinary op.operator).run { (e.put a).put b with operators := w :: e.operators } =
      .ok () (e.put (a.combine op type b)) := by
  refine Ensures.run ?_
  simp only [generateBinary, put, ensures_bind, ensures_popOperand, ensures_modify, htype,
    ensures_newTemp, ensures_emit, ensures_pushOperand, ensures_release, List.tail_cons,
    Piece.combine, true_and]
  have hquads : ∀ q : Quad, (e.quads ++ a.quads.toArray ++ b.quads.toArray).push q =
      e.quads ++ (a.quads ++ b.quads ++ [q]).toArray := by
    intro q
    simp
  rw [hquads]

/-- A comparison is made, and the jump of a header that waits for it. -/
theorem run_generateRelational {e : Emitter} {a b : Piece} {op : RelOp} {type : DataType}
    (htype : Cube.result? a.type (.rel op) b.type = some type) :
    generateRelational.run
        { (e.put a).put b with operators := .operator (.rel op) :: e.operators } =
      if awaitsCondition e then emitConditionJump.run (e.put (a.combine (.rel op) type b))
      else .ok () (e.put (a.combine (.rel op) type b)) := by
  have hbinary := run_generateBinary (e := e) (.rel op) htype (.operator (.rel op))
  have hawaits : awaitsCondition (e.put (a.combine (.rel op) type b)) = awaitsCondition e := rfl
  have hrun := Emit.run_bind (f := fun _ => do
    if awaitsCondition (← get) then emitConditionJump) hbinary
  refine hrun.trans ?_
  rw [← hawaits]
  show (if awaitsCondition (e.put (a.combine (.rel op) type b)) = true then emitConditionJump
    else pure PUnit.unit).run (e.put (a.combine (.rel op) type b)) = _
  split
  · rfl
  · rfl

theorem run_emitConditionJump {e : Emitter} (b : Piece) (hcontrols : e.controls ≠ []) :
    emitConditionJump.run (e.put b) = .ok () (e.putHeader b) := by
  refine Ensures.run ?_
  obtain ⟨c, controls, hcontrols⟩ := List.exists_cons_of_ne_nil hcontrols
  simp only [emitConditionJump, topControl, setTopControl, put, putHeader, ensures_bind,
    ensures_get, hcontrols, ensures_pure, ensures_popOperand, ensures_emit, ensures_modify,
    ensures_release, List.tail_cons, List.modifyHead_cons, Array.size_append, List.size_toArray, true_and]

theorem controls_of_awaits {e : Emitter} (h : awaitsCondition e = true) : e.controls ≠ [] := by
  intro hnil
  simp [awaitsCondition, hnil] at h

end Emitter

def Rank.head : Rank → String
  | factor => "Factor"
  | term => "Term"
  | sum => "Exp"
  | whole => "Expr"

namespace Duck

/-! ### Derivations -/

theorem production_index {p : Grammar.Production}
    (h : p ∈ Grammar.Duck.statementRules ++ Grammar.Duck.expressionRules) :
    ∃ id : Nat, Grammar.duck.productions[id]? = some p := by
  have hmem : p ∈ Grammar.duck.productions := by
    simp only [List.mem_append] at h
    simp only [Grammar.duck, Grammar.ofProductions_productions, List.mem_toArray, List.mem_cons,
      List.mem_append]
    tauto
  obtain ⟨id, hid⟩ := Array.mem_iff_getElem?.mp hmem
  exact ⟨id, hid⟩

variable {e e₁ e₂ e' : Emitter} {u v : List Token} {symbols : List Grammar.Symbol}

theorem drives_rule (head : String) (body : List Grammar.Symbol) {inner : List Attribute}
    {a : Attribute}
    (hrule : rule head body ∈ Grammar.Duck.statementRules ++ Grammar.Duck.expressionRules)
    (hbody : Drives Grammar.duck body u e inner e₁)
    (heffect : (reduceEffect head inner).run e₁ = .ok a e') :
    Drives Grammar.duck [.nonterminal head] u e [a] e' := by
  obtain ⟨id, hid⟩ := production_index hrule
  have h := Drives.reduce hid hbody heffect (.nil e')
  rwa [List.append_nil] at h

theorem drives_cons {symbol : Grammar.Symbol} {a : Attribute} {as : List Attribute}
    (h : Drives Grammar.duck [symbol] u e [a] e₁) (hrest : Drives Grammar.duck symbols v e₁ as e') :
    Drives Grammar.duck (symbol :: symbols) (u ++ v) e (a :: as) e' :=
  h.append hrest

theorem drives_word {tok : Token} {kind : Token.Kind} {name : String} (htok : tok.kind = kind)
    (hname : kind.terminal = name) (hplain : Hook.of? name = none) :
    Drives Grammar.duck [t name] [tok] e [.ofText tok.text] e := by
  subst htok hname
  refine .shift ?_ (.nil e)
  rw [shiftEffect_plain hplain]
  rfl

/-! ### Tokens -/

theorem text_ofText (text : String) : (Attribute.ofText text).text = text := by
  have hafter : ∀ {start rest : String},
      Attribute.after? start.toList text.toList = some rest → start ++ rest = text := by
    intro start rest h
    simp only [Attribute.after?] at h
    split at h
    · rename_i hprefix
      obtain ⟨tail, htail⟩ := List.isPrefixOf_iff_prefix.mp hprefix
      obtain rfl := Option.some.inj h
      rw [← String.toList_inj, String.toList_append, String.toList_ofList, ← htail,
        List.drop_left]
    · cases h
  simp only [Attribute.ofText]
  split
  · rename_i h
    exact h.symm
  · split
    · rename_i h
      exact h.symm
    · split
      · rename_i function h
        exact hafter h
      · split
        · rename_i function h
          exact hafter h
        · rfl

theorem waiting_operator (op : Operation) :
    Waiting.ofText op.kind.terminal = .operator op.operator := by
  rcases op with op | op
  · cases op <;> rfl
  · cases op <;> rfl

theorem hook_operator (op : Operation) : Hook.of? op.kind.terminal = none := by
  rcases op with op | op
  · cases op <;> rfl
  · cases op <;> rfl

/-! ### Parts of expressions -/

theorem drives_operands {left head right : String} {op : Operation} {tok : Token} {a b : Piece}
    {x y : Attribute}
    (hrule : rule head [t op.kind.terminal] ∈
      Grammar.Duck.statementRules ++ Grammar.Duck.expressionRules)
    (heffect : Effect.of? head 1 = some .operator)
    (htok : tok.word = op.kind.word) (hl : Drives Grammar.duck [n left] u e [x] (e.put a))
    (hr : Drives Grammar.duck [n right] v
      { e.put a with operators := .operator op.operator :: e.operators } [y]
      { (e.put a).put b with operators := .operator op.operator :: e.operators }) :
    ∃ z, Drives Grammar.duck [n left, n head, n right] (u ++ tok :: v) e [x, z, y]
      { (e.put a).put b with operators := .operator op.operator :: e.operators } := by
  obtain ⟨hkind, htext⟩ := Prod.mk.inj htok
  have hop : Drives Grammar.duck [n head] [tok] (e.put a) [.ofText tok.text]
      { e.put a with operators := .operator op.operator :: e.operators } := by
    refine drives_rule _ _ hrule (drives_word hkind rfl (hook_operator op)) (Ensures.run ?_)
    simp only [reduceEffect, List.length_singleton, heffect, Effect.run, ensures_bind,
      pushOperator, pushWaiting, ensures_modify, ensures_pure, text_ofText, htext, waiting_operator]
    exact ⟨trivial, rfl⟩
  exact ⟨_, drives_cons hl (drives_cons hop hr)⟩

theorem ofText_name (name : Name) : Attribute.ofText name.text = .lexeme name.text := by
  obtain ⟨text, htext, _⟩ : Lexeme "id" (.ofText name.text) := lexeme_of_spelled name.isName
  have hname := text_ofText name.text
  rw [htext] at hname ⊢
  exact congrArg Attribute.lexeme hname

theorem drives_variable {name : Name} {symbol : Symbol} {tok : Token}
    (hsymbol : e.scope.symbol? name.text = some symbol)
    (htok : tok.word = (.identifier, name.text)) :
    ∃ x, Drives Grammar.duck [n "Factor"] [tok] e [x] (e.put
      { operand := .address symbol.address symbol.type, type := symbol.type,
        temps := e.temps }) := by
  obtain ⟨hkind, htext⟩ := Prod.mk.inj htok
  refine ⟨.lexeme name.text, drives_rule "Factor" [t "id"] (by decide)
    (drives_word hkind rfl rfl) (Ensures.run ?_)⟩
  rw [htext, ofText_name]
  simp only [reduceEffect, List.length_singleton,
    show Effect.of? "Factor" 1 = some .factor from rfl, Effect.run, ensures_bind, pushVariable,
    ensures_lookup, Attribute.text, hsymbol, ensures_pushOperand, ensures_pure]
  simp [put]

theorem drives_literal {c : Literal} {v : Value} {tok : Token} (hvalue : c.value? = some v)
    (htok : tok.word = (c.kind, c.text)) :
    Drives Grammar.duck [n "Constant"] [tok] e [.constant]
      (e.put { operand := .literal v, type := v.type, temps := e.temps }) := by
  obtain ⟨hkind, htext⟩ := Prod.mk.inj htok
  have hliteral : literalValue tok.text = .ok v := by
    rw [htext]
    revert hvalue
    rw [Literal.value?]
    cases literalValue c.text <;> simp [Except.toOption]
  obtain ⟨hrule, hplain⟩ : rule "Constant" [t c.kind.terminal] ∈
      Grammar.Duck.statementRules ++ Grammar.Duck.expressionRules ∧
      Hook.of? c.kind.terminal = none := by
    have := c.isLiteral
    simp only [List.mem_cons, List.not_mem_nil, or_false] at this
    rcases this with h | h | h <;> rw [h] <;> exact ⟨by decide, rfl⟩
  refine drives_rule _ _ hrule (drives_word hkind rfl hplain) (Ensures.run ?_)
  simp only [reduceEffect, List.length_singleton,
    show Effect.of? "Constant" 1 = some .constant from rfl, Effect.run, text_ofText, hliteral,
    ensures_bind, ensures_lift_ok, pushLiteral, ensures_pushOperand, ensures_pure]
  simp [put]

theorem drives_negated {c : Literal} {v : Value} {minus tok : Token}
    (hvalue : c.value?.bind Value.negated? = some v) (hminus : minus.word = Token.Kind.minus.word)
    (htok : tok.word = (c.kind, c.text)) :
    Drives Grammar.duck [n "Factor"] [minus, tok] e [.constant]
      (e.put { operand := .literal v, type := v.type, temps := e.temps }) := by
  obtain ⟨w, hw, hv⟩ := Option.bind_eq_some_iff.mp hvalue
  refine drives_rule "Factor" [t "-", n "Constant"] (by decide)
    (drives_cons (drives_word (Prod.mk.inj hminus).1 rfl rfl) (drives_literal hw htok))
    (Ensures.run ?_)
  cases w <;> simp only [Value.negated?, Option.some.injEq, reduceCtorEq] at hv
  all_goals
    subst hv
    simp only [reduceEffect, List.length_cons, List.length_nil,
      show Effect.of? "Factor" (0 + 1 + 1) = some .negation from rfl, Effect.run, negateLiteral,
      ensures_bind, ensures_popOperand, put, Operand.literal, ensures_pushOperand, ensures_pure]
    exact ⟨trivial, rfl⟩

theorem drives_group {b : Piece} {opening closing : Token} {x : Attribute}
    (hopening : opening.word = Token.Kind.leftParen.word)
    (hclosing : closing.word = Token.Kind.rightParen.word)
    (h : Drives Grammar.duck [n "Expr"] u { e with operators := .paren :: e.operators } [x]
      { e.put b with operators := .paren :: e.operators }) :
    Drives Grammar.duck [n "Factor"] (opening :: (u ++ [closing])) e [.expression] (e.put b) := by
  have hparen : Drives Grammar.duck [n "LParen"] [opening] e [.nothing]
      { e with operators := .paren :: e.operators } := by
    refine drives_rule "LParen" [t "("] (by decide) (drives_word (Prod.mk.inj hopening).1 rfl rfl)
      (Ensures.run ?_)
    simp only [reduceEffect, List.length_singleton,
      show Effect.of? "LParen" 1 = some .openParen from rfl, Effect.run, openParen, pushWaiting,
      ensures_bind, ensures_modify, ensures_pure]
    exact ⟨trivial, trivial⟩
  have hend := drives_word (e := { e.put b with operators := .paren :: e.operators })
    (Prod.mk.inj hclosing).1 rfl (show Hook.of? ")" = none from rfl)
  refine drives_rule "Factor" [n "LParen", n "Expr", t ")"] (by decide)
    (drives_cons hparen (drives_cons h hend)) (Ensures.run ?_)
  simp only [reduceEffect, List.length_cons, List.length_nil,
    show Effect.of? "Factor" (0 + 1 + 1 + 1) = some .closeParen from rfl, Effect.run, closeParen,
    ensures_bind, ensures_get, ensures_set, ensures_pure]
  trivial

/-- An operation whose operands are on top and whose operator is on its stack. -/
theorem run_operation {head : String} {effect : Effect} {inner : List Attribute} {a b : Piece}
    {op : Operation} {type : DataType} {m : Emit Unit}
    (heffect : Effect.of? head inner.length = some effect)
    (hrun : effect.run inner = m >>= fun _ => pure .expression)
    (hm : m.run { (e.put a).put b with operators := .operator op.operator :: e.operators } =
      .ok () (e.put (a.combine op type b))) :
    (reduceEffect head inner).run
        { (e.put a).put b with operators := .operator op.operator :: e.operators } =
      .ok .expression (e.put (a.combine op type b)) := by
  simp only [reduceEffect, heffect, hrun]
  rw [Emit.run_bind hm]
  rfl

/-- A phrase that is another one: its attribute is passed on. -/
theorem drives_unit (head name : String) {x : Attribute}
    (hrule : rule head [n name] ∈ Grammar.Duck.statementRules ++ Grammar.Duck.expressionRules)
    (heffect : Effect.of? head 1 = none) (h : Drives Grammar.duck [n name] u e [x] e') :
    Drives Grammar.duck [n head] u e [x] e' := by
  refine drives_rule _ _ hrule h ?_
  simp only [reduceEffect, List.length_singleton, heffect]
  rfl

section Parts

variable {tokens : List Token}

theorem drives_constant {c : Constant} {v : Value} (hvalue : c.value? = some v)
    (hwords : tokens.map Token.word = c.words) :
    Drives Grammar.duck [n "Factor"] tokens e [.constant]
      (e.put { operand := .literal v, type := v.type, temps := e.temps }) := by
  obtain ⟨literal, isNegated⟩ := c
  cases isNegated with
  | false =>
    obtain ⟨tok, _, rfl, htok, hnil⟩ := List.map_eq_cons_iff.mp hwords
    obtain rfl := List.map_eq_nil_iff.mp hnil
    exact drives_rule "Factor" [n "Constant"] (by decide) (drives_literal hvalue htok) rfl
  | true =>
    obtain ⟨minus, _, rfl, hminus, hwords⟩ := List.map_eq_cons_iff.mp hwords
    obtain ⟨tok, _, rfl, htok, hnil⟩ := List.map_eq_cons_iff.mp hwords
    obtain rfl := List.map_eq_nil_iff.mp hnil
    exact drives_negated hvalue hminus htok

/-- A phrase that binds more tightly stands where a looser one may. -/
theorem drives_loosen {rank loose : Rank} (h : rank.Below loose) {x : Attribute} {e' : Emitter}
    (hdrives : Drives Grammar.duck [n rank.head] tokens e [x] e') :
    ∃ y, Drives Grammar.duck [n loose.head] tokens e [y] e' ∧
      (loose = .whole → y = .expression) := by
  cases h with
  | factor => exact ⟨x, drives_unit _ _ (by decide) rfl hdrives, by simp⟩
  | term => exact ⟨x, drives_unit _ _ (by decide) rfl hdrives, by simp⟩
  | sum =>
    exact ⟨.expression, drives_rule "Expr" [n "Exp"] (by decide) hdrives rfl, fun _ => rfl⟩

/-- The non-terminal of an operator, with the production that joins its operands. -/
theorem operator_rules {op : Operation} {left right rank : Rank} (h : op.Binds left right rank) :
    ∃ head, rule head [t op.kind.terminal] ∈
        Grammar.Duck.statementRules ++ Grammar.Duck.expressionRules ∧
      Effect.of? head 1 = some .operator ∧
      rule rank.head [n left.head, n head, n right.head] ∈
        Grammar.Duck.statementRules ++ Grammar.Duck.expressionRules := by
  cases h with
  | product hop => exact ⟨"MulOp", by rcases hop with rfl | rfl <;> decide, rfl, by decide⟩
  | sum hop => exact ⟨"AddOp", by rcases hop with rfl | rfl <;> decide, rfl, by decide⟩
  | @comparison op => exact ⟨"RelOp", by cases op <;> decide, rfl, by decide⟩

/-- The reduction that makes an operation, if it is none that a header waits for. -/
theorem run_binary {op : Operation} {left right rank : Rank} (h : op.Binds left right rank)
    {a b : Piece} {type : DataType} (htype : Cube.result? a.type op.operator b.type = some type)
    (hfree : awaitsCondition e = true → rank ≠ .whole) (x y z : Attribute) :
    (reduceEffect rank.head [x, z, y]).run
        { (e.put a).put b with operators := .operator op.operator :: e.operators } =
      .ok .expression (e.put (a.combine op type b)) := by
  have hbinary := run_generateBinary (e := e) op htype (.operator op.operator)
  cases h with
  | product hop =>
    refine run_operation (m := generateMultiplicative) rfl rfl ?_
    rcases hop with rfl | rfl <;> exact hbinary
  | sum hop =>
    refine run_operation (m := generateAdditive) rfl rfl ?_
    rcases hop with rfl | rfl <;> exact hbinary
  | comparison =>
    refine run_operation (m := generateRelational) rfl rfl ?_
    exact (run_generateRelational htype).trans (if_neg fun h => hfree h rfl)

end Parts

end Duck

/-! ### Calls -/

namespace Emitter

variable {e : Emitter}

def announcing (e : Emitter) (function : String) : Emitter :=
  { e with
    quads := e.quads.push { op := .announce, result := .function function }
    operators := .paren :: e.operators
    calls := { function, arguments := 0 } :: e.calls }

/-- The emitter with a number of arguments of the innermost call copied. -/
def passing (e : Emitter) (b : Piece) (count : Nat) : Emitter :=
  { e with
    quads := e.quads ++ b.quads.toArray
    temps := b.temps
    calls := e.calls.modifyHead fun c => { c with arguments := count } }

theorem run_beginCall {function : String} {entry : Scope.Entry}
    (hfunction : e.scope.lookupFunction function = .ok entry) :
    (beginCall function).run e = .ok () (e.announcing function) := by
  refine Ensures.run ?_
  simp only [beginCall, openParen, pushWaiting, ensures_bind, ensures_get, hfunction,
    ensures_lift_ok, ensures_emit, ensures_modify, announcing]
  trivial

theorem run_argument {function : String} {calls : List Call} {count : Nat}
    {entry : Scope.Entry} {a b : Piece} {param : Symbol}
    (hcalls : e.calls = { function, arguments := 0 } :: calls)
    (hentry : e.scope.entryOf? function = some entry) (hparam : entry.params[count]? = some param)
    (htyped : Cube.canAssign param.type a.type = true) :
    argument.run ((e.passing b count).put a) =
      .ok () (e.passing (b.pass a param) (count + 1)) := by
  refine Ensures.run ?_
  simp only [argument, passing, put, hcalls, List.modifyHead_cons, ensures_bind, ensures_get,
    ensures_popOperand, callee, hentry, Option.getD_some, hparam, htyped, if_true, ensures_emit,
    ensures_release, ensures_modify, Piece.pass]
  simp

theorem run_endCall {function : String} {entry : Scope.Entry} {b : Piece}
    (hentry : e.scope.entryOf? function = some entry) (hreturns : entry.returns ≠ .void) :
    endCall.run ((e.announcing function).passing b entry.params.length) =
      .ok true (e.put (b.called function entry.returns)) := by
  refine Ensures.run ?_
  have hname : entry.name = function := Scope.entryOf?_name hentry
  simp only [endCall, announcing, passing, List.modifyHead_cons, ensures_bind, ensures_get,
    ensures_modify, callee, hentry, Option.getD_some, ne_eq, not_true_eq_false, if_false,
    closeParen, ensures_set, hreturns, ensures_newTemp, ensures_emit, ensures_pushOperand,
    ensures_pure, put, Piece.called, hname]
  simp

end Emitter

end DuckLang
