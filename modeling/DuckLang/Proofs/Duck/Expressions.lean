import DuckLang.Proofs.Duck.Walks

/-! The productions of expressions keep the discipline: whatever is between its operands, an
expression leaves one operand, unless it is the condition that a header waits for. -/

namespace DuckLang.Duck

open Emitter
open Draft (Takes)
open DuckLang.Parser (Effect)
open Grammar.Duck (rule t n)

variable {γ : Draft}

/-! ### Operators -/

/-- A token that stands for an operator is put on the stack. -/
theorem keeps_operator {head name : String} {phrase : Phrase} {w : Waiting}
    (hphrase : Phrase.of? head = some phrase) (heffect : Effect.of? head 1 = some .operator)
    (hready : ∀ γ, phrase.Ready γ → γ.Valid)
    (hmade : ∀ (γ : Draft) a γ', γ.Does γ' { γ.allStacks with
      operators := w :: γ.allStacks.operators } → phrase.Made γ a γ')
    (hplain : Hook.of? name = none)
    (hname : name ∉ ["id", "cte_string", "cte_int", "cte_float", "cte_char"])
    (hw : Waiting.ofText name = w) : Keeps (rule head [t name]) := by
  refine keeps_of_walk hphrase fun γ hγ => ?_
  refine walk_token hplain fun a ha => ?_
  refine walk_effect hphrase heffect (Takes.bind ?_)
  refine ((hready γ hγ).pushWaiting _).mono fun _ γ' hdoes => .pure (hmade γ a γ' ?_)
  rw [ha.text_eq hname, hw] at hdoes
  exact hdoes

theorem keeps_rel {name : String} (op : RelOp) (hplain : Hook.of? name = none)
    (hname : name ∉ ["id", "cte_string", "cte_int", "cte_float", "cte_char"])
    (hop : Waiting.ofText name = .operator (.rel op)) : Keeps (rule "RelOp" [t name]) :=
  keeps_operator rfl rfl (fun _ h => h) (fun _ _ _ h => ⟨op, h⟩) hplain hname hop

theorem keeps_arith {head name : String} {ops : List ArithOp} (op : ArithOp)
    (hphrase : Phrase.of? head = some (.arithmetic ops)) (hmem : op ∈ ops)
    (heffect : Effect.of? head 1 = some .operator) (hplain : Hook.of? name = none)
    (hname : name ∉ ["id", "cte_string", "cte_int", "cte_float", "cte_char"])
    (hop : Waiting.ofText name = .operator (.arith op)) : Keeps (rule head [t name]) :=
  keeps_operator hphrase heffect (fun _ h => h) (fun _ _ _ h => ⟨op, hmem, h⟩) hplain hname hop

/-! ### Operations -/

theorem awaitsCondition_congr {e e' : Emitter} (hcontrols : e'.controls = e.controls)
    (hoperators : e'.operators = e.operators) : awaitsCondition e' = awaitsCondition e := by
  simp only [awaitsCondition, hcontrols, hoperators]

theorem keeps_comparison : Keeps (rule "Expr" [n "Exp", n "RelOp", n "Exp"]) := by
  refine keeps_of_walk rfl ?_
  rintro γ ⟨hvalid, hheader⟩
  refine walk_phrase rfl hvalid ?_
  rintro _ γ₁ ⟨l, h₁⟩
  refine walk_phrase rfl h₁.valid ?_
  rintro _ γ₂ ⟨op, h₂⟩
  refine walk_phrase rfl h₂.valid ?_
  rintro _ γ₃ ⟨r, h₃⟩
  refine walk_effect rfl rfl (Takes.bind ?_)
  have hoperands : γ₃.emitter.operands = r :: l :: γ.allStacks.operands := by
    simp only [h₃.operands, h₂.allStacks, h₁.allStacks]
  have hoperators : γ₃.emitter.operators = .operator (.rel op) :: γ.allStacks.operators := by
    simp only [h₃.operators, h₂.allStacks, h₁.allStacks]
  have hcontrols : γ₃.emitter.controls = γ.emitter.controls := by
    simp only [h₃.controls, h₂.allStacks, h₁.allStacks]
    rfl
  have hcalls : γ₃.emitter.calls = γ.emitter.calls := by
    simp only [h₃.calls, h₂.allStacks, h₁.allStacks]
    rfl
  have hawaits : awaitsCondition { γ₃.emitter with operators := γ.allStacks.operators } =
      awaitsCondition γ.emitter := awaitsCondition_congr hcontrols rfl
  have hdone := h₁.trans (h₂.trans h₃)
  refine (h₃.valid.generateRelational hoperands hoperators ?_).mono ?_
  · rw [hawaits, hcontrols, hcalls]
    exact hheader
  · rintro _ γ' (⟨o, h⟩ | ⟨hawait, c, controls, i, hc, h⟩)
    · refine .pure ⟨rfl, .inl ⟨o, (hdone.trans h).of_eq ?_⟩⟩
      simp only [h₃.allStacks, h₂.allStacks, h₁.allStacks]
    · rw [hawaits] at hawait
      rw [hcontrols] at hc
      refine .pure ⟨rfl, .inr ⟨hawait, c, controls, i, hc, (hdone.trans h).of_eq ?_⟩⟩
      simp only [h₃.allStacks, h₂.allStacks, h₁.allStacks]

/-- An operand, one of some operators and another operand are made into one. -/
theorem keeps_operation {head operator last : String} {ops : List ArithOp} {effect : Effect}
    (hhead : Phrase.of? head = some .operand)
    (hoperator : Phrase.of? operator = some (.arithmetic ops))
    (hlast : Phrase.of? last = some .operand) (heffect : Effect.of? head 3 = some effect)
    (hrun : ∀ done, effect.run done = generateAmong ops >>= fun _ => pure .expression) :
    Keeps (rule head [n head, n operator, n last]) := by
  refine keeps_of_walk hhead fun γ hvalid => ?_
  refine walk_phrase hhead hvalid ?_
  rintro _ γ₁ ⟨l, h₁⟩
  refine walk_phrase hoperator h₁.valid ?_
  rintro _ γ₂ ⟨op, hop, h₂⟩
  refine walk_phrase hlast h₂.valid ?_
  rintro _ γ₃ ⟨r, h₃⟩
  refine walk_effect hhead heffect ?_
  rw [hrun]
  refine Takes.bind ?_
  have hoperands : γ₃.emitter.operands = r :: l :: γ.allStacks.operands := by
    simp only [h₃.operands, h₂.allStacks, h₁.allStacks]
  have hoperators : γ₃.emitter.operators = .operator (.arith op) :: γ.allStacks.operators := by
    simp only [h₃.operators, h₂.allStacks, h₁.allStacks]
  refine (h₃.valid.generateAmong hop hoperands hoperators).mono ?_
  rintro _ γ' ⟨o, h⟩
  refine .pure ⟨o, (h₁.trans (h₂.trans (h₃.trans h))).of_eq ?_⟩
  simp only [h₃.allStacks, h₂.allStacks, h₁.allStacks]

/-! ### Factors -/

/-- Inside of parentheses no header waits for a condition. -/
theorem not_awaits (h : γ.Valid) {w : Waiting} {operators : List Waiting}
    (hoperators : γ.emitter.operators = w :: operators) : awaitsCondition γ.emitter = false := by
  have hdepth := h.owners.depth
  simp only [awaitsCondition]
  split
  · rfl
  · rename_i c controls hcontrols
    rw [hcontrols] at hdepth
    have hzero := hdepth c List.mem_cons_self
    simp [hoperators, hzero]

theorem header_of_not_awaits {e : Emitter} (h : awaitsCondition e = false) : Header e := by
  intro hawaits
  rw [h] at hawaits
  cases hawaits

theorem keeps_parenthesized : Keeps (rule "Factor" [n "LParen", n "Expr", t ")"]) := by
  refine keeps_of_walk rfl fun γ hvalid => ?_
  refine walk_phrase rfl hvalid fun _ γ₁ h₁ => ?_
  have hawaits := not_awaits h₁.valid h₁.operators
  refine walk_phrase rfl ⟨h₁.valid, header_of_not_awaits hawaits⟩ ?_
  rintro _ γ₂ ⟨_, ⟨o, h₂⟩ | ⟨hawait, _⟩⟩
  · refine walk_token rfl fun _ _ => walk_effect rfl rfl (Takes.bind ?_)
    have hoperators : γ₂.emitter.operators = .paren :: γ.allStacks.operators := by
      simp only [h₂.operators, h₁.allStacks]
    refine (h₂.valid.closeParen hoperators).mono fun _ γ' h => ?_
    refine .pure ⟨o, (h₁.trans (h₂.trans h)).of_eq ?_⟩
    simp only [h₂.allStacks, h₁.allStacks]
  · rw [hawaits] at hawait
    cases hawait

theorem keeps_variable : Keeps (rule "Factor" [t "id"]) := by
  refine keeps_of_walk rfl fun γ hvalid => ?_
  refine walk_token rfl ?_
  rintro _ ⟨text, rfl, _⟩
  refine walk_effect rfl rfl (Takes.bind ?_)
  exact (Draft.Valid.pushVariable hvalid text).mono fun _ γ' h => .pure h

theorem keeps_callValue : Keeps (rule "Factor" [n "Call"]) := by
  refine keeps_of_walk rfl fun γ hvalid => ?_
  refine walk_phrase rfl hvalid ?_
  rintro _ γ₁ (⟨function, rfl, h₁⟩ | ⟨function, rfl, h₁⟩)
  · exact walk_effect rfl rfl (.pure h₁)
  · exact walk_effect rfl rfl rfl

theorem keeps_negation : Keeps (rule "Factor" [t "-", n "Constant"]) := by
  refine keeps_of_walk rfl fun γ hvalid => ?_
  refine walk_token rfl fun _ _ => walk_phrase rfl hvalid ?_
  rintro _ γ₁ ⟨_, o, h₁⟩
  refine walk_effect rfl rfl (Takes.bind ?_)
  refine (h₁.valid.negateLiteral h₁.operands).mono ?_
  rintro _ γ' ⟨o', h⟩
  refine .pure ⟨o', (h₁.trans h).of_eq ?_⟩
  simp only [h₁.allStacks]

theorem literalValue_error {lexeme : String} {cause : Cause}
    (h : literalValue lexeme = .error cause) : cause.Expected := by
  simp only [literalValue] at h
  split at h
  · split at h
    · cases h
    · obtain rfl := Except.error.inj h
      rfl
  · split at h
    · split at h
      · cases h
      · obtain rfl := Except.error.inj h
        rfl
    · split at h
      · cases h
      · obtain rfl := Except.error.inj h
        rfl

/-- A literal has a type with storage. -/
theorem literalValue_storable {lexeme : String} {v : Value} (h : literalValue lexeme = .ok v) :
    v.type.isStorable = true := by
  simp only [literalValue] at h
  split at h
  · split at h
    · obtain rfl := Except.ok.inj h
      rfl
    · cases h
  · split at h
    · split at h
      · obtain rfl := Except.ok.inj h
        rfl
      · cases h
    · split at h
      · obtain rfl := Except.ok.inj h
        rfl
      · cases h

theorem keeps_constant {name : String} (hplain : Hook.of? name = none) :
    Keeps (rule "Constant" [t name]) := by
  refine keeps_of_walk rfl fun γ hvalid => ?_
  refine walk_token hplain fun a _ => walk_effect rfl rfl ?_
  show Takes (lift (literalValue a.text) >>= fun v => pushLiteral v >>= fun _ =>
    pure Attribute.constant) γ _
  cases hvalue : literalValue a.text with
  | error cause => exact literalValue_error hvalue
  | ok v =>
    exact Takes.bind ⟨γ, rfl, Takes.bind ((Draft.Valid.pushLiteral hvalid
      (literalValue_storable hvalue)).mono fun _ γ' h => .pure ⟨rfl, h⟩)⟩

theorem keeps_expressionRules : ∀ p ∈ Grammar.Duck.expressionRules, Keeps p := by
  simp only [Grammar.Duck.expressionRules, List.forall_mem_cons, List.not_mem_nil,
    IsEmpty.forall_iff, implies_true, and_true]
  refine ⟨keeps_comparison, ?_, keeps_rel .gt rfl (by decide) rfl,
    keeps_rel .lt rfl (by decide) rfl, keeps_rel .eq rfl (by decide) rfl,
    keeps_rel .ne rfl (by decide) rfl, keeps_operation rfl rfl rfl rfl fun _ => rfl,
    keeps_unit rfl rfl rfl, keeps_arith .add rfl (by decide) rfl rfl (by decide) rfl,
    keeps_arith .sub rfl (by decide) rfl rfl (by decide) rfl,
    keeps_operation rfl rfl rfl rfl fun _ => rfl, keeps_unit rfl rfl rfl,
    keeps_arith .mul rfl (by decide) rfl rfl (by decide) rfl,
    keeps_arith .div rfl (by decide) rfl rfl (by decide) rfl, keeps_parenthesized, keeps_variable,
    keeps_callValue, ?_, keeps_negation, ?_, keeps_constant rfl, keeps_constant rfl,
    keeps_constant rfl⟩
  · refine keeps_of_walk rfl fun γ hready => ?_
    refine walk_phrase rfl hready.1 fun _ γ₁ h₁ => ?_
    exact walk_effect rfl rfl (.pure ⟨rfl, .inl h₁⟩)
  · refine keeps_of_walk rfl fun γ hvalid => ?_
    refine walk_phrase rfl hvalid ?_
    rintro _ γ₁ ⟨rfl, h₁⟩
    exact walk_effect rfl rfl (.pure h₁)
  · refine keeps_of_walk rfl fun γ hvalid => ?_
    refine walk_token rfl fun _ _ => walk_effect rfl rfl (Takes.bind ?_)
    exact (Draft.Valid.pushWaiting hvalid .paren).mono fun _ γ' h => .pure h

end DuckLang.Duck
