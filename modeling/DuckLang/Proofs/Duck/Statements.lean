import DuckLang.Proofs.Duck.Expressions

/-! The productions of statements and calls keep the discipline: a statement leaves the stacks as it
found them, and a construct fills in every jump it owes before it ends. -/

namespace DuckLang.Duck

open Emitter
open Draft (Takes)
open Grammar.Duck (rule t n)

variable {γ γ₁ γ₂ : Draft}

/-- Between statements no header waits for a condition. -/
theorem header_of_atStatement {e : Emitter} (h : AtStatement e) : Header e := by
  refine header_of_not_awaits ?_
  have hclosed := h.closed
  simp only [awaitsCondition]
  split
  · rfl
  · rename_i c controls hcontrols
    rw [hcontrols] at hclosed
    simp [hclosed c List.mem_cons_self]

/-- An expression between statements leaves an operand. -/
theorem pushes_of_atStatement {a : Attribute} (hrest : AtStatement γ.emitter)
    (h : Phrase.condition.Made γ a γ₁) : Pushes γ γ₁ := by
  obtain ⟨_, hpushes | ⟨hawaits, c, controls, _, hcontrols, _⟩⟩ := h
  · exact hpushes
  · have hclosed := hrest.closed
    have hcontrols : γ.emitter.controls = c :: controls := hcontrols
    rw [hcontrols] at hclosed
    simp [awaitsCondition, hcontrols, hclosed c List.mem_cons_self] at hawaits

/-- Inside of a construct whose header is closed, it is between statements again. -/
theorem atStatement_cons {e e' : Emitter} (h : AtStatement e) {c : Control}
    (hstacks : e'.allStacks = { e.allStacks with controls := c :: e.controls })
    (hc : c.isOpen = false) : AtStatement e' := by
  have hoperands : e'.operands = e.operands := congrArg Stacks.operands hstacks
  have hoperators : e'.operators = e.operators := congrArg Stacks.operators hstacks
  have hcontrols : e'.controls = c :: e.controls := congrArg Stacks.controls hstacks
  have hcalls : e'.calls = e.calls := congrArg Stacks.calls hstacks
  refine ⟨hoperands.trans h.operands, hoperators.trans h.operators, hcalls.trans h.calls, ?_⟩
  rw [hcontrols]
  exact List.forall_mem_cons.mpr ⟨hc, h.closed⟩

/-! ### Plain statements -/

theorem keeps_body : Keeps (rule "Body" [t "\x7b", n "Stmts", t "\x7d"]) := by
  refine keeps_of_walk rfl fun γ hready => ?_
  refine walk_token rfl fun _ _ => walk_phrase rfl hready fun _ γ₁ h₁ => ?_
  exact walk_token rfl fun _ _ => walk_plain rfl (by simp) rfl h₁

theorem keeps_stmts : Keeps (rule "Stmts" [n "Stmts", n "Stmt"]) := by
  refine keeps_of_walk rfl fun γ hready => ?_
  refine walk_phrase rfl hready fun _ γ₁ h₁ => ?_
  refine walk_phrase rfl ⟨h₁.valid, hready.2.of_stacks h₁.allStacks⟩ fun _ γ₂ h₂ => ?_
  exact walk_plain rfl (by simp) rfl ((h₁.trans h₂).of_eq h₁.allStacks)

theorem keeps_callStatement : Keeps (rule "Stmt" [n "Call", t ";"]) := by
  refine keeps_of_walk rfl fun γ hready => ?_
  refine walk_phrase rfl hready.1 ?_
  rintro _ γ₁ (⟨function, rfl, o, h₁⟩ | ⟨function, rfl, h₁⟩)
  · refine walk_token rfl fun _ _ => walk_effect rfl rfl (Takes.bind ?_)
    refine (h₁.valid.discardResult h₁.operands).mono fun _ γ' h => .pure ?_
    refine (h₁.trans h).of_eq ?_
    simp only [h₁.allStacks]
  · exact walk_token rfl fun _ _ => walk_effect rfl rfl (.pure h₁)

theorem keeps_assign : Keeps (rule "Assign" [t "id", t "=", n "Expr", t ";"]) := by
  refine keeps_of_walk rfl fun γ hready => ?_
  refine walk_token rfl fun name _ => walk_token rfl fun _ _ => ?_
  refine walk_phrase rfl ⟨hready.1, header_of_atStatement hready.2⟩ fun _ γ₁ hmade => ?_
  obtain ⟨o, h₁⟩ := pushes_of_atStatement hready.2 hmade
  refine walk_token rfl fun _ _ => walk_effect rfl rfl (Takes.bind ?_)
  refine (h₁.valid.assign h₁.operands name.text).mono fun _ γ' h => .pure ?_
  refine (h₁.trans h).of_eq ?_
  simp only [h₁.allStacks]

theorem keeps_return : Keeps (rule "Return" [t "return", t "(", n "Expr", t ")", t ";"]) := by
  refine keeps_of_walk rfl fun γ hready => ?_
  refine walk_token rfl fun _ _ => walk_token rfl fun _ _ => ?_
  refine walk_phrase rfl ⟨hready.1, header_of_atStatement hready.2⟩ fun _ γ₁ hmade => ?_
  obtain ⟨o, h₁⟩ := pushes_of_atStatement hready.2 hmade
  refine walk_token rfl fun _ _ => walk_token rfl fun _ _ => walk_effect rfl rfl (Takes.bind ?_)
  refine (h₁.valid.giveBack h₁.operands (h₁.calls.trans hready.2.calls)).mono fun _ γ' h => .pure ?_
  refine (h₁.trans h).of_eq ?_
  simp only [h₁.allStacks]

/-- A statement that is a word with a list in parentheses. -/
theorem keeps_listed {head word list : String} (hhead : Phrase.of? head = some .statement)
    (hword : Hook.of? word = none) (hlist : Phrase.of? list = some .statement)
    (heffect : Parser.Effect.of? head 5 = none) :
    Keeps (rule head [t word, t "(", n list, t ")", t ";"]) := by
  refine keeps_of_walk hhead fun γ hready => ?_
  refine walk_token hword fun _ _ => walk_token rfl fun _ _ => ?_
  refine walk_phrase hlist hready fun _ γ₁ h₁ => ?_
  exact walk_token rfl fun _ _ => walk_token rfl fun _ _ => walk_plain hhead (by simp) heffect h₁

theorem keeps_printList : Keeps (rule "PrintList" [n "PrintList", t ",", n "PrintItem"]) := by
  refine keeps_of_walk rfl fun γ hready => ?_
  refine walk_phrase rfl hready fun _ γ₁ h₁ => walk_token rfl fun _ _ => ?_
  refine walk_phrase rfl ⟨h₁.valid, hready.2.of_stacks h₁.allStacks⟩ fun _ γ₂ h₂ => ?_
  exact walk_plain rfl (by simp) rfl ((h₁.trans h₂).of_eq h₁.allStacks)

/-- A string literal is put on the stack before it is written. -/
theorem run_printItem (item : Attribute) :
    Parser.Effect.printItem.run [item] =
      if item.text.startsWith "\"" then
        (pushString item.text >>= fun _ => write) >>= fun _ => pure .nothing
      else write >>= fun _ => pure .nothing := by
  simp only [Parser.Effect.run]
  split
  · rw [bind_assoc]
  · rfl

theorem keeps_printExpr : Keeps (rule "PrintItem" [n "Expr"]) := by
  refine keeps_of_walk rfl fun γ hready => ?_
  refine walk_phrase rfl ⟨hready.1, header_of_atStatement hready.2⟩ fun _ γ₁ hmade => ?_
  obtain ⟨o, h₁⟩ := pushes_of_atStatement hready.2 hmade
  obtain ⟨rfl, _⟩ := hmade
  refine walk_effect rfl rfl ?_
  have hmark : ¬ Attribute.expression.text.startsWith "\"" = true := by
    rw [String.startsWith_string_iff]
    decide
  rw [List.nil_append, run_printItem, if_neg hmark]
  refine Takes.bind ?_
  refine (h₁.valid.write h₁.operands).mono fun _ γ' h => .pure ?_
  refine (h₁.trans h).of_eq ?_
  simp only [h₁.allStacks]

theorem keeps_printString : Keeps (rule "PrintItem" [t "cte_string"]) := by
  refine keeps_of_walk rfl fun γ hready => ?_
  refine walk_token rfl fun a ha => walk_effect rfl rfl ?_
  have hquote : a.text.startsWith "\"" = true := ha
  rw [List.nil_append, run_printItem, if_pos hquote]
  exact Takes.bind ((hready.1.writeString a.text).mono fun _ γ' h => .pure h)

theorem keeps_readFirst : Keeps (rule "ReadList" [t "id"]) := by
  refine keeps_of_walk rfl fun γ hready => ?_
  refine walk_token rfl fun name _ => walk_effect rfl rfl (Takes.bind ?_)
  exact (hready.1.read name.text).mono fun _ γ' h => .pure h

theorem keeps_readNext : Keeps (rule "ReadList" [n "ReadList", t ",", t "id"]) := by
  refine keeps_of_walk rfl fun γ hready => ?_
  refine walk_phrase rfl hready fun _ γ₁ h₁ => walk_token rfl fun _ _ => ?_
  refine walk_token rfl fun name _ => walk_effect rfl rfl (Takes.bind ?_)
  exact (h₁.valid.read name.text).mono fun _ γ' h => .pure ((h₁.trans h).of_eq h₁.allStacks)

/-! ### Calls -/

theorem keeps_callHead : Keeps (rule "CallHead" [t "id"]) := by
  refine keeps_of_walk rfl fun γ hvalid => ?_
  refine walk_token rfl fun name _ => walk_effect rfl rfl (Takes.bind ?_)
  exact (Draft.Valid.beginCall hvalid name.text).mono fun _ γ' h => .pure ⟨_, h⟩

theorem keeps_call : Keeps (rule "Call" [n "CallHead", t "(", n "ArgsOpt", t ")"]) := by
  refine keeps_of_walk rfl fun γ hvalid => ?_
  refine walk_phrase rfl hvalid ?_
  rintro name γ₁ ⟨function, h₁⟩
  refine walk_token rfl fun _ _ => ?_
  refine walk_phrase rfl ⟨h₁.valid, ⟨_, h₁.operators⟩, _, _, h₁.calls⟩ ?_
  rintro _ γ₂ ⟨c, calls, arguments, hcalls, h₂⟩
  rw [h₁.allStacks] at hcalls
  obtain ⟨rfl, rfl⟩ := List.cons.inj hcalls
  refine walk_token rfl fun _ _ => walk_effect rfl rfl (Takes.bind ?_)
  have hoperators : γ₂.emitter.operators = .paren :: γ.allStacks.operators := by
    simp only [h₂.operators, h₁.allStacks]
  refine (h₂.valid.endCall h₂.calls hoperators).mono ?_
  rintro hasValue γ' (⟨rfl, o, h⟩ | ⟨rfl, h⟩)
  · refine .pure (.inl ⟨name.text, rfl, o, (h₁.trans (h₂.trans h)).of_eq ?_⟩)
    simp only [h₂.operands, h₂.allStacks, h₁.allStacks]
  · refine .pure (.inr ⟨name.text, rfl, (h₁.trans (h₂.trans h)).of_eq ?_⟩)
    simp only [h₂.allStacks, h₁.allStacks]

theorem keeps_argsOpt : Keeps (rule "ArgsOpt" []) := by
  refine keeps_of_walk rfl ?_
  rintro γ ⟨hvalid, _, c, calls, hcalls⟩
  refine walk_plain rfl (by simp) rfl ⟨c, calls, c.arguments, hcalls, hvalid.does.of_eq ?_⟩
  rw [← hcalls]

theorem keeps_argument : Keeps (rule "Arg" [n "Expr"]) := by
  refine keeps_of_walk rfl ?_
  rintro γ ⟨hvalid, ⟨operators, hoperators⟩, c, calls, hcalls⟩
  have hawaits := not_awaits hvalid hoperators
  refine walk_phrase rfl ⟨hvalid, header_of_not_awaits hawaits⟩ ?_
  rintro _ γ₁ ⟨_, ⟨o, h₁⟩ | ⟨hawait, _⟩⟩
  · refine walk_effect rfl rfl (Takes.bind ?_)
    refine (h₁.valid.argument (h₁.calls.trans hcalls) h₁.operands).mono fun _ γ' h => .pure ?_
    refine ⟨c, calls, c.arguments + 1, hcalls, (h₁.trans h).of_eq ?_⟩
    simp only [h₁.allStacks]
  · rw [hawaits] at hawait
    cases hawait

theorem keeps_argList : Keeps (rule "ArgList" [n "ArgList", t ",", n "Arg"]) := by
  refine keeps_of_walk rfl ?_
  rintro γ ⟨hvalid, ⟨operators, hoperators⟩, hcalls⟩
  refine walk_phrase rfl ⟨hvalid, ⟨operators, hoperators⟩, hcalls⟩ ?_
  rintro _ γ₁ ⟨c, calls, arguments, hcalls, h₁⟩
  refine walk_token rfl fun _ _ => ?_
  refine walk_phrase rfl ⟨h₁.valid, ⟨operators, h₁.operators.trans hoperators⟩, _, _, h₁.calls⟩ ?_
  rintro _ γ₂ ⟨c', calls', arguments', hcalls', h₂⟩
  rw [h₁.allStacks] at hcalls'
  obtain ⟨rfl, rfl⟩ := List.cons.inj hcalls'
  refine walk_plain rfl (by simp) rfl ⟨c, calls, arguments', hcalls, (h₁.trans h₂).of_eq ?_⟩
  simp only [h₁.allStacks]

/-! ### Constructs -/

/-- The end of a header whose construct owed nothing when it opened. -/
theorem leaveHeader_of_condition {a : Attribute} {c : Control} {controls : List Control}
    (hcontrols : γ₁.allStacks.controls = c :: controls) (howes : c.owed = [])
    (hfalse : c.falseJump = none) (hoperands : γ₁.allStacks.operands = [])
    (hcalls : γ₁.allStacks.calls = []) (h : Phrase.condition.Made γ₁ a γ₂) :
    Takes leaveHeader γ₂ (fun _ => Hook.headerEnd.Made γ₂) ∧
      ∀ γ₃, Hook.headerEnd.Made γ₂ γ₃ → ∃ i, γ₁.Does γ₃ { γ₁.allStacks with
        controls := { c with isOpen := false, falseJump := some i } :: controls } := by
  obtain ⟨_, ⟨o, h₂⟩ | ⟨_, c', controls', i, hcontrols', h₂⟩⟩ := h
  · have hcontrols₂ := h₂.controls.trans hcontrols
    have hoperands₂ : γ₂.emitter.operands = [o] := by rw [h₂.operands, ← hoperands]
    refine ⟨?_, ?_⟩
    · refine (h₂.valid.leaveHeader hcontrols₂ (h₂.calls.trans hcalls)
        (.inl ⟨howes, hfalse, o, hoperands₂⟩)).mono ?_
      rintro _ γ₃ ⟨i, h₃⟩
      exact ⟨c, controls, i, hcontrols₂, h₃⟩
    · rintro γ₃ ⟨c', controls', i, hcontrols', h₃⟩
      obtain ⟨rfl, rfl⟩ := List.cons.inj (hcontrols₂.symm.trans hcontrols')
      refine ⟨i, (h₂.trans h₃).of_eq ?_⟩
      simp only [h₂.allStacks, hoperands]
  · obtain ⟨rfl, rfl⟩ := List.cons.inj (hcontrols.symm.trans hcontrols')
    have hcontrols₂ := h₂.controls
    refine ⟨?_, ?_⟩
    · refine (h₂.valid.leaveHeader hcontrols₂ (h₂.calls.trans hcalls)
        (.inr ⟨rfl, h₂.operands.trans hoperands⟩)).mono ?_
      rintro _ γ₃ ⟨i, h₃⟩
      exact ⟨_, controls, i, hcontrols₂, h₃⟩
    · rintro γ₃ ⟨c', controls', i, hcontrols', h₃⟩
      obtain ⟨rfl, rfl⟩ := List.cons.inj (hcontrols₂.symm.trans hcontrols')
      refine ⟨i, (h₂.trans h₃).of_eq ?_⟩
      simp only [h₂.allStacks, hoperands]

theorem keeps_condition :
    Keeps (rule "Condition" [t "if", t "(", n "Expr", t ")", t "then", n "Body", n "ElseOpt"]) := by
  refine keeps_of_walk rfl ?_
  rintro γ ⟨hvalid, hrest⟩
  refine walk_hook rfl (hvalid.enterIf hrest) fun _ γ₁ h₁ => walk_token rfl fun _ _ => ?_
  have hcalls : γ₁.allStacks.calls = [] := h₁.calls.trans hrest.calls
  have hoperands : γ₁.allStacks.operands = [] := h₁.operands.trans hrest.operands
  refine walk_phrase rfl ⟨h₁.valid, fun _ => ⟨hcalls, _, _, h₁.controls, rfl⟩⟩ fun _ γ₂ h₂ => ?_
  obtain ⟨hleave, hclosed⟩ := leaveHeader_of_condition h₁.controls rfl rfl hoperands hcalls h₂
  refine walk_token rfl fun _ _ => walk_hook rfl hleave fun _ γ₃ h₃ => ?_
  obtain ⟨j, h₃⟩ := hclosed γ₃ h₃
  have hstacks₃ : γ₃.allStacks = { γ.allStacks with
      controls := { construct := .branch none, isOpen := false, depth := 0, falseJump := some j } ::
        γ.allStacks.controls } := by
    rw [h₃.allStacks, h₁.allStacks]
  have hrest₃ := atStatement_cons hrest hstacks₃ rfl
  refine walk_phrase rfl ⟨h₃.valid, hrest₃⟩ fun _ γ₄ h₄ => ?_
  have hcontrols₄ := h₄.controls.trans h₃.controls
  refine walk_phrase rfl ⟨h₄.valid, hrest₃.of_stacks h₄.allStacks, _, _, hcontrols₄, rfl, rfl⟩ ?_
  rintro _ γ₅ ⟨c, controls, exitJump, hcontrols, h₅⟩
  obtain ⟨rfl, rfl⟩ := List.cons.inj (hcontrols₄.symm.trans hcontrols)
  have hstacks₅ : γ₅.allStacks = { γ.allStacks with
      controls :=
        { construct := .branch exitJump, isOpen := false, depth := 0, falseJump := some j } ::
          γ.allStacks.controls } := by
    simp only [h₅.allStacks, h₄.allStacks, hstacks₃]
  have hrest₅ := atStatement_cons hrest hstacks₅ rfl
  refine walk_effect rfl rfl (Takes.bind ?_)
  refine (h₅.valid.endIf hrest₅ h₅.controls rfl rfl).mono fun _ γ' h => .pure ?_
  refine (((h₁.trans h₃).trans (h₄.trans h₅)).trans h).of_eq ?_
  simp only [hstacks₅]

theorem keeps_else : Keeps (rule "ElseOpt" [t "else", n "Body"]) := by
  refine keeps_of_walk rfl ?_
  rintro γ ⟨hvalid, hrest, c, controls, hcontrols, hbranch, hjump⟩
  obtain ⟨j, hj⟩ := Option.isSome_iff_exists.mp hjump
  refine walk_hook rfl ((hvalid.enterElse hrest hcontrols hbranch hj).mono ?_) ?_
  · rintro _ γ₁ ⟨i, h₁⟩
    exact ⟨c, controls, i, hcontrols, h₁⟩
  · rintro _ γ₁ ⟨c', controls', i, hcontrols', h₁⟩
    obtain ⟨rfl, rfl⟩ := List.cons.inj (hcontrols.symm.trans hcontrols')
    have hclosed : ∀ c' ∈ c :: controls, c'.isOpen = false := by
      rw [← hcontrols]
      exact hrest.closed
    have hrest₁ : AtStatement γ₁.emitter := by
      refine ⟨h₁.operands.trans hrest.operands, h₁.operators.trans hrest.operators,
        h₁.calls.trans hrest.calls, ?_⟩
      rw [h₁.controls]
      exact List.forall_mem_cons.mpr (List.forall_mem_cons.mp hclosed)
    refine walk_phrase rfl ⟨h₁.valid, hrest₁⟩ fun _ γ₂ h₂ => ?_
    refine walk_plain rfl (by simp) rfl ⟨c, controls, some i, hcontrols, (h₁.trans h₂).of_eq ?_⟩
    exact h₁.allStacks

theorem keeps_noElse : Keeps (rule "ElseOpt" []) := by
  refine keeps_of_walk rfl ?_
  rintro γ ⟨hvalid, hrest, c, controls, hcontrols, hbranch, hjump⟩
  refine walk_plain rfl (by simp) rfl ⟨c, controls, none, hcontrols, hvalid.does.of_eq ?_⟩
  rw [← hbranch, ← hcontrols]

theorem keeps_cycle :
    Keeps (rule "Cycle" [t "while", t "(", n "Expr", t ")", t "do", n "Body"]) := by
  refine keeps_of_walk rfl ?_
  rintro γ ⟨hvalid, hrest⟩
  refine walk_hook rfl (hvalid.enterWhile hrest) ?_
  rintro _ γ₁ ⟨top, h₁⟩
  refine walk_token rfl fun _ _ => ?_
  have hcalls : γ₁.allStacks.calls = [] := h₁.calls.trans hrest.calls
  have hoperands : γ₁.allStacks.operands = [] := h₁.operands.trans hrest.operands
  refine walk_phrase rfl ⟨h₁.valid, fun _ => ⟨hcalls, _, _, h₁.controls, rfl⟩⟩ fun _ γ₂ h₂ => ?_
  obtain ⟨hleave, hclosed⟩ := leaveHeader_of_condition h₁.controls rfl rfl hoperands hcalls h₂
  refine walk_token rfl fun _ _ => walk_hook rfl hleave fun _ γ₃ h₃ => ?_
  obtain ⟨j, h₃⟩ := hclosed γ₃ h₃
  have hstacks₃ : γ₃.allStacks = { γ.allStacks with
      controls := { construct := .loop top, isOpen := false, depth := 0, falseJump := some j } ::
        γ.allStacks.controls } := by
    rw [h₃.allStacks, h₁.allStacks]
  have hrest₃ := atStatement_cons hrest hstacks₃ rfl
  refine walk_phrase rfl ⟨h₃.valid, hrest₃⟩ fun _ γ₄ h₄ => ?_
  have hcontrols₄ := h₄.controls.trans h₃.controls
  refine walk_effect rfl rfl (Takes.bind ?_)
  refine (h₄.valid.endWhile (hrest₃.of_stacks h₄.allStacks) hcontrols₄ rfl rfl).mono
    fun _ γ' h => .pure ?_
  refine (((h₁.trans h₃).trans h₄).trans h).of_eq ?_
  simp only [h₄.allStacks, hstacks₃]

theorem keeps_statementRules : ∀ p ∈ Grammar.Duck.statementRules, Keeps p := by
  simp only [Grammar.Duck.statementRules, List.forall_mem_cons, List.not_mem_nil,
    IsEmpty.forall_iff, implies_true, and_true]
  refine ⟨keeps_body, keeps_stmts, ?_, keeps_unit rfl rfl rfl, keeps_unit rfl rfl rfl,
    keeps_unit rfl rfl rfl, keeps_callStatement, keeps_unit rfl rfl rfl, keeps_unit rfl rfl rfl,
    keeps_unit rfl rfl rfl, keeps_assign, keeps_condition, keeps_else, keeps_noElse, keeps_cycle,
    keeps_call, keeps_callHead, keeps_unit rfl rfl rfl, keeps_argsOpt, keeps_unit rfl rfl rfl,
    keeps_argList, keeps_argument, keeps_listed rfl rfl rfl rfl, keeps_unit rfl rfl rfl,
    keeps_printList, keeps_printExpr, keeps_printString, keeps_listed rfl rfl rfl rfl,
    keeps_readFirst, keeps_readNext, keeps_return⟩
  exact keeps_of_walk rfl fun γ hready => walk_plain rfl (by simp) rfl hready.1.does

end DuckLang.Duck
