import DuckLang.Proofs.Emitter.Statement

/-! Calls.  A call is announced and then open until it is run; an argument moves one operand into
the next parameter of the innermost open call. -/

namespace DuckLang

open Emitter

namespace Draft

variable {γ : Draft}

theorem Valid.beginCall (h : γ.Valid) (name : String) :
    Takes (beginCall name) γ fun _ γ' => Does γ γ' { γ.allStacks with
      operators := .paren :: γ.emitter.operators
      calls := { function := name, arguments := 0 } :: γ.emitter.calls } := by
  obtain ⟨e, past⟩ := γ
  simp only [Takes, Emitter.beginCall, ensures_bind, ensures_get, ensures_lift,
    Scope.lookupFunction]
  cases hentry : e.scope.entryOf? name with
  | none => rfl
  | some entry =>
    by_cases hprogram : name = e.scope.program
    · simp only [if_pos hprogram]
      rfl
    · have hcallable : e.scope.Callable name := ⟨by simp [hentry], hprogram⟩
      simp only [if_neg hprogram, ensures_emit, ensures_modify, openParen, Emitter.pushWaiting]
      refine ⟨⟨_, past ++ [e.point]⟩, rfl, ?_, ⟨rfl, rfl, rfl, rfl⟩, rfl⟩
      refine Emitter.Valid.emitPlain h rfl ⟨rfl, rfl⟩ ⟨rfl, rfl, rfl, rfl⟩ (Nat.le_refl _)
        (Nat.le_refl _) h.pool h.held ?_ ?_ rfl rfl
      · exact List.forall_mem_cons.mpr ⟨hcallable, h.callable⟩
      · exact ⟨name, rfl, hcallable, rfl, List.Subset.refl _, rfl⟩

/-- The function of an open call has an entry, which is its callee. -/
theorem Valid.callee (h : γ.Valid) {c : Call} {calls : List Call}
    (hcalls : γ.emitter.calls = c :: calls) :
    ∃ entry, γ.emitter.scope.entryOf? c.function = some entry ∧ entry.name = c.function ∧
      Innermost γ.emitter.env γ.emitter.point c calls entry := by
  have hcallable := h.callable c (by simp [hcalls])
  obtain ⟨entry, hentry⟩ := Option.isSome_iff_exists.mp hcallable.1
  exact ⟨entry, hentry, Scope.entryOf?_name hentry, hcalls, hentry⟩

theorem Valid.argument (h : γ.Valid) {c : Call} {calls : List Call} {o : Operand × DataType}
    {rest : List (Operand × DataType)} (hcalls : γ.emitter.calls = c :: calls)
    (hoperands : γ.emitter.operands = o :: rest) :
    Takes argument γ fun _ γ' => Does γ γ' { γ.allStacks with
      operands := rest, calls := { c with arguments := c.arguments + 1 } :: calls } := by
  obtain ⟨entry, hentry, hname, hinner⟩ := h.callee hcalls
  simp only [Takes, Emitter.argument, ensures_bind, ensures_get, hcalls, ensures_popOperand,
    hoperands, Emitter.callee, hentry, Option.getD_some]
  split
  · rfl
  · rename_i param hparam
    split
    · rename_i htypes
      simp only [ensures_bind, ensures_emit, ensures_release, ensures_modify]
      have hcallable := h.callable
      rw [hcalls] at hcallable
      refine ⟨_, rfl, h.consume hoperands (by trivial) rfl ?_ fun points => ?_⟩
      · exact List.forall_mem_cons.mpr (List.forall_mem_cons.mp hcallable)
      · exact ⟨c, calls, entry, param, hinner, hparam, rfl, h.readable_top hoperands,
          by rwa [h.type_top hoperands], rfl, temporaries_subset (rest_subset hoperands), rfl⟩
    · rfl

/-- The end of a call leaves its value on the stack, if it has one. -/
theorem Valid.endCall (h : γ.Valid) {c : Call} {calls : List Call} {operators : List Waiting}
    (hcalls : γ.emitter.calls = c :: calls)
    (hoperators : γ.emitter.operators = .paren :: operators) :
    Takes endCall γ fun hasValue γ' =>
      (hasValue = true ∧ ∃ o, Does γ γ' { γ.allStacks with
        operands := o :: γ.emitter.operands, operators, calls }) ∨
      (hasValue = false ∧ Does γ γ' { γ.allStacks with operators, calls }) := by
  obtain ⟨e, past⟩ := γ
  obtain ⟨entry, hentry, hname, hinner⟩ := h.callee hcalls
  dsimp only at hcalls hoperators hentry
  have hcallable : ∀ c ∈ calls, e.scope.Callable c.function := by
    intro c' hc'
    exact h.callable c' (by simp [hcalls, hc'])
  simp only [Takes, Emitter.endCall, ensures_bind, ensures_get, hcalls, ensures_modify,
    Emitter.callee, hentry, Option.getD_some, hname]
  split
  · rfl
  · rename_i harguments
    have hcount : c.arguments = entry.params.length := by simpa using harguments
    simp only [Emitter.closeParen, ensures_bind, ensures_get, hoperators, ensures_set]
    split
    · rename_i hvoid
      simp only [ensures_bind, ensures_emit, ensures_pure]
      refine ⟨⟨_, past ++ [e.point]⟩, rfl, .inr ⟨trivial, ?_, ⟨rfl, rfl, rfl, rfl⟩, rfl⟩⟩
      refine Emitter.Valid.emitPlain h rfl rfl ⟨rfl, rfl, rfl, rfl⟩ (Nat.le_refl _) (Nat.le_refl _)
        h.pool h.held hcallable ?_ rfl rfl
      exact ⟨c, calls, entry, hinner, hcount, rfl,
        .inl ⟨hvoid, rfl, rfl, List.Subset.refl _, rfl⟩⟩
    · rename_i hvalue
      have hstorable := (h.names.entries hentry).returns.resolve_left hvalue
      obtain ⟨hpool, hnext, hpos, hlt⟩ := h.pool.alloc
      simp only [ensures_bind, ensures_newTemp, ensures_emit, ensures_pushOperand, ensures_pure]
      refine ⟨⟨_, past ++ [e.point]⟩, rfl, .inl ⟨trivial, _, ?_, ⟨rfl, rfl, rfl, rfl⟩, rfl⟩⟩
      refine Emitter.Valid.emitPlain h rfl rfl ⟨rfl, rfl, rfl, rfl⟩ (Nat.le_refl _) hnext hpool ?_
        hcallable ?_ rfl rfl
      · exact List.forall_mem_cons.mpr ⟨⟨rfl, trivial⟩, h.held⟩
      · exact ⟨c, calls, entry, ⟨hcalls, hentry⟩, hcount, rfl, .inr ⟨hvalue, _, rfl,
          ⟨hpos, hlt, hstorable⟩, rfl, List.Subset.refl _, rfl⟩⟩

end Draft

end DuckLang
