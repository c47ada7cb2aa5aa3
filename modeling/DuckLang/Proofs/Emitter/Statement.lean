import DuckLang.Proofs.Emitter.Control

/-! Statements.  Each takes the operand it is about off the stack and emits one quadruple with it,
so nothing of it is left but code. -/

namespace DuckLang

open Emitter

theorem Emitter.Held.isPending {s : Scope} {function : String} {o : Operand × DataType}
    (h : Held s function o) : o.1.isPending = false := by
  obtain ⟨operand, type⟩ := o
  cases operand <;> first | rfl | cases h.2

namespace Draft

variable {γ : Draft} {o : Operand × DataType} {rest : List (Operand × DataType)}

theorem rest_subset {operands : List (Operand × DataType)} (h : operands = o :: rest) :
    rest ⊆ operands := by
  rw [h]
  exact fun _ ho => List.mem_cons_of_mem _ ho

/-- A quadruple made of the operand on top, which is given back. -/
theorem Valid.consume (h : γ.Valid) {q : Quad} {calls : List Call}
    (hoperands : γ.emitter.operands = o :: rest) (htidy : Tidy q)
    (hplain : q.result.isPending = false)
    (hcalls : ∀ c ∈ calls, γ.emitter.scope.Callable c.function)
    (hflows : ∀ points, Flows γ.emitter.env points γ.emitter.point q
      { function := γ.emitter.context, temps := temporaries rest, calls }) :
    Does γ ⟨{ γ.emitter with
        operands := rest, quads := γ.emitter.quads.push q,
        temps := γ.emitter.temps.without o.1, calls }, γ.past ++ [γ.emitter.point]⟩
      { γ.allStacks with operands := rest, calls } := by
  refine ⟨?_, ⟨rfl, rfl, rfl, rfl⟩, rfl⟩
  have hnext := @TempPool.next_without γ.emitter.temps o.1
  refine Emitter.Valid.emitPlain h rfl htidy ⟨rfl, rfl, rfl, rfl⟩ (Nat.le_refl _)
    (Nat.le_of_eq hnext.symm) (h.pool.without _) ?_ hcalls ?_ rfl hplain
  · exact fun o ho => h.held o (rest_subset hoperands ho)
  · simp only [Emitter.env, hnext]
    exact hflows _

/-- The operand on top has a value. -/
theorem Valid.readable_top (h : γ.Valid) (hoperands : γ.emitter.operands = o :: rest) :
    Readable γ.emitter.env γ.emitter.point o.1 :=
  Emitter.Valid.readable h (by simp [hoperands])

theorem Valid.plain_top (h : γ.Valid) (hoperands : γ.emitter.operands = o :: rest) :
    o.1.isPending = false :=
  Held.isPending (h.held o (by simp [hoperands]))

/-- The operand on top has the type it is listed with. -/
theorem Valid.type_top (h : γ.Valid) (hoperands : γ.emitter.operands = o :: rest) :
    o.1.type = o.2 :=
  (h.held o (by simp [hoperands])).1

theorem Valid.callable (h : γ.Valid) :
    ∀ c ∈ γ.emitter.calls, γ.emitter.scope.Callable c.function :=
  h.laid.calls γ.emitter.point (by simp)

theorem Valid.assign (h : γ.Valid) (hoperands : γ.emitter.operands = o :: rest) (name : String) :
    Takes (assign name) γ fun _ γ' => Does γ γ' { γ.allStacks with operands := rest } := by
  simp only [Takes, Emitter.assign, ensures_bind, ensures_lookup]
  split
  · rename_i symbol hsymbol
    simp only [ensures_popOperand, hoperands]
    split
    · rename_i htypes
      simp only [ensures_bind, ensures_emit, ensures_release]
      refine ⟨_, rfl, h.consume hoperands (by trivial) rfl h.callable fun points => ?_⟩
      exact ⟨h.readable_top hoperands, ⟨_, _, rfl, Emitter.Valid.visible h hsymbol⟩,
        by rwa [h.type_top hoperands], rfl, temporaries_subset (rest_subset hoperands), rfl⟩
    · rfl
  · rfl

theorem Valid.write (h : γ.Valid) (hoperands : γ.emitter.operands = o :: rest) :
    Takes write γ fun _ γ' => Does γ γ' { γ.allStacks with operands := rest } := by
  simp only [Takes, Emitter.write, ensures_bind, ensures_popOperand, hoperands]
  split
  · rfl
  · simp only [ensures_bind, ensures_emit, ensures_release]
    refine ⟨_, rfl, h.consume hoperands (by trivial) (h.plain_top hoperands) h.callable
      fun points => ?_⟩
    exact ⟨.inl (h.readable_top hoperands), rfl, temporaries_subset (rest_subset hoperands), rfl⟩

/-- A string literal is written as soon as it is on the stack. -/
theorem Valid.writeString (h : γ.Valid) (literal : String) :
    Takes (pushString literal >>= fun _ => Emitter.write) γ fun _ γ' => Does γ γ' γ.allStacks := by
  obtain ⟨e, past⟩ := γ
  simp only [Takes, Emitter.pushString, ensures_bind]
  split
  · rfl
  · rename_i text _
    obtain ⟨hgrown, hentry⟩ := intern_spec e.strings text
    obtain ⟨hindex, _⟩ := List.getElem?_eq_some_iff.mp hentry
    simp only [ensures_bind, ensures_get, ensures_set, ensures_pushOperand, Emitter.write,
      ensures_popOperand, reduceCtorEq, if_false, ensures_emit, ensures_release]
    refine ⟨⟨_, past ++ [e.point]⟩, rfl, ?_, ⟨rfl, rfl, rfl, rfl⟩, rfl⟩
    refine Emitter.Valid.emitPlain h rfl ⟨rfl, rfl⟩ ⟨rfl, rfl, rfl, rfl⟩ hgrown.length_le
      (Nat.le_refl _) h.pool h.held h.callable ?_ rfl rfl
    exact ⟨.inr ⟨_, rfl, hindex⟩, rfl, List.Subset.refl _, rfl⟩

theorem Valid.read (h : γ.Valid) (name : String) :
    Takes (read name) γ fun _ γ' => Does γ γ' γ.allStacks := by
  obtain ⟨e, past⟩ := γ
  simp only [Takes, Emitter.read, ensures_bind, ensures_lookup]
  split
  · rename_i symbol hsymbol
    simp only [ensures_emit, ensures_pure]
    refine ⟨⟨_, past ++ [e.point]⟩, rfl, ?_, ⟨rfl, rfl, rfl, rfl⟩, rfl⟩
    refine Emitter.Valid.emitPlain h rfl ⟨rfl, rfl⟩ ⟨rfl, rfl, rfl, rfl⟩ (Nat.le_refl _)
      (Nat.le_refl _) h.pool h.held h.callable ?_ rfl rfl
    exact ⟨⟨_, _, rfl, Emitter.Valid.visible h hsymbol⟩, rfl, List.Subset.refl _, rfl⟩
  · rfl

theorem Valid.discardResult (h : γ.Valid) (hoperands : γ.emitter.operands = o :: rest) :
    Takes discardResult γ fun _ γ' => Does γ γ' { γ.allStacks with operands := rest } := by
  simp only [Takes, Emitter.discardResult, ensures_bind, ensures_popOperand, hoperands,
    ensures_release]
  refine ⟨⟨_, γ.past⟩, rfl, ?_, ⟨rfl, rfl, rfl, rfl⟩, rfl⟩
  have hsub := rest_subset hoperands
  have hvalid := Emitter.Valid.withOperands h (fun o ho => h.held o (hsub ho))
    (temporaries_subset hsub)
  refine ⟨hvalid.names, ?_, h.pool.without _, hvalid.held, hvalid.owed, hvalid.owners,
    hvalid.leads⟩
  have hlaid := hvalid.laid
  simp only [Emitter.env, TempPool.next_without] at hlaid ⊢
  exact hlaid

/-- The function being read has its entry, which says what it gives back. -/
theorem Valid.bodyEntry (h : γ.Valid) {b : Body} (hbody : γ.emitter.body = some b) :
    ∃ entry, γ.emitter.scope.entryOf? γ.emitter.context = some entry ∧
      γ.emitter.context ≠ γ.emitter.scope.program ∧ b.info.returns = entry.returns := by
  have hcontext : γ.emitter.context = b.info.name := by simp [context, hbody]
  obtain ⟨_, hlisted, hsome, hprogram⟩ := h.names.body b hbody
  obtain ⟨entry, hentry⟩ := Option.isSome_iff_exists.mp hsome
  obtain ⟨info, hinfo, hdescribes⟩ := h.names.functions hentry hprogram
  obtain rfl : b.info = info := Option.some.inj (hlisted.symm.trans hinfo)
  exact ⟨entry, by rw [hcontext, hentry], by rwa [hcontext], hdescribes.returns⟩

/-- A value is given back outside of calls. -/
theorem Valid.giveBack (h : γ.Valid) (hoperands : γ.emitter.operands = o :: rest)
    (hcalls : γ.emitter.calls = []) :
    Takes giveBack γ fun _ γ' => Does γ γ' { γ.allStacks with operands := rest } := by
  simp only [Takes, Emitter.giveBack, ensures_bind, ensures_get]
  split
  · rfl
  · rename_i info isListed hbody
    obtain ⟨entry, hentry, hprogram, hreturns⟩ := h.bodyEntry hbody
    split
    · rfl
    · simp only [ensures_bind, ensures_popOperand, hoperands]
      split
      · rename_i htypes
        simp only [ensures_bind, ensures_emit, ensures_release]
        refine ⟨_, rfl, h.consume hoperands (by trivial) (h.plain_top hoperands) h.callable
          fun points => ?_⟩
        exact ⟨h.readable_top hoperands, hcalls, entry, hentry, hprogram,
          by rwa [h.type_top hoperands, ← hreturns]⟩
      · rfl

end Draft

end DuckLang
