import DuckLang.Proofs.Emitter.Expression

/-! Conditions and loops.  A header opens with a construct that owes nothing and closes with one
that owes its conditional jump; between statements every jump that falls due is filled in with the
place where the code goes on at rest. -/

namespace DuckLang

open Emitter

namespace Emitter

variable {e : Emitter} {past : List Point}

/-- Between two statements: nothing waits on the stacks, and no header is open. -/
structure AtStatement (e : Emitter) : Prop where
  operands : e.operands = []
  operators : e.operators = []
  calls : e.calls = []
  closed : ∀ c ∈ e.controls, c.isOpen = false

theorem AtStatement.point (h : AtStatement e) : e.point = .resting e.context := by
  simp only [Emitter.point, h.operands, h.calls]
  rfl

theorem last_point (past : List Point) (P : Point) : (past ++ [P])[past.length]? = some P :=
  List.getElem?_concat_length

/-- A construct that owes nothing owes its conditional jump once it has one. -/
theorem owed_of_falseJump {c : Control} (h : c.owed = []) (i : Nat) :
    Control.owed { c with falseJump := some i } = [i] := by
  obtain ⟨construct, isOpen, depth, falseJump⟩ := c
  rcases construct with (_ | exitJump) | top
  · rfl
  · simp [Control.owed] at h
  · rfl

/-- Other open constructs that owe the same jumps. -/
theorem Valid.withControls (h : Valid e past) {controls : List Control}
    (howed : controls.flatMap Control.owed = e.controls.flatMap Control.owed)
    (howners : Owners (past ++ [e.point]) e.context controls) :
    Valid { e with controls } past := by
  refine ⟨h.names, h.laid, h.pool, h.held, ?_, howners, h.leads⟩
  have := h.owed
  rw [Emitter.owed, ← howed] at this
  exact this

/-- A jump that falls due at rest is filled in. -/
theorem Valid.patch (h : Valid e past) {j : Nat} {controls : List Control}
    (hrest : e.point = .resting e.context)
    (howed : (e.controls.flatMap Control.owed).Perm (j :: controls.flatMap Control.owed))
    (howners : Owners (past ++ [e.point]) e.context controls)
    (hhome : ∃ P, (past ++ [e.point])[j]? = some P ∧ P.function = e.context) :
    ∃ q, e.quads[j]? = some q ∧ q.result.isPending = true ∧
      Valid { e with
        controls
        quads := e.quads.set! j { q with result := .jump e.quads.size } } past := by
  have hperm : e.owed.Perm
      (j :: ((leading e.functions e.leadingJump).toList ++ controls.flatMap Control.owed)) :=
    (howed.append_left _).trans List.perm_middle
  obtain ⟨q, hq, hpending⟩ := (h.owed.waits j).mp (hperm.mem_iff.mpr List.mem_cons_self)
  obtain ⟨P, hP, hfunction⟩ := hhome
  refine ⟨q, hq, hpending, h.names, ?_, h.pool, h.held, h.owed.patch hq hperm, howners, h.leads⟩
  refine h.laid.patch hq hpending hP ?_
  rw [← h.length, last_point, hfunction, hrest]

end Emitter

namespace Draft

variable {γ : Draft}

/-- The conditional jump of the innermost construct, made of the operand on top. -/
theorem Valid.emitConditionJump (h : γ.Valid) {c : Control} {controls : List Control}
    {o : Operand × DataType} {rest : List (Operand × DataType)}
    (hcontrols : γ.emitter.controls = c :: controls) (howes : c.owed = [])
    (hoperands : γ.emitter.operands = o :: rest) (hcalls : γ.emitter.calls = []) :
    Takes emitConditionJump γ fun _ γ' => ∃ i, Does γ γ' { γ.allStacks with
      operands := rest, controls := { c with falseJump := some i } :: controls } := by
  obtain ⟨e, past⟩ := γ
  dsimp only at hcontrols hoperands hcalls
  have hsub : rest ⊆ e.operands := by
    rw [hoperands]
    exact fun o ho => List.mem_cons_of_mem _ ho
  simp only [Takes, Emitter.emitConditionJump, topControl, setTopControl, ensures_bind, ensures_get,
    hcontrols, ensures_pure, ensures_popOperand, hoperands, ensures_emit, ensures_modify,
    ensures_release, List.tail_cons]
  refine ⟨⟨_, past ++ [e.point]⟩, rfl, e.quads.size, ?_, ⟨rfl, rfl, rfl, rfl⟩, rfl⟩
  refine Emitter.Valid.emit h rfl rfl ⟨rfl, rfl, rfl, rfl⟩ (Nat.le_refl _) ?_ ?_ ?_ ?_ ?_ ?_ ?_
  · exact Nat.le_of_eq (TempPool.next_without _).symm
  · exact h.pool.without _
  · exact fun o ho => h.held o (hsub ho)
  · simp [hcalls]
  · have hextends : Env.Extends
        { scope := e.scope, strings := e.strings.length, temps := (e.temps.without o.1).next }
        e.env := ⟨.refl _, Nat.le_refl _, Nat.le_of_eq (TempPool.next_without _).symm⟩
    exact ⟨(h.readable (by simp [hoperands])).mono hextends, hcalls, trivial, rfl,
      temporaries_subset hsub, rfl⟩
  · refine h.owed.pushWaiting rfl ?_
    simp only [Emitter.owed, hcontrols, List.flatMap_cons, howes, List.nil_append]
    rw [owed_of_falseJump howes]
    exact List.perm_middle
  · have howners := h.owners
    rw [hcontrols] at howners
    refine Owners.append (howners.tail.cons ?_ ?_ ?_) _
    · intro i hi
      rw [owed_of_falseJump howes, List.mem_singleton] at hi
      exact ⟨e.point, by rw [hi, ← h.length, last_point], rfl⟩
    · exact howners.tops c List.mem_cons_self
    · exact howners.depth c List.mem_cons_self

/-- A waiting comparison is made; if the header of a construct waits for it, its jump is, too. -/
theorem Valid.generateRelational (h : γ.Valid) {op : RelOp} {r l : Operand × DataType}
    {rest : List (Operand × DataType)} {operators : List Waiting}
    (hoperands : γ.emitter.operands = r :: l :: rest)
    (hoperators : γ.emitter.operators = .operator (.rel op) :: operators)
    (hheader : awaitsCondition { γ.emitter with operators } = true →
      γ.emitter.calls = [] ∧ ∃ c controls, γ.emitter.controls = c :: controls ∧ c.owed = []) :
    Takes generateRelational γ fun _ γ' =>
      (∃ o, Does γ γ' { γ.allStacks with operands := o :: rest, operators }) ∨
        (awaitsCondition { γ.emitter with operators } = true ∧
          ∃ c controls i, γ.emitter.controls = c :: controls ∧ Does γ γ' { γ.allStacks with
            operands := rest, operators,
            controls := { c with falseJump := some i } :: controls }) := by
  refine Takes.bind ⟨γ, rfl, ?_⟩
  simp only [topOperator?, hoperators]
  refine Takes.bind ((h.generateBinary (by simp) hoperands hoperators).mono ?_)
  rintro _ γ₁ ⟨o, hdoes⟩
  have hawaits : awaitsCondition γ₁.emitter = awaitsCondition { γ.emitter with operators } := by
    simp only [awaitsCondition, hdoes.controls, hdoes.operators]
    rfl
  refine Takes.bind ⟨γ₁, rfl, ?_⟩
  dsimp only
  split
  · rename_i hawait
    rw [hawaits] at hawait
    obtain ⟨hcalls, c, controls, hcontrols, howes⟩ := hheader hawait
    refine (hdoes.valid.emitConditionJump (hdoes.controls.trans hcontrols) howes hdoes.operands
      (hdoes.calls.trans hcalls)).mono ?_
    rintro _ γ₂ ⟨i, hjump⟩
    refine .inr ⟨hawait, c, controls, i, hcontrols, ?_⟩
    rw [hdoes.allStacks] at hjump
    exact hdoes.trans hjump
  · exact ⟨γ₁, rfl, .inl ⟨o, hdoes⟩⟩

/-- Other open constructs that owe the same jumps. -/
theorem Valid.replaceControls (h : γ.Valid) {controls : List Control}
    (howed : controls.flatMap Control.owed = γ.emitter.controls.flatMap Control.owed)
    (howners : Owners (γ.past ++ [γ.emitter.point]) γ.emitter.context controls) :
    Does γ { γ with emitter := { γ.emitter with controls } } { γ.allStacks with controls } :=
  ⟨Emitter.Valid.withControls h howed howners, ⟨rfl, rfl, rfl, rfl⟩, rfl⟩

/-- A header opens with a construct that owes nothing. -/
theorem Valid.openControl (h : γ.Valid) (hrest : AtStatement γ.emitter) {construct : Construct}
    (howes : Control.owed { construct, isOpen := true, depth := 0, falseJump := none } = [])
    (htop : ∀ top, construct = .loop top → top = γ.emitter.quads.size) :
    Takes (openControl construct) γ fun _ γ' => Does γ γ' { γ.allStacks with
      controls := { construct, isOpen := true, depth := 0, falseJump := none } ::
        γ.emitter.controls } := by
  refine ⟨⟨_, γ.past⟩, rfl, ?_⟩
  have hdepth : γ.emitter.operators.length = 0 := by rw [hrest.operators, List.length_nil]
  simp only [hdepth]
  refine h.replaceControls ?_ (h.owners.cons ?_ ?_ ?_)
  · rw [List.flatMap_cons, howes, List.nil_append]
  · rw [howes]
    simp
  · intro top hloop
    rw [htop top hloop, ← Emitter.Valid.length h, last_point, hrest.point]
  · rfl

theorem Valid.enterIf (h : γ.Valid) (hrest : AtStatement γ.emitter) :
    Takes enterIf γ fun _ γ' => Does γ γ' { γ.allStacks with
      controls := { construct := .branch none, isOpen := true, depth := 0, falseJump := none } ::
        γ.emitter.controls } :=
  h.openControl hrest rfl (by simp)

theorem Valid.enterWhile (h : γ.Valid) (hrest : AtStatement γ.emitter) :
    Takes enterWhile γ fun _ γ' => ∃ top, Does γ γ' { γ.allStacks with
      controls := { construct := .loop top, isOpen := true, depth := 0, falseJump := none } ::
        γ.emitter.controls } := by
  refine Takes.bind ⟨γ, rfl, ?_⟩
  refine Takes.mono (h.openControl hrest rfl ?_) fun _ _ hdoes => ⟨_, hdoes⟩
  rintro top ⟨⟩
  rfl

/-- The end of a header: its condition is the operand on top, or has its jump already. -/
theorem Valid.leaveHeader (h : γ.Valid) {c : Control} {controls : List Control}
    (hcontrols : γ.emitter.controls = c :: controls) (hcalls : γ.emitter.calls = [])
    (hcondition : (c.owed = [] ∧ c.falseJump = none ∧ ∃ o, γ.emitter.operands = [o]) ∨
      (c.falseJump.isSome ∧ γ.emitter.operands = [])) :
    Takes leaveHeader γ fun _ γ' => ∃ i, Does γ γ' { γ.allStacks with
      operands := [],
      controls := { c with isOpen := false, falseJump := some i } :: controls } := by
  have howners := h.owners
  rw [hcontrols] at howners
  have hclosed : Does γ
      { γ with emitter := { γ.emitter with controls := { c with isOpen := false } :: controls } }
      { γ.allStacks with controls := { c with isOpen := false } :: controls } := by
    refine h.replaceControls (by rw [hcontrols]; rfl) (howners.tail.cons ?_ ?_ ?_)
    · exact howners.homes c List.mem_cons_self
    · exact howners.tops c List.mem_cons_self
    · exact howners.depth c List.mem_cons_self
  simp only [Takes, Emitter.leaveHeader, topControl, setTopControl, ensures_bind, ensures_get,
    hcontrols, ensures_pure, ensures_modify, List.tail_cons]
  rcases hcondition with ⟨howes, hnone, o, hoperands⟩ | ⟨hsome, hoperands⟩
  · rw [if_pos (by simp [hnone])]
    simp only [ensures_bind, ensures_get]
    split
    · refine (hclosed.valid.emitConditionJump rfl howes hoperands hcalls).mono ?_
      rintro _ γ' ⟨i, hdoes⟩
      exact ⟨i, hclosed.trans hdoes⟩
    · rfl
  · obtain ⟨i, hi⟩ := Option.isSome_iff_exists.mp hsome
    rw [if_neg (by simp [hi])]
    refine ⟨_, rfl, i, hclosed.valid, hclosed.alike, ?_⟩
    rw [hclosed.allStacks, ← hoperands, ← hi]
    rfl

/-- A jump of the innermost construct that falls due is filled in. -/
theorem Valid.backpatchHere (h : γ.Valid) {j : Nat} {controls : List Control}
    (hrest : γ.emitter.point = .resting γ.emitter.context)
    (howed : (γ.emitter.controls.flatMap Control.owed).Perm (j :: controls.flatMap Control.owed))
    (howners : Owners (γ.past ++ [γ.emitter.point]) γ.emitter.context controls)
    (hhome : ∃ P, (γ.past ++ [γ.emitter.point])[j]? = some P ∧
      P.function = γ.emitter.context) :
    Emit.Ensures (backpatchHere (some j)) { γ.emitter with controls } Cause.Expected fun _ e =>
      ∃ γ', γ'.emitter = e ∧ Does γ γ' { γ.allStacks with controls } := by
  obtain ⟨q, hq, hpending, hvalid⟩ := Emitter.Valid.patch h hrest howed howners hhome
  simp only [ensures_backpatchHere, ensures_backpatch, hq, hpending, if_true]
  exact ⟨⟨_, γ.past⟩, rfl, hvalid, ⟨rfl, rfl, rfl, rfl⟩, rfl⟩

/-- The `else` of an `if` whose condition has its jump. -/
theorem Valid.enterElse (h : γ.Valid) (hrest : AtStatement γ.emitter) {c : Control}
    {controls : List Control} {j : Nat} (hcontrols : γ.emitter.controls = c :: controls)
    (hbranch : c.construct = .branch none) (hjump : c.falseJump = some j) :
    Takes enterElse γ fun _ γ' => ∃ i, Does γ γ' { γ.allStacks with
      controls := { c with construct := .branch (some i) } :: controls } := by
  obtain ⟨e, past⟩ := γ
  obtain ⟨construct, isOpen, depth, falseJump⟩ := c
  dsimp only at hcontrols hrest hbranch hjump
  subst hbranch hjump
  have howners := h.owners
  rw [hcontrols] at howners
  let exit : Control :=
    { construct := .branch (some e.quads.size), isOpen, depth, falseJump := some j }
  -- for a moment both jumps wait: that of the condition and the one over the `else`
  let e' : Emitter :=
    { e with
      quads := e.quads.push { op := .goto, result := .pending }
      controls := exit :: e.controls }
  have hexit : ∀ {cs : List Control}, Owners (past ++ [e.point]) e.context cs →
      Owners (past ++ [e.point] ++ [e'.point]) e.context (exit :: cs) := by
    intro cs hcs
    have hdepth : depth = 0 :=
      howners.depth ⟨.branch none, isOpen, depth, some j⟩ List.mem_cons_self
    refine (hcs.cons ?_ (by simp [exit]) hdepth).append _
    intro i hi
    obtain rfl : i = e.quads.size := by simpa [exit, Control.owed] using hi
    exact ⟨e.point, by rw [← h.length, last_point], rfl⟩
  have hvalid : Valid ⟨e', past ++ [e.point]⟩ := by
    refine Emitter.Valid.emit h rfl ⟨rfl, rfl⟩ ⟨rfl, rfl, rfl, rfl⟩ (Nat.le_refl _)
      (Nat.le_refl _) h.pool h.held (h.laid.calls e.point (by simp)) ⟨hrest.calls, trivial⟩ ?_
      (hexit h.owners)
    exact h.owed.pushWaiting rfl List.perm_middle
  simp only [Takes, Emitter.enterElse, topControl, setTopControl, ensures_bind, ensures_get,
    hcontrols, ensures_pure, ensures_emit, ensures_modify, List.tail_cons]
  refine (hvalid.backpatchHere hrest.point ?_ (hexit howners.tail) ?_).mono (fun _ hc => hc) ?_
  · simp only [e', hcontrols, List.flatMap_cons]
    exact .swap _ _ _
  · obtain ⟨P, hP, hfunction⟩ := howners.homes _ List.mem_cons_self j (by simp [Control.owed])
    refine ⟨P, ?_, hfunction⟩
    rw [List.getElem?_append_left (List.getElem?_eq_some_iff.mp hP).1, hP]
  · rintro _ _ ⟨γ', rfl, hdoes⟩
    have halike : e'.Alike e := ⟨rfl, rfl, rfl, rfl⟩
    exact ⟨γ', rfl, e.quads.size, hdoes.valid, halike.trans hdoes.alike, hdoes.allStacks⟩

/-- The end of an `if` that has one jump to fill in. -/
theorem Valid.endIf (h : γ.Valid) (hrest : AtStatement γ.emitter) {c : Control}
    {controls : List Control} {exitJump : Option Nat}
    (hcontrols : γ.emitter.controls = c :: controls) (hbranch : c.construct = .branch exitJump)
    (hjump : c.falseJump.isSome) :
    Takes endIf γ fun _ γ' => Does γ γ' { γ.allStacks with controls } := by
  obtain ⟨j, hj, hcase⟩ : ∃ j, c.owed = [j] ∧
      (exitJump = some j ∨ (exitJump = none ∧ c.falseJump = some j)) := by
    obtain ⟨i, hi⟩ := Option.isSome_iff_exists.mp hjump
    cases exitJump with
    | none => exact ⟨i, by simp [Control.owed, hbranch, hi], .inr ⟨rfl, hi⟩⟩
    | some j => exact ⟨j, by simp [Control.owed, hbranch], .inl rfl⟩
  have howners := h.owners
  rw [hcontrols] at howners
  have hpatch := h.backpatchHere hrest.point
    (by rw [hcontrols, List.flatMap_cons, hj, List.singleton_append]) howners.tail
    (howners.homes c List.mem_cons_self j (by simp [hj]))
  simp only [Takes, Emitter.endIf, popControl, topControl, ensures_bind, ensures_get, hcontrols,
    ensures_pure, ensures_modify, List.tail_cons, hbranch]
  rcases hcase with rfl | ⟨rfl, hfalse⟩
  · exact hpatch
  · rw [hfalse]
    exact hpatch

/-- The end of a `while`: the jump back to its top, and behind it the way out. -/
theorem Valid.endWhile (h : γ.Valid) (hrest : AtStatement γ.emitter) {c : Control}
    {controls : List Control} {top : Nat}
    (hcontrols : γ.emitter.controls = c :: controls) (hloop : c.construct = .loop top)
    (hjump : c.falseJump.isSome) :
    Takes endWhile γ fun _ γ' => Does γ γ' { γ.allStacks with controls } := by
  obtain ⟨e, past⟩ := γ
  dsimp only at hcontrols hrest
  obtain ⟨j, hj⟩ := Option.isSome_iff_exists.mp hjump
  have howed : c.owed = [j] := by simp [Control.owed, hloop, hj]
  have howners := h.owners
  rw [hcontrols] at howners
  let e' : Emitter := { e with quads := e.quads.push { op := .goto, result := .jump top } }
  have hvalid : Valid ⟨e', past ++ [e.point]⟩ := by
    refine Emitter.Valid.emitPlain h rfl ⟨rfl, rfl⟩ ⟨rfl, rfl, rfl, rfl⟩ (Nat.le_refl _)
      (Nat.le_refl _) h.pool h.held (h.laid.calls e.point (by simp)) ⟨hrest.calls, top, rfl, ?_⟩
      rfl rfl
    have htop := howners.tops c List.mem_cons_self top hloop
    rw [List.getElem?_append_left (List.getElem?_eq_some_iff.mp htop).1, htop]
    rfl
  have howners' := hvalid.owners
  rw [show Emitter.controls e' = c :: controls from hcontrols] at howners'
  simp only [Takes, Emitter.endWhile, popControl, topControl, ensures_bind, ensures_get, hcontrols,
    ensures_pure, ensures_modify, List.tail_cons, hloop, ensures_emit, hj]
  refine (hvalid.backpatchHere hrest.point ?_ howners'.tail ?_).mono (fun _ hc => hc) ?_
  · simp only [e', hcontrols, List.flatMap_cons, howed]
    exact .refl _
  · exact howners'.homes c List.mem_cons_self j (by simp [howed])
  · rintro _ _ ⟨γ', rfl, hdoes⟩
    have halike : e'.Alike e := ⟨rfl, rfl, rfl, rfl⟩
    exact ⟨γ', rfl, hdoes.valid, halike.trans hdoes.alike, hdoes.allStacks⟩

end Draft

end DuckLang
