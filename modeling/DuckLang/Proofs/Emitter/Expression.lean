import DuckLang.Proofs.Emitter.Draft

/-! Expressions.  A variable, a literal or an operation with its operands leaves one operand more
on the stack, and nothing but code behind. -/

namespace DuckLang

open Emitter

/-- The symbol that a name stands for is one that the function being read can see. -/
theorem Emitter.Valid.visible {e : Emitter} {past : List Point} (h : Valid e past) {name : String}
    {symbol : Symbol} (hsymbol : e.scope.symbol? name = some symbol) :
    e.scope.Visible e.context symbol.address symbol.type := by
  have hmem : ∀ {owner : String}, (e.scope.entryOf? owner).bind (·.symbol? name) = some symbol →
      ∃ entry, e.scope.entryOf? owner = some entry ∧ symbol ∈ entry.symbols := by
    intro owner hbind
    obtain ⟨entry, hentry, hfound⟩ := Option.bind_eq_some_iff.mp hbind
    exact ⟨entry, hentry, List.mem_of_find?_eq_some hfound⟩
  simp only [Scope.symbol?] at hsymbol
  split at hsymbol
  · rename_i found hfound
    obtain rfl := Option.some.inj hsymbol
    obtain ⟨entry, hentry, hmem⟩ := hmem hfound
    refine ⟨e.scope.current, entry, found, ?_, hentry, hmem, rfl, rfl⟩
    rw [h.names.current, context]
    cases e.body with
    | none => exact .inl rfl
    | some b => exact .inr rfl
  · obtain ⟨entry, hentry, hmem⟩ := hmem hsymbol
    exact ⟨e.scope.program, entry, symbol, .inl rfl, hentry, hmem, rfl, rfl⟩

namespace Draft

variable {γ : Draft}

/-- An operand that is no temporary, put on other operands. -/
theorem Valid.replace (h : γ.Valid) {rest : List (Operand × DataType)}
    (hrest : ∀ o ∈ rest, o ∈ γ.emitter.operands) (operand : Operand) (type : DataType)
    (hheld : Held γ.emitter.scope γ.emitter.context (operand, type))
    (htemps : temporaries [(operand, type)] = []) :
    ∃ o, Does γ { γ with emitter := { γ.emitter with operands := (operand, type) :: rest } }
      { γ.allStacks with operands := o :: rest } := by
  refine ⟨(operand, type), ?_, ⟨rfl, rfl, rfl, rfl⟩, rfl⟩
  refine Emitter.Valid.withOperands h ?_ ?_
  · exact List.forall_mem_cons.mpr ⟨hheld, fun o ho => h.held o (hrest o ho)⟩
  · have hsplit : temporaries ((operand, type) :: rest) = temporaries rest := by
      rw [← List.singleton_append, temporaries, List.filterMap_append]
      exact congrArg (· ++ temporaries rest) htemps
    rw [hsplit]
    rintro ⟨id, t⟩ hmem
    obtain ⟨t', hmem⟩ := mem_temporaries.mp hmem
    exact mem_temporaries.mpr ⟨t', hrest _ hmem⟩

theorem Valid.pushVariable (h : γ.Valid) (name : String) :
    Takes (pushVariable name) γ fun _ γ' =>
      ∃ o, Does γ γ' { γ.allStacks with operands := o :: γ.emitter.operands } := by
  refine Takes.bind ?_
  simp only [Takes, ensures_lookup]
  split
  · rename_i symbol hsymbol
    exact ⟨γ, rfl, _, rfl,
      h.replace (fun _ ho => ho) (.address _ _) _ ⟨rfl, h.visible hsymbol⟩ rfl⟩
  · rfl

theorem Valid.pushLiteral (h : γ.Valid) {v : Value} (hv : v.type.isStorable = true) :
    Takes (pushLiteral v) γ fun _ γ' =>
      ∃ o, Does γ γ' { γ.allStacks with operands := o :: γ.emitter.operands } := by
  refine ⟨_, rfl, h.replace (fun _ ho => ho) (.literal v) _ ?_ ?_⟩
  · cases v <;> first | exact ⟨rfl, trivial⟩ | cases hv
  · cases v <;> rfl

theorem Valid.negateLiteral (h : γ.Valid) {o : Operand × DataType}
    {rest : List (Operand × DataType)} (hoperands : γ.emitter.operands = o :: rest) :
    Takes negateLiteral γ fun _ γ' =>
      ∃ o', Does γ γ' { γ.allStacks with operands := o' :: rest } := by
  have hrest : ∀ o ∈ rest, o ∈ γ.emitter.operands := by
    intro o' ho'
    rw [hoperands]
    exact List.mem_cons_of_mem _ ho'
  have htype := (h.held o (by simp [hoperands])).1
  simp only [Takes, Emitter.negateLiteral, ensures_bind, ensures_popOperand, hoperands]
  split
  · rename_i n hoperand
    rw [hoperand] at htype
    exact ⟨_, rfl, h.replace hrest (.intLiteral (-n)) _ ⟨htype, trivial⟩ rfl⟩
  · rename_i x hoperand
    rw [hoperand] at htype
    exact ⟨_, rfl, h.replace hrest (.floatLiteral (-x)) _ ⟨htype, trivial⟩ rfl⟩
  · rfl

theorem result_storable {left right type : DataType} {op : Operator} (hop : op ≠ .assign)
    (h : Cube.result? left op right = some type) : type.isStorable = true := by
  cases op with
  | arith op =>
    simp only [Cube.result?] at h
    split at h
    · obtain rfl := Option.some.inj h
      split <;> rfl
    · cases h
  | rel op =>
    simp only [Cube.result?] at h
    split at h
    · obtain rfl := Option.some.inj h
      rfl
    · cases h
  | assign => exact absurd rfl hop

theorem temporaries_subset {operands rest : List (Operand × DataType)} (h : rest ⊆ operands) :
    temporaries rest ⊆ temporaries operands := by
  rintro ⟨id, type⟩ hmem
  obtain ⟨t, hmem⟩ := mem_temporaries.mp hmem
  exact mem_temporaries.mpr ⟨t, h hmem⟩

/-- A binary operation takes its operands and its operator off the stacks and leaves its result. -/
theorem Valid.generateBinary (h : γ.Valid) {op : Operator} (hop : op ≠ .assign)
    {r l : Operand × DataType} {rest : List (Operand × DataType)} {w : Waiting}
    {operators : List Waiting} (hoperands : γ.emitter.operands = r :: l :: rest)
    (hoperators : γ.emitter.operators = w :: operators) :
    Takes (generateBinary op) γ fun _ γ' =>
      ∃ o, Does γ γ' { γ.allStacks with operands := o :: rest, operators } := by
  obtain ⟨e, past⟩ := γ
  dsimp only at hoperands hoperators
  obtain ⟨right, rightType⟩ := r
  obtain ⟨left, leftType⟩ := l
  have hsub : rest ⊆ e.operands := by
    rw [hoperands]
    exact fun o ho => List.mem_cons_of_mem _ (List.mem_cons_of_mem _ ho)
  simp only [Takes, Emitter.generateBinary, ensures_bind, ensures_popOperand, hoperands,
    ensures_modify, hoperators, List.tail_cons]
  split
  · rfl
  · rename_i type htype
    simp only [ensures_bind, ensures_newTemp, ensures_emit, ensures_pushOperand, ensures_release]
    obtain ⟨hpool, hnext, hpos, hlt⟩ := h.pool.alloc
    refine ⟨⟨_, past ++ [e.point]⟩, rfl, (.temporary e.temps.alloc.1 type, type), ?_,
      ⟨rfl, rfl, rfl, rfl⟩, rfl⟩
    refine Emitter.Valid.emitPlain h rfl ?_ ⟨rfl, rfl, rfl, rfl⟩ (Nat.le_refl _) ?_ ?_ ?_ ?_ ?_ rfl
      rfl
    · cases op with
      | assign => exact absurd rfl hop
      | _ => trivial
    · simpa only [TempPool.next_without] using hnext
    · exact (hpool.without _).without _
    · refine List.forall_mem_cons.mpr ⟨⟨rfl, trivial⟩, fun o ho => h.held o (hsub ho)⟩
    · exact h.laid.calls e.point (by simp)
    · have hl := h.readable (o := (left, leftType)) (by simp [hoperands])
      have hr := h.readable (o := (right, rightType)) (by simp [hoperands])
      obtain rfl : left.type = leftType := (h.held (left, leftType) (by simp [hoperands])).1
      obtain rfl : right.type = rightType := (h.held (right, rightType) (by simp [hoperands])).1
      have hminted : Env.Minted
          { scope := e.scope, strings := e.strings.length, temps := e.temps.alloc.2.next }
          e.temps.alloc.1 type := ⟨hpos, hlt, result_storable hop htype⟩
      have hextends : Env.Extends
          { scope := e.scope, strings := e.strings.length, temps := e.temps.alloc.2.next } e.env :=
        ⟨.refl _, Nat.le_refl _, hnext⟩
      simp only [Emitter.env, TempPool.next_without]
      cases op with
      | arith op =>
        exact ⟨hl.mono hextends, hr.mono hextends, _, _, rfl, htype, hminted, rfl,
          List.cons_subset_cons _ (temporaries_subset hsub), rfl⟩
      | rel op =>
        exact ⟨hl.mono hextends, hr.mono hextends, _, _, rfl, htype, hminted, rfl,
          List.cons_subset_cons _ (temporaries_subset hsub), rfl⟩
      | assign => exact absurd rfl hop

/-- A waiting operation among those asked for is made. -/
theorem Valid.generateAmong (h : γ.Valid) {ops : List ArithOp} {op : ArithOp} (hop : op ∈ ops)
    {r l : Operand × DataType} {rest : List (Operand × DataType)} {operators : List Waiting}
    (hoperands : γ.emitter.operands = r :: l :: rest)
    (hoperators : γ.emitter.operators = .operator (.arith op) :: operators) :
    Takes (generateAmong ops) γ fun _ γ' =>
      ∃ o, Does γ γ' { γ.allStacks with operands := o :: rest, operators } := by
  refine Takes.bind ⟨γ, rfl, ?_⟩
  simp only [topOperator?, hoperators, if_pos hop]
  exact h.generateBinary (by simp) hoperands hoperators

theorem Valid.pushWaiting (h : γ.Valid) (w : Waiting) :
    Takes (pushWaiting w) γ fun _ γ' =>
      Does γ γ' { γ.allStacks with operators := w :: γ.emitter.operators } :=
  ⟨⟨_, γ.past⟩, rfl, Emitter.Valid.withOperators h _, ⟨rfl, rfl, rfl, rfl⟩, rfl⟩

theorem Valid.closeParen (h : γ.Valid) {operators : List Waiting}
    (hoperators : γ.emitter.operators = .paren :: operators) :
    Takes closeParen γ fun _ γ' => Does γ γ' { γ.allStacks with operators } := by
  simp only [Takes, Emitter.closeParen, ensures_bind, ensures_get, hoperators]
  exact ⟨⟨_, γ.past⟩, rfl, Emitter.Valid.withOperators h _, ⟨rfl, rfl, rfl, rfl⟩, rfl⟩

end Draft

end DuckLang
