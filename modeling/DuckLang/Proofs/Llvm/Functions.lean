import DuckLang.Proofs.Llvm.Blocks

/-! Functions from their start to their end.  The quadruples of a function are made one after the
other, each in a block that was there from the start, so a jump leads to a block of its function. -/

namespace DuckLang.Llvm

/-- A range within the quadruples of a program. -/
structure Range.Within (r : Range) (p : Program) : Prop where
  start : r.start ≤ r.stop
  stop : r.stop ≤ p.quads.size

namespace Lowering

variable {p : Program} {r : Range} {s s' : Lowering} {n : Nat} {q : Quad} {label : Label}

/-! ### The blocks of the start -/

theorem indices_quadsOf (hr : r.Within p) :
    (quadsOf p r).map (·.2) = List.range' r.start (r.stop - r.start) := by
  have := hr.start
  have := hr.stop
  rw [quadsOf, List.zipIdx_map_snd]
  congr 1
  simp only [List.length_take, List.length_drop, Array.length_toList]
  omega

/-- At the start there is a block for each quadruple, and only the exit has ended. -/
theorem shape_start (hr : r.Within p) : (start p r).shape =
    (.entry, false) :: ((List.range' r.start (r.stop - r.start)).map fun j => (.quad j, false)) ++
      [(.exit, true)] := by
  rw [← indices_quadsOf hr]
  simp [start, shape, Function.comp_def]

theorem labels_start (hr : r.Within p) : (start p r).labels =
    .entry :: ((List.range' r.start (r.stop - r.start)).map .quad) ++ [.exit] := by
  rw [labels_eq_shape, shape_start hr]
  simp [Function.comp_def]

theorem quad_mem_start (hr : r.Within p) {j : Nat} :
    .quad j ∈ (start p r).labels ↔ r.start ≤ j ∧ j < r.stop := by
  have := hr.start
  simp only [labels_start hr, List.mem_append, List.mem_cons, List.mem_map, List.mem_range'_1,
    List.not_mem_nil, reduceCtorEq, false_or, or_false, Label.quad.injEq, exists_eq_right]
  omega

theorem exit_mem_start (hr : r.Within p) : .exit ∈ (start p r).labels := by
  simp [labels_start hr]

theorem labelAt_mem (hr : r.Within p) (j : Nat) : labelAt r j ∈ (start p r).labels := by
  unfold labelAt
  split
  · rename_i hj
    exact (quad_mem_start hr).mpr hj
  · exact exit_mem_start hr

/-- A jump leads to a block that was there from the start. -/
theorem run_jumpLabel (hr : r.Within p) {operand : Operand}
    (hrun : (jumpLabel r operand).run s = .ok (label, s')) :
    label ∈ (start p r).labels ∧ s = s' := by
  unfold jumpLabel at hrun
  split at hrun
  · rename_i target
    split at hrun
    · obtain ⟨rfl, rfl⟩ : .exit = label ∧ s = s' := Prod.mk.inj (Except.ok.inj hrun)
      exact ⟨exit_mem_start hr, rfl⟩
    · split at hrun
      · rename_i hinside
        obtain ⟨rfl, rfl⟩ : .quad target.toNat = label ∧ s = s' := Prod.mk.inj (Except.ok.inj hrun)
        exact ⟨(quad_mem_start hr).mpr (by omega), rfl⟩
      · cases hrun
  · cases hrun

/-! ### Quadruples -/

theorem run_terminate {t : Terminator} {u : Unit} (hrun : (terminate t).run s = .ok (u, s')) :
    s.modifyAt s.current (·.endWith t) = s' :=
  (Prod.mk.inj (Except.ok.inj hrun)).2

/-- The end of a function that runs off its end works on no register and leads nowhere. -/
theorem fallOff_plain (f : FunctionInfo) :
    (∀ ref ∈ (fallOff f).operands, ref.register? = none) ∧ (fallOff f).targets = [] := by
  unfold fallOff
  split
  · simp [Terminator.operands, Terminator.targets, Ref.register?]
  · split
    · simp [Terminator.operands, Terminator.targets, register?_zeroOf]
    · simp [Terminator.operands, Terminator.targets]

theorem Busy.fallOff {u : Unit} (h : Busy p r n s)
    (hrun : (terminate (fallOff r.function)).run s = .ok (u, s')) : Busy p r n s' := by
  rw [← run_terminate hrun]
  obtain ⟨hoperands, htargets⟩ := fallOff_plain r.function
  exact h.endWith (fun ref href => offers_of_none (hoperands ref href)) (by simp [htargets])

theorem Busy.arith {u : Unit} {op : ArithOp} (h : Busy p r n s)
    (hlabel : s.label? = some (.quad n)) (hnew : .quotient n ∉ s.labels)
    (hrun : (arith p n q op).run s = .ok (u, s')) : Busy p r n s' := by
  unfold Lowering.arith at hrun
  obtain ⟨⟨left, right, type⟩, s₁, hoperands, hrun⟩ := bind_ok hrun
  obtain ⟨h₁, hgrown, hoffers⟩ := h.fills (fills_operands q) (by simp) hoperands
  dsimp only at hrun
  split at hrun
  · obtain ⟨_, s₂, hcheck, hrun⟩ := bind_ok hrun
    obtain ⟨h₂, hkept⟩ := h₁.checkDivisor (hgrown.label?.trans hlabel) (hgrown.labels ▸ hnew)
      (hoffers right (by simp)) hcheck
    exact (h₂.fills (fills_combine _ _ _ _ _) (fun ref href => hkept ref (hoffers ref href)) hrun).1
  · exact (h₁.fills (fills_combine _ _ _ _ _) hoffers hrun).1

/-- A quadruple fills its block or ends it. -/
theorem Busy.quad {u : Unit} (hp : ∀ entry ∈ p.functions, entry.2.name = entry.1)
    (hr : r.Within p) (h : Busy p r n s) (hlabel : s.label? = some (.quad n))
    (hnew : .quotient n ∉ s.labels) (hrun : (quad p r n q).run s = .ok (u, s')) :
    Busy p r n s' := by
  obtain ⟨op, left, right, result⟩ := q
  unfold Lowering.quad at hrun
  cases op with
  | arith op => exact h.arith hlabel hnew hrun
  | rel op => exact (h.fills (fills_compare _ op) (by simp) hrun).1
  | assign => exact (h.fills (fills_assign _ _) (by simp) hrun).1
  | write => exact (h.fills (fills_write _) (by simp) hrun).1
  | read => exact (h.fills (fills_read _) (by simp) hrun).1
  | announce => exact (h.fills (fills_announce hp _) (by simp) hrun).1
  | param => exact (h.fills (fills_param _) (by simp) hrun).1
  | call => exact (h.fills (fills_makeCall _) (by simp) hrun).1
  | goto =>
    obtain ⟨target, s₁, hjump, hrun⟩ := bind_ok hrun
    obtain ⟨htarget, rfl⟩ := run_jumpLabel hr hjump
    rw [← run_terminate hrun]
    exact h.endWith (by simp [Terminator.operands]) (by simpa [Terminator.targets] using htarget)
  | gotoFalse =>
    obtain ⟨⟨value, type⟩, s₁, hload, hrun⟩ := bind_ok hrun
    obtain ⟨h₁, _, hvalue⟩ := h.fills (fills_load _) (by simp) hload
    obtain ⟨target, s₂, hjump, hrun⟩ := bind_ok hrun
    obtain ⟨htarget, rfl⟩ := run_jumpLabel hr hjump
    obtain ⟨condition, s₃, htest, hrun⟩ := bind_ok hrun
    obtain ⟨h₃, _, hcondition⟩ := h₁.fills (fills_compareZero _ _ _) hvalue htest
    rw [← run_terminate hrun]
    exact h₃.endWith (by simpa [Terminator.operands] using hcondition)
      (by simpa [Terminator.targets] using ⟨labelAt_mem hr _, htarget⟩)
  | giveBack =>
    dsimp only at hrun
    split at hrun
    · obtain ⟨⟨value, type⟩, s₁, hload, hrun⟩ := bind_ok hrun
      obtain ⟨h₁, _, hvalue⟩ := h.fills (fills_load _) (by simp) hload
      obtain ⟨converted, s₂, hconvert, hrun⟩ := bind_ok hrun
      obtain ⟨h₂, _, hconverted⟩ := h₁.fills (fills_convert _ _ _) hvalue hconvert
      rw [← run_terminate hrun]
      exact h₂.endWith (by simpa [Terminator.operands] using hconverted)
        (by simp [Terminator.targets])
    · cases hrun
  | endFunction => exact h.fallOff hrun
  | halt => exact h.fallOff hrun
  | unknown code => cases hrun

theorem run_within {α : Type} {m : Lower α} {a : α} {index : Nat}
    (hrun : (within index q m).run s = .ok (a, s')) : m.run s = .ok (a, s') := by
  simp only [StateT.run, within] at hrun ⊢
  split at hrun
  · rename_i result hm
    rw [hm, Except.ok.inj hrun]
  · cases hrun

theorem Ready.busy (hr : r.Within p) (h : Ready p r n s) (hstart : r.start ≤ n)
    (hstop : n < r.stop) :
    Busy p r n { s with current := n - r.start + 1 } ∧
      ({ s with current := n - r.start + 1 } : Lowering).label? = some (.quad n) ∧
      .quotient n ∉ s.labels := by
  obtain ⟨more, hlabels, hmore⟩ := h.layout
  have hlabel : s.labels[n - r.start + 1]? = some (.quad n) := by
    have hn : n - r.start < r.stop - r.start := by omega
    rw [hlabels, labels_start hr]
    simp [List.getElem?_append, hn]
    omega
  have hlt := (List.getElem?_eq_some_iff.mp hlabel).1
  rw [Lowering.labels, List.length_map, Array.length_toList] at hlt
  have hlabel? : ({ s with current := n - r.start + 1 } : Lowering).label? = some (.quad n) := by
    rw [label?_eq_labels]
    exact hlabel
  refine ⟨⟨⟨h.valid.moveTo hlt, ⟨more, hlabels, fun label hlabel => ?_⟩, h.zero⟩, ?_⟩, hlabel?, ?_⟩
  · refine (hmore label hlabel).imp_right ?_
    rintro ⟨j, hj, heq⟩
    exact ⟨j, Nat.lt_succ_of_lt hj, heq⟩
  · intro label hopen
    rcases h.opened label hopen with hentry | ⟨j, hj, rfl⟩
    · exact .inr (.inl hentry)
    · rcases Nat.eq_or_lt_of_le hj with rfl | hlt
      · exact .inl hlabel?
      · exact .inr (.inr ⟨j, hlt, rfl⟩)
  · rw [hlabels, labels_start hr]
    intro hmem
    rcases List.mem_append.mp hmem with hmem | hmem
    · simp at hmem
    · rcases hmore _ hmem with heq | ⟨j, hj, heq⟩
      · cases heq
      · cases heq
        exact Nat.lt_irrefl _ hj

/-- The block of a quadruple has ended once it is made. -/
theorem Ready.quadBlock {u : Unit} (hp : ∀ entry ∈ p.functions, entry.2.name = entry.1)
    (hr : r.Within p) (h : Ready p r n s) (hstart : r.start ≤ n) (hstop : n < r.stop)
    (hrun : (quadBlock p r (q, n)).run s = .ok (u, s')) : Ready p r (n + 1) s' := by
  unfold Lowering.quadBlock at hrun
  obtain ⟨_, s₁, hmove, hrun⟩ := bind_ok hrun
  obtain rfl : { s with current := n - r.start + 1 } = s₁ := (Prod.mk.inj (Except.ok.inj hmove)).2
  obtain ⟨hbusy, hlabel, hnew⟩ := h.busy hr hstart hstop
  obtain ⟨_, s₂, hquad, hrun⟩ := bind_ok hrun
  have h₂ := hbusy.quad hp hr hlabel hnew (run_within hquad)
  obtain ⟨state, s₃, hget, hrun⟩ := bind_ok hrun
  obtain ⟨rfl, rfl⟩ : s₂ = state ∧ s₂ = s₃ := Prod.mk.inj (Except.ok.inj hget)
  split at hrun
  · rw [← run_terminate hrun]
    refine Busy.ready (h₂.endWith ?_ ?_) (isTerminated_endWith h₂.valid)
    · simp [Terminator.operands]
    · simpa [Terminator.targets] using labelAt_mem hr _
  · -- a jump or an end that the quadruple itself made
    rename_i hended
    obtain rfl : s₂ = s' := (Prod.mk.inj (Except.ok.inj hrun)).2
    exact h₂.ready (by simpa using hended)

theorem Ready.quads {u : PUnit} (hp : ∀ entry ∈ p.functions, entry.2.name = entry.1)
    (hr : r.Within p) {code : List Quad} (h : Ready p r n s) (hstart : r.start ≤ n)
    (hstop : n + code.length ≤ r.stop)
    (hrun : ((code.zipIdx n).forM (Lowering.quadBlock p r)).run s = .ok (u, s')) :
    Ready p r (n + code.length) s' := by
  -- on the quadruples still to be made: each one leaves its blocks ended to those behind it
  induction code generalizing n s with
  | nil =>
    obtain rfl : s = s' := (Prod.mk.inj (Except.ok.inj hrun)).2
    exact h
  | cons q code ih =>
    rw [List.length_cons] at hstop
    obtain ⟨_, mid, hfirst, hrest⟩ := bind_ok hrun
    have hnext := h.quadBlock hp hr hstart (by omega) hfirst
    have hend := ih hnext (by omega) (by omega) hrest
    rwa [Nat.add_assoc, Nat.add_comm 1] at hend

/-! ### Functions -/

/-- The stack array of a segment for a type, if it is not empty. -/
def arraySlot (segment : String) (sizes : Counts) (type : DataType) : List Instruction :=
  if sizes.get type = 0 then []
  else [.slot (stackName segment type) (.array (sizes.get type) (tyOf type))]

/-- The stack arrays of a function for some types. -/
def arraySlots (locals temps : Counts) (types : List DataType) : List Instruction :=
  types.flatMap fun type => arraySlot "local" locals type ++ arraySlot "temp" temps type

/-- The blocks of a function at its start, the entry apart. -/
def bodyBlocks (p : Program) (r : Range) : List Block :=
  ((quadsOf p r).map fun entry => { label := .quad entry.2 }) ++
    [{ label := .exit, terminator := some (fallOff r.function) }]

/-- A function at its start, with instructions in its entry. -/
def opening (p : Program) (r : Range) (code : List Instruction) : Lowering :=
  let entry : Block := { label := .entry, instructions := code.toArray }
  { start p r with blocks := (entry :: bodyBlocks p r).toArray }

/-- A function at its start, with its stack arrays made. -/
def withArrays (p : Program) (r : Range) : Lowering :=
  opening p r (arraySlots (start p r).locals (start p r).temps DataType.storable)

theorem opening_push (code : List Instruction) (i : Instruction) :
    (opening p r code).modifyAt 0 (·.push i) = opening p r (code ++ [i]) := by
  have hblocks : (opening p r code).blocks.modify 0 (·.push i) =
      (opening p r (code ++ [i])).blocks := by
    apply Array.toList_inj.mp
    simp [opening, Block.push]
  rw [modifyAt, hblocks]
  rfl

theorem run_stackArray {u : Unit} {code : List Instruction} {segment : String} {sizes : Counts}
    {type : DataType}
    (hrun : (stackArray segment sizes type).run (opening p r code) = .ok (u, s')) :
    s' = opening p r (code ++ arraySlot segment sizes type) := by
  unfold stackArray at hrun
  unfold arraySlot
  split at hrun
  · rename_i hempty
    rw [if_pos hempty, List.append_nil]
    exact (Prod.mk.inj (Except.ok.inj hrun)).2.symm
  · rename_i hsize
    rw [if_neg hsize, ← opening_push]
    exact (Prod.mk.inj (Except.ok.inj hrun)).2.symm

theorem run_stackArrays {u : PUnit} {locals temps : Counts} {types : List DataType}
    (code : List Instruction)
    (hrun : (types.forM fun type => do
      stackArray "local" locals type
      stackArray "temp" temps type).run (opening p r code) = .ok (u, s')) :
    s' = opening p r (code ++ arraySlots locals temps types) := by
  induction types generalizing code with
  | nil =>
    rw [arraySlots, List.flatMap_nil, List.append_nil]
    exact (Prod.mk.inj (Except.ok.inj hrun)).2.symm
  | cons type types ih =>
    obtain ⟨_, s₁, hfirst, hrest⟩ := bind_ok hrun
    obtain ⟨_, s₂, hlocals, htemps⟩ := bind_ok hfirst
    obtain rfl := run_stackArray hlocals
    obtain rfl := run_stackArray htemps
    rw [ih _ hrest]
    simp [arraySlots]

theorem mem_arraySlots {locals temps : Counts} {types : List DataType} {i : Instruction}
    (h : i ∈ arraySlots locals temps types) : ∃ name type, i = .slot name type := by
  have hslot {segment : String} {sizes : Counts} {type : DataType}
      (hi : i ∈ arraySlot segment sizes type) : ∃ name type, i = .slot name type := by
    unfold arraySlot at hi
    split at hi
    · cases hi
    · exact ⟨_, _, List.mem_singleton.mp hi⟩
  obtain ⟨type, _, hi⟩ := List.mem_flatMap.mp h
  exact (List.mem_append.mp hi).elim hslot hslot

theorem registersOf_arraySlots (locals temps : Counts) (types : List DataType) :
    (registersOf (arraySlots locals temps types)).Sublist (types.flatMap fun type =>
      [.named (stackName "local" type), .named (stackName "temp" type)]) := by
  have hslot (segment : String) (sizes : Counts) (type : DataType) :
      (registersOf (arraySlot segment sizes type)).Sublist [.named (stackName segment type)] := by
    unfold arraySlot
    split
    · exact List.nil_sublist _
    · exact List.Sublist.refl _
  induction types with
  | nil => exact List.nil_sublist _
  | cons type types ih =>
    rw [arraySlots, registersOf, List.flatMap_cons, List.filterMap_append, List.filterMap_append,
      List.flatMap_cons]
    exact ((hslot "local" locals type).append (hslot "temp" temps type)).append ih

theorem mem_bodyBlocks {b : Block} (hb : b ∈ bodyBlocks p r) :
    b.instructions = #[] ∧ ∀ t ∈ b.terminator, t = fallOff r.function := by
  rcases List.mem_append.mp hb with hb | hb
  · obtain ⟨entry, _, rfl⟩ := List.mem_map.mp hb
    exact ⟨rfl, by simp⟩
  · obtain rfl := List.mem_singleton.mp hb
    exact ⟨rfl, by simp⟩

theorem mem_opening {b : Block} {code : List Instruction} (hb : b ∈ (opening p r code).blocks) :
    b = { label := .entry, instructions := code.toArray } ∨ b ∈ bodyBlocks p r :=
  List.mem_cons.mp (List.mem_toArray.mp hb)

theorem registers_opening (code : List Instruction) :
    (opening p r code).registers = registersOf code := by
  have hbody : (bodyBlocks p r).flatMap Block.registers = [] := by
    refine List.flatMap_eq_nil_iff.mpr fun b hb => ?_
    rw [Block.registers, (mem_bodyBlocks hb).1]
    rfl
  show registersOf code ++ (bodyBlocks p r).flatMap Block.registers = _
  rw [hbody, List.append_nil]

theorem slotted_opening {segment : String} {sizes : Counts} {code : List Instruction}
    (h : ∀ type ∈ DataType.storable, ∀ i ∈ arraySlot segment sizes type, i ∈ code) :
    Slotted (opening p r code).blocks segment sizes := by
  intro type htype hsize
  have hslot := h type htype (.slot (stackName segment type) (.array (sizes.get type) (tyOf type)))
    (by rw [arraySlot, if_neg hsize]; exact List.mem_singleton_self _)
  refine ⟨{ label := .entry, instructions := code.toArray }, by simp [opening], rfl, ?_⟩
  exact List.mem_filterMap.mpr ⟨_, hslot, rfl⟩

theorem nodup_labels_start (hr : r.Within p) : (start p r).labels.Nodup := by
  have hquads : ((List.range' r.start (r.stop - r.start)).map Label.quad).Nodup :=
    List.Nodup.map (fun _ _ => Label.quad.inj) List.nodup_range'
  rw [labels_start hr]
  refine List.nodup_append.mpr ⟨List.nodup_cons.mpr ⟨by simp, hquads⟩, List.nodup_singleton _, ?_⟩
  rintro a ha b hb rfl
  simp_all

theorem valid_withArrays (hr : r.Within p) : Valid p (withArrays p r) := by
  unfold withArrays
  constructor
  · exact nodup_labels_start hr
  · rfl
  · show 0 < _
    simp [opening]
  · intro b hb
    rcases mem_opening hb with rfl | hb
    · constructor
      · intro before i after hcode
        obtain ⟨name, type, rfl⟩ := mem_arraySlots (i := i) (by
          rw [show arraySlots _ _ _ = before ++ i :: after from hcode]
          simp)
        simp [Instruction.operands]
      · intro i hi
        obtain ⟨name, type, rfl⟩ := mem_arraySlots (List.mem_toArray.mp hi)
        trivial
    · have hempty := (mem_bodyBlocks hb).1
      constructor
      · intro before i after hcode
        simp [hempty] at hcode
      · intro i hi
        simp [hempty] at hi
  · intro b hb t ht
    obtain ⟨hoperands, htargets⟩ := fallOff_plain r.function
    rcases mem_opening hb with rfl | hb
    · cases ht
    · obtain rfl := (mem_bodyBlocks hb).2 t ht
      refine ⟨fun ref href x hx => ?_, by simp [htargets]⟩
      rw [hoperands ref href] at hx
      cases hx
  · -- there are six names at most, told apart by segment and type
    rw [registers_opening]
    exact List.Nodup.sublist (registersOf_arraySlots _ _ _) (by decide +kernel)
  · intro id hid
    rw [registers_opening] at hid
    obtain ⟨type, _, hmem⟩ := List.mem_flatMap.mp ((registersOf_arraySlots _ _ _).subset hid)
    simp at hmem
  · apply slotted_opening
    intro type htype i hi
    exact List.mem_flatMap.mpr ⟨type, htype, List.mem_append_left _ hi⟩
  · apply slotted_opening
    intro type htype i hi
    exact List.mem_flatMap.mpr ⟨type, htype, List.mem_append_right _ hi⟩
  · intro call hcall
    cases hcall

/-- Before its first quadruple, the parameters of a function are in their slots. -/
theorem ready_start (hr : r.Within p) (hvalid : Valid p s)
    (hgrown : Grown (withArrays p r) s) : Ready p r r.start s := by
  have hshape : s.shape = (start p r).shape := hgrown.shape
  have hlabels : s.labels = (start p r).labels := by rw [labels_eq_shape, labels_eq_shape, hshape]
  refine ⟨⟨hvalid, ⟨[], by rw [hlabels, List.append_nil], by simp⟩, ?_⟩, fun label hopen => ?_⟩
  · have hnone : s.reportsZero = false := hgrown.reportsZero
    rw [hlabels, labels_start hr, hnone]
    simp
  · rw [hshape, shape_start hr] at hopen
    rcases List.mem_append.mp hopen with hopen | hopen
    · rcases List.mem_cons.mp hopen with hentry | hquad
      · exact .inl (Prod.mk.inj hentry).1
      · obtain ⟨j, hj, heq⟩ := List.mem_map.mp hquad
        exact .inr ⟨j, (List.mem_range'_1.mp hj).1, (Prod.mk.inj heq).1.symm⟩
    · simp at hopen

theorem fills_params (params : List (Param × Nat)) :
    Fills p [] (params.forM fun (param, i) => storeTo p (.address param.address param.type)
      (.param i (tyOf param.type)) param.type) fun _ => [] :=
  .forM fun _ _ => (fills_storeTo _ _ _).mono (by simp [Ref.register?])

theorem Ready.finish (hr : r.Within p) (h : Ready p r r.stop s) :
    Valid p (s.modifyAt 0 (·.endWith (.branch (labelAt r r.start)))) ∧
      ∀ label, (label, false) ∉ (s.modifyAt 0 (·.endWith (.branch (labelAt r r.start)))).shape := by
  obtain ⟨b, hb, hentry⟩ := h.valid.entry_block
  obtain ⟨hvalid, _⟩ := h.valid.endWith (t := .branch (labelAt r r.start)) hb
    (by simp [Terminator.operands])
    (by simpa [Terminator.targets] using h.mem_labels (labelAt_mem hr _))
  refine ⟨hvalid, fun label hopen => ?_⟩
  rw [shape_endWith] at hopen
  obtain ⟨hopen, hother⟩ := open_of_modify (labels_eq_shape s ▸ h.valid.labels) hopen
  rcases h.opened label hopen with rfl | ⟨j, hj, rfl⟩
  · exact hother (labels_eq_shape s ▸ h.valid.entry)
  · -- there is no block of a quadruple behind the last one
    have hmem : .quad j ∈ s.labels := by
      rw [labels_eq_shape]
      exact List.mem_map_of_mem hopen
    obtain ⟨more, hlabels, hmore⟩ := h.layout
    rw [hlabels] at hmem
    rcases List.mem_append.mp hmem with hmem | hmem
    · have := (quad_mem_start hr).mp hmem
      omega
    · rcases hmore _ hmem with heq | ⟨_, _, heq⟩ <;> cases heq

/-- All blocks of a function that is made have ended. -/
theorem run_body {u : Unit} (hp : ∀ entry ∈ p.functions, entry.2.name = entry.1)
    (hr : r.Within p) (hrun : (body p r).run (start p r) = .ok (u, s)) :
    Valid p s ∧ ∀ label, (label, false) ∉ s.shape := by
  unfold body at hrun
  obtain ⟨state, s₁, hget, hrun⟩ := bind_ok hrun
  obtain ⟨rfl, rfl⟩ : start p r = state ∧ start p r = s₁ := Prod.mk.inj (Except.ok.inj hget)
  obtain ⟨_, s₂, harrays, hrun⟩ := bind_ok hrun
  obtain rfl := run_stackArrays [] harrays
  obtain ⟨_, s₃, hparams, hrun⟩ := bind_ok hrun
  obtain ⟨h₃, hgrown, _⟩ := fills_params _ _ _ _ hparams (valid_withArrays hr) (by simp)
  obtain ⟨_, s₄, hquads, hrun⟩ := bind_ok hrun
  have hlength : r.start + ((p.quads.toList.drop r.start).take (r.stop - r.start)).length =
      r.stop := by
    have := hr.start
    have := hr.stop
    simp only [List.length_take, List.length_drop, Array.length_toList]
    omega
  have h₄ := (ready_start hr h₃ hgrown).quads hp hr (Nat.le_refl _) (Nat.le_of_eq hlength) hquads
  rw [hlength] at h₄
  obtain ⟨state, s₅, hget, hrun⟩ := bind_ok hrun
  obtain ⟨rfl, rfl⟩ : s₄ = state ∧ s₄ = s₅ := Prod.mk.inj (Except.ok.inj hget)
  split at hrun
  · cases hrun
  · obtain rfl : s₄.modifyAt 0 (·.endWith (.branch (labelAt r r.start))) = s :=
      (Prod.mk.inj (Except.ok.inj hrun)).2
    exact h₄.finish hr

end Lowering

end DuckLang.Llvm
