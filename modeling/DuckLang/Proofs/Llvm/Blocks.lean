import DuckLang.Proofs.Llvm.Filling

/-! Blocks from their start to their end.  A quadruple ends the block it fills, and where a division
cuts that block in two, both halves; so one block after the other ends, the entry last of all. -/

namespace DuckLang.Llvm

/-- A block with an end. -/
def Block.endWith (b : Block) (t : Terminator) : Block :=
  { b with terminator := some t }

namespace Lowering

variable {p : Program} {r : Range} {s s' : Lowering} {n k : Nat} {b : Block} {t : Terminator}
  {label : Label} {ref : Ref}

/-! ### Ends and new blocks -/

theorem Valid.endWith (h : Valid p s) (hb : s.blocks[k]? = some b)
    (huses : ∀ ref ∈ t.operands, ∀ x ∈ ref.register?, x ∈ b.registers ∨ Inherits s.blocks b.label x)
    (htargets : ∀ label ∈ t.targets, label ∈ s.labels) :
    Valid p (s.modifyAt k (·.endWith t)) ∧ Grow s.blocks (s.modifyAt k (·.endWith t)).blocks := by
  have hsound := h.blocks b (Array.mem_of_getElem? hb)
  refine h.modifyAt hb rfl (List.append_nil _).symm List.nodup_nil (by simp)
    ⟨hsound.uses, hsound.fits⟩ ?_
  intro t' ht'
  obtain rfl := Option.some.inj ht'
  refine ⟨huses, fun label hlabel => ?_⟩
  simpa [Lowering.labels] using htargets label hlabel

theorem shape_endWith (s : Lowering) (k : Nat) (t : Terminator) :
    (s.modifyAt k (·.endWith t)).shape = s.shape.modify k fun entry => (entry.1, true) := by
  refine List.ext_getElem? fun j => ?_
  simp only [shape, modifyAt, List.getElem?_map, Array.getElem?_toList, Array.getElem?_modify,
    List.getElem?_modify]
  split <;> simp [Function.comp_def, Block.endWith]

theorem modify_snoc {α : Type} (l : List α) (a : α) (f : α → α) :
    (l ++ [a]).modify l.length f = l ++ [f a] := by
  induction l with
  | nil => rfl
  | cons x l ih => simpa using ih

/-- A block that ended is the only one of its label. -/
theorem open_of_modify {l : List (Label × Bool)} (hl : (l.map (·.1)).Nodup)
    (h : (label, false) ∈ l.modify k fun entry => (entry.1, true)) :
    (label, false) ∈ l ∧ (l.map (·.1))[k]? ≠ some label := by
  obtain ⟨j, hj⟩ := List.mem_iff_getElem?.mp h
  rw [List.getElem?_modify] at hj
  by_cases hk : k = j
  · simp [hk] at hj
  · have hj : l[j]? = some (label, false) := by simpa [hk] using hj
    refine ⟨List.mem_of_getElem? hj, fun hlabel => hk ?_⟩
    have hlt := (List.getElem?_eq_some_iff.mp hlabel).1
    exact (List.getElem?_inj hlt hl).mp (by simpa [hj] using hlabel)

theorem Valid.newBlock (h : Valid p s) (hnew : label ∉ s.labels) :
    Valid p { s with blocks := s.blocks.push { label } } := by
  have hgrow := grow_push s.blocks { label }
  have hlabels : ({ s with blocks := s.blocks.push { label } } : Lowering).labels =
      s.labels ++ [label] := by simp [Lowering.labels]
  have hregisters : ({ s with blocks := s.blocks.push { label } } : Lowering).registers =
      s.registers := by simp [Lowering.registers, Block.registers, registersOf]
  constructor
  · rw [hlabels]
    exact List.nodup_append.mpr ⟨h.labels, List.nodup_singleton _, by
      rintro a ha b hb rfl
      exact hnew (List.mem_singleton.mp hb ▸ ha)⟩
  · rw [hlabels, List.getElem?_append_left, h.entry]
    exact (List.getElem?_eq_some_iff.mp h.entry).1
  · exact Nat.lt_of_lt_of_le h.current (by simp)
  · intro b hb
    rcases Array.mem_push.mp hb with hb | rfl
    · exact (h.blocks b hb).mono hgrow
    · exact ⟨by simp, by simp⟩
  · intro b hb t ht
    rcases Array.mem_push.mp hb with hb | rfl
    · exact (h.ends b hb t ht).mono hgrow
    · cases ht
  · rw [hregisters]
    exact h.registers
  · rw [hregisters]
    exact h.fresh
  · exact fun type htype hsize => hgrow.defined (h.locals type htype hsize)
  · exact fun type htype hsize => hgrow.defined (h.temps type htype hsize)
  · exact fun call hcall => (h.calls call hcall).mono hgrow

theorem Valid.moveTo (h : Valid p s) (hk : k < s.blocks.size) : Valid p { s with current := k } :=
  { h with current := hk }

theorem shape_newBlock (s : Lowering) (label : Label) :
    ({ s with blocks := s.blocks.push { label } } : Lowering).shape =
      s.shape ++ [(label, false)] := by
  simp [shape]

theorem length_shape (s : Lowering) : s.shape.length = s.blocks.size := by
  simp [shape]

/-! ### Division by zero -/

/-- There is one block that reports a division by zero. -/
theorem run_reportZero {u : Unit} (h : Valid p s)
    (hzero : .zeroDivisor ∈ s.labels ↔ s.reportsZero = true)
    (hrun : reportZero.run s = .ok (u, s')) :
    Valid p s' ∧ s'.current = s.current ∧ s'.reportsZero = true ∧ Grow s.blocks s'.blocks ∧
      .zeroDivisor ∈ s'.labels ∧ ∃ more, s'.shape = s.shape ++ more ∧
        ∀ entry ∈ more, entry = (.zeroDivisor, true) := by
  unfold reportZero at hrun
  obtain ⟨state, start, hget, hrun⟩ := bind_ok hrun
  obtain ⟨rfl, rfl⟩ : s = state ∧ s = start := Prod.mk.inj (Except.ok.inj hget)
  split at hrun
  · -- the first division makes the block, which ends at once
    rename_i hreports
    have hreports : s.reportsZero = false := by simpa using hreports
    have hnew : .zeroDivisor ∉ s.labels := by simp [hzero, hreports]
    obtain ⟨block, added, hblock, hrun⟩ := bind_ok hrun
    obtain ⟨rfl, rfl⟩ : s.blocks.size = block ∧
        { s with blocks := s.blocks.push { label := .zeroDivisor } } = added :=
      Prod.mk.inj (Except.ok.inj hblock)
    obtain ⟨_, moved, hmove, hrun⟩ := bind_ok hrun
    obtain rfl : { s with
        blocks := s.blocks.push { label := .zeroDivisor }
        reportsZero := true
        current := s.blocks.size } = moved := (Prod.mk.inj (Except.ok.inj hmove)).2
    have hmoved := (h.newBlock hnew).moveTo (k := s.blocks.size) (by simp)
    obtain ⟨text, s₁, htext, hrun⟩ := bind_ok hrun
    obtain ⟨h₁, hgrown₁, htext⟩ := fills_textPointer _ _ _ _ htext { hmoved with } (by simp)
    have hputs : Known p puts := known_declared (by decide)
    have hexit : Known p exitProcess := known_declared (by decide)
    obtain ⟨_, s₂, hprinted, hrun⟩ := bind_ok hrun
    obtain ⟨h₂, hgrown₂, _⟩ := fills_appendCall hputs rfl _ _ _ hprinted h₁ htext
    obtain ⟨_, s₃, hleft, hrun⟩ := bind_ok hrun
    obtain ⟨h₃, hgrown₃, _⟩ := fills_appendCall hexit rfl _ _ _ hleft h₂
      (by simp [Offers, Ref.register?])
    have hgrown := (hgrown₁.trans hgrown₂).trans hgrown₃
    obtain ⟨_, s₄, hend, hrun⟩ := bind_ok hrun
    obtain rfl : s₃.modifyAt s₃.current (·.endWith .unreachable) = s₄ :=
      (Prod.mk.inj (Except.ok.inj hend)).2
    obtain rfl : { s₃.modifyAt s₃.current (·.endWith .unreachable) with
        current := s.current } = s' := (Prod.mk.inj (Except.ok.inj hrun)).2
    obtain ⟨b, hb, _⟩ := h₃.current_block
    obtain ⟨h₄, hgrow⟩ := h₃.endWith (t := .unreachable) hb (by simp [Terminator.operands])
      (by simp [Terminator.targets])
    -- the new block stands last, so its end changes no other
    have hshape₃ : s₃.shape = s.shape ++ [(.zeroDivisor, false)] :=
      hgrown.shape.trans (shape_newBlock s .zeroDivisor)
    have hshape : (s₃.modifyAt s₃.current (·.endWith .unreachable)).shape =
        s.shape ++ [(.zeroDivisor, true)] := by
      have hcurrent : s₃.current = s.shape.length := by rw [hgrown.current, length_shape]
      rw [shape_endWith, hshape₃, hcurrent]
      exact modify_snoc _ _ _
    refine ⟨h₄.moveTo ?_, rfl, hgrown.reportsZero, ?_, ?_, _, hshape, by simp⟩
    · have hsize := congrArg List.length hshape
      rw [length_shape, List.length_append, length_shape] at hsize
      have := h.current
      omega
    · exact ((grow_push s.blocks _).trans hgrown.grow).trans hgrow
    · rw [labels_eq_shape]
      exact List.mem_map.mpr ⟨_, hshape ▸ List.mem_append_right _ List.mem_cons_self, rfl⟩
  · rename_i hreports
    have hreports : s.reportsZero = true := by simpa using hreports
    obtain rfl : s = s' := (Prod.mk.inj (Except.ok.inj hrun)).2
    exact ⟨h, rfl, hreports, .refl _, hzero.mpr hreports, [], by simp, by simp⟩

/-! ### Quadruples -/

/-- A function in the making of which the quadruples before an index have their blocks: behind the
blocks that were there from the start come those that the divisions among them made. -/
structure Laid (p : Program) (r : Range) (n : Nat) (s : Lowering) : Prop where
  valid : Valid p s
  layout : ∃ more, s.labels = (start p r).labels ++ more ∧
    ∀ label ∈ more, label = .zeroDivisor ∨ ∃ j, j < n ∧ label = .quotient j
  zero : .zeroDivisor ∈ s.labels ↔ s.reportsZero = true

/-- All blocks have ended but the entry and those of the quadruples from an index on. -/
structure Ready (p : Program) (r : Range) (n : Nat) (s : Lowering) : Prop extends Laid p r n s where
  opened : ∀ label, (label, false) ∈ s.shape → label = .entry ∨ ∃ j, n ≤ j ∧ label = .quad j

/-- All blocks have ended but the entry, those of the quadruples behind an index and the one being
filled. -/
structure Busy (p : Program) (r : Range) (n : Nat) (s : Lowering) : Prop
    extends Laid p r (n + 1) s where
  opened : ∀ label, (label, false) ∈ s.shape →
    s.label? = some label ∨ label = .entry ∨ ∃ j, n < j ∧ label = .quad j

theorem Laid.mem_labels (h : Laid p r n s) (hlabel : label ∈ (start p r).labels) :
    label ∈ s.labels := by
  obtain ⟨more, hmore, _⟩ := h.layout
  rw [hmore]
  exact List.mem_append_left _ hlabel

theorem Busy.fills {α : Type} {refs : List Ref} {m : Lower α} {a : α} {out : α → List Ref}
    (h : Busy p r n s) (hm : Fills p refs m out) (hrefs : ∀ ref ∈ refs, s.Offers ref)
    (hrun : m.run s = .ok (a, s')) :
    Busy p r n s' ∧ Grown s s' ∧ ∀ ref ∈ out a, s'.Offers ref := by
  obtain ⟨hvalid, hgrown, hout⟩ := hm s a s' hrun h.valid hrefs
  refine ⟨⟨⟨hvalid, ?_, ?_⟩, ?_⟩, hgrown, hout⟩
  · rw [hgrown.labels]
    exact h.layout
  · rw [hgrown.labels, hgrown.reportsZero]
    exact h.zero
  · rw [hgrown.shape, hgrown.label?]
    exact h.opened

theorem Busy.endWith (h : Busy p r n s) (huses : ∀ ref ∈ t.operands, s.Offers ref)
    (htargets : ∀ label ∈ t.targets, label ∈ (start p r).labels) :
    Busy p r n (s.modifyAt s.current (·.endWith t)) := by
  obtain ⟨b, hb, _⟩ := h.valid.current_block
  obtain ⟨hvalid, _⟩ := h.valid.endWith hb
    (fun ref href x hx => h.valid.inScope hb (huses ref href x hx))
    (fun label hlabel => h.mem_labels (htargets label hlabel))
  have hlabels : (s.modifyAt s.current (·.endWith t)).labels = s.labels := map_modify hb rfl
  refine ⟨⟨hvalid, ?_, ?_⟩, ?_⟩
  · rw [hlabels]
    exact h.layout
  · rw [hlabels]
    exact h.zero
  · intro label hlabel
    rw [shape_endWith] at hlabel
    obtain ⟨hopen, hother⟩ := open_of_modify (labels_eq_shape s ▸ h.valid.labels) hlabel
    rw [← labels_eq_shape, ← label?_eq_labels] at hother
    exact .inr ((h.opened label hopen).resolve_left hother)

theorem isTerminated_endWith (h : Valid p s) :
    isTerminated (s.modifyAt s.current (·.endWith t)) = true := by
  obtain ⟨b, hb, _⟩ := h.current_block
  simp [isTerminated, modifyAt, Array.getElem?_modify, hb, Block.endWith]

/-- Once the block being filled has ended, the next quadruple can be made. -/
theorem Busy.ready (h : Busy p r n s) (hended : s.isTerminated = true) : Ready p r (n + 1) s := by
  refine ⟨h.toLaid, fun label hlabel => (h.opened label hlabel).resolve_left fun hcurrent => ?_⟩
  obtain ⟨b, hb, hb'⟩ := h.valid.current_block
  obtain ⟨b', hmem, heq⟩ := List.mem_map.mp hlabel
  obtain ⟨rfl, hopen⟩ := Prod.mk.inj heq
  obtain rfl : b' = b := h.valid.eq_of_label (Array.mem_toList_iff.mp hmem)
    (Array.mem_of_getElem? hb) (Option.some.inj (hcurrent.symm.trans hb'))
  simp [isTerminated, hb, hopen] at hended

/-- What the block of a division may use, its rest may use as well. -/
theorem offers_rest (h : s.Offers ref) (hlabel : s.label? = some (.quad n))
    (hgrow : Grow s.blocks s'.blocks) (hrest : s'.label? = some (.quotient n)) : s'.Offers ref := by
  intro x hx
  obtain ⟨label, hlabel', hx⟩ := h x hx
  obtain rfl : .quad n = label := Option.some.inj (hlabel.symm.trans hlabel')
  refine ⟨_, hrest, .inr ?_⟩
  rcases hx with hdefined | hinherits
  · exact .quotient (hgrow.defined hdefined)
  · cases hinherits with
    | entry _ hdefined => exact .entry (by simp) (hgrow.defined hdefined)

/-- Behind the blocks that were there come the rest of a division and, if there was none, the block
that reports a division by zero. -/
structure Widened (n : Nat) (s s' : Lowering) : Prop where
  current : s'.current = s.current
  reportsZero : s'.reportsZero = true
  zero : .zeroDivisor ∈ s'.labels
  grow : Grow s.blocks s'.blocks
  shape : ∃ more, s'.shape = s.shape ++ (.quotient n, false) :: more ∧
    ∀ entry ∈ more, entry = (.zeroDivisor, true)

theorem Widened.labels (h : Widened n s s') : ∃ more,
    s'.labels = s.labels ++ .quotient n :: more ∧ ∀ label ∈ more, label = .zeroDivisor := by
  obtain ⟨more, hshape, hmore⟩ := h.shape
  refine ⟨more.map (·.1), by simp [labels_eq_shape, hshape], fun label hlabel => ?_⟩
  obtain ⟨entry, hentry, rfl⟩ := List.mem_map.mp hlabel
  rw [hmore entry hentry]

theorem Widened.label? (h : Widened n s s') (hlabel : s.label? = some label) :
    s'.label? = some label := by
  obtain ⟨more, hlabels, _⟩ := h.labels
  rw [label?_eq_labels] at hlabel ⊢
  rw [h.current, hlabels, List.getElem?_append_left (List.getElem?_eq_some_iff.mp hlabel).1, hlabel]

theorem Widened.offers (h : Widened n s s') (href : s.Offers ref) : s'.Offers ref := by
  intro x hx
  obtain ⟨label, hlabel, hx⟩ := href x hx
  exact ⟨label, h.label? hlabel, hx.imp h.grow.defined (·.mono h.grow)⟩

/-- The end of a block in which a division is checked. -/
def zeroCheck (n : Nat) (condition : Ref) : Terminator :=
  .conditional condition .zeroDivisor (.quotient n)

/-- The block of a division ends with the check, and its rest is filled. -/
theorem Busy.cut {condition : Ref} (h : Busy p r n s) (hlabel : s.label? = some (.quad n))
    (hvalid : Valid p s') (hwidened : Widened n s s') (hcondition : s.Offers condition) :
    Busy p r n { s'.modifyAt s'.current (·.endWith (zeroCheck n condition)) with
        current := s.blocks.size } ∧
      ∀ ref, s.Offers ref → Offers { s'.modifyAt s'.current (·.endWith (zeroCheck n condition)) with
        current := s.blocks.size } ref := by
  obtain ⟨more, hlabels, hmore⟩ := hwidened.labels
  obtain ⟨b, hb, _⟩ := hvalid.current_block
  obtain ⟨hended, hgrow⟩ := hvalid.endWith (t := zeroCheck n condition) hb
    (by simpa [zeroCheck, Terminator.operands] using fun x hx =>
      hvalid.inScope hb (hwidened.offers hcondition x hx))
    (by
      have hquotient : .quotient n ∈ s'.labels := by simp [hlabels]
      simp [zeroCheck, Terminator.targets, hwidened.zero, hquotient])
  have hsame : (s'.modifyAt s'.current (·.endWith (zeroCheck n condition))).labels = s'.labels :=
    map_modify hb rfl
  have hshape := shape_endWith s' s'.current (zeroCheck n condition)
  have hreports : (s'.modifyAt s'.current (·.endWith (zeroCheck n condition))).reportsZero = true :=
    hwidened.reportsZero
  -- from here on only the labels of the blocks matter and which of them have ended
  generalize s'.modifyAt s'.current (·.endWith (zeroCheck n condition)) = ended at *
  have hsize : s.blocks.size = s.labels.length := by simp [Lowering.labels]
  have hrest : ({ ended with current := s.blocks.size } : Lowering).label? =
      some (.quotient n) := by
    rw [label?_eq_labels]
    show ended.labels[s.blocks.size]? = _
    simp [hsame, hlabels, hsize]
  refine ⟨⟨⟨hended.moveTo ?_, ?_, ?_⟩, ?_⟩, fun ref href => ?_⟩
  · have hlength := congrArg List.length (hsame.trans hlabels)
    simp only [Lowering.labels, List.length_append, List.length_map, Array.length_toList,
      List.length_cons] at hlength
    omega
  · obtain ⟨before, hbefore, hall⟩ := h.layout
    refine ⟨before ++ .quotient n :: more, ?_, fun label hlabel => ?_⟩
    · show ended.labels = _
      rw [hsame, hlabels, hbefore, List.append_assoc]
    · rcases List.mem_append.mp hlabel with hlabel | hlabel
      · exact hall label hlabel
      · rcases List.mem_cons.mp hlabel with rfl | hlabel
        · exact .inr ⟨n, Nat.lt_succ_self n, rfl⟩
        · exact .inl (hmore label hlabel)
  · have hzero : .zeroDivisor ∈ ended.labels := hsame ▸ hwidened.zero
    exact iff_of_true hzero hreports
  · intro label hopen
    have hopen : (label, false) ∈ ended.shape := hopen
    rw [hshape] at hopen
    obtain ⟨hopen, hother⟩ := open_of_modify (labels_eq_shape s' ▸ hvalid.labels) hopen
    rw [← labels_eq_shape, ← label?_eq_labels, hwidened.label? hlabel] at hother
    obtain ⟨added, hadded, hall⟩ := hwidened.shape
    rw [hadded] at hopen
    -- of the blocks that are still open, only the rest of the division is new
    rcases List.mem_append.mp hopen with hopen | hopen
    · exact .inr ((h.opened label hopen).resolve_left (hlabel ▸ hother))
    · rcases List.mem_cons.mp hopen with heq | hopen
      · obtain ⟨rfl, _⟩ := Prod.mk.inj heq
        exact .inl hrest
      · cases hall _ hopen
  · exact offers_rest href hlabel (hwidened.grow.trans hgrow) hrest

/-- A division goes on in a block of its own, in which everything is there that was before it. -/
theorem Busy.checkDivisor {u : Unit} {type : DataType} (h : Busy p r n s)
    (hlabel : s.label? = some (.quad n)) (hnew : .quotient n ∉ s.labels) (hoffers : s.Offers ref)
    (hrun : (checkDivisor n ref type).run s = .ok (u, s')) :
    Busy p r n s' ∧ ∀ ref, s.Offers ref → s'.Offers ref := by
  unfold Lowering.checkDivisor at hrun
  obtain ⟨isZero, s₁, hcompare, hrun⟩ := bind_ok hrun
  obtain ⟨h₁, hgrown, hisZero⟩ :=
    h.fills (fills_compareZero _ _ _) (by simpa using hoffers) hcompare
  obtain ⟨rest, s₂, hblock, hrun⟩ := bind_ok hrun
  obtain ⟨rfl, rfl⟩ : s₁.blocks.size = rest ∧
      { s₁ with blocks := s₁.blocks.push { label := .quotient n } } = s₂ :=
    Prod.mk.inj (Except.ok.inj hblock)
  have h₂ := h₁.valid.newBlock (hgrown.labels ▸ hnew)
  obtain ⟨_, s₃, hreport, hrun⟩ := bind_ok hrun
  obtain ⟨h₃, hcurrent, hreports, hgrow, hzero, more, hshape, hmore⟩ :=
    run_reportZero h₂ (by simpa [Lowering.labels] using h₁.zero) hreport
  have hwidened : Widened n s₁ s₃ :=
    { current := hcurrent
      reportsZero := hreports
      zero := hzero
      grow := (grow_push _ _).trans hgrow
      shape := ⟨more, by rw [hshape, shape_newBlock]; simp, hmore⟩ }
  obtain ⟨_, s₄, hend, hrun⟩ := bind_ok hrun
  obtain rfl : s₃.modifyAt s₃.current (·.endWith (zeroCheck n isZero)) = s₄ :=
    (Prod.mk.inj (Except.ok.inj hend)).2
  obtain rfl : { s₃.modifyAt s₃.current (·.endWith (zeroCheck n isZero)) with
      current := s₁.blocks.size } = s' := (Prod.mk.inj (Except.ok.inj hrun)).2
  obtain ⟨hbusy, hkept⟩ :=
    h₁.cut (hgrown.label?.trans hlabel) h₃ hwidened (hisZero isZero List.mem_cons_self)
  exact ⟨hbusy, fun ref href => hkept ref (hgrown.offers href)⟩

end Lowering

end DuckLang.Llvm
