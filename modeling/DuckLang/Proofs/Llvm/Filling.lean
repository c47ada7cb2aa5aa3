import DuckLang.Proofs.Llvm.Structure
import DuckLang.Proofs.Machine.Typing
import Mathlib.Data.List.Nodup
import Mathlib.Data.List.Perm.Basic

/-! Filling a block.  What the steps of making a function have in common: whatever was there before
them still is, and every block is sound.  Most steps only append to the block being filled. -/

namespace DuckLang.Llvm

/-- The functions that the quadruples of a program call. -/
def Known (p : Program) (callee : Callee) : Prop :=
  callee ∈ declarations.map (·.callee) ∨
    ∃ f ∈ p.functions.map (·.2), f.name ≠ mainName ∧ callee = calleeOf f

/-- A call that is being staged, with a slot of the entry for each of its parameters. -/
structure StagedCall.Sound (p : Program) (blocks : Array Block) (call : StagedCall) : Prop where
  listed : call.function ∈ p.functions.map (·.2)
  other : call.function.name ≠ mainName
  length : call.slots.length = call.function.params.length
  slots : ∀ ref ∈ call.slots, ∀ x ∈ ref.register?, Defined blocks .entry x

theorem StagedCall.Sound.mono {p : Program} {blocks blocks' : Array Block} {call : StagedCall}
    (h : call.Sound p blocks) (hgrow : Grow blocks blocks') : call.Sound p blocks' where
  listed := h.listed
  other := h.other
  length := h.length
  slots ref href x hx := hgrow.defined (h.slots ref href x hx)

namespace Lowering

/-! ### Functions in the making -/

/-- The labels of the blocks. -/
def labels (s : Lowering) : List Label :=
  s.blocks.toList.map (·.label)

/-- The registers of all blocks. -/
def registers (s : Lowering) : List Register :=
  s.blocks.toList.flatMap Block.registers

/-- The label of the block being filled. -/
def label? (s : Lowering) : Option Label :=
  s.blocks[s.current]?.map (·.label)

/-- The stack arrays of a segment, those that are empty apart, are made in the entry. -/
def Slotted (blocks : Array Block) (segment : String) (sizes : Counts) : Prop :=
  ∀ type ∈ DataType.storable, sizes.get type ≠ 0 →
    Defined blocks .entry (.named (stackName segment type))

/-- A function in the making, as every step finds it and leaves it. -/
structure Valid (p : Program) (s : Lowering) : Prop where
  labels : s.labels.Nodup
  entry : s.labels[0]? = some .entry
  current : s.current < s.blocks.size
  blocks : ∀ b ∈ s.blocks, b.Sound (Known p) Callee.arity s.blocks
  ends : ∀ b ∈ s.blocks, ∀ t ∈ b.terminator, t.Sound s.blocks b
  registers : s.registers.Nodup
  fresh : ∀ id, .numbered id ∈ s.registers → id < s.nextId
  locals : Slotted s.blocks "local" s.locals
  temps : Slotted s.blocks "temp" s.temps
  calls : ∀ call ∈ s.calls, call.Sound p s.blocks

variable {p : Program} {s s' s'' : Lowering} {k : Nat} {b : Block} {x : Register} {i : Instruction}

theorem Valid.eq_of_label (h : Valid p s) {a b : Block} (ha : a ∈ s.blocks) (hb : b ∈ s.blocks)
    (hlabel : a.label = b.label) : a = b :=
  List.inj_on_of_nodup_map h.labels (Array.mem_toList_iff.mpr ha) (Array.mem_toList_iff.mpr hb)
    hlabel

theorem Valid.current_block (h : Valid p s) :
    ∃ b, s.blocks[s.current]? = some b ∧ s.label? = some b.label := by
  have hb := Array.getElem?_eq_getElem h.current
  exact ⟨_, hb, by rw [label?, hb]; rfl⟩

/-! ### Changes of a block -/

/-- A function in the making with one of its blocks changed. -/
def modifyAt (s : Lowering) (k : Nat) (f : Block → Block) : Lowering :=
  { s with blocks := s.blocks.modify k f }

theorem map_modify {α : Type} {f : Block → Block} {g : Block → α} (hb : s.blocks[k]? = some b)
    (hg : g (f b) = g b) : (s.modifyAt k f).blocks.toList.map g = s.blocks.toList.map g := by
  refine List.ext_getElem? fun j => ?_
  simp only [modifyAt, List.getElem?_map, Array.getElem?_toList, Array.getElem?_modify]
  split
  · rename_i hj
    rw [← hj, hb]
    simp [hg]
  · rfl

theorem flatMap_modify {α β : Type} {l : List α} {k : Nat} {a : α} (h : l[k]? = some a) {f : α → α}
    {g : α → List β} {extra : List β} (hextra : g (f a) = g a ++ extra) :
    ((l.modify k f).flatMap g).Perm (extra ++ l.flatMap g) := by
  induction l generalizing k with
  | nil => cases h
  | cons head l ih =>
    cases k with
    | zero =>
      obtain rfl : head = a := by simpa using h
      simp only [List.modify_zero_cons, List.flatMap_cons, hextra]
      rw [← List.append_assoc]
      exact List.perm_append_comm.append_right _
    | succ k =>
      have hrest := ih (by simpa using h)
      simp only [List.modify_succ_cons, List.flatMap_cons]
      refine (hrest.append_left (g head)).trans ?_
      rw [← List.append_assoc, ← List.append_assoc]
      exact List.perm_append_comm.append_right _

/-- A block may be changed to one that is sound and has the registers it had, and fresh ones. -/
theorem Valid.modifyAt {f : Block → Block} {extra : List Register} (h : Valid p s)
    (hb : s.blocks[k]? = some b) (hlabel : (f b).label = b.label)
    (hregisters : (f b).registers = b.registers ++ extra) (hextra : extra.Nodup)
    (hfresh : ∀ x ∈ extra, x ∉ s.registers ∧ ∀ id, x = .numbered id → id < s.nextId)
    (hsound : (f b).Sound (Known p) Callee.arity s.blocks)
    (hends : ∀ t ∈ (f b).terminator, t.Sound s.blocks (f b)) :
    Valid p (s.modifyAt k f) ∧ Grow s.blocks (s.modifyAt k f).blocks := by
  have hgrow : Grow s.blocks (s.modifyAt k f).blocks := by
    refine grow_modify fun old hold => ?_
    obtain rfl := Option.some.inj (hb.symm.trans hold)
    exact ⟨hlabel, by simp [hregisters]⟩
  have hlabels : (s.modifyAt k f).labels = s.labels := map_modify hb hlabel
  have hperm : (s.modifyAt k f).registers.Perm (extra ++ s.registers) := by
    have hb : s.blocks.toList[k]? = some b := by simpa using hb
    simpa [Lowering.registers, Lowering.modifyAt] using flatMap_modify hb hregisters
  refine ⟨?_, hgrow⟩
  constructor
  · rw [hlabels]
    exact h.labels
  · rw [hlabels]
    exact h.entry
  · simpa [Lowering.modifyAt] using h.current
  · intro b' hb'
    rcases mem_of_mem_modify hb' with hold | ⟨old, hold, rfl⟩
    · exact (h.blocks b' hold).mono hgrow
    · obtain rfl := Option.some.inj (hb.symm.trans hold)
      exact hsound.mono hgrow
  · intro b' hb' t ht
    rcases mem_of_mem_modify hb' with hold | ⟨old, hold, rfl⟩
    · exact (h.ends b' hold t ht).mono hgrow
    · obtain rfl := Option.some.inj (hb.symm.trans hold)
      exact (hends t ht).mono hgrow
  · refine hperm.nodup_iff.mpr (List.nodup_append.mpr ⟨hextra, h.registers, ?_⟩)
    rintro x hx y hy rfl
    exact (hfresh x hx).1 hy
  · intro id hid
    rcases List.mem_append.mp (hperm.mem_iff.mp hid) with hnew | hold
    · exact (hfresh _ hnew).2 id rfl
    · exact h.fresh id hold
  · exact fun type htype hsize => hgrow.defined (h.locals type htype hsize)
  · exact fun type htype hsize => hgrow.defined (h.temps type htype hsize)
  · exact fun call hcall => (h.calls call hcall).mono hgrow

theorem Valid.push (h : Valid p s) (hb : s.blocks[k]? = some b)
    (huses : ∀ ref ∈ i.operands, ∀ x ∈ ref.register?, x ∈ b.registers ∨ Inherits s.blocks b.label x)
    (hfits : i.Fits (Known p) Callee.arity)
    (hfresh : ∀ x ∈ i.register?, x ∉ s.registers ∧ ∀ id, x = .numbered id → id < s.nextId) :
    Valid p (s.modifyAt k (·.push i)) ∧ Grow s.blocks (s.modifyAt k (·.push i)).blocks := by
  have hmem := Array.mem_of_getElem? hb
  refine h.modifyAt hb rfl (b.registers_push i) ?_ ?_ ((h.blocks b hmem).push huses hfits) ?_
  · cases i.register? <;> simp
  · simpa using hfresh
  · -- what an end of the block would work on is still before it
    intro t ht
    have hold := h.ends b hmem t ht
    refine ⟨fun ref href x hx => ?_, hold.targets⟩
    exact (hold.uses ref href x hx).imp_left fun hx => by simp [Block.registers_push, hx]

/-! ### Scopes -/

/-- A register that may be used at the end of the block being filled. -/
def InScope (s : Lowering) (x : Register) : Prop :=
  ∃ label, s.label? = some label ∧ (Defined s.blocks label x ∨ Inherits s.blocks label x)

/-- What an instruction at the end of the block being filled may work on. -/
def Offers (s : Lowering) (ref : Ref) : Prop :=
  ∀ x ∈ ref.register?, s.InScope x

theorem offers_of_none {ref : Ref} (h : ref.register? = none) : s.Offers ref := by
  intro x hx
  rw [h] at hx
  cases hx

theorem Valid.inScope_of_entry (h : Valid p s) (hx : Defined s.blocks .entry x) : s.InScope x := by
  obtain ⟨b, _, hlabel⟩ := h.current_block
  refine ⟨b.label, hlabel, ?_⟩
  by_cases hentry : b.label = .entry
  · exact .inl (hentry ▸ hx)
  · exact .inr (.entry hentry hx)

theorem Valid.inScope (h : Valid p s) (hb : s.blocks[s.current]? = some b) (hx : s.InScope x) :
    x ∈ b.registers ∨ Inherits s.blocks b.label x := by
  obtain ⟨label, hlabel, hx⟩ := hx
  obtain rfl : b.label = label := by simpa [label?, hb] using hlabel
  refine hx.imp_left ?_
  rintro ⟨b', hb', hlabel', hx'⟩
  obtain rfl := h.eq_of_label hb' (Array.mem_of_getElem? hb) hlabel'
  exact hx'

/-- The labels of the blocks, and whether each block has ended. -/
def shape (s : Lowering) : List (Label × Bool) :=
  s.blocks.toList.map fun b => (b.label, b.terminator.isSome)

theorem labels_eq_shape (s : Lowering) : s.labels = s.shape.map (·.1) := by
  simp [labels, shape]

theorem label?_eq_labels (s : Lowering) : s.label? = s.labels[s.current]? := by
  simp [label?, labels]

/-- A step after which there are the same blocks, each with what it had, and the same one of them
is being filled. -/
structure Grown (s s' : Lowering) : Prop where
  shape : s'.shape = s.shape
  current : s'.current = s.current
  reportsZero : s'.reportsZero = s.reportsZero
  grow : Grow s.blocks s'.blocks

theorem Grown.refl (s : Lowering) : Grown s s :=
  ⟨rfl, rfl, rfl, .refl _⟩

theorem Grown.trans (h : Grown s s') (h' : Grown s' s'') : Grown s s'' where
  shape := h'.shape.trans h.shape
  current := h'.current.trans h.current
  reportsZero := h'.reportsZero.trans h.reportsZero
  grow := h.grow.trans h'.grow

theorem Grown.labels (h : Grown s s') : s'.labels = s.labels := by
  rw [labels_eq_shape, labels_eq_shape, h.shape]

theorem Grown.label? (h : Grown s s') : s'.label? = s.label? := by
  rw [label?_eq_labels, label?_eq_labels, h.labels, h.current]

theorem Grown.inScope (h : Grown s s') (hx : s.InScope x) : s'.InScope x := by
  obtain ⟨label, hlabel, hx⟩ := hx
  exact ⟨label, h.label?.trans hlabel, hx.imp h.grow.defined (·.mono h.grow)⟩

theorem Grown.offers (h : Grown s s') {ref : Ref} (href : s.Offers ref) : s'.Offers ref :=
  fun x hx => h.inScope (href x hx)

/-! ### Steps that fill a block -/

variable {α β γ : Type} {refs refs' : List Ref} {m : Lower α} {f : α → Lower β} {out : α → List Ref}
  {out' : β → List Ref}

theorem bind_ok {r : β} (h : (m >>= f).run s = .ok (r, s')) :
    ∃ a mid, m.run s = .ok (a, mid) ∧ (f a).run mid = .ok (r, s') := by
  rw [StateT.run_bind] at h
  cases hm : m.run s with
  | error e =>
    rw [hm] at h
    cases h
  | ok result =>
    rw [hm] at h
    exact ⟨result.1, result.2, rfl, h⟩

/-- A step that fills a block: it needs some things to work on and makes others. -/
def Fills (p : Program) (refs : List Ref) (m : Lower α) (out : α → List Ref) : Prop :=
  ∀ s a s', m.run s = .ok (a, s') → Valid p s → (∀ ref ∈ refs, s.Offers ref) →
    Valid p s' ∧ Grown s s' ∧ ∀ ref ∈ out a, s'.Offers ref

theorem Fills.bind_of {P : α → Prop} (h : Fills p refs m out)
    (hP : ∀ {s a s'}, m.run s = .ok (a, s') → P a)
    (hf : ∀ a, P a → Fills p (out a ++ refs) (f a) out') : Fills p refs (m >>= f) out' := by
  intro s r s' hrun hvalid hrefs
  obtain ⟨a, mid, hm, hrest⟩ := bind_ok hrun
  obtain ⟨hmid, hgrown, hout⟩ := h s a mid hm hvalid hrefs
  obtain ⟨hs', hgrown', hout'⟩ := hf a (hP hm) mid r s' hrest hmid fun ref href =>
    (List.mem_append.mp href).elim (hout ref) fun href => hgrown.offers (hrefs ref href)
  exact ⟨hs', hgrown.trans hgrown', hout'⟩

theorem Fills.bind (h : Fills p refs m out) (hf : ∀ a, Fills p (out a ++ refs) (f a) out') :
    Fills p refs (m >>= f) out' :=
  h.bind_of (P := fun _ => True) (fun _ => trivial) fun a _ => hf a

/-- What is there need not be used, and what is no register need not be there. -/
theorem Fills.mono (h : Fills p refs' m out)
    (hrefs : ∀ ref ∈ refs', ref ∈ refs ∨ ref.register? = none) : Fills p refs m out := by
  intro s a s' hrun hvalid hoffers
  refine h s a s' hrun hvalid fun ref href => ?_
  rcases hrefs ref href with hmem | hnone
  · exact hoffers ref hmem
  · exact offers_of_none hnone

theorem Fills.pure {a : α} (h : ∀ ref ∈ out a, ref ∈ refs ∨ ref.register? = none) :
    Fills p refs (pure a : Lower α) out := by
  intro s a' s' hrun hvalid hoffers
  obtain ⟨rfl, rfl⟩ : a = a' ∧ s = s' := Prod.mk.inj (Except.ok.inj hrun)
  refine ⟨hvalid, .refl s, fun ref href => ?_⟩
  rcases h ref href with hmem | hnone
  · exact hoffers ref hmem
  · exact offers_of_none hnone

theorem fills_fail (cause : Problem.Cause) : Fills p refs (fail cause : Lower α) out := by
  intro s a s' hrun
  cases hrun

/-- A step that looks at the function in the making may use what is offered there. -/
theorem Fills.get_bind {f : Lowering → Lower β}
    (h : ∀ s, Valid p s → (∀ ref ∈ refs, s.Offers ref) →
      ∃ refs', (∀ ref ∈ refs', s.Offers ref) ∧ Fills p refs' (f s) out') :
    Fills p refs (get >>= f) out' := by
  intro s r s' hrun hvalid hoffers
  obtain ⟨refs', hrefs', hf⟩ := h s hvalid hoffers
  exact hf s r s' hrun hvalid hrefs'

theorem length_mapM {g : γ → Lower α} {l : List γ} {results : List α}
    (h : (l.mapM g).run s = .ok (results, s')) : results.length = l.length := by
  induction l generalizing s s' results with
  | nil =>
    obtain rfl : [] = results := (Prod.mk.inj (Except.ok.inj h)).1
    rfl
  | cons x l ih =>
    rw [List.mapM_cons] at h
    obtain ⟨a, mid, _, hrest⟩ := bind_ok h
    obtain ⟨rest, last, hl, hpure⟩ := bind_ok hrest
    obtain rfl : a :: rest = results := (Prod.mk.inj (Except.ok.inj hpure)).1
    simp [ih hl]

theorem Fills.mapM {g : γ → Lower Ref} {l : List γ}
    (h : ∀ x ∈ l, Fills p refs (g x) fun ref => [ref]) : Fills p refs (l.mapM g) id := by
  induction l with
  | nil => exact .pure (by simp)
  | cons x l ih =>
    obtain ⟨hfirst, hrest⟩ := List.forall_mem_cons.mp h
    rw [List.mapM_cons]
    refine hfirst.bind fun ref => ((ih hrest).mono (by simp +contextual)).bind fun rest => .pure ?_
    simp +contextual [or_imp]

theorem Fills.forM {g : γ → Lower PUnit} {l : List γ}
    (h : ∀ x ∈ l, Fills p refs (g x) fun _ => []) : Fills p refs (l.forM g) fun _ => [] := by
  induction l with
  | nil => exact .pure (by simp)
  | cons x l ih =>
    obtain ⟨hfirst, hrest⟩ := List.forall_mem_cons.mp h
    exact hfirst.bind fun _ => ih hrest

/-! ### Instructions -/

theorem shape_push (hb : s.blocks[k]? = some b) :
    (s.modifyAt k (·.push i)).shape = s.shape :=
  map_modify hb rfl

theorem fills_append (hregister : i.register? = none) (hfits : i.Fits (Known p) Callee.arity) :
    Fills p i.operands (append i) fun _ => [] := by
  intro s a s' hrun hvalid hoffers
  obtain rfl : s.modifyAt s.current (·.push i) = s' := (Prod.mk.inj (Except.ok.inj hrun)).2
  obtain ⟨b, hb, _⟩ := hvalid.current_block
  obtain ⟨hs', hgrow⟩ := hvalid.push hb
    (fun ref href x hx => hvalid.inScope hb (hoffers ref href x hx)) hfits (by simp [hregister])
  exact ⟨hs', ⟨shape_push hb, rfl, rfl, hgrow⟩, by simp⟩

/-- A function in the making with an instruction more that gives a new result. -/
def pushResult (s : Lowering) (k : Nat) (make : Nat → Instruction) : Lowering :=
  { s with nextId := s.nextId + 1 }.modifyAt k (·.push (make s.nextId))

theorem Valid.pushResult {make : Nat → Instruction} (h : Valid p s) (hb : s.blocks[k]? = some b)
    (hregister : ∀ id, (make id).register? = some (.numbered id))
    (huses : ∀ ref ∈ (make s.nextId).operands, ∀ x ∈ ref.register?,
      x ∈ b.registers ∨ Inherits s.blocks b.label x)
    (hfits : ∀ id, (make id).Fits (Known p) Callee.arity) :
    Valid p (s.pushResult k make) ∧ Grown s (s.pushResult k make) ∧
      Defined (s.pushResult k make).blocks b.label (.numbered s.nextId) := by
  have hnext : Valid p { s with nextId := s.nextId + 1 } :=
    { h with fresh := fun id hid => Nat.lt_succ_of_lt (h.fresh id hid) }
  -- the next number is above all that were given, so no other register has it
  have hnew : ∀ x ∈ (make s.nextId).register?,
      x ∉ s.registers ∧ ∀ id, x = .numbered id → id < s.nextId + 1 := by
    intro x hx
    rw [hregister] at hx
    obtain rfl := Option.some.inj hx
    refine ⟨fun hmem => Nat.lt_irrefl _ (h.fresh _ hmem), ?_⟩
    rintro id hid
    obtain rfl := Register.numbered.inj hid
    exact Nat.lt_succ_self _
  obtain ⟨hs', hgrow⟩ := hnext.push hb huses (hfits _) hnew
  refine ⟨hs', ⟨shape_push hb, rfl, rfl, hgrow⟩, b.push (make s.nextId), ?_, rfl, ?_⟩
  · refine Array.mem_of_getElem? (i := k) ?_
    simp [Lowering.pushResult, Lowering.modifyAt, Array.getElem?_modify, hb]
  · simp [Block.registers_push, hregister]

theorem fills_appendResult {type : Ty} {make : Nat → Instruction}
    (hregister : ∀ id, (make id).register? = some (.numbered id))
    (hoperands : ∀ id, (make id).operands = refs)
    (hfits : ∀ id, (make id).Fits (Known p) Callee.arity) :
    Fills p refs (appendResult type make) fun ref => [ref] := by
  intro s a s' hrun hvalid hoffers
  obtain ⟨rfl, rfl⟩ : .result s.nextId type = a ∧ s.pushResult s.current make = s' :=
    Prod.mk.inj (Except.ok.inj hrun)
  obtain ⟨b, hb, hlabel⟩ := hvalid.current_block
  obtain ⟨hs', hgrown, hdefined⟩ := hvalid.pushResult hb hregister
    (fun ref href x hx => hvalid.inScope hb (hoffers ref (hoperands _ ▸ href) x hx)) hfits
  refine ⟨hs', hgrown, ?_⟩
  intro ref href
  obtain rfl := List.mem_singleton.mp href
  intro x hx
  obtain rfl := Option.some.inj hx
  exact ⟨b.label, hgrown.label?.trans hlabel, .inl hdefined⟩

theorem fills_appendCall {callee : Callee} {arguments : List Ref} (hknown : Known p callee)
    (hlength : arguments.length = callee.arity) :
    Fills p arguments (appendCall callee arguments) fun ref => [ref] := by
  unfold appendCall
  split
  · refine Fills.bind (fills_append rfl ⟨hknown, hlength⟩) fun _ => .pure ?_
    simp [Ref.register?]
  · exact fills_appendResult (fun _ => rfl) (fun _ => rfl) fun _ => ⟨hknown, hlength⟩

theorem fills_elementOf (array element : Ty) (pointer : Ref) (offset : Nat) :
    Fills p [pointer] (elementOf array element pointer offset) fun ref => [ref] :=
  fills_appendResult (fun _ => rfl) (fun _ => rfl) fun _ => trivial

theorem fills_textPointer (t : GlobalText) : Fills p [] (textPointer t) fun ref => [ref] :=
  (fills_elementOf _ _ _ _).mono (by simp [Ref.register?])

theorem fills_convert (value : Ref) (source target : DataType) :
    Fills p [value] (convert value source target) fun ref => [ref] := by
  have hcast (op : CastOp) (type : Ty) :
      Fills p [value] (appendResult type fun id => .cast id op value type) fun ref => [ref] :=
    fills_appendResult (fun _ => rfl) (fun _ => rfl) fun _ => trivial
  unfold convert
  split
  · exact .pure (by simp)
  · dsimp only
    split
    · exact hcast _ _
    · exact hcast _ _
    · exact hcast _ _
    · exact .pure (by simp)

/-! ### Operands -/

theorem Valid.offers_slot (h : Valid p s) {segment : String} {sizes : Counts}
    (hslots : Slotted s.blocks segment sizes) {type : DataType} (htype : type.isStorable = true)
    (hsize : sizes.get type ≠ 0) (pointer : Ty) :
    s.Offers (.slot (stackName segment type) pointer) := by
  intro x hx
  obtain rfl := Option.some.inj hx
  have hlisted : type ∈ DataType.storable := by
    revert htype
    cases type <;> decide
  exact h.inScope_of_entry (hslots type hlisted hsize)

theorem fills_slotPointer (address : Int) :
    Fills p [] (slotPointer p address) fun r => [r.1] := by
  unfold slotPointer
  split
  · exact fills_fail _
  · rename_i segment type offset hplace
    have htype := Address.place?_storable hplace
    refine .get_bind fun s hvalid _ => ?_
    -- a slot with a place in it is not empty, so it was made
    cases segment with
    | constants => exact ⟨[], by simp, fills_fail _⟩
    | globals =>
      refine ⟨[], by simp, ?_⟩
      simp only [pure_bind]
      split
      · exact fills_fail _
      · refine Fills.bind ((fills_elementOf _ _ _ _).mono ?_) fun _ => .pure (by simp)
        simp [Ref.register?]
    | locals =>
      simp only [pure_bind]
      split
      · exact ⟨[], by simp, fills_fail _⟩
      · have hsize : s.locals.get type ≠ 0 := by omega
        refine ⟨_, ?_, Fills.bind (fills_elementOf _ _ _ _) fun _ => .pure (by simp)⟩
        simpa using hvalid.offers_slot hvalid.locals htype hsize _
    | temporaries =>
      simp only [pure_bind]
      split
      · exact ⟨[], by simp, fills_fail _⟩
      · have hsize : s.temps.get type ≠ 0 := by omega
        refine ⟨_, ?_, Fills.bind (fills_elementOf _ _ _ _) fun _ => .pure (by simp)⟩
        simpa using hvalid.offers_slot hvalid.temps htype hsize _

theorem register?_constantOf (v : Value) : (constantOf v).register? = none := by
  cases v <;> rfl

theorem register?_zeroOf (type : DataType) : (zeroOf type).register? = none := by
  cases type <;> rfl

theorem fills_constantAt (address : Int) : Fills p [] (constantAt p address) fun _ => [] := by
  unfold constantAt
  split
  · split
    · exact .pure (by simp)
    · exact fills_fail _
  · exact .pure (by simp)

theorem fills_load (operand : Operand) : Fills p [] (load p operand) fun r => [r.1] := by
  unfold load
  split
  · exact .pure (by simp [register?_constantOf])
  · split
    · exact fills_fail _
    · refine (fills_constantAt _).bind fun constant => ?_
      cases constant with
      | some v => exact .pure (by simp [register?_constantOf])
      | none =>
        refine (fills_slotPointer _).bind fun ⟨pointer, type⟩ => Fills.bind (Fills.mono
          (fills_appendResult (fun _ => rfl) (fun _ => rfl) fun _ => trivial) ?_) fun _ => ?_
        · simp
        · exact .pure (by simp)

theorem fills_storeTo (operand : Operand) (value : Ref) (source : DataType) :
    Fills p [value] (storeTo p operand value source) fun _ => [] := by
  unfold storeTo
  split
  · exact fills_fail _
  · refine ((fills_slotPointer _).mono (by simp)).bind fun r => ?_
    refine ((fills_convert _ _ _).mono (by simp)).bind fun converted => ?_
    exact (fills_append (i := .store converted r.1) rfl trivial).mono
      (by simp [Instruction.operands])

theorem fills_operands (q : Quad) : Fills p [] (operands p q) fun r => [r.1, r.2.1] := by
  unfold operands
  refine (fills_load _).bind fun left => ((fills_load _).mono (by simp)).bind fun right => ?_
  refine ((fills_convert left.1 _ _).mono (by simp)).bind fun _ => ?_
  refine ((fills_convert right.1 _ _).mono (by simp)).bind fun _ => .pure (by simp)

theorem fills_compareZero (predicate : Predicate) (value : Ref) (type : DataType) :
    Fills p [value] (appendResult .i1 fun id => .compare id predicate value (zeroOf type))
      fun ref => [ref] := by
  refine Fills.mono (fills_appendResult (fun _ => rfl) (fun _ => rfl) fun _ => trivial) ?_
  simp [register?_zeroOf]

/-! ### Quadruples that stay in their block -/

theorem fills_compare (q : Quad) (op : RelOp) : Fills p [] (compare p q op) fun _ => [] := by
  unfold compare
  refine (fills_operands q).bind fun ⟨left, right, type⟩ => Fills.bind (Fills.mono
    (fills_appendResult (fun _ => rfl) (fun _ => rfl) fun _ => trivial) ?_) fun holds =>
      Fills.bind (Fills.mono
        (fills_appendResult (fun _ => rfl) (fun _ => rfl) fun _ => trivial) ?_) fun result =>
          (fills_storeTo _ result _).mono ?_
  · simp
  · simp
  · simp

theorem fills_assign (source target : Operand) :
    Fills p [] (do
      let (value, type) ← load p source
      storeTo p target value type) fun _ => [] :=
  (fills_load source).bind fun _ => (fills_storeTo _ _ _).mono (by simp)

theorem fills_combine (op : BinaryOp) (left right : Ref) (type : DataType) (target : Operand) :
    Fills p [left, right] (do
      let result ← appendResult (tyOf type) fun id => .binary id op left right
      storeTo p target result type) fun _ => [] := by
  refine Fills.bind (fills_appendResult (fun _ => rfl) (fun _ => rfl) fun _ => trivial)
    fun result => ?_
  exact (fills_storeTo _ _ _).mono (by simp)

theorem known_declared {callee : Callee} (h : callee ∈ declarations.map (·.callee)) :
    Known p callee :=
  .inl h

theorem fills_print (h : Known p printf) (type : DataType) (value : Ref) :
    Fills p [value] (do
      let format ← textPointer (writeFormat type)
      let _ ← appendCall printf [format, value]) fun _ => [] := by
  refine ((fills_textPointer _).mono (by simp)).bind fun format => ?_
  refine Fills.bind (Fills.mono (fills_appendCall h rfl) ?_) fun _ => .pure (by simp)
  simp +contextual

theorem fills_write (operand : Operand) : Fills p [] (write p operand) fun _ => [] := by
  have hprintf : Known p printf := known_declared (by decide)
  unfold write
  split
  · split
    · exact fills_fail _
    · refine (fills_textPointer _).bind fun format => ?_
      refine ((fills_textPointer _).mono (by simp)).bind fun text => ?_
      refine Fills.bind (Fills.mono (fills_appendCall hprintf rfl) ?_) fun _ => .pure (by simp)
      simp +contextual
  · refine (fills_load _).bind fun ⟨value, type⟩ => ?_
    dsimp only
    split
    · refine Fills.bind (Fills.mono
        (fills_appendResult (fun _ => rfl) (fun _ => rfl) fun _ => trivial) ?_) fun value => ?_
      · simp
      · exact (fills_print hprintf type value).mono (by simp)
    · exact (fills_print hprintf type value).mono (by simp)

theorem fills_read (operand : Operand) : Fills p [] (read p operand) fun _ => [] := by
  have hscanf : Known p scanf := known_declared (by decide)
  unfold read
  split
  · exact fills_fail _
  · refine (fills_slotPointer _).bind fun r => ?_
    refine ((fills_textPointer _).mono (by simp)).bind fun format => ?_
    refine Fills.bind (Fills.mono (fills_appendCall hscanf rfl) ?_) fun _ => .pure (by simp)
    simp +contextual

/-! ### Calls -/

theorem Valid.entry_block (h : Valid p s) : ∃ b, s.blocks[0]? = some b ∧ b.label = .entry := by
  simpa [Lowering.labels, Option.map_eq_some_iff] using h.entry

theorem run_stackSlot {type : Ty} {ref : Ref} (hrun : (stackSlot type).run s = .ok (ref, s'))
    (hvalid : Valid p s) :
    Valid p s' ∧ Grown s s' ∧ ∀ x ∈ ref.register?, Defined s'.blocks .entry x := by
  obtain ⟨rfl, rfl⟩ : .result s.nextId (.pointer type) = ref ∧
      s.pushResult 0 (.alloca · type) = s' := Prod.mk.inj (Except.ok.inj hrun)
  obtain ⟨b, hb, hlabel⟩ := hvalid.entry_block
  obtain ⟨hs', hgrown, hdefined⟩ : Valid p (s.pushResult 0 (.alloca · type)) ∧
      Grown s (s.pushResult 0 (.alloca · type)) ∧
      Defined (s.pushResult 0 (.alloca · type)).blocks b.label (.numbered s.nextId) :=
    hvalid.pushResult hb (fun _ => rfl) (by simp [Instruction.operands]) fun _ => trivial
  refine ⟨hs', hgrown, fun x hx => ?_⟩
  obtain rfl := Option.some.inj hx
  exact hlabel ▸ hdefined

theorem run_stackSlots {params : List Param} {slots : List Ref}
    (hrun : (params.mapM fun param => stackSlot (tyOf param.type)).run s = .ok (slots, s'))
    (hvalid : Valid p s) :
    Valid p s' ∧ Grown s s' ∧
      ∀ ref ∈ slots, ∀ x ∈ ref.register?, Defined s'.blocks .entry x := by
  induction params generalizing s slots with
  | nil =>
    obtain ⟨rfl, rfl⟩ : [] = slots ∧ s = s' := Prod.mk.inj (Except.ok.inj hrun)
    exact ⟨hvalid, .refl s, by simp⟩
  | cons param params ih =>
    rw [List.mapM_cons] at hrun
    obtain ⟨ref, mid, hslot, hrest⟩ := bind_ok hrun
    obtain ⟨rest, last, hslots, hpure⟩ := bind_ok hrest
    obtain ⟨rfl, rfl⟩ : ref :: rest = slots ∧ last = s' := Prod.mk.inj (Except.ok.inj hpure)
    obtain ⟨hmid, hgrown, href⟩ := run_stackSlot hslot hvalid
    obtain ⟨hlast, hgrown', hall⟩ := ih hslots hmid
    refine ⟨hlast, hgrown.trans hgrown', List.forall_mem_cons.mpr ⟨?_, hall⟩⟩
    exact fun x hx => hgrown'.grow.defined (href x hx)

theorem Valid.withCalls (h : Valid p s) {calls : List StagedCall}
    (hcalls : ∀ call ∈ calls, call.Sound p s.blocks) :
    Valid p { s with calls } ∧ Grown s { s with calls } :=
  ⟨{ h with calls := hcalls }, rfl, rfl, rfl, .refl _⟩

theorem fills_announce (hp : ∀ entry ∈ p.functions, entry.2.name = entry.1) (name : String) :
    Fills p [] (announce p name) fun _ => [] := by
  unfold announce
  split
  · exact fills_fail _
  · rename_i function hfunction
    split
    · exact fills_fail _
    · rename_i hother
      intro s a s' hrun hvalid _
      obtain ⟨slots, mid, hslots, hmodify⟩ := bind_ok hrun
      obtain rfl : { mid with calls := { function, slots } :: mid.calls } = s' :=
        (Prod.mk.inj (Except.ok.inj hmodify)).2
      obtain ⟨hmid, hgrown, hdefined⟩ := run_stackSlots hslots hvalid
      obtain ⟨entry, hentry, rfl⟩ := Option.map_eq_some_iff.mp hfunction
      have hmem := List.mem_of_find?_eq_some hentry
      have hname : entry.1 = name := by simpa using List.find?_some hentry
      have hcall : StagedCall.Sound p mid.blocks { function := entry.2, slots } :=
        { listed := List.mem_map_of_mem hmem
          other := by rwa [hp entry hmem, hname]
          length := length_mapM hslots
          slots := hdefined }
      obtain ⟨hs', hgrown'⟩ := hmid.withCalls (List.forall_mem_cons.mpr ⟨hcall, hmid.calls⟩)
      exact ⟨hs', hgrown.trans hgrown', by simp⟩

theorem fills_param (q : Quad) : Fills p [] (param p q) fun _ => [] := by
  unfold param
  refine .get_bind fun s hvalid _ => ?_
  split
  · exact ⟨[], by simp, fills_fail _⟩
  · rename_i call calls hcalls
    have hcall := hvalid.calls call (by simp [hcalls])
    refine ⟨call.slots, fun ref href x hx => ?_, ?_⟩
    · exact hvalid.inScope_of_entry (hcall.slots ref href x hx)
    · dsimp only
      split
      · exact fills_fail _
      · rename_i param slot hfound
        have hslot : slot ∈ call.slots := (List.of_mem_zip (List.mem_of_find?_eq_some hfound)).2
        refine ((fills_load _).mono (by simp)).bind fun ⟨value, type⟩ => ?_
        refine ((fills_convert _ _ _).mono (by simp)).bind fun converted => ?_
        refine Fills.mono (fills_append rfl trivial) ?_
        simp [Instruction.operands, hslot]

theorem arity_calleeOf {f : FunctionInfo} (h : f.name ≠ mainName) :
    (calleeOf f).arity = f.params.length := by
  simp [calleeOf, h, Callee.arity]

theorem fills_makeCall (q : Quad) : Fills p [] (makeCall p q) fun _ => [] := by
  intro s a s' hrun hvalid _
  unfold makeCall at hrun
  obtain ⟨state, start, hget, hrun⟩ := bind_ok hrun
  obtain ⟨rfl, rfl⟩ : s = state ∧ s = start := Prod.mk.inj (Except.ok.inj hget)
  split at hrun
  · cases hrun
  · rename_i call calls hcalls
    obtain ⟨hcall, hrest⟩ := List.forall_mem_cons.mp (hcalls ▸ hvalid.calls)
    obtain ⟨_, popped, hpop, hrun⟩ := bind_ok hrun
    obtain rfl : { s with calls } = popped := (Prod.mk.inj (Except.ok.inj hpop)).2
    obtain ⟨hpopped, hgrown⟩ := hvalid.withCalls hrest
    have hknown : Known p (calleeOf call.function) :=
      .inr ⟨call.function, hcall.listed, hcall.other, rfl⟩
    have hlength : (call.function.params.zip call.slots).length =
        (calleeOf call.function).arity := by
      simp [hcall.length, arity_calleeOf hcall.other]
    -- the slots are in the entry, so they can be read in whatever block the call is made
    have hoffers : ∀ ref ∈ call.slots, Offers { s with calls } ref := fun ref href x hx =>
      hpopped.inScope_of_entry (hcall.slots ref href x hx)
    obtain ⟨hs', hgrown', _⟩ : Valid p s' ∧ Grown { s with calls } s' ∧
        ∀ ref ∈ ([] : List Ref), s'.Offers ref := by
      refine (?_ : Fills p call.slots _ fun _ => []) _ a s' hrun hpopped hoffers
      refine Fills.bind_of (Fills.mapM ?_)
        (P := fun arguments => arguments.length = (calleeOf call.function).arity)
        (fun h => (length_mapM h).trans hlength) ?_
      · rintro ⟨param, slot⟩ hmem
        exact Fills.mono (fills_appendResult (fun _ => rfl) (fun _ => rfl) fun _ => trivial)
          (by simp [(List.of_mem_zip hmem).2])
      · intro arguments harguments
        refine Fills.bind (Fills.mono (fills_appendCall hknown harguments) ?_) fun result => ?_
        · simp +contextual
        split
        · split
          · exact (fills_storeTo _ _ _).mono (by simp)
          · exact fills_fail _
        · exact .pure (by simp)
    exact ⟨hs', hgrown.trans hgrown', by simp⟩

end Lowering

end DuckLang.Llvm
