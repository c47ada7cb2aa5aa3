import DuckLang.Proofs.Emitter.Outline
import DuckLang.Proofs.Emitter.TempRange
import DuckLang.Proofs.Llvm.Steps

/-! Functions and their ranges.  In a program whose functions lie in a line, the range of a function
is its code.  Every operand of a function is counted in the sizes of its stack arrays, so what is
laid out has its slots and the whole program has a module. -/

namespace DuckLang

theorem Counts.get_set {type : DataType} (h : type.isStorable = true) (c : Counts) (n : Nat)
    (type' : DataType) : (c.set type n).get type' = if type' = type then n else c.get type' := by
  cases type <;> cases h <;> cases type' <;> rfl

namespace Llvm

open Emitter (InLine Part Signatures)

/-! ### Ranges -/

/-- The range of the code of a function. -/
def rangeOf (part : Part) : Range where
  function := part.info
  start := part.start
  stop := part.stop

section

variable {known : Signatures} {start : Nat} {parts : List Part} {part : Part}

theorem rangesOf_cons {size : Nat} {f : FunctionInfo} {rest : List FunctionInfo} {stop : Int}
    (hstop : (rest.head?.map FunctionInfo.entry).getD (size : Int) = stop) (hpos : 0 ≤ f.entry)
    (hsize : f.entry ≤ size) (hcode : f.entry < stop) :
    rangesOf size (f :: rest) = (rangesOf size rest).map
      ({ function := f, start := f.entry.toNat, stop := stop.toNat } :: ·) := by
  cases rest with
  | nil =>
    obtain rfl : (size : Int) = stop := hstop
    rw [rangesOf.eq_def]
    simp only
    rw [if_neg (by omega), if_neg (by omega)]
  | cons next rest =>
    obtain rfl : next.entry = stop := hstop
    rw [rangesOf.eq_def]
    simp only
    rw [if_neg (by omega), if_neg (by omega)]

/-- The range of each function is its code. -/
theorem rangesOf_inLine (h : InLine known start parts) :
    rangesOf (start + (parts.flatMap (·.code)).length) (parts.map (·.info)) =
      .ok (parts.map rangeOf) := by
  induction parts generalizing start with
  | nil => rfl
  | cons part parts ih =>
    obtain ⟨hpart, hrest⟩ := h
    have hentry := hpart.entry
    have hcode := List.length_pos_iff.mpr hpart.nonempty
    have hlength : ((part :: parts).flatMap (·.code)).length =
        part.code.length + (parts.flatMap (·.code)).length := by simp
    -- the code ends where that of the next function starts, or where the whole ends
    have hstop : ((parts.map (·.info)).head?.map FunctionInfo.entry).getD
        ((start + ((part :: parts).flatMap (·.code)).length : Nat) : Int) =
          ((start + part.code.length : Nat) : Int) := by
      cases parts with
      | nil => simp
      | cons next parts => exact hrest.1.entry
    rw [List.map_cons, rangesOf_cons hstop (by omega) (by omega) (by omega), hlength,
      ← Nat.add_assoc, ih hrest]
    simp only [Except.map, rangeOf, Part.start, Part.stop, hentry, List.map_cons, Int.toNat_natCast]

theorem le_entry (h : InLine known start parts) (hpart : part ∈ parts) :
    start ≤ part.info.entry := by
  induction parts generalizing start with
  | nil => cases hpart
  | cons first parts ih =>
    obtain ⟨hfirst, hrest⟩ := h
    rcases List.mem_cons.mp hpart with rfl | hmem
    · exact Int.le_of_eq hfirst.entry.symm
    · have := ih hrest hmem
      omega

theorem pairwise_entry (h : InLine known start parts) :
    (parts.map (·.info)).Pairwise fun f g => decide (f.entry ≤ g.entry) = true := by
  induction parts generalizing start with
  | nil => exact .nil
  | cons part parts ih =>
    obtain ⟨hpart, hrest⟩ := h
    refine .cons ?_ (ih hrest)
    intro g hg
    obtain ⟨next, hnext, rfl⟩ := List.mem_map.mp hg
    have hle : part.info.entry ≤ next.info.entry := by
      have := le_entry hrest hnext
      have := hpart.entry
      omega
    exact decide_eq_true hle

/-- The code of a function lies behind that of the functions before it. -/
theorem code_inLine (h : InLine known start parts) (hpart : part ∈ parts) :
    ∃ before behind, parts.flatMap (·.code) = before ++ part.code ++ behind ∧
      part.Sound known (start + before.length) := by
  induction parts generalizing start with
  | nil => cases hpart
  | cons first parts ih =>
    obtain ⟨hfirst, hrest⟩ := h
    rcases List.mem_cons.mp hpart with rfl | hmem
    · exact ⟨[], parts.flatMap (·.code), by simp, hfirst⟩
    · obtain ⟨before, behind, hcode, hsound⟩ := ih hrest hmem
      refine ⟨first.code ++ before, behind, by simp [hcode], ?_⟩
      rwa [List.length_append, ← Nat.add_assoc]

/-- A program that is what its functions are, one behind the other. -/
structure Outline (known : Signatures) (p : Program) (lead : List Quad) (parts : List Part) :
    Prop where
  quads : p.quads.toList = lead ++ parts.flatMap (·.code)
  functions : p.functions = parts.map fun part => (part.info.name, part.info)
  inLine : InLine known lead.length parts
  main : (p.functions.get? mainName).isSome

variable {p : Program} {lead : List Quad}

theorem Outline.splitFunctions (h : Outline known p lead parts) :
    splitFunctions p = .ok (parts.map rangeOf) := by
  obtain ⟨main, hmain⟩ := Option.isSome_iff_exists.mp h.main
  have hlisted : p.functions.map (·.2) = parts.map (·.info) := by simp [h.functions]
  have hsize : p.quads.size = lead.length + (parts.flatMap (·.code)).length := by
    rw [← Array.length_toList, h.quads, List.length_append]
  simp only [Llvm.splitFunctions, hmain, hlisted, hsize]
  rw [List.mergeSort_of_pairwise (pairwise_entry h.inLine)]
  exact rangesOf_inLine h.inLine

theorem Outline.sound (h : Outline known p lead parts) (hpart : part ∈ parts) :
    part.Sound known (rangeOf part).start ∧
      Lowering.quadsOf p (rangeOf part) = part.code.zipIdx (rangeOf part).start := by
  obtain ⟨before, behind, hcode, hsound⟩ := code_inLine h.inLine hpart
  have hstart : (rangeOf part).start = (lead ++ before).length := by
    have := hsound.entry
    simp only [rangeOf, Part.start, List.length_append]
    omega
  have hquads : p.quads.toList = lead ++ before ++ (part.code ++ behind) := by
    rw [h.quads, hcode]
    simp
  have hlength : (rangeOf part).stop - (rangeOf part).start = part.code.length := by
    simp [rangeOf, Part.stop]
  refine ⟨?_, ?_⟩
  · rw [hstart, List.length_append]
    exact hsound
  · rw [Lowering.quadsOf, hlength, hstart, hquads, List.drop_left, List.take_left]

end

/-! ### Slots -/

namespace Lowering

variable {p : Program} {r : Range} {operand : Operand} {place : Address.Place}

theorem storable_of_target (h : operand.target?.bind Address.place? = some place) :
    place.type.isStorable = true := by
  obtain ⟨address, _, hplace⟩ := Option.bind_eq_some_iff.mp h
  exact Address.place?_storable hplace

theorem le_noteOperand (segment : Segment) (sizes : Counts) (operand : Operand) (type : DataType) :
    sizes.get type ≤ (noteOperand segment sizes operand).get type := by
  unfold noteOperand
  split
  · exact Nat.le_refl _
  · rename_i place hplace
    split
    · rename_i hgrows
      rw [Counts.get_set (storable_of_target hplace)]
      split
      · rename_i htype
        rw [htype]
        omega
      · exact Nat.le_refl _
    · exact Nat.le_refl _

theorem le_foldl_noteOperand (segment : Segment) (operands : List Operand) (sizes : Counts)
    (type : DataType) :
    sizes.get type ≤ (operands.foldl (noteOperand segment) sizes).get type := by
  induction operands generalizing sizes with
  | nil => exact Nat.le_refl _
  | cons operand operands ih =>
    exact Nat.le_trans (le_noteOperand segment sizes operand type) (ih _)

/-- The sizes hold every operand that they were grown for. -/
theorem lt_foldl_noteOperand (h : operand.target?.bind Address.place? = some place)
    {operands : List Operand} (hmem : operand ∈ operands) (sizes : Counts) :
    place.offset < (operands.foldl (noteOperand place.segment) sizes).get place.type := by
  induction operands generalizing sizes with
  | nil => cases hmem
  | cons first operands ih =>
    rcases List.mem_cons.mp hmem with rfl | hrest
    · have hfirst : place.offset < (noteOperand place.segment sizes operand).get place.type := by
        simp only [noteOperand, h, true_and]
        split
        · rw [Counts.get_set (storable_of_target h), if_pos rfl]
          omega
        · omega
      exact Nat.lt_of_lt_of_le hfirst (le_foldl_noteOperand _ _ _ _)
    · exact ih hrest _

/-- The operands that a function counts in the sizes of its stack arrays. -/
def noted (p : Program) (r : Range) : List Operand :=
  (r.function.params.map fun q => Operand.address q.address q.type) ++
    (quadsOf p r).flatMap fun entry => ownOperands entry.1

/-- An operand that lies in the memory of a program, outside of the constants. -/
def Located (p : Program) (operand : Operand) : Prop :=
  ∃ address place, operand.target? = some address ∧ Address.place? address = some place ∧
    place.segment ≠ .constants ∧
      (place.segment = .globals → place.offset < globalSize p place.type)

theorem Located.writable (h : Located p operand) (hnoted : operand ∈ noted p r) :
    Writable p (start p r).sizes operand := by
  obtain ⟨address, place, htarget, hplace, hconstant, hglobal⟩ := h
  refine ⟨address, place, htarget, hplace, ?_⟩
  have hsize := lt_foldl_noteOperand (by rw [htarget]; exact hplace) hnoted {}
  rw [Sizes.Holds]
  cases hsegment : place.segment with
  | globals => exact hglobal hsegment
  | constants => exact hconstant hsegment
  | locals | temporaries =>
    rw [hsegment] at hsize
    exact hsize

/-- A function is made if its operands are located and its quadruples fit in with each other. -/
theorem function_ok {known : Signatures} {code : List Quad}
    (hcode : quadsOf p r = code.zipIdx r.start)
    (hparams : ∀ param ∈ r.function.params, Located p (.address param.address param.type))
    (hquads : ∀ q ∈ code, Lowerable known p (start p r).sizes r q)
    (hstaged : Emitter.Staged known r.function.hasReturn [] code []) :
    ∃ f, Lowering.function p r = .ok f := by
  have hslots : ∀ param ∈ r.function.params,
      Writable p (start p r).sizes (.address param.address param.type) := fun param hparam =>
    (hparams param hparam).writable (List.mem_append_left _ (List.mem_map_of_mem hparam))
  obtain ⟨_, s, hrun, _⟩ := turns_body hcode hslots hquads hstaged (start p r) rfl .nil
  rw [Lowering.function, hrun]
  exact ⟨_, rfl⟩

end Lowering

end Llvm

end DuckLang
