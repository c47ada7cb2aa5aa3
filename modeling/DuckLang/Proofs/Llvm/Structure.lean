import DuckLang.Llvm.Lowering
import DuckLang.Llvm.Printer
import DuckLang.Proofs.Grammar.Construction

/-! Well-formed modules.  Every block of a function ends, and leads to blocks of the function only.
An instruction works on what stands before it in its block or in a block that was left to get there:
the entry, and the first half of a block that a division cuts in two. -/

namespace DuckLang.Llvm

/-! ### Registers -/

/-- What holds the result of an instruction. -/
inductive Register where
  | named (name : String)
  | numbered (id : Nat)
  deriving DecidableEq

/-- The register that is worked on. -/
def Ref.register? : Ref → Option Register
  | slot name _ => some (.named name)
  | result id _ => some (.numbered id)
  | int _ _ | double _ | param _ _ | global _ _ => none

/-- The register that an instruction gives its result in. -/
def Instruction.register? : Instruction → Option Register
  | slot name _ => some (.named name)
  | i => i.id?.map .numbered

/-- What an instruction works on. -/
def Instruction.operands : Instruction → List Ref
  | slot _ _ | alloca _ _ => []
  | load _ _ pointer | element _ _ pointer _ => [pointer]
  | store value pointer => [value, pointer]
  | binary _ _ left right | compare _ _ left right => [left, right]
  | cast _ _ value _ => [value]
  | call _ _ arguments => arguments

/-- What the end of a block works on. -/
def Terminator.operands : Terminator → List Ref
  | conditional condition _ _ => [condition]
  | ret value => value.toList
  | branch _ | unreachable => []

/-- The labels that the end of a block leads to. -/
def Terminator.targets : Terminator → List Label
  | branch target => [target]
  | conditional _ yes no => [yes, no]
  | ret _ | unreachable => []

/-- The registers that instructions give their results in. -/
def registersOf (code : List Instruction) : List Register :=
  code.filterMap Instruction.register?

/-- The registers that a block gives its results in. -/
def Block.registers (b : Block) : List Register :=
  registersOf b.instructions.toList

/-- A register gets its result in the block with a label. -/
def Defined (blocks : Array Block) (label : Label) (x : Register) : Prop :=
  ∃ b ∈ blocks, b.label = label ∧ x ∈ b.registers

/-- A block may use the registers of the entry, and the rest of a division those of the block that
the division is in. -/
inductive Inherits (blocks : Array Block) : Label → Register → Prop
  | entry {label : Label} {x : Register} (other : label ≠ .entry)
      (defined : Defined blocks .entry x) : Inherits blocks label x
  | quotient {index : Nat} {x : Register} (defined : Defined blocks (.quad index) x) :
      Inherits blocks (.quotient index) x

/-! ### Well-formedness -/

/-- If an instruction is a call, it names a function that is known and passes as many arguments as
that takes. -/
def Instruction.Fits (known : Callee → Prop) (arity : Callee → Nat) : Instruction → Prop
  | call _ callee arguments => known callee ∧ arguments.length = arity callee
  | _ => True

/-- A block each of whose instructions works on what is there before it. -/
structure Block.Sound (known : Callee → Prop) (arity : Callee → Nat) (blocks : Array Block)
    (b : Block) : Prop where
  uses : ∀ {before i after}, b.instructions.toList = before ++ i :: after →
    ∀ ref ∈ i.operands, ∀ x ∈ ref.register?, x ∈ registersOf before ∨ Inherits blocks b.label x
  fits : ∀ i ∈ b.instructions, i.Fits known arity

/-- An end of a block that works on what is there and leads to blocks that are. -/
structure Terminator.Sound (blocks : Array Block) (b : Block) (t : Terminator) : Prop where
  uses : ∀ ref ∈ t.operands, ∀ x ∈ ref.register?, x ∈ b.registers ∨ Inherits blocks b.label x
  targets : ∀ label ∈ t.targets, ∃ target ∈ blocks, target.label = label

/-- What the callers of a function know of it. -/
def Function.callee (f : Function) : Callee :=
  { name := f.name, returns := f.returns, params := f.params }

/-- The functions that a module declares or defines. -/
def Module.signatures (m : Module) : List Callee :=
  m.declarations.map (·.callee) ++ m.functions.map Function.callee

/-- The number of arguments that are passed to a function: as many as it declares, and one more if
it takes more than it declares. -/
def Callee.arity (c : Callee) : Nat :=
  c.params.length + if c.variadic then 1 else 0

/-- A function whose blocks are told apart, each of which is sound and ends. -/
structure Function.WellFormed (m : Module) (arity : Callee → Nat) (f : Function) : Prop where
  names : (f.blocks.toList.map (·.label.render)).Nodup
  registers : (f.blocks.toList.flatMap Block.registers).Nodup
  blocks : ∀ b ∈ f.blocks, b.Sound (· ∈ m.signatures) arity f.blocks
  ends : ∀ b ∈ f.blocks, ∃ t, b.terminator = some t ∧ t.Sound f.blocks b

/-- A module whose functions are told apart, each of which is well formed. -/
structure Module.WellFormed (m : Module) (arity : Callee → Nat) : Prop where
  names : (m.signatures.map Callee.name).Nodup
  functions : ∀ f ∈ m.functions, f.WellFormed m arity

/-! ### Names -/

theorem Label.render_quad (n : Nat) :
    (Label.quad n).render.toList ++ ['.'] = 'L' :: (n.repr.toList ++ '.' :: []) := by
  simp only [Label.render, String.toList_append, List.append_assoc]
  rfl

theorem Label.render_quotient (n : Nat) :
    (Label.quotient n).render.toList ++ ['.'] =
      'L' :: (n.repr.toList ++ '.' :: ['d', 'i', 'v', '.']) := by
  simp only [Label.render, String.toList_append, List.append_assoc]
  rfl

/-- Blocks of different labels have different names. -/
theorem Label.render_injective : Function.Injective Label.render := by
  intro a b h
  -- behind a dot the number of a block can be read off, and what comes behind it
  have hchars : a.render.toList ++ ['.'] = b.render.toList ++ ['.'] := by rw [h]
  cases a with
  | quad m =>
    rw [Label.render_quad] at hchars
    cases b with
    | quad n =>
      rw [Label.render_quad] at hchars
      rw [(Grammar.repr_append_inj (by decide) (List.cons.inj hchars).2).1]
    | quotient n =>
      rw [Label.render_quotient] at hchars
      cases (Grammar.repr_append_inj (by decide) (List.cons.inj hchars).2).2
    | entry | exit | zeroDivisor => cases (List.cons.inj hchars).1
  | quotient m =>
    rw [Label.render_quotient] at hchars
    cases b with
    | quad n =>
      rw [Label.render_quad] at hchars
      cases (Grammar.repr_append_inj (by decide) (List.cons.inj hchars).2).2
    | quotient n =>
      rw [Label.render_quotient] at hchars
      rw [(Grammar.repr_append_inj (by decide) (List.cons.inj hchars).2).1]
    | entry | exit | zeroDivisor => cases (List.cons.inj hchars).1
  | entry | exit | zeroDivisor =>
    cases b with
    | quad n =>
      rw [Label.render_quad] at hchars
      cases (List.cons.inj hchars).1
    | quotient n =>
      rw [Label.render_quotient] at hchars
      cases (List.cons.inj hchars).1
    | entry | exit | zeroDivisor => simp_all [Label.render]

/-! ### Growth -/

/-- Blocks that are all still there, with the registers they had. -/
structure Grow (blocks blocks' : Array Block) : Prop where
  labels : ∀ b ∈ blocks, ∃ b' ∈ blocks', b'.label = b.label
  defined : ∀ {label x}, Defined blocks label x → Defined blocks' label x

theorem Grow.refl (blocks : Array Block) : Grow blocks blocks :=
  ⟨fun b hb => ⟨b, hb, rfl⟩, id⟩

variable {blocks blocks' blocks'' : Array Block} {known : Callee → Prop} {arity : Callee → Nat}
  {b : Block}

theorem Grow.trans (h : Grow blocks blocks') (h' : Grow blocks' blocks'') :
    Grow blocks blocks'' := by
  constructor
  · intro b hb
    obtain ⟨b', hb', hlabel⟩ := h.labels b hb
    obtain ⟨b'', hb'', hlabel'⟩ := h'.labels b' hb'
    exact ⟨b'', hb'', hlabel'.trans hlabel⟩
  · exact fun hx => h'.defined (h.defined hx)

theorem Inherits.mono {label : Label} {x : Register} (hx : Inherits blocks label x)
    (h : Grow blocks blocks') : Inherits blocks' label x := by
  cases hx with
  | entry other defined => exact .entry other (h.defined defined)
  | quotient defined => exact .quotient (h.defined defined)

theorem Block.Sound.mono (hb : b.Sound known arity blocks) (h : Grow blocks blocks') :
    b.Sound known arity blocks' where
  uses hcode ref href x hx := (hb.uses hcode ref href x hx).imp_right (·.mono h)
  fits := hb.fits

theorem Terminator.Sound.mono {t : Terminator} (ht : t.Sound blocks b) (h : Grow blocks blocks') :
    t.Sound blocks' b where
  uses ref href x hx := (ht.uses ref href x hx).imp_right (·.mono h)
  targets label hlabel := by
    obtain ⟨target, htarget, rfl⟩ := ht.targets label hlabel
    exact h.labels target htarget

/-! ### Changes -/

theorem mem_of_mem_modify {k : Nat} {f : Block → Block} (hb : b ∈ blocks.modify k f) :
    b ∈ blocks ∨ ∃ old, blocks[k]? = some old ∧ b = f old := by
  obtain ⟨j, hj⟩ := Array.mem_iff_getElem?.mp hb
  rw [Array.getElem?_modify] at hj
  split at hj
  · rename_i hk
    obtain ⟨old, hold, rfl⟩ := Option.map_eq_some_iff.mp hj
    exact .inr ⟨old, hk ▸ hold, rfl⟩
  · exact .inl (Array.mem_of_getElem? hj)

theorem mem_modify {k : Nat} {f : Block → Block} (hb : b ∈ blocks) :
    b ∈ blocks.modify k f ∨ blocks[k]? = some b ∧ f b ∈ blocks.modify k f := by
  obtain ⟨j, hj⟩ := Array.mem_iff_getElem?.mp hb
  by_cases hk : k = j
  · subst hk
    refine .inr ⟨hj, Array.mem_of_getElem? (i := k) ?_⟩
    simp [Array.getElem?_modify, hj]
  · refine .inl (Array.mem_of_getElem? (i := j) ?_)
    simp [Array.getElem?_modify, hk, hj]

theorem grow_modify {k : Nat} {f : Block → Block}
    (h : ∀ b, blocks[k]? = some b → (f b).label = b.label ∧ b.registers ⊆ (f b).registers) :
    Grow blocks (blocks.modify k f) := by
  constructor
  · intro b hb
    rcases mem_modify (k := k) (f := f) hb with hmem | ⟨hk, hmem⟩
    · exact ⟨b, hmem, rfl⟩
    · exact ⟨f b, hmem, (h b hk).1⟩
  · rintro label x ⟨b, hb, rfl, hx⟩
    rcases mem_modify (k := k) (f := f) hb with hmem | ⟨hk, hmem⟩
    · exact ⟨b, hmem, rfl, hx⟩
    · exact ⟨f b, hmem, (h b hk).1, (h b hk).2 hx⟩

theorem grow_push (blocks : Array Block) (b : Block) : Grow blocks (blocks.push b) :=
  ⟨fun b hb => ⟨b, Array.mem_push_of_mem _ hb, rfl⟩,
    fun ⟨b, hb, hx⟩ => ⟨b, Array.mem_push_of_mem _ hb, hx⟩⟩

/-- A block with an instruction more. -/
def Block.push (b : Block) (i : Instruction) : Block :=
  { b with instructions := b.instructions.push i }

theorem Block.registers_push (b : Block) (i : Instruction) :
    (b.push i).registers = b.registers ++ i.register?.toList := by
  simp only [Block.registers, Block.push, registersOf, Array.toList_push, List.filterMap_append,
    List.filterMap_cons, List.filterMap_nil]
  cases i.register? <;> rfl

theorem Block.Sound.push {i : Instruction} (hb : b.Sound known arity blocks)
    (huses : ∀ ref ∈ i.operands, ∀ x ∈ ref.register?, x ∈ b.registers ∨ Inherits blocks b.label x)
    (hfits : i.Fits known arity) : (b.push i).Sound known arity blocks := by
  constructor
  · intro before j after hcode
    have hcode : b.instructions.toList ++ [i] = before ++ j :: after := by
      simpa [Block.push] using hcode
    rcases List.eq_nil_or_concat after with rfl | ⟨rest, last, rfl⟩
    · obtain ⟨rfl, hlast⟩ := List.append_inj' hcode rfl
      obtain rfl : i = j := by simpa using hlast
      exact huses
    · rw [List.concat_eq_append, ← List.cons_append, ← List.append_assoc] at hcode
      exact hb.uses (List.append_inj' hcode rfl).1
  · intro j hj
    rcases Array.mem_push.mp hj with hj | rfl
    · exact hb.fits j hj
    · exact hfits

end DuckLang.Llvm
