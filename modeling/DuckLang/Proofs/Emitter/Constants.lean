import DuckLang.Emitter.Export
import DuckLang.Proofs.Emitter.Storage
import Mathlib.Data.List.Nodup
import Mathlib.Data.List.Pairwise

/-! Constants.  A registry is a pool with the allocator that it takes its addresses from.  Whatever is
asked of it, the constants pooled so far keep their addresses, no two of them are the same, and the
allocator has handed out one address for each.  Floats are the same when they are close, but ints and
chars only when they are equal, so of these each value has one address. -/

namespace DuckLang

/-- An int or a char. -/
def Value.IsWhole (v : Value) : Prop :=
  v.type = .int ∨ v.type = .char

/-- An int or a char is pooled only with itself. -/
theorem Value.sameConstant_iff {v w : Value} (hv : v.IsWhole) :
    w.sameConstant v = true ↔ w = v := by
  cases v <;> cases w <;> simp [IsWhole, sameConstant, type, number] at hv ⊢

namespace ConstantPool

/-- The constant at an address. -/
def value? (pool : ConstantPool) (address : Int) : Option Value :=
  (pool.entries.find? (·.1 = address)).map (·.2)

/-- The number of constants of a type. -/
def count (pool : ConstantPool) (type : DataType) : Nat :=
  pool.entries.countP (·.2.type = type)

/-- A pool with its allocator. -/
structure Registry where
  pool : ConstantPool := {}
  allocator : Allocator

namespace Registry

/-- Asks for the address of a constant; the pool and the allocator that are left are kept, also if
there is none. -/
def ask (r : Registry) (v : Value) : Except Cause Int × Registry :=
  match r.pool.address r.allocator v with
  | .ok address (pool, allocator) => (.ok address, { pool, allocator })
  | .error cause (pool, allocator) => (.error cause, { pool, allocator })

/-- The registry after constants were asked for, one after the other. -/
def askAll (r : Registry) (vs : List Value) : Registry :=
  vs.foldl (fun r v => (r.ask v).2) r

variable {r r' : Registry} {v w : Value} {address : Int} {cause : Cause} {vs : List Value}
  {start : Allocator}

/-! ### One request -/

/-- What asking for a constant leads to. -/
inductive Asked (r : Registry) (v : Value) : Except Cause Int × Registry → Prop
  | found {address : Int} {w : Value} (pooled : (address, w) ∈ r.pool.entries)
      (same : w.sameConstant v = true) : Asked r v (.ok address, r)
  | added {address : Int} {allocator : Allocator}
      (fresh : ∀ entry ∈ r.pool.entries, entry.2.sameConstant v = false)
      (alloc : r.allocator.alloc .constants v.type = .ok address allocator) :
      Asked r v (.ok address, { pool := { entries := r.pool.entries ++ [(address, v)] }, allocator })
  | refused {cause : Cause} {allocator : Allocator}
      (fresh : ∀ entry ∈ r.pool.entries, entry.2.sameConstant v = false)
      (alloc : r.allocator.alloc .constants v.type = .error cause allocator) :
      Asked r v (.error cause, r)

theorem asked (r : Registry) (v : Value) : r.Asked v (r.ask v) := by
  have hfresh : r.pool.find? v = none →
      ∀ entry ∈ r.pool.entries, entry.2.sameConstant v = false := by
    intro hnone entry hentry
    rw [find?, Option.map_eq_none_iff, List.find?_eq_none] at hnone
    simpa using hnone entry hentry
  simp only [ask, ConstantPool.address]
  cases hfind : r.pool.find? v with
  | some address =>
    obtain ⟨⟨_, w⟩, hfound, rfl⟩ := Option.map_eq_some_iff.mp hfind
    have hsame := List.find?_some hfound
    exact .found (List.mem_of_find?_eq_some hfound) hsame
  | none =>
    cases halloc : r.allocator.alloc .constants v.type with
    | ok address allocator => exact .added (hfresh hfind) halloc
    | error cause allocator =>
      obtain rfl := (Allocator.alloc_error halloc).1
      exact .refused (hfresh hfind) halloc

/-- The constant at the address that was given. -/
theorem mem_of_ask (hv : v.IsWhole) (h : r.ask v = (.ok address, r')) :
    (address, v) ∈ r'.pool.entries := by
  have hasked := r.asked v
  rw [h] at hasked
  cases hasked with
  | found pooled same =>
    obtain rfl := (Value.sameConstant_iff hv).mp same
    exact pooled
  | added fresh alloc => simp

theorem prefix_ask (r : Registry) (v : Value) : r.pool.entries <+: (r.ask v).2.pool.entries := by
  have hasked := r.asked v
  generalize r.ask v = result at hasked
  cases hasked with
  | added fresh alloc => exact List.prefix_append _ _
  | _ => exact List.prefix_rfl

/-! ### What is kept -/

/-- A registry in order, whose allocator was `start` when the pool was empty. -/
structure Sound (start : Allocator) (r : Registry) : Prop where
  stored : ∀ entry ∈ r.pool.entries, ∃ n < r.allocator.used .constants entry.2.type,
    Address.place? entry.1 = some { segment := .constants, type := entry.2.type, offset := n }
  distinct : (r.pool.entries.map (·.1)).Nodup
  apart : r.pool.entries.Pairwise fun x y => x.2.sameConstant y.2 = false
  counted : ∀ type, start.used .constants type + r.pool.count type = r.allocator.used .constants type
  room : ∀ type,
    r.allocator.used .constants type ≤ max (start.used .constants type) Address.rangeSize

theorem Sound.empty (start : Allocator) : Sound start { allocator := start } :=
  ⟨by simp, by simp, .nil, by simp [count], fun _ => Nat.le_max_left _ _⟩

section Added

variable {allocator : Allocator}
  (alloc : r.allocator.alloc .constants v.type = .ok address allocator)

include alloc

theorem place?_added : Address.place? address =
    some { segment := .constants, type := v.type, offset := r.allocator.used .constants v.type } := by
  obtain ⟨hstorable, hroom, rfl, _⟩ := Allocator.alloc_ok alloc
  exact Address.place?_low hstorable hroom

theorem used_added (type : DataType) : allocator.used .constants type =
    r.allocator.used .constants type + if v.type = type then 1 else 0 := by
  obtain ⟨hstorable, _, _, rfl⟩ := Allocator.alloc_ok alloc
  rw [Allocator.used_setSegment hstorable]
  by_cases htype : v.type = type
  · subst htype
    simp
  · simp [htype, Ne.symm htype]

/-- The addresses in use have smaller offsets than the one that is added. -/
theorem Sound.address_notMem (h : r.Sound start) : address ∉ r.pool.entries.map (·.1) := by
  intro hmem
  obtain ⟨entry, hentry, rfl⟩ := List.mem_map.mp hmem
  obtain ⟨n, hn, hplaced⟩ := h.stored entry hentry
  rw [place?_added alloc] at hplaced
  simp only [Option.some.injEq, Address.Place.mk.injEq, true_and] at hplaced
  rw [← hplaced.1] at hn
  omega

theorem Sound.add (h : r.Sound start)
    (fresh : ∀ entry ∈ r.pool.entries, entry.2.sameConstant v = false) :
    Sound start { pool := { entries := r.pool.entries ++ [(address, v)] }, allocator } := by
  have hused := used_added alloc
  refine ⟨?_, ?_, ?_, fun type => ?_, fun type => ?_⟩
  · intro entry hentry
    rcases List.mem_append.mp hentry with hold | hnew
    · obtain ⟨n, hn, hplaced⟩ := h.stored entry hold
      exact ⟨n, Nat.lt_of_lt_of_le hn ((Allocator.used_alloc alloc).2 _ _), hplaced⟩
    · rw [List.mem_singleton.mp hnew]
      exact ⟨_, by simp [hused], place?_added alloc⟩
  · rw [List.map_append, List.map_singleton, List.nodup_append]
    refine ⟨h.distinct, by simp, ?_⟩
    intro x hold y hnew heq
    rw [heq, List.mem_singleton.mp hnew] at hold
    exact h.address_notMem alloc hold
  · refine List.pairwise_append.mpr ⟨h.apart, List.pairwise_singleton _ _, ?_⟩
    intro entry hentry entry' hnew
    rw [List.mem_singleton.mp hnew]
    exact fresh entry hentry
  · have hcounted := h.counted type
    simp only [count, List.countP_append, List.countP_singleton, decide_eq_true_eq] at hcounted ⊢
    rw [hused]
    omega
  · obtain ⟨_, hroom, _⟩ := Allocator.alloc_ok alloc
    have hold := h.room type
    rw [hused]
    split
    · subst type
      omega
    · exact hold

end Added

theorem Sound.ask (h : r.Sound start) (v : Value) : (r.ask v).2.Sound start := by
  have hasked := r.asked v
  generalize r.ask v = result at hasked
  cases hasked with
  | found _ _ => exact h
  | added fresh alloc => exact h.add alloc fresh
  | refused _ _ => exact h

theorem Sound.askAll (h : r.Sound start) (vs : List Value) : (r.askAll vs).Sound start := by
  rw [Registry.askAll]
  exact List.foldlRecOn vs _ h fun _ hr v _ => hr.ask v

theorem prefix_askAll (r : Registry) (vs : List Value) :
    r.pool.entries <+: (r.askAll vs).pool.entries := by
  rw [askAll]
  exact List.foldlRecOn (motive := fun r' : Registry => r.pool.entries <+: r'.pool.entries) vs _
    List.prefix_rfl fun r' hr' v _ => hr'.trans (prefix_ask r' v)

/-- The constant at an address is the one entered there. -/
theorem Sound.value?_eq_some (h : r.Sound start) :
    r.pool.value? address = some v ↔ (address, v) ∈ r.pool.entries := by
  rw [value?, Option.map_eq_some_iff]
  constructor
  · rintro ⟨⟨_, _⟩, hfound, rfl⟩
    have haddress := List.find?_some hfound
    simp only [decide_eq_true_eq] at haddress
    exact haddress ▸ List.mem_of_find?_eq_some hfound
  · intro hmem
    cases hfound : r.pool.entries.find? (·.1 = address) with
    | none =>
      have hother := List.find?_eq_none.mp hfound _ hmem
      simp at hother
    | some entry =>
      have haddress := List.find?_some hfound
      simp only [decide_eq_true_eq] at haddress
      have hentry := List.inj_on_of_nodup_map h.distinct (List.mem_of_find?_eq_some hfound) hmem
        haddress
      exact ⟨entry, rfl, by rw [hentry]⟩

/-- Of ints and chars each has one address. -/
theorem Sound.address_unique (h : r.Sound start) (hv : v.IsWhole) {address' : Int}
    (hmem : (address, v) ∈ r.pool.entries) (hmem' : (address', v) ∈ r.pool.entries) :
    address' = address := by
  have hself : v.sameConstant v = true := (Value.sameConstant_iff hv).mpr rfl
  have hapart : r.pool.entries.Pairwise fun x y => ¬(x.2 = v ∧ y.2 = v) := by
    refine h.apart.imp ?_
    rintro ⟨_, x⟩ ⟨_, y⟩ hdiffer ⟨rfl, rfl⟩
    rw [hself] at hdiffer
    cases hdiffer
  by_contra hne
  have hdifferent : (address', v) ≠ (address, v) := fun heq => hne (congrArg Prod.fst heq)
  have : Std.Symm fun x y : Int × Value => ¬(x.2 = v ∧ y.2 = v) := ⟨fun _ _ h hyx => h hyx.symm⟩
  exact hapart.forall hmem' hmem hdifferent ⟨rfl, rfl⟩

/-- A constant with storage is refused only if it is new and there is no room for it. -/
theorem Sound.refused (h : r.Sound start) (hstart : start.constants = {})
    (hstorable : v.type.isStorable = true) (hask : r.ask v = (.error cause, r')) :
    (∀ entry ∈ r.pool.entries, entry.2.sameConstant v = false) ∧
      r.pool.count v.type = Address.rangeSize ∧ r' = r := by
  have hasked := r.asked v
  rw [hask] at hasked
  cases hasked with
  | refused fresh alloc =>
    have hunused : start.used .constants v.type = 0 := by
      rw [Allocator.used, Allocator.segment, hstart]
      cases v.type <;> rfl
    have hfull : Address.rangeSize ≤ r.allocator.used .constants v.type := by
      by_contra hroom
      simp [Allocator.alloc, hstorable, hroom] at alloc
    have hcounted := h.counted v.type
    have hroom := h.room v.type
    exact ⟨fresh, by omega, rfl⟩

end Registry

/-! ### Pooling all literals of a program -/

variable {pool pool' : ConstantPool} {a a' : Allocator} {vs : List Value}

theorem Registry.askAll_cons (r : Registry) (v : Value) (vs : List Value) :
    r.askAll (v :: vs) = (r.ask v).2.askAll vs :=
  rfl

/-- What is pooled was asked for. -/
theorem Registry.mem_askAll {r : Registry} {entry : Int × Value}
    (h : entry ∈ (r.askAll vs).pool.entries) : entry ∈ r.pool.entries ∨ entry.2 ∈ vs := by
  induction vs generalizing r with
  | nil => exact .inl h
  | cons v vs ih =>
    rw [askAll_cons] at h
    rcases ih h with hmem | hmem
    · have hasked := r.asked v
      generalize r.ask v = result at hasked hmem
      cases hasked with
      | added fresh alloc =>
        rcases List.mem_append.mp hmem with hold | hnew
        · exact .inl hold
        · rw [List.mem_singleton.mp hnew]
          exact .inr List.mem_cons_self
      | _ => exact .inl hmem
    · exact .inr (List.mem_cons_of_mem _ hmem)

/-- Pooling constants asks for all of them, and each int and char among them is then pooled. -/
theorem addAll_ok (h : pool.addAll a vs = .ok () (pool', a')) :
    Registry.askAll { pool, allocator := a } vs = { pool := pool', allocator := a' } ∧
      ∀ v ∈ vs, v.IsWhole → ∃ address, (address, v) ∈ pool'.entries := by
  induction vs generalizing pool a with
  | nil =>
    obtain ⟨rfl, rfl⟩ := Prod.mk.inj (EStateM.Result.ok.inj h).2
    exact ⟨rfl, by simp⟩
  | cons v vs ih =>
    simp only [addAll] at h
    split at h
    · rename_i address pool₁ a₁ haddress
      have hask : Registry.ask { pool, allocator := a } v =
          (.ok address, { pool := pool₁, allocator := a₁ }) := by
        simp only [Registry.ask, haddress]
      obtain ⟨hrest, hpooled⟩ := ih h
      have hall : Registry.askAll { pool, allocator := a } (v :: vs) =
          { pool := pool', allocator := a' } := by
        rw [Registry.askAll_cons, hask, hrest]
      refine ⟨hall, List.forall_mem_cons.mpr ⟨fun hv => ?_, hpooled⟩⟩
      have hkept := Registry.prefix_askAll { pool := pool₁, allocator := a₁ } vs
      rw [hrest] at hkept
      exact ⟨address, hkept.subset (Registry.mem_of_ask hv hask)⟩
    · cases h

end ConstantPool

namespace Emitter

open ConstantPool

theorem mem_literals {quads : List Quad} {v : Value} :
    v ∈ literals quads ↔ ∃ q ∈ quads, ∃ operand ∈ q.operands, operand.literal? = some v := by
  simp [literals, List.mem_flatMap, List.mem_filterMap]

theorem export_pool {e : Emitter} {name : String} {program : Program}
    (h : e.exportProgram name = .ok program) :
    program.quads = e.quads ∧ ∃ pool a, program.constants = pool.entries ∧
      ConstantPool.addAll {} e.allocator (literals e.quads.toList) = .ok () (pool, a) := by
  simp only [exportProgram] at h
  split at h
  · cases h
  split at h
  · cases h
  split at h
  · cases h
  split at h
  · cases h
  · rename_i pool a hpool
    obtain rfl := Except.ok.inj h
    exact ⟨rfl, pool, a, rfl, hpool⟩

/-- Among the constants of an exported program each int and char literal of its code stands once, and
no other int or char does. -/
theorem exported_constants {e : Emitter} {name : String} {program : Program}
    (h : e.exportProgram name = .ok program) :
    (program.constants.map (·.1)).Nodup ∧ ∀ v, v.IsWhole →
      ((∃ q ∈ program.quads, ∃ operand ∈ q.operands, operand.literal? = some v) →
        ∃! address, program.constant? address = some v) ∧
      ∀ address, program.constant? address = some v →
        ∃ q ∈ program.quads, ∃ operand ∈ q.operands, operand.literal? = some v := by
  obtain ⟨hquads, pool, a, hconstants, hpool⟩ := export_pool h
  obtain ⟨hall, hpooled⟩ := addAll_ok hpool
  have hsound := (Registry.Sound.empty e.allocator).askAll (literals e.quads.toList)
  rw [hall] at hsound
  have hvalue : ∀ address v, program.constant? address = some v ↔ (address, v) ∈ pool.entries := by
    intro address v
    rw [Program.constant?, hconstants]
    exact hsound.value?_eq_some
  refine ⟨hconstants ▸ hsound.distinct, fun v hv => ⟨?_, ?_⟩⟩
  · rintro ⟨q, hq, hoperand⟩
    rw [hquads] at hq
    obtain ⟨address, hmem⟩ :=
      hpooled v (mem_literals.mpr ⟨q, Array.mem_toList_iff.mpr hq, hoperand⟩) hv
    refine ⟨address, (hvalue address v).mpr hmem, fun address' hvalue' => ?_⟩
    exact hsound.address_unique hv hmem ((hvalue address' v).mp hvalue')
  · intro address hfound
    have hmem : (address, v) ∈ (Registry.askAll { allocator := e.allocator }
        (literals e.quads.toList)).pool.entries := by
      rw [hall]
      exact (hvalue address v).mp hfound
    obtain ⟨q, hq, hoperand⟩ :=
      mem_literals.mp ((Registry.mem_askAll hmem).resolve_left (by simp))
    exact ⟨q, hquads ▸ Array.mem_toList_iff.mp hq, hoperand⟩

end Emitter

namespace ConstantPool

/-- Whatever constants are asked for, starting with none: an int or char gets an address among the
constants of its type, which holds it from then on, and two of them get the same address exactly if
they are equal; a constant is refused only if it is new and all addresses for its type are taken, and
then nothing changes.  So the constants of an exported program have each int and char literal of its
code once, and no other int or char. -/
theorem constants_pooled :
    (∀ start : Allocator, start.constants = {} → ∀ (before : List Value) (r : Registry),
      r = Registry.askAll { allocator := start } before → ∀ (v : Value) (r' : Registry),
        (∀ address, v.IsWhole → r.ask v = (.ok address, r') →
          (∃ offset, Address.place? address =
            some { segment := .constants, type := v.type, offset }) ∧
          (∀ later, (r'.askAll later).pool.value? address = some v) ∧
          ∀ (between : List Value) (w : Value) (address' : Int) (r'' : Registry), w.IsWhole →
            (r'.askAll between).ask w = (.ok address', r'') → (address' = address ↔ w = v)) ∧
        ∀ cause, v.type.isStorable = true → r.ask v = (.error cause, r') →
          (∀ entry ∈ r.pool.entries, entry.2.sameConstant v = false) ∧
          (v.IsWhole → ∀ entry ∈ r.pool.entries, entry.2 ≠ v) ∧
          r.pool.count v.type = Address.rangeSize ∧ r' = r) ∧
    ∀ (e : Emitter) (name : String) (program : Program), e.exportProgram name = .ok program →
      (program.constants.map (·.1)).Nodup ∧ ∀ v, v.IsWhole →
        ((∃ q ∈ program.quads, ∃ operand ∈ q.operands, operand.literal? = some v) →
          ∃! address, program.constant? address = some v) ∧
        ∀ address, program.constant? address = some v →
          ∃ q ∈ program.quads, ∃ operand ∈ q.operands, operand.literal? = some v := by
  refine ⟨?_, fun e name program => Emitter.exported_constants⟩
  rintro start hstart before _ rfl v r'
  have hsound := (Registry.Sound.empty start).askAll before
  refine ⟨fun address hv hask => ?_, fun cause hstorable hask => ?_⟩
  · have hsound' : r'.Sound start := by
      have hnext := hsound.ask v
      rwa [hask] at hnext
    have hmem := Registry.mem_of_ask hv hask
    refine ⟨?_, fun later => ?_, fun between w address' r'' hw hask' => ?_⟩
    · obtain ⟨offset, _, hplace⟩ := hsound'.stored _ hmem
      exact ⟨offset, hplace⟩
    · exact (hsound'.askAll later).value?_eq_some.mpr ((r'.prefix_askAll later).subset hmem)
    · -- both constants are in the registry after the later request
      have hsound'' := (hsound'.askAll between).ask w
      have hkept := (r'.prefix_askAll between).trans ((r'.askAll between).prefix_ask w)
      rw [hask'] at hsound'' hkept
      have hmem' := Registry.mem_of_ask hw hask'
      constructor
      · rintro rfl
        have hvalue := hsound''.value?_eq_some.mpr (hkept.subset hmem)
        exact Option.some.inj ((hsound''.value?_eq_some.mpr hmem').symm.trans hvalue)
      · rintro rfl
        exact hsound''.address_unique hv (hkept.subset hmem) hmem'
  · obtain ⟨hfresh, hfull, hsame⟩ := hsound.refused hstart hstorable hask
    refine ⟨hfresh, fun hv entry hentry heq => ?_, hfull, hsame⟩
    have hdiffer := hfresh entry hentry
    rw [(Value.sameConstant_iff hv).mpr heq] at hdiffer
    cases hdiffer

/-- An int and a char of the same number are pooled apart, beside a float. -/
theorem constants_pooled_answers : ∃ r r' r'' : Registry,
    ({} : Allocator).constants = {} ∧
    r = Registry.askAll { allocator := {} } [.char 42, .float 0.5] ∧
    r.ask (.int 42) = (.ok 19000, r') ∧ (r'.askAll [.float 42]).ask (.char 42) = (.ok 23000, r'') ∧
    (r'.askAll [.char 7, .int 7]).pool.value? 19000 = some (.int 42) ∧
    ((23000 : Int) = 19000 ↔ Value.char 42 = .int 42) := by
  refine ⟨_, _, _, rfl, rfl, rfl, rfl, ?_⟩
  obtain ⟨_, hholds, happart⟩ := (constants_pooled.1 {} rfl [.char 42, .float 0.5] _ rfl (.int 42) _).1
    19000 (.inl rfl) rfl
  exact ⟨hholds _, happart [.float 42] _ _ _ (.inr rfl) rfl⟩

end ConstantPool

end DuckLang
