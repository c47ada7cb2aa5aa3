import DuckLang.Proofs.Emitter.Layout

/-! Jumps whose targets are not known yet.  Each of them is owned by one open construct, or is the
jump over the function bodies, and there are no others. -/

namespace DuckLang.Emitter

/-- The jump that an open construct still has to fill in. -/
def Control.owed (c : Control) : List Nat :=
  match c.construct with
  | .branch (some exitJump) => [exitJump]
  | _ => c.falseJump.toList

/-- The quadruple at an index waits for its target. -/
def Waits (quads : Array Quad) (i : Nat) : Prop :=
  ∃ q, quads[i]? = some q ∧ q.result.isPending = true

/-- The jumps that wait are those listed, each once. -/
structure Owed (quads : Array Quad) (owed : List Nat) : Prop where
  nodup : owed.Nodup
  waits : ∀ i, i ∈ owed ↔ Waits quads i

variable {quads : Array Quad} {owed owed' : List Nat} {q : Quad}

theorem waits_push {i : Nat} :
    Waits (quads.push q) i ↔ Waits quads i ∨ (i = quads.size ∧ q.result.isPending = true) := by
  simp only [Waits, Array.getElem?_push]
  constructor
  · rintro ⟨q', hq', hpending⟩
    split at hq'
    · rename_i hi
      obtain rfl := Option.some.inj hq'
      exact .inr ⟨hi, hpending⟩
    · exact .inl ⟨q', hq', hpending⟩
  · rintro (⟨q', hq', hpending⟩ | ⟨rfl, hpending⟩)
    · have hlt := (Array.getElem?_eq_some_iff.mp hq').1
      exact ⟨q', by rw [if_neg (by omega), hq'], hpending⟩
    · exact ⟨q, by rw [if_pos rfl], hpending⟩

theorem Waits.lt {i : Nat} (h : Waits quads i) : i < quads.size := by
  obtain ⟨q, hq, _⟩ := h
  exact (Array.getElem?_eq_some_iff.mp hq).1

/-- A quadruple that waits for nothing leaves the jumps as they are. -/
theorem Owed.push (h : Owed quads owed) (hq : q.result.isPending = false) :
    Owed (quads.push q) owed where
  nodup := h.nodup
  waits i := by
    rw [h.waits, waits_push, hq]
    simp

/-- A jump that waits is one more. -/
theorem Owed.pushWaiting (h : Owed quads owed) (hq : q.result.isPending = true)
    (howed : owed'.Perm (quads.size :: owed)) : Owed (quads.push q) owed' where
  nodup := by
    rw [howed.nodup_iff, List.nodup_cons]
    refine ⟨fun hmem => ?_, h.nodup⟩
    have := ((h.waits _).mp hmem).lt
    omega
  waits i := by
    rw [howed.mem_iff, waits_push, hq, List.mem_cons, h.waits]
    constructor
    · rintro (rfl | hwaits)
      · exact .inr ⟨rfl, rfl⟩
      · exact .inl hwaits
    · rintro (hwaits | ⟨rfl, _⟩)
      · exact .inr hwaits
      · exact .inl rfl

/-- A jump that was filled in is one less. -/
theorem Owed.patch (h : Owed quads owed) {i target : Nat} (hq : quads[i]? = some q)
    (howed : owed.Perm (i :: owed')) :
    Owed (quads.set! i { q with result := .jump target }) owed' := by
  have hnodup := howed.nodup_iff.mp h.nodup
  rw [List.nodup_cons] at hnodup
  refine ⟨hnodup.2, fun j => ?_⟩
  simp only [Waits, Array.set!_eq_setIfInBounds, Array.getElem?_setIfInBounds]
  have hi := (Array.getElem?_eq_some_iff.mp hq).1
  have hwaits := h.waits j
  rw [howed.mem_iff, List.mem_cons] at hwaits
  by_cases hij : i = j
  · subst hij
    constructor
    · exact fun hmem => absurd hmem hnodup.1
    · rintro ⟨q', hq', hpending⟩
      rw [if_pos rfl, if_pos hi] at hq'
      obtain rfl := Option.some.inj hq'
      cases hpending
  · rw [if_neg hij]
    constructor
    · exact fun hmem => hwaits.mp (.inr hmem)
    · intro hwait
      rcases hwaits.mpr hwait with rfl | hmem
      · exact absurd rfl hij
      · exact hmem

/-- What the open constructs of a function rely on: the jumps they own are its own, and loops go
back to where it rests. -/
structure Owners (points : List Point) (context : String) (controls : List Control) : Prop where
  homes : ∀ c ∈ controls, ∀ i ∈ c.owed, ∃ P, points[i]? = some P ∧ P.function = context
  tops : ∀ c ∈ controls, ∀ top, c.construct = .loop top → points[top]? = some (.resting context)
  depth : ∀ c ∈ controls, c.depth = 0

theorem Owners.nil (points : List Point) (context : String) : Owners points context [] where
  homes := by simp
  tops := by simp
  depth := by simp

theorem Owners.append {points : List Point} {context : String} {controls : List Control}
    (h : Owners points context controls) (more : List Point) :
    Owners (points ++ more) context controls := by
  have hkeep : ∀ {k : Nat} {P : Point}, points[k]? = some P → (points ++ more)[k]? = some P := by
    intro k P hk
    rw [List.getElem?_append_left (List.getElem?_eq_some_iff.mp hk).1, hk]
  refine ⟨fun c hc i hi => ?_, fun c hc top htop => hkeep (h.tops c hc top htop), h.depth⟩
  obtain ⟨P, hP, hfunction⟩ := h.homes c hc i hi
  exact ⟨P, hkeep hP, hfunction⟩

theorem Owners.cons {points : List Point} {context : String} {c : Control}
    {controls : List Control} (h : Owners points context controls)
    (hhomes : ∀ i ∈ c.owed, ∃ P, points[i]? = some P ∧ P.function = context)
    (htops : ∀ top, c.construct = .loop top → points[top]? = some (.resting context))
    (hdepth : c.depth = 0) : Owners points context (c :: controls) where
  homes := List.forall_mem_cons.mpr ⟨hhomes, h.homes⟩
  tops := List.forall_mem_cons.mpr ⟨htops, h.tops⟩
  depth := List.forall_mem_cons.mpr ⟨hdepth, h.depth⟩

theorem Owners.tail {points : List Point} {context : String} {c : Control}
    {controls : List Control} (h : Owners points context (c :: controls)) :
    Owners points context controls where
  homes c' hc' := h.homes c' (List.mem_cons_of_mem _ hc')
  tops c' hc' := h.tops c' (List.mem_cons_of_mem _ hc')
  depth c' hc' := h.depth c' (List.mem_cons_of_mem _ hc')

end DuckLang.Emitter
