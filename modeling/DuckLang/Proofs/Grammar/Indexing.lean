import DuckLang.Grammar
import Mathlib.Data.List.Basic

/-! The index of productions by their heads.  It is kept while productions are given one after the
other: each puts its number behind those that its head has already, so under every head the numbers
of its productions stand in increasing order.  The entry of the augmented start is written over what
was there. -/

namespace DuckLang

theorem Table.lookup_setKey {α : Type} (key name : String) (value : α)
    (cells : List (String × α)) :
    (setKey key value cells).lookup name =
      if name = key then some value else cells.lookup name := by
  induction cells with
  | nil =>
    by_cases h : name = key
    · simp [setKey, h]
    · simp [setKey, List.lookup_cons, beq_eq_false_iff_ne.mpr h, h]
  | cons cell rest ih =>
    obtain ⟨k, v⟩ := cell
    simp only [setKey]
    split
    · rename_i hk
      subst hk
      by_cases h : name = k
      · simp [h]
      · simp [List.lookup_cons, beq_eq_false_iff_ne.mpr h, h]
    · rename_i hk
      by_cases h : name = k
      · subst h
        simp [hk]
      · simp [List.lookup_cons, beq_eq_false_iff_ne.mpr h, ih]

namespace Grammar

/-! ### Collections -/

namespace Collection

variable {c : Collection} {p : Production} {ps : List Production}

/-- The numbers that a collection lists under a head. -/
def idsOf (c : Collection) (head : String) : List Nat :=
  (c.byHead.lookup head).getD []

/-- A collection in whose index the numbers of the productions with a head, and no others, stand in
increasing order under that head. -/
structure Indexed (c : Collection) : Prop where
  increasing : ∀ head, (c.idsOf head).Pairwise (· < ·)
  complete : ∀ {head : String} {id : Nat}, id ∈ c.idsOf head ↔
    ∃ k q, id = k + 1 ∧ c.given[k]? = some q ∧ q.head = head
  headed : ∀ {head : String}, (c.byHead.lookup head).isSome ↔ head ∈ c.given.map (·.head)

theorem Indexed.empty : Indexed {} where
  increasing _ := .nil
  complete := by simp [idsOf]
  headed := by simp

theorem idsOf_add (c : Collection) (p : Production) (head : String) :
    (c.add p).idsOf head =
      if head = p.head then c.idsOf head ++ [c.given.length + 1] else c.idsOf head := by
  simp only [idsOf, add, Index.add, Table.lookup_setKey]
  split
  · rename_i h
    rw [h]
    rfl
  · rfl

/-- No number of a collection is as large as that of the next production. -/
theorem Indexed.le_length (h : c.Indexed) {head : String} {id : Nat} (hid : id ∈ c.idsOf head) :
    id ≤ c.given.length := by
  obtain ⟨k, q, rfl, hq, _⟩ := h.complete.mp hid
  exact (List.getElem?_eq_some_iff.mp hq).1

theorem getElem?_add {k : Nat} {q : Production} :
    (c.add p).given[k]? = some q ↔ c.given[k]? = some q ∨ k = c.given.length ∧ q = p := by
  rw [add, List.getElem?_append]
  split
  · rename_i hlt
    simp [Nat.ne_of_lt hlt]
  · rename_i hge
    rw [List.getElem?_eq_none (Nat.le_of_not_lt hge), List.getElem?_singleton]
    by_cases hk : k = c.given.length
    · simp [hk, eq_comm]
    · have : k - c.given.length ≠ 0 := by omega
      simp [hk, this]

/-- A production that is given is put behind those of its head. -/
theorem Indexed.add (h : c.Indexed) (p : Production) : (c.add p).Indexed where
  increasing head := by
    rw [idsOf_add]
    split
    · rw [List.pairwise_append]
      refine ⟨h.increasing head, List.pairwise_singleton .., fun id hid last hlast => ?_⟩
      obtain rfl := List.mem_singleton.mp hlast
      exact Nat.lt_succ_of_le (h.le_length hid)
    · exact h.increasing head
  complete := by
    intro head id
    simp only [getElem?_add]
    have hnew : (∃ k q, id = k + 1 ∧ (c.given[k]? = some q ∨ k = c.given.length ∧ q = p) ∧
        q.head = head) ↔ id ∈ c.idsOf head ∨ id = c.given.length + 1 ∧ p.head = head := by
      rw [h.complete]
      constructor
      · rintro ⟨k, q, rfl, hq | ⟨rfl, rfl⟩, hhead⟩
        · exact .inl ⟨k, q, rfl, hq, hhead⟩
        · exact .inr ⟨rfl, hhead⟩
      · rintro (⟨k, q, rfl, hq, hhead⟩ | ⟨rfl, hhead⟩)
        · exact ⟨k, q, rfl, .inl hq, hhead⟩
        · exact ⟨_, p, rfl, .inr ⟨rfl, rfl⟩, hhead⟩
    rw [hnew, idsOf_add]
    split
    · rename_i hhead
      simp [hhead]
    · rename_i hhead
      simp [Ne.symm hhead]
  headed := by
    intro head
    simp only [Collection.add, Index.add, Table.lookup_setKey, List.map_append, List.mem_append,
      ← h.headed]
    split
    · rename_i hhead
      simp [hhead]
    · rename_i hhead
      simp [hhead]

/-- However many productions are given, the index is kept. -/
theorem Indexed.addAll (h : c.Indexed) (ps : List Production) :
    (ps.foldl Collection.add c).Indexed := by
  induction ps generalizing c with
  | nil => exact h
  | cons p ps ih => exact ih (h.add p)

theorem given_addAll (c : Collection) (ps : List Production) :
    (ps.foldl Collection.add c).given = c.given ++ ps := by
  induction ps generalizing c with
  | nil => simp
  | cons p ps ih => simp [ih, Collection.add]

end Collection

/-! ### Grammars -/

/-- A name under which exactly the productions with that head are listed, in increasing order. -/
structure Indexed (g : Grammar) (name : String) : Prop where
  increasing : (g.idsOf name).Pairwise (· < ·)
  complete : ∀ id, id ∈ g.idsOf name ↔ ∃ p, g.productions[id]? = some p ∧ p.head = name

variable {c : Collection} {start : String}

/-- Whatever was listed under the augmented start, only production 0 is left there. -/
theorem idsOf_augment_start (c : Collection) (start : String) :
    (c.augment start).idsOf (c.augment start).start = [0] := by
  simp [idsOf, Collection.augment, Table.lookup_setKey]

/-- Under any other name the index lists what the collection does. -/
theorem idsOf_augment {name : String} (h : name ≠ (c.augment start).start) :
    (c.augment start).idsOf name = c.idsOf name := by
  simp only [idsOf, Collection.augment, Table.lookup_setKey, Collection.idsOf] at h ⊢
  rw [if_neg h]

theorem Collection.Indexed.augment (hc : c.Indexed) {name : String}
    (h : name ≠ (c.augment start).start) : (c.augment start).Indexed name where
  increasing := by
    rw [idsOf_augment h]
    exact hc.increasing name
  complete id := by
    rw [idsOf_augment h, hc.complete]
    constructor
    · rintro ⟨k, p, rfl, hp, hhead⟩
      exact ⟨p, by simpa [Collection.augment] using hp, hhead⟩
    · rintro ⟨p, hp, hhead⟩
      cases id with
      | zero =>
        obtain rfl : { head := start ++ primeMark, body := [.nonterminal start] } = p := by
          simpa [Collection.augment] using hp
        exact absurd hhead.symm h
      | succ k => exact ⟨k, p, rfl, by simpa [Collection.augment] using hp, hhead⟩

end Grammar

end DuckLang
