import DuckLang.Ascending
import Mathlib.Data.List.Basic

/-! Ascending lists stay so when an element is put in: it is there from then on, nothing else comes
or goes, and the list grows unless it had the element. -/

namespace DuckLang.Ascending

variable {α : Type} {r : α → α → Prop} [DecidableEq α] [DecidableRel r] {x y : α} {ys : List α}

theorem mem_insert : y ∈ insert r x ys ↔ y = x ∨ y ∈ ys := by
  induction ys with
  | nil => simp [insert]
  | cons z zs ih =>
    simp only [insert]
    split
    · simp_all
    · split
      · simp
      · simp [ih, or_left_comm]

theorem pairwise_insert (htrans : ∀ {a b c}, r a b → r b c → r a c)
    (htotal : ∀ {a b}, a ≠ b → ¬r a b → r b a) (h : ys.Pairwise r) :
    (insert r x ys).Pairwise r := by
  induction ys with
  | nil => simp [insert]
  | cons z zs ih =>
    obtain ⟨hz, hzs⟩ := List.pairwise_cons.mp h
    simp only [insert]
    split
    · exact h
    · rename_i hne
      split
      · rename_i hlt
        refine List.pairwise_cons.mpr ⟨fun y hy => ?_, h⟩
        rcases List.mem_cons.mp hy with rfl | hy
        · exact hlt
        · exact htrans hlt (hz y hy)
      · rename_i hnlt
        refine List.pairwise_cons.mpr ⟨fun y hy => ?_, ih hzs⟩
        rcases mem_insert.mp hy with rfl | hy
        · exact htotal hne hnlt
        · exact hz y hy

theorem insert_of_mem (hasymm : ∀ {a b}, r a b → ¬r b a) (h : ys.Pairwise r) (hx : x ∈ ys) :
    insert r x ys = ys := by
  induction ys with
  | nil => cases hx
  | cons z zs ih =>
    obtain ⟨hz, hzs⟩ := List.pairwise_cons.mp h
    simp only [insert]
    split
    · rfl
    · rename_i hne
      have hmem : x ∈ zs := (List.mem_cons.mp hx).resolve_left hne
      rw [if_neg (hasymm (hz x hmem)), ih hzs hmem]

theorem insert_eq_or_length (x : α) (ys : List α) :
    insert r x ys = ys ∨ ys.length < (insert r x ys).length := by
  induction ys with
  | nil => exact .inr (by simp [insert])
  | cons z zs ih =>
    simp only [insert]
    split
    · exact .inl rfl
    · split
      · exact .inr (by simp)
      · rcases ih with h | h
        · exact .inl (by rw [h])
        · exact .inr (by simpa using h)

end DuckLang.Ascending
