import DuckLang.Proofs.Emitter.Draft

/-! The pool of temporaries.  Its free ids stand in increasing order among those minted, so the id
it hands out was not in use and is in use from then on, and an id taken back is the only one that
is not in use any more. -/

namespace DuckLang.TempPool

variable {pool : TempPool} {id x : Int}

/-- The free ids increase and were minted. -/
structure Orderly (pool : TempPool) : Prop where
  increasing : pool.free.Pairwise (· < ·)
  sound : pool.Sound

/-- An id that was handed out and not taken back. -/
def IsLive (pool : TempPool) (id : Int) : Prop :=
  0 ≤ id ∧ id < pool.next ∧ id ∉ pool.free

theorem Orderly.empty : Orderly {} :=
  ⟨.nil, by simp [Sound]⟩

theorem Orderly.alloc (h : pool.Orderly) : pool.alloc.2.Orderly := by
  refine ⟨?_, h.sound.alloc.1⟩
  have hfree := h.increasing
  cases hpool : pool.free with
  | nil => simp [TempPool.alloc, hpool]
  | cons y ys =>
    rw [hpool] at hfree
    simpa [TempPool.alloc, hpool] using (List.pairwise_cons.mp hfree).2

theorem Orderly.release (h : pool.Orderly) (id : Int) : (pool.release id).Orderly := by
  refine ⟨?_, h.sound.without (.temporary id .int)⟩
  simp only [TempPool.release]
  split
  · exact Ascending.pairwise_insert Int.lt_trans (fun hne hnlt => by omega) h.increasing
  · exact h.increasing

theorem Orderly.without (h : pool.Orderly) (operand : Operand) : (pool.without operand).Orderly := by
  cases operand with
  | temporary id type => exact h.release id
  | _ => exact h

/-- What is handed out was minted then, if not before. -/
theorem Orderly.alloc_range (h : pool.Orderly) :
    0 ≤ pool.alloc.1 ∧ pool.alloc.1 < pool.alloc.2.next :=
  h.sound.alloc.2.2

theorem next_le_alloc (pool : TempPool) : pool.next ≤ pool.alloc.2.next := by
  simp only [TempPool.alloc]
  split
  · exact Nat.le_refl _
  · exact Nat.le_succ _

/-- What is handed out was not in use. -/
theorem not_isLive_alloc : ¬pool.IsLive pool.alloc.1 := by
  rintro ⟨_, hlt, hfree⟩
  cases hpool : pool.free with
  | nil =>
    simp only [TempPool.alloc, hpool] at hlt
    omega
  | cons y ys => simp [TempPool.alloc, hpool] at hfree

/-- The ids in use once another is handed out. -/
theorem Orderly.isLive_alloc (h : pool.Orderly) :
    pool.alloc.2.IsLive x ↔ x = pool.alloc.1 ∨ pool.IsLive x := by
  have hsound := h.sound
  have hincreasing := h.increasing
  simp only [Sound] at hsound
  cases hpool : pool.free with
  | nil =>
    simp only [IsLive, TempPool.alloc, hpool, List.not_mem_nil, not_false_eq_true, and_true]
    omega
  | cons y ys =>
    rw [hpool] at hsound hincreasing
    obtain ⟨hy, _⟩ := List.forall_mem_cons.mp hsound
    have hys := (List.pairwise_cons.mp hincreasing).1
    simp only [IsLive, TempPool.alloc, hpool, List.mem_cons, not_or]
    constructor
    · rintro ⟨hpos, hlt, hmem⟩
      by_cases hx : x = y
      · exact .inl hx
      · exact .inr ⟨hpos, hlt, hx, hmem⟩
    · rintro (rfl | ⟨hpos, hlt, _, hmem⟩)
      · refine ⟨hy.1, hy.2, fun hmem => ?_⟩
        have := hys x hmem
        omega
      · exact ⟨hpos, hlt, hmem⟩

/-- The ids in use once one is taken back. -/
theorem isLive_release : (pool.release id).IsLive x ↔ pool.IsLive x ∧ x ≠ id := by
  simp only [IsLive, TempPool.release]
  split
  · simp only [Ascending.mem_insert]
    tauto
  · rename_i hrange
    constructor
    · rintro ⟨hpos, hlt, hmem⟩
      refine ⟨⟨hpos, hlt, hmem⟩, ?_⟩
      rintro rfl
      exact hrange ⟨hpos, hlt⟩
    · exact fun h => h.1

/-- The number of ids in use, if they are those of a list without duplicates. -/
theorem Orderly.live_eq {ids : List Int} (h : pool.Orderly) (hnodup : ids.Nodup)
    (hlive : ∀ id, pool.IsLive id ↔ id ∈ ids) : pool.live = ids.length := by
  have hminted : (ids ++ pool.free).Perm ((List.range pool.next).map Int.ofNat) := by
    refine (List.perm_ext_iff_of_nodup ?_ ?_).mpr fun id => ?_
    · refine List.nodup_append.mpr ⟨hnodup, h.increasing.imp (fun hlt => by omega), ?_⟩
      rintro id hid _ hfree rfl
      exact ((hlive id).mpr hid).2.2 hfree
    · exact List.Pairwise.map _ (fun _ _ hne heq => hne (Int.ofNat.inj heq)) List.nodup_range
    · simp only [List.mem_append, ← hlive, List.mem_map, List.mem_range]
      constructor
      · rintro (⟨hpos, hlt, _⟩ | hfree)
        · exact ⟨id.toNat, by omega, Int.toNat_of_nonneg hpos⟩
        · obtain ⟨hpos, hlt⟩ := h.sound id hfree
          exact ⟨id.toNat, by omega, Int.toNat_of_nonneg hpos⟩
      · rintro ⟨n, hn, rfl⟩
        by_cases hfree : Int.ofNat n ∈ pool.free
        · exact .inr hfree
        · exact .inl ⟨Int.natCast_nonneg n, Int.ofNat_lt.mpr hn, hfree⟩
  have hlength := hminted.length_eq
  simp only [List.length_append, List.length_map, List.length_range] at hlength
  rw [live]
  omega

end DuckLang.TempPool
