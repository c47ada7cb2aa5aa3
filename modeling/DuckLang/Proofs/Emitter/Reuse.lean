import DuckLang.Proofs.Emitter.Temporaries
import Mathlib.Data.Finset.Card
import Mathlib.Order.Bounds.Basic

/-! Reuse of temporary ids.  A tally keeps, beside a pool, the ids that were handed out and not given
back; whatever is asked of the pool, it knows these ids and no others.  So it hands out the lowest
id that is not in use, it ignores what it did not hand out, and it mints an id only if all those
minted before are in use. -/

namespace DuckLang.TempPool

variable {pool : TempPool} {id : Int}

/-- What may be asked of a pool.  Any id may be given back. -/
inductive Request where
  | alloc
  | release (id : Int)

/-- A pool with the ids that it handed out and was not given back. -/
structure Tally where
  pool : TempPool := {}
  held : Finset Int := ∅

/-- The tally after a request. -/
def Tally.serve (t : Tally) : Request → Tally
  | .alloc => { pool := t.pool.alloc.2, held := insert t.pool.alloc.1 t.held }
  | .release id => { pool := t.pool.release id, held := t.held.erase id }

/-- The tally after requests to an empty pool. -/
def tally (requests : List Request) : Tally :=
  requests.foldl Tally.serve {}

/-! ### A pool in order -/

/-- The id handed out is the lowest that is not in use. -/
theorem Orderly.isLeast_alloc (h : pool.Orderly) :
    IsLeast {id | 0 ≤ id ∧ ¬pool.IsLive id} pool.alloc.1 := by
  refine ⟨⟨h.alloc_range.1, not_isLive_alloc⟩, ?_⟩
  rintro id ⟨hpos, hidle⟩
  have hincreasing := h.increasing
  simp only [IsLive, not_and, not_not] at hidle
  cases hpool : pool.free with
  | nil =>
    -- all ids below the next one are in use
    simp only [TempPool.alloc, hpool]
    by_contra hlt
    have hmem := hidle hpos (by omega)
    rw [hpool] at hmem
    cases hmem
  | cons y ys =>
    simp only [TempPool.alloc, hpool]
    have hy := (h.sound y (by simp [hpool])).2
    by_contra hlt
    have hmem := hidle hpos (by omega)
    rw [hpool] at hmem hincreasing
    rcases List.mem_cons.mp hmem with rfl | hmem
    · exact hlt (Int.le_refl _)
    · have := (List.pairwise_cons.mp hincreasing).1 id hmem
      omega

/-- An id that is not in use is ignored. -/
theorem Orderly.release_of_not_isLive (h : pool.Orderly) (hid : ¬pool.IsLive id) :
    pool.release id = pool := by
  simp only [TempPool.release]
  split
  · rename_i hrange
    have hmem : id ∈ pool.free := by
      by_contra hfree
      exact hid ⟨hrange.1, hrange.2, hfree⟩
    rw [Ascending.insert_of_mem (fun hab => by omega) h.increasing hmem]
  · rfl

/-- An id is minted only if all those minted before are in use, and is then in use as well. -/
theorem next_alloc_cases (pool : TempPool) :
    pool.alloc.2.next = pool.next ∨
      pool.alloc.2.next = pool.next + 1 ∧ pool.alloc.2.live = pool.next + 1 := by
  cases hpool : pool.free with
  | nil => exact .inr (by simp [TempPool.alloc, hpool, live])
  | cons y ys => exact .inl (by simp [TempPool.alloc, hpool])

/-! ### Requests -/

/-- A tally in step with its pool. -/
structure Tally.InStep (t : Tally) : Prop where
  orderly : t.pool.Orderly
  held : ∀ id, t.pool.IsLive id ↔ id ∈ t.held

theorem Tally.InStep.serve {t : Tally} (h : t.InStep) (request : Request) :
    (t.serve request).InStep := by
  cases request with
  | alloc =>
    refine ⟨h.orderly.alloc, fun id => ?_⟩
    rw [Tally.serve, h.orderly.isLive_alloc, h.held, Finset.mem_insert]
  | release id =>
    refine ⟨h.orderly.release id, fun x => ?_⟩
    rw [Tally.serve, isLive_release, h.held, Finset.mem_erase, and_comm]

theorem tally_inStep (requests : List Request) : (tally requests).InStep := by
  have hempty : Tally.InStep {} := by
    refine ⟨.empty, fun id => ?_⟩
    simp only [IsLive, Finset.notMem_empty, iff_false]
    omega
  exact List.foldlRecOn requests Tally.serve hempty fun t h request _ => h.serve request

theorem Tally.InStep.live_eq {t : Tally} (h : t.InStep) : t.pool.live = t.held.card := by
  have hlive := h.orderly.live_eq t.held.nodup_toList fun id => by rw [h.held, Finset.mem_toList]
  rw [hlive, Finset.length_toList]

/-- The high water mark never falls, and what raises it leaves as many ids in use. -/
theorem Tally.highWater_serve (t : Tally) (request : Request) :
    t.pool.highWater ≤ (t.serve request).pool.highWater ∧
      ((t.serve request).pool.highWater = t.pool.highWater ∨
        (t.serve request).pool.highWater = (t.serve request).pool.live) := by
  cases request with
  | alloc =>
    refine ⟨next_le_alloc t.pool, ?_⟩
    rcases next_alloc_cases t.pool with hsame | ⟨hnext, hlive⟩
    · exact .inl hsame
    · exact .inr (hnext.trans hlive.symm)
  | release id =>
    have hsame : (t.pool.without (.temporary id .int)).next = t.pool.next := next_without _
    exact ⟨Nat.le_of_eq hsame.symm, .inl hsame⟩

theorem tally_concat (requests : List Request) (request : Request) :
    tally (requests ++ [request]) = (tally requests).serve request := by
  rw [tally, List.foldl_append]
  rfl

/-- The high water mark is the largest number of ids that ever were in use at once. -/
theorem isGreatest_highWater (requests : List Request) :
    IsGreatest {n | ∃ before, before <+: requests ∧ n = (tally before).pool.live}
      (tally requests).pool.highWater := by
  induction requests using List.reverseRecOn with
  | nil =>
    refine ⟨⟨[], List.prefix_rfl, rfl⟩, ?_⟩
    rintro n ⟨before, hbefore, rfl⟩
    rw [List.prefix_nil.mp hbefore]
    exact Nat.sub_le _ _
  | append_singleton requests request ih =>
    obtain ⟨⟨reached, hreached, hmark⟩, hbound⟩ := ih
    obtain ⟨hle, hcases⟩ := (tally requests).highWater_serve request
    rw [← tally_concat] at hle hcases
    constructor
    · rcases hcases with hsame | hlive
      · exact ⟨reached, hreached.trans (List.prefix_append _ _), hsame.trans hmark⟩
      · exact ⟨_, List.prefix_rfl, hlive⟩
    · rintro n ⟨before, hbefore, rfl⟩
      rcases List.prefix_concat_iff.mp hbefore with rfl | hearlier
      · exact Nat.sub_le _ _
      · exact Nat.le_trans (hbound ⟨before, hearlier, rfl⟩) hle

/-- Whatever was asked of a pool before: it hands out the lowest id that is not in use, it ignores
an id that is not, it counts those that are and the most that ever were at once, and its free ids
are increasing and were minted. -/
theorem ids_reused (requests : List Request) :
    IsLeast {id | 0 ≤ id ∧ id ∉ (tally requests).held} (tally requests).pool.alloc.1 ∧
    (∀ id ∉ (tally requests).held, (tally requests).pool.release id = (tally requests).pool) ∧
    (tally requests).pool.live = (tally requests).held.card ∧
    IsGreatest {n | ∃ before, before <+: requests ∧ n = (tally before).pool.live}
      (tally requests).pool.highWater ∧
    (tally requests).pool.free.Pairwise (· < ·) ∧
    ∀ id ∈ (tally requests).pool.free, 0 ≤ id ∧ id < (tally requests).pool.next := by
  have h := tally_inStep requests
  refine ⟨?_, ?_, h.live_eq, isGreatest_highWater requests, h.orderly.increasing, h.orderly.sound⟩
  · simpa only [h.held] using h.orderly.isLeast_alloc
  · intro id hid
    exact h.orderly.release_of_not_isLive fun hlive => hid ((h.held id).mp hlive)

/-- Ids given back out of order, twice, and without having been handed out. -/
theorem ids_reused_outOfOrder :
    7 ∉ (tally [.alloc, .alloc, .alloc, .release 2, .release (-1), .release 0, .release 0]).held ∧
    (tally [.alloc, .alloc, .alloc, .release 2, .release (-1), .release 0, .release 0]).pool.release 7
      = { free := [0, 2], next := 3 } := by
  have hheld : 7 ∉
      (tally [.alloc, .alloc, .alloc, .release 2, .release (-1), .release 0, .release 0]).held := by
    decide
  exact ⟨hheld, ((ids_reused _).2.1 7 hheld).trans (by decide)⟩

end DuckLang.TempPool
