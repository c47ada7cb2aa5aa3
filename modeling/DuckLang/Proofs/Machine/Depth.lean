import DuckLang.Proofs.Machine.Recording
import DuckLang.Proofs.Machine.Steps

/-! The limit on calls.  A function is active from its call until it is left, and the limit bounds
how many are active at once.  It decides nothing else: a run that keeps within it is the same run
under every higher limit, down to the lines that it reads and writes. -/

namespace DuckLang

/-- A call was one too many. -/
def Fault.Cause.IsDepth : Fault.Cause → Prop
  | depthExceeded _ _ => True
  | _ => False

namespace Machine

variable {κ : Type} {p : Program} {m m' : Machine κ} {q : Quad} {limit limit' : Int}

/-! ### Active functions -/

/-- The number of functions that are active: the one being run and its callers. -/
def depth (m : Machine κ) : Nat :=
  m.callers.length + 1

theorem length_activations (m : Machine κ) : m.activations.length = m.depth := by
  simp [activations, depth]

theorem Untouched.depth_le (h : Untouched m m') : m'.depth ≤ m.depth := by
  rw [← length_activations, ← length_activations]
  exact h.activations.length_le

theorem SamePlace.depth_eq (h : SamePlace m' m) : m'.depth = m.depth := by
  rw [depth, h.callers, depth]

theorem ComesBack.depth_le {conv : Conversion} {value : Option Value}
    (h : ComesBack conv p m value m') : m'.depth ≤ m.depth := by
  obtain ⟨caller, callers, hcallers, hsame⟩ := h.same
  rw [hsame.depth_eq, depth, depth, hcallers, List.length_cons]
  exact Nat.le_succ _

/-- Only a call makes a function active. -/
theorem Advances.depth_le [Console κ] {conv : Conversion} (h : Advances conv p m q m')
    (hop : q.op ≠ .call) : m'.depth ≤ m.depth := by
  cases h with
  | store computes puts => exact Nat.le_of_eq puts.same.depth_eq
  | read op target placed given parsed puts => exact Nat.le_of_eq puts.same.depth_eq
  | call op waiting => exact absurd op hop
  | giveBack op given converted back => exact back.depth_le
  | endFunction op back => exact back.depth_le
  | _ => exact Nat.le_refl _

theorem call_depth (h : call limit m q = .ok m') : (m'.depth : Int) ≤ limit := by
  simp only [call] at h
  split at h
  · cases h
  · split at h
    · cases h
    · split at h
      · cases h
      · obtain rfl := Except.ok.inj h
        simp only [depth, List.length_cons]
        omega

theorem step_depth [Console κ] (h : (m.depth : Int) ≤ limit) :
    ((step p limit m).machine.depth : Int) ≤ limit := by
  have huntouched := step_untouching p limit m
  cases hstep : step p limit m with
  | finished m' =>
    rw [hstep] at huntouched
    exact Int.le_trans (Int.ofNat_le.mpr huntouched.depth_le) h
  | faulted f m' =>
    rw [hstep] at huntouched
    exact Int.le_trans (Int.ofNat_le.mpr huntouched.depth_le) h
  | next m' =>
    cases hquad : quad? p m.index with
    | none =>
      have hback := leave_comesBack (((Leaving.past hquad).step limit).symm.trans hstep)
      exact Int.le_trans (Int.ofNat_le.mpr hback.depth_le) h
    | some q =>
      by_cases hop : q.op = .call
      · simp only [step, hquad, execute, hop] at hstep
        split at hstep
        · rename_i hcall
          exact Step.next.inj hstep ▸ call_depth hcall
        · cases hstep
      · exact Int.le_trans (Int.ofNat_le.mpr ((advances hquad hstep).depth_le hop)) h

theorem run_depth [Console κ] (h : (m.depth : Int) ≤ limit) (fuel : Nat) :
    ((run p limit fuel m).machine.depth : Int) ≤ limit := by
  induction fuel generalizing m with
  | zero => exact h
  | succ fuel ih =>
    have hstep := step_depth (p := p) h
    simp only [run]
    split <;> rename_i hnext <;> rw [hnext] at hstep
    · exact ih hstep
    · exact hstep
    · exact hstep

/-! ### Higher limits -/

/-- A call is run alike under a higher limit, unless it is one too many. -/
theorem call_raise (hle : limit ≤ limit') :
    call limit' m q = call limit m q ∨
      ∃ name, call limit m q = .error (.depthExceeded limit name) := by
  simp only [call]
  split
  · exact .inl rfl
  · split
    · exact .inl rfl
    · rename_i frame _ _ _
      by_cases hdeep : limit ≤ m.callers.length + 1
      · exact .inr ⟨frame.function.name, if_pos hdeep⟩
      · rw [if_neg hdeep, if_neg (by omega)]
        exact .inl rfl

theorem execute_raise [Console κ] (hle : limit ≤ limit') :
    execute p limit' m q = execute p limit m q ∨
      ∃ f m', execute p limit m q = .faulted f m' ∧ f.cause.IsDepth := by
  by_cases hop : q.op = .call
  · simp only [execute, hop]
    rcases call_raise (m := m) (q := q) hle with hsame | ⟨name, hfault⟩
    · rw [hsame]
      exact .inl rfl
    · rw [hfault]
      exact .inr ⟨_, _, rfl, trivial⟩
  · refine .inl ?_
    -- no other operation looks at the limit
    simp only [execute]
    cases hq : q.op <;> first | rfl | exact absurd hq hop

theorem step_raise [Console κ] (hle : limit ≤ limit') :
    step p limit' m = step p limit m ∨
      ∃ f m', step p limit m = .faulted f m' ∧ f.cause.IsDepth := by
  simp only [step]
  split
  · exact .inl rfl
  · exact execute_raise hle

/-- A run without a call too many is the same under a higher limit. -/
theorem run_raise [Console κ] (hle : limit ≤ limit') (fuel : Nat)
    (h : ∀ f ∈ (run p limit fuel m).fault?, ¬f.cause.IsDepth) :
    run p limit' fuel m = run p limit fuel m := by
  induction fuel generalizing m with
  | zero => rfl
  | succ fuel ih =>
    simp only [run] at h ⊢
    rcases step_raise (p := p) (m := m) hle with hsame | ⟨f, m', hfault, hdepth⟩
    · rw [hsame]
      cases hstep : step p limit m with
      | next m' =>
        rw [hstep] at h
        exact ih h
      | finished m' => rfl
      | faulted f m' => rfl
    · rw [hfault] at h
      exact absurd hdepth (h f rfl)

/-- The limit bounds the number of active functions and nothing else: a run that does not fault for
its depth is the same under every higher limit, with the same end, the same globals and the same
lines read and written. -/
theorem limit_bounds (p : Program) (globals : Memory) [Console κ] (console : κ)
    {limit limit' : Int} (hpos : 1 ≤ limit) (hle : limit ≤ limit') (fuel : Nat) :
    ((run p limit fuel (start p globals console)).machine.depth : Int) ≤ limit ∧
    ((∀ f ∈ (run p limit fuel (start p globals console)).fault?, ¬f.cause.IsDepth) →
      run p limit' fuel (start p globals console) = run p limit fuel (start p globals console) ∧
      linesOf p limit' fuel globals console = linesOf p limit fuel globals console) := by
  refine ⟨run_depth (by simpa [depth, start] using hpos) fuel, fun h => ⟨run_raise hle fuel h, ?_⟩⟩
  -- the run that is recorded faults as the other does, so it is the same one as well
  rw [← run_recorded, Outcome.fault?_seen] at h
  rw [linesOf, run_raise hle fuel h, linesOf]

/-- A program that writes a line in a function. -/
def greets : Program where
  name := "p"
  quads := #[
    { op := .announce, left := .empty, right := .empty, result := .function "greet" },
    { op := .call, left := .function "greet", right := .empty, result := .empty },
    { op := .halt, left := .empty, right := .empty, result := .empty },
    { op := .write, left := .empty, right := .empty, result := .intLiteral 7 },
    { op := .endFunction, left := .empty, right := .empty, result := .empty }]
  functions := [("greet", { name := "greet", entry := 3 })]
  constants := []
  strings := []
  globals := {}

/-- With room for two functions the program ends, and a third one would change nothing. -/
theorem limit_bounds_greets :
    (run greets 1 9 (start greets {} ({} : Console.Scripted))).fault?.map (·.cause) =
      some (.depthExceeded 1 "greet") ∧
    (∃ m, run greets 2 9 (start greets {} ({} : Console.Scripted)) = .finished m) ∧
    linesOf greets 2 9 {} ({} : Console.Scripted) = [.written "7"] ∧
    run greets 3 9 (start greets {} ({} : Console.Scripted)) =
      run greets 2 9 (start greets {} ({} : Console.Scripted)) ∧
    linesOf greets 3 9 {} ({} : Console.Scripted) =
      linesOf greets 2 9 {} ({} : Console.Scripted) := by
  refine ⟨rfl, ⟨_, rfl⟩, by decide +kernel, ?_⟩
  refine (limit_bounds greets {} ({} : Console.Scripted) (by decide) (by decide) 9).2 ?_
  intro f hf
  cases hf

end Machine

end DuckLang
