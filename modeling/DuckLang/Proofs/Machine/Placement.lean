import DuckLang.Proofs.Machine.Typing

/-! Where values lie.  A program may be run again and again, each time with the globals that the run
before left behind.  Whatever the program and however its runs end, a value is only ever stored in a
memory of the segment that its address lies in, and with the type of the range there. -/

namespace DuckLang

/-- A value lies at an address of a segment and has the type of the range there. -/
def LiesIn (segment : Segment) (address : Int) (v : Value) : Prop :=
  ∃ offset, Address.place? address = some { segment, type := v.type, offset }

/-- Every value of a memory lies in a segment. -/
def Memory.Within (m : Memory) (segment : Segment) : Prop :=
  ∀ address v, m.get? address = some v → LiesIn segment address v

namespace Machine

theorem settles_liesIn : Settles LiesIn := by
  intro address place v hplace
  have htype := v.type_convert (Address.place?_storable hplace)
  exact ⟨place.offset, by rw [hplace, htype]⟩

variable {κ : Type}

/-- The frames of a machine: that of the function being run, those of its callers and those of the
calls that are announced. -/
def frames (m : Machine κ) : List Frame :=
  m.frame :: m.callers.map (·.frame) ++ m.pending

theorem Forall.of_mem_frames {P : Segment → Int → Value → Prop} {m : Machine κ} (h : m.Forall P)
    {frame : Frame} (hframe : frame ∈ m.frames) : frame.Forall P := by
  rcases List.mem_append.mp hframe with hactive | hpending
  · rcases List.mem_cons.mp hactive with rfl | hmapped
    · exact h.frame
    · obtain ⟨caller, hcaller, rfl⟩ := List.mem_map.mp hmapped
      exact h.callers caller hcaller
  · exact h.pending frame hpending

/-! ### Runs one after the other -/

/-- The machine of a run that is over, be it without a fault or with one. -/
def Outcome.over? : Outcome κ → Option (Machine κ)
  | finished m | faulted _ m => some m
  | unfinished _ => none

theorem Outcome.machine_of_over? {outcome : Outcome κ} {m : Machine κ}
    (h : outcome.over? = some m) : outcome.machine = m := by
  cases outcome with
  | finished m' => exact Option.some.inj h
  | faulted f m' => exact Option.some.inj h
  | unfinished m' => cases h

/-- The globals that runs of a program leave behind, one after the other.  Each of them may have a
limit of its own and find its console in any state. -/
inductive LeftBehind (κ : Type) [Console κ] (p : Program) : Memory → Prop
  | fresh : LeftBehind κ p {}
  | again {globals : Memory} {limit : Int} {fuel : Nat} {console : κ} {m : Machine κ}
      (before : LeftBehind κ p globals)
      (ended : (run p limit fuel (start p globals console)).over? = some m) :
      LeftBehind κ p m.globals

/-- A run of a program, be it the first one or a later one, comes to a machine. -/
def Visits [Console κ] (p : Program) (m : Machine κ) : Prop :=
  ∃ globals limit fuel console, LeftBehind κ p globals ∧
    (run p limit fuel (start p globals console)).machine = m

variable [Console κ] {p : Program} {globals : Memory}

theorem forall_run (h : globals.Within .globals) (limit : Int) (fuel : Nat) (console : κ) :
    (run p limit fuel (start p globals console)).machine.Forall LiesIn := by
  apply Forall.run settles_liesIn
  exact ⟨h, ⟨.empty, .empty⟩, by simp [start], by simp [start]⟩

theorem LeftBehind.within (h : LeftBehind κ p globals) : globals.Within .globals := by
  induction h with
  | fresh =>
    intro address v hv
    cases hv
  | @again globals limit fuel console m before ended ih =>
    have hrun := forall_run (p := p) ih limit fuel console
    rw [Outcome.machine_of_over? ended] at hrun
    exact hrun.globals

/-- Whatever the program, in every machine that its runs come to the globals lie in the global
segment, the locals and temporaries of every frame in the local and in the temporary one, and every
value has the type of the range that it lies in. -/
theorem values_placed (p : Program) {m : Machine κ} (h : Visits p m) :
    m.globals.Within .globals ∧
      ∀ frame ∈ m.frames, frame.locals.Within .locals ∧ frame.temps.Within .temporaries := by
  obtain ⟨globals, limit, fuel, console, hbehind, rfl⟩ := h
  have hall := forall_run (p := p) hbehind.within limit fuel console
  refine ⟨hall.globals, fun frame hframe => ?_⟩
  have hframe := hall.of_mem_frames hframe
  exact ⟨hframe.locals, hframe.temps⟩

/-- A program whose operands state other types than those of their ranges: it stores a float among
the ints, the int of a comparison among the floats and an int among the chars of the function that
it calls, whose value is a float for an int. -/
def mistyped : Program where
  name := "p"
  quads := #[
    { op := .assign, left := .floatLiteral 2.5, right := .empty, result := .address 1000 .float },
    { op := .rel .eq, left := .address 1000 .char, right := .charLiteral 2,
      result := .temporary 0 .float },
    { op := .announce, left := .empty, right := .empty, result := .function "half" },
    { op := .param, left := .intLiteral 7, right := .empty, result := .address 11000 .int },
    { op := .call, left := .function "half", right := .empty, result := .temporary 0 .int },
    { op := .halt, left := .empty, right := .empty, result := .empty },
    { op := .giveBack, left := .empty, right := .empty, result := .address 11000 .int }]
  functions := [("half", { name := "half", entry := 6, returns := .float })]
  constants := []
  strings := []
  globals := {}

/-- In its second run, with the argument copied and the call still to be made, everything lies where
it should. -/
theorem values_placed_mistyped : ∃ m : Machine Console.Scripted,
    Visits mistyped m ∧ m.pending.length = 1 ∧ m.globals.Within .globals ∧
      ∀ frame ∈ m.frames, frame.locals.Within .locals ∧ frame.temps.Within .temporaries := by
  have hfirst : LeftBehind Console.Scripted mistyped _ :=
    @LeftBehind.again _ _ _ {} 9 9 {} _ .fresh rfl
  have hvisits : ∃ m : Machine Console.Scripted, Visits mistyped m ∧ m.pending.length = 1 :=
    ⟨_, ⟨_, 9, 4, {}, hfirst, rfl⟩, rfl⟩
  obtain ⟨m, hm, hpending⟩ := hvisits
  exact ⟨m, hm, hpending, values_placed mistyped hm⟩

end Machine

end DuckLang
