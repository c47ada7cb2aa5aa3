import DuckLang.Proofs.Machine.Steps

/-! Frames are private.  A function runs on top of its callers, and with all the calls it makes
itself it stores in its own activation and in those above it.  When it is left, its callers are as
they were. -/

namespace DuckLang.Machine

variable {κ : Type} {p : Program} {m m' m₀ : Machine κ}

/-! ### Activations -/

/-- A frame later in the life of its activation: values were stored in it and nothing else. -/
inductive Frame.Later (frame : Frame) : Frame → Prop
  | refl : Later frame frame
  | locals {later : Frame} (before : Later frame later) (address : Int) (v : Value) :
      Later frame { later with locals := later.locals.set address v }
  | temps {later : Frame} (before : Later frame later) (address : Int) (v : Value) :
      Later frame { later with temps := later.temps.set address v }

theorem Frame.Later.trans {frame later latest : Frame} (h : frame.Later later)
    (h' : later.Later latest) : frame.Later latest := by
  induction h' with
  | refl => exact h
  | locals _ address v ih => exact ih.locals address v
  | temps _ address v ih => exact ih.temps address v

/-- A value is put among the globals or in the activation being run. -/
theorem Puts.later {conv : Conversion} {operand : Operand} {v : Value}
    (h : Puts conv m operand v m') : m.frame.Later m'.frame := by
  cases h with
  | @intro address place w target placed writable converted =>
    cases place.segment with
    | globals => exact .refl
    | constants => exact .refl
    | locals => exact .locals .refl _ _
    | temporaries => exact .temps .refl _ _

/-! ### Steps on the stack of activations -/

/-- What a step does to the activations: it stores in the one being run, starts another on top of
it, or goes back to the caller, which may store the value of its call. -/
inductive Moves (p : Program) (m m' : Machine κ) : Prop
  | stays (callers : m'.callers = m.callers) (frame : m.frame.Later m'.frame)
  | enters (callers : m'.callers = { frame := m.frame, index := m.index } :: m.callers)
  | returns {caller : Caller} {value : Option Value} (leaving : Leaving p m value)
      (callers : m.callers = caller :: m'.callers) (frame : caller.frame.Later m'.frame)

theorem Leaving.moves {value : Option Value} (hleaving : Leaving p m value)
    (h : ComesBack Converted p m value m') : Moves p m m' := by
  cases h with
  | drops waiting called unwanted => exact .returns hleaving waiting .refl
  | takes waiting called wanted puts =>
    have hcallers := puts.same.callers
    exact .returns hleaving (waiting.trans (by rw [hcallers])) puts.later

theorem moves [Console κ] {limit : Int} (h : step p limit m = .next m') : Moves p m m' := by
  cases hquad : quad? p m.index with
  | none =>
    have hleaving : Leaving p m none := .past hquad
    exact hleaving.moves (leave_comesBack ((hleaving.step limit).symm.trans h))
  | some q =>
    cases advances hquad h with
    | store computes puts => exact .stays puts.same.callers puts.later
    | read op target placed given parsed puts => exact .stays puts.same.callers puts.later
    | write op line_eq written => exact .stays rfl .refl
    | pass op condition holds => exact .stays rfl .refl
    | skip op condition fails result => exact .stays rfl .refl
    | jump op result => exact .stays rfl .refl
    | announce op listed => exact .stays rfl .refl
    | param op waiting argument slot placed segment converted => exact .stays rfl .refl
    | call op waiting => exact .enters rfl
    | giveBack op given converted back =>
      refine Leaving.moves (.giveBack hquad op given) ?_
      rwa [← converted]
    | endFunction op back => exact Leaving.moves (.endFunction hquad op) back

/-! ### An execution above some callers -/

/-- The machine with a number of activations taken off its stack. -/
def unwind : Nat → Machine κ → Machine κ
  | 0, m => m
  | count + 1, m =>
    match m.callers with
    | [] => m
    | caller :: callers =>
      unwind count { m with frame := caller.frame, index := caller.index, callers }

variable [Console κ] {limit : Int}

/-- How the execution of a function that runs above a number of callers returns, and with which
stack: the function is left, or a step ends the program, wherever it is, and every call above the
function is abandoned. -/
inductive Returns (p : Program) (limit : Int) (depth : Nat) (m : Machine κ) : Machine κ → Prop
  | leaving {value : Option Value} (level : m.callers.length = depth)
      (left : Leaving p m value) : Returns p limit depth m m
  | halt {q : Quad} {m' : Machine κ} (quad : quad? p m.index = some q) (op : q.op = .halt)
      (ends : step p limit m = .finished m') :
      Returns p limit depth m (unwind (m'.callers.length - depth) m')

/-- The machines of an execution of the function that a machine runs, until it returns. -/
inductive Executing (p : Program) (limit : Int) (m₀ : Machine κ) : Machine κ → Prop
  | start : Executing p limit m₀ m₀
  | next {m m' : Machine κ} (before : Executing p limit m₀ m)
      (running : ∀ last, ¬Returns p limit m₀.callers.length m last)
      (step : step p limit m = .next m') : Executing p limit m₀ m'

/-- The activation at the bottom of some callers and of the function that runs above them. -/
def lowest : List Caller → Frame → Frame
  | [], frame => frame
  | caller :: callers, _ => lowest callers caller.frame

theorem Frame.Later.lowest {frame later : Frame} (h : frame.Later later) (inner : List Caller) :
    (lowest inner frame).Later (lowest inner later) := by
  cases inner with
  | nil => exact h
  | cons caller inner => exact .refl

/-- A machine runs the activation that another one runs, or calls above it, over the same callers.
-/
def Above (m₀ m : Machine κ) : Prop :=
  ∃ inner, m.callers = inner ++ m₀.callers ∧ m₀.frame.Later (lowest inner m.frame)

theorem Above.moves (h : Above m₀ m)
    (hrunning : ∀ last, ¬Returns p limit m₀.callers.length m last)
    (hmoves : Moves p m m') : Above m₀ m' := by
  obtain ⟨inner, hcallers, hlater⟩ := h
  cases hmoves with
  | stays callers frame => exact ⟨inner, callers.trans hcallers, hlater.trans (frame.lowest inner)⟩
  | enters callers =>
    exact ⟨{ frame := m.frame, index := m.index } :: inner, by rw [callers, hcallers]; rfl, hlater⟩
  | returns leaving callers frame =>
    cases inner with
    | nil => exact absurd (.leaving (by rw [hcallers]; rfl) leaving) (hrunning m)
    | cons caller inner =>
      obtain ⟨rfl, hrest⟩ := List.cons.inj (callers.symm.trans hcallers)
      exact ⟨inner, hrest, hlater.trans (frame.lowest inner)⟩

theorem Executing.above (h : Executing p limit m₀ m) : Above m₀ m := by
  induction h with
  | start => exact ⟨[], rfl, .refl⟩
  | next _ running step ih => exact ih.moves running (moves step)

omit [Console κ] in
theorem unwind_inner {inner base : List Caller} (h : m.callers = inner ++ base) :
    (unwind inner.length m).callers = base ∧
      (unwind inner.length m).frame = lowest inner m.frame := by
  induction inner generalizing m with
  | nil => exact ⟨h, rfl⟩
  | cons caller inner ih =>
    simp only [List.length_cons, unwind, h, List.cons_append]
    exact ih rfl

/-- The end of a program leaves the machine as it is. -/
theorem step_halt {q : Quad} (hquad : quad? p m.index = some q) (hop : q.op = .halt) :
    step p limit m = .finished m := by
  simp only [step, hquad, execute, hop]

theorem Above.returns (h : Above m₀ m) {last : Machine κ}
    (hreturns : Returns p limit m₀.callers.length m last) :
    last.callers = m₀.callers ∧ m₀.frame.Later last.frame := by
  obtain ⟨inner, hcallers, hlater⟩ := h
  cases hreturns with
  | leaving level left =>
    obtain rfl : inner = [] := by
      rw [hcallers, List.length_append] at level
      exact List.length_eq_zero_iff.mp (by omega)
    exact ⟨hcallers, hlater⟩
  | halt quad op ends =>
    obtain rfl := Step.finished.inj ((step_halt quad op).symm.trans ends)
    have hcount : m.callers.length - m₀.callers.length = inner.length := by
      rw [hcallers, List.length_append]
      omega
    obtain ⟨hbase, hframe⟩ := unwind_inner hcallers
    rw [hcount]
    exact ⟨hbase, hframe ▸ hlater⟩

theorem Returns.op {depth : Nat} {last : Machine κ} (h : Returns p limit depth m last) {q : Quad}
    (hquad : quad? p m.index = some q) : q.op ∈ [Opcode.giveBack, .endFunction, .halt] := by
  cases h with
  | leaving level left =>
    cases left with
    | giveBack quad op =>
      obtain rfl := Option.some.inj (hquad.symm.trans quad)
      simp [op]
    | endFunction quad op =>
      obtain rfl := Option.some.inj (hquad.symm.trans quad)
      simp [op]
    | past quad => exact absurd (hquad.symm.trans quad) (by simp)
  | halt quad op ends =>
    obtain rfl := Option.some.inj (hquad.symm.trans quad)
    simp [op]

end DuckLang.Machine
