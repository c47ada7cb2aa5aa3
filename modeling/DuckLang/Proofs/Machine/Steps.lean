import DuckLang.Proofs.Machine.Frames

/-! Steps of a machine.  A machine `Reaches` another after a number of steps.  A step that goes on
`Advances` it in one of few ways, within a function, into a call or out of one, and puts the values
that it stores where they belong, changed as a conversion says; a step that stops stores nothing. -/

namespace DuckLang

namespace Machine

variable {κ : Type} {p : Program} {m m' m'' : Machine κ}

section Reaches

variable [Console κ] {limit : Int} {n n' : Nat}

/-- The machine that a run has come to after a number of steps. -/
def Reaches (p : Program) (limit : Int) (m₀ : Machine κ) (n : Nat) (m : Machine κ) : Prop :=
  run p limit n m₀ = .unfinished m

theorem Reaches.zero : Reaches p limit m 0 m := rfl

theorem reaches_succ :
    Reaches p limit m (n + 1) m'' ↔ ∃ m', step p limit m = .next m' ∧ Reaches p limit m' n m'' := by
  simp only [Reaches, run]
  cases step p limit m with
  | next m' => simp
  | finished m' => simp
  | faulted f m' => simp

theorem Reaches.trans (h : Reaches p limit m n m') (h' : Reaches p limit m' n' m'') :
    Reaches p limit m (n + n') m'' := by
  induction n generalizing m with
  | zero =>
    obtain rfl : m = m' := Outcome.unfinished.inj h
    rwa [Nat.zero_add]
  | succ n ih =>
    obtain ⟨m₁, hstep, hrest⟩ := reaches_succ.mp h
    rw [Nat.succ_add]
    exact reaches_succ.mpr ⟨m₁, hstep, ih hrest⟩

theorem Reaches.next (h : Reaches p limit m n m') (hstep : step p limit m' = .next m'') :
    Reaches p limit m (n + 1) m'' :=
  h.trans (reaches_succ.mpr ⟨m'', hstep, .zero⟩)

theorem Reaches.unique (h : Reaches p limit m n m') (h' : Reaches p limit m n m'') : m' = m'' :=
  Outcome.unfinished.inj (h.symm.trans h')

/-- A machine reached later is reached from one reached before. -/
theorem Reaches.split (h : Reaches p limit m (n + n') m'') :
    ∃ m', Reaches p limit m n m' ∧ Reaches p limit m' n' m'' := by
  induction n generalizing m with
  | zero => exact ⟨m, .zero, by rwa [Nat.zero_add] at h⟩
  | succ n ih =>
    rw [Nat.succ_add] at h
    obtain ⟨m₁, hstep, hrest⟩ := reaches_succ.mp h
    obtain ⟨m', h₁, h₂⟩ := ih hrest
    exact ⟨m', reaches_succ.mpr ⟨m₁, hstep, h₁⟩, h₂⟩

theorem Reaches.last (h : Reaches p limit m (n + 1) m'') :
    ∃ m', Reaches p limit m n m' ∧ step p limit m' = .next m'' := by
  obtain ⟨m', h₁, h₂⟩ := h.split
  obtain ⟨m₁, hstep, hzero⟩ := reaches_succ.mp h₂
  obtain rfl : m₁ = m'' := Outcome.unfinished.inj hzero
  exact ⟨m', h₁, hstep⟩

/-- From a machine that stops with a fault no other is reached. -/
theorem Reaches.of_fault (h : Reaches p limit m n m') {f : Fault}
    (hfault : step p limit m' = .faulted f m'') {k : Nat} {m₁ : Machine κ}
    (hreach : Reaches p limit m k m₁) : k ≤ n := by
  by_contra hlt
  obtain ⟨j, rfl⟩ := Nat.exists_eq_add_of_lt (Nat.lt_of_not_le hlt)
  have hlater : Reaches p limit m (n + (j + 1)) m₁ := hreach
  obtain ⟨m₂, hm₂, hrest⟩ := hlater.split
  obtain rfl := hm₂.unique h
  obtain ⟨m₃, hstep, _⟩ := reaches_succ.mp hrest
  rw [hfault] at hstep
  cases hstep

/-- A machine reached by steps that all were made from quadruples between two indices. -/
structure Within (p : Program) (limit : Int) (first last : Int) (m : Machine κ) (n : Nat)
    (m' : Machine κ) : Prop where
  reaches : Reaches p limit m n m'
  inside : ∀ {j : Nat} {m₁ : Machine κ}, j < n → Reaches p limit m j m₁ →
    first ≤ m₁.index ∧ m₁.index < last

variable {first last first' last' : Int}

theorem Within.zero : Within p limit first last m 0 m :=
  ⟨.zero, fun h => absurd h (Nat.not_lt_zero _)⟩

theorem Within.mono (h : Within p limit first last m n m') (hfirst : first' ≤ first)
    (hlast : last ≤ last') : Within p limit first' last' m n m' := by
  refine ⟨h.reaches, fun hlt hreach => ?_⟩
  have := h.inside hlt hreach
  omega

theorem Within.trans (h : Within p limit first last m n m')
    (h' : Within p limit first last m' n' m'') : Within p limit first last m (n + n') m'' := by
  refine ⟨h.reaches.trans h'.reaches, fun {j m₁} hlt hreach => ?_⟩
  by_cases hj : j < n
  · exact h.inside hj hreach
  · obtain ⟨k, rfl⟩ := Nat.exists_eq_add_of_le (Nat.le_of_not_lt hj)
    obtain ⟨m₂, hm₂, hrest⟩ := hreach.split
    obtain rfl := hm₂.unique h.reaches
    exact h'.inside (by omega) hrest

theorem Within.step (hfirst : first ≤ m.index) (hlast : m.index < last)
    (hstep : step p limit m = .next m') : Within p limit first last m 1 m' := by
  refine ⟨reaches_succ.mpr ⟨m', hstep, .zero⟩, fun {j m₁} hlt hreach => ?_⟩
  obtain rfl : j = 0 := by omega
  obtain rfl := hreach.unique .zero
  exact ⟨hfirst, hlast⟩

end Reaches

end Machine

/-! ### What a step stores -/

namespace Machine

variable {κ : Type} {p : Program} {m m' : Machine κ} {operand : Operand} {v : Value}

/-- A sequence of two computations that gives a value. -/
theorem bind_ok {α β : Type} {x : Except Fault.Cause α} {f : α → Except Fault.Cause β}
    {b : β} (h : x.bind f = .ok b) : ∃ a, x = .ok a ∧ f a = .ok b := by
  cases x with
  | ok a => exact ⟨a, rfl, h⟩
  | error cause => cases h

/-- What may become of a value that is stored where a type is expected. -/
abbrev Conversion := Value → DataType → Value → Prop

/-- Every value is converted to the type. -/
def Converted : Conversion :=
  fun v type w => w = v.convert type

/-- The machine with a value, as it is, in a memory that can be written. -/
def put (m : Machine κ) (segment : Segment) (address : Int) (v : Value) : Machine κ :=
  match segment with
  | .globals => { m with globals := m.globals.set address v }
  | .constants => m
  | .locals => { m with frame := { m.frame with locals := m.frame.locals.set address v } }
  | .temporaries => { m with frame := { m.frame with temps := m.frame.temps.set address v } }

theorem put_same (m : Machine κ) (segment : Segment) (address : Int) (v : Value) :
    SamePlace (m.put segment address v) m := by
  cases segment <;> exact ⟨rfl, rfl, rfl, rfl⟩

/-- The machine with a value put where an operand points, changed for the type of the range there.
-/
inductive Puts (conv : Conversion) (m : Machine κ) (operand : Operand) (v : Value) :
    Machine κ → Prop
  | intro {address : Int} {place : Address.Place} {w : Value}
      (target : operand.target? = some address) (placed : Address.place? address = some place)
      (writable : place.segment ≠ .constants) (converted : conv v place.type w) :
      Puts conv m operand v (m.put place.segment address w)

theorem Puts.same {conv : Conversion} (h : Puts conv m operand v m') : SamePlace m' m := by
  cases h with
  | intro target placed writable converted => exact put_same m _ _ _

theorem store_puts (h : store m operand v = .ok m') : Puts Converted m operand v m' := by
  simp only [store] at h
  split at h
  · cases h
  · rename_i address htarget
    split at h
    · cases h
    · rename_i place hplace
      obtain ⟨hwritable, rfl⟩ : place.segment ≠ .constants ∧
          m' = m.put place.segment address (v.convert place.type) := by
        cases hsegment : place.segment <;> simp only [hsegment] at h
        case constants => cases h
        all_goals
          obtain rfl := Except.ok.inj h
          exact ⟨by simp, rfl⟩
      exact .intro htarget hplace hwritable rfl

/-- A value that a quadruple computes or copies, for its result. -/
inductive Computes (p : Program) (m : Machine κ) (q : Quad) : Value → Prop
  | arith {op : ArithOp} {l r v : Value} (op_eq : q.op = .arith op)
      (left : load p m q.left = .ok l) (right : load p m q.right = .ok r)
      (computed : arith op l r = .ok v) : Computes p m q v
  | rel {op : RelOp} {l r : Value} (op_eq : q.op = .rel op) (left : load p m q.left = .ok l)
      (right : load p m q.right = .ok r) : Computes p m q (compare op l r)
  | assign {v : Value} (op_eq : q.op = .assign) (source : load p m q.left = .ok v) :
      Computes p m q v

/-- The machine back in the caller of the function it ran, which drops the value of its call or
takes it. -/
inductive ComesBack (conv : Conversion) (p : Program) (m : Machine κ) :
    Option Value → Machine κ → Prop
  | drops {caller : Caller} {callers : List Caller} {q : Quad} {value : Option Value}
      (waiting : m.callers = caller :: callers) (called : quad? p caller.index = some q)
      (unwanted : q.result.isEmpty = true) :
      ComesBack conv p m value { m with frame := caller.frame, index := caller.index + 1, callers }
  | takes {caller : Caller} {callers : List Caller} {q : Quad} {v : Value} {m' : Machine κ}
      (waiting : m.callers = caller :: callers) (called : quad? p caller.index = some q)
      (wanted : q.result.isEmpty = false)
      (puts : Puts conv { m with frame := caller.frame, index := caller.index, callers } q.result v
        m') :
      ComesBack conv p m (some v) { m' with index := caller.index + 1 }

/-- A function is left for its caller, which takes the value of its call. -/
theorem leave_next {value : Option Value} (h : leave p m value = .next m') :
    ∃ caller callers q m₁, m.callers = caller :: callers ∧ quad? p caller.index = some q ∧
      deliver { m with frame := caller.frame, index := caller.index, callers } m.frame.function q
        value = .ok m₁ ∧ m' = { m₁ with index := m₁.index + 1 } := by
  simp only [leave] at h
  split at h
  · cases h
  · rename_i caller callers hcallers
    split at h
    · cases h
    · rename_i q hquad
      simp only [continueWith] at h
      split at h
      · rename_i m₁ hdeliver
        exact ⟨caller, callers, q, m₁, hcallers, hquad, hdeliver, (Step.next.inj h).symm⟩
      · cases h

theorem leave_comesBack {value : Option Value} (h : leave p m value = .next m') :
    ComesBack Converted p m value m' := by
  obtain ⟨caller, callers, q, m₁, hcallers, hquad, hdeliver, rfl⟩ := leave_next h
  simp only [deliver] at hdeliver
  split at hdeliver
  · split at hdeliver
    · rename_i hempty
      obtain rfl := Except.ok.inj hdeliver
      exact .drops hcallers hquad hempty
    · rename_i hwanted
      have hputs := store_puts hdeliver
      rw [hputs.same.index]
      exact .takes hcallers hquad (by simpa using hwanted) hputs
  · split at hdeliver
    · cases hdeliver
    · split at hdeliver
      · rename_i hempty
        obtain rfl := Except.ok.inj hdeliver
        exact .drops hcallers hquad hempty
      · cases hdeliver

theorem ComesBack.same {conv : Conversion} {value : Option Value} (h : ComesBack conv p m value m') :
    ∃ caller callers, m.callers = caller :: callers ∧
      SamePlace m' { m with frame := caller.frame, index := caller.index + 1, callers } := by
  cases h with
  | drops waiting called unwanted => exact ⟨_, _, waiting, rfl, rfl, rfl, rfl⟩
  | takes waiting called wanted puts =>
    obtain ⟨_, hfunction, hcallers, hpending⟩ := puts.same
    exact ⟨_, _, waiting, rfl, hfunction, hcallers, hpending⟩

end Machine

/-! ### What a step does -/

/-- The operations after which a function goes on with the next quadruple, but for those of a
call. -/
def Opcode.runsOn : Opcode → Bool
  | arith _ | rel _ | assign | gotoFalse | write | read => true
  | _ => false

namespace Machine

variable {κ : Type} {p : Program} {m m' : Machine κ} {q : Quad}

/-- A machine about to leave the function being run, with a value or without.  The value is no
part of a frame: it goes with the step that leaves. -/
inductive Leaving (p : Program) (m : Machine κ) : Option Value → Prop
  | giveBack {q : Quad} {v : Value} (quad : quad? p m.index = some q) (op : q.op = .giveBack)
      (given : load p m q.result = .ok v) :
      Leaving p m (some (v.convert m.frame.function.returns))
  | endFunction {q : Quad} (quad : quad? p m.index = some q) (op : q.op = .endFunction) :
      Leaving p m none
  | past (quad : quad? p m.index = none) : Leaving p m none

theorem Leaving.step [Console κ] {value : Option Value} (h : Leaving p m value) (limit : Int) :
    step p limit m = leave p m value := by
  cases h with
  | giveBack quad op given => simp only [Machine.step, quad, execute, op, given]
  | endFunction quad op => simp only [Machine.step, quad, execute, op]
  | past quad => simp only [Machine.step, quad]

theorem Computes.runsOn {v : Value} (h : Computes p m q v) : q.op.runsOn = true := by
  cases h with
  | arith op_eq left right computed => rw [op_eq]; rfl
  | rel op_eq left right => rw [op_eq]; rfl
  | assign op_eq source => rw [op_eq]; rfl

/-- What a step that goes on does, by the quadruple that it executes. -/
inductive Advances [Console κ] (conv : Conversion) (p : Program) (m : Machine κ) (q : Quad) :
    Machine κ → Prop
  | store {v : Value} {m' : Machine κ} (computes : Computes p m q v)
      (puts : Puts conv m q.result v m') : Advances conv p m q { m' with index := m.index + 1 }
  | read {address : Int} {place : Address.Place} {line : String} {console : κ} {v : Value}
      {m' : Machine κ} (op : q.op = .read) (target : q.result.target? = some address)
      (placed : Address.place? address = some place)
      (given : Console.readLine m.console = (.ok line, console))
      (parsed : parseInput place.type (Text.trim line) = .ok v)
      (puts : Puts conv { m with console } q.result v m') :
      Advances conv p m q { m' with index := m.index + 1 }
  | write {line : String} {console : κ} (op : q.op = .write)
      (line_eq : lineOf p m q.result = .ok line)
      (written : Console.writeLine line m.console = (.ok (), console)) :
      Advances conv p m q { m with console, index := m.index + 1 }
  | pass {v : Value} (op : q.op = .gotoFalse) (condition : load p m q.left = .ok v)
      (holds : v.isTrue = true) : Advances conv p m q { m with index := m.index + 1 }
  | skip {v : Value} {target : Nat} (op : q.op = .gotoFalse) (condition : load p m q.left = .ok v)
      (fails : v.isTrue = false) (result : q.result = .jump target) :
      Advances conv p m q { m with index := target }
  | jump {target : Nat} (op : q.op = .goto) (result : q.result = .jump target) :
      Advances conv p m q { m with index := target }
  | announce {function : FunctionInfo} (op : q.op = .announce)
      (listed : p.functions.get? q.result.functionName = some function) :
      Advances conv p m q { m with pending := { function } :: m.pending, index := m.index + 1 }
  | param {frame : Frame} {pending : List Frame} {v w : Value} {address : Int}
      {place : Address.Place} (op : q.op = .param) (waiting : m.pending = frame :: pending)
      (argument : load p m q.left = .ok v) (slot : q.result.target? = some address)
      (placed : Address.place? address = some place) (segment : place.segment = .locals)
      (converted : conv v place.type w) : Advances conv p m q { m with
        pending := { frame with locals := frame.locals.set address w } :: pending
        index := m.index + 1 }
  | call {frame : Frame} {pending : List Frame} (op : q.op = .call)
      (waiting : m.pending = frame :: pending) :
      Advances conv p m q { m with
        frame
        index := frame.function.entry
        callers := { frame := m.frame, index := m.index } :: m.callers
        pending }
  | giveBack {v w : Value} {m' : Machine κ} (op : q.op = .giveBack)
      (given : load p m q.result = .ok v) (converted : conv v m.frame.function.returns w)
      (back : ComesBack conv p m (some w) m') : Advances conv p m q m'
  | endFunction {m' : Machine κ} (op : q.op = .endFunction) (back : ComesBack conv p m none m') :
      Advances conv p m q m'

theorem jumpTarget_ok {operand : Operand} {target : Int} (h : jumpTarget p operand = .ok target) :
    ∃ k : Nat, target = k ∧ operand = .jump k := by
  cases operand with
  | jump target' =>
    simp only [jumpTarget] at h
    split at h
    · rename_i hrange
      obtain rfl := Except.ok.inj h
      obtain ⟨k, rfl⟩ := Int.eq_ofNat_of_zero_le hrange.1
      exact ⟨k, rfl, rfl⟩
    · cases h
  | _ => cases h

theorem jump_next (h : (match jumpTarget p q.result with
      | .ok target => Step.next { m with index := target }
      | .error cause => fault p m cause) = .next m') :
    ∃ target : Nat, q.result = .jump target ∧ m' = { m with index := target } := by
  split at h
  · rename_i target htarget
    obtain ⟨k, rfl, hresult⟩ := jumpTarget_ok htarget
    exact ⟨k, hresult, (Step.next.inj h).symm⟩
  · cases h

section Advances

variable [Console κ]

theorem advances_store {result : Except Fault.Cause (Machine κ)}
    (hstores : ∀ m₁, result = .ok m₁ → ∃ v, Computes p m q v ∧ store m q.result v = .ok m₁)
    (h : continueWith p m result = .next m') : Advances Converted p m q m' := by
  cases result with
  | ok m₁ =>
    obtain ⟨v, hcomputes, hstore⟩ := hstores m₁ rfl
    obtain rfl := Step.next.inj h
    have hputs := store_puts hstore
    rw [hputs.same.index]
    exact .store hcomputes hputs
  | error cause => cases h

theorem advances_read {m₁ : Machine κ} (hop : q.op = .read) (h : read m q.result = (.ok (), m₁)) :
    Advances Converted p m q { m₁ with index := m₁.index + 1 } := by
  simp only [read] at h
  split at h
  · cases h
  · rename_i address htarget
    split at h
    · cases h
    · rename_i place hplace
      split at h
      · cases h
      · rename_i line console hline
        split at h
        · rename_i m₂ hbind
          obtain ⟨v, hparsed, hstore⟩ := bind_ok hbind
          obtain rfl := (Prod.mk.inj h).2
          have hputs := store_puts hstore
          rw [hputs.same.index]
          exact .read hop htarget hplace hline hparsed hputs
        · cases h

theorem advances_param (hop : q.op = .param)
    (h : continueWith p m (param p m q) = .next m') : Advances Converted p m q m' := by
  simp only [param] at h
  split at h
  · cases h
  · rename_i frame pending hpending
    split at h
    · cases h
    · rename_i v hload
      split at h
      · cases h
      · rename_i address hslot
        split at h
        · rename_i type offset hplace
          exact Step.next.inj h ▸ .param hop hpending hload hslot hplace rfl rfl
        · cases h

theorem advances_call {limit : Int} (hop : q.op = .call)
    (h : (match call limit m q with
      | .ok m => Step.next m
      | .error cause => fault p m cause) = .next m') : Advances Converted p m q m' := by
  simp only [call] at h
  split at h
  · rename_i m₁ hcall
    split at hcall
    · cases hcall
    · rename_i frame pending hpending
      split at hcall
      · cases hcall
      · split at hcall
        · cases hcall
        · obtain rfl := Except.ok.inj hcall
          exact Step.next.inj h ▸ .call hop hpending
  · cases h

/-- Whatever the program, a step that goes on converts what it stores. -/
theorem advances {limit : Int} (hquad : quad? p m.index = some q)
    (h : step p limit m = .next m') : Advances Converted p m q m' := by
  simp only [step, hquad, execute] at h
  split at h
  case h_1 op hop =>
    refine advances_store (fun m₁ hm₁ => ?_) h
    obtain ⟨l, hl, hm₁⟩ := bind_ok hm₁
    obtain ⟨r, hr, hm₁⟩ := bind_ok hm₁
    obtain ⟨v, hv, hm₁⟩ := bind_ok hm₁
    exact ⟨v, .arith hop hl hr hv, hm₁⟩
  case h_2 op hop =>
    refine advances_store (fun m₁ hm₁ => ?_) h
    obtain ⟨l, hl, hm₁⟩ := bind_ok hm₁
    obtain ⟨r, hr, hm₁⟩ := bind_ok hm₁
    exact ⟨_, .rel hop hl hr, hm₁⟩
  case h_3 hop =>
    refine advances_store (fun m₁ hm₁ => ?_) h
    obtain ⟨v, hv, hm₁⟩ := bind_ok hm₁
    exact ⟨v, .assign hop hv, hm₁⟩
  case h_4 hop =>
    obtain ⟨target, hresult, rfl⟩ := jump_next h
    exact .jump hop hresult
  case h_5 hop =>
    split at h
    · cases h
    · rename_i v hload
      split at h
      · rename_i htrue
        exact Step.next.inj h ▸ .pass hop hload htrue
      · rename_i hfalse
        obtain ⟨target, hresult, rfl⟩ := jump_next h
        exact .skip hop hload (by simpa using hfalse) hresult
  case h_6 hop =>
    split at h
    · cases h
    · rename_i line hline
      simp only [write] at h
      cases hwrite : Console.writeLine line m.console with
      | mk result console =>
        cases result with
        | error reason =>
          simp only [hwrite, Except.mapError] at h
          cases h
        | ok _ =>
          simp only [hwrite, Except.mapError] at h
          exact Step.next.inj h ▸ .write hop hline hwrite
  case h_7 hop =>
    split at h
    · rename_i m₁ hread
      exact Step.next.inj h ▸ advances_read hop hread
    · cases h
  case h_8 hop =>
    simp only [announce] at h
    split at h
    · cases h
    · rename_i function hlisted
      exact Step.next.inj h ▸ .announce hop hlisted
  case h_9 hop => exact advances_param hop h
  case h_10 hop => exact advances_call hop h
  case h_11 hop =>
    split at h
    · rename_i v hload
      exact .giveBack hop hload rfl (leave_comesBack h)
    · cases h
  case h_12 hop => exact .endFunction hop (leave_comesBack h)
  case h_13 => cases h
  case h_14 => cases h

variable {conv : Conversion}

/-- A call that is run starts its function, in the frame that waited on top. -/
theorem Advances.of_call (h : Advances conv p m q m') (hop : q.op = .call) :
    ∃ frame pending, m.pending = frame :: pending ∧ m' = { m with
      frame
      index := frame.function.entry
      callers := { frame := m.frame, index := m.index } :: m.callers
      pending } := by
  cases h
  case call frame pending op waiting => exact ⟨frame, pending, waiting, rfl⟩
  case store computes puts =>
    have hruns := computes.runsOn
    simp [hop, Opcode.runsOn] at hruns
  all_goals simp_all

/-- A conditional jump goes on by whether its condition counts as true. -/
theorem Advances.of_gotoFalse (h : Advances conv p m q m') (hop : q.op = .gotoFalse) {target : Nat}
    (hresult : q.result = .jump target) : ∃ v, load p m q.left = .ok v ∧
      m' = { m with index := if v.isTrue then m.index + 1 else target } := by
  cases h
  case pass v op condition holds => exact ⟨v, condition, by rw [if_pos holds]⟩
  case skip v target' op condition fails result =>
    obtain rfl : target' = target := Int.ofNat.inj (Operand.jump.inj (result.symm.trans hresult))
    exact ⟨v, condition, by simp [fails]⟩
  case store computes puts =>
    have hruns := computes.runsOn
    cases computes <;> simp_all
  all_goals simp_all

theorem Advances.of_announce (h : Advances conv p m q m') (hop : q.op = .announce) :
    ∃ function, p.functions.get? q.result.functionName = some function ∧
      m' = { m with pending := { function } :: m.pending, index := m.index + 1 } := by
  cases h
  case announce function op listed => exact ⟨function, listed, rfl⟩
  case store computes puts =>
    have hruns := computes.runsOn
    simp [hop, Opcode.runsOn] at hruns
  all_goals simp_all

theorem Advances.of_param (h : Advances conv p m q m') (hop : q.op = .param) :
    ∃ frame pending v w address place, m.pending = frame :: pending ∧ load p m q.left = .ok v ∧
      q.result.target? = some address ∧ Address.place? address = some place ∧
      conv v place.type w ∧ m' = { m with
        pending := { frame with locals := frame.locals.set address w } :: pending
        index := m.index + 1 } := by
  cases h
  case param frame pending v w address place op waiting argument slot placed segment converted =>
    exact ⟨frame, pending, v, w, address, place, waiting, argument, slot, placed, converted, rfl⟩
  case store computes puts =>
    have hruns := computes.runsOn
    simp [hop, Opcode.runsOn] at hruns
  all_goals simp_all

end Advances

/-! ### Steps that stop -/

/-- The machine that a step leads to. -/
def Step.machine : Step κ → Machine κ
  | next m | finished m | faulted _ m => m

/-- The activations of a machine, the one being run first. -/
def activations (m : Machine κ) : List Frame :=
  m.frame :: m.callers.map (·.frame)

/-- Nothing was stored: the globals, the frames that wait and the activations that are left are as
they were. -/
structure Untouched (m m' : Machine κ) : Prop where
  globals : m'.globals = m.globals
  activations : m'.activations <:+ m.activations
  pending : m'.pending = m.pending

theorem Untouched.refl (m : Machine κ) : Untouched m m := ⟨rfl, List.suffix_refl _, rfl⟩

/-- A step that stores nothing if it stops. -/
def Step.Untouching (m : Machine κ) : Step κ → Prop
  | next _ => True
  | finished m' | faulted _ m' => Untouched m m'

theorem continueWith_untouching {m₁ : Machine κ} (h : Untouched m m₁)
    (result : Except Fault.Cause (Machine κ)) : (continueWith p m₁ result).Untouching m := by
  cases result with
  | ok m' => trivial
  | error cause => exact h

theorem leave_untouching (m : Machine κ) (value : Option Value) :
    (leave p m value).Untouching m := by
  simp only [leave]
  split
  · exact .refl m
  · rename_i caller callers hcallers
    have hback : Untouched m { m with frame := caller.frame, index := caller.index, callers } := by
      refine ⟨rfl, ?_, rfl⟩
      simp only [activations, hcallers, List.map_cons]
      exact List.suffix_cons _ _
    split
    · exact hback
    · exact continueWith_untouching hback _

theorem read_untouching [Console κ] {operand : Operand} {cause : Fault.Cause}
    (h : read m operand = (.error cause, m')) : Untouched m m' := by
  have hconsole : ∀ console, Untouched m { m with console } :=
    fun _ => ⟨rfl, List.suffix_refl _, rfl⟩
  simp only [read] at h
  split at h
  · exact (Prod.mk.inj h).2 ▸ .refl m
  · split at h
    · exact (Prod.mk.inj h).2 ▸ .refl m
    · split at h
      · exact (Prod.mk.inj h).2 ▸ hconsole _
      · split at h
        · cases h
        · exact (Prod.mk.inj h).2 ▸ hconsole _

/-- Whatever the program, a step that stops stores nothing. -/
theorem step_untouching [Console κ] (p : Program) (limit : Int) (m : Machine κ) :
    (step p limit m).Untouching m := by
  have hself (result : Except Fault.Cause (Machine κ)) :
      (continueWith p m result).Untouching m := continueWith_untouching (.refl m) result
  have hfault (cause : Fault.Cause) : (fault p m cause).Untouching m := .refl m
  simp only [step]
  split
  · exact leave_untouching m none
  · simp only [execute]
    split
    · exact hself _
    · exact hself _
    · exact hself _
    · split
      · trivial
      · exact hfault _
    · split
      · exact hfault _
      · split
        · trivial
        · split
          · trivial
          · exact hfault _
    · split
      · exact hfault _
      · simp only [write]
        split
        · trivial
        · rename_i hwrite
          obtain ⟨_, rfl⟩ := Prod.mk.inj hwrite
          exact ⟨rfl, List.suffix_refl _, rfl⟩
    · split
      · trivial
      · rename_i hread
        exact read_untouching hread
    · exact hself _
    · exact hself _
    · split
      · trivial
      · exact hfault _
    · split
      · exact leave_untouching m _
      · exact hfault _
    · exact leave_untouching m none
    · exact .refl m
    · exact hfault _

/-- What a step does, whether it goes on or stops: the values that it stores are changed as a
conversion says, and where it stops nothing is stored and nothing given back. -/
def Step.Obeys [Console κ] (conv : Conversion) (p : Program) (m : Machine κ) (q : Quad) :
    Step κ → Prop
  | next m' => Advances conv p m q m'
  | finished m' | faulted _ m' =>
    Untouched m m' ∧ (q.op = .giveBack → ∀ v, load p m q.result ≠ .ok v)

end Machine

end DuckLang
