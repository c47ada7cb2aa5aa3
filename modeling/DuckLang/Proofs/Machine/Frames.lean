import DuckLang.Machine
import DuckLang.Proofs.Emitter.Names

/-! Frames of a running program.  A program `LaidOut` along points tells at each of them what the
frame of the function being run holds: its parameters and the temporaries that are known there.
What code reads is then either written or a variable that the program never gave a value, and what
it writes to can be written. -/

namespace DuckLang

open Emitter

theorem Memory.get?_set (m : Memory) (address other : Int) (v : Value) :
    (m.set address v).get? other = if other = address then some v else m.get? other := by
  obtain ⟨cells⟩ := m
  simp only [Memory.set, Memory.get?]
  induction cells with
  | nil =>
    by_cases h : other = address
    · simp [Memory.setCell, h]
    · simp [Memory.setCell, h, List.lookup_cons, beq_false_of_ne h]
  | cons cell rest ih =>
    obtain ⟨a, w⟩ := cell
    simp only [Memory.setCell]
    by_cases ha : a = address
    · rw [if_pos ha]
      by_cases h : other = address
      · simp [h]
      · simp [h, List.lookup_cons, beq_false_of_ne h, ha]
    · rw [if_neg ha]
      by_cases h : other = a
      · simp [h, ha]
      · simp only [List.lookup_cons, beq_false_of_ne h, ih]

theorem Memory.isSome_set {m : Memory} {address other : Int} {v : Value}
    (h : (m.get? other).isSome) : ((m.set address v).get? other).isSome := by
  rw [Memory.get?_set]
  split
  · rfl
  · exact h

/-- A program whose code is laid out along points, with the names that a scope declares. -/
structure Program.LaidOut (p : Program) (s : Scope) (points : List Point) : Prop where
  names : ∃ opened, Names s p.functions opened points
  laid : ∃ temps, temps ≤ Address.rangeSize ∧
    Laid { scope := s, strings := p.strings.length, temps } p.quads points
  resolved : ∀ q ∈ p.quads, q.result.isPending = false
  main : (p.functions.get? mainName).isSome
  ends : ∀ P ∈ points[p.quads.size]?, P.calls = []

section

variable {p : Program} {s : Scope} {points : List Point}

/-- What the quadruple at a point does there. -/
theorem Program.LaidOut.flows (hp : p.LaidOut s points) {k : Nat} {P : Point}
    (hP : points[k]? = some P) {q : Quad} (hq : p.quads[k]? = some q) :
    ∃ temps P', temps ≤ Address.rangeSize ∧ points[k + 1]? = some P' ∧
      Flows { scope := s, strings := p.strings.length, temps } points P q P' := by
  obtain ⟨temps, htemps, hlaid⟩ := hp.laid
  obtain ⟨A, P', hA, hP', hflows⟩ := hlaid.flows hq
  obtain rfl : P = A := Option.some.inj (hP.symm.trans hA)
  exact ⟨temps, P', htemps, hP', hflows⟩

/-- A call that is announced is not one of the program. -/
theorem Program.LaidOut.announced (hp : p.LaidOut s points) {k : Nat} {P : Point}
    (hP : points[k]? = some P) {c : Call} (hc : c ∈ P.calls) : c.function ≠ s.program := by
  obtain ⟨temps, _, hlaid⟩ := hp.laid
  exact (hlaid.calls P (List.mem_of_getElem? hP) c hc).2

/-- What the directory says of a function is what its entry says. -/
theorem Program.LaidOut.describes (hp : p.LaidOut s points) {name : String} {entry : Scope.Entry}
    (hentry : s.entryOf? name = some entry) (hprogram : name ≠ s.program) {function : FunctionInfo}
    (hfunction : p.functions.get? name = some function) : Describes points entry function := by
  obtain ⟨opened, hnames⟩ := hp.names
  obtain ⟨info, hinfo, hdescribes⟩ := hnames.functions hentry hprogram
  obtain rfl : info = function := Option.some.inj (hinfo.symm.trans hfunction)
  exact hdescribes

end

/-- The causes that a program may stop with: a variable that was never written, be it global or one
that the function being run declares for itself, a division by zero, a call that gives no value or
that is one too many, and a console that fails or gives what cannot be read. -/
def Fault.Cause.IsListed (s : Scope) (functions : Directory) (function : String) :
    Fault.Cause → Prop
  | unwritten .globals address =>
    ∃ entry, s.entryOf? s.program = some entry ∧ ∃ symbol ∈ entry.symbols, symbol.address = address
  | unwritten .locals address =>
    ∃ entry, s.entryOf? function = some entry ∧
      (∃ symbol ∈ entry.symbols, symbol.origin = .variable ∧ symbol.address = address) ∧
      ∀ param ∈ entry.params, param.address ≠ address
  | noReturn name => ∃ info, functions.get? name = some info ∧ info.hasReturn = true
  | divisionByZero | depthExceeded _ _ | readFailed _ | writeFailed _ | notAn _ _ => True
  | _ => False

namespace Machine

/-- A result that is as it should be, or a cause that is allowed. -/
def Safe {α : Type} (allowed : Fault.Cause → Prop) (Q : α → Prop) : Except Fault.Cause α → Prop
  | .ok a => Q a
  | .error cause => allowed cause

theorem Safe.bind {α β : Type} {allowed : Fault.Cause → Prop} {Q : α → Prop} {R : β → Prop}
    {result : Except Fault.Cause α} {f : α → Except Fault.Cause β} (h : Safe allowed Q result)
    (hf : ∀ a, Q a → Safe allowed R (f a)) : Safe allowed R (result >>= f) := by
  cases result with
  | ok a => exact hf a h
  | error cause => exact h

theorem Safe.cases {α : Type} {allowed : Fault.Cause → Prop} {Q : α → Prop}
    {result : Except Fault.Cause α} (h : Safe allowed Q result) :
    (∃ a, result = .ok a ∧ Q a) ∨ ∃ cause, result = .error cause ∧ allowed cause := by
  cases result with
  | ok a => exact .inl ⟨a, rfl, h⟩
  | error cause => exact .inr ⟨cause, rfl, h⟩

theorem Safe.mono {α : Type} {allowed : Fault.Cause → Prop} {Q R : α → Prop}
    {result : Except Fault.Cause α} (h : Safe allowed Q result) (hQ : ∀ a, Q a → R a) :
    Safe allowed R result := by
  cases result with
  | ok a => exact hQ a h
  | error cause => exact h

variable {κ : Type} {p : Program} {s : Scope} {points : List Point}

/-- A frame that holds what is known at a point. -/
structure Frame.Holds (functions : Directory) (frame : Frame) (P : Point) : Prop where
  name : frame.function.name = P.function
  function : functions.get? P.function = some frame.function
  params : ∀ param ∈ frame.function.params, (frame.locals.get? param.address).isSome
  temps : ∀ {id : Int} {type : DataType}, (id, type) ∈ P.temps →
    (∃ offset, Address.place? (Address.ofTemporary type id) =
      some { segment := .temporaries, type, offset }) ∧
      (frame.temps.get? (Address.ofTemporary type id)).isSome

/-- A frame that waits for a call to be run, with the arguments copied so far. -/
structure Frame.Awaits (functions : Directory) (frame : Frame) (c : Call) : Prop where
  name : frame.function.name = c.function
  function : functions.get? c.function = some frame.function
  params : ∀ param ∈ frame.function.params.take c.arguments,
    (frame.locals.get? param.address).isSome

theorem Frame.Holds.lead {functions : Directory} {frame : Frame} {P P' : Point}
    (h : frame.Holds functions P) {calls : List Call} (hleads : P.Leads P.temps calls P') :
    frame.Holds functions P' where
  name := by rw [hleads.function, h.name]
  function := by rw [hleads.function, h.function]
  params := h.params
  temps hmem := h.temps (hleads.temps hmem)

/-! ### Reading -/

/-- A readable operand has a value, or is a variable that was never written. -/
theorem load_safe (hp : p.LaidOut s points) {env : Env} (henv : env.scope = s) {m : Machine κ}
    {P : Point} (hframe : m.frame.Holds p.functions P) {operand : Operand}
    (h : Readable env P operand) :
    Safe (Fault.Cause.IsListed s p.functions m.frame.function.name) (fun _ => True)
      (load p m operand) := by
  subst henv
  obtain ⟨opened, hnames⟩ := hp.names
  cases operand with
  | intLiteral n => trivial
  | floatLiteral x => trivial
  | charLiteral n => trivial
  | temporary id type =>
    obtain ⟨⟨offset, hplace⟩, hsome⟩ := hframe.temps h
    obtain ⟨v, hv⟩ := Option.isSome_iff_exists.mp hsome
    simp only [load, Operand.literal?, Operand.target?, hplace, hv]
    trivial
  | address location type =>
    obtain ⟨owner, entry, symbol, howner, hentry, hsymbol, rfl, _⟩ := h
    have hsound := hnames.entries hentry
    obtain ⟨place, hplace, hsegment⟩ := hsound.placed symbol hsymbol
    by_cases hprogram : owner = env.scope.program
    · rw [Scope.segmentOf, if_pos hprogram] at hsegment
      simp only [load, Operand.literal?, Operand.target?, hplace, hsegment]
      cases hfound : m.globals.get? symbol.address with
      | some v => trivial
      | none =>
        refine ⟨entry, ?_, symbol, hsymbol, rfl⟩
        rw [← hprogram]
        exact hentry
    · obtain rfl := howner.resolve_left hprogram
      rw [Scope.segmentOf, if_neg hprogram] at hsegment
      have hdescribes := hp.describes hentry hprogram hframe.function
      simp only [load, Operand.literal?, Operand.target?, hplace, hsegment]
      cases hfound : m.frame.locals.get? symbol.address with
      | some v => trivial
      | none =>
        -- a parameter would have been written
        have hparams : ∀ param ∈ entry.params, param.address ≠ symbol.address := by
          intro param hparam haddress
          have hsome := hframe.params { type := param.type, address := param.address } (by
            rw [hdescribes.params]
            exact List.mem_map_of_mem hparam)
          simp [haddress, hfound] at hsome
        refine ⟨entry, ?_, ⟨symbol, hsymbol, ?_, rfl⟩, hparams⟩
        · rw [hframe.name]
          exact hentry
        · cases horigin : symbol.origin
          · rfl
          · exact absurd rfl (hparams symbol (hsound.listed symbol hsymbol horigin))
  | _ => exact absurd h (by simp [Readable])

/-! ### Writing -/

/-- Machines that stand at the same place of the same functions. -/
structure SamePlace (m' m : Machine κ) : Prop where
  index : m'.index = m.index
  function : m'.frame.function = m.frame.function
  callers : m'.callers = m.callers
  pending : m'.pending = m.pending

/-- A variable lies among the globals or the locals. -/
theorem assignable_place (hp : p.LaidOut s points) {env : Env} (henv : env.scope = s) {P : Point}
    {operand : Operand} (h : Assignable env P operand) :
    ∃ location type place, operand = .address location type ∧
      Address.place? location = some place ∧
      (place.segment = .globals ∨ place.segment = .locals) := by
  subst henv
  obtain ⟨opened, hnames⟩ := hp.names
  obtain ⟨location, type, rfl, owner, entry, symbol, _, hentry, hsymbol, rfl, _⟩ := h
  obtain ⟨place, hplace, hsegment⟩ := (hnames.entries hentry).placed symbol hsymbol
  refine ⟨_, type, place, rfl, hplace, ?_⟩
  rw [hsegment, Scope.segmentOf]
  split
  · exact .inl rfl
  · exact .inr rfl

/-- A variable can be written. -/
theorem store_assignable (hp : p.LaidOut s points) {env : Env} (henv : env.scope = s)
    {m : Machine κ} {P : Point} (hframe : m.frame.Holds p.functions P) {operand : Operand}
    (h : Assignable env P operand) (v : Value) :
    ∃ m', store m operand v = .ok m' ∧ SamePlace m' m ∧ m'.frame.Holds p.functions P := by
  obtain ⟨location, type, place, rfl, hplace, hsegment⟩ := assignable_place hp henv h
  simp only [store, Operand.target?, hplace]
  rcases hsegment with hglobals | hlocals
  · simp only [hglobals]
    exact ⟨_, rfl, ⟨rfl, rfl, rfl, rfl⟩, hframe⟩
  · simp only [hlocals]
    refine ⟨_, rfl, ⟨rfl, rfl, rfl, rfl⟩, hframe.name, hframe.function, ?_, hframe.temps⟩
    exact fun param hparam => Memory.isSome_set (hframe.params param hparam)

/-- The address of a temporary of which there are not too many. -/
theorem place?_temporary {env : Env} {id : Int} {type : DataType} (h : env.Minted id type)
    (htemps : env.temps ≤ Address.rangeSize) :
    Address.place? (Address.ofTemporary type id) =
      some { segment := .temporaries, type, offset := id.toNat } := by
  obtain ⟨hpos, hlt, hstorable⟩ := h
  have hsmall : Address.ofTemporary type id = Address.low .temporaries type + id.toNat := by
    have hcode : type.code ≤ 2 := by cases type <;> first | decide | cases hstorable
    have hcast : ((id.toNat : Nat) : Int) = id := Int.toNat_of_nonneg hpos
    simp only [Address.ofTemporary, Address.wrap, Address.low, Address.base, Segment.index,
      Address.rangeSize, hcast] at htemps ⊢
    apply Int.bmod_eq_of_le <;> omega
  rw [hsmall]
  exact Address.place?_low hstorable (by omega)

/-- A temporary can be written, and is known from then on. -/
theorem store_temporary {env : Env} (htemps : env.temps ≤ Address.rangeSize) {m : Machine κ}
    {functions : Directory} {P P' : Point} (hframe : m.frame.Holds functions P) {id : Int}
    {type : DataType} (hminted : env.Minted id type) {calls : List Call}
    (hleads : P.Leads ((id, type) :: P.temps) calls P') (v : Value) :
    ∃ m', store m (.temporary id type) v = .ok m' ∧ SamePlace m' m ∧
      m'.frame.Holds functions P' := by
  have hplace := place?_temporary hminted htemps
  simp only [store, Operand.target?, hplace]
  refine ⟨_, rfl, ⟨rfl, rfl, rfl, rfl⟩, ?_, ?_, hframe.params, ?_⟩
  · rw [hleads.function, ← hframe.name]
  · rw [hleads.function, hframe.function]
  · intro id' type' hmem
    rcases List.mem_cons.mp (hleads.temps hmem) with heq | hold
    · obtain ⟨rfl, rfl⟩ := Prod.mk.inj heq
      exact ⟨⟨_, hplace⟩, by simp [Memory.get?_set]⟩
    · obtain ⟨hin, hsome⟩ := hframe.temps hold
      exact ⟨hin, Memory.isSome_set hsome⟩

end Machine

end DuckLang
