import DuckLang.Proofs.Machine.Frames

/-! Safety of a running program.  A machine stands `At` a point: its frame holds what is known
there, each call announced there has its frame and every caller stands at the call it waits for.
Whatever a quadruple does, the machine then stands at a point again, has finished or stops with a
cause that is listed. -/

namespace DuckLang.Machine

open Emitter

variable {κ : Type} {p : Program} {s : Scope} {points : List Point}

/-- The callers of a function, each at its call, and the frames that wait for calls of theirs. -/
inductive Stacked (p : Program) (points : List Point) :
    FunctionInfo → List Caller → List Frame → Prop where
  | nil {function : FunctionInfo} (main : function.name = mainName) :
      Stacked p points function [] []
  | cons {function : FunctionInfo} {frame : Frame} {k : Nat} {q : Quad} {P : Point} {c : Call}
      {calls : List Call} {callers : List Caller} {front back : List Frame}
      (quad : p.quads[k]? = some q) (op : q.op = .call) (point : points[k]? = some P)
      (announced : P.calls = c :: calls) (called : p.functions.get? c.function = some function)
      (holds : frame.Holds p.functions P)
      (awaits : List.Forall₂ (Frame.Awaits p.functions) front calls)
      (rest : Stacked p points frame.function callers back) :
      Stacked p points function ({ frame, index := k } :: callers) (front ++ back)

/-- A machine at a point, with what is known there. -/
structure At (p : Program) (points : List Point) (k : Nat) (m : Machine κ) (P : Point) :
    Prop where
  index : m.index = k
  point : points[k]? = some P
  frame : m.frame.Holds p.functions P
  stacked : ∃ front back, m.pending = front ++ back ∧
    List.Forall₂ (Frame.Awaits p.functions) front P.calls ∧
    Stacked p points m.frame.function m.callers back

/-- A step to a machine at a point, to the end or to a fault with a cause that is listed. -/
def Step.Goes (s : Scope) (p : Program) (points : List Point) : Step κ → Prop
  | next m => ∃ k P, At p points k m P
  | finished _ => True
  | faulted f m => f.cause.IsListed s p.functions m.frame.function.name

variable {m : Machine κ} {k : Nat} {P P' : Point} {q : Quad}

/-- A machine goes on where the next point asks for what is then known. -/
theorem At.goOn (h : At p points k m P) (hP' : points[k + 1]? = some P') {m' : Machine κ}
    (hsame : SamePlace m' m) (hframe : m'.frame.Holds p.functions P')
    (hcalls : P'.calls = P.calls) : m'.goOn.Goes s p points := by
  obtain ⟨front, back, hpending, hawaits, hstacked⟩ := h.stacked
  refine ⟨k + 1, P', ?_, hP', hframe, front, back, ?_, ?_, ?_⟩
  · simp [hsame.index, h.index]
  · exact hsame.pending.trans hpending
  · rwa [hcalls]
  · change Stacked p points m'.frame.function m'.callers back
    rwa [hsame.function, hsame.callers]

theorem Safe.continueWith {result : Except Fault.Cause (Machine κ)}
    (h : Safe (Fault.Cause.IsListed s p.functions m.frame.function.name)
      (fun m' => m'.goOn.Goes s p points) result) :
    (continueWith p m result).Goes s p points := by
  cases result with
  | ok m' => exact h
  | error cause => exact h

/-! ### Calls -/

/-- The call announced last has its frame. -/
theorem At.innermost (h : At p points k m P) {c : Call} {calls : List Call}
    (hcalls : P.calls = c :: calls) : ∃ frame front back, m.pending = frame :: (front ++ back) ∧
      frame.Awaits p.functions c ∧ List.Forall₂ (Frame.Awaits p.functions) front calls ∧
      Stacked p points m.frame.function m.callers back := by
  obtain ⟨front, back, hpending, hawaits, hstacked⟩ := h.stacked
  rw [hcalls] at hawaits
  cases hawaits with
  | cons hframe hrest => exact ⟨_, _, back, hpending, hframe, hrest, hstacked⟩

/-- A call delivers its value where its caller knows it from then on. -/
theorem deliver_safe {env : Env} (htemps : env.temps ≤ Address.rangeSize)
    (hframe : m.frame.Holds p.functions P) {entry : Scope.Entry} {function : FunctionInfo}
    (hdescribes : Describes points entry function)
    (hlisted : p.functions.get? function.name = some function) {calls : List Call}
    (hresult : (entry.returns = .void ∧ q.result = .empty ∧ P.Leads P.temps calls P') ∨
      (entry.returns ≠ .void ∧ ∃ id, q.result = .temporary id entry.returns ∧
        env.Minted id entry.returns ∧ P.Leads ((id, entry.returns) :: P.temps) calls P'))
    (value : Option Value) :
    Safe (Fault.Cause.IsListed s p.functions m.frame.function.name)
      (fun m' => SamePlace m' m ∧ m'.frame.Holds p.functions P') (deliver m function q value) := by
  rcases hresult with ⟨hvoid, hempty, hleads⟩ | ⟨hreturns, id, htemporary, hminted, hleads⟩
  · have hno : function.hasReturn = false := by
      simp [hdescribes.gives, hvoid]
    have hframe' : m.frame.Holds p.functions P' := hframe.lead hleads
    cases value with
    | some v =>
      simp only [deliver, hempty, Operand.isEmpty, if_true]
      exact ⟨⟨rfl, rfl, rfl, rfl⟩, hframe'⟩
    | none =>
      simp only [deliver, hempty, Operand.isEmpty, hno, if_true, Bool.false_eq_true, if_false]
      exact ⟨⟨rfl, rfl, rfl, rfl⟩, hframe'⟩
  · have hyes : function.hasReturn = true := by
      simp [hdescribes.gives, hreturns]
    cases value with
    | some v =>
      simp only [deliver, htemporary, Operand.isEmpty, Bool.false_eq_true, if_false]
      obtain ⟨m', hstore, hsame, hframe'⟩ := store_temporary htemps hframe hminted hleads v
      rw [hstore]
      exact ⟨hsame, hframe'⟩
    | none =>
      simp only [deliver, hyes, if_true]
      exact ⟨function, hlisted, hyes⟩

/-- A call that is announced has its frame from then on. -/
theorem At.announce (hp : p.LaidOut s points) (h : At p points k m P)
    (hP' : points[k + 1]? = some P') {name : String} (hcallable : s.Callable name)
    (hleads : P.Leads P.temps ({ function := name, arguments := 0 } :: P.calls) P') :
    Safe (Fault.Cause.IsListed s p.functions m.frame.function.name)
      (fun m' => m'.goOn.Goes s p points) (announce p m name) := by
  obtain ⟨front, back, hpending, hawaits, hstacked⟩ := h.stacked
  obtain ⟨opened, hnames⟩ := hp.names
  obtain ⟨hsome, hprogram⟩ := hcallable
  obtain ⟨entry, hentry⟩ := Option.isSome_iff_exists.mp hsome
  obtain ⟨info, hinfo, hdescribes⟩ := hnames.functions hentry hprogram
  simp only [Machine.announce, hinfo]
  refine ⟨k + 1, P', by simp [h.index], hP', h.frame.lead hleads, { function := info } :: front,
    back, by simp [hpending], ?_, hstacked⟩
  rw [hleads.calls]
  refine .cons ⟨?_, hinfo, by simp⟩ hawaits
  exact hdescribes.name.trans (Scope.entryOf?_name hentry)

/-- An argument is copied into the parameter it is meant for. -/
theorem Frame.Awaits.param {frame : Frame} {c : Call} (h : frame.Awaits p.functions c)
    {entry : Scope.Entry} (hdescribes : Describes points entry frame.function)
    {param : Symbol} (hparam : entry.params[c.arguments]? = some param) (v : Value) :
    Frame.Awaits p.functions { frame with locals := frame.locals.set param.address v }
      { c with arguments := c.arguments + 1 } where
  name := h.name
  function := h.function
  params := by
    intro slot hslot
    change slot ∈ frame.function.params.take (c.arguments + 1) at hslot
    rw [List.take_add_one, List.mem_append] at hslot
    rcases hslot with hold | hnew
    · exact Memory.isSome_set (h.params slot hold)
    · rw [hdescribes.params, List.getElem?_map, hparam] at hnew
      obtain rfl := List.mem_singleton.mp hnew
      simp [Memory.get?_set]

theorem At.param (hp : p.LaidOut s points) (h : At p points k m P)
    (hP' : points[k + 1]? = some P') {env : Env} (henv : env.scope = s) {c : Call}
    {calls : List Call} {entry : Scope.Entry} (hcalls : P.calls = c :: calls)
    (hentry : s.entryOf? c.function = some entry) {slot : Symbol}
    (hslot : entry.params[c.arguments]? = some slot) {type : DataType}
    (hresult : q.result = .address slot.address type) (hleft : Readable env P q.left)
    (hleads : P.Leads P.temps ({ c with arguments := c.arguments + 1 } :: calls) P') :
    Safe (Fault.Cause.IsListed s p.functions m.frame.function.name)
      (fun m' => m'.goOn.Goes s p points) (param p m q) := by
  obtain ⟨frame, front, back, hpending, hframe, hrest, hstacked⟩ := h.innermost hcalls
  have hprogram := hp.announced h.point (c := c) (by simp [hcalls])
  have hdescribes := hp.describes hentry hprogram hframe.function
  obtain ⟨⟨segment, type', offset⟩, hplace, rfl⟩ : Address.In .locals slot.address := by
    obtain ⟨opened, hnames⟩ := hp.names
    have hsound := hnames.entries hentry
    rw [Scope.segmentOf, if_neg hprogram] at hsound
    exact hsound.placed slot (hsound.declared slot (List.mem_of_getElem? hslot))
  simp only [Machine.param, hpending]
  rcases (load_safe hp henv h.frame hleft).cases with ⟨v, hload, _⟩ | ⟨cause, hload, hlisted⟩
  · simp only [hload, hresult, Operand.target?, hplace]
    refine ⟨k + 1, P', by simp [h.index], hP', h.frame.lead hleads, _ :: front, back, rfl, ?_,
      hstacked⟩
    rw [hleads.calls]
    exact .cons (hframe.param hdescribes hslot _) hrest
  · rw [hload]
    exact hlisted

/-- Where nothing is announced, a function may be left, with a value or without. -/
theorem At.leave (hp : p.LaidOut s points) (h : At p points k m P) (hcalls : P.calls = [])
    (value : Option Value) : (leave p m value).Goes s p points := by
  obtain ⟨front, back, hpending, hawaits, hstacked⟩ := h.stacked
  rw [hcalls] at hawaits
  cases hawaits
  rw [List.nil_append] at hpending
  simp only [Machine.leave]
  generalize m.frame.function = function at hstacked ⊢
  generalize m.callers = callers at hstacked ⊢
  cases hstacked with
  | nil main => trivial
  | cons quad op point announced called holds awaits rest =>
    rename_i frame k' q P c calls callers front back
    obtain ⟨temps, P', htemps, hP', hflows⟩ := hp.flows point quad
    simp only [Flows, op] at hflows
    obtain ⟨c', calls', entry, hinner, _, _, hresult⟩ := hflows
    obtain ⟨rfl, rfl⟩ := List.cons.inj (announced.symm.trans hinner.calls)
    have hdescribes := hp.describes hinner.entry (hp.announced point (by simp [announced])) called
    have hname : function.name = c.function :=
      hdescribes.name.trans (Scope.entryOf?_name hinner.entry)
    have hquad : quad? p k' = some q := by simp [quad?, quad]
    simp only [hquad]
    refine Safe.continueWith (Safe.mono (deliver_safe htemps holds hdescribes (by rwa [hname])
      hresult value) ?_)
    rintro m' ⟨hsame, hframe⟩
    refine ⟨k' + 1, P', ?_, hP', hframe, front, back, ?_, ?_, ?_⟩
    · simp [hsame.index]
    · exact hsame.pending.trans hpending
    · rcases hresult with ⟨_, _, hleads⟩ | ⟨_, _, _, _, hleads⟩
      · rwa [hleads.calls]
      · rwa [hleads.calls]
    · change Stacked p points m'.frame.function m'.callers back
      rwa [hsame.function, hsame.callers]

/-- A call that is announced has its frame, with all of its parameters once it has its arguments. -/
theorem At.call (hp : p.LaidOut s points) (h : At p points k m P)
    (hq : p.quads[k]? = some q) (hop : q.op = .call) {c : Call} {calls : List Call}
    (hcalls : P.calls = c :: calls) {entry : Scope.Entry}
    (hentry : s.entryOf? c.function = some entry) (hcount : c.arguments = entry.params.length)
    (hleft : q.left = .function c.function) (limit : Int) :
    Safe (Fault.Cause.IsListed s p.functions m.frame.function.name)
      (fun m' => ∃ k P, At p points k m' P) (call limit m q) := by
  obtain ⟨frame, front, back, hpending, hframe, hrest, hstacked⟩ := h.innermost hcalls
  have hprogram := hp.announced h.point (c := c) (by simp [hcalls])
  have hdescribes := hp.describes hentry hprogram hframe.function
  simp only [Machine.call, hpending, hleft, Operand.functionName, hframe.name, ne_eq,
    not_true_eq_false, if_false]
  split
  · trivial
  · obtain ⟨start, hstart, hresting⟩ := hdescribes.start
    refine ⟨start, _, hstart, hresting, ⟨?_, ?_, ?_, by simp [Point.resting]⟩, [], front ++ back,
      rfl, .nil, ?_⟩
    · exact hdescribes.name
    · rw [← hframe.function, Scope.entryOf?_name hentry]
      rfl
    · intro param hparam
      refine hframe.params param ?_
      rw [hcount, List.take_of_length_le]
      · exact hparam
      · simp [hdescribes.params]
    · rw [h.index]
      exact .cons hq hop h.point hcalls hframe.function h.frame hrest hstacked

/-! ### Other quadruples -/

/-- Only a division by zero keeps arithmetic from giving a value. -/
theorem arith_error {op : ArithOp} {l r : Value} {cause : Fault.Cause}
    (h : arith op l r = .error cause) : cause = .divisionByZero := by
  simp only [arith] at h
  split at h
  · split at h
    · exact (Except.error.inj h).symm
    · cases h
  · split at h
    · exact (Except.error.inj h).symm
    · cases h

/-- What is computed goes to a temporary. -/
theorem At.compute (h : At p points k m P) (hP' : points[k + 1]? = some P') {env : Env}
    (htemps : env.temps ≤ Address.rangeSize) {id : Int} {type : DataType}
    (hminted : env.Minted id type) (hleads : P.Leads ((id, type) :: P.temps) P.calls P')
    (v : Value) :
    Safe (Fault.Cause.IsListed s p.functions m.frame.function.name)
      (fun m' => m'.goOn.Goes s p points) (m.store (.temporary id type) v) := by
  obtain ⟨m', hstore, hsame, hframe⟩ := store_temporary htemps h.frame hminted hleads v
  rw [hstore]
  exact h.goOn (s := s) hP' hsame hframe hleads.calls

/-- A jump leads to a point of the program. -/
theorem At.jump (hp : p.LaidOut s points) (h : At p points k m P) {operand : Operand}
    (htarget : Target points P operand) (hresolved : operand.isPending = false)
    (hcalls : P.calls = []) : ∃ target, jumpTarget p operand = .ok target ∧
      ∃ k P, At p points k { m with index := target } P := by
  obtain ⟨temps, _, hlaid⟩ := hp.laid
  cases operand with
  | jump target =>
    obtain ⟨k', rfl, hrest⟩ := htarget
    have hlt := (List.getElem?_eq_some_iff.mp hrest).1
    have hsize := hlaid.size
    refine ⟨k', ?_, k', _, rfl, hrest, ?_, ?_⟩
    · simp only [jumpTarget]
      rw [if_pos (by omega)]
    · exact h.frame.lead ⟨rfl, by simp [Point.resting], rfl⟩
    · obtain ⟨front, back, hpending, hawaits, hstacked⟩ := h.stacked
      rw [hcalls] at hawaits
      exact ⟨front, back, hpending, hawaits, hstacked⟩
  | pending => cases hresolved
  | _ => cases htarget

/-- What is written has a line to print. -/
theorem lineOf_safe (hp : p.LaidOut s points) {env : Env} (henv : env.scope = s)
    (hstrings : env.strings = p.strings.length) (hframe : m.frame.Holds p.functions P)
    {operand : Operand} (h : Readable env P operand ∨
      ∃ index : Nat, operand = .text index ∧ index < env.strings) :
    Safe (Fault.Cause.IsListed s p.functions m.frame.function.name) (fun _ => True)
      (lineOf p m operand) := by
  rcases h with hreadable | ⟨index, rfl, hlt⟩
  · have hline : lineOf p m operand = (load p m operand).map Value.text := by
      cases operand with
      | text index => cases hreadable
      | _ => rfl
    rw [hline]
    rcases (load_safe hp henv hframe hreadable).cases with ⟨v, hload, _⟩ | ⟨cause, hload, hlisted⟩
    · rw [hload]
      trivial
    · rw [hload]
      exact hlisted
  · rw [hstrings] at hlt
    obtain ⟨bytes, hbytes⟩ : ∃ bytes, p.string? index = some bytes := by
      refine ⟨p.strings[index], ?_⟩
      simp only [Program.string?]
      rw [if_pos (by omega)]
      exact List.getElem?_eq_getElem hlt
    simp only [lineOf, hbytes]
    trivial

theorem parseInput_error {type : DataType} {text : String} {cause : Fault.Cause}
    (h : parseInput type text = .error cause) : cause = .notAn type text := by
  simp only [parseInput] at h
  split at h
  · cases h
  · exact (Except.error.inj h).symm

/-- A variable is read, unless the console fails or gives a text that is no value of its type. -/
theorem read_cases [Console κ] (hp : p.LaidOut s points) {env : Env} (henv : env.scope = s)
    (hframe : m.frame.Holds p.functions P) {operand : Operand} (h : Assignable env P operand) :
    (∃ m', read m operand = (.ok (), m') ∧ SamePlace m' m ∧ m'.frame.Holds p.functions P) ∨
      ∃ cause m', read m operand = (.error cause, m') ∧
        cause.IsListed s p.functions m'.frame.function.name := by
  have hstore : ∀ (console : κ) (v : Value), ∃ m', store { m with console } operand v = .ok m' ∧
      SamePlace m' { m with console } ∧ m'.frame.Holds p.functions P :=
    fun console v => store_assignable (m := { m with console }) hp henv hframe h v
  obtain ⟨location, type, place, rfl, hplace, _⟩ := assignable_place hp henv h
  simp only [read, Operand.target?, hplace]
  cases hline : Console.readLine m.console with
  | mk result console =>
    cases result with
    | error reason => exact .inr ⟨_, _, rfl, trivial⟩
    | ok line =>
      simp only
      cases hvalue : parseInput place.type (Text.trim line) with
      | ok v =>
        obtain ⟨m', hstored, hsame, hframe'⟩ := hstore console v
        simp only [Except.bind, hstored]
        exact .inl ⟨m', rfl, ⟨hsame.index, hsame.function, hsame.callers, hsame.pending⟩, hframe'⟩
      | error cause =>
        obtain rfl := parseInput_error hvalue
        exact .inr ⟨_, _, rfl, trivial⟩

/-! ### Runs -/

/-- Whatever a quadruple does, the machine stands at a point again, has finished or stops with a
cause that is listed. -/
theorem At.execute [Console κ] (hp : p.LaidOut s points) (h : At p points k m P)
    (hq : p.quads[k]? = some q) (limit : Int) : (execute p limit m q).Goes s p points := by
  have hresolved := hp.resolved q (Array.mem_of_getElem? hq)
  obtain ⟨temps, P', htemps, hP', hflows⟩ := hp.flows h.point hq
  simp only [Flows] at hflows
  simp only [Machine.execute]
  cases hop : q.op <;> simp only [hop] at hflows ⊢
  case arith op =>
    obtain ⟨hl, hr, id, type, hresult, _, hminted, hleads⟩ := hflows
    refine Safe.continueWith ((load_safe hp rfl h.frame hl).bind fun l _ =>
      (load_safe hp rfl h.frame hr).bind fun r _ => ?_)
    cases hvalue : arith op l r with
    | error cause =>
      obtain rfl := arith_error hvalue
      trivial
    | ok v =>
      rw [hresult]
      exact h.compute hP' htemps hminted hleads v
  case rel op =>
    obtain ⟨hl, hr, id, type, hresult, _, hminted, hleads⟩ := hflows
    refine Safe.continueWith ((load_safe hp rfl h.frame hl).bind fun l _ =>
      (load_safe hp rfl h.frame hr).bind fun r _ => ?_)
    rw [hresult]
    exact h.compute hP' htemps hminted hleads (compare op l r)
  case assign =>
    obtain ⟨hl, hassignable, _, hleads⟩ := hflows
    refine Safe.continueWith ((load_safe hp rfl h.frame hl).bind fun v _ => ?_)
    obtain ⟨m', hstore, hsame, hframe⟩ := store_assignable hp rfl h.frame hassignable v
    rw [hstore]
    exact h.goOn (s := s) hP' hsame (hframe.lead hleads) hleads.calls
  case goto =>
    obtain ⟨hcalls, htarget⟩ := hflows
    obtain ⟨target, hjump, hgoes⟩ := h.jump hp htarget hresolved hcalls
    rw [hjump]
    exact hgoes
  case gotoFalse =>
    obtain ⟨hl, hcalls, htarget, hleads⟩ := hflows
    obtain ⟨target, hjump, hgoes⟩ := h.jump hp htarget hresolved hcalls
    rcases (load_safe hp rfl h.frame hl).cases with
      ⟨condition, hload, _⟩ | ⟨cause, hload, hlisted⟩
    · simp only [hload, hjump]
      split
      · exact h.goOn (s := s) hP' ⟨rfl, rfl, rfl, rfl⟩ (h.frame.lead hleads) hleads.calls
      · exact hgoes
    · rw [hload]
      exact hlisted
  case write =>
    obtain ⟨hwritable, hleads⟩ := hflows
    rcases (lineOf_safe hp rfl rfl h.frame hwritable).cases with
      ⟨line, hline, _⟩ | ⟨cause, hline, hlisted⟩
    · simp only [hline, Machine.write]
      cases hwrite : Console.writeLine line m.console with
      | mk result console =>
        cases result with
        | error reason => trivial
        | ok _ => exact h.goOn (s := s) hP' ⟨rfl, rfl, rfl, rfl⟩ (h.frame.lead hleads) hleads.calls
    · rw [hline]
      exact hlisted
  case read =>
    obtain ⟨hassignable, hleads⟩ := hflows
    rcases read_cases hp rfl h.frame hassignable with
      ⟨m', hread, hsame, hframe⟩ | ⟨cause, m', hread, hlisted⟩
    · rw [hread]
      exact h.goOn (s := s) hP' hsame (hframe.lead hleads) hleads.calls
    · rw [hread]
      exact hlisted
  case announce =>
    obtain ⟨name, hresult, hcallable, hleads⟩ := hflows
    rw [hresult]
    exact Safe.continueWith (h.announce hp hP' hcallable hleads)
  case param =>
    obtain ⟨c, calls, entry, slot, hinner, hslot, hresult, hl, _, hleads⟩ := hflows
    exact Safe.continueWith
      (h.param hp hP' rfl hinner.calls hinner.entry hslot hresult hl hleads)
  case call =>
    obtain ⟨c, calls, entry, hinner, hcount, hleft, _⟩ := hflows
    rcases (h.call hp hq hop hinner.calls hinner.entry hcount hleft limit).cases with
      ⟨m', hcall, hgoes⟩ | ⟨cause, hcall, hlisted⟩
    · rw [hcall]
      exact hgoes
    · rw [hcall]
      exact hlisted
  case giveBack =>
    obtain ⟨hreadable, hcalls, _⟩ := hflows
    rcases (load_safe hp rfl h.frame hreadable).cases with ⟨v, hload, _⟩ | ⟨cause, hload, hlisted⟩
    · rw [hload]
      exact h.leave hp hcalls _
    · rw [hload]
      exact hlisted
  case endFunction => exact h.leave hp hflows.2 none
  case halt => trivial

/-- One step from a point.  Behind the last quadruple a function is left. -/
theorem At.step [Console κ] (hp : p.LaidOut s points) (h : At p points k m P) (limit : Int) :
    (step p limit m).Goes s p points := by
  have hquad : quad? p m.index = p.quads[k]? := by simp [quad?, h.index]
  simp only [Machine.step, hquad]
  cases hq : p.quads[k]? with
  | some q => exact h.execute hp hq limit
  | none =>
    obtain ⟨temps, _, hlaid⟩ := hp.laid
    have hle := Array.getElem?_eq_none_iff.mp hq
    have hlt := (List.getElem?_eq_some_iff.mp h.point).1
    have hsize := hlaid.size
    obtain rfl : k = p.quads.size := by omega
    exact h.leave hp (hp.ends P h.point) none

/-- Every run from a point that faults does so with a cause that is listed. -/
theorem At.run [Console κ] (hp : p.LaidOut s points) (limit : Int) (fuel : Nat)
    (h : At p points k m P) {f : Fault} {m' : Machine κ}
    (hrun : run p limit fuel m = .faulted f m') :
    f.cause.IsListed s p.functions m'.frame.function.name := by
  induction fuel generalizing k m P with
  | zero => cases hrun
  | succ fuel ih =>
    have hgoes := h.step hp limit
    simp only [Machine.run] at hrun
    cases hstep : Machine.step p limit m with
    | next m₁ =>
      rw [hstep] at hgoes hrun
      obtain ⟨k₁, P₁, h₁⟩ := hgoes
      exact ih h₁ hrun
    | finished m₁ =>
      rw [hstep] at hrun
      cases hrun
    | faulted f₁ m₁ =>
      rw [hstep] at hgoes hrun
      obtain ⟨rfl, rfl⟩ := Outcome.faulted.inj hrun
      exact hgoes

/-- A machine starts at the main body. -/
theorem At.start (hp : p.LaidOut s points) (globals : Memory) (console : κ) :
    ∃ k, At p points k (.start p globals console) (.resting mainName) := by
  obtain ⟨opened, hnames⟩ := hp.names
  obtain ⟨info, hinfo⟩ := Option.isSome_iff_exists.mp hp.main
  obtain ⟨k, rfl, hrest⟩ := hnames.main info hinfo
  have hmain : p.main = { name := mainName, entry := k } := by simp [Program.main, hinfo]
  refine ⟨k, by simp [Machine.start, hmain], hrest, ⟨?_, ?_, ?_, ?_⟩, [], [], rfl, .nil, .nil ?_⟩
  · simp [Machine.start, hmain, Point.resting]
  · simp [Machine.start, hmain, Point.resting, hinfo]
  · simp [Machine.start, hmain]
  · simp [Point.resting]
  · simp [Machine.start, hmain]

/-- Every run of a program that is laid out faults with a cause that is listed, if it faults. -/
theorem run_listed [Console κ] (hp : p.LaidOut s points) (globals : Memory) (console : κ)
    (limit : Int) (fuel : Nat) {f : Fault} {m' : Machine κ}
    (hrun : run p limit fuel (.start p globals console) = .faulted f m') :
    f.cause.IsListed s p.functions m'.frame.function.name := by
  obtain ⟨k, h⟩ := At.start hp globals console
  exact h.run hp limit fuel hrun

end DuckLang.Machine
