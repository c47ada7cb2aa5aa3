import DuckLang.Proofs.Machine.Typing

/-! The linkage of calls.  Calls stand in the code like brackets, so where a call is run the code
itself tells which announcement opened it and which quadruples copied its arguments.  Along a run
every frame that waits is `Linked` to the open call it waits for: announced by that very call, on
top of the frames that waited then, and filled by its own arguments.  A call that comes back finds
the frames below it and its caller as they were. -/

namespace DuckLang

open Emitter

/-- A call in the code: the indices of its announcement and of the quadruples that copy its
arguments. -/
structure Site where
  announce : Nat
  params : List Nat := []

/-- The calls that are open behind a quadruple, by those that are open where it stands. -/
def Site.after (index : Nat) : Opcode → List Site → List Site
  | .announce, sites => { announce := index } :: sites
  | .param, site :: sites => { site with params := site.params ++ [index] } :: sites
  | .call, sites => sites.tail
  | _, sites => sites

/-- The calls that are open where the quadruple with an index stands, the last one first. -/
def openCalls (quads : Array Quad) : Nat → List Site
  | 0 => []
  | n + 1 =>
    match quads[n]? with
    | some q => Site.after n q.op (openCalls quads n)
    | none => openCalls quads n

section Code

variable {quads : Array Quad} {points : List Point} {env : Env} {P P' : Point} {q : Quad} {k : Nat}

theorem openCalls_succ (hq : quads[k]? = some q) :
    openCalls quads (k + 1) = Site.after k q.op (openCalls quads k) := by
  simp only [openCalls, hq]

theorem Site.after_runsOn {op : Opcode} (h : op.runsOn = true) (sites : List Site) :
    Site.after k op sites = sites := by
  cases op <;> first | rfl | cases h

theorem Emitter.Flows.runsOn (h : Flows env points P q P') (hop : q.op.runsOn = true) :
    P'.calls = P.calls := by
  simp only [Flows] at h
  cases hq : q.op <;> rw [hq] at h hop <;> try cases hop
  · obtain ⟨_, _, id, type, _, _, _, hleads⟩ := h
    exact hleads.calls
  · obtain ⟨_, _, id, type, _, _, _, hleads⟩ := h
    exact hleads.calls
  · exact h.2.2.2.calls
  · exact h.2.2.2.calls
  · exact h.2.calls
  · exact h.2.calls

/-- No more calls are open in the code than are announced on the way to it. -/
theorem Emitter.Laid.length_openCalls_le (h : Laid env quads points) (hP : points[k]? = some P) :
    (openCalls quads k).length ≤ P.calls.length := by
  induction k generalizing P with
  | zero => simp [openCalls]
  | succ k ih =>
    have hk : k < quads.size := by
      have := (List.getElem?_eq_some_iff.mp hP).1
      have := h.size
      omega
    obtain ⟨q, hq⟩ : ∃ q, quads[k]? = some q := ⟨_, Array.getElem?_eq_getElem hk⟩
    obtain ⟨A, B, hA, hB, hflows⟩ := h.flows hq
    obtain rfl : P = B := Option.some.inj (hP.symm.trans hB)
    have hle := ih hA
    rw [openCalls_succ hq]
    by_cases hop : q.op.runsOn = true
    · rw [Site.after_runsOn hop, hflows.runsOn hop]
      exact hle
    · simp only [Flows] at hflows
      -- where nothing is announced nothing is open, whatever comes behind it
      have hnone : A.calls = [] → (openCalls quads k).length ≤ P.calls.length := by
        intro hcalls
        rw [hcalls, List.length_nil] at hle
        omega
      cases hq' : q.op <;> rw [hq'] at hflows hop <;> try exact absurd rfl hop
      case goto => exact hnone hflows.1
      case announce =>
        obtain ⟨name, _, _, hleads⟩ := hflows
        rw [hleads.calls]
        exact Nat.succ_le_succ hle
      case param =>
        obtain ⟨c, calls, entry, param, hinner, _, _, _, _, hleads⟩ := hflows
        rw [hinner.calls] at hle
        rw [hleads.calls]
        cases hsites : openCalls quads k with
        | nil => exact Nat.zero_le _
        | cons site sites =>
          rw [hsites] at hle
          exact hle
      case call =>
        obtain ⟨c, calls, entry, hinner, _, _, hresult⟩ := hflows
        rw [hinner.calls, List.length_cons] at hle
        have hcalls : P.calls = calls := by
          rcases hresult with ⟨_, _, hleads⟩ | ⟨_, id, _, _, hleads⟩
          · exact hleads.calls
          · exact hleads.calls
        simp only [Site.after, List.length_tail, hcalls]
        omega
      case giveBack => exact hnone hflows.2.1
      case endFunction => exact hnone hflows.2
      case halt =>
        rw [hflows.2.calls]
        exact hle
      case unknown => exact hflows.elim

/-- Where code rests no call is open. -/
theorem Emitter.Laid.openCalls_resting (h : Laid env quads points) {function : String}
    (hP : points[k]? = some (.resting function)) : openCalls quads k = [] :=
  List.length_eq_zero_iff.mp (Nat.le_zero.mp (h.length_openCalls_le hP))

end Code

namespace Machine

variable {κ : Type}

/-! ### Arguments -/

/-- A frame whose locals are the first of its parameters, each with the value passed for it. -/
structure Frame.Carries (frame : Frame) (passed : List Value) : Prop where
  holds : ∀ {i : Nat} {param : Param} {v : Value}, frame.function.params[i]? = some param →
    passed[i]? = some v → frame.locals.get? param.address = some (v.convert param.type)
  only : ∀ {address : Int} {v : Value}, frame.locals.get? address = some v →
    ∃ param ∈ frame.function.params.take passed.length, param.address = address

theorem Frame.Carries.empty (function : FunctionInfo) : Frame.Carries { function } [] where
  holds _ h := by cases h
  only h := by cases h

/-- A frame with one more argument, in a slot of its own. -/
theorem Frame.Carries.push {frame : Frame} {passed : List Value} (h : frame.Carries passed)
    (hnodup : (frame.function.params.map (·.address)).Nodup) {param : Param}
    (hparam : frame.function.params[passed.length]? = some param) (v : Value) :
    Frame.Carries
      { frame with locals := frame.locals.set param.address (v.convert param.type) }
      (passed ++ [v]) where
  holds := by
    intro i param' v' hparam' hv'
    dsimp only at hparam' ⊢
    rw [Memory.get?_set]
    rcases getElem?_concat hv' with ⟨hlt, hv'⟩ | ⟨rfl, rfl⟩
    · have hne : param'.address ≠ param.address := by
        intro heq
        have hi : (frame.function.params.map (·.address))[i]? = some param.address := by
          rw [List.getElem?_map, hparam', Option.map_some, heq]
        have hlast : (frame.function.params.map (·.address))[passed.length]? =
            some param.address := by
          rw [List.getElem?_map, hparam, Option.map_some]
        have := (List.getElem?_inj (List.getElem?_eq_some_iff.mp hi).1 hnodup).mp
          (hi.trans hlast.symm)
        omega
      rw [if_neg hne]
      exact h.holds hparam' hv'
    · obtain rfl := Option.some.inj (hparam.symm.trans hparam')
      rw [if_pos rfl]
  only := by
    intro address v' hget
    dsimp only at hget ⊢
    rw [Memory.get?_set] at hget
    rw [List.length_append, List.length_singleton, List.take_add_one, hparam]
    split at hget
    · rename_i heq
      exact ⟨param, by simp, heq.symm⟩
    · obtain ⟨param', hmem, haddress⟩ := h.only hget
      exact ⟨param', List.mem_append_left _ hmem, haddress⟩

/-! ### Calls and returns -/

section Calls

variable {p : Program} {s : Scope} {points : List Point} {m m' : Machine κ} {k k' : Nat}
  {P P' : Point} {q : Quad}

/-- The function of the call announced last, with what its entry says of it. -/
theorem At.callee (hp : p.LaidOut s points) (hat : At p points k m P) {c : Call}
    {calls : List Call} (hcalls : P.calls = c :: calls) {entry : Scope.Entry}
    (hentry : s.entryOf? c.function = some entry) {frame : Frame} {pending : List Frame}
    (hpending : m.pending = frame :: pending) :
    p.functions.get? c.function = some frame.function ∧ frame.function.name = c.function ∧
      Describes points entry frame.function := by
  obtain ⟨frame', front, back, hpending', hawaits, _⟩ := hat.innermost hcalls
  obtain ⟨rfl, rfl⟩ := List.cons.inj (hpending.symm.trans hpending')
  exact ⟨hawaits.function, hawaits.name,
    hp.describes hentry (hp.announced hat.point (by simp [hcalls])) hawaits.function⟩

/-- A function starts where nothing is open. -/
theorem At.entered (hp : p.LaidOut s points) (hat : At p points k m P)
    (hq : p.quads[k]? = some q) (hop : q.op = .call) {frame : Frame} {pending : List Frame}
    (hpending : m.pending = frame :: pending) (hat' : At p points k' m' P')
    (hindex : m'.index = frame.function.entry) :
    openCalls p.quads k' = [] ∧ P'.calls = [] := by
  obtain ⟨temps, _, hlaid⟩ := hp.laid
  obtain ⟨_, B, _, _, hflows⟩ := hp.flows hat.point hq
  simp only [Flows, hop] at hflows
  obtain ⟨c, calls, entry, hinner, _, _, _⟩ := hflows
  obtain ⟨_, _, hdescribes⟩ := hat.callee hp hinner.calls hinner.entry hpending
  obtain ⟨start, hstart, hrest⟩ := hdescribes.start
  obtain rfl : k' = start := Int.ofNat.inj (hat'.index.symm.trans (hindex.trans hstart))
  obtain rfl := Option.some.inj (hat'.point.symm.trans hrest)
  exact ⟨hlaid.openCalls_resting hrest, rfl⟩

/-- A step that leaves the function called by the first of some callers, with the frames that
waited below the call. -/
def Exits (p : Program) (base : List Caller) (low : List Frame) (m m' : Machine κ) : Prop :=
  m.callers = base ∧ m.pending = low ∧
    ∃ value, Leaving p m value ∧ ComesBack Converted p m value m'

/-- A call that came back: its caller goes on behind it and is as it was, with the frames that
waited below the call, but for the temporary that the value of the call goes to. -/
structure Resumes (p : Program) (m last m' : Machine κ) (q : Quad) (f : FunctionInfo)
    (rest : List Frame) : Prop where
  index : m'.index = m.index + 1
  callers : m'.callers = m.callers
  pending : m'.pending = rest
  function : m'.frame.function = m.frame.function
  locals : m'.frame.locals = m.frame.locals
  temps : (f.returns = .void ∧ q.result = .empty ∧ m'.frame.temps = m.frame.temps) ∨
    f.returns ≠ .void ∧ ∃ id v q', q.result = .temporary id f.returns ∧
      quad? p last.index = some q' ∧ q'.op = .giveBack ∧ load p last q'.result = .ok v ∧
      m'.frame.temps =
        m.frame.temps.set (Address.ofTemporary f.returns id) (v.convert f.returns)

/-- What a call that comes back makes of the frame of its caller. -/
theorem ComesBack.frame {env : Env} (htemps : env.temps ≤ Address.rangeSize) {caller : Caller}
    {callers : List Caller} (hcallers : m.callers = caller :: callers)
    (hquad : quad? p caller.index = some q) {f : FunctionInfo}
    (hresult : (f.returns = .void ∧ q.result = .empty) ∨ (f.returns ≠ .void ∧
      ∃ id, q.result = .temporary id f.returns ∧ env.Minted id f.returns))
    {value : Option Value} (h : ComesBack Converted p m value m') :
    (f.returns = .void ∧ q.result = .empty ∧ m'.frame = caller.frame) ∨
      f.returns ≠ .void ∧ ∃ id v, q.result = .temporary id f.returns ∧ value = some v ∧
        m'.frame = { caller.frame with
          temps := caller.frame.temps.set (Address.ofTemporary f.returns id)
            (v.convert f.returns) } := by
  cases h with
  | drops waiting called unwanted =>
    obtain ⟨rfl, rfl⟩ := List.cons.inj (hcallers.symm.trans waiting)
    obtain rfl := Option.some.inj (hquad.symm.trans called)
    rcases hresult with ⟨hvoid, hempty⟩ | ⟨_, id, hid, _⟩
    · exact .inl ⟨hvoid, hempty, rfl⟩
    · rw [hid] at unwanted
      cases unwanted
  | @takes _ _ _ v _ waiting called wanted puts =>
    obtain ⟨rfl, rfl⟩ := List.cons.inj (hcallers.symm.trans waiting)
    obtain rfl := Option.some.inj (hquad.symm.trans called)
    rcases hresult with ⟨_, hempty⟩ | ⟨hreturns, id, hid, hminted⟩
    · rw [hempty] at wanted
      cases wanted
    · refine .inr ⟨hreturns, id, v, hid, rfl, ?_⟩
      cases puts with
      | intro target placed writable converted =>
        rw [hid] at target
        obtain rfl := Option.some.inj target
        obtain rfl := Option.some.inj ((place?_temporary hminted htemps).symm.trans placed)
        rw [converted]
        rfl

theorem convert_convert (v : Value) {type : DataType} (h : type.isStorable = true) :
    (v.convert type).convert type = v.convert type := by
  have htype := v.type_convert h
  generalize v.convert type = w at htype ⊢
  simp [Value.convert, htype]

/-- The function that is left is the one that was called, and its caller goes on. -/
theorem Exits.resumes (hp : p.LaidOut s points) (hat : At p points k m P)
    (hq : p.quads[k]? = some q) (hop : q.op = .call) {frame : Frame} {rest : List Frame}
    (hpending : m.pending = frame :: rest) {last : Machine κ} (hlast : At p points k' last P')
    (h : Exits p ({ frame := m.frame, index := m.index } :: m.callers) rest last m') :
    last.frame.function = frame.function ∧ Resumes p m last m' q frame.function rest := by
  obtain ⟨hcallers, hrest, value, hleaves, hback⟩ := h
  obtain ⟨temps, B, htemps, hB, hflows⟩ := hp.flows hat.point hq
  simp only [Flows, hop] at hflows
  obtain ⟨c, calls, entry, hinner, _, _, hresult⟩ := hflows
  obtain ⟨hlisted, hname, hdescribes⟩ := hat.callee hp hinner.calls hinner.entry hpending
  have hfunction : last.frame.function = frame.function := by
    obtain ⟨front, back, _, _, hstacked⟩ := hlast.stacked
    rw [hcallers] at hstacked
    generalize last.frame.function = function at hstacked ⊢
    generalize hindex : m.index = index at hstacked
    cases hstacked with
    | @cons _ _ k₁ q₁ P₁ c₁ calls₁ _ front back quad op point announced called holds awaits below =>
      obtain rfl : k = k₁ := Int.ofNat.inj (hat.index.symm.trans hindex)
      obtain rfl : P = P₁ := Option.some.inj (hat.point.symm.trans point)
      obtain ⟨rfl, rfl⟩ := List.cons.inj (announced.symm.trans hinner.calls)
      exact Option.some.inj (called.symm.trans hlisted)
  refine ⟨hfunction, ?_⟩
  obtain ⟨caller, callers, hcallers₁, hsame⟩ := hback.same
  obtain ⟨rfl, rfl⟩ := List.cons.inj (hcallers.symm.trans hcallers₁)
  have hframe := hback.frame htemps hcallers (hat.quad?_eq.trans hq) (f := frame.function) (by
    rw [hdescribes.returns]
    rcases hresult with ⟨hvoid, hempty, _⟩ | ⟨hne, id, hid, hminted, _⟩
    · exact .inl ⟨hvoid, hempty⟩
    · exact .inr ⟨hne, id, hid, hminted⟩)
  refine ⟨hsame.index, hsame.callers, hsame.pending.trans hrest, hsame.function, ?_, ?_⟩
  · rcases hframe with ⟨_, _, hframe⟩ | ⟨_, id, v, _, _, hframe⟩
    · rw [hframe]
    · rw [hframe]
  · rcases hframe with ⟨hvoid, hempty, hframe⟩ | ⟨hne, id, v, hid, rfl, hframe⟩
    · exact .inl ⟨hvoid, hempty, by rw [hframe]⟩
    · refine .inr ⟨hne, id, ?_⟩
      cases hleaves with
      | @giveBack q' v quad op given =>
        have hstorable : frame.function.returns.isStorable = true := by
          rcases hresult with ⟨hvoid, _⟩ | ⟨_, id', hid', hminted, _⟩
          · exact absurd (hdescribes.returns.trans hvoid) hne
          · rw [hdescribes.returns]
            exact hminted.2.2
        refine ⟨v, q', hid, quad, op, given, ?_⟩
        simp only [hframe]
        rw [hfunction, convert_convert v hstorable]

end Calls

/-! ### Open calls -/

section Opened

variable [Console κ]

/-- A call that is open in a run: since it was announced, by the same activation and on top of the
same frames, a frame has waited for it, and its arguments were copied into that frame one by one. -/
structure Opened (p : Program) (limit : Int) (m₀ : Machine κ) (site : Site)
    (callers : List Caller) (rest : List Frame) (since now : Nat) (frame : Frame)
    (passed : List Value) : Prop where
  announced : ∃ m q, Reaches p limit m₀ since m ∧ m.index = site.announce ∧
    m.callers = callers ∧ m.pending = rest ∧ quad? p m.index = some q ∧ q.op = .announce ∧
    q.result = .function frame.function.name
  earlier : since < now
  waiting : ∀ {n : Nat} {m : Machine κ}, since < n → n ≤ now → Reaches p limit m₀ n m →
    ∃ above slot, m.pending = above ++ slot :: rest
  count : passed.length = site.params.length
  copied : ∀ {i : Nat} {v : Value}, passed[i]? = some v → ∃ n m index q, since < n ∧ n < now ∧
    Reaches p limit m₀ n m ∧ site.params[i]? = some index ∧ m.index = index ∧
    m.callers = callers ∧ (∃ slot, m.pending = slot :: rest) ∧ quad? p m.index = some q ∧
    q.op = .param ∧ load p m q.left = .ok v
  carries : frame.Carries passed

variable {p : Program} {limit : Int} {m₀ m m' : Machine κ} {site : Site} {callers : List Caller}
  {rest : List Frame} {since n : Nat} {frame : Frame} {passed : List Value}

/-- A call is still open after a step that leaves its frame waiting. -/
theorem Opened.tick (h : Opened p limit m₀ site callers rest since n frame passed)
    (hreach : Reaches p limit m₀ (n + 1) m') (above : List Frame) {slot : Frame}
    (hpending : m'.pending = above ++ slot :: rest) :
    Opened p limit m₀ site callers rest since (n + 1) frame passed where
  announced := h.announced
  earlier := Nat.lt_succ_of_lt h.earlier
  waiting := by
    intro n' m hlt hle hn'
    rcases Nat.lt_or_ge n n' with hgt | hge
    · obtain rfl : n' = n + 1 := by omega
      obtain rfl := hn'.unique hreach
      exact ⟨above, slot, hpending⟩
    · exact h.waiting hlt hge hn'
  count := h.count
  copied := by
    intro i v hv
    obtain ⟨n', m, index, q, hlt, hle, hrest⟩ := h.copied hv
    exact ⟨n', m, index, q, hlt, by omega, hrest⟩
  carries := h.carries

/-- A call opens with its announcement. -/
theorem Opened.announce (hreach : Reaches p limit m₀ n m) (hreach' : Reaches p limit m₀ (n + 1) m')
    {k : Nat} (hindex : m.index = k) {q : Quad} (hquad : quad? p m.index = some q)
    (hop : q.op = .announce) {function : FunctionInfo}
    (hresult : q.result = .function function.name)
    (hpending : m'.pending = { function } :: m.pending) :
    Opened p limit m₀ { announce := k } m.callers m.pending n (n + 1) { function } [] where
  announced := ⟨m, q, hreach, hindex, rfl, rfl, hquad, hop, hresult⟩
  earlier := Nat.lt_succ_self n
  waiting := by
    intro n' m₁ hlt hle hn'
    obtain rfl : n' = n + 1 := by omega
    obtain rfl := hn'.unique hreach'
    exact ⟨[], _, hpending⟩
  count := rfl
  copied h := by cases h
  carries := .empty function

/-- The next argument of an open call is copied. -/
theorem Opened.param (h : Opened p limit m₀ site m.callers rest since n frame passed)
    (hreach : Reaches p limit m₀ n m) (hreach' : Reaches p limit m₀ (n + 1) m')
    {k : Nat} (hindex : m.index = k) {q : Quad} (hquad : quad? p m.index = some q)
    (hop : q.op = .param) {v : Value} (hload : load p m q.left = .ok v)
    (hpending : m.pending = frame :: rest)
    (hnodup : (frame.function.params.map (·.address)).Nodup) {param : Param}
    (hparam : frame.function.params[passed.length]? = some param)
    (hpending' : m'.pending =
      { frame with locals := frame.locals.set param.address (v.convert param.type) } :: rest) :
    Opened p limit m₀ { site with params := site.params ++ [k] } m.callers rest since (n + 1)
      { frame with locals := frame.locals.set param.address (v.convert param.type) }
      (passed ++ [v]) where
  announced := h.announced
  earlier := Nat.lt_succ_of_lt h.earlier
  waiting := (h.tick hreach' [] hpending').waiting
  count := by
    rw [List.length_append, List.length_append, h.count]
    rfl
  copied := by
    intro i v' hv'
    rcases getElem?_concat hv' with ⟨hlt, hv'⟩ | ⟨rfl, rfl⟩
    · obtain ⟨n', m₁, index, q', hsince, hn', hreach₁, hsite, hrest⟩ := h.copied hv'
      refine ⟨n', m₁, index, q', hsince, by omega, hreach₁, ?_, hrest⟩
      rw [List.getElem?_append_left (List.getElem?_eq_some_iff.mp hsite).1, hsite]
    · refine ⟨n, m, k, q, h.earlier, Nat.lt_succ_self n, hreach, ?_, hindex, rfl, ⟨frame, hpending⟩,
        hquad, hop, hload⟩
      rw [h.count]
      exact List.getElem?_concat_length
  carries := h.carries.push hnodup hparam v

end Opened

/-! ### Linked frames -/

section Linked

variable [Console κ]

/-- The frames that wait at a time of a run, each linked to the open call it waits for: those of the
function being run, then those of its callers, down to some callers and frames below all that. -/
inductive Linked (p : Program) (limit : Int) (m₀ : Machine κ) (points : List Point) (n : Nat)
    (base : List Caller) (low : List Frame) :
    List Site → List Call → List Caller → List Frame → Prop
  | base : Linked p limit m₀ points n base low [] [] base low
  | site {site : Site} {sites : List Site} {c : Call} {calls : List Call} {callers : List Caller}
      {since : Nat} {frame : Frame} {passed : List Value} {rest : List Frame}
      (count : site.params.length = c.arguments)
      (opened : Opened p limit m₀ site callers rest since n frame passed)
      (below : Linked p limit m₀ points n base low sites calls callers rest) :
      Linked p limit m₀ points n base low (site :: sites) (c :: calls) callers (frame :: rest)
  | caller {frame : Frame} {k : Nat} {q : Quad} {P : Point} {site : Site} {sites : List Site}
      {c : Call} {calls : List Call} {callers : List Caller} {pending : List Frame}
      (quad : p.quads[k]? = some q) (op : q.op = .call) (point : points[k]? = some P)
      (sites_eq : openCalls p.quads k = site :: sites) (calls_eq : P.calls = c :: calls)
      (below : Linked p limit m₀ points n base low sites calls callers pending) :
      Linked p limit m₀ points n base low [] [] ({ frame, index := k } :: callers) pending

variable {p : Program} {limit : Int} {m₀ m m' : Machine κ} {points : List Point} {n : Nat}
  {base callers : List Caller} {low pending : List Frame} {sites : List Site} {calls : List Call}

theorem Linked.base_le (h : Linked p limit m₀ points n base low sites calls callers pending) :
    base.length ≤ callers.length := by
  induction h with
  | base => exact Nat.le_refl _
  | site count opened below ih => exact ih
  | caller quad op point sites_eq calls_eq below ih => exact Nat.le_succ_of_le ih

theorem Linked.sites_nil (h : Linked p limit m₀ points n base low sites [] callers pending) :
    sites = [] := by
  cases h with
  | base => rfl
  | caller quad op point sites_eq calls_eq below => rfl

/-- Frames are still linked after a step that leaves them waiting. -/
theorem Linked.tick (h : Linked p limit m₀ points n base low sites calls callers pending)
    (hreach : Reaches p limit m₀ (n + 1) m') (hpending : ∃ above, m'.pending = above ++ pending) :
    Linked p limit m₀ points (n + 1) base low sites calls callers pending := by
  induction h with
  | base => exact .base
  | @site site sites c calls callers since frame passed rest count opened below ih =>
    obtain ⟨above, habove⟩ := hpending
    refine .site count (opened.tick hreach above habove) (ih ⟨above ++ [frame], ?_⟩)
    rw [habove, List.append_assoc, List.singleton_append]
  | caller quad op point sites_eq calls_eq below ih =>
    exact .caller quad op point sites_eq calls_eq (ih hpending)

/-- A machine at a point of a program, with the frames that wait linked. -/
def LinkedAt (p : Program) (limit : Int) (m₀ : Machine κ) (points : List Point) (n : Nat)
    (base : List Caller) (low : List Frame) (m : Machine κ) : Prop :=
  ∃ k P, At p points k m P ∧
    Linked p limit m₀ points n base low (openCalls p.quads k) P.calls m.callers m.pending

variable {s : Scope} {k k' : Nat} {P P' : Point} {q : Quad}

/-- A function that is left goes on with its caller, or with what is below all that is linked. -/
theorem Linked.leave (hp : p.LaidOut s points) (hat' : At p points k' m' P')
    (hreach' : Reaches p limit m₀ (n + 1) m')
    (h : Linked p limit m₀ points n base low sites [] m.callers m.pending) {value : Option Value}
    (hleaving : Leaving p m value) (hback : ComesBack Converted p m value m') :
    LinkedAt p limit m₀ points (n + 1) base low m' ∨ Exits p base low m m' := by
  obtain ⟨caller, callers, hcallers, hindex, _, hcallers', hpending'⟩ := hback.same
  obtain ⟨temps, _, hlaid⟩ := hp.laid
  rw [hcallers] at h
  generalize hpending : m.pending = pending at h hpending'
  cases h with
  | base => exact .inr ⟨hcallers, hpending, value, hleaving, hback⟩
  | @caller frame k₁ q₁ P₁ site sites c calls callers pending quad op point sites_eq calls_eq
      below =>
    refine .inl ⟨k', P', hat', ?_⟩
    obtain rfl : k' = k₁ + 1 := by
      have := hat'.index
      simp only [hindex] at this
      omega
    obtain ⟨temps, B, _, hB, hflows⟩ := hp.flows point quad
    obtain rfl : P' = B := Option.some.inj (hat'.point.symm.trans hB)
    have hcalls : P'.calls = calls := by
      simp only [Flows, op] at hflows
      obtain ⟨c', calls', entry, hinner, _, _, hresult⟩ := hflows
      obtain ⟨rfl, rfl⟩ := List.cons.inj (calls_eq.symm.trans hinner.calls)
      rcases hresult with ⟨_, _, hleads⟩ | ⟨_, id, _, _, hleads⟩
      · exact hleads.calls
      · exact hleads.calls
    rw [openCalls_succ quad, op, sites_eq, hcalls]
    simp only [hcallers', hpending']
    exact below.tick hreach' ⟨[], hpending'⟩

/-- An argument is copied into the frame of the call that it belongs to. -/
theorem Linked.param (hp : p.LaidOut s points) (hs : s.Orderly) (hat : At p points k m P)
    (hreach : Reaches p limit m₀ n m) (hreach' : Reaches p limit m₀ (n + 1) m') {c : Call}
    (hcalls : P.calls = c :: calls)
    (h : Linked p limit m₀ points n base low sites P.calls m.callers m.pending)
    {entry : Scope.Entry} (hentry : s.entryOf? c.function = some entry) {param : Symbol}
    (hparam : entry.params[c.arguments]? = some param)
    (hquad : quad? p m.index = some q) (hop : q.op = .param) {frame : Frame} {v : Value}
    (hpending : m.pending = frame :: pending) (hload : load p m q.left = .ok v)
    (hpending' : m'.pending =
      { frame with locals := frame.locals.set param.address (v.convert param.type) } :: pending) :
    Linked p limit m₀ points (n + 1) base low (Site.after k .param sites)
      ({ c with arguments := c.arguments + 1 } :: calls) m.callers m'.pending := by
  obtain ⟨_, _, hdescribes⟩ := hat.callee hp hcalls hentry hpending
  obtain ⟨_, _, horderly⟩ := hs _ _ hentry
  rw [hcalls, hpending] at h
  cases h with
  | @site site sites _ _ _ since _ passed _ count opened below =>
    have hslots : frame.function.params = entry.params.map fun symbol =>
        { type := symbol.type, address := symbol.address } := hdescribes.params
    have hnodup : (frame.function.params.map (·.address)).Nodup := by
      rw [hslots, List.map_map]
      exact horderly.params_nodup
    have hslot : frame.function.params[passed.length]? =
        some { type := param.type, address := param.address } := by
      rw [hslots, List.getElem?_map, opened.count, count, hparam]
      rfl
    have hopened := opened.param hreach hreach' hat.index hquad hop hload hpending hnodup hslot
      hpending'
    rw [hpending']
    exact .site (by simp [count]) hopened (below.tick hreach' ⟨[_], hpending'⟩)

/-- One step keeps the frames that wait linked, unless it leaves all that is. -/
theorem Linked.step (hp : p.LaidOut s points) (hs : s.Orderly) (hat : At p points k m P)
    (hreach : Reaches p limit m₀ n m)
    (h : Linked p limit m₀ points n base low (openCalls p.quads k) P.calls m.callers m.pending)
    (hstep : step p limit m = .next m') :
    LinkedAt p limit m₀ points (n + 1) base low m' ∨ Exits p base low m m' := by
  have hreach' := hreach.next hstep
  have hgoes := hat.step hp limit
  rw [hstep] at hgoes
  obtain ⟨k', P', hat'⟩ := hgoes
  obtain ⟨temps, htemps, hlaid⟩ := hp.laid
  have hleft {value : Option Value} (hcalls : P.calls = []) (hleaving : Leaving p m value) :
      LinkedAt p limit m₀ points (n + 1) base low m' ∨ Exits p base low m m' :=
    Linked.leave hp hat' hreach' (by rwa [hcalls] at h) hleaving
      (leave_comesBack ((hleaving.step limit).symm.trans hstep))
  cases hq : p.quads[k]? with
  | none =>
    -- behind the code the function is left
    have hsize : k = p.quads.size := by
      have := (List.getElem?_eq_some_iff.mp hat.point).1
      have := Array.getElem?_eq_none_iff.mp hq
      have := hlaid.size
      omega
    have hcalls : P.calls = [] := hp.ends P (by rw [← hsize, hat.point]; rfl)
    exact hleft hcalls (.past (hat.quad?_eq.trans hq))
  | some q =>
    have hquad : quad? p m.index = some q := hat.quad?_eq.trans hq
    obtain ⟨temps, B, _, hB, hflows⟩ := hp.flows hat.point hq
    have hnext : m'.index = m.index + 1 → k' = k + 1 ∧ P' = B := by
      intro hindex
      have hk : k' = k + 1 := by
        have := hat.index
        have := hat'.index
        omega
      subst hk
      exact ⟨rfl, Option.some.inj (hat'.point.symm.trans hB)⟩
    have hon (hop : q.op.runsOn = true) (hindex : m'.index = m.index + 1)
        (hcallers : m'.callers = m.callers) (hpending : m'.pending = m.pending) :
        LinkedAt p limit m₀ points (n + 1) base low m' ∨ Exits p base low m m' := by
      refine .inl ⟨k', P', hat', ?_⟩
      obtain ⟨rfl, rfl⟩ := hnext hindex
      rw [openCalls_succ hq, Site.after_runsOn hop, hflows.runsOn hop, hcallers, hpending]
      exact h.tick hreach' ⟨[], hpending⟩
    have hjumps {target : Nat} (hcalls : P.calls = []) (hresult : q.result = .jump target)
        (hindex : m'.index = target) (hcallers : m'.callers = m.callers)
        (hpending : m'.pending = m.pending) :
        LinkedAt p limit m₀ points (n + 1) base low m' ∨ Exits p base low m m' := by
      have hrest := hflows.jump hresult
      obtain rfl : k' = target := Int.ofNat.inj (hat'.index.symm.trans hindex)
      obtain rfl := Option.some.inj (hat'.point.symm.trans hrest)
      refine .inl ⟨k', _, hat', ?_⟩
      rw [hcalls] at h
      rw [hlaid.openCalls_resting hrest, ← h.sites_nil, hcallers, hpending]
      exact h.tick hreach' ⟨[], hpending⟩
    cases advances hquad hstep with
    | giveBack op given converted back =>
      simp only [Flows, op] at hflows
      exact hleft hflows.2.1 (.giveBack hquad op given)
    | endFunction op back =>
      simp only [Flows, op] at hflows
      exact hleft hflows.2 (.endFunction hquad op)
    | store computes puts => exact hon computes.runsOn rfl puts.same.callers puts.same.pending
    | read op target placed given parsed puts =>
      exact hon (by rw [op]; rfl) rfl puts.same.callers puts.same.pending
    | write op line_eq written => exact hon (by rw [op]; rfl) rfl rfl rfl
    | pass op condition holds => exact hon (by rw [op]; rfl) rfl rfl rfl
    | skip op condition fails result =>
      have hcalls := hflows
      simp only [Flows, op] at hcalls
      exact hjumps hcalls.2.1 result rfl rfl rfl
    | jump op result =>
      have hcalls := hflows
      simp only [Flows, op] at hcalls
      exact hjumps hcalls.1 result rfl rfl rfl
    | @announce function op listed =>
      refine .inl ⟨k', P', hat', ?_⟩
      obtain ⟨rfl, rfl⟩ := hnext rfl
      simp only [Flows, op] at hflows
      obtain ⟨name, hresult, hcallable, hleads⟩ := hflows
      rw [hresult] at listed
      rw [openCalls_succ hq, op, hleads.calls]
      refine .site rfl (Opened.announce hreach hreach' hat.index hquad op ?_ rfl)
        (h.tick hreach' ⟨[_], rfl⟩)
      obtain ⟨entry, hentry⟩ := Option.isSome_iff_exists.mp hcallable.1
      rw [hresult, (hp.describes hentry hcallable.2 listed).name, Scope.entryOf?_name hentry]
    | @param frame pending v _ address place op waiting argument slot placed segment converted =>
      refine .inl ⟨k', P', hat', ?_⟩
      obtain ⟨rfl, rfl⟩ := hnext rfl
      simp only [Flows, op] at hflows
      obtain ⟨c, calls, entry, param, hinner, hparam, hresult, _, _, hleads⟩ := hflows
      obtain ⟨_, _, horderly⟩ := hs _ _ hinner.entry
      have hsymbol := horderly.params.subset (List.mem_of_getElem? hparam)
      rw [hresult] at slot
      rw [openCalls_succ hq, op, hleads.calls]
      refine h.param hp hs hat hreach hreach' hinner.calls hinner.entry hparam hquad op waiting
        argument ?_
      rw [converted, (ranged_symbol hs hinner.entry hsymbol).type_eq slot placed]
      obtain rfl : param.address = address := Option.some.inj slot
      rfl
    | @call frame pending op waiting =>
      refine .inl ⟨k', P', hat', ?_⟩
      obtain ⟨hnone, hcalls'⟩ := hat.entered hp hq op waiting hat' rfl
      simp only [Flows, op] at hflows
      obtain ⟨c, calls, entry, hinner, _, _, _⟩ := hflows
      rw [hinner.calls, waiting] at h
      rw [hnone, hcalls']
      generalize hsites : openCalls p.quads k = sites at h
      cases h with
      | site count opened below =>
        simp only [hat.index]
        exact .caller hq op hat.point hsites hinner.calls (below.tick hreach' ⟨[], rfl⟩)

/-- Along a run every frame that waits is linked to its call. -/
theorem Reaches.linked (hp : p.LaidOut s points) (hs : s.Orderly)
    (hstart : LinkedAt p limit m₀ points 0 [] [] m₀) (hreach : Reaches p limit m₀ n m) :
    LinkedAt p limit m₀ points n [] [] m := by
  induction n generalizing m with
  | zero =>
    obtain rfl : m₀ = m := Outcome.unfinished.inj hreach
    exact hstart
  | succ n ih =>
    obtain ⟨m₁, hreach₁, hstep⟩ := hreach.last
    obtain ⟨k, P, hat, hlinked⟩ := ih hreach₁
    rcases hlinked.step hp hs hat hreach₁ hstep with hnext | ⟨hcallers, _, value, _, hback⟩
    · exact hnext
    · -- the main body is left for no caller
      obtain ⟨caller, callers, hsome, _⟩ := hback.same
      rw [hcallers] at hsome
      cases hsome

/-- The frame that a call takes is the one it opened itself, with all of its arguments. -/
theorem LinkedAt.call (hp : p.LaidOut s points) (h : LinkedAt p limit m₀ points n base low m)
    (hquad : quad? p m.index = some q) (hop : q.op = .call) :
    ∃ site sites frame rest since passed,
      openCalls p.quads m.index.toNat = site :: sites ∧ m.pending = frame :: rest ∧
      p.functions.get? frame.function.name = some frame.function ∧
      q.left = .function frame.function.name ∧
      Opened p limit m₀ site m.callers rest since n frame passed ∧
      passed.length = frame.function.params.length := by
  obtain ⟨k, P, hat, hlinked⟩ := h
  obtain ⟨temps, B, _, hB, hflows⟩ := hp.flows hat.point (hat.quad?_eq.symm.trans hquad)
  simp only [Flows, hop] at hflows
  obtain ⟨c, calls, entry, hinner, hcount, hleft, _⟩ := hflows
  have hk : m.index.toNat = k := by
    have := hat.index
    omega
  rw [hinner.calls] at hlinked
  generalize hsites : openCalls p.quads k = sites at hlinked
  generalize hpending : m.pending = pending at hlinked
  cases hlinked with
  | @site site sites _ _ _ since frame passed rest count opened below =>
    obtain ⟨hlisted, hname, hdescribes⟩ := hat.callee hp hinner.calls hinner.entry hpending
    refine ⟨site, sites, frame, rest, since, passed, by rw [hk, hsites], rfl, by rwa [hname], ?_,
      opened, ?_⟩
    · rw [hleft, hname]
    · rw [opened.count, count, hcount, hdescribes.params, List.length_map]

/-- While a call runs, the frames that wait above those of its caller are linked. -/
theorem Reaches.linked_since (hp : p.LaidOut s points) (hs : s.Orderly) (hat : At p points k m P)
    (hq : p.quads[k]? = some q) (hop : q.op = .call) {frame : Frame} {rest : List Frame}
    (hpending : m.pending = frame :: rest) (hreach : Reaches p limit m₀ n m) {n' : Nat}
    (hlt : n < n') (hreach' : Reaches p limit m₀ n' m')
    (hbusy : ∀ j mⱼ, n < j → j ≤ n' → Reaches p limit m₀ j mⱼ →
      m.callers.length < mⱼ.callers.length) :
    LinkedAt p limit m₀ points n' ({ frame := m.frame, index := m.index } :: m.callers) rest m' := by
  obtain ⟨d, rfl⟩ := Nat.exists_eq_add_of_lt hlt
  clear hlt
  induction d generalizing m' with
  | zero =>
    obtain ⟨m₁, hreach₁, hstep⟩ := hreach'.last
    obtain rfl := hreach.unique hreach₁
    have hgoes := hat.step hp limit
    rw [hstep] at hgoes
    obtain ⟨k', P', hat'⟩ := hgoes
    obtain ⟨frame', rest', hwaiting, rfl⟩ := (advances (hat.quad?_eq.trans hq) hstep).of_call hop
    obtain ⟨rfl, rfl⟩ := List.cons.inj (hwaiting.symm.trans hpending)
    obtain ⟨hnone, hcalls'⟩ := hat.entered hp hq hop hwaiting hat' rfl
    refine ⟨k', P', hat', ?_⟩
    rw [hnone, hcalls']
    exact .base
  | succ d ih =>
    obtain ⟨m₁, hreach₁, hstep⟩ := hreach'.last
    obtain ⟨k₁, P₁, hat₁, hlinked⟩ :=
      ih hreach₁ fun j mⱼ hlt hj => hbusy j mⱼ hlt (Nat.le_succ_of_le hj)
    rcases hlinked.step hp hs hat₁ hreach₁ hstep with hnext | ⟨hcallers, _, value, _, hback⟩
    · exact hnext
    · -- the call would have come back
      exfalso
      obtain ⟨caller, callers, hsome, hsame⟩ := hback.same
      obtain ⟨-, rfl⟩ := List.cons.inj (hcallers.symm.trans hsome)
      have := hbusy _ _ (by omega) (Nat.le_refl _) hreach'
      simp only [hsame.callers] at this
      omega

/-- A call that comes back finds its caller and the frames below it as they were. -/
theorem Reaches.resumes (hp : p.LaidOut s points) (hs : s.Orderly) (hat : At p points k m P)
    (hq : p.quads[k]? = some q) (hop : q.op = .call) {frame : Frame} {rest : List Frame}
    (hpending : m.pending = frame :: rest) (hreach : Reaches p limit m₀ n m) {n' : Nat}
    (hlt : n < n') (hreach' : Reaches p limit m₀ n' m')
    (hback : m'.callers.length ≤ m.callers.length)
    (hbusy : ∀ j mⱼ, n < j → j < n' → Reaches p limit m₀ j mⱼ →
      m.callers.length < mⱼ.callers.length) :
    ∃ last, Reaches p limit m₀ (n' - 1) last ∧
      last.callers = { frame := m.frame, index := m.index } :: m.callers ∧
      last.frame.function = frame.function ∧ Resumes p m last m' q frame.function rest := by
  obtain ⟨d, rfl⟩ := Nat.exists_eq_add_of_lt hlt
  obtain ⟨last, hlast, hstep⟩ := hreach'.last
  refine ⟨last, hlast, ?_⟩
  rcases Nat.eq_zero_or_pos d with rfl | hd
  · -- the step that runs the call does not come back
    exfalso
    obtain rfl := hreach.unique hlast
    obtain ⟨_, _, _, rfl⟩ := (advances (hat.quad?_eq.trans hq) hstep).of_call hop
    simp only [List.length_cons] at hback
    omega
  · obtain ⟨k₁, P₁, hat₁, hlinked⟩ := Reaches.linked_since hp hs hat hq hop hpending hreach
      (by omega) hlast fun j mⱼ hj hle => hbusy j mⱼ hj (by omega)
    rcases hlinked.step hp hs hat₁ hlast hstep with ⟨k₂, P₂, _, hnext⟩ | hexits
    · exfalso
      have := hnext.base_le
      rw [List.length_cons] at this
      omega
    · exact ⟨hexits.1, hexits.resumes hp hat hq hop hpending hat₁⟩

end Linked

end Machine

end DuckLang
