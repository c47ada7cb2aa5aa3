import DuckLang.Proofs.Machine.Linkage
import DuckLang.Proofs.Source.ExprRun
import DuckLang.Proofs.Source.Replay
import Mathlib.Data.List.Forall2

/-! The code of expressions with calls, run.  A machine that passes over such code, each call from its
start to its return, does what `Replay` tells of it: every temporary holds the value of its formula
in the history of the run, and every call enters a frame with the values of its slots. -/

namespace DuckLang

open Emitter Machine

/-! ### Histories -/

/-- What is seen on the way through code: what the variables held after so many calls, the frames
that the calls entered and what they gave back. -/
structure History where
  vars : List Variables
  entered : List Frame := []
  results : List Value := []

namespace History

structure Extends (h' h : History) : Prop where
  vars : h.vars <+: h'.vars
  entered : h.entered <+: h'.entered
  results : h.results <+: h'.results

theorem Extends.refl (h : History) : h.Extends h :=
  ⟨List.prefix_rfl, List.prefix_rfl, List.prefix_rfl⟩

theorem Extends.trans {h h' h'' : History} (h₁ : h'.Extends h) (h₂ : h''.Extends h') :
    h''.Extends h :=
  ⟨h₁.vars.trans h₂.vars, h₁.entered.trans h₂.entered, h₁.results.trans h₂.results⟩

/-- The history with a call more, and the variables behind it. -/
def push (h : History) (frame : Frame) (result : Value) (vars : Variables) : History :=
  { vars := h.vars ++ [vars], entered := h.entered ++ [frame], results := h.results ++ [result] }

theorem push_extends (h : History) (frame : Frame) (result : Value) (vars : Variables) :
    (h.push frame result vars).Extends h :=
  ⟨List.prefix_append _ _, List.prefix_append _ _, List.prefix_append _ _⟩

end History

/-- The value of a formula in a history. -/
def Formula.eval (h : History) : Formula → Option Value
  | var address calls => h.vars[calls]?.bind (·.get? address)
  | constant v => some v
  | result call => h.results[call]?
  | binary op l r => (l.eval h).bind fun v => (r.eval h).bind fun w => (op.compute v w).toOption

theorem Formula.eval_extends {h h' : History} (hextends : h'.Extends h) {f : Formula} {v : Value}
    (hv : f.eval h = some v) : f.eval h' = some v := by
  induction f generalizing v with
  | var address calls =>
    obtain ⟨vars, hvars, hget⟩ := Option.bind_eq_some_iff.mp hv
    obtain ⟨more, hmore⟩ := hextends.vars
    rw [eval, ← hmore, List.getElem?_append_left (List.getElem?_eq_some_iff.mp hvars).1, hvars,
      Option.bind_some, hget]
  | constant w => exact hv
  | result call =>
    obtain ⟨more, hmore⟩ := hextends.results
    rw [eval] at hv ⊢
    rw [← hmore, List.getElem?_append_left (List.getElem?_eq_some_iff.mp hv).1, hv]
  | binary op l r ihl ihr =>
    obtain ⟨x, hx, hv⟩ := Option.bind_eq_some_iff.mp hv
    obtain ⟨y, hy, hv⟩ := Option.bind_eq_some_iff.mp hv
    rw [eval, ihl hx, Option.bind_some, ihr hy, Option.bind_some, hv]

/-- A memory with the values of formulas in slots, each converted to the type of its range. -/
def fill (h : History) (mem : Memory) : List (Int × Formula) → Option Memory
  | [] => some mem
  | (slot, f) :: slots =>
    match f.eval h, Address.place? slot with
    | some v, some place => fill h (mem.set slot (v.convert place.type)) slots
    | _, _ => none

theorem fill_extends {h h' : History} (hextends : h'.Extends h) {mem mem' : Memory}
    {slots : List (Int × Formula)} (hfill : fill h mem slots = some mem') :
    fill h' mem slots = some mem' := by
  induction slots generalizing mem with
  | nil => exact hfill
  | cons slot slots ih =>
    simp only [fill] at hfill
    split at hfill
    · rename_i v place hv hplace
      simp only [fill, Formula.eval_extends hextends hv, hplace]
      exact ih hfill
    · cases hfill

theorem fill_concat {h : History} {mem mem' : Memory} {slots : List (Int × Formula)}
    (hfill : fill h mem slots = some mem') {slot : Int} {f : Formula} {v : Value}
    {place : Address.Place} (hv : f.eval h = some v) (hplace : Address.place? slot = some place) :
    fill h mem (slots ++ [(slot, f)]) = some (mem'.set slot (v.convert place.type)) := by
  induction slots generalizing mem with
  | nil =>
    obtain rfl := Option.some.inj hfill
    simp only [List.nil_append, fill, hv, hplace]
  | cons first slots ih =>
    simp only [fill] at hfill
    split at hfill
    · rename_i w first' hw hfirst
      simp only [List.cons_append, fill, hw, hfirst]
      exact ih hfill
    · cases hfill

/-- The frame that a call is made in: that of its function, with the values of its slots. -/
structure Invocation.Opens (h : History) (call : Invocation) (frame : Frame) : Prop where
  function : frame.function.name = call.function
  locals : fill h {} call.slots = some frame.locals

theorem Invocation.Opens.extends {h h' : History} (hextends : h'.Extends h) {call : Invocation}
    {frame : Frame} (hopens : call.Opens h frame) : call.Opens h' frame :=
  ⟨hopens.function, fill_extends hextends hopens.locals⟩

/-! ### What is told of a machine -/

/-- A temporary with a place of its own. -/
def IsTemporary (id : Int) (type : DataType) : Prop :=
  0 ≤ id ∧ id < Address.rangeSize ∧ type.isStorable = true

theorem isTemporary_of_minted {env : Env} {id : Int} {type : DataType} (h : env.Minted id type)
    (htemps : env.temps ≤ Address.rangeSize) : IsTemporary id type := by
  obtain ⟨hpos, hlt, hstorable⟩ := h
  exact ⟨hpos, by omega, hstorable⟩

theorem IsTemporary.place? {id : Int} {type : DataType} (h : IsTemporary id type) :
    Address.place? (Address.ofTemporary type id) =
      some { segment := .temporaries, type, offset := id.toNat } :=
  place?_ofTemporary h.1 h.2.1 h.2.2

theorem IsTemporary.ne {id id' : Int} {type type' : DataType} (h : IsTemporary id type)
    (h' : IsTemporary id' type') (hne : ¬(id' = id ∧ type' = type)) :
    Address.ofTemporary type' id' ≠ Address.ofTemporary type id := by
  intro heq
  have hplace := h'.place?
  rw [heq, h.place?] at hplace
  simp only [Option.some.injEq, Address.Place.mk.injEq, true_and] at hplace
  have := h.1
  have := h'.1
  exact hne ⟨by omega, hplace.1.symm⟩

namespace Replay

variable {κ : Type} {r r' : Replay} {h h' : History} {rest : List Frame} {m m' : Machine κ}

/-- What a replay knows holds of a machine in a history, with some frames waiting below. -/
structure Describes (r : Replay) (h : History) (rest : List Frame) (m : Machine κ) : Prop where
  temps : ∀ {id : Int} {type : DataType} {f : Formula}, r.temps id type = some f →
    IsTemporary id type ∧ ∃ v, f.eval h = some v ∧
      m.frame.temps.get? (Address.ofTemporary type id) = some v
  vars : ∃ before, h.vars = before ++ [m.vars] ∧ before.length = r.made.length
  results : h.results.length = r.made.length
  made : List.Forall₂ (Invocation.Opens h) r.made h.entered
  pending : ∃ frames, m.pending = frames ++ rest ∧
    List.Forall₂ (Invocation.Opens h) r.announced frames

theorem Describes.start (m : Machine κ) : start.Describes { vars := [m.vars] } m.pending m where
  temps h := by cases h
  vars := ⟨[], rfl, rfl⟩
  results := rfl
  made := .nil
  pending := ⟨[], rfl, .nil⟩

/-- Another temporary is written. -/
theorem Describes.write_temps (hd : r.Describes h rest m) (hextends : h'.Extends h) {id : Int}
    {type : DataType} (hid : IsTemporary id type) {f : Formula} {v : Value}
    (hv : f.eval h' = some v) {id' : Int} {type' : DataType} {f' : Formula}
    (hf' : (r.write id type f).temps id' type' = some f') : IsTemporary id' type' ∧
      ∃ v', f'.eval h' = some v' ∧
        (m.frame.temps.set (Address.ofTemporary type id) v).get?
          (Address.ofTemporary type' id') = some v' := by
  simp only [write] at hf'
  rw [Memory.get?_set]
  split at hf'
  · rename_i heq
    obtain ⟨rfl, rfl⟩ := heq
    obtain rfl := Option.some.inj hf'
    exact ⟨hid, v, hv, if_pos rfl⟩
  · rename_i hne
    obtain ⟨hid', v', hv', hget⟩ := hd.temps hf'
    refine ⟨hid', v', Formula.eval_extends hextends hv', ?_⟩
    rw [if_neg (hid.ne hid' hne), hget]

variable {p : Program} {s : Scope} {points : List Point} {env : Env} {k : Nat} {P : Point}
  {q : Quad} {operand : Operand} {f : Formula} {v : Value}

/-- What is loaded is the value of the formula that is read. -/
theorem Describes.load (hd : r.Describes h rest m) (hs : env.scope.Orderly)
    (hreadable : Readable env P operand) (hread : r.read? operand = some f)
    (hload : Machine.load p m operand = .ok v) : f.eval h = some v := by
  cases operand with
  | temporary id type =>
    obtain ⟨hid, w, hw, hget⟩ := hd.temps hread
    simp only [Machine.load, Operand.literal?, Operand.target?, hid.place?, hget] at hload
    rw [hw, Except.ok.inj hload]
  | address location type =>
    obtain rfl := Option.some.inj hread
    obtain ⟨owner, entry, symbol, _, hentry, hsymbol, rfl, rfl⟩ := hreadable
    obtain ⟨segment, hsegment, horderly⟩ := hs _ _ hentry
    obtain ⟨offset, hplace⟩ := horderly.placed symbol hsymbol
    obtain ⟨before, hvars, hlength⟩ := hd.vars
    have hget : (Machine.load p m (.address symbol.address symbol.type)).toOption =
        m.vars.get? symbol.address := load_address hplace hsegment
    rw [hload] at hget
    rw [Formula.eval, hvars, ← hlength, List.getElem?_concat_length, Option.bind_some, ← hget]
    rfl
  | intLiteral k =>
    obtain rfl := Option.some.inj hread
    exact congrArg some (Except.ok.inj hload)
  | floatLiteral x =>
    obtain rfl := Option.some.inj hread
    exact congrArg some (Except.ok.inj hload)
  | charLiteral c =>
    obtain rfl := Option.some.inj hread
    exact congrArg some (Except.ok.inj hload)
  | _ => cases hreadable

/-! ### Steps -/

/-- An operation writes the value of its formula. -/
theorem Describes.operate [Console κ] (hp : p.LaidOut s points) (hs : s.Orderly)
    (hat : At p points k m P) (hm : m.Forall HasRangeType) (hq : p.quads[k]? = some q) {limit : Int}
    (hstep : Machine.step p limit m = .next m') (hd : r.Describes h rest m) {op : Operation}
    (hop : q.op = .ofOperator op.operator) {x y : Formula} (hleft : r.read? q.left = some x)
    (hright : r.read? q.right = some y) {id : Int} {type : DataType}
    (hresult : q.result = .temporary id type) :
    (r.write id type (.binary op x y)).Describes h rest m' ∧ m'.index = m.index + 1 ∧
      m'.callers = m.callers := by
  obtain ⟨temps, B, htemps, _, hflows⟩ := hp.flows hat.point hq
  have htyped : Readable { scope := s, strings := p.strings.length, temps } P q.left ∧
      Readable { scope := s, strings := p.strings.length, temps } P q.right ∧
      Cube.result? q.left.type op.operator q.right.type = some type ∧
      Env.Minted { scope := s, strings := p.strings.length, temps } id type := by
    cases op <;> simp only [Flows, hop, Opcode.ofOperator, Operation.operator] at hflows <;>
    · obtain ⟨hl, hr, id', type', hresult', htype, hminted, _⟩ := hflows
      obtain ⟨rfl, rfl⟩ := Operand.temporary.inj (hresult.symm.trans hresult')
      exact ⟨hl, hr, htype, hminted⟩
  obtain ⟨hreadLeft, hreadRight, htype, hminted⟩ := htyped
  have hid := isTemporary_of_minted hminted htemps
  have hquad : quad? p m.index = some
      { op := .ofOperator op.operator, left := q.left, right := q.right,
        result := .temporary id type } := by
    rw [hat.quad?_eq, hq, ← hop, ← hresult]
  rcases Machine.step_operation limit hquad hid.place? with
    ⟨l, w, v, hl, hr, hv, hnext⟩ | ⟨⟨f, hfault⟩, _⟩
  · obtain rfl := Step.next.inj (hstep.symm.trans hnext)
    have hvalue : (Formula.binary op x y).eval h = some v := by
      rw [Formula.eval, hd.load hs hreadLeft hleft hl, Option.bind_some,
        hd.load hs hreadRight hright hr, Option.bind_some, hv]
      rfl
    have hvtype : v.type = type := by
      rw [← hat.load_type hp hs hm hq (by simp [Quad.operands]) hl,
        ← hat.load_type hp hs hm hq (by simp [Quad.operands]) hr] at htype
      exact Operation.type_compute hv htype
    rw [Value.convert_self hvtype]
    exact ⟨⟨hd.write_temps (.refl h) hid hvalue, hd.vars, hd.results, hd.made, hd.pending⟩, rfl,
      rfl⟩
  · rw [hfault] at hstep
    cases hstep

/-- An announced call waits with nothing in its slots. -/
theorem Describes.announce [Console κ] (hp : p.LaidOut s points) (hat : At p points k m P)
    (hq : p.quads[k]? = some q) {limit : Int} (hstep : Machine.step p limit m = .next m')
    (hd : r.Describes h rest m) (hop : q.op = .announce) :
    Describes { r with announced := { function := q.result.functionName } :: r.announced } h rest
      m' ∧ m'.index = m.index + 1 ∧ m'.callers = m.callers := by
  obtain ⟨function, hlisted, rfl⟩ :=
    (Machine.advances (hat.quad?_eq.trans hq) hstep).of_announce hop
  obtain ⟨temps, B, _, _, hflows⟩ := hp.flows hat.point hq
  simp only [Flows, hop] at hflows
  obtain ⟨name, hname, ⟨hsome, hprogram⟩, _⟩ := hflows
  rw [hname] at hlisted ⊢
  obtain ⟨entry, hentry⟩ := Option.isSome_iff_exists.mp hsome
  have hdescribes := hp.describes hentry hprogram hlisted
  obtain ⟨frames, hpending, hopens⟩ := hd.pending
  refine ⟨⟨hd.temps, hd.vars, hd.results, hd.made, { function } :: frames, ?_, ?_⟩, rfl, rfl⟩
  · simp [hpending]
  · exact .cons ⟨hdescribes.name.trans (Scope.entryOf?_name hentry), rfl⟩ hopens

/-- An argument is copied into its slot. -/
theorem Describes.param [Console κ] (hp : p.LaidOut s points) (hs : s.Orderly)
    (hat : At p points k m P) (hq : p.quads[k]? = some q) {limit : Int}
    (hstep : Machine.step p limit m = .next m') (hd : r.Describes h rest m) (hop : q.op = .param)
    {call : Invocation} {calls : List Invocation} (hannounced : r.announced = call :: calls)
    {x : Formula} (hargument : r.read? q.left = some x) {slot : Int} {type : DataType}
    (hresult : q.result = .address slot type) :
    Describes { r with announced := { call with slots := call.slots ++ [(slot, x)] } :: calls } h
      rest m' ∧ m'.index = m.index + 1 ∧ m'.callers = m.callers := by
  obtain ⟨frame, pending, v, w, address, place, hpending, hload, htarget, hplace, rfl, rfl⟩ :=
    (Machine.advances (hat.quad?_eq.trans hq) hstep).of_param hop
  obtain ⟨temps, B, _, _, hflows⟩ := hp.flows hat.point hq
  simp only [Flows, hop] at hflows
  obtain ⟨_, _, _, _, _, _, _, hreadable, _⟩ := hflows
  have hvalue := hd.load hs hreadable hargument hload
  rw [hresult] at htarget
  obtain rfl := Option.some.inj htarget
  obtain ⟨frames, hwaiting, hopens⟩ := hd.pending
  rw [hannounced] at hopens
  cases hopens with
  | @cons _ frame' _ frames hopen hopens =>
    obtain ⟨rfl, rfl⟩ := List.cons.inj (hpending.symm.trans hwaiting)
    exact ⟨⟨hd.temps, hd.vars, hd.results, hd.made, _ :: frames, rfl,
      .cons ⟨hopen.function, fill_concat hopen.locals hvalue hplace⟩ hopens⟩, rfl, rfl⟩

/-- A call that has come back leaves its value in its temporary. -/
theorem Describes.resume (hp : p.LaidOut s points) (hat : At p points k m P)
    (hq : p.quads[k]? = some q) (hd : r.Describes h rest m) (hop : q.op = .call)
    {call : Invocation} {calls : List Invocation} (hannounced : r.announced = call :: calls)
    {id : Int} {type : DataType} (hresult : q.result = .temporary id type) {frame : Frame}
    {below : List Frame} (hpending : m.pending = frame :: below) {last : Machine κ}
    (hresumes : Resumes p m last m' q frame.function below) :
    ∃ h', h'.Extends h ∧ Describes { r.write id type (.result r.made.length) with
      announced := calls, made := r.made ++ [call] } h' rest m' := by
  obtain ⟨temps, B, htemps, _, hflows⟩ := hp.flows hat.point hq
  simp only [Flows, hop] at hflows
  obtain ⟨_, _, entry, _, _, _, hflow⟩ := hflows
  rcases hresumes.temps with ⟨_, hempty, _⟩ | ⟨_, id', v, q', hid', _, _, _, hmemory⟩
  · rw [hresult] at hempty
    cases hempty
  · obtain ⟨rfl, htype⟩ := Operand.temporary.inj (hresult.symm.trans hid')
    have hid : IsTemporary id type := by
      rcases hflow with ⟨_, hempty, _⟩ | ⟨_, id'', hid'', hminted, _⟩
      · rw [hresult] at hempty
        cases hempty
      · obtain ⟨rfl, rfl⟩ := Operand.temporary.inj (hresult.symm.trans hid'')
        exact isTemporary_of_minted hminted htemps
    let h' := h.push frame (v.convert type) m'.vars
    have hextends : h'.Extends h := h.push_extends _ _ _
    have hvalue : (Formula.result r.made.length).eval h' = some (v.convert type) := by
      rw [Formula.eval, ← hd.results]
      exact List.getElem?_concat_length
    obtain ⟨frames, hwaiting, hopens⟩ := hd.pending
    rw [hannounced] at hopens
    cases hopens with
    | @cons _ frame' _ frames hopen hopens =>
      obtain ⟨rfl, rfl⟩ := List.cons.inj (hpending.symm.trans hwaiting)
      refine ⟨h', hextends, ?_, ⟨h.vars, rfl, ?_⟩, ?_, ?_, frames, hresumes.pending, ?_⟩
      · intro id₁ type₁ f₁ hf₁
        rw [hmemory, ← htype]
        exact hd.write_temps hextends hid hvalue hf₁
      · obtain ⟨before, hvars, hlength⟩ := hd.vars
        simp [hvars, hlength]
      · simp [h', History.push, hd.results]
      · exact List.rel_append (hd.made.imp fun _ _ => .extends hextends)
          (.cons (hopen.extends hextends) .nil)
      · exact hopens.imp fun _ _ => .extends hextends

end Replay

/-! ### Runs -/

namespace Machine

variable {κ : Type} [Console κ] {p : Program} {limit : Int} {m m₁ m' : Machine κ}

/-- The machine with which a function goes on: behind a step of its own, or once the call that it
runs has come back. -/
def StepsOver (p : Program) (limit : Int) (m m' : Machine κ) : Prop :=
  ∃ n, Reaches p limit m (n + 1) m' ∧ m'.callers.length ≤ m.callers.length ∧
    ∀ j mⱼ, 0 < j → j ≤ n → Reaches p limit m j mⱼ → m.callers.length < mⱼ.callers.length

/-- The machine with which a function has gone on so many times. -/
def PassesOver (p : Program) (limit : Int) : Nat → Machine κ → Machine κ → Prop
  | 0, m, m' => m = m'
  | n + 1, m, m' => ∃ m₁, StepsOver p limit m m₁ ∧ PassesOver p limit n m₁ m'

theorem StepsOver.step (h : StepsOver p limit m m') : ∃ m₁, step p limit m = .next m₁ := by
  obtain ⟨n, hreach, _⟩ := h
  obtain ⟨m₁, hstep, _⟩ := reaches_succ.mp hreach
  exact ⟨m₁, hstep⟩

/-- A step that enters no call is one that the function makes itself. -/
theorem StepsOver.eq_of_step (h : StepsOver p limit m m') (hstep : Machine.step p limit m = .next m₁)
    (hcallers : m₁.callers = m.callers) : m₁ = m' := by
  obtain ⟨n, hreach, _, hbusy⟩ := h
  have hfirst : Reaches p limit m 1 m₁ := reaches_succ.mpr ⟨m₁, hstep, .zero⟩
  cases n with
  | zero => exact hfirst.unique hreach
  | succ n =>
    have := hbusy 1 m₁ (by omega) (by omega) hfirst
    rw [hcallers] at this
    omega

end Machine

namespace Replay

variable {κ : Type} [Console κ] {p : Program} {s : Scope} {points : List Point} {limit : Int}
  {r r' : Replay} {h : History} {rest : List Frame} {m m' : Machine κ} {k : Nat} {P : Point}

/-- What is known of a machine is known of it behind a quadruple, its call included. -/
theorem Describes.stepsOver (hp : p.LaidOut s points) (hs : s.Orderly) (hat : At p points k m P)
    (hm : m.Forall HasRangeType) {q : Quad} (hq : p.quads[k]? = some q)
    (hd : r.Describes h rest m) (hmoves : r.Moves q r') (hover : StepsOver p limit m m') :
    ∃ h', h'.Extends h ∧ r'.Describes h' rest m' ∧ m'.index = m.index + 1 := by
  obtain ⟨m₁, hstep⟩ := hover.step
  have hown (hdone : r'.Describes h rest m₁ ∧ m₁.index = m.index + 1 ∧ m₁.callers = m.callers) :
      ∃ h', h'.Extends h ∧ r'.Describes h' rest m' ∧ m'.index = m.index + 1 := by
    obtain ⟨hdescribes, hindex, hcallers⟩ := hdone
    obtain rfl := hover.eq_of_step hstep hcallers
    exact ⟨h, .refl h, hdescribes, hindex⟩
  cases hmoves with
  | operate op_eq left right result =>
    exact hown (hd.operate hp hs hat hm hq hstep op_eq left right result)
  | announce op_eq => exact hown (hd.announce hp hat hq hstep op_eq)
  | param op_eq announced argument result =>
    exact hown (hd.param hp hs hat hq hstep op_eq announced argument result)
  | call op_eq announced named result =>
    obtain ⟨frame, below, hpending, _⟩ :=
      (Machine.advances (hat.quad?_eq.trans hq) hstep).of_call op_eq
    obtain ⟨n, hreach, hback, hbusy⟩ := hover
    obtain ⟨last, _, _, _, hresumes⟩ := Reaches.resumes hp hs hat hq op_eq hpending .zero
      (Nat.succ_pos n) hreach hback fun j mⱼ hpos hlt => hbusy j mⱼ hpos (Nat.le_of_lt_succ hlt)
    obtain ⟨h', hextends, hdescribes⟩ :=
      hd.resume hp hat hq op_eq announced result hpending hresumes
    exact ⟨h', hextends, hdescribes, hresumes.index⟩

/-- What is known of a machine before code is known of it behind the code, calls included. -/
theorem Describes.run (hp : p.LaidOut s points) (hs : s.Orderly) (hat : At p points k m P)
    (hm : m.Forall HasRangeType) {quads : List Quad} (hcode : p.Holds k quads)
    (hd : r.Describes h rest m) (hrun : r.run quads = some r')
    (hpasses : PassesOver p limit quads.length m m') :
    ∃ h' P', h'.Extends h ∧ r'.Describes h' rest m' ∧ At p points (k + quads.length) m' P' := by
  induction quads generalizing r h k m P with
  | nil =>
    obtain rfl := Option.some.inj hrun
    obtain rfl := hpasses
    exact ⟨h, P, .refl h, hd, hat⟩
  | cons q quads ih =>
    obtain ⟨r₁, hstep, hrest⟩ := Option.bind_eq_some_iff.mp (List.foldlM_cons.symm.trans hrun)
    obtain ⟨m₁, hover, hlater⟩ := hpasses
    obtain ⟨h₁, hextends, hdescribes, hindex⟩ :=
      hd.stepsOver hp hs hat hm (hcode 0 q rfl) (moves hstep) hover
    obtain ⟨n, hreach, _⟩ := hover
    obtain ⟨k₁, P₁, hat₁⟩ := hat.unfinished hp limit (n + 1) hreach
    obtain rfl : k₁ = k + 1 := by
      have := hat.index
      have := hat₁.index
      omega
    have hm₁ : m₁.Forall HasRangeType := by
      have hforall := hm.run (p := p) settles_hasRangeType limit (n + 1)
      rwa [show Machine.run p limit (n + 1) m = .unfinished m₁ from hreach] at hforall
    have hcode₁ : p.Holds (k + 1) quads := by
      intro i q' hq'
      rw [Nat.add_assoc, Nat.add_comm 1]
      exact hcode (i + 1) q' hq'
    obtain ⟨h', P', hextends', hdescribes', hat'⟩ := ih hat₁ hm₁ hcode₁ hdescribes hrest hlater
    rw [Nat.add_assoc, Nat.add_comm 1] at hat'
    exact ⟨h', P', hextends.trans hextends', hdescribes', hat'⟩

end Replay

end DuckLang
