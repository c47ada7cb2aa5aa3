import DuckLang.Proofs.Emitter.Storage
import DuckLang.Proofs.Machine.Safety
import DuckLang.Proofs.Machine.Steps

/-! Types at run time.  What a machine stores it converts to the type of the range that it stores it
in, so every value it holds has the type of its address, whatever the program.  In a program that is
laid out the static type of an operand is that of its range, and then a value that is converted has
its new type already, or is an int that becomes a float. -/

namespace DuckLang

open Emitter

/-! ### Memories of a machine -/

/-- Every value of a memory satisfies `P` with its address. -/
def Memory.Forall (m : Memory) (P : Int → Value → Prop) : Prop :=
  ∀ address v, m.get? address = some v → P address v

theorem Memory.Forall.empty {P : Int → Value → Prop} : Memory.Forall {} P := by
  intro address v h
  cases h

theorem Memory.Forall.set {m : Memory} {P : Int → Value → Prop} (h : m.Forall P) {address : Int}
    {v : Value} (hv : P address v) : (m.set address v).Forall P := by
  intro other w hw
  rw [Memory.get?_set] at hw
  split at hw
  · rename_i heq
    obtain rfl := Option.some.inj hw
    rwa [heq]
  · exact h other w hw

namespace Machine

variable {κ : Type} {P : Segment → Int → Value → Prop}

/-- Every value of a frame satisfies `P` with its segment and address. -/
structure Frame.Forall (frame : Frame) (P : Segment → Int → Value → Prop) : Prop where
  locals : frame.locals.Forall (P .locals)
  temps : frame.temps.Forall (P .temporaries)

/-- Every value of a machine satisfies `P` with its segment and address. -/
structure Forall (m : Machine κ) (P : Segment → Int → Value → Prop) : Prop where
  globals : m.globals.Forall (P .globals)
  frame : m.frame.Forall P
  callers : ∀ caller ∈ m.callers, caller.frame.Forall P
  pending : ∀ frame ∈ m.pending, frame.Forall P

/-- What is converted to the type of a range satisfies `P` there. -/
def Settles (P : Segment → Int → Value → Prop) : Prop :=
  ∀ {address : Int} {place : Address.Place} (v : Value), Address.place? address = some place →
    P place.segment address (v.convert place.type)

variable {p : Program} {m m' : Machine κ} {operand : Operand} {v : Value} {q : Quad}

theorem Forall.put (h : m.Forall P) {segment : Segment} {address : Int} (hv : P segment address v) :
    (m.put segment address v).Forall P := by
  cases segment with
  | globals => exact ⟨h.globals.set hv, h.frame, h.callers, h.pending⟩
  | constants => exact h
  | locals => exact ⟨h.globals, ⟨h.frame.locals.set hv, h.frame.temps⟩, h.callers, h.pending⟩
  | temporaries => exact ⟨h.globals, ⟨h.frame.locals, h.frame.temps.set hv⟩, h.callers, h.pending⟩

theorem Forall.puts (hP : Settles P) (h : m.Forall P) (hputs : Puts Converted m operand v m') :
    m'.Forall P := by
  cases hputs with
  | intro target placed writable converted =>
    rw [converted]
    exact h.put (hP v placed)

theorem Forall.withIndex (h : m.Forall P) (index : Int) : { m with index }.Forall P :=
  ⟨h.globals, h.frame, h.callers, h.pending⟩

theorem Forall.withConsole (h : m.Forall P) (console : κ) : { m with console }.Forall P :=
  ⟨h.globals, h.frame, h.callers, h.pending⟩

theorem Forall.comesBack (hP : Settles P) (h : m.Forall P) {value : Option Value}
    (hback : ComesBack Converted p m value m') : m'.Forall P := by
  have hcaller {caller : Caller} {callers : List Caller} (hcallers : m.callers = caller :: callers)
      (index : Int) : Forall { m with frame := caller.frame, index, callers } P := by
    have hframes := h.callers
    rw [hcallers] at hframes
    obtain ⟨hframe, hrest⟩ := List.forall_mem_cons.mp hframes
    exact ⟨h.globals, hframe, hrest, h.pending⟩
  cases hback with
  | drops waiting called unwanted => exact hcaller waiting _
  | takes waiting called wanted puts => exact ((hcaller waiting _).puts hP puts).withIndex _

/-- Whatever the program, a step that goes on keeps what every conversion brings about. -/
theorem Forall.advances [Console κ] (hP : Settles P) (h : m.Forall P)
    (hadvances : Advances Converted p m q m') : m'.Forall P := by
  have hwaiting {frame : Frame} {pending : List Frame} (hpending : m.pending = frame :: pending) :
      frame.Forall P ∧ ∀ frame ∈ pending, frame.Forall P := by
    have hframes := h.pending
    rw [hpending] at hframes
    exact List.forall_mem_cons.mp hframes
  cases hadvances with
  | store computes puts => exact (h.puts hP puts).withIndex _
  | read op target placed given parsed puts =>
    exact ((h.withConsole _).puts hP puts).withIndex _
  | @write line console op line_eq written => exact (h.withConsole console).withIndex _
  | pass op condition holds => exact h.withIndex _
  | skip op condition fails result => exact h.withIndex _
  | jump op result => exact h.withIndex _
  | announce op listed =>
    exact ⟨h.globals, h.frame, h.callers,
      List.forall_mem_cons.mpr ⟨⟨.empty, .empty⟩, h.pending⟩⟩
  | @param frame pending v w address place op waiting argument slot placed segment converted =>
    obtain ⟨hframe, hrest⟩ := hwaiting waiting
    have hw := hP v placed
    rw [segment, ← converted] at hw
    exact ⟨h.globals, h.frame, h.callers,
      List.forall_mem_cons.mpr ⟨⟨hframe.locals.set hw, hframe.temps⟩, hrest⟩⟩
  | call op waiting =>
    obtain ⟨hframe, hrest⟩ := hwaiting waiting
    exact ⟨h.globals, hframe, List.forall_mem_cons.mpr ⟨h.frame, h.callers⟩, hrest⟩
  | giveBack op given converted back => exact h.comesBack hP back
  | endFunction op back => exact h.comesBack hP back

theorem Forall.untouched (h : m.Forall P) (huntouched : Untouched m m') : m'.Forall P := by
  have hframes : ∀ frame ∈ m'.activations, frame.Forall P := by
    intro frame hmem
    have hold := huntouched.activations.subset hmem
    rw [activations, List.mem_cons, List.mem_map] at hold
    rcases hold with rfl | ⟨caller, hcaller, rfl⟩
    · exact h.frame
    · exact h.callers caller hcaller
  rw [activations, List.forall_mem_cons, List.forall_mem_map] at hframes
  exact ⟨huntouched.globals ▸ h.globals, hframes.1, hframes.2, huntouched.pending ▸ h.pending⟩

/-- Whatever the program, a step keeps what every conversion brings about. -/
theorem Forall.step [Console κ] (hP : Settles P) (h : m.Forall P) (limit : Int) :
    (Machine.step p limit m).machine.Forall P := by
  have huntouched := step_untouching p limit m
  cases hstep : Machine.step p limit m with
  | next m' =>
    cases hquad : quad? p m.index with
    | none =>
      exact h.comesBack hP (leave_comesBack (((Leaving.past hquad).step limit).symm.trans hstep))
    | some q => exact h.advances hP (Machine.advances hquad hstep)
  | finished m' =>
    rw [hstep] at huntouched
    exact h.untouched huntouched
  | faulted f m' =>
    rw [hstep] at huntouched
    exact h.untouched huntouched

theorem Forall.run [Console κ] (hP : Settles P) (h : m.Forall P) (limit : Int) (fuel : Nat) :
    (run p limit fuel m).machine.Forall P := by
  induction fuel generalizing m with
  | zero => exact h
  | succ fuel ih =>
    have hstep := h.step (p := p) hP limit
    simp only [Machine.run]
    split <;> rename_i hnext <;> rw [hnext] at hstep
    · exact ih hstep
    · exact hstep
    · exact hstep

end Machine

/-! ### The types of values -/

/-- A memory whose values have the types of the ranges that they lie in. -/
def Memory.Typed (m : Memory) : Prop :=
  m.Forall fun address v => ∀ place ∈ Address.place? address, v.type = place.type

theorem Value.type_convert (v : Value) {type : DataType} (h : type.isStorable = true) :
    (v.convert type).type = type := by
  simp only [Value.convert]
  split
  · assumption
  · cases type <;> first | rfl | cases h

theorem Address.place?_storable {address : Int} {place : Address.Place}
    (h : Address.place? address = some place) : place.type.isStorable = true := by
  have hrange : ∀ k, (Address.rangeAt k).2.isStorable = true := by
    intro k
    unfold Address.rangeAt
    split <;> rfl
  simp only [Address.place?] at h
  split at h
  · obtain rfl := Option.some.inj h
    exact hrange _
  · cases h

namespace Machine

/-- A value with the type of its address. -/
abbrev HasRangeType (_ : Segment) (address : Int) (v : Value) : Prop :=
  ∀ place ∈ Address.place? address, v.type = place.type

theorem settles_hasRangeType : Settles HasRangeType := by
  intro address place v hplace place' hplace'
  obtain rfl : place = place' := Option.some.inj (hplace.symm.trans hplace')
  exact v.type_convert (Address.place?_storable hplace)

variable {κ : Type} {p : Program} {m : Machine κ} {operand : Operand} {v : Value}

/-- An operand whose static type is that of the range it lies in, outside of the constants. -/
def Ranged (operand : Operand) : Prop :=
  ∃ address place, operand.target? = some address ∧ Address.place? address = some place ∧
    place.type = operand.type ∧ place.segment ≠ .constants

/-- What is loaded through a ranged operand has its static type. -/
theorem Ranged.load (h : Ranged operand) (hm : m.Forall HasRangeType)
    (hload : load p m operand = .ok v) : v.type = operand.type := by
  obtain ⟨address, place, htarget, hplace, htype, hsegment⟩ := h
  have hliteral : operand.literal? = none := by
    cases operand <;> first | rfl | cases htarget
  simp only [Machine.load, hliteral, htarget, hplace] at hload
  rw [← htype]
  split at hload
  · rename_i w hfound
    obtain rfl := Except.ok.inj hload
    cases hplaced : place.segment with
    | globals => exact hm.globals _ _ (by simpa only [hplaced] using hfound) place hplace
    | constants => exact absurd hplaced hsegment
    | locals => exact hm.frame.locals _ _ (by simpa only [hplaced] using hfound) place hplace
    | temporaries => exact hm.frame.temps _ _ (by simpa only [hplaced] using hfound) place hplace
  · cases hload

/-- A literal has its static type. -/
theorem load_literal (hliteral : operand.literal?.isSome) (hload : load p m operand = .ok v) :
    v.type = operand.type := by
  cases operand <;> simp only [Operand.literal?, Option.isSome_none, Bool.false_eq_true] at hliteral
  all_goals
    obtain rfl := Except.ok.inj hload
    rfl

variable {s : Scope} {points : List Point} {env : Env} {P P' : Point} {q : Quad}

theorem ranged_symbol (hs : s.Orderly) {name : String} {entry : Scope.Entry}
    (hentry : s.entryOf? name = some entry) {symbol : Symbol} (hsymbol : symbol ∈ entry.symbols) :
    Ranged (.address symbol.address symbol.type) := by
  obtain ⟨segment, hsegment, horderly⟩ := hs _ _ hentry
  obtain ⟨offset, hplace⟩ := horderly.placed symbol hsymbol
  refine ⟨symbol.address, _, rfl, hplace, rfl, ?_⟩
  rcases hsegment with rfl | rfl <;> simp

theorem ranged_visible (hs : s.Orderly) {function : String} {location : Int} {type : DataType}
    (h : s.Visible function location type) : Ranged (.address location type) := by
  obtain ⟨owner, entry, symbol, _, hentry, hsymbol, rfl, rfl⟩ := h
  exact ranged_symbol hs hentry hsymbol

theorem ranged_minted (htemps : env.temps ≤ Address.rangeSize) {id : Int} {type : DataType}
    (h : env.Minted id type) : Ranged (.temporary id type) :=
  ⟨_, _, rfl, place?_temporary h htemps, rfl, by simp⟩

/-- A readable operand is a literal or lies in a range of its type. -/
theorem readable_cases (hs : env.scope.Orderly) {functions : Directory} {frame : Frame}
    (hframe : frame.Holds functions P) (h : Readable env P operand) :
    operand.literal?.isSome ∨ Ranged operand := by
  cases operand with
  | intLiteral n => exact .inl rfl
  | floatLiteral x => exact .inl rfl
  | charLiteral n => exact .inl rfl
  | address location type => exact .inr (ranged_visible hs h)
  | temporary id type =>
    obtain ⟨⟨offset, hplace⟩, _⟩ := hframe.temps h
    exact .inr ⟨_, _, rfl, hplace, rfl, by simp⟩
  | _ => cases h

/-! ### Conversions -/

/-- A value that has the type already stays as it is, and an int becomes a float. -/
inductive Widened : Value → DataType → Value → Prop
  | same (v : Value) : Widened v v.type v
  | widen (n : Int64) : Widened (.int n) .float (.float (Binary64.ofInt64 n))

theorem Widened.type_eq {type : DataType} {w : Value} (h : Widened v type w) : w.type = type := by
  cases h with
  | same => rfl
  | widen n => rfl

theorem widened_of_type {type : DataType} (h : v.type = type) :
    Widened v type (v.convert type) := by
  subst h
  have hsame : v.convert v.type = v := by simp [Value.convert]
  rw [hsame]
  exact .same v

theorem widened_of_canAssign {type : DataType} (h : Cube.canAssign type v.type = true) :
    Widened v type (v.convert type) := by
  simp only [Cube.canAssign, Cube.result?] at h
  split at h
  · rename_i heq
    exact widened_of_type heq.1.symm
  · split at h
    · rename_i heq
      obtain ⟨rfl, hint⟩ := heq
      cases v with
      | int n => exact .widen n
      | _ => cases hint
    · cases h

/-- What arithmetic computes has the type that the cube says. -/
theorem arith_type {op : ArithOp} {l r : Value} (h : arith op l r = .ok v) {type : DataType}
    (htype : Cube.result? l.type (.arith op) r.type = some type) : v.type = type := by
  simp only [Cube.result?] at htype
  split at htype
  · rename_i hnumeric
    obtain rfl := Option.some.inj htype
    simp only [arith] at h
    split at h
    · split at h
      · cases h
      · obtain rfl := Except.ok.inj h
        cases l <;> cases r <;> simp_all [Value.type, Cube.isNumeric]
    · split at h
      · cases h
      · obtain rfl := Except.ok.inj h
        cases l <;> cases r <;> simp_all [Value.type, Cube.isNumeric]
  · cases htype

theorem compare_type {op : RelOp} {l r : Value} {type : DataType} {left right : DataType}
    (htype : Cube.result? left (.rel op) right = some type) :
    (compare op l r).type = type := by
  simp only [Cube.result?] at htype
  split at htype
  · exact Option.some.inj htype
  · cases htype

theorem parseInput_type {type : DataType} {text : String} (htype : type.isStorable = true)
    (h : parseInput type text = .ok v) : v.type = type := by
  simp only [parseInput] at h
  cases type with
  | int =>
    cases hread : Decimal.readInt? text <;> simp only [hread, Option.map_none, Option.map_some,
      reduceCtorEq, Except.ok.injEq] at h
    rw [← h]
    rfl
  | float =>
    cases hread : Decimal.readFloat? text <;> simp only [hread, Option.map_none, Option.map_some,
      reduceCtorEq, Except.ok.injEq] at h
    rw [← h]
    rfl
  | char =>
    dsimp only at h
    split at h
    · rename_i v' hchar
      split at hchar
      · obtain rfl := Option.some.inj hchar
        rw [← Except.ok.inj h]
        rfl
      · cases hchar
    · cases h
  | _ => cases htype

/-! ### Runs of a program that is laid out -/

theorem Ranged.type_eq (h : Ranged operand) {address : Int} {place : Address.Place}
    (htarget : operand.target? = some address) (hplace : Address.place? address = some place) :
    place.type = operand.type := by
  obtain ⟨address', place', htarget', hplace', htype, _⟩ := h
  obtain rfl : address = address' := Option.some.inj (htarget.symm.trans htarget')
  obtain rfl : place = place' := Option.some.inj (hplace.symm.trans hplace')
  exact htype

/-- An operand that is a literal, lies in a range of its type or has no value. -/
inductive Fits (operand : Operand) : Prop
  | literal (isLiteral : operand.literal?.isSome)
  | ranged (inRange : Ranged operand)
  | valueless (noLiteral : operand.literal? = none) (noTarget : operand.target? = none)

theorem Fits.load_type (h : Fits operand) (hm : m.Forall HasRangeType)
    (hload : load p m operand = .ok v) : v.type = operand.type := by
  cases h with
  | literal isLiteral => exact load_literal isLiteral hload
  | ranged inRange => exact inRange.load hm hload
  | valueless noLiteral noTarget =>
    simp only [load, noLiteral, noTarget] at hload
    cases hload

theorem Fits.empty : Fits .empty := .valueless rfl rfl

theorem fits_target (h : Target points P operand) : Fits operand := by
  cases operand with
  | jump target => exact .valueless rfl rfl
  | pending => exact .valueless rfl rfl
  | _ => cases h

variable {k : Nat}

/-- Every operand of a quadruple fits, also those that it does not load. -/
theorem At.fits (hp : p.LaidOut s points) (hs : s.Orderly) (h : At p points k m P)
    (hq : p.quads[k]? = some q) (hmem : operand ∈ q.operands) : Fits operand := by
  obtain ⟨temps, htemps, hlaid⟩ := hp.laid
  obtain ⟨A, P', hA, _, hflows⟩ := hlaid.flows hq
  obtain rfl : P = A := Option.some.inj (h.point.symm.trans hA)
  have htidy := hlaid.tidy q (Array.mem_of_getElem? hq)
  have hreadable {operand : Operand}
      (hr : Readable { scope := s, strings := p.strings.length, temps } P operand) :
      Fits operand := (readable_cases hs h.frame hr).elim .literal .ranged
  have hminted {id : Int} {type : DataType}
      (hm : Env.Minted { scope := s, strings := p.strings.length, temps } id type) :
      Fits (.temporary id type) := .ranged (ranged_minted htemps hm)
  have hassignable {operand : Operand}
      (ha : Assignable { scope := s, strings := p.strings.length, temps } P operand) :
      Fits operand := by
    obtain ⟨location, type, rfl, hvisible⟩ := ha
    exact .ranged (ranged_visible hs hvisible)
  obtain ⟨op, left, right, result⟩ := q
  suffices hall : Fits left ∧ Fits right ∧ Fits result by
    simp only [Quad.operands, List.mem_cons, List.not_mem_nil, or_false] at hmem
    rcases hmem with rfl | rfl | rfl
    · exact hall.1
    · exact hall.2.1
    · exact hall.2.2
  cases op with
  | arith op =>
    obtain ⟨hl, hr, id, type, rfl, _, hresult, _⟩ := hflows
    exact ⟨hreadable hl, hreadable hr, hminted hresult⟩
  | rel op =>
    obtain ⟨hl, hr, id, type, rfl, _, hresult, _⟩ := hflows
    exact ⟨hreadable hl, hreadable hr, hminted hresult⟩
  | assign =>
    obtain rfl : right = .empty := htidy
    exact ⟨hreadable hflows.1, .empty, hassignable hflows.2.1⟩
  | goto =>
    obtain ⟨rfl, rfl⟩ : left = .empty ∧ right = .empty := htidy
    exact ⟨.empty, .empty, fits_target hflows.2⟩
  | gotoFalse =>
    obtain rfl : right = .empty := htidy
    exact ⟨hreadable hflows.1, .empty, fits_target hflows.2.2.1⟩
  | write =>
    obtain ⟨rfl, rfl⟩ : left = .empty ∧ right = .empty := htidy
    refine ⟨.empty, .empty, ?_⟩
    rcases hflows.1 with hresult | ⟨index, rfl, _⟩
    · exact hreadable hresult
    · exact .valueless rfl rfl
  | read =>
    obtain ⟨rfl, rfl⟩ : left = .empty ∧ right = .empty := htidy
    exact ⟨.empty, .empty, hassignable hflows.1⟩
  | announce =>
    obtain ⟨rfl, rfl⟩ : left = .empty ∧ right = .empty := htidy
    obtain ⟨name, rfl, _⟩ := hflows
    exact ⟨.empty, .empty, .valueless rfl rfl⟩
  | param =>
    obtain rfl : right = .empty := htidy
    obtain ⟨c, calls, entry, param, hinner, hparam, rfl, hl, _⟩ := hflows
    obtain ⟨_, _, horderly⟩ := hs _ _ hinner.entry
    have hsymbol := horderly.params.subset (List.mem_of_getElem? hparam)
    exact ⟨hreadable hl, .empty, .ranged (ranged_symbol hs hinner.entry hsymbol)⟩
  | call =>
    obtain rfl : right = .empty := htidy
    obtain ⟨c, calls, entry, _, _, rfl, hresult⟩ := hflows
    refine ⟨.valueless rfl rfl, .empty, ?_⟩
    rcases hresult with ⟨_, rfl, _⟩ | ⟨_, id, rfl, hresult, _⟩
    · exact .empty
    · exact hminted hresult
  | giveBack =>
    obtain ⟨rfl, rfl⟩ : left = .empty ∧ right = .empty := htidy
    exact ⟨.empty, .empty, hreadable hflows.1⟩
  | endFunction =>
    obtain ⟨rfl, rfl⟩ : left = .empty ∧ right = .empty := htidy
    obtain rfl : result = .empty := hflows.1
    exact ⟨.empty, .empty, .empty⟩
  | halt =>
    obtain ⟨rfl, rfl⟩ : left = .empty ∧ right = .empty := htidy
    obtain rfl : result = .empty := hflows.1
    exact ⟨.empty, .empty, .empty⟩
  | unknown code => cases hflows

/-- What is loaded through an operand of a quadruple has the static type of the operand. -/
theorem At.load_type (hp : p.LaidOut s points) (hs : s.Orderly) (h : At p points k m P)
    (hm : m.Forall HasRangeType) (hq : p.quads[k]? = some q) (hmem : operand ∈ q.operands)
    (hload : load p m operand = .ok v) : v.type = operand.type :=
  (h.fits hp hs hq hmem).load_type hm hload

theorem Puts.mono {conv conv' : Conversion} {m' : Machine κ} (h : Puts conv m operand v m')
    (hconv : ∀ {address : Int} {place : Address.Place} {w : Value},
      operand.target? = some address → Address.place? address = some place →
      conv v place.type w → conv' v place.type w) : Puts conv' m operand v m' := by
  cases h with
  | intro target placed writable converted =>
    exact .intro target placed writable (hconv target placed converted)

/-- What is computed or copied is widened where it is stored. -/
theorem At.computes_widened (hp : p.LaidOut s points) (hs : s.Orderly) (h : At p points k m P)
    (hm : m.Forall HasRangeType) (hq : p.quads[k]? = some q) (hcomputes : Computes p m q v)
    {address : Int} {place : Address.Place} (htarget : q.result.target? = some address)
    (hplace : Address.place? address = some place) :
    Widened v place.type (v.convert place.type) := by
  have hload : ∀ {operand : Operand} {v : Value}, operand ∈ q.operands →
      load p m operand = .ok v → v.type = operand.type := fun hmem => h.load_type hp hs hm hq hmem
  obtain ⟨temps, P', htemps, _, hflows⟩ := hp.flows h.point hq
  cases hcomputes with
  | arith op_eq left right computed =>
    simp only [Flows, op_eq] at hflows
    obtain ⟨_, _, id, type, hresult, htype, hminted, _⟩ := hflows
    rw [← hload (by simp [Quad.operands]) left, ← hload (by simp [Quad.operands]) right] at htype
    rw [hresult] at htarget
    rw [(ranged_minted htemps hminted).type_eq htarget hplace]
    exact widened_of_type (arith_type computed htype)
  | rel op_eq left right =>
    simp only [Flows, op_eq] at hflows
    obtain ⟨_, _, id, type, hresult, htype, hminted, _⟩ := hflows
    rw [hresult] at htarget
    rw [(ranged_minted htemps hminted).type_eq htarget hplace]
    exact widened_of_type (compare_type htype)
  | assign op_eq source =>
    simp only [Flows, op_eq] at hflows
    obtain ⟨_, ⟨location, type, hresult, hvisible⟩, htypes, _⟩ := hflows
    rw [hresult] at htarget htypes
    rw [(ranged_visible hs hvisible).type_eq htarget hplace]
    refine widened_of_canAssign ?_
    rwa [hload (by simp [Quad.operands]) source]

/-- An argument is widened where it is copied to. -/
theorem At.param_widened (hp : p.LaidOut s points) (hs : s.Orderly) (h : At p points k m P)
    (hm : m.Forall HasRangeType) (hq : p.quads[k]? = some q) (hop : q.op = .param)
    (hload : load p m q.left = .ok v) {address : Int} {place : Address.Place}
    (htarget : q.result.target? = some address) (hplace : Address.place? address = some place) :
    Widened v place.type (v.convert place.type) := by
  have htype := h.load_type hp hs hm hq (by simp [Quad.operands]) hload
  obtain ⟨temps, P', _, _, hflows⟩ := hp.flows h.point hq
  simp only [Flows, hop] at hflows
  obtain ⟨c, calls, entry, param, hinner, hparam, hresult, _, htypes, _⟩ := hflows
  obtain ⟨_, _, horderly⟩ := hs _ _ hinner.entry
  have hsymbol := horderly.params.subset (List.mem_of_getElem? hparam)
  rw [hresult] at htarget
  rw [(ranged_symbol hs hinner.entry hsymbol).type_eq htarget hplace]
  refine widened_of_canAssign ?_
  rwa [htype]

/-- A value given back is widened to what the function returns. -/
theorem At.giveBack_widened (hp : p.LaidOut s points) (hs : s.Orderly) (h : At p points k m P)
    (hm : m.Forall HasRangeType) (hq : p.quads[k]? = some q) (hop : q.op = .giveBack)
    (hload : load p m q.result = .ok v) :
    Widened v m.frame.function.returns (v.convert m.frame.function.returns) := by
  have htype := h.load_type hp hs hm hq (by simp [Quad.operands]) hload
  obtain ⟨temps, P', _, _, hflows⟩ := hp.flows h.point hq
  simp only [Flows, hop] at hflows
  obtain ⟨_, _, entry, hentry, hprogram, htypes⟩ := hflows
  rw [(hp.describes hentry hprogram h.frame.function).returns]
  refine widened_of_canAssign ?_
  rwa [htype]

/-- A caller wants the value of its call in a temporary of the type that the function gives back, or
not at all. -/
theorem At.caller (hp : p.LaidOut s points) (h : At p points k m P) {caller : Caller}
    {callers : List Caller} (hcallers : m.callers = caller :: callers) :
    ∃ q', quad? p caller.index = some q' ∧ (q'.result = .empty ∨
      ∃ id offset, q'.result = .temporary id m.frame.function.returns ∧
        Address.place? (Address.ofTemporary m.frame.function.returns id) =
          some { segment := .temporaries, type := m.frame.function.returns, offset }) := by
  obtain ⟨front, back, _, _, hstacked⟩ := h.stacked
  rw [hcallers] at hstacked
  generalize m.frame.function = function at hstacked ⊢
  cases hstacked with
  | @cons _ _ k' q' P₀ c calls _ front' back' quad op point announced called holds awaits rest =>
    obtain ⟨temps, P', htemps, _, hflows⟩ := hp.flows point quad
    simp only [Flows, op] at hflows
    obtain ⟨c', calls', entry, hinner, _, _, hresult⟩ := hflows
    obtain ⟨rfl, rfl⟩ := List.cons.inj (announced.symm.trans hinner.calls)
    have hdescribes := hp.describes hinner.entry (hp.announced point (by simp [announced])) called
    refine ⟨q', by simp [quad?, quad], ?_⟩
    rcases hresult with ⟨_, hempty, _⟩ | ⟨_, id, hid, hminted, _⟩
    · exact .inl hempty
    · rw [hdescribes.returns]
      exact .inr ⟨id, _, hid, place?_temporary hminted htemps⟩

/-- The value of a call has the type of the temporary that its caller wants it in. -/
theorem At.back_widened (hp : p.LaidOut s points) (h : At p points k m P) {value : Option Value}
    {m' : Machine κ} (htype : ∀ v ∈ value, v.type = m.frame.function.returns)
    (hback : ComesBack Converted p m value m') : ComesBack Widened p m value m' := by
  cases hback with
  | drops waiting called unwanted => exact .drops waiting called unwanted
  | @takes caller callers q' v m' waiting called wanted puts =>
    refine .takes waiting called wanted (puts.mono fun target placed converted => ?_)
    obtain ⟨q'', hquad, hresult⟩ := h.caller hp waiting
    obtain rfl : q' = q'' := Option.some.inj (called.symm.trans hquad)
    rcases hresult with hempty | ⟨id, offset, hid, hplace⟩
    · rw [hempty] at wanted
      cases wanted
    · rw [hid] at target
      obtain rfl := Option.some.inj target
      obtain rfl := Option.some.inj (hplace.symm.trans placed)
      rw [converted]
      exact widened_of_type (htype v rfl)

/-- A value that is loaded to be given back is given back: there is a caller that waits for it. -/
theorem At.giveBack_next [Console κ] (hp : p.LaidOut s points) (h : At p points k m P)
    (hq : p.quads[k]? = some q) (hop : q.op = .giveBack) (hload : load p m q.result = .ok v)
    (limit : Int) : ∃ m', Machine.step p limit m = .next m' := by
  have hcallers : m.callers ≠ [] := by
    -- a return stands in a function that was declared, and the main body is none
    intro hnil
    obtain ⟨temps, P', _, _, hflows⟩ := hp.flows h.point hq
    simp only [Flows, hop] at hflows
    obtain ⟨_, _, entry, hentry, _⟩ := hflows
    obtain ⟨opened, hnames⟩ := hp.names
    obtain ⟨front, back, _, _, hstacked⟩ := h.stacked
    rw [hnil] at hstacked
    cases hstacked with
    | nil main =>
      rw [← h.frame.name, main, hnames.reserved] at hentry
      cases hentry
  obtain ⟨caller, callers, hcallers⟩ := List.exists_cons_of_ne_nil hcallers
  obtain ⟨q', hquad, hresult⟩ := h.caller hp hcallers
  rw [Leaving.step (.giveBack (by simpa [quad?, h.index] using hq) hop hload)]
  simp only [Machine.leave, hcallers, hquad, deliver]
  rcases hresult with hempty | ⟨id, offset, hid, hplace⟩
  · simp only [hempty, Operand.isEmpty, if_true]
    exact ⟨_, rfl⟩
  · simp only [hid, Operand.isEmpty, Bool.false_eq_true, if_false, store, Operand.target?, hplace]
    exact ⟨_, rfl⟩

/-- Every value that a step of a program laid out stores is the one it was made from, or the float
of an int. -/
theorem At.advances [Console κ] (hp : p.LaidOut s points) (hs : s.Orderly) (h : At p points k m P)
    (hm : m.Forall HasRangeType) (hq : p.quads[k]? = some q) {m' : Machine κ}
    (hadvances : Advances Converted p m q m') : Advances Widened p m q m' := by
  cases hadvances with
  | store computes puts =>
    refine .store computes (puts.mono fun target placed converted => ?_)
    rw [converted]
    exact h.computes_widened hp hs hm hq computes target placed
  | read op target placed given parsed puts =>
    refine .read op target placed given parsed (puts.mono fun target' placed' converted => ?_)
    obtain rfl := Option.some.inj (target.symm.trans target')
    obtain rfl := Option.some.inj (placed.symm.trans placed')
    rw [converted]
    exact widened_of_type (parseInput_type (Address.place?_storable placed) parsed)
  | write op line_eq written => exact .write op line_eq written
  | pass op condition holds => exact .pass op condition holds
  | skip op condition fails result => exact .skip op condition fails result
  | jump op result => exact .jump op result
  | announce op listed => exact .announce op listed
  | param op waiting argument slot placed segment converted =>
    refine .param op waiting argument slot placed segment ?_
    rw [converted]
    exact h.param_widened hp hs hm hq op argument slot placed
  | call op waiting => exact .call op waiting
  | giveBack op given converted back =>
    have hwidened := h.giveBack_widened hp hs hm hq op given
    rw [← converted] at hwidened
    exact .giveBack op given hwidened (h.back_widened hp (by simp [hwidened.type_eq]) back)
  | endFunction op back => exact .endFunction op (h.back_widened hp (by simp) back)

/-- A step of a program laid out narrows nothing, and gives back what it is to give back. -/
theorem At.obeys [Console κ] (hp : p.LaidOut s points) (hs : s.Orderly) (h : At p points k m P)
    (hm : m.Forall HasRangeType) (hq : p.quads[k]? = some q) (limit : Int) :
    (Machine.step p limit m).Obeys Widened p m q := by
  have hquad : quad? p m.index = some q := by simpa [quad?, h.index] using hq
  have huntouched := step_untouching p limit m
  have hgives (hop : q.op = .giveBack) (v : Value) (hload : load p m q.result = .ok v) :=
    h.giveBack_next hp hq hop hload limit
  cases hstep : Machine.step p limit m with
  | next m' => exact h.advances hp hs hm hq (Machine.advances hquad hstep)
  | finished m' =>
    rw [hstep] at huntouched
    refine ⟨huntouched, fun hop v hload => ?_⟩
    obtain ⟨m₁, hnext⟩ := hgives hop v hload
    simp [hstep] at hnext
  | faulted f m' =>
    rw [hstep] at huntouched
    refine ⟨huntouched, fun hop v hload => ?_⟩
    obtain ⟨m₁, hnext⟩ := hgives hop v hload
    simp [hstep] at hnext

/-- A machine that goes on stands at a point again. -/
theorem At.unfinished [Console κ] (hp : p.LaidOut s points) (limit : Int) (fuel : Nat)
    (h : At p points k m P) {m' : Machine κ} (hrun : Machine.run p limit fuel m = .unfinished m') :
    ∃ k' P', At p points k' m' P' := by
  induction fuel generalizing k m P with
  | zero =>
    obtain rfl := Outcome.unfinished.inj hrun
    exact ⟨k, P, h⟩
  | succ fuel ih =>
    have hgoes := h.step hp limit
    simp only [Machine.run] at hrun
    cases hstep : Machine.step p limit m with
    | next m₁ =>
      rw [hstep] at hgoes hrun
      obtain ⟨k₁, P₁, h₁⟩ := hgoes
      exact ih h₁ hrun
    | finished m₁ =>
      rw [hstep] at hrun
      cases hrun
    | faulted f₁ m₁ =>
      rw [hstep] at hrun
      cases hrun

theorem At.quad?_eq (h : At p points k m P) : quad? p m.index = p.quads[k]? := by
  simp [quad?, h.index]

/-- A machine at the start holds nothing but its globals. -/
theorem Forall.start {globals : Memory} (h : globals.Typed) (console : κ) :
    (start p globals console).Forall HasRangeType :=
  ⟨h, ⟨.empty, .empty⟩, by simp [Machine.start], by simp [Machine.start]⟩

end Machine

end DuckLang
