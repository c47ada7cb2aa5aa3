import DuckLang.Proofs.Machine.Typing
import DuckLang.Proofs.Source.Piece

/-! The code of an expression, run.  It computes what the tree evaluates to and writes nothing but
temporaries that were not in use; where the tree has no value it stops with a fault, or leaves an
operand without one. -/

namespace DuckLang

open Machine

theorem ok_of_toOption {ε α : Type} {x : Except ε α} {a : α} (h : x.toOption = some a) :
    x = .ok a := by
  cases x with
  | ok b => exact congrArg Except.ok (Option.some.inj h)
  | error cause => cases h

theorem error_of_toOption {ε α : Type} {x : Except ε α} (h : x.toOption = none) :
    ∃ cause, x = .error cause := by
  cases x with
  | ok b => cases h
  | error cause => exact ⟨cause, rfl⟩

/-! ### Variables -/

/-- The values of variables, those of the program and those of a function. -/
structure Variables where
  globals : Memory := {}
  locals : Memory := {}

namespace Variables

def get? (vars : Variables) (address : Int) : Option Value :=
  match Address.place? address with
  | some { segment := .globals, .. } => vars.globals.get? address
  | some { segment := .locals, .. } => vars.locals.get? address
  | _ => none

def value? (vars : Variables) (s : Scope) (name : String) : Option Value :=
  (s.symbol? name).bind fun symbol => vars.get? symbol.address

/-- The values have the types of the ranges that they lie in. -/
structure Typed (vars : Variables) : Prop where
  globals : vars.globals.Typed
  locals : vars.locals.Typed

end Variables

/-- A name that is known is stored among the globals or the locals, in the range of its type. -/
theorem Scope.Orderly.placed {s : Scope} (hs : s.Orderly) {name : String} {symbol : Symbol}
    (h : s.symbol? name = some symbol) :
    ∃ segment, (segment = .globals ∨ segment = .locals) ∧ symbol.Placed segment := by
  have hentry : ∀ {owner : String} {entry : Scope.Entry}, s.entryOf? owner = some entry →
      entry.symbol? name = some symbol →
      ∃ segment, (segment = .globals ∨ segment = .locals) ∧ symbol.Placed segment := by
    intro owner entry howner hsymbol
    obtain ⟨segment, hsegment, horderly⟩ := hs owner entry howner
    exact ⟨segment, hsegment, horderly.placed symbol (List.mem_of_find?_eq_some hsymbol)⟩
  simp only [Scope.symbol?] at h
  split at h
  · rename_i found hfound
    obtain ⟨entry, howner, hsymbol⟩ := Option.bind_eq_some_iff.mp hfound
    obtain rfl := Option.some.inj h
    exact hentry howner hsymbol
  · obtain ⟨entry, howner, hsymbol⟩ := Option.bind_eq_some_iff.mp h
    exact hentry howner hsymbol

theorem Variables.Typed.value? {vars : Variables} (h : vars.Typed) {s : Scope} (hs : s.Orderly)
    {name : String} {symbol : Symbol} (hsymbol : s.symbol? name = some symbol) {v : Value}
    (hv : vars.value? s name = some v) : v.type = symbol.type := by
  obtain ⟨segment, hsegment, offset, hplace⟩ := hs.placed hsymbol
  simp only [Variables.value?, hsymbol, Option.bind_some, Variables.get?, hplace] at hv
  rcases hsegment with rfl | rfl
  · exact h.globals _ _ hv _ hplace
  · exact h.locals _ _ hv _ hplace

/-! ### Types -/

theorem Value.convert_self {v : Value} {type : DataType} (h : v.type = type) :
    v.convert type = v := by
  simp only [Value.convert, h, if_true]

theorem literalValue_storable {lexeme : String} {v : Value} (h : literalValue lexeme = .ok v) :
    v.type.isStorable = true := by
  simp only [literalValue] at h
  split at h <;> split at h <;> try split at h
  all_goals first | cases h; rfl | cases h

theorem Constant.value?_storable {c : Constant} {v : Value} (h : c.value? = some v) :
    v.type.isStorable = true := by
  obtain ⟨literal, isNegated⟩ := c
  cases isNegated with
  | false => exact literalValue_storable (ok_of_toOption h)
  | true =>
    obtain ⟨w, _, hv⟩ := Option.bind_eq_some_iff.mp h
    cases w <;> simp only [Value.negated?, Option.some.injEq, reduceCtorEq] at hv <;>
      · subst hv
        rfl

theorem Operation.type_compute {op : Operation} {l r v : Value} {type : DataType}
    (hv : op.compute l r = .ok v) (htype : Cube.result? l.type op.operator r.type = some type) :
    v.type = type := by
  cases op with
  | arith op => exact arith_type hv htype
  | rel op =>
    obtain rfl := Except.ok.inj hv
    exact compare_type htype

/-- What a tree evaluates to has the type that the cube gives it. -/
theorem Tree.type_eval {s : Scope} {get : String → Option Value}
    (hget : ∀ {name symbol v}, s.symbol? name = some symbol → get name = some v →
      v.type = symbol.type)
    {tree : Tree} {type : DataType} (htype : tree.type? s = some type) {v : Value}
    (hv : tree.eval get = some v) : v.type = type := by
  induction tree generalizing type v with
  | var name =>
    obtain ⟨symbol, hsymbol, rfl⟩ := Option.map_eq_some_iff.mp htype
    exact hget hsymbol hv
  | constant c =>
    obtain ⟨w, hw, rfl⟩ := Option.map_eq_some_iff.mp htype
    rw [Option.some.inj (hw.symm.trans hv)]
  | binary op l r ihl ihr =>
    simp only [type?] at htype
    split at htype
    · rename_i t u hl hr
      obtain ⟨x, hx, hv⟩ := Option.bind_eq_some_iff.mp hv
      obtain ⟨y, hy, hv⟩ := Option.bind_eq_some_iff.mp hv
      rw [← ihl hl hx, ← ihr hr hy] at htype
      exact Operation.type_compute (ok_of_toOption hv) htype
    · cases htype

theorem Cube.result?_storable {l r type : DataType} {op : Operation}
    (h : Cube.result? l op.operator r = some type) : type.isStorable = true := by
  cases op <;> simp only [Operation.operator, Cube.result?] at h <;> split at h
  · obtain rfl := Option.some.inj h
    split <;> rfl
  · cases h
  · obtain rfl := Option.some.inj h
    rfl
  · cases h

/-! ### Temporaries -/

/-- The temporaries in use hold in the one memory what they hold in the other. -/
def TempPool.Keeps (pool : TempPool) (mem mem' : Memory) : Prop :=
  ∀ id type, pool.IsLive id → type.isStorable = true →
    mem'.get? (Address.ofTemporary type id) = mem.get? (Address.ofTemporary type id)

theorem TempPool.Keeps.refl (pool : TempPool) (mem : Memory) : pool.Keeps mem mem :=
  fun _ _ _ _ => rfl

theorem TempPool.Keeps.trans {pool : TempPool} {mem mem' mem'' : Memory} (h : pool.Keeps mem mem')
    (h' : pool.Keeps mem' mem'') : pool.Keeps mem mem'' :=
  fun id type hlive htype => (h' id type hlive htype).trans (h id type hlive htype)

theorem place?_ofTemporary {id : Int} {type : DataType} (hpos : 0 ≤ id)
    (hlt : id < Address.rangeSize) (htype : type.isStorable = true) :
    Address.place? (Address.ofTemporary type id) =
      some { segment := .temporaries, type, offset := id.toNat } :=
  @place?_temporary { scope := {}, strings := 0, temps := Address.rangeSize } id type
    ⟨hpos, hlt, htype⟩ (Nat.le_refl _)

/-- A temporary that is not in use is written without a change to one that is. -/
theorem TempPool.Keeps.set {pool : TempPool} (hroom : pool.next ≤ Address.rangeSize) {id : Int}
    (hpos : 0 ≤ id) (hlt : id < Address.rangeSize) (hfree : ¬pool.IsLive id) {type : DataType}
    (htype : type.isStorable = true) (mem : Memory) (v : Value) :
    pool.Keeps mem (mem.set (Address.ofTemporary type id) v) := by
  intro id' type' hlive htype'
  rw [Memory.get?_set, if_neg]
  intro heq
  have hplace := place?_ofTemporary hpos hlt htype
  have hlt' : id' < Address.rangeSize := by
    have := hlive.2.1
    omega
  have hplace' := place?_ofTemporary hlive.1 hlt' htype'
  rw [heq, hplace] at hplace'
  simp only [Option.some.injEq, Address.Place.mk.injEq, true_and] at hplace'
  obtain rfl : id = id' := by
    have := hlive.1
    omega
  exact hfree hlive

/-- An operand that code does not change the value of if it keeps the temporaries in use. -/
def Operand.Steady (temps : TempPool) : Operand → Prop
  | temporary id type => temps.IsLive id ∧ type.isStorable = true
  | address location _ => ∃ place, Address.place? location = some place ∧
      (place.segment = .globals ∨ place.segment = .locals)
  | _ => True

theorem Tree.Makes.steady {s : Scope} {tree : Tree} {temps : TempPool} {b : Piece}
    (h : tree.Makes s temps b) (hs : s.Orderly) (htemps : temps.Orderly) :
    b.operand.Steady b.temps := by
  have hfits := h.fits htemps
  cases h with
  | var declared =>
    obtain ⟨segment, hsegment, offset, hplace⟩ := hs.placed declared
    exact ⟨_, hplace, hsegment⟩
  | @constant c v _ value => cases v <;> trivial
  | binary left right typed =>
    exact ⟨hfits.live.mpr (.inr rfl), Cube.result?_storable typed⟩

/-- The quadruples of a program from an index on. -/
def Program.Holds (p : Program) (base : Nat) (quads : List Quad) : Prop :=
  ∀ i q, quads[i]? = some q → p.quads[base + i]? = some q

theorem Program.Holds.append {p : Program} {base : Nat} {xs ys : List Quad}
    (h : p.Holds base (xs ++ ys)) : p.Holds base xs ∧ p.Holds (base + xs.length) ys := by
  refine ⟨fun i q hi => h i q ?_, fun i q hi => ?_⟩
  · have hlt := (List.getElem?_eq_some_iff.mp hi).1
    rwa [List.getElem?_append_left hlt]
  · have hget := h (xs.length + i) q (by
      rw [List.getElem?_append_right (by omega)]
      simpa using hi)
    rwa [← Nat.add_assoc] at hget

theorem Program.holds_append {p : Program} {quads : Array Quad} {code : List Quad}
    (h : p.quads = quads ++ code.toArray) : p.Holds quads.size code := by
  intro i q hq
  rw [h, Array.getElem?_append_right (by omega), Nat.add_sub_cancel_left]
  simpa using hq

namespace Machine

variable {κ : Type} {p : Program} {m : Machine κ}

def vars (m : Machine κ) : Variables :=
  { globals := m.globals, locals := m.frame.locals }

/-- The machine at another index, with other values of the temporaries. -/
def onward (m : Machine κ) (index : Int) (temps : Memory) : Machine κ :=
  { m with frame := { m.frame with temps }, index }

theorem quad?_of_holds {base : Nat} {quads : List Quad} (h : p.Holds base quads) {i : Nat}
    {q : Quad} (hq : quads[i]? = some q) {index : Int} (hindex : index = base + i) :
    quad? p index = some q := by
  have hget := h i q hq
  rw [quad?, if_pos (by omega), hindex]
  exact_mod_cast hget

theorem load_onward {operand : Operand} {temps : TempPool} (h : operand.Steady temps) {mem : Memory}
    (hkeeps : temps.Keeps m.frame.temps mem) (index : Int) :
    load p (m.onward index mem) operand = load p m operand := by
  cases operand with
  | temporary id type =>
    have hcell := hkeeps id type h.1 h.2
    simp only [load, Operand.literal?, Operand.target?, onward]
    cases Address.place? (Address.ofTemporary type id) with
    | none => rfl
    | some place =>
      dsimp only
      cases place.segment with
      | temporaries => rw [hcell]
      | _ => rfl
  | address location type =>
    obtain ⟨place, hplace, hsegment⟩ := h
    simp only [load, Operand.literal?, Operand.target?, hplace, onward]
    rcases hsegment with hsegment | hsegment <;> rw [hsegment]
  | _ => rfl

theorem load_address {address : Int} {type : DataType} {place : Address.Place}
    (hplace : Address.place? address = some place)
    (hsegment : place.segment = .globals ∨ place.segment = .locals) :
    (load p m (.address address type)).toOption = m.vars.get? address := by
  obtain ⟨segment, placed, offset⟩ := place
  simp only [load, Operand.literal?, Operand.target?, hplace, Variables.get?, vars]
  rcases hsegment with rfl | rfl
  · dsimp only
    cases m.globals.get? address <;> rfl
  · dsimp only
    cases m.frame.locals.get? address <;> rfl

theorem load_variable {s : Scope} (hs : s.Orderly) {name : String} {symbol : Symbol}
    (h : s.symbol? name = some symbol) :
    (load p m (.address symbol.address symbol.type)).toOption = m.vars.value? s name := by
  obtain ⟨segment, hsegment, offset, hplace⟩ := hs.placed h
  rw [load_address hplace hsegment, Variables.value?, h, Option.bind_some]

theorem load_constant {v : Value} (h : v.type.isStorable = true) :
    load p m (.literal v) = .ok v := by
  cases v <;> first | rfl | cases h

theorem load_temporary {id : Int} {type : DataType} {offset : Nat}
    (h : Address.place? (Address.ofTemporary type id) =
      some { segment := .temporaries, type, offset }) {index : Int} {mem : Memory} {v : Value} :
    load p (m.onward index (mem.set (Address.ofTemporary type id) v)) (.temporary id type) =
      .ok v := by
  simp only [load, Operand.literal?, Operand.target?, h, onward, Memory.get?_set, if_true]

/-- What the quadruple of an operation does: it writes what the operation makes of its operands into
its temporary, or stops with a fault if one of them has no value or there is nothing to write. -/
theorem step_operation [Console κ] (limit : Int) {op : Operation} {left right : Operand} {id : Int}
    {type : DataType} {offset : Nat}
    (hquad : quad? p m.index = some
      { op := .ofOperator op.operator, left, right, result := .temporary id type })
    (hplace : Address.place? (Address.ofTemporary type id) =
      some { segment := .temporaries, type, offset }) :
    (∃ l r v, load p m left = .ok l ∧ load p m right = .ok r ∧ op.compute l r = .ok v ∧
      step p limit m = .next (m.onward (m.index + 1)
        (m.frame.temps.set (Address.ofTemporary type id) (v.convert type)))) ∨
    (∃ f, step p limit m = .faulted f m) ∧
      ∀ {l r}, load p m left = .ok l → load p m right = .ok r →
        (op.compute l r).toOption = none := by
  have hstore : ∀ v, store m (.temporary id type) v = .ok { m with frame := { m.frame with
      temps := m.frame.temps.set (Address.ofTemporary type id) (v.convert type) } } := by
    intro v
    simp only [store, Operand.target?, hplace]
  have hstep : step p limit m = continueWith p m (do
      let l ← load p m left
      let r ← load p m right
      store m (.temporary id type) (← op.compute l r)) := by
    simp only [step, hquad, execute]
    cases op <;> rfl
  rw [hstep]
  cases hl : load p m left with
  | error cause => exact .inr ⟨⟨_, rfl⟩, by simp⟩
  | ok l =>
    cases hr : load p m right with
    | error cause => exact .inr ⟨⟨_, rfl⟩, by simp⟩
    | ok r =>
      cases hvalue : op.compute l r with
      | error cause =>
        refine .inr ⟨⟨faultAt p m.index cause, ?_⟩, ?_⟩
        · simp only [bind, Except.bind, hvalue]
          rfl
        · rintro _ _ ⟨⟩ ⟨⟩
          simp [hvalue, Except.toOption]
      | ok v =>
        refine .inl ⟨l, r, v, rfl, rfl, hvalue, ?_⟩
        simp only [bind, Except.bind, hvalue, hstore]
        rfl

theorem onward_self {index : Int} (h : m.index = index) : m.onward index m.frame.temps = m := by
  rw [← h]
  rfl

end Machine

theorem TempPool.Keeps.mono {pool pool' : TempPool} {mem mem' : Memory} (h : pool'.Keeps mem mem')
    (hlive : ∀ {id}, pool.IsLive id → pool'.IsLive id) : pool.Keeps mem mem' :=
  fun id type hid htype => h id type (hlive hid) htype

/-! ### Code that runs -/

/-- Code that a machine runs from an index on: to its end, where the operand has the given value if
there is one, or to a fault in the middle if there is none.  Nothing changes but temporaries that
were not in use. -/
def Piece.Runs {κ : Type} [Console κ] (p : Program) (limit : Int) (base : Nat) (temps : TempPool)
    (b : Piece) (m : Machine κ) (value? : Option Value) : Prop :=
  ∃ n mem, temps.Keeps m.frame.temps mem ∧
    Within p limit base (base + b.quads.length : Nat) m n (m.onward (base + n : Nat) mem) ∧
    (n < b.quads.length ∧ value? = none ∧
        (∃ f, step p limit (m.onward (base + n : Nat) mem) =
          .faulted f (m.onward (base + n : Nat) mem)) ∨
      n = b.quads.length ∧ (load p (m.onward (base + n : Nat) mem) b.operand).toOption = value?)

section Runs

variable {κ : Type} [Console κ] {p : Program} {limit : Int} {base : Nat} {temps : TempPool}
  {a b : Piece} {m : Machine κ} {l? r? : Option Value}

theorem Piece.Runs.empty (hquads : b.quads = []) (hindex : m.index = base)
    (hload : (load p m b.operand).toOption = l?) : b.Runs p limit base temps m l? := by
  refine ⟨0, m.frame.temps, .refl _ _, ?_, .inr ?_⟩ <;>
    rw [Nat.add_zero, onward_self hindex]
  · exact .zero
  · exact ⟨by rw [hquads]; rfl, hload⟩

/-- An operation whose operands are computed before, the left one first. -/
theorem Piece.Runs.combine {op : Operation} {type : DataType} (ha : a.Fits temps)
    (hb : b.Fits a.temps) (hsteady : a.operand.Steady a.temps) (hstorable : type.isStorable = true)
    (hroom : b.temps.alloc.2.next ≤ Address.rangeSize)
    (htyped : ∀ {l r v}, l? = some l → r? = some r → op.compute l r = .ok v → v.type = type)
    (hleft : a.Runs p limit base temps m l?)
    (hright : ∀ mem, b.Runs p limit (base + a.quads.length) a.temps
      (m.onward (base + a.quads.length : Nat) mem) r?)
    (hop : p.Holds (base + (a.quads ++ b.quads).length)
      [{ op := .ofOperator op.operator, left := a.operand, right := b.operand,
         result := .temporary b.temps.alloc.1 type }]) :
    (a.combine op type b).Runs p limit base temps m
      (l?.bind fun l => r?.bind fun r => (op.compute l r).toOption) := by
  have hlength : (a.combine op type b).quads.length = a.quads.length + b.quads.length + 1 := by
    simp [Piece.combine, Nat.add_assoc]
  obtain ⟨n₁, mem₁, hkeeps₁, hwithin₁, ⟨hlt, rfl, hfault⟩ | ⟨rfl, hload₁⟩⟩ := hleft
  · exact ⟨n₁, mem₁, hkeeps₁, hwithin₁.mono (Int.le_refl _) (by omega),
      .inl ⟨by omega, rfl, hfault⟩⟩
  obtain ⟨n₂, mem₂, hkeeps₂, hwithin₂, hend⟩ := hright mem₁
  have hkeeps : temps.Keeps m.frame.temps mem₂ :=
    hkeeps₁.trans (hkeeps₂.mono fun hid => ha.live.mpr (.inl hid))
  have hassoc : base + a.quads.length + n₂ = base + (a.quads.length + n₂) := Nat.add_assoc _ _ _
  rw [hassoc] at hwithin₂ hend
  have hwithin : Within p limit base (base + (a.combine op type b).quads.length : Nat) m
      (a.quads.length + n₂) (m.onward (base + (a.quads.length + n₂) : Nat) mem₂) :=
    (hwithin₁.mono (Int.le_refl _) (by omega)).trans (hwithin₂.mono (by omega) (by omega))
  rcases hend with ⟨hlt, rfl, hfault⟩ | ⟨rfl, hload₂⟩
  · refine ⟨_, mem₂, hkeeps, hwithin, .inl ⟨by omega, by cases l? <;> rfl, hfault⟩⟩
  -- both operands are there; the right one left the left one as it was
  let m₂ := m.onward (base + (a.quads.length + b.quads.length) : Nat) mem₂
  have hsame : load p m₂ a.operand =
      load p (m.onward (base + a.quads.length : Nat) mem₁) a.operand :=
    load_onward (m := m.onward (base + a.quads.length : Nat) mem₁) hsteady hkeeps₂ _
  rw [← hsame] at hload₁
  have hrange := hb.orderly.alloc_range
  have hplace := place?_ofTemporary hrange.1 (by omega) hstorable
  have hquad : quad? p m₂.index = some
      { op := .ofOperator op.operator, left := a.operand, right := b.operand,
        result := .temporary b.temps.alloc.1 type } :=
    quad?_of_holds hop (i := 0) rfl (by simp [m₂, onward])
  have hinside : m₂.index < (base + (a.combine op type b).quads.length : Nat) := by
    simp only [m₂, onward]
    omega
  rcases step_operation limit hquad hplace with
    ⟨l, r, v, hl, hr, hv, hstep⟩ | ⟨hfault, hnone⟩
  · have hlv : l? = some l := by rw [← hload₁, hl]; rfl
    have hrv : r? = some r := by rw [← hload₂]; exact congrArg Except.toOption hr
    rw [Value.convert_self (htyped hlv hrv hv)] at hstep
    refine ⟨a.quads.length + b.quads.length + 1, _, ?_, hwithin.trans (.step ?_ hinside hstep),
      .inr ⟨hlength.symm, ?_⟩⟩
    · refine hkeeps.trans (.set ?_ hrange.1 (by omega) ?_ hstorable _ v)
      · have := ha.next_le
        have := hb.next_le
        have := b.temps.next_le_alloc
        omega
      · exact fun hid => TempPool.not_isLive_alloc (hb.live.mpr (.inl (ha.live.mpr (.inl hid))))
    · simp only [onward]
      omega
    · rw [hlv, hrv, Option.bind_some, Option.bind_some, hv, ← Nat.add_assoc]
      exact congrArg Except.toOption (load_temporary (m := m₂) hplace)
  · refine ⟨_, mem₂, hkeeps, hwithin, .inl ⟨by omega, ?_, hfault⟩⟩
    cases l? with
    | none => rfl
    | some l =>
      cases r? with
      | none => rfl
      | some r => exact hnone (ok_of_toOption hload₁) (ok_of_toOption hload₂)

/-- Code that is run to its end, where its operand has the given value. -/
structure Piece.Yields (p : Program) (limit : Int) (base : Nat) (b : Piece) (m : Machine κ)
    (v : Value) (m' : Machine κ) : Prop where
  reaches : Reaches p limit m b.quads.length m'
  index : m'.index = (base + b.quads.length : Nat)
  load : load p m' b.operand = .ok v

/-- Code that is not run to its end without a fault, or whose operand has no value there. -/
inductive Piece.Fails (p : Program) (limit : Int) (b : Piece) (m : Machine κ) : Prop
  | inside {n : Nat} {m' : Machine κ} {f : Fault} (reaches : Reaches p limit m n m')
      (before : n < b.quads.length) (faulted : step p limit m' = .faulted f m') :
      Fails p limit b m
  | behind {m' : Machine κ} {cause : Fault.Cause} (reaches : Reaches p limit m b.quads.length m')
      (unloaded : load p m' b.operand = .error cause) : Fails p limit b m

theorem Piece.Runs.yields_iff (h : b.Runs p limit base temps m l?) {v : Value} :
    l? = some v ↔ ∃ m', b.Yields p limit base m v m' := by
  obtain ⟨n, mem, _, hwithin, ⟨hlt, rfl, f, hfault⟩ | ⟨rfl, hload⟩⟩ := h
  · refine ⟨by simp, ?_⟩
    rintro ⟨m', hyields⟩
    have := hwithin.reaches.of_fault hfault hyields.reaches
    omega
  · rw [← hload]
    constructor
    · exact fun hvalue => ⟨_, hwithin.reaches, rfl, ok_of_toOption hvalue⟩
    · rintro ⟨m', hyields⟩
      obtain rfl := hyields.reaches.unique hwithin.reaches
      rw [hyields.load]
      rfl

theorem Piece.Runs.fails_iff (h : b.Runs p limit base temps m l?) :
    l? = none ↔ b.Fails p limit m := by
  obtain ⟨n, mem, _, hwithin, ⟨hlt, rfl, f, hfault⟩ | ⟨rfl, hload⟩⟩ := h
  · exact ⟨fun _ => .inside hwithin.reaches hlt hfault, fun _ => rfl⟩
  · rw [← hload]
    constructor
    · intro hnone
      obtain ⟨cause, hresult⟩ := error_of_toOption hnone
      exact .behind hwithin.reaches hresult
    · rintro (⟨hreach, hbefore, hfault⟩ | ⟨hreach, hload⟩)
      · have := hreach.of_fault hfault hwithin.reaches
        omega
      · obtain rfl := hreach.unique hwithin.reaches
        rw [hload]
        rfl

theorem Piece.Runs.keeps (h : b.Runs p limit base temps m l?) {v : Value} {m' : Machine κ}
    (hyields : b.Yields p limit base m v m') :
    m' = m.onward (base + b.quads.length : Nat) m'.frame.temps ∧
      temps.Keeps m.frame.temps m'.frame.temps := by
  obtain ⟨n, mem, hkeeps, hwithin, ⟨hlt, _, f, hfault⟩ | ⟨rfl, _⟩⟩ := h
  · have := hwithin.reaches.of_fault hfault hyields.reaches
    omega
  · obtain rfl := hyields.reaches.unique hwithin.reaches
    exact ⟨rfl, hkeeps⟩

end Runs

/-- The code of a tree computes its value, and no temporary in use changes. -/
theorem Tree.Makes.runs {s : Scope} {tree : Tree} {temps : TempPool} {b : Piece}
    (h : tree.Makes s temps b) (hs : s.Orderly) (htemps : temps.Orderly)
    (hroom : b.temps.next ≤ Address.rangeSize) {κ : Type} [Console κ] {p : Program} (limit : Int)
    {base : Nat} (hcode : p.Holds base b.quads) {m : Machine κ} (hindex : m.index = base)
    (hvars : m.vars.Typed) :
    b.Runs p limit base temps m (tree.eval (m.vars.value? s)) := by
  induction h generalizing base m with
  | var declared => exact .empty rfl hindex (load_variable hs declared)
  | constant value =>
    refine .empty rfl hindex ?_
    rw [load_constant (Constant.value?_storable value), eval, value]
    rfl
  | @binary op l r temps a b type left right typed ihl ihr =>
    have ha := left.fits htemps
    have hb := right.fits ha.orderly
    have hnext := b.temps.next_le_alloc
    have hbelow := hb.next_le
    have hnew : b.temps.alloc.2.next ≤ Address.rangeSize := by
      simpa only [Piece.combine, TempPool.next_without] using hroom
    obtain ⟨hboth, hop⟩ := Program.Holds.append hcode
    obtain ⟨hleft, hright⟩ := Program.Holds.append hboth
    refine Piece.Runs.combine ha hb (left.steady hs htemps) (Cube.result?_storable typed) hnew ?_
      (ihl htemps (by omega) hleft hindex hvars)
      (fun mem => ihr (m := m.onward (base + a.quads.length : Nat) mem) ha.orderly (by omega) hright
        rfl hvars) hop
    intro v w x hv hw hx
    have hvalue : (Tree.binary op l r).eval (m.vars.value? s) = some x := by
      rw [eval, hv, hw, Option.bind_some, Option.bind_some, hx]
      rfl
    exact Tree.type_eval (fun hsymbol => hvars.value? hs hsymbol)
      (Tree.Makes.binary left right typed).type_eq hvalue

end DuckLang
