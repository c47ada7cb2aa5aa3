import DuckLang.Proofs.Emitter.Temporaries
import DuckLang.Proofs.Source.Expression

/-! Pieces of code: what is made of an expression and of the arguments of a call.  Behind a piece of
code those temporaries are in use that were before it, and the one that its operand may be. -/

namespace DuckLang

/-- The code of an expression: its quadruples, the operand that stands for its value then and the
temporaries that are free behind it. -/
structure Piece where
  operand : Operand
  type : DataType
  quads : List Quad := []
  temps : TempPool

namespace Piece

/-- The code of an operation on what two pieces of code leave. -/
def combine (op : Operation) (type : DataType) (l r : Piece) : Piece :=
  let result : Operand := .temporary r.temps.alloc.1 type
  { operand := result
    type
    quads := l.quads ++ r.quads ++
      [{ op := .ofOperator op.operator, left := l.operand, right := r.operand, result }]
    temps := (r.temps.alloc.2.without l.operand).without r.operand }

def blank (temps : TempPool) : Piece :=
  { operand := .empty, type := .void, temps }

/-- The code of arguments with one more, which is copied into the slot of a parameter. -/
def pass (b a : Piece) (param : Symbol) : Piece :=
  { operand := .empty
    type := .void
    quads := b.quads ++ a.quads ++
      [{ op := .param, left := a.operand, result := .address param.address param.type }]
    temps := a.temps.without a.operand }

/-- The code of a call, given that of its arguments. -/
def called (b : Piece) (function : String) (returns : DataType) : Piece :=
  let result : Operand := .temporary b.temps.alloc.1 returns
  { operand := result
    type := returns
    quads := { op := .announce, result := .function function } ::
      (b.quads ++ [{ op := .call, left := .function function, result }])
    temps := b.temps.alloc.2 }

end Piece

/-! ### Code of trees -/

/-- The pieces of code that are made of trees, with the temporaries that are free before it. -/
inductive Tree.Makes (s : Scope) : Tree → TempPool → Piece → Prop
  | var {name : String} {symbol : Symbol} {temps : TempPool}
      (declared : s.symbol? name = some symbol) :
      Makes s (.var name) temps
        { operand := .address symbol.address symbol.type, type := symbol.type, temps }
  | constant {c : Constant} {v : Value} {temps : TempPool} (value : c.value? = some v) :
      Makes s (.constant c) temps { operand := .literal v, type := v.type, temps }
  | binary {op : Operation} {l r : Tree} {temps : TempPool} {a b : Piece} {type : DataType}
      (left : Makes s l temps a) (right : Makes s r a.temps b)
      (typed : Cube.result? a.type op.operator b.type = some type) :
      Makes s (.binary op l r) temps (a.combine op type b)

theorem Tree.Makes.of_var {s : Scope} {name : String} {temps : TempPool} {b : Piece}
    (h : (Tree.var name).Makes s temps b) : ∃ symbol, s.symbol? name = some symbol ∧
      b = { operand := .address symbol.address symbol.type, type := symbol.type, temps } := by
  cases h with
  | var declared => exact ⟨_, declared, rfl⟩

theorem Tree.Makes.of_constant {s : Scope} {c : Constant} {temps : TempPool} {b : Piece}
    (h : (Tree.constant c).Makes s temps b) :
    ∃ v, c.value? = some v ∧ b = { operand := .literal v, type := v.type, temps } := by
  cases h with
  | constant value => exact ⟨_, value, rfl⟩

theorem Tree.Makes.of_binary {s : Scope} {op : Operation} {l r : Tree} {temps : TempPool}
    {c : Piece} (h : (Tree.binary op l r).Makes s temps c) :
    ∃ a b type, l.Makes s temps a ∧ r.Makes s a.temps b ∧
      Cube.result? a.type op.operator b.type = some type ∧ c = a.combine op type b := by
  cases h with
  | binary left right typed => exact ⟨_, _, _, left, right, typed, rfl⟩

theorem Tree.Makes.type_eq {s : Scope} {tree : Tree} {temps : TempPool} {b : Piece}
    (h : tree.Makes s temps b) : tree.type? s = some b.type := by
  induction h with
  | var declared => simp [type?, declared]
  | constant value => simp [type?, value]
  | binary left right typed ihl ihr => simp only [type?, ihl, ihr, typed]; rfl

/-- A tree that the cube types has code. -/
theorem Tree.makes_of_type {s : Scope} {tree : Tree} {type : DataType}
    (h : tree.type? s = some type) (temps : TempPool) : ∃ b, tree.Makes s temps b := by
  induction tree generalizing type temps with
  | var name =>
    obtain ⟨symbol, hsymbol, _⟩ := Option.map_eq_some_iff.mp h
    exact ⟨_, .var hsymbol⟩
  | constant c =>
    obtain ⟨v, hvalue, _⟩ := Option.map_eq_some_iff.mp h
    exact ⟨_, .constant hvalue⟩
  | binary op l r ihl ihr =>
    simp only [type?] at h
    split at h
    · rename_i t u hl hr
      obtain ⟨a, ha⟩ := ihl hl temps
      obtain ⟨b, hb⟩ := ihr hr a.temps
      obtain rfl : a.type = t := Option.some.inj (ha.type_eq.symm.trans hl)
      obtain rfl : b.type = u := Option.some.inj (hb.type_eq.symm.trans hr)
      exact ⟨_, .binary ha hb h⟩
    · cases h

/-- A tree has one code. -/
theorem Tree.Makes.unique {s : Scope} {tree : Tree} {temps : TempPool} {b c : Piece}
    (hb : tree.Makes s temps b) (hc : tree.Makes s temps c) : b = c := by
  induction hb generalizing c with
  | var declared =>
    obtain ⟨symbol, hsymbol, rfl⟩ := hc.of_var
    obtain rfl := Option.some.inj (declared.symm.trans hsymbol)
    rfl
  | constant value =>
    obtain ⟨v, hv, rfl⟩ := hc.of_constant
    obtain rfl := Option.some.inj (value.symm.trans hv)
    rfl
  | binary left right typed ihl ihr =>
    obtain ⟨a', b', type', hl, hr, htype, rfl⟩ := hc.of_binary
    obtain rfl := ihl hl
    obtain rfl := ihr hr
    obtain rfl := Option.some.inj (typed.symm.trans htype)
    rfl

/-! ### Temporaries -/

/-- The temporary that an operand is. -/
def Operand.id? : Operand → Option Int
  | temporary id _ => some id
  | _ => none

namespace TempPool

theorem isLive_without {pool : TempPool} {operand : Operand} {x : Int} :
    (pool.without operand).IsLive x ↔ pool.IsLive x ∧ operand.id? ≠ some x := by
  cases operand with
  | temporary id type =>
    rw [TempPool.without, isLive_release, Operand.id?]
    simp [eq_comm]
  | _ => simp [TempPool.without, Operand.id?]

end TempPool

/-- What code does to the temporaries: behind it those are in use that were before, and the one that
its operand may be. -/
structure Piece.Fits (temps : TempPool) (b : Piece) : Prop where
  orderly : b.temps.Orderly
  next_le : temps.next ≤ b.temps.next
  fresh : ∀ {id : Int}, b.operand.id? = some id → ¬temps.IsLive id
  live : ∀ {id : Int}, b.temps.IsLive id ↔ temps.IsLive id ∨ b.operand.id? = some id

theorem Operand.id?_literal (v : Value) : (Operand.literal v).id? = none := by
  cases v <;> rfl

namespace Piece

variable {temps : TempPool} {a b : Piece}

/-- Code that leaves the temporaries alone. -/
theorem Fits.still (h : temps.Orderly) (hoperand : b.operand.id? = none)
    (htemps : b.temps = temps) : b.Fits temps := by
  subst htemps
  exact ⟨h, Nat.le_refl _, by simp [hoperand], by simp [hoperand]⟩

theorem Fits.combine (ha : a.Fits temps) (hb : b.Fits a.temps) (op : Operation)
    (type : DataType) : (a.combine op type b).Fits temps where
  orderly := (hb.orderly.alloc.without _).without _
  next_le := by
    have := ha.next_le
    have := hb.next_le
    have := b.temps.next_le_alloc
    simp only [Piece.combine, TempPool.next_without]
    omega
  fresh := by
    rintro id ⟨⟩ hlive
    exact TempPool.not_isLive_alloc (hb.live.mpr (.inl (ha.live.mpr (.inl hlive))))
  live := by
    intro id
    simp only [Piece.combine, TempPool.isLive_without, hb.orderly.isLive_alloc, hb.live, ha.live,
      Operand.id?, Option.some.injEq]
    have hfreshA : a.operand.id? = some id → ¬temps.IsLive id := ha.fresh
    have hfreshB : b.operand.id? = some id → ¬a.temps.IsLive id := hb.fresh
    have hnew : id = b.temps.alloc.1 → ¬b.temps.IsLive id := by
      rintro rfl
      exact TempPool.not_isLive_alloc
    rw [hb.live, ha.live] at hnew
    rw [ha.live] at hfreshB
    constructor
    · rintro ⟨⟨rfl | hlive, hA⟩, hB⟩
      · exact .inr rfl
      · exact .inl (by tauto)
    · rintro (hlive | rfl)
      · exact ⟨⟨.inr (.inl (.inl hlive)), fun h => hfreshA h hlive⟩,
          fun h => hfreshB h (.inl hlive)⟩
      · exact ⟨⟨.inl rfl, fun h => hnew rfl (.inl (.inr h))⟩, fun h => hnew rfl (.inr h)⟩

/-- Behind code without an operand those temporaries are in use that were before. -/
theorem Fits.isLive (h : b.Fits temps) (hnone : b.operand.id? = none) {id : Int} :
    b.temps.IsLive id ↔ temps.IsLive id := by
  simp [h.live, hnone]

theorem Fits.pass (hb : b.Fits temps) (hnone : b.operand.id? = none) (ha : a.Fits b.temps)
    (param : Symbol) : (b.pass a param).Fits temps where
  orderly := ha.orderly.without _
  next_le := by
    have := hb.next_le
    have := ha.next_le
    simp only [Piece.pass, TempPool.next_without]
    omega
  fresh := by simp [Piece.pass, Operand.id?]
  live := by
    intro id
    have hfresh : a.operand.id? = some id → ¬b.temps.IsLive id := ha.fresh
    rw [hb.isLive hnone] at hfresh
    simp only [Piece.pass, TempPool.isLive_without, ha.live, hb.isLive hnone]
    constructor
    · rintro ⟨hlive | hid, hne⟩
      · exact .inl hlive
      · exact absurd hid hne
    · rintro (hlive | ⟨⟨⟩⟩)
      exact ⟨.inl hlive, fun hid => hfresh hid hlive⟩

/-- A temporary that is handed out is none of those that are in use. -/
theorem Fits.ne_alloc (h : b.Fits temps) {id : Int} (hid : temps.IsLive id) :
    id ≠ b.temps.alloc.1 := by
  rintro rfl
  exact TempPool.not_isLive_alloc (h.live.mpr (.inl hid))

theorem Fits.called (hb : b.Fits temps) (hnone : b.operand.id? = none) (function : String)
    (returns : DataType) : (b.called function returns).Fits temps where
  orderly := hb.orderly.alloc
  next_le := Nat.le_trans hb.next_le b.temps.next_le_alloc
  fresh := by
    rintro id ⟨⟩ hlive
    exact hb.ne_alloc hlive rfl
  live := by
    intro id
    simp only [Piece.called, hb.orderly.isLive_alloc, hb.isLive hnone, Operand.id?,
      Option.some.injEq]
    rw [or_comm, eq_comm]

end Piece

theorem Tree.Makes.fits {s : Scope} {tree : Tree} {temps : TempPool} {b : Piece}
    (h : tree.Makes s temps b) (htemps : temps.Orderly) : b.Fits temps := by
  induction h with
  | var declared => exact .still htemps rfl rfl
  | constant value => exact .still htemps (Operand.id?_literal _) rfl
  | binary left right typed ihl ihr =>
    have ha := ihl htemps
    exact ha.combine (ihr ha.orderly) _ _

end DuckLang
