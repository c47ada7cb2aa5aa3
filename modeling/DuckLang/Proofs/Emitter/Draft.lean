import DuckLang.Proofs.Ascending
import DuckLang.Proofs.Emitter.Ensures
import DuckLang.Proofs.Emitter.Jumps
import DuckLang.Proofs.Emitter.Names

/-! Drafts.  A draft is an emitter with the points of the code it has emitted so far; it is `Valid`
if the code is laid out along them, the names agree and every waiting jump has its owner.  What an
operation does is told by the stacks it leaves, since all else that it may touch is code. -/

namespace DuckLang

namespace TempPool

/-- The free ids were minted. -/
def Sound (pool : TempPool) : Prop :=
  ∀ id ∈ pool.free, 0 ≤ id ∧ id < pool.next

variable {pool : TempPool}

theorem Sound.alloc (h : pool.Sound) :
    pool.alloc.2.Sound ∧ pool.next ≤ pool.alloc.2.next ∧ 0 ≤ pool.alloc.1 ∧
      pool.alloc.1 < pool.alloc.2.next := by
  obtain ⟨free, next⟩ := pool
  cases free with
  | nil =>
    refine ⟨by simp [alloc, Sound], by simp [alloc], by simp [alloc], ?_⟩
    simp only [alloc]
    omega
  | cons id free =>
    obtain ⟨hid, hfree⟩ := List.forall_mem_cons.mp h
    exact ⟨hfree, Nat.le_refl _, hid⟩

theorem next_without (operand : Operand) : (pool.without operand).next = pool.next := by
  cases operand <;> simp only [without, release]
  split <;> rfl

theorem Sound.without (h : pool.Sound) (operand : Operand) : (pool.without operand).Sound := by
  cases operand <;> try exact h
  rename_i id type
  simp only [TempPool.without, release]
  split
  · rename_i hrange
    intro x hx
    rcases Ascending.mem_insert.mp hx with rfl | hmem
    · exact hrange
    · exact h x hmem
  · exact h

end TempPool

namespace Emitter

/-- The function whose body is being read; the main body outside of functions. -/
def context (e : Emitter) : String :=
  (e.body.map (·.info.name)).getD mainName

/-- The temporaries among operands. -/
def temporaries (operands : List (Operand × DataType)) : List (Int × DataType) :=
  operands.filterMap fun o =>
    match o.1 with
    | .temporary id type => some (id, type)
    | _ => none

/-- What is known behind the code emitted so far. -/
def point (e : Emitter) : Point :=
  { function := e.context, temps := temporaries e.operands, calls := e.calls }

/-- What the code emitted so far may refer to. -/
def env (e : Emitter) : Env :=
  { scope := e.scope, strings := e.strings.length, temps := e.temps.next }

/-- An operand that may wait on the stack, with its type. -/
def Held (s : Scope) (function : String) (o : Operand × DataType) : Prop :=
  o.1.type = o.2 ∧
    match o.1 with
    | .intLiteral _ | .floatLiteral _ | .charLiteral _ | .temporary _ _ => True
    | .address location type => s.Visible function location type
    | _ => False

/-- The jump over the function bodies while it waits for the main body. -/
def leading (functions : Directory) (jump : Option Nat) : Option Nat :=
  if (functions.get? mainName).isSome then none else jump

/-- The jumps that wait for their targets. -/
def owed (e : Emitter) : List Nat :=
  (leading e.functions e.leadingJump).toList ++ e.controls.flatMap Control.owed

/-- What an emitter satisfies once the program header was read, with the points of its code. -/
structure Valid (e : Emitter) (past : List Point) : Prop where
  names : Names e.scope e.functions e.body (past ++ [e.point])
  laid : Laid e.env e.quads (past ++ [e.point])
  pool : e.temps.Sound
  held : ∀ o ∈ e.operands, Held e.scope e.context o
  owed : Owed e.quads e.owed
  owners : Owners (past ++ [e.point]) e.context e.controls
  leads : ∀ i ∈ leading e.functions e.leadingJump,
    ∃ P, (past ++ [e.point])[i]? = some P ∧ P.function = mainName

/-- The stacks of an emitter. -/
structure Stacks where
  operands : List (Operand × DataType)
  operators : List Waiting
  controls : List Control
  calls : List Call

/-- The stacks of an emitter. -/
def allStacks (e : Emitter) : Stacks :=
  { operands := e.operands, operators := e.operators, controls := e.controls, calls := e.calls }

/-- Emitters that know the same names and are in the same function. -/
structure Alike (e' e : Emitter) : Prop where
  scope : e'.scope = e.scope
  functions : e'.functions = e.functions
  body : e'.body = e.body
  leadingJump : e'.leadingJump = e.leadingJump

theorem Alike.refl (e : Emitter) : e.Alike e := ⟨rfl, rfl, rfl, rfl⟩

theorem Alike.trans {e e' e'' : Emitter} (h : e'.Alike e) (h' : e''.Alike e') : e''.Alike e :=
  ⟨h'.scope.trans h.scope, h'.functions.trans h.functions, h'.body.trans h.body,
    h'.leadingJump.trans h.leadingJump⟩

theorem Alike.context {e e' : Emitter} (h : e'.Alike e) : e'.context = e.context := by
  rw [Emitter.context, Emitter.context, h.body]

variable {e e' : Emitter} {past : List Point} {q : Quad}

theorem Valid.length (h : Valid e past) : past.length = e.quads.size := by
  simpa using h.laid.size

theorem mem_temporaries {operands : List (Operand × DataType)} {id : Int} {type : DataType} :
    (id, type) ∈ temporaries operands ↔ ∃ t, (.temporary id type, t) ∈ operands := by
  simp only [temporaries, List.mem_filterMap]
  constructor
  · rintro ⟨⟨operand, t⟩, hmem, h⟩
    cases operand <;> simp at h
    obtain ⟨rfl, rfl⟩ := h
    exact ⟨t, hmem⟩
  · rintro ⟨t, hmem⟩
    exact ⟨_, hmem, rfl⟩

/-- What waits on the stack has a value. -/
theorem Valid.readable (h : Valid e past) {o : Operand × DataType} (ho : o ∈ e.operands) :
    Readable e.env e.point o.1 := by
  have hheld := (h.held o ho).2
  obtain ⟨operand, type⟩ := o
  cases operand with
  | temporary id t => exact mem_temporaries.mpr ⟨type, ho⟩
  | _ => exact hheld

/-- A change to an emitter that neither its names nor its code nor its point see. -/
theorem Valid.withOperators (h : Valid e past) (operators : List Waiting) :
    Valid { e with operators } past :=
  ⟨h.names, h.laid, h.pool, h.held, h.owed, h.owners, h.leads⟩

/-- Other operands on the stack, with no temporary more. -/
theorem Valid.withOperands (h : Valid e past) {operands : List (Operand × DataType)}
    (hheld : ∀ o ∈ operands, Held e.scope e.context o)
    (htemps : temporaries operands ⊆ temporaries e.operands) :
    Valid { e with operands } past := by
  have hP : e.point.Leads e.point.temps e.point.calls { e with operands }.point :=
    ⟨rfl, htemps, rfl⟩
  have hfunction : ∀ {k : Nat} {function : String},
      (∃ P, (past ++ [e.point])[k]? = some P ∧ P.function = function) →
      ∃ P, (past ++ [{ e with operands }.point])[k]? = some P ∧ P.function = function := by
    rintro k function ⟨P, hk, hfunction⟩
    rcases getElem?_concat hk with ⟨hlt, hk⟩ | ⟨rfl, rfl⟩
    · exact ⟨P, by rw [List.getElem?_append_left hlt, hk], hfunction⟩
    · exact ⟨_, List.getElem?_concat_length, hfunction⟩
  exact ⟨h.names.keep fun k function => hP.keep, h.laid.weaken hP, h.pool, hheld, h.owed,
    ⟨fun c hc i hi => hfunction (h.owners.homes c hc i hi),
      fun c hc top htop => hP.keep (h.owners.tops c hc top htop), h.owners.depth⟩,
    fun i hi => hfunction (h.leads i hi)⟩

/-- A quadruple emitted on the way from one emitter to another. -/
theorem Valid.emit (h : Valid e past) (hquads : e'.quads = e.quads.push q) (htidy : Tidy q)
    (hsame : e'.Alike e) (hstrings : e.strings.length ≤ e'.strings.length)
    (hnext : e.temps.next ≤ e'.temps.next) (hpool : e'.temps.Sound)
    (hheld : ∀ o ∈ e'.operands, Held e.scope e.context o)
    (hcalls : ∀ c ∈ e'.calls, e.scope.Callable c.function)
    (hflows : Flows e'.env (past ++ [e.point] ++ [e'.point]) e.point q e'.point)
    (howed : Owed e'.quads e'.owed)
    (howners : Owners (past ++ [e.point] ++ [e'.point]) e.context e'.controls) :
    Valid e' (past ++ [e.point]) := by
  have hpoints : ∀ (k : Nat) (P : Point), (past ++ [e.point])[k]? = some P →
      (past ++ [e.point] ++ [e'.point])[k]? = some P := by
    intro k P hk
    rw [List.getElem?_append_left (List.getElem?_eq_some_iff.mp hk).1, hk]
  have henv : e'.env.Extends e.env := by
    refine ⟨?_, hstrings, hnext⟩
    show e'.scope.Extends e.scope
    rw [hsame.scope]
    exact .refl _
  refine ⟨?_, ?_, hpool, ?_, howed, ?_, ?_⟩
  · rw [hsame.scope, hsame.functions, hsame.body]
    exact h.names.keep fun k function => hpoints k _
  · rw [hquads]
    refine (h.laid.extend henv fun P hP c hc => ?_).push htidy hflows ?_
    · show e'.scope.SameParams e.scope c.function
      rw [hsame.scope]
      exact .refl _ _
    · show ∀ c ∈ e'.calls, e'.scope.Callable c.function
      rw [hsame.scope]
      exact hcalls
  · rw [hsame.scope, hsame.context]
    exact hheld
  · rw [hsame.context]
    exact howners
  · rw [hsame.functions, hsame.leadingJump]
    intro i hi
    obtain ⟨P, hP, hfunction⟩ := h.leads i hi
    exact ⟨P, hpoints i P hP, hfunction⟩

/-- A quadruple emitted that waits for nothing. -/
theorem Valid.emitPlain (h : Valid e past) (hquads : e'.quads = e.quads.push q) (htidy : Tidy q)
    (hsame : e'.Alike e) (hstrings : e.strings.length ≤ e'.strings.length)
    (hnext : e.temps.next ≤ e'.temps.next)
    (hpool : e'.temps.Sound)
    (hheld : ∀ o ∈ e'.operands, Held e.scope e.context o)
    (hcalls : ∀ c ∈ e'.calls, e.scope.Callable c.function)
    (hflows : Flows e'.env (past ++ [e.point] ++ [e'.point]) e.point q e'.point)
    (hcontrols : e'.controls = e.controls) (hplain : q.result.isPending = false) :
    Valid e' (past ++ [e.point]) := by
  refine h.emit hquads htidy hsame hstrings hnext hpool hheld hcalls hflows ?_ ?_
  · rw [hquads, Emitter.owed, hsame.functions, hsame.leadingJump, hcontrols]
    exact h.owed.push hplain
  · rw [hcontrols]
    exact h.owners.append _

end Emitter

/-- The kinds of errors that a source text can be to blame for, its syntax apart. -/
def Kind.isExpected : Kind → Bool
  | token | name | definition | type | usage => true
  | _ => false

/-- A cause that a source text can be to blame for, its syntax apart. -/
def Cause.Expected (cause : Cause) : Prop :=
  cause.kind.isExpected = true

/-- An emitter with the points of the code it has emitted. -/
structure Draft where
  emitter : Emitter
  past : List Emitter.Point

namespace Draft

/-- What a draft satisfies once the program header was read. -/
def Valid (γ : Draft) : Prop :=
  γ.emitter.Valid γ.past

/-- The stacks of a draft. -/
def allStacks (γ : Draft) : Emitter.Stacks :=
  γ.emitter.allStacks

/-- A valid draft with code more and the given stacks. -/
structure Does (γ γ' : Draft) (left : Emitter.Stacks) : Prop where
  valid : γ'.Valid
  alike : γ'.emitter.Alike γ.emitter
  allStacks : γ'.allStacks = left

section Does

variable {γ γ' γ'' : Draft} {s s' : Emitter.Stacks}

theorem Does.operands (h : Does γ γ' s) : γ'.emitter.operands = s.operands :=
  congrArg Emitter.Stacks.operands h.allStacks

theorem Does.operators (h : Does γ γ' s) : γ'.emitter.operators = s.operators :=
  congrArg Emitter.Stacks.operators h.allStacks

theorem Does.controls (h : Does γ γ' s) : γ'.emitter.controls = s.controls :=
  congrArg Emitter.Stacks.controls h.allStacks

theorem Does.calls (h : Does γ γ' s) : γ'.emitter.calls = s.calls :=
  congrArg Emitter.Stacks.calls h.allStacks

theorem Does.of_eq (h : Does γ γ' s) (hs : s = s') : Does γ γ' s' := hs ▸ h

theorem Does.trans (h : Does γ γ' s) (h' : Does γ' γ'' s') : Does γ γ'' s' :=
  ⟨h'.valid, h.alike.trans h'.alike, h'.allStacks⟩

end Does

theorem Valid.does {γ : Draft} (h : γ.Valid) : Does γ γ γ.allStacks :=
  ⟨h, .refl _, rfl⟩

/-- An operation takes a draft to one with `Q`, or fails with an expected cause. -/
def Takes {α : Type} (m : Emit α) (γ : Draft) (Q : α → Draft → Prop) : Prop :=
  Emit.Ensures m γ.emitter Cause.Expected fun a e => ∃ γ', γ'.emitter = e ∧ Q a γ'

variable {α β : Type} {m : Emit α} {f : α → Emit β} {γ : Draft} {Q Q' : α → Draft → Prop}
  {R : β → Draft → Prop}

theorem Takes.bind (h : Takes m γ fun a γ' => Takes (f a) γ' R) : Takes (m >>= f) γ R := by
  rw [Takes, Emitter.ensures_bind]
  refine Emit.Ensures.mono h (fun _ hc => hc) ?_
  rintro a e ⟨γ', rfl, hγ'⟩
  exact hγ'

theorem Takes.pure {a : α} (h : Q a γ) : Takes (Pure.pure a) γ Q :=
  ⟨γ, rfl, h⟩

theorem Takes.mono (h : Takes m γ Q) (hQ : ∀ a γ', Q a γ' → Q' a γ') : Takes m γ Q' := by
  refine Emit.Ensures.mono h (fun _ hc => hc) ?_
  rintro a e ⟨γ', rfl, hγ'⟩
  exact ⟨γ', rfl, hQ a γ' hγ'⟩

end Draft

end DuckLang
