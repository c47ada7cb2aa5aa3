import DuckLang.Emitter.Command
import Mathlib.Data.List.Basic

/-! The layout of code.  A `Point` says what is known where a quadruple is reached: whose body it
belongs to, which temporaries were written on every way there and which calls are announced.  A
quadruple `Flows` from a point if it needs no more than what is known there, its operands have types
that go together and the points it leads to ask for no more than what is then known.  Code is `Laid`
out along points when every quadruple flows. -/

namespace DuckLang

/-- The type of the value that an operand stands for; where there is none, nothing asks for it. -/
def Operand.type : Operand → DataType
  | address _ type | temporary _ type => type
  | floatLiteral _ => .float
  | charLiteral _ => .char
  | text _ => .string
  | _ => .int

/-- A name that a call can name: that of a function, not of the program. -/
def Scope.Callable (s : Scope) (name : String) : Prop :=
  (s.entryOf? name).isSome ∧ name ≠ s.program

/-- An address declared with a type where a function can see it: by itself or by the program. -/
def Scope.Visible (s : Scope) (function : String) (address : Int) (type : DataType) : Prop :=
  ∃ owner entry symbol, (owner = s.program ∨ owner = function) ∧ s.entryOf? owner = some entry ∧
    symbol ∈ entry.symbols ∧ symbol.address = address ∧ symbol.type = type

/-- A scope that declares all that another does, and calls it the same. -/
structure Scope.Extends (s' s : Scope) : Prop where
  program : s'.program = s.program
  entry : ∀ {name : String} {entry : Entry}, s.entryOf? name = some entry →
    ∃ entry', Scope.entryOf? s' name = some entry' ∧ entry.symbols ⊆ entry'.symbols ∧
      entry'.returns = entry.returns

namespace Scope

theorem Extends.refl (s : Scope) : s.Extends s where
  program := rfl
  entry h := ⟨_, h, List.Subset.refl _, rfl⟩

theorem Visible.mono {s s' : Scope} {function : String} {address : Int} {type : DataType}
    (h : s.Visible function address type) (hs : s'.Extends s) :
    s'.Visible function address type := by
  obtain ⟨owner, entry, symbol, howner, hentry, hsymbol, haddress⟩ := h
  obtain ⟨entry', hentry', hsub, _⟩ := hs.entry hentry
  exact ⟨owner, entry', symbol, by rwa [hs.program], hentry', hsub hsymbol, haddress⟩

theorem Callable.mono {s s' : Scope} {name : String} (h : s.Callable name)
    (hs : s'.Extends s) : s'.Callable name := by
  obtain ⟨hsome, hne⟩ := h
  obtain ⟨entry, hentry⟩ := Option.isSome_iff_exists.mp hsome
  obtain ⟨entry', hentry', _⟩ := hs.entry hentry
  exact ⟨by simp [hentry'], by rwa [hs.program]⟩

/-- A function has the same parameters in both scopes. -/
def SameParams (s' s : Scope) (name : String) : Prop :=
  ∀ entry entry', s.entryOf? name = some entry → Scope.entryOf? s' name = some entry' →
    entry'.params = entry.params

theorem SameParams.refl (s : Scope) (name : String) : s.SameParams s name := by
  intro entry entry' h h'
  rw [Option.some.inj (h.symm.trans h')]

end Scope

namespace Emitter

/-- What is known where a quadruple is reached. -/
structure Point where
  /-- The function whose body it stands in. -/
  function : String
  /-- The temporaries written on every way there. -/
  temps : List (Int × DataType)
  /-- The calls announced, the last one first. -/
  calls : List Call

/-- A point between the statements of a function. -/
def Point.resting (function : String) : Point :=
  { function, temps := [], calls := [] }

/-- The point that follows with the given temporaries and calls known, or fewer temporaries. -/
structure Point.Leads (P : Point) (temps : List (Int × DataType)) (calls : List Call)
    (P' : Point) : Prop where
  function : P'.function = P.function
  temps : P'.temps ⊆ temps
  calls : P'.calls = calls

theorem Point.Leads.eq_resting {function : String} {P' : Point}
    (h : (Point.resting function).Leads [] [] P') : P' = .resting function := by
  obtain ⟨function', temps, calls⟩ := P'
  obtain ⟨hfunction, htemps, hcalls⟩ := h
  simp only [Point.resting, Point.mk.injEq]
  exact ⟨hfunction, List.subset_nil.mp htemps, hcalls⟩

/-- What code may refer to. -/
structure Env where
  scope : Scope
  /-- The number of strings. -/
  strings : Nat
  /-- The number of temporaries minted. -/
  temps : Nat

/-- What more code may refer to. -/
structure Env.Extends (env' env : Env) : Prop where
  scope : env'.scope.Extends env.scope
  strings : env.strings ≤ env'.strings
  temps : env.temps ≤ env'.temps

/-- A temporary that was minted. -/
def Env.Minted (env : Env) (id : Int) (type : DataType) : Prop :=
  0 ≤ id ∧ id < env.temps ∧ type.isStorable = true

/-- An operand with a value. -/
def Readable (env : Env) (P : Point) : Operand → Prop
  | .intLiteral _ | .floatLiteral _ | .charLiteral _ => True
  | .address location type => env.scope.Visible P.function location type
  | .temporary id type => (id, type) ∈ P.temps
  | _ => False

/-- The address of a variable. -/
def Assignable (env : Env) (P : Point) (operand : Operand) : Prop :=
  ∃ location type, operand = .address location type ∧ env.scope.Visible P.function location type

/-- A jump that rests where it leads to, if that is known already. -/
def Target (points : List Point) (P : Point) : Operand → Prop
  | .pending => True
  | .jump target => ∃ k : Nat, target = k ∧ points[k]? = some (.resting P.function)
  | _ => False

/-- Where an operand leads to a rest of one list of points, it does in the other. -/
def KeepRest (points points' : List Point) (operand : Operand) : Prop :=
  ∀ (k : Nat) (function : String), operand = .jump k → points[k]? = some (.resting function) →
    points'[k]? = some (.resting function)

/-- The innermost call announced, with the entry of its function. -/
structure Innermost (env : Env) (P : Point) (c : Call) (calls : List Call) (entry : Scope.Entry) :
    Prop where
  calls : P.calls = c :: calls
  entry : env.scope.entryOf? c.function = some entry

/-- A quadruple that can be executed at `P` and goes on at `P'`. -/
def Flows (env : Env) (points : List Point) (P : Point) (q : Quad) (P' : Point) : Prop :=
  match q.op with
  | .arith op =>
    Readable env P q.left ∧ Readable env P q.right ∧
      ∃ id type, q.result = .temporary id type ∧
        Cube.result? q.left.type (.arith op) q.right.type = some type ∧ env.Minted id type ∧
        P.Leads ((id, type) :: P.temps) P.calls P'
  | .rel op =>
    Readable env P q.left ∧ Readable env P q.right ∧
      ∃ id type, q.result = .temporary id type ∧
        Cube.result? q.left.type (.rel op) q.right.type = some type ∧ env.Minted id type ∧
        P.Leads ((id, type) :: P.temps) P.calls P'
  | .assign =>
    Readable env P q.left ∧ Assignable env P q.result ∧
      Cube.canAssign q.result.type q.left.type = true ∧ P.Leads P.temps P.calls P'
  | .goto => P.calls = [] ∧ Target points P q.result
  | .gotoFalse =>
    Readable env P q.left ∧ P.calls = [] ∧ Target points P q.result ∧ P.Leads P.temps P.calls P'
  | .write =>
    (Readable env P q.result ∨ ∃ index : Nat, q.result = .text index ∧ index < env.strings) ∧
      P.Leads P.temps P.calls P'
  | .read => Assignable env P q.result ∧ P.Leads P.temps P.calls P'
  | .announce =>
    ∃ name, q.result = .function name ∧ env.scope.Callable name ∧
      P.Leads P.temps ({ function := name, arguments := 0 } :: P.calls) P'
  | .param =>
    ∃ c calls entry param, Innermost env P c calls entry ∧
      entry.params[c.arguments]? = some param ∧ q.result = .address param.address param.type ∧
      Readable env P q.left ∧ Cube.canAssign param.type q.left.type = true ∧
      P.Leads P.temps ({ c with arguments := c.arguments + 1 } :: calls) P'
  | .call =>
    ∃ c calls entry, Innermost env P c calls entry ∧ c.arguments = entry.params.length ∧
      q.left = .function c.function ∧
      ((entry.returns = .void ∧ q.result = .empty ∧ P.Leads P.temps calls P') ∨
        (entry.returns ≠ .void ∧ ∃ id, q.result = .temporary id entry.returns ∧
          env.Minted id entry.returns ∧
          P.Leads ((id, entry.returns) :: P.temps) calls P'))
  | .giveBack =>
    Readable env P q.result ∧ P.calls = [] ∧
      ∃ entry, env.scope.entryOf? P.function = some entry ∧ P.function ≠ env.scope.program ∧
        Cube.canAssign entry.returns q.result.type = true
  | .endFunction => q.result = .empty ∧ P.calls = []
  | .halt => q.result = .empty ∧ P.Leads P.temps P.calls P'
  | .unknown _ => False

/-- A quadruple without operands that its operation has no use for. -/
def Tidy (q : Quad) : Prop :=
  match q.op with
  | .arith _ | .rel _ => True
  | .assign | .gotoFalse | .param | .call => q.right = .empty
  | _ => q.left = .empty ∧ q.right = .empty

/-- Code laid out along points, one for each quadruple and one for what comes behind them. -/
structure Laid (env : Env) (quads : Array Quad) (points : List Point) : Prop where
  size : points.length = quads.size + 1
  flows : ∀ {i : Nat} {q : Quad}, quads[i]? = some q →
    ∃ P P', points[i]? = some P ∧ points[i + 1]? = some P' ∧ Flows env points P q P'
  tidy : ∀ q ∈ quads, Tidy q
  calls : ∀ P ∈ points, ∀ c ∈ P.calls, env.scope.Callable c.function

variable {env env' : Env} {quads : Array Quad} {points points' : List Point} {P P' P'' : Point}
  {q : Quad}

theorem Env.Minted.mono {id : Int} {type : DataType} (h : env.Minted id type)
    (henv : env'.Extends env) : env'.Minted id type := by
  obtain ⟨hpos, hlt, hstorable⟩ := h
  have := henv.temps
  exact ⟨hpos, by omega, hstorable⟩

theorem Readable.mono {operand : Operand} (h : Readable env P operand) (henv : env'.Extends env) :
    Readable env' P operand := by
  cases operand with
  | address location type => exact Scope.Visible.mono h henv.scope
  | _ => exact h

theorem Assignable.mono {operand : Operand} (h : Assignable env P operand)
    (henv : env'.Extends env) : Assignable env' P operand := by
  obtain ⟨location, type, rfl, hvisible⟩ := h
  exact ⟨location, type, rfl, hvisible.mono henv.scope⟩

theorem Target.mono {operand : Operand} (h : Target points P operand)
    (hpoints : KeepRest points points' operand) : Target points' P operand := by
  cases operand with
  | jump target =>
    obtain ⟨k, rfl, hk⟩ := h
    exact ⟨k, rfl, hpoints k _ rfl hk⟩
  | _ => exact h

theorem Innermost.mono {c : Call} {calls : List Call} {entry : Scope.Entry}
    (h : Innermost env P c calls entry) (henv : env'.Extends env)
    (hparams : ∀ c ∈ P.calls, env'.scope.SameParams env.scope c.function) :
    ∃ entry', Innermost env' P c calls entry' ∧ entry'.params = entry.params ∧
      entry'.returns = entry.returns := by
  obtain ⟨entry', hentry', _, hreturns⟩ := henv.scope.entry h.entry
  have hc : c ∈ P.calls := by simp [h.calls]
  exact ⟨entry', ⟨h.calls, hentry'⟩, hparams c hc _ _ h.entry hentry', hreturns⟩

/-- A quadruple still flows when more may be referred to and more is laid out. -/
theorem Flows.mono (h : Flows env points P q P') (henv : env'.Extends env)
    (hparams : ∀ c ∈ P.calls, env'.scope.SameParams env.scope c.function)
    (hpoints : KeepRest points points' q.result) : Flows env' points' P q P' := by
  obtain ⟨op, left, right, result⟩ := q
  cases op with
  | arith op =>
    obtain ⟨hl, hr, id, type, rfl, htype, hminted, hleads⟩ := h
    exact ⟨hl.mono henv, hr.mono henv, id, type, rfl, htype, hminted.mono henv, hleads⟩
  | rel op =>
    obtain ⟨hl, hr, id, type, rfl, htype, hminted, hleads⟩ := h
    exact ⟨hl.mono henv, hr.mono henv, id, type, rfl, htype, hminted.mono henv, hleads⟩
  | assign =>
    obtain ⟨hl, hr, htypes, hleads⟩ := h
    exact ⟨hl.mono henv, hr.mono henv, htypes, hleads⟩
  | goto =>
    obtain ⟨hcalls, htarget⟩ := h
    exact ⟨hcalls, htarget.mono hpoints⟩
  | gotoFalse =>
    obtain ⟨hl, hcalls, htarget, hleads⟩ := h
    exact ⟨hl.mono henv, hcalls, htarget.mono hpoints, hleads⟩
  | write =>
    obtain ⟨hresult | ⟨index, rfl, hlt⟩, hleads⟩ := h
    · exact ⟨.inl (hresult.mono henv), hleads⟩
    · exact ⟨.inr ⟨index, rfl, Nat.lt_of_lt_of_le hlt henv.strings⟩, hleads⟩
  | read =>
    obtain ⟨hresult, hleads⟩ := h
    exact ⟨hresult.mono henv, hleads⟩
  | announce =>
    obtain ⟨name, rfl, hcallable, hleads⟩ := h
    exact ⟨name, rfl, hcallable.mono henv.scope, hleads⟩
  | param =>
    obtain ⟨c, calls, entry, param, hinner, hparam, rfl, hl, htypes, hleads⟩ := h
    obtain ⟨entry', hinner', hsame, _⟩ := hinner.mono henv hparams
    exact ⟨c, calls, entry', param, hinner', by rwa [hsame], rfl, hl.mono henv, htypes, hleads⟩
  | call =>
    obtain ⟨c, calls, entry, hinner, hcount, rfl, hresult⟩ := h
    obtain ⟨entry', hinner', hsame, hreturns⟩ := hinner.mono henv hparams
    refine ⟨c, calls, entry', hinner', by rwa [hsame], rfl, ?_⟩
    rw [hreturns]
    rcases hresult with hvoid | ⟨hne, id, rfl, hminted, hleads⟩
    · exact .inl hvoid
    · exact .inr ⟨hne, id, rfl, hminted.mono henv, hleads⟩
  | giveBack =>
    obtain ⟨hresult, hcalls, entry, hentry, hprogram, htypes⟩ := h
    obtain ⟨entry', hentry', _, hreturns⟩ := henv.scope.entry hentry
    exact ⟨hresult.mono henv, hcalls, entry', hentry', by rwa [henv.scope.program],
      by rwa [hreturns]⟩
  | endFunction => exact h
  | halt => exact h
  | unknown code => exact h

theorem Flows.weaken (h : Flows env points P q P') (hP : P'.Leads P'.temps P'.calls P'') :
    Flows env points P q P'' := by
  have hleads : ∀ {temps calls}, P.Leads temps calls P' → P.Leads temps calls P'' := by
    intro temps calls hl
    exact ⟨hP.function.trans hl.function, List.Subset.trans hP.temps hl.temps,
      hP.calls.trans hl.calls⟩
  obtain ⟨op, left, right, result⟩ := q
  cases op with
  | arith op =>
    obtain ⟨hl, hr, id, type, rfl, htype, hminted, h⟩ := h
    exact ⟨hl, hr, id, type, rfl, htype, hminted, hleads h⟩
  | rel op =>
    obtain ⟨hl, hr, id, type, rfl, htype, hminted, h⟩ := h
    exact ⟨hl, hr, id, type, rfl, htype, hminted, hleads h⟩
  | assign => exact ⟨h.1, h.2.1, h.2.2.1, hleads h.2.2.2⟩
  | goto => exact h
  | gotoFalse => exact ⟨h.1, h.2.1, h.2.2.1, hleads h.2.2.2⟩
  | write => exact ⟨h.1, hleads h.2⟩
  | read => exact ⟨h.1, hleads h.2⟩
  | announce =>
    obtain ⟨name, rfl, hcallable, h⟩ := h
    exact ⟨name, rfl, hcallable, hleads h⟩
  | param =>
    obtain ⟨c, calls, entry, param, hinner, hparam, rfl, hl, htypes, h⟩ := h
    exact ⟨c, calls, entry, param, hinner, hparam, rfl, hl, htypes, hleads h⟩
  | call =>
    obtain ⟨c, calls, entry, hinner, hcount, rfl, hresult⟩ := h
    rcases hresult with ⟨hvoid, hempty, h⟩ | ⟨hne, id, rfl, hminted, h⟩
    · exact ⟨c, calls, entry, hinner, hcount, rfl, .inl ⟨hvoid, hempty, hleads h⟩⟩
    · exact ⟨c, calls, entry, hinner, hcount, rfl, .inr ⟨hne, id, rfl, hminted, hleads h⟩⟩
  | giveBack => exact h
  | endFunction => exact h
  | halt => exact ⟨h.1, hleads h.2⟩
  | unknown code => exact h

theorem eq_pending {operand : Operand} (h : operand.isPending = true) : operand = .pending := by
  cases operand <;> first | rfl | cases h

/-- Only jumps wait for their targets. -/
theorem Flows.pending (h : Flows env points P q P') (hq : q.result.isPending = true) :
    q.op = .goto ∨ q.op = .gotoFalse := by
  obtain ⟨op, left, right, result⟩ := q
  obtain rfl : result = .pending := eq_pending hq
  cases op <;> simp_all [Flows, Readable, Assignable]

/-- Jumps lead to where code rests. -/
theorem Flows.jump (h : Flows env points P q P') {k : Nat} (hq : q.result = .jump k) :
    points[k]? = some (.resting P.function) := by
  obtain ⟨op, left, right, result⟩ := q
  obtain rfl : result = .jump k := hq
  have htarget : Target points P (.jump k) := by
    cases op with
    | goto => exact h.2
    | gotoFalse => exact h.2.2.1
    | _ => simp_all [Flows, Readable, Assignable]
  obtain ⟨k', hk, hrest⟩ := htarget
  obtain rfl : k = k' := Int.ofNat.inj hk
  exact hrest

/-- A jump whose target becomes known. -/
theorem Flows.patch (h : Flows env points P q P') (hq : q.result.isPending = true) {target : Nat}
    (htarget : points[target]? = some (.resting P.function)) :
    Flows env points P { q with result := .jump target } P' := by
  have hop := h.pending hq
  obtain ⟨op, left, right, result⟩ := q
  rcases hop with rfl | rfl
  · exact ⟨h.1, target, rfl, htarget⟩
  · exact ⟨h.1, h.2.1, ⟨target, rfl, htarget⟩, h.2.2.2⟩

theorem KeepRest.append (points more : List Point) (operand : Operand) :
    KeepRest points (points ++ more) operand := by
  intro k function _ h
  rw [List.getElem?_append_left (List.getElem?_eq_some_iff.mp h).1]
  exact h

/-- The code with a quadruple more. -/
theorem Laid.push {past : List Point} (h : Laid env quads (past ++ [P])) (htidy : Tidy q)
    (hflows : Flows env (past ++ [P] ++ [P']) P q P')
    (hcalls : ∀ c ∈ P'.calls, env.scope.Callable c.function) :
    Laid env (quads.push q) (past ++ [P] ++ [P']) where
  size := by
    have := h.size
    simp only [List.length_append, List.length_singleton, Array.size_push] at this ⊢
    omega
  flows := by
    intro i q' hq'
    have hsize : past.length = quads.size := by simpa using h.size
    rw [Array.getElem?_push] at hq'
    split at hq'
    · rename_i hi
      obtain rfl := Option.some.inj hq'
      subst hi
      refine ⟨P, P', ?_, ?_, hflows⟩
      · simp [← hsize]
      · simp [← hsize]
    · obtain ⟨A, B, hA, hB, hAB⟩ := h.flows hq'
      have hlt := (List.getElem?_eq_some_iff.mp hB).1
      refine ⟨A, B, ?_, ?_, ?_⟩
      · rw [List.getElem?_append_left (by omega), hA]
      · rw [List.getElem?_append_left hlt, hB]
      · exact hAB.mono ⟨.refl _, Nat.le_refl _, Nat.le_refl _⟩ (fun c _ => .refl _ _)
          (.append _ _ _)
  tidy := by
    intro q' hq'
    rcases Array.mem_push.mp hq' with hold | rfl
    · exact h.tidy q' hold
    · exact htidy
  calls := by
    intro R hR c hc
    rcases List.mem_append.mp hR with hR | hR
    · exact h.calls R hR c hc
    · rw [List.mem_singleton.mp hR] at hc
      exact hcalls c hc

/-- The code with the target of a jump filled in. -/
theorem Laid.patch (h : Laid env quads points) {i target : Nat} (hq : quads[i]? = some q)
    (hpending : q.result.isPending = true) (hP : points[i]? = some P)
    (htarget : points[target]? = some (.resting P.function)) :
    Laid env (quads.set! i { q with result := .jump target }) points where
  size := by simpa using h.size
  flows := by
    intro j q' hq'
    rw [Array.set!_eq_setIfInBounds, Array.getElem?_setIfInBounds] at hq'
    split at hq'
    · rename_i hij
      subst hij
      obtain ⟨A, B, hA, hB, hAB⟩ := h.flows hq
      obtain rfl : P = A := Option.some.inj (hP.symm.trans hA)
      split at hq'
      · obtain rfl := Option.some.inj hq'
        exact ⟨P, B, hA, hB, hAB.patch hpending htarget⟩
      · cases hq'
    · exact h.flows hq'
  tidy := by
    intro q' hq'
    rw [Array.set!_eq_setIfInBounds] at hq'
    rcases Array.mem_or_eq_of_mem_setIfInBounds hq' with hold | rfl
    · exact h.tidy q' hold
    · exact h.tidy q (Array.mem_of_getElem? hq)
  calls := h.calls

/-- The same code where more may be referred to. -/
theorem Laid.extend (h : Laid env quads points) (henv : env'.Extends env)
    (hparams : ∀ P ∈ points, ∀ c ∈ P.calls, env'.scope.SameParams env.scope c.function) :
    Laid env' quads points where
  size := h.size
  flows := by
    intro i q hq
    obtain ⟨P, P', hP, hP', hflows⟩ := h.flows hq
    exact ⟨P, P', hP, hP', hflows.mono henv (hparams P (List.mem_of_getElem? hP)) fun _ _ _ h => h⟩
  tidy := h.tidy
  calls P hP c hc := (h.calls P hP c hc).mono henv.scope

theorem getElem?_concat {α : Type} {xs : List α} {x y : α} {k : Nat}
    (h : (xs ++ [x])[k]? = some y) :
    (k < xs.length ∧ xs[k]? = some y) ∨ (k = xs.length ∧ y = x) := by
  rcases Nat.lt_or_ge k xs.length with hlt | hge
  · rw [List.getElem?_append_left hlt] at h
    exact .inl ⟨hlt, h⟩
  · have hk := (List.getElem?_eq_some_iff.mp h).1
    obtain rfl : k = xs.length := by
      rw [List.length_append, List.length_singleton] at hk
      omega
    rw [List.getElem?_concat_length] at h
    exact .inr ⟨rfl, (Option.some.inj h).symm⟩

/-- The same code with another point behind it: the jumps there still rest, and the last quadruple
flows on. -/
theorem Laid.relast {past : List Point} (h : Laid env quads (past ++ [P]))
    (hrest : ∀ {i : Nat} {q : Quad}, quads[i]? = some q →
      KeepRest (past ++ [P]) (past ++ [P']) q.result)
    (hlast : ∀ {q : Quad} {A : Point}, quads.back? = some q → Flows env (past ++ [P']) A q P →
      Flows env (past ++ [P']) A q P')
    (hcalls : ∀ c ∈ P'.calls, env.scope.Callable c.function) :
    Laid env quads (past ++ [P']) where
  size := by simpa using h.size
  flows := by
    intro i q hq
    have hsize : past.length = quads.size := by simpa using h.size
    have hi := (Array.getElem?_eq_some_iff.mp hq).1
    obtain ⟨A, B, hA, hB, hold⟩ := h.flows hq
    have hAB := hold.mono ⟨.refl _, Nat.le_refl _, Nat.le_refl _⟩ (fun c _ => .refl _ _) (hrest hq)
    rw [List.getElem?_append_left (by omega)] at hA
    refine ⟨A, ?_⟩
    rcases getElem?_concat hB with ⟨hlt, hB⟩ | ⟨hk, rfl⟩
    · exact ⟨B, by rw [List.getElem?_append_left (by omega), hA],
        by rw [List.getElem?_append_left hlt, hB], hAB⟩
    · refine ⟨P', by rw [List.getElem?_append_left (by omega), hA],
        by rw [hk, List.getElem?_concat_length], hlast ?_ hAB⟩
      rw [Array.back?, ← hq]
      congr 1
      omega
  tidy := h.tidy
  calls := by
    intro R hR c hc
    rcases List.mem_append.mp hR with hR | hR
    · exact h.calls R (by simp [hR]) c hc
    · rw [List.mem_singleton.mp hR] at hc
      exact hcalls c hc

/-- Where less is known behind the code, it still rests where it did. -/
theorem Point.Leads.keep {past : List Point} (hP : P.Leads P.temps P.calls P') {k : Nat}
    {function : String} (hk : (past ++ [P])[k]? = some (.resting function)) :
    (past ++ [P'])[k]? = some (.resting function) := by
  rcases getElem?_concat hk with ⟨hlt, hk⟩ | ⟨rfl, rfl⟩
  · rw [List.getElem?_append_left hlt, hk]
  · rw [hP.eq_resting, List.getElem?_concat_length]

/-- The same code where less is known behind it. -/
theorem Laid.weaken {past : List Point} (h : Laid env quads (past ++ [P]))
    (hP : P.Leads P.temps P.calls P') : Laid env quads (past ++ [P']) := by
  refine h.relast (fun _ k function _ hk => hP.keep hk) (fun _ hflows => hflows.weaken hP) ?_
  · intro c hc
    rw [hP.calls] at hc
    exact h.calls P (by simp) c hc

/-- Code whose last quadruple does not lead behind it, nor does a jump. -/
structure Sealed (quads : Array Quad) : Prop where
  last : ∀ {q : Quad}, quads.back? = some q → q.op = .goto ∨ q.op = .endFunction
  jumps : ∀ {i k : Nat} {q : Quad}, quads[i]? = some q → q.result = .jump k → k < quads.size

/-- Behind sealed code anything may come. -/
theorem Laid.reopen {past : List Point} (h : Laid env quads (past ++ [P]))
    (hsealed : Sealed quads) (hcalls : ∀ c ∈ P'.calls, env.scope.Callable c.function) :
    Laid env quads (past ++ [P']) := by
  have hsize : past.length = quads.size := by simpa using h.size
  refine h.relast ?_ ?_ hcalls
  · intro i q hq k function hjump hk
    have hlt := hsealed.jumps hq hjump
    rw [List.getElem?_append_left (by omega)] at hk ⊢
    exact hk
  · intro q A hback hflows
    obtain ⟨op, left, right, result⟩ := q
    rcases hsealed.last hback with rfl | rfl
    · exact hflows
    · exact hflows

end Emitter

end DuckLang
