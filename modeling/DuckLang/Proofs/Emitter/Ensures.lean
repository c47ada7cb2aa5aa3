import DuckLang.Emitter.Command

/-! Operations of an emitter, forward.  `Ensures` says what one of them makes of a given emitter; it
goes through a sequence of operations step by step, so the rules below compute it. -/

namespace DuckLang

/-- The pool once the temporary of an operand, if it is one, is taken back. -/
def TempPool.without (pool : TempPool) : Operand → TempPool
  | .temporary id _ => pool.release id
  | _ => pool

namespace Emit

variable {α : Type} {m : Emit α} {e : Emitter} {E : Cause → Prop} {Q : α → Emitter → Prop}

/-- From an emitter, an operation gives a value and an emitter with `Q` or fails with a cause
in `E`. -/
def Ensures (m : Emit α) (e : Emitter) (E : Cause → Prop)
    (Q : α → Emitter → Prop) : Prop :=
  match m.run e with
  | .ok a e' => Q a e'
  | .error cause _ => E cause

theorem Ensures.mono {E' : Cause → Prop} {Q' : α → Emitter → Prop} (h : Ensures m e E Q)
    (hE : ∀ cause, E cause → E' cause) (hQ : ∀ a e', Q a e' → Q' a e') : Ensures m e E' Q' := by
  simp only [Ensures] at h ⊢
  split at h
  · exact hQ _ _ h
  · exact hE _ h

theorem Ensures.error {cause : Cause} {e' : Emitter} (h : Ensures m e E Q)
    (hrun : m.run e = .error cause e') : E cause := by
  simpa only [Ensures, hrun] using h

theorem Ensures.ok {a : α} {e' : Emitter} (h : Ensures m e E Q) (hrun : m.run e = .ok a e') :
    Q a e' := by
  simpa only [Ensures, hrun] using h

end Emit

namespace Emitter

open Emit (Ensures)

variable {α β : Type} {m : Emit α} {f : α → Emit β} {e : Emitter} {E : Cause → Prop}
  {Q : α → Emitter → Prop} {R : β → Emitter → Prop} {U : Unit → Emitter → Prop}

@[simp] theorem ensures_pure {a : α} : Ensures (pure a) e E Q ↔ Q a e := Iff.rfl

@[simp] theorem ensures_bind :
    Ensures (m >>= f) e E R ↔ Ensures m e E fun a e' => Ensures (f a) e' E R := by
  simp only [Ensures, EStateM.run, bind, EStateM.bind]
  cases m e <;> rfl

@[simp] theorem ensures_map {g : α → β} :
    Ensures (g <$> m) e E R ↔ Ensures m e E fun a e' => R (g a) e' := by
  simp only [Ensures, EStateM.run, Functor.map, EStateM.map]
  cases m e <;> rfl

@[simp] theorem ensures_get {Q : Emitter → Emitter → Prop} : Ensures get e E Q ↔ Q e e := Iff.rfl

@[simp] theorem ensures_set {e' : Emitter} {Q : PUnit → Emitter → Prop} :
    Ensures (set e') e E Q ↔ Q ⟨⟩ e' := Iff.rfl

@[simp] theorem ensures_modify {g : Emitter → Emitter} {Q : PUnit → Emitter → Prop} :
    Ensures (modify g) e E Q ↔ Q ⟨⟩ (g e) := Iff.rfl

@[simp] theorem ensures_fail {cause : Cause} : Ensures (fail cause) e E Q ↔ E cause := Iff.rfl

@[simp] theorem ensures_lift_ok {a : α} : Ensures (lift (.ok a)) e E Q ↔ Q a e := Iff.rfl

@[simp] theorem ensures_lift_error {cause : Cause} :
    Ensures (lift (.error cause)) e E Q ↔ E cause := Iff.rfl

/-! ### The small operations -/

@[simp] theorem ensures_emit {q : Quad} {Q : Nat → Emitter → Prop} :
    Ensures (emit q) e E Q ↔ Q e.quads.size { e with quads := e.quads.push q } := Iff.rfl

@[simp] theorem ensures_pushOperand {operand : Operand} {type : DataType} :
    Ensures (pushOperand operand type) e E U ↔
      U () { e with operands := (operand, type) :: e.operands } := Iff.rfl

@[simp] theorem ensures_newTemp {type : DataType} {Q : Operand → Emitter → Prop} :
    Ensures (newTemp type) e E Q ↔
      Q (.temporary e.temps.alloc.1 type) { e with temps := e.temps.alloc.2 } := Iff.rfl

@[simp] theorem ensures_popOperand {Q : Operand × DataType → Emitter → Prop} :
    Ensures popOperand e E Q ↔
      match e.operands with
      | [] => E .operandUnderflow
      | top :: rest => Q top { e with operands := rest } := by
  simp only [popOperand, ensures_bind, ensures_get]
  cases e.operands <;> rfl

@[simp] theorem ensures_lift {x : Except Cause α} :
    Ensures (lift x) e E Q ↔
      match x with
      | .ok a => Q a e
      | .error cause => E cause := by
  cases x <;> rfl

@[simp] theorem ensures_changeScope {change : Scope → Scope.Outcome} :
    Ensures (changeScope change) e E U ↔
      match change e.scope with
      | .ok _ scope => U () { e with scope }
      | .error cause _ => E cause := by
  simp only [Ensures, changeScope, EStateM.run]
  cases change e.scope <;> rfl

@[simp] theorem ensures_allocate {segment : Segment} {type : DataType}
    {Q : Int → Emitter → Prop} :
    Ensures (allocate segment type) e E Q ↔
      match e.allocator.alloc segment type with
      | .ok address allocator => Q address { e with allocator }
      | .error cause _ => E cause := by
  simp only [Ensures, allocate, EStateM.run]
  cases e.allocator.alloc segment type <;> rfl

@[simp] theorem ensures_lookup {name : String} {Q : Symbol → Emitter → Prop} :
    Ensures (lookup name) e E Q ↔
      match e.scope.symbol? name with
      | some symbol => Q symbol e
      | none => E (.undeclaredVariable name) := by
  simp only [lookup, Scope.lookupVariable, ensures_bind, ensures_get, ensures_lift]
  cases e.scope.symbol? name <;> rfl

@[simp] theorem ensures_release {operand : Operand} :
    Ensures (release operand) e E U ↔ U () { e with temps := e.temps.without operand } := by
  cases operand <;> rfl

/-- The emitter with the target of the jump at an index filled in. -/
def patched (e : Emitter) (index target : Nat) (q : Quad) : Emitter :=
  { e with quads := e.quads.set! index { q with result := .jump target } }

@[simp] theorem ensures_backpatch {jump : Option Nat} {target : Nat} :
    Ensures (backpatch jump target) e E U ↔
      match jump with
      | none => E (.backpatchMissing (-1))
      | some index =>
        match e.quads[index]? with
        | none => E (.backpatchMissing index)
        | some q =>
          if q.result.isPending then U () (e.patched index target q)
          else E (.backpatchResolved index) := by
  simp only [backpatch, ensures_bind, ensures_get]
  cases jump with
  | none => rfl
  | some index =>
    dsimp only
    cases e.quads[index]? with
    | none => rfl
    | some q =>
      dsimp only
      split <;> rfl

@[simp] theorem ensures_backpatchHere {jump : Option Nat} :
    Ensures (backpatchHere jump) e E U ↔ Ensures (backpatch jump e.quads.size) e E U := Iff.rfl

end Emitter

/-! ### Requests that fail -/

/-- An allocator that has no address to hand out stays as it is. -/
theorem Allocator.alloc_error {a a' : Allocator} {segment : Segment} {type : DataType}
    {cause : Cause} (h : a.alloc segment type = .error cause a') :
    a' = a ∧
      ((cause = .noStorage type ∧ type.isStorable = false) ∨ cause = .outOfMemory segment type) := by
  simp only [alloc] at h
  split at h
  · rename_i htype
    cases h
    exact ⟨rfl, .inl ⟨rfl, by simpa using htype⟩⟩
  · split at h <;> cases h
    exact ⟨rfl, .inr rfl⟩

namespace Scope

variable {s s' : Scope} {c : Command} {cause : Cause}

/-- Why a symbol cannot be declared in a scope. -/
inductive Denies (s : Scope) (symbol : Symbol) : Cause → Prop
  | nowhere (none : s.currentScope? = none) : Denies s symbol (.noScope symbol.name)
  | taken {e : Entry} (current : s.currentScope? = some e)
      (declared : (e.symbol? symbol.name).isSome) :
      Denies s symbol (.variableDeclared symbol.name s.current)

/-- Why a scope refuses an operation. -/
inductive Refuses (s : Scope) : Command → Cause → Prop
  | opened {name : String} (named : s.program ≠ "") :
      Refuses s (.initProgram name) (.programInitialized s.program)
  | unopened {name : String} {returns : DataType} (unnamed : s.program = "") :
      Refuses s (.beginFunction name returns) (.functionBeforeHeader name)
  | program {name : String} {returns : DataType} (same : name = s.program) :
      Refuses s (.beginFunction name returns) (.functionIsProgram name)
  | function {name : String} {returns : DataType} (defined : (s.entryOf? name).isSome) :
      Refuses s (.beginFunction name returns) (.functionDefined name)
  | untyped {name : String} {address : Int} (unset : s.declaring = none) :
      Refuses s (.addVariable name address) (.variableWithoutType name)
  | undeclared {name : String} {address : Int} {type : DataType} {cause : Cause}
      (denies : s.Denies { name, type, address, origin := .variable } cause) :
      Refuses s (.addVariable name address) cause
  | outside {name : String} {type : DataType} {address : Int} (global : s.inGlobal = true) :
      Refuses s (.addParameter name type address) (.parameterUnscoped name)
  | unlisted {name : String} {type : DataType} {address : Int} {cause : Cause}
      (denies : s.Denies { name, type, address, origin := .parameter } cause) :
      Refuses s (.addParameter name type address) cause

theorem define_error {symbol : Symbol} (h : s.define symbol = .error cause s') :
    s' = s ∧ s.Denies symbol cause := by
  simp only [define] at h
  split at h
  · rename_i hnone
    cases h
    exact ⟨rfl, .nowhere hnone⟩
  · rename_i hcurrent
    split at h <;> cases h
    rename_i hdeclared
    exact ⟨rfl, .taken hcurrent hdeclared⟩

theorem beginFunction_error {name : String} {returns : DataType}
    (h : s.beginFunction name returns = .error cause s') :
    s' = s ∧ s.Refuses (.beginFunction name returns) cause := by
  simp only [beginFunction] at h
  split at h
  · rename_i hunnamed
    cases h
    exact ⟨rfl, .unopened hunnamed⟩
  · split at h
    · rename_i hsame
      cases h
      exact ⟨rfl, .program hsame⟩
    · split at h <;> cases h
      rename_i hdefined
      exact ⟨rfl, .function hdefined⟩

theorem addParameter_error {name : String} {type : DataType} {address : Int}
    (h : s.addParameter name type address = .error cause s') :
    s' = s ∧ s.Refuses (.addParameter name type address) cause := by
  simp only [addParameter] at h
  split at h
  · rename_i hglobal
    cases h
    exact ⟨rfl, .outside hglobal⟩
  · split at h <;> cases h
    rename_i hdefine
    obtain ⟨hkept, hdenies⟩ := define_error hdefine
    exact ⟨hkept, .unlisted hdenies⟩

/-- An operation that a scope refuses leaves it as it was. -/
theorem perform_error (h : s.perform c = .error cause s') : s' = s ∧ s.Refuses c cause := by
  cases c with
  | initProgram name =>
    simp only [perform, initProgram] at h
    split at h <;> cases h
    rename_i hnamed
    exact ⟨rfl, .opened hnamed⟩
  | setType type => cases h
  | beginFunction name returns => exact beginFunction_error h
  | endFunction => cases h
  | addVariable name address =>
    simp only [perform, addVariable] at h
    split at h
    · rename_i hunset
      cases h
      exact ⟨rfl, .untyped hunset⟩
    · obtain ⟨hkept, hdenies⟩ := define_error h
      exact ⟨hkept, .undeclared hdenies⟩
  | addParameter name type address => exact addParameter_error h

/-- A change that leaves a scope as it was where it fails. -/
def Keeps (change : Scope → Outcome) : Prop :=
  ∀ ⦃s s' : Scope⦄ ⦃cause : Cause⦄, change s = .error cause s' → s' = s

theorem keeps_perform (c : Command) : Keeps (·.perform c) :=
  fun _ _ _ h => (perform_error h).1

theorem keeps_initProgram (name : String) : Keeps (·.initProgram name) :=
  keeps_perform (.initProgram name)

theorem keeps_setType (type : DataType) : Keeps fun s => .ok () (s.setType type) :=
  keeps_perform (.setType type)

theorem keeps_beginFunction (name : String) (returns : DataType) :
    Keeps (·.beginFunction name returns) :=
  keeps_perform (.beginFunction name returns)

theorem keeps_addVariable (name : String) (address : Int) : Keeps (·.addVariable name address) :=
  keeps_perform (.addVariable name address)

theorem keeps_addParameter (name : String) (type : DataType) (address : Int) :
    Keeps (·.addParameter name type address) :=
  keeps_perform (.addParameter name type address)

end Scope

namespace Emitter

/-! ### The string table -/

theorem intern_spec (strings : List Bytes) (text : Bytes) :
    strings <+: (intern strings text).2 ∧
      (intern strings text).2[(intern strings text).1]? = some text := by
  simp only [intern]
  split
  · rename_i index hindex
    obtain ⟨hlt, hget, _⟩ := List.idxOf?_eq_some_iff.mp hindex
    exact ⟨List.prefix_rfl, by simp [hlt, hget]⟩
  · exact ⟨List.prefix_append _ _, by simp⟩

end Emitter

end DuckLang
