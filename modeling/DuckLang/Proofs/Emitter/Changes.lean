import DuckLang.Parser
import DuckLang.Proofs.Emitter.Ensures
import Mathlib.Logic.Relation

/-! What the operations of an emitter do to its names, its addresses and its temporaries.  All of
them, those that fail included, come down to a handful of changes, so what each change keeps holds
whatever operations an emitter has gone through. -/

namespace DuckLang.Emitter

/-- The part of an emitter that knows names, addresses and temporaries. -/
structure Storage where
  scope : Scope
  allocator : Allocator
  temps : TempPool

/-- The storage of an emitter. -/
def storage (e : Emitter) : Storage :=
  { scope := e.scope, allocator := e.allocator, temps := e.temps }

/-- One change of a storage.  An address may be handed out for a name that is then refused. -/
inductive Storage.Change : Storage → Storage → Prop
  | mint (s : Storage) : Change s { s with temps := s.temps.alloc.2 }
  | release (s : Storage) (id : Int) : Change s { s with temps := s.temps.release id }
  | initProgram {s : Storage} {name : String} {scope : Scope}
      (opened : s.scope.initProgram name = .ok () scope) : Change s { s with scope }
  | setType (s : Storage) (type : DataType) : Change s { s with scope := s.scope.setType type }
  | beginFunction {s : Storage} {name : String} {returns : DataType} {scope : Scope}
      (begun : s.scope.beginFunction name returns = .ok () scope) :
      Change s { s with scope, allocator := s.allocator.resetLocals }
  | endFunction (s : Storage) : Change s { s with scope := s.scope.endFunction }
  | waste {s : Storage} {segment : Segment} {type : DataType} {address : Int}
      {allocator : Allocator} (handed : s.allocator.alloc segment type = .ok address allocator) :
      Change s { s with allocator }
  | declare {s : Storage} {name : String} {address : Int} {allocator : Allocator} {scope : Scope}
      (handed : s.allocator.alloc (if s.scope.inGlobal then .globals else .locals)
        s.scope.declaredType = .ok address allocator)
      (declared : s.scope.addVariable name address = .ok () scope) :
      Change s { s with scope, allocator }
  | parameter {s : Storage} {name : String} {type : DataType} {address : Int}
      {allocator : Allocator} {scope : Scope}
      (handed : s.allocator.alloc .locals type = .ok address allocator)
      (declared : s.scope.addParameter name type address = .ok () scope) :
      Change s { s with scope, allocator }

/-- Any number of changes. -/
abbrev Storage.Changes : Storage → Storage → Prop :=
  Relation.ReflTransGen Change

variable {α β : Type} {m : Emit α} {f : α → Emit β}

/-- The emitter that an operation leaves, whether it fails or not. -/
def leave (m : Emit α) (e : Emitter) : Emitter :=
  match m.run e with
  | .ok _ e' => e'
  | .error _ e' => e'

theorem leave_bind_ok {a : α} {e e' : Emitter} (h : m.run e = .ok a e') :
    leave (m >>= f) e = leave (f a) e' := by
  simp only [EStateM.run] at h
  simp only [leave, EStateM.run, bind, EStateM.bind, h]

theorem leave_bind_error {cause : Cause} {e e' : Emitter} (h : m.run e = .error cause e') :
    leave (m >>= f) e = e' := by
  simp only [EStateM.run] at h
  simp only [leave, EStateM.run, bind, EStateM.bind, h]

/-- An operation that changes the storage of an emitter by changes only. -/
def Moves (m : Emit α) : Prop :=
  ∀ e, Storage.Changes e.storage (leave m e).storage

theorem Moves.bind (hm : Moves m) (hf : ∀ a, Moves (f a)) : Moves (m >>= f) := by
  intro e
  have hfirst := hm e
  simp only [leave] at hfirst
  cases hrun : m.run e with
  | ok a e' =>
    rw [hrun] at hfirst
    rw [leave_bind_ok hrun]
    exact hfirst.trans (hf a e')
  | error cause e' =>
    rw [hrun] at hfirst
    rwa [leave_bind_error hrun]

/-- An operation that first looks at the emitter. -/
theorem Moves.look {f : Emitter → Emit β}
    (h : ∀ e, Storage.Changes e.storage (leave (f e) e).storage) :
    Moves (MonadState.get >>= f) :=
  fun e => h e

theorem Moves.modify {g : Emitter → Emitter} (h : ∀ e, (g e).storage = e.storage) :
    Moves (modify g : Emit PUnit) := by
  intro e
  show Storage.Changes e.storage (g e).storage
  rw [h]

theorem Moves.pure (a : α) : Moves (Pure.pure a) := fun _ => .refl

theorem Moves.get : Moves (MonadState.get : Emit Emitter) := fun _ => .refl

theorem Moves.fail (cause : Cause) : Moves (fail cause : Emit α) := fun _ => .refl

theorem Moves.lift (x : Except Cause α) : Moves (lift x) := by
  cases x with
  | ok a => exact .pure a
  | error cause => exact .fail cause

theorem Moves.ite {c : Prop} [Decidable c] {m m' : Emit α} (h : Moves m) (h' : Moves m') :
    Moves (if c then m else m') := by
  split
  · exact h
  · exact h'

/-! ### The operations that leave the storage alone, temporaries apart -/

theorem moves_emit (q : Quad) : Moves (emit q) := fun _ => .refl

theorem moves_pushOperand (operand : Operand) (type : DataType) :
    Moves (pushOperand operand type) := fun _ => .refl

theorem moves_newTemp (type : DataType) : Moves (newTemp type) := fun e => .single (.mint e.storage)

theorem moves_release (operand : Operand) : Moves (release operand) := by
  cases operand with
  | temporary id type => exact fun e => .single (.release e.storage id)
  | _ => exact .pure ()

theorem moves_popOperand : Moves popOperand := by
  refine .look fun e => ?_
  cases e.operands <;> exact .refl

theorem moves_backpatch (jump : Option Nat) (target : Nat) : Moves (backpatch jump target) := by
  refine .look fun e => ?_
  cases jump with
  | none => exact .refl
  | some index =>
    dsimp only
    cases e.quads[index]? with
    | none => exact .refl
    | some q =>
      dsimp only
      split <;> exact .refl

theorem moves_backpatchHere (jump : Option Nat) : Moves (backpatchHere jump) :=
  .bind .get fun e => moves_backpatch jump e.quads.size

theorem moves_lookup (name : String) : Moves (lookup name) :=
  .bind .get fun _ => .lift _

theorem moves_topControl : Moves topControl := by
  refine .bind .get fun e => ?_
  split
  · exact .fail _
  · exact .pure _

theorem moves_popControl : Moves popControl :=
  .bind moves_topControl fun _ => .bind (.modify fun _ => rfl) fun _ => .pure _

theorem moves_closeParen : Moves closeParen := by
  refine .look fun e => ?_
  split <;> exact .refl

theorem moves_generateBinary (op : Operator) : Moves (generateBinary op) := by
  refine .bind moves_popOperand fun _ => .bind moves_popOperand fun _ =>
    .bind (.modify fun _ => rfl) fun _ => ?_
  split
  · exact .fail _
  · exact .bind (moves_newTemp _) fun _ => .bind (moves_emit _) fun _ =>
      .bind (moves_pushOperand _ _) fun _ => .bind (moves_release _) fun _ => moves_release _

theorem moves_emitConditionJump : Moves emitConditionJump :=
  .bind moves_topControl fun _ => .bind moves_popOperand fun _ => .bind (moves_emit _) fun _ =>
    .bind (.modify fun _ => rfl) fun _ => moves_release _

theorem moves_generateAmong (ops : List ArithOp) : Moves (generateAmong ops) := by
  refine .bind .get fun e => ?_
  split
  · exact .ite (moves_generateBinary _) (.pure _)
  · exact .pure _

theorem moves_generateRelational : Moves generateRelational := by
  refine .bind .get fun e => ?_
  split
  · exact .bind (moves_generateBinary _) fun _ => .bind .get fun _ =>
      .ite moves_emitConditionJump (.pure _)
  · exact .pure _

theorem moves_negateLiteral : Moves negateLiteral := by
  refine .bind moves_popOperand ?_
  rintro ⟨operand, type⟩
  dsimp only
  split
  · exact moves_pushOperand _ _
  · exact moves_pushOperand _ _
  · exact .fail _

theorem moves_pushString (literal : String) : Moves (pushString literal) := by
  simp only [pushString]
  split
  · exact .fail _
  · exact .look fun e => .refl

theorem moves_write : Moves write :=
  .bind moves_popOperand fun _ =>
    .ite (.fail _) (.bind (moves_emit _) fun _ => moves_release _)

theorem moves_assign (name : String) : Moves (assign name) :=
  .bind (moves_lookup name) fun _ => .bind moves_popOperand fun _ =>
    .ite (.bind (moves_emit _) fun _ => moves_release _) (.fail _)

theorem moves_read (name : String) : Moves (read name) :=
  .bind (moves_lookup name) fun _ => .bind (moves_emit _) fun _ => .pure _

theorem moves_leaveHeader : Moves leaveHeader :=
  .bind moves_topControl fun _ => .bind (.modify fun _ => rfl) fun _ =>
    .ite (.bind .get fun _ => .ite moves_emitConditionJump (.fail _)) (.pure _)

theorem moves_enterElse : Moves enterElse := by
  refine .bind moves_topControl fun c => ?_
  split
  · exact .fail _
  · exact .bind (moves_emit _) fun _ => .bind (.modify fun _ => rfl) fun _ => moves_backpatchHere _

theorem moves_endIf : Moves endIf := by
  refine .bind moves_popControl fun c => ?_
  split
  · exact .fail _
  · exact moves_backpatchHere _
  · exact moves_backpatchHere _

theorem moves_endWhile : Moves endWhile := by
  refine .bind moves_popControl fun c => ?_
  split
  · exact .fail _
  · exact .bind (moves_emit _) fun _ => moves_backpatchHere _

theorem moves_markMain : Moves markMain := by
  refine .bind .get fun e => ?_
  dsimp only
  exact .ite (.bind (moves_backpatchHere _) fun _ => .modify fun _ => rfl) (.modify fun _ => rfl)

theorem moves_giveBack : Moves giveBack := by
  refine .bind .get fun e => ?_
  split
  · exact .fail _
  · exact .ite (.fail _) (.bind moves_popOperand fun _ =>
      .ite (.bind (moves_emit _) fun _ => moves_release _) (.fail _))

theorem moves_beginCall (name : String) : Moves (beginCall name) :=
  .bind .get fun _ => .bind (.lift _) fun _ => .bind (moves_emit _) fun _ =>
    .bind (.modify fun _ => rfl) fun _ => .modify fun _ => rfl

theorem moves_argument : Moves argument := by
  refine .bind .get fun e => ?_
  split
  · exact .fail _
  · refine .bind moves_popOperand fun _ => .bind .get fun e' => ?_
    dsimp only
    split
    · exact .fail _
    · exact .ite (.bind (moves_emit _) fun _ => .bind (moves_release _) fun _ =>
        .modify fun _ => rfl) (.fail _)

theorem moves_endCall : Moves endCall := by
  refine .bind .get fun e => ?_
  split
  · exact .fail _
  · refine .bind (.modify fun _ => rfl) fun _ => .bind .get fun e' => .ite (.fail _) ?_
    refine .bind moves_closeParen fun _ => .ite (.bind (moves_emit _) fun _ => .pure _) ?_
    exact .bind (moves_newTemp _) fun _ => .bind (moves_emit _) fun _ =>
      .bind (moves_pushOperand _ _) fun _ => .pure _

theorem moves_discardResult : Moves discardResult :=
  .bind moves_popOperand fun _ => moves_release _

/-! ### The operations that declare names -/

theorem run_allocate_ok {e : Emitter} {segment : Segment} {type : DataType} {address : Int}
    {allocator : Allocator} (h : e.allocator.alloc segment type = .ok address allocator) :
    (allocate segment type).run e = .ok address { e with allocator } := by
  simp only [EStateM.run, allocate, h]

theorem run_allocate_error {e : Emitter} {segment : Segment} {type : DataType} {cause : Cause}
    {allocator : Allocator} (h : e.allocator.alloc segment type = .error cause allocator) :
    (allocate segment type).run e = .error cause e := by
  simp only [EStateM.run, allocate, h, (Allocator.alloc_error h).1]

section Scope

variable {e : Emitter} {change : Scope → Scope.Outcome} {scope : Scope} {cause : Cause}

theorem run_changeScope_ok (h : change e.scope = .ok () scope) :
    (changeScope change).run e = .ok () { e with scope } := by
  simp only [EStateM.run, changeScope, h]

theorem run_changeScope_error (hkeeps : Scope.Keeps change)
    (h : change e.scope = .error cause scope) : (changeScope change).run e = .error cause e := by
  simp only [EStateM.run, changeScope, h, hkeeps h]

theorem moves_changeScope (hkeeps : Scope.Keeps change)
    (h : ∀ (s : Storage) {scope : Scope}, change s.scope = .ok () scope →
      Storage.Change s { s with scope }) : Moves (changeScope change) := by
  intro e
  cases hscope : change e.scope with
  | error cause scope => rw [leave, run_changeScope_error hkeeps hscope]
  | ok _ scope =>
    rw [leave, run_changeScope_ok hscope]
    exact .single (h e.storage hscope)

end Scope

theorem moves_initProgram (name : String) : Moves (changeScope (·.initProgram name)) :=
  moves_changeScope (Scope.keeps_initProgram name) fun _ _ h => .initProgram h

theorem moves_setType (type : DataType) : Moves (changeScope fun s => .ok () (s.setType type)) :=
  moves_changeScope (Scope.keeps_setType type) fun s _ h => by
    obtain ⟨_, rfl⟩ := EStateM.Result.ok.inj h
    exact .setType s type

/-- An address is handed out for a name, which is then declared or refused. -/
theorem changes_allocate {e : Emitter} {segment : Segment} {type : DataType}
    (add : Int → Scope → Scope.Outcome) {op : Int → Emit Unit}
    (hdeclare : ∀ {address allocator scope},
      e.allocator.alloc segment type = .ok address allocator →
      add address e.scope = .ok () scope →
        Storage.Change e.storage { e.storage with scope, allocator })
    (hok : ∀ {address e scope}, add address e.scope = .ok () scope →
      (leave (op address) e).storage = { e.storage with scope })
    (herror : ∀ {address e cause scope}, add address e.scope = .error cause scope →
      (leave (op address) e).storage = e.storage) :
    Storage.Changes e.storage (leave (allocate segment type >>= op) e).storage := by
  cases hhanded : e.allocator.alloc segment type with
  | error cause _ =>
    rw [leave_bind_error (run_allocate_error hhanded)]
  | ok address allocator =>
    rw [leave_bind_ok (run_allocate_ok hhanded)]
    cases hdeclared : add address e.scope with
    | error cause _ =>
      rw [herror (e := { e with allocator }) hdeclared]
      exact .single (.waste (s := e.storage) hhanded)
    | ok _ scope =>
      rw [hok (e := { e with allocator }) hdeclared]
      exact .single (hdeclare hhanded hdeclared)

theorem moves_declareVariable (name : String) : Moves (declareVariable name) := by
  refine .look fun e => ?_
  refine changes_allocate (fun address s => s.addVariable name address)
    (fun hhanded hdeclared => .declare (s := e.storage) hhanded hdeclared) ?_ ?_
  · intro address e scope h
    rw [leave, @run_changeScope_ok e (·.addVariable name address) scope h]
    rfl
  · intro address e cause scope h
    rw [leave, run_changeScope_error (Scope.keeps_addVariable name address) h]

theorem moves_addParameter (name : String) (type : DataType) : Moves (addParameter name type) := by
  refine .look fun e => ?_
  cases e.body with
  | none => exact .refl
  | some b =>
    refine changes_allocate (fun address s => s.addParameter name type address)
      (fun hhanded hdeclared => .parameter (s := e.storage) hhanded hdeclared) ?_ ?_
    · intro address e scope h
      rw [leave_bind_ok (run_changeScope_ok h)]
      rfl
    · intro address e cause scope h
      rw [leave_bind_error (run_changeScope_error (Scope.keeps_addParameter name type address) h)]

theorem moves_beginFunction (name : String) (returns : DataType) :
    Moves (beginFunction name returns) := by
  intro e
  cases hbegun : e.scope.beginFunction name returns with
  | error cause scope =>
    have hrun := run_changeScope_error (Scope.keeps_beginFunction name returns) hbegun
    rw [beginFunction, leave_bind_error hrun]
  | ok _ scope =>
    have hchange := Storage.Change.beginFunction (s := e.storage) hbegun
    rw [beginFunction, leave_bind_ok (run_changeScope_ok hbegun)]
    refine .single ?_
    -- the jump over the functions, which the first of them is preceded by, is code only
    obtain ⟨_, _, _, _, _, _, _, _, _, _, _, jump⟩ := e
    cases jump <;> exact hchange

theorem moves_endFunction : Moves endFunction := by
  refine .bind .get fun e => .ite (.fail _) (.bind (moves_emit _) fun _ => ?_)
  exact fun e => .single (.endFunction e.storage)

theorem moves_perform (command : Command) : Moves (perform command) := by
  cases command with
  | initProgram name => exact moves_initProgram name
  | setType type => exact moves_setType type
  | declareVariable name => exact moves_declareVariable name
  | assign name => exact moves_assign name
  | write => exact moves_write
  | read name => exact moves_read name
  | pushVariable name => exact .bind (moves_lookup name) fun _ => moves_pushOperand _ _
  | pushLiteral v => exact moves_pushOperand _ _
  | pushString literal => exact moves_pushString literal
  | negateLiteral => exact moves_negateLiteral
  | pushOperator text => exact .modify fun _ => rfl
  | openParen => exact .modify fun _ => rfl
  | closeParen => exact moves_closeParen
  | generateAdditive => exact moves_generateAmong _
  | generateMultiplicative => exact moves_generateAmong _
  | generateRelational => exact moves_generateRelational
  | enterIf => exact .modify fun _ => rfl
  | enterWhile => exact .bind .get fun _ => .modify fun _ => rfl
  | leaveHeader => exact moves_leaveHeader
  | enterElse => exact moves_enterElse
  | endIf => exact moves_endIf
  | endWhile => exact moves_endWhile
  | beginFunction name returns => exact moves_beginFunction name returns
  | addParameter name type => exact moves_addParameter name type
  | endFunction => exact moves_endFunction
  | markMain => exact moves_markMain
  | giveBack => exact moves_giveBack
  | beginCall name => exact moves_beginCall name
  | argument => exact moves_argument
  | endCall => exact .bind moves_endCall fun _ => .pure _
  | discardResult => exact moves_discardResult
  | finish => exact .bind (moves_emit _) fun _ => .pure _

theorem leave_perform (command : Command) (e : Emitter) :
    leave (perform command) e = after e command := by
  rw [leave, after]
  cases (perform command).run e <;> rfl

/-- Whatever operations an emitter goes through, its storage changes by changes only. -/
theorem changes_commands (commands : List Command) (e : Emitter) :
    Storage.Changes e.storage (commands.foldl after e).storage := by
  induction commands generalizing e with
  | nil => exact .refl
  | cons command commands ih =>
    have hfirst := moves_perform command e
    rw [leave_perform] at hfirst
    exact hfirst.trans (ih (after e command))

end DuckLang.Emitter

namespace DuckLang.Parser

open Emitter

/-! ### The effects of a parse -/

theorem moves_shiftEffect (kind : Token.Kind) : Moves (shiftEffect kind) := by
  simp only [shiftEffect]
  split
  · exact .modify fun _ => rfl
  · exact .bind .get fun _ => .modify fun _ => rfl
  · exact moves_leaveHeader
  · exact moves_leaveHeader
  · exact moves_enterElse
  · exact moves_markMain
  · exact .pure _

theorem moves_typeOf (a : Attribute) : Moves (typeOf a) := by
  simp only [typeOf]
  split
  · exact .pure _
  · exact .fail _

theorem moves_effect (effect : Effect) (attributes : List Attribute) :
    Moves (effect.run attributes) := by
  unfold Effect.run
  split
  · exact .bind (moves_initProgram _) fun _ => .pure _
  · exact .bind (moves_perform .finish) fun _ => .pure _
  · exact .bind (moves_typeOf _) fun _ => .bind (moves_setType _) fun _ => .pure _
  · exact .bind (moves_declareVariable _) fun _ => .pure _
  · exact .bind (moves_declareVariable _) fun _ => .pure _
  · exact .bind (moves_typeOf _) fun _ => .bind (moves_beginFunction _ _) fun _ => .pure _
  · exact .bind (moves_typeOf _) fun _ => .bind (moves_addParameter _ _) fun _ => .pure _
  · exact .bind moves_endFunction fun _ => .pure _
  · exact .bind moves_giveBack fun _ => .pure _
  · exact .bind (moves_assign _) fun _ => .pure _
  · exact .bind moves_endIf fun _ => .pure _
  · exact .bind moves_endWhile fun _ => .pure _
  · exact .bind moves_discardResult fun _ => .pure _
  · dsimp only
    exact .ite (.bind (moves_pushString _) fun _ => .bind moves_write fun _ => .pure _)
      (.bind moves_write fun _ => .pure _)
  · exact .bind (moves_read _) fun _ => .pure _
  · exact .bind (moves_read _) fun _ => .pure _
  · exact .bind (moves_beginCall _) fun _ => .pure _
  · exact .bind moves_argument fun _ => .pure _
  · exact .bind moves_endCall fun _ => .ite (.pure _) (.pure _)
  · exact .bind moves_generateRelational fun _ => .pure _
  · exact .pure _
  · exact .bind (.modify fun _ => rfl) fun _ => .pure _
  · exact .bind (moves_generateAmong _) fun _ => .pure _
  · exact .bind (moves_generateAmong _) fun _ => .pure _
  · exact .bind (.modify fun _ => rfl) fun _ => .pure _
  · exact .bind moves_closeParen fun _ => .pure _
  · exact .bind moves_negateLiteral fun _ => .pure _
  · split
    · exact .pure _
    · exact .pure _
    · exact .fail _
    · exact .bind (moves_perform (.pushVariable _)) fun _ => .pure _
  · exact .bind (.lift _) fun _ => .bind (moves_pushOperand _ _) fun _ => .pure _
  · exact .pure _

theorem moves_reduceEffect (head : String) (attributes : List Attribute) :
    Moves (reduceEffect head attributes) := by
  simp only [reduceEffect]
  split
  · exact moves_effect _ _
  · split
    · exact .pure _
    · exact .pure _

/-- The parser that an action leads to. -/
def Step.parser : Step → Parser
  | next p | accepted p | failed _ p => p

theorem changes_step (table : Table) (p : Parser) :
    Storage.Changes p.emitter.storage (step table p).parser.emitter.storage := by
  simp only [step]
  split
  · exact .refl
  · split
    · exact .refl
    · have hmoves := moves_shiftEffect p.cursor.lookahead.kind p.emitter
      simp only [leave] at hmoves
      simp only [shift]
      split <;> rename_i heffect <;> rw [heffect] at hmoves <;> exact hmoves
    · simp only [reduce]
      split
      · exact .refl
      · rename_i rule _
        split
        · exact .refl
        · have hmoves := moves_reduceEffect rule.head
            ((p.stack.take rule.size).map (·.2)).reverse p.emitter
          simp only [leave] at hmoves
          split
          · rename_i heffect
            rw [heffect] at hmoves
            exact hmoves
          · rename_i heffect
            rw [heffect] at hmoves
            split <;> exact hmoves
    · exact .refl

/-- However far a parse gets, the storage of its emitter changes by changes only. -/
theorem changes_run (table : Table) (fuel : Nat) (p : Parser) :
    Storage.Changes p.emitter.storage (run table fuel p).parser.emitter.storage := by
  induction fuel generalizing p with
  | zero => exact .refl
  | succ fuel ih =>
    have hstep := changes_step table p
    simp only [run]
    cases hnext : step table p with
    | next q =>
      rw [hnext] at hstep
      exact hstep.trans (ih q)
    | accepted q =>
      rw [hnext] at hstep
      exact hstep
    | failed d q =>
      rw [hnext] at hstep
      exact hstep

end DuckLang.Parser
