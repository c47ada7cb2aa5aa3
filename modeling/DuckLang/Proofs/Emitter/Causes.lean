import DuckLang.Parser.Action
import DuckLang.Proofs.Emitter.Ensures

/-! What the effects of a parse can fail with.  Some causes are reported by the parser itself; no
operation of an emitter fails with one of them, whatever state the emitter is in. -/

namespace DuckLang

/-- The causes that the parser reports on its own account: syntax errors and broken tables. -/
def Cause.isOfParser : Cause → Bool
  | unexpectedEnd _ | unexpectedToken _ _ | missingState _ | missingRule _ | stackUnderflow _
  | missingGoto _ _ => true
  | _ => false

namespace Emitter

open Emit (Ensures)

variable {α β : Type} {m : Emit α} {f : α → Emit β}

/-- An operation fails with none of the causes of the parser. -/
def Quiet (m : Emit α) : Prop :=
  ∀ e, Ensures m e (fun cause => cause.isOfParser = false) fun _ _ => True

theorem Quiet.bind (hm : Quiet m) (hf : ∀ a, Quiet (f a)) : Quiet (m >>= f) := by
  intro e
  rw [ensures_bind]
  exact (hm e).mono (fun _ h => h) fun a e' _ => hf a e'

theorem Quiet.pure (a : α) : Quiet (Pure.pure a) := fun _ => trivial

theorem Quiet.get : Quiet (MonadState.get : Emit Emitter) := fun _ => trivial

theorem Quiet.set (e : Emitter) : Quiet (MonadStateOf.set e : Emit PUnit) := fun _ => trivial

theorem Quiet.modify (g : Emitter → Emitter) : Quiet (modify g : Emit PUnit) := fun _ => trivial

theorem Quiet.fail {cause : Cause} (h : cause.isOfParser = false) :
    Quiet (fail cause : Emit α) := fun _ => h

theorem Quiet.lift {x : Except Cause α} (h : ∀ cause, x = .error cause → cause.isOfParser = false) :
    Quiet (lift x) := by
  cases x with
  | ok a => exact .pure a
  | error cause => exact .fail (h cause rfl)

theorem Quiet.ite {c : Prop} [Decidable c] {m m' : Emit α} (h : Quiet m) (h' : Quiet m') :
    Quiet (if c then m else m') := by
  split
  · exact h
  · exact h'

theorem quiet_emit (q : Quad) : Quiet (emit q) := fun _ => trivial

theorem quiet_pushOperand (operand : Operand) (type : DataType) :
    Quiet (pushOperand operand type) := fun _ => trivial

theorem quiet_newTemp (type : DataType) : Quiet (newTemp type) := fun _ => trivial

theorem quiet_release (operand : Operand) : Quiet (release operand) := by
  intro e
  rw [ensures_release]
  trivial

theorem quiet_popOperand : Quiet popOperand := by
  intro e
  rw [ensures_popOperand]
  cases e.operands with
  | nil => rfl
  | cons top rest => trivial

theorem quiet_backpatch (jump : Option Nat) (target : Nat) : Quiet (backpatch jump target) := by
  intro e
  rw [ensures_backpatch]
  split
  · rfl
  · split
    · rfl
    · split
      · trivial
      · rfl

theorem quiet_backpatchHere (jump : Option Nat) : Quiet (backpatchHere jump) :=
  .bind .get fun e => quiet_backpatch jump e.quads.size

theorem quiet_lookup (name : String) : Quiet (lookup name) := by
  intro e
  rw [ensures_lookup]
  split
  · trivial
  · rfl

theorem quiet_allocate (segment : Segment) (type : DataType) : Quiet (allocate segment type) := by
  intro e
  rw [ensures_allocate]
  split
  · trivial
  · rename_i halloc
    rcases (Allocator.alloc_error halloc).2 with ⟨rfl, _⟩ | rfl <;> rfl

/-- No change of a scope is refused for a cause of the parser. -/
theorem quiet_refuses {s : Scope} {command : Scope.Command} {cause : Cause}
    (h : s.Refuses command cause) : cause.isOfParser = false := by
  cases h with
  | undeclared denies | unlisted denies => cases denies <;> rfl
  | _ => rfl

theorem quiet_perform (command : Scope.Command) : Quiet (changeScope (·.perform command)) := by
  intro e
  rw [ensures_changeScope]
  split
  · trivial
  · rename_i hrefused
    exact quiet_refuses (Scope.perform_error hrefused).2

/-! ### The operations -/

theorem quiet_declareVariable (name : String) : Quiet (declareVariable name) :=
  .bind .get fun _ => .bind (quiet_allocate _ _) fun address =>
    quiet_perform (.addVariable name address)

theorem quiet_assign (name : String) : Quiet (assign name) := by
  refine .bind (quiet_lookup name) fun symbol => .bind quiet_popOperand fun _ => .ite ?_ (.fail rfl)
  exact .bind (quiet_emit _) fun _ => quiet_release _

theorem quiet_write : Quiet write := by
  refine .bind quiet_popOperand fun _ => .ite (.fail rfl) ?_
  exact .bind (quiet_emit _) fun _ => quiet_release _

theorem quiet_read (name : String) : Quiet (read name) :=
  .bind (quiet_lookup name) fun _ => .bind (quiet_emit _) fun _ => .pure _

theorem quiet_pushVariable (name : String) : Quiet (pushVariable name) :=
  .bind (quiet_lookup name) fun _ => quiet_pushOperand _ _

theorem quiet_pushString (literal : String) : Quiet (pushString literal) := by
  simp only [pushString]
  split
  · exact .fail rfl
  · exact .bind .get fun _ => .bind (.set _) fun _ => quiet_pushOperand _ _

theorem quiet_negateLiteral : Quiet negateLiteral := by
  refine .bind quiet_popOperand ?_
  rintro ⟨operand, type⟩
  dsimp only
  split
  · exact quiet_pushOperand _ _
  · exact quiet_pushOperand _ _
  · exact .fail rfl

theorem quiet_closeParen : Quiet closeParen := by
  refine .bind .get fun e => ?_
  split
  · exact .set _
  · exact .fail rfl

theorem quiet_generateBinary (op : Operator) : Quiet (generateBinary op) := by
  refine .bind quiet_popOperand fun _ => .bind quiet_popOperand fun _ =>
    .bind (.modify _) fun _ => ?_
  split
  · exact .fail rfl
  · exact .bind (quiet_newTemp _) fun _ => .bind (quiet_emit _) fun _ =>
      .bind (quiet_pushOperand _ _) fun _ => .bind (quiet_release _) fun _ => quiet_release _

theorem quiet_topControl : Quiet topControl := by
  refine .bind .get fun e => ?_
  split
  · exact .fail rfl
  · exact .pure _

theorem quiet_emitConditionJump : Quiet emitConditionJump :=
  .bind quiet_topControl fun _ => .bind quiet_popOperand fun _ => .bind (quiet_emit _) fun _ =>
    .bind (.modify _) fun _ => quiet_release _

theorem quiet_generateAmong (ops : List ArithOp) : Quiet (generateAmong ops) := by
  refine .bind .get fun e => ?_
  split
  · exact .ite (quiet_generateBinary _) (.pure _)
  · exact .pure _

theorem quiet_generateRelational : Quiet generateRelational := by
  refine .bind .get fun e => ?_
  split
  · exact .bind (quiet_generateBinary _) fun _ => .bind .get fun _ =>
      .ite quiet_emitConditionJump (.pure _)
  · exact .pure _

theorem quiet_leaveHeader : Quiet leaveHeader :=
  .bind quiet_topControl fun _ => .bind (.modify _) fun _ =>
    .ite (.bind .get fun _ => .ite quiet_emitConditionJump (.fail rfl)) (.pure _)

theorem quiet_enterElse : Quiet enterElse := by
  refine .bind quiet_topControl fun c => ?_
  split
  · exact .fail rfl
  · exact .bind (quiet_emit _) fun _ => .bind (.modify _) fun _ => quiet_backpatchHere _

theorem quiet_popControl : Quiet popControl :=
  .bind quiet_topControl fun _ => .bind (.modify _) fun _ => .pure _

theorem quiet_endIf : Quiet endIf := by
  refine .bind quiet_popControl fun c => ?_
  split
  · exact .fail rfl
  · exact quiet_backpatchHere _
  · exact quiet_backpatchHere _

theorem quiet_endWhile : Quiet endWhile := by
  refine .bind quiet_popControl fun c => ?_
  split
  · exact .fail rfl
  · exact .bind (quiet_emit _) fun _ => quiet_backpatchHere _

theorem quiet_beginFunction (name : String) (returns : DataType) :
    Quiet (beginFunction name returns) := by
  refine .bind (quiet_perform (.beginFunction name returns)) fun _ => .bind .get fun e => ?_
  dsimp only
  refine .ite ?_ (.modify _)
  exact .bind (quiet_emit _) fun _ => .bind (.modify _) fun _ => .modify _

theorem quiet_addParameter (name : String) (type : DataType) :
    Quiet (addParameter name type) := by
  refine .bind .get fun e => ?_
  split
  · exact .fail rfl
  · exact .bind (quiet_allocate _ _) fun address =>
      .bind (quiet_perform (.addParameter name type address)) fun _ => .modify _

theorem quiet_endFunction : Quiet endFunction :=
  .bind .get fun _ => .ite (.fail rfl) (.bind (quiet_emit _) fun _ => .modify _)

theorem quiet_markMain : Quiet markMain := by
  refine .bind .get fun e => ?_
  dsimp only
  exact .ite (.bind (quiet_backpatchHere _) fun _ => .modify _) (.modify _)

theorem quiet_giveBack : Quiet giveBack := by
  refine .bind .get fun e => ?_
  split
  · exact .fail rfl
  · refine .ite (.fail rfl) (.bind quiet_popOperand fun _ => .ite ?_ (.fail rfl))
    exact .bind (quiet_emit _) fun _ => quiet_release _

theorem quiet_beginCall (name : String) : Quiet (beginCall name) := by
  refine .bind .get fun e => .bind (.lift ?_) fun _ => .bind (quiet_emit _) fun _ =>
    .bind (.modify _) fun _ => .modify _
  intro cause h
  simp only [Scope.lookupFunction] at h
  split at h
  · split at h <;> cases h
    rfl
  · cases h
    rfl

theorem quiet_argument : Quiet argument := by
  refine .bind .get fun e => ?_
  split
  · exact .fail rfl
  · refine .bind quiet_popOperand fun _ => .bind .get fun e' => ?_
    dsimp only
    split
    · exact .fail rfl
    · refine .ite ?_ (.fail rfl)
      exact .bind (quiet_emit _) fun _ => .bind (quiet_release _) fun _ => .modify _

theorem quiet_endCall : Quiet endCall := by
  refine .bind .get fun e => ?_
  split
  · exact .fail rfl
  · refine .bind (.modify _) fun _ => .bind .get fun e' => .ite (.fail rfl) ?_
    refine .bind quiet_closeParen fun _ => .ite (.bind (quiet_emit _) fun _ => .pure _) ?_
    exact .bind (quiet_newTemp _) fun _ => .bind (quiet_emit _) fun _ =>
      .bind (quiet_pushOperand _ _) fun _ => .pure _

theorem quiet_discardResult : Quiet discardResult :=
  .bind quiet_popOperand fun _ => quiet_release _

end Emitter

namespace Parser

open Emitter (Quiet)

/-! ### The effects -/

theorem quiet_typeOf (a : Attribute) : Quiet (typeOf a) := by
  simp only [typeOf]
  split
  · exact .pure _
  · exact .fail rfl

theorem quiet_literalValue (lexeme : String) : Quiet (Emitter.lift (literalValue lexeme)) := by
  refine .lift fun cause h => ?_
  simp only [literalValue] at h
  split at h
  · split at h <;> cases h
    rfl
  · split at h
    · split at h <;> cases h
      rfl
    · split at h <;> cases h
      rfl

theorem quiet_shiftEffect (kind : Token.Kind) : Quiet (shiftEffect kind) := by
  simp only [shiftEffect]
  split
  · exact .modify _
  · exact .bind .get fun _ => .modify _
  · exact Emitter.quiet_leaveHeader
  · exact Emitter.quiet_leaveHeader
  · exact Emitter.quiet_enterElse
  · exact Emitter.quiet_markMain
  · exact .pure _

theorem quiet_effect (effect : Effect) (attributes : List Attribute) :
    Quiet (effect.run attributes) := by
  unfold Effect.run
  split
  · exact .bind (Emitter.quiet_perform (.initProgram _)) fun _ => .pure _
  · exact .bind (.bind (Emitter.quiet_emit _) fun _ => .pure _) fun _ => .pure _
  · exact .bind (quiet_typeOf _) fun t =>
      .bind (Emitter.quiet_perform (.setType t)) fun _ => .pure _
  · exact .bind (Emitter.quiet_declareVariable _) fun _ => .pure _
  · exact .bind (Emitter.quiet_declareVariable _) fun _ => .pure _
  · exact .bind (quiet_typeOf _) fun _ => .bind (Emitter.quiet_beginFunction _ _) fun _ => .pure _
  · exact .bind (quiet_typeOf _) fun _ => .bind (Emitter.quiet_addParameter _ _) fun _ => .pure _
  · exact .bind Emitter.quiet_endFunction fun _ => .pure _
  · exact .bind Emitter.quiet_giveBack fun _ => .pure _
  · exact .bind (Emitter.quiet_assign _) fun _ => .pure _
  · exact .bind Emitter.quiet_endIf fun _ => .pure _
  · exact .bind Emitter.quiet_endWhile fun _ => .pure _
  · exact .bind Emitter.quiet_discardResult fun _ => .pure _
  · dsimp only
    exact .ite
      (.bind (Emitter.quiet_pushString _) fun _ => .bind Emitter.quiet_write fun _ => .pure _)
      (.bind Emitter.quiet_write fun _ => .pure _)
  · exact .bind (Emitter.quiet_read _) fun _ => .pure _
  · exact .bind (Emitter.quiet_read _) fun _ => .pure _
  · exact .bind (Emitter.quiet_beginCall _) fun _ => .pure _
  · exact .bind Emitter.quiet_argument fun _ => .pure _
  · exact .bind Emitter.quiet_endCall fun _ => .ite (.pure _) (.pure _)
  · exact .bind Emitter.quiet_generateRelational fun _ => .pure _
  · exact .pure _
  · exact .bind (.modify _) fun _ => .pure _
  · exact .bind (Emitter.quiet_generateAmong _) fun _ => .pure _
  · exact .bind (Emitter.quiet_generateAmong _) fun _ => .pure _
  · exact .bind (.modify _) fun _ => .pure _
  · exact .bind Emitter.quiet_closeParen fun _ => .pure _
  · exact .bind Emitter.quiet_negateLiteral fun _ => .pure _
  · split
    · exact .pure _
    · exact .pure _
    · exact .fail rfl
    · exact .bind (Emitter.quiet_pushVariable _) fun _ => .pure _
  · exact .bind (quiet_literalValue _) fun _ =>
      .bind (Emitter.quiet_pushOperand _ _) fun _ => .pure _
  · exact .pure _

theorem quiet_reduceEffect (head : String) (attributes : List Attribute) :
    Quiet (reduceEffect head attributes) := by
  simp only [reduceEffect]
  split
  · exact quiet_effect _ _
  · split
    · exact .pure _
    · exact .pure _

end Parser

end DuckLang
