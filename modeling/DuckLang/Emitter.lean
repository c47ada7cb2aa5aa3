import DuckLang.Program
import DuckLang.Scope
import DuckLang.TempPool

/-! The emitter.  It turns the events of a parse into quadruples: operands and operators wait on
stacks until a quadruple is made of them, and jumps whose target is not known yet wait in the
records of the constructs that own them.  An operation that fails keeps what it had changed before.
-/

namespace DuckLang

/-- An entry of the operator stack. -/
inductive Emitter.Waiting where
  /-- The mark of an open parenthesis or argument list. -/
  | paren
  | operator (op : Operator)
  /-- A text that is no operator. -/
  | other
  deriving DecidableEq

/-- What an open construct is, with the jumps that only its kind owns. -/
inductive Emitter.Construct where
  /-- An `if`, with the jump over its `else` branch. -/
  | branch (exitJump : Option Nat)
  /-- A `while`, with the index of the first quadruple of its condition. -/
  | loop (top : Nat)
  deriving DecidableEq

/-- An open `if` or `while`. -/
structure Emitter.Control where
  construct : Emitter.Construct
  /-- Whether its condition is still being read. -/
  isOpen : Bool
  /-- The size of the operator stack when it opened. -/
  depth : Nat
  /-- The jump taken when its condition is false. -/
  falseJump : Option Nat
  deriving DecidableEq

/-- A call whose arguments are being read. -/
structure Emitter.Call where
  function : String
  /-- The number of arguments read so far. -/
  arguments : Nat
  deriving DecidableEq

/-- The function whose body is being read. -/
structure Emitter.Body where
  info : FunctionInfo
  /-- Whether the directory lists this very function under its name. -/
  isListed : Bool
  deriving DecidableEq

/-- The state of code generation. -/
structure Emitter where
  scope : Scope := {}
  quads : Array Quad := #[]
  /-- The operand stack, top first, each operand with its type. -/
  operands : List (Operand × DataType) := []
  /-- The operator stack, top first. -/
  operators : List Emitter.Waiting := []
  temps : TempPool := {}
  allocator : Allocator := {}
  strings : List Bytes := []
  /-- The open constructs, innermost first. -/
  controls : List Emitter.Control := []
  /-- The open calls, innermost first. -/
  calls : List Emitter.Call := []
  functions : Directory := []
  body : Option Emitter.Body := none
  /-- The jump over the function bodies; none while there is no function. -/
  leadingJump : Option Nat := none

/-- An operation of an emitter. -/
abbrev Emit := EStateM Cause Emitter

namespace Emitter

/-- The operator stack entry of a text. -/
def Waiting.ofText (text : String) : Waiting :=
  if text = "(" then .paren
  else
    match Operator.ofText? text with
    | some op => .operator op
    | none => .other

/-- An operation that fails. -/
def fail {α : Type} (cause : Cause) : Emit α :=
  throw cause

/-- The value of a computation that may fail. -/
def lift {α : Type} : Except Cause α → Emit α
  | .ok a => pure a
  | .error cause => throw cause

/-- Appends a quadruple and gives its index. -/
def emit (q : Quad) : Emit Nat :=
  modifyGet fun e => (e.quads.size, { e with quads := e.quads.push q })

/-- Fills in the pending target of a jump. -/
def backpatch (jump : Option Nat) (target : Nat) : Emit Unit := do
  let e ← get
  match jump with
  | none => fail (.backpatchMissing (-1))
  | some index =>
    match e.quads[index]? with
    | none => fail (.backpatchMissing index)
    | some q =>
      if q.result.isPending then
        set { e with quads := e.quads.set! index { q with result := .jump target } }
      else fail (.backpatchResolved index)

/-- Fills in the pending target of a jump with the index of the next quadruple. -/
def backpatchHere (jump : Option Nat) : Emit Unit := do
  backpatch jump (← get).quads.size

/-- Pushes an operand. -/
def pushOperand (operand : Operand) (type : DataType) : Emit Unit :=
  modify fun e => { e with operands := (operand, type) :: e.operands }

/-- Pops an operand. -/
def popOperand : Emit (Operand × DataType) := do
  let e ← get
  match e.operands with
  | [] => fail .operandUnderflow
  | top :: rest =>
    set { e with operands := rest }
    pure top

/-- Hands out a temporary. -/
def newTemp (type : DataType) : Emit Operand := do
  let e ← get
  let (id, temps) := e.temps.alloc
  set { e with temps }
  pure (.temporary id type)

/-- Takes the temporary of an operand back, if it is one. -/
def release (operand : Operand) : Emit Unit :=
  match operand with
  | .temporary id _ => modify fun e => { e with temps := e.temps.release id }
  | _ => pure ()

/-- Replaces the scope by what a change leaves of it, also if that fails. -/
def changeScope (change : Scope → Scope.Outcome) : Emit Unit := fun e =>
  match change e.scope with
  | .ok _ scope => .ok () { e with scope }
  | .error cause scope => .error cause { e with scope }

/-- Hands out an address. -/
def allocate (segment : Segment) (type : DataType) : Emit Int := fun e =>
  match e.allocator.alloc segment type with
  | .ok address allocator => .ok address { e with allocator }
  | .error cause allocator => .error cause { e with allocator }

/-- The symbol a name stands for. -/
def lookup (name : String) : Emit Symbol := do
  lift ((← get).scope.lookupVariable name)

end Emitter

end DuckLang
