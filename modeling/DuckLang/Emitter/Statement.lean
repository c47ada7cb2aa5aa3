import DuckLang.Cube
import DuckLang.Emitter

/-! Declarations, assignments, input and output. -/

namespace DuckLang.Emitter

/-- Declares a variable of the type set last in the current scope. -/
def declareVariable (name : String) : Emit Unit := do
  let scope := (← get).scope
  let segment := if scope.inGlobal then Segment.globals else Segment.locals
  let address ← allocate segment scope.declaredType
  changeScope (·.addVariable name address)

/-- Stores the operand on top in a variable. -/
def assign (name : String) : Emit Unit := do
  let symbol ← lookup name
  let (source, type) ← popOperand
  if Cube.canAssign symbol.type type then
    let _ ← emit { op := .assign, left := source, result := .address symbol.address symbol.type }
    release source
  else fail (.cannotAssign type name symbol.type)

/-- Writes the operand on top. -/
def write : Emit Unit := do
  let (operand, type) ← popOperand
  if type = .void then fail .writeVoid
  else
    let _ ← emit { op := .write, result := operand }
    release operand

/-- Reads into a variable. -/
def read (name : String) : Emit Unit := do
  let symbol ← lookup name
  let _ ← emit { op := .read, result := .address symbol.address symbol.type }

end DuckLang.Emitter
