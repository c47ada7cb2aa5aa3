import DuckLang.Emitter

/-! Conditions and loops.  The header of an `if` or `while` closes with one conditional jump out of
the construct, which is filled in when the place it leads to is reached. -/

namespace DuckLang.Emitter

/-- The innermost open construct. -/
def topControl : Emit Control := do
  match (← get).controls with
  | [] => fail .noControl
  | c :: _ => pure c

/-- Replaces the innermost open construct. -/
def setTopControl (c : Control) : Emit Unit :=
  modify fun e => { e with controls := c :: e.controls.tail }

/-- Closes the innermost open construct. -/
def popControl : Emit Control := do
  let c ← topControl
  modify fun e => { e with controls := e.controls.tail }
  pure c

/-- Opens the header of a construct. -/
def openControl (construct : Construct) : Emit Unit :=
  modify fun e =>
    let c : Control :=
      { construct, isOpen := true, depth := e.operators.length, falseJump := none }
    { e with controls := c :: e.controls }

/-- Opens the header of an `if`. -/
def enterIf : Emit Unit :=
  openControl (.branch none)

/-- Opens the header of a `while`, whose condition starts at the next quadruple. -/
def enterWhile : Emit Unit := do
  openControl (.loop (← get).quads.size)

/-- Whether a comparison just made is the condition of the innermost header: one inside of
parentheses or of an argument is not. -/
def awaitsCondition (e : Emitter) : Bool :=
  match e.controls with
  | [] => false
  | c :: _ => c.isOpen && c.falseJump.isNone && e.operators.length = c.depth

/-- Makes the conditional jump of the innermost construct out of the operand on top. -/
def emitConditionJump : Emit Unit := do
  let c ← topControl
  let (condition, _) ← popOperand
  let index ← emit { op := .gotoFalse, left := condition, result := .pending }
  setTopControl { c with falseJump := some index }
  release condition

/-- Whether the operand on top is the temporary that the last quadruple, a comparison, wrote. -/
def topIsRelational (e : Emitter) : Bool :=
  match e.operands, e.quads.back? with
  | (.temporary id type, _) :: _, some q =>
    q.op.isRelational &&
      match q.result with
      | .temporary id' type' => id = id' && type = type'
      | _ => false
  | _, _ => false

/-- Closes the header of the innermost construct.  Unless it has its conditional jump, its condition
must be a comparison in parentheses. -/
def leaveHeader : Emit Unit := do
  let c ← topControl
  setTopControl { c with isOpen := false }
  if c.falseJump.isNone then
    if topIsRelational (← get) then emitConditionJump else fail .conditionNotRelational

/-- Starts the `else` branch of the innermost `if`. -/
def enterElse : Emit Unit := do
  let c ← topControl
  match c.construct with
  | .loop _ => fail .elseOutside
  | .branch _ =>
    let index ← emit { op := .goto, result := .pending }
    setTopControl { c with construct := .branch (some index) }
    backpatchHere c.falseJump

/-- Closes the innermost `if`. -/
def endIf : Emit Unit := do
  let c ← popControl
  match c.construct with
  | .loop _ => fail .ifMismatch
  | .branch (some exitJump) => backpatchHere (some exitJump)
  | .branch none => backpatchHere c.falseJump

/-- Closes the innermost `while`. -/
def endWhile : Emit Unit := do
  let c ← popControl
  match c.construct with
  | .branch _ => fail .whileMismatch
  | .loop top =>
    let _ ← emit { op := .goto, result := .jump top }
    backpatchHere c.falseJump

end DuckLang.Emitter
