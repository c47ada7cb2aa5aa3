import DuckLang.Cube
import DuckLang.Emitter.Control

/-! Expressions.  Operands and operators are pushed as they are read; a binary operation is made
when both of its operands are complete. -/

namespace DuckLang.Emitter

/-- Pushes a variable. -/
def pushVariable (name : String) : Emit Unit := do
  let symbol ← lookup name
  pushOperand (.address symbol.address symbol.type) symbol.type

/-- Pushes a literal. -/
def pushLiteral (v : Value) : Emit Unit :=
  pushOperand (.literal v) v.type

/-- The index of a text in the string table, and the table with the text in it. -/
def intern (strings : List Bytes) (text : Bytes) : Nat × List Bytes :=
  match strings.idxOf? text with
  | some index => (index, strings)
  | none => (strings.length, strings ++ [text])

/-- Decodes a string literal, enters it into the string table and pushes it. -/
def pushString (literal : String) : Emit Unit := do
  match Text.Quoted.unquote? literal with
  | none => fail (.malformedString literal)
  | some text =>
    let e ← get
    let (index, strings) := intern e.strings text
    set { e with strings }
    pushOperand (.text index) .string

/-- Negates the literal on top. -/
def negateLiteral : Emit Unit := do
  let (operand, type) ← popOperand
  match operand with
  | .intLiteral n => pushOperand (.intLiteral (-n)) type
  | .floatLiteral x => pushOperand (.floatLiteral (-x)) type
  | _ => fail (.cannotNegate type)

/-- Pushes an entry of the operator stack. -/
def pushWaiting (w : Waiting) : Emit Unit :=
  modify fun e => { e with operators := w :: e.operators }

/-- Pushes an operator. -/
def pushOperator (text : String) : Emit Unit :=
  pushWaiting (.ofText text)

/-- Marks an open parenthesis. -/
def openParen : Emit Unit :=
  pushWaiting .paren

/-- Takes the mark of the matching parenthesis away. -/
def closeParen : Emit Unit := do
  let e ← get
  match e.operators with
  | .paren :: rest => set { e with operators := rest }
  | _ => fail .unmatchedParen

/-- Makes the binary operation of the operator on top. -/
def generateBinary (op : Operator) : Emit Unit := do
  let (right, rightType) ← popOperand
  let (left, leftType) ← popOperand
  modify fun e => { e with operators := e.operators.tail }
  match Cube.result? leftType op rightType with
  | none => fail (.cannotOperate op leftType rightType)
  | some type =>
    let result ← newTemp type
    let _ ← emit { op := .ofOperator op, left, right, result }
    pushOperand result type
    release left
    release right

/-- The operator on top of the stack. -/
def topOperator? (e : Emitter) : Option Operator :=
  match e.operators with
  | .operator op :: _ => some op
  | _ => none

/-- Makes a waiting operation if its operator is among the given ones. -/
def generateAmong (ops : List ArithOp) : Emit Unit := do
  match topOperator? (← get) with
  | some (.arith op) => if op ∈ ops then generateBinary (.arith op)
  | _ => pure ()

/-- Makes a waiting `+` or `-`. -/
def generateAdditive : Emit Unit :=
  generateAmong [.add, .sub]

/-- Makes a waiting `*` or `/`. -/
def generateMultiplicative : Emit Unit :=
  generateAmong [.mul, .div]

/-- Makes a waiting comparison and, if it is the condition of the innermost header, the conditional
jump out of it. -/
def generateRelational : Emit Unit := do
  match topOperator? (← get) with
  | some (.rel op) =>
    generateBinary (.rel op)
    if awaitsCondition (← get) then emitConditionJump
  | _ => pure ()

end DuckLang.Emitter
