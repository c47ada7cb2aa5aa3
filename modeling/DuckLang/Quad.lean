import DuckLang.Address
import DuckLang.Text.Quoted
import DuckLang.Value

/-! Quadruples, the instructions of a program: an operation code and three operands. -/

namespace DuckLang

/-- The operation of a quadruple. -/
inductive Opcode where
  | arith (op : ArithOp)
  | rel (op : RelOp)
  | assign
  /-- Jump to the result. -/
  | goto
  /-- Jump to the result if the left operand is zero. -/
  | gotoFalse
  | write
  | read
  /-- Announce a call. -/
  | announce
  /-- Copy an argument into a parameter slot of the announced call. -/
  | param
  /-- Run the announced call. -/
  | call
  | giveBack
  | endFunction
  | halt
  /-- A number that is no operation. -/
  | unknown (code : Int)
  deriving DecidableEq

namespace Opcode

/-- The name of an operation in a listing. -/
def name : Opcode → String
  | arith op => op.text
  | rel op => op.text
  | assign => "="
  | goto => "GOTO"
  | gotoFalse => "GOTOF"
  | write => "write"
  | read => "read"
  | announce => "ERA"
  | param => "PARAM"
  | call => "GOSUB"
  | giveBack => "RETURN"
  | endFunction => "ENDFUNC"
  | halt => "END"
  | unknown _ => "<invalid op>"

/-- Every operation that has a name, in the order of their numbers. -/
def all : List Opcode :=
  [arith .add, arith .sub, arith .mul, arith .div, rel .gt, rel .lt, rel .eq, rel .ne, assign,
   goto, gotoFalse, write, read, announce, param, call, giveBack, endFunction, halt]

/-- The operation with the given name. -/
def ofName? (name : String) : Option Opcode :=
  all.find? (·.name = name)

/-- The operation of an operator. -/
def ofOperator : Operator → Opcode
  | .arith op => arith op
  | .rel op => rel op
  | .assign => assign

/-- Whether an operation is a comparison. -/
def isRelational : Opcode → Bool
  | rel _ => true
  | _ => false

/-- Whether an operation is arithmetic. -/
def isArith : Opcode → Bool
  | arith _ => true
  | _ => false

end Opcode

/-- A slot of a quadruple. -/
inductive Operand where
  | empty
  /-- A virtual address. -/
  | address (location : Int) (type : DataType)
  | intLiteral (n : Int64)
  | floatLiteral (x : Float)
  | charLiteral (n : Int64)
  /-- An entry of the string table. -/
  | text (index : Int)
  | temporary (id : Int) (type : DataType)
  /-- A resolved jump target. -/
  | jump (target : Int)
  /-- A jump target still to be filled in. -/
  | pending
  | function (name : String)

namespace Operand

/-- The literal operand of a value; a value of a type without storage stands as an int. -/
def literal : Value → Operand
  | .float x => floatLiteral x
  | .char n => charLiteral n
  | v => intLiteral v.number

/-- The value of a literal operand. -/
def literal? : Operand → Option Value
  | intLiteral n => some (.int n)
  | floatLiteral x => some (.float x)
  | charLiteral n => some (.char n)
  | _ => none

/-- The address an address or temporary operand denotes. -/
def target? : Operand → Option Int
  | address a _ => some a
  | temporary id type => some (Address.ofTemporary type id)
  | _ => none

/-- Whether an operand is the empty one. -/
def isEmpty : Operand → Bool
  | empty => true
  | _ => false

/-- Whether an operand is a jump target still to be filled in. -/
def isPending : Operand → Bool
  | pending => true
  | _ => false

/-- The function an operand names; empty for any other operand. -/
def functionName : Operand → String
  | function name => name
  | _ => ""

/-- An operand as it stands in a listing. -/
def render : Operand → String
  | empty => "-"
  | address a _ => s!"@{a}"
  | intLiteral n => toString n.toInt
  | floatLiteral x => Decimal.positional x
  | charLiteral n => Text.Quoted.quoteChar (Value.charOf n)
  | text index => s!"s{index}"
  | temporary id _ => s!"t{id}"
  | jump target => s!"L{target}"
  | pending => "?"
  | function name => name

end Operand

/-- An instruction. -/
structure Quad where
  op : Opcode
  left : Operand := .empty
  right : Operand := .empty
  result : Operand := .empty

namespace Quad

/-- The columns of a quadruple in a table. -/
def row (q : Quad) : List String :=
  [q.op.name, q.left.render, q.right.render, q.result.render]

/-- A quadruple as it stands in a listing. -/
def render (q : Quad) : String :=
  "(" ++ ", ".intercalate q.row ++ ")"

/-- The operands of a quadruple, from left to right. -/
def operands (q : Quad) : List Operand :=
  [q.left, q.right, q.result]

end Quad

end DuckLang
