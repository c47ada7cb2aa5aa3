/-! The types of Duck values and the operators on them.  Only `int`, `float` and `char` have
storage; `string` is the type of literals in `write`, `void` that of procedures, and `invalid`
stands for a type number that names no type. -/

namespace DuckLang

/-- A type of the language. -/
inductive DataType where
  | int
  | float
  | char
  | string
  | void
  | invalid
  deriving DecidableEq, Inhabited

namespace DataType

/-- The keyword of a type. -/
def name : DataType → String
  | int => "int"
  | float => "float"
  | char => "char"
  | string => "string"
  | void => "void"
  | invalid => "<invalid>"

/-- The number of a type.  The numbers of the types with storage order their address ranges. -/
def code : DataType → Nat
  | int => 0
  | float => 1
  | char => 2
  | string => 3
  | void => 4
  | invalid => 9

/-- Whether values of a type have storage. -/
def isStorable : DataType → Bool
  | int | float | char => true
  | _ => false

/-- The types with storage, in the order of their address ranges. -/
def storable : List DataType := [int, float, char]

/-- The type a keyword names in a declaration; `string` is not one of them. -/
def ofKeyword? (keyword : String) : Option DataType :=
  if keyword = "int" then some int
  else if keyword = "float" then some float
  else if keyword = "char" then some char
  else if keyword = "void" then some void
  else none

end DataType

/-- An arithmetic operator. -/
inductive ArithOp where
  | add
  | sub
  | mul
  | div
  deriving DecidableEq

/-- A relational operator. -/
inductive RelOp where
  | gt
  | lt
  | eq
  | ne
  deriving DecidableEq

/-- A binary operator of the language; assignment is written (destination, `=`, source). -/
inductive Operator where
  | arith (op : ArithOp)
  | rel (op : RelOp)
  | assign
  deriving DecidableEq

/-- The spelling of an arithmetic operator. -/
def ArithOp.text : ArithOp → String
  | add => "+"
  | sub => "-"
  | mul => "*"
  | div => "/"

/-- The spelling of a relational operator. -/
def RelOp.text : RelOp → String
  | gt => ">"
  | lt => "<"
  | eq => "=="
  | ne => "!="

namespace Operator

/-- The spelling of an operator. -/
def text : Operator → String
  | arith op => op.text
  | rel op => op.text
  | assign => "="

/-- Every operator, in the order of their instruction numbers. -/
def all : List Operator :=
  [arith .add, arith .sub, arith .mul, arith .div, rel .gt, rel .lt, rel .eq, rel .ne, assign]

/-- The operator with the given spelling. -/
def ofText? (text : String) : Option Operator :=
  all.find? (·.text = text)

end Operator

end DuckLang
