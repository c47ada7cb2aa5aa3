import DuckLang.Text.Utf8

/-! LLVM modules as data.  A function is a list of labelled blocks; the result of an instruction is
known by an identity, and only the printer gives it a number. -/

namespace DuckLang.Llvm

/-- A type. -/
inductive Ty where
  | i1
  | i8
  | i32
  | i64
  | double
  | void
  | array (size : Nat) (element : Ty)
  | pointer (target : Ty)
  deriving DecidableEq

/-- The label of a block. -/
inductive Label where
  | entry
  /-- The block of the quadruple with an index. -/
  | quad (index : Nat)
  /-- The block reached by running off the end of the function. -/
  | exit
  /-- The rest of the block of a division. -/
  | quotient (index : Nat)
  /-- The block that reports a division by zero. -/
  | zeroDivisor
  deriving DecidableEq

/-- What an instruction works on. -/
inductive Ref where
  | int (type : Ty) (n : Int)
  | double (x : Float)
  | param (index : Nat) (type : Ty)
  /-- A named slot of the stack; the type is that of the pointer to it. -/
  | slot (name : String) (type : Ty)
  /-- A global; the type is that of the pointer to it. -/
  | global (name : String) (type : Ty)
  /-- The result of an instruction. -/
  | result (id : Nat) (type : Ty)

/-- The type of what an instruction works on. -/
def Ref.type : Ref → Ty
  | int type _ => type
  | double _ => .double
  | param _ type => type
  | slot _ type => type
  | global _ type => type
  | result _ type => type

/-- An arithmetic instruction. -/
inductive BinaryOp where
  | add
  | sub
  | mul
  | sdiv
  | fadd
  | fsub
  | fmul
  | fdiv
  deriving DecidableEq

/-- A comparison, of integers or of doubles. -/
inductive Predicate where
  | sgt
  | slt
  | eq
  | ne
  | ogt
  | olt
  | oeq
  | une
  deriving DecidableEq

/-- A conversion. -/
inductive CastOp where
  | sitofp
  | fptosi
  | sext
  | trunc
  | zext
  deriving DecidableEq

/-- The function that a call names. -/
structure Callee where
  name : String
  returns : Ty
  params : List Ty
  /-- Whether it takes more arguments than it declares. -/
  variadic : Bool := false
  deriving DecidableEq

/-- An instruction.  Those that give a result carry its identity. -/
inductive Instruction where
  /-- A named slot of the stack. -/
  | slot (name : String) (type : Ty)
  /-- A slot of the stack. -/
  | alloca (id : Nat) (type : Ty)
  | load (id : Nat) (type : Ty) (pointer : Ref)
  | store (value pointer : Ref)
  /-- The address of an element of an array. -/
  | element (id : Nat) (array : Ty) (pointer : Ref) (offset : Nat)
  | binary (id : Nat) (op : BinaryOp) (left right : Ref)
  | compare (id : Nat) (predicate : Predicate) (left right : Ref)
  | cast (id : Nat) (op : CastOp) (value : Ref) (target : Ty)
  /-- A call; it has no identity if it gives no result. -/
  | call (id : Option Nat) (callee : Callee) (arguments : List Ref)

/-- The identity of the result of an instruction, if it is to be numbered. -/
def Instruction.id? : Instruction → Option Nat
  | slot _ _ | store _ _ => none
  | alloca id _ | load id _ _ | element id _ _ _ | binary id _ _ _ | compare id _ _ _
  | cast id _ _ _ => some id
  | call id _ _ => id

/-- The end of a block. -/
inductive Terminator where
  | branch (target : Label)
  | conditional (condition : Ref) (yes no : Label)
  | ret (value : Option Ref)
  | unreachable

/-- A block. -/
structure Block where
  label : Label
  instructions : Array Instruction := #[]
  terminator : Option Terminator := none

/-- A function with a body. -/
structure Function where
  name : String
  returns : Ty
  params : List Ty
  blocks : Array Block

/-- A function without a body, its parameters named. -/
structure Declaration where
  callee : Callee
  paramNames : List String

/-- What a global holds at the start. -/
inductive Initial where
  /-- Text that does not change. -/
  | text (bytes : Bytes)
  | zeros

/-- A global. -/
structure Global where
  name : String
  type : Ty
  initial : Initial

/-- A module. -/
structure Module where
  source : String
  globals : List Global
  declarations : List Declaration
  functions : List Function

end DuckLang.Llvm
