import DuckLang.Address

/-! Why a program has no LLVM module. -/

namespace DuckLang.Llvm

/-- What a module cannot express. -/
inductive Problem.Cause where
  | entryOutside (entry : Int) (function : String)
  | emptyBody (function : String)
  | callUnfinished (callee function : String)
  | noValue (operand : String)
  | notWritable (operand : String)
  | invalidDestination (operand : String)
  | outsideMap (address : Int)
  | noStorage (segment : Segment) (address : Int)
  | notAllocated (address : Int)
  | missingConstant (address : Int)
  | missingString (index : Int)
  | jumpUnresolved
  | jumpOutside (target : Int) (function : String)
  | noReturn (function : String)
  | undefinedFunction (name : String)
  | paramUnannounced
  | missingParam (function : String) (address : Int)
  | callUnannounced
  | voidValue (function : String)
  | unknownOperator
  deriving DecidableEq

/-- A cause, at a quadruple if it lies in one. -/
structure Problem where
  cause : Problem.Cause
  /-- The index and the text of the quadruple. -/
  place : Option (Nat × String) := none
  deriving DecidableEq

namespace Problem

/-- The wording of a cause. -/
def Cause.message : Cause → String
  | entryOutside entry function => s!"entry L{entry} of `{function}` is outside of the program"
  | emptyBody function => s!"function `{function}` has an empty body"
  | callUnfinished callee function => s!"unterminated call to `{callee}` in `{function}`"
  | noValue operand => s!"operand {operand} has no value"
  | notWritable operand => s!"operand {operand} is not writable"
  | invalidDestination operand => s!"invalid read destination {operand}"
  | outsideMap address => s!"address @{address} is outside of every segment"
  | noStorage segment address => s!"{segment.name} address @{address} has no storage"
  | notAllocated address => s!"address @{address} was never allocated"
  | missingConstant address => s!"constant @{address} is not in the constant table"
  | missingString index => s!"string s{index} is not in the string table"
  | jumpUnresolved => "jump has no resolved target"
  | jumpOutside target function => s!"jump to L{target} leaves `{function}`"
  | noReturn function => s!"`{function}` does not return a value"
  | undefinedFunction name => s!"call to undefined function `{name}`"
  | paramUnannounced => "PARAM without a matching ERA"
  | missingParam function address => s!"`{function}` has no parameter at @{address}"
  | callUnannounced => "GOSUB without a matching ERA"
  | voidValue function => s!"void function `{function}` has no value"
  | unknownOperator => "unknown operator"

/-- The wording of a problem, with the quadruple it lies in. -/
def message (p : Problem) : String :=
  match p.place with
  | none => p.cause.message
  | some (index, quad) => s!"L{index} {quad}: {p.cause.message}"

end Problem

end DuckLang.Llvm
