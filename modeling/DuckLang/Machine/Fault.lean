import DuckLang.Quad

/-! Faults: what can stop a running program. -/

namespace DuckLang

/-- Why a quadruple could not be executed. -/
inductive Fault.Cause where
  | undefinedFunction (name : String)
  | unknownOperator
  | callUnannounced
  /-- The call to run is not the one announced last. -/
  | callMismatch (called announced : String)
  | depthExceeded (limit : Int) (function : String)
  | noReturn (function : String)
  | voidValue (function : String)
  | paramUnannounced
  | invalidSlot (operand : String)
  | slotNotLocal (address : Int)
  | divisionByZero
  | missingString (index : Int)
  | writeFailed (reason : String)
  | invalidDestination (operand : String)
  | outsideMap (address : Int)
  | readFailed (reason : String)
  | notAn (kind : DataType) (text : String)
  | jumpUnresolved
  | jumpOutside (target : Int)
  | noValue (operand : String)
  | unwritten (segment : Segment) (address : Int)
  | notWritable (operand : String)
  | readOnly (address : Int)
  deriving DecidableEq

/-- A fault: a cause at the quadruple with an index. -/
structure Fault where
  index : Int
  op : Opcode
  cause : Fault.Cause
  deriving DecidableEq

namespace Fault

/-- A type with its article. -/
def withArticle : DataType → String
  | .int => "an int"
  | type => "a " ++ type.name

/-- The wording of a cause. -/
def Cause.message : Cause → String
  | undefinedFunction name => s!"call to undefined function `{name}`"
  | unknownOperator => "unknown operator"
  | callUnannounced => "GOSUB without a matching ERA"
  | callMismatch called announced =>
    s!"GOSUB to `{called}` does not match the pending call to `{announced}`"
  | depthExceeded limit function =>
    s!"maximum call depth ({limit}) exceeded calling `{function}`"
  | noReturn function => s!"function `{function}` finished without returning a value"
  | voidValue function => s!"void function `{function}` has no value"
  | paramUnannounced => "PARAM without a matching ERA"
  | invalidSlot operand => s!"invalid parameter slot {operand}"
  | slotNotLocal address => s!"parameter slot @{address} is not a local address"
  | divisionByZero => "division by zero"
  | missingString index => s!"string s{index} is not in the string table"
  | writeFailed reason => s!"write failed: {reason}"
  | invalidDestination operand => s!"invalid read destination {operand}"
  | outsideMap address => s!"address @{address} is outside of every segment"
  | readFailed reason => s!"read failed: {reason}"
  | notAn kind text => s!"cannot read `{text}` as {withArticle kind}"
  | jumpUnresolved => "jump has no resolved target"
  | jumpOutside target => s!"jump target L{target} is out of range"
  | noValue operand => s!"operand {operand} has no value"
  | unwritten segment address =>
    s!"read of {segment.name} address @{address} before it was written"
  | notWritable operand => s!"operand {operand} is not writable"
  | readOnly address => s!"constant address @{address} is read-only"

/-- The wording of a fault without its place. -/
def message (f : Fault) : String :=
  f.cause.message

/-- The wording of a fault with its place. -/
def text (f : Fault) : String :=
  s!"at L{f.index} ({f.op.name}): {f.message}"

end Fault

end DuckLang
