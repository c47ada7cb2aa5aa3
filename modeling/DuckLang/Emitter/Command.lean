import DuckLang.Emitter.Export
import DuckLang.Emitter.Function
import DuckLang.Emitter.Statement

/-! The operations of an emitter as data, so that sequences of them can be spoken of. -/

namespace DuckLang.Emitter

/-- An operation of an emitter. -/
inductive Command where
  | initProgram (name : String)
  | setType (type : DataType)
  | declareVariable (name : String)
  | assign (name : String)
  | write
  | read (name : String)
  | pushVariable (name : String)
  | pushLiteral (v : Value)
  | pushString (literal : String)
  | negateLiteral
  | pushOperator (text : String)
  | openParen
  | closeParen
  | generateAdditive
  | generateMultiplicative
  | generateRelational
  | enterIf
  | enterWhile
  | leaveHeader
  | enterElse
  | endIf
  | endWhile
  | beginFunction (name : String) (returns : DataType)
  | addParameter (name : String) (type : DataType)
  | endFunction
  | markMain
  | giveBack
  | beginCall (name : String)
  | argument
  | endCall
  | discardResult
  | finish

/-- Performs an operation. -/
def perform : Command → Emit Unit
  | .initProgram name => changeScope (·.initProgram name)
  | .setType type => changeScope fun s => .ok () (s.setType type)
  | .declareVariable name => declareVariable name
  | .assign name => assign name
  | .write => write
  | .read name => read name
  | .pushVariable name => pushVariable name
  | .pushLiteral v => pushLiteral v
  | .pushString literal => pushString literal
  | .negateLiteral => negateLiteral
  | .pushOperator text => pushOperator text
  | .openParen => openParen
  | .closeParen => closeParen
  | .generateAdditive => generateAdditive
  | .generateMultiplicative => generateMultiplicative
  | .generateRelational => generateRelational
  | .enterIf => enterIf
  | .enterWhile => enterWhile
  | .leaveHeader => leaveHeader
  | .enterElse => enterElse
  | .endIf => endIf
  | .endWhile => endWhile
  | .beginFunction name returns => beginFunction name returns
  | .addParameter name type => addParameter name type
  | .endFunction => endFunction
  | .markMain => markMain
  | .giveBack => giveBack
  | .beginCall name => beginCall name
  | .argument => argument
  | .endCall => do let _ ← endCall
  | .discardResult => discardResult
  | .finish => finish

/-- The emitter after an operation, whether it fails or not. -/
def after (e : Emitter) (command : Command) : Emitter :=
  match (perform command).run e with
  | .ok _ e => e
  | .error _ e => e

end DuckLang.Emitter
