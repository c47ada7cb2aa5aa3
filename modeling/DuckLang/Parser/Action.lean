import DuckLang.Emitter.Command
import DuckLang.Parser.Attribute
import DuckLang.Token

/-! What the parser does besides parsing.  Some tokens have an effect when they are shifted, some
rules when they are reduced by; a rule is known by its head and the number of symbols of its body.
-/

namespace DuckLang.Parser

/-- The effect of a rule. -/
inductive Effect where
  | openProgram
  | closeProgram
  | setType
  | declareFirst
  | declareNext
  | beginFunction
  | addParameter
  | endFunction
  | giveBack
  | assign
  | endIf
  | endWhile
  | callStatement
  | printItem
  | readFirst
  | readNext
  | beginCall
  | argument
  | endCall
  | comparison
  | expression
  | operator
  | addition
  | multiplication
  | openParen
  | closeParen
  | negation
  | factor
  | constant
  deriving DecidableEq

/-- The rules that have an effect. -/
def Effect.rules : List ((String × Nat) × Effect) :=
  [(("ProgHeader", 3), openProgram), (("Program", 6), closeProgram), (("VarType", 1), setType),
   (("IdList", 1), declareFirst), (("IdList", 3), declareNext),
   (("FuncHeader", 3), beginFunction), (("Param", 2), addParameter), (("Func", 9), endFunction),
   (("Return", 5), giveBack), (("Assign", 4), assign), (("Condition", 7), endIf),
   (("Cycle", 6), endWhile), (("Stmt", 2), callStatement), (("PrintItem", 1), printItem),
   (("ReadList", 1), readFirst), (("ReadList", 3), readNext), (("CallHead", 1), beginCall),
   (("Arg", 1), argument), (("Call", 4), endCall), (("Expr", 3), comparison),
   (("Expr", 1), expression), (("RelOp", 1), operator), (("AddOp", 1), operator),
   (("MulOp", 1), operator), (("Exp", 3), addition), (("Term", 3), multiplication),
   (("LParen", 1), openParen), (("Factor", 3), closeParen), (("Factor", 2), negation),
   (("Factor", 1), factor), (("Constant", 1), constant)]

/-- The effect of the rule with a head and a number of symbols. -/
def Effect.of? (head : String) (size : Nat) : Option Effect :=
  rules.lookup (head, size)

/-- The type that an attribute names. -/
def typeOf (a : Attribute) : Emit DataType :=
  match DataType.ofKeyword? a.text with
  | some type => pure type
  | none => Emitter.fail (.unknownType a.text)

/-- Lets a rule have its effect on the attributes of its body, and gives that of its head. -/
def Effect.run : Effect → List Attribute → Emit Attribute
  | openProgram, [_, name, _] => do
    Emitter.changeScope (·.initProgram name.text)
    pure name
  | closeProgram, _ => do
    Emitter.finish
    pure .nothing
  | setType, [type] => do
    let t ← typeOf type
    Emitter.changeScope fun s => .ok () (s.setType t)
    pure type
  | declareFirst, [name] => do
    Emitter.declareVariable name.text
    pure .nothing
  | declareNext, [_, _, name] => do
    Emitter.declareVariable name.text
    pure .nothing
  | beginFunction, [_, returns, name] => do
    Emitter.beginFunction name.text (← typeOf returns)
    pure name
  | addParameter, [type, name] => do
    Emitter.addParameter name.text (← typeOf type)
    pure .nothing
  | endFunction, _ => do
    Emitter.endFunction
    pure .nothing
  | giveBack, _ => do
    Emitter.giveBack
    pure .nothing
  | assign, name :: _ => do
    Emitter.assign name.text
    pure .nothing
  | endIf, _ => do
    Emitter.endIf
    pure .nothing
  | endWhile, _ => do
    Emitter.endWhile
    pure .nothing
  | callStatement, .call _ :: _ => do
    Emitter.discardResult
    pure .nothing
  | printItem, [item] => do
    if item.text.startsWith "\"" then Emitter.pushString item.text
    Emitter.write
    pure .nothing
  | readFirst, [name] => do
    Emitter.read name.text
    pure .nothing
  | readNext, [_, _, name] => do
    Emitter.read name.text
    pure .nothing
  | beginCall, [name] => do
    Emitter.beginCall name.text
    pure name
  | argument, _ => do
    Emitter.argument
    pure .nothing
  | endCall, name :: _ => do
    if ← Emitter.endCall then pure (.call name.text) else pure (.voidCall name.text)
  | comparison, _ => do
    Emitter.generateRelational
    pure .expression
  | expression, _ => pure .expression
  | operator, [op] => do
    Emitter.pushOperator op.text
    pure op
  | addition, _ => do
    Emitter.generateAdditive
    pure .expression
  | multiplication, _ => do
    Emitter.generateMultiplicative
    pure .expression
  | openParen, _ => do
    Emitter.openParen
    pure .nothing
  | closeParen, _ => do
    Emitter.closeParen
    pure .expression
  | negation, _ => do
    Emitter.negateLiteral
    pure .constant
  | factor, [a] =>
    match a with
    | .constant | .call _ => pure a
    | .voidCall function => Emitter.fail (.voidValue function)
    | a => do
      Emitter.pushVariable a.text
      pure a
  | constant, [lexeme] => do
    Emitter.pushLiteral (← Emitter.lift (literalValue lexeme.text))
    pure .constant
  | _, _ => pure .nothing

/-- The effect of a reduction.  A rule without one passes its only attribute on. -/
def reduceEffect (head : String) (attributes : List Attribute) : Emit Attribute :=
  match Effect.of? head attributes.length with
  | some effect => effect.run attributes
  | none =>
    match attributes with
    | [a] => pure a
    | _ => pure .nothing

/-- The effect of shifting a token. -/
def shiftEffect : Token.Kind → Emit Unit
  | .ifWord => Emitter.enterIf
  | .whileWord => Emitter.enterWhile
  | .thenWord | .doWord => Emitter.leaveHeader
  | .elseWord => Emitter.enterElse
  | .mainWord => Emitter.markMain
  | _ => pure ()

end DuckLang.Parser
