import DuckLang.Decimal.Reader
import DuckLang.Emitter

/-! Attributes: what the parser keeps of a symbol on its stack.  A token leaves its text, an
expression a mark that says where its value is.  A text spelled like a mark is that mark. -/

namespace DuckLang

/-- What is kept of a symbol. -/
inductive Attribute where
  /-- The text of a token, or nothing. -/
  | lexeme (text : String)
  /-- A literal, which is on the operand stack. -/
  | constant
  /-- An expression, whose value is on the operand stack. -/
  | expression
  /-- A call whose value is on the operand stack. -/
  | call (function : String)
  /-- A call without a value. -/
  | voidCall (function : String)
  deriving DecidableEq

namespace Attribute

/-- The rest of a list of characters behind a given beginning. -/
def after? (beginning cs : List Char) : Option String :=
  if beginning.isPrefixOf cs then some (String.ofList (cs.drop beginning.length)) else none

/-- The attribute of a token with the given text. -/
def ofText (text : String) : Attribute :=
  if text = "#const" then .constant
  else if text = "#expr" then .expression
  else
    match after? "#call:".toList text.toList with
    | some function => .call function
    | none =>
      match after? "#void:".toList text.toList with
      | some function => .voidCall function
      | none => .lexeme text

/-- An attribute as text. -/
def text : Attribute → String
  | lexeme text => text
  | constant => "#const"
  | expression => "#expr"
  | call function => "#call:" ++ function
  | voidCall function => "#void:" ++ function

/-- The attribute of a symbol of which nothing is kept. -/
def nothing : Attribute := .lexeme ""

end Attribute

/-- The value of the lexeme of an int, float or char literal. -/
def literalValue (lexeme : String) : Except Cause Value :=
  if lexeme.startsWith "'" then
    match (Text.Quoted.unquote? lexeme).map Text.Utf8.pieces with
    | some [piece] => .ok (.ofChar piece.toChar)
    | _ => .error (.malformedChar lexeme)
  else if lexeme.toList.contains '.' then
    match Decimal.readFloat? lexeme with
    | some x => .ok (.float x)
    | none => .error (.malformedFloat lexeme)
  else
    match Decimal.readInt? lexeme with
    | some n => .ok (.int n)
    | none => .error (.integerRange lexeme)

end DuckLang
