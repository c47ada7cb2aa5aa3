import DuckLang.DataType

/-! The semantic cube: which operators apply to which pairs of types, and the type of the result.
Arithmetic and comparison take numbers, comparison also two characters; an int may be stored where a
float is expected and nothing else is converted. -/

namespace DuckLang.Cube

/-- Whether a type is one that arithmetic works on. -/
def isNumeric : DataType → Bool
  | .int | .float => true
  | _ => false

/-- The type of an operator applied to operands of two types; none if it does not apply. -/
def result? (left : DataType) (op : Operator) (right : DataType) : Option DataType :=
  match op with
  | .arith _ =>
    if isNumeric left && isNumeric right then
      some (if left = .int ∧ right = .int then .int else .float)
    else none
  | .rel _ =>
    if (isNumeric left && isNumeric right) || (left = .char ∧ right = .char) then some .int
    else none
  | .assign =>
    if left = right ∧ left.isStorable then some left
    else if left = .float ∧ right = .int then some .float
    else none

/-- Whether a value of one type may be stored where another is expected. -/
def canAssign (destination source : DataType) : Bool :=
  (result? destination .assign source).isSome

end DuckLang.Cube
