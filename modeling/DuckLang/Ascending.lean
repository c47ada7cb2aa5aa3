/-! Ascending lists: sets whose elements stand in their order, each of them once. -/

namespace DuckLang

/-- An ascending list with an element put in its place; a list that has it stays as it is. -/
def Ascending.insert {α : Type} (r : α → α → Prop) [DecidableEq α] [DecidableRel r] (x : α) :
    List α → List α
  | [] => [x]
  | y :: ys =>
    if x = y then y :: ys else if r x y then x :: y :: ys else y :: Ascending.insert r x ys

end DuckLang
