/-! Texts cut at a mark. -/

namespace DuckLang.Text

/-- What stands before and after the first place where a mark occurs. -/
def splitAt? (mark : List Char) : List Char → Option (List Char × List Char)
  | [] => none
  | c :: cs =>
    if mark.isPrefixOf (c :: cs) then some ([], (c :: cs).drop mark.length)
    else (splitAt? mark cs).map fun (before, after) => (c :: before, after)

/-- The pieces between the places where a mark occurs; there is one more of them than of the
marks. -/
def pieces (mark : Char) : List Char → List (List Char)
  | [] => [[]]
  | c :: cs =>
    if c = mark then [] :: pieces mark cs
    else
      match pieces mark cs with
      | [] => [[c]]
      | first :: rest => (c :: first) :: rest

end DuckLang.Text
