import DuckLang.Text.Utf8

/-! Lines of a text.  A line ends before a newline; a carriage return at its end is not part of it.
Reading stops at a line too long to be held, so that the lines after it are not seen. -/

namespace DuckLang.Text

/-- The number of bytes at which a line is too long to be held. -/
def lineLimit : Nat := 65536

/-- The stretches of a list of characters between newlines, the stretch being read held in reverse.
Nothing follows the last newline unless a character does. -/
def stretchesAfter : List Char → List Char → List (List Char)
  | [], [] => []
  | held, [] => [held.reverse]
  | held, c :: cs =>
    if c = '\n' then held.reverse :: stretchesAfter [] cs else stretchesAfter (c :: held) cs

/-- A stretch without one carriage return at its end. -/
def dropReturn (cs : List Char) : List Char :=
  match cs.getLast? with
  | some '\r' => cs.dropLast
  | _ => cs

/-- Whether a stretch is short enough to be held. -/
def fitsLine (cs : List Char) : Bool :=
  Utf8.size (String.ofList cs) < lineLimit

/-- The lines of a list of characters, up to the first that is too long. -/
def linesOf (cs : List Char) : List (List Char) :=
  ((stretchesAfter [] cs).takeWhile fitsLine).map dropReturn

/-- The lines of a text, up to the first that is too long. -/
def lines (s : String) : List String :=
  (linesOf s.toList).map String.ofList

end DuckLang.Text
