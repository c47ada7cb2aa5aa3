/-! White space.  A blank is a character with the White_Space property; words are the longest runs
of characters that are not blank. -/

namespace DuckLang.Text

/-- Whether a character has the White_Space property. -/
def isBlank (c : Char) : Bool :=
  let n := c.toNat
  (0x09 ≤ n && n ≤ 0x0D) || n == 0x20 || n == 0x85 || n == 0xA0 || n == 0x1680 ||
    (0x2000 ≤ n && n ≤ 0x200A) || n == 0x2028 || n == 0x2029 || n == 0x202F || n == 0x205F ||
    n == 0x3000

/-- A list of characters without the blanks at its front. -/
def dropBlanks (cs : List Char) : List Char :=
  cs.dropWhile isBlank

/-- A list of characters without the blanks at either end. -/
def trimChars (cs : List Char) : List Char :=
  (dropBlanks (dropBlanks cs).reverse).reverse

/-- A text without the blanks at either end. -/
def trim (s : String) : String :=
  String.ofList (trimChars s.toList)

/-- The words of a list of characters, the word being read held in reverse. -/
def wordsAfter : List Char → List Char → List (List Char)
  | [], [] => []
  | word, [] => [word.reverse]
  | word, c :: cs =>
    if isBlank c then
      match word with
      | [] => wordsAfter [] cs
      | _ => word.reverse :: wordsAfter [] cs
    else wordsAfter (c :: word) cs

/-- The longest runs of characters that are not blank, from left to right. -/
def words (cs : List Char) : List (List Char) :=
  wordsAfter [] cs

end DuckLang.Text
