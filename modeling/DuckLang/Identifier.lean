/-! Identifiers: an ASCII letter or underscore followed by letters, digits and underscores. -/

namespace DuckLang.Identifier

/-- Whether a character is an ASCII letter. -/
def isLetter (c : Char) : Bool :=
  ('a' ≤ c && c ≤ 'z') || ('A' ≤ c && c ≤ 'Z')

/-- Whether a character is an ASCII digit. -/
def isDigit (c : Char) : Bool :=
  '0' ≤ c && c ≤ '9'

/-- Whether a character may start an identifier. -/
def isStart (c : Char) : Bool :=
  isLetter c || c = '_'

/-- Whether a character may continue an identifier. -/
def isPart (c : Char) : Bool :=
  isStart c || isDigit c

/-- Whether a text is an identifier. -/
def isValid (s : String) : Bool :=
  match s.toList with
  | [] => false
  | c :: cs => isStart c && cs.all isPart

end DuckLang.Identifier
