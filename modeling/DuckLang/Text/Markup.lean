import DuckLang.Text.Split

/-! Style marks in a text for a terminal: tags, as in `<b>word</>`, and escape sequences that set a
colour.  Where no style is shown both are dropped and the rest of the text stays as it is. -/

namespace DuckLang.Text.Markup

/-- Whether a character may stand in the name of a tag. -/
def isTagPart (c : Char) : Bool :=
  c.isAlphanum || c = '_' || c = '=' || c = ',' || c = ';'

/-- The number of characters of the tag at the front of a text. -/
def tagSize? : List Char → Option Nat
  | '<' :: '/' :: rest => closed 2 rest
  | '<' :: rest => closed 1 rest
  | _ => none
where
  /-- The size of a tag of which `before` characters stand in front of its name. -/
  closed (before : Nat) (cs : List Char) : Option Nat :=
    let name := cs.takeWhile isTagPart
    if (cs.drop name.length).head? = some '>' then some (before + name.length + 1) else none

/-- Whether a character may stand in a colour code. -/
def isCodePart (c : Char) : Bool :=
  c.isDigit || c = ';' || c = '?'

/-- The number of characters of the colour sequence at the front of a text. -/
def colourSize? : List Char → Option Nat
  | '\x1b' :: '[' :: rest =>
    let code := rest.takeWhile isCodePart
    if !code.isEmpty && (rest.drop code.length).head? = some 'm' then some (code.length + 3)
    else none
  | _ => none

/-- A text without the marks that `size?` finds in it, from left to right; its first `skip`
characters belong to a mark already found. -/
def dropMarks (size? : List Char → Option Nat) : Nat → List Char → List Char
  | _, [] => []
  | skip + 1, _ :: cs => dropMarks size? skip cs
  | 0, c :: cs =>
    match size? (c :: cs) with
    | some size => dropMarks size? (size - 1) cs
    | none => c :: dropMarks size? 0 cs

/-- A text without its tags.  One that closes no tag has none. -/
def dropTags (cs : List Char) : List Char :=
  if (splitAt? ['<', '/', '>'] cs).isSome then dropMarks tagSize? 0 cs else cs

/-- A text without its colour sequences. -/
def dropColours (cs : List Char) : List Char :=
  dropMarks colourSize? 0 cs

/-- A text without its tags, dropped a number of times: what stood around a tag can be a tag once
that is gone. -/
def dropTagsTimes : Nat → List Char → List Char
  | 0, cs => cs
  | times + 1, cs => dropTagsTimes times (dropTags cs)

/-- A text without marks: tags are dropped `before` times, then colour sequences, then tags `after`
times. -/
def plain (before after : Nat) (s : String) : String :=
  String.ofList (dropTagsTimes after (dropColours (dropTagsTimes before s.toList)))

end DuckLang.Text.Markup
