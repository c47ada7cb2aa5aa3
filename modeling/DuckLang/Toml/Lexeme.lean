import DuckLang.Identifier
import DuckLang.Text.Layout
import DuckLang.Text.Split
import DuckLang.Text.Utf8

/-! Lexemes of TOML text.  Where a line starts or a table between braces goes on, keys are read;
behind an equals sign and inside an array values are read until a line ends outside of any array. -/

namespace DuckLang.Toml

/-- A lexeme. -/
inductive Lexeme where
  | key (text : String)
  | equals
  | comma
  | leftBracket
  | rightBracket
  | leftBrace
  | rightBrace
  /-- A header in brackets. -/
  | header (text : String)
  /-- A header in double brackets. -/
  | arrayHeader (text : String)
  | text (s : String)
  | boolean (b : Bool)
  | integer (digits : String)
  | float (digits : String)
  /-- An infinity or the value that is no number. -/
  | special (negative infinite : Bool)
  | date
  /-- A time of day. -/
  | time
  /-- How far a time is from universal time. -/
  | offset
  deriving DecidableEq

namespace Lexeme

/-- A lexeme, or what is read of one, and the text behind it. -/
abbrev Read (α : Type) := Option (α × List Char)

/-- Whether a character is a blank within a line. -/
def isGap (c : Char) : Bool :=
  c = ' ' || c = '\t'

/-- Whether a character may stand in a key without quotes. -/
def isBare (c : Char) : Bool :=
  Identifier.isPart c || c = '-'

/-- The character with a number, or the replacement character if there is none. -/
def charOf (n : Nat) : Char :=
  if n.isValidChar then Char.ofNat n else Text.Utf8.replacement

/-- The character that `count` digits of base sixteen denote. -/
def escapedChar (count : Nat) (cs : List Char) : Read Char :=
  match (cs.take count).mapM Text.hexDigit? with
  | some digits =>
    if digits.length = count then
      some (charOf (digits.foldl (fun n d => 16 * n + d) 0), cs.drop count)
    else none
  | none => none

/-- Whether a character may not stand as it is in a text. -/
def isRefused (breaks : Bool) (c : Char) : Bool :=
  c.toNat < 0x20 && c ≠ '\t' && !(breaks && (c = '\n' || c = '\r'))

/-- The character a backslash and one more character denote. -/
def simpleEscape? : Char → Option Char
  | '"' => some '"'
  | 'n' => some '\n'
  | 'b' => some '\x08'
  | 'f' => some '\x0c'
  | '/' => some '/'
  | 't' => some '\t'
  | 'r' => some '\r'
  | '\\' => some '\\'
  | _ => none

/-- Whether a character is a blank that a backslash joins lines across. -/
def isJoined (c : Char) : Bool :=
  isGap c || c = '\n' || c = '\r'

/-- A text with escapes up to its closing mark, in at most `fuel` steps. -/
def basicText (closing : List Char) (breaks : Bool) : Nat → List Char → Read (List Char)
  | 0, _ => none
  | fuel + 1, cs =>
    if closing.isPrefixOf cs then some ([], cs.drop closing.length)
    else
      match cs with
      | [] => none
      | '\\' :: rest =>
        match rest with
        | [] => none
        | e :: after =>
          if isJoined e then basicText closing breaks fuel (after.dropWhile isJoined)
          else
            let escaped : Read Char :=
              if e = 'u' then escapedChar 4 after
              else if e = 'U' then escapedChar 8 after
              else (simpleEscape? e).map fun c => (c, after)
            match escaped with
            | none => none
            | some (c, after) =>
              (basicText closing breaks fuel after).map fun (s, rest) => (c :: s, rest)
      | c :: rest =>
        if isRefused breaks c then none
        else (basicText closing breaks fuel rest).map fun (s, rest) => (c :: s, rest)

/-- A text without the line break it may start with. -/
def dropBreak : List Char → List Char
  | '\r' :: '\n' :: rest => rest
  | '\n' :: rest => rest
  | cs => cs

/-- A text with escapes, behind its first quote. -/
def quotedText (cs : List Char) : Read (List Char) :=
  match cs with
  | '"' :: '"' :: rest => basicText ['"', '"', '"'] true (rest.length + 1) (dropBreak rest)
  | _ => basicText ['"'] false (cs.length + 1) cs

/-- A text without escapes, behind its first quote. -/
def literalText (cs : List Char) : Read (List Char) :=
  match cs with
  | '\'' :: '\'' :: rest => Text.splitAt? ['\'', '\'', '\''] (dropBreak rest)
  | _ => Text.splitAt? ['\''] cs

/-- The text of a key, in at most `fuel` steps.  Quoted parts keep their quotes, and blanks may
stand before a point and behind it. -/
def keyText : Nat → List Char → Read (List Char)
  | 0, _ => none
  | fuel + 1, cs =>
    match cs with
    | [] => some ([], [])
    | '=' :: _ => some ([], cs)
    | '"' :: rest =>
      match basicText ['"'] true (rest.length + 1) rest with
      | none => none
      | some (s, rest) =>
        (keyText fuel rest).map fun (more, rest) => ('"' :: s ++ '"' :: more, rest)
    | '\'' :: rest =>
      match Text.splitAt? ['\''] rest with
      | none => none
      | some (s, rest) =>
        (keyText fuel rest).map fun (more, rest) => ('\'' :: s ++ '\'' :: more, rest)
    | c :: rest =>
      if isGap c then
        match rest.dropWhile isGap with
        | '.' :: after =>
          (keyText fuel (after.dropWhile isGap)).map fun (more, tail) =>
            (' ' :: rest.takeWhile isGap ++ '.' :: after.takeWhile isGap ++ more, tail)
        | after => some ([], after)
      else if c = '.' || isBare c then
        (keyText fuel rest).map fun (more, rest) => (c :: more, rest)
      else none

/-- What is seen of a decimal number while it is read. -/
structure Seen where
  point : Bool := false
  exponent : Bool := false
  digit : Bool := false

/-- Characters in front of what is read of a decimal number. -/
def withFront (front : List Char) (read : Read (List Char × Bool)) : Read (List Char × Bool) :=
  read.map fun ((s, isFloat), rest) => ((front ++ s, isFloat), rest)

/-- The characters of a decimal number, and whether it is a float. -/
def decimal (seen : Seen) : List Char → Read (List Char × Bool)
  | [] => if seen.digit then some (([], seen.point || seen.exponent), []) else none
  | c :: rest =>
    if c = '.' then
      if seen.point || !seen.digit || !rest.head?.any Identifier.isDigit then none
      else withFront [c] (decimal { seen with point := true } rest)
    else if c = 'e' || c = 'E' then
      match rest with
      | '+' :: rest => withFront [c, '+'] (decimal { seen with exponent := true } rest)
      | '-' :: rest => withFront [c, '-'] (decimal { seen with exponent := true } rest)
      | rest => withFront [c] (decimal { seen with exponent := true } rest)
    else if c = '_' then withFront [c] (decimal seen rest)
    else if Identifier.isDigit c then withFront [c] (decimal { seen with digit := true } rest)
    else if seen.digit then some (([], seen.point || seen.exponent), c :: rest)
    else none

/-- Whether a character is a digit of the base that a letter names, or an underscore. -/
def isBaseDigit? (base : Char) : Option (Char → Bool) :=
  match base with
  | 'x' => some fun c => (Text.hexDigit? c).isSome || c = '_'
  | 'o' => some fun c => ('0' ≤ c && c ≤ '7') || c = '_'
  | 'b' => some fun c => c = '0' || c = '1' || c = '_'
  | _ => none

/-- An infinity or the value that is no number. -/
def special? (negative : Bool) : List Char → Read Lexeme
  | 'i' :: 'n' :: 'f' :: rest => some (.special negative true, rest)
  | 'n' :: 'a' :: 'n' :: rest => some (.special negative false, rest)
  | _ => none

/-- A number in base ten behind its sign. -/
def unsigned (sign : List Char) (cs : List Char) : Read Lexeme :=
  (decimal {} cs).map fun ((s, isFloat), rest) =>
    let digits := String.ofList (sign ++ s)
    (if isFloat then .float digits else .integer digits, rest)

/-- A number. -/
def number (cs : List Char) : Read Lexeme :=
  match cs with
  | '0' :: base :: rest =>
    match isBaseDigit? base with
    | some isDigit =>
      let digits := rest.takeWhile isDigit
      if digits.isEmpty then none
      else some (.integer (String.ofList ('0' :: base :: digits)), rest.dropWhile isDigit)
    | none => if Identifier.isLetter base then none else unsigned [] cs
  | sign :: rest =>
    if sign = '+' || sign = '-' then
      match special? (sign = '-') rest with
      | some read => some read
      | none => unsigned [sign] rest
    else unsigned [] cs
  | [] => none

/-- The number two digits write. -/
def twoDigits : List Char → Read Nat
  | a :: b :: rest =>
    if Identifier.isDigit a && Identifier.isDigit b then
      some (10 * (a.toNat - '0'.toNat) + (b.toNat - '0'.toNat), rest)
    else none
  | _ => none

/-- A mark that has to stand here. -/
def expect (mark : Char) : List Char → Read Unit
  | c :: rest => if c = mark then some ((), rest) else none
  | [] => none

/-- The number of days of a month. -/
def daysIn (year month : Nat) : Nat :=
  if month = 2 then
    if year % 4 = 0 ∧ (year % 100 ≠ 0 ∨ year % 400 = 0) then 29 else 28
  else if [4, 6, 9, 11].contains month then 30
  else 31

/-- What stands behind a date. -/
def afterDate (cs : List Char) : Option (List Char) := do
  let (century, cs) ← twoDigits cs
  let (year, cs) ← twoDigits cs
  let (_, cs) ← expect '-' cs
  let (month, cs) ← twoDigits cs
  let (_, cs) ← expect '-' cs
  let (day, cs) ← twoDigits cs
  if 1 ≤ month ∧ month ≤ 12 ∧ 1 ≤ day ∧ day ≤ daysIn (100 * century + year) month then some cs
  else none

/-- What stands behind a time of day. -/
def afterTime (cs : List Char) : Option (List Char) := do
  let (hour, cs) ← twoDigits cs
  let (_, cs) ← expect ':' cs
  let (minute, cs) ← twoDigits cs
  let (_, cs) ← expect ':' cs
  let (second, cs) ← twoDigits cs
  if 24 ≤ hour ∨ 60 ≤ minute ∨ 60 ≤ second then none
  else
    match cs with
    | '.' :: rest =>
      if rest.head?.any Identifier.isDigit then some (rest.dropWhile Identifier.isDigit) else none
    | _ => some cs

/-- The offset behind a time, if it has one. -/
def offset? : List Char → Option (List Lexeme × List Char)
  | 'Z' :: rest => some ([.offset], rest)
  | c :: rest =>
    if c = '+' || c = '-' then do
      let (hour, cs) ← twoDigits rest
      let (_, cs) ← expect ':' cs
      let (minute, cs) ← twoDigits cs
      if 24 < hour ∨ 60 < minute then none else some ([.offset], cs)
    else some ([], c :: rest)
  | [] => some ([], [])

/-- A time and the offset behind it, if it has one. -/
def timeAndOffset (cs : List Char) : Option (List Lexeme × List Char) := do
  let (lexemes, rest) ← offset? (← afterTime cs)
  some (.time :: lexemes, rest)

/-- A date and the time joined to it, by a `T` or by a single space.  Without a time only a space or
the end of the text may stand behind a date. -/
def dateAndTime (cs : List Char) : Option (List Lexeme × List Char) := do
  let rest ← afterDate cs
  let (lexemes, rest) ← match rest with
    | 'T' :: after => timeAndOffset after
    | ' ' :: after => if (twoDigits after).isSome then timeAndOffset after else some ([], rest)
    | [] => some ([], [])
    | _ => none
  some (.date :: lexemes, rest)

/-- A date, a time or a number, told apart by where its digits first stop. -/
def numberOrMoment (cs : List Char) : Read (List Lexeme) :=
  let digits := (cs.take 5).takeWhile Identifier.isDigit
  match digits.length, cs.drop digits.length with
  | 2, ':' :: _ => (afterTime cs).map fun rest => ([.time], rest)
  | 4, '-' :: _ => dateAndTime cs
  | _, _ => (number cs).map fun (lexeme, rest) => ([lexeme], rest)

/-- A bracket or brace that is open among values. -/
inductive Bracket where
  | square
  | brace
  deriving DecidableEq

/-- What is read next. -/
inductive Mode where
  | keys
  | values
  deriving DecidableEq

/-- How the reading stands: what is read next and what is open, innermost first. -/
structure Context where
  mode : Mode := .keys
  opened : List Bracket := []

/-- The text behind a comment. -/
def dropComment : List Char → List Char
  | [] => []
  | '\r' :: '\n' :: rest => '\r' :: '\n' :: rest
  | c :: rest => if c = '\n' then c :: rest else dropComment rest

/-- A header, behind its first bracket. -/
def readHeader (cs : List Char) : Read Lexeme :=
  match cs with
  | '[' :: rest =>
    let name := rest.takeWhile fun c => c ≠ ']' && c ≠ '['
    match rest.drop name.length with
    | ']' :: ']' :: after =>
      if name.isEmpty then none else some (.arrayHeader (String.ofList name), after)
    | _ => none
  | _ =>
    let name := cs.takeWhile fun c => c ≠ ']' && c ≠ '['
    match cs.drop name.length with
    | ']' :: after => if name.isEmpty then none else some (.header (String.ofList name), after)
    | _ => none

/-- One step of reading: the lexemes read, how the reading stands then, and the rest. -/
abbrev Step := Option (List Lexeme × Context × List Char)

/-- A step that reads a lexeme and leaves the context as it is. -/
def keep (x : Context) (read : Read Lexeme) : Step :=
  read.map fun (lexeme, rest) => ([lexeme], x, rest)

/-- A step that reads a closing mark. -/
def close (mark : Bracket) (lexeme : Lexeme) (x : Context) (rest : List Char) : Step :=
  match x.opened with
  | top :: opened =>
    if top = mark then some ([lexeme], { mode := .values, opened }, rest) else none
  | [] => none

/-- A step where keys are read. -/
def stepKeys (x : Context) (c : Char) (rest : List Char) : Step :=
  match c with
  | '}' => close .brace .rightBrace x rest
  | '[' => keep x (readHeader rest)
  | '#' => some ([], x, dropComment rest)
  | '=' => some ([.equals], { x with mode := .values }, rest)
  | '\r' | '\n' | ' ' | '\t' => some ([], x, rest)
  | _ =>
    (keyText (rest.length + 2) (c :: rest)).map fun (name, rest) =>
      ([.key (String.ofList name)], x, rest)

/-- What is read behind the end of a line: values inside an array, else keys. -/
def modeOfLine (x : Context) : Mode :=
  if x.opened.head? = some .square then .values else .keys

/-- What is read behind a comma: keys inside braces, else values. -/
def modeOfComma (x : Context) : Mode :=
  if x.opened.head? = some .brace then .keys else .values

/-- A step where values are read. -/
def stepValues (x : Context) (c : Char) (rest : List Char) : Step :=
  match c with
  | '=' => some ([.equals], x, rest)
  | '[' => some ([.leftBracket], { x with opened := .square :: x.opened }, rest)
  | ']' => close .square .rightBracket x rest
  | '{' => some ([.leftBrace], { mode := .keys, opened := .brace :: x.opened }, rest)
  | '}' => close .brace .rightBrace x rest
  | '#' => some ([], x, dropComment rest)
  | '"' => keep x ((quotedText rest).map fun (s, rest) => (.text (String.ofList s), rest))
  | '\'' => keep x ((literalText rest).map fun (s, rest) => (.text (String.ofList s), rest))
  | ',' => some ([.comma], { x with mode := modeOfComma x }, rest)
  | '\r' | '\n' => some ([], { x with mode := modeOfLine x }, rest)
  | ' ' | '\t' => some ([], x, rest)
  | '+' | '-' => keep x (number (c :: rest))
  | _ =>
    if "true".toList.isPrefixOf (c :: rest) then
      some ([.boolean true], x, rest.drop 3)
    else if "false".toList.isPrefixOf (c :: rest) then
      some ([.boolean false], x, rest.drop 4)
    else if Identifier.isDigit c then
      (numberOrMoment (c :: rest)).map fun (lexemes, rest) => (lexemes, x, rest)
    else keep x (special? false (c :: rest))

/-- The lexemes of a text, in at most `fuel` steps. -/
def readAll : Nat → Context → List Char → Option (List Lexeme)
  | _, _, [] => some []
  | 0, _, _ => none
  | fuel + 1, x, c :: rest =>
    let step := match x.mode with
      | .keys => stepKeys x c rest
      | .values => stepValues x c rest
    match step with
    | none => none
    | some (lexemes, x, rest) => (readAll fuel x rest).map (lexemes ++ ·)

/-- The lexemes of a text; a byte order mark at its start is passed over.  Every step consumes a
character, so that as many steps as there are characters suffice. -/
def lex? (text : String) : Option (List Lexeme) :=
  let cs := match text.toList with
    | '\uFEFF' :: rest => rest
    | cs => cs
  readAll cs.length {} cs

end Lexeme

end DuckLang.Toml
