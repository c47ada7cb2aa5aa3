import DuckLang.Diagnostic
import DuckLang.Identifier
import DuckLang.Token

/-! The lexer.  `munch` takes the longest lexeme off a text that starts with neither white space
nor a comment.  A lexer that meets a malformed lexeme keeps its text, which then stands in front of
the next lexeme unless white space or a comment comes first. -/

namespace DuckLang

/-- What was taken off the front of a text: a lexeme of some kind, or malformed text. -/
structure Munch where
  kind : Option Token.Kind
  taken : List Char
  rest : List Char

namespace Munch

/-- The same with a character more at the front of what was taken. -/
def cons (c : Char) (m : Munch) : Munch :=
  { m with taken := c :: m.taken }

/-- The letters that may follow a backslash in any literal. -/
def escapeLetters : List Char := ['a', 'b', 'n', 'f', 'r', 't', 'v', '\\']

/-- Whether a character may follow a backslash between the given quotes. -/
def isEscape (quote c : Char) : Bool :=
  escapeLetters.contains c || c = quote

/-- The rest of a string literal after its opening quote.  It ends before a newline, malformed. -/
def stringBody : List Char → Munch
  | [] => { kind := none, taken := [], rest := [] }
  | '\\' :: [] => { kind := none, taken := ['\\'], rest := [] }
  | '\\' :: e :: cs =>
    if isEscape '"' e then (stringBody cs).cons e |>.cons '\\'
    else { kind := none, taken := ['\\', e], rest := cs }
  | c :: cs =>
    if c = '"' then { kind := some .stringLiteral, taken := [c], rest := cs }
    else if c = '\n' then { kind := none, taken := [], rest := c :: cs }
    else (stringBody cs).cons c

/-- The closing quote of a char literal. -/
def charEnd : List Char → Munch
  | '\'' :: cs => { kind := some .charLiteral, taken := ['\''], rest := cs }
  | cs => { kind := none, taken := [], rest := cs }

/-- The rest of a char literal after its opening quote: one character or escape and the quote. -/
def charBody : List Char → Munch
  | [] => { kind := none, taken := [], rest := [] }
  | '\\' :: [] => { kind := none, taken := ['\\'], rest := [] }
  | '\\' :: e :: cs =>
    if isEscape '\'' e then (charEnd cs).cons e |>.cons '\\'
    else { kind := none, taken := ['\\', e], rest := cs }
  | c :: cs =>
    if c = '\'' ∨ c = '\n' then { kind := none, taken := [c], rest := cs }
    else (charEnd cs).cons c

/-- The end of a number: a letter or underscore right behind it makes it malformed. -/
def numberEnd (kind : Token.Kind) (digits : List Char) : List Char → Munch
  | [] => { kind := some kind, taken := digits, rest := [] }
  | c :: cs =>
    if Identifier.isStart c then { kind := none, taken := digits ++ [c], rest := cs }
    else { kind := some kind, taken := digits, rest := c :: cs }

/-- A number: digits, or digits on both sides of a point. -/
def number (cs : List Char) : Munch :=
  let whole := cs.takeWhile Identifier.isDigit
  match cs.dropWhile Identifier.isDigit with
  | '.' :: after =>
    let fraction := after.takeWhile Identifier.isDigit
    if fraction.isEmpty then { kind := none, taken := whole ++ ['.'], rest := after }
    else
      numberEnd .floatLiteral (whole ++ '.' :: fraction) (after.dropWhile Identifier.isDigit)
  | rest => numberEnd .intLiteral whole rest

/-- A word: a keyword if the text kept from before and the word spell one, else an identifier. -/
def word (kept cs : List Char) : Munch :=
  let taken := cs.takeWhile Identifier.isPart
  let kind := (Token.Kind.keyword? (String.ofList (kept ++ taken))).getD .identifier
  { kind := some kind, taken, rest := cs.dropWhile Identifier.isPart }

/-- A symbol: the one of two characters if they spell one behind the text kept from before, else the
one of the first character alone.  A lone `!` is malformed. -/
def symbol (kept : List Char) (c : Char) (cs : List Char) : Munch :=
  let single : Munch := { kind := Token.Kind.symbol? c.toString, taken := [c], rest := cs }
  match cs with
  | [] => single
  | d :: rest =>
    if single.kind.isSome || c = '!' then
      match Token.Kind.symbol? (String.ofList (kept ++ [c, d])) with
      | some kind => { kind := some kind, taken := [c, d], rest }
      | none => single
    else single

end Munch

/-- The longest lexeme at the front of the text `c :: cs`, behind the text kept from before. -/
def munch (kept : List Char) (c : Char) (cs : List Char) : Munch :=
  if c = '"' then (Munch.stringBody cs).cons c
  else if c = '\'' then (Munch.charBody cs).cons c
  else if Identifier.isStart c then Munch.word kept (c :: cs)
  else if Identifier.isDigit c then Munch.number (c :: cs)
  else Munch.symbol kept c cs

/-- A lexer in the middle of a text. -/
structure Lexer where
  /-- The text not read yet. -/
  rest : List Char
  /-- The line of the character read last. -/
  line : Nat := 1
  /-- Whether the character read last was a newline. -/
  afterNewline : Bool := false
  /-- Malformed text that no white space followed. -/
  kept : List Char := []

namespace Lexer

/-- A lexer at the start of a text. -/
def ofString (source : String) : Lexer :=
  { rest := source.toList }

/-- White space: blank, tab, line and page breaks, and the byte order mark. -/
def isSpace (c : Char) : Bool :=
  c = ' ' || c = '\t' || c = '\r' || c = '\n' || c = '\x0c' || c = '\x0b' || c = '\uFEFF'

/-- The line of the next character. -/
def nextLine (l : Lexer) : Nat :=
  if l.afterNewline then l.line + 1 else l.line

/-- The lexer after `c` was read with nothing kept, `cs` being left. -/
def passOver (l : Lexer) (c : Char) (cs : List Char) : Lexer :=
  { rest := cs, line := l.nextLine, afterNewline := c = '\n', kept := [] }

/-- The lexer behind white space and comments, of which the text `cs` starts with the former or,
if `comment`, inside the latter. -/
def skipFrom (comment : Bool) (l : Lexer) : List Char → Lexer
  | [] => l
  | c :: cs =>
    if comment then skipFrom (c ≠ '\n') (l.passOver c cs) cs
    else if isSpace c then skipFrom false (l.passOver c cs) cs
    else if c = '/' ∧ cs.head? = some '/' then skipFrom true (l.passOver c cs) cs
    else l

/-- The lexer behind white space and comments. -/
def skip (l : Lexer) : Lexer :=
  skipFrom false l l.rest

/-- Reads a token.  At the end of the text every token is the end of the input. -/
def next (l : Lexer) : Except Diagnostic Token × Lexer :=
  let l := l.skip
  match l.rest with
  | [] => (.ok (.endOfInput l.line), l)
  | c :: cs =>
    let line := l.nextLine
    let m := munch l.kept c cs
    let text := l.kept ++ m.taken
    match m.kind with
    | some kind =>
      (.ok { kind, text := String.ofList text, line }, { rest := m.rest, line })
    | none =>
      (.error { cause := .malformedToken (String.ofList text), line },
        { rest := m.rest, line, afterNewline := m.taken.getLast? = some '\n', kept := text })

/-- The tokens up to the end of the input; each of them takes at least one of `fuel` characters. -/
def tokens : Nat → Lexer → Except Diagnostic (List Token)
  | 0, l => .ok [.endOfInput l.line]
  | fuel + 1, l =>
    match l.next with
    | (.error d, _) => .error d
    | (.ok t, l) =>
      if t.kind = .endOfInput then .ok [t]
      else
        match tokens fuel l with
        | .ok ts => .ok (t :: ts)
        | .error d => .error d

end Lexer

/-- The tokens of a source text, ended by that of the end of the input. -/
def tokenize (source : String) : Except Diagnostic (List Token) :=
  let l := Lexer.ofString source
  Lexer.tokens (l.rest.length + 1) l

end DuckLang
