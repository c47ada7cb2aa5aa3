/-! Consoles.  A program reads lines from a console and writes lines to it; both may fail, with a
text that says why. -/

namespace DuckLang

/-- What a console can do.  A failed operation may still change it. -/
class Console (κ : Type) where
  readLine : κ → Except String String × κ
  writeLine : String → κ → Except String Unit × κ

namespace Console

/-- A console that replays lines and records what is written. -/
structure Scripted where
  inputs : List String := []
  output : Array String := #[]

instance : Console Scripted where
  readLine c :=
    match c.inputs with
    | [] => (.error "no more input", c)
    | line :: inputs => (.ok line, { c with inputs })
  writeLine line c := (.ok (), { c with output := c.output.push line })

/-- A console over a text to read and a text that grows with each line written. -/
structure Stream where
  input : List Char := []
  output : String := ""

namespace Stream

/-- A text up to its first newline, that included, and the rest. -/
def splitLine : List Char → List Char × List Char
  | [] => ([], [])
  | c :: cs =>
    if c = '\n' then ([c], cs)
    else
      let (line, rest) := splitLine cs
      (c :: line, rest)

/-- A line without the line breaks at its end. -/
def dropBreaks (line : List Char) : List Char :=
  (line.reverse.dropWhile fun c => c = '\r' || c = '\n').reverse

/-- The console of a program: scripted lines, if there are any, take the place of the input. -/
def ofSettings (inputs : List String) (input : String) : Stream :=
  { input := if inputs.isEmpty then input.toList else ("\n".intercalate inputs).toList }

end Stream

instance : Console Stream where
  readLine c :=
    match c.input with
    | [] => (.error "EOF", c)
    | input =>
      let (line, rest) := Stream.splitLine input
      (.ok (String.ofList (Stream.dropBreaks line)), { c with input := rest })
  writeLine line c := (.ok (), { c with output := c.output ++ line ++ "\n" })

/-- A scripted console that takes a limited number of lines. -/
structure Limited where
  console : Scripted
  left : Nat

instance : Console Limited where
  readLine c :=
    let (result, console) := readLine c.console
    (result, { c with console })
  writeLine line c :=
    match c.left with
    | 0 => (.error "console closed", c)
    | left + 1 =>
      let (result, console) := writeLine line c.console
      (result, { console, left })

end Console

end DuckLang
