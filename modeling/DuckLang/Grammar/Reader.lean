import DuckLang.Diagnostic
import DuckLang.Grammar
import DuckLang.Text.Blank
import DuckLang.Text.Lines
import DuckLang.Text.Split

/-! Grammar text.  Each line holds one production, `<Head> → symbols`; blank lines and lines that
start with `#` are passed over.  A word in angle brackets is a non-terminal, `ε` is nothing and any
other word is a terminal.  The first head is the start. -/

namespace DuckLang.Grammar

/-- The name in angle brackets, if a word is one. -/
def bracketed? (word : List Char) : Option String :=
  match word with
  | '<' :: rest =>
    if 1 < rest.length ∧ rest.getLast? = some '>' then some (String.ofList rest.dropLast) else none
  | _ => none

/-- What stands before and after the arrow of a line, which may also be written `->`. -/
def splitArrow? (line : List Char) : Option (List Char × List Char) :=
  match Text.splitAt? arrow.toList line with
  | some parts => some parts
  | none => Text.splitAt? "->".toList line

/-- The symbols a body writes. -/
def readBody : List (List Char) → Except Cause (List Symbol)
  | [] => .ok []
  | word :: words =>
    let name := String.ofList word
    if name = epsilon then readBody words
    else
      match bracketed? word with
      | some inner => (readBody words).map (.nonterminal inner :: ·)
      | none =>
        if name = Token.Kind.endMarker then .error (.reservedTerminal name)
        else (readBody words).map (.terminal name :: ·)

/-- Whether a trimmed line holds no production. -/
def isSilent (line : List Char) : Bool :=
  line.isEmpty || line.head? = some '#'

/-- The production a trimmed line writes. -/
def readProduction (line : List Char) : Except Cause Production :=
  match splitArrow? line with
  | none => .error .missingArrow
  | some (before, after) =>
    match bracketed? (Text.trimChars before) with
    | none => .error (.headNotNonterminal (String.ofList before))
    | some head => (readBody (Text.words after)).map fun body => { head, body }

/-- What was read of a text: the productions, and the non-terminals of their bodies, each with the
line of its first use. -/
structure Reading where
  collection : Collection := {}
  used : List (String × Nat) := []

/-- Notes the use of a non-terminal on a line, unless it was used before. -/
def noteUse (line : Nat) (used : List (String × Nat)) (name : String) : List (String × Nat) :=
  if (used.lookup name).isSome then used else used ++ [(name, line)]

/-- The reading with the production of a line more. -/
def Reading.add (r : Reading) (line : Nat) (p : Production) : Reading :=
  { collection := r.collection.add p
    used := (Symbol.nonterminals p.body).foldl (noteUse line) r.used }

/-- Reads lines, which are numbered from `number` on. -/
def readLines : Nat → Reading → List (List Char) → Except Diagnostic Reading
  | _, r, [] => .ok r
  | number, r, line :: lines =>
    let line := Text.trimChars line
    if isSilent line then readLines (number + 1) r lines
    else
      match readProduction line with
      | .error cause => .error { cause, line := number }
      | .ok p => readLines (number + 1) (r.add number p) lines

/-- The first non-terminal used that heads no production, with the line of its first use. -/
def Reading.undefined? (r : Reading) : Option (String × Nat) :=
  r.used.find? fun (name, _) => (r.collection.byHead.lookup name).isNone

/-- Reads a grammar. -/
def read (text : String) : Except Diagnostic Grammar :=
  match readLines 1 {} (Text.linesOf text.toList) with
  | .error d => .error d
  | .ok r =>
    match r.collection.given with
    | [] => .error { cause := .emptyGrammar }
    | first :: _ =>
      match r.undefined? with
      | some (name, line) => .error { cause := .undefinedNonterminal name, line }
      | none => .ok (r.collection.augment first.head)

end DuckLang.Grammar
