import DuckLang.Diagnostic
import DuckLang.Text.Blank
import DuckLang.Text.Layout
import DuckLang.Text.Lines
import DuckLang.Text.Markup
import DuckLang.Text.Path

/-! The log of a build.  Errors are shown as they come; warnings are held back until the closing
summary, which counts both.  How much is shown depends on the level.  Style marks in labels, lines
and cells are not shown. -/

namespace DuckLang

/-- The version of the language and its tools. -/
def version : String := "0.1.0"

namespace Log

/-- How much is shown. -/
inductive Level where
  | silent
  | error
  | warning
  | verbose
  deriving DecidableEq

/-- The number of a level. -/
def Level.code : Level → Nat
  | silent => 0
  | error => 1
  | warning => 2
  | verbose => 3

/-- The level with a name or a number; anything else is verbose. -/
def Level.ofName (name : String) : Level :=
  if name = "silent" ∨ name = "0" then silent
  else if name = "error" ∨ name = "1" then error
  else if name = "warn" ∨ name = "warning" ∨ name = "2" then warning
  else verbose

/-- How bad a message is. -/
inductive Severity where
  | error
  | warning
  deriving DecidableEq

/-- The word for a severity. -/
def Severity.word : Severity → String
  | error => "Error"
  | warning => "Warning"

/-- A line of a source file, blanks at its ends dropped. -/
structure Excerpt where
  line : Nat
  text : String
  deriving DecidableEq

/-- Something to be logged. -/
inductive Message where
  /-- About source text, from the file at `path` if it was read from one.  A kind that is not known
  has no title. -/
  | compile (severity : Severity) (kind : Option Kind) (text : String) (path : Option String)
      (excerpt : Option Excerpt)
  /-- About a project or its files. -/
  | config (severity : Severity) (subject text : String)
  /-- A program that was stopped. -/
  | fault (text : String)
  deriving DecidableEq

/-- What happens in a build. -/
inductive Event where
  | message (m : Message)
  /-- The compilation of a target begins, with a cached parsing table or with a new one. -/
  | begun (target : String) (cached : Bool)
  deriving DecidableEq

/-- A character repeated. -/
def rule (c : Char) (count : Nat) : String :=
  String.ofList (List.replicate count c)

/-- The numbered line of a source text, tabs as four spaces, unless it is blank or missing. -/
def Excerpt.ofSource? (source : String) (line : Nat) : Option Excerpt :=
  match line with
  | 0 => none
  | index + 1 =>
    match (Text.lines source)[index]? with
    | none => none
    | some s =>
      let spaced := s.toList.flatMap fun c => if c = '\t' then [' ', ' ', ' ', ' '] else [c]
      let text := Text.trim (String.ofList spaced)
      if text = "" then none else some { line, text }

/-- An excerpt, with its number in front and underlined.  The underline is as long as the line has
bytes. -/
def Excerpt.render (e : Excerpt) : String :=
  let number := toString e.line
  let width := number.length + 1
  "\n" ++ Text.padRight width number ++ "|  " ++ e.text ++ "\n"
    ++ rule ' ' width ++ "|  " ++ rule '^' (Text.Utf8.size e.text) ++ "\n\n"

/-- The width of the terminal. -/
def terminalWidth : Nat := 80

/-- The width that a banner fills. -/
def bannerWidth : Nat := min 50 (terminalWidth / 2)

/-- A label as it is shown. -/
def label (s : String) : String :=
  Text.Markup.plain 1 4 s

/-- A line as it is shown. -/
def line (s : String) : String :=
  Text.Markup.plain 2 4 s

/-- A cell of a table as it is shown. -/
def cell (s : String) : String :=
  Text.Markup.plain 1 0 s

/-- The banner above a message about source text: its title, dashes, at least two, and the name of
the file. -/
def banner (title file : String) : String :=
  let used := Text.Utf8.size file + Text.Utf8.size title + 2
  s!"\n\n-- {title} " ++ rule '-' (max 2 (bannerWidth - used)) ++ s!" {line file}\n"

/-- A tag and a text on a line. -/
def tagged (tag text : String) : String :=
  s!"{label tag} {line text}\n"

namespace Message

/-- How bad a message is. -/
def severity : Message → Severity
  | compile severity _ _ _ _ => severity
  | config severity _ _ => severity
  | fault _ => .error

/-- A message as it is shown. -/
def render : Message → String
  | compile severity kind text path excerpt =>
    let title := (kind.elim "" Kind.title) ++ " " ++ severity.word
    banner title (path.elim "<source>" Text.Path.base) ++ text ++ "\n"
      ++ excerpt.elim "" Excerpt.render
  | config severity subject text => tagged (subject ++ " " ++ severity.word) text
  | fault text => "\n\n" ++ tagged "Runtime Error" text

/-- An error about a project or its files. -/
def configError (subject text : String) : Message :=
  .config .error subject text

/-- A warning about a project or its files. -/
def configWarning (subject text : String) : Message :=
  .config .warning subject text

/-- The error for a diagnostic of a source text read from a file. -/
def ofDiagnostic (path source : String) (d : Diagnostic) : Message :=
  .compile .error (some d.cause.kind) d.message (some path)
    (Excerpt.ofSource? source d.line.toNat)

end Message

end Log

/-- The state of a log. -/
structure Log where
  level : Log.Level
  /-- The number of errors so far. -/
  errors : Nat := 0
  /-- The warnings so far, in order. -/
  warnings : List Log.Message := []

namespace Log

/-- Whether no error was logged. -/
def isClean (log : Log) : Bool :=
  log.errors = 0

/-- Whether a log shows what is shown from a level on. -/
def shows (log : Log) (level : Level) : Bool :=
  level.code ≤ log.level.code

/-- Logs a message, with what that shows. -/
def add (log : Log) (m : Message) : Log × String :=
  match m.severity with
  | .error =>
    ({ log with errors := log.errors + 1 }, if log.shows .error then m.render else "")
  | .warning => ({ log with warnings := log.warnings ++ [m] }, "")

/-- What is shown when the compilation of a target begins. -/
def header (log : Log) (target : String) (cached : Bool) : String :=
  if log.shows .verbose then
    s!"duck v{version} -- target: {line target}\n"
      ++ if cached then "using cached parsing table\n" else ""
  else ""

/-- Logs an event, with what that shows. -/
def handle (log : Log) : Event → Log × String
  | .message m => log.add m
  | .begun target cached => (log, log.header target cached)

/-- Logs events one after the other, with what they show. -/
def handleAll (log : Log) : List Event → Log × String
  | [] => (log, "")
  | event :: events =>
    let (log, shown) := log.handle event
    let (log, more) := log.handleAll events
    (log, shown ++ more)

/-- A number of things. -/
def counted (n : Nat) (noun : String) : String :=
  if n = 1 then s!"{n} {noun}" else s!"{n} {noun}s"

/-- The closing summary: the warnings held back and the counts. -/
def summary (log : Log) : String :=
  let held := if log.shows .warning then String.join (log.warnings.map Message.render) else ""
  let verdict := if log.isClean then "All done!" else "Oh no!"
  let errors := counted log.errors "error"
  let warnings := counted log.warnings.length "warning"
  held ++ if log.shows .error then s!"\n{verdict} ({errors}, {warnings})\n" else ""

/-- The widest cell of each column. -/
def columnWidths : List (List String) → List Nat
  | [] => []
  | row :: rows => widen (row.map String.length) (columnWidths rows)
where
  /-- The larger width of each column of two. -/
  widen : List Nat → List Nat → List Nat
    | [], ns => ns
    | ms, [] => ms
    | m :: ms, n :: ns => max m n :: widen ms ns

/-- Rows of cells with every column padded to its widest cell. -/
def tabulate (rows : List (List String)) : String :=
  let widths := columnWidths rows
  String.join (rows.map fun row =>
    " | ".intercalate ((row.zip widths).map fun (cell, width) => Text.padRight width cell) ++ "\n")

/-- A table of quadruples under a title, each row with its number. -/
def quadTable (log : Log) (title : String) (rows : List (List String)) : String :=
  if log.shows .error then
    let numbered := rows.zipIdx.map fun (row, i) => toString i :: row.map cell
    s!"\n{line title}\n" ++ tabulate (["#", "op", "left", "right", "result"] :: numbered)
  else ""

end Log

end DuckLang
