import DuckLang.Log

/-! Command lines: a command with its argument, and options that may stand anywhere. -/

namespace DuckLang

/-- What is asked for. -/
inductive CommandLine.Command where
  /-- Compile a project and list its program in a file. -/
  | build (path : String)
  /-- Compile a project and run its program. -/
  | run (path : String)
  /-- Make the parsing table of a grammar, the grammar of the language if none is named. -/
  | table (grammar : Option String)
  /-- Compile a project and write its program as an LLVM module. -/
  | llvm (path : String)
  /-- Make a new project. -/
  | init (name : String)
  | version
  deriving DecidableEq

/-- The options of a command line. -/
structure CommandLine.Options where
  level : Log.Level := .warning
  /-- Whether the quadruples of a program are shown. -/
  quads : Bool := false
  /-- Whether the sets and states behind a parsing table are shown. -/
  details : Bool := false
  /-- Whether a grammar with conflicts is accepted. -/
  allowConflicts : Bool := false
  /-- The file to be written. -/
  output : Option String := none
  deriving DecidableEq

/-- A command line. -/
structure CommandLine where
  command : CommandLine.Command
  options : CommandLine.Options := {}
  deriving DecidableEq

namespace CommandLine

/-- The command that words write. -/
def Command.ofWords? : List String → Option Command
  | ["build", path] => some (.build path)
  | ["run", path] => some (.run path)
  | ["table"] => some (.table none)
  | ["table", grammar] => some (.table (some grammar))
  | ["llvm", path] => some (.llvm path)
  | ["init", name] => some (.init name)
  | ["version"] => some .version
  | _ => none

/-- The options among words, and the words that are none. -/
def splitOptions (options : Options) : List String → Options × List String
  | [] => (options, [])
  | "--loglevel" :: name :: rest =>
    splitOptions { options with level := .ofName name } rest
  | "--output" :: path :: rest => splitOptions { options with output := some path } rest
  | "--quads" :: rest => splitOptions { options with quads := true } rest
  | "--show" :: rest => splitOptions { options with details := true } rest
  | "--allow-conflicts" :: rest => splitOptions { options with allowConflicts := true } rest
  | word :: rest =>
    let (options, words) := splitOptions options rest
    (options, word :: words)

/-- Reads a command line. -/
def ofWords? (words : List String) : Option CommandLine :=
  let (options, words) := splitOptions {} words
  (Command.ofWords? words).map fun command => { command, options }

/-- What is shown when a command line cannot be read. -/
def usage : String :=
  "usage: duck [options] COMMAND\n"
    ++ "commands: build PATH, run PATH, table [GRAMMAR], llvm PATH, init NAME, version\n"
    ++ "options: --loglevel LEVEL --quads --show --allow-conflicts --output PATH\n"

end CommandLine

end DuckLang
