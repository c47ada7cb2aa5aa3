import DuckLang.Build
import DuckLang.CommandLine
import DuckLang.Llvm.Lowering
import DuckLang.Llvm.Printer
import DuckLang.Project.Starter

/-! The command line tool.  It reads the files that a build needs into a tree, hands that to the
library and shows what comes back. -/

namespace DuckLang.Tool

/-- The number of parser actions a compilation may take. -/
def fuel : Nat := 1000000000000000

/-- A path as seen from the working directory. -/
def absolute (path : String) : IO String := do
  return Project.resolve (← IO.currentDir).toString path

/-- A tree of files with the text of those files that can be read. -/
def gather (files : FileTree) : List String → IO FileTree
  | [] => return files
  | path :: paths => do
    let text ← try some <$> IO.FS.readFile path catch _ => pure none
    let grown := text.bind fun text => (files.writeBelow path (.text text)).toOption
    gather (grown.getD files) paths

/-- The files that say what project a path stands for. -/
def manifestFiles (path : String) : IO FileTree :=
  let beside := Text.Path.join [Text.Path.dir path, Project.manifestName]
  gather {} [path, Text.Path.join [path, Project.manifestName], beside]

/-- The files that a build for a path reads. -/
def buildFiles (path : String) : IO FileTree := do
  let files ← manifestFiles path
  match Project.find files path with
  | .ok p => gather files (p.entry :: p.grammar.toList)
  | .error _ => return files

/-- Writes a file and makes the directories above it. -/
def writeFile (path text : String) : IO Unit := do
  IO.FS.createDirAll (Text.Path.dir path)
  IO.FS.writeFile path text

/-- Finds and compiles the project for a path. -/
def compileProject (path : String) : Build (Project × Program) := do
  let p ← Build.locate path
  return (p, ← Build.compileEntry fuel { p with tableCache := none })

/-- Compiles the project for a path and shows the log. -/
def compiled (options : CommandLine.Options) (path : String) :
    IO (Option (Project × Program)) := do
  let path ← absolute path
  let log : Log := { level := options.level }
  let (built, events) := match EStateM.run (compileProject path) { files := ← buildFiles path } with
    | .ok built w => (Except.ok built, w.events)
    | .error f w => (Except.error f, w.events)
  let (log, shown) := log.handleAll events
  IO.print shown
  match built with
  | .ok (p, program) =>
    if options.quads then IO.print (log.quadTable program.name program.rows)
    IO.print log.summary
    return some (p, program)
  | .error f =>
    let (log, shown) :=
      if log.isClean then
        log.add (.configError "Project" s!"error loading project: {f.message}")
      else (log, "")
    IO.print shown
    IO.print log.summary
    return none

/-- Gives a console a line of the input if it has nothing left to read. -/
def feed (console : Console.Stream) : IO Console.Stream := do
  if console.input.isEmpty then
    return { console with input := (← (← IO.getStdin).getLine).toList }
  else return console

/-- Runs a machine to its end, printing what it writes.  Input is read when the program asks for it,
unless lines are given. -/
partial def drive (p : Program) (limit : Int) (interactive : Bool) (m : Machine Console.Stream) :
    IO UInt32 := do
  let asks := (Machine.quad? p m.index).any fun q => q.op matches .read
  let console ← if interactive && asks then feed m.console else pure m.console
  match Machine.step p limit { m with console } with
  | .next m =>
    IO.print m.console.output
    drive p limit interactive { m with console := { m.console with output := "" } }
  | .finished m =>
    IO.print m.console.output
    return 0
  | .faulted f m =>
    IO.print m.console.output
    IO.print (Log.Message.fault f.text).render
    return 1

/-- Runs the program of a project. -/
def runProgram (p : Project) (program : Program) : IO UInt32 :=
  let inputs := p.run.inputs
  drive program (Machine.limitOf p.run.maxDepth) inputs.isEmpty
    (Machine.start program {} (Console.Stream.ofSettings inputs ""))

/-- Shows an error and gives the exit code for it. -/
def fail (subject text : String) : IO UInt32 := do
  IO.print (Log.Message.configError subject text).render
  return 1

/-- Writes the program of a project as an LLVM module. -/
def emitModule (options : CommandLine.Options) (p : Project) (program : Program) : IO UInt32 := do
  match Llvm.moduleOf program with
  | .error e => fail "LLVM" s!"error generating module: {e.message}"
  | .ok m =>
    writeFile (options.output.getD (Text.Path.replaceExt p.output ".ll")) m.render
    return 0

/-- Makes the parsing table of a grammar and shows it. -/
def showTable (options : CommandLine.Options) (path : Option String) : IO UInt32 := do
  let g ← match path with
    | none => pure (Except.ok Grammar.duck)
    | some path => Grammar.read <$> IO.FS.readFile path
  match g.bind fun g => (g.buildTable !options.allowConflicts).map fun t => (g, t) with
  | .error d =>
    IO.print (Log.Message.ofDiagnostic (path.getD "duck.grammar") "" d).render
    return 1
  | .ok (g, t) =>
    if options.details then
      IO.print (g.analyze.render g ++ "\n" ++ g.automaton.render g)
    match options.output with
    | some output => writeFile output t.render
    | none => IO.print t.render
    return 0

/-- Makes a new project in a directory named after it. -/
def initProject (name : String) : IO UInt32 := do
  let directory ← absolute name
  let entry := Text.Path.join [directory, Project.Starter.entryName]
  let files ← gather (← manifestFiles directory) [entry]
  match Project.Starter.create Project.Starter.encode files name directory with
  | .error (.refused p) => fail "Project Init" p.message
  | .error (.file f) => fail "Project Init" f.message
  | .error .malformed => fail "Project Init" "malformed project file"
  | .ok files =>
    for path in [Text.Path.join [directory, Project.manifestName], entry] do
      match files.readText path with
      | .ok text => writeFile path text
      | .error _ => pure ()
    return 0

/-- Carries out a command. -/
def perform (line : CommandLine) : IO UInt32 := do
  let options := line.options
  match line.command with
  | .version =>
    IO.print (Log.tagged "Duck Version" version)
    return 0
  | .init name => initProject name
  | .table grammar => showTable options grammar
  | .build path =>
    match ← compiled options path with
    | none => return 1
    | some (p, program) =>
      writeFile (options.output.getD p.output) program.listing
      return 0
  | .run path =>
    match ← compiled options path with
    | none => return 1
    | some (p, program) => runProgram p program
  | .llvm path =>
    match ← compiled options path with
    | none => return 1
    | some (p, program) => emitModule options p program

end DuckLang.Tool

/-- The command line tool. -/
def main (words : List String) : IO UInt32 := do
  match DuckLang.CommandLine.ofWords? words with
  | some line => DuckLang.Tool.perform line
  | none =>
    IO.print DuckLang.CommandLine.usage
    return 2
