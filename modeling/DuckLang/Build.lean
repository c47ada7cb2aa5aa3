import DuckLang.Compile
import DuckLang.Grammar.Reader
import DuckLang.Project.Locate

/-! Builds.  A build finds a project, takes a parsing table for its grammar from the cache or makes
it, compiles the entry file and writes the program.  What happens on the way is recorded for the
log.

The cache is taken if it is not older than the grammar file, whatever grammar it was made from. -/

namespace DuckLang

/-- The files a build works on and what has happened, in order. -/
structure Build.Workspace where
  files : FileTree
  events : List Log.Event := []

/-- Why a build fails. -/
inductive Build.Failure where
  | project (f : Project.Failure)
  | file (f : FileTree.Failure)
  | compile (d : Diagnostic)
  /-- The number of parser actions was not enough. -/
  | unfinished
  deriving DecidableEq

/-- An operation of a build; one that fails keeps what it had done before. -/
abbrev Build := EStateM Build.Failure Build.Workspace

namespace Build

/-- The wording of a failure. -/
def Failure.message : Failure → String
  | project (.file f) => f.message
  | project .malformed => "malformed project file"
  | project (.refused p) => p.message
  | file f => f.message
  | compile d => d.text
  | unfinished => "unfinished"

/-- Records an event. -/
def record (event : Log.Event) : Build Unit :=
  modify fun w => { w with events := w.events ++ [event] }

/-- Records a message. -/
def report (m : Log.Message) : Build Unit :=
  record (.message m)

/-- The value of a computation that may fail. -/
def lift {α ε : Type} (fail : ε → Failure) : Except ε α → Build α
  | .ok a => pure a
  | .error e => throw (fail e)

/-- The files as they are now. -/
def currentFiles : Build FileTree := do
  return (← get).files

/-- Finds the project for a path. -/
def locate (path : String) : Build Project := do
  let p ← lift .project (Project.find (← currentFiles) path)
  match p.warning? with
  | some m => report m
  | none => pure ()
  return p

/-- The grammar of a project: the one that it names, else the built-in one. -/
def grammarOf (files : FileTree) (p : Project) : Except Failure Grammar :=
  match p.grammar with
  | none => .ok Grammar.duck
  | some path =>
    match files.readText path with
    | .error f => .error (.file f)
    | .ok text => (Grammar.read text).mapError .compile

/-- The parsing table for the grammar of a project. -/
def generateTable (files : FileTree) (p : Project) : Except Failure Table :=
  (grammarOf files p).bind fun g => (g.buildTable !p.allowConflicts).mapError .compile

/-- Whether the cache at a path is there and not older than the grammar file. -/
def isFresh (files : FileTree) (p : Project) (cache : String) : Bool :=
  match files.find cache with
  | .error _ => false
  | .ok kept =>
    match p.grammar with
    | none => true
    | some path =>
      match files.find path with
      | .error _ => false
      | .ok grammar => grammar.modified ≤ kept.modified

/-- What reading the cache of a project gives, if the project has one and it is fresh. -/
def cachedTable? (files : FileTree) (p : Project) : Option (Except FileTree.Failure Table) :=
  match p.tableCache with
  | none => none
  | some cache => if isFresh files p cache then some (files.readTable cache) else none

/-- The files with a table kept in the cache of a project; unchanged if it cannot be kept. -/
def keepTable (files : FileTree) (p : Project) (t : Table) : FileTree :=
  match p.tableCache with
  | none => files
  | some cache =>
    match files.makeDirectories (Text.Path.dir cache) with
    | .error _ => files
    | .ok files =>
      match files.write cache (.table t) with
      | .error _ => files
      | .ok files => files

/-- Makes the parsing table of a project and keeps it. -/
def makeTable (p : Project) : Build Table := do
  match generateTable (← currentFiles) p with
  | .error f =>
    report (.configError "Grammar" s!"error building parsing table: {f.message}")
    throw f
  | .ok t =>
    t.conflicts.forM fun c => report (.configWarning "Grammar" c.render)
    modify fun w => { w with files := keepTable w.files p t }
    return t

/-- The parsing table of a project, and whether it comes from the cache. -/
def loadTable (p : Project) : Build (Table × Bool) := do
  match cachedTable? (← currentFiles) p with
  | some (.ok t) => return (t, true)
  | some (.error f) =>
    report (.configWarning "Table Cache" s!"discarding unreadable table cache: {f.message}")
    return (← makeTable p, false)
  | none => return (← makeTable p, false)

/-- Compiles source text as the entry file of a project, in at most `fuel` parser actions. -/
def compileSource (fuel : Nat) (p : Project) (source : String) : Build Program := do
  let (t, cached) ← loadTable p
  record (.begun p.name cached)
  match DuckLang.compile fuel t p.name source with
  | .program program => return program
  | .failed d =>
    report (.ofDiagnostic p.entry source d)
    throw (.compile d)
  | .unfinished => throw .unfinished

/-- Compiles the entry file of a project, in at most `fuel` parser actions. -/
def compileEntry (fuel : Nat) (p : Project) : Build Program := do
  match (← currentFiles).readText p.entry with
  | .error f =>
    report (.configError "File" s!"error reading entry file: {f.message}")
    throw (.file f)
  | .ok source => compileSource fuel p source

/-- Saves a program in the output file of a project. -/
def saveProgram (p : Project) (program : Program) : Build Unit := do
  let files ← lift .file ((← currentFiles).writeBelow p.output (.program program.saved))
  modify fun w => { w with files }

/-- Builds the project for a path: finds it, compiles it and saves its program. -/
def build (fuel : Nat) (path : String) : Build (Project × Program) := do
  let p ← locate path
  let program ← compileEntry fuel p
  saveProgram p program
  return (p, program)

/-- Runs a program on a console with the settings of its project, in at most `fuel` steps, and
records the fault it ends with. -/
def execute {κ : Type} [Console κ] (fuel : Nat) (program : Program) (settings : Project.Settings)
    (console : κ) : Build (Machine.Outcome κ) := do
  let outcome :=
    Machine.run program (Machine.limitOf settings.maxDepth) fuel (Machine.start program {} console)
  match outcome.fault? with
  | some f => report (.fault f.text)
  | none => pure ()
  return outcome

end Build

end DuckLang
