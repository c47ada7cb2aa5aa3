import DuckLang.FileTree
import DuckLang.Identifier
import DuckLang.Log
import DuckLang.Machine

/-! Projects: what is built, from which files and with which settings.  Every path of a project is
absolute. -/

namespace DuckLang

/-- How the program of a project is run. -/
structure Project.Settings where
  /-- The number of functions that may be active at once. -/
  maxDepth : Int := Machine.defaultLimit
  /-- Lines to be read in place of the input, if there are any. -/
  inputs : List String := []
  deriving DecidableEq

/-- A project. -/
structure Project where
  name : String
  /-- The directory of the project. -/
  root : String
  /-- The source file. -/
  entry : String
  /-- The grammar file, unless the grammar of the language is used. -/
  grammar : Option String := none
  /-- The file that keeps the parsing table between builds, if one does. -/
  tableCache : Option String := none
  /-- The file that the program is written to. -/
  output : String
  /-- Whether a grammar with conflicts is accepted. -/
  allowConflicts : Bool := false
  /-- The version the project declares, unless it is a lone file. -/
  declaredVersion : Option String := none
  run : Project.Settings := {}
  deriving DecidableEq

namespace Project

/-- The name of the file that describes a project. -/
def manifestName : String := "duck.toml"

/-- The extension of source files. -/
def sourceExtension : String := ".duck"

/-- The extension of saved parsing tables. -/
def tableExtension : String := ".ptable"

/-- The extension of saved programs. -/
def programExtension : String := ".dko"

/-- Why a project is refused. -/
inductive Problem where
  | missingTable (root : String)
  | missingName (root : String)
  | invalidName
  | missingEntry (name : String)
  | entryExtension (name : String)
  | negativeDepth (name : String)
  | alreadyThere
  | unreachable (failure : FileTree.Failure)
  deriving DecidableEq

/-- The wording of a problem. -/
def Problem.message : Problem → String
  | missingTable root => s!"missing [project] table in project at {root}"
  | missingName root => s!"missing project name for project at {root}"
  | invalidName => "project name must be a valid identifier"
  | missingEntry name => s!"project `{name}` must specify an entry file"
  | entryExtension name => s!"entry file of project `{name}` must be a `{sourceExtension}` file"
  | negativeDepth name => s!"max-call-depth of project `{name}` cannot be negative"
  | alreadyThere => "project file already exists"
  | unreachable failure => s!"project file error: {failure.message}"

/-- Why a project cannot be loaded or made. -/
inductive Failure where
  | file (f : FileTree.Failure)
  /-- The manifest is not written in its format, or a value has the wrong type. -/
  | malformed
  | refused (p : Problem)
  deriving DecidableEq

/-- The project of a lone source file: the program is written next to it and nothing is cached. -/
def ofFile (path : String) : Project :=
  let path := Text.Path.clean path
  let name := Text.Path.stem (Text.Path.base path)
  { name := if Identifier.isValid name then name else mainName
    root := Text.Path.dir path
    entry := path
    output := Text.Path.replaceExt path programExtension }

/-- A path as seen from a directory. -/
def resolve (root path : String) : String :=
  if Text.Path.isAbsolute path then path else Text.Path.join [root, path]

/-- The warning for a project that declares another version. -/
def warning? (p : Project) : Option Log.Message :=
  match p.declaredVersion with
  | none => none
  | some declared =>
    if declared = version then none
    else
      some (.configWarning "Project" (s!"version of project `{p.name}` (v{declared}) "
        ++ s!"does not match current duck version (v{version})"))

end Project

end DuckLang
