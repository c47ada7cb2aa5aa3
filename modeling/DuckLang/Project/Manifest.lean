import DuckLang.Project
import DuckLang.Toml.Reader

/-! Manifests: the files that describe projects.  A manifest has a table `project` and may have a
table `run`; whatever else it holds is passed over. -/

namespace DuckLang.Project

/-- The table that describes a project; a text that is missing is empty. -/
structure Manifest.Body where
  name : String := ""
  entry : String := ""
  grammar : String := ""
  tableCache : String := ""
  output : String := ""
  allowConflicts : Bool := false
  version : String := ""
  deriving DecidableEq

/-- The table of settings for a run. -/
structure Manifest.Run where
  maxDepth : Int := 0
  inputs : List String := []
  deriving DecidableEq

/-- A manifest. -/
structure Manifest where
  body : Option Manifest.Body := none
  run : Option Manifest.Run := none
  deriving DecidableEq

namespace Manifest

/-- The value of a key of a table.  The key may also be written in capitals. -/
def field? (t : Toml) (key : String) : Option Toml :=
  (t.entryFor? key).or (t.entryFor? (key.map Char.toUpper))

/-- What a value of a table is read as: the default if it is missing, nothing if it has the wrong
type. -/
def field {α : Type} (read : Toml → Option α) (default : α) (t : Toml) (key : String) : Option α :=
  match field? t key with
  | none => some default
  | some value => read value

/-- The description of a project that a value is. -/
def Body.ofToml? (t : Toml) : Option Body :=
  match t with
  | .table _ _ => do
    let text := field Toml.asText? ""
    some {
      name := ← text t "name"
      entry := ← text t "entry"
      grammar := ← text t "grammar"
      tableCache := ← text t "table-cache"
      output := ← text t "output"
      allowConflicts := ← field Toml.asBool? false t "allow-conflicts"
      version := ← text t "duck-version" }
  | _ => none

/-- The settings for a run that a value is. -/
def Run.ofToml? (t : Toml) : Option Run :=
  match t with
  | .table _ _ => do
    some {
      maxDepth := ← field Toml.asInt? 0 t "max-call-depth"
      inputs := ← field Toml.asTexts? [] t "inputs" }
  | _ => none

/-- Reads a manifest. -/
def read? (text : String) : Option Manifest := do
  let t ← Toml.read? text
  some {
    body := ← field (fun v => (Body.ofToml? v).map some) none t "project"
    run := ← field (fun v => (Run.ofToml? v).map some) none t "run" }

/-- The description of a project, if nothing is wrong with its manifest. -/
def check (m : Manifest) (root : String) : Except Problem Body :=
  match m.body with
  | none => .error (.missingTable root)
  | some b =>
    if b.name = "" then .error (.missingName root)
    else if ¬Identifier.isValid b.name then .error .invalidName
    else if b.entry = "" then .error (.missingEntry b.name)
    else if Text.Path.ext b.entry ≠ sourceExtension then .error (.entryExtension b.name)
    else if m.run.any fun run => run.maxDepth < 0 then .error (.negativeDepth b.name)
    else .ok b

/-- A path of a manifest as seen from the project; none if it is empty. -/
def path? (root path : String) : Option String :=
  if path = "" then none else some (resolve root path)

/-- The settings for a run; a depth of zero asks for the default. -/
def settings (m : Manifest) : Settings :=
  match m.run with
  | none => {}
  | some run => { maxDepth := Machine.limitOf run.maxDepth, inputs := run.inputs }

/-- The project that a manifest in the directory `root` describes. -/
def toProject (m : Manifest) (root : String) : Except Problem Project :=
  (m.check root).map fun b =>
    { name := b.name
      root
      entry := resolve root b.entry
      grammar := path? root b.grammar
      tableCache := path? root b.tableCache
      output := (path? root b.output).getD
        (Text.Path.join [root, "out", b.name ++ programExtension])
      allowConflicts := b.allowConflicts
      declaredVersion := some b.version
      run := m.settings }

end Manifest

end DuckLang.Project
