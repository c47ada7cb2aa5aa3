import DuckLang.Project.Manifest

/-! Projects found in a tree of files. -/

namespace DuckLang.Project

/-- Loads the project in a directory. -/
def load (files : FileTree) (directory : String) : Except Failure Project :=
  let root := Text.Path.clean directory
  match files.readText (Text.Path.join [root, manifestName]) with
  | .error f => .error (.file f)
  | .ok text =>
    match Manifest.read? text with
    | none => .error .malformed
    | some m => (m.toProject root).mapError .refused

/-- Whether the manifest in a directory, if there is one that can be read, names a file as its
entry. -/
def namesEntry (files : FileTree) (directory path : String) : Bool :=
  match files.readText (Text.Path.join [directory, manifestName]) with
  | .error _ => false
  | .ok text =>
    match (Toml.read? text).bind (·.get? ["project", "entry"]) with
    | some (.text entry) => Text.Path.clean (resolve directory entry) = Text.Path.clean path
    | _ => false

/-- The project to build for a path.  A directory and a manifest stand for the project they hold; a
source file belongs to the project in its directory if that names it as its entry, and is a project
of its own otherwise. -/
def find (files : FileTree) (path : String) : Except Failure Project :=
  match files.stat path with
  | .error f => .error (.file f)
  | .ok e =>
    let path := Text.Path.clean path
    let directory := Text.Path.dir path
    if e.isDirectory then load files path
    else if Text.Path.base path = manifestName ∨ namesEntry files directory path then
      load files directory
    else .ok (ofFile path)

end DuckLang.Project
