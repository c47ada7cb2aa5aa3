import DuckLang.Project.Manifest

/-! New projects: a manifest and a program that greets.  How a manifest is written as a text is left
open; `encode` is the way in which the command line does it. -/

namespace DuckLang.Project.Starter

/-- The file name of the program. -/
def entryName : String := "main" ++ sourceExtension

/-- The manifest of a new project. -/
def manifest (name : String) : Manifest where
  body := some {
    name
    entry := entryName
    tableCache := ".duck/duck" ++ tableExtension
    output := "out/" ++ name ++ programExtension
    version }
  run := some { maxDepth := Machine.defaultLimit }

/-- The line of a key with a text in which nothing has to be escaped. -/
def textLine (key text : String) : String :=
  s!"  {key} = \"{text}\"\n"

/-- The line of a key that is left out if its text is empty. -/
def optionalLine (key text : String) : String :=
  if text = "" then "" else textLine key text

/-- A manifest as a text, with its keys in their order. -/
def encode (m : Manifest) : String :=
  let body := m.body.elim "" fun b =>
    "\n[project]\n" ++ textLine "name" b.name ++ textLine "entry" b.entry
      ++ optionalLine "grammar" b.grammar ++ optionalLine "table-cache" b.tableCache
      ++ optionalLine "output" b.output ++ s!"  allow-conflicts = {b.allowConflicts}\n"
      ++ textLine "duck-version" b.version
  let run := m.run.elim "" fun r =>
    let inputs := if r.inputs = [] then "" else
      "  inputs = [" ++ ", ".intercalate (r.inputs.map fun line => s!"\"{line}\"") ++ "]\n"
    s!"\n[run]\n  max-call-depth = {r.maxDepth}\n" ++ inputs
  body ++ run

/-- The program of a new project. -/
def source (name : String) : String :=
  s!"program {name};\n\nmain \x7b\n  write(\"hello from {name}\");\n\x7d\nend\n"

/-- Makes the directory of a new project with its manifest, and its program unless there is one. -/
def populate (encode : Manifest → String) (files : FileTree) (name directory : String) :
    Except FileTree.Failure FileTree := do
  let files ← files.makeDirectories directory
  let files ← files.write (Text.Path.join [directory, manifestName])
    (.text (encode (manifest name)))
  let entry := Text.Path.join [directory, entryName]
  if files.contains entry then .ok files else files.write entry (.text (source name))

/-- Makes a new project in a directory that has none. -/
def create (encode : Manifest → String) (files : FileTree) (name directory : String) :
    Except Failure FileTree :=
  let path := Text.Path.join [directory, manifestName]
  match files.find path with
  | .ok _ => .error (.refused .alreadyThere)
  | .error .notFound =>
    if Identifier.isValid name then (populate encode files name directory).mapError .file
    else .error (.refused .invalidName)
  | .error reason => .error (.refused (.unreachable (.access "stat" path reason)))

end DuckLang.Project.Starter
