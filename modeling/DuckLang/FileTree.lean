import DuckLang.Program
import DuckLang.Table
import DuckLang.Text.Path

/-! Files.  A tree of files maps places, lists of names that lead down from the root, to entries;
each entry bears the time it was written at, and every write comes later than those before it.  A
walk from the root finds an entry only through directories. -/

namespace DuckLang

/-- What is stored at a place. -/
inductive FileTree.Content where
  | directory
  | text (s : String)
  /-- A saved program. -/
  | program (p : Program)
  /-- A saved parsing table. -/
  | table (t : Table)

/-- What is stored at a place, and when it was written. -/
structure FileTree.Entry where
  content : FileTree.Content
  modified : Int

/-- A tree of files. -/
structure FileTree where
  /-- What is stored below the root, each place listed once. -/
  entries : List (List String × FileTree.Entry) := []
  /-- The time of the next write. -/
  clock : Int := 0

namespace FileTree

/-- Why a place cannot be reached or used. -/
inductive Reason where
  | notFound
  | notDirectory
  | isDirectory
  deriving DecidableEq

/-- The wording of a reason. -/
def Reason.message : Reason → String
  | notFound => "no such file or directory"
  | notDirectory => "not a directory"
  | isDirectory => "is a directory"

/-- Why an operation on files fails. -/
inductive Failure where
  /-- A place cannot be reached or used. -/
  | access (action path : String) (reason : Reason)
  /-- A file ends where an object should begin. -/
  | ended
  /-- A file ends inside of an object. -/
  | cut
  /-- A number takes more than eight bytes. -/
  | longNumber
  /-- A type that is known is described again. -/
  | knownType
  /-- An object is of a type that was not described. -/
  | unknownType
  /-- An object of another kind is stored. -/
  | otherObject
  deriving DecidableEq

/-- The wording of a failure. -/
def Failure.message : Failure → String
  | access action path reason => s!"{action} {path}: {reason.message}"
  | ended => "EOF"
  | cut => "unexpected EOF"
  | longNumber => "gob: encoded unsigned integer out of range"
  | knownType => "gob: duplicate type received"
  | unknownType => "gob: unknown type id or corrupted data"
  | otherObject => "type mismatch: no fields matched"

/-- The place a path names. -/
def place (path : String) : List String :=
  (Text.Path.elements (Text.Path.clean path)).filter (· ≠ "")

/-- The root, which is always there. -/
def rootEntry : Entry := { content := .directory, modified := 0 }

/-- The entry at a place, whatever is above it. -/
def entryAt? (files : FileTree) (spot : List String) : Option Entry :=
  if spot = [] then some rootEntry else files.entries.lookup spot

/-- Whether an entry is a directory. -/
def Entry.isDirectory (e : Entry) : Bool :=
  e.content matches .directory

/-- Walks down from the place `above`. -/
def walk (files : FileTree) (above : List String) : List String → Except Reason Entry
  | [] => (files.entryAt? above).elim (.error .notFound) .ok
  | name :: below =>
    match files.entryAt? above with
    | none => .error .notFound
    | some e =>
      if e.isDirectory then walk files (above ++ [name]) below else .error .notDirectory

/-- The entry a path leads to. -/
def find (files : FileTree) (path : String) : Except Reason Entry :=
  walk files [] (place path)

/-- Whether a path leads to an entry. -/
def contains (files : FileTree) (path : String) : Bool :=
  (files.find path).isOk

/-- The entries with a place set, in its old position if it has one. -/
def setEntry (spot : List String) (e : Entry) :
    List (List String × Entry) → List (List String × Entry)
  | [] => [(spot, e)]
  | (k, v) :: rest => if k = spot then (spot, e) :: rest else (k, v) :: setEntry spot e rest

/-- Stores something at a place, whatever is above it. -/
def store (files : FileTree) (spot : List String) (content : Content) : FileTree :=
  { entries := setEntry spot { content, modified := files.clock } files.entries
    clock := files.clock + 1 }

/-- Makes a directory at a place unless there is one. -/
def ensureDirectory (files : FileTree) (spot : List String) : Except Reason FileTree :=
  match files.entryAt? spot with
  | none => .ok (files.store spot .directory)
  | some e => if e.isDirectory then .ok files else .error .notDirectory

/-- Makes the directories on the way down from the place `above`. -/
def makeWay (files : FileTree) (above : List String) : List String → Except Reason FileTree
  | [] => files.ensureDirectory above
  | name :: below =>
    match files.ensureDirectory above with
    | .ok files => makeWay files (above ++ [name]) below
    | .error reason => .error reason

/-- An operation on a path, its failure worded with the action and the path. -/
def guarded {α : Type} (action path : String) : Except Reason α → Except Failure α
  | .ok a => .ok a
  | .error reason => .error (.access action path reason)

/-- What a path leads to. -/
def stat (files : FileTree) (path : String) : Except Failure Entry :=
  guarded "stat" path (files.find path)

/-- Makes a directory and those above it that are missing. -/
def makeDirectories (files : FileTree) (path : String) : Except Failure FileTree :=
  guarded "mkdir" path (files.makeWay [] (place path))

/-- Writes a file into a directory that is there. -/
def write (files : FileTree) (path : String) (content : Content) : Except Failure FileTree :=
  match files.find path with
  | .ok e =>
    if e.isDirectory then .error (.access "open" path .isDirectory)
    else .ok (files.store (place path) content)
  | .error .notFound =>
    match files.find (Text.Path.dir path) with
    | .ok e =>
      if e.isDirectory then .ok (files.store (place path) content)
      else .error (.access "open" path .notDirectory)
    | .error reason => .error (.access "open" path reason)
  | .error reason => .error (.access "open" path reason)

/-- Writes a file after making the directories above it that are missing. -/
def writeBelow (files : FileTree) (path : String) (content : Content) : Except Failure FileTree :=
  (files.makeDirectories (Text.Path.dir path)).bind fun files => files.write path content

/-- Sets the time an entry was written at. -/
def touch (files : FileTree) (path : String) (time : Int) : Except Failure FileTree :=
  match files.find path with
  | .error reason => .error (.access "chtimes" path reason)
  | .ok e =>
    .ok { files with entries := setEntry (place path) { e with modified := time } files.entries }

/-- The file a path leads to. -/
def read (files : FileTree) (path : String) : Except Failure Content :=
  match files.find path with
  | .error reason => .error (.access "open" path reason)
  | .ok e => if e.isDirectory then .error (.access "read" path .isDirectory) else .ok e.content

/-- What is read of a file as text; an object is not made of characters. -/
def Content.asText : Content → String
  | .text s => s
  | _ => "\uFFFD"

/-- The text of a file. -/
def readText (files : FileTree) (path : String) : Except Failure String :=
  (files.read path).map Content.asText

/-- Why bytes that were not saved as an object are none.  An object is a sequence of messages, each
behind its length, and a message begins with the number of a type, which is odd where the type is
described.  A number above 127 is written in more bytes than one. -/
def refusalOf : Bytes → Failure
  | [] => .ended
  | size :: rest =>
    if 0x80 ≤ size then .longNumber
    else if rest.length < size.toNat then .cut
    else
      match rest.take size.toNat with
      | [] => .ended
      | type :: _ =>
        if 0x80 ≤ type then .longNumber else if type % 2 = 1 then .knownType else .unknownType

/-- Why a file that holds no object of the kind asked for cannot be loaded. -/
def Content.refusal : Content → Failure
  | .text s => refusalOf (Text.Utf8.encode s)
  | _ => .otherObject

/-- The program saved in a file. -/
def readProgram (files : FileTree) (path : String) : Except Failure Program :=
  (files.read path).bind fun
    | .program p => .ok p
    | content => .error content.refusal

/-- The parsing table saved in a file. -/
def readTable (files : FileTree) (path : String) : Except Failure Table :=
  (files.read path).bind fun
    | .table t => .ok t
    | content => .error content.refusal

end FileTree

end DuckLang
