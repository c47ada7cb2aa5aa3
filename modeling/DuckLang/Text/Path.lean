import DuckLang.Text.Split

/-! Slash separated paths.  A path is cleaned by dropping empty and `.` elements and by letting
each `..` cancel the element before it. -/

namespace DuckLang.Text.Path

/-- The elements of a path between slashes. -/
def elements (path : String) : List String :=
  (Text.pieces '/' path.toList).map String.ofList

/-- Whether a path starts at the root. -/
def isAbsolute (path : String) : Bool :=
  path.startsWith "/"

/-- The elements kept after one more element, the last kept first.  A `..` cancels the element
before it; at the root there is none to cancel. -/
def keep (rooted : Bool) (kept : List String) (element : String) : List String :=
  if element = "" ∨ element = "." then kept
  else if element = ".." then
    match kept with
    | [] => if rooted then [] else [".."]
    | last :: rest => if last = ".." then ".." :: kept else rest
  else element :: kept

/-- The shortest path that names the same place. -/
def clean (path : String) : String :=
  let rooted := isAbsolute path
  let kept := ((elements path).foldl (keep rooted) []).reverse
  let body := "/".intercalate kept
  if rooted then "/" ++ body else if body = "" then "." else body

/-- The clean path of elements joined by slashes; empty elements are skipped. -/
def join (parts : List String) : String :=
  match parts.filter (· ≠ "") with
  | [] => ""
  | parts => clean ("/".intercalate parts)

/-- The last element of a path. -/
def base (path : String) : String :=
  if path = "" then "."
  else
    match (elements path).filter (· ≠ "") |>.getLast? with
    | some element => element
    | none => "/"

/-- The clean path of everything before the last slash. -/
def dir (path : String) : String :=
  let body := "/".intercalate (elements path).dropLast
  clean (if isAbsolute path then "/" ++ body else body)

/-- The part of the last element from its last point on; empty if it has none. -/
def ext (path : String) : String :=
  let last := ((elements path).getLast?.getD "").toList
  if last.contains '.' then
    "." ++ String.ofList (last.reverse.takeWhile (· ≠ '.')).reverse
  else ""

/-- The path without its extension. -/
def stem (path : String) : String :=
  String.ofList (path.toList.take (path.length - (ext path).length))

/-- The path with its extension replaced; a path without one gains it. -/
def replaceExt (path extension : String) : String :=
  stem path ++ extension

end DuckLang.Text.Path
