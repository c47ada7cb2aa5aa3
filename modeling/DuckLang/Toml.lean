/-! Documents of keys and values in the TOML format.  A document is a table; a path of keys leads
from a table to what it holds, and through an array of tables it goes on in the newest of them. -/

namespace DuckLang

/-- A value of a document. -/
inductive Toml where
  | text (s : String)
  /-- A signed number of 64 bits. -/
  | integer (n : Int)
  | float (x : Float)
  | boolean (b : Bool)
  /-- A date, a time or both. -/
  | moment
  | array (items : List Toml)
  /-- A table; one that is closed, as those written between braces are, takes no more keys. -/
  | table (entries : List (String × Toml)) (closed : Bool)
  /-- An array of tables, the newest first. -/
  | tables (newest : Toml) (older : List Toml)

namespace Toml

/-- A table without keys. -/
def empty : Toml := .table [] false

/-- The entries with a key set, in its old place if it has one. -/
def setEntry (key : String) (value : Toml) : List (String × Toml) → List (String × Toml)
  | [] => [(key, value)]
  | (k, v) :: rest => if k = key then (key, value) :: rest else (k, v) :: setEntry key value rest

/-- The table in which a path goes on. -/
def newest : Toml → Toml
  | .tables t _ => t
  | t => t

/-- Whether a path can go on here. -/
def isTable : Toml → Bool
  | .table _ _ | .tables _ _ => true
  | _ => false

/-- Whether this is a table that takes no more keys. -/
def isClosed : Toml → Bool
  | .table _ closed => closed
  | _ => false

/-- The value of a key of the table in which a path goes on. -/
def entryFor? (key : String) (t : Toml) : Option Toml :=
  match t.newest with
  | .table entries _ => entries.lookup key
  | _ => none

/-- The value at the end of a path. -/
def get? (t : Toml) : List String → Option Toml
  | [] => some t
  | key :: keys => (t.entryFor? key).bind fun value => value.get? keys

/-- The table with a key set where a path goes on. -/
def withEntry (t : Toml) (key : String) (value : Toml) : Toml :=
  match t with
  | .table entries closed => .table (setEntry key value entries) closed
  | .tables (.table entries closed) older =>
    .tables (.table (setEntry key value entries) closed) older
  | t => t

/-- Changes the table at the end of a path.  Tables that are missing are made, closed if the table
that holds them is; a path through anything else leads nowhere. -/
def alter? (change : Toml → Option Toml) : List String → Toml → Option Toml
  | [], t => change t
  | key :: keys, t =>
    let child := (t.entryFor? key).getD (.table [] t.newest.isClosed)
    if child.isTable then (alter? change keys child).map fun child => t.withEntry key child
    else none

/-- Sets the value at the end of a path.  Tables that are missing are made; a key of the path that
holds no table is passed over. -/
def put (value : Toml) : List String → Toml → Toml
  | [], t => t
  | [key], t => t.withEntry key value
  | key :: keys, t =>
    let child := (t.entryFor? key).getD empty
    if child.isTable then t.withEntry key (put value keys child) else put value keys t

/-- Sets a key that has no value yet in the table at the end of a path. -/
def define? (t : Toml) (path : List String) (key : String) (value : Toml) : Option Toml :=
  t.alter? (fun table =>
    if table.newest.isClosed ∨ (table.entryFor? key).isSome then none
    else some (table.withEntry key value)) path

/-- An array; one that holds tables only is an array of tables. -/
def ofItems (items : List Toml) : Toml :=
  match items.reverse with
  | last :: before =>
    if items.all fun t => t matches .table _ _ then .tables last before else .array items
  | [] => .array []

/-- The text a value is. -/
def asText? : Toml → Option String
  | .text s => some s
  | _ => none

/-- The number a value is. -/
def asInt? : Toml → Option Int
  | .integer n => some n
  | _ => none

/-- The truth value a value is. -/
def asBool? : Toml → Option Bool
  | .boolean b => some b
  | _ => none

/-- The texts an array holds. -/
def asTexts? : Toml → Option (List String)
  | .array items => items.mapM asText?
  | _ => none

end Toml

end DuckLang
