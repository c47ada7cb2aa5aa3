import DuckLang.Decimal.Reader
import DuckLang.Toml
import DuckLang.Toml.Lexeme

/-! Reading of TOML text: assignments fill the table that the last header names. -/

namespace DuckLang.Toml

/-- The parts of a key, in at most `fuel` steps.  Points divide parts; a part between quotes may
hold anything but its quote. -/
def keyParts : Nat → List Char → Option (List String)
  | 0, _ => none
  | fuel + 1, cs =>
    match cs.dropWhile Lexeme.isGap with
    | [] => some []
    | c :: rest =>
      if Lexeme.isBare c then
        let part := String.ofList ((c :: rest).takeWhile Lexeme.isBare)
        let after := (c :: rest).dropWhile Lexeme.isBare
        match after.head?, after.dropWhile Lexeme.isGap with
        | some d, [] => if Lexeme.isGap d then some [part] else none
        | some _, '.' :: tail => (keyParts fuel ('.' :: tail)).map (part :: ·)
        | none, _ => some [part]
        | _, _ => none
      else if c = '\'' || c = '"' then
        match Text.splitAt? [c] rest with
        | none => none
        | some (part, after) => (keyParts fuel after).map (String.ofList part :: ·)
      else if c = '.' then
        match rest with
        | [] => none
        | d :: _ =>
          if Lexeme.isBare d || d = '\'' || d = '"' || d = ' ' then keyParts fuel rest else none
      else none

/-- The path that a key writes, which has at least one part: those before the last and the last. -/
def keyPath? (text : String) : Option (List String × String) := do
  let parts ← keyParts (text.length + 1) text.toList
  let last ← parts.getLast?
  some (parts.dropLast, last)

/-- Whether each underscore of a number stands behind a digit and before something. -/
def underscoresFit (isDigit : Char → Bool) : Bool → List Char → Bool
  | _, [] => true
  | before, c :: rest =>
    (c ≠ '_' || (before && !rest.isEmpty)) && underscoresFit isDigit (isDigit c) rest

/-- The number that digits of a base write. -/
def natOf (base : Nat) (digits : List Char) : Option Nat :=
  if digits.isEmpty then none
  else
    digits.foldlM (fun n c =>
      match Text.hexDigit? c with
      | some d => if d < base then some (base * n + d) else none
      | none => none) 0

/-- The least number that has no signed form of 64 bits. -/
def signedEnd : Int := 0x8000000000000000

/-- A number that fits into 64 bits with a sign. -/
def fitSigned (n : Int) : Option Int :=
  if -signedEnd ≤ n ∧ n < signedEnd then some n else none

/-- The number an integer lexeme writes. -/
def integerOf (digits : String) : Option Int :=
  let all := digits.toList
  let cs := all.filter (· ≠ '_')
  let fits := underscoresFit Identifier.isDigit false all
  match cs with
  | '0' :: 'x' :: d :: rest =>
    if underscoresFit (fun c => (Text.hexDigit? c).isSome) false all then
      (natOf 16 (d :: rest)).bind fun n => fitSigned n
    else none
  | '0' :: 'o' :: d :: rest =>
    if fits then (natOf 8 (d :: rest)).bind fun n => fitSigned n else none
  | '0' :: 'b' :: d :: rest =>
    if fits then (natOf 2 (d :: rest)).bind fun n => fitSigned n else none
  | '0' :: _ :: _ :: _ => none
  | '-' :: rest =>
    if fits then (natOf 10 rest).bind fun n => fitSigned (-n) else none
  | '+' :: rest =>
    if fits then (natOf 10 rest).bind fun n => fitSigned n else none
  | cs => if fits then (natOf 10 cs).bind fun n => fitSigned n else none

/-- The number a float lexeme writes. -/
def floatOf (digits : String) : Option Float :=
  if underscoresFit Identifier.isDigit false digits.toList then
    Decimal.readFloat? (String.ofList (digits.toList.filter (· ≠ '_')))
  else none

/-- What stands before a field of a table between braces. -/
inductive Before where
  | start
  | field
  | comma
  deriving DecidableEq

mutual

/-- Reads a value, in at most `fuel` steps. -/
def readValue : Nat → List Lexeme → Option (Toml × List Lexeme)
  | 0, _ => none
  | fuel + 1, lexemes =>
    match lexemes with
    | .text s :: rest => some (.text s, rest)
    | .boolean b :: rest => some (.boolean b, rest)
    | .integer digits :: rest => (integerOf digits).map fun n => (.integer n, rest)
    | .float digits :: rest => (floatOf digits).map fun x => (.float x, rest)
    | .special negative infinite :: rest =>
      let x := if infinite then Binary64.infinity else Binary64.notANumber
      some (.float (Binary64.withSign negative x), rest)
    | .date :: .time :: .offset :: rest => some (.moment, rest)
    | .date :: .time :: rest => some (.moment, rest)
    | .date :: rest => some (.moment, rest)
    | .time :: rest => some (.moment, rest)
    | .leftBracket :: rest =>
      (readItems fuel rest).map fun (items, rest) => (ofItems items, rest)
    | .leftBrace :: rest => readFields fuel .start empty rest
    | _ => none

/-- Reads the items of an array up to its closing bracket. -/
def readItems : Nat → List Lexeme → Option (List Toml × List Lexeme)
  | 0, _ => none
  | _, .rightBracket :: rest => some ([], rest)
  | fuel + 1, lexemes =>
    match readValue fuel lexemes with
    | none => none
    | some (value, rest) =>
      match rest with
      | .comma :: rest => (readItems fuel rest).map fun (items, rest) => (value :: items, rest)
      | .rightBracket :: rest => some ([value], rest)
      | _ => none

/-- Reads the fields of a table up to its closing brace. -/
def readFields : Nat → Before → Toml → List Lexeme → Option (Toml × List Lexeme)
  | 0, _, _, _ => none
  | fuel + 1, before, fields, lexemes =>
    match lexemes with
    | .rightBrace :: rest =>
      if before = .comma then none
      else
        match fields with
        | .table entries _ => some (.table entries true, rest)
        | _ => none
    | .comma :: rest => if before = .comma then none else readFields fuel .comma fields rest
    | .key name :: .equals :: rest =>
      if before = .field then none
      else
        match keyPath? name, readValue fuel rest with
        | some (path, last), some (value, rest) =>
          readFields fuel .field (put value (path ++ [last]) fields) rest
        | _, _ => none
    | _ => none

end

/-- A document as far as it is read. -/
structure Draft where
  root : Toml := .empty
  /-- The path of the table that assignments go to. -/
  current : List String := []
  /-- The headers read, as they are written. -/
  headers : List String := []

/-- A draft after a header in brackets, which may not come twice. -/
def Draft.enterTable (d : Draft) (name : String) : Option Draft :=
  if d.headers.contains name then none
  else
    match keyPath? name with
    | none => none
    | some (path, last) =>
      let path := path ++ [last]
      (d.root.alter? (fun t => if t.isClosed then none else some t) path).map fun root =>
        { root, current := path, headers := name :: d.headers }

/-- A draft after a header in double brackets, which adds a table to an array.  What stood under the
array before may be named again. -/
def Draft.enterArray (d : Draft) (name : String) : Option Draft :=
  match keyPath? name with
  | none => none
  | some (above, last) =>
    let path := above ++ [last]
    let root := (d.root.alter? some above).getD d.root
    let grown : Option Toml :=
      match root.get? path with
      | none => some (.tables empty [])
      | some (.tables newest older) => some (.tables empty (newest :: older))
      | some _ => none
    grown.map fun array =>
      { root := put array path root
        current := path
        headers := name :: d.headers.filter fun h => !h.startsWith (name ++ ".") }

/-- A draft after an assignment. -/
def Draft.assign (d : Draft) (name : String) (value : Toml) : Option Draft := do
  let (path, last) ← keyPath? name
  let root ← d.root.define? (d.current ++ path) last value
  some { d with root }

/-- Reads headers and assignments, in at most `fuel` steps. -/
def readStatements : Nat → Draft → List Lexeme → Option Toml
  | _, d, [] => some d.root
  | 0, _, _ => none
  | fuel + 1, d, lexemes =>
    match lexemes with
    | .header name :: rest => (d.enterTable name).bind (readStatements fuel · rest)
    | .arrayHeader name :: rest => (d.enterArray name).bind (readStatements fuel · rest)
    | .key name :: .equals :: rest =>
      match readValue (rest.length + 1) rest with
      | some (value, rest) => (d.assign name value).bind (readStatements fuel · rest)
      | none => none
    | _ => none

/-- Reads a document. -/
def read? (text : String) : Option Toml :=
  (Lexeme.lex? text).bind fun lexemes => readStatements lexemes.length {} lexemes

end DuckLang.Toml
