import DuckLang.Llvm
import DuckLang.Program

/-! What every module starts with: the library functions that it calls, the texts that it prints and
reads with, and the arrays of the global segment. -/

namespace DuckLang.Llvm

/-- The type that holds values of a Duck type. -/
def tyOf : DataType → Ty
  | .float => .double
  | .char => .i8
  | .void => .void
  | _ => .i64

/-- A pointer to bytes. -/
def bytePointer : Ty := .pointer .i8

/-- The library function that prints with a format. -/
def printf : Callee :=
  { name := "printf", returns := .i32, params := [bytePointer], variadic := true }

/-- The library function that reads with a format. -/
def scanf : Callee :=
  { name := "scanf", returns := .i32, params := [bytePointer], variadic := true }

/-- The library function that prints a line. -/
def puts : Callee :=
  { name := "puts", returns := .i32, params := [bytePointer] }

/-- The library function that ends the process. -/
def exitProcess : Callee :=
  { name := "exit", returns := .void, params := [.i32] }

/-- The library functions as they are declared. -/
def declarations : List Declaration :=
  [{ callee := printf, paramNames := ["format"] }, { callee := scanf, paramNames := ["format"] },
   { callee := puts, paramNames := ["s"] }, { callee := exitProcess, paramNames := ["status"] }]

/-- A global text, ended by a zero byte. -/
structure GlobalText where
  name : String
  bytes : Bytes

namespace GlobalText

/-- The type of a global text. -/
def type (t : GlobalText) : Ty :=
  .array (t.bytes.length + 1) .i8

/-- A global text as it is defined. -/
def define (t : GlobalText) : Global :=
  { name := t.name, type := t.type, initial := .text (t.bytes ++ [0]) }

/-- A global text with the given content. -/
def ofString (name content : String) : GlobalText :=
  { name, bytes := Text.Utf8.encode content }

end GlobalText

/-- The format that values of a type are written with. -/
def writeFormat (type : DataType) : GlobalText :=
  .ofString s!"fmt.write.{type.name}" <|
    match type with
    | .float => "%g\n"
    | .char => "%c\n"
    | _ => "%lld\n"

/-- The format that values of a type are read with. -/
def readFormat (type : DataType) : GlobalText :=
  .ofString s!"fmt.read.{type.name}" <|
    match type with
    | .float => " %lf"
    | .char => " %c"
    | _ => " %lld"

/-- The format that texts are written with. -/
def textFormat : GlobalText :=
  .ofString "fmt.write.string" "%s\n"

/-- What is printed on a division by zero. -/
def zeroDivisionText : GlobalText :=
  .ofString "msg.divzero" "runtime error: division by zero"

/-- The global text of an entry of the string table. -/
def stringText (index : Nat) (bytes : Bytes) : GlobalText :=
  { name := s!"duck.str.{index}", bytes }

/-- The name of the array of the global segment for a type. -/
def globalName (type : DataType) : String :=
  s!"duck.global.{type.name}"

/-- The number of sizes that an array can have. -/
def sizeLimit : Int := 0x10000000000000000

/-- The number of slots of the global segment for a type: what the program states, as a size of 64
bits, or one if it states none. -/
def globalSize (p : Program) (type : DataType) : Nat :=
  let n := p.globals.get type
  if n = 0 then 1 else (n % sizeLimit).toNat

/-- The globals of a program. -/
def globals (p : Program) : List Global :=
  let formats := DataType.storable.flatMap fun type => [writeFormat type, readFormat type]
  let texts := formats ++ [textFormat, zeroDivisionText]
  let arrays := DataType.storable.map fun type =>
    { name := globalName type, type := .array (globalSize p type) (tyOf type), initial := .zeros }
  let strings := p.strings.zipIdx.map fun (bytes, i) => stringText i bytes
  texts.map GlobalText.define ++ arrays ++ strings.map GlobalText.define

/-- The function that a Duck function becomes.  The main body becomes that of the process. -/
def calleeOf (f : FunctionInfo) : Callee :=
  if f.name = mainName then { name := "main", returns := .i32, params := [] }
  else
    { name := "duck." ++ f.name
      returns := if f.hasReturn then tyOf f.returns else .void
      params := f.params.map fun p => tyOf p.type }

end DuckLang.Llvm
