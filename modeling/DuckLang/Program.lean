import DuckLang.Allocator
import DuckLang.Quad

/-! Programs: the quadruples, the directory of functions and the tables of constants and strings
that the compiler freezes and the machine runs. -/

namespace DuckLang

/-- A formal parameter: its type and the local address it is read from. -/
structure Param where
  type : DataType
  address : Int
  deriving DecidableEq

/-- What callers and the machine know of a function. -/
structure FunctionInfo where
  name : String
  /-- The index of its first quadruple. -/
  entry : Int
  returns : DataType := .void
  /-- Whether it gives a value back. -/
  hasReturn : Bool := returns ≠ .void
  params : List Param := []
  /-- The number of its parameters, as it is listed. -/
  paramCount : Int := params.length
  deriving DecidableEq

/-- A function with a parameter more. -/
def FunctionInfo.addParam (f : FunctionInfo) (param : Param) : FunctionInfo :=
  { f with params := f.params ++ [param], paramCount := f.paramCount + 1 }

/-- The name under which the main body is listed. -/
def mainName : String := "main"

/-- Functions by name, each name listed once. -/
abbrev Directory := List (String × FunctionInfo)

namespace Directory

/-- The function listed under a name. -/
def get? (d : Directory) (name : String) : Option FunctionInfo :=
  (d.find? (·.1 = name)).map (·.2)

/-- The directory with a name listed anew, in its old place if it has one. -/
def set (d : Directory) (name : String) (f : FunctionInfo) : Directory :=
  match d with
  | [] => [(name, f)]
  | entry :: rest =>
    if entry.1 = name then (name, f) :: rest else entry :: Directory.set rest name f

end Directory

/-- How many global slots of each type a program states to use. -/
structure Program.Slots where
  int : Int := 0
  float : Int := 0
  char : Int := 0
  deriving DecidableEq

/-- A program, ready to run. -/
structure Program where
  name : String
  quads : Array Quad
  functions : Directory
  constants : List (Int × Value)
  strings : List Bytes
  globals : Program.Slots

namespace Program

/-- The slots that an allocator handed out. -/
def Slots.ofCounts (c : Counts) : Slots :=
  { int := c.int, float := c.float, char := c.char }

/-- The number of slots of a type; 0 for a type without storage. -/
def Slots.get (s : Slots) : DataType → Int
  | .int => s.int
  | .float => s.float
  | .char => s.char
  | _ => 0

/-- The main body; it starts at the first quadruple unless the directory lists it. -/
def main (p : Program) : FunctionInfo :=
  (p.functions.get? mainName).getD { name := mainName, entry := 0 }

/-- The constant at an address. -/
def constant? (p : Program) (address : Int) : Option Value :=
  (p.constants.find? (·.1 = address)).map (·.2)

/-- The entry of the string table at an index. -/
def string? (p : Program) (index : Int) : Option Bytes :=
  if 0 ≤ index then p.strings[index.toNat]? else none

/-- The columns of every quadruple. -/
def rows (p : Program) : List (List String) :=
  p.quads.toList.map Quad.row

/-- The line of a listing for a function. -/
def functionLine (entry : String × FunctionInfo) : String :=
  let (name, f) := entry
  let returns := if f.hasReturn then f.returns.name else DataType.void.name
  s!"func {name}: entry L{f.entry}, returns {returns}, {f.paramCount} params\n"

/-- The listing of a program: its functions by name, its constants by address, its strings and then
its quadruples, each with its index. -/
def listing (p : Program) : String :=
  let functions := p.functions.mergeSort fun a b => a.1 ≤ b.1
  let constants := p.constants.mergeSort fun a b => a.1 ≤ b.1
  s!"program {p.name}\n"
    ++ String.join (functions.map functionLine)
    ++ String.join (constants.map fun (address, v) => s!"const @{address} = {v.text}\n")
    ++ String.join (p.strings.zipIdx.map fun (s, i) =>
        s!"string s{i} = {Text.Quoted.quoteBytes s}\n")
    ++ String.join (p.quads.toList.zipIdx.map fun (q, i) =>
        Text.padLeft 4 (toString i) ++ "  " ++ q.render ++ "\n")

/-- A double as a saved program keeps it: a zero is not written, so its sign is lost. -/
def savedFloat (x : Float) : Float :=
  if x == 0 then 0 else x

/-- A value as a saved program keeps it. -/
def savedValue : Value → Value
  | .float x => .float (savedFloat x)
  | v => v

/-- An operand as a saved program keeps it. -/
def savedOperand : Operand → Operand
  | .floatLiteral x => .floatLiteral (savedFloat x)
  | operand => operand

/-- A quadruple as a saved program keeps it. -/
def savedQuad (q : Quad) : Quad :=
  { q with
    left := savedOperand q.left
    right := savedOperand q.right
    result := savedOperand q.result }

/-- A program as it is read back after it was saved. -/
def saved (p : Program) : Program :=
  { p with
    quads := p.quads.map savedQuad
    constants := p.constants.map fun (address, v) => (address, savedValue v) }

end Program

end DuckLang
