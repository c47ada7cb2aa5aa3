import DuckLang.DataType

/-! The memory map.  Addresses from `base` on are cut into ranges of `rangeSize` slots: four
segments in the order global, local, temporary, constant, each with one range for ints, one for
floats and one for chars. -/

namespace DuckLang

/-- A segment of the memory map. -/
inductive Segment where
  | globals
  | locals
  | temporaries
  | constants
  deriving DecidableEq

namespace Segment

/-- The position of a segment in the memory map. -/
def index : Segment → Nat
  | globals => 0
  | locals => 1
  | temporaries => 2
  | constants => 3

/-- The word for a segment in messages. -/
def name : Segment → String
  | globals => "global"
  | locals => "local"
  | temporaries => "temporary"
  | constants => "constant"

/-- The segments in address order. -/
def all : List Segment := [globals, locals, temporaries, constants]

/-- The segment at a position of the memory map. -/
def ofIndex? (index : Int) : Option Segment :=
  all.find? fun s => (s.index : Int) == index

/-- The word for the segment at a position, also for one outside of the memory map. -/
def nameOfIndex (index : Int) : String :=
  match ofIndex? index with
  | some segment => segment.name
  | none => "<invalid segment>"

end Segment

namespace Address

/-- The lowest address of the memory map. -/
def base : Int := 1000

/-- The number of slots of a range. -/
def rangeSize : Nat := 2000

/-- The first address past the memory map. -/
def limit : Int := base + 12 * rangeSize

/-- The number that the low 64 bits of an integer are with a sign. -/
def wrap (n : Int) : Int :=
  n.bmod 0x10000000000000000

/-- The lowest address of the range at a segment position for a type, also for a position outside
of the memory map. -/
def lowAt (segment : Int) (type : DataType) : Int :=
  wrap (base + (segment * 3 + type.code) * rangeSize)

/-- The first address past the range at a segment position for a type. -/
def highAt (segment : Int) (type : DataType) : Int :=
  wrap (lowAt segment type + rangeSize)

/-- The lowest address of the range of a segment for a type. -/
def low (segment : Segment) (type : DataType) : Int :=
  base + (segment.index * 3 + type.code) * rangeSize

/-- The address of a temporary. -/
def ofTemporary (type : DataType) (id : Int) : Int :=
  wrap (low .temporaries type + id)

/-- Where an address lies in the memory map. -/
structure Place where
  segment : Segment
  type : DataType
  offset : Nat
  deriving DecidableEq

/-- The segment and type of the range at a position counted from the base. -/
def rangeAt : Nat → Segment × DataType
  | 0 => (.globals, .int)
  | 1 => (.globals, .float)
  | 2 => (.globals, .char)
  | 3 => (.locals, .int)
  | 4 => (.locals, .float)
  | 5 => (.locals, .char)
  | 6 => (.temporaries, .int)
  | 7 => (.temporaries, .float)
  | 8 => (.temporaries, .char)
  | 9 => (.constants, .int)
  | 10 => (.constants, .float)
  | _ => (.constants, .char)

/-- The place of an address; none outside of the memory map. -/
def place? (address : Int) : Option Place :=
  if base ≤ address ∧ address < limit then
    let distance := (address - base).toNat
    let (segment, type) := rangeAt (distance / rangeSize)
    some { segment, type, offset := distance % rangeSize }
  else none

end Address

end DuckLang
