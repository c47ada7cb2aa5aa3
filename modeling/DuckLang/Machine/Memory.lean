import DuckLang.Value

/-! Memories: values by address. -/

namespace DuckLang

/-- A store of values by address, each address listed once. -/
structure Memory where
  cells : List (Int × Value) := []

namespace Memory

/-- The cells with one of them set, in its old place if it has one. -/
def setCell (address : Int) (v : Value) : List (Int × Value) → List (Int × Value)
  | [] => [(address, v)]
  | (a, w) :: rest => if a = address then (address, v) :: rest else (a, w) :: setCell address v rest

/-- The value at an address, if one was written. -/
def get? (m : Memory) (address : Int) : Option Value :=
  m.cells.lookup address

/-- The memory with a value written. -/
def set (m : Memory) (address : Int) (v : Value) : Memory :=
  { cells := setCell address v m.cells }

end Memory

end DuckLang
