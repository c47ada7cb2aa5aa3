import DuckLang.Diagnostic
import DuckLang.Value

/-! Storage.  An allocator hands out the addresses of each range one after the other; a constant
pool gives equal constants one address.  A request that fails leaves its state behind as well. -/

namespace DuckLang

/-- A count for each type with storage. -/
structure Counts where
  int : Nat := 0
  float : Nat := 0
  char : Nat := 0
  deriving DecidableEq

namespace Counts

/-- The count of a type; 0 for a type without storage. -/
def get (c : Counts) : DataType → Nat
  | .int => c.int
  | .float => c.float
  | .char => c.char
  | _ => 0

/-- The counts with that of one type replaced. -/
def set (c : Counts) (type : DataType) (n : Nat) : Counts :=
  match type with
  | .int => { c with int := n }
  | .float => { c with float := n }
  | .char => { c with char := n }
  | _ => c

end Counts

/-- How many addresses of each range have been handed out. -/
structure Allocator where
  globals : Counts := {}
  locals : Counts := {}
  temporaries : Counts := {}
  constants : Counts := {}
  deriving DecidableEq

namespace Allocator

/-- The counts of a segment. -/
def segment (a : Allocator) : Segment → Counts
  | .globals => a.globals
  | .locals => a.locals
  | .temporaries => a.temporaries
  | .constants => a.constants

/-- The allocator with the counts of one segment replaced. -/
def setSegment (a : Allocator) (segment : Segment) (counts : Counts) : Allocator :=
  match segment with
  | .globals => { a with globals := counts }
  | .locals => { a with locals := counts }
  | .temporaries => { a with temporaries := counts }
  | .constants => { a with constants := counts }

/-- The number of addresses handed out of a range. -/
def used (a : Allocator) (segment : Segment) (type : DataType) : Nat :=
  (a.segment segment).get type

/-- Hands out the next address of a range. -/
def alloc (a : Allocator) (segment : Segment) (type : DataType) :
    EStateM.Result Cause Allocator Int :=
  if !type.isStorable then .error (.noStorage type) a
  else
    let n := a.used segment type
    if Address.rangeSize ≤ n then .error (.outOfMemory segment type) a
    else
      .ok (Address.low segment type + n)
        (a.setSegment segment ((a.segment segment).set type (n + 1)))

/-- The allocator with its local ranges empty again. -/
def resetLocals (a : Allocator) : Allocator :=
  { a with locals := {} }

end Allocator

/-- Constants with their addresses, in the order in which they were first asked for. -/
structure ConstantPool where
  entries : List (Int × Value) := []

namespace ConstantPool

/-- The address of a pooled constant. -/
def find? (pool : ConstantPool) (v : Value) : Option Int :=
  (pool.entries.find? fun entry => entry.2.sameConstant v).map (·.1)

/-- The address of a constant, handed out if there is no equal one yet. -/
def address (pool : ConstantPool) (a : Allocator) (v : Value) :
    EStateM.Result Cause (ConstantPool × Allocator) Int :=
  match pool.find? v with
  | some address => .ok address (pool, a)
  | none =>
    match a.alloc .constants v.type with
    | .ok address a => .ok address ({ entries := pool.entries ++ [(address, v)] }, a)
    | .error cause a => .error cause (pool, a)

/-- The addresses of constants, one after the other. -/
def addAll (pool : ConstantPool) (a : Allocator) :
    List Value → EStateM.Result Cause (ConstantPool × Allocator) Unit
  | [] => .ok () (pool, a)
  | v :: vs =>
    match pool.address a v with
    | .ok _ (pool, a) => pool.addAll a vs
    | .error cause left => .error cause left

end ConstantPool

end DuckLang
