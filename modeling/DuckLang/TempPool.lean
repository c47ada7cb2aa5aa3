import DuckLang.Ascending

/-! Temporary ids.  A released id is handed out again, lowest first, before a new one is minted. -/

namespace DuckLang

/-- The ids minted so far are those below `next`; `free` lists those not in use, in increasing
order. -/
structure TempPool where
  free : List Int := []
  next : Nat := 0
  deriving DecidableEq

namespace TempPool

/-- Hands out the lowest id that is not in use. -/
def alloc (pool : TempPool) : Int × TempPool :=
  match pool.free with
  | id :: free => (id, { pool with free })
  | [] => (pool.next, { pool with next := pool.next + 1 })

/-- Takes an id back.  An id that is not in use is ignored. -/
def release (pool : TempPool) (id : Int) : TempPool :=
  if 0 ≤ id ∧ id < pool.next then { pool with free := Ascending.insert (· < ·) id pool.free }
  else pool

/-- The number of ids in use. -/
def live (pool : TempPool) : Nat :=
  pool.next - pool.free.length

/-- The number of ids ever minted. -/
def highWater (pool : TempPool) : Nat :=
  pool.next

end TempPool

end DuckLang
