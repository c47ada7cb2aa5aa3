import DuckLang.Proofs.Duck.Run
import DuckLang.Proofs.Machine.Typing

/-! The types of a program that was compiled.  Its static types are those of the values it computes
with, so nothing is ever converted but an int to a float. -/

namespace DuckLang.Duck

open Emitter

/-- The names of a program that was compiled have addresses of their own, in ranges of their
types. -/
theorem scope_orderly {table : Table} {name source : String} {parsed : Parser} {program : Program}
    (h : Compiles table name source parsed program) : parsed.emitter.scope.Orderly := by
  obtain ⟨⟨tokens, fuel, _, hrun⟩, _⟩ := h
  have hsound := Parser.storage_sound table fuel tokens
  rw [hrun] at hsound
  exact hsound.entries

/-- Wherever a run of a program gets that was compiled with room for its temporaries, what can be
loaded through an operand of the quadruple there has the static type of that operand.  The step puts
every value that it stores, passes on or gives back into the memories as it is, or as the float of
an int, and if it stops it puts nothing there. -/
theorem run_types {table : Table} (htable : Grammar.duckTable = .ok table)
    {name source : String} {parsed : Parser} {program : Program}
    (hcompiles : Compiles table name source parsed program)
    (htemps : parsed.emitter.temps.highWater ≤ Address.rangeSize)
    {κ : Type} [Console κ] {globals : Memory} (hglobals : globals.Typed) (console : κ)
    (limit : Int) (steps : Nat) {m : Machine κ}
    (hrun : Machine.run program limit steps (.start program globals console) = .unfinished m)
    {q : Quad} (hquad : Machine.quad? program m.index = some q) :
    (∀ operand ∈ q.operands, ∀ v, Machine.load program m operand = .ok v →
      v.type = operand.type) ∧
    (Machine.step program limit m).Obeys Machine.Widened program m q := by
  obtain rfl : Grammar.duck.table = table :=
    Except.ok.inj (Grammar.duckTable_eq.symm.trans htable)
  obtain ⟨points, hlaid⟩ := laidOut hcompiles htemps
  have hscope := scope_orderly hcompiles
  obtain ⟨k₀, hstart⟩ := Machine.At.start hlaid globals console
  obtain ⟨k, P, hat⟩ := hstart.unfinished hlaid limit steps hrun
  have htyped := (Machine.Forall.start (p := program) hglobals console).run (p := program)
    Machine.settles_hasRangeType limit steps
  rw [hrun] at htyped
  rw [hat.quad?_eq] at hquad
  exact ⟨fun operand hmem v hload => hat.load_type hlaid hscope htyped hquad hmem hload,
    hat.obeys hlaid hscope htyped hquad limit⟩

/-- What shows of a machine: where it stands, what it does next and how many callers wait. -/
structure Glimpse where
  index : Int
  op : Option Opcode
  callers : Nat
  deriving DecidableEq

/-- What shows of the first machines of a run without input. -/
def glimpses (program : Program) (steps : Nat) : List (Option Glimpse) :=
  (List.range steps).map fun n =>
    match Machine.run program Machine.defaultLimit n
        (.start program {} ({} : Console.Scripted)) with
    | .unfinished m =>
      some { index := m.index, op := (Machine.quad? program m.index).map (·.op),
             callers := m.callers.length }
    | _ => none

theorem glimpses_spec {program : Program} {steps : Nat} {all : List (Option Glimpse)}
    (hall : glimpses program steps = all) (n : Nat) {seen : Glimpse}
    (h : all[n]? = some (some seen)) :
    ∃ m, Machine.Reaches program Machine.defaultLimit
        (.start program {} ({} : Console.Scripted)) n m ∧
      m.index = seen.index ∧ (Machine.quad? program m.index).map (·.op) = seen.op ∧
      m.callers.length = seen.callers := by
  rw [← hall, glimpses, List.getElem?_map] at h
  obtain ⟨n', hn', hseen⟩ := Option.map_eq_some_iff.mp h
  obtain rfl : n = n' := by
    have := List.getElem?_eq_some_iff.mp hn'
    simp_all
  split at hseen
  · rename_i m hrun
    obtain rfl := Option.some.inj hseen
    exact ⟨m, hrun, rfl, rfl, rfl⟩
  · cases hseen

/-- A program that calls a function with what that function gives back. -/
def echoes : String :=
  "program p; var int x; func int f(int a)[\x7b return(a); \x7d]; main \x7b x = f(f(1)); \x7d end"

/-- The calls of `echoes` as its run comes to them, the inner one first. -/
def echoesGlimpses : List (Option Glimpse) :=
  [some { index := 3, op := some .announce, callers := 0 },
   some { index := 4, op := some .announce, callers := 0 },
   some { index := 5, op := some .param, callers := 0 },
   some { index := 6, op := some .call, callers := 0 },
   some { index := 1, op := some .giveBack, callers := 1 },
   some { index := 7, op := some .param, callers := 0 },
   some { index := 8, op := some .call, callers := 0 },
   some { index := 1, op := some .giveBack, callers := 1 },
   some { index := 9, op := some .assign, callers := 0 }]

set_option maxRecDepth 1000000 in
theorem echoes_compiled : (compiled? 94 echoes).map (fun (e, program) =>
    (e.temps.highWater, glimpses program 9)) = some (1, echoesGlimpses) := by
  decide +kernel

theorem echoes_spec : ∃ parsed program, Compiles Grammar.duck.table "" echoes parsed program ∧
    parsed.emitter.temps.highWater = 1 ∧ glimpses program 9 = echoesGlimpses := by
  obtain ⟨⟨e, program⟩, hcompiled, hfacts⟩ := Option.map_eq_some_iff.mp echoes_compiled
  obtain ⟨htemps, hglimpses⟩ := Prod.mk.inj hfacts
  obtain ⟨parsed, hcompiles, rfl⟩ := compiled_spec hcompiled
  exact ⟨parsed, program, hcompiles, htemps, hglimpses⟩

theorem run_types_echoes : ∃ parsed program m q,
    Compiles Grammar.duck.table "" echoes parsed program ∧
      Machine.run program Machine.defaultLimit 4
        (.start program {} ({} : Console.Scripted)) = .unfinished m ∧
      Machine.quad? program m.index = some q ∧ q.op = .giveBack ∧
      (∀ operand ∈ q.operands, ∀ v, Machine.load program m operand = .ok v →
        v.type = operand.type) ∧
      (Machine.step program Machine.defaultLimit m).Obeys Machine.Widened program m q := by
  obtain ⟨parsed, program, hcompiles, htemps, hglimpses⟩ := echoes_spec
  obtain ⟨m, hreach, _, hop, _⟩ := glimpses_spec hglimpses 4 rfl
  obtain ⟨q, hquad, hop⟩ := Option.map_eq_some_iff.mp hop
  have htypes := run_types Grammar.duckTable_eq hcompiles (by simp [htemps, Address.rangeSize])
    .empty ({} : Console.Scripted) Machine.defaultLimit 4 hreach hquad
  exact ⟨parsed, program, m, q, hcompiles, hreach, hquad, hop, htypes⟩

end DuckLang.Duck
