import DuckLang.Proofs.Duck.Compile
import DuckLang.Proofs.Machine.Safety

/-! Running what was compiled.  The program of a source text is laid out along the points of its
draft, so a run of it only ever stops with a cause that the text or the console is to blame for. -/

namespace DuckLang

open Emitter

/-- A source text that compiles to a program, with the parse that the program comes from. -/
structure Compiles (table : Table) (name source : String) (parsed : Parser) (program : Program) :
    Prop where
  parse : ∃ tokens fuel, tokenize source = .ok tokens ∧
    Parser.run table fuel (.start tokens) = .accepted parsed
  exported : exportParsed parsed name = .program program

/-- A source text compiles to the programs that `compile` gives. -/
theorem compiles_iff {table : Table} {name source : String} {program : Program} :
    (∃ parsed, Compiles table name source parsed program) ↔
      ∃ fuel, compile fuel table name source = .program program := by
  constructor
  · rintro ⟨parsed, ⟨tokens, fuel, htokens, hrun⟩, hexported⟩
    exact ⟨fuel, by simp only [compile, htokens, hrun, hexported]⟩
  · rintro ⟨fuel, hcompile⟩
    simp only [compile] at hcompile
    split at hcompile
    · cases hcompile
    · rename_i tokens htokens
      split at hcompile
      · rename_i parsed hrun
        exact ⟨parsed, ⟨tokens, fuel, htokens, hrun⟩, hcompile⟩
      · cases hcompile
      · cases hcompile

namespace Duck

/-- What was compiled is laid out, if there is room for its temporaries. -/
theorem laidOut {name source : String} {parsed : Parser} {program : Program}
    (h : Compiles Grammar.duck.table name source parsed program)
    (htemps : parsed.emitter.temps.highWater ≤ Address.rangeSize) :
    ∃ points, program.LaidOut parsed.emitter.scope points := by
  obtain ⟨⟨tokens, fuel, htokens, hrun⟩, hexported⟩ := h
  obtain ⟨past, hvalid, hmain⟩ := accepted_valid htokens hrun
  simp only [exportParsed] at hexported
  rcases hvalid.export_cases hmain (if parsed.emitter.scope.program = "" then name else
    parsed.emitter.scope.program) with ⟨type, herror⟩ | ⟨pool, hok⟩
  · rw [herror] at hexported
    cases hexported
  · rw [hok] at hexported
    obtain rfl := Compiled.program.inj hexported
    refine ⟨past ++ [parsed.emitter.point], ⟨_, hvalid.names⟩, ⟨_, htemps, hvalid.laid⟩, ?_,
      hmain.marked, ?_⟩
    · intro q hq
      obtain ⟨i, hi⟩ := Array.mem_iff_getElem?.mp hq
      exact hvalid.resolved hmain hi
    · intro P hP
      rw [← hvalid.length, last_point] at hP
      obtain rfl := Option.some.inj hP
      exact hmain.rest.calls

/-- Whatever the console does and however long it runs, a program that was compiled with room for
its temporaries stops, if it faults, with a variable that was never written, a division by zero, a
function that gives no value, one call too many, or a console that fails or gives a text that is no
value. -/
theorem run_faults_listed {table : Table} (htable : Grammar.duckTable = .ok table)
    {name source : String} {parsed : Parser} {program : Program}
    (hcompiles : Compiles table name source parsed program)
    (htemps : parsed.emitter.temps.highWater ≤ Address.rangeSize)
    {κ : Type} [Console κ] (globals : Memory) (console : κ) (limit : Int) (steps : Nat)
    {f : Fault} {m : Machine κ}
    (hrun : Machine.run program limit steps (.start program globals console) = .faulted f m) :
    f.cause.IsListed parsed.emitter.scope program.functions m.frame.function.name := by
  obtain rfl : Grammar.duck.table = table :=
    Except.ok.inj (Grammar.duckTable_eq.symm.trans htable)
  obtain ⟨points, hlaid⟩ := laidOut hcompiles htemps
  exact Machine.run_listed hlaid globals console limit steps hrun

/-- What the parse of a source text has emitted when it accepts, and the program of that. -/
def compiled? (steps : Nat) (source : String) : Option (Emitter × Program) :=
  match parse? steps source with
  | some (tokens, q) =>
    let parsed := { Parser.start tokens with emitter := q.emitter }
    match q.accepts Grammar.duck, exportParsed parsed "" with
    | true, .program program => some (q.emitter, program)
    | _, _ => none
  | none => none

theorem compiled_spec {steps : Nat} {source : String} {e : Emitter} {program : Program}
    (h : compiled? steps source = some (e, program)) :
    ∃ parsed, Compiles Grammar.duck.table "" source parsed program ∧ parsed.emitter = e := by
  simp only [compiled?] at h
  split at h
  · rename_i tokens q hparse
    obtain ⟨htokens, p, hrun, htracks⟩ := parse_spec hparse
    split at h
    · rename_i haccepts hexported
      obtain ⟨rfl, rfl⟩ := Prod.mk.inj (Option.some.inj h)
      refine ⟨p, ⟨⟨tokens, steps + 1, htokens, ?_⟩, ?_⟩, htracks.emitter⟩
      · rw [hrun]
        exact htracks.accepted Grammar.duck_proper (List.isEmpty_iff.mp Grammar.duck_conflicts)
          haccepts 0
      · rw [← hexported]
        simp only [exportParsed, htracks.emitter]
    · cases h
  · cases h

/-- A program that writes a variable which has no value yet. -/
def readsEarly : String :=
  "program p; var int x; main \x7b write(x); \x7d end"

set_option maxRecDepth 1000000 in
theorem readsEarly_compiled : (compiled? 36 readsEarly).map (fun (e, program) =>
      (e.temps.highWater, (Machine.run program Machine.defaultLimit 1
        (.start program {} ({} : Console.Scripted))).fault?)) =
    some (0, some { index := 0, op := .write, cause := .unwritten .globals 1000 }) := by
  decide +kernel

theorem run_faults_listed_readsEarly : ∃ parsed program f m,
    Compiles Grammar.duck.table "" readsEarly parsed program ∧
      Machine.run program Machine.defaultLimit 1
        (.start program {} ({} : Console.Scripted)) = .faulted f m ∧
      f.cause = .unwritten .globals 1000 ∧
      f.cause.IsListed parsed.emitter.scope program.functions m.frame.function.name := by
  obtain ⟨⟨e, program⟩, hcompiled, hfacts⟩ := Option.map_eq_some_iff.mp readsEarly_compiled
  obtain ⟨htemps, hfault⟩ := Prod.mk.inj hfacts
  obtain ⟨parsed, hcompiles, rfl⟩ := compiled_spec hcompiled
  obtain ⟨m, hrun⟩ : ∃ m, Machine.run program Machine.defaultLimit 1
      (.start program {} ({} : Console.Scripted)) =
        .faulted { index := 0, op := .write, cause := .unwritten .globals 1000 } m := by
    cases hrun : Machine.run program Machine.defaultLimit 1
        (.start program {} ({} : Console.Scripted)) with
    | faulted f m =>
      rw [hrun] at hfault
      obtain rfl := Option.some.inj hfault
      exact ⟨m, rfl⟩
    | _ =>
      rw [hrun] at hfault
      cases hfault
  refine ⟨parsed, program, _, m, hcompiles, hrun, rfl, ?_⟩
  exact run_faults_listed Grammar.duckTable_eq hcompiles (by simp [htemps]) _ _ _ _ hrun

end Duck

end DuckLang
