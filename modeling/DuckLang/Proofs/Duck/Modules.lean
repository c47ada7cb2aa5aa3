import DuckLang.Proofs.Duck.Run
import DuckLang.Proofs.Duck.Script
import DuckLang.Proofs.Duck.Types
import DuckLang.Proofs.Llvm.Modules

/-! Modules of compiled programs.  The operations of a parse that accepts are a script, so the
program that comes of it has its functions in a line, and what is compiled with room for its
temporaries has an LLVM module. -/

namespace DuckLang

open Emitter

namespace Duck

variable {name source : String} {tokens : List Token} {fuel : Nat} {parsed : Parser}
  {program : Program}

/-! ### Programs of a parse -/

theorem exported_fields (htokens : tokenize source = .ok tokens)
    (hrun : Parser.run Grammar.duck.table fuel (.start tokens) = .accepted parsed)
    (hexported : exportParsed parsed name = .program program) :
    (∃ name, parsed.emitter.exportProgram name = .ok program) ∧
      program.quads = parsed.emitter.quads ∧ program.functions = parsed.emitter.functions ∧
      program.globals = .ofCounts parsed.emitter.allocator.globals := by
  obtain ⟨past, hvalid, hmain⟩ := accepted_valid htokens hrun
  simp only [exportParsed] at hexported
  rcases hvalid.export_cases hmain (if parsed.emitter.scope.program = "" then name else
    parsed.emitter.scope.program) with ⟨type, herror⟩ | ⟨pool, hok⟩
  · rw [herror] at hexported
    cases hexported
  · rw [hok] at hexported
    obtain rfl := Compiled.program.inj hexported
    exact ⟨⟨_, hok⟩, rfl, rfl, rfl⟩

/-- What was compiled has its slots, if there is room for its temporaries. -/
theorem sited (htokens : tokenize source = .ok tokens)
    (hrun : Parser.run Grammar.duck.table fuel (.start tokens) = .accepted parsed)
    (hexported : exportParsed parsed name = .program program)
    (htemps : parsed.emitter.temps.highWater ≤ Address.rangeSize) :
    ∃ points, Llvm.Sited program parsed.emitter.scope points := by
  obtain ⟨points, hlaid⟩ := laidOut ⟨⟨tokens, fuel, htokens, hrun⟩, hexported⟩ htemps
  obtain ⟨⟨_, hok⟩, _, _, hglobals⟩ := exported_fields htokens hrun hexported
  obtain ⟨script, hscript⟩ := accepted_script hrun
  have hperforms : Performs script.commands {} parsed.emitter :=
    hscript ▸ Parser.performs_run (.inr hrun)
  have hchanges := changes_commands script.commands {}
  rw [hperforms.foldl] at hchanges
  refine ⟨points, hlaid, ?_, ?_⟩
  · -- the globals were handed out one after the other
    intro entry hentry symbol hsymbol
    obtain ⟨n, hn, hplace⟩ := (Storage.Sound.empty.changes hchanges).globals hentry symbol hsymbol
    have hle := Storage.within_of_changes hchanges Allocator.within_empty .globals symbol.type
    refine ⟨_, hplace, ?_⟩
    rw [Llvm.globalSize_eq hglobals (Nat.lt_of_le_of_lt n.zero_le hn) hle]
    exact hn
  · -- the temporaries were minted, for types with storage
    have hminted : Minted Storable ⟨{}, parsed.emitter⟩ := by
      rw [← hperforms.foldl]
      exact Minted.empty.commands (fun _ htype => htype) Accounts.empty script.lawful
    refine (hminted.placesTemps_iff hok).mpr ⟨htemps, fun q hq t ht => ?_⟩
    rw [exportProgram_quads hok] at hq
    exact (hminted.quads q hq t ht).2.2

theorem outlined (htokens : tokenize source = .ok tokens)
    (hrun : Parser.run Grammar.duck.table fuel (.start tokens) = .accepted parsed)
    (hexported : exportParsed parsed name = .program program) :
    ∃ lead parts main,
      Finished (Parser.commands Grammar.duck.table fuel (.start tokens)) lead parts main
        parsed.emitter ∧
      Llvm.Outline parsed.emitter.scope.signature? program lead (parts ++ [main]) := by
  obtain ⟨past, hvalid, hmain⟩ := accepted_valid htokens hrun
  obtain ⟨_, hquads, hfunctions, _⟩ := exported_fields htokens hrun hexported
  obtain ⟨script, hscript⟩ := accepted_script hrun
  have hperforms : Performs script.commands {} parsed.emitter :=
    hscript ▸ Parser.performs_run (.inr hrun)
  have hreserved : parsed.emitter.scope.signature? mainName = none := by
    rw [Scope.signature?, hvalid.names.reserved]
    rfl
  obtain ⟨lead, parts, main, hfinished⟩ := script.finished hperforms hreserved
  rw [hscript]
  refine ⟨lead, parts, main, hfinished, ?_, ?_, hfinished.inLine, ?_⟩
  · rw [hquads]
    exact hfinished.quads
  · rw [hfunctions]
    exact hfinished.functions
  · rw [hfunctions]
    exact hmain.marked

/-! ### Modules -/

end Duck

/-- The quadruples of a range are what operations emit from the header of its function through its
end, or from the start of the main body through that of the program. -/
def Llvm.Range.IsEmitted (r : Range) (commands : List Command) : Prop :=
  if r.function.name = mainName then Emits commands .markMain .finish r.start r.stop
  else ∃ returns,
    Emits commands (.beginFunction r.function.name returns) .endFunction r.start r.stop

namespace Duck

/-- Whatever was compiled with room for its temporaries has a module; the functions of the program
are split into ranges, and the range of each of them is what was emitted for it. -/
theorem modules_made {table : Table} (htable : Grammar.duckTable = .ok table)
    {name source : String} {tokens : List Token} {fuel : Nat} {parsed : Parser}
    {program : Program} (htokens : tokenize source = .ok tokens)
    (hrun : Parser.run table fuel (.start tokens) = .accepted parsed)
    (hexported : exportParsed parsed name = .program program)
    (htemps : parsed.emitter.temps.highWater ≤ Address.rangeSize) :
    (∃ module, Llvm.moduleOf program = .ok module) ∧
    ∃ ranges, Llvm.splitFunctions program = .ok ranges ∧
      ranges.map (·.function) = program.functions.map (·.2) ∧
      ∀ r ∈ ranges, r.IsEmitted (Parser.commands table fuel (.start tokens)) := by
  obtain rfl : Grammar.duck.table = table :=
    Except.ok.inj (Grammar.duckTable_eq.symm.trans htable)
  obtain ⟨points, hsited⟩ := sited htokens hrun hexported htemps
  obtain ⟨lead, parts, main, hfinished, houtline⟩ := outlined htokens hrun hexported
  refine ⟨hsited.module houtline, _, houtline.splitFunctions, ?_, ?_⟩
  · simp [houtline.functions, Llvm.rangeOf]
  · intro r hr
    obtain ⟨part, hpart, rfl⟩ := List.mem_map.mp hr
    show if part.info.name = mainName then _ else _
    rcases List.mem_append.mp hpart with hfunction | hmain
    · rw [if_neg (hfinished.others part hfunction)]
      exact hfinished.emitted part hfunction
    · obtain rfl := List.mem_singleton.mp hmain
      rw [if_pos hfinished.named]
      exact hfinished.last

/-- A program with a function, whose calls wait for each other, has its module. -/
theorem modules_made_echoes : ∃ tokens fuel parsed program ranges,
    tokenize echoes = .ok tokens ∧
    Parser.run Grammar.duck.table fuel (.start tokens) = .accepted parsed ∧
    exportParsed parsed "" = .program program ∧ parsed.emitter.temps.highWater = 1 ∧
    (∃ module, Llvm.moduleOf program = .ok module) ∧
    Llvm.splitFunctions program = .ok ranges ∧
    ranges.map (·.function) = program.functions.map (·.2) ∧
    ∀ r ∈ ranges, r.IsEmitted (Parser.commands Grammar.duck.table fuel (.start tokens)) := by
  obtain ⟨parsed, program, ⟨⟨tokens, fuel, htokens, hrun⟩, hexported⟩, htemps, _⟩ := echoes_spec
  obtain ⟨hmodule, ranges, hranges⟩ := modules_made Grammar.duckTable_eq htokens hrun hexported
    (by simp [htemps, Address.rangeSize])
  exact ⟨tokens, fuel, parsed, program, ranges, htokens, hrun, hexported, htemps, hmodule, hranges⟩

end Duck

end DuckLang
