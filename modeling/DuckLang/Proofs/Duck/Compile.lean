import DuckLang.Compile
import DuckLang.Proofs.Duck.Follow
import DuckLang.Proofs.Duck.Programs
import DuckLang.Proofs.Duck.Table
import DuckLang.Proofs.Parser.Itemwise

/-! Compiling a source text.  Every compilation ends, in a program or in an error that the text is
to blame for: no invariant of the compiler is ever found broken. -/

namespace DuckLang

open Emitter

/-- An emitter with nothing left open: its stacks are empty and every jump has its target. -/
structure Emitter.Settled (e : Emitter) : Prop where
  operands : e.operands = []
  operators : e.operators = []
  controls : e.controls = []
  calls : e.calls = []
  resolved : ∀ q ∈ e.quads, q.result.isPending = false

theorem Emitter.Valid.settled {e : Emitter} {past : List Point} (h : Valid e past)
    (hmain : InMain e) : Settled e where
  operands := hmain.rest.operands
  operators := hmain.rest.operators
  controls := hmain.controls
  calls := hmain.rest.calls
  resolved q hq := by
    obtain ⟨i, hi⟩ := Array.mem_iff_getElem?.mp hq
    exact h.resolved hmain hi

/-- A compilation that is over and found no invariant of the compiler broken. -/
def Compiled.IsSound : Compiled → Prop
  | program _ => True
  | failed d => d.cause.kind ∈ [.token, .parse, .name, .definition, .type, .usage]
  | unfinished => False

theorem Cause.Expected.isSound {cause : Cause} (h : cause.Expected) (line : Int) :
    (Compiled.failed { cause, line }).IsSound := by
  simp only [Cause.Expected] at h
  simp only [Compiled.IsSound]
  cases hkind : cause.kind <;> rw [hkind] at h <;> first | decide | cases h

namespace Lexer

theorem next_error {l l' : Lexer} {d : Diagnostic} (h : l.next = (.error d, l')) :
    d.cause.kind = .token := by
  simp only [next] at h
  split at h
  · cases h
  · split at h
    · cases h
    · simp only [Prod.mk.injEq, Except.error.injEq] at h
      obtain ⟨rfl, _⟩ := h
      rfl

theorem tokens_error {fuel : Nat} {l : Lexer} {d : Diagnostic} (h : tokens fuel l = .error d) :
    d.cause.kind = .token := by
  induction fuel generalizing l with
  | zero => cases h
  | succ fuel ih =>
    simp only [tokens] at h
    split at h
    · rename_i d' l' hnext
      obtain rfl := Except.error.inj h
      exact next_error hnext
    · split at h
      · cases h
      · split at h
        · cases h
        · rename_i d' htokens
          obtain rfl := Except.error.inj h
          exact ih htokens

end Lexer

namespace Duck

/-- How a parse of the tokens of a source text may end. -/
theorem parse_ends {source : String} {tokens : List Token} (h : tokenize source = .ok tokens)
    (fuel : Nat) :
    discipline.Ends Grammar.duck .blank (Parser.run Grammar.duck.table fuel (.start tokens)) :=
  kept.run Grammar.duck_proper Grammar.duck_fresh fuel
    (Parser.Discipline.Follows.start rfl (tokenize_spelled h))

/-- What a parse has emitted when it accepts. -/
theorem accepted_valid {source : String} {tokens : List Token} (h : tokenize source = .ok tokens)
    {fuel : Nat} {p : Parser}
    (hrun : Parser.run Grammar.duck.table fuel (.start tokens) = .accepted p) :
    ∃ past, p.emitter.Valid past ∧ InMain p.emitter := by
  have hends := parse_ends h fuel
  rw [hrun] at hends
  obtain ⟨as, γ, hemitter, a, rest, _, _, hmade, _, rfl⟩ := hends
  have hprogram : Phrase.program.Made .blank a γ := hmade
  rw [← hemitter]
  exact ⟨γ.past, hprogram⟩

/-- A finished parse is exported, unless the constants have no room. -/
theorem exportParsed_isSound {p : Parser} {past : List Point} (h : p.emitter.Valid past)
    (hmain : InMain p.emitter) (name : String) : (exportParsed p name).IsSound := by
  simp only [exportParsed]
  rcases h.export_cases hmain
    (if p.emitter.scope.program = "" then name else p.emitter.scope.program) with
    ⟨type, herror⟩ | ⟨pool, hok⟩
  · rw [herror]
    have hexpected : Cause.Expected (.outOfMemory .constants type) := rfl
    exact hexpected.isSound 0
  · rw [hok]
    trivial

/-- Whatever the source text, compiling it ends, in a program or in an error of the text, so no
stack is ever found empty and no jump filled in twice; and what a parse leaves when it accepts has
nothing open and every jump filled in. -/
theorem compile_sound : ∃ table, Grammar.duckTable = .ok table ∧ ∀ name source,
    (∃ outcome n, (∀ fuel, n ≤ fuel → compile fuel table name source = outcome) ∧
      outcome.IsSound) ∧
    ∀ tokens fuel p, tokenize source = .ok tokens →
      Parser.run table fuel (.start tokens) = .accepted p → Settled p.emitter := by
  refine ⟨_, Grammar.duckTable_eq, fun name source => ⟨?_, ?_⟩⟩
  · cases htokens : tokenize source with
    | error d =>
      refine ⟨.failed d, 0, fun fuel _ => by simp only [compile, htokens], ?_⟩
      have hkind := Lexer.tokens_error htokens
      simp [Compiled.IsSound, hkind]
    | ok tokens =>
      obtain ⟨n, o, hrun, hended⟩ :=
        Grammar.Duck.measure_fit.halts Grammar.duck_proper (p := .start tokens) .bottom
      have hends := parse_ends htokens n
      rw [hrun n (Nat.le_refl n)] at hends
      cases o with
      | accepted p =>
        refine ⟨exportParsed p name, n, fun fuel hfuel => ?_, ?_⟩
        · simp only [compile, htokens, hrun fuel hfuel]
        · obtain ⟨past, hvalid, hmain⟩ := accepted_valid htokens (hrun n (Nat.le_refl n))
          exact exportParsed_isSound hvalid hmain name
      | failed d p =>
        refine ⟨.failed d, n, fun fuel hfuel => ?_, ?_⟩
        · simp only [compile, htokens, hrun fuel hfuel]
        · rcases hends with hparse | hexpected
          · simp [Compiled.IsSound, hparse]
          · exact Cause.Expected.isSound hexpected d.line
      | unfinished p => exact absurd rfl (hended p)
  · intro tokens fuel p htokens hrun
    obtain ⟨past, hvalid, hmain⟩ := accepted_valid htokens hrun
    exact hvalid.settled hmain

/-! ### Parses that need no table -/

open DuckLang.Parser (Itemwise)

/-- Some steps of a parse by the items of the language. -/
def stepItems? (steps : Nat) (q : Itemwise) : Option Itemwise :=
  q.steps? Grammar.duck Grammar.Duck.follow steps

theorem tracks_steps {q q' : Itemwise} {p : Parser} (h : Itemwise.Tracks Grammar.duck q p)
    {steps : Nat} (hsteps : stepItems? steps q = some q') :
    ∃ p', (∀ fuel, Parser.run Grammar.duck.table (steps + fuel) p =
        Parser.run Grammar.duck.table fuel p') ∧ Itemwise.Tracks Grammar.duck q' p' := by
  rw [stepItems?, ← Grammar.duck_follow] at hsteps
  exact h.steps Grammar.duck_proper (List.isEmpty_iff.mp Grammar.duck_conflicts) hsteps

/-- The tokens of a source text, and where their parse by items is after some steps. -/
def parse? (steps : Nat) (source : String) : Option (List Token × Itemwise) :=
  match tokenize source with
  | .ok tokens => (stepItems? steps (.start tokens)).map fun q => (tokens, q)
  | .error _ => none

theorem parse_spec {steps : Nat} {source : String} {tokens : List Token} {q : Itemwise}
    (h : parse? steps source = some (tokens, q)) : tokenize source = .ok tokens ∧
      ∃ p, (∀ fuel, Parser.run Grammar.duck.table (steps + fuel) (.start tokens) =
        Parser.run Grammar.duck.table fuel p) ∧ Itemwise.Tracks Grammar.duck q p := by
  simp only [parse?] at h
  split at h
  · rename_i tokens' htokens
    obtain ⟨q', hsteps, h⟩ := Option.map_eq_some_iff.mp h
    obtain ⟨rfl, rfl⟩ := Prod.mk.inj h
    exact ⟨htokens, tracks_steps (Itemwise.tracks_start _ _) hsteps⟩
  · cases h

end Duck

end DuckLang
