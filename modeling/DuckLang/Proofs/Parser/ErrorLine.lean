import DuckLang.Proofs.Parser.Discipline
import DuckLang.Proofs.Parser.FirstError
import DuckLang.Proofs.Parser.Integrity
import DuckLang.Proofs.Token.Lines

/-! The lines of errors.  The token before the one looked at is the one shifted last, since the end
of the input is never shifted; so a syntax error stands on the line of the token looked at, and what
an effect fails with on the line of the token shifted last, also where the effect is that of the
shift itself. -/

namespace DuckLang.Parser

open Grammar (Proper)
open Token.Kind (endMarker)

variable {g : Grammar} {symbols : List Grammar.Symbol} {k : Nat} {table : Table} {p q : Parser}
  {d : Diagnostic} {c : Cursor} {tokens before : List Token} {last : Token}

/-! ### The token before a place -/

/-- A place in a list of tokens that has the given ones before it. -/
structure Cursor.Behind (c : Cursor) (tokens before : List Token) : Prop where
  split : tokens = before ++ c.lookahead :: c.rest
  previous : c.previous = before.getLast?

theorem Cursor.behind_start (tokens : List Token) (last : Token) :
    (Cursor.start (tokens ++ [last])).Behind (tokens ++ [last]) [] := by
  cases tokens <;> exact ⟨rfl, rfl⟩

theorem Cursor.Behind.lastLine (h : c.Behind tokens before) :
    c.lastLine = (before.getLast?.getD c.lookahead).line := by
  rw [Cursor.lastLine, h.previous]
  cases before.getLast? <;> rfl

/-- Behind a token that does not end the input there is another. -/
theorem Cursor.Behind.advance (h : c.Behind (tokens ++ [last]) before)
    (hlast : last.terminal = endMarker) (hinner : c.lookahead.terminal ≠ endMarker) :
    c.advance.Behind (tokens ++ [last]) (before ++ [c.lookahead]) := by
  have hsplit := h.split
  cases hrest : c.rest with
  | nil =>
    rw [hrest] at hsplit
    obtain ⟨_, heq⟩ := List.append_inj' hsplit rfl
    rw [← (List.cons.inj heq).1] at hinner
    exact absurd hlast hinner
  | cons t ts =>
    rw [hrest] at hsplit
    refine ⟨?_, ?_⟩
    · simp [Cursor.advance, hrest, hsplit]
    · simp [Cursor.advance, hrest]

/-! ### Steps -/

/-- The place after an action: only a shift moves on. -/
def Cursor.after (c : Cursor) : Table.Action → Cursor
  | .shift _ => c.advance
  | _ => c

/-- What a step does, as far as places and lines are concerned. -/
inductive Makes (table : Table) (p : Parser) : Step → Prop
  | next {action : Table.Action} {q : Parser} (made : action? table p = some action)
      (cursor : q.cursor = p.cursor.after action) : Makes table p (.next q)
  | accepted : Makes table p (.accepted p)
  | stuck {state : Int} (none : action? table p = none) :
      Makes table p (.failed (unexpected p.cursor.lookahead state) p)
  | raised {action : Table.Action} {cause : Cause} {q : Parser}
      (made : action? table p = some action) (cursor : q.cursor = p.cursor.after action)
      (raised : Raised cause) : Makes table p (.failed (q.report cause) q)
  | broken {d : Diagnostic} {q : Parser} (internal : d.cause.kind = .internal) :
      Makes table p (.failed d q)

theorem shift_makes {state : Int} (made : action? table p = some (.shift state)) :
    Makes table p (p.shift state) := by
  simp only [shift]
  split
  · exact .next made rfl
  · rename_i heffect
    exact .raised made rfl (.shift heffect)

theorem reduce_makes {index : Int} (made : action? table p = some (.reduce index)) :
    Makes table p (reduce table p index) := by
  simp only [reduce]
  split
  · exact .broken rfl
  split
  · exact .broken rfl
  split
  · rename_i heffect
    exact .raised made rfl (.reduce heffect)
  · split
    · exact .next made rfl
    · exact .broken rfl

theorem step_makes (table : Table) (p : Parser) : Makes table p (step table p) := by
  simp only [step]
  split
  · exact .broken rfl
  · rename_i row hrow
    have haction : action? table p = row.action? p.cursor.lookahead.terminal := by
      rw [action?, hrow, Option.bind_some]
    split
    · rename_i hcell
      exact .stuck (haction.trans hcell)
    · rename_i hcell
      exact shift_makes (haction.trans hcell)
    · rename_i hcell
      exact reduce_makes (haction.trans hcell)
    · exact .accepted

/-- The line of the error that a step fails with. -/
theorem line_of_failed (h : step table p = .failed d q) (hkind : d.cause.kind ≠ .internal) :
    d.line = if d.cause.kind = .parse then q.cursor.lookahead.line else q.cursor.lastLine := by
  have hmakes := step_makes table p
  rw [h] at hmakes
  cases hmakes with
  | stuck none =>
    rw [if_pos (Discipline.unexpected_kind _ _)]
    rfl
  | @raised _ cause _ made cursor raised =>
    have hparse : cause.kind ≠ .parse := by
      intro hparse
      have hparser := isOfParser_of_parse hparse
      simp [raised.isOfParser] at hparser
    exact (if_neg hkind).trans (if_neg hparse).symm
  | broken internal => exact absurd internal hkind

/-- After an action the tokens shifted so far stand before the place. -/
theorem Cursor.Behind.after (h : c.Behind (tokens ++ [last]) before)
    (hlast : last.terminal = endMarker) (action : Table.Action)
    (hinner : ∀ state, action = .shift state → c.lookahead.terminal ≠ endMarker) :
    (c.after action).Behind (tokens ++ [last]) (before ++ shifted [(action, c.lookahead)]) := by
  cases action with
  | shift state => exact h.advance hlast (hinner state rfl)
  | reduce index => exact (List.append_nil before).symm ▸ h
  | accept => exact (List.append_nil before).symm ▸ h

/-- The end of the input is not shifted. -/
theorem Climbs.inner_of_shift (hg : Proper g) (h : Spells g p.stack symbols k) {state : Int}
    (haction : action? g.table p = some (.shift state)) :
    p.cursor.lookahead.terminal ≠ endMarker := by
  obtain ⟨s, hs⟩ := h.state hg
  rcases step_cases h hs with ⟨hnone, _⟩ | ⟨_, _, _, _, i, hi, hnext⟩ | ⟨i, _, hreduce, _⟩ |
    ⟨haccept, _⟩
  · simp [haction] at hnone
  · exact (hg.visible (item_rule hg hs hi) (List.mem_of_getElem? hnext)).1
  · simp [haction] at hreduce
  · simp [haction] at haccept

/-! ### Runs -/

theorem run_failed_line {fuel : Nat} (hrun : run table fuel p = .failed d q)
    (hkind : d.cause.kind ≠ .internal) :
    d.line = if d.cause.kind = .parse then q.cursor.lookahead.line else q.cursor.lastLine := by
  induction fuel generalizing p with
  | zero => cases hrun
  | succ fuel ih =>
    simp only [run] at hrun
    split at hrun
    · exact ih hrun
    · cases hrun
    · rename_i hstep
      obtain ⟨rfl, rfl⟩ := Outcome.failed.inj hrun
      exact line_of_failed hstep hkind

/-- Where a run fails, all that was shifted stands before the place. -/
theorem Climbs.run_behind (hg : Proper g) (hlast : last.terminal = endMarker) (fuel : Nat)
    (h : Spells g p.stack symbols k) (hbehind : p.cursor.Behind (tokens ++ [last]) before)
    (hrun : run g.table fuel p = .failed d q) (hkind : d.cause.kind ≠ .internal) :
    q.cursor.Behind (tokens ++ [last]) (before ++ shifted (actions g.table fuel p)) := by
  induction fuel generalizing p symbols k before with
  | zero => cases hrun
  | succ fuel ih =>
    have hmakes := step_makes g.table p
    simp only [run] at hrun
    simp only [actions]
    cases hstep : step g.table p with
    | accepted p' =>
      rw [hstep] at hrun
      cases hrun
    | next p' =>
      rw [hstep] at hrun hmakes
      cases hmakes with
      | @next action _ made cursor =>
        obtain ⟨_, _, hspells⟩ := h.step_next hg hstep
        have hafter := hbehind.after hlast action fun state haction =>
          h.inner_of_shift hg (haction ▸ made)
        rw [← cursor] at hafter
        have hrest := ih hspells hafter hrun
        rw [made]
        rw [List.append_assoc] at hrest
        cases action <;> exact hrest
    | failed d' p' =>
      rw [hstep] at hrun hmakes
      obtain ⟨rfl, rfl⟩ := Outcome.failed.inj hrun
      cases hmakes with
      | stuck none =>
        rw [none]
        simpa using hbehind
      | @raised action _ _ made cursor raised =>
        have hafter := hbehind.after hlast action fun state haction =>
          h.inner_of_shift hg (haction ▸ made)
        rw [made, cursor]
        exact hafter
      | broken internal => exact absurd internal hkind

/-- A token stands on the line that the newlines before its first character make, a syntax error on
that of the token looked at, and any other error on that of the token shifted last, or of the token
looked at if none was shifted.  Internal errors have no line. -/
theorem errors_lined {source text : String} {tokens : List Token} {g : Grammar} {strict : Bool}
    {table : Table} (htokens : tokenize source = .ok tokens) (hread : Grammar.read text = .ok g)
    (htable : g.buildTable strict = .ok table) :
    (∃ places, Lexical.Places [] source.toList places ∧
      (∀ p ∈ places, p.before ++ p.piece <+: source.toList) ∧
      tokens = places.map Lexical.Place.token ++
        [.endOfInput (Lexical.lineAfter source.toList.dropLast)]) ∧
    ∀ fuel d p, run table fuel (.start tokens) = .failed d p → d.cause.kind ≠ .internal →
      ∃ done, done = shifted (actions table fuel (.start tokens)) ∧
        tokens = done ++ p.cursor.lookahead :: p.cursor.rest ∧
        d.line = if d.cause.kind = .parse then p.cursor.lookahead.line
          else (done.getLast?.getD p.cursor.lookahead).line := by
  obtain ⟨places, hplaces, hprefix, rfl⟩ := Lexical.tokenize_placed htokens
  refine ⟨⟨places, hplaces, hprefix, rfl⟩, fun fuel d p hrun hkind => ?_⟩
  obtain rfl := Grammar.buildTable_eq htable
  have hend : (Token.endOfInput (Lexical.lineAfter source.toList.dropLast)).terminal = endMarker :=
    terminal_endOfInput
  have hbehind := Climbs.run_behind (Grammar.read_proper hread) hend fuel (p := .start _) .bottom
    (Cursor.behind_start _ _) hrun hkind
  refine ⟨_, rfl, hbehind.split, ?_⟩
  rw [run_failed_line hrun hkind, hbehind.lastLine]
  rfl

/-- What a run fails with. -/
def Outcome.diagnostic? : Outcome → Option Diagnostic
  | failed d _ => some d
  | _ => none

theorem Outcome.failed_of_diagnostic? {o : Outcome} (h : o.diagnostic? = some d) :
    ∃ p, o = .failed d p := by
  cases o with
  | failed d' p =>
    obtain rfl := Option.some.inj h
    exact ⟨p, rfl⟩
  | accepted p => cases h
  | unfinished p => cases h

/-- Variables with a semicolon behind. -/
def uses : Grammar :=
  .ofProductions ⟨"Use", [.nonterminal "Factor", .terminal ";"]⟩ [⟨"Factor", [.terminal "id"]⟩]

theorem uses_read : Grammar.read "<Use> → <Factor> ;\n<Factor> → id" = .ok uses := by
  rfl

/-- A variable that is not declared is found out when the semicolon two lines below is looked at,
and reported on its own line. -/
theorem errors_lined_uses :
    ∃ tokens d p, tokenize "//x\nx//\n\n;\n" = .ok tokens ∧
      run uses.table 9 (.start tokens) = .failed d p ∧ d.cause = .undeclaredVariable "x" ∧
      p.cursor.lookahead.line = 4 ∧ d.line = 2 := by
  have htokens : tokenize "//x\nx//\n\n;\n" =
      .ok [⟨.identifier, "x", 2⟩, ⟨.semicolon, ";", 4⟩, .endOfInput 4] := by rfl
  have htable : uses.buildTable false = .ok uses.table := rfl
  obtain ⟨p, hrun⟩ := Outcome.failed_of_diagnostic?
    (o := run uses.table 9 (.start [⟨.identifier, "x", 2⟩, ⟨.semicolon, ";", 4⟩, .endOfInput 4]))
    (d := { cause := .undeclaredVariable "x", line := 2 }) (by decide +kernel)
  obtain ⟨_, rfl, hsplit, hline⟩ := (errors_lined htokens uses_read htable).2 9 _ p hrun (by decide)
  have hdone : shifted (actions uses.table 9 (.start
      [⟨.identifier, "x", 2⟩, ⟨.semicolon, ";", 4⟩, .endOfInput 4])) =
      [⟨.identifier, "x", 2⟩] := by decide +kernel
  rw [hdone] at hsplit hline
  refine ⟨_, _, p, htokens, hrun, rfl, ?_, hline⟩
  rw [← (List.cons.inj (List.cons.inj hsplit).2).1]

end DuckLang.Parser
