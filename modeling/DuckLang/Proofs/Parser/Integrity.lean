import DuckLang.Proofs.Parser.Viable

/-! The parser never finds its table broken.  The symbols are not on its stack, only the states are;
still the stack spells a path of the automaton, and each step keeps it so, whether it does what the
grammar asks for or what is left of a cell that two items wanted. -/

namespace DuckLang

/-- The causes that blame a table: a state, rule or goto that it lacks, or a rule longer than the
stack. -/
def Cause.isOfTable : Cause → Bool
  | missingState _ | missingRule _ | stackUnderflow _ | missingGoto _ _ => true
  | _ => false

namespace Parser

open Grammar (Proper Item State)

variable {g : Grammar} {symbols : List Grammar.Symbol} {k : Nat} {s : State} {p q : Parser}

theorem isOfTable_of_not_isOfParser {cause : Cause} (h : cause.isOfParser = false) :
    cause.isOfTable = false := by
  cases cause <;> first | rfl | cases h

theorem unexpected_isOfTable (t : Token) (state : Int) :
    (unexpected t state).cause.isOfTable = false := by
  simp only [unexpected]
  split <;> rfl

/-- A table has what the next action of a parser needs: the row of the state on top and, for a
reduction, the rule, its body on the stack, and a goto on its head in the state below. -/
structure Served (table : Table) (p : Parser) : Prop where
  row : ∃ row, table.row? (topState p.stack) = some row
  reduction : ∀ index, action? table p = some (.reduce index) →
    ∃ rule next, table.rule? index = some rule ∧ rule.size ≤ p.stack.length ∧
      (table.row? (topState (p.stack.drop rule.size))).bind (·.goto? rule.head) = some next

theorem Climbs.served (hg : Proper g) (h : Spells g p.stack symbols k) : Served g.table p := by
  obtain ⟨s, hs⟩ := h.state hg
  have hrow : g.table.row? (Parser.topState p.stack) = some (g.rowOf s k) := by
    rw [h.topState]
    exact Grammar.row?_table hs
  refine ⟨⟨_, hrow⟩, ?_⟩
  intro index hindex
  simp only [action?, hrow, Option.bind_some] at hindex
  -- only a completed item puts a reduction into a cell, whatever else wanted that cell
  obtain ⟨i, hi, rfl, hrule, hnext⟩ := Grammar.reduce_cell hindex
  obtain ⟨k', s', _, b⟩ := h.beneath hg hs hi
  obtain ⟨j, _, hgoto⟩ := b.climbs.goto hg b.state b.item rfl hrule
  have hdot := dot_of_complete hg hs hi hnext
  refine ⟨⟨(g.production i.rule).head, (g.production i.rule).body.length⟩, j, ?_, ?_, ?_⟩
  · rw [Grammar.rule?_table, item_rule hg hs hi]
    rfl
  · exact hdot ▸ b.enough
  · rw [← hdot, b.climbs.topState, Grammar.row?_table b.state]
    exact hgoto

/-- A step goes on along a path of the automaton. -/
theorem Climbs.step_next (hg : Proper g) (h : Spells g p.stack symbols k)
    (hstep : step g.table p = .next q) : ∃ symbols' k', Spells g q.stack symbols' k' := by
  cases acts hg h with
  | accepted made => cases made.symm.trans hstep
  | stuck cell made => cases made.symm.trans hstep
  | raised made cause => cases made.symm.trans hstep
  | shift cell inner made cursor spelt =>
    cases made.symm.trans hstep
    exact ⟨_, _, spelt⟩
  | reduce fold made cursor spelt =>
    cases made.symm.trans hstep
    exact ⟨_, _, spelt⟩

theorem Climbs.step_failed (hg : Proper g) (h : Spells g p.stack symbols k) {d : Diagnostic}
    (hstep : step g.table p = .failed d q) : d.cause.isOfTable = false := by
  cases acts hg h with
  | accepted made => cases made.symm.trans hstep
  | shift cell inner made cursor spelt => cases made.symm.trans hstep
  | reduce fold made cursor spelt => cases made.symm.trans hstep
  | stuck cell made =>
    cases made.symm.trans hstep
    exact unexpected_isOfTable _ _
  | raised made cause =>
    cases made.symm.trans hstep
    exact isOfTable_of_not_isOfParser cause.isOfParser

theorem Climbs.run_unfinished (hg : Proper g) (fuel : Nat) (h : Spells g p.stack symbols k)
    (hrun : run g.table fuel p = .unfinished q) :
    ∃ symbols' k', Spells g q.stack symbols' k' := by
  induction fuel generalizing p symbols k with
  | zero =>
    cases hrun
    exact ⟨symbols, k, h⟩
  | succ fuel ih =>
    simp only [run] at hrun
    split at hrun
    · rename_i hstep
      obtain ⟨_, _, hnext⟩ := h.step_next hg hstep
      exact ih hnext hrun
    · cases hrun
    · cases hrun

theorem Climbs.run_failed (hg : Proper g) (fuel : Nat) (h : Spells g p.stack symbols k)
    {d : Diagnostic} (hrun : run g.table fuel p = .failed d q) : d.cause.isOfTable = false := by
  induction fuel generalizing p symbols k with
  | zero => cases hrun
  | succ fuel ih =>
    simp only [run] at hrun
    split at hrun
    · rename_i hstep
      obtain ⟨_, _, hnext⟩ := h.step_next hg hstep
      exact ih hnext hrun
    · cases hrun
    · rename_i hstep
      cases hrun
      exact h.step_failed hg hstep

/-- The table of a grammar, strict or with conflicts settled, serves every parser that a run
reaches, on any tokens, and no run fails with a cause that blames the table. -/
theorem table_serves {text : String} {g : Grammar} {strict : Bool} {table : Table}
    (hread : Grammar.read text = .ok g) (htable : g.buildTable strict = .ok table)
    (tokens : List Token) (fuel : Nat) :
    (∀ p, run table fuel (.start tokens) = .unfinished p → Served table p) ∧
      ∀ d p, run table fuel (.start tokens) = .failed d p → d.cause.isOfTable = false := by
  obtain rfl := Grammar.buildTable_eq htable
  have hg := Grammar.read_proper hread
  have hstart : Spells g (Parser.start tokens).stack [] 0 := .bottom
  constructor
  · intro p hrun
    obtain ⟨_, _, hspells⟩ := hstart.run_unfinished hg fuel hrun
    exact hspells.served hg
  · intro d p hrun
    exact hstart.run_failed hg fuel hrun

/-- Sums that may be read from either side. -/
def sums : Grammar :=
  .ofProductions ⟨"Sum", [.nonterminal "Sum", .terminal "+", .nonterminal "Sum"]⟩
    [⟨"Sum", [.terminal "id"]⟩]

theorem sums_read : Grammar.read "<Sum> → <Sum> + <Sum>\n<Sum> → id" = .ok sums := by
  rfl

/-- Three names with a plus between them. -/
def threeNames : List Token :=
  [⟨.identifier, "a", 1⟩, ⟨.plus, "+", 1⟩, ⟨.identifier, "b", 1⟩, ⟨.plus, "+", 1⟩,
   ⟨.identifier, "c", 1⟩, .endOfInput 1]

def Outcome.isUnfinished : Outcome → Bool
  | unfinished _ => true
  | _ => false

theorem Outcome.eq_unfinished {o : Outcome} (h : o.isUnfinished = true) :
    o = .unfinished o.parser := by
  cases o with
  | unfinished p => rfl
  | _ => cases h

/-- A reduction before the second plus gave way to a shift, so all five symbols are on the stack
when the first sum is reduced. -/
theorem table_serves_sums :
    sums.table.conflicts.map (·.dropped) = [.reduce 1] ∧
      ∃ p, run sums.table 8 (.start threeNames) = .unfinished p ∧
        action? sums.table p = some (.reduce 1) ∧ p.stack.length = 5 ∧ Served sums.table p := by
  have htable : sums.buildTable false = .ok sums.table := rfl
  have hrun := Outcome.eq_unfinished (o := run sums.table 8 (.start threeNames))
    (by decide +kernel)
  refine ⟨by decide +kernel, _, hrun, by decide +kernel, by decide +kernel, ?_⟩
  exact (table_serves sums_read htable threeNames 8).1 _ hrun

end Parser

end DuckLang
