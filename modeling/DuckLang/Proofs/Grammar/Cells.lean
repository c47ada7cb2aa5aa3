import DuckLang.Grammar.Slr
import DuckLang.Proofs.Grammar.States

/-! The cells of the SLR(1) table.  Whatever a cell holds was proposed by an item of its state, also
where a conflict was resolved; and without conflicts every proposal is in its cell. -/

namespace DuckLang

namespace Grammar

open Table (Action Row)

variable {g : Grammar}

theorem enterAll_nil (index : Nat) (row : Row) : enterAll index row [] = (row, []) := rfl

theorem enterAll_cons (index : Nat) (row : Row) (p : Proposal) (ps : List Proposal) :
    enterAll index row (p :: ps) =
      ((enterAll index (enter index row p).1 ps).1,
        (enter index row p).2 ++ (enterAll index (enter index row p).1 ps).2) := rfl

theorem action?_enter {index : Nat} {row : Row} {proposal : Proposal} {terminal : String}
    {action : Action} (h : (enter index row proposal).1.action? terminal = some action) :
    row.action? terminal = some action ∨ proposal = .act terminal action := by
  cases proposal with
  | goto head next => exact .inl h
  | act t a =>
    simp only [enter] at h
    split at h
    · simp only [Row.action?, Table.lookup_setKey] at h ⊢
      split at h
      · simp_all
      · exact .inl h
    · rename_i existing hexisting
      split at h
      · exact .inl h
      · dsimp only at h
        split at h <;> simp only [Row.action?, Table.lookup_setKey] at h hexisting ⊢ <;>
          split at h <;> simp_all

/-- What a cell holds was there before or proposed. -/
theorem action?_enterAll {index : Nat} {row : Row} {proposals : List Proposal} {terminal : String}
    {action : Action} (h : (enterAll index row proposals).1.action? terminal = some action) :
    row.action? terminal = some action ∨ .act terminal action ∈ proposals := by
  induction proposals generalizing row with
  | nil => exact .inl h
  | cons p ps ih =>
    rw [enterAll_cons] at h
    rcases ih h with h | h
    · rcases action?_enter h with h | rfl
      · exact .inl h
      · exact .inr List.mem_cons_self
    · exact .inr (List.mem_cons_of_mem _ h)

theorem goto?_enter (index : Nat) (row : Row) (proposal : Proposal) (head : String) :
    (enter index row proposal).1.goto? head =
      match proposal with
      | .goto h next => if head = h then some (next : Int) else row.goto? head
      | .act _ _ => row.goto? head := by
  cases proposal with
  | goto h next => simp only [enter, Row.goto?, Table.lookup_setKey]
  | act t a =>
    simp only [enter]
    split
    · rfl
    · split
      · rfl
      · dsimp only
        split <;> rfl

theorem goto?_enterAll {index : Nat} {row : Row} {proposals : List Proposal} {head : String}
    {next : Int} (h : (enterAll index row proposals).1.goto? head = some next) :
    row.goto? head = some next ∨ ∃ j : Nat, next = j ∧ .goto head j ∈ proposals := by
  induction proposals generalizing row with
  | nil => exact .inl h
  | cons p ps ih =>
    rw [enterAll_cons] at h
    rcases ih h with hrow | ⟨j, hj, hmem⟩
    · rw [goto?_enter] at hrow
      cases p with
      | act _ _ => exact .inl hrow
      | goto name j =>
        dsimp only at hrow
        split at hrow
        · rename_i heq
          subst heq
          exact .inr ⟨j, (Option.some.inj hrow).symm, List.mem_cons_self⟩
        · exact .inl hrow
    · exact .inr ⟨j, hj, List.mem_cons_of_mem _ hmem⟩

theorem goto?_enterAll_isSome {index : Nat} {row : Row} {proposals : List Proposal}
    {head : String} (h : (row.goto? head).isSome ∨ ∃ j, .goto head j ∈ proposals) :
    ((enterAll index row proposals).1.goto? head).isSome := by
  induction proposals generalizing row with
  | nil => simpa [enterAll_nil] using h
  | cons p ps ih =>
    rw [enterAll_cons]
    refine ih ?_
    rw [goto?_enter]
    rcases h with h | ⟨j, hj⟩
    · cases p with
      | act _ _ => exact .inl h
      | goto name j =>
        dsimp only
        split
        · exact .inl rfl
        · exact .inl h
    · rcases List.mem_cons.mp hj with rfl | hj
      · exact .inl (by simp)
      · exact .inr ⟨j, hj⟩

/-- Without a conflict a proposal is entered and what was there stays. -/
theorem action?_enter_of_nil {index : Nat} {row : Row} {proposal : Proposal}
    (hconflicts : (enter index row proposal).2 = []) {terminal : String} {action : Action}
    (h : row.action? terminal = some action ∨ proposal = .act terminal action) :
    (enter index row proposal).1.action? terminal = some action := by
  cases proposal with
  | goto head next =>
    rcases h with h | h
    · exact h
    · cases h
  | act t a =>
    simp only [enter] at hconflicts ⊢
    split at hconflicts
    · rename_i hnone
      simp only [Row.action?, Table.lookup_setKey] at h hnone ⊢
      rcases h with h | h
      · have : terminal ≠ t := by
          rintro rfl
          simp [hnone] at h
        simpa [this] using h
      · cases h
        simp
    · rename_i existing hexisting
      split at hconflicts
      · rename_i heq
        simp only [heq, if_true]
        rcases h with h | h
        · exact h
        · cases h
          rw [← heq]
          exact hexisting
      · simp at hconflicts

theorem action?_enterAll_of_nil {index : Nat} {row : Row} {proposals : List Proposal}
    (hconflicts : (enterAll index row proposals).2 = []) {terminal : String} {action : Action}
    (h : row.action? terminal = some action ∨ .act terminal action ∈ proposals) :
    (enterAll index row proposals).1.action? terminal = some action := by
  induction proposals generalizing row with
  | nil => simpa [enterAll_nil] using h
  | cons p ps ih =>
    rw [enterAll_cons] at hconflicts ⊢
    obtain ⟨hfirst, hrest⟩ := List.append_eq_nil_iff.mp hconflicts
    refine ih hrest ?_
    rcases h with h | h
    · exact .inl (action?_enter_of_nil hfirst (.inl h))
    · rcases List.mem_cons.mp h with rfl | h
      · exact .inl (action?_enter_of_nil hfirst (.inr rfl))
      · exact .inr h

/-- The row of a state. -/
def rowOf (g : Grammar) (s : State) (k : Nat) : Row :=
  (g.stateRow g.analyze (s, k)).1

theorem row?_table {k : Nat} {s : State} (hs : g.automaton.states[k]? = some s) :
    g.table.row? (k : Int) = some (g.rowOf s k) := by
  have h : g.automaton.states.toList[k]? = some s := by simpa using hs
  show g.table.rows[k]? = _
  simp [table, List.getElem?_zipIdx, hs, rowOf]

theorem mem_proposals {s : State} {k : Nat} {terminal : String} {action : Action}
    (h : (g.rowOf s k).action? terminal = some action) :
    ∃ i ∈ s.items, .act terminal action ∈ g.proposals g.analyze s i := by
  rcases action?_enterAll h with h | h
  · simp [Row.action?] at h
  · exact List.mem_flatMap.mp h

/-- A shift goes along the edge of the terminal behind a dot. -/
theorem shift_cell {s : State} {k : Nat} {terminal : String} {next : Int}
    (h : (g.rowOf s k).action? terminal = some (.shift next)) :
    ∃ j : Nat, next = j ∧ s.edges.lookup (.terminal terminal) = some j ∧
      ∃ i ∈ s.items, g.next? i = some (.terminal terminal) := by
  obtain ⟨i, hi, hmem⟩ := mem_proposals h
  simp only [proposals] at hmem
  split at hmem
  · split at hmem
    · simp at hmem
    · simp at hmem
  · rename_i symbol hnext
    split at hmem
    · simp at hmem
    · rename_i j hedge
      split at hmem
      · simp only [List.mem_singleton, Proposal.act.injEq, Action.shift.injEq] at hmem
        obtain ⟨rfl, rfl⟩ := hmem
        exact ⟨j, rfl, hedge, i, hi, hnext⟩
      · simp at hmem

/-- A reduction is by the production of a completed item. -/
theorem reduce_cell {s : State} {k : Nat} {terminal : String} {rule : Int}
    (h : (g.rowOf s k).action? terminal = some (.reduce rule)) :
    ∃ i ∈ s.items, rule = i.rule ∧ i.rule ≠ 0 ∧ g.next? i = none := by
  obtain ⟨i, hi, hmem⟩ := mem_proposals h
  simp only [proposals] at hmem
  split at hmem
  · rename_i hnext
    split at hmem
    · simp at hmem
    · rename_i hrule
      simp only [List.mem_map, Proposal.act.injEq, Action.reduce.injEq] at hmem
      obtain ⟨_, _, _, rfl⟩ := hmem
      exact ⟨i, hi, rfl, hrule, hnext⟩
  · split at hmem
    · simp at hmem
    · split at hmem <;> simp at hmem

/-- Acceptance is on the end of the input, where the augmented production is complete. -/
theorem accept_cell {s : State} {k : Nat} {terminal : String}
    (h : (g.rowOf s k).action? terminal = some .accept) :
    terminal = Token.Kind.endMarker ∧ ∃ i ∈ s.items, i.rule = 0 ∧ g.next? i = none := by
  obtain ⟨i, hi, hmem⟩ := mem_proposals h
  simp only [proposals] at hmem
  split at hmem
  · rename_i hnext
    split at hmem
    · rename_i hrule
      simp only [List.mem_singleton, Proposal.act.injEq] at hmem
      exact ⟨hmem.1, i, hi, hrule, hnext⟩
    · simp at hmem
  · split at hmem
    · simp at hmem
    · split at hmem <;> simp at hmem

theorem goto_cell {s : State} {k : Nat} {head : String} {next : Int}
    (h : (g.rowOf s k).goto? head = some next) :
    ∃ j : Nat, next = j ∧ s.edges.lookup (.nonterminal head) = some j := by
  rcases goto?_enterAll h with h | ⟨j, rfl, hmem⟩
  · simp [Row.goto?] at h
  · obtain ⟨i, hi, hmem⟩ := List.mem_flatMap.mp hmem
    refine ⟨j, rfl, ?_⟩
    simp only [proposals] at hmem
    split at hmem
    · split at hmem <;> simp at hmem
    · split at hmem
      · simp at hmem
      · rename_i hedge
        split at hmem
        · simp at hmem
        · simp only [List.mem_singleton, Proposal.goto.injEq] at hmem
          obtain ⟨rfl, rfl⟩ := hmem
          exact hedge

/-- A non-terminal behind a dot has a goto, along its edge. -/
theorem goto_of_next {s : State} {k j : Nat} {head : String} {i : Item} (hi : i ∈ s.items)
    (hnext : g.next? i = some (.nonterminal head))
    (hedge : s.edges.lookup (.nonterminal head) = some j) :
    (g.rowOf s k).goto? head = some (j : Int) := by
  have hmem : .goto head j ∈ s.items.flatMap (g.proposals g.analyze s) :=
    List.mem_flatMap.mpr ⟨i, hi, by simp [proposals, hnext, hedge]⟩
  have hsome := @goto?_enterAll_isSome k {} _ head (.inr ⟨j, hmem⟩)
  obtain ⟨next, hgoto⟩ := Option.isSome_iff_exists.mp hsome
  obtain ⟨j', rfl, hedge'⟩ := goto_cell hgoto
  obtain rfl : j' = j := Option.some.inj (hedge'.symm.trans hedge)
  exact hgoto

/-- Without conflicts a cell holds what an item proposes. -/
theorem action?_of_proposal (hconflicts : g.table.conflicts = []) {k : Nat} {s : State}
    (hs : g.automaton.states[k]? = some s) {i : Item} (hi : i ∈ s.items) {terminal : String}
    {action : Action} (h : .act terminal action ∈ g.proposals g.analyze s i) :
    (g.rowOf s k).action? terminal = some action := by
  refine action?_enterAll_of_nil ?_ (.inr (List.mem_flatMap.mpr ⟨i, hi, h⟩))
  have hall := List.flatMap_eq_nil_iff.mp hconflicts
  refine hall (g.stateRow g.analyze (s, k)) (List.mem_map.mpr ⟨(s, k), ?_, rfl⟩)
  refine List.mk_mem_zipIdx_iff_getElem?.mpr ?_
  simpa using hs

theorem shift_of_next (hconflicts : g.table.conflicts = []) {k j : Nat} {s : State}
    (hs : g.automaton.states[k]? = some s) {i : Item} (hi : i ∈ s.items) {terminal : String}
    (hnext : g.next? i = some (.terminal terminal))
    (hedge : s.edges.lookup (.terminal terminal) = some j) :
    (g.rowOf s k).action? terminal = some (.shift j) :=
  action?_of_proposal hconflicts hs hi (by simp [proposals, hnext, hedge])

theorem reduce_of_complete (hconflicts : g.table.conflicts = []) {k : Nat} {s : State}
    (hs : g.automaton.states[k]? = some s) {i : Item} (hi : i ∈ s.items) {terminal : String}
    (hnext : g.next? i = none) (hrule : i.rule ≠ 0)
    (hfollow : terminal ∈ g.analyze.follow.get (g.production i.rule).head) :
    (g.rowOf s k).action? terminal = some (.reduce i.rule) :=
  action?_of_proposal hconflicts hs hi (by simp [proposals, hnext, hrule, hfollow])

theorem accept_of_complete (hconflicts : g.table.conflicts = []) {k : Nat} {s : State}
    (hs : g.automaton.states[k]? = some s) {i : Item} (hi : i ∈ s.items)
    (hnext : g.next? i = none) (hrule : i.rule = 0) :
    (g.rowOf s k).action? Token.Kind.endMarker = some .accept :=
  action?_of_proposal hconflicts hs hi (by simp [proposals, hnext, hrule])

/-- The table holds the head and size of every production. -/
theorem rule?_table (rule : Nat) :
    g.table.rule? (rule : Int) = g.productions[rule]?.map fun p => ⟨p.head, p.body.length⟩ := by
  show g.table.rules[rule]? = _
  simp [table]

/-- A table that is built is the table of the grammar. -/
theorem buildTable_eq {strict : Bool} {t : Table} (h : g.buildTable strict = .ok t) :
    t = g.table := by
  simp only [buildTable] at h
  split at h
  · cases h
  · exact (Except.ok.inj h).symm

/-- A strict table is built iff there are no conflicts. -/
theorem buildTable_strict {t : Table} :
    g.buildTable true = .ok t ↔ g.table.conflicts = [] ∧ t = g.table := by
  simp only [buildTable]
  cases h : g.table.conflicts with
  | nil => simp [eq_comm]
  | cons c cs => simp

end Grammar

end DuckLang
