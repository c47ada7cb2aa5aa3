import DuckLang.Proofs.Grammar.Cells
import DuckLang.Proofs.Grammar.Exactness
import Mathlib.Algebra.BigOperators.Group.Finset.Basic
import Mathlib.Algebra.Order.BigOperators.Group.Finset

/-! Conflicts.  The items of a state propose actions on a terminal one after the other, and the cell
keeps the best of those that came so far.  Which one that is does not depend on their order.  Nor
does the number of conflicts: only a shift is proposed more than once, and nothing that is proposed
along with it is better. -/

namespace DuckLang

namespace Table.Action

/-- An action that takes the place of another in a cell. -/
def Beats (a b : Action) : Prop :=
  b.preferred a = true

theorem Beats.trans {a b c : Action} (h : a.Beats b) (h' : b.Beats c) : a.Beats c := by
  cases a <;> cases b <;> cases c <;> simp_all [Beats, preferred] <;> omega

theorem beats_of_not {a b : Action} (hne : b ≠ a) (h : ¬b.Beats a) : a.Beats b := by
  cases a <;> cases b <;> simp_all [Beats, preferred] <;> omega

end Table.Action

namespace Grammar

open Table (Action Row Conflict)

/-! ### Cells -/

/-- What proposals have for a cell, in their order. -/
def actionsOn (terminal : String) (proposals : List Proposal) : List Action :=
  proposals.filterMap fun
    | .act t action => if t = terminal then some action else none
    | .goto _ _ => none

theorem actionsOn_append (terminal : String) (ps qs : List Proposal) :
    actionsOn terminal (ps ++ qs) = actionsOn terminal ps ++ actionsOn terminal qs :=
  List.filterMap_append

theorem actionsOn_goto (terminal head : String) (next : Nat) :
    actionsOn terminal [.goto head next] = [] := rfl

theorem actionsOn_act (terminal t : String) (action : Action) :
    actionsOn terminal [.act t action] = if t = terminal then [action] else [] := by
  simp only [actionsOn, List.filterMap_cons, List.filterMap_nil]
  split <;> split at * <;> simp_all

/-- A cell that holds the best of some actions; it is empty if there are none. -/
def Best (actions : List Action) : Option Action → Prop
  | none => actions = []
  | some a => a ∈ actions ∧ ∀ b ∈ actions, b = a ∨ a.Beats b

theorem enterAll_snoc (index : Nat) (row : Row) (ps : List Proposal) (p : Proposal) :
    enterAll index row (ps ++ [p]) =
      ((enter index (enterAll index row ps).1 p).1,
        (enterAll index row ps).2 ++ (enter index (enterAll index row ps).1 p).2) := by
  induction ps generalizing row with
  | nil => simp [enterAll]
  | cons q ps ih => simp [enterAll_cons, ih]

/-- The best of an action and what a cell holds. -/
def better (action : Action) : Option Action → Action
  | none => action
  | some existing => if existing.preferred action then action else existing

theorem action?_enter_act (index : Nat) (row : Row) (terminal name : String) (action : Action) :
    (enter index row (.act terminal action)).1.action? name =
      if name = terminal then some (better action (row.action? terminal))
      else row.action? name := by
  simp only [enter]
  split
  · rename_i hnone
    simp only [Row.action?, Table.lookup_setKey] at hnone ⊢
    rw [hnone]
    rfl
  · rename_i existing hexisting
    rw [hexisting, better]
    split
    · rename_i hsame
      subst hsame
      by_cases hname : name = terminal
      · simp [hname, hexisting]
      · simp [hname]
    · dsimp only
      split <;> simp [Row.action?, Table.lookup_setKey]

theorem Best.better {actions : List Action} {cell : Option Action} (h : Best actions cell)
    (action : Action) : Best (actions ++ [action]) (some (better action cell)) := by
  cases cell with
  | none =>
    obtain rfl : actions = [] := h
    simp [Best, Grammar.better]
  | some existing =>
    obtain ⟨hmem, hbest⟩ := h
    simp only [Grammar.better]
    split
    · rename_i hbeats
      refine ⟨by simp, fun b hb => ?_⟩
      rcases List.mem_append.mp hb with hb | hb
      · rcases hbest b hb with rfl | hlost
        · exact .inr hbeats
        · exact .inr (Action.Beats.trans hbeats hlost)
      · exact .inl (List.mem_singleton.mp hb)
    · rename_i hkept
      refine ⟨List.mem_append_left _ hmem, fun b hb => ?_⟩
      rcases List.mem_append.mp hb with hb | hb
      · exact hbest b hb
      · obtain rfl := List.mem_singleton.mp hb
        by_cases hsame : b = existing
        · exact .inl hsame
        · exact .inr (Action.beats_of_not hsame hkept)

/-- However proposals are ordered, a cell holds the best of them. -/
theorem best_enterAll (index : Nat) (ps : List Proposal) (terminal : String) :
    Best (actionsOn terminal ps) ((enterAll index {} ps).1.action? terminal) := by
  induction ps using List.reverseRecOn with
  | nil => rfl
  | append_singleton ps p ih =>
    rw [enterAll_snoc, actionsOn_append]
    cases p with
    | goto head next => simpa [enter, Row.action?, actionsOn_goto] using ih
    | act t action =>
      rw [action?_enter_act, actionsOn_act]
      by_cases ht : terminal = t
      · subst ht
        simpa using ih.better action
      · simpa [ht, Ne.symm ht] using ih

/-! ### Conflicts -/

/-- Actions of which only a shift is proposed more than once, and along with a shift nothing but
reductions. -/
structure Compatible (actions : List Action) : Prop where
  once : actions.Pairwise fun a b => a = b → ∃ j, a = .shift j
  shift : ∀ {j : Int}, .shift j ∈ actions → ∀ b ∈ actions, b = .shift j ∨ ∃ r, b = .reduce r

theorem Compatible.of_append {actions more : List Action} (h : Compatible (actions ++ more)) :
    Compatible actions where
  once := (List.pairwise_append.mp h.once).1
  shift hj b hb := h.shift (List.mem_append_left _ hj) b (List.mem_append_left _ hb)

/-- What is not kept in a cell is not proposed again. -/
theorem Compatible.not_mem {actions : List Action} {action existing : Action}
    (h : Compatible (actions ++ [action])) (hbest : Best actions (some existing))
    (hne : existing ≠ action) : action ∉ actions := by
  intro hmem
  have hshift := (List.pairwise_append.mp h.once).2.2 action hmem action (by simp) rfl
  obtain ⟨j, rfl⟩ := hshift
  rcases h.shift (j := j) (by simp) existing (List.mem_append_left _ hbest.1) with hsame | ⟨r, rfl⟩
  · exact hne hsame
  · rcases hbest.2 _ hmem with hsame | hbeats
    · cases hsame
    · cases hbeats

theorem countP_enter_act (index : Nat) (row : Row) (terminal name : String) (action : Action) :
    (enter index row (.act terminal action)).2.countP (·.terminal = name) =
      if name = terminal ∧ ∃ existing ∈ row.action? terminal, existing ≠ action then 1 else 0 := by
  simp only [enter]
  split
  · rename_i hnone
    simp [hnone]
  · rename_i existing hexisting
    split
    · rename_i hsame
      simp [hexisting, hsame]
    · rename_i hne
      by_cases hname : name = terminal
      · simp [hexisting, hne, hname]
      · simp [hname, Ne.symm hname]

/-- However compatible proposals are ordered, a cell has a conflict for each action but one. -/
theorem countP_enterAll {ps : List Proposal} {terminal : String}
    (h : Compatible (actionsOn terminal ps)) (index : Nat) :
    (enterAll index {} ps).2.countP (·.terminal = terminal) =
      (actionsOn terminal ps).toFinset.card - 1 := by
  induction ps using List.reverseRecOn with
  | nil => rfl
  | append_singleton ps p ih =>
    have hbest := best_enterAll index ps terminal
    rw [actionsOn_append] at h ⊢
    rw [enterAll_snoc, List.countP_append, ih h.of_append]
    cases p with
    | goto head next => simp [enter, actionsOn_goto]
    | act t action =>
      rw [countP_enter_act, actionsOn_act]
      by_cases ht : terminal = t
      · subst ht
        rw [actionsOn_act, if_pos rfl] at h
        rw [if_pos rfl, List.toFinset_append]
        cases hcell : (enterAll index {} ps).1.action? terminal with
        | none =>
          rw [hcell] at hbest
          have hnil : actionsOn terminal ps = [] := hbest
          simp [hnil]
        | some existing =>
          rw [hcell] at hbest
          by_cases hsame : existing = action
          · -- the shift once more, which is no conflict
            subst hsame
            have hunion : (actionsOn terminal ps).toFinset ∪ [existing].toFinset =
                (actionsOn terminal ps).toFinset := by simpa using hbest.1
            rw [hunion]
            simp
          · -- a conflict, with an action that was not proposed yet
            have hdisjoint : Disjoint (actionsOn terminal ps).toFinset [action].toFinset := by
              simpa using h.not_mem hbest hsame
            have hpos : 0 < (actionsOn terminal ps).toFinset.card :=
              Finset.card_pos.mpr ⟨existing, List.mem_toFinset.mpr hbest.1⟩
            rw [Finset.card_union_of_disjoint hdisjoint]
            simp [hsame]
            omega
      · simp [ht, Ne.symm ht]

/-! ### States -/

/-- What an item of a state proposes on a terminal: to accept at the end of the input, where the
augmented production is complete, to reduce by any other complete production before what follows its
head, and to shift the terminal behind a dot. -/
def Item.proposal? (g : Grammar) (s : State) (terminal : String) (i : Item) : Option Action :=
  let p := g.production i.rule
  if i.dot = p.body.length then
    if i.rule = 0 then if terminal = Token.Kind.endMarker then some .accept else none
    else if terminal ∈ g.analyze.follow.get p.head then some (.reduce i.rule) else none
  else if p.body[i.dot]? = some (.terminal terminal) then
    (s.edges.lookup (.terminal terminal)).map fun next : Nat => .shift next
  else none

/-- The different actions that the items of a state propose on a terminal. -/
def candidates (g : Grammar) (s : State) (terminal : String) : Finset Action :=
  (s.items.filterMap (·.proposal? g s terminal)).toFinset

variable {g : Grammar} {s : State} {k : Nat}

theorem follow_nodup (hg : Proper g) (head : String) : (g.analyze.follow.get head).Nodup := by
  simp only [SetTable.get]
  cases hlookup : g.analyze.follow.lookup head with
  | none => exact List.nodup_nil
  | some set =>
    obtain ⟨_, _, heq, _⟩ := List.lookup_eq_some_iff.mp hlookup
    exact ((follow_fixed hg).1.sets (head, set) (by simp [heq])).1.nodup

theorem actionsOn_reductions {names : List String} (h : names.Nodup) (terminal : String)
    (action : Action) :
    actionsOn terminal (names.map fun name => .act name action) =
      if terminal ∈ names then [action] else [] := by
  induction names with
  | nil => rfl
  | cons name names ih =>
    obtain ⟨hname, hrest⟩ := List.nodup_cons.mp h
    rw [List.map_cons, ← List.singleton_append, actionsOn_append, actionsOn_act, ih hrest]
    by_cases ht : name = terminal
    · subst ht
      simp [hname]
    · simp [ht, Ne.symm ht]

theorem actionsOn_proposals (hg : Proper g) {i : Item} (hi : i.Valid g) (terminal : String) :
    actionsOn terminal (g.proposals g.analyze s i) = (i.proposal? g s terminal).toList := by
  simp only [proposals, Item.proposal?]
  by_cases hdot : i.dot = (g.production i.rule).body.length
  · have hnext : g.next? i = none := List.getElem?_eq_none (Nat.le_of_eq hdot.symm)
    simp only [hnext, hdot, if_true]
    by_cases hrule : i.rule = 0
    · rw [if_pos hrule, if_pos hrule, actionsOn_act]
      by_cases hend : Token.Kind.endMarker = terminal
      · simp [hend]
      · simp [hend, Ne.symm hend]
    · rw [if_neg hrule, if_neg hrule, actionsOn_reductions (follow_nodup hg _)]
      split <;> rfl
  · have hlt : i.dot < (g.production i.rule).body.length := Nat.lt_of_le_of_ne hi.2 hdot
    have hnext : g.next? i = some (g.production i.rule).body[i.dot] := List.getElem?_eq_getElem hlt
    simp only [hnext, hdot, if_false, List.getElem?_eq_getElem hlt, Option.some.injEq]
    cases hedge : s.edges.lookup (g.production i.rule).body[i.dot] with
    | none =>
      dsimp only
      by_cases hsymbol : (g.production i.rule).body[i.dot] = .terminal terminal
      · rw [hsymbol] at hedge
        rw [if_pos hsymbol, hedge]
        rfl
      · rw [if_neg hsymbol]
        rfl
    | some next =>
      cases hsymbol : (g.production i.rule).body[i.dot] with
      | nonterminal name => simp [actionsOn_goto]
      | terminal name =>
        rw [hsymbol] at hedge
        dsimp only
        rw [actionsOn_act]
        by_cases ht : name = terminal
        · subst ht
          simp [hedge]
        · simp [ht]

theorem actionsOn_state (hg : Proper g) (hs : StateSet g s.items) (terminal : String) :
    actionsOn terminal (s.items.flatMap (g.proposals g.analyze s)) =
      s.items.filterMap (·.proposal? g s terminal) := by
  have hitems : ∀ i ∈ s.items, i.Valid g := hs.valid
  generalize s.items = items at hitems
  induction items with
  | nil => rfl
  | cons i items ih =>
    obtain ⟨hi, hrest⟩ := List.forall_mem_cons.mp hitems
    rw [List.flatMap_cons, actionsOn_append, actionsOn_proposals hg hi, ih hrest,
      List.filterMap_cons]
    cases i.proposal? g s terminal <;> rfl

theorem proposal?_accept {i : Item} {terminal : String}
    (h : i.proposal? g s terminal = some .accept) :
    i.rule = 0 ∧ i.dot = (g.production i.rule).body.length ∧ terminal = Token.Kind.endMarker := by
  simp only [Item.proposal?] at h
  split at h
  · split at h
    · split at h
      · exact ⟨‹_›, ‹_›, ‹_›⟩
      · cases h
    · split at h <;> cases h
  · split at h
    · simp at h
    · cases h

theorem proposal?_reduce {i : Item} {terminal : String} {r : Int}
    (h : i.proposal? g s terminal = some (.reduce r)) :
    r = i.rule ∧ i.dot = (g.production i.rule).body.length ∧
      terminal ∈ g.analyze.follow.get (g.production i.rule).head := by
  simp only [Item.proposal?] at h
  split at h
  · split at h
    · split at h <;> cases h
    · split at h
      · cases h
        exact ⟨rfl, ‹_›, ‹_›⟩
      · cases h
  · split at h
    · simp at h
    · cases h

theorem proposal?_shift {i : Item} {terminal : String} {j : Int}
    (h : i.proposal? g s terminal = some (.shift j)) :
    g.next? i = some (.terminal terminal) ∧
      ∃ next : Nat, s.edges.lookup (.terminal terminal) = some next ∧ j = next := by
  simp only [Item.proposal?] at h
  split at h
  · split at h
    · split at h <;> cases h
    · split at h <;> cases h
  · split at h
    · rename_i hnext
      obtain ⟨next, hedge, heq⟩ := Option.map_eq_some_iff.mp h
      cases heq
      exact ⟨hnext, next, hedge, rfl⟩
    · cases h

theorem Item.eq_of_complete {i j : Item} (hrule : i.rule = j.rule)
    (hi : i.dot = (g.production i.rule).body.length)
    (hj : j.dot = (g.production j.rule).body.length) : i = j := by
  cases i
  cases j
  simp_all

theorem compatible_state (hg : Proper g) (hs : StateSet g s.items) (terminal : String) :
    Compatible (s.items.filterMap (·.proposal? g s terminal)) where
  once := by
    refine List.Pairwise.filterMap _ ?_ hs.increasing.nodup
    intro i j hne a ha b hb hab
    subst hab
    cases a with
    | shift next => exact ⟨next, rfl⟩
    | accept =>
      obtain ⟨hi, hidot, _⟩ := proposal?_accept ha
      obtain ⟨hj, hjdot, _⟩ := proposal?_accept hb
      exact absurd (Item.eq_of_complete (hi.trans hj.symm) hidot hjdot) hne
    | reduce r =>
      obtain ⟨hi, hidot, _⟩ := proposal?_reduce ha
      obtain ⟨hj, hjdot, _⟩ := proposal?_reduce hb
      have hrule : i.rule = j.rule := Int.natCast_inj.mp (hi.symm.trans hj)
      exact absurd (Item.eq_of_complete hrule hidot hjdot) hne
  shift := by
    intro j hj b hb
    obtain ⟨i, hi, hij⟩ := List.mem_filterMap.mp hj
    obtain ⟨i', hi', hb⟩ := List.mem_filterMap.mp hb
    obtain ⟨hnext, next, hedge, rfl⟩ := proposal?_shift hij
    cases b with
    | reduce r => exact .inr ⟨r, rfl⟩
    | shift j' =>
      obtain ⟨_, next', hedge', rfl⟩ := proposal?_shift hb
      rw [hedge] at hedge'
      cases hedge'
      exact .inl rfl
    | accept =>
      -- a terminal that can be shifted is not the end of the input
      obtain ⟨_, _, hend⟩ := proposal?_accept hb
      have hrule := rule_of_lt (hs.valid i hi).1
      exact absurd hend (hg.visible hrule (List.mem_of_getElem? hnext)).1

/-- How a cell is settled: to accept wins over all, to shift over a reduction, and of the reductions
the one by the earliest production stays. -/
structure Settled (candidates : Finset Action) (cell : Option Action) : Prop where
  empty : cell = none ↔ candidates = ∅
  accept : .accept ∈ candidates → cell = some .accept
  shift : .accept ∉ candidates → ∀ j, .shift j ∈ candidates → cell = some (.shift j)
  reduce : .accept ∉ candidates → (∀ j, .shift j ∉ candidates) → ∀ r, .reduce r ∈ candidates →
    (∀ r', .reduce r' ∈ candidates → r ≤ r') → cell = some (.reduce r)

theorem Best.settled {actions : List Action} {cell : Option Action} (h : Best actions cell)
    (hshift : ∀ {j : Int}, .shift j ∈ actions → ∀ b ∈ actions, b = .shift j ∨ ∃ r, b = .reduce r) :
    Settled actions.toFinset cell := by
  cases cell with
  | none =>
    obtain rfl : actions = [] := h
    constructor <;> simp
  | some a =>
    obtain ⟨hmem, hbest⟩ := h
    constructor
    · constructor
      · intro hnone
        cases hnone
      · intro hempty
        exact absurd (List.mem_toFinset.mpr hmem) (by simp [hempty])
    · intro haccept
      rcases hbest _ (List.mem_toFinset.mp haccept) with rfl | hbeats
      · rfl
      · cases hbeats
    · intro _ j hj
      have hj := List.mem_toFinset.mp hj
      rcases hshift hj a hmem with rfl | ⟨r, rfl⟩
      · rfl
      · rcases hbest _ hj with hsame | hbeats
        · cases hsame
        · cases hbeats
    · intro haccept hnoShift r hr hleast
      cases a with
      | accept => exact absurd (List.mem_toFinset.mpr hmem) haccept
      | shift j => exact absurd (List.mem_toFinset.mpr hmem) (hnoShift j)
      | reduce r' =>
        have hle := hleast r' (List.mem_toFinset.mpr hmem)
        rcases hbest _ (List.mem_toFinset.mp hr) with hsame | hbeats
        · rw [hsame]
        · have hlt : r' < r := by simpa [Action.Beats, Action.preferred] using hbeats
          omega

theorem settled_state (hg : Proper g) (hs : StateSet g s.items) (k : Nat) (terminal : String) :
    Settled (g.candidates s terminal) ((g.rowOf s k).action? terminal) := by
  have hbest := best_enterAll k (s.items.flatMap (g.proposals g.analyze s)) terminal
  rw [actionsOn_state hg hs] at hbest
  exact hbest.settled (compatible_state hg hs terminal).shift

/-- Actions are proposed on the terminals of the grammar only. -/
theorem mem_terminals_of_candidate (hg : Proper g) (hs : StateSet g s.items) {terminal : String}
    {action : Action} (h : action ∈ g.candidates s terminal) : terminal ∈ g.terminals := by
  obtain ⟨i, hi, hproposal⟩ := List.mem_filterMap.mp (List.mem_toFinset.mp h)
  cases action with
  | accept =>
    obtain ⟨_, _, rfl⟩ := proposal?_accept hproposal
    exact hg.marked
  | reduce r =>
    obtain ⟨_, _, hfollow⟩ := proposal?_reduce hproposal
    have hvisible := (follow_sound hg _ terminal hfollow).1
    exact (List.mem_cons.mp ((follow_fixed hg).1.mem_get hfollow)).resolve_left hvisible
  | shift j =>
    obtain ⟨hnext, _⟩ := proposal?_shift hproposal
    exact hg.listed (rule_of_lt (hs.valid i hi).1) (List.mem_of_getElem? hnext)

theorem actionsOn_of_conflict {index : Nat} {ps : List Proposal} {c : Conflict}
    (h : c ∈ (enterAll index {} ps).2) : actionsOn c.terminal ps ≠ [] := by
  induction ps using List.reverseRecOn with
  | nil => cases h
  | append_singleton ps p ih =>
    rw [enterAll_snoc] at h
    rw [actionsOn_append]
    rcases List.mem_append.mp h with h | h
    · exact List.append_ne_nil_of_left_ne_nil (ih h) _
    · cases p with
      | goto head next => cases h
      | act t action =>
        have hcount := countP_enter_act index (enterAll index {} ps).1 t c.terminal action
        have hpos := (List.countP_pos_iff (p := (·.terminal = c.terminal))).mpr ⟨c, h, by simp⟩
        by_cases ht : c.terminal = t
        · simp [actionsOn_act, ht]
        · simp [hcount, ht] at hpos

theorem length_conflicts_state (hg : Proper g) (hs : StateSet g s.items) (k : Nat) :
    (g.stateRow g.analyze (s, k)).2.length =
      ∑ terminal ∈ g.terminals.toFinset, ((g.candidates s terminal).card - 1) := by
  have hterminals : ∀ terminal ∈ (g.stateRow g.analyze (s, k)).2.map (·.terminal),
      terminal ∈ g.terminals.toFinset := by
    intro terminal hterminal
    obtain ⟨c, hc, rfl⟩ := List.mem_map.mp hterminal
    have hproposed := actionsOn_of_conflict hc
    rw [actionsOn_state hg hs] at hproposed
    obtain ⟨action, haction⟩ := List.exists_mem_of_ne_nil _ hproposed
    exact List.mem_toFinset.mpr (mem_terminals_of_candidate hg hs (List.mem_toFinset.mpr haction))
  calc (g.stateRow g.analyze (s, k)).2.length
      = ∑ terminal ∈ g.terminals.toFinset,
          ((g.stateRow g.analyze (s, k)).2.map (·.terminal)).count terminal := by
        have hcard := Multiset.sum_count_eq_card (m := ↑((g.stateRow g.analyze (s, k)).2.map
          (·.terminal))) (s := g.terminals.toFinset) (by simpa using hterminals)
        simpa using hcard.symm
    _ = ∑ terminal ∈ g.terminals.toFinset, ((g.candidates s terminal).card - 1) := by
        refine Finset.sum_congr rfl fun terminal _ => ?_
        have hcompatible := compatible_state hg hs terminal
        rw [← actionsOn_state hg hs] at hcompatible
        have hcount := countP_enterAll hcompatible k
        rw [actionsOn_state hg hs] at hcount
        rw [List.count, List.countP_map]
        exact hcount

/-- A table has a conflict for each action but one of each of its cells. -/
theorem length_conflicts (hg : Proper g) :
    g.table.conflicts.length = (g.automaton.states.toList.map fun s =>
      ∑ terminal ∈ g.terminals.toFinset, ((g.candidates s terminal).card - 1)).sum := by
  have hrows : ∀ entry ∈ g.automaton.states.toList.zipIdx,
      (g.stateRow g.analyze entry).2.length =
        ∑ terminal ∈ g.terminals.toFinset, ((g.candidates entry.1 terminal).card - 1) := by
    intro entry hentry
    have hs : g.automaton.states[entry.2]? = some entry.1 := by
      simpa using List.mk_mem_zipIdx_iff_getElem?.mp hentry
    exact length_conflicts_state hg (state_stateSet hg hs) entry.2
  have hstates := (List.zipIdx_map_fst 0 g.automaton.states.toList).symm
  rw [hstates, List.map_map]
  simp only [table, List.length_flatMap, List.map_map, Function.comp_def]
  rw [List.map_congr_left hrows]

theorem conflicts_ne_nil (hg : Proper g) :
    g.table.conflicts ≠ [] ↔
      ∃ s ∈ g.automaton.states, ∃ terminal ∈ g.terminals, 2 ≤ (g.candidates s terminal).card := by
  rw [ne_eq, ← List.length_eq_zero_iff, length_conflicts hg, List.sum_eq_zero_iff]
  simp [Nat.sub_eq_zero_iff_le, Nat.lt_iff_add_one_le]

/-- A cell holds the best of the actions that the items of its state propose, whatever their order,
every other one of them is a conflict, and a strict table is refused iff there is one. -/
theorem cells_resolved {text : String} (hread : read text = .ok g) :
    (∀ (k : Nat) (s : State), g.automaton.states[k]? = some s →
      ∃ row, g.table.row? k = some row ∧ ∀ terminal,
        (∀ i ∈ s.items, g.next? i = some (.terminal terminal) →
          ∃ next, .shift next ∈ g.candidates s terminal) ∧
        Settled (g.candidates s terminal) (row.action? terminal)) ∧
    g.table.conflicts.length = (g.automaton.states.toList.map fun s =>
      ∑ terminal ∈ g.terminals.toFinset, ((g.candidates s terminal).card - 1)).sum ∧
    (∀ strict t, g.buildTable strict = .ok t → t = g.table) ∧
    ∀ strict, (∃ d, g.buildTable strict = .error d) ↔
      strict = true ∧
        ∃ s ∈ g.automaton.states, ∃ terminal ∈ g.terminals, 2 ≤ (g.candidates s terminal).card := by
  have hg := read_proper hread
  refine ⟨fun k s hs => ⟨_, row?_table hs, fun terminal => ⟨fun i hi hnext => ?_, ?_⟩⟩,
    length_conflicts hg, fun strict t => buildTable_eq, fun strict => ?_⟩
  · obtain ⟨next, hedge⟩ := edge_of_next hg hs hi hnext
    have hdot := (next?_lt hnext).ne
    refine ⟨next, List.mem_toFinset.mpr (List.mem_filterMap.mpr ⟨i, hi, ?_⟩)⟩
    simp only [next?] at hnext
    simp [Item.proposal?, hdot, hnext, hedge]
  · exact settled_state hg (state_stateSet hg hs) k terminal
  · rw [← conflicts_ne_nil hg]
    cases strict with
    | false => simp [buildTable]
    | true =>
      simp only [buildTable]
      cases g.table.conflicts with
      | nil => simp
      | cons c cs => simp

/-- A grammar in which an `a` before an `x` may be an `A`, a `B` or stand for itself. -/
def clash : Grammar :=
  ofProductions ⟨"S", [.nonterminal "A", .terminal "x"]⟩
    [⟨"S", [.nonterminal "B", .terminal "x"]⟩, ⟨"A", [.terminal "a"]⟩, ⟨"B", [.terminal "a"]⟩,
      ⟨"S", [.terminal "a", .terminal "x"]⟩, ⟨"S", [.terminal "a", .terminal "x", .terminal "y"]⟩]

theorem clash_read :
    read "<S> → <A> x\n<S> → <B> x\n<A> → a\n<B> → a\n<S> → a x\n<S> → a x y\n" = .ok clash := by
  rfl

/-- Behind an `a` two reductions and one shift, which two items propose, meet before an `x`. -/
theorem cells_resolved_clash :
    (∃ row, clash.table.row? 1 = some row ∧ row.action? "x" = some (.shift 5)) ∧
      clash.table.conflicts.length = 2 ∧ ∃ d, clash.buildTable true = .error d := by
  obtain ⟨hcells, hconflicts, _, hstrict⟩ := cells_resolved clash_read
  have hstate : ∃ s, clash.automaton.states[1]? = some s ∧
      clash.candidates s "x" = {.reduce 3, .reduce 4, .shift 5} := by decide +kernel
  obtain ⟨s, hs, hcandidates⟩ := hstate
  refine ⟨?_, hconflicts.trans (by decide +kernel), (hstrict true).mpr ⟨rfl, s, ?_, "x", ?_, ?_⟩⟩
  · obtain ⟨row, hrow, hrow'⟩ := hcells 1 s hs
    obtain ⟨_, hsettled⟩ := hrow' "x"
    exact ⟨row, hrow, hsettled.shift (by simp [hcandidates]) 5 (by simp [hcandidates])⟩
  · exact Array.mem_of_getElem? hs
  · decide +kernel
  · rw [hcandidates]
    decide

end Grammar

end DuckLang
