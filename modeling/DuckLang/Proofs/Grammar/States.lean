import DuckLang.Proofs.Grammar.Closure
import Mathlib.Data.Finset.Powerset

/-! The states of the LR(0) automaton.  The walk finds all of them within the number of steps it is
given, as there are no more states than sets of items.  State 0 is the closure of the start item,
and a state has an edge for each symbol behind a dot, to the closure of the items advanced over
it. -/

namespace DuckLang.Grammar

variable {g : Grammar}

/-- An item of a production of the grammar, its dot inside of the body or at its end. -/
def Item.Valid (g : Grammar) (i : Item) : Prop :=
  i.rule < g.productions.size ∧ i.dot ≤ (g.production i.rule).body.length

/-- What every set of items that is found satisfies. -/
structure StateSet (g : Grammar) (items : ItemSet) : Prop where
  increasing : items.Increasing
  valid : ∀ i ∈ items, i.Valid g
  closed : ∀ i ∈ items, ∀ j ∈ g.predictions i, j ∈ items

theorem next?_lt {i : Item} {symbol : Symbol} (h : g.next? i = some symbol) :
    i.dot < (g.production i.rule).body.length :=
  (List.getElem?_eq_some_iff.mp h).1

theorem InClosure.valid (hg : Proper g) {items : ItemSet}
    (hitems : ∀ i ∈ items, i.Valid g) {i : Item} (h : InClosure g items i) : i.Valid g := by
  induction h with
  | kernel h => exact hitems _ h
  | predicted _ hj _ =>
    obtain ⟨_, _, hid, hdot⟩ := mem_predictions.mp hj
    exact ⟨mem_idsOf_lt hg hid, by omega⟩

theorem close_stateSet (hg : Proper g) {items : ItemSet}
    (hinc : items.Increasing) (hvalid : ∀ i ∈ items, i.Valid g) : StateSet g (g.close items) where
  increasing := close_increasing hinc
  valid := fun _ hi => ((mem_close hg).mp hi).valid hg hvalid
  closed := fun _ hi _ hj => close_closed hg hi hj

theorem startItems_stateSet (hg : Proper g) : StateSet g g.startItems := by
  refine close_stateSet hg (List.pairwise_singleton ..) fun i hi => ?_
  obtain rfl := List.mem_singleton.mp hi
  exact ⟨hg.size_pos, Nat.zero_le _⟩

theorem StateSet.advance (hg : Proper g) {items : ItemSet}
    (h : StateSet g items) (symbol : Symbol) :
    StateSet g (g.close (g.advance items symbol)) := by
  refine close_stateSet hg (advance_increasing h.increasing symbol) fun i hi => ?_
  obtain ⟨j, hj, hnext, rfl⟩ := mem_advance.mp hi
  exact ⟨(h.valid j hj).1, next?_lt hnext⟩

/-- Every item of a grammar. -/
def allItems (g : Grammar) : List Item :=
  (List.range g.productions.size).flatMap fun rule =>
    (List.range ((g.production rule).body.length + 1)).map fun dot => { rule, dot }

theorem mem_allItems {i : Item} : i ∈ g.allItems ↔ i.Valid g := by
  simp only [allItems, List.mem_flatMap, List.mem_map, List.mem_range, Item.Valid]
  constructor
  · rintro ⟨rule, hrule, dot, hdot, rfl⟩
    exact ⟨hrule, by simpa using Nat.le_of_lt_succ hdot⟩
  · rintro ⟨hrule, hdot⟩
    exact ⟨i.rule, hrule, i.dot, by omega, rfl⟩

theorem length_allItems : g.allItems.length = g.itemCount := by
  have hfold : ∀ ps : List Production,
      ps.foldr (fun p n => p.body.length + 1 + n) 0 = (ps.map fun p => p.body.length + 1).sum := by
    intro ps
    induction ps with
    | nil => rfl
    | cons p ps ih => simp [ih]
  have hlist : (List.range g.productions.size).map g.production = g.productions.toList := by
    apply List.ext_getElem
    · simp
    · intro k hk _
      simp only [List.length_map, List.length_range] at hk
      simp [production, hk]
  simp only [allItems, itemCount, hfold, ← hlist, List.length_flatMap, List.length_map,
    List.length_range, List.map_map]
  rfl

/-- There are at most as many different state sets as sets of items. -/
theorem length_le_of_stateSets {found : List ItemSet} (hnodup : found.Nodup)
    (hsets : ∀ s ∈ found, StateSet g s) : found.length ≤ 2 ^ g.itemCount := by
  have hinj : Set.InjOn (fun s : ItemSet => s.toFinset) (found.toFinset : Set ItemSet) := by
    intro s hs t ht heq
    have hs' := hsets s (List.mem_toFinset.mp (Finset.mem_coe.mp hs))
    have ht' := hsets t (List.mem_toFinset.mp (Finset.mem_coe.mp ht))
    refine hs'.increasing.ext ht'.increasing fun i => ?_
    rw [← List.mem_toFinset, ← List.mem_toFinset]
    exact Finset.ext_iff.mp heq i
  have hmaps : ∀ s ∈ found.toFinset, s.toFinset ∈ g.allItems.toFinset.powerset := by
    intro s hs
    simp only [Finset.mem_powerset]
    intro i hi
    exact List.mem_toFinset.mpr
      (mem_allItems.mpr ((hsets s (List.mem_toFinset.mp hs)).valid i (List.mem_toFinset.mp hi)))
  calc found.length
      = found.toFinset.card := (List.toFinset_card_of_nodup hnodup).symm
    _ ≤ g.allItems.toFinset.powerset.card := Finset.card_le_card_of_injOn _ hmaps hinj
    _ = 2 ^ g.allItems.toFinset.card := Finset.card_powerset _
    _ ≤ 2 ^ g.itemCount :=
      Nat.pow_le_pow_right Nat.two_pos (length_allItems (g := g) ▸ List.toFinset_card_le _)

/-- The edges out of a set of items, as far as `symbols` goes, into a list of sets. -/
structure Linked (g : Grammar) (items : ItemSet) (symbols : List Symbol)
    (edges : List (Symbol × Nat)) (all : List ItemSet) : Prop where
  target : ∀ {symbol index}, (symbol, index) ∈ edges →
    g.advance items symbol ≠ [] ∧ all[index]? = some (g.close (g.advance items symbol))
  edge : ∀ {symbol}, symbol ∈ symbols → g.advance items symbol ≠ [] →
    ∃ index, (symbol, index) ∈ edges

theorem Linked.mono {items : ItemSet} {symbols : List Symbol} {edges : List (Symbol × Nat)}
    {all more : List ItemSet} (h : Linked g items symbols edges all) (hmore : all <+: more) :
    Linked g items symbols edges more where
  target := by
    intro symbol index hmem
    obtain ⟨hne, hget⟩ := h.target hmem
    obtain ⟨tail, rfl⟩ := hmore
    obtain ⟨hlt, heq⟩ := List.getElem?_eq_some_iff.mp hget
    refine ⟨hne, ?_⟩
    rw [List.getElem?_append_left hlt]
    exact hget
  edge := h.edge

/-- An edge more in front. -/
theorem Linked.cons {items : ItemSet} {symbol : Symbol} {symbols : List Symbol}
    {edges : List (Symbol × Nat)} {all : List ItemSet} {index : Nat}
    (h : Linked g items symbols edges all) (hne : g.advance items symbol ≠ [])
    (hindex : all[index]? = some (g.close (g.advance items symbol))) :
    Linked g items (symbol :: symbols) ((symbol, index) :: edges) all where
  target := by
    intro s i hmem
    rcases List.mem_cons.mp hmem with heq | hmem
    · cases heq
      exact ⟨hne, hindex⟩
    · exact h.target hmem
  edge := by
    intro s hs hs'
    rcases List.mem_cons.mp hs with rfl | hs
    · exact ⟨index, List.mem_cons_self⟩
    · obtain ⟨i, hi⟩ := h.edge hs hs'
      exact ⟨i, List.mem_cons_of_mem _ hi⟩

/-- Linking a set appends new sets, those of edges, and each of them once. -/
theorem link_linked (items : ItemSet) (symbols : List Symbol) (found : List ItemSet) :
    found <+: (g.link items symbols found).2 ∧
      Linked g items symbols (g.link items symbols found).1 (g.link items symbols found).2 ∧
      (found.Nodup → (g.link items symbols found).2.Nodup) ∧
      ∀ s ∈ (g.link items symbols found).2, s ∈ found ∨
        ∃ symbol, s = g.close (g.advance items symbol) := by
  induction symbols generalizing found with
  | nil =>
    refine ⟨List.prefix_refl _, ⟨?_, ?_⟩, id, fun s hs => .inl hs⟩
    · intro symbol index h
      simp [link] at h
    · intro symbol h
      simp at h
  | cons symbol symbols ih =>
    simp only [link]
    split
    · rename_i hnil
      obtain ⟨hkept, hlinked, hnodup, hnew⟩ := ih found
      refine ⟨hkept, ⟨hlinked.target, ?_⟩, hnodup, hnew⟩
      intro s hs hs'
      rcases List.mem_cons.mp hs with rfl | hs
      · exact absurd hnil hs'
      · exact hlinked.edge hs hs'
    · rename_i hne
      have hne : g.advance items symbol ≠ [] := fun h => hne h
      split
      · rename_i index hindex
        obtain ⟨hkept, hlinked, hnodup, hnew⟩ := ih found
        obtain ⟨hlt, heq, _⟩ := List.idxOf?_eq_some_iff.mp hindex
        refine ⟨hkept, hlinked.cons hne ?_, hnodup, hnew⟩
        obtain ⟨tail, htail⟩ := hkept
        rw [← htail, List.getElem?_append_left hlt, List.getElem?_eq_getElem hlt, heq]
      · rename_i hindex
        obtain ⟨hkept, hlinked, hnodup, hnew⟩ :=
          ih (found ++ [g.close (g.advance items symbol)])
        have hmem : g.close (g.advance items symbol) ∉ found := by
          simpa using hindex
        refine ⟨(List.prefix_append _ _).trans hkept, hlinked.cons hne ?_, ?_, ?_⟩
        · obtain ⟨tail, htail⟩ := hkept
          rw [← htail]
          simp
        · intro h
          refine hnodup (List.nodup_append.mpr ⟨h, by simp, ?_⟩)
          rintro a ha b hb rfl
          exact hmem (by simpa [List.mem_singleton.mp hb] using ha)
        · intro s hs
          rcases hnew s hs with hs | hs
          · rcases List.mem_append.mp hs with hs | hs
            · exact .inl hs
            · exact .inr ⟨symbol, List.mem_singleton.mp hs⟩
          · exact .inr hs

/-- What linking a set appends has an edge to it. -/
theorem link_new (items : ItemSet) (symbols : List Symbol) (found : List ItemSet) {index : Nat}
    (hnew : found.length ≤ index) (hlt : index < (g.link items symbols found).2.length) :
    ∃ symbol, (symbol, index) ∈ (g.link items symbols found).1 := by
  induction symbols generalizing found with
  | nil =>
    simp only [link] at hlt
    omega
  | cons symbol symbols ih =>
    simp only [link] at hlt ⊢
    split at hlt
    · exact ih found hnew hlt
    · split at hlt
      · obtain ⟨s, hs⟩ := ih found hnew hlt
        exact ⟨s, List.mem_cons_of_mem _ hs⟩
      · by_cases hindex : index = found.length
        · exact ⟨symbol, by simp [hindex]⟩
        · obtain ⟨s, hs⟩ := ih (found ++ [g.close (g.advance items symbol)])
            (by simp; omega) hlt
          exact ⟨s, List.mem_cons_of_mem _ hs⟩

/-- The states that a walk makes of the sets from position `done` on. -/
structure Explored (g : Grammar) (done : Nat) (states : List State) (all : List ItemSet) :
    Prop where
  items : states.map (·.items) = all.drop done
  linked : ∀ s ∈ states, Linked g s.items g.symbols s.edges all
  sets : ∀ s ∈ all, StateSet g s

theorem explore_explored (hg : Proper g) (fuel : Nat) {done : Nat}
    {found : List ItemSet} (hfuel : 2 ^ g.itemCount ≤ fuel + done) (hnodup : found.Nodup)
    (hsets : ∀ s ∈ found, StateSet g s) :
    ∃ all, found <+: all ∧ all.Nodup ∧ Explored g done (g.explore fuel done found) all := by
  induction fuel generalizing done found with
  | zero =>
    -- every set is done: there are no more than the bound
    have := length_le_of_stateSets hnodup hsets
    refine ⟨found, List.prefix_refl _, hnodup, ?_, by simp [explore], hsets⟩
    simp [explore, List.drop_eq_nil_of_le (show found.length ≤ done by omega)]
  | succ fuel ih =>
    simp only [explore]
    split
    · rename_i hnone
      refine ⟨found, List.prefix_refl _, hnodup, ?_, by simp, hsets⟩
      simp [List.drop_eq_nil_of_le (List.getElem?_eq_none_iff.mp hnone)]
    · rename_i items hitems
      obtain ⟨hkept, hlinked, hn, hnew⟩ := link_linked (g := g) items g.symbols found
      have hset := hsets items (List.mem_of_getElem? hitems)
      obtain ⟨all, hall, hallNodup, hexplored⟩ :=
        @ih (done + 1) (g.link items g.symbols found).2 (by omega) (hn hnodup) fun s hs => by
            rcases hnew s hs with hs | ⟨symbol, rfl⟩
            · exact hsets s hs
            · exact hset.advance hg symbol
      refine ⟨all, hkept.trans hall, hallNodup, ?_, ?_, hexplored.sets⟩
      · obtain ⟨hlt, heq⟩ := List.getElem?_eq_some_iff.mp hitems
        obtain ⟨tail, rfl⟩ := hkept.trans hall
        rw [List.map_cons, hexplored.items, ← heq]
        rw [List.drop_eq_getElem_cons (i := done) (by simp; omega)]
        rw [List.getElem_append_left hlt]
      · intro s hs
        rcases List.mem_cons.mp hs with rfl | hs
        · exact hlinked.mono hall
        · exact hexplored.linked s hs

/-- A state other than those found at first has an edge from a state before it. -/
theorem explore_new (fuel done : Nat) (found : List ItemSet) {k : Nat} {t : State}
    (ht : (g.explore fuel done found)[k]? = some t) (hnew : found.length ≤ done + k) :
    ∃ j < k, ∃ s, (g.explore fuel done found)[j]? = some s ∧
      ∃ symbol, (symbol, done + k) ∈ s.edges := by
  induction fuel generalizing done found k with
  | zero => simp [explore] at ht
  | succ fuel ih =>
    simp only [explore] at ht ⊢
    split at ht
    · simp at ht
    · rename_i items hitems
      cases k with
      | zero =>
        have := (List.getElem?_eq_some_iff.mp hitems).1
        omega
      | succ k =>
        simp only [List.getElem?_cons_succ] at ht
        by_cases hlt : done + (k + 1) < (g.link items g.symbols found).2.length
        · obtain ⟨symbol, hsymbol⟩ := link_new items g.symbols found hnew hlt
          exact ⟨0, Nat.succ_pos k, _, rfl, symbol, hsymbol⟩
        · obtain ⟨j, hj, s, hs, symbol, hsymbol⟩ := ih (done + 1) _ ht (by omega)
          refine ⟨j + 1, by omega, s, by simpa using hs, symbol, ?_⟩
          rwa [show done + (k + 1) = done + 1 + k by omega]

theorem automaton_explored (hg : Proper g) :
    ∃ tail, Explored g 0 g.automaton.states.toList (g.startItems :: tail) := by
  obtain ⟨all, ⟨tail, rfl⟩, _, h⟩ := @explore_explored g hg (2 ^ g.itemCount) 0
    [g.startItems] (by omega) (by simp) (by simpa using startItems_stateSet hg)
  exact ⟨tail, h⟩

/-- No two states have the same items. -/
theorem states_nodup (hg : Proper g) : (g.automaton.states.toList.map (·.items)).Nodup := by
  obtain ⟨all, _, hnodup, h⟩ := @explore_explored g hg (2 ^ g.itemCount) 0
    [g.startItems] (by omega) (by simp) (by simpa using startItems_stateSet hg)
  have hitems : g.automaton.states.toList.map (·.items) = all := h.items
  rwa [hitems]

theorem Explored.state {states : List State} {all : List ItemSet} (h : Explored g 0 states all)
    {k : Nat} {items : ItemSet} (hk : all[k]? = some items) :
    ∃ s, states[k]? = some s ∧ s.items = items := by
  have hmap := congrArg (·[k]?) h.items
  simp only [List.drop_zero, List.getElem?_map, hk, Option.map_eq_some_iff] at hmap
  exact hmap

theorem Explored.stateSet {states : List State} {all : List ItemSet} (h : Explored g 0 states all)
    {s : State} (hs : s ∈ states) : StateSet g s.items := by
  have hmem : s.items ∈ states.map (·.items) := List.mem_map_of_mem hs
  rw [h.items, List.drop_zero] at hmem
  exact h.sets _ hmem

/-- State 0 has the closure of the start item. -/
theorem automaton_start (hg : Proper g) :
    ∃ s, g.automaton.states[0]? = some s ∧ s.items = g.startItems := by
  obtain ⟨tail, h⟩ := automaton_explored hg
  have hzero : (g.startItems :: tail)[0]? = some g.startItems := rfl
  simpa using h.state hzero

theorem state_stateSet (hg : Proper g) {k : Nat} {s : State}
    (hs : g.automaton.states[k]? = some s) : StateSet g s.items := by
  obtain ⟨tail, h⟩ := automaton_explored hg
  exact h.stateSet (Array.mem_toList_iff.mpr (Array.mem_of_getElem? hs))

/-- An edge leads to the closure of the items advanced over its symbol. -/
theorem edge_target (hg : Proper g) {k j : Nat} {s : State} {symbol : Symbol}
    (hs : g.automaton.states[k]? = some s) (hedge : s.edges.lookup symbol = some j) :
    ∃ t, g.automaton.states[j]? = some t ∧ t.items = g.close (g.advance s.items symbol) := by
  obtain ⟨tail, h⟩ := automaton_explored hg
  have hmem : (symbol, j) ∈ s.edges := by
    obtain ⟨_, _, heq, _⟩ := List.lookup_eq_some_iff.mp hedge
    simp [heq]
  obtain ⟨_, hget⟩ :=
    (h.linked s (Array.mem_toList_iff.mpr (Array.mem_of_getElem? hs))).target hmem
  obtain ⟨t, ht, hitems⟩ := h.state hget
  exact ⟨t, by simpa using ht, hitems⟩

/-- An edge is for a symbol behind a dot. -/
theorem next_of_edge (hg : Proper g) {k j : Nat} {s : State} {symbol : Symbol}
    (hs : g.automaton.states[k]? = some s) (hedge : s.edges.lookup symbol = some j) :
    ∃ i ∈ s.items, g.next? i = some symbol := by
  obtain ⟨tail, h⟩ := automaton_explored hg
  have hmem : (symbol, j) ∈ s.edges := by
    obtain ⟨_, _, heq, _⟩ := List.lookup_eq_some_iff.mp hedge
    simp [heq]
  obtain ⟨hne, _⟩ :=
    (h.linked s (Array.mem_toList_iff.mpr (Array.mem_of_getElem? hs))).target hmem
  obtain ⟨i, hi⟩ := List.exists_mem_of_ne_nil _ hne
  obtain ⟨j, hj, hnext, _⟩ := mem_advance.mp hi
  exact ⟨j, hj, hnext⟩

/-- A symbol behind a dot has an edge. -/
theorem edge_of_next (hg : Proper g) {k : Nat} {s : State} {symbol : Symbol} {i : Item}
    (hs : g.automaton.states[k]? = some s) (hi : i ∈ s.items) (hnext : g.next? i = some symbol) :
    ∃ j, s.edges.lookup symbol = some j := by
  obtain ⟨tail, h⟩ := automaton_explored hg
  have hsymbol : symbol ∈ g.symbols :=
    hg.symbol_mem (rule_of_lt ((state_stateSet hg hs).valid i hi).1) (List.mem_of_getElem? hnext)
  have hne : g.advance s.items symbol ≠ [] :=
    List.ne_nil_of_mem (mem_advance.mpr ⟨i, hi, hnext, rfl⟩)
  obtain ⟨j, hj⟩ :=
    (h.linked s (Array.mem_toList_iff.mpr (Array.mem_of_getElem? hs))).edge hsymbol hne
  refine Option.isSome_iff_exists.mp (List.lookup_isSome_iff.mpr ⟨_, hj, ?_⟩)
  simp

/-- The items behind an edge. -/
theorem advanced_mem (hg : Proper g) {j k : Nat} {s t : State} {symbol : Symbol} {i : Item}
    (hs : g.automaton.states[k]? = some s) (hedge : s.edges.lookup symbol = some j)
    (ht : g.automaton.states[j]? = some t) (hi : i ∈ s.items)
    (hnext : g.next? i = some symbol) : { i with dot := i.dot + 1 } ∈ t.items := by
  obtain ⟨t', ht', hitems⟩ := edge_target hg hs hedge
  obtain rfl : t' = t := Option.some.inj (ht'.symm.trans ht)
  rw [hitems, mem_close hg]
  exact .kernel (mem_advance.mpr ⟨i, hi, hnext, rfl⟩)

end DuckLang.Grammar
