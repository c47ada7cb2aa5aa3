import DuckLang.Proofs.Grammar.Construction

/-! The automaton is the subset construction.  A string of symbols leads to the set of items that is
the closed start item advanced over each symbol in turn and closed again; these sets are the states,
and the edges follow them. -/

namespace DuckLang.Grammar

variable {g : Grammar}

/-! ### Sets of items -/

/-- The closure of a set of items: with an item whose dot stands before a non-terminal it has every
production listed for that non-terminal, the dot in front. -/
inductive Closure (g : Grammar) (kernel : Set Item) : Set Item
  | kernel {i : Item} (h : i ∈ kernel) : Closure g kernel i
  | predicted {i : Item} {name : String} {rule : Nat} (h : Closure g kernel i)
      (next : g.next? i = some (.nonterminal name)) (listed : rule ∈ g.idsOf name) :
      Closure g kernel { rule, dot := 0 }

/-- The items of a set that can be advanced over a symbol, the dot behind it. -/
def advanced (g : Grammar) (items : Set Item) (symbol : Symbol) : Set Item :=
  { i | ∃ j ∈ items, g.next? j = some symbol ∧ i = { j with dot := j.dot + 1 } }

/-- The start item closed, then advanced over each symbol of a string and closed again. -/
def itemsAfter (g : Grammar) (symbols : List Symbol) : Set Item :=
  symbols.foldl (fun items symbol => Closure g (g.advanced items symbol))
    (Closure g { ⟨0, 0⟩ })

/-- The items of a list. -/
def ItemSet.toSet (items : ItemSet) : Set Item := { i | i ∈ items }

theorem toSet_close (hg : Proper g) (items : ItemSet) :
    (g.close items).toSet = Closure g items.toSet := by
  ext i
  show i ∈ g.close items ↔ Closure g items.toSet i
  rw [mem_close hg]
  constructor
  · intro h
    induction h with
    | kernel h => exact .kernel h
    | @predicted i j _ hj ih =>
      obtain ⟨name, hnext, hid, hdot⟩ := mem_predictions.mp hj
      have hpredicted := Closure.predicted ih hnext hid
      rwa [← hdot] at hpredicted
  · intro h
    induction h with
    | kernel h => exact .kernel h
    | predicted _ next listed ih => exact .predicted ih (mem_predictions.mpr ⟨_, next, listed, rfl⟩)

theorem toSet_advance (items : ItemSet) (symbol : Symbol) :
    ItemSet.toSet (g.advance items symbol) = g.advanced items.toSet symbol := by
  ext i
  exact mem_advance

theorem itemsAfter_snoc (symbols : List Symbol) (symbol : Symbol) :
    g.itemsAfter (symbols ++ [symbol]) = Closure g (g.advanced (g.itemsAfter symbols) symbol) := by
  simp [itemsAfter]

/-- A closure is empty only if its kernel is. -/
theorem closure_nonempty {kernel : Set Item} : (Closure g kernel).Nonempty ↔ kernel.Nonempty := by
  constructor
  · rintro ⟨i, hi⟩
    induction hi with
    | kernel h => exact ⟨_, h⟩
    | predicted _ _ _ ih => exact ih
  · rintro ⟨i, hi⟩
    exact ⟨i, .kernel hi⟩

/-! ### Following edges -/

/-- The state to which the edges of the symbols of a string lead. -/
def Automaton.follow? (a : Automaton) : Nat → List Symbol → Option Nat
  | k, [] => some k
  | k, symbol :: symbols =>
    match a.states[k]?.bind (·.edges.lookup symbol) with
    | some j => a.follow? j symbols
    | none => none

/-- The states of an automaton are the sets of items that strings lead to. -/
structure Automaton.Subsets (g : Grammar) (a : Automaton) : Prop where
  /-- States with the same items are the same. -/
  distinct : ∀ {j k : Nat} {s t : State}, a.states[j]? = some s → a.states[k]? = some t →
    s.items.toSet = t.items.toSet → j = k
  /-- With a dot before a non-terminal a state has every production listed for it. -/
  closed : ∀ {k : Nat} {s : State}, a.states[k]? = some s → ∀ i ∈ s.items, ∀ name,
    g.next? i = some (.nonterminal name) → ∀ rule ∈ g.idsOf name, { rule, dot := 0 } ∈ s.items
  /-- Some string leads to every state. -/
  reached : ∀ {k : Nat} {s : State}, a.states[k]? = some s →
    ∃ symbols, a.follow? 0 symbols = some k
  /-- The edges of a string can be followed iff its items never run out. -/
  follows : ∀ symbols, (a.follow? 0 symbols).isSome ↔
    ∀ front, front <+: symbols → (g.itemsAfter front).Nonempty
  /-- They lead to the one state that has its items. -/
  ends : ∀ {symbols k}, a.follow? 0 symbols = some k →
    ∀ j, (∃ s, a.states[j]? = some s ∧ s.items.toSet = g.itemsAfter symbols) ↔ j = k

/-- Following a string from the state of another one. -/
theorem follow?_after (hg : Proper g) (symbols : List Symbol) {k : Nat} {s : State}
    {before : List Symbol} (hs : g.automaton.states[k]? = some s)
    (hset : s.items.toSet = g.itemsAfter before) (hne : (g.itemsAfter before).Nonempty) :
    ((g.automaton.follow? k symbols).isSome ↔
      ∀ front, front <+: symbols → (g.itemsAfter (before ++ front)).Nonempty) ∧
    ∀ j, g.automaton.follow? k symbols = some j →
      ∃ t, g.automaton.states[j]? = some t ∧ t.items.toSet = g.itemsAfter (before ++ symbols) := by
  induction symbols generalizing k s before with
  | nil =>
    constructor
    · simpa [Automaton.follow?] using hne
    · intro j hj
      obtain rfl : k = j := Option.some.inj hj
      exact ⟨s, hs, by rwa [List.append_nil]⟩
  | cons symbol symbols ih =>
    have hnext : (g.itemsAfter (before ++ [symbol])).Nonempty ↔
        ∃ i ∈ s.items, g.next? i = some symbol := by
      rw [itemsAfter_snoc, closure_nonempty, ← hset]
      constructor
      · rintro ⟨_, j, hj, hnext, _⟩
        exact ⟨j, hj, hnext⟩
      · rintro ⟨j, hj, hnext⟩
        exact ⟨_, j, hj, hnext, rfl⟩
    cases hedge : s.edges.lookup symbol with
    | none =>
      have hstuck : g.automaton.follow? k (symbol :: symbols) = none := by
        simp [Automaton.follow?, hs, hedge]
      rw [hstuck]
      refine ⟨⟨by simp, fun h => ?_⟩, by simp⟩
      obtain ⟨i, hi, hi'⟩ := hnext.mp (h [symbol] (by simp))
      obtain ⟨j, hj⟩ := edge_of_next hg hs hi hi'
      simp [hedge] at hj
    | some j =>
      have hgo : g.automaton.follow? k (symbol :: symbols) = g.automaton.follow? j symbols := by
        simp [Automaton.follow?, hs, hedge]
      obtain ⟨t, ht, hitems⟩ := edge_target hg hs hedge
      have hset' : t.items.toSet = g.itemsAfter (before ++ [symbol]) := by
        rw [hitems, toSet_close hg, toSet_advance, hset, itemsAfter_snoc]
      have hne' := hnext.mpr (next_of_edge hg hs hedge)
      obtain ⟨hsome, hends⟩ := ih ht hset' hne'
      rw [hgo]
      simp only [List.append_assoc, List.singleton_append] at hsome hends
      refine ⟨hsome.trans ⟨fun h front hfront => ?_, fun h front hfront => ?_⟩, hends⟩
      · cases front with
        | nil => rwa [List.append_nil]
        | cons x front =>
          obtain ⟨rfl, hrest⟩ := List.cons_prefix_cons.mp hfront
          exact h front hrest
      · exact h (symbol :: front) (List.cons_prefix_cons.mpr ⟨rfl, hfront⟩)

theorem itemsAfter_nil_nonempty : (g.itemsAfter []).Nonempty :=
  closure_nonempty.mpr ⟨_, rfl⟩

theorem toSet_startItems (hg : Proper g) :
    g.startItems.toSet = g.itemsAfter [] := by
  rw [startItems, toSet_close hg]
  show Closure g _ = Closure g _
  congr 1
  ext i
  exact List.mem_singleton

theorem follow?_append (a : Automaton) (k : Nat) (u v : List Symbol) :
    a.follow? k (u ++ v) = (a.follow? k u).bind (a.follow? · v) := by
  induction u generalizing k with
  | nil => rfl
  | cons symbol u ih =>
    simp only [List.cons_append, Automaton.follow?]
    split
    · exact ih _
    · rfl

/-- States with the same items are the same. -/
theorem index_unique (hg : Proper g) {j k : Nat} {s t : State}
    (hs : g.automaton.states[j]? = some s) (ht : g.automaton.states[k]? = some t)
    (h : s.items.toSet = t.items.toSet) : j = k := by
  have hitems : s.items = t.items :=
    (state_stateSet hg hs).increasing.ext (state_stateSet hg ht).increasing
      fun i => Set.ext_iff.mp h i
  have hget : ∀ {k : Nat} {s : State}, g.automaton.states[k]? = some s →
      (g.automaton.states.toList.map (·.items))[k]? = some s.items := by
    intro k s hs
    simp [hs]
  obtain ⟨hlt, hj⟩ := List.getElem?_eq_some_iff.mp (hget hs)
  obtain ⟨hlt', hk⟩ := List.getElem?_eq_some_iff.mp (hget ht)
  exact (states_nodup hg).getElem_inj_iff.mp (hj.trans (hitems.trans hk.symm))

/-- An edge is found by its symbol. -/
theorem lookup_of_edge (hg : Proper g) {j k : Nat} {s : State} {symbol : Symbol}
    (hs : g.automaton.states[j]? = some s) (hedge : (symbol, k) ∈ s.edges) :
    s.edges.lookup symbol = some k := by
  obtain ⟨k', hk'⟩ := Option.isSome_iff_exists.mp
    (List.lookup_isSome_iff.mpr ⟨_, hedge, beq_self_eq_true symbol⟩)
  obtain ⟨tail, h⟩ := automaton_explored hg
  obtain ⟨_, hget⟩ :=
    (h.linked s (Array.mem_toList_iff.mpr (Array.mem_of_getElem? hs))).target hedge
  obtain ⟨t, ht, hitems⟩ := h.state hget
  obtain ⟨t', ht', hitems'⟩ := edge_target hg hs hk'
  obtain rfl : k' = k := index_unique hg ht' (by simpa using ht) (by rw [hitems, hitems'])
  exact hk'

/-- Some string leads to every state. -/
theorem follow?_onto (hg : Proper g) {k : Nat} {t : State}
    (ht : g.automaton.states[k]? = some t) : ∃ symbols, g.automaton.follow? 0 symbols = some k := by
  induction k using Nat.strongRecOn generalizing t with
  | ind k ih =>
    cases k with
    | zero => exact ⟨[], rfl⟩
    | succ k =>
      -- the state was found from one before it
      obtain ⟨j, hj, s, hs, symbol, hsymbol⟩ := explore_new (g := g) (2 ^ g.itemCount) 0
        [g.startItems] (k := k + 1) (t := t) (by simpa [automaton] using ht) (by simp)
      have hs : g.automaton.states[j]? = some s := by simpa [automaton] using hs
      rw [Nat.zero_add] at hsymbol
      obtain ⟨symbols, hsymbols⟩ := ih j hj hs
      refine ⟨symbols ++ [symbol], ?_⟩
      simp [follow?_append, hsymbols, Automaton.follow?, hs, lookup_of_edge hg hs hsymbol]

/-- The automaton is the subset construction. -/
theorem automaton_subsets (hg : Proper g) : g.automaton.Subsets g where
  distinct := index_unique hg
  closed := fun hs i hi name hnext rule hrule =>
    (state_stateSet hg hs).closed i hi _ (mem_predictions.mpr ⟨name, hnext, hrule, rfl⟩)
  reached := follow?_onto hg
  follows := by
    obtain ⟨s, hs, hitems⟩ := automaton_start hg
    have hset := hitems ▸ toSet_startItems hg
    intro symbols
    simpa using (follow?_after hg symbols hs hset itemsAfter_nil_nonempty).1
  ends := by
    obtain ⟨s, hs, hitems⟩ := automaton_start hg
    have hset := hitems ▸ toSet_startItems hg
    intro symbols k hk j
    obtain ⟨t, ht, htset⟩ := (follow?_after hg symbols hs hset itemsAfter_nil_nonempty).2 k hk
    constructor
    · rintro ⟨u, hu, huset⟩
      exact index_unique hg hu ht (huset.trans htset.symm)
    · rintro rfl
      exact ⟨t, ht, htset⟩

/-- The automaton of a grammar is the subset construction, in whatever order it is made. -/
theorem automaton_exact {text : String} {g : Grammar} (hread : read text = .ok g) :
    g.automaton.Subsets g ∧ g.automaton.OrderFree g :=
  ⟨automaton_subsets (read_proper hread), automaton_orderFree (read_proper hread)⟩

/-- Brackets around brackets. -/
def brackets : Grammar :=
  ofProductions ⟨"S", [.terminal "(", .nonterminal "S", .terminal ")"]⟩ [⟨"S", []⟩]

theorem brackets_read : read "<S> → ( <S> )\n<S> → ε\n" = .ok brackets := by
  rfl

/-- Brackets can be opened again and again, but nothing closes before it was open. -/
theorem automaton_exact_brackets :
    (brackets.itemsAfter [.terminal "(", .terminal "("]).Nonempty ∧
      ¬(brackets.itemsAfter [.terminal ")"]).Nonempty ∧
      ∃ d, Draft.Start brackets d ∧ Acc (fun next d => Draft.Step brackets d next) d := by
  obtain ⟨hsubsets, horder⟩ := automaton_exact brackets_read
  refine ⟨?_, fun h => ?_, ?_⟩
  · exact (hsubsets.follows [.terminal "(", .terminal "("]).mp (by decide +kernel) _
      (List.prefix_refl _)
  · have hfollows : (brackets.automaton.follow? 0 [.terminal ")"]).isSome := by
      refine (hsubsets.follows [.terminal ")"]).mpr fun front hfront => ?_
      rcases List.prefix_cons_iff.mp hfront with rfl | ⟨rest, rfl, hrest⟩
      · exact itemsAfter_nil_nonempty
      · rwa [List.prefix_nil.mp hrest]
    revert hfollows
    decide +kernel
  · obtain ⟨d, hd⟩ := horder.starts
    exact ⟨d, hd, horder.ends hd⟩

end DuckLang.Grammar
