import DuckLang.Proofs.Grammar.Exactness
import DuckLang.Proofs.Grammar.Subsets
import DuckLang.Proofs.Parser.Completeness

/-! What can still become of a stack.  The table is taken here as a machine on strings of symbols,
as the symbols that a stack spells tell its states.  If every non-terminal derives a word and there
are no conflicts, every stack is the front of a form that the start derives, with some word behind
it that the machine accepts. -/

namespace DuckLang.Parser

open Grammar (Proper FreshStart Item State Yields word)
open Token.Kind (endMarker)
open Table (Action)

variable {g : Grammar} {symbols below : List Grammar.Symbol} {k : Nat} {s : State} {x : String}

/-! ### States on strings -/

/-- The state on top of a stack that spells the given symbols. -/
structure Stands (g : Grammar) (symbols : List Grammar.Symbol) (k : Nat) (s : State) : Prop where
  spelt : ∃ stack, Spells g stack symbols k
  state : g.automaton.states[k]? = some s

theorem Climbs.follow? {Γ : Type} {Made : Grammar.Symbol → Γ → Attribute → Γ → Prop} {base γ : Γ}
    {stack : List (Int × Attribute)} (h : Climbs g Made base stack symbols k γ) :
    g.automaton.follow? 0 symbols.reverse = some k := by
  induction h with
  | bottom => rfl
  | push _ state edge _ ih =>
    rw [List.reverse_cons, Grammar.follow?_append, ih]
    simp [Grammar.Automaton.follow?, state, edge]

theorem spells_of_follow? (h : g.automaton.follow? 0 symbols.reverse = some k) :
    ∃ stack, Spells g stack symbols k := by
  induction symbols generalizing k with
  | nil =>
    obtain rfl : 0 = k := Option.some.inj h
    exact ⟨[], .bottom⟩
  | cons symbol symbols ih =>
    rw [List.reverse_cons, Grammar.follow?_append, Option.bind_eq_some_iff] at h
    obtain ⟨k', hk', h⟩ := h
    obtain ⟨stack, hstack⟩ := ih hk'
    simp only [Grammar.Automaton.follow?] at h
    split at h
    · rename_i j hedge
      obtain rfl : j = k := Option.some.inj h
      obtain ⟨s', hs', hedge⟩ := Option.bind_eq_some_iff.mp hedge
      exact ⟨_, .push (a := .lexeme "") hstack hs' hedge trivial⟩
    · cases h

theorem stands_bottom (hg : Proper g) :
    ∃ s, Stands g [] 0 s ∧ { rule := 0, dot := 0 } ∈ s.items := by
  obtain ⟨s, hs, _⟩ := Grammar.automaton_start hg
  exact ⟨s, ⟨⟨[], .bottom⟩, hs⟩, start_item_mem hg hs⟩

theorem Stands.push {j : Nat} {t : State} {symbol : Grammar.Symbol} (h : Stands g symbols k s)
    (hedge : s.edges.lookup symbol = some j) (ht : g.automaton.states[j]? = some t) :
    Stands g (symbol :: symbols) j t := by
  obtain ⟨stack, hstack⟩ := h.spelt
  exact ⟨⟨_, .push (a := .lexeme "") hstack h.state hedge trivial⟩, ht⟩

/-- The state behind a symbol that an item has next. -/
theorem Stands.next (hg : Proper g) (h : Stands g symbols k s) {i : Item} (hi : i ∈ s.items)
    {symbol : Grammar.Symbol} (hnext : g.next? i = some symbol) :
    ∃ j t, s.edges.lookup symbol = some j ∧ Stands g (symbol :: symbols) j t ∧
      { i with dot := i.dot + 1 } ∈ t.items := by
  obtain ⟨j, hedge⟩ := Grammar.edge_of_next hg h.state hi hnext
  obtain ⟨t, ht, _⟩ := Grammar.edge_target hg h.state hedge
  refine ⟨j, t, hedge, h.push hedge ht, ?_⟩
  exact Grammar.advanced_mem hg h.state hedge ht hi hnext

/-- The state behind the rest of the body of an item. -/
theorem Stands.over (hg : Proper g) (h : Stands g symbols k s) {i : Item} (hi : i ∈ s.items)
    {rest : List Grammar.Symbol} (hrest : (g.production i.rule).body.drop i.dot = rest) :
    ∃ k' s', Stands g (rest.reverse ++ symbols) k' s' ∧
      { rule := i.rule, dot := (g.production i.rule).body.length } ∈ s'.items := by
  induction rest generalizing symbols k s i with
  | nil => exact ⟨k, s, h, complete_of_drop hg h.state hi hrest⟩
  | cons symbol rest ih =>
    obtain ⟨hnext, hdrop⟩ := next_of_drop hrest
    obtain ⟨j, t, _, ht, hi'⟩ := h.next hg hi hnext
    obtain ⟨k', s', h', hcomplete⟩ := ih ht hi' hdrop
    exact ⟨k', s', by simpa using h', hcomplete⟩

/-- What lies below the part of a body before the dot, which the rest of the body makes whole. -/
theorem Stands.beneath (hg : Proper g) (h : Stands g symbols k s) {i : Item} (hi : i ∈ s.items) :
    ∃ k' s', i.dot ≤ symbols.length ∧
      (g.production i.rule).body.reverse ++ symbols.drop i.dot =
        ((g.production i.rule).body.drop i.dot).reverse ++ symbols ∧
      Stands g (symbols.drop i.dot) k' s' ∧ { i with dot := 0 } ∈ s'.items := by
  obtain ⟨stack, hstack⟩ := h.spelt
  obtain ⟨k', s', _, b⟩ := Climbs.beneath hg hstack h.state hi
  refine ⟨k', s', ?_, ?_, ⟨⟨_, b.climbs⟩, b.state⟩, b.item⟩
  · rw [hstack.length_eq]
    exact b.enough
  · conv_lhs => rw [← List.take_append_drop i.dot (g.production i.rule).body]
    rw [List.reverse_append, ← b.body, List.append_assoc, List.take_append_drop]

/-- No state is without items. -/
theorem Stands.item_exists (hg : Proper g) (h : Stands g symbols k s) : ∃ i, i ∈ s.items := by
  obtain ⟨stack, hstack⟩ := h.spelt
  cases hstack with
  | bottom => exact ⟨_, start_item_mem hg h.state⟩
  | push _ state edge _ =>
    obtain ⟨i, hi, hnext⟩ := Grammar.next_of_edge hg state edge
    exact ⟨_, Grammar.advanced_mem hg state edge h.state hi hnext⟩

/-! ### The machine -/

/-- The action that the table has on a terminal, with the given symbols on the stack. -/
def cell? (g : Grammar) (symbols : List Grammar.Symbol) (x : String) : Option Action :=
  (g.automaton.follow? 0 symbols.reverse).bind fun k => (g.table.row? k).bind (·.action? x)

theorem Stands.cell? (h : Stands g symbols k s) (x : String) :
    cell? g symbols x = (g.rowOf s k).action? x := by
  obtain ⟨stack, hstack⟩ := h.spelt
  simp [Parser.cell?, hstack.follow?, Grammar.row?_table h.state]

theorem stands_of_cell? (hg : Proper g) {action : Action} (h : cell? g symbols x = some action) :
    ∃ k s, Stands g symbols k s := by
  obtain ⟨k, hk, _⟩ := Option.bind_eq_some_iff.mp h
  obtain ⟨stack, hstack⟩ := spells_of_follow? hk
  obtain ⟨s, hs⟩ := hstack.state hg
  exact ⟨k, s, ⟨stack, hstack⟩, hs⟩

/-- A reduction with a terminal ahead. -/
inductive Folds (g : Grammar) (x : String) : List Grammar.Symbol → List Grammar.Symbol → Prop
  | rule {id : Nat} {p : Grammar.Production} {below : List Grammar.Symbol}
      (listed : g.productions[id]? = some p)
      (cell : cell? g (p.body.reverse ++ below) x = some (.reduce id)) :
      Folds g x (p.body.reverse ++ below) (.nonterminal p.head :: below)

/-- The table accepts terminals with the given symbols on the stack. -/
inductive Accepts (g : Grammar) : List Grammar.Symbol → List String → Prop
  | accept {symbols : List Grammar.Symbol} (cell : cell? g symbols endMarker = some .accept) :
      Accepts g symbols [endMarker]
  | shift {symbols : List Grammar.Symbol} {x : String} {names : List String} {j : Int}
      (cell : cell? g symbols x = some (.shift j))
      (rest : Accepts g (.terminal x :: symbols) names) : Accepts g symbols (x :: names)
  | reduce {symbols next : List Grammar.Symbol} {x : String} {names : List String}
      (fold : Folds g x symbols next) (rest : Accepts g next (x :: names)) :
      Accepts g symbols (x :: names)

theorem Folds.cell (h : Folds g x symbols below) :
    ∃ id : Nat, cell? g symbols x = some (.reduce id) := by
  cases h with
  | rule _ cell => exact ⟨_, cell⟩

theorem Folds.result {next : List Grammar.Symbol} (h : Folds g x symbols next) :
    ∃ name below, next = .nonterminal name :: below := by
  cases h with
  | rule _ _ => exact ⟨_, _, rfl⟩

/-- What a reduction leaves derives what it found. -/
theorem Folds.derives {next : List Grammar.Symbol} (h : Folds g x symbols next) :
    g.Derives next.reverse symbols.reverse := by
  cases h with
  | @rule id p below listed cell =>
    have hbelow : g.Derives below.reverse below.reverse := .refl
    simpa using hbelow.append (Grammar.Derives.rule listed)

/-- There is one way to reduce. -/
theorem Folds.unique {next next' : List Grammar.Symbol} (h : Folds g x symbols next)
    (h' : Folds g x symbols next') : next = next' := by
  cases h with
  | @rule id p below listed cell =>
    generalize hsymbols : p.body.reverse ++ below = symbols at h' cell
    cases h' with
    | @rule id' p' below' listed' cell' =>
      rw [cell] at cell'
      obtain rfl : id = id' := Int.ofNat.inj (Action.reduce.inj (Option.some.inj cell'))
      obtain rfl : p = p' := Option.some.inj (listed.symm.trans listed')
      rw [List.append_cancel_left hsymbols]

/-- A completed item is reduced by before what may follow its head. -/
theorem Folds.of_complete (hg : Proper g) (hconflicts : g.table.conflicts = [])
    (h : Stands g symbols k s) {i : Item} (hi : i ∈ s.items) (hnext : g.next? i = none)
    (hrule : i.rule ≠ 0) (hfollow : x ∈ g.analyze.follow.get (g.production i.rule).head)
    (hbody : symbols = (g.production i.rule).body.reverse ++ below) :
    Folds g x symbols (.nonterminal (g.production i.rule).head :: below) := by
  subst hbody
  refine .rule (item_rule hg h.state hi) ?_
  rw [h.cell?, Grammar.reduce_of_complete hconflicts h.state hi hnext hrule hfollow]

/-- What a reduction leaves is on a stack as well. -/
theorem Folds.stands (hg : Proper g) {next : List Grammar.Symbol} (h : Folds g x symbols next) :
    ∃ k s, Stands g next k s := by
  cases h with
  | @rule id p below listed cell =>
    obtain ⟨k, s, hstands⟩ := stands_of_cell? hg cell
    rw [hstands.cell?] at cell
    obtain ⟨i, hi, hid, hrule, hnext⟩ := Grammar.reduce_cell cell
    obtain rfl : id = i.rule := Int.ofNat.inj hid
    have hdot := dot_of_complete hg hstands.state hi hnext
    obtain ⟨k', s', _, _, hbelow, hitem⟩ := hstands.beneath hg hi
    obtain ⟨stack, hstack⟩ := hbelow.spelt
    obtain ⟨j, hedge, _⟩ := hstack.goto hg hbelow.state hitem rfl hrule
    obtain ⟨t, ht, _⟩ := Grammar.edge_target hg hbelow.state hedge
    have hpushed := hbelow.push hedge ht
    rw [hdot, Grammar.production_of_rule listed] at hpushed
    exact ⟨j, t, by simpa using hpushed⟩

/-! ### What may come behind a stack -/

/-- Every non-terminal derives a word. -/
def Productive (g : Grammar) : Prop :=
  ∀ name ∈ g.nonterminals, ∃ names, g.Derives [.nonterminal name] (word names)

theorem nameLists_productive : Productive nameLists := by
  have hfirst : nameLists.productions[0]? = some ⟨"ListPrime", [.nonterminal "List"]⟩ := rfl
  have hlast : nameLists.productions[2]? = some ⟨"List", [.terminal "id"]⟩ := rfl
  have hone : nameLists.Derives [.nonterminal "List"] (word ["id"]) := .rule hlast
  have hstart : nameLists.Derives [.nonterminal "ListPrime"] [.nonterminal "List"] := .rule hfirst
  intro name hname
  obtain rfl | rfl : name = "ListPrime" ∨ name = "List" := by
    simpa using (show name ∈ ["ListPrime", "List"] from hname)
  · exact ⟨["id"], hstart.trans hone⟩
  · exact ⟨["id"], hone⟩

theorem Productive.yields (h : Productive g) {rest : List Grammar.Symbol}
    (hrest : ∀ name, .nonterminal name ∈ rest → name ∈ g.nonterminals) :
    ∃ names, Yields g rest names := by
  induction rest with
  | nil => exact ⟨[], .nil⟩
  | cons symbol rest ih =>
    obtain ⟨names, hnames⟩ := ih fun name hname => hrest name (List.mem_cons_of_mem _ hname)
    cases symbol with
    | terminal name => exact ⟨name :: names, .terminal hnames⟩
    | nonterminal name =>
      obtain ⟨front, hfront⟩ := h name (hrest name List.mem_cons_self)
      exact ⟨front ++ names, (Grammar.Derives.yields hfront).append hnames⟩

/-- The rest of the body of an item covers a word. -/
theorem Productive.item (h : Productive g) (hg : Proper g) {id : Nat} {p : Grammar.Production}
    (hp : g.productions[id]? = some p) (n : Nat) : ∃ names, Yields g (p.body.drop n) names :=
  h.yields fun _ hname => hg.nonterminal_mem hp (List.mem_of_mem_drop hname)

/-- A word behind a stack: the start derives both together, and the machine accepts the word. -/
structure Ending (g : Grammar) (symbols : List Grammar.Symbol) (names : List String) : Prop where
  form : g.Derives [.nonterminal g.start] (symbols.reverse ++ word names)
  accepts : Accepts g symbols (names ++ [endMarker])

theorem exists_cons_end (names : List String) :
    ∃ more, names ++ [endMarker] = names.headD endMarker :: more := by
  cases names <;> simp

/-- The start on the stack and nothing ahead is accepted. -/
theorem accepts_start (hg : Proper g) (hconflicts : g.table.conflicts = []) :
    Accepts g (g.production 0).body.reverse [endMarker] := by
  obtain ⟨s, h, hi⟩ := stands_bottom hg
  obtain ⟨k', s', h', hcomplete⟩ := h.over hg hi List.drop_zero
  rw [List.append_nil] at h'
  refine .accept ?_
  rw [h'.cell?, Grammar.accept_of_complete hconflicts h'.state hcomplete (next?_complete 0) rfl]

theorem ending_start (hg : Proper g) (hconflicts : g.table.conflicts = []) :
    Ending g ((g.production 0).body.reverse ++ []) [] where
  form := by
    obtain ⟨_, haug⟩ := hg.augmented
    simpa [Grammar.production_of_rule haug] using Grammar.Derives.rule haug
  accepts := by simpa using accepts_start hg hconflicts

/-! ### Tables without conflicts -/

section NoConflicts

variable (hg : Proper g) (hfresh : FreshStart g) (hconflicts : g.table.conflicts = [])

include hg hfresh hconflicts

/-- What is accepted behind a non-terminal that an item has next is accepted behind the body of each
of its productions. -/
theorem Accepts.unfold (h : Stands g symbols k s) {i : Item} (hi : i ∈ s.items) {name : String}
    (hnext : g.next? i = some (.nonterminal name)) {rule : Nat} (hrule : rule ∈ g.idsOf name)
    {names : List String} (hfollow : x ∈ g.analyze.follow.get name)
    (haccepts : Accepts g (.nonterminal name :: symbols) (x :: names)) :
    Accepts g ((g.production rule).body.reverse ++ symbols) (x :: names) := by
  obtain ⟨hpredicted, hzero⟩ := predicted_item hg hfresh h.state hi hnext hrule
  obtain ⟨k', s', h', hcomplete⟩ := h.over hg hpredicted List.drop_zero
  have hhead := head_of_mem_idsOf hg hrule
  have hfold : Folds g x ((g.production rule).body.reverse ++ symbols)
      (.nonterminal (g.production rule).head :: symbols) :=
    .of_complete hg hconflicts h' hcomplete (next?_complete rule) hzero (by rwa [hhead]) rfl
  rw [hhead] at hfold
  exact .reduce hfold haccepts

/-- An item whose rest covers the terminals ahead, up to one that may follow its head, leads over
them. -/
theorem Accepts.passed {rest : List Grammar.Symbol} {names : List String}
    (hyields : Yields g rest names) {i : Item} {more : List String} (h : Stands g symbols k s)
    (hi : i ∈ s.items) (hrest : (g.production i.rule).body.drop i.dot = rest)
    (hfollow : x ∈ g.analyze.follow.get (g.production i.rule).head)
    (haccepts : Accepts g (rest.reverse ++ symbols) (x :: more)) :
    Accepts g symbols (names ++ x :: more) := by
  induction hyields generalizing symbols k s i x more with
  | nil => exact haccepts
  | @terminal name rest names _ ih =>
    obtain ⟨hnext, hdrop⟩ := next_of_drop hrest
    obtain ⟨j, t, hedge, ht, hi'⟩ := h.next hg hi hnext
    refine .shift (j := j) ?_ (ih ht hi' hdrop hfollow (by simpa using haccepts))
    rw [h.cell?, Grammar.shift_of_next hconflicts h.state hi hnext hedge]
  | @rule id p rest u v hrule _ hright ihBody ihRest =>
    obtain ⟨hnext, hdrop⟩ := next_of_drop hrest
    have hid := rule_mem_idsOf hg hfresh h.state hi hrule hnext
    obtain ⟨hpredicted, _⟩ := predicted_item hg hfresh h.state hi hnext hid
    have hproduction := Grammar.production_of_rule hrule
    have hbehind := mem_follow_behind hg h.state hi hrest hright hfollow
    obtain ⟨later, hlater⟩ : ∃ later, v ++ x :: more = v.headD x :: later := by
      cases v <;> simp
    -- over the rest behind the head, then back over the reduction to it, then over the body
    obtain ⟨j, t, _, ht, hi'⟩ := h.next hg hi hnext
    have hover := ihRest ht hi' hdrop hfollow (by simpa using haccepts)
    rw [hlater] at hover
    have hreduced := hover.unfold hg hfresh hconflicts h hi hnext hid hbehind
    rw [hproduction] at hreduced
    rw [List.append_assoc, hlater]
    exact ihBody h hpredicted (by simp [hproduction]) (by simpa [hproduction] using hbehind)
      hreduced

/-- The machine accepts every sentence. -/
theorem Accepts.sentence {names : List String} (h : g.IsSentence names) :
    Accepts g [] (names ++ [endMarker]) := by
  obtain ⟨s, hs, hi⟩ := stands_bottom hg
  refine .passed hg hfresh hconflicts (yields_of_sentence hfresh h) hs hi rfl
    (end_mem_follow_start hg) ?_
  rw [List.append_nil]
  exact accepts_start hg hconflicts

/-- An ending once the body of an item is on the stack, with a word before it that the rest of the
body covers. -/
theorem Ending.passed {rest : List Grammar.Symbol} {front names : List String}
    (hfront : Yields g rest front) (h : Stands g symbols k s) {i : Item} (hi : i ∈ s.items)
    (hrest : (g.production i.rule).body.drop i.dot = rest)
    (hfollow : names.headD endMarker ∈ g.analyze.follow.get (g.production i.rule).head)
    (hending : Ending g (rest.reverse ++ symbols) names) : Ending g symbols (front ++ names) where
  form := by
    have hform : g.Derives [.nonterminal g.start] (symbols.reverse ++ (rest ++ word names)) := by
      simpa using hending.form
    have hexpand := hfront.derives.append (.refl (a := word names))
    simpa using hform.trans (.append .refl hexpand)
  accepts := by
    obtain ⟨more, hmore⟩ := exists_cons_end names
    have haccepts := hending.accepts
    rw [hmore] at haccepts
    rw [List.append_assoc, hmore]
    exact .passed hg hfresh hconflicts hfront h hi hrest hfollow haccepts

/-- An ending behind a non-terminal that an item has next is one behind the body of each of its
productions. -/
theorem Ending.unfold (h : Stands g symbols k s) {i : Item} (hi : i ∈ s.items) {name : String}
    (hnext : g.next? i = some (.nonterminal name)) {rule : Nat} (hrule : rule ∈ g.idsOf name)
    {names : List String} (hfollow : names.headD endMarker ∈ g.analyze.follow.get name)
    (hending : Ending g (.nonterminal name :: symbols) names) :
    Ending g ((g.production rule).body.reverse ++ symbols) names where
  form := by
    have hform : g.Derives [.nonterminal g.start]
        (symbols.reverse ++ ([.nonterminal name] ++ word names)) := by
      simpa using hending.form
    obtain ⟨hpredicted, _⟩ := predicted_item hg hfresh h.state hi hnext hrule
    have hexpand := Grammar.Derives.rule (item_rule hg h.state hpredicted)
    rw [head_of_mem_idsOf hg hrule] at hexpand
    simpa using hform.trans (.append .refl (hexpand.append (.refl (a := word names))))
  accepts := by
    obtain ⟨more, hmore⟩ := exists_cons_end names
    have haccepts := hending.accepts
    rw [hmore] at haccepts ⊢
    exact haccepts.unfold hg hfresh hconflicts h hi hnext hrule hfollow

/-- There is an ending behind each item of a state, once its body is on the stack, and it may follow
the head. -/
theorem Stands.item_ending (hproductive : Productive g) (h : Stands g symbols k s) {i : Item}
    (hi : i ∈ s.items) :
    ∃ names, names.headD endMarker ∈ g.analyze.follow.get (g.production i.rule).head ∧
      Ending g ((g.production i.rule).body.reverse ++ symbols.drop i.dot) names := by
  -- by induction on the height of the stack: an item with the dot inside was there further down
  induction hn : symbols.length using Nat.strongRecOn generalizing symbols k s i with
  | ind n ih =>
    obtain ⟨stack, hstack⟩ := h.spelt
    refine hstack.forall_items hg h.state (P := fun i =>
      ∃ names, names.headD endMarker ∈ g.analyze.follow.get (g.production i.rule).head ∧
        Ending g ((g.production i.rule).body.reverse ++ symbols.drop i.dot) names) ?_ ?_ ?_ i hi
    · intro i hi hpos
      obtain ⟨k', s', hle, _, hbelow, hitem⟩ := h.beneath hg hi
      have hlt : (symbols.drop i.dot).length < n := by
        rw [List.length_drop]
        omega
      simpa using ih _ hlt hbelow hitem rfl
    · intro hempty _
      obtain rfl : symbols = [] := by
        have hlength := hstack.length_eq
        rwa [hempty, List.length_nil, List.length_eq_zero_iff] at hlength
      exact ⟨[], end_mem_follow_start hg, ending_start hg hconflicts⟩
    · rintro i hi ⟨names, hfollow, hending⟩ name hnext rule hrule
      obtain ⟨front, hfront⟩ := hproductive.item hg (item_rule hg h.state hi) (i.dot + 1)
      obtain ⟨_, _, _, hbody, _, _⟩ := h.beneath hg hi
      rw [hbody, drop_of_next hnext, List.reverse_cons, List.append_assoc] at hending
      have hbehind : (front ++ names).headD endMarker ∈ g.analyze.follow.get name := by
        have hbehind := mem_follow_behind hg h.state hi (drop_of_next hnext) hfront hfollow
        cases front <;> exact hbehind
      obtain ⟨j, t, _, ht, hi'⟩ := h.next hg hi hnext
      have hover := hending.passed hg hfresh hconflicts hfront ht hi' rfl hfollow
      refine ⟨front ++ names, by rwa [head_of_mem_idsOf hg hrule], ?_⟩
      exact hover.unfold hg hfresh hconflicts h hi hnext hrule hbehind

/-- There is an ending for every stack. -/
theorem Stands.exists_ending (hproductive : Productive g) (h : Stands g symbols k s) :
    ∃ names, Ending g symbols names := by
  obtain ⟨i, hi⟩ := h.item_exists hg
  obtain ⟨names, hfollow, hending⟩ := h.item_ending hg hfresh hconflicts hproductive hi
  obtain ⟨front, hfront⟩ := hproductive.item hg (item_rule hg h.state hi) i.dot
  obtain ⟨_, _, _, hbody, _, _⟩ := h.beneath hg hi
  rw [hbody] at hending
  exact ⟨_, hending.passed hg hfresh hconflicts hfront h hi rfl hfollow⟩

end NoConflicts

/-! ### The parser -/

theorem action?_eq_cell? {p : Parser} (h : Spells g p.stack symbols k)
    (hs : g.automaton.states[k]? = some s) :
    action? g.table p = cell? g symbols p.cursor.lookahead.terminal := by
  rw [Stands.cell? ⟨⟨_, h⟩, hs⟩, action?, h.topState, Grammar.row?_table hs]
  rfl

/-- What a step of the parser is to the machine on the symbols of its stack. -/
inductive Acts (g : Grammar) (p : Parser) (symbols : List Grammar.Symbol) : Prop
  | accepted (made : step g.table p = .accepted p)
  | stuck {state : Int} (cell : cell? g symbols p.cursor.lookahead.terminal = none)
      (made : step g.table p = .failed (unexpected p.cursor.lookahead state) p)
  | raised {d : Diagnostic} {q : Parser} (made : step g.table p = .failed d q)
      (cause : Raised d.cause)
  | shift {q : Parser} {j : Nat}
      (cell : cell? g symbols p.cursor.lookahead.terminal = some (.shift j))
      (inner : p.cursor.lookahead.terminal ≠ endMarker) (made : step g.table p = .next q)
      (cursor : q.cursor = p.cursor.advance)
      (spelt : Spells g q.stack (.terminal p.cursor.lookahead.terminal :: symbols) j)
  | reduce {q : Parser} {next : List Grammar.Symbol} {j : Nat}
      (fold : Folds g p.cursor.lookahead.terminal symbols next) (made : step g.table p = .next q)
      (cursor : q.cursor = p.cursor) (spelt : Spells g q.stack next j)

theorem acts (hg : Proper g) {p : Parser} (h : Spells g p.stack symbols k) : Acts g p symbols := by
  obtain ⟨s, hs⟩ := h.state hg
  have hcell := action?_eq_cell? h hs
  rcases step_cases h hs with ⟨haction, hstep⟩ | ⟨j, haction, hstep, hedge, i, hi, hnext⟩ |
    ⟨i, hi, haction, hstep, hrule, hnext⟩ | ⟨_, hstep, _⟩
  · exact .stuck (hcell ▸ haction) hstep
  · have hinner := (hg.visible (item_rule hg hs hi) (List.mem_of_getElem? hnext)).1
    simp only [Parser.shift] at hstep
    cases heffect : (shiftEffect p.cursor.lookahead.kind).run p.emitter with
    | error cause e =>
      simp only [heffect] at hstep
      exact .raised hstep (.shift heffect)
    | ok _ e =>
      simp only [heffect] at hstep
      exact .shift (hcell ▸ haction) hinner hstep rfl (.push h hs hedge trivial)
  · obtain ⟨k', s', _, b⟩ := h.beneath hg hs hi
    obtain ⟨j, hedge, heffect⟩ := reduce_eq hg hs hi hrule hnext b
    obtain ⟨hok, herror⟩ := heffect _ rfl
    cases hrun : (reduceEffect (g.production i.rule).head
        (popped p.stack (g.production i.rule))).run p.emitter with
    | error cause e =>
      obtain ⟨q, hfailed⟩ := herror cause e hrun
      exact .raised (hstep.trans hfailed) (.reduce hrun)
    | ok head e =>
      obtain ⟨hsymbols, hclimbs⟩ := b.whole hg hs hi hnext
      have hfold : Folds g p.cursor.lookahead.terminal symbols
          (.nonterminal (g.production i.rule).head ::
            symbols.drop (g.production i.rule).body.length) := by
        have hreduce := hcell ▸ haction
        rw [hsymbols] at hreduce
        have hfold := Folds.rule (item_rule hg hs hi) hreduce
        rwa [← hsymbols] at hfold
      exact .reduce hfold (hstep.trans (hok head e hrun)) rfl
        (.push hclimbs b.state hedge trivial)
  · exact .accepted hstep

end DuckLang.Parser
