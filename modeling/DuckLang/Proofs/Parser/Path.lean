import DuckLang.Parser
import DuckLang.Proofs.Grammar.Cells

/-! The stack of the parser spells a path of the automaton.  `Climbs` follows that path and carries
a value along, which each symbol on the stack may change; with nothing to carry it is `Spells`.  An
item of the state on top tells what lies below it: its body up to the dot, and under that a state
that has the item with the dot in front.  From this follows what a step of the parser can be. -/

namespace DuckLang.Parser

open Grammar (Proper Item State)

variable {g : Grammar} {Γ : Type} {Made : Grammar.Symbol → Γ → Attribute → Γ → Prop} {base : Γ}

/-- The states of a stack, top first, from state 0 along edges with the given symbols to the state
with the given number.  The value at the bottom is `base`. -/
inductive Climbs (g : Grammar) (Made : Grammar.Symbol → Γ → Attribute → Γ → Prop) (base : Γ) :
    List (Int × Attribute) → List Grammar.Symbol → Nat → Γ → Prop
  | bottom : Climbs g Made base [] [] 0 base
  | push {stack : List (Int × Attribute)} {symbols : List Grammar.Symbol} {k j : Nat} {γ γ' : Γ}
      {s : State} {symbol : Grammar.Symbol} {a : Attribute}
      (below : Climbs g Made base stack symbols k γ) (state : g.automaton.states[k]? = some s)
      (edge : s.edges.lookup symbol = some j) (made : Made symbol γ a γ') :
      Climbs g Made base (((j : Int), a) :: stack) (symbol :: symbols) j γ'

/-- A path of the automaton. -/
abbrev Spells (g : Grammar) (stack : List (Int × Attribute)) (symbols : List Grammar.Symbol)
    (k : Nat) : Prop :=
  Climbs g (fun _ (_ : Unit) _ _ => True) () stack symbols k ()

/-- A value carried over symbols with the given attributes. -/
def MadeAll (Made : Grammar.Symbol → Γ → Attribute → Γ → Prop) :
    List Grammar.Symbol → Γ → List Attribute → Γ → Prop
  | [], γ, as, γ' => as = [] ∧ γ' = γ
  | symbol :: symbols, γ, as, γ' =>
    ∃ a rest mid, as = a :: rest ∧ Made symbol γ a mid ∧ MadeAll Made symbols mid rest γ'

theorem MadeAll.snoc {symbols : List Grammar.Symbol} {symbol : Grammar.Symbol}
    {as : List Attribute} {a : Attribute} {γ γ' γ'' : Γ} (h : MadeAll Made symbols γ as γ')
    (hlast : Made symbol γ' a γ'') : MadeAll Made (symbols ++ [symbol]) γ (as ++ [a]) γ'' := by
  induction symbols generalizing γ as with
  | nil =>
    obtain ⟨rfl, rfl⟩ := h
    exact ⟨a, [], γ'', rfl, hlast, rfl, rfl⟩
  | cons s symbols ih =>
    obtain ⟨b, rest, mid, rfl, hs, hrest⟩ := h
    exact ⟨b, rest ++ [a], mid, rfl, hs, ih hrest⟩

variable {stack : List (Int × Attribute)} {symbols : List Grammar.Symbol} {k : Nat} {γ : Γ}
  {s : State}

theorem Climbs.topState (h : Climbs g Made base stack symbols k γ) : topState stack = k := by
  cases h <;> rfl

theorem Climbs.length_eq (h : Climbs g Made base stack symbols k γ) :
    symbols.length = stack.length := by
  induction h with
  | bottom => rfl
  | push _ _ _ _ ih => simp [ih]

theorem Climbs.state (hg : Proper g) (h : Climbs g Made base stack symbols k γ) :
    ∃ s, g.automaton.states[k]? = some s := by
  cases h with
  | bottom =>
    obtain ⟨s, hs, _⟩ := Grammar.automaton_start hg
    exact ⟨s, hs⟩
  | push _ state edge _ =>
    obtain ⟨t, ht, _⟩ := Grammar.edge_target hg state edge
    exact ⟨t, ht⟩

/-- The items of a climbed state: the closure of the start item at the bottom, above it that of the
items advanced over the symbol on top. -/
theorem Climbs.items (hg : Proper g) (h : Climbs g Made base stack symbols k γ)
    (hs : g.automaton.states[k]? = some s) :
    (stack = [] ∧ symbols = [] ∧ γ = base ∧ s.items = g.close [{ rule := 0, dot := 0 }]) ∨
      ∃ a rest symbol symbols' k' s' γ', stack = ((k : Int), a) :: rest ∧
        symbols = symbol :: symbols' ∧ Climbs g Made base rest symbols' k' γ' ∧
        g.automaton.states[k']? = some s' ∧ Made symbol γ' a γ ∧
        s.items = g.close (g.advance s'.items symbol) := by
  cases h with
  | bottom =>
    obtain ⟨s₀, hs₀, hitems⟩ := Grammar.automaton_start hg
    obtain rfl : s₀ = s := Option.some.inj (hs₀.symm.trans hs)
    exact .inl ⟨rfl, rfl, rfl, hitems⟩
  | push below state edge made =>
    obtain ⟨t, ht, hitems⟩ := Grammar.edge_target hg state edge
    obtain rfl : t = s := Option.some.inj (ht.symm.trans hs)
    exact .inr ⟨_, _, _, _, _, _, _, rfl, rfl, below, state, made, hitems⟩

/-- What lies below the top of a stack, told by an item of the state on top. -/
structure Beneath (g : Grammar) (Made : Grammar.Symbol → Γ → Attribute → Γ → Prop) (base : Γ)
    (stack : List (Int × Attribute)) (symbols : List Grammar.Symbol) (γ : Γ) (i : Item) (k : Nat)
    (s : State) (γ₀ : Γ) : Prop where
  enough : i.dot ≤ stack.length
  body : symbols.take i.dot = ((g.production i.rule).body.take i.dot).reverse
  climbs : Climbs g Made base (stack.drop i.dot) (symbols.drop i.dot) k γ₀
  state : g.automaton.states[k]? = some s
  item : { i with dot := 0 } ∈ s.items
  made : MadeAll Made ((g.production i.rule).body.take i.dot) γ₀
    ((stack.take i.dot).map (·.2)).reverse γ

theorem take_succ_of_next {i : Item} {symbol : Grammar.Symbol} (h : g.next? i = some symbol) :
    (g.production i.rule).body.take (i.dot + 1) =
      (g.production i.rule).body.take i.dot ++ [symbol] := by
  rw [List.take_add_one, show (g.production i.rule).body[i.dot]? = some symbol from h]
  rfl

theorem drop_of_next {i : Item} {symbol : Grammar.Symbol} (h : g.next? i = some symbol) :
    (g.production i.rule).body.drop i.dot =
      symbol :: (g.production i.rule).body.drop (i.dot + 1) := by
  obtain ⟨hlt, hget⟩ := List.getElem?_eq_some_iff.mp
    (show (g.production i.rule).body[i.dot]? = some symbol from h)
  rw [List.drop_eq_getElem_cons hlt, hget]

theorem next_of_drop {i : Item} {symbol : Grammar.Symbol} {rest : List Grammar.Symbol}
    (h : (g.production i.rule).body.drop i.dot = symbol :: rest) :
    g.next? i = some symbol ∧ (g.production i.rule).body.drop (i.dot + 1) = rest := by
  constructor
  · show (g.production i.rule).body[i.dot]? = some symbol
    rw [← List.head?_drop, h]
    rfl
  · rw [← List.drop_drop, h]
    rfl

theorem Climbs.beneath (hg : Proper g) (h : Climbs g Made base stack symbols k γ)
    (hs : g.automaton.states[k]? = some s) {i : Item} (hi : i ∈ s.items) :
    ∃ k' s' γ₀, Beneath g Made base stack symbols γ i k' s' γ₀ := by
  obtain ⟨rule, dot⟩ := i
  -- by induction on the dot: each symbol before it is one pushed on an item with the dot further
  -- to the left
  induction dot generalizing stack symbols k γ s with
  | zero => exact ⟨k, s, γ, by simp, by simp, by simpa using h, hs, hi, by simp [MadeAll]⟩
  | succ dot ih =>
    rcases h.items hg hs with ⟨_, _, _, hitems⟩ |
      ⟨a, rest, symbol, symbols', k₁, s₁, γ₁, rfl, rfl, below, state, made, hitems⟩
    · rw [hitems, Grammar.mem_close hg] at hi
      simpa using hi.kernel_of_pos (Nat.succ_pos dot)
    · rw [hitems, Grammar.mem_close hg] at hi
      obtain ⟨⟨rule', dot'⟩, hj, hnext, heq⟩ :=
        Grammar.mem_advance.mp (hi.kernel_of_pos (Nat.succ_pos dot))
      simp only [Item.mk.injEq, Nat.add_right_cancel_iff] at heq
      obtain ⟨rfl, rfl⟩ := heq
      obtain ⟨k', s', γ₀, b⟩ := ih below state hj
      have hbody := take_succ_of_next hnext
      dsimp only at hbody
      refine ⟨k', s', γ₀, ?_, ?_, ?_, b.state, b.item, ?_⟩
      · simpa using b.enough
      · simp [hbody, b.body]
      · simpa using b.climbs
      · simpa [hbody] using b.made.snoc made

/-- What holds of every item of a climbed state: of those with the dot inside, of the start item at
the bottom, and of what any item predicts. -/
theorem Climbs.forall_items (hg : Proper g) (h : Climbs g Made base stack symbols k γ)
    (hs : g.automaton.states[k]? = some s) {P : Item → Prop}
    (hinside : ∀ i ∈ s.items, 0 < i.dot → P i)
    (hbottom : stack = [] → γ = base → P { rule := 0, dot := 0 })
    (hpredicted : ∀ i ∈ s.items, P i → ∀ name, g.next? i = some (.nonterminal name) →
      ∀ rule ∈ g.idsOf name, P { rule, dot := 0 }) : ∀ i ∈ s.items, P i := by
  have hclosed : ∀ kernel, s.items = g.close kernel → (∀ i ∈ kernel, P i) →
      ∀ i ∈ s.items, P i := by
    intro kernel hitems hkernel i hi
    rw [hitems, Grammar.mem_close hg] at hi
    induction hi with
    | kernel hi => exact hkernel _ hi
    | @predicted i j hi hj ih =>
      obtain ⟨name, hnext, hid, hdot⟩ := Grammar.mem_predictions.mp hj
      have hmem : i ∈ s.items := by rwa [hitems, Grammar.mem_close hg]
      have hj := hpredicted i hmem ih name hnext j.rule hid
      rwa [← hdot] at hj
  rcases h.items hg hs with
    ⟨hempty, _, hbase, hitems⟩ | ⟨_, _, _, _, _, _, _, _, _, _, _, _, hitems⟩
  · refine hclosed _ hitems fun i hi => ?_
    rw [List.mem_singleton.mp hi]
    exact hbottom hempty hbase
  · refine hclosed _ hitems fun i hi => ?_
    refine hinside i ?_ ?_
    · rw [hitems, Grammar.mem_close hg]
      exact .kernel hi
    · obtain ⟨_, _, _, rfl⟩ := Grammar.mem_advance.mp hi
      exact Nat.succ_pos _

/-- An item with the dot in front is there for an item with the dot before its head, the start item
apart. -/
theorem Climbs.predicted (hg : Proper g) (h : Climbs g Made base stack symbols k γ)
    (hs : g.automaton.states[k]? = some s) {i : Item} (hi : i ∈ s.items) (hdot : i.dot = 0) :
    (i.rule = 0 ∧ stack = []) ∨
      ∃ j ∈ s.items, ∃ name, g.next? j = some (.nonterminal name) ∧ i.rule ∈ g.idsOf name := by
  refine h.forall_items hg hs (P := fun i => i.dot = 0 → (i.rule = 0 ∧ stack = []) ∨
    ∃ j ∈ s.items, ∃ name, g.next? j = some (.nonterminal name) ∧ i.rule ∈ g.idsOf name)
    ?_ ?_ ?_ i hi hdot
  · intro i _ hpos hdot
    omega
  · intro hempty _ _
    exact .inl ⟨rfl, hempty⟩
  · intro j hj _ name hnext rule hrule _
    exact .inr ⟨j, hj, name, hnext, hrule⟩

theorem head_zero (hg : Proper g) : (g.production 0).head = g.start := by
  obtain ⟨_, haug⟩ := hg.augmented
  rw [Grammar.production_of_rule haug]

theorem head_of_mem_idsOf (hg : Proper g) {name : String} {rule : Nat}
    (h : rule ∈ g.idsOf name) : (g.production rule).head = name := by
  by_cases hname : name = g.start
  · subst hname
    obtain rfl : rule = 0 := by simpa [hg.startIds] using h
    exact head_zero hg
  · obtain ⟨p, hp, rfl⟩ := (Grammar.mem_idsOf hg hname).mp h
    rw [Grammar.production_of_rule hp]

theorem item_rule (hg : Proper g) (hs : g.automaton.states[k]? = some s) {i : Item}
    (hi : i ∈ s.items) : g.productions[i.rule]? = some (g.production i.rule) :=
  Grammar.rule_of_lt ((Grammar.state_stateSet hg hs).valid i hi).1

/-- With a fresh start the start item lies at the bottom only. -/
theorem Climbs.bottom_of_start (hg : Proper g) (hfresh : Grammar.FreshStart g)
    (h : Climbs g Made base stack symbols k γ) (hs : g.automaton.states[k]? = some s)
    (hi : { rule := 0, dot := 0 } ∈ s.items) : stack = [] := by
  rcases h.predicted hg hs hi rfl with ⟨_, hempty⟩ | ⟨j, hj, name, hname, hid⟩
  · exact hempty
  · -- no item has its dot before the augmented start
    have hne := hg.ne_start hfresh (item_rule hg hs hj) (List.mem_of_getElem? hname)
    exact absurd ((head_of_mem_idsOf hg hid).symm.trans (head_zero hg)) hne

/-- A state uncovered by a reduction has a goto on the head. -/
theorem Climbs.goto (hg : Proper g) (h : Climbs g Made base stack symbols k γ)
    (hs : g.automaton.states[k]? = some s) {i : Item} (hi : i ∈ s.items) (hdot : i.dot = 0)
    (hrule : i.rule ≠ 0) :
    ∃ j : Nat, s.edges.lookup (.nonterminal (g.production i.rule).head) = some j ∧
      (g.rowOf s k).goto? (g.production i.rule).head = some (j : Int) := by
  rcases h.predicted hg hs hi hdot with ⟨hzero, _⟩ | ⟨i', hi', name, hnext, hid⟩
  · exact absurd hzero hrule
  · obtain rfl := head_of_mem_idsOf hg hid
    obtain ⟨j, hedge⟩ := Grammar.edge_of_next hg hs hi' hnext
    exact ⟨j, hedge, Grammar.goto_of_next hi' hnext hedge⟩

theorem dot_of_complete (hg : Proper g) (hs : g.automaton.states[k]? = some s) {i : Item}
    (hi : i ∈ s.items) (hnext : g.next? i = none) :
    i.dot = (g.production i.rule).body.length := by
  have hvalid := (Grammar.state_stateSet hg hs).valid i hi
  have hle := List.getElem?_eq_none_iff.mp hnext
  exact Nat.le_antisymm hvalid.2 hle

/-- A completed item has its whole body on top of the stack. -/
theorem Beneath.whole (hg : Proper g) (hs : g.automaton.states[k]? = some s) {i : Item}
    (hi : i ∈ s.items) (hnext : g.next? i = none) {k' : Nat} {s' : State} {γ₀ : Γ}
    (b : Beneath g Made base stack symbols γ i k' s' γ₀) :
    symbols = (g.production i.rule).body.reverse ++
        symbols.drop (g.production i.rule).body.length ∧
      Climbs g Made base (stack.drop (g.production i.rule).body.length)
        (symbols.drop (g.production i.rule).body.length) k' γ₀ := by
  have hdot := dot_of_complete hg hs hi hnext
  have hclimbs := b.climbs
  have hbody := b.body
  rw [hdot] at hclimbs hbody
  rw [List.take_length] at hbody
  exact ⟨by rw [← hbody, List.take_append_drop], hclimbs⟩

theorem next?_complete (rule : Nat) :
    g.next? { rule, dot := (g.production rule).body.length } = none :=
  List.getElem?_eq_none (Nat.le_refl _)

theorem complete_of_drop (hg : Proper g) (hs : g.automaton.states[k]? = some s) {i : Item}
    (hi : i ∈ s.items) (hrest : (g.production i.rule).body.drop i.dot = []) :
    { rule := i.rule, dot := (g.production i.rule).body.length } ∈ s.items := by
  have hnext : g.next? i = none := List.getElem?_eq_none (List.drop_eq_nil_iff.mp hrest)
  rwa [← dot_of_complete hg hs hi hnext]

/-- The items of the productions of a non-terminal behind a dot; the augmented one is none of
them. -/
theorem predicted_item (hg : Proper g) (hfresh : Grammar.FreshStart g)
    (hs : g.automaton.states[k]? = some s) {i : Item} (hi : i ∈ s.items) {name : String}
    (hnext : g.next? i = some (.nonterminal name)) {rule : Nat} (hrule : rule ∈ g.idsOf name) :
    { rule, dot := 0 } ∈ s.items ∧ rule ≠ 0 := by
  refine ⟨(Grammar.state_stateSet hg hs).closed i hi _
    (Grammar.mem_predictions.mpr ⟨name, hnext, hrule, rfl⟩), ?_⟩
  rintro rfl
  have hne := hg.ne_start hfresh (item_rule hg hs hi) (List.mem_of_getElem? hnext)
  exact hne ((head_of_mem_idsOf hg hrule).symm.trans (head_zero hg))

/-- A production of a non-terminal behind a dot is listed for it. -/
theorem rule_mem_idsOf (hg : Proper g) (hfresh : Grammar.FreshStart g)
    (hs : g.automaton.states[k]? = some s) {i : Item} (hi : i ∈ s.items) {id : Nat}
    {p : Grammar.Production} (hrule : g.productions[id]? = some p)
    (hnext : g.next? i = some (.nonterminal p.head)) : id ∈ g.idsOf p.head := by
  have hne := hg.ne_start hfresh (item_rule hg hs hi) (List.mem_of_getElem? hnext)
  exact (Grammar.mem_idsOf hg hne).mpr ⟨p, hrule, rfl⟩

/-- The action that a table has for a parser. -/
def action? (table : Table) (p : Parser) : Option Table.Action :=
  (table.row? (topState p.stack)).bind (·.action? p.cursor.lookahead.terminal)

/-- What a step can be: an unexpected token, a shift along the edge of the token, a reduction by a
completed item, or acceptance. -/
theorem step_cases {p : Parser} (h : Climbs g Made base p.stack symbols k γ)
    (hs : g.automaton.states[k]? = some s) :
    (action? g.table p = none ∧
      step g.table p = .failed (unexpected p.cursor.lookahead k) p) ∨
    (∃ j : Nat, action? g.table p = some (.shift j) ∧ step g.table p = p.shift j ∧
      s.edges.lookup (.terminal p.cursor.lookahead.terminal) = some j ∧
      ∃ i ∈ s.items, g.next? i = some (.terminal p.cursor.lookahead.terminal)) ∨
    (∃ i ∈ s.items, action? g.table p = some (.reduce i.rule) ∧
      step g.table p = reduce g.table p i.rule ∧ i.rule ≠ 0 ∧ g.next? i = none) ∨
    (action? g.table p = some .accept ∧ step g.table p = .accepted p ∧
      p.cursor.lookahead.terminal = Token.Kind.endMarker ∧
      ∃ i ∈ s.items, i.rule = 0 ∧ g.next? i = none) := by
  simp only [step, action?, h.topState, Grammar.row?_table hs, Option.bind_some]
  split
  · rename_i hcell
    exact .inl ⟨hcell, rfl⟩
  · rename_i next hcell
    obtain ⟨j, rfl, hedge, hitem⟩ := Grammar.shift_cell hcell
    exact .inr (.inl ⟨j, hcell, rfl, hedge, hitem⟩)
  · rename_i rule hcell
    obtain ⟨i, hi, rfl, hrule, hnext⟩ := Grammar.reduce_cell hcell
    exact .inr (.inr (.inl ⟨i, hi, hcell, rfl, hrule, hnext⟩))
  · rename_i hcell
    obtain ⟨hend, hitem⟩ := Grammar.accept_cell hcell
    exact .inr (.inr (.inr ⟨hcell, rfl, hend, hitem⟩))

/-- The attributes of the symbols that a reduction by a production takes off a stack. -/
def popped (stack : List (Int × Attribute)) (p : Grammar.Production) : List Attribute :=
  ((stack.take p.body.length).map (·.2)).reverse

/-- The parser after a reduction by a production that goes on in state `j`. -/
def reduced (p : Parser) (production : Grammar.Production) (j : Nat) (head : Attribute)
    (emitter : Emitter) : Parser :=
  { p with stack := ((j : Int), head) :: p.stack.drop production.body.length, emitter }

/-- What a reduction by a completed item makes: it never lacks a rule, a symbol or a goto. -/
theorem reduce_eq (hg : Proper g) {p : Parser} (hs : g.automaton.states[k]? = some s) {i : Item}
    (hi : i ∈ s.items) (hrule : i.rule ≠ 0) (hnext : g.next? i = none) {k' : Nat} {s' : State}
    {γ₀ : Γ} (b : Beneath g Made base p.stack symbols γ i k' s' γ₀) :
    ∃ j : Nat, s'.edges.lookup (.nonterminal (g.production i.rule).head) = some j ∧
      ∀ attributes, attributes = popped p.stack (g.production i.rule) →
      (∀ head e, (reduceEffect (g.production i.rule).head attributes).run p.emitter = .ok head e →
        reduce g.table p i.rule = .next (p.reduced (g.production i.rule) j head e)) ∧
      (∀ cause e, (reduceEffect (g.production i.rule).head attributes).run p.emitter =
          .error cause e →
        ∃ q, reduce g.table p i.rule = .failed (p.report cause) q) := by
  obtain ⟨j, hedge, hgoto⟩ := b.climbs.goto hg b.state b.item rfl hrule
  have hdot := dot_of_complete hg hs hi hnext
  have henough : ¬p.stack.length < (g.production i.rule).body.length := by
    have := b.enough
    omega
  have hgoto : (g.table.row?
      (Parser.topState (p.stack.drop (g.production i.rule).body.length))).bind
      (·.goto? (g.production i.rule).head) = some (j : Int) := by
    have htop := b.climbs.topState
    rw [hdot] at htop
    rw [htop, Grammar.row?_table b.state]
    exact hgoto
  refine ⟨j, hedge, ?_⟩
  rintro _ rfl
  simp only [reduce, Grammar.rule?_table, item_rule hg hs hi, Option.map_some, henough, if_false]
  constructor
  · intro head e he
    simp only [popped] at he
    simp only [he, hgoto]
    rfl
  · intro cause e he
    simp only [popped] at he
    simp only [he]
    exact ⟨_, rfl⟩

end DuckLang.Parser
