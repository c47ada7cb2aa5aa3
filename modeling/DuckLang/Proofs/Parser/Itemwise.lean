import DuckLang.Proofs.Parser.Drives

/-! A parser without a table.  It has the items of its states on its stack, in the place of their
numbers, and does what they ask for.  Where the table has no conflicts it does the same steps as the
parser that the table drives, but needs only the states that it comes to: so a parse of a given text
can be computed without the automaton. -/

namespace DuckLang.Parser

open Grammar (Proper FreshStart Item ItemSet State SetTable)

/-- A parser with the items of its states on its stack, top first. -/
structure Itemwise where
  cursor : Cursor
  stack : List (ItemSet × Attribute) := []
  emitter : Emitter := {}

namespace Itemwise

def start (tokens : List Token) : Itemwise :=
  { cursor := .start tokens }

def top (g : Grammar) : List (ItemSet × Attribute) → ItemSet
  | [] => g.startItems
  | (items, _) :: _ => items

def push (g : Grammar) (symbol : Grammar.Symbol) (a : Attribute)
    (stack : List (ItemSet × Attribute)) : List (ItemSet × Attribute) :=
  (g.close (g.advance (top g stack) symbol), a) :: stack

/-- The parser that has shifted the token looked at, unless the effect of that fails. -/
def shift? (g : Grammar) (q : Itemwise) : Option Itemwise :=
  let t := q.cursor.lookahead
  match (shiftEffect t.kind).run q.emitter with
  | .ok _ emitter =>
    some {
      cursor := q.cursor.advance
      stack := push g (.terminal t.terminal) (.ofText t.text) q.stack
      emitter }
  | .error _ _ => none

/-- The parser that has reduced by a production, unless the effect of that fails. -/
def reduce? (g : Grammar) (p : Grammar.Production) (q : Itemwise) : Option Itemwise :=
  let attributes := ((q.stack.take p.body.length).map (·.2)).reverse
  match (reduceEffect p.head attributes).run q.emitter with
  | .ok a emitter =>
    some { q with
      stack := push g (.nonterminal p.head) a (q.stack.drop p.body.length)
      emitter }
  | .error _ _ => none

/-- The complete item that is reduced before a terminal, given the FOLLOW sets. -/
def complete? (g : Grammar) (follow : SetTable) (items : ItemSet) (terminal : String) :
    Option Item :=
  items.find? fun i =>
    g.next? i = none ∧ i.rule ≠ 0 ∧ terminal ∈ follow.get (g.production i.rule).head

/-- The next step: a shift if an item asks for it, else a reduction. -/
def next? (g : Grammar) (follow : SetTable) (q : Itemwise) : Option Itemwise :=
  let items := top g q.stack
  let terminal := q.cursor.lookahead.terminal
  if items.any fun i => g.next? i = some (.terminal terminal) then q.shift? g
  else (complete? g follow items terminal).bind fun i => q.reduce? g (g.production i.rule)

def steps? (g : Grammar) (follow : SetTable) : Nat → Itemwise → Option Itemwise
  | 0, q => some q
  | n + 1, q => (q.next? g follow).bind (steps? g follow n)

/-- Whether all tokens are read and the start is complete. -/
def accepts (g : Grammar) (q : Itemwise) : Bool :=
  q.cursor.lookahead.terminal = Token.Kind.endMarker ∧
    (top g q.stack).any fun i => i.rule = 0 ∧ g.next? i = none

def expects (g : Grammar) (q : Itemwise) (name : String) : Bool :=
  (top g q.stack).any fun i => g.next? i = some (.nonterminal name)

/-! ### The stacks of both parsers -/

/-- Pushing a symbol, as what the symbols on a stack make of another stack. -/
def Pushes (g : Grammar) (symbol : Grammar.Symbol) (stack : List (ItemSet × Attribute))
    (a : Attribute) (stack' : List (ItemSet × Attribute)) : Prop :=
  stack' = push g symbol a stack

variable {g : Grammar} {stack : List (Int × Attribute)} {symbols : List Grammar.Symbol} {k : Nat}
  {items items' : List (ItemSet × Attribute)} {s : State}

theorem items_top (hg : Proper g) (h : Climbs g (Pushes g) [] stack symbols k items)
    (hs : g.automaton.states[k]? = some s) : s.items = top g items := by
  induction h generalizing s with
  | bottom =>
    obtain ⟨s₀, hs₀, hitems⟩ := Grammar.automaton_start hg
    obtain rfl : s₀ = s := Option.some.inj (hs₀.symm.trans hs)
    exact hitems
  | push below state edge made ih =>
    obtain ⟨t, ht, hitems⟩ := Grammar.edge_target hg state edge
    obtain rfl : t = s := Option.some.inj (ht.symm.trans hs)
    rw [hitems, ih state, made]
    rfl

theorem attributes_eq (h : Climbs g (Pushes g) [] stack symbols k items) :
    items.map (·.2) = stack.map (·.2) := by
  induction h with
  | bottom => rfl
  | push below state edge made ih =>
    rw [made, push, List.map_cons, ih, List.map_cons]

theorem drop_of_madeAll {as : List Attribute} (h : MadeAll (Pushes g) symbols items as items') :
    items'.drop symbols.length = items := by
  induction symbols generalizing items as with
  | nil =>
    obtain ⟨_, rfl⟩ := h
    rfl
  | cons symbol symbols ih =>
    obtain ⟨a, rest, mid, _, rfl, hrest⟩ := h
    rw [List.length_cons, ← List.drop_drop, ih hrest]
    rfl

/-- The parser that a table drives, with the states whose items the other one has. -/
structure Tracks (g : Grammar) (q : Itemwise) (p : Parser) : Prop where
  cursor : p.cursor = q.cursor
  emitter : p.emitter = q.emitter
  climbs : ∃ symbols k, Climbs g (Pushes g) [] p.stack symbols k q.stack

variable {q q' : Itemwise} {p : Parser}

theorem tracks_start (g : Grammar) (tokens : List Token) :
    Tracks g (start tokens) (Parser.start tokens) :=
  ⟨rfl, rfl, [], 0, .bottom⟩

theorem Tracks.withEmitter (h : Tracks g q p) (emitter : Emitter) :
    Tracks g { q with emitter } { p with emitter } :=
  ⟨h.cursor, rfl, h.climbs⟩

/-! ### Steps -/

theorem Tracks.shift (hg : Proper g) (hconflicts : g.table.conflicts = []) (h : Tracks g q p)
    {i : Item} (hi : i ∈ top g q.stack)
    (hnext : g.next? i = some (.terminal q.cursor.lookahead.terminal))
    (hshift : q.shift? g = some q') : ∃ p', step g.table p = .next p' ∧ Tracks g q' p' := by
  obtain ⟨cursor, stack, emitter⟩ := p
  obtain ⟨rfl, rfl, symbols, k, hclimbs⟩ := h
  obtain ⟨s, hs⟩ := hclimbs.state hg
  rw [← items_top hg hclimbs hs] at hi
  obtain ⟨j, hedge⟩ := Grammar.edge_of_next hg hs hi hnext
  rw [step_shift hconflicts hclimbs.spells hs hi hnext hedge]
  simp only [shift?] at hshift
  split at hshift
  · rename_i emitter heffect
    obtain rfl := Option.some.inj hshift
    simp only [Parser.shift, heffect]
    exact ⟨_, rfl, rfl, rfl, _, j, .push hclimbs hs hedge rfl⟩
  · cases hshift

theorem Tracks.reduce (hg : Proper g) (hconflicts : g.table.conflicts = []) (h : Tracks g q p)
    {i : Item} (hi : i ∈ top g q.stack) (hnext : g.next? i = none) (hrule : i.rule ≠ 0)
    (hfollow : q.cursor.lookahead.terminal ∈ g.analyze.follow.get (g.production i.rule).head)
    (hreduce : q.reduce? g (g.production i.rule) = some q') :
    ∃ p', step g.table p = .next p' ∧ Tracks g q' p' := by
  obtain ⟨cursor, stack, emitter⟩ := p
  obtain ⟨rfl, rfl, symbols, k, hclimbs⟩ := h
  obtain ⟨s, hs⟩ := hclimbs.state hg
  rw [← items_top hg hclimbs hs] at hi
  rw [step_reduce hconflicts hclimbs.spells hs hi hnext hrule hfollow]
  -- below the body lies the same on both stacks
  obtain ⟨k₀, s₀, below, b⟩ := hclimbs.beneath hg hs hi
  have hdot := dot_of_complete hg hs hi hnext
  have hbelow : q.stack.drop (g.production i.rule).body.length = below := by
    have hdrop := drop_of_madeAll b.made
    rwa [hdot, List.take_length] at hdrop
  have hpopped : ((q.stack.take (g.production i.rule).body.length).map (·.2)).reverse =
      popped stack (g.production i.rule) := by
    rw [popped, List.map_take, attributes_eq hclimbs, ← List.map_take]
  obtain ⟨j, hedge, hresult⟩ := reduce_eq hg hs hi hrule hnext b
  simp only [reduce?] at hreduce
  split at hreduce
  · rename_i a emitter heffect
    obtain rfl := Option.some.inj hreduce
    rw [(hresult _ hpopped).1 a emitter heffect]
    have hbeneath := b.climbs
    rw [hdot] at hbeneath
    exact ⟨_, rfl, rfl, rfl, _, j, .push hbeneath b.state hedge (by rw [hbelow]; rfl)⟩
  · cases hreduce

/-- Both parsers do the same step. -/
theorem Tracks.next (hg : Proper g) (hconflicts : g.table.conflicts = []) (h : Tracks g q p)
    (hnext : q.next? g g.analyze.follow = some q') :
    ∃ p', step g.table p = .next p' ∧ Tracks g q' p' := by
  simp only [next?] at hnext
  split at hnext
  · rename_i hany
    obtain ⟨i, hi, hi'⟩ := List.any_eq_true.mp hany
    exact h.shift hg hconflicts hi (of_decide_eq_true hi') hnext
  · obtain ⟨i, hfound, hreduce⟩ := Option.bind_eq_some_iff.mp hnext
    have hcomplete := List.find?_some hfound
    simp only [decide_eq_true_eq] at hcomplete
    obtain ⟨hend, hrule, hfollow⟩ := hcomplete
    exact h.reduce hg hconflicts (List.mem_of_find?_eq_some hfound) hend hrule hfollow hreduce

/-- Both parsers do the same steps. -/
theorem Tracks.steps (hg : Proper g) (hconflicts : g.table.conflicts = []) {n : Nat}
    (h : Tracks g q p) (hsteps : q.steps? g g.analyze.follow n = some q') :
    ∃ p', (∀ fuel, Parser.run g.table (n + fuel) p = Parser.run g.table fuel p') ∧
      Tracks g q' p' := by
  induction n generalizing q p with
  | zero =>
    obtain rfl := Option.some.inj hsteps
    exact ⟨p, fun fuel => by rw [Nat.zero_add], h⟩
  | succ n ih =>
    obtain ⟨mid, hnext, hrest⟩ := Option.bind_eq_some_iff.mp hsteps
    obtain ⟨p₁, hstep, htracks⟩ := h.next hg hconflicts hnext
    obtain ⟨p', hrun, htracks'⟩ := ih htracks hrest
    refine ⟨p', fun fuel => ?_, htracks'⟩
    rw [Nat.succ_add]
    simp only [Parser.run, hstep, hrun]

theorem Tracks.accepted (hg : Proper g) (hconflicts : g.table.conflicts = []) (h : Tracks g q p)
    (haccepts : q.accepts g = true) (fuel : Nat) :
    Parser.run g.table (fuel + 1) p = .accepted p := by
  obtain ⟨symbols, k, hclimbs⟩ := h.climbs
  obtain ⟨s, hs⟩ := hclimbs.state hg
  simp only [accepts, decide_eq_true_eq, List.any_eq_true] at haccepts
  obtain ⟨hend, i, hi, hrule, hnext⟩ := haccepts
  rw [← items_top hg hclimbs hs] at hi
  rw [← h.cursor] at hend
  simp only [Parser.run, step_accept hconflicts hclimbs.spells hs hi hnext hrule hend]

theorem Tracks.expects (hg : Proper g) (h : Tracks g q p) {name : String}
    (hexpects : q.expects g name = true) : ∃ next, Expects g.table p name next := by
  obtain ⟨symbols, k, hclimbs⟩ := h.climbs
  obtain ⟨s, hs⟩ := hclimbs.state hg
  obtain ⟨i, hi, hnext⟩ := List.any_eq_true.mp hexpects
  rw [← items_top hg hclimbs hs] at hi
  obtain ⟨j, hedge⟩ := Grammar.edge_of_next hg hs hi (of_decide_eq_true hnext)
  refine ⟨j, ?_⟩
  rw [Expects, hclimbs.topState, Grammar.row?_table hs, Option.bind_some]
  exact Grammar.goto_of_next hi (of_decide_eq_true hnext) hedge

end Itemwise

end DuckLang.Parser
