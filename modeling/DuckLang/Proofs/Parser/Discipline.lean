import DuckLang.Proofs.Emitter.Ensures
import DuckLang.Proofs.Parser.Soundness

/-! What the effects of a parse do, production by production.  A `Discipline` says of each
non-terminal what holds before it and of each symbol what it does to a state of knowledge about the
emitter.  If every production, walked from left to right, does what its head promises, then so does
every run of the parser: an effect fails only with a cause that is allowed, and a run that accepts
has done what the start promises. -/

namespace DuckLang.Parser

open Grammar (Proper FreshStart Item State)
open Emit (Ensures)

/-- What symbols mean for a state of knowledge about an emitter. -/
structure Discipline (Γ : Type) where
  emitter : Γ → Emitter
  /-- What holds where a non-terminal starts. -/
  Ready : String → Γ → Prop
  /-- What a symbol with an attribute does. -/
  Made : Grammar.Symbol → Γ → Attribute → Γ → Prop
  /-- The tokens that a parser is given. -/
  Word : Token → Prop
  /-- The causes that effects may fail with. -/
  Allowed : Cause → Prop

namespace Discipline

variable {Γ : Type} (D : Discipline Γ)

/-- An effect takes a state to one with `Q`, or fails with an allowed cause. -/
def Takes {α : Type} (m : Emit α) (γ : Γ) (Q : α → Γ → Prop) : Prop :=
  Ensures m (D.emitter γ) D.Allowed fun a e => ∃ γ', D.emitter γ' = e ∧ Q a γ'

/-- The rest of a body, walked from `γ` on, does what its head promises to do from `γ₀`: each
non-terminal finds what it needs, each shift and the reduction in the end make what they should. -/
def Walk (head : String) (γ₀ : Γ) (done : List Attribute) : List Grammar.Symbol → Γ → Prop
  | [], γ => D.Takes (reduceEffect head done) γ (D.Made (.nonterminal head) γ₀)
  | .nonterminal name :: rest, γ =>
    D.Ready name γ ∧
      ∀ a γ', D.Made (.nonterminal name) γ a γ' → Walk head γ₀ (done ++ [a]) rest γ'
  | .terminal name :: rest, γ =>
    (∀ t, D.Word t → t.terminal = name →
      D.Takes (shiftEffect t.kind) γ fun _ => D.Made (.terminal name) γ (.ofText t.text)) ∧
      ∀ a γ', D.Made (.terminal name) γ a γ' → Walk head γ₀ (done ++ [a]) rest γ'

/-- Every production does what its head promises, the start from `base` on. -/
structure Kept (g : Grammar) (base : Γ) : Prop where
  start : ∀ name, .nonterminal name ∈ (g.production 0).body → D.Ready name base
  walk : ∀ {id : Nat} {p : Grammar.Production}, g.productions[id]? = some p → id ≠ 0 →
    ∀ γ, D.Ready p.head γ → D.Walk p.head γ [] p.body γ

variable {D} {g : Grammar} {base γ γ₀ : Γ} {stack : List (Int × Attribute)}
  {symbols : List Grammar.Symbol} {k : Nat} {s : State}

theorem Walk.along {head : String} {done : List Attribute} {xs ys : List Grammar.Symbol}
    {as : List Attribute} {γ' : Γ} (h : D.Walk head γ₀ done (xs ++ ys) γ)
    (hmade : MadeAll D.Made xs γ as γ') : D.Walk head γ₀ (done ++ as) ys γ' := by
  induction xs generalizing done γ as with
  | nil =>
    obtain ⟨rfl, rfl⟩ := hmade
    simpa using h
  | cons x xs ih =>
    obtain ⟨a, rest, mid, rfl, hx, hrest⟩ := hmade
    have hnext : D.Walk head γ₀ (done ++ [a]) (xs ++ ys) mid := by
      cases x with
      | terminal name => exact h.2 a mid hx
      | nonterminal name => exact h.2 a mid hx
    simpa using ih hnext hrest

/-- The walk of an item, from where its head started to its dot. -/
theorem Kept.walk_item (hkept : D.Kept g base) (hg : Proper g)
    (hs : g.automaton.states[k]? = some s) {i : Item} (hi : i ∈ s.items) (hrule : i.rule ≠ 0)
    {as : List Attribute} (hready : D.Ready (g.production i.rule).head γ₀)
    (hmade : MadeAll D.Made ((g.production i.rule).body.take i.dot) γ₀ as γ) :
    D.Walk (g.production i.rule).head γ₀ as ((g.production i.rule).body.drop i.dot) γ := by
  have hwalk := hkept.walk (item_rule hg hs hi) hrule γ₀ hready
  rw [← List.take_append_drop i.dot (g.production i.rule).body] at hwalk
  simpa using hwalk.along hmade

/-- Where an item started, its head was ready. -/
theorem Kept.ready (hkept : D.Kept g base) (hg : Proper g) (hfresh : FreshStart g)
    (h : Climbs g D.Made base stack symbols k γ) (hs : g.automaton.states[k]? = some s)
    {i : Item} (hi : i ∈ s.items) (hrule : i.rule ≠ 0) :
    ∃ k' s' γ₀, Beneath g D.Made base stack symbols γ i k' s' γ₀ ∧
      D.Ready (g.production i.rule).head γ₀ := by
  -- an item with its dot inside started further down; one with its dot in front was predicted
  induction hn : stack.length using Nat.strongRecOn generalizing stack symbols k γ s i with
  | ind n ih =>
    have hlower : ∀ i ∈ s.items, 0 < i.dot → i.rule ≠ 0 →
        ∃ k' s' γ₀, Beneath g D.Made base stack symbols γ i k' s' γ₀ ∧
          D.Ready (g.production i.rule).head γ₀ := by
      intro i hi hpos hrule
      obtain ⟨k', s', γ₀, b⟩ := h.beneath hg hs hi
      have henough := b.enough
      have hlength : (stack.drop i.dot).length < n := by
        rw [List.length_drop]
        omega
      obtain ⟨_, _, _, b', hready⟩ := ih _ hlength b.climbs b.state b.item hrule rfl
      obtain ⟨-, rfl⟩ := b'.made
      exact ⟨k', s', _, b, hready⟩
    by_cases hdot : i.dot = 0
    · obtain ⟨k', s', γ₀, b⟩ := h.beneath hg hs hi
      obtain ⟨-, rfl⟩ : _ ∧ γ = γ₀ := by
        have hmade := b.made
        rw [hdot] at hmade
        exact hmade
      refine ⟨k', s', γ, b, ?_⟩
      refine h.forall_items hg hs (P := fun i => i.dot = 0 → i.rule ≠ 0 →
        D.Ready (g.production i.rule).head γ) ?_ ?_ ?_ i hi hdot hrule
      · intro i _ hpos hdot
        omega
      · intro _ _ _ hzero
        exact absurd rfl hzero
      · intro j hj hjready name hnext rule hid _ _
        have hbody : Grammar.Symbol.nonterminal name ∈ (g.production j.rule).body :=
          List.mem_of_getElem? hnext
        rw [head_of_mem_idsOf hg hid]
        by_cases hzero : j.rule = 0
        · rw [hzero] at hbody
          have hj0 : j = { rule := 0, dot := 0 } := by
            obtain ⟨_, haug⟩ := hg.augmented
            have hlt := Grammar.next?_lt hnext
            rw [hzero, Grammar.production_of_rule haug] at hlt
            obtain ⟨rule, dot⟩ := j
            simp only [List.length_singleton, Nat.lt_one_iff] at hlt hzero
            rw [hlt, hzero]
          rw [hj0] at hj
          obtain rfl := h.bottom_of_start hg hfresh hs hj
          cases h
          exact hkept.start name hbody
        · obtain ⟨as, γ₁, hready, hmade⟩ : ∃ as γ₁, D.Ready (g.production j.rule).head γ₁ ∧
              MadeAll D.Made ((g.production j.rule).body.take j.dot) γ₁ as γ := by
            by_cases hjdot : j.dot = 0
            · exact ⟨[], γ, hjready hjdot hzero, by simp [hjdot, MadeAll]⟩
            · obtain ⟨_, _, γ₁, b', hready⟩ := hlower j hj (Nat.pos_of_ne_zero hjdot) hzero
              exact ⟨_, γ₁, hready, b'.made⟩
          have hwalk := hkept.walk_item hg hs hj hzero hready hmade
          rw [drop_of_next hnext] at hwalk
          exact hwalk.1
    · exact hlower i hi (Nat.pos_of_ne_zero hdot) hrule

/-- A parser whose stack does what its symbols promise. -/
structure Follows (D : Discipline Γ) (g : Grammar) (base : Γ) (p : Parser) (γ : Γ) : Prop where
  climbs : ∃ symbols k, Climbs g D.Made base p.stack symbols k γ
  emitter : D.emitter γ = p.emitter
  words : ∀ t ∈ p.cursor.ahead, D.Word t

theorem Follows.start (hemitter : D.emitter base = {}) {tokens : List Token}
    (hwords : ∀ t ∈ tokens, D.Word t) : D.Follows g base (.start tokens) base where
  climbs := ⟨[], 0, .bottom⟩
  emitter := hemitter
  words := by
    intro t ht
    rw [show (Parser.start tokens).cursor = Cursor.start tokens from rfl, Cursor.ahead_start] at ht
    exact hwords t ((List.takeWhile_prefix _).subset ht)

/-- How a run that follows a discipline may end. -/
def Ends (D : Discipline Γ) (g : Grammar) (base : Γ) : Outcome → Prop
  | .accepted p => ∃ as γ, D.emitter γ = p.emitter ∧ MadeAll D.Made (g.production 0).body base as γ
  | .failed d _ => d.cause.kind = .parse ∨ D.Allowed d.cause
  | .unfinished _ => True

theorem Takes.ok {α : Type} {m : Emit α} {Q : α → Γ → Prop} {a : α} {e : Emitter}
    (h : D.Takes m γ Q) (hrun : m.run (D.emitter γ) = .ok a e) : ∃ γ', D.emitter γ' = e ∧ Q a γ' :=
  Ensures.ok h hrun

theorem Takes.error {α : Type} {m : Emit α} {Q : α → Γ → Prop} {cause : Cause} {e : Emitter}
    (h : D.Takes m γ Q) (hrun : m.run (D.emitter γ) = .error cause e) : D.Allowed cause :=
  Ensures.error h hrun

theorem unexpected_kind (t : Token) (state : Int) : (unexpected t state).cause.kind = .parse := by
  simp only [unexpected]
  split <;> rfl

/-- What one action leads to. -/
theorem Kept.step (hkept : D.Kept g base) (hg : Proper g) (hfresh : FreshStart g) {p : Parser}
    (h : D.Follows g base p γ) :
    (∃ q γ', Parser.step g.table p = .next q ∧ D.Follows g base q γ') ∨
      (Parser.step g.table p = .accepted p ∧ D.Ends g base (.accepted p)) ∨
      ∃ d q, Parser.step g.table p = .failed d q ∧ D.Ends g base (.failed d q) := by
  obtain ⟨symbols, k, hclimbs⟩ := h.climbs
  obtain ⟨s, hs⟩ := hclimbs.state hg
  rcases step_cases hclimbs hs with ⟨_, hstep⟩ | ⟨j, _, hstep, hedge, i, hi, hnext⟩ |
    ⟨i, hi, _, hstep, hrule, hnext⟩ | ⟨_, hstep, _, i, hi, hrule, hnext⟩
  · exact .inr (.inr ⟨_, _, hstep, .inl (unexpected_kind _ _)⟩)
  · -- a shift: the walk of the item asks for the token
    have hrule : i.rule ≠ 0 := by
      intro hzero
      obtain ⟨_, haug⟩ := hg.augmented
      have hmem := List.mem_of_getElem? (show (g.production i.rule).body[i.dot]? = _ from hnext)
      rw [hzero, Grammar.production_of_rule haug] at hmem
      simp at hmem
    have hinner := (hg.visible (item_rule hg hs hi) (List.mem_of_getElem? hnext)).1
    have hahead := Cursor.ahead_of_inner hinner
    obtain ⟨_, _, γ₀, b, hready⟩ := hkept.ready hg hfresh hclimbs hs hi hrule
    have hwalk := hkept.walk_item hg hs hi hrule hready b.made
    rw [drop_of_next hnext] at hwalk
    have hword : D.Word p.cursor.lookahead := h.words _ (by simp [hahead])
    have htakes := hwalk.1 p.cursor.lookahead hword rfl
    simp only [hstep, Parser.shift]
    cases heffect : (shiftEffect p.cursor.lookahead.kind).run p.emitter with
    | ok _ e =>
      rw [← h.emitter] at heffect
      obtain ⟨γ', hemitter, hmade⟩ := htakes.ok heffect
      refine .inl ⟨_, γ', rfl, ⟨_, j, .push hclimbs hs hedge hmade⟩, hemitter, ?_⟩
      intro t ht
      exact h.words t (by simp [hahead, ht])
    | error cause e =>
      rw [← h.emitter] at heffect
      exact .inr (.inr ⟨_, _, rfl, .inr (htakes.error heffect)⟩)
  · -- a reduction: the walk of the item is at its end
    obtain ⟨k', s', γ₀, b, hready⟩ := hkept.ready hg hfresh hclimbs hs hi hrule
    have hwalk := hkept.walk_item hg hs hi hrule hready b.made
    have hdot := dot_of_complete hg hs hi hnext
    have hclimbs' := b.climbs
    rw [hdot] at hwalk hclimbs'
    rw [List.drop_length] at hwalk
    obtain ⟨j, hedge, heffect⟩ := reduce_eq hg hs hi hrule hnext b
    obtain ⟨hok, herror⟩ := heffect _ rfl
    rw [hstep]
    cases hrun : (reduceEffect (g.production i.rule).head
        (popped p.stack (g.production i.rule))).run p.emitter with
    | ok head e =>
      rw [hok head e hrun]
      rw [← h.emitter] at hrun
      obtain ⟨γ', hemitter, hmade⟩ := hwalk.ok hrun
      exact .inl ⟨_, γ', rfl, ⟨_, j, .push hclimbs' b.state hedge hmade⟩, hemitter, h.words⟩
    | error cause e =>
      obtain ⟨q, hfailed⟩ := herror cause e hrun
      rw [← h.emitter] at hrun
      exact .inr (.inr ⟨_, q, hfailed, .inr (hwalk.error hrun)⟩)
  · -- acceptance: the start lies on the empty stack
    obtain ⟨k', s', γ₀, b⟩ := hclimbs.beneath hg hs hi
    have hmade := b.made
    have hitem := b.item
    rw [dot_of_complete hg hs hi hnext, hrule, List.take_length] at hmade
    rw [hrule] at hitem
    have hbottom := b.climbs.bottom_of_start hg hfresh b.state hitem
    obtain ⟨-, -, rfl, -⟩ | ⟨_, _, _, _, _, _, _, hpushed, _⟩ := b.climbs.items hg b.state
    · exact .inr (.inl ⟨hstep, _, γ, h.emitter, hmade⟩)
    · simp [hbottom] at hpushed

/-- What a run leads to. -/
theorem Kept.run (hkept : D.Kept g base) (hg : Proper g) (hfresh : FreshStart g) (fuel : Nat)
    {p : Parser} (h : D.Follows g base p γ) : D.Ends g base (Parser.run g.table fuel p) := by
  induction fuel generalizing p γ with
  | zero => trivial
  | succ fuel ih =>
    rcases hkept.step hg hfresh h with ⟨q, γ', hstep, hq⟩ | ⟨hstep, hend⟩ | ⟨d, q, hstep, hend⟩
    · simp only [Parser.run, hstep]
      exact ih hq
    · simpa only [Parser.run, hstep] using hend
    · simpa only [Parser.run, hstep] using hend

end Discipline

end DuckLang.Parser
