import DuckLang.Proofs.Parser.Soundness
import Mathlib.Algebra.GroupWithZero.Nat

/-! Termination.  A stack weighs what its symbols weigh, and more if its top leaves room for a
non-terminal that stands for nothing.  When every production weighs less than its body and an empty
body only ever takes up room, each reduction makes the stack lighter and each shift uses up a token,
so every run ends. -/

namespace DuckLang.Parser

open Grammar (Proper Item State)

/-- Weights of symbols. -/
structure Weights where
  weight : Grammar.Symbol → Nat
  /-- What a symbol leaves for a non-terminal that stands for nothing to be put on it. -/
  room : Grammar.Symbol → Nat
  /-- The room that a non-terminal may take up where it starts. -/
  need : String → Nat
  /-- The most that a terminal weighs with its room. -/
  most : Nat

namespace Weights

variable (W : Weights)

/-- What symbols weigh, without room. -/
def total (symbols : List Grammar.Symbol) : Nat :=
  (symbols.map W.weight).sum

/-- Each non-terminal of a body finds its room on the symbol before it, and no terminal weighs too
much. -/
def spaced : List Grammar.Symbol → Bool
  | [] => true
  | .terminal name :: rest =>
    W.weight (.terminal name) + W.room (.terminal name) ≤ W.most &&
      (match rest with
        | .nonterminal next :: _ => W.need next ≤ W.room (.terminal name)
        | _ => true) && spaced rest
  | .nonterminal name :: rest =>
    (match rest with
      | .nonterminal next :: _ => W.need next ≤ W.room (.nonterminal name)
      | _ => true) && spaced rest

/-- What the first symbol of a body may take up, its head may. -/
def opens (p : Grammar.Production) : Bool :=
  match p.body with
  | .nonterminal name :: _ => W.need name ≤ W.need p.head
  | _ => true

/-- A head is lighter than its body, or takes up less than its room if that is empty. -/
def lighter (p : Grammar.Production) : Bool :=
  let head := W.weight (.nonterminal p.head) + W.room (.nonterminal p.head)
  match p.body.getLast? with
  | none => head < W.need p.head
  | some last => head < W.total p.body + W.room last

/-- Weights under which every reduction of a grammar makes the stack lighter. -/
structure Fit (g : Grammar) : Prop where
  spaced : ∀ {id : Nat} {p : Grammar.Production}, g.productions[id]? = some p →
    W.spaced p.body = true
  opens : ∀ {id : Nat} {p : Grammar.Production}, g.productions[id]? = some p → W.opens p = true
  lighter : ∀ {id : Nat} {p : Grammar.Production}, g.productions[id]? = some p → id ≠ 0 →
    W.lighter p = true

/-- The room on top of a stack that spells the given symbols. -/
def onTop (g : Grammar) : List Grammar.Symbol → Nat
  | [] => W.need g.start
  | symbol :: _ => W.room symbol

variable {W} {g : Grammar} {stack : List (Int × Attribute)} {symbols : List Grammar.Symbol}
  {k : Nat} {s : State}

theorem onTop_cons (symbol : Grammar.Symbol) :
    W.onTop g (symbol :: symbols) = W.room symbol := rfl

theorem spaced_next {body : List Grammar.Symbol} (h : W.spaced body = true) {d : Nat}
    {symbol : Grammar.Symbol} {name : String} (hsymbol : body[d]? = some symbol)
    (hname : body[d + 1]? = some (.nonterminal name)) : W.need name ≤ W.room symbol := by
  induction body generalizing d with
  | nil => simp at hsymbol
  | cons x rest ih =>
    cases d with
    | zero =>
      simp only [List.getElem?_cons_zero, Option.some.injEq] at hsymbol
      subst hsymbol
      simp only [Nat.zero_add, List.getElem?_cons_succ] at hname
      cases rest with
      | nil => simp at hname
      | cons y rest =>
        simp only [List.getElem?_cons_zero, Option.some.injEq] at hname
        subst hname
        cases x <;> simp only [spaced, Bool.and_eq_true, decide_eq_true_eq] at h
        · exact h.1.2
        · exact h.1
    | succ d =>
      have hrest : W.spaced rest = true := by
        cases x <;> simp only [spaced, Bool.and_eq_true] at h <;> exact h.2
      exact ih hrest hsymbol hname

theorem spaced_terminal {body : List Grammar.Symbol} (h : W.spaced body = true) {name : String}
    (hname : .terminal name ∈ body) :
    W.weight (.terminal name) + W.room (.terminal name) ≤ W.most := by
  induction body with
  | nil => simp at hname
  | cons x rest ih =>
    rcases List.mem_cons.mp hname with rfl | hrest
    · simp only [spaced, Bool.and_eq_true, decide_eq_true_eq] at h
      exact h.1.1
    · refine ih ?_ hrest
      cases x <;> simp only [spaced, Bool.and_eq_true] at h <;> exact h.2

/-- An item with its dot in front finds the room it needs on top of the stack. -/
theorem Fit.need_le (hfit : W.Fit g) (hg : Proper g) (h : Spells g stack symbols k)
    (hs : g.automaton.states[k]? = some s) {i : Item} (hi : i ∈ s.items) (hdot : i.dot = 0) :
    W.need (g.production i.rule).head ≤ W.onTop g symbols := by
  refine h.forall_items hg hs (P := fun i => i.dot = 0 →
    W.need (g.production i.rule).head ≤ W.onTop g symbols) ?_ ?_ ?_ i hi hdot
  · intro i _ hpos hdot
    omega
  · intro hempty _ _
    have hlength := h.length_eq
    rw [hempty] at hlength
    obtain ⟨_, haug⟩ := hg.augmented
    rw [List.length_eq_zero_iff.mp hlength, Grammar.production_of_rule haug]
    exact Nat.le_refl _
  · intro j hj hneed name hnext rule hid _
    rw [head_of_mem_idsOf hg hid]
    have hrule := item_rule hg hs hj
    have hget : (g.production j.rule).body[j.dot]? = some (.nonterminal name) := hnext
    obtain ⟨jrule, jdot⟩ := j
    cases jdot with
    | zero =>
      -- the non-terminal opens the body
      have hopens := hfit.opens hrule
      have hle := hneed rfl
      simp only [Weights.opens] at hopens
      cases hbody : (g.production jrule).body with
      | nil => simp [hbody] at hget
      | cons x rest =>
        simp only [hbody, List.getElem?_cons_zero, Option.some.injEq] at hget
        subst hget
        simp only [hbody, decide_eq_true_eq] at hopens
        exact hopens.trans hle
    | succ d =>
      -- the symbol before it is on top of the stack
      obtain ⟨_, _, _, b⟩ := h.beneath hg hs hj
      have hlt : d < (g.production jrule).body.length := by
        have := Grammar.next?_lt hnext
        dsimp only at this
        omega
      obtain ⟨symbol, hsymbol⟩ : ∃ symbol, (g.production jrule).body[d]? = some symbol :=
        ⟨_, List.getElem?_eq_getElem hlt⟩
      have htop : symbols.take (d + 1) = symbol :: ((g.production jrule).body.take d).reverse := by
        rw [b.body, List.take_add_one, hsymbol]
        simp
      have honTop : W.onTop g symbols = W.room symbol := by
        cases symbols with
        | nil => simp at htop
        | cons x xs =>
          rw [List.take_succ_cons] at htop
          rw [(List.cons.inj htop).1]
          rfl
      rw [honTop]
      exact spaced_next (hfit.spaced hrule) hsymbol hget

/-- What a parser has before it: the weight of its stack and the tokens ahead. -/
def load (W : Weights) (g : Grammar) (symbols : List Grammar.Symbol) (p : Parser) : Nat :=
  W.total symbols + W.onTop g symbols + (W.most + 1) * p.cursor.ahead.length

theorem total_append (xs ys : List Grammar.Symbol) :
    W.total (xs ++ ys) = W.total xs + W.total ys := by
  simp [total]

theorem total_reverse (xs : List Grammar.Symbol) : W.total xs.reverse = W.total xs := by
  simp [total]

theorem load_shift {symbol : Grammar.Symbol} {p q : Parser}
    (hweight : W.weight symbol + W.room symbol ≤ W.most)
    (hahead : p.cursor.ahead.length = q.cursor.ahead.length + 1) :
    W.load g (symbol :: symbols) q < W.load g symbols p := by
  simp only [load, total, List.map_cons, List.sum_cons, onTop, hahead, Nat.mul_add]
  omega

/-- A reduction takes weight off the stack. -/
theorem Fit.reduce_lighter (hfit : W.Fit g) (hg : Proper g) (h : Spells g stack symbols k)
    (hs : g.automaton.states[k]? = some s) {i : Item} (hi : i ∈ s.items) (hrule : i.rule ≠ 0)
    (hnext : g.next? i = none) {rest : List Grammar.Symbol}
    (hbody : symbols = (g.production i.rule).body.reverse ++ rest) :
    W.total (.nonterminal (g.production i.rule).head :: rest) +
      W.room (.nonterminal (g.production i.rule).head) < W.total symbols + W.onTop g symbols := by
  have hlighter := hfit.lighter (item_rule hg hs hi) hrule
  simp only [Weights.lighter] at hlighter
  rw [hbody, total_append, total_reverse]
  cases hlast : (g.production i.rule).body.getLast? with
  | none =>
    have hempty := List.getLast?_eq_none_iff.mp hlast
    have hdot := dot_of_complete hg hs hi hnext
    rw [hempty] at hdot
    have hneed := hfit.need_le hg h hs hi hdot
    simp only [hlast, decide_eq_true_eq] at hlighter
    simp only [hbody, hempty, List.reverse_nil, List.nil_append] at hneed ⊢
    simp only [total, List.map_cons, List.sum_cons, List.map_nil, List.sum_nil]
    omega
  | some last =>
    obtain ⟨front, hfront⟩ := List.getLast?_eq_some_iff.mp hlast
    simp only [hlast, decide_eq_true_eq] at hlighter
    have honTop : W.onTop g ((g.production i.rule).body.reverse ++ rest) = W.room last := by
      simp [hfront, onTop]
    rw [honTop]
    simp only [total, List.map_cons, List.sum_cons] at hlighter ⊢
    omega

end Weights

/-- A run ends. -/
def Halts (table : Table) (p : Parser) : Prop :=
  ∃ n o, (∀ fuel, n ≤ fuel → run table fuel p = o) ∧ ∀ q, o ≠ .unfinished q

theorem Halts.next {table : Table} {p q : Parser} (hstep : step table p = .next q)
    (h : Halts table q) : Halts table p := by
  obtain ⟨n, o, hrun, hended⟩ := h
  refine ⟨n + 1, o, ?_, hended⟩
  rintro (_ | fuel) hfuel
  · omega
  · simp only [run, hstep]
    exact hrun fuel (by omega)

theorem Halts.accepted {table : Table} {p q : Parser} (hstep : step table p = .accepted q) :
    Halts table p := by
  refine ⟨1, .accepted q, ?_, by simp⟩
  rintro (_ | fuel) hfuel
  · omega
  · simp only [run, hstep]

theorem Halts.failed {table : Table} {p q : Parser} {d : Diagnostic}
    (hstep : step table p = .failed d q) : Halts table p := by
  refine ⟨1, .failed d q, ?_, by simp⟩
  rintro (_ | fuel) hfuel
  · omega
  · simp only [run, hstep]

variable {W : Weights} {g : Grammar}

/-- With fitting weights every run ends. -/
theorem Weights.Fit.halts (hfit : W.Fit g) (hg : Proper g) {p : Parser}
    {symbols : List Grammar.Symbol} {k : Nat} (h : Spells g p.stack symbols k) :
    Halts g.table p := by
  induction hn : W.load g symbols p using Nat.strongRecOn generalizing p symbols k with
  | ind n ih =>
    obtain ⟨s, hs⟩ := h.state hg
    rcases step_cases h hs with ⟨_, hstep⟩ | ⟨j, _, hstep, hedge, i, hi, hnext⟩ |
      ⟨i, hi, _, hstep, hrule, hnext⟩ | ⟨_, hstep, _⟩
    · exact .failed hstep
    · have hmem := List.mem_of_getElem? (show (g.production i.rule).body[i.dot]? = _ from hnext)
      have hinner := (hg.visible (item_rule hg hs hi) hmem).1
      have hweight := Weights.spaced_terminal (hfit.spaced (item_rule hg hs hi)) hmem
      have hahead := Cursor.ahead_of_inner hinner
      simp only [Parser.shift] at hstep
      cases heffect : (shiftEffect p.cursor.lookahead.kind).run p.emitter with
      | error cause e =>
        simp only [heffect] at hstep
        exact .failed hstep
      | ok _ e =>
        simp only [heffect] at hstep
        refine .next hstep (ih _ ?_ (.push h hs hedge trivial) rfl)
        rw [← hn]
        exact Weights.load_shift hweight (by simp [hahead])
    · obtain ⟨k', s', _, b⟩ := h.beneath hg hs hi
      obtain ⟨j, hedge, heffect⟩ := reduce_eq hg hs hi hrule hnext b
      obtain ⟨hok, herror⟩ := heffect _ rfl
      cases hrun : (reduceEffect (g.production i.rule).head
          (popped p.stack (g.production i.rule))).run p.emitter with
      | error cause e =>
        obtain ⟨q, hfailed⟩ := herror cause e hrun
        exact .failed (hstep.trans hfailed)
      | ok head e =>
        obtain ⟨hsymbols, hclimbs⟩ := b.whole hg hs hi hnext
        have hlight := hfit.reduce_lighter hg h hs hi hrule hnext hsymbols
        refine .next (hstep.trans (hok head e hrun))
          (ih _ ?_ (.push hclimbs b.state hedge trivial) rfl)
        rw [← hn]
        simp only [Weights.load, Weights.onTop_cons, reduced]
        omega
    · exact .accepted hstep

end DuckLang.Parser
