import DuckLang.Proofs.Parser.Completeness
import DuckLang.Proofs.Parser.Discipline

/-! What a parse drives an emitter through.  `Drives` tells it from the grammar alone: each token
has its effect when it is shifted, and each production that of its reduction once its body is
covered.  Where the table has no conflicts, a parser that expects a non-terminal and has such tokens
ahead does exactly that. -/

namespace DuckLang.Parser

open Grammar (Proper FreshStart Item State Yields)

variable {g : Grammar} {table : Table} {p q r : Parser}

/-- Symbols that cover tokens, with the attributes and the emitter that the effects on the way
leave. -/
inductive Drives (g : Grammar) :
    List Grammar.Symbol → List Token → Emitter → List Attribute → Emitter → Prop
  | nil (e : Emitter) : Drives g [] [] e [] e
  | shift {t : Token} {symbols : List Grammar.Symbol} {tokens : List Token} {e e₁ e' : Emitter}
      {as : List Attribute} (effect : (shiftEffect t.kind).run e = .ok () e₁)
      (rest : Drives g symbols tokens e₁ as e') :
      Drives g (.terminal t.terminal :: symbols) (t :: tokens) e (.ofText t.text :: as) e'
  | reduce {id : Nat} {production : Grammar.Production} {symbols : List Grammar.Symbol}
      {u v : List Token} {e e₁ e₂ e' : Emitter} {a : Attribute} {inner as : List Attribute}
      (rule : g.productions[id]? = some production)
      (body : Drives g production.body u e inner e₁)
      (effect : (reduceEffect production.head inner).run e₁ = .ok a e₂)
      (rest : Drives g symbols v e₂ as e') :
      Drives g (.nonterminal production.head :: symbols) (u ++ v) e (a :: as) e'

theorem Drives.yields {symbols : List Grammar.Symbol} {tokens : List Token} {e e' : Emitter}
    {as : List Attribute} (h : Drives g symbols tokens e as e') :
    Yields g symbols (tokens.map (·.terminal)) := by
  induction h with
  | nil e => exact .nil
  | shift effect rest ih => exact .terminal ih
  | reduce rule body effect rest ihBody ihRest =>
    rw [List.map_append]
    exact .rule rule ihBody ihRest

theorem Drives.length_eq {symbols : List Grammar.Symbol} {tokens : List Token} {e e' : Emitter}
    {as : List Attribute} (h : Drives g symbols tokens e as e') : as.length = symbols.length := by
  induction h with
  | nil e => rfl
  | shift effect rest ih => simp [ih]
  | reduce rule body effect rest _ ih => simp [ih]

theorem Drives.append {xs ys : List Grammar.Symbol} {u v : List Token} {e e₁ e' : Emitter}
    {as bs : List Attribute} (h : Drives g xs u e as e₁) (h' : Drives g ys v e₁ bs e') :
    Drives g (xs ++ ys) (u ++ v) e (as ++ bs) e' := by
  induction h with
  | nil e => exact h'
  | shift effect rest ih => exact .shift effect (ih h')
  | reduce rule body effect rest _ ih =>
    rw [List.append_assoc]
    exact .reduce rule body effect (ih h')

/-! ### Runs that go on -/

/-- From one parser a run goes on with another. -/
def GoesTo (table : Table) (p q : Parser) : Prop :=
  ∃ n, ∀ fuel, run table (n + fuel) p = run table fuel q

theorem GoesTo.refl (table : Table) (p : Parser) : GoesTo table p p :=
  ⟨0, fun fuel => by rw [Nat.zero_add]⟩

theorem GoesTo.trans (h : GoesTo table p q) (h' : GoesTo table q r) : GoesTo table p r := by
  obtain ⟨n, hn⟩ := h
  obtain ⟨n', hn'⟩ := h'
  exact ⟨n + n', fun fuel => by rw [Nat.add_assoc, hn, hn']⟩

theorem GoesTo.of_step (h : step table p = .next q) : GoesTo table p q :=
  ⟨1, fun fuel => by rw [Nat.add_comm]; simp only [run, h]⟩

theorem run_accepted_add {fuel : Nat} (h : run table fuel p = .accepted r) (more : Nat) :
    run table (fuel + more) p = .accepted r := by
  induction fuel generalizing p with
  | zero => cases h
  | succ fuel ih =>
    rw [Nat.succ_add]
    simp only [run] at h ⊢
    cases hstep : step table p with
    | next p' =>
      rw [hstep] at h
      exact ih h
    | _ => simpa only [hstep] using h

theorem GoesTo.accepted (h : GoesTo table p q) {fuel : Nat}
    (hrun : run table fuel p = .accepted r) : run table fuel q = .accepted r := by
  obtain ⟨n, hn⟩ := h
  rw [← hn fuel, Nat.add_comm]
  exact run_accepted_add hrun n

def Cursor.tokens (c : Cursor) : List Token :=
  c.lookahead :: c.rest

theorem Cursor.tokens_advance {c : Cursor} {t u : Token} {ts : List Token}
    (h : c.tokens = t :: u :: ts) : c.advance.tokens = u :: ts := by
  obtain ⟨previous, lookahead, rest⟩ := c
  obtain ⟨_, rfl⟩ := List.cons.inj h
  rfl

/-- Where a parser is once it has passed the rest of the body of an item: that rest lies on the old
stack, with the given attributes. -/
structure Driven (g : Grammar) (stack : List (Int × Attribute)) (rule : Nat)
    (as : List Attribute) (emitter : Emitter) (ahead : List Token) (q : Parser) : Prop where
  complete : ∃ symbols k s, Spells g q.stack symbols k ∧ g.automaton.states[k]? = some s ∧
    { rule, dot := (g.production rule).body.length } ∈ s.items
  stack : ∃ top, q.stack = top ++ stack ∧ (top.map (·.2)).reverse = as
  emitter : q.emitter = emitter
  tokens : q.cursor.tokens = ahead

theorem Driven.below {entry : Int × Attribute} {stack : List (Int × Attribute)} {rule : Nat}
    {as : List Attribute} {emitter : Emitter} {ahead : List Token}
    (h : Driven g (entry :: stack) rule as emitter ahead q) :
    Driven g stack rule (entry.2 :: as) emitter ahead q where
  complete := h.complete
  stack := by
    obtain ⟨top, hstack, rfl⟩ := h.stack
    exact ⟨top ++ [entry], by rw [hstack, List.append_assoc]; rfl, by simp⟩
  emitter := h.emitter
  tokens := h.tokens

variable {symbols : List Grammar.Symbol} {k : Nat} {s : State}

/-- The productions of a non-terminal behind a dot are predicted. -/
theorem predicted_mem (hg : Proper g) (hfresh : FreshStart g)
    (hs : g.automaton.states[k]? = some s) {i : Item} (hi : i ∈ s.items) {id : Nat}
    {production : Grammar.Production} (hrule : g.productions[id]? = some production)
    (hnext : g.next? i = some (.nonterminal production.head)) :
    { rule := id, dot := 0 } ∈ s.items ∧ id ≠ 0 :=
  predicted_item hg hfresh hs hi hnext (rule_mem_idsOf hg hfresh hs hi hrule hnext)

/-- A reduction by a completed item, over what its body left on the stack. -/
theorem GoesTo.reduce (hg : Proper g) (hconflicts : g.table.conflicts = [])
    {stack : List (Int × Attribute)} (hstack : Spells g stack symbols k)
    (hs : g.automaton.states[k]? = some s) {id : Nat} (hid : id ≠ 0) {as : List Attribute}
    {emitter : Emitter} {x : Token} {more : List Token}
    (h : Driven g stack id as emitter (x :: more) q)
    (hlength : as.length = (g.production id).body.length)
    (hfollow : x.terminal ∈ g.analyze.follow.get (g.production id).head) {a : Attribute}
    {e : Emitter} (heffect : (reduceEffect (g.production id).head as).run emitter = .ok a e) :
    ∃ j : Nat, s.edges.lookup (.nonterminal (g.production id).head) = some j ∧
      GoesTo g.table q { cursor := q.cursor, stack := ((j : Int), a) :: stack, emitter := e } := by
  obtain ⟨symbols', k', s', hq, hs', hi'⟩ := h.complete
  obtain ⟨top, htop, hattributes⟩ := h.stack
  have hcomplete : g.next? { rule := id, dot := (g.production id).body.length } = none :=
    next?_complete id
  have hlookahead : q.cursor.lookahead = x := (List.cons.inj h.tokens).1
  have hstep := step_reduce hconflicts hq hs' hi' hcomplete hid (by rw [hlookahead]; exact hfollow)
  -- the body lies on top, and below it the old stack
  have hlen : top.length = (g.production id).body.length := by
    rw [← hlength, ← hattributes, List.length_reverse, List.length_map]
  have hpopped : popped q.stack (g.production id) = as := by
    rw [popped, htop, ← hlen, List.take_left, hattributes]
  have hdrop : q.stack.drop (g.production id).body.length = stack := by
    rw [htop, ← hlen, List.drop_left]
  obtain ⟨k₀, s₀, _, b⟩ := hq.beneath hg hs' hi'
  obtain ⟨j, hedge, hreduce⟩ := reduce_eq hg hs' hi' hid hcomplete b
  have hclimbs := b.climbs
  dsimp only at hclimbs
  rw [hdrop] at hclimbs
  obtain rfl : k₀ = k := Int.ofNat.inj (hclimbs.topState.symm.trans hstack.topState)
  obtain rfl : s₀ = s := Option.some.inj (b.state.symm.trans hs)
  refine ⟨j, hedge, .of_step ?_⟩
  rw [hstep, (hreduce _ hpopped.symm).1 a e (by rw [h.emitter]; exact heffect)]
  simp only [reduced, hdrop]

/-- An item whose rest covers the tokens ahead is driven over them. -/
theorem Drives.driven (hg : Proper g) (hfresh : FreshStart g) (hconflicts : g.table.conflicts = [])
    {rest : List Grammar.Symbol} {tokens : List Token} {e e' : Emitter} {as : List Attribute}
    (h : Drives g rest tokens e as e') {i : Item} {x : Token} {more : List Token}
    (hstack : Spells g p.stack symbols k) (hs : g.automaton.states[k]? = some s)
    (hi : i ∈ s.items) (hrest : (g.production i.rule).body.drop i.dot = rest)
    (hahead : p.cursor.tokens = tokens ++ x :: more) (hemitter : p.emitter = e)
    (hfollow : x.terminal ∈ g.analyze.follow.get (g.production i.rule).head) :
    ∃ q, GoesTo g.table p q ∧ Driven g p.stack i.rule as e' (x :: more) q := by
  induction h generalizing p symbols k s i x more with
  | nil e =>
    have hcomplete := complete_of_drop hg hs hi hrest
    exact ⟨p, .refl _ _, ⟨symbols, k, s, hstack, hs, hcomplete⟩, ⟨[], rfl, rfl⟩, hemitter, hahead⟩
  | @shift t rest tokens e e₁ e' as effect _ ih =>
    subst hemitter
    obtain ⟨hnext, hdrop⟩ := next_of_drop hrest
    obtain rfl : p.cursor.lookahead = t := (List.cons.inj hahead).1
    obtain ⟨j, hedge⟩ := Grammar.edge_of_next hg hs hi hnext
    obtain ⟨u, hu, _⟩ := Grammar.edge_target hg hs hedge
    have hitem := Grammar.advanced_mem hg hs hedge hu hi hnext
    let p₁ : Parser :=
      { cursor := p.cursor.advance,
        stack := ((j : Int), .ofText p.cursor.lookahead.text) :: p.stack, emitter := e₁ }
    have hstep : step g.table p = .next p₁ := by
      rw [step_shift hconflicts hstack hs hi hnext hedge]
      simp only [Parser.shift, effect]
      rfl
    have hahead' : p₁.cursor.tokens = tokens ++ x :: more := by
      obtain ⟨y, ys, hys⟩ : ∃ y ys, tokens ++ x :: more = y :: ys := by
        cases tokens <;> simp
      rw [hys]
      exact Cursor.tokens_advance (hahead.trans (congrArg _ hys))
    obtain ⟨q, hgoes, hdriven⟩ :=
      ih (p := p₁) (.push hstack hs hedge trivial) hu hitem hdrop hahead' rfl hfollow
    exact ⟨q, (GoesTo.of_step hstep).trans hgoes, hdriven.below⟩
  | @reduce id production rest u v e e₁ e₂ e' a inner as hrule hbody effect hrestDrives ihBody
      ihRest =>
    obtain ⟨hnext, hdrop⟩ := next_of_drop hrest
    -- the items of the production are predicted, and what comes behind it follows its head
    obtain ⟨hpredicted, hzero⟩ := predicted_mem hg hfresh hs hi hrule hnext
    have hproduction := Grammar.production_of_rule hrule
    have hyfollow := mem_follow_behind hg hs hi hrest hrestDrives.yields hfollow
    obtain ⟨y, later, hlater, hy⟩ : ∃ y later, v ++ x :: more = y :: later ∧
        y.terminal = (v.map (·.terminal)).headD x.terminal := by
      cases v <;> simp
    rw [← hy] at hyfollow
    rw [List.append_assoc, hlater] at hahead
    obtain ⟨q, hgoes, hdriven⟩ := ihBody (i := { rule := id, dot := 0 }) hstack hs hpredicted
      (by simp [hproduction]) hahead hemitter (by rwa [hproduction])
    obtain ⟨j, hedge, hreduced⟩ := GoesTo.reduce hg hconflicts hstack hs hzero hdriven
      (by rw [hbody.length_eq, hproduction]) (by rwa [hproduction]) (by rwa [hproduction])
    rw [hproduction] at hedge
    obtain ⟨t, ht, _⟩ := Grammar.edge_target hg hs hedge
    have hitem := Grammar.advanced_mem hg hs hedge ht hi hnext
    obtain ⟨q', hgoes', hdriven'⟩ := ihRest
      (p := { cursor := q.cursor, stack := ((j : Int), a) :: p.stack, emitter := e₂ })
      (.push hstack hs hedge trivial) ht hitem hdrop (hdriven.tokens.trans hlater.symm) rfl hfollow
    exact ⟨q', hgoes.trans (hreduced.trans hgoes'), hdriven'.below⟩

/-! ### Expected non-terminals -/

/-- A state has a goto for a non-terminal only where it stands behind the dot of an item. -/
theorem next_of_goto {head : String} {next : Int} (h : (g.rowOf s k).goto? head = some next) :
    ∃ i ∈ s.items, g.next? i = some (.nonterminal head) := by
  rcases Grammar.goto?_enterAll h with h | ⟨j, rfl, hmem⟩
  · simp [Table.Row.goto?] at h
  · obtain ⟨i, hi, hmem⟩ := List.mem_flatMap.mp hmem
    refine ⟨i, hi, ?_⟩
    simp only [Grammar.proposals] at hmem
    split at hmem
    · split at hmem <;> simp at hmem
    · rename_i symbol hnext
      split at hmem
      · simp at hmem
      · split at hmem
        · simp at hmem
        · simp only [List.mem_singleton, Grammar.Proposal.goto.injEq] at hmem
          rw [hnext, hmem.1]

/-- A parser that expects a non-terminal: it has a goto for it. -/
def Expects (table : Table) (p : Parser) (name : String) (next : Int) : Prop :=
  (table.row? (topState p.stack)).bind (·.goto? name) = some next

section Discipline

variable {Γ : Type} {D : Discipline Γ} {base γ : Γ}

theorem Climbs.spells {Made : Grammar.Symbol → Γ → Attribute → Γ → Prop}
    {stack : List (Int × Attribute)} (h : Climbs g Made base stack symbols k γ) :
    Spells g stack symbols k := by
  induction h with
  | bottom => exact .bottom
  | push below state edge made ih => exact .push ih state edge trivial

/-- A run that is not over yet still follows the discipline. -/
theorem Discipline.Kept.unfinished (hkept : D.Kept g base) (hg : Proper g) (hfresh : FreshStart g)
    {fuel : Nat} (h : D.Follows g base p γ)
    (hrun : Parser.run g.table fuel p = .unfinished q) :
    ∃ γ', D.Follows g base q γ' := by
  induction fuel generalizing p γ with
  | zero =>
    obtain rfl := Outcome.unfinished.inj hrun
    exact ⟨γ, h⟩
  | succ fuel ih =>
    rcases hkept.step hg hfresh h with ⟨q', γ', hstep, hq⟩ | ⟨hstep, _⟩ | ⟨d, q', hstep, _⟩ <;>
      simp only [Parser.run, hstep] at hrun
    · exact ih hq hrun
    · cases hrun
    · cases hrun

/-- Where a non-terminal is expected it is ready. -/
theorem Discipline.Kept.ready_of_expects (hkept : D.Kept g base) (hg : Proper g)
    (hfresh : FreshStart g) (h : D.Follows g base p γ) {name : String} {next : Int}
    (hexpects : Expects g.table p name next) : D.Ready name γ := by
  obtain ⟨symbols, k, hclimbs⟩ := h.climbs
  obtain ⟨s, hs⟩ := hclimbs.state hg
  rw [Expects, hclimbs.topState, Grammar.row?_table hs, Option.bind_some] at hexpects
  obtain ⟨i, hi, hnext⟩ := next_of_goto hexpects
  obtain ⟨id, production, _, hrule, rfl⟩ :=
    hg.defined (item_rule hg hs hi) (List.mem_of_getElem? hnext)
  obtain ⟨hpredicted, hzero⟩ := predicted_mem hg hfresh hs hi hrule hnext
  obtain ⟨_, _, γ₀, b, hready⟩ := hkept.ready hg hfresh hclimbs hs hpredicted hzero
  obtain ⟨-, rfl⟩ := b.made
  rwa [Grammar.production_of_rule hrule] at hready

end Discipline

/-- A parser that expects a non-terminal is driven over the tokens that it covers. -/
theorem Drives.goesTo (hg : Proper g) (hfresh : FreshStart g)
    (hconflicts : g.table.conflicts = []) {name : String} {tokens : List Token} {e e' : Emitter}
    {a : Attribute} (h : Drives g [.nonterminal name] tokens e [a] e')
    (hstack : Spells g p.stack symbols k) {next : Int} (hexpects : Expects g.table p name next)
    {x : Token} {more : List Token} (hahead : p.cursor.tokens = tokens ++ x :: more)
    (hemitter : p.emitter = e) (hfollow : x.terminal ∈ g.analyze.follow.get name) :
    ∃ q, GoesTo g.table p q ∧ q.stack = (next, a) :: p.stack ∧ q.emitter = e' ∧
      q.cursor.tokens = x :: more := by
  obtain ⟨s, hs⟩ := hstack.state hg
  rw [Expects, hstack.topState, Grammar.row?_table hs, Option.bind_some] at hexpects
  obtain ⟨i, hi, hnext⟩ := next_of_goto hexpects
  obtain ⟨j', rfl, hedge'⟩ := Grammar.goto_cell hexpects
  cases h with
  | @reduce id production _ u v _ e₁ e₂ _ _ inner _ hrule hbody effect hrest =>
    cases hrest
    rw [List.append_nil] at hahead
    obtain ⟨hpredicted, hzero⟩ := predicted_mem hg hfresh hs hi hrule hnext
    have hproduction := Grammar.production_of_rule hrule
    obtain ⟨q, hgoes, hdriven⟩ := hbody.driven hg hfresh hconflicts
      (i := { rule := id, dot := 0 }) hstack hs hpredicted (by simp [hproduction]) hahead hemitter
      (by rwa [hproduction])
    obtain ⟨j, hedge, hreduced⟩ := GoesTo.reduce hg hconflicts hstack hs hzero hdriven
      (by rw [hbody.length_eq, hproduction]) (by rwa [hproduction]) (by rwa [hproduction])
    rw [hproduction] at hedge
    obtain rfl : j = j' := Option.some.inj (hedge.symm.trans hedge')
    exact ⟨_, hgoes.trans hreduced, rfl, rfl, hdriven.tokens⟩

/-- Tokens that drive an emitter as a sentence are accepted before the end of the input. -/
theorem Drives.accepted (hg : Proper g) (hfresh : FreshStart g)
    (hconflicts : g.table.conflicts = []) {tokens : List Token} {e : Emitter} {as : List Attribute}
    (h : Drives g (g.production 0).body tokens {} as e) {last : Token}
    (hlast : last.terminal = Token.Kind.endMarker) :
    ∃ n q, (∀ fuel, n ≤ fuel → run g.table fuel (.start (tokens ++ [last])) = .accepted q) ∧
      q.emitter = e := by
  obtain ⟨s, hs, _⟩ := Grammar.automaton_start hg
  have hahead : (Parser.start (tokens ++ [last])).cursor.tokens = tokens ++ [last] := by
    cases tokens <;> rfl
  obtain ⟨q, ⟨n, hgoes⟩, hdriven⟩ := h.driven hg hfresh hconflicts .bottom hs
    (start_item_mem hg hs) rfl hahead rfl (by rw [hlast]; exact end_mem_follow_start hg)
  obtain ⟨symbols, k, s', hstack, hs', hi⟩ := hdriven.complete
  have hend : q.cursor.lookahead.terminal = Token.Kind.endMarker := by
    rw [(List.cons.inj hdriven.tokens).1, hlast]
  have haccept := step_accept hconflicts hstack hs' hi (next?_complete 0) rfl hend
  refine ⟨n + 1, q, fun fuel hfuel => ?_, hdriven.emitter⟩
  obtain ⟨more, rfl⟩ := Nat.exists_eq_add_of_le hfuel
  rw [Nat.add_assoc, hgoes, Nat.add_comm 1 more]
  simp only [run, haccept]

/-! ### In the middle of a production -/

/-- A parser whose state holds an item. -/
def AtItem (g : Grammar) (i : Item) (p : Parser) : Prop :=
  ∃ symbols k s, Spells g p.stack symbols k ∧ g.automaton.states[k]? = some s ∧ i ∈ s.items

section AtItem

variable {i : Item}

theorem Expects.atItem (hg : Proper g) (hstack : Spells g p.stack symbols k) {name : String}
    {next : Int} (h : Expects g.table p name next) :
    ∃ i, AtItem g i p ∧ g.next? i = some (.nonterminal name) := by
  obtain ⟨s, hs⟩ := hstack.state hg
  rw [Expects, hstack.topState, Grammar.row?_table hs, Option.bind_some] at h
  obtain ⟨i, hi, hnext⟩ := next_of_goto h
  exact ⟨i, ⟨symbols, k, s, hstack, hs, hi⟩, hnext⟩

theorem AtItem.predicted (hg : Proper g) (hfresh : FreshStart g) (h : AtItem g i p) {id : Nat}
    {production : Grammar.Production} (hrule : g.productions[id]? = some production)
    (hnext : g.next? i = some (.nonterminal production.head)) :
    AtItem g { rule := id, dot := 0 } p := by
  obtain ⟨symbols, k, s, hstack, hs, hi⟩ := h
  exact ⟨symbols, k, s, hstack, hs, (predicted_mem hg hfresh hs hi hrule hnext).1⟩

/-- A token that an item asks for is shifted, and the item goes on behind it. -/
theorem AtItem.shift (hg : Proper g) (hconflicts : g.table.conflicts = []) (h : AtItem g i p)
    (hnext : g.next? i = some (.terminal p.cursor.lookahead.terminal)) :
    ∃ j : Int, step g.table p = p.shift j ∧ ∀ cursor a emitter,
      AtItem g { i with dot := i.dot + 1 } { cursor, stack := (j, a) :: p.stack, emitter } := by
  obtain ⟨symbols, k, s, hstack, hs, hi⟩ := h
  obtain ⟨j, hedge⟩ := Grammar.edge_of_next hg hs hi hnext
  obtain ⟨u, hu, _⟩ := Grammar.edge_target hg hs hedge
  exact ⟨j, step_shift hconflicts hstack hs hi hnext hedge, fun _ _ _ =>
    ⟨_, j, u, .push hstack hs hedge trivial, hu, Grammar.advanced_mem hg hs hedge hu hi hnext⟩⟩

/-- The same for a token whose effect does not fail and that is not the last one. -/
theorem AtItem.token (hg : Proper g) (hconflicts : g.table.conflicts = []) (h : AtItem g i p)
    {t : Token} {more : List Token} (hahead : p.cursor.tokens = t :: more) (hmore : more ≠ [])
    {kind : Token.Kind} (hkind : t.kind = kind)
    (hnext : g.next? i = some (.terminal kind.terminal)) {e : Emitter}
    (heffect : (shiftEffect kind).run p.emitter = .ok () e) :
    ∃ q, GoesTo g.table p q ∧ AtItem g { i with dot := i.dot + 1 } q ∧ q.emitter = e ∧
      q.cursor.tokens = more := by
  subst hkind
  obtain rfl : p.cursor.lookahead = t := (List.cons.inj hahead).1
  obtain ⟨u, us, rfl⟩ := List.exists_cons_of_ne_nil hmore
  obtain ⟨j, hstep, hitem⟩ := h.shift hg hconflicts hnext
  refine ⟨_, .of_step (hstep.trans ?_),
    hitem p.cursor.advance (.ofText p.cursor.lookahead.text) e, rfl, Cursor.tokens_advance hahead⟩
  simp only [Parser.shift, heffect]

/-- A phrase that an item asks for is passed, and the item goes on behind it. -/
theorem AtItem.phrase (hg : Proper g) (hfresh : FreshStart g) (hconflicts : g.table.conflicts = [])
    (h : AtItem g i p) {name : String} (hnext : g.next? i = some (.nonterminal name))
    {tokens more : List Token} {x : Token} {e : Emitter} {a : Attribute}
    (hdrives : Drives g [.nonterminal name] tokens p.emitter [a] e)
    (hahead : p.cursor.tokens = tokens ++ x :: more)
    (hfollow : x.terminal ∈ g.analyze.follow.get name) :
    ∃ q, GoesTo g.table p q ∧ AtItem g { i with dot := i.dot + 1 } q ∧ q.emitter = e ∧
      q.cursor.tokens = x :: more := by
  obtain ⟨symbols, k, s, hstack, hs, hi⟩ := h
  obtain ⟨j, hedge⟩ := Grammar.edge_of_next hg hs hi hnext
  obtain ⟨u, hu, _⟩ := Grammar.edge_target hg hs hedge
  have hexpects : Expects g.table p name j := by
    rw [Expects, hstack.topState, Grammar.row?_table hs, Option.bind_some]
    exact Grammar.goto_of_next hi hnext hedge
  obtain ⟨q, hgoes, hq, hemitter, htokens⟩ :=
    hdrives.goesTo hg hfresh hconflicts hstack hexpects hahead rfl hfollow
  have hspells : Spells g q.stack (.nonterminal name :: symbols) j := by
    rw [hq]
    exact .push hstack hs hedge trivial
  exact ⟨q, hgoes, ⟨_, j, u, hspells, hu, Grammar.advanced_mem hg hs hedge hu hi hnext⟩, hemitter,
    htokens⟩

end AtItem

end DuckLang.Parser
