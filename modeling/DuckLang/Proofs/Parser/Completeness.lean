import DuckLang.Proofs.Emitter.Causes
import DuckLang.Proofs.Grammar.Derivation
import DuckLang.Proofs.Grammar.FirstFollow
import DuckLang.Proofs.Parser.Soundness

/-! Completeness.  Without conflicts the table does what any item of the state on top asks for.
An item whose rest covers the tokens ahead therefore leads the parser over all of them, production
by production, to the state where that item is complete; nothing but an effect can stop it. -/

namespace DuckLang.Parser

open Grammar (Proper FreshStart Item State Yields)

variable {g : Grammar} {symbols : List Grammar.Symbol} {k : Nat} {s : State}

/-! ### Runs that an effect may stop -/

/-- The causes that the effect of a shift or of a reduction fails with. -/
inductive Raised (cause : Cause) : Prop
  | shift {kind : Token.Kind} {e e' : Emitter}
      (failed : (shiftEffect kind).run e = .error cause e') : Raised cause
  | reduce {head : String} {attributes : List Attribute} {e e' : Emitter}
      (failed : (reduceEffect head attributes).run e = .error cause e') : Raised cause

theorem Raised.isOfParser {cause : Cause} (h : Raised cause) : cause.isOfParser = false := by
  cases h with
  | shift failed => exact (quiet_shiftEffect _ _).error failed
  | reduce failed => exact (quiet_reduceEffect _ _ _).error failed

/-- From a parser, actions lead to one with `Q` unless an effect fails on the way. -/
inductive Leads (table : Table) (Q : Parser → Prop) : Parser → Prop
  | here {p : Parser} (reached : Q p) : Leads table Q p
  | next {p q : Parser} (made : step table p = .next q) (rest : Leads table Q q) : Leads table Q p
  | stopped {p q : Parser} {d : Diagnostic} (made : step table p = .failed d q)
      (raised : Raised d.cause) : Leads table Q p

variable {table : Table} {p q : Parser} {Q R : Parser → Prop}

theorem Leads.trans (h : Leads table Q p) (hrest : ∀ q, Q q → Leads table R q) :
    Leads table R p := by
  induction h with
  | here reached => exact hrest _ reached
  | next made _ ih => exact .next made ih
  | stopped made raised => exact .stopped made raised

/-- A parser that is led to where it accepts ends its run, by accepting or by a failed effect. -/
theorem Leads.run (h : Leads table (fun q => step table q = .accepted q) p) :
    ∃ n o, (∀ fuel, n ≤ fuel → run table fuel p = o) ∧
      ((∃ q, o = .accepted q) ∨ ∃ d q, o = .failed d q ∧ Raised d.cause) := by
  induction h with
  | @here p reached =>
    refine ⟨1, .accepted p, ?_, .inl ⟨p, rfl⟩⟩
    rintro (_ | fuel) hfuel
    · omega
    · simp only [Parser.run, reached]
  | next made _ ih =>
    obtain ⟨n, o, hrun, hend⟩ := ih
    refine ⟨n + 1, o, ?_, hend⟩
    rintro (_ | fuel) hfuel
    · omega
    · simp only [Parser.run, made]
      exact hrun fuel (by omega)
  | @stopped p q d made raised =>
    refine ⟨1, .failed d q, ?_, .inr ⟨d, q, rfl, raised⟩⟩
    rintro (_ | fuel) hfuel
    · omega
    · simp only [Parser.run, made]

/-! ### What an item asks for -/

/-- The terminals of the tokens from a place on. -/
def Cursor.terminals (c : Cursor) : List String :=
  (c.lookahead :: c.rest).map (·.terminal)

theorem Cursor.lookahead_of_terminals {c : Cursor} {name : String} {names : List String}
    (h : c.terminals = name :: names) : c.lookahead.terminal = name :=
  (List.cons.inj h).1

theorem Cursor.terminals_advance {c : Cursor} {name : String} {names : List String}
    (h : c.terminals = name :: names) (hne : names ≠ []) : c.advance.terminals = names := by
  obtain ⟨previous, lookahead, rest⟩ := c
  obtain ⟨_, hrest⟩ := List.cons.inj h
  cases rest with
  | nil => exact absurd hrest.symm hne
  | cons t ts => exact hrest

theorem step_shift (hconflicts : g.table.conflicts = []) {i : Item} {j : Nat}
    (h : Spells g p.stack symbols k) (hs : g.automaton.states[k]? = some s) (hi : i ∈ s.items)
    (hnext : g.next? i = some (.terminal p.cursor.lookahead.terminal))
    (hedge : s.edges.lookup (.terminal p.cursor.lookahead.terminal) = some j) :
    step g.table p = p.shift j := by
  simp only [step, h.topState, Grammar.row?_table hs,
    Grammar.shift_of_next hconflicts hs hi hnext hedge]

theorem step_reduce (hconflicts : g.table.conflicts = []) {i : Item}
    (h : Spells g p.stack symbols k) (hs : g.automaton.states[k]? = some s) (hi : i ∈ s.items)
    (hnext : g.next? i = none) (hrule : i.rule ≠ 0)
    (hfollow : p.cursor.lookahead.terminal ∈ g.analyze.follow.get (g.production i.rule).head) :
    step g.table p = reduce g.table p i.rule := by
  simp only [step, h.topState, Grammar.row?_table hs,
    Grammar.reduce_of_complete hconflicts hs hi hnext hrule hfollow]

theorem step_accept (hconflicts : g.table.conflicts = []) {i : Item}
    (h : Spells g p.stack symbols k) (hs : g.automaton.states[k]? = some s) (hi : i ∈ s.items)
    (hnext : g.next? i = none) (hrule : i.rule = 0)
    (hend : p.cursor.lookahead.terminal = Token.Kind.endMarker) :
    step g.table p = .accepted p := by
  simp only [step, h.topState, Grammar.row?_table hs, hend,
    Grammar.accept_of_complete hconflicts hs hi hnext hrule]

/-- A shift leads on unless its effect fails. -/
theorem Leads.shift {j : Int} (hstep : step table p = p.shift j)
    (hrest : ∀ emitter, Leads table Q
      { cursor := p.cursor.advance, stack := (j, .ofText p.cursor.lookahead.text) :: p.stack,
        emitter }) :
    Leads table Q p := by
  cases heffect : (shiftEffect p.cursor.lookahead.kind).run p.emitter with
  | ok _ e =>
    refine .next ?_ (hrest e)
    simp only [hstep, Parser.shift, heffect]
  | error cause e =>
    obtain ⟨d, q, hfailed, rfl⟩ : ∃ d q, step table p = .failed d q ∧ d.cause = cause := by
      simp only [hstep, Parser.shift, heffect]
      exact ⟨_, _, rfl, rfl⟩
    exact .stopped hfailed (.shift heffect)

/-- Where an item leads over the rest of its body: the item is complete, the symbols of that rest,
`size` of them, lie on the old stack, and the tokens with the given terminals are ahead. -/
def Passed (g : Grammar) (stack : List (Int × Attribute)) (rule size : Nat)
    (ahead : List String) (q : Parser) : Prop :=
  ∃ symbols k s, Spells g q.stack symbols k ∧ g.automaton.states[k]? = some s ∧
    { rule, dot := (g.production rule).body.length } ∈ s.items ∧
    q.stack.drop size = stack ∧ q.cursor.terminals = ahead

theorem Passed.below {top : Int × Attribute} {stack : List (Int × Attribute)} {rule size : Nat}
    {ahead : List String} (h : Passed g (top :: stack) rule size ahead q) :
    Passed g stack rule (size + 1) ahead q := by
  obtain ⟨symbols, k, s, hq, hs, hi, hdrop, hahead⟩ := h
  refine ⟨symbols, k, s, hq, hs, hi, ?_, hahead⟩
  rw [← List.drop_drop, hdrop]
  rfl

/-- What follows a non-terminal behind the dot of an item: the word that the rest covers, and behind
it what follows the head. -/
theorem mem_follow_behind (hg : Proper g) (hs : g.automaton.states[k]? = some s) {i : Item}
    (hi : i ∈ s.items) {name x : String} {rest : List Grammar.Symbol}
    (hrest : (g.production i.rule).body.drop i.dot = .nonterminal name :: rest)
    {names : List String} (hnames : Yields g rest names)
    (hfollow : x ∈ g.analyze.follow.get (g.production i.rule).head) :
    names.headD x ∈ g.analyze.follow.get name := by
  have hbody : (g.production i.rule).body =
      (g.production i.rule).body.take i.dot ++ .nonterminal name :: rest := by
    rw [← hrest, List.take_append_drop]
  exact Grammar.mem_follow_of_yields hg (item_rule hg hs hi) hbody hnames hfollow

/-- A completed item of a production leads on to its head. -/
theorem Leads.reduce (hg : Proper g) (hconflicts : g.table.conflicts = [])
    (h : Spells g p.stack symbols k) (hs : g.automaton.states[k]? = some s) {i : Item}
    (hi : i ∈ s.items) (hnext : g.next? i = none) (hrule : i.rule ≠ 0)
    (hfollow : p.cursor.lookahead.terminal ∈ g.analyze.follow.get (g.production i.rule).head)
    (hrest : ∀ (symbols : List Grammar.Symbol) (k j : Nat) (s : State) head emitter,
      Spells g (p.stack.drop (g.production i.rule).body.length) symbols k →
      g.automaton.states[k]? = some s →
      s.edges.lookup (.nonterminal (g.production i.rule).head) = some j →
      Leads g.table Q (p.reduced (g.production i.rule) j head emitter)) :
    Leads g.table Q p := by
  have hstep := step_reduce hconflicts h hs hi hnext hrule hfollow
  obtain ⟨k', s', _, b⟩ := h.beneath hg hs hi
  obtain ⟨j, hedge, heffect⟩ := reduce_eq hg hs hi hrule hnext b
  obtain ⟨hok, herror⟩ := heffect _ rfl
  obtain ⟨_, hclimbs⟩ := b.whole hg hs hi hnext
  cases hcase : (reduceEffect (g.production i.rule).head
      (popped p.stack (g.production i.rule))).run p.emitter with
  | ok head e =>
    exact .next (hstep.trans (hok head e hcase)) (hrest _ k' j s' head e hclimbs b.state hedge)
  | error cause e =>
    obtain ⟨q, hfailed⟩ := herror cause e hcase
    exact .stopped (hstep.trans hfailed) (.reduce hcase)

/-- An item whose rest covers the tokens ahead, up to one that may follow its head, leads over
them. -/
theorem Leads.passed (hg : Proper g) (hfresh : FreshStart g) (hconflicts : g.table.conflicts = [])
    {rest : List Grammar.Symbol} {names : List String} (hyields : Yields g rest names)
    {i : Item} {x : String} {more : List String} (h : Spells g p.stack symbols k)
    (hs : g.automaton.states[k]? = some s) (hi : i ∈ s.items)
    (hrest : (g.production i.rule).body.drop i.dot = rest)
    (hahead : p.cursor.terminals = names ++ x :: more)
    (hfollow : x ∈ g.analyze.follow.get (g.production i.rule).head) :
    Leads g.table (Passed g p.stack i.rule rest.length (x :: more)) p := by
  -- by induction on how the rest covers the tokens, for every parser and item at once
  induction hyields generalizing p symbols k s i x more with
  | nil =>
    exact .here ⟨symbols, k, s, h, hs, complete_of_drop hg hs hi hrest, rfl, hahead⟩
  | @terminal name rest names _ ih =>
    obtain ⟨hnext, hdrop⟩ := next_of_drop hrest
    obtain rfl : p.cursor.lookahead.terminal = name := Cursor.lookahead_of_terminals hahead
    obtain ⟨j, hedge⟩ := Grammar.edge_of_next hg hs hi hnext
    obtain ⟨t, ht, _⟩ := Grammar.edge_target hg hs hedge
    refine .shift (step_shift hconflicts h hs hi hnext hedge) ?_
    intro emitter
    have hitem := Grammar.advanced_mem hg hs hedge ht hi hnext
    have hahead' := Cursor.terminals_advance hahead (by simp)
    refine (ih (.push h hs hedge trivial) ht hitem hdrop hahead' hfollow).trans ?_
    intro q hq
    exact .here hq.below
  | @rule id production rest u v hrule _ hrestYields ihBody ihRest =>
    obtain ⟨hnext, hdrop⟩ := next_of_drop hrest
    -- the items of the production are predicted, and what comes behind it follows its head
    obtain ⟨hpredicted, hzero⟩ :=
      predicted_item hg hfresh hs hi hnext (rule_mem_idsOf hg hfresh hs hi hrule hnext)
    have hproduction := Grammar.production_of_rule hrule
    have hyfollow := mem_follow_behind hg hs hi hrest hrestYields hfollow
    obtain ⟨later, hlater⟩ : ∃ later, v ++ x :: more = v.headD x :: later := by
      cases v <;> simp
    rw [List.append_assoc, hlater] at hahead
    refine (ihBody h hs hpredicted (by simp [hproduction]) hahead
      (by simpa [hproduction] using hyfollow)).trans ?_
    rintro q ⟨symbols', k', s', hq, hs', hi', hstack, hahead'⟩
    refine .reduce hg hconflicts hq hs' hi' (next?_complete id) hzero ?_ ?_
    · rw [Cursor.lookahead_of_terminals hahead', hproduction]
      exact hyfollow
    intro symbols₀ k₀ j s₀ head emitter h₀ hs₀ hedge
    -- the reduction uncovers the old stack
    simp only [hproduction] at hedge h₀ ⊢
    rw [hstack] at h₀
    obtain rfl : k₀ = k := Int.ofNat.inj (h₀.topState.symm.trans h.topState)
    obtain rfl : s₀ = s := Option.some.inj (hs₀.symm.trans hs)
    obtain ⟨t, ht, _⟩ := Grammar.edge_target hg hs hedge
    have hitem := Grammar.advanced_mem hg hs hedge ht hi hnext
    have hover : Spells g (q.reduced production j head emitter).stack
        (.nonterminal production.head :: symbols) j := by
      simp only [reduced, hstack]
      exact .push h hs hedge trivial
    refine (ihRest hover ht hitem hdrop (hahead'.trans hlater.symm) hfollow).trans ?_
    intro q' hq'
    simp only [reduced, hstack] at hq'
    exact .here hq'.below

theorem start_item_mem (hg : Proper g) (hs : g.automaton.states[0]? = some s) :
    { rule := 0, dot := 0 } ∈ s.items := by
  obtain ⟨s', hs', hitems⟩ := Grammar.automaton_start hg
  obtain rfl : s' = s := Option.some.inj (hs'.symm.trans hs)
  rw [hitems, Grammar.startItems, Grammar.mem_close hg]
  exact .kernel (by simp)

theorem end_mem_follow_start (hg : Proper g) :
    Token.Kind.endMarker ∈ g.analyze.follow.get (g.production 0).head := by
  rw [head_zero hg]
  exact Grammar.end_mem_follow hg

theorem yields_of_sentence (hfresh : FreshStart g) {names : List String}
    (h : g.IsSentence names) : Yields g (g.production 0).body names := by
  obtain ⟨id, production, hrule, hhead, hbody⟩ := (Grammar.Derives.yields h).of_nonterminal
  obtain rfl := hfresh id production hrule hhead
  rwa [Grammar.production_of_rule hrule]

/-- A parser at the start of a sentence and the end of the input is led to where it accepts. -/
theorem Leads.sentence (hg : Proper g) (hfresh : FreshStart g)
    (hconflicts : g.table.conflicts = []) {tokens : List Token} {last : Token}
    (hsentence : g.IsSentence (tokens.map (·.terminal)))
    (hlast : last.terminal = Token.Kind.endMarker) :
    Leads g.table (fun q => step g.table q = .accepted q) (.start (tokens ++ [last])) := by
  obtain ⟨s, hs, _⟩ := Grammar.automaton_start hg
  have hahead : (Parser.start (tokens ++ [last])).cursor.terminals =
      tokens.map (·.terminal) ++ [Token.Kind.endMarker] := by
    cases tokens <;> simp [Parser.start, Cursor.start, Cursor.terminals, hlast]
  refine (Leads.passed hg hfresh hconflicts (yields_of_sentence hfresh hsentence) .bottom hs
    (start_item_mem hg hs) rfl hahead (end_mem_follow_start hg)).trans ?_
  rintro q ⟨symbols, k, s', hq, hs', hi', -, hahead'⟩
  exact .here (step_accept hconflicts hq hs' hi' (next?_complete 0) rfl
    (Cursor.lookahead_of_terminals hahead'))

/-- A strict table is one without conflicts, and with such a table the run over a sentence and the
end of the input ends: it accepts, or an effect fails with a cause that is not the parser's own. -/
theorem sentence_completes {text : String} {g : Grammar} {table : Table}
    (hread : Grammar.read text = .ok g) (hfresh : FreshStart g) :
    (g.buildTable true = .ok table ↔ g.buildTable false = .ok table ∧ table.conflicts = []) ∧
    (g.buildTable false = .ok table → table.conflicts = [] →
      ∀ (tokens : List Token) (last : Token), last.kind = .endOfInput →
        g.IsSentence (tokens.map (·.terminal)) →
        ∃ n o, (∀ fuel, n ≤ fuel → run table fuel (.start (tokens ++ [last])) = o) ∧
          ((∃ p, o = .accepted p) ∨
            ∃ d p, o = .failed d p ∧ Raised d.cause ∧ d.cause.isOfParser = false)) := by
  have hg := Grammar.read_proper hread
  constructor
  · rw [Grammar.buildTable_strict]
    constructor
    · rintro ⟨hconflicts, rfl⟩
      exact ⟨rfl, hconflicts⟩
    · rintro ⟨htable, hconflicts⟩
      obtain rfl := Grammar.buildTable_eq htable
      exact ⟨hconflicts, rfl⟩
  · intro htable hconflicts tokens last hlast hsentence
    obtain rfl := Grammar.buildTable_eq htable
    have hend : last.terminal = Token.Kind.endMarker := by
      rw [Token.terminal, hlast, terminal_endOfInput]
    obtain ⟨n, o, hrun, hended⟩ := (Leads.sentence hg hfresh hconflicts hsentence hend).run
    refine ⟨n, o, hrun, ?_⟩
    rcases hended with haccepted | ⟨d, p, hfailed, hraised⟩
    · exact .inl haccepted
    · exact .inr ⟨d, p, hfailed, hraised, hraised.isOfParser⟩

theorem sentence_completes_twoNames :
    ∃ n o, (∀ fuel, n ≤ fuel →
        run nameLists.table fuel (.start (twoNames ++ [.endOfInput 1])) = o) ∧
      ((∃ p, o = .accepted p) ∨
        ∃ d p, o = .failed d p ∧ Raised d.cause ∧ d.cause.isOfParser = false) := by
  have hsentence : nameLists.IsSentence (twoNames.map (·.terminal)) := by
    have hstart : nameLists.productions[0]? =
        some { head := "ListPrime", body := [.nonterminal "List"] } := rfl
    have hmore : nameLists.productions[1]? =
        some { head := "List", body := [.nonterminal "List", .terminal ",", .terminal "id"] } := rfl
    have hone : nameLists.productions[2]? = some { head := "List", body := [.terminal "id"] } := rfl
    exact .head (.apply [] [] hstart) (.head (.apply [] [] hmore)
      (.single (.apply [] [.terminal ",", .terminal "id"] hone)))
  exact (sentence_completes nameLists_read nameLists_fresh).2 rfl (by decide +kernel) twoNames
    (.endOfInput 1) rfl hsentence

end DuckLang.Parser
