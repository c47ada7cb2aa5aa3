import DuckLang.Proofs.Grammar.Derivation
import DuckLang.Proofs.Parser.Path

/-! Soundness.  At every moment of a run the symbols that the stack spells derive, from the right,
the terminals of the tokens shifted so far, by the rules reduced by so far in reverse order.  A
parser that accepts has the start alone on its stack, so what it shifted is a sentence. -/

namespace DuckLang.Parser

open Grammar (Proper FreshStart Item State Rightmost word)
open Table (Action)

variable {g : Grammar} {stack : List (Int × Attribute)} {symbols : List Grammar.Symbol} {k : Nat}
  {s : State}

/-! ### What a run does -/

/-- The actions of a run of at most `fuel` of them, in order, each with the token looked at. -/
def actions (table : Table) : Nat → Parser → List (Action × Token)
  | 0, _ => []
  | fuel + 1, p =>
    match action? table p with
    | none => []
    | some action =>
      (action, p.cursor.lookahead) ::
        match step table p with
        | .next q => actions table fuel q
        | _ => []

/-- The tokens shifted by actions. -/
def shifted (done : List (Action × Token)) : List Token :=
  done.filterMap fun
    | (.shift _, t) => some t
    | _ => none

/-- The rules reduced by in actions. -/
def reductions (done : List (Action × Token)) : List Int :=
  done.filterMap fun
    | (.reduce rule, _) => some rule
    | _ => none

@[simp] theorem shifted_nil : shifted [] = [] := rfl

@[simp] theorem reductions_nil : reductions [] = [] := rfl

@[simp] theorem shifted_shift (state : Int) (t : Token) (done : List (Action × Token)) :
    shifted ((.shift state, t) :: done) = t :: shifted done := rfl

@[simp] theorem shifted_reduce (rule : Int) (t : Token) (done : List (Action × Token)) :
    shifted ((.reduce rule, t) :: done) = shifted done := rfl

@[simp] theorem shifted_accept (t : Token) (done : List (Action × Token)) :
    shifted ((.accept, t) :: done) = shifted done := rfl

@[simp] theorem reductions_shift (state : Int) (t : Token) (done : List (Action × Token)) :
    reductions ((.shift state, t) :: done) = reductions done := rfl

@[simp] theorem reductions_reduce (rule : Int) (t : Token) (done : List (Action × Token)) :
    reductions ((.reduce rule, t) :: done) = rule :: reductions done := rfl

@[simp] theorem reductions_accept (t : Token) (done : List (Action × Token)) :
    reductions ((.accept, t) :: done) = reductions done := rfl

/-- Whether a run accepts. -/
def Outcome.isAccepted : Outcome → Bool
  | accepted _ => true
  | _ => false

theorem Outcome.accepted_of_isAccepted {o : Outcome} (h : o.isAccepted = true) :
    ∃ p, o = .accepted p := by
  cases o with
  | accepted p => exact ⟨p, rfl⟩
  | failed d p => cases h
  | unfinished p => cases h

/-- Whether a token stands before the end of the input. -/
def isInner (t : Token) : Bool :=
  t.terminal ≠ Token.Kind.endMarker

/-- The tokens from a place up to the end of the input. -/
def Cursor.ahead (c : Cursor) : List Token :=
  (c.lookahead :: c.rest).takeWhile isInner

theorem terminal_endOfInput :
    Token.Kind.endOfInput.terminal = Token.Kind.endMarker := by decide

theorem Cursor.ahead_start (tokens : List Token) :
    (Cursor.start tokens).ahead = tokens.takeWhile isInner := by
  cases tokens <;> rfl

theorem Cursor.ahead_of_inner {c : Cursor} (h : c.lookahead.terminal ≠ Token.Kind.endMarker) :
    c.ahead = c.lookahead :: c.advance.ahead := by
  obtain ⟨previous, lookahead, rest⟩ := c
  have hinner : isInner lookahead = true := by simpa [isInner] using h
  cases rest with
  | nil =>
    have hend : isInner (.endOfInput lookahead.line) = false := by
      simp [isInner, Token.terminal, Token.endOfInput, terminal_endOfInput]
    simp [Cursor.ahead, Cursor.advance, hinner, hend]
  | cons t ts => simp [Cursor.ahead, Cursor.advance, List.takeWhile_cons, hinner]

theorem Cursor.ahead_of_end {c : Cursor} (h : c.lookahead.terminal = Token.Kind.endMarker) :
    c.ahead = [] := by
  simp [Cursor.ahead, isInner, h]

/-! ### The invariant -/

/-- The state that has the start item completed stands on the start symbol alone. -/
theorem Climbs.accepting (hg : Proper g) (hfresh : FreshStart g) (h : Spells g stack symbols k)
    (hs : g.automaton.states[k]? = some s) {i : Item} (hi : i ∈ s.items) (hrule : i.rule = 0)
    (hnext : g.next? i = none) : symbols = (g.production 0).body.reverse := by
  obtain ⟨k', s', _, b⟩ := h.beneath hg hs hi
  have hdot := dot_of_complete hg hs hi hnext
  have hitem := b.item
  rw [hrule] at hitem hdot
  have hbottom : symbols.drop i.dot = [] := by
    have hlength := b.climbs.length_eq
    rw [b.climbs.bottom_of_start hg hfresh b.state hitem] at hlength
    exact List.length_eq_zero_iff.mp hlength
  have hbody := b.body
  rw [hdot, hrule, List.take_length] at hbody
  rw [← List.take_append_drop i.dot symbols, hbottom, List.append_nil, hdot, hbody]

/-- The rest of a run that accepts: the symbols on the stack derive the word shifted so far by
the rules reduced by so far, read backwards, and so does the augmented start in the end. -/
theorem run_rightmost (hg : Proper g) (hfresh : FreshStart g) (fuel : Nat) {p q : Parser}
    {rules : List Nat} {names : List String} (h : Spells g p.stack symbols k)
    (hderived : Rightmost g rules symbols.reverse (word names))
    (hrun : run g.table fuel p = .accepted q) :
    q.cursor.lookahead.terminal = Token.Kind.endMarker ∧
      shifted (actions g.table fuel p) = p.cursor.ahead ∧
      ∃ later : List Nat, reductions (actions g.table fuel p) = later.map (↑) ∧
        Rightmost g (0 :: (later.reverse ++ rules)) [.nonterminal g.start]
          (word (names ++ (shifted (actions g.table fuel p)).map (·.terminal))) := by
  induction fuel generalizing p symbols k rules names with
  | zero => simp [run] at hrun
  | succ fuel ih =>
    obtain ⟨s, hs⟩ := h.state hg
    rcases step_cases h hs with ⟨_, hstep⟩ | ⟨j, haction, hstep, hedge, i, hi, hnext⟩ |
      ⟨i, hi, haction, hstep, hrule, hnext⟩ | ⟨haction, hstep, hend, i, hi, hrule, hnext⟩
    · simp [run, hstep] at hrun
    · -- a shift puts the terminal behind both ends of the derivation
      have hinner := (hg.visible (item_rule hg hs hi) (List.mem_of_getElem? hnext)).1
      simp only [run, hstep, Parser.shift] at hrun
      simp only [actions, haction, hstep, Parser.shift, shifted_shift, reductions_shift,
        Cursor.ahead_of_inner hinner]
      cases heffect : (shiftEffect p.cursor.lookahead.kind).run p.emitter with
      | error cause e => simp [heffect] at hrun
      | ok _ e =>
        simp only [heffect] at hrun ⊢
        have hderived : Rightmost g rules
            (.terminal p.cursor.lookahead.terminal :: symbols).reverse
            (word (names ++ [p.cursor.lookahead.terminal])) := by
          simpa using hderived.append_terminal p.cursor.lookahead.terminal
        obtain ⟨hend, hahead, later, hlater, hrest⟩ := ih (.push h hs hedge trivial) hderived hrun
        exact ⟨hend, by rw [hahead], later, hlater, by simpa using hrest⟩
    · -- a reduction undoes the production it is by
      obtain ⟨k', s', _, b⟩ := h.beneath hg hs hi
      obtain ⟨j, hedge, heffect⟩ := reduce_eq hg hs hi hrule hnext b
      obtain ⟨hok, herror⟩ := heffect _ rfl
      simp only [run, hstep] at hrun
      simp only [actions, haction, hstep, shifted_reduce, reductions_reduce]
      cases hcase : (reduceEffect (g.production i.rule).head
          (popped p.stack (g.production i.rule))).run p.emitter with
      | error cause e =>
        obtain ⟨_, hfailed⟩ := herror cause e hcase
        simp [hfailed] at hrun
      | ok head e =>
        obtain ⟨hsymbols, hclimbs⟩ := b.whole hg hs hi hnext
        simp only [hok head e hcase] at hrun ⊢
        have hderived : Rightmost g (i.rule :: rules)
            (.nonterminal (g.production i.rule).head ::
              symbols.drop (g.production i.rule).body.length).reverse (word names) := by
          rw [hsymbols] at hderived
          simpa using Rightmost.step (symbols.drop (g.production i.rule).body.length).reverse []
            (item_rule hg hs hi) (by simpa using hderived)
        obtain ⟨hend, hahead, later, hlater, hrest⟩ :=
          ih (.push hclimbs b.state hedge trivial) hderived hrun
        refine ⟨hend, hahead, i.rule :: later, by rw [hlater, List.map_cons], ?_⟩
        simpa using hrest
    · have hsymbols := h.accepting hg hfresh hs hi hrule hnext
      obtain ⟨_, haug⟩ := hg.augmented
      simp only [actions, haction, hstep, shifted_accept, shifted_nil, reductions_accept,
        reductions_nil, Cursor.ahead_of_end hend]
      rw [hsymbols, List.reverse_reverse] at hderived
      simp only [run, hstep, Outcome.accepted.injEq] at hrun
      subst hrun
      refine ⟨hend, trivial, [], rfl, ?_⟩
      rw [Grammar.production_of_rule haug] at hderived
      simpa using Rightmost.step [] [] haug (by simpa using hderived)

/-- What a run accepts is a sentence. -/
theorem sentence_of_accepted (hg : Proper g) (hfresh : FreshStart g) {tokens : List Token}
    {fuel : Nat} {p : Parser} (hrun : run g.table fuel (.start tokens) = .accepted p) :
    g.IsSentence ((tokens.takeWhile isInner).map (·.terminal)) := by
  obtain ⟨_, hshifted, rules, _, hderived⟩ :=
    run_rightmost hg hfresh fuel .bottom (.refl (word [])) hrun
  rw [hshifted, List.nil_append] at hderived
  have hahead : (Parser.start tokens).cursor.ahead = tokens.takeWhile isInner :=
    Cursor.ahead_start tokens
  rw [hahead] at hderived
  exact hderived.derives

/-- A run that accepts has shifted the tokens before the end of the input; they are a sentence, and
the rules it reduced by, read backwards behind production 0, are a rightmost derivation of it. -/
theorem accepted_sentence {text : String} {g : Grammar} {strict : Bool} {table : Table}
    {tokens : List Token} {fuel : Nat} {p : Parser} (hread : Grammar.read text = .ok g)
    (hfresh : FreshStart g) (htable : g.buildTable strict = .ok table)
    (hrun : run table fuel (.start tokens) = .accepted p) :
    p.cursor.lookahead.terminal = Token.Kind.endMarker ∧
    shifted (actions table fuel (.start tokens)) = tokens.takeWhile isInner ∧
    g.IsSentence ((tokens.takeWhile isInner).map (·.terminal)) ∧
    ∃ rules : List Nat, reductions (actions table fuel (.start tokens)) = rules.map (↑) ∧
      Rightmost g (0 :: rules.reverse) [.nonterminal g.start]
        (word ((tokens.takeWhile isInner).map (·.terminal))) := by
  obtain rfl := Grammar.buildTable_eq htable
  have hg := Grammar.read_proper hread
  obtain ⟨hend, hshifted, rules, hrules, hderived⟩ :=
    run_rightmost hg hfresh fuel .bottom (.refl (word [])) hrun
  have hahead : (Parser.start tokens).cursor.ahead = tokens.takeWhile isInner :=
    Cursor.ahead_start tokens
  rw [hshifted, hahead] at hderived
  rw [List.nil_append, List.append_nil] at hderived
  exact ⟨hend, hshifted.trans hahead, hderived.derives, rules, hrules, hderived⟩

/-- Lists of names with commas between them. -/
def nameLists : Grammar :=
  .ofProductions
    { head := "List", body := [.nonterminal "List", .terminal ",", .terminal "id"] }
    [{ head := "List", body := [.terminal "id"] }]

/-- Two names with a comma between them. -/
def twoNames : List Token :=
  [{ kind := .identifier, text := "a", line := 1 }, { kind := .comma, text := ",", line := 1 },
   { kind := .identifier, text := "b", line := 1 }]

theorem nameLists_read :
    Grammar.read "<List> → <List> , id\n<List> → id" = .ok nameLists := by
  rfl

theorem nameLists_fresh : FreshStart nameLists := by decide

theorem accepted_sentence_twoNames :
    nameLists.IsSentence ["id", ",", "id"] ∧
      Rightmost nameLists [0, 1, 2] [.nonterminal "ListPrime"] (word ["id", ",", "id"]) := by
  obtain ⟨p, hrun⟩ : ∃ p, run nameLists.table 9 (.start twoNames) = .accepted p :=
    Outcome.accepted_of_isAccepted (by decide +kernel)
  have htable : nameLists.buildTable true = .ok nameLists.table := by
    rw [Grammar.buildTable_strict]
    exact ⟨by decide +kernel, rfl⟩
  obtain ⟨_, _, hsentence, rules, hrules, hderived⟩ :=
    accepted_sentence nameLists_read nameLists_fresh htable hrun
  have hdone : reductions (actions nameLists.table 9 (.start twoNames)) = [2, 1] := by
    decide +kernel
  obtain rfl : rules = [2, 1] := by
    rw [hdone] at hrules
    exact List.map_injective_iff.mpr (fun _ _ => Int.ofNat.inj) hrules.symm
  exact ⟨hsentence, hderived⟩

end DuckLang.Parser
