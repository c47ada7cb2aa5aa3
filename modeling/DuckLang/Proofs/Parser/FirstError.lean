import DuckLang.Proofs.Parser.Viable

/-! Where a syntax error is found.  At every moment of a run the symbols on the stack derive what
was read, so that with an ending of the stack it is the front of a sentence; and what the machine
accepts from the start, behind what was read, it accepts from there.  A token without an action
therefore stands behind the front of a sentence, but no sentence goes on with it. -/

namespace DuckLang.Parser

open Grammar (Proper FreshStart State word)
open Token.Kind (endMarker)

variable {g : Grammar} {symbols next : List Grammar.Symbol} {k : Nat} {x : String}
  {names : List String}

/-! ### Steps of the machine -/

theorem Accepts.cell (h : Accepts g symbols (x :: names)) :
    ∃ action, cell? g symbols x = some action := by
  cases h with
  | accept cell => exact ⟨_, cell⟩
  | shift cell _ => exact ⟨_, cell⟩
  | reduce fold _ =>
    obtain ⟨_, cell⟩ := fold.cell
    exact ⟨_, cell⟩

/-- After a shift the machine goes on with the terminals behind it. -/
theorem Accepts.of_shift {j : Int} (hcell : cell? g symbols x = some (.shift j))
    (h : Accepts g symbols (x :: names)) : Accepts g (.terminal x :: symbols) names := by
  cases h with
  | accept cell => simp [hcell] at cell
  | shift _ rest => exact rest
  | reduce fold _ =>
    obtain ⟨_, cell⟩ := fold.cell
    simp [hcell] at cell

/-- After a reduction the machine goes on with the same terminals. -/
theorem Accepts.of_fold (hfold : Folds g x symbols next) (h : Accepts g symbols (x :: names)) :
    Accepts g next (x :: names) := by
  obtain ⟨_, hcell⟩ := hfold.cell
  cases h with
  | accept cell => simp [hcell] at cell
  | shift cell _ => simp [hcell] at cell
  | reduce fold rest => rwa [hfold.unique fold]

/-! ### The invariant -/

/-- A parser in the middle of its tokens, with the symbols on its stack. -/
structure Reading (g : Grammar) (tokens before : List Token) (symbols : List Grammar.Symbol)
    (p : Parser) : Prop where
  spelt : ∃ k, Spells g p.stack symbols k
  place : tokens = before ++ p.cursor.lookahead :: p.cursor.rest
  derives : g.Derives symbols.reverse (word (before.map (·.terminal)))
  /-- What is accepted from the start is accepted from here. -/
  accepts : ∀ names,
    Accepts g [] (before.map (·.terminal) ++ p.cursor.lookahead.terminal :: names) →
    Accepts g symbols (p.cursor.lookahead.terminal :: names)

theorem reading_start (tokens : List Token) (last : Token) :
    Reading g (tokens ++ [last]) [] [] (.start (tokens ++ [last])) where
  spelt := ⟨0, .bottom⟩
  place := by cases tokens <;> rfl
  derives := .refl
  accepts := fun _ h => h

/-- A shift moves the token looked at behind the place. -/
theorem Reading.shift {tokens before : List Token} {last : Token} {p q : Parser} {j : Nat}
    (h : Reading g (tokens ++ [last]) before symbols p) (hlast : last.terminal = endMarker)
    (hcell : cell? g symbols p.cursor.lookahead.terminal = some (.shift j))
    (hinner : p.cursor.lookahead.terminal ≠ endMarker) (hcursor : q.cursor = p.cursor.advance)
    (hspelt : Spells g q.stack (.terminal p.cursor.lookahead.terminal :: symbols) j) :
    Reading g (tokens ++ [last]) (before ++ [p.cursor.lookahead])
      (.terminal p.cursor.lookahead.terminal :: symbols) q := by
  obtain ⟨t, ts, hrest⟩ : ∃ t ts, p.cursor.rest = t :: ts := by
    refine List.exists_cons_of_ne_nil fun hnil => hinner ?_
    have hplace := h.place
    rw [hnil] at hplace
    obtain ⟨_, heq⟩ := List.append_inj' hplace rfl
    rw [← (List.cons.inj heq).1, hlast]
  have hadvance : q.cursor.lookahead = t ∧ q.cursor.rest = ts := by
    simp [hcursor, Cursor.advance, hrest]
  obtain ⟨hlook, hlater⟩ := hadvance
  refine ⟨⟨j, hspelt⟩, ?_, ?_, ?_⟩
  · rw [h.place, hrest, hlook, hlater]
    simp
  · simpa using h.derives.append (.refl (a := word [p.cursor.lookahead.terminal]))
  · intro names hnames
    rw [hlook] at hnames ⊢
    exact (h.accepts _ (by simpa using hnames)).of_shift hcell

/-- A reduction leaves the place alone. -/
theorem Reading.reduce {tokens before : List Token} {p q : Parser} {j : Nat}
    (h : Reading g tokens before symbols p)
    (hfold : Folds g p.cursor.lookahead.terminal symbols next) (hcursor : q.cursor = p.cursor)
    (hspelt : Spells g q.stack next j) : Reading g tokens before next q := by
  refine ⟨⟨j, hspelt⟩, by rw [hcursor, h.place], hfold.derives.trans h.derives, ?_⟩
  intro names hnames
  rw [hcursor] at hnames ⊢
  exact (h.accepts names hnames).of_fold hfold

/-- What is known of a token that is unexpected: the tokens before it are the front of a sentence,
and with it they are not; or they are no sentence, if it is the end of the input. -/
structure Misplaced (g : Grammar) (before : List Token) (t : Token) : Prop where
  viable : ∃ names, g.IsSentence (before.map (·.terminal) ++ names)
  ended : t.kind = .endOfInput → ¬g.IsSentence (before.map (·.terminal))
  blocked : t.kind ≠ .endOfInput →
    ∀ names, ¬g.IsSentence (before.map (·.terminal) ++ t.terminal :: names)

theorem Reading.misplaced (hg : Proper g) (hfresh : FreshStart g)
    (hconflicts : g.table.conflicts = []) (hproductive : Productive g)
    {tokens before : List Token} {p : Parser} (h : Reading g tokens before symbols p)
    (hcell : cell? g symbols p.cursor.lookahead.terminal = none) :
    Misplaced g before p.cursor.lookahead := by
  have hstop : ∀ names, ¬Accepts g []
      (before.map (·.terminal) ++ p.cursor.lookahead.terminal :: names) := by
    intro names hnames
    obtain ⟨_, haction⟩ := (h.accepts names hnames).cell
    simp [hcell] at haction
  refine ⟨?_, fun hend hsentence => ?_, fun _ names hsentence => ?_⟩
  · obtain ⟨k, hk⟩ := h.spelt
    obtain ⟨s, hs⟩ := hk.state hg
    obtain ⟨names, hending⟩ :=
      Stands.exists_ending hg hfresh hconflicts hproductive (s := s) ⟨⟨_, hk⟩, hs⟩
    refine ⟨names, ?_⟩
    have hall := hending.form.trans (h.derives.append (.refl (a := word names)))
    simpa [Grammar.IsSentence] using hall
  · have haccepts := Accepts.sentence hg hfresh hconflicts hsentence
    refine hstop [] ?_
    rwa [Token.terminal, hend, terminal_endOfInput]
  · have haccepts := Accepts.sentence hg hfresh hconflicts hsentence
    exact hstop (names ++ [endMarker]) (by simpa using haccepts)

/-! ### Runs -/

theorem isOfParser_of_parse {cause : Cause} (h : cause.kind = .parse) :
    cause.isOfParser = true := by
  cases cause <;> first | rfl | cases h

/-- A run that fails with a syntax error stands before a misplaced token. -/
theorem Reading.run (hg : Proper g) (hfresh : FreshStart g) (hconflicts : g.table.conflicts = [])
    (hproductive : Productive g) {tokens before : List Token} {last : Token} {p q : Parser}
    {d : Diagnostic} (hlast : last.terminal = endMarker) (fuel : Nat)
    (h : Reading g (tokens ++ [last]) before symbols p)
    (hrun : run g.table fuel p = .failed d q) (hkind : d.cause.kind = .parse) :
    ∃ before state, tokens ++ [last] = before ++ q.cursor.lookahead :: q.cursor.rest ∧
      d = unexpected q.cursor.lookahead state ∧ Misplaced g before q.cursor.lookahead := by
  induction fuel generalizing p before symbols with
  | zero => simp [Parser.run] at hrun
  | succ fuel ih =>
    obtain ⟨k, hk⟩ := h.spelt
    cases acts hg hk with
    | accepted made => simp [Parser.run, made] at hrun
    | stuck cell made =>
      simp only [Parser.run, made, Outcome.failed.injEq] at hrun
      obtain ⟨rfl, rfl⟩ := hrun
      exact ⟨before, _, h.place, rfl, h.misplaced hg hfresh hconflicts hproductive cell⟩
    | raised made cause =>
      simp only [Parser.run, made, Outcome.failed.injEq] at hrun
      obtain ⟨rfl, rfl⟩ := hrun
      have hparser := isOfParser_of_parse hkind
      simp [cause.isOfParser] at hparser
    | shift cell inner made cursor spelt =>
      simp only [Parser.run, made] at hrun
      exact ih (h.shift hlast cell inner cursor spelt) hrun
    | reduce fold made cursor spelt =>
      simp only [Parser.run, made] at hrun
      exact ih (h.reduce fold cursor spelt) hrun

/-- A syntax error is reported at the first token that cannot come next. -/
theorem syntaxError_first {text : String} {g : Grammar} {strict : Bool} {table : Table}
    {tokens : List Token} {last : Token} {fuel : Nat} {d : Diagnostic} {p : Parser}
    (hread : Grammar.read text = .ok g) (hfresh : FreshStart g) (hproductive : Productive g)
    (htable : g.buildTable strict = .ok table) (hconflicts : table.conflicts = [])
    (hlast : last.kind = .endOfInput)
    (hrun : run table fuel (.start (tokens ++ [last])) = .failed d p)
    (hkind : d.cause.kind = .parse) :
    ∃ before state, tokens ++ [last] = before ++ p.cursor.lookahead :: p.cursor.rest ∧
      d = unexpected p.cursor.lookahead state ∧ Misplaced g before p.cursor.lookahead := by
  obtain rfl := Grammar.buildTable_eq htable
  have hend : last.terminal = endMarker := by
    rw [Token.terminal, hlast, terminal_endOfInput]
  exact (reading_start tokens last).run (Grammar.read_proper hread) hfresh hconflicts hproductive
    hend fuel hrun hkind

/-- The token of a syntax error. -/
def Outcome.rejected? : Outcome → Option Token
  | failed d p => if d.cause.kind = .parse then some p.cursor.lookahead else none
  | _ => none

theorem Outcome.failed_of_rejected? {o : Outcome} {t : Token} (h : o.rejected? = some t) :
    ∃ d p, o = .failed d p ∧ d.cause.kind = .parse ∧ p.cursor.lookahead = t := by
  cases o with
  | accepted p => cases h
  | unfinished p => cases h
  | failed d p =>
    simp only [rejected?] at h
    split at h
    · exact ⟨d, p, rfl, ‹_›, Option.some.inj h⟩
    · cases h

/-- The second of two names without a comma is unexpected: a sentence may start with the first, but
none goes on with the second. -/
theorem syntaxError_first_nameLists :
    (∃ names, nameLists.IsSentence ("id" :: names)) ∧
      ∀ names, ¬nameLists.IsSentence ("id" :: "id" :: names) := by
  obtain ⟨d, p, hrun, hkind, hlook⟩ := Outcome.failed_of_rejected?
    (o := run nameLists.table 9 (.start ([⟨.identifier, "a", 1⟩, ⟨.identifier, "b", 1⟩] ++
      [.endOfInput 1]))) (t := ⟨.identifier, "b", 1⟩) (by decide +kernel)
  have htable : nameLists.buildTable false = .ok nameLists.table := rfl
  obtain ⟨before, _, hplace, _, hmisplaced⟩ := syntaxError_first nameLists_read nameLists_fresh
    nameLists_productive htable (by decide +kernel) rfl hrun hkind
  rw [hlook] at hplace hmisplaced
  obtain rfl : before = [⟨.identifier, "a", 1⟩] := by
    rcases before with _ | ⟨t, _ | ⟨t', before⟩⟩
    · simp at hplace
    · simpa using (List.cons.inj hplace).1.symm
    · -- behind the second name there is only the end of the input
      have hrest : [Token.endOfInput 1] = before ++ ⟨.identifier, "b", 1⟩ :: p.cursor.rest :=
        (List.cons.inj (List.cons.inj hplace).2).2
      have hmem : (⟨.identifier, "b", 1⟩ : Token) ∈ [Token.endOfInput 1] := by simp [hrest]
      exact absurd hmem (by decide)
  exact ⟨hmisplaced.viable, hmisplaced.blocked (by decide)⟩

end DuckLang.Parser
