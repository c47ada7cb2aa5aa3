import DuckLang.Proofs.Token.LongestMatch

/-! Tokens written with a blank between them are read again.  A lexeme with a blank or nothing behind
it is the longest piece there, whatever it stood before in the text that it was taken from. -/

namespace DuckLang.Lexical

open Token.Kind (keywords symbols keyword? symbol?)
open Identifier (isStart isPart isDigit)

variable {text piece rest : List Char} {lexemes : List (Token.Kind × List Char)}

/-- The texts of tokens, the end of the input apart, with a blank between any two of them. -/
def respelled (tokens : List Token) : String :=
  " ".intercalate ((tokens.filter (·.kind ≠ .endOfInput)).map (·.text))

/-! ### A lexeme before a blank -/

theorem symbols_unspaced : ∀ pair ∈ symbols, ' ' ∉ pair.1.toList := by
  decide

/-- No piece goes on with a blank where a lexeme ends. -/
theorem Lexeme.not_piece_blank {kind : Token.Kind} {kind' : Option Token.Kind} {more : List Char}
    (h : Lexeme kind piece) : ¬Piece kind' (piece ++ ' ' :: more) := by
  intro hpiece
  obtain ⟨c, cs, rfl⟩ := List.exists_cons_of_ne_nil h.ne_nil
  have hshape := h.shape c rfl
  have hshape' := hpiece.shape c rfl
  have hblank : ' ' ∈ c :: cs ++ ' ' :: more := by simp
  cases hfront : front c with
  | string =>
    -- the first closing quote ends both
    rw [hfront] at hshape hshape'
    obtain ⟨_, elements, hall, htext⟩ := hshape
    obtain ⟨_, elements', hall', htext'⟩ := hshape'
    have hclosed := stringBody_flatten hall (' ' :: more)
    have hclosed' := stringBody_flatten hall' []
    have hsame : elements.flatten ++ '"' :: ' ' :: more = elements'.flatten ++ ['"'] := by
      rw [htext] at htext'
      simpa using htext'
    rw [hsame, hclosed'] at hclosed
    simp at hclosed
  | char =>
    rw [hfront] at hshape hshape'
    obtain ⟨_, element, helement, htext⟩ := hshape
    obtain ⟨_, element', helement', htext'⟩ := hshape'
    have hclosed := charBody_element helement (' ' :: more)
    have hclosed' := charBody_element helement' []
    have hsame : element ++ '\'' :: ' ' :: more = element' ++ ['\''] := by
      rw [htext] at htext'
      simpa using htext'
    rw [hsame, hclosed'] at hclosed
    simp at hclosed
  | word =>
    rw [hfront] at hshape'
    cases hshape'.2 _ hblank
  | number =>
    rw [hfront] at hshape'
    rcases hshape' with ⟨_, hall⟩ | ⟨_, whole, fraction, htext, hwhole, _, hfraction⟩
    · cases hall _ hblank
    · rw [htext] at hblank
      rcases List.mem_append.mp hblank with hmem | hmem
      · cases hwhole _ hmem
      · cases hfraction _ ((List.mem_cons.mp hmem).resolve_left (by decide))
  | blank =>
    rw [hfront] at hshape
    cases hshape.1
  | symbol =>
    rw [hfront] at hshape hshape'
    obtain ⟨_, _, hlisted⟩ := hshape.resolve_right (by simp)
    rcases hshape' with ⟨_, _, hlisted'⟩ | ⟨_, comment, htext, _⟩
    · exact symbols_unspaced _ hlisted' (by simp)
    · -- a comment would have both its slashes in the symbol
      refine (symbols_fronts _ hlisted).1 ?_
      cases cs with
      | nil => simp at htext
      | cons d cs => simp_all

/-- A lexeme with a blank or nothing behind it is taken. -/
theorem Lexeme.taken {kind : Token.Kind} (h : Lexeme kind piece) (rest : List Char)
    (hrest : ∀ c ∈ rest.head?, c = ' ') : Taken (piece ++ rest) kind piece rest := by
  refine ⟨⟨rfl, .lexeme h, ?_⟩, ?_⟩
  · intro kind' piece' hpiece hprefix
    refine Nat.le_of_not_lt fun hlonger => ?_
    -- what is longer goes on with the blank
    obtain ⟨more, rfl⟩ : piece <+: piece' :=
      List.prefix_of_prefix_length_le (List.prefix_append piece rest) hprefix (by omega)
    have hmore : more <+: rest := (List.prefix_append_right_inj piece).mp hprefix
    cases more with
    | nil => simp at hlonger
    | cons c more =>
      obtain ⟨_, rfl⟩ := hmore
      obtain rfl : c = ' ' := hrest c rfl
      exact h.not_piece_blank hpiece
  · intro _ c hc
    rw [hrest c hc]
    decide

/-! ### Lexemes with blanks between them -/

/-- The lexemes of a cut are lexemes. -/
theorem Splits.lexeme_of_mem (h : Splits text lexemes) :
    ∀ lexeme ∈ lexemes, Lexeme lexeme.1 lexeme.2 := by
  induction h with
  | nil => simp
  | skip _ _ ih => exact ih
  | lexeme taken _ ih =>
    refine List.forall_mem_cons.mpr ⟨?_, ih⟩
    cases taken.longest.valid with
    | lexeme h => exact h

/-- The tokens of a text show the lexemes of its cut. -/
theorem view_of_tokenize {source : String} {ts : List Token} (h : tokenize source = .ok ts) :
    ∃ lexemes, Splits source.toList lexemes ∧
      ts.map view = lexemes ++ [(.endOfInput, Token.Kind.endMarker.toList)] := by
  obtain ⟨hcomplete, hsound⟩ :=
    tokens_splits (l := .ofString source) rfl (Nat.lt_succ_self source.toList.length)
  obtain ⟨lexemes, hsplits⟩ := hsound ts h
  obtain ⟨ts', hts', hview⟩ := hcomplete lexemes hsplits
  obtain rfl : ts = ts' := Except.ok.inj (h.symm.trans hts')
  exact ⟨lexemes, hsplits, hview⟩

theorem splits_intercalate (h : ∀ lexeme ∈ lexemes, Lexeme lexeme.1 lexeme.2) :
    Splits ([' '].intercalate (lexemes.map (·.2))) lexemes := by
  induction lexemes with
  | nil => exact .nil
  | cons lexeme lexemes ih =>
    obtain ⟨hfirst, hothers⟩ := List.forall_mem_cons.mp h
    cases lexemes with
    | nil =>
      have htaken := hfirst.taken [] (by simp)
      rw [List.append_nil] at htaken
      simpa using Splits.lexeme htaken .nil
    | cons next lexemes =>
      rw [List.map_cons, List.map_cons, List.intercalate_cons_cons]
      have hblank : Longest (' ' :: [' '].intercalate ((next :: lexemes).map (·.2))) none [' '] _ :=
        longest_blank (by decide)
      have htaken := hfirst.taken
        (' ' :: [' '].intercalate ((next :: lexemes).map (·.2))) (by simp)
      rw [List.append_assoc]
      exact .lexeme htaken (.skip hblank (ih hothers))

/-- The texts of the tokens that show a cut, with blanks between them. -/
theorem toList_respelled {ts : List Token}
    (hlexemes : ∀ lexeme ∈ lexemes, Lexeme lexeme.1 lexeme.2)
    (hview : ts.map view = lexemes ++ [(.endOfInput, Token.Kind.endMarker.toList)]) :
    (respelled ts).toList = [' '].intercalate (lexemes.map (·.2)) := by
  obtain ⟨inner, last, rfl, rfl, hlast⟩ := List.map_eq_append_iff.mp hview
  obtain ⟨t, rfl, ht⟩ := List.map_eq_singleton_iff.mp hlast
  have hend : t.kind = .endOfInput := congrArg Prod.fst ht
  have hinner : (inner ++ [t]).filter (·.kind ≠ .endOfInput) = inner := by
    rw [List.filter_append, List.filter_eq_self.mpr, List.filter_eq_nil_iff.mpr, List.append_nil]
    · simp [hend]
    · intro t' ht'
      exact decide_eq_true (hlexemes _ (List.mem_map_of_mem ht')).ne_endOfInput
  rw [respelled, hinner, String.toList_intercalate, List.map_map, List.map_map]
  rfl

/-- The tokens of a text are those of their own texts with a blank between any two of them. -/
theorem tokenize_respelled {source : String} {ts : List Token} (h : tokenize source = .ok ts) :
    ∃ ts', tokenize (respelled ts) = .ok ts' ∧
      ts'.map (fun t => (t.kind, t.text)) = ts.map fun t => (t.kind, t.text) := by
  obtain ⟨lexemes, hsplits, hview⟩ := view_of_tokenize h
  have hlexemes := hsplits.lexeme_of_mem
  have hagain : Splits (respelled ts).toList lexemes := by
    rw [toList_respelled hlexemes hview]
    exact splits_intercalate hlexemes
  obtain ⟨ts', hts', hview'⟩ := (tokens_splits (l := .ofString (respelled ts)) rfl
    (Nat.lt_succ_self (respelled ts).toList.length)).1 lexemes hagain
  refine ⟨ts', hts', ?_⟩
  have hsame : ts'.map view = ts.map view := hview'.trans hview.symm
  have htext := congrArg (List.map fun v => (v.1, String.ofList v.2)) hsame
  simpa [view, Function.comp_def] using htext

/-- The tokens of a text full of slashes. -/
def slashes : List Token :=
  [⟨.intLiteral, "7", 1⟩, ⟨.slash, "/", 1⟩, ⟨.slash, "/", 1⟩, ⟨.charLiteral, "'/'", 1⟩,
   ⟨.stringLiteral, "\"//\"", 1⟩, ⟨.identifier, "if1", 1⟩, ⟨.equal, "==", 1⟩,
   ⟨.charLiteral, "'\\''", 2⟩, .endOfInput 2]

/-- Two divisions do not become a comment, and the slashes of a literal stay in it. -/
theorem tokenize_respelled_slashes :
    tokenize "7/ /'/'\"//\"if1==//x\n'\\''" = .ok slashes ∧
      ∃ ts', tokenize "7 / / '/' \"//\" if1 == '\\''" = .ok ts' ∧
        ts'.map (fun t => (t.kind, t.text)) = slashes.map fun t => (t.kind, t.text) := by
  have hts : tokenize "7/ /'/'\"//\"if1==//x\n'\\''" = .ok slashes := by rfl
  exact ⟨hts, tokenize_respelled hts⟩

end DuckLang.Lexical
