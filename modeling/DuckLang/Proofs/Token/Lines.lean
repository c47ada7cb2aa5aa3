import DuckLang.Proofs.Token.LongestMatch

/-! Line numbers.  The lexer counts a newline when it reads the character behind it, so the line it
holds is that of the character read last.  No lexeme holds a newline: the line on which a token ends
is the one it starts on, and it is found by counting the newlines before its first character. -/

namespace DuckLang.Lexical

open Lexer (isSpace skipFrom next tokens)

/-- A lexeme with the text before it. -/
structure Place where
  before : List Char
  kind : Token.Kind
  piece : List Char

/-- A text cut into pieces from left to right behind another, with the places of its lexemes. -/
inductive Places : List Char → List Char → List Place → Prop
  | nil {before : List Char} : Places before [] []
  | skip {before text piece rest : List Char} {places : List Place}
      (skipped : Longest text none piece rest) (more : Places (before ++ piece) rest places) :
      Places before text places
  | lexeme {before text piece rest : List Char} {kind : Token.Kind} {places : List Place}
      (taken : Taken text kind piece rest) (more : Places (before ++ piece) rest places) :
      Places before text (⟨before, kind, piece⟩ :: places)

/-- The line that a text behind another starts on: 1, and 1 more for every newline. -/
def lineAfter (before : List Char) : Nat :=
  1 + before.count '\n'

/-- The token at a place. -/
def Place.token (p : Place) : Token :=
  { kind := p.kind, text := String.ofList p.piece, line := lineAfter p.before }

variable {before text piece rest cs : List Char} {places : List Place} {l l' : Lexer}

/-! ### Lexemes and newlines -/

theorem listed_lines : ∀ pair ∈ Token.Kind.keywords ++ Token.Kind.symbols,
    '\n' ∉ pair.1.toList := by
  decide

theorem Element.newline_not_mem {quote : Char} {element : List Char} (h : Element quote element)
    (hquote : quote ≠ '\n') : '\n' ∉ element := by
  cases h with
  | plain h => simpa using Ne.symm h.2.1
  | escape h =>
    intro hmem
    have hletter := (List.mem_cons.mp hmem).resolve_left (by decide)
    obtain rfl := List.mem_singleton.mp hletter
    simp [Ne.symm hquote] at h

theorem Lexeme.newline_not_mem {kind : Token.Kind} (h : Lexeme kind piece) : '\n' ∉ piece := by
  intro hmem
  cases h with
  | keyword listed => exact listed_lines _ (List.mem_append_left _ listed) hmem
  | symbol listed => exact listed_lines _ (List.mem_append_right _ listed) hmem
  | identifier start parts free =>
    rcases List.mem_cons.mp hmem with rfl | hmem
    · cases start
    · cases parts _ hmem
  | int some all => cases all _ hmem
  | float someWhole allWhole someFraction allFraction =>
    rcases List.mem_append.mp hmem with hmem | hmem
    · cases allWhole _ hmem
    · cases allFraction _ ((List.mem_cons.mp hmem).resolve_left (by decide))
  | char h =>
    have hinner := (List.mem_cons.mp hmem).resolve_left (by decide)
    rcases List.mem_append.mp hinner with hmem | hmem
    · exact h.newline_not_mem (by decide) hmem
    · cases List.mem_singleton.mp hmem
  | string h =>
    have hinner := (List.mem_cons.mp hmem).resolve_left (by decide)
    rcases List.mem_append.mp hinner with hmem | hmem
    · obtain ⟨element, helement, hmem⟩ := List.mem_flatten.mp hmem
      exact (h element helement).newline_not_mem (by decide) hmem
    · cases List.mem_singleton.mp hmem

theorem lineAfter_lexeme {kind : Token.Kind} (h : Lexeme kind piece) :
    lineAfter (before ++ piece) = lineAfter before := by
  rw [lineAfter, List.count_append, List.count_eq_zero.mpr h.newline_not_mem, lineAfter]
  rfl

/-! ### The lexer behind a text -/

/-- A lexer that has read a text, with nothing kept of it. -/
structure Behind (before : List Char) (l : Lexer) : Prop where
  kept : l.kept = []
  /-- The line of the next character. -/
  next : l.nextLine = lineAfter before
  /-- The line of the last one. -/
  line : l.line = lineAfter before.dropLast

theorem behind_start (source : String) : Behind [] (.ofString source) :=
  ⟨rfl, rfl, rfl⟩

theorem Behind.passOver (h : Behind before l) (c : Char) (cs : List Char) :
    Behind (before ++ [c]) (l.passOver c cs) := by
  refine ⟨rfl, ?_, ?_⟩
  · have hline : (l.passOver c cs).line = lineAfter before := h.next
    by_cases hc : c = '\n'
    · rw [Lexer.nextLine, hline]
      simp [Lexer.passOver, hc, lineAfter]
      omega
    · rw [Lexer.nextLine, hline]
      simp [Lexer.passOver, hc, lineAfter]
  · rw [List.dropLast_concat]
    exact h.next

theorem Behind.lexeme {kind : Token.Kind} (h : Lexeme kind piece) (before rest : List Char) :
    Behind (before ++ piece) { rest, line := lineAfter before } := by
  refine ⟨rfl, (lineAfter_lexeme h).symm, ?_⟩
  have hlast : '\n' ∉ piece.dropLast := fun hmem =>
    h.newline_not_mem ((List.dropLast_sublist piece).subset hmem)
  rw [List.dropLast_append_of_ne_nil h.ne_nil, lineAfter, lineAfter, List.count_append,
    List.count_eq_zero.mpr hlast]
  rfl

/-- Behind blanks and comments, of which the text starts with the former or inside the latter, the
lexer has read more of the text, and the places of the lexemes stay. -/
theorem skipFrom_behind (comment : Bool) (hrest : l.rest = cs) (h : Behind before l) :
    ∃ skipped, cs = skipped ++ (skipFrom comment l cs).rest ∧
      Behind (before ++ skipped) (skipFrom comment l cs) ∧
      ∀ places, Places (before ++ skipped) (skipFrom comment l cs).rest places →
        if comment then
          Places (before ++ cs.takeWhile (· ≠ '\n')) (cs.dropWhile (· ≠ '\n')) places
        else Places before cs places := by
  fun_induction skipFrom comment l cs generalizing before with
  | case1 comment l =>
    refine ⟨[], by simp [hrest], by simpa using h, fun places hplaces => ?_⟩
    simpa [hrest] using hplaces
  | case2 l c cs ih =>
    obtain ⟨skipped, hsplit, hbehind, hplaces⟩ := ih rfl (h.passOver c cs)
    refine ⟨c :: skipped, congrArg (c :: ·) hsplit, by simpa using hbehind, ?_⟩
    intro places hmore
    have hrest := hplaces places (by simpa using hmore)
    by_cases hnewline : c = '\n'
    · subst hnewline
      have hskip : Places before ('\n' :: cs) places :=
        .skip (longest_blank rfl) (by simpa using hrest)
      simpa using hskip
    · simpa [hnewline] using hrest
  | case3 l comment c cs hcomment hspace ih =>
    obtain ⟨skipped, hsplit, hbehind, hplaces⟩ := ih rfl (h.passOver c cs)
    refine ⟨c :: skipped, congrArg (c :: ·) hsplit, by simpa using hbehind, ?_⟩
    intro places hmore
    have hrest : Places (before ++ [c]) cs places := by
      simpa using hplaces places (by simpa using hmore)
    rw [if_neg hcomment]
    exact .skip (longest_blank hspace) hrest
  | case4 l comment c cs hcomment hspace hslashes ih =>
    obtain ⟨rfl, hhead⟩ := hslashes
    obtain ⟨text, rfl⟩ := List.head?_eq_some_iff.mp hhead
    obtain ⟨skipped, hsplit, hbehind, hplaces⟩ := ih rfl (h.passOver '/' _)
    refine ⟨'/' :: skipped, congrArg ('/' :: ·) hsplit, by simpa using hbehind, ?_⟩
    intro places hmore
    have hrest := hplaces places (by simpa using hmore)
    rw [if_neg hcomment]
    exact .skip longest_comment (by simpa using hrest)
  | case5 l comment c cs hcomment hspace hslashes =>
    refine ⟨[], by simp [hrest], by simpa using h, fun places hplaces => ?_⟩
    simpa [hrest, hcomment] using hplaces

theorem skip_behind (h : Behind before l) :
    ∃ skipped, l.rest = skipped ++ l.skip.rest ∧ Behind (before ++ skipped) l.skip ∧
      ∀ places, Places (before ++ skipped) l.skip.rest places → Places before l.rest places := by
  simpa [Lexer.skip] using skipFrom_behind false rfl h

/-! ### Tokens and their places -/

/-- What a token read behind a text tells about the places of the lexemes. -/
inductive Read (before : List Char) (l : Lexer) : Except Diagnostic Token × Lexer → Prop
  | ended {l' : Lexer} (none : Places before l.rest []) :
      Read before l (.ok (.endOfInput (lineAfter (before ++ l.rest).dropLast)), l')
  | lexeme (place : Place) {l' : Lexer} (inner : place.kind ≠ .endOfInput)
      (split : before ++ l.rest = place.before ++ place.piece ++ l'.rest)
      (shorter : l'.rest.length < l.rest.length)
      (behind : Behind (place.before ++ place.piece) l')
      (first : ∀ places, Places (place.before ++ place.piece) l'.rest places →
        Places before l.rest (place :: places)) : Read before l (.ok place.token, l')
  | failed {d : Diagnostic} {l' : Lexer} : Read before l (.error d, l')

theorem next_read (h : Behind before l) : Read before l l.next := by
  obtain ⟨skipped, hsplit, hbehind, hplaces⟩ := skip_behind h
  simp only [next]
  split
  · rename_i hrest
    rw [hrest, List.append_nil] at hsplit
    rw [hrest] at hplaces
    rw [hbehind.line, ← hsplit]
    exact .ended (hplaces [] .nil)
  · rename_i c cs hrest
    obtain ⟨hspace, hcomment⟩ := (rest_skipFrom false (l := l) rfl).2 c cs hrest
    have hreads := munch_reads hspace hcomment
    rw [hbehind.kept]
    split
    · rename_i kind hkind
      simp only [Reads, hkind] at hreads
      rw [hrest, hreads.longest.split] at hsplit
      rw [hrest] at hplaces
      rw [hbehind.next]
      cases hreads.longest.valid with
      | lexeme hlexeme =>
        refine .lexeme ⟨before ++ skipped, kind, (munch [] c cs).taken⟩
          hlexeme.ne_endOfInput ?_ ?_ (.lexeme hlexeme _ _) fun places hmore => ?_
        · simp [hsplit]
        · have hsome := List.length_pos_iff.mpr hlexeme.ne_nil
          simp only [hsplit, List.length_append]
          omega
        · exact hplaces _ (.lexeme hreads hmore)
    · exact .failed

theorem tokens_placed {fuel : Nat} {ts : List Token} (h : Behind before l)
    (hts : tokens fuel l = .ok ts) (hfuel : l.rest.length < fuel) :
    ∃ places, Places before l.rest places ∧
      (∀ p ∈ places, p.before ++ p.piece <+: before ++ l.rest) ∧
      ts = places.map Place.token ++ [.endOfInput (lineAfter (before ++ l.rest).dropLast)] := by
  induction fuel generalizing l before ts with
  | zero => omega
  | succ fuel ih =>
    have hread := next_read h
    simp only [tokens] at hts
    generalize l.next = result at hread hts
    cases hread with
    | ended none =>
      obtain rfl := Except.ok.inj hts
      exact ⟨[], none, by simp, rfl⟩
    | @lexeme place l' inner split shorter behind first =>
      have hinner : ¬place.token.kind = .endOfInput := inner
      simp only [hinner, if_false] at hts
      split at hts
      · rename_i ts' hts'
        obtain rfl := Except.ok.inj hts
        obtain ⟨places, hplaces, hprefix, rfl⟩ := ih behind hts' (by omega)
        rw [← split] at hprefix ⊢
        refine ⟨place :: places, first places hplaces, ?_, rfl⟩
        exact List.forall_mem_cons.mpr ⟨⟨l'.rest, split.symm⟩, hprefix⟩
      · cases hts
    | failed => cases hts

/-- The tokens of a text are those at the places of its lexemes and the end of the input, for which
a newline that ends the text does not count. -/
theorem tokenize_placed {source : String} {ts : List Token} (h : tokenize source = .ok ts) :
    ∃ places, Places [] source.toList places ∧
      (∀ p ∈ places, p.before ++ p.piece <+: source.toList) ∧
      ts = places.map Place.token ++ [.endOfInput (lineAfter source.toList.dropLast)] :=
  tokens_placed (behind_start source) h (Nat.lt_succ_self _)

end DuckLang.Lexical
