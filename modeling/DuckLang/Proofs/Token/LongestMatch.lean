import DuckLang.Proofs.Token.Lexical

/-! The lexer takes the longest lexeme.  For each first character what it takes is compared with all
pieces that the text may start with; a run of the lexer then takes exactly the lexemes of a cut of
the text, and fails where there is none. -/

namespace DuckLang.Lexical

open Token.Kind (keywords symbols keyword? symbol?)
open Identifier (isStart isPart isDigit)

variable {c : Char} {cs text piece rest : List Char} {kind : Option Token.Kind}

/-! ### What the lexer takes -/

/-- What was taken off a text is its longest lexeme.  If nothing was, then there is none, or one
with a point behind it that starts no piece. -/
def Reads (text : List Char) (m : Munch) : Prop :=
  match m.kind with
  | some kind => Taken text kind m.taken m.rest
  | none => ∀ kind piece rest, Taken text kind piece rest → rest.head? = some '.'

/-- Where every piece that a text starts with is the one taken. -/
theorem reads_of_forced {m : Munch}
    (hlexeme : ∀ kind, m.kind = some kind → (Lexeme kind m.taken ∧ text = m.taken ++ m.rest) ∧
      kind ≠ .intLiteral ∧ kind ≠ .floatLiteral)
    (hforced : ∀ kind piece rest, Piece kind piece → text = piece ++ rest →
      m = { kind, taken := piece, rest }) : Reads text m := by
  unfold Reads
  split
  · rename_i kind hkind
    obtain ⟨⟨hvalid, hsplit⟩, hint, hfloat⟩ := hlexeme kind hkind
    refine ⟨⟨hsplit, .lexeme hvalid, ?_⟩, ?_⟩
    · rintro kind' piece' hpiece ⟨rest', hrest'⟩
      simp [hforced kind' piece' rest' hpiece hrest'.symm]
    · rintro (h | h)
      · exact absurd h hint
      · exact absurd h hfloat
  · rename_i hkind
    intro kind piece rest htaken
    simp [hforced _ piece rest htaken.longest.valid htaken.longest.split] at hkind

theorem isEscape_iff {quote d : Char} :
    Munch.isEscape quote d = true ↔ d ∈ ['a', 'b', 'n', 'f', 'r', 't', 'v', '\\', quote] := by
  simp [Munch.isEscape, Munch.escapeLetters, or_assoc]

theorem ne_backslash (hcut : c = '\\' → cs = [] → False)
    (hslash : ∀ e rest, c = '\\' → cs = e :: rest → False) : c ≠ '\\' := by
  rintro rfl
  cases cs with
  | nil => exact hcut rfl rfl
  | cons e rest => exact hslash e rest rfl rfl

theorem stringBody_flatten {elements : List (List Char)}
    (h : ∀ element ∈ elements, Element '"' element) (rest : List Char) :
    Munch.stringBody (elements.flatten ++ '"' :: rest) =
      { kind := some .stringLiteral, taken := elements.flatten ++ ['"'], rest } := by
  induction elements with
  | nil => simp [Munch.stringBody]
  | cons element elements ih =>
    obtain ⟨hfirst, hrest⟩ := List.forall_mem_cons.mp h
    cases hfirst with
    | plain hc =>
      obtain ⟨hquote, hnewline, hslash⟩ := hc
      simp [Munch.stringBody, hquote, hnewline, hslash, ih hrest, Munch.cons]
    | escape hc =>
      simp [Munch.stringBody, isEscape_iff.mpr hc, ih hrest, Munch.cons]

theorem stringBody_some {kind : Token.Kind} (h : (Munch.stringBody cs).kind = some kind) :
    kind = .stringLiteral ∧
      ∃ elements : List (List Char), (∀ element ∈ elements, Element '"' element) ∧
        (Munch.stringBody cs).taken = elements.flatten ++ ['"'] ∧
        cs = elements.flatten ++ '"' :: (Munch.stringBody cs).rest := by
  fun_induction Munch.stringBody cs with
  | case1 => cases h
  | case2 => cases h
  | case3 e cs hescape ih =>
    obtain ⟨hkind, elements, hall, htaken, hrest⟩ := ih h
    refine ⟨hkind, ['\\', e] :: elements, ?_, ?_, ?_⟩
    · exact List.forall_mem_cons.mpr ⟨.escape (isEscape_iff.mp hescape), hall⟩
    · simp [Munch.cons, htaken]
    · simpa [Munch.cons] using hrest
  | case4 => cases h
  | case5 cs =>
    exact ⟨(Option.some.inj h).symm, [], by simp, rfl, rfl⟩
  | case6 => cases h
  | case7 c cs hcut hslash hquote hnewline ih =>
    obtain ⟨hkind, elements, hall, htaken, hrest⟩ := ih h
    have hplain := ne_backslash hcut hslash
    refine ⟨hkind, [c] :: elements, ?_, ?_, ?_⟩
    · exact List.forall_mem_cons.mpr ⟨.plain ⟨hquote, hnewline, hplain⟩, hall⟩
    · simp [Munch.cons, htaken]
    · simpa [Munch.cons] using hrest

theorem reads_string (hc : front c = .string) : Reads (c :: cs) (munch [] c cs) := by
  obtain rfl : c = '"' := by
    unfold front at hc
    repeat' split at hc
    all_goals first | assumption | cases hc
  rw [show munch [] '"' cs = (Munch.stringBody cs).cons '"' from rfl]
  refine reads_of_forced ?_ ?_
  · intro kind hkind
    obtain ⟨rfl, elements, hall, htaken, hrest⟩ := stringBody_some hkind
    refine ⟨⟨?_, ?_⟩, by simp, by simp⟩
    · rw [Munch.cons, htaken]
      exact .string hall
    · simpa [Munch.cons, htaken] using hrest
  · intro kind piece rest hpiece hsplit
    obtain ⟨rfl, elements, hall, rfl⟩ := hpiece.shape_of_prefix ⟨rest, hsplit.symm⟩
    obtain rfl : cs = elements.flatten ++ '"' :: rest := by simpa using hsplit
    rw [stringBody_flatten hall]
    rfl

theorem charBody_element {element : List Char} (h : Element '\'' element) (rest : List Char) :
    Munch.charBody (element ++ '\'' :: rest) =
      { kind := some .charLiteral, taken := element ++ ['\''], rest } := by
  cases h with
  | plain hc =>
    obtain ⟨hquote, hnewline, hslash⟩ := hc
    simp [Munch.charBody, Munch.charEnd, hquote, hnewline, hslash, Munch.cons]
  | escape hc => simp [Munch.charBody, Munch.charEnd, isEscape_iff.mpr hc, Munch.cons]

theorem charEnd_some {kind : Token.Kind} (h : (Munch.charEnd cs).kind = some kind) :
    kind = .charLiteral ∧ (Munch.charEnd cs).taken = ['\''] ∧
      cs = '\'' :: (Munch.charEnd cs).rest := by
  fun_cases Munch.charEnd cs with
  | case1 cs => exact ⟨(Option.some.inj h).symm, rfl, rfl⟩
  | case2 => simp [Munch.charEnd] at h

theorem charBody_some {kind : Token.Kind} (h : (Munch.charBody cs).kind = some kind) :
    kind = .charLiteral ∧ ∃ element, Element '\'' element ∧
      (Munch.charBody cs).taken = element ++ ['\''] ∧
      cs = element ++ '\'' :: (Munch.charBody cs).rest := by
  revert h
  fun_cases Munch.charBody cs with
  | case3 e cs hescape =>
    intro h
    obtain ⟨hkind, htaken, hrest⟩ := charEnd_some h
    exact ⟨hkind, ['\\', e], .escape (isEscape_iff.mp hescape), by simp [Munch.cons, htaken],
      by simpa [Munch.cons] using hrest⟩
  | case6 c cs hcut hslash hplain =>
    intro h
    obtain ⟨hkind, htaken, hrest⟩ := charEnd_some h
    obtain ⟨hquote, hnewline⟩ := not_or.mp hplain
    exact ⟨hkind, [c], .plain ⟨hquote, hnewline, ne_backslash hcut hslash⟩,
      by simp [Munch.cons, htaken], by simpa [Munch.cons] using hrest⟩
  | _ => intro h; cases h

theorem reads_char (hc : front c = .char) : Reads (c :: cs) (munch [] c cs) := by
  obtain rfl : c = '\'' := by
    unfold front at hc
    repeat' split at hc
    all_goals first | assumption | cases hc
  rw [show munch [] '\'' cs = (Munch.charBody cs).cons '\'' from rfl]
  refine reads_of_forced ?_ ?_
  · intro kind hkind
    obtain ⟨rfl, element, helement, htaken, hrest⟩ := charBody_some hkind
    refine ⟨⟨?_, ?_⟩, by simp, by simp⟩
    · rw [Munch.cons, htaken]
      exact .char helement
    · simpa [Munch.cons, htaken] using hrest
  · intro kind piece rest hpiece hsplit
    obtain ⟨rfl, element, helement, rfl⟩ := hpiece.shape_of_prefix ⟨rest, hsplit.symm⟩
    obtain rfl : cs = element ++ '\'' :: rest := by simpa using hsplit
    rw [charBody_element helement]
    rfl

theorem length_le_takeWhile {f : Char → Bool} (h : piece <+: text)
    (hall : ∀ d ∈ piece, f d = true) : piece.length ≤ (text.takeWhile f).length := by
  obtain ⟨rest, rfl⟩ := h
  rw [List.takeWhile_append_of_pos hall, List.length_append]
  omega

theorem reads_word (hc : front c = .word) : Reads (c :: cs) (munch [] c cs) := by
  have hstart := isStart_of_front hc
  have hmunch : munch [] c cs = Munch.word [] (c :: cs) := by
    have hquote : c ≠ '"' := by rintro rfl; cases hstart
    have hapostrophe : c ≠ '\'' := by rintro rfl; cases hstart
    simp [munch, hquote, hapostrophe, hstart]
  have htaken : (c :: cs).takeWhile isPart = c :: cs.takeWhile isPart := by
    simp [isPart, hstart]
  have hvalid : Lexeme ((keyword? (String.ofList ((c :: cs).takeWhile isPart))).getD .identifier)
      ((c :: cs).takeWhile isPart) := by
    cases hfound : keyword? (String.ofList ((c :: cs).takeWhile isPart)) with
    | some kind =>
      have hlexeme := Lexeme.keyword (Token.Kind.mem_of_lookup hfound)
      rwa [String.toList_ofList] at hlexeme
    | none =>
      rw [htaken] at hfound ⊢
      refine .identifier hstart (List.all_eq_true.mp List.all_takeWhile) ?_
      intro kind hlisted
      rw [(keywords_words _ hlisted).1.2] at hfound
      cases hfound
  rw [hmunch]
  refine ⟨⟨List.takeWhile_append_dropWhile.symm, .lexeme hvalid, ?_⟩, ?_⟩
  · intro kind' piece' hpiece hprefix
    have hshape := hpiece.shape_of_prefix hprefix
    rw [hc] at hshape
    exact length_le_takeWhile hprefix hshape.2
  · intro hnumber
    have hfront := hvalid.front_of_number hnumber c (by rw [htaken]; rfl)
    rw [hc] at hfront
    cases hfront

/-- A piece that starts with a digit is not longer than the digits, or than those before and behind
a point. -/
theorem number_piece_le (hc : front c = .number) (h : Piece kind piece) (hp : piece <+: c :: cs) :
    piece.length ≤ ((c :: cs).takeWhile isDigit).length ∨
      ∃ after, (c :: cs).dropWhile isDigit = '.' :: after ∧ after.takeWhile isDigit ≠ [] ∧
        piece.length ≤
          ((c :: cs).takeWhile isDigit ++ '.' :: after.takeWhile isDigit).length := by
  have hshape := h.shape_of_prefix hp
  rw [hc] at hshape
  rcases hshape with ⟨_, hall⟩ | ⟨_, whole, fraction, rfl, hwhole, hsome, hfraction⟩
  · exact .inl (length_le_takeWhile hp hall)
  · obtain ⟨rest, hrest⟩ := hp
    refine .inr ⟨fraction ++ rest, ?_, ?_, ?_⟩
    · rw [← hrest, List.append_assoc, List.dropWhile_append_of_pos hwhole]
      rfl
    · rw [List.takeWhile_append_of_pos hfraction]
      simp [hsome]
    · rw [← hrest, List.append_assoc, List.takeWhile_append_of_pos hwhole,
        List.takeWhile_append_of_pos hfraction]
      simp only [List.length_append, List.length_cons]
      omega

theorem reads_numberEnd {kind : Token.Kind} {digits : List Char} (hc : front c = .number)
    (h : Longest (c :: cs) (some kind) digits rest) :
    Reads (c :: cs) (Munch.numberEnd kind digits rest) := by
  cases rest with
  | nil => exact ⟨h, by simp [Munch.numberEnd]⟩
  | cons d rest =>
    simp only [Munch.numberEnd]
    split
    · rename_i hstart
      -- a number with a letter behind it is no number with none
      intro kind' piece' rest' htaken
      obtain ⟨rfl, rfl⟩ := h.unique htaken.longest
      have hshape := htaken.longest.valid.shape_of_prefix ⟨_, htaken.longest.split.symm⟩
      rw [hc] at hshape
      have hkind : kind' = .intLiteral ∨ kind' = .floatLiteral := by
        rcases hshape with ⟨hkind, _⟩ | ⟨hkind, _⟩
        · exact .inl (Option.some.inj hkind)
        · exact .inr (Option.some.inj hkind)
      rw [htaken.apart hkind d rfl] at hstart
      cases hstart
    · rename_i hstart
      refine ⟨h, fun _ d' hd' => ?_⟩
      obtain rfl : d = d' := Option.some.inj hd'
      simpa using hstart

theorem reads_number (hc : front c = .number) : Reads (c :: cs) (munch [] c cs) := by
  have hdigit := isDigit_of_front hc
  have hmunch : munch [] c cs = Munch.number (c :: cs) := by
    unfold front at hc
    unfold munch
    repeat' split at hc
    all_goals simp_all
  have hwhole : Lexeme .intLiteral ((c :: cs).takeWhile isDigit) := by
    refine .int ?_ (List.all_eq_true.mp List.all_takeWhile)
    simp [hdigit]
  have hsplit : c :: cs = (c :: cs).takeWhile isDigit ++ (c :: cs).dropWhile isDigit :=
    List.takeWhile_append_dropWhile.symm
  rw [hmunch]
  simp only [Munch.number]
  split
  · rename_i after hdrop
    rw [hdrop] at hsplit
    split
    · rename_i hnone
      -- the longest piece ends before the point
      have hlongest : Longest (c :: cs) (some .intLiteral) ((c :: cs).takeWhile isDigit)
          ('.' :: after) := by
        refine ⟨hsplit, .lexeme hwhole, ?_⟩
        intro kind' piece' hpiece hprefix
        rcases number_piece_le hc hpiece hprefix with hle | ⟨after', hdrop', hsome, _⟩
        · exact hle
        · obtain ⟨_, rfl⟩ := List.cons.inj (hdrop.symm.trans hdrop')
          exact absurd (List.isEmpty_iff.mp hnone) hsome
      intro kind' piece' rest' htaken
      rw [(htaken.longest.unique hlongest).2]
      rfl
    · rename_i hsome
      have hfraction : after.takeWhile isDigit ≠ [] := by simpa using hsome
      refine reads_numberEnd hc ⟨?_, .lexeme ?_, ?_⟩
      · rw [List.append_assoc, List.cons_append, List.takeWhile_append_dropWhile]
        exact hsplit
      · exact .float hwhole.ne_nil (List.all_eq_true.mp List.all_takeWhile) hfraction
          (List.all_eq_true.mp List.all_takeWhile)
      · intro kind' piece' hpiece hprefix
        rcases number_piece_le hc hpiece hprefix with hle | ⟨after', hdrop', _, hle⟩
        · rw [List.length_append]
          omega
        · obtain ⟨_, rfl⟩ := List.cons.inj (hdrop.symm.trans hdrop')
          exact hle
  · rename_i hdrop
    refine reads_numberEnd hc ⟨hsplit, .lexeme hwhole, ?_⟩
    intro kind' piece' hpiece hprefix
    rcases number_piece_le hc hpiece hprefix with hle | ⟨after, hdrop', _⟩
    · exact hle
    · exact absurd hdrop' (hdrop after)

/-- The symbols that a text without a comment in front starts with. -/
theorem symbol_piece (hc : front c = .symbol) (hcomment : ¬(c = '/' ∧ cs.head? = some '/'))
    (h : Piece kind piece) (hp : piece <+: c :: cs) :
    ∃ kind', kind = some kind' ∧ symbol? (String.ofList piece) = some kind' ∧
      (piece = [c] ∨ ∃ d, piece = [c, d] ∧ cs.head? = some d ∧
        ((symbol? c.toString).isSome || c = '!') = true) := by
  have hshape := h.shape_of_prefix hp
  rw [hc] at hshape
  obtain ⟨d, piece, rfl⟩ := List.exists_cons_of_ne_nil h.ne_nil
  obtain ⟨rfl, hprefix⟩ := List.cons_prefix_cons.mp hp
  rcases hshape with ⟨kind', rfl, hlisted⟩ | ⟨_, comment, htext, _⟩
  · obtain ⟨⟨_, hkind⟩, _, hlength⟩ := symbols_symbols _ hlisted
    refine ⟨kind', rfl, hkind, ?_⟩
    simp only [String.toList_ofList, List.length_cons] at hlength
    rcases hlength with hone | ⟨htwo, hguard⟩
    · exact .inl (by simpa using hone)
    · obtain ⟨e, rfl⟩ := List.length_eq_one_iff.mp (Nat.succ.inj htwo)
      obtain ⟨more, rfl⟩ := hprefix
      exact .inr ⟨e, rfl, rfl, hguard⟩
  · obtain ⟨rfl, rfl⟩ := List.cons.inj htext
    obtain ⟨_, rfl⟩ := hprefix
    exact absurd ⟨rfl, rfl⟩ hcomment

theorem reads_symbol (hc : front c = .symbol) (hcomment : ¬(c = '/' ∧ cs.head? = some '/')) :
    Reads (c :: cs) (munch [] c cs) := by
  have hmunch : munch [] c cs = Munch.symbol [] c cs := by
    unfold front at hc
    unfold munch
    repeat' split at hc
    all_goals simp_all
  -- what is taken where no symbol of two characters is there
  have hsingle : (∀ d, cs.head? = some d → ((symbol? c.toString).isSome || c = '!') = true →
      symbol? (String.ofList [c, d]) = none) →
      Reads (c :: cs) { kind := symbol? c.toString, taken := [c], rest := cs } := by
    intro hpair
    have hone : ∀ kind' piece', Piece kind' piece' → piece' <+: c :: cs → piece' = [c] ∧
        symbol? c.toString = kind' := by
      intro kind' piece' hpiece hprefix
      obtain ⟨kind₁, rfl, hfound, rfl | ⟨d, rfl, hd, hguard⟩⟩ :=
        symbol_piece hc hcomment hpiece hprefix
      · exact ⟨rfl, by rw [← hfound, ← String.singleton_eq_ofList]; rfl⟩
      · rw [hpair d hd hguard] at hfound
        cases hfound
    unfold Reads
    dsimp only
    split
    · rename_i kind hkind
      have hvalid := Lexeme.symbol (Token.Kind.mem_of_lookup hkind)
      have htext : c.toString.toList = [c] := by simp
      rw [htext] at hvalid
      refine ⟨⟨rfl, .lexeme hvalid, ?_⟩, ?_⟩
      · intro kind' piece' hpiece hprefix
        exact Nat.le_of_eq (congrArg List.length (hone kind' piece' hpiece hprefix).1)
      · intro hnumber
        have hfront := hvalid.front_of_number hnumber c rfl
        rw [hc] at hfront
        cases hfront
    · rename_i hkind
      intro kind' piece' rest' htaken
      have hfound := (hone _ _ htaken.longest.valid ⟨_, htaken.longest.split.symm⟩).2
      rw [hkind] at hfound
      cases hfound
  rw [hmunch]
  cases cs with
  | nil => exact hsingle (by simp)
  | cons d rest =>
    simp only [Munch.symbol, List.nil_append]
    split
    · rename_i hguard
      split
      · rename_i kind hkind
        have hvalid := Lexeme.symbol (Token.Kind.mem_of_lookup hkind)
        rw [String.toList_ofList] at hvalid
        refine ⟨⟨rfl, .lexeme hvalid, ?_⟩, ?_⟩
        · intro kind' piece' hpiece hprefix
          obtain ⟨_, _, _, rfl | ⟨_, rfl, _⟩⟩ := symbol_piece hc hcomment hpiece hprefix
          · exact Nat.le_succ 1
          · exact Nat.le_refl 2
        · intro hnumber
          have hfront := hvalid.front_of_number hnumber c rfl
          rw [hc] at hfront
          cases hfront
      · rename_i hnone
        refine hsingle fun d' hd' _ => ?_
        obtain rfl : d = d' := Option.some.inj hd'
        exact hnone
    · rename_i hguard
      exact hsingle fun _ _ hyes => absurd hyes hguard

/-- In front of a text with neither a blank nor a comment the lexer takes its longest lexeme. -/
theorem munch_reads (hspace : Lexer.isSpace c = false)
    (hcomment : ¬(c = '/' ∧ cs.head? = some '/')) : Reads (c :: cs) (munch [] c cs) := by
  cases hc : front c with
  | string => exact reads_string hc
  | char => exact reads_char hc
  | word => exact reads_word hc
  | number => exact reads_number hc
  | blank =>
    rw [isSpace_of_front hc] at hspace
    cases hspace
  | symbol => exact reads_symbol hc hcomment

/-! ### Blanks, comments and points -/

variable {lexemes : List (Token.Kind × List Char)}

theorem symbols_fronts : ∀ pair ∈ symbols,
    pair.1.toList.take 2 ≠ ['/', '/'] ∧ pair.1.toList.head? ≠ some '.' := by
  decide

/-- A blank or a comment is no lexeme. -/
theorem Piece.not_lexeme {kind : Token.Kind} (h : Piece none piece) : ¬Lexeme kind piece := by
  intro hlexeme
  cases h with
  | blank hspace =>
    have hshape := hlexeme.shape _ rfl
    rw [front_of_isSpace hspace] at hshape
    cases hshape.1
  | comment _ =>
    rcases hlexeme.shape '/' rfl with ⟨kind', _, hlisted⟩ | ⟨hkind, _⟩
    · exact (symbols_fronts _ hlisted).1 (by simp)
    · cases hkind

theorem splits_nil : Splits [] lexemes ↔ lexemes = [] := by
  constructor
  · intro h
    generalize htext : ([] : List Char) = text at h
    cases h with
    | nil => rfl
    | skip skipped more =>
      have hsplit := skipped.split
      rw [← htext] at hsplit
      exact absurd (List.append_eq_nil_iff.mp hsplit.symm).1 skipped.valid.ne_nil
    | lexeme taken more =>
      have hsplit := taken.longest.split
      rw [← htext] at hsplit
      exact absurd (List.append_eq_nil_iff.mp hsplit.symm).1 taken.longest.valid.ne_nil
  · rintro rfl
    exact .nil

theorem Longest.splits_iff (h : Longest text none piece rest) :
    Splits text lexemes ↔ Splits rest lexemes := by
  refine ⟨fun hsplits => ?_, .skip h⟩
  cases hsplits with
  | nil => exact absurd (List.append_eq_nil_iff.mp h.split.symm).1 h.valid.ne_nil
  | skip skipped more =>
    obtain ⟨_, rfl⟩ := skipped.unique h
    exact more
  | lexeme taken more =>
    obtain ⟨rfl, _⟩ := taken.longest.unique h
    cases taken.longest.valid with
    | lexeme hlexeme => exact absurd hlexeme h.valid.not_lexeme

theorem Taken.splits_iff {kind : Token.Kind} (h : Taken text kind piece rest) :
    Splits text lexemes ↔
      ∃ more, lexemes = (kind, piece) :: more ∧ Splits rest more := by
  constructor
  · intro hsplits
    cases hsplits with
    | nil => exact absurd (List.append_eq_nil_iff.mp h.longest.split.symm).1 h.longest.valid.ne_nil
    | skip skipped more =>
      obtain ⟨rfl, _⟩ := skipped.unique h.longest
      cases h.longest.valid with
      | lexeme hlexeme => exact absurd hlexeme skipped.valid.not_lexeme
    | lexeme taken more =>
      obtain ⟨rfl, rfl⟩ := taken.longest.unique h.longest
      cases h.longest.valid with
      | lexeme hlexeme =>
        cases taken.longest.valid with
        | lexeme hlexeme' =>
          obtain rfl := hlexeme'.kind_unique hlexeme
          exact ⟨_, rfl, more⟩
  · rintro ⟨more, rfl, hmore⟩
    exact .lexeme h hmore

theorem longest_blank (h : Lexer.isSpace c = true) : Longest (c :: cs) none [c] cs := by
  refine ⟨rfl, .blank h, ?_⟩
  intro kind' piece' hpiece hprefix
  have hshape := hpiece.shape_of_prefix hprefix
  rw [front_of_isSpace h] at hshape
  exact Nat.le_of_eq hshape.2

theorem longest_comment : Longest ('/' :: '/' :: cs) none
    ('/' :: '/' :: cs.takeWhile (· ≠ '\n')) (cs.dropWhile (· ≠ '\n')) := by
  refine ⟨by simp, .comment ?_, ?_⟩
  · intro hnewline
    have hall := List.all_eq_true.mp (List.all_takeWhile (l := cs) (p := (· ≠ '\n'))) _ hnewline
    simp at hall
  · intro kind' piece' hpiece hprefix
    rcases hpiece.shape_of_prefix hprefix with ⟨_, _, hlisted⟩ | ⟨_, comment, rfl, hcomment⟩
    · obtain ⟨d, piece', rfl⟩ := List.exists_cons_of_ne_nil hpiece.ne_nil
      have hlength := (symbols_symbols _ hlisted).2.2
      simp only [String.toList_ofList, List.length_cons] at hlength ⊢
      omega
    · simp only [List.cons_prefix_cons, true_and] at hprefix
      simp only [List.length_cons, Nat.add_le_add_iff_right]
      refine length_le_takeWhile hprefix fun d hd => ?_
      have hne : d ≠ '\n' := by
        rintro rfl
        exact hcomment hd
      simpa using hne

theorem not_splits_point {more : List Char} : ¬Splits ('.' :: more) lexemes := by
  have hnone : ∀ kind piece, Piece kind piece → ¬piece <+: '.' :: more := by
    intro kind piece hpiece hprefix
    obtain ⟨d, piece, rfl⟩ := List.exists_cons_of_ne_nil hpiece.ne_nil
    obtain ⟨rfl, _⟩ := List.cons_prefix_cons.mp hprefix
    rcases hpiece.shape '.' rfl with ⟨_, _, hlisted⟩ | ⟨_, _, htext, _⟩
    · exact (symbols_fronts _ hlisted).2 (by simp)
    · cases htext
  intro h
  cases h with
  | skip skipped more => exact hnone _ _ skipped.valid ⟨_, skipped.split.symm⟩
  | lexeme taken more =>
    exact hnone _ _ taken.longest.valid ⟨_, taken.longest.split.symm⟩

/-- Where the lexer fails the text cannot be cut. -/
theorem not_splits_of_reads {m : Munch} (hreads : Reads (c :: cs) m) (hkind : m.kind = none)
    (hspace : Lexer.isSpace c = false) (hcomment : ¬(c = '/' ∧ cs.head? = some '/')) :
    ¬Splits (c :: cs) lexemes := by
  intro h
  cases h with
  | lexeme taken more =>
    simp only [Reads, hkind] at hreads
    obtain ⟨after, hafter⟩ := List.head?_eq_some_iff.mp (hreads _ _ _ taken)
    rw [hafter] at more
    exact not_splits_point more
  | @skip _ piece rest _ skipped more =>
    have hsplit := skipped.split
    cases skipped.valid with
    | blank hblank =>
      obtain ⟨rfl, _⟩ := List.cons.inj hsplit
      rw [hspace] at hblank
      cases hblank
    | comment _ =>
      obtain ⟨rfl, rfl⟩ := List.cons.inj hsplit
      exact hcomment ⟨rfl, rfl⟩

/-! ### Runs of the lexer -/

open Lexer

/-- What is left of a text behind blanks and comments is cut like the text. -/
theorem splits_skipFrom (comment : Bool) {l : Lexer} (h : l.rest = cs) :
    Splits (skipFrom comment l cs).rest lexemes ↔
      Splits (if comment then cs.dropWhile (· ≠ '\n') else cs) lexemes := by
  fun_induction skipFrom comment l cs with
  | case1 comment l => cases comment <;> simp [h]
  | case2 l c cs ih =>
    rw [ih rfl]
    by_cases hnewline : c = '\n'
    · simp [hnewline, (longest_blank (c := '\n') rfl).splits_iff]
    · simp [hnewline]
  | case3 l comment c cs hcomment hspace ih =>
    rw [ih rfl]
    simp [hcomment, (longest_blank hspace).splits_iff]
  | case4 l comment c cs hcomment hspace hslashes ih =>
    obtain ⟨rfl, hhead⟩ := hslashes
    obtain ⟨rest, rfl⟩ := List.head?_eq_some_iff.mp hhead
    rw [ih rfl]
    simp [hcomment, longest_comment.splits_iff]
  | case5 l comment c cs hcomment hspace hslashes => simp [h, hcomment]

/-- Behind blanks and comments there is neither of them, and the text is not longer. -/
theorem rest_skipFrom (comment : Bool) {l : Lexer} (h : l.rest = cs) :
    (skipFrom comment l cs).rest.length ≤ cs.length ∧
      ∀ c rest, (skipFrom comment l cs).rest = c :: rest →
        isSpace c = false ∧ ¬(c = '/' ∧ rest.head? = some '/') := by
  fun_induction skipFrom comment l cs with
  | case1 comment l => simp [h]
  | case2 l c cs ih => exact ⟨Nat.le_succ_of_le (ih rfl).1, (ih rfl).2⟩
  | case3 l comment c cs hcomment hspace ih => exact ⟨Nat.le_succ_of_le (ih rfl).1, (ih rfl).2⟩
  | case4 l comment c cs hcomment hspace hslashes ih =>
    exact ⟨Nat.le_succ_of_le (ih rfl).1, (ih rfl).2⟩
  | case5 l comment c cs hcomment hspace hslashes =>
    refine ⟨Nat.le_of_eq (by rw [h]), ?_⟩
    intro d rest hrest
    obtain ⟨rfl, rfl⟩ := List.cons.inj (h.symm.trans hrest)
    exact ⟨by simpa using hspace, hslashes⟩

/-- What a token read off a text tells about the cuts of that text. -/
inductive Next (l : Lexer) : Except Diagnostic Token × Lexer → Prop
  | ended {line : Int} {l' : Lexer} (only : ∀ lexemes, Splits l.rest lexemes ↔ lexemes = []) :
      Next l (.ok (.endOfInput line), l')
  | lexeme {t : Token} {l' : Lexer} (inner : t.kind ≠ .endOfInput) (kept : l'.kept = [])
      (shorter : l'.rest.length < l.rest.length)
      (first : ∀ lexemes, Splits l.rest lexemes ↔
        ∃ more, lexemes = (t.kind, t.text.toList) :: more ∧ Splits l'.rest more) :
      Next l (.ok t, l')
  | failed {d : Diagnostic} {l' : Lexer} (none : ∀ lexemes, ¬Splits l.rest lexemes) :
      Next l (.error d, l')

theorem next_next {l : Lexer} (hkept : l.kept = []) : Next l l.next := by
  have hskip : l.skip.kept = [] := kept_skipFrom hkept
  have hsplits : ∀ lexemes, Splits l.rest lexemes ↔ Splits l.skip.rest lexemes :=
    fun lexemes => (splits_skipFrom false rfl).symm
  obtain ⟨hlength, hclear⟩ := rest_skipFrom false (l := l) rfl
  simp only [next]
  split
  · rename_i hrest
    refine .ended fun lexemes => ?_
    rw [hsplits, hrest, splits_nil]
  · rename_i c cs hrest
    obtain ⟨hspace, hcomment⟩ := hclear c cs hrest
    have hreads := munch_reads hspace hcomment
    rw [hskip]
    split
    · rename_i kind hkind
      simp only [Reads, hkind] at hreads
      cases hreads.longest.valid with
      | lexeme hlexeme =>
        refine .lexeme hlexeme.ne_endOfInput rfl ?_ fun lexemes => ?_
        · have hsplit : (skipFrom false l l.rest).rest.length = _ :=
            congrArg List.length (hrest.trans hreads.longest.split)
          have hsome := List.length_pos_iff.mpr hlexeme.ne_nil
          rw [List.length_append] at hsplit
          exact Nat.lt_of_lt_of_le (by dsimp only; omega) hlength
        · rw [hsplits, hrest, hreads.splits_iff]
          simp
    · rename_i hkind
      refine .failed fun lexemes => ?_
      rw [hsplits, hrest]
      exact not_splits_of_reads hreads hkind hspace hcomment

/-- A token as the lexical grammar sees it. -/
def view (t : Token) : Token.Kind × List Char :=
  (t.kind, t.text.toList)

theorem tokens_splits {fuel : Nat} {l : Lexer} (hkept : l.kept = []) (hfuel : l.rest.length < fuel) :
    (∀ lexemes, Splits l.rest lexemes → ∃ ts, tokens fuel l = .ok ts ∧
      ts.map view = lexemes ++ [(.endOfInput, Token.Kind.endMarker.toList)]) ∧
    ∀ ts, tokens fuel l = .ok ts → ∃ lexemes, Splits l.rest lexemes := by
  induction fuel generalizing l with
  | zero => omega
  | succ fuel ih =>
    have hnext := next_next hkept
    simp only [tokens]
    generalize l.next = result at hnext
    cases hnext with
    | ended only =>
      refine ⟨?_, fun _ _ => ⟨[], (only []).mpr rfl⟩⟩
      intro lexemes hsplits
      obtain rfl := (only lexemes).mp hsplits
      exact ⟨[_], if_pos rfl, rfl⟩
    | @lexeme t l' inner kept shorter first =>
      obtain ⟨hcomplete, hsound⟩ := ih kept (by omega)
      simp only [inner, if_false]
      constructor
      · intro lexemes hsplits
        obtain ⟨more, rfl, hmore⟩ := (first lexemes).mp hsplits
        obtain ⟨ts, hts, hview⟩ := hcomplete more hmore
        exact ⟨t :: ts, by rw [hts], by rw [List.map_cons, hview]; rfl⟩
      · intro ts hts
        split at hts
        · rename_i ts' hts'
          obtain ⟨more, hmore⟩ := hsound ts' hts'
          exact ⟨_, (first _).mpr ⟨more, rfl, hmore⟩⟩
        · cases hts
    | failed none => exact ⟨fun lexemes hsplits => absurd hsplits (none lexemes), by simp⟩

/-- The lexer accepts the texts that can be cut into pieces, and its tokens are the lexemes of the
cut with the end of the input behind them. -/
theorem tokenize_splits (source : String) :
    ((∃ ts, tokenize source = .ok ts) ↔ ∃ lexemes, Splits source.toList lexemes) ∧
      ∀ ts lexemes, tokenize source = .ok ts → Splits source.toList lexemes →
        ts.map (fun t => (t.kind, t.text.toList)) =
          lexemes ++ [(.endOfInput, Token.Kind.endMarker.toList)] := by
  obtain ⟨hcomplete, hsound⟩ :=
    tokens_splits (l := .ofString source) rfl (Nat.lt_succ_self source.toList.length)
  refine ⟨⟨?_, ?_⟩, ?_⟩
  · rintro ⟨ts, hts⟩
    exact hsound ts hts
  · rintro ⟨lexemes, hsplits⟩
    obtain ⟨ts, hts, _⟩ := hcomplete lexemes hsplits
    exact ⟨ts, hts⟩
  · intro ts lexemes hts hsplits
    obtain ⟨ts', hts', hview⟩ := hcomplete lexemes hsplits
    obtain rfl : ts = ts' := Except.ok.inj (hts.symm.trans hts')
    exact hview

/-- A word with a keyword in front, a division, a number and a comment that ends the text; and a
number with a letter behind it. -/
theorem tokenize_splits_samples :
    Splits "if1 / 2.5//1x".toList
        [(.identifier, "if1".toList), (.slash, "/".toList), (.floatLiteral, "2.5".toList)] ∧
      ∀ lexemes, ¬Splits "1x".toList lexemes := by
  constructor
  · have hts : tokenize "if1 / 2.5//1x" =
        .ok [⟨.identifier, "if1", 1⟩, ⟨.slash, "/", 1⟩, ⟨.floatLiteral, "2.5", 1⟩,
          .endOfInput 1] := by
      rfl
    obtain ⟨lexemes, hsplits⟩ := (tokenize_splits _).1.mp ⟨_, hts⟩
    have hview := (tokenize_splits _).2 _ _ hts hsplits
    have hlexemes : [(.identifier, "if1".toList), (.slash, "/".toList),
        (.floatLiteral, "2.5".toList)] = lexemes := List.append_cancel_right hview
    rwa [hlexemes]
  · intro lexemes hsplits
    have hts : tokenize "1x" = .error { cause := .malformedToken "1x", line := 1 } := by rfl
    obtain ⟨ts, hok⟩ := (tokenize_splits _).1.mpr ⟨lexemes, hsplits⟩
    rw [hts] at hok
    cases hok

end DuckLang.Lexical
