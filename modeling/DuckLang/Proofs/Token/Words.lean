import DuckLang.Proofs.Token.RoundTrip

/-! Words.  A text that is valid as an identifier is read as one word, whatever stands behind it that
does not continue it; the word is an identifier unless it is a keyword. -/

namespace DuckLang.Lexical

open Token.Kind (keywords symbols keyword?)
open Identifier (isStart isPart isValid)

theorem isValid_iff {s : String} :
    isValid s = true ↔
      ∃ c cs, s.toList = c :: cs ∧ isStart c = true ∧ ∀ d ∈ cs, isPart d = true := by
  cases h : s.toList with
  | nil => simp [isValid, h]
  | cons c cs =>
    simp only [isValid, h, Bool.and_eq_true, List.all_eq_true, List.cons.injEq]
    constructor
    · exact fun hvalid => ⟨c, cs, ⟨rfl, rfl⟩, hvalid⟩
    · rintro ⟨_, _, ⟨rfl, rfl⟩, hvalid⟩
      exact hvalid

/-- The tokens of a text that is cut into words: these words and the end of the input. -/
theorem tokenize_words {source : String} {words : List (Token.Kind × String)}
    (h : Splits source.toList (words.map fun word => (word.1, word.2.toList))) :
    ∃ ts line, tokenize source = .ok (ts ++ [.endOfInput line]) ∧
      ts.map (fun t => (t.kind, t.text)) = words := by
  obtain ⟨ts, hts, hview⟩ := (tokens_splits (l := .ofString source) rfl
    (Nat.lt_succ_self source.toList.length)).1 _ h
  obtain ⟨inner, last, rfl, hinner, hlast⟩ := List.map_eq_append_iff.mp hview
  obtain ⟨⟨kind, text, line⟩, rfl, hend⟩ := List.map_eq_singleton_iff.mp hlast
  obtain ⟨rfl, htext⟩ := Prod.mk.inj hend
  obtain rfl := String.toList_injective htext
  refine ⟨inner, line, hts, ?_⟩
  have hwords := congrArg (List.map fun lexeme => (lexeme.1, String.ofList lexeme.2)) hinner
  simpa [view, Function.comp_def] using hwords

theorem Reads.taken {text piece rest : List Char} {kind : Token.Kind} {m : Munch}
    (h : Reads text m) (hm : m = { kind := some kind, taken := piece, rest }) :
    Taken text kind piece rest := by
  rw [hm] at h
  exact h

/-- A word is taken where what stands behind it does not continue it. -/
theorem taken_word {word : String} (h : isValid word = true) {rest : List Char}
    (hrest : rest.head?.any isPart = false) :
    Taken (word.toList ++ rest) ((keyword? word).getD .identifier) word.toList rest := by
  obtain ⟨c, cs, hword, hstart, hparts⟩ := isValid_iff.mp h
  have hall : ∀ d ∈ c :: cs, isPart d = true := by simpa [isPart, hstart] using hparts
  have hreads : Reads (c :: (cs ++ rest)) (munch [] c (cs ++ rest)) :=
    reads_word (front_of_isStart hstart)
  have hmunch : munch [] c (cs ++ rest) =
      { kind := some ((keyword? word).getD .identifier), taken := c :: cs, rest } := by
    have hquote : c ≠ '"' := by rintro rfl; cases hstart
    have hapostrophe : c ≠ '\'' := by rintro rfl; cases hstart
    have htake : (c :: (cs ++ rest)).takeWhile isPart = c :: cs := by
      rw [← List.cons_append, List.takeWhile_append_of_pos hall]
      cases rest with
      | nil => simp
      | cons d rest => rw [List.takeWhile_cons_of_neg (by simpa using hrest), List.append_nil]
    have hdrop : (c :: (cs ++ rest)).dropWhile isPart = rest := by
      rw [← List.cons_append, List.dropWhile_append_of_pos hall]
      cases rest with
      | nil => rfl
      | cons d rest => exact List.dropWhile_cons_of_neg (by simpa using hrest)
    simp only [munch, hquote, hapostrophe, hstart, if_true, if_false, Munch.word, htake, hdrop,
      List.nil_append, ← hword, String.ofList_toList]
  rw [hword]
  exact hreads.taken hmunch

/-- A literal without escapes is taken. -/
theorem taken_plain {body : List Char} (h : ∀ c ∈ body, c ≠ '"' ∧ c ≠ '\n' ∧ c ≠ '\\')
    (rest : List Char) :
    Taken ('"' :: (body ++ '"' :: rest)) .stringLiteral ('"' :: (body ++ ['"'])) rest := by
  have helements : ∀ element ∈ body.map ([·]), Element '"' element := by
    simpa using fun c hc => Element.plain (h c hc)
  have hreads : Reads ('"' :: (body ++ '"' :: rest)) (munch [] '"' (body ++ '"' :: rest)) :=
    reads_string rfl
  refine hreads.taken ?_
  have hbody := stringBody_flatten helements rest
  rw [← List.flatMap_def, List.flatMap_singleton'] at hbody
  rw [munch, if_pos rfl, hbody]
  rfl

theorem Splits.blank {c : Char} {rest : List Char} {lexemes : List (Token.Kind × List Char)}
    (h : Lexer.isSpace c = true) (more : Splits rest lexemes) : Splits (c :: rest) lexemes :=
  .skip (longest_blank h) more

theorem Splits.word (word : String) (h : isValid word = true) {rest : List Char}
    {lexemes : List (Token.Kind × List Char)} (hrest : rest.head?.any isPart = false)
    (more : Splits rest lexemes) :
    Splits (word.toList ++ rest)
      (((keyword? word).getD .identifier, word.toList) :: lexemes) :=
  .lexeme (taken_word h hrest) more

theorem listed_ne_identifier : ∀ pair ∈ keywords ++ symbols, pair.2 ≠ .identifier := by
  decide

theorem Lexeme.isValid {s : String} (h : Lexeme .identifier s.toList) :
    Identifier.isValid s = true ∧ keyword? s = none := by
  generalize hcs : s.toList = cs at h
  cases h with
  | keyword listed => exact absurd rfl (listed_ne_identifier _ (List.mem_append_left _ listed))
  | symbol listed => exact absurd rfl (listed_ne_identifier _ (List.mem_append_right _ listed))
  | identifier start parts free =>
    rw [← hcs, String.ofList_toList] at free
    exact ⟨isValid_iff.mpr ⟨_, _, hcs, start, parts⟩, keyword?_eq_none free⟩

theorem isValid_of_keyword {s : String} {kind : Token.Kind} (h : keyword? s = some kind) :
    isValid s = true := by
  have hkeywords : ∀ pair ∈ keywords, isValid pair.1 = true := by decide
  exact hkeywords _ (Token.Kind.mem_of_lookup h)

/-- A text that is valid as an identifier is read as one word. -/
theorem tokenize_word {s : String} (h : isValid s = true) :
    ∃ line line', tokenize s =
      .ok [⟨(keyword? s).getD .identifier, s, line⟩, .endOfInput line'] := by
  have htaken := @taken_word s h [] rfl
  rw [List.append_nil] at htaken
  generalize (keyword? s).getD .identifier = kind at htaken ⊢
  obtain ⟨ts, line', hts, hwords⟩ := @tokenize_words s [(kind, s)] (.lexeme htaken .nil)
  obtain ⟨⟨_, _, line⟩, rfl, hword⟩ := List.map_eq_singleton_iff.mp hwords
  obtain ⟨rfl, rfl⟩ := Prod.mk.inj hword
  exact ⟨line, line', hts⟩

/-- The word is an identifier unless it is a keyword. -/
theorem tokenize_identifier {s : String} :
    (∃ line line', tokenize s = .ok [⟨.identifier, s, line⟩, .endOfInput line']) ↔
      isValid s = true ∧ keyword? s = none := by
  constructor
  · rintro ⟨line, line', htokens⟩
    obtain ⟨lexemes, hsplits, hview⟩ := view_of_tokenize htokens
    have hlexemes : [_] = lexemes := List.append_inj_left' hview rfl
    exact (hsplits.lexeme_of_mem (.identifier, s.toList) (by simp [← hlexemes, view])).isValid
  · rintro ⟨hvalid, hfree⟩
    have htokens := tokenize_word hvalid
    rwa [hfree] at htokens

end DuckLang.Lexical
