import DuckLang.Text.Blank
import DuckLang.Text.Lines
import DuckLang.Text.Split
import Mathlib.Data.List.Basic
import Mathlib.Data.List.TakeWhile

/-! Texts cut into lines, into words and at marks, told without the way they are read: the lines lie
between newlines, the words between blanks, and a mark cuts a text where no shorter front has it
behind itself. -/

namespace DuckLang.Text

/-! ### Blanks at the ends -/

/-- A stretch of nothing but blanks. -/
def IsGap (cs : List Char) : Prop :=
  ∀ c ∈ cs, isBlank c = true

theorem dropBlanks_gap {gap cs : List Char} (h : IsGap gap) :
    dropBlanks (gap ++ cs) = dropBlanks cs :=
  List.dropWhile_append_of_pos h

theorem dropBlanks_eq_nil {gap : List Char} (h : IsGap gap) : dropBlanks gap = [] :=
  List.dropWhile_eq_nil_iff.mpr h

theorem dropBlanks_eq_self {cs : List Char} (h : ∀ c ∈ cs.head?, isBlank c = false) :
    dropBlanks cs = cs := by
  cases cs with
  | nil => rfl
  | cons c cs => exact List.dropWhile_cons_of_neg (by simp [h c rfl])

theorem exists_dropBlanks (cs : List Char) : ∃ gap, IsGap gap ∧ cs = gap ++ dropBlanks cs :=
  ⟨cs.takeWhile isBlank, fun _ hc => (List.all_eq_true.mp List.all_takeWhile) _ hc,
    List.takeWhile_append_dropWhile.symm⟩

/-- What is trimmed away at the end is blank. -/
theorem exists_trimEnd (cs : List Char) :
    ∃ right, IsGap right ∧ dropBlanks cs = trimChars cs ++ right := by
  obtain ⟨right, hright, hrest⟩ := exists_dropBlanks (dropBlanks cs).reverse
  refine ⟨right.reverse, fun c hc => hright c (List.mem_reverse.mp hc), ?_⟩
  rw [trimChars, ← List.reverse_append, ← hrest, List.reverse_reverse]

/-- What is trimmed away on either side is blank. -/
theorem exists_trimChars (cs : List Char) :
    ∃ left right, IsGap left ∧ IsGap right ∧ cs = left ++ trimChars cs ++ right := by
  obtain ⟨left, hleft, hcs⟩ := exists_dropBlanks cs
  obtain ⟨right, hright, hrest⟩ := exists_trimEnd cs
  refine ⟨left, right, hleft, hright, ?_⟩
  rw [List.append_assoc, ← hrest]
  exact hcs

theorem head?_trimChars (cs : List Char) : (trimChars cs).head? = (dropBlanks cs).head? := by
  obtain ⟨right, hright, hrest⟩ := exists_trimEnd cs
  cases htrim : trimChars cs with
  | cons c rest => rw [hrest, htrim]; rfl
  | nil =>
    -- nothing is left, so the first character that is not blank is none
    rw [htrim, List.nil_append] at hrest
    have hfixed : dropBlanks (dropBlanks cs) = dropBlanks cs := by
      refine dropBlanks_eq_self fun c hc => ?_
      have hnot := List.head?_dropWhile_not isBlank cs
      rwa [← dropBlanks, hc] at hnot
    have hnone := dropBlanks_eq_nil hright
    rw [← hrest, hfixed] at hnone
    rw [hnone, List.head?_nil]

/-- A text that neither starts nor ends with a blank is what is left of it between blanks. -/
theorem trimChars_eq {left cs right : List Char} (hleft : IsGap left) (hright : IsGap right)
    (hhead : ∀ c ∈ cs.head?, isBlank c = false) (hlast : ∀ c ∈ cs.getLast?, isBlank c = false) :
    trimChars (left ++ cs ++ right) = cs := by
  have hgap : IsGap right.reverse := fun c hc => hright c (List.mem_reverse.mp hc)
  rw [List.append_assoc, trimChars, dropBlanks_gap hleft]
  cases cs with
  | nil =>
    rw [List.nil_append, dropBlanks_eq_nil hright]
    rfl
  | cons c cs =>
    have hfront : dropBlanks (c :: cs ++ right) = c :: cs ++ right :=
      dropBlanks_eq_self (by simpa using hhead)
    have hback : dropBlanks (c :: cs).reverse = (c :: cs).reverse :=
      dropBlanks_eq_self (by rwa [List.head?_reverse])
    rw [hfront, List.reverse_append, dropBlanks_gap hgap, hback, List.reverse_reverse]

/-! ### Words -/

theorem modifyHead_nil (parts : List (List Char)) :
    parts.modifyHead (([] : List Char).reverse ++ ·) = parts := by
  cases parts <;> rfl

/-- A character that is held stands in front of the first part. -/
theorem modifyHead_cons (c : Char) (held : List Char) (parts : List (List Char)) :
    parts.modifyHead ((c :: held).reverse ++ ·) =
      (parts.modifyHead (List.cons c)).modifyHead (held.reverse ++ ·) := by
  cases parts <;> simp

theorem wordsAfter_nil (word : List Char) :
    wordsAfter word [] = if word = [] then [] else [word.reverse] := by
  cases word <;> rfl

theorem wordsAfter_cons (word : List Char) (c : Char) (cs : List Char) :
    wordsAfter word (c :: cs) =
      if isBlank c then (if word = [] then wordsAfter [] cs else word.reverse :: wordsAfter [] cs)
      else wordsAfter (c :: word) cs := by
  cases word <;> rfl

theorem wordsAfter_eq (word cs : List Char) :
    wordsAfter word cs =
      ((cs.splitOnP isBlank).modifyHead (word.reverse ++ ·)).filter (· ≠ []) := by
  induction cs generalizing word with
  | nil => by_cases hword : word = [] <;> simp [wordsAfter_nil, hword]
  | cons c cs ih =>
    rw [wordsAfter_cons, List.splitOnP_cons_eq_if_modifyHead]
    by_cases hc : isBlank c = true
    · have hrest := ih []
      rw [modifyHead_nil] at hrest
      rw [if_pos hc, if_pos hc, hrest]
      by_cases hword : word = [] <;> simp [hword]
    · rw [if_neg hc, if_neg hc, ← modifyHead_cons, ← ih]

/-- The words of a text are what stands between its blanks. -/
theorem words_eq (cs : List Char) : words cs = (cs.splitOnP isBlank).filter (· ≠ []) := by
  rw [words, wordsAfter_eq]
  cases cs.splitOnP isBlank <;> simp

theorem words_append_gap {cs gap : List Char} (h : IsGap gap) : words (cs ++ gap) = words cs := by
  induction gap generalizing cs with
  | nil => rw [List.append_nil]
  | cons c gap ih =>
    obtain ⟨hc, hgap⟩ := List.forall_mem_cons.mp h
    have hnone : words gap = [] := @ih [] hgap
    rw [words_eq, List.splitOnP_append_cons _ _ hc, List.filter_append, ← words_eq, ← words_eq,
      hnone, List.append_nil]

theorem splitOnP_intercalate {words : List (List Char)}
    (h : ∀ word ∈ words, ∀ c ∈ word, isBlank c = false) (hne : words ≠ []) :
    ([' '].intercalate words).splitOnP isBlank = words := by
  induction words with
  | nil => exact absurd rfl hne
  | cons word words ih =>
    obtain ⟨hword, hwords⟩ := List.forall_mem_cons.mp h
    cases words with
    | nil => simpa using List.splitOnP_eq_singleton hword
    | cons next words =>
      rw [List.intercalate_cons_cons, List.append_assoc, List.singleton_append,
        List.splitOnP_append_cons_of_forall_mem hword ' ' (by decide), ih hwords (by simp)]

/-- What stands between the places where a text is cut is part of it and cut nowhere. -/
theorem mem_of_splitOnP {cut : Char → Bool} {cs part : List Char} (h : part ∈ cs.splitOnP cut) :
    ∀ c ∈ part, c ∈ cs ∧ cut c = false := by
  induction cs generalizing part with
  | nil =>
    obtain rfl := List.mem_singleton.mp h
    simp
  | cons d cs ih =>
    rw [List.splitOnP_cons_eq_if_modifyHead] at h
    by_cases hd : cut d = true
    · rw [if_pos hd, List.mem_cons] at h
      rcases h with rfl | h
      · simp
      · exact fun c hc => ⟨List.mem_cons_of_mem _ (ih h c hc).1, (ih h c hc).2⟩
    · rw [if_neg hd] at h
      cases hparts : cs.splitOnP cut with
      | nil => simp [hparts] at h
      | cons first parts =>
        rw [hparts, List.modifyHead_cons, List.mem_cons] at h
        rcases h with rfl | h
        · intro c hc
          rcases List.mem_cons.mp hc with rfl | hc
          · exact ⟨List.mem_cons_self, by simpa using hd⟩
          · have hfirst := ih (by rw [hparts]; exact List.mem_cons_self) c hc
            exact ⟨List.mem_cons_of_mem _ hfirst.1, hfirst.2⟩
        · intro c hc
          have hpart := ih (by rw [hparts]; exact List.mem_cons_of_mem _ h) c hc
          exact ⟨List.mem_cons_of_mem _ hpart.1, hpart.2⟩

theorem mem_intercalate {c d : Char} {parts : List (List Char)}
    (h : c ∈ [d].intercalate parts) : c = d ∨ ∃ part ∈ parts, c ∈ part := by
  induction parts with
  | nil => simp at h
  | cons part parts ih =>
    cases parts with
    | nil => exact .inr ⟨part, by simp, by simpa using h⟩
    | cons next parts =>
      rw [List.intercalate_cons_cons, List.mem_append, List.mem_append, List.mem_singleton] at h
      rcases h with (h | h) | h
      · exact .inr ⟨part, by simp, h⟩
      · exact .inl h
      · rcases ih h with hd | ⟨other, hother, hc⟩
        · exact .inl hd
        · exact .inr ⟨other, List.mem_cons_of_mem _ hother, hc⟩

/-- Words that are written with one space between them are read again. -/
theorem words_intercalate {words : List (List Char)}
    (h : ∀ word ∈ words, word ≠ [] ∧ ∀ c ∈ word, isBlank c = false) :
    Text.words (' ' :: [' '].intercalate words) = words := by
  have hspace : ∀ cs : List Char, Text.words (' ' :: cs) = Text.words cs := fun cs => rfl
  rw [hspace, words_eq]
  cases words with
  | nil => simp
  | cons word words =>
    rw [splitOnP_intercalate (fun w hw => (h w hw).2) (by simp), List.filter_eq_self]
    exact fun w hw => by simp [(h w hw).1]

/-! ### Lines -/

/-- Between its newlines a text has its stretches, and behind the last of them perhaps nothing. -/
theorem exists_stretches (held cs : List Char) : ∃ tail, (tail = [] ∨ tail = [[]]) ∧
    (cs.splitOn '\n').modifyHead (held.reverse ++ ·) = stretchesAfter held cs ++ tail := by
  induction cs generalizing held with
  | nil =>
    cases held with
    | nil => exact ⟨[[]], .inr rfl, rfl⟩
    | cons c held => exact ⟨[], .inl rfl, by simp [stretchesAfter]⟩
  | cons c cs ih =>
    have hcons : (c :: cs).splitOn '\n' =
        if c = '\n' then [] :: cs.splitOn '\n' else (cs.splitOn '\n').modifyHead (List.cons c) := by
      simp [List.splitOn_eq_splitOnP, List.splitOnP_cons_eq_if_modifyHead]
    by_cases hc : c = '\n'
    · obtain ⟨tail, htail, heq⟩ := ih []
      rw [modifyHead_nil] at heq
      refine ⟨tail, htail, ?_⟩
      rw [hcons, if_pos hc, heq]
      cases held <;> simp [stretchesAfter, hc]
    · obtain ⟨tail, htail, heq⟩ := ih (c :: held)
      refine ⟨tail, htail, ?_⟩
      rw [hcons, if_neg hc, ← modifyHead_cons, heq]
      cases held <;> simp [stretchesAfter, hc]

/-- Each character takes a byte at least. -/
theorem length_le_size (cs : List Char) : cs.length ≤ Utf8.size (String.ofList cs) := by
  induction cs with
  | nil => exact Nat.zero_le _
  | cons c cs ih =>
    have hpos := c.utf8Size_pos
    rw [Utf8.size] at ih ⊢
    rw [← List.singleton_append, String.ofList_append, String.utf8ByteSize_append,
      List.singleton_append, List.length_cons, ← String.singleton_eq_ofList,
      String.utf8ByteSize_singleton]
    omega

/-- A carriage return at the end of a line is blank. -/
theorem exists_dropReturn (line : List Char) :
    ∃ gap, IsGap gap ∧ line = dropReturn line ++ gap := by
  rw [dropReturn]
  split
  · rename_i hlast
    refine ⟨['\r'], ?_, (List.dropLast_append_getLast? _ hlast).symm⟩
    rintro c hc
    obtain rfl := List.mem_singleton.mp hc
    rfl
  · exact ⟨[], by simp [IsGap], (List.append_nil _).symm⟩

/-- Of the lines that are read, those that say something are what stands between newlines, up to the
first stretch that is too long. -/
theorem filter_linesOf {speaks : List Char → Bool} (hnil : speaks [] = false)
    (hreturn : ∀ line, speaks (dropReturn line) = speaks line) (cs : List Char) :
    (linesOf cs).filter speaks =
      (((cs.splitOn '\n').takeWhile fitsLine).filter speaks).map dropReturn := by
  obtain ⟨tail, htail, heq⟩ := exists_stretches [] cs
  rw [modifyHead_nil] at heq
  have hspeaks : speaks ∘ dropReturn = speaks := funext hreturn
  have hfilter : ((stretchesAfter [] cs ++ tail).takeWhile fitsLine).filter speaks =
      ((stretchesAfter [] cs).takeWhile fitsLine).filter speaks := by
    rcases htail with rfl | rfl
    · rw [List.append_nil]
    · rw [List.takeWhile_append]
      split
      · rename_i hall
        have hself : (stretchesAfter [] cs).takeWhile fitsLine = stretchesAfter [] cs :=
          (List.takeWhile_prefix _).eq_of_length hall
        have hfits : fitsLine [] = true := by decide
        simp [hself, hfits, hnil]
      · rfl
  rw [linesOf, List.filter_map, hspeaks, heq, hfilter]

/-! ### Marks -/

/-- The first place where a mark cuts a text: no shorter front has the mark behind itself. -/
def FirstCut (mark line before after : List Char) : Prop :=
  line = before ++ mark ++ after ∧
    ∀ front rest, line = front ++ mark ++ rest → before.length ≤ front.length

theorem FirstCut.unique {mark line before after before' after' : List Char}
    (h : FirstCut mark line before after) (h' : FirstCut mark line before' after') :
    before = before' ∧ after = after' := by
  have hlength := Nat.le_antisymm (h.2 _ _ h'.1) (h'.2 _ _ h.1)
  have heq := h.1.symm.trans h'.1
  rw [List.append_assoc, List.append_assoc] at heq
  obtain ⟨rfl, hrest⟩ := List.append_inj heq hlength
  exact ⟨rfl, List.append_cancel_left hrest⟩

/-- A character cuts a text first where it is not in front of itself. -/
theorem firstCut_singleton {c : Char} {line before after : List Char} :
    FirstCut [c] line before after ↔ line = before ++ [c] ++ after ∧ c ∉ before := by
  refine and_congr_right ?_
  rintro rfl
  constructor
  · intro hfirst hmem
    obtain ⟨front, rest, rfl⟩ := List.append_of_mem hmem
    have hlength := hfirst front (rest ++ c :: after) (by simp)
    simp only [List.length_append, List.length_cons] at hlength
    omega
  · intro hnot front rest hcut
    by_contra hlt
    rw [List.append_assoc, List.append_assoc] at hcut
    rcases List.append_eq_append_iff.mp hcut with ⟨more, rfl, _⟩ | ⟨more, rfl, hrest⟩
    · simp at hlt
    · cases more with
      | nil => simp at hlt
      | cons d more =>
        obtain ⟨rfl, _⟩ := List.cons.inj hrest
        simp at hnot

theorem splitAt?_cases {mark : List Char} (hmark : mark ≠ []) (line : List Char) :
    (splitAt? mark line = none ∧ ¬mark <:+: line) ∨
      ∃ before after, splitAt? mark line = some (before, after) ∧
        FirstCut mark line before after := by
  induction line with
  | nil => exact .inl ⟨rfl, by simpa using hmark⟩
  | cons c cs ih =>
    simp only [splitAt?]
    split
    · rename_i hprefix
      obtain ⟨rest, hrest⟩ := List.isPrefixOf_iff_prefix.mp hprefix
      refine .inr ⟨[], rest, ?_, ?_, fun _ _ _ => Nat.zero_le _⟩
      · rw [← hrest, List.drop_left]
      · rw [List.nil_append, hrest]
    · rename_i hprefix
      -- a cut of the whole text is not at its front, so it is one of the rest
      have hlater : ∀ {front rest}, c :: cs = front ++ mark ++ rest →
          ∃ front', front = c :: front' ∧ cs = front' ++ mark ++ rest := by
        intro front rest hcut
        cases front with
        | nil => exact absurd (List.isPrefixOf_iff_prefix.mpr ⟨rest, hcut.symm⟩) hprefix
        | cons d front =>
          obtain ⟨rfl, hrest⟩ := List.cons.inj hcut
          exact ⟨front, rfl, hrest⟩
      rcases ih with ⟨hnone, hnot⟩ | ⟨before, after, hsome, heq, hfirst⟩
      · refine .inl ⟨by rw [hnone]; rfl, ?_⟩
        rintro ⟨front, rest, hcut⟩
        obtain ⟨front', _, hcut⟩ := hlater hcut.symm
        exact hnot ⟨front', rest, hcut.symm⟩
      · refine .inr ⟨c :: before, after, by rw [hsome]; rfl, by rw [heq]; rfl, ?_⟩
        intro front rest hcut
        obtain ⟨front', rfl, hrest⟩ := hlater hcut
        exact Nat.succ_le_succ (hfirst _ _ hrest)

theorem splitAt?_eq_none {mark line : List Char} (hmark : mark ≠ []) :
    splitAt? mark line = none ↔ ¬mark <:+: line := by
  rcases splitAt?_cases hmark line with ⟨hnone, hnot⟩ | ⟨before, after, hsome, heq, _⟩
  · simp [hnone, hnot]
  · simp only [hsome, reduceCtorEq, false_iff, Classical.not_not]
    exact ⟨before, after, heq.symm⟩

theorem splitAt?_eq_some {mark line before after : List Char} (hmark : mark ≠ []) :
    splitAt? mark line = some (before, after) ↔ FirstCut mark line before after := by
  rcases splitAt?_cases hmark line with ⟨hnone, hnot⟩ | ⟨before', after', hsome, hcut⟩
  · simp only [hnone, reduceCtorEq, false_iff]
    exact fun h => hnot ⟨before, after, h.1.symm⟩
  · rw [hsome]
    constructor
    · rintro ⟨⟩
      exact hcut
    · intro h
      obtain ⟨rfl, rfl⟩ := hcut.unique h
      rfl

/-- A mark without blanks that cuts a text between gaps cuts what is between them. -/
theorem cut_between {left cs right mark front rest : List Char} (hleft : IsGap left)
    (hright : IsGap right) (hmark : mark ≠ []) (hplain : ∀ c ∈ mark, isBlank c = false)
    (h : left ++ cs ++ right = front ++ mark ++ rest) :
    ∃ front' rest', front = left ++ front' ∧ rest = rest' ++ right ∧
      cs = front' ++ mark ++ rest' := by
  have hapart : ∀ {gap}, IsGap gap → ∀ {c}, c ∈ mark → c ∉ gap := by
    intro gap hgap c hc hmem
    simpa [hplain c hc] using hgap c hmem
  obtain ⟨m, ms, rfl⟩ := List.exists_cons_of_ne_nil hmark
  -- the mark starts behind the left gap
  obtain ⟨front', rfl, hcut⟩ : ∃ front', front = left ++ front' ∧
      cs ++ right = front' ++ (m :: ms) ++ rest := by
    rw [List.append_assoc, List.append_assoc] at h
    rcases List.append_eq_append_iff.mp h with ⟨front', rfl, hrest⟩ | ⟨gap, rfl, hrest⟩
    · exact ⟨front', rfl, by rw [hrest, List.append_assoc]⟩
    · cases gap with
      | nil => exact ⟨[], by simp, by simpa using hrest.symm⟩
      | cons d gap =>
        obtain ⟨rfl, _⟩ := List.cons.inj hrest
        exact absurd (by simp) (hapart hleft (c := m) (by simp))
  -- and ends before the right one
  rcases List.append_eq_append_iff.mp hcut with ⟨gap, hgap, hrest⟩ | ⟨rest', rfl, rfl⟩
  · rcases List.eq_nil_or_concat gap with rfl | ⟨gap, d, rfl⟩
    · exact ⟨front', [], rfl, by simpa using hrest.symm, by simpa using hgap.symm⟩
    · have hlast : (m :: ms).getLast? = some d := by
        simpa using congrArg List.getLast? hgap
      have hmem := List.mem_of_getLast? hlast
      exact absurd (by simp [hrest]) (hapart hright hmem)
  · exact ⟨front', rest', rfl, rfl, rfl⟩

end DuckLang.Text
