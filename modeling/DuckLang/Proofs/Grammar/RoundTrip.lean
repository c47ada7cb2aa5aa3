import DuckLang.Proofs.Grammar.Reading

/-! Grammars written out.  A production that was read is written as a line that writes it, so the
productions of a grammar, each on a line of its own, are read as that grammar again. -/

namespace DuckLang.Grammar

open Text (IsGap FirstCut)

/-! ### Symbols and words -/

theorem Symbol.IsSpelled.render_eq {word : List Char} {symbol : Symbol}
    (h : symbol.IsSpelled word) : symbol.render.toList = word := by
  cases symbol with
  | terminal name => exact h.1.symm
  | nonterminal name =>
    rw [h.2, Symbol.render]
    simp only [String.toList_append]
    rfl

theorem render_of_forall₂ {words : List (List Char)} {body : List Symbol}
    (h : List.Forall₂ Symbol.IsSpelled words body) :
    body.map (fun symbol => symbol.render.toList) = words := by
  induction h with
  | nil => rfl
  | cons hword _ ih => rw [List.map_cons, hword.render_eq, ih]

/-- The words that stand behind the arrow of a production. -/
def Production.words (p : Production) : List (List Char) :=
  if p.body.isEmpty then [epsilon.toList] else p.body.map fun symbol => symbol.render.toList

theorem Production.toList_render (p : Production) :
    p.render.toList = '<' :: (p.head.toList ++ ['>']) ++ [' '] ++ arrow.toList ++
      ' ' :: [' '].intercalate p.words := by
  have hspace : " ".toList = [' '] := by decide
  have hfront : s!"<{p.head}> {arrow} ".toList =
      '<' :: (p.head.toList ++ ['>']) ++ [' '] ++ arrow.toList ++ [' '] := by
    simp only [String.toList_append, List.append_assoc, List.cons_append]
    rfl
  rw [Production.render, String.toList_append, hfront, String.toList_intercalate, hspace,
    Production.words]
  cases p.body.isEmpty <;> simp [Function.comp_def]

/-! ### Lines -/

theorem ArrowCut.not_mem {line before after : List Char} (h : ArrowCut line before after) :
    '→' ∉ before ∧ ∀ c ∈ before, c ∈ line := by
  rcases h with hcut | ⟨hnot, hcut, _⟩
  · obtain ⟨rfl, hmem⟩ := Text.firstCut_singleton.mp hcut
    exact ⟨hmem, fun c hc => by simp [hc]⟩
  · have hsub : ∀ c ∈ before, c ∈ line := fun c hc => by simp [hcut, hc]
    refine ⟨fun hmem => hnot ?_, hsub⟩
    obtain ⟨front, rest, rfl⟩ := List.append_of_mem (hsub _ hmem)
    exact ⟨front, rest, by simp [arrow]⟩

theorem IsHead.mem {before : List Char} {head : String} (h : IsHead before head) :
    ∀ c ∈ head.toList, c ∈ before := by
  obtain ⟨_, left, right, _, _, rfl⟩ := h
  exact fun c hc => by simp [hc]

/-- The words of a production that was written somewhere. -/
theorem Writes.words {line : List Char} {p : Production} (h : Writes line p) :
    (∀ word ∈ p.words, word ≠ [] ∧ ∀ c ∈ word, Text.isBlank c = false) ∧
      p.words.filter (· ≠ epsilon.toList) = p.body.map fun symbol => symbol.render.toList := by
  obtain ⟨before, after, _, _, hspelled⟩ := h
  have hbody : ∀ word ∈ p.body.map (fun symbol => symbol.render.toList),
      (word ≠ [] ∧ word ≠ epsilon.toList) ∧ ∀ c ∈ word, Text.isBlank c = false := by
    rw [render_of_forall₂ hspelled]
    intro word hword
    obtain ⟨hmem, hword⟩ := List.mem_filter.mp hword
    exact ⟨by simpa using hword, fun c hc => (Text.mem_of_splitOnP hmem c hc).2⟩
  rw [Production.words]
  by_cases hempty : p.body = []
  · simp [hempty, epsilon, Text.isBlank]
  · simp only [List.isEmpty_iff, hempty, if_false]
    refine ⟨fun word hword => ⟨(hbody word hword).1.1, (hbody word hword).2⟩, ?_⟩
    rw [List.filter_eq_self]
    exact fun word hword => by simpa using (hbody word hword).1.2

/-- A production that a line writes is written by its own rendering as well. -/
theorem Writes.render {line : List Char} {p : Production} (h : Writes line p) :
    Writes p.render.toList p := by
  obtain ⟨hwords, hbody⟩ := h.words
  obtain ⟨before, after, hcut, hhead, hspelled⟩ := h
  have harrow : '→' ∉ '<' :: (p.head.toList ++ ['>']) ++ [' '] := by
    have := mt (hhead.mem '→') hcut.not_mem.1
    simpa using this
  refine ⟨'<' :: (p.head.toList ++ ['>']) ++ [' '], ' ' :: [' '].intercalate p.words,
    .inl (Text.firstCut_singleton.mpr ⟨p.toList_render, harrow⟩),
    ⟨hhead.1, [], [' '], by simp [IsGap], by simp [IsGap]; decide, rfl⟩, ?_⟩
  rw [← filter_words, Text.words_intercalate hwords, hbody, render_of_forall₂ hspelled]
  exact hspelled

/-- The rendering of a production has no newline where the line that wrote it had none. -/
theorem Writes.newline_not_mem {line : List Char} {p : Production} (h : Writes line p)
    (hline : '\n' ∉ line) : '\n' ∉ p.render.toList := by
  obtain ⟨hwords, _⟩ := h.words
  obtain ⟨before, after, hcut, hhead, _⟩ := h
  have hname : '\n' ∉ p.head.toList :=
    fun hmem => hline (hcut.not_mem.2 _ (hhead.mem _ hmem))
  have hbody : '\n' ∉ [' '].intercalate p.words := by
    intro hmem
    rcases Text.mem_intercalate hmem with hspace | ⟨word, hword, hmem⟩
    · exact absurd hspace (by decide)
    · exact absurd ((hwords word hword).2 _ hmem) (by decide)
  rw [p.toList_render]
  simp [hname, hbody, arrow]

/-! ### Grammars -/

/-- The text of a grammar: its productions, each on a line of its own. -/
def render (g : Grammar) : String :=
  "\n".intercalate (g.given.map Production.render)

theorem speaks_render (p : Production) : speaks p.render.toList = true := by
  have hbracket : Text.isBlank '<' = false := by decide
  rw [p.toList_render]
  simp [speaks, hbracket]

/-- Where lines stand for productions, each production has its line. -/
theorem exists_line {lines : List (List Char)} {given : List Production}
    (h : List.Forall₂ Reads lines given) {p : Production} (hp : p ∈ given) :
    ∃ line ∈ lines, Reads line p := by
  induction h with
  | nil => cases hp
  | cons hline _ ih =>
    rcases List.mem_cons.mp hp with rfl | hp
    · exact ⟨_, List.mem_cons_self, hline⟩
    · obtain ⟨line, hmem, hreads⟩ := ih hp
      exact ⟨line, List.mem_cons_of_mem _ hmem, hreads⟩

/-- The lines of a text made of short lines. -/
theorem linesRead_intercalate {lines : List String} (hne : lines ≠ [])
    (hnewline : ∀ line ∈ lines, '\n' ∉ line.toList)
    (hshort : ∀ line ∈ lines, Text.Utf8.size line < Text.lineLimit) :
    linesRead ("\n".intercalate lines) = lines.map String.toList := by
  have hmark : "\n".toList = ['\n'] := by decide
  have hfits : ∀ line ∈ lines.map String.toList, Text.fitsLine line = true := by
    simpa [Text.fitsLine] using hshort
  rw [linesRead, String.toList_intercalate, hmark,
    List.splitOn_intercalate '\n' (by simpa using hnewline) (by simpa using hne)]
  exact List.takeWhile_eq_self_iff.mpr hfits

/-- A grammar that was read is read again from its own text, so long as no production of it is too
long for a line. -/
theorem read_render {text : String} {g : Grammar} (hread : read text = .ok g)
    (hshort : ∀ p ∈ g.given, Text.Utf8.size p.render < Text.lineLimit) :
    read g.render = .ok g := by
  obtain ⟨first, rest, hreads, hdefined, rfl⟩ := read_eq_ok.mp hread
  have hgiven := given_ofProductions first rest
  rw [hgiven] at hshort
  -- each production was written by some line of the text
  have hwritten : ∀ p ∈ first :: rest, Reads p.render.toList p ∧ '\n' ∉ p.render.toList := by
    intro p hp
    obtain ⟨line, hline, hreads⟩ := exists_line hreads hp
    have hmem := List.mem_of_mem_filter hline |> (List.takeWhile_sublist _).mem
    have hnewline : '\n' ∉ line := by
      intro hc
      have := (Text.mem_of_splitOnP hmem _ hc).2
      simp at this
    exact ⟨⟨hreads.1.render, hreads.2⟩, hreads.1.newline_not_mem hnewline⟩
  refine read_eq_ok.mpr ⟨first, rest, ?_, hdefined, rfl⟩
  rw [render, hgiven, linesRead_intercalate (by simp)
    (by simpa only [List.forall_mem_map] using fun p hp => (hwritten p hp).2)
    (by simpa only [List.forall_mem_map] using hshort), List.map_map, List.filter_eq_self.mpr,
    List.forall₂_map_left_iff, List.forall₂_same]
  · exact fun p hp => (hwritten p hp).1
  · simp [speaks_render]

/-- Arrows and brackets where they are part of a name or a word. -/
def thickets : String :=
  "<a -> <b> → x→y # -> <> <c>\n<c> -> ε"

theorem read_render_thickets : ∃ g, read thickets = .ok g ∧
    g.render = "<a -> <b> → x→y # -> <> <c>\n<c> → ε" ∧ read g.render = .ok g := by
  have hread : read thickets = .ok (ofProductions
      { head := "a -> <b"
        body := [.terminal "x→y", .terminal "#", .terminal "->", .terminal "<>", .nonterminal "c"] }
      [{ head := "c", body := [] }]) := by rfl
  exact ⟨_, hread, by decide +kernel, read_render hread (by decide +kernel)⟩

end DuckLang.Grammar
