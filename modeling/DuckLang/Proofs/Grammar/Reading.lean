import DuckLang.Proofs.Grammar.Proper
import DuckLang.Proofs.Text.Splitting
import Mathlib.Data.List.Forall2

/-! What a grammar text says.  `Reads` tells which production a line stands for, without the way it is
read; a text is read exactly if each of its lines that speaks stands for one, and then these are the
productions.  A line that is too long ends the reading: what stands behind it is lost, and the
grammar is the one of the lines before. -/

namespace DuckLang.Grammar

open Text (IsGap FirstCut)

/-! ### Lines -/

/-- A cut at the first arrow: at `→` if the line has one, else at `->`. -/
def ArrowCut (line before after : List Char) : Prop :=
  FirstCut arrow.toList line before after ∨
    ¬arrow.toList <:+: line ∧ FirstCut "->".toList line before after

/-- A head in front of an arrow: a name in angle brackets, with nothing but blanks around them. -/
def IsHead (before : List Char) (head : String) : Prop :=
  head ≠ "" ∧ ∃ left right, IsGap left ∧ IsGap right ∧
    before = left ++ '<' :: (head.toList ++ ['>']) ++ right

/-- A word that stands for a symbol: a name in angle brackets is a non-terminal, any other word is a
terminal. -/
def Symbol.IsSpelled (word : List Char) : Symbol → Prop
  | nonterminal name => name ≠ "" ∧ word = '<' :: (name.toList ++ ['>'])
  | terminal name => word = name.toList ∧ ∀ inner ≠ [], word ≠ '<' :: (inner ++ ['>'])

/-- A line that writes a production: its head stands in front of the first arrow, and the words
behind it, but for each `ε`, are its symbols in order. -/
def Writes (line : List Char) (p : Production) : Prop :=
  ∃ before after, ArrowCut line before after ∧ IsHead before p.head ∧
    List.Forall₂ Symbol.IsSpelled
      ((after.splitOnP Text.isBlank).filter fun word => word ≠ [] ∧ word ≠ epsilon.toList) p.body

/-- A line that is read as a production: it writes it, and without the end marker. -/
def Reads (line : List Char) (p : Production) : Prop :=
  Writes line p ∧ .terminal Token.Kind.endMarker ∉ p.body

/-- Whether a line says anything: it is neither blank nor a comment. -/
def speaks (line : List Char) : Bool :=
  (line.dropWhile Text.isBlank).head?.any (· ≠ '#')

/-! ### Words -/

theorem bracketed?_eq_some {word : List Char} {name : String} :
    bracketed? word = some name ↔ name ≠ "" ∧ word = '<' :: (name.toList ++ ['>']) := by
  constructor
  · intro h
    simp only [bracketed?] at h
    split at h
    · rename_i rest
      split at h
      · rename_i hrest
        obtain rfl := Option.some.inj h
        have hsplit := List.dropLast_append_getLast? '>' hrest.2
        have hlength := congrArg List.length hsplit
        simp only [List.length_append, List.length_singleton] at hlength
        refine ⟨fun hempty => ?_, ?_⟩
        · have hnil : rest.dropLast = [] := by simpa using congrArg String.toList hempty
          rw [hnil] at hlength
          have := hrest.1
          simp at hlength
          omega
        · rw [String.toList_ofList, hsplit]
      · cases h
    · cases h
  · rintro ⟨hname, rfl⟩
    have hlength : 0 < name.toList.length := by
      rw [List.length_pos_iff]
      simpa using hname
    simp [bracketed?, hlength]

theorem bracketed?_eq_none {word : List Char} :
    bracketed? word = none ↔ ∀ inner ≠ [], word ≠ '<' :: (inner ++ ['>']) := by
  constructor
  · rintro h inner hinner rfl
    have : bracketed? ('<' :: (inner ++ ['>'])) = some (String.ofList inner) :=
      bracketed?_eq_some.mpr ⟨by simpa using hinner, by rw [String.toList_ofList]⟩
    rw [h] at this
    cases this
  · intro h
    cases hword : bracketed? word with
    | none => rfl
    | some name =>
      obtain ⟨hname, hword⟩ := bracketed?_eq_some.mp hword
      exact absurd hword (h _ (by simpa using hname))

theorem bracketed?_trim {before : List Char} {head : String} :
    bracketed? (Text.trimChars before) = some head ↔ IsHead before head := by
  rw [bracketed?_eq_some]
  constructor
  · rintro ⟨hhead, htrim⟩
    obtain ⟨left, right, hleft, hright, hbefore⟩ := Text.exists_trimChars before
    rw [htrim] at hbefore
    exact ⟨hhead, left, right, hleft, hright, hbefore⟩
  · rintro ⟨hhead, left, right, hleft, hright, rfl⟩
    refine ⟨hhead, Text.trimChars_eq hleft hright ?_ ?_⟩
    · rintro c ⟨⟩
      rfl
    · rw [← List.cons_append, List.getLast?_concat]
      rintro c ⟨⟩
      rfl

/-- Each word spells one symbol. -/
theorem Symbol.isSpelled_iff {word : List Char} {symbol : Symbol} :
    symbol.IsSpelled word ↔
      symbol = ((bracketed? word).map .nonterminal).getD (.terminal (String.ofList word)) := by
  cases hword : bracketed? word with
  | none =>
    have hplain := bracketed?_eq_none.mp hword
    cases symbol with
    | terminal name =>
      have hname : word = name.toList ↔ name = String.ofList word := by
        rw [← String.toList_inj, String.toList_ofList, eq_comm]
      simp only [IsSpelled, hname, Option.map_none, Option.getD_none, terminal.injEq]
      exact and_iff_left hplain
    | nonterminal name =>
      have : ¬(name ≠ "" ∧ word = '<' :: (name.toList ++ ['>'])) := by
        rw [← bracketed?_eq_some, hword]
        simp
      simpa [IsSpelled] using this
  | some inner =>
    obtain ⟨hinner, hinnerWord⟩ := bracketed?_eq_some.mp hword
    cases symbol with
    | terminal name =>
      simp only [IsSpelled, Option.map_some, Option.getD_some, reduceCtorEq, iff_false]
      exact fun h => h.2 _ (by simpa using hinner) hinnerWord
    | nonterminal name =>
      rw [IsSpelled, ← bracketed?_eq_some, hword]
      simp [eq_comm]

theorem readBody_cons {word : List Char} (hword : word ≠ epsilon.toList)
    {words : List (List Char)} {body : List Symbol} :
    readBody (word :: words) = .ok body ↔ ∃ symbol rest, symbol.IsSpelled word ∧
      symbol ≠ .terminal Token.Kind.endMarker ∧ readBody words = .ok rest ∧
      body = symbol :: rest := by
  have hepsilon : String.ofList word ≠ epsilon := by
    rwa [ne_eq, ← String.toList_inj, String.toList_ofList]
  simp only [readBody, if_neg hepsilon, Symbol.isSpelled_iff, exists_and_left, exists_eq_left]
  cases bracketed? word with
  | some inner =>
    simp only [map_eq_ok, Option.map_some, Option.getD_some]
    simp [eq_comm]
  | none =>
    by_cases hend : String.ofList word = Token.Kind.endMarker
    · simp [hend]
    · have hplain : Symbol.terminal (String.ofList word) ≠ .terminal Token.Kind.endMarker := by
        simpa using hend
      simp only [if_neg hend, map_eq_ok, Option.map_none, Option.getD_none, hplain, ne_eq,
        not_false_eq_true, true_and]
      simp [eq_comm]

/-- The words of a body are read as the symbols that they spell. -/
theorem readBody_eq_ok {words : List (List Char)} {body : List Symbol} :
    readBody words = .ok body ↔
      List.Forall₂ Symbol.IsSpelled (words.filter (· ≠ epsilon.toList)) body ∧
        .terminal Token.Kind.endMarker ∉ body := by
  induction words generalizing body with
  | nil =>
    rw [readBody, List.filter_nil, List.forall₂_nil_left_iff, Except.ok.injEq]
    exact ⟨fun h => ⟨h.symm, h ▸ List.not_mem_nil⟩, fun h => h.1.symm⟩
  | cons word words ih =>
    by_cases hword : word = epsilon.toList
    · subst hword
      rw [List.filter_cons_of_neg (by simp), ← ih]
      rfl
    · rw [readBody_cons hword, List.filter_cons_of_pos (by simpa using hword),
        List.forall₂_cons_left_iff]
      constructor
      · rintro ⟨symbol, rest, hspelled, hend, hrest, rfl⟩
        obtain ⟨hsymbols, hends⟩ := ih.mp hrest
        exact ⟨⟨symbol, rest, hspelled, hsymbols, rfl⟩, by simp [hends, Ne.symm hend]⟩
      · rintro ⟨⟨symbol, rest, hspelled, hsymbols, rfl⟩, hend⟩
        rw [List.mem_cons, not_or] at hend
        exact ⟨symbol, rest, hspelled, Ne.symm hend.1, ih.mpr ⟨hsymbols, hend.2⟩, rfl⟩

/-! ### Arrows -/

theorem splitArrow?_eq_some {line before after : List Char} :
    splitArrow? line = some (before, after) ↔ ArrowCut line before after := by
  have harrow : arrow.toList ≠ [] := by decide
  cases hsplit : Text.splitAt? arrow.toList line with
  | none =>
    have hnot := (Text.splitAt?_eq_none harrow).mp hsplit
    rw [show splitArrow? line = Text.splitAt? "->".toList line by rw [splitArrow?, hsplit],
      ArrowCut, Text.splitAt?_eq_some (by decide)]
    simp only [hnot, not_false_eq_true, true_and, iff_or_self]
    exact fun h => absurd ⟨before, after, h.1.symm⟩ hnot
  | some parts =>
    rw [show splitArrow? line = Text.splitAt? arrow.toList line by rw [splitArrow?, hsplit],
      Text.splitAt?_eq_some harrow, ArrowCut, iff_self_or]
    rintro ⟨hnot, _⟩
    rw [(Text.splitAt?_eq_none harrow).mpr hnot] at hsplit
    cases hsplit

/-- Blanks around a line move no arrow. -/
theorem FirstCut.between {left line right mark before after : List Char} (hleft : IsGap left)
    (hright : IsGap right) (hmark : mark ≠ []) (hplain : ∀ c ∈ mark, Text.isBlank c = false) :
    FirstCut mark (left ++ line ++ right) before after ↔
      ∃ before' after', before = left ++ before' ∧ after = after' ++ right ∧
        FirstCut mark line before' after' := by
  constructor
  · rintro ⟨hcut, hfirst⟩
    obtain ⟨before', after', rfl, rfl, rfl⟩ :=
      Text.cut_between hleft hright hmark hplain hcut
    refine ⟨before', after', rfl, rfl, rfl, fun front rest h => ?_⟩
    have := hfirst (left ++ front) (rest ++ right) (by simp [h])
    simpa using this
  · rintro ⟨before', after', rfl, rfl, rfl, hfirst⟩
    refine ⟨by simp, fun front rest h => ?_⟩
    obtain ⟨front', rest', rfl, rfl, hcut⟩ := Text.cut_between hleft hright hmark hplain h
    simpa using hfirst front' rest' hcut

theorem infix_between {left line right mark : List Char} (hleft : IsGap left)
    (hright : IsGap right) (hmark : mark ≠ []) (hplain : ∀ c ∈ mark, Text.isBlank c = false) :
    mark <:+: left ++ line ++ right ↔ mark <:+: line := by
  constructor
  · rintro ⟨front, rest, h⟩
    obtain ⟨front', rest', _, _, hcut⟩ := Text.cut_between hleft hright hmark hplain h.symm
    exact ⟨front', rest', hcut.symm⟩
  · exact fun h => h.trans ⟨left, right, rfl⟩

theorem ArrowCut.between {left line right before after : List Char} (hleft : IsGap left)
    (hright : IsGap right) :
    ArrowCut (left ++ line ++ right) before after ↔
      ∃ before' after', before = left ++ before' ∧ after = after' ++ right ∧
        ArrowCut line before' after' := by
  have harrow : ∀ c ∈ arrow.toList, Text.isBlank c = false := by simp [arrow, Text.isBlank]
  have hdash : ∀ c ∈ "->".toList, Text.isBlank c = false := by simp [Text.isBlank]
  rw [ArrowCut, FirstCut.between hleft hright (by decide) harrow,
    infix_between hleft hright (by decide) harrow,
    FirstCut.between hleft hright (by decide) hdash]
  constructor
  · rintro (⟨before', after', hbefore, hafter, hcut⟩ | ⟨hnot, before', after', hbefore, hafter, hcut⟩)
    · exact ⟨before', after', hbefore, hafter, .inl hcut⟩
    · exact ⟨before', after', hbefore, hafter, .inr ⟨hnot, hcut⟩⟩
  · rintro ⟨before', after', hbefore, hafter, hcut | ⟨hnot, hcut⟩⟩
    · exact .inl ⟨before', after', hbefore, hafter, hcut⟩
    · exact .inr ⟨hnot, before', after', hbefore, hafter, hcut⟩

/-! ### Productions -/

/-- The words behind an arrow that spell something. -/
theorem filter_words (after : List Char) :
    (Text.words after).filter (· ≠ epsilon.toList) =
      (after.splitOnP Text.isBlank).filter fun word => word ≠ [] ∧ word ≠ epsilon.toList := by
  rw [Text.words_eq, List.filter_filter]
  congr
  funext word
  simp [Bool.and_comm]

theorem readProduction_eq_ok {line : List Char} {p : Production} :
    readProduction line = .ok p ↔ Reads line p := by
  simp only [readProduction]
  constructor
  · intro h
    split at h
    · cases h
    · rename_i before after hsplit
      split at h
      · cases h
      · rename_i head hhead
        obtain ⟨body, hbody, rfl⟩ := map_eq_ok.mp h
        obtain ⟨hspelled, hend⟩ := readBody_eq_ok.mp hbody
        rw [filter_words] at hspelled
        exact ⟨⟨before, after, splitArrow?_eq_some.mp hsplit, bracketed?_trim.mp hhead, hspelled⟩,
          hend⟩
  · rintro ⟨⟨before, after, hcut, hhead, hspelled⟩, hend⟩
    rw [← filter_words] at hspelled
    simp only [splitArrow?_eq_some.mpr hcut, bracketed?_trim.mpr hhead,
      readBody_eq_ok.mpr ⟨hspelled, hend⟩]
    rfl

/-- Blanks around a line have no part in what it writes. -/
theorem Writes.between {left line right : List Char} (hleft : IsGap left) (hright : IsGap right)
    {p : Production} : Writes (left ++ line ++ right) p ↔ Writes line p := by
  have hhead : ∀ before, IsHead (left ++ before) p.head ↔ IsHead before p.head := by
    intro before
    rw [← bracketed?_trim, ← bracketed?_trim, Text.trimChars, Text.dropBlanks_gap hleft,
      ← Text.trimChars]
  have hbody : ∀ after : List Char,
      ((after ++ right).splitOnP Text.isBlank).filter
          (fun word => word ≠ [] ∧ word ≠ epsilon.toList) =
        (after.splitOnP Text.isBlank).filter fun word => word ≠ [] ∧ word ≠ epsilon.toList := by
    intro after
    rw [← filter_words, ← filter_words, Text.words_append_gap hright]
  simp only [Writes, ArrowCut.between hleft hright]
  constructor
  · rintro ⟨_, _, ⟨before, after, rfl, rfl, hcut⟩, hstart, hspelled⟩
    rw [hbody] at hspelled
    exact ⟨before, after, hcut, (hhead before).mp hstart, hspelled⟩
  · rintro ⟨before, after, hcut, hstart, hspelled⟩
    refine ⟨_, _, ⟨before, after, rfl, rfl, hcut⟩, (hhead before).mpr hstart, ?_⟩
    rwa [hbody]

theorem reads_trim {line : List Char} {p : Production} :
    Reads (Text.trimChars line) p ↔ Reads line p := by
  obtain ⟨left, right, hleft, hright, hline⟩ := Text.exists_trimChars line
  have hwrites : Writes (left ++ Text.trimChars line ++ right) p ↔ Writes (Text.trimChars line) p :=
    Writes.between hleft hright
  rw [← hline] at hwrites
  rw [Reads, Reads, hwrites]

/-! ### Texts -/

theorem isSilent_trim (line : List Char) : isSilent (Text.trimChars line) = !speaks line := by
  rw [isSilent, speaks, ← Text.dropBlanks, ← Text.head?_trimChars]
  cases Text.trimChars line with
  | nil => rfl
  | cons c cs => simp

/-- Lines hold the productions that those of them write which speak. -/
theorem held_iff {lines : List (List Char)} {given : List Production} :
    Held lines given ↔ List.Forall₂ Reads (lines.filter speaks) given := by
  have hreads : (fun line p => readProduction (Text.trimChars line) = .ok p) = Reads := by
    funext line p
    exact propext (readProduction_eq_ok.trans reads_trim)
  simp only [Held, isSilent_trim, Bool.not_not, hreads]

theorem speaks_append_gap {line gap : List Char} (h : IsGap gap) :
    speaks (line ++ gap) = speaks line := by
  have hnone : gap.dropWhile Text.isBlank = [] := Text.dropBlanks_eq_nil h
  rw [speaks, speaks, List.dropWhile_append, hnone]
  cases line.dropWhile Text.isBlank <;> rfl

theorem reads_append_gap {line gap : List Char} (h : IsGap gap) {p : Production} :
    Reads (line ++ gap) p ↔ Reads line p := by
  have hnil : IsGap [] := by simp [IsGap]
  have hwrites : Writes ([] ++ line ++ gap) p ↔ Writes line p := Writes.between hnil h
  rw [List.nil_append] at hwrites
  rw [Reads, Reads, hwrites]

/-- The lines of a text that are read: what stands between newlines, up to the first stretch that is
too long. -/
def linesRead (text : String) : List (List Char) :=
  (text.toList.splitOn '\n').takeWhile Text.fitsLine

theorem forall₂_linesOf {text : String} {given : List Production} :
    List.Forall₂ Reads ((Text.linesOf text.toList).filter speaks) given ↔
      List.Forall₂ Reads ((linesRead text).filter speaks) given := by
  have hspeaks : ∀ line, speaks (Text.dropReturn line) = speaks line := by
    intro line
    obtain ⟨gap, hgap, hline⟩ := Text.exists_dropReturn line
    exact (speaks_append_gap hgap).symm.trans (congrArg speaks hline.symm)
  have hreads : (fun line p => Reads (Text.dropReturn line) p) = Reads := by
    funext line p
    obtain ⟨gap, hgap, hline⟩ := Text.exists_dropReturn line
    rw [← reads_append_gap hgap, ← hline]
  rw [Text.filter_linesOf (by decide) hspeaks, List.forall₂_map_left_iff, hreads]
  rfl

/-- A text is read exactly if each of its lines that speaks writes a production, there is one, and
every non-terminal of a body heads one. -/
theorem read_eq_ok {text : String} {g : Grammar} :
    read text = .ok g ↔ ∃ first rest,
      List.Forall₂ Reads ((linesRead text).filter speaks) (first :: rest) ∧
      (∀ p ∈ first :: rest, ∀ name, .nonterminal name ∈ p.body →
        name ∈ (first :: rest).map (·.head)) ∧
      g = ofProductions first rest := by
  simp only [read_iff_held, held_iff, forall₂_linesOf]

/-- The productions of a grammar that its text gives, the augmented one apart. -/
def given (g : Grammar) : List Production :=
  g.productions.toList.tail

theorem given_ofProductions (first : Production) (rest : List Production) :
    (ofProductions first rest).given = first :: rest := by
  rw [given, ofProductions_productions]
  rfl

/-- Every line of a text that speaks has its production, one after another, so long as no line is
too long.  Where one is, the productions are those of the lines before it, and none is missing
exactly if no line from there on speaks. -/
theorem lines_given {text : String} {g : Grammar} (hread : read text = .ok g) :
    List.Forall₂ Writes ((linesRead text).filter speaks) g.given ∧
      (List.Forall₂ Writes ((text.toList.splitOn '\n').filter speaks) g.given ↔
        ∀ line ∈ (text.toList.splitOn '\n').dropWhile Text.fitsLine, speaks line = false) := by
  obtain ⟨first, rest, hreads, _, rfl⟩ := read_eq_ok.mp hread
  have hwrites : List.Forall₂ Writes ((linesRead text).filter speaks)
      (ofProductions first rest).given := by
    rw [given_ofProductions]
    exact hreads.imp fun _ _ h => h.1
  have hall : (text.toList.splitOn '\n').filter speaks = (linesRead text).filter speaks ++
      ((text.toList.splitOn '\n').dropWhile Text.fitsLine).filter speaks := by
    rw [linesRead, ← List.filter_append, List.takeWhile_append_dropWhile]
  refine ⟨hwrites, ?_⟩
  rw [hall]
  constructor
  · intro h
    have hlength := h.length_eq
    rw [List.length_append, ← hwrites.length_eq] at hlength
    have hnone := List.filter_eq_nil_iff.mp (List.length_eq_zero_iff.mp
      (Nat.add_eq_left.mp hlength))
    exact fun line hline => by simpa using hnone line hline
  · intro h
    have hnone : ((text.toList.splitOn '\n').dropWhile Text.fitsLine).filter speaks = [] :=
      List.filter_eq_nil_iff.mpr fun line hline => by simp [h line hline]
    rw [hnone, List.append_nil]
    exact hwrites

/-- Two lines that each give a production, and a comment. -/
def twoRules : String :=
  "<S> → a\n# or more\n<S> -> <S> ε b"

theorem lines_given_twoRules : ∃ g, read twoRules = .ok g ∧ g.given.length = 2 ∧
    List.Forall₂ Writes ((linesRead twoRules).filter speaks) g.given ∧
    List.Forall₂ Writes ((twoRules.toList.splitOn '\n').filter speaks) g.given := by
  have hread : read twoRules = .ok (ofProductions { head := "S", body := [.terminal "a"] }
      [{ head := "S", body := [.nonterminal "S", .terminal "b"] }]) := by rfl
  obtain ⟨hheld, hwhole⟩ := lines_given hread
  exact ⟨_, hread, rfl, hheld, hwhole.mpr (by decide +kernel)⟩

/-- Two rules with a line between them. -/
def interrupted (between : List Char) : String :=
  "\n".intercalate ["<S> → a", String.ofList between, "<S> → b"]

theorem interrupted_lines {between : List Char} (h : '\n' ∉ between) :
    (interrupted between).toList.splitOn '\n' =
      ["<S> → a".toList, between, "<S> → b".toList] := by
  have hnewline : "\n".toList = ['\n'] := by decide
  rw [interrupted, String.toList_intercalate, hnewline, List.splitOn_intercalate]
  · simp
  · simp only [List.map_cons, List.map_nil, String.toList_ofList, List.forall_mem_cons]
    exact ⟨by decide, h, by decide, by simp⟩
  · simp

/-- Behind a line that is too long nothing is read. -/
theorem read_interrupted {between : List Char} (h : '\n' ∉ between)
    (hlong : Text.fitsLine between = false) :
    read (interrupted between) =
      .ok (ofProductions { head := "S", body := [.terminal "a"] } []) := by
  have hlines : linesRead (interrupted between) = ["<S> → a".toList] := by
    rw [linesRead, interrupted_lines h, List.takeWhile_cons_of_pos (by decide),
      List.takeWhile_cons_of_neg (by simp [hlong])]
  refine read_eq_ok.mpr ⟨_, _, ?_, by simp, rfl⟩
  rw [hlines]
  exact .cons (readProduction_eq_ok.mp (by rfl)) .nil

/-- A comment that is too long for a line. -/
def overlong : List Char :=
  '#' :: List.replicate Text.lineLimit '#'

theorem fitsLine_overlong : Text.fitsLine overlong = false := by
  have hsize := Text.length_le_size overlong
  rw [overlong, List.length_cons, List.length_replicate, ← overlong] at hsize
  simp only [Text.fitsLine, decide_eq_false_iff_not]
  omega

/-- The rule behind a comment that is too long is lost, though the text is read. -/
theorem overlong_loses : ∃ g, read (interrupted overlong) = .ok g ∧
    ¬List.Forall₂ Writes (((interrupted overlong).toList.splitOn '\n').filter speaks) g.given := by
  have hline : '\n' ∉ overlong := by simp [overlong]
  have hcomment : ¬speaks overlong = true := by
    have hhash : Text.isBlank '#' = false := by decide
    simp [speaks, overlong, hhash]
  refine ⟨_, read_interrupted hline fitsLine_overlong, fun h => ?_⟩
  have hlength := h.length_eq
  rw [interrupted_lines hline, List.filter_cons_of_pos (by decide),
    List.filter_cons_of_neg hcomment, List.filter_cons_of_pos (by decide)] at hlength
  cases hlength

end DuckLang.Grammar
