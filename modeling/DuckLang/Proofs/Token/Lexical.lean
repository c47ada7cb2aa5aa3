import DuckLang.Proofs.Token.Spelling

/-! The lexical grammar.  `Lexeme` says what the lexemes of each kind look like and `Splits` cuts a
text into them, taking the longest piece at each place.  The first character of a piece tells what
it is, and its text tells its kind, so there is one cut at most. -/

namespace DuckLang.Lexical

open Token.Kind (keywords symbols keyword? symbol?)
open Identifier (isStart isPart isDigit)

/-- What stands for a character between quotes: any but the quote, a newline or a backslash, or an
escape.  Of the quotes only the one in use may be escaped. -/
inductive Element (quote : Char) : List Char → Prop
  | plain {c : Char} (h : c ≠ quote ∧ c ≠ '\n' ∧ c ≠ '\\') : Element quote [c]
  | escape {c : Char} (h : c ∈ ['a', 'b', 'n', 'f', 'r', 't', 'v', '\\', quote]) :
      Element quote ['\\', c]

/-- The lexemes of each kind. -/
inductive Lexeme : Token.Kind → List Char → Prop
  | keyword {name : String} {kind : Token.Kind} (listed : (name, kind) ∈ keywords) :
      Lexeme kind name.toList
  | identifier {c : Char} {cs : List Char} (start : isStart c = true)
      (parts : ∀ d ∈ cs, isPart d = true) (free : ∀ kind, (String.ofList (c :: cs), kind) ∉ keywords) :
      Lexeme .identifier (c :: cs)
  | int {digits : List Char} (some : digits ≠ []) (all : ∀ d ∈ digits, isDigit d = true) :
      Lexeme .intLiteral digits
  | float {whole fraction : List Char} (someWhole : whole ≠ [])
      (allWhole : ∀ d ∈ whole, isDigit d = true) (someFraction : fraction ≠ [])
      (allFraction : ∀ d ∈ fraction, isDigit d = true) :
      Lexeme .floatLiteral (whole ++ '.' :: fraction)
  | char {element : List Char} (h : Element '\'' element) :
      Lexeme .charLiteral ('\'' :: (element ++ ['\'']))
  | string {elements : List (List Char)} (h : ∀ element ∈ elements, Element '"' element) :
      Lexeme .stringLiteral ('"' :: (elements.flatten ++ ['"']))
  | symbol {name : String} {kind : Token.Kind} (listed : (name, kind) ∈ symbols) :
      Lexeme kind name.toList

/-- The pieces of a text: a blank, a comment that ends before a newline, or a lexeme. -/
inductive Piece : Option Token.Kind → List Char → Prop
  | blank {c : Char} (h : Lexer.isSpace c = true) : Piece none [c]
  | comment {cs : List Char} (h : '\n' ∉ cs) : Piece none ('/' :: '/' :: cs)
  | lexeme {kind : Token.Kind} {cs : List Char} (h : Lexeme kind cs) : Piece (some kind) cs

/-- The longest piece that a text starts with. -/
structure Longest (text : List Char) (kind : Option Token.Kind) (piece rest : List Char) :
    Prop where
  split : text = piece ++ rest
  valid : Piece kind piece
  longest : ∀ kind' piece', Piece kind' piece' → piece' <+: text → piece'.length ≤ piece.length

/-- The longest piece is a lexeme, and no letter or underscore follows if it is a number. -/
structure Taken (text : List Char) (kind : Token.Kind) (piece rest : List Char) : Prop where
  longest : Longest text (some kind) piece rest
  apart : kind = .intLiteral ∨ kind = .floatLiteral → ∀ c ∈ rest.head?, isStart c = false

/-- A text cut into pieces from left to right, with the lexemes among them. -/
inductive Splits : List Char → List (Token.Kind × List Char) → Prop
  | nil : Splits [] []
  | skip {text piece rest : List Char} {lexemes : List (Token.Kind × List Char)}
      (skipped : Longest text none piece rest) (more : Splits rest lexemes) : Splits text lexemes
  | lexeme {text piece rest : List Char} {kind : Token.Kind}
      {lexemes : List (Token.Kind × List Char)} (taken : Taken text kind piece rest)
      (more : Splits rest lexemes) : Splits text ((kind, piece) :: lexemes)

/-! ### What a piece starts with -/

/-- What a piece is, told by its first character. -/
inductive Front where
  | string
  | char
  | word
  | number
  | blank
  | symbol
  deriving DecidableEq

def front (c : Char) : Front :=
  if c = '"' then .string
  else if c = '\'' then .char
  else if isStart c then .word
  else if isDigit c then .number
  else if Lexer.isSpace c then .blank
  else .symbol

theorem front_of_isStart {c : Char} (h : isStart c = true) : front c = .word := by
  have hquote : c ≠ '"' := by rintro rfl; cases h
  have hapostrophe : c ≠ '\'' := by rintro rfl; cases h
  simp [front, hquote, hapostrophe, h]

theorem isStart_of_front {c : Char} (h : front c = .word) : isStart c = true := by
  unfold front at h
  repeat' split at h
  all_goals first | assumption | cases h

theorem isDigit_of_front {c : Char} (h : front c = .number) : isDigit c = true := by
  unfold front at h
  repeat' split at h
  all_goals first | assumption | cases h

theorem front_of_isSpace {c : Char} (h : Lexer.isSpace c = true) : front c = .blank := by
  have hlisted : c ∈ [' ', '\t', '\r', '\n', '\x0c', '\x0b', '\uFEFF'] := by
    simpa [Lexer.isSpace, or_assoc] using h
  have hall : [' ', '\t', '\r', '\n', '\x0c', '\x0b', '\uFEFF'].all (front · = .blank) = true := by
    decide
  exact of_decide_eq_true (List.all_eq_true.mp hall c hlisted)

theorem isSpace_of_front {c : Char} (h : front c = .blank) : Lexer.isSpace c = true := by
  unfold front at h
  repeat' split at h
  all_goals first | assumption | cases h

theorem front_of_isDigit {c : Char} (h : isDigit c = true) : front c = .number := by
  have hquote : c ≠ '"' := by rintro rfl; cases h
  have hapostrophe : c ≠ '\'' := by rintro rfl; cases h
  have hunderscore : c ≠ '_' := by rintro rfl; cases h
  have hletter : Identifier.isLetter c = false := by
    simp only [isDigit, Identifier.isLetter, Bool.and_eq_true, decide_eq_true_eq, Char.le_def,
      UInt32.le_iff_toNat_le, Bool.or_eq_false_iff, Bool.and_eq_false_iff,
      decide_eq_false_iff_not] at h ⊢
    change 48 ≤ c.val.toNat ∧ c.val.toNat ≤ 57 at h
    change (¬97 ≤ c.val.toNat ∨ ¬c.val.toNat ≤ 122) ∧ (¬65 ≤ c.val.toNat ∨ ¬c.val.toNat ≤ 90)
    omega
  simp [front, hquote, hapostrophe, isStart, hunderscore, hletter, h]

theorem keywords_words : ∀ pair ∈ keywords,
    (pair.1.toList ≠ [] ∧ keyword? pair.1 = some pair.2) ∧
      pair.1.toList.head?.map front = some .word ∧ pair.1.toList.all isPart = true := by
  decide

/-- A symbol has one character or two, and where it has two the first is a symbol or `!`. -/
theorem symbols_symbols : ∀ pair ∈ symbols,
    (pair.1.toList ≠ [] ∧ symbol? pair.1 = some pair.2) ∧
      pair.1.toList.head?.map front = some .symbol ∧
      (pair.1.toList.length = 1 ∨ pair.1.toList.length = 2 ∧
        pair.1.toList.head?.any (fun c => (symbol? c.toString).isSome || c = '!') = true) := by
  decide

theorem front_of_head {text : List Char} {c : Char} {f : Front} (h : text.head?.map front = some f)
    (hc : c ∈ text.head?) : front c = f := by
  rw [Option.mem_def.mp hc] at h
  exact Option.some.inj h

theorem Lexeme.ne_nil {kind : Token.Kind} {text : List Char} (h : Lexeme kind text) :
    text ≠ [] := by
  cases h with
  | keyword listed => exact (keywords_words _ listed).1.1
  | symbol listed => exact (symbols_symbols _ listed).1.1
  | int some all => exact some
  | _ => simp

theorem Piece.ne_nil {kind : Option Token.Kind} {text : List Char} (h : Piece kind text) :
    text ≠ [] := by
  cases h with
  | lexeme h => exact h.ne_nil
  | _ => simp

/-- What the pieces with a given first character look like. -/
def Shape (kind : Option Token.Kind) (text : List Char) : Front → Prop
  | .string => kind = some .stringLiteral ∧
      ∃ elements : List (List Char), (∀ element ∈ elements, Element '"' element) ∧
        text = '"' :: (elements.flatten ++ ['"'])
  | .char => kind = some .charLiteral ∧
      ∃ element, Element '\'' element ∧ text = '\'' :: (element ++ ['\''])
  | .word => kind = some ((keyword? (String.ofList text)).getD .identifier) ∧
      ∀ d ∈ text, isPart d = true
  | .number => kind = some .intLiteral ∧ (∀ d ∈ text, isDigit d = true) ∨
      kind = some .floatLiteral ∧ ∃ whole fraction, text = whole ++ '.' :: fraction ∧
        (∀ d ∈ whole, isDigit d = true) ∧ fraction ≠ [] ∧ ∀ d ∈ fraction, isDigit d = true
  | .blank => kind = none ∧ text.length = 1
  | .symbol => (∃ kind', kind = some kind' ∧ (String.ofList text, kind') ∈ symbols) ∨
      kind = none ∧ ∃ comment, text = '/' :: '/' :: comment ∧ '\n' ∉ comment

theorem keyword?_eq_none {name : String} (h : ∀ kind, (name, kind) ∉ keywords) :
    keyword? name = none := by
  cases hfound : keyword? name with
  | none => rfl
  | some kind => exact absurd (Token.Kind.mem_of_lookup hfound) (h kind)

theorem Lexeme.shape {kind : Token.Kind} {text : List Char} (h : Lexeme kind text) :
    ∀ c ∈ text.head?, Shape (some kind) text (front c) := by
  cases h with
  | keyword listed =>
    obtain ⟨⟨_, hkind⟩, hfront, hparts⟩ := keywords_words _ listed
    intro c hc
    rw [front_of_head hfront hc]
    exact ⟨by simp [hkind], List.all_eq_true.mp hparts⟩
  | identifier start parts free =>
    rintro c ⟨⟩
    rw [front_of_isStart start]
    refine ⟨by rw [keyword?_eq_none free, Option.getD_none], ?_⟩
    simpa [isPart, start] using parts
  | int some all =>
    intro c hc
    rw [front_of_isDigit (all c (List.mem_of_mem_head? hc))]
    exact .inl ⟨rfl, all⟩
  | @float whole fraction someWhole allWhole someFraction allFraction =>
    obtain ⟨d, whole, rfl⟩ := List.exists_cons_of_ne_nil someWhole
    rintro c ⟨⟩
    rw [front_of_isDigit (allWhole d List.mem_cons_self)]
    exact .inr ⟨rfl, d :: whole, fraction, rfl, allWhole, someFraction, allFraction⟩
  | char h =>
    rintro c ⟨⟩
    exact ⟨rfl, _, h, rfl⟩
  | string h =>
    rintro c ⟨⟩
    exact ⟨rfl, _, h, rfl⟩
  | symbol listed =>
    intro c hc
    rw [front_of_head (symbols_symbols _ listed).2.1 hc]
    exact .inl ⟨_, rfl, by simpa using listed⟩

theorem Piece.shape {kind : Option Token.Kind} {text : List Char} (h : Piece kind text) :
    ∀ c ∈ text.head?, Shape kind text (front c) := by
  cases h with
  | blank h =>
    rintro c ⟨⟩
    rw [front_of_isSpace h]
    exact ⟨rfl, rfl⟩
  | comment h =>
    rintro c ⟨⟩
    exact .inr ⟨rfl, _, rfl, h⟩
  | lexeme h => exact h.shape

variable {c : Char} {cs text piece rest : List Char} {kind : Option Token.Kind}

theorem Piece.shape_of_prefix (h : Piece kind piece) (hp : piece <+: c :: cs) :
    Shape kind piece (front c) := by
  refine h.shape c ?_
  obtain ⟨d, piece, rfl⟩ := List.exists_cons_of_ne_nil h.ne_nil
  obtain ⟨rfl, _⟩ := List.cons_prefix_cons.mp hp
  rfl

theorem listed_kinds : ∀ pair ∈ keywords ++ symbols,
    pair.2 ≠ .intLiteral ∧ pair.2 ≠ .floatLiteral ∧ pair.2 ≠ .endOfInput := by
  decide

theorem Lexeme.ne_endOfInput {kind : Token.Kind} (h : Lexeme kind text) : kind ≠ .endOfInput := by
  cases h with
  | keyword listed => exact (listed_kinds _ (List.mem_append_left _ listed)).2.2
  | symbol listed => exact (listed_kinds _ (List.mem_append_right _ listed)).2.2
  | _ => simp

theorem Lexeme.front_of_number {kind : Token.Kind} (h : Lexeme kind text)
    (hkind : kind = .intLiteral ∨ kind = .floatLiteral) : ∀ c ∈ text.head?, front c = .number := by
  cases h with
  | keyword listed =>
    obtain ⟨hint, hfloat, _⟩ := listed_kinds _ (List.mem_append_left _ listed)
    exact absurd hkind (not_or.mpr ⟨hint, hfloat⟩)
  | symbol listed =>
    obtain ⟨hint, hfloat, _⟩ := listed_kinds _ (List.mem_append_right _ listed)
    exact absurd hkind (not_or.mpr ⟨hint, hfloat⟩)
  | int some all => exact fun c hc => front_of_isDigit (all c (List.mem_of_mem_head? hc))
  | @float whole fraction someWhole allWhole someFraction allFraction =>
    obtain ⟨d, whole, rfl⟩ := List.exists_cons_of_ne_nil someWhole
    rintro c ⟨⟩
    exact front_of_isDigit (allWhole d List.mem_cons_self)
  | _ => simp at hkind

/-- The text of a lexeme tells its kind. -/
theorem Lexeme.kind_unique {kind kind' : Token.Kind} (h : Lexeme kind text)
    (h' : Lexeme kind' text) : kind = kind' := by
  obtain ⟨c, cs, rfl⟩ := List.exists_cons_of_ne_nil h.ne_nil
  have hshape := h.shape c rfl
  have hshape' := h'.shape c rfl
  cases hfront : front c with
  | string =>
    rw [hfront] at hshape hshape'
    exact Option.some.inj (hshape.1.trans hshape'.1.symm)
  | char =>
    rw [hfront] at hshape hshape'
    exact Option.some.inj (hshape.1.trans hshape'.1.symm)
  | word =>
    rw [hfront] at hshape hshape'
    exact Option.some.inj (hshape.1.trans hshape'.1.symm)
  | blank =>
    rw [hfront] at hshape
    cases hshape.1
  | symbol =>
    rw [hfront] at hshape hshape'
    obtain ⟨_, ⟨⟩, hlisted⟩ := hshape.resolve_right (by simp)
    obtain ⟨_, ⟨⟩, hlisted'⟩ := hshape'.resolve_right (by simp)
    have hkind := (symbols_symbols _ hlisted).1.2
    exact Option.some.inj (hkind.symm.trans (symbols_symbols _ hlisted').1.2)
  | number =>
    -- only a float holds a point
    rw [hfront] at hshape hshape'
    have hpoint : ∀ whole fraction, c :: cs = whole ++ '.' :: fraction →
        ¬∀ d ∈ c :: cs, isDigit d = true := by
      intro whole fraction htext hall
      cases hall '.' (by simp [htext])
    rcases hshape with ⟨hkind, hall⟩ | ⟨hkind, whole, fraction, htext, -⟩ <;>
      rcases hshape' with ⟨hkind', hall'⟩ | ⟨hkind', whole', fraction', htext', -⟩
    · exact Option.some.inj (hkind.trans hkind'.symm)
    · exact absurd hall (hpoint whole' fraction' htext')
    · exact absurd hall' (hpoint whole fraction htext)
    · exact Option.some.inj (hkind.trans hkind'.symm)

theorem Longest.unique {kind' : Option Token.Kind} {piece' rest' : List Char}
    (h : Longest text kind piece rest) (h' : Longest text kind' piece' rest') :
    piece = piece' ∧ rest = rest' := by
  have hle := h'.longest _ _ h.valid ⟨rest, h.split.symm⟩
  have hge := h.longest _ _ h'.valid ⟨rest', h'.split.symm⟩
  exact List.append_inj (h.split.symm.trans h'.split) (Nat.le_antisymm hle hge)

end DuckLang.Lexical
