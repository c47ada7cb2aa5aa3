import DuckLang.Parser.Attribute
import DuckLang.Proofs.Emitter.Changes
import DuckLang.Proofs.Text.Utf8
import DuckLang.Proofs.Token.RoundTrip

/-! Literals.  Whatever stands between quotes in a token is decoded, element by element, to the
characters that it denotes; and any text can be written so that it is decoded to itself. -/

namespace DuckLang.Lexical

open Text.Quoted (charBytes readEscape? readBody? unquote?)
open Text.Utf8 (encode encode_eq pieces pieces_encode)
open Emitter (leave pushString intern intern_spec)

/-! ### What an element denotes -/

/-- The letters that stand behind a backslash for a character, whatever the quotes. -/
def escapes : List (Char × Char) :=
  [('a', '\x07'), ('b', '\x08'), ('f', '\x0c'), ('n', '\n'), ('r', '\r'), ('t', '\t'),
    ('v', '\x0b'), ('\\', '\\')]

/-- The character that an element denotes. -/
inductive Denotes (quote : Char) : List Char → Char → Prop
  | plain {c : Char} (h : c ≠ quote ∧ c ≠ '\n' ∧ c ≠ '\\') : Denotes quote [c] c
  | escape {letter c : Char} (h : (letter, c) ∈ escapes) : Denotes quote ['\\', letter] c
  | quote : Denotes quote ['\\', quote] quote

theorem Element.denotes {quote : Char} {cs : List Char} (h : Element quote cs) :
    ∃ c, Denotes quote cs c := by
  cases h with
  | plain hc => exact ⟨_, .plain hc⟩
  | @escape letter hletter =>
    have hletters : ∀ letter ∈ ['a', 'b', 'n', 'f', 'r', 't', 'v', '\\'],
        letter ∈ escapes.map (·.1) := by
      simp [escapes]
    rcases List.mem_append.mp (show letter ∈ [_, _, _, _, _, _, _, _] ++ [quote] from hletter) with
      hlisted | hquote
    · obtain ⟨⟨_, c⟩, hpair, rfl⟩ := List.mem_map.mp (hletters letter hlisted)
      exact ⟨c, .escape hpair⟩
    · rw [List.mem_singleton.mp hquote]
      exact ⟨quote, .quote⟩

theorem Denotes.element {quote c : Char} {cs : List Char} (h : Denotes quote cs c) :
    Element quote cs := by
  cases h with
  | plain hc => exact .plain hc
  | escape hpair =>
    have hletters : ∀ pair ∈ escapes, pair.1 ∈ ['a', 'b', 'n', 'f', 'r', 't', 'v', '\\'] := by
      simp [escapes]
    exact .escape (List.mem_append_left [quote] (hletters _ hpair))
  | quote => exact .escape (by simp)

/-! ### Decoding -/

variable {quote c : Char} {cs : List Char} {parts : List (List Char × Char)}

theorem readEscape?_escape {letter : Char} (h : (letter, c) ∈ escapes) (quote : Char)
    (rest : List Char) : readEscape? quote (letter :: rest) = some (charBytes c, rest) := by
  simp only [escapes, List.mem_cons, Prod.mk.injEq, List.not_mem_nil, or_false] at h
  rcases h with h | h | h | h | h | h | h | h
  all_goals
    obtain ⟨rfl, rfl⟩ := h
    rfl

theorem readEscape?_quote (hquote : quote ∈ ['"', '\'']) (rest : List Char) :
    readEscape? quote (quote :: rest) = some (charBytes quote, rest) := by
  simp only [List.mem_cons, List.not_mem_nil, or_false] at hquote
  rcases hquote with rfl | rfl <;> rfl

theorem readBody?_backslash {bytes : Bytes} {rest : List Char} (hquote : '\\' ≠ quote)
    (h : readEscape? quote cs = some (bytes, rest)) (limit : Nat) :
    readBody? quote (limit + 1) ('\\' :: cs) = (readBody? quote limit rest).map (bytes ++ ·) := by
  rw [readBody?, if_neg hquote, if_neg (by decide), if_pos rfl, h]
  show (readBody? quote limit rest).bind _ = _
  cases readBody? quote limit rest <;> rfl

/-- An element is decoded to what it denotes. -/
theorem Denotes.readBody_append (h : Denotes quote cs c) (hquote : quote ∈ ['"', '\''])
    (limit : Nat) (rest : List Char) :
    readBody? quote (limit + 1) (cs ++ rest) =
      (readBody? quote limit rest).map (charBytes c ++ ·) := by
  have hslash : '\\' ≠ quote := by
    rintro rfl
    simp at hquote
  cases h with
  | plain hc =>
    obtain ⟨hc, hnewline, hbackslash⟩ := hc
    rw [List.singleton_append, readBody?, if_neg hc, if_neg hnewline, if_neg hbackslash]
    cases readBody? quote limit rest <;> rfl
  | escape hpair => exact readBody?_backslash hslash (readEscape?_escape hpair quote rest) limit
  | quote => exact readBody?_backslash hslash (readEscape?_quote hquote rest) limit

theorem encode_cons (c : Char) (cs : List Char) :
    encode (String.ofList (c :: cs)) = charBytes c ++ encode (String.ofList cs) := by
  simp [charBytes, encode_eq]

theorem readBody?_close (quote : Char) (limit : Nat) :
    readBody? quote limit [quote] = some [] := by
  cases limit <;> simp [readBody?]

/-- Elements up to the closing quote are decoded to the text that they denote. -/
theorem readBody?_parts (hparts : ∀ part ∈ parts, Denotes quote part.1 part.2)
    (hquote : quote ∈ ['"', '\'']) {limit : Nat} (hlimit : parts.length ≤ limit) :
    readBody? quote limit ((parts.map (·.1)).flatten ++ [quote]) =
      some (encode (String.ofList (parts.map (·.2)))) := by
  induction parts generalizing limit with
  | nil => simp [readBody?_close, encode_eq]
  | cons part parts ih =>
    obtain ⟨hfirst, hothers⟩ := List.forall_mem_cons.mp hparts
    cases limit with
    | zero => simp at hlimit
    | succ limit =>
      rw [List.map_cons, List.flatten_cons, List.append_assoc, hfirst.readBody_append hquote,
        ih hothers (by simpa using hlimit), List.map_cons, encode_cons]
      rfl

theorem Denotes.ne_nil (h : Denotes quote cs c) : cs ≠ [] := by
  cases h <;> simp

theorem length_parts (hparts : ∀ part ∈ parts, Denotes quote part.1 part.2) :
    parts.length ≤ (parts.map (·.1)).flatten.length := by
  induction parts with
  | nil => simp
  | cons part parts ih =>
    obtain ⟨hfirst, hothers⟩ := List.forall_mem_cons.mp hparts
    have hsome := List.length_pos_iff.mpr hfirst.ne_nil
    have hrest := ih hothers
    simp only [List.map_cons, List.flatten_cons, List.length_append, List.length_cons]
    omega

theorem unquote?_string {literal : String} (hparts : ∀ part ∈ parts, Denotes '"' part.1 part.2)
    (hliteral : literal.toList = '"' :: ((parts.map (·.1)).flatten ++ ['"'])) :
    unquote? literal = some (encode (String.ofList (parts.map (·.2)))) := by
  have hlength := length_parts hparts
  rw [unquote?, hliteral]
  refine readBody?_parts hparts (by simp) ?_
  rw [List.length_append]
  omega

theorem unquote?_char {literal : String} (h : Denotes '\'' cs c)
    (hliteral : literal.toList = '\'' :: (cs ++ ['\''])) :
    unquote? literal = some (encode (String.ofList [c])) := by
  have hparts : ∀ part ∈ [(cs, c)], Denotes '\'' part.1 part.2 := by simpa using h
  have hbody := readBody?_parts hparts (by simp) (Nat.le_refl 1)
  rw [unquote?, hliteral]
  simpa using hbody

/-- A char literal is decoded to one character, which is its value. -/
theorem literalValue_char {literal : String} (h : Denotes '\'' cs c)
    (hliteral : literal.toList = '\'' :: (cs ++ ['\''])) :
    (unquote? literal).map pieces = some [.char c] ∧ literalValue literal = .ok (.ofChar c) := by
  have hstart : literal.startsWith "'" = true := by
    rw [String.startsWith_string_iff, hliteral]
    exact ⟨_, rfl⟩
  have hpieces : (unquote? literal).map pieces = some [.char c] := by
    rw [unquote?_char h hliteral, Option.map_some, pieces_encode, String.toList_ofList]
    rfl
  refine ⟨hpieces, ?_⟩
  rw [literalValue, if_pos hstart, hpieces]
  rfl

/-! ### The literals of a text -/

theorem listed_unquoted : ∀ pair ∈ Token.Kind.keywords ++ Token.Kind.symbols,
    pair.2 ≠ .charLiteral ∧ pair.2 ≠ .stringLiteral := by
  decide

theorem Lexeme.char_denotes (h : Lexeme .charLiteral cs) :
    ∃ element c, Denotes '\'' element c ∧ cs = '\'' :: (element ++ ['\'']) := by
  generalize hkind : Token.Kind.charLiteral = kind at h
  cases h with
  | keyword listed =>
    exact absurd hkind.symm (listed_unquoted _ (List.mem_append_left _ listed)).1
  | symbol listed =>
    exact absurd hkind.symm (listed_unquoted _ (List.mem_append_right _ listed)).1
  | char helement =>
    obtain ⟨c, hdenotes⟩ := helement.denotes
    exact ⟨_, c, hdenotes, rfl⟩
  | _ => cases hkind

theorem exists_parts {elements : List (List Char)}
    (h : ∀ element ∈ elements, Element quote element) :
    ∃ parts : List (List Char × Char), (∀ part ∈ parts, Denotes quote part.1 part.2) ∧
      elements = parts.map (·.1) := by
  induction elements with
  | nil => exact ⟨[], by simp, rfl⟩
  | cons element elements ih =>
    obtain ⟨hfirst, hothers⟩ := List.forall_mem_cons.mp h
    obtain ⟨c, hdenotes⟩ := hfirst.denotes
    obtain ⟨parts, hparts, rfl⟩ := ih hothers
    exact ⟨(element, c) :: parts, List.forall_mem_cons.mpr ⟨hdenotes, hparts⟩, rfl⟩

theorem Lexeme.string_denotes (h : Lexeme .stringLiteral cs) :
    ∃ parts : List (List Char × Char), (∀ part ∈ parts, Denotes '"' part.1 part.2) ∧
      cs = '"' :: ((parts.map (·.1)).flatten ++ ['"']) := by
  generalize hkind : Token.Kind.stringLiteral = kind at h
  cases h with
  | keyword listed =>
    exact absurd hkind.symm (listed_unquoted _ (List.mem_append_left _ listed)).2
  | symbol listed =>
    exact absurd hkind.symm (listed_unquoted _ (List.mem_append_right _ listed)).2
  | string helements =>
    obtain ⟨parts, hparts, rfl⟩ := exists_parts helements
    exact ⟨parts, hparts, rfl⟩
  | _ => cases hkind

/-- The tokens of a text are lexemes. -/
theorem lexeme_of_token {source : String} {ts : List Token} (h : tokenize source = .ok ts)
    {t : Token} (ht : t ∈ ts) (hkind : t.kind ≠ .endOfInput) : Lexeme t.kind t.text.toList := by
  obtain ⟨lexemes, hsplits, hview⟩ := view_of_tokenize h
  have hmem : view t ∈ ts.map view := List.mem_map_of_mem ht
  rw [hview] at hmem
  rcases List.mem_append.mp hmem with hlexeme | hend
  · exact hsplits.lexeme_of_mem _ hlexeme
  · exact absurd (congrArg Prod.fst (List.mem_singleton.mp hend)) hkind

/-! ### Texts written as literals -/

/-- A character as it is written between double quotes. -/
def writtenChar (c : Char) : List Char :=
  if c = '\\' then ['\\', '\\']
  else if c = '"' then ['\\', '"']
  else if c = '\n' then ['\\', 'n']
  else [c]

/-- A text between double quotes, with backslashes, double quotes and newlines escaped. -/
def written (s : String) : String :=
  String.ofList ('"' :: (s.toList.flatMap writtenChar ++ ['"']))

theorem denotes_writtenChar (c : Char) : Denotes '"' (writtenChar c) c := by
  simp only [writtenChar]
  split
  · rename_i hc
    exact .escape (by simp [hc, escapes])
  split
  · rename_i _ hc
    exact hc ▸ .quote
  split
  · rename_i hc
    exact .escape (by simp [hc, escapes])
  · exact .plain ⟨by assumption, by assumption, by assumption⟩

/-- The parts of a text as it is written. -/
def writtenParts (s : String) : List (List Char × Char) :=
  s.toList.map fun c => (writtenChar c, c)

theorem denotes_writtenParts (s : String) :
    ∀ part ∈ writtenParts s, Denotes '"' part.1 part.2 := by
  intro part hpart
  obtain ⟨c, _, rfl⟩ := List.mem_map.mp hpart
  exact denotes_writtenChar c

theorem toList_written (s : String) :
    (written s).toList = '"' :: (((writtenParts s).map (·.1)).flatten ++ ['"']) := by
  simp [written, writtenParts, List.flatMap_def, Function.comp_def]

theorem unquote?_written (s : String) : unquote? (written s) = some (encode s) := by
  rw [unquote?_string (denotes_writtenParts s) (toList_written s)]
  simp [writtenParts, Function.comp_def]

/-- A text that is one string literal is one token. -/
theorem tokenize_string {literal : String} {elements : List (List Char)}
    (h : ∀ element ∈ elements, Element '"' element)
    (hliteral : literal.toList = '"' :: (elements.flatten ++ ['"'])) :
    tokenize literal = .ok [⟨.stringLiteral, literal, 1⟩, .endOfInput 1] := by
  have hmunch : munch [] '"' (elements.flatten ++ ['"']) =
      { kind := some .stringLiteral, taken := literal.toList, rest := [] } := by
    rw [munch, if_pos rfl, stringBody_flatten h [], hliteral]
    rfl
  have hskip : (Lexer.ofString literal).skip = Lexer.ofString literal := by
    rw [Lexer.skip, Lexer.ofString, hliteral]
    rfl
  have hnext : (Lexer.ofString literal).next =
      (.ok ⟨.stringLiteral, literal, 1⟩, { rest := [], line := 1 }) := by
    rw [Lexer.next, hskip]
    simp only [Lexer.ofString, hliteral, hmunch]
    simp [Lexer.nextLine, ← hliteral]
  have hend : Lexer.tokens literal.toList.length { rest := [], line := 1 } =
      .ok [.endOfInput 1] := by
    rw [hliteral]
    rfl
  have hlength : (Lexer.ofString literal).rest.length = literal.toList.length := rfl
  rw [tokenize, hlength, Lexer.tokens, hnext]
  dsimp only
  rw [if_neg (by decide), hend]

/-! ### The string table -/

/-- No two entries of a table are equal once a text is entered, if none were before. -/
theorem nodup_intern {strings : List Bytes} (h : strings.Nodup) (text : Bytes) :
    (intern strings text).2.Nodup := by
  simp only [intern]
  split
  · exact h
  · rename_i hnone
    have hfresh : text ∉ strings := List.idxOf?_eq_none_iff.mp hnone
    refine List.nodup_append.mpr ⟨h, by simp, ?_⟩
    rintro entry hentry _ hsame rfl
    exact hfresh (List.mem_singleton.mp hsame ▸ hentry)

variable {e : Emitter} {literal : String} {text : Bytes}

theorem run_pushString (h : unquote? literal = some text) (e : Emitter) :
    (pushString literal).run e = .ok () { e with
      strings := (intern e.strings text).2
      operands := (.text (intern e.strings text).1, .string) :: e.operands } := by
  rw [pushString, h]
  rfl

/-- An emitter after a literal was pushed, whether it fails or not. -/
def pushed (e : Emitter) (literal : String) : Emitter :=
  leave (pushString literal) e

theorem pushed_strings (e : Emitter) (literal : String) :
    e.strings <+: (pushed e literal).strings ∧
      (e.strings.Nodup → (pushed e literal).strings.Nodup) := by
  cases hunquote : unquote? literal with
  | none =>
    have hsame : pushed e literal = e := by
      rw [pushed, leave, pushString, hunquote]
      rfl
    rw [hsame]
    exact ⟨List.prefix_rfl, id⟩
  | some text =>
    rw [pushed, leave, run_pushString hunquote]
    exact ⟨(intern_spec e.strings text).1, fun h => nodup_intern h text⟩

theorem foldl_pushed_strings (literals : List String) (e : Emitter) :
    e.strings <+: (literals.foldl pushed e).strings ∧
      (e.strings.Nodup → (literals.foldl pushed e).strings.Nodup) := by
  induction literals generalizing e with
  | nil => exact ⟨List.prefix_rfl, id⟩
  | cons literal literals ih =>
    obtain ⟨hgrown, hnodup⟩ := pushed_strings e literal
    obtain ⟨hgrown', hnodup'⟩ := ih (pushed e literal)
    exact ⟨hgrown.trans hgrown', fun h => hnodup' (hnodup h)⟩

/-- Every literal among the tokens of a text is decoded to what it denotes: a char literal to one
character, a string literal to a text that can be pushed.  Any text is decoded from the literal that
writes it, which is one token, and is then the entry of the table that was pushed.  No two entries
are equal, whatever was pushed before or is pushed after. -/
theorem literals_decoded :
    (∀ (source : String) (ts : List Token), tokenize source = .ok ts → ∀ t ∈ ts,
      (t.kind = .charLiteral → ∃ element c, Denotes '\'' element c ∧
        t.text.toList = '\'' :: (element ++ ['\'']) ∧
        (unquote? t.text).map pieces = some [.char c] ∧ literalValue t.text = .ok (.ofChar c)) ∧
      (t.kind = .stringLiteral → ∃ parts : List (List Char × Char),
        (∀ part ∈ parts, Denotes '"' part.1 part.2) ∧
        t.text.toList = '"' :: ((parts.map (·.1)).flatten ++ ['"']) ∧
        unquote? t.text = some (encode (String.ofList (parts.map (·.2)))) ∧
        ∀ e, ∃ e', (pushString t.text).run e = .ok () e')) ∧
    (∀ (s : String), tokenize (written s) = .ok [⟨.stringLiteral, written s, 1⟩, .endOfInput 1] ∧
      ∀ (e : Emitter) (before after : List String), ∃ (index : Nat) (e' : Emitter),
        (pushString (written s)).run (before.foldl pushed e) = .ok () e' ∧
        e'.operands = (.text index, .string) :: (before.foldl pushed e).operands ∧
        (after.foldl pushed e').strings[index]? = some (encode s)) ∧
    ∀ (e : Emitter) (literals : List String), e.strings.Nodup →
      (literals.foldl pushed e).strings.Nodup := by
  refine ⟨fun source ts hts t ht => ⟨fun hkind => ?_, fun hkind => ?_⟩, fun s => ⟨?_, ?_⟩, ?_⟩
  · have hlexeme := lexeme_of_token hts ht (by simp [hkind])
    obtain ⟨element, c, hdenotes, htext⟩ := (hkind ▸ hlexeme).char_denotes
    exact ⟨element, c, hdenotes, htext, literalValue_char hdenotes htext⟩
  · have hlexeme := lexeme_of_token hts ht (by simp [hkind])
    obtain ⟨parts, hparts, htext⟩ := (hkind ▸ hlexeme).string_denotes
    have hunquote := unquote?_string hparts htext
    exact ⟨parts, hparts, htext, hunquote, fun e => ⟨_, run_pushString hunquote e⟩⟩
  · refine tokenize_string (fun element helement => ?_) (toList_written s)
    obtain ⟨part, hpart, rfl⟩ := List.mem_map.mp helement
    exact (denotes_writtenParts s part hpart).element
  · intro e before after
    obtain ⟨_, hentry⟩ := intern_spec (before.foldl pushed e).strings (encode s)
    obtain ⟨hindex, _⟩ := List.getElem?_eq_some_iff.mp hentry
    refine ⟨_, _, run_pushString (unquote?_written s) _, rfl, ?_⟩
    -- what is pushed later is entered behind
    obtain ⟨more, hmore⟩ := (foldl_pushed_strings after _).1
    rw [← hmore]
    exact (List.getElem?_append_left hindex).trans hentry
  · exact fun e literals h => (foldl_pushed_strings literals e).2 h

/-- Both kinds of quotes inside each other, one text pushed twice and a literal that is refused. -/
theorem literals_decoded_quotes :
    tokenize "'\\'' \"it's\"" = .ok [⟨.charLiteral, "'\\''", 1⟩,
        ⟨.stringLiteral, "\"it's\"", 1⟩, .endOfInput 1] ∧
      (∃ c, literalValue "'\\''" = .ok (.ofChar c)) ∧
      (∀ e, ∃ e', (pushString "\"it's\"").run e = .ok () e') ∧
      ({} : Emitter).strings.Nodup ∧
      (["\"it's\"", "\"it's\"", "\"it"].foldl pushed {}).strings.Nodup := by
  have hts : tokenize "'\\'' \"it's\"" = .ok [⟨.charLiteral, "'\\''", 1⟩,
      ⟨.stringLiteral, "\"it's\"", 1⟩, .endOfInput 1] := by rfl
  obtain ⟨htokens, _, hnodup⟩ := literals_decoded
  obtain ⟨_, c, _, _, _, hchar⟩ := (htokens _ _ hts _ List.mem_cons_self).1 rfl
  obtain ⟨_, _, _, _, hstring⟩ :=
    (htokens _ _ hts _ (List.mem_cons_of_mem _ List.mem_cons_self)).2 rfl
  exact ⟨hts, ⟨c, hchar⟩, hstring, List.nodup_nil, hnodup {} _ List.nodup_nil⟩

end DuckLang.Lexical
