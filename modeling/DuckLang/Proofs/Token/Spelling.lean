import DuckLang.Parser.Attribute
import DuckLang.Token.Lexer

/-! How tokens are spelled.  A keyword or symbol is its own terminal, an identifier starts like one
and is no keyword, and a string literal starts with a quote; of the other tokens nothing needs to be
known. -/

namespace DuckLang

namespace Token.Kind

/-- Whether tokens of a kind may have a text. -/
def isSpelled (kind : Kind) (text : String) : Bool :=
  match kind with
  | identifier => text.toList.head?.any Identifier.isStart && (keyword? text).isNone
  | stringLiteral => text.toList.head? = some '"'
  | intLiteral | floatLiteral | charLiteral => true
  | unknown => false
  | _ => text = kind.terminal

/-- Keywords and symbols are spelled like their terminals. -/
theorem spelled_listed : ∀ pair ∈ keywords ++ symbols, pair.2.isSpelled pair.1 = true := by
  decide

theorem mem_of_lookup {pairs : List (String × Kind)} {text : String} {kind : Kind}
    (h : pairs.lookup text = some kind) : (text, kind) ∈ pairs := by
  induction pairs with
  | nil => cases h
  | cons pair pairs ih =>
    rw [List.lookup_cons] at h
    split at h
    · rename_i heq
      obtain rfl := Option.some.inj h
      obtain rfl : text = pair.1 := by simpa using heq
      exact List.mem_cons_self
    · exact List.mem_cons_of_mem _ (ih h)

theorem spelled_keyword {text : String} {kind : Kind} (h : keyword? text = some kind) :
    kind.isSpelled text = true :=
  spelled_listed (text, kind) (List.mem_append_left _ (mem_of_lookup h))

theorem spelled_symbol {text : String} {kind : Kind} (h : symbol? text = some kind) :
    kind.isSpelled text = true :=
  spelled_listed (text, kind) (List.mem_append_right _ (mem_of_lookup h))

end Token.Kind

open Token.Kind

/-! ### The lexer -/

namespace Munch

theorem stringBody_kind (cs : List Char) :
    (stringBody cs).kind = none ∨ (stringBody cs).kind = some .stringLiteral := by
  fun_induction stringBody cs <;> simp_all [cons]

theorem charBody_kind (cs : List Char) :
    (charBody cs).kind = none ∨ (charBody cs).kind = some .charLiteral := by
  have hend : ∀ cs, (charEnd cs).kind = none ∨ (charEnd cs).kind = some .charLiteral := by
    intro cs
    fun_cases charEnd cs <;> simp
  fun_cases charBody cs <;> simp_all [cons]

theorem numberEnd_kind (kind : Token.Kind) (digits cs : List Char) :
    (numberEnd kind digits cs).kind = none ∨ (numberEnd kind digits cs).kind = some kind := by
  fun_cases numberEnd kind digits cs <;> simp_all

theorem number_spelled {cs : List Char} {kind : Token.Kind} (h : (number cs).kind = some kind)
    (text : String) : kind.isSpelled text = true := by
  simp only [number] at h
  split at h
  · split at h
    · cases h
    · rcases numberEnd_kind .floatLiteral _ _ with hkind | hkind
      · rw [hkind] at h
        cases h
      · rw [hkind] at h
        obtain rfl := Option.some.inj h
        rfl
  · rcases numberEnd_kind .intLiteral _ _ with hkind | hkind
    · rw [hkind] at h
      cases h
    · rw [hkind] at h
      obtain rfl := Option.some.inj h
      rfl

theorem word_spelled {c : Char} {cs : List Char} (hc : Identifier.isStart c = true)
    {kind : Token.Kind} (h : (word [] (c :: cs)).kind = some kind) :
    kind.isSpelled (String.ofList (word [] (c :: cs)).taken) = true := by
  simp only [word, List.nil_append, Option.some.injEq] at h ⊢
  cases hkeyword : keyword? (String.ofList ((c :: cs).takeWhile Identifier.isPart)) with
  | some keyword =>
    rw [hkeyword] at h
    obtain rfl : keyword = kind := h
    exact spelled_keyword hkeyword
  | none =>
    rw [hkeyword] at h
    obtain rfl : Token.Kind.identifier = kind := h
    have hpart : Identifier.isPart c = true := by simp [Identifier.isPart, hc]
    simp only [isSpelled, hkeyword, String.toList_ofList]
    simp [hpart, hc]

theorem symbol_spelled {c : Char} {cs : List Char} {kind : Token.Kind}
    (h : (symbol [] c cs).kind = some kind) :
    kind.isSpelled (String.ofList (symbol [] c cs).taken) = true := by
  have hsingle : symbol? c.toString = some kind → kind.isSpelled (String.ofList [c]) = true := by
    intro hkind
    rw [← String.singleton_eq_ofList]
    exact spelled_symbol hkind
  revert h
  simp only [symbol, List.nil_append]
  split
  · exact hsingle
  · split
    · split
      · rename_i found hfound
        rintro ⟨⟩
        exact spelled_symbol hfound
      · exact hsingle
    · exact hsingle

end Munch

/-- A lexeme with nothing kept in front of it is spelled like its kind. -/
theorem munch_spelled {c : Char} {cs : List Char} {kind : Token.Kind}
    (h : (munch [] c cs).kind = some kind) :
    kind.isSpelled (String.ofList (munch [] c cs).taken) = true := by
  revert h
  simp only [munch]
  split
  · rename_i hquote
    intro h
    rcases Munch.stringBody_kind cs with hkind | hkind
    · simp [Munch.cons, hkind] at h
    · simp only [Munch.cons, hkind, Option.some.injEq] at h
      subst h hquote
      simp [isSpelled, Munch.cons]
  · split
    · intro h
      rcases Munch.charBody_kind cs with hkind | hkind
      · simp [Munch.cons, hkind] at h
      · simp only [Munch.cons, hkind, Option.some.injEq] at h
        subst h
        rfl
    · split
      · rename_i hstart
        exact Munch.word_spelled hstart
      · split
        · exact fun h => Munch.number_spelled h _
        · exact Munch.symbol_spelled

namespace Lexer

theorem kept_skipFrom {comment : Bool} {l : Lexer} {cs : List Char} (h : l.kept = []) :
    (skipFrom comment l cs).kept = [] := by
  fun_induction skipFrom comment l cs with
  | case1 => exact h
  | case2 _ _ _ ih => exact ih rfl
  | case3 _ _ _ _ _ _ ih => exact ih rfl
  | case4 _ _ _ _ _ _ _ ih => exact ih rfl
  | case5 => exact h

/-- A token read with nothing kept is spelled like its kind, and leaves nothing kept. -/
theorem next_spelled {l l' : Lexer} {t : Token} (hkept : l.kept = []) (h : l.next = (.ok t, l')) :
    t.kind.isSpelled t.text = true ∧ l'.kept = [] := by
  have hskip : l.skip.kept = [] := kept_skipFrom hkept
  simp only [next] at h
  split at h
  · simp only [Prod.mk.injEq, Except.ok.injEq] at h
    obtain ⟨rfl, rfl⟩ := h
    exact ⟨rfl, hskip⟩
  · rw [hskip] at h
    split at h
    · rename_i kind hkind
      simp only [Prod.mk.injEq, Except.ok.injEq, List.nil_append] at h
      obtain ⟨rfl, rfl⟩ := h
      exact ⟨munch_spelled hkind, rfl⟩
    · simp at h

theorem tokens_spelled {fuel : Nat} {l : Lexer} {ts : List Token} (hkept : l.kept = [])
    (h : tokens fuel l = .ok ts) : ∀ t ∈ ts, t.kind.isSpelled t.text = true := by
  induction fuel generalizing l ts with
  | zero =>
    obtain rfl := Except.ok.inj h
    intro t ht
    rw [List.mem_singleton.mp ht]
    rfl
  | succ fuel ih =>
    simp only [tokens] at h
    split at h
    · cases h
    · rename_i t l' hnext
      obtain ⟨ht, hkept'⟩ := next_spelled hkept hnext
      split at h
      · obtain rfl := Except.ok.inj h
        simpa using ht
      · split at h
        · rename_i ts' hts'
          obtain rfl := Except.ok.inj h
          exact List.forall_mem_cons.mpr ⟨ht, ih hkept' hts'⟩
        · cases h

end Lexer

/-- The tokens of a source text are spelled like their kinds. -/
theorem tokenize_spelled {source : String} {ts : List Token} (h : tokenize source = .ok ts) :
    ∀ t ∈ ts, t.kind.isSpelled t.text = true :=
  Lexer.tokens_spelled rfl h

/-! ### Attributes of tokens -/

/-- The attribute of a text that is no mark is that text. -/
theorem Attribute.ofText_eq {text : String} (h : text.toList.head? ≠ some '#') :
    ofText text = .lexeme text := by
  have hafter : ∀ beginning : List Char, beginning.head? = some '#' →
      after? beginning text.toList = none := by
    intro beginning hhead
    rw [after?, if_neg]
    intro hstarts
    obtain ⟨more, hmore⟩ := List.isPrefixOf_iff_prefix.mp hstarts
    rw [← hmore, List.head?_append, hhead] at h
    exact h rfl
  have hne : ∀ mark : String, mark.toList.head? = some '#' → text ≠ mark := by
    rintro mark hmark rfl
    exact h hmark
  rw [ofText, if_neg (hne _ (by decide)), if_neg (hne _ (by decide)), hafter _ (by decide),
    hafter _ (by decide)]

end DuckLang
