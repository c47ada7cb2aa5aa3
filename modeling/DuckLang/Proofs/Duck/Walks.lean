import DuckLang.Grammar.Duck
import DuckLang.Proofs.Duck.Phrases

/-! Walking the productions of the Duck language: how each kind of symbol in a body is passed, and
how the reduction at its end is made. -/

namespace DuckLang.Duck

open Emitter
open DuckLang.Parser (Effect shiftEffect reduceEffect)

variable {γ γ₀ : Draft} {head : String} {done : List Attribute} {rest : List Grammar.Symbol}

/-- A production that does what its head promises. -/
def Keeps (p : Grammar.Production) : Prop :=
  ∀ γ, discipline.Ready p.head γ → discipline.Walk p.head γ [] p.body γ

theorem keeps_of_walk {phrase : Phrase} {body : List Grammar.Symbol}
    (hphrase : Phrase.of? head = some phrase)
    (h : ∀ γ, phrase.Ready γ → discipline.Walk head γ [] body γ) :
    Keeps (Grammar.Duck.rule head body) := by
  intro γ hready
  simp only [Grammar.Duck.rule, discipline, hphrase] at hready
  exact h γ hready

/-! ### Symbols -/

/-- A phrase that is ready is passed. -/
theorem walk_phrase {name : String} {phrase : Phrase} (hphrase : Phrase.of? name = some phrase)
    (hready : phrase.Ready γ)
    (h : ∀ a γ', phrase.Made γ a γ' → discipline.Walk head γ₀ (done ++ [a]) rest γ') :
    discipline.Walk head γ₀ done (.nonterminal name :: rest) γ := by
  have hnames : discipline.Ready name γ ↔ phrase.Ready γ := by
    simp only [discipline, hphrase]
  refine ⟨hnames.mpr hready, fun a γ' hmade => h a γ' ?_⟩
  simpa only [discipline, hphrase] using hmade

/-- The text of a token whose terminal is its spelling. -/
theorem Lexeme.text_eq {name : String} {a : Attribute} (h : Lexeme name a)
    (hname : name ∉ ["id", "cte_string", "cte_int", "cte_float", "cte_char"]) : a.text = name := by
  simp only [List.mem_cons, not_or] at hname
  rw [Lexeme, if_neg hname.1, if_neg hname.2.1] at h
  rcases h with hmem | htext
  · simp_all
  · exact htext

/-- The attribute of a token that is spelled like its kind. -/
theorem lexeme_of_spelled {kind : Token.Kind} {text : String}
    (h : kind.isSpelled text = true) : Lexeme kind.terminal (.ofText text) := by
  have hlisted : kind.terminal ≠ "id" → kind.terminal ≠ "cte_string" → text = kind.terminal →
      text.toList.head? ≠ some '#' → Lexeme kind.terminal (.ofText text) := by
    intro hid hstring htext hmark
    rw [Lexeme, if_neg hid, if_neg hstring, Attribute.ofText_eq hmark]
    exact .inr htext
  cases kind with
  | identifier =>
    simp only [Token.Kind.isSpelled, Bool.and_eq_true, Option.any_eq_true] at h
    obtain ⟨⟨c, hhead, hc⟩, hkeyword⟩ := h
    have hmark : text.toList.head? ≠ some '#' := by
      rw [hhead]
      rintro ⟨⟩
      revert hc
      decide
    refine ⟨text, Attribute.ofText_eq hmark, ?_, ?_⟩
    · rintro rfl
      cases hhead
    · rintro rfl
      revert hkeyword
      decide
  | stringLiteral =>
    have hhead : text.toList.head? = some '"' := by simpa [Token.Kind.isSpelled] using h
    have hmark : text.toList.head? ≠ some '#' := by
      rw [hhead]
      decide
    show String.startsWith (Attribute.ofText text).text "\"" = true
    rw [Attribute.ofText_eq hmark, String.startsWith_string_iff]
    cases hlist : text.toList with
    | nil => simp [hlist] at hhead
    | cons c cs =>
      obtain rfl : c = '"' := by simpa [hlist] using hhead
      exact ⟨cs, by simp [Attribute.text, hlist]⟩
  | intLiteral => exact .inl (by decide)
  | floatLiteral => exact .inl (by decide)
  | charLiteral => exact .inl (by decide)
  | unknown => cases h
  | _ =>
    obtain rfl := of_decide_eq_true h
    exact hlisted (by decide) (by decide) rfl (by decide)

/-- A kind without a hook has no effect when it is shifted. -/
theorem shiftEffect_plain {kind : Token.Kind} (h : Hook.of? kind.terminal = none) :
    shiftEffect kind = pure () := by
  cases kind <;> first | rfl | cases h

theorem shiftEffect_hook {kind : Token.Kind} {hook : Hook}
    (h : Hook.of? kind.terminal = some hook) : shiftEffect kind = hook.effect := by
  cases kind <;> first | (obtain rfl := Option.some.inj h; rfl) | cases h

/-- A token without an effect is passed. -/
theorem walk_token {name : String} (hplain : Hook.of? name = none)
    (h : ∀ a, Lexeme name a → discipline.Walk head γ₀ (done ++ [a]) rest γ) :
    discipline.Walk head γ₀ done (.terminal name :: rest) γ := by
  have hmade : ∀ a γ', discipline.Made (.terminal name) γ a γ' ↔ γ' = γ ∧ Lexeme name a := by
    intro a γ'
    simp only [discipline, hplain]
  refine ⟨?_, fun a γ' ha => ?_⟩
  · rintro t hword rfl
    rw [shiftEffect_plain hplain]
    exact ⟨γ, rfl, (hmade _ _).mpr ⟨rfl, lexeme_of_spelled hword⟩⟩
  · obtain ⟨rfl, hlexeme⟩ := (hmade a γ').mp ha
    exact h a hlexeme

/-- A token with an effect is passed if it has that effect. -/
theorem walk_hook {name : String} {hook : Hook} (hhook : Hook.of? name = some hook)
    (heffect : Draft.Takes hook.effect γ fun _ => hook.Made γ)
    (h : ∀ a γ', hook.Made γ γ' → discipline.Walk head γ₀ (done ++ [a]) rest γ') :
    discipline.Walk head γ₀ done (.terminal name :: rest) γ := by
  have hmade : ∀ a γ', discipline.Made (.terminal name) γ a γ' ↔ hook.Made γ γ' := by
    intro a γ'
    simp only [discipline, hhook]
  refine ⟨?_, fun a γ' ha => h a γ' ((hmade a γ').mp ha)⟩
  rintro t _ rfl
  rw [shiftEffect_hook hhook]
  exact heffect.mono fun _ γ' hγ' => (hmade _ γ').mpr hγ'

/-! ### Reductions -/

theorem walk_reduce {phrase : Phrase} (hphrase : Phrase.of? head = some phrase)
    (h : Draft.Takes (reduceEffect head done) γ (phrase.Made γ₀)) :
    discipline.Walk head γ₀ done [] γ := by
  refine h.mono fun a γ' hmade => ?_
  simpa only [discipline, hphrase] using hmade

/-- A reduction by a rule with an effect. -/
theorem walk_effect {phrase : Phrase} {effect : Effect} (hphrase : Phrase.of? head = some phrase)
    (heffect : Effect.of? head done.length = some effect)
    (h : Draft.Takes (effect.run done) γ (phrase.Made γ₀)) :
    discipline.Walk head γ₀ done [] γ := by
  refine walk_reduce hphrase ?_
  simp only [reduceEffect, heffect]
  exact h

/-- A reduction by a rule without an effect that passes its only attribute on. -/
theorem walk_pass {phrase : Phrase} {a : Attribute} (hphrase : Phrase.of? head = some phrase)
    (heffect : Effect.of? head 1 = none) (h : phrase.Made γ₀ a γ) :
    discipline.Walk head γ₀ [a] [] γ := by
  refine walk_reduce hphrase ?_
  simp only [reduceEffect, List.length_singleton, heffect]
  exact .pure h

/-- A reduction by a rule without an effect of which no attribute is left. -/
theorem walk_plain {phrase : Phrase} (hphrase : Phrase.of? head = some phrase)
    (hlength : done.length ≠ 1) (heffect : Effect.of? head done.length = none)
    (h : phrase.Made γ₀ .nothing γ) : discipline.Walk head γ₀ done [] γ := by
  refine walk_reduce hphrase ?_
  simp only [reduceEffect, heffect]
  cases done with
  | nil => exact .pure h
  | cons a rest =>
    cases rest with
    | nil => exact absurd rfl hlength
    | cons b rest => exact .pure h

/-- A phrase that is another of its sort. -/
theorem keeps_unit {name : String} {phrase : Phrase} (hhead : Phrase.of? head = some phrase)
    (hname : Phrase.of? name = some phrase) (heffect : Effect.of? head 1 = none) :
    Keeps (Grammar.Duck.rule head [.nonterminal name]) := by
  refine keeps_of_walk hhead fun γ hready => ?_
  exact walk_phrase hname hready fun _ γ₁ hmade => walk_pass hhead heffect hmade

end DuckLang.Duck
