import DuckLang.Grammar
import Mathlib.Logic.Relation

/-! Derivations.  `Derives` applies productions anywhere, `Rightmost` applies numbered productions
to the last non-terminal each time, and `Yields` says that symbols cover a word, production by
production.  A word is a sentence iff the augmented start derives it. -/

namespace DuckLang.Grammar

variable {g : Grammar}

/-- The symbols of a word of terminals. -/
def word (names : List String) : List Symbol :=
  names.map .terminal

@[simp] theorem word_nil : word [] = [] := rfl

@[simp] theorem word_cons (name : String) (names : List String) :
    word (name :: names) = .terminal name :: word names := rfl

@[simp] theorem word_append (u v : List String) : word (u ++ v) = word u ++ word v :=
  List.map_append

/-- One production applied somewhere. -/
inductive Produces (g : Grammar) : List Symbol → List Symbol → Prop
  | apply (left right : List Symbol) {id : Nat} {p : Production}
      (rule : g.productions[id]? = some p) :
      Produces g (left ++ .nonterminal p.head :: right) (left ++ p.body ++ right)

/-- Any number of productions applied. -/
def Derives (g : Grammar) : List Symbol → List Symbol → Prop :=
  Relation.ReflTransGen g.Produces

/-- The words that the augmented start derives. -/
def IsSentence (g : Grammar) (names : List String) : Prop :=
  g.Derives [.nonterminal g.start] (word names)

/-- The productions with the given numbers, applied in order, each to the last non-terminal. -/
inductive Rightmost (g : Grammar) : List Nat → List Symbol → List Symbol → Prop
  | refl (u : List Symbol) : Rightmost g [] u u
  | step (left : List Symbol) (right : List String) {id : Nat} {p : Production} {ids : List Nat}
      {v : List Symbol} (rule : g.productions[id]? = some p)
      (rest : Rightmost g ids (left ++ p.body ++ word right) v) :
      Rightmost g (id :: ids) (left ++ .nonterminal p.head :: word right) v

/-- A terminal behind both ends of a rightmost derivation. -/
theorem Rightmost.append_terminal {ids : List Nat} {u v : List Symbol}
    (h : Rightmost g ids u v) (name : String) :
    Rightmost g ids (u ++ [.terminal name]) (v ++ [.terminal name]) := by
  induction h with
  | refl u => exact .refl _
  | step left right rule _ ih =>
    have hrest := Rightmost.step left (right ++ [name]) rule
      (by simpa [List.append_assoc] using ih)
    simpa [List.append_assoc] using hrest

theorem Rightmost.derives {ids : List Nat} {u v : List Symbol} (h : Rightmost g ids u v) :
    g.Derives u v := by
  induction h with
  | refl u => exact .refl
  | step left right rule _ ih => exact .head (.apply left (word right) rule) ih

/-- Symbols that cover a word: a terminal covers its name, a non-terminal what the body of one of
its productions covers. -/
inductive Yields (g : Grammar) : List Symbol → List String → Prop
  | nil : Yields g [] []
  | terminal {name : String} {symbols : List Symbol} {names : List String}
      (rest : Yields g symbols names) : Yields g (.terminal name :: symbols) (name :: names)
  | rule {id : Nat} {p : Production} {symbols : List Symbol} {u v : List String}
      (rule : g.productions[id]? = some p) (body : Yields g p.body u) (rest : Yields g symbols v) :
      Yields g (.nonterminal p.head :: symbols) (u ++ v)

theorem Yields.word : (names : List String) → Yields g (word names) names
  | [] => .nil
  | _ :: names => .terminal (Yields.word names)

theorem Yields.append {xs ys : List Symbol} {u v : List String} (hx : Yields g xs u)
    (hy : Yields g ys v) : Yields g (xs ++ ys) (u ++ v) := by
  induction hx with
  | nil => exact hy
  | terminal _ ih => exact .terminal ih
  | rule rule body _ _ ih =>
    rw [List.append_assoc]
    exact .rule rule body ih

theorem Yields.split {xs ys : List Symbol} {w : List String} (h : Yields g (xs ++ ys) w) :
    ∃ u v, w = u ++ v ∧ Yields g xs u ∧ Yields g ys v := by
  induction xs generalizing w with
  | nil => exact ⟨[], w, rfl, .nil, h⟩
  | cons x xs ih =>
    cases h with
    | terminal rest =>
      obtain ⟨u, v, rfl, hu, hv⟩ := ih rest
      exact ⟨_ :: u, v, rfl, .terminal hu, hv⟩
    | rule rule body rest =>
      obtain ⟨u, v, rfl, hu, hv⟩ := ih rest
      exact ⟨_, v, (List.append_assoc ..).symm, .rule rule body hu, hv⟩

/-- What a non-terminal covers, a production of it covers. -/
theorem Yields.of_nonterminal {name : String} {w : List String}
    (h : Yields g [.nonterminal name] w) :
    ∃ (id : Nat) (p : Production), g.productions[id]? = some p ∧ p.head = name ∧
      Yields g p.body w := by
  cases h with
  | @rule id p _ u v rule body rest =>
    cases rest
    rw [List.append_nil]
    exact ⟨id, p, rule, rfl, body⟩

/-- A production undone: what covers its result covers what it was applied to. -/
theorem Produces.yields {before after : List Symbol} {w : List String}
    (h : g.Produces before after) (hw : Yields g after w) : Yields g before w := by
  obtain ⟨left, right, rule⟩ := h
  obtain ⟨_, v, rfl, hl, hv⟩ := Yields.split hw
  obtain ⟨u, m, rfl, hu, hm⟩ := Yields.split hl
  rw [List.append_assoc]
  exact hu.append (.rule rule hm hv)

theorem Derives.yields {symbols : List Symbol} {names : List String}
    (h : g.Derives symbols (Grammar.word names)) : Yields g symbols names := by
  induction h using Relation.ReflTransGen.head_induction_on with
  | refl => exact Yields.word names
  | head step _ ih => exact step.yields ih

theorem Derives.trans {u v w : List Symbol} (h : g.Derives u v) (h' : g.Derives v w) :
    g.Derives u w :=
  Relation.ReflTransGen.trans h h'

/-- A derivation between other symbols. -/
theorem Derives.frame {u v : List Symbol} (h : g.Derives u v) (left right : List Symbol) :
    g.Derives (left ++ u ++ right) (left ++ v ++ right) := by
  induction h with
  | refl => exact .refl
  | tail _ step ih =>
    obtain ⟨l, r, rule⟩ := step
    refine ih.tail ?_
    simpa using Produces.apply (left ++ l) (r ++ right) rule

theorem Derives.append {u u' v v' : List Symbol} (h : g.Derives u u') (h' : g.Derives v v') :
    g.Derives (u ++ v) (u' ++ v') := by
  have hleft : g.Derives (u ++ v) (u' ++ v) := by simpa using h.frame [] v
  have hright : g.Derives (u' ++ v) (u' ++ v') := by simpa using h'.frame u' []
  exact hleft.trans hright

theorem Derives.rule {id : Nat} {p : Production} (h : g.productions[id]? = some p) :
    g.Derives [.nonterminal p.head] p.body := by
  have hstep := Produces.apply [] [] h
  rw [List.nil_append, List.nil_append, List.append_nil] at hstep
  exact .single hstep

/-- What symbols cover they derive. -/
theorem Yields.derives {symbols : List Symbol} {names : List String} (h : Yields g symbols names) :
    g.Derives symbols (Grammar.word names) := by
  induction h with
  | nil => exact .refl
  | @terminal name symbols names _ ih => exact Derives.append (u := [.terminal name]) .refl ih
  | rule rule _ _ ihBody ihRest =>
    rw [word_append]
    exact Derives.append ((Derives.rule rule).trans ihBody) ihRest

/-- What holds of the terminals of symbols and of all bodies holds of those of every form derived.
-/
theorem Derives.forall_terminal {P : String → Prop} {u v : List Symbol} (h : g.Derives u v)
    (hu : ∀ name, .terminal name ∈ u → P name)
    (hbodies : ∀ (id : Nat) (p : Production), g.productions[id]? = some p →
      ∀ name, .terminal name ∈ p.body → P name) :
    ∀ name, .terminal name ∈ v → P name := by
  induction h with
  | refl => exact hu
  | tail _ step ih =>
    obtain ⟨left, right, rule⟩ := step
    intro name hname
    simp only [List.mem_append] at hname
    rcases hname with (hleft | hbody) | hright
    · exact ih name (by simp [hleft])
    · exact hbodies _ _ rule name hbody
    · exact ih name (by simp [hright])

end DuckLang.Grammar
