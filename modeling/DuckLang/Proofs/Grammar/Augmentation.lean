import DuckLang.Proofs.Grammar.Closure
import DuckLang.Proofs.Grammar.Reading

/-! The augmented production.  Its head is made of that of the first production, and nothing keeps a
text from giving productions to that name.  Where it gives none, the augmented start heads its own
production only, occurs in no body, and the index of productions by their heads is complete; where it
gives some, the index has lost them when the entry of the augmented start was written. -/

namespace DuckLang.Grammar

variable {g : Grammar}

/-- An augmented start that is a new name, with every production in the index. -/
structure Faithful (g : Grammar) : Prop where
  alone : ∀ (id : Nat) (p : Production), g.productions[id]? = some p →
    (p.head = g.start ↔ id = 0)
  unused : ∀ (id : Nat) (p : Production), g.productions[id]? = some p →
    .nonterminal g.start ∉ p.body
  indexed : ∀ name, g.Indexed name

theorem mem_given {p : Production} :
    p ∈ g.given ↔ ∃ id, 0 < id ∧ g.productions[id]? = some p := by
  rw [given, List.mem_iff_getElem?]
  simp only [List.getElem?_tail, Array.getElem?_toList]
  constructor
  · rintro ⟨id, h⟩
    exact ⟨id + 1, id.succ_pos, h⟩
  · rintro ⟨id, hpos, h⟩
    exact ⟨id - 1, by rwa [Nat.sub_add_cancel hpos]⟩

theorem freshStart_iff : FreshStart g ↔ ∀ p ∈ g.given, p.head ≠ g.start := by
  constructor
  · intro h p hp hhead
    obtain ⟨id, hpos, hid⟩ := mem_given.mp hp
    exact absurd (h id p hid hhead) (Nat.pos_iff_ne_zero.mp hpos)
  · intro h id p hid hhead
    by_contra hne
    exact h p (mem_given.mpr ⟨id, Nat.pos_of_ne_zero hne, hid⟩) hhead

/-- With a fresh start the augmentation is faithful. -/
theorem Proper.faithful (hg : Proper g) (hfresh : FreshStart g) : Faithful g := by
  obtain ⟨s, hzero⟩ := hg.augmented
  have halone : ∀ (id : Nat) (p : Production), g.productions[id]? = some p →
      (p.head = g.start ↔ id = 0) := by
    intro id p hp
    refine ⟨hfresh id p hp, ?_⟩
    rintro rfl
    obtain rfl := Option.some.inj (hzero.symm.trans hp)
    rfl
  refine ⟨halone, fun id p hp hmem => hg.ne_start hfresh hp hmem rfl, fun name => ?_⟩
  by_cases hname : name = g.start
  · subst hname
    refine ⟨by simp [hg.startIds], fun id => ?_⟩
    rw [hg.startIds, List.mem_singleton]
    constructor
    · rintro rfl
      exact ⟨_, hzero, rfl⟩
    · rintro ⟨p, hp, hhead⟩
      exact (halone id p hp).mp hhead
  · exact hg.indexed hname

/-- A grammar that was read starts with the augmented production of its first head.  The augmentation
is faithful exactly if no production of the text has the name of the augmented start as its head; in
any case that name has production 0 alone in the index, and every other name all of its
productions. -/
theorem augmentation_faithful {text : String} (hread : read text = .ok g) :
    (∃ first ∈ g.given.head?, g.start = first.head ++ primeMark ∧
      g.productions[0]? = some { head := g.start, body := [.nonterminal first.head] }) ∧
    (g.Faithful ↔ ∀ p ∈ g.given, p.head ≠ g.start) ∧
    g.idsOf g.start = [0] ∧ ∀ name ≠ g.start, g.Indexed name := by
  have hproper := read_proper hread
  refine ⟨?_, ?_, hproper.startIds, fun name => hproper.indexed⟩
  · obtain ⟨first, rest, _, _, rfl⟩ := read_eq_ok.mp hread
    exact ⟨first, by simp [given_ofProductions], rfl, by rw [ofProductions_productions]; rfl⟩
  · rw [← freshStart_iff]
    exact ⟨fun h id p hp => (h.alone id p hp).mp, hproper.faithful⟩

/-- A text with heads of its own, which only end like an augmented start. -/
theorem augmentation_faithful_primes : ∃ g, read "<Prime> → <SPrime>\n<SPrime> → a" = .ok g ∧
    g.start = "PrimePrime" ∧ g.Faithful := by
  have hread : read "<Prime> → <SPrime>\n<SPrime> → a" = .ok (ofProductions
      { head := "Prime", body := [.nonterminal "SPrime"] }
      [{ head := "SPrime", body := [.terminal "a"] }]) := by rfl
  exact ⟨_, hread, by decide +kernel,
    (augmentation_faithful hread).2.1.mpr (by decide +kernel)⟩

/-- A text may take the name of the augmented start: it heads two productions then and stands in a
body, and the index has lost the production of the text. -/
theorem takenStart_unfaithful : ∃ g, read "<S> → <SPrime>\n<SPrime> → a" = .ok g ∧
    (∃ p, g.productions[2]? = some p ∧ p.head = g.start) ∧
    (∃ p, g.productions[1]? = some p ∧ .nonterminal g.start ∈ p.body) ∧
    g.idsOf g.start = [0] ∧ ¬g.Indexed g.start ∧ ¬g.Faithful := by
  have hread : read "<S> → <SPrime>\n<SPrime> → a" = .ok (ofProductions
      { head := "S", body := [.nonterminal "SPrime"] }
      [{ head := "SPrime", body := [.terminal "a"] }]) := by rfl
  have hlost : ¬(ofProductions { head := "S", body := [.nonterminal "SPrime"] }
      [{ head := "SPrime", body := [.terminal "a"] }]).Indexed "SPrime" := by
    intro h
    have := (h.complete 2).mpr ⟨_, rfl, rfl⟩
    revert this
    decide +kernel
  exact ⟨_, hread, ⟨_, rfl, by decide +kernel⟩, ⟨_, rfl, by decide +kernel⟩, by decide +kernel,
    hlost, fun h => hlost (h.indexed _)⟩

end DuckLang.Grammar
