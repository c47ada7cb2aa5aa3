import DuckLang.Grammar.Automaton
import DuckLang.Proofs.Ascending
import DuckLang.Proofs.Grammar.Proper
import Mathlib.Data.List.Nodup
import Mathlib.Data.List.Perm.Subperm

/-! Item sets.  They are strictly increasing, so that equal sets are equal lists, and `close` adds
to a set exactly the items that its items call for: the number of steps it may take is enough. -/

namespace DuckLang.Grammar

variable {g : Grammar}

theorem production_of_rule {id : Nat} {p : Production} (h : g.productions[id]? = some p) :
    g.production id = p := by
  simp [production, h]

theorem rule_of_lt {id : Nat} (h : id < g.productions.size) :
    g.productions[id]? = some (g.production id) := by
  simp [production, h]

theorem Proper.size_pos (hg : Proper g) : 0 < g.productions.size := by
  obtain ⟨_, h⟩ := hg.augmented
  exact (Array.getElem?_eq_some_iff.mp h).1

theorem mem_idsOf_lt (hg : Proper g) {head : String} {id : Nat} (h : id ∈ g.idsOf head) :
    id < g.productions.size := by
  by_cases hhead : head = g.start
  · subst hhead
    rw [hg.startIds, List.mem_singleton] at h
    exact h ▸ hg.size_pos
  · obtain ⟨p, hp, _⟩ := ((hg.indexed hhead).complete id).mp h
    exact (Array.getElem?_eq_some_iff.mp hp).1

theorem idsOf_nodup (hg : Proper g) (head : String) : (g.idsOf head).Nodup := by
  by_cases hhead : head = g.start
  · subst hhead
    simp [hg.startIds]
  · exact (hg.indexed hhead).increasing.imp Nat.ne_of_lt

/-- The productions of a non-terminal other than the augmented start. -/
theorem mem_idsOf (hg : Proper g) {head : String} (hhead : head ≠ g.start) {id : Nat} :
    id ∈ g.idsOf head ↔ ∃ p, g.productions[id]? = some p ∧ p.head = head :=
  (hg.indexed hhead).complete id

theorem mem_predictions {item new : Item} :
    new ∈ g.predictions item ↔
      ∃ name, g.next? item = some (.nonterminal name) ∧ new.rule ∈ g.idsOf name ∧ new.dot = 0 := by
  simp only [predictions]
  split
  · rename_i name hname
    simp only [List.mem_map, hname, Option.some.injEq, Symbol.nonterminal.injEq, exists_eq_left']
    constructor
    · rintro ⟨id, hid, rfl⟩
      exact ⟨hid, rfl⟩
    · rintro ⟨hid, hdot⟩
      exact ⟨new.rule, hid, by rw [← hdot]⟩
  · rename_i hnone
    simp only [List.not_mem_nil, false_iff]
    rintro ⟨name, hname, _⟩
    exact hnone name hname

theorem predictions_nodup (hg : Proper g) (item : Item) : (g.predictions item).Nodup := by
  simp only [predictions]
  split
  · exact (idsOf_nodup hg _).map fun _ _ h => congrArg Item.rule h
  · exact .nil

namespace ItemSet

theorem mem_foldl_insert {x : Item} {new : List Item} {items : ItemSet} :
    x ∈ new.foldl (fun set i => ItemSet.insert i set) items ↔ x ∈ new ∨ x ∈ items := by
  induction new generalizing items with
  | nil => simp
  | cons y ys ih =>
    rw [List.foldl_cons, ih, ItemSet.insert, Ascending.mem_insert, List.mem_cons, or_assoc,
      or_left_comm]

/-- A strictly increasing list of items. -/
def Increasing (items : ItemSet) : Prop :=
  items.Pairwise fun a b => a.before b

theorem before_iff {a b : Item} :
    a.before b = true ↔ a.rule < b.rule ∨ (a.rule = b.rule ∧ a.dot < b.dot) := by
  simp [Item.before]

theorem Increasing.insert {item : Item} {items : ItemSet} (h : Increasing items) :
    Increasing (ItemSet.insert item items) := by
  refine Ascending.pairwise_insert (fun hab hbc => ?_) (fun {a b} hne hnlt => ?_) h
  · simp only [before_iff] at hab hbc ⊢
    omega
  · have hdiffer : ¬(a.rule = b.rule ∧ a.dot = b.dot) := fun h => hne (by
      cases a; cases b; simp_all)
    simp only [before_iff] at hnlt ⊢
    omega

theorem Increasing.foldl_insert {new : List Item} {items : ItemSet} (h : Increasing items) :
    Increasing (new.foldl (fun set i => ItemSet.insert i set) items) := by
  induction new generalizing items with
  | nil => exact h
  | cons y ys ih => exact ih h.insert

theorem before_asymm {a b : Item} (hab : a.before b = true) (hba : b.before a = true) : False := by
  simp only [before_iff] at hab hba
  omega

theorem Increasing.nodup {items : ItemSet} (h : Increasing items) : items.Nodup := by
  refine List.Pairwise.imp ?_ h
  rintro a b hab rfl
  exact before_asymm hab hab

/-- Increasing lists with the same items are equal. -/
theorem Increasing.ext {xs ys : ItemSet} (hx : Increasing xs) (hy : Increasing ys)
    (h : ∀ i, i ∈ xs ↔ i ∈ ys) : xs = ys :=
  List.Perm.eq_of_pairwise (fun _ _ _ _ hab hba => (before_asymm hab hba).elim) hx hy
    ((List.perm_ext_iff_of_nodup hx.nodup hy.nodup).mpr h)

end ItemSet

/-- The items that a set calls for: its own, and with each item those it predicts. -/
inductive InClosure (g : Grammar) (items : ItemSet) : Item → Prop
  | kernel {i : Item} (h : i ∈ items) : InClosure g items i
  | predicted {i j : Item} (h : InClosure g items i) (hj : j ∈ g.predictions i) :
      InClosure g items j

/-- The productions whose first item a set lacks. -/
def missing (g : Grammar) (closed : ItemSet) : List Nat :=
  (List.range g.productions.size).filter fun rule => !closed.contains { rule, dot := 0 }

/-- New predictions make up for the productions that are no longer missing. -/
theorem missing_insert (hg : Proper g) {item : Item} {closed : ItemSet}
    {new : List Item} (hnew : new = (g.predictions item).filter fun i => !closed.contains i) :
    new.length + (g.missing (new.foldl (fun set i => ItemSet.insert i set) closed)).length ≤
      (g.missing closed).length := by
  have hspec : ∀ i ∈ new, i.dot = 0 ∧ i.rule < g.productions.size ∧ i ∉ closed := by
    intro i hi
    simp only [hnew, List.mem_filter, Bool.not_eq_true', List.contains_eq_mem,
      decide_eq_false_iff_not] at hi
    obtain ⟨name, _, hid, hdot⟩ := mem_predictions.mp hi.1
    exact ⟨hdot, mem_idsOf_lt hg hid, hi.2⟩
  have hnodup : (new.map (·.rule)).Nodup := by
    refine List.Nodup.map_on ?_ (hnew ▸ (predictions_nodup hg item).filter _)
    intro a ha b hb hab
    have h1 := (hspec a ha).1
    have h2 := (hspec b hb).1
    cases a; cases b; simp_all
  have hsub : new.map (·.rule) ++
      g.missing (new.foldl (fun set i => ItemSet.insert i set) closed) ⊆ g.missing closed := by
    intro r hr
    simp only [missing, List.mem_append, List.mem_map, List.mem_filter, List.mem_range,
      Bool.not_eq_true', List.contains_eq_mem, decide_eq_false_iff_not,
      ItemSet.mem_foldl_insert] at hr ⊢
    rcases hr with ⟨i, hi, rfl⟩ | ⟨hlt, hno⟩
    · obtain ⟨hdot, hlt, hmem⟩ := hspec i hi
      refine ⟨hlt, fun h => hmem ?_⟩
      rwa [← hdot] at h
    · exact ⟨hlt, fun h => hno (.inr h)⟩
  have hdisjoint : (new.map (·.rule) ++
      g.missing (new.foldl (fun set i => ItemSet.insert i set) closed)).Nodup := by
    refine List.nodup_append.mpr ⟨hnodup, List.nodup_range.filter _, ?_⟩
    rintro r hr s hs rfl
    obtain ⟨i, hi, rfl⟩ := List.mem_map.mp hr
    simp only [missing, List.mem_filter, Bool.not_eq_true', List.contains_eq_mem,
      decide_eq_false_iff_not, ItemSet.mem_foldl_insert] at hs
    have hdot := (hspec i hi).1
    exact hs.2 (.inl (by rwa [← hdot]))
  have := (hdisjoint.subperm hsub).length_le
  simpa using this

/-- The items that are closed already, and those `pending`, whose predictions come next. -/
theorem closeLoop_closed (hg : Proper g) (fuel : Nat) {pending : List Item}
    {closed : ItemSet} (hfuel : pending.length + (g.missing closed).length ≤ fuel)
    (hdone : ∀ i ∈ closed, i ∈ pending ∨ ∀ j ∈ g.predictions i, j ∈ closed) :
    ∀ i ∈ g.closeLoop fuel pending closed, ∀ j ∈ g.predictions i,
      j ∈ g.closeLoop fuel pending closed := by
  induction fuel generalizing pending closed with
  | zero =>
    obtain rfl : pending = [] := List.eq_nil_of_length_eq_zero (by omega)
    simpa [closeLoop] using hdone
  | succ fuel ih =>
    cases pending with
    | nil => simpa [closeLoop] using hdone
    | cons item pending =>
      have hmissing := @missing_insert g hg item closed _ rfl
      simp only [closeLoop]
      refine ih ?_ ?_
      · simp only [List.length_append, List.length_cons] at hfuel ⊢
        omega
      · intro i hi
        simp only [ItemSet.mem_foldl_insert, List.mem_append] at hi ⊢
        rcases hi with hi | hi
        · exact .inl (.inr hi)
        · rcases hdone i hi with hp | hp
          · rcases List.mem_cons.mp hp with rfl | hp
            · refine .inr fun j hj => ?_
              by_cases hmem : j ∈ closed
              · exact .inr hmem
              · exact .inl (by simp [hj, hmem])
            · exact .inl (.inl hp)
          · exact .inr fun j hj => .inr (hp j hj)

theorem closeLoop_subset (fuel : Nat) {pending : List Item} {closed : ItemSet} {i : Item}
    (h : i ∈ closed) : i ∈ g.closeLoop fuel pending closed := by
  induction fuel generalizing pending closed with
  | zero => simpa [closeLoop] using h
  | succ fuel ih =>
    cases pending with
    | nil => simpa [closeLoop] using h
    | cons item pending => exact ih (ItemSet.mem_foldl_insert.mpr (.inr h))

theorem closeLoop_inClosure (fuel : Nat) {items : ItemSet} {pending : List Item} {closed : ItemSet}
    (hpending : ∀ i ∈ pending, InClosure g items i) (hclosed : ∀ i ∈ closed, InClosure g items i) :
    ∀ i ∈ g.closeLoop fuel pending closed, InClosure g items i := by
  induction fuel generalizing pending closed with
  | zero => simpa [closeLoop] using hclosed
  | succ fuel ih =>
    cases pending with
    | nil => simpa [closeLoop] using hclosed
    | cons item pending =>
      have hitem := hpending item List.mem_cons_self
      refine ih ?_ ?_
      · intro i hi
        rcases List.mem_append.mp hi with hi | hi
        · exact hpending i (List.mem_cons_of_mem _ hi)
        · exact .predicted hitem (List.mem_filter.mp hi).1
      · intro i hi
        rcases ItemSet.mem_foldl_insert.mp hi with hi | hi
        · exact .predicted hitem (List.mem_filter.mp hi).1
        · exact hclosed i hi

theorem closeLoop_increasing (fuel : Nat) {pending : List Item} {closed : ItemSet}
    (h : closed.Increasing) : ItemSet.Increasing (g.closeLoop fuel pending closed) := by
  induction fuel generalizing pending closed with
  | zero => simpa [closeLoop] using h
  | succ fuel ih =>
    cases pending with
    | nil => simpa [closeLoop] using h
    | cons item pending => exact ih h.foldl_insert

/-- A closure is closed. -/
theorem close_closed (hg : Proper g) {items : ItemSet} {i j : Item}
    (hi : i ∈ g.close items) (hj : j ∈ g.predictions i) : j ∈ g.close items := by
  refine closeLoop_closed hg _ ?_ (fun i hi => .inl hi) i hi j hj
  have : (g.missing items).length ≤ g.productions.size := by
    simpa [missing] using List.length_filter_le _ (List.range g.productions.size)
  omega

theorem mem_close (hg : Proper g) {items : ItemSet} {i : Item} :
    i ∈ g.close items ↔ InClosure g items i := by
  constructor
  · exact closeLoop_inClosure _ (fun _ h => .kernel h) (fun _ h => .kernel h) i
  · intro h
    induction h with
    | kernel h => exact closeLoop_subset _ h
    | predicted _ hj ih => exact close_closed hg ih hj

theorem close_increasing {items : ItemSet} (h : items.Increasing) :
    ItemSet.Increasing (g.close items) :=
  closeLoop_increasing _ h

/-- The items of a closure with the dot further on are those of its kernel. -/
theorem InClosure.kernel_of_pos {items : ItemSet} {i : Item} (h : InClosure g items i)
    (hdot : 0 < i.dot) : i ∈ items := by
  cases h with
  | kernel h => exact h
  | predicted _ hj =>
    obtain ⟨_, _, _, hzero⟩ := mem_predictions.mp hj
    omega

theorem mem_advance {items : ItemSet} {symbol : Symbol} {i : Item} :
    i ∈ g.advance items symbol ↔
      ∃ j ∈ items, g.next? j = some symbol ∧ i = { j with dot := j.dot + 1 } := by
  simp only [advance, List.mem_map, List.mem_filter, decide_eq_true_eq]
  constructor
  · rintro ⟨j, ⟨hj, hnext⟩, rfl⟩
    exact ⟨j, hj, hnext, rfl⟩
  · rintro ⟨j, hj, hnext, rfl⟩
    exact ⟨j, ⟨hj, hnext⟩, rfl⟩

theorem advance_increasing {items : ItemSet} (h : items.Increasing) (symbol : Symbol) :
    ItemSet.Increasing (g.advance items symbol) := by
  refine List.Pairwise.map _ (fun a b hab => ?_) (h.filter _)
  simp only [ItemSet.before_iff] at hab ⊢
  omega

end DuckLang.Grammar
