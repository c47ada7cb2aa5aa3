import DuckLang.Grammar.Analysis
import DuckLang.Proofs.Ascending
import DuckLang.Proofs.Grammar.Derivation
import DuckLang.Proofs.Grammar.Proper
import Mathlib.Algebra.GroupWithZero.Nat
import Mathlib.Algebra.Order.BigOperators.Group.List
import Mathlib.Data.List.Nodup
import Mathlib.Data.List.Perm.Subperm
import Mathlib.Data.String.Basic

/-! FIRST and FOLLOW are fixed points: a pass that changes a table makes it larger, and tables are
bounded, so that the passes come to an end within their number.  It follows that FIRST has the
first terminal of every word that symbols cover, and FOLLOW every terminal that comes behind. -/

namespace DuckLang

namespace NameSet

theorem mem_insert {x name : String} {set : NameSet} :
    x ∈ NameSet.insert name set ↔ x = name ∨ x ∈ set :=
  Ascending.mem_insert

theorem mem_union {x : String} {set : NameSet} {names : List String} :
    x ∈ set.union names ↔ x ∈ set ∨ x ∈ names := by
  induction names generalizing set with
  | nil => simp [NameSet.union]
  | cons y ys ih =>
    have := @ih (NameSet.insert y set)
    simp only [NameSet.union, List.foldl_cons, mem_insert, List.mem_cons] at this ⊢
    rw [this]
    tauto

/-- A strictly increasing list of names. -/
def Increasing (set : NameSet) : Prop :=
  set.Pairwise (· < ·)

theorem Increasing.insert {name : String} {set : NameSet} (h : Increasing set) :
    Increasing (NameSet.insert name set) :=
  Ascending.pairwise_insert lt_trans (fun hne hnlt => lt_of_le_of_ne (not_lt.mp hnlt) hne.symm) h

theorem Increasing.union {set : NameSet} (h : Increasing set) (names : List String) :
    Increasing (set.union names) := by
  induction names generalizing set with
  | nil => exact h
  | cons y ys ih => exact ih h.insert

theorem Increasing.nodup {set : NameSet} (h : Increasing set) : set.Nodup :=
  List.Pairwise.imp (fun hab => hab.ne) h

theorem union_eq_or_length (names : List String) (set : NameSet) :
    set.union names = set ∨ set.length < (set.union names).length := by
  induction names generalizing set with
  | nil => exact .inl rfl
  | cons y ys ih =>
    have hunion : set.union (y :: ys) = (NameSet.insert y set).union ys := rfl
    have hinsert : NameSet.insert y set = set ∨ set.length < (NameSet.insert y set).length :=
      Ascending.insert_eq_or_length y set
    rw [hunion]
    rcases hinsert with h | h <;> rcases ih (NameSet.insert y set) with h' | h'
    · exact .inl (by rw [h', h])
    · exact .inr (by rw [h] at h' ⊢; exact h')
    · exact .inr (by rw [h']; exact h)
    · exact .inr (h.trans h')

end NameSet

namespace Grammar

variable {g : Grammar}

/-- A bounded size that every change makes larger brings an iteration to a fixed point. -/
theorem iterate_fixed {α : Type} [DecidableEq α] {f : α → α} {I : α → Prop} {size : α → Nat}
    {bound : Nat} (hI : ∀ a, I a → I (f a)) (hgrow : ∀ a, f a = a ∨ size a < size (f a))
    (hbound : ∀ a, I a → size a ≤ bound) (fuel : Nat) (a : α) (ha : I a)
    (hfuel : bound < fuel + size a) :
    I (iterate f fuel a) ∧ f (iterate f fuel a) = iterate f fuel a := by
  induction fuel generalizing a with
  | zero =>
    have := hbound a ha
    omega
  | succ fuel ih =>
    simp only [iterate]
    split
    · rename_i h
      exact ⟨ha, h⟩
    · rename_i h
      have := (hgrow a).resolve_left h
      exact ih (f a) (hI a ha) (by omega)

theorem iterate_induction {α : Type} [DecidableEq α] {f : α → α} {I : α → Prop}
    (hf : ∀ a, I a → I (f a)) (fuel : Nat) {a : α} (ha : I a) : I (iterate f fuel a) := by
  induction fuel generalizing a with
  | zero => exact ha
  | succ fuel ih =>
    simp only [iterate]
    split
    · exact ha
    · exact ih (hf a ha)

namespace SetTable

/-- The number of names in all sets of a table. -/
def size (table : SetTable) : Nat :=
  (table.map fun entry => entry.2.length).sum

/-- Either nothing has changed or there are more names. -/
def Grows (before after : SetTable) : Prop :=
  after = before ∨ before.size < after.size

theorem Grows.refl (table : SetTable) : Grows table table := .inl rfl

theorem Grows.trans {a b c : SetTable} (h : Grows a b) (h' : Grows b c) : Grows a c := by
  rcases h with rfl | h
  · exact h'
  · rcases h' with rfl | h'
    · exact .inr h
    · exact .inr (h.trans h')

theorem Grows.antisymm {a b : SetTable} (h : Grows a b) (h' : Grows b a) : b = a := by
  rcases h with h | h
  · exact h
  · rcases h' with h' | h'
    · exact h'.symm
    · omega

theorem grows_grow (table : SetTable) (name : String) (names : List String) :
    Grows table (table.grow name names) := by
  induction table with
  | nil => exact .refl _
  | cons entry rest ih =>
    have hentry : (if entry.1 = name then entry.2.union names else entry.2) = entry.2 ∨
        entry.2.length < (if entry.1 = name then entry.2.union names else entry.2).length := by
      split
      · exact NameSet.union_eq_or_length names entry.2
      · exact .inl rfl
    simp only [Grows, grow, size, List.map_cons, List.sum_cons] at ih ⊢
    rcases hentry with h | h <;> rcases ih with h' | h'
    · exact .inl (by rw [h, h'])
    · exact .inr (by rw [h]; omega)
    · exact .inr (by rw [h']; omega)
    · exact .inr (by omega)

theorem grows_foldl {α : Type} {f : SetTable → α → SetTable} (hf : ∀ t x, Grows t (f t x))
    (xs : List α) (table : SetTable) : Grows table (xs.foldl f table) := by
  induction xs generalizing table with
  | nil => exact .refl _
  | cons x xs ih => exact (hf table x).trans (ih _)

/-- A fold of steps that grow and lead back leaves the table alone at each step. -/
theorem foldl_fixed {α : Type} {f : SetTable → α → SetTable} (hf : ∀ t x, Grows t (f t x))
    {xs : List α} {table : SetTable} (h : xs.foldl f table = table) :
    ∀ x ∈ xs, f table x = table := by
  induction xs with
  | nil => simp
  | cons x xs ih =>
    rw [List.foldl_cons] at h
    have hback : Grows (f table x) (xs.foldl f (f table x)) := grows_foldl hf xs _
    rw [h] at hback
    have hx : f table x = table := (hf table x).antisymm hback
    intro y hy
    rcases List.mem_cons.mp hy with rfl | hy
    · exact hx
    · exact ih (by rwa [hx] at h) y hy

/-- The tables of a grammar: one set for each non-terminal, of its terminals and `ε`. -/
structure Within (g : Grammar) (table : SetTable) : Prop where
  keys : table.map (·.1) = g.nonterminals
  sets : ∀ entry ∈ table, NameSet.Increasing entry.2 ∧
    ∀ name ∈ entry.2, name ∈ epsilon :: g.terminals

theorem Within.size_le {table : SetTable} (h : Within g table) :
    table.size ≤ g.nonterminals.length * (g.terminals.length + 1) := by
  have hlength : table.length = g.nonterminals.length := by rw [← h.keys, List.length_map]
  rw [size, ← hlength]
  have := List.sum_le_card_nsmul (table.map fun entry => entry.2.length)
    (g.terminals.length + 1) fun n hn => by
      obtain ⟨entry, hentry, rfl⟩ := List.mem_map.mp hn
      obtain ⟨hinc, hnames⟩ := h.sets entry hentry
      simpa using (hinc.nodup.subperm hnames).length_le
  simpa using this

theorem mem_get_grow {table : SetTable} {name key x : String} {names : List String} :
    x ∈ (table.grow name names).get key ↔
      x ∈ table.get key ∨ (key = name ∧ name ∈ table.map (·.1) ∧ x ∈ names) := by
  induction table with
  | nil => simp [grow, get]
  | cons entry rest ih =>
    obtain ⟨k, set⟩ := entry
    simp only [grow, get, List.map_cons, List.lookup_cons, List.mem_cons] at ih ⊢
    by_cases hkey : key = k
    · subst hkey
      by_cases hname : key = name
      · simp [hname, NameSet.mem_union]
      · simp [hname]
    · simp only [beq_eq_false_iff_ne.mpr hkey, ih]
      constructor
      · rintro (h | ⟨rfl, hmem, hx⟩)
        · exact .inl h
        · exact .inr ⟨rfl, .inr hmem, hx⟩
      · rintro (h | ⟨rfl, hmem, hx⟩)
        · exact .inl h
        · exact .inr ⟨rfl, hmem.resolve_left hkey, hx⟩

theorem Within.grow {table : SetTable} (h : Within g table) (name : String) {names : List String}
    (hnames : ∀ x ∈ names, x ∈ epsilon :: g.terminals) : Within g (table.grow name names) where
  keys := by
    rw [← h.keys]
    simp [SetTable.grow]
  sets := by
    intro entry hentry
    obtain ⟨old, hold, rfl⟩ := List.mem_map.mp hentry
    obtain ⟨hinc, hmem⟩ := h.sets old hold
    dsimp only
    split
    · refine ⟨hinc.union names, fun x hx => ?_⟩
      rcases NameSet.mem_union.mp hx with hx | hx
      · exact hmem x hx
      · exact hnames x hx
    · exact ⟨hinc, hmem⟩

theorem Within.mem_get {table : SetTable} (h : Within g table) {key x : String}
    (hx : x ∈ table.get key) : x ∈ epsilon :: g.terminals := by
  simp only [get] at hx
  cases hlookup : table.lookup key with
  | none => simp [hlookup] at hx
  | some set =>
    obtain ⟨_, _, heq, _⟩ := List.lookup_eq_some_iff.mp hlookup
    simp only [hlookup, Option.getD_some] at hx
    exact (h.sets (key, set) (by simp [heq])).2 x hx

theorem get_empty (names : List String) (name : String) : (SetTable.empty names).get name = [] := by
  induction names with
  | nil => rfl
  | cons key rest ih =>
    simp only [get, SetTable.empty, List.map_cons, List.lookup_cons] at ih ⊢
    split
    · rfl
    · exact ih

theorem empty_within : Within g (SetTable.empty g.nonterminals) where
  keys := by simp [SetTable.empty, Function.comp_def]
  sets := by
    intro entry hentry
    obtain ⟨_, _, rfl⟩ := List.mem_map.mp hentry
    exact ⟨.nil, by simp⟩

end SetTable

end Grammar

end DuckLang
