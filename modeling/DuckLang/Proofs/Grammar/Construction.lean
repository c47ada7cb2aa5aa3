import DuckLang.Proofs.Grammar.States
import Mathlib.Data.Finset.Union
import Mathlib.Order.WellFounded

/-! The construction of the automaton in any order.  The sets of items are visited in whatever order
they come, also while they grow, and are known by their texts.  Every such construction comes to an
end and makes the states of the automaton, with the same numbers and edges. -/

namespace DuckLang.Grammar

variable {g : Grammar}

/-! ### Closure -/

/-- The items that a visit to each item of a list, one after the other, leaves in a set. -/
def sweep (g : Grammar) (set : Finset Item) (order : List Item) : Finset Item :=
  order.foldl (fun set item => set ∪ (g.predictions item).toFinset) set

/-- An order in which a set can be visited that grows meanwhile: what is there at first is visited,
what is added on the way may be, and nothing is twice. -/
structure Visits (g : Grammar) (set : Finset Item) (order : List Item) : Prop where
  nodup : order.Nodup
  every : ∀ i ∈ set, i ∈ order
  present : ∀ {before after : List Item} {i : Item}, order = before ++ i :: after →
    i ∈ g.sweep set before

/-- The loop that closes a set: it sweeps over the set, each time in some order, until a sweep adds
nothing. -/
inductive Sweeps (g : Grammar) : Finset Item → Finset Item → Prop
  | still {set : Finset Item} {order : List Item} (visits : Visits g set order)
      (same : g.sweep set order = set) : Sweeps g set set
  | again {set final : Finset Item} {order : List Item} (visits : Visits g set order)
      (grown : g.sweep set order ≠ set) (rest : Sweeps g (g.sweep set order) final) :
      Sweeps g set final

theorem mem_sweep {set : Finset Item} {order : List Item} {i : Item} :
    i ∈ g.sweep set order ↔ i ∈ set ∨ ∃ j ∈ order, i ∈ g.predictions j := by
  induction order generalizing set with
  | nil => simp [sweep]
  | cons j order ih =>
    have := @ih (set ∪ (g.predictions j).toFinset)
    simp only [sweep, List.foldl_cons] at this ⊢
    rw [this]
    simp [or_assoc]

/-- What a sweep visits is in the closure of what it started with. -/
theorem Visits.inClosure {items : ItemSet} {set : Finset Item} {order : List Item}
    (h : Visits g set order) (hset : ∀ i ∈ set, InClosure g items i) :
    ∀ i ∈ order, InClosure g items i := by
  have hpresent := @h.present
  -- by induction on how far the sweep has come
  suffices hfront : ∀ n, ∀ i ∈ order.take n, InClosure g items i by
    intro i hi
    exact hfront order.length i (by rwa [List.take_length])
  intro n
  induction n with
  | zero => simp
  | succ n ih =>
    intro i hi
    rcases Nat.lt_or_ge n order.length with hlt | hge
    · rw [List.take_succ_eq_append_getElem hlt, List.mem_append, List.mem_singleton] at hi
      rcases hi with hi | rfl
      · exact ih i hi
      · have hsplit : order = order.take n ++ order[n] :: order.drop (n + 1) := by
          rw [← List.drop_eq_getElem_cons hlt, List.take_append_drop]
        rcases mem_sweep.mp (hpresent hsplit) with hmem | ⟨j, hj, hmem⟩
        · exact hset _ hmem
        · exact .predicted (ih j hj) hmem
    · rw [List.take_of_length_le (by omega)] at hi ih
      exact ih i hi

/-- The loop ends with the closure, in whatever order it visits the items. -/
theorem Sweeps.eq_close (hg : Proper g) {items : ItemSet}
    {set final : Finset Item} (h : Sweeps g set final) (hlow : ∀ i ∈ items, i ∈ set)
    (hhigh : ∀ i ∈ set, InClosure g items i) : final = (g.close items).toFinset := by
  induction h with
  | still visits same =>
    ext i
    rw [List.mem_toFinset, mem_close hg]
    refine ⟨hhigh i, fun hi => ?_⟩
    induction hi with
    | kernel hi => exact hlow _ hi
    | predicted _ hj ih =>
      rw [← same, mem_sweep]
      exact .inr ⟨_, visits.every _ ih, hj⟩
  | again visits grown _ ih =>
    refine ih (fun i hi => mem_sweep.mpr (.inl (hlow i hi))) fun i hi => ?_
    rcases mem_sweep.mp hi with hi | ⟨j, hj, hi⟩
    · exact hhigh i hi
    · exact .predicted (visits.inClosure hhigh j hj) hi

/-- A sweep that adds something. -/
def Grown (g : Grammar) (after before : Finset Item) : Prop :=
  ∃ order, Visits g before order ∧ after = g.sweep before order ∧ after ≠ before

/-- The items with the dot in front. -/
def firstItems (g : Grammar) : Finset Item :=
  (Finset.range g.productions.size).image fun rule => { rule, dot := 0 }

/-- A loop of sweeps comes to an end. -/
theorem grown_wellFounded (hg : Proper g) : WellFounded (Grown g) := by
  refine Subrelation.wf (r := InvImage (· < ·) fun set => (g.firstItems \ set).card) ?_
    (InvImage.wf _ wellFounded_lt)
  rintro after before ⟨order, _, rfl, hne⟩
  have hsub : before ⊆ g.sweep before order := fun i hi => mem_sweep.mpr (.inl hi)
  obtain ⟨i, hi, hnew⟩ :=
    Finset.exists_of_ssubset (Finset.ssubset_iff_subset_ne.mpr ⟨hsub, hne.symm⟩)
  have hfirst : i ∈ g.firstItems := by
    obtain ⟨j, _, hpredicted⟩ := (mem_sweep.mp hi).resolve_left hnew
    obtain ⟨name, _, hid, hdot⟩ := mem_predictions.mp hpredicted
    exact Finset.mem_image.mpr
      ⟨i.rule, Finset.mem_range.mpr (mem_idsOf_lt hg hid), by rw [← hdot]⟩
  refine Finset.card_lt_card ((Finset.ssubset_iff_of_subset ?_).mpr ⟨i, ?_, ?_⟩)
  · exact Finset.sdiff_subset_sdiff (Finset.Subset.refl _) hsub
  · exact Finset.mem_sdiff.mpr ⟨hfirst, hnew⟩
  · exact fun h => (Finset.mem_sdiff.mp h).2 hi

theorem visits_toList (set : Finset Item) : Visits g set set.toList where
  nodup := set.nodup_toList
  every := fun i hi => Finset.mem_toList.mpr hi
  present := by
    intro before after i horder
    have hi : i ∈ set.toList := by simp [horder]
    exact mem_sweep.mpr (.inl (Finset.mem_toList.mp hi))

theorem sweeps_exists (hg : Proper g) (set : Finset Item) :
    ∃ final, Sweeps g set final := by
  induction set using (grown_wellFounded hg).induction with
  | _ set ih =>
    have hvisits := visits_toList (g := g) set
    by_cases hsame : g.sweep set set.toList = set
    · exact ⟨set, .still hvisits hsame⟩
    · obtain ⟨final, hfinal⟩ := ih _ ⟨set.toList, hvisits, rfl, hsame⟩
      exact ⟨final, .again hvisits hsame hfinal⟩

/-- The loop ends with the closure and with nothing else. -/
theorem sweeps_iff (hg : Proper g) {items : ItemSet} {final : Finset Item} :
    Sweeps g items.toFinset final ↔ final = (g.close items).toFinset := by
  have hends : ∀ {final}, Sweeps g items.toFinset final → final = (g.close items).toFinset :=
    fun h => h.eq_close hg (fun i hi => List.mem_toFinset.mpr hi)
      fun i hi => .kernel (List.mem_toFinset.mp hi)
  refine ⟨hends, ?_⟩
  rintro rfl
  obtain ⟨final, hfinal⟩ := sweeps_exists (g := g) hg items.toFinset
  rwa [hends hfinal] at hfinal

/-! ### Keys -/

/-- A list of items as text. -/
def ItemSet.key (items : ItemSet) : String :=
  String.join (items.map fun i => s!"{i.rule}.{i.dot};")

/-- The text of a set: its items in order. -/
def IsKey (set : Finset Item) (key : String) : Prop :=
  ∃ items : ItemSet, items.Increasing ∧ items.toFinset = set ∧ key = items.key

/-- A number is read off up to a character that is no digit. -/
theorem repr_append_inj {m n : Nat} {c : Char} (hc : c.isDigit = false) {u v : List Char}
    (h : m.repr.toList ++ c :: u = n.repr.toList ++ c :: v) : m = n ∧ u = v := by
  have hfront : ∀ (k : Nat) (w : List Char),
      (k.repr.toList ++ c :: w).takeWhile Char.isDigit = k.repr.toList := by
    intro k w
    rw [List.takeWhile_append_of_pos, List.takeWhile_cons_of_neg (by simp [hc]), List.append_nil]
    intro d hd
    rw [Nat.toList_repr] at hd
    exact Nat.isDigit_of_mem_toDigits (by decide) (by decide) hd
  have hdigits : m.repr.toList = n.repr.toList := by rw [← hfront m u, h, hfront n v]
  constructor
  · have hvalue := congrArg (Nat.ofDigitChars 10 · 0) hdigits
    simpa only [Nat.toList_repr, Nat.ofDigitChars_ten_toDigits] using hvalue
  · rw [hdigits, List.append_cancel_left_eq] at h
    exact (List.cons.inj h).2

theorem key_cons (i : Item) (items : ItemSet) :
    (ItemSet.key (i :: items)).toList =
      i.rule.repr.toList ++ '.' :: (i.dot.repr.toList ++ ';' :: (ItemSet.key items).toList) := by
  have hpart : (s!"{i.rule}.{i.dot};").toList =
      i.rule.repr.toList ++ '.' :: (i.dot.repr.toList ++ [';']) := by
    simp only [String.toList_append, List.append_assoc]
    rfl
  simp only [ItemSet.key, String.toList_join, List.map_cons, List.flatMap_cons, hpart]
  simp

/-- Different lists of items have different texts. -/
theorem key_injective {xs ys : ItemSet} (h : xs.key = ys.key) : xs = ys := by
  induction xs generalizing ys with
  | nil =>
    cases ys with
    | nil => rfl
    | cons y ys => simpa [key_cons, ItemSet.key] using congrArg String.toList h
  | cons x xs ih =>
    have hchars := congrArg String.toList h
    cases ys with
    | nil => simp [ItemSet.key] at hchars
    | cons y ys =>
      rw [key_cons, key_cons] at hchars
      obtain ⟨hrule, hrest⟩ := repr_append_inj (by decide) hchars
      obtain ⟨hdot, hkey⟩ := repr_append_inj (by decide) hrest
      rw [ih (String.toList_inj.mp hkey)]
      congr 1
      cases x; cases y; simp_all

/-- Two sets are equal iff they have a text in common. -/
theorem IsKey.eq {s t : Finset Item} {key : String} (hs : IsKey s key) (ht : IsKey t key) :
    s = t := by
  obtain ⟨xs, _, rfl, rfl⟩ := hs
  obtain ⟨ys, _, rfl, hkey⟩ := ht
  rw [key_injective hkey]

theorem isKey_toFinset {items : ItemSet} (h : items.Increasing) :
    IsKey items.toFinset items.key :=
  ⟨items, h, rfl, rfl⟩

theorem StateSet.toFinset_inj {xs ys : ItemSet} (hx : StateSet g xs) (hy : StateSet g ys)
    (h : xs.toFinset = ys.toFinset) : xs = ys :=
  hx.increasing.ext hy.increasing fun i => by
    rw [← List.mem_toFinset, h, List.mem_toFinset]

/-! ### States -/

/-- The sets that the symbols of a list lead to from a set whose items are visited in some order
for each of them, and the edges to these sets.  A set is known by its text. -/
inductive Links (g : Grammar) (set : Finset Item) :
    List Symbol → List (Finset Item) → List (Symbol × Nat) → List (Finset Item) → Prop
  | nil (found : List (Finset Item)) : Links g set [] found [] found
  | skip {symbol : Symbol} {symbols : List Symbol} {found all : List (Finset Item)}
      {edges : List (Symbol × Nat)} {order : List Item} (visited : order.toFinset = set)
      (blocked : g.advance order symbol = []) (rest : Links g set symbols found edges all) :
      Links g set (symbol :: symbols) found edges all
  | known {symbol : Symbol} {symbols : List Symbol} {found all : List (Finset Item)}
      {edges : List (Symbol × Nat)} {order : List Item} {target other : Finset Item}
      {key : String} {index : Nat} (visited : order.toFinset = set)
      (moved : g.advance order symbol ≠ [])
      (closed : Sweeps g (g.advance order symbol).toFinset target) (text : IsKey target key)
      (old : found[index]? = some other) (same : IsKey other key)
      (rest : Links g set symbols found edges all) :
      Links g set (symbol :: symbols) found ((symbol, index) :: edges) all
  | fresh {symbol : Symbol} {symbols : List Symbol} {found all : List (Finset Item)}
      {edges : List (Symbol × Nat)} {order : List Item} {target : Finset Item} {key : String}
      (visited : order.toFinset = set) (moved : g.advance order symbol ≠ [])
      (closed : Sweeps g (g.advance order symbol).toFinset target) (text : IsKey target key)
      (new : ∀ other ∈ found, ¬IsKey other key)
      (rest : Links g set symbols (found ++ [target]) edges all) :
      Links g set (symbol :: symbols) found ((symbol, found.length) :: edges) all

/-- The items that can be advanced do not depend on the order. -/
theorem toFinset_advance {order items : List Item} (h : order.toFinset = items.toFinset)
    (symbol : Symbol) :
    (g.advance order symbol).toFinset = (g.advance items symbol).toFinset := by
  have hmem : ∀ i, i ∈ order ↔ i ∈ items := fun i => by
    rw [← List.mem_toFinset, h, List.mem_toFinset]
  ext i
  simp only [List.mem_toFinset, mem_advance, hmem]

theorem advance_eq_nil {order items : List Item} (h : order.toFinset = items.toFinset)
    (symbol : Symbol) : g.advance order symbol = [] ↔ g.advance items symbol = [] := by
  rw [← List.toFinset_eq_empty_iff, toFinset_advance h, List.toFinset_eq_empty_iff]

/-- The sets behind the lists that are found. -/
def asSets (found : List ItemSet) : List (Finset Item) :=
  found.map List.toFinset

theorem link_blocked {items : ItemSet} {symbol : Symbol} (symbols : List Symbol)
    (found : List ItemSet) (h : g.advance items symbol = []) :
    g.link items (symbol :: symbols) found = g.link items symbols found := by
  simp only [link, h]

theorem link_known {items : ItemSet} {symbol : Symbol} (symbols : List Symbol)
    {found : List ItemSet} {index : Nat} (h : g.advance items symbol ≠ [])
    (hindex : found.idxOf? (g.close (g.advance items symbol)) = some index) :
    g.link items (symbol :: symbols) found =
      ((symbol, index) :: (g.link items symbols found).1, (g.link items symbols found).2) := by
  rw [link]
  split
  · exact absurd ‹_› h
  · simp only [hindex]

theorem link_fresh {items : ItemSet} {symbol : Symbol} (symbols : List Symbol)
    {found : List ItemSet} (h : g.advance items symbol ≠ [])
    (hnew : g.close (g.advance items symbol) ∉ found) :
    g.link items (symbol :: symbols) found =
      ((symbol, found.length) ::
          (g.link items symbols (found ++ [g.close (g.advance items symbol)])).1,
        (g.link items symbols (found ++ [g.close (g.advance items symbol)])).2) := by
  rw [link]
  split
  · exact absurd ‹_› h
  · simp only [List.idxOf?_eq_none_iff.mpr hnew]

theorem asSets_snoc (found : List ItemSet) (items : ItemSet) :
    asSets (found ++ [items]) = asSets found ++ [items.toFinset] := by
  simp [asSets]

theorem stateSets_snoc {found : List ItemSet} {items : ItemSet}
    (hfound : ∀ s ∈ found, StateSet g s) (hitems : StateSet g items) :
    ∀ s ∈ found ++ [items], StateSet g s := by
  intro s hs
  rcases List.mem_append.mp hs with hs | hs
  · exact hfound s hs
  · rw [List.mem_singleton.mp hs]
    exact hitems

theorem nodup_snoc {found : List ItemSet} {items : ItemSet} (hnodup : found.Nodup)
    (hnew : items ∉ found) : (found ++ [items]).Nodup := by
  rw [← List.concat_eq_append]
  exact hnodup.concat hnew

theorem idxOf?_of_getElem? {found : List ItemSet} (hnodup : found.Nodup) {index : Nat}
    {items : ItemSet} (hget : found[index]? = some items) : found.idxOf? items = some index := by
  obtain ⟨hlt, heq⟩ := List.getElem?_eq_some_iff.mp hget
  refine List.idxOf?_eq_some_iff.mpr ⟨hlt, heq, fun j hj hsame => ?_⟩
  have := hnodup.getElem_inj_iff.mp (hsame.trans heq.symm)
  omega

/-- A set that has a text of the target is the target. -/
theorem mem_asSets_of_key {found : List ItemSet} {target : ItemSet} (htarget : StateSet g target)
    (hfound : ∀ s ∈ found, StateSet g s) {key : String} (hkey : IsKey target.toFinset key)
    {index : Nat} {other : Finset Item} (hget : (asSets found)[index]? = some other)
    (hother : IsKey other key) : found[index]? = some target := by
  simp only [asSets, List.getElem?_map, Option.map_eq_some_iff] at hget
  obtain ⟨items, hitems, rfl⟩ := hget
  rw [hitems, (hfound items (List.mem_of_getElem? hitems)).toFinset_inj htarget (hother.eq hkey)]

theorem links_link (hg : Proper g) {items : ItemSet} (hitems : StateSet g items)
    (symbols : List Symbol) {found : List ItemSet} (hfound : ∀ s ∈ found, StateSet g s) :
    Links g items.toFinset symbols (asSets found) (g.link items symbols found).1
      (asSets (g.link items symbols found).2) := by
  induction symbols generalizing found with
  | nil => exact .nil _
  | cons symbol symbols ih =>
    have htarget := hitems.advance hg symbol
    have hclosed : Sweeps g (g.advance items symbol).toFinset
        (g.close (g.advance items symbol)).toFinset := (sweeps_iff hg).mpr rfl
    have hkey := isKey_toFinset htarget.increasing
    by_cases hmoved : g.advance items symbol = []
    · rw [link_blocked symbols found hmoved]
      exact .skip rfl hmoved (ih hfound)
    · by_cases hmem : g.close (g.advance items symbol) ∈ found
      · obtain ⟨index, hindex⟩ := Option.isSome_iff_exists.mp (List.isSome_idxOf?.mpr hmem)
        obtain ⟨hlt, heq, _⟩ := List.idxOf?_eq_some_iff.mp hindex
        rw [link_known symbols hmoved hindex]
        refine .known rfl hmoved hclosed hkey ?_ hkey (ih hfound)
        simp [asSets, hlt, heq]
      · have hrest := ih (stateSets_snoc hfound htarget)
        rw [asSets_snoc] at hrest
        rw [link_fresh symbols hmoved hmem]
        have hfresh := Links.fresh rfl hmoved hclosed hkey ?_ hrest
        · simpa [asSets] using hfresh
        · intro other hother hsame
          obtain ⟨index, hget⟩ := List.getElem?_of_mem hother
          exact hmem (List.mem_of_getElem? (mem_asSets_of_key htarget hfound hkey hget hsame))

/-- However the items are visited, a set is linked in one way. -/
theorem Links.eq_link (hg : Proper g) {items : ItemSet}
    (hitems : StateSet g items) {symbols : List Symbol} {found : List ItemSet}
    (hfound : ∀ s ∈ found, StateSet g s) (hnodup : found.Nodup) {edges : List (Symbol × Nat)}
    {sets all : List (Finset Item)} (h : Links g items.toFinset symbols sets edges all)
    (hsets : sets = asSets found) :
    edges = (g.link items symbols found).1 ∧ all = asSets (g.link items symbols found).2 := by
  induction h generalizing found with
  | nil sets => exact ⟨rfl, hsets⟩
  | @skip symbol symbols sets all edges order visited blocked rest ih =>
    rw [link_blocked symbols found ((advance_eq_nil visited symbol).mp blocked)]
    exact ih hfound hnodup hsets
  | @known symbol symbols sets all edges order target other key index visited moved closed text old
      same rest ih =>
    have hmoved := fun h => moved ((advance_eq_nil visited symbol).mpr h)
    rw [toFinset_advance visited, sweeps_iff hg] at closed
    subst closed hsets
    have hget := mem_asSets_of_key (hitems.advance hg symbol) hfound text old same
    obtain ⟨hedges, hall⟩ := ih hfound hnodup rfl
    rw [link_known symbols hmoved (idxOf?_of_getElem? hnodup hget)]
    exact ⟨by rw [hedges], hall⟩
  | @fresh symbol symbols sets all edges order target key visited moved closed text new rest ih =>
    have hmoved := fun h => moved ((advance_eq_nil visited symbol).mpr h)
    have htarget := hitems.advance hg symbol
    rw [toFinset_advance visited, sweeps_iff hg] at closed
    subst closed hsets
    have hmem : g.close (g.advance items symbol) ∉ found :=
      fun h => new _ (List.mem_map_of_mem h) text
    obtain ⟨hedges, hall⟩ := ih (stateSets_snoc hfound htarget) (nodup_snoc hnodup hmem)
      (asSets_snoc ..).symm
    rw [link_fresh symbols hmoved hmem]
    exact ⟨by simp [hedges, asSets], hall⟩

/-! ### The walk -/

/-- What is made of an automaton so far: the states that are linked, and all sets that are found. -/
structure Draft where
  made : List (Finset Item × List (Symbol × Nat))
  found : List (Finset Item)

/-- The next set in line is linked. -/
inductive Draft.Step (g : Grammar) : Draft → Draft → Prop
  | link {d : Draft} {set : Finset Item} {edges : List (Symbol × Nat)}
      {all : List (Finset Item)} (turn : d.found[d.made.length]? = some set)
      (links : Links g set g.symbols d.found edges all) :
      Draft.Step g d { made := d.made ++ [(set, edges)], found := all }

/-- The walk starts with the closure of the start item. -/
inductive Draft.Start (g : Grammar) : Draft → Prop
  | close {set : Finset Item} (closed : Sweeps g { ⟨0, 0⟩ } set) :
      Draft.Start g { made := [], found := [set] }

/-- A state without the order of its items. -/
def State.bare (s : State) : Finset Item × List (Symbol × Nat) :=
  (s.items.toFinset, s.edges)

/-- A draft that agrees with the automaton: what is left to make is what it has more. -/
structure Draft.Agrees (g : Grammar) (d : Draft) (states : List State) (found : List ItemSet) :
    Prop where
  made_eq : d.made = states.map State.bare
  found_eq : d.found = asSets found
  nodup : found.Nodup
  sets : ∀ s ∈ found, StateSet g s
  rest : states ++ g.explore (2 ^ g.itemCount - states.length) states.length found =
    g.automaton.states.toList

theorem Draft.Start.agrees (hg : Proper g) {d : Draft} (h : Draft.Start g d) :
    d.Agrees g [] [g.startItems] := by
  cases h with
  | @close set closed =>
    have hclosed : set = g.startItems.toFinset :=
      (sweeps_iff hg).mp (by simpa using closed)
    refine ⟨rfl, ?_, by simp, by simpa using startItems_stateSet hg, by simp [automaton]⟩
    simp [asSets, hclosed]

theorem Draft.Agrees.length_le {d : Draft} {states : List State} {found : List ItemSet}
    (h : d.Agrees g states found) : found.length ≤ 2 ^ g.itemCount :=
  length_le_of_stateSets h.nodup h.sets

/-- Whatever a step does, it makes the next state of the automaton. -/
theorem Draft.Step.agrees (hg : Proper g) {d d' : Draft} {states : List State}
    {found : List ItemSet} (hstep : Draft.Step g d d') (h : d.Agrees g states found) :
    states.length < 2 ^ g.itemCount ∧ ∃ state found', d'.Agrees g (states ++ [state]) found' := by
  obtain ⟨turn, links⟩ := hstep
  have hlength : d.made.length = states.length := by simp [h.made_eq]
  rw [hlength, h.found_eq, asSets, List.getElem?_map, Option.map_eq_some_iff] at turn
  obtain ⟨items, hitems, rfl⟩ := turn
  have hlt : states.length < found.length := (List.getElem?_eq_some_iff.mp hitems).1
  have hbound : states.length < 2 ^ g.itemCount := Nat.lt_of_lt_of_le hlt h.length_le
  have hset := h.sets items (List.mem_of_getElem? hitems)
  obtain ⟨rfl, rfl⟩ := links.eq_link hg hset h.sets h.nodup h.found_eq
  obtain ⟨_, _, hnodup, hnew⟩ := link_linked (g := g) items g.symbols found
  refine ⟨hbound, ⟨items, (g.link items g.symbols found).1⟩, (g.link items g.symbols found).2, ?_,
    rfl, hnodup h.nodup, ?_, ?_⟩
  · simp [h.made_eq, State.bare]
  · intro s hs
    rcases hnew s hs with hs | ⟨symbol, rfl⟩
    · exact h.sets s hs
    · exact hset.advance hg symbol
  · have hrest := h.rest
    rw [show 2 ^ g.itemCount - states.length =
      (2 ^ g.itemCount - (states.length + 1)) + 1 by omega] at hrest
    simp only [explore, hitems] at hrest
    simpa using hrest

/-- A draft that cannot go on is the automaton. -/
theorem Draft.Agrees.finished (hg : Proper g) {d : Draft} {states : List State}
    {found : List ItemSet} (h : d.Agrees g states found) (hstuck : ∀ d', ¬Draft.Step g d d') :
    d.made = g.automaton.states.toList.map State.bare := by
  have hend : found[states.length]? = none := by
    rw [Option.eq_none_iff_forall_not_mem]
    intro items hitems
    have hset := h.sets items (List.mem_of_getElem? hitems)
    have hlinks := links_link hg hset g.symbols h.sets
    rw [← h.found_eq] at hlinks
    refine hstuck _ (.link ?_ hlinks)
    rw [h.found_eq, h.made_eq, List.length_map, asSets, List.getElem?_map, hitems]
    rfl
  have hnothing : g.explore (2 ^ g.itemCount - states.length) states.length found = [] := by
    cases 2 ^ g.itemCount - states.length with
    | zero => rfl
    | succ fuel => simp only [explore, hend]
  rw [h.made_eq, ← h.rest, hnothing, List.append_nil]

theorem Draft.Agrees.acc (hg : Proper g) {d : Draft} {states : List State} {found : List ItemSet}
    (h : d.Agrees g states found) : Acc (fun d' d => Draft.Step g d d') d := by
  induction hn : 2 ^ g.itemCount - states.length generalizing d states found with
  | zero =>
    refine .intro d fun d' hstep => ?_
    have := (hstep.agrees hg h).1
    omega
  | succ n ih =>
    refine .intro d fun d' hstep => ?_
    obtain ⟨hlt, state, found', h'⟩ := hstep.agrees hg h
    refine ih h' ?_
    rw [List.length_append, List.length_singleton]
    omega

theorem Draft.Agrees.steps (hg : Proper g) {d d' : Draft} {states : List State}
    {found : List ItemSet} (hsteps : Relation.ReflTransGen (Draft.Step g) d d')
    (h : d.Agrees g states found) : ∃ states' found', d'.Agrees g states' found' := by
  induction hsteps with
  | refl => exact ⟨states, found, h⟩
  | tail _ hstep ih =>
    obtain ⟨states', found', h'⟩ := ih
    obtain ⟨_, state, found'', h''⟩ := hstep.agrees hg h'
    exact ⟨_, _, h''⟩

/-- An automaton does not depend on the order in which sets are visited: whatever the order, the
loops come to an end and the states are those of the automaton. -/
structure Automaton.OrderFree (g : Grammar) (a : Automaton) : Prop where
  sweeps : WellFounded (Grown g)
  starts : ∃ d, Draft.Start g d
  ends : ∀ {d : Draft}, Draft.Start g d → Acc (fun next d => Draft.Step g d next) d
  result : ∀ {d last : Draft}, Draft.Start g d → Relation.ReflTransGen (Draft.Step g) d last →
    (∀ next, ¬Draft.Step g last next) → last.made = a.states.toList.map State.bare

theorem automaton_orderFree (hg : Proper g) : g.automaton.OrderFree g where
  sweeps := grown_wellFounded hg
  starts := by
    obtain ⟨set, hset⟩ := sweeps_exists (g := g) hg { ⟨0, 0⟩ }
    exact ⟨_, .close hset⟩
  ends := fun hstart => (hstart.agrees hg).acc hg
  result := by
    intro d last hstart hsteps hstuck
    obtain ⟨_, _, hlast⟩ := (hstart.agrees hg).steps hg hsteps
    exact hlast.finished hg hstuck

end DuckLang.Grammar
