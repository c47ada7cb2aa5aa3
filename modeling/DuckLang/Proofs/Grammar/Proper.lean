import DuckLang.Grammar.Reader
import DuckLang.Proofs.Grammar.Indexing
import Mathlib.Data.List.Forall2

/-! Proper grammars.  The first production is the augmented one, every non-terminal of a body heads
a given production, neither the end marker nor `ε` stands as a terminal, and the index lists every
production but those that a text gives to the augmented start.  Every grammar that is read is
proper. -/

namespace DuckLang.Grammar

/-- What the parts of a grammar have to do with each other. -/
structure Proper (g : Grammar) : Prop where
  augmented : ∃ s, g.productions[0]? = some { head := g.start, body := [.nonterminal s] }
  heads : ∀ {id : Nat} {p : Production}, g.productions[id]? = some p → p.head ∈ g.nonterminals
  defined : ∀ {id : Nat} {p : Production} {name : String}, g.productions[id]? = some p →
    .nonterminal name ∈ p.body →
      ∃ (id' : Nat) (q : Production), 0 < id' ∧ g.productions[id']? = some q ∧ q.head = name
  listed : ∀ {id : Nat} {p : Production} {name : String}, g.productions[id]? = some p →
    .terminal name ∈ p.body → name ∈ g.terminals
  visible : ∀ {id : Nat} {p : Production} {name : String}, g.productions[id]? = some p →
    .terminal name ∈ p.body → name ≠ Token.Kind.endMarker ∧ name ≠ epsilon
  marked : Token.Kind.endMarker ∈ g.terminals
  startIds : g.idsOf g.start = [0]
  indexed : ∀ {name : String}, name ≠ g.start → g.Indexed name

/-- No given production has the augmented start as its head. -/
def FreshStart (g : Grammar) : Prop :=
  ∀ id p, g.productions[id]? = some p → p.head = g.start → id = 0

instance (g : Grammar) : Decidable (FreshStart g) :=
  decidable_of_iff (∀ id < g.productions.size, ∀ p ∈ g.productions[id]?, p.head = g.start → id = 0)
    ⟨fun h id p hp => h id (Array.getElem?_eq_some_iff.mp hp).1 p hp, fun h id _ p hp => h id p hp⟩

theorem Symbol.mem_terminals {symbols : List Symbol} {name : String} :
    name ∈ Symbol.terminals symbols ↔ .terminal name ∈ symbols := by
  simp only [Symbol.terminals, List.mem_filterMap]
  constructor
  · rintro ⟨s, hs, h⟩
    cases s <;> simp_all
  · exact fun h => ⟨_, h, rfl⟩

theorem Symbol.mem_nonterminals {symbols : List Symbol} {name : String} :
    name ∈ Symbol.nonterminals symbols ↔ .nonterminal name ∈ symbols := by
  simp only [Symbol.nonterminals, List.mem_filterMap]
  constructor
  · rintro ⟨s, hs, h⟩
    cases s <;> simp_all
  · exact fun h => ⟨_, h, rfl⟩

/-- The productions of an augmented grammar: the augmented one, then those given. -/
theorem ofProductions_productions (first : Production) (rest : List Production) :
    (ofProductions first rest).productions =
      ({ head := first.head ++ primeMark, body := [.nonterminal first.head] } ::
        first :: rest).toArray := by
  simp only [ofProductions, Collection.augment, Collection.given_addAll, List.nil_append]

theorem ofProductions_rule {first : Production} {rest : List Production} {id : Nat}
    {p : Production} (h : (ofProductions first rest).productions[id]? = some p) :
    (id = 0 ∧ p = { head := (ofProductions first rest).start, body := [.nonterminal first.head] }) ∨
      (0 < id ∧ p ∈ first :: rest) := by
  rw [ofProductions_productions, List.getElem?_toArray] at h
  cases id with
  | zero => exact .inl ⟨rfl, (Option.some.inj h).symm⟩
  | succ id => exact .inr ⟨id.succ_pos, List.mem_of_getElem? h⟩

theorem ofProductions_given {first p : Production} {rest : List Production}
    (h : p ∈ first :: rest) :
    ∃ id, 0 < id ∧ (ofProductions first rest).productions[id]? = some p := by
  obtain ⟨id, hid⟩ := List.getElem?_of_mem h
  exact ⟨id + 1, id.succ_pos, by simpa [ofProductions_productions] using hid⟩

theorem ofProductions_terminals (first : Production) (rest : List Production) :
    (ofProductions first rest).terminals =
      ((first :: rest).flatMap fun p => Symbol.terminals p.body).eraseDups ++
        [Token.Kind.endMarker] := by
  simp only [ofProductions, Collection.augment, Collection.given_addAll, List.nil_append]

theorem ofProductions_nonterminals (first : Production) (rest : List Production) :
    (ofProductions first rest).nonterminals =
      ((ofProductions first rest).start :: (first :: rest).map (·.head)).eraseDups := by
  simp only [ofProductions, Collection.augment, Collection.given_addAll, List.nil_append]

theorem ofProductions_proper {first : Production} {rest : List Production}
    (defined : ∀ p ∈ first :: rest, ∀ name, .nonterminal name ∈ p.body →
      ∃ q ∈ first :: rest, q.head = name)
    (visible : ∀ p ∈ first :: rest, ∀ name, .terminal name ∈ p.body →
      name ≠ Token.Kind.endMarker ∧ name ≠ epsilon) :
    Proper (ofProductions first rest) where
  augmented := ⟨first.head, by rw [ofProductions_productions]; rfl⟩
  heads := by
    intro id p hp
    rw [ofProductions_nonterminals, List.mem_eraseDups]
    rcases ofProductions_rule hp with ⟨_, rfl⟩ | ⟨_, hmem⟩
    · exact List.mem_cons_self
    · exact List.mem_cons_of_mem _ (List.mem_map_of_mem hmem)
  defined := by
    intro id p name hp hname
    rcases ofProductions_rule hp with ⟨_, rfl⟩ | ⟨_, hmem⟩
    · obtain rfl : name = first.head := by simpa using hname
      have hfirst : first ∈ first :: rest := List.mem_cons_self
      obtain ⟨id', hpos, hid'⟩ := ofProductions_given hfirst
      exact ⟨id', first, hpos, hid', rfl⟩
    · obtain ⟨q, hq, rfl⟩ := defined p hmem name hname
      obtain ⟨id', hpos, hid'⟩ := ofProductions_given hq
      exact ⟨id', q, hpos, hid', rfl⟩
  listed := by
    intro id p name hp hname
    rw [ofProductions_terminals, List.mem_append, List.mem_eraseDups, List.mem_flatMap]
    rcases ofProductions_rule hp with ⟨_, rfl⟩ | ⟨_, hmem⟩
    · simp at hname
    · exact .inl ⟨p, hmem, Symbol.mem_terminals.mpr hname⟩
  visible := by
    intro id p name hp hname
    rcases ofProductions_rule hp with ⟨_, rfl⟩ | ⟨_, hmem⟩
    · simp at hname
    · exact visible p hmem name hname
  marked := by simp [ofProductions_terminals]
  startIds := idsOf_augment_start _ _
  indexed h := (Collection.Indexed.empty.addAll _).augment h

theorem map_eq_ok {ε α β : Type} {f : α → β} {x : Except ε α} {b : β} :
    x.map f = .ok b ↔ ∃ a, x = .ok a ∧ f a = b := by
  cases x <;> simp [Except.map]

theorem readBody_visible {words : List (List Char)} {body : List Symbol}
    (h : readBody words = .ok body) {name : String} (hname : .terminal name ∈ body) :
    name ≠ Token.Kind.endMarker ∧ name ≠ epsilon := by
  induction words generalizing body with
  | nil =>
    cases h
    simp at hname
  | cons w words ih =>
    simp only [readBody] at h
    split at h
    · exact ih h hname
    · rename_i hepsilon
      split at h
      · obtain ⟨tail, htail, rfl⟩ := map_eq_ok.mp h
        exact ih htail (by simpa using hname)
      · split at h
        · cases h
        · rename_i hend
          obtain ⟨tail, htail, rfl⟩ := map_eq_ok.mp h
          rcases List.mem_cons.mp hname with heq | hmem
          · cases heq
            exact ⟨hend, hepsilon⟩
          · exact ih htail hmem

theorem readProduction_visible {line : List Char} {p : Production}
    (h : readProduction line = .ok p) {name : String} (hname : .terminal name ∈ p.body) :
    name ≠ Token.Kind.endMarker ∧ name ≠ epsilon := by
  simp only [readProduction] at h
  split at h
  · cases h
  · split at h
    · cases h
    · obtain ⟨body, hbody, rfl⟩ := map_eq_ok.mp h
      exact readBody_visible hbody hname

theorem mem_noteUse {line : Nat} {used : List (String × Nat)} {name x : String} :
    x ∈ (noteUse line used name).map (·.1) ↔ x ∈ used.map (·.1) ∨ x = name := by
  simp only [noteUse]
  split
  · rename_i hused
    obtain ⟨entry, hentry, hname⟩ := List.lookup_isSome_iff.mp hused
    rw [beq_iff_eq] at hname
    simp only [iff_self_or]
    rintro rfl
    exact List.mem_map.mpr ⟨entry, hentry, hname.symm⟩
  · simp

theorem mem_noteUses {line : Nat} {names : List String} {used : List (String × Nat)} {x : String} :
    x ∈ (names.foldl (noteUse line) used).map (·.1) ↔ x ∈ used.map (·.1) ∨ x ∈ names := by
  induction names generalizing used with
  | nil => simp
  | cons name names ih => rw [List.foldl_cons, ih, mem_noteUse, List.mem_cons, or_assoc]

/-- What is read of lines: the productions that they hold are added to the collection, one after the
other, and the non-terminals of their bodies to those used. -/
structure Reading.Grown (r : Reading) (given : List Production) (r' : Reading) : Prop where
  collection : r'.collection = given.foldl Collection.add r.collection
  used : ∀ {name : String}, name ∈ r'.used.map (·.1) ↔
    name ∈ r.used.map (·.1) ∨ ∃ p ∈ given, .nonterminal name ∈ p.body

theorem Reading.Grown.nil (r : Reading) : r.Grown [] r :=
  ⟨rfl, by simp⟩

theorem Reading.Grown.cons {r r' : Reading} {line : Nat} {p : Production} {given : List Production}
    (h : (r.add line p).Grown given r') : r.Grown (p :: given) r' where
  collection := h.collection
  used := by
    intro name
    rw [h.used, Reading.add, mem_noteUses, Symbol.mem_nonterminals, List.exists_mem_cons_iff,
      or_assoc]

/-- The productions that lines are read as, those apart that hold none. -/
def Held (lines : List (List Char)) (given : List Production) : Prop :=
  List.Forall₂ (fun line p => readProduction (Text.trimChars line) = .ok p)
    (lines.filter fun line => !isSilent (Text.trimChars line)) given

/-- Lines are read exactly if each of them that is not silent holds a production, and then these are
added. -/
theorem readLines_eq_ok {number : Nat} {lines : List (List Char)} {r r' : Reading}
    (h : readLines number r lines = .ok r') : ∃ given, r.Grown given r' ∧ Held lines given := by
  induction lines generalizing number r with
  | nil =>
    obtain rfl := Except.ok.inj h
    exact ⟨[], .nil r, .nil⟩
  | cons line lines ih =>
    simp only [readLines] at h
    split at h
    · rename_i hsilent
      obtain ⟨given, hgrown, hheld⟩ := ih h
      refine ⟨given, hgrown, ?_⟩
      rwa [Held, List.filter_cons_of_neg (by simp [hsilent])]
    · rename_i hsilent
      split at h
      · cases h
      · rename_i p hp
        obtain ⟨given, hgrown, hheld⟩ := ih h
        refine ⟨p :: given, hgrown.cons, ?_⟩
        rw [Held, List.filter_cons_of_pos (by simpa using hsilent)]
        exact .cons hp hheld

theorem readLines_of_held {lines : List (List Char)} {given : List Production}
    (h : Held lines given) (number : Nat) (r : Reading) :
    ∃ r', readLines number r lines = .ok r' ∧ r.Grown given r' := by
  induction lines generalizing number r given with
  | nil =>
    cases h
    exact ⟨r, rfl, .nil r⟩
  | cons line lines ih =>
    simp only [readLines]
    by_cases hsilent : isSilent (Text.trimChars line) = true
    · rw [Held, List.filter_cons_of_neg (by simp [hsilent])] at h
      rw [if_pos hsilent]
      exact ih h (number + 1) r
    · rw [Held, List.filter_cons_of_pos (by simpa using hsilent)] at h
      rw [if_neg hsilent]
      cases h with
      | @cons _ p _ rest hp hrest =>
        obtain ⟨r', hread, hgrown⟩ := ih hrest (number + 1) (r.add number p)
        rw [hp]
        exact ⟨r', hread, hgrown.cons⟩

/-- Nothing is undefined where every non-terminal used is a head. -/
theorem Reading.undefined?_eq_none {given : List Production} {r : Reading}
    (h : ({} : Reading).Grown given r) :
    r.undefined? = none ↔
      ∀ p ∈ given, ∀ name, .nonterminal name ∈ p.body → name ∈ given.map (·.head) := by
  have hheaded : ∀ {name : String}, (r.collection.byHead.lookup name).isSome ↔
      name ∈ given.map (·.head) := by
    intro name
    rw [h.collection, (Collection.Indexed.empty.addAll given).headed, Collection.given_addAll]
    simp
  have hused : (∀ name ∈ r.used.map (·.1), name ∈ given.map (·.head)) ↔
      ∀ p ∈ given, ∀ name, .nonterminal name ∈ p.body → name ∈ given.map (·.head) := by
    simp only [h.used]
    exact ⟨fun hall p hp name hname => hall name (.inr ⟨p, hp, hname⟩),
      fun hall name hname => by
        obtain hnone | ⟨p, hp, hname⟩ := hname
        · cases hnone
        · exact hall p hp name hname⟩
  rw [← hused, undefined?, List.find?_eq_none, List.forall_mem_map]
  refine forall₂_congr fun entry _ => ?_
  rw [← hheaded]
  simp

/-- A text is read exactly if its lines are, there is a production, and every non-terminal of a body
heads one. -/
theorem read_iff_held {text : String} {g : Grammar} :
    read text = .ok g ↔ ∃ first rest, Held (Text.linesOf text.toList) (first :: rest) ∧
      (∀ p ∈ first :: rest, ∀ name, .nonterminal name ∈ p.body →
        name ∈ (first :: rest).map (·.head)) ∧
      g = ofProductions first rest := by
  have hgiven : ∀ {r : Reading} {given : List Production}, ({} : Reading).Grown given r →
      r.collection.given = given := by
    intro r given hgrown
    rw [hgrown.collection, Collection.given_addAll]
    rfl
  simp only [read]
  constructor
  · intro h
    split at h
    · cases h
    · rename_i r hlines
      obtain ⟨given, hgrown, hheld⟩ := readLines_eq_ok hlines
      split at h
      · cases h
      · rename_i first rest hcons
        obtain rfl := (hgiven hgrown).symm.trans hcons
        split at h
        · cases h
        · rename_i hdefined
          refine ⟨first, rest, hheld, (Reading.undefined?_eq_none hgrown).mp hdefined, ?_⟩
          rw [← Except.ok.inj h, hgrown.collection]
          rfl
  · rintro ⟨first, rest, hheld, hdefined, rfl⟩
    obtain ⟨r, hread, hgrown⟩ := readLines_of_held hheld 1 {}
    rw [hread]
    simp only [hgiven hgrown, (Reading.undefined?_eq_none hgrown).mpr hdefined]
    rw [hgrown.collection]
    rfl

theorem Held.exists_line {lines : List (List Char)} {given : List Production}
    (h : Held lines given) {p : Production} (hp : p ∈ given) :
    ∃ line, readProduction line = .ok p := by
  obtain ⟨k, hk⟩ := List.mem_iff_get.mp hp
  exact ⟨_, hk ▸ h.get (by rw [h.length_eq]; exact k.2) k.2⟩

/-- Every grammar that is read is proper. -/
theorem read_proper {text : String} {g : Grammar} (h : read text = .ok g) : Proper g := by
  obtain ⟨first, rest, hheld, hdefined, rfl⟩ := read_iff_held.mp h
  apply ofProductions_proper
  · intro p hp name hname
    obtain ⟨q, hq, hhead⟩ := List.mem_map.mp (hdefined p hp name hname)
    exact ⟨q, hq, hhead⟩
  · intro p hp name hname
    obtain ⟨line, hline⟩ := hheld.exists_line hp
    exact readProduction_visible hline hname

theorem Proper.nonterminal_mem {g : Grammar} (hg : Proper g) {id : Nat} {p : Production}
    {name : String} (hp : g.productions[id]? = some p) (h : .nonterminal name ∈ p.body) :
    name ∈ g.nonterminals := by
  obtain ⟨_, q, _, hq, rfl⟩ := hg.defined hp h
  exact hg.heads hq

/-- With a fresh start no body has the augmented start. -/
theorem Proper.ne_start {g : Grammar} (hg : Proper g) (hs : FreshStart g) {id : Nat}
    {p : Production} {name : String} (hp : g.productions[id]? = some p)
    (h : .nonterminal name ∈ p.body) : name ≠ g.start := by
  rintro rfl
  obtain ⟨id', q, hpos, hq, hhead⟩ := hg.defined hp h
  have := hs id' q hq hhead
  omega

theorem Proper.symbol_mem {g : Grammar} (hg : Proper g) {id : Nat} {p : Production}
    {symbol : Symbol} (hp : g.productions[id]? = some p) (h : symbol ∈ p.body) :
    symbol ∈ g.symbols := by
  simp only [symbols, List.mem_append, List.mem_map]
  cases symbol with
  | terminal name => exact .inl ⟨name, hg.listed hp h, rfl⟩
  | nonterminal name => exact .inr ⟨name, hg.nonterminal_mem hp h, rfl⟩

end DuckLang.Grammar
