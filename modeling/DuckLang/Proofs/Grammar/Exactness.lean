import DuckLang.Proofs.Grammar.FirstFollow

/-! FIRST and FOLLOW are exact.  What a pass adds is there for a derivation, so nothing is in the
sets that should not be; and a production undone takes no name out of the sets on which a pass
changes nothing, so nothing is missing. -/

namespace DuckLang.Grammar

variable {g : Grammar}

/-! ### Passes -/

/-- Passes are made until one changes nothing; the loop ends with the second value. -/
inductive Settles {α : Type} (pass : α → α) : α → α → Prop
  | still {a : α} (same : pass a = a) : Settles pass a a
  | again {a b : α} (changed : pass a ≠ a) (rest : Settles pass (pass a) b) : Settles pass a b

theorem settles_iterate {α : Type} [DecidableEq α] {f : α → α} (fuel : Nat) {a : α}
    (h : f (iterate f fuel a) = iterate f fuel a) : Settles f a (iterate f fuel a) := by
  induction fuel generalizing a with
  | zero => exact .still h
  | succ fuel ih =>
    simp only [iterate] at h ⊢
    split at h
    · rename_i hsame
      simp only [hsame, if_true]
      exact .still hsame
    · rename_i hchanged
      simp only [hchanged, if_false]
      exact .again hchanged (ih h)

/-! ### FIRST -/

/-- What FIRST of symbols stands for: the terminals that forms derived from them start with, and `ε`
if they derive nothing. -/
inductive Begins (g : Grammar) (symbols : List Symbol) : String → Prop
  | vanishes (empty : g.Derives symbols []) : Begins g symbols epsilon
  | starts {x : String} {rest : List Symbol} (form : g.Derives symbols (.terminal x :: rest)) :
      Begins g symbols x

theorem Begins.of_derives {u v : List Symbol} (h : g.Derives u v) {x : String}
    (hv : g.Begins v x) : g.Begins u x := by
  cases hv with
  | vanishes empty => exact .vanishes (h.trans empty)
  | starts form => exact .starts (h.trans form)

/-- Symbols none of which is written like nothing. -/
def Visible (symbols : List Symbol) : Prop :=
  ∀ name, .terminal name ∈ symbols → name ≠ epsilon

theorem visible_append {u v : List Symbol} : Visible (u ++ v) ↔ Visible u ∧ Visible v := by
  simp only [Visible, List.mem_append, or_imp, forall_and]

theorem visible_nonterminal (name : String) : Visible [.nonterminal name] := by
  simp [Visible]

theorem Proper.visible_body (hg : Proper g) {id : Nat} {p : Production}
    (hp : g.productions[id]? = some p) : Visible p.body :=
  fun _ h => (hg.visible hp h).2

theorem Derives.visible (hg : Proper g) {u v : List Symbol} (h : g.Derives u v) (hu : Visible u) :
    Visible v :=
  h.forall_terminal hu fun _ _ hp => hg.visible_body hp

theorem begins_epsilon (hg : Proper g) {symbols : List Symbol} (hvisible : Visible symbols) :
    g.Begins symbols epsilon ↔ g.Derives symbols [] := by
  refine ⟨fun h => ?_, .vanishes⟩
  cases h with
  | vanishes empty => exact empty
  | starts form => exact absurd rfl (form.visible hg hvisible epsilon List.mem_cons_self)

theorem begins_terminal {symbols : List Symbol} {x : String} (hx : x ≠ epsilon) :
    g.Begins symbols x ↔ ∃ rest, g.Derives symbols (.terminal x :: rest) := by
  refine ⟨fun h => ?_, fun ⟨_, h⟩ => .starts h⟩
  cases h with
  | vanishes _ => exact absurd rfl hx
  | starts form => exact ⟨_, form⟩

theorem mem_firstOf_append {first : SetTable} {u v : List Symbol} (hu : Visible u) {x : String} :
    x ∈ firstOf first (u ++ v) ↔
      (x ∈ firstOf first u ∧ x ≠ epsilon) ∨ (epsilon ∈ firstOf first u ∧ x ∈ firstOf first v) := by
  induction u with
  | nil => simp [firstOf]
  | cons symbol u ih =>
    have ih := ih fun name h => hu name (List.mem_cons_of_mem _ h)
    cases symbol with
    | terminal name =>
      have hne : name ≠ epsilon := hu name List.mem_cons_self
      simp only [List.cons_append, firstOf, List.mem_singleton]
      constructor
      · rintro rfl
        exact .inl ⟨rfl, hne⟩
      · rintro (⟨rfl, _⟩ | ⟨h, _⟩)
        · rfl
        · exact absurd h.symm hne
    | nonterminal name =>
      simp only [List.cons_append, mem_firstOf_nonterminal, ih, ne_eq, not_true_eq_false, and_false,
        false_or]
      grind

/-- Every name of FIRST is there for a derivation. -/
def FirstSound (g : Grammar) (first : SetTable) : Prop :=
  ∀ name x, x ∈ first.get name → g.Begins [.nonterminal name] x

theorem FirstSound.firstOf (hg : Proper g) {first : SetTable} (h : FirstSound g first)
    {symbols : List Symbol} {x : String} (hx : x ∈ firstOf first symbols) :
    g.Begins symbols x := by
  induction symbols with
  | nil =>
    obtain rfl := List.mem_singleton.mp hx
    exact .vanishes .refl
  | cons symbol rest ih =>
    cases symbol with
    | terminal name =>
      obtain rfl := List.mem_singleton.mp hx
      exact .starts .refl
    | nonterminal name =>
      rcases mem_firstOf_nonterminal.mp hx with ⟨hname, hne⟩ | ⟨hempty, hrest⟩
      · obtain ⟨tail, htail⟩ := (begins_terminal hne).mp (h name x hname)
        exact .starts (htail.append (v := rest) .refl)
      · have hvanishes := (begins_epsilon hg (visible_nonterminal name)).mp (h name epsilon hempty)
        exact (ih hrest).of_derives (hvanishes.append (v := rest) .refl)

theorem firstPass_sound (hg : Proper g) {first : SetTable} (h : FirstSound g first) :
    FirstSound g (g.firstPass first) := by
  refine List.foldlRecOn g.productions.toList _ h fun t ht p hp => ?_
  obtain ⟨id, hid⟩ := rule_of_mem hp
  intro name x hx
  rcases SetTable.mem_get_grow.mp hx with hx | ⟨rfl, _, hx⟩
  · exact ht name x hx
  · exact (ht.firstOf hg hx).of_derives (.rule hid)

theorem first_sound (hg : Proper g) : FirstSound g g.analyze.first :=
  iterate_induction (fun _ h => firstPass_sound hg h) g.passBound
    fun name x hx => by simp [SetTable.get_empty] at hx

/-- A production undone takes no name out of FIRST. -/
theorem Produces.mem_firstOf (hg : Proper g) {u v : List Symbol} (h : g.Produces u v)
    (hu : Visible u) {x : String} (hx : x ∈ firstOf g.analyze.first v) :
    x ∈ firstOf g.analyze.first u := by
  obtain ⟨left, right, rule⟩ := h
  obtain ⟨hleft, _⟩ := visible_append.mp hu
  rw [List.append_assoc, mem_firstOf_append hleft] at hx
  rw [mem_firstOf_append hleft]
  refine hx.imp_right fun ⟨hempty, hx⟩ => ⟨hempty, ?_⟩
  rw [mem_firstOf_append (hg.visible_body rule)] at hx
  rw [mem_firstOf_nonterminal]
  exact hx.imp (fun ⟨h, hne⟩ => ⟨first_rule hg rule h, hne⟩)
    fun ⟨h, hx⟩ => ⟨first_rule hg rule h, hx⟩

theorem Derives.mem_firstOf (hg : Proper g) {u v : List Symbol} (h : g.Derives u v)
    (hu : Visible u) {x : String} (hx : x ∈ firstOf g.analyze.first v) :
    x ∈ firstOf g.analyze.first u := by
  induction h with
  | refl => exact hx
  | tail h step ih => exact ih (step.mem_firstOf hg (Derives.visible hg h hu) hx)

/-- FIRST of symbols has what it stands for. -/
theorem mem_firstOf (hg : Proper g) {symbols : List Symbol} (hvisible : Visible symbols)
    {x : String} : x ∈ firstOf g.analyze.first symbols ↔ g.Begins symbols x := by
  constructor
  · exact (first_sound hg).firstOf hg
  · intro h
    cases h with
    | vanishes empty => exact empty.mem_firstOf hg hvisible (by simp [firstOf])
    | starts form => exact form.mem_firstOf hg hvisible (by simp [firstOf])

theorem mem_first (hg : Proper g) {name x : String} :
    x ∈ g.analyze.first.get name ↔ g.Begins [.nonterminal name] x := by
  rw [← mem_firstOf hg (visible_nonterminal name), mem_firstOf_nonterminal]
  simp only [firstOf, List.mem_singleton]
  constructor
  · intro h
    by_cases hx : x = epsilon
    · exact .inr ⟨hx ▸ h, hx⟩
    · exact .inl ⟨h, hx⟩
  · rintro (⟨h, _⟩ | ⟨h, rfl⟩)
    · exact h
    · exact h

/-! ### FOLLOW -/

/-- What FOLLOW of a non-terminal stands for: the terminals right behind it in a form that some
non-terminal derives, and the end marker if a form ends in it that the augmented start derives. -/
inductive Trails (g : Grammar) (name : String) : String → Prop
  | ends {left : List Symbol}
      (form : g.Derives [.nonterminal g.start] (left ++ [.nonterminal name])) :
      Trails g name Token.Kind.endMarker
  | behind {root x : String} {left right : List Symbol} (listed : root ∈ g.nonterminals)
      (form : g.Derives [.nonterminal root] (left ++ .nonterminal name :: .terminal x :: right)) :
      Trails g name x

/-- What is behind the head of a production is behind a non-terminal of its body if the rest can
vanish. -/
theorem Trails.of_head {id : Nat} {p : Production} (hp : g.productions[id]? = some p)
    {left right : List Symbol} {name x : String}
    (hbody : p.body = left ++ .nonterminal name :: right) (hright : g.Derives right [])
    (h : g.Trails p.head x) : g.Trails name x := by
  have hrule : g.Derives [.nonterminal p.head] (left ++ [.nonterminal name]) := by
    have hkeep : g.Derives (left ++ [.nonterminal name]) (left ++ [.nonterminal name]) := .refl
    have hbodyDerives := hkeep.append hright
    rw [List.append_assoc, List.singleton_append, ← hbody, List.append_nil] at hbodyDerives
    exact (Derives.rule hp).trans hbodyDerives
  cases h with
  | @ends outer form =>
    have hinner := hrule.frame outer []
    rw [List.append_nil, List.append_nil, ← List.append_assoc] at hinner
    exact .ends (form.trans hinner)
  | @behind root x outer after listed form =>
    have hinner : g.Derives [.nonterminal root]
        ((outer ++ left) ++ .nonterminal name :: .terminal x :: after) := by
      have hframe := hrule.frame outer (.terminal x :: after)
      simp only [List.append_assoc, List.singleton_append] at hframe form ⊢
      exact form.trans hframe
    exact .behind listed hinner

theorem Trails.of_body (hg : Proper g) {id : Nat} {p : Production}
    (hp : g.productions[id]? = some p) {left right rest : List Symbol} {name x : String}
    (hbody : p.body = left ++ .nonterminal name :: right)
    (hright : g.Derives right (.terminal x :: rest)) : g.Trails name x := by
  have hkeep : g.Derives (left ++ [.nonterminal name]) (left ++ [.nonterminal name]) := .refl
  have hform := hkeep.append hright
  rw [List.append_assoc, List.append_assoc, List.singleton_append, ← hbody] at hform
  exact .behind (hg.heads hp) ((Derives.rule hp).trans hform)

/-- Every name of FOLLOW is there for a derivation. -/
def FollowSound (g : Grammar) (follow : SetTable) : Prop :=
  ∀ name x, x ∈ follow.get name → x ≠ epsilon ∧ g.Trails name x

theorem followStep_sound (hg : Proper g) {id : Nat} {p : Production}
    (hp : g.productions[id]? = some p) {left right : List Symbol} {name : String}
    (hbody : p.body = left ++ .nonterminal name :: right) {follow : SetTable}
    (h : FollowSound g follow) :
    FollowSound g (followStep g.analyze.first p.head name follow right) := by
  have hvisible : Visible right := fun n hn => (hg.visible hp (by simp [hbody, hn])).2
  have hafter : FollowSound g
      (follow.grow name ((firstOf g.analyze.first right).filter (· ≠ epsilon))) := by
    intro key x hx
    rcases SetTable.mem_get_grow.mp hx with hx | ⟨rfl, _, hx⟩
    · exact h key x hx
    · simp only [List.mem_filter, decide_eq_true_eq] at hx
      obtain ⟨rest, hrest⟩ := (begins_terminal hx.2).mp ((mem_firstOf hg hvisible).mp hx.1)
      exact ⟨hx.2, .of_body hg hp hbody hrest⟩
  simp only [followStep]
  split
  · rename_i hempty
    have hempty : epsilon ∈ firstOf g.analyze.first right := by simpa using hempty
    have hvanishes := (begins_epsilon hg hvisible).mp ((mem_firstOf hg hvisible).mp hempty)
    intro key x hx
    rcases SetTable.mem_get_grow.mp hx with hx | ⟨rfl, _, hx⟩
    · exact hafter key x hx
    · obtain ⟨hne, htrails⟩ := hafter p.head x hx
      exact ⟨hne, .of_head hp hbody hvanishes htrails⟩
  · exact hafter

theorem followBody_sound (hg : Proper g) {id : Nat} {p : Production}
    (hp : g.productions[id]? = some p) {left rest : List Symbol} (hbody : p.body = left ++ rest)
    {follow : SetTable} (h : FollowSound g follow) :
    FollowSound g (followBody g.analyze.first p.head follow rest) := by
  induction rest generalizing left follow with
  | nil => exact h
  | cons symbol rest ih =>
    have hnext : p.body = (left ++ [symbol]) ++ rest := by simpa using hbody
    cases symbol with
    | terminal name => exact ih hnext h
    | nonterminal name => exact ih hnext (followStep_sound hg hp hbody h)

theorem follow_sound (hg : Proper g) : FollowSound g g.analyze.follow := by
  refine iterate_induction (fun t ht => ?_) g.passBound ?_
  · refine List.foldlRecOn g.productions.toList _ ht fun t ht p hp => ?_
    obtain ⟨id, hid⟩ := rule_of_mem hp
    exact followBody_sound hg hid (show p.body = [] ++ p.body from rfl) ht
  · intro name x hx
    rcases SetTable.mem_get_grow.mp hx with hx | ⟨rfl, _, hx⟩
    · simp [SetTable.get_empty] at hx
    · obtain rfl := List.mem_singleton.mp hx
      have hstart : g.Derives [.nonterminal g.start] ([] ++ [.nonterminal g.start]) := .refl
      exact ⟨by decide, .ends hstart⟩

/-- What FOLLOW has for a non-terminal with symbols behind it in a form that `root` derives: FIRST
of these symbols and, if they can vanish, FOLLOW of the root. -/
structure Followed (g : Grammar) (root name : String) (right : List Symbol) : Prop where
  first : ∀ x ∈ firstOf g.analyze.first right, x ≠ epsilon → x ∈ g.analyze.follow.get name
  root : epsilon ∈ firstOf g.analyze.first right →
    ∀ x ∈ g.analyze.follow.get root, x ∈ g.analyze.follow.get name

theorem Followed.mono {root name : String} {right right' : List Symbol}
    (h : Followed g root name right)
    (hsub : ∀ x ∈ firstOf g.analyze.first right', x ∈ firstOf g.analyze.first right) :
    Followed g root name right' where
  first := fun x hx => h.first x (hsub x hx)
  root := fun hempty => h.root (hsub epsilon hempty)

/-- A non-terminal of a body that stands for its head in a form. -/
theorem Followed.body (hg : Proper g) {id : Nat} {p : Production}
    (hp : g.productions[id]? = some p) {left right after : List Symbol} {root name : String}
    (hbody : p.body = left ++ .nonterminal name :: right) (h : Followed g root p.head after) :
    Followed g root name (right ++ after) := by
  have hvisible : Visible right := fun n hn => (hg.visible hp (by simp [hbody, hn])).2
  constructor
  · intro x hx hne
    rcases (mem_firstOf_append hvisible).mp hx with ⟨hx, _⟩ | ⟨hempty, hx⟩
    · exact mem_follow_first hg hp hbody hx hne
    · exact mem_follow_head hg hp hbody hempty (h.first x hx hne)
  · intro hempty x hx
    rcases (mem_firstOf_append hvisible).mp hempty with ⟨_, hne⟩ | ⟨hright, hafter⟩
    · exact absurd rfl hne
    · exact mem_follow_head hg hp hbody hright (h.root hafter x hx)

/-- An element of two lists together is in the first or in the second. -/
theorem split_append {α : Type} {xs ys left right : List α} {a : α}
    (h : xs ++ ys = left ++ a :: right) :
    (∃ mid, xs = left ++ a :: mid ∧ right = mid ++ ys) ∨
      ∃ mid, left = xs ++ mid ∧ ys = mid ++ a :: right := by
  rcases List.append_eq_append_iff.mp h with ⟨mid, rfl, hys⟩ | ⟨mid, rfl, hmid⟩
  · exact .inr ⟨mid, rfl, hys⟩
  · cases mid with
    | nil => exact .inr ⟨[], by simp, by simpa using hmid.symm⟩
    | cons b mid =>
      obtain ⟨rfl, rfl⟩ := List.cons.inj hmid
      exact .inl ⟨mid, rfl, rfl⟩

theorem Derives.followed (hg : Proper g) {root : String} {form : List Symbol}
    (h : g.Derives [.nonterminal root] form) {left right : List Symbol} {name : String}
    (hform : form = left ++ .nonterminal name :: right) : Followed g root name right := by
  induction h generalizing left right name with
  | refl =>
    obtain ⟨rfl, rfl, rfl⟩ : left = [] ∧ name = root ∧ right = [] := by
      cases left <;> simp_all
    exact ⟨fun x hx hne => absurd (List.mem_singleton.mp hx) hne, fun _ x hx => hx⟩
  | tail h step ih =>
    have hvisible := Derives.visible hg h (visible_nonterminal root)
    obtain ⟨before, after, rule⟩ := step
    rename_i p
    rw [List.append_assoc] at hform
    -- the non-terminal stands before the body, in it or behind it
    rcases split_append hform with ⟨mid, rfl, rfl⟩ | ⟨mid, rfl, hrest⟩
    · have hstep : g.Produces (mid ++ .nonterminal p.head :: after) (mid ++ (p.body ++ after)) := by
        rw [← List.append_assoc]
        exact .apply mid after rule
      have hmid : Visible (mid ++ .nonterminal p.head :: after) := by
        rw [List.append_assoc, visible_append] at hvisible
        exact fun n hn => hvisible.2 n (List.mem_cons_of_mem _ hn)
      have hbefore : Followed g root name (mid ++ .nonterminal p.head :: after) :=
        ih (List.append_assoc ..)
      exact hbefore.mono fun x hx => hstep.mem_firstOf hg hmid hx
    · rcases split_append hrest with ⟨inner, hbody, rfl⟩ | ⟨inner, rfl, rfl⟩
      · exact (ih rfl).body hg rule hbody
      · refine ih (show _ = (before ++ .nonterminal p.head :: inner) ++ .nonterminal name :: right
          from ?_)
        simp

/-- FOLLOW of a non-terminal has what it stands for. -/
theorem mem_follow (hg : Proper g) {name x : String} :
    x ∈ g.analyze.follow.get name ↔ g.Trails name x := by
  constructor
  · exact fun h => (follow_sound hg name x h).2
  · intro h
    cases h with
    | ends form => exact (form.followed hg rfl).root (by simp [firstOf]) _ (end_mem_follow hg)
    | behind listed form =>
      refine (form.followed hg rfl).first x (by simp [firstOf]) ?_
      exact form.visible hg (visible_nonterminal _) x (by simp)

/-- No form has the end marker in it. -/
theorem Derives.ne_end (hg : Proper g) {root x : String} {form : List Symbol}
    (h : g.Derives [.nonterminal root] form) (hx : .terminal x ∈ form) :
    x ≠ Token.Kind.endMarker :=
  h.forall_terminal (P := (· ≠ Token.Kind.endMarker)) (by simp)
    (fun _ _ hp _ hname => (hg.visible hp hname).1) x hx

theorem trails_terminal {name x : String} (hx : x ≠ Token.Kind.endMarker) :
    g.Trails name x ↔ ∃ root ∈ g.nonterminals, ∃ left right,
      g.Derives [.nonterminal root] (left ++ .nonterminal name :: .terminal x :: right) := by
  refine ⟨fun h => ?_, fun ⟨_, listed, _, _, form⟩ => .behind listed form⟩
  cases h with
  | ends _ => exact absurd rfl hx
  | behind listed form => exact ⟨_, listed, _, _, form⟩

theorem trails_end (hg : Proper g) {name : String} :
    g.Trails name Token.Kind.endMarker ↔
      ∃ left, g.Derives [.nonterminal g.start] (left ++ [.nonterminal name]) := by
  refine ⟨fun h => ?_, fun ⟨_, form⟩ => .ends form⟩
  cases h with
  | ends form => exact ⟨_, form⟩
  | behind _ form => exact absurd rfl (form.ne_end hg (by simp))

/-- The terminals of a grammar that is read stand in its productions, the end marker apart. -/
theorem read_terminals {text : String} {g : Grammar} (h : read text = .ok g) {name : String}
    (hname : name ∈ g.terminals) : name ≠ epsilon := by
  have hg := read_proper h
  obtain ⟨first, rest, _, _, rfl⟩ := read_iff_held.mp h
  rw [ofProductions_terminals, List.mem_append, List.mem_eraseDups, List.mem_flatMap,
    List.mem_singleton] at hname
  rcases hname with ⟨p, hp, hname⟩ | rfl
  · obtain ⟨id, _, hid⟩ := ofProductions_given hp
    exact (hg.visible hid (Symbol.mem_terminals.mp hname)).2
  · decide

/-- FIRST and FOLLOW are exact.  The passes come to an end, and the sets have what they stand for
and nothing else. -/
theorem analysis_exact {text : String} {g : Grammar} (hread : read text = .ok g) :
    Settles g.firstPass (SetTable.empty g.nonterminals) g.analyze.first ∧
    Settles (g.followPass g.analyze.first) g.followSeed g.analyze.follow ∧
    (∀ name ∈ g.nonterminals,
      (∀ x ∈ g.analyze.first.get name, x = epsilon ∨ x ∈ g.terminals) ∧
      (∀ x ∈ g.analyze.follow.get name, x ∈ g.terminals) ∧
      (∀ t ∈ g.terminals, t ∈ g.analyze.first.get name ↔
        ∃ rest, g.Derives [.nonterminal name] (.terminal t :: rest)) ∧
      (epsilon ∈ g.analyze.first.get name ↔ g.Derives [.nonterminal name] []) ∧
      (∀ t ∈ g.terminals, t ≠ Token.Kind.endMarker →
        (t ∈ g.analyze.follow.get name ↔ ∃ root ∈ g.nonterminals, ∃ left right,
          g.Derives [.nonterminal root] (left ++ .nonterminal name :: .terminal t :: right))) ∧
      (Token.Kind.endMarker ∈ g.analyze.follow.get name ↔
        ∃ left, g.Derives [.nonterminal g.start] (left ++ [.nonterminal name]))) ∧
    ∀ symbols : List Symbol, (∀ symbol ∈ symbols, symbol ∈ g.symbols) →
      (∀ t ∈ g.terminals, t ∈ firstOf g.analyze.first symbols ↔
        ∃ rest, g.Derives symbols (.terminal t :: rest)) ∧
      (epsilon ∈ firstOf g.analyze.first symbols ↔ g.Derives symbols []) := by
  have hg := read_proper hread
  obtain ⟨hfirst, hfirstFixed⟩ := first_fixed hg
  obtain ⟨hfollow, hfollowFixed⟩ := follow_fixed hg
  refine ⟨settles_iterate _ hfirstFixed, settles_iterate _ hfollowFixed, ?_, ?_⟩
  · intro name _
    refine ⟨fun x hx => List.mem_cons.mp (hfirst.mem_get hx), fun x hx => ?_, fun t ht => ?_, ?_,
      fun t _ hne => ?_, ?_⟩
    · exact (List.mem_cons.mp (hfollow.mem_get hx)).resolve_left (follow_sound hg name x hx).1
    · rw [mem_first hg, begins_terminal (read_terminals hread ht)]
    · rw [mem_first hg, begins_epsilon hg (visible_nonterminal name)]
    · rw [mem_follow hg, trails_terminal hne]
    · rw [mem_follow hg, trails_end hg]
  · intro symbols hsymbols
    have hvisible : Visible symbols := by
      intro name hname
      have hlisted : name ∈ g.terminals := by simpa [Grammar.symbols] using hsymbols _ hname
      exact read_terminals hread hlisted
    refine ⟨fun t ht => ?_, ?_⟩
    · rw [mem_firstOf hg hvisible, begins_terminal (read_terminals hread ht)]
    · rw [mem_firstOf hg hvisible, begins_epsilon hg hvisible]

/-- Two optional names before a third. -/
def optionals : Grammar :=
  ofProductions ⟨"S", [.nonterminal "A", .nonterminal "B", .terminal "c"]⟩
    [⟨"A", [.terminal "a"]⟩, ⟨"A", []⟩, ⟨"B", [.terminal "b"]⟩, ⟨"B", []⟩]

theorem optionals_read :
    read "<S> → <A> <B> c\n<A> → a\n<A> → ε\n<B> → b\n<B> → ε\n" = .ok optionals := by
  rfl

/-- The third name can come right behind the first but never before it; and what has the third in it
is never empty. -/
theorem analysis_exact_optionals :
    (∃ root ∈ optionals.nonterminals, ∃ left right, optionals.Derives [.nonterminal root]
      (left ++ .nonterminal "A" :: .terminal "c" :: right)) ∧
    (¬∃ rest, optionals.Derives [.nonterminal "A"] (.terminal "c" :: rest)) ∧
    ¬optionals.Derives [.nonterminal "A", .nonterminal "B", .terminal "c"] [] := by
  obtain ⟨_, _, hsets, hfirst⟩ := analysis_exact optionals_read
  obtain ⟨_, _, hfirstA, _, hfollowA, _⟩ := hsets "A" (by decide)
  have hbody := (hfirst [.nonterminal "A", .nonterminal "B", .terminal "c"] (by decide)).2
  refine ⟨(hfollowA "c" (by decide) (by decide)).mp (by decide +kernel), fun h => ?_, fun h => ?_⟩
  · have hc := (hfirstA "c" (by decide)).mpr h
    revert hc
    decide +kernel
  · have hempty := hbody.mpr h
    revert hempty
    decide +kernel

end DuckLang.Grammar
