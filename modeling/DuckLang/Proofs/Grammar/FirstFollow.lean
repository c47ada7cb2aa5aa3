import DuckLang.Proofs.Grammar.Sets

/-! What FIRST and FOLLOW have in them.  FIRST of symbols has the first terminal of every word that
they cover, or `ε` if the word is empty; FOLLOW of a non-terminal has whatever terminal can come
behind it in a production, and behind the production if the rest can vanish. -/

namespace DuckLang.Grammar

variable {g : Grammar}

open SetTable (Grows Within)

theorem mem_firstOf_nonterminal {first : SetTable} {name x : String} {rest : List Symbol} :
    x ∈ firstOf first (.nonterminal name :: rest) ↔
      (x ∈ first.get name ∧ x ≠ epsilon) ∨
        (epsilon ∈ first.get name ∧ x ∈ firstOf first rest) := by
  simp only [firstOf]
  split
  · rename_i h
    have h : epsilon ∈ first.get name := by simpa using h
    simp only [NameSet.mem_union, List.mem_filter, decide_eq_true_eq]
    tauto
  · rename_i h
    have h : epsilon ∉ first.get name := by simpa using h
    simp only [List.mem_filter, decide_eq_true_eq]
    tauto

theorem firstOf_within {first : SetTable} (hfirst : Within g first) {body : List Symbol}
    (hbody : ∀ name, .terminal name ∈ body → name ∈ g.terminals) :
    ∀ x ∈ firstOf first body, x ∈ epsilon :: g.terminals := by
  induction body with
  | nil => simp [firstOf]
  | cons symbol rest ih =>
    have hrest := ih fun name h => hbody name (List.mem_cons_of_mem _ h)
    intro x hx
    cases symbol with
    | terminal name =>
      obtain rfl := List.mem_singleton.mp hx
      exact List.mem_cons_of_mem _ (hbody _ List.mem_cons_self)
    | nonterminal name =>
      rcases mem_firstOf_nonterminal.mp hx with ⟨hx, _⟩ | ⟨_, hx⟩
      · exact hfirst.mem_get hx
      · exact hrest x hx

theorem rule_of_mem {p : Production} (h : p ∈ g.productions.toList) :
    ∃ id : Nat, g.productions[id]? = some p := by
  obtain ⟨id, hid⟩ := List.getElem?_of_mem h
  exact ⟨id, by simpa using hid⟩

theorem mem_of_rule {id : Nat} {p : Production} (h : g.productions[id]? = some p) :
    p ∈ g.productions.toList :=
  Array.mem_toList_iff.mpr (Array.mem_of_getElem? h)

theorem firstPass_within (hg : Proper g) {first : SetTable} (h : Within g first) :
    Within g (g.firstPass first) := by
  refine List.foldlRecOn g.productions.toList _ h fun t ht p hp => ?_
  obtain ⟨id, hid⟩ := rule_of_mem hp
  exact ht.grow p.head (firstOf_within ht fun _ => hg.listed hid)

/-- The step of a pass over FIRST. -/
def firstStep (first : SetTable) (p : Production) : SetTable :=
  first.grow p.head (firstOf first p.body)

theorem grows_firstStep (first : SetTable) (p : Production) : Grows first (firstStep first p) :=
  first.grows_grow p.head _

/-- FIRST is within bounds and a pass leaves it alone. -/
theorem first_fixed (hg : Proper g) :
    Within g g.analyze.first ∧ g.firstPass g.analyze.first = g.analyze.first := by
  refine iterate_fixed (I := Within g) (f := g.firstPass) (fun _ h => firstPass_within hg h)
    (fun t => SetTable.grows_foldl grows_firstStep g.productions.toList t)
    (fun _ h => h.size_le) g.passBound _ SetTable.empty_within ?_
  simp only [passBound]
  omega

/-- FIRST of a body is in FIRST of the head. -/
theorem first_rule (hg : Proper g) {id : Nat} {p : Production} (hp : g.productions[id]? = some p)
    {x : String} (hx : x ∈ firstOf g.analyze.first p.body) : x ∈ g.analyze.first.get p.head := by
  obtain ⟨hwithin, hfixed⟩ := first_fixed hg
  have hstep := SetTable.foldl_fixed grows_firstStep hfixed p (mem_of_rule hp)
  rw [← hstep, firstStep, SetTable.mem_get_grow, hwithin.keys]
  exact .inr ⟨rfl, hg.heads hp, hx⟩

/-- The names of a word are among those allowed by the symbols that cover it and by the bodies of
productions. -/
theorem Yields.forall_mem {P : String → Prop} {symbols : List Symbol} {names : List String}
    (h : Yields g symbols names) (hsymbols : ∀ name, .terminal name ∈ symbols → P name)
    (hbodies : ∀ (id : Nat) (p : Production), g.productions[id]? = some p →
      ∀ name, .terminal name ∈ p.body → P name) :
    ∀ name ∈ names, P name := by
  induction h with
  | nil => simp
  | terminal _ ih =>
    intro name hname
    rcases List.mem_cons.mp hname with rfl | hname
    · exact hsymbols _ List.mem_cons_self
    · exact ih (fun n h => hsymbols n (List.mem_cons_of_mem _ h)) name hname
  | rule rule _ _ ihbody ihrest =>
    intro name hname
    rcases List.mem_append.mp hname with hname | hname
    · exact ihbody (hbodies _ _ rule) name hname
    · exact ihrest (fun n h => hsymbols n (List.mem_cons_of_mem _ h)) name hname

/-- FIRST has the first name of a word, `ε` for the empty word. -/
theorem Yields.mem_firstOf (hg : Proper g) {symbols : List Symbol} {names : List String}
    (h : Yields g symbols names) :
    names.headD epsilon ∈ firstOf g.analyze.first symbols := by
  induction h with
  | nil => simp [firstOf]
  | terminal _ _ => simp [firstOf]
  | rule rule body rest ihbody ihrest =>
    rename_i u v
    rw [mem_firstOf_nonterminal]
    have hhead := first_rule hg rule ihbody
    cases u with
    | nil => exact .inr ⟨hhead, ihrest⟩
    | cons name u =>
      have hvisible := body.forall_mem (P := (· ≠ epsilon)) (fun _ h => (hg.visible rule h).2)
        (fun _ _ hp _ h => (hg.visible hp h).2)
      exact .inl ⟨hhead, hvisible name List.mem_cons_self⟩

/-- What one non-terminal of a body adds to FOLLOW. -/
def followStep (first : SetTable) (head name : String) (follow : SetTable) (rest : List Symbol) :
    SetTable :=
  let after := firstOf first rest
  let follow := follow.grow name (after.filter (· ≠ epsilon))
  if after.contains epsilon then follow.grow name (follow.get head) else follow

theorem grows_followStep (first : SetTable) (head name : String) (follow : SetTable)
    (rest : List Symbol) : Grows follow (followStep first head name follow rest) := by
  simp only [followStep]
  split
  · exact (follow.grows_grow _ _).trans (SetTable.grows_grow _ _ _)
  · exact follow.grows_grow _ _

theorem followBody_nonterminal (first : SetTable) (head name : String) (follow : SetTable)
    (rest : List Symbol) :
    followBody first head follow (.nonterminal name :: rest) =
      followBody first head (followStep first head name follow rest) rest := rfl

theorem followBody_terminal (first : SetTable) (head name : String) (follow : SetTable)
    (rest : List Symbol) :
    followBody first head follow (.terminal name :: rest) = followBody first head follow rest := rfl

theorem grows_followBody (first : SetTable) (head : String) (follow : SetTable)
    (body : List Symbol) : Grows follow (followBody first head follow body) := by
  induction body generalizing follow with
  | nil => exact .refl _
  | cons symbol rest ih =>
    cases symbol with
    | terminal name => exact ih follow
    | nonterminal name =>
      exact (grows_followStep first head name follow rest).trans (ih _)

/-- A body that leaves FOLLOW alone does so at each of its non-terminals. -/
theorem followBody_fixed {first : SetTable} {head : String} {follow : SetTable}
    {body left right : List Symbol} {name : String}
    (h : followBody first head follow body = follow)
    (hbody : body = left ++ .nonterminal name :: right) :
    followStep first head name follow right = follow := by
  induction left generalizing body with
  | nil =>
    subst hbody
    rw [List.nil_append, followBody_nonterminal] at h
    have hback := grows_followBody first head (followStep first head name follow right) right
    rw [h] at hback
    exact (grows_followStep first head name follow right).antisymm hback
  | cons symbol left ih =>
    subst hbody
    cases symbol with
    | terminal other =>
      rw [List.cons_append, followBody_terminal] at h
      exact ih h rfl
    | nonterminal other =>
      rw [List.cons_append, followBody_nonterminal] at h
      have hback := grows_followBody first head
        (followStep first head other follow (left ++ .nonterminal name :: right))
        (left ++ .nonterminal name :: right)
      rw [h] at hback
      have hstep := (grows_followStep first head other follow _).antisymm hback
      rw [hstep] at h
      exact ih h rfl

theorem followStep_within {first : SetTable} (hfirst : Within g first) {head name : String}
    {rest : List Symbol} (hrest : ∀ n, .terminal n ∈ rest → n ∈ g.terminals) {follow : SetTable}
    (h : Within g follow) : Within g (followStep first head name follow rest) := by
  have hafter : Within g (follow.grow name ((firstOf first rest).filter (· ≠ epsilon))) :=
    h.grow name fun x hx => firstOf_within hfirst hrest x (List.mem_filter.mp hx).1
  simp only [followStep]
  split
  · exact hafter.grow name fun x hx => hafter.mem_get hx
  · exact hafter

theorem followBody_within {first : SetTable} (hfirst : Within g first) {head : String}
    {body : List Symbol} (hbody : ∀ n, .terminal n ∈ body → n ∈ g.terminals) {follow : SetTable}
    (h : Within g follow) : Within g (followBody first head follow body) := by
  induction body generalizing follow with
  | nil => exact h
  | cons symbol rest ih =>
    have hrest : ∀ n, .terminal n ∈ rest → n ∈ g.terminals :=
      fun n hn => hbody n (List.mem_cons_of_mem _ hn)
    cases symbol with
    | terminal name => exact ih hrest h
    | nonterminal name => exact ih hrest (followStep_within hfirst hrest h)

/-- FOLLOW before the first pass. -/
def followSeed (g : Grammar) : SetTable :=
  (SetTable.empty g.nonterminals).grow g.start [Token.Kind.endMarker]

theorem followSeed_within (hg : Proper g) : Within g g.followSeed :=
  SetTable.empty_within.grow g.start (by simpa using .inr hg.marked)

/-- The step of a pass over FOLLOW. -/
def followRule (first follow : SetTable) (p : Production) : SetTable :=
  followBody first p.head follow p.body

theorem grows_followRule (first follow : SetTable) (p : Production) :
    Grows follow (followRule first follow p) :=
  grows_followBody first p.head follow p.body

/-- FOLLOW is within bounds and a pass leaves it alone. -/
theorem follow_fixed (hg : Proper g) :
    Within g g.analyze.follow ∧
      g.followPass g.analyze.first g.analyze.follow = g.analyze.follow := by
  have hfirst := (first_fixed hg).1
  refine iterate_fixed (I := Within g) (f := g.followPass g.analyze.first) (fun t ht => ?_)
    (fun t => SetTable.grows_foldl (grows_followRule _) g.productions.toList t)
    (fun _ h => h.size_le) g.passBound _ (followSeed_within hg) ?_
  · refine List.foldlRecOn g.productions.toList _ ht fun t ht p hp => ?_
    obtain ⟨id, hid⟩ := rule_of_mem hp
    exact followBody_within hfirst (fun _ => hg.listed hid) ht
  · simp only [passBound]
    omega

theorem mem_followBody {first : SetTable} {head key x : String} {follow : SetTable}
    {body : List Symbol} (h : x ∈ follow.get key) :
    x ∈ (followBody first head follow body).get key := by
  induction body generalizing follow with
  | nil => exact h
  | cons symbol rest ih =>
    cases symbol with
    | terminal name => exact ih h
    | nonterminal name =>
      rw [followBody_nonterminal]
      refine ih ?_
      simp only [followStep]
      split
      · exact SetTable.mem_get_grow.mpr (.inl (SetTable.mem_get_grow.mpr (.inl h)))
      · exact SetTable.mem_get_grow.mpr (.inl h)

/-- The end of the input follows the augmented start. -/
theorem end_mem_follow (hg : Proper g) :
    Token.Kind.endMarker ∈ g.analyze.follow.get g.start := by
  let I := fun t : SetTable => Token.Kind.endMarker ∈ t.get g.start
  refine iterate_induction (I := I) (fun t ht => ?_) g.passBound ?_
  · exact List.foldlRecOn (motive := I) g.productions.toList _ ht fun t ht p _ =>
      mem_followBody ht
  · obtain ⟨_, hrule⟩ := hg.augmented
    have hstart : g.start ∈ g.nonterminals := hg.heads hrule
    refine SetTable.mem_get_grow.mpr (.inr ⟨rfl, ?_, List.mem_singleton_self _⟩)
    rwa [SetTable.empty_within.keys]

theorem follow_step (hg : Proper g) {id : Nat} {p : Production}
    (hp : g.productions[id]? = some p) {left right : List Symbol} {name : String}
    (hbody : p.body = left ++ .nonterminal name :: right) :
    followStep g.analyze.first p.head name g.analyze.follow right = g.analyze.follow :=
  followBody_fixed (SetTable.foldl_fixed (grows_followRule g.analyze.first) (follow_fixed hg).2 p
    (mem_of_rule hp)) hbody

/-- What comes right behind a non-terminal of a body follows it. -/
theorem mem_follow_first (hg : Proper g) {id : Nat} {p : Production}
    (hp : g.productions[id]? = some p) {left right : List Symbol} {name x : String}
    (hbody : p.body = left ++ .nonterminal name :: right)
    (hx : x ∈ firstOf g.analyze.first right) (hne : x ≠ epsilon) :
    x ∈ g.analyze.follow.get name := by
  have hname : name ∈ g.nonterminals := hg.nonterminal_mem hp (by simp [hbody])
  have hgrown : x ∈ (g.analyze.follow.grow name
      ((firstOf g.analyze.first right).filter (· ≠ epsilon))).get name :=
    SetTable.mem_get_grow.mpr (.inr ⟨rfl, by rwa [(follow_fixed hg).1.keys], by simp [hx, hne]⟩)
  rw [← follow_step hg hp hbody]
  simp only [followStep]
  split
  · exact SetTable.mem_get_grow.mpr (.inl hgrown)
  · exact hgrown

/-- What follows the head follows a non-terminal of the body behind which all can vanish. -/
theorem mem_follow_head (hg : Proper g) {id : Nat} {p : Production}
    (hp : g.productions[id]? = some p) {left right : List Symbol} {name x : String}
    (hbody : p.body = left ++ .nonterminal name :: right)
    (hempty : epsilon ∈ firstOf g.analyze.first right) (hx : x ∈ g.analyze.follow.get p.head) :
    x ∈ g.analyze.follow.get name := by
  have hname : name ∈ g.nonterminals := hg.nonterminal_mem hp (by simp [hbody])
  rw [← follow_step hg hp hbody]
  simp only [followStep, List.contains_eq_mem, hempty, decide_true, if_true]
  refine SetTable.mem_get_grow.mpr (.inr ⟨rfl, ?_, SetTable.mem_get_grow.mpr (.inl hx)⟩)
  rwa [((follow_fixed hg).1.grow name fun y hy =>
    firstOf_within (first_fixed hg).1 (fun n hn => hg.listed hp (by simp [hbody, hn])) y
      (List.mem_filter.mp hy).1).keys]

/-- The terminal behind a non-terminal of a body, where the rest of the body covers `names` and
`x` follows the head. -/
theorem mem_follow_of_yields (hg : Proper g) {id : Nat} {p : Production}
    (hp : g.productions[id]? = some p) {left right : List Symbol} {name x : String}
    (hbody : p.body = left ++ .nonterminal name :: right) {names : List String}
    (hright : Yields g right names) (hx : x ∈ g.analyze.follow.get p.head) :
    names.headD x ∈ g.analyze.follow.get name := by
  have hfirst := hright.mem_firstOf hg
  cases names with
  | nil => exact mem_follow_head hg hp hbody hfirst hx
  | cons n names =>
    refine mem_follow_first hg hp hbody hfirst ?_
    exact hright.forall_mem (P := (· ≠ epsilon))
      (fun m hm => (hg.visible hp (by simp [hbody, hm])).2)
      (fun _ _ hq _ h => (hg.visible hq h).2) n List.mem_cons_self

end DuckLang.Grammar
