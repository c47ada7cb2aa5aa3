import DuckLang.Proofs.Parser.Termination
import DuckLang.Proofs.Parser.Viable
import Mathlib.Data.Finset.Lattice.Fold

/-! Termination of every parse.  Reductions before a terminal that cannot come next are also made
before one that can, as the stack that they leave has an ending.  Before the latter they come to an
end, since the machine accepts, and there are only so many terminals. -/

namespace DuckLang.Parser

open Grammar (Proper FreshStart State word)
open Token.Kind (endMarker)

variable {g : Grammar} {symbols : List Grammar.Symbol} {k : Nat} {s : State} {x : String}

/-! ### Reductions in a row -/

/-- What comes behind a non-terminal in a form that the start derives follows it. -/
theorem headD_mem_follow (hg : Proper g) {left : List Grammar.Symbol} {name : String}
    {names : List String}
    (h : g.Derives [.nonterminal g.start] (left ++ .nonterminal name :: word names)) :
    names.headD endMarker ∈ g.analyze.follow.get name := by
  rw [Grammar.mem_follow hg]
  cases names with
  | nil => exact .ends h
  | cons n names =>
    obtain ⟨_, haug⟩ := hg.augmented
    exact .behind (hg.heads haug) h

/-- A reduction is made before whatever may follow what it is to. -/
theorem Folds.before (hg : Proper g) (hconflicts : g.table.conflicts = []) {name y : String}
    {below : List Grammar.Symbol} (h : Folds g x symbols (.nonterminal name :: below))
    (hfollow : y ∈ g.analyze.follow.get name) :
    Folds g y symbols (.nonterminal name :: below) := by
  cases h with
  | @rule id p _ listed cell =>
    obtain ⟨k, s, hstands⟩ := stands_of_cell? hg cell
    rw [hstands.cell?] at cell
    obtain ⟨i, hi, hid, hrule, hnext⟩ := Grammar.reduce_cell cell
    obtain rfl : id = i.rule := Int.ofNat.inj hid
    have hproduction := Grammar.production_of_rule listed
    rw [← hproduction] at hfollow hstands ⊢
    exact .of_complete hg hconflicts hstands hi hnext hrule hfollow rfl

/-- A reduction is made before the ending of what it leaves, too. -/
theorem Folds.ending (hg : Proper g) (hconflicts : g.table.conflicts = [])
    {next : List Grammar.Symbol} {names : List String} (h : Folds g x symbols next)
    (hending : Ending g next names) :
    Folds g (names.headD endMarker) symbols next ∧ Ending g symbols names := by
  have hmade : Folds g (names.headD endMarker) symbols next := by
    obtain ⟨name, below, rfl⟩ := h.result
    exact h.before hg hconflicts (headD_mem_follow hg (by simpa using hending.form))
  refine ⟨hmade, hending.form.trans (hmade.derives.append .refl), ?_⟩
  obtain ⟨more, hmore⟩ := exists_cons_end names
  have haccepts := hending.accepts
  rw [hmore] at haccepts ⊢
  exact .reduce hmade haccepts

/-- Reductions in a row are made before some ending. -/
theorem Stands.chain_ending (hg : Proper g) (hfresh : FreshStart g)
    (hconflicts : g.table.conflicts = []) (hproductive : Productive g)
    {later : List (List Grammar.Symbol)} (h : Stands g symbols k s)
    (hchain : List.IsChain (Folds g x) (symbols :: later)) :
    ∃ names, Ending g symbols names ∧
      List.IsChain (Folds g (names.headD endMarker)) (symbols :: later) := by
  induction later generalizing symbols k s with
  | nil =>
    obtain ⟨names, hnames⟩ := h.exists_ending hg hfresh hconflicts hproductive
    exact ⟨names, hnames, .singleton _⟩
  | cons next later ih =>
    obtain ⟨hfold, hlater⟩ := List.isChain_cons_cons.mp hchain
    obtain ⟨k', s', h'⟩ := hfold.stands hg
    obtain ⟨names, hending, hnames⟩ := ih h' hlater
    obtain ⟨hfold', hending'⟩ := hfold.ending hg hconflicts hending
    exact ⟨names, hending', .cons_cons hfold' hnames⟩

/-- There are at most `n` reductions in a row before a terminal. -/
def AtMost (g : Grammar) (x : String) (symbols : List Grammar.Symbol) (n : Nat) : Prop :=
  ∀ later, List.IsChain (Folds g x) (symbols :: later) → later.length ≤ n

theorem later_eq_nil {later : List (List Grammar.Symbol)}
    (hcell : ∀ id : Nat, cell? g symbols x ≠ some (.reduce id))
    (h : List.IsChain (Folds g x) (symbols :: later)) : later = [] := by
  cases later with
  | nil => rfl
  | cons next later =>
    obtain ⟨id, hid⟩ := (List.isChain_cons_cons.mp h).1.cell
    exact absurd hid (hcell id)

/-- Before terminals that are accepted there are only so many reductions in a row. -/
theorem Accepts.bounded {names : List String} (h : Accepts g symbols (x :: names)) :
    ∃ n, AtMost g x symbols n := by
  generalize hnames : x :: names = all at h
  induction h with
  | @accept symbols cell =>
    obtain ⟨rfl, _⟩ := List.cons.inj hnames
    refine ⟨0, fun later hlater => ?_⟩
    simp [later_eq_nil (by simp [cell]) hlater]
  | @shift symbols y names j cell rest ih =>
    obtain ⟨rfl, _⟩ := List.cons.inj hnames
    refine ⟨0, fun later hlater => ?_⟩
    simp [later_eq_nil (by simp [cell]) hlater]
  | @reduce symbols next y names fold rest ih =>
    obtain ⟨rfl, _⟩ := List.cons.inj hnames
    obtain ⟨n, hn⟩ := ih hnames
    refine ⟨n + 1, fun later hlater => ?_⟩
    cases later with
    | nil => exact Nat.zero_le _
    | cons next' later =>
      obtain ⟨hfold, hlater⟩ := List.isChain_cons_cons.mp hlater
      obtain rfl := fold.unique hfold
      exact Nat.succ_le_succ (hn later hlater)

theorem Ending.headD_mem (hg : Proper g) {names : List String} (h : Ending g symbols names) :
    names.headD endMarker ∈ g.terminals := by
  cases names with
  | nil => exact hg.marked
  | cons n names =>
    exact h.form.forall_terminal (P := (· ∈ g.terminals)) (by simp)
      (fun _ _ hp _ hname => hg.listed hp hname) n (by simp)

/-- There are only so many reductions in a row, before whatever terminal. -/
theorem Stands.bounded (hg : Proper g) (hfresh : FreshStart g)
    (hconflicts : g.table.conflicts = []) (hproductive : Productive g) (h : Stands g symbols k s)
    (x : String) : ∃ n, AtMost g x symbols n := by
  have hbound : ∀ y, ∃ n, ∀ names, Accepts g symbols (y :: names) → AtMost g y symbols n := by
    intro y
    by_cases hy : ∃ names, Accepts g symbols (y :: names)
    · obtain ⟨names, hnames⟩ := hy
      obtain ⟨n, hn⟩ := hnames.bounded
      exact ⟨n, fun _ _ => hn⟩
    · exact ⟨0, fun names hnames => absurd ⟨names, hnames⟩ hy⟩
  choose bound hbound using hbound
  refine ⟨g.terminals.toFinset.sup bound, fun later hlater => ?_⟩
  obtain ⟨names, hending, hchain⟩ := h.chain_ending hg hfresh hconflicts hproductive hlater
  obtain ⟨more, hmore⟩ := exists_cons_end names
  have haccepts := hending.accepts
  rw [hmore] at haccepts
  exact (hbound _ more haccepts later hchain).trans
    (Finset.le_sup (List.mem_toFinset.mpr (hending.headD_mem hg)))

/-- Reductions in a row come to an end. -/
theorem AtMost.acc {n : Nat} (h : AtMost g x symbols n) :
    Acc (fun next symbols => Folds g x symbols next) symbols := by
  induction n generalizing symbols with
  | zero =>
    refine .intro _ fun next hfold => ?_
    have hlength := h [next] (.cons_cons hfold (.singleton _))
    simp at hlength
  | succ n ih =>
    refine .intro _ fun next hfold => ih fun later hlater => ?_
    exact Nat.le_of_succ_le_succ (h (next :: later) (.cons_cons hfold hlater))

/-! ### Runs -/

/-- A parser ends if it does so from wherever it has fewer tokens ahead. -/
theorem halts_of_acc (hg : Proper g)
    (hacc : Acc (fun next symbols => Folds g x symbols next) symbols) {p : Parser}
    (hx : p.cursor.lookahead.terminal = x) (h : Spells g p.stack symbols k)
    (hless : ∀ (q : Parser) (symbols : List Grammar.Symbol) (k : Nat), Spells g q.stack symbols k →
      q.cursor.ahead.length < p.cursor.ahead.length → Halts g.table q) : Halts g.table p := by
  induction hacc generalizing p k with
  | intro symbols _ ih =>
    cases acts hg h with
    | accepted made => exact .accepted made
    | stuck _ made => exact .failed made
    | raised made _ => exact .failed made
    | shift _ inner made cursor spelt =>
      refine .next made (hless _ _ _ spelt ?_)
      rw [cursor, Cursor.ahead_of_inner inner]
      exact Nat.lt_succ_self _
    | reduce fold made cursor spelt =>
      rw [hx] at fold
      exact .next made (ih _ fold (by rw [cursor, hx]) spelt (by rwa [cursor]))

theorem Climbs.halts (hg : Proper g) (hfresh : FreshStart g) (hconflicts : g.table.conflicts = [])
    (hproductive : Productive g) {p : Parser} (h : Spells g p.stack symbols k) :
    Halts g.table p := by
  induction hn : p.cursor.ahead.length using Nat.strongRecOn generalizing p symbols k with
  | ind n ih =>
    obtain ⟨s, hs⟩ := h.state hg
    have hstands : Stands g symbols k s := ⟨⟨_, h⟩, hs⟩
    obtain ⟨m, hm⟩ := hstands.bounded hg hfresh hconflicts hproductive
      p.cursor.lookahead.terminal
    refine halts_of_acc hg hm.acc rfl h fun q symbols' k' hq hlt => ?_
    exact ih _ (hn ▸ hlt) hq rfl

/-- A strict table of a grammar in which every non-terminal derives a word ends every parse. -/
theorem strict_halts {text : String} {g : Grammar} {table : Table}
    (hread : Grammar.read text = .ok g) (hfresh : FreshStart g) (hproductive : Productive g)
    (htable : g.buildTable true = .ok table) (tokens : List Token) :
    Halts table (.start tokens) := by
  obtain ⟨hconflicts, rfl⟩ := Grammar.buildTable_strict.mp htable
  exact Climbs.halts (Grammar.read_proper hread) hfresh hconflicts hproductive .bottom

theorem strict_halts_nameLists : Halts nameLists.table (.start (twoNames ++ twoNames)) := by
  have htable : nameLists.buildTable true = .ok nameLists.table := by
    rw [Grammar.buildTable_strict]
    exact ⟨by decide +kernel, rfl⟩
  exact strict_halts nameLists_read nameLists_fresh nameLists_productive htable _

/-! ### Runs without end -/

/-- A parser does not end if each step leads to one that does not. -/
theorem not_halts {table : Table} {I : Parser → Prop}
    (hstep : ∀ p, I p → ∃ q, step table p = .next q ∧ I q) {p : Parser} (hp : I p) :
    ¬Halts table p := by
  have hrun : ∀ fuel p, I p → ∃ q, run table fuel p = .unfinished q := by
    intro fuel
    induction fuel with
    | zero => exact fun p _ => ⟨p, rfl⟩
    | succ fuel ih =>
      intro p hp
      obtain ⟨q, hq, hI⟩ := hstep p hp
      simp only [run, hq]
      exact ih q hI
  rintro ⟨n, o, ho, hended⟩
  obtain ⟨q, hq⟩ := hrun n p hp
  exact hended q ((ho n (Nat.le_refl n)).symm.trans hq)

/-- A parser with a terminal ahead and the given states on its stack, top first. -/
structure Faces (p : Parser) (x : String) (states : List Int) : Prop where
  token : p.cursor.lookahead.terminal = x
  stacked : p.stack.map (·.1) = states

theorem topState_eq (stack : List (Int × Attribute)) :
    topState stack = (stack.map (·.1)).headD 0 := by
  cases stack <;> rfl

theorem reduceEffect_silent {head : String} {attributes : List Attribute}
    (h : Effect.of? head attributes.length = none) (e : Emitter) :
    ∃ a, (reduceEffect head attributes).run e = .ok a e := by
  simp only [reduceEffect, h]
  split
  · exact ⟨_, rfl⟩
  · exact ⟨_, rfl⟩

/-- A reduction without an effect is always made. -/
theorem Faces.reduce {table : Table} {p : Parser} {states : List Int} {index next : Int}
    {rule : Table.Rule} (h : Faces p x states)
    (hcell : (table.row? (states.headD 0)).bind (·.action? x) = some (.reduce index))
    (hrule : table.rule? index = some rule) (hsize : rule.size ≤ states.length)
    (hsilent : Effect.of? rule.head rule.size = none)
    (hgoto : (table.row? ((states.drop rule.size).headD 0)).bind (·.goto? rule.head) = some next) :
    ∃ q, step table p = .next q ∧ Faces q x (next :: states.drop rule.size) := by
  obtain ⟨row, hrow, haction⟩ := Option.bind_eq_some_iff.mp hcell
  have hlength : p.stack.length = states.length := by rw [← h.stacked, List.length_map]
  have htop : topState p.stack = states.headD 0 := by rw [topState_eq, h.stacked]
  have hbelow : topState (p.stack.drop rule.size) = (states.drop rule.size).headD 0 := by
    rw [topState_eq, List.map_drop, h.stacked]
  have hsilent :
      Effect.of? rule.head ((p.stack.take rule.size).map (·.2)).reverse.length = none := by
    rwa [List.length_reverse, List.length_map, List.length_take, hlength, Nat.min_eq_left hsize]
  obtain ⟨a, ha⟩ := reduceEffect_silent hsilent p.emitter
  have hstep : step table p =
      .next { p with stack := (next, a) :: p.stack.drop rule.size } := by
    simp only [step, htop, hrow, h.token, haction, Parser.reduce, hrule, hlength,
      Nat.not_lt.mpr hsize, if_false, ha, hbelow, hgoto]
  exact ⟨_, hstep, h.token, by simp [List.map_drop, h.stacked]⟩

/-- `X` and `Y` stand for each other or for nothing, and no word stands for the `U` behind `X`. -/
def circles : Grammar :=
  .ofProductions ⟨"S", [.terminal "id"]⟩
    [⟨"S", [.nonterminal "X", .nonterminal "U"]⟩, ⟨"U", [.nonterminal "U", .terminal ";"]⟩,
     ⟨"X", [.nonterminal "Y"]⟩, ⟨"Y", [.nonterminal "X"]⟩, ⟨"X", []⟩,
     ⟨"Z", [.nonterminal "X", .terminal ","]⟩]

theorem circles_read :
    Grammar.read ("<S> → id\n<S> → <X> <U>\n<U> → <U> ;\n<X> → <Y>\n<Y> → <X>\n<X> → ε\n" ++
      "<Z> → <X> ,\n") = .ok circles := by
  rfl

/-- Before a comma `X` and `Y` are reduced to each other forever. -/
theorem circles_loop (p : Parser)
    (h : Faces p "," [] ∨ Faces p "," [3] ∨ Faces p "," [4]) :
    ∃ q, step circles.table p = .next q ∧
      (Faces q "," [] ∨ Faces q "," [3] ∨ Faces q "," [4]) := by
  have hcells : (circles.table.row? 0).bind (·.action? ",") = some (.reduce 6) ∧
      (circles.table.row? 3).bind (·.action? ",") = some (.reduce 5) ∧
      (circles.table.row? 4).bind (·.action? ",") = some (.reduce 4) ∧
      (circles.table.row? 0).bind (·.goto? "X") = some 3 ∧
      (circles.table.row? 0).bind (·.goto? "Y") = some 4 := by
    decide +kernel
  have hrules : circles.table.rule? 6 = some ⟨"X", 0⟩ ∧ circles.table.rule? 5 = some ⟨"Y", 1⟩ ∧
      circles.table.rule? 4 = some ⟨"X", 1⟩ := by
    decide +kernel
  obtain ⟨hempty, hX, hY, hgotoX, hgotoY⟩ := hcells
  obtain ⟨hrule6, hrule5, hrule4⟩ := hrules
  rcases h with h | h | h
  · obtain ⟨q, hq, hfaces⟩ :=
      h.reduce hempty hrule6 (by decide) (by decide +kernel) hgotoX
    exact ⟨q, hq, .inr (.inl hfaces)⟩
  · obtain ⟨q, hq, hfaces⟩ :=
      h.reduce hX hrule5 (by decide) (by decide +kernel) hgotoY
    exact ⟨q, hq, .inr (.inr hfaces)⟩
  · obtain ⟨q, hq, hfaces⟩ :=
      h.reduce hY hrule4 (by decide) (by decide +kernel) hgotoX
    exact ⟨q, hq, .inr (.inl hfaces)⟩

/-- The augmented start has a production of its own. -/
def doubled : Grammar :=
  .ofProductions ⟨"S", [.nonterminal "A", .nonterminal "SPrime", .terminal ";"]⟩
    [⟨"A", []⟩, ⟨"SPrime", [.terminal "id"]⟩]

theorem doubled_read :
    Grammar.read "<S> → <A> <SPrime> ;\n<A> → ε\n<SPrime> → id\n" = .ok doubled := by
  rfl

theorem doubled_productive : Productive doubled := by
  have hbody : doubled.productions[1]? =
      some ⟨"S", [.nonterminal "A", .nonterminal "SPrime", .terminal ";"]⟩ := rfl
  have hnothing : doubled.productions[2]? = some ⟨"A", []⟩ := rfl
  have hname : doubled.productions[3]? = some ⟨"SPrime", [.terminal "id"]⟩ := rfl
  have hstart : doubled.Derives [.nonterminal "SPrime"] (word ["id"]) := .rule hname
  have hempty : doubled.Derives [.nonterminal "A"] (word []) := .rule hnothing
  intro name hname
  obtain rfl | rfl | rfl : name = "SPrime" ∨ name = "S" ∨ name = "A" := by
    simpa using (show name ∈ ["SPrime", "S", "A"] from hname)
  · exact ⟨_, hstart⟩
  · exact ⟨["id", ";"], (Grammar.Derives.rule hbody).trans
      (hempty.append (hstart.append (.refl (a := word [";"]))))⟩
  · exact ⟨_, hempty⟩

/-- Before a name `A` is put on the stack again and again. -/
theorem doubled_loop (p : Parser) (h : ∃ n, Faces p "id" (List.replicate n 2)) :
    ∃ q, step doubled.table p = .next q ∧ ∃ n, Faces q "id" (List.replicate n 2) := by
  obtain ⟨n, h⟩ := h
  have hcells : ∀ state ∈ [(0 : Int), 2],
      (doubled.table.row? state).bind (·.action? "id") = some (.reduce 2) ∧
      (doubled.table.row? state).bind (·.goto? "A") = some 2 := by
    decide +kernel
  have htop : (List.replicate n (2 : Int)).headD 0 ∈ [(0 : Int), 2] := by
    cases n <;> simp [List.replicate_succ]
  obtain ⟨haction, hgoto⟩ := hcells _ htop
  have hrule : doubled.table.rule? 2 = some ⟨"A", 0⟩ := by decide +kernel
  obtain ⟨q, hq, hfaces⟩ := h.reduce haction hrule (Nat.zero_le _) (by decide +kernel) hgoto
  exact ⟨q, hq, n + 1, hfaces⟩

/-- Without words for every non-terminal, or with a second production of the augmented start, a
strict table may run on forever. -/
theorem strict_runs_on :
    ((∃ text, Grammar.read text = .ok circles) ∧ FreshStart circles ∧
      circles.buildTable true = .ok circles.table ∧
      ¬Halts circles.table (.start [⟨.comma, ",", 1⟩, .endOfInput 1])) ∧
    (∃ text, Grammar.read text = .ok doubled) ∧ Productive doubled ∧
      doubled.buildTable true = .ok doubled.table ∧
      ¬Halts doubled.table (.start [⟨.identifier, "a", 1⟩, .endOfInput 1]) := by
  have hcircles : circles.buildTable true = .ok circles.table := by
    rw [Grammar.buildTable_strict]
    exact ⟨by decide +kernel, rfl⟩
  have hdoubled : doubled.buildTable true = .ok doubled.table := by
    rw [Grammar.buildTable_strict]
    exact ⟨by decide +kernel, rfl⟩
  refine ⟨⟨⟨_, circles_read⟩, by decide, hcircles, not_halts circles_loop ?_⟩,
    ⟨_, doubled_read⟩, doubled_productive, hdoubled, not_halts doubled_loop ?_⟩
  · exact .inl ⟨by decide, rfl⟩
  · exact ⟨0, by decide, rfl⟩

end DuckLang.Parser
