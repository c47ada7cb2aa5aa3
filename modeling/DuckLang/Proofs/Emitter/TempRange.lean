import DuckLang.Proofs.Emitter.Aliasing
import DuckLang.Proofs.Machine.Typing

/-! Where temporaries lie.  The address of a temporary is the start of the range of its type plus
its id.  Every id that is minted is the result of some quadruple, so the temporaries of a program
lie in their ranges exactly if no more of them were minted than a range has slots. -/

namespace DuckLang

/-- Every temporary of a program resolves to an address of the temporary segment, in the range of
its own type. -/
def Program.PlacesTemps (p : Program) : Prop :=
  ∀ q ∈ p.quads, ∀ operand ∈ q.operands, ∀ t ∈ operand.temps, ∃ address offset,
    operand.target? = some address ∧
      Address.place? address = some { segment := .temporaries, type := t.2, offset }

namespace Emitter

/-- The temporaries of an emitter were minted for a type with `T`, and what was minted is the result
of some quadruple. -/
structure Minted (T : DataType → Prop) (d : Desk) : Prop where
  returns : d.emitter.scope.Returns T
  typed : ∀ t ∈ d.grip.hand ++ temporaries d.emitter.operands, T t.2
  quads : ∀ q ∈ d.emitter.quads, ∀ t ∈ q.temps, 0 ≤ t.1 ∧ t.1 < d.emitter.temps.next ∧ T t.2
  results : ∀ n < d.emitter.temps.next, ∃ q ∈ d.emitter.quads, ∃ type,
    q.result = .temporary n type

variable {T : DataType → Prop} {lost : List Int} {d d' : Desk} {g : Grip} {e : Emitter}

theorem Minted.empty : Minted T ⟨{}, {}⟩ where
  returns _ h := by cases h
  typed t h := by cases h
  quads q h := by simp at h
  results n h := by cases h

theorem Accounts.minted (h : Accounts lost d) {t : Int × DataType} (ht : t ∈ d.grip.hand) :
    0 ≤ t.1 ∧ t.1 < d.emitter.temps.next := by
  have hlive := (h.live t.1).mpr
    (List.mem_append_left _ (List.mem_append_left _ (List.mem_map_of_mem ht)))
  exact ⟨hlive.1, hlive.2.1⟩

theorem Minted.push (h : Minted T ⟨g, e⟩) {q : Quad} {temps : TempPool}
    {operands : List (Operand × DataType)} (hnext : e.temps.next ≤ temps.next)
    (htyped : ∀ t ∈ temporaries operands, T t.2)
    (hq : ∀ t ∈ q.temps, 0 ≤ t.1 ∧ t.1 < temps.next ∧ T t.2)
    (hresults : ∀ n < temps.next, n < e.temps.next ∨ ∃ type, q.result = .temporary n type) :
    Minted T ⟨g, { e with temps, quads := e.quads.push q, operands }⟩ where
  returns := h.returns
  typed t ht := by
    rcases List.mem_append.mp ht with hhand | hstack
    · exact h.typed t (List.mem_append_left _ hhand)
    · exact htyped t hstack
  quads q' hq' t ht := by
    rcases Array.mem_push.mp hq' with hold | rfl
    · obtain ⟨hpos, hlt, htype⟩ := h.quads q' hold t ht
      have hle : (e.temps.next : Int) ≤ temps.next := Int.ofNat_le.mpr hnext
      exact ⟨hpos, Int.lt_of_lt_of_le hlt hle, htype⟩
    · exact hq t ht
  results n hn := by
    rcases hresults n hn with hold | ⟨type, htype⟩
    · obtain ⟨q', hq', htype⟩ := h.results n hold
      exact ⟨q', Array.mem_push_of_mem _ hq', htype⟩
    · exact ⟨q, Array.mem_push_self, type, htype⟩

theorem Minted.still (h : Minted T d) (hreturns : d'.emitter.scope.Returns T)
    (hquads : d'.emitter.quads = d.emitter.quads)
    (hnext : d'.emitter.temps.next = d.emitter.temps.next)
    (htyped : d'.grip.hand ++ temporaries d'.emitter.operands ⊆
      d.grip.hand ++ temporaries d.emitter.operands) : Minted T d' where
  returns := hreturns
  typed t ht := h.typed t (htyped ht)
  quads := by
    rw [hquads, hnext]
    exact h.quads
  results := by
    rw [hquads, hnext]
    exact h.results

theorem Minted.patch (h : Minted T ⟨g, e⟩) {index : Nat} {q : Quad} (target : Nat)
    (hfound : e.quads[index]? = some q) (hpending : q.result.isPending = true) :
    Minted T ⟨g, e.patched index target q⟩ := by
  refine ⟨h.returns, h.typed, fun q' hq' t ht => ?_, fun n hn => ?_⟩
  · obtain ⟨i, hi⟩ := Array.mem_iff_getElem?.mp hq'
    rw [getElem?_patched hfound] at hi
    split at hi
    · obtain rfl := Option.some.inj hi
      refine h.quads q (Array.mem_of_getElem? hfound) t ?_
      simp only [Quad.temps, Operand.temps, List.append_nil, List.mem_append] at ht ⊢
      tauto
    · exact h.quads q' (Array.mem_of_getElem? hi) t ht
  · obtain ⟨q', hq', type, hresult⟩ := h.results n hn
    obtain ⟨i, hi⟩ := Array.mem_iff_getElem?.mp hq'
    refine ⟨q', Array.mem_iff_getElem?.mpr ⟨i, ?_⟩, type, hresult⟩
    rw [getElem?_patched hfound, if_neg, hi]
    rintro rfl
    obtain rfl := Option.some.inj (hfound.symm.trans hi)
    rw [hresult] at hpending
    cases hpending

theorem Minted.edit (h : Minted T d) (haccounts : Accounts lost d) (hedit : Edit T d d') :
    Minted T d' := by
  cases hedit with
  | take stacked =>
    refine h.still h.returns rfl rfl fun t ht => ?_
    simp only [stacked, temporaries_cons, List.mem_append] at ht ⊢
    tauto
  | push plain =>
    refine h.still h.returns rfl rfl fun t ht => ?_
    simpa only [temporaries_cons, plain, List.nil_append] using ht
  | emit sources =>
    refine h.push (Nat.le_refl _) (fun t ht => h.typed t (List.mem_append_right _ ht)) ?_
      fun n hn => .inl hn
    intro t ht
    have hhand := sources ht
    obtain ⟨hpos, hlt⟩ := haccounts.minted hhand
    exact ⟨hpos, hlt, h.typed t (List.mem_append_left _ hhand)⟩
  | @make hand e q type typed result sources =>
    have hrange := haccounts.pool.alloc_range
    have hnext := TempPool.next_le_alloc e.temps
    refine h.push hnext (fun t ht => ?_) (fun t ht => ?_) fun n hn => ?_
    · rw [temporaries_cons, result] at ht
      rcases List.mem_append.mp ht with hnew | hold
      · rw [List.mem_singleton.mp hnew]
        exact typed
      · exact h.typed t (List.mem_append_right _ hold)
    · rw [Quad.temps, ← List.append_assoc] at ht
      rcases List.mem_append.mp ht with hsource | hnew
      · have hhand := sources hsource
        obtain ⟨hpos, hlt⟩ := haccounts.minted hhand
        have hle : (e.temps.next : Int) ≤ e.temps.alloc.2.next := Int.ofNat_le.mpr hnext
        exact ⟨hpos, Int.lt_of_lt_of_le hlt hle, h.typed t (List.mem_append_left _ hhand)⟩
      · rw [result] at hnew
        rw [List.mem_singleton.mp hnew]
        exact ⟨hrange.1, hrange.2, typed⟩
    · -- an id that was not minted before is the one handed out now
      by_cases hold : n < e.temps.next
      · exact .inl hold
      · refine .inr ⟨type, ?_⟩
        rw [result]
        congr 1
        simp only [TempPool.alloc] at hn ⊢
        split at hn
        · exact absurd hn hold
        · rename_i hfree
          rw [hfree]
          have heq : e.temps.next = n := by
            simp only at hn
            omega
          exact congrArg Int.ofNat heq
  | @settle g e operand rest held =>
    refine h.still h.returns rfl (TempPool.next_without operand) fun t ht => ?_
    rcases List.mem_append.mp ht with hhand | hstack
    · exact List.mem_append_left _ (held.mem_iff.mpr (List.mem_append_right _ hhand))
    · exact List.mem_append_right _ hstack
  | patch target found pending => exact h.patch target found pending
  | other operands temps quads returns =>
    refine h.still (returns h.returns) quads (congrArg TempPool.next temps) ?_
    rw [operands]
    exact List.Subset.refl _

theorem Minted.edits (h : Minted T d) (haccounts : Accounts lost d) (hedits : Edits T d d') :
    Minted T d' := by
  induction hedits with
  | refl => exact h
  | tail hedits hedit ih => exact ih.edit (haccounts.edits hedits) hedit

/-- The types that what is computed may have. -/
abbrev Storable (type : DataType) : Prop :=
  type.isStorable = true

/-- What operations leave, those that fail included. -/
theorem Minted.commands (hT : ∀ type, type.isStorable = true → T type) (h : Minted T ⟨{}, e⟩)
    (haccounts : Accounts lost ⟨{}, e⟩) {commands : List Command}
    (hlawful : ∀ command ∈ commands, command.Lawful T) :
    Minted T ⟨{}, commands.foldl after e⟩ := by
  induction commands generalizing e lost with
  | nil => exact h
  | cons command commands ih =>
    obtain ⟨hfirst, hrest⟩ := List.forall_mem_cons.mp hlawful
    obtain ⟨g, hedits⟩ := edits_after hT hfirst h.returns
    obtain ⟨_, hnext⟩ := (haccounts.edits hedits).drop
    have hminted := h.edits haccounts hedits
    exact ih (hminted.still hminted.returns rfl rfl (List.subset_append_right _ _)) hnext hrest

theorem minted_any (commands : List Command) :
    Minted (fun _ => True) ⟨{}, commands.foldl after {}⟩ :=
  Minted.empty.commands (fun _ _ => trivial) Accounts.empty fun command _ => lawful_any command

theorem exportProgram_quads {e : Emitter} {name : String} {program : Program}
    (h : e.exportProgram name = .ok program) : program.quads = e.quads := by
  simp only [exportProgram] at h
  split at h
  · cases h
  split at h
  · cases h
  split at h
  · cases h
  split at h
  · cases h
  · obtain rfl := Except.ok.inj h
    rfl

theorem target?_of_mem_temps {operand : Operand} {t : Int × DataType} (h : t ∈ operand.temps) :
    operand.target? = some (Address.ofTemporary t.2 t.1) := by
  cases operand with
  | temporary id type =>
    rw [List.mem_singleton.mp h]
    rfl
  | _ => cases h

/-- The first temporary that has no slot in the range of its type lies in the range behind it. -/
theorem place?_spill {type : DataType} (h : type.isStorable = true) :
    ∃ place, Address.place? (Address.ofTemporary type Address.rangeSize) = some place ∧
      place.type ≠ type := by
  cases type with
  | int => exact ⟨⟨.temporaries, .float, 0⟩, by decide +kernel, by decide⟩
  | float => exact ⟨⟨.temporaries, .char, 0⟩, by decide +kernel, by decide⟩
  | char => exact ⟨⟨.constants, .int, 0⟩, by decide +kernel, by decide⟩
  | _ => cases h

theorem exists_operand_of_mem_temps {q : Quad} {t : Int × DataType} (h : t ∈ q.temps) :
    ∃ operand ∈ q.operands, t ∈ operand.temps := by
  simpa [Quad.temps, Quad.operands] using h

theorem mem_temps_of_operand {q : Quad} {operand : Operand} (h : operand ∈ q.operands) :
    operand.temps ⊆ q.temps := by
  simp only [Quad.operands, List.mem_cons, List.not_mem_nil, or_false] at h
  intro t ht
  simp only [Quad.temps, List.mem_append]
  rcases h with rfl | rfl | rfl
  · exact .inl ht
  · exact .inr (.inl ht)
  · exact .inr (.inr ht)

/-- Where few enough were minted, a temporary of the code has the slot of its id. -/
theorem Minted.place (h : Minted T ⟨{}, e⟩) (hroom : e.temps.next ≤ Address.rangeSize)
    {q : Quad} (hq : q ∈ e.quads) {t : Int × DataType} (ht : t ∈ q.temps)
    (hstorable : t.2.isStorable = true) :
    Address.place? (Address.ofTemporary t.2 t.1) =
      some { segment := .temporaries, type := t.2, offset := t.1.toNat } := by
  obtain ⟨hpos, hlt, _⟩ := h.quads q hq t ht
  have hminted : e.env.Minted t.1 t.2 := ⟨hpos, hlt, hstorable⟩
  exact Machine.place?_temporary hminted hroom

/-- The temporaries of an exported program lie in the ranges of their types exactly if no more were
minted than a range has slots, all of them for types with storage. -/
theorem Minted.placesTemps_iff (h : Minted T ⟨{}, e⟩) {name : String} {program : Program}
    (hexport : e.exportProgram name = .ok program) :
    program.PlacesTemps ↔ e.temps.highWater ≤ Address.rangeSize ∧
      ∀ q ∈ program.quads, ∀ t ∈ q.temps, t.2.isStorable = true := by
  rw [Program.PlacesTemps, exportProgram_quads hexport]
  constructor
  · intro hplaces
    have hstorable : ∀ q ∈ e.quads, ∀ operand ∈ q.operands, ∀ t ∈ operand.temps,
        t.2.isStorable = true := by
      intro q hq operand hoperand t ht
      obtain ⟨_, _, _, hplace⟩ := hplaces q hq operand hoperand t ht
      exact Address.place?_storable hplace
    refine ⟨?_, fun q hq t ht => ?_⟩
    · -- the id behind the last slot was minted, and its address is in the range of another type
      by_contra hmany
      obtain ⟨q, hq, type, hresult⟩ := h.results Address.rangeSize (Nat.lt_of_not_le hmany)
      have hoperand : q.result ∈ q.operands := by simp [Quad.operands]
      have htemp : (↑Address.rangeSize, type) ∈ q.result.temps := by simp [hresult, Operand.temps]
      obtain ⟨address, offset, haddress, hown⟩ := hplaces q hq _ hoperand _ htemp
      obtain ⟨place, hplace, htype⟩ := place?_spill (hstorable q hq _ hoperand _ htemp)
      rw [hresult] at haddress
      obtain rfl := Option.some.inj haddress
      rw [hplace] at hown
      obtain rfl := Option.some.inj hown
      exact htype rfl
    · obtain ⟨operand, hoperand, ht⟩ := exists_operand_of_mem_temps ht
      exact hstorable q hq operand hoperand t ht
  · rintro ⟨hroom, hstorable⟩ q hq operand hoperand t ht
    have hmem := mem_temps_of_operand hoperand ht
    exact ⟨_, _, target?_of_mem_temps ht, h.place hroom hq hmem (hstorable q hq t hmem)⟩

/-! ### Sums that wait at the same time -/

/-- A sum of two variables, which then waits on the stack. -/
def heldSum : List Command :=
  [.pushVariable "x", .pushVariable "x", .pushOperator "+", .generateAdditive]

/-- A number of sums that wait on the stack at the same time, until all of them are dropped. -/
def heldSums (n : Nat) : List Command :=
  [.initProgram "p", .setType .int, .declareVariable "x"] ++ (List.replicate n heldSum).flatten ++
    List.replicate n .discardResult

/-- An emitter with a number of operands on its stack, nothing open and no literal in its code. -/
structure Idle (n : Nat) (e : Emitter) : Prop where
  operands : e.operands.length = n
  controls : e.controls = []
  calls : e.calls = []
  quads : ∀ q ∈ e.quads, q.result.isPending = false ∧ q.operands.filterMap Operand.literal? = []

theorem run_pushVariable {name : String} {symbol : Symbol}
    (h : e.scope.symbol? name = some symbol) :
    (perform (.pushVariable name)).run e = .ok () { e with
      operands := (.address symbol.address symbol.type, symbol.type) :: e.operands } := by
  show (lift (e.scope.lookupVariable name) >>= fun _ => _ : Emit Unit) e = _
  rw [Scope.lookupVariable, h]
  rfl

theorem performs_heldSum {n : Nat}
    (hx : e.scope.symbol? "x" = some ⟨"x", .int, 1000, .variable⟩) (h : Idle n e) :
    ∃ e', Performs heldSum e e' ∧ e'.scope = e.scope ∧ Idle (n + 1) e' ∧
      e'.stacked.length = e.stacked.length + 1 := by
  let x : Operand := .address 1000 .int
  let q : Quad :=
    { op := .arith .add, left := x, right := x, result := .temporary e.temps.alloc.1 .int }
  let e' : Emitter := { e with
    quads := e.quads.push q
    operands := (q.result, .int) :: e.operands
    temps := e.temps.alloc.2 }
  have hadd : (perform .generateAdditive).run { e with
      operands := (x, .int) :: (x, .int) :: e.operands
      operators := .operator (.arith .add) :: e.operators } = .ok () e' := rfl
  refine ⟨e', ⟨_, run_pushVariable hx, _, run_pushVariable hx, _, rfl, _, hadd, rfl⟩, rfl,
    ⟨congrArg Nat.succ h.operands, h.controls, h.calls, fun q' hq' => ?_⟩, ?_⟩
  · rcases Array.mem_push.mp hq' with hold | rfl
    · exact h.quads q' hold
    · exact ⟨rfl, rfl⟩
  · simp [e', q, stacked, Operand.temps]

theorem performs_heldSums {n k : Nat}
    (hx : e.scope.symbol? "x" = some ⟨"x", .int, 1000, .variable⟩) (h : Idle k e) :
    ∃ e', Performs (List.replicate n heldSum).flatten e e' ∧ Idle (k + n) e' ∧
      e'.stacked.length = e.stacked.length + n := by
  induction n generalizing e k with
  | zero => exact ⟨e, rfl, h, rfl⟩
  | succ n ih =>
    obtain ⟨mid, hfirst, hscope, hmid, hstacked⟩ := performs_heldSum hx h
    obtain ⟨e', hrest, he', hstacked'⟩ := ih (hscope ▸ hx) hmid
    refine ⟨e', hfirst.append hrest, ?_, by omega⟩
    rwa [Nat.add_right_comm, Nat.add_assoc] at he'

theorem run_discardResult {top : Operand × DataType} {rest : List (Operand × DataType)}
    (h : e.operands = top :: rest) : (perform .discardResult).run e =
      .ok () { e with operands := rest, temps := e.temps.without top.1 } := by
  have hensures : Emit.Ensures discardResult e (fun _ => False) fun _ e' =>
      e' = { e with operands := rest, temps := e.temps.without top.1 } := by
    simp [discardResult, h]
  show discardResult.run e = _
  simp only [Emit.Ensures] at hensures
  split at hensures
  · rename_i hrun
    rw [hrun, hensures]
  · exact hensures.elim

theorem performs_discards {n : Nat} (h : Idle n e) :
    ∃ e', Performs (List.replicate n .discardResult) e e' ∧ Idle 0 e' := by
  induction n generalizing e with
  | zero => exact ⟨e, rfl, h⟩
  | succ n ih =>
    obtain ⟨top, rest, hstack⟩ := List.exists_cons_of_length_eq_add_one h.operands
    have hrest : rest.length = n := by
      have hlength := h.operands
      rw [hstack] at hlength
      exact Nat.succ.inj hlength
    obtain ⟨e', hperforms, he'⟩ := ih (e := { e with
      operands := rest, temps := e.temps.without top.1 }) ⟨hrest, h.controls, h.calls, h.quads⟩
    exact ⟨e', ⟨_, run_discardResult hstack, hperforms⟩, he'⟩

theorem Idle.exported (h : Idle 0 e) (name : String) :
    ∃ program, e.exportProgram name = .ok program := by
  have hresolved : e.quads.findIdx? (·.result.isPending) = none :=
    Array.findIdx?_eq_none_iff.mpr fun q hq => (h.quads q hq).1
  have hliterals : literals e.quads.toList = [] :=
    List.flatMap_eq_nil_iff.mpr fun q hq => (h.quads q (Array.mem_toList_iff.mp hq)).2
  have hoperands : e.operands = [] := List.length_eq_zero_iff.mp h.operands
  simp [exportProgram, hoperands, h.controls, h.calls, hresolved, hliterals, ConstantPool.addAll]

theorem heldSums_lawful (n : Nat) : ∀ command ∈ heldSums n, command.Lawful Storable := by
  intro command hmem
  simp only [heldSums, List.mem_append, List.mem_flatten, List.mem_replicate] at hmem
  rcases hmem with (hmem | ⟨commands, ⟨_, rfl⟩, hmem⟩) | ⟨_, rfl⟩
  · simp only [List.mem_cons, List.not_mem_nil, or_false] at hmem
    rcases hmem with rfl | rfl | rfl <;> trivial
  · simp only [heldSum, List.mem_cons, List.not_mem_nil, or_false] at hmem
    rcases hmem with rfl | rfl | rfl | rfl <;> trivial
  · trivial

/-- Sums that wait at the same time take a temporary each. -/
theorem performs_sums (n : Nat) :
    ∃ e, Performs (heldSums n) {} e ∧ Idle 0 e ∧ n ≤ e.temps.next := by
  obtain ⟨e₀, hopen, hx, hidle⟩ : ∃ e₀,
      Performs [.initProgram "p", .setType .int, .declareVariable "x"] {} e₀ ∧
      e₀.scope.symbol? "x" = some ⟨"x", .int, 1000, .variable⟩ ∧ Idle 0 e₀ := by
    refine ⟨_, performs_of_succeed (by decide +kernel), by decide +kernel, rfl, rfl, rfl, ?_⟩
    intro q hq
    cases Array.mem_def.mp hq
  obtain ⟨e₁, hsums, hidle₁, hstacked⟩ := performs_heldSums (n := n) hx hidle
  rw [Nat.zero_add] at hidle₁
  obtain ⟨e₂, hdrops, hidle₂⟩ := performs_discards hidle₁
  refine ⟨e₂, (hopen.append hsums).append hdrops, hidle₂, ?_⟩
  -- the sums are all in use before they are dropped, and what was minted stays so
  have hlive : n ≤ e₁.temps.live := by
    rw [(Accounts.empty.performs (hopen.append hsums)).live_eq]
    omega
  have hnext := Storage.next_le_of_changes (changes_commands (List.replicate n .discardResult) e₁)
  rw [hdrops.foldl] at hnext
  have hminted : e₁.temps.live ≤ e₁.temps.next := Nat.sub_le _ _
  exact Nat.le_trans (Nat.le_trans hlive hminted) hnext

/-! ### Programs -/

/-- Whatever operations an emitter has gone through: the temporaries of the program that it exports
lie in the ranges of their types exactly if no more were minted than a range has slots, all of them
for types with storage; and these are the types unless a function was begun that gives back a value
without storage.  Then different temporaries have different addresses, none of which is that of a
constant. -/
theorem temporaries_placed {commands : List Command} {name : String} {program : Program}
    (hexport : (commands.foldl after {}).exportProgram name = .ok program) :
    (program.PlacesTemps ↔ (commands.foldl after {}).temps.highWater ≤ Address.rangeSize ∧
      ∀ q ∈ program.quads, ∀ t ∈ q.temps, t.2.isStorable = true) ∧
    ((∀ command ∈ commands, command.Lawful Storable) →
      ∀ q ∈ program.quads, ∀ t ∈ q.temps, t.2.isStorable = true) ∧
    (program.PlacesTemps → ∀ q ∈ program.quads, ∀ t ∈ q.temps,
      (∀ q' ∈ program.quads, ∀ t' ∈ q'.temps, t' ≠ t →
        Address.ofTemporary t'.2 t'.1 ≠ Address.ofTemporary t.2 t.1) ∧
      ¬Address.In .constants (Address.ofTemporary t.2 t.1)) := by
  have hminted := minted_any commands
  have hplaced := hminted.placesTemps_iff hexport
  refine ⟨hplaced, fun hlawful => ?_, fun hplaces q hq t ht => ?_⟩
  · have htyped : Minted Storable ⟨{}, commands.foldl after {}⟩ :=
      Minted.empty.commands (fun _ htype => htype) Accounts.empty hlawful
    rw [exportProgram_quads hexport]
    exact fun q hq t ht => (htyped.quads q hq t ht).2.2
  obtain ⟨hroom, hstorable⟩ := hplaced.mp hplaces
  rw [exportProgram_quads hexport] at hq hstorable ⊢
  have hplace := hminted.place hroom hq ht (hstorable q hq t ht)
  refine ⟨fun q' hq' t' ht' hne heq => hne ?_, ?_⟩
  · have hplace' := hminted.place hroom hq' ht' (hstorable q' hq' t' ht')
    rw [heq, hplace] at hplace'
    simp only [Option.some.injEq, Address.Place.mk.injEq, true_and] at hplace'
    have hpos := (hminted.quads q hq t ht).1
    have hpos' := (hminted.quads q' hq' t' ht').1
    exact Prod.ext (by omega) hplace'.1.symm
  · rintro ⟨place, hconstant, hsegment⟩
    rw [hplace] at hconstant
    obtain rfl := Option.some.inj hconstant
    cases hsegment

theorem temporaries_placed_fewSums : ∃ program,
    ((heldSums 2).foldl after {}).exportProgram "p" = .ok program ∧ program.quads.size = 2 ∧
      program.PlacesTemps := by
  obtain ⟨e, hperforms, hidle, _⟩ := performs_sums 2
  obtain ⟨program, hexport⟩ := hidle.exported "p"
  rw [← hperforms.foldl] at hexport
  obtain ⟨hplaced, htyped, _⟩ := temporaries_placed hexport
  refine ⟨program, hexport, ?_, hplaced.mpr ⟨by decide +kernel, htyped (heldSums_lawful 2)⟩⟩
  rw [exportProgram_quads hexport]
  decide +kernel

/-- One sum more than a range has slots, and a temporary of the exported program lies in the range
of another type. -/
theorem heldSums_spill :
    (∀ command ∈ heldSums (Address.rangeSize + 1), command.Lawful Storable) ∧ ∃ program,
      ((heldSums (Address.rangeSize + 1)).foldl after {}).exportProgram "p" = .ok program ∧
        ¬program.PlacesTemps := by
  obtain ⟨e, hperforms, hidle, hmany⟩ := performs_sums (Address.rangeSize + 1)
  obtain ⟨program, hexport⟩ := hidle.exported "p"
  rw [hperforms.foldl]
  refine ⟨heldSums_lawful _, program, hexport, fun hplaces => ?_⟩
  have hminted := minted_any (heldSums (Address.rangeSize + 1))
  rw [hperforms.foldl] at hminted
  have hroom : e.temps.next ≤ Address.rangeSize :=
    ((hminted.placesTemps_iff hexport).mp hplaces).1
  omega

end Emitter

end DuckLang
