import DuckLang.Proofs.Emitter.Custody

/-! Temporaries in use are told apart.  At every moment the ids in use are those on the operand
stack, those in the hand of the operation under way and those lost by operations that failed, all
different.  Only a failure loses an id, so as long as nothing fails the ids in use are those on the
stack. -/

namespace DuckLang

namespace Emitter

@[simp] theorem temporaries_cons (o : Operand × DataType) (rest : List (Operand × DataType)) :
    temporaries (o :: rest) = o.1.temps ++ temporaries rest := by
  obtain ⟨operand, type⟩ := o
  cases operand <;> rfl

/-- The ids of the temporaries on the operand stack. -/
def stacked (e : Emitter) : List Int :=
  (temporaries e.operands).map (·.1)

/-- The ids of the temporaries in hand and on the stack. -/
def Desk.held (d : Desk) : List Int :=
  d.grip.hand.map (·.1) ++ d.emitter.stacked

/-- The ids in use are those held and those lost, all different. -/
structure Accounts (lost : List Int) (d : Desk) : Prop where
  pool : d.emitter.temps.Orderly
  distinct : (d.held ++ lost).Nodup
  live : ∀ id, d.emitter.temps.IsLive id ↔ id ∈ d.held ++ lost

variable {T : DataType → Prop} {lost lost' : List Int} {d d' : Desk} {g : Grip} {e : Emitter}

theorem Accounts.empty : Accounts [] ⟨{}, {}⟩ := by
  refine ⟨.empty, List.nodup_nil, fun id => ?_⟩
  simp only [TempPool.IsLive, Desk.held, stacked, temporaries, List.filterMap_nil, List.map_nil,
    List.append_nil, List.not_mem_nil, iff_false]
  omega

/-- Ids that only change hands. -/
theorem Accounts.perm (h : Accounts lost d) (htemps : d'.emitter.temps = d.emitter.temps)
    (hperm : (d'.held ++ lost').Perm (d.held ++ lost)) : Accounts lost' d' := by
  refine ⟨?_, hperm.nodup_iff.mpr h.distinct, fun id => ?_⟩
  · rw [htemps]
    exact h.pool
  · rw [htemps, h.live, hperm.mem_iff]

/-- What an operation that fails has in hand is lost. -/
theorem Accounts.drop (h : Accounts lost ⟨g, e⟩) : ∃ lost', Accounts lost' ⟨{}, e⟩ := by
  refine ⟨g.hand.map (·.1) ++ lost, h.perm rfl ?_⟩
  simp only [Desk.held, List.map_nil, List.nil_append, List.append_assoc]
  exact List.perm_append_comm_assoc _ _ _

theorem Accounts.edit (h : Accounts lost d) (hedit : Edit T d d') : Accounts lost d' := by
  cases hedit with
  | take stacked =>
    refine h.perm rfl (List.Perm.append_right _ ?_)
    simp only [Desk.held, Emitter.stacked, stacked, temporaries_cons, List.map_append,
      List.append_assoc]
    exact List.perm_append_comm_assoc _ _ _
  | push plain =>
    refine h.perm rfl (List.Perm.append_right _ ?_)
    simp [Desk.held, stacked, plain]
  | emit => exact h.perm rfl (.refl _)
  | patch => exact h.perm rfl (.refl _)
  | other operands temps =>
    refine h.perm temps (List.Perm.append_right _ ?_)
    simp [Desk.held, stacked, operands]
  | @make hand e q type _ result _ =>
    have hperm : (Desk.held ⟨{ hand }, { e with
        temps := e.temps.alloc.2
        quads := e.quads.push q
        operands := (q.result, type) :: e.operands }⟩ ++ lost).Perm
        (e.temps.alloc.1 :: (Desk.held ⟨{ hand }, e⟩ ++ lost)) := by
      simp only [Desk.held, stacked, result, temporaries_cons, Operand.temps, List.cons_append,
        List.nil_append, List.map_cons, List.append_assoc]
      exact List.perm_middle
    -- the pool hands out what is not in use, and all that is held or lost is in use
    have hfresh : e.temps.alloc.1 ∉ Desk.held ⟨{ hand }, e⟩ ++ lost :=
      fun hmem => TempPool.not_isLive_alloc ((h.live _).mpr hmem)
    refine ⟨h.pool.alloc, hperm.nodup_iff.mpr (List.nodup_cons.mpr ⟨hfresh, h.distinct⟩), ?_⟩
    intro id
    rw [hperm.mem_iff, List.mem_cons, ← h.live]
    exact h.pool.isLive_alloc
  | @settle g e operand rest held =>
    have hperm : (Desk.held ⟨g, e⟩ ++ lost).Perm (operand.temps.map (·.1) ++
        (Desk.held ⟨{ hand := rest, settling := true },
          { e with temps := e.temps.without operand }⟩ ++ lost)) := by
      simp only [Desk.held, ← List.append_assoc, ← List.map_append]
      exact ((held.map _).append_right _).append_right _
    cases operand with
    | temporary id type =>
      -- the ids are different, so once this one is given back nothing else holds it
      obtain ⟨hgone, hdistinct⟩ := List.nodup_cons.mp (hperm.nodup_iff.mp h.distinct)
      refine ⟨h.pool.release id, hdistinct, fun x => ?_⟩
      show (e.temps.release id).IsLive x ↔ _
      rw [TempPool.isLive_release, h.live, hperm.mem_iff]
      simp only [Operand.temps, List.map_cons, List.map_nil, List.cons_append, List.nil_append,
        List.mem_cons]
      constructor
      · rintro ⟨rfl | hmem, hne⟩
        · exact absurd rfl hne
        · exact hmem
      · intro hmem
        refine ⟨.inr hmem, ?_⟩
        rintro rfl
        exact hgone hmem
    | _ => exact h.perm rfl hperm.symm

theorem Accounts.edits (h : Accounts lost d) (hedits : Edits T d d') : Accounts lost d' := by
  induction hedits with
  | refl => exact h
  | tail _ hedit ih => exact ih.edit hedit

/-- What an operation has done since it began: what was on the stack then is still held until it
begins to take back, and what it has made was not on the stack then. -/
structure Since (start : Emitter) (d : Desk) : Prop where
  grown : start.quads.size ≤ d.emitter.quads.size
  kept : d.grip.settling = false → start.stacked ⊆ d.held
  fresh : ∀ i q, start.quads.size ≤ i → d.emitter.quads[i]? = some q →
    ∀ t ∈ q.made, t.1 ∉ start.stacked

variable {start : Emitter}

theorem Since.refl (e : Emitter) : Since e ⟨{}, e⟩ where
  grown := Nat.le_refl _
  kept _ := by simp [Desk.held]
  fresh i q hi hq := by
    have hlt : i < e.quads.size := (Array.getElem?_eq_some_iff.mp hq).1
    omega

theorem Since.push (h : Since start d) {q : Quad}
    (hquads : d'.emitter.quads = d.emitter.quads.push q)
    (hkept : d'.grip.settling = false → start.stacked ⊆ d'.held)
    (hfresh : ∀ t ∈ q.made, t.1 ∉ start.stacked) : Since start d' where
  grown := by
    rw [hquads, Array.size_push]
    exact Nat.le_succ_of_le h.grown
  kept := hkept
  fresh i q' hi hq' := by
    rw [hquads, Array.getElem?_push] at hq'
    split at hq'
    · obtain rfl := Option.some.inj hq'
      exact hfresh
    · exact h.fresh i q' hi hq'

theorem Since.still (h : Since start d) (hquads : d'.emitter.quads = d.emitter.quads)
    (hkept : d'.grip.settling = false → start.stacked ⊆ d'.held) : Since start d' where
  grown := by
    rw [hquads]
    exact h.grown
  kept := hkept
  fresh := by
    rw [hquads]
    exact h.fresh

theorem Since.edit (h : Since start d) (haccounts : Accounts lost d) (hedit : Edit T d d') :
    Since start d' := by
  cases hedit with
  | take stacked =>
    refine h.still rfl fun hsettling id hid => ?_
    have hheld := h.kept hsettling hid
    simp only [Desk.held, Emitter.stacked, stacked, temporaries_cons, List.map_append,
      List.mem_append] at hheld ⊢
    tauto
  | push =>
    refine h.still rfl fun hsettling id hid => ?_
    have hheld := h.kept hsettling hid
    simp only [Desk.held, stacked, temporaries_cons, List.map_append, List.mem_append] at hheld ⊢
    tauto
  | emit _ made => exact h.push rfl h.kept (by simp [made])
  | settle => exact h.still rfl (by simp)
  | other operands _ quads =>
    refine h.still quads fun hsettling id hid => ?_
    have hheld := h.kept hsettling hid
    simpa only [Desk.held, stacked, operands] using hheld
  | @make hand e q type _ result _ =>
    refine h.push rfl (fun hsettling id hid => ?_) fun t ht => ?_
    · have hheld := h.kept hsettling hid
      simp only [Desk.held, stacked, temporaries_cons, List.map_append, List.mem_append] at hheld ⊢
      tauto
    · -- what is handed out was not in use, and all that was on the stack still is
      have hid : t.1 = e.temps.alloc.1 := by
        simp only [Quad.made, result, Operand.temps] at ht
        split at ht
        · rw [List.mem_singleton.mp ht]
        · cases ht
      intro hstacked
      have hheld := h.kept rfl hstacked
      rw [hid] at hheld
      exact TempPool.not_isLive_alloc ((haccounts.live _).mpr (List.mem_append_left _ hheld))
  | @patch g e index q target found pending =>
    refine ⟨?_, h.kept, fun i q' hi hq' t ht => ?_⟩
    · simpa [patched] using h.grown
    · rw [getElem?_patched found] at hq'
      split at hq'
      · obtain rfl := Option.some.inj hq'
        simp [Quad.made, Operand.temps] at ht
      · exact h.fresh i q' hi hq' t ht

theorem Since.edits (h : Since start d) (haccounts : Accounts lost d) (hedits : Edits T d d') :
    Since start d' := by
  induction hedits with
  | refl => exact h
  | tail hedits hedit ih => exact ih.edit (haccounts.edits hedits) hedit

/-! ### Sequences of operations -/

/-- Operations that take an emitter to another one, none of which fails. -/
def Performs : List Command → Emitter → Emitter → Prop
  | [], e, e' => e' = e
  | command :: commands, e, e' =>
    ∃ mid, (perform command).run e = .ok () mid ∧ Performs commands mid e'

/-- Whether operations succeed one after the other. -/
def succeed : List Command → Emitter → Bool
  | [], _ => true
  | command :: commands, e =>
    match (perform command).run e with
    | .ok _ mid => succeed commands mid
    | .error _ _ => false

theorem performs_of_succeed {commands : List Command} {e : Emitter}
    (h : succeed commands e = true) : Performs commands e (commands.foldl after e) := by
  induction commands generalizing e with
  | nil => rfl
  | cons command commands ih =>
    simp only [succeed] at h
    cases hrun : (perform command).run e with
    | ok a mid =>
      rw [hrun] at h
      refine ⟨mid, hrun, ?_⟩
      rw [List.foldl_cons, after, hrun]
      exact ih h
    | error cause mid =>
      rw [hrun] at h
      cases h

theorem Performs.foldl {commands : List Command} {e e' : Emitter} (h : Performs commands e e') :
    commands.foldl after e = e' := by
  induction commands generalizing e with
  | nil => exact h.symm
  | cons command commands ih =>
    obtain ⟨mid, hrun, hrest⟩ := h
    rw [List.foldl_cons, after, hrun]
    exact ih hrest

theorem Performs.append {commands commands' : List Command} {e e' e'' : Emitter}
    (h : Performs commands e e') (h' : Performs commands' e' e'') :
    Performs (commands ++ commands') e e'' := by
  induction commands generalizing e with
  | nil =>
    obtain rfl := h
    exact h'
  | cons command commands ih =>
    obtain ⟨mid, hrun, hrest⟩ := h
    exact ⟨mid, hrun, ih hrest⟩

theorem Accounts.open (h : Accounts lost ⟨{ settling := true }, e⟩) : Accounts lost ⟨{}, e⟩ :=
  h.perm rfl (.refl _)

theorem returns_any (s : Scope) : s.Returns fun _ => True :=
  fun _ _ => .inr trivial

theorem lawful_any (command : Command) : command.Lawful fun _ => True := by
  cases command <;> simp [Command.Lawful]

theorem Accounts.after (h : Accounts lost ⟨{}, e⟩) (command : Command) :
    ∃ lost', Accounts lost' ⟨{}, after e command⟩ := by
  obtain ⟨g, hedits⟩ := edits_after (fun _ _ => trivial) (lawful_any command) (returns_any e.scope)
  exact (h.edits hedits).drop

theorem Accounts.commands (h : Accounts lost ⟨{}, e⟩) (commands : List Command) :
    ∃ lost', Accounts lost' ⟨{}, commands.foldl Emitter.after e⟩ := by
  induction commands generalizing e lost with
  | nil => exact ⟨lost, h⟩
  | cons command commands ih =>
    obtain ⟨_, hnext⟩ := h.after command
    exact ih hnext

/-- Where nothing fails nothing is lost. -/
theorem Accounts.performs (h : Accounts lost ⟨{}, e⟩) {commands : List Command} {e' : Emitter}
    (hperforms : Performs commands e e') : Accounts lost ⟨{}, e'⟩ := by
  induction commands generalizing e with
  | nil =>
    obtain rfl := hperforms
    exact h
  | cons command commands ih =>
    obtain ⟨mid, hrun, hrest⟩ := hperforms
    have hedits :=
      edits_perform (fun _ _ => trivial) (lawful_any command) (returns_any e.scope) hrun
    exact ih (h.edits hedits).open hrest

/-- As long as nothing is lost, the ids in use are those on the stack. -/
theorem Accounts.live_eq (h : Accounts [] ⟨{}, e⟩) : e.temps.live = e.stacked.length := by
  refine h.pool.live_eq ?_ fun id => ?_
  · simpa [Desk.held] using h.distinct
  · simpa [Desk.held] using h.live id

end Emitter

end DuckLang
