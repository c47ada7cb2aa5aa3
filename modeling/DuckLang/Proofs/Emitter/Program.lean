import DuckLang.Proofs.Emitter.Function

/-! Whole programs.  The header makes a valid draft without code; behind the main body nothing is
left open, so a program can be exported as long as its constants have room. -/

namespace DuckLang

open Emitter

namespace Draft

variable {γ : Draft}

/-- A draft of which nothing is there yet. -/
def blank : Draft :=
  { emitter := {}, past := [] }

theorem blank_initProgram {name : String} (hempty : name ≠ "") (hmain : name ≠ mainName) :
    Takes (changeScope (·.initProgram name)) blank fun _ γ' => γ'.Valid ∧ Global γ'.emitter := by
  simp only [Takes, ensures_changeScope, Scope.initProgram, blank, ne_eq, not_true_eq_false,
    if_false]
  have hentry : ∀ other, Scope.entryOf?
      { program := name, entries := Scope.putEntry { name, isProgram := true } [],
        current := name } other =
      if other = name then some { name, isProgram := true } else none := by
    intro other
    by_cases hother : other = name
    · simp [Scope.entryOf?, Scope.putEntry, hother]
    · simp [Scope.entryOf?, Scope.putEntry, hother, Ne.symm hother]
  refine ⟨⟨_, []⟩, rfl, ⟨?_, ?_, ?_, ?_, ?_, .nil _ _, ?_⟩, ?_⟩
  · refine ⟨hempty, ?_, ?_, rfl, by simp, ?_, ?_, ?_, by simp⟩
    · rw [hentry, if_pos rfl]
      rfl
    · rw [hentry, if_neg (Ne.symm hmain)]
    · intro other entry hfound
      rw [hentry] at hfound
      split at hfound
      · obtain rfl := Option.some.inj hfound
        exact ⟨by simp, by simp, by simp, .inl rfl⟩
      · cases hfound
    · intro other entry hfound hne
      rw [hentry] at hfound
      split at hfound
      · rename_i hother
        exact absurd hother hne
      · cases hfound
    · intro info hinfo
      cases hinfo
  · refine ⟨rfl, by simp, by simp, ?_⟩
    intro P hP c hc
    rw [List.mem_singleton.mp hP] at hc
    cases hc
  · simp [TempPool.Sound]
  · simp
  · refine ⟨by simp [Emitter.owed, leading], fun i => ?_⟩
    simp [Emitter.owed, leading, Waits]
  · simp [leading]
  · refine ⟨⟨rfl, rfl, rfl, by simp⟩, rfl, rfl, rfl, ⟨by simp, by simp⟩, ?_⟩
    intro other info hcallable hinfo
    cases hinfo

theorem Valid.finish (h : γ.Valid) : Takes finish γ fun _ γ' => Does γ γ' γ.allStacks := by
  obtain ⟨e, past⟩ := γ
  refine ⟨⟨_, past ++ [e.point]⟩, rfl, ?_, ⟨rfl, rfl, rfl, rfl⟩, rfl⟩
  exact Emitter.Valid.emitPlain h rfl ⟨rfl, rfl⟩ ⟨rfl, rfl, rfl, rfl⟩ (Nat.le_refl _)
    (Nat.le_refl _) h.pool h.held h.callable ⟨rfl, rfl, List.Subset.refl _, rfl⟩ rfl rfl

end Draft

/-- Literals have storage. -/
theorem Emitter.literals_storable {quads : List Quad} {v : Value} (h : v ∈ literals quads) :
    v.type.isStorable = true := by
  obtain ⟨q, _, hv⟩ := List.mem_flatMap.mp h
  obtain ⟨operand, _, hliteral⟩ := List.mem_filterMap.mp hv
  cases operand <;> simp only [Operand.literal?, reduceCtorEq, Option.some.injEq] at hliteral
  all_goals
    subst hliteral
    rfl

/-- Constants that have storage run out of room at worst. -/
theorem ConstantPool.addAll_error {vs : List Value} (h : ∀ v ∈ vs, v.type.isStorable = true)
    {pool : ConstantPool} {a : Allocator} {cause : Cause} {left : ConstantPool × Allocator}
    (herror : pool.addAll a vs = .error cause left) :
    ∃ type, cause = .outOfMemory .constants type := by
  induction vs generalizing pool a with
  | nil => cases herror
  | cons v vs ih =>
    obtain ⟨hv, hvs⟩ := List.forall_mem_cons.mp h
    simp only [addAll] at herror
    split at herror
    · exact ih hvs herror
    · rename_i haddress
      obtain ⟨rfl, rfl⟩ := EStateM.Result.error.inj herror
      simp only [address] at haddress
      split at haddress
      · cases haddress
      · split at haddress
        · cases haddress
        · rename_i halloc
          obtain ⟨rfl, _⟩ := EStateM.Result.error.inj haddress
          rcases (Allocator.alloc_error halloc).2 with ⟨_, hnot⟩ | rfl
          · rw [hv] at hnot
            cases hnot
          · exact ⟨_, rfl⟩

namespace Emitter

variable {e : Emitter} {past : List Point}

/-- Nothing waits behind the main body. -/
theorem Valid.resolved (h : Valid e past) (hmain : InMain e) {i : Nat} {q : Quad}
    (hq : e.quads[i]? = some q) : q.result.isPending = false := by
  have howed : e.owed = [] := by simp [Emitter.owed, leading, hmain.marked, hmain.controls]
  by_contra hpending
  have hwaits : Waits e.quads i := ⟨q, hq, by simpa using hpending⟩
  rw [← h.owed.waits, howed] at hwaits
  cases hwaits

/-- Behind the main body only the constants can keep a program from being exported. -/
theorem Valid.export_cases (h : Valid e past) (hmain : InMain e) (name : String) :
    (∃ type, e.exportProgram name = .error (.outOfMemory .constants type)) ∨
      ∃ pool, e.exportProgram name = .ok {
        name, quads := e.quads, functions := e.functions, constants := ConstantPool.entries pool,
        strings := e.strings, globals := .ofCounts e.allocator.globals } := by
  have hresolved : e.quads.findIdx? (·.result.isPending) = none := by
    rw [Array.findIdx?_eq_none_iff]
    intro q hq
    obtain ⟨i, hi⟩ := Array.mem_iff_getElem?.mp hq
    simpa using h.resolved hmain hi
  have hfunctions : e.exportedFunctions = e.functions := by
    obtain ⟨info, hinfo⟩ := Option.isSome_iff_exists.mp hmain.marked
    simp only [exportedFunctions, hinfo]
  simp only [exportProgram, hmain.rest.operands, hmain.controls, hmain.rest.calls, hresolved,
    hfunctions]
  cases hpool : ConstantPool.addAll {} e.allocator (literals e.quads.toList) with
  | ok _ left => exact .inr ⟨left.1, rfl⟩
  | error cause left =>
    obtain ⟨type, rfl⟩ := ConstantPool.addAll_error (fun v hv => literals_storable hv) hpool
    exact .inl ⟨type, rfl⟩

end Emitter

end DuckLang
