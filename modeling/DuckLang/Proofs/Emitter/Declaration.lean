import DuckLang.Proofs.Emitter.Causes
import DuckLang.Proofs.Emitter.Draft

/-! Declarations.  A declaration puts a name into the entry of the current scope and emits nothing;
what the code refers to is declared as before. -/

namespace DuckLang

open Emitter

namespace Scope

variable {s s' : Scope} {entry : Entry} {symbol : Symbol}

theorem putEntry_putEntry {e e' : Entry} (h : e.name = e'.name) (entries : List Entry) :
    putEntry e' (putEntry e entries) = putEntry e' entries := by
  induction entries with
  | nil => simp [putEntry, h]
  | cons x xs ih =>
    simp only [putEntry, h]
    by_cases hx : x.name = e'.name
    · simp [putEntry, h, hx]
    · simp [putEntry, hx, ih]

theorem beginFunction_ok {name : String} {returns : DataType}
    (h : s.beginFunction name returns = .ok () s') :
    s.program ≠ "" ∧ name ≠ s.program ∧ s.entryOf? name = none ∧
      s' = { s with entries := s.entries ++ [{ name, returns }], current := name } := by
  simp only [beginFunction] at h
  split at h
  · cases h
  rename_i hnamed
  split at h
  · cases h
  rename_i hprogram
  split at h
  · cases h
  rename_i hfree
  exact ⟨hnamed, hprogram, by simpa using hfree, (EStateM.Result.ok.inj h).2.symm⟩

/-- The current entry is the one with its name. -/
theorem entryOf?_current (h : s.currentScope? = some entry) :
    s.entryOf? entry.name = some entry := by
  rw [entryOf?_name h]
  exact h

theorem initProgram_ok {name : String} (h : s.initProgram name = .ok () s') :
    s.program = "" ∧ s' = { s with
      program := name
      entries := putEntry { name, isProgram := true } s.entries
      current := name } := by
  simp only [initProgram] at h
  split at h
  · cases h
  rename_i hnamed
  exact ⟨by simpa using hnamed, (EStateM.Result.ok.inj h).2.symm⟩

theorem define_ok (h : s.define symbol = .ok () s') :
    ∃ entry, s.currentScope? = some entry ∧
      s' = s.put { entry with symbols := entry.symbols ++ [symbol] } := by
  simp only [define] at h
  split at h
  · cases h
  rename_i entry hentry
  split at h
  · cases h
  exact ⟨entry, hentry, (EStateM.Result.ok.inj h).2.symm⟩

theorem addVariable_ok {name : String} {address : Int}
    (h : s.addVariable name address = .ok () s') :
    ∃ type entry, s.declaring = some type ∧ s.currentScope? = some entry ∧
      s' = s.put { entry with symbols := entry.symbols ++ [⟨name, type, address, .variable⟩] } := by
  simp only [addVariable] at h
  split at h
  · cases h
  rename_i type htype
  obtain ⟨entry, hentry, rfl⟩ := define_ok h
  exact ⟨type, entry, htype, hentry, rfl⟩

/-- A parameter is a name that is listed besides. -/
theorem addParameter_ok {name : String} {type : DataType} {address : Int}
    (h : s.addParameter name type address = .ok () s') :
    s.inGlobal = false ∧ ∃ entry, s.currentScope? = some entry ∧ s' = s.put { entry with
      symbols := entry.symbols ++ [⟨name, type, address, .parameter⟩]
      params := entry.params ++ [⟨name, type, address, .parameter⟩] } := by
  simp only [addParameter] at h
  split at h
  · cases h
  rename_i hlocal
  split at h
  · rename_i hdefine
    obtain ⟨entry, hentry, rfl⟩ := define_ok hdefine
    obtain ⟨_, rfl⟩ := EStateM.Result.ok.inj h
    refine ⟨by simpa using hlocal, entry, hentry, ?_⟩
    have hname : s.current = entry.name := (entryOf?_name hentry).symm
    let entry' : Entry :=
      { entry with symbols := entry.symbols ++ [⟨name, type, address, .parameter⟩] }
    have hcurrent : Scope.currentScope? (s.put entry') = some entry' := by
      rw [currentScope?, entryOf?_put]
      exact if_pos hname
    change Scope.listParameter (s.put entry') _ = _
    rw [listParameter, hcurrent]
    simp only [put, entry', Scope.mk.injEq, true_and, and_true]
    rw [putEntry_putEntry]
    rfl
  · cases h

end Scope

namespace Emitter

variable {s : Scope} {d : Directory} {opened : Option Body} {points : List Point}

/-- There is a scope for declarations to go to. -/
theorem Names.currentEntry (h : Names s d opened points) :
    ∃ entry, s.currentScope? = some entry := by
  rw [← Option.isSome_iff_exists, Scope.currentScope?, h.current]
  cases opened with
  | none => exact h.home
  | some b => exact (h.body b rfl).2.2.1

/-- The names with one declared in the current scope. -/
theorem Names.define (h : Names s d opened points) {entry : Scope.Entry} {symbol : Symbol}
    (hentry : s.currentScope? = some entry) (horigin : symbol.origin = .variable)
    (hplace : Address.In (s.segmentOf s.current) symbol.address) :
    Names (s.put { entry with symbols := entry.symbols ++ [symbol] }) d opened points := by
  have hname : entry.name = s.current := Scope.entryOf?_name hentry
  have hsound := h.entries hentry
  refine h.put (by rw [hname]; exact hentry) ⟨?_, ?_, ?_, hsound.returns⟩ ?_ (fun _ _ => rfl) rfl
    (fun b hb => ⟨(h.body b hb).1, (h.body b hb).2.1⟩)
  · intro symbol' hsymbol'
    rcases List.mem_append.mp hsymbol' with hold | hnew
    · rw [hname]
      exact hsound.placed symbol' hold
    · rw [List.mem_singleton.mp hnew, hname]
      exact hplace
  · intro symbol' hsymbol' hparameter
    rcases List.mem_append.mp hsymbol' with hold | hnew
    · exact hsound.listed symbol' hold hparameter
    · rw [List.mem_singleton.mp hnew, horigin] at hparameter
      cases hparameter
  · intro symbol' hsymbol'
    exact List.mem_append_left _ (hsound.declared symbol' hsymbol')
  · intro hne
    obtain ⟨info, hinfo, hdescribes⟩ := h.functions (by rw [hname]; exact hentry) hne
    exact ⟨info, hinfo, { hdescribes with }⟩

/-- The names with a parameter more of the function being read. -/
theorem Names.addParameter {b : Body} (h : Names s d (some b) points) {entry : Scope.Entry}
    (hentry : s.currentScope? = some entry) {symbol : Symbol}
    (hplace : Address.In .locals symbol.address) {info : FunctionInfo}
    (hinfo : info = b.info.addParam { type := symbol.type, address := symbol.address }) :
    Names (s.put { entry with
        symbols := entry.symbols ++ [symbol], params := entry.params ++ [symbol] })
      (d.set b.info.name info) (some { b with info }) points := by
  obtain ⟨hlisted, hget, _, hprogram⟩ := h.body b rfl
  have hcurrent : s.current = b.info.name := h.current
  have hname : entry.name = b.info.name := (Scope.entryOf?_name hentry).trans hcurrent
  have hfound : s.entryOf? b.info.name = some entry := by rw [← hcurrent]; exact hentry
  have hsound := h.entries hfound
  have hsegment : s.segmentOf b.info.name = .locals := if_neg hprogram
  rw [hsegment] at hsound
  have hinfoName : info.name = b.info.name := by simp [hinfo]
  refine h.put (by rw [hname]; exact hfound) ⟨?_, ?_, ?_, hsound.returns⟩ ?_ ?_ ?_ ?_
  · rw [hname, hsegment]
    intro symbol' hsymbol'
    rcases List.mem_append.mp hsymbol' with hold | hnew
    · exact hsound.placed symbol' hold
    · rw [List.mem_singleton.mp hnew]
      exact hplace
  · intro symbol' hsymbol' hparameter
    rcases List.mem_append.mp hsymbol' with hold | hnew
    · exact List.mem_append_left _ (hsound.listed symbol' hold hparameter)
    · exact List.mem_append_right _ hnew
  · intro symbol' hsymbol'
    rcases List.mem_append.mp hsymbol' with hold | hnew
    · exact List.mem_append_left _ (hsound.declared symbol' hold)
    · exact List.mem_append_right _ hnew
  · intro _
    obtain ⟨info', hinfo', hdescribes⟩ := h.functions hfound hprogram
    obtain rfl : b.info = info' := Option.some.inj (hget.symm.trans hinfo')
    refine ⟨info, by rw [hname, Directory.get?_set, if_pos rfl], ?_⟩
    subst hinfo
    exact { hdescribes with
      params := by simp [hdescribes.params]
      count := by simp [hdescribes.count] }
  · intro other hother
    rw [Directory.get?_set, if_neg]
    rw [← hname]
    exact hother
  · simp [hinfoName]
  · intro b' hb'
    obtain rfl := Option.some.inj hb'
    exact ⟨hlisted, by rw [hinfoName, Directory.get?_set, if_pos rfl]⟩

variable {e : Emitter} {past : List Point}

/-- An emitter that knows more names of the same code. -/
theorem Valid.rename (h : Valid e past) {scope : Scope} {functions : Directory}
    {body : Option Body} (allocator : Allocator)
    (hcontext : (body.map (·.info.name)).getD mainName = e.context)
    (hmain : functions.get? mainName = e.functions.get? mainName)
    (hnames : Names scope functions body (past ++ [e.point]))
    (hextends : scope.Extends e.scope)
    (hparams : ∀ P ∈ past ++ [e.point], ∀ c ∈ P.calls, scope.SameParams e.scope c.function) :
    Valid { e with scope, functions, body, allocator } past := by
  have hpoint : point { e with scope, functions, body, allocator } = e.point := by
    simp only [point, context, hcontext]
  refine ⟨?_, ?_, h.pool, ?_, ?_, ?_, ?_⟩
  · rw [hpoint]
    exact hnames
  · rw [hpoint]
    exact h.laid.extend ⟨hextends, Nat.le_refl _, Nat.le_refl _⟩ hparams
  · intro o ho
    obtain ⟨htype, hheld⟩ := h.held o ho
    simp only [context, hcontext]
    refine ⟨htype, ?_⟩
    obtain ⟨operand, type⟩ := o
    cases operand with
    | address location t => exact Scope.Visible.mono hheld hextends
    | _ => exact hheld
  · have howed := h.owed
    simp only [Emitter.owed, leading, hmain] at howed ⊢
    exact howed
  · rw [hpoint]
    simp only [context, hcontext]
    exact h.owners
  · rw [hpoint]
    have hleads := h.leads
    simp only [leading, hmain] at hleads ⊢
    exact hleads

end Emitter

namespace Draft

variable {γ γ' γ'' : Draft}

/-- A draft with more names of variables. -/
structure Declares (γ γ' : Draft) : Prop where
  valid : γ'.Valid
  allStacks : γ'.allStacks = γ.allStacks
  quads : γ'.emitter.quads = γ.emitter.quads
  functions : γ'.emitter.functions = γ.emitter.functions
  body : γ'.emitter.body = γ.emitter.body
  callable : ∀ {name : String}, γ'.emitter.scope.Callable name → γ.emitter.scope.Callable name

theorem Valid.declares (h : γ.Valid) : Declares γ γ :=
  ⟨h, rfl, rfl, rfl, rfl, fun hcallable => hcallable⟩

theorem Declares.trans (h : Declares γ γ') (h' : Declares γ' γ'') : Declares γ γ'' :=
  ⟨h'.valid, h'.allStacks.trans h.allStacks, h'.quads.trans h.quads, h'.functions.trans h.functions,
    h'.body.trans h.body, fun hcallable => h.callable (h'.callable hcallable)⟩

theorem Valid.setType (h : γ.Valid) {type : DataType} (htype : type.isStorable = true) :
    Takes (changeScope fun s => .ok () (s.setType type)) γ fun _ γ' =>
      Declares γ γ' ∧ γ'.emitter.scope.declaring.isSome := by
  simp only [Takes, ensures_changeScope]
  refine ⟨⟨_, γ.past⟩, rfl, ⟨?_, rfl, rfl, rfl, rfl, fun hcallable => hcallable⟩, rfl⟩
  refine Emitter.Valid.rename h γ.emitter.allocator rfl rfl (h.names.setType htype) ?_ ?_
  · exact ⟨rfl, fun hentry => ⟨_, hentry, List.Subset.refl _, rfl⟩⟩
  · intro P hP c hc entry entry' hentry hentry'
    rw [Option.some.inj (hentry.symm.trans hentry')]

/-- A variable of the type set last. -/
theorem Valid.declareVariable (h : γ.Valid) (hdeclaring : γ.emitter.scope.declaring.isSome)
    (name : String) :
    Takes (declareVariable name) γ fun _ γ' =>
      Declares γ γ' ∧ γ'.emitter.scope.declaring.isSome := by
  obtain ⟨e, past⟩ := γ
  obtain ⟨type, htype⟩ := Option.isSome_iff_exists.mp hdeclaring
  dsimp only at htype
  obtain ⟨entry, hentry⟩ := h.names.currentEntry
  dsimp only at hentry
  have hdeclared : e.scope.declaredType = type := by simp [Scope.declaredType, htype]
  have hstorable := h.names.declaring type htype
  simp only [Takes, Emitter.declareVariable, ensures_bind, ensures_get, ensures_allocate, hdeclared]
  split
  · rename_i address allocator halloc
    simp only [ensures_changeScope, Scope.addVariable, htype]
    split
    · rename_i scope hdefine
      obtain ⟨_, hfound, rfl⟩ := Scope.define_ok hdefine
      obtain rfl := Option.some.inj (hentry.symm.trans hfound)
      have hplace : Address.In (e.scope.segmentOf e.scope.current) address := by
        have hin := Allocator.alloc_in halloc
        simp only [Scope.inGlobal, decide_eq_true_eq] at hin
        exact hin
      have hfound := Scope.entryOf?_current hentry
      refine ⟨⟨_, past⟩, rfl, ⟨?_, rfl, rfl, rfl, rfl, ?_⟩, hdeclaring⟩
      · refine Emitter.Valid.rename h allocator rfl rfl (h.names.define hentry rfl hplace) ?_ ?_
        · exact Scope.extends_put hfound (List.subset_append_left _ _) rfl
        · intro P hP c hc found found' hold hnew
          rw [Scope.entryOf?_put] at hnew
          split at hnew
          · rename_i hc'
            rw [hc'] at hold
            obtain rfl := Option.some.inj hnew
            rw [Option.some.inj (hfound.symm.trans hold)]
          · rw [Option.some.inj (hold.symm.trans hnew)]
      · rintro other ⟨hsome, hne⟩
        refine ⟨?_, hne⟩
        rw [Scope.entryOf?_put] at hsome
        split at hsome
        · rename_i hother
          rw [hother, hfound]
          rfl
        · exact hsome
    · rename_i hdefine
      cases (Scope.define_error hdefine).2 with
      | nowhere hnone =>
        rw [hentry] at hnone
        cases hnone
      | taken _ _ => rfl
  · rename_i halloc
    rcases (Allocator.alloc_error halloc).2 with ⟨_, hnot⟩ | rfl
    · rw [hstorable] at hnot
      cases hnot
    · rfl

end Draft

end DuckLang
