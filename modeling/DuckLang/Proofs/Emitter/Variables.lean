import DuckLang.Proofs.Emitter.Storage

/-! Variables and parameters.  What a scope sees has addresses of its own, in the segment of the
entry that declares it; the directory lists the parameters of every function as the scope does; and
a range that is used up gives an error. -/

namespace DuckLang

theorem Allocator.alloc_full {a : Allocator} {segment : Segment} {type : DataType}
    (h : Address.rangeSize ≤ a.used segment type) :
    a.alloc segment type = .error (.outOfMemory segment type) a := by
  have hstorable : type.isStorable = true := by
    cases type <;> first | rfl | exact absurd h (by simp [used, Counts.get, Address.rangeSize])
  simp [alloc, hstorable, h]

/-! ### What a scope sees -/

namespace Scope

/-- The names that the current scope sees, with the segment that each of them belongs to: those of a
function in the local one, those of the program in the global one. -/
def visible (s : Scope) : List (Segment × Symbol) :=
  let globals := ((s.entryOf? s.program).map (·.symbols)).getD []
  let locals := if s.inGlobal then [] else (s.currentScope?.map (·.symbols)).getD []
  locals.map (Segment.locals, ·) ++ globals.map (Segment.globals, ·)

/-- The function with a name. -/
def function? (s : Scope) (name : String) : Option Entry :=
  (s.entryOf? name).filter (!·.isProgram)

/-- The parameters of an entry as a directory lists them. -/
def Entry.signature (e : Entry) : List Param :=
  e.params.map fun p => { type := p.type, address := p.address }

end Scope

theorem Symbol.Placed.segment_eq {symbol symbol' : Symbol} {segment segment' : Segment}
    (h : symbol.Placed segment) (h' : symbol'.Placed segment')
    (heq : symbol.address = symbol'.address) : segment = segment' := by
  obtain ⟨_, hplace⟩ := h
  obtain ⟨_, hplace'⟩ := h'
  rw [heq, hplace'] at hplace
  simp only [Option.some.injEq, Address.Place.mk.injEq] at hplace
  exact hplace.1.symm

namespace Emitter

namespace Storage

variable {s : Storage}

theorem Sound.globals_placed (h : s.Sound) :
    ∀ symbol ∈ ((s.scope.entryOf? s.scope.program).map (·.symbols)).getD [],
      symbol.Placed .globals := by
  cases hentry : s.scope.entryOf? s.scope.program with
  | none => simp
  | some entry => exact fun symbol hsymbol => (h.globals hentry symbol hsymbol).placed

theorem Sound.locals_placed (h : s.Sound) (hlocal : ¬s.scope.inGlobal = true) :
    ∀ symbol ∈ (s.scope.currentScope?.map (·.symbols)).getD [], symbol.Placed .locals := by
  have hne : s.scope.current ≠ s.scope.program := by simpa [Scope.inGlobal] using hlocal
  cases hentry : s.scope.currentScope? with
  | none => simp
  | some entry => exact fun symbol hsymbol => (h.locals hne hentry symbol hsymbol).placed

theorem Sound.symbols_nodup (h : s.Sound) (name : String) :
    ((((s.scope.entryOf? name).map (·.symbols)).getD []).map (·.address)).Nodup := by
  cases hentry : s.scope.entryOf? name with
  | none => simp
  | some entry =>
    obtain ⟨_, _, horderly⟩ := h.entries _ _ hentry
    exact horderly.distinct

theorem Sound.visible_placed (h : s.Sound) :
    ∀ x ∈ s.scope.visible, x.2.Placed x.1 := by
  intro x hx
  rcases List.mem_append.mp hx with hlocal | hglobal
  · obtain ⟨symbol, hsymbol, rfl⟩ := List.mem_map.mp hlocal
    split at hsymbol
    · cases hsymbol
    · rename_i hinside
      exact h.locals_placed hinside symbol hsymbol
  · obtain ⟨symbol, hsymbol, rfl⟩ := List.mem_map.mp hglobal
    exact h.globals_placed symbol hsymbol

theorem Sound.visible_nodup (h : s.Sound) : (s.scope.visible.map (·.2.address)).Nodup := by
  have hplaced := h.visible_placed
  simp only [Scope.visible, List.map_append, List.map_map, Function.comp_def] at hplaced ⊢
  refine List.nodup_append.mpr ⟨?_, h.symbols_nodup _, ?_⟩
  · split
    · exact List.nodup_nil
    · exact h.symbols_nodup s.scope.current
  · -- one of the two is a local address, the other a global one
    intro address hlocal address' hglobal heq
    obtain ⟨symbol, hsymbol, rfl⟩ := List.mem_map.mp hlocal
    obtain ⟨symbol', hsymbol', rfl⟩ := List.mem_map.mp hglobal
    have hsegment := Symbol.Placed.segment_eq
      (hplaced (.locals, symbol) (List.mem_append_left _ (List.mem_map_of_mem hsymbol)))
      (hplaced (.globals, symbol') (List.mem_append_right _ (List.mem_map_of_mem hsymbol'))) heq
    cases hsegment

end Storage

/-! ### Scope and directory -/

/-- The directory lists the functions of a scope with their parameters; the function being read is
the current scope; and before the header of the program there is no function. -/
structure Linked (s : Scope) (d : Directory) (opened : Option Body) : Prop where
  agree : ∀ name, (d.get? name).map (·.params) = (s.function? name).map (·.signature)
  reading : ∀ b ∈ opened, b.isListed = true ∧ s.current = b.info.name ∧
    d.get? b.info.name = some b.info
  headless : s.program = "" → opened = none ∧ ∀ name, d.get? name = none

variable {s s' : Scope} {d : Directory} {opened : Option Body}

theorem Linked.empty : Linked {} [] none :=
  ⟨fun _ => rfl, by simp, fun _ => ⟨rfl, fun _ => rfl⟩⟩

theorem Linked.initProgram (h : Linked s d opened) {name : String}
    (hs : s.initProgram name = .ok () s') : Linked s' d opened := by
  obtain ⟨hempty, rfl⟩ := Scope.initProgram_ok hs
  obtain ⟨rfl, hnone⟩ := h.headless hempty
  refine ⟨fun other => ?_, by simp, fun _ => ⟨rfl, hnone⟩⟩
  have hagree := h.agree other
  rw [hnone] at hagree ⊢
  have hentry : Scope.entryOf? { s with
      program := name, entries := Scope.putEntry { name, isProgram := true } s.entries,
      current := name } other =
      if other = name then some { name, isProgram := true } else s.entryOf? other :=
    Scope.find?_putEntry _ _ _
  simp only [Scope.function?, hentry] at hagree ⊢
  split
  · rfl
  · exact hagree

theorem Linked.beginFunction (h : Linked s d opened) {name : String} {returns : DataType}
    (hs : s.beginFunction name returns = .ok () s') (entry : Int) :
    Linked s' (d.set name { name, entry, returns })
      (some { info := { name, entry, returns }, isListed := true }) := by
  obtain ⟨hnamed, _, hfree, rfl⟩ := Scope.beginFunction_ok hs
  have hentry : ∀ other, Scope.entryOf?
      { s with entries := s.entries ++ [{ name, returns }], current := name } other =
      if other = name then some { name, returns } else s.entryOf? other :=
    fun other => @Scope.entryOf?_append s { name, returns } other hfree
  refine ⟨fun other => ?_, ?_, fun hheadless => absurd hheadless hnamed⟩
  · have hagree := h.agree other
    simp only [Scope.function?, hentry, Directory.get?_set] at hagree ⊢
    split
    · rfl
    · exact hagree
  · intro b hb
    obtain rfl := Option.some.inj hb
    exact ⟨rfl, rfl, by rw [Directory.get?_set, if_pos rfl]⟩

theorem Linked.put (h : Linked s d opened) {entry entry' : Scope.Entry}
    (hentry : s.entryOf? entry'.name = some entry) (hparams : entry'.params = entry.params)
    (hprogram : entry'.isProgram = entry.isProgram) : Linked (s.put entry') d opened where
  agree name := by
    have hagree := h.agree name
    simp only [Scope.function?, Scope.entryOf?_put] at hagree ⊢
    split
    · rename_i hname
      rw [hname, hentry] at hagree
      rw [hname, hagree]
      simp [Option.filter, hprogram, Scope.Entry.signature, hparams, apply_ite]
    · exact hagree
  reading := h.reading
  headless := h.headless

theorem Linked.addVariable (h : Linked s d opened) {name : String} {address : Int}
    (hs : s.addVariable name address = .ok () s') : Linked s' d opened := by
  obtain ⟨_, entry, _, hentry, rfl⟩ := Scope.addVariable_ok hs
  have hfound := Scope.entryOf?_current hentry
  exact h.put hfound rfl rfl

theorem Linked.addParameter {b : Body} (h : Linked s d (some b)) {name : String} {type : DataType}
    {address : Int} (hs : s.addParameter name type address = .ok () s') {info : FunctionInfo}
    (hinfo : info = b.info.addParam { type, address }) :
    Linked s' (d.set info.name info) (some { b with info }) := by
  obtain ⟨hlisted, hcurrent, hget⟩ := h.reading b rfl
  obtain ⟨_, entry, hentry, rfl⟩ := Scope.addParameter_ok hs
  have hname : entry.name = b.info.name := (Scope.entryOf?_name hentry).trans hcurrent
  have hinfoName : info.name = b.info.name := by simp [hinfo]
  -- the current entry is that of the function being read, so it is no program
  have hagree := h.agree b.info.name
  rw [hget, ← hcurrent, Scope.function?, ← Scope.currentScope?, hentry] at hagree
  have hfunction : entry.isProgram = false := by
    by_contra hprogram
    simp [Option.filter, hprogram] at hagree
  simp only [Option.filter, hfunction, Bool.not_false, if_true, Option.map_some,
    Option.some.injEq] at hagree
  refine ⟨fun other => ?_, ?_, fun hheadless => ?_⟩
  · have hother := h.agree other
    simp only [Scope.function?, Scope.entryOf?_put, Directory.get?_set, hinfoName, hname]
      at hother ⊢
    split
    · simp [Option.filter, hfunction, hinfo, hagree, Scope.Entry.signature]
    · exact hother
  · intro b' hb'
    obtain rfl := Option.some.inj hb'
    refine ⟨hlisted, hcurrent.trans hinfoName.symm, ?_⟩
    rw [Directory.get?_set, if_pos rfl]
  · cases (h.headless hheadless).1

theorem Linked.endFunction (h : Linked s d opened) : Linked s.endFunction d none where
  agree := h.agree
  reading := by simp
  headless hheadless := ⟨rfl, (h.headless hheadless).2⟩

/-! ### Sequences of declarations -/

/-- The operations that declare names: the header of a program, the type of declarations, variables,
functions and their parameters. -/
def Command.declares : Command → Bool
  | .initProgram _ | .setType _ | .beginFunction _ _ | .addParameter _ _ | .declareVariable _
  | .endFunction => true
  | _ => false

/-- The scope and the directory of an emitter agree. -/
abbrev IsLinked (e : Emitter) : Prop :=
  Linked e.scope e.functions e.body

variable {e : Emitter}

theorem leave_look {α : Type} {f : Emitter → Emit α} :
    leave (MonadState.get >>= f) e = leave (f e) e := rfl

theorem linked_changeScope (h : e.IsLinked) {change : Scope → Scope.Outcome}
    (hkeeps : Scope.Keeps change)
    (hchange : ∀ scope, change e.scope = .ok () scope → Linked scope e.functions e.body) :
    (leave (changeScope change) e).IsLinked := by
  cases hscope : change e.scope with
  | error cause scope =>
    rw [leave, run_changeScope_error hkeeps hscope]
    exact h
  | ok _ scope =>
    rw [leave, run_changeScope_ok hscope]
    exact hchange scope hscope

theorem linked_declareVariable (h : e.IsLinked) (name : String) :
    (leave (declareVariable name) e).IsLinked := by
  rw [declareVariable, leave_look]
  cases hhanded : e.allocator.alloc (if e.scope.inGlobal then .globals else .locals)
      e.scope.declaredType with
  | error cause _ =>
    rw [leave_bind_error (run_allocate_error hhanded)]
    exact h
  | ok address allocator =>
    rw [leave_bind_ok (run_allocate_ok hhanded)]
    exact linked_changeScope (e := { e with allocator }) h (Scope.keeps_addVariable name address)
      fun scope hadded => Linked.addVariable h hadded

theorem linked_addParameter (h : e.IsLinked) (name : String) (type : DataType) :
    (leave (addParameter name type) e).IsLinked := by
  rw [addParameter, leave_look]
  cases hbody : e.body with
  | none => exact h
  | some b =>
    cases hhanded : e.allocator.alloc .locals type with
    | error cause _ =>
      rw [leave_bind_error (run_allocate_error hhanded)]
      exact h
    | ok address allocator =>
      rw [leave_bind_ok (run_allocate_ok hhanded)]
      cases hadded : e.scope.addParameter name type address with
      | error cause scope =>
        have hkeeps := Scope.keeps_addParameter name type address
        rw [leave_bind_error (run_changeScope_error (e := { e with allocator }) hkeeps hadded)]
        exact h
      | ok _ scope =>
        rw [leave_bind_ok (run_changeScope_ok (e := { e with allocator }) hadded)]
        rw [IsLinked, hbody] at h
        show Linked scope (if b.isListed then e.functions.set _ _ else e.functions) _
        rw [if_pos (h.reading b rfl).1]
        exact h.addParameter hadded rfl

theorem linked_beginFunction (h : e.IsLinked) (name : String) (returns : DataType) :
    (leave (beginFunction name returns) e).IsLinked := by
  cases hbegun : e.scope.beginFunction name returns with
  | error cause scope =>
    have hkeeps := Scope.keeps_beginFunction name returns
    rw [beginFunction, leave_bind_error (run_changeScope_error hkeeps hbegun)]
    exact h
  | ok _ scope =>
    rw [beginFunction, leave_bind_ok (run_changeScope_ok hbegun)]
    obtain ⟨_, _, _, _, _, _, _, _, _, _, _, jump⟩ := e
    cases jump <;> exact h.beginFunction hbegun _

theorem linked_endFunction (h : e.IsLinked) : (leave endFunction e).IsLinked := by
  rw [endFunction, leave_look]
  split
  · exact h
  · exact h.endFunction

theorem IsLinked.after (h : e.IsLinked) {command : Command} (hdeclares : command.declares = true) :
    (after e command).IsLinked := by
  rw [← leave_perform]
  cases command with
  | initProgram name =>
    rw [perform]
    exact linked_changeScope h (Scope.keeps_initProgram name) fun _ hopened =>
      Linked.initProgram h hopened
  | setType type =>
    rw [perform]
    refine linked_changeScope h (Scope.keeps_setType type) fun scope hset => ?_
    obtain ⟨_, rfl⟩ := EStateM.Result.ok.inj hset
    exact ⟨h.agree, h.reading, h.headless⟩
  | declareVariable name => exact linked_declareVariable h name
  | beginFunction name returns => exact linked_beginFunction h name returns
  | addParameter name type => exact linked_addParameter h name type
  | endFunction => exact linked_endFunction h
  | _ => cases hdeclares

theorem linked_commands (h : e.IsLinked) {commands : List Command}
    (hdeclares : ∀ command ∈ commands, command.declares = true) :
    (commands.foldl after e).IsLinked := by
  induction commands generalizing e with
  | nil => exact h
  | cons command commands ih =>
    obtain ⟨hfirst, hrest⟩ := List.forall_mem_cons.mp hdeclares
    exact ih (h.after hfirst) hrest

/-! ### Ranges that are used up -/

theorem declareVariable_full (name : String)
    (h : Address.rangeSize ≤ e.allocator.used (if e.scope.inGlobal then .globals else .locals)
      e.scope.declaredType) :
    (perform (.declareVariable name)).run e = .error (.outOfMemory
      (if e.scope.inGlobal then .globals else .locals) e.scope.declaredType) e := by
  have hrun := run_allocate_error (Allocator.alloc_full h)
  simp only [perform, declareVariable, EStateM.run_bind, EStateM.run_get, hrun]

theorem addParameter_full (name : String) {type : DataType} (hbody : e.body.isSome = true)
    (h : Address.rangeSize ≤ e.allocator.used .locals type) :
    (perform (.addParameter name type)).run e = .error (.outOfMemory .locals type) e := by
  obtain ⟨b, hb⟩ := Option.isSome_iff_exists.mp hbody
  have hrun := run_allocate_error (Allocator.alloc_full h)
  simp only [perform, addParameter, EStateM.run_bind, EStateM.run_get, hb, hrun]

/-! ### The storage of variables -/

/-- After any operations that declare names, those that failed included: what the current scope sees
has addresses of its own, each in the range of its type, local for the names of a function and
global for the others; the directory lists the parameters of every function as the scope does, types
and addresses in their order; and where a range is used up, a declaration that needs an address of
it fails and changes nothing. -/
theorem variables_apart {commands : List Command}
    (hdeclares : ∀ command ∈ commands, command.declares = true) {e : Emitter}
    (he : commands.foldl after {} = e) :
    (e.scope.visible.map (·.2.address)).Nodup ∧
    (∀ x ∈ e.scope.visible, x.2.Placed x.1) ∧
    (∀ name, (e.functions.get? name).map (·.params) =
      (e.scope.function? name).map (·.signature)) ∧
    (∀ name, Address.rangeSize ≤ e.allocator.used
        (if e.scope.inGlobal then .globals else .locals) e.scope.declaredType →
      (perform (.declareVariable name)).run e = .error (.outOfMemory
        (if e.scope.inGlobal then .globals else .locals) e.scope.declaredType) e) ∧
    ∀ name type, e.body.isSome = true → Address.rangeSize ≤ e.allocator.used .locals type →
      (perform (.addParameter name type)).run e = .error (.outOfMemory .locals type) e := by
  have hsound : e.storage.Sound := he ▸ Emitter.storage_sound commands
  have hlinked : e.IsLinked := he ▸ linked_commands Linked.empty hdeclares
  exact ⟨hsound.visible_nodup, hsound.visible_placed, hlinked.agree,
    fun name => declareVariable_full name, fun name type => addParameter_full name⟩

/-- Declaring a name again and again only uses up addresses. -/
theorem redeclare {e : Emitter} (name : String) {entry : Scope.Entry} {type : DataType} (n : Nat)
    (hentry : e.scope.currentScope? = some entry) (hname : (entry.symbol? name).isSome = true)
    (hlocal : e.scope.inGlobal = false) (htype : e.scope.declaring = some type)
    (hstorable : type.isStorable = true)
    (hroom : e.allocator.used .locals type + n ≤ Address.rangeSize) :
    ∃ allocator, (List.replicate n (.declareVariable name)).foldl after e = { e with allocator } ∧
      allocator.used .locals type = e.allocator.used .locals type + n := by
  induction n generalizing e with
  | zero => exact ⟨e.allocator, rfl, rfl⟩
  | succ n ih =>
    obtain ⟨address, allocator, hhanded⟩ :
        ∃ address allocator, e.allocator.alloc .locals type = .ok address allocator := by
      have hleft : ¬Address.rangeSize ≤ e.allocator.used .locals type := by omega
      simp [Allocator.alloc, hstorable, hleft]
    have hrefused : e.scope.addVariable name address =
        .error (.variableDeclared name e.scope.current) e.scope := by
      simp [Scope.addVariable, htype, Scope.define, hentry, hname]
    have hnext : after e (.declareVariable name) = { e with allocator } := by
      rw [← leave_perform, perform, declareVariable, leave_look]
      dsimp only
      rw [hlocal, Scope.declaredType, htype]
      exact (leave_bind_ok (run_allocate_ok hhanded)).trans
        (by rw [leave, run_changeScope_error (e := { e with allocator })
          (Scope.keeps_addVariable name address) hrefused])
    have hused := (Allocator.used_alloc hhanded).1
    rw [List.replicate_succ, List.foldl_cons, hnext]
    obtain ⟨allocator', hfold, hused'⟩ := ih (e := { e with allocator }) hentry hlocal htype (by
      show allocator.used .locals type + n ≤ _
      omega)
    refine ⟨allocator', hfold, ?_⟩
    rw [hused']
    show allocator.used .locals type + n = _
    omega

/-- A program with a variable and a function with a parameter that is declared twice, and a local
variable. -/
def declarations : List Command :=
  [.initProgram "p", .setType .int, .declareVariable "x", .beginFunction "f" .void,
    .addParameter "a" .int, .addParameter "a" .int, .declareVariable "y"]

/-- The declarations, and then the last of them until there is no address left. -/
theorem variables_apart_declarations :
    (declarations.foldl after {}).scope.visible.map (·.2.address) = [7000, 7002, 1000] ∧
    ((declarations.foldl after {}).scope.visible.map (·.2.address)).Nodup ∧
    ((declarations.foldl after {}).functions.get? "f").map (·.params) = some [⟨.int, 7000⟩] ∧
    ∃ e, (declarations ++ List.replicate 1997 (Command.declareVariable "y")).foldl after {} = e ∧
      (perform (.declareVariable "z")).run e = .error (.outOfMemory .locals .int) e := by
  have hdeclares : ∀ command ∈ declarations, command.declares = true := by decide
  obtain ⟨hnodup, _, hparams, _⟩ := variables_apart hdeclares rfl
  refine ⟨by decide +kernel, hnodup, by rw [hparams]; decide +kernel, _, rfl, ?_⟩
  have hmore : ∀ command ∈ declarations ++ List.replicate 1997 (Command.declareVariable "y"),
      command.declares = true := by
    simp only [List.mem_append, List.mem_replicate]
    rintro command (hmem | ⟨_, rfl⟩)
    · exact hdeclares command hmem
    · rfl
  obtain ⟨_, _, _, hfull, _⟩ := variables_apart hmore rfl
  rw [List.foldl_append] at hfull ⊢
  have hentry : (declarations.foldl after {}).scope.currentScope? = some
      { name := "f"
        symbols := [⟨"a", .int, 7000, .parameter⟩, ⟨"y", .int, 7002, .variable⟩]
        params := [⟨"a", .int, 7000, .parameter⟩] } := by decide +kernel
  have hlocal : (declarations.foldl after {}).scope.inGlobal = false := by decide +kernel
  have htype : (declarations.foldl after {}).scope.declaring = some .int := by decide +kernel
  obtain ⟨allocator, hfold, hused⟩ := redeclare "y" 1997 hentry (by decide) hlocal htype rfl
    (by decide +kernel)
  have hthree : (declarations.foldl after {}).allocator.used .locals .int = 3 := by decide +kernel
  rw [hfold] at hfull ⊢
  have hrun := hfull "z"
  dsimp only at hrun
  rw [hlocal, Scope.declaredType, htype] at hrun
  exact hrun (Nat.le_of_eq (hused.trans (by rw [hthree]; rfl)).symm)

end Emitter

end DuckLang
