import DuckLang.Proofs.Emitter.Aliasing
import DuckLang.Proofs.Emitter.Stretch

/-! The outline of a program.  The operations that make a program are those of its functions, one
after the other, and then those of the main body.  So its code is that of the functions, in the
order in which the directory lists them, with the main body last and nothing but the jump over the
functions in front. -/

namespace DuckLang

/-! ### Directories -/

namespace Directory

variable {d : Directory} {name : String} {f f' : FunctionInfo}

theorem get?_eq_none : d.get? name = none ↔ ∀ entry ∈ d, entry.1 ≠ name := by
  simp [Directory.get?]

theorem set_append (h : d.get? name = none) (rest : Directory) :
    Directory.set (d ++ rest) name f = d ++ rest.set name f := by
  rw [get?_eq_none] at h
  induction d with
  | nil => rfl
  | cons entry d ih =>
    obtain ⟨hfirst, hrest⟩ := List.forall_mem_cons.mp h
    simp only [List.cons_append, Directory.set, if_neg hfirst, ih hrest]

theorem set_fresh (h : d.get? name = none) : d.set name f = d ++ [(name, f)] := by
  simpa [Directory.set] using set_append (f := f) h []

theorem set_last (h : d.get? name = none) :
    Directory.set (d ++ [(name, f)]) name f' = d ++ [(name, f')] := by
  simp [set_append h, Directory.set]

end Directory

namespace Emitter

/-! ### Scripts -/

/-- The operations that declare variables. -/
def Command.isVariable : Command → Bool
  | .setType _ | .declareVariable _ => true
  | _ => false

/-- The operations that open or close the program, a function or the main body. -/
def Command.bounds : Command → Bool
  | .initProgram _ | .beginFunction _ _ | .endFunction | .markMain | .finish => true
  | _ => false

/-- How many constructs and how many calls more are open behind some operations. -/
def balance : List Command → Int × Int
  | [] => (0, 0)
  | command :: commands =>
    (command.opens.1 + (balance commands).1, command.opens.2 + (balance commands).2)

theorem balance_append (commands commands' : List Command) :
    balance (commands ++ commands') =
      ((balance commands).1 + (balance commands').1,
        (balance commands).2 + (balance commands').2) := by
  induction commands with
  | nil => simp [balance]
  | cons command commands ih => simp [balance, ih, Int.add_assoc]

theorem balance_of_isVariable {commands : List Command}
    (h : ∀ command ∈ commands, command.isVariable = true) :
    (∀ command ∈ commands, command.isInner = true) ∧ balance commands = (0, 0) := by
  induction commands with
  | nil => exact ⟨by simp, rfl⟩
  | cons command commands ih =>
    obtain ⟨hfirst, hrest⟩ := List.forall_mem_cons.mp h
    obtain ⟨hinner, hbalanced⟩ := ih hrest
    have hcommand : command.isInner = true ∧ command.opens = (0, 0) := by
      cases command <;> first | exact ⟨rfl, rfl⟩ | cases hfirst
    exact ⟨List.forall_mem_cons.mpr ⟨hcommand.1, hinner⟩, by simp [balance, hcommand.2, hbalanced]⟩

/-- Operations within a body that leave nothing open. -/
structure Passage where
  commands : List Command
  inner : ∀ command ∈ commands, command.isInner = true
  balanced : balance commands = (0, 0)

/-- The operations of a function. -/
structure Routine where
  name : String
  returns : DataType
  lawful : returns = .void ∨ returns.isStorable = true
  params : List (String × DataType)
  inside : Passage

/-- The operations of a program. -/
structure Script where
  name : String
  globals : List Command
  declares : ∀ command ∈ globals, command.isVariable = true
  routines : List Routine
  main : Passage

/-- The operations behind the header of a function. -/
def Routine.body (r : Routine) : List Command :=
  r.params.map (fun p => .addParameter p.1 p.2) ++ r.inside.commands

/-- The operations of a function, from its header to its end. -/
def Routine.commands (r : Routine) : List Command :=
  .beginFunction r.name r.returns :: (r.body ++ [.endFunction])

/-- The operations of a program, from its header to its end. -/
def Script.commands (s : Script) : List Command :=
  .initProgram s.name :: (s.globals ++ s.routines.flatMap Routine.commands ++
    .markMain :: (s.main.commands ++ [.finish]))

theorem Command.bounds_of_inner {command : Command} (h : command.isInner = true) :
    command.bounds = false := by
  cases command <;> first | rfl | cases h

theorem Routine.bounds_body (r : Routine) : ∀ command ∈ r.body, command.bounds = false := by
  intro command hmem
  rcases List.mem_append.mp hmem with hparam | hinside
  · obtain ⟨p, _, rfl⟩ := List.mem_map.mp hparam
    rfl
  · exact Command.bounds_of_inner (r.inside.inner command hinside)

theorem Command.lawful_of_bounds {command : Command} (h : command.bounds = false)
    (T : DataType → Prop) : command.Lawful T := by
  cases command <;> first | exact trivial | cases h

/-- No function of a script gives back a value without storage. -/
theorem Script.lawful (s : Script) :
    ∀ command ∈ s.commands, command.Lawful fun type => type.isStorable = true := by
  have hinner : ∀ {command : Command}, command.isInner = true →
      command.Lawful fun type => type.isStorable = true :=
    fun h => Command.lawful_of_bounds (Command.bounds_of_inner h) _
  intro command hmem
  simp only [Script.commands, Routine.commands, List.mem_cons, List.mem_append, List.mem_flatMap,
    List.not_mem_nil, or_false] at hmem
  rcases hmem with rfl | (hglobal | ⟨r, _, rfl | hbody | rfl⟩) | rfl | hmain | rfl
  · trivial
  · exact hinner ((balance_of_isVariable s.declares).1 command hglobal)
  · exact r.lawful
  · exact Command.lawful_of_bounds (r.bounds_body command hbody) _
  · trivial
  · trivial
  · exact hinner (s.main.inner command hmain)
  · trivial

/-! ### Runs of operations -/

variable {e e' e'' : Emitter} {commands commands' : List Command}

theorem performs_append :
    Performs (commands ++ commands') e e'' ↔
      ∃ mid, Performs commands e mid ∧ Performs commands' mid e'' := by
  refine ⟨fun h => ?_, fun ⟨mid, h, h'⟩ => h.append h'⟩
  induction commands generalizing e with
  | nil => exact ⟨e, rfl, h⟩
  | cons command commands ih =>
    obtain ⟨next, hrun, hrest⟩ := h
    obtain ⟨mid, hfirst, hlast⟩ := ih hrest
    exact ⟨mid, ⟨next, hrun, hfirst⟩, hlast⟩

theorem performs_singleton {command : Command} :
    Performs [command] e e' ↔ (perform command).run e = .ok () e' := by
  constructor
  · rintro ⟨mid, hrun, rfl⟩
    exact hrun
  · exact fun hrun => ⟨e', hrun, rfl⟩

theorem Stretch.performs {front code : List Quad} {returns : Bool}
    (h : Stretch front code returns e)
    (hreturns : ∀ b ∈ e.body, b.info.hasReturn = true → returns = true)
    (hinner : ∀ command ∈ commands, command.isInner = true) (hperforms : Performs commands e e') :
    Inside front returns (balance commands) e e' := by
  induction commands generalizing e code with
  | nil =>
    obtain rfl := hperforms
    exact h.inside rfl rfl rfl rfl rfl rfl rfl
  | cons command commands ih =>
    obtain ⟨hfirst, hrest⟩ := List.forall_mem_cons.mp hinner
    obtain ⟨mid, hrun, hperforms⟩ := hperforms
    have hinside := Emit.Ensures.ok (stays_perform h hreturns hfirst) hrun
    obtain ⟨code', hstretch⟩ := hinside.stretch
    exact hinside.trans (ih hstretch (by rw [hinside.body]; exact hreturns) hrest hperforms) rfl

theorem Passage.inside (passage : Passage) (returns : Bool) {front : List Quad}
    (hquads : e.quads.toList = front) (hcontrols : e.controls = []) (hcalls : e.calls = [])
    (hreturns : ∀ b ∈ e.body, b.info.hasReturn = true → returns = true)
    (hperforms : Performs passage.commands e e') :
    Inside front returns (0, 0) e e' ∧ e'.controls = [] ∧ e'.calls = [] := by
  have hstretch : Stretch front [] returns e :=
    ⟨by simp [hquads], by simp [Staged, hcalls], by simp [Jumps], by simp [hcontrols]⟩
  have hinside := hstretch.performs hreturns passage.inner hperforms
  rw [passage.balanced] at hinside
  refine ⟨hinside, ?_, ?_⟩
  · have := hinside.controls
    simp only [hcontrols, List.length_nil] at this
    exact List.length_eq_zero_iff.mp (by omega)
  · have := hinside.calls
    simp only [hcalls, List.length_nil] at this
    exact List.length_eq_zero_iff.mp (by omega)

theorem quads_of_isVariable {command : Command} (h : command.isVariable = true)
    (hrun : (perform command).run e = .ok () e') : e'.quads = e.quads := by
  have hensures : Emit.Ensures (perform command) e (fun _ => True) fun _ e' =>
      e'.quads = e.quads := by
    cases command with
    | setType type => simp [perform]
    | declareVariable name =>
      simp only [perform, declareVariable, ensures_bind, ensures_get, ensures_allocate,
        ensures_changeScope]
      split
      · split <;> trivial
      · trivial
    | _ => cases h
  exact hensures.ok hrun

/-! ### Functions in a line -/

/-- A function with its code. -/
structure Part where
  info : FunctionInfo
  code : List Quad

/-- The index of the first quadruple of a function. -/
def Part.start (part : Part) : Nat :=
  part.info.entry.toNat

/-- The index behind the last quadruple of a function. -/
def Part.stop (part : Part) : Nat :=
  part.start + part.code.length

/-- A function whose code, from an index on, keeps to itself and has its calls closed. -/
structure Part.Sound (known : Signatures) (start : Nat) (part : Part) : Prop where
  entry : part.info.entry = start
  staged : Staged known part.info.hasReturn [] part.code []
  jumps : Jumps start part.code
  nonempty : part.code ≠ []
  params : ∀ param ∈ part.info.params, Address.In .locals param.address

/-- Functions whose code lies one behind the other from an index on. -/
def InLine (known : Signatures) : Nat → List Part → Prop
  | _, [] => True
  | start, part :: parts => part.Sound known start ∧ InLine known (start + part.code.length) parts

section InLine

variable {known known' : Signatures} {start : Nat} {parts : List Part} {part : Part}

theorem InLine.mono (h : InLine known start parts)
    (hknown : ∀ {name signature}, known name = some signature → known' name = some signature) :
    InLine known' start parts := by
  induction parts generalizing start with
  | nil => trivial
  | cons part parts ih =>
    obtain ⟨hpart, hrest⟩ := h
    exact ⟨{ hpart with staged := hpart.staged.mono hknown }, ih hrest⟩

theorem InLine.snoc (h : InLine known start parts)
    (hpart : part.Sound known (start + (parts.flatMap (·.code)).length)) :
    InLine known start (parts ++ [part]) := by
  induction parts generalizing start with
  | nil => exact ⟨by simpa using hpart, trivial⟩
  | cons first parts ih =>
    refine ⟨h.1, ih h.2 ?_⟩
    simpa [Nat.add_assoc] using hpart

end InLine

/-- How much code operations emit. -/
def codeSize (commands : List Command) : Nat :=
  (commands.foldl after {}).quads.size

/-- Operations emit the code from `start` on and before `stop` from one of them through another.
The first of them emits none itself, but for the jump over the functions if there is no code yet. -/
def Emits (commands : List Command) (first last : Command) (start stop : Nat) : Prop :=
  ∃ before inside behind, commands = before ++ first :: (inside ++ last :: behind) ∧
    (∀ command ∈ inside, command.bounds = false) ∧
    (codeSize before = start ∨ codeSize before = 0 ∧ start = 1) ∧
    codeSize (before ++ [first]) = start ∧
    codeSize (before ++ first :: (inside ++ [last])) = stop

theorem Performs.codeSize_eq (h : Performs commands {} e) {code : List Quad}
    (hcode : e.quads.toList = code) : codeSize commands = code.length := by
  rw [codeSize, h.foldl, ← hcode, Array.length_toList]

theorem Emits.append {first last : Command} {start stop : Nat}
    (h : Emits commands first last start stop) (more : List Command) :
    Emits (commands ++ more) first last start stop := by
  obtain ⟨before, inside, behind, rfl, hrest⟩ := h
  exact ⟨before, inside, behind ++ more, by simp, hrest⟩

/-- An emitter between functions, with the operations done so far. -/
structure Outlined (done : List Command) (lead : List Quad) (parts : List Part) (e : Emitter) :
    Prop where
  performs : Performs done {} e
  quads : e.quads.toList = lead ++ parts.flatMap (·.code)
  functions : e.functions = parts.map fun part => (part.info.name, part.info)
  inLine : InLine e.scope.signature? lead.length parts
  emitted : ∀ part ∈ parts, ∃ returns,
    Emits done (.beginFunction part.info.name returns) .endFunction part.start part.stop
  declared : ∀ part ∈ parts, (e.scope.signature? part.info.name).isSome
  leads : (lead = [] ∧ parts = [] ∧ e.leadingJump = none) ∨
    ∃ q, lead = [q] ∧ e.leadingJump = some 0
  body : e.body = none
  controls : e.controls = []
  calls : e.calls = []

section Outlined

variable {done : List Command} {lead : List Quad} {parts : List Part}

theorem Outlined.get?_eq_none (h : Outlined done lead parts e) {name : String}
    (hnone : e.scope.signature? name = none) : e.functions.get? name = none := by
  rw [h.functions, Directory.get?_eq_none]
  intro entry hentry
  obtain ⟨part, hpart, rfl⟩ := List.mem_map.mp hentry
  rintro rfl
  have := h.declared part hpart
  rw [hnone] at this
  cases this

theorem outlined_initProgram {name : String}
    (hrun : (perform (.initProgram name)).run {} = .ok () e) :
    Outlined [.initProgram name] [] [] e := by
  have hensures : Emit.Ensures (perform (.initProgram name)) {} (fun _ => True) fun _ e' =>
      e'.quads = #[] ∧ e'.functions = [] ∧ e'.leadingJump = none ∧ e'.body = none ∧
        e'.controls = [] ∧ e'.calls = [] := by
    simp only [perform, ensures_changeScope]
    split <;> simp
  obtain ⟨hquads, hfunctions, hjump, hbody, hcontrols, hcalls⟩ := hensures.ok hrun
  exact ⟨performs_singleton.mpr hrun, by simp [hquads], hfunctions, trivial, by simp, by simp,
    .inl ⟨rfl, rfl, hjump⟩, hbody, hcontrols, hcalls⟩

theorem Outlined.variables (h : Outlined done lead parts e)
    (hvariables : ∀ command ∈ commands, command.isVariable = true)
    (hperforms : Performs commands e e') : Outlined (done ++ commands) lead parts e' := by
  obtain ⟨hinner, hbalanced⟩ := balance_of_isVariable hvariables
  have hquads : e'.quads = e.quads := by
    clear hinner hbalanced h
    induction commands generalizing e with
    | nil =>
      obtain rfl := hperforms
      rfl
    | cons command commands ih =>
      obtain ⟨hfirst, hrest⟩ := List.forall_mem_cons.mp hvariables
      obtain ⟨mid, hrun, hperforms⟩ := hperforms
      exact (ih hrest hperforms).trans (quads_of_isVariable hfirst hrun)
  let passage : Passage := ⟨commands, hinner, hbalanced⟩
  obtain ⟨hinside, hcontrols, hcalls⟩ := passage.inside false rfl h.controls h.calls
    (by simp [h.body]) hperforms
  exact {
    performs := h.performs.append hperforms
    quads := hquads ▸ h.quads
    functions := hinside.functions.trans h.functions
    inLine := hinside.signatures ▸ h.inLine
    emitted := fun part hpart => (h.emitted part hpart).imp fun _ hemitted => hemitted.append _
    declared := hinside.signatures ▸ h.declared
    leads := hinside.leadingJump ▸ h.leads
    body := hinside.body.trans h.body
    controls := hcontrols
    calls := hcalls }

/-! ### The header of a function -/

/-- An emitter behind the header of a function, with the function as it is listed. -/
structure Headed (known : Signatures) (front : List Quad) (listed : Directory)
    (info : FunctionInfo) (e : Emitter) : Prop where
  quads : e.quads.toList = front
  functions : e.functions = listed ++ [(info.name, info)]
  fresh : listed.get? info.name = none
  body : e.body = some { info, isListed := true }
  entry : info.entry = front.length
  params : ∀ param ∈ info.params, Address.In .locals param.address
  count : info.paramCount = info.params.length
  current : e.scope.current = info.name
  unknown : known info.name = none
  knows : ∀ {name signature}, known name = some signature →
    e.scope.signature? name = some signature
  declared : (e.scope.signature? info.name).isSome
  leadingJump : e.leadingJump = some 0
  controls : e.controls = []
  calls : e.calls = []

theorem signature?_append {s : Scope} {name : String} {returns : DataType}
    (hfree : s.entryOf? name = none) (other : String) :
    Scope.signature? { s with
      entries := s.entries ++ [{ name, returns }], current := name } other =
      if other = name then some ([], returns) else s.signature? other := by
  have hentry := @Scope.entryOf?_append s { name, returns } other hfree
  simp only [Scope.signature?]
  rw [show Scope.entryOf? { s with
    entries := s.entries ++ [{ name, returns }], current := name } other = _ from hentry]
  split <;> rfl

/-- A function is opened behind the others, the first one behind the jump over all of them. -/
theorem Outlined.beginFunction (h : Outlined done lead parts e) {name : String}
    {returns : DataType} (hrun : (perform (.beginFunction name returns)).run e = .ok () e') :
    ∃ q, InLine e.scope.signature? 1 parts ∧
      Headed e.scope.signature? (q :: parts.flatMap (·.code)) e.functions
        { name, entry := (parts.flatMap (·.code)).length + 1, returns } e' := by
  have hensures : Emit.Ensures (perform (.beginFunction name returns)) e (fun _ => True)
      fun _ e' => ∃ q, InLine e.scope.signature? 1 parts ∧
        Headed e.scope.signature? (q :: parts.flatMap (·.code)) e.functions
          { name, entry := (parts.flatMap (·.code)).length + 1, returns } e' := by
    simp only [perform, Emitter.beginFunction, ensures_bind, ensures_changeScope, ensures_get]
    split
    · rename_i scope hbegun
      obtain ⟨_, _, hfree, rfl⟩ := Scope.beginFunction_ok hbegun
      have hnone : e.scope.signature? name = none := by simp [Scope.signature?, hfree]
      have hfresh := h.get?_eq_none hnone
      have hsignature := @signature?_append e.scope name returns hfree
      have hextends : ∀ {other signature}, e.scope.signature? other = some signature →
          Scope.signature? { e.scope with
            entries := e.scope.entries ++ [{ name, returns }], current := name } other =
              some signature := by
        intro other signature hknown
        rw [hsignature, if_neg, hknown]
        rintro rfl
        rw [hnone] at hknown
        cases hknown
      -- the first function puts the jump over all of them in front of its code
      rcases h.leads with ⟨rfl, rfl, hjump⟩ | ⟨q, rfl, hjump⟩
      · have hquads : e.quads = #[] := by simpa using h.quads
        simp only [hjump, Option.isNone_none, if_true, ensures_bind, ensures_emit, ensures_modify]
        refine ⟨{ op := .goto, result := .pending }, trivial, by simp [hquads], ?_, hfresh, ?_, ?_,
          by simp, rfl, rfl, hnone, hextends, ?_, by simp [hquads], h.controls, h.calls⟩
        · simp [hquads, Directory.set_fresh hfresh]
        · simp [hquads]
        · simp
        · simp [hsignature]
      · simp only [hjump, Option.isNone_some, Bool.false_eq_true, if_false, ensures_modify]
        have hsize : e.quads.size = (parts.flatMap (·.code)).length + 1 := by
          rw [← Array.length_toList, h.quads, List.length_append, List.length_singleton,
            Nat.add_comm]
        refine ⟨q, h.inLine, h.quads, ?_, hfresh, ?_, ?_, by simp, rfl, rfl, hnone, hextends, ?_,
          rfl, h.controls, h.calls⟩
        · simp only [Directory.set_fresh hfresh, hsize]
          rfl
        · simp only [hsize]
          rfl
        · simp
        · simp [hsignature]
    · trivial
  exact hensures.ok hrun

theorem Headed.addParameter {known : Signatures} {front : List Quad} {listed : Directory}
    {info : FunctionInfo} (h : Headed known front listed info e) {name : String} {type : DataType}
    (hrun : (perform (.addParameter name type)).run e = .ok () e') :
    ∃ param, Headed known front listed (info.addParam param) e' := by
  have hensures : Emit.Ensures (perform (.addParameter name type)) e (fun _ => True)
      fun _ e' => ∃ param, Headed known front listed (info.addParam param) e' := by
    simp only [perform, Emitter.addParameter, ensures_bind, ensures_get, h.body, ensures_allocate]
    split
    · rename_i address allocator halloc
      simp only [ensures_changeScope]
      split
      · rename_i scope hadded
        simp only [ensures_modify, recordParameter, if_true]
        obtain ⟨_, entry, hentry, rfl⟩ := Scope.addParameter_ok hadded
        have hname : entry.name = info.name := (Scope.entryOf?_name hentry).trans h.current
        refine ⟨⟨type, address⟩, h.quads, ?_, h.fresh, rfl, h.entry, ?_, by simp [h.count],
          h.current, h.unknown, ?_, ?_, h.leadingJump, h.controls, h.calls⟩
        · simp only [h.functions]
          exact Directory.set_last h.fresh
        · refine List.forall_mem_append.mpr ⟨h.params, ?_⟩
          exact List.forall_mem_singleton.mpr (Allocator.alloc_in halloc)
        · intro other signature hknown
          have hother := h.knows hknown
          simp only [Scope.signature?, Scope.entryOf?_put] at hother ⊢
          rw [if_neg, hother]
          rintro rfl
          rw [hname, h.unknown] at hknown
          cases hknown
        · simp [Scope.signature?, Scope.entryOf?_put, hname]
      · trivial
    · trivial
  exact hensures.ok hrun

theorem Headed.addParameters {known : Signatures} {front : List Quad} {listed : Directory}
    {info : FunctionInfo} (h : Headed known front listed info e) {params : List (String × DataType)}
    (hperforms : Performs (params.map fun p => .addParameter p.1 p.2) e e') :
    ∃ params, Headed known front listed { info with params, paramCount := params.length } e' := by
  induction params generalizing e info with
  | nil =>
    obtain rfl := hperforms
    refine ⟨info.params, ?_⟩
    rw [← h.count]
    exact h
  | cons param params ih =>
    obtain ⟨mid, hrun, hrest⟩ := hperforms
    obtain ⟨_, hmid⟩ := h.addParameter hrun
    obtain ⟨params, hlast⟩ := ih hmid hrest
    exact ⟨params, hlast⟩

/-! ### Whole functions -/

theorem Stretch.close {front code : List Quad} {returns : Bool} {q : Quad}
    (h : Stretch front code returns e) (hcalls : e.calls = []) (hplain : q.op.isPlain = true)
    (hjump : q.op.isJump = false) :
    Staged e.scope.signature? returns [] (code ++ [q]) [] ∧ Jumps front.length (code ++ [q]) := by
  have hpush : Stretch front (code ++ [q]) returns { e with quads := e.quads.push q } :=
    h.push rfl rfl (.plain hplain) (fun hop => absurd hop (by simp [hjump])) h.controls
  refine ⟨?_, hpush.jumps⟩
  have hstaged := hpush.staged
  simp only [hcalls, List.map_nil] at hstaged
  exact hstaged

theorem run_endFunction {b : Body} (hbody : e.body = some b)
    (hrun : (perform .endFunction).run e = .ok () e') :
    e' = { e with
      quads := e.quads.push { op := .endFunction }, body := none,
      scope := e.scope.endFunction } := by
  have hensures : Emit.Ensures (perform .endFunction) e (fun _ => True) fun _ e' => e' = { e with
      quads := e.quads.push { op := .endFunction }, body := none,
      scope := e.scope.endFunction } := by
    simp [perform, endFunction, hbody]
  exact hensures.ok hrun

/-- A function with the code of its body, which ends with the function. -/
def Routine.part (r : Routine) (start : Nat) (params : List Param) (inside : List Quad) : Part where
  info := { name := r.name, entry := start, returns := r.returns, params }
  code := inside ++ [{ op := .endFunction }]

theorem Outlined.emits_routine (h : Outlined done lead parts e) {r : Routine} {q : Quad}
    {e₁ : Emitter} (hbegin : (perform (.beginFunction r.name r.returns)).run e = .ok () e₁)
    (hheaded : e₁.quads.toList = q :: parts.flatMap (·.code))
    (hall : Performs (done ++ r.commands) {} e') {part : Part}
    (hquads : e'.quads.toList = q :: (parts ++ [part]).flatMap (·.code))
    (hstart : part.start = (parts.flatMap (·.code)).length + 1) :
    Emits (done ++ r.commands) (.beginFunction r.name r.returns) .endFunction part.start
      part.stop := by
  refine ⟨done, r.body, [], rfl, r.bounds_body, ?_, ?_, ?_⟩
  · -- only the header of the first function has code before that of its body
    rw [h.performs.codeSize_eq h.quads]
    rcases h.leads with ⟨rfl, rfl, _⟩ | ⟨_, rfl, _⟩
    · exact .inr ⟨rfl, hstart⟩
    · exact .inl (by rw [hstart, List.length_append, List.length_singleton, Nat.add_comm])
  · rw [(h.performs.append (performs_singleton.mpr hbegin)).codeSize_eq hheaded, hstart,
      List.length_cons]
  · show codeSize (done ++ r.commands) = _
    rw [hall.codeSize_eq hquads, List.flatMap_append, List.flatMap_singleton, List.length_cons,
      List.length_append, Part.stop, hstart, Nat.add_right_comm]

/-- The operations of a function put its code behind that of the others. -/
theorem Outlined.routine (h : Outlined done lead parts e) {r : Routine}
    (hperforms : Performs r.commands e e') :
    ∃ lead' part, Outlined (done ++ r.commands) lead' (parts ++ [part]) e' := by
  have hall := h.performs.append hperforms
  obtain ⟨e₁, hbegin, hperforms⟩ := hperforms
  rw [Routine.body, List.append_assoc] at hperforms
  obtain ⟨e₂, hparams, hperforms⟩ := performs_append.mp hperforms
  obtain ⟨e₃, hinside, hend⟩ := performs_append.mp hperforms
  obtain ⟨q, hline, hheaded₁⟩ := h.beginFunction hbegin
  obtain ⟨params, hheaded⟩ := hheaded₁.addParameters hparams
  obtain ⟨hwithin, hcontrols, hcalls⟩ := r.inside.inside (r.returns ≠ .void) hheaded.quads
    hheaded.controls hheaded.calls (by simp [hheaded.body]) hinside
  obtain ⟨code, hstretch⟩ := hwithin.stretch
  obtain rfl := run_endFunction (hwithin.body.trans hheaded.body) (performs_singleton.mp hend)
  obtain ⟨hstaged, hjumps⟩ := hstretch.close hcalls (q := { op := .endFunction }) rfl rfl
  obtain ⟨part, hpart⟩ : ∃ part, r.part ((parts.flatMap (·.code)).length + 1) params code = part :=
    ⟨_, rfl⟩
  have hquads : (e₃.quads.push { op := .endFunction }).toList =
      q :: (parts ++ [part]).flatMap (·.code) := by
    simp [hstretch.quads, ← hpart, Routine.part]
  -- what callers knew before the function they know behind it
  have hknows : ∀ {name signature}, e.scope.signature? name = some signature →
      Scope.signature? e₃.scope.endFunction name = some signature := by
    intro name signature hknown
    show e₃.scope.signature? name = _
    rw [hwithin.signatures]
    exact hheaded.knows hknown
  have hsound : part.Sound e₃.scope.signature? (1 + (parts.flatMap (·.code)).length) := by
    rw [Nat.add_comm, ← hpart]
    exact ⟨rfl, hstaged, hjumps, by simp [Routine.part], hheaded.params⟩
  refine ⟨[q], part, {
    performs := hall
    quads := hquads
    functions := by simp [hwithin.functions, hheaded.functions, h.functions, ← hpart, Routine.part]
    inLine := (hline.mono hknows).snoc hsound
    emitted := ?_
    declared := ?_
    leads := .inr ⟨q, rfl, hwithin.leadingJump.trans hheaded.leadingJump⟩
    body := rfl
    controls := hcontrols
    calls := hcalls }⟩
  · intro part' hpart'
    rcases List.mem_append.mp hpart' with hold | hnew
    · exact (h.emitted part' hold).imp fun _ hemitted => hemitted.append _
    · have hemitted := h.emits_routine hbegin hheaded₁.quads hall hquads (by subst hpart; rfl)
      rw [List.mem_singleton.mp hnew]
      subst hpart
      exact ⟨r.returns, hemitted⟩
  · intro part' hpart'
    rcases List.mem_append.mp hpart' with hold | hnew
    · obtain ⟨signature, hsignature⟩ := Option.isSome_iff_exists.mp (h.declared part' hold)
      rw [hknows hsignature]
      rfl
    · rw [List.mem_singleton.mp hnew, ← hpart]
      show (e₃.scope.signature? r.name).isSome = true
      rw [hwithin.signatures]
      exact hheaded.declared

theorem Outlined.routines (h : Outlined done lead parts e) {routines : List Routine}
    (hperforms : Performs (routines.flatMap Routine.commands) e e') :
    ∃ lead' parts', Outlined (done ++ routines.flatMap Routine.commands) lead' parts' e' := by
  induction routines generalizing e done lead parts with
  | nil =>
    obtain rfl := hperforms
    exact ⟨lead, parts, by simpa using h⟩
  | cons r routines ih =>
    obtain ⟨mid, hfirst, hrest⟩ := performs_append.mp hperforms
    obtain ⟨lead', part, hmid⟩ := h.routine hfirst
    obtain ⟨lead'', parts', hlast⟩ := ih hmid hrest
    exact ⟨lead'', parts', by simpa using hlast⟩

/-! ### The main body -/

/-- The outline of a finished program: the jump over the functions if there are any, the code of
each function, and that of the main body, which ends the program. -/
structure Finished (done : List Command) (lead : List Quad) (parts : List Part) (main : Part)
    (e : Emitter) : Prop where
  quads : e.quads.toList = lead ++ (parts ++ [main]).flatMap (·.code)
  functions : e.functions = (parts ++ [main]).map fun part => (part.info.name, part.info)
  inLine : InLine e.scope.signature? lead.length (parts ++ [main])
  emitted : ∀ part ∈ parts, ∃ returns,
    Emits done (.beginFunction part.info.name returns) .endFunction part.start part.stop
  others : ∀ part ∈ parts, part.info.name ≠ mainName
  named : main.info.name = mainName
  last : Emits done .markMain .finish main.start main.stop

/-- An emitter at the start of the main body. -/
structure Marked (lead : List Quad) (parts : List Part) (e e' : Emitter) : Prop where
  quads : e'.quads.toList = lead ++ parts.flatMap (·.code)
  functions : e'.functions = e.functions.set mainName
    { name := mainName, entry := lead.length + (parts.flatMap (·.code)).length }
  scope : e'.scope = e.scope
  body : e'.body = none
  controls : e'.controls = []
  calls : e'.calls = []

/-- The main body starts where the code has come to, and the jump over the functions is filled in
with that. -/
theorem Outlined.markMain (h : Outlined done lead parts e)
    (hrun : (perform .markMain).run e = .ok () e') :
    ∃ lead', lead'.length = lead.length ∧ Marked lead' parts e e' := by
  have hensures : Emit.Ensures (perform .markMain) e (fun _ => True) fun _ e' =>
      ∃ lead', lead'.length = lead.length ∧ Marked lead' parts e e' := by
    simp only [perform, Emitter.markMain, ensures_bind, ensures_get]
    rcases h.leads with ⟨rfl, rfl, hjump⟩ | ⟨q, rfl, hjump⟩
    · have hquads : e.quads = #[] := by simpa using h.quads
      simp only [hjump, Option.isSome_none, Bool.false_eq_true, if_false, ensures_modify]
      exact ⟨[], rfl, by simp [hquads], by simp [hquads], rfl,
        by simp [h.body], h.controls, h.calls⟩
    · have hsize : e.quads.size = 1 + (parts.flatMap (·.code)).length := by
        rw [← Array.length_toList, h.quads, List.length_append, List.length_singleton]
      have hfirst : e.quads[0]? = some q := by
        rw [← Array.getElem?_toList, h.quads]
        rfl
      simp only [hjump, Option.isSome_some, if_true, ensures_bind, ensures_backpatchHere,
        ensures_backpatch, hfirst]
      split
      · simp only [ensures_modify, patched, Array.size_set!]
        refine ⟨[{ q with result := .jump e.quads.size }], rfl, ?_, ?_, rfl, by simp [h.body],
          h.controls, h.calls⟩
        · simp [Array.set!_eq_setIfInBounds, h.quads]
        · simp [hsize]
      · trivial
  exact hensures.ok hrun

theorem run_finish (hrun : (perform .finish).run e = .ok () e') :
    e' = { e with quads := e.quads.push { op := .halt } } := by
  have hensures : Emit.Ensures (perform .finish) e (fun _ => True) fun _ e' =>
      e' = { e with quads := e.quads.push { op := .halt } } := by
    simp [perform, finish]
  exact hensures.ok hrun

/-- The main body with its code, which ends the program. -/
def mainPart (start : Nat) (inside : List Quad) : Part where
  info := { name := mainName, entry := start }
  code := inside ++ [{ op := .halt }]

/-- The operations of the main body put its code behind that of the functions. -/
theorem Outlined.main (h : Outlined done lead parts e) {passage : Passage}
    (hmain : e'.scope.signature? mainName = none)
    (hperforms : Performs (.markMain :: (passage.commands ++ [.finish])) e e') :
    ∃ lead' main, Finished (done ++ .markMain :: (passage.commands ++ [.finish])) lead' parts main
      e' := by
  have hall := h.performs.append hperforms
  obtain ⟨e₁, hmark, hperforms⟩ := hperforms
  obtain ⟨e₂, hinside, hend⟩ := performs_append.mp hperforms
  obtain rfl := run_finish (performs_singleton.mp hend)
  obtain ⟨lead', hlead, hmarked⟩ := h.markMain hmark
  obtain ⟨hwithin, hcontrols, hcalls⟩ := passage.inside false hmarked.quads hmarked.controls
    hmarked.calls (by simp [hmarked.body]) hinside
  obtain ⟨code, hstretch⟩ := hwithin.stretch
  obtain ⟨hstaged, hjumps⟩ := hstretch.close hcalls (q := { op := .halt }) rfl rfl
  have hscope : e₂.scope.signature? = e.scope.signature? :=
    hwithin.signatures.trans (by rw [hmarked.scope])
  have hquads : (e₂.quads.push { op := .halt }).toList = lead' ++
      (parts ++ [mainPart (lead'.length + (parts.flatMap (·.code)).length) code]).flatMap
        (·.code) := by
    simp [hstretch.quads, mainPart]
  have hsound : (mainPart (lead'.length + (parts.flatMap (·.code)).length) code).Sound
      e₂.scope.signature? (lead'.length + (parts.flatMap (·.code)).length) := by
    rw [List.length_append] at hjumps
    exact ⟨rfl, hstaged, hjumps, by simp [mainPart], by simp [mainPart]⟩
  -- no function is listed as the main body, so that is listed last
  have hfresh := h.get?_eq_none (hscope ▸ hmain)
  refine ⟨lead', mainPart (lead'.length + (parts.flatMap (·.code)).length) code, hquads,
    ?_, ?_, ?_, ?_, rfl, done, passage.commands, [], rfl, ?_, ?_, ?_, ?_⟩
  · rw [hwithin.functions, hmarked.functions, Directory.set_fresh hfresh, h.functions,
      List.map_append]
    rfl
  · refine InLine.snoc ?_ hsound
    rw [hlead, hscope]
    exact h.inLine
  · exact fun part hpart => (h.emitted part hpart).imp fun _ hemitted => hemitted.append _
  · intro part hpart
    rw [h.functions, Directory.get?_eq_none] at hfresh
    exact hfresh _ (List.mem_map_of_mem hpart)
  · exact fun command hmem => Command.bounds_of_inner (passage.inner command hmem)
  · left
    rw [h.performs.codeSize_eq h.quads, List.length_append, ← hlead]
    rfl
  · rw [(h.performs.append (performs_singleton.mpr hmark)).codeSize_eq hmarked.quads,
      List.length_append]
    rfl
  · rw [hall.codeSize_eq hquads, List.flatMap_append, List.flatMap_singleton, List.length_append,
      List.length_append, ← Nat.add_assoc]
    rfl

/-- What the operations of a program emit. -/
theorem Script.finished (s : Script) (hperforms : Performs s.commands {} e)
    (hmain : e.scope.signature? mainName = none) :
    ∃ lead parts main, Finished s.commands lead parts main e := by
  obtain ⟨e₁, hheader, hperforms⟩ := hperforms
  rw [List.append_assoc] at hperforms
  obtain ⟨e₂, hglobals, hperforms⟩ := performs_append.mp hperforms
  obtain ⟨e₃, hroutines, hrest⟩ := performs_append.mp hperforms
  have hopened := (outlined_initProgram hheader).variables s.declares hglobals
  obtain ⟨lead, parts, houtlined⟩ := hopened.routines hroutines
  obtain ⟨lead', main, hfinished⟩ := houtlined.main hmain hrest
  exact ⟨lead', parts, main, by simpa [Script.commands] using hfinished⟩

end Outlined

end Emitter

end DuckLang
