import DuckLang.Proofs.Emitter.Changes
import DuckLang.Proofs.Emitter.Declaration

/-! Scoping.  A scope answers as the operations that succeeded say, whatever the order they came in
and however many others failed among them. -/

namespace DuckLang.Scope

/-! ### Runs of operations -/

/-- The scope that operations leave, one after the other, whether they fail or not. -/
def runAll (s : Scope) : List Command → Scope
  | [] => s
  | c :: cs =>
    match s.perform c with
    | .ok _ s' | .error _ s' => s'.runAll cs

/-- The operations among those that succeed. -/
def succeeded (s : Scope) : List Command → List Command
  | [] => []
  | c :: cs =>
    match s.perform c with
    | .ok _ s' => c :: s'.succeeded cs
    | .error _ s' => s'.succeeded cs

/-! ### What operations declare -/

/-- What operations on a program have declared, in the order they did. -/
structure Account where
  program : String
  /-- The scope that declarations go to. -/
  place : String := program
  /-- The type set last. -/
  type : Option DataType := none
  /-- The functions begun, with their return types. -/
  begun : List (String × DataType) := []
  /-- The names declared, each with the scope it was declared in. -/
  declared : List (String × Symbol) := []

namespace Account

def declare (a : Account) (symbol : Symbol) : Account :=
  { a with declared := a.declared ++ [(a.place, symbol)] }

/-- An account with an operation that succeeded added to it. -/
def note (a : Account) : Command → Account
  | .initProgram _ => a
  | .setType type => { a with type := some type }
  | .beginFunction name returns => { a with place := name, begun := a.begun ++ [(name, returns)] }
  | .endFunction => { a with place := a.program }
  | .addVariable name address =>
    match a.type with
    | none => a
    | some type => a.declare { name, type, address, origin := .variable }
  | .addParameter name type address => a.declare { name, type, address, origin := .parameter }

/-- The names declared in a scope. -/
def symbols (a : Account) (scope : String) : List Symbol :=
  (a.declared.filter (·.1 = scope)).map (·.2)

/-- The first declaration of a name in a scope. -/
def first? (a : Account) (scope name : String) : Option Symbol :=
  (a.declared.find? fun d => d.1 = scope ∧ d.2.name = name).map (·.2)

/-- The entry of a function that was begun. -/
def entry (a : Account) (function : String × DataType) : Entry where
  name := function.1
  returns := function.2
  symbols := a.symbols function.1
  params := (a.symbols function.1).filter (·.origin = .parameter)

/-- The entry of the program. -/
def home (a : Account) : Entry :=
  { name := a.program, symbols := a.symbols a.program, isProgram := true }

/-- The scope that an account tells of. -/
def scope (a : Account) : Scope where
  program := a.program
  entries := a.home :: a.begun.map a.entry
  current := a.place
  declaring := a.type

/-- The names of the program and of the functions begun. -/
def names (a : Account) : List String :=
  a.program :: a.begun.map (·.1)

/-- An account that operations can leave. -/
structure Lawful (a : Account) : Prop where
  named : a.program ≠ ""
  distinct : a.names.Nodup
  inside : a.place ∈ a.names
  known : ∀ d ∈ a.declared, d.1 ∈ a.names

variable {a : Account}

/-! ### Lookups in the scope of an account -/

theorem names_scope (a : Account) : a.scope.entries.map (·.name) = a.names := by
  simp [scope, names, home, entry, Function.comp_def]

theorem entryOf?_scope (a : Account) (name : String) :
    a.scope.entryOf? name =
      if name = a.program then some a.home
      else (a.begun.find? (·.1 = name)).map a.entry := by
  by_cases hname : name = a.program
  · simp [entryOf?, scope, home, hname]
  · simp only [entryOf?, scope, List.find?_cons, home, Ne.symm hname, decide_false, if_neg hname,
      List.find?_map]
    rfl

theorem symbol?_symbols (a : Account) (scope name : String) :
    (a.symbols scope).find? (·.name = name) = a.first? scope name := by
  simp [symbols, first?, List.find?_map, List.find?_filter]

theorem symbol?_scope (a : Account) {scope : String} (h : scope ∈ a.names) (name : String) :
    (a.scope.entryOf? scope).bind (·.symbol? name) = a.first? scope name := by
  rw [entryOf?_scope]
  split
  · rename_i hprogram
    subst hprogram
    exact symbol?_symbols a a.program name
  · rename_i hprogram
    have hbegun : scope ∈ a.begun.map (·.1) := (List.mem_cons.mp h).resolve_left hprogram
    cases hfound : a.begun.find? (·.1 = scope) with
    | none =>
      obtain ⟨function, hfunction, rfl⟩ := List.mem_map.mp hbegun
      exact absurd (List.find?_eq_none.mp hfound function hfunction) (by simp)
    | some function =>
      have hname : function.1 = scope := by simpa using List.find?_some hfound
      subst hname
      exact symbol?_symbols a function.1 name

theorem Lawful.lookupVariable_scope (h : a.Lawful) (name : String) :
    a.scope.lookupVariable name =
      match (a.first? a.place name).or (a.first? a.program name) with
      | some symbol => .ok symbol
      | none => .error (.undeclaredVariable name) := by
  have hplace : a.scope.currentScope?.bind (·.symbol? name) = a.first? a.place name :=
    symbol?_scope a h.inside name
  have hprogram : (a.scope.entryOf? a.scope.program).bind (·.symbol? name) =
      a.first? a.program name := symbol?_scope a List.mem_cons_self name
  rw [lookupVariable, symbol?, hplace, hprogram]
  cases a.first? a.place name <;> rfl

theorem Lawful.lookupFunction_scope (h : a.Lawful) (name : String) :
    a.scope.lookupFunction name =
      match a.begun.find? (·.1 = name) with
      | some function => .ok (a.entry function)
      | none => .error (.undefinedFunction name) := by
  rw [lookupFunction, entryOf?_scope]
  by_cases hname : name = a.program
  · have hfresh : name ∉ a.begun.map (·.1) := hname ▸ (List.nodup_cons.mp h.distinct).1
    have hnone : a.begun.find? (·.1 = name) = none := by
      rw [List.find?_eq_none]
      intro function hfunction heq
      exact hfresh (List.mem_map.mpr ⟨function, hfunction, by simpa using heq⟩)
    rw [if_pos hname, hnone]
    exact if_pos hname
  · rw [if_neg hname]
    cases a.begun.find? (·.1 = name) with
    | none => rfl
    | some function => exact if_neg hname

theorem functions_scope (a : Account) : a.scope.functions = a.begun.map a.entry := by
  have hfunctions : ∀ e ∈ a.begun.map a.entry, (!e.isProgram) = true := by
    intro e he
    obtain ⟨function, _, rfl⟩ := List.mem_map.mp he
    rfl
  simp [functions, scope, home, List.filter_eq_self.mpr hfunctions]

end Account

/-! ### One operation -/

/-- An entry with a name declared in it. -/
def Entry.declare (symbol : Symbol) (e : Entry) : Entry :=
  { e with
    symbols := e.symbols ++ [symbol]
    params := e.params ++ [symbol].filter (·.origin = .parameter) }

/-- Putting in a changed entry changes the one with its name. -/
theorem putEntry_change {f : Entry → Entry} (hname : ∀ e, (f e).name = e.name) {x : Entry}
    {entries : List Entry} (hdistinct : (entries.map (·.name)).Nodup) (hx : x ∈ entries) :
    putEntry (f x) entries = entries.map fun e => if e.name = x.name then f e else e := by
  induction entries with
  | nil => cases hx
  | cons e es ih =>
    obtain ⟨hfresh, hrest⟩ := List.nodup_cons.mp hdistinct
    simp only [putEntry, hname, List.map_cons]
    rcases List.mem_cons.mp hx with rfl | hmem
    · -- `putEntry` stops at the first entry with the name, and there is no other
      have hothers : ∀ e ∈ es, (if e.name = x.name then f e else e) = e := by
        intro e he
        rw [if_neg]
        exact fun heq => hfresh (List.mem_map.mpr ⟨e, he, heq⟩)
      rw [if_pos rfl, if_pos rfl, List.map_congr_left hothers, List.map_id']
    · have hne : e.name ≠ x.name := fun heq => hfresh (List.mem_map.mpr ⟨x, hmem, heq.symm⟩)
      rw [if_neg hne, if_neg hne, ih hrest hmem]

namespace Account

variable {a : Account} {entry : Entry} {symbol : Symbol} {s : Scope}

theorem symbols_declare (a : Account) (symbol : Symbol) (scope : String) :
    (a.declare symbol).symbols scope =
      a.symbols scope ++ if scope = a.place then [symbol] else [] := by
  by_cases hscope : scope = a.place
  · simp [symbols, declare, hscope]
  · simp [symbols, declare, hscope, Ne.symm hscope]

theorem home_declare (hplace : symbol.origin = .parameter → a.place ≠ a.program) :
    (a.declare symbol).home = if a.program = a.place then a.home.declare symbol else a.home := by
  have hsymbols : (a.declare symbol).symbols (a.declare symbol).program = a.symbols a.program ++
      if a.program = a.place then [symbol] else [] := symbols_declare a symbol a.program
  rw [home, hsymbols]
  split
  · rename_i hprogram
    have hvariable : symbol.origin ≠ .parameter := fun hparameter => hplace hparameter hprogram.symm
    simp [home, Entry.declare, declare, hvariable]
  · simp [home, declare]

theorem entry_declare (function : String × DataType) :
    (a.declare symbol).entry function =
      if function.1 = a.place then (a.entry function).declare symbol else a.entry function := by
  simp only [Account.entry, symbols_declare]
  split <;> simp [Entry.declare]

/-- A name declared in the current scope is added to what the account says of it. -/
theorem Lawful.put_declare (h : a.Lawful) (hentry : a.scope.currentScope? = some entry)
    (symbol : Symbol) (hplace : symbol.origin = .parameter → a.place ≠ a.program) :
    a.scope.put (entry.declare symbol) = (a.declare symbol).scope := by
  have hname : entry.name = a.place := entryOf?_name hentry
  have hmem : entry ∈ a.scope.entries := by
    simp only [currentScope?, entryOf?] at hentry
    exact List.mem_of_find?_eq_some hentry
  have hdistinct : (a.scope.entries.map (·.name)).Nodup := by
    rw [names_scope]
    exact h.distinct
  have hentries : putEntry (entry.declare symbol) a.scope.entries =
      (a.declare symbol).scope.entries := by
    rw [putEntry_change (f := Entry.declare symbol) (fun _ => rfl) hdistinct hmem, hname]
    simp only [scope, List.map_cons, List.map_map, home_declare hplace]
    congr 1
    exact List.map_congr_left fun function _ => (entry_declare function).symm
  rw [put, hentries]
  rfl

theorem Lawful.declare (h : a.Lawful) (symbol : Symbol) : (a.declare symbol).Lawful where
  named := h.named
  distinct := h.distinct
  inside := h.inside
  known := by
    intro d hd
    rcases List.mem_append.mp hd with hold | hnew
    · exact h.known d hold
    · rw [List.mem_singleton.mp hnew]
      exact h.inside

theorem Lawful.symbols_fresh (h : a.Lawful) {name : String} (hfresh : name ∉ a.names) :
    a.symbols name = [] := by
  simp only [symbols, List.map_eq_nil_iff, List.filter_eq_nil_iff]
  intro d hd hname
  exact hfresh (of_decide_eq_true hname ▸ h.known d hd)

/-- A function that is begun has no names yet. -/
theorem Lawful.begin (h : a.Lawful) {name : String} {returns : DataType}
    (hok : a.scope.beginFunction name returns = .ok () s) :
    s = (a.note (.beginFunction name returns)).scope ∧
      (a.note (.beginFunction name returns)).Lawful := by
  obtain ⟨_, _, hfree, rfl⟩ := beginFunction_ok hok
  have hfresh : name ∉ a.names := by
    intro hmem
    obtain ⟨entry, hentry, hname⟩ := List.mem_map.mp (names_scope a ▸ hmem)
    exact List.find?_eq_none.mp hfree entry hentry (decide_eq_true hname)
  have hnames : (a.note (.beginFunction name returns)).names = a.names ++ [name] := by
    simp [names, note]
  refine ⟨?_, h.named, ?_, ?_, ?_⟩
  · have hentry : a.entry (name, returns) = { name, returns } := by
      simp [Account.entry, h.symbols_fresh hfresh]
    simp only [note, scope, List.map_append, List.map_cons, List.map_nil, List.cons_append]
    rw [← hentry]
    rfl
  · rw [hnames, List.nodup_append]
    refine ⟨h.distinct, by simp, ?_⟩
    rintro other hother _ hname rfl
    exact hfresh (List.mem_singleton.mp hname ▸ hother)
  · rw [hnames]
    exact List.mem_append_right _ List.mem_cons_self
  · intro d hd
    rw [hnames]
    exact List.mem_append_left _ (h.known d hd)

/-- An operation that succeeds leaves the scope of the account with the operation added. -/
theorem Lawful.perform (h : a.Lawful) {c : Command} (hok : a.scope.perform c = .ok () s) :
    s = (a.note c).scope ∧ (a.note c).Lawful := by
  cases c with
  | initProgram name =>
    have hnamed : a.scope.program ≠ "" := h.named
    simp [Scope.perform, Scope.initProgram, hnamed] at hok
  | setType type =>
    obtain ⟨_, rfl⟩ := EStateM.Result.ok.inj hok
    exact ⟨rfl, h.named, h.distinct, h.inside, h.known⟩
  | beginFunction name returns => exact h.begin hok
  | endFunction =>
    obtain ⟨_, rfl⟩ := EStateM.Result.ok.inj hok
    exact ⟨rfl, h.named, h.distinct, List.mem_cons_self, h.known⟩
  | addVariable name address =>
    obtain ⟨type, entry, htype, hentry, rfl⟩ := addVariable_ok hok
    have hput := h.put_declare hentry ⟨name, type, address, .variable⟩ (by simp)
    have hnote : a.note (.addVariable name address) =
        a.declare ⟨name, type, address, .variable⟩ := by
      simp only [note, show a.type = some type from htype]
    rw [hnote, ← hput]
    exact ⟨by simp [Entry.declare], h.declare _⟩
  | addParameter name type address =>
    obtain ⟨hinside, entry, hentry, rfl⟩ := addParameter_ok hok
    -- the program has no parameters, so its entry never lists one
    have hlocal : a.place ≠ a.program := of_decide_eq_false hinside
    exact ⟨h.put_declare hentry ⟨name, type, address, .parameter⟩ fun _ => hlocal, h.declare _⟩

/-- Operations leave the scope of the account of those that succeeded. -/
theorem Lawful.runAll (h : a.Lawful) (cs : List Command) :
    a.scope.runAll cs = ((a.scope.succeeded cs).foldl note a).scope ∧
      ((a.scope.succeeded cs).foldl note a).Lawful := by
  induction cs generalizing a with
  | nil => exact ⟨rfl, h⟩
  | cons c cs ih =>
    simp only [Scope.runAll, succeeded]
    cases hperform : a.scope.perform c with
    | error cause s =>
      obtain rfl := (perform_error hperform).1
      exact ih h
    | ok _ s =>
      -- the scope is that of an account again, so the rest starts from one
      obtain ⟨rfl, hnote⟩ := h.perform hperform
      exact ih hnote

end Account

/-! ### All operations after the header -/

/-- What operations on a program have declared. -/
def account (program : String) (commands : List Command) : Account :=
  commands.foldl Account.note { program }

theorem lawful_account {program : String} {opened : Scope} (hnamed : program ≠ "")
    (hopened : ({} : Scope).initProgram program = .ok () opened) (commands : List Command) :
    opened.runAll commands = (account program (opened.succeeded commands)).scope ∧
      (account program (opened.succeeded commands)).Lawful := by
  obtain ⟨_, rfl⟩ := EStateM.Result.ok.inj hopened
  have hlawful : Account.Lawful { program } :=
    ⟨hnamed, by simp [Account.names], List.mem_cons_self, by simp⟩
  exact hlawful.runAll commands

theorem program_account (program : String) (commands : List Command) :
    (account program commands).program = program := by
  have hnote : ∀ (a : Account) (c : Command), (a.note c).program = a.program := by
    intro a c
    cases c with
    | addVariable name address =>
      simp only [Account.note]
      split <;> rfl
    | _ => rfl
  have hfold : ∀ a : Account, (commands.foldl Account.note a).program = a.program := by
    induction commands with
    | nil => exact fun _ => rfl
    | cons c cs ih => exact fun a => (ih _).trans (hnote a c)
  exact hfold { program }

/-- An emitter with an operation done on its scope, whether it fails or not. -/
def operate (e : Emitter) (c : Command) : Emitter :=
  Emitter.leave (Emitter.changeScope (·.perform c)) e

theorem foldl_operate (e : Emitter) (commands : List Command) :
    commands.foldl operate e = { e with scope := e.scope.runAll commands } := by
  induction commands generalizing e with
  | nil => rfl
  | cons c cs ih =>
    simp only [List.foldl_cons, Scope.runAll]
    cases hperform : e.scope.perform c with
    | error cause s =>
      obtain rfl := (perform_error hperform).1
      have hkept : operate e c = e := by
        rw [operate, Emitter.leave, Emitter.run_changeScope_error (keeps_perform c) hperform]
      rw [hkept, ih]
    | ok _ s =>
      have hchanged : operate e c = { e with scope := s } := by
        rw [operate, Emitter.leave, @Emitter.run_changeScope_ok e (·.perform c) s hperform]
      rw [hchanged, ih]

/-- A scope answers as the operations that succeeded since the header say: a variable is what it was
first declared as in the current scope, else in the program; a function is what was begun under its
name, with its parameters in order.  An operation that fails leaves everything as it was. -/
theorem lookups_of_succeeded {program : String} {opened : Scope} (hnamed : program ≠ "")
    (hopened : ({} : Scope).initProgram program = .ok () opened) (commands : List Command) :
    let s := opened.runAll commands
    let a := account program (opened.succeeded commands)
    (∀ x, s.lookupVariable x =
        match (a.first? a.place x).or (a.first? program x) with
        | some symbol => .ok symbol
        | none => .error (.undeclaredVariable x)) ∧
      (∀ f, s.lookupFunction f =
        match a.begun.find? (·.1 = f) with
        | some function => .ok (a.entry function)
        | none => .error (.undefinedFunction f)) ∧
      (a.begun.map (·.1)).Nodup ∧
      s.lookupFunction program = .error (.undefinedFunction program) ∧
      s.functions = a.begun.map a.entry ∧
      (∀ name, (Cause.undeclaredVariable name).kind = .name ∧
        (Cause.undefinedFunction name).kind = .name) ∧
      ∀ e : Emitter, e.scope = opened →
        commands.foldl operate e = { e with scope := s } ∧
        ∀ c cause left, s.perform c = .error cause left → left = s ∧
          (Emitter.changeScope (·.perform c)).run { e with scope := s } =
            .error cause { e with scope := s } := by
  intro s a
  obtain ⟨hscope, hlawful⟩ := lawful_account hnamed hopened commands
  have hs : s = a.scope := hscope
  have hprogram : a.program = program := program_account program _
  have hfunction := hlawful.lookupFunction_scope
  rw [← hscope] at hfunction
  obtain ⟨hfresh, hdistinct⟩ := List.nodup_cons.mp hlawful.distinct
  refine ⟨fun x => ?_, hfunction, hdistinct, ?_, ?_, fun _ => ⟨rfl, rfl⟩, fun e he => ⟨?_, ?_⟩⟩
  · rw [hs, ← hprogram]
    exact hlawful.lookupVariable_scope x
  · have hunbegun : a.begun.find? (·.1 = program) = none := by
      rw [List.find?_eq_none]
      intro function hmem hname
      have hsame : function.1 = a.program := (of_decide_eq_true hname).trans hprogram.symm
      exact hfresh (List.mem_map.mpr ⟨function, hmem, hsame⟩)
    rw [hfunction program, hunbegun]
  · rw [hs]
    exact Account.functions_scope a
  · rw [foldl_operate, he]
  · intro c cause left hfails
    exact ⟨(perform_error hfails).1, Emitter.run_changeScope_error (keeps_perform c) hfails⟩

/-- Names declared twice, functions begun inside each other and an operation that comes too late. -/
def tangle : List Command :=
  [.setType .int, .addVariable "x" 0, .beginFunction "f" .float, .addParameter "x" .char 1,
    .addParameter "x" .int 2, .beginFunction "g" .void, .beginFunction "f" .int,
    .beginFunction "p" .int, .addVariable "y" 3, .addParameter "z" .float 4, .initProgram "q"]

theorem lookups_of_tangle : ∃ opened : Scope, ({} : Scope).initProgram "p" = .ok () opened ∧
    (opened.runAll tangle).lookupVariable "x" = .ok ⟨"x", .int, 0, .variable⟩ ∧
    (opened.runAll tangle).lookupFunction "f" = .ok
      { name := "f", returns := .float
        symbols := [⟨"x", .char, 1, .parameter⟩], params := [⟨"x", .char, 1, .parameter⟩] } ∧
    (opened.runAll tangle).lookupFunction "p" = .error (.undefinedFunction "p") ∧
    (opened.runAll tangle).functions.map (·.name) = ["f", "g"] := by
  have hnamed : "p" ≠ "" := by decide
  obtain ⟨hvariable, hfunction, _, hprogram, hfunctions, _⟩ :=
    @lookups_of_succeeded "p" _ hnamed rfl tangle
  refine ⟨_, rfl, (hvariable "x").trans ?_, (hfunction "f").trans ?_, hprogram, ?_⟩
  · decide
  · decide
  · rw [hfunctions]
    decide

end DuckLang.Scope
