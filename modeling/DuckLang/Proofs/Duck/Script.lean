import DuckLang.Proofs.Duck.Table
import DuckLang.Proofs.Emitter.Outline
import DuckLang.Proofs.Parser.Yield

/-! The operations of a source text.  Each phrase of the Duck language has operations of a shape:
declarations declare variables, a function is a routine, and statements and expressions stay within
a body and close what they open.  So the operations of a parse that accepts are a script. -/

namespace DuckLang.Duck

open Emitter (Command Passage Routine Script balance)
open DuckLang.Parser (Closed Effect YieldsAll reduceCommands reduceEffect shiftCommands typed
  run_bind_ok typeOf_ok)
open Grammar.Duck (rule t n)

/-- The shape of the operations behind a symbol. -/
inductive Shape where
  | exactly (commands : List Command)
  | declarations
  /-- Operations within a body, with the constructs and the calls they leave open. -/
  | inner (opens : Int × Int)
  | header
  | functionHeader
  | parameters
  | functions
  | program

namespace Shape

/-- Operations within a body that leave constructs and calls open. -/
def Leaves (opens : Int × Int) (commands : List Command) : Prop :=
  (∀ command ∈ commands, command.isInner = true) ∧ balance commands = opens

/-- Operations of a shape. -/
def Holds : Shape → List Command → Prop
  | exactly commands, commands' => commands' = commands
  | declarations, commands => ∀ command ∈ commands, command.isVariable = true
  | inner opens, commands => Leaves opens commands
  | header, commands => ∃ name, commands = [.initProgram name]
  | functionHeader, commands => ∃ name returns, (returns = .void ∨ returns.isStorable = true) ∧
      commands = [.beginFunction name returns]
  | parameters, commands => ∃ params : List (String × DataType),
      commands = params.map fun p => .addParameter p.1 p.2
  | functions, commands => ∃ routines : List Routine, commands = routines.flatMap Routine.commands
  | program, commands => ∃ script : Script, commands = script.commands

/-- The tokens that have an operation. -/
def tokens : List (String × List Command) :=
  [("if", [.enterIf]), ("while", [.enterWhile]), ("then", [.leaveHeader]), ("do", [.leaveHeader]),
   ("else", [.enterElse]), ("main", [.markMain])]

/-- The phrases that are not statements or expressions, and the head of a call. -/
def phrases : List (String × Shape) :=
  [("Program", program), ("ProgHeader", header), ("VarsOpt", declarations),
   ("VarList", declarations), ("VarDecl", declarations), ("VarType", declarations),
   ("IdList", declarations), ("Type", exactly []), ("RetType", exactly []), ("Funcs", functions),
   ("Func", functions), ("FuncHeader", functionHeader), ("ParamsOpt", parameters),
   ("ParamList", parameters),
   ("Param", parameters), ("CallHead", inner (0, 1))]

/-- The shape of a symbol. -/
def of : Grammar.Symbol → Shape
  | .terminal name => exactly ((tokens.lookup name).getD [])
  | .nonterminal name => (phrases.lookup name).getD (inner (0, 0))

/-- A symbol without operations. -/
def isQuiet : Shape → Bool
  | exactly [] => true
  | _ => false

/-- The operations behind a symbol. -/
abbrev Language (symbol : Grammar.Symbol) (commands : List Command) : Prop :=
  (of symbol).Holds commands

theorem holds_token (t : Token) : Language (.terminal t.terminal) (shiftCommands t.kind) := by
  obtain ⟨kind, text, line⟩ := t
  cases kind <;> rfl

/-! ### Phrases within a body -/

/-- What operations of a shape leave open, if they stay within a body. -/
def opens? : Shape → Option (Int × Int)
  | exactly commands => if commands.all (·.isInner) then some (balance commands) else none
  | declarations => some (0, 0)
  | inner opens => some opens
  | _ => none

theorem leaves_nil : Leaves (0, 0) [] :=
  ⟨by simp, rfl⟩

theorem leaves_singleton {command : Command} (h : command.isInner = true) :
    Leaves command.opens [command] :=
  ⟨by simpa using h, by simp [balance]⟩

theorem Leaves.append {opens opens' : Int × Int} {commands commands' : List Command}
    (h : Leaves opens commands) (h' : Leaves opens' commands') :
    Leaves (opens.1 + opens'.1, opens.2 + opens'.2) (commands ++ commands') :=
  ⟨List.forall_mem_append.mpr ⟨h.1, h'.1⟩, by rw [Emitter.balance_append, h.2, h'.2]⟩

theorem Holds.leaves {shape : Shape} {opens : Int × Int} {commands : List Command}
    (h : shape.Holds commands) (hopens : shape.opens? = some opens) : Leaves opens commands := by
  cases shape with
  | exactly commands' =>
    obtain rfl : commands = commands' := h
    simp only [opens?] at hopens
    split at hopens
    · rename_i hall
      exact ⟨List.all_eq_true.mp hall, Option.some.inj hopens⟩
    · cases hopens
  | declarations =>
    obtain rfl := Option.some.inj hopens
    exact Emitter.balance_of_isVariable h
  | inner opens' =>
    obtain rfl := Option.some.inj hopens
    exact h
  | _ => cases hopens

/-- What the operations behind symbols leave open, if all of them stay within a body. -/
def opensAll : List Grammar.Symbol → Option (Int × Int)
  | [] => some (0, 0)
  | symbol :: symbols =>
    match (of symbol).opens?, opensAll symbols with
    | some first, some rest => some (first.1 + rest.1, first.2 + rest.2)
    | _, _ => none

theorem leaves_of_yieldsAll {symbols : List Grammar.Symbol} {opens : Int × Int}
    {commands : List Command} (h : YieldsAll Language symbols commands)
    (hopens : opensAll symbols = some opens) : Leaves opens commands := by
  induction symbols generalizing commands opens with
  | nil =>
    obtain rfl : commands = [] := h
    obtain rfl := Option.some.inj hopens
    exact leaves_nil
  | cons symbol symbols ih =>
    obtain ⟨first, rest, rfl, hfirst, hrest⟩ := h
    simp only [opensAll] at hopens
    split at hopens
    · rename_i hopens₁ hopens₂
      obtain rfl := Option.some.inj hopens
      exact (hfirst.leaves hopens₁).append (ih hrest hopens₂)
    · cases hopens

/-! ### The operations of rules -/

/-- What the operations of a rule leave open, if they stay within a body. -/
def effectOpens? : Effect → Option (Int × Int)
  | .openProgram | .closeProgram | .beginFunction | .addParameter | .endFunction => none
  | .endIf | .endWhile => some (-1, 0)
  | .beginCall => some (0, 1)
  | .endCall => some (0, -1)
  | _ => some (0, 0)

/-- A rule that opens or closes a call has the attributes that it needs for it. -/
theorem size_of_call {head : String} {size : Nat} {effect : Effect}
    (h : Effect.of? head size = some effect) :
    (effect = .beginCall → size = 1) ∧ (effect = .endCall → size = 4) := by
  have hrules : ∀ r ∈ Effect.rules,
      (r.2 = .beginCall → r.1.2 = 1) ∧ (r.2 = .endCall → r.1.2 = 4) := by decide
  obtain ⟨before, behind, hsplit, _⟩ := List.lookup_eq_some_iff.mp h
  exact hrules ((head, size), effect) (by simp [hsplit])

theorem leaves_effect {effect : Effect} {head : String} {attributes : List Attribute}
    {opens : Int × Int} (h : Effect.of? head attributes.length = some effect)
    (hopens : effectOpens? effect = some opens) : Leaves opens (effect.commands attributes) := by
  obtain ⟨hbegin, hend⟩ := size_of_call h
  unfold Effect.commands
  split
  case h_3 type =>
    obtain rfl := Option.some.inj hopens
    rw [typed]
    cases DataType.ofKeyword? type.text <;> first | exact leaves_nil | exact leaves_singleton rfl
  case h_14 =>
    obtain rfl := Option.some.inj hopens
    split
    · exact (leaves_singleton rfl).append (leaves_singleton rfl)
    · exact leaves_singleton rfl
  case h_27 | h_28 =>
    obtain rfl := Option.some.inj hopens
    split <;> first | exact leaves_nil | exact leaves_singleton rfl
  case h_29 =>
    -- the attributes of another number than the rule has, or a rule without operations
    cases effect with
    | beginCall =>
      obtain ⟨name, rfl⟩ := List.length_eq_one_iff.mp (hbegin rfl)
      exfalso
      solve_by_elim
    | endCall =>
      cases attributes with
      | nil => cases hend rfl
      | cons _ _ =>
        exfalso
        solve_by_elim
    | closeProgram | endFunction | endIf | endWhile =>
      exfalso
      solve_by_elim
    | _ => cases hopens <;> exact leaves_nil
  all_goals cases hopens <;> exact leaves_singleton rfl

/-! ### Productions -/

/-- A production that makes operations of its head out of those of its body. -/
def Fits (p : Grammar.Production) : Prop :=
  ∀ {commands : List Command} {attributes : List Attribute}, YieldsAll Language p.body commands →
    attributes.length = p.body.length →
    (∃ a e e', (reduceEffect p.head attributes).run e = .ok a e') →
    Language (.nonterminal p.head) (commands ++ reduceCommands p.head attributes)

/-- What the rule of a production leaves open on its own. -/
def ruleOpens? (p : Grammar.Production) : Option (Int × Int) :=
  match Effect.of? p.head p.body.length with
  | some effect => effectOpens? effect
  | none => some (0, 0)

/-- A production within a body leaves open what its head says. -/
def closes (p : Grammar.Production) : Bool :=
  match of (.nonterminal p.head), opensAll p.body, ruleOpens? p with
  | inner opens, some body, some own => opens = (body.1 + own.1, body.2 + own.2)
  | _, _, _ => false

theorem leaves_reduce {p : Grammar.Production} {attributes : List Attribute} {opens : Int × Int}
    (hlength : attributes.length = p.body.length) (hopens : ruleOpens? p = some opens) :
    Leaves opens (reduceCommands p.head attributes) := by
  rw [ruleOpens?, ← hlength] at hopens
  rw [reduceCommands]
  cases heffect : Effect.of? p.head attributes.length with
  | none =>
    rw [heffect] at hopens
    obtain rfl := Option.some.inj hopens
    exact leaves_nil
  | some effect =>
    rw [heffect] at hopens
    exact leaves_effect heffect hopens

theorem fits_of_closes {p : Grammar.Production} (h : closes p = true) : Fits p := by
  intro commands attributes hbody hlength _
  simp only [closes] at h
  split at h
  · rename_i hof hopens hown
    obtain rfl := of_decide_eq_true h
    show (of _).Holds _
    rw [hof]
    exact (leaves_of_yieldsAll hbody hopens).append (leaves_reduce hlength hown)
  · cases h

set_option maxRecDepth 10000 in
theorem fits_inner : ∀ p ∈ Grammar.Duck.statementRules ++ Grammar.Duck.expressionRules, Fits p := by
  have hcloses : ∀ p ∈ Grammar.Duck.statementRules ++ Grammar.Duck.expressionRules,
      closes p = true := by decide
  exact fun p hp => fits_of_closes (hcloses p hp)

theorem yieldsAll_tail {symbol : Grammar.Symbol} {symbols : List Grammar.Symbol}
    {commands : List Command} (h : YieldsAll Language (symbol :: symbols) commands)
    (hquiet : (of symbol).isQuiet = true) : YieldsAll Language symbols commands := by
  obtain ⟨first, rest, rfl, hfirst, hrest⟩ := h
  revert hfirst
  rw [Language]
  cases hshape : of symbol with
  | exactly commands =>
    rw [hshape] at hquiet
    rintro rfl
    cases first with
    | nil => exact hrest
    | cons => cases hquiet
  | _ =>
    rw [hshape] at hquiet
    cases hquiet

theorem eq_nil_of_yieldsAll {symbols : List Grammar.Symbol} {commands : List Command}
    (h : YieldsAll Language symbols commands)
    (hquiet : ∀ symbol ∈ symbols, (of symbol).isQuiet = true) : commands = [] := by
  induction symbols with
  | nil => exact h
  | cons symbol symbols ih =>
    obtain ⟨hfirst, hrest⟩ := List.forall_mem_cons.mp hquiet
    exact ih (yieldsAll_tail h hfirst) hrest

theorem reduceCommands_plain {head : String} {attributes : List Attribute} {size : Nat}
    (hlength : attributes.length = size) (hrule : Effect.of? head size = none) :
    reduceCommands head attributes = [] := by
  rw [reduceCommands, hlength, hrule]

theorem reduceCommands_effect {head : String} {attributes : List Attribute} {size : Nat}
    {effect : Effect} (hlength : attributes.length = size)
    (hrule : Effect.of? head size = some effect) :
    reduceCommands head attributes = effect.commands attributes := by
  rw [reduceCommands, hlength, hrule]

/-! ### Declarations -/

/-- A shape of operations that only declare variables. -/
def declares : Shape → Bool
  | exactly [] | declarations => true
  | _ => false

theorem declares_of_yieldsAll {symbols : List Grammar.Symbol} {commands : List Command}
    (h : YieldsAll Language symbols commands)
    (hdeclares : ∀ symbol ∈ symbols, (of symbol).declares = true) :
    ∀ command ∈ commands, command.isVariable = true := by
  induction symbols generalizing commands with
  | nil =>
    obtain rfl : commands = [] := h
    simp
  | cons symbol symbols ih =>
    obtain ⟨first, rest, rfl, hfirst, hrest⟩ := h
    obtain ⟨hsymbol, hsymbols⟩ := List.forall_mem_cons.mp hdeclares
    refine List.forall_mem_append.mpr ⟨?_, ih hrest hsymbols⟩
    revert hfirst
    rw [Language]
    cases hshape : of symbol with
    | exactly commands =>
      rw [hshape] at hsymbol
      rintro rfl
      cases first with
      | nil => simp
      | cons => cases hsymbol
    | declarations => exact id
    | _ =>
      rw [hshape] at hsymbol
      cases hsymbol

/-- A production that declares variables if its rule does. -/
theorem fits_declarations {p : Grammar.Production}
    (hhead : of (.nonterminal p.head) = declarations)
    (hbody : ∀ symbol ∈ p.body, (of symbol).declares = true)
    (hrule : ∀ {attributes : List Attribute}, attributes.length = p.body.length →
      ∀ command ∈ reduceCommands p.head attributes, command.isVariable = true) : Fits p := by
  intro commands attributes hyields hlength _
  rw [Language, hhead]
  exact List.forall_mem_append.mpr ⟨declares_of_yieldsAll hyields hbody, hrule hlength⟩

theorem declares_plain {head : String} {size : Nat} (h : Effect.of? head size = none)
    {attributes : List Attribute} (hlength : attributes.length = size) :
    ∀ command ∈ reduceCommands head attributes, command.isVariable = true := by
  simp [reduceCommands_plain hlength h]

theorem declares_type {attributes : List Attribute} (hlength : attributes.length = 1) :
    ∀ command ∈ reduceCommands "VarType" attributes, command.isVariable = true := by
  obtain ⟨type, rfl⟩ := List.length_eq_one_iff.mp hlength
  show ∀ command ∈ typed type .setType, _
  rw [typed]
  cases DataType.ofKeyword? type.text <;> simp [Command.isVariable]

theorem declares_first {attributes : List Attribute} (hlength : attributes.length = 1) :
    ∀ command ∈ reduceCommands "IdList" attributes, command.isVariable = true := by
  obtain ⟨name, rfl⟩ := List.length_eq_one_iff.mp hlength
  exact List.forall_mem_singleton.mpr rfl

theorem declares_next {attributes : List Attribute} (hlength : attributes.length = 3) :
    ∀ command ∈ reduceCommands "IdList" attributes, command.isVariable = true := by
  obtain ⟨_, _, name, rfl⟩ := List.length_eq_three.mp hlength
  exact List.forall_mem_singleton.mpr rfl

theorem fits_quiet {p : Grammar.Production} (hhead : of (.nonterminal p.head) = exactly [])
    (hbody : ∀ symbol ∈ p.body, (of symbol).isQuiet = true)
    (hrule : Effect.of? p.head p.body.length = none) : Fits p := by
  intro commands attributes hyields hlength _
  rw [Language, hhead, eq_nil_of_yieldsAll hyields hbody, reduceCommands_plain hlength hrule]
  rfl

theorem fits_declarationRules : ∀ p ∈ Grammar.Duck.declarationRules, Fits p := by
  simp only [Grammar.Duck.declarationRules, List.forall_mem_cons, List.not_mem_nil,
    IsEmpty.forall_iff, implies_true, and_true]
  refine ⟨fits_declarations rfl (by decide) (declares_plain rfl),
    fits_declarations rfl (by decide) (declares_plain rfl),
    fits_declarations rfl (by decide) (declares_plain rfl),
    fits_declarations rfl (by decide) (declares_plain rfl),
    fits_declarations rfl (by decide) (declares_plain rfl),
    fits_declarations rfl (by decide) declares_type,
    fits_quiet rfl (by decide) rfl, fits_quiet rfl (by decide) rfl,
    fits_quiet rfl (by decide) rfl, fits_declarations rfl (by decide) declares_first,
    fits_declarations rfl (by decide) declares_next⟩

/-! ### Functions and programs -/

theorem fits_header : Fits (rule "ProgHeader" [t "program", t "id", t ";"]) := by
  intro commands attributes hyields hlength _
  obtain rfl := eq_nil_of_yieldsAll hyields (by decide)
  obtain ⟨_, name, _, rfl⟩ := List.length_eq_three.mp hlength
  exact ⟨name.text, rfl⟩

theorem lawful_keyword {keyword : String} {type : DataType}
    (h : DataType.ofKeyword? keyword = some type) : type = .void ∨ type.isStorable = true := by
  simp only [DataType.ofKeyword?] at h
  repeat' split at h
  all_goals cases h <;> simp [DataType.isStorable]

theorem fits_functionHeader : Fits (rule "FuncHeader" [t "func", n "RetType", t "id"]) := by
  rintro commands attributes hyields hlength ⟨_, _, _, hrun⟩
  obtain rfl := eq_nil_of_yieldsAll hyields (by decide)
  obtain ⟨_, returns, name, rfl⟩ := List.length_eq_three.mp hlength
  obtain ⟨type, _, htype, _⟩ := run_bind_ok hrun
  have hkeyword := (typeOf_ok htype).1
  refine ⟨name.text, type, lawful_keyword hkeyword, ?_⟩
  show typed returns (.beginFunction name.text) = _
  rw [typed, hkeyword]
  rfl

theorem fits_parameter : Fits (rule "Param" [n "Type", t "id"]) := by
  rintro commands attributes hyields hlength ⟨_, _, _, hrun⟩
  obtain rfl := eq_nil_of_yieldsAll hyields (by decide)
  obtain ⟨type, name, rfl⟩ := List.length_eq_two.mp hlength
  obtain ⟨type', _, htype, _⟩ := run_bind_ok hrun
  refine ⟨[(name.text, type')], ?_⟩
  show typed type (.addParameter name.text) = _
  rw [typed, (typeOf_ok htype).1]
  rfl

theorem fits_unit {p : Grammar.Production} (symbol : Grammar.Symbol) (hbody : p.body = [symbol])
    (hhead : of (.nonterminal p.head) = of symbol) (hrule : Effect.of? p.head 1 = none) :
    Fits p := by
  intro commands attributes hyields hlength _
  rw [hbody] at hyields hlength
  obtain ⟨first, rest, rfl, hfirst, rfl⟩ := hyields
  rw [reduceCommands_plain hlength hrule, Language, hhead]
  simpa using hfirst

theorem fits_parameters : Fits (rule "ParamList" [n "ParamList", t ",", n "Param"]) := by
  rintro commands attributes ⟨_, _, rfl, ⟨params, rfl⟩, hyields⟩ hlength _
  obtain ⟨_, _, rfl, ⟨param, rfl⟩, rfl⟩ := yieldsAll_tail hyields rfl
  rw [reduceCommands_plain hlength rfl]
  exact ⟨params ++ param, by simp⟩

theorem fits_functions : Fits (rule "Funcs" [n "Funcs", n "Func"]) := by
  rintro commands attributes ⟨_, _, rfl, ⟨routines, rfl⟩, _, _, rfl, ⟨last, rfl⟩, rfl⟩ hlength _
  rw [reduceCommands_plain hlength rfl]
  exact ⟨routines ++ last, by simp⟩

/-- A body with the declarations in front of it. -/
def passage {commands commands' : List Command}
    (hdeclares : ∀ command ∈ commands, command.isVariable = true)
    (hbody : Leaves (0, 0) commands') : Passage :=
  have hdeclared : Leaves (0, 0) commands := Emitter.balance_of_isVariable hdeclares
  have h := hdeclared.append hbody
  ⟨commands ++ commands', h.1, h.2⟩

theorem fits_function : Fits (rule "Func" [n "FuncHeader", t "(", n "ParamsOpt", t ")", t "[",
    n "VarsOpt", n "Body", t "]", t ";"]) := by
  rintro commands attributes ⟨_, _, rfl, ⟨name, returns, hreturns, rfl⟩, hyields⟩ hlength _
  obtain ⟨_, _, rfl, ⟨params, rfl⟩, hrest⟩ := yieldsAll_tail hyields rfl
  obtain ⟨declared, _, rfl, hdeclared, body, _, rfl, hbody, hlast⟩ :=
    yieldsAll_tail (yieldsAll_tail hrest rfl) rfl
  obtain rfl := eq_nil_of_yieldsAll hlast (by decide)
  rw [reduceCommands_effect hlength rfl]
  refine ⟨[⟨name, returns, hreturns, params, passage hdeclared hbody⟩], ?_⟩
  simp [Routine.commands, Routine.body, passage, Effect.commands]

theorem fits_functionRules : ∀ p ∈ Grammar.Duck.functionRules, Fits p := by
  simp only [Grammar.Duck.functionRules, List.forall_mem_cons, List.not_mem_nil,
    IsEmpty.forall_iff, implies_true, and_true]
  refine ⟨fits_functions, ?_, fits_function, fits_functionHeader, fits_quiet rfl (by decide) rfl,
    fits_quiet rfl (by decide) rfl, fits_unit (n "ParamList") rfl rfl rfl, ?_,
    fits_unit (n "Param") rfl rfl rfl, fits_parameters, fits_parameter⟩
  · rintro _ attributes rfl hlength _
    rw [reduceCommands_plain hlength rfl]
    exact ⟨[], rfl⟩
  · rintro _ attributes rfl hlength _
    rw [reduceCommands_plain hlength rfl]
    exact ⟨[], rfl⟩

theorem fits_program : Fits Grammar.Duck.programRule := by
  rintro commands attributes ⟨_, _, rfl, ⟨name, rfl⟩, globals, _, rfl, hglobals, _, _, rfl,
    ⟨routines, rfl⟩, _, _, rfl, hmain, body, _, rfl, hbody, hlast⟩ hlength _
  obtain rfl := eq_nil_of_yieldsAll hlast (by decide)
  obtain rfl : _ = [Command.markMain] := hmain
  rw [reduceCommands_effect hlength rfl]
  refine ⟨⟨name, globals, hglobals, routines, ⟨body, hbody.1, hbody.2⟩⟩, ?_⟩
  simp [Script.commands, Effect.commands]

end Shape

open Shape in
/-- Every production of the language makes operations of the shape of its head. -/
theorem closed : Closed Grammar.duck Language where
  token := holds_token
  rule := by
    intro id p hp hid
    rcases Grammar.ofProductions_rule hp with ⟨hzero, _⟩ | ⟨_, hmem⟩
    · exact absurd hzero hid
    · simp only [List.mem_cons, List.mem_append, Grammar.Duck.headerRules, List.not_mem_nil,
        or_false] at hmem
      rcases hmem with rfl | (((rfl | hmem) | hmem) | hmem) | hmem
      · exact fits_program
      · exact fits_header
      · exact fits_declarationRules p hmem
      · exact fits_functionRules p hmem
      · exact fits_inner p (List.mem_append_left _ hmem)
      · exact fits_inner p (List.mem_append_right _ hmem)

/-- The operations of a parse that accepts are those of a program. -/
theorem accepted_script {tokens : List Token} {fuel : Nat} {p : Parser}
    (hrun : Parser.run Grammar.duck.table fuel (.start tokens) = .accepted p) :
    ∃ script : Script,
      Parser.commands Grammar.duck.table fuel (.start tokens) = script.commands := by
  obtain ⟨_, _, hcommands, ⟨script, rfl⟩, rfl⟩ :=
    closed.accepted Grammar.duck_proper Grammar.duck_fresh hrun
  exact ⟨script, by simpa using hcommands⟩

end DuckLang.Duck
