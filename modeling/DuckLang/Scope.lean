import DuckLang.Diagnostic

/-! Scopes.  A directory of functions, each with the names declared in it; the program is an entry
of its own, which holds the globals.  A name is looked up in the current scope and then among the
globals.  An operation that fails leaves a scope behind as well. -/

namespace DuckLang

/-- How a name was declared. -/
inductive Symbol.Origin where
  | variable
  | parameter
  deriving DecidableEq

/-- A declared name. -/
structure Symbol where
  name : String
  type : DataType
  address : Int
  origin : Symbol.Origin
  deriving DecidableEq

/-- A function, or the program as the holder of the globals. -/
structure Scope.Entry where
  name : String
  returns : DataType := .void
  /-- The names declared in it, in the order of their declarations. -/
  symbols : List Symbol := []
  /-- Its parameters, in the order of their declarations. -/
  params : List Symbol := []
  /-- Whether it is a program. -/
  isProgram : Bool := false
  deriving DecidableEq

/-- The names known while a program is compiled. -/
structure Scope where
  /-- The name of the program; empty until its header was seen. -/
  program : String := ""
  /-- The entries in the order of their declarations. -/
  entries : List Scope.Entry := []
  /-- The name of the entry that declarations go to. -/
  current : String := ""
  /-- The type of the declarations being read. -/
  declaring : Option DataType := none
  deriving DecidableEq

namespace Scope

/-- What an operation leads to, with the scope that it leaves. -/
abbrev Outcome := EStateM.Result Cause Scope Unit

/-- The symbol declared under a name in an entry. -/
def Entry.symbol? (e : Entry) (name : String) : Option Symbol :=
  e.symbols.find? (·.name = name)

/-- The entry with a name. -/
def entryOf? (s : Scope) (name : String) : Option Entry :=
  s.entries.find? (·.name = name)

/-- The entry that declarations go to. -/
def currentScope? (s : Scope) : Option Entry :=
  s.entryOf? s.current

/-- Entries with one of them put in, in the place of that with its name if there is one. -/
def putEntry (e : Entry) : List Entry → List Entry
  | [] => [e]
  | x :: xs => if x.name = e.name then e :: xs else x :: putEntry e xs

/-- Whether declarations go to the globals. -/
def inGlobal (s : Scope) : Bool :=
  s.current = s.program

/-- The type of the declarations being read; int until one was set. -/
def declaredType (s : Scope) : DataType :=
  s.declaring.getD .int

/-- The functions in the order of their declarations. -/
def functions (s : Scope) : List Entry :=
  s.entries.filter (!·.isProgram)

/-- Opens the program with a name. -/
def initProgram (s : Scope) (name : String) : Outcome :=
  if s.program ≠ "" then .error (.programInitialized s.program) s
  else
    .ok () { s with
      program := name
      entries := putEntry { name, isProgram := true } s.entries
      current := name }

/-- Declares a function and makes it the current scope. -/
def beginFunction (s : Scope) (name : String) (returns : DataType) : Outcome :=
  if s.program = "" then .error (.functionBeforeHeader name) s
  else if name = s.program then .error (.functionIsProgram name) s
  else if (s.entryOf? name).isSome then .error (.functionDefined name) s
  else .ok () { s with entries := s.entries ++ [{ name, returns }], current := name }

/-- Makes the program the current scope again. -/
def endFunction (s : Scope) : Scope :=
  { s with current := s.program }

/-- Sets the type of the declarations that follow. -/
def setType (s : Scope) (type : DataType) : Scope :=
  { s with declaring := some type }

/-- Declares a name in the current scope. -/
def define (s : Scope) (symbol : Symbol) : Outcome :=
  match s.currentScope? with
  | none => .error (.noScope symbol.name) s
  | some e =>
    if (e.symbol? symbol.name).isSome then .error (.variableDeclared symbol.name s.current) s
    else
      .ok () { s with entries := putEntry { e with symbols := e.symbols ++ [symbol] } s.entries }

/-- Declares a variable of the type set last. -/
def addVariable (s : Scope) (name : String) (address : Int) : Outcome :=
  match s.declaring with
  | none => .error (.variableWithoutType name) s
  | some type => s.define { name, type, address, origin := .variable }

/-- The scope with a parameter listed in its current entry. -/
def listParameter (s : Scope) (symbol : Symbol) : Scope :=
  match s.currentScope? with
  | none => s
  | some e => { s with entries := putEntry { e with params := e.params ++ [symbol] } s.entries }

/-- Declares a parameter of the current function. -/
def addParameter (s : Scope) (name : String) (type : DataType) (address : Int) : Outcome :=
  if s.inGlobal then .error (.parameterUnscoped name) s
  else
    let symbol : Symbol := { name, type, address, origin := .parameter }
    match s.define symbol with
    | .ok _ s => .ok () (s.listParameter symbol)
    | .error cause s => .error cause s

/-- The symbol a name stands for: that of the current scope, else the global one. -/
def symbol? (s : Scope) (name : String) : Option Symbol :=
  match s.currentScope?.bind (·.symbol? name) with
  | some symbol => some symbol
  | none => (s.entryOf? s.program).bind (·.symbol? name)

/-- The symbol a name stands for. -/
def lookupVariable (s : Scope) (name : String) : Except Cause Symbol :=
  match s.symbol? name with
  | some symbol => .ok symbol
  | none => .error (.undeclaredVariable name)

/-- The function with a name.  The program is no function. -/
def lookupFunction (s : Scope) (name : String) : Except Cause Entry :=
  match s.entryOf? name with
  | some e => if name = s.program then .error (.undefinedFunction name) else .ok e
  | none => .error (.undefinedFunction name)

/-- An operation that changes a scope. -/
inductive Command where
  | initProgram (name : String)
  | setType (type : DataType)
  | beginFunction (name : String) (returns : DataType)
  | endFunction
  | addVariable (name : String) (address : Int)
  | addParameter (name : String) (type : DataType) (address : Int)
  deriving DecidableEq

/-- Does an operation. -/
def perform (s : Scope) : Command → Outcome
  | .initProgram name => s.initProgram name
  | .setType type => .ok () (s.setType type)
  | .beginFunction name returns => s.beginFunction name returns
  | .endFunction => .ok () s.endFunction
  | .addVariable name address => s.addVariable name address
  | .addParameter name type address => s.addParameter name type address

end Scope

end DuckLang
