import DuckLang.Emitter.Expression

/-! Functions and calls.  The first function is preceded by a jump to the main body; a call is
announced, its arguments are copied one by one, and then it is run. -/

namespace DuckLang.Emitter

/-- Starts the body of a function. -/
def beginFunction (name : String) (returns : DataType) : Emit Unit := do
  changeScope (·.beginFunction name returns)
  if (← get).leadingJump.isNone then
    let index ← emit { op := .goto, result := .pending }
    modify fun e => { e with leadingJump := some index }
  modify fun e =>
    let info : FunctionInfo := { name, entry := e.quads.size, returns }
    { e with
      allocator := e.allocator.resetLocals
      body := some { info, isListed := true }
      functions := e.functions.set name info }

/-- The emitter with a parameter more of the function being read. -/
def recordParameter (e : Emitter) (b : Body) (param : Param) : Emitter :=
  let info := b.info.addParam param
  { e with
    body := some { b with info }
    functions := if b.isListed then e.functions.set info.name info else e.functions }

/-- Declares a parameter of the function being read. -/
def addParameter (name : String) (type : DataType) : Emit Unit := do
  match (← get).body with
  | none => fail (.parameterOutside name)
  | some b =>
    let address ← allocate .locals type
    changeScope (·.addParameter name type address)
    modify fun e => recordParameter e b { type, address }

/-- Ends the body of a function. -/
def endFunction : Emit Unit := do
  if (← get).body.isNone then fail .endOutside
  else
    let _ ← emit { op := .endFunction }
    modify fun e => { e with body := none, scope := e.scope.endFunction }

/-- The body being read once `main` is listed anew: a function of that name is no longer listed. -/
def Body.unlistMain (b : Body) : Body :=
  if b.info.name = mainName then { b with isListed := false } else b

/-- Starts the main body. -/
def markMain : Emit Unit := do
  let e ← get
  if e.leadingJump.isSome then backpatchHere e.leadingJump
  modify fun e =>
    { e with
      functions := e.functions.set mainName { name := mainName, entry := e.quads.size }
      body := e.body.map Body.unlistMain }

/-- Returns the operand on top from the function being read. -/
def giveBack : Emit Unit := do
  match (← get).body with
  | none => fail .returnOutside
  | some { info, .. } =>
    if !info.hasReturn then fail (.voidReturn info.name)
    else
      let (value, type) ← popOperand
      if Cube.canAssign info.returns type then
        let _ ← emit { op := .giveBack, result := value }
        release value
      else fail (.cannotReturn type info.name info.returns)

/-- Announces a call. -/
def beginCall (name : String) : Emit Unit := do
  let _ ← lift ((← get).scope.lookupFunction name)
  let _ ← emit { op := .announce, result := .function name }
  modify fun e => { e with calls := { function := name, arguments := 0 } :: e.calls }
  openParen

/-- The entry of the function that an open call names. -/
def callee (e : Emitter) (c : Call) : Scope.Entry :=
  (e.scope.entryOf? c.function).getD { name := c.function }

/-- Copies the operand on top into the next parameter of the innermost call. -/
def argument : Emit Unit := do
  match (← get).calls with
  | [] => fail .argumentOutside
  | c :: calls =>
    let (value, type) ← popOperand
    let f := callee (← get) c
    match f.params[c.arguments]? with
    | none => fail (.tooManyArguments f.name f.params.length)
    | some param =>
      if Cube.canAssign param.type type then
        let _ ← emit
          { op := .param, left := value, result := .address param.address param.type }
        release value
        modify fun e => { e with calls := { c with arguments := c.arguments + 1 } :: calls }
      else fail (.argumentType (c.arguments + 1) f.name param.type type)

/-- Runs the innermost call.  Whether it gives a value, which is then on top. -/
def endCall : Emit Bool := do
  match (← get).calls with
  | [] => fail .callEndOutside
  | c :: calls =>
    modify fun e => { e with calls }
    let f := callee (← get) c
    if c.arguments ≠ f.params.length then
      fail (.argumentCount f.name f.params.length c.arguments)
    else
      closeParen
      if f.returns = .void then
        let _ ← emit { op := .call, left := .function f.name }
        pure false
      else
        let result ← newTemp f.returns
        let _ ← emit { op := .call, left := .function f.name, result }
        pushOperand result f.returns
        pure true

/-- Drops the value of a call that stands as a statement. -/
def discardResult : Emit Unit := do
  let (operand, _) ← popOperand
  release operand

end DuckLang.Emitter
