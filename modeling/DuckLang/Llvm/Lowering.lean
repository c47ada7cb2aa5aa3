import DuckLang.Llvm.Problem
import DuckLang.Llvm.Prelude

/-! Programs as modules.  Each quadruple of a function gets a block of its own, so that jumps become
branches; the segments become arrays, on the stack for locals and temporaries.  Arguments are staged
in slots of the stack until their call is made. -/

namespace DuckLang.Llvm

/-- The quadruples of a function: those from `start` on and before `stop`. -/
structure Range where
  function : FunctionInfo
  start : Nat
  stop : Nat
  deriving DecidableEq

/-- A call whose arguments are being staged. -/
structure StagedCall where
  function : FunctionInfo
  /-- The slots of its arguments. -/
  slots : List Ref

/-- A function in the making. -/
structure Lowering where
  range : Range
  blocks : Array Block
  /-- The position of the block being filled. -/
  current : Nat
  /-- The sizes of the local arrays. -/
  locals : Counts := {}
  /-- The sizes of the arrays of temporaries. -/
  temps : Counts := {}
  /-- The identity of the next result. -/
  nextId : Nat := 0
  /-- The calls being staged, the last one first. -/
  calls : List StagedCall := []
  /-- Whether there is a block that reports a division by zero. -/
  reportsZero : Bool := false

/-- A step of making a function. -/
abbrev Lower := StateT Lowering (Except Problem)

namespace Lowering

/-- A step that fails. -/
def fail {α : Type} (cause : Problem.Cause) : Lower α :=
  throw { cause }

/-- A step whose failure lies in a quadruple. -/
def within {α : Type} (index : Nat) (q : Quad) (step : Lower α) : Lower α := fun s =>
  match step s with
  | .ok r => .ok r
  | .error problem => .error { problem with place := some (index, q.render) }

/-- The identity of a new result. -/
def newId : Lower Nat :=
  modifyGet fun s => (s.nextId, { s with nextId := s.nextId + 1 })

/-- Appends an instruction to the block at a position. -/
def appendAt (position : Nat) (i : Instruction) : Lower Unit :=
  modify fun s =>
    { s with
      blocks := s.blocks.modify position fun b =>
        { b with instructions := b.instructions.push i } }

/-- Appends an instruction to the block being filled. -/
def append (i : Instruction) : Lower Unit := do
  appendAt (← get).current i

/-- Ends the block at a position. -/
def terminateAt (position : Nat) (t : Terminator) : Lower Unit :=
  modify fun s =>
    { s with blocks := s.blocks.modify position fun b => { b with terminator := some t } }

/-- Ends the block being filled. -/
def terminate (t : Terminator) : Lower Unit := do
  terminateAt (← get).current t

/-- Whether the block being filled has ended. -/
def isTerminated (s : Lowering) : Bool :=
  (s.blocks[s.current]?.bind (·.terminator)).isSome

/-- Adds an empty block and gives its position. -/
def newBlock (label : Label) : Lower Nat :=
  modifyGet fun s => (s.blocks.size, { s with blocks := s.blocks.push { label } })

/-- Appends an instruction that gives a result. -/
def appendResult (type : Ty) (make : Nat → Instruction) : Lower Ref := do
  let id ← newId
  append (make id)
  pure (.result id type)

/-- Appends a call. -/
def appendCall (callee : Callee) (arguments : List Ref) : Lower Ref := do
  if callee.returns = .void then
    append (.call none callee arguments)
    pure (.int .void 0)
  else appendResult callee.returns fun id => .call (some id) callee arguments

/-- A pointer to an element of an array. -/
def elementOf (array : Ty) (element : Ty) (pointer : Ref) (offset : Nat) : Lower Ref :=
  appendResult (.pointer element) fun id => .element id array pointer offset

/-- A pointer to the first byte of a global text. -/
def textPointer (t : GlobalText) : Lower Ref :=
  elementOf t.type .i8 (.global t.name (.pointer t.type)) 0

/-- The constant zero of a type. -/
def zeroOf : DataType → Ref
  | .float => .double 0
  | .char => .int .i8 0
  | _ => .int .i64 0

/-- The constant of a value. -/
def constantOf : Value → Ref
  | .float x => .double x
  | .char n => .int .i8 n.toInt
  | v => .int .i64 v.number.toInt

/-- The name of a stack array: that of its segment and the number of its type. -/
def stackName (segment : String) (type : DataType) : String :=
  s!"{segment}.{type.code}"

/-- A pointer to the slot of an address, and the type of the slot. -/
def slotPointer (p : Program) (address : Int) : Lower (Ref × DataType) := do
  match Address.place? address with
  | none => fail (.outsideMap address)
  | some { segment, type, offset } =>
    let s ← get
    let (size, name, onStack) ←
      match segment with
      | .globals => pure (globalSize p type, globalName type, false)
      | .locals => pure (s.locals.get type, stackName "local" type, true)
      | .temporaries => pure (s.temps.get type, stackName "temp" type, true)
      | .constants => fail (.noStorage segment address)
    if size ≤ offset then fail (.notAllocated address)
    else
      let array := Ty.array size (tyOf type)
      let base := if onStack then Ref.slot name (.pointer array) else .global name (.pointer array)
      let pointer ← elementOf array (tyOf type) base offset
      pure (pointer, type)

/-- The constant at an address of the constant segment; nothing for any other address. -/
def constantAt (p : Program) (address : Int) : Lower (Option Value) :=
  match Address.place? address with
  | some { segment := .constants, .. } =>
    match p.constant? address with
    | some v => pure (some v)
    | none => fail (.missingConstant address)
  | _ => pure none

/-- The value of an operand and its type. -/
def load (p : Program) (operand : Operand) : Lower (Ref × DataType) := do
  match operand.literal? with
  | some v => pure (constantOf v, v.type)
  | none =>
    match operand.target? with
    | none => fail (.noValue operand.render)
    | some address =>
      match ← constantAt p address with
      | some v => pure (constantOf v, v.type)
      | none =>
        let (pointer, type) ← slotPointer p address
        let value ← appendResult (tyOf type) fun id => .load id (tyOf type) pointer
        pure (value, type)

/-- A value converted from one type to another. -/
def convert (value : Ref) (source target : DataType) : Lower Ref :=
  if source = target then pure value
  else
    let cast (op : CastOp) (type : Ty) := appendResult type fun id => .cast id op value type
    match target with
    | .float => cast .sitofp .double
    | .int => cast (if source = .float then .fptosi else .sext) .i64
    | .char => cast (if source = .float then .fptosi else .trunc) .i8
    | _ => pure value

/-- Stores a value in the slot of an operand, converted to the type of the slot. -/
def storeTo (p : Program) (operand : Operand) (value : Ref) (source : DataType) : Lower Unit := do
  match operand.target? with
  | none => fail (.notWritable operand.render)
  | some address =>
    let (pointer, type) ← slotPointer p address
    let value ← convert value source type
    append (.store value pointer)

/-- The label of the block behind that of the quadruple before `index`. -/
def labelAt (r : Range) (index : Nat) : Label :=
  if r.start ≤ index ∧ index < r.stop then .quad index else .exit

/-- How a function ends that runs off its end: the process succeeds, any other function gives zero
back. -/
def fallOff (f : FunctionInfo) : Terminator :=
  if f.name = mainName then .ret (some (.int .i32 0))
  else if f.hasReturn then .ret (some (zeroOf f.returns))
  else .ret none

/-- The label that a jump leads to. -/
def jumpLabel (r : Range) : Operand → Lower Label
  | .jump target =>
    if target = r.stop then pure .exit
    else if r.start ≤ target ∧ target < r.stop then pure (.quad target.toNat)
    else fail (.jumpOutside target r.function.name)
  | _ => fail .jumpUnresolved

/-- The position of the block that reports a division by zero, made on its first use. -/
def reportZero : Lower Unit := do
  let s ← get
  if !s.reportsZero then
    let block ← newBlock .zeroDivisor
    modify fun s => { s with reportsZero := true, current := block }
    let text ← textPointer zeroDivisionText
    let _ ← appendCall puts [text]
    let _ ← appendCall exitProcess [.int .i32 1]
    terminate .unreachable
    modify fun t => { t with current := s.current }

/-- Branches away if a divisor is zero and goes on in a block of its own. -/
def checkDivisor (index : Nat) (divisor : Ref) (type : DataType) : Lower Unit := do
  let predicate := if type = .float then Predicate.oeq else .eq
  let isZero ← appendResult .i1 fun id => .compare id predicate divisor (zeroOf type)
  let rest ← newBlock (.quotient index)
  reportZero
  terminate (.conditional isZero .zeroDivisor (.quotient index))
  modify fun s => { s with current := rest }

/-- The instruction of an arithmetic operator on ints or floats. -/
def binaryOp (isFloat : Bool) : ArithOp → BinaryOp
  | .add => if isFloat then .fadd else .add
  | .sub => if isFloat then .fsub else .sub
  | .mul => if isFloat then .fmul else .mul
  | .div => if isFloat then .fdiv else .sdiv

/-- The comparison of a relational operator on ints or floats. -/
def predicate (isFloat : Bool) : RelOp → Predicate
  | .gt => if isFloat then .ogt else .sgt
  | .lt => if isFloat then .olt else .slt
  | .eq => if isFloat then .oeq else .eq
  | .ne => if isFloat then .une else .ne

/-- The operands of a binary operation, both ints or both floats. -/
def operands (p : Program) (q : Quad) : Lower (Ref × Ref × DataType) := do
  let (left, leftType) ← load p q.left
  let (right, rightType) ← load p q.right
  let type := if leftType = .float ∨ rightType = .float then DataType.float else .int
  let left ← convert left leftType type
  let right ← convert right rightType type
  pure (left, right, type)

/-- An arithmetic quadruple. -/
def arith (p : Program) (index : Nat) (q : Quad) (op : ArithOp) : Lower Unit := do
  let (left, right, type) ← operands p q
  if op = .div then checkDivisor index right type
  let result ← appendResult (tyOf type) fun id =>
    .binary id (binaryOp (type = .float) op) left right
  storeTo p q.result result type

/-- A comparison. -/
def compare (p : Program) (q : Quad) (op : RelOp) : Lower Unit := do
  let (left, right, type) ← operands p q
  let holds ← appendResult .i1 fun id => .compare id (predicate (type = .float) op) left right
  let result ← appendResult .i64 fun id => .cast id .zext holds .i64
  storeTo p q.result result .int

/-- Prints a text or a value. -/
def write (p : Program) (operand : Operand) : Lower Unit := do
  match operand with
  | .text index =>
    match p.string? index with
    | none => fail (.missingString index)
    | some bytes =>
      let format ← textPointer textFormat
      let text ← textPointer (stringText index.toNat bytes)
      let _ ← appendCall printf [format, text]
  | operand =>
    let (value, type) ← load p operand
    let value ←
      if type = .char then appendResult .i32 fun id => .cast id .sext value .i32 else pure value
    let format ← textPointer (writeFormat type)
    let _ ← appendCall printf [format, value]

/-- Reads into the slot of an operand. -/
def read (p : Program) (operand : Operand) : Lower Unit := do
  match operand.target? with
  | none => fail (.invalidDestination operand.render)
  | some address =>
    let (pointer, type) ← slotPointer p address
    let format ← textPointer (readFormat type)
    let _ ← appendCall scanf [format, pointer]

/-- A slot of the stack, made in the entry block. -/
def stackSlot (type : Ty) : Lower Ref := do
  let id ← newId
  appendAt 0 (.alloca id type)
  pure (.result id (.pointer type))

/-- Starts to stage a call. -/
def announce (p : Program) (name : String) : Lower Unit := do
  match p.functions.get? name with
  | none => fail (.undefinedFunction name)
  | some function =>
    if name = mainName then fail (.undefinedFunction name)
    else
      let slots ← function.params.mapM fun param => stackSlot (tyOf param.type)
      modify fun s => { s with calls := { function, slots } :: s.calls }

/-- Stages an argument of the innermost call. -/
def param (p : Program) (q : Quad) : Lower Unit := do
  match (← get).calls with
  | [] => fail .paramUnannounced
  | call :: _ =>
    let address := q.result.target?.getD 0
    match (call.function.params.zip call.slots).find? fun entry => entry.1.address = address with
    | none => fail (.missingParam call.function.name address)
    | some (param, slot) =>
      let (value, type) ← load p q.left
      let value ← convert value type param.type
      append (.store value slot)

/-- Makes the innermost call with its staged arguments. -/
def makeCall (p : Program) (q : Quad) : Lower Unit := do
  match (← get).calls with
  | [] => fail .callUnannounced
  | call :: calls =>
    modify fun s => { s with calls }
    let f := call.function
    let arguments ← (f.params.zip call.slots).mapM fun (param, slot) =>
      appendResult (tyOf param.type) fun id => .load id (tyOf param.type) slot
    let result ← appendCall (calleeOf f) arguments
    if !q.result.isEmpty then
      if f.hasReturn then storeTo p q.result result f.returns else fail (.voidValue f.name)

/-- Tests whether a value is not zero. -/
def isNonZero (value : Ref) (type : DataType) : Lower Ref :=
  appendResult .i1 fun id =>
    .compare id (if type = .float then .une else .ne) value (zeroOf type)

/-- The block of a quadruple. -/
def quad (p : Program) (r : Range) (index : Nat) (q : Quad) : Lower Unit := do
  match q.op with
  | .arith op => arith p index q op
  | .rel op => compare p q op
  | .assign =>
    let (value, type) ← load p q.left
    storeTo p q.result value type
  | .goto => terminate (.branch (← jumpLabel r q.result))
  | .gotoFalse =>
    let (value, type) ← load p q.left
    let target ← jumpLabel r q.result
    let condition ← isNonZero value type
    terminate (.conditional condition (labelAt r (index + 1)) target)
  | .write => write p q.result
  | .read => read p q.result
  | .announce => announce p q.result.functionName
  | .param => param p q
  | .call => makeCall p q
  | .giveBack =>
    if r.function.hasReturn then
      let (value, type) ← load p q.result
      terminate (.ret (some (← convert value type r.function.returns)))
    else fail (.noReturn r.function.name)
  | .endFunction | .halt => terminate (fallOff r.function)
  | .unknown _ => fail .unknownOperator

/-- The quadruples of a range with their indices. -/
def quadsOf (p : Program) (r : Range) : List (Quad × Nat) :=
  ((p.quads.toList.drop r.start).take (r.stop - r.start)).zipIdx r.start

/-- Sizes of stack arrays, grown to hold an operand of a segment. -/
def noteOperand (segment : Segment) (sizes : Counts) (operand : Operand) : Counts :=
  match operand.target?.bind Address.place? with
  | none => sizes
  | some place =>
    if place.segment = segment ∧ sizes.get place.type ≤ place.offset then
      sizes.set place.type (place.offset + 1)
    else sizes

/-- The operands of a quadruple that lie in its own function: the result of a parameter copy is a
slot of the callee. -/
def ownOperands (q : Quad) : List Operand :=
  if q.op = .param then [q.left, q.right] else q.operands

/-- The sizes of the arrays of a segment that a function needs. -/
def sizesOf (p : Program) (r : Range) (segment : Segment) : Counts :=
  let params := r.function.params.map fun q => Operand.address q.address q.type
  let operands := params ++ (quadsOf p r).flatMap fun (q, _) => ownOperands q
  operands.foldl (noteOperand segment) {}

/-- Makes a stack array if it is not empty. -/
def stackArray (segment : String) (sizes : Counts) (type : DataType) : Lower Unit :=
  if sizes.get type = 0 then pure ()
  else appendAt 0 (.slot (stackName segment type) (.array (sizes.get type) (tyOf type)))

/-- The block of a quadruple, from its start to its end. -/
def quadBlock (p : Program) (r : Range) (entry : Quad × Nat) : Lower Unit := do
  let (q, index) := entry
  modify fun s => { s with current := index - r.start + 1 }
  within index q (quad p r index q)
  if !isTerminated (← get) then terminate (.branch (labelAt r (index + 1)))

/-- The body of a function. -/
def body (p : Program) (r : Range) : Lower Unit := do
  let s ← get
  DataType.storable.forM fun type => do
    stackArray "local" s.locals type
    stackArray "temp" s.temps type
  r.function.params.zipIdx.forM fun (param, i) =>
    storeTo p (.address param.address param.type) (.param i (tyOf param.type)) param.type
  (quadsOf p r).forM (quadBlock p r)
  match (← get).calls with
  | call :: _ => fail (.callUnfinished call.function.name r.function.name)
  | [] => terminateAt 0 (.branch (labelAt r r.start))

/-- A function before its body is made: the entry, a block for each quadruple, and the exit. -/
def start (p : Program) (r : Range) : Lowering :=
  let quads : List Block := (quadsOf p r).map fun (_, index) => { label := .quad index }
  let exit : Block := { label := .exit, terminator := some (fallOff r.function) }
  { range := r
    blocks := (({ label := .entry } : Block) :: quads ++ [exit]).toArray
    current := 0
    locals := sizesOf p r .locals
    temps := sizesOf p r .temporaries }

/-- The function of a range. -/
def function (p : Program) (r : Range) : Except Problem Function :=
  match (body p r).run (start p r) with
  | .error problem => .error problem
  | .ok (_, s) =>
    let callee := calleeOf r.function
    .ok {
      name := callee.name
      returns := callee.returns
      params := callee.params
      blocks := s.blocks }

end Lowering

/-- The ranges of functions in the order of their entries: each ends where the next begins. -/
def rangesOf (size : Nat) : List FunctionInfo → Except Problem (List Range)
  | [] => .ok []
  | f :: rest =>
    let stop : Int := match rest with
      | next :: _ => next.entry
      | [] => size
    if f.entry < 0 ∨ size < f.entry then .error { cause := .entryOutside f.entry f.name }
    else if f.name ≠ mainName ∧ stop ≤ f.entry then .error { cause := .emptyBody f.name }
    else
      let range : Range := { function := f, start := f.entry.toNat, stop := stop.toNat }
      (rangesOf size rest).map (range :: ·)

/-- The ranges of the functions of a program. -/
def splitFunctions (p : Program) : Except Problem (List Range) :=
  let listed := p.functions.map (·.2)
  let all := match p.functions.get? mainName with
    | some _ => listed
    | none => listed ++ [({ name := mainName, entry := 0 } : FunctionInfo)]
  rangesOf p.quads.size (all.mergeSort fun f g => f.entry ≤ g.entry)

/-- The module of a program. -/
def moduleOf (p : Program) : Except Problem Module := do
  let ranges ← splitFunctions p
  let functions ← ranges.mapM (Lowering.function p)
  pure { source := p.name, globals := globals p, declarations, functions }

end DuckLang.Llvm
