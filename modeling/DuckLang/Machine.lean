import DuckLang.Console
import DuckLang.Decimal.Reader
import DuckLang.Machine.Fault
import DuckLang.Machine.Memory
import DuckLang.Program
import DuckLang.Text.Blank

/-! The machine that runs programs.  Globals are shared; locals and temporaries belong to the frame
of a function.  A call is announced with a frame of its own, which waits while its arguments are
copied into it.  `step` executes one quadruple, `run` at most a given number of them. -/

namespace DuckLang

/-- The activation of a function. -/
structure Machine.Frame where
  function : FunctionInfo
  locals : Memory := {}
  temps : Memory := {}

/-- A caller that waits for the function it runs. -/
structure Machine.Caller where
  frame : Machine.Frame
  /-- The index of the quadruple that runs the call. -/
  index : Int

/-- The state of a run. -/
structure Machine (κ : Type) where
  globals : Memory := {}
  /-- The activation of the function being run. -/
  frame : Machine.Frame
  /-- The index of the next quadruple. -/
  index : Int
  /-- The callers of the function being run, the innermost first. -/
  callers : List Machine.Caller := []
  /-- The frames of the calls that are announced, the last one first. -/
  pending : List Machine.Frame := []
  console : κ

namespace Machine

variable {κ : Type}

/-- The quadruple at an index. -/
def quad? (p : Program) (index : Int) : Option Quad :=
  if 0 ≤ index then p.quads[index.toNat]? else none

/-- A machine about to run the main body of a program. -/
def start (p : Program) (globals : Memory) (console : κ) : Machine κ :=
  { globals, frame := { function := p.main }, index := p.main.entry, console }

/-- The value an operand stands for. -/
def load (p : Program) (m : Machine κ) (operand : Operand) : Except Fault.Cause Value :=
  match operand.literal? with
  | some v => .ok v
  | none =>
    match operand.target? with
    | none => .error (.noValue operand.render)
    | some address =>
      match Address.place? address with
      | none => .error (.outsideMap address)
      | some place =>
        let found :=
          match place.segment with
          | .globals => m.globals.get? address
          | .constants => p.constant? address
          | .locals => m.frame.locals.get? address
          | .temporaries => m.frame.temps.get? address
        match found with
        | some v => .ok v
        | none => .error (.unwritten place.segment address)

/-- The machine with a value written where an operand points, converted to the type of that range.
-/
def store (m : Machine κ) (operand : Operand) (v : Value) : Except Fault.Cause (Machine κ) :=
  match operand.target? with
  | none => .error (.notWritable operand.render)
  | some address =>
    match Address.place? address with
    | none => .error (.outsideMap address)
    | some place =>
      let v := v.convert place.type
      match place.segment with
      | .globals => .ok { m with globals := m.globals.set address v }
      | .constants => .error (.readOnly address)
      | .locals => .ok { m with frame := { m.frame with locals := m.frame.locals.set address v } }
      | .temporaries =>
        .ok { m with frame := { m.frame with temps := m.frame.temps.set address v } }

/-- An arithmetic operation on doubles. -/
def floatArith : ArithOp → Float → Float → Float
  | .add, x, y => x + y
  | .sub, x, y => x - y
  | .mul, x, y => x * y
  | .div, x, y => x / y

/-- Whether a comparison holds between doubles. -/
def floatRel : RelOp → Float → Float → Bool
  | .gt, x, y => y < x
  | .lt, x, y => x < y
  | .eq, x, y => x == y
  | .ne, x, y => x != y

/-- Arithmetic on values.  Without a float among them the result is cut down to an int. -/
def arith (op : ArithOp) (l r : Value) : Except Fault.Cause Value :=
  if l.type ≠ .float ∧ r.type ≠ .float then
    if op = .div ∧ r.number = 0 then .error .divisionByZero
    else
      let result := floatArith op (Binary64.ofInt64 l.number) (Binary64.ofInt64 r.number)
      .ok (.int (Binary64.truncate result))
  else if op = .div ∧ r.toFloat == 0 then .error .divisionByZero
  else .ok (.float (floatArith op l.toFloat r.toFloat))

/-- Comparison of values: 1 if it holds, else 0. -/
def compare (op : RelOp) (l r : Value) : Value :=
  .int (if floatRel op l.toFloat r.toFloat then 1 else 0)

/-- The index a jump leads to. -/
def jumpTarget (p : Program) : Operand → Except Fault.Cause Int
  | .jump target =>
    if 0 ≤ target ∧ target ≤ p.quads.size then .ok target else .error (.jumpOutside target)
  | _ => .error .jumpUnresolved

/-- The line that writing an operand prints. -/
def lineOf (p : Program) (m : Machine κ) : Operand → Except Fault.Cause String
  | .text index =>
    match p.string? index with
    | some bytes => .ok (Text.Utf8.lossy bytes)
    | none => .error (.missingString index)
  | operand => (load p m operand).map Value.text

/-- The value of a type that a trimmed line writes. -/
def parseInput (type : DataType) (text : String) : Except Fault.Cause Value :=
  let value : Option Value :=
    match type with
    | .int => (Decimal.readInt? text).map .int
    | .float => (Decimal.readFloat? text).map .float
    | _ =>
      match text.toList with
      | [c] => some (.ofChar c)
      | _ => none
  match value with
  | some v => .ok v
  | none => .error (.notAn type text)

/-- Writes a line. -/
def write [Console κ] (m : Machine κ) (line : String) : Except Fault.Cause Unit × Machine κ :=
  let (result, console) := Console.writeLine line m.console
  (result.mapError .writeFailed, { m with console })

/-- Reads a line into the place an operand points to. -/
def read [Console κ] (m : Machine κ) (operand : Operand) :
    Except Fault.Cause Unit × Machine κ :=
  match operand.target? with
  | none => (.error (.invalidDestination operand.render), m)
  | some address =>
    match Address.place? address with
    | none => (.error (.outsideMap address), m)
    | some place =>
      match Console.readLine m.console with
      | (.error reason, console) => (.error (.readFailed reason), { m with console })
      | (.ok line, console) =>
        let m := { m with console }
        match (parseInput place.type (Text.trim line)).bind (m.store operand) with
        | .ok m => (.ok (), m)
        | .error cause => (.error cause, m)

/-- Announces a call. -/
def announce (p : Program) (m : Machine κ) (name : String) : Except Fault.Cause (Machine κ) :=
  match p.functions.get? name with
  | none => .error (.undefinedFunction name)
  | some function => .ok { m with pending := { function } :: m.pending }

/-- Copies an argument into a parameter slot of the call announced last. -/
def param (p : Program) (m : Machine κ) (q : Quad) : Except Fault.Cause (Machine κ) :=
  match m.pending with
  | [] => .error .paramUnannounced
  | frame :: pending =>
    match load p m q.left with
    | .error cause => .error cause
    | .ok v =>
      match q.result.target? with
      | none => .error (.invalidSlot q.result.render)
      | some address =>
        match Address.place? address with
        | some { segment := .locals, type, .. } =>
          let frame := { frame with locals := frame.locals.set address (v.convert type) }
          .ok { m with pending := frame :: pending }
        | _ => .error (.slotNotLocal address)

/-- Runs the call announced last; at most `limit` functions are active at once. -/
def call (limit : Int) (m : Machine κ) (q : Quad) : Except Fault.Cause (Machine κ) :=
  match m.pending with
  | [] => .error .callUnannounced
  | frame :: pending =>
    if frame.function.name ≠ q.left.functionName then
      .error (.callMismatch q.left.functionName frame.function.name)
    else if limit ≤ m.callers.length + 1 then
      .error (.depthExceeded limit frame.function.name)
    else
      .ok { m with
        frame
        index := frame.function.entry
        callers := { frame := m.frame, index := m.index } :: m.callers
        pending }

/-- What executing a quadruple leads to. -/
inductive Step (κ : Type) where
  | next (m : Machine κ)
  | finished (m : Machine κ)
  | faulted (f : Fault) (m : Machine κ)

/-- The fault of a cause at the quadruple with an index. -/
def faultAt (p : Program) (index : Int) (cause : Fault.Cause) : Fault :=
  { index, op := ((quad? p index).map (·.op)).getD .halt, cause }

/-- Stops with a fault at the current quadruple. -/
def fault (p : Program) (m : Machine κ) (cause : Fault.Cause) : Step κ :=
  .faulted (faultAt p m.index cause) m

/-- Goes on with the next quadruple. -/
def goOn (m : Machine κ) : Step κ :=
  .next { m with index := m.index + 1 }

/-- Goes on with the next quadruple of what a quadruple made of the machine. -/
def continueWith (p : Program) (m : Machine κ) (result : Except Fault.Cause (Machine κ)) : Step κ :=
  match result with
  | .ok m => goOn m
  | .error cause => fault p m cause

/-- The value of a finished call put where its caller wants it. -/
def deliver (m : Machine κ) (function : FunctionInfo) (q : Quad) (value : Option Value) :
    Except Fault.Cause (Machine κ) :=
  match value with
  | some v => if q.result.isEmpty then .ok m else m.store q.result v
  | none =>
    if function.hasReturn then .error (.noReturn function.name)
    else if q.result.isEmpty then .ok m
    else .error (.voidValue function.name)

/-- Leaves the function being run, with a value or without. -/
def leave (p : Program) (m : Machine κ) (value : Option Value) : Step κ :=
  match m.callers with
  | [] => .finished m
  | caller :: callers =>
    let function := m.frame.function
    let m := { m with frame := caller.frame, index := caller.index, callers }
    match quad? p caller.index with
    | none => .finished m
    | some q => continueWith p m (deliver m function q value)

/-- Executes a quadruple. -/
def execute [Console κ] (p : Program) (limit : Int) (m : Machine κ) (q : Quad) : Step κ :=
  match q.op with
  | .arith op =>
    continueWith p m do
      let l ← load p m q.left
      let r ← load p m q.right
      m.store q.result (← arith op l r)
  | .rel op =>
    continueWith p m do
      let l ← load p m q.left
      let r ← load p m q.right
      m.store q.result (compare op l r)
  | .assign => continueWith p m ((load p m q.left).bind (m.store q.result))
  | .goto =>
    match jumpTarget p q.result with
    | .ok target => .next { m with index := target }
    | .error cause => fault p m cause
  | .gotoFalse =>
    match load p m q.left with
    | .error cause => fault p m cause
    | .ok condition =>
      if condition.isTrue then goOn m
      else
        match jumpTarget p q.result with
        | .ok target => .next { m with index := target }
        | .error cause => fault p m cause
  | .write =>
    match lineOf p m q.result with
    | .error cause => fault p m cause
    | .ok line =>
      match write m line with
      | (.ok _, m) => goOn m
      | (.error cause, m) => fault p m cause
  | .read =>
    match read m q.result with
    | (.ok _, m) => goOn m
    | (.error cause, m) => fault p m cause
  | .announce => continueWith p m (announce p m q.result.functionName)
  | .param => continueWith p m (param p m q)
  | .call =>
    match call limit m q with
    | .ok m => .next m
    | .error cause => fault p m cause
  | .giveBack =>
    match load p m q.result with
    | .ok v => leave p m (some (v.convert m.frame.function.returns))
    | .error cause => fault p m cause
  | .endFunction => leave p m none
  | .halt => .finished m
  | .unknown _ => fault p m .unknownOperator

/-- Executes the next quadruple.  Past the end of the program the function being run is left. -/
def step [Console κ] (p : Program) (limit : Int) (m : Machine κ) : Step κ :=
  match quad? p m.index with
  | none => leave p m none
  | some q => execute p limit m q

/-- How a run ends. -/
inductive Outcome (κ : Type) where
  | finished (m : Machine κ)
  | faulted (f : Fault) (m : Machine κ)
  /-- The number of steps was not enough. -/
  | unfinished (m : Machine κ)

/-- Runs until the program ends or faults, for at most `fuel` steps. -/
def run [Console κ] (p : Program) (limit : Int) : Nat → Machine κ → Outcome κ
  | 0, m => .unfinished m
  | fuel + 1, m =>
    match step p limit m with
    | .next m => run p limit fuel m
    | .finished m => .finished m
    | .faulted f m => .faulted f m

namespace Outcome

/-- The machine with which a run ends. -/
def machine : Outcome κ → Machine κ
  | finished m | faulted _ m | unfinished m => m

/-- The fault with which a run ends, if it does. -/
def fault? : Outcome κ → Option Fault
  | faulted f _ => some f
  | _ => none

end Outcome

/-- The number of active functions unless another is asked for. -/
def defaultLimit : Int := 1024

/-- The limit asked for if it is one, else the default. -/
def limitOf (asked : Int) : Int :=
  if 0 < asked then asked else defaultLimit

end Machine

end DuckLang
