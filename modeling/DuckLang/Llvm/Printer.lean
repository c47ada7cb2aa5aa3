import DuckLang.Llvm.Constant

/-! The text of modules.  Results are numbered in each function in the order in which they are
printed. -/

namespace DuckLang.Llvm

/-- A type. -/
def Ty.render : Ty → String
  | i1 => "i1"
  | i8 => "i8"
  | i32 => "i32"
  | i64 => "i64"
  | double => "double"
  | void => "void"
  | array size element => s!"[{size} x {element.render}]"
  | pointer target => target.render ++ "*"

/-- The name of a block. -/
def Label.render : Label → String
  | entry => "entry"
  | quad index => s!"L{index}"
  | exit => "exit"
  | quotient index => s!"L{index}.div"
  | zeroDivisor => "divzero"

/-- The word for an arithmetic instruction. -/
def BinaryOp.render : BinaryOp → String
  | add => "add"
  | sub => "sub"
  | mul => "mul"
  | sdiv => "sdiv"
  | fadd => "fadd"
  | fsub => "fsub"
  | fmul => "fmul"
  | fdiv => "fdiv"

/-- The words for a comparison. -/
def Predicate.render : Predicate → String
  | sgt => "icmp sgt"
  | slt => "icmp slt"
  | eq => "icmp eq"
  | ne => "icmp ne"
  | ogt => "fcmp ogt"
  | olt => "fcmp olt"
  | oeq => "fcmp oeq"
  | une => "fcmp une"

/-- The word for a conversion. -/
def CastOp.render : CastOp → String
  | sitofp => "sitofp"
  | fptosi => "fptosi"
  | sext => "sext"
  | trunc => "trunc"
  | zext => "zext"

/-- The numbers of the results of a function, by identity. -/
abbrev Numbering := Array Nat

/-- The numbering of identities in the order in which they are printed. -/
def Numbering.ofIds (ids : List Nat) : Numbering :=
  let size := ids.foldl max 0 + 1
  ids.zipIdx.foldl (fun numbers (id, n) => numbers.set! id n) (Array.replicate size 0)

/-- The numbering of the results of a function. -/
def Function.numbering (f : Function) : Numbering :=
  .ofIds (f.blocks.toList.flatMap fun b => b.instructions.toList.filterMap Instruction.id?)

/-- The name of a result. -/
def Numbering.name (numbers : Numbering) (id : Nat) : String :=
  s!"%{numbers.getD id 0}"

/-- What an instruction works on, without its type. -/
def Ref.render (numbers : Numbering) : Ref → String
  | int _ n => intText n
  | double x => doubleText x
  | param index _ => s!"%p{index}"
  | slot name _ => "%" ++ name
  | global name _ => "@" ++ nameText name
  | result id _ => numbers.name id

/-- What an instruction works on, with its type. -/
def Ref.typed (numbers : Numbering) (r : Ref) : String :=
  s!"{r.type.render} {r.render numbers}"

/-- The function a call names; one that takes more arguments than it declares shows its type. -/
def Callee.render (c : Callee) : String :=
  let params := ", ".intercalate (c.params.map Ty.render)
  let type :=
    if c.variadic then s!"{c.returns.render} ({params}, ...)" else c.returns.render
  s!"{type} @{nameText c.name}"

/-- An instruction. -/
def Instruction.render (numbers : Numbering) : Instruction → String
  | slot name type => s!"%{name} = alloca {type.render}"
  | alloca id type => s!"{numbers.name id} = alloca {type.render}"
  | load id type pointer =>
    s!"{numbers.name id} = load {type.render}, {pointer.typed numbers}"
  | store value pointer => s!"store {value.typed numbers}, {pointer.typed numbers}"
  | element id array pointer offset =>
    s!"{numbers.name id} = getelementptr {array.render}, {pointer.typed numbers}, "
      ++ s!"i64 0, i64 {intText offset}"
  | binary id op left right =>
    s!"{numbers.name id} = {op.render} {left.typed numbers}, {right.render numbers}"
  | compare id predicate left right =>
    s!"{numbers.name id} = {predicate.render} {left.typed numbers}, {right.render numbers}"
  | cast id op value target =>
    s!"{numbers.name id} = {op.render} {value.typed numbers} to {target.render}"
  | call id callee arguments =>
    let result := match id with
      | some id => numbers.name id ++ " = "
      | none => ""
    let arguments := ", ".intercalate (arguments.map (Ref.typed numbers))
    s!"{result}call {callee.render}({arguments})"

/-- The end of a block. -/
def Terminator.render (numbers : Numbering) : Terminator → String
  | branch target => s!"br label %{target.render}"
  | conditional condition yes no =>
    s!"br {condition.typed numbers}, label %{yes.render}, label %{no.render}"
  | ret none => "ret void"
  | ret (some value) => s!"ret {value.typed numbers}"
  | unreachable => "unreachable"

/-- A block. -/
def Block.render (numbers : Numbering) (b : Block) : String :=
  let instructions := b.instructions.toList.map (Instruction.render numbers)
  let lines := instructions ++ (b.terminator.map (Terminator.render numbers)).toList
  s!"{b.label.render}:\n" ++ String.join (lines.map fun line => "\t" ++ line ++ "\n")

/-- A function with a body. -/
def Function.render (f : Function) : String :=
  let numbers := f.numbering
  let params := f.params.zipIdx.map fun (type, i) => s!"{type.render} %p{i}"
  let header := s!"define {f.returns.render} @{nameText f.name}"
    ++ "(" ++ ", ".intercalate params ++ ") \x7b\n"
  header ++ "\n".intercalate (f.blocks.toList.map (Block.render numbers)) ++ "\x7d\n"

/-- A function without a body. -/
def Declaration.render (d : Declaration) : String :=
  let params := (d.callee.params.zip d.paramNames).map fun (type, name) =>
    s!"{type.render} %{name}"
  let params := params ++ (if d.callee.variadic then ["..."] else [])
  s!"declare {d.callee.returns.render} @{nameText d.callee.name}"
    ++ "(" ++ ", ".intercalate params ++ ")\n"

/-- A global. -/
def Global.render (g : Global) : String :=
  let value := match g.initial with
    | .text bytes => s!"constant {g.type.render} c{quoted bytes}"
    | .zeros => s!"global {g.type.render} zeroinitializer"
  s!"@{nameText g.name} = {value}\n"

/-- A module. -/
def Module.render (m : Module) : String :=
  let source :=
    if m.source = "" then ""
    else "source_filename = " ++ quoted (Text.Utf8.encode m.source) ++ "\n\n"
  let functions := m.declarations.map Declaration.render ++ m.functions.map Function.render
  source ++ String.join (m.globals.map Global.render) ++ "\n" ++ "\n".intercalate functions

end DuckLang.Llvm
