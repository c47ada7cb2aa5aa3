import DuckLang.Emitter

/-! The end of a program and its export. -/

namespace DuckLang.Emitter

/-- Ends the program. -/
def finish : Emit Unit := do
  let _ ← emit { op := .halt }

/-- The literals of a list of quadruples, from first to last. -/
def literals (quads : List Quad) : List Value :=
  quads.flatMap fun q => q.operands.filterMap Operand.literal?

/-- The functions of an exported program; a main body that was never marked starts at the first
quadruple. -/
def exportedFunctions (e : Emitter) : Directory :=
  match e.functions.get? mainName with
  | some _ => e.functions
  | none => e.functions ++ [(mainName, { name := mainName, entry := 0 })]

/-- The program made of what was emitted, if nothing is left open. -/
def exportProgram (e : Emitter) (name : String) : Except Cause Program :=
  if !e.operands.isEmpty then .error (.operandsLeft e.operands.length)
  else if !e.controls.isEmpty || !e.calls.isEmpty then .error .unterminated
  else
    match e.quads.findIdx? (·.result.isPending) with
    | some index => .error (.jumpUnresolved index)
    | none =>
      match ConstantPool.addAll {} e.allocator (literals e.quads.toList) with
      | .error cause _ => .error cause
      | .ok _ (pool, _) =>
        .ok {
          name
          quads := e.quads
          functions := e.exportedFunctions
          constants := pool.entries
          strings := e.strings
          globals := .ofCounts e.allocator.globals }

end DuckLang.Emitter
