import DuckLang.Proofs.Emitter.Program
import DuckLang.Proofs.Parser.Discipline
import DuckLang.Proofs.Token.Spelling

/-! What the symbols of the Duck language do to a draft.  Non-terminals that do the same are phrases
of one sort: an expression leaves an operand, a statement nothing but code.  A token does nothing
unless it opens or closes a part of a construct. -/

namespace DuckLang

open Emitter

namespace Duck

/-- The sorts of phrases. -/
inductive Phrase where
  | program
  | header
  | declarations
  /-- The type that the names behind it are declared with. -/
  | declarator
  | names
  | type
  | returnType
  | functions
  | functionHeader
  | parameters
  | statement
  | elsePart
  | call
  | callHead
  | arguments
  /-- An expression that may be the condition of a header. -/
  | condition
  | operand
  | constant
  | relation
  /-- One of some arithmetic operators. -/
  | arithmetic (ops : List ArithOp)
  | paren

/-- The non-terminals with their sorts. -/
def Phrase.all : List (String × Phrase) :=
  [("Program", program), ("ProgHeader", header), ("VarsOpt", declarations),
   ("VarList", declarations), ("VarDecl", declarations), ("VarType", declarator),
   ("IdList", names), ("Type", type), ("RetType", returnType), ("Funcs", functions),
   ("Func", functions), ("FuncHeader", functionHeader), ("ParamsOpt", parameters),
   ("ParamList", parameters), ("Param", parameters), ("Body", statement), ("Stmts", statement),
   ("Stmt", statement), ("Assign", statement), ("Condition", statement), ("Cycle", statement),
   ("Print", statement), ("PrintList", statement), ("PrintItem", statement), ("Read", statement),
   ("ReadList", statement), ("Return", statement), ("ElseOpt", elsePart), ("Call", call),
   ("CallHead", callHead), ("ArgsOpt", arguments), ("ArgList", arguments), ("Arg", arguments),
   ("Expr", condition), ("Exp", operand), ("Term", operand), ("Factor", operand),
   ("Constant", constant), ("RelOp", relation), ("AddOp", arithmetic [.add, .sub]),
   ("MulOp", arithmetic [.mul, .div]), ("LParen", paren)]

/-- The sort of a non-terminal. -/
def Phrase.of? (name : String) : Option Phrase :=
  all.lookup name

/-- A draft with one operand more. -/
def Pushes (γ γ' : Draft) : Prop :=
  ∃ o, γ.Does γ' { γ.allStacks with operands := o :: γ.allStacks.operands }

/-- Where a header waits for its condition, it owes nothing yet and stands outside of calls. -/
def Header (e : Emitter) : Prop :=
  awaitsCondition e = true →
    e.calls = [] ∧ ∃ c controls, e.controls = c :: controls ∧ c.owed = []

/-- What holds where a phrase starts. -/
def Phrase.Ready : Phrase → Draft → Prop
  | program, γ | header, γ => γ = .blank
  | type, _ | returnType, _ => True
  | names, γ => γ.Valid ∧ γ.emitter.scope.declaring.isSome
  | functions, γ | functionHeader, γ => γ.Valid ∧ Global γ.emitter
  | parameters, γ => γ.Opened
  | statement, γ => γ.Valid ∧ AtStatement γ.emitter
  | elsePart, γ => γ.Valid ∧ AtStatement γ.emitter ∧
      ∃ c controls, γ.allStacks.controls = c :: controls ∧ c.construct = .branch none ∧
        c.falseJump.isSome
  | arguments, γ => γ.Valid ∧ (∃ operators, γ.allStacks.operators = .paren :: operators) ∧
      ∃ c calls, γ.allStacks.calls = c :: calls
  | condition, γ => γ.Valid ∧ Header γ.emitter
  | _, γ => γ.Valid

/-- What a phrase with an attribute does. -/
def Phrase.Made : Phrase → Draft → Attribute → Draft → Prop
  | program, _, _, γ' => γ'.Valid ∧ InMain γ'.emitter
  | header, _, _, γ' | functions, _, _, γ' => γ'.Valid ∧ Global γ'.emitter
  | declarations, γ, _, γ' => γ.Declares γ'
  | declarator, γ, _, γ' | names, γ, _, γ' =>
      γ.Declares γ' ∧ γ'.emitter.scope.declaring.isSome
  | type, γ, a, γ' => γ' = γ ∧
      ∃ type, DataType.ofKeyword? a.text = some type ∧ type.isStorable = true
  | returnType, γ, a, γ' => γ' = γ ∧
      ∃ type, DataType.ofKeyword? a.text = some type ∧ (type = .void ∨ type.isStorable = true)
  | functionHeader, _, _, γ' | parameters, _, _, γ' => γ'.Opened
  | statement, γ, _, γ' => γ.Does γ' γ.allStacks
  | elsePart, γ, _, γ' =>
      ∃ c controls exitJump, γ.allStacks.controls = c :: controls ∧ γ.Does γ' { γ.allStacks with
        controls := { c with construct := .branch exitJump } :: controls }
  | call, γ, a, γ' =>
      (∃ function, a = .call function ∧ Pushes γ γ') ∨
        ∃ function, a = .voidCall function ∧ γ.Does γ' γ.allStacks
  | callHead, γ, _, γ' =>
      ∃ function, γ.Does γ' { γ.allStacks with
        operators := .paren :: γ.allStacks.operators
        calls := { function, arguments := 0 } :: γ.allStacks.calls }
  | arguments, γ, _, γ' =>
      ∃ c calls arguments, γ.allStacks.calls = c :: calls ∧ γ.Does γ' { γ.allStacks with
        calls := { c with arguments } :: calls }
  | condition, γ, a, γ' => a = .expression ∧
      (Pushes γ γ' ∨ awaitsCondition γ.emitter = true ∧
        ∃ c controls jump, γ.allStacks.controls = c :: controls ∧ γ.Does γ' { γ.allStacks with
          controls := { c with falseJump := some jump } :: controls })
  | operand, γ, _, γ' => Pushes γ γ'
  | constant, γ, a, γ' => a = .constant ∧ Pushes γ γ'
  | relation, γ, _, γ' =>
      ∃ op, γ.Does γ' { γ.allStacks with
        operators := .operator (.rel op) :: γ.allStacks.operators }
  | arithmetic ops, γ, _, γ' =>
      ∃ op ∈ ops, γ.Does γ' { γ.allStacks with
        operators := .operator (.arith op) :: γ.allStacks.operators }
  | paren, γ, _, γ' => γ.Does γ' { γ.allStacks with operators := .paren :: γ.allStacks.operators }

/-- The tokens with an effect. -/
inductive Hook where
  | ifWord
  | whileWord
  | headerEnd
  | elseWord
  | mainWord

/-- The terminals with an effect. -/
def Hook.all : List (String × Hook) :=
  [("if", ifWord), ("while", whileWord), ("then", headerEnd), ("do", headerEnd),
   ("else", elseWord), ("main", mainWord)]

/-- The effect that a terminal has, if any. -/
def Hook.of? (name : String) : Option Hook :=
  all.lookup name

/-- The operation of a token with an effect. -/
def Hook.effect : Hook → Emit Unit
  | ifWord => enterIf
  | whileWord => enterWhile
  | headerEnd => leaveHeader
  | elseWord => enterElse
  | mainWord => markMain

/-- What a token with an effect does. -/
def Hook.Made : Hook → Draft → Draft → Prop
  | ifWord, γ, γ' => γ.Does γ' { γ.allStacks with
      controls := { construct := .branch none, isOpen := true, depth := 0, falseJump := none } ::
        γ.allStacks.controls }
  | whileWord, γ, γ' => ∃ top, γ.Does γ' { γ.allStacks with
      controls := { construct := .loop top, isOpen := true, depth := 0, falseJump := none } ::
        γ.allStacks.controls }
  | headerEnd, γ, γ' =>
      ∃ c controls jump, γ.allStacks.controls = c :: controls ∧ γ.Does γ' { γ.allStacks with
        operands := [],
        controls := { c with isOpen := false, falseJump := some jump } :: controls }
  | elseWord, γ, γ' =>
      ∃ c controls exitJump, γ.allStacks.controls = c :: controls ∧ γ.Does γ' { γ.allStacks with
        controls := { c with construct := .branch (some exitJump) } :: controls }
  | mainWord, _, γ' => γ'.Valid ∧ InMain γ'.emitter

/-- What is known of the attribute of a token. -/
def Lexeme (name : String) (a : Attribute) : Prop :=
  if name = "id" then ∃ text, a = .lexeme text ∧ text ≠ "" ∧ text ≠ mainName
  else if name = "cte_string" then a.text.startsWith "\"" = true
  else name ∈ ["cte_int", "cte_float", "cte_char"] ∨ a.text = name

/-- What the symbols of the language do. -/
def discipline : Parser.Discipline Draft where
  emitter := Draft.emitter
  Ready name γ :=
    match Phrase.of? name with
    | some phrase => phrase.Ready γ
    | none => False
  Made
    | .nonterminal name, γ, a, γ' =>
      match Phrase.of? name with
      | some phrase => phrase.Made γ a γ'
      | none => False
    | .terminal name, γ, a, γ' =>
      match Hook.of? name with
      | some hook => hook.Made γ γ'
      | none => γ' = γ ∧ Lexeme name a
  Word t := t.kind.isSpelled t.text = true
  Allowed := Cause.Expected

end Duck

end DuckLang
