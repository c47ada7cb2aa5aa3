import DuckLang.Address

/-! What can go wrong while a program is compiled.  A `Cause` says what went wrong, its `kind` sorts
it and its `message` is the wording; a `Diagnostic` is a cause at a source line. -/

namespace DuckLang

/-- The kinds of compile errors. -/
inductive Kind where
  /-- A malformed grammar, or conflicts in its table. -/
  | grammar
  /-- Text that is no token. -/
  | token
  /-- A token with no parser action. -/
  | parse
  /-- An undeclared name. -/
  | name
  /-- A second definition of a name. -/
  | definition
  /-- Operands that the semantic cube refuses. -/
  | type
  /-- Misuse of a well typed construct. -/
  | usage
  /-- A broken invariant of the compiler. -/
  | internal
  /-- A fault of a running program. -/
  | runtime
  deriving DecidableEq

/-- The title of a kind in a report. -/
def Kind.title : Kind → String
  | grammar => "Grammar"
  | token => "Token"
  | parse => "Syntax"
  | name => "Name"
  | definition => "Definition"
  | type => "Type"
  | usage => "Usage"
  | internal => "Internal"
  | runtime => "Runtime"

/-- The kind with the given number. -/
def Kind.ofCode? : Int → Option Kind
  | 0 => some grammar
  | 1 => some token
  | 2 => some parse
  | 3 => some name
  | 4 => some definition
  | 5 => some type
  | 6 => some usage
  | 7 => some internal
  | 8 => some runtime
  | _ => none

/-- What went wrong. -/
inductive Cause where
  /-- A line of a grammar has no arrow. -/
  | missingArrow
  /-- The text before an arrow is no non-terminal. -/
  | headNotNonterminal (text : String)
  /-- The end marker stands in a production. -/
  | reservedTerminal (name : String)
  /-- A grammar without productions. -/
  | emptyGrammar
  /-- A non-terminal that heads no production. -/
  | undefinedNonterminal (name : String)
  /-- A grammar with conflicting actions, the first of them described. -/
  | notSlr (conflicts : Nat) (first : String)
  /-- Text that is no token. -/
  | malformedToken (text : String)
  /-- A char literal that does not denote one character. -/
  | malformedChar (lexeme : String)
  /-- A float literal that is no double. -/
  | malformedFloat (lexeme : String)
  /-- An int literal that does not fit. -/
  | integerRange (lexeme : String)
  /-- A string literal that cannot be decoded. -/
  | malformedString (lexeme : String)
  /-- The input ends where it cannot. -/
  | unexpectedEnd (state : Int)
  /-- A token stands where it cannot. -/
  | unexpectedToken (text : String) (state : Int)
  | undeclaredVariable (name : String)
  | undefinedFunction (name : String)
  /-- The program header comes twice. -/
  | programInitialized (name : String)
  | functionIsProgram (name : String)
  | functionDefined (name : String)
  | variableDeclared (name scope : String)
  | cannotAssign (source : DataType) (name : String) (destination : DataType)
  | cannotNegate (type : DataType)
  | cannotOperate (op : Operator) (left right : DataType)
  /-- The condition of an `if` or `while` is no comparison. -/
  | conditionNotRelational
  | cannotReturn (type : DataType) (function : String) (returns : DataType)
  | argumentType (position : Nat) (function : String) (expected given : DataType)
  /-- A range of the memory map is used up. -/
  | outOfMemory (segment : Segment) (type : DataType)
  | writeVoid
  | returnOutside
  | voidReturn (function : String)
  | tooManyArguments (function : String) (expected : Nat)
  | argumentCount (function : String) (expected given : Nat)
  | voidValue (function : String)
  | functionBeforeHeader (name : String)
  | variableWithoutType (name : String)
  /-- A parameter is bound while no function scope is open. -/
  | parameterUnscoped (name : String)
  | noScope (name : String)
  | noStorage (type : DataType)
  | backpatchMissing (index : Int)
  | backpatchResolved (index : Int)
  | operandUnderflow
  | operandsLeft (count : Nat)
  | unterminated
  | jumpUnresolved (index : Nat)
  | unmatchedParen
  | noControl
  | elseOutside
  | ifMismatch
  | whileMismatch
  /-- A parameter is added while no function is being generated. -/
  | parameterOutside (name : String)
  | endOutside
  | argumentOutside
  | callEndOutside
  | missingState (state : Int)
  | missingRule (rule : Int)
  | stackUnderflow (rule : String)
  | missingGoto (head : String) (state : Int)
  | unknownType (name : String)
  deriving DecidableEq

namespace Cause

/-- The kind of a cause. -/
def kind : Cause → Kind
  | missingArrow | headNotNonterminal _ | reservedTerminal _ | emptyGrammar
  | undefinedNonterminal _ | notSlr _ _ => .grammar
  | malformedToken _ | malformedChar _ | malformedFloat _ | integerRange _
  | malformedString _ => .token
  | unexpectedEnd _ | unexpectedToken _ _ => .parse
  | undeclaredVariable _ | undefinedFunction _ => .name
  | programInitialized _ | functionIsProgram _ | functionDefined _
  | variableDeclared _ _ => .definition
  | cannotAssign _ _ _ | cannotNegate _ | cannotOperate _ _ _ | conditionNotRelational
  | cannotReturn _ _ _ | argumentType _ _ _ _ => .type
  | outOfMemory _ _ | writeVoid | returnOutside | voidReturn _ | tooManyArguments _ _
  | argumentCount _ _ _ | voidValue _ => .usage
  | functionBeforeHeader _ | variableWithoutType _ | parameterUnscoped _ | noScope _ | noStorage _
  | backpatchMissing _ | backpatchResolved _ | operandUnderflow
  | operandsLeft _ | unterminated | jumpUnresolved _ | unmatchedParen | noControl
  | elseOutside | ifMismatch | whileMismatch | parameterOutside _
  | endOutside | argumentOutside | callEndOutside | missingState _ | missingRule _
  | stackUnderflow _ | missingGoto _ _ | unknownType _ => .internal

/-- The wording of a cause. -/
def message : Cause → String
  | missingArrow => "missing `→` in production"
  | headNotNonterminal text => s!"production head must be a non-terminal: `{text}`"
  | reservedTerminal name => s!"`{name}` is reserved for the end of input"
  | emptyGrammar => "grammar has no productions (missing start symbol)"
  | undefinedNonterminal name => s!"non-terminal `<{name}>` has no productions"
  | notSlr conflicts first => s!"grammar is not SLR(1): {conflicts} conflicts, first: {first}"
  | malformedToken text => s!"malformed token: `{text}`"
  | malformedChar lexeme => s!"malformed char literal {lexeme}"
  | malformedFloat lexeme => s!"malformed float literal `{lexeme}`"
  | integerRange lexeme => s!"integer literal `{lexeme}` is out of range"
  | malformedString lexeme => s!"malformed string literal {lexeme}"
  | unexpectedEnd state => s!"unexpected end of file (state {state})"
  | unexpectedToken text state => s!"unexpected token: `{text}` (state {state})"
  | undeclaredVariable name => s!"undeclared variable `{name}`"
  | undefinedFunction name => s!"undefined function `{name}`"
  | programInitialized name => s!"program `{name}` is already initialized"
  | functionIsProgram name => s!"function `{name}` collides with the program name"
  | functionDefined name => s!"function `{name}` is already defined"
  | variableDeclared name scope => s!"variable `{name}` is already declared in `{scope}`"
  | cannotAssign source name destination =>
    s!"cannot assign a value of type `{source.name}` to `{name}` of type `{destination.name}`"
  | cannotNegate type => s!"unary `-` cannot be applied to `{type.name}`"
  | cannotOperate op left right =>
    s!"operator `{op.text}` cannot be applied to `{left.name}` and `{right.name}`"
  | conditionNotRelational => "condition must be a relational expression"
  | cannotReturn type function returns =>
    s!"cannot return a value of type `{type.name}` from `{function}` (returns `{returns.name}`)"
  | argumentType position function expected given =>
    s!"argument {position} of `{function}` must be of type `{expected.name}`, got `{given.name}`"
  | outOfMemory segment type => s!"out of {segment.name} {type.name} memory"
  | writeVoid => "cannot write a value of type `void`"
  | returnOutside => "`return` outside of a function"
  | voidReturn function => s!"void function `{function}` cannot return a value"
  | tooManyArguments function expected =>
    s!"too many arguments in call to `{function}` (expects {expected})"
  | argumentCount function expected given =>
    s!"`{function}` expects {expected} arguments, got {given}"
  | voidValue function => s!"void function `{function}` cannot be used as a value"
  | functionBeforeHeader name => s!"function `{name}` declared before the program header"
  | variableWithoutType name => s!"variable `{name}` declared without a type"
  | parameterUnscoped name => s!"parameter `{name}` declared outside of a function"
  | noScope name => s!"no scope to declare `{name}` in"
  | noStorage type => s!"cannot allocate storage for type `{type.name}`"
  | backpatchMissing index => s!"backpatch of missing quadruple {index}"
  | backpatchResolved index => s!"quadruple {index} has no pending jump target"
  | operandUnderflow => "operand stack is empty"
  | operandsLeft count => s!"{count} operands left on the operand stack"
  | unterminated => "unterminated control flow or call at the end of the program"
  | jumpUnresolved index => s!"jump at quadruple {index} was never backpatched"
  | unmatchedParen => "closing parenthesis without a matching marker"
  | noControl => "no open control construct"
  | elseOutside => "`else` outside of an `if`"
  | ifMismatch => "mismatched end of `if`"
  | whileMismatch => "mismatched end of `while`"
  | parameterOutside name => s!"parameter `{name}` outside of a function"
  | endOutside => "end of function outside of a function"
  | argumentOutside => "argument outside of a call"
  | callEndOutside => "end of call outside of a call"
  | missingState state => s!"parser reached missing state {state}"
  | missingRule rule => s!"reduction by missing rule {rule}"
  | stackUnderflow rule => s!"reduction of `{rule}` underflows the parser stack"
  | missingGoto head state => s!"no goto on `<{head}>` from state {state}"
  | unknownType name => s!"unknown type `{name}`"

end Cause

/-- A cause at a source line; line 0 if the place is unknown. -/
structure Diagnostic where
  cause : Cause
  line : Int := 0
  deriving DecidableEq

/-- A message with the line it concerns, if that is known. -/
def withLine (line : Int) (message : String) : String :=
  if 0 < line then s!"line {line}: {message}" else message

namespace Diagnostic

/-- The wording of a diagnostic without its line. -/
def message (d : Diagnostic) : String :=
  d.cause.message

/-- The wording of a diagnostic with its line. -/
def text (d : Diagnostic) : String :=
  withLine d.line d.message

end Diagnostic

end DuckLang
