import DuckLang.Parser.Action
import DuckLang.Table

/-! The table driven parser.  It builds no tree: reductions and shifts have their effects on an
emitter as they happen.  `step` makes one action, `run` at most a given number of them. -/

namespace DuckLang

/-- A place in a list of tokens. -/
structure Parser.Cursor where
  /-- The token before the one looked at. -/
  previous : Option Token
  lookahead : Token
  rest : List Token

/-- A parser in the middle of its tokens. -/
structure Parser where
  cursor : Parser.Cursor
  /-- The states above state 0 with the attributes of their symbols, top first. -/
  stack : List (Int × Attribute) := []
  emitter : Emitter := {}

namespace Parser

/-- The place at the start of a list of tokens. -/
def Cursor.start : List Token → Cursor
  | [] => { previous := none, lookahead := .endOfInput 1, rest := [] }
  | t :: ts => { previous := none, lookahead := t, rest := ts }

/-- The next place.  Past the last token there is the end of the input, on the line of that token.
-/
def Cursor.advance (c : Cursor) : Cursor :=
  match c.rest with
  | t :: ts => { previous := some c.lookahead, lookahead := t, rest := ts }
  | [] => { c with lookahead := .endOfInput c.lookahead.line }

/-- The line of the token before the one looked at, if there is one. -/
def Cursor.lastLine (c : Cursor) : Int :=
  match c.previous with
  | some t => t.line
  | none => c.lookahead.line

/-- A parser at the start of its tokens. -/
def start (tokens : List Token) : Parser :=
  { cursor := .start tokens }

/-- The state on top of a stack. -/
def topState (stack : List (Int × Attribute)) : Int :=
  match stack with
  | [] => 0
  | (state, _) :: _ => state

/-- What an action leads to. -/
inductive Step where
  | next (p : Parser)
  | accepted (p : Parser)
  | failed (d : Diagnostic) (p : Parser)

/-- A cause as it is reported: where the parser is, unless an invariant is broken. -/
def report (p : Parser) (cause : Cause) : Diagnostic :=
  { cause, line := if cause.kind = .internal then 0 else p.cursor.lastLine }

/-- Pushes the token looked at and lets it have its effect. -/
def shift (p : Parser) (state : Int) : Step :=
  let t := p.cursor.lookahead
  let p := { p with cursor := p.cursor.advance, stack := (state, .ofText t.text) :: p.stack }
  match (shiftEffect t.kind).run p.emitter with
  | .ok _ emitter => .next { p with emitter }
  | .error cause emitter =>
    let p := { p with emitter }
    .failed (p.report cause) p

/-- Pops the body of a rule, lets the rule have its effect and goes on with its head. -/
def reduce (table : Table) (p : Parser) (index : Int) : Step :=
  match table.rule? index with
  | none => .failed { cause := .missingRule index } p
  | some rule =>
    if p.stack.length < rule.size then .failed { cause := .stackUnderflow rule.head } p
    else
      let attributes := ((p.stack.take rule.size).map (·.2)).reverse
      let stack := p.stack.drop rule.size
      match (reduceEffect rule.head attributes).run p.emitter with
      | .error cause emitter =>
        let p := { p with stack, emitter }
        .failed (p.report cause) p
      | .ok head emitter =>
        let p := { p with stack, emitter }
        let state := topState stack
        match (table.row? state).bind (·.goto? rule.head) with
        | some next => .next { p with stack := (next, head) :: stack }
        | none => .failed { cause := .missingGoto rule.head state } p

/-- The report of a token that has no action in a state. -/
def unexpected (t : Token) (state : Int) : Diagnostic :=
  let cause :=
    if t.kind = .endOfInput then Cause.unexpectedEnd state else .unexpectedToken t.text state
  { cause, line := t.line }

/-- Makes one action. -/
def step (table : Table) (p : Parser) : Step :=
  let state := topState p.stack
  match table.row? state with
  | none => .failed { cause := .missingState state } p
  | some row =>
    let t := p.cursor.lookahead
    match row.action? t.terminal with
    | none => .failed (unexpected t state) p
    | some (.shift next) => p.shift next
    | some (.reduce rule) => reduce table p rule
    | some .accept => .accepted p

/-- How a run ends. -/
inductive Outcome where
  | accepted (p : Parser)
  | failed (d : Diagnostic) (p : Parser)
  /-- The number of actions was not enough. -/
  | unfinished (p : Parser)

/-- Makes actions until the parser accepts or fails, at most `fuel` of them. -/
def run (table : Table) : Nat → Parser → Outcome
  | 0, p => .unfinished p
  | fuel + 1, p =>
    match step table p with
    | .next p => run table fuel p
    | .accepted p => .accepted p
    | .failed d p => .failed d p

/-- The parser with which a run ends. -/
def Outcome.parser : Outcome → Parser
  | accepted p | failed _ p | unfinished p => p

end Parser

end DuckLang
