import DuckLang.Text.Layout

/-! Parsing tables.  A row gives for each terminal the action of the parser and for each
non-terminal the state it goes to after a reduction.  States and rules are named by integers, and a
table may name some that it does not have. -/

namespace DuckLang

/-- What a parser does on a terminal. -/
inductive Table.Action where
  | shift (state : Int)
  | reduce (rule : Int)
  | accept
  deriving DecidableEq

/-- A rule a parser can reduce by: its head and the number of symbols of its body. -/
structure Table.Rule where
  head : String
  size : Nat
  deriving DecidableEq

/-- A row of a parsing table. -/
structure Table.Row where
  actions : List (String × Table.Action) := []
  gotos : List (String × Int) := []
  deriving DecidableEq

/-- A cell that two items fill differently: what was kept of it and what was dropped. -/
structure Table.Conflict where
  state : Nat
  terminal : String
  kept : Table.Action
  dropped : Table.Action
  deriving DecidableEq

/-- A parsing table. -/
structure Table where
  rows : Array Table.Row
  rules : Array Table.Rule
  conflicts : List Table.Conflict := []
  deriving DecidableEq

namespace Table

/-- An action in short. -/
def Action.render : Action → String
  | shift state => s!"s{state}"
  | reduce rule => s!"r{rule}"
  | accept => "acc"

/-- The action that stays in a cell which two items fill: to accept wins over all, to shift over a
reduction, and the earlier production over a later one. -/
def Action.preferred (existing incoming : Action) : Bool :=
  match existing, incoming with
  | accept, _ => false
  | _, accept => true
  | reduce _, shift _ => true
  | shift _, reduce _ => false
  | shift a, shift b => b < a
  | reduce a, reduce b => b < a

/-- A conflict on one line. -/
def Conflict.render (c : Conflict) : String :=
  let kind :=
    match c.kept, c.dropped with
    | .reduce _, .reduce _ => "reduce/reduce"
    | _, _ => "shift/reduce"
  s!"{kind} conflict in state {c.state} on `{c.terminal}`: "
    ++ s!"kept {c.kept.render}, dropped {c.dropped.render}"

/-- The action of a row on a terminal. -/
def Row.action? (row : Row) (terminal : String) : Option Action :=
  row.actions.lookup terminal

/-- The state a row goes to after a reduction to a non-terminal. -/
def Row.goto? (row : Row) (head : String) : Option Int :=
  row.gotos.lookup head

/-- The row of a state. -/
def row? (t : Table) : Int → Option Row
  | .ofNat state => t.rows[state]?
  | .negSucc _ => none

/-- The rule with a number. -/
def rule? (t : Table) : Int → Option Rule
  | .ofNat rule => t.rules[rule]?
  | .negSucc _ => none

/-- An association list with a key set, in its old place if it has one. -/
def setKey {α : Type} (key : String) (value : α) : List (String × α) → List (String × α)
  | [] => [(key, value)]
  | (k, v) :: rest => if k = key then (key, value) :: rest else (k, v) :: setKey key value rest

/-- A rule with its number. -/
def renderRule (entry : Rule × Nat) : String :=
  let (rule, index) := entry
  "r" ++ Text.padRight 4 (toString index) ++ s!" <{rule.head}> ({rule.size})\n"

/-- The cells of a row with the number of its state: actions, then gotos, each in the order of their
names. -/
def renderRow (entry : Row × Nat) : String :=
  let (row, index) := entry
  let actions := row.actions.mergeSort fun a b => a.1 ≤ b.1
  let gotos := row.gotos.mergeSort fun a b => a.1 ≤ b.1
  s!"state {index}:"
    ++ String.join (actions.map fun (name, action) => s!" {name}={action.render}")
    ++ String.join (gotos.map fun (name, next) => s!" <{name}>={next}")
    ++ "\n"

/-- A table in readable form: its rules, its rows and its conflicts. -/
def render (t : Table) : String :=
  String.join (t.rules.toList.zipIdx.map renderRule)
    ++ String.join (t.rows.toList.zipIdx.map renderRow)
    ++ String.join (t.conflicts.map fun c => s!"conflict: {c.render}\n")

end Table

end DuckLang
