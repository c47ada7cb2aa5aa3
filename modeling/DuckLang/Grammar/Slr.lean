import DuckLang.Diagnostic
import DuckLang.Grammar.Analysis
import DuckLang.Grammar.Automaton
import DuckLang.Table

/-! The SLR(1) table of a grammar.  Each item of a state proposes actions: to shift the terminal
behind its dot or, at the end of its body, to reduce on every terminal that may follow its
head.  Where proposals differ one of them is kept and the conflict is recorded. -/

namespace DuckLang.Grammar

open Table (Action Row Rule Conflict)

/-- What an item of a state puts into its row. -/
inductive Proposal where
  | act (terminal : String) (action : Action)
  | goto (head : String) (state : Nat)

/-- What an item of a state proposes. -/
def proposals (g : Grammar) (a : Analysis) (state : State) (item : Item) : List Proposal :=
  match g.next? item with
  | none =>
    if item.rule = 0 then [.act Token.Kind.endMarker .accept]
    else
      (a.follow.get (g.production item.rule).head).map fun terminal =>
        .act terminal (.reduce item.rule)
  | some symbol =>
    match state.edges.lookup symbol with
    | none => []
    | some next =>
      match symbol with
      | .terminal name => [.act name (.shift next)]
      | .nonterminal name => [.goto name next]

/-- A row with a proposal entered, and the conflict that this brings up. -/
def enter (index : Nat) (row : Row) : Proposal → Row × List Conflict
  | .goto head next => ({ row with gotos := Table.setKey head next row.gotos }, [])
  | .act terminal action =>
    match row.action? terminal with
    | none => ({ row with actions := Table.setKey terminal action row.actions }, [])
    | some existing =>
      if existing = action then (row, [])
      else
        let (kept, dropped) :=
          if existing.preferred action then (action, existing) else (existing, action)
        ({ row with actions := Table.setKey terminal kept row.actions },
          [{ state := index, terminal, kept, dropped }])

/-- A row with proposals entered one after the other, and the conflicts they bring up. -/
def enterAll (index : Nat) (row : Row) : List Proposal → Row × List Conflict
  | [] => (row, [])
  | p :: ps =>
    let (row, conflict) := enter index row p
    let (row, conflicts) := enterAll index row ps
    (row, conflict ++ conflicts)

/-- The row of a state and its conflicts. -/
def stateRow (g : Grammar) (a : Analysis) (entry : State × Nat) : Row × List Conflict :=
  let (state, index) := entry
  enterAll index {} (state.items.flatMap (g.proposals a state))

/-- The table of a grammar, conflicts resolved and recorded. -/
def table (g : Grammar) : Table :=
  let a := g.analyze
  let rows := g.automaton.states.toList.zipIdx.map (g.stateRow a)
  { rows := (rows.map (·.1)).toArray
    rules := g.productions.map fun p => { head := p.head, size := p.body.length }
    conflicts := rows.flatMap (·.2) }

/-- The table of a grammar; if `strict`, a grammar with conflicts is refused. -/
def buildTable (g : Grammar) (strict : Bool) : Except Diagnostic Table :=
  let t := g.table
  match strict, t.conflicts with
  | true, first :: _ => .error { cause := .notSlr t.conflicts.length first.render }
  | _, _ => .ok t

end DuckLang.Grammar
