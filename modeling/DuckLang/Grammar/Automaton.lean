import DuckLang.Ascending
import DuckLang.Grammar

/-! The LR(0) automaton.  A state is a closed set of items; state 0 is the closure of the augmented
start item, and the state after a symbol is the closure of the items advanced over it.  States are
numbered in the order in which a breadth first walk over the symbols finds them. -/

namespace DuckLang.Grammar

/-- A production with a dot before the symbol at `dot`. -/
structure Item where
  rule : Nat
  dot : Nat
  deriving DecidableEq

/-- Whether an item comes before another: by production, then by dot. -/
def Item.before (a b : Item) : Bool :=
  a.rule < b.rule || (a.rule = b.rule && a.dot < b.dot)

/-- A set of items as a strictly increasing list. -/
abbrev ItemSet := List Item

/-- A set with an item more. -/
def ItemSet.insert (item : Item) (items : ItemSet) : ItemSet :=
  Ascending.insert (fun a b => a.before b) item items

/-- The symbol behind the dot; none at the end of the body. -/
def next? (g : Grammar) (item : Item) : Option Symbol :=
  (g.production item.rule).body[item.dot]?

/-- The items that a dot before a non-terminal adds: those of its productions with the dot in
front. -/
def predictions (g : Grammar) (item : Item) : List Item :=
  match g.next? item with
  | some (.nonterminal name) => (g.idsOf name).map fun rule => { rule, dot := 0 }
  | _ => []

/-- Adds to `closed` all that the items still `pending` call for; each of `fuel` steps takes one. -/
def closeLoop (g : Grammar) : Nat → List Item → ItemSet → ItemSet
  | 0, _, closed => closed
  | _, [], closed => closed
  | fuel + 1, item :: pending, closed =>
    let new := (g.predictions item).filter fun i => !closed.contains i
    closeLoop g fuel (pending ++ new) (new.foldl (fun set i => ItemSet.insert i set) closed)

/-- The closure of a set of items. -/
def close (g : Grammar) (items : ItemSet) : ItemSet :=
  g.closeLoop (items.length + g.productions.size) items items

/-- The items of a set whose dot stands before a symbol, with the dot behind it. -/
def advance (g : Grammar) (items : ItemSet) (symbol : Symbol) : ItemSet :=
  (items.filter fun item => g.next? item = some symbol).map fun item =>
    { item with dot := item.dot + 1 }

/-- A state: its items, and for each symbol that can be advanced over the state behind it. -/
structure State where
  items : ItemSet
  edges : List (Symbol × Nat)
  deriving DecidableEq

/-- The LR(0) automaton of a grammar. -/
structure Automaton where
  states : Array State

/-- The edges out of a set of items, and the sets found so far with those they lead to. -/
def link (g : Grammar) (items : ItemSet) :
    List Symbol → List ItemSet → List (Symbol × Nat) × List ItemSet
  | [], found => ([], found)
  | symbol :: symbols, found =>
    match g.advance items symbol with
    | [] => g.link items symbols found
    | kernel =>
      let target := g.close kernel
      match found.idxOf? target with
      | some index =>
        let (edges, found) := g.link items symbols found
        ((symbol, index) :: edges, found)
      | none =>
        let (edges, all) := g.link items symbols (found ++ [target])
        ((symbol, found.length) :: edges, all)

/-- The states of the item sets from position `done` on and of all that they lead to; each of `fuel`
steps makes one state. -/
def explore (g : Grammar) : Nat → Nat → List ItemSet → List State
  | 0, _, _ => []
  | fuel + 1, done, found =>
    match found[done]? with
    | none => []
    | some items =>
      let (edges, found) := g.link items g.symbols found
      { items, edges } :: g.explore fuel (done + 1) found

/-- The number of items of a grammar. -/
def itemCount (g : Grammar) : Nat :=
  g.productions.toList.foldr (fun p n => p.body.length + 1 + n) 0

/-- The closure of the augmented start item. -/
def startItems (g : Grammar) : ItemSet :=
  g.close [{ rule := 0, dot := 0 }]

/-- The LR(0) automaton of a grammar; it has at most one state for each set of items. -/
def automaton (g : Grammar) : Automaton :=
  { states := (g.explore (Nat.pow 2 g.itemCount) 0 [g.startItems]).toArray }

/-- A production on one line with a bullet before the symbol at `dot`, or at its end if that is its
length; anywhere else no bullet is shown. -/
def Production.renderDotted (p : Production) (dot : Int) : String :=
  let parts := p.body.zipIdx.map fun (symbol, i) =>
    (if (i : Int) = dot then " •" else "") ++ " " ++ symbol.render
  let last := if dot = p.body.length then " •" else ""
  s!"<{p.head}> {arrow}" ++ String.join parts ++ last

/-- An item on one line, the dot shown as a bullet. -/
def describe (g : Grammar) (item : Item) : String :=
  (g.production item.rule).renderDotted item.dot

namespace Automaton

/-- The number of edges. -/
def edgeCount (a : Automaton) : Nat :=
  a.states.toList.foldr (fun s n => s.edges.length + n) 0

/-- A state with its items and edges. -/
def renderState (g : Grammar) (entry : State × Nat) : String :=
  let (state, index) := entry
  s!"state {index}:\n"
    ++ String.join (state.items.map fun item => s!"    {g.describe item}\n")
    ++ String.join (state.edges.map fun (symbol, next) => s!"    {symbol.render} -> {next}\n")
    ++ "\n"

/-- Every state with its items and edges. -/
def render (g : Grammar) (a : Automaton) : String :=
  String.join (a.states.toList.zipIdx.map (renderState g))

end Automaton

end DuckLang.Grammar
