import DuckLang.Table
import DuckLang.Token

/-! Context free grammars.  Production 0 is the augmented one, `<Start>Prime → <Start>`; the others
come in the order in which they were given.  An index lists the numbers of productions by their
heads; it is kept while productions are given one after the other, and the entry of the augmented
start is written last. -/

namespace DuckLang

/-- A symbol of a production body. -/
inductive Grammar.Symbol where
  | terminal (name : String)
  | nonterminal (name : String)
  deriving DecidableEq

/-- A production.  An empty body stands for the empty word. -/
structure Grammar.Production where
  head : String
  body : List Grammar.Symbol
  deriving DecidableEq

/-- The numbers of productions by their heads, each head listed once. -/
abbrev Grammar.Index := List (String × List Nat)

/-- An augmented grammar. -/
structure Grammar where
  /-- The head of production 0. -/
  start : String
  productions : Array Grammar.Production
  byHead : Grammar.Index
  /-- The terminals in order of first appearance, the end marker last. -/
  terminals : List String
  /-- The non-terminals in order of first appearance as heads, the augmented start first. -/
  nonterminals : List String

namespace Grammar

/-- The word for an empty body. -/
def epsilon : String := "ε"

/-- The mark between head and body. -/
def arrow : String := "→"

/-- What the name of the augmented start has behind that of the start. -/
def primeMark : String := "Prime"

/-- A symbol as it stands in a production. -/
def Symbol.render : Symbol → String
  | terminal name => name
  | nonterminal name => s!"<{name}>"

/-- Whether a symbol is a terminal. -/
def Symbol.isTerminal : Symbol → Bool
  | terminal _ => true
  | nonterminal _ => false

/-- The non-terminals among symbols. -/
def Symbol.nonterminals (symbols : List Symbol) : List String :=
  symbols.filterMap fun
    | nonterminal name => some name
    | terminal _ => none

/-- The terminals among symbols. -/
def Symbol.terminals (symbols : List Symbol) : List String :=
  symbols.filterMap fun
    | terminal name => some name
    | nonterminal _ => none

/-- A production on one line. -/
def Production.render (p : Production) : String :=
  let body := if p.body.isEmpty then [epsilon] else p.body.map Symbol.render
  s!"<{p.head}> {arrow} " ++ " ".intercalate body

/-- The index with a number put behind those that a head has. -/
def Index.add (index : Index) (head : String) (id : Nat) : Index :=
  Table.setKey head ((index.lookup head).getD [] ++ [id]) index

/-- Productions as they are given, with their index.  Number 0 is kept for the augmented one. -/
structure Collection where
  given : List Production := []
  byHead : Index := []

/-- The collection with a production more. -/
def Collection.add (c : Collection) (p : Production) : Collection :=
  { given := c.given ++ [p], byHead := c.byHead.add p.head (c.given.length + 1) }

/-- The augmented grammar of a collection with the given start.  In the index the augmented start
gets production 0, in the place of what it may have had. -/
def Collection.augment (c : Collection) (start : String) : Grammar :=
  let augmented := start ++ primeMark
  { start := augmented
    productions := ({ head := augmented, body := [.nonterminal start] } :: c.given).toArray
    byHead := Table.setKey augmented [0] c.byHead
    terminals :=
      (c.given.flatMap fun p => Symbol.terminals p.body).eraseDups ++ [Token.Kind.endMarker]
    nonterminals := (augmented :: c.given.map (·.head)).eraseDups }

/-- The augmented grammar of productions, the first of which has the start as its head. -/
def ofProductions (first : Production) (rest : List Production) : Grammar :=
  ((first :: rest).foldl Collection.add {}).augment first.head

/-- The production with a number. -/
def production (g : Grammar) (id : Nat) : Production :=
  g.productions[id]?.getD { head := g.start, body := [] }

/-- The numbers of productions that the index lists for a non-terminal. -/
def idsOf (g : Grammar) (head : String) : List Nat :=
  (g.byHead.lookup head).getD []

/-- Whether a name is a terminal of a grammar. -/
def isTerminal (g : Grammar) (name : String) : Bool :=
  g.terminals.contains name

/-- The symbols of a grammar: its terminals, then its non-terminals. -/
def symbols (g : Grammar) : List Symbol :=
  g.terminals.map .terminal ++ g.nonterminals.map .nonterminal

end Grammar

end DuckLang
