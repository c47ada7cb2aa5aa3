import DuckLang.Ascending
import DuckLang.Grammar

/-! FIRST and FOLLOW sets.  Both are grown in passes over the productions until a pass adds nothing;
the number of passes is bounded by the number of pairs of a non-terminal and a terminal. -/

namespace DuckLang

/-- A set of names as a strictly increasing list. -/
abbrev NameSet := List String

namespace NameSet

/-- A set with a name more. -/
def insert (name : String) (set : NameSet) : NameSet :=
  Ascending.insert (· < ·) name set

/-- A set with the names of a list more. -/
def union (set : NameSet) (names : List String) : NameSet :=
  names.foldl (fun set name => NameSet.insert name set) set

end NameSet

namespace Grammar

/-- A set of terminals for each non-terminal. -/
abbrev SetTable := List (String × NameSet)

namespace SetTable

/-- The set of a non-terminal; empty for a name the table does not list. -/
def get (table : SetTable) (name : String) : NameSet :=
  (table.lookup name).getD []

/-- The table with the set of a listed non-terminal grown. -/
def grow (table : SetTable) (name : String) (names : List String) : SetTable :=
  table.map fun (key, set) => (key, if key = name then set.union names else set)

/-- The table of empty sets. -/
def empty (names : List String) : SetTable :=
  names.map fun name => (name, [])

end SetTable

/-- A function applied until it changes nothing, at most `fuel` times. -/
def iterate {α : Type} [DecidableEq α] (f : α → α) : Nat → α → α
  | 0, a => a
  | fuel + 1, a =>
    let b := f a
    if b = a then a else iterate f fuel b

/-- FIRST of a sequence of symbols, given the FIRST sets of the non-terminals.  It has `ε` iff every
symbol can vanish. -/
def firstOf (first : SetTable) : List Symbol → NameSet
  | [] => [epsilon]
  | .terminal name :: _ => [name]
  | .nonterminal name :: rest =>
    let set := first.get name
    let visible := set.filter (· ≠ epsilon)
    if set.contains epsilon then (firstOf first rest).union visible else visible

/-- The FIRST sets after a pass over the productions. -/
def firstPass (g : Grammar) (first : SetTable) : SetTable :=
  g.productions.toList.foldl (fun first p => first.grow p.head (firstOf first p.body)) first

/-- The FOLLOW sets grown by what follows each non-terminal of a body. -/
def followBody (first : SetTable) (head : String) (follow : SetTable) : List Symbol → SetTable
  | [] => follow
  | .terminal _ :: rest => followBody first head follow rest
  | .nonterminal name :: rest =>
    let after := firstOf first rest
    let follow := follow.grow name (after.filter (· ≠ epsilon))
    let follow :=
      if after.contains epsilon then follow.grow name (follow.get head) else follow
    followBody first head follow rest

/-- The FOLLOW sets after a pass over the productions. -/
def followPass (g : Grammar) (first follow : SetTable) : SetTable :=
  g.productions.toList.foldl (fun follow p => followBody first p.head follow p.body) follow

/-- A number of passes after which no set can grow any more. -/
def passBound (g : Grammar) : Nat :=
  g.nonterminals.length * (g.terminals.length + 1) + 1

/-- The FIRST and FOLLOW sets of the non-terminals of a grammar. -/
structure Analysis where
  first : SetTable
  follow : SetTable

/-- The analysis of a grammar. -/
def analyze (g : Grammar) : Analysis :=
  let none := SetTable.empty g.nonterminals
  let first := iterate g.firstPass g.passBound none
  let seed := none.grow g.start [Token.Kind.endMarker]
  { first, follow := iterate (g.followPass first) g.passBound seed }

namespace Analysis

/-- Whether a non-terminal can vanish. -/
def isNullable (a : Analysis) (name : String) : Bool :=
  (a.first.get name).contains epsilon

/-- One set on a line. -/
def setLine (title name : String) (set : NameSet) : String :=
  title ++ "(<" ++ name ++ ">) = \x7b" ++ ", ".intercalate set ++ "\x7d\n"

/-- Every set of a grammar, one on a line. -/
def render (g : Grammar) (a : Analysis) : String :=
  String.join (g.nonterminals.map fun name =>
    setLine "FIRST" name (a.first.get name) ++ setLine "FOLLOW" name (a.follow.get name))

end Analysis

end Grammar

end DuckLang
