import DuckLang.Grammar.Duck
import DuckLang.Proofs.Grammar.Cells
import DuckLang.Proofs.Parser.Termination

/-! The grammar of the Duck language is well formed, and has weights under which every parse with its
table ends. -/

namespace DuckLang.Grammar

/-- The productions of the language without that of the augmented start. -/
def Duck.productions : List Production :=
  programRule ::
    (headerRules ++ declarationRules ++ functionRules ++ statementRules ++ expressionRules)

set_option maxRecDepth 10000 in
theorem duck_proper : Proper duck := by
  refine ofProductions_proper ?_ ?_
  · have hdefined : ∀ p ∈ Duck.productions, ∀ name ∈ Symbol.nonterminals p.body,
        ∃ q ∈ Duck.productions, q.head = name := by decide
    exact fun p hp name hname => hdefined p hp name (Symbol.mem_nonterminals.mpr hname)
  · have hvisible : ∀ p ∈ Duck.productions, ∀ name ∈ Symbol.terminals p.body,
        name ≠ Token.Kind.endMarker ∧ name ≠ epsilon := by decide
    exact fun p hp name hname => hvisible p hp name (Symbol.mem_terminals.mpr hname)

set_option maxRecDepth 10000 in
theorem duck_fresh : FreshStart duck := by
  decide

namespace Duck

/-- What the non-terminals weigh.  Along a chain of unit productions they get lighter, and those
that may stand for nothing weigh next to nothing. -/
def weights : List (String × Nat) :=
  [("Type", 15), ("VarType", 14), ("RetType", 14), ("Param", 13),
   ("ParamList", 12), ("ParamsOpt", 11), ("VarList", 9), ("VarsOpt", 1), ("Funcs", 1),
   ("Stmts", 1), ("ElseOpt", 1), ("Stmt", 9), ("Constant", 16), ("Call", 16), ("Factor", 15),
   ("Term", 14), ("Exp", 13), ("Expr", 12), ("Arg", 11), ("ArgsOpt", 9), ("PrintItem", 11)]

/-- The symbols that leave room for a non-terminal that stands for nothing. -/
def rooms : List (Symbol × Nat) :=
  [(t "(", 12), (t "[", 4), (t "\x7b", 2), (n "ProgHeader", 4), (n "VarsOpt", 2), (n "Body", 2)]

/-- The room that non-terminals may take up. -/
def needs : List (String × Nat) :=
  [("VarsOpt", 4), ("Funcs", 2), ("ParamsOpt", 12), ("Stmts", 2), ("ElseOpt", 2), ("ArgsOpt", 10)]

/-- Weights for the grammar of the language. -/
def measure : Parser.Weights where
  weight
    | .terminal _ => 20
    | .nonterminal name => (weights.lookup name).getD 10
  room symbol := (rooms.lookup symbol).getD 0
  need name := (needs.lookup name).getD 0
  most := 32

set_option maxRecDepth 10000 in
theorem measure_fit : measure.Fit duck := by
  have hgiven : ∀ p ∈ productions,
      (measure.spaced p.body && measure.opens p && measure.lighter p) = true := by decide
  have hrule : ∀ {id : Nat} {p : Production}, duck.productions[id]? = some p →
      id = 0 ∧ p = { head := duck.start, body := [.nonterminal "Program"] } ∨ p ∈ productions := by
    intro id p hp
    rcases ofProductions_rule hp with hstart | ⟨_, hmem⟩
    · exact .inl hstart
    · exact .inr hmem
  refine ⟨fun hp => ?_, fun hp => ?_, fun hp hid => ?_⟩
  · rcases hrule hp with ⟨_, rfl⟩ | hmem
    · rfl
    · have := hgiven _ hmem
      simp only [Bool.and_eq_true] at this
      exact this.1.1
  · rcases hrule hp with ⟨_, rfl⟩ | hmem
    · decide
    · have := hgiven _ hmem
      simp only [Bool.and_eq_true] at this
      exact this.1.2
  · rcases hrule hp with ⟨hzero, _⟩ | hmem
    · exact absurd hzero hid
    · have := hgiven _ hmem
      simp only [Bool.and_eq_true] at this
      exact this.2

end Duck

end DuckLang.Grammar
