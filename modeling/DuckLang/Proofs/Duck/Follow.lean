import DuckLang.Grammar.Duck
import DuckLang.Proofs.Grammar.Cells

/-! The FOLLOW sets of the Duck language, and what they say of its table: it has no conflicts. -/

namespace DuckLang.Grammar

/-! ### The table from the FOLLOW sets -/

/-- The table of a grammar, given its FOLLOW sets. -/
def tableFrom (g : Grammar) (follow : SetTable) : Table :=
  let rows := g.automaton.states.toList.zipIdx.map (g.stateRow { first := [], follow })
  { rows := (rows.map (·.1)).toArray
    rules := g.productions.map fun p => { head := p.head, size := p.body.length }
    conflicts := rows.flatMap (·.2) }

/-- Of the analysis of a grammar, its table needs the FOLLOW sets only. -/
theorem table_eq_tableFrom (g : Grammar) : g.table = g.tableFrom g.analyze.follow := by
  have hrow : g.stateRow g.analyze = g.stateRow { first := [], follow := g.analyze.follow } := rfl
  simp only [table, tableFrom, hrow]

namespace Duck

/-- What may follow a statement. -/
def followStatement : NameSet :=
  ["id", "if", "read", "return", "while", "write", "\x7d"]

/-- What may follow an operand of a product. -/
def followOperand : NameSet :=
  ["!=", ")", "*", "+", ",", "-", "/", ";", "<", "==", ">"]

/-- What may follow an operator. -/
def followOperator : NameSet :=
  ["(", "-", "cte_char", "cte_float", "cte_int", "id"]

/-- What may follow each non-terminal of the language. -/
def follow : SetTable :=
  [("ProgramPrime", ["$"]), ("Program", ["$"]), ("ProgHeader", ["func", "main", "var"]),
   ("VarsOpt", ["func", "main", "\x7b"]),
   ("VarList", ["char", "float", "func", "int", "main", "\x7b"]),
   ("VarDecl", ["char", "float", "func", "int", "main", "\x7b"]),
   ("VarType", ["id"]), ("Type", ["id"]), ("IdList", [",", ";"]),
   ("Funcs", ["func", "main"]), ("Func", ["func", "main"]), ("FuncHeader", ["("]),
   ("RetType", ["id"]), ("ParamsOpt", [")"]), ("ParamList", [")", ","]), ("Param", [")", ","]),
   ("Body", ["]", "else", "end", "id", "if", "read", "return", "while", "write", "\x7d"]),
   ("Stmts", followStatement), ("Stmt", followStatement), ("Assign", followStatement),
   ("Condition", followStatement), ("ElseOpt", followStatement), ("Cycle", followStatement),
   ("Call", followOperand), ("CallHead", ["("]), ("ArgsOpt", [")"]), ("ArgList", [")", ","]),
   ("Arg", [")", ","]), ("Print", followStatement), ("PrintList", [")", ","]),
   ("PrintItem", [")", ","]), ("Read", followStatement), ("ReadList", [")", ","]),
   ("Return", followStatement), ("Expr", [")", ",", ";"]), ("RelOp", followOperator),
   ("Exp", ["!=", ")", "+", ",", "-", ";", "<", "==", ">"]), ("AddOp", followOperator),
   ("Term", followOperand), ("MulOp", followOperator), ("Factor", followOperand),
   ("LParen", followOperator), ("Constant", followOperand)]

/-- The table of the language, from its FOLLOW sets. -/
def table : Table :=
  duck.tableFrom follow

end Duck

set_option maxRecDepth 1000000 in
theorem duck_follow : duck.analyze.follow = Duck.follow := by
  decide +kernel

theorem duck_table : duck.table = Duck.table := by
  rw [table_eq_tableFrom, duck_follow]
  rfl

set_option maxRecDepth 1000000 in
theorem duck_conflicts : duck.table.conflicts.isEmpty = true := by
  rw [duck_table]
  decide +kernel

/-- The table of the language is that of its grammar. -/
theorem duckTable_eq : duckTable = .ok duck.table :=
  buildTable_strict.mpr ⟨List.isEmpty_iff.mp duck_conflicts, rfl⟩

end DuckLang.Grammar
