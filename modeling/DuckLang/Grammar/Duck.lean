import DuckLang.Grammar.Slr

/-! The grammar of the Duck language and its parsing table. -/

namespace DuckLang.Grammar.Duck

/-- A terminal of the grammar. -/
def t (name : String) : Symbol := .terminal name

/-- A non-terminal of the grammar. -/
def n (name : String) : Symbol := .nonterminal name

/-- A production of the grammar. -/
def rule (head : String) (body : List Symbol) : Production := { head, body }

/-- The start: a header, declarations, functions and the main body. -/
def programRule : Production :=
  rule "Program" [n "ProgHeader", n "VarsOpt", n "Funcs", t "main", n "Body", t "end"]

/-- The header of a program. -/
def headerRules : List Production :=
  [rule "ProgHeader" [t "program", t "id", t ";"]]

/-- Declarations of variables. -/
def declarationRules : List Production :=
  [rule "VarsOpt" [t "var", n "VarList"],
   rule "VarsOpt" [],
   rule "VarList" [n "VarList", n "VarDecl"],
   rule "VarList" [n "VarDecl"],
   rule "VarDecl" [n "VarType", n "IdList", t ";"],
   rule "VarType" [n "Type"],
   rule "Type" [t "int"],
   rule "Type" [t "float"],
   rule "Type" [t "char"],
   rule "IdList" [t "id"],
   rule "IdList" [n "IdList", t ",", t "id"]]

/-- Functions and their parameters. -/
def functionRules : List Production :=
  [rule "Funcs" [n "Funcs", n "Func"],
   rule "Funcs" [],
   rule "Func"
    [n "FuncHeader", t "(", n "ParamsOpt", t ")", t "[", n "VarsOpt", n "Body", t "]", t ";"],
   rule "FuncHeader" [t "func", n "RetType", t "id"],
   rule "RetType" [n "Type"],
   rule "RetType" [t "void"],
   rule "ParamsOpt" [n "ParamList"],
   rule "ParamsOpt" [],
   rule "ParamList" [n "Param"],
   rule "ParamList" [n "ParamList", t ",", n "Param"],
   rule "Param" [n "Type", t "id"]]

/-- Statements. -/
def statementRules : List Production :=
  [rule "Body" [t "\x7b", n "Stmts", t "\x7d"],
   rule "Stmts" [n "Stmts", n "Stmt"],
   rule "Stmts" [],
   rule "Stmt" [n "Assign"],
   rule "Stmt" [n "Condition"],
   rule "Stmt" [n "Cycle"],
   rule "Stmt" [n "Call", t ";"],
   rule "Stmt" [n "Print"],
   rule "Stmt" [n "Read"],
   rule "Stmt" [n "Return"],
   rule "Assign" [t "id", t "=", n "Expr", t ";"],
   rule "Condition" [t "if", t "(", n "Expr", t ")", t "then", n "Body", n "ElseOpt"],
   rule "ElseOpt" [t "else", n "Body"],
   rule "ElseOpt" [],
   rule "Cycle" [t "while", t "(", n "Expr", t ")", t "do", n "Body"],
   rule "Call" [n "CallHead", t "(", n "ArgsOpt", t ")"],
   rule "CallHead" [t "id"],
   rule "ArgsOpt" [n "ArgList"],
   rule "ArgsOpt" [],
   rule "ArgList" [n "Arg"],
   rule "ArgList" [n "ArgList", t ",", n "Arg"],
   rule "Arg" [n "Expr"],
   rule "Print" [t "write", t "(", n "PrintList", t ")", t ";"],
   rule "PrintList" [n "PrintItem"],
   rule "PrintList" [n "PrintList", t ",", n "PrintItem"],
   rule "PrintItem" [n "Expr"],
   rule "PrintItem" [t "cte_string"],
   rule "Read" [t "read", t "(", n "ReadList", t ")", t ";"],
   rule "ReadList" [t "id"],
   rule "ReadList" [n "ReadList", t ",", t "id"],
   rule "Return" [t "return", t "(", n "Expr", t ")", t ";"]]

/-- Expressions, comparison binding loosest. -/
def expressionRules : List Production :=
  [rule "Expr" [n "Exp", n "RelOp", n "Exp"],
   rule "Expr" [n "Exp"],
   rule "RelOp" [t ">"],
   rule "RelOp" [t "<"],
   rule "RelOp" [t "=="],
   rule "RelOp" [t "!="],
   rule "Exp" [n "Exp", n "AddOp", n "Term"],
   rule "Exp" [n "Term"],
   rule "AddOp" [t "+"],
   rule "AddOp" [t "-"],
   rule "Term" [n "Term", n "MulOp", n "Factor"],
   rule "Term" [n "Factor"],
   rule "MulOp" [t "*"],
   rule "MulOp" [t "/"],
   rule "Factor" [n "LParen", n "Expr", t ")"],
   rule "Factor" [t "id"],
   rule "Factor" [n "Call"],
   rule "Factor" [n "Constant"],
   rule "Factor" [t "-", n "Constant"],
   rule "LParen" [t "("],
   rule "Constant" [t "cte_int"],
   rule "Constant" [t "cte_float"],
   rule "Constant" [t "cte_char"]]

end Duck

/-- The grammar of the Duck language. -/
def duck : Grammar :=
  ofProductions Duck.programRule
    (Duck.headerRules ++ Duck.declarationRules ++ Duck.functionRules ++ Duck.statementRules
      ++ Duck.expressionRules)

/-- The parsing table of the Duck language. -/
def duckTable : Except Diagnostic Table :=
  duck.buildTable true

end DuckLang.Grammar
