import DuckLang.Grammar.Duck
import DuckLang.Parser
import DuckLang.Token.Lexer

/-! Compilation: the tokens of a source text are parsed and what the parse emits is exported. -/

namespace DuckLang

/-- How a compilation ends. -/
inductive Compiled where
  | program (p : Program)
  | failed (d : Diagnostic)
  /-- The number of parser actions was not enough. -/
  | unfinished

/-- The program of a finished parse; it has the given name unless its header names it. -/
def exportParsed (p : Parser) (defaultName : String) : Compiled :=
  let header := p.emitter.scope.program
  match p.emitter.exportProgram (if header = "" then defaultName else header) with
  | .ok program => .program program
  | .error cause => .failed { cause }

/-- Compiles a source text with a parsing table, in at most `fuel` parser actions. -/
def compile (fuel : Nat) (table : Table) (defaultName source : String) : Compiled :=
  match tokenize source with
  | .error d => .failed d
  | .ok tokens =>
    match Parser.run table fuel (.start tokens) with
    | .accepted p => exportParsed p defaultName
    | .failed d _ => .failed d
    | .unfinished _ => .unfinished

end DuckLang
