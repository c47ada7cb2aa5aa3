/-! Tokens: the words of a source text, each with its kind, its own text and the line it stands on.
-/

namespace DuckLang

/-- The kinds of tokens.  `unknown` is a kind that no grammar has a terminal for. -/
inductive Token.Kind where
  | programWord
  | varWord
  | mainWord
  | endWord
  | funcWord
  | intWord
  | floatWord
  | charWord
  | voidWord
  | ifWord
  | thenWord
  | elseWord
  | whileWord
  | doWord
  | returnWord
  | writeWord
  | readWord
  | plus
  | minus
  | star
  | slash
  | less
  | greater
  | equal
  | notEqual
  | assign
  | leftParen
  | rightParen
  | leftBrace
  | rightBrace
  | leftBracket
  | rightBracket
  | comma
  | semicolon
  | identifier
  | intLiteral
  | floatLiteral
  | charLiteral
  | stringLiteral
  | endOfInput
  | unknown
  deriving DecidableEq, Inhabited

namespace Token.Kind

/-- The terminal that stands for the end of the input. -/
def endMarker : String := "$"

/-- The keywords with their kinds. -/
def keywords : List (String × Kind) :=
  [("program", programWord), ("var", varWord), ("main", mainWord), ("end", endWord),
   ("func", funcWord), ("int", intWord), ("float", floatWord), ("char", charWord),
   ("void", voidWord), ("if", ifWord), ("then", thenWord), ("else", elseWord),
   ("while", whileWord), ("do", doWord), ("return", returnWord), ("write", writeWord),
   ("read", readWord)]

/-- The symbols with their kinds. -/
def symbols : List (String × Kind) :=
  [("+", plus), ("-", minus), ("*", star), ("/", slash), ("<", less), (">", greater),
   ("==", equal), ("!=", notEqual), ("=", assign), ("(", leftParen), (")", rightParen),
   ("\x7b", leftBrace), ("\x7d", rightBrace), ("[", leftBracket), ("]", rightBracket),
   (",", comma), (";", semicolon)]

/-- The kinds whose terminal is a name instead of a spelling. -/
def named : List (String × Kind) :=
  [("id", identifier), ("cte_int", intLiteral), ("cte_float", floatLiteral),
   ("cte_char", charLiteral), ("cte_string", stringLiteral), (endMarker, endOfInput)]

/-- The kinds that have a terminal, each with it, in the order of their numbers. -/
def all : List (String × Kind) :=
  keywords ++ symbols ++ named

/-- The keyword with the given spelling. -/
def keyword? (text : String) : Option Kind :=
  keywords.lookup text

/-- The symbol with the given spelling. -/
def symbol? (text : String) : Option Kind :=
  symbols.lookup text

/-- The grammar terminal of a kind: keywords and symbols are named by their spelling. -/
def terminal (kind : Kind) : String :=
  match all.find? (·.2 = kind) with
  | some (name, _) => name
  | none => ""

end Token.Kind

/-- A word of a source text. -/
structure Token where
  kind : Token.Kind
  text : String
  line : Int
  deriving DecidableEq

namespace Token

/-- The grammar terminal a token is matched against. -/
def terminal (t : Token) : String :=
  t.kind.terminal

/-- The token for the end of the input. -/
def endOfInput (line : Int) : Token :=
  { kind := .endOfInput, text := Kind.endMarker, line }

end Token

end DuckLang
