import DuckLang.Cube
import DuckLang.Machine
import DuckLang.Parser.Attribute
import DuckLang.Proofs.Token.Spelling

/-! Expressions: how they are written, the type that the cube and the signatures give them, and what
they stand for.  The rank of an expression says how tightly it binds, so its words have one reading:
products before sums, sums before comparisons, sums and products from left to right.  The value of an
expression is told by a formula over the variables and over the calls that were made; one without
calls stands for a tree, which is evaluated where variables have values. -/

namespace DuckLang

/-! ### Syntax -/

/-- How tightly an expression binds, the tightest first. -/
inductive Rank where
  | factor
  | term
  | sum
  | whole
  deriving DecidableEq

/-- A name as it is written: an identifier that is no keyword. -/
structure Name where
  text : String
  isName : Token.Kind.identifier.isSpelled text = true

structure Literal where
  kind : Token.Kind
  text : String
  isLiteral : kind ∈ [.intLiteral, .floatLiteral, .charLiteral]

def Literal.value? (c : Literal) : Option Value :=
  (literalValue c.text).toOption

/-- A value with its sign changed; a character has none. -/
def Value.negated? : Value → Option Value
  | int n => some (int (-n))
  | float x => some (float (-x))
  | _ => none

/-- A literal, with a minus in front of it or without. -/
structure Constant where
  literal : Literal
  isNegated : Bool := false

def Constant.value? : Constant → Option Value
  | { literal, isNegated := true } => literal.value?.bind Value.negated?
  | { literal, isNegated := false } => literal.value?

inductive Operation where
  | arith (op : ArithOp)
  | rel (op : RelOp)

namespace Operation

def operator : Operation → Operator
  | arith op => .arith op
  | rel op => .rel op

def kind : Operation → Token.Kind
  | arith .add => .plus
  | arith .sub => .minus
  | arith .mul => .star
  | arith .div => .slash
  | rel .gt => .greater
  | rel .lt => .less
  | rel .eq => .equal
  | rel .ne => .notEqual

def compute : Operation → Value → Value → Except Fault.Cause Value
  | arith op, l, r => Machine.arith op l r
  | rel op, l, r => .ok (Machine.compare op l r)

end Operation

/-- What a token is apart from where it stands. -/
def Token.word (t : Token) : Token.Kind × String :=
  (t.kind, t.text)

/-- A token that is spelled like its terminal. -/
def Token.Kind.word (kind : Token.Kind) : Token.Kind × String :=
  (kind, kind.terminal)

inductive Rank.Below : Rank → Rank → Prop
  | factor : Below .factor .term
  | term : Below .term .sum
  | sum : Below .sum .whole

/-- How an operator binds: the ranks of its operands, and that of what it makes of them. -/
inductive Operation.Binds : Operation → Rank → Rank → Rank → Prop
  | product {op : ArithOp} (hop : op = .mul ∨ op = .div) : Binds (.arith op) .term .factor .term
  | sum {op : ArithOp} (hop : op = .add ∨ op = .sub) : Binds (.arith op) .sum .term .sum
  | comparison {op : RelOp} : Binds (.rel op) .sum .sum .whole

mutual

/-- Expressions, by how tightly they bind. -/
inductive Expression : Rank → Type
  | var (name : Name) : Expression .factor
  | constant (c : Constant) : Expression .factor
  | group (e : Expression .whole) : Expression .factor
  | call (function : Name) (args : Arguments) : Expression .factor
  | loosen {rank loose : Rank} (h : rank.Below loose) (e : Expression rank) : Expression loose
  | binary {left right rank : Rank} (op : Operation) (h : op.Binds left right rank)
      (l : Expression left) (r : Expression right) : Expression rank

/-- The arguments of a call, the last one outermost. -/
inductive Arguments : Type
  | none : Arguments
  | also (before : Arguments) (last : Expression .whole) : Arguments

end

def Constant.words (c : Constant) : List (Token.Kind × String) :=
  if c.isNegated then [Token.Kind.minus.word, (c.literal.kind, c.literal.text)]
  else [(c.literal.kind, c.literal.text)]

/-- What stands between arguments and a further one. -/
def Arguments.separator : Arguments → List (Token.Kind × String)
  | .none => []
  | .also .. => [Token.Kind.comma.word]

mutual

def Expression.words {rank : Rank} : Expression rank → List (Token.Kind × String)
  | .var name => [(.identifier, name.text)]
  | .constant c => c.words
  | .group e => Token.Kind.leftParen.word :: (e.words ++ [Token.Kind.rightParen.word])
  | .call function args => (.identifier, function.text) :: Token.Kind.leftParen.word ::
      (args.words ++ [Token.Kind.rightParen.word])
  | .loosen _ e => e.words
  | .binary op _ l r => l.words ++ op.kind.word :: r.words

def Arguments.words : Arguments → List (Token.Kind × String)
  | .none => []
  | .also before last => before.words ++ before.separator ++ last.words

end

/-- Whether an expression is a comparison once the parentheses around it are taken away. -/
def Expression.isRelational {rank : Rank} : Expression rank → Bool
  | .group e | .loosen _ e => e.isRelational
  | .binary (.rel _) .. => true
  | _ => false

/-- Whether an expression is a comparison that stands in no parentheses. -/
def Expression.isComparison {rank : Rank} : Expression rank → Bool
  | .binary (.rel _) .. => true
  | _ => false

theorem Expression.isComparison_of_rank {rank : Rank} (expr : Expression rank) (h : rank ≠ .whole) :
    expr.isComparison = false := by
  cases expr with
  | binary op hbinds l r =>
    cases hbinds with
    | comparison => exact absurd rfl h
    | _ => rfl
  | _ => rfl

theorem Expression.isRelational_of_isComparison {rank : Rank} (expr : Expression rank)
    (h : expr.isComparison = true) : expr.isRelational = true := by
  cases expr with
  | binary op hbinds l r =>
    cases op with
    | arith op => cases h
    | rel op => rfl
  | _ => cases h

/-! ### Types -/

def Scope.Entry.takes (entry : Scope.Entry) (types : List DataType) : Bool :=
  types.length = entry.params.length &&
    (entry.params.zip types).all fun (param, type) => Cube.canAssign param.type type

mutual

/-- The type of an expression, if the cube and the signatures of the functions give it one. -/
def Expression.type? (s : Scope) {rank : Rank} : Expression rank → Option DataType
  | .var name => (s.symbol? name.text).map (·.type)
  | .constant c => c.value?.map (·.type)
  | .group e | .loosen _ e => e.type? s
  | .call function args =>
    match s.lookupFunction function.text, args.types? s with
    | .ok entry, some types =>
      if entry.takes types && entry.returns ≠ .void then some entry.returns else none
    | _, _ => none
  | .binary op _ l r =>
    match l.type? s, r.type? s with
    | some t, some u => Cube.result? t op.operator u
    | _, _ => none

def Arguments.types? (s : Scope) : Arguments → Option (List DataType)
  | .none => some []
  | .also before last =>
    match before.types? s, last.type? s with
    | some types, some type => some (types ++ [type])
    | _, _ => none

end

/-! ### Values -/

/-- A value by how it comes about. -/
inductive Formula where
  /-- What a variable holds after so many calls. -/
  | var (address : Int) (calls : Nat)
  | constant (v : Value)
  /-- What the call with a number gave back. -/
  | result (call : Nat)
  | binary (op : Operation) (l r : Formula)

/-- A call: the function, and what was copied into the slots of its parameters. -/
structure Invocation where
  function : String
  slots : List (Int × Formula) := []

/-- What an expression stands for.  A variable is read only when its value is needed, so a call in
between may change it. -/
inductive Standing where
  | var (address : Int)
  | known (f : Formula)

/-- What a value is that is needed after so many calls. -/
def Standing.read (calls : Nat) : Standing → Formula
  | var address => .var address calls
  | known f => f

mutual

/-- What an expression stands for where some calls have been made, and the calls made behind it. -/
def Expression.standing? (s : Scope) {rank : Rank} :
    Expression rank → List Invocation → Option (Standing × List Invocation)
  | .var name, calls => do
    let symbol ← s.symbol? name.text
    some (.var symbol.address, calls)
  | .constant c, calls => do
    let v ← c.value?
    some (.known (.constant v), calls)
  | .group e, calls | .loosen _ e, calls => e.standing? s calls
  | .call function args, calls => do
    let entry ← s.entryOf? function.text
    let (slots, calls) ← args.slots? s entry.params calls
    some (.known (.result calls.length), calls ++ [{ function := function.text, slots }])
  | .binary op _ l r, calls => do
    let (x, calls) ← l.standing? s calls
    let (y, calls) ← r.standing? s calls
    some (.known (.binary op (x.read calls.length) (y.read calls.length)), calls)

/-- What the arguments of a call put into the slots of the parameters, each one in its turn. -/
def Arguments.slots? (s : Scope) (params : List Symbol) :
    Arguments → List Invocation → Option (List (Int × Formula) × List Invocation)
  | .none, calls => some ([], calls)
  | .also before last, calls => do
    let (slots, calls) ← before.slots? s params calls
    let (x, calls) ← last.standing? s calls
    let param ← params[slots.length]?
    some (slots ++ [(param.address, x.read calls.length)], calls)

end

/-- The value of an expression where some calls have been made, and the calls made behind it. -/
def Expression.value? (s : Scope) {rank : Rank} (e : Expression rank) (calls : List Invocation) :
    Option (Formula × List Invocation) := do
  let (x, calls) ← e.standing? s calls
  some (x.read calls.length, calls)

/-! ### Expressions without calls -/

/-- What is left of an expression without its parentheses, if it has no calls. -/
inductive Tree where
  | var (name : String)
  | constant (c : Constant)
  | binary (op : Operation) (l r : Tree)

namespace Tree

/-- The type of a tree where names are declared, if the cube gives it one. -/
def type? (s : Scope) : Tree → Option DataType
  | var name => (s.symbol? name).map (·.type)
  | constant c => c.value?.map (·.type)
  | binary op l r =>
    match l.type? s, r.type? s with
    | some t, some u => Cube.result? t op.operator u
    | _, _ => none

/-- What a tree evaluates to where variables have values: nothing, if one of them has none or a
division is by zero. -/
def eval (get : String → Option Value) : Tree → Option Value
  | var name => get name
  | constant c => c.value?
  | binary op l r => (l.eval get).bind fun v => (r.eval get).bind fun w =>
      (op.compute v w).toOption

end Tree

/-- The tree that an expression stands for, unless there is a call in it. -/
def Expression.tree? {rank : Rank} : Expression rank → Option Tree
  | .var name => some (.var name.text)
  | .constant c => some (.constant c)
  | .group e | .loosen _ e => e.tree?
  | .call .. => none
  | .binary op _ l r =>
    match l.tree?, r.tree? with
    | some x, some y => some (.binary op x y)
    | _, _ => none

theorem Expression.tree?_binary {left right rank : Rank} {op : Operation}
    {h : op.Binds left right rank} {l : Expression left} {r : Expression right} {tree : Tree}
    (htree : (Expression.binary op h l r).tree? = some tree) :
    ∃ x y, l.tree? = some x ∧ r.tree? = some y ∧ tree = .binary op x y := by
  simp only [Expression.tree?] at htree
  split at htree
  · rename_i x y hx hy
    exact ⟨x, y, hx, hy, (Option.some.inj htree).symm⟩
  · cases htree

/-- An expression without calls has the type of its tree. -/
theorem Expression.type?_of_tree (s : Scope) {rank : Rank} {e : Expression rank} {tree : Tree}
    (h : e.tree? = some tree) : e.type? s = tree.type? s := by
  cases e with
  | var name =>
    obtain rfl := Option.some.inj h
    rfl
  | constant c =>
    obtain rfl := Option.some.inj h
    rfl
  | group e => exact e.type?_of_tree s h
  | call function args => cases h
  | loosen hbelow e => exact e.type?_of_tree s h
  | binary op hbinds l r =>
    obtain ⟨x, y, hx, hy, rfl⟩ := tree?_binary h
    simp only [Expression.type?, Tree.type?, l.type?_of_tree s hx, r.type?_of_tree s hy]

/-- Whether a tree is a comparison. -/
def Tree.isRelational : Tree → Bool
  | binary (.rel _) .. => true
  | _ => false

theorem Expression.isRelational_of_tree {rank : Rank} {e : Expression rank} {tree : Tree}
    (h : e.tree? = some tree) : e.isRelational = tree.isRelational := by
  cases e with
  | var name =>
    obtain rfl := Option.some.inj h
    rfl
  | constant c =>
    obtain rfl := Option.some.inj h
    rfl
  | group e => exact e.isRelational_of_tree h
  | call function args => cases h
  | loosen hbelow e => exact e.isRelational_of_tree h
  | binary op hbinds l r =>
    obtain ⟨x, y, _, _, rfl⟩ := tree?_binary h
    cases op <;> rfl

/-- Expressions without calls. -/
structure Expr (rank : Rank) where
  expression : Expression rank
  isPlain : expression.tree?.isSome = true

namespace Expr

variable {rank : Rank}

def words (e : Expr rank) : List (Token.Kind × String) :=
  e.expression.words

def tree (e : Expr rank) : Tree :=
  e.expression.tree?.get e.isPlain

def isComparison (e : Expr rank) : Bool :=
  e.expression.isComparison

theorem tree?_eq (e : Expr rank) : e.expression.tree? = some e.tree :=
  (Option.some_get _).symm

end Expr

end DuckLang
