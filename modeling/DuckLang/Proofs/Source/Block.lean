import DuckLang.Proofs.Source.ExprRun

/-! Lists of statements without calls: how they are written, when they are well typed, what they do,
and the code that is made of them.  What they do is told by running them on a world of variables and
a console; a loop goes round at most a given number of times. -/

namespace DuckLang

/-- A text between double quotes, as it is written. -/
structure Quote where
  text : String
  isQuote : Token.Kind.stringLiteral.isSpelled text = true

/-- What is written to the console: a value or a text. -/
inductive Item where
  | value (e : Expr .whole)
  | text (c : Quote)

/-- What a statement does in one go. -/
inductive Action where
  | assign (name : Name) (e : Expr .whole)
  | write (item : Item)
  | read (name : Name)

/-- The statements that hold no others. -/
inductive Simple where
  | assign (name : Name) (e : Expr .whole)
  | write (first : Item) (more : List Item)
  | read (first : Name) (more : List Name)

/-- Lists of statements.  All but the empty one have a last statement. -/
inductive Block where
  | empty
  | act (before : Block) (now : Simple)
  | ifThen (before : Block) (test : Expr .whole) (body : Block)
  | ifElse (before : Block) (test : Expr .whole) (body other : Block)
  | loop (before : Block) (test : Expr .whole) (body : Block)

def Simple.actions : Simple → List Action
  | assign name e => [.assign name e]
  | write first more => (first :: more).map .write
  | read first more => (first :: more).map .read

/-! ### Words -/

open Token.Kind in
def Item.words : Item → List (Token.Kind × String)
  | value e => e.words
  | text c => [(stringLiteral, c.text)]

open Token.Kind in
def Simple.words : Simple → List (Token.Kind × String)
  | assign name e =>
    (identifier, name.text) :: Token.Kind.assign.word :: (e.words ++ [semicolon.word])
  | write first more => writeWord.word :: leftParen.word ::
      (first.words ++ more.flatMap (fun item => comma.word :: item.words) ++
        [rightParen.word, semicolon.word])
  | read first more => readWord.word :: leftParen.word ::
      ([(identifier, first.text)] ++
        more.flatMap (fun name => [comma.word, (identifier, name.text)]) ++
        [rightParen.word, semicolon.word])

open Token.Kind in
def bodyWords (words : List (Token.Kind × String)) : List (Token.Kind × String) :=
  leftBrace.word :: (words ++ [rightBrace.word])

open Token.Kind in
/-- The words of a header: those of its test in parentheses, and the word at its end. -/
def headerWords (test : Expr .whole) (last : Token.Kind) : List (Token.Kind × String) :=
  leftParen.word :: (test.words ++ [rightParen.word, last.word])

open Token.Kind in
def Block.words : Block → List (Token.Kind × String)
  | empty => []
  | act before now => before.words ++ now.words
  | ifThen before test body =>
    before.words ++ ifWord.word :: (headerWords test thenWord ++ bodyWords body.words)
  | ifElse before test body other =>
    before.words ++ ifWord.word :: (headerWords test thenWord ++
      (bodyWords body.words ++ elseWord.word :: bodyWords other.words))
  | loop before test body =>
    before.words ++ whileWord.word :: (headerWords test doWord ++ bodyWords body.words)

/-! ### Types -/

/-- Whether a tree can be tested: it is a comparison that the cube types. -/
def Tree.isTest (s : Scope) (tree : Tree) : Bool :=
  tree.isRelational && (tree.type? s).isSome

def Action.isTyped (s : Scope) : Action → Bool
  | assign name e =>
    match s.symbol? name.text, e.tree.type? s with
    | some symbol, some type => Cube.canAssign symbol.type type
    | _, _ => false
  | write (.value e) =>
    match e.tree.type? s with
    | some type => type ≠ .void
    | none => false
  | write (.text c) => (Text.Quoted.unquote? c.text).isSome
  | read name => (s.symbol? name.text).isSome

/-- Whether a list of statements is well typed where names are declared. -/
def Block.isTyped (s : Scope) : Block → Bool
  | empty => true
  | act before now => before.isTyped s && now.actions.all (·.isTyped s)
  | ifThen before test body => before.isTyped s && test.tree.isTest s && body.isTyped s
  | ifElse before test body other =>
    before.isTyped s && test.tree.isTest s && body.isTyped s && other.isTyped s
  | loop before test body => before.isTyped s && test.tree.isTest s && body.isTyped s

/-! ### Behaviour -/

structure World (κ : Type) where
  vars : Variables
  console : κ

inductive Ending (κ : Type) where
  | done (w : World κ)
  | faulted (w : World κ)
  /-- A loop went round too often. -/
  | unfinished

/-- What comes next, if all is well so far. -/
def Ending.andThen {κ : Type} (x : Ending κ) (f : World κ → Ending κ) : Ending κ :=
  match x with
  | done w => f w
  | faulted w => .faulted w
  | unfinished => .unfinished

/-- The variables with a value written, outside of which there are no addresses of variables. -/
def Variables.set (vars : Variables) (address : Int) (v : Value) : Variables :=
  match Address.place? address with
  | some { segment := .globals, .. } => { vars with globals := vars.globals.set address v }
  | some { segment := .locals, .. } => { vars with locals := vars.locals.set address v }
  | _ => vars

namespace World

variable {κ : Type}

/-- The variable with a name gets a value, converted to its type. -/
def assign (w : World κ) (s : Scope) (name : String) (v : Value) : Ending κ :=
  match s.symbol? name with
  | some symbol => .done { w with vars := w.vars.set symbol.address (v.convert symbol.type) }
  | none => .faulted w

variable [Console κ]

def write (w : World κ) (line : String) : Ending κ :=
  match Console.writeLine line w.console with
  | (.ok _, console) => .done { w with console }
  | (.error _, console) => .faulted { w with console }

/-- The variable with a name gets the value that a line is read as. -/
def read (w : World κ) (s : Scope) (name : String) : Ending κ :=
  match s.symbol? name with
  | none => .faulted w
  | some symbol =>
    match Console.readLine w.console with
    | (.error _, console) => .faulted { w with console }
    | (.ok line, console) =>
      match Machine.parseInput symbol.type (Text.trim line) with
      | .ok v => .done { vars := w.vars.set symbol.address v, console }
      | .error _ => .faulted { w with console }

end World

section Exec

variable {κ : Type}

/-- What is done with a value; without one there is a fault. -/
def World.use (w : World κ) (value? : Option Value) (f : Value → Ending κ) : Ending κ :=
  match value? with
  | some v => f v
  | none => .faulted w

/-- One of two ways to go on, by whether a value counts as true. -/
def World.branch (w : World κ) (test? : Option Value) (yes no : World κ → Ending κ) : Ending κ :=
  w.use test? fun v => if v.isTrue then yes w else no w

/-- Goes round as long as a test holds, at most a given number of times. -/
def World.iterate (test? : World κ → Option Value) (body : World κ → Ending κ) :
    Nat → World κ → Ending κ
  | 0, _ => .unfinished
  | n + 1, w => w.branch (test? w) (fun w => (body w).andThen (iterate test? body n)) .done

def Expr.value? (s : Scope) (e : Expr .whole) (w : World κ) : Option Value :=
  e.tree.eval (w.vars.value? s)

variable [Console κ]

def Action.exec (s : Scope) : Action → World κ → Ending κ
  | assign name e, w => w.use (e.value? s w) (w.assign s name.text)
  | write (.value e), w => w.use (e.value? s w) fun v => w.write v.text
  | write (.text c), w =>
    match Text.Quoted.unquote? c.text with
    | some bytes => w.write (Text.Utf8.lossy bytes)
    | none => .faulted w
  | read name, w => w.read s name.text

def Action.execAll (s : Scope) : List Action → World κ → Ending κ
  | [], w => .done w
  | a :: as, w => (a.exec s w).andThen (execAll s as)

/-- What a list of statements does, where each loop may go round `fuel` times whenever it is come
to. -/
def Block.exec (s : Scope) (fuel : Nat) : Block → World κ → Ending κ
  | empty, w => .done w
  | act before now, w => (before.exec s fuel w).andThen (Action.execAll s now.actions)
  | ifThen before test body, w => (before.exec s fuel w).andThen fun w =>
      w.branch (test.value? s w) (body.exec s fuel) .done
  | ifElse before test body other, w => (before.exec s fuel w).andThen fun w =>
      w.branch (test.value? s w) (body.exec s fuel) (other.exec s fuel)
  | loop before test body, w => (before.exec s fuel w).andThen
      (World.iterate (test.value? s) (body.exec s fuel) fuel)

end Exec

/-! ### Code -/

/-- What code is made with: the temporaries that are free and the texts that are known. -/
structure Stock where
  temps : TempPool
  strings : List Bytes

/-- The code of statements, and what is left to make code with behind it. -/
structure Code extends Stock where
  quads : List Quad

namespace Code

def none (k : Stock) : Code :=
  { k with quads := [] }

def append (c d : Code) : Code :=
  { d with quads := c.quads ++ d.quads }

/-- The code of a test and a branch that is passed over if it does not hold. -/
def ifThen (base : Nat) (b : Piece) (d : Code) : Code :=
  let past := base + b.quads.length + 1 + d.quads.length
  { d with
    quads := b.quads ++
      { op := .gotoFalse, left := b.operand, result := .jump past } :: d.quads }

def ifElse (base : Nat) (b : Piece) (d f : Code) : Code :=
  let other := base + b.quads.length + 1 + d.quads.length + 1
  { f with
    quads := b.quads ++ { op := .gotoFalse, left := b.operand, result := .jump other } ::
      (d.quads ++ { op := .goto, result := .jump (other + f.quads.length : Nat) } :: f.quads) }

/-- The code of a test and a body that leads back to it. -/
def loop (base : Nat) (b : Piece) (d : Code) : Code :=
  let past := base + b.quads.length + 1 + d.quads.length + 1
  { d with
    quads := b.quads ++ { op := .gotoFalse, left := b.operand, result := .jump past } ::
      (d.quads ++ [{ op := .goto, result := .jump base }]) }

end Code

/-- What is left once the operand of a piece of code is used up. -/
def Piece.stock (b : Piece) (strings : List Bytes) : Stock :=
  { temps := b.temps.without b.operand, strings }

inductive Action.Makes (s : Scope) : Action → Stock → Code → Prop
  | assign {name : Name} {e : Expr .whole} {k : Stock} {symbol : Symbol} {b : Piece}
      (declared : s.symbol? name.text = some symbol) (value : e.tree.Makes s k.temps b)
      (typed : Cube.canAssign symbol.type b.type = true) :
      Makes s (.assign name e) k { b.stock k.strings with
        quads := b.quads ++
          [{ op := .assign, left := b.operand, result := .address symbol.address symbol.type }] }
  | value {e : Expr .whole} {k : Stock} {b : Piece} (value : e.tree.Makes s k.temps b)
      (typed : b.type ≠ .void) :
      Makes s (.write (.value e)) k { b.stock k.strings with
        quads := b.quads ++ [{ op := .write, result := b.operand }] }
  | text {c : Quote} {k : Stock} {bytes : Bytes}
      (unquoted : Text.Quoted.unquote? c.text = some bytes) :
      Makes s (.write (.text c)) k
        { temps := k.temps
          strings := (Emitter.intern k.strings bytes).2
          quads := [{ op := .write, result := .text (Emitter.intern k.strings bytes).1 }] }
  | read {name : Name} {k : Stock} {symbol : Symbol}
      (declared : s.symbol? name.text = some symbol) :
      Makes s (.read name) k
        { k with quads := [{ op := .read, result := .address symbol.address symbol.type }] }

inductive Action.MakesAll (s : Scope) : List Action → Stock → Code → Prop
  | nil {k : Stock} : MakesAll s [] k (.none k)
  | cons {a : Action} {as : List Action} {k : Stock} {c d : Code} (first : a.Makes s k c)
      (rest : MakesAll s as c.toStock d) : MakesAll s (a :: as) k (c.append d)

/-- The code that is made of a list of statements, from an index on. -/
inductive Block.Makes (s : Scope) : Block → Nat → Stock → Code → Prop
  | empty {base : Nat} {k : Stock} : Makes s .empty base k (.none k)
  | act {before : Block} {now : Simple} {base : Nat} {k : Stock} {c d : Code}
      (earlier : Makes s before base k c) (last : Action.MakesAll s now.actions c.toStock d) :
      Makes s (.act before now) base k (c.append d)
  | ifThen {before body : Block} {test : Expr .whole} {base : Nat} {k : Stock} {c d : Code}
      {b : Piece} (earlier : Makes s before base k c) (isTest : test.tree.isTest s = true)
      (tested : test.tree.Makes s c.temps b)
      (inner : Makes s body (base + c.quads.length + b.quads.length + 1) (b.stock c.strings) d) :
      Makes s (.ifThen before test body) base k
        (c.append (.ifThen (base + c.quads.length) b d))
  | ifElse {before body other : Block} {test : Expr .whole} {base : Nat} {k : Stock} {c d f : Code}
      {b : Piece} (earlier : Makes s before base k c) (isTest : test.tree.isTest s = true)
      (tested : test.tree.Makes s c.temps b)
      (inner : Makes s body (base + c.quads.length + b.quads.length + 1) (b.stock c.strings) d)
      (outer : Makes s other
        (base + c.quads.length + b.quads.length + 1 + d.quads.length + 1) d.toStock f) :
      Makes s (.ifElse before test body other) base k
        (c.append (.ifElse (base + c.quads.length) b d f))
  | loop {before body : Block} {test : Expr .whole} {base : Nat} {k : Stock} {c d : Code}
      {b : Piece} (earlier : Makes s before base k c) (isTest : test.tree.isTest s = true)
      (tested : test.tree.Makes s c.temps b)
      (inner : Makes s body (base + c.quads.length + b.quads.length + 1) (b.stock c.strings) d) :
      Makes s (.loop before test body) base k (c.append (.loop (base + c.quads.length) b d))

/-! ### Code of what is well typed -/

theorem Tree.Makes.of_isTest {s : Scope} {tree : Tree} (h : tree.isTest s = true)
    (temps : TempPool) : ∃ b, tree.Makes s temps b := by
  rw [isTest, Bool.and_eq_true] at h
  obtain ⟨type, htype⟩ := Option.isSome_iff_exists.mp h.2
  exact makes_of_type htype temps

theorem Action.makes_of_isTyped {s : Scope} {a : Action} (h : a.isTyped s = true) (k : Stock) :
    ∃ c, a.Makes s k c := by
  cases a with
  | assign name e =>
    simp only [isTyped] at h
    split at h
    · rename_i symbol type hsymbol htype
      obtain ⟨b, hb⟩ := Tree.makes_of_type htype k.temps
      obtain rfl : b.type = type := Option.some.inj (hb.type_eq.symm.trans htype)
      exact ⟨_, .assign hsymbol hb h⟩
    · cases h
  | write item =>
    cases item with
    | value e =>
      simp only [isTyped] at h
      split at h
      · rename_i type htype
        obtain ⟨b, hb⟩ := Tree.makes_of_type htype k.temps
        obtain rfl : b.type = type := Option.some.inj (hb.type_eq.symm.trans htype)
        exact ⟨_, .value hb (of_decide_eq_true h)⟩
      · cases h
    | text c =>
      obtain ⟨bytes, hbytes⟩ := Option.isSome_iff_exists.mp h
      exact ⟨_, .text hbytes⟩
  | read name =>
    obtain ⟨symbol, hsymbol⟩ := Option.isSome_iff_exists.mp h
    exact ⟨_, .read hsymbol⟩

theorem Action.makesAll_of_isTyped {s : Scope} {as : List Action}
    (h : as.all (·.isTyped s) = true) (k : Stock) : ∃ c, MakesAll s as k c := by
  induction as generalizing k with
  | nil => exact ⟨_, .nil⟩
  | cons a as ih =>
    simp only [List.all_cons, Bool.and_eq_true] at h
    obtain ⟨c, hc⟩ := makes_of_isTyped h.1 k
    obtain ⟨d, hd⟩ := ih h.2 c.toStock
    exact ⟨_, .cons hc hd⟩

theorem Block.makes_of_isTyped {s : Scope} {block : Block} (h : block.isTyped s = true)
    (base : Nat) (k : Stock) : ∃ c, block.Makes s base k c := by
  induction block generalizing base k with
  | empty => exact ⟨_, .empty⟩
  | act before now ih =>
    simp only [isTyped, Bool.and_eq_true] at h
    obtain ⟨c, hc⟩ := ih h.1 base k
    obtain ⟨d, hd⟩ := Action.makesAll_of_isTyped h.2 c.toStock
    exact ⟨_, .act hc hd⟩
  | ifThen before test body ihBefore ihBody =>
    simp only [isTyped, Bool.and_eq_true] at h
    obtain ⟨c, hc⟩ := ihBefore h.1.1 base k
    obtain ⟨b, hb⟩ := Tree.Makes.of_isTest h.1.2 c.temps
    obtain ⟨d, hd⟩ := ihBody h.2 (base + c.quads.length + b.quads.length + 1) (b.stock c.strings)
    exact ⟨_, .ifThen hc h.1.2 hb hd⟩
  | ifElse before test body other ihBefore ihBody ihOther =>
    simp only [isTyped, Bool.and_eq_true] at h
    obtain ⟨c, hc⟩ := ihBefore h.1.1.1 base k
    obtain ⟨b, hb⟩ := Tree.Makes.of_isTest h.1.1.2 c.temps
    obtain ⟨d, hd⟩ := ihBody h.1.2 (base + c.quads.length + b.quads.length + 1) (b.stock c.strings)
    obtain ⟨f, hf⟩ := ihOther h.2
      (base + c.quads.length + b.quads.length + 1 + d.quads.length + 1) d.toStock
    exact ⟨_, .ifElse hc h.1.1.2 hb hd hf⟩
  | loop before test body ihBefore ihBody =>
    simp only [isTyped, Bool.and_eq_true] at h
    obtain ⟨c, hc⟩ := ihBefore h.1.1 base k
    obtain ⟨b, hb⟩ := Tree.Makes.of_isTest h.1.2 c.temps
    obtain ⟨d, hd⟩ := ihBody h.2 (base + c.quads.length + b.quads.length + 1) (b.stock c.strings)
    exact ⟨_, .loop hc h.1.2 hb hd⟩

/-! ### Temporaries and texts -/

/-- What code leaves behind: the same temporaries are in use, and the texts known before still
are. -/
structure Stock.Leads (k k' : Stock) : Prop where
  orderly : k'.temps.Orderly
  next_le : k.temps.next ≤ k'.temps.next
  live : ∀ {id : Int}, k'.temps.IsLive id ↔ k.temps.IsLive id
  strings : k.strings <+: k'.strings

theorem Stock.Leads.refl {k : Stock} (h : k.temps.Orderly) : k.Leads k :=
  ⟨h, Nat.le_refl _, Iff.rfl, List.prefix_rfl⟩

theorem Stock.Leads.trans {k k' k'' : Stock} (h : k.Leads k') (h' : k'.Leads k'') : k.Leads k'' :=
  ⟨h'.orderly, Nat.le_trans h.next_le h'.next_le, h'.live.trans h.live, h.strings.trans h'.strings⟩

theorem Tree.Makes.leads {s : Scope} {tree : Tree} {temps : TempPool} {b : Piece}
    (h : tree.Makes s temps b) (htemps : temps.Orderly) (strings : List Bytes) :
    Stock.Leads { temps, strings } (b.stock strings) where
  orderly := (h.fits htemps).orderly.without _
  next_le := by
    simp only [Piece.stock, TempPool.next_without]
    exact (h.fits htemps).next_le
  live := by
    intro id
    simp only [Piece.stock, TempPool.isLive_without, (h.fits htemps).live]
    constructor
    · rintro ⟨hlive | hid, hne⟩
      · exact hlive
      · exact absurd hid hne
    · exact fun hlive => ⟨.inl hlive, fun hid => (h.fits htemps).fresh hid hlive⟩
  strings := List.prefix_rfl

theorem Action.Makes.leads {s : Scope} {a : Action} {k : Stock} {c : Code} (h : a.Makes s k c)
    (hk : k.temps.Orderly) : k.Leads c.toStock := by
  cases h with
  | assign declared value typed => exact value.leads hk k.strings
  | value value typed => exact value.leads hk k.strings
  | text unquoted => exact ⟨hk, Nat.le_refl _, Iff.rfl, (Emitter.intern_spec _ _).1⟩
  | read declared => exact .refl hk

theorem Action.MakesAll.leads {s : Scope} {as : List Action} {k : Stock} {c : Code}
    (h : MakesAll s as k c) (hk : k.temps.Orderly) : k.Leads c.toStock := by
  induction h with
  | nil => exact .refl hk
  | cons first rest ih => exact (first.leads hk).trans (ih (first.leads hk).orderly)

theorem Block.Makes.leads {s : Scope} {block : Block} {base : Nat} {k : Stock} {c : Code}
    (h : block.Makes s base k c) (hk : k.temps.Orderly) : k.Leads c.toStock := by
  induction h with
  | empty => exact .refl hk
  | act earlier last ih =>
    have hc := ih hk
    exact hc.trans (last.leads hc.orderly)
  | @ifThen before body test base k c d b earlier isTest tested inner ihBefore ihBody =>
    have hc := ihBefore hk
    have hb := tested.leads hc.orderly c.strings
    exact hc.trans (hb.trans (ihBody hb.orderly))
  | @ifElse before body other test base k c d f b earlier isTest tested inner outer ihBefore ihBody
      ihOther =>
    have hc := ihBefore hk
    have hb := tested.leads hc.orderly c.strings
    have hd := ihBody hb.orderly
    exact hc.trans (hb.trans (hd.trans (ihOther hd.orderly)))
  | @loop before body test base k c d b earlier isTest tested inner ihBefore ihBody =>
    have hc := ihBefore hk
    have hb := tested.leads hc.orderly c.strings
    exact hc.trans (hb.trans (ihBody hb.orderly))

/-! ### Jumps -/

/-- Every jump leads to an index from one on and up to another. -/
def JumpsWithin (first last : Nat) (quads : List Quad) : Prop :=
  ∀ q ∈ quads, q.op = .goto ∨ q.op = .gotoFalse →
    ∃ target : Nat, q.result = .jump target ∧ first ≤ target ∧ target ≤ last

section Jumps

variable {first last first' last' : Nat} {xs ys : List Quad} {q : Quad}

theorem JumpsWithin.mono (h : JumpsWithin first last xs) (hfirst : first' ≤ first)
    (hlast : last ≤ last') : JumpsWithin first' last' xs := by
  intro q hq hop
  obtain ⟨target, hresult, _, _⟩ := h q hq hop
  exact ⟨target, hresult, by omega, by omega⟩

theorem JumpsWithin.append (h : JumpsWithin first last xs) (h' : JumpsWithin first last ys) :
    JumpsWithin first last (xs ++ ys) := by
  intro q hq
  rcases List.mem_append.mp hq with hq | hq
  · exact h q hq
  · exact h' q hq

theorem JumpsWithin.jump {target : Nat} (hresult : q.result = .jump target)
    (hfirst : first ≤ target) (hlast : target ≤ last) (h : JumpsWithin first last xs) :
    JumpsWithin first last (q :: xs) := by
  intro q' hq' hop
  rcases List.mem_cons.mp hq' with rfl | hq'
  · exact ⟨target, hresult, hfirst, hlast⟩
  · exact h q' hq' hop

theorem JumpsWithin.plain (hop : q.op ≠ .goto ∧ q.op ≠ .gotoFalse) :
    JumpsWithin first last [q] := by
  intro q' hq' hop'
  obtain rfl := List.mem_singleton.mp hq'
  exact absurd hop' (by simp [hop.1, hop.2])

theorem Tree.Makes.jumps {s : Scope} {tree : Tree} {temps : TempPool} {b : Piece}
    (h : tree.Makes s temps b) : JumpsWithin first last b.quads := by
  induction h with
  | var declared => simp [JumpsWithin]
  | constant value => simp [JumpsWithin]
  | @binary op l r temps a b type left right typed ihl ihr =>
    exact (ihl.append ihr).append (.plain (by cases op <;> simp [Operation.operator,
      Opcode.ofOperator]))

theorem Action.Makes.jumps {s : Scope} {a : Action} {k : Stock} {c : Code} (h : a.Makes s k c) :
    JumpsWithin first last c.quads := by
  cases h with
  | assign declared value typed => exact value.jumps.append (.plain (by simp))
  | value value typed => exact value.jumps.append (.plain (by simp))
  | text unquoted => exact .plain (by simp)
  | read declared => exact .plain (by simp)

theorem Action.MakesAll.jumps {s : Scope} {as : List Action} {k : Stock} {c : Code}
    (h : MakesAll s as k c) : JumpsWithin first last c.quads := by
  induction h with
  | nil => simp [JumpsWithin, Code.none]
  | cons rest_first rest ih => exact rest_first.jumps.append ih

end Jumps

/-- No jump leads out of the code of a list of statements but to the index behind it. -/
theorem Block.Makes.jumps {s : Scope} {block : Block} {base : Nat} {k : Stock} {c : Code}
    (h : block.Makes s base k c) : JumpsWithin base (base + c.quads.length) c.quads := by
  induction h with
  | empty => simp [JumpsWithin, Code.none]
  | @act before now base k c d earlier last ih =>
    simp only [Code.append, List.length_append]
    exact (ih.mono (Nat.le_refl _) (by omega)).append last.jumps
  | @ifThen before body test base k c d b earlier isTest tested inner ihBefore ihBody =>
    simp only [Code.append, Code.ifThen, List.length_append, List.length_cons]
    refine (ihBefore.mono (Nat.le_refl _) (by omega)).append (tested.jumps.append ?_)
    exact .jump rfl (by omega) (by omega) (ihBody.mono (by omega) (by omega))
  | @ifElse before body other test base k c d f b earlier isTest tested inner outer ihBefore ihBody
      ihOther =>
    simp only [Code.append, Code.ifElse, List.length_append, List.length_cons]
    refine (ihBefore.mono (Nat.le_refl _) (by omega)).append (tested.jumps.append ?_)
    refine .jump rfl (by omega) (by omega) ((ihBody.mono (by omega) (by omega)).append ?_)
    exact .jump rfl (by omega) (by omega) (ihOther.mono (by omega) (by omega))
  | @loop before body test base k c d b earlier isTest tested inner ihBefore ihBody =>
    simp only [Code.append, Code.loop, List.length_append, List.length_cons, List.length_nil]
    refine (ihBefore.mono (Nat.le_refl _) (by omega)).append (tested.jumps.append ?_)
    refine .jump rfl (by omega) (by omega) ((ihBody.mono (by omega) (by omega)).append ?_)
    exact .jump rfl (by omega) (by omega) (by simp [JumpsWithin])

end DuckLang
