import DuckLang.Proofs.Duck.Compile
import DuckLang.Proofs.Emitter.Storage
import DuckLang.Proofs.Source.BlockCode
import DuckLang.Proofs.Source.BlockRun

/-! What code means.  Wherever a parse comes to an expression without calls, the code that it emits
computes what the expression evaluates to; wherever it comes to a list of statements without calls,
the code does what the statements do. -/

namespace DuckLang

open Emitter Machine
open DuckLang.Parser (Drives Expects GoesTo)
open Grammar.Duck (rule t n)

namespace Duck

/-! ### What may follow -/

/-- A terminal behind a non-terminal in a body follows it. -/
theorem follows_of_rule (head : String) {name next : String} (left right : List Grammar.Symbol)
    (hrule : rule head (left ++ n name :: t next :: right) ∈
      Grammar.Duck.statementRules ++ Grammar.Duck.expressionRules) :
    next ∈ Grammar.duck.analyze.follow.get name := by
  obtain ⟨id, hid⟩ := production_index hrule
  have hmem : t next ∈ (rule head (left ++ n name :: t next :: right)).body := by simp [rule]
  have hvisible := Grammar.duck_proper.visible hid hmem
  exact Grammar.mem_follow_first Grammar.duck_proper hid rfl (List.mem_singleton.mpr rfl)
    hvisible.2

theorem follows_of_last (head : String) {name next : String} (left : List Grammar.Symbol)
    (hrule : rule head (left ++ [n name]) ∈
      Grammar.Duck.statementRules ++ Grammar.Duck.expressionRules)
    (hnext : next ∈ Grammar.duck.analyze.follow.get head) :
    next ∈ Grammar.duck.analyze.follow.get name := by
  obtain ⟨id, hid⟩ := production_index hrule
  exact Grammar.mem_follow_head Grammar.duck_proper hid rfl (List.mem_singleton.mpr rfl) hnext

theorem follows_expr {next : String} (h : next ∈ [")", ";", ","]) :
    next ∈ Grammar.duck.analyze.follow.get "Expr" := by
  simp only [List.mem_cons, List.not_mem_nil, or_false] at h
  rcases h with rfl | rfl | rfl
  · exact follows_of_rule "Factor" [n "LParen"] [] (by decide)
  · exact follows_of_rule "Assign" [t "id", t "="] [] (by decide)
  · refine follows_of_last "Arg" [] (by decide) ?_
    refine follows_of_last "ArgList" [] (by decide) ?_
    exact follows_of_rule "ArgList" [] [n "Arg"] (by decide)

/-! ### Where an expression is expected -/

theorem sheltered_of_valid {e : Emitter} {past : List Point} (h : Valid e past) : Sheltered e := by
  intro c hc _ _
  have hdepth := h.owners.depth c (List.mem_of_head? hc)
  omega

theorem follows_of_run {source : String} {tokens : List Token} (h : tokenize source = .ok tokens)
    {fuel : Nat} {p : Parser}
    (hrun : Parser.run Grammar.duck.table fuel (.start tokens) = .unfinished p) :
    ∃ γ, discipline.Follows Grammar.duck .blank p γ :=
  kept.unfinished Grammar.duck_proper Grammar.duck_fresh
    (Parser.Discipline.Follows.start rfl (tokenize_spelled h)) hrun

/-- Where a parse comes to an expression without calls that the cube types, it goes on behind it
with the code of the expression emitted and its operand on the stack, or taken by the header that waits
for it.  Run from its first quadruple on, in whatever program holds it, that code yields a value
exactly if the expression has it, and fails exactly if it has none; what it yields has the type of
the expression, and nothing changes but temporaries that were not in use. -/
theorem expression_values {table : Table} (htable : Grammar.duckTable = .ok table)
    {source : String} {tokens : List Token} (htokens : tokenize source = .ok tokens) {fuel : Nat}
    {p : Parser} (hreach : Parser.run table fuel (.start tokens) = .unfinished p) {next : Int}
    (hexpects : Expects table p "Expr" next) (expr : Expr .whole) {text : List Token} {x : Token}
    {more : List Token} (hahead : p.cursor.tokens = text ++ x :: more)
    (hwords : text.map Token.word = expr.words) (hend : x.terminal ∈ [")", ";", ","])
    {type : DataType} (htype : expr.tree.type? p.emitter.scope = some type) :
    ∃ q b, GoesTo table p q ∧ q.stack = (next, .expression) :: p.stack ∧
      q.cursor.tokens = x :: more ∧
      (q.emitter = p.emitter.put b ∨ awaitsCondition p.emitter = true ∧
        expr.isComparison = true ∧ q.emitter = p.emitter.putHeader b) ∧
      ∀ {κ : Type} [Console κ] (program : Program) (limit : Int) (m : Machine κ),
        q.emitter.temps.highWater ≤ Address.rangeSize →
        program.Holds p.emitter.quads.size b.quads → m.index = p.emitter.quads.size →
        m.vars.Typed →
        (∀ v, expr.tree.eval (m.vars.value? p.emitter.scope) = some v ↔
          ∃ m', b.Yields program limit p.emitter.quads.size m v m') ∧
        (expr.tree.eval (m.vars.value? p.emitter.scope) = none ↔ b.Fails program limit m) ∧
        ∀ v m', b.Yields program limit p.emitter.quads.size m v m' → v.type = type ∧
          m' = m.onward (p.emitter.quads.size + b.quads.length : Nat) m'.frame.temps ∧
          p.emitter.temps.Keeps m.frame.temps m'.frame.temps := by
  obtain rfl : Grammar.duck.table = table :=
    Except.ok.inj (Grammar.duckTable_eq.symm.trans htable)
  obtain ⟨γ, hfollows⟩ := follows_of_run htokens hreach
  obtain ⟨symbols, k, hclimbs⟩ := hfollows.climbs
  have hready : Phrase.condition.Ready γ :=
    kept.ready_of_expects Grammar.duck_proper Grammar.duck_fresh hfollows hexpects
  have hshelter : Sheltered p.emitter := by
    rw [← hfollows.emitter]
    exact sheltered_of_valid hready.1
  have hsound : p.emitter.storage.Sound := by
    have := Parser.storage_sound Grammar.duck.table fuel tokens
    rwa [hreach] at this
  obtain ⟨b, hcode⟩ := Tree.makes_of_type htype p.emitter.temps
  have hdriven : ∃ e', Drives Grammar.duck [n "Expr"] text p.emitter [.expression] e' ∧
      (e' = p.emitter.put b ∨ awaitsCondition p.emitter = true ∧ expr.isComparison = true ∧
        e' = p.emitter.putHeader b) := by
    by_cases hheader : awaitsCondition p.emitter = true ∧ expr.isComparison = true
    · exact ⟨_, expr.drives_header hcode hwords hshelter hheader.1 hheader.2,
        .inr ⟨hheader.1, hheader.2, rfl⟩⟩
    · obtain ⟨a, hdrives, ha⟩ := expr.drives hcode hwords hshelter (by simpa using hheader)
      obtain rfl := ha rfl
      exact ⟨_, hdrives, .inl rfl⟩
  obtain ⟨e', hdrives, hform⟩ := hdriven
  obtain ⟨q, hgoes, hstack, rfl, hrest⟩ := hdrives.goesTo Grammar.duck_proper Grammar.duck_fresh
    (List.isEmpty_iff.mp Grammar.duck_conflicts) hclimbs.spells hexpects hahead rfl
    (follows_expr hend)
  refine ⟨q, b, hgoes, hstack, hrest, hform, ?_⟩
  intro κ _ program limit m hroom hholds hindex hvars
  have hfits : b.temps.next ≤ Address.rangeSize := by
    rcases hform with hform | ⟨_, _, hform⟩ <;> rw [hform] at hroom
    · exact hroom
    · simpa only [putHeader, TempPool.highWater, TempPool.next_without] using hroom
  have hruns := hcode.runs hsound.entries hsound.temps hfits limit hholds hindex hvars
  refine ⟨fun v => hruns.yields_iff, hruns.fails_iff, fun v m' hyields => ?_⟩
  refine ⟨?_, hruns.keeps hyields⟩
  exact Tree.type_eval (fun hsymbol => hvars.value? hsound.entries hsymbol) htype
    (hruns.yields_iff.mpr ⟨m', hyields⟩)

/-- What shows of a parse: the words ahead, and how many temporaries are minted in all. -/
structure Sight where
  words : List (Token.Kind × String)
  temps : Nat
  deriving DecidableEq

/-- What shows of the parse of a source text after some steps if a non-terminal is expected there,
and the parse accepts in some steps more with the given emitter. -/
def sight (steps more : Nat) (source name : String) (e? : Option Emitter) : Option Sight :=
  match parse? steps source with
  | some (_, q) =>
    match q.expects Grammar.duck name,
        stepItems? more { q with emitter := e?.getD q.emitter } with
    | true, some last =>
      if last.accepts Grammar.duck then
        some { words := (q.cursor.lookahead :: q.cursor.rest).map fun t => (t.kind, t.text)
               temps := last.emitter.temps.highWater }
      else none
    | _, _ => none
  | none => none

theorem sight_spec {steps more : Nat} {source name : String} {e? : Option Emitter} {seen : Sight}
    (h : sight steps more source name e? = some seen) :
    ∃ tokens p next, tokenize source = .ok tokens ∧
      Parser.run Grammar.duck.table steps (.start tokens) = .unfinished p ∧
      Expects Grammar.duck.table p name next ∧ p.cursor.tokens.map Token.word = seen.words ∧
      ∀ q, GoesTo Grammar.duck.table { p with emitter := e?.getD p.emitter } q →
        q.emitter.temps.highWater ≤ seen.temps := by
  simp only [sight] at h
  split at h
  · rename_i tokens q hparse
    obtain ⟨htokens, p, hrun, htracks⟩ := parse_spec hparse
    split at h
    · rename_i last hexpects hsteps
      split at h
      · rename_i haccepts
        obtain rfl := Option.some.inj h
        obtain ⟨next, hnext⟩ := htracks.expects Grammar.duck_proper hexpects
        refine ⟨tokens, p, next, htokens, hrun 0, hnext, ?_, fun q' hgoes => ?_⟩
        · rw [htracks.cursor]
          rfl
        · rw [htracks.emitter] at hgoes
          obtain ⟨p', hrun', htracks'⟩ := tracks_steps (htracks.withEmitter _) hsteps
          have haccepted := htracks'.accepted Grammar.duck_proper
            (List.isEmpty_iff.mp Grammar.duck_conflicts) haccepts 0
          rw [← hrun'] at haccepted
          have hchanges := Parser.changes_run Grammar.duck.table (more + 1) q'
          rw [hgoes.accepted haccepted] at hchanges
          rw [← htracks'.emitter]
          exact Storage.next_le_of_changes hchanges
      · cases h
    · cases h
  · cases h

/-! An example: a program that computes a number and counts down from it. -/

/-- A program that counts down by two. -/
def countdown : String :=
  "program p; var int x; main \x7b x = 1 + 2 * 3; while (x > 1) do \x7b x = x - 2; \x7d " ++
    "write(x); \x7d end"

/-- The words of the statements, up to the end of the text. -/
def countdownWords : List (Token.Kind × String) :=
  let word (kind : Token.Kind) := (kind, kind.terminal)
  [(.identifier, "x"), word .assign, (.intLiteral, "1"), word .plus, (.intLiteral, "2"),
   word .star, (.intLiteral, "3"), word .semicolon,
   word .whileWord, word .leftParen, (.identifier, "x"), word .greater, (.intLiteral, "1"),
   word .rightParen, word .doWord, word .leftBrace, (.identifier, "x"), word .assign,
   (.identifier, "x"), word .minus, (.intLiteral, "2"), word .semicolon, word .rightBrace,
   word .writeWord, word .leftParen, (.identifier, "x"), word .rightParen, word .semicolon,
   word .rightBrace, word .endWord, word .endOfInput]

/-- The operations of an emitter up to the statements. -/
def countdownCommands : List Command :=
  [.initProgram "p", .setType .int, .declareVariable "x", .markMain]

def countdownEmitter : Emitter :=
  countdownCommands.foldl after {}

def numeral (text : String) : Expression .factor :=
  .constant { literal := { kind := .intLiteral, text, isLiteral := by simp } }

def alone (e : Expression .factor) : Expression .sum :=
  .loosen .term (.loosen .factor e)

/-- The number that the count starts from. -/
def countdownStart : Expr .whole where
  expression := .loosen .sum (.binary (.arith .add) (.sum (.inl rfl)) (alone (numeral "1"))
    (.binary (.arith .mul) (.product (.inl rfl)) (.loosen .factor (numeral "2")) (numeral "3")))
  isPlain := rfl

/-- The number that a value is, if it is one. -/
def numberOf? : Except Cause Value → Option Int64
  | .ok (.int k) => some k
  | _ => none

theorem eq_of_numberOf {x : Except Cause Value} {k : Int64} (h : numberOf? x = some k) :
    x = .ok (.int k) := by
  cases x with
  | error cause => cases h
  | ok v => cases v <;> cases h; rfl

/-- Products come before sums. -/
theorem countdownStart_spec (s : Scope) (get : String → Option Value) :
    countdownStart.tree.type? s = some .int ∧ countdownStart.tree.eval get = some (.int 7) := by
  have hone : literalValue "1" = .ok (.int 1) := eq_of_numberOf (by decide +kernel)
  have htwo : literalValue "2" = .ok (.int 2) := eq_of_numberOf (by decide +kernel)
  have hthree : literalValue "3" = .ok (.int 3) := eq_of_numberOf (by decide +kernel)
  simp only [countdownStart, numeral, alone, Expr.tree, Expression.tree?, Option.get_some,
    Tree.type?, Tree.eval, Constant.value?, Literal.value?, hone, htwo, hthree, Except.toOption,
    Option.bind_some, Option.map_some]
  exact ⟨rfl, rfl⟩

def countdownName : Name :=
  { text := "x", isName := by decide }

def countdownBlock : Block :=
  let x := alone (.var countdownName)
  let less : Expr .whole :=
    { expression := .loosen .sum (.binary (.arith .sub) (.sum (.inr rfl)) x
        (.loosen .factor (numeral "2")))
      isPlain := rfl }
  let test : Expr .whole :=
    { expression := .binary (.rel .gt) .comparison x (alone (numeral "1")), isPlain := rfl }
  let start := Block.act .empty (.assign countdownName countdownStart)
  .act (.loop start test (.act .empty (.assign countdownName less)))
    (.write (.value { expression := .loosen .sum x, isPlain := rfl }) [])

set_option maxRecDepth 1000000 in
theorem countdown_statements : sight 17 85 countdown "Stmts" (some countdownEmitter) =
    some { words := countdownWords, temps := 2 } := by
  decide +kernel

set_option maxRecDepth 1000000 in
theorem countdown_start : sight 20 82 countdown "Expr" none =
    some { words := countdownWords.drop 2, temps := 2 } := by
  decide +kernel

theorem tokens_split {tokens : List Token} (words : List (Token.Kind × String))
    (kind : Token.Kind) {rest : List (Token.Kind × String)}
    (h : tokens.map Token.word = words ++ kind.word :: rest) :
    ∃ text x more, tokens = text ++ x :: more ∧ text.map Token.word = words ∧
      x.terminal = kind.terminal := by
  obtain ⟨text, _, rfl, htext, htail⟩ := List.map_eq_append_iff.mp h
  obtain ⟨x, more, rfl, hx, _⟩ := List.map_eq_cons_iff.mp htail
  exact ⟨text, x, more, rfl, htext, congrArg Token.Kind.terminal (Prod.mk.inj hx).1⟩

theorem expression_values_countdown : ∃ (p q : Parser) (next : Int) (b : Piece) (program : Program)
    (m m' : Machine Console.Scripted),
    Expects Grammar.duck.table p "Expr" next ∧ GoesTo Grammar.duck.table p q ∧
      q.emitter = p.emitter.put b ∧ program.Holds p.emitter.quads.size b.quads ∧
      b.Yields program defaultLimit p.emitter.quads.size m (.int 7) m' := by
  obtain ⟨tokens, p, next, htokens, hreach, hexpects, hahead, htemps⟩ := sight_spec countdown_start
  obtain ⟨text, x, more, hahead, hwords, hend⟩ :=
    tokens_split countdownStart.words .semicolon hahead
  obtain ⟨q, b, hgoes, _, _, hemitter, hcode⟩ := expression_values Grammar.duckTable_eq htokens
    hreach hexpects countdownStart hahead hwords (hend ▸ by decide)
    (countdownStart_spec _ fun _ => none).1
  let program : Program :=
    { name := "", quads := p.emitter.quads ++ b.quads.toArray, functions := [], constants := [],
      strings := [], globals := {} }
  have hholds : program.Holds p.emitter.quads.size b.quads := Program.holds_append rfl
  let m : Machine Console.Scripted :=
    { Machine.start program {} {} with index := p.emitter.quads.size }
  obtain ⟨hyields, _⟩ := hcode program defaultLimit m
    (Nat.le_trans (htemps q hgoes) (by decide)) hholds rfl ⟨.empty, .empty⟩
  obtain ⟨m', hm'⟩ := (hyields (.int 7)).mp (countdownStart_spec p.emitter.scope _).2
  refine ⟨p, q, next, b, program, m, m', hexpects, hgoes, ?_, hholds, hm'⟩
  rcases hemitter with hemitter | ⟨_, hcomparison, _⟩
  · exact hemitter
  · cases hcomparison

/-- Where a parse comes to a list of statements without calls that is well typed, it goes on behind
it with the code of the list appended to whatever emitter it drives, so long as no header is open
there; no jump of that code leads out of it but to the index behind it.  Run from its first quadruple
on, in whatever program carries it, the code gets to that index exactly if the statements come to
their end, and to a fault in it exactly if they do, both with the variables and the console that the
statements leave. -/
theorem statements_flow {table : Table} (htable : Grammar.duckTable = .ok table)
    {source : String} {tokens : List Token} (htokens : tokenize source = .ok tokens) {fuel : Nat}
    {p : Parser} (hreach : Parser.run table fuel (.start tokens) = .unfinished p) {next : Int}
    (hexpects : Expects table p "Stmts" next) (commands : List Command) {e : Emitter}
    (he : commands.foldl after {} = e) (hcalm : Calm e) (block : Block) {text : List Token}
    {x : Token} {more : List Token} (hahead : p.cursor.tokens = text ++ x :: more)
    (hwords : text.map Token.word = block.words) (hend : x.terminal = "\x7d")
    (htyped : block.isTyped e.scope = true) :
    ∃ q c, GoesTo table { p with emitter := e } q ∧ q.stack = (next, .nothing) :: p.stack ∧
      q.cursor.tokens = x :: more ∧ q.emitter = e.append c ∧
      JumpsWithin e.quads.size (e.quads.size + c.quads.length) c.quads ∧
      ∀ {κ : Type} [Console κ] (program : Program) (limit : Int) (m : Machine κ),
        program.Carries e.quads.size c → m.index = e.quads.size → m.vars.Typed →
        (∀ w, (∃ rounds, block.exec e.scope rounds m.world = .done w) ↔
          ∃ m', Arrives program limit e.quads.size (e.quads.size + c.quads.length) m m' ∧
            m'.world = w) ∧
        (∀ w, (∃ rounds, block.exec e.scope rounds m.world = .faulted w) ↔
          ∃ m', FaultsIn program limit e.quads.size (e.quads.size + c.quads.length) m m' ∧
            m'.world = w) ∧
        ∀ m', Arrives program limit e.quads.size (e.quads.size + c.quads.length) m m' →
          m' = m.onto m'.world (e.quads.size + c.quads.length : Nat) m'.frame.temps ∧
          e.temps.Keeps m.frame.temps m'.frame.temps := by
  obtain rfl : Grammar.duck.table = table :=
    Except.ok.inj (Grammar.duckTable_eq.symm.trans htable)
  obtain ⟨γ, hfollows⟩ := follows_of_run htokens hreach
  obtain ⟨symbols, k, hclimbs⟩ := hfollows.climbs
  have hsound : e.storage.Sound := he ▸ Emitter.storage_sound commands
  obtain ⟨c, hmakes⟩ := Block.makes_of_isTyped htyped e.quads.size e.stock
  have hfollow : x.terminal ∈ Grammar.duck.analyze.follow.get "Stmts" := by
    rw [hend]
    exact follows_of_rule "Body" [t "\x7b"] [] (by decide)
  obtain ⟨q, hgoes, hstack, hemitter, hrest⟩ :=
    (Block.drives hcalm hmakes hwords).goesTo (p := { p with emitter := e }) Grammar.duck_proper
      Grammar.duck_fresh (List.isEmpty_iff.mp Grammar.duck_conflicts) hclimbs.spells hexpects hahead
      rfl hfollow
  refine ⟨q, c, hgoes, hstack, hrest, hemitter, hmakes.jumps, ?_⟩
  intro κ _ program limit m hcode hindex hvars
  have hflow := fun rounds => hmakes.goes limit rounds hsound.entries hsound.temps hcode hindex
    hvars
  exact ⟨fun w => arrives_iff hflow, fun w => faultsIn_iff hflow,
    fun m' harrives => Arrives.keeps hflow harrives⟩

theorem countdown_ends : ∃ w, countdownBlock.exec countdownEmitter.scope 4
    { vars := {}, console := ({} : Console.Scripted) } = .done w ∧ w.console.output = #["1"] := by
  have hlines : (match countdownBlock.exec countdownEmitter.scope 4
      { vars := {}, console := ({} : Console.Scripted) } with
    | .done w => some w.console.output
    | _ => none) = some #["1"] := by
    decide +kernel
  split at hlines
  · rename_i w hexec
    exact ⟨w, hexec, Option.some.inj hlines⟩
  · cases hlines

theorem statements_flow_countdown : ∃ (p q : Parser) (next : Int) (c : Code) (program : Program)
    (m m' : Machine Console.Scripted),
    Expects Grammar.duck.table p "Stmts" next ∧
      GoesTo Grammar.duck.table { p with emitter := countdownEmitter } q ∧
      q.emitter = countdownEmitter.append c ∧ program.Carries countdownEmitter.quads.size c ∧
      Arrives program defaultLimit countdownEmitter.quads.size
        (countdownEmitter.quads.size + c.quads.length) m m' ∧ m'.console.output = #["1"] := by
  obtain ⟨tokens, p, next, htokens, hreach, hexpects, hahead, htemps⟩ :=
    sight_spec countdown_statements
  obtain ⟨text, x, more, hahead, hwords, hend⟩ :=
    tokens_split countdownBlock.words .rightBrace hahead
  obtain ⟨q, c, hgoes, _, _, hemitter, _, hcode⟩ := statements_flow Grammar.duckTable_eq htokens
    hreach hexpects countdownCommands (e := countdownEmitter) rfl (by rintro c ⟨⟩) countdownBlock
    hahead hwords hend (by decide +kernel)
  let program : Program :=
    { name := "", quads := countdownEmitter.quads ++ c.quads.toArray, functions := [],
      constants := [], strings := c.strings, globals := {} }
  have hcarries : program.Carries countdownEmitter.quads.size c := by
    refine ⟨Program.holds_append rfl, List.prefix_rfl, ?_⟩
    have htaken := htemps q hgoes
    rw [hemitter] at htaken
    exact Nat.le_trans htaken (by decide)
  let m : Machine Console.Scripted :=
    { Machine.start program {} {} with index := countdownEmitter.quads.size }
  obtain ⟨hdone, _⟩ := hcode program defaultLimit m hcarries rfl ⟨.empty, .empty⟩
  obtain ⟨w, hexec, hlines⟩ := countdown_ends
  obtain ⟨m', harrives, rfl⟩ := (hdone w).mp ⟨4, hexec⟩
  exact ⟨p, q, next, c, program, m, m', hexpects, hgoes, hemitter, hcarries, harrives, hlines⟩

end Duck

end DuckLang
