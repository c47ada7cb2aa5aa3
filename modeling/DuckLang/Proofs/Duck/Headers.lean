import DuckLang.Proofs.Duck.Meaning
import DuckLang.Proofs.Duck.Types
import DuckLang.Proofs.Source.ExpressionCode
import DuckLang.Proofs.Source.ReplayRun

/-! The headers of `if` and `while`.  A comparison makes the conditional jump of the header that
waits for it, one in parentheses leaves it to the end of the header, and one further inside makes
none: in whatever way the condition is written, the header closes with one jump on its value if it
is a comparison, and is refused if it is not.  When the code of the header is run, the jump goes by
what the condition evaluates to. -/

namespace DuckLang

open Emitter
open Emit (Ensures)
open DuckLang.Parser (Drives Expects GoesTo AtItem)
open Grammar.Duck (rule t n)

/-- Code behind which an operand has the value of an expression, whatever was known before it. -/
def Expression.IsComputed (s : Scope) {rank : Rank} (expr : Expression rank) (code : List Quad)
    (operand : Operand) : Prop :=
  ∀ r : Replay, ∃ f r', expr.value? s r.made = some (f, r'.made) ∧ r.run code = some r' ∧
    r'.announced = r.announced ∧ r'.read? operand = some f

theorem Piece.Renders.isComputed {s : Scope} {temps : TempPool} {rank : Rank}
    {expr : Expression rank} {type : DataType} {b : Piece} (h : b.Renders s temps expr type)
    (htemps : temps.Orderly) : expr.IsComputed s b.quads b.operand := by
  intro r
  obtain ⟨x, r', hx, hpass, hannounced, hholds⟩ := h.stands htemps r
  refine ⟨_, r', ?_, hpass.run, hannounced, hholds.read⟩
  simp only [Expression.value?, hx, Option.bind_eq_bind, Option.bind_some]

theorem Piece.Renders.no_jump {s : Scope} {temps : TempPool} {rank : Rank}
    {expr : Expression rank} {type : DataType} {b : Piece} (h : b.Renders s temps expr type)
    (htemps : temps.Orderly) : ∀ q ∈ b.quads, q.op ≠ .gotoFalse := by
  obtain ⟨_, _, _, hpass, _⟩ := h.stands htemps .start
  exact Replay.no_jump_of_run hpass.run

namespace Emitter

/-- A header that was opened and closed: its code ends in its only conditional jump, which the
construct owns, and the stacks are as they were. -/
structure ClosesHeader (e e' : Emitter) (construct : Construct) (code : List Quad)
    (test : Operand) : Prop where
  quads : e'.quads = (e.quads ++ code.toArray).push
    { op := .gotoFalse, left := test, result := .pending }
  alone : ∀ q ∈ code, q.op ≠ .gotoFalse
  owner : e'.controls =
    { construct, isOpen := false, depth := e.operators.length,
      falseJump := some (e.quads.size + code.length) } :: e.controls
  operands : e'.operands = e.operands
  operators : e'.operators = e.operators

theorem closesHeader_headed (e : Emitter) (construct : Construct) {b : Piece}
    (h : ∀ q ∈ b.quads, q.op ≠ .gotoFalse) :
    ClosesHeader e (e.headed construct b) construct b.quads b.operand :=
  ⟨rfl, h, rfl, rfl, rfl⟩

end Emitter

open Duck

namespace Duck

/-! ### Parses -/

/-- The constructs that have a header. -/
inductive Heading where
  | branch
  | loop

namespace Heading

def first : Heading → Token.Kind
  | branch => .ifWord
  | loop => .whileWord

def last : Heading → Token.Kind
  | branch => .thenWord
  | loop => .doWord

/-- The construct that is open from then on, given the index of the next quadruple. -/
def construct (size : Nat) : Heading → Construct
  | branch => .branch none
  | loop => .loop size

def words (heading : Heading) (condition : Expression .whole) : List (Token.Kind × String) :=
  heading.first.word :: Token.Kind.leftParen.word ::
    (condition.words ++ [Token.Kind.rightParen.word, heading.last.word])

def head : Heading → String
  | branch => "Condition"
  | loop => "Cycle"

def rest : Heading → List Grammar.Symbol
  | branch => [n "Body", n "ElseOpt"]
  | loop => [n "Body"]

theorem rules (heading : Heading) :
    rule "Stmt" [n heading.head] ∈ Grammar.Duck.statementRules ++ Grammar.Duck.expressionRules ∧
    rule heading.head (t heading.first.terminal :: t "(" :: n "Expr" :: t ")" ::
      t heading.last.terminal :: heading.rest) ∈
        Grammar.Duck.statementRules ++ Grammar.Duck.expressionRules := by
  cases heading <;> exact ⟨by decide, by decide⟩

theorem run_first (heading : Heading) (e : Emitter) :
    (Parser.shiftEffect heading.first).run e =
      .ok () (e.entered (heading.construct e.quads.size)) := by
  cases heading <;> rfl

theorem effect_last (heading : Heading) : Parser.shiftEffect heading.last = leaveHeader := by
  cases heading <;> rfl

end Heading

theorem next_of_rule {id : Nat} {production : Grammar.Production}
    (h : Grammar.duck.productions[id]? = some production) (dot : Nat) :
    Grammar.duck.next? { rule := id, dot } = production.body[dot]? := by
  rw [Grammar.next?, Grammar.production_of_rule h]

/-- A parse comes to the word that closes a header, with the code of its condition emitted. -/
theorem header_reached {p : Parser} {symbols : List Grammar.Symbol} {k : Nat}
    (hstack : Parser.Spells Grammar.duck p.stack symbols k) {next : Int}
    (hexpects : Expects Grammar.duck.table p "Stmt" next) (heading : Heading)
    (expr : Expression .whole) {type : DataType} (htype : expr.type? p.emitter.scope = some type)
    {text more : List Token} (hahead : p.cursor.tokens = text ++ more)
    (hwords : text.map Token.word = heading.words expr) :
    ∃ q b j, GoesTo Grammar.duck.table p q ∧ q.cursor.lookahead.kind = heading.last ∧
      q.cursor.rest = more ∧ b.Renders p.emitter.scope p.emitter.temps expr type ∧
      Parser.step Grammar.duck.table q = q.shift j ∧
      (expr.isRelational = true → leaveHeader.run q.emitter =
        .ok () (p.emitter.headed (heading.construct p.emitter.quads.size) b)) ∧
      (expr.isRelational = false →
        ∃ e, leaveHeader.run q.emitter = .error .conditionNotRelational e) := by
  have hg := Grammar.duck_proper
  have hfresh := Grammar.duck_fresh
  have hconflicts := List.isEmpty_iff.mp Grammar.duck_conflicts
  obtain ⟨first, _, rfl, hfirst, hwords⟩ := List.map_eq_cons_iff.mp hwords
  obtain ⟨opening, _, rfl, hopening, hwords⟩ := List.map_eq_cons_iff.mp hwords
  obtain ⟨inner, _, rfl, hinner, hwords⟩ := List.map_eq_append_iff.mp hwords
  obtain ⟨closing, _, rfl, hclosing, hwords⟩ := List.map_eq_cons_iff.mp hwords
  obtain ⟨last, _, rfl, hlast, hwords⟩ := List.map_eq_cons_iff.mp hwords
  obtain rfl := List.map_eq_nil_iff.mp hwords
  simp only [List.cons_append, List.append_assoc, List.nil_append] at hahead
  obtain ⟨i, hitem, hnext⟩ := hexpects.atItem hg hstack
  -- the production of the construct is predicted
  obtain ⟨hunit, hconstruct⟩ := heading.rules
  obtain ⟨id, hid⟩ := production_index hunit
  obtain ⟨id', hid'⟩ := production_index hconstruct
  have hitem₀ := (hitem.predicted hg hfresh hid hnext).predicted hg hfresh hid'
    (next_of_rule hid 0)
  have hasks := next_of_rule hid'
  -- its words one by one, and its condition
  obtain ⟨p₁, hgoes₁, hitem₁, hemitter₁, hahead₁⟩ := hitem₀.token hg hconflicts hahead
    (by simp) (Prod.mk.inj hfirst).1 (hasks 0) (heading.run_first _)
  obtain ⟨p₂, hgoes₂, hitem₂, hemitter₂, hahead₂⟩ := hitem₁.token hg hconflicts hahead₁
    (by simp) (Prod.mk.inj hopening).1 (hasks 1) rfl
  obtain ⟨b, e₁, x, hdrives, hrenders, hcloses, hrefused⟩ := expr.drives_test p.emitter
    (heading.construct p.emitter.quads.size) htype hinner
  obtain ⟨p₃, hgoes₃, hitem₃, hemitter₃, hahead₃⟩ := hitem₂.phrase hg hfresh hconflicts (hasks 2)
    (by rwa [hemitter₂, hemitter₁]) hahead₂ (follows_expr (by
      rw [Token.terminal, (Prod.mk.inj hclosing).1]
      decide))
  obtain ⟨q, hgoes, hitem, hemitter, hahead⟩ := hitem₃.token hg hconflicts hahead₃
    (by simp) (Prod.mk.inj hclosing).1 (hasks 3) rfl
  obtain ⟨hlookahead, hrest⟩ := List.cons.inj hahead
  have hkind : q.cursor.lookahead.kind = heading.last := by rw [hlookahead, (Prod.mk.inj hlast).1]
  obtain ⟨j, hstep, _⟩ := hitem.shift hg hconflicts ((hasks 4).trans (by
    rw [Token.terminal, hkind]
    rfl))
  refine ⟨q, b, j, hgoes₁.trans (hgoes₂.trans (hgoes₃.trans hgoes)), hkind, hrest, hrenders, hstep,
    ?_, ?_⟩
  · rwa [hemitter, hemitter₃]
  · rwa [hemitter, hemitter₃]

/-- Where a parse comes to a statement that starts with a header whose condition is well typed, it
goes on to the word that closes the header.  That word is taken exactly if the condition is a
comparison, in parentheses or without, and is a type error otherwise.  Once it is taken, the code of
the header ends in its only conditional jump, which tests the value of the condition and which the
construct owns, and the stacks are as they were when the header was opened. -/
theorem headers_close {table : Table} (htable : Grammar.duckTable = .ok table) {source : String}
    {tokens : List Token} (htokens : tokenize source = .ok tokens) {fuel : Nat} {p : Parser}
    (hreach : Parser.run table fuel (.start tokens) = .unfinished p) {next : Int}
    (hexpects : Expects table p "Stmt" next) (heading : Heading) (expr : Expression .whole)
    {type : DataType} (htype : expr.type? p.emitter.scope = some type) {text more : List Token}
    (hahead : p.cursor.tokens = text ++ more)
    (hwords : text.map Token.word = heading.words expr) :
    ∃ q, GoesTo table p q ∧ q.cursor.lookahead.kind = heading.last ∧ q.cursor.rest = more ∧
      ((∃ q', Parser.step table q = .next q') ↔ expr.isRelational = true) ∧
      (expr.isRelational = false → ∃ d q', Parser.step table q = .failed d q' ∧
        d.cause = .conditionNotRelational ∧ d.cause.kind = .type) ∧
      ∀ q', Parser.step table q = .next q' → ∃ code test,
        p.emitter.ClosesHeader q'.emitter (heading.construct p.emitter.quads.size) code test ∧
        expr.IsComputed p.emitter.scope code test := by
  obtain rfl : Grammar.duck.table = table :=
    Except.ok.inj (Grammar.duckTable_eq.symm.trans htable)
  obtain ⟨γ, hfollows⟩ := follows_of_run htokens hreach
  obtain ⟨symbols, k, hclimbs⟩ := hfollows.climbs
  have hsound : p.emitter.storage.Sound := by
    have := Parser.storage_sound Grammar.duck.table fuel tokens
    rwa [hreach] at this
  obtain ⟨q, b, j, hgoes, hkind, hrest, hrenders, hstep, hcloses, hrefused⟩ :=
    header_reached hclimbs.spells hexpects heading expr htype hahead hwords
  have heffect : Parser.shiftEffect q.cursor.lookahead.kind = leaveHeader := by
    rw [hkind, heading.effect_last]
  refine ⟨q, hgoes, hkind, hrest, ?_⟩
  rw [hstep]
  simp only [Parser.shift, heffect]
  cases hrelational : expr.isRelational with
  | true =>
    rw [hcloses hrelational]
    refine ⟨by simp, by simp, ?_⟩
    rintro _ ⟨⟩
    exact ⟨b.quads, b.operand, closesHeader_headed _ _ (hrenders.no_jump hsound.temps),
      hrenders.isComputed hsound.temps⟩
  | false =>
    obtain ⟨e, hrun⟩ := hrefused hrelational
    rw [hrun]
    refine ⟨by simp, fun _ => ⟨_, _, rfl, rfl, rfl⟩, ?_⟩
    rintro _ ⟨⟩

/-- The words ahead of the parse of a source text after some steps and the names it knows, if a
non-terminal is expected there. -/
def outlook (steps : Nat) (source name : String) : Option (List (Token.Kind × String) × Scope) :=
  match parse? steps source with
  | some (_, q) =>
    if q.expects Grammar.duck name then
      some ((q.cursor.lookahead :: q.cursor.rest).map fun t => (t.kind, t.text), q.emitter.scope)
    else none
  | none => none

theorem outlook_spec {steps : Nat} {source name : String} {words : List (Token.Kind × String)}
    {scope : Scope} (h : outlook steps source name = some (words, scope)) :
    ∃ tokens p next, tokenize source = .ok tokens ∧
      Parser.run Grammar.duck.table steps (.start tokens) = .unfinished p ∧
      Expects Grammar.duck.table p name next ∧ p.cursor.tokens.map Token.word = words ∧
      p.emitter.scope = scope := by
  simp only [outlook] at h
  split at h
  · rename_i tokens q hparse
    obtain ⟨htokens, p, hrun, htracks⟩ := parse_spec hparse
    split at h
    · rename_i hexpects
      obtain ⟨rfl, rfl⟩ := Prod.mk.inj (Option.some.inj h)
      obtain ⟨next, hnext⟩ := htracks.expects Grammar.duck_proper hexpects
      refine ⟨tokens, p, next, htokens, hrun 0, hnext, ?_, by rw [htracks.emitter]⟩
      rw [htracks.cursor]
      rfl
    · cases h
  · cases h

/-- A program that calls a function in the condition of a loop, with a comparison. -/
def asksAgain : String :=
  "program p; var int x; func int f(int a)[\x7b return(a); \x7d]; " ++
    "main \x7b while ((f(x < 1) > x)) do \x7b x = 1; \x7d \x7d end"

/-- The words of the loop, up to the end of the text. -/
def asksAgainWords : List (Token.Kind × String) :=
  let word (kind : Token.Kind) := (kind, kind.terminal)
  [word .whileWord, word .leftParen, word .leftParen, (.identifier, "f"), word .leftParen,
   (.identifier, "x"), word .less, (.intLiteral, "1"), word .rightParen, word .greater,
   (.identifier, "x"), word .rightParen, word .rightParen, word .doWord,
   word .leftBrace, (.identifier, "x"), word .assign, (.intLiteral, "1"), word .semicolon,
   word .rightBrace, word .rightBrace, word .endWord, word .endOfInput]

def asksAgainScope : Scope :=
  let argument : Symbol := { name := "a", type := .int, address := 7000, origin := .parameter }
  { program := "p"
    entries :=
      [{ name := "p", isProgram := true,
         symbols := [{ name := "x", type := .int, address := 1000, origin := .variable }] },
       { name := "f", returns := .int, symbols := [argument], params := [argument] }]
    current := "p"
    declaring := some .int }

set_option maxRecDepth 1000000 in
theorem asksAgain_outlook :
    outlook 54 asksAgain "Stmt" = some (asksAgainWords, asksAgainScope) := by
  decide +kernel

/-- The condition of `asksAgain`: a comparison in parentheses, with another one in a call. -/
def asksAgainTest : Expression .whole :=
  let x := alone (.var countdownName)
  let call := alone (.call { text := "f", isName := by decide }
    (.also .none (.binary (.rel .lt) .comparison x (alone (numeral "1")))))
  .loosen .sum (alone (.group (.binary (.rel .gt) .comparison call x)))

-- The comparison outside reads `x` once the call has come back, the one in the argument before it.
example : asksAgainTest.value? asksAgainScope [] =
    some (.binary (.rel .gt) (.result 0) (.var 1000 1),
      [{ function := "f",
         slots := [(7000, .binary (.rel .lt) (.var 1000 0) (.constant (.int 1)))] }]) := by
  cbv

theorem headers_close_asksAgain : ∃ (p q q' : Parser) (next : Int) (code : List Quad)
    (test : Operand),
    Expects Grammar.duck.table p "Stmt" next ∧ GoesTo Grammar.duck.table p q ∧
      q.cursor.lookahead.kind = .doWord ∧ Parser.step Grammar.duck.table q = .next q' ∧
      p.emitter.ClosesHeader q'.emitter (.loop p.emitter.quads.size) code test ∧
      asksAgainTest.IsComputed p.emitter.scope code test := by
  obtain ⟨tokens, p, next, htokens, hreach, hexpects, hahead, hscope⟩ :=
    outlook_spec asksAgain_outlook
  have hsplit : asksAgainWords = Heading.loop.words asksAgainTest ++ asksAgainWords.drop 14 := by
    decide +kernel
  obtain ⟨text, more, hahead, hwords, _⟩ := List.map_eq_append_iff.mp (hahead.trans hsplit)
  have htype : asksAgainTest.type? p.emitter.scope = some .int := by
    rw [hscope]
    decide +kernel
  obtain ⟨q, hgoes, hkind, _, hcloses, _, hclosed⟩ := headers_close Grammar.duckTable_eq
    htokens hreach hexpects .loop asksAgainTest htype hahead hwords
  obtain ⟨q', hstep⟩ := hcloses.mpr rfl
  obtain ⟨code, test, hheader, hcomputed⟩ := hclosed q' hstep
  exact ⟨p, q, q', next, code, test, hexpects, hgoes, hkind, hstep, hheader, hcomputed⟩

/-! ### Headers that are run -/

/-- Where a run of a program that was compiled passes over the code of a condition, calls included,
the jump behind it goes by the value of the condition: that of its formula in the history of the
way, with the variables as they were after so many calls and with what the calls gave back. -/
theorem headers_jump {table : Table} (htable : Grammar.duckTable = .ok table)
    {name source : String} {parsed : Parser} {program : Program}
    (hcompiles : Compiles table name source parsed program)
    (htemps : parsed.emitter.temps.highWater ≤ Address.rangeSize)
    {κ : Type} [Console κ] {globals : Memory} (hglobals : globals.Typed) (console : κ)
    (limit : Int) {steps : Nat} {m : Machine κ}
    (hreach : Machine.Reaches program limit (.start program globals console) steps m)
    {s : Scope} {rank : Rank} {expr : Expression rank} {code : List Quad} {test : Operand}
    (hcomputed : expr.IsComputed s code test) {base target : Nat} (hindex : m.index = base)
    (hholds : program.Holds base
      (code ++ [{ op := .gotoFalse, left := test, result := .jump target }]))
    {m' m'' : Machine κ} (hpasses : Machine.PassesOver program limit code.length m m')
    (hstep : Machine.step program limit m' = .next m'') :
    ∃ f r h v, expr.value? s [] = some (f, r.made) ∧ r.announced = [] ∧
      h.Extends { vars := [m.vars] } ∧ Replay.Describes r h m.pending m' ∧ f.eval h = some v ∧
      m'' = { m' with index := if v.isTrue then m'.index + 1 else target } := by
  obtain rfl : Grammar.duck.table = table :=
    Except.ok.inj (Grammar.duckTable_eq.symm.trans htable)
  obtain ⟨points, hlaid⟩ := laidOut hcompiles htemps
  have hscope := scope_orderly hcompiles
  obtain ⟨k₀, hstart⟩ := Machine.At.start hlaid globals console
  obtain ⟨k, P, hat⟩ := hstart.unfinished hlaid limit steps hreach
  have htyped := (Machine.Forall.start (p := program) hglobals console).run (p := program)
    Machine.settles_hasRangeType limit steps
  rw [show Machine.run program limit steps _ = .unfinished m from hreach] at htyped
  obtain rfl : k = base := Int.ofNat.inj (hat.index.symm.trans hindex)
  obtain ⟨hcode, hjump⟩ := hholds.append
  obtain ⟨f, r, hvalue, hrun, hannounced, hread⟩ := hcomputed .start
  obtain ⟨h, P', hextends, hdescribes, hat'⟩ :=
    Replay.Describes.run hlaid hscope hat htyped hcode (.start m) hrun hpasses
  -- the operand is read by the jump, so what it loads is what the formula says
  have hq := hjump 0 _ rfl
  obtain ⟨v, hload, rfl⟩ := (Machine.advances (hat'.quad?_eq.trans hq) hstep).of_gotoFalse rfl rfl
  obtain ⟨temps, B, _, _, hflows⟩ := hlaid.flows hat'.point hq
  simp only [Flows] at hflows
  exact ⟨f, r, h, v, hvalue, hannounced, hextends, hdescribes,
    hdescribes.load hscope hflows.1 hread hload, rfl⟩

end Duck

end DuckLang
