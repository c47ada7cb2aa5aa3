import DuckLang.Proofs.Parser.Operations
import DuckLang.Proofs.Parser.Soundness

/-! The operations behind a phrase.  A language gives each symbol of a grammar the sequences of
operations that may lie behind it.  If it is closed, that is if every production makes a sequence of
its head out of sequences of its body and the operations of its own, then the operations of a parse
that accepts are one of the start. -/

namespace DuckLang.Parser

open Emitter (Command)
open Grammar (Proper FreshStart Item State)

variable {g : Grammar} {L : Grammar.Symbol → List Command → Prop}

/-- Operations that are those of symbols, one after the other. -/
def YieldsAll (L : Grammar.Symbol → List Command → Prop) :
    List Grammar.Symbol → List Command → Prop
  | [], commands => commands = []
  | symbol :: symbols, commands =>
    ∃ first rest, commands = first ++ rest ∧ L symbol first ∧ YieldsAll L symbols rest

/-- A language that tokens and productions stay in. -/
structure Closed (g : Grammar) (L : Grammar.Symbol → List Command → Prop) : Prop where
  token : ∀ t : Token, L (.terminal t.terminal) (shiftCommands t.kind)
  rule : ∀ {id : Nat} {p : Grammar.Production}, g.productions[id]? = some p → id ≠ 0 →
    ∀ {commands : List Command} {attributes : List Attribute}, YieldsAll L p.body commands →
    attributes.length = p.body.length →
    (∃ a e e', (reduceEffect p.head attributes).run e = .ok a e') →
    L (.nonterminal p.head) (commands ++ reduceCommands p.head attributes)

/-- The operations done once a symbol is on the stack. -/
def Yields (L : Grammar.Symbol → List Command → Prop) (symbol : Grammar.Symbol)
    (done : List Command) (_ : Attribute) (done' : List Command) : Prop :=
  ∃ more, done' = done ++ more ∧ L symbol more

theorem yieldsAll_of_madeAll {symbols : List Grammar.Symbol} {attributes : List Attribute}
    {done done' : List Command} (h : MadeAll (Yields L) symbols done attributes done') :
    attributes.length = symbols.length ∧
      ∃ more, done' = done ++ more ∧ YieldsAll L symbols more := by
  induction symbols generalizing done attributes with
  | nil =>
    obtain ⟨rfl, rfl⟩ := h
    exact ⟨rfl, [], by simp, rfl⟩
  | cons symbol symbols ih =>
    obtain ⟨a, rest, _, rfl, ⟨first, rfl, hfirst⟩, hrest⟩ := h
    obtain ⟨hlength, more, rfl, hmore⟩ := ih hrest
    exact ⟨by simp [hlength], first ++ more, by simp, first, more, rfl, hfirst, hmore⟩

theorem stepCommands_shift {table : Table} {p : Parser} {j : Int}
    (h : action? table p = some (.shift j)) :
    stepCommands table p = shiftCommands p.cursor.lookahead.kind := by
  rw [action?] at h
  rw [stepCommands, h]

theorem stepCommands_reduce {p : Parser} {index : Nat} {production : Grammar.Production}
    (h : action? g.table p = some (.reduce index))
    (hrule : g.productions[index]? = some production) :
    stepCommands g.table p = reduceCommands production.head (popped p.stack production) := by
  rw [action?] at h
  rw [stepCommands, h]
  simp only [Grammar.rule?_table, hrule, Option.map_some]
  rfl

/-- The rest of a run that accepts: with what was done before, its operations are those of the
start. -/
theorem Closed.run (hclosed : Closed g L) (hg : Proper g) (hfresh : FreshStart g) {fuel : Nat}
    {p q : Parser} {symbols : List Grammar.Symbol} {k : Nat} {done : List Command}
    (h : Climbs g (Yields L) [] p.stack symbols k done)
    (hrun : run g.table fuel p = .accepted q) :
    YieldsAll L (g.production 0).body (done ++ commands g.table fuel p) := by
  induction fuel generalizing p symbols k done with
  | zero => cases hrun
  | succ fuel ih =>
    obtain ⟨s, hs⟩ := h.state hg
    rcases step_cases h hs with ⟨_, hstep⟩ | ⟨j, haction, hstep, hedge, _⟩ |
      ⟨i, hi, haction, hstep, hrule, hnext⟩ | ⟨_, hstep, _, i, hi, hrule, hnext⟩
    · simp [Parser.run, hstep] at hrun
    · -- a shift: the token stands for its own operations
      simp only [Parser.run, hstep, Parser.shift] at hrun
      simp only [commands, hstep, Parser.shift]
      cases heffect : (shiftEffect p.cursor.lookahead.kind).run p.emitter with
      | error cause e => simp [heffect] at hrun
      | ok _ e =>
        simp only [heffect] at hrun ⊢
        rw [← List.append_assoc, stepCommands_shift haction]
        exact ih (.push h hs hedge ⟨_, rfl, hclosed.token _⟩) hrun
    · -- a reduction: its own operations come behind those of the body
      obtain ⟨k', s', done₀, b⟩ := h.beneath hg hs hi
      obtain ⟨j, hedge, heffect⟩ := reduce_eq hg hs hi hrule hnext b
      obtain ⟨hok, herror⟩ := heffect _ rfl
      have hproduction := item_rule hg hs hi
      simp only [Parser.run, hstep] at hrun
      simp only [commands, hstep, stepCommands_reduce haction hproduction]
      cases hcase : (reduceEffect (g.production i.rule).head
          (popped p.stack (g.production i.rule))).run p.emitter with
      | error cause e =>
        obtain ⟨_, hfailed⟩ := herror cause e hcase
        simp [hfailed] at hrun
      | ok head e =>
        obtain ⟨_, hclimbs⟩ := b.whole hg hs hi hnext
        have hmade := b.made
        rw [dot_of_complete hg hs hi hnext, List.take_length] at hmade
        obtain ⟨hlength, body, rfl, hbody⟩ := yieldsAll_of_madeAll hmade
        have hhead := hclosed.rule hproduction hrule hbody hlength ⟨_, _, _, hcase⟩
        simp only [hok head e hcase] at hrun ⊢
        rw [← List.append_assoc]
        refine ih (.push hclimbs b.state hedge ⟨_, ?_, hhead⟩) hrun
        rw [List.append_assoc]
        rfl
    · -- acceptance: the start lies on the empty stack
      obtain ⟨k', s', done₀, b⟩ := h.beneath hg hs hi
      have hmade := b.made
      have hitem := b.item
      rw [dot_of_complete hg hs hi hnext, hrule, List.take_length] at hmade
      rw [hrule] at hitem
      have hbottom := b.climbs.bottom_of_start hg hfresh b.state hitem
      obtain ⟨_, more, rfl, hmore⟩ := yieldsAll_of_madeAll hmade
      obtain ⟨-, -, rfl, -⟩ | ⟨_, _, _, _, _, _, _, hpushed, _⟩ := b.climbs.items hg b.state
      · simp only [commands, hstep, List.append_nil, List.nil_append]
        exact hmore
      · simp [hbottom] at hpushed

/-- The operations of a parse that accepts are those of the start. -/
theorem Closed.accepted (hclosed : Closed g L) (hg : Proper g) (hfresh : FreshStart g)
    {tokens : List Token} {fuel : Nat} {p : Parser}
    (hrun : Parser.run g.table fuel (.start tokens) = .accepted p) :
    YieldsAll L (g.production 0).body (commands g.table fuel (.start tokens)) :=
  hclosed.run hg hfresh (p := .start tokens) .bottom hrun

end DuckLang.Parser
