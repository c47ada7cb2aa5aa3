import DuckLang.Proofs.Emitter.Aliasing

/-! The operations of a parse.  Every effect of a parser is a few operations of its emitter, told by
the token or the rule alone, so what a parse does to its emitter as long as it goes on is a sequence
of operations none of which fails. -/

namespace DuckLang.Parser

open Emitter (Command Performs perform)

/-- The operations of shifting a token. -/
def shiftCommands : Token.Kind → List Command
  | .ifWord => [.enterIf]
  | .whileWord => [.enterWhile]
  | .thenWord | .doWord => [.leaveHeader]
  | .elseWord => [.enterElse]
  | .mainWord => [.markMain]
  | _ => []

/-- An operation on the type that an attribute names. -/
def typed (a : Attribute) (command : DataType → Command) : List Command :=
  ((DataType.ofKeyword? a.text).map command).toList

/-- The operations of a rule on the attributes of its body. -/
def Effect.commands : Effect → List Attribute → List Command
  | openProgram, [_, name, _] => [.initProgram name.text]
  | closeProgram, _ => [.finish]
  | setType, [type] => typed type .setType
  | declareFirst, [name] => [.declareVariable name.text]
  | declareNext, [_, _, name] => [.declareVariable name.text]
  | beginFunction, [_, returns, name] => typed returns (.beginFunction name.text)
  | addParameter, [type, name] => typed type (.addParameter name.text)
  | endFunction, _ => [.endFunction]
  | giveBack, _ => [.giveBack]
  | assign, name :: _ => [.assign name.text]
  | endIf, _ => [.endIf]
  | endWhile, _ => [.endWhile]
  | callStatement, .call _ :: _ => [.discardResult]
  | printItem, [item] =>
    if item.text.startsWith "\"" then [.pushString item.text, .write] else [.write]
  | readFirst, [name] => [.read name.text]
  | readNext, [_, _, name] => [.read name.text]
  | beginCall, [name] => [.beginCall name.text]
  | argument, _ => [.argument]
  | endCall, _ :: _ => [.endCall]
  | comparison, _ => [.generateRelational]
  | operator, [op] => [.pushOperator op.text]
  | addition, _ => [.generateAdditive]
  | multiplication, _ => [.generateMultiplicative]
  | openParen, _ => [.openParen]
  | closeParen, _ => [.closeParen]
  | negation, _ => [.negateLiteral]
  | factor, [a] =>
    match a with
    | .constant | .call _ | .voidCall _ => []
    | a => [.pushVariable a.text]
  | constant, [lexeme] =>
    match literalValue lexeme.text with
    | .ok v => [.pushLiteral v]
    | .error _ => []
  | _, _ => []

/-- The operations of a reduction. -/
def reduceCommands (head : String) (attributes : List Attribute) : List Command :=
  match Effect.of? head attributes.length with
  | some effect => effect.commands attributes
  | none => []

/-- The operations of the next action. -/
def stepCommands (table : Table) (p : Parser) : List Command :=
  match (table.row? (topState p.stack)).bind (·.action? p.cursor.lookahead.terminal) with
  | some (.shift _) => shiftCommands p.cursor.lookahead.kind
  | some (.reduce index) =>
    match table.rule? index with
    | some rule => reduceCommands rule.head ((p.stack.take rule.size).map (·.2)).reverse
    | none => []
  | _ => []

/-- The operations of a run, as far as it goes on. -/
def commands (table : Table) : Nat → Parser → List Command
  | 0, _ => []
  | fuel + 1, p =>
    match step table p with
    | .next q => stepCommands table p ++ commands table fuel q
    | _ => []

variable {e e' : Emitter} {α β : Type}

theorem run_bind_ok {m : Emit α} {f : α → Emit β} {b : β}
    (h : (m >>= f).run e = .ok b e') : ∃ a mid, m.run e = .ok a mid ∧ (f a).run mid = .ok b e' := by
  simp only [EStateM.run, bind, EStateM.bind] at h ⊢
  cases hm : m e with
  | ok a mid =>
    rw [hm] at h
    exact ⟨a, mid, rfl, h⟩
  | error cause mid =>
    rw [hm] at h
    cases h

theorem run_bind_pure {m : Emit α} {a : α} {f : α → β} (h : m.run e = .ok a e') :
    (m >>= fun a => pure (f a)).run e = .ok (f a) e' := by
  simp only [EStateM.run] at h
  simp only [EStateM.run, bind, EStateM.bind, h]
  rfl

theorem performs_command (command : Command) {f : Unit → α} {a : α}
    (h : (perform command >>= fun u => pure (f u)).run e = .ok a e') : Performs [command] e e' := by
  obtain ⟨_, mid, hrun, hrest⟩ := run_bind_ok h
  obtain ⟨_, rfl⟩ := EStateM.Result.ok.inj hrest
  exact ⟨_, hrun, rfl⟩

theorem typeOf_ok {a : Attribute} {type : DataType} (h : (typeOf a).run e = .ok type e') :
    DataType.ofKeyword? a.text = some type ∧ e' = e := by
  simp only [typeOf] at h
  split at h
  · rename_i type' htype
    obtain ⟨rfl, rfl⟩ := EStateM.Result.ok.inj h
    exact ⟨htype, rfl⟩
  · cases h

theorem performs_typed (command : DataType → Command) {t : Attribute} {f : Unit → α} {a : α}
    (h : (typeOf t >>= fun type => perform (command type) >>= fun u => pure (f u)).run e =
      .ok a e') : Performs (typed t command) e e' := by
  obtain ⟨type, mid, htype, hrest⟩ := run_bind_ok h
  obtain ⟨hkeyword, rfl⟩ := typeOf_ok htype
  rw [typed, hkeyword]
  exact performs_command _ hrest

theorem performs_effect (effect : Effect) (attributes : List Attribute) {a : Attribute}
    (h : (effect.run attributes).run e = .ok a e') :
    Performs (effect.commands attributes) e e' := by
  unfold Effect.run at h
  split at h
  · exact performs_command (.initProgram _) h
  · exact performs_command .finish h
  · exact performs_typed .setType h
  · exact performs_command (.declareVariable _) h
  · exact performs_command (.declareVariable _) h
  · exact performs_typed (.beginFunction _) h
  · exact performs_typed (.addParameter _) h
  · exact performs_command .endFunction h
  · exact performs_command .giveBack h
  · exact performs_command (.assign _) h
  · exact performs_command .endIf h
  · exact performs_command .endWhile h
  · exact performs_command .discardResult h
  · dsimp only at h
    simp only [Effect.commands]
    split at h
    · rename_i hquote
      obtain ⟨_, mid, hfirst, hrest⟩ := run_bind_ok h
      rw [if_pos hquote]
      exact ⟨mid, hfirst, performs_command .write hrest⟩
    · rename_i hquote
      rw [if_neg hquote]
      exact performs_command .write h
  · exact performs_command (.read _) h
  · exact performs_command (.read _) h
  · exact performs_command (.beginCall _) h
  · exact performs_command .argument h
  · obtain ⟨valued, mid, hcall, hrest⟩ := run_bind_ok h
    have hmid : e' = mid := by
      cases valued <;> exact (EStateM.Result.ok.inj hrest).2.symm
    rw [hmid]
    exact performs_command .endCall (f := id) (run_bind_pure (run_bind_pure hcall))
  · exact performs_command .generateRelational h
  · exact (EStateM.Result.ok.inj h).2.symm
  · exact performs_command (.pushOperator _) h
  · exact performs_command .generateAdditive h
  · exact performs_command .generateMultiplicative h
  · exact performs_command .openParen h
  · exact performs_command .closeParen h
  · exact performs_command .negateLiteral h
  · rename_i a
    cases a with
    | constant | call => exact (EStateM.Result.ok.inj h).2.symm
    | voidCall => cases h
    | lexeme | expression => exact performs_command (.pushVariable _) h
  · rename_i lexeme
    simp only [Effect.commands]
    cases hvalue : literalValue lexeme.text with
    | ok v =>
      rw [hvalue] at h
      exact performs_command (.pushLiteral v) (f := fun _ => _) h
    | error cause =>
      rw [hvalue] at h
      cases h
  · -- the other rules have been gone through above
    unfold Effect.commands
    split
    all_goals first | exact (EStateM.Result.ok.inj h).2.symm | (exfalso; solve_by_elim)

theorem performs_shift {kind : Token.Kind} (h : (shiftEffect kind).run e = .ok () e') :
    Performs (shiftCommands kind) e e' := by
  cases kind <;> first | exact ⟨e', h, rfl⟩ | exact (EStateM.Result.ok.inj h).2.symm

theorem performs_reduce {head : String} {attributes : List Attribute} {a : Attribute}
    (h : (reduceEffect head attributes).run e = .ok a e') :
    Performs (reduceCommands head attributes) e e' := by
  simp only [reduceEffect] at h
  rw [reduceCommands]
  cases heffect : Effect.of? head attributes.length with
  | some effect =>
    rw [heffect] at h
    exact performs_effect effect attributes h
  | none =>
    rw [heffect] at h
    dsimp only at h
    split at h <;> exact (EStateM.Result.ok.inj h).2.symm

theorem performs_step {table : Table} {p q : Parser} (h : step table p = .next q) :
    Performs (stepCommands table p) p.emitter q.emitter := by
  simp only [step] at h
  rw [stepCommands]
  cases hrow : table.row? (topState p.stack) with
  | none =>
    rw [hrow] at h
    cases h
  | some row =>
    rw [hrow] at h
    dsimp only at h
    rw [Option.bind_some]
    cases haction : row.action? p.cursor.lookahead.terminal with
    | none =>
      rw [haction] at h
      cases h
    | some action =>
      rw [haction] at h
      cases action with
      | shift next =>
        simp only [shift] at h
        split at h
        · rename_i heffect
          obtain rfl := Step.next.inj h
          exact performs_shift heffect
        · cases h
      | reduce index =>
        -- a reduction has four ways to fail: no rule, too short a stack, its effect, no state
        simp only [reduce] at h
        dsimp only
        split at h
        · cases h
        · rename_i rule hrule
          rw [hrule]
          split at h
          · cases h
          · split at h
            · cases h
            · rename_i heffect
              split at h
              · obtain rfl := Step.next.inj h
                exact performs_reduce heffect
              · cases h
      | accept => cases h

theorem eq_of_step_accepted {table : Table} {p q : Parser} (h : step table p = .accepted q) :
    q = p := by
  simp only [step] at h
  split at h
  · cases h
  · split at h
    · cases h
    · simp only [shift] at h
      split at h <;> cases h
    · simp only [reduce] at h
      split at h
      · cases h
      · split at h
        · cases h
        · split at h
          · cases h
          · split at h <;> cases h
    · exact (Step.accepted.inj h).symm

/-- The operations of a run that does not fail. -/
theorem performs_run {table : Table} {fuel : Nat} {p q : Parser}
    (h : run table fuel p = .unfinished q ∨ run table fuel p = .accepted q) :
    Performs (commands table fuel p) p.emitter q.emitter := by
  induction fuel generalizing p with
  | zero =>
    rcases h with h | h
    · obtain rfl := Outcome.unfinished.inj h
      rfl
    · cases h
  | succ fuel ih =>
    simp only [run] at h
    rw [commands]
    cases hstep : step table p with
    | next p' =>
      rw [hstep] at h
      exact (performs_step hstep).append (ih h)
    | accepted p' =>
      rw [hstep] at h
      rcases h with h | h
      · cases h
      · obtain rfl := Outcome.accepted.inj h
        exact congrArg Parser.emitter (eq_of_step_accepted hstep)
    | failed d p' =>
      rw [hstep] at h
      rcases h with h | h <;> cases h

end DuckLang.Parser
