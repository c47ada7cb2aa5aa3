import DuckLang.Proofs.Duck.Meaning
import DuckLang.Proofs.Parser.Operations

/-! Temporaries while code is emitted, whatever operations an emitter has gone through and wherever
a parse stands. -/

namespace DuckLang

open Emitter
open DuckLang.Parser (Expects)

/-- The temporaries on the stack of an emitter are in use, each of them once, and what any operation
computes next goes to none of them. -/
structure Emitter.Apart (e : Emitter) : Prop where
  distinct : e.stacked.Nodup
  live : ∀ id ∈ e.stacked, e.temps.IsLive id
  fresh : ∀ command i q, e.quads.size ≤ i → (after e command).quads[i]? = some q →
    ∀ t ∈ q.made, t.1 ∉ e.stacked

theorem Emitter.Accounts.apart {lost : List Int} {e : Emitter} (h : Accounts lost ⟨{}, e⟩) :
    e.Apart where
  distinct := by
    have hdistinct := h.distinct
    simp only [Desk.held, List.map_nil, List.nil_append] at hdistinct
    exact (List.nodup_append.mp hdistinct).1
  live id hid := (h.live id).mpr (List.mem_append_left _ hid)
  fresh command i q hi hq := by
    obtain ⟨g, hedits⟩ :=
      edits_after (fun _ _ => trivial) (lawful_any command) (returns_any e.scope)
    exact ((Since.refl e).edits h hedits).fresh i q hi hq

namespace Duck

/-- Whatever operations an emitter has gone through, those that failed included, the temporaries on
its stack are in use, each of them once, and what is computed next goes to none of them.  If none of
the operations failed, no other temporary is in use; so none is where a parse comes to a
statement. -/
theorem temporaries_apart {table : Table} (htable : Grammar.duckTable = .ok table) :
    (∀ commands : List Command, (commands.foldl after {}).Apart) ∧
    (∀ commands e, Performs commands {} e → e.temps.live = e.stacked.length) ∧
    ∀ source tokens fuel p name next, tokenize source = .ok tokens →
      Parser.run table fuel (.start tokens) = .unfinished p → name ∈ ["Stmts", "Stmt"] →
      Expects table p name next → p.emitter.operands = [] ∧ p.emitter.temps.live = 0 := by
  obtain rfl : Grammar.duck.table = table :=
    Except.ok.inj (Grammar.duckTable_eq.symm.trans htable)
  refine ⟨fun commands => ?_, fun commands e hperforms => ?_, ?_⟩
  · obtain ⟨lost, haccounts⟩ := Accounts.empty.commands commands
    exact haccounts.apart
  · exact (Accounts.empty.performs hperforms).live_eq
  · intro source tokens fuel p name next htokens hreach hname hexpects
    obtain ⟨γ, hfollows⟩ := follows_of_run htokens hreach
    have hready : Phrase.statement.Ready γ := by
      have hready := kept.ready_of_expects Grammar.duck_proper Grammar.duck_fresh hfollows hexpects
      simp only [List.mem_cons, List.not_mem_nil, or_false] at hname
      rcases hname with rfl | rfl <;> exact hready
    have hoperands : p.emitter.operands = [] := by
      rw [← hfollows.emitter]
      exact hready.2.operands
    have hperforms := Parser.performs_run (.inl hreach)
    refine ⟨hoperands, ?_⟩
    rw [(Accounts.empty.performs hperforms).live_eq, stacked, hoperands]
    rfl

/-- Two sums that wait on the stack. -/
def waitingSums : List Command :=
  [.pushLiteral (.int 1), .pushLiteral (.int 2), .pushOperator "+", .generateAdditive,
   .pushLiteral (.int 3), .pushLiteral (.int 4), .pushOperator "+", .generateAdditive]

/-- The two sums are apart, also once an operation has failed on the second; before, they are the
temporaries in use. -/
theorem temporaries_apart_waitingSums :
    (waitingSums.foldl after {}).stacked = [1, 0] ∧ (waitingSums.foldl after {}).Apart ∧
    ((waitingSums ++ [Command.negateLiteral]).foldl after {}).Apart ∧
    (waitingSums.foldl after {}).temps.live = 2 ∧
    ∃ p next, Expects Grammar.duck.table p "Stmts" next ∧ p.emitter.temps.live = 0 := by
  obtain ⟨hapart, hlive, hstatement⟩ := temporaries_apart Grammar.duckTable_eq
  have hstacked : (waitingSums.foldl after {}).stacked = [1, 0] := by decide +kernel
  have hperforms : Performs waitingSums {} (waitingSums.foldl after {}) :=
    performs_of_succeed (by decide +kernel)
  refine ⟨hstacked, hapart waitingSums, hapart _, ?_, ?_⟩
  · rw [hlive _ _ hperforms, hstacked]
    rfl
  · obtain ⟨tokens, p, next, htokens, hreach, hexpects, _⟩ := sight_spec countdown_statements
    exact ⟨p, next, hexpects,
      (hstatement countdown tokens 17 p "Stmts" next htokens hreach (by simp) hexpects).2⟩

end Duck

end DuckLang
