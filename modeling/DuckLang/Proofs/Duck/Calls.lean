import DuckLang.Proofs.Duck.Types
import DuckLang.Proofs.Machine.Linkage

/-! The calls of a program that was compiled.  Wherever a call is about to run, its frame is its own
and holds its own arguments, and a call that comes back has changed nothing of its caller but the
temporary for its value. -/

namespace DuckLang.Duck

open Emitter Machine

/-- Where a run of a program comes to a call, the frame on top is the one that the call announced
itself, since then below nothing but the frames of calls among its arguments; its locals are the
parameters of the function, each with the value that its argument had when it was copied.  When the
call comes back, the frames below and its caller are as they were, but for the temporary that holds
the value given back. -/
theorem calls_linked {table : Table} (htable : Grammar.duckTable = .ok table)
    {name source : String} {parsed : Parser} {program : Program}
    (hcompiles : Compiles table name source parsed program)
    (htemps : parsed.emitter.temps.highWater ≤ Address.rangeSize)
    {κ : Type} [Console κ] (globals : Memory) (console : κ) (limit : Int)
    {n : Nat} {m : Machine κ}
    (hreach : Reaches program limit (.start program globals console) n m)
    {q : Quad} (hquad : quad? program m.index = some q) (hop : q.op = .call) :
    ∃ site sites frame rest since passed,
      openCalls program.quads m.index.toNat = site :: sites ∧ m.pending = frame :: rest ∧
      program.functions.get? frame.function.name = some frame.function ∧
      q.left = .function frame.function.name ∧
      Opened program limit (.start program globals console) site m.callers rest since n frame
        passed ∧
      passed.length = frame.function.params.length ∧
      ∀ n' m', n < n' → Reaches program limit (.start program globals console) n' m' →
        m'.callers.length ≤ m.callers.length →
        (∀ j mⱼ, n < j → j < n' →
          Reaches program limit (.start program globals console) j mⱼ →
          m.callers.length < mⱼ.callers.length) →
        ∃ last, Reaches program limit (.start program globals console) (n' - 1) last ∧
          last.callers = { frame := m.frame, index := m.index } :: m.callers ∧
          last.frame.function = frame.function ∧
          Resumes program m last m' q frame.function rest := by
  obtain rfl : Grammar.duck.table = table :=
    Except.ok.inj (Grammar.duckTable_eq.symm.trans htable)
  obtain ⟨points, hlaid⟩ := laidOut hcompiles htemps
  have hscope := scope_orderly hcompiles
  obtain ⟨k₀, hstart⟩ := At.start hlaid globals console
  have hbegin : LinkedAt program limit (.start program globals console) points 0 [] []
      (.start program globals console) := by
    obtain ⟨temps, _, hcode⟩ := hlaid.laid
    refine ⟨k₀, _, hstart, ?_⟩
    rw [hcode.openCalls_resting hstart.point]
    exact .base
  have hlinked := hreach.linked hlaid hscope hbegin
  obtain ⟨site, sites, frame, rest, since, passed, hsites, hpending, hlisted, hleft, hopened,
    hcount⟩ := hlinked.call hlaid hquad hop
  refine ⟨site, sites, frame, rest, since, passed, hsites, hpending, hlisted, hleft, hopened,
    hcount, ?_⟩
  intro n' m' hlt hreach' hback hbusy
  obtain ⟨k, P, hat, _⟩ := hlinked
  exact hreach.resumes hlaid hscope hat (hat.quad?_eq.symm.trans hquad) hop hpending hlt hreach'
    hback hbusy

/-- The outer call of `echoes`, which comes back after two steps. -/
theorem calls_linked_echoes : ∃ parsed program m m' last q site frame rest since passed,
    Compiles Grammar.duck.table "" echoes parsed program ∧
      Reaches program defaultLimit (.start program {} ({} : Console.Scripted)) 6 m ∧
      quad? program m.index = some q ∧ q.op = .call ∧ m.pending = frame :: rest ∧
      Opened program defaultLimit (.start program {} ({} : Console.Scripted)) site m.callers rest
        since 6 frame passed ∧
      passed.length = frame.function.params.length ∧
      Reaches program defaultLimit (.start program {} ({} : Console.Scripted)) 8 m' ∧
      Resumes program m last m' q frame.function rest := by
  obtain ⟨parsed, program, hcompiles, htemps, hglimpses⟩ := echoes_spec
  obtain ⟨m, hreach, _, hop, hcallers⟩ := glimpses_spec hglimpses 6 rfl
  obtain ⟨m₇, hreach₇, _, _, hcallers₇⟩ := glimpses_spec hglimpses 7 rfl
  obtain ⟨m', hreach', _, _, hcallers'⟩ := glimpses_spec hglimpses 8 rfl
  obtain ⟨q, hquad, hop⟩ := Option.map_eq_some_iff.mp hop
  obtain ⟨site, sites, frame, rest, since, passed, _, hpending, _, _, hopened, hcount, hback⟩ :=
    calls_linked Grammar.duckTable_eq hcompiles (by simp [htemps, Address.rangeSize]) {} _ _ hreach
      hquad hop
  dsimp only at hcallers hcallers₇ hcallers'
  obtain ⟨last, _, _, _, hresumes⟩ := hback 8 m' (by omega) hreach' (by omega) (by
    intro j mⱼ hlt hlt' hj
    obtain rfl : j = 7 := by omega
    rw [hj.unique hreach₇]
    omega)
  exact ⟨parsed, program, m, m', last, q, site, frame, rest, since, passed, hcompiles, hreach, hquad,
    hop, hpending, hopened, hcount, hreach', hresumes⟩

end DuckLang.Duck
