import DuckLang.Proofs.Source.Block

/-! The code of statements, run.  It does to the world of a machine what the statements do, and
comes to its end, to a fault or to neither just as they do. -/

namespace DuckLang

open Machine

/-! ### Worlds of a machine -/

namespace Machine

variable {κ : Type} {p : Program} {m : Machine κ}

/-- What the statements that a machine runs work on. -/
def world (m : Machine κ) : World κ :=
  { vars := m.vars, console := m.console }

/-- The machine at another index, in another world and with other values of the temporaries. -/
def onto (m : Machine κ) (w : World κ) (index : Int) (temps : Memory) : Machine κ :=
  { m with
    globals := w.vars.globals
    frame := { m.frame with locals := w.vars.locals, temps }
    index
    console := w.console }

end Machine

theorem Variables.Typed.set {vars : Variables} (h : vars.Typed) {address : Int} {v : Value}
    (hv : ∀ place ∈ Address.place? address, v.type = place.type) : (vars.set address v).Typed := by
  simp only [Variables.set]
  split
  · exact ⟨Memory.Forall.set h.globals hv, h.locals⟩
  · exact ⟨h.globals, Memory.Forall.set h.locals hv⟩
  · exact h

namespace Machine

variable {κ : Type} {p : Program} {m : Machine κ}

theorem store_variable {s : Scope} (hs : s.Orderly) {name : String} {symbol : Symbol}
    (h : s.symbol? name = some symbol) (v : Value) :
    store m (.address symbol.address symbol.type) v =
      .ok (m.onto { m.world with vars := m.vars.set symbol.address (v.convert symbol.type) } m.index
        m.frame.temps) := by
  obtain ⟨segment, hsegment, offset, hplace⟩ := hs.placed h
  simp only [store, Operand.target?, hplace, Variables.set]
  rcases hsegment with rfl | rfl <;> rfl

variable [Console κ] {limit : Int} {pool pool' : TempPool}
  {first last first' last' fuel fuel' exit : Nat} {x : Ending κ}

/-- What running code from a machine on leads to, within a range of indices: past the end of the
code in the world that is left if all is well; to a fault with the world there; or on for at least
as many steps as are asked for. -/
def Goes (p : Program) (limit : Int) (pool : TempPool) (first last fuel : Nat) (m : Machine κ)
    (exit : Nat) : Ending κ → Prop
  | .done w => w.vars.Typed ∧ ∃ n mem, pool.Keeps m.frame.temps mem ∧
      Within p limit first last m n (m.onto w exit mem)
  | .faulted w => ∃ n m₁ m₂ f, Within p limit first last m n m₁ ∧ first ≤ m₁.index ∧
      m₁.index < last ∧ step p limit m₁ = .faulted f m₂ ∧ m₂.world = w
  | .unfinished => ∃ n m₁, fuel ≤ n ∧ Within p limit first last m n m₁

theorem Goes.mono (h : Goes p limit pool' first last fuel m exit x)
    (hpool : ∀ {id}, pool.IsLive id → pool'.IsLive id) (hfirst : first' ≤ first)
    (hlast : last ≤ last') (hfuel : fuel' ≤ fuel) :
    Goes p limit pool first' last' fuel' m exit x := by
  cases x with
  | done w =>
    obtain ⟨htyped, n, mem, hkeeps, hwithin⟩ := h
    exact ⟨htyped, n, mem, hkeeps.mono hpool, hwithin.mono (by omega) (by omega)⟩
  | faulted w =>
    obtain ⟨n, m₁, m₂, f, hwithin, hlow, hhigh, hstep, hworld⟩ := h
    exact ⟨n, m₁, m₂, f, hwithin.mono (by omega) (by omega), by omega, by omega, hstep, hworld⟩
  | unfinished =>
    obtain ⟨n, m₁, hn, hwithin⟩ := h
    exact ⟨n, m₁, by omega, hwithin.mono (by omega) (by omega)⟩

theorem Goes.leads {k k' : Stock} (hleads : k.Leads k')
    (h : Goes p limit k'.temps first last fuel m exit x) :
    Goes p limit k.temps first last fuel m exit x :=
  h.mono hleads.live.mpr (Nat.le_refl _) (Nat.le_refl _) (Nat.le_refl _)

theorem Goes.after {n : Nat} {w : World κ} {index : Int} {mem : Memory}
    (hwithin : Within p limit first last m n (m.onto w index mem))
    (hkeeps : pool.Keeps m.frame.temps mem)
    (h : Goes p limit pool first last fuel (m.onto w index mem) exit x) (hfuel : fuel' ≤ fuel + n) :
    Goes p limit pool first last fuel' m exit x := by
  cases x with
  | done w' =>
    obtain ⟨htyped, n', mem', hkeeps', hwithin'⟩ := h
    exact ⟨htyped, n + n', mem', hkeeps.trans hkeeps', hwithin.trans hwithin'⟩
  | faulted w' =>
    obtain ⟨n', m₁, m₂, f, hwithin', hinside⟩ := h
    exact ⟨n + n', m₁, m₂, f, hwithin.trans hwithin', hinside⟩
  | unfinished =>
    obtain ⟨n', m₁, hn, hwithin'⟩ := h
    exact ⟨n + n', m₁, by omega, hwithin.trans hwithin'⟩

theorem Goes.andThen {mid : Nat} {f : World κ → Ending κ}
    (h : Goes p limit pool first last fuel m mid x)
    (hrest : ∀ {w mem}, w.vars.Typed →
      Goes p limit pool first last fuel (m.onto w mid mem) exit (f w)) :
    Goes p limit pool first last fuel m exit (x.andThen f) := by
  cases x with
  | done w =>
    obtain ⟨htyped, n, mem, hkeeps, hwithin⟩ := h
    exact .after hwithin hkeeps (hrest htyped) (Nat.le_add_right _ _)
  | faulted w => exact h
  | unfinished => exact h

theorem Goes.stay (hindex : m.index = exit) (hvars : m.vars.Typed) :
    Goes p limit pool first last fuel m exit (.done m.world) := by
  refine ⟨hvars, 0, m.frame.temps, .refl _ _, ?_⟩
  rw [← hindex]
  exact .zero

theorem Goes.fault (hfirst : first ≤ m.index) (hlast : m.index < last) {f : Fault}
    {m' : Machine κ} (hstep : step p limit m = .faulted f m') {w : World κ}
    (hworld : m'.world = w) :
    Goes p limit pool first last fuel m exit (.faulted w) :=
  ⟨0, m, m', f, .zero, hfirst, hlast, hstep, hworld⟩

theorem Goes.step {w : World κ} {index : Int} (hfirst : first ≤ m.index) (hlast : m.index < last)
    (hstep : step p limit m = .next (m.onto w index m.frame.temps))
    (h : Goes p limit pool first last fuel (m.onto w index m.frame.temps) exit x) :
    Goes p limit pool first last (fuel + 1) m exit x :=
  .after (Within.step hfirst hlast hstep) (.refl _ _) h (Nat.le_refl _)

end Machine

section Actions

variable {κ : Type} [Console κ] {p : Program} {limit : Int} {m : Machine κ} {s : Scope}
  {base last fuel exit : Nat}

/-- Code whose operand the quadruple behind it uses. -/
theorem Piece.Runs.goes {b : Piece} {pool : TempPool} {value? : Option Value}
    {x : Value → Ending κ} (h : b.Runs p limit base pool m value?)
    (hlast : base + b.quads.length < last)
    (herror : ∀ {mem cause},
      load p (m.onto m.world (base + b.quads.length : Nat) mem) b.operand = .error cause →
      ∃ f, step p limit (m.onto m.world (base + b.quads.length : Nat) mem) =
        .faulted f (m.onto m.world (base + b.quads.length : Nat) mem))
    (hvalue : ∀ {v mem}, value? = some v →
      load p (m.onto m.world (base + b.quads.length : Nat) mem) b.operand = .ok v →
      Goes p limit pool base last fuel (m.onto m.world (base + b.quads.length : Nat) mem) exit
        (x v)) :
    Goes p limit pool base last fuel m exit
      (m.world.use value? x) := by
  obtain ⟨n, mem, hkeeps, hwithin, ⟨hlt, rfl, f, hfault⟩ | ⟨rfl, hload⟩⟩ := h
  · refine .after (w := m.world) (hwithin.mono (Int.le_refl _) (by omega)) hkeeps ?_
      (Nat.le_add_right fuel n)
    exact .fault (by simp only [onward]; omega) (by simp only [onward]; omega) hfault rfl
  · refine .after (w := m.world) (hwithin.mono (Int.le_refl _) (by omega)) hkeeps ?_
      (Nat.le_add_right fuel _)
    cases value? with
    | some v => exact hvalue rfl (ok_of_toOption hload)
    | none =>
      obtain ⟨cause, hcause⟩ := error_of_toOption hload
      obtain ⟨f, hfault⟩ := herror hcause
      exact .fault (by simp only [onto]; omega) (by simp only [onto]; omega) hfault rfl

omit [Console κ] in
theorem Tree.Makes.lineOf {tree : Tree} {temps : TempPool} {b : Piece} (h : tree.Makes s temps b) :
    lineOf p m b.operand = (load p m b.operand).map Value.text := by
  cases h with
  | @constant c v _ value => cases v <;> rfl
  | var declared => rfl
  | binary left right typed => rfl

theorem Machine.goes_write {pool : TempPool} {first : Nat} {operand : Operand} {line : String}
    (hquad : quad? p m.index = some { op := .write, result := operand })
    (hline : Machine.lineOf p m operand = .ok line) (hfirst : first ≤ m.index)
    (hlast : m.index < last) (hexit : m.index + 1 = exit) (hvars : m.vars.Typed) :
    Goes p limit pool first last fuel m exit (m.world.write line) := by
  cases hwrite : Console.writeLine line m.console with
  | mk result console =>
    have hconsole : Console.writeLine line m.world.console = (result, console) := hwrite
    simp only [World.write, hconsole]
    cases result with
    | ok _ =>
      have hstep : step p limit m =
          .next (m.onto { m.world with console } (m.index + 1) m.frame.temps) := by
        simp only [step, hquad, execute, hline, write, hwrite]
        rfl
      rw [hexit] at hstep
      exact (Goes.step hfirst hlast hstep (.stay rfl hvars)).mono id (Nat.le_refl _) (Nat.le_refl _)
        (Nat.le_succ _)
    | error reason =>
      have hstep : step p limit m =
          .faulted (faultAt p m.index (.writeFailed reason)) { m with console } := by
        simp only [step, hquad, execute, hline, write, hwrite]
        rfl
      exact .fault hfirst hlast hstep rfl

theorem Machine.goes_read {pool : TempPool} {first : Nat} (hs : s.Orderly) {name : String}
    {symbol : Symbol} (hsymbol : s.symbol? name = some symbol)
    (hquad : quad? p m.index = some
      { op := .read, result := .address symbol.address symbol.type })
    (hfirst : first ≤ m.index) (hlast : m.index < last) (hexit : m.index + 1 = exit)
    (hvars : m.vars.Typed) :
    Goes p limit pool first last fuel m exit (m.world.read s name) := by
  obtain ⟨segment, _, offset, hplace⟩ := hs.placed hsymbol
  simp only [World.read, hsymbol]
  cases hread : Console.readLine m.console with
  | mk result console =>
    have hconsole : Console.readLine m.world.console = (result, console) := hread
    rw [hconsole]
    cases result with
    | error reason =>
      have hstep : step p limit m =
          .faulted (faultAt p m.index (.readFailed reason)) { m with console } := by
        simp only [step, hquad, execute, read, Operand.target?, hplace, hread]
        rfl
      exact .fault hfirst hlast hstep rfl
    | ok line =>
      dsimp only
      cases hparsed : parseInput symbol.type (Text.trim line) with
      | error cause =>
        have hstep : step p limit m = .faulted (faultAt p m.index cause) { m with console } := by
          simp only [step, hquad, execute, read, Operand.target?, hplace, hread, hparsed]
          rfl
        exact .fault hfirst hlast hstep rfl
      | ok v =>
        have htype := parseInput_type (Address.place?_storable hplace) hparsed
        have hstore := store_variable (m := { m with console }) hs hsymbol v
        rw [Value.convert_self htype] at hstore
        have hstep : step p limit m = .next (m.onto
            { vars := m.vars.set symbol.address v, console } (m.index + 1) m.frame.temps) := by
          simp only [step, hquad, execute, read, Operand.target?, hplace, hread, hparsed,
            Except.bind, hstore]
          rfl
        rw [hexit] at hstep
        have htyped : (m.vars.set symbol.address v).Typed := by
          refine hvars.set ?_
          rintro place hplace'
          obtain rfl := Option.some.inj (hplace.symm.trans hplace')
          exact htype
        exact (Goes.step hfirst hlast hstep (.stay rfl htyped)).mono id (Nat.le_refl _)
          (Nat.le_refl _) (Nat.le_succ _)

theorem Program.Holds.index {xs ys : List Quad} {q : Quad} (h : p.Holds base (xs ++ q :: ys))
    {index : Int} (hindex : index = (base + xs.length : Nat)) : quad? p index = some q := by
  refine quad?_of_holds h (i := xs.length) ?_ (by omega)
  simp

theorem Program.Holds.first {q : Quad} {ys : List Quad} (h : p.Holds base (q :: ys)) {index : Int}
    (hindex : index = base) : quad? p index = some q :=
  quad?_of_holds h (i := 0) rfl (by omega)

theorem Program.Holds.after {xs ys : List Quad} {q : Quad} (h : p.Holds base (xs ++ q :: ys)) :
    p.Holds (base + xs.length + 1) ys := by
  rw [← List.singleton_append] at h
  exact h.append.2.append.2

theorem Machine.goes_assign {pool : TempPool} {first : Nat} (hs : s.Orderly) {name : String}
    {symbol : Symbol} (hsymbol : s.symbol? name = some symbol) {operand : Operand} {v : Value}
    (hquad : quad? p m.index = some
      { op := .assign, left := operand, result := .address symbol.address symbol.type })
    (hload : load p m operand = .ok v) (hfirst : first ≤ m.index) (hlast : m.index < last)
    (hexit : m.index + 1 = exit) (hvars : m.vars.Typed) :
    Goes p limit pool first last fuel m exit (m.world.assign s name v) := by
  obtain ⟨segment, _, offset, hplace⟩ := hs.placed hsymbol
  have hstep : step p limit m = .next (m.onto
      { m.world with vars := m.vars.set symbol.address (v.convert symbol.type) } (m.index + 1)
      m.frame.temps) := by
    simp only [step, hquad, execute, hload, Except.bind, store_variable hs hsymbol]
    rfl
  have htyped : (m.vars.set symbol.address (v.convert symbol.type)).Typed := by
    refine hvars.set ?_
    rintro place hplace'
    obtain rfl := Option.some.inj (hplace.symm.trans hplace')
    exact v.type_convert (Address.place?_storable hplace)
  rw [hexit] at hstep
  simp only [World.assign, hsymbol]
  exact (Goes.step hfirst hlast hstep (.stay rfl htyped)).mono id (Nat.le_refl _) (Nat.le_refl _)
    (Nat.le_succ _)

/-- A program that holds the code of statements from an index on, with the texts that it writes and
with room for its temporaries. -/
structure Program.Carries (p : Program) (base : Nat) (c : Code) : Prop where
  quads : p.Holds base c.quads
  strings : c.strings <+: p.strings
  room : c.temps.next ≤ Address.rangeSize

theorem Program.Carries.append {c d : Code} (h : p.Carries base (c.append d))
    (hleads : c.toStock.Leads d.toStock) :
    p.Carries base c ∧ p.Carries (base + c.quads.length) d := by
  obtain ⟨hfirst, hrest⟩ := Program.Holds.append h.quads
  exact ⟨⟨hfirst, hleads.strings.trans h.strings, Nat.le_trans hleads.next_le h.room⟩,
    hrest, h.strings, h.room⟩

theorem Machine.Goes.append {k : Stock} {c d : Code} {x : Ending κ} {f : World κ → Ending κ}
    (h : Goes p limit k.temps base (base + c.quads.length) fuel m (base + c.quads.length) x)
    (hleads : k.Leads c.toStock)
    (hrest : ∀ {w mem}, w.vars.Typed →
      Goes p limit c.temps (base + c.quads.length) (base + c.quads.length + d.quads.length) fuel
        (m.onto w (base + c.quads.length : Nat) mem) (base + c.quads.length + d.quads.length)
        (f w)) :
    Goes p limit k.temps base (base + (c.append d).quads.length) fuel m
      (base + (c.append d).quads.length) (x.andThen f) := by
  have hlength : base + (c.append d).quads.length =
      base + c.quads.length + d.quads.length := by
    simp [Code.append, Nat.add_assoc]
  rw [hlength]
  refine (h.mono id (Nat.le_refl _) (by omega) (Nat.le_refl _)).andThen fun hw => ?_
  exact (hrest hw).mono hleads.live.mpr (by omega) (Nat.le_refl _) (Nat.le_refl _)

theorem Action.Makes.goes {a : Action} {k : Stock} {c : Code} (h : a.Makes s k c) (hs : s.Orderly)
    (hk : k.temps.Orderly) (hcode : p.Carries base c) (hindex : m.index = base)
    (hvars : m.vars.Typed) :
    Goes p limit k.temps base (base + c.quads.length) fuel m (base + c.quads.length)
      (a.exec s m.world) := by
  cases h with
  | @assign name e _ symbol b declared value typed =>
    have hroom' : b.temps.next ≤ Address.rangeSize := by
      simpa only [Piece.stock, TempPool.next_without] using hcode.room
    have hruns := value.runs hs hk hroom' limit hcode.quads.append.1 hindex hvars
    have hquad : ∀ mem, quad? p (m.onto m.world (base + b.quads.length : Nat) mem).index = some
        { op := .assign, left := b.operand, result := .address symbol.address symbol.type } :=
      fun mem => hcode.quads.index rfl
    simp only [List.length_append, List.length_singleton]
    refine hruns.goes (by omega) ?_ ?_
    · intro mem cause hload
      simp only [step, hquad, execute, hload]
      exact ⟨_, rfl⟩
    · intro v mem hv hload
      exact goes_assign hs declared (hquad mem) hload (by simp only [onto]; omega)
        (by simp only [onto]; omega) (by simp only [onto]; omega) hvars
  | @value e _ b value typed =>
    have hroom' : b.temps.next ≤ Address.rangeSize := by
      simpa only [Piece.stock, TempPool.next_without] using hcode.room
    have hruns := value.runs hs hk hroom' limit hcode.quads.append.1 hindex hvars
    have hquad : ∀ mem, quad? p (m.onto m.world (base + b.quads.length : Nat) mem).index = some
        { op := .write, result := b.operand } :=
      fun mem => hcode.quads.index rfl
    simp only [List.length_append, List.length_singleton]
    refine hruns.goes (by omega) ?_ ?_
    · intro mem cause hload
      simp only [step, hquad, execute, value.lineOf, hload]
      exact ⟨_, rfl⟩
    · intro v mem hv hload
      refine goes_write (hquad mem) ?_ (by simp only [onto]; omega) (by simp only [onto]; omega)
        (by simp only [onto]; omega) hvars
      rw [value.lineOf, hload]
      rfl
  | @text q _ bytes unquoted =>
    obtain ⟨_, hget⟩ := Emitter.intern_spec k.strings bytes
    have hstring : p.string? (Emitter.intern k.strings bytes).1 = some bytes := by
      obtain ⟨later, hlater⟩ := hcode.strings
      have hlt := (List.getElem?_eq_some_iff.mp hget).1
      rw [Program.string?, if_pos (by omega), Int.toNat_natCast, ← hlater,
        List.getElem?_append_left hlt, hget]
    simp only [Action.exec, unquoted]
    refine goes_write (hcode.quads.first hindex) ?_ (by omega) ?_ ?_ hvars
    · simp only [lineOf, hstring]
    · simp only [List.length_singleton]
      omega
    · simp only [List.length_singleton]
      omega
  | @read name _ symbol declared =>
    refine goes_read hs declared (hcode.quads.first hindex) (by omega) ?_ ?_ hvars
    · simp only [List.length_singleton]
      omega
    · simp only [List.length_singleton]
      omega

theorem Action.MakesAll.goes {as : List Action} {k : Stock} {c : Code} (h : MakesAll s as k c)
    (hs : s.Orderly) (hk : k.temps.Orderly) (hcode : p.Carries base c) (hindex : m.index = base)
    (hvars : m.vars.Typed) :
    Goes p limit k.temps base (base + c.quads.length) fuel m (base + c.quads.length)
      (execAll s as m.world) := by
  induction h generalizing base m with
  | nil => exact .stay hindex hvars
  | @cons a as k c d first rest ih =>
    have hc := first.leads hk
    obtain ⟨hfirst, hrest⟩ := hcode.append (rest.leads hc.orderly)
    exact (first.goes hs hk hfirst hindex hvars).append hc fun hw => ih hc.orderly hrest rfl hw

/-! ### Jumps -/

theorem Program.Holds.size_le {quads : List Quad} (h : p.Holds base quads) (hne : quads ≠ []) :
    base + quads.length ≤ p.quads.size := by
  have hpos := List.length_pos_iff.mpr hne
  have hlast : quads[quads.length - 1]? = some (quads[quads.length - 1]) :=
    List.getElem?_eq_getElem (by omega)
  have hlt := (Array.getElem?_eq_some_iff.mp (h _ _ hlast)).1
  omega

omit [Console κ] in
theorem jumpTarget_of_le {target : Nat} (h : target ≤ p.quads.size) :
    jumpTarget p (.jump target) = .ok target := by
  rw [jumpTarget, if_pos (by omega)]

theorem Machine.goes_jump {pool : TempPool} {first target : Nat} {x : Ending κ}
    (hquad : quad? p m.index = some { op := .goto, result := .jump target })
    (htarget : target ≤ p.quads.size) (hfirst : first ≤ m.index) (hlast : m.index < last)
    (h : Goes p limit pool first last fuel (m.onto m.world target m.frame.temps) exit x) :
    Goes p limit pool first last fuel m exit x := by
  have hstep : step p limit m = .next (m.onto m.world target m.frame.temps) := by
    simp only [step, hquad, execute, jumpTarget_of_le htarget]
    rfl
  exact (Goes.step hfirst hlast hstep h).mono id (Nat.le_refl _) (Nat.le_refl _) (Nat.le_succ _)

/-- A test, and the jump that is made unless it holds. -/
theorem Tree.Makes.goes_test {tree : Tree} {temps : TempPool} {b : Piece} (h : tree.Makes s temps b)
    (hs : s.Orderly) (htemps : temps.Orderly) (hroom : b.temps.next ≤ Address.rangeSize)
    {target : Nat} {rest : List Quad}
    (hcode : p.Holds base
      (b.quads ++ { op := .gotoFalse, left := b.operand, result := .jump target } :: rest))
    (htarget : target ≤ p.quads.size) (hlast : base + b.quads.length < last)
    (hindex : m.index = base) (hvars : m.vars.Typed) {yes no : World κ → Ending κ}
    (hyes : ∀ {mem}, Goes p limit temps base last fuel
      (m.onto m.world (base + b.quads.length + 1 : Nat) mem) exit (yes m.world))
    (hno : ∀ {mem}, Goes p limit temps base last fuel (m.onto m.world target mem) exit
      (no m.world)) :
    Goes p limit temps base last (fuel + 1) m exit
      (m.world.branch (tree.eval (m.vars.value? s)) yes no) := by
  have hruns := h.runs hs htemps hroom limit hcode.append.1 hindex hvars
  have hquad : ∀ mem, quad? p (m.onto m.world (base + b.quads.length : Nat) mem).index = some
      { op := .gotoFalse, left := b.operand, result := .jump target } :=
    fun mem => hcode.index rfl
  refine hruns.goes hlast ?_ ?_
  · intro mem cause hload
    simp only [step, hquad, execute, hload]
    exact ⟨_, rfl⟩
  · intro v mem hv hload
    split
    · rename_i htrue
      refine Goes.step (w := m.world) (by simp only [onto]; omega) (by simp only [onto]; omega) ?_
        hyes
      simp only [step, hquad, execute, hload, htrue, if_true]
      rfl
    · rename_i hfalse
      refine Goes.step (w := m.world) (by simp only [onto]; omega) (by simp only [onto]; omega) ?_
        hno
      simp only [step, hquad, execute, hload, hfalse, jumpTarget_of_le htarget]
      rfl

end Actions

/-! ### Lists of statements -/

theorem Ending.andThen_done {κ : Type} (x : Ending κ) : x.andThen .done = x := by
  cases x <;> rfl

section Structures

variable {κ : Type} [Console κ] {p : Program} {limit : Int} {m : Machine κ} {s : Scope}
  {top fuel : Nat} {tree : Tree} {temps : TempPool} {b : Piece} {d f : Code}

theorem Tree.Makes.goes_ifThen (h : tree.Makes s temps b) (hs : s.Orderly) (htemps : temps.Orderly)
    (hroom : b.temps.next ≤ Address.rangeSize) (hcode : p.Holds top (Code.ifThen top b d).quads)
    (hindex : m.index = top) (hvars : m.vars.Typed) {body : World κ → Ending κ}
    (hbody : ∀ {mem}, Goes p limit temps (top + b.quads.length + 1)
      (top + b.quads.length + 1 + d.quads.length) fuel
      (m.onto m.world (top + b.quads.length + 1 : Nat) mem)
      (top + b.quads.length + 1 + d.quads.length) (body m.world)) :
    Goes p limit temps top (top + (Code.ifThen top b d).quads.length) fuel m
      (top + (Code.ifThen top b d).quads.length)
      (m.world.branch (tree.eval (m.vars.value? s)) body .done) := by
  have hlength : top + (Code.ifThen top b d).quads.length =
      top + b.quads.length + 1 + d.quads.length := by
    simp [Code.ifThen]
    omega
  have hsize := hcode.size_le (by simp [Code.ifThen])
  rw [hlength] at hsize ⊢
  refine (h.goes_test hs htemps hroom hcode (by omega) (by omega) hindex hvars ?_ ?_).mono id
    (Nat.le_refl _) (Nat.le_refl _) (Nat.le_succ _)
  · exact hbody.mono id (by omega) (Nat.le_refl _) (Nat.le_refl _)
  · exact .stay rfl hvars

theorem Tree.Makes.goes_ifElse (h : tree.Makes s temps b) (hs : s.Orderly) (htemps : temps.Orderly)
    (hroom : b.temps.next ≤ Address.rangeSize) (hcode : p.Holds top (Code.ifElse top b d f).quads)
    (hindex : m.index = top) (hvars : m.vars.Typed) {body other : World κ → Ending κ}
    (hbody : ∀ {mem}, Goes p limit temps (top + b.quads.length + 1)
      (top + b.quads.length + 1 + d.quads.length) fuel
      (m.onto m.world (top + b.quads.length + 1 : Nat) mem)
      (top + b.quads.length + 1 + d.quads.length) (body m.world))
    (hother : ∀ {mem}, Goes p limit temps (top + b.quads.length + 1 + d.quads.length + 1)
      (top + b.quads.length + 1 + d.quads.length + 1 + f.quads.length) fuel
      (m.onto m.world (top + b.quads.length + 1 + d.quads.length + 1 : Nat) mem)
      (top + b.quads.length + 1 + d.quads.length + 1 + f.quads.length) (other m.world)) :
    Goes p limit temps top (top + (Code.ifElse top b d f).quads.length) fuel m
      (top + (Code.ifElse top b d f).quads.length)
      (m.world.branch (tree.eval (m.vars.value? s)) body other) := by
  have hlength : top + (Code.ifElse top b d f).quads.length =
      top + b.quads.length + 1 + d.quads.length + 1 + f.quads.length := by
    simp [Code.ifElse]
    omega
  have hsize := hcode.size_le (by simp [Code.ifElse])
  rw [hlength] at hsize ⊢
  refine (h.goes_test hs htemps hroom hcode (by omega) (by omega) hindex hvars ?_ ?_).mono id
    (Nat.le_refl _) (Nat.le_refl _) (Nat.le_succ _)
  · -- The first branch ends with a jump over the second.
    intro mem
    have hquad := hcode.after.index rfl
    rw [← Ending.andThen_done (body m.world)]
    refine (hbody.mono id (by omega) (by omega) (Nat.le_refl _)).andThen fun hw => ?_
    exact goes_jump hquad hsize (by simp only [onto]; omega) (by simp only [onto]; omega)
      (.stay rfl hw)
  · exact hother.mono id (by omega) (Nat.le_refl _) (Nat.le_refl _)

theorem Tree.Makes.goes_loop (h : tree.Makes s temps b) (hs : s.Orderly) (htemps : temps.Orderly)
    (hroom : b.temps.next ≤ Address.rangeSize) (hcode : p.Holds top (Code.loop top b d).quads)
    {body : World κ → Ending κ}
    (hbody : ∀ {w mem}, w.vars.Typed → Goes p limit temps (top + b.quads.length + 1)
      (top + b.quads.length + 1 + d.quads.length) fuel
      (m.onto w (top + b.quads.length + 1 : Nat) mem)
      (top + b.quads.length + 1 + d.quads.length) (body w))
    {n : Nat} (hn : n ≤ fuel) {w : World κ} {mem : Memory} (hw : w.vars.Typed) :
    Goes p limit temps top (top + (Code.loop top b d).quads.length) n (m.onto w top mem)
      (top + (Code.loop top b d).quads.length)
      (w.iterate (fun w => tree.eval (w.vars.value? s)) body n) := by
  have hlength : top + (Code.loop top b d).quads.length =
      top + b.quads.length + 1 + d.quads.length + 1 := by
    simp [Code.loop]
    omega
  have hsize := hcode.size_le (by simp [Code.loop])
  rw [hlength] at hsize ⊢
  -- By induction on the number of rounds, since the body may change everything a test looks at.
  induction n generalizing w mem with
  | zero => exact ⟨0, _, Nat.le_refl _, .zero⟩
  | succ n ih =>
    refine h.goes_test (m := m.onto w top mem) hs htemps hroom hcode (by omega) (by omega) rfl hw
      ?_ (.stay rfl hw)
    intro mem'
    have hquad := hcode.after.index rfl
    refine ((hbody hw).mono id (by omega) (by omega) (by omega)).andThen fun hw' => ?_
    exact goes_jump hquad (by omega) (by simp only [onto]; omega)
      (by simp only [onto]; omega) (ih (by omega) hw')

end Structures

theorem Piece.room {b : Piece} {strings : List Bytes} {d : Code}
    (h : (b.stock strings).Leads d.toStock) (hroom : d.temps.next ≤ Address.rangeSize) :
    b.temps.next ≤ Address.rangeSize := by
  have hnext := h.next_le
  simp only [Piece.stock, TempPool.next_without] at hnext
  omega

/-- The code of a list of statements does what the statements do. -/
theorem Block.Makes.goes {κ : Type} [Console κ] {p : Program} {m : Machine κ} {s : Scope}
    {base : Nat} {block : Block} {k : Stock} {c : Code} (h : block.Makes s base k c) (limit : Int)
    (fuel : Nat) (hs : s.Orderly) (hk : k.temps.Orderly) (hcode : p.Carries base c)
    (hindex : m.index = base) (hvars : m.vars.Typed) :
    Goes p limit k.temps base (base + c.quads.length) fuel m (base + c.quads.length)
      (block.exec s fuel m.world) := by
  induction h generalizing m with
  | empty => exact .stay hindex hvars
  | @act before now base k c d earlier last ih =>
    have hc := earlier.leads hk
    obtain ⟨hfirst, hrest⟩ := hcode.append (last.leads hc.orderly)
    exact (ih hk hfirst hindex hvars).append hc fun hw => last.goes hs hc.orderly hrest rfl hw
  | @ifThen before body test base k c d b earlier isTest tested inner ihBefore ihBody =>
    have hc := earlier.leads hk
    have hb := tested.leads hc.orderly c.strings
    have hd := inner.leads hb.orderly
    obtain ⟨hfirst, hrest⟩ := hcode.append (hb.trans hd)
    refine (ihBefore hk hfirst hindex hvars).append hc fun {w mem} hw => ?_
    refine tested.goes_ifThen (m := m.onto w _ mem) hs hc.orderly (Piece.room hd hrest.room)
      hrest.quads rfl hw ?_
    exact .leads hb (ihBody hb.orderly ⟨hrest.quads.after, hrest.strings, hrest.room⟩ rfl hw)
  | @ifElse before body other test base k c d f b earlier isTest tested inner outer ihBefore ihBody
      ihOther =>
    have hc := earlier.leads hk
    have hb := tested.leads hc.orderly c.strings
    have hd := inner.leads hb.orderly
    have hf := outer.leads hd.orderly
    obtain ⟨hfirst, hrest⟩ := hcode.append (hb.trans (hd.trans hf))
    refine (ihBefore hk hfirst hindex hvars).append hc fun {w mem} hw => ?_
    refine tested.goes_ifElse (m := m.onto w _ mem) hs hc.orderly
      (Piece.room (hd.trans hf) hrest.room) hrest.quads rfl hw ?_ ?_
    · exact .leads hb (ihBody hb.orderly ⟨hrest.quads.after.append.1,
        hf.strings.trans hrest.strings, Nat.le_trans hf.next_le hrest.room⟩ rfl hw)
    · exact .leads (hb.trans hd)
        (ihOther hd.orderly ⟨hrest.quads.after.after, hrest.strings, hrest.room⟩ rfl hw)
  | @loop before body test base k c d b earlier isTest tested inner ihBefore ihBody =>
    have hc := earlier.leads hk
    have hb := tested.leads hc.orderly c.strings
    have hd := inner.leads hb.orderly
    obtain ⟨hfirst, hrest⟩ := hcode.append (hb.trans hd)
    refine (ihBefore hk hfirst hindex hvars).append hc fun {w mem} hw => ?_
    refine tested.goes_loop hs hc.orderly (Piece.room hd hrest.room) hrest.quads ?_
      (Nat.le_refl fuel) hw
    intro w mem hw
    exact .leads hb
      (ihBody hb.orderly ⟨hrest.quads.after.append.1, hrest.strings, hrest.room⟩ rfl hw)

/-! ### Endings of a machine -/

namespace Machine

variable {κ : Type} [Console κ] {p : Program} {limit : Int} {pool : TempPool}
  {first last n n' : Nat} {m m' m₁ : Machine κ}

/-- A machine runs code to its end: it steps through the code until it stands just behind it. -/
def Arrives (p : Program) (limit : Int) (first last : Nat) (m m' : Machine κ) : Prop :=
  ∃ n, Within p limit first last m n m' ∧ m'.index = last

/-- A machine steps through code until it stops with a fault in it. -/
def FaultsIn (p : Program) (limit : Int) (first last : Nat) (m m' : Machine κ) : Prop :=
  ∃ n m₁ f, Within p limit first last m n m₁ ∧ first ≤ m₁.index ∧ m₁.index < last ∧
    step p limit m₁ = .faulted f m'

theorem Within.le_of_index (h : Within p limit first last m n m')
    (hreach : Reaches p limit m n' m₁) (hindex : m₁.index = last) : n ≤ n' := by
  by_contra hlt
  have := h.inside (Nat.lt_of_not_le hlt) hreach
  omega

theorem Within.not_arrives (h : Within p limit first last m n m₁) (hinside : m₁.index < last)
    {f : Fault} {m₂ : Machine κ} (hfault : Machine.step p limit m₁ = .faulted f m₂) :
    ¬ Arrives p limit first last m m' := by
  rintro ⟨k, hwithin, hindex⟩
  have hle := h.reaches.of_fault hfault hwithin.reaches
  obtain rfl : n = k := Nat.le_antisymm (h.le_of_index hwithin.reaches hindex) hle
  obtain rfl := h.reaches.unique hwithin.reaches
  omega

theorem Goes.of_arrives {x : Ending κ} (hwithin : Within p limit first last m n m')
    (hindex : m'.index = last) (h : Goes p limit pool first last (n + 1) m last x) :
    x = .done m'.world ∧ m' = m.onto m'.world last m'.frame.temps ∧
      pool.Keeps m.frame.temps m'.frame.temps := by
  cases x with
  | done w =>
    obtain ⟨_, k, mem, hkeeps, hdone⟩ := h
    obtain rfl : n = k := Nat.le_antisymm (hwithin.le_of_index hdone.reaches rfl)
      (hdone.le_of_index hwithin.reaches hindex)
    obtain rfl := hwithin.reaches.unique hdone.reaches
    exact ⟨rfl, rfl, hkeeps⟩
  | faulted w =>
    obtain ⟨k, m₁, m₂, f, hbefore, _, hhigh, hfault, _⟩ := h
    exact absurd ⟨n, hwithin, hindex⟩ (hbefore.not_arrives hhigh hfault)
  | unfinished =>
    obtain ⟨k, m₁, hk, hlong⟩ := h
    have := hlong.le_of_index hwithin.reaches hindex
    omega

theorem Goes.of_fault {x : Ending κ} (hwithin : Within p limit first last m n m₁)
    (hinside : m₁.index < last) {f : Fault} (hfault : Machine.step p limit m₁ = .faulted f m')
    (h : Goes p limit pool first last (n + 1) m last x) : x = .faulted m'.world := by
  cases x with
  | done w =>
    obtain ⟨_, k, mem, _, hdone⟩ := h
    exact absurd ⟨k, hdone, rfl⟩ (hwithin.not_arrives hinside hfault)
  | faulted w =>
    obtain ⟨k, m₂, m₃, f', hbefore, _, _, hfault', rfl⟩ := h
    obtain rfl : n = k := Nat.le_antisymm (hbefore.reaches.of_fault hfault' hwithin.reaches)
      (hwithin.reaches.of_fault hfault hbefore.reaches)
    obtain rfl := hwithin.reaches.unique hbefore.reaches
    obtain ⟨_, rfl⟩ := Step.faulted.inj (hfault.symm.trans hfault')
    rfl
  | unfinished =>
    obtain ⟨k, m₂, hk, hlong⟩ := h
    have := hwithin.reaches.of_fault hfault hlong.reaches
    omega

variable {x : Nat → Ending κ} (h : ∀ fuel, Goes p limit pool first last fuel m last (x fuel))
include h

theorem arrives_iff {w : World κ} : (∃ fuel, x fuel = .done w) ↔
    ∃ m', Arrives p limit first last m m' ∧ m'.world = w := by
  constructor
  · rintro ⟨fuel, hx⟩
    have hgoes := h fuel
    rw [hx] at hgoes
    obtain ⟨_, n, mem, _, hwithin⟩ := hgoes
    exact ⟨_, ⟨n, hwithin, rfl⟩, rfl⟩
  · rintro ⟨m', ⟨n, hwithin, hindex⟩, rfl⟩
    exact ⟨n + 1, (h (n + 1)).of_arrives hwithin hindex |>.1⟩

theorem faultsIn_iff {w : World κ} : (∃ fuel, x fuel = .faulted w) ↔
    ∃ m', FaultsIn p limit first last m m' ∧ m'.world = w := by
  constructor
  · rintro ⟨fuel, hx⟩
    have hgoes := h fuel
    rw [hx] at hgoes
    obtain ⟨n, m₁, m₂, f, hwithin, hlow, hhigh, hfault, hworld⟩ := hgoes
    exact ⟨m₂, ⟨n, m₁, f, hwithin, hlow, hhigh, hfault⟩, hworld⟩
  · rintro ⟨m', ⟨n, m₁, f, hwithin, hlow, hhigh, hfault⟩, rfl⟩
    exact ⟨n + 1, (h (n + 1)).of_fault hwithin hhigh hfault⟩

theorem Arrives.keeps {m' : Machine κ} (harrives : Arrives p limit first last m m') :
    m' = m.onto m'.world last m'.frame.temps ∧ pool.Keeps m.frame.temps m'.frame.temps := by
  obtain ⟨n, hwithin, hindex⟩ := harrives
  exact ((h (n + 1)).of_arrives hwithin hindex).2

end Machine

end DuckLang
