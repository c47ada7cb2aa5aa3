import DuckLang.Machine

/-! Consoles seen through others.  A machine knows of its console only what it reads and whether
writing fails, so a console can be watched without changing the run.  What a run reads and writes is
what a console records that is put before its own. -/

namespace DuckLang

namespace Console

/-- A line that passes through a console. -/
inductive Exchange where
  | read (line : String)
  | written (line : String)
  deriving DecidableEq

/-- A console that keeps the lines that pass through another one, in their order. -/
structure Recorded (κ : Type) where
  console : κ
  lines : List Exchange := []

instance {κ : Type} [Console κ] : Console (Recorded κ) where
  readLine c :=
    match readLine c.console with
    | (.ok line, console) => (.ok line, { console, lines := c.lines ++ [.read line] })
    | (.error reason, console) => (.error reason, { c with console })
  writeLine line c :=
    match writeLine line c.console with
    | (.ok _, console) => (.ok (), { console, lines := c.lines ++ [.written line] })
    | (.error reason, console) => (.error reason, { c with console })

variable {κ κ' : Type} [Console κ] [Console κ']

/-- A console seen through another one, in a way that nobody who reads and writes can tell. -/
structure SeenAs (view : κ → κ') : Prop where
  readLine : ∀ c, readLine (view c) = ((readLine c).1, view (readLine c).2)
  writeLine : ∀ line c, writeLine line (view c) = ((writeLine line c).1, view (writeLine line c).2)

theorem recorded_seenAs : SeenAs (Recorded.console (κ := κ)) where
  readLine c := by
    simp only [Console.readLine]
    split <;> rename_i h <;> rw [h]
  writeLine line c := by
    simp only [Console.writeLine]
    split <;> rename_i h <;> rw [h]

end Console

namespace Machine

section View

variable {κ κ' : Type} (view : κ → κ')

/-- A machine with its console seen through another one. -/
def seen (m : Machine κ) : Machine κ' :=
  { globals := m.globals, frame := m.frame, index := m.index, callers := m.callers
    pending := m.pending, console := view m.console }

/-- What a step leads to, with the console seen through another one. -/
def Step.seen : Step κ → Step κ'
  | next m => next (m.seen view)
  | finished m => finished (m.seen view)
  | faulted f m => faulted f (m.seen view)

/-- How a run ends, with the console seen through another one. -/
def Outcome.seen : Outcome κ → Outcome κ'
  | finished m => finished (m.seen view)
  | faulted f m => faulted f (m.seen view)
  | unfinished m => unfinished (m.seen view)

variable {view} {p : Program} {m : Machine κ}

theorem load_seen (operand : Operand) : load p (m.seen view) operand = load p m operand := rfl

theorem lineOf_seen (operand : Operand) : lineOf p (m.seen view) operand = lineOf p m operand := rfl

theorem store_seen (operand : Operand) (v : Value) :
    store (m.seen view) operand v = (store m operand v).map (seen view) := by
  simp only [store]
  split
  · rfl
  · split
    · rfl
    · split <;> rfl

theorem continueWith_seen (result : Except Fault.Cause (Machine κ)) :
    continueWith p (m.seen view) (result.map (seen view)) =
      (continueWith p m result).seen view := by
  cases result <;> rfl

theorem deliver_seen (function : FunctionInfo) (q : Quad) (value : Option Value) :
    deliver (m.seen view) function q value = (deliver m function q value).map (seen view) := by
  simp only [deliver]
  split
  · split
    · rfl
    · exact store_seen _ _
  · split
    · rfl
    · split <;> rfl

theorem leave_seen (value : Option Value) :
    leave p (m.seen view) value = (leave p m value).seen view := by
  simp only [leave, show (m.seen view).callers = m.callers from rfl]
  split
  · rfl
  · split
    · rfl
    · rw [← continueWith_seen, ← deliver_seen]
      rfl

theorem param_seen (q : Quad) : param p (m.seen view) q = (param p m q).map (seen view) := by
  simp only [param, load_seen, show (m.seen view).pending = m.pending from rfl]
  split
  · rfl
  · split
    · rfl
    · split
      · rfl
      · split <;> rfl

theorem call_seen (limit : Int) (q : Quad) :
    call limit (m.seen view) q = (call limit m q).map (seen view) := by
  simp only [call, show (m.seen view).pending = m.pending from rfl,
    show (m.seen view).callers = m.callers from rfl]
  split
  · rfl
  · split
    · rfl
    · split <;> rfl

variable [Console κ] [Console κ']

theorem read_seen (hview : Console.SeenAs view) (operand : Operand) :
    read (m.seen view) operand = ((read m operand).1, (read m operand).2.seen view) := by
  simp only [read, show (m.seen view).console = view m.console from rfl, hview.readLine]
  split
  · rfl
  · rename_i address _
    split
    · rfl
    · rename_i place _
      obtain ⟨result, console⟩ := Console.readLine m.console
      cases result with
      | error reason => rfl
      | ok line =>
        have hbind : (parseInput place.type (Text.trim line)).bind
              (store (seen view { m with console }) operand) =
            ((parseInput place.type (Text.trim line)).bind (store { m with console } operand)).map
              (seen view) := by
          cases parseInput place.type (Text.trim line) with
          | error cause => rfl
          | ok v => exact store_seen operand v
        simp only [seen] at hbind ⊢
        rw [hbind]
        cases (parseInput place.type (Text.trim line)).bind (store { m with console } operand) <;>
          rfl

theorem write_seen (hview : Console.SeenAs view) (line : String) :
    write (m.seen view) line = ((write m line).1, (write m line).2.seen view) := by
  simp only [write, show (m.seen view).console = view m.console from rfl, hview.writeLine]
  rfl

theorem execute_seen (hview : Console.SeenAs view) (limit : Int) (q : Quad) :
    execute p limit (m.seen view) q = (execute p limit m q).seen view := by
  cases hop : q.op with
  | arith op =>
    simp only [execute, hop, load_seen, ← continueWith_seen]
    congr 1
    cases load p m q.left with
    | error cause => rfl
    | ok l =>
      cases load p m q.right with
      | error cause => rfl
      | ok r =>
        cases hv : arith op l r with
        | error cause => simp [bind, Except.bind, hv, Except.map]
        | ok v => simpa [bind, Except.bind, hv] using store_seen q.result v
  | rel op =>
    simp only [execute, hop, load_seen, ← continueWith_seen]
    congr 1
    cases load p m q.left with
    | error cause => rfl
    | ok l =>
      cases load p m q.right with
      | error cause => rfl
      | ok r => exact store_seen _ _
  | assign =>
    simp only [execute, hop, load_seen, ← continueWith_seen]
    congr 1
    cases load p m q.left with
    | error cause => rfl
    | ok v => exact store_seen _ _
  | goto =>
    simp only [execute, hop]
    split <;> rfl
  | gotoFalse =>
    simp only [execute, hop, load_seen]
    split
    · rfl
    · split
      · rfl
      · split <;> rfl
  | write =>
    simp only [execute, hop, lineOf_seen, write_seen hview]
    split
    · rfl
    · rename_i line _
      obtain ⟨result, m'⟩ := write m line
      cases result <;> rfl
  | read =>
    simp only [execute, hop, read_seen hview]
    obtain ⟨result, m'⟩ := read m q.result
    cases result <;> rfl
  | announce =>
    simp only [execute, hop, announce, ← continueWith_seen]
    split <;> rfl
  | param => simp only [execute, hop, param_seen, ← continueWith_seen]
  | call =>
    simp only [execute, hop, call_seen]
    cases call limit m q <;> rfl
  | giveBack =>
    simp only [execute, hop, load_seen]
    split
    · exact leave_seen _
    · rfl
  | endFunction => simp only [execute, hop, leave_seen]
  | halt => simp only [execute, hop, Step.seen]
  | unknown code =>
    simp only [execute, hop]
    rfl

theorem step_seen (hview : Console.SeenAs view) (limit : Int) :
    step p limit (m.seen view) = (step p limit m).seen view := by
  simp only [step, show (m.seen view).index = m.index from rfl]
  split
  · exact leave_seen none
  · exact execute_seen hview limit _

/-- A run is the same through another console. -/
theorem run_seen (hview : Console.SeenAs view) (limit : Int) (fuel : Nat) :
    run p limit fuel (m.seen view) = (run p limit fuel m).seen view := by
  induction fuel generalizing m with
  | zero => rfl
  | succ fuel ih =>
    simp only [run, step_seen hview]
    cases step p limit m with
    | next m' => exact ih
    | finished m' => rfl
    | faulted f m' => rfl

end View

variable {κ : Type}

theorem Outcome.fault?_seen {κ' : Type} (view : κ → κ') (outcome : Outcome κ) :
    (outcome.seen view).fault? = outcome.fault? := by
  cases outcome <;> rfl

variable [Console κ]

/-- The lines that a run reads and writes, in their order. -/
def linesOf (p : Program) (limit : Int) (fuel : Nat) (globals : Memory) (console : κ) :
    List Console.Exchange :=
  (run p limit fuel (start p globals ({ console } : Console.Recorded κ))).machine.console.lines

/-- A run is the same whether its lines are recorded or not. -/
theorem run_recorded (p : Program) (limit : Int) (fuel : Nat) (globals : Memory) (console : κ) :
    (run p limit fuel (start p globals ({ console } : Console.Recorded κ))).seen
      Console.Recorded.console = run p limit fuel (start p globals console) :=
  (run_seen Console.recorded_seenAs limit fuel).symm

end Machine

end DuckLang
