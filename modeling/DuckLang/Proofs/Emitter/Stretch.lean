import DuckLang.Proofs.Emitter.Declaration
import DuckLang.Proofs.Emitter.Variables

/-! The code of one body.  While a body is read, its code grows behind the code that was there
before.  Its jumps stay in it, and its calls stand in it like brackets: each argument is one of the
call announced last, and what is announced and not yet run is what the emitter holds open. -/

namespace DuckLang

/-! ### Calls in the code -/

/-- What callers know of the function with a name: its parameters and what it gives back. -/
def Scope.signature? (s : Scope) (name : String) : Option (List Param × DataType) :=
  (s.entryOf? name).map fun entry => (entry.signature, entry.returns)

/-- Whether an operation may jump. -/
def Opcode.isJump : Opcode → Bool
  | .goto | .gotoFalse => true
  | _ => false

/-- Whether an operation neither takes part in a call nor gives a value back. -/
def Opcode.isPlain : Opcode → Bool
  | .announce | .param | .call | .giveBack => false
  | _ => true

namespace Emitter

/-- The names that callers know, with their signatures. -/
abbrev Signatures := String → Option (List Param × DataType)

/-- The calls that are announced before a quadruple and behind it, the last one first, where the
quadruple fits in with them.  A value is given back only where the body `returns` one. -/
inductive Stage (known : Signatures) (returns : Bool) : List String → Quad → List String → Prop
  | plain {calls : List String} {q : Quad} (op : q.op.isPlain = true) :
      Stage known returns calls q calls
  | giveBack {calls : List String} {q : Quad} (op : q.op = .giveBack) (value : returns = true) :
      Stage known returns calls q calls
  | announce {calls : List String} {q : Quad} {name : String} (op : q.op = .announce)
      (result : q.result = .function name) : Stage known returns calls q (name :: calls)
  | param {calls : List String} {q : Quad} {name : String} {params : List Param} {type : DataType}
      {param : Param} (op : q.op = .param) (signature : known name = some (params, type))
      (listed : param ∈ params) (result : q.result = .address param.address param.type) :
      Stage known returns (name :: calls) q (name :: calls)
  | call {calls : List String} {q : Quad} {name : String} (op : q.op = .call)
      (result : q.result = .empty ∨
        ∃ params type, known name = some (params, type) ∧ type ≠ .void) :
      Stage known returns (name :: calls) q calls

/-- The same for the quadruples of a list, one after the other. -/
def Staged (known : Signatures) (returns : Bool) (calls : List String) :
    List Quad → List String → Prop
  | [], calls' => calls' = calls
  | q :: quads, calls' =>
    ∃ mid, Stage known returns calls q mid ∧ Staged known returns mid quads calls'

section Staged

variable {known known' : Signatures} {returns : Bool} {calls mid calls' : List String} {q q' : Quad}
  {quads quads' : List Quad}

theorem Staged.append (h : Staged known returns calls quads mid)
    (h' : Staged known returns mid quads' calls') :
    Staged known returns calls (quads ++ quads') calls' := by
  induction quads generalizing calls with
  | nil =>
    obtain rfl := h
    exact h'
  | cons q quads ih =>
    obtain ⟨next, hq, hrest⟩ := h
    exact ⟨next, hq, ih hrest⟩

theorem Staged.snoc (h : Staged known returns calls quads mid)
    (hq : Stage known returns mid q calls') :
    Staged known returns calls (quads ++ [q]) calls' :=
  h.append ⟨calls', hq, rfl⟩

theorem Staged.set (h : Staged known returns calls quads calls') {i : Nat}
    (hq : quads[i]? = some q)
    (hfits : ∀ {calls calls'}, Stage known returns calls q calls' →
      Stage known returns calls q' calls') :
    Staged known returns calls (quads.set i q') calls' := by
  induction quads generalizing calls i with
  | nil => cases hq
  | cons first rest ih =>
    obtain ⟨next, hfirst, hrest⟩ := h
    cases i with
    | zero =>
      obtain rfl : first = q := Option.some.inj hq
      exact ⟨next, hfits hfirst, hrest⟩
    | succ i => exact ⟨next, hfirst, ih hrest hq⟩

theorem Stage.mono (h : Stage known returns calls q calls')
    (hknown : ∀ {name signature}, known name = some signature → known' name = some signature) :
    Stage known' returns calls q calls' := by
  cases h with
  | plain op => exact .plain op
  | giveBack op value => exact .giveBack op value
  | announce op result => exact .announce op result
  | param op signature listed result => exact .param op (hknown signature) listed result
  | call op result =>
    refine .call op (result.imp_right ?_)
    rintro ⟨params, type, hsignature, hvoid⟩
    exact ⟨params, type, hknown hsignature, hvoid⟩

theorem Staged.mono (h : Staged known returns calls quads calls')
    (hknown : ∀ {name signature}, known name = some signature → known' name = some signature) :
    Staged known' returns calls quads calls' := by
  induction quads generalizing calls with
  | nil => exact h
  | cons q quads ih =>
    obtain ⟨next, hq, hrest⟩ := h
    exact ⟨next, hq.mono hknown, ih hrest⟩

theorem Stage.patch (h : Stage known returns calls q calls') (hpending : q.result.isPending = true)
    (target : Int) : Stage known returns calls { q with result := .jump target } calls' := by
  have hresult := eq_pending hpending
  cases h with
  | plain op => exact .plain op
  | giveBack op value => exact .giveBack op value
  | announce op result => exact absurd (hresult.symm.trans result) (by simp)
  | param op signature listed result => exact absurd (hresult.symm.trans result) (by simp)
  | call op result => exact .call op (.inr (result.resolve_left (by simp [hresult])))

end Staged

/-! ### The code of a body -/

/-- An open construct whose jumps lie between two indices. -/
structure Control.Within (first last : Nat) (c : Control) : Prop where
  falseJump : ∀ i ∈ c.falseJump, first ≤ i
  exitJump : ∀ i, c.construct = .branch (some i) → first ≤ i
  top : ∀ top, c.construct = .loop top → first ≤ top ∧ top ≤ last

theorem Control.Within.mono {first last last' : Nat} {c : Control} (h : c.Within first last)
    (hle : last ≤ last') : c.Within first last' :=
  ⟨h.falseJump, h.exitJump, fun top htop =>
    ⟨(h.top top htop).1, Nat.le_trans (h.top top htop).2 hle⟩⟩

/-- Code whose jumps lead to itself, or right behind it. -/
def Jumps (front : Nat) (code : List Quad) : Prop :=
  ∀ q ∈ code, q.op.isJump = true → ∀ target, q.result = .jump target →
    front ≤ target ∧ target ≤ front + code.length

/-- An emitter that has the code of a body behind what was there before. -/
structure Stretch (front code : List Quad) (returns : Bool) (e : Emitter) : Prop where
  quads : e.quads.toList = front ++ code
  staged : Staged e.scope.signature? returns [] code (e.calls.map (·.function))
  jumps : Jumps front.length code
  controls : ∀ c ∈ e.controls, c.Within front.length (front.length + code.length)

variable {front code : List Quad} {returns : Bool} {e e' : Emitter} {q : Quad}

theorem Stretch.size (h : Stretch front code returns e) :
    e.quads.size = front.length + code.length := by
  rw [← Array.length_toList, h.quads, List.length_append]

theorem Stretch.push (h : Stretch front code returns e) (hquads : e'.quads = e.quads.push q)
    (hscope : e'.scope.signature? = e.scope.signature?)
    (hstage : Stage e.scope.signature? returns (e.calls.map (·.function)) q
      (e'.calls.map (·.function)))
    (hjump : q.op.isJump = true → ∀ target, q.result = .jump target →
      front.length ≤ target ∧ target ≤ front.length + code.length)
    (hcontrols : ∀ c ∈ e'.controls, c.Within front.length (front.length + code.length)) :
    Stretch front (code ++ [q]) returns e' where
  quads := by rw [hquads, Array.toList_push, h.quads, List.append_assoc]
  staged := by
    rw [hscope]
    exact h.staged.snoc hstage
  jumps := by
    intro q' hq' hop target htarget
    rw [List.length_append, List.length_singleton]
    rcases List.mem_append.mp hq' with hold | hnew
    · have := h.jumps q' hold hop target htarget
      omega
    · rw [List.mem_singleton.mp hnew] at hop htarget
      have := hjump hop target htarget
      omega
  controls c hc := (hcontrols c hc).mono (by simp)

theorem Stretch.patch (h : Stretch front code returns e) {i : Nat} (hi : front.length ≤ i)
    (hq : e.quads[i]? = some q) (hpending : q.result.isPending = true) :
    ∃ code', code'.length = code.length ∧
      Stretch front code' returns (e.patched i e.quads.size q) := by
  have hcode : code[i - front.length]? = some q := by
    rw [← List.getElem?_append_right hi, ← h.quads, Array.getElem?_toList]
    exact hq
  have hlength : (code.set (i - front.length)
      { q with result := .jump e.quads.size }).length = code.length := by simp
  refine ⟨_, hlength, ?_, ?_, ?_, ?_⟩
  · rw [patched, Array.set!_eq_setIfInBounds, Array.toList_setIfInBounds, h.quads,
      List.set_append_right _ _ hi]
  · exact h.staged.set hcode fun hfits => hfits.patch hpending _
  · intro q' hq' hop target htarget
    rw [hlength]
    rcases List.mem_or_eq_of_mem_set hq' with hold | rfl
    · exact h.jumps q' hold hop target htarget
    · obtain rfl := Operand.jump.inj htarget
      have := h.size
      omega
  · rw [hlength]
    exact h.controls

theorem Stretch.same (h : Stretch front code returns e) (hquads : e'.quads = e.quads)
    (hscope : e'.scope.signature? = e.scope.signature?) (hcalls : e'.calls = e.calls)
    (hcontrols : ∀ c ∈ e'.controls, c.Within front.length (front.length + code.length)) :
    Stretch front code returns e' :=
  ⟨hquads ▸ h.quads, by rw [hscope, hcalls]; exact h.staged, h.jumps, hcontrols⟩

/-! ### Operations within a body -/

/-- The operations within a body: all but those that open or close the program, a function or the
main body, and those that declare parameters. -/
def Command.isInner : Command → Bool
  | .initProgram _ | .beginFunction _ _ | .addParameter _ _ | .endFunction | .markMain | .finish =>
    false
  | _ => true

/-- How many constructs and how many calls more are open behind an operation. -/
def Command.opens : Command → Int × Int
  | .enterIf | .enterWhile => (1, 0)
  | .endIf | .endWhile => (-1, 0)
  | .beginCall _ => (0, 1)
  | .endCall => (0, -1)
  | _ => (0, 0)

/-- What an operation within a body leaves: the code of the body, and so many constructs and calls
more. -/
structure Inside (front : List Quad) (returns : Bool) (opens : Int × Int) (e e' : Emitter) :
    Prop where
  stretch : ∃ code, Stretch front code returns e'
  functions : e'.functions = e.functions
  body : e'.body = e.body
  leadingJump : e'.leadingJump = e.leadingJump
  signatures : e'.scope.signature? = e.scope.signature?
  controls : (e'.controls.length : Int) = e.controls.length + opens.1
  calls : (e'.calls.length : Int) = e.calls.length + opens.2

/-- An operation that stays within a body, if it succeeds. -/
def Stays {α : Type} (front : List Quad) (returns : Bool) (opens : Int × Int) (m : Emit α)
    (e : Emitter) : Prop :=
  Emit.Ensures m e (fun _ => True) fun _ e' => Inside front returns opens e e'

section Operations

variable {α : Type} {opens : Int × Int}

theorem Stretch.inside (h : Stretch front code returns e) (hquads : e'.quads = e.quads)
    (hscope : e'.scope.signature? = e.scope.signature?) (hcalls : e'.calls = e.calls)
    (hcontrols : e'.controls = e.controls) (hfunctions : e'.functions = e.functions)
    (hbody : e'.body = e.body) (hlead : e'.leadingJump = e.leadingJump) :
    Inside front returns (0, 0) e e' :=
  ⟨⟨code, h.same hquads hscope hcalls (by rw [hcontrols]; exact h.controls)⟩, hfunctions, hbody,
    hlead, hscope, by simp [hcontrols], by simp [hcalls]⟩

theorem Stretch.insidePush (h : Stretch front code returns e) (hquads : e'.quads = e.quads.push q)
    (hscope : e'.scope = e.scope) (hcalls : e'.calls = e.calls)
    (hcontrols : e'.controls = e.controls) (hfunctions : e'.functions = e.functions)
    (hbody : e'.body = e.body) (hlead : e'.leadingJump = e.leadingJump)
    (hstage : Stage e.scope.signature? returns (e.calls.map (·.function)) q
      (e.calls.map (·.function)))
    (hjump : q.op.isJump = false) :
    Inside front returns (0, 0) e e' := by
  refine ⟨⟨_, h.push hquads (by rw [hscope]) (by rw [hcalls]; exact hstage) ?_ ?_⟩, hfunctions,
    hbody, hlead, by rw [hscope], by simp [hcontrols], by simp [hcalls]⟩
  · exact fun hop => absurd hop (by simp [hjump])
  · rw [hcontrols]
    exact h.controls

theorem stays_pushVariable (h : Stretch front code returns e) (name : String) :
    Stays front returns (0, 0) (pushVariable name) e := by
  simp only [Stays, pushVariable, ensures_bind, ensures_lookup, ensures_pushOperand]
  split
  · exact h.inside rfl rfl rfl rfl rfl rfl rfl
  · trivial

theorem stays_pushString (h : Stretch front code returns e) (literal : String) :
    Stays front returns (0, 0) (pushString literal) e := by
  simp only [Stays, pushString]
  split
  · trivial
  · exact h.inside rfl rfl rfl rfl rfl rfl rfl

theorem stays_negateLiteral (h : Stretch front code returns e) :
    Stays front returns (0, 0) negateLiteral e := by
  simp only [Stays, negateLiteral, ensures_bind, ensures_popOperand]
  split
  · trivial
  · split
    · exact h.inside rfl rfl rfl rfl rfl rfl rfl
    · exact h.inside rfl rfl rfl rfl rfl rfl rfl
    · trivial

theorem stays_closeParen (h : Stretch front code returns e) :
    Stays front returns (0, 0) closeParen e := by
  simp only [Stays, closeParen, ensures_bind, ensures_get]
  split
  · exact h.inside rfl rfl rfl rfl rfl rfl rfl
  · trivial

theorem stays_generateBinary (h : Stretch front code returns e) {op : Operator} :
    Stays front returns (0, 0) (generateBinary op) e := by
  simp only [Stays, generateBinary, ensures_bind, ensures_popOperand, ensures_modify]
  split
  · trivial
  · split
    · trivial
    · split
      · trivial
      · simp only [ensures_bind, ensures_newTemp, ensures_emit, ensures_pushOperand,
          ensures_release]
        refine h.insidePush rfl rfl rfl rfl rfl rfl rfl (.plain ?_) ?_
        · cases op <;> rfl
        · cases op <;> rfl

theorem Inside.trans {e'' : Emitter} {first rest : Int × Int} (h : Inside front returns first e e')
    (h' : Inside front returns rest e' e'')
    (hsum : (first.1 + rest.1, first.2 + rest.2) = opens := by simp) :
    Inside front returns opens e e'' := by
  obtain rfl := hsum
  refine ⟨h'.stretch, h'.functions.trans h.functions, h'.body.trans h.body,
    h'.leadingJump.trans h.leadingJump, h'.signatures.trans h.signatures, ?_, ?_⟩
  · rw [h'.controls, h.controls, Int.add_assoc]
  · rw [h'.calls, h.calls, Int.add_assoc]

theorem Stays.bind {β : Type} {m : Emit α} {f : α → Emit β}
    (hm : Stays front returns (0, 0) m e)
    (hf : ∀ a e' code, Stretch front code returns e' → Stays front returns opens (f a) e') :
    Stays front returns opens (m >>= f) e := by
  rw [Stays, ensures_bind]
  refine Emit.Ensures.mono hm (fun _ hcause => hcause) fun a e' hinside => ?_
  obtain ⟨code', hstretch⟩ := hinside.stretch
  exact Emit.Ensures.mono (hf a e' code' hstretch) (fun _ hcause => hcause)
    fun b e'' hrest => hinside.trans hrest

theorem stays_pure (h : Stretch front code returns e) (a : α) :
    Stays front returns (0, 0) (pure a) e :=
  h.inside rfl rfl rfl rfl rfl rfl rfl

theorem stays_emitConditionJump (h : Stretch front code returns e) :
    Stays front returns (0, 0) emitConditionJump e := by
  simp only [Stays, emitConditionJump, topControl, setTopControl, ensures_bind, ensures_get]
  split
  · trivial
  · rename_i c controls hcontrols
    simp only [ensures_pure, ensures_popOperand]
    split
    · trivial
    · simp only [ensures_emit, ensures_modify, ensures_release]
      have hwithin := h.controls
      rw [hcontrols, List.forall_mem_cons] at hwithin
      refine ⟨⟨_, h.push rfl rfl (.plain rfl) (by simp) ?_⟩, rfl, rfl, rfl, rfl, ?_, by simp⟩
      · rw [hcontrols, List.tail_cons, List.forall_mem_cons]
        refine ⟨⟨?_, hwithin.1.exitJump, hwithin.1.top⟩, hwithin.2⟩
        intro i hi
        obtain rfl := Option.some.inj hi
        have := h.size
        omega
      · simp [hcontrols]

theorem stays_generateAmong (h : Stretch front code returns e) (ops : List ArithOp) :
    Stays front returns (0, 0) (generateAmong ops) e := by
  simp only [Stays, generateAmong, ensures_bind, ensures_get]
  split
  · split
    · exact stays_generateBinary h
    · exact stays_pure h ()
  · exact stays_pure h ()

theorem stays_generateRelational (h : Stretch front code returns e) :
    Stays front returns (0, 0) generateRelational e := by
  simp only [Stays, generateRelational, ensures_bind, ensures_get]
  split
  · refine Stays.bind (stays_generateBinary h) fun _ e' code' h' => ?_
    simp only [Stays, ensures_bind, ensures_get]
    split
    · exact stays_emitConditionJump h'
    · exact stays_pure h' ()
  · exact stays_pure h ()

/-! ### Statements -/

theorem stays_assign (h : Stretch front code returns e) (name : String) :
    Stays front returns (0, 0) (assign name) e := by
  simp only [Stays, assign, ensures_bind, ensures_lookup, ensures_popOperand]
  split
  · split
    · trivial
    · split
      · simp only [ensures_bind, ensures_emit, ensures_release]
        exact h.insidePush rfl rfl rfl rfl rfl rfl rfl (.plain rfl) rfl
      · trivial
  · trivial

theorem stays_write (h : Stretch front code returns e) : Stays front returns (0, 0) write e := by
  simp only [Stays, write, ensures_bind, ensures_popOperand]
  split
  · trivial
  · split
    · trivial
    · simp only [ensures_bind, ensures_emit, ensures_release]
      exact h.insidePush rfl rfl rfl rfl rfl rfl rfl (.plain rfl) rfl

theorem stays_read (h : Stretch front code returns e) (name : String) :
    Stays front returns (0, 0) (read name) e := by
  simp only [Stays, read, ensures_bind, ensures_lookup]
  split
  · simp only [ensures_emit, ensures_pure]
    exact h.insidePush rfl rfl rfl rfl rfl rfl rfl (.plain rfl) rfl
  · trivial

theorem stays_giveBack (h : Stretch front code returns e)
    (hreturns : ∀ b ∈ e.body, b.info.hasReturn = true → returns = true) :
    Stays front returns (0, 0) giveBack e := by
  simp only [Stays, giveBack, ensures_bind, ensures_get]
  split
  · trivial
  · rename_i info listed hbody
    split
    · trivial
    · rename_i hvalue
      simp only [ensures_popOperand, ensures_bind]
      split
      · trivial
      · split
        · simp only [ensures_bind, ensures_emit, ensures_release]
          refine h.insidePush rfl rfl rfl rfl rfl rfl rfl (.giveBack rfl ?_) rfl
          exact hreturns _ hbody (by simpa using hvalue)
        · trivial

theorem stays_discardResult (h : Stretch front code returns e) :
    Stays front returns (0, 0) discardResult e := by
  simp only [Stays, discardResult, ensures_bind, ensures_popOperand]
  split
  · trivial
  · simp only [ensures_release]
    exact h.inside rfl rfl rfl rfl rfl rfl rfl

/-! ### Constructs -/

theorem stays_openControl (h : Stretch front code returns e) {construct : Construct}
    (hwithin : ∀ isOpen depth, Control.Within front.length (front.length + code.length)
      { construct, isOpen, depth, falseJump := none }) :
    Stays front returns (1, 0) (openControl construct) e := by
  simp only [Stays, openControl, ensures_modify]
  refine ⟨⟨code, h.same rfl rfl rfl ?_⟩, rfl, rfl, rfl, rfl, by simp, by simp⟩
  exact List.forall_mem_cons.mpr ⟨hwithin _ _, h.controls⟩

theorem stays_enterIf (h : Stretch front code returns e) :
    Stays front returns (1, 0) enterIf e :=
  stays_openControl h fun _ _ => ⟨by simp, by simp, by simp⟩

theorem stays_enterWhile (h : Stretch front code returns e) :
    Stays front returns (1, 0) enterWhile e := by
  rw [Stays, enterWhile, ensures_bind, ensures_get]
  refine stays_openControl h fun _ _ => ⟨by simp, by simp, fun top htop => ?_⟩
  obtain rfl := Construct.loop.inj htop
  have := h.size
  omega

theorem stays_leaveHeader (h : Stretch front code returns e) :
    Stays front returns (0, 0) leaveHeader e := by
  simp only [Stays, leaveHeader, topControl, setTopControl, ensures_bind, ensures_get]
  split
  · trivial
  · rename_i c controls hcontrols
    simp only [ensures_pure, ensures_modify]
    have hwithin := h.controls
    rw [hcontrols, List.forall_mem_cons] at hwithin
    have hclosed : Inside front returns (0, 0) e
        { e with controls := { c with isOpen := false } :: e.controls.tail } := by
      refine ⟨⟨code, h.same rfl rfl rfl ?_⟩, rfl, rfl, rfl, rfl, by simp [hcontrols], by simp⟩
      rw [hcontrols, List.tail_cons, List.forall_mem_cons]
      exact ⟨⟨hwithin.1.falseJump, hwithin.1.exitJump, hwithin.1.top⟩, hwithin.2⟩
    obtain ⟨code', h'⟩ := hclosed.stretch
    split
    · simp only [ensures_bind, ensures_get]
      split
      · exact Emit.Ensures.mono (stays_emitConditionJump h') (fun _ hcause => hcause)
          fun _ e' hrest => hclosed.trans hrest
      · trivial
    · exact hclosed

theorem stays_backpatchHere (h : Stretch front code returns e) {jump : Option Nat}
    (hjump : ∀ i ∈ jump, front.length ≤ i) :
    Stays front returns (0, 0) (backpatchHere jump) e := by
  simp only [Stays, ensures_backpatchHere, ensures_backpatch]
  split
  · trivial
  · rename_i i
    split
    · trivial
    · rename_i q hq
      split
      · rename_i hpending
        obtain ⟨code', _, h'⟩ := h.patch (hjump i rfl) hq hpending
        exact ⟨⟨code', h'⟩, rfl, rfl, rfl, rfl, by simp [patched], by simp [patched]⟩
      · trivial

theorem stays_enterElse (h : Stretch front code returns e) :
    Stays front returns (0, 0) enterElse e := by
  simp only [Stays, enterElse, topControl, setTopControl, ensures_bind, ensures_get]
  split
  · trivial
  · rename_i c controls hcontrols
    simp only [ensures_pure]
    split
    · trivial
    · simp only [ensures_bind, ensures_emit, ensures_modify]
      have hwithin := h.controls
      rw [hcontrols, List.forall_mem_cons] at hwithin
      have hinside : Inside front returns (0, 0) e { e with
          quads := e.quads.push { op := .goto, result := .pending }
          controls := { c with construct := .branch (some e.quads.size) } :: e.controls.tail } := by
        refine ⟨⟨_, h.push rfl rfl (.plain rfl) (by simp) ?_⟩, rfl, rfl, rfl, rfl, ?_, by simp⟩
        · rw [hcontrols, List.tail_cons, List.forall_mem_cons]
          refine ⟨⟨hwithin.1.falseJump, fun i hi => ?_, by simp⟩, hwithin.2⟩
          obtain rfl := Option.some.inj (Construct.branch.inj hi)
          have := h.size
          omega
        · simp [hcontrols]
      obtain ⟨code', h'⟩ := hinside.stretch
      exact Emit.Ensures.mono (stays_backpatchHere h' hwithin.1.falseJump)
        (fun _ hcause => hcause) fun _ e' hrest => hinside.trans hrest

/-- The innermost construct, with its jumps in the body, is closed. -/
theorem stays_popControl {f : Control → Emit α} (h : Stretch front code returns e)
    (hf : ∀ c e', Stretch front code returns e' →
      c.Within front.length (front.length + code.length) → Stays front returns (0, 0) (f c) e') :
    Stays front returns (-1, 0) (popControl >>= f) e := by
  simp only [Stays, popControl, topControl, ensures_bind, ensures_get]
  split
  · trivial
  · rename_i c controls hcontrols
    simp only [ensures_pure, ensures_modify]
    have hwithin := h.controls
    rw [hcontrols, List.forall_mem_cons] at hwithin
    have hstretch : Stretch front code returns { e with controls := e.controls.tail } := by
      refine h.same rfl rfl rfl ?_
      rw [hcontrols]
      exact hwithin.2
    have hclosed : Inside front returns (-1, 0) e { e with controls := e.controls.tail } :=
      ⟨⟨code, hstretch⟩, rfl, rfl, rfl, rfl,
        by simp only [hcontrols, List.tail_cons, List.length_cons]; omega, by simp⟩
    exact Emit.Ensures.mono (hf c _ hstretch hwithin.1) (fun _ hcause => hcause)
      fun _ e' hrest => hclosed.trans hrest

theorem stays_endIf (h : Stretch front code returns e) : Stays front returns (-1, 0) endIf e := by
  refine stays_popControl h fun c e' h' hwithin => ?_
  split
  · trivial
  · rename_i exitJump hconstruct
    refine stays_backpatchHere h' fun i hi => ?_
    obtain rfl := Option.some.inj hi
    exact hwithin.exitJump _ hconstruct
  · exact stays_backpatchHere h' hwithin.falseJump

theorem stays_endWhile (h : Stretch front code returns e) :
    Stays front returns (-1, 0) endWhile e := by
  refine stays_popControl h fun c e' h' hwithin => ?_
  split
  · trivial
  · rename_i top hconstruct
    have htop := hwithin.top top hconstruct
    have hinside : Inside front returns (0, 0) e'
        { e' with quads := e'.quads.push { op := .goto, result := .jump top } } := by
      refine ⟨⟨_, h'.push rfl rfl (.plain rfl) ?_ h'.controls⟩, rfl, rfl, rfl, rfl, by simp,
        by simp⟩
      intro _ target htarget
      obtain rfl := Operand.jump.inj htarget
      omega
    obtain ⟨code', h''⟩ := hinside.stretch
    rw [Stays, ensures_bind, ensures_emit]
    exact Emit.Ensures.mono (stays_backpatchHere h'' hwithin.falseJump) (fun _ hcause => hcause)
      fun _ e'' hrest => hinside.trans hrest

/-! ### Calls -/

theorem stays_beginCall (h : Stretch front code returns e) (name : String) :
    Stays front returns (0, 1) (beginCall name) e := by
  simp only [Stays, beginCall, openParen, pushWaiting, ensures_bind, ensures_get, ensures_lift]
  split
  · simp only [ensures_emit, ensures_modify]
    exact ⟨⟨_, h.push rfl rfl (.announce rfl rfl) (by simp [Opcode.isJump]) h.controls⟩, rfl, rfl,
      rfl, rfl, by simp, by simp⟩
  · trivial

/-- The entry of a function that has a parameter or gives a value back is that of its scope. -/
theorem signature?_callee {c : Call} (h : e.callee c ≠ { name := c.function }) :
    e.scope.signature? c.function = some ((e.callee c).signature, (e.callee c).returns) := by
  simp only [callee, Scope.signature?] at h ⊢
  cases hentry : e.scope.entryOf? c.function with
  | none => simp [hentry] at h
  | some entry => rfl

theorem stays_argument (h : Stretch front code returns e) :
    Stays front returns (0, 0) argument e := by
  simp only [Stays, argument, ensures_bind, ensures_get]
  split
  · trivial
  · rename_i c calls hcalls
    simp only [ensures_bind, ensures_popOperand, ensures_get]
    split
    · trivial
    · rename_i top rest hoperands
      split
      · trivial
      · rename_i param hparam
        split
        · simp only [ensures_bind, ensures_emit, ensures_release, ensures_modify]
          -- the function is known, as the one that stands for an unknown name has no parameter
          have hsignature : e.scope.signature? c.function =
              some ((e.callee c).signature, (e.callee c).returns) := by
            refine signature?_callee fun hnone => ?_
            have hparam : (e.callee c).params[c.arguments]? = some param := hparam
            simp [hnone] at hparam
          refine ⟨⟨_, h.push rfl rfl ?_ (by simp [Opcode.isJump]) h.controls⟩, rfl, rfl, rfl, rfl,
            by simp, by simp [hcalls]⟩
          rw [hcalls]
          exact .param rfl hsignature (List.mem_map_of_mem (List.mem_of_getElem? hparam)) rfl
        · trivial

theorem stays_endCall (h : Stretch front code returns e) :
    Stays front returns (0, -1) endCall e := by
  simp only [Stays, endCall, ensures_bind, ensures_get]
  split
  · trivial
  · rename_i c calls hcalls
    simp only [ensures_bind, ensures_modify, ensures_get]
    split
    · trivial
    · simp only [closeParen, ensures_bind, ensures_get]
      split
      · simp only [ensures_set]
        split
        · simp only [ensures_bind, ensures_emit, ensures_pure]
          refine ⟨⟨_, h.push rfl rfl ?_ (by simp [Opcode.isJump]) h.controls⟩, rfl, rfl, rfl, rfl,
            by simp, by simp only [hcalls, List.length_cons]; omega⟩
          rw [hcalls]
          exact .call rfl (.inl rfl)
        · rename_i hvoid
          simp only [ensures_bind, ensures_newTemp, ensures_emit, ensures_pushOperand, ensures_pure]
          have hvoid : (e.callee c).returns ≠ .void := hvoid
          have hsignature := signature?_callee (e := e) (c := c) fun hnone => by
            rw [hnone] at hvoid
            exact hvoid rfl
          refine ⟨⟨_, h.push rfl rfl ?_ (by simp [Opcode.isJump]) h.controls⟩, rfl, rfl, rfl, rfl,
            by simp, by simp only [hcalls, List.length_cons]; omega⟩
          rw [hcalls]
          exact .call rfl (.inr ⟨_, _, hsignature, hvoid⟩)
      · trivial

/-! ### Declarations -/

theorem signature?_put {s : Scope} {entry entry' : Scope.Entry}
    (hentry : s.entryOf? entry'.name = some entry) (hparams : entry'.params = entry.params)
    (hreturns : entry'.returns = entry.returns) : (s.put entry').signature? = s.signature? := by
  funext name
  simp only [Scope.signature?, Scope.entryOf?_put]
  split
  · rename_i hname
    rw [hname, hentry]
    simp [Scope.Entry.signature, hparams, hreturns]
  · rfl

theorem stays_declareVariable (h : Stretch front code returns e) (name : String) :
    Stays front returns (0, 0) (declareVariable name) e := by
  simp only [Stays, declareVariable, ensures_bind, ensures_get, ensures_allocate,
    ensures_changeScope]
  split
  · split
    · rename_i scope hadded
      refine h.inside rfl ?_ rfl rfl rfl rfl rfl
      obtain ⟨_, entry, _, hentry, rfl⟩ := Scope.addVariable_ok hadded
      have hfound := Scope.entryOf?_current hentry
      exact signature?_put hfound rfl rfl
    · trivial
  · trivial

/-! ### All operations within a body -/

theorem stays_perform (h : Stretch front code returns e)
    (hreturns : ∀ b ∈ e.body, b.info.hasReturn = true → returns = true) {command : Command}
    (hinner : command.isInner = true) :
    Stays front returns command.opens (perform command) e := by
  cases command with
  | setType type =>
    simp only [Stays, perform, ensures_changeScope]
    exact h.inside rfl rfl rfl rfl rfl rfl rfl
  | declareVariable name => exact stays_declareVariable h name
  | assign name => exact stays_assign h name
  | write => exact stays_write h
  | read name => exact stays_read h name
  | pushVariable name => exact stays_pushVariable h name
  | pushLiteral v => exact h.inside rfl rfl rfl rfl rfl rfl rfl
  | pushString literal => exact stays_pushString h literal
  | negateLiteral => exact stays_negateLiteral h
  | pushOperator text => exact h.inside rfl rfl rfl rfl rfl rfl rfl
  | openParen => exact h.inside rfl rfl rfl rfl rfl rfl rfl
  | closeParen => exact stays_closeParen h
  | generateAdditive => exact stays_generateAmong h _
  | generateMultiplicative => exact stays_generateAmong h _
  | generateRelational => exact stays_generateRelational h
  | enterIf => exact stays_enterIf h
  | enterWhile => exact stays_enterWhile h
  | leaveHeader => exact stays_leaveHeader h
  | enterElse => exact stays_enterElse h
  | endIf => exact stays_endIf h
  | endWhile => exact stays_endWhile h
  | giveBack => exact stays_giveBack h hreturns
  | beginCall name => exact stays_beginCall h name
  | argument => exact stays_argument h
  | endCall =>
    simp only [Stays, perform, ensures_bind, ensures_pure]
    exact stays_endCall h
  | discardResult => exact stays_discardResult h
  | initProgram | beginFunction | addParameter | endFunction | markMain | finish => cases hinner

end Operations

end Emitter

end DuckLang
