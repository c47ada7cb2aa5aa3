import DuckLang.Proofs.Emitter.Call
import DuckLang.Proofs.Emitter.Declaration

/-! Functions and the main body.  Between functions the code is sealed: nothing leads behind it, so
what comes next may be the body of any function.  Only the jump over the functions waits there, and
the main body, which comes last, is where it leads to. -/

namespace DuckLang

open Emitter

namespace Emitter

variable {e e' : Emitter} {past : List Point}

theorem AtStatement.of_stacks (h : AtStatement e) (hstacks : e'.allStacks = e.allStacks) :
    AtStatement e' := by
  have hoperands : e'.operands = e.operands := congrArg Stacks.operands hstacks
  have hoperators : e'.operators = e.operators := congrArg Stacks.operators hstacks
  have hcontrols : e'.controls = e.controls := congrArg Stacks.controls hstacks
  have hcalls : e'.calls = e.calls := congrArg Stacks.calls hstacks
  exact ⟨hoperands.trans h.operands, hoperators.trans h.operators, hcalls.trans h.calls,
    by rw [hcontrols]; exact h.closed⟩

/-- Outside of functions, before the main body. -/
structure Global (e : Emitter) : Prop where
  rest : AtStatement e
  controls : e.controls = []
  body : e.body = none
  unmarked : e.functions.get? mainName = none
  closed : Sealed e.quads
  starts : ∀ {name : String} {info : FunctionInfo}, e.scope.Callable name →
    e.functions.get? name = some info → info.entry < e.quads.size

/-- In a function, outside of its constructs. -/
structure InFunction (e : Emitter) : Prop where
  rest : AtStatement e
  controls : e.controls = []
  body : e.body.isSome
  unmarked : e.functions.get? mainName = none

/-- In the main body, outside of its constructs. -/
structure InMain (e : Emitter) : Prop where
  rest : AtStatement e
  controls : e.controls = []
  marked : (e.functions.get? mainName).isSome

theorem Global.context (h : Global e) : e.context = mainName := by
  simp [Emitter.context, h.body]

theorem Global.point (h : Global e) : e.point = .resting mainName := by
  rw [h.rest.point, h.context]

/-- The jump over the functions is emitted in front of the first of them. -/
theorem Valid.leap (h : Valid e past) (hglobal : Global e) (hnone : e.leadingJump = none) :
    Valid { e with
      quads := e.quads.push { op := .goto, result := .pending }
      leadingJump := some e.quads.size } (past ++ [e.point]) := by
  refine ⟨?_, ?_, h.pool, h.held, ?_, ?_, ?_⟩
  · refine h.names.keep fun k function hk => ?_
    rw [List.getElem?_append_left (List.getElem?_eq_some_iff.mp hk).1, hk]
  · exact h.laid.push ⟨rfl, rfl⟩ ⟨hglobal.rest.calls, trivial⟩ (h.laid.calls e.point (by simp))
  · refine h.owed.pushWaiting rfl ?_
    simp [Emitter.owed, leading, hglobal.unmarked, hnone]
  · rw [show Emitter.controls { e with .. } = [] from hglobal.controls]
    exact .nil _ _
  · intro i hi
    obtain rfl : e.quads.size = i := by simpa [leading, hglobal.unmarked] using hi
    refine ⟨e.point, ?_, by rw [hglobal.point]; rfl⟩
    rw [← h.length, List.getElem?_append_left (by simp), last_point]

/-- Behind the jump over the functions the code is sealed. -/
theorem Global.leap (h : Global e) :
    Global { e with
      quads := e.quads.push { op := .goto, result := .pending }
      leadingJump := some e.quads.size } where
  rest := ⟨h.rest.operands, h.rest.operators, h.rest.calls, h.rest.closed⟩
  controls := h.controls
  body := h.body
  unmarked := h.unmarked
  closed := by
    refine ⟨fun hback => ?_, fun hq hjump => ?_⟩
    · rw [Array.back?_push] at hback
      exact .inl (congrArg Quad.op (Option.some.inj hback).symm)
    · rw [Array.getElem?_push] at hq
      split at hq
      · obtain rfl := Option.some.inj hq
        cases hjump
      · exact Nat.lt_trans (h.closed.jumps hq hjump) (by simp)
  starts := by
    intro name info hcallable hinfo
    have := h.starts hcallable hinfo
    simp only [Array.size_push]
    omega

/-- An emitter at the start of a new function. -/
def opened (e : Emitter) (name : String) (returns : DataType) : Emitter :=
  let info : FunctionInfo := { name, entry := e.quads.size, returns }
  { e with
    scope := { e.scope with
      entries := e.scope.entries ++ [{ name, returns }], current := name }
    allocator := e.allocator.resetLocals
    body := some { info, isListed := true }
    functions := e.functions.set name info }

theorem Global.opened_point (h : Global e) (name : String) (returns : DataType) :
    (e.opened name returns).point = .resting name := by
  simp only [Emitter.point, opened, h.rest.operands, h.rest.calls]
  rfl

theorem sameParams_opened {name other : String} {returns : DataType}
    (hfree : e.scope.entryOf? name = none) :
    (e.opened name returns).scope.SameParams e.scope other := by
  intro entry entry' hentry hentry'
  have hother : Scope.entryOf? (e.opened name returns).scope other = _ :=
    @Scope.entryOf?_append e.scope { name, returns } other hfree
  rw [hother, if_neg, hentry] at hentry'
  · rw [Option.some.inj hentry']
  · rintro rfl
    rw [hfree] at hentry
    cases hentry

/-- Behind sealed code a new function may be opened. -/
theorem Valid.opened (h : Valid e past) (hglobal : Global e) {name : String} {returns : DataType}
    (hfree : e.scope.entryOf? name = none) (hprogram : name ≠ e.scope.program)
    (hmain : name ≠ mainName) (hreturns : returns = .void ∨ returns.isStorable = true) :
    Valid (e.opened name returns) past := by
  have hpoint := hglobal.opened_point name returns
  have hlength := h.length
  have hextends : (e.opened name returns).scope.Extends e.scope :=
    @Scope.extends_begin e.scope { name, returns } name hfree
  have hunlisted : leading (e.opened name returns).functions e.leadingJump =
      leading e.functions e.leadingJump := by
    simp only [leading, Emitter.opened, Directory.get?_set, if_neg (Ne.symm hmain)]
  refine ⟨?_, ?_, h.pool, ?_, ?_, ?_, ?_⟩
  · rw [hpoint]
    have hnames := h.names
    rw [hglobal.body] at hnames
    refine hnames.begin hfree hprogram hmain hreturns ?_ hglobal.unmarked ?_
    · rw [← hlength, last_point]
    · intro other info hcallable hinfo k hk
      have hlt := hglobal.starts hcallable hinfo
      rw [List.getElem?_append_left (by omega), List.getElem?_append_left (by omega)]
  · rw [hpoint]
    have hlaid : Laid (e.opened name returns).env e.quads (past ++ [e.point]) := by
      refine h.laid.extend ⟨hextends, Nat.le_refl _, Nat.le_refl _⟩ fun P hP c hc => ?_
      exact sameParams_opened hfree
    refine hlaid.reopen hglobal.closed fun c hc => ?_
    cases hc
  · intro o ho
    rw [show (e.opened name returns).operands = [] from hglobal.rest.operands] at ho
    cases ho
  · have howed := h.owed
    rw [Emitter.owed, ← hunlisted] at howed
    exact howed
  · rw [show (e.opened name returns).controls = [] from hglobal.controls]
    exact .nil _ _
  · rw [show leading (e.opened name returns).functions (e.opened name returns).leadingJump = _ from
      hunlisted]
    intro i hi
    obtain ⟨P, hP, hfunction⟩ := h.leads i hi
    have hwaits := (h.owed.waits i).mp (by simp [Emitter.owed, Option.mem_def.mp hi])
    have hlt := hwaits.lt
    rw [List.getElem?_append_left (by omega)] at hP
    exact ⟨P, by rw [List.getElem?_append_left (by omega), hP], hfunction⟩

/-- An emitter at the start of the main body. -/
def marked (e : Emitter) (quads : Array Quad) : Emitter :=
  { e with
    quads
    functions := e.functions.set mainName { name := mainName, entry := quads.size }
    body := none }

theorem Global.marked (h : Global e) (quads : Array Quad) : InMain (e.marked quads) where
  rest := h.rest.of_stacks rfl
  controls := h.controls
  marked := by simp [Emitter.marked, Directory.get?_set]

/-- Where no jump waits, the main body may start. -/
theorem Valid.marked (h : Valid e past) (hglobal : Global e) {quads : Array Quad}
    (hsize : quads.size = e.quads.size) (hlaid : Laid e.env quads (past ++ [e.point]))
    (howed : Owed quads []) : Valid (e.marked quads) past := by
  have hpoint : (e.marked quads).point = e.point := by
    simp only [Emitter.point, Emitter.context, Emitter.marked, hglobal.body]
  have hleading : leading (e.marked quads).functions e.leadingJump = none := by
    simp [leading, Emitter.marked, Directory.get?_set]
  have hcontrols : (e.marked quads).controls = [] := hglobal.controls
  refine ⟨?_, ?_, h.pool, ?_, ?_, ?_, ?_⟩
  · rw [hpoint]
    have hnames := h.names
    rw [hglobal.body] at hnames
    refine hnames.markMain ?_
    rw [hsize, ← h.length, last_point, hglobal.point]
  · rw [hpoint]
    exact hlaid
  · rw [show (e.marked quads).operands = [] from hglobal.rest.operands]
    simp
  · rw [Emitter.owed, show (e.marked quads).leadingJump = e.leadingJump from rfl, hleading,
      hcontrols]
    exact howed
  · rw [hcontrols]
    exact .nil _ _
  · rw [show (e.marked quads).leadingJump = e.leadingJump from rfl, hleading]
    simp

end Emitter

namespace Draft

variable {γ : Draft}

/-- A draft at the start of a function, which no call in the code names yet. -/
structure Opened (γ : Draft) : Prop where
  valid : γ.Valid
  inside : InFunction γ.emitter
  fresh : ∀ P ∈ γ.past ++ [γ.emitter.point], ∀ c ∈ P.calls, c.function ≠ γ.emitter.context

theorem Declares.isGlobal {γ' : Draft} (h : Declares γ γ') (hglobal : Global γ.emitter) :
    Global γ'.emitter where
  rest := hglobal.rest.of_stacks h.allStacks
  controls := (congrArg Stacks.controls h.allStacks).trans hglobal.controls
  body := h.body.trans hglobal.body
  unmarked := by rw [h.functions, hglobal.unmarked]
  closed := by rw [h.quads]; exact hglobal.closed
  starts := by
    intro name info hcallable hinfo
    rw [h.functions] at hinfo
    rw [h.quads]
    exact hglobal.starts (h.callable hcallable) hinfo

theorem Declares.inFunction {γ' : Draft} (h : Declares γ γ') (hinside : InFunction γ.emitter) :
    InFunction γ'.emitter where
  rest := hinside.rest.of_stacks h.allStacks
  controls := (congrArg Stacks.controls h.allStacks).trans hinside.controls
  body := by rw [h.body]; exact hinside.body
  unmarked := by rw [h.functions, hinside.unmarked]

theorem Does.inFunction {γ' : Draft} (h : Does γ γ' γ.allStacks) (hinside : InFunction γ.emitter) :
    InFunction γ'.emitter where
  rest := hinside.rest.of_stacks h.allStacks
  controls := h.controls.trans hinside.controls
  body := by rw [h.alike.body]; exact hinside.body
  unmarked := by rw [h.alike.functions, hinside.unmarked]

theorem Does.inMain {γ' : Draft} (h : Does γ γ' γ.allStacks) (hmain : InMain γ.emitter) :
    InMain γ'.emitter where
  rest := hmain.rest.of_stacks h.allStacks
  controls := h.controls.trans hmain.controls
  marked := by rw [h.alike.functions]; exact hmain.marked

/-- A new function opened behind sealed code. -/
theorem Valid.opened (h : γ.Valid) (hglobal : Global γ.emitter) {name : String}
    {returns : DataType} (hfree : γ.emitter.scope.entryOf? name = none)
    (hprogram : name ≠ γ.emitter.scope.program) (hmain : name ≠ mainName)
    (hreturns : returns = .void ∨ returns.isStorable = true) :
    Opened ⟨γ.emitter.opened name returns, γ.past⟩ := by
  refine ⟨Emitter.Valid.opened h hglobal hfree hprogram hmain hreturns, ?_, ?_⟩
  · refine ⟨?_, hglobal.controls, rfl, ?_⟩
    · exact hglobal.rest.of_stacks rfl
    · simp only [Emitter.opened, Directory.get?_set, if_neg (Ne.symm hmain), hglobal.unmarked]
  · rw [hglobal.opened_point]
    intro P hP c hc hname
    obtain rfl : c.function = name := hname
    rcases List.mem_append.mp hP with hP | hP
    · have hcallable := h.laid.calls P (by simp [hP]) c hc
      simp [Emitter.env, Scope.Callable, hfree] at hcallable
    · rw [List.mem_singleton.mp hP] at hc
      cases hc

theorem Valid.beginFunction (h : γ.Valid) (hglobal : Global γ.emitter) {name : String}
    {returns : DataType} (hmain : name ≠ mainName)
    (hreturns : returns = .void ∨ returns.isStorable = true) :
    Takes (beginFunction name returns) γ fun _ γ' => Opened γ' := by
  obtain ⟨e, past⟩ := γ
  simp only [Takes, Emitter.beginFunction, ensures_bind, ensures_changeScope,
    Scope.beginFunction, if_neg h.names.named]
  by_cases hprogram : name = e.scope.program
  · simp only [if_pos hprogram]
    rfl
  · simp only [if_neg hprogram]
    cases hfree : e.scope.entryOf? name with
    | some entry =>
      simp only [Option.isSome_some, if_true]
      rfl
    | none =>
      simp only [Option.isSome_none, Bool.false_eq_true, if_false, ensures_get]
      cases hjump : e.leadingJump with
      | none =>
        simp only [Option.isNone_none, if_true, ensures_bind, ensures_emit, ensures_modify]
        have hleap := Emitter.Valid.leap h hglobal hjump
        exact ⟨_, rfl, Valid.opened (γ := ⟨_, _⟩) hleap hglobal.leap hfree hprogram hmain hreturns⟩
      | some j =>
        simp only [Option.isNone_some, Bool.false_eq_true, if_false, ensures_modify]
        have hopened := h.opened hglobal hfree hprogram hmain hreturns
        simp only [Emitter.opened, hjump] at hopened
        exact ⟨_, rfl, hopened⟩

/-- A parameter more of a function that no call names yet. -/
theorem Opened.addParameter (h : Opened γ) (name : String) {type : DataType}
    (htype : type.isStorable = true) :
    Takes (addParameter name type) γ fun _ γ' => Opened γ' := by
  obtain ⟨e, past⟩ := γ
  obtain ⟨hvalid, hinside, hfresh⟩ := h
  obtain ⟨b, hb⟩ := Option.isSome_iff_exists.mp hinside.body
  dsimp only at hb
  have hnames := hvalid.names
  dsimp only at hnames
  rw [hb] at hnames
  obtain ⟨hlisted, _, hcallable, hprogram⟩ := hnames.body b rfl
  obtain ⟨entry, hentry⟩ := hnames.currentEntry
  have hcontext : e.context = b.info.name := by simp [Emitter.context, hb]
  have hcurrent : e.scope.current = b.info.name := hnames.current
  have hglobal : e.scope.inGlobal = false := by simp [Scope.inGlobal, hcurrent, hprogram]
  have hmain : b.info.name ≠ mainName := by
    intro hmain
    simp [hmain, hnames.reserved] at hcallable
  simp only [Takes, Emitter.addParameter, ensures_bind, ensures_get, hb, ensures_allocate]
  split
  · rename_i address allocator halloc
    simp only [ensures_changeScope]
    split
    · rename_i scope hadd
      obtain ⟨_, _, hfound, rfl⟩ := Scope.addParameter_ok hadd
      obtain rfl := Option.some.inj (hentry.symm.trans hfound)
      have hname : entry.name = e.scope.current := Scope.entryOf?_name hentry
      simp only [ensures_modify, recordParameter, FunctionInfo.addParam_name, hlisted, if_true]
      refine ⟨⟨_, past⟩, rfl, ?_, ?_, ?_⟩
      · have hplace : Address.In .locals (Symbol.mk name type address .parameter).address :=
          Allocator.alloc_in halloc
        have hadded := hnames.addParameter hentry hplace rfl
        rw [hlisted] at hadded
        refine Emitter.Valid.rename hvalid allocator hcontext.symm ?_ hadded ?_ ?_
        · rw [Directory.get?_set, if_neg (Ne.symm hmain)]
        · refine Scope.extends_put ?_ (List.subset_append_left _ _) rfl
          rw [hname]
          exact hentry
        · intro P hP c hc found found' hold hnew
          rw [Scope.entryOf?_put, if_neg, hold] at hnew
          · rw [Option.some.inj hnew]
          · rw [hname, hcurrent, ← hcontext]
            exact hfresh P hP c hc
      · refine ⟨hinside.rest.of_stacks rfl, hinside.controls, rfl, ?_⟩
        rw [Directory.get?_set, if_neg (Ne.symm hmain)]
        exact hinside.unmarked
      · simp only [Emitter.point, hcontext] at hfresh
        exact hfresh
    · rename_i hadd
      cases (Scope.addParameter_error hadd).2 with
      | outside houtside =>
        rw [hglobal] at houtside
        cases houtside
      | unlisted hdenies =>
        cases hdenies with
        | nowhere hnone =>
          rw [hentry] at hnone
          cases hnone
        | taken _ _ => rfl
  · rename_i halloc
    rcases (Allocator.alloc_error halloc).2 with ⟨_, hnot⟩ | rfl
    · rw [htype] at hnot
      cases hnot
    · rfl

theorem Valid.endFunction (h : γ.Valid) (hinside : InFunction γ.emitter) :
    Takes endFunction γ fun _ γ' => γ'.Valid ∧ Global γ'.emitter := by
  obtain ⟨e, past⟩ := γ
  obtain ⟨b, hb⟩ := Option.isSome_iff_exists.mp hinside.body
  dsimp only at hb
  have hlength := h.length
  dsimp only at hlength
  simp only [Takes, Emitter.endFunction, ensures_bind, ensures_get, hb, Option.isNone_some,
    Bool.false_eq_true, if_false, ensures_emit, ensures_modify]
  refine ⟨⟨_, past ++ [e.point]⟩, rfl, ⟨?_, ?_, h.pool, ?_, ?_, ?_, ?_⟩, ?_⟩
  · refine (h.names.keep fun k function hk => ?_).finish
    rw [List.getElem?_append_left (List.getElem?_eq_some_iff.mp hk).1, hk]
  · refine Laid.push (h.laid.extend ⟨?_, Nat.le_refl _, Nat.le_refl _⟩ ?_)
      ⟨rfl, rfl⟩ ⟨rfl, hinside.rest.calls⟩ ?_
    · exact ⟨rfl, fun hentry => ⟨_, hentry, List.Subset.refl _, rfl⟩⟩
    · intro P hP c hc entry entry' hentry hentry'
      rw [Option.some.inj (hentry.symm.trans hentry')]
    · rw [show Point.calls _ = [] from hinside.rest.calls]
      simp
  · rw [show Emitter.operands { e with .. } = [] from hinside.rest.operands]
    simp
  · exact h.owed.push rfl
  · rw [show Emitter.controls { e with .. } = [] from hinside.controls]
    exact .nil _ _
  · intro i hi
    obtain ⟨P, hP, hfunction⟩ := h.leads i hi
    refine ⟨P, ?_, hfunction⟩
    rw [List.getElem?_append_left (List.getElem?_eq_some_iff.mp hP).1, hP]
  · refine ⟨hinside.rest.of_stacks rfl, hinside.controls, rfl, hinside.unmarked, ⟨?_, ?_⟩, ?_⟩
    · intro q hback
      rw [Array.back?_push] at hback
      exact .inr (congrArg Quad.op (Option.some.inj hback).symm)
    · intro i k q hq hjump
      rw [Array.getElem?_push] at hq
      split at hq
      · obtain rfl := Option.some.inj hq
        cases hjump
      · obtain ⟨P, P', _, _, hflows⟩ := h.laid.flows hq
        have hk := (List.getElem?_eq_some_iff.mp (hflows.jump hjump)).1
        simp only [List.length_append, List.length_singleton, Array.size_push] at hk ⊢
        omega
    · intro name info hcallable hinfo
      obtain ⟨entry, hentry⟩ := Option.isSome_iff_exists.mp hcallable.1
      obtain ⟨info', hinfo', hdescribes⟩ := h.names.functions hentry hcallable.2
      obtain rfl := Option.some.inj (hinfo'.symm.trans hinfo)
      obtain ⟨k, hk, hstart⟩ := hdescribes.start
      have hlt := (List.getElem?_eq_some_iff.mp hstart).1
      simp only [List.length_append, List.length_singleton, Array.size_push] at hlt ⊢
      omega

/-- The main body starts where the jump over the functions leads to. -/
theorem Valid.markMain (h : γ.Valid) (hglobal : Global γ.emitter) :
    Takes markMain γ fun _ γ' => γ'.Valid ∧ InMain γ'.emitter := by
  obtain ⟨e, past⟩ := γ
  have hbody : e.body = none := hglobal.body
  have howed : e.owed = e.leadingJump.toList := by
    have hcontrols : e.controls = [] := hglobal.controls
    simp [Emitter.owed, leading, hglobal.unmarked, hcontrols]
  have howed' := h.owed
  dsimp only at howed'
  rw [howed] at howed'
  simp only [Takes, Emitter.markMain, ensures_bind, ensures_get]
  cases hjump : e.leadingJump with
  | none =>
    simp only [Option.isSome_none, Bool.false_eq_true, if_false, ensures_modify, hbody,
      Option.map_none]
    rw [hjump] at howed'
    exact ⟨⟨e.marked e.quads, past⟩, by simp only [Emitter.marked, hjump],
      Emitter.Valid.marked h hglobal rfl h.laid howed', hglobal.marked _⟩
  | some j =>
    have hlead : j ∈ leading e.functions e.leadingJump := by
      simp [leading, hglobal.unmarked, hjump]
    rw [hjump] at howed'
    obtain ⟨q, hq, hpending⟩ := (howed'.waits j).mp (by simp)
    obtain ⟨P, hP, hfunction⟩ := h.leads j hlead
    have hstart : (past ++ [e.point])[e.quads.size]? = some (.resting P.function) := by
      rw [hfunction, ← Emitter.Valid.length h, last_point, hglobal.point]
    have hlaid := h.laid.patch hq hpending hP hstart
    simp only [Option.isSome_some, if_true, ensures_bind, ensures_backpatchHere, ensures_backpatch,
      hq, hpending, ensures_modify, hbody, Option.map_none, patched]
    exact ⟨⟨e.marked _, past⟩, by simp only [Emitter.marked, hjump],
      Emitter.Valid.marked h hglobal (by simp) hlaid (howed'.patch hq (.refl _)),
      hglobal.marked _⟩

end Draft

end DuckLang
