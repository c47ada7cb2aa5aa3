import DuckLang.Llvm.Lowering
import DuckLang.Proofs.Emitter.Stretch
import Mathlib.Data.List.Forall2

/-! Steps of making a function.  Most of them succeed whatever the function looks like, and those
that ask for the slot of an operand do if the slot is there.  The calls being staged change as the
quadruples say: where the quadruples of a function fit in with each other, all of them are made. -/

namespace DuckLang.Llvm.Lowering

variable {α β : Type}

/-- The sizes of the stack arrays. -/
structure Sizes where
  locals : Counts
  temps : Counts

/-- The sizes of the stack arrays of a function in the making. -/
def sizes (s : Lowering) : Sizes :=
  { locals := s.locals, temps := s.temps }

/-- A step that succeeds with stack arrays of these sizes and leaves them and the calls alone. -/
def Steady (z : Sizes) (m : Lower α) : Prop :=
  ∀ s, s.sizes = z → ∃ a s', m.run s = .ok (a, s') ∧ s'.sizes = z ∧ s'.calls = s.calls

variable {z : Sizes} {m : Lower α} {f : α → Lower β}

theorem Steady.bind (h : Steady z m) (hf : ∀ a, Steady z (f a)) : Steady z (m >>= f) := by
  intro s hs
  obtain ⟨a, mid, hm, hmid, hcalls⟩ := h s hs
  obtain ⟨b, s', hrest, hs', hcalls'⟩ := hf a mid hmid
  refine ⟨b, s', ?_, hs', hcalls'.trans hcalls⟩
  rw [StateT.run_bind, hm]
  exact hrest

theorem Steady.pure (a : α) : Steady z (pure a : Lower α) :=
  fun s hs => ⟨a, s, rfl, hs, rfl⟩

theorem steady_get : Steady z (get : Lower Lowering) :=
  fun s hs => ⟨s, s, rfl, hs, rfl⟩

theorem Steady.get_bind {f : Lowering → Lower β} (h : ∀ s, s.sizes = z → Steady z (f s)) :
    Steady z (get >>= f) :=
  fun s hs => h s hs s hs

theorem steady_modifyGet {g : Lowering → α × Lowering}
    (h : ∀ s, (g s).2.sizes = s.sizes ∧ (g s).2.calls = s.calls) :
    Steady z (modifyGet g : Lower α) :=
  fun s hs => ⟨_, _, rfl, (h s).1.trans hs, (h s).2⟩

theorem steady_modify {g : Lowering → Lowering}
    (h : ∀ s, (g s).sizes = s.sizes ∧ (g s).calls = s.calls) :
    Steady z (modify g : Lower Unit) :=
  fun s hs => ⟨_, _, rfl, (h s).1.trans hs, (h s).2⟩

theorem steady_newId : Steady z newId :=
  steady_modifyGet fun _ => ⟨rfl, rfl⟩

theorem steady_appendAt (position : Nat) (i : Instruction) : Steady z (appendAt position i) :=
  steady_modify fun _ => ⟨rfl, rfl⟩

theorem steady_append (i : Instruction) : Steady z (append i) :=
  steady_get.bind fun _ => steady_appendAt _ i

theorem steady_terminateAt (position : Nat) (t : Terminator) : Steady z (terminateAt position t) :=
  steady_modify fun _ => ⟨rfl, rfl⟩

theorem steady_terminate (t : Terminator) : Steady z (terminate t) :=
  steady_get.bind fun _ => steady_terminateAt _ t

theorem steady_newBlock (label : Label) : Steady z (newBlock label) :=
  steady_modifyGet fun _ => ⟨rfl, rfl⟩

theorem steady_appendResult (type : Ty) (make : Nat → Instruction) :
    Steady z (appendResult type make) :=
  steady_newId.bind fun _ => (steady_append _).bind fun _ => .pure _

theorem steady_appendCall (callee : Callee) (arguments : List Ref) :
    Steady z (appendCall callee arguments) := by
  rw [appendCall]
  split
  · exact (steady_append _).bind fun _ => .pure _
  · exact steady_appendResult _ _

theorem steady_elementOf (array element : Ty) (pointer : Ref) (offset : Nat) :
    Steady z (elementOf array element pointer offset) :=
  steady_appendResult _ _

theorem steady_textPointer (t : GlobalText) : Steady z (textPointer t) :=
  steady_elementOf _ _ _ _

theorem steady_convert (value : Ref) (source target : DataType) :
    Steady z (convert value source target) := by
  unfold convert
  split
  · exact .pure _
  · dsimp only
    split <;> first | exact steady_appendResult _ _ | exact .pure _

theorem steady_reportZero : Steady z reportZero := by
  unfold reportZero
  refine steady_get.bind fun s => ?_
  split
  · refine (steady_newBlock _).bind fun _ => .bind (steady_modify fun _ => ⟨rfl, rfl⟩) fun _ => ?_
    refine (steady_textPointer _).bind fun _ => (steady_appendCall _ _).bind fun _ => ?_
    refine (steady_appendCall _ _).bind fun _ => (steady_terminate _).bind fun _ => ?_
    exact steady_modify fun _ => ⟨rfl, rfl⟩
  · exact .pure _

theorem steady_checkDivisor (index : Nat) (divisor : Ref) (type : DataType) :
    Steady z (checkDivisor index divisor type) := by
  unfold checkDivisor
  refine (steady_appendResult _ _).bind fun _ => (steady_newBlock _).bind fun _ => ?_
  refine steady_reportZero.bind fun _ => (steady_terminate _).bind fun _ => ?_
  exact steady_modify fun _ => ⟨rfl, rfl⟩

/-! ### Operands -/

/-- A place with a slot. -/
def Sizes.Holds (z : Sizes) (p : Program) (place : Address.Place) : Prop :=
  match place.segment with
  | .globals => place.offset < globalSize p place.type
  | .locals => place.offset < z.locals.get place.type
  | .temporaries => place.offset < z.temps.get place.type
  | .constants => False

/-- An operand that denotes a slot. -/
def Writable (p : Program) (z : Sizes) (operand : Operand) : Prop :=
  ∃ address place, operand.target? = some address ∧ Address.place? address = some place ∧
    z.Holds p place

/-- An operand that has a value. -/
def Loadable (p : Program) (z : Sizes) (operand : Operand) : Prop :=
  operand.literal?.isSome ∨ operand.literal? = none ∧ Writable p z operand

variable {p : Program} {operand : Operand}

theorem steady_slotPointer {address : Int} {place : Address.Place}
    (hplace : Address.place? address = some place) (hholds : z.Holds p place) :
    Steady z (slotPointer p address) := by
  obtain ⟨segment, type, offset⟩ := place
  unfold slotPointer
  rw [hplace]
  refine .get_bind fun s hs => ?_
  subst hs
  cases segment with
  | constants => exact hholds.elim
  | globals | locals | temporaries =>
    simp only [pure_bind]
    split
    · rename_i hle
      exact absurd hholds (Nat.not_lt.mpr hle)
    · exact (steady_elementOf _ _ _ _).bind fun _ => .pure _

theorem steady_load (h : Loadable p z operand) : Steady z (load p operand) := by
  unfold load
  rcases h with hliteral | ⟨hliteral, address, place, htarget, hplace, hholds⟩
  · obtain ⟨v, hv⟩ := Option.isSome_iff_exists.mp hliteral
    rw [hv]
    exact .pure _
  · rw [hliteral, htarget]
    have hconstant : constantAt p address = pure none := by
      obtain ⟨segment, type, offset⟩ := place
      rw [constantAt, hplace]
      cases segment <;> first | rfl | exact hholds.elim
    simp only [hconstant, pure_bind]
    refine (steady_slotPointer hplace hholds).bind fun _ => ?_
    exact (steady_appendResult _ _).bind fun _ => .pure _

theorem steady_storeTo (h : Writable p z operand) (value : Ref) (source : DataType) :
    Steady z (storeTo p operand value source) := by
  obtain ⟨address, place, htarget, hplace, hholds⟩ := h
  unfold storeTo
  rw [htarget]
  refine (steady_slotPointer hplace hholds).bind fun _ => (steady_convert _ _ _).bind fun _ => ?_
  exact steady_append _

theorem steady_operands {q : Quad} (hleft : Loadable p z q.left) (hright : Loadable p z q.right) :
    Steady z (operands p q) := by
  unfold operands
  refine (steady_load hleft).bind fun _ => (steady_load hright).bind fun _ => ?_
  exact (steady_convert _ _ _).bind fun _ => (steady_convert _ _ _).bind fun _ => .pure _

/-! ### Quadruples without a call -/

section

variable {q : Quad}

theorem steady_arith (hleft : Loadable p z q.left) (hright : Loadable p z q.right)
    (hresult : Writable p z q.result) (index : Nat) (op : ArithOp) :
    Steady z (arith p index q op) := by
  unfold arith
  refine (steady_operands hleft hright).bind fun _ => ?_
  dsimp only
  split
  · refine (steady_checkDivisor _ _ _).bind fun _ => (steady_appendResult _ _).bind fun _ => ?_
    exact steady_storeTo hresult _ _
  · exact (steady_appendResult _ _).bind fun _ => steady_storeTo hresult _ _

theorem steady_compare (hleft : Loadable p z q.left) (hright : Loadable p z q.right)
    (hresult : Writable p z q.result) (op : RelOp) : Steady z (compare p q op) := by
  unfold compare
  refine (steady_operands hleft hright).bind fun _ => (steady_appendResult _ _).bind fun _ => ?_
  exact (steady_appendResult _ _).bind fun _ => steady_storeTo hresult _ _

theorem steady_write
    (h : Loadable p z operand ∨ ∃ index : Nat, operand = .text index ∧ index < p.strings.length) :
    Steady z (write p operand) := by
  rcases h with hload | ⟨index, rfl, hlt⟩
  · unfold write
    split
    · rcases hload with hliteral | ⟨_, _, _, htarget, _⟩ <;> contradiction
    · refine (steady_load hload).bind fun _ => ?_
      dsimp only
      split
      · refine (steady_appendResult _ _).bind fun _ => (steady_textPointer _).bind fun _ => ?_
        exact (steady_appendCall _ _).bind fun _ => .pure _
      · refine (Steady.pure _).bind fun _ => (steady_textPointer _).bind fun _ => ?_
        exact (steady_appendCall _ _).bind fun _ => .pure _
  · have hstring : p.string? index = some p.strings[index] := by simp [Program.string?, hlt]
    simp only [write, hstring]
    refine (steady_textPointer _).bind fun _ => (steady_textPointer _).bind fun _ => ?_
    exact (steady_appendCall _ _).bind fun _ => .pure _

theorem steady_read (h : Writable p z operand) : Steady z (read p operand) := by
  obtain ⟨address, place, htarget, hplace, hholds⟩ := h
  unfold read
  rw [htarget]
  refine (steady_slotPointer hplace hholds).bind fun _ => (steady_textPointer _).bind fun _ => ?_
  exact (steady_appendCall _ _).bind fun _ => .pure _

theorem steady_jumpLabel {r : Range} {target : Int} (hstart : r.start ≤ target)
    (hstop : target ≤ r.stop) : Steady z (jumpLabel r (.jump target)) := by
  rw [jumpLabel]
  split
  · exact .pure _
  · rw [if_pos ⟨hstart, by omega⟩]
    exact .pure _

end

/-! ### Calls -/

/-- A function with the signature that the callers of a name know. -/
structure Signed (known : Emitter.Signatures) (name : String) (f : FunctionInfo) : Prop where
  known : known name = some (f.params, f.returns)
  gives : f.hasReturn = decide (f.returns ≠ .void)

/-- Calls being staged, the names of whose functions are known, with a slot for each parameter. -/
def Staging (known : Emitter.Signatures) : List String → List StagedCall → Prop :=
  List.Forall₂ fun name call =>
    Signed known name call.function ∧ call.slots.length = call.function.params.length

/-- A step that succeeds with these calls being staged before it and behind it. -/
def Turns (known : Emitter.Signatures) (z : Sizes) (names : List String) (m : Lower α)
    (names' : List String) : Prop :=
  ∀ s, s.sizes = z → Staging known names s.calls →
    ∃ a s', m.run s = .ok (a, s') ∧ s'.sizes = z ∧ Staging known names' s'.calls

variable {known : Emitter.Signatures} {names names' names'' : List String}

theorem Steady.turns (h : Steady z m) : Turns known z names m names := by
  intro s hs hstaging
  obtain ⟨a, s', hrun, hs', hcalls⟩ := h s hs
  exact ⟨a, s', hrun, hs', hcalls ▸ hstaging⟩

theorem Turns.bind (h : Turns known z names m names')
    (hf : ∀ a, Turns known z names' (f a) names'') : Turns known z names (m >>= f) names'' := by
  intro s hs hstaging
  obtain ⟨a, mid, hm, hmid, hmidStaging⟩ := h s hs hstaging
  obtain ⟨b, s', hrest, hs', hstaging'⟩ := hf a mid hmid hmidStaging
  refine ⟨b, s', ?_, hs', hstaging'⟩
  rw [StateT.run_bind, hm]
  exact hrest

theorem Turns.get_bind {f : Lowering → Lower β}
    (h : ∀ s, s.sizes = z → Staging known names s.calls → Turns known z names (f s) names') :
    Turns known z names (get >>= f) names' :=
  fun s hs hstaging => h s hs hstaging s hs hstaging

theorem Turns.within (h : Turns known z names m names') (index : Nat) (q : Quad) :
    Turns known z names (within index q m) names' := by
  intro s hs hstaging
  obtain ⟨a, s', hm, hrest⟩ := h s hs hstaging
  refine ⟨a, s', ?_, hrest⟩
  simp only [StateT.run] at hm
  simp only [StateT.run, Lowering.within, hm]

theorem steady_stackSlot (type : Ty) : Steady z (stackSlot type) :=
  steady_newId.bind fun _ => (steady_appendAt _ _).bind fun _ => .pure _

theorem steady_mapM {γ : Type} {g : γ → Lower α} (h : ∀ x, Steady z (g x)) (l : List γ) :
    ∀ s, s.sizes = z → ∃ results s', (l.mapM g).run s = .ok (results, s') ∧
      results.length = l.length ∧ s'.sizes = z ∧ s'.calls = s.calls := by
  induction l with
  | nil => exact fun s hs => ⟨[], s, rfl, rfl, hs, rfl⟩
  | cons x l ih =>
    intro s hs
    obtain ⟨a, mid, hx, hmid, hcalls⟩ := h x s hs
    obtain ⟨results, s', hl, hlength, hs', hcalls'⟩ := ih mid hmid
    refine ⟨a :: results, s', ?_, by simp [hlength], hs', hcalls'.trans hcalls⟩
    simp only [List.mapM_cons, StateT.run_bind, hx, StateT.run_pure]
    simp only [bind, Except.bind, hl]
    rfl

theorem turns_announce {name : String} {f : FunctionInfo} (hf : p.functions.get? name = some f)
    (hmain : name ≠ mainName) (hsigned : Signed known name f) :
    Turns known z names (announce p name) (name :: names) := by
  intro s hs hstaging
  obtain ⟨slots, s', hslots, hlength, hs', hcalls⟩ :=
    steady_mapM (g := fun param : Param => stackSlot (tyOf param.type))
      (fun param => steady_stackSlot _) f.params s hs
  refine ⟨(), { s' with calls := { function := f, slots } :: s'.calls }, ?_, hs',
    .cons ⟨hsigned, hlength⟩ (hcalls ▸ hstaging)⟩
  simp only [announce, hf, if_neg hmain, StateT.run_bind, hslots]
  rfl

theorem turns_param {q : Quad} {name : String} {params : List Param} {type : DataType}
    {param : Param} (hleft : Loadable p z q.left) (hknown : known name = some (params, type))
    (hlisted : param ∈ params) (hresult : q.result = .address param.address param.type) :
    Turns known z (name :: names) (Lowering.param p q) (name :: names) := by
  unfold Lowering.param
  refine .get_bind fun s _ hstaging => ?_
  obtain ⟨call, calls, ⟨hcall, hlength⟩, _, hcalls⟩ := List.forall₂_cons_left_iff.mp hstaging
  obtain ⟨rfl, _⟩ := Prod.mk.inj (Option.some.inj (hknown.symm.trans hcall.known))
  have hslot : ((call.function.params.zip call.slots).find? fun entry =>
      entry.1.address = q.result.target?.getD 0).isSome := by
    rw [← List.map_fst_zip (Nat.le_of_eq hlength.symm)] at hlisted
    obtain ⟨entry, hentry, rfl⟩ := List.mem_map.mp hlisted
    exact List.find?_isSome.mpr ⟨entry, hentry, by simp [hresult, Operand.target?]⟩
  obtain ⟨⟨param', slot⟩, hfound⟩ := Option.isSome_iff_exists.mp hslot
  simp only [hcalls, hfound]
  refine Steady.turns ?_
  refine (steady_load hleft).bind fun _ => (steady_convert _ _ _).bind fun _ => steady_append _

theorem turns_makeCall {q : Quad} {name : String} (hresult : q.result = .empty ∨
      Writable p z q.result ∧ ∃ params type, known name = some (params, type) ∧ type ≠ .void) :
    Turns known z (name :: names) (makeCall p q) names := by
  unfold makeCall
  refine .get_bind fun s _ hstaging => ?_
  obtain ⟨call, calls, ⟨hcall, hlength⟩, hrest, hcalls⟩ := List.forall₂_cons_left_iff.mp hstaging
  simp only [hcalls]
  have hpop : Turns known z (name :: names)
      (modify fun s => { s with calls } : Lower Unit) names :=
    fun s hs _ => ⟨(), _, rfl, hs, hrest⟩
  -- behind this the call is no longer staged, and what is left does not look at the others
  refine hpop.bind fun _ => Steady.turns ?_
  have harguments : Steady z ((call.function.params.zip call.slots).mapM fun entry =>
      appendResult (tyOf entry.1.type) fun id => .load id (tyOf entry.1.type) entry.2) := by
    intro s hs
    obtain ⟨results, s', hrun, _, hs'⟩ := steady_mapM (g := fun entry : Param × Ref =>
      appendResult (tyOf entry.1.type) fun id => .load id (tyOf entry.1.type) entry.2)
      (fun entry => steady_appendResult _ _) (call.function.params.zip call.slots) s hs
    exact ⟨results, s', hrun, hs'⟩
  refine harguments.bind fun _ => (steady_appendCall _ _).bind fun _ => ?_
  rcases hresult with hempty | ⟨hwritable, params, type, hknown, hvoid⟩
  · rw [hempty]
    exact .pure _
  · obtain ⟨_, rfl⟩ := Prod.mk.inj (Option.some.inj (hknown.symm.trans hcall.known))
    have hreturns : call.function.hasReturn = true := by simp [hcall.gives, hvoid]
    rw [if_pos hreturns]
    split
    · exact steady_storeTo hwritable _ _
    · exact .pure _

/-! ### Quadruples -/

/-- A quadruple whose operands have what it needs of them. -/
def Lowerable (known : Emitter.Signatures) (p : Program) (z : Sizes) (r : Range) (q : Quad) :
    Prop :=
  match q.op with
  | .arith _ | .rel _ => Loadable p z q.left ∧ Loadable p z q.right ∧ Writable p z q.result
  | .assign => Loadable p z q.left ∧ Writable p z q.result
  | .goto => ∃ target, q.result = .jump target ∧ r.start ≤ target ∧ target ≤ r.stop
  | .gotoFalse =>
    Loadable p z q.left ∧ ∃ target, q.result = .jump target ∧ r.start ≤ target ∧ target ≤ r.stop
  | .write =>
    Loadable p z q.result ∨ ∃ index : Nat, q.result = .text index ∧ index < p.strings.length
  | .read => Writable p z q.result
  | .announce => ∃ name f, q.result = .function name ∧ p.functions.get? name = some f ∧
      name ≠ mainName ∧ Signed known name f
  | .param => Loadable p z q.left
  | .call => q.result = .empty ∨ Writable p z q.result
  | .giveBack => Loadable p z q.result
  | .endFunction | .halt => True
  | .unknown _ => False

/-- A quadruple whose operands have what it needs and that fits in with the calls around it. -/
theorem turns_quad {r : Range} {q : Quad} (h : Lowerable known p z r q)
    (hstage : Emitter.Stage known r.function.hasReturn names q names') (index : Nat) :
    Turns known z names (quad p r index q) names' := by
  obtain ⟨op, left, right, result⟩ := q
  unfold quad
  cases hstage with
  | announce hop hresult =>
    obtain rfl : op = .announce := hop
    obtain rfl : result = _ := hresult
    obtain ⟨name, f, hname, hf, hmain, hsigned⟩ := h
    obtain rfl := Operand.function.inj hname
    exact turns_announce hf hmain hsigned
  | param hop hsignature hlisted hresult =>
    obtain rfl : op = .param := hop
    exact turns_param h hsignature hlisted hresult
  | call hop hresult =>
    obtain rfl : op = .call := hop
    refine turns_makeCall ?_
    rcases hresult with hempty | htype
    · exact .inl hempty
    · exact h.imp_right fun hwritable => ⟨hwritable, htype⟩
  | giveBack hop hvalue =>
    obtain rfl : op = .giveBack := hop
    dsimp only
    rw [if_pos hvalue]
    refine Steady.turns ((steady_load h).bind fun _ => (steady_convert _ _ _).bind fun _ => ?_)
    exact steady_terminate _
  | plain hop =>
    refine Steady.turns ?_
    cases op with
    | arith op => exact steady_arith h.1 h.2.1 h.2.2 index op
    | rel op => exact steady_compare h.1 h.2.1 h.2.2 op
    | assign => exact (steady_load h.1).bind fun _ => steady_storeTo h.2 _ _
    | goto =>
      obtain ⟨target, hresult, hstart, hstop⟩ := h
      obtain rfl : result = .jump target := hresult
      exact (steady_jumpLabel hstart hstop).bind fun _ => steady_terminate _
    | gotoFalse =>
      obtain ⟨hleft, target, hresult, hstart, hstop⟩ := h
      obtain rfl : result = .jump target := hresult
      refine (steady_load hleft).bind fun _ => (steady_jumpLabel hstart hstop).bind fun _ => ?_
      exact (steady_appendResult _ _).bind fun _ => steady_terminate _
    | write => exact steady_write h
    | read => exact steady_read h
    | endFunction | halt => exact steady_terminate _
    | unknown code => exact h.elim
    | announce | param | call | giveBack => cases hop

theorem turns_quadBlock {r : Range} {q : Quad} (h : Lowerable known p z r q)
    (hstage : Emitter.Stage known r.function.hasReturn names q names') (index : Nat) :
    Turns known z names (quadBlock p r (q, index)) names' := by
  unfold quadBlock
  refine .bind (Steady.turns (steady_modify fun _ => ⟨rfl, rfl⟩)) fun _ => ?_
  refine .bind (.within (turns_quad h hstage index) index q) fun _ => Steady.turns ?_
  refine steady_get.bind fun s => ?_
  split
  · exact steady_terminate _
  · exact .pure _

theorem turns_quads {r : Range} {quads : List Quad} (h : ∀ q ∈ quads, Lowerable known p z r q)
    (hstaged : Emitter.Staged known r.function.hasReturn names quads names') (index : Nat) :
    Turns known z names ((quads.zipIdx index).forM (quadBlock p r)) names' := by
  induction quads generalizing names index with
  | nil =>
    obtain rfl := hstaged
    exact Steady.turns (.pure _)
  | cons q quads ih =>
    obtain ⟨hfirst, hrest⟩ := List.forall_mem_cons.mp h
    obtain ⟨mid, hstage, hquads⟩ := hstaged
    rw [List.zipIdx_cons]
    exact (turns_quadBlock hfirst hstage index).bind fun _ => ih hrest hquads _

theorem steady_forM {γ : Type} {g : γ → Lower PUnit} {l : List γ} (h : ∀ x ∈ l, Steady z (g x)) :
    Steady z (l.forM g) := by
  induction l with
  | nil => exact .pure _
  | cons x l ih =>
    obtain ⟨hfirst, hrest⟩ := List.forall_mem_cons.mp h
    exact hfirst.bind fun _ => ih hrest

/-! ### Functions -/

theorem steady_stackArray (segment : String) (sizes : Counts) (type : DataType) :
    Steady z (stackArray segment sizes type) := by
  rw [stackArray]
  split
  · exact .pure _
  · exact steady_appendAt _ _

/-- A function whose parameters have slots and whose quadruples fit in is made. -/
theorem turns_body {r : Range} {code : List Quad}
    (hcode : quadsOf p r = code.zipIdx r.start)
    (hparams : ∀ param ∈ r.function.params,
      Writable p z (.address param.address param.type))
    (hquads : ∀ q ∈ code, Lowerable known p z r q)
    (hstaged : Emitter.Staged known r.function.hasReturn [] code []) :
    Turns known z [] (body p r) [] := by
  unfold body
  refine .get_bind fun s _ _ => .bind (Steady.turns ?_) fun _ => .bind (Steady.turns ?_) fun _ => ?_
  · refine steady_forM fun type _ => ?_
    exact (steady_stackArray _ _ _).bind fun _ => steady_stackArray _ _ _
  · refine steady_forM fun entry hentry => ?_
    exact steady_storeTo (hparams _ (List.fst_mem_of_mem_zipIdx hentry)) _ _
  · rw [hcode]
    refine (turns_quads hquads hstaged r.start).bind fun _ => .get_bind fun s _ hstaging => ?_
    rw [List.forall₂_nil_left_iff.mp hstaging]
    exact Steady.turns (steady_terminateAt _ _)

end DuckLang.Llvm.Lowering
