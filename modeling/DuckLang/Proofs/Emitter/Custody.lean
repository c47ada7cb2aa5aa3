import DuckLang.Proofs.Emitter.Expression
import DuckLang.Proofs.Emitter.Storage

/-! What the operations of an emitter do to temporaries.  An operation pops operands into its hand,
emits quadruples about what it has in hand, and takes the temporaries there back.  All of them,
those that fail included, come down to the edits below; one that succeeds ends with nothing in hand,
and what it makes it makes before it takes anything back. -/

namespace DuckLang

/-- The temporary of an operand, if it is one, with its type. -/
def Operand.temps : Operand → List (Int × DataType)
  | .temporary id type => [(id, type)]
  | _ => []

/-- The temporaries of a quadruple. -/
def Quad.temps (q : Quad) : List (Int × DataType) :=
  q.left.temps ++ (q.right.temps ++ q.result.temps)

/-- Whether an operation computes its result: arithmetic, a comparison or a call. -/
def Opcode.computes : Opcode → Bool
  | .arith _ | .rel _ | .call => true
  | _ => false

/-- The temporaries that a quadruple computes. -/
def Quad.made (q : Quad) : List (Int × DataType) :=
  if q.op.computes then q.result.temps else []

/-- A scope whose functions give back nothing or a value of a type with `T`. -/
def Scope.Returns (T : DataType → Prop) (s : Scope) : Prop :=
  ∀ entry ∈ s.entries, entry.returns = .void ∨ T entry.returns

theorem Scope.mem_of_mem_putEntry {entry found : Scope.Entry} {entries : List Scope.Entry}
    (h : found ∈ putEntry entry entries) : found = entry ∨ found ∈ entries := by
  induction entries with
  | nil => exact .inl (List.mem_singleton.mp h)
  | cons x xs ih =>
    simp only [putEntry] at h
    split at h <;> rcases List.mem_cons.mp h with rfl | h
    · exact .inl rfl
    · exact .inr (.tail _ h)
    · exact .inr (.head _)
    · exact (ih h).imp_right (.tail _)

namespace Scope.Returns

variable {T : DataType → Prop} {s s' : Scope} {name : String}

theorem put (h : s.Returns T) {entry : Scope.Entry}
    (hentry : entry.returns = .void ∨ T entry.returns) : (s.put entry).Returns T := by
  intro found hfound
  rcases mem_of_mem_putEntry hfound with rfl | hold
  · exact hentry
  · exact h found hold

theorem initProgram (h : s.Returns T) (hs : s.initProgram name = .ok () s') : s'.Returns T := by
  obtain ⟨_, rfl⟩ := initProgram_ok hs
  exact h.put (show ({ name, isProgram := true } : Entry).returns = .void ∨ _ from .inl rfl)

theorem beginFunction (h : s.Returns T) {returns : DataType} (htype : returns = .void ∨ T returns)
    (hs : s.beginFunction name returns = .ok () s') : s'.Returns T := by
  obtain ⟨_, _, _, rfl⟩ := beginFunction_ok hs
  intro found hfound
  rcases List.mem_append.mp hfound with hold | hnew
  · exact h found hold
  · rw [List.mem_singleton.mp hnew]
    exact htype

theorem addVariable (h : s.Returns T) {address : Int}
    (hs : s.addVariable name address = .ok () s') : s'.Returns T := by
  obtain ⟨_, entry, _, hentry, rfl⟩ := addVariable_ok hs
  exact h.put (h entry (List.mem_of_find?_eq_some hentry))

theorem addParameter (h : s.Returns T) {type : DataType} {address : Int}
    (hs : s.addParameter name type address = .ok () s') : s'.Returns T := by
  obtain ⟨_, entry, hentry, rfl⟩ := addParameter_ok hs
  exact h.put (h entry (List.mem_of_find?_eq_some hentry))

theorem callee {e : Emitter} (h : e.scope.Returns T) (c : Emitter.Call) :
    (e.callee c).returns = .void ∨ T (e.callee c).returns := by
  simp only [Emitter.callee]
  cases hentry : e.scope.entryOf? c.function with
  | none => exact .inl rfl
  | some entry => exact h entry (List.mem_of_find?_eq_some hentry)

end Scope.Returns

namespace Emitter

theorem getElem?_patched {e : Emitter} {index : Nat} {q : Quad}
    (hfound : e.quads[index]? = some q) (target i : Nat) :
    (e.patched index target q).quads[i]? =
      if i = index then some { q with result := .jump target } else e.quads[i]? := by
  have hlt := (Array.getElem?_eq_some_iff.mp hfound).1
  simp only [patched, Array.set!_eq_setIfInBounds, Array.getElem?_setIfInBounds]
  by_cases hi : i = index
  · subst hi
    simp [hlt]
  · simp [hi, Ne.symm hi]

/-- What an operation has in hand: the temporaries it has popped and not taken back, and whether it
has begun to take back. -/
structure Grip where
  hand : List (Int × DataType) := []
  settling : Bool := false

/-- An emitter in the middle of an operation. -/
structure Desk where
  grip : Grip := {}
  emitter : Emitter

/-- One edit of an emitter in the middle of an operation.  The types of what is made have `T`. -/
inductive Edit (T : DataType → Prop) : Desk → Desk → Prop
  | take {g : Grip} {e : Emitter} {top : Operand × DataType} {rest : List (Operand × DataType)}
      (stacked : e.operands = top :: rest) :
      Edit T ⟨g, e⟩ ⟨{ g with hand := top.1.temps ++ g.hand }, { e with operands := rest }⟩
  | push {g : Grip} {e : Emitter} {operand : Operand} {type : DataType}
      (plain : operand.temps = []) :
      Edit T ⟨g, e⟩ ⟨g, { e with operands := (operand, type) :: e.operands }⟩
  -- nothing was taken back yet, or the new id could be one that the quadruple still reads
  | make {hand : List (Int × DataType)} {e : Emitter} {q : Quad} {type : DataType} (typed : T type)
      (result : q.result = .temporary e.temps.alloc.1 type)
      (sources : q.left.temps ++ q.right.temps ⊆ hand) :
      Edit T ⟨{ hand }, e⟩ ⟨{ hand }, { e with
        temps := e.temps.alloc.2
        quads := e.quads.push q
        operands := (q.result, type) :: e.operands }⟩
  | emit {g : Grip} {e : Emitter} {q : Quad} (sources : q.temps ⊆ g.hand) (made : q.made = []) :
      Edit T ⟨g, e⟩ ⟨g, { e with quads := e.quads.push q }⟩
  | settle {g : Grip} {e : Emitter} (operand : Operand) {rest : List (Int × DataType)}
      (held : g.hand.Perm (operand.temps ++ rest)) :
      Edit T ⟨g, e⟩ ⟨{ hand := rest, settling := true },
        { e with temps := e.temps.without operand }⟩
  | patch {g : Grip} {e : Emitter} {index : Nat} {q : Quad} (target : Nat)
      (found : e.quads[index]? = some q) (pending : q.result.isPending = true) :
      Edit T ⟨g, e⟩ ⟨g, e.patched index target q⟩
  | other {g : Grip} {e e' : Emitter} (operands : e'.operands = e.operands)
      (temps : e'.temps = e.temps) (quads : e'.quads = e.quads)
      (returns : e.scope.Returns T → e'.scope.Returns T) : Edit T ⟨g, e⟩ ⟨g, e'⟩

/-- Any number of edits. -/
abbrev Edits (T : DataType → Prop) : Desk → Desk → Prop :=
  Relation.ReflTransGen (Edit T)

/-- From a desk an operation goes by edits.  If it succeeds, it has what `left` says in hand. -/
def Works {α : Type} (T : DataType → Prop) (m : Emit α) (d : Desk) (left : α → Grip) : Prop :=
  match m.run d.emitter with
  | .ok a e => Edits T d ⟨left a, e⟩
  | .error _ e => ∃ g, Edits T d ⟨g, e⟩

/-- What an operation has in hand when it is done. -/
abbrev done {α : Type} : α → Grip :=
  fun _ => { settling := true }

variable {T : DataType → Prop} {α β : Type} {m m' : Emit α} {f : α → Emit β} {g : Grip}
  {e : Emitter} {d : Desk} {mid left : α → Grip} {last : β → Grip}

/-! ### The rules of the judgement -/

theorem Works.bind (hm : Works T m d mid) (hf : ∀ a e, Works T (f a) ⟨mid a, e⟩ last) :
    Works T (m >>= f) d last := by
  simp only [Works, EStateM.run, Bind.bind, EStateM.bind] at hm ⊢
  cases hrun : m d.emitter with
  | error cause e =>
    rw [hrun] at hm
    exact hm
  | ok a e =>
    rw [hrun] at hm
    have hrest := hf a e
    simp only [Works, EStateM.run] at hrest
    dsimp only
    cases hlast : f a e with
    | ok b e' =>
      rw [hlast] at hrest
      exact hm.trans hrest
    | error cause e' =>
      rw [hlast] at hrest
      obtain ⟨g, hedits⟩ := hrest
      exact ⟨g, hm.trans hedits⟩

theorem Works.head {d' : Desk} (hedit : Edit T d d') (h : Works T m d' left)
    (hrun : m'.run d.emitter = m.run d'.emitter) : Works T m' d left := by
  simp only [Works, hrun] at h ⊢
  split at h
  · exact .head hedit h
  · obtain ⟨g, hedits⟩ := h
    exact ⟨g, .head hedit hedits⟩

theorem Works.ite {c : Prop} [Decidable c] (h : Works T m d left) (h' : Works T m' d left) :
    Works T (if c then m else m') d left := by
  split
  · exact h
  · exact h'

theorem works_fail (cause : Cause) : Works T (fail cause : Emit α) d left :=
  ⟨d.grip, .refl⟩

theorem works_pure (a : α) : Works T (pure a) ⟨g, e⟩ fun _ => g :=
  Relation.ReflTransGen.refl

/-- An operation that ends with nothing in hand, whether it has taken anything back or not. -/
theorem Works.finish {settling : Bool} (h : Works T m d fun _ => { settling }) :
    Works T m d done := by
  simp only [Works] at h ⊢
  split at h
  · exact h.tail (.settle .empty (.refl _))
  · exact h

theorem Works.look {f : Emitter → Emit β} (h : Works T (f d.emitter) d last) :
    Works T (MonadState.get >>= f) d last := h

theorem works_lift (x : Except Cause α) : Works T (lift x) ⟨g, e⟩ fun _ => g := by
  cases x with
  | ok a => exact Relation.ReflTransGen.refl
  | error cause => exact works_fail cause

/-- A change of what is neither an operand nor a temporary nor code. -/
theorem works_modify {change : Emitter → Emitter} (operands : (change e).operands = e.operands)
    (temps : (change e).temps = e.temps) (quads : (change e).quads = e.quads)
    (returns : e.scope.Returns T → (change e).scope.Returns T) :
    Works T (modify change : Emit PUnit) ⟨g, e⟩ fun _ => g :=
  .single (.other operands temps quads returns)

theorem Works.change {change : Emitter → Emitter} {f : PUnit → Emit β}
    (operands : (change e).operands = e.operands) (temps : (change e).temps = e.temps)
    (quads : (change e).quads = e.quads)
    (returns : e.scope.Returns T → (change e).scope.Returns T)
    (h : Works T (f ⟨⟩) ⟨g, change e⟩ last) : Works T (modify change >>= f) ⟨g, e⟩ last :=
  .head (.other operands temps quads returns) h rfl

theorem works_set {e' : Emitter} (operands : e'.operands = e.operands)
    (temps : e'.temps = e.temps) (quads : e'.quads = e.quads)
    (returns : e.scope.Returns T → e'.scope.Returns T) :
    Works T (set e' : Emit PUnit) ⟨g, e⟩ fun _ => g :=
  .single (.other operands temps quads returns)

/-! ### The small operations -/

theorem works_popOperand :
    Works T popOperand ⟨g, e⟩ fun top => { g with hand := top.1.temps ++ g.hand } := by
  refine .look ?_
  dsimp only
  split
  · exact works_fail _
  · rename_i top rest hstack
    exact Relation.ReflTransGen.single (.take hstack)

theorem works_pushOperand {operand : Operand} {type : DataType} (plain : operand.temps = []) :
    Works T (pushOperand operand type) ⟨g, e⟩ fun _ => g :=
  Relation.ReflTransGen.single (.push plain)

theorem works_emit {q : Quad} (sources : q.temps ⊆ g.hand) (made : q.made = []) :
    Works T (emit q) ⟨g, e⟩ fun _ => g :=
  Relation.ReflTransGen.single (.emit sources made)

theorem works_release {operand : Operand} {rest : List (Int × DataType)}
    (held : g.hand.Perm (operand.temps ++ rest)) :
    Works T (release operand) ⟨g, e⟩ fun _ => { hand := rest, settling := true } := by
  have hedit := Edit.settle (T := T) (e := e) operand held
  cases operand <;> exact Relation.ReflTransGen.single hedit

/-- A temporary is handed out, a quadruple computes it, and it waits on the stack. -/
theorem works_make {hand : List (Int × DataType)} {type : DataType} {q : Operand → Quad}
    {m : Unit → Emit α} (typed : T type) (result : ∀ t, (q t).result = t)
    (sources : ∀ t, (q t).left.temps ++ (q t).right.temps ⊆ hand)
    (h : ∀ e, Works T (m ()) ⟨{ hand }, e⟩ left) :
    Works T (newTemp type >>= fun t => emit (q t) >>= fun _ => pushOperand t type >>= m)
      ⟨{ hand }, e⟩ left := by
  have hedit := Edit.make (e := e) (q := q (.temporary e.temps.alloc.1 type)) typed (result _)
    (sources _)
  rw [result] at hedit
  exact .head hedit (h _) rfl

theorem works_backpatch (jump : Option Nat) (target : Nat) :
    Works T (backpatch jump target) ⟨g, e⟩ fun _ => g := by
  refine .look ?_
  dsimp only
  split
  · exact works_fail _
  · split
    · exact works_fail _
    · rename_i q hfound
      split
      · rename_i hpending
        exact Relation.ReflTransGen.single (.patch target hfound hpending)
      · exact works_fail _

theorem works_backpatchHere (jump : Option Nat) :
    Works T (backpatchHere jump) ⟨g, e⟩ fun _ => g :=
  .look (works_backpatch jump _)

theorem works_lookup (name : String) : Works T (lookup name) ⟨g, e⟩ fun _ => g :=
  .look (works_lift _)

theorem works_allocate (segment : Segment) (type : DataType) :
    Works T (allocate segment type) ⟨g, e⟩ fun _ => g := by
  cases halloc : e.allocator.alloc segment type with
  | error cause allocator =>
    rw [Works, run_allocate_error halloc]
    exact ⟨g, .refl⟩
  | ok address allocator =>
    rw [Works, run_allocate_ok halloc]
    exact .single (.other rfl rfl rfl id)

theorem works_changeScope {change : Scope → Scope.Outcome} (hkeeps : Scope.Keeps change)
    (returns : ∀ scope, change e.scope = .ok () scope → e.scope.Returns T → scope.Returns T) :
    Works T (changeScope change) ⟨g, e⟩ fun _ => g := by
  cases hchange : change e.scope with
  | error cause scope =>
    rw [Works, run_changeScope_error hkeeps hchange]
    exact ⟨g, .refl⟩
  | ok _ scope =>
    rw [Works, run_changeScope_ok hchange]
    exact .single (.other rfl rfl rfl (returns scope hchange))

theorem works_topControl : Works T topControl ⟨g, e⟩ fun _ => g := by
  refine .look ?_
  dsimp only
  split
  · exact works_fail _
  · exact Relation.ReflTransGen.refl

theorem works_popControl : Works T popControl ⟨g, e⟩ fun _ => g :=
  .bind works_topControl fun _ _ => .bind (works_modify rfl rfl rfl id) fun _ _ => .refl

theorem works_closeParen : Works T closeParen ⟨g, e⟩ fun _ => g := by
  refine .look ?_
  dsimp only
  split
  · exact Relation.ReflTransGen.single (.other rfl rfl rfl id)
  · exact works_fail _

/-! ### Expressions -/

theorem works_negateLiteral : Works T negateLiteral ⟨{}, e⟩ done := by
  refine .bind works_popOperand ?_
  rintro ⟨operand, type⟩ e
  dsimp only
  split
  · exact .finish (works_pushOperand rfl)
  · exact .finish (works_pushOperand rfl)
  · exact works_fail _

theorem works_pushString (literal : String) : Works T (pushString literal) ⟨{}, e⟩ done := by
  simp only [pushString]
  split
  · exact works_fail _
  · exact .look (.bind (works_set rfl rfl rfl id) fun _ _ => .finish (works_pushOperand rfl))

theorem works_generateBinary (hT : ∀ type, type.isStorable = true → T type) {op : Operator}
    (hop : op ≠ .assign) : Works T (generateBinary op) ⟨{}, e⟩ done := by
  refine .bind works_popOperand ?_
  rintro ⟨right, rightType⟩ e
  refine .bind works_popOperand ?_
  rintro ⟨left, leftType⟩ e
  refine .bind (works_modify rfl rfl rfl id) fun _ e => ?_
  split
  · exact works_fail _
  · rename_i type htype
    refine works_make (hT type (Draft.result_storable hop htype)) (fun _ => rfl) (fun _ => ?_) ?_
    · simp
    intro e
    exact .bind (works_release (.refl _)) fun _ _ => works_release (.refl _)

theorem works_emitConditionJump {settling : Bool} :
    Works T emitConditionJump ⟨{ settling }, e⟩ done := by
  refine .bind works_topControl fun c e => .bind works_popOperand ?_
  rintro ⟨condition, type⟩ e
  exact .bind (works_emit (List.Subset.refl _) rfl) fun _ _ =>
    .bind (works_modify rfl rfl rfl id) fun _ _ => works_release (.refl _)

theorem works_generateAmong (hT : ∀ type, type.isStorable = true → T type) (ops : List ArithOp) :
    Works T (generateAmong ops) ⟨{}, e⟩ done := by
  refine .look ?_
  dsimp only
  split
  · split
    · exact works_generateBinary hT (by simp)
    · exact .finish (works_pure _)
  · exact .finish (works_pure _)

theorem works_generateRelational (hT : ∀ type, type.isStorable = true → T type) :
    Works T generateRelational ⟨{}, e⟩ done := by
  refine .look ?_
  dsimp only
  split
  · refine .bind (works_generateBinary hT (by simp)) fun _ e => .look (.ite ?_ ?_)
    · exact works_emitConditionJump
    · exact .finish (works_pure _)
  · exact .finish (works_pure _)

/-! ### Statements -/

theorem works_write : Works T write ⟨{}, e⟩ done := by
  refine .bind works_popOperand ?_
  rintro ⟨operand, type⟩ e
  exact .ite (works_fail _) (.bind (works_emit (List.subset_append_left _ _) rfl) fun _ _ =>
    works_release (.refl _))

theorem works_assign (name : String) : Works T (assign name) ⟨{}, e⟩ done := by
  refine .bind (works_lookup name) fun symbol e => .bind works_popOperand ?_
  rintro ⟨source, type⟩ e
  exact .ite (.bind (works_emit (List.Subset.refl _) rfl) fun _ _ => works_release (.refl _))
    (works_fail _)

theorem works_read (name : String) : Works T (read name) ⟨{}, e⟩ done :=
  .finish (.bind (works_lookup name) fun _ _ =>
    .bind (works_emit (List.nil_subset _) rfl) fun _ _ => works_pure _)

theorem works_leaveHeader : Works T leaveHeader ⟨{}, e⟩ done :=
  .bind works_topControl fun _ _ => .bind (works_modify rfl rfl rfl id) fun _ _ =>
    .ite (.look (.ite works_emitConditionJump (works_fail _))) (.finish (works_pure _))

theorem works_enterElse : Works T enterElse ⟨{}, e⟩ done := by
  refine .bind works_topControl fun c e => ?_
  split
  · exact works_fail _
  · exact .bind (works_emit (List.nil_subset _) rfl) fun _ _ =>
      .bind (works_modify rfl rfl rfl id) fun _ _ => .finish (works_backpatchHere _)

theorem works_endIf : Works T endIf ⟨{}, e⟩ done := by
  refine .bind works_popControl fun c e => ?_
  split
  · exact works_fail _
  · exact .finish (works_backpatchHere _)
  · exact .finish (works_backpatchHere _)

theorem works_endWhile : Works T endWhile ⟨{}, e⟩ done := by
  refine .bind works_popControl fun c e => ?_
  split
  · exact works_fail _
  · exact .bind (works_emit (List.nil_subset _) rfl) fun _ _ => .finish (works_backpatchHere _)

/-! ### Functions and calls -/

theorem works_beginFunction {name : String} {returns : DataType}
    (htype : returns = .void ∨ T returns) : Works T (beginFunction name returns) ⟨{}, e⟩ done := by
  have hkeeps := Scope.keeps_beginFunction name returns
  refine .bind (works_changeScope hkeeps fun scope hbegun hreturns => ?_) fun _ e =>
    .look (.ite ?_ ?_)
  · exact hreturns.beginFunction htype hbegun
  · exact .bind (works_emit (List.nil_subset _) rfl) fun _ _ =>
      .bind (works_modify rfl rfl rfl id) fun _ _ => .finish (works_modify rfl rfl rfl id)
  · exact .finish (works_modify rfl rfl rfl id)

theorem works_addParameter (name : String) (type : DataType) :
    Works T (addParameter name type) ⟨{}, e⟩ done := by
  refine .look ?_
  dsimp only
  split
  · exact works_fail _
  · refine .bind (works_allocate _ _) fun address e => ?_
    have hkeeps := Scope.keeps_addParameter name type address
    refine .bind (works_changeScope hkeeps fun scope hadded hreturns => ?_) fun _ e => ?_
    · exact hreturns.addParameter hadded
    · exact .finish (works_modify rfl rfl rfl id)

theorem works_declareVariable (name : String) : Works T (declareVariable name) ⟨{}, e⟩ done := by
  refine .look (.bind (works_allocate _ _) fun address e => ?_)
  exact .finish (works_changeScope (Scope.keeps_addVariable name address)
    fun scope hadded hreturns => hreturns.addVariable hadded)

theorem works_endFunction : Works T endFunction ⟨{}, e⟩ done :=
  .look (.ite (works_fail _) (.bind (works_emit (List.nil_subset _) rfl) fun _ _ =>
    .finish (works_modify rfl rfl rfl id)))

theorem works_markMain : Works T markMain ⟨{}, e⟩ done := by
  refine .look (.ite ?_ ?_)
  · exact .bind (works_backpatchHere _) fun _ _ => .finish (works_modify rfl rfl rfl id)
  · exact .finish (works_modify rfl rfl rfl id)

theorem works_giveBack : Works T giveBack ⟨{}, e⟩ done := by
  refine .look ?_
  dsimp only
  split
  · exact works_fail _
  · refine .ite (works_fail _) (.bind works_popOperand ?_)
    rintro ⟨value, type⟩ e
    exact .ite (.bind (works_emit (List.subset_append_left _ _) rfl) fun _ _ =>
      works_release (.refl _)) (works_fail _)

theorem works_beginCall (name : String) : Works T (beginCall name) ⟨{}, e⟩ done :=
  .look (.bind (works_lift _) fun _ _ => .bind (works_emit (List.nil_subset _) rfl) fun _ _ =>
    .bind (works_modify rfl rfl rfl id) fun _ _ => .finish (works_modify rfl rfl rfl id))

theorem works_argument : Works T argument ⟨{}, e⟩ done := by
  refine .look ?_
  dsimp only
  split
  · exact works_fail _
  · refine .bind works_popOperand ?_
    rintro ⟨value, type⟩ e
    refine .look ?_
    dsimp only
    split
    · exact works_fail _
    · refine .ite (.bind (works_emit (List.Subset.refl _) rfl) fun _ _ => ?_) (works_fail _)
      exact .bind (works_release (.refl _)) fun _ _ => works_modify rfl rfl rfl id

theorem works_endCall (hreturns : e.scope.Returns T) : Works T endCall ⟨{}, e⟩ done := by
  refine .look ?_
  dsimp only
  split
  · exact works_fail _
  · rename_i c calls _
    refine .change rfl rfl rfl id (.look (.ite (works_fail _) ?_))
    refine .bind works_closeParen fun _ e' => ?_
    split
    · exact .bind (works_emit (List.nil_subset _) rfl) fun _ _ => .finish (works_pure _)
    · rename_i hvoid
      have htype := (hreturns.callee c).resolve_left hvoid
      exact works_make htype (fun _ => rfl) (fun _ => List.nil_subset _) fun _ =>
        .finish (works_pure _)

theorem works_discardResult : Works T discardResult ⟨{}, e⟩ done := by
  refine .bind works_popOperand ?_
  rintro ⟨operand, type⟩ e
  exact works_release (.refl _)

/-! ### All operations -/

/-- An operation that begins a function only if it gives back nothing or a value of a type
with `T`. -/
def Command.Lawful (T : DataType → Prop) : Command → Prop
  | .beginFunction _ returns => returns = .void ∨ T returns
  | _ => True

theorem works_perform (hT : ∀ type, type.isStorable = true → T type) {command : Command}
    (hlawful : command.Lawful T) (hreturns : e.scope.Returns T) :
    Works T (perform command) ⟨{}, e⟩ done := by
  cases command with
  | initProgram name =>
    rw [perform]
    exact .finish (works_changeScope (Scope.keeps_initProgram name)
      fun _ hopened hreturns => hreturns.initProgram hopened)
  | setType type =>
    rw [perform]
    refine .finish (works_changeScope (Scope.keeps_setType type) fun scope hset hreturns => ?_)
    obtain ⟨_, rfl⟩ := EStateM.Result.ok.inj hset
    exact hreturns
  | declareVariable name => exact works_declareVariable name
  | assign name => exact works_assign name
  | write => exact works_write
  | read name => exact works_read name
  | pushVariable name =>
    exact .bind (works_lookup name) fun _ _ => .finish (works_pushOperand rfl)
  | pushLiteral v => exact .finish (works_pushOperand (by cases v <;> rfl))
  | pushString literal => exact works_pushString literal
  | negateLiteral => exact works_negateLiteral
  | pushOperator text => exact .finish (works_modify rfl rfl rfl id)
  | openParen => exact .finish (works_modify rfl rfl rfl id)
  | closeParen => exact .finish works_closeParen
  | generateAdditive => exact works_generateAmong hT _
  | generateMultiplicative => exact works_generateAmong hT _
  | generateRelational => exact works_generateRelational hT
  | enterIf => exact .finish (works_modify rfl rfl rfl id)
  | enterWhile => exact .look (.finish (works_modify rfl rfl rfl id))
  | leaveHeader => exact works_leaveHeader
  | enterElse => exact works_enterElse
  | endIf => exact works_endIf
  | endWhile => exact works_endWhile
  | beginFunction name returns => exact works_beginFunction hlawful
  | addParameter name type => exact works_addParameter name type
  | endFunction => exact works_endFunction
  | markMain => exact works_markMain
  | giveBack => exact works_giveBack
  | beginCall name => exact works_beginCall name
  | argument => exact works_argument
  | endCall => exact .bind (works_endCall hreturns) fun _ _ => works_pure _
  | discardResult => exact works_discardResult
  | finish => exact .bind (works_emit (List.nil_subset _) rfl) fun _ _ => .finish (works_pure _)

theorem edits_perform (hT : ∀ type, type.isStorable = true → T type) {command : Command}
    (hlawful : command.Lawful T) {e' : Emitter} (hreturns : e.scope.Returns T)
    (hrun : (perform command).run e = .ok () e') :
    Edits T ⟨{}, e⟩ ⟨{ settling := true }, e'⟩ := by
  have hworks := works_perform hT hlawful hreturns
  simpa only [Works, hrun] using hworks

theorem edits_after (hT : ∀ type, type.isStorable = true → T type) {command : Command}
    (hlawful : command.Lawful T) (hreturns : e.scope.Returns T) :
    ∃ g, Edits T ⟨{}, e⟩ ⟨g, after e command⟩ := by
  have hworks := works_perform hT hlawful hreturns
  simp only [Works] at hworks
  rw [after]
  cases hrun : (perform command).run e with
  | ok a e' =>
    rw [hrun] at hworks
    exact ⟨_, hworks⟩
  | error cause e' =>
    rw [hrun] at hworks
    exact hworks

end Emitter

end DuckLang
