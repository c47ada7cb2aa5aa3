import DuckLang.Proofs.Source.Piece

/-! Code on its way.  `Replay` tells of the code of expressions, quadruple by quadruple, which formula
each temporary holds and which calls have been announced and made. -/

namespace DuckLang

/-- What is known on the way through code: the temporaries, the calls that are announced, innermost
first, and the calls that were made. -/
structure Replay where
  temps : Int → DataType → Option Formula
  announced : List Invocation
  made : List Invocation

namespace Replay

def read? (r : Replay) : Operand → Option Formula
  | .temporary id type => r.temps id type
  | .address address _ => some (.var address r.made.length)
  | operand => operand.literal?.map .constant

def write (r : Replay) (id : Int) (type : DataType) (f : Formula) : Replay :=
  { r with temps := fun id' type' => if id' = id ∧ type' = type then some f else r.temps id' type' }

def operate (r : Replay) (op : Operation) (q : Quad) : Option Replay :=
  match r.read? q.left, r.read? q.right, q.result with
  | some x, some y, .temporary id type => some (r.write id type (.binary op x y))
  | _, _, _ => none

/-- What a quadruple does, so long as it is one of those that expressions are made into. -/
def step (r : Replay) (q : Quad) : Option Replay :=
  match q.op with
  | .arith op => r.operate (.arith op) q
  | .rel op => r.operate (.rel op) q
  | .announce => some { r with announced := { function := q.result.functionName } :: r.announced }
  | .param =>
    match r.announced, r.read? q.left, q.result with
    | call :: calls, some x, .address slot _ =>
      some { r with announced := { call with slots := call.slots ++ [(slot, x)] } :: calls }
    | _, _, _ => none
  | .call =>
    match r.announced, q.result with
    | call :: calls, .temporary id type =>
      if call.function = q.left.functionName then
        some { r.write id type (.result r.made.length) with
          announced := calls, made := r.made ++ [call] }
      else none
    | _, _ => none
  | _ => none

def run (r : Replay) (quads : List Quad) : Option Replay :=
  quads.foldlM step r

def start : Replay :=
  { temps := fun _ _ => none, announced := [], made := [] }

variable {r r₁ r₂ : Replay} {q : Quad}

/-- What a quadruple does, by its operation. -/
inductive Moves (r : Replay) (q : Quad) : Replay → Prop
  | operate {op : Operation} {x y : Formula} {id : Int} {type : DataType}
      (op_eq : q.op = .ofOperator op.operator) (left : r.read? q.left = some x)
      (right : r.read? q.right = some y) (result : q.result = .temporary id type) :
      Moves r q (r.write id type (.binary op x y))
  | announce (op_eq : q.op = .announce) :
      Moves r q { r with announced := { function := q.result.functionName } :: r.announced }
  | param {call : Invocation} {calls : List Invocation} {x : Formula} {slot : Int}
      {type : DataType} (op_eq : q.op = .param) (announced : r.announced = call :: calls)
      (argument : r.read? q.left = some x) (result : q.result = .address slot type) :
      Moves r q { r with announced := { call with slots := call.slots ++ [(slot, x)] } :: calls }
  | call {call : Invocation} {calls : List Invocation} {id : Int} {type : DataType}
      (op_eq : q.op = .call) (announced : r.announced = call :: calls)
      (named : call.function = q.left.functionName)
      (result : q.result = .temporary id type) :
      Moves r q { r.write id type (.result r.made.length) with
        announced := calls, made := r.made ++ [call] }

theorem moves_operate (op : Operation) (hop : q.op = .ofOperator op.operator)
    (h : r.operate op q = some r₁) : r.Moves q r₁ := by
  simp only [operate] at h
  split at h
  · rename_i x y id type hleft hright hresult
    exact Option.some.inj h ▸ .operate hop hleft hright hresult
  · cases h

theorem moves (h : r.step q = some r₁) : r.Moves q r₁ := by
  simp only [step] at h
  split at h
  case h_1 op hop => exact moves_operate (.arith op) hop h
  case h_2 op hop => exact moves_operate (.rel op) hop h
  case h_3 hop => exact Option.some.inj h ▸ .announce hop
  case h_4 hop =>
    split at h
    · rename_i call calls x slot type hannounced hread hresult
      exact Option.some.inj h ▸ .param hop hannounced hread hresult
    · cases h
  case h_5 hop =>
    split at h
    · rename_i call calls id type hannounced hresult
      split at h
      · rename_i hname
        exact Option.some.inj h ▸ .call hop hannounced hname hresult
      · cases h
    · cases h
  case h_6 => cases h

theorem step_operation (op : Operation) (left right : Operand) (id : Int) (type : DataType)
    {x y : Formula} (hleft : r.read? left = some x) (hright : r.read? right = some y) :
    r.step { op := .ofOperator op.operator, left, right, result := .temporary id type } =
      some (r.write id type (.binary op x y)) := by
  cases op <;> simp only [step, operate, Opcode.ofOperator, Operation.operator, hleft, hright]

theorem temps_write_ne {id id' : Int} (h : id' ≠ id) (type type' : DataType) (f : Formula) :
    (r.write id type f).temps id' type' = r.temps id' type' := by
  simp [write, h]

theorem temps_write_self (id : Int) (type : DataType) (f : Formula) :
    (r.write id type f).temps id type = some f := by
  simp [write]

/-- Only the quadruples of expressions are passed, so no jump is. -/
theorem no_jump_of_run {quads : List Quad} (h : r.run quads = some r₁) :
    ∀ q ∈ quads, q.op ≠ .gotoFalse := by
  induction quads generalizing r with
  | nil => simp
  | cons q quads ih =>
    obtain ⟨r', hstep, hrest⟩ := Option.bind_eq_some_iff.mp (List.foldlM_cons.symm.trans h)
    refine List.forall_mem_cons.mpr ⟨fun hop => ?_, ih hrest⟩
    simp [step, hop] at hstep

/-- Code on whose way nothing changes of the temporaries in use. -/
structure Passes (pool : TempPool) (r : Replay) (quads : List Quad) (r' : Replay) : Prop where
  run : r.run quads = some r'
  spares : ∀ id type, pool.IsLive id → r'.temps id type = r.temps id type

namespace Passes

variable {pool pool' : TempPool} {xs ys : List Quad}

theorem nil (pool : TempPool) (r : Replay) : Passes pool r [] r :=
  ⟨rfl, fun _ _ _ => rfl⟩

theorem single (hstep : r.step q = some r₁)
    (hspares : ∀ id type, pool.IsLive id → r₁.temps id type = r.temps id type) :
    Passes pool r [q] r₁ :=
  ⟨by simp [Replay.run, hstep], hspares⟩

theorem append (h : Passes pool r xs r₁) (h' : Passes pool' r₁ ys r₂)
    (hlive : ∀ {id}, pool.IsLive id → pool'.IsLive id) : Passes pool r (xs ++ ys) r₂ where
  run := by
    have hrun := h.run
    have hrun' := h'.run
    simp only [Replay.run] at hrun hrun' ⊢
    simp [List.foldlM_append, hrun, hrun']
  spares id type hid := (h'.spares id type (hlive hid)).trans (h.spares id type hid)

end Passes

/-- An operand in which something stands: a variable in its own place, all else in a literal or in a
temporary. -/
inductive Holds (r : Replay) : Operand → Standing → Prop
  | var (address : Int) (type : DataType) : Holds r (.address address type) (.var address)
  | constant {operand : Operand} {v : Value} (literal : operand.literal? = some v) :
      Holds r operand (.known (.constant v))
  | temporary {id : Int} {type : DataType} {f : Formula} (held : r.temps id type = some f) :
      Holds r (.temporary id type) (.known f)

theorem Holds.read {operand : Operand} {x : Standing} (h : r.Holds operand x) :
    r.read? operand = some (x.read r.made.length) := by
  cases h with
  | var address type => rfl
  | constant literal => cases operand <;> cases literal <;> rfl
  | temporary held => exact held

/-- What stands in an operand stays there while its temporary is in use. -/
theorem Holds.pass {operand : Operand} {x : Standing} (h : r.Holds operand x) {pool : TempPool}
    {quads : List Quad} (hpass : Passes pool r quads r₁)
    (hlive : ∀ {id}, operand.id? = some id → pool.IsLive id) : r₁.Holds operand x := by
  cases h with
  | var address type => exact .var address type
  | constant literal => exact .constant literal
  | temporary held => exact .temporary ((hpass.spares _ _ (hlive rfl)).trans held)

end Replay

end DuckLang
