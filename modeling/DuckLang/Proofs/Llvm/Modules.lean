import DuckLang.Proofs.Llvm.Ranges

/-! Modules of programs.  What is laid out reads and writes where there is a slot, jumps within its
function and calls what the directory lists, so every function of an outlined program is made. -/

namespace DuckLang.Llvm

open Emitter Lowering

variable {p : Program} {s : Scope} {points : List Point}

/-- A program laid out along points, whose globals and temporaries have their slots. -/
structure Sited (p : Program) (s : Scope) (points : List Point) : Prop where
  laidOut : p.LaidOut s points
  globals : ∀ {entry : Scope.Entry}, s.entryOf? s.program = some entry → ∀ symbol ∈ entry.symbols,
    ∃ place, Address.place? symbol.address = some place ∧ place.offset < globalSize p place.type
  temps : p.PlacesTemps

/-! ### Operands -/

theorem globalSize_eq {c : Counts} {type : DataType} (hglobals : p.globals = .ofCounts c)
    (hpos : 0 < c.get type) (hle : c.get type ≤ Address.rangeSize) :
    globalSize p type = c.get type := by
  have hget : p.globals.get type = c.get type := by
    rw [hglobals]
    cases type <;> rfl
  rw [Address.rangeSize] at hle
  simp only [globalSize, hget, sizeLimit]
  rw [if_neg (by omega)]
  omega

/-- A variable that a function sees is located. -/
theorem Sited.visible (hp : Sited p s points) {function : String} {address : Int} {type : DataType}
    (h : s.Visible function address type) : Located p (.address address type) := by
  obtain ⟨opened, hnames⟩ := hp.laidOut.names
  obtain ⟨owner, entry, symbol, _, hentry, hsymbol, rfl, _⟩ := h
  obtain ⟨place, hplace, hsegment⟩ := (hnames.entries hentry).placed symbol hsymbol
  refine ⟨_, place, rfl, hplace, ?_, fun hglobal => ?_⟩
  · rw [hsegment, Scope.segmentOf]
    split <;> simp
  · by_cases howner : owner = s.program
    · obtain ⟨place', hplace', hlt⟩ := hp.globals (howner ▸ hentry) symbol hsymbol
      obtain rfl := Option.some.inj (hplace.symm.trans hplace')
      exact hlt
    · rw [hsegment, Scope.segmentOf, if_neg howner] at hglobal
      cases hglobal

theorem Sited.temporary (hp : Sited p s points) {q : Quad} (hq : q ∈ p.quads) {id : Int}
    {type : DataType} (h : .temporary id type ∈ q.operands) : Located p (.temporary id type) := by
  obtain ⟨address, offset, htarget, hplace⟩ :=
    hp.temps q hq _ h (id, type) (by simp [Operand.temps])
  exact ⟨address, _, htarget, hplace, by simp, by simp⟩

variable {temps : Nat} {P P' : Point} {q : Quad} {operand : Operand} {r : Range}

theorem Sited.loadable (hp : Sited p s points) (hq : q ∈ p.quads)
    (h : Readable { scope := s, strings := p.strings.length, temps } P operand)
    (hown : operand ∈ q.operands) (hnoted : operand ∈ noted p r) :
    Loadable p (start p r).sizes operand := by
  cases operand with
  | intLiteral | floatLiteral | charLiteral => exact .inl rfl
  | address location type => exact .inr ⟨rfl, (hp.visible h).writable hnoted⟩
  | temporary id type => exact .inr ⟨rfl, (hp.temporary hq hown).writable hnoted⟩
  | _ => exact h.elim

theorem Sited.assignable (hp : Sited p s points)
    (h : Assignable { scope := s, strings := p.strings.length, temps } P operand)
    (hnoted : operand ∈ noted p r) : Writable p (start p r).sizes operand := by
  obtain ⟨location, type, rfl, hvisible⟩ := h
  exact (hp.visible hvisible).writable hnoted

theorem exists_target (h : Target points P operand) (hresolved : operand.isPending = false) :
    ∃ target, operand = .jump target := by
  cases operand with
  | jump target => exact ⟨target, rfl⟩
  | pending => cases hresolved
  | _ => exact h.elim

/-- A function that can be called is listed with the signature that callers know. -/
theorem Sited.callable (hp : Sited p s points) {name : String} (h : s.Callable name) :
    ∃ f, p.functions.get? name = some f ∧ name ≠ mainName ∧ Signed s.signature? name f := by
  obtain ⟨opened, hnames⟩ := hp.laidOut.names
  obtain ⟨entry, hentry⟩ := Option.isSome_iff_exists.mp h.1
  obtain ⟨f, hf, hdescribes⟩ := hnames.functions hentry h.2
  refine ⟨f, hf, ?_, ?_, ?_⟩
  · rintro rfl
    rw [hnames.reserved] at hentry
    cases hentry
  · rw [Scope.signature?, hentry, hdescribes.params, hdescribes.returns]
    rfl
  · rw [hdescribes.gives, hdescribes.returns]

/-! ### Quadruples -/

/-- A quadruple of a range has what it needs. -/
theorem Sited.lowerable (hp : Sited p s points) (hq : q ∈ p.quads)
    (hflows : Flows { scope := s, strings := p.strings.length, temps } points P q P')
    (hnoted : ∀ operand ∈ ownOperands q, operand ∈ noted p r)
    (hjumps : q.op.isJump = true → ∀ target, q.result = .jump target →
      r.start ≤ target ∧ target ≤ r.stop) :
    Lowerable s.signature? p (start p r).sizes r q := by
  have hresolved := hp.laidOut.resolved q hq
  have hleft : q.left ∈ q.operands := by simp [Quad.operands]
  have hright : q.right ∈ q.operands := by simp [Quad.operands]
  have hresult : q.result ∈ q.operands := by simp [Quad.operands]
  -- all operands but the result of a parameter copy count
  have hown : q.op ≠ .param → ∀ operand ∈ q.operands, operand ∈ noted p r := by
    intro hop
    rw [ownOperands, if_neg hop] at hnoted
    exact hnoted
  obtain ⟨op, left, right, result⟩ := q
  cases op with
  | arith op | rel op =>
    obtain ⟨hl, hr, id, type, rfl, _⟩ := hflows
    have hown := hown (by simp)
    exact ⟨hp.loadable hq hl hleft (hown _ hleft), hp.loadable hq hr hright (hown _ hright),
      (hp.temporary hq hresult).writable (hown _ hresult)⟩
  | assign =>
    obtain ⟨hl, hassignable, _⟩ := hflows
    have hown := hown (by simp)
    exact ⟨hp.loadable hq hl hleft (hown _ hleft), hp.assignable hassignable (hown _ hresult)⟩
  | goto =>
    obtain ⟨target, htarget⟩ := exists_target hflows.2 hresolved
    exact ⟨target, htarget, hjumps rfl target htarget⟩
  | gotoFalse =>
    obtain ⟨hl, _, hgoal, _⟩ := hflows
    obtain ⟨target, htarget⟩ := exists_target hgoal hresolved
    exact ⟨hp.loadable hq hl hleft (hown (by simp) _ hleft), target, htarget,
      hjumps rfl target htarget⟩
  | write =>
    exact hflows.1.imp_left fun h => hp.loadable hq h hresult (hown (by simp) _ hresult)
  | read => exact hp.assignable hflows.1 (hown (by simp) _ hresult)
  | announce =>
    obtain ⟨name, hname, hcallable, _⟩ := hflows
    obtain ⟨f, hf⟩ := hp.callable hcallable
    exact ⟨name, f, hname, hf⟩
  | param =>
    obtain ⟨_, _, _, _, _, _, _, hl, _⟩ := hflows
    exact hp.loadable hq hl hleft (hnoted _ (by simp [ownOperands]))
  | call =>
    obtain ⟨c, calls, entry, _, _, _, ⟨_, hempty, _⟩ | ⟨_, id, rfl, _⟩⟩ := hflows
    · exact .inl hempty
    · exact .inr ((hp.temporary hq hresult).writable (hown (by simp) _ hresult))
  | giveBack => exact hp.loadable hq hflows.1 hresult (hown (by simp) _ hresult)
  | endFunction | halt => trivial
  | unknown code => exact hflows.elim

/-! ### Modules -/

variable {lead : List Quad} {parts : List Part} {part : Part}

theorem Sited.function (hp : Sited p s points) (h : Outline s.signature? p lead parts)
    (hpart : part ∈ parts) : ∃ f, Lowering.function p (rangeOf part) = .ok f := by
  obtain ⟨hsound, hcode⟩ := h.sound hpart
  obtain ⟨temps, _, hlaid⟩ := hp.laidOut.laid
  refine function_ok hcode ?_ ?_ hsound.staged
  · intro param hparam
    obtain ⟨place, hplace, hsegment⟩ := hsound.params param hparam
    exact ⟨_, place, rfl, hplace, by simp [hsegment], by simp [hsegment]⟩
  · intro q hq
    have hmem : q ∈ p.quads := by
      rw [← Array.mem_toList_iff, h.quads]
      exact List.mem_append_right _ (List.mem_flatMap_of_mem hpart hq)
    obtain ⟨i, hi⟩ := Array.mem_iff_getElem?.mp hmem
    obtain ⟨P, P', _, _, hflows⟩ := hlaid.flows hi
    refine hp.lowerable hmem hflows (fun operand hown => ?_) (hsound.jumps q hq)
    rw [← List.zipIdx_map_fst (rangeOf part).start part.code] at hq
    obtain ⟨entry, hentry, rfl⟩ := List.mem_map.mp hq
    rw [noted, hcode]
    exact List.mem_append_right _ (List.mem_flatMap_of_mem hentry hown)

theorem mapM_ok {α β ε : Type} {f : α → Except ε β} {l : List α} (h : ∀ a ∈ l, ∃ b, f a = .ok b) :
    ∃ bs, l.mapM f = .ok bs := by
  induction l with
  | nil => exact ⟨[], rfl⟩
  | cons a l ih =>
    obtain ⟨hfirst, hrest⟩ := List.forall_mem_cons.mp h
    obtain ⟨b, hb⟩ := hfirst
    obtain ⟨bs, hbs⟩ := ih hrest
    rw [List.mapM_cons, hb]
    exact ⟨b :: bs, by simp [bind, Except.bind, hbs, pure, Except.pure]⟩

/-- A program whose functions lie in a line and whose operands have their slots has a module. -/
theorem Sited.module (hp : Sited p s points) (h : Outline s.signature? p lead parts) :
    ∃ module, moduleOf p = .ok module := by
  have hranges : ∀ r ∈ parts.map rangeOf, ∃ f, Lowering.function p r = .ok f := by
    intro r hr
    obtain ⟨part, hpart, rfl⟩ := List.mem_map.mp hr
    exact hp.function h hpart
  obtain ⟨functions, hfunctions⟩ := mapM_ok hranges
  simp only [moduleOf, h.splitFunctions, bind, Except.bind, hfunctions]
  exact ⟨_, rfl⟩

end DuckLang.Llvm
