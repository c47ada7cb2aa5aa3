import DuckLang.Proofs.Llvm.Functions

/-! Modules are well formed.  Functions are cut out of a program in the order of their entries, one
behind the other; and what one of them calls is declared or defined in the module, under a name of
its own. -/

namespace DuckLang

/-- A directory that lists each function once, under its own name. -/
structure Directory.Named (d : Directory) : Prop where
  keys : (d.map (·.1)).Nodup
  names : ∀ entry ∈ d, entry.2.name = entry.1

namespace Llvm

variable {p : Program} {r : Range} {f : Function} {m : Module}

theorem Instruction.Fits.mono {known known' : Callee → Prop} {arity : Callee → Nat}
    {i : Instruction} (h : i.Fits known arity) (hknown : ∀ callee, known callee → known' callee) :
    i.Fits known' arity := by
  cases i with
  | call id callee arguments => exact ⟨hknown callee h.1, h.2⟩
  | _ => trivial

/-- A function that is made is well formed in a module that defines what the program calls. -/
theorem function_wellFormed (hp : ∀ entry ∈ p.functions, entry.2.name = entry.1)
    (hr : r.Within p) (hf : Lowering.function p r = .ok f)
    (hknown : ∀ callee, Known p callee → callee ∈ m.signatures) : f.WellFormed m Callee.arity := by
  unfold Lowering.function at hf
  split at hf
  · cases hf
  · rename_i result s hrun
    obtain ⟨hvalid, hended⟩ := Lowering.run_body hp hr hrun
    cases hf
    constructor
    · have hnames := hvalid.labels.map Label.render_injective
      rwa [Lowering.labels, List.map_map] at hnames
    · exact hvalid.registers
    · intro b hb
      have hsound := hvalid.blocks b hb
      exact ⟨hsound.uses, fun i hi => (hsound.fits i hi).mono hknown⟩
    · intro b hb
      cases ht : b.terminator with
      | some t => exact ⟨t, rfl, hvalid.ends b hb t ht⟩
      | none =>
        refine absurd (List.mem_map.mpr ⟨b, Array.mem_toList_iff.mpr hb, ?_⟩) (hended b.label)
        rw [ht]
        rfl

theorem callee_function (hf : Lowering.function p r = .ok f) : f.callee = calleeOf r.function := by
  unfold Lowering.function at hf
  split at hf
  · cases hf
  · cases hf
    simp only [Function.callee, calleeOf]
    split <;> rfl

/-! ### Ranges -/

/-- A range ends where the next one begins, the last one where the program ends. -/
theorem cons_of_rangesOf {size : Nat} {g : FunctionInfo} {rest : List FunctionInfo}
    {ranges : List Range} (h : rangesOf size (g :: rest) = .ok ranges) :
    0 ≤ g.entry ∧ g.entry ≤ size ∧ ∃ tail, rangesOf size rest = .ok tail ∧
      ranges = { function := g
                 start := g.entry.toNat
                 stop := ((rest.head?.map FunctionInfo.entry).getD size).toNat } :: tail := by
  cases rest with
  | nil | cons next rest =>
    rw [rangesOf.eq_def] at h
    dsimp only at h
    split at h
    · cases h
    · split at h
      · cases h
      · obtain ⟨tail, hrest, rfl⟩ := Grammar.map_eq_ok.mp h
        exact ⟨by omega, by omega, tail, hrest, rfl⟩

/-- The functions of ranges in the order of their entries, each within the program. -/
theorem rangesOf_ok {size : Nat} {functions : List FunctionInfo} {ranges : List Range}
    (hsorted : functions.Pairwise fun f g => f.entry ≤ g.entry)
    (h : rangesOf size functions = .ok ranges) :
    ranges.map (·.function) = functions ∧ ∀ r ∈ ranges, r.start ≤ r.stop ∧ r.stop ≤ size := by
  induction functions generalizing ranges with
  | nil =>
    obtain rfl := Except.ok.inj h
    exact ⟨rfl, by simp⟩
  | cons g rest ih =>
    obtain ⟨hfirst, hsorted⟩ := List.pairwise_cons.mp hsorted
    obtain ⟨hpos, hsize, tail, hrest, rfl⟩ := cons_of_rangesOf h
    obtain ⟨hfunctions, hranges⟩ := ih hsorted hrest
    refine ⟨by simp [hfunctions], List.forall_mem_cons.mpr ⟨?_, hranges⟩⟩
    cases rest with
    | nil =>
      simp only [List.head?_nil, Option.map_none, Option.getD_none]
      omega
    | cons next rest =>
      -- the next range was checked as well, so it begins within the program
      have hle := hfirst next List.mem_cons_self
      obtain ⟨_, hnext, _⟩ := cons_of_rangesOf hrest
      simp only [List.head?_cons, Option.map_some, Option.getD_some]
      omega

/-! ### Names -/

/-- The functions that become those of a module: the ones that are listed, and the main body. -/
def listed (p : Program) : List FunctionInfo :=
  match p.functions.get? mainName with
  | some _ => p.functions.map (·.2)
  | none => p.functions.map (·.2) ++ [{ name := mainName, entry := 0 }]

theorem names_listed (hp : p.functions.Named) : ((listed p).map (·.name)).Nodup := by
  have hnames : (p.functions.map (·.2)).map (·.name) = p.functions.map (·.1) := by
    rw [List.map_map]
    exact List.map_congr_left hp.names
  unfold listed
  split
  · rw [hnames]
    exact hp.keys
  · rename_i hnone
    rw [List.map_append, hnames]
    refine List.nodup_append.mpr ⟨hp.keys, List.nodup_singleton _, ?_⟩
    rintro a ha b hb rfl
    obtain rfl : a = mainName := List.mem_singleton.mp hb
    obtain ⟨entry, hentry, hkey⟩ := List.mem_map.mp ha
    have hother := List.find?_eq_none.mp (Option.map_eq_none_iff.mp hnone) entry hentry
    exact hother (by simpa using hkey)

theorem splitFunctions_ok {ranges : List Range} (h : splitFunctions p = .ok ranges) :
    (ranges.map (·.function)).Perm (listed p) ∧ ∀ r ∈ ranges, r.Within p := by
  have hsorted : ((listed p).mergeSort fun f g => f.entry ≤ g.entry).Pairwise
      fun f g => decide (f.entry ≤ g.entry) = true := by
    apply List.pairwise_mergeSort
    · simp only [decide_eq_true_eq]
      omega
    · simp only [Bool.or_eq_true, decide_eq_true_eq]
      omega
  obtain ⟨hfunctions, hwithin⟩ := rangesOf_ok (hsorted.imp of_decide_eq_true) h
  exact ⟨hfunctions ▸ List.mergeSort_perm _ _, fun r hr => ⟨(hwithin r hr).1, (hwithin r hr).2⟩⟩

theorem name_calleeOf (f : FunctionInfo) :
    (calleeOf f).name.toList =
      if f.name = mainName then ['m', 'a', 'i', 'n']
      else 'd' :: 'u' :: 'c' :: 'k' :: '.' :: f.name.toList := by
  unfold calleeOf
  split
  · rfl
  · simp only [String.toList_append]
    rfl

theorem name_calleeOf_injective {f g : FunctionInfo}
    (h : (calleeOf f).name = (calleeOf g).name) : f.name = g.name := by
  have hchars := congrArg String.toList h
  rw [name_calleeOf, name_calleeOf] at hchars
  split at hchars <;> split at hchars <;> simp_all [String.toList_inj]

theorem name_calleeOf_not_declared (f : FunctionInfo) {d : Declaration} (hd : d ∈ declarations) :
    d.callee.name ≠ (calleeOf f).name := by
  intro h
  have hchars := congrArg String.toList h
  rw [name_calleeOf] at hchars
  simp only [declarations, List.mem_cons, List.not_mem_nil, or_false] at hd
  rcases hd with rfl | rfl | rfl | rfl <;> split at hchars <;> cases hchars

theorem forall₂_of_mapM {α β ε : Type} {g : α → Except ε β} {l : List α} {results : List β}
    (h : l.mapM g = .ok results) : List.Forall₂ (fun a b => g a = .ok b) l results := by
  induction l generalizing results with
  | nil =>
    obtain rfl : [] = results := Except.ok.inj h
    exact .nil
  | cons a l ih =>
    rw [List.mapM_cons] at h
    cases ha : g a with
    | error e =>
      rw [ha] at h
      cases h
    | ok b =>
      rw [ha] at h
      cases hl : l.mapM g with
      | error e =>
        rw [hl] at h
        cases h
      | ok bs =>
        rw [hl] at h
        obtain rfl : b :: bs = results := Except.ok.inj h
        exact .cons ha (ih hl)

theorem moduleOf_ok (h : moduleOf p = .ok m) :
    ∃ ranges, splitFunctions p = .ok ranges ∧
      List.Forall₂ (fun r f => Lowering.function p r = .ok f) ranges m.functions ∧
      m.signatures =
        declarations.map (·.callee) ++ (ranges.map (·.function)).map calleeOf := by
  unfold moduleOf at h
  cases hsplit : splitFunctions p with
  | error e =>
    rw [hsplit] at h
    cases h
  | ok ranges =>
    rw [hsplit] at h
    cases hmap : ranges.mapM (Lowering.function p) with
    | error e =>
      simp only [bind, Except.bind, hmap] at h
      cases h
    | ok functions =>
      simp only [bind, Except.bind, hmap] at h
      obtain rfl := Except.ok.inj h
      have hfunctions := forall₂_of_mapM hmap
      refine ⟨ranges, rfl, hfunctions, ?_⟩
      have hcallees : functions.map Function.callee =
          (ranges.map (·.function)).map calleeOf := by
        rw [← List.forall₂_eq_eq_eq, List.map_map, List.forall₂_map_left_iff,
          List.forall₂_map_right_iff]
        exact hfunctions.flip.imp fun f r hf => callee_function hf
      rw [Module.signatures, hcallees]

theorem names_signatures (hp : p.functions.Named) {functions : List FunctionInfo}
    (hperm : functions.Perm (listed p)) :
    ((declarations.map (·.callee) ++ functions.map calleeOf).map Callee.name).Nodup := by
  have hnames : (functions.map (·.name)).Nodup := (hperm.map _).nodup_iff.mpr (names_listed hp)
  rw [List.map_append, List.nodup_append]
  refine ⟨by decide, ?_, ?_⟩
  · rw [List.map_map]
    refine List.pairwise_map.mpr ((List.pairwise_map.mp hnames).imp fun hne heq => hne ?_)
    exact name_calleeOf_injective heq
  · intro a ha b hb
    obtain ⟨d, hd, rfl⟩ := List.mem_map.mp (List.map_map ▸ ha)
    obtain ⟨f, _, rfl⟩ := List.mem_map.mp (List.map_map ▸ hb)
    exact name_calleeOf_not_declared f hd

theorem mem_listed {f : FunctionInfo} (hf : f ∈ p.functions.map (·.2)) : f ∈ listed p := by
  unfold listed
  split
  · exact hf
  · exact List.mem_append_left _ hf

/-- A program that lists its functions under their names has a well-formed module: every block of a
function ends and leads to blocks of the function, which are told apart; an instruction works on
what came before it in its block, in the entry or, behind a division, in the block that was cut; and
a call passes as many arguments as its function takes. -/
theorem module_wellFormed (hp : p.functions.Named) (hm : moduleOf p = .ok m) :
    m.WellFormed Callee.arity := by
  obtain ⟨ranges, hsplit, hfunctions, hsignatures⟩ := moduleOf_ok hm
  obtain ⟨hperm, hwithin⟩ := splitFunctions_ok hsplit
  have hknown : ∀ callee, Known p callee → callee ∈ m.signatures := by
    rintro callee (hdeclared | ⟨f, hf, _, rfl⟩)
    · rw [hsignatures]
      exact List.mem_append_left _ hdeclared
    · rw [hsignatures]
      exact List.mem_append_right _ (List.mem_map_of_mem (hperm.mem_iff.mpr (mem_listed hf)))
  constructor
  · rw [hsignatures]
    exact names_signatures hp hperm
  · intro f hf
    rw [← List.map_snd_zip (Nat.le_of_eq hfunctions.length_eq.symm)] at hf
    obtain ⟨⟨r, f⟩, hmem, rfl⟩ := List.mem_map.mp hf
    have hmade := (List.forall₂_iff_zip.mp hfunctions).2 hmem
    exact function_wellFormed hp.names (hwithin r (List.of_mem_zip hmem).1) hmade hknown

/-- A program with a function that halves its argument. -/
def halves : Program where
  name := "p"
  quads := #[
    { op := .arith .div, left := .address 7000 .int, right := .intLiteral 2,
      result := .temporary 0 .int },
    { op := .giveBack, left := .empty, right := .empty, result := .temporary 0 .int },
    { op := .endFunction, left := .empty, right := .empty, result := .empty },
    { op := .announce, left := .empty, right := .empty, result := .function "half" },
    { op := .param, left := .intLiteral 7, right := .empty, result := .address 7000 .int },
    { op := .call, left := .function "half", right := .empty, result := .temporary 0 .int },
    { op := .write, left := .empty, right := .empty, result := .temporary 0 .int },
    { op := .halt, left := .empty, right := .empty, result := .empty }]
  functions := [
    ("half", { name := "half", entry := 0, returns := .int, params := [⟨.int, 7000⟩] }),
    ("main", { name := "main", entry := 3 })]
  constants := []
  strings := []
  globals := {}

theorem splitFunctions_halves : splitFunctions halves = .ok
    [{ function := { name := "half", entry := 0, returns := .int, params := [⟨.int, 7000⟩] }
       start := 0
       stop := 3 },
     { function := { name := "main", entry := 3 }, start := 3, stop := 8 }] := by
  have hsorted : (halves.functions.map (·.2)).mergeSort (fun f g => f.entry ≤ g.entry) =
      halves.functions.map (·.2) := List.mergeSort_of_pairwise (by decide)
  show rangesOf 8 ((halves.functions.map (·.2)).mergeSort fun f g => f.entry ≤ g.entry) = _
  rw [hsorted]
  rfl

/-- The division is cut in two and brings up the block that reports a zero. -/
theorem module_wellFormed_halves : ∃ m, moduleOf halves = .ok m ∧ m.WellFormed Callee.arity ∧
    (m.functions.map fun f => f.blocks.toList.map (·.label)) =
      [[.entry, .quad 0, .quad 1, .quad 2, .exit, .quotient 0, .zeroDivisor],
       [.entry, .quad 3, .quad 4, .quad 5, .quad 6, .quad 7, .exit]] := by
  have hlabels : (moduleOf halves).map
      (fun m => m.functions.map fun f => f.blocks.toList.map (·.label)) = .ok
      [[.entry, .quad 0, .quad 1, .quad 2, .exit, .quotient 0, .zeroDivisor],
       [.entry, .quad 3, .quad 4, .quad 5, .quad 6, .quad 7, .exit]] := by
    rw [moduleOf, splitFunctions_halves]
    decide +kernel
  obtain ⟨m, hm, hlabels⟩ := Grammar.map_eq_ok.mp hlabels
  exact ⟨m, hm, module_wellFormed ⟨by decide, by decide⟩ hm, hlabels⟩

/-- A program that writes a number. -/
def writesOne : Program where
  name := "p"
  quads := #[
    { op := .write, left := .empty, right := .empty, result := .intLiteral 1 },
    { op := .halt, left := .empty, right := .empty, result := .empty }]
  functions := [("main", { name := "main", entry := 0 })]
  constants := []
  strings := []
  globals := {}

/-- The numbers of arguments that calls pass and that their functions declare. -/
def Module.passed (m : Module) : List (Nat × Nat) :=
  m.functions.flatMap fun f => f.blocks.toList.flatMap fun b =>
    b.instructions.toList.filterMap fun
      | .call _ callee arguments => some (arguments.length, callee.params.length)
      | _ => none

/-- The call that writes a number passes one argument more than its function declares. -/
theorem writesOne_passes_more : writesOne.functions.Named ∧ ∃ m, moduleOf writesOne = .ok m ∧
    ¬m.WellFormed (·.params.length) := by
  have hpassed : (moduleOf writesOne).map Module.passed = .ok [(2, 1)] := by
    decide +kernel
  obtain ⟨m, hm, hpassed⟩ := Grammar.map_eq_ok.mp hpassed
  refine ⟨⟨by decide, by decide⟩, m, hm, fun hwell => ?_⟩
  have hmem : (2, 1) ∈ m.passed := by simp [hpassed]
  obtain ⟨f, hf, hmem⟩ := List.mem_flatMap.mp hmem
  obtain ⟨b, hb, hmem⟩ := List.mem_flatMap.mp hmem
  obtain ⟨i, hi, hcall⟩ := List.mem_filterMap.mp hmem
  have hfits := ((hwell.functions f hf).blocks b (Array.mem_toList_iff.mp hb)).fits i
    (Array.mem_toList_iff.mp hi)
  cases i with
  | call id callee arguments =>
    obtain ⟨hpasses, hdeclares⟩ := Prod.mk.inj (Option.some.inj hcall)
    have hsame : arguments.length = callee.params.length := hfits.2
    omega
  | _ => cases hcall

end Llvm

end DuckLang
