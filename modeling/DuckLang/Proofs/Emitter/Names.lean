import DuckLang.Proofs.Emitter.Layout

/-! The names of a program while it is compiled.  Scope and directory agree on every function, its
parameters and where its code starts; every address lies in the segment of the scope that declares
it. -/

namespace DuckLang

/-! ### Directories and entries -/

theorem Directory.get?_set (d : Directory) (name other : String) (f : FunctionInfo) :
    (d.set name f).get? other = if other = name then some f else d.get? other := by
  induction d with
  | nil =>
    by_cases h : other = name
    · simp [Directory.set, Directory.get?, h]
    · simp [Directory.set, Directory.get?, h, Ne.symm h]
  | cons entry rest ih =>
    simp only [Directory.set]
    split
    · rename_i hname
      by_cases h : other = name
      · simp [Directory.get?, h]
      · simp [Directory.get?, h, Ne.symm h, hname]
    · rename_i hname
      by_cases h : entry.1 = other
      · have hne : other ≠ name := fun heq => hname (h.trans heq)
        simp [Directory.get?, h, hne]
      · simp only [Directory.get?, List.find?_cons, h, decide_false] at ih ⊢
        exact ih

namespace Scope

/-- A scope with an entry put in, in the place of that with its name if there is one. -/
def put (s : Scope) (entry : Entry) : Scope :=
  { s with entries := putEntry entry s.entries }

theorem find?_putEntry (entry : Entry) (entries : List Entry) (name : String) :
    (putEntry entry entries).find? (·.name = name) =
      if name = entry.name then some entry else entries.find? (·.name = name) := by
  induction entries with
  | nil =>
    by_cases h : name = entry.name
    · simp [putEntry, h]
    · simp [putEntry, h, Ne.symm h]
  | cons x xs ih =>
    simp only [putEntry]
    split
    · rename_i hx
      by_cases h : name = entry.name
      · simp [h]
      · simp [h, Ne.symm h, hx]
    · rename_i hx
      by_cases h : x.name = name
      · have hne : name ≠ entry.name := fun heq => hx (h.trans heq)
        simp [h, hne]
      · simp only [List.find?_cons, h, decide_false]
        exact ih

theorem entryOf?_put (s : Scope) (entry : Entry) (name : String) :
    Scope.entryOf? (s.put entry) name = if name = entry.name then some entry else s.entryOf? name :=
  find?_putEntry entry s.entries name

theorem entryOf?_name {s : Scope} {name : String} {entry : Entry}
    (h : s.entryOf? name = some entry) : entry.name = name := by
  simpa using List.find?_some h

theorem entryOf?_append {s : Scope} {entry : Entry} {name : String}
    (h : s.entryOf? entry.name = none) :
    Scope.entryOf? { s with entries := s.entries ++ [entry] } name =
      if name = entry.name then some entry else s.entryOf? name := by
  simp only [entryOf?, List.find?_append] at h ⊢
  by_cases hname : name = entry.name
  · subst hname
    simp [h]
  · simp [hname, Ne.symm hname]

/-- The segment that the names of an entry lie in. -/
def segmentOf (s : Scope) (name : String) : Segment :=
  if name = s.program then .globals else .locals

end Scope

/-- An address that lies in a segment. -/
def Address.In (segment : Segment) (address : Int) : Prop :=
  ∃ place, Address.place? address = some place ∧ place.segment = segment

/-- An entry whose addresses lie in a segment and whose parameters are declared as such. -/
structure Scope.Entry.Sound (entry : Scope.Entry) (segment : Segment) : Prop where
  placed : ∀ symbol ∈ entry.symbols, Address.In segment symbol.address
  listed : ∀ symbol ∈ entry.symbols, symbol.origin = .parameter → symbol ∈ entry.params
  declared : ∀ symbol ∈ entry.params, symbol ∈ entry.symbols
  returns : entry.returns = .void ∨ entry.returns.isStorable = true

theorem Scope.extends_put {s : Scope} {entry entry' : Scope.Entry}
    (hentry : s.entryOf? entry'.name = some entry)
    (hsymbols : entry.symbols ⊆ entry'.symbols) (hreturns : entry'.returns = entry.returns) :
    (s.put entry').Extends s where
  program := rfl
  entry := by
    intro name found hfound
    rw [Scope.entryOf?_put]
    split
    · rename_i hname
      subst hname
      obtain rfl := Option.some.inj (hentry.symm.trans hfound)
      exact ⟨entry', rfl, hsymbols, hreturns⟩
    · exact ⟨found, hfound, List.Subset.refl _, rfl⟩

theorem Scope.extends_begin {s : Scope} {entry : Scope.Entry} {current : String}
    (hfree : s.entryOf? entry.name = none) :
    Scope.Extends { s with entries := s.entries ++ [entry], current } s where
  program := rfl
  entry := by
    intro name found hfound
    have hentry : Scope.entryOf? { s with entries := s.entries ++ [entry], current } name =
        if name = entry.name then some entry else s.entryOf? name := Scope.entryOf?_append hfree
    refine ⟨found, ?_, List.Subset.refl _, rfl⟩
    rw [hentry, if_neg, hfound]
    rintro rfl
    rw [hfree] at hfound
    cases hfound

theorem Address.range_low {segment : Segment} {type : DataType} (h : type.isStorable = true) :
    ∃ k < 12, Address.rangeAt k = (segment, type) ∧
      Address.low segment type = Address.base + k * Address.rangeSize := by
  refine ⟨segment.index * 3 + type.code, ?_, ?_, by simp [Address.low]⟩
  · cases type <;> cases segment <;> first | decide | cases h
  · cases type <;> cases segment <;> first | rfl | cases h

/-- The place of an address given by its range and its offset there. -/
theorem Address.place?_low {segment : Segment} {type : DataType} (h : type.isStorable = true)
    {n : Nat} (hn : n < Address.rangeSize) :
    Address.place? (Address.low segment type + n) = some { segment, type, offset := n } := by
  obtain ⟨k, hk, hrange, hlow⟩ := @Address.range_low segment type h
  simp only [Address.rangeSize] at hn hlow
  have hdistance : (Address.base + k * (2000 : Nat) + n - Address.base).toNat = 2000 * k + n := by
    omega
  rw [Address.place?, hlow, if_pos, hdistance]
  · have hdiv : (2000 * k + n) / Address.rangeSize = k := by
      simp only [Address.rangeSize]
      omega
    have hmod : (2000 * k + n) % Address.rangeSize = n := by
      simp only [Address.rangeSize]
      omega
    simp only [hdiv, hmod, hrange]
  · simp only [Address.limit, Address.rangeSize]
    omega

/-- An address that an allocator hands out lies in its segment. -/
theorem Allocator.alloc_in {a a' : Allocator} {segment : Segment} {type : DataType} {address : Int}
    (h : a.alloc segment type = .ok address a') : Address.In segment address := by
  simp only [Allocator.alloc] at h
  split at h
  · cases h
  · rename_i hstorable
    split at h
    · cases h
    · rename_i hlt
      obtain ⟨rfl, _⟩ := EStateM.Result.ok.inj h
      exact ⟨_, Address.place?_low (by simpa using hstorable) (by omega), rfl⟩

namespace FunctionInfo

variable (f : FunctionInfo) (param : Param)

@[simp] theorem addParam_name : (f.addParam param).name = f.name := rfl

@[simp] theorem addParam_params : (f.addParam param).params = f.params ++ [param] := rfl

@[simp] theorem addParam_paramCount : (f.addParam param).paramCount = f.paramCount + 1 := rfl

end FunctionInfo

namespace Emitter

/-- What the directory says of a function is what its entry says, and its code starts at rest. -/
structure Describes (points : List Point) (entry : Scope.Entry) (info : FunctionInfo) : Prop where
  name : info.name = entry.name
  returns : info.returns = entry.returns
  gives : info.hasReturn = decide (entry.returns ≠ .void)
  params : info.params = entry.params.map fun p => { type := p.type, address := p.address }
  count : info.paramCount = entry.params.length
  start : ∃ k : Nat, info.entry = k ∧ points[k]? = some (.resting entry.name)

/-- Names that agree with each other, where `opened` is the function being read. -/
structure Names (s : Scope) (d : Directory) (opened : Option Body) (points : List Point) :
    Prop where
  named : s.program ≠ ""
  home : (s.entryOf? s.program).isSome
  reserved : s.entryOf? mainName = none
  current : s.current = (opened.map (·.info.name)).getD s.program
  declaring : ∀ type ∈ s.declaring, type.isStorable = true
  entries : ∀ {name : String} {entry : Scope.Entry}, s.entryOf? name = some entry →
    entry.Sound (s.segmentOf name)
  functions : ∀ {name : String} {entry : Scope.Entry}, s.entryOf? name = some entry →
    name ≠ s.program → ∃ info, d.get? name = some info ∧ Describes points entry info
  main : ∀ info ∈ d.get? mainName, ∃ k : Nat, info = { name := mainName, entry := k } ∧
    points[k]? = some (.resting mainName)
  body : ∀ b ∈ opened, b.isListed = true ∧ d.get? b.info.name = some b.info ∧
    s.Callable b.info.name

variable {s : Scope} {d d' : Directory} {opened opened' : Option Body} {points points' : List Point}

theorem Describes.keep {entry : Scope.Entry} {info : FunctionInfo}
    (h : Describes points entry info)
    (hpoints : ∀ (k : Nat) (function : String), points[k]? = some (.resting function) →
      points'[k]? = some (.resting function)) : Describes points' entry info := by
  obtain ⟨k, hk, hrest⟩ := h.start
  exact { h with start := ⟨k, hk, hpoints k _ hrest⟩ }

/-- The names stay as they are while code is laid out. -/
theorem Names.keep (h : Names s d opened points)
    (hpoints : ∀ (k : Nat) (function : String), points[k]? = some (.resting function) →
      points'[k]? = some (.resting function)) : Names s d opened points' where
  named := h.named
  home := h.home
  reserved := h.reserved
  current := h.current
  declaring := h.declaring
  entries := h.entries
  functions hentry hne := by
    obtain ⟨info, hinfo, hdescribes⟩ := h.functions hentry hne
    exact ⟨info, hinfo, hdescribes.keep hpoints⟩
  main info hinfo := by
    obtain ⟨k, rfl, hrest⟩ := h.main info hinfo
    exact ⟨k, rfl, hpoints k _ hrest⟩
  body := h.body

theorem Names.setType (h : Names s d opened points) {type : DataType}
    (htype : type.isStorable = true) : Names (s.setType type) d opened points where
  named := h.named
  home := h.home
  reserved := h.reserved
  current := h.current
  declaring := by
    intro type' htype'
    rwa [← Option.some.inj htype']
  entries := h.entries
  functions := h.functions
  main := h.main
  body := h.body

/-- An entry replaced by one that says more, with the directory saying the same of it. -/
theorem Names.put (h : Names s d opened points) {entry entry' : Scope.Entry}
    (hentry : s.entryOf? entry'.name = some entry)
    (hsound : entry'.Sound (s.segmentOf entry'.name))
    (hlisted : entry'.name ≠ s.program →
      ∃ info, d'.get? entry'.name = some info ∧ Describes points entry' info)
    (hothers : ∀ name, name ≠ entry'.name → d'.get? name = d.get? name)
    (hcurrent : opened'.map (·.info.name) = opened.map (·.info.name))
    (hbody : ∀ b ∈ opened', b.isListed = true ∧ d'.get? b.info.name = some b.info) :
    Names (s.put entry') d' opened' points where
  named := h.named
  home := by
    rw [Scope.entryOf?_put]
    split
    · rfl
    · exact h.home
  reserved := by
    rw [Scope.entryOf?_put, if_neg, h.reserved]
    intro hmain
    rw [← hmain, h.reserved] at hentry
    cases hentry
  current := by
    rw [hcurrent]
    exact h.current
  declaring := h.declaring
  entries := by
    intro name found hfound
    rw [Scope.entryOf?_put] at hfound
    split at hfound
    · rename_i hname
      obtain rfl := Option.some.inj hfound
      rw [hname]
      exact hsound
    · exact h.entries hfound
  functions := by
    intro name found hfound hne
    rw [Scope.entryOf?_put] at hfound
    split at hfound
    · rename_i hname
      obtain rfl := Option.some.inj hfound
      subst hname
      exact hlisted hne
    · rename_i hname
      rw [hothers name hname]
      exact h.functions hfound hne
  main := by
    intro info hinfo
    rw [hothers] at hinfo
    · exact h.main info hinfo
    · intro hmain
      rw [← hmain, h.reserved] at hentry
      cases hentry
  body := by
    intro b hb
    obtain ⟨hisListed, hget⟩ := hbody b hb
    refine ⟨hisListed, hget, ?_⟩
    obtain ⟨b₀, hb₀, hname⟩ : ∃ b₀ ∈ opened, b₀.info.name = b.info.name := by
      have hmap : opened.map (·.info.name) = some b.info.name := by
        rw [← hcurrent, hb]
        rfl
      exact Option.map_eq_some_iff.mp hmap
    obtain ⟨_, _, hsome, hne⟩ := h.body b₀ hb₀
    rw [hname] at hsome hne
    refine ⟨?_, hne⟩
    rw [Scope.entryOf?_put]
    split
    · rfl
    · exact hsome

/-- The names once a function is opened. -/
theorem Names.begin (h : Names s d none points) {name : String} {returns : DataType} {k : Nat}
    (hfree : s.entryOf? name = none) (hprogram : name ≠ s.program) (hmain : name ≠ mainName)
    (hreturns : returns = .void ∨ returns.isStorable = true)
    (hstart : points'[k]? = some (.resting name)) (hunmarked : d.get? mainName = none)
    (hpoints : ∀ {other : String} {info : FunctionInfo}, s.Callable other →
      d.get? other = some info → ∀ k : Nat, info.entry = k → points'[k]? = points[k]?) :
    Names { s with entries := s.entries ++ [{ name, returns }], current := name }
      (d.set name { name, entry := k, returns })
      (some { info := { name, entry := k, returns }, isListed := true }) points' := by
  have hentry : ∀ other, Scope.entryOf?
      { s with entries := s.entries ++ [{ name, returns }], current := name } other =
        if other = name then some { name, returns } else s.entryOf? other := by
    intro other
    exact @Scope.entryOf?_append s { name, returns } other hfree
  refine ⟨h.named, ?_, ?_, rfl, h.declaring, ?_, ?_, ?_, ?_⟩
  · rw [hentry, if_neg (Ne.symm hprogram)]
    exact h.home
  · rw [hentry, if_neg (Ne.symm hmain)]
    exact h.reserved
  · intro other found hfound
    rw [hentry] at hfound
    split at hfound
    · obtain rfl := Option.some.inj hfound
      exact ⟨by simp, by simp, by simp, hreturns⟩
    · exact h.entries hfound
  · intro other found hfound hne
    rw [hentry] at hfound
    rw [Directory.get?_set]
    split at hfound
    · rename_i hother
      obtain rfl := Option.some.inj hfound
      exact ⟨_, by rw [if_pos hother], rfl, rfl, rfl, rfl, rfl, k, rfl, hstart⟩
    · rename_i hother
      obtain ⟨info, hinfo, hdescribes⟩ := h.functions hfound hne
      obtain ⟨j, hj, hrest⟩ := hdescribes.start
      refine ⟨info, by rw [if_neg hother, hinfo], { hdescribes with start := ⟨j, hj, ?_⟩ }⟩
      rw [hpoints ⟨by simp [hfound], hne⟩ hinfo j hj, hrest]
  · intro info hinfo
    rw [Directory.get?_set, if_neg (Ne.symm hmain), hunmarked] at hinfo
    cases hinfo
  · rintro b hb
    obtain rfl := Option.some.inj hb
    refine ⟨rfl, by rw [Directory.get?_set, if_pos rfl], ?_, hprogram⟩
    rw [hentry, if_pos rfl]
    rfl

theorem Names.finish (h : Names s d opened points) : Names s.endFunction d none points where
  named := h.named
  home := h.home
  reserved := h.reserved
  current := rfl
  declaring := h.declaring
  entries := h.entries
  functions := h.functions
  main := h.main
  body := by simp

theorem Names.markMain (h : Names s d none points) {k : Nat}
    (hstart : points[k]? = some (.resting mainName)) :
    Names s (d.set mainName { name := mainName, entry := k }) none points where
  named := h.named
  home := h.home
  reserved := h.reserved
  current := h.current
  declaring := h.declaring
  entries := h.entries
  functions := by
    intro name entry hentry hne
    rw [Directory.get?_set, if_neg]
    · exact h.functions hentry hne
    · rintro rfl
      rw [h.reserved] at hentry
      cases hentry
  main := by
    intro info hinfo
    rw [Directory.get?_set, if_pos rfl] at hinfo
    obtain rfl := Option.some.inj hinfo
    exact ⟨k, rfl, hstart⟩
  body := by simp

end Emitter

end DuckLang
