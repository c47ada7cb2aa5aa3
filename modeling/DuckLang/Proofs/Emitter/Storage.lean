import DuckLang.Proofs.Emitter.Changes
import DuckLang.Proofs.Emitter.Declaration
import DuckLang.Proofs.Emitter.Temporaries

/-! Where names are stored.  Every name has an address of its own in the range of its type: those of
a scope are handed out one after the other, and only the scope that is current or the program ever
gets another.  The parameters of a function are among its names, in their order. -/

namespace DuckLang

/-! ### Addresses handed out -/

namespace Allocator

variable {a a' : Allocator} {segment : Segment} {type : DataType} {address : Int}

theorem alloc_ok (h : a.alloc segment type = .ok address a') :
    type.isStorable = true ∧ a.used segment type < Address.rangeSize ∧
      address = Address.low segment type + a.used segment type ∧
      a' = a.setSegment segment ((a.segment segment).set type (a.used segment type + 1)) := by
  simp only [alloc] at h
  split at h
  · cases h
  · rename_i hstorable
    split at h
    · cases h
    · obtain ⟨haddress, ha'⟩ := EStateM.Result.ok.inj h
      exact ⟨by simpa using hstorable, by omega, haddress.symm, ha'.symm⟩

theorem used_setSegment (h : type.isStorable = true) (n : Nat) (segment' : Segment)
    (type' : DataType) :
    (a.setSegment segment ((a.segment segment).set type n)).used segment' type' =
      if segment' = segment ∧ type' = type then n else a.used segment' type' := by
  cases segment <;> cases segment' <;> cases type <;> cases type' <;>
    first | rfl | cases h

theorem used_alloc (h : a.alloc segment type = .ok address a') :
    a'.used segment type = a.used segment type + 1 ∧
      ∀ segment' type', a.used segment' type' ≤ a'.used segment' type' := by
  obtain ⟨hstorable, _, _, rfl⟩ := alloc_ok h
  refine ⟨by rw [used_setSegment hstorable, if_pos ⟨rfl, rfl⟩], fun segment' type' => ?_⟩
  rw [used_setSegment hstorable]
  split
  · rename_i heq
    rw [heq.1, heq.2]
    omega
  · exact Nat.le_refl _

/-- No range is used beyond its slots. -/
def Within (a : Allocator) : Prop :=
  ∀ segment type, a.used segment type ≤ Address.rangeSize

theorem within_empty : Within {} := by
  intro segment type
  cases segment <;> cases type <;> exact Nat.zero_le _

theorem Within.alloc (h : a.Within) (hok : a.alloc segment type = .ok address a') :
    a'.Within := by
  obtain ⟨hstorable, hroom, _, rfl⟩ := alloc_ok hok
  intro segment' type'
  rw [used_setSegment hstorable]
  split
  · omega
  · exact h segment' type'

theorem Within.resetLocals (h : a.Within) : a.resetLocals.Within := by
  intro segment type
  have hold := h segment type
  cases segment with
  | locals => cases type <;> exact Nat.zero_le _
  | globals | temporaries | constants => exact hold

end Allocator

namespace Symbol

variable {symbol : Symbol} {segment : Segment} {a a' : Allocator}

/-- A name whose address lies in a segment, in the range of its type. -/
def Placed (symbol : Symbol) (segment : Segment) : Prop :=
  ∃ offset, Address.place? symbol.address = some { segment, type := symbol.type, offset }

/-- A name whose address was handed out of a segment for its type. -/
def Stored (symbol : Symbol) (segment : Segment) (a : Allocator) : Prop :=
  ∃ n, n < a.used segment symbol.type ∧
    Address.place? symbol.address = some { segment, type := symbol.type, offset := n }

theorem Stored.placed (h : symbol.Stored segment a) : symbol.Placed segment := by
  obtain ⟨n, _, hplace⟩ := h
  exact ⟨n, hplace⟩

theorem Stored.mono (h : symbol.Stored segment a)
    (hle : a.used segment symbol.type ≤ a'.used segment symbol.type) :
    symbol.Stored segment a' := by
  obtain ⟨n, hlt, hplace⟩ := h
  exact ⟨n, by omega, hplace⟩

/-- A name at the address that is handed out next. -/
theorem stored_alloc (h : a.alloc segment symbol.type = .ok symbol.address a') :
    symbol.Stored segment a' := by
  obtain ⟨hstorable, hlt, haddress, _⟩ := Allocator.alloc_ok h
  refine ⟨a.used segment symbol.type, ?_, ?_⟩
  · rw [(Allocator.used_alloc h).1]
    omega
  · rw [haddress]
    exact Address.place?_low hstorable hlt

/-- The address handed out next is that of no name stored so far. -/
theorem Stored.address_ne (h : symbol.Stored segment a) {type : DataType} {address : Int}
    (halloc : a.alloc segment type = .ok address a') : symbol.address ≠ address := by
  intro heq
  obtain ⟨n, hlt, hplace⟩ := h
  obtain ⟨hstorable, hroom, haddress, _⟩ := Allocator.alloc_ok halloc
  rw [heq, haddress, Address.place?_low hstorable hroom] at hplace
  simp only [Option.some.injEq, Address.Place.mk.injEq, true_and] at hplace
  obtain ⟨htype, hoffset⟩ := hplace
  rw [htype] at hoffset
  omega

end Symbol

/-! ### Entries -/

namespace Scope.Entry

variable {entry : Scope.Entry} {segment segment' : Segment} {a a' : Allocator} {symbol : Symbol}

/-- An entry whose names lie in a segment, each at its own address, its parameters among them. -/
structure Orderly (entry : Scope.Entry) (segment : Segment) : Prop where
  placed : ∀ symbol ∈ entry.symbols, symbol.Placed segment
  distinct : (entry.symbols.map (·.address)).Nodup
  params : entry.params.Sublist entry.symbols

theorem Orderly.empty {name : String} {returns : DataType} {isProgram : Bool} :
    Orderly { name, returns, isProgram } segment :=
  ⟨by simp, by simp, .slnil⟩

/-- The parameters of an entry have addresses of their own. -/
theorem Orderly.params_nodup (h : entry.Orderly segment) :
    (entry.params.map (·.address)).Nodup :=
  h.distinct.sublist (h.params.map _)

/-- An entry with a name more, at the address handed out next. -/
theorem Orderly.add (h : entry.Orderly segment')
    (hstored : ∀ symbol ∈ entry.symbols, symbol.Stored segment a)
    (halloc : a.alloc segment symbol.type = .ok symbol.address a') {params : List Symbol}
    (hparams : params.Sublist (entry.symbols ++ [symbol])) :
    Orderly { entry with symbols := entry.symbols ++ [symbol], params } segment where
  placed := by
    intro symbol' hmem
    rcases List.mem_append.mp hmem with hold | hnew
    · exact (hstored symbol' hold).placed
    · rw [List.mem_singleton.mp hnew]
      exact (Symbol.stored_alloc halloc).placed
  distinct := by
    simp only [List.map_append, List.map_cons, List.map_nil]
    refine List.nodup_append.mpr ⟨h.distinct, by simp, ?_⟩
    intro address hold address' hnew
    obtain ⟨symbol', hsymbol', rfl⟩ := List.mem_map.mp hold
    rw [List.mem_singleton.mp hnew]
    exact (hstored symbol' hsymbol').address_ne halloc
  params := hparams

/-- What is stored stays so, and so is the name added. -/
theorem stored_add (hstored : ∀ symbol ∈ entry.symbols, symbol.Stored segment a)
    (halloc : a.alloc segment symbol.type = .ok symbol.address a') :
    ∀ symbol' ∈ entry.symbols ++ [symbol], symbol'.Stored segment a' := by
  intro symbol' hmem
  rcases List.mem_append.mp hmem with hold | hnew
  · exact (hstored symbol' hold).mono ((Allocator.used_alloc halloc).2 _ _)
  · rw [List.mem_singleton.mp hnew]
    exact Symbol.stored_alloc halloc

end Scope.Entry

/-- A scope each of whose entries is orderly, in the one or the other segment of names. -/
def Scope.Orderly (s : Scope) : Prop :=
  ∀ name entry, s.entryOf? name = some entry →
    ∃ segment, (segment = .globals ∨ segment = .locals) ∧ entry.Orderly segment

/-! ### Storages -/

namespace Emitter.Storage

variable {s s' : Storage}

/-- A storage whose names have addresses of their own, and whose free temporaries are in order. -/
structure Sound (s : Storage) : Prop where
  temps : s.temps.Orderly
  entries : s.scope.Orderly
  globals : ∀ {entry : Scope.Entry}, s.scope.entryOf? s.scope.program = some entry →
    ∀ symbol ∈ entry.symbols, symbol.Stored .globals s.allocator
  locals : s.scope.current ≠ s.scope.program → ∀ {entry : Scope.Entry},
    s.scope.entryOf? s.scope.current = some entry →
    ∀ symbol ∈ entry.symbols, symbol.Stored .locals s.allocator

theorem Sound.empty : Sound (Emitter.storage {}) where
  temps := .empty
  entries _ _ h := by cases h
  globals h := by cases h
  locals _ _ h := by cases h

/-- The segment that the names of the current scope go to. -/
theorem Sound.current (h : s.Sound) {entry : Scope.Entry}
    (hentry : s.scope.currentScope? = some entry) :
    ∀ symbol ∈ entry.symbols,
      symbol.Stored (if s.scope.inGlobal then .globals else .locals) s.allocator := by
  by_cases hcurrent : s.scope.current = s.scope.program
  · rw [if_pos (show s.scope.inGlobal = true by simpa [Scope.inGlobal] using hcurrent)]
    refine h.globals ?_
    rw [← hcurrent]
    exact hentry
  · rw [if_neg (show ¬s.scope.inGlobal = true by simpa [Scope.inGlobal] using hcurrent)]
    exact h.locals hcurrent hentry

/-- A storage with its current entry replaced by one with a name more. -/
theorem Sound.put (h : s.Sound) {entry : Scope.Entry} (symbol : Symbol) {params : List Symbol}
    {a' : Allocator} (hentry : s.scope.currentScope? = some entry)
    (halloc : s.allocator.alloc (if s.scope.inGlobal then .globals else .locals) symbol.type =
      .ok symbol.address a')
    (hparams : params.Sublist (entry.symbols ++ [symbol])) :
    Sound { s with
      scope := s.scope.put { entry with symbols := entry.symbols ++ [symbol], params }
      allocator := a' } := by
  have hname : entry.name = s.scope.current := Scope.entryOf?_name hentry
  obtain ⟨segment', _, horderly⟩ := h.entries _ _ hentry
  have hstored := h.current hentry
  have hadded := Scope.Entry.stored_add hstored halloc
  have hused := (Allocator.used_alloc halloc).2
  refine ⟨h.temps, ?_, ?_, ?_⟩
  · intro name found hfound
    rw [Scope.entryOf?_put] at hfound
    split at hfound
    · obtain rfl := Option.some.inj hfound
      refine ⟨if s.scope.inGlobal then .globals else .locals, ?_,
        horderly.add hstored halloc hparams⟩
      split
      · exact .inl rfl
      · exact .inr rfl
    · exact h.entries _ _ hfound
  · intro found hfound
    change Scope.entryOf? (s.scope.put _) s.scope.program = some found at hfound
    rw [Scope.entryOf?_put] at hfound
    split at hfound
    · rename_i hprogram
      obtain rfl := Option.some.inj hfound
      have hglobal : s.scope.inGlobal = true := by
        simpa [Scope.inGlobal, hname] using hprogram.symm
      rwa [if_pos hglobal] at hadded
    · exact fun symbol' hsymbol' => (h.globals hfound symbol' hsymbol').mono (hused _ _)
  · intro hcurrent found hfound
    change Scope.entryOf? (s.scope.put _) s.scope.current = some found at hfound
    rw [Scope.entryOf?_put, if_pos hname.symm] at hfound
    obtain rfl := Option.some.inj hfound
    have hne : ¬s.scope.current = s.scope.program := hcurrent
    have hlocal : ¬s.scope.inGlobal = true := by simpa [Scope.inGlobal] using hne
    rwa [if_neg hlocal] at hadded

theorem Sound.initProgram (h : s.Sound) {name : String} {scope : Scope}
    (hopened : s.scope.initProgram name = .ok () scope) : Sound { s with scope } := by
  obtain ⟨_, rfl⟩ := Scope.initProgram_ok hopened
  have hentry : ∀ other, Scope.entryOf?
      { s.scope with
        program := name, entries := Scope.putEntry { name, isProgram := true } s.scope.entries,
        current := name } other =
      if other = name then some { name, isProgram := true } else s.scope.entryOf? other :=
    Scope.find?_putEntry _ _
  refine ⟨h.temps, ?_, ?_, fun hne => absurd rfl hne⟩
  · intro other found hfound
    rw [hentry] at hfound
    split at hfound
    · obtain rfl := Option.some.inj hfound
      exact ⟨.globals, .inl rfl, .empty⟩
    · exact h.entries _ _ hfound
  · intro found hfound
    rw [hentry, if_pos rfl] at hfound
    obtain rfl := Option.some.inj hfound
    simp

theorem Sound.beginFunction (h : s.Sound) {name : String} {returns : DataType} {scope : Scope}
    (hbegun : s.scope.beginFunction name returns = .ok () scope) :
    Sound { s with scope, allocator := s.allocator.resetLocals } := by
  obtain ⟨_, hprogram, hnone, rfl⟩ := Scope.beginFunction_ok hbegun
  have hentry : ∀ other, Scope.entryOf?
      { s.scope with entries := s.scope.entries ++ [{ name, returns }], current := name } other =
      if other = name then some { name, returns } else s.scope.entryOf? other :=
    fun other => @Scope.entryOf?_append s.scope { name, returns } other hnone
  refine ⟨h.temps, ?_, ?_, ?_⟩
  · intro other found hfound
    rw [hentry] at hfound
    split at hfound
    · obtain rfl := Option.some.inj hfound
      exact ⟨.locals, .inr rfl, .empty⟩
    · exact h.entries _ _ hfound
  · intro found hfound
    rw [hentry, if_neg (Ne.symm hprogram)] at hfound
    exact h.globals hfound
  · intro _ found hfound
    rw [hentry, if_pos rfl] at hfound
    obtain rfl := Option.some.inj hfound
    simp

theorem Sound.change (h : s.Sound) (hchange : Change s s') : s'.Sound := by
  cases hchange with
  | mint => exact ⟨h.temps.alloc, h.entries, h.globals, h.locals⟩
  | release id => exact ⟨h.temps.release id, h.entries, h.globals, h.locals⟩
  | initProgram opened => exact h.initProgram opened
  | setType type => exact ⟨h.temps, h.entries, h.globals, h.locals⟩
  | beginFunction begun => exact h.beginFunction begun
  | endFunction => exact ⟨h.temps, h.entries, h.globals, fun hne => absurd rfl hne⟩
  | waste handed =>
    have hused := (Allocator.used_alloc handed).2
    exact ⟨h.temps, h.entries,
      fun hfound symbol hsymbol => (h.globals hfound symbol hsymbol).mono (hused _ _),
      fun hne _ hfound symbol hsymbol => (h.locals hne hfound symbol hsymbol).mono (hused _ _)⟩
  | @declare name address a' scope handed declared =>
    obtain ⟨type, entry, htype, hentry, rfl⟩ := Scope.addVariable_ok declared
    obtain ⟨_, _, horderly⟩ := h.entries _ _ hentry
    rw [show s.scope.declaredType = type by simp [Scope.declaredType, htype]] at handed
    exact h.put { name, type, address, origin := .variable } hentry handed
      (horderly.params.trans (List.sublist_append_left _ _))
  | @parameter name type address a' scope handed declared =>
    obtain ⟨hlocal, entry, hentry, rfl⟩ := Scope.addParameter_ok declared
    obtain ⟨_, _, horderly⟩ := h.entries _ _ hentry
    refine h.put { name, type, address, origin := .parameter } hentry ?_
      (horderly.params.append (List.Sublist.refl _))
    rwa [hlocal]

theorem Sound.changes (h : s.Sound) (hchanges : Changes s s') : s'.Sound := by
  induction hchanges with
  | refl => exact h
  | tail _ hchange ih => exact ih.change hchange

/-- What was minted counts as minted from then on. -/
theorem next_le_of_changes (h : Changes s s') : s.temps.next ≤ s'.temps.next := by
  induction h with
  | refl => exact Nat.le_refl _
  | tail _ hchange ih =>
    refine Nat.le_trans ih ?_
    cases hchange with
    | mint => exact TempPool.next_le_alloc _
    | release => exact Nat.le_of_eq (TempPool.next_without (.temporary _ .int)).symm
    | _ => exact Nat.le_refl _

theorem within_of_changes (h : Changes s s') (hs : s.allocator.Within) : s'.allocator.Within := by
  induction h with
  | refl => exact hs
  | tail _ hchange ih =>
    cases hchange with
    | beginFunction => exact ih.resetLocals
    | waste handed => exact ih.alloc handed
    | declare handed _ => exact ih.alloc handed
    | parameter handed _ => exact ih.alloc handed
    | _ => exact ih

end Emitter.Storage

open Emitter

/-- The storage of an emitter that has gone through operations. -/
theorem Emitter.storage_sound (commands : List Command) :
    (commands.foldl after {}).storage.Sound :=
  Storage.Sound.empty.changes (changes_commands commands {})

/-- The storage of the emitter of a parse. -/
theorem Parser.storage_sound (table : Table) (fuel : Nat) (tokens : List Token) :
    (run table fuel (.start tokens)).parser.emitter.storage.Sound :=
  Storage.Sound.empty.changes (changes_run table fuel (.start tokens))

end DuckLang
