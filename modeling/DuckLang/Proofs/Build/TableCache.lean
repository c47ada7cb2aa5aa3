import DuckLang.Build
import DuckLang.Proofs.Duck.Follow
import DuckLang.Proofs.Parser.Integrity

/-! The table cache.  A history of loads through one cache, with files edited in between, leaves in
the cache a table that was made for one of the projects loaded before, its owner.  As long as the
owner's grammar has not been written since, the table is still the one made for it; whether it is
the one for the project that is loaded next depends on what the two projects ask for. -/

namespace DuckLang

/-! ### Finding files -/

namespace FileTree

variable {files files' : FileTree} {spot : List String} {content : Content} {path : String}
  {e : Entry}

theorem lookup_setEntry (spot k : List String) (e : Entry) (entries : List (List String × Entry)) :
    (setEntry spot e entries).lookup k = if k = spot then some e else entries.lookup k := by
  induction entries with
  | nil =>
    by_cases hk : k = spot
    · simp [setEntry, hk]
    · simp [setEntry, List.lookup_cons, beq_eq_false_iff_ne.mpr hk, hk]
  | cons entry entries ih =>
    obtain ⟨spot', e'⟩ := entry
    by_cases hspot : spot' = spot
    · by_cases hk : k = spot
      · simp [setEntry, hspot, hk]
      · simp [setEntry, List.lookup_cons, hspot, hk, beq_eq_false_iff_ne.mpr hk]
    · by_cases hk : k = spot'
      · subst hk
        simp [setEntry, hspot]
      · simp [setEntry, List.lookup_cons, hspot, beq_eq_false_iff_ne.mpr hk, ih]

theorem entryAt?_store (k : List String) (hk : k ≠ []) :
    FileTree.entryAt? (files.store spot content) k =
      if k = spot then some { content, modified := files.clock } else files.entryAt? k := by
  simp [entryAt?, hk, store, lookup_setEntry]

theorem entryAt?_of_walk {above below : List String} (h : files.walk above below = .ok e) :
    files.entryAt? (above ++ below) = some e := by
  induction below generalizing above with
  | nil =>
    simp only [walk] at h
    cases hentry : files.entryAt? above with
    | none =>
      rw [hentry] at h
      cases h
    | some d =>
      rw [hentry] at h
      cases h
      rw [List.append_nil, hentry]
  | cons name below ih =>
    simp only [walk] at h
    split at h
    · cases h
    · split at h
      · simpa using ih h
      · cases h

theorem entryAt?_of_find (h : files.find path = .ok e) : files.entryAt? (place path) = some e :=
  entryAt?_of_walk h

/-- A walk through files with something stored that is no directory ends at it or does not meet
it. -/
theorem walk_store (hcontent : content ≠ .directory) {above below : List String}
    (h : (files.store spot content).walk above below = .ok e) :
    above ++ below = spot ∧ e = { content, modified := files.clock } ∨
      files.walk above below = .ok e := by
  have hcases : ∀ k d, FileTree.entryAt? (files.store spot content) k = some d →
      k = spot ∧ d = { content, modified := files.clock } ∨ files.entryAt? k = some d := by
    intro k d hd
    by_cases hk : k = []
    · subst hk
      exact .inr hd
    · rw [entryAt?_store k hk] at hd
      split at hd
      · exact .inl ⟨‹_›, (Option.some.inj hd).symm⟩
      · exact .inr hd
  induction below generalizing above with
  | nil =>
    have hlast := entryAt?_of_walk h
    rw [List.append_nil] at hlast
    rcases hcases above e hlast with ⟨rfl, rfl⟩ | hentry
    · exact .inl ⟨List.append_nil _, rfl⟩
    · exact .inr (by simp [walk, hentry])
  | cons name below ih =>
    simp only [walk] at h
    split at h
    · cases h
    · rename_i d hd
      split at h
      · rename_i hdirectory
        rcases hcases above d hd with ⟨-, rfl⟩ | hentry
        · cases content <;> simp_all [Entry.isDirectory]
        · rcases ih h with ⟨hspot, he⟩ | hwalk
          · exact .inl ⟨by simpa using hspot, he⟩
          · exact .inr (by simpa [walk, hentry, hdirectory] using hwalk)
      · cases h

theorem find_store (hcontent : content ≠ .directory)
    (h : (files.store spot content).find path = .ok e) :
    place path = spot ∧ e = { content, modified := files.clock } ∨ files.find path = .ok e :=
  walk_store hcontent h

/-- At its own place there is what was stored, unless that place is the root. -/
theorem find_store_self (h : (files.store (place path) content).find path = .ok e) :
    e = { content, modified := files.clock } ∨ e.isDirectory = true := by
  have hentry := entryAt?_of_find h
  by_cases hroot : place path = []
  · simp only [entryAt?, hroot, if_true, Option.some.injEq] at hentry
    subst hentry
    exact .inr rfl
  · rw [entryAt?_store _ hroot, if_pos rfl] at hentry
    exact .inl (Option.some.inj hentry).symm

theorem write_eq_store (h : files.write path content = .ok files') :
    files' = files.store (place path) content := by
  simp only [write] at h
  repeat' split at h
  all_goals first | exact (Except.ok.inj h).symm | cases h

theorem isDirectory_of_write_error {f : Failure} (h : files.write path content = .error f)
    (he : files.find path = .ok e) : e.isDirectory = true := by
  simp only [write, he] at h
  split at h
  · assumption
  · cases h

/-- Files with nothing less in them than before. -/
structure Grows (files files' : FileTree) : Prop where
  entries : ∀ spot e, files.entryAt? spot = some e → files'.entryAt? spot = some e
  clock : files.clock ≤ files'.clock

theorem Grows.refl (files : FileTree) : Grows files files := ⟨fun _ _ h => h, Int.le_refl _⟩

theorem Grows.trans {files'' : FileTree} (h : Grows files files') (h' : Grows files' files'') :
    Grows files files'' :=
  ⟨fun spot e he => h'.entries spot e (h.entries spot e he), Int.le_trans h.clock h'.clock⟩

theorem Grows.walk (h : Grows files files') {above below : List String}
    (hwalk : files.walk above below = .ok e) : files'.walk above below = .ok e := by
  induction below generalizing above with
  | nil =>
    have hentry := entryAt?_of_walk hwalk
    rw [List.append_nil] at hentry
    simp [FileTree.walk, h.entries _ _ hentry]
  | cons name below ih =>
    simp only [FileTree.walk] at hwalk
    split at hwalk
    · cases hwalk
    · rename_i d hd
      split at hwalk
      · rename_i hdirectory
        simpa [FileTree.walk, h.entries _ _ hd, hdirectory] using ih hwalk
      · cases hwalk

theorem Grows.find (h : Grows files files') (hfind : files.find path = .ok e) :
    files'.find path = .ok e :=
  h.walk hfind

theorem ensureDirectory_grows (h : files.ensureDirectory spot = .ok files') :
    Grows files files' := by
  simp only [ensureDirectory] at h
  split at h
  · rename_i hnone
    cases h
    refine ⟨?_, ?_⟩
    · intro k e he
      by_cases hk : k = []
      · subst hk
        exact he
      · rw [entryAt?_store k hk]
        split
        · subst k
          rw [hnone] at he
          cases he
        · exact he
    · simp only [store]
      omega
  · split at h
    · cases h
      exact .refl _
    · cases h

theorem makeWay_grows {above below : List String} (h : files.makeWay above below = .ok files') :
    Grows files files' := by
  induction below generalizing files above with
  | nil => exact ensureDirectory_grows h
  | cons name below ih =>
    simp only [makeWay] at h
    split at h
    · rename_i hmade
      exact (ensureDirectory_grows hmade).trans (ih h)
    · cases h

theorem makeDirectories_grows (h : files.makeDirectories path = .ok files') :
    Grows files files' := by
  simp only [makeDirectories, guarded] at h
  split at h
  · rename_i hway
    cases h
    exact makeWay_grows hway
  · cases h

end FileTree

namespace Build

open FileTree (Entry Grows place)

variable {files files' : FileTree} {cache : String} {p p₀ : Project} {t : Table}

/-! ### What a load does -/

/-- The files after a table was kept: as before, or with some directories more, and then the table
in the cache unless a directory is there. -/
theorem keepTable_cases (files : FileTree) (hcache : p.tableCache = some cache) (t : Table) :
    keepTable files p t = files ∨
      ∃ grown, Grows files grown ∧
        (keepTable files p t = grown ∧
            (∀ e, grown.find cache = .ok e → e.isDirectory = true) ∨
          keepTable files p t = grown.store (place cache) (.table t)) := by
  simp only [keepTable, hcache]
  split
  · exact .inl rfl
  · rename_i grown hmade
    refine .inr ⟨grown, FileTree.makeDirectories_grows hmade, ?_⟩
    split
    · rename_i hwrite
      exact .inl ⟨rfl, fun e he => FileTree.isDirectory_of_write_error hwrite he⟩
    · rename_i hwrite
      exact .inr (FileTree.write_eq_store hwrite)

theorem run_currentFiles (w : Workspace) : currentFiles w = .ok w.files w := rfl

theorem reports_files {α : Type} (message : α → Log.Message) (xs : List α) (w : Workspace) :
    ∃ w', (xs.forM fun x => report (message x)) w = .ok () w' ∧ w'.files = w.files := by
  induction xs generalizing w with
  | nil => exact ⟨w, rfl, rfl⟩
  | cons x xs ih =>
    obtain ⟨w', hw', hfiles⟩ := ih { w with events := w.events ++ [.message (message x)] }
    exact ⟨w', hw', hfiles⟩

/-- To make a table is to generate it; only a table that was made is kept. -/
theorem makeTable_cases (p : Project) (w : Workspace) :
    (∃ t w', generateTable w.files p = .ok t ∧ makeTable p w = .ok t w' ∧
      w'.files = keepTable w.files p t) ∨
    ∃ f w', generateTable w.files p = .error f ∧ makeTable p w = .error f w' ∧
      w'.files = w.files := by
  cases hgenerate : generateTable w.files p with
  | error f =>
    refine .inr ⟨f, { w with events := w.events ++ [.message (.configError "Grammar"
      s!"error building parsing table: {f.message}")] }, rfl, ?_, rfl⟩
    simp only [makeTable, run_currentFiles, bind, EStateM.bind, hgenerate]
    rfl
  | ok t =>
    obtain ⟨w', hw', hfiles⟩ := reports_files
      (fun c : Table.Conflict => .configWarning "Grammar" c.render) t.conflicts w
    refine .inl ⟨t, { w' with files := keepTable w'.files p t }, rfl, ?_, by rw [hfiles]⟩
    simp only [makeTable, run_currentFiles, bind, EStateM.bind, pure, EStateM.pure, hgenerate, hw']
    rfl

theorem loadTable_of_cached {w : Workspace} (h : cachedTable? w.files p = some (.ok t)) :
    loadTable p w = .ok (t, true) w := by
  simp only [loadTable, run_currentFiles, bind, EStateM.bind, pure, EStateM.pure, h]

/-- A load takes the table from the cache and changes nothing, or makes it. -/
theorem loadTable_cases (p : Project) (w : Workspace) :
    (∃ t, cachedTable? w.files p = some (.ok t) ∧ loadTable p w = .ok (t, true) w) ∨
    (∃ t w', generateTable w.files p = .ok t ∧ loadTable p w = .ok (t, false) w' ∧
      w'.files = keepTable w.files p t) ∨
    ∃ f w', generateTable w.files p = .error f ∧ loadTable p w = .error f w' ∧
      w'.files = w.files := by
  have hmake : ∀ w₀ : Workspace, w₀.files = w.files →
      (loadTable p w = (do return (← makeTable p, false) : Build (Table × Bool)) w₀) →
      (∃ t w', generateTable w.files p = .ok t ∧ loadTable p w = .ok (t, false) w' ∧
        w'.files = keepTable w.files p t) ∨
      ∃ f w', generateTable w.files p = .error f ∧ loadTable p w = .error f w' ∧
        w'.files = w.files := by
    intro w₀ hfiles hload
    rcases makeTable_cases p w₀ with ⟨t, w', hgenerate, hmade, hkept⟩ |
      ⟨f, w', hgenerate, hmade, hkept⟩
    · refine .inl ⟨t, w', hfiles ▸ hgenerate, ?_, hfiles ▸ hkept⟩
      simp [hload, bind, EStateM.bind, hmade, pure, EStateM.pure]
    · refine .inr ⟨f, w', hfiles ▸ hgenerate, ?_, hkept.trans hfiles⟩
      simp [hload, bind, EStateM.bind, hmade]
  cases hcached : cachedTable? w.files p with
  | none =>
    refine .inr (hmake w rfl ?_)
    simp only [loadTable, run_currentFiles, bind, EStateM.bind, pure, EStateM.pure, hcached]
  | some result =>
    cases result with
    | error f =>
      refine .inr (hmake { w with events := w.events ++ [.message (.configWarning "Table Cache"
        s!"discarding unreadable table cache: {f.message}")] } rfl ?_)
      simp only [loadTable, run_currentFiles, bind, EStateM.bind, pure, EStateM.pure, hcached]
      rfl
    | ok t => exact .inl ⟨t, rfl, loadTable_of_cached hcached⟩

theorem generateTable_congr
    (h : ∀ path, p.grammar = some path → files'.find path = files.find path) :
    generateTable files' p = generateTable files p := by
  cases hgrammar : p.grammar with
  | none => simp only [generateTable, grammarOf, hgrammar]
  | some path =>
    simp only [generateTable, grammarOf, hgrammar, FileTree.readText, FileTree.read,
      h path hgrammar]

theorem read_object : ∃ d, Grammar.read "\uFFFD" = .error d := ⟨_, rfl⟩

/-- A table is made from a grammar. -/
theorem generateTable_ok (h : generateTable files p = .ok t) :
    ∃ g, grammarOf files p = .ok g ∧ g.buildTable (!p.allowConflicts) = .ok t := by
  simp only [generateTable] at h
  cases hgrammar : grammarOf files p with
  | error f =>
    rw [hgrammar] at h
    cases h
  | ok g =>
    refine ⟨g, rfl, ?_⟩
    simp only [hgrammar, Except.bind] at h
    cases hbuild : g.buildTable (!p.allowConflicts) with
    | error d =>
      rw [hbuild] at h
      cases h
    | ok t' =>
      rw [hbuild] at h
      obtain rfl := Except.ok.inj h
      rfl

/-- A table is made only from a file of text. -/
theorem text_of_generateTable {path : String} (hgrammar : p.grammar = some path)
    (h : generateTable files p = .ok t) :
    ∃ e s, files.find path = .ok e ∧ e.content = .text s := by
  obtain ⟨g, hg, _⟩ := generateTable_ok h
  simp only [grammarOf, hgrammar] at hg
  cases hfind : files.find path with
  | error reason => simp [FileTree.readText, FileTree.read, hfind, Except.map] at hg
  | ok e =>
    obtain ⟨content, modified⟩ := e
    cases content with
    | text s => exact ⟨_, s, rfl, rfl⟩
    | directory =>
      simp [FileTree.readText, FileTree.read, hfind, Entry.isDirectory, Except.map] at hg
    | _ =>
      have htext : files.readText path = .ok "\uFFFD" := by
        rw [FileTree.readText, FileTree.read, hfind]
        rfl
      obtain ⟨d, hd⟩ := read_object
      simp [htext, hd, Except.mapError] at hg

/-- What one project asks of a table is enough for another: the grammar is the same, and conflicts
that the one puts up with the other does too. -/
def Covers (p₀ p : Project) : Prop :=
  p₀.grammar = p.grammar ∧
    (p.grammar = none ∨ (p₀.allowConflicts = true → p.allowConflicts = true))

/-- A table without conflicts is the same for every project. -/
theorem buildTable_of_strict {g : Grammar} (h : g.buildTable true = .ok t) (strict : Bool) :
    g.buildTable strict = .ok t := by
  cases strict with
  | true => exact h
  | false =>
    obtain ⟨_, rfl⟩ := Grammar.buildTable_strict.mp h
    simp [Grammar.buildTable]

theorem Covers.buildTable (h : Covers p₀ p) {g : Grammar} (hg : grammarOf files p = .ok g)
    (hmade : g.buildTable (!p₀.allowConflicts) = .ok t) :
    g.buildTable (!p.allowConflicts) = .ok t := by
  rcases h.2 with hnone | hconflicts
  · -- the built-in grammar has no conflicts
    simp only [grammarOf, hnone, Except.ok.injEq] at hg
    subst hg
    have hbuilt := buildTable_of_strict Grammar.duckTable_eq
    obtain rfl := Except.ok.inj ((hbuilt _).symm.trans hmade)
    exact hbuilt _
  · cases hallow : p₀.allowConflicts with
    | true =>
      rw [hallow] at hmade
      rwa [hconflicts hallow]
    | false =>
      rw [hallow] at hmade
      exact buildTable_of_strict hmade _

theorem Covers.generateTable (h : Covers p₀ p) (hmade : generateTable files p₀ = .ok t) :
    generateTable files p = .ok t := by
  obtain ⟨g, hg, hbuild⟩ := generateTable_ok hmade
  have hsame : grammarOf files p = .ok g := by
    rw [← hg, grammarOf, grammarOf, h.1]
  simp only [Build.generateTable, hsame, Except.bind, h.buildTable hsame hbuild, Except.mapError]

/-! ### Histories -/

/-- Files changed by others than the loads: what is found at a path was there before, or was
written later than all of that, and not to the cache. -/
structure Edited (cache : String) (files files' : FileTree) : Prop where
  clock : files.clock ≤ files'.clock
  found : ∀ path e, files'.find path = .ok e →
    files.find path = .ok e ∨ place path ≠ place cache ∧ files.clock ≤ e.modified

theorem edited_write {path text : String} (hpath : place path ≠ place cache)
    (h : files.write path (.text text) = .ok files') : Edited cache files files' := by
  obtain rfl := FileTree.write_eq_store h
  refine ⟨?_, ?_⟩
  · simp only [FileTree.store]
    omega
  · intro path' e he
    rcases FileTree.find_store (by simp) he with ⟨hplace, rfl⟩ | hold
    · exact .inr ⟨hplace ▸ hpath, Int.le_refl _⟩
    · exact .inl hold

/-- The files after some loads through one cache, each by a project of its own, with edits between
them.  There is no cache file at first; from then on the history knows the project whose load wrote
the one that is there. -/
inductive History (cache : String) : Option Project → FileTree → Prop
  | start {files : FileTree}
      (empty : ∀ e, files.find cache = .ok e → e.isDirectory = true) : History cache none files
  | edit {owner : Option Project} {files files' : FileTree}
      (before : History cache owner files) (edited : Edited cache files files') :
      History cache owner files'
  | load {owner : Option Project} {p : Project} {w w' : Workspace}
      (before : History cache owner w.files) (same : p.tableCache = some cache)
      (loaded : (∃ r, loadTable p w = .ok r w') ∨ ∃ f, loadTable p w = .error f w')
      (left : w'.files.find cache = w.files.find cache) : History cache owner w'.files
  | keep {owner : Option Project} {p : Project} {w w' : Workspace}
      (before : History cache owner w.files) (same : p.tableCache = some cache)
      (loaded : (∃ r, loadTable p w = .ok r w') ∨ ∃ f, loadTable p w = .error f w')
      (written : w'.files.find cache ≠ w.files.find cache) : History cache (some p) w'.files

/-- The grammar of a project is there and was not written after a time. -/
def UpToDate (files : FileTree) (p : Project) (time : Int) : Prop :=
  ∀ path, p.grammar = some path → ∃ e, files.find path = .ok e ∧ e.modified ≤ time

/-- The cache holds the table that was made for its owner, and still is while its grammar is not
written again. -/
structure Kept (owner : Option Project) (files : FileTree) (e : Entry) : Prop where
  past : e.modified < files.clock
  made : ∃ p₀ ∈ owner, ∃ t, e.content = .table t ∧
    (UpToDate files p₀ e.modified → generateTable files p₀ = .ok t)

theorem Kept.edit {owner : Option Project} {e : Entry} (h : Kept owner files e)
    (hedit : Edited cache files files') : Kept owner files' e := by
  obtain ⟨p₀, hp₀, t, hcontent, hmade⟩ := h.made
  refine ⟨Int.lt_of_lt_of_le h.past hedit.clock, p₀, hp₀, t, hcontent, ?_⟩
  intro hdate
  -- a grammar that is not newer than the cache is the one that was there
  have hold : ∀ path, p₀.grammar = some path →
      ∃ g, files'.find path = .ok g ∧ files.find path = .ok g ∧ g.modified ≤ e.modified := by
    intro path hpath
    obtain ⟨g, hg, htime⟩ := hdate path hpath
    rcases hedit.found path g hg with hfound | ⟨_, hlater⟩
    · exact ⟨g, hg, hfound, htime⟩
    · have := h.past
      omega
  have hsame : generateTable files' p₀ = generateTable files p₀ := by
    refine generateTable_congr fun path hpath => ?_
    obtain ⟨g, hg, hfound, _⟩ := hold path hpath
    rw [hg, hfound]
  rw [hsame]
  refine hmade fun path hpath => ?_
  obtain ⟨g, _, hfound, htime⟩ := hold path hpath
  exact ⟨g, hfound, htime⟩

/-- What is found at the place of the cache is a directory or the table that its owner kept. -/
def Holds (cache : String) (owner : Option Project) (files : FileTree) : Prop :=
  ∀ e, files.find cache = .ok e → e.isDirectory = true ∨ Kept owner files e

/-- After a table was made there is a directory at the place of the cache, or nothing was kept, or
the table was, later than all that was there. -/
theorem Holds.keepTable {owner : Option Project} (h : Holds cache owner files)
    (hcache : p.tableCache = some cache) (hmade : generateTable files p = .ok t) {e : Entry}
    (he : (keepTable files p t).find cache = .ok e) :
    e.isDirectory = true ∨ keepTable files p t = files ∨
      files.clock ≤ e.modified ∧ Kept (some p) (keepTable files p t) e := by
  rcases keepTable_cases files hcache t with hkeep | ⟨grown, hgrows, hkeep⟩
  · exact .inr (.inl hkeep)
  rcases hkeep with ⟨hkeep, hdirectory⟩ | hkeep
  · rw [hkeep] at he
    exact .inl (hdirectory e he)
  rw [hkeep] at he ⊢
  rcases FileTree.find_store_self he with rfl | hdirectory
  · refine .inr (.inr ⟨hgrows.clock, ?_, p, rfl, t, rfl, ?_⟩)
    · simp only [FileTree.store]
      omega
    intro hdate
    refine (generateTable_congr ?_).trans hmade
    intro path hpath
    obtain ⟨g, text, hg, htext⟩ := text_of_generateTable hpath hmade
    obtain ⟨g', hg', _⟩ := hdate path hpath
    rcases FileTree.find_store (by simp) hg' with ⟨hplace, rfl⟩ | hfound
    · -- the grammar cannot be where the cache is, as there is no text
      have hthere : files.find cache = .ok g := by
        rw [FileTree.find, ← hplace]
        exact hg
      rcases h g hthere with hdirectory | hkept
      · simp [Entry.isDirectory, htext] at hdirectory
      · obtain ⟨_, _, t', htable, _⟩ := hkept.made
        cases htext.symm.trans htable
    · rw [hg', hg, ← hgrows.find hg, hfound]
  · exact .inl hdirectory

/-- A load leaves all files as they were, or it made a table and kept it if it could. -/
theorem load_cases {w w' : Workspace}
    (h : (∃ r, loadTable p w = .ok r w') ∨ ∃ f, loadTable p w = .error f w') :
    w'.files = w.files ∨ ∃ t, generateTable w.files p = .ok t ∧
      w'.files = keepTable w.files p t := by
  rcases loadTable_cases p w with ⟨t, _, hload⟩ | ⟨t, w₁, hmade, hload, hkept⟩ |
    ⟨f, w₁, _, hload, hkept⟩
  · obtain rfl : w' = w := by simpa [hload, eq_comm] using h
    exact .inl rfl
  · obtain rfl : w' = w₁ := by simpa [hload, eq_comm] using h
    exact .inr ⟨t, hmade, hkept⟩
  · obtain rfl : w' = w₁ := by simpa [hload, eq_comm] using h
    exact .inl hkept

/-- In a history the cache holds nothing but what its owner kept in it. -/
theorem History.holds {owner : Option Project} (h : History cache owner files) :
    Holds cache owner files := by
  induction h with
  | start empty => exact fun e he => .inl (empty e he)
  | edit before edited ih =>
    intro e he
    have hold := (edited.found cache e he).resolve_right (by simp)
    exact (ih e hold).imp id fun hkept => hkept.edit edited
  | @load owner p w w' before same loaded left ih =>
    intro e he
    have hold := ih e (left ▸ he)
    rcases load_cases loaded with hfiles | ⟨t, hmade, hfiles⟩
    · rwa [hfiles]
    · rw [hfiles] at he ⊢
      rcases ih.keepTable same hmade he with hdirectory | hkept | ⟨hlater, _⟩
      · exact .inl hdirectory
      · rwa [hkept]
      · -- what was there is older
        refine .inl (hold.resolve_right fun hkept => ?_)
        have := hkept.past
        omega
  | @keep owner p w w' before same loaded written ih =>
    intro e he
    rcases load_cases loaded with hfiles | ⟨t, hmade, hfiles⟩
    · exact absurd (by rw [hfiles]) written
    · rw [hfiles] at he written ⊢
      rcases ih.keepTable same hmade he with hdirectory | hkept | ⟨_, hkept⟩
      · exact .inl hdirectory
      · exact absurd (by rw [hkept]) written
      · exact .inr hkept

/-- A load gives what making the table anew would give, be it a table or a failure. -/
def Agrees (files : FileTree) (p : Project) : Prop :=
  ∀ events, match loadTable p { files, events } with
    | .ok (t, _) _ => generateTable files p = .ok t
    | .error f _ => generateTable files p = .error f

/-- A table from the cache was made for its owner; if that one asks for no more, it is the table of
this project. -/
theorem History.cached {owner : Option Project} (h : History cache owner files)
    (hcache : p.tableCache = some cache) (hcached : cachedTable? files p = some (.ok t)) :
    ∃ p₀ ∈ owner, Covers p₀ p → generateTable files p = .ok t := by
  simp only [cachedTable?, hcache] at hcached
  split at hcached
  · rename_i hfresh
    simp only [isFresh] at hfresh
    split at hfresh
    · cases hfresh
    · rename_i e he
      simp only [FileTree.readTable, FileTree.read, he, Option.some.injEq] at hcached
      split at hcached
      · cases hcached
      · rename_i hfile
        obtain ⟨p₀, hp₀, t', hcontent, hmade⟩ := ((h.holds e he).resolve_left hfile).made
        obtain rfl : t' = t := by simpa [Except.bind, hcontent] using hcached
        refine ⟨p₀, hp₀, fun hcovers => hcovers.generateTable (hmade ?_)⟩
        intro path hpath
        rw [hcovers.1] at hpath
        simp only [hpath] at hfresh
        split at hfresh
        · cases hfresh
        · rename_i g hg
          exact ⟨g, hg, of_decide_eq_true hfresh⟩
  · cases hcached

/-- Where the project whose table is in the cache covers this one, its load agrees. -/
theorem loadTable_agrees {owner : Option Project} (h : History cache owner files)
    (hcache : p.tableCache = some cache) (hcovers : ∀ p₀ ∈ owner, Covers p₀ p) :
    Agrees files p := by
  intro events
  rcases loadTable_cases p { files, events } with ⟨t, hcached, hload⟩ | ⟨t, w', hmade, hload, _⟩ |
    ⟨f, w', hmade, hload, _⟩
  · obtain ⟨p₀, hp₀, htable⟩ := h.cached hcache hcached
    rw [hload]
    exact htable (hcovers p₀ hp₀)
  · rw [hload]
    exact hmade
  · rw [hload]
    exact hmade

/-! ### Projects that differ -/

open DuckLang.Parser (nameLists sums sums_read)

/-- Two grammars and no cache yet. -/
def grammars : FileTree :=
  { entries := [(["sums"], ⟨.text "<Sum> → <Sum> + <Sum>\n<Sum> → id", 0⟩),
      (["names"], ⟨.text "<List> → <List> , id\n<List> → id", 1⟩)]
    clock := 2 }

/-- The grammars with the table of the first in the cache. -/
def cachedSums : FileTree :=
  { entries := grammars.entries ++ [(["cache"], ⟨.table sums.table, 2⟩)], clock := 3 }

/-- A project that accepts the conflicts of sums. -/
def lenient : Project :=
  { name := "sums", root := "/", entry := "/sums.duck", output := "/sums.dko"
    grammar := some "/sums", tableCache := some "/cache", allowConflicts := true }

theorem places : place "/sums" = ["sums"] ∧ place "/names" = ["names"] ∧
    place "/cache" = ["cache"] ∧ place (Text.Path.dir "/cache") = [] := by
  decide +kernel

theorem place_sums : place "/sums" = ["sums"] := places.1

theorem place_cache : place "/cache" = ["cache"] := places.2.2.1

theorem place_root : place (Text.Path.dir "/cache") = [] := places.2.2.2

theorem grammars_cache : grammars.find "/cache" = .error .notFound := by
  rw [FileTree.find, place_cache]
  rfl

theorem generateTable_lenient : generateTable grammars lenient = .ok sums.table := by
  have hfind : grammars.find "/sums" = .ok ⟨.text "<Sum> → <Sum> + <Sum>\n<Sum> → id", 0⟩ := by
    rw [FileTree.find, place_sums]
    rfl
  simp only [generateTable, grammarOf, lenient, FileTree.readText, FileTree.read, hfind]
  rfl

theorem keepTable_lenient : keepTable grammars lenient sums.table = cachedSums := by
  have hroot : grammars.makeDirectories (Text.Path.dir "/cache") = .ok grammars := by
    rw [FileTree.makeDirectories, place_root]
    rfl
  have hdir : grammars.find (Text.Path.dir "/cache") = .ok FileTree.rootEntry := by
    rw [FileTree.find, place_root]
    rfl
  simp only [keepTable, lenient, hroot, FileTree.write, grammars_cache, hdir, place_cache]
  rfl

theorem find_cachedSums :
    cachedSums.find "/cache" = .ok ⟨.table sums.table, 2⟩ ∧
      cachedSums.find "/sums" = .ok ⟨.text "<Sum> → <Sum> + <Sum>\n<Sum> → id", 0⟩ ∧
      cachedSums.find "/names" = .ok ⟨.text "<List> → <List> , id\n<List> → id", 1⟩ := by
  refine ⟨?_, ?_, ?_⟩
  · rw [FileTree.find, place_cache]
    rfl
  · rw [FileTree.find, place_sums]
    rfl
  · rw [FileTree.find, places.2.1]
    rfl

theorem cachedSums_history : History "/cache" (some lenient) cachedSums := by
  have hstart : History "/cache" none grammars := by
    refine .start fun e he => ?_
    rw [grammars_cache] at he
    cases he
  rcases loadTable_cases lenient { files := grammars } with ⟨t, hcached, _⟩ |
    ⟨t, w', hmade, hload, hkept⟩ | ⟨f, w', hmade, _⟩
  · simp [cachedTable?, lenient, isFresh, grammars_cache] at hcached
  · obtain rfl : sums.table = t := Except.ok.inj (generateTable_lenient.symm.trans hmade)
    have hwritten : w'.files.find "/cache" ≠ grammars.find "/cache" := by
      rw [hkept, keepTable_lenient, grammars_cache, find_cachedSums.1]
      simp
    rw [← keepTable_lenient, ← hkept]
    exact .keep (w := { files := grammars }) hstart rfl (.inl ⟨_, hload⟩) hwritten
  · cases generateTable_lenient.symm.trans hmade

/-- For every project that names one of the two grammars the cache is fresh. -/
theorem cachedTable?_cachedSums (hcache : p.tableCache = some "/cache")
    (hgrammar : p.grammar = some "/sums" ∨ p.grammar = some "/names") :
    cachedTable? cachedSums p = some (.ok sums.table) := by
  obtain ⟨hkept, hsums, hnames⟩ := find_cachedSums
  have hfresh : isFresh cachedSums p "/cache" = true := by
    rcases hgrammar with hgrammar | hgrammar
    · simp [isFresh, hkept, hgrammar, hsums]
    · simp [isFresh, hkept, hgrammar, hnames]
  have hread : cachedSums.readTable "/cache" = .ok sums.table := by
    simp [FileTree.readTable, FileTree.read, hkept, Entry.isDirectory, Except.bind]
  simp [cachedTable?, hcache, hfresh, hread]

/-- The project loads its own table from the cache and, once its grammar is written again, another
one. -/
theorem loadTable_agrees_lenient :
    (cachedTable? cachedSums lenient = some (.ok sums.table) ∧ Agrees cachedSums lenient) ∧
      ∃ files, cachedSums.write "/sums" (.text "<Sum> → id") = .ok files ∧
        cachedTable? files lenient = none ∧ Agrees files lenient := by
  have hself : ∀ p₀ ∈ some lenient, Covers p₀ lenient := by
    intro p₀ hp₀
    obtain rfl := Option.some.inj hp₀
    exact ⟨rfl, .inr id⟩
  refine ⟨⟨cachedTable?_cachedSums rfl (.inl rfl),
    loadTable_agrees cachedSums_history rfl hself⟩, ?_⟩
  obtain ⟨hkept, hsums, _⟩ := find_cachedSums
  have hwrite : cachedSums.write "/sums" (.text "<Sum> → id") =
      .ok (cachedSums.store ["sums"] (.text "<Sum> → id")) := by
    simp [FileTree.write, hsums, Entry.isDirectory, place_sums]
  refine ⟨_, hwrite, ?_, ?_⟩
  · have hcache : (cachedSums.store ["sums"] (.text "<Sum> → id")).find "/cache" =
        .ok ⟨.table sums.table, 2⟩ := by
      rw [FileTree.find, place_cache]
      rfl
    have hlater : (cachedSums.store ["sums"] (.text "<Sum> → id")).find "/sums" =
        .ok ⟨.text "<Sum> → id", 3⟩ := by
      rw [FileTree.find, place_sums]
      rfl
    simp [cachedTable?, lenient, isFresh, hcache, hlater]
  · refine loadTable_agrees (cachedSums_history.edit (edited_write ?_ hwrite)) rfl hself
    simp [place_sums, place_cache]

/-- A cache outlives the settings it was made with: a project that does not accept conflicts loads
a table with some, and one with another grammar loads the table of the first. -/
theorem cache_outlives_settings :
    History "/cache" (some lenient) cachedSums ∧
      (loadTable { lenient with allowConflicts := false } { files := cachedSums } =
          .ok (sums.table, true) { files := cachedSums } ∧
        ∃ f, generateTable cachedSums { lenient with allowConflicts := false } = .error f) ∧
      loadTable { lenient with grammar := some "/names" } { files := cachedSums } =
          .ok (sums.table, true) { files := cachedSums } ∧
        generateTable cachedSums { lenient with grammar := some "/names" } =
          .ok nameLists.table ∧
        nameLists.table ≠ sums.table := by
  obtain ⟨_, hsums, hnames⟩ := find_cachedSums
  refine ⟨cachedSums_history, ⟨?_, ?_⟩, ?_, ?_, by decide⟩
  · exact loadTable_of_cached (cachedTable?_cachedSums rfl (.inl rfl))
  · have hstrict : ∃ d, sums.buildTable true = .error d := by
      cases hbuild : sums.buildTable true with
      | error d => exact ⟨d, rfl⟩
      | ok t => exact absurd (Grammar.buildTable_strict.mp hbuild).1 (by decide)
    obtain ⟨d, hd⟩ := hstrict
    refine ⟨.compile d, ?_⟩
    simp only [generateTable, grammarOf, lenient, FileTree.readText, FileTree.read, hsums]
    show ((Grammar.read "<Sum> → <Sum> + <Sum>\n<Sum> → id").bind
      (·.buildTable true)).mapError Failure.compile = _
    rw [sums_read, Except.bind, hd]
    rfl
  · exact loadTable_of_cached (cachedTable?_cachedSums rfl (.inr rfl))
  · simp only [generateTable, grammarOf, lenient, FileTree.readText, FileTree.read, hnames]
    rfl

end Build

end DuckLang
