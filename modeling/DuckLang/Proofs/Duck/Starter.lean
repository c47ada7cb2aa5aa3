import DuckLang.Project.Starter
import DuckLang.Proofs.Build.TableCache
import DuckLang.Proofs.Duck.Run
import DuckLang.Proofs.Source.BlockCode
import DuckLang.Proofs.Token.Literals
import DuckLang.Proofs.Token.Words

/-! New projects.  The source of a new project is a header with the project's name and a main body
that writes a greeting.  Its tokens drive the parser to the program that greets, unless the name is
a keyword: then the header has no identifier, and nothing is accepted without one there. -/

namespace DuckLang

open Emitter
open DuckLang.Parser (Drives reduceEffect)
open Grammar.Duck (rule t n)

namespace Duck

/-- What a non-terminal covers that has one production. -/
theorem yields_rule {head : String} (body : List Grammar.Symbol) {names : List String}
    (honly : ∀ p ∈ Grammar.Duck.productions, p.head = head → p.body = body)
    (hstart : Grammar.duck.start ≠ head) (h : Grammar.Yields Grammar.duck [n head] names) :
    Grammar.Yields Grammar.duck body names := by
  obtain ⟨id, p, hp, rfl, hbody⟩ := h.of_nonterminal
  rcases Grammar.ofProductions_rule hp with ⟨_, rfl⟩ | ⟨_, hmem⟩
  · exact absurd rfl hstart
  · rwa [← honly p hmem rfl]

set_option maxRecDepth 10000 in
/-- The terminals of what is accepted start with the header of a program. -/
theorem header_of_accepted {tokens : List Token} {fuel : Nat} {p : Parser}
    (hrun : Parser.run Grammar.duck.table fuel (.start tokens) = .accepted p) :
    ∃ rest, tokens.map (·.terminal) = "program" :: "id" :: ";" :: rest := by
  have hsentence := Parser.sentence_of_accepted Grammar.duck_proper Grammar.duck_fresh hrun
  have hprogram := yields_rule Grammar.Duck.programRule.body (by decide) (by decide)
    (Parser.yields_of_sentence Grammar.duck_fresh hsentence)
  obtain ⟨header, rest, hnames, hheader, _⟩ :=
    @Grammar.Yields.split _ [n "ProgHeader"] _ _ hprogram
  have hwords := yields_rule [t "program", t "id", t ";"] (by decide) (by decide) hheader
  obtain ⟨more, hmore⟩ := List.takeWhile_prefix (l := tokens) Parser.isInner
  refine ⟨rest ++ more.map (·.terminal), ?_⟩
  rw [← hmore, List.map_append, hnames]
  cases hwords with
  | terminal hwords =>
    cases hwords with
    | terminal hwords =>
      cases hwords with
      | terminal hwords =>
        cases hwords
        rfl

/-! ### Programs with a main body alone -/

theorem drives_given (head : String) (body : List Grammar.Symbol) {u : List Token}
    {e e₁ e' : Emitter} {inner : List Attribute} {a : Attribute}
    (hrule : rule head body ∈ Grammar.Duck.productions)
    (hbody : Drives Grammar.duck body u e inner e₁)
    (heffect : (reduceEffect head inner).run e₁ = .ok a e') :
    Drives Grammar.duck [n head] u e [a] e' := by
  obtain ⟨id, _, hid⟩ := Grammar.ofProductions_given hrule
  have h := Drives.reduce (g := Grammar.duck) hid hbody heffect (.nil e')
  rwa [List.append_nil] at h

open Token.Kind in
/-- The words of a program that is nothing but a header and a main body. -/
def mainWords (name : Token.Kind × String) (words : List (Token.Kind × String)) :
    List (Token.Kind × String) :=
  programWord.word :: name :: semicolon.word :: mainWord.word :: (bodyWords words ++ [endWord.word])

/-- The emitter where the main body of such a program begins. -/
def atMain (name : String) : Emitter where
  scope := { program := name, entries := [{ name, isProgram := true }], current := name }
  functions := [(mainName, { name := mainName, entry := 0 })]

set_option maxRecDepth 10000 in
theorem drives_main {name : Name} {block : Block} {c : Code} {u : List Token}
    (hmakes : block.Makes (atMain name.text).scope 0 (atMain name.text).stock c)
    (hwords : u.map Token.word = mainWords (.identifier, name.text) block.words) :
    Drives Grammar.duck [n "Program"] u {} [.nothing]
      { (atMain name.text).append c with
        quads := ((atMain name.text).append c).quads.push { op := .halt } } := by
  obtain ⟨program, _, rfl, hprogram, hwords⟩ := List.map_eq_cons_iff.mp hwords
  obtain ⟨title, _, rfl, htitle, hwords⟩ := List.map_eq_cons_iff.mp hwords
  obtain ⟨semicolon, _, rfl, hsemicolon, hwords⟩ := List.map_eq_cons_iff.mp hwords
  obtain ⟨main, _, rfl, hmain, hwords⟩ := List.map_eq_cons_iff.mp hwords
  obtain ⟨inner, _, rfl, hinner, hwords⟩ := List.map_eq_append_iff.mp hwords
  obtain ⟨last, _, rfl, hlast, hwords⟩ := List.map_eq_cons_iff.mp hwords
  obtain rfl := List.map_eq_nil_iff.mp hwords
  let e : Emitter :=
    { scope := { program := name.text, entries := [{ name := name.text, isProgram := true }],
                 current := name.text } }
  have hheader : Drives Grammar.duck [n "ProgHeader"] [program, title, semicolon] {}
      [.ofText title.text] e := by
    refine drives_given "ProgHeader" [t "program", t "id", t ";"] (by decide)
      (drives_cons (drives_word (Prod.mk.inj hprogram).1 rfl rfl)
        (drives_cons (drives_word (Prod.mk.inj htitle).1 rfl rfl)
          (drives_word (Prod.mk.inj hsemicolon).1 rfl rfl))) ?_
    have htext : (Attribute.ofText title.text).text = name.text := by
      rw [text_ofText, (Prod.mk.inj htitle).2]
    show (changeScope (·.initProgram (Attribute.ofText title.text).text) >>= fun _ =>
      pure (Attribute.ofText title.text)).run {} = _
    rw [htext]
    rfl
  have hvars : Drives Grammar.duck [n "VarsOpt"] [] e [.nothing] e :=
    drives_given "VarsOpt" [] (by decide) (.nil e) rfl
  have hfuncs : Drives Grammar.duck [n "Funcs"] [] e [.nothing] e :=
    drives_given "Funcs" [] (by decide) (.nil e) rfl
  have hmark : Drives Grammar.duck [t "main"] [main] e [.ofText main.text] (atMain name.text) :=
    drives_hook (Prod.mk.inj hmain).1 rfl rfl rfl
  have hbody : Drives Grammar.duck [n "Body"] inner (atMain name.text) [.nothing]
      ((atMain name.text).append c) :=
    drives_body (fun hv => Block.drives (by rintro c ⟨⟩) hmakes hv) hinner
  exact drives_given "Program" Grammar.Duck.programRule.body (by decide)
    (drives_cons hheader (drives_cons hvars (drives_cons hfuncs (drives_cons hmark
      (drives_cons hbody (drives_word (Prod.mk.inj hlast).1 rfl rfl)))))) rfl

/-- A source text with the words of such a program is accepted. -/
theorem accepts_main {source : String} (name : Name) {block : Block} {c : Code}
    (hsplits : Lexical.Splits source.toList
      ((mainWords (.identifier, name.text) block.words).map fun word => (word.1, word.2.toList)))
    (hmakes : block.Makes (atMain name.text).scope 0 (atMain name.text).stock c) :
    ∃ tokens n parsed, tokenize source = .ok tokens ∧
      (∀ fuel, n ≤ fuel → Parser.run Grammar.duck.table fuel (.start tokens) = .accepted parsed) ∧
      parsed.emitter = { (atMain name.text).append c with
        quads := ((atMain name.text).append c).quads.push { op := .halt } } := by
  obtain ⟨ts, line, htokens, hwords⟩ := Lexical.tokenize_words hsplits
  obtain ⟨n, parsed, hrun, hemitter⟩ := (drives_main hmakes hwords).accepted Grammar.duck_proper
    Grammar.duck_fresh (List.isEmpty_iff.mp Grammar.duck_conflicts)
    (show (Token.endOfInput line).terminal = _ from Parser.terminal_endOfInput)
  exact ⟨_, n, parsed, htokens, hrun, hemitter⟩

end Duck

namespace Project.Starter

open Lexical
open FileTree (place)
open Duck (mainWords atMain accepts_main)
open Identifier (isValid isPart)
open Token.Kind (keyword?)

/-! ### The program of a new project -/

/-- What the program of a new project writes, as a literal. -/
def greeting (name : String) : Quote where
  text := "\"hello from " ++ name ++ "\""
  isQuote := by simp [Token.Kind.isSpelled]

/-- The statements of the program. -/
def greets (name : String) : Block :=
  .act .empty (.write (.text (greeting name)) [])

theorem plain_greeting {name : String} (h : isValid name = true) :
    ∀ c ∈ "hello from ".toList ++ name.toList, c ≠ '"' ∧ c ≠ '\n' ∧ c ≠ '\\' := by
  obtain ⟨first, more, hname, hstart, hparts⟩ := isValid_iff.mp h
  have hall : ∀ c ∈ name.toList, isPart c = true := by
    simpa [hname, isPart, hstart] using hparts
  rw [List.forall_mem_append]
  refine ⟨by simp, fun c hc => ?_⟩
  have hpart := hall c hc
  refine ⟨?_, ?_, ?_⟩ <;> rintro rfl <;> cases hpart

theorem toList_greeting (name : String) :
    (greeting name).text.toList = '"' :: ("hello from ".toList ++ name.toList ++ ['"']) := by
  simp [greeting]

/-- The words of the program; the lexer takes its name for a keyword where it is one. -/
theorem splits_source {name : String} (h : isValid name = true) :
    Splits (source name).toList
      ((mainWords ((keyword? name).getD .identifier, name) (greets name).words).map
        fun word => (word.1, word.2.toList)) := by
  have htext : (source name).toList =
      "program".toList ++ ' ' :: (name.toList ++ ';' :: '\n' :: '\n' ::
        ("main".toList ++ ' ' :: '\x7b' :: '\n' :: ' ' :: ' ' :: ("write".toList ++ '(' ::
          '"' :: ("hello from ".toList ++ name.toList ++ '"' ::
            ')' :: ';' :: '\n' :: '\x7d' :: '\n' :: ("end".toList ++ ['\n']))))) := by
    simp [source, ToString.toString]
  have hliteral := fun rest => taken_plain (plain_greeting h) rest
  rw [← toList_greeting] at hliteral
  rw [htext]
  refine .word "program" (by decide) rfl (.blank rfl (.word name h rfl ?_))
  refine .lexeme ((munch_reads rfl (by simp)).taken rfl) (.blank rfl (.blank rfl ?_))
  refine .word "main" (by decide) rfl (.blank rfl ?_)
  refine .lexeme ((munch_reads rfl (by simp)).taken rfl) (.blank rfl (.blank rfl (.blank rfl ?_)))
  refine .word "write" (by decide) rfl ?_
  refine .lexeme ((munch_reads rfl (by simp)).taken rfl) (.lexeme (hliteral _) ?_)
  refine .lexeme ((munch_reads rfl (by simp)).taken rfl) ?_
  refine .lexeme ((munch_reads rfl (by simp)).taken rfl) (.blank rfl ?_)
  refine .lexeme ((munch_reads rfl (by simp)).taken rfl) (.blank rfl ?_)
  exact .word "end" (by decide) rfl (.blank rfl .nil)

theorem unquote?_greeting {name : String} (h : isValid name = true) :
    Text.Quoted.unquote? (greeting name).text =
      some (Text.Utf8.encode ("hello from " ++ name)) := by
  have hparts : ∀ part ∈ ("hello from ".toList ++ name.toList).map fun c => ([c], c),
      Denotes '"' part.1 part.2 := by
    simpa only [List.forall_mem_map] using fun c hc => Denotes.plain (plain_greeting h c hc)
  have hbody : ∀ cs : List Char, ((cs.map fun c => ([c], c)).map (·.1)).flatten = cs := by
    intro cs
    rw [List.map_map, ← List.flatMap_def]
    exact List.flatMap_singleton' cs
  rw [unquote?_string hparts (by rw [hbody, toList_greeting])]
  simp only [List.map_map, Function.comp_def, List.map_id', String.ofList_append,
    String.ofList_toList]

/-- The program of a new project: it writes its greeting and halts. -/
def program (name : String) : Program where
  name := name
  quads := #[{ op := .write, result := .text 0 }, { op := .halt }]
  functions := [(mainName, { name := mainName, entry := 0 })]
  constants := []
  strings := [Text.Utf8.encode ("hello from " ++ name)]
  globals := .ofCounts {}

/-- The source of a new project is compiled to its program unless it is named by a keyword. -/
theorem compile_source {name : String} (h : isValid name = true) (hfree : keyword? name = none)
    (default : String) : ∃ n, ∀ fuel, n ≤ fuel →
      compile fuel Grammar.duck.table default (source name) = .program (program name) := by
  obtain ⟨c, cs, hchars, hstart, _⟩ := isValid_iff.mp h
  have hname : Token.Kind.identifier.isSpelled name = true := by
    simp [Token.Kind.isSpelled, hchars, hstart, hfree]
  have hsplits := splits_source h
  rw [hfree] at hsplits
  have hmakes : (greets name).Makes (atMain name).scope 0 (atMain name).stock _ :=
    .act .empty (.cons (.text (unquote?_greeting h)) .nil)
  obtain ⟨tokens, n, parsed, htokens, hrun, hemitter⟩ :=
    Duck.accepts_main ⟨name, hname⟩ hsplits hmakes
  have hparsed : parsed.emitter = { atMain name with
      quads := (program name).quads, strings := (program name).strings } := by
    rw [hemitter]
    simp [append, Code.append, Code.none, stock, atMain, intern, program]
  have hheader : parsed.emitter.scope.program = name := by
    rw [hparsed]
    rfl
  have hnamed : name ≠ "" := by
    rintro rfl
    cases hchars
  have hresolved : (program name).quads.findIdx? (·.result.isPending) = none := by
    simp [program, Operand.isPending]
  have hexported : parsed.emitter.exportProgram name = .ok (program name) := by
    simp only [exportProgram, hparsed, hresolved]
    rfl
  refine ⟨n, fun fuel hfuel => ?_⟩
  simp only [compile, htokens, hrun fuel hfuel, exportParsed, hheader, if_neg hnamed, hexported]

theorem keywords_terminals : ∀ pair ∈ Token.Kind.keywords, pair.2.terminal ≠ "id" := by
  decide

theorem source_fails {name : String} (h : isValid name = true) {kind : Token.Kind}
    (hkeyword : keyword? name = some kind) (fuel : Nat) (default : String) (program : Program) :
    compile fuel Grammar.duck.table default (source name) ≠ .program program := by
  intro hcompile
  obtain ⟨parsed, ⟨tokens, fuel, htokens, hrun⟩, _⟩ := compiles_iff.mpr ⟨fuel, hcompile⟩
  obtain ⟨ts, line, htokens', hwords⟩ := tokenize_words (splits_source h)
  obtain rfl : tokens = ts ++ [.endOfInput line] := Except.ok.inj (htokens.symm.trans htokens')
  obtain ⟨rest, hheader⟩ := Duck.header_of_accepted hrun
  -- the second token is the name, and no keyword stands for an identifier
  obtain ⟨first, _, rfl, _, hwords⟩ := List.map_eq_cons_iff.mp hwords
  obtain ⟨second, _, rfl, hsecond, _⟩ := List.map_eq_cons_iff.mp hwords
  rw [hkeyword] at hsecond
  have hterminal : second.terminal = "id" := (List.cons.inj (List.cons.inj hheader).2).1
  rw [Token.terminal, (Prod.mk.inj hsecond).1] at hterminal
  exact keywords_terminals _ (Token.Kind.mem_of_lookup hkeyword) hterminal

/-! ### Names of new projects -/

variable {encode : Manifest → String} {files files' : FileTree} {name directory : String}

theorem populate_ok (h : populate encode files name directory = .ok files') :
    ∃ made, (files.makeDirectories directory).bind
        (·.write (Text.Path.join [directory, manifestName]) (.text (encode (manifest name)))) =
          .ok made ∧
      (made.contains (Text.Path.join [directory, entryName]) = true ∧ files' = made ∨
        files'.entries.lookup (place (Text.Path.join [directory, entryName])) =
          some { content := .text (source name), modified := made.clock }) := by
  simp only [populate, bind] at h
  cases hdirectory : files.makeDirectories directory with
  | error f =>
    rw [hdirectory] at h
    cases h
  | ok there =>
    rw [hdirectory] at h
    simp only [Except.bind] at h ⊢
    split at h
    · cases h
    · rename_i made hmade
      refine ⟨made, hmade, ?_⟩
      split at h
      · exact .inl ⟨‹_›, (Except.ok.inj h).symm⟩
      · rw [FileTree.write_eq_store h, FileTree.store, FileTree.lookup_setEntry, if_pos rfl]
        exact .inr rfl

/-- A new project is made where there is none, under a valid name. -/
theorem create_eq_ok :
    create encode files name directory = .ok files' ↔
      files.find (Text.Path.join [directory, manifestName]) = .error .notFound ∧
        isValid name = true ∧ populate encode files name directory = .ok files' := by
  simp only [create]
  split
  · simp_all
  · cases populate encode files name directory <;> cases isValid name <;> simp_all [Except.mapError]
  · rename_i reason hreason hfind
    simp [hfind, show reason ≠ .notFound from hreason]

theorem find_top {path top : String} (h : place path = [top]) :
    files.find path = (files.entries.lookup [top]).elim (.error .notFound) .ok := by
  simp [FileTree.find, h, FileTree.walk, FileTree.entryAt?, FileTree.rootEntry,
    FileTree.Entry.isDirectory]

theorem write_top {path top : String} (h : place path = [top])
    (hdir : place (Text.Path.dir path) = []) (hnone : files.entries.lookup [top] = none)
    (content : FileTree.Content) : files.write path content = .ok (files.store [top] content) := by
  have hroot : files.find (Text.Path.dir path) = .ok FileTree.rootEntry := by
    rw [FileTree.find, hdir]
    rfl
  simp only [FileTree.write, find_top h, hnone, Option.elim, hroot, h]
  rfl

theorem places : place "/" = [] ∧
    place (Text.Path.join ["/", manifestName]) = ["duck.toml"] ∧
    place (Text.Path.join ["/", entryName]) = ["main.duck"] ∧
    place (Text.Path.dir (Text.Path.join ["/", manifestName])) = [] ∧
    place (Text.Path.dir (Text.Path.join ["/", entryName])) = [] := by
  decide +kernel

/-- Every valid name is taken where there are no files yet. -/
theorem create_valid (encode : Manifest → String) (h : isValid name = true) :
    ∃ files, create encode {} name "/" = .ok files := by
  obtain ⟨hroot, hmanifest, hentry, hmanifestDir, hentryDir⟩ := places
  have hdirectory : FileTree.makeDirectories {} "/" = .ok {} := by
    rw [FileTree.makeDirectories, hroot]
    rfl
  have hwritten : FileTree.write {} (Text.Path.join ["/", manifestName])
      (.text (encode (manifest name))) = .ok _ := write_top hmanifest hmanifestDir rfl _
  generalize hmade : FileTree.store {} ["duck.toml"] (.text (encode (manifest name))) = made
    at hwritten
  have hnone : made.entries.lookup ["main.duck"] = none := by
    rw [← hmade, FileTree.store, FileTree.lookup_setEntry]
    rfl
  have habsent : made.contains (Text.Path.join ["/", entryName]) = false := by
    rw [FileTree.contains, find_top hentry, hnone]
    rfl
  refine ⟨made.store ["main.duck"] (.text (source name)),
    create_eq_ok.mpr ⟨find_top hmanifest, h, ?_⟩⟩
  simp only [populate, bind, Except.bind, hdirectory, hwritten, habsent]
  exact write_top hentry hentryDir hnone _

/-- A text that is valid as an identifier is read as one, unless it is a keyword.  All of them are
names that a new project can bear, but with a keyword for its name the program of the project is not
compiled; with any other it is. -/
theorem names_compile {table : Table} (htable : Grammar.duckTable = .ok table)
    (encode : Manifest → String) (name : String) :
    ((∃ line line', tokenize name = .ok [⟨.identifier, name, line⟩, .endOfInput line']) ↔
      isValid name = true ∧ keyword? name = none) ∧
    (∀ kind, keyword? name = some kind → isValid name = true ∧
      ∃ line line', tokenize name = .ok [⟨kind, name, line⟩, .endOfInput line']) ∧
    ((∃ files directory files', create encode files name directory = .ok files') ↔
      isValid name = true) ∧
    ∀ files directory files', create encode files name directory = .ok files' →
      (∃ made, (files.makeDirectories directory).bind
          (·.write (Text.Path.join [directory, manifestName]) (.text (encode (manifest name)))) =
            .ok made ∧
        (made.contains (Text.Path.join [directory, entryName]) = true ∧ files' = made ∨
          files'.entries.lookup (place (Text.Path.join [directory, entryName])) =
            some { content := .text (source name), modified := made.clock })) ∧
      ∀ default,
        (keyword? name = none → ∃ n, ∀ fuel, n ≤ fuel →
          compile fuel table default (source name) = .program (program name)) ∧
        (∀ fuel compiled, compile fuel table default (source name) = .program compiled →
          keyword? name = none) := by
  obtain rfl := Except.ok.inj (Grammar.duckTable_eq.symm.trans htable)
  refine ⟨tokenize_identifier, fun kind hkind => ?_, ⟨?_, ?_⟩, fun files directory files' h => ?_⟩
  · have hvalid := isValid_of_keyword hkind
    have htokens := tokenize_word hvalid
    rw [hkind] at htokens
    exact ⟨hvalid, htokens⟩
  · rintro ⟨files, directory, files', h⟩
    exact (create_eq_ok.mp h).2.1
  · intro hvalid
    obtain ⟨files', h⟩ := create_valid encode hvalid
    exact ⟨{}, "/", files', h⟩
  · obtain ⟨-, hvalid, hpopulate⟩ := create_eq_ok.mp h
    refine ⟨populate_ok hpopulate, fun default => ⟨fun hfree => ?_, fun fuel compiled h => ?_⟩⟩
    · exact compile_source hvalid hfree default
    · by_contra hkeyword
      obtain ⟨kind, hkind⟩ := Option.ne_none_iff_exists'.mp hkeyword
      exact source_fails hvalid hkind fuel default compiled h

theorem names_compile_duck :
    (∃ files', create Starter.encode {} "duck" "/" = .ok files' ∧ ∃ n, ∀ fuel, n ≤ fuel →
      compile fuel Grammar.duck.table "" (source "duck") = .program (program "duck")) ∧
    isValid "write" = true ∧
      ∃ line line', tokenize "write" = .ok [⟨.writeWord, "write", line⟩, .endOfInput line'] := by
  obtain ⟨-, -, -, hprograms⟩ := names_compile Grammar.duckTable_eq Starter.encode "duck"
  obtain ⟨files', hcreate⟩ := create_valid Starter.encode (show isValid "duck" = true by decide)
  obtain ⟨-, hkeywords, -⟩ := names_compile Grammar.duckTable_eq Starter.encode "write"
  exact ⟨⟨files', hcreate, ((hprograms {} "/" files' hcreate).2 "").1 (by decide)⟩,
    hkeywords .writeWord rfl⟩

/-- A new project can be named by a keyword, and then its program is not compiled. -/
theorem keyword_named :
    isValid "if" = true ∧ tokenize "if" = .ok [⟨.ifWord, "if", 1⟩, .endOfInput 1] ∧
      (∃ files', create Starter.encode {} "if" "/" = .ok files') ∧
      ∀ table, Grammar.duckTable = .ok table → ∀ fuel default program,
        compile fuel table default (source "if") ≠ .program program := by
  have hvalid : isValid "if" = true := by decide
  refine ⟨hvalid, rfl, create_valid Starter.encode hvalid, ?_⟩
  intro table htable fuel default program
  obtain rfl := Except.ok.inj (Grammar.duckTable_eq.symm.trans htable)
  exact source_fails hvalid rfl fuel default program

end Project.Starter

end DuckLang
