import DuckLang.Proofs.Machine.Recording
import Mathlib.Data.List.Basic
import Mathlib.Data.List.DropRight

/-! Scripted lines as a text.  The console of a program reads its scripted lines from a text in which
a newline stands between two of them, and the reader ends a line at a newline or at the end of the
text.  So it returns the lines one by one, as a console that replays the list does, except that an
empty line behind the last newline is never read.  Beyond the last line both consoles fail, each in
its own words. -/

namespace DuckLang

namespace Console

variable {κ κ' : Type}

/-- What a number of successive reads return. -/
def readLines [Console κ] : Nat → κ → List (Except String String)
  | 0, _ => []
  | n + 1, c => (readLine c).1 :: readLines n (readLine c).2

/-- A console with other words for a failed read. -/
@[reducible] def reworded (word : String → String) [Console κ] : Console κ where
  readLine c := ((readLine c).1.mapError word, (readLine c).2)
  writeLine := writeLine

theorem SeenAs.readLines [Console κ] [Console κ'] {view : κ → κ'} (hview : SeenAs view) (n : Nat)
    (c : κ) : readLines n (view c) = readLines n c := by
  induction n generalizing c with
  | zero => rfl
  | succ n ih => simp only [Console.readLines, hview.readLine, ih]

theorem readLines_reworded [Console κ] (word : String → String) (n : Nat) (c : κ) :
    @readLines κ (reworded word) n c = (readLines n c).map (·.mapError word) := by
  induction n generalizing c with
  | zero => rfl
  | succ n ih => exact congrArg (List.cons _) (ih _)

/-- The lines of a list one by one, then failures. -/
theorem readLines_scripted (n : Nat) (inputs : List String) (output : Array String) :
    readLines n ({ inputs, output } : Scripted) =
      List.take n (inputs.map .ok ++ List.replicate n (.error "no more input")) := by
  induction n generalizing inputs with
  | zero => rfl
  | succ n ih =>
    cases inputs with
    | nil => simpa [readLines, readLine, List.replicate_succ] using ih []
    | cons line inputs =>
      simp only [readLines, readLine, ih, List.map_cons, List.cons_append, List.take_succ_cons]
      -- one failure more behind the lines is not reached
      rw [List.take_append, List.take_append, List.take_replicate, List.take_replicate,
        Nat.min_eq_left (by omega), Nat.min_eq_left (by omega)]

/-- The lines written to a scripted console, each with a newline behind it. -/
def Scripted.text (c : Scripted) : String :=
  c.output.foldl (fun text line => text ++ line ++ "\n") ""

/-- A line in which no line break stands. -/
def Unbroken (line : String) : Prop :=
  ∀ c ∈ line.toList, c ≠ '\r' ∧ c ≠ '\n'

theorem Unbroken.newline_notMem {line : String} (h : Unbroken line) : '\n' ∉ line.toList :=
  fun hmem => (h _ hmem).2 rfl

/-- The scripted lines that a program can read: an empty last line is lost. -/
def heard (inputs : List String) : List String :=
  if inputs.getLast? = some "" then inputs.dropLast else inputs

theorem heard_eq_self_iff {inputs : List String} :
    heard inputs = inputs ↔ inputs.getLast? ≠ some "" := by
  refine ⟨fun h hlast => ?_, fun h => if_neg h⟩
  rw [heard, if_pos hlast] at h
  obtain ⟨lines, rfl⟩ := List.getLast?_eq_some_iff.1 hlast
  simpa using congrArg List.length h

theorem heard_concat (lines : List String) (last : String) :
    heard (lines ++ [last]) = lines ++ if last = "" then [] else [last] := by
  by_cases hempty : last = "" <;> simp [heard, hempty]

namespace Stream

/-- Lines with a newline between two of them: each but the last has a newline behind it. -/
theorem toList_intercalate_concat (lines : List String) (last : String) :
    ("\n".intercalate (lines ++ [last])).toList =
      (lines.flatMap fun line => line.toList ++ ['\n']) ++ last.toList := by
  induction lines with
  | nil => simp
  | cons line lines ih =>
    rw [List.cons_append, String.intercalate_cons_of_ne_nil (by simp)]
    simp [ih]

theorem splitLine_unbroken {line : List Char} (h : '\n' ∉ line) (rest : List Char) :
    splitLine (line ++ '\n' :: rest) = (line ++ ['\n'], rest) ∧ splitLine line = (line, []) := by
  induction line with
  | nil => simp [splitLine]
  | cons c line ih =>
    rw [List.mem_cons, not_or] at h
    simp [splitLine, Ne.symm h.1, ih h.2]

theorem dropBreaks_unbroken {line : String} (h : Unbroken line) :
    dropBreaks line.toList = line.toList ∧ dropBreaks (line.toList ++ ['\n']) = line.toList := by
  have hkept : line.toList.rdropWhile (fun c => c = '\r' || c = '\n') = line.toList := by
    rw [List.rdropWhile_eq_self_iff]
    intro hne
    simpa using h _ (List.getLast_mem hne)
  exact ⟨hkept, (List.rdropWhile_concat_pos _ _ _ (by simp)).trans hkept⟩

theorem readLine_of_ne_nil {input : List Char} (hne : input ≠ []) (output : String) :
    readLine ({ input, output } : Stream) =
      (.ok (String.ofList (dropBreaks (splitLine input).1)),
        { input := (splitLine input).2, output }) := by
  cases input with
  | nil => exact absurd rfl hne
  | cons c cs => rfl

theorem readLine_line {line : String} (h : Unbroken line) (rest : List Char) (output : String) :
    readLine ({ input := line.toList ++ '\n' :: rest, output } : Stream) =
      (.ok line, { input := rest, output }) := by
  rw [readLine_of_ne_nil (by simp), (splitLine_unbroken h.newline_notMem rest).1,
    (dropBreaks_unbroken h).2, String.ofList_toList]

theorem readLine_last {line : String} (h : Unbroken line) (hne : line ≠ "") (output : String) :
    readLine ({ input := line.toList, output } : Stream) = (.ok line, { input := [], output }) := by
  rw [readLine_of_ne_nil (by simpa using hne), (splitLine_unbroken h.newline_notMem []).2,
    (dropBreaks_unbroken h).1, String.ofList_toList]

end Stream

/-! ### Lines and the text they are joined into -/

/-- Lines still to be read: those with a newline behind them, and what stands behind the last
newline, which is not a line when it is empty. -/
structure Replay where
  lines : List { line : String // Unbroken line }
  last : { line : String // Unbroken line }
  output : Array String := #[]

namespace Replay

instance : Console Replay where
  readLine c :=
    match c.lines with
    | line :: lines => (.ok line, { c with lines })
    | [] =>
      if c.last.val = "" then (.error "no more input", c)
      else (.ok c.last, { c with last := ⟨"", by simp [Unbroken]⟩ })
  writeLine line c := (.ok (), { c with output := c.output.push line })

def scripted (c : Replay) : Scripted where
  inputs := c.lines.map (·.val) ++ if c.last.val = "" then [] else [c.last.val]
  output := c.output

def stream (c : Replay) : Stream where
  input := (c.lines.flatMap fun line => line.val.toList ++ ['\n']) ++ c.last.val.toList
  output := Scripted.text { output := c.output }

theorem scripted_seenAs : SeenAs scripted where
  readLine c := by
    obtain ⟨_ | ⟨line, lines⟩, last, output⟩ := c
    · by_cases hempty : last.val = "" <;> simp [readLine, scripted, hempty]
    · rfl
  writeLine line c := rfl

theorem stream_readLine (c : Replay) :
    readLine c.stream = ((readLine c).1.mapError fun _ => "EOF", (readLine c).2.stream) := by
  obtain ⟨_ | ⟨line, lines⟩, last, output⟩ := c
  · by_cases hempty : last.val = ""
    · simp [readLine, stream, hempty, Except.mapError]
    · have hread : readLine (⟨[], last, output⟩ : Replay) =
          (.ok last.val, ⟨[], ⟨"", by simp [Unbroken]⟩, output⟩) := if_neg hempty
      rw [hread]
      exact Stream.readLine_last last.property hempty _
  · simp only [stream, List.flatMap_cons, List.append_assoc, List.cons_append, List.nil_append]
    exact Stream.readLine_line line.property _ _

theorem stream_seenAs : @SeenAs Replay Stream (reworded fun _ => "EOF") _ stream := by
  refine @SeenAs.mk Replay Stream (reworded fun _ => "EOF") _ stream stream_readLine
    fun line c => ?_
  simp [writeLine, stream, Scripted.text]

/-- Joined lines are the text of lines still to be read, and what a program can read of them is what
a console replays that has these lines to give. -/
theorem exists_ofSettings {inputs : List String} (hne : inputs ≠ [])
    (hunbroken : ∀ line ∈ inputs, Unbroken line) (input : String) :
    ∃ c : Replay, c.stream = .ofSettings inputs input ∧ c.scripted = { inputs := heard inputs } := by
  obtain ⟨lines, last, rfl⟩ := (List.eq_nil_or_concat' inputs).resolve_left hne
  refine ⟨⟨lines.attachWith Unbroken fun line h => hunbroken line (by simp [h]),
    ⟨last, hunbroken last (by simp)⟩, #[]⟩, ?_, ?_⟩
  · rw [Stream.ofSettings, if_neg (by simp), Stream.toList_intercalate_concat]
    simp [stream, Scripted.text]
  · rw [heard_concat]
    simp [scripted]

end Replay

end Console

/-! ### Runs -/

/-- A fault without the words in which a read failed. -/
def Fault.wordless (f : Fault) : Fault :=
  match f.cause with
  | .readFailed _ => { f with cause := .readFailed "" }
  | _ => f

namespace Machine

variable {κ κ' : Type} {p : Program} {limit : Int} {m : Machine κ}

/-- How a run ends, without the words in which a read failed. -/
def Outcome.wordless : Outcome κ → Outcome κ
  | faulted f m => faulted f.wordless m
  | finished m => finished m
  | unfinished m => unfinished m

theorem Outcome.wordless_seen (view : κ → κ') (outcome : Outcome κ) :
    (outcome.seen view).wordless = outcome.wordless.seen view := by
  cases outcome <;> rfl

theorem Outcome.seen_seen {κ'' : Type} (view : κ → κ') (view' : κ' → κ'')
    (outcome : Outcome κ) : (outcome.seen view).seen view' = outcome.seen (view' ∘ view) := by
  cases outcome <;> rfl

/-- A read on a console that fails in other words. -/
theorem read_reworded [Console κ] (word : String → String) (operand : Operand) :
    @read κ (Console.reworded word) m operand = read m operand ∨
      ∃ reason m', @read κ (Console.reworded word) m operand =
          (.error (.readFailed (word reason)), m') ∧
        read m operand = (.error (.readFailed reason), m') := by
  cases htarget : operand.target? with
  | none => exact .inl (by simp only [read, htarget])
  | some address =>
    cases hplace : Address.place? address with
    | none => exact .inl (by simp only [read, htarget, hplace])
    | some place =>
      rcases hline : Console.readLine m.console with ⟨result, console⟩
      have hline' : @Console.readLine κ (Console.reworded word) m.console =
          (result.mapError word, console) :=
        congrArg (fun read => (read.1.mapError word, read.2)) hline
      cases result with
      | ok line =>
        refine .inl ?_
        simp only [read, htarget, hplace, hline, hline', Except.mapError]
      | error reason =>
        refine .inr ⟨reason, { m with console }, ?_, ?_⟩ <;>
          simp only [read, htarget, hplace, hline, hline', Except.mapError]

theorem execute_reworded [Console κ] (word : String → String) (q : Quad) :
    @execute κ (Console.reworded word) p limit m q = execute p limit m q ∨
      ∃ f f' m', @execute κ (Console.reworded word) p limit m q = .faulted f' m' ∧
        execute p limit m q = .faulted f m' ∧ f'.wordless = f.wordless := by
  by_cases hop : q.op = .read
  · simp only [execute, hop]
    rcases read_reworded (m := m) word q.result with hsame | ⟨reason, m', hread', hread⟩
    · rw [hsame]
      exact .inl rfl
    · rw [hread', hread]
      exact .inr ⟨_, _, m', rfl, rfl, rfl⟩
  · refine .inl ?_
    -- no other operation reads
    simp only [execute]
    cases hq : q.op <;> first | rfl | exact absurd hq hop

theorem step_reworded [Console κ] (word : String → String) :
    @step κ (Console.reworded word) p limit m = step p limit m ∨
      ∃ f f' m', @step κ (Console.reworded word) p limit m = .faulted f' m' ∧
        step p limit m = .faulted f m' ∧ f'.wordless = f.wordless := by
  simp only [step]
  split
  · exact .inl rfl
  · exact execute_reworded word _

/-- A run is the same on a console that fails in other words, but for these words. -/
theorem run_reworded [Console κ] (word : String → String) (fuel : Nat) :
    (@run κ (Console.reworded word) p limit fuel m).wordless = (run p limit fuel m).wordless := by
  induction fuel generalizing m with
  | zero => rfl
  | succ fuel ih =>
    simp only [run]
    rcases @step_reworded _ p limit m _ word with hsame | ⟨f, f', m', hfault', hfault, hwords⟩
    · rw [hsame]
      cases step p limit m with
      | next m' => exact ih
      | finished m' => rfl
      | faulted f m' => rfl
    · rw [hfault', hfault]
      exact congrArg (Outcome.faulted · m') hwords

/-- A run on lines still to be read, as the text they are joined into and as a list to replay. -/
theorem run_replay (c : Console.Replay) (p : Program) (limit : Int) (fuel : Nat)
    (globals : Memory) :
    ((run p limit fuel (start p globals c.stream)).seen Console.Stream.output).wordless =
      ((run p limit fuel (start p globals c.scripted)).seen Console.Scripted.text).wordless := by
  have hstream : run p limit fuel (start p globals c.stream) =
      (@run _ (Console.reworded fun _ => "EOF") p limit fuel (start p globals c)).seen
        Console.Replay.stream :=
    @run_seen _ _ _ p (start p globals c) (Console.reworded fun _ => "EOF") _
      Console.Replay.stream_seenAs limit fuel
  have hscripted : run p limit fuel (start p globals c.scripted) =
      (run p limit fuel (start p globals c)).seen Console.Replay.scripted :=
    run_seen (m := start p globals c) Console.Replay.scripted_seenAs limit fuel
  calc
    _ = (@run _ (Console.reworded fun _ => "EOF") p limit fuel (start p globals c)).wordless.seen
          (Console.Stream.output ∘ Console.Replay.stream) := by
      rw [hstream, Outcome.seen_seen, Outcome.wordless_seen]
    _ = (run p limit fuel (start p globals c)).wordless.seen
          (Console.Scripted.text ∘ Console.Replay.scripted) := by
      rw [run_reworded]
      rfl
    _ = _ := by rw [hscripted, Outcome.seen_seen, Outcome.wordless_seen]

end Machine

namespace Console

/-- Scripted lines without line breaks are read one by one, in their order, and then every read
fails, as on a console that replays them; only an empty last line is lost.  So a run is the run on a
console that replays the lines a program can read, with the same machine and the same text written
after every number of steps, but for the words in which a read beyond them fails. -/
theorem ofSettings_replays {inputs : List String} (hne : inputs ≠ [])
    (hunbroken : ∀ line ∈ inputs, Unbroken line) (input : String) :
    (∀ n, readLines n (Stream.ofSettings inputs input) =
      List.take n ((heard inputs).map .ok ++ List.replicate n (.error "EOF"))) ∧
    (∀ n, readLines n ({ inputs } : Scripted) =
      List.take n (inputs.map .ok ++ List.replicate n (.error "no more input"))) ∧
    (∀ (p : Program) (limit : Int) (fuel : Nat) (globals : Memory),
      ((Machine.run p limit fuel (Machine.start p globals
          (Stream.ofSettings inputs input))).seen Stream.output).wordless =
        ((Machine.run p limit fuel (Machine.start p globals
          ({ inputs := heard inputs } : Scripted))).seen Scripted.text).wordless) ∧
    (heard inputs = inputs ↔ inputs.getLast? ≠ some "") := by
  obtain ⟨c, hstream, hscripted⟩ := Replay.exists_ofSettings hne hunbroken input
  refine ⟨fun n => ?_, fun n => readLines_scripted n inputs #[], fun p limit fuel globals => ?_,
    heard_eq_self_iff⟩
  · calc
      _ = (readLines n c).map (·.mapError fun _ => "EOF") := by
        rw [← hstream, @SeenAs.readLines _ _ (reworded fun _ => "EOF") _ _ Replay.stream_seenAs,
          readLines_reworded]
      _ = _ := by
        rw [← Replay.scripted_seenAs.readLines, hscripted, readLines_scripted]
        simp [Except.mapError, Function.comp_def]
  · rw [← hstream, ← hscripted]
    exact Machine.run_replay c p limit fuel globals

theorem ofSettings_replays_blankLine :
    readLines 4 (Stream.ofSettings ["3", "", "4"] "5") =
      [.ok "3", .ok "", .ok "4", .error "EOF"] :=
  ((ofSettings_replays (by decide) (by simp [Unbroken]) "5").1 4).trans (by simp [heard])

/-- A program that reads an int and then a char. -/
def readsTwice : Program where
  name := "p"
  quads := #[
    { op := .read, result := .address (Address.low .globals .int) .int },
    { op := .read, result := .address (Address.low .globals .char) .char },
    { op := .halt }]
  functions := [(mainName, { name := mainName, entry := 0 })]
  constants := []
  strings := []
  globals := { int := 1, char := 1 }

/-- An empty line at the end, which a console that replays the lines gives, cannot be read: a program
that wants a char is told that there is nothing left, and not that the line holds none. -/
theorem ofSettings_loses_lastLine :
    readLines 2 (Stream.ofSettings ["7", ""] "") = [.ok "7", .error "EOF"] ∧
    readLines 2 ({ inputs := ["7", ""] } : Scripted) = [.ok "7", .ok ""] ∧
    (Machine.run readsTwice Machine.defaultLimit 3
      (.start readsTwice {} (Stream.ofSettings ["7", ""] ""))).fault? =
        some { index := 1, op := .read, cause := .readFailed "EOF" } ∧
    (Machine.run readsTwice Machine.defaultLimit 3
      (.start readsTwice {} ({ inputs := ["7", ""] } : Scripted))).fault? =
        some { index := 1, op := .read, cause := .notAn .char "" } := by
  have htext : Stream.ofSettings ["7", ""] "" = { input := ['7', '\n'] } := by
    simp [Stream.ofSettings]
  rw [htext]
  exact ⟨rfl, rfl, by decide +kernel, by decide +kernel⟩

end Console

end DuckLang
