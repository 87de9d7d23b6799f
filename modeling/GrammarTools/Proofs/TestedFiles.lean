import GrammarTools.Proofs.Opening
import GrammarTools.Proofs.Printing
import GrammarTools.Proofs.Sessions
import GrammarTools.Proofs.SexpForms
import Mathlib.Algebra.BigOperators.Group.List.Basic
import Mathlib.Control.Monad.Basic

/-!
# Corpus files that are run

The files given to `test` are run one after the other, up to the first that cannot be
opened or is no corpus file. Each of them says the same wherever it stands: its path, and
a line for each of its tests (`Command.says_testFile`). Differences and the summary are
printed behind all of them, and only if there is no file that stops the command
(`Command.run_test_files`).
-/

namespace GrammarTools

/-- A corpus file with its tests, and the language in which they are run. -/
structure TestedFile where
  /-- The path of the file. -/
  path : String
  /-- The language. -/
  language : Language
  /-- The tests. -/
  entries : List CorpusEntry

/-- Whether something printed is a line for a test with the given mark. -/
def Output.isMarked (mark : Char) : Output → Bool
  | .text line => [' ', ' ', mark, ' '].isPrefixOf line.toList
  | .difference _ => false

namespace TestedFile

/-- The tests are those in the text of the file, and the language is that of its grammar. -/
def IsFound (host : Host) (config : Config) (language : Option String) (file : TestedFile) : Prop :=
  ∃ g source, Command.grammarFor? config language file.path = some g ∧
    host.read file.path = .ok source ∧ Corpus.entries source = .ok file.entries ∧
    g.language = .ok file.language

variable (file : TestedFile) (e : CorpusEntry)

/-- The S-expression of the tree for a test, in normal form. -/
def actual : String := Sexp.normalize (Tree.parse file.language e.input).root.toSexp

/-- Whether the tree for a test is the expected one. -/
def passes : Bool := Sexp.normalize e.expected == file.actual e

/-- The line for a test. -/
def line : Output := .text (if file.passes e then s!"  ✓ {e.name}\n" else s!"  ✗ {e.name}\n")

/-- The lines for all tests. -/
def lines : List Output := file.entries.map file.line

/-- What is printed of the file as it is run. -/
def listing : List Output := .text s!"{file.path}:\n" :: file.lines

/-- How the trees differ from the expected ones. -/
def differences : List Output :=
  (file.entries.filter fun e => !file.passes e).map fun e =>
    .difference ⟨e.name, e.expected, file.actual e⟩

/-- The number of tests that pass. -/
def passed : Nat := file.entries.countP file.passes

/-- The number of tests that fail. -/
def failed : Nat := file.entries.countP fun e => !file.passes e

/-- The last line, with the numbers of tests that pass and fail. -/
def summary (files : List TestedFile) : Output :=
  .text s!"\n{(files.map passed).sum} passed, {(files.map failed).sum} failed\n"

end TestedFile

/-- What is seen in the end of some paths, where `files` are the files at the first `count` of them,
    and the next one stops the command. -/
structure FilesTested (paths : List String) (count : Nat) (files : List TestedFile) (o : Outcome) :
    Prop where
  /-- The files are listed, and then the differences and the summary, if no file stops the
      command. -/
  output : count = paths.length →
    o.transcript.output = files.flatMap TestedFile.listing ++
      (files.flatMap TestedFile.differences ++ [TestedFile.summary files])
  /-- The line for a test is one line, since its name has no line feed. -/
  oneLine : ∀ file ∈ files, ∀ e ∈ file.entries, '\n' ∉ e.name.toList
  /-- The first number of the summary is that of the lines for tests that pass. -/
  passed : (files.map TestedFile.passed).sum =
    (files.flatMap TestedFile.lines).countP (Output.isMarked '✓')
  /-- The second number of the summary is that of the lines for tests that fail. -/
  failed : (files.map TestedFile.failed).sum =
    (files.flatMap TestedFile.lines).countP (Output.isMarked '✗')
  /-- Every test is counted once. -/
  total : (files.map TestedFile.passed).sum + (files.map TestedFile.failed).sum =
    (files.map fun file => file.entries.length).sum
  /-- It is a success if all tests pass. -/
  exitCode_eq_zero_iff : count = paths.length →
    (o.exitCode = 0 ↔ ∀ file ∈ files, ∀ e ∈ file.entries, file.passes e = true)
  /-- It is a failure if a file stops the command, and nothing is printed from there on. -/
  stopped : count ≠ paths.length →
    o.exitCode = 1 ∧ o.transcript.output = files.flatMap TestedFile.listing
  /-- Tests are no reason for a report. -/
  silent : o.transcript.reports = []

/-! ## Names of tests -/

namespace Text

/-- No line has a line feed in it. -/
theorem not_mem_linesFrom {line cs : List Char} {found : List (List Char)} (hline : '\n' ∉ line)
    (hfound : ∀ l ∈ found, '\n' ∉ l) : ∀ l ∈ linesFrom line found cs, '\n' ∉ l := by
  induction cs generalizing line found with
  | nil =>
    intro l hl
    rw [linesFrom, List.mem_reverse] at hl
    split at hl
    · exact hfound l hl
    · rcases List.mem_cons.1 hl with rfl | hl
      · exact mt List.mem_reverse.1 hline
      · exact hfound l hl
  | cons c cs ih =>
    rw [linesFrom]
    split
    · refine ih List.not_mem_nil (List.forall_mem_cons.2 ⟨?_, hfound⟩)
      rw [lineOfReverse.eq_def]
      split <;> simp_all
    · next hc => exact ih (by simp [hline, Ne.symm hc]) hfound

/-- No line has a line feed in it. -/
theorem not_mem_lines (cs : List Char) : ∀ line ∈ lines cs, '\n' ∉ line :=
  not_mem_linesFrom List.not_mem_nil (List.forall_mem_nil _)

theorem trim_subset (cs : List Char) : trim cs ⊆ cs := fun c hc => by
  rw [trim, trimEnd, List.mem_reverse] at hc
  have hstart := List.mem_reverse.1 ((List.dropWhile_suffix isBlank).subset hc)
  exact (List.dropWhile_suffix isBlank).subset hstart

end Text

namespace Corpus

theorem not_mem_join {c : Char} {between : List Char} {lines : List (List Char)}
    (hbetween : c ∉ between) (hlines : ∀ line ∈ lines, c ∉ line) : c ∉ join between lines := by
  intro hmem
  obtain ⟨piece, hpiece, hc⟩ := List.mem_flatten.1 hmem
  rcases mem_of_mem_intersperse hpiece with rfl | hline
  · exact hbetween hc
  · exact hlines piece hline hc

/-- The name of a test stands in one line. -/
theorem Holds.not_mem_name {ls : List (List Char)} {es : List CorpusEntry} (h : Holds ls es)
    (hls : ∀ line ∈ ls, '\n' ∉ line) : ∀ e ∈ es, '\n' ∉ e.name.toList := by
  induction h with
  | nil => exact List.forall_mem_nil _
  | blank _ _ ih => exact ih (List.forall_mem_cons.1 hls).2
  | block b _ ih =>
    obtain ⟨hlines, hrest⟩ := List.forall_mem_append.1 hls
    refine List.forall_mem_cons.2 ⟨?_, ih hrest⟩
    have hname : ∀ line ∈ b.name, '\n' ∉ line := fun line hline =>
      hlines line (List.mem_cons_of_mem _ (List.mem_append_left _ hline))
    rw [Block.entry, String.toList_ofList]
    exact fun hmem => not_mem_join (by decide) hname (Text.trim_subset _ hmem)

end Corpus

namespace TestedFile

variable {host : Host} {config : Config} {language : Option String} {file : TestedFile}
  {e : CorpusEntry} {files : List TestedFile}

/-! ## Lines and numbers -/

/-- The mark of a line tells if its entry has passed. -/
theorem isMarked_line (file : TestedFile) (e : CorpusEntry) :
    (file.line e).isMarked '✓' = file.passes e ∧ (file.line e).isMarked '✗' = !file.passes e := by
  have hpassed : (toString "  ✓ ").toList = [' ', ' ', '✓', ' '] := by decide
  have hfailed : (toString "  ✗ ").toList = [' ', ' ', '✗', ' '] := by decide
  cases h : file.passes e <;> simp [line, h, Output.isMarked, hpassed, hfailed, List.isPrefixOf]

/-- As many entries have passed as there are lines with the mark for it. -/
theorem sum_passed (files : List TestedFile) :
    (files.map passed).sum = (files.flatMap lines).countP (Output.isMarked '✓') := by
  rw [List.countP_flatMap]
  refine congrArg List.sum (List.map_congr_left fun file _ => ?_)
  rw [Function.comp_apply, lines, List.countP_map, passed]
  exact List.countP_congr fun e _ => by rw [Function.comp_apply, (file.isMarked_line e).1]

/-- As many entries have failed as there are lines with the mark for it. -/
theorem sum_failed (files : List TestedFile) :
    (files.map failed).sum = (files.flatMap lines).countP (Output.isMarked '✗') := by
  rw [List.countP_flatMap]
  refine congrArg List.sum (List.map_congr_left fun file _ => ?_)
  rw [Function.comp_apply, lines, List.countP_map, failed]
  exact List.countP_congr fun e _ => by rw [Function.comp_apply, (file.isMarked_line e).2]

theorem passed_add_failed (file : TestedFile) :
    file.passed + file.failed = file.entries.length := by
  rw [passed, failed, List.length_eq_countP_add_countP file.passes]
  simp

theorem sum_passed_add_sum_failed (files : List TestedFile) :
    (files.map passed).sum + (files.map failed).sum =
      (files.map fun file => file.entries.length).sum := by
  rw [← List.sum_map_add]
  exact congrArg List.sum (List.map_congr_left fun file _ => file.passed_add_failed)

theorem sum_failed_eq_zero_iff :
    (files.map failed).sum = 0 ↔ ∀ file ∈ files, ∀ e ∈ file.entries, file.passes e = true := by
  have hfailed (file : TestedFile) :
      file.failed = 0 ↔ ∀ e ∈ file.entries, file.passes e = true := by
    rw [failed, List.countP_eq_zero]
    simp
  rw [List.sum_eq_zero_iff_forall_eq_nat, List.forall_mem_map]
  simp only [hfailed]

/-! ## Outcomes of tests -/

/-- What becomes of a test. -/
def outcome (file : TestedFile) (e : CorpusEntry) : CorpusOutcome :=
  ⟨e.name, e.expected, file.actual e⟩

/-- What a corpus file expects is in normal form, so a test can be compared as it stands. -/
theorem passed_outcome (h : file.IsFound host config language) (he : e ∈ file.entries) :
    (file.outcome e).passed = file.passes e := by
  obtain ⟨g, source, -, -, hentries, -⟩ := h
  obtain ⟨text, htext⟩ := Corpus.exists_expected_eq hentries e he
  have hnormal : Sexp.normalize e.expected = e.expected := by
    rw [htext]
    exact Sexp.normalize_eq_iff.2 (Sexp.atoms_normalize text)
  rw [passes, hnormal]
  rfl

/-- The line that is printed for an outcome is that of its entry. -/
theorem outcomeLine_outcome (h : file.IsFound host config language) (he : e ∈ file.entries) :
    .text (Command.outcomeLine (file.outcome e)) = file.line e := by
  rw [Command.outcomeLine, passed_outcome h he]
  rfl

/-- The outcomes of all tests, of which those that have passed or failed are selected. -/
theorem filter_outcomes (select : Bool → Bool)
    (h : ∀ file ∈ files, file.IsFound host config language) :
    (files.flatMap fun file => file.entries.map file.outcome).filter (select ·.passed) =
      files.flatMap fun file => (file.entries.filter fun e => select (file.passes e)).map
        file.outcome := by
  rw [List.filter_flatMap]
  refine List.flatMap_congr fun file hfile => ?_
  rw [List.filter_map]
  refine congrArg _ (List.filter_congr fun e he => ?_)
  rw [Function.comp_apply, passed_outcome (h file hfile) he]

theorem length_outcomes (files : List TestedFile) (select : TestedFile → CorpusEntry → Bool) :
    (files.flatMap fun file => (file.entries.filter (select file)).map file.outcome).length =
      (files.map fun file => file.entries.countP (select file)).sum := by
  rw [List.length_flatMap]
  refine congrArg List.sum (List.map_congr_left fun file _ => ?_)
  rw [List.length_map, List.countP_eq_length_filter]

/-- What is printed for failed outcomes are the differences of the files. -/
theorem map_difference_outcomes (files : List TestedFile) :
    (files.flatMap fun file => (file.entries.filter fun e => !file.passes e).map file.outcome).map
        Output.difference = files.flatMap differences := by
  rw [List.map_flatMap]
  exact List.flatMap_congr fun file _ => List.map_map

end TestedFile

namespace Command

variable {host : Host} {config : Config} {language : Option String} {path : String}
  {paths : List String} {file : TestedFile} {files : List TestedFile}

open Session

/-- Whether a file can be opened and is a corpus file. -/
def holdsTests (host : Host) (config : Config) (language : Option String) (path : String) : Bool :=
  opens host config language path &&
    match host.read path with
    | .ok contents => (Corpus.entries contents).isOk
    | .error _ => false

/-- The number of files in front of the first that cannot be opened or is no corpus file. -/
def testCount (host : Host) (config : Config) (language : Option String) (paths : List String) :
    Nat :=
  paths.findIdx fun path => !holdsTests host config language path

/-- A corpus file that is found says the same wherever it stands. -/
theorem says_testFile (h : file.IsFound host config language) :
    Says (testFile host config language file.path) ⟨file.listing, []⟩
      (.ok (file.entries.map file.outcome)) := by
  have hlines : (file.entries.map file.outcome).map (fun o => Output.text (outcomeLine o)) =
      file.lines := by
    rw [List.map_map]
    exact List.map_congr_left fun e he => TestedFile.outcomeLine_outcome h he
  obtain ⟨g, source, hg, hsource, hentries, hl⟩ := h
  refine says_lift_bind (openFile_eq_ok hg hsource) ?_
  refine says_lift_bind (a := file.entries) (by rw [hentries]; rfl) ?_
  refine says_lift_bind (a := file.language) (by rw [hl]; rfl) ?_
  refine says_print_bind _ ?_
  rw [← List.append_nil file.lines, ← hlines]
  exact says_forM_bind _ (says_pure _)

/-- A file without tests, or that can not be read, ends the command. -/
theorem says_testFile_error (h : holdsTests host config language path = false) :
    ∃ failure, Says (testFile host config language path) .empty (.error failure) := by
  cases hopens : opens host config language path with
  | false =>
    obtain ⟨failure, hfailure⟩ := exists_openFile_eq_error hopens
    exact ⟨failure, says_lift_bind_error hfailure _⟩
  | true =>
    obtain ⟨g, source, hg, hsource⟩ := exists_of_opens hopens
    cases hentries : Corpus.entries source with
    | ok entries => simp [holdsTests, hopens, hsource, hentries, Except.isOk, Except.toBool] at h
    | error reason =>
      refine ⟨.corpus path reason, says_lift_bind (openFile_eq_ok hg hsource) ?_⟩
      exact says_lift_bind_error (by rw [hentries]; rfl) _

/-- The files that are found are the corpus files that can be opened. -/
theorem exists_isFound_of_holdsTests (h : holdsTests host config language path = true) :
    ∃ file : TestedFile, file.path = path ∧ file.IsFound host config language := by
  obtain ⟨hopens, htests⟩ := Bool.and_eq_true_iff.1 h
  obtain ⟨g, source, hg, hsource⟩ := exists_of_opens hopens
  obtain ⟨l, hl⟩ := exists_language_eq_ok (mem_all_of_grammarFor? hg)
  rw [hsource] at htests
  cases hentries : Corpus.entries source with
  | ok entries => exact ⟨⟨path, l, entries⟩, rfl, g, source, hg, hsource, hentries, hl⟩
  | error reason =>
    dsimp only at htests
    rw [hentries] at htests
    cases htests

/-- What files say one after the other is the list of their lines. -/
theorem join_listing (files : List TestedFile) :
    Transcript.join (files.map fun file => ⟨file.listing, []⟩) =
      ⟨files.flatMap TestedFile.listing, []⟩ := by
  rw [Transcript.join, List.flatMap_map, List.flatMap_map,
    List.flatMap_eq_nil_iff.2 fun _ _ => rfl]

/-- The differences and the summary are printed when all tests have been run. -/
theorem says_outcomes {passed failed : List CorpusOutcome}
    (hpassed : passed.length = (files.map TestedFile.passed).sum)
    (hfailed : failed.length = (files.map TestedFile.failed).sum)
    (hdifferences : failed.map Output.difference = files.flatMap TestedFile.differences) :
    Says (do
        failed.forM fun o => print (.difference o)
        printText s!"\n{passed.length} passed, {failed.length} failed\n"
        unless failed.isEmpty do throw (.failedTests failed.length))
      ⟨files.flatMap TestedFile.differences ++ [TestedFile.summary files], []⟩
      (if (files.map TestedFile.failed).sum = 0 then .ok ()
        else .error (.failedTests (files.map TestedFile.failed).sum)) := by
  rw [← hdifferences, TestedFile.summary, ← hpassed, ← hfailed]
  refine says_forM_bind _ (says_print_bind _ ?_)
  cases failed with
  | nil => exact says_pure ()
  | cons o rest => exact says_throw _

/-- If all files hold tests, the command says their lines, then the differences and the summary. -/
theorem says_test
    (hfiles : files.map TestedFile.path = paths.take (testCount host config language paths))
    (hfound : ∀ file ∈ files, file.IsFound host config language)
    (hcount : testCount host config language paths = paths.length) :
    Says (test host config language paths)
      (⟨files.flatMap TestedFile.listing, []⟩ ++
        ⟨files.flatMap TestedFile.differences ++ [TestedFile.summary files], []⟩)
      (if (files.map TestedFile.failed).sum = 0 then .ok ()
        else .error (.failedTests (files.map TestedFile.failed).sum)) := by
  have hall := (says_mapM_upTo hfiles (fun file hfile => says_testFile (hfound file hfile))
    fun path _ hpath => says_testFile_error hpath).1 hcount
  rw [join_listing] at hall
  -- The command sorts the outcomes of all files at once; here they are sorted file by file.
  have houtcomes : (files.map fun file => file.entries.map file.outcome).flatten.partition
      CorpusOutcome.passed =
        (files.flatMap fun file => (file.entries.filter file.passes).map file.outcome,
          files.flatMap fun file => (file.entries.filter fun e => !file.passes e).map
            file.outcome) := by
    rw [List.partition_eq_filter_filter, ← List.flatMap_def]
    exact Prod.ext (TestedFile.filter_outcomes (fun b => b) hfound)
      (TestedFile.filter_outcomes (fun b => !b) hfound)
  refine hall.bind ?_
  dsimp only
  rw [houtcomes]
  exact says_outcomes (TestedFile.length_outcomes files _) (TestedFile.length_outcomes files _)
    (TestedFile.map_difference_outcomes files)

/-- If one of them does not, only the files before it are listed. -/
theorem says_test_error
    (hfiles : files.map TestedFile.path = paths.take (testCount host config language paths))
    (hfound : ∀ file ∈ files, file.IsFound host config language)
    (hcount : testCount host config language paths ≠ paths.length) :
    ∃ failure, Says (test host config language paths) ⟨files.flatMap TestedFile.listing, []⟩
      (.error failure) := by
  obtain ⟨failure, hfailure⟩ := (says_mapM_upTo hfiles
    (fun file hfile => says_testFile (hfound file hfile))
    fun path _ hpath => says_testFile_error hpath).2 hcount
  rw [join_listing] at hfailure
  exact ⟨failure, hfailure.bind_error _⟩

/-- The files up to the first that stops the command are heard, and the summary if there is none. -/
theorem exists_says_test
    (hfiles : files.map TestedFile.path = paths.take (testCount host config language paths))
    (hfound : ∀ file ∈ files, file.IsFound host config language) :
    ∃ output result, Says (test host config language paths) ⟨output, []⟩ result ∧
      (testCount host config language paths = paths.length →
        output = files.flatMap TestedFile.listing ++
          (files.flatMap TestedFile.differences ++ [TestedFile.summary files]) ∧
        (result = .ok () ↔ (files.map TestedFile.failed).sum = 0)) ∧
      (testCount host config language paths ≠ paths.length →
        output = files.flatMap TestedFile.listing ∧ result ≠ .ok ()) := by
  by_cases hcount : testCount host config language paths = paths.length
  · refine ⟨_, _, says_test hfiles hfound hcount, fun _ => ⟨rfl, ?_⟩, fun h => (h hcount).elim⟩
    split <;> simp_all
  · obtain ⟨failure, hfailure⟩ := says_test_error hfiles hfound hcount
    exact ⟨_, _, hfailure, fun h => (hcount h).elim, fun _ => ⟨rfl, nofun⟩⟩

/-- The name of an entry is in one line. -/
theorem not_mem_name (h : file.IsFound host config language) :
    ∀ e ∈ file.entries, '\n' ∉ e.name.toList := by
  obtain ⟨g, source, -, -, hentries, -⟩ := h
  exact (Corpus.holds_iff.2 hentries).not_mem_name (Text.not_mem_lines _)

/-- Corpus files are run up to the first that cannot be opened or is no corpus file. -/
theorem run_test_files {arguments : List String} {configPath : Option String}
    (hread : CommandLine.read arguments = .ok ⟨configPath, .test language paths⟩)
    (hload : loadConfig host configPath = .ok config) :
    ∃ files : List TestedFile,
      files.map TestedFile.path = paths.take (testCount host config language paths) ∧
      (∀ file ∈ files, file.IsFound host config language) ∧
      FilesTested paths (testCount host config language paths) files (run host arguments) := by
  have hholds : ∀ path ∈ paths, holdsTests host config language path = true →
      ∃ file : TestedFile, file.path = path ∧ file.IsFound host config language :=
    fun _ _ hpath => exists_isFound_of_holdsTests hpath
  -- The files up to the first that holds no tests, each with what it holds.
  obtain ⟨files, hfiles, hfound⟩ := exists_map_eq_take hholds
  obtain ⟨output, result, hsays, hall, hsome⟩ := exists_says_test hfiles hfound
  have hsession : Says (session host ⟨configPath, .test language paths⟩) ⟨output, []⟩ result :=
    says_lift_bind hload hsays
  have hrun : run host arguments = .ofResult ⟨output, []⟩ result := by
    rw [run, hread]
    exact outcome_of_says hsession
  have hzero : (Outcome.ofResult ⟨output, []⟩ result).exitCode = 0 ↔ result = .ok () :=
    Outcome.exitCode_ofResult_eq_zero_iff _ _
  rw [hrun]
  exact ⟨files, hfiles, hfound, {
    output := fun hcount => by rw [Outcome.transcript_ofResult, (hall hcount).1]
    oneLine := fun file hfile => not_mem_name (hfound file hfile)
    passed := TestedFile.sum_passed files
    failed := TestedFile.sum_failed files
    total := TestedFile.sum_passed_add_sum_failed files
    exitCode_eq_zero_iff := fun hcount => by
      rw [hzero, (hall hcount).2, TestedFile.sum_failed_eq_zero_iff]
    stopped := fun hcount =>
      ⟨(Outcome.exitCode_ofResult _ _).resolve_left (mt hzero.1 (hsome hcount).2),
        by rw [Outcome.transcript_ofResult, (hsome hcount).1]⟩
    silent := by rw [Outcome.transcript_ofResult] }⟩

/-- A host with a corpus file of two tests, of which the second one fails, a corpus file of one test
    that passes, and a file of notes. -/
def threeTests : Host where
  read path :=
    if path = "calls.txt" then
      .ok ("===\nNo call\n===\n---\n(source_file)\n" ++
        "===\nOne call\n===\nfoo()..\n---\n(source_file)\n")
    else if path = "names.txt" then
      .ok "===\nName\n===\nfoo\n---\n(source_file (field_identifier))\n"
    else if path = "notes.txt" then .ok "To be done\n"
    else .error .missing
  input := .error .missing
  environment _ := none
  isTerminal := false

/-- All files are run if all hold tests, and the first one alone if the second one is none. -/
theorem run_test_files_notes :
    (CommandLine.read ["test", "--language", "simpl", "calls.txt", "names.txt"] =
        .ok ⟨none, .test (some "simpl") ["calls.txt", "names.txt"]⟩ ∧
      loadConfig threeTests none = .ok .empty ∧
      ∃ files : List TestedFile, files.map TestedFile.path = ["calls.txt", "names.txt"] ∧
        (∀ file ∈ files, file.IsFound threeTests .empty (some "simpl")) ∧
        FilesTested ["calls.txt", "names.txt"] 2 files
          (run threeTests ["test", "--language", "simpl", "calls.txt", "names.txt"])) ∧
    (run threeTests ["test", "--language", "simpl", "calls.txt", "names.txt"]).stdout =
      "calls.txt:\n  ✓ No call\n  ✗ One call\nnames.txt:\n  ✓ Name\n" ++
      "\nOne call:\nexpected:\n(source_file)\nactual:\n" ++
      "(source_file\n  (field_identifier)\n  (ERROR))\n" ++
      "\n2 passed, 1 failed\n" ∧
    CommandLine.read ["test", "--language", "simpl", "calls.txt", "notes.txt"] =
      .ok ⟨none, .test (some "simpl") ["calls.txt", "notes.txt"]⟩ ∧
    ∃ files : List TestedFile, files.map TestedFile.path = ["calls.txt"] ∧
      (∀ file ∈ files, file.IsFound threeTests .empty (some "simpl")) ∧
      FilesTested ["calls.txt", "notes.txt"] 1 files
        (run threeTests ["test", "--language", "simpl", "calls.txt", "notes.txt"]) := by
  have hload : loadConfig threeTests none = .ok .empty := rfl
  have hread : CommandLine.read ["test", "--language", "simpl", "calls.txt", "names.txt"] =
      .ok ⟨none, .test (some "simpl") ["calls.txt", "names.txt"]⟩ := by
    decide +kernel
  have hcount : testCount threeTests .empty (some "simpl") ["calls.txt", "names.txt"] = 2 := by
    decide +kernel
  have hread' : CommandLine.read ["test", "--language", "simpl", "calls.txt", "notes.txt"] =
      .ok ⟨none, .test (some "simpl") ["calls.txt", "notes.txt"]⟩ := by
    decide +kernel
  have hcount' : testCount threeTests .empty (some "simpl") ["calls.txt", "notes.txt"] = 1 := by
    decide +kernel
  obtain ⟨files, hfiles, hfound, htested⟩ := run_test_files hread hload
  obtain ⟨files', hfiles', hfound', htested'⟩ := run_test_files hread' hload
  rw [hcount] at hfiles htested
  rw [hcount'] at hfiles' htested'
  exact ⟨⟨hread, hload, files, hfiles, hfound, htested⟩, by decide +kernel, hread', files', hfiles',
    hfound', htested'⟩

end Command

end GrammarTools
