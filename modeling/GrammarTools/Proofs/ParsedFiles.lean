import GrammarTools.Proofs.Opening
import GrammarTools.Proofs.Sessions
import Mathlib.Control.Monad.Basic

/-!
# Files that are parsed

The files given to `parse` are parsed one after the other, up to the first that cannot be
opened. Each of them says the same wherever it stands: the line with its tree, unless the
command is quiet, and a report if there are syntax errors (`Command.says_parseFile`). So
what is printed and reported is that of the files in front of the first that cannot be
opened, whether or not there is one, and the exit code tells that all files have been
parsed and that all are without errors (`Command.run_parse_files`).
-/

namespace GrammarTools

/-- A file with its tree. -/
structure ParsedFile where
  /-- The path of the file. -/
  path : String
  /-- The tree. -/
  tree : Tree

namespace ParsedFile

/-- The tree is that of the text of the file, in the language of its grammar. -/
def IsFound (host : Host) (config : Config) (language : Option String) (file : ParsedFile) : Prop :=
  ∃ g source l, Command.grammarFor? config language file.path = some g ∧
    host.read file.path = .ok source ∧ g.language = .ok l ∧ file.tree = Tree.parse l source

variable (file : ParsedFile)

/-- Whether there are syntax errors. -/
def isBroken : Bool := !file.tree.errors.isEmpty

/-- The line with the tree. -/
def line : String := file.tree.root.toSexp ++ "\n"

/-- The report of the syntax errors, with an entry for each. -/
def report : Report :=
  ⟨s!"{file.path} has {file.tree.errors.length} syntax error(s)", [],
    file.tree.errors.map SyntaxError.report⟩

/-- What is said of the file. -/
def said (isQuiet : Bool) : Transcript :=
  ⟨if isQuiet then [] else [.text file.line], if file.isBroken then [file.report] else []⟩

/-- A report is made exactly if the file is broken. -/
theorem report?_eq :
    file.tree.report? file.path = if file.isBroken then some file.report else none := by
  rw [Tree.report?, isBroken]
  cases file.tree.errors.isEmpty <;> rfl

end ParsedFile

/-- What is seen in the end of some paths, where `files` are the files at the first `count` of them,
    and the next one cannot be opened. -/
structure FilesParsed (isQuiet : Bool) (paths : List String) (count : Nat)
    (files : List ParsedFile) (o : Outcome) : Prop where
  /-- The lines of the files are printed, unless the command is quiet. -/
  stdout : o.stdout = if isQuiet then "" else String.join (files.map ParsedFile.line)
  /-- The files with syntax errors are reported, and only these. -/
  reports : o.transcript.reports = (files.filter ParsedFile.isBroken).map ParsedFile.report
  /-- The exit code tells success from failure. -/
  exitCode : o.exitCode = 0 ∨ o.exitCode = 1
  /-- It is a success if there are paths, all of them are opened, and no tree has an error. -/
  exitCode_eq_zero_iff :
    o.exitCode = 0 ↔ paths ≠ [] ∧ count = paths.length ∧ ∀ file ∈ files, file.tree.errors = []
  /-- Nothing is reported with success. -/
  silent : o.exitCode = 0 → o.transcript.reports = []
  /-- The last message tells how many files have syntax errors, if all are opened. -/
  message : count = paths.length → 0 < files.countP ParsedFile.isBroken →
    o.failure.map Failure.message =
      some s!"{files.countP ParsedFile.isBroken} file(s) have syntax errors"

namespace Command

variable {host : Host} {config : Config} {language : Option String} {isQuiet : Bool}
  {path source : String} {g : RegisteredGrammar} {file : ParsedFile}

open Session

/-- A parsed file says its line, and a report if it is broken. -/
theorem says_parseSource (h : treeOf g source = .ok file.tree) :
    Says (parseSource file.path isQuiet g source) (file.said isQuiet) (.ok !file.isBroken) := by
  refine says_lift_bind h ?_
  rw [file.report?_eq, ParsedFile.said]
  cases file.isBroken with
  | true =>
    cases isQuiet with
    | true => exact says_report_bind file.report (says_pure false)
    | false =>
      exact says_print_bind (.text file.line) (says_report_bind file.report (says_pure false))
  | false =>
    cases isQuiet with
    | true => exact says_pure true
    | false => exact says_print_bind (.text file.line) (says_pure true)

/-- A file that is found says the same wherever it stands. -/
theorem says_parseFile (h : file.IsFound host config language) :
    Says (parseFile host config language isQuiet file.path) (file.said isQuiet)
      (.ok !file.isBroken) := by
  obtain ⟨g, source, l, hg, hsource, hl, htree⟩ := h
  refine says_lift_bind (openFile_eq_ok hg hsource) (says_parseSource ?_)
  rw [treeOf, hl, htree]
  rfl

/-- A file that does not open ends the command. -/
theorem says_parseFile_error (h : opens host config language path = false) :
    ∃ failure, Says (parseFile host config language isQuiet path) .empty (.error failure) := by
  obtain ⟨failure, hfailure⟩ := exists_openFile_eq_error h
  exact ⟨failure, says_lift_bind_error hfailure _⟩

/-- The files that are found are those that can be opened. -/
theorem exists_isFound (h : opens host config language path = true) :
    ∃ file : ParsedFile, file.path = path ∧ file.IsFound host config language := by
  obtain ⟨g, source, hg, hsource⟩ := exists_of_opens h
  obtain ⟨l, hl⟩ := exists_language_eq_ok (mem_all_of_grammarFor? hg)
  exact ⟨⟨path, Tree.parse l source⟩, rfl, g, source, l, hg, hsource, hl, rfl⟩

variable {paths : List String} {files : List ParsedFile}

/-- What files say one after the other are their lines, if they are to be heard. -/
theorem output_join_said (files : List ParsedFile) :
    (Transcript.join (files.map (·.said isQuiet))).output =
      if isQuiet then [] else files.map fun file => .text file.line := by
  rw [Transcript.join, List.flatMap_map]
  cases isQuiet with
  | true => exact List.flatMap_eq_nil_iff.2 fun _ _ => rfl
  | false => exact List.map_eq_flatMap.symm

/-- What they report are the reports of the broken ones. -/
theorem reports_join_said (files : List ParsedFile) :
    (Transcript.join (files.map (·.said isQuiet))).reports =
      (files.filter ParsedFile.isBroken).map ParsedFile.report := by
  induction files with
  | nil => rfl
  | cons file rest ih =>
    rw [List.map_cons, Transcript.join_cons, Transcript.reports_append, ih, List.filter_cons]
    cases hbroken : file.isBroken <;> simp [ParsedFile.said, hbroken]

/-- The files up to the first that cannot be opened are heard, and there is no failure if these
    are all files, there are some, and none of them has syntax errors. -/
theorem exists_says_parseFiles
    (hfiles : files.map ParsedFile.path = paths.take (openCount host config language paths))
    (hfound : ∀ file ∈ files, file.IsFound host config language) :
    ∃ result, Says (parseFiles host config language isQuiet paths)
        (.join (files.map (·.said isQuiet))) result ∧
      (result = .ok () ↔ paths ≠ [] ∧ openCount host config language paths = paths.length ∧
        files.countP ParsedFile.isBroken = 0) ∧
      (openCount host config language paths = paths.length →
        0 < files.countP ParsedFile.isBroken →
          result = .error (.brokenFiles (files.countP ParsedFile.isBroken))) := by
  have hsays : ∀ file ∈ files, Says (parseFile host config language isQuiet file.path)
      (file.said isQuiet) (.ok !file.isBroken) :=
    fun file hfile => says_parseFile (hfound file hfile)
  obtain ⟨hall, hsome⟩ := says_mapM_upTo hfiles hsays fun path _ hpath => says_parseFile_error hpath
  cases paths with
  | nil =>
    obtain rfl : files = [] := List.map_eq_nil_iff.1 hfiles
    exact ⟨.error .nothingToParse, (says_throw _).bind_error _, by simp, by simp⟩
  | cons path rest =>
    by_cases hk : openCount host config language (path :: rest) = (path :: rest).length
    · -- The command counts the files of which it is told that they are not right.
      have hcount : (files.map fun file => !file.isBroken).count false =
          files.countP ParsedFile.isBroken := by
        simp [List.count, List.countP_map, Function.comp_def]
      by_cases hbroken : 0 < files.countP ParsedFile.isBroken
      · refine ⟨.error (.brokenFiles (files.countP ParsedFile.isBroken)), ?_,
          ⟨nofun, fun h => by omega⟩, fun _ _ => rfl⟩
        rw [← Transcript.append_empty (.join _)]
        refine (hall hk).bind ?_
        rw [hcount, if_pos hbroken]
        exact says_throw _
      · refine ⟨.ok (), ?_, ⟨fun _ => ⟨List.cons_ne_nil _ _, hk, by omega⟩, fun _ => rfl⟩,
          fun _ h => (hbroken h).elim⟩
        rw [← Transcript.append_empty (.join _)]
        refine (hall hk).bind ?_
        rw [hcount, if_neg hbroken]
        exact says_pure ()
    · -- A file that does not open ends the command before its own summary.
      obtain ⟨failure, hfailure⟩ := hsome hk
      exact ⟨.error failure, hfailure.bind_error _, ⟨nofun, fun h => (hk h.2.1).elim⟩,
        fun h => (hk h).elim⟩

/-- No file is broken exactly if no tree has an error. -/
theorem countP_isBroken_eq_zero_iff :
    files.countP ParsedFile.isBroken = 0 ↔ ∀ file ∈ files, file.tree.errors = [] := by
  simp [List.countP_eq_zero, ParsedFile.isBroken]

theorem stdout_eq {said : Transcript} {result : Except Failure Unit}
    (h : said.output = if isQuiet then [] else files.map fun file => .text file.line) :
    (Outcome.ofResult said result).stdout =
      if isQuiet then "" else String.join (files.map ParsedFile.line) := by
  rw [Outcome.stdout, Outcome.transcript_ofResult, h]
  cases isQuiet with
  | true => rfl
  | false => exact congrArg String.join List.map_map

theorem filesParsed_ofResult {count : Nat} {result : Except Failure Unit}
    (hok : result = .ok () ↔ paths ≠ [] ∧ count = paths.length ∧
      files.countP ParsedFile.isBroken = 0)
    (hbroken : count = paths.length → 0 < files.countP ParsedFile.isBroken →
      result = .error (.brokenFiles (files.countP ParsedFile.isBroken))) :
    FilesParsed isQuiet paths count files
      (.ofResult (.join (files.map (·.said isQuiet))) result) where
  stdout := stdout_eq (output_join_said files)
  reports := by rw [Outcome.transcript_ofResult, reports_join_said]
  exitCode := Outcome.exitCode_ofResult _ _
  exitCode_eq_zero_iff := by
    rw [Outcome.exitCode_ofResult_eq_zero_iff, hok, countP_isBroken_eq_zero_iff]
  silent h := by
    have hnone := (hok.1 ((Outcome.exitCode_ofResult_eq_zero_iff _ _).1 h)).2.2
    rw [Outcome.transcript_ofResult, reports_join_said,
      List.filter_eq_nil_iff.2 (List.countP_eq_zero.1 hnone), List.map_nil]
  message hcount hsome := by
    rw [hbroken hcount hsome]
    rfl

/-- Files are parsed up to the first that cannot be opened. -/
theorem run_parse_files {arguments : List String} {configPath : Option String}
    (hread : CommandLine.read arguments = .ok ⟨configPath, .parse language isQuiet false paths⟩)
    (hload : loadConfig host configPath = .ok config) :
    ∃ files : List ParsedFile,
      files.map ParsedFile.path = paths.take (openCount host config language paths) ∧
      (∀ file ∈ files, file.IsFound host config language) ∧
      FilesParsed isQuiet paths (openCount host config language paths) files
        (run host arguments) := by
  have hopens : ∀ path ∈ paths, opens host config language path = true →
      ∃ file : ParsedFile, file.path = path ∧ file.IsFound host config language :=
    fun _ _ hpath => exists_isFound hpath
  obtain ⟨files, hfiles, hfound⟩ := exists_map_eq_take hopens
  obtain ⟨result, hsays, hok, hbroken⟩ := exists_says_parseFiles hfiles hfound
  refine ⟨files, hfiles, hfound, ?_⟩
  have hsession : Says (session host ⟨configPath, .parse language isQuiet false paths⟩)
      (.join (files.map (·.said isQuiet))) result :=
    says_lift_bind hload hsays
  have hrun : run host arguments = .ofResult (.join (files.map (·.said isQuiet))) result := by
    rw [run, hread]
    exact outcome_of_says hsession
  rw [hrun]
  exact filesParsed_ofResult hok hbroken

/-- A host with one file that is right and one that is broken. -/
def twoFiles : Host where
  read path :=
    if path = "right.ppl" then .ok "x = 1..\n"
    else if path = "broken.ppl" then .ok "x = = 1..\n"
    else .error .missing
  input := .error .missing
  environment _ := none
  isTerminal := false

theorem run_parse_files_missing :
    CommandLine.read ["parse", "broken.ppl", "right.ppl", "lost.ppl", "right.ppl"] =
      .ok ⟨none, .parse none false false ["broken.ppl", "right.ppl", "lost.ppl", "right.ppl"]⟩ ∧
    loadConfig twoFiles none = .ok .empty ∧
    openCount twoFiles .empty none ["broken.ppl", "right.ppl", "lost.ppl", "right.ppl"] = 2 ∧
    ∃ files : List ParsedFile, files.map ParsedFile.path = ["broken.ppl", "right.ppl"] ∧
      (∀ file ∈ files, file.IsFound twoFiles .empty none) ∧
      FilesParsed false ["broken.ppl", "right.ppl", "lost.ppl", "right.ppl"] 2 files
        (run twoFiles ["parse", "broken.ppl", "right.ppl", "lost.ppl", "right.ppl"]) := by
  have hread : CommandLine.read ["parse", "broken.ppl", "right.ppl", "lost.ppl", "right.ppl"] =
      .ok ⟨none, .parse none false false ["broken.ppl", "right.ppl", "lost.ppl", "right.ppl"]⟩ := by
    decide +kernel
  have hload : loadConfig twoFiles none = .ok .empty := rfl
  have hcount : openCount twoFiles .empty none
      ["broken.ppl", "right.ppl", "lost.ppl", "right.ppl"] = 2 := by
    decide +kernel
  obtain ⟨files, hfiles, hfound, hparsed⟩ := run_parse_files hread hload
  rw [hcount] at hfiles hparsed
  exact ⟨hread, hload, hcount, files, hfiles, hfound, hparsed⟩

end Command

end GrammarTools
