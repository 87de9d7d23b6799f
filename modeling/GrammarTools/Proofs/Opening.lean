import GrammarTools.Proofs.Sessions

/-!
# Opening files

A file is opened in two steps: its grammar is looked up, and its text is read. The
grammar is the one asked for, or else that for the extension of the file, or else that of
the language to be used when nothing else is known (`Command.grammarFor?`). A file of
which both are at hand is opened (`Command.openFile_eq_ok`), and every other one is a failure
(`Command.exists_openFile_eq_error`). All grammars that are found can be loaded
(`Command.exists_language_eq_ok`), so an opened file always has a tree.

A list of grammars has a line for each that can be loaded, and goes on behind one that
cannot: that one is reported, and in the end the list is a failure
(`Command.says_listGrammars`).
-/

namespace GrammarTools.Command

/-- The grammar of the file at a path: the one asked for, or else the one for the extension, or
    else the default one. -/
def grammarFor? (config : Config) (language : Option String) (path : String) :
    Option RegisteredGrammar :=
  match language with
  | some name => Registry.find? name
  | none => (Registry.forPath? path config.extraFileTypes).or
      (config.defaultLanguage.bind fun name => Registry.find? name.text)

/-- Whether a file has a grammar and can be read. -/
def opens (host : Host) (config : Config) (language : Option String) (path : String) : Bool :=
  (grammarFor? config language path).isSome && (host.read path).isOk

/-- The number of files in front of the first that has no grammar or cannot be read. -/
def openCount (host : Host) (config : Config) (language : Option String) (paths : List String) :
    Nat :=
  paths.findIdx fun path => !opens host config language path

variable {host : Host} {config : Config} {language : Option String} {path source : String}
  {g : RegisteredGrammar}

theorem grammarOf_eq_ok {name : String} (h : Registry.find? name = some g) :
    grammarOf name = .ok g := by
  rw [grammarOf, Registry.get, h]
  rfl

theorem grammarOf_eq_error {name : String} (h : Registry.find? name = none) :
    grammarOf name = .error (.grammar (.unknown name)) := by
  rw [grammarOf, Registry.get, h]
  rfl

/-- The grammar for a file is found. -/
theorem resolveGrammar_eq_ok (h : grammarFor? config language path = some g) :
    resolveGrammar config language (some path) = .ok g := by
  cases language with
  | some name => exact grammarOf_eq_ok h
  | none =>
    rcases Option.or_eq_some_iff.1 h with hpath | ⟨hpath, hdefault⟩
    · simp only [resolveGrammar, Option.bind_some, hpath]
    · obtain ⟨name, hname, hfind⟩ := Option.bind_eq_some_iff.1 hdefault
      simp only [resolveGrammar, Option.bind_some, hpath, hname]
      exact grammarOf_eq_ok hfind

/-- Where no grammar is found, the command fails. -/
theorem exists_resolveGrammar_eq_error (h : grammarFor? config language path = none) :
    ∃ failure, resolveGrammar config language (some path) = .error failure := by
  cases language with
  | some name => exact ⟨_, grammarOf_eq_error h⟩
  | none =>
    obtain ⟨hpath, hdefault⟩ := Option.or_eq_none_iff.1 h
    cases hname : config.defaultLanguage with
    | none =>
      exact ⟨.unknownExtension path,
        by simp only [resolveGrammar, Option.bind_some, hpath, hname]⟩
    | some name =>
      rw [hname, Option.bind_some] at hdefault
      simp only [resolveGrammar, Option.bind_some, hpath, hname]
      exact ⟨_, grammarOf_eq_error hdefault⟩

/-- A file that has a grammar and can be read is opened. -/
theorem openFile_eq_ok (hg : grammarFor? config language path = some g)
    (hsource : host.read path = .ok source) :
    openFile host config language path = .ok (g, source) := by
  rw [openFile, resolveGrammar_eq_ok hg, hsource]
  rfl

/-- Any other file is a failure. -/
theorem exists_openFile_eq_error (h : opens host config language path = false) :
    ∃ failure, openFile host config language path = .error failure := by
  cases hg : grammarFor? config language path with
  | none =>
    obtain ⟨failure, hfailure⟩ := exists_resolveGrammar_eq_error hg
    exact ⟨failure, by rw [openFile, hfailure]; rfl⟩
  | some g =>
    cases hsource : host.read path with
    | ok source => simp [opens, hg, hsource, Except.isOk, Except.toBool] at h
    | error reason =>
      exact ⟨.file path reason, by rw [openFile, resolveGrammar_eq_ok hg, hsource]; rfl⟩

/-- A file that opens has a grammar and a text. -/
theorem exists_of_opens (h : opens host config language path = true) :
    ∃ g source, grammarFor? config language path = some g ∧ host.read path = .ok source := by
  obtain ⟨hg, hsource⟩ := Bool.and_eq_true_iff.1 h
  obtain ⟨g, hg⟩ := Option.isSome_iff_exists.1 hg
  cases hread : host.read path with
  | ok source => exact ⟨g, source, hg, rfl⟩
  | error reason =>
    rw [hread] at hsource
    cases hsource

/-! ## Languages of grammars -/

theorem mem_all_of_find? {name : String} (h : Registry.find? name = some g) : g ∈ Registry.all :=
  List.mem_of_find?_eq_some h

/-- The grammar that is found for a path is registered. -/
theorem mem_all_of_forPath? {extra : List (String × String)}
    (h : Registry.forPath? path extra = some g) : g ∈ Registry.all := by
  obtain ⟨ext, -, h⟩ := Option.bind_eq_some_iff.1 h
  split at h
  · next hfind =>
    obtain ⟨pair, -, hpair⟩ := Option.bind_eq_some_iff.1 hfind
    cases h
    exact mem_all_of_find? hpair
  · exact List.mem_of_find?_eq_some h

/-- So is the one that is found by name or by path. -/
theorem mem_all_of_grammarFor? (h : grammarFor? config language path = some g) :
    g ∈ Registry.all := by
  cases language with
  | some name => exact mem_all_of_find? h
  | none =>
    rcases Option.or_eq_some_iff.1 h with hpath | ⟨-, hdefault⟩
    · exact mem_all_of_forPath? hpath
    · obtain ⟨name, -, hfind⟩ := Option.bind_eq_some_iff.1 hdefault
      exact mem_all_of_find? hfind

/-- Every grammar of the registry can be loaded. -/
theorem exists_language_eq_ok (h : g ∈ Registry.all) : ∃ l, g.language = .ok l := by
  rcases List.mem_cons.1 h with rfl | h
  · exact ⟨Simpl.language, rfl⟩
  · obtain rfl := List.mem_singleton.1 h
    exact ⟨Peopl.language, rfl⟩

/-! ## The list of grammars -/

open Session

/-- What is said of a grammar in the list. -/
def listed (g : RegisteredGrammar) : Transcript :=
  match g.language with
  | .ok l => ⟨[.text (grammarLine g l)], []⟩
  | .error reason => ⟨[], [loadReport reason]⟩

/-- A grammar is listed, or a failure to load it is reported. -/
theorem says_listGrammar (g : RegisteredGrammar) :
    Says (listGrammar g) (listed g) (.ok g.language.isOk) := by
  rw [listGrammar, listed]
  cases g.language with
  | ok l => exact says_print_bind _ (says_pure true)
  | error reason => exact says_report_bind _ (says_pure false)

/-- A list says a line or a report for each of its grammars, in order, and fails if there is a
    report. -/
theorem says_listGrammars (grammars : List RegisteredGrammar) :
    Says (listGrammars grammars) (.join (grammars.map listed))
      (if ∀ g ∈ grammars, g.language.isOk then .ok ()
        else .error (.brokenGrammars (grammars.countP fun g => !g.language.isOk))) := by
  have hall : Says (grammars.mapM listGrammar) (.join (grammars.map listed))
      (.ok (grammars.map fun g => g.language.isOk)) := by
    have hrow : Says ((grammars.map id).mapM listGrammar) (.join (grammars.map listed))
        (.ok (grammars.map fun g => g.language.isOk)) := says_mapM fun g _ => says_listGrammar g
    rwa [List.map_id] at hrow
  have hcount : (grammars.map fun g => g.language.isOk).count false =
      grammars.countP fun g => !g.language.isOk := by
    rw [List.count, List.countP_map]
    exact List.countP_congr fun g _ => by cases h : g.language.isOk <;> simp [h]
  rw [← Transcript.append_empty (.join _)]
  refine hall.bind ?_
  dsimp only
  rw [hcount]
  -- The failures are counted, and the count is zero exactly if all grammars load.
  by_cases hload : ∀ g ∈ grammars, g.language.isOk
  · have hzero : grammars.countP (fun g => !g.language.isOk) = 0 :=
      List.countP_eq_zero.2 fun g hg => by simp [hload g hg]
    rw [if_pos hload, if_neg (by simp [hzero])]
    exact says_pure ()
  · have hpos : 0 < grammars.countP fun g => !g.language.isOk := by
      refine List.countP_pos_iff.2 ?_
      simpa using hload
    rw [if_neg hload, if_pos hpos]
    exact says_throw _

/-- All grammars of the registry are listed, whatever the host. -/
theorem run_languages {arguments : List String} {configPath : Option String}
    (hread : CommandLine.read arguments = .ok ⟨configPath, .languages⟩) :
    run host arguments = .ofResult (.join (Registry.all.map listed)) (.ok ()) := by
  have hload : ∀ g ∈ Registry.all, g.language.isOk := fun g hg => by
    obtain ⟨l, hl⟩ := exists_language_eq_ok hg
    rw [hl]
    rfl
  have hsays := says_listGrammars Registry.all
  rw [if_pos hload] at hsays
  rw [run, hread]
  exact outcome_of_says hsays

end GrammarTools.Command
