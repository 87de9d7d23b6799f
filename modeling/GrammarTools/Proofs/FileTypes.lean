import GrammarTools.Command
import Mathlib.Data.List.TakeWhile

/-!
# Extensions and grammars

The extensions that a configuration gives to languages come to the registry in pairs
with the names of the languages. Of the pairs with the extension of a file only the
first one counts (`Registry.forPath?_append_cons`): if it names a grammar, that is the
grammar of the file, and if it names none, the built-in extensions decide, whatever the
pairs behind it name. So a pair that names no grammar can hide one that does
(`Registry.Hides`), and in all other cases the first pair that names a grammar counts
(`Registry.forPath?_eq_named_or_iff`).

A configuration holds its languages in the order of their names: every entry that is
read goes to its place among those read so far (`FileTypes.IsOrdered.set`). Which of two
pairs is the first is therefore told by the names of their languages alone, and not by the
order in which they stand in the file.
-/

namespace GrammarTools

/-! ## Pairs with an extension -/

namespace Registry

/-- The first grammar that has an extension among its own. -/
def builtIn? (ext : String) : Option RegisteredGrammar := all.find? (·.handles ext)

/-- The first grammar that is named by a pair with an extension. -/
def named? (ext : String) (extra : List (String × String)) : Option RegisteredGrammar :=
  extra.findSome? fun pair => if pair.2 = ext then find? pair.1 else none

/-- The first of some pairs with an extension names no grammar, but one behind it does. -/
def Hides (ext : String) (extra : List (String × String)) (g : RegisteredGrammar) : Prop :=
  ∃ name behind, extra.dropWhile (·.2 != ext) = (name, ext) :: behind ∧ find? name = none ∧
    named? ext behind = some g

variable {path ext : String} {front extra : List (String × String)}

/-- With an extension, the first pair for it counts; if its name is not known, the built-in file
    types do. -/
theorem forPath?_of_extension? (h : Path.extension? path = some ext) :
    forPath? path extra =
      ((extra.find? (·.2 == ext)).bind fun pair => find? pair.1).or (builtIn? ext) := by
  rw [forPath?, h, Option.bind_eq_bind, Option.bind_some]
  cases (extra.find? (·.2 == ext)).bind fun pair => find? pair.1 <;> rfl

/-- Some pairs have no pair with an extension, or else a first one. -/
theorem exists_first_pair (ext : String) (extra : List (String × String)) :
    (∀ pair ∈ extra, pair.2 ≠ ext) ∨
    ∃ front name behind, extra = front ++ (name, ext) :: behind ∧ ∀ pair ∈ front, pair.2 ≠ ext := by
  cases hfind : extra.find? (·.2 == ext) with
  | none => exact .inl fun pair hpair => by simpa using List.find?_eq_none.1 hfind pair hpair
  | some pair =>
    obtain ⟨hext, front, behind, rfl, hfront⟩ := List.find?_eq_some_iff_append.1 hfind
    obtain ⟨name, ext'⟩ := pair
    obtain rfl := eq_of_beq hext
    exact .inr ⟨front, name, behind, rfl, by simpa using hfront⟩

/-- Of the pairs with an extension only the first one counts. -/
theorem forPath?_append_cons (h : Path.extension? path = some ext)
    (hfront : ∀ pair ∈ front, pair.2 ≠ ext) (name : String) (behind : List (String × String)) :
    forPath? path (front ++ (name, ext) :: behind) = (find? name).or (builtIn? ext) := by
  have hfind : (front ++ (name, ext) :: behind).find? (·.2 == ext) = some (name, ext) :=
    List.find?_eq_some_iff_append.2
      ⟨beq_self_eq_true ext, front, behind, rfl, by simpa using hfront⟩
  rw [forPath?_of_extension? h, hfind, Option.bind_some]

/-- Without a pair for the extension, the built-in file types count. -/
theorem forPath?_of_forall_ne (h : Path.extension? path = some ext)
    (hextra : ∀ pair ∈ extra, pair.2 ≠ ext) : forPath? path extra = builtIn? ext := by
  have hfind : extra.find? (·.2 == ext) = none := List.find?_eq_none.2 (by simpa using hextra)
  rw [forPath?_of_extension? h, hfind, Option.bind_none, Option.none_or]

theorem named?_of_forall_ne (hextra : ∀ pair ∈ extra, pair.2 ≠ ext) : named? ext extra = none :=
  List.findSome?_eq_none_iff.2 fun pair hpair => if_neg (hextra pair hpair)

/-- The first pair for an extension names a grammar, or leaves it to the pairs behind. -/
theorem named?_append_cons (hfront : ∀ pair ∈ front, pair.2 ≠ ext) (name : String)
    (behind : List (String × String)) :
    named? ext (front ++ (name, ext) :: behind) = (find? name).or (named? ext behind) := by
  have hnone : named? ext front = none := named?_of_forall_ne hfront
  rw [named?] at hnone
  rw [named?, List.findSome?_append, hnone, Option.none_or, List.findSome?_cons, if_pos rfl, named?]
  cases find? name <;> rfl

/-- A first pair hides a grammar if its own name is unknown and a later pair names the grammar. -/
theorem hides_append_cons_iff (hfront : ∀ pair ∈ front, pair.2 ≠ ext) {name : String}
    {behind : List (String × String)} {g : RegisteredGrammar} :
    Hides ext (front ++ (name, ext) :: behind) g ↔
      find? name = none ∧ named? ext behind = some g := by
  have hdrop : (front ++ (name, ext) :: behind).dropWhile (·.2 != ext) = (name, ext) :: behind := by
    rw [List.dropWhile_append_of_pos (by simpa using hfront), List.dropWhile_cons_of_neg (by simp)]
  rw [Hides, hdrop]
  constructor
  · rintro ⟨name', behind', heq, h⟩
    obtain ⟨⟨rfl, -⟩, rfl⟩ := by simpa using heq
    exact h
  · exact fun h => ⟨name, behind, rfl, h⟩

/-- Where no pair has the extension, nothing is hidden. -/
theorem not_hides_of_forall_ne (hextra : ∀ pair ∈ extra, pair.2 ≠ ext) (g : RegisteredGrammar) :
    ¬ Hides ext extra g := by
  have hdrop : extra.dropWhile (·.2 != ext) = [] :=
    List.dropWhile_eq_nil_iff.2 (by simpa using hextra)
  rintro ⟨name, behind, heq, -⟩
  rw [hdrop] at heq
  cases heq

/-- The first pair that names a grammar counts, and the built-in extensions without one, unless
    another grammar is hidden. -/
theorem forPath?_eq_named_or_iff (h : Path.extension? path = some ext)
    (extra : List (String × String)) :
    forPath? path extra = (named? ext extra).or (builtIn? ext) ↔
      ∀ g, Hides ext extra g → builtIn? ext = some g := by
  rcases exists_first_pair ext extra with hextra | ⟨front, name, behind, rfl, hfront⟩
  · rw [forPath?_of_forall_ne h hextra, named?_of_forall_ne hextra, Option.none_or]
    exact iff_of_true rfl fun g hg => (not_hides_of_forall_ne hextra g hg).elim
  · rw [forPath?_append_cons h hfront, named?_append_cons hfront]
    simp only [hides_append_cons_iff hfront]
    -- Behind an unknown name, one side goes on to the other pairs and the other one does not.
    cases find? name with
    | some g => simp
    | none => cases named? ext behind <;> simp

end Registry

/-! ## The order of a configuration -/

theorem exists_of_bind_eq_ok {ε α β : Type} {x : Except ε α} {f : α → Except ε β} {b : β}
    (h : x >>= f = .ok b) : ∃ a, x = .ok a ∧ f a = .ok b := by
  cases x with
  | error e => cases h
  | ok a => exact ⟨a, rfl, h⟩

/-- What every step keeps is kept by all of them. -/
theorem of_foldlM_eq_ok {ε α β : Type} {f : β → α → Except ε β} {p : β → Prop}
    (hstep : ∀ b a b', p b → f b a = .ok b' → p b') :
    ∀ {items : List α} {b b' : β}, p b → items.foldlM f b = .ok b' → p b'
  | [], b, b', hb, h => by
    cases h
    exact hb
  | a :: rest, b, b', hb, h => by
    rw [List.foldlM_cons] at h
    obtain ⟨b'', hb'', h⟩ := exists_of_bind_eq_ok h
    exact of_foldlM_eq_ok hstep (hstep b a b'' hb hb'') h

/-- The languages come in the order of their names, each once. -/
def FileTypes.IsOrdered (f : FileTypes) : Prop := f.Pairwise fun a b => a.1.text < b.1.text

namespace FileTypes

variable {f : FileTypes} {name : LanguageName} {extensions : List String}

/-- Setting one language keeps the others. -/
theorem mem_set {entry : LanguageName × List String} (h : entry ∈ f.set name extensions) :
    entry.1 = name ∨ entry ∈ f := by
  induction f with
  | nil => exact .inl (congrArg Prod.fst (List.mem_singleton.1 h))
  | cons first rest ih =>
    rw [set] at h
    split at h
    · rcases List.mem_cons.1 h with rfl | h
      · exact .inl rfl
      · exact .inr h
    · split at h
      · rcases List.mem_cons.1 h with rfl | h
        · exact .inl rfl
        · exact .inr (List.mem_cons_of_mem _ h)
      · rcases List.mem_cons.1 h with rfl | h
        · exact .inr List.mem_cons_self
        · exact (ih h).imp_right (List.mem_cons_of_mem _)

/-- An entry goes to its place. -/
theorem IsOrdered.set (h : IsOrdered f) (name : LanguageName) (extensions : List String) :
    IsOrdered (f.set name extensions) := by
  induction f with
  | nil => exact List.pairwise_singleton _ _
  | cons first rest ih =>
    obtain ⟨hfirst, hrest⟩ := List.pairwise_cons.1 h
    rw [FileTypes.set]
    -- The entry goes in front of the first later name, in the place of its own name, or further
    -- back.
    split
    · next hlt =>
      refine List.pairwise_cons.2 ⟨fun entry hentry => ?_, h⟩
      rcases List.mem_cons.1 hentry with rfl | hentry
      · exact hlt
      · exact String.lt_trans hlt (hfirst entry hentry)
    · next hle =>
      split
      · next heq =>
        exact List.pairwise_cons.2 ⟨fun entry hentry => heq ▸ hfirst entry hentry, hrest⟩
      · next hne =>
        refine List.pairwise_cons.2 ⟨fun entry hentry => ?_, ih hrest⟩
        rcases mem_set hentry with hname | hentry
        · rcases Std.lt_trichotomy name.text first.1.text with hlt | heq | hlt
          · exact (hle hlt).elim
          · exact (hne heq).elim
          · exact hname ▸ hlt
        · exact hfirst entry hentry

theorem isOrdered_nil : IsOrdered [] := .nil

end FileTypes

namespace Config

variable {c : Config}

/-- One entry of a file gives its languages in order. -/
theorem isOrdered_entryFileTypes {entries : Toml.Entries} {f : FileTypes}
    (h : entryFileTypes entries = .ok f) : f.IsOrdered := by
  refine of_foldlM_eq_ok (fun found entry found' hfound hset => ?_) FileTypes.isOrdered_nil h
  obtain ⟨name, -, hset⟩ := exists_of_bind_eq_ok hset
  obtain ⟨extensions, -, hset⟩ := exists_of_bind_eq_ok hset
  cases hset
  exact hfound.set name extensions

theorem isOrdered_sectionFileTypes {first : Toml.Section} {others : List Toml.Section}
    {f : FileTypes} (h : sectionFileTypes first others = .ok f) : f.IsOrdered := by
  rw [sectionFileTypes] at h
  split at h
  · cases h
  · obtain ⟨found, hfound, h⟩ := exists_of_bind_eq_ok h
    cases others with
    | nil =>
      cases h
      exact isOrdered_entryFileTypes hfound
    | cons second rest => cases h

/-- What a file gives is in order. -/
theorem isOrdered_fileTypes {given : Given} {f : FileTypes} (h : given.fileTypes = .ok f) :
    f.IsOrdered := by
  cases given with
  | value v =>
    rw [Given.fileTypes] at h
    split at h
    · exact isOrdered_entryFileTypes h
    · cases h
  | sections first others => exact isOrdered_sectionFileTypes h

/-- A setting keeps the order. -/
theorem isOrdered_put {c c' : Config} {s : Setting} {given : Given} (hc : c.fileTypes.IsOrdered)
    (h : c.put s given = .ok c') : c'.fileTypes.IsOrdered := by
  cases s with
  | requiredVersion =>
    obtain ⟨text, -, h⟩ := exists_of_bind_eq_ok h
    obtain ⟨required, -, h⟩ := exists_of_bind_eq_ok h
    cases h
    exact hc
  | defaultLanguage =>
    obtain ⟨text, -, h⟩ := exists_of_bind_eq_ok h
    obtain ⟨name, -, h⟩ := exists_of_bind_eq_ok h
    cases h
    exact hc
  | fileTypes =>
    obtain ⟨f, hf, h⟩ := exists_of_bind_eq_ok h
    cases h
    exact isOrdered_fileTypes hf

/-- Putting settings together keeps the order. -/
theorem isOrdered_putAll {seen : List Setting} {c c' : Config} {all : List (String × Given)}
    (hc : c.fileTypes.IsOrdered) (h : putAll seen c all = .ok c') : c'.fileTypes.IsOrdered := by
  induction all generalizing seen c with
  | nil =>
    cases h
    exact hc
  | cons entry rest ih =>
    obtain ⟨s, -, h⟩ := exists_of_bind_eq_ok h
    split at h
    · cases h
    · obtain ⟨next, hnext, h⟩ := exists_of_bind_eq_ok h
      exact ih (isOrdered_put hc hnext) h

/-- What is read from a text is in order. -/
theorem isOrdered_ofString {text : String} (h : ofString text = .ok c) : c.fileTypes.IsOrdered := by
  rw [ofString] at h
  split at h
  · exact isOrdered_putAll FileTypes.isOrdered_nil h
  · cases h

theorem isOrdered_read {host : Host} {path : String} (h : read host path = .ok c) :
    c.fileTypes.IsOrdered := by
  rw [read] at h
  split at h
  · exact isOrdered_ofString h
  · cases h

/-- The pairs of a configuration come in the order of the languages. -/
theorem pairwise_extraFileTypes (h : c.fileTypes.IsOrdered) :
    c.extraFileTypes.Pairwise fun a b => a.1 ≤ b.1 := by
  rw [extraFileTypes, List.pairwise_flatMap]
  refine ⟨fun entry _ => List.pairwise_map.2 (List.pairwise_of_forall fun _ _ => String.le_refl _),
    h.imp fun {a b} hlt => ?_⟩
  intro p hp q hq
  obtain ⟨-, -, rfl⟩ := List.mem_map.1 hp
  obtain ⟨-, -, rfl⟩ := List.mem_map.1 hq
  exact Std.le_of_lt hlt

end Config

/-- What is found in a directory, or nothing, is in order. -/
theorem Config.isOrdered_find? {host : Host} {directory : String} {found : Option Config}
    (h : find? host directory = .ok found) : (found.getD empty).fileTypes.IsOrdered := by
  rw [find?] at h
  split at h
  · cases hread : read host (directory ++ "/" ++ fileName) with
    | error reason =>
      rw [hread] at h
      cases h
    | ok c =>
      rw [hread] at h
      cases h
      exact isOrdered_read hread
  · cases h
    exact FileTypes.isOrdered_nil

namespace Command

variable {host : Host} {file : Option String} {c : Config}

theorem isOrdered_readConfig (h : readConfig host file = .ok c) : c.fileTypes.IsOrdered := by
  cases file with
  | some path =>
    rw [readConfig] at h
    cases hread : Config.read host path with
    | error reason =>
      rw [hread] at h
      cases h
    | ok c' =>
      rw [hread] at h
      cases h
      exact Config.isOrdered_read hread
  | none =>
    rw [readConfig] at h
    split at h
    · next hfind =>
      cases h
      exact Config.isOrdered_find? hfind
    · cases h

/-- The file types of every loaded configuration are in order. -/
theorem isOrdered_loadConfig (h : loadConfig host file = .ok c) : c.fileTypes.IsOrdered := by
  obtain ⟨c', hread, h⟩ := exists_of_bind_eq_ok h
  have hc : c'.fileTypes.IsOrdered := isOrdered_readConfig hread
  split at h
  · cases h
    exact hc
  · dsimp only at h
    split at h
    · cases h
      exact hc
    · cases h

end Command

/-! ## The grammar of a file -/

namespace Registry

/-- Of the pairs with the extension of a file the first one decides, in a configuration that of the
    first language by name. If it names no grammar, the built-in extensions do, so that the grammar
    is the first one named by a pair unless a pair in front hides it. -/
theorem forPath?_by_first_pair {path ext : String} (h : Path.extension? path = some ext) :
    (∀ front name behind, (∀ pair ∈ front, pair.2 ≠ ext) →
      forPath? path (front ++ (name, ext) :: behind) = (find? name).or (builtIn? ext)) ∧
    (∀ extra, (∀ pair ∈ extra, pair.2 ≠ ext) → forPath? path extra = builtIn? ext) ∧
    (∀ extra, forPath? path extra = (named? ext extra).or (builtIn? ext) ↔
      ∀ g, Hides ext extra g → builtIn? ext = some g) ∧
    ∀ host file config, Command.loadConfig host file = .ok config →
      config.extraFileTypes.Pairwise fun a b => a.1 ≤ b.1 :=
  ⟨fun _ name behind hfront => forPath?_append_cons h hfront name behind,
    fun _ hextra => forPath?_of_forall_ne h hextra, forPath?_eq_named_or_iff h,
    fun _ _ _ hload => Config.pairwise_extraFileTypes (Command.isOrdered_loadConfig hload)⟩

/-- A host with nothing but a configuration in which two languages claim an extension. -/
def contested : Host where
  read _ := .ok "[file-types]\nsimpl = [\"ppl\"]\ncobol = [\".ppl\"]\n"
  input := .error .missing
  environment _ := none
  isTerminal := false

theorem forPath?_by_first_pair_contested :
    Path.extension? "main.ppl" = some "ppl" ∧
    ∃ config, Command.loadConfig contested none = .ok config ∧
      config.extraFileTypes.Pairwise (fun a b => a.1 ≤ b.1) ∧
      forPath? "main.ppl" config.extraFileTypes = (find? "cobol").or (builtIn? "ppl") := by
  have hext : Path.extension? "main.ppl" = some "ppl" := by decide +kernel
  have hpairs : (Command.loadConfig contested none).toOption.map Config.extraFileTypes =
      some [("cobol", "ppl"), ("simpl", "ppl")] := by
    decide +kernel
  obtain ⟨hfirst, -, -, hordered⟩ := forPath?_by_first_pair hext
  cases hload : Command.loadConfig contested none with
  | error failure =>
    rw [hload] at hpairs
    cases hpairs
  | ok config =>
    rw [hload] at hpairs
    have hextra : config.extraFileTypes = [("cobol", "ppl"), ("simpl", "ppl")] :=
      Option.some.inj hpairs
    refine ⟨hext, config, rfl, hordered _ _ _ hload, ?_⟩
    rw [hextra]
    exact hfirst [] "cobol" [("simpl", "ppl")] (by simp)

/-- A pair that names no grammar hides the one behind it. -/
theorem unknown_name_hides_pair :
    ¬ ∀ path ext extra, Path.extension? path = some ext →
      forPath? path extra = (named? ext extra).or (builtIn? ext) := by
  intro h
  have hext : Path.extension? "main.ppl" = some "ppl" := by decide +kernel
  have heq := congrArg (Option.map RegisteredGrammar.name)
    (h "main.ppl" "ppl" [("cobol", "ppl"), ("simpl", "ppl")] hext)
  have hne : (forPath? "main.ppl" [("cobol", "ppl"), ("simpl", "ppl")]).map RegisteredGrammar.name =
      some "peopl" := by
    decide +kernel
  have hne' : ((named? "ppl" [("cobol", "ppl"), ("simpl", "ppl")]).or (builtIn? "ppl")).map
      RegisteredGrammar.name = some "simpl" := by
    decide +kernel
  rw [hne, hne'] at heq
  revert heq
  decide

end Registry

end GrammarTools
