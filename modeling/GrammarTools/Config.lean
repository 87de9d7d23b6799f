import GrammarTools.Host
import GrammarTools.Text.Printable
import GrammarTools.Toml.Document
import GrammarTools.Version.Requirement

/-!
# The configuration

A configuration is a TOML file with three settings, each of which may be missing
and may be given once:

* `peopl-version`, the versions of this program that will do;
* `default-language`, the language of files that do not tell theirs;
* `file-types`, a table with further extensions for the files of some languages.

A file with wrong syntax is refused as a whole. Otherwise the first setting that
is wrong is the one that counts: the entries of the file come first, then its
sections, where those with the same first name are taken together.

The name of a language begins with a lower-case letter and goes on with
lower-case letters, digits and underscores, all of them ASCII.
-/

namespace GrammarTools

/-! ## Names of languages -/

/-- A character with which a name of a language begins. -/
def isNameStart (c : Char) : Bool := c.isLower

/-- A character with which a name of a language goes on. -/
def isNameRest (c : Char) : Bool := c.isLower || c.isDigit || c == '_'

/-- Whether a text is a name of a language. -/
def isLanguageName : List Char → Bool
  | [] => false
  | c :: cs => isNameStart c && cs.all isNameRest

/-- A name of a language. -/
structure LanguageName where
  /-- The name itself. -/
  text : String
  /-- It is one. -/
  isName : isLanguageName text.toList = true
deriving DecidableEq, Repr

/-- A text as a name, if it is one. -/
def LanguageName.ofString? (text : String) : Option LanguageName :=
  if h : isLanguageName text.toList = true then some ⟨text, h⟩ else none

/-! ## Configurations -/

/-- Further extensions for languages, in the order of the names. -/
abbrev FileTypes := List (LanguageName × List String)

/-- A configuration. -/
structure Config where
  /-- The versions of this program that will do. -/
  requiredVersion : Option VersionRequirement
  /-- The language of files that do not tell theirs. -/
  defaultLanguage : Option LanguageName
  /-- Further extensions. -/
  fileTypes : FileTypes
deriving Repr, Inhabited

/-- Why there is no configuration. -/
inductive ConfigError where
  /-- The file cannot be read. -/
  | unreadable (reason : ReadError)
  /-- There is no such setting. -/
  | unknownSetting (name : String)
  /-- This is not the name of a language. -/
  | badLanguageName (name : String)
  /-- Something else is wrong. -/
  | invalid
deriving DecidableEq, Repr, Inhabited

/-- The error in words. -/
def ConfigError.message : ConfigError → String
  | unreadable reason => reason.message
  | unknownSetting name => s!"there is no setting {Text.quoted name}"
  | badLanguageName name => s!"{Text.quoted name} is not the name of a language"
  | invalid => "the file is not a valid configuration"

/-- The extensions of a language set, in place of those that it had. -/
def FileTypes.set (name : LanguageName) (extensions : List String) : FileTypes → FileTypes
  | [] => [(name, extensions)]
  | entry :: rest =>
    if name.text < entry.1.text then (name, extensions) :: entry :: rest
    else if name.text = entry.1.text then (name, extensions) :: rest
    else entry :: set name extensions rest

/-- An extension without the dots in front. -/
def withoutDots (ext : String) : String := String.ofList (ext.toList.dropWhile (· == '.'))

namespace Config

/-- The configuration without settings. -/
def empty : Config := ⟨none, none, []⟩

/-- All pairs of a language and an extension of its files. -/
def extraFileTypes (c : Config) : List (String × String) :=
  c.fileTypes.flatMap fun (name, extensions) => extensions.map fun ext =>
    (name.text, withoutDots ext)

/-! ## Values -/

/-- A text. -/
def text : Toml.Value → Except ConfigError String
  | .text value => .ok value
  | _ => .error .invalid

/-- A name of a language. -/
def languageName (name : String) : Except ConfigError LanguageName :=
  match LanguageName.ofString? name with
  | some n => .ok n
  | none => .error (.badLanguageName name)

/-- A requirement on the version. -/
def versionRequirement (requirement : String) : Except ConfigError VersionRequirement :=
  match VersionRequirement.ofString? requirement with
  | some r => .ok r
  | none => .error .invalid

/-- A list of texts. -/
def texts : Toml.Value → Except ConfigError (List String)
  | .array items => items.mapM text
  | _ => .error .invalid

/-- The extensions that the entries of a table give to languages; the last one counts. -/
def entryFileTypes (entries : Toml.Entries) : Except ConfigError FileTypes :=
  entries.foldlM (fun found (name, value) => do
    return found.set (← languageName name) (← texts value)) []

/-- What is wrong with a section that is not the one with the extensions. If its name goes on,
    that may be the first thing. -/
def misplaced (s : Toml.Section) : ConfigError :=
  match s.path with
  | _ :: name :: _ =>
    if (LanguageName.ofString? name).isSome then .invalid else .badLanguageName name
  | _ => .invalid

/-- The extensions given by sections. There is one such section, and nothing behind its name. -/
def sectionFileTypes (first : Toml.Section) (others : List Toml.Section) :
    Except ConfigError FileTypes := do
  if first.path.length != 1 || first.isArray then .error (misplaced first)
  let found ← entryFileTypes first.entries
  match others with
  | [] => return found
  | second :: _ => .error (misplaced second)

/-! ## Settings -/

/-- The settings. -/
inductive Setting where
  /-- The versions of this program that will do. -/
  | requiredVersion
  /-- The language of files that do not tell theirs. -/
  | defaultLanguage
  /-- Further extensions. -/
  | fileTypes
deriving DecidableEq, Repr, Inhabited

/-- The setting of the given name. -/
def setting (name : String) : Except ConfigError Setting :=
  match name with
  | "peopl-version" => .ok .requiredVersion
  | "default-language" => .ok .defaultLanguage
  | "file-types" => .ok .fileTypes
  | _ => .error (.unknownSetting name)

/-- What gives a value to a setting: a value, or all sections with its name. -/
inductive Given where
  /-- A value. -/
  | value (v : Toml.Value)
  /-- Sections, at least one. -/
  | sections (first : Toml.Section) (others : List Toml.Section)
deriving Repr, Inhabited

/-- The value of a setting that is no table. -/
def Given.text : Given → Except ConfigError String
  | value v => Config.text v
  | sections _ _ => .error .invalid

/-- The extensions given by a value or by sections. -/
def Given.fileTypes : Given → Except ConfigError FileTypes
  | value v =>
    match v.entries? with
    | some entries => entryFileTypes entries
    | none => .error .invalid
  | sections first others => sectionFileTypes first others

/-- A configuration with a value for a setting. -/
def put (c : Config) (s : Setting) (given : Given) : Except ConfigError Config := do
  match s with
  | .requiredVersion =>
    return { c with requiredVersion := some (← versionRequirement (← given.text)) }
  | .defaultLanguage =>
    return { c with defaultLanguage := some (← languageName (← given.text)) }
  | .fileTypes => return { c with fileTypes := ← given.fileTypes }

/-- The configuration that settings and what is given to them make up, where `seen` holds the
    settings that have gone into `c`. -/
def putAll (seen : List Setting) (c : Config) :
    List (String × Given) → Except ConfigError Config
  | [] => .ok c
  | (name, given) :: rest => do
    let s ← setting name
    if seen.contains s then .error .invalid
    putAll (s :: seen) (← put c s given) rest

/-- A section in front of groups of sections that share their first name. It goes in front of
    the others of its name, and its group in front of the other groups. -/
def addSection (s : Toml.Section) (groups : List (Toml.Section × List Toml.Section)) :
    List (Toml.Section × List Toml.Section) :=
  let (same, others) := groups.partition fun group => group.1.path.head? == s.path.head?
  (s, same.flatMap fun (first, rest) => first :: rest) :: others

/-- Sections that share their first name, in the order in which the names first occur. -/
def sectionGroups (sections : List Toml.Section) : List (Toml.Section × List Toml.Section) :=
  sections.foldr addSection []

/-- The configuration that a file spells. -/
def ofDocument (document : Toml.Document) : Except ConfigError Config :=
  putAll [] empty <|
    document.entries.map (fun (name, v) => (name, .value v)) ++
    (sectionGroups document.sections).map fun (first, others) =>
      (first.path.headD "", .sections first others)

/-- The configuration that a text spells. -/
def ofString (text : String) : Except ConfigError Config :=
  match Toml.Document.ofString? text with
  | some document => ofDocument document
  | none => .error .invalid

/-! ## Files -/

/-- The name of the file with the configuration. -/
def fileName : String := "peopl.toml"

/-- The configuration in the file at a path. -/
def read (host : Host) (path : String) : Except ConfigError Config :=
  match host.read path with
  | .ok text => ofString text
  | .error reason => .error (.unreadable reason)

/-- The configuration in a directory, if there is a file for it. -/
def find? (host : Host) (directory : String) : Except ConfigError (Option Config) :=
  let path := directory ++ "/" ++ fileName
  if host.hasFile path then some <$> read host path else .ok none

end Config

end GrammarTools
