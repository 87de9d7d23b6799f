import GrammarTools.ParseOutput

/-!
# Languages

A *language definition* is all that the tools know of a language: the names of
its node kinds and fields, the extensions of its files, how its nodes are
highlighted, and how its texts are parsed. Kinds and fields go by their numbers
in the two tables, which are 16 bits wide; number `0` of the kinds is the error
kind.

A `Language` is a definition that has been found fit for use: it has a name,
the error kind and some other kind, and a supported version. Every definition
carries a serial number, and two languages are the same if theirs agree.
-/

namespace GrammarTools

/-- An entry in the table of node kinds. -/
structure NodeKind where
  /-- The name as it appears in trees. -/
  name : String
  /-- Whether nodes of this kind follow a rule, rather than being literal tokens. -/
  isNamed : Bool
deriving DecidableEq, Repr, Inhabited

/-- A condition on nodes, and the capture given to those that satisfy it. -/
structure HighlightRule where
  /-- The kind of the node. -/
  kind : String
  /-- The kind of the node above, if it matters. -/
  parent : Option String
  /-- The field of the node, if it matters. -/
  field : Option String
  /-- What nodes that match are captured as. -/
  capture : String
deriving DecidableEq, Repr, Inhabited

namespace HighlightRule

/-- A rule for every node of a kind. -/
def ofKind (kind capture : String) : HighlightRule := ⟨kind, none, none, capture⟩

/-- The rule for nodes below a `parent` only. -/
def under (rule : HighlightRule) (parent : String) : HighlightRule :=
  { rule with parent := some parent }

/-- The rule for nodes in a `field` only. -/
def inField (rule : HighlightRule) (field : String) : HighlightRule :=
  { rule with field := some field }

end HighlightRule

/-- The description of a language. -/
structure LanguageDef where
  /-- The number that tells this definition from others. -/
  serial : Nat
  /-- The name under which it is found. -/
  name : String
  /-- The version of the tables' layout. -/
  version : Nat
  /-- The node kinds, the error kind first. -/
  nodeKinds : List NodeKind
  /-- The fields. -/
  fieldNames : List String
  /-- The extensions of its files, without the dot. -/
  fileTypes : List String
  /-- The scope name that editors use. -/
  scope : String
  /-- The highlighting rules, the first match counts. -/
  highlights : List HighlightRule
  /-- How a text is parsed. -/
  parse : String → ParseOutput

/-- The newest supported version. -/
def languageVersion : Nat := 14

/-- The oldest supported version. -/
def oldestLanguageVersion : Nat := 13

/-- The name of the error kind. -/
def errorKindName : String := "ERROR"

/-- Why a definition is not fit for use. -/
inductive LanguageError where
  /-- There is no definition. -/
  | missing
  /-- The definition has no name, or lacks the error kind or any other. -/
  | empty (name : String)
  /-- The version is not supported. -/
  | version (version : Nat)
deriving DecidableEq, Repr

/-- The reason in words. -/
def LanguageError.message : LanguageError → String
  | missing => "language accessor returned no grammar"
  | empty name => s!"grammar {Text.quoted name} is empty"
  | version v =>
    s!"incompatible language version {v}, expected a version between " ++
      s!"{oldestLanguageVersion} and {languageVersion}"

namespace LanguageDef

/-- Whether the version is supported. -/
def versionSupported (d : LanguageDef) : Bool :=
  oldestLanguageVersion ≤ d.version && d.version ≤ languageVersion

/-- Whether there is a name, the error kind and some other kind. -/
def isComplete (d : LanguageDef) : Bool :=
  !d.name.isEmpty && 2 ≤ d.nodeKinds.length &&
    (d.nodeKinds.head?.map NodeKind.name) == some errorKindName

end LanguageDef

/-- A definition fit for use. -/
structure Language where
  /-- The definition. -/
  definition : LanguageDef
  /-- Nothing is lacking. -/
  isComplete : definition.isComplete = true
  /-- The version is supported. -/
  versionSupported : definition.versionSupported = true

namespace Language

/-- A definition, if it is fit for use. -/
def ofDef (d : LanguageDef) : Except LanguageError Language :=
  if hc : d.isComplete then
    if hv : d.versionSupported then .ok ⟨d, hc, hv⟩ else .error (.version d.version)
  else .error (.empty d.name)

/-- A definition that may be missing, if it is there and fit for use. -/
def ofDef? : Option LanguageDef → Except LanguageError Language
  | none => .error .missing
  | some d => ofDef d

variable (l : Language)

/-- Whether two languages are the same. -/
def same (k : Language) : Bool := l.definition.serial == k.definition.serial

/-- The name under which the language is found. -/
def name : String := l.definition.name

/-- The version of the tables' layout. -/
def version : Nat := l.definition.version

/-- The name of a node kind. -/
def kindName? (id : KindId) : Option String :=
  l.definition.nodeKinds[id.index.toNat]?.map NodeKind.name

/-- Whether a node kind is named. Kinds outside the table are not. -/
def kindIsNamed (id : KindId) : Bool :=
  (l.definition.nodeKinds[id.index.toNat]?.map NodeKind.isNamed).getD false

/-- The first node kind with the given name, among the named or the unnamed ones. -/
def kindId? (name : String) (isNamed : Bool) : Option KindId :=
  (l.definition.nodeKinds.findIdx? fun kind => kind.name == name && kind.isNamed == isNamed).map
    fun index => ⟨index.toUInt16⟩

/-- The name of a field. -/
def fieldName? (id : FieldId) : Option String := l.definition.fieldNames[id.index.toNat]?

/-- The first field with the given name. -/
def fieldId? (name : String) : Option FieldId :=
  (l.definition.fieldNames.findIdx? (· == name)).map fun index => ⟨index.toUInt16⟩

/-- A short description. -/
def description : String :=
  s!"Language \x7b name: {Text.quoted l.name}, version: {l.version} \x7d"

end Language

/-- A list of quoted texts in brackets. -/
def LanguageDef.quotedList (texts : List String) : String :=
  "[" ++ String.intercalate ", " (texts.map Text.quoted) ++ "]"

/-- A description that tells the extent of the tables. -/
def LanguageDef.description (d : LanguageDef) : String :=
  s!"LanguageDef \x7b name: {Text.quoted d.name}, version: {d.version}, " ++
  s!"node_kinds: {d.nodeKinds.length}, field_names: {quotedList d.fieldNames}, " ++
  s!"file_types: {quotedList d.fileTypes}, scope: {Text.quoted d.scope}, .. \x7d"

end GrammarTools
