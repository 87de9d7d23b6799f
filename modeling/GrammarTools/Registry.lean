import GrammarTools.Host
import GrammarTools.Peopl.Language
import GrammarTools.Simpl.Language

/-!
# The registry

The grammars at hand, looked up by name or by the extension of a file. Further
extensions can be given for a look-up; they go before the built-in ones. Only
the first pair with the extension counts, and only if it names a grammar of the
registry.
-/

namespace GrammarTools

/-- A grammar of the registry. -/
structure RegisteredGrammar where
  /-- Its name for people. -/
  displayName : String
  /-- Its name in the registry. -/
  name : String
  /-- The extensions of its files, without the dot. -/
  fileTypes : List String
  /-- The definition of its language. -/
  definition : Option LanguageDef

/-- Why a grammar cannot be loaded. -/
inductive LoadError where
  /-- No grammar has this name. -/
  | unknown (name : String)
  /-- The definition is not fit for use. -/
  | invalid (displayName : String) (reason : LanguageError)
deriving DecidableEq, Repr

namespace RegisteredGrammar

/-- The language of a grammar. -/
def language (g : RegisteredGrammar) : Except LoadError Language :=
  match Language.ofDef? g.definition with
  | .ok language => .ok language
  | .error reason => .error (.invalid g.displayName reason)

/-- Whether files with an extension are in this grammar. -/
def handles (g : RegisteredGrammar) (ext : String) : Bool := g.fileTypes.contains ext

end RegisteredGrammar

namespace Registry

/-- All grammars, in the order in which they are shown. -/
def all : List RegisteredGrammar := [
  ⟨"Simpl", "simpl", Simpl.definition.fileTypes, some Simpl.definition⟩,
  ⟨"PeoPl", "peopl", Peopl.definition.fileTypes, some Peopl.definition⟩]

/-- The grammar of the given name. -/
def find? (name : String) : Option RegisteredGrammar := all.find? (·.name == name)

/-- The grammar of the given name, or the reason why there is none. -/
def get (name : String) : Except LoadError RegisteredGrammar :=
  match find? name with
  | some g => .ok g
  | none => .error (.unknown name)

/-- The language of the grammar of the given name. -/
def load (name : String) : Except LoadError Language := do (← get name).language

/-- The grammar for a file, where `extra` holds further extensions with the names of
    their grammars. -/
def forPath? (path : String) (extra : List (String × String)) : Option RegisteredGrammar := do
  let ext ← Path.extension? path
  match (extra.find? (·.2 == ext)).bind fun pair => find? pair.1 with
  | some g => some g
  | none => all.find? (·.handles ext)

end Registry

namespace LoadError

/-- The reason in words. -/
def message : LoadError → String
  | unknown name => s!"unknown language {Text.quoted name}"
  | invalid displayName _ => s!"Error loading {displayName} grammar"

/-- The code by which the reason is looked up. -/
def code : LoadError → String
  | unknown _ => "peopl::unknown_language"
  | invalid _ _ => "peopl::invalid_grammar"

/-- What to do about it. -/
def help? : LoadError → Option String
  | unknown _ => some ("known languages are " ++
      String.intercalate ", " (Registry.all.map RegisteredGrammar.name))
  | invalid _ _ => none

/-- What is behind it. -/
def source? : LoadError → Option LanguageError
  | unknown _ => none
  | invalid _ reason => some reason

end LoadError

end GrammarTools
