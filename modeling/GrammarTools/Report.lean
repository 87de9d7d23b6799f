import GrammarTools.Config
import GrammarTools.Corpus
import GrammarTools.Registry

/-!
# Reports and failures

A *report* tells a person about an error: a message, labels on parts of the
source, and the reports of which it is made up. A *failure* is why a command
ends; it has a message, and it may have a cause and a piece of advice.
-/

namespace GrammarTools

/-! ## Reports -/

/-- A remark on a part of a source. -/
structure Label where
  /-- The first byte of the part. -/
  offset : Nat
  /-- The number of its bytes. -/
  length : Nat
  /-- The remark. -/
  text : String
deriving DecidableEq, Repr, Inhabited

/-- A report of an error. -/
structure Report where
  /-- What is wrong. -/
  message : String
  /-- Where. -/
  labels : List Label
  /-- The reports of the single errors. -/
  related : List Report
deriving Repr, Inhabited

/-- The report of a syntax error. -/
def SyntaxError.report (e : SyntaxError) : Report :=
  ⟨"syntax error", [⟨e.span.start, e.span.length, e.message⟩], []⟩

/-- The report of all syntax errors in a tree, if there are any. -/
def Tree.report? (tree : Tree) (name : String) : Option Report :=
  if tree.errors.isEmpty then none
  else some
    ⟨s!"{name} has {tree.errors.length} syntax error(s)", [], tree.errors.map SyntaxError.report⟩

/-! ## Failures -/

/-- Why a command fails. -/
inductive Failure where
  /-- There is no configuration at a path. -/
  | config (path : String) (reason : ConfigError)
  /-- The configuration wants another version of the program. -/
  | version (current : Version) (wanted : VersionRequirement)
  /-- A grammar cannot be loaded. -/
  | grammar (reason : LoadError)
  /-- The grammar for the file at a path is not known. -/
  | unknownExtension (path : String)
  /-- The grammar for the input is not known. -/
  | noLanguage
  /-- The file at a path cannot be read. -/
  | file (path : String) (reason : ReadError)
  /-- The input cannot be read. -/
  | input (reason : ReadError)
  /-- The file at a path is not a corpus file. -/
  | corpus (path : String) (reason : CorpusError)
  /-- Both paths and the input are to be parsed. -/
  | inputAndPaths
  /-- Neither paths nor the input are to be parsed. -/
  | nothingToParse
  /-- So many files have syntax errors. -/
  | brokenFiles (count : Nat)
  /-- The input has syntax errors. -/
  | brokenInput
  /-- So many tests have failed. -/
  | failedTests (count : Nat)
  /-- So many grammars cannot be loaded. -/
  | brokenGrammars (count : Nat)
deriving Repr, Inhabited

/-- What is behind a failure. -/
inductive Cause where
  /-- Something about the configuration. -/
  | config (reason : ConfigError)
  /-- Something about a file or the input. -/
  | read (reason : ReadError)
deriving DecidableEq, Repr, Inhabited

/-- A cause in words. -/
def Cause.message : Cause → String
  | config reason => reason.message
  | read reason => reason.message

namespace Failure

/-- A failure in words. -/
def message : Failure → String
  | config path _ => s!"error reading config at {Text.quoted path}"
  | version current wanted =>
    s!"peopl version requirement not met: current version = {current.text}, " ++
      s!"wanted = {wanted.text}"
  | grammar reason => reason.message
  | unknownExtension path => s!"can't work out the language of {path}"
  | noLanguage => "no language given"
  | file path _ => s!"error reading {path}"
  | input _ => "error reading stdin"
  | corpus path reason => s!"{path}: {reason.message}"
  | inputAndPaths => "can only specify `--stdin` or paths, not both"
  | nothingToParse => "nothing to parse, pass some paths or `--stdin`"
  | brokenFiles count => s!"{count} file(s) have syntax errors"
  | brokenInput => "stdin has syntax errors"
  | failedTests count => s!"{count} corpus test(s) failed"
  | brokenGrammars count => s!"{count} grammar(s) failed to load"

/-- What is behind a failure. -/
def cause? : Failure → Option Cause
  | config _ reason => some (.config reason)
  | file _ reason => some (.read reason)
  | input reason => some (.read reason)
  | _ => none

/-- What to do about a failure. -/
def help? : Failure → Option String
  | grammar reason => reason.help?
  | unknownExtension _ =>
    some "pass `--language` or add the extension to `file-types` in peopl.toml"
  | noLanguage => some "pass `--language` or set `default-language` in peopl.toml"
  | _ => none

end Failure

end GrammarTools
