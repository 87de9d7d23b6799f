import GrammarTools.Report

/-!
# Sessions

A *session* is what a command does: it prints, it reports syntax errors, and it
may end in a failure. What has been printed and reported before a failure
stays.
-/

namespace GrammarTools

/-- A piece of what a command prints. -/
inductive Output where
  /-- Some text. -/
  | text (contents : String)
  /-- How the tree of a test differs from the expected one. -/
  | difference (outcome : CorpusOutcome)
deriving Repr, Inhabited

/-- What a command has printed and reported. -/
structure Transcript where
  /-- What it has printed, in order. -/
  output : List Output
  /-- Its reports of syntax errors, in order. -/
  reports : List Report
deriving Repr, Inhabited

/-- What a command does. -/
abbrev Session := ExceptT Failure (StateM Transcript)

namespace Session

/-- Something printed. -/
def print (output : Output) : Session Unit :=
  modify fun t => { t with output := t.output ++ [output] }

/-- A text printed. -/
def printText (contents : String) : Session Unit := print (.text contents)

/-- Syntax errors reported. -/
def report (r : Report) : Session Unit := modify fun t => { t with reports := t.reports ++ [r] }

end Session

/-- How a command has ended. -/
structure Outcome where
  /-- What it has printed and reported. -/
  transcript : Transcript
  /-- Why it has failed, if it has. -/
  failure : Option Failure
  /-- What it tells the host. -/
  exitCode : Nat
deriving Repr, Inhabited

/-- How a command ends that does what a session says: with exit code one if it fails. -/
def Session.outcome (session : Session Unit) : Outcome :=
  match session.run.run ⟨[], []⟩ with
  | (.ok _, transcript) => ⟨transcript, none, 0⟩
  | (.error failure, transcript) => ⟨transcript, some failure, 1⟩

end GrammarTools
