import GrammarTools.Bisect
import GrammarTools.Command
import GrammarTools.CommandLine
import GrammarTools.Config
import GrammarTools.Corpus
import GrammarTools.FileTree
import GrammarTools.Grammar
import GrammarTools.Highlight
import GrammarTools.Host
import GrammarTools.Language
import GrammarTools.Lexicon
import GrammarTools.Main
import GrammarTools.Operators
import GrammarTools.ParseOutput
import GrammarTools.Peopl.Kind
import GrammarTools.Peopl.Language
import GrammarTools.Peopl.Rules
import GrammarTools.Peopl.Token
import GrammarTools.Proofs.Acceptance
import GrammarTools.Proofs.Derivation
import GrammarTools.Proofs.Extra
import GrammarTools.Proofs.Lexing
import GrammarTools.Proofs.Lossless
import GrammarTools.Proofs.Nesting
import GrammarTools.Proofs.Parallel
import GrammarTools.Proofs.Peopl.Acceptance
import GrammarTools.Proofs.Peopl.Parallel
import GrammarTools.Proofs.Peopl.Productions
import GrammarTools.Proofs.Peopl.Reading
import GrammarTools.Proofs.Peopl.Steps
import GrammarTools.Proofs.Reading
import GrammarTools.Proofs.Recording
import GrammarTools.Proofs.Records
import GrammarTools.Proofs.Run
import GrammarTools.Proofs.Simpl.Acceptance
import GrammarTools.Proofs.Simpl.Productions
import GrammarTools.Proofs.Simpl.Reading
import GrammarTools.Proofs.Simpl.Steps
import GrammarTools.RawNode
import GrammarTools.RawNode.Extra
import GrammarTools.Reader
import GrammarTools.Registry
import GrammarTools.Report
import GrammarTools.Rule
import GrammarTools.Session
import GrammarTools.Sexp
import GrammarTools.Simpl.Kind
import GrammarTools.Simpl.Language
import GrammarTools.Simpl.Rules
import GrammarTools.Simpl.Token
import GrammarTools.Span
import GrammarTools.Text.Blank
import GrammarTools.Text.Bytes
import GrammarTools.Text.GapBuffer
import GrammarTools.Text.Printable
import GrammarTools.TokenStream
import GrammarTools.Toml.Document
import GrammarTools.Toml.Scalar
import GrammarTools.Toml.Token
import GrammarTools.Toml.Value
import GrammarTools.Tree
import GrammarTools.Version
import GrammarTools.Version.Requirement
import GrammarTools.Proofs.Simpl.Parallel
import GrammarTools.Proofs.Arena
import GrammarTools.Proofs.Commented
import GrammarTools.Proofs.Errors
import GrammarTools.Proofs.Peopl.Recovery
import GrammarTools.Proofs.Reporting
import GrammarTools.Proofs.ParallelRun
import GrammarTools.Proofs.Shift
import GrammarTools.Proofs.Splice
import GrammarTools.Proofs.Simpl.Splice
import GrammarTools.Proofs.Peopl.Splice
import GrammarTools.Proofs.Layout
import GrammarTools.Proofs.Peopl.Layout
import GrammarTools.Proofs.Simpl.Layout
import GrammarTools.Proofs.Climbing
import GrammarTools.Proofs.Canonical
import GrammarTools.Proofs.Peopl.Terminators
import GrammarTools.Proofs.Spacing
import GrammarTools.Proofs.Peopl.TypePlaces
import GrammarTools.Proofs.Joins
import GrammarTools.Proofs.Simpl.Joins
import GrammarTools.Proofs.Rebuilding
import GrammarTools.Proofs.Classes
import GrammarTools.Proofs.Partition
import GrammarTools.Proofs.Captures
import GrammarTools.Proofs.Shown
import GrammarTools.Proofs.Highlighting
import GrammarTools.Proofs.Html
import GrammarTools.Proofs.Words
import GrammarTools.Proofs.Outlines
import GrammarTools.Proofs.CorpusFiles
import GrammarTools.Proofs.Tracing
import GrammarTools.Proofs.Simpl.Tracing
import GrammarTools.Proofs.Peopl.Tracing
import GrammarTools.Proofs.Progress
import GrammarTools.Proofs.Placement
import GrammarTools.Proofs.Tagging
import GrammarTools.Proofs.Room
import GrammarTools.Proofs.Peopl.Room
import GrammarTools.Proofs.Simpl.Room
import GrammarTools.Proofs.NestingLimit
import GrammarTools.Proofs.Chains
import GrammarTools.Proofs.Peopl.Chains
import GrammarTools.Proofs.Simpl.Chains
import GrammarTools.Proofs.LongChains
import GrammarTools.Proofs.ExtraOrder
import GrammarTools.Proofs.Printing
import GrammarTools.Proofs.JoinedCorpus
import GrammarTools.Proofs.SexpForms
import GrammarTools.Proofs.FileTypes
import GrammarTools.Proofs.Sessions
import GrammarTools.Proofs.Opening
import GrammarTools.Proofs.ParsedFiles
import GrammarTools.Proofs.TestedFiles
import GrammarTools.Proofs.Lookups
import GrammarTools.Proofs.Positions
import GrammarTools.Proofs.CaptureNames
