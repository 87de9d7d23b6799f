import GrammarTools.CommandLine
import GrammarTools.Highlight
import GrammarTools.Session

/-!
# The commands

What the commands do. All but the list of grammars begin by reading the
configuration and checking the version it wants.

The grammar of a file is the one asked for on the command line, or else the one
for its extension, or else the default of the configuration. It is found before
the file is read, so that a file of an unknown kind need not be there.
-/

namespace GrammarTools.Command

/-- The version of this program. -/
def programVersion : Version := ⟨0, 1, 0, [], []⟩

/-- The version that requirements are checked against. The environment can give another. -/
def checkedVersion (host : Host) : Version :=
  ((host.environment "PEOPL_TEST_VERSION").bind Version.ofString?).getD programVersion

/-- Whether texts are printed without colours. Unless the environment says so, they are if the
    output or the reports do not go to a terminal. -/
def isPlain (host : Host) : Bool :=
  match host.environment "PEOPL_PLAIN" with
  | some value => value != "false"
  | none => !host.isTerminal

/-- The configuration at a path, or else the usual one. -/
def readConfig (host : Host) : Option String → Except Failure Config
  | some path => (Config.read host path).mapError (Failure.config path)
  | none =>
    match Config.find? host "." with
    | .ok c => .ok (c.getD .empty)
    | .error reason => .error (.config ("./" ++ Config.fileName) reason)

/-- The configuration at a path, or else the usual one, if the program will do for it. -/
def loadConfig (host : Host) (path : Option String) : Except Failure Config := do
  let c ← readConfig host path
  match c.requiredVersion with
  | none => return c
  | some wanted =>
    let current := checkedVersion host
    if wanted.accepts current then return c else .error (.version current wanted)

/-- The grammar of the given name. -/
def grammarOf (name : String) : Except Failure RegisteredGrammar :=
  (Registry.get name).mapError Failure.grammar

/-- The grammar for the file at a path, or for the input if there is none. -/
def resolveGrammar (config : Config) (language path : Option String) :
    Except Failure RegisteredGrammar :=
  match language with
  | some name => grammarOf name
  | none =>
    match path.bind (Registry.forPath? · config.extraFileTypes) with
    | some g => .ok g
    | none =>
      match config.defaultLanguage, path with
      | some name, _ => grammarOf name.text
      | none, some path => .error (.unknownExtension path)
      | none, none => .error .noLanguage

/-- The grammar for the file at a path, and the text of the file. -/
def openFile (host : Host) (config : Config) (language : Option String) (path : String) :
    Except Failure (RegisteredGrammar × String) := do
  let g ← resolveGrammar config language (some path)
  let source ← (host.read path).mapError (Failure.file path)
  return (g, source)

/-- The tree of a source. -/
def treeOf (g : RegisteredGrammar) (source : String) : Except Failure Tree := do
  return Tree.parse (← g.language.mapError Failure.grammar) source

/-! ## Parsing -/

/-- A source parsed under a name. Its tree is printed unless the command is quiet. The result
    is whether there are no syntax errors; those that there are are reported. -/
def parseSource (name : String) (isQuiet : Bool) (g : RegisteredGrammar) (source : String) :
    Session Bool := do
  let tree ← treeOf g source
  unless isQuiet do Session.printText (tree.root.toSexp ++ "\n")
  match tree.report? name with
  | some r => do Session.report r; return false
  | none => return true

/-- The file at a path parsed. -/
def parseFile (host : Host) (config : Config) (language : Option String) (isQuiet : Bool)
    (path : String) : Session Bool := do
  let (g, source) ← openFile host config language path
  parseSource path isQuiet g source

/-- Files parsed. -/
def parseFiles (host : Host) (config : Config) (language : Option String) (isQuiet : Bool)
    (paths : List String) : Session Unit := do
  if paths.isEmpty then throw .nothingToParse
  let results ← paths.mapM (parseFile host config language isQuiet)
  let broken := results.count false
  if 0 < broken then throw (.brokenFiles broken)

/-- The input parsed. -/
def parseInput (host : Host) (config : Config) (language : Option String) (isQuiet : Bool) :
    Session Unit := do
  let source ← host.input.mapError Failure.input
  let g ← resolveGrammar config language none
  unless ← parseSource "stdin" isQuiet g source do throw .brokenInput

/-! ## Highlighting -/

/-- The file at a path printed with highlighting. -/
def highlight (host : Host) (config : Config) (language : Option String) (asHtml : Bool)
    (path : String) : Session Unit := do
  let (g, source) ← openFile host config language path
  let tree ← treeOf g source
  Session.printText <|
    if asHtml then Highlight.html source tree
    else if isPlain host then source
    else Highlight.tagged Highlight.ansiTags source tree

/-! ## Testing -/

/-- The line for a test. -/
def outcomeLine (o : CorpusOutcome) : String :=
  if o.passed then s!"  ✓ {o.name}\n" else s!"  ✗ {o.name}\n"

/-- The tests of the corpus file at a path. -/
def testFile (host : Host) (config : Config) (language : Option String) (path : String) :
    Session (List CorpusOutcome) := do
  let (g, contents) ← openFile host config language path
  let entries ← (Corpus.entries contents).mapError (Failure.corpus path)
  let language ← g.language.mapError Failure.grammar
  Session.printText s!"{path}:\n"
  let outcomes := (Parser.new.setLanguage language).runCorpus entries
  outcomes.forM fun o => Session.printText (outcomeLine o)
  return outcomes

/-- The tests of corpus files, with what differs at the end. -/
def test (host : Host) (config : Config) (language : Option String) (paths : List String) :
    Session Unit := do
  let outcomes := (← paths.mapM (testFile host config language)).flatten
  let (passed, failed) := outcomes.partition CorpusOutcome.passed
  failed.forM fun o => Session.print (.difference o)
  Session.printText s!"\n{passed.length} passed, {failed.length} failed\n"
  unless failed.isEmpty do throw (.failedTests failed.length)

/-! ## The list of grammars -/

/-- A text with spaces behind it up to a width. -/
def padded (width : Nat) (text : String) : String :=
  text ++ String.ofList (List.replicate (width - text.length) ' ')

/-- The line for a grammar. -/
def grammarLine (g : RegisteredGrammar) (l : Language) : String :=
  let fileTypes := l.definition.fileTypes.map fun ext => "." ++ ext
  s!"{padded 8 g.name} {g.displayName} v{l.version} {l.definition.scope} " ++
    String.intercalate " " fileTypes ++ "\n"

/-- The report of a grammar that cannot be loaded, with what is behind it. -/
def loadReport (reason : LoadError) : Report :=
  ⟨reason.message, [], reason.source?.toList.map fun cause => ⟨cause.message, [], []⟩⟩

/-- A grammar listed, or reported if it cannot be loaded. The result is whether it can. -/
def listGrammar (g : RegisteredGrammar) : Session Bool := do
  match g.language with
  | .ok l => do Session.printText (grammarLine g l); return true
  | .error reason => do Session.report (loadReport reason); return false

/-- Some grammars listed, also behind one that cannot be loaded. -/
def listGrammars (grammars : List RegisteredGrammar) : Session Unit := do
  let results ← grammars.mapM listGrammar
  let broken := results.count false
  if 0 < broken then throw (.brokenGrammars broken)

/-- All grammars listed. -/
def languages : Session Unit := listGrammars Registry.all

/-! ## All together -/

/-- What an invocation does. -/
def session (host : Host) (i : CommandLine.Invocation) : Session Unit := do
  match i.command with
  | .parse language isQuiet fromInput paths =>
    let config ← loadConfig host i.config
    if !fromInput then parseFiles host config language isQuiet paths
    else if !paths.isEmpty then throw .inputAndPaths
    else parseInput host config language isQuiet
  | .highlight language asHtml path =>
    let config ← loadConfig host i.config
    highlight host config language asHtml path
  | .test language paths =>
    let config ← loadConfig host i.config
    test host config language paths
  | .languages => languages

/-- How the program ends when it is given some arguments. Wrong ones have an exit code of
    their own. -/
def run (host : Host) (arguments : List String) : Outcome :=
  match CommandLine.read arguments with
  | .ok i => (session host i).outcome
  | .error .usage => ⟨⟨[], []⟩, none, 2⟩
  | .error .help => ⟨⟨[.text CommandLine.help], []⟩, none, 0⟩
  | .error .version => ⟨⟨[.text s!"peopl {programVersion.text}\n"], []⟩, none, 0⟩

end GrammarTools.Command
