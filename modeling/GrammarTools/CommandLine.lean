/-!
# The command line

The arguments of the program name a command and what it is to do:

* `parse [-q] [--stdin] [--language NAME] [PATH]...`
* `highlight [--html] [--language NAME] PATH`
* `test [--language NAME] FILE...`
* `languages`

The option `--config FILE` can stand anywhere, and the one behind the command
counts. A value stands in the argument behind its option, or in the same one
behind an equal sign. No flag and no option is given twice, and behind `--`
there are only operands. Arguments are read in order, up to the first that is
wrong or asks for help or for the version.
-/

namespace GrammarTools.CommandLine

/-- How to use the program. -/
def help : String :=
  "Usage:\n" ++
  "  peopl [--config FILE] parse [-q] [--stdin] [--language NAME] [PATH]...\n" ++
  "  peopl [--config FILE] highlight [--html] [--language NAME] PATH\n" ++
  "  peopl [--config FILE] test [--language NAME] FILE...\n" ++
  "  peopl languages\n"

/-! ## Arguments -/

/-- What an argument says. -/
inductive Argument where
  /-- A flag. -/
  | flag (name : String)
  /-- An option with its value. -/
  | option (name value : String)
  /-- An operand. -/
  | operand (value : String)
deriving DecidableEq, Repr, Inhabited

/-- Why arguments make up no invocation. -/
inductive Stop where
  /-- They are wrong. -/
  | usage
  /-- They ask for help. -/
  | help
  /-- They ask for the version. -/
  | version
deriving DecidableEq, Repr, Inhabited

/-- The arguments that are understood. -/
structure Signature where
  /-- The flags, with a letter for some of them. -/
  flags : List (String × Option Char)
  /-- The options, and whether their values can be empty. -/
  options : List (String × Bool)
  /-- The smallest number of operands. -/
  minOperands : Nat
  /-- The largest number of operands, if there is one. -/
  maxOperands : Option Nat
deriving Repr, Inhabited

/-- How far the arguments have been read. -/
structure Progress where
  /-- What has been said, the last thing first. -/
  said : List Argument
  /-- The option whose value comes next. -/
  pending : Option String
  /-- Whether there are only operands from here on. -/
  isOpen : Bool
deriving Repr, Inhabited

namespace Progress

/-- The start. -/
def start : Progress := ⟨[], none, false⟩

/-- The operands so far. -/
def operands (p : Progress) : List String :=
  p.said.reverse.filterMap fun
    | .operand value => some value
    | _ => none

/-- The value of an option, if it has been given. -/
def value? (p : Progress) (name : String) : Option String :=
  p.said.findSome? fun
    | .option other value => if other = name then some value else none
    | _ => none

/-- Whether a flag has been given. -/
def hasFlag (p : Progress) (name : String) : Bool := p.said.contains (.flag name)

/-- One more thing said. -/
def say (p : Progress) (argument : Argument) : Progress :=
  ⟨argument :: p.said, none, p.isOpen⟩

/-- One more flag. -/
def addFlag (p : Progress) (name : String) : Except Stop Progress :=
  if name = "help" then .error .help
  else if name = "version" then .error .version
  else if p.hasFlag name then .error .usage
  else .ok (p.say (.flag name))

/-- One more option with its value. -/
def addOption (s : Signature) (p : Progress) (name value : String) : Except Stop Progress :=
  if (p.value? name).isSome || value.isEmpty && !s.options.contains (name, true) then .error .usage
  else .ok (p.say (.option name value))

/-- One more operand. None is empty. -/
def addOperand (s : Signature) (p : Progress) (value : String) : Except Stop Progress :=
  if value.isEmpty || s.maxOperands.any (· ≤ p.operands.length) then .error .usage
  else .ok (p.say (.operand value))

/-- A flag or an option by its name, with the value behind its equal sign. -/
def addLong (s : Signature) (p : Progress) (name : String) (value : Option String) :
    Except Stop Progress :=
  if s.flags.any (·.1 == name) then
    if value.isSome then .error .usage else p.addFlag name
  else if s.options.any (·.1 == name) then
    match value with
    | some value => p.addOption s name value
    | none => .ok { p with pending := some name }
  else .error .usage

/-- Flags by their letters. -/
def addLetters (s : Signature) (p : Progress) (letters : List Char) : Except Stop Progress :=
  letters.foldlM (fun p letter =>
    match s.flags.find? (·.2 == some letter) with
    | some (name, _) => p.addFlag name
    | none => .error .usage) p

/-- Whether an argument begins like a flag or an option. -/
def isDashed (argument : String) : Bool :=
  match argument.toList with
  | '-' :: _ :: _ => true
  | _ => false

/-- One more flag or option. -/
def addDashed (s : Signature) (p : Progress) (argument : List Char) : Except Stop Progress :=
  match argument with
  | ['-', '-'] => .ok { p with isOpen := true }
  | '-' :: '-' :: long =>
    let name := long.takeWhile (· != '=')
    let value := if name.length = long.length then none
      else some (String.ofList (long.drop (name.length + 1)))
    p.addLong s (String.ofList name) value
  | _ => p.addLetters s argument.tail

/-- One more argument. -/
def add (s : Signature) (p : Progress) (argument : String) : Except Stop Progress :=
  if p.isOpen then p.addOperand s argument
  else if isDashed argument then
    if p.pending.isSome then .error .usage else p.addDashed s argument.toList
  else
    match p.pending with
    | some name => p.addOption s name argument
    | none => p.addOperand s argument

/-- All there is, if nothing is missing. -/
def finish (s : Signature) (p : Progress) : Except Stop Progress :=
  if p.pending.isSome || p.operands.length < s.minOperands then .error .usage else .ok p

end Progress

/-! ## Commands -/

/-- A command. -/
inductive Command where
  /-- Parse files, or else the input. -/
  | parse (language : Option String) (isQuiet fromInput : Bool) (paths : List String)
  /-- Print a file with highlighting. -/
  | highlight (language : Option String) (asHtml : Bool) (path : String)
  /-- Run the tests of corpus files. -/
  | test (language : Option String) (paths : List String)
  /-- List the grammars. -/
  | languages
deriving DecidableEq, Repr, Inhabited

/-- What is asked of the program. -/
structure Invocation where
  /-- The path of the configuration, if one is given. -/
  config : Option String
  /-- The command. -/
  command : Command
deriving DecidableEq, Repr, Inhabited

/-- The name of a command. -/
inductive CommandName where
  /-- The command `parse`. -/
  | parse
  /-- The command `highlight`. -/
  | highlight
  /-- The command `test`. -/
  | test
  /-- The command `languages`. -/
  | languages
deriving DecidableEq, Repr, Inhabited

/-- What is understood in front of the command. -/
def topSignature : Signature where
  flags := [("help", some 'h'), ("version", some 'V')]
  options := [("config", false)]
  minOperands := 0
  maxOperands := some 0

namespace CommandName

/-- The command of the given name. -/
def ofString? (name : String) : Option CommandName :=
  match name with
  | "parse" => some parse
  | "highlight" => some highlight
  | "test" => some test
  | "languages" => some languages
  | _ => none

/-- What is understood behind a command. -/
def signature : CommandName → Signature
  | parse => ⟨[("help", some 'h'), ("quiet", some 'q'), ("stdin", none)],
      [("config", false), ("language", true)], 0, none⟩
  | highlight => ⟨[("help", some 'h'), ("html", none)],
      [("config", false), ("language", true)], 1, some 1⟩
  | test => ⟨[("help", some 'h')], [("config", false), ("language", true)], 1, none⟩
  | languages => ⟨[("help", some 'h')], [("config", false)], 0, some 0⟩

/-- The command that arguments make up. -/
def command (name : CommandName) (p : Progress) : Command :=
  let language := p.value? "language"
  match name with
  | parse => .parse language (p.hasFlag "quiet") (p.hasFlag "stdin") p.operands
  | highlight => .highlight language (p.hasFlag "html") (p.operands.headD "")
  | test => .test language p.operands
  | languages => .languages

end CommandName

/-- The invocation that arguments make up, `top` being what has been said in front. -/
def readCommand (top : Progress) (name : CommandName) (arguments : List String) :
    Except Stop Invocation := do
  let p ← arguments.foldlM (Progress.add name.signature) .start
  let p ← p.finish name.signature
  return ⟨p.value? "config" <|> top.value? "config", name.command p⟩

/-- The invocation that arguments make up, behind those that have been read. The command is
    the first operand. -/
def readFrom (p : Progress) : List String → Except Stop Invocation
  | [] => .error .usage
  | argument :: rest =>
    if !p.isOpen && p.pending.isNone && !Progress.isDashed argument then
      match CommandName.ofString? argument with
      | some name => readCommand p name rest
      | none => .error .usage
    else do readFrom (← p.add topSignature argument) rest

/-- The invocation that arguments make up. -/
def read (arguments : List String) : Except Stop Invocation := readFrom .start arguments

namespace Invocation

/-- The paths of the files that a command may read besides the usual configuration. -/
def paths (i : Invocation) : List String :=
  i.config.toList ++
    match i.command with
    | .parse _ _ _ paths => paths
    | .highlight _ _ path => [path]
    | .test _ paths => paths
    | .languages => []

/-- Whether a command may read the input. -/
def readsInput (i : Invocation) : Bool :=
  match i.command with
  | .parse _ _ fromInput _ => fromInput
  | _ => false

end Invocation

end GrammarTools.CommandLine
