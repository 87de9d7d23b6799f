import GrammarTools.Command

/-!
# The program

Reads what the command may read, runs it, prints what it has to say.
-/

namespace GrammarTools.Main

/-- Why the host has refused to read a file. -/
def reason : IO.Error → ReadError
  | .noFileOrDirectory _ _ _ => .missing
  | .inappropriateType _ 21 _ => .isDirectory
  | .inappropriateType _ _ _ => .notDirectory
  | e => .refused (toString e)

/-- Bytes as text. -/
def decode (bytes : ByteArray) : Except ReadError String :=
  match String.fromUTF8? bytes with
  | some text => .ok text
  | none => .error .notText

/-- The text that an action reads. -/
def readText (bytes : IO ByteArray) : BaseIO (Except ReadError String) := do
  match ← bytes.toBaseIO with
  | .ok bytes => return decode bytes
  | .error e => return .error (reason e)

/-- Everything that is left in a stream. -/
partial def readAll (stream : IO.FS.Stream) (found : ByteArray) : IO ByteArray := do
  let more ← stream.read 65536
  if more.isEmpty then return found else readAll stream (found ++ more)

/-- The host as far as the command that some arguments make up may see it. -/
def hostFor (arguments : List String) : IO Host := do
  let invocation := (CommandLine.read arguments).toOption
  let paths := ("./" ++ Config.fileName) :: (invocation.map (·.paths)).getD []
  let files ← paths.mapM fun (path : String) => do
    return (path, ← readText (IO.FS.readBinFile path))
  let input ← if invocation.any (·.readsInput) then readText (readAll (← IO.getStdin) .empty)
    else pure (.ok "")
  let names := ["PEOPL_PLAIN", "PEOPL_TEST_VERSION"]
  let settings ← names.mapM fun name => do return (name, ← IO.getEnv name)
  return {
    read := fun path => (files.lookup path).getD (.error .missing)
    input := input
    environment := fun name => (settings.lookup name).join
    isTerminal := (← (← IO.getStdout).isTty) && (← (← IO.getStderr).isTty) }

/-- A piece of output as text. -/
def render : Output → String
  | .text contents => contents
  | .difference o =>
    s!"\n{o.name}:\nexpected:\n{Sexp.pretty o.expected}\nactual:\n{Sexp.pretty o.actual}\n"

/-- A failure as text. -/
def describe (f : Failure) : String :=
  let cause := (f.cause?.map fun c => s!"\n  because: {c.message}").getD ""
  let help := (f.help?.map fun h => s!"\n  help: {h}").getD ""
  f.message ++ cause ++ help

/-- A report as text. -/
def describeReport (r : Report) : String :=
  let labels := (r.related.flatMap Report.labels).map fun l =>
    s!"\n  at {l.offset}: {l.text}"
  r.message ++ String.join labels

end GrammarTools.Main

open GrammarTools in
/-- Runs the program. -/
def main (arguments : List String) : IO UInt32 := do
  let outcome := Command.run (← Main.hostFor arguments) arguments
  for r in outcome.transcript.reports do IO.eprintln (Main.describeReport r)
  for o in outcome.transcript.output do IO.print (Main.render o)
  for f in outcome.failure do IO.eprintln (Main.describe f)
  if outcome.exitCode == 2 then IO.eprint CommandLine.help
  return outcome.exitCode.toUInt32
