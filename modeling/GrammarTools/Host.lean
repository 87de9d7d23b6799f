/-!
# The host and its paths

What a command can see of the machine on which it runs: files, its input and
the variables of its environment.

The parts of a path tell what kind of file it leads to. Parts are separated by
slashes; empty parts and single dots lead nowhere, and a path that ends in two
dots leads to no file by name. The *extension* of a file name is what follows
its last dot, if something stands in front of that dot.
-/

/-! ## Paths -/

namespace GrammarTools.Path

/-- The parts of a path, where `part` holds the current one in reverse. -/
def partsFrom (part : List Char) : List Char → List (List Char)
  | [] => [part.reverse]
  | c :: cs => if c = '/' then part.reverse :: partsFrom [] cs else partsFrom (c :: part) cs

/-- The parts of a path that lead somewhere. -/
def parts (path : String) : List (List Char) :=
  (partsFrom [] path.toList).filter fun part => part != [] && part != ['.']

/-- The name of the file that a path leads to. -/
def fileName? (path : String) : Option (List Char) :=
  (parts path).getLast?.filter (· != ['.', '.'])

/-- The extension of a file name. -/
def extensionOf? (name : List Char) : Option (List Char) :=
  let after := (name.reverse.takeWhile (· != '.')).reverse
  match name.reverse.dropWhile (· != '.') with
  | '.' :: _ :: _ => some after
  | _ => none

/-- The extension of the file that a path leads to. -/
def extension? (path : String) : Option String :=
  ((fileName? path).bind extensionOf?).map String.ofList

end GrammarTools.Path

/-! ## The host -/

namespace GrammarTools

/-- Why a text cannot be read. -/
inductive ReadError where
  /-- Nothing is there. -/
  | missing
  /-- The path leads through something that is no directory. -/
  | notDirectory
  /-- A directory is there. -/
  | isDirectory
  /-- What is there is not encoded in UTF-8. -/
  | notText
  /-- The host has a reason of its own. -/
  | refused (reason : String)
deriving DecidableEq, Repr, Inhabited

namespace ReadError

/-- The reason in words. -/
def message : ReadError → String
  | missing => "No such file or directory (os error 2)"
  | notDirectory => "Not a directory (os error 20)"
  | isDirectory => "Is a directory (os error 21)"
  | notText => "stream did not contain valid UTF-8"
  | refused reason => reason

/-- Whether there is a file nevertheless. -/
def hasFile : ReadError → Bool
  | missing | notDirectory | isDirectory => false
  | notText | refused _ => true

end ReadError

/-- The machine as seen by a command. -/
structure Host where
  /-- The text of the file at a path. -/
  read : String → Except ReadError String
  /-- The text of the input. -/
  input : Except ReadError String
  /-- The value of a variable of the environment. -/
  environment : String → Option String
  /-- Whether both the output and the reports go to a terminal. -/
  isTerminal : Bool

namespace Host

/-- Whether there is a file at a path. -/
def hasFile (host : Host) (path : String) : Bool :=
  match host.read path with
  | .ok _ => true
  | .error reason => reason.hasFile

end Host

end GrammarTools
