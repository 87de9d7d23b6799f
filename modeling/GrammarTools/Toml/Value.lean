import GrammarTools.Toml.Scalar

/-!
# Values and tables of TOML

A *table* is a list of keys with their values, in the order of the file. A key
may occur more than once here; who looks into a table decides what that means.

A key of several parts, `a.b.c = v`, puts the value into tables within the
table. Such tables are *open*: further keys can be put into them, which is not
so for tables written between braces.
-/

namespace GrammarTools.Toml

/-- A value. -/
inductive Value where
  /-- A quoted text. -/
  | text (value : String)
  /-- A list of values between brackets. -/
  | array (items : List Value)
  /-- A table, open or not. -/
  | table (entries : List (String × Value)) (isOpen : Bool)
  /-- A boolean, a number or a date. -/
  | scalar (value : Scalar)
deriving Repr, Inhabited

/-- The entries of a table. -/
abbrev Entries := List (String × Value)

/-- The entries of a value, if it has any. A date stands for a table too, with a single entry
    whose key is reserved. -/
def Value.entries? : Value → Option Entries
  | table entries _ => some entries
  | scalar .date => some [("$date", .text "")]
  | _ => none

/-- A value put into a table under the last key behind some parent keys, if the tables on
    the way are open. -/
def Entries.insert? (key : String) (value : Value) : List String → Entries → Option Entries
  | [], entries => some (entries ++ [(key, value)])
  | parent :: parents, entries =>
    let before := entries.takeWhile (·.1 != parent)
    match entries.drop before.length with
    | [] => do
      let inner ← insert? key value parents []
      return entries ++ [(parent, .table inner true)]
    | (_, .table inner true) :: after => do
      let inner ← insert? key value parents inner
      return before ++ (parent, .table inner true) :: after
    | _ => none

/-! ## Keys -/

/-- Blanks. -/
def blanks : Reader Token Unit := do
  match ← Reader.peek with
  | some (.blank _) => let _ ← Reader.next
  | _ => return

/-- A part of a key: a word, or a quoted text on one line. -/
def keyPart : Reader Token String := do
  match ← Reader.next with
  | .word cs => return String.ofList cs
  | .quoted cs false => return String.ofList cs
  | _ => failure

/-- A key of one or more parts, and the blanks behind it. -/
def key : Reader Token (List String) :=
  Reader.separated (do blanks; let part ← keyPart; blanks; return part) (Reader.eat (.sign '.'))

/-- The entries that keys and their values make up. -/
def entriesOf? (pairs : List (List String × Value)) : Option Entries :=
  pairs.foldlM (fun entries (path, value) => do
    Entries.insert? (← path.getLast?) value path.dropLast entries) []

/-! ## Values -/

/-- Blanks and line ends. -/
def blankLines : Reader Token Unit := do
  let _ ← Reader.takeWhile fun
    | .blank _ | .lineEnd => true
    | _ => false

/-- A key with its value, and the blanks around it. -/
def pair (value : Reader Token Value) : Reader Token (List String × Value) := do
  let path ← key
  Reader.expect (.sign '=')
  blanks
  let v ← value
  blanks
  return (path, v)

/-- The items of an array and its end, behind its start. A comma may follow the last item. -/
def arrayItems (value : Reader Token Value) : Reader Token (List Value) :=
  Reader.unfold do
    blankLines
    if ← Reader.eat (.sign ']') then return none
    let item ← value
    blankLines
    let isMore ← Reader.eat (.sign ',')
    guard (isMore || (← Reader.peek) = some (.sign ']'))
    return some item

/-- The entries of a table between braces and its end, behind its start. -/
def inlineEntries (value : Reader Token Value) : Reader Token Entries := do
  blanks
  if ← Reader.eat (.sign '\x7d') then return []
  let pairs ← Reader.separated (pair value) (Reader.eat (.sign ','))
  Reader.expect (.sign '\x7d')
  entriesOf? pairs

/-- A value in which values are nested less deeply than the given bound. -/
def valueWithin : Nat → Reader Token Value
  | 0 => failure
  | depth + 1 => do
    match ← Reader.next with
    | .quoted cs _ => return .text (String.ofList cs)
    | .word cs => return .scalar (← scalar cs)
    | .sign '+' => return .scalar (← positive)
    | .sign '[' => return .array (← arrayItems (valueWithin depth))
    | .sign '\x7b' => return .table (← inlineEntries (valueWithin depth)) false
    | _ => failure

/-- A value. It has a token for every level of nesting. -/
def value : Reader Token Value := fun input => valueWithin input.length input

end GrammarTools.Toml
