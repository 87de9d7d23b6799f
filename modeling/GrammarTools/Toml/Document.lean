import GrammarTools.Toml.Value

/-!
# TOML files

A file begins with the entries of the file itself. A line `[a.b]` begins a
section, whose entries belong to the table `b` within the table `a`; a line
`[[a.b]]` begins a section with a further table of a list of tables. Sections
are kept as they come; who looks into a file decides how they go together.
-/

namespace GrammarTools.Toml

/-- A section of a file. -/
structure Section where
  /-- The names in the header. -/
  path : List String
  /-- Whether the header has double brackets. -/
  isArray : Bool
  /-- The entries below the header. -/
  entries : Entries
deriving Repr, Inhabited

/-- A file. -/
structure Document where
  /-- The entries in front of all sections. -/
  entries : Entries
  /-- The sections. -/
  sections : List Section
deriving Repr, Inhabited

/-- A line of a file. -/
inductive Line where
  /-- The header of a section. -/
  | header (path : List String) (isArray : Bool)
  /-- A key with its value. -/
  | entry (path : List String) (value : Value)
deriving Repr, Inhabited

namespace Document

/-- The end of a line or of the file. -/
def lineEnd : Reader Token Unit := do
  match ← Reader.next? with
  | none | some .lineEnd => return
  | _ => failure

/-- The header of a section behind its first bracket. -/
def header : Reader Token Line := do
  let isArray ← Reader.eat (.sign '[')
  let path ← key
  Reader.expect (.sign ']')
  if isArray then Reader.expect (.sign ']')
  blanks
  return .header path isArray

/-- The next line that is not blank, or nothing at the end. -/
def line : Reader Token (Option Line) := do
  blankLines
  if (← Reader.peek).isNone then return none
  let line ← if ← Reader.eat (.sign '[') then header
    else (fun (path, value) => .entry path value) <$> pair value
  lineEnd
  return some line

/-- A line in front of some pairs and sections: a header takes the pairs as its own. -/
def addLine (line : Line) (behind : List (List String × Value) × List Section) :
    Option (List (List String × Value) × List Section) :=
  match line with
  | .entry path value => some ((path, value) :: behind.1, behind.2)
  | .header path isArray => do
    return ([], ⟨path, isArray, ← entriesOf? behind.1⟩ :: behind.2)

/-- The file that some lines make up. -/
def ofLines? (lines : List Line) : Option Document := do
  let (pairs, sections) ← lines.foldrM addLine ([], [])
  return ⟨← entriesOf? pairs, sections⟩

/-- The file that a text spells. -/
def ofString? (text : String) : Option Document := do
  ofLines? (← (Reader.unfold line).readAll (← tokens? text))

end Document

end GrammarTools.Toml
