import GrammarTools.Host

/-!
# Files in memory

A tree of files and directories, given by the files and directories in it and
their paths. What lies on the way to a file is a directory. The tree stands in
an empty directory, and so on up to the root: a path that leaves the tree, or
begins with a slash, leads to one of these directories or nowhere.
-/

namespace GrammarTools

/-- What stands at a path. -/
inductive FileEntry where
  /-- A file that holds a text. -/
  | text (contents : String)
  /-- A file that holds something else. -/
  | binary
  /-- A directory. -/
  | directory
deriving DecidableEq, Repr, Inhabited

/-- A tree of files, each with the names on the way to it. -/
structure FileTree where
  /-- The files and directories. -/
  entries : List (List (List Char) × FileEntry)
deriving Repr, Inhabited

namespace FileTree

/-- A tree of files with their paths. -/
def ofList (files : List (String × FileEntry)) : FileTree :=
  ⟨files.map fun (path, entry) => (Path.parts path, entry)⟩

/-- What stands at the end of some names. -/
def entry? (tree : FileTree) (names : List (List Char)) : Option FileEntry :=
  match tree.entries.find? (·.1 == names) with
  | some (_, entry) => some entry
  | none =>
    if names.isEmpty || tree.entries.any (fun e => names.isPrefixOf e.1) then some .directory
    else none

/-- What is found outside of the tree by some parts of a path. -/
def outside (parts : List (List Char)) : ReadError :=
  if parts.all fun part => part.all (· == '.') && part.length ≤ 2 then .isDirectory else .missing

/-- Where some parts of a path lead from the directory with the given names, of which the last
    comes first. Empty parts and single dots stay in the directory; two dots go up. -/
def walk (tree : FileTree) (directory : List (List Char)) :
    List (List Char) → Except ReadError (List (List Char))
  | [] => .ok directory
  | part :: rest =>
    match tree.entry? directory.reverse with
    | none => .error .missing
    | some .directory =>
      if part.isEmpty || part == ['.'] then walk tree directory rest
      else if part == ['.', '.'] then
        match directory with
        | [] => .error (outside rest)
        | _ :: above => walk tree above rest
      else walk tree (part :: directory) rest
    | some _ => .error .notDirectory

/-- The text of the file at a path. -/
def read (tree : FileTree) (path : String) : Except ReadError String := do
  let parts := Path.partsFrom [] path.toList
  if path.isEmpty then .error .missing
  if path.startsWith "/" then .error (outside parts)
  let names ← tree.walk [] parts
  match tree.entry? names.reverse with
  | some (.text contents) => .ok contents
  | some .binary => .error .notText
  | some .directory => .error .isDirectory
  | none => .error .missing

end FileTree

end GrammarTools
