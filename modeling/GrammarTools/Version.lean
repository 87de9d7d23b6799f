import GrammarTools.Reader

/-!
# Versions

A version is `major.minor.patch`, which may be followed by the tags of a
pre-release after `-` and the tags of a build after `+`. Tags are separated by
dots and made up of letters, digits and hyphens, all of them ASCII.

The release comes after all of its pre-releases. Pre-releases are compared tag
by tag, where numbers come before other tags and in the order of their values;
if one has run out of tags, it comes first. Numbers are below `2 ^ 64`, those in
tags of any size, and none has a leading zero, save for those in tags of builds.
-/

namespace GrammarTools

/-- A version. -/
structure Version where
  /-- The first number, which changes when things break. -/
  major : Nat
  /-- The second number, which changes when things are added. -/
  minor : Nat
  /-- The third number, which changes when things are mended. -/
  patch : Nat
  /-- The tags of the pre-release, none for the release itself. -/
  preRelease : List String
  /-- The tags of the build. -/
  build : List String
deriving DecidableEq, Repr, Inhabited

namespace Version

/-! ## Reading -/

/-- What all numbers are below. -/
def numberBound : Nat := Nat.pow 2 64

/-- A number. -/
def number : Reader Char Nat := do
  let digits ← Reader.takeWhile Char.isDigit
  guard (!digits.isEmpty && (digits.length == 1 || digits.head? != some '0'))
  let n := digits.foldl (fun n c => 10 * n + (c.toNat - '0'.toNat)) 0
  guard (n < numberBound)
  return n

/-- Whether a character can stand in a tag. -/
def isTagChar (c : Char) : Bool := c.isAlphanum || c == '-'

/-- Whether a tag is a number. -/
def isNumeric (tag : List Char) : Bool := tag.all Char.isDigit

/-- A tag of a build. -/
def buildTag : Reader Char String := do
  let tag ← Reader.takeWhile isTagChar
  guard !tag.isEmpty
  return String.ofList tag

/-- A tag of a pre-release. -/
def preReleaseTag : Reader Char String := do
  let tag ← buildTag
  guard !(isNumeric tag.toList && 1 < tag.length && tag.startsWith "0")
  return tag

/-- The tags behind a mark, none if the mark is not there. -/
def tags (mark : Char) (tag : Reader Char String) : Reader Char (List String) := do
  if ← Reader.eat mark then Reader.separated tag (Reader.eat '.') else return []

/-- A version. -/
def reader : Reader Char Version := do
  let major ← number
  Reader.expect '.'
  let minor ← number
  Reader.expect '.'
  let patch ← number
  return ⟨major, minor, patch, ← tags '-' preReleaseTag, ← tags '+' buildTag⟩

/-- The version that a text spells. -/
def ofString? (text : String) : Option Version := Reader.readAll reader text.toList

/-! ## Writing -/

/-- Some tags behind their mark. -/
def tagsText (mark : String) (tags : List String) : String :=
  if tags.isEmpty then "" else mark ++ String.intercalate "." tags

/-- A version as text. -/
def text (v : Version) : String :=
  s!"{v.major}.{v.minor}.{v.patch}" ++ tagsText "-" v.preRelease ++ tagsText "+" v.build

/-! ## Order -/

/-- The order of two tags of pre-releases. -/
def compareTags (a b : String) : Ordering :=
  match isNumeric a.toList, isNumeric b.toList with
  | false, true => .gt
  | true, false => .lt
  | false, false => compare a b
  | true, true => (compare a.length b.length).then (compare a b)

/-- The order of the tags of two pre-releases. -/
def compareTagLists : List String → List String → Ordering
  | [], [] => .eq
  | [], _ :: _ => .lt
  | _ :: _, [] => .gt
  | a :: as, b :: bs => (compareTags a b).then (compareTagLists as bs)

/-- The order of two pre-releases of one version, or of the version itself. -/
def comparePreReleases (as bs : List String) : Ordering :=
  match as, bs with
  | [], [] => .eq
  | [], _ :: _ => .gt
  | _ :: _, [] => .lt
  | _, _ => compareTagLists as bs

end Version

end GrammarTools
