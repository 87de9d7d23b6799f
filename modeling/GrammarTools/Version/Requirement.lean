import GrammarTools.Version

/-!
# Requirements on versions

A requirement is a list of comparisons, all of which a version has to meet; the
single star requires nothing. A comparison is an operator in front of a version
of which the last parts may be missing. Parts that are missing are not compared.

* `=1.2` wants these parts, and so does `1.2.*`, which has no operator.
* `>`, `>=`, `<` and `<=` compare with the parts that are there.
* `~1.2.3` wants the same major and minor parts and at least this patch.
* `^1.2.3`, also written without the operator, wants the same parts up to the
  first that is not zero, and then at least the rest.

A pre-release meets a requirement only if one of the comparisons is with a
pre-release of the same version.
-/

namespace GrammarTools

/-- How a version is compared. -/
inductive VersionOperator where
  /-- The same parts. -/
  | exact
  /-- A later version. -/
  | greater
  /-- The same parts, or a later version. -/
  | greaterEq
  /-- An earlier version. -/
  | less
  /-- The same parts, or an earlier version. -/
  | lessEq
  /-- The same major and minor parts, and no earlier version. -/
  | tilde
  /-- The same parts up to the first that is not zero, and no earlier version. -/
  | caret
  /-- The same parts, those that are stars aside. -/
  | wildcard
deriving DecidableEq, Repr, Inhabited

/-- A comparison with a version. -/
structure VersionComparison where
  /-- How to compare. -/
  operator : VersionOperator
  /-- The major part. -/
  major : Nat
  /-- The minor part, if there is one. -/
  minor : Option Nat
  /-- The patch, if there is one. -/
  patch : Option Nat
  /-- The tags of the pre-release. -/
  preRelease : List String
deriving DecidableEq, Repr, Inhabited

/-- Comparisons all of which have to be met. -/
structure VersionRequirement where
  /-- The comparisons. -/
  comparisons : List VersionComparison
deriving DecidableEq, Repr, Inhabited

namespace VersionOperator

/-- The sign of an operator. -/
def text : VersionOperator → String
  | exact => "="
  | greater => ">"
  | greaterEq => ">="
  | less => "<"
  | lessEq => "<="
  | tilde => "~"
  | caret => "^"
  | wildcard => ""

/-- An operator, if one is written out. -/
def reader? : Reader Char (Option VersionOperator) := do
  if ← Reader.eat '=' then return some exact
  else if ← Reader.eat '>' then return some (if ← Reader.eat '=' then greaterEq else greater)
  else if ← Reader.eat '<' then return some (if ← Reader.eat '=' then lessEq else less)
  else if ← Reader.eat '~' then return some tilde
  else if ← Reader.eat '^' then return some caret
  else return none

end VersionOperator

namespace VersionComparison

/-! ## Reading -/

/-- Spaces. -/
def spaces : Reader Char Unit := do let _ ← Reader.takeWhile (· == ' ')

/-- A star, which can also be written as a letter. -/
def star : Reader Char Bool := do
  let found ← Reader.takeUpTo 1 fun c => c == '*' || c == 'x' || c == 'X'
  return !found.isEmpty

/-- A part behind a dot. -/
inductive Part where
  /-- It is not there. -/
  | missing
  /-- It is a star. -/
  | anything
  /-- It is a number. -/
  | number (n : Nat)
deriving DecidableEq, Repr, Inhabited

namespace Part

/-- The number of a part. -/
def number? : Part → Option Nat
  | number n => some n
  | _ => none

/-- A part with its dot. -/
def reader : Reader Char Part := do
  if ← Reader.eat '.' then
    if ← star then return anything else return number (← Version.number)
  else return missing

end Part

/-- A comparison. Behind a star stands no number, and tags need all three numbers. -/
def reader : Reader Char VersionComparison := do
  let operator? ← VersionOperator.reader?
  spaces
  let major ← Version.number
  let minor ← Part.reader
  let patch ← Part.reader
  guard (minor.number?.isSome || patch.number?.isNone)
  let isWhole := patch.number?.isSome
  let preRelease ← if isWhole then Version.tags '-' Version.preReleaseTag else pure []
  if isWhole then let _ ← Version.tags '+' Version.buildTag
  spaces
  let unwritten := if minor = .anything || patch = .anything then .wildcard else .caret
  return ⟨operator?.getD unwritten, major, minor.number?, patch.number?, preRelease⟩

/-! ## Writing -/

/-- A comparison as text. -/
def text (c : VersionComparison) : String :=
  let rest := match c.minor, c.patch with
    | some minor, some patch => s!".{minor}.{patch}" ++ Version.tagsText "-" c.preRelease
    | some minor, none => s!".{minor}" ++ if c.operator = .wildcard then ".*" else ""
    | none, _ => if c.operator = .wildcard then ".*" else ""
  c.operator.text ++ toString c.major ++ rest

/-! ## Meaning -/

/-- Whether a version has the parts of a comparison. -/
def isExact (c : VersionComparison) (v : Version) : Bool :=
  v.major == c.major && c.minor.all (· == v.minor) && c.patch.all (· == v.patch) &&
    v.preRelease == c.preRelease

/-- How a version compares with the parts of a comparison. If they run out, it is equal. -/
def order (c : VersionComparison) (v : Version) : Ordering :=
  (compare v.major c.major).then <|
    match c.minor with
    | none => .eq
    | some minor => (compare v.minor minor).then <|
      match c.patch with
      | none => .eq
      | some patch => (compare v.patch patch).then
          (Version.comparePreReleases v.preRelease c.preRelease)

/-- Whether the parts behind a number that is fixed are at least those of the comparison. -/
def isTilde (c : VersionComparison) (v : Version) : Bool :=
  v.major == c.major && c.minor.all (· == v.minor) &&
    match c.patch with
    | none => (Version.comparePreReleases v.preRelease c.preRelease).isGE
    | some patch => ((compare v.patch patch).then
        (Version.comparePreReleases v.preRelease c.preRelease)).isGE

/-- Whether a version keeps the first part that is not zero and does not fall behind the rest. -/
def isCaret (c : VersionComparison) (v : Version) : Bool :=
  v.major == c.major &&
    match c.minor, c.patch with
    | none, _ => true
    | some minor, none => if 0 < c.major then minor ≤ v.minor else v.minor == minor
    | some minor, some patch =>
      let isKept := 0 < c.major || v.minor == minor && (0 < minor || v.patch == patch)
      isKept && (((compare v.minor minor).then (compare v.patch patch)).then
        (Version.comparePreReleases v.preRelease c.preRelease)).isGE

/-- Whether a version meets a comparison, whatever is said on pre-releases. -/
def accepts (c : VersionComparison) (v : Version) : Bool :=
  match c.operator with
  | .exact | .wildcard => c.isExact v
  | .greater => c.order v == .gt
  | .greaterEq => c.isExact v || c.order v == .gt
  | .less => c.order v == .lt
  | .lessEq => c.isExact v || c.order v == .lt
  | .tilde => c.isTilde v
  | .caret => c.isCaret v

/-- Whether a comparison is with a pre-release of the same version. -/
def admitsPreRelease (c : VersionComparison) (v : Version) : Bool :=
  c.major == v.major && c.minor == some v.minor && c.patch == some v.patch &&
    !c.preRelease.isEmpty

end VersionComparison

namespace VersionRequirement

/-- The largest number of comparisons in a requirement. -/
def maxComparisons : Nat := 32

/-- A requirement. -/
def reader : Reader Char VersionRequirement := do
  VersionComparison.spaces
  if ← VersionComparison.star then
    VersionComparison.spaces
    return ⟨[]⟩
  let comparisons ← Reader.separated VersionComparison.reader do
    let isMore ← Reader.eat ','
    if isMore then VersionComparison.spaces
    return isMore
  guard (comparisons.length ≤ maxComparisons)
  return ⟨comparisons⟩

/-- The requirement that a text spells. -/
def ofString? (text : String) : Option VersionRequirement := Reader.readAll reader text.toList

/-- A requirement as text. -/
def text (r : VersionRequirement) : String :=
  if r.comparisons.isEmpty then "*"
  else String.intercalate ", " (r.comparisons.map VersionComparison.text)

/-- Whether a version meets a requirement. -/
def accepts (r : VersionRequirement) (v : Version) : Bool :=
  r.comparisons.all (·.accepts v) &&
    (v.preRelease.isEmpty || r.comparisons.any (·.admitsPreRelease v))

end VersionRequirement

end GrammarTools
