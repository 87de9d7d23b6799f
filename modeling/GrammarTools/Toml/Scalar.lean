import GrammarTools.Toml.Token

/-!
# Booleans, numbers and dates of TOML

The values that are neither quoted nor put together. All of them begin with a
word, or with a plus sign in front of one.

* *Integers* have a range of 64 bits. Underscores may stand between digits; in
  decimal there are no leading zeros. A radix is given by `0x`, `0o` or `0b`.
* *Floats* have digits behind a dot, an exponent, or both; they must be finite,
  save for `inf` and `nan`.
* *Dates* are only told apart from numbers, by a hyphen or a `T` in their first
  word or a colon behind it, and read to their end; what they say is not looked at.
-/

namespace GrammarTools.Toml

/-- What a value is that is neither quoted nor put together. -/
inductive Scalar where
  /-- A boolean. -/
  | boolean
  /-- An integer or a float. -/
  | number
  /-- A date, a time of the day, or both. -/
  | date
deriving DecidableEq, Repr, Inhabited

/-! ## Digits -/

/-- Groups of characters that are separated by underscores. -/
def groups : List Char → List (List Char)
  | [] => [[]]
  | '_' :: rest => [] :: groups rest
  | c :: rest =>
    match groups rest with
    | [] => [[c]]
    | group :: others => (c :: group) :: others

/-- The digits in front of a text, with underscores only between two of them, and the rest. -/
def digits? (radix : Nat) (cs : List Char) : Option (List Nat × List Char) :=
  let isDigit (c : Char) : Bool := (hexValue? c).any (· < radix)
  let run := cs.takeWhile fun c => isDigit c || c == '_'
  if (groups run).any List.isEmpty then none
  else some ((run.filter isDigit).filterMap hexValue?, cs.drop run.length)

/-- The digits of a decimal number without leading zeros, and the rest. -/
def plainDigits? (cs : List Char) : Option (List Nat × List Char) := do
  let (digits, rest) ← digits? 10 cs
  guard (digits.length = 1 ∨ digits.head? ≠ some 0)
  return (digits, rest)

/-- Whether there is a minus sign in front, and the rest. -/
def splitSign : List Char → Bool × List Char
  | '-' :: rest => (true, rest)
  | cs => (false, cs)

/-- The value of some digits. -/
def valueOf (radix : Nat) (digits : List Nat) : Nat := digits.foldl (fun n d => radix * n + d) 0

/-! ## Integers -/

/-- What the values of all integers are below. -/
def integerBound : Nat := Nat.pow 2 63

/-- Whether a text is a decimal integer in range. -/
def isDecimal (cs : List Char) : Bool :=
  let (isNegative, cs) := splitSign cs
  match plainDigits? cs with
  | some (digits, []) => valueOf 10 digits < integerBound + if isNegative then 1 else 0
  | _ => false

/-- Whether a text holds the digits of an integer in range in some radix. -/
def isUnsigned (radix : Nat) (cs : List Char) : Bool :=
  match digits? radix cs with
  | some (digits, []) => valueOf radix digits < integerBound
  | _ => false

/-! ## Floats -/

/-- What the values of all finite floats of 64 bits are below: halfway between the largest one
    and the next power of two, from where on numbers are rounded to infinity. -/
def floatBound : Nat := Nat.pow 2 1024 - Nat.pow 2 970

/-- Whether `digits * 10 ^ exponent` is finite as a float. -/
def isFinite (digits : List Nat) (exponent : Int) : Bool :=
  let significant := digits.dropWhile (· == 0)
  let size := significant.length + exponent
  if significant.isEmpty || size < 309 then true
  else if 309 < size then false
  else
    let above := Nat.pow 10 exponent.toNat
    let below := Nat.pow 10 (-exponent).toNat
    valueOf 10 significant * above < floatBound * below

/-- The exponent that some digits behind a sign stand for, where `bound` is as good as any
    larger one. -/
def exponentOf (isNegative : Bool) (digits : List Nat) (bound : Nat) : Int :=
  let size := min (valueOf 10 digits) bound
  if isNegative then -size else size

/-- The rest of an exponent behind its letter: digits, which may have a sign. A plus sign is
    a token of its own. -/
def exponent (bound : Nat) (cs : List Char) : Reader Token Int := do
  if cs.isEmpty then
    let _ ← Reader.eat (.sign '+')
    match ← Reader.next with
    | .word cs =>
      match digits? 10 cs with
      | some (digits, []) => return exponentOf false digits bound
      | _ => failure
    | _ => failure
  else
    let (isNegative, cs) := splitSign cs
    match digits? 10 cs with
    | some (digits, []) => return exponentOf isNegative digits bound
    | _ => failure

/-- A float with the given whole part, which may have a sign, and with the given fraction. -/
def float (whole : List Char) (fraction : Option (List Char)) : Reader Token Unit := do
  let (wholeDigits, rest) ← plainDigits? (splitSign whole).2
  let (fractionDigits, rest) ← match fraction with
    | none => pure ([], rest)
    | some fraction => do
      guard rest.isEmpty
      digits? 10 fraction
  let digits := wholeDigits ++ fractionDigits
  let shift ← match rest with
    | [] => pure 0
    | c :: rest => do
      guard (c = 'e' ∨ c = 'E')
      exponent (digits.length + 400) rest
  guard (isFinite digits (shift - fractionDigits.length))

/-- A number that begins with the given word. -/
def number (word : List Char) : Reader Token Unit := do
  match word with
  | '0' :: 'x' :: cs => guard (isUnsigned 16 cs)
  | '0' :: 'o' :: cs => guard (isUnsigned 8 cs)
  | '0' :: 'b' :: cs => guard (isUnsigned 2 cs)
  | _ =>
    if word.contains 'e' || word.contains 'E' then float word none
    else if ← Reader.eat (.sign '.') then
      match ← Reader.next with
      | .word fraction => float word (some fraction)
      | _ => failure
    else guard (["inf", "-inf", "nan", "-nan"].contains (String.ofList word) || isDecimal word)

/-! ## Dates -/

/-- Some word. -/
def anyWord : Reader Token Unit := do
  match ← Reader.next with
  | .word _ => return
  | _ => failure

/-- The hour that follows a date behind a single space, if there is one. -/
def hourBehindSpace : Reader Token Unit := fun input =>
  match input with
  | .blank [' '] :: .word _ :: rest => some ((), rest)
  | _ => some ((), input)

/-- Some word behind a sign, if the sign is there. -/
def wordBehind (c : Char) : Reader Token Unit := do
  if ← Reader.eat (.sign c) then anyWord

/-- The rest of a date behind its first word. -/
def date (hasColon : Bool) : Reader Token Unit := do
  hourBehindSpace
  if hasColon || (← Reader.eat (.sign ':')) then
    anyWord
    Reader.expect (.sign ':')
    anyWord
    wordBehind '.'
    wordBehind '+'
    wordBehind ':'

/-- Whether a word holds an exponent with a minus sign. -/
def hasNegativeExponent (word : List Char) : Bool :=
  (word.zip (word.drop 1)).any fun (c, d) => (c == 'e' || c == 'E') && d == '-'

/-- Whether a word begins a date. -/
def isDateWord (word : List Char) : Bool :=
  word.contains 'T' || word.contains 't' ||
    (word.drop 1).contains '-' && !hasNegativeExponent word

/-! ## All together -/

/-- A boolean, a number or a date that begins with the given word. -/
def scalar (word : List Char) : Reader Token Scalar := do
  let text := String.ofList word
  if text == "true" || text == "false" then return .boolean
  guard (text == "inf" || text == "nan" || word.head?.any fun c => c == '-' || c.isDigit)
  if isDateWord word then
    date false
    return .date
  if ← Reader.eat (.sign ':') then
    date true
    return .date
  number word
  return .number

/-- A number behind a plus sign. -/
def positive : Reader Token Scalar := do
  match ← Reader.next with
  | .word word => do number word; return .number
  | _ => failure

end GrammarTools.Toml
