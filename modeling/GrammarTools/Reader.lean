/-!
# Readers

A *reader* takes elements off the front of a list and yields what it has read,
or else refuses the list. Readers are put together in order by `do`.

* `iterate` goes through rounds with a state until a round is the last one.
* `unfold` collects what the rounds yield until one yields nothing.
* `separated` reads items for as long as something between announces another.

Every round but the last takes at least one element, so there are no more
rounds than elements and one.
-/

namespace GrammarTools

/-- What reads the front of a list. -/
abbrev Reader (ε : Type) := StateT (List ε) Option

namespace Reader

variable {ε α β σ : Type}

/-- The next element, which is left where it is. -/
def peek : Reader ε (Option ε) := fun input => some (input.head?, input)

/-- The next element, if there is one. -/
def next? : Reader ε (Option ε) := fun input => some (input.head?, input.tail)

/-- The next element. -/
def next : Reader ε ε
  | [] => none
  | e :: rest => some (e, rest)

/-- Whether the next element is the given one, which is then taken. -/
def eat [DecidableEq ε] (e : ε) : Reader ε Bool
  | [] => some (false, [])
  | d :: rest => if d = e then some (true, rest) else some (false, d :: rest)

/-- The given element. -/
def expect [DecidableEq ε] (e : ε) : Reader ε Unit := do guard (← eat e)

/-- The elements up to the first that does not fit. -/
def takeWhile (fits : ε → Bool) : Reader ε (List ε) := fun input =>
  some (input.takeWhile fits, input.dropWhile fits)

/-- At most `n` elements up to the first that does not fit. -/
def takeUpTo (n : Nat) (fits : ε → Bool) : Reader ε (List ε) := fun input =>
  let taken := (input.take n).takeWhile fits
  some (taken, input.drop taken.length)

/-- At most the given number of rounds. -/
def iterateWithin (round : σ → Reader ε (σ ⊕ β)) : Nat → σ → Reader ε β
  | 0, _ => failure
  | n + 1, state => do
    match ← round state with
    | .inl state => iterateWithin round n state
    | .inr result => return result

/-- Rounds up to the one that has the result. -/
def iterate (round : σ → Reader ε (σ ⊕ β)) (state : σ) : Reader ε β := fun input =>
  iterateWithin round (input.length + 1) state input

/-- What the rounds yield up to the one that yields nothing. -/
def unfold (round : Reader ε (Option α)) : Reader ε (List α) :=
  iterate (fun found => do
    match ← round with
    | some a => return .inl (a :: found)
    | none => return .inr found.reverse) []

/-- One or more items, as many as `more` announces. -/
def separated (item : Reader ε α) (more : Reader ε Bool) : Reader ε (List α) := do
  let first ← item
  let others ← unfold do if ← more then some <$> item else return none
  return first :: others

/-- What a reader yields if it takes the whole list. -/
def readAll (reader : Reader ε α) (input : List ε) : Option α :=
  match reader input with
  | some (a, []) => some a
  | _ => none

end Reader

end GrammarTools
