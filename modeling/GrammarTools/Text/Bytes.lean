/-!
# Texts measured in bytes

A text is a list of characters, but offsets into it count the bytes of its
UTF-8 encoding. `splitBytes n` cuts a text at byte offset `n`; an offset inside
a character cuts in front of that character.
-/

namespace GrammarTools.Text

/-- The number of bytes of a text. -/
def byteLength (cs : List Char) : Nat := cs.foldr (fun c n => c.utf8Size + n) 0

@[simp] theorem byteLength_nil : byteLength [] = 0 := rfl

@[simp] theorem byteLength_cons (c : Char) (cs : List Char) :
    byteLength (c :: cs) = c.utf8Size + byteLength cs := rfl

@[simp] theorem byteLength_append (cs ds : List Char) :
    byteLength (cs ++ ds) = byteLength cs + byteLength ds := by
  induction cs with
  | nil => simp
  | cons c cs ih => simp [ih, Nat.add_assoc]

/-- The text cut at a byte offset, with the first part so far in reverse. -/
def splitBytesFrom (before : List Char) : Nat → List Char → List Char × List Char
  | _, [] => (before.reverse, [])
  | n, c :: cs =>
    if c.utf8Size ≤ n then splitBytesFrom (c :: before) (n - c.utf8Size) cs
    else (before.reverse, c :: cs)

/-- The characters that lie within the first `n` bytes, and the rest. -/
def splitBytes (n : Nat) (cs : List Char) : List Char × List Char := splitBytesFrom [] n cs

/-- The characters from byte offset `start` to byte offset `stop`. -/
def slice (start stop : Nat) (cs : List Char) : List Char :=
  (splitBytes (stop - start) (splitBytes start cs).2).1

theorem splitBytesFrom_append (before : List Char) (n : Nat) (cs : List Char) :
    (splitBytesFrom before n cs).1 ++ (splitBytesFrom before n cs).2 = before.reverse ++ cs := by
  induction cs generalizing before n with
  | nil => simp [splitBytesFrom]
  | cons c cs ih =>
    unfold splitBytesFrom
    split
    · rw [ih]; simp
    · rfl

/-- Cutting loses nothing. -/
theorem splitBytes_append (n : Nat) (cs : List Char) :
    (splitBytes n cs).1 ++ (splitBytes n cs).2 = cs := by
  simpa [splitBytes] using splitBytesFrom_append [] n cs

end GrammarTools.Text
