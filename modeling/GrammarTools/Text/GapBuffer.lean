import GrammarTools.Text.Bytes

/-!
# Gap buffers

A text with a place in it where text can be put in. Moving the place takes the
characters in between across, so that many insertions at places close to each
other need not go through the whole text.

* Moving keeps the text (`toList_moveTo`) and cuts it as `splitBytes` does
  (`split_moveTo`).
* What is put in stands between the parts (`toList_insert`).
-/

namespace GrammarTools.Text

@[simp] theorem byteLength_reverse (cs : List Char) : byteLength cs.reverse = byteLength cs := by
  induction cs with
  | nil => rfl
  | cons c cs ih => simp [ih, Nat.add_comm]

/-- A text with a place in it. -/
structure GapBuffer where
  /-- The characters in front of the place, the nearest first. -/
  before : List Char
  /-- The characters behind the place. -/
  after : List Char
  /-- The byte offset of the place. -/
  offset : Nat
  /-- It counts the bytes in front. -/
  offset_eq : offset = byteLength before

namespace GapBuffer

/-- A text with the place at its start. -/
def ofList (cs : List Char) : GapBuffer := ⟨[], cs, 0, rfl⟩

/-- The whole text. -/
def toList (b : GapBuffer) : List Char := b.before.reverse ++ b.after

/-- The place moved towards the start until it is not behind `target`. -/
def backFrom (target : Nat) (after : List Char) :
    (before : List Char) → (offset : Nat) → offset = byteLength before → GapBuffer
  | [], offset, h => ⟨[], after, offset, h⟩
  | c :: before, offset, h =>
    if target < offset then
      backFrom target (c :: after) before (offset - c.utf8Size) (by rw [h, byteLength_cons]; omega)
    else ⟨c :: before, after, offset, h⟩

/-- The place moved towards the end for as long as it stays in front of `target`. -/
def forwardFrom (target : Nat) (before : List Char) (offset : Nat)
    (h : offset = byteLength before) : List Char → GapBuffer
  | [] => ⟨before, [], offset, h⟩
  | c :: after =>
    if offset + c.utf8Size ≤ target then
      forwardFrom target (c :: before) (offset + c.utf8Size)
        (by rw [h, byteLength_cons, Nat.add_comm]) after
    else ⟨before, c :: after, offset, h⟩

/-- The place moved to a byte offset, or else in front of the character that it lies in. -/
def moveTo (b : GapBuffer) (target : Nat) : GapBuffer :=
  let b := backFrom target b.after b.before b.offset b.offset_eq
  forwardFrom target b.before b.offset b.offset_eq b.after

/-- A text put in at the place, which is behind it afterwards. -/
def insert (b : GapBuffer) (cs : List Char) : GapBuffer :=
  ⟨cs.reverse ++ b.before, b.after, byteLength cs + b.offset, by simp [b.offset_eq]⟩

/-! ## What moving does -/

@[simp] theorem toList_ofList (cs : List Char) : (ofList cs).toList = cs := rfl

theorem toList_backFrom (target : Nat) (after before : List Char) (offset : Nat)
    (h : offset = byteLength before) :
    (backFrom target after before offset h).toList = before.reverse ++ after := by
  induction before generalizing after offset with
  | nil => rfl
  | cons c before ih =>
    unfold backFrom
    split
    · rw [ih]; simp
    · rfl

theorem offset_backFrom_le (target : Nat) (after before : List Char) (offset : Nat)
    (h : offset = byteLength before) : (backFrom target after before offset h).offset ≤ target := by
  induction before generalizing after offset with
  | nil => simp [backFrom, h]
  | cons c before ih =>
    unfold backFrom
    split
    · exact ih ..
    · simp only; omega

theorem split_forwardFrom (target : Nat) (before : List Char) (offset : Nat)
    (h : offset = byteLength before) (after : List Char) (hle : offset ≤ target) :
    ((forwardFrom target before offset h after).before.reverse,
      (forwardFrom target before offset h after).after) =
        splitBytesFrom before (target - offset) after := by
  induction after generalizing before offset with
  | nil => rfl
  | cons c after ih =>
    unfold forwardFrom splitBytesFrom
    by_cases hc : offset + c.utf8Size ≤ target
    · rw [if_pos hc, if_pos (by omega), ih _ _ _ hc, Nat.sub_sub]
    · rw [if_neg hc, if_neg (by omega)]

theorem splitBytesFrom_append_left (front before cs : List Char) (n : Nat)
    (h : byteLength before ≤ n) :
    splitBytesFrom front n (before ++ cs) =
      splitBytesFrom (before.reverse ++ front) (n - byteLength before) cs := by
  induction before generalizing front n with
  | nil => rfl
  | cons c before ih =>
    rw [byteLength_cons] at h
    rw [List.cons_append, splitBytesFrom, if_pos (by omega), ih _ _ (by omega)]
    simp [Nat.sub_sub]

/-- Moving cuts the text at the target. -/
theorem split_moveTo (b : GapBuffer) (target : Nat) :
    ((b.moveTo target).before.reverse, (b.moveTo target).after) = splitBytes target b.toList := by
  have hlist := toList_backFrom target b.after b.before b.offset b.offset_eq
  have hle := offset_backFrom_le target b.after b.before b.offset b.offset_eq
  unfold moveTo toList
  generalize backFrom target b.after b.before b.offset b.offset_eq = back at hlist hle
  rw [← hlist, split_forwardFrom _ _ _ _ _ hle, splitBytes, toList,
    splitBytesFrom_append_left [] _ _ _ (by simpa [← back.offset_eq] using hle)]
  simp [back.offset_eq]

/-- Moving keeps the text. -/
theorem toList_moveTo (b : GapBuffer) (target : Nat) : (b.moveTo target).toList = b.toList := by
  calc (b.moveTo target).toList
      = (splitBytes target b.toList).1 ++ (splitBytes target b.toList).2 := by
        rw [← split_moveTo b target]; rfl
    _ = b.toList := splitBytes_append ..

/-- What is put in stands between the two parts of the text. -/
theorem toList_insert (b : GapBuffer) (target : Nat) (cs : List Char) :
    ((b.moveTo target).insert cs).toList =
      (splitBytes target b.toList).1 ++ cs ++ (splitBytes target b.toList).2 := by
  rw [← split_moveTo b target]
  simp [insert, toList]

end GapBuffer

end GrammarTools.Text
