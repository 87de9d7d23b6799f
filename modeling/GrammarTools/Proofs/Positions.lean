import GrammarTools.Span
import GrammarTools.Proofs.Lexing
import Mathlib.Data.List.DropRight
import Mathlib.Data.Nat.SuccPred
import Mathlib.Data.Prod.Lex
import Mathlib.Order.Interval.Set.Monotone

/-!
# Rows and columns

The point at an offset is found on a walk over the characters of a text, but it can be
read off the bytes in front of the offset alone, in two scans (`Point.behind`): its row
counts the line feeds among them, and its column the bytes behind the last of these. It
is enough to know what one more byte does to a point (`Point.behind_concat`).

Points are in order by rows first, and add up along a text: columns count on as long as
the row is the same. So the points of a source go up with the offsets, each of them
gives back its offset by the place where its row starts, and what stands behind a
boundary has the points that it has as a text of its own, counted from the boundary
(`Point.atOffset_tells_offsets`).
-/

namespace GrammarTools

/-! ## Bytes and rows -/

namespace Text

/-- The byte of a line feed. -/
def lineFeed : UInt8 := 10

/-- The bytes of a text in UTF-8. -/
def bytes (cs : List Char) : List UInt8 := cs.flatMap String.utf8EncodeChar

@[simp] theorem bytes_nil : bytes [] = [] := rfl

@[simp] theorem bytes_cons (c : Char) (cs : List Char) :
    bytes (c :: cs) = String.utf8EncodeChar c ++ bytes cs := rfl

@[simp] theorem bytes_append (cs ds : List Char) : bytes (cs ++ ds) = bytes cs ++ bytes ds :=
  List.flatMap_append

/-- A string is made of the bytes of its characters. -/
theorem bytes_toList (s : String) : bytes s.toList = s.toByteArray.data.toList := by
  have hbytes := String.toByteArray_ofList (l := s.toList)
  rw [String.ofList_toList] at hbytes
  simp [hbytes, bytes, List.utf8Encode]

/-- The bytes of a text are as many as its characters take. -/
@[simp] theorem length_bytes (cs : List Char) : (bytes cs).length = byteLength cs := by
  induction cs with
  | nil => rfl
  | cons c cs ih =>
    rw [bytes_cons, List.length_append, String.length_utf8EncodeChar, ih, byteLength_cons]

theorem utf8EncodeChar_lineFeed : String.utf8EncodeChar '\n' = [lineFeed] := by decide

/-- All bytes of a character beyond ASCII have the highest bit. -/
theorem le_of_mem_utf8EncodeChar {c : Char} (h : 127 < c.toNat) :
    ∀ b ∈ String.utf8EncodeChar c, 128 ≤ b.toNat := by
  have hval : ¬c.val.toNat ≤ 127 := Nat.not_le.2 h
  simp only [String.utf8EncodeChar, if_neg hval]
  split_ifs <;> simp only [List.forall_mem_cons, UInt8.toNat_ofNat', List.not_mem_nil,
    false_imp_iff, implies_true, and_true] <;> omega

/-- No other character holds the byte of a line feed. -/
theorem eq_of_lineFeed_mem {c : Char} (h : lineFeed ∈ String.utf8EncodeChar c) : c = '\n' := by
  by_cases hascii : c.val.toNat ≤ 127
  · simp only [String.utf8EncodeChar, if_pos hascii, List.mem_singleton] at h
    have hvalue := congrArg UInt8.toNat h
    rw [UInt8.toNat_ofNat_of_lt' (Nat.lt_of_le_of_lt hascii (by decide))] at hvalue
    exact Char.toNat_inj.1 hvalue.symm
  · exact absurd (le_of_mem_utf8EncodeChar (Nat.lt_of_not_le hascii) _ h) (by decide)

/-- Where the rows start: the first one at the start of the bytes, and each other one behind a
    line feed. -/
def rowStarts (bs : List UInt8) : List Nat := 0 :: (bs.idxsOf lineFeed).map (· + 1)

/-- There is one row more than there are line feeds. -/
@[simp] theorem length_rowStarts (bs : List UInt8) :
    (rowStarts bs).length = bs.count lineFeed + 1 := by
  simp [rowStarts]

/-- Behind a text, the rows of another one start later. -/
theorem rowStarts_append (bs cs : List UInt8) :
    rowStarts (bs ++ cs) = rowStarts bs ++ (cs.idxsOf lineFeed bs.length).map (· + 1) := by
  simp [rowStarts]

end Text

open Text (lineFeed)

namespace Point

variable {p q : Point} {bs : List UInt8} {offset : Nat}

/-! ## The order of points, and their sum -/

/-- Points are in order by their rows, and in a row by their columns. -/
instance : LinearOrder Point :=
  LinearOrder.lift' (fun p => toLex (p.row, p.column)) fun p q h => by
    cases p
    cases q
    simpa using h

/-- Points are compared by rows, and in one row by columns. -/
theorem lt_iff : p < q ↔ p.row < q.row ∨ p.row = q.row ∧ p.column < q.column :=
  Prod.Lex.toLex_lt_toLex

/-- Where the point `q` of a text comes to lie when the text starts at `p`. -/
instance : Add Point where
  add p q := ⟨p.row + q.row, if q.row = 0 then p.column + q.column else q.column⟩

/-- In the row where the second text begins, its columns are counted on. -/
theorem add_def (p q : Point) :
    p + q = ⟨p.row + q.row, if q.row = 0 then p.column + q.column else q.column⟩ := rfl

@[simp] theorem add_start (p : Point) : p + ⟨0, 0⟩ = p := by simp [add_def]

protected theorem add_assoc (p q r : Point) : p + q + r = p + (q + r) := by
  simp only [add_def, mk.injEq]
  refine ⟨Nat.add_assoc .., ?_⟩
  split_ifs <;> omega

/-! ## Points by their bytes -/

/-- The point behind some bytes, by a count of the line feeds among them and a search for the last
    of these. -/
def behind (bs : List UInt8) : Point := ⟨bs.count lineFeed, (bs.rtakeWhile (· != lineFeed)).length⟩

@[simp] theorem behind_nil : behind [] = ⟨0, 0⟩ := rfl

/-- What one more byte does to a point. -/
theorem behind_concat (bs : List UInt8) (b : UInt8) : behind (bs ++ [b]) =
    if b = lineFeed then ⟨(behind bs).row + 1, 0⟩
    else ⟨(behind bs).row, (behind bs).column + 1⟩ := by
  split_ifs with hb <;> simp [behind, hb]

/-- Behind two texts in a row stands the sum of what stands behind each of them. -/
theorem behind_append (bs cs : List UInt8) : behind (bs ++ cs) = behind bs + behind cs := by
  induction cs using List.reverseRecOn with
  | nil => simp
  | append_singleton cs b ih =>
    have hstep (as : List UInt8) : behind (as ++ [b]) = behind as + behind [b] := by
      rw [behind_concat, ← List.nil_append [b], behind_concat]
      split_ifs <;> rfl
    rw [← List.append_assoc, hstep, ih, Point.add_assoc, hstep cs]

/-- Bytes without a line feed lead along a row. -/
theorem behind_of_not_mem (h : lineFeed ∉ bs) : behind bs = ⟨0, bs.length⟩ := by
  have hrow : bs.rtakeWhile (· != lineFeed) = bs :=
    List.rtakeWhile_eq_self_iff.2 fun b hb => bne_iff_ne.2 fun heq => h (heq ▸ hb)
  rw [behind, hrow, List.count_eq_zero_of_not_mem h]

/-- The walk over a text ends behind the bytes that it has passed. -/
theorem advance_eq (p : Point) (n : Nat) (cs : List Char) :
    advance p n cs = p + behind ((Text.bytes cs).take n) := by
  fun_induction advance p n cs with
  | case1 => simp
  | case2 => simp
  | case3 p n cs hn ih =>
    -- A line feed is a byte of its own, so no offset lies inside it.
    have hbytes : (Text.bytes ('\n' :: cs)).take n =
        [lineFeed] ++ (Text.bytes cs).take (n - 1) := by
      rw [Text.bytes_cons, Text.utf8EncodeChar_lineFeed, List.take_append,
        List.take_of_length_le (Nat.one_le_iff_ne_zero.2 hn), List.length_singleton]
    have hstep : p + behind [lineFeed] = ⟨p.row + 1, 0⟩ := rfl
    rw [ih, hbytes, behind_append, ← Point.add_assoc, hstep]
  | case4 p n c cs hn hc ih =>
    -- The bytes of another character lead along the row, also if not all of them are passed.
    have hbytes : (Text.bytes (c :: cs)).take n =
        (String.utf8EncodeChar c).take n ++ (Text.bytes cs).take (n - c.utf8Size) := by
      rw [Text.bytes_cons, List.take_append, String.length_utf8EncodeChar]
    have hrow : lineFeed ∉ (String.utf8EncodeChar c).take n := fun h =>
      hc (Text.eq_of_lineFeed_mem (List.mem_of_mem_take h))
    have hstep : p + behind ((String.utf8EncodeChar c).take n) =
        ⟨p.row, p.column + min n c.utf8Size⟩ := by
      rw [behind_of_not_mem hrow, List.length_take, String.length_utf8EncodeChar]
      rfl
    rw [ih, hbytes, behind_append, ← Point.add_assoc, hstep]

/-- The point at an offset is the one behind the bytes in front of the offset. -/
theorem atOffset_eq (source : String) (offset : Nat) :
    atOffset source offset = behind ((Text.bytes source.toList).take offset) := by
  rw [atOffset, advance_eq]
  simp [add_def]

/-! ## Points and offsets -/

/-- One more byte moves on. -/
theorem behind_lt_concat (bs : List UInt8) (b : UInt8) : behind bs < behind (bs ++ [b]) := by
  rw [behind_concat, lt_iff]
  split_ifs
  · exact .inl (Nat.lt_succ_self _)
  · exact .inr ⟨rfl, Nat.lt_succ_self _⟩

/-- Within a text, later offsets have later points. -/
theorem strictMonoOn_behind_take (bs : List UInt8) :
    StrictMonoOn (fun n => behind (bs.take n)) (Set.Iic bs.length) := by
  refine strictMonoOn_Iic_of_lt_succ fun n hn => ?_
  have hstep : bs.take (n + 1) = bs.take n ++ [bs[n]] := List.take_succ_eq_append_getElem hn
  simp only [Order.succ_eq_add_one, hstep]
  exact behind_lt_concat _ _

/-- Whether a point tells where an offset lies in some bytes: how far behind the start of a row,
    without a line feed in between. -/
structure Tells (p : Point) (bs : List UInt8) (offset : Nat) : Prop where
  /-- The offset is not in front of the row. -/
  column_le : p.column ≤ offset
  /-- The row starts where the column says. -/
  rowStart : (Text.rowStarts bs)[p.row]? = some (offset - p.column)
  /-- The row goes on up to the offset. -/
  unbroken : lineFeed ∉ (bs.take offset).drop (offset - p.column)

/-- The point behind some bytes tells where they end. -/
theorem behind_tells (bs : List UInt8) : (behind bs).Tells bs bs.length := by
  induction bs using List.reverseRecOn with
  | nil => exact ⟨Nat.le_refl _, rfl, by simp⟩
  | append_singleton bs b ih =>
    rw [behind_concat, List.length_append, List.length_singleton]
    split_ifs with hb
    · -- A line feed starts a row, and the point moves on to it.
      have hlength : (Text.rowStarts bs).length = (behind bs).row + 1 := Text.length_rowStarts bs
      refine ⟨Nat.zero_le _, ?_, by simp⟩
      rw [Text.rowStarts_append, List.getElem?_append_right (Nat.le_of_eq hlength), hlength]
      simp [hb]
    · -- The row stays the same, and so does its start.
      have hstarts : Text.rowStarts (bs ++ [b]) = Text.rowStarts bs := by
        simp [Text.rowStarts_append, hb]
      have hunbroken := ih.unbroken
      rw [List.take_length] at hunbroken
      refine ⟨Nat.succ_le_succ ih.column_le, ?_, ?_⟩
      · rw [hstarts, Nat.add_sub_add_right]
        exact ih.rowStart
      · rw [Nat.add_sub_add_right, List.take_of_length_le (by simp),
          List.drop_append_of_le_length (Nat.sub_le _ _)]
        simp [hunbroken, Ne.symm hb]

/-- Bytes that follow do not change where an offset lies. -/
theorem Tells.append (h : p.Tells bs offset) (hle : offset ≤ bs.length) (cs : List UInt8) :
    p.Tells (bs ++ cs) offset := by
  have hrow := (List.getElem?_eq_some_iff.1 h.rowStart).1
  refine ⟨h.column_le, ?_, ?_⟩
  · rw [Text.rowStarts_append, List.getElem?_append_left hrow]
    exact h.rowStart
  · rw [List.take_append_of_le_length hle]
    exact h.unbroken

/-- The point behind a front of some bytes tells where the front ends. -/
theorem behind_take_tells (h : offset ≤ bs.length) :
    (behind (bs.take offset)).Tells bs offset := by
  have hlength : (bs.take offset).length = offset := List.length_take_of_le h
  have htells := (behind_tells (bs.take offset)).append (Nat.le_refl _) (bs.drop offset)
  rwa [List.take_append_drop, hlength] at htells

/-- What stands behind a boundary has the points of a text of its own, counted from there. -/
theorem atOffset_add {source : String} {front : Nat} (h : Text.IsBoundary source.toList front)
    (offset : Nat) : atOffset source (front + offset) = atOffset source front +
      atOffset (String.ofList (Text.splitBytes front source.toList).2) offset := by
  obtain ⟨before, after, hsource, rfl⟩ := h
  have hsplit : Text.splitBytes (Text.byteLength before) source.toList = (before, after) := by
    rw [hsource, Text.splitBytes, Text.splitBytesFrom_byteLength, List.reverse_nil, List.nil_append]
  have htake (n : Nat) : (Text.bytes source.toList).take (Text.byteLength before + n) =
      Text.bytes before ++ (Text.bytes after).take n := by
    rw [hsource, Text.bytes_append, ← Text.length_bytes, List.take_length_add_append]
  have hfront := htake 0
  rw [Nat.add_zero, List.take_zero, List.append_nil] at hfront
  rw [hsplit, atOffset_eq, atOffset_eq, atOffset_eq, String.toList_ofList, htake, hfront,
    behind_append]

/-- The points of a source go up with its offsets as far as the source goes, and stay the same
    from there on. Each of them tells its offset. From a boundary on, they are those of the rest
    of the source, counted from the point of the boundary. -/
theorem atOffset_tells_offsets (source : String) :
    StrictMonoOn (atOffset source) (Set.Iic (Text.byteLength source.toList)) ∧
    Set.InjOn (atOffset source) (Set.Iic (Text.byteLength source.toList)) ∧
    (∀ offset, Text.byteLength source.toList ≤ offset →
      atOffset source offset = atOffset source (Text.byteLength source.toList)) ∧
    (∀ offset ≤ Text.byteLength source.toList,
      (atOffset source offset).Tells (Text.bytes source.toList) offset) ∧
    ∀ front offset, Text.IsBoundary source.toList front →
      atOffset source (front + offset) = atOffset source front +
        atOffset (String.ofList (Text.splitBytes front source.toList).2) offset := by
  have hmono : StrictMonoOn (atOffset source) (Set.Iic (Text.byteLength source.toList)) := by
    rw [funext (atOffset_eq source), ← Text.length_bytes]
    exact strictMonoOn_behind_take _
  refine ⟨hmono, hmono.injOn, fun offset h => ?_, fun offset h => ?_, fun front offset h => ?_⟩
  · rw [← Text.length_bytes] at h ⊢
    rw [atOffset_eq, atOffset_eq, List.take_of_length_le h, List.take_length]
  · rw [← Text.length_bytes] at h
    rw [atOffset_eq]
    exact behind_take_tells h
  · exact atOffset_add h offset

/-- Offsets inside a character of two bytes, behind it and in the row below. -/
theorem atOffset_tells_offsets_accent :
    atOffset "é\nab" 1 < atOffset "é\nab" 2 ∧ atOffset "é\nab" 9 = ⟨1, 2⟩ ∧
    (⟨1, 1⟩ : Point).Tells (Text.bytes "é\nab".toList) 4 ∧
    Text.IsBoundary "é\nab".toList 2 ∧
    atOffset "é\nab" (2 + 2) = atOffset "é\nab" 2 + atOffset "\nab" 2 := by
  obtain ⟨hmono, -, hbeyond, htells, hadd⟩ := atOffset_tells_offsets "é\nab"
  have hlength : Text.byteLength "é\nab".toList = 5 := by decide
  have hboundary : Text.IsBoundary "é\nab".toList 2 :=
    ⟨['é'], ['\n', 'a', 'b'], by decide, by decide⟩
  rw [hlength] at hmono hbeyond htells
  exact ⟨hmono (by decide) (by decide) (by decide), hbeyond 9 (by decide), htells 4 (by decide),
    hboundary, hadd 2 2 hboundary⟩

end Point

end GrammarTools
