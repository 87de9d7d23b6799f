import GrammarTools.Text.Bytes

/-!
# Spans and points

A *span* is a stretch of a source text, given by the offset of its first byte
and the offset just past its last byte. All offsets count UTF-8 bytes. A span
whose end lies before its start covers nothing, just as an empty one does.

A *point* is a position in a source text as a person counts it: a row and a
byte column, both from zero. It is written from one, as `row:column`.
-/

namespace GrammarTools

/-! ## Spans -/

/-- A stretch of a source text, in bytes. -/
structure Span where
  /-- The offset of the first byte. -/
  start : Nat
  /-- The offset just past the last byte. -/
  stop : Nat
deriving DecidableEq, Repr, Inhabited

namespace Span

/-- The span at `offset` that covers nothing. -/
def empty (offset : Nat) : Span := ⟨offset, offset⟩

/-- The smallest span that covers both. -/
def merge (a b : Span) : Span := ⟨min a.start b.start, max a.stop b.stop⟩

/-- The number of bytes covered. -/
def length (s : Span) : Nat := s.stop - s.start

/-- Whether no byte is covered. -/
def isEmpty (s : Span) : Bool := s.length == 0

/-- The same stretch of a text that has `offset` more bytes in front. -/
def shift (s : Span) (offset : Nat) : Span := ⟨s.start + offset, s.stop + offset⟩

theorem merge_comm (a b : Span) : a.merge b = b.merge a := by
  simp [merge, Nat.min_comm, Nat.max_comm]

theorem merge_assoc (a b c : Span) : (a.merge b).merge c = a.merge (b.merge c) := by
  simp [merge, Nat.min_assoc, Nat.max_assoc]

@[simp] theorem merge_self (a : Span) : a.merge a = a := by simp [merge]

end Span

/-! ## Points -/

/-- A row and a byte column. -/
structure Point where
  /-- The number of line feeds in front. -/
  row : Nat
  /-- The number of bytes since the last of them. -/
  column : Nat
deriving DecidableEq, Repr, Inhabited

namespace Point

/-- The point reached from `p` over the first `bytes` bytes of a text. An offset
    inside a character counts the bytes of it that lie in front. -/
def advance (p : Point) (bytes : Nat) : List Char → Point
  | [] => p
  | c :: cs =>
    if bytes = 0 then p
    else if c = '\n' then advance ⟨p.row + 1, 0⟩ (bytes - 1) cs
    else advance ⟨p.row, p.column + min bytes c.utf8Size⟩ (bytes - c.utf8Size) cs

/-- The point at a byte offset; the end of the text for any offset past it. -/
def atOffset (source : String) (offset : Nat) : Point :=
  advance ⟨0, 0⟩ offset source.toList

/-- The written form, which counts from one. -/
def display (p : Point) : String := s!"{p.row + 1}:{p.column + 1}"

end Point

end GrammarTools
