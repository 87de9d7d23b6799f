import GrammarTools.Highlight
import Mathlib.Data.List.Basic

/-!
# Dotted names

A capture that means nothing by itself falls back to the name in front of its last dot
(`TokenType.FallsBackTo`), and has then one dot less, so there are no more fallbacks
than dots. One fallback keeps all that matters: the names that stand at the front of a
capture up to a dot stand at the front of what it falls back to
(`TokenType.FallsBackTo.isDottedFront_iff`). So the name that is found in the end is the
longest one that stands at the front of the capture, up to its end or to a dot
(`TokenType.ofCapture?_longest`).
-/

namespace GrammarTools

/-! ## Fronts of dotted names -/

namespace Text

variable {front cs part : List Char}

/-- Whether a text stands at the front of another one, up to its end or to a dot. -/
def IsDottedFront (front cs : List Char) : Prop := front = cs ∨ front ++ ['.'] <+: cs

theorem IsDottedFront.isPrefix (h : IsDottedFront front cs) : front <+: cs := by
  rcases h with rfl | h
  · exact List.prefix_refl _
  · exact (List.prefix_append _ _).trans h

/-- What stands at the front of a text up to a dot does not reach behind the last one. -/
theorem isDottedFront_append_dot (h : '.' ∉ part) :
    IsDottedFront front (cs ++ '.' :: part) ↔
      front = cs ++ '.' :: part ∨ IsDottedFront front cs := by
  refine or_congr_right ⟨?_, ?_⟩
  · rintro ⟨rest, happend⟩
    rw [List.append_assoc, List.singleton_append] at happend
    rcases List.append_eq_append_iff.1 happend with ⟨between, rfl, hrest⟩ | ⟨beyond, rfl, hpart⟩
    · rcases List.cons_eq_append_iff.1 hrest with ⟨rfl, -⟩ | ⟨between, rfl, -⟩
      · exact .inl (List.append_nil _).symm
      · exact .inr ⟨between, by simp⟩
    · rcases List.cons_eq_append_iff.1 hpart with ⟨rfl, -⟩ | ⟨beyond, rfl, rfl⟩
      · exact .inl (List.append_nil _)
      · exact absurd (by simp) h
  · rintro (rfl | hfront)
    · exact ⟨part, by simp⟩
    · exact hfront.trans (List.prefix_append _ _)

end Text

open Text (IsDottedFront)

namespace TokenType

variable {reversed name parent last : List Char} {t u : TokenType}

theorem mem_all (t : TokenType) : t ∈ all := by cases t <;> decide

/-- No two token types have the same name. -/
theorem captureName_inj (h : t.captureName = u.captureName) : t = u :=
  Option.some_inj.1 ((named?_eq_some_iff.2 h).symm.trans (named?_eq_some_iff.2 rfl))

/-- A name that is not known belongs to no token type. -/
theorem captureName_ne (h : named? (String.ofList name) = none) (t : TokenType) :
    t.captureName.toList ≠ name := by
  rintro rfl
  rw [String.ofList_toList, named?_eq_some_iff.2 rfl] at h
  cases h

/-! ## Fallbacks -/

/-- Whether a name means nothing by itself, and is taken for the one in front of its last dot. -/
def FallsBackTo (name parent : List Char) : Prop :=
  named? (String.ofList name) = none ∧ ∃ part, '.' ∉ part ∧ name = parent ++ '.' :: part

/-- Each fallback takes one dot away. -/
theorem FallsBackTo.count (h : FallsBackTo name parent) :
    name.count '.' = parent.count '.' + 1 := by
  obtain ⟨-, part, hpart, rfl⟩ := h
  simp [List.count_eq_zero_of_not_mem hpart]

/-- A fallback keeps the names that stand at the front. -/
theorem FallsBackTo.isDottedFront_iff (h : FallsBackTo name parent) (t : TokenType) :
    IsDottedFront t.captureName.toList name ↔ IsDottedFront t.captureName.toList parent := by
  obtain ⟨hnamed, part, hpart, rfl⟩ := h
  rw [Text.isDottedFront_append_dot hpart, or_iff_right (captureName_ne hnamed t)]

/-- Whether a number of fallbacks leads from a name to another one, from which there is none. -/
inductive EndsIn : List Char → Nat → List Char → Prop
  | stop {name : List Char} : (∀ parent, ¬FallsBackTo name parent) → EndsIn name 0 name
  | step {name parent last : List Char} {n : Nat} :
    FallsBackTo name parent → EndsIn parent n last → EndsIn name (n + 1) last

theorem EndsIn.le_count {n : Nat} (h : EndsIn name n last) : n ≤ name.count '.' := by
  induction h with
  | stop => exact Nat.zero_le _
  | step hfalls _ ih =>
    rw [hfalls.count]
    exact Nat.succ_le_succ ih

/-- Where there is a dot, a last part can be left out. -/
theorem exists_part (h : reversed.contains '.' = true) :
    ∃ part, '.' ∉ part ∧ reversed.reverse = (withoutLastPart reversed).reverse ++ '.' :: part := by
  obtain ⟨part, rest, rfl, hpart⟩ := List.eq_append_cons_of_mem (List.contains_iff_mem.1 h)
  have hwithout : withoutLastPart (part ++ '.' :: rest) = rest := by
    have hkept : ∀ c ∈ part, (c != '.') = true := fun c hc =>
      bne_iff_ne.2 fun heq => hpart (heq ▸ hc)
    rw [withoutLastPart, List.dropWhile_append_of_pos hkept]
    rfl
  exact ⟨part.reverse, by simpa using hpart, by simp [hwithout]⟩

/-- The fallbacks from a name come to an end, and the name means what the last one means by
    itself. -/
theorem exists_endsIn (reversed : List Char) : ∃ n last, EndsIn reversed.reverse n last ∧
    ofReversed? reversed = named? (String.ofList last) := by
  rw [ofReversed?]
  split
  case h_1 t hnamed =>
    refine ⟨0, _, .stop fun parent hfalls => ?_, hnamed.symm⟩
    cases hnamed.symm.trans hfalls.1
  case h_2 hnamed =>
    split
    case isTrue hdot =>
      have hshorter := length_withoutLastPart_lt hdot
      obtain ⟨n, last, hends, hlast⟩ := exists_endsIn (withoutLastPart reversed)
      exact ⟨n + 1, last, .step ⟨hnamed, exists_part hdot⟩ hends, hlast⟩
    case isFalse hdot =>
      refine ⟨0, _, .stop ?_, hnamed.symm⟩
      rintro parent ⟨-, part, -, hname⟩
      have hmem : '.' ∈ reversed.reverse := by simp [hname]
      exact hdot (List.contains_iff_mem.2 (List.mem_reverse.1 hmem))
termination_by reversed.length

/-! ## The meaning of a capture -/

/-- Whether the name of a type is the longest of all names that stand at the front of a capture. -/
structure IsLongestFront (t : TokenType) (capture : List Char) : Prop where
  /-- It stands there. -/
  isFront : IsDottedFront t.captureName.toList capture
  /-- No longer one does. -/
  longest : ∀ u ∈ all, IsDottedFront u.captureName.toList capture →
    u.captureName.length ≤ t.captureName.length

/-- Only one token type is the longest front. -/
theorem IsLongestFront.unique (ht : t.IsLongestFront name) (hu : u.IsLongestFront name) :
    t = u := by
  have hlength : t.captureName.length = u.captureName.length :=
    Nat.le_antisymm (hu.longest t (mem_all t) ht.isFront) (ht.longest u (mem_all u) hu.isFront)
  rw [← String.length_toList, ← String.length_toList] at hlength
  have hfronts := List.prefix_of_prefix_length_le ht.isFront.isPrefix hu.isFront.isPrefix
    (Nat.le_of_eq hlength)
  exact captureName_inj (String.toList_inj.1 (hfronts.eq_of_length hlength))

/-- What a name should mean: the type whose name is the longest one at its front, if there is one
    there. -/
def IsMeaning (name : List Char) : Option TokenType → Prop
  | some t => t.IsLongestFront name
  | none => ∀ t ∈ all, ¬IsDottedFront t.captureName.toList name

/-- A name has one meaning. -/
theorem IsMeaning.unique {meaning other : Option TokenType} (h : IsMeaning name meaning)
    (hother : IsMeaning name other) : meaning = other := by
  cases meaning with
  | none =>
    cases other with
    | none => rfl
    | some u => exact absurd hother.isFront (h u (mem_all u))
  | some t =>
    cases other with
    | none => exact absurd h.isFront (hother t (mem_all t))
    | some u => rw [IsLongestFront.unique h hother]

/-- A fallback keeps what a name should mean. -/
theorem FallsBackTo.isMeaning_iff (h : FallsBackTo name parent) (meaning : Option TokenType) :
    IsMeaning name meaning ↔ IsMeaning parent meaning := by
  cases meaning with
  | none => simp only [IsMeaning, h.isDottedFront_iff]
  | some t =>
    constructor
    · exact fun ht => ⟨(h.isDottedFront_iff t).1 ht.isFront, fun u hu hfront =>
        ht.longest u hu ((h.isDottedFront_iff u).2 hfront)⟩
    · exact fun ht => ⟨(h.isDottedFront_iff t).2 ht.isFront, fun u hu hfront =>
        ht.longest u hu ((h.isDottedFront_iff u).1 hfront)⟩

/-- A name from which there is no fallback should mean what it means by itself. -/
theorem isMeaning_named? (h : ∀ parent, ¬FallsBackTo name parent) :
    IsMeaning name (named? (String.ofList name)) := by
  cases hnamed : named? (String.ofList name) with
  | some t =>
    have hname : t.captureName.toList = name := by
      rw [named?_eq_some_iff.1 hnamed, String.toList_ofList]
    refine ⟨.inl hname, fun u _ hu => ?_⟩
    rw [← String.length_toList, ← String.length_toList, hname]
    exact hu.isPrefix.length_le
  | none =>
    rintro t - (hname | hfront)
    · exact captureName_ne hnamed t hname
    · -- Up to a dot, only a name with a dot has something at its front, but that falls back.
      have hmem : '.' ∈ name.reverse := List.mem_reverse.2 (hfront.subset (by simp))
      have hpart := exists_part (List.contains_iff_mem.2 hmem)
      rw [List.reverse_reverse] at hpart
      exact h _ ⟨hnamed, hpart⟩

/-- Where the fallbacks from a name end, the last name tells what the name means. -/
theorem EndsIn.isMeaning {n : Nat} (h : EndsIn name n last) :
    IsMeaning name (named? (String.ofList last)) := by
  induction h with
  | stop h => exact isMeaning_named? h
  | step hfalls _ ih => exact (hfalls.isMeaning_iff _).2 ih

/-- The meaning of a capture is that of the name in which its fallbacks end, after no more of them
    than the capture has dots. It is the type whose name is the longest one at the front of the
    capture, up to the end or to a dot; nothing is meant if and only if there is no such name. -/
theorem ofCapture?_longest (capture : String) :
    (∃ n last, EndsIn capture.toList n last ∧ n ≤ capture.toList.count '.' ∧
      ofCapture? capture = named? (String.ofList last)) ∧
    (∀ t, ofCapture? capture = some t ↔ t.IsLongestFront capture.toList) ∧
    (ofCapture? capture = none ↔
      ∀ t ∈ all, ¬IsDottedFront t.captureName.toList capture.toList) := by
  obtain ⟨n, last, hends, hlast⟩ := exists_endsIn capture.toList.reverse
  rw [List.reverse_reverse] at hends
  have hmeaning : IsMeaning capture.toList (ofCapture? capture) := by
    rw [ofCapture?, hlast]
    exact hends.isMeaning
  have hiff {meaning : Option TokenType} :
      ofCapture? capture = meaning ↔ IsMeaning capture.toList meaning :=
    ⟨fun h => h ▸ hmeaning, hmeaning.unique⟩
  exact ⟨⟨n, last, hends, hends.le_count, hlast⟩, fun _ => hiff, hiff⟩

example : ["variable.parameter.self", "variable..x", ".variable"].map ofCapture? =
    [some .variableParameter, some .variable, none] := by decide +kernel

end TokenType

end GrammarTools
