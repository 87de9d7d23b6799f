import GrammarTools.Proofs.CorpusFiles
import Mathlib.Data.List.Basic
import Mathlib.Data.List.TakeWhile

/-!
# Corpus files put together

A corpus file is a sequence of blank lines and *blocks*, the lines of one entry each,
and its entries are those of the blocks (`Corpus.holds_iff`). The reader takes all
lines up to the next rule of equal signs for the body of an entry, hence also the blank
lines behind a block; they are then part of what is expected, where blanks do not
matter (`Corpus.Block.exists_append`).

Two such sequences put together are one again, and so two corpus files with a line feed
between hold the entries of both (`Corpus.entries_append_newline`). The line feed ends
the last line of the first file, which may lose a carriage return thereby, or is a blank
line more. That line is blank, or a rule of dashes, or belongs to what is expected, so
the entries stay as they were (`Corpus.Holds.chomp_last`).
-/

namespace GrammarTools

variable {α : Type} {p : α → Bool}

theorem eq_takeWhile_append_cons {l rest : List α} {a : α} (h : l.dropWhile p = a :: rest) :
    l = l.takeWhile p ++ a :: rest ∧ p a = false := by
  have hhead := List.head?_dropWhile_not p l
  rw [h] at hhead
  rw [← h, List.takeWhile_append_dropWhile]
  exact ⟨rfl, hhead⟩

theorem takeWhile_append_drop (p : α → Bool) (l : List α) :
    l.takeWhile p ++ l.drop (l.takeWhile p).length = l :=
  List.prefix_iff_eq_append.1 (List.takeWhile_prefix p)

theorem exists_eq_takeWhile_append {l : List α} (h : (l.takeWhile p).length ≠ l.length) :
    ∃ a, p a = false ∧ l = l.takeWhile p ++ a :: l.drop ((l.takeWhile p).length + 1) := by
  cases hdrop : l.dropWhile p with
  | nil =>
    have hself := List.takeWhile_eq_self_iff.2 (List.dropWhile_eq_nil_iff.1 hdrop)
    exact absurd (congrArg List.length hself) h
  | cons a rest =>
    obtain ⟨hsplit, ha⟩ := eq_takeWhile_append_cons hdrop
    have hrest : l.drop (l.takeWhile p).length = a :: rest :=
      List.append_cancel_left ((takeWhile_append_drop p l).trans hsplit)
    refine ⟨a, ha, ?_⟩
    rw [← List.drop_drop, hrest, List.drop_succ_cons, List.drop_zero]
    exact hsplit

/-! ## The last line -/

namespace Text

theorem linesFrom_of_not_mem {line cs : List Char} (h : '\n' ∉ cs) :
    linesFrom line [] cs =
      if (line.reverse ++ cs).isEmpty then [] else [line.reverse ++ cs] := by
  induction cs generalizing line with
  | nil => cases line <;> simp [linesFrom]
  | cons c cs ih =>
    rw [List.mem_cons, not_or] at h
    rw [linesFrom, if_neg (Ne.symm h.1), ih h.2, List.reverse_cons, List.append_assoc,
      List.singleton_append]

/-- A text without line feeds is a line, unless it is empty. -/
theorem lines_of_not_mem {cs : List Char} (h : '\n' ∉ cs) :
    lines cs = if cs.isEmpty then [] else [cs] :=
  linesFrom_of_not_mem h

/-- With a line feed behind it, the last line of a text can lose a carriage return, and it is a
    line even if it is empty. -/
theorem exists_lines_eq (cs : List Char) : ∃ (ls : List (List Char)) (last : List Char),
    lines cs = (if last.isEmpty then ls else ls ++ [last]) ∧
      ∀ ds, lines (cs ++ '\n' :: ds) = ls ++ chomp last :: lines ds := by
  have hone {last : List Char} (h : '\n' ∉ last) (ds : List Char) :
      lines (last ++ '\n' :: ds) = chomp last :: lines ds := by
    rw [lines_append_newline, List.splitOn_eq_singleton h, List.map_singleton,
      List.singleton_append]
  by_cases hmem : '\n' ∈ cs
  · obtain ⟨back, front, hrev, hlast⟩ := List.eq_append_cons_of_mem (List.mem_reverse.2 hmem)
    obtain rfl : cs = front.reverse ++ '\n' :: back.reverse := by
      rw [← List.reverse_reverse cs, hrev]
      simp
    rw [← List.mem_reverse] at hlast
    refine ⟨(front.reverse.splitOn '\n').map chomp, back.reverse, ?_, fun ds => ?_⟩
    · rw [lines_append_newline, lines_of_not_mem hlast]
      split <;> simp
    · rw [List.append_assoc, List.cons_append, lines_append_newline, hone hlast]
  · exact ⟨[], cs, lines_of_not_mem hmem, hone hmem⟩

end Text

namespace Corpus

variable {ls rest more : List (List Char)} {es fs found all : List CorpusEntry}
  {line : List Char} {number : Nat}

/-! ## Blank lines -/

/-- A carriage return makes no difference to a blank line. -/
theorem isBlankLine_chomp (line : List Char) :
    isBlankLine (Text.chomp line) = isBlankLine line := by
  rcases Text.chomp_cases line with h | h
  · rw [h]
  · have hreturn : Text.isBlank '\r' = true := by decide
    conv => rhs; rw [h]
    simp [isBlankLine, hreturn]

/-- A blank line is no rule. -/
theorem isRule_of_isBlankLine (fill : Char) (h : isBlankLine line = true) :
    isRule fill line = false := by
  have hstart : Text.trimStart line = [] :=
    List.dropWhile_eq_nil_iff.2 fun c hc => List.all_eq_true.1 h c hc
  rw [isRule, Text.trim, hstart]
  rfl

/-- A blank line has no atoms. -/
theorem atoms_of_isBlankLine (h : isBlankLine line = true) : Sexp.atoms line = [] := by
  induction line with
  | nil => rfl
  | cons c line ih =>
    obtain ⟨hc, hline⟩ := List.forall_mem_cons.1 (List.all_eq_true.1 h)
    exact (Sexp.atoms_append_blank hc [] line).trans (ih (List.all_eq_true.2 hline))

/-- Blank lines between entries are passed over. -/
theorem entriesFrom_blank (h : ∀ line ∈ more, isBlankLine line = true) :
    entriesFrom number found (more ++ rest) = entriesFrom (number + more.length) found rest := by
  induction more generalizing number with
  | nil => rfl
  | cons line more ih =>
    obtain ⟨hline, hmore⟩ := List.forall_mem_cons.1 h
    rw [List.cons_append, entriesFrom, if_pos hline, ih hmore, List.length_cons, Nat.add_assoc,
      Nat.add_comm 1]

/-! ## Blocks -/

/-- The lines of an entry. -/
structure Block where
  /-- The rule in front of the name. -/
  first : List Char
  /-- The lines of the name. -/
  name : List (List Char)
  /-- The rule behind the name. -/
  last : List Char
  /-- The lines of the input. -/
  input : List (List Char)
  /-- The rule behind the input. -/
  divider : List Char
  /-- The lines of the expected S-expression. -/
  expected : List (List Char)
  isRule_first : isRule '=' first = true
  isRule_name : ∀ line ∈ name, isRule '=' line = false
  name_ne : Text.trim (join [' '] name) ≠ []
  isRule_last : isRule '=' last = true
  isRule_input : ∀ line ∈ input, isRule '=' line = false
  isRule_divider : isRule '-' divider = true
  isRule_expected : ∀ line ∈ expected, isRule '=' line = false ∧ isRule '-' line = false

/-- A rule of dashes is none of equal signs. -/
theorem isRule_of_isRule_dashes (h : isRule '-' line = true) : isRule '=' line = false := by
  obtain ⟨n, hn, hdashes⟩ := isRule_iff.1 h
  refine Bool.eq_false_iff.2 fun hequals => ?_
  obtain ⟨m, _, hm⟩ := isRule_iff.1 hequals
  have hmem : '-' ∈ List.replicate m '=' := by
    rw [← hm, hdashes]
    exact List.mem_replicate.2 ⟨by omega, rfl⟩
  cases List.eq_of_mem_replicate hmem

namespace Block

variable (b : Block)

/-- The lines between the rules of equal signs of a block and those of the next one. -/
def body : List (List Char) := b.input ++ b.divider :: b.expected

/-- All lines of a block. -/
def lines : List (List Char) := b.first :: (b.name ++ b.last :: b.body)

/-- The entry that a block is for. -/
def entry : CorpusEntry :=
  ⟨String.ofList (Text.trim (join [' '] b.name)),
    String.ofList (join ['\n'] (trimBlankLines b.input)),
    Sexp.normalize (String.ofList (join ['\n'] b.expected))⟩

/-- No line of a body is a rule that would begin another entry. -/
theorem isRule_body : ∀ line ∈ b.body, isRule '=' line = false := fun line hline => by
  rw [body, List.mem_append, List.mem_cons] at hline
  rcases hline with hinput | rfl | hexpected
  · exact b.isRule_input line hinput
  · exact isRule_of_isRule_dashes b.isRule_divider
  · exact (b.isRule_expected line hexpected).1

theorem isBlankLine_first : isBlankLine b.first = false := Bool.eq_false_iff.2 fun h => by
  have hrule := isRule_of_isBlankLine '=' h
  rw [b.isRule_first] at hrule
  cases hrule

/-- A block is read as its entry if nothing or a rule follows. -/
theorem entriesFrom_lines (hrest : ∀ line ∈ rest.head?, isRule '=' line = true) :
    entriesFrom number found (b.lines ++ rest) =
      entriesFrom (number + b.lines.length) (b.entry :: found) rest := by
  have hlength : number + b.lines.length = number + 2 + b.name.length + b.body.length := by
    rw [lines, List.length_cons, List.length_append, List.length_cons]
    omega
  have hlines : b.lines ++ rest = b.first :: (b.name ++ b.last :: (b.body ++ rest)) := by
    rw [lines, List.cons_append, List.append_assoc, List.cons_append]
  rw [hlines, hlength]
  exact entriesFrom_append number found b.isRule_first b.isBlankLine_first b.isRule_last
    b.isRule_name b.isRule_body hrest b.name_ne
    (entryOf_append _ b.isRule_divider fun line hline => (b.isRule_expected line hline).2)

/-- Blanks do not matter in what is expected. -/
theorem normalize_expected {expected : List (List Char)}
    (h : expected.flatMap Sexp.atoms = b.expected.flatMap Sexp.atoms) :
    Sexp.normalize (String.ofList (join ['\n'] expected)) = b.entry.expected := by
  rw [entry, Sexp.normalize, Sexp.normalize, String.toList_ofList, String.toList_ofList,
    Sexp.atoms_join, Sexp.atoms_join, h]

/-- Blank lines behind a block can be taken into it. -/
theorem exists_append (h : ∀ line ∈ more, isBlankLine line = true) :
    ∃ b' : Block, b'.lines = b.lines ++ more ∧ b'.entry = b.entry := by
  have hatoms : more.flatMap Sexp.atoms = [] :=
    List.flatMap_eq_nil_iff.2 fun line hline => atoms_of_isBlankLine (h line hline)
  have hexpected : (b.expected ++ more).flatMap Sexp.atoms = b.expected.flatMap Sexp.atoms := by
    rw [List.flatMap_append, hatoms, List.append_nil]
  have hrule : ∀ line ∈ b.expected ++ more, isRule '=' line = false ∧ isRule '-' line = false :=
    List.forall_mem_append.2 ⟨b.isRule_expected, fun line hline =>
      ⟨isRule_of_isBlankLine '=' (h line hline), isRule_of_isBlankLine '-' (h line hline)⟩⟩
  refine ⟨{ b with expected := b.expected ++ more, isRule_expected := hrule }, ?_, ?_⟩
  · simp [lines, body]
  · exact congrArg (CorpusEntry.mk _ _) (b.normalize_expected hexpected)

/-- The last line of a block is its rule of dashes or belongs to what is expected. -/
theorem exists_chomp_last (h : b.lines = ls ++ [line]) :
    ∃ b' : Block, b'.lines = ls ++ [Text.chomp line] ∧ b'.entry = b.entry := by
  have hlines : b.lines =
      (b.first :: (b.name ++ b.last :: b.input)) ++ b.divider :: b.expected := by
    rw [lines, body, List.cons_append, List.append_assoc, List.cons_append]
  rw [hlines] at h
  rcases b.expected.eq_nil_or_concat' with hnil | ⟨init, _, hconcat⟩
  · -- With nothing expected, the last line of the block is its divider.
    rw [hnil] at h
    obtain ⟨rfl, ⟨⟩⟩ := List.append_inj' h rfl
    have hrule : isRule '-' (Text.chomp b.divider) = true := by
      rw [isRule_chomp, b.isRule_divider]
    refine ⟨{ b with divider := Text.chomp b.divider, isRule_divider := hrule }, ?_, rfl⟩
    simp [lines, body, hnil]
  · rw [hconcat, ← List.cons_append (a := b.divider), ← List.append_assoc] at h
    obtain ⟨rfl, ⟨⟩⟩ := List.append_inj' h rfl
    have hexpected : (init ++ [Text.chomp line]).flatMap Sexp.atoms =
        b.expected.flatMap Sexp.atoms := by
      simp [hconcat, Sexp.atoms_chomp]
    have hrule : ∀ l ∈ init ++ [Text.chomp line], isRule '=' l = false ∧ isRule '-' l = false := by
      have hold := b.isRule_expected
      rw [hconcat, List.forall_mem_append, List.forall_mem_singleton] at hold
      rw [List.forall_mem_append, List.forall_mem_singleton, isRule_chomp, isRule_chomp]
      exact hold
    refine ⟨{ b with expected := init ++ [Text.chomp line], isRule_expected := hrule }, ?_, ?_⟩
    · simp [lines, body]
    · exact congrArg (CorpusEntry.mk _ _) (b.normalize_expected hexpected)

end Block

/-! ## Corpus files -/

/-- Lines that are blank or belong to a block, and the entries of the blocks. -/
inductive Holds : List (List Char) → List CorpusEntry → Prop
  | nil : Holds [] []
  | blank {line : List Char} {rest : List (List Char)} {es : List CorpusEntry} :
      isBlankLine line = true → Holds rest es → Holds (line :: rest) es
  | block (b : Block) {rest : List (List Char)} {es : List CorpusEntry} :
      Holds rest es → Holds (b.lines ++ rest) (b.entry :: es)

namespace Holds

/-- Lines that hold some entries, and then lines that hold others, hold all of them. -/
theorem append (h : Holds ls es) (hrest : Holds rest fs) : Holds (ls ++ rest) (es ++ fs) := by
  induction h with
  | nil => exact hrest
  | blank hblank _ ih => exact .blank hblank ih
  | block b _ ih =>
    rw [List.append_assoc]
    exact .block b ih

/-- The first line that is not blank is a rule. -/
theorem isRule_head? (h : Holds ls es) :
    ∀ line ∈ (ls.dropWhile isBlankLine).head?, isRule '=' line = true := by
  induction h with
  | nil =>
    rintro line ⟨⟩
  | blank hblank _ ih =>
    rw [List.dropWhile_cons_of_pos hblank]
    exact ih
  | block b _ _ =>
    rw [Block.lines, List.cons_append, List.dropWhile_cons_of_neg (by simp [b.isBlankLine_first])]
    rintro line ⟨⟩
    exact b.isRule_first

/-- What lines hold is what is read from them. -/
theorem entriesFrom_eq (h : Holds ls es) (number : Nat) (found : List CorpusEntry) :
    entriesFrom number found ls = .ok (found.reverse ++ es) := by
  induction h generalizing number found with
  | nil => rw [entriesFrom, List.append_nil]
  | blank hblank _ ih => rw [entriesFrom, if_pos hblank, ih]
  | @block b rest es hrest ih =>
    -- The blank lines that follow are taken into the block, which makes no other entry.
    have hmore : ∀ line ∈ rest.takeWhile isBlankLine, isBlankLine line = true :=
      fun line => List.mem_takeWhile_imp
    obtain ⟨b', hlines, hentry⟩ := b.exists_append hmore
    have hsplit := List.takeWhile_append_dropWhile (p := isBlankLine) (l := rest)
    calc entriesFrom number found (b.lines ++ rest)
      _ = entriesFrom number found (b'.lines ++ rest.dropWhile isBlankLine) := by
        rw [hlines, List.append_assoc, hsplit]
      _ = entriesFrom (number + b.lines.length) (b.entry :: found)
            (rest.takeWhile isBlankLine ++ rest.dropWhile isBlankLine) := by
        rw [b'.entriesFrom_lines hrest.isRule_head?, entriesFrom_blank hmore, hlines, hentry,
          List.length_append, Nat.add_assoc]
      _ = .ok (found.reverse ++ b.entry :: es) := by
        rw [hsplit, ih, List.reverse_cons, List.append_assoc, List.singleton_append]

/-- A carriage return at the end of the last line makes no difference. -/
theorem chomp_last (h : Holds (ls ++ [line]) es) : Holds (ls ++ [Text.chomp line]) es := by
  generalize hlines : ls ++ [line] = all at h
  induction h generalizing ls with
  | nil => cases List.append_ne_nil_of_right_ne_nil ls (List.cons_ne_nil line []) hlines
  | @blank first rest es hblank hrest ih =>
    cases ls with
    | nil =>
      obtain ⟨rfl, rfl⟩ := List.cons.inj hlines
      exact .blank ((isBlankLine_chomp line).trans hblank) hrest
    | cons _ ls =>
      obtain ⟨rfl, rfl⟩ := List.cons.inj hlines
      exact .blank hblank (ih rfl)
  | @block b rest es hrest ih =>
    -- The last line is in this block only if nothing follows it.
    rcases rest.eq_nil_or_concat' with rfl | ⟨init, _, rfl⟩
    · rw [List.append_nil] at hlines
      obtain ⟨b', hb', hentry⟩ := b.exists_chomp_last hlines.symm
      rw [← hb', ← hentry, ← List.append_nil b'.lines]
      exact .block b' hrest
    · rw [← List.append_assoc] at hlines
      obtain ⟨rfl, ⟨⟩⟩ := List.append_inj' hlines rfl
      rw [List.append_assoc]
      exact .block b (ih rfl)

end Holds

/-- A body that makes an entry ends with a rule of dashes and what is expected. -/
theorem exists_of_entryOf {title : List Char} {body : List (List Char)} {e : CorpusEntry}
    (h : entryOf title body = .ok e) :
    ∃ input divider expected, body = input ++ divider :: expected ∧ isRule '-' divider = true ∧
      ∀ line ∈ expected, isRule '-' line = false := by
  simp only [entryOf] at h
  split at h
  · cases h
  · rename_i divider above hdrop
    obtain ⟨hsplit, hdivider⟩ := eq_takeWhile_append_cons hdrop
    refine ⟨above.reverse, divider, (body.reverse.takeWhile (!isRule '-' ·)).reverse, ?_, ?_, ?_⟩
    · exact (List.reverse_eq_iff.1 hsplit).trans (by simp)
    · simpa using hdivider
    · intro line hline
      simpa using List.mem_takeWhile_imp (List.mem_reverse.1 hline)

/-- The lines read for an entry are a block. -/
theorem exists_block {first last : List Char} {name body : List (List Char)} {e : CorpusEntry}
    (hfirst : isRule '=' first = true) (hlast : isRule '=' last = true)
    (hname : ∀ line ∈ name, isRule '=' line = false)
    (hbody : ∀ line ∈ body, isRule '=' line = false)
    (htitle : Text.trim (join [' '] name) ≠ [])
    (hentry : entryOf (Text.trim (join [' '] name)) body = .ok e) :
    ∃ b : Block, b.lines = first :: (name ++ last :: body) ∧ b.entry = e := by
  obtain ⟨input, divider, expected, rfl, hdivider, hexpected⟩ := exists_of_entryOf hentry
  rw [entryOf_append _ hdivider hexpected] at hentry
  obtain ⟨hinput, hrest⟩ := List.forall_mem_append.1 hbody
  have hequals := (List.forall_mem_cons.1 hrest).2
  exact ⟨⟨first, name, last, input, divider, expected, hfirst, hname, htitle, hlast, hinput,
    hdivider, fun line hline => ⟨hequals line hline, hexpected line hline⟩⟩, rfl,
    Except.ok.inj hentry⟩

/-- What is read from lines is what they hold. -/
theorem holds_of_entriesFrom (h : entriesFrom number found ls = .ok all) :
    ∃ es, all = found.reverse ++ es ∧ Holds ls es := by
  fun_induction entriesFrom number found ls with
  | case1 number found =>
    cases h
    exact ⟨[], (List.append_nil _).symm, .nil⟩
  | case2 number found line rest hblank ih =>
    obtain ⟨es, hall, hrest⟩ := ih h
    exact ⟨es, hall, .blank hblank hrest⟩
  | case3 => cases h
  | case4 => cases h
  | case5 => cases h
  | case6 number found first rest hblank hfirst name body after title hname e hentry ih =>
    rw [Bool.or_eq_true, decide_eq_true_eq, List.isEmpty_iff, not_or] at hname
    have hnone {l : List (List Char)} :
        ∀ line ∈ l.takeWhile (!isRule '=' ·), isRule '=' line = false := fun line hline => by
      simpa using List.mem_takeWhile_imp hline
    -- The name ends at a rule, as the reader has found, so the lines up to the next rule are a
    -- block.
    obtain ⟨last, hlast, hsplit⟩ := exists_eq_takeWhile_append hname.1
    obtain ⟨b, hlines, rfl⟩ := exists_block (by simpa using hfirst) (by simpa using hlast) hnone
      hnone hname.2 hentry
    obtain ⟨es, hall, hrest⟩ := ih h
    refine ⟨b.entry :: es, by simpa using hall, ?_⟩
    have hbehind : body ++ after = rest.drop (name.length + 1) := by
      have hafter : after = (rest.drop (name.length + 1)).drop body.length := List.drop_drop.symm
      rw [hafter]
      exact takeWhile_append_drop _ _
    have hwhole : first :: rest = b.lines ++ after := by
      rw [hlines, List.cons_append, List.append_assoc, List.cons_append, hbehind]
      exact congrArg (first :: ·) hsplit
    rw [hwhole]
    exact .block b hrest

/-- The entries of a corpus file are those that its lines hold. -/
theorem holds_iff {contents : String} :
    Holds (Text.lines contents.toList) es ↔ entries contents = .ok es := by
  refine ⟨fun h => h.entriesFrom_eq 1 [], fun h => ?_⟩
  obtain ⟨es, rfl, hes⟩ := holds_of_entriesFrom h
  exact hes

/-- Two corpus files with a line feed between hold the entries of both. -/
theorem entries_append_newline (a b : String) (es fs : List CorpusEntry)
    (ha : entries a = .ok es) (hb : entries b = .ok fs) :
    entries (a ++ "\n" ++ b) = .ok (es ++ fs) := by
  rw [← holds_iff] at ha hb ⊢
  obtain ⟨ls, last, hlines, happend⟩ := Text.exists_lines_eq a.toList
  have hseam : Holds (ls ++ [Text.chomp last]) es := by
    rw [hlines] at ha
    split at ha
    · rename_i hempty
      have hblank : Holds [Text.chomp last] [] := by
        rw [List.isEmpty_iff.1 hempty]
        exact .blank rfl .nil
      simpa using ha.append hblank
    · exact ha.chomp_last
  have htext : (a ++ "\n" ++ b).toList = a.toList ++ '\n' :: b.toList := by simp
  rw [htext, happend, ← List.singleton_append, ← List.append_assoc]
  exact hseam.append hb

theorem entries_append_newline_seam :
    entries "===\r\nTwo\nlines\n===\na\r\n---\nb\n\n---\n(x\n y)\r" =
        .ok [⟨"Two lines", "a\n---\nb", "(x y)"⟩] ∧
      entries "\n \r\n===\nNext\n===\n\n---\r" = .ok [⟨"Next", "", ""⟩] ∧
      entries ("===\r\nTwo\nlines\n===\na\r\n---\nb\n\n---\n(x\n y)\r" ++ "\n" ++
          "\n \r\n===\nNext\n===\n\n---\r") =
        .ok [⟨"Two lines", "a\n---\nb", "(x y)"⟩, ⟨"Next", "", ""⟩] := by
  have hfirst : entries "===\r\nTwo\nlines\n===\na\r\n---\nb\n\n---\n(x\n y)\r" =
      .ok [⟨"Two lines", "a\n---\nb", "(x y)"⟩] := by cbv
  have hsecond : entries "\n \r\n===\nNext\n===\n\n---\r" = .ok [⟨"Next", "", ""⟩] := by cbv
  exact ⟨hfirst, hsecond, entries_append_newline _ _ _ _ hfirst hsecond⟩

end Corpus

end GrammarTools
