import GrammarTools.Corpus
import GrammarTools.Proofs.Words

/-!
# Corpus files read back

A corpus file that has been written entry by entry is read as the entries it was
written from (`Corpus.entries_render`), as long as no line of an entry can be taken
for a rule in the wrong place (`CorpusEntry.IsWritable`). The input of an entry may
have blank lines and rules of dashes in it: only the last such rule divides the body.

The lines of an entry are those of its parts (`Text.lines_append_newline`), and so
the search for rules stops where the entry was put together
(`Corpus.entriesFrom_append`). A carriage return at the end of a line gets lost,
which makes no difference to the words of the expected S-expression.
-/

namespace GrammarTools

variable {α : Type} {p : α → Bool}

theorem dropWhile_of_head? {l : List α} (h : ∀ a ∈ l.head?, p a = false) : l.dropWhile p = l := by
  cases l with
  | nil => rfl
  | cons a l => rw [List.dropWhile_cons_of_neg (by simp [h a rfl])]

theorem takeWhile_of_head? {l : List α} (h : ∀ a ∈ l.head?, p a = false) : l.takeWhile p = [] := by
  cases l with
  | nil => rfl
  | cons a l => rw [List.takeWhile_cons_of_neg (by simp [h a rfl])]

/-! ## Lines -/

namespace Text

/-- A line without a carriage return at its end. -/
def chomp (line : List Char) : List Char := lineOfReverse line.reverse

/-- The lines found so far stay in front of those to come. -/
theorem linesFrom_eq (line : List Char) (found : List (List Char)) (cs : List Char) :
    linesFrom line found cs = found.reverse ++ linesFrom line [] cs := by
  induction cs generalizing line found with
  | nil => cases line <;> simp [linesFrom]
  | cons c cs ih =>
    simp only [linesFrom]
    split
    · rw [ih, ih [] [_]]
      simp
    · exact ih _ _

/-- A separator begins a new part, and any other character goes into the first one. -/
theorem splitOn_cons (c x : Char) (cs : List Char) : (c :: cs).splitOn x =
    if c = x then [] :: cs.splitOn x else (cs.splitOn x).modifyHead (List.cons c) := by
  simp only [List.splitOn_eq_splitOnP, List.splitOnP_cons_eq_if_modifyHead, beq_iff_eq]

/-- A line feed ends the line so far. -/
theorem linesFrom_append_newline (line cs ds : List Char) :
    linesFrom line [] (cs ++ '\n' :: ds) =
      ((cs.splitOn '\n').modifyHead (line.reverse ++ ·)).map chomp ++ lines ds := by
  induction cs generalizing line with
  | nil =>
    rw [List.nil_append, linesFrom, if_pos rfl, linesFrom_eq]
    simp [chomp, lines]
  | cons c cs ih =>
    rw [List.cons_append, linesFrom, splitOn_cons]
    split
    · rw [linesFrom_eq, ih []]
      cases cs.splitOn '\n' <;> simp [chomp]
    · rw [ih]
      cases cs.splitOn '\n' <;> simp

/-- A line feed ends the lines of the text in front of it. -/
theorem lines_append_newline (cs ds : List Char) :
    lines (cs ++ '\n' :: ds) = (cs.splitOn '\n').map chomp ++ lines ds := by
  rw [lines, linesFrom_append_newline]
  cases cs.splitOn '\n' <;> simp

theorem chomp_append_return (line : List Char) : chomp (line ++ ['\r']) = line := by
  rw [chomp, List.reverse_append, List.reverse_singleton, List.singleton_append, lineOfReverse,
    List.reverse_reverse]

theorem chomp_of_getLast? {line : List Char} (h : line.getLast? ≠ some '\r') :
    chomp line = line := by
  rw [chomp, lineOfReverse]
  · rw [List.reverse_reverse]
  · intro rest heq
    rw [← List.head?_reverse, heq] at h
    exact h rfl

/-- A line loses nothing, or a carriage return at its end. -/
theorem chomp_cases (line : List Char) :
    chomp line = line ∨ line = chomp line ++ ['\r'] := by
  by_cases h : line.getLast? = some '\r'
  · obtain ⟨rest, rfl⟩ := List.getLast?_eq_some_iff.1 h
    exact .inr (by rw [chomp_append_return])
  · exact .inl (chomp_of_getLast? h)

/-- A blank at the end makes no difference to what is trimmed. -/
theorem trim_append_blank {c : Char} (hc : isBlank c = true) (cs : List Char) :
    trim (cs ++ [c]) = trim cs := by
  rw [trim, trim, trimStart, trimStart, List.dropWhile_append]
  split
  · rename_i h
    rw [List.isEmpty_iff.1 h]
    simp [hc]
  · rw [trimEnd, trimEnd, List.reverse_append, List.reverse_singleton, List.singleton_append,
      List.dropWhile_cons_of_pos hc]

/-- No blank is left at the end by trimming. -/
theorem isBlank_of_getLast?_trim {cs : List Char} {c : Char} (h : (trim cs).getLast? = some c) :
    isBlank c = false := by
  have hhead := List.head?_dropWhile_not isBlank (trimStart cs).reverse
  rw [trim, trimEnd, List.getLast?_reverse] at h
  rw [h] at hhead
  simpa using hhead

/-- A carriage return at the end is trimmed in any case. -/
theorem trim_chomp (line : List Char) : trim (chomp line) = trim line := by
  rcases chomp_cases line with h | h
  · rw [h]
  · conv => rhs; rw [h, trim_append_blank rfl]

/-- Parts with line feeds behind them are lines, or several lines each. -/
theorem lines_flatMap (parts : List (List Char)) (ds : List Char) :
    lines (parts.flatMap (· ++ ['\n']) ++ ds) =
      parts.flatMap (fun part => (part.splitOn '\n').map chomp) ++ lines ds := by
  induction parts with
  | nil => rfl
  | cons part parts ih =>
    rw [List.flatMap_cons, List.append_assoc, List.append_assoc, List.singleton_append,
      lines_append_newline, ih, List.flatMap_cons, List.append_assoc]

end Text

/-! ## Atoms of lines -/

namespace Sexp

/-- A carriage return adds no atoms. -/
theorem atoms_chomp (line : List Char) : atoms (Text.chomp line) = atoms line := by
  rcases Text.chomp_cases line with h | h
  · rw [h]
  · conv =>
      rhs
      rw [h, atoms_append_blank rfl, atoms_nil, List.append_nil]

/-- The atoms of joined lines are those of the lines. -/
theorem atoms_join : (lines : List (List Char)) →
    atoms (Corpus.join ['\n'] lines) = lines.flatMap atoms
  | [] => rfl
  | [line] => by simp [Corpus.join]
  | line :: next :: rest => by
    have hjoin : Corpus.join ['\n'] (line :: next :: rest) =
        line ++ '\n' :: Corpus.join ['\n'] (next :: rest) := by
      simp [Corpus.join]
    rw [hjoin, atoms_append_blank rfl, atoms_join (next :: rest)]
    rfl

/-- What is cut at line feeds is joined by them. -/
theorem join_splitOn (cs : List Char) : Corpus.join ['\n'] (cs.splitOn '\n') = cs :=
  List.intercalate_splitOn '\n'

/-- Carriage returns at the ends of lines do not matter to an S-expression. -/
theorem normalize_join_chomp (text : String) :
    normalize (String.ofList (Corpus.join ['\n'] ((text.toList.splitOn '\n').map Text.chomp))) =
      normalize text := by
  have hatoms : (text.toList.splitOn '\n').flatMap (fun line => atoms (Text.chomp line)) =
      (text.toList.splitOn '\n').flatMap atoms := by
    simp only [atoms_chomp]
  rw [normalize, normalize, String.toList_ofList, atoms_join, List.flatMap_map, hatoms,
    ← atoms_join, join_splitOn]

end Sexp

/-! ## Entries that can be written -/

namespace Corpus

/-- A line that is a rule of three or more of the given character, blanks around it aside. -/
def IsRule (fill : Char) (line : List Char) : Prop :=
  ∃ n, 3 ≤ n ∧ Text.trim line = List.replicate n fill

/-- A line is a rule if it has three of the fill characters at least, and nothing else but blanks.
    -/
theorem isRule_iff {fill : Char} {line : List Char} :
    isRule fill line = true ↔ IsRule fill line := by
  rw [isRule, Bool.and_eq_true, decide_eq_true_iff, List.all_eq_true, IsRule]
  constructor
  · rintro ⟨hlength, hall⟩
    exact ⟨_, hlength, List.eq_replicate_iff.2 ⟨rfl, fun c hc => eq_of_beq (hall c hc)⟩⟩
  · rintro ⟨n, hn, heq⟩
    rw [heq, List.length_replicate]
    exact ⟨hn, fun c hc => beq_iff_eq.2 (List.eq_of_mem_replicate hc)⟩

instance (fill : Char) (line : List Char) : Decidable (IsRule fill line) :=
  decidable_of_iff _ isRule_iff

/-- A carriage return makes no difference to a rule. -/
theorem isRule_chomp (fill : Char) (line : List Char) :
    isRule fill (Text.chomp line) = isRule fill line := by
  rw [isRule, isRule, Text.trim_chomp]

/-- The last rule of dashes of a body is the one in front of what is expected. -/
theorem entryOf_append (title : List Char) {input expected : List (List Char)}
    {divider : List Char} (hdivider : isRule '-' divider = true)
    (hexpected : ∀ line ∈ expected, isRule '-' line = false) :
    entryOf title (input ++ divider :: expected) =
      .ok ⟨String.ofList title, String.ofList (join ['\n'] (trimBlankLines input)),
        Sexp.normalize (String.ofList (join ['\n'] expected))⟩ := by
  have hreverse : (input ++ divider :: expected).reverse =
      expected.reverse ++ divider :: input.reverse := by
    rw [List.reverse_append, List.reverse_cons, List.append_assoc, List.singleton_append]
  have hhead : ∀ line ∈ (divider :: input.reverse).head?, (!isRule '-' line) = false := by
    rintro line ⟨⟩
    rw [hdivider, Bool.not_true]
  have hbehind : ∀ line ∈ expected.reverse, (!isRule '-' line) = true := fun line hline => by
    rw [hexpected line (List.mem_reverse.1 hline), Bool.not_false]
  have hdrop := dropWhile_of_head? hhead
  have htake := takeWhile_of_head? hhead
  simp only [entryOf, hreverse, List.dropWhile_append_of_pos hbehind,
    List.takeWhile_append_of_pos hbehind, hdrop, htake, List.append_nil, List.reverse_reverse]

end Corpus

/-- What stands between the line feeds of a text. -/
def Corpus.linesOf (text : String) : List (List Char) := text.toList.splitOn '\n'

open Corpus (linesOf isRule isBlankLine)

namespace CorpusEntry

/-- An entry that can be written into a corpus file and read back. -/
structure IsWritable (e : CorpusEntry) : Prop where
  name_ne : e.name ≠ ""
  name_trim : Text.trim e.name.toList = e.name.toList
  name_line : '\n' ∉ e.name.toList
  name_rule : ¬ Corpus.IsRule '=' e.name.toList
  input_first : e.input = "" ∨ ∀ line ∈ (linesOf e.input).head?, isBlankLine line = false
  input_last : e.input = "" ∨ ∀ line ∈ (linesOf e.input).getLast?, isBlankLine line = false
  input_rule : ∀ line ∈ linesOf e.input, ¬ Corpus.IsRule '=' line
  input_return : ∀ line ∈ linesOf e.input, line.getLast? ≠ some '\r'
  expected_rule : ∀ line ∈ linesOf e.expected,
    ¬ Corpus.IsRule '=' line ∧ ¬ Corpus.IsRule '-' line

/-- The entry as a part of a corpus file. -/
def render (e : CorpusEntry) : String :=
  String.join (["===", e.name, "===", e.input, "---", e.expected].map (· ++ "\n"))

/-- The entry as it is read back. -/
def normal (e : CorpusEntry) : CorpusEntry := { e with expected := Sexp.normalize e.expected }

end CorpusEntry

/-- A corpus file with the given entries. -/
def Corpus.render (entries : List CorpusEntry) : String :=
  String.join (entries.map CorpusEntry.render)

namespace CorpusEntry.IsWritable

variable {e : CorpusEntry} (h : e.IsWritable)
include h

/-- The lines of a rendered entry are its rules, its name, and the lines of its two parts. -/
theorem lines_render (ds : List Char) :
    Text.lines (e.render.toList ++ ds) =
      "===".toList :: e.name.toList :: "===".toList :: (linesOf e.input ++
        "---".toList :: (linesOf e.expected).map Text.chomp ++ Text.lines ds) := by
  have hrender : e.render.toList = (["===".toList, e.name.toList, "===".toList, e.input.toList,
      "---".toList, e.expected.toList]).flatMap (· ++ ['\n']) := by
    simp [render]
  have hname : (e.name.toList.splitOn '\n').map Text.chomp = [e.name.toList] := by
    have hlast : e.name.toList.getLast? ≠ some '\r' := fun hlast => by
      rw [← h.name_trim] at hlast
      cases Text.isBlank_of_getLast?_trim hlast
    rw [List.splitOn_eq_singleton h.name_line, List.map_singleton, Text.chomp_of_getLast? hlast]
  have hinput : (e.input.toList.splitOn '\n').map Text.chomp = linesOf e.input :=
    (List.map_congr_left fun line hline => Text.chomp_of_getLast? (h.input_return line hline)).trans
      (List.map_id _)
  have hrule : ("===".toList.splitOn '\n').map Text.chomp = ["===".toList] := by decide
  have hdivider : ("---".toList.splitOn '\n').map Text.chomp = ["---".toList] := by decide
  rw [hrender, Text.lines_flatMap]
  simp only [List.flatMap_cons, List.flatMap_nil, hname, hinput, hrule, hdivider, linesOf,
    List.append_nil, List.append_assoc, List.cons_append, List.nil_append]

/-- The blank lines around an input are not part of it, and it has none of its own there. -/
theorem join_trimBlankLines :
    Corpus.join ['\n'] (Corpus.trimBlankLines (linesOf e.input)) = e.input.toList := by
  by_cases hempty : e.input = ""
  · rw [hempty]
    decide
  · have hfirst : (linesOf e.input).dropWhile isBlankLine = linesOf e.input :=
      dropWhile_of_head? (h.input_first.resolve_left hempty)
    have hlast : (linesOf e.input).reverse.dropWhile isBlankLine = (linesOf e.input).reverse :=
      dropWhile_of_head? (List.head?_reverse ▸ h.input_last.resolve_left hempty)
    rw [Corpus.trimBlankLines, hfirst, hlast, List.reverse_reverse]
    exact Sexp.join_splitOn _

/-- No line of the expected tree is a rule of either character, with or without its carriage return.
    -/
theorem isRule_expected {line : List Char} (hline : line ∈ (linesOf e.expected).map Text.chomp) :
    isRule '=' line = false ∧ isRule '-' line = false := by
  obtain ⟨line, hmem, rfl⟩ := List.mem_map.1 hline
  obtain ⟨hequals, hdashes⟩ := h.expected_rule line hmem
  rw [Corpus.isRule_chomp, Corpus.isRule_chomp]
  exact ⟨Bool.eq_false_iff.2 (mt Corpus.isRule_iff.1 hequals),
    Bool.eq_false_iff.2 (mt Corpus.isRule_iff.1 hdashes)⟩

/-- What stands between the name and the next entry is the entry again, with its tree in normal
    form. -/
theorem entryOf_eq :
    Corpus.entryOf e.name.toList
      (linesOf e.input ++ "---".toList :: (linesOf e.expected).map Text.chomp) = .ok e.normal := by
  have hdivider : isRule '-' "---".toList = true := by decide
  rw [Corpus.entryOf_append _ hdivider fun line hline => (isRule_expected h hline).2,
    join_trimBlankLines h, String.ofList_toList, String.ofList_toList, linesOf,
    Sexp.normalize_join_chomp, normal]

/-- No line of the body begins another entry. -/
theorem isRule_body {line : List Char}
    (hline : line ∈ linesOf e.input ++ "---".toList :: (linesOf e.expected).map Text.chomp) :
    isRule '=' line = false := by
  rcases List.mem_append.1 hline with hinput | hrest
  · exact Bool.eq_false_iff.2 (mt Corpus.isRule_iff.1 (h.input_rule line hinput))
  · rcases List.mem_cons.1 hrest with rfl | hexpected
    · decide
    · exact (isRule_expected h hexpected).1

end CorpusEntry.IsWritable

namespace Corpus

/-- A name between two rules and a body up to the next rule are read as one entry. -/
theorem entriesFrom_append (number : Nat) (found : List CorpusEntry) {first last : List Char}
    {name body rest : List (List Char)} {entry : CorpusEntry} (hfirst : isRule '=' first = true)
    (hblank : isBlankLine first = false) (hlast : isRule '=' last = true)
    (hname : ∀ line ∈ name, isRule '=' line = false)
    (hbody : ∀ line ∈ body, isRule '=' line = false)
    (hrest : ∀ line ∈ rest.head?, isRule '=' line = true)
    (htitle : Text.trim (join [' '] name) ≠ [])
    (hentry : entryOf (Text.trim (join [' '] name)) body = .ok entry) :
    entriesFrom number found (first :: (name ++ last :: (body ++ rest))) =
      entriesFrom (number + 2 + name.length + body.length) (entry :: found) rest := by
  have hstop : ∀ line ∈ (last :: (body ++ rest)).head?, (!isRule '=' line) = false := by
    rintro line ⟨⟩
    rw [hlast, Bool.not_true]
  -- The name ends at the first rule behind it, and the body at the next one or at the end.
  have htakeName : (name ++ last :: (body ++ rest)).takeWhile (!isRule '=' ·) = name := by
    rw [List.takeWhile_append_of_pos (by simpa using hname), takeWhile_of_head? hstop,
      List.append_nil]
  have htakeBody : (body ++ rest).takeWhile (!isRule '=' ·) = body := by
    rw [List.takeWhile_append_of_pos (by simpa using hbody),
      takeWhile_of_head? (by simpa using hrest), List.append_nil]
  have hdropName : (name ++ last :: (body ++ rest)).drop (name.length + 1) = body ++ rest := by
    rw [← List.drop_drop, List.drop_left]
    rfl
  have hdropBody :
      (name ++ last :: (body ++ rest)).drop (name.length + 1 + body.length) = rest := by
    rw [← List.drop_drop, hdropName, List.drop_left]
  have hlength : ¬ (name.length = (name ++ last :: (body ++ rest)).length ∨
      (Text.trim (join [' '] name)).isEmpty = true) := by
    rw [List.isEmpty_iff, List.length_append, List.length_cons]
    rintro (heq | heq)
    · omega
    · exact htitle heq
  rw [entriesFrom, if_neg (by simp [hblank]), if_neg (by simp [hfirst])]
  simp only [htakeName, hdropName, htakeBody, hdropBody]
  rw [if_neg (by simpa using hlength), hentry]

theorem toList_render_cons (e : CorpusEntry) (entries : List CorpusEntry) :
    (render (e :: entries)).toList = e.render.toList ++ (render entries).toList := by
  simp [render]

/-- A corpus file is empty or begins with a rule. -/
theorem isRule_of_head?_render {entries : List CorpusEntry} (h : ∀ e ∈ entries, e.IsWritable) :
    ∀ line ∈ (Text.lines (render entries).toList).head?, isRule '=' line = true := by
  cases entries with
  | nil =>
    rintro line ⟨⟩
  | cons e entries =>
    rw [toList_render_cons, (h e List.mem_cons_self).lines_render]
    rintro line ⟨⟩
    decide

/-- Rendered entries are read one by one, in front of those that follow. -/
theorem entriesFrom_render {entries : List CorpusEntry} (h : ∀ e ∈ entries, e.IsWritable)
    (number : Nat) (found : List CorpusEntry) :
    entriesFrom number found (Text.lines (render entries).toList) =
      .ok (found.reverse ++ entries.map CorpusEntry.normal) := by
  induction entries generalizing number found with
  | nil =>
    rw [List.map_nil, List.append_nil]
    exact entriesFrom.eq_1 ..
  | cons e entries ih =>
    obtain ⟨he, hrest⟩ := List.forall_mem_cons.1 h
    have htitle : Text.trim (join [' '] [e.name.toList]) = e.name.toList :=
      (congrArg Text.trim (List.append_nil _)).trans he.name_trim
    have hname : ∀ line ∈ [e.name.toList], isRule '=' line = false := by
      simpa using mt isRule_iff.1 he.name_rule
    have htitleNe : Text.trim (join [' '] [e.name.toList]) ≠ [] := by
      rw [htitle]
      simpa using he.name_ne
    have hrule : isRule '=' "===".toList = true := by decide
    have hentry := entriesFrom_append number found hrule (by decide) hrule hname
      (fun line => he.isRule_body) (isRule_of_head?_render hrest) htitleNe (htitle ▸ he.entryOf_eq)
    rw [toList_render_cons, he.lines_render]
    refine hentry.trans ?_
    rw [ih hrest, List.reverse_cons, List.append_assoc, List.map_cons, List.singleton_append]

/-- A corpus file that is written from entries is read as these entries. -/
theorem entries_render (entries : List CorpusEntry) (h : ∀ e ∈ entries, e.IsWritable) :
    Corpus.entries (render entries) =
      .ok (entries.map fun e => ⟨e.name, e.input, Sexp.normalize e.expected⟩) :=
  entriesFrom_render h 1 []

theorem entries_render_dividers :
    Corpus.entries "===\nInner rules\n===\na\n\n---\nb\n---\n(x\n  y )\n===\n---\n===\n\n---\n\n" =
      .ok [⟨"Inner rules", "a\n\n---\nb", "(x y)"⟩, ⟨"---", "", ""⟩] := by
  have hfirst : CorpusEntry.IsWritable ⟨"Inner rules", "a\n\n---\nb", "(x\n  y )"⟩ := by
    constructor <;> decide
  have hsecond : CorpusEntry.IsWritable ⟨"---", "", ""⟩ := by
    constructor <;> decide
  exact entries_render [⟨"Inner rules", "a\n\n---\nb", "(x\n  y )"⟩, ⟨"---", "", ""⟩]
    (by simpa using ⟨hfirst, hsecond⟩)

end Corpus

end GrammarTools
