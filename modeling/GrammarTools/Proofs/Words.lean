import GrammarTools.Sexp

/-!
# Words and atoms of texts

The words of a text are found from left to right: a blank ends a word, whatever
stands in front of it, so a text falls into parts at each of its blanks
(`Text.words_append_cons`). In an S-expression a parenthesis does the same and
is an atom of its own (`Sexp.atoms_append_open`, `Sexp.atoms_append_close`). A text
without blanks and parentheses is a single atom (`Sexp.atoms_of_isWord`).
-/

namespace GrammarTools

/-! ## Words -/

namespace Text

/-- The words found so far stay in front of those to come. -/
theorem wordsFrom_eq (word : List Char) (found : List (List Char)) (cs : List Char) :
    wordsFrom word found cs = found.reverse ++ wordsFrom word [] cs := by
  induction cs generalizing word found with
  | nil => cases word <;> simp [wordsFrom]
  | cons c cs ih =>
    simp only [wordsFrom]
    split
    · rw [ih, ih [] (if word.isEmpty then [] else _)]
      cases word <;> simp
    · exact ih _ _

/-- A blank ends the word so far. -/
theorem wordsFrom_append_cons {c : Char} (hc : isBlank c = true) (word cs ds : List Char) :
    wordsFrom word [] (cs ++ c :: ds) = wordsFrom word [] cs ++ words ds := by
  induction cs generalizing word with
  | nil =>
    rw [List.nil_append, wordsFrom.eq_2, if_pos hc, wordsFrom_eq, wordsFrom.eq_1, words]
  | cons d cs ih =>
    rw [List.cons_append, wordsFrom, wordsFrom]
    split
    · rw [wordsFrom_eq, ih, wordsFrom_eq [] (if word.isEmpty then [] else _) cs, List.append_assoc]
    · exact ih _

/-- A blank parts the words in front of it from those behind it. -/
theorem words_append_cons {c : Char} (hc : isBlank c = true) (cs ds : List Char) :
    words (cs ++ c :: ds) = words cs ++ words ds :=
  wordsFrom_append_cons hc [] cs ds

@[simp] theorem words_nil : words [] = [] := rfl

/-- Without blanks, what is left belongs to one word. -/
theorem wordsFrom_of_forall {word cs : List Char} (hne : word ≠ [] ∨ cs ≠ [])
    (h : ∀ c ∈ cs, isBlank c = false) : wordsFrom word [] cs = [word.reverse ++ cs] := by
  induction cs generalizing word with
  | nil => simpa [wordsFrom] using hne
  | cons c cs ih =>
    obtain ⟨hc, hcs⟩ := List.forall_mem_cons.1 h
    rw [wordsFrom, if_neg (by simp [hc]), ih (.inl (List.cons_ne_nil c word)) hcs]
    simp

/-- A text without blanks is a single word. -/
theorem words_of_forall {cs : List Char} (hne : cs ≠ []) (h : ∀ c ∈ cs, isBlank c = false) :
    words cs = [cs] :=
  wordsFrom_of_forall (.inr hne) h

end Text

/-! ## Atoms -/

namespace Sexp

/-- A text that is an atom and no parenthesis. -/
structure IsWord (text : List Char) : Prop where
  ne_nil : text ≠ []
  not_blank : ∀ c ∈ text, Text.isBlank c = false
  not_paren : ∀ c ∈ text, c ≠ '(' ∧ c ≠ ')'

/-- Whether a text is an atom and no parenthesis. -/
def isWord (text : List Char) : Bool :=
  !text.isEmpty && text.all fun c => !Text.isBlank c && c != '(' && c != ')'

theorem isWord_iff {text : List Char} : isWord text = true ↔ IsWord text := by
  simp only [isWord, Bool.and_eq_true, Bool.not_eq_true', List.isEmpty_eq_false_iff,
    List.all_eq_true, bne_iff_ne]
  constructor
  · rintro ⟨hne, hall⟩
    exact ⟨hne, fun c hc => (hall c hc).1.1, fun c hc => ⟨(hall c hc).1.2, (hall c hc).2⟩⟩
  · rintro ⟨hne, hblank, hparen⟩
    exact ⟨hne, fun c hc => ⟨⟨hblank c hc, (hparen c hc).1⟩, (hparen c hc).2⟩⟩

instance (text : List Char) : Decidable (IsWord text) := decidable_of_iff _ isWord_iff

@[simp] theorem atoms_nil : atoms [] = [] := rfl

/-- Where a character is set apart by spaces, the atoms before it are settled. -/
theorem atoms_append_of_spaced {c d : Char} {middle : List Char} (hc : Text.isBlank c = true)
    (hd : spaced d = c :: middle) (cs ds : List Char) :
    atoms (cs ++ d :: ds) = atoms cs ++ Text.words (middle ++ ds.flatMap spaced) := by
  rw [atoms, List.flatMap_append, List.flatMap_cons, hd, List.cons_append,
    Text.words_append_cons hc, ← atoms]

/-- A blank parts the atoms in front of it from those behind it. -/
theorem atoms_append_blank {c : Char} (hc : Text.isBlank c = true) (cs ds : List Char) :
    atoms (cs ++ c :: ds) = atoms cs ++ atoms ds := by
  have hspaced : spaced c = [c] := by
    rw [spaced, if_neg (by rintro rfl; cases hc), if_neg (by rintro rfl; cases hc)]
  rw [atoms_append_of_spaced hc hspaced, List.nil_append, ← atoms]

theorem atoms_append_open (cs ds : List Char) :
    atoms (cs ++ '(' :: ds) = atoms cs ++ ['('] :: atoms ds := by
  rw [atoms_append_of_spaced rfl rfl]
  exact congrArg (_ ++ ·) (Text.words_append_cons (c := ' ') rfl ['('] _)

theorem atoms_append_close (cs ds : List Char) :
    atoms (cs ++ ')' :: ds) = atoms cs ++ [')'] :: atoms ds := by
  rw [atoms_append_of_spaced rfl rfl]
  exact congrArg (_ ++ ·) (Text.words_append_cons (c := ' ') rfl [')'] _)

/-- A word is its own only atom. -/
theorem atoms_of_isWord {text : List Char} (h : IsWord text) : atoms text = [text] := by
  have hspaced : text.flatMap spaced = text := by
    have hmap : text.map spaced = text.map fun c => [c] := List.map_congr_left fun c hc => by
      rw [spaced, if_neg (h.not_paren c hc).1, if_neg (h.not_paren c hc).2]
    rw [List.flatMap, hmap, ← List.flatMap, List.flatMap_singleton']
  rw [atoms, hspaced, Text.words_of_forall h.ne_nil h.not_blank]

end Sexp

end GrammarTools
