import GrammarTools.Proofs.JoinedCorpus
import GrammarTools.Simpl.Language

/-!
# Two forms of an S-expression

The atoms of a text are what it falls into when it is cut at its blanks and around its
parentheses (`Sexp.isCut_iff`). Both forms in which an S-expression is written, the
normal form and the one with a node on every line, put blanks in front of an atom, and
put some wherever two words meet (`Sexp.IsWritten`); a parenthesis needs none on either
side. Whatever is written so has the atoms that it was written from.

So both forms tell the atoms and nothing else, and one of them tells two S-expressions
apart if and only if the other one does (`Sexp.forms_tell_atoms`). What a corpus file
expects is in normal form, and so is what a tree is printed as; therefore they differ
as well when they are laid out line by line.
-/

namespace GrammarTools

namespace Sexp

/-! ## Cuts -/

/-- A character that a text is cut at or around. -/
def IsBreak (c : Char) : Prop := Text.isBlank c = true ∨ c = '(' ∨ c = ')'

/-- A text cut at its blanks and around its parentheses. -/
inductive IsCut : List Char → List (List Char) → Prop
  | nil : IsCut [] []
  | blank {c : Char} {text : List Char} {as : List (List Char)} : Text.isBlank c = true →
      IsCut text as → IsCut (c :: text) as
  | paren {c : Char} {text : List Char} {as : List (List Char)} : c = '(' ∨ c = ')' →
      IsCut text as → IsCut (c :: text) ([c] :: as)
  | word {word text : List Char} {as : List (List Char)} : IsWord word →
      (∀ c ∈ text.head?, IsBreak c) → IsCut text as → IsCut (word ++ text) (word :: as)

variable {word text gap : List Char} {as : List (List Char)} {previous : Option (List Char)}
  {x y : String} {c : Char}

/-- A parenthesis is an atom by itself. -/
theorem atoms_paren_cons (hc : c = '(' ∨ c = ')') (text : List Char) :
    atoms (c :: text) = [c] :: atoms text := by
  rcases hc with rfl | rfl
  · exact atoms_append_open [] text
  · exact atoms_append_close [] text

/-- A break ends a word. -/
theorem atoms_word_append (hword : IsWord word) (h : ∀ c ∈ text.head?, IsBreak c) :
    atoms (word ++ text) = word :: atoms text := by
  cases text with
  | nil => rw [List.append_nil, atoms_of_isWord hword, atoms_nil]
  | cons c text =>
    rcases h c rfl with hblank | rfl | rfl
    · rw [atoms_append_blank hblank, atoms_of_isWord hword, List.singleton_append]
      exact congrArg (word :: ·) (atoms_append_blank hblank [] text).symm
    · rw [atoms_append_open, atoms_of_isWord hword, atoms_paren_cons (.inl rfl),
        List.singleton_append]
    · rw [atoms_append_close, atoms_of_isWord hword, atoms_paren_cons (.inr rfl),
        List.singleton_append]

/-- The atoms of a text are those of any way to cut it. -/
theorem IsCut.atoms_eq (h : IsCut text as) : atoms text = as := by
  induction h with
  | nil => rfl
  | blank hc _ ih => exact (atoms_append_blank hc [] _).trans ih
  | paren hc _ ih => rw [atoms_paren_cons hc, ih]
  | word hword hhead _ ih => rw [atoms_word_append hword hhead, ih]

/-- A word can get one more character in front, neither blank nor a parenthesis. -/
theorem isWord_cons (hblank : Text.isBlank c = false) (hparen : c ≠ '(' ∧ c ≠ ')')
    (h : word = [] ∨ IsWord word) : IsWord (c :: word) := by
  refine ⟨List.cons_ne_nil c word, List.forall_mem_cons.2 ⟨hblank, ?_⟩,
    List.forall_mem_cons.2 ⟨hparen, ?_⟩⟩
  · rcases h with rfl | hword
    · exact List.forall_mem_nil _
    · exact hword.not_blank
  · rcases h with rfl | hword
    · exact List.forall_mem_nil _
    · exact hword.not_paren

/-- A text that can be cut can be cut with one more character in front. -/
theorem IsCut.exists_cons (c : Char) (h : IsCut text as) : ∃ bs, IsCut (c :: text) bs := by
  by_cases hblank : Text.isBlank c = true
  · exact ⟨as, .blank hblank h⟩
  by_cases hparen : c = '(' ∨ c = ')'
  · exact ⟨[c] :: as, .paren hparen h⟩
  rw [not_or] at hparen
  have hword {word : List Char} : word = [] ∨ IsWord word → IsWord (c :: word) :=
    isWord_cons (by simpa using hblank) hparen
  have hsingle (hhead : ∀ c ∈ text.head?, IsBreak c) : IsCut ([c] ++ text) ([c] :: as) :=
    .word (hword (.inl rfl)) hhead h
  -- A word at the start takes the character, which otherwise is a word by itself.
  cases h with
  | nil => exact ⟨_, hsingle (by rintro _ ⟨⟩)⟩
  | blank hd _ => exact ⟨_, hsingle (by rintro _ ⟨⟩; exact .inl hd)⟩
  | paren hd _ => exact ⟨_, hsingle (by rintro _ ⟨⟩; exact .inr hd)⟩
  | word hold hhead h => exact ⟨_, .word (hword (.inr hold)) hhead h⟩

/-- Every text can be cut. -/
theorem exists_isCut (text : List Char) : ∃ as, IsCut text as := by
  induction text with
  | nil => exact ⟨[], .nil⟩
  | cons c text ih =>
    obtain ⟨as, h⟩ := ih
    exact h.exists_cons c

/-- A text can be cut into its atoms, and into nothing else. -/
theorem isCut_iff : IsCut text as ↔ atoms text = as := by
  refine ⟨IsCut.atoms_eq, ?_⟩
  rintro rfl
  obtain ⟨as, has⟩ := exists_isCut text
  rwa [has.atoms_eq]

/-- A parenthesis or a word. -/
def IsAtom (a : List Char) : Prop := (a = ['('] ∨ a = [')']) ∨ IsWord a

/-- What is cut off is an atom. -/
theorem IsCut.isAtom (h : IsCut text as) : ∀ a ∈ as, IsAtom a := by
  induction h with
  | nil => exact List.forall_mem_nil _
  | blank _ _ ih => exact ih
  | paren hc _ ih => exact List.forall_mem_cons.2 ⟨.inl (by simpa using hc), ih⟩
  | word hword _ _ ih => exact List.forall_mem_cons.2 ⟨.inr hword, ih⟩

theorem isAtom_atoms (text : List Char) : ∀ a ∈ atoms text, IsAtom a :=
  (isCut_iff.2 rfl).isAtom

/-- A gap in front does not change the way to cut a text. -/
theorem IsCut.append_blank (hgap : ∀ c ∈ gap, Text.isBlank c = true) (h : IsCut text as) :
    IsCut (gap ++ text) as := by
  induction gap with
  | nil => exact h
  | cons c gap ih =>
    obtain ⟨hc, hgap⟩ := List.forall_mem_cons.1 hgap
    exact .blank hc (ih hgap)

/-! ## Writing -/

/-- Atoms written with blanks in front, of which there are some between two words. -/
inductive IsWritten : Option (List Char) → List (List Char) → List Char → Prop
  | nil {previous : Option (List Char)} : IsWritten previous [] []
  | cons {previous : Option (List Char)} {gap atom text : List Char} {as : List (List Char)} :
      (∀ c ∈ gap, Text.isBlank c = true) →
      (∀ p ∈ previous, IsWord p → IsWord atom → gap ≠ []) →
        IsWritten (some atom) as text → IsWritten previous (atom :: as) (gap ++ (atom ++ text))

/-- What is written falls into the atoms that it was written from. -/
theorem IsWritten.isCut (h : IsWritten previous as text)
    (has : ∀ a ∈ as, IsAtom a) :
    IsCut text as ∧ ∀ p ∈ previous, IsWord p → ∀ c ∈ text.head?, IsBreak c := by
  induction h with
  | nil => exact ⟨.nil, by rintro _ _ _ _ ⟨⟩⟩
  | @cons previous gap atom text as hgap hbetween _ ih =>
    obtain ⟨hatom, has⟩ := List.forall_mem_cons.1 has
    obtain ⟨hcut, hbehind⟩ := ih has
    have hfirst : IsCut (atom ++ text) (atom :: as) := by
      rcases hatom with hparen | hword
      · rcases hparen with rfl | rfl
        · exact .paren (.inl rfl) hcut
        · exact .paren (.inr rfl) hcut
      · exact .word hword (hbehind atom rfl hword) hcut
    refine ⟨hfirst.append_blank hgap, fun p hp hprevious c hc => ?_⟩
    -- With no gap, one of the two atoms is a parenthesis, which is a break by itself.
    cases gap with
    | cons d gap =>
      cases hc
      exact .inl (hgap c List.mem_cons_self)
    | nil =>
      rcases hatom with hparen | hword
      · rcases hparen with rfl | rfl <;> cases hc <;> simp [IsBreak]
      · exact absurd rfl (hbetween p hp hprevious hword)

theorem IsWritten.atoms_eq (h : IsWritten previous (atoms text) gap) : atoms gap = atoms text :=
  (h.isCut (isAtom_atoms text)).1.atoms_eq

/-! ## Both forms -/

theorem IsWord.ne_paren (h : IsWord word) : word ≠ ['('] ∧ word ≠ [')'] := by
  constructor
  · rintro rfl
    exact (h.not_paren '(' List.mem_cons_self).1 rfl
  · rintro rfl
    exact (h.not_paren ')' List.mem_cons_self).2 rfl

/-- The normal form writes the atoms of a text, with single spaces in front of words. -/
theorem exists_normalizeFrom (out : String) (previous : Option (List Char))
    (as : List (List Char)) : ∃ text,
      (normalizeFrom out previous as).toList = out.toList ++ text ∧ IsWritten previous as text := by
  induction as generalizing out previous with
  | nil => exact ⟨[], by simp [normalizeFrom], .nil⟩
  | cons atom as ih =>
    rw [normalizeFrom]
    obtain ⟨text, htext, hwritten⟩ :=
      ih ((if isGlued previous atom then out else out.push ' ') ++ String.ofList atom) (some atom)
    refine ⟨(if isGlued previous atom then [] else [' ']) ++ (atom ++ text), ?_,
      .cons ?_ ?_ hwritten⟩
    · rw [htext]
      split <;> simp
    · intro c hc
      split at hc
      · cases hc
      · rw [List.mem_singleton.1 hc]
        rfl
    · rintro p rfl hp hatom
      simp [isGlued, hp.ne_paren, hatom.ne_paren]

theorem isBlank_lineBreak (depth : Nat) :
    ∀ c ∈ (lineBreak depth).toList, Text.isBlank c = true := by
  intro c hc
  rw [lineBreak, String.toList_ofList, List.mem_cons] at hc
  rcases hc with rfl | hc
  · rfl
  · rw [List.eq_of_mem_replicate hc]
    rfl

/-- What the readable form puts in front of an atom is blank. -/
theorem isBlank_front (depth : Nat) (atom : List Char) :
    ∀ c ∈ (front depth previous atom).toList, Text.isBlank c = true := by
  have hempty : ∀ c ∈ "".toList, Text.isBlank c = true := by simp
  have hspace : ∀ c ∈ " ".toList, Text.isBlank c = true := by simp [Text.isBlank]
  fun_cases front depth previous atom with
  | case1 | case4 | case6 => exact hempty
  | case2 | case7 => exact hspace
  | case3 | case5 => exact isBlank_lineBreak depth

/-- Between two words something blank is put. -/
theorem front_ne_nil (depth : Nat) {p atom : List Char} (hp : IsWord p) (hatom : IsWord atom) :
    (front depth (some p) atom).toList ≠ [] := by
  rw [front, if_neg hatom.ne_paren.1, if_neg hatom.ne_paren.2]
  split
  · simp [lineBreak]
  · simp [hp.ne_paren]

/-- The readable form writes the same atoms, with more in between. -/
theorem exists_prettyFrom (out : String) (depth : Nat) (previous : Option (List Char))
    (as : List (List Char)) : ∃ text,
      (prettyFrom out depth previous as).toList = out.toList ++ text ∧
        IsWritten previous as text := by
  induction as generalizing out depth previous with
  | nil => exact ⟨[], by simp [prettyFrom], .nil⟩
  | cons atom as ih =>
    obtain ⟨text, htext, hwritten⟩ := ih (out ++ front depth previous atom ++ String.ofList atom)
      (depthAfter depth atom) (some atom)
    refine ⟨(front depth previous atom).toList ++ (atom ++ text), ?_,
      .cons (isBlank_front depth atom) ?_ hwritten⟩
    · rw [prettyFrom, htext]
      simp
    · rintro p rfl hp hatom
      exact front_ne_nil depth hp hatom

/-- The normal form has the atoms of the text, so it can be made again. -/
theorem atoms_normalize (text : String) : atoms (normalize text).toList = atoms text.toList := by
  obtain ⟨written, htext, hwritten⟩ := exists_normalizeFrom "" none (atoms text.toList)
  rw [normalize, htext]
  exact hwritten.atoms_eq

/-- So has the readable form. -/
theorem atoms_pretty (text : String) : atoms (pretty text).toList = atoms text.toList := by
  obtain ⟨written, htext, hwritten⟩ := exists_prettyFrom "" 0 none (atoms text.toList)
  rw [pretty, htext]
  exact hwritten.atoms_eq

/-- Normal forms are equal exactly if the atoms are. -/
theorem normalize_eq_iff : normalize x = normalize y ↔ atoms x.toList = atoms y.toList := by
  refine ⟨fun h => ?_, fun h => by rw [normalize, normalize, h]⟩
  rw [← atoms_normalize x, h, atoms_normalize]

/-- Readable forms are equal exactly if the atoms are. -/
theorem pretty_eq_iff : pretty x = pretty y ↔ atoms x.toList = atoms y.toList := by
  refine ⟨fun h => ?_, fun h => by rw [pretty, pretty, h]⟩
  rw [← atoms_pretty x, h, atoms_pretty]

/-- Texts in normal form are laid out differently if they differ. -/
theorem normalize_of_pretty (h : pretty (normalize x) = pretty (normalize y)) :
    normalize x = normalize y := by
  rw [pretty_eq_iff, atoms_normalize, atoms_normalize] at h
  exact normalize_eq_iff.2 h

end Sexp

/-! ## Tests that fail -/

/-- What a corpus file expects is in normal form. -/
theorem Corpus.exists_expected_eq {contents : String} {entries : List CorpusEntry}
    (h : Corpus.entries contents = .ok entries) :
    ∀ e ∈ entries, ∃ text, e.expected = Sexp.normalize text := by
  rw [← holds_iff] at h
  generalize Text.lines contents.toList = ls at h
  induction h with
  | nil => exact List.forall_mem_nil _
  | blank _ _ ih => exact ih
  | block b _ ih => exact List.forall_mem_cons.2 ⟨⟨_, rfl⟩, ih⟩

/-- What an entry really gives is a normal form. -/
theorem Parser.exists_actual_eq (p : Parser) (entry : CorpusEntry) :
    ∃ text, (p.runEntry entry).actual = Sexp.normalize text := by
  rw [runEntry]
  cases p.parse entry.input with
  | none => exact ⟨"", rfl⟩
  | some tree => exact ⟨_, rfl⟩

/-- A failed entry has a difference to show. -/
theorem Parser.pretty_ne_of_not_passed (p : Parser) {contents : String}
    {entries : List CorpusEntry} (h : Corpus.entries contents = .ok entries) {o : CorpusOutcome}
    (ho : o ∈ p.runCorpus entries) (hfailed : o.passed = false) :
    Sexp.pretty o.expected ≠ Sexp.pretty o.actual := by
  obtain ⟨entry, hentry, rfl⟩ := List.mem_map.1 ho
  obtain ⟨expected, hexpected⟩ := Corpus.exists_expected_eq h entry hentry
  obtain ⟨actual, hactual⟩ := p.exists_actual_eq entry
  have hrun : (p.runEntry entry).expected = Sexp.normalize expected := hexpected
  rw [CorpusOutcome.passed, beq_eq_false_iff_ne, hrun, hactual] at hfailed
  rw [hrun, hactual]
  exact mt Sexp.normalize_of_pretty hfailed

/-- Two S-expressions have the same normal form, and the same layout, if and only if they have
    the same atoms, which both forms keep. A test that fails shows two layouts that differ. -/
theorem Sexp.forms_tell_atoms (x y : String) :
    (∀ as, IsCut x.toList as ↔ atoms x.toList = as) ∧
      atoms (normalize x).toList = atoms x.toList ∧
      (normalize x = normalize y ↔ atoms x.toList = atoms y.toList) ∧
      normalize (normalize x) = normalize x ∧
      normalize (pretty x) = normalize x ∧
      (pretty x = pretty y ↔ normalize x = normalize y) ∧
      ∀ (p : Parser) (contents : String) (entries : List CorpusEntry),
        Corpus.entries contents = .ok entries → ∀ o ∈ p.runCorpus entries,
          o.passed = false → pretty o.expected ≠ pretty o.actual :=
  ⟨fun _ => isCut_iff, atoms_normalize x, normalize_eq_iff, normalize_eq_iff.2 (atoms_normalize x),
    normalize_eq_iff.2 (atoms_pretty x), pretty_eq_iff.trans normalize_eq_iff.symm,
    fun p _ _ h _ ho => p.pretty_ne_of_not_passed h ho⟩

theorem Sexp.forms_tell_atoms_negation :
    pretty "( not\tx:(y ) ) z" = pretty "(not x: (y)) z" ∧
    Corpus.entries "===\nNegation\n===\nnot x\n---\n(source_file\n  (unary_expression))\n" =
      .ok [⟨"Negation", "not x", "(source_file (unary_expression))"⟩] ∧
    (Parser.new.setLanguage Simpl.language).runCorpus
        [⟨"Negation", "not x", "(source_file (unary_expression))"⟩] =
      [⟨"Negation", "(source_file (unary_expression))",
        "(source_file (unary_expression operand: (field_identifier)))"⟩] ∧
    pretty "(source_file (unary_expression))" ≠
      pretty "(source_file (unary_expression operand: (field_identifier)))" := by
  have hentries :
      Corpus.entries "===\nNegation\n===\nnot x\n---\n(source_file\n  (unary_expression))\n" =
        .ok [⟨"Negation", "not x", "(source_file (unary_expression))"⟩] := by cbv
  have hrun : (Parser.new.setLanguage Simpl.language).runCorpus
        [⟨"Negation", "not x", "(source_file (unary_expression))"⟩] =
      [⟨"Negation", "(source_file (unary_expression))",
        "(source_file (unary_expression operand: (field_identifier)))"⟩] := by decide +kernel
  obtain ⟨-, -, hnormal, -, -, hpretty, hfails⟩ :=
    forms_tell_atoms "( not\tx:(y ) ) z" "(not x: (y)) z"
  refine ⟨hpretty.2 (hnormal.2 (by decide)), hentries, hrun, ?_⟩
  exact hfails _ _ _ hentries ⟨_, _, _⟩ (hrun ▸ List.mem_singleton.2 rfl) (by decide)

end GrammarTools
