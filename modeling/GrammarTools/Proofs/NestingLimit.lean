import GrammarTools.Proofs.Peopl.Room
import GrammarTools.Proofs.Simpl.Room

/-!
# How deeply a source may nest

Three ways to nest in PeoPl and two in Simpl, each of them with as many levels as one
likes: parentheses, signs and type arguments. How many of them a source may have
follows from the room that they need, as there are `maxNesting` levels
(`nesting_limits`).
-/

namespace GrammarTools

open Segment

section taken

variable {τ : Type} {lexicon : Lexicon τ} {opening closing number minus : τ} {after : List Char}

/-- Signs are taken in front of what begins with no blank. -/
theorem signs_areTaken (hminus : ∀ after, (word minus ['-']).IsTaken lexicon (' ' :: after))
    (hafter : ∀ c ∈ after.head?, isGap c = false) (n : Nat) :
    AreTaken lexicon after (Segment.copies n [word minus ['-'], space]) := by
  refine .copies n fun behind h => ?_
  have hbehind : ∀ c ∈ behind.head?, isGap c = false := ?_
  · exact ⟨hminus _, isTaken_space hbehind, trivial⟩
  rcases h with h | h
  · exact h ▸ hafter
  · rw [h]
    rintro c ⟨⟩
    rfl

/-- Segments that are taken one by one, copied between copies of parentheses. -/
theorem parens_areTaken (hopening : ∀ after, (word opening ['(']).IsTaken lexicon after)
    (hclosing : ∀ after, (word closing [')']).IsTaken lexicon after) (n : Nat)
    (hnumber : ∀ behind : List Char, behind = after ∨ behind.head? = some ')' →
      (word number ['1']).IsTaken lexicon behind) :
    AreTaken lexicon after (Segment.copies n [word opening ['(']] ++
      word number ['1'] :: Segment.copies n [word closing [')']]) := by
  refine .append (.copies n fun _ _ => ⟨hopening _, trivial⟩)
    ⟨hnumber _ ?_, .copies n fun _ _ => ⟨hclosing _, trivial⟩⟩
  cases n with
  | zero => exact .inl rfl
  | succ n => exact .inr rfl

end taken

namespace Peopl

theorem minus_isTaken (after : List Char) : (word .minus ['-']).IsTaken lexicon (' ' :: after) :=
  ⟨'-', [], rfl, rfl⟩

theorem openParen_isTaken (after : List Char) : (word .openParen ['(']).IsTaken lexicon after :=
  ⟨'(', [], rfl, rfl⟩

theorem closeParen_isTaken (after : List Char) : (word .closeParen [')']).IsTaken lexicon after :=
  ⟨')', [], rfl, rfl⟩

/-- A number is cut off by two dots or a closing parenthesis. -/
theorem one_isTaken {after : List Char} (h : after = ['.', '.'] ∨ after.head? = some ')') :
    (word .number ['1']).IsTaken lexicon after := by
  rcases h with rfl | h
  · exact ⟨'1', [], rfl, rfl⟩
  · obtain ⟨after, rfl⟩ := List.head?_eq_some_iff.1 h
    exact ⟨'1', [], rfl, rfl⟩

/-- Parentheses take two levels each, an expression and an operand. -/
theorem parens_isLimited (n : Nat) :
    grammar.IsLimited Kind.dotDot ("x = " ++ copies n "(" ++ "1" ++ copies n ")" ++ "..")
      (n ≤ 63) := by
  let parens : List (Segment Token) := Segment.copies n [word Token.openParen ['(']] ++
    word Token.number ['1'] :: Segment.copies n [word Token.closeParen [')']]
  have hparens : AreTaken lexicon ['.', '.'] parens :=
    parens_areTaken openParen_isTaken closeParen_isTaken n fun _ => one_isTaken
  have htaken : AreTaken lexicon [] (valueFront ++ (parens ++ [word Token.dotDot ['.', '.']])) :=
    .append (valueFront_areTaken (by cases n <;> rintro c ⟨⟩ <;> rfl))
      (.append hparens ⟨dotDot_isTaken _, trivial⟩)
  refine isLimited_of_segments .argumentName (.equals :: (List.replicate n Token.openParen ++
    Token.number :: List.replicate n Token.closeParen)) ?_ htaken ?_ ?_ ?_ fun s hs => ?_
  · simp [valueFront, parens, toList_copies, word, space]
  · simp [valueFront, parens, word, space, isInline]
  · simp [valueFront, parens]
  · simp
  · have hvalue : s.advance.advance.toCome = List.replicate n Token.openParen ++
        Token.number :: (List.replicate n Token.closeParen ++ [Token.dotDot]) := by
      rw [TokenStream.toCome_advance (TokenStream.toCome_advance hs)]
      simp
    obtain ⟨s', hend, hreads⟩ := statement_readsIf_constant hs (needs_parens n (by decide) hvalue)
    exact ⟨s', hend, hreads.congr (by rw [maxNesting]; omega)⟩

/-- A sign takes one level. -/
theorem signs_isLimited (n : Nat) :
    grammar.IsLimited Kind.dotDot ("x = " ++ copies n "- " ++ "1" ++ "..") (n ≤ 127) := by
  let signs : List (Segment Token) := Segment.copies n [word Token.minus ['-'], space]
  have hsigns : AreTaken lexicon ['1', '.', '.'] signs :=
    signs_areTaken minus_isTaken (by rintro c ⟨⟩; rfl) n
  have htaken : AreTaken lexicon []
      (valueFront ++ (signs ++ [word Token.number ['1'], word Token.dotDot ['.', '.']])) :=
    .append (valueFront_areTaken (by cases n <;> rintro c ⟨⟩ <;> rfl))
      (.append hsigns ⟨one_isTaken (.inl rfl), dotDot_isTaken _, trivial⟩)
  refine isLimited_of_segments .argumentName
    (.equals :: (List.replicate n Token.minus ++ [Token.number])) ?_ htaken ?_ ?_ ?_ fun s hs => ?_
  · simp [valueFront, signs, toList_copies, word, space]
  · simp [valueFront, signs, word, space, isInline]
  · simp [valueFront, signs]
  · simp
  · have hvalue : s.advance.advance.toCome =
        List.replicate n Token.minus ++ Token.number :: Token.dotDot :: [] := by
      rw [TokenStream.toCome_advance (TokenStream.toCome_advance hs)]
      simp
    obtain ⟨s', hend, hreads⟩ := statement_readsIf_constant hs (needs_signs n (by decide) hvalue)
    exact ⟨s', hend, hreads.congr (by rw [maxNesting]; omega)⟩

/-- A type with one parameter, up to the type of the parameter. -/
def paramFront : List (Segment Token) :=
  [word Token.typeKeyword ['t', 'y', 'p', 'e'], space, word Token.typeName ['T'], space,
    word Token.argumentName ['x'], word Token.colon [':'], space]

theorem paramFront_areTaken {after : List Char} (h : ∀ c ∈ after.head?, isGap c = false) :
    AreTaken lexicon after paramFront :=
  ⟨⟨'t', ['y', 'p', 'e'], rfl, rfl⟩, ⟨' ', [], rfl, rfl⟩, ⟨'T', [], rfl, rfl⟩, ⟨' ', [], rfl, rfl⟩,
    ⟨'x', [], rfl, rfl⟩, ⟨':', [], rfl, rfl⟩, isTaken_space h, trivial⟩

theorem list_isTaken (after : List Char) :
    (word Token.typeName ['L', 'i', 's', 't']).IsTaken lexicon ('<' :: after) :=
  ⟨'L', ['i', 's', 't'], rfl, rfl⟩

/-- The name of a type is cut off by dots or by an angle bracket. -/
theorem int_isTaken {after : List Char} (h : after.head? = some '.' ∨ after.head? = some '>') :
    (word Token.typeName ['I', 'n', 't']).IsTaken lexicon after := by
  rcases h with h | h <;> obtain ⟨after, rfl⟩ := List.head?_eq_some_iff.1 h <;>
    exact ⟨'I', ['n', 't'], rfl, rfl⟩

/-- An angle bracket is no part of a longer mark in front of a name. -/
theorem less_isTaken {after : List Char} (h : after.head? = some 'I' ∨ after.head? = some 'L') :
    (word Token.less ['<']).IsTaken lexicon after := by
  rcases h with h | h <;> obtain ⟨after, rfl⟩ := List.head?_eq_some_iff.1 h <;>
    exact ⟨'<', [], rfl, rfl⟩

theorem greater_isTaken {after : List Char} (h : after.head? = some '.' ∨ after.head? = some '>') :
    (word Token.greater ['>']).IsTaken lexicon after := by
  rcases h with h | h <;> obtain ⟨after, rfl⟩ := List.head?_eq_some_iff.1 h <;>
    exact ⟨'>', [], rfl, rfl⟩

/-- The arguments of a type take one level. -/
theorem arguments_isLimited (n : Nat) :
    grammar.IsLimited Kind.dotDot
      ("type T x: " ++ copies n "List<" ++ "Int" ++ copies n ">" ++ "..") (n ≤ 127) := by
  let types : List (Segment Token) :=
    Segment.copies n [word Token.typeName ['L', 'i', 's', 't'], word Token.less ['<']] ++
      word Token.typeName ['I', 'n', 't'] :: Segment.copies n [word Token.greater ['>']]
  have htypes : AreTaken lexicon ['.', '.'] types := by
    refine .append (.copies n fun _ h => ⟨list_isTaken _, less_isTaken h, trivial⟩)
      ⟨int_isTaken ?_, .copies n fun _ h => ⟨greater_isTaken h, trivial⟩⟩
    cases n with
    | zero => exact .inl rfl
    | succ n => exact .inr rfl
  have htaken : AreTaken lexicon [] (paramFront ++ (types ++ [word Token.dotDot ['.', '.']])) :=
    .append (paramFront_areTaken (by cases n <;> rintro c ⟨⟩ <;> rfl))
      (.append htypes ⟨dotDot_isTaken _, trivial⟩)
  refine isLimited_of_segments .typeKeyword (.typeName :: .argumentName :: .colon ::
    ((List.replicate n [Token.typeName, .less]).flatten ++
      Token.typeName :: List.replicate n Token.greater)) ?_ htaken ?_ ?_ ?_ fun s hs => ?_
  · simp [paramFront, types, toList_copies, word, space]
  · simp [paramFront, types, word, space, isInline]
  · simp [paramFront, types]
  · simp
  · have htype : s.advance.advance.advance.advance.toCome =
        (List.replicate n [Token.typeName, .less]).flatten ++
          Token.typeName :: (List.replicate n Token.greater ++ [Token.dotDot]) := by
      rw [TokenStream.toCome_advance (TokenStream.toCome_advance (TokenStream.toCome_advance
        (TokenStream.toCome_advance hs)))]
      simp
    obtain ⟨s', hend, hreads⟩ :=
      statement_readsIf_param hs (needs_typeArguments n (by decide) htype)
    exact ⟨s', hend, hreads.congr (by rw [maxNesting]; omega)⟩

end Peopl

namespace Simpl

theorem minus_isTaken (after : List Char) : (word .minus ['-']).IsTaken lexicon (' ' :: after) :=
  ⟨'-', [], rfl, rfl⟩

theorem openParen_isTaken (after : List Char) : (word .openParen ['(']).IsTaken lexicon after :=
  ⟨'(', [], rfl, rfl⟩

theorem closeParen_isTaken (after : List Char) : (word .closeParen [')']).IsTaken lexicon after :=
  ⟨')', [], rfl, rfl⟩

/-- A number is cut off by the end of the line or a closing parenthesis. -/
theorem one_isTaken {after : List Char} (h : after = ['\n'] ∨ after.head? = some ')') :
    (word .number ['1']).IsTaken lexicon after := by
  rcases h with rfl | h
  · exact ⟨'1', [], rfl, rfl⟩
  · obtain ⟨after, rfl⟩ := List.head?_eq_some_iff.1 h
    exact ⟨'1', [], rfl, rfl⟩

/-- Parentheses that begin a step are no operand of their own, so they take one level each. -/
theorem parens_isLimited (n : Nat) :
    grammar.IsLimited Kind.dot (copies n "(" ++ "1" ++ copies n ")" ++ "\n") (n ≤ 126) := by
  have htaken := parens_areTaken openParen_isTaken closeParen_isTaken n fun _ => one_isTaken
  have htokens : tokensOf (Segment.copies n [word Token.openParen ['(']] ++
      word Token.number ['1'] :: Segment.copies n [word Token.closeParen [')']]) =
        List.replicate n Token.openParen ++ Token.number ::
          (List.replicate n Token.closeParen ++ []) := by simp
  refine isLimited_of_segments ?_ htaken ?_ ?_ fun s hs => ?_
  · simp [toList_copies, word]
  · simp [word, isInline]
  · simp
  · rw [htokens] at hs
    obtain ⟨s', hs', hneeds⟩ := needs_parens n (by simp) hs
    obtain ⟨t, hp, ht⟩ : ∃ t, s.peek = some t ∧
        t ∉ [Token.typeKeyword, .contractKeyword, .funcKeyword] := by
      cases n <;> exact ⟨_, TokenStream.peek_of_toCome hs, by decide⟩
    exact ⟨s', TokenStream.atEnd_of_toCome hs', (statement_readsIf hp ht hneeds).congr
      (by rw [maxNesting]; omega)⟩

/-- A sign takes one level. -/
theorem signs_isLimited (n : Nat) :
    grammar.IsLimited Kind.dot (copies n "- " ++ "1" ++ "\n") (n ≤ 126) := by
  have hsigns : AreTaken lexicon ['1', '\n'] (Segment.copies n [word Token.minus ['-'], space]) :=
    signs_areTaken minus_isTaken (by rintro c ⟨⟩; rfl) n
  have htaken : AreTaken lexicon ['\n'] (Segment.copies n [word Token.minus ['-'], space] ++
      [word Token.number ['1']]) := .append hsigns ⟨one_isTaken (.inl rfl), trivial⟩
  have htokens : tokensOf (Segment.copies n [word Token.minus ['-'], space] ++
      [word Token.number ['1']]) = List.replicate n Token.minus ++ Token.number :: [] := by simp
  refine isLimited_of_segments ?_ htaken ?_ ?_ fun s hs => ?_
  · simp [toList_copies, word, space]
  · simp [word, space, isInline]
  · simp
  · rw [htokens] at hs
    obtain ⟨s', hs', hneeds⟩ := needs_signs n hs
    have hends : ExpressionEnds s' := .of_toCome hs' (by simp)
    obtain ⟨t, hp, ht, ht'⟩ : ∃ t, s.peek = some t ∧
        t ∉ [Token.typeName, .openBrace, .fieldName, .openParen, .pipe] ∧
          t ∉ [Token.typeKeyword, .contractKeyword, .funcKeyword] := by
      cases n <;> exact ⟨_, TokenStream.peek_of_toCome hs, by decide, by decide⟩
    exact ⟨s', TokenStream.atEnd_of_toCome hs', (statement_readsIf hp ht'
      (needs_simple hp ht hneeds hends)).congr (by rw [maxNesting]; omega)⟩

end Simpl

/-- How many parentheses, signs and type arguments a source may nest. One more, and the whole
    statement is an error node, with the only error that rules are nested too deeply. -/
theorem nesting_limits :
    Peopl.grammar.LimitsNesting Peopl.Kind.dotDot
      (fun n => "x = " ++ copies n "(" ++ "1" ++ copies n ")" ++ "..") 63 ∧
    Peopl.grammar.LimitsNesting Peopl.Kind.dotDot
      (fun n => "x = " ++ copies n "- " ++ "1" ++ "..") 127 ∧
    Peopl.grammar.LimitsNesting Peopl.Kind.dotDot
      (fun n => "type T x: " ++ copies n "List<" ++ "Int" ++ copies n ">" ++ "..") 127 ∧
    Simpl.grammar.LimitsNesting Simpl.Kind.dot
      (fun n => copies n "(" ++ "1" ++ copies n ")" ++ "\n") 126 ∧
    Simpl.grammar.LimitsNesting Simpl.Kind.dot (fun n => copies n "- " ++ "1" ++ "\n") 126 :=
  ⟨.of_isLimited (by decide) Peopl.parens_isLimited,
    .of_isLimited (by decide) Peopl.signs_isLimited,
    .of_isLimited (by decide) Peopl.arguments_isLimited,
    .of_isLimited (by decide) Simpl.parens_isLimited,
    .of_isLimited (by decide) Simpl.signs_isLimited⟩

end GrammarTools
