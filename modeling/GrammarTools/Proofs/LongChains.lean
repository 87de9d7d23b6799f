import GrammarTools.Proofs.Peopl.Chains
import GrammarTools.Proofs.Simpl.Chains

/-!
# Sources of one chain

Rules may be nested only so deeply, but a chain is no nesting: a sum, a row of accesses
and a row of steps may be as long as one likes. Each of them is read without an error,
and the tree is the left fold of its operands (`chains_nest_left`).

What is particular to a family is its link, the text between two operands and the node
that it makes (`Link`), and the head and the end of the statement around the chain. That
a link is read again and again is said once for all families (`Link.exists_rounds`).
-/

namespace GrammarTools

open Segment

namespace Peopl

/-- A dot in front of a name is a token by itself. -/
theorem dot_isTaken {c : Char} (hc : isNameChar c = true) (after : List Char) :
    (word .dot ['.']).IsTaken lexicon (c :: after) := by
  -- Two dots would be taken in front of one, but no name begins with a dot.
  have hdots : "..".toList.isPrefixOf ('.' :: c :: after) = false := by
    have hne : ('.' == c) = false := beq_eq_false_iff_ne.2 (by rintro rfl; cases hc)
    show (('.' == '.') && (('.' == c) && true)) = false
    rw [hne]
    rfl
  have hmark : lexicon.punctuationAt '.' (c :: after) = some (.dot, 0) := by
    have hcons : lexicon.punctuation = ("..", .dotDot) :: lexicon.punctuation.tail := rfl
    rw [Lexicon.punctuationAt, hcons, List.find?_cons]
    dsimp only
    rw [hdots]
    rfl
  refine ⟨'.', [], rfl, ?_⟩
  simp [Lexicon.roleAt, Lexicon.nameAt, hmark, isGap, word]

/-- Operands and operators are taken apart, up to the dots that end the statement. -/
theorem sum_areTaken (items : List Plain) :
    AreTaken lexicon (textOf ending) (sumLink.segments items) :=
  sumLink.spaced_areTaken lexicon_isRegular (by decide) rfl rfl rfl (fun _ => ⟨'+', [], rfl, rfl⟩)
    (by rintro c ⟨⟩; decide)

theorem pipe_areTaken (items : List Plain) :
    AreTaken lexicon (textOf ending) (pipeLink.segments items) :=
  pipeLink.spaced_areTaken lexicon_isRegular (by decide) rfl rfl rfl (fun _ => ⟨';', [], rfl, rfl⟩)
    (by rintro c ⟨⟩; decide)

/-- So are names with dots between. -/
theorem access_areTaken (items : List PlainName) :
    AreTaken lexicon (textOf ending) (accessLink.segments items) := by
  refine accessLink.segments_areTaken lexicon_isRegular (by decide) rfl (fun a behind => ?_)
    (by decide) (by rintro c ⟨⟩; decide)
  obtain ⟨c, cs, hcons, hc⟩ := a.exists_cons lexicon_isRegular (by decide)
  rw [hcons]
  exact ⟨dot_isTaken hc _, trivial⟩

theorem ending_areTaken : AreTaken lexicon [] ending :=
  ⟨isTaken_space (by rintro c ⟨⟩; rfl), dotDot_isTaken _, trivial⟩

/-- The constant `x` with a value that is written as some segments. -/
theorem makes_constant {source : String} {value : RawNode} (segments : List (Segment Token))
    (hsource : source.toList = textOf (valueFront ++ (segments ++ ending)))
    (htaken : AreTaken lexicon (textOf ending) segments)
    (hhead : ∀ c ∈ (textOf (segments ++ ending)).head?, isGap c = false)
    (hcomment : ∀ s ∈ segments, s.role ≠ .comment)
    (hvalue : ∀ s : TokenStream Token, s.upcoming = lexemesFrom 4 false (segments ++ ending) →
      ∃ s', s'.upcoming = lexemesFrom value.span.stop false ending ∧
        simpleExpression top s = .ok (value, s'))
    (hstop : 4 ≤ value.span.stop) : grammar.Makes source (ended (constantNode value)) := by
  refine Grammar.makes_of_segments hsource ?_ ?_ (by simp [valueFront]) fun s hs =>
    statement_constant hs hvalue hstop
  · refine .append (valueFront_areTaken ?_) (.append ?_ ending_areTaken) <;>
      rwa [List.append_nil]
  · simp only [List.forall_mem_append]
    exact ⟨by simp [valueFront, word, space], hcomment, by simp [ending, word, space]⟩

theorem functionFront_areTaken {after : List Char} (h : ∀ c ∈ after.head?, isGap c = false) :
    AreTaken lexicon after functionFront :=
  ⟨⟨'f', ['u', 'n', 'c'], rfl, rfl⟩, ⟨' ', [], rfl, rfl⟩, ⟨'f', [], rfl, rfl⟩, ⟨'(', [], rfl, rfl⟩,
    ⟨')', [], rfl, rfl⟩, ⟨' ', [], rfl, rfl⟩, ⟨'=', ['>'], rfl, rfl⟩, ⟨' ', [], rfl, rfl⟩,
    ⟨'I', ['n', 't'], rfl, rfl⟩, isTaken_space h, trivial⟩

theorem callSegments_areTaken (after : List Char) : AreTaken lexicon after callSegments :=
  ⟨⟨'f', [], rfl, rfl⟩, ⟨'(', [], rfl, rfl⟩, ⟨')', [], rfl, rfl⟩, trivial⟩

/-- Behind a chain the two dots come next, if anything does. -/
theorem mem_of_mem_head?_ending : ∀ t ∈ (tokensOf ending).head?, t ∈ [Token.dotDot] := by
  simp [ending]

/-- A sum as the value of a constant. -/
theorem makes_sum (first : Plain) (rest : List Plain) :
    grammar.Makes ("x = " ++ " + ".intercalate ((first :: rest).map Spelling.text) ++ " ..")
      (ended (constantNode (rest.foldl sumLink.step (plainLeaf first 4)))) := by
  refine makes_constant (first.segment :: sumLink.segments rest) ?_
    (sumLink.operands_areTaken first (sum_areTaken _)) ?_ ?_ (fun s hs => ?_) ?_
  · rw [List.map_cons, String.toList_append, String.toList_append,
      sumLink.toList_intercalate " + " rfl]
    simp [valueFront, ending, Spelling.segment, word, space]
  · exact first.isGap_head lexicon_isRegular (by decide) _
  · exact List.forall_mem_cons.2 ⟨first.role_segment, sumLink.role_segments⟩
  · exact simpleExpression_sum 127 first rest mem_of_mem_head?_ending hs
  · exact Nat.le_trans (Nat.le_add_right 4 _) (sumLink.le_stop_foldl rest (plainLeaf first 4))

/-- Accesses to a call as the value of a constant. -/
theorem makes_access (names : List PlainName) :
    grammar.Makes ("x = " ++ ".".intercalate ("f()" :: names.map Spelling.text) ++ " ..")
      (ended (constantNode (names.foldl accessLink.step (callNode 4)))) := by
  refine makes_constant (callSegments ++ accessLink.segments names) ?_
    (.append (callSegments_areTaken _) (access_areTaken names)) ?_ ?_ (fun s hs => ?_) ?_
  · rw [String.toList_append, String.toList_append, accessLink.toList_intercalate "." rfl]
    simp [valueFront, ending, callSegments, word, space]
  · rintro c ⟨⟩
    rfl
  · exact List.forall_mem_append.2 ⟨by simp [callSegments, word], accessLink.role_segments⟩
  · rw [List.append_assoc] at hs
    exact simpleExpression_access 127 names mem_of_mem_head?_ending hs
  · exact Nat.le_trans (by decide) (accessLink.le_stop_foldl names (callNode 4))

/-- Steps as the body of a function. -/
theorem makes_steps (first : Plain) (rest : List Plain) :
    grammar.Makes
      ("func f() => Int " ++ " ; ".intercalate ((first :: rest).map Spelling.text) ++ " ..")
      (ended (functionNode (rest.foldl pipeLink.step (plainLeaf first 16)))) := by
  let body := first.segment :: pipeLink.segments rest
  have hbody : AreTaken lexicon (textOf ending) body :=
    pipeLink.operands_areTaken first (pipe_areTaken (first :: rest))
  have htaken : AreTaken lexicon [] (functionFront ++ (body ++ ending)) := by
    refine .append (functionFront_areTaken ?_) (.append ?_ ending_areTaken)
    · rw [List.append_nil]
      exact first.isGap_head lexicon_isRegular (by decide) _
    · rwa [List.append_nil]
  refine Grammar.makes_of_segments ?_ htaken ?_ (by simp [functionFront]) fun s hs =>
    statement_function hs ?_ (fun s hs => ?_) ?_
  · rw [List.map_cons, String.toList_append, String.toList_append,
      pipeLink.toList_intercalate " ; " rfl]
    simp [body, functionFront, ending, Spelling.segment, word, space]
  · simp only [List.forall_mem_append]
    exact ⟨by simp [functionFront, word, space],
      List.forall_mem_cons.2 ⟨first.role_segment, pipeLink.role_segments⟩,
      by simp [ending, word, space]⟩
  · rintro t ⟨⟩
    have hmem : first.token ∈ [Token.number, .argumentName, .underscore] := first.token_mem
    generalize first.token = t at hmem ⊢
    revert t
    decide
  · exact pipeChain_steps 126 first rest mem_of_mem_head?_ending hs
  · exact Nat.le_trans (Nat.le_add_right 16 _) (pipeLink.le_stop_foldl rest (plainLeaf first 16))

end Peopl

namespace Simpl

/-- Line feeds, as one blank if there are some. -/
def lineFeeds : Nat → List (Segment Token)
  | 0 => []
  | n + 1 => [⟨.blank, List.replicate (n + 1) '\n'⟩]

/-- Line feeds are taken, as many as there are. -/
theorem lineFeeds_areTaken (n : Nat) : AreTaken lexicon [] (lineFeeds n) := by
  cases n with
  | zero => trivial
  | succ n =>
    refine ⟨⟨'\n', List.replicate n '\n', rfl, ?_⟩, trivial⟩
    have htake : (List.replicate n '\n').takeWhile isGap = List.replicate n '\n' :=
      List.takeWhile_eq_self_iff.2 fun c hc => List.eq_of_mem_replicate hc ▸ rfl
    rw [textOf_nil, List.append_nil, List.append_nil, Lexicon.roleAt_of_isGap rfl, htake]

theorem textOf_lineFeeds (n : Nat) : textOf (lineFeeds n) = (copies n "\n").toList := by
  cases n <;> simp [lineFeeds, toList_copies]

theorem tokensOf_lineFeeds (n : Nat) : tokensOf (lineFeeds n) = [] := by
  cases n <;> rfl

/-- A line with a chain. -/
theorem makes_line {link : Link lexicon [.number, .fieldName]} {sep : String} {first : Plain}
    {rest : List Plain} {node : RawNode} (n : Nat) (hsep : textOf link.between = sep.toList)
    (htaken : AreTaken lexicon (textOf (lineFeeds n)) (link.segments (first :: rest)))
    (hchain : ∀ s : TokenStream Token, s.upcoming =
        lexemesFrom 0 true (first.segment :: (link.segments rest ++ lineFeeds n)) →
      ∃ s', s'.atEnd = true ∧ pipeChain (level 127) s = .ok (node, s')) :
    grammar.Makes (sep.intercalate ((first :: rest).map Spelling.text) ++ copies n "\n")
      [node] := by
  have hsource : (sep.intercalate ((first :: rest).map Spelling.text) ++ copies n "\n").toList =
      textOf ((first.segment :: link.segments rest) ++ lineFeeds n) := by
    rw [List.map_cons, String.toList_append, link.toList_intercalate sep hsep, textOf_append,
      textOf_lineFeeds]
    rfl
  have hrow := link.operands_areTaken first htaken
  rw [← List.append_nil (textOf (lineFeeds n))] at hrow
  refine Grammar.makes_of_segments hsource (hrow.append (lineFeeds_areTaken n)) ?_
    (by simp [Spelling.segment]) fun s hs => ?_
  · have hfeeds : ∀ s ∈ lineFeeds n, s.role ≠ .comment := by cases n <;> simp [lineFeeds]
    exact List.forall_mem_append.2
      ⟨List.forall_mem_cons.2 ⟨first.role_segment, link.role_segments⟩, hfeeds⟩
  · have hfirst := hs
    rw [List.cons_append, Spelling.lexemesFrom_segment] at hfirst
    exact statement_plain first hfirst (hchain s hs)

/-- Operands and operators are taken apart, up to the line feeds. -/
theorem sum_areTaken (items : List Plain) (n : Nat) :
    AreTaken lexicon (textOf (lineFeeds n)) (sumLink.segments items) :=
  sumLink.spaced_areTaken lexicon_isRegular (by decide) rfl rfl rfl (fun _ => ⟨'+', [], rfl, rfl⟩)
    (by cases n <;> rintro c ⟨⟩; decide)

theorem pipe_areTaken (items : List Plain) (n : Nat) :
    AreTaken lexicon (textOf (lineFeeds n)) (pipeLink.segments items) :=
  pipeLink.spaced_areTaken lexicon_isRegular (by decide) rfl rfl rfl (fun _ => ⟨';', [], rfl, rfl⟩)
    (by cases n <;> rintro c ⟨⟩; decide)

/-- A sum of any length is one statement, and its tree is folded from the left. -/
theorem makes_sum (first : Plain) (rest : List Plain) (n : Nat) :
    grammar.Makes (" + ".intercalate ((first :: rest).map Spelling.text) ++ copies n "\n")
      [rest.foldl sumLink.step (plainLeaf first 0)] :=
  makes_line n rfl (sum_areTaken _ n) fun _ hs =>
    pipeChain_sum 126 first rest (tokensOf_lineFeeds n) hs

/-- So is a row of steps. -/
theorem makes_steps (first : Plain) (rest : List Plain) (n : Nat) :
    grammar.Makes (" ; ".intercalate ((first :: rest).map Spelling.text) ++ copies n "\n")
      [rest.foldl pipeLink.step (plainLeaf first 0)] :=
  makes_line n rfl (pipe_areTaken _ n) fun _ hs =>
    pipeChain_steps 126 first rest (tokensOf_lineFeeds n) hs

end Simpl

/-- A sum, accesses to a call and steps, in as long a row as one likes, are read without an error.
    The node for each operator has what stands in front of it as its first child. -/
theorem chains_nest_left :
    (∀ (first : Peopl.Plain) (rest : List Peopl.Plain),
      Peopl.grammar.Makes
        ("x = " ++ " + ".intercalate ((first :: rest).map Spelling.text) ++ " ..")
        (Peopl.ended (Peopl.constantNode
          (rest.foldl Peopl.sumLink.step (Peopl.plainLeaf first 4))))) ∧
    (∀ names : List Peopl.PlainName,
      Peopl.grammar.Makes
        ("x = " ++ ".".intercalate ("f()" :: names.map Spelling.text) ++ " ..")
        (Peopl.ended (Peopl.constantNode
          (names.foldl Peopl.accessLink.step (Peopl.callNode 4))))) ∧
    (∀ (first : Peopl.Plain) (rest : List Peopl.Plain),
      Peopl.grammar.Makes
        ("func f() => Int " ++ " ; ".intercalate ((first :: rest).map Spelling.text) ++ " ..")
        (Peopl.ended (Peopl.functionNode
          (rest.foldl Peopl.pipeLink.step (Peopl.plainLeaf first 16))))) ∧
    (∀ (first : Simpl.Plain) (rest : List Simpl.Plain) (lines : Nat),
      Simpl.grammar.Makes
        (" + ".intercalate ((first :: rest).map Spelling.text) ++ copies lines "\n")
        [rest.foldl Simpl.sumLink.step (Simpl.plainLeaf first 0)]) ∧
    ∀ (first : Simpl.Plain) (rest : List Simpl.Plain) (lines : Nat),
      Simpl.grammar.Makes
        (" ; ".intercalate ((first :: rest).map Spelling.text) ++ copies lines "\n")
        [rest.foldl Simpl.pipeLink.step (Simpl.plainLeaf first 0)] :=
  ⟨Peopl.makes_sum, Peopl.makes_access, Peopl.makes_steps, Simpl.makes_sum, Simpl.makes_steps⟩

/-- A name, a whole number and a fraction, added up from left to right. -/
theorem chains_nest_left_names :
    Peopl.grammar.Makes "x = y + 1 + 2.5 .."
      (Peopl.ended (Peopl.constantNode
        (Peopl.operators.node
          (Peopl.operators.node (.leaf Peopl.Kind.argumentName ⟨4, 5⟩)
            (.branch Peopl.Kind.additiveOperator [.leaf Peopl.Kind.plus ⟨6, 7⟩])
            (.leaf Peopl.Kind.intLiteral ⟨8, 9⟩))
          (.branch Peopl.Kind.additiveOperator [.leaf Peopl.Kind.plus ⟨10, 11⟩])
          (.leaf Peopl.Kind.floatLiteral ⟨12, 15⟩)))) := by
  have hkeywords : ∀ entry ∈ Peopl.lexicon.keywords, entry.1.toList ≠ [] ++ 'y' :: [] := by
    simp [Peopl.lexicon]
  have hname : Peopl.lexicon.Belongs .argumentName "y".toList :=
    @Lexicon.Belongs.name _ Peopl.lexicon [] [] 'y' (by simp) (absurd rfl) rfl (by simp) hkeywords
  have hwhole : Peopl.lexicon.Belongs .number "1".toList :=
    .number (List.cons_ne_nil '1' []) (by simp)
  have hfraction : Peopl.lexicon.Belongs .number "2.5".toList :=
    @Lexicon.Belongs.fraction _ Peopl.lexicon ['2'] ['5'] (by simp) (by simp) (by simp) (by simp)
  have hsource : "x = " ++ " + ".intercalate ["y", "1", "2.5"] ++ " .." = "x = y + 1 + 2.5 .." := by
    decide
  have hmakes := chains_nest_left.1 ⟨.argumentName, "y", hname, by decide⟩
    [⟨.number, "1", hwhole, by decide⟩, ⟨.number, "2.5", hfraction, by decide⟩]
  rw [← hsource]
  -- What is left is to compute the two spellings and the left fold.
  convert hmakes using 3 <;> cbv

end GrammarTools
