import GrammarTools.Proofs.Peopl.Recovery
import GrammarTools.Proofs.Reporting
import GrammarTools.Proofs.Splice

/-!
# Empty statements of PeoPl

The two dots alone cut a source into the parts that the root has for children
(`Cut`): a token with all tokens up to the next two dots, then these two dots, and
so on. It makes no difference whether a statement is whole or broken, for a whole one
has no two dots inside, and a broken one is given up in front of two dots.

But the first token of a part belongs to it in any case, even if it is two dots
itself. A statement that should begin there is empty, and the part goes on behind
its two dots. So a token behind two dots begins a new child of the root, unless the
two dots are an empty statement and the token is something else than two dots; and
then an error reaches over both (`begins_child_behind_dotDot_iff`).
-/

namespace GrammarTools.Peopl

open TokenStream

variable {s : TokenStream Token} {lexemes body before after : List (Lexeme Token)}
  {l m d : Lexeme Token} {node : RawNode} {nodes : List RawNode} {errors : List SyntaxError}

/-! ## Parts -/

/-- A node for a token and the tokens behind it, which are no two dots. -/
structure IsPart (l : Lexeme Token) (body : List (Lexeme Token)) (node : RawNode) : Prop where
  open_body : ∀ m ∈ body, m.token ≠ .dotDot
  frames : Mark.Frames (Mark.ofLexemes (l :: body)) node.span
  error : l.token = .dotDot → node.isError = true

/-- Tokens cut in front of and behind every second two dots, and a node for each part. -/
inductive Cut : List (Lexeme Token) → List RawNode → Prop
  | nil : Cut [] []
  | last {l : Lexeme Token} {body : List (Lexeme Token)} {node : RawNode} :
      IsPart l body node → Cut (l :: body) [node]
  | cons {l d : Lexeme Token} {body rest : List (Lexeme Token)} {node : RawNode}
      {nodes : List RawNode} : IsPart l body node → d.token = .dotDot → Cut rest nodes →
        Cut (l :: body ++ d :: rest) (node :: .leaf Kind.dotDot d.span :: nodes)

/-- A whole statement is a part, and two dots follow. -/
theorem exists_part_of_statement_ok {found : List RawNode} {s' : TokenStream Token}
    (h : statement s = .ok (found, s')) (ho : Mark.Ordered (Mark.ofLexemes s.upcoming)) :
    ∃ l body d node, IsPart l body node ∧ d.token = .dotDot ∧
      s.upcoming = l :: body ++ d :: s'.upcoming ∧ found = [node, .leaf Kind.dotDot d.span] := by
  rw [statement_eq] at h
  cases hopen : openStatement s with
  | error e => rw [hopen] at h; cases h
  | ok x =>
    obtain ⟨node, t⟩ := x
    rw [hopen] at h
    dsimp only at h
    split at h
    · cases h
      obtain ⟨d, rest, ht, hd, ha⟩ := TokenStream.exists_upcoming (peek_of_isAt ‹_›)
      -- A statement is read as if the source ended at the next two dots, so it has none inside.
      have hs : upToDotDot.Places s s := Likeness.Alike.refl (fun _ => rfl) s.upcoming
      obtain ⟨_, _, -, -, hmoves⟩ := (openStatement_parallel isStop_upToDotDot hs).of_ok hopen
      obtain ⟨taken, _, htakes, -, -, hstop⟩ := hmoves.takes
      obtain ⟨own, hown, hrecords⟩ := (openStatement_reads hopen).spells.transcribes
      obtain rfl : own = taken := List.append_cancel_right (hown.symm.trans htakes.upcoming)
      have hframes : Mark.Frames (Mark.ofLexemes own) node.span := by
        rw [hown] at ho
        exact (hrecords ho.left).frames rfl rfl
      obtain ⟨l, body, rfl⟩ : ∃ l body, own = l :: body :=
        List.exists_cons_of_ne_nil fun hnil => hframes.ne_nil (hnil ▸ rfl)
      refine ⟨l, body, d, node, ⟨fun m hm => ?_, hframes, fun hl => ?_⟩, hd, ?_, ?_⟩
      · exact hstop m (List.mem_cons_of_mem _ hm)
      · exact absurd hl (hstop l List.mem_cons_self)
      · rw [hown, ht, ha]
      · rw [TokenStream.span, ht]
    · cases h

/-- A broken statement is a part, up to two dots or the end. -/
theorem exists_part_of_recover (hu : s.upcoming = l :: after)
    (ho : Mark.Ordered (Mark.ofLexemes s.upcoming)) :
    ∃ body node, IsPart l body node ∧
      ((after = body ∧ (recover s).1 = [node] ∧ (recover s).2.upcoming = []) ∨
        ∃ d, d.token = .dotDot ∧ after = body ++ d :: (recover s).2.upcoming ∧
          (recover s).1 = [node, .leaf Kind.dotDot d.span]) := by
  -- The first token is skipped in any case, even if it is two dots.
  let body := after.takeWhile (·.token ≠ .dotDot)
  have hafter : body ++ after.dropWhile (·.token ≠ .dotDot) = after :=
    List.takeWhile_append_dropWhile
  have hframes : Mark.Frames (Mark.ofLexemes (l :: body)) (spanOver l.span body) := by
    rw [hu, ← hafter, ← List.cons_append] at ho
    exact Mark.Frames.spanOver (.singleton ⟨l.span, false⟩) ho.left
  refine ⟨body, .error (spanOver l.span body) [], ⟨fun m hm => ?_, hframes, fun _ => rfl⟩, ?_⟩
  · simpa using List.mem_takeWhile_imp hm
  rw [recover_eq hu]
  dsimp only
  cases hd : after.dropWhile (·.token ≠ .dotDot) with
  | nil =>
    rw [hd, List.append_nil] at hafter
    exact .inl ⟨hafter.symm, rfl, rfl⟩
  | cons d rest =>
    have hhead := List.head?_dropWhile_not (fun m : Lexeme Token => m.token ≠ .dotDot) after
    rw [hd] at hhead hafter
    exact .inr ⟨d, by simpa using hhead, hafter.symm, rfl⟩

/-- The run over some tokens cuts them. -/
theorem cut_of_run (h : grammar.Run s nodes errors)
    (ho : Mark.Ordered (Mark.ofLexemes s.upcoming)) : Cut s.upcoming nodes := by
  -- Each round of the run makes a part, and is followed by two dots or by the end.
  induction h with
  | @done s hend =>
    rw [atEnd, List.isEmpty_iff] at hend
    rw [hend]
    exact .nil
  | @statement s s₁ found nodes errors hend hstatement _ ih =>
    obtain ⟨l, body, d, node, hpart, hd, hu, rfl⟩ := exists_part_of_statement_ok hstatement ho
    rw [hu] at ho ⊢
    exact .cons hpart hd (ih ho.behind)
  | @broken s s₁ e found nodes errors hend _ hrecover _ ih =>
    obtain ⟨l, after, hu⟩ := exists_cons_of_atEnd hend
    obtain ⟨body, node, hpart, hcase⟩ := exists_part_of_recover hu ho
    change recover s = _ at hrecover
    rw [hrecover] at hcase
    rw [hu] at ho ⊢
    rcases hcase with ⟨rfl, rfl, hdone⟩ | ⟨d, hd, rfl, rfl⟩
    · have hcut := ih (hdone ▸ ⟨by simp [Mark.ofLexemes], .nil⟩)
      rw [hdone] at hcut
      cases hcut
      exact .last hpart
    · rw [← List.cons_append] at ho ⊢
      exact .cons hpart hd (ih ho.behind)

/-! ## Where a statement begins -/

/-- Whether a statement begins behind some tokens. It does so in front of all tokens, and behind
    two dots, unless these stand where a statement begins. -/
def beginsBehind (tokens : List Token) : Bool :=
  tokens.foldl (fun begins t => t == .dotDot && !begins) true

theorem beginsBehind_concat (tokens : List Token) (t : Token) :
    beginsBehind (tokens ++ [t]) = (t == .dotDot && !beginsBehind tokens) :=
  List.foldl_concat _ _ _ _

theorem beginsBehind_inside (h : ∀ m ∈ body, m.token ≠ .dotDot) :
    beginsBehind ((l :: body).map Lexeme.token) = false := by
  rw [beginsBehind, List.map_cons, List.foldl_cons, Bool.not_true, Bool.and_false]
  induction body with
  | nil => rfl
  | cons m body ih =>
    have hm : (m.token == .dotDot) = false := beq_false_of_ne (h m List.mem_cons_self)
    rw [List.map_cons, List.foldl_cons, hm, Bool.false_and]
    exact ih fun m hmem => h m (List.mem_cons_of_mem _ hmem)

theorem beginsBehind_dotDot (h : ∀ m ∈ body, m.token ≠ .dotDot) (hd : d.token = .dotDot)
    (tokens : List Token) :
    beginsBehind ((l :: body ++ [d]).map Lexeme.token ++ tokens) = beginsBehind tokens := by
  have hstart : beginsBehind ((l :: body ++ [d]).map Lexeme.token) = true := by
    rw [List.map_append, List.map_singleton, beginsBehind_concat, beginsBehind_inside h, hd]
    rfl
  rw [beginsBehind, List.foldl_append, ← beginsBehind, hstart, beginsBehind]

/-- Where a token of a source stands in its part: it begins the part, it is the two dots behind
    the part, or it is inside. -/
inductive Place (begins : Bool) (m : Lexeme Token) (after : List (Lexeme Token)) (node : RawNode) :
    Prop
  | first : begins = true → IsPart m (after.takeWhile (·.token ≠ .dotDot)) node →
      Place begins m after node
  | dots : begins = false → m.token = .dotDot → node.span = m.span → Place begins m after node
  | inside : begins = false → m.token ≠ .dotDot → node.span.start < m.span.start →
      m.span.stop ≤ node.span.stop → Place begins m after node

/-- Behind a token of a part there are no two dots in it. -/
theorem IsPart.open_behind {inside : List (Lexeme Token)} (h : IsPart l body node)
    (hbody : l :: body = before ++ m :: inside) : ∀ n ∈ inside, n.token ≠ .dotDot := by
  intro n hn
  refine h.open_body n ?_
  cases before with
  | nil =>
    obtain ⟨-, rfl⟩ := List.cons_eq_cons.1 hbody
    exact hn
  | cons l' before =>
    obtain ⟨-, rfl⟩ := List.cons_eq_cons.1 hbody
    exact List.mem_append_right _ (List.mem_cons_of_mem _ hn)

theorem IsPart.exists_place {inside : List (Lexeme Token)} (h : IsPart l body node)
    (hbody : l :: body = before ++ m :: inside)
    (hafter : after.takeWhile (·.token ≠ .dotDot) = inside)
    (ho : Mark.Ordered (Mark.ofLexemes (l :: body))) :
    Place (beginsBehind (before.map Lexeme.token)) m after node := by
  cases before with
  | nil =>
    obtain ⟨rfl, rfl⟩ := List.cons_eq_cons.1 hbody
    exact .first rfl (hafter ▸ h)
  | cons l' before =>
    obtain ⟨rfl, rfl⟩ := List.cons_eq_cons.1 hbody
    have hbefore : ∀ m ∈ before, m.token ≠ .dotDot := fun m hm =>
      h.open_body m (List.mem_append_left _ hm)
    have hmem : (⟨m.span, false⟩ : Mark) ∈ Mark.ofLexemes (before ++ m :: inside) :=
      Mark.mem_ofLexemes (by simp)
    refine .inside (beginsBehind_inside hbefore) (h.open_body m (by simp)) ?_
      (h.frames.le_stop ho (List.mem_cons_of_mem _ hmem))
    have hstart : l.span.start = node.span.start := Option.some.inj h.frames.start
    rw [← hstart]
    exact ho.start_lt hmem

/-- Every token has a place in its part. -/
theorem Cut.exists_place (h : Cut (before ++ m :: after) nodes)
    (ho : Mark.Ordered (Mark.ofLexemes (before ++ m :: after))) :
    ∃ node ∈ nodes, Place (beginsBehind (before.map Lexeme.token)) m after node := by
  generalize hlexemes : before ++ m :: after = lexemes at h ho
  induction h generalizing before with
  | nil => simp at hlexemes
  | @last l body node hpart =>
    refine ⟨node, List.mem_singleton_self _, hpart.exists_place hlexemes.symm ?_ ho⟩
    exact List.takeWhile_eq_self_iff.2 (by simpa using hpart.open_behind hlexemes.symm)
  | @cons l d body rest node nodes hpart hd _ ih =>
    have hdots : Place (beginsBehind ((l :: body).map Lexeme.token)) d rest
        (.leaf Kind.dotDot d.span) := .dots (beginsBehind_inside hpart.open_body) hd rfl
    -- The token is in the first part, it is the two dots behind it, or it stands further on.
    rcases List.append_eq_append_iff.1 hlexemes with
      ⟨inside, hbody, hafter⟩ | ⟨left, hbefore, hrest⟩
    · cases inside with
      | nil =>
        obtain ⟨rfl, rfl⟩ := List.cons_eq_cons.1 hafter
        rw [List.append_nil] at hbody
        exact ⟨_, by simp, hbody ▸ hdots⟩
      | cons m' inside =>
        rw [List.cons_append] at hafter
        obtain ⟨rfl, rfl⟩ := List.cons_eq_cons.1 hafter
        refine ⟨node, List.mem_cons_self, hpart.exists_place hbody ?_ ho.left⟩
        have hpass : ∀ m ∈ inside, decide (m.token ≠ .dotDot) = true := by
          simpa using hpart.open_behind hbody
        rw [List.takeWhile_append_of_pos hpass, List.takeWhile_cons_of_neg (by simp [hd]),
          List.append_nil]
    · cases left with
      | nil =>
        obtain ⟨rfl, rfl⟩ := List.cons_eq_cons.1 hrest
        rw [List.append_nil] at hbefore
        exact ⟨_, by simp, hbefore ▸ hdots⟩
      | cons d' left =>
        obtain ⟨rfl, rfl⟩ := List.cons_eq_cons.1 hrest
        obtain ⟨n, hn, hplace⟩ := ih rfl ho.behind
        refine ⟨n, List.mem_cons_of_mem _ (List.mem_cons_of_mem _ hn), ?_⟩
        rw [hbefore, List.append_cons, List.map_append, beginsBehind_dotDot hpart.open_body hd]
        exact hplace

/-! ## Children of the root -/

theorem Place.of_eq {begins : Bool} {node' : RawNode} (h : Place begins m after node)
    (hkind : node'.kind = node.kind) (hspan : node'.span = node.span) :
    Place begins m after node' := by
  have herror : node'.isError = node.isError := by rw [RawNode.isError, RawNode.isError, hkind]
  cases h with
  | first hb hpart =>
    exact .first hb ⟨hpart.open_body, hspan ▸ hpart.frames, fun hm => herror.trans (hpart.error hm)⟩
  | dots hb hm h => exact .dots hb hm (hspan.trans h)
  | inside hb hm hstart hstop => exact .inside hb hm (hspan ▸ hstart) (hspan ▸ hstop)

/-- Children of the root that overlap are the same. -/
theorem eq_of_overlap {source : String} {a b : RawNode}
    (ha : a ∈ (grammar.parse source).root.children) (hb : b ∈ (grammar.parse source).root.children)
    (hab : a.span.start < b.span.stop) (hba : b.span.start < a.span.stop) : a = b := by
  have hnested := grammar.isWellNested_parse grammar_isProgressive grammar_isFaithful source
  exact Span.eq_of_overlap (hnested.apart _ (RawNode.self_mem_preorder _)) ha hb hab hba

section parse

variable {source : String} (hlexemes : (lexicon.lex source).lexemes = before ++ m :: after)
include hlexemes

/-- Every token of a source has a place in a child of the root. -/
theorem exists_place_parse : ∃ n ∈ (grammar.parse source).root.children,
    Place (beginsBehind (before.map Lexeme.token)) m after n := by
  have ho := lexicon.ordered_lexemes source
  have hcut := cut_of_run (Grammar.run_statements grammar_isProgressive (grammar.start source)) ho
  have hupcoming : (grammar.start source).upcoming = before ++ m :: after := hlexemes
  rw [hlexemes] at ho
  rw [hupcoming] at hcut
  obtain ⟨node, hnode, hplace⟩ := hcut.exists_place ho
  obtain ⟨n, hn, hkind, hspan⟩ := grammar.exists_mem_children_addComments
    (.branchAt grammar.root ⟨0, Text.byteLength source.toList⟩ _) hnode
    (lexicon.lex source).comments
  exact ⟨n, hn, hplace.of_eq hkind hspan⟩

theorem span_lt : m.span.start < m.span.stop := by
  have ho := lexicon.ordered_lexemes source
  rw [hlexemes] at ho
  exact ho.lexeme_lt (by simp)

/-- No child of the root begins inside another one. -/
theorem not_begins_child {n : RawNode} (hn : n ∈ (grammar.parse source).root.children)
    (hstart : n.span.start < m.span.start) (hstop : m.span.stop ≤ n.span.stop) :
    ¬ ∃ n ∈ (grammar.parse source).root.children, n.span.start = m.span.start := by
  rintro ⟨n', hn', heq⟩
  have hlt := span_lt hlexemes
  have hpos := (grammar.isWellNested_parse grammar_isProgressive grammar_isFaithful source).lt n'
    (RawNode.mem_preorderAll _ hn' (RawNode.self_mem_preorder _))
  obtain rfl := eq_of_overlap hn hn' (by omega) (by omega)
  omega

/-- The first tokens of the children are those where a statement begins, and all two dots. -/
theorem begins_child_iff : (∃ n ∈ (grammar.parse source).root.children,
      n.span.start = m.span.start) ↔
    beginsBehind (before.map Lexeme.token) = true ∨ m.token = .dotDot := by
  obtain ⟨node, hnode, hplace⟩ := exists_place_parse hlexemes
  cases hplace with
  | first hb hpart =>
    exact iff_of_true ⟨node, hnode, (Option.some.inj hpart.frames.start).symm⟩ (.inl hb)
  | dots _ hm h => exact iff_of_true ⟨node, hnode, congrArg Span.start h⟩ (.inr hm)
  | inside hb hm hstart hstop =>
    exact iff_of_false (not_begins_child hlexemes hnode hstart hstop) (by simp [hb, hm])

end parse

/-- An error is a child of the root. -/
theorem mem_errors {source : String} : node ∈ (grammar.parse source).root.errors ↔
    node ∈ (grammar.parse source).root.children ∧ node.isError = true := by
  obtain ⟨-, -, -, -, -, hchildren⟩ := Grammar.exists_errors grammar_isProgressive source
    (grammar_reports (lexicon.isRow source)) (by decide) (by decide)
  rw [RawNode.errors_eq_filter hchildren, List.mem_filter]

/-- An error reaches over two dots and the next token if the two dots stand where a statement
    begins and the next token is something else. -/
theorem error_covers_iff {source : String}
    (hlexemes : (lexicon.lex source).lexemes = before ++ l :: m :: after)
    (hl : l.token = .dotDot) :
    (∃ n ∈ (grammar.parse source).root.errors, n.span.covers l.span = true ∧
      n.span.covers m.span = true) ↔
    beginsBehind (before.map Lexeme.token) = true ∧ m.token ≠ .dotDot := by
  constructor
  · rintro ⟨n, hn, hcovers, hcovers'⟩
    simp only [Span.covers, Bool.and_eq_true, decide_eq_true_eq] at hcovers hcovers'
    have hnext : (lexicon.lex source).lexemes = (before ++ [l]) ++ m :: after := by
      rw [hlexemes, List.append_cons]
    have hlt : l.span.start < m.span.start := by
      have ho := lexicon.ordered_lexemes source
      have hmem : (⟨m.span, false⟩ : Mark) ∈ Mark.ofLexemes (m :: after) := List.mem_cons_self
      rw [hlexemes] at ho
      exact ho.right.start_lt hmem
    -- No child begins at the second token, as the error reaches over it from in front of it.
    have hinside := not_begins_child hnext (mem_errors.1 hn).1 (by omega) hcovers'.2
    rw [begins_child_iff hnext, List.map_append, List.map_singleton, beginsBehind_concat,
      hl] at hinside
    simpa using hinside
  · rintro ⟨hbegins, hm⟩
    obtain ⟨n, hn, hplace⟩ := exists_place_parse hlexemes
    cases hplace with
    | first _ hpart =>
      -- The two dots begin a part, and the second token is in it.
      rw [List.takeWhile_cons_of_pos (by simpa using hm)] at hpart
      have ho := lexicon.ordered_lexemes source
      rw [hlexemes] at ho
      have hown := ho.right.sublist (List.Sublist.map _
        (.cons_cons l (.cons_cons m (List.takeWhile_sublist (·.token ≠ .dotDot) (l := after)))))
      have hcovers : ∀ k : Lexeme Token, (⟨k.span, false⟩ : Mark) ∈ Mark.ofLexemes
          (l :: m :: after.takeWhile (·.token ≠ .dotDot)) → n.span.covers k.span = true :=
        fun k hk => by
          simp [Span.covers, hpart.frames.start_le hown hk, hpart.frames.le_stop hown hk]
      exact ⟨n, mem_errors.2 ⟨hn, hpart.error hl⟩, hcovers l (Mark.mem_ofLexemes (by simp)),
        hcovers m (Mark.mem_ofLexemes (by simp))⟩
    | dots hb => rw [hb] at hbegins; cases hbegins
    | inside hb => rw [hb] at hbegins; cases hbegins

/-- A token behind two dots begins a child of the root, and no error reaches over both, unless the
    two dots are an empty statement and the token is something else than two dots. -/
theorem begins_child_behind_dotDot_iff {source : String} {i : Nat} {l m : Lexeme Token}
    (hl : (lexicon.lex source).lexemes[i]? = some l)
    (hm : (lexicon.lex source).lexemes[i + 1]? = some m) (hd : l.token = .dotDot) :
    ((∃ n ∈ (grammar.parse source).root.children, n.span.start = m.span.start) ↔
        ¬ (beginsBehind (((lexicon.lex source).lexemes.take i).map Lexeme.token) = true ∧
          m.token ≠ .dotDot)) ∧
      ((∃ n ∈ (grammar.parse source).root.errors,
          n.span.covers l.span = true ∧ n.span.covers m.span = true) ↔
        beginsBehind (((lexicon.lex source).lexemes.take i).map Lexeme.token) = true ∧
          m.token ≠ .dotDot) := by
  obtain ⟨hi, hl⟩ := List.getElem?_eq_some_iff.1 hl
  obtain ⟨hi', hm⟩ := List.getElem?_eq_some_iff.1 hm
  have hlexemes : (lexicon.lex source).lexemes =
      (lexicon.lex source).lexemes.take i ++
        l :: m :: (lexicon.lex source).lexemes.drop (i + 2) := by
    rw [← hm, List.getElem_cons_drop, ← hl, List.getElem_cons_drop, List.take_append_drop]
  refine ⟨?_, error_covers_iff hlexemes hd⟩
  rw [begins_child_iff ((List.append_cons ..).symm ▸ hlexemes), List.map_append, List.map_singleton,
    beginsBehind_concat, hd]
  simp [or_iff_not_imp_left]

/-- Two dots in front of a statement, whose first token begins no child of the root. -/
theorem begins_child_behind_dotDot_first :
    ((lexicon.lex ".. x = 1..").lexemes[0]? = some ⟨.dotDot, ⟨0, 2⟩, "..", true⟩ ∧
      (lexicon.lex ".. x = 1..").lexemes[0 + 1]? = some ⟨.argumentName, ⟨3, 4⟩, "x", false⟩) ∧
    (¬ ∃ n ∈ (grammar.parse ".. x = 1..").root.children, n.span.start = 3) ∧
      ∃ n ∈ (grammar.parse ".. x = 1..").root.errors,
        n.span.covers ⟨0, 2⟩ = true ∧ n.span.covers ⟨3, 4⟩ = true := by
  have hfirst : (lexicon.lex ".. x = 1..").lexemes[0]? =
      some ⟨.dotDot, ⟨0, 2⟩, "..", true⟩ := by cbv
  have hsecond : (lexicon.lex ".. x = 1..").lexemes[0 + 1]? =
      some ⟨.argumentName, ⟨3, 4⟩, "x", false⟩ := by cbv
  obtain ⟨hchild, herror⟩ := begins_child_behind_dotDot_iff hfirst hsecond rfl
  have hempty : beginsBehind (((lexicon.lex ".. x = 1..").lexemes.take 0).map Lexeme.token) =
      true ∧ Token.argumentName ≠ .dotDot := ⟨rfl, by decide⟩
  exact ⟨⟨hfirst, hsecond⟩, fun h => hchild.1 h hempty, herror.2 hempty⟩

/-- An empty statement swallows the statement behind it, which begins no child of the root. -/
theorem emptyStatement_swallows :
    ¬ ∀ (source : String) (i : Nat) (l m : Lexeme Token),
      (lexicon.lex source).lexemes[i]? = some l → (lexicon.lex source).lexemes[i + 1]? = some m →
        l.token = .dotDot → ∃ n ∈ (grammar.parse source).root.children,
          n.span.start = m.span.start := by
  intro h
  have hfirst : (lexicon.lex ".. x = 1..").lexemes[0]? =
      some ⟨.dotDot, ⟨0, 2⟩, "..", true⟩ := by cbv
  have hsecond : (lexicon.lex ".. x = 1..").lexemes[0 + 1]? =
      some ⟨.argumentName, ⟨3, 4⟩, "x", false⟩ := by cbv
  have hspans : (grammar.parse ".. x = 1..").root.children.map (·.span) = [⟨0, 8⟩, ⟨8, 10⟩] := by
    cbv
  obtain ⟨n, hn, hstart⟩ := h _ 0 _ _ hfirst hsecond rfl
  have hspan := List.mem_map_of_mem (f := fun n : RawNode => n.span) hn
  rw [hspans] at hspan
  simp only [List.mem_cons, List.not_mem_nil, or_false] at hspan
  rcases hspan with hspan | hspan <;> simp [hspan] at hstart

end GrammarTools.Peopl
