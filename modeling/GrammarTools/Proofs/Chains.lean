import GrammarTools.Proofs.Room

/-!
# Chains of operands

A chain is written operand by operand, each of them behind a token that joins it to
what stands in front. A `Link` says how an operand is written there and what node is
made of it; a chain is then a left fold (`Link.step`). A repetition that reads the
token and the operand in each round makes that fold (`Link.exists_rounds`), and so do
binary operators (`Link.extend_eq_ok`), because a ranked tree whose operators all bind
alike grows to the left (`Operators.treeNode_ofRow`).

Nothing of this depends on the length of the chain.
-/

namespace GrammarTools

open Relation Segment

variable {τ : Type} {lexicon : Lexicon τ} {tokens : List τ}

/-! ## The next token in its place -/

namespace TokenStream

variable {s : TokenStream τ} {l : Lexeme τ} {rest : List (Lexeme τ)}

theorem peek_of_upcoming (h : s.upcoming = l :: rest) : s.peek = some l.token := by
  simp [peek, peekNth, h]

theorem span_of_upcoming (h : s.upcoming = l :: rest) : s.span = l.span := by
  simp [span, h]

theorem text?_of_upcoming (h : s.upcoming = l :: rest) : s.text? = some l.text := by
  simp [text?, h]

theorem upcoming_advance (h : s.upcoming = l :: rest) : s.advance.upcoming = rest := by
  simp [advance, h]

/-- The next token of written segments is the first of their tokens. -/
theorem peek_of_segments {offset : Nat} {startsLine : Bool} {segments : List (Segment τ)}
    (h : s.upcoming = lexemesFrom offset startsLine segments) :
    s.peek = (tokensOf segments).head? := by
  rw [peek_eq_head?, toCome, h, map_token_lexemesFrom]

end TokenStream

/-- The next token as a leaf, where it stands. -/
theorem Rule.leaf_of_upcoming {s : TokenStream τ} {l : Lexeme τ} {rest : List (Lexeme τ)}
    (h : s.upcoming = l :: rest) (kind : KindId) :
    Rule.leaf kind s = .ok (.leaf kind l.span, s.advance) := by
  rw [Rule.leaf, TokenStream.span_of_upcoming h]

/-- What is expected is read as a leaf, if it comes next. -/
theorem Rule.expect_of_upcoming [DecidableEq τ] {s : TokenStream τ} {l : Lexeme τ}
    {rest : List (Lexeme τ)} {t : τ} (h : s.upcoming = l :: rest) (ht : l.token = t)
    (kind : KindId) (description : String) :
    Rule.expect t kind description s = .ok (.leaf kind l.span, s.advance) :=
  Rule.expect_eq_ok.2 ⟨ht ▸ TokenStream.peek_of_upcoming h,
    by rw [TokenStream.span_of_upcoming h], rfl⟩

/-- The next token as a number, where it stands. -/
theorem Rule.numeral_of_upcoming {s : TokenStream τ} {l : Lexeme τ} {rest : List (Lexeme τ)}
    (h : s.upcoming = l :: rest) (float int : KindId) :
    Rule.numeral float int s =
      .ok (.leaf (if l.text.toList.contains '.' then float else int) l.span, s.advance) := by
  rw [numeral, ask_bind, TokenStream.text?_of_upcoming h, Option.getD_some]
  split
  · exact leaf_of_upcoming h float
  · exact leaf_of_upcoming h int

/-- Without an operator in front, an operand is read as it is. -/
theorem Signs.signed_of_none {signs : Signs τ} {s : TokenStream τ}
    (h : s.peek.bind signs.form? = none) (plain operand : Rule τ RawNode) :
    signs.signed plain operand s = plain s := by
  rw [signed, Rule.peek_bind, h]

namespace Segment

theorem lexemesFrom_space (offset : Nat) (startsLine : Bool) (more : List (Segment τ)) :
    lexemesFrom offset startsLine (space :: more) = lexemesFrom (offset + 1) startsLine more := by
  have hcontains : (startsLine || [' '].contains '\n') = startsLine := by simp
  rw [lexemesFrom]
  simp only [space, hcontains]
  rfl

/-- A word is a lexeme with the length of its text. -/
theorem lexemesFrom_word (offset : Nat) (startsLine : Bool) (t : τ) (text : String)
    (more : List (Segment τ)) :
    lexemesFrom offset startsLine (word t text.toList :: more) =
      ⟨t, ⟨offset, offset + Text.byteLength text.toList⟩, text, startsLine⟩ ::
        lexemesFrom (offset + Text.byteLength text.toList) false more := by
  simp [word, lexemesFrom]

end Segment

/-! ## Spellings -/

/-- A text of one of some tokens. -/
structure Spelling (lexicon : Lexicon τ) (tokens : List τ) where
  /-- The token. -/
  token : τ
  /-- Its text. -/
  text : String
  belongs : lexicon.Belongs token text.toList
  token_mem : token ∈ tokens

/-- Some tokens that are neither strings nor punctuation. -/
def Lexicon.AreWords (lexicon : Lexicon τ) (tokens : List τ) : Prop :=
  lexicon.string ∉ tokens ∧ ∀ entry ∈ lexicon.punctuation, entry.2 ∉ tokens

instance [DecidableEq τ] : Decidable (lexicon.AreWords tokens) :=
  inferInstanceAs (Decidable (_ ∧ _))

/-- A character in front of which a text of one of some tokens ends. -/
def Lexicon.Cuts (lexicon : Lexicon τ) (tokens : List τ) (c : Char) : Prop :=
  isNameChar c = false ∧ (lexicon.number ∈ tokens → c ≠ '.')

instance [DecidableEq τ] (c : Char) : Decidable (lexicon.Cuts tokens c) :=
  inferInstanceAs (Decidable (_ ∧ _))

namespace Spelling

variable (a : Spelling lexicon tokens)

/-- Its place from an offset on. -/
def span (offset : Nat) : Span := ⟨offset, offset + Text.byteLength a.text.toList⟩

/-- The segment of its text. -/
def segment : Segment τ := .word a.token a.text.toList

/-- The token in its place. -/
def lexeme (offset : Nat) (startsLine : Bool) : Lexeme τ :=
  ⟨a.token, a.span offset, a.text, startsLine⟩

theorem role_segment : a.segment.role ≠ .comment := by simp [segment, word]

/-- Spelled words begin with a character of names. -/
theorem isNameChar_head (hl : lexicon.IsRegular) (hwords : lexicon.AreWords tokens) :
    ∀ c ∈ a.text.toList.head?, isNameChar c = true := by
  obtain ⟨token, text, hbelongs, hmem⟩ := a
  dsimp only
  generalize text.toList = cs at hbelongs
  intro c hc
  cases hbelongs with
  | keyword hkeyword =>
    exact List.all_eq_true.1 (hl.keyword _ hkeyword).2 c (List.mem_of_mem_head? hc)
  | name hfront _ hinitial hrest _ =>
    rcases List.mem_append.1 (List.mem_of_mem_head? hc) with h | h
    · exact hfront c h ▸ rfl
    · rcases List.mem_cons.1 h with rfl | h
      · exact Lexicon.isNameChar_of_isAlpha hinitial
      · exact hrest c h
  | underscores _ _ hall => exact hall c (List.mem_of_mem_head? hc) ▸ rfl
  | number _ hall => exact Lexicon.isNameChar_of_isDigit (hall c (List.mem_of_mem_head? hc))
  | @fraction whole _ hne hall =>
    obtain ⟨d, ds, rfl⟩ := List.exists_cons_of_ne_nil hne
    obtain rfl := Option.some.inj hc
    exact Lexicon.isNameChar_of_isDigit (hall _ List.mem_cons_self)
  | string => exact absurd hmem hwords.1
  | punctuation hmark => exact absurd hmem (hwords.2 _ hmark)

theorem exists_cons (hl : lexicon.IsRegular) (hwords : lexicon.AreWords tokens) :
    ∃ c cs, a.text.toList = c :: cs ∧ isNameChar c = true := by
  have hhead := a.isNameChar_head hl hwords
  obtain ⟨c, cs, hcons⟩ := List.exists_cons_of_ne_nil
    (Lexicon.IsKnown.ne_nil hl (.inr (.inr ⟨a.token, a.belongs⟩)))
  exact ⟨c, cs, hcons, hhead c (hcons ▸ rfl)⟩

theorem isGap_head (hl : lexicon.IsRegular) (hwords : lexicon.AreWords tokens)
    (after : List Char) : ∀ c ∈ (a.text.toList ++ after).head?, isGap c = false := by
  obtain ⟨c, cs, hcons, hc⟩ := a.exists_cons hl hwords
  rw [hcons]
  rintro d ⟨⟩
  exact (Lexicon.ne_of_isNameChar hc).2.2

/-- A spelled word is taken in front of anything that cuts it off. -/
theorem isTaken (hl : lexicon.IsRegular) (hwords : lexicon.AreWords tokens) {after : List Char}
    (hafter : ∀ c ∈ after.head?, lexicon.Cuts tokens c) : a.segment.IsTaken lexicon after :=
  Lexicon.isTaken_of_belongs hl a.belongs (a.isNameChar_head hl hwords) fun c hc =>
    ⟨(hafter c hc).1, fun hnumber => (hafter c hc).2 (hnumber ▸ a.token_mem)⟩

/-- A spelled word is one lexeme. -/
theorem lexemesFrom_segment (offset : Nat) (startsLine : Bool) (more : List (Segment τ)) :
    lexemesFrom offset startsLine (a.segment :: more) =
      a.lexeme offset startsLine :: lexemesFrom (a.span offset).stop false more :=
  lexemesFrom_word ..

end Spelling

/-! ## Links -/

/-- How an operand is written behind another one, and what is made of them. -/
structure Link (lexicon : Lexicon τ) (tokens : List τ) where
  /-- The token between. -/
  token : τ
  /-- The text of the token. -/
  mark : String
  /-- Whether a space stands on each side of it. -/
  isSpaced : Bool
  /-- The kind of the token. -/
  kind : KindId
  /-- The kind of the operand. -/
  operandKind : Spelling lexicon tokens → KindId
  /-- The node for two operands with the token between. -/
  join : RawNode → RawNode → RawNode → RawNode
  stop_join : ∀ left mark right, left.span.stop ≤ right.span.stop →
    (join left mark right).span.stop = right.span.stop

namespace Link

variable (link : Link lexicon tokens) {left : RawNode} {ends : List τ} {offset : Nat}
  {a : Spelling lexicon tokens} {items : List (Spelling lexicon tokens)}
  {more : List (Segment τ)} {s : TokenStream τ}

/-- The number of spaces on each side of the token. -/
def gap : Nat := if link.isSpaced then 1 else 0

/-- Where the token stands behind an operand. -/
def markSpan (offset : Nat) : Span :=
  ⟨offset + link.gap, offset + link.gap + Text.byteLength link.mark.toList⟩

/-- Where the next operand begins behind an operand. -/
def start (offset : Nat) : Nat := (link.markSpan offset).stop + link.gap

/-- What stands in front, joined to an operand that is written behind it. -/
def step (left : RawNode) (a : Spelling lexicon tokens) : RawNode :=
  link.join left (.leaf link.kind (link.markSpan left.span.stop))
    (.leaf (link.operandKind a) (a.span (link.start left.span.stop)))

theorem stop_step (left : RawNode) (a : Spelling lexicon tokens) :
    (link.step left a).span.stop = (a.span (link.start left.span.stop)).stop := by
  refine link.stop_join _ _ _ ?_
  simp only [RawNode.leaf, Spelling.span, start, markSpan]
  omega

/-- Linking never moves back. -/
theorem le_stop_foldl (items : List (Spelling lexicon tokens)) (left : RawNode) :
    left.span.stop ≤ (items.foldl link.step left).span.stop := by
  induction items generalizing left with
  | nil => exact Nat.le_refl _
  | cons a items ih =>
    refine Nat.le_trans ?_ (ih (link.step left a))
    simp only [stop_step, Spelling.span, start, markSpan]
    omega

/-- The token in its place. -/
def lexeme (offset : Nat) : Lexeme τ := ⟨link.token, link.markSpan offset, link.mark, false⟩

/-- What is written between two operands. -/
def between : List (Segment τ) :=
  if link.isSpaced then [space, word link.token link.mark.toList, space]
  else [word link.token link.mark.toList]

/-- Operands behind one that is already written. -/
def segments (items : List (Spelling lexicon tokens)) : List (Segment τ) :=
  items.flatMap fun a => link.between ++ [a.segment]

theorem segments_cons (a : Spelling lexicon tokens) (items : List (Spelling lexicon tokens)) :
    link.segments (a :: items) = link.between ++ a.segment :: link.segments items := by
  simp [segments]

/-- Another link is two lexemes, one for what links and one for what is linked. -/
theorem lexemesFrom_segments_cons (a : Spelling lexicon tokens)
    (items : List (Spelling lexicon tokens)) (more : List (Segment τ)) (offset : Nat) :
    lexemesFrom offset false (link.segments (a :: items) ++ more) =
      link.lexeme offset :: a.lexeme (link.start offset) false ::
        lexemesFrom (a.span (link.start offset)).stop false (link.segments items ++ more) := by
  rw [segments_cons, between]
  cases h : link.isSpaced <;>
    simp [h, lexemesFrom_space, lexemesFrom_word, Spelling.lexemesFrom_segment, lexeme, markSpan,
      start, gap]

theorem role_between : ∀ s ∈ link.between, s.role ≠ .comment := by
  rw [between]
  split <;> simp [space, word]

theorem role_segments : ∀ s ∈ link.segments items, s.role ≠ .comment := by
  intro s hs
  obtain ⟨a, -, hs⟩ := List.mem_flatMap.1 hs
  rcases List.mem_append.1 hs with hs | hs
  · exact link.role_between s hs
  · rw [List.mem_singleton.1 hs]
    exact a.role_segment

/-- A chain is taken if what stands between its operands is. -/
theorem segments_areTaken (hl : lexicon.IsRegular) (hwords : lexicon.AreWords tokens)
    {after back : List Char} {front : Char} (htext : textOf link.between = front :: back)
    (hbetween : ∀ (a : Spelling lexicon tokens) behind,
      AreTaken lexicon (a.text.toList ++ behind) link.between)
    (hfront : lexicon.Cuts tokens front) (hafter : ∀ c ∈ after.head?, lexicon.Cuts tokens c) :
    AreTaken lexicon after (link.segments items) := by
  induction items with
  | nil => trivial
  | cons a items ih =>
    -- Behind the operand stands what joins the next one to it, or what ends the chain.
    have hbehind : ∀ c ∈ (textOf (link.segments items) ++ after).head?,
        lexicon.Cuts tokens c := by
      cases items with
      | nil => exact hafter
      | cons b items =>
        rw [segments_cons, textOf_append, htext]
        rintro c ⟨⟩
        exact hfront
    rw [segments_cons]
    refine .append ?_ ⟨a.isTaken hl hwords hbehind, ih⟩
    rw [textOf_cons, List.append_assoc]
    exact hbetween a _

/-- A chain with spaces on both sides of each mark. -/
theorem spaced_areTaken (hl : lexicon.IsRegular) (hwords : lexicon.AreWords tokens)
    (hspaced : link.isSpaced = true) {c : Char} (hmark : link.mark.toList = [c])
    (hgap : isGap c = false)
    (htaken : ∀ after, (word link.token [c]).IsTaken lexicon (' ' :: after)) {after : List Char}
    (hafter : ∀ c ∈ after.head?, lexicon.Cuts tokens c) :
    AreTaken lexicon after (link.segments items) := by
  have hbetween : link.between = [space, word link.token [c], space] := by
    rw [between, if_pos hspaced, hmark]
  have htext : textOf link.between = [' ', c, ' '] := hbetween ▸ rfl
  refine link.segments_areTaken hl hwords htext (fun a behind => ?_) ⟨rfl, fun _ => by decide⟩
    hafter
  rw [hbetween]
  exact ⟨isTaken_space (by rintro d ⟨⟩; exact hgap), htaken _,
    isTaken_space (a.isGap_head hl hwords behind), trivial⟩

/-- Where all segments of a chain are taken, so are its operands. -/
theorem operands_areTaken {after : List Char} (first : Spelling lexicon tokens)
    (h : AreTaken lexicon after (link.segments (first :: items))) :
    AreTaken lexicon after (first.segment :: link.segments items) := by
  rw [segments_cons] at h
  exact h.right

/-- The text of a chain. -/
theorem toList_intercalate (sep : String) (hsep : textOf link.between = sep.toList)
    (first : String) (items : List (Spelling lexicon tokens)) :
    (sep.intercalate (first :: items.map Spelling.text)).toList =
      first.toList ++ textOf (link.segments items) := by
  induction items generalizing first with
  | nil => simp [segments]
  | cons a items ih =>
    rw [List.map_cons, String.intercalate_cons_cons, String.toList_append, ih, segments_cons,
      textOf_append, textOf_cons, hsep, String.toList_append]
    simp [Spelling.segment, word]

/-- What comes next goes on with the chain, or ends it. -/
def Follows (ends : List τ) (s : TokenStream τ) : Prop := ∀ t ∈ s.peek, t ∈ link.token :: ends

/-- Behind an operand comes a link or one of the ends. -/
theorem follows_of_upcoming (hmore : ∀ t ∈ (tokensOf more).head?, t ∈ ends)
    (hs : s.upcoming = lexemesFrom offset false (link.segments items ++ more)) :
    link.Follows ends s := by
  intro t ht
  rw [TokenStream.peek_of_segments hs] at ht
  cases items with
  | nil => exact List.mem_cons_of_mem _ (hmore t ht)
  | cons a items =>
    have hhead : (tokensOf (link.segments (a :: items) ++ more)).head? = some link.token := by
      rw [← map_token_lexemesFrom 0 false, lexemesFrom_segments_cons]
      rfl
    rw [hhead] at ht
    exact Option.some.inj ht ▸ List.mem_cons_self

/-- A rule reads an operand wherever the chain goes on behind it, or ends. -/
def ReadsOperand (ends : List τ) (operand : Rule τ RawNode) : Prop :=
  ∀ (a : Spelling lexicon tokens) (offset : Nat) (startsLine : Bool) (s : TokenStream τ)
    (rest : List (Lexeme τ)), s.upcoming = a.lexeme offset startsLine :: rest →
      link.Follows ends s.advance →
        operand s = .ok (.leaf (link.operandKind a) (a.span offset), s.advance)

/-- A repetition that reads the token and an operand in each round. -/
def IsReadBy {α : Type} (sign : TokenStream τ → Option α) (grow : α → RawNode → Rule τ RawNode)
    (operand : Rule τ RawNode) : Prop :=
  ∀ s, s.peek = some link.token → ∃ more, sign s = some more ∧ ∀ left, grow more left = do
    let mark ← Rule.leaf link.kind
    let right ← operand
    return link.join left mark right

variable {link} {operand : Rule τ RawNode}

/-- The rounds of a repetition make the left fold of a chain. -/
theorem exists_rounds {α : Type} {sign : TokenStream τ → Option α}
    {grow : α → RawNode → Rule τ RawNode} (hgrow : link.IsReadBy sign grow operand)
    (hoperand : link.ReadsOperand ends operand) (hmore : ∀ t ∈ (tokensOf more).head?, t ∈ ends)
    (hs : s.upcoming = lexemesFrom left.span.stop false (link.segments items ++ more)) :
    ∃ s', s'.upcoming = lexemesFrom (items.foldl link.step left).span.stop false more ∧
      ReflTransGen (Rule.Round sign grow) (left, s) (items.foldl link.step left, s') := by
  -- One round takes the token and an operand, and leaves the others behind what it has joined.
  induction items generalizing left s with
  | nil => exact ⟨s, hs, .refl⟩
  | cons a items ih =>
    rw [lexemesFrom_segments_cons] at hs
    have hpeek := TokenStream.peek_of_upcoming hs
    have hoperandAt := TokenStream.upcoming_advance hs
    have hrest := TokenStream.upcoming_advance hoperandAt
    have hfollows := link.follows_of_upcoming hmore hrest
    rw [← stop_step] at hrest
    obtain ⟨s', hs', hrounds⟩ := ih hrest
    obtain ⟨sign, hsign, hround⟩ := hgrow s hpeek
    refine ⟨s', hs', .head ⟨?_, sign, hsign, ?_⟩ hrounds⟩
    · exact (TokenStream.isAhead_advance hpeek).trans
        (TokenStream.isAhead_advance (TokenStream.peek_of_upcoming hoperandAt))
    · rw [hround, Rule.bind_of_ok (Rule.leaf_of_upcoming hs _),
        Rule.bind_of_ok (hoperand a _ _ _ _ hoperandAt hfollows)]
      rfl

/-- A repetition that ends where the chain does makes the left fold of the chain. -/
theorem growWhile_eq_ok {α : Type} {sign : TokenStream τ → Option α}
    {grow : α → RawNode → Rule τ RawNode} (hgrow : link.IsReadBy sign grow operand)
    (hoperand : link.ReadsOperand ends operand) (hmore : ∀ t ∈ (tokensOf more).head?, t ∈ ends)
    (hends : ∀ s : TokenStream τ, (∀ t ∈ s.peek, t ∈ ends) → sign s = none) (left : RawNode)
    (hs : s.upcoming = lexemesFrom left.span.stop false (link.segments items ++ more)) :
    ∃ s', s'.upcoming = lexemesFrom (items.foldl link.step left).span.stop false more ∧
      Rule.growWhile sign grow left s = .ok (items.foldl link.step left, s') := by
  obtain ⟨s', hs', hrounds⟩ := exists_rounds hgrow hoperand hmore hs
  refine ⟨s', hs', Rule.iterate_of_rounds hrounds (hends s' fun t ht => hmore t ?_)⟩
  rwa [TokenStream.peek_of_segments hs'] at ht

end Link

/-! ## Operators that bind alike -/

/-- The node for the token of an operator. -/
def OperatorForm.wrap (form : OperatorForm) (token : RawNode) : RawNode :=
  match form.group with
  | none => token
  | some group => .branch group [token]

namespace Operators

variable {ops : Operators τ} {operand : Rule τ RawNode}

/-- Operators that bind alike are joined from left to right. -/
theorem treeNode_ofRow {level : OperatorClass} {items : List (Joint × RawNode)}
    (h : ∀ item ∈ items, item.1.level = level) (first : RawNode) :
    ops.treeNode (.ofRow first items) =
      items.foldl (fun left item => ops.node left item.1.node item.2) first := by
  suffices hfold : ∀ t : OperatorTree, (∀ joint ∈ t.joint?, joint.level = level) →
      ops.treeNode (items.foldl OperatorTree.snoc t) =
        items.foldl (fun left item => ops.node left item.1.node item.2) (ops.treeNode t) from
    hfold (.operand first) nofun
  induction items with
  | nil => exact fun _ _ => rfl
  | cons item items ih =>
    obtain ⟨hitem, hitems⟩ := List.forall_mem_cons.1 h
    intro t ht
    -- An operator that binds no tighter than the one at the top takes the whole tree.
    have hsnoc : t.snoc item = .join t item.1 (.operand item.2) := by
      cases t with
      | operand node => rfl
      | join left top right =>
        have hrank : ¬ top.rank < item.1.rank := by
          rw [Joint.rank, Joint.rank, ht top rfl, hitem]
          exact Nat.lt_irrefl _
        rw [OperatorTree.snoc, if_neg hrank]
    rw [List.foldl_cons, List.foldl_cons, hsnoc]
    exact ih hitems _ fun joint hjoint => Option.some.inj hjoint ▸ hitem

/-- Operands with an operator between. -/
def link (ops : Operators τ) (form : OperatorForm) (token : τ) (mark : String)
    (operandKind : Spelling lexicon tokens → KindId) : Link lexicon tokens where
  token := token
  mark := mark
  isSpaced := true
  kind := form.kind
  operandKind := operandKind
  join left mark right := ops.node left (form.wrap mark) right
  stop_join _ _ _ h := Nat.max_eq_right h

variable {form : OperatorForm} {token : τ} {mark : String}
  {operandKind : Spelling lexicon tokens → KindId} {ends : List τ} {left : RawNode}
  {items : List (Spelling lexicon tokens)} {more : List (Segment τ)} {s : TokenStream τ}

/-- The operators and operands that are read of a chain. -/
theorem exists_chain (hform : ops.form? token = some form)
    (hoperand : (ops.link form token mark operandKind).ReadsOperand ends operand)
    (hmore : ∀ t ∈ (tokensOf more).head?, t ∈ ends)
    (hs : s.upcoming = lexemesFrom left.span.stop false
      ((ops.link form token mark operandKind).segments items ++ more)) :
    ∃ (row : List (Joint × RawNode)) (s' : TokenStream τ),
      ops.Chain operand s row s' ∧ (∀ item ∈ row, item.1.level = form.level) ∧
      row.foldl (fun left item => ops.node left item.1.node item.2) left =
        items.foldl (ops.link form token mark operandKind).step left ∧
      s'.upcoming = lexemesFrom
        (items.foldl (ops.link form token mark operandKind).step left).span.stop false more := by
  induction items generalizing left s with
  | nil => exact ⟨[], s, .nil, nofun, rfl, hs⟩
  | cons a items ih =>
    rw [Link.lexemesFrom_segments_cons] at hs
    have hpeek := TokenStream.peek_of_upcoming hs
    have hoperandAt := TokenStream.upcoming_advance hs
    have hrest := TokenStream.upcoming_advance hoperandAt
    have hfollows := Link.follows_of_upcoming _ hmore hrest
    rw [← Link.stop_step] at hrest
    obtain ⟨row, s', hchain, hlevel, hfold, hs'⟩ := ih hrest
    have hupcoming : ops.upcoming? s = some form := by
      rw [upcoming?, hpeek]
      exact hform
    have hnode : form.node s = .ok (form.wrap (.leaf form.kind _), s.advance) :=
      Rule.bind_of_ok (Rule.leaf_of_upcoming hs _)
    exact ⟨_, s', .cons hupcoming hnode (hoperand a _ _ _ _ hoperandAt hfollows) hchain,
      List.forall_mem_cons.2 ⟨rfl, hlevel⟩, hfold, hs'⟩

/-- An operand with a chain behind it, up to where no operator comes next. -/
theorem extend_eq_ok (hform : ops.form? token = some form)
    (hahead : ∀ {s node s'}, operand s = .ok (node, s') → s'.IsAhead s)
    (hoperand : (ops.link form token mark operandKind).ReadsOperand ends operand)
    (hmore : ∀ t ∈ (tokensOf more).head?, t ∈ ends) (hends : ∀ t ∈ ends, ops.form? t = none)
    (left : RawNode) (hs : s.upcoming = lexemesFrom left.span.stop false
      ((ops.link form token mark operandKind).segments items ++ more)) :
    ∃ s', s'.upcoming = lexemesFrom
        (items.foldl (ops.link form token mark operandKind).step left).span.stop false more ∧
      ops.extend operand left s =
        .ok (items.foldl (ops.link form token mark operandKind).step left, s') := by
  obtain ⟨row, s', hchain, hlevel, hfold, hs'⟩ := exists_chain hform hoperand hmore hs
  obtain ⟨hfirst, hrest, hranked⟩ := OperatorTree.ofRow_spec left row
  have hstop : ops.upcoming? s' = none := by
    rw [upcoming?]
    cases hp : s'.peek with
    | none => rfl
    | some t => exact hends t (hmore t (TokenStream.peek_of_segments hs' ▸ hp))
  have hextend := extend_of_chain hahead hranked (by rwa [hrest]) hstop
  rw [hfirst, treeNode_ofRow hlevel, hfold] at hextend
  exact ⟨s', hs', hextend⟩

end Operators

/-! ## Sources without errors -/

namespace Grammar

variable {g : Grammar τ} {source : String} {segments : List (Segment τ)} {nodes : List RawNode}

/-- A source without errors, with the children of its root. -/
def Makes (g : Grammar τ) (source : String) (nodes : List RawNode) : Prop :=
  g.parse source = ⟨.branchAt g.root ⟨0, Text.byteLength source.toList⟩ nodes, []⟩

/-- A source of one statement that is written as blanks and tokens. -/
theorem makes_of_segments (hsource : source.toList = textOf segments)
    (htaken : AreTaken g.lexicon [] segments) (hcomment : ∀ s ∈ segments, s.role ≠ .comment)
    (hne : tokensOf segments ≠ []) (hread : ∀ s : TokenStream τ,
      s.upcoming = lexemesFrom 0 true segments →
        ∃ s', s'.atEnd = true ∧ g.statement s = .ok (nodes, s')) : g.Makes source nodes := by
  have hlex := Lexicon.lex_textOf hsource htaken hcomment
  obtain ⟨s', hend, hok⟩ := hread
    (.ofLexemes (lexemesFrom 0 true segments) (Text.byteLength source.toList)) rfl
  have hstart : (TokenStream.ofLexemes (lexemesFrom 0 true segments)
      (Text.byteLength source.toList)).atEnd = false := by
    refine List.isEmpty_eq_false_iff.2 fun hnil => hne ?_
    rw [← map_token_lexemesFrom 0 true, show lexemesFrom 0 true segments = [] from hnil]
    rfl
  rw [Makes, parse_of_statements hlex (statements_of_ok hstart hok hend)]
  simp [ParseOutput.ofRoot]

end Grammar

end GrammarTools
