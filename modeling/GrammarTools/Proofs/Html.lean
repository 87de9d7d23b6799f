import GrammarTools.Proofs.Highlighting

/-!
# Highlighting in HTML

A text in HTML is read from left to right as tags that open or close an element
with a class, and characters (`Html.pieces`), which make up the text again
(`Html.flatMap_text_pieces`). Without its tags, and with its entities decoded, what
is written for a source is the source again; the tags open and close elements in
turn, and no angle bracket stands outside of them (`Highlight.isMarkedUp_html`).

A program that slices the source at the ends of the tokens, and fails where two
offsets are out of order or inside a character, does not fail and writes the same
(`Highlight.html?`), since the parts that are shown stand one behind the other
between characters.
-/

namespace GrammarTools

/-! ## Reading HTML -/

namespace Html

/-- A tag. -/
inductive Tag where
  /-- Opens an element of a class. -/
  | opening (name : List Char)
  /-- Closes an element. -/
  | closing
deriving DecidableEq, Repr

/-- A piece of a text in HTML. -/
inductive Piece where
  /-- A tag. -/
  | tag (tag : Tag)
  /-- A character that belongs to no tag. -/
  | char (c : Char)
deriving DecidableEq, Repr

/-- What a tag begins with that opens an element. -/
def openingFront : List Char :=
  ['<', 's', 'p', 'a', 'n', ' ', 'c', 'l', 'a', 's', 's', '=', '"']

/-- What such a tag ends with. -/
def openingBack : List Char := ['"', '>']

/-- The characters of a tag. -/
def Tag.text : Tag → List Char
  | opening name => openingFront ++ name ++ openingBack
  | closing => ['<', '/', 's', 'p', 'a', 'n', '>']

/-- The characters of a piece. -/
def Piece.text : Piece → List Char
  | tag t => t.text
  | char c => [c]

/-- The tag that a piece is. -/
def Piece.tag? : Piece → Option Tag
  | tag t => some t
  | char _ => none

/-- The character that a piece is, if it is no tag. -/
def Piece.char? : Piece → Option Char
  | tag _ => none
  | char c => some c

/-- The tag that a text begins with, and the text behind it. -/
def tagAt? (cs : List Char) : Option (Tag × List Char) :=
  if Tag.closing.text.isPrefixOf cs then some (.closing, cs.drop Tag.closing.text.length)
  else if openingFront.isPrefixOf cs then
    let inside := cs.drop openingFront.length
    let name := inside.takeWhile (· != '"')
    let after := inside.dropWhile (· != '"')
    if openingBack.isPrefixOf after then some (.opening name, after.drop openingBack.length)
    else none
  else none

theorem append_drop_of_isPrefixOf {front cs : List Char} (h : front.isPrefixOf cs) :
    front ++ cs.drop front.length = cs := by
  obtain ⟨rest, rfl⟩ := List.isPrefixOf_iff_prefix.1 h
  rw [List.drop_left]

/-- A tag and the text behind it make up the text. -/
theorem text_append_of_tagAt? {cs rest : List Char} {tag : Tag} (h : tagAt? cs = some (tag, rest)) :
    tag.text ++ rest = cs := by
  unfold tagAt? at h
  split at h
  case isTrue hclosing =>
    obtain ⟨rfl, rfl⟩ := Prod.mk.inj (Option.some.inj h)
    exact append_drop_of_isPrefixOf hclosing
  case isFalse =>
  split at h
  case isFalse => cases h
  case isTrue hopening =>
  dsimp only at h
  split at h
  case isFalse => cases h
  case isTrue hback =>
    obtain ⟨rfl, rfl⟩ := Prod.mk.inj (Option.some.inj h)
    rw [Tag.text, List.append_assoc, append_drop_of_isPrefixOf hback, List.append_assoc,
      List.takeWhile_append_dropWhile, append_drop_of_isPrefixOf hopening]

theorem Tag.length_text_pos (tag : Tag) : 0 < tag.text.length := by
  cases tag with
  | opening name => simp [Tag.text, openingFront]
  | closing => decide

/-- The pieces of a text. -/
def pieces (cs : List Char) : List Piece :=
  match h : tagAt? cs with
  | some (tag, rest) =>
    have : rest.length < cs.length := by
      have hpos := tag.length_text_pos
      rw [← text_append_of_tagAt? h, List.length_append]
      omega
    .tag tag :: pieces rest
  | none =>
    match cs with
    | [] => []
    | c :: cs => .char c :: pieces cs
termination_by cs.length

/-- The tags of a text. -/
def tags (cs : List Char) : List Tag := (pieces cs).filterMap Piece.tag?

/-- A text without its tags. -/
def withoutTags (cs : List Char) : List Char := (pieces cs).filterMap Piece.char?

/-- Tags that open and close elements in turn. -/
def Alternate : List Tag → Prop
  | [] => True
  | .opening _ :: .closing :: rest => Alternate rest
  | _ => False

/-- A text with the four entities in it decoded. -/
def decode : List Char → List Char
  | '&' :: 'a' :: 'm' :: 'p' :: ';' :: rest => '&' :: decode rest
  | '&' :: 'l' :: 't' :: ';' :: rest => '<' :: decode rest
  | '&' :: 'g' :: 't' :: ';' :: rest => '>' :: decode rest
  | '&' :: 'q' :: 'u' :: 'o' :: 't' :: ';' :: rest => '"' :: decode rest
  | c :: rest => c :: decode rest
  | [] => []

/-! ### Pieces written one behind the other -/

/-- No piece is lost, and none is made up. -/
theorem flatMap_text_pieces (cs : List Char) : (pieces cs).flatMap Piece.text = cs := by
  fun_induction pieces cs with
  | case1 cs tag rest h _ ih =>
    rw [List.flatMap_cons, ih]
    exact text_append_of_tagAt? h
  | case2 => rfl
  | case3 c cs _ ih =>
    rw [List.flatMap_cons, ih]
    rfl

/-- The text of a closing tag is read as one. -/
theorem tagAt?_closing (rest : List Char) :
    tagAt? (Tag.closing.text ++ rest) = some (.closing, rest) := by
  rw [tagAt?, if_pos (List.isPrefixOf_iff_prefix.2 (List.prefix_append _ _)), List.drop_left]

/-- The text of an opening tag is read as one, if no quotation mark in the name ends it early. -/
theorem tagAt?_opening {name : List Char} (hname : '"' ∉ name) (rest : List Char) :
    tagAt? ((Tag.opening name).text ++ rest) = some (.opening name, rest) := by
  have htext : (Tag.opening name).text ++ rest =
      openingFront ++ (name ++ (openingBack ++ rest)) := by
    simp [Tag.text]
  have hclosing : ¬ Tag.closing.text.isPrefixOf
      (openingFront ++ (name ++ (openingBack ++ rest))) := by
    simp [Tag.text, openingFront]
  have hall : ∀ c ∈ name, (c != '"') = true := fun c hc => bne_iff_ne.2 fun h => hname (h ▸ hc)
  have htake : (name ++ (openingBack ++ rest)).takeWhile (· != '"') = name := by
    rw [List.takeWhile_append_of_pos hall]
    simp [openingBack]
  have hdrop : (name ++ (openingBack ++ rest)).dropWhile (· != '"') = openingBack ++ rest := by
    rw [List.dropWhile_append_of_pos hall]
    simp [openingBack]
  rw [htext, tagAt?, if_neg hclosing,
    if_pos (List.isPrefixOf_iff_prefix.2 (List.prefix_append _ _)), List.drop_left]
  dsimp only
  rw [htake, hdrop, if_pos (List.isPrefixOf_iff_prefix.2 (List.prefix_append _ _)), List.drop_left]

/-- Every tag begins with an angle bracket. -/
theorem tagAt?_of_ne {c : Char} (hc : c ≠ '<') (cs : List Char) : tagAt? (c :: cs) = none := by
  simp [tagAt?, Tag.text, openingFront, Ne.symm hc]

/-- What is cut at a tag has the tag for its first piece. -/
theorem pieces_of_tagAt? {cs rest : List Char} {tag : Tag} (h : tagAt? cs = some (tag, rest)) :
    pieces cs = .tag tag :: pieces rest := by
  rw [pieces]
  split
  · rename_i other after heq
    obtain ⟨rfl, rfl⟩ := Prod.mk.inj (Option.some.inj (h.symm.trans heq))
    rfl
  · rename_i hnone
    rw [h] at hnone
    cases hnone

/-- What does not begin with an angle bracket has a character for its first piece. -/
theorem pieces_cons_of_ne {c : Char} (hc : c ≠ '<') (cs : List Char) :
    pieces (c :: cs) = .char c :: pieces cs := by
  have hnone := tagAt?_of_ne hc cs
  rw [pieces]
  split
  · rename_i hsome
    rw [hnone] at hsome
    cases hsome
  · rfl

/-- A piece that is read as what it is, wherever it stands. -/
def Piece.IsPlain : Piece → Prop
  | tag (.opening name) => '"' ∉ name
  | tag .closing => True
  | char c => c ≠ '<'

/-- Plain pieces written one behind the other are read as they are. -/
theorem pieces_flatMap_text {ps : List Piece} (h : ∀ p ∈ ps, p.IsPlain) :
    pieces (ps.flatMap Piece.text) = ps := by
  induction ps with
  | nil =>
    have hnone : tagAt? [] = none := by decide
    rw [List.flatMap_nil, pieces]
    rfl
  | cons p ps ih =>
    obtain ⟨hp, hps⟩ := List.forall_mem_cons.1 h
    rw [List.flatMap_cons]
    match p with
    | .tag (.opening name) => rw [Piece.text, pieces_of_tagAt? (tagAt?_opening hp _), ih hps]
    | .tag .closing => rw [Piece.text, pieces_of_tagAt? (tagAt?_closing _), ih hps]
    | .char c => rw [Piece.text, List.singleton_append, pieces_cons_of_ne hp, ih hps]

/-! ### Entities -/

/-- What does not begin with an ampersand stands for itself. -/
theorem decode_cons_of_ne {c : Char} (hc : c ≠ '&') (cs : List Char) :
    decode (c :: cs) = c :: decode cs := by
  rw [decode] <;> simp [hc]

/-- What a character is written as in HTML. -/
theorem escape_cases (c : Char) :
    (c = '&' ∧ Highlight.escape c = ['&', 'a', 'm', 'p', ';']) ∨
    (c = '<' ∧ Highlight.escape c = ['&', 'l', 't', ';']) ∨
    (c = '>' ∧ Highlight.escape c = ['&', 'g', 't', ';']) ∨
    (c = '"' ∧ Highlight.escape c = ['&', 'q', 'u', 'o', 't', ';']) ∨
    (c ≠ '&' ∧ c ≠ '<' ∧ c ≠ '>' ∧ Highlight.escape c = [c]) := by
  unfold Highlight.escape
  split
  case h_1 => exact .inl ⟨rfl, by decide⟩
  case h_2 => exact .inr (.inl ⟨rfl, by decide⟩)
  case h_3 => exact .inr (.inr (.inl ⟨rfl, by decide⟩))
  case h_4 => exact .inr (.inr (.inr (.inl ⟨rfl, by decide⟩)))
  case h_5 hamp hlt hgt _ => exact .inr (.inr (.inr (.inr ⟨hamp, hlt, hgt, rfl⟩)))

/-- Characters written in HTML are read as they are. -/
theorem decode_flatMap_escape (cs : List Char) : decode (cs.flatMap Highlight.escape) = cs := by
  induction cs with
  | nil => rfl
  | cons c cs ih =>
    rw [List.flatMap_cons]
    rcases escape_cases c with ⟨rfl, h⟩ | ⟨rfl, h⟩ | ⟨rfl, h⟩ | ⟨rfl, h⟩ | ⟨hc, -, -, h⟩
    case inr.inr.inr.inr => rw [h, List.singleton_append, decode_cons_of_ne hc, ih]
    -- The other characters are written as entities.
    all_goals
      rw [h]
      exact congrArg _ ih

/-- No angle bracket is written for a character. -/
theorem ne_of_mem_escape {c d : Char} (h : d ∈ Highlight.escape c) : d ≠ '<' ∧ d ≠ '>' := by
  rcases escape_cases c with ⟨rfl, hc⟩ | ⟨rfl, hc⟩ | ⟨rfl, hc⟩ | ⟨rfl, hc⟩ | ⟨-, hlt, hgt, hc⟩
  case inr.inr.inr.inr =>
    rw [hc, List.mem_singleton] at h
    exact h ▸ ⟨hlt, hgt⟩
  all_goals
    rw [hc] at h
    constructor <;> rintro rfl <;> simp at h

end Html

/-! ## Writing HTML -/

namespace Highlight

open Html

/-- The pieces written for a text without tags. -/
def escapedPieces (text : List Char) : List Piece := (text.flatMap escape).map .char

/-- The pieces written for the tokens in a text, which begins at the byte offset `cursor`. -/
def htmlPieces (cursor : Nat) (text : List Char) : List HighlightToken → List Piece
  | [] => escapedPieces text
  | token :: rest =>
    let (gap, after) := Text.splitBytes (token.span.start - cursor) text
    let (shown, after) := Text.splitBytes (token.span.stop - token.span.start) after
    escapedPieces gap ++ .tag (.opening token.type.className.toList) ::
      (escapedPieces shown ++ .tag .closing :: htmlPieces token.span.stop after rest)

/-- Escaping puts each character into its own form. -/
theorem toList_escaped (out : String) (text : List Char) :
    (escaped out text).toList = out.toList ++ text.flatMap escape := by
  rw [escaped]
  induction text generalizing out with
  | nil => simp
  | cons c cs ih => rw [List.foldl_cons, ih]; simp

theorem flatMap_text_escapedPieces (text : List Char) :
    (escapedPieces text).flatMap Piece.text = text.flatMap escape := by
  rw [escapedPieces, List.flatMap_map]
  simp [Piece.text]

/-- What is written around a token is the text of its two tags. -/
theorem toList_element (t : TokenType) :
    (element t).opening.toList = (Tag.opening t.className.toList).text ∧
      (element t).closing.toList = Tag.closing.text := by
  simp [element, Tag.text, openingFront, openingBack]

/-- What is written is the text of its pieces. -/
theorem toList_htmlFrom (out : String) (cursor : Nat) (text : List Char)
    (tokens : List HighlightToken) : (htmlFrom out cursor text tokens).toList =
      out.toList ++ (htmlPieces cursor text tokens).flatMap Piece.text := by
  induction tokens generalizing out cursor text with
  | nil => rw [htmlFrom, htmlPieces, toList_escaped, flatMap_text_escapedPieces]
  | cons token rest ih =>
    simp only [htmlFrom, htmlPieces, ih, String.toList_append, toList_escaped, toList_element,
      List.flatMap_append, List.flatMap_cons, flatMap_text_escapedPieces, Piece.text,
      List.append_assoc]

/-- The tags of some tokens. -/
def tagsOf (tokens : List HighlightToken) : List Tag :=
  tokens.flatMap fun token => [.opening token.type.className.toList, .closing]

/-- No name of a class ends its tag early. -/
theorem quote_notMem_className (t : TokenType) : '"' ∉ t.className.toList := by
  cases t <;> decide

theorem isPlain_escapedPieces (text : List Char) : ∀ p ∈ escapedPieces text, p.IsPlain := by
  intro p hp
  obtain ⟨c, hc, rfl⟩ := List.mem_map.1 hp
  obtain ⟨d, -, hd⟩ := List.mem_flatMap.1 hc
  exact (ne_of_mem_escape hd).1

/-- What is written is cut at its tags and at no other place. -/
theorem isPlain_htmlPieces (cursor : Nat) (text : List Char) (tokens : List HighlightToken) :
    ∀ p ∈ htmlPieces cursor text tokens, p.IsPlain := by
  induction tokens generalizing cursor text with
  | nil => exact isPlain_escapedPieces text
  | cons token rest ih =>
    simp only [htmlPieces, List.forall_mem_append, List.forall_mem_cons]
    exact ⟨isPlain_escapedPieces _, quote_notMem_className _, isPlain_escapedPieces _, trivial,
      ih _ _⟩

theorem filterMap_tag?_escapedPieces (text : List Char) :
    (escapedPieces text).filterMap Piece.tag? = [] := by
  simp [escapedPieces, Piece.tag?]

/-- The characters between the tags are those of the escaped text. -/
theorem filterMap_char?_escapedPieces (text : List Char) :
    (escapedPieces text).filterMap Piece.char? = text.flatMap escape := by
  rw [escapedPieces, List.filterMap_map]
  exact List.filterMap_some

/-- The tags are those of the tokens, in order. -/
theorem filterMap_tag?_htmlPieces (cursor : Nat) (text : List Char)
    (tokens : List HighlightToken) :
    (htmlPieces cursor text tokens).filterMap Piece.tag? = tagsOf tokens := by
  induction tokens generalizing cursor text with
  | nil => exact filterMap_tag?_escapedPieces text
  | cons token rest ih =>
    simp [htmlPieces, filterMap_tag?_escapedPieces, Piece.tag?, ih, tagsOf]

/-- Without its tags, what is written for a text is the text with its characters escaped. -/
theorem filterMap_char?_htmlPieces (cursor : Nat) (text : List Char)
    (tokens : List HighlightToken) :
    (htmlPieces cursor text tokens).filterMap Piece.char? = text.flatMap escape := by
  induction tokens generalizing cursor text with
  | nil => exact filterMap_char?_escapedPieces text
  | cons token rest ih =>
    -- However the text is cut, its parts make up the text.
    have hsplit := Text.splitBytes_append (token.span.start - cursor) text
    have hinner := Text.splitBytes_append (token.span.stop - token.span.start)
      (Text.splitBytes (token.span.start - cursor) text).2
    simp only [htmlPieces, List.filterMap_append, List.filterMap_cons, Piece.char?,
      filterMap_char?_escapedPieces, ih]
    rw [← List.flatMap_append, hinner, ← List.flatMap_append, hsplit]

/-- Each token opens a tag and closes it before the next one begins. -/
theorem alternate_tagsOf (tokens : List HighlightToken) : Alternate (tagsOf tokens) := by
  induction tokens with
  | nil => trivial
  | cons token rest ih => exact ih

/-- A text in HTML that is a source when its tags are taken out and its entities decoded, with the
    tags of some tokens and no other angle brackets. -/
structure IsMarkedUp (html source : List Char) (tokens : List HighlightToken) : Prop where
  text : decode (withoutTags html) = source
  tags : tags html = tagsOf tokens
  alternate : Alternate (Html.tags html)
  brackets : ∀ c ∈ withoutTags html, c ≠ '<' ∧ c ≠ '>'

/-- Whatever the tokens, what is written in HTML is the source with their tags. -/
theorem isMarkedUp_html (source : String) (tree : Tree) :
    IsMarkedUp (html source tree).toList source.toList (tokens tree) := by
  have hpieces : pieces (html source tree).toList =
      htmlPieces 0 source.toList (tokens tree) := by
    rw [html, toList_htmlFrom]
    exact pieces_flatMap_text (isPlain_htmlPieces _ _ _)
  have htags : Html.tags (html source tree).toList = tagsOf (tokens tree) := by
    rw [Html.tags, hpieces, filterMap_tag?_htmlPieces]
  have hchars : withoutTags (html source tree).toList = source.toList.flatMap escape := by
    rw [withoutTags, hpieces, filterMap_char?_htmlPieces]
  refine ⟨?_, htags, htags ▸ alternate_tagsOf _, fun c hc => ?_⟩
  · rw [hchars, decode_flatMap_escape]
  · rw [hchars] at hc
    obtain ⟨d, -, hd⟩ := List.mem_flatMap.1 hc
    exact ne_of_mem_escape hd

end Highlight

/-! ## Slices -/

/-- The characters from one byte offset to another, if these are in order and lie between
    characters. -/
def Text.slice? (start stop : Nat) (cs : List Char) : Option (List Char) :=
  if start ≤ stop ∧ byteLength (splitBytes start cs).1 = start ∧
      byteLength (splitBytes stop cs).1 = stop then some (slice start stop cs)
  else none

/-- Behind as many bytes as a front has, the rest begins. -/
theorem Text.splitBytes_byteLength (front back : List Char) :
    splitBytes (byteLength front) (front ++ back) = (front, back) :=
  splitBytesFrom_byteLength [] front back

/-- A slice between two boundaries is what stands between them. -/
theorem Text.slice?_append (front middle back : List Char) :
    slice? (byteLength front) (byteLength (front ++ middle)) (front ++ middle ++ back) =
      some middle := by
  have hstart := splitBytes_byteLength front (middle ++ back)
  have hstop := splitBytes_byteLength (front ++ middle) back
  rw [← List.append_assoc] at hstart
  rw [slice?, if_pos, slice_append]
  rw [hstart, hstop]
  simp

namespace Highlight

/-- The tokens of a source from the byte offset `cursor` on, written in HTML behind `out`, by slices
    of the source. -/
def htmlFrom? (source : List Char) (out : String) (cursor : Nat) :
    List HighlightToken → Option String
  | [] => (Text.slice? cursor (Text.byteLength source) source).map (escaped out)
  | token :: rest => do
    let gap ← Text.slice? cursor token.span.start source
    let shown ← Text.slice? token.span.start token.span.stop source
    let tags := element token.type
    htmlFrom? source (escaped (escaped out gap ++ tags.opening) shown ++ tags.closing)
      token.span.stop rest

/-- A source in HTML, by slices of the source. -/
def html? (source : String) (tree : Tree) : Option String :=
  htmlFrom? source.toList "" 0 (tokens tree)

/-- No slice fails if the tokens stand one behind the other, between characters. -/
theorem htmlFrom?_eq (front text : List Char) (out : String) {tokens : List HighlightToken}
    (hstart : ∀ t ∈ tokens, Text.byteLength front ≤ t.span.start)
    (hlt : ∀ t ∈ tokens, t.span.start < t.span.stop)
    (hboundary : ∀ t ∈ tokens, Text.IsBoundary (front ++ text) t.span.start ∧
      Text.IsBoundary (front ++ text) t.span.stop)
    (hapart : tokens.Pairwise fun a b => a.span.stop ≤ b.span.start) :
    htmlFrom? (front ++ text) out (Text.byteLength front) tokens =
      some (htmlFrom out (Text.byteLength front) text tokens) := by
  induction tokens generalizing front text out with
  | nil =>
    have hslice := Text.slice?_append front text []
    rw [List.append_nil] at hslice
    rw [htmlFrom?, hslice]
    rfl
  | cons token rest ih =>
    obtain ⟨⟨hs, ht⟩, hboundary⟩ := List.forall_mem_cons.1 hboundary
    obtain ⟨hle, hstart⟩ := List.forall_mem_cons.1 hstart
    obtain ⟨hlt, hltRest⟩ := List.forall_mem_cons.1 hlt
    obtain ⟨hrow, hapart⟩ := List.pairwise_cons.1 hapart
    -- What is left of the source begins with the gap and the token.
    obtain ⟨gap, after, rfl, hgap⟩ := hs.exists_middle hle
    rw [← List.append_assoc] at ht hboundary ⊢
    obtain ⟨shown, back, rfl, hshown⟩ := ht.exists_middle (by omega)
    rw [← List.append_assoc] at hboundary ⊢
    have hskip : token.span.start - Text.byteLength front = Text.byteLength gap := by
      rw [hgap, Text.byteLength_append, Nat.add_sub_cancel_left]
    have hwidth : token.span.stop - token.span.start = Text.byteLength shown := by
      rw [hshown, hgap, Text.byteLength_append (front ++ gap), Nat.add_sub_cancel_left]
    have hsliceGap := Text.slice?_append front gap (shown ++ back)
    have hsliceShown := Text.slice?_append (front ++ gap) shown back
    rw [← List.append_assoc, ← hgap] at hsliceGap
    rw [← hgap, ← hshown] at hsliceShown
    have htail := ih (front ++ gap ++ shown) back
      (escaped (escaped out gap ++ (element token.type).opening) shown ++
        (element token.type).closing)
      (fun t hmem => hshown ▸ hrow t hmem) hltRest hboundary hapart
    rw [← hshown] at htail
    -- Both programs cut off the gap and the token, and go on behind them.
    rw [htmlFrom?, hsliceGap, Option.bind_eq_bind, Option.bind_some, hsliceShown, Option.bind_some]
    dsimp only
    rw [htail, htmlFrom, hskip, Text.splitBytes_byteLength]
    dsimp only
    rw [hwidth, Text.splitBytes_byteLength]

/-- No slice fails for the tokens that are shown of a source. -/
theorem IsPartition.html?_eq {τ : Type} {tree : Tree} {source : String}
    {lexemes : List (Lexeme τ)} {errors : List RawNode}
    (h : IsPartition (tokens tree) source.toList lexemes errors) :
    html? source tree = some (html source tree) :=
  htmlFrom?_eq [] source.toList "" (fun _ _ => Nat.zero_le _) h.lt h.boundary h.apart

end Highlight

/-- A source in either language is written in HTML without a slice that fails. Without its tags and
    with its entities decoded, what is written is the source, and all angle brackets in it belong to
    the tags, which open and close the element of each token in turn. -/
theorem html_preservesText (source : String) :
    (Highlight.html? source (Tree.parse Simpl.language source) =
        some (Highlight.html source (Tree.parse Simpl.language source)) ∧
      Highlight.IsMarkedUp (Highlight.html source (Tree.parse Simpl.language source)).toList
        source.toList (Highlight.tokens (Tree.parse Simpl.language source))) ∧
    (Highlight.html? source (Tree.parse Peopl.language source) =
        some (Highlight.html source (Tree.parse Peopl.language source)) ∧
      Highlight.IsMarkedUp (Highlight.html source (Tree.parse Peopl.language source)).toList
        source.toList (Highlight.tokens (Tree.parse Peopl.language source))) :=
  ⟨⟨(Simpl.isPartition_tokens source).html?_eq, Highlight.isMarkedUp_html source _⟩,
    (Peopl.isPartition_tokens source).html?_eq, Highlight.isMarkedUp_html source _⟩

end GrammarTools
