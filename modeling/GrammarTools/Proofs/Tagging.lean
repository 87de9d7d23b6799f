import GrammarTools.Proofs.Html

/-!
# Tags put in

A program that keeps a text as a row of characters looks for the character at a
byte offset, which fails behind the end of the text, and puts a tag in there
(`Text.insertAt?`). Every tag moves what comes behind it, so the program counts the
bytes that it has put in (`Highlight.taggedFrom?`).

* The text with a place in it is what that program makes, wherever it does not fail
  (`Highlight.Tagging.toList_foldl_add`).
* For tokens that stand one behind the other between characters it does not fail,
  and the result is the source written part by part: what stands in front of a token,
  then its tags around it, then what is left (`Highlight.taggedFrom?_eq`).
* With the elements of HTML as tags this is what is written in HTML, if no character
  of the source is written as an entity (`Highlight.toList_of_htmlFrom?`).
-/

namespace GrammarTools

/-! ## Texts as rows of characters -/

namespace Text

/-- The number of characters in front of the one at a byte offset, which may be the end. -/
def charAt? (offset : Nat) (cs : List Char) : Option Nat :=
  if offset ≤ byteLength cs then some (splitBytes offset cs).1.length else none

/-- A text with something put in in front of the character at a byte offset. -/
def insertAt? (offset : Nat) (insertion cs : List Char) : Option (List Char) :=
  (charAt? offset cs).map fun i => cs.take i ++ insertion ++ cs.drop i

/-- Putting something in between two parts. -/
theorem insertAt?_byteLength (front back insertion : List Char) :
    insertAt? (byteLength front) insertion (front ++ back) =
      some (front ++ insertion ++ back) := by
  have hle : byteLength front ≤ byteLength (front ++ back) := by simp
  rw [insertAt?, charAt?, if_pos hle, splitBytes_byteLength, Option.map_some, List.take_left,
    List.drop_left]

/-- If there is such a character, the parts are those that the offset cuts the text into. -/
theorem eq_of_insertAt? {offset : Nat} {insertion cs result : List Char}
    (h : insertAt? offset insertion cs = some result) :
    (splitBytes offset cs).1 ++ insertion ++ (splitBytes offset cs).2 = result := by
  obtain ⟨i, hi, rfl⟩ := Option.map_eq_some_iff.1 h
  rw [charAt?] at hi
  split at hi
  case isFalse => cases hi
  case isTrue =>
    obtain rfl := Option.some.inj hi
    have hsplit := splitBytes_append offset cs
    generalize splitBytes offset cs = parts at hsplit ⊢
    rw [← hsplit, List.take_left, List.drop_left]

theorem utf8ByteSize_eq_byteLength (s : String) : s.utf8ByteSize = byteLength s.toList := by
  rw [← String.ofList_toList (s := s), String.utf8ByteSize_ofList, String.toList_ofList]
  induction s.toList with
  | nil => rfl
  | cons c cs ih => rw [String.utf8Len_cons, byteLength_cons, ih, Nat.add_comm]

theorem slice_subset (start stop : Nat) (cs : List Char) : slice start stop cs ⊆ cs := by
  have hback : (splitBytes start cs).2 ⊆ cs := by
    have hsplit := splitBytes_append start cs
    exact fun c hc => hsplit ▸ List.mem_append_right _ hc
  have hfront := splitBytes_append (stop - start) (splitBytes start cs).2
  exact fun c hc => hback (hfront ▸ List.mem_append_left _ hc)

theorem eq_slice_of_slice? {start stop : Nat} {cs part : List Char}
    (h : slice? start stop cs = some part) : part = slice start stop cs := by
  rw [slice?] at h
  split at h
  · exact (Option.some.inj h).symm
  · cases h

end Text

namespace Highlight

/-! ## Programs -/

/-- A text with the tags of some tokens of the text at the start, of which `added` bytes were put in
    so far. -/
def taggedFrom? (map : TagMap) (added : Nat) (text : List Char) :
    List HighlightToken → Option (List Char)
  | [] => some text
  | token :: rest =>
    match map token.type with
    | none => taggedFrom? map added text rest
    | some tags => do
      let text ← Text.insertAt? (token.span.start + added) tags.opening.toList text
      let added := added + tags.opening.utf8ByteSize
      let text ← Text.insertAt? (token.span.stop + added) tags.closing.toList text
      taggedFrom? map (added + tags.closing.utf8ByteSize) text rest

/-- A source with tags around its tokens, as a row of characters. -/
def tagged? (map : TagMap) (source : String) (tree : Tree) : Option String :=
  (taggedFrom? map 0 source.toList (tokens tree)).map String.ofList

/-- A part of a source with the tags that a table has for it, if it has some. -/
def TagMap.wrap (map : TagMap) (t : TokenType) (part : List Char) : List Char :=
  match map t with
  | none => part
  | some tags => tags.opening.toList ++ part ++ tags.closing.toList

/-- A source from the byte offset `cursor` on, part by part: what stands in front of each token, the
    token with its tags, and what stands behind the last one. -/
def segmented (map : TagMap) (source : List Char) (cursor : Nat) : List HighlightToken → List Char
  | [] => Text.slice cursor (Text.byteLength source) source
  | token :: rest =>
    Text.slice cursor token.span.start source ++
      map.wrap token.type (Text.slice token.span.start token.span.stop source) ++
      segmented map source token.span.stop rest

/-! ## A place in the text -/

/-- The text with a place in it has the characters that the row of characters has. -/
theorem Tagging.toList_insertAt {state : Tagging} {offset : Nat} {insertion : String}
    {text : List Char}
    (h : Text.insertAt? (offset + state.added) insertion.toList state.text.toList = some text) :
    (state.insertAt offset insertion).text.toList = text := by
  rw [← Text.eq_of_insertAt? h]
  exact Text.GapBuffer.toList_insert ..

/-- One token after the other, the two programs put in the same. -/
theorem Tagging.toList_foldl_add {map : TagMap} {state : Tagging} {tokens : List HighlightToken}
    {text : List Char} (h : taggedFrom? map state.added state.text.toList tokens = some text) :
    (tokens.foldl (Tagging.add map) state).text.toList = text := by
  induction tokens generalizing state with
  | nil => exact Option.some.inj h
  | cons token rest ih =>
    rw [taggedFrom?] at h
    rw [List.foldl_cons, Tagging.add]
    cases hmap : map token.type with
    | none => exact ih (by simpa only [hmap] using h)
    | some tags =>
      simp only [hmap] at h
      obtain ⟨opened, hopened, h⟩ := Option.bind_eq_some_iff.1 h
      obtain ⟨closed, hclosed, h⟩ := Option.bind_eq_some_iff.1 h
      have hopening := Tagging.toList_insertAt hopened
      have hclosing : ((state.insertAt token.span.start tags.opening).insertAt token.span.stop
          tags.closing).text.toList = closed := Tagging.toList_insertAt (hopening ▸ hclosed)
      exact ih (hclosing ▸ h)

/-! ## Parts of the source -/

/-- Tokens that stand one behind the other, between characters of a source, from a byte offset
    on. -/
structure StandFrom (source : List Char) (cursor : Nat) (tokens : List HighlightToken) :
    Prop where
  start : ∀ t ∈ tokens, cursor ≤ t.span.start
  le : ∀ t ∈ tokens, t.span.start ≤ t.span.stop
  boundary : ∀ t ∈ tokens,
    Text.IsBoundary source t.span.start ∧ Text.IsBoundary source t.span.stop
  apart : tokens.Pairwise fun a b => a.span.stop ≤ b.span.start

/-- The first of the tokens cuts what is left of the source into three parts, and the others stand
    in the last of them. -/
theorem StandFrom.exists_parts {front text : List Char} {token : HighlightToken}
    {rest : List HighlightToken}
    (h : StandFrom (front ++ text) (Text.byteLength front) (token :: rest)) :
    ∃ gap part back, text = gap ++ part ++ back ∧
      token.span.start = Text.byteLength (front ++ gap) ∧
      token.span.stop = Text.byteLength (front ++ gap ++ part) ∧
      StandFrom (front ++ text) (Text.byteLength (front ++ gap ++ part)) rest := by
  obtain ⟨⟨hs, ht⟩, hboundary⟩ := List.forall_mem_cons.1 h.boundary
  obtain ⟨hstart, -⟩ := List.forall_mem_cons.1 h.start
  obtain ⟨hle, hleRest⟩ := List.forall_mem_cons.1 h.le
  obtain ⟨hrow, hapart⟩ := List.pairwise_cons.1 h.apart
  obtain ⟨gap, after, rfl, hgap⟩ := hs.exists_middle hstart
  rw [← List.append_assoc] at ht
  obtain ⟨part, back, rfl, hpart⟩ := ht.exists_middle (hgap ▸ hle)
  refine ⟨gap, part, back, (List.append_assoc ..).symm, hgap, hpart, ?_, hleRest, hboundary, hapart⟩
  exact fun t hmem => hpart ▸ hrow t hmem

/-- For tokens that stand one behind the other, no offset is behind the end, and what is put in
    stands around the parts of the source. Here `written` is what the text in front of the tokens
    became. -/
theorem taggedFrom?_eq {map : TagMap} {front text written : List Char} {added : Nat}
    {tokens : List HighlightToken}
    (h : StandFrom (front ++ text) (Text.byteLength front) tokens)
    (hwritten : Text.byteLength written = Text.byteLength front + added) :
    taggedFrom? map added (written ++ text) tokens =
      some (written ++ segmented map (front ++ text) (Text.byteLength front) tokens) := by
  induction tokens generalizing front text written added with
  | nil =>
    have hslice := Text.slice_append front text []
    rw [List.append_nil] at hslice
    rw [taggedFrom?, segmented, hslice]
  | cons token rest ih =>
    obtain ⟨gap, part, back, rfl, hstart, hstop, hrest⟩ := h.exists_parts
    have hsource : front ++ (gap ++ part ++ back) = front ++ gap ++ part ++ back := by simp
    have hgap := Text.slice_append front gap (part ++ back)
    have hpart := Text.slice_append (front ++ gap) part back
    rw [← List.append_assoc] at hgap
    rw [hsource] at hrest ⊢
    rw [segmented, hstart, hstop, hgap, hpart, TagMap.wrap]
    rw [taggedFrom?]
    cases map token.type with
    | none =>
      have hlength : Text.byteLength (written ++ gap ++ part) =
          Text.byteLength (front ++ gap ++ part) + added := by
        simp only [Text.byteLength_append, hwritten]
        omega
      simpa using ih hrest hlength
    | some tags =>
      -- The bytes put in so far carry an offset in the source over to one in the text.
      have hopening : token.span.start + added = Text.byteLength (written ++ gap) := by
        simp only [hstart, Text.byteLength_append, hwritten]
        omega
      have hopened : Text.insertAt? (token.span.start + added) tags.opening.toList
          (written ++ (gap ++ part ++ back)) =
            some (written ++ gap ++ tags.opening.toList ++ part ++ back) := by
        have := Text.insertAt?_byteLength (written ++ gap) (part ++ back) tags.opening.toList
        rw [hopening]
        simpa using this
      have hclosing : token.span.stop + (added + tags.opening.utf8ByteSize) =
          Text.byteLength (written ++ gap ++ tags.opening.toList ++ part) := by
        simp only [hstop, Text.byteLength_append, hwritten, Text.utf8ByteSize_eq_byteLength]
        omega
      have hclosed := Text.insertAt?_byteLength (written ++ gap ++ tags.opening.toList ++ part) back
        tags.closing.toList
      rw [← hclosing] at hclosed
      have hlength :
          Text.byteLength (written ++ gap ++ tags.opening.toList ++ part ++ tags.closing.toList) =
            Text.byteLength (front ++ gap ++ part) +
              (added + tags.opening.utf8ByteSize + tags.closing.utf8ByteSize) := by
        simp only [Text.byteLength_append, hwritten, Text.utf8ByteSize_eq_byteLength]
        omega
      dsimp only
      rw [hopened, Option.bind_eq_bind, Option.bind_some, hclosed, Option.bind_some,
        ih hrest hlength]
      simp

/-- For the tokens of a source, tags are put in without an offset behind the end, and they stand
    around the parts of the source. -/
theorem IsPartition.tagged_eq {τ : Type} {tree : Tree} {source : String}
    {lexemes : List (Lexeme τ)} {errors : List RawNode}
    (h : IsPartition (tokens tree) source.toList lexemes errors) (map : TagMap) :
    tagged? map source tree = some (tagged map source tree) ∧
      (tagged map source tree).toList = segmented map source.toList 0 (tokens tree) := by
  have hstand : StandFrom ([] ++ source.toList) (Text.byteLength []) (tokens tree) :=
    ⟨fun _ _ => Nat.zero_le _, fun t ht => (h.lt t ht).le, h.boundary, h.apart⟩
  have hlength : Text.byteLength [] = Text.byteLength [] + 0 := rfl
  have hrow : taggedFrom? map 0 source.toList (tokens tree) =
      some (segmented map source.toList 0 (tokens tree)) := taggedFrom?_eq hstand hlength
  have htagged : tagged map source tree =
      String.ofList (segmented map source.toList 0 (tokens tree)) := by
    rw [tagged, @Tagging.toList_foldl_add map ⟨.ofList source.toList, 0⟩ _ _ hrow]
  rw [tagged?, hrow, htagged, String.toList_ofList]
  exact ⟨rfl, rfl⟩

/-! ## Elements as tags -/

/-- The characters that are written as entities. -/
def special : List Char := ['&', '<', '>', '"']

theorem flatMap_escape_of_plain {text : List Char} (h : ∀ c ∈ text, c ∉ special) :
    text.flatMap escape = text := by
  induction text with
  | nil => rfl
  | cons c cs ih =>
    obtain ⟨hc, hcs⟩ := List.forall_mem_cons.1 h
    rw [List.flatMap_cons, ih hcs]
    rcases Html.escape_cases c with ⟨rfl, -⟩ | ⟨rfl, -⟩ | ⟨rfl, -⟩ | ⟨rfl, -⟩ | ⟨-, -, -, hescape⟩
    case inr.inr.inr.inr => rw [hescape, List.singleton_append]
    all_goals exact absurd (by decide) hc

/-- Slices of a source without characters that are written as entities are written as they are. -/
theorem toList_of_htmlFrom? {source : List Char} (hplain : ∀ c ∈ source, c ∉ special)
    {tokens : List HighlightToken} {out result : String} {cursor : Nat}
    (h : htmlFrom? source out cursor tokens = some result) :
    result.toList = out.toList ++ segmented htmlTags source cursor tokens := by
  have hslice : ∀ start stop,
      (Text.slice start stop source).flatMap escape = Text.slice start stop source := fun _ _ =>
    flatMap_escape_of_plain fun c hc => hplain c (Text.slice_subset _ _ _ hc)
  induction tokens generalizing out cursor with
  | nil =>
    obtain ⟨part, hpart, rfl⟩ := Option.map_eq_some_iff.1 h
    rw [toList_escaped, Text.eq_slice_of_slice? hpart, hslice]
    rfl
  | cons token rest ih =>
    obtain ⟨gap, hgap, h⟩ := Option.bind_eq_some_iff.1 h
    obtain ⟨part, hpart, h⟩ := Option.bind_eq_some_iff.1 h
    rw [ih h, Text.eq_slice_of_slice? hgap, Text.eq_slice_of_slice? hpart, segmented]
    simp only [String.toList_append, toList_escaped, hslice, TagMap.wrap, htmlTags_eq_element,
      List.append_assoc]

/-- The elements of HTML put in as tags make the text in HTML, if no character of the source is
    written as an entity. -/
theorem IsPartition.tagged_htmlTags {τ : Type} {tree : Tree} {source : String}
    {lexemes : List (Lexeme τ)} {errors : List RawNode}
    (h : IsPartition (tokens tree) source.toList lexemes errors)
    (hplain : ∀ c ∈ source.toList, c ∉ special) :
    tagged htmlTags source tree = html source tree := by
  refine String.toList_injective ?_
  rw [(h.tagged_eq htmlTags).2]
  exact (toList_of_htmlFrom? hplain h.html?_eq).symm

end Highlight

/-- Whatever the tags, a source in either language is tagged without an offset behind the end of
    the text, and the result is the source part by part: what stands in front of each token as it
    is, the token with its tags, if it has some, and what is left. With the elements of HTML as tags
    this is the source in HTML, unless a character of it is written as an entity. -/
theorem tagged_eq_segmented (source : String) :
    (∀ map : Highlight.TagMap,
      (Highlight.tagged? map source (Tree.parse Simpl.language source) =
          some (Highlight.tagged map source (Tree.parse Simpl.language source)) ∧
        (Highlight.tagged map source (Tree.parse Simpl.language source)).toList =
          Highlight.segmented map source.toList 0
            (Highlight.tokens (Tree.parse Simpl.language source))) ∧
      Highlight.tagged? map source (Tree.parse Peopl.language source) =
          some (Highlight.tagged map source (Tree.parse Peopl.language source)) ∧
        (Highlight.tagged map source (Tree.parse Peopl.language source)).toList =
          Highlight.segmented map source.toList 0
            (Highlight.tokens (Tree.parse Peopl.language source))) ∧
    ((∀ c ∈ source.toList, c ∉ Highlight.special) →
      Highlight.tagged Highlight.htmlTags source (Tree.parse Simpl.language source) =
          Highlight.html source (Tree.parse Simpl.language source) ∧
        Highlight.tagged Highlight.htmlTags source (Tree.parse Peopl.language source) =
          Highlight.html source (Tree.parse Peopl.language source)) :=
  ⟨fun map => ⟨(Simpl.isPartition_tokens source).tagged_eq map,
      (Peopl.isPartition_tokens source).tagged_eq map⟩,
    fun hplain => ⟨(Simpl.isPartition_tokens source).tagged_htmlTags hplain,
      (Peopl.isPartition_tokens source).tagged_htmlTags hplain⟩⟩

/-- A declaration of a type has no such characters. It is tagged as it is written in HTML, with an
    element around each token. -/
theorem tagged_htmlTags_declaration :
    (∀ c ∈ "type P x: Int.".toList, c ∉ Highlight.special) ∧
      Highlight.tagged Highlight.htmlTags "type P x: Int."
          (Tree.parse Simpl.language "type P x: Int.") =
        Highlight.html "type P x: Int." (Tree.parse Simpl.language "type P x: Int.") ∧
      Highlight.html "type P x: Int." (Tree.parse Simpl.language "type P x: Int.") =
        "<span class=\"keyword\">type</span> <span class=\"type\">P</span> " ++
        "<span class=\"variable-parameter\">x</span>" ++
        "<span class=\"punctuation-delimiter\">:</span> <span class=\"type\">Int</span>" ++
        "<span class=\"punctuation-delimiter\">.</span>" := by
  have hplain : ∀ c ∈ "type P x: Int.".toList, c ∉ Highlight.special := by
    simp [Highlight.special]
  refine ⟨hplain, ((tagged_eq_segmented _).2 hplain).1, ?_⟩
  cbv

end GrammarTools
