import GrammarTools.Operators
import GrammarTools.Proofs.Derivation
import Mathlib.Data.List.Forall2

/-!
# Parallel runs

A rule sees of a stream only the tokens to come, one by one. So on two streams
that look alike it does the same: it succeeds on both, at places that correspond
and with nodes that correspond, or it fails on both at places that correspond.

What it is to look alike is left open (`Likeness`): tokens correspond pairwise
for a while, and then each stream is at its end or at a *stop*, a token that the
rules can not tell from the end. No rule takes a stop.

`Likeness.Parallel` is closed under the ways to put rules together. A repetition
takes a token in every round, so in both runs the rounds end because the sign
does (`Parallel.iterate`).
-/

namespace GrammarTools

variable {τ : Type} {α β γ σ σ' : Type}

theorem TokenStream.isAt_of_end [DecidableEq τ] {s : TokenStream τ} {t : τ}
    (h : s.upcoming = []) : s.isAt t = false := by
  simp [isAt, peek, peekNth, h]

theorem TokenStream.exists_cons_of_atEnd {s : TokenStream τ} (h : s.atEnd = false) :
    ∃ l rest, s.upcoming = l :: rest := by
  refine List.exists_cons_of_ne_nil fun hnil => ?_
  simp [atEnd, hnil] at h

/-- A skip ends behind the first token if no token is left there, or it is to stop there. -/
theorem TokenStream.skipFrom_eq_advance {stop : τ → TokenStream τ → Bool} {s : TokenStream τ}
    {l : Lexeme τ} {rest : List (Lexeme τ)} {span : Span}
    (h : rest = [] ∨ stop l.token s.advance = true) :
    skipFrom stop (l :: rest) span s = (span.merge l.span, s.advance) := by
  rw [skipFrom]
  split
  · rfl
  · obtain rfl := h.resolve_right ‹_›
    rfl

/-- While skipping is not to stop, it takes the next token along. -/
theorem TokenStream.skipFrom_eq_skipFrom {stop : τ → TokenStream τ → Bool} {s : TokenStream τ}
    {l : Lexeme τ} {rest : List (Lexeme τ)} {span : Span} (h : stop l.token s.advance = false) :
    skipFrom stop (l :: rest) span s =
      skipFrom stop rest (span.merge l.span) s.advance := by
  rw [skipFrom, h, if_neg Bool.false_ne_true]

/-- The tokens from a place of a stream to a later one. -/
structure TokenStream.Takes (s : TokenStream τ) (ls : List (Lexeme τ)) (t : TokenStream τ) :
    Prop where
  upcoming : s.upcoming = ls ++ t.upcoming
  endOffset : t.endOffset = s.endOffset

namespace Rule

variable {sign : TokenStream τ → Option γ} {round : γ → σ → Rule τ σ} {f : σ → Rule τ α}
  {measure : List (Lexeme τ)} {s : TokenStream τ} {x : σ}

theorem bind_of_ok {r : Rule τ σ} {t : TokenStream τ} (h : r s = .ok (x, t)) :
    (r >>= f) s = f x t := by
  simp [Bind.bind, StateT.bind, Except.bind, h]

theorem bind_of_error {r : Rule τ σ} {e : SyntaxError} (h : r s = .error e) :
    (r >>= f) s = .error e := by
  simp [Bind.bind, StateT.bind, Except.bind, h]

/-- Where the sign for a round is missing, what follows the rounds comes next. -/
theorem iterateFrom_bind_of_none (h : sign s = none) :
    (iterateFrom sign round measure x >>= f) s = f x s := by
  cases measure <;> simp [Bind.bind, StateT.bind, Except.bind, iterateFrom, h]

/-- Where the sign holds, a round comes first, with one lexeme less to measure the others by. -/
theorem iterateFrom_cons_bind {l : Lexeme τ} {more : γ} (h : sign s = some more) :
    (iterateFrom sign round (l :: measure) x >>= f) s =
      (round more x >>= fun x => iterateFrom sign round measure x >>= f) s := by
  simp only [Bind.bind, StateT.bind, Except.bind, iterateFrom, h]
  cases round more x s <;> rfl

end Rule

/-- The stretch, the tokens expected and the token found are those of a place. -/
structure SyntaxError.IsAt (e : SyntaxError) (s : TokenStream τ) : Prop where
  span : e.span = s.span
  found : e.found = s.text?
  expected : e.expected ≠ []

/-- A rule may be asked to take a token, or not, and be known to, or not. What is asked follows
    from what is known if nothing is asked, or just what is known. -/
class StrictEnough (asked known : Bool) : Prop where
  imp : asked = true → known = true

instance (known : Bool) : StrictEnough false known := ⟨(absurd · Bool.false_ne_true)⟩

instance (strict : Bool) : StrictEnough strict strict := ⟨id⟩

/-- A way to compare two streams, the left one and the right one. -/
structure Likeness (τ : Type) where
  /-- The tokens that correspond. -/
  like : Lexeme τ → Lexeme τ → Prop
  /-- The stops of the left stream. -/
  leftStop : Lexeme τ → Prop
  /-- The stops of the right stream. -/
  rightStop : Lexeme τ → Prop
  /-- The nodes that correspond. -/
  node : RawNode → RawNode → Prop
  same : ∀ {l l'}, like l l' → l.token = l'.token ∧ l.text = l'.text
  leaf : ∀ {l l'} (kind : KindId), like l l' → node (.leaf kind l.span) (.leaf kind l'.span)
  branch : ∀ {children children'} (kind : KindId), List.Forall₂ node children children' →
    node (.branch kind children) (.branch kind children')
  withField : ∀ {n n'} (field : FieldId), node n n' → node (n.withField field) (n'.withField field)

namespace Likeness

theorem branch_eq_of_forall₂ {children children' : List RawNode} (kind : KindId)
    (h : List.Forall₂ Eq children children') :
    RawNode.branch kind children = RawNode.branch kind children' := by
  rw [List.forall₂_eq_eq_eq] at h
  rw [h]

theorem withField_eq {n n' : RawNode} (field : FieldId) (h : n = n') :
    n.withField field = n'.withField field := by
  rw [h]

/-- The same tokens and nodes on both sides, up to stops. -/
def upTo (leftStop rightStop : Lexeme τ → Prop) : Likeness τ where
  like := Eq
  leftStop := leftStop
  rightStop := rightStop
  node := Eq
  same h := h ▸ ⟨rfl, rfl⟩
  leaf _ h := h ▸ rfl
  branch kind h := branch_eq_of_forall₂ kind h
  withField field h := withField_eq field h

variable {L : Likeness τ}

/-- Tokens that correspond up to where both rows end or are at a stop. -/
inductive Alike (L : Likeness τ) : List (Lexeme τ) → List (Lexeme τ) → Prop
  | ends {ls ls' : List (Lexeme τ)} : (∀ l ∈ ls.head?, L.leftStop l) →
      (∀ l ∈ ls'.head?, L.rightStop l) → Alike L ls ls'
  | cons {l l' : Lexeme τ} {ls ls' : List (Lexeme τ)} : L.like l l' → Alike L ls ls' →
      Alike L (l :: ls) (l' :: ls')

/-- Places from which the tokens to come are alike. -/
def Places (L : Likeness τ) (s s' : TokenStream τ) : Prop := L.Alike s.upcoming s'.upcoming

/-- A token that may be a stop of the left stream. -/
def IsLeftStop (L : Likeness τ) (t : τ) : Prop := ∃ l, L.leftStop l ∧ l.token = t

/-- A token that may be a stop of one of the streams. -/
def IsStop (L : Likeness τ) (t : τ) : Prop := ∃ l, (L.leftStop l ∨ L.rightStop l) ∧ l.token = t

/-- Two streams that move on over tokens that correspond, over one at least if `strict`. -/
structure Moves (L : Likeness τ) (strict : Bool) (s s' t t' : TokenStream τ) : Prop where
  passed : ∃ ls ls', s.upcoming = ls ++ t.upcoming ∧ s'.upcoming = ls' ++ t'.upcoming ∧
    List.Forall₂ L.like ls ls' ∧ (∀ l ∈ ls, ¬ L.leftStop l) ∧ (strict → ls ≠ [])
  places : L.Places t t'
  left_end : t.endOffset = s.endOffset
  right_end : t'.endOffset = s'.endOffset

/-- The results of two runs that correspond. Only the end of one of the streams makes a
    difference to what an error expects. -/
inductive Outcome (L : Likeness τ) (strict : Bool) (R : α → β → Prop) (s s' : TokenStream τ) :
    Except SyntaxError (α × TokenStream τ) → Except SyntaxError (β × TokenStream τ) → Prop
  | ok {a : α} {b : β} {t t' : TokenStream τ} : R a b → L.Moves strict s s' t t' →
      Outcome L strict R s s' (.ok (a, t)) (.ok (b, t'))
  | error {e e' : SyntaxError} {t t' : TokenStream τ} : L.Moves false s s' t t' → e.IsAt t →
      e'.IsAt t' → (t.atEnd = t'.atEnd → e.expected = e'.expected) →
      Outcome L strict R s s' (.error e) (.error e')

/-- Two rules that do the same at two places. -/
def Parallel (L : Likeness τ) (strict : Bool) (R : α → β → Prop) (r : Rule τ α) (r' : Rule τ β)
    (s s' : TokenStream τ) : Prop :=
  L.Outcome strict R s s' (r s) (r' s')

variable {s s' t t' u u' : TokenStream τ} {strict strict' : Bool} {R : α → β → Prop}

/-! ## Places -/

/-- Streams that have like lexemes throughout are alike. -/
theorem Alike.of_forall₂ {ls ls' : List (Lexeme τ)} (h : List.Forall₂ L.like ls ls') :
    L.Alike ls ls' := by
  induction h with
  | nil => exact .ends (by simp) (by simp)
  | cons hl _ ih => exact .cons hl ih

/-- Without stops, rows are alike if their tokens are so one by one. -/
theorem alike_iff_forall₂ (hleft : ∀ l, ¬ L.leftStop l) (hright : ∀ l, ¬ L.rightStop l)
    {ls ls' : List (Lexeme τ)} : L.Alike ls ls' ↔ List.Forall₂ L.like ls ls' := by
  refine ⟨fun h => ?_, .of_forall₂⟩
  induction h with
  | @ends ls ls' hls hls' =>
    cases ls with
    | cons l _ => exact absurd (hls l rfl) (hleft l)
    | nil =>
      cases ls' with
      | cons l' _ => exact absurd (hls' l' rfl) (hright l')
      | nil => exact .nil
  | cons hl _ ih => exact .cons hl ih

/-- A stream is like itself, if every lexeme is. -/
theorem Alike.refl (hlike : ∀ l, L.like l l) (ls : List (Lexeme τ)) : L.Alike ls ls :=
  .of_forall₂ (List.forall₂_same.2 fun l _ => hlike l)

namespace Places

/-- A left stream in front of a token that is no stop has a like token on the right. -/
theorem exists_upcoming {x : τ} (hs : L.Places s s') (hp : s.peek = some x)
    (hx : ¬ L.IsLeftStop x) :
    ∃ l l' ls ls', s.upcoming = l :: ls ∧ s'.upcoming = l' :: ls' ∧ l.token = x ∧
      L.like l l' ∧ L.Alike ls ls' := by
  obtain ⟨l, ls, hu, hl, -⟩ := TokenStream.exists_upcoming hp
  unfold Places at hs
  generalize hu' : s'.upcoming = right at hs
  rw [hu] at hs
  cases hs with
  | ends hleft => exact absurd ⟨l, hleft l rfl, hl⟩ hx
  | cons hlike halike => exact ⟨l, _, ls, _, hu, rfl, hl, hlike, halike⟩

/-- A left stream that has not ended, and is at no stop, has a like token on the right. -/
theorem exists_cons (hs : L.Places s s') (hend : s.atEnd = false) (hleft : ∀ l, ¬ L.leftStop l) :
    ∃ l l' ls ls', s.upcoming = l :: ls ∧ s'.upcoming = l' :: ls' ∧ L.like l l' ∧
      L.Alike ls ls' := by
  obtain ⟨l, ls, hu⟩ := TokenStream.exists_cons_of_atEnd hend
  have hp : s.peek = some l.token := by simp [TokenStream.peek, TokenStream.peekNth, hu]
  have hstop : ¬ L.IsLeftStop l.token := by
    rintro ⟨m, hm, -⟩
    exact hleft m hm
  obtain ⟨l, l', ls, ls', hu, hu', -, hlike, halike⟩ := hs.exists_upcoming hp hstop
  exact ⟨l, l', ls, ls', hu, hu', hlike, halike⟩

/-- Both streams are in front of the same token, or each of them is at a stop or at its end. -/
theorem peek_cases (hs : L.Places s s') : s.peek = s'.peek ∨
    (∀ x, s.peek = some x → L.IsStop x) ∧ ∀ x, s'.peek = some x → L.IsStop x := by
  unfold Places at hs
  generalize hu : s.upcoming = left at hs
  generalize hu' : s'.upcoming = right at hs
  cases hs with
  | ends hleft hright =>
    refine .inr ⟨fun x hx => ?_, fun x hx => ?_⟩
    · obtain ⟨l, ls, hl, hlx, -⟩ := TokenStream.exists_upcoming hx
      rw [← hu, hl] at hleft
      exact ⟨l, .inl (hleft l rfl), hlx⟩
    · obtain ⟨l, ls, hl, hlx, -⟩ := TokenStream.exists_upcoming hx
      rw [← hu', hl] at hright
      exact ⟨l, .inr (hright l rfl), hlx⟩
  | cons hlike _ =>
    exact .inl (by simp [TokenStream.peek, TokenStream.peekNth, hu, hu', (L.same hlike).1])

/-- What is asked about the next token is answered alike, if a stop gives the same answer as
    the end. -/
theorem peek_eq {f : Option τ → γ} (hs : L.Places s s')
    (hf : ∀ x, L.IsStop x → f (some x) = f none) : f s.peek = f s'.peek := by
  have hend : ∀ {o}, (∀ x, o = some x → L.IsStop x) → f o = f none := by
    intro o ho
    cases o with
    | none => rfl
    | some x => exact hf x (ho x rfl)
  rcases hs.peek_cases with h | ⟨hleft, hright⟩
  · rw [h]
  · rw [hend hleft, hend hright]

/-- A token that is no stop comes next on both sides, or on neither. -/
theorem isAt_eq [DecidableEq τ] {x : τ} (hs : L.Places s s') (hx : ¬ L.IsStop x) :
    s.isAt x = s'.isAt x :=
  hs.peek_eq (f := fun o => o == some x) fun y hy => by
    have hne : y ≠ x := fun h => hx (h ▸ hy)
    simp [hne]

/-- Behind a token that is taken on both sides, the streams are still alike. -/
theorem advance {x : τ} (hs : L.Places s s') (hp : s.peek = some x) (hx : ¬ L.IsLeftStop x) :
    L.Places s.advance s'.advance := by
  obtain ⟨l, l', ls, ls', hu, hu', -, -, halike⟩ := hs.exists_upcoming hp hx
  simpa [Places, TokenStream.advance, hu, hu'] using halike

/-- A token that both sides take has the same text. -/
theorem text?_eq {x : τ} (hs : L.Places s s') (hp : s.peek = some x) (hx : ¬ L.IsLeftStop x) :
    s.text? = s'.text? := by
  obtain ⟨l, l', ls, ls', hu, hu', -, hlike, -⟩ := hs.exists_upcoming hp hx
  rw [TokenStream.text?, TokenStream.text?, hu, hu']
  exact congrArg some (L.same hlike).2

/-- The same for a question about the next token and another one, if the other is asked only
    behind a token that is no stop. -/
theorem and_eq {f : Option τ → Bool} {q q' : Bool} (hs : L.Places s s') (hnone : f none = false)
    (hf : ∀ x, L.IsStop x → f (some x) = false)
    (hq : ∀ x x', s.peek = some x → s'.peek = some x' → L.Places s.advance s'.advance → q = q') :
    (f s.peek && q) = (f s'.peek && q') := by
  have hfirst := hs.peek_eq (f := f) fun x hx => (hf x hx).trans hnone.symm
  cases hp : s.peek with
  | none => rw [← hfirst, hp, hnone, Bool.false_and, Bool.false_and]
  | some x =>
    by_cases hx : L.IsStop x
    · rw [← hfirst, hp, hf x hx, Bool.false_and, Bool.false_and]
    · have hleft : ¬ L.IsLeftStop x := fun ⟨l, hl, h⟩ => hx ⟨l, .inl hl, h⟩
      obtain ⟨l, l', ls, ls', hu, hu', hl, hlike, -⟩ := hs.exists_upcoming hp hleft
      have hp' : s'.peek = some l'.token := by
        simp [TokenStream.peek, TokenStream.peekNth, hu']
      rw [hq x _ hp hp' (hs.advance hp hleft), ← hp, hfirst]

/-- The same for a question about the next two tokens. -/
theorem and_next_eq {f g : Option τ → Bool} (hs : L.Places s s') (hnone : f none = false)
    (hf : ∀ x, L.IsStop x → f (some x) = false) (hg : ∀ x, L.IsStop x → g (some x) = g none) :
    (f s.peek && g (s.peekNth 1)) = (f s'.peek && g (s'.peekNth 1)) := by
  refine hs.and_eq hnone hf fun x x' hp hp' hnext => ?_
  have hsecond := hnext.peek_eq hg
  rwa [TokenStream.peek, TokenStream.peek, TokenStream.peekNth_advance hp,
    TokenStream.peekNth_advance hp'] at hsecond

end Places

namespace Moves

theorem refl (hs : L.Places s s') : L.Moves false s s' s s' :=
  ⟨⟨[], [], rfl, rfl, .nil, by simp, by simp⟩, hs, rfl, rfl⟩

/-- Two moves are one, which is as strict as the first of them. -/
theorem trans (h : L.Moves strict s s' t t') (h' : L.Moves strict' t t' u u') :
    L.Moves strict s s' u u' := by
  obtain ⟨⟨ls, ls', hu, hu', hlike, hstop, hne⟩, -, hend, hend'⟩ := h
  obtain ⟨⟨ms, ms', hv, hv', hlike', hstop', -⟩, hplaces, hend₂, hend₂'⟩ := h'
  refine ⟨⟨ls ++ ms, ls' ++ ms', ?_, ?_, List.rel_append hlike hlike', ?_, fun h => ?_⟩, hplaces,
    hend₂.trans hend, hend₂'.trans hend'⟩
  · rw [hu, hv, List.append_assoc]
  · rw [hu', hv', List.append_assoc]
  · simpa [or_imp, forall_and] using ⟨hstop, hstop'⟩
  · exact List.append_ne_nil_of_left_ne_nil (hne h) _

theorem weaken (h : L.Moves strict s s' t t') [StrictEnough strict' strict] :
    L.Moves strict' s s' t t' := by
  obtain ⟨⟨ls, ls', hu, hu', hlike, hstop, hne⟩, hplaces, hend, hend'⟩ := h
  exact ⟨⟨ls, ls', hu, hu', hlike, hstop, fun h => hne (StrictEnough.imp h)⟩, hplaces, hend,
    hend'⟩

/-- Like lexemes in front are taken on both sides, and like rests are left. -/
theorem step {l l' : Lexeme τ} {ls ls' : List (Lexeme τ)} (hu : s.upcoming = l :: ls)
    (hu' : s'.upcoming = l' :: ls') (hl : ¬ L.leftStop l) (hlike : L.like l l')
    (halike : L.Alike ls ls') : L.Moves true s s' s.advance s'.advance := by
  refine ⟨⟨[l], [l'], ?_, ?_, .cons hlike .nil, by simpa using hl, by simp⟩, ?_, ?_, ?_⟩
  · simp [TokenStream.advance, hu]
  · simp [TokenStream.advance, hu']
  · simpa [Places, TokenStream.advance, hu, hu'] using halike
  · simp [TokenStream.advance, hu]
  · simp [TokenStream.advance, hu']

/-- A token that is no stop for the left side moves both sides on. -/
theorem advance {x : τ} (hs : L.Places s s') (hp : s.peek = some x) (hx : ¬ L.IsLeftStop x) :
    L.Moves true s s' s.advance s'.advance := by
  obtain ⟨l, l', ls, ls', hu, hu', hl, hlike, halike⟩ := hs.exists_upcoming hp hx
  exact step hu hu' (fun h => hx ⟨l, h, hl⟩) hlike halike

theorem left_suffix (h : L.Moves strict s s' t t') : t.upcoming <:+ s.upcoming := by
  obtain ⟨ls, -, hu, -⟩ := h.passed
  exact ⟨ls, hu.symm⟩

/-- Moves take nothing from the ends of the streams. -/
theorem endOffset_eq (h : L.Moves strict s s' t t') (hend : s.endOffset = s'.endOffset) :
    t.endOffset = t'.endOffset :=
  h.left_end.trans (hend.trans h.right_end.symm)

/-- What is taken on the two sides is alike, with no stop of the left side in it. -/
theorem takes (h : L.Moves strict s s' t t') :
    ∃ ls ls', s.Takes ls t ∧ s'.Takes ls' t' ∧ List.Forall₂ L.like ls ls' ∧
      ∀ l ∈ ls, ¬ L.leftStop l := by
  obtain ⟨⟨ls, ls', hu, hu', hlike, hstop, -⟩, -, hend, hend'⟩ := h
  exact ⟨ls, ls', ⟨hu, hend⟩, ⟨hu', hend'⟩, hlike, hstop⟩

/-- After a move over a token, fewer tokens are left in both streams. -/
theorem length_lt (h : L.Moves true s s' t t') :
    t.upcoming.length < s.upcoming.length ∧ t'.upcoming.length < s'.upcoming.length := by
  obtain ⟨⟨ls, ls', hu, hu', hlike, -, hne⟩, -⟩ := h
  have hpos := List.length_pos_iff.2 (hne rfl)
  have hlength := hlike.length_eq
  simp only [hu, hu', List.length_append]
  omega

end Moves

/-! ## Rules put together -/

namespace Parallel

/-- Where the left run succeeds, so does the right one, with a like result. -/
theorem of_ok {r : Rule τ α} {r' : Rule τ β} {a : α} (h : L.Parallel strict R r r' s s')
    (hr : r s = .ok (a, t)) : ∃ b t', r' s' = .ok (b, t') ∧ R a b ∧ L.Moves strict s s' t t' := by
  unfold Parallel at h
  rw [hr] at h
  generalize r' s' = x' at h ⊢
  cases h with
  | ok hab hm => exact ⟨_, _, rfl, hab, hm⟩

/-- Where the left run fails, so does the right one, for the same reasons if both are at an end or
    neither is. -/
theorem of_error {r : Rule τ α} {r' : Rule τ β} {e : SyntaxError}
    (h : L.Parallel strict R r r' s s') (hr : r s = .error e) :
    ∃ e' t t', r' s' = .error e' ∧ L.Moves false s s' t t' ∧ e.IsAt t ∧ e'.IsAt t' ∧
      (t.atEnd = t'.atEnd → e.expected = e'.expected) := by
  unfold Parallel at h
  rw [hr] at h
  generalize r' s' = x' at h ⊢
  cases h with
  | error hm he he' hexpected => exact ⟨_, _, _, rfl, hm, he, he', hexpected⟩

theorem pure {a : α} {b : β} (hs : L.Places s s') (h : R a b) :
    L.Parallel false R (Pure.pure a : Rule τ α) (Pure.pure b) s s' :=
  .ok h (.refl hs)

theorem fail {expected : List String} (hs : L.Places s s') (he : expected ≠ []) :
    L.Parallel strict R (Rule.fail expected) (Rule.fail expected) s s' :=
  .error (.refl hs) ⟨rfl, rfl, he⟩ ⟨rfl, rfl, he⟩ fun _ => rfl

/-- Rules nested too deeply are so on both sides, whatever comes next. -/
theorem tooDeep (hs : L.Places s s') : L.Parallel strict R Rule.tooDeep Rule.tooDeep s s' :=
  .error (.refl hs) ⟨rfl, rfl, List.cons_ne_nil _ _⟩ ⟨rfl, rfl, List.cons_ne_nil _ _⟩ fun _ => rfl

theorem weaken {r : Rule τ α} {r' : Rule τ β} (h : L.Parallel strict R r r' s s')
    [StrictEnough strict' strict] : L.Parallel strict' R r r' s s' := by
  unfold Parallel at h ⊢
  generalize r s = x at h ⊢
  generalize r' s' = x' at h ⊢
  cases h with
  | ok hab hm => exact .ok hab hm.weaken
  | error hm he he' hexpected => exact .error hm he he' hexpected

section bind

variable {α' β' : Type} {R' : α' → β' → Prop} {r : Rule τ α} {r' : Rule τ β}
  {f : α → Rule τ α'} {f' : β → Rule τ β'}

/-- One rule and then another, where it is known how the first one has gone. Both together
    take a token if the first one does. -/
theorem bind_of_eq (h : L.Parallel strict R r r' s s')
    (hf : ∀ {a b t t'}, r s = .ok (a, t) → R a b → L.Moves strict s s' t t' →
      L.Parallel false R' (f a) (f' b) t t') [StrictEnough strict' strict] :
    L.Parallel strict' R' (r >>= f) (r' >>= f') s s' := by
  cases hr : r s with
  | error e =>
    obtain ⟨e', t, t', hr', hm, he, he', hexpected⟩ := h.of_error hr
    rw [Parallel, Rule.bind_of_error hr, Rule.bind_of_error hr']
    exact .error hm he he' hexpected
  | ok x =>
    obtain ⟨a, t⟩ := x
    obtain ⟨b, t', hr', hab, hm⟩ := h.of_ok hr
    have hnext := hf hr hab hm
    rw [Parallel, Rule.bind_of_ok hr, Rule.bind_of_ok hr']
    unfold Parallel at hnext
    generalize f a t = y at hnext ⊢
    generalize f' b t' = y' at hnext ⊢
    cases hnext with
    | ok hab' hm' => exact .ok hab' (hm.trans hm').weaken
    | error hm' he he' hexpected => exact .error (hm.weaken.trans hm') he he' hexpected

/-- Parallel rules one after the other are parallel, and as strict as the first of them. -/
theorem bind (h : L.Parallel strict R r r' s s')
    (hf : ∀ {a b t t'}, R a b → L.Places t t' → L.Parallel false R' (f a) (f' b) t t')
    [StrictEnough strict' strict] : L.Parallel strict' R' (r >>= f) (r' >>= f') s s' :=
  h.bind_of_eq (fun _ hab hm => hf hab hm.places)

end bind

theorem leaf {x : τ} {kind : KindId} (hs : L.Places s s') (hp : s.peek = some x)
    (hx : ¬ L.IsLeftStop x) : L.Parallel true L.node (Rule.leaf kind) (Rule.leaf kind) s s' := by
  refine .ok ?_ (.advance hs hp hx)
  obtain ⟨l, l', ls, ls', hu, hu', -, hlike, -⟩ := hs.exists_upcoming hp hx
  simpa [TokenStream.span, hu, hu'] using L.leaf kind hlike

/-- A token that is no stop is found on both sides or missing on both. -/
theorem expect [DecidableEq τ] {x : τ} {kind : KindId} {description : String}
    (hs : L.Places s s') (hx : ¬ L.IsStop x) :
    L.Parallel true L.node (Rule.expect x kind description) (Rule.expect x kind description)
      s s' := by
  unfold Parallel Rule.expect
  rw [← hs.isAt_eq hx]
  split
  · exact leaf hs (TokenStream.peek_of_isAt ‹_›) fun ⟨l, hl, h⟩ => hx ⟨l, .inl hl, h⟩
  · exact fail hs (List.cons_ne_nil _ _)

/-- A rule that looks at the next token. What it does at a stop, it does at the end. -/
theorem peek {f : Option τ → Rule τ α} {f' : Option τ → Rule τ β} (hs : L.Places s s')
    (hf : ∀ x, L.IsStop x → f (some x) = f none) (hf' : ∀ x, L.IsStop x → f' (some x) = f' none)
    (h : ∀ o, (∀ x, o = some x → s.peek = some x ∧ ¬ L.IsLeftStop x) →
      L.Parallel strict R (f o) (f' o) s s') :
    L.Parallel strict R (Rule.peek >>= f) (Rule.peek >>= f') s s' := by
  have heq' := hs.peek_eq hf'
  have hboth : L.Outcome strict R s s' (f s.peek s) (f' s.peek s') := by
    cases hp : s.peek with
    | none => exact h none fun x hx => nomatch hx
    | some x =>
      by_cases hx : L.IsStop x
      · rw [hf x hx, hf' x hx]
        exact h none fun x hx => nomatch hx
      · refine h (some x) fun y hy => ?_
        cases hy
        exact ⟨hp, fun ⟨l, hl, h⟩ => hx ⟨l, .inl hl, h⟩⟩
  rw [heq'] at hboth
  exact hboth

/-- A rule that looks at the next token, where the left stream is at no stop. -/
theorem peek_of_eq {f : Option τ → Rule τ α} {f' : Option τ → Rule τ β} {x : τ}
    (hs : L.Places s s') (hp : s.peek = some x) (hx : ¬ L.IsLeftStop x)
    (h : L.Parallel strict R (f (some x)) (f' (some x)) s s') :
    L.Parallel strict R (Rule.peek >>= f) (Rule.peek >>= f') s s' := by
  obtain ⟨l, l', ls, ls', hu, hu', hl, hlike, -⟩ := hs.exists_upcoming hp hx
  have hp' : s'.peek = some x := by
    rw [TokenStream.peek, TokenStream.peekNth, hu', ← hl, (L.same hlike).1]
    rfl
  have heq : (Rule.peek >>= f) s = f s.peek s := rfl
  have heq' : (Rule.peek >>= f') s' = f' s'.peek s' := rfl
  rwa [Parallel, heq, heq', hp, hp']

/-- A rule that asks a question to which both places have the same answer. -/
theorem ite {question : TokenStream τ → Bool} {r₁ r₂ : Rule τ α} {r₁' r₂' : Rule τ β}
    (hq : question s = question s') (h₁ : question s = true → L.Parallel strict R r₁ r₁' s s')
    (h₂ : question s = false → L.Parallel strict R r₂ r₂' s s') :
    L.Parallel strict R (Rule.ask question >>= fun answer => if answer = true then r₁ else r₂)
      (Rule.ask question >>= fun answer => if answer = true then r₁' else r₂') s s' := by
  cases hanswer : question s with
  | true =>
    have h := h₁ hanswer
    rw [hanswer] at hq
    simpa [Parallel, Rule.ask, Bind.bind, StateT.bind, Except.bind, hanswer, ← hq] using h
  | false =>
    have h := h₂ hanswer
    rw [hanswer] at hq
    simpa [Parallel, Rule.ask, Bind.bind, StateT.bind, Except.bind, hanswer, ← hq] using h

/-- Numbers with the same text are of the same kind. -/
theorem numeral {x : τ} {float int : KindId} (hs : L.Places s s') (hp : s.peek = some x)
    (hx : ¬ L.IsLeftStop x) :
    L.Parallel true L.node (Rule.numeral float int) (Rule.numeral float int) s s' := by
  have htext := congrArg (fun text => (text.getD "").toList.contains '.') (hs.text?_eq hp hx)
  exact .ite htext (fun _ => leaf hs hp hx) fun _ => leaf hs hp hx

/-- A token and then a node. -/
theorem marked {x : τ} {kind : KindId} {r : Rule τ RawNode} (hs : L.Places s s')
    (hp : s.peek = some x) (hx : ¬ L.IsLeftStop x)
    (hr : ∀ {t'}, L.Places s.advance t' → L.Parallel true L.node r r s.advance t') :
    L.Parallel true (List.Forall₂ L.node)
      (do
        let mark ← Rule.leaf kind
        return [mark, ← r])
      (do
        let mark ← Rule.leaf kind
        return [mark, ← r]) s s' := by
  refine bind_of_eq (leaf hs hp hx) fun hok hmark hmoves => ?_
  cases hok
  refine bind (hr hmoves.places) fun hnode hs => ?_
  exact .pure hs (.cons hmark (.cons hnode .nil))

/-! ## Repetitions -/

section iterate

variable {R : σ → σ' → Prop} {R' : α → β → Prop} {sign : TokenStream τ → Option γ}
  {round : γ → σ → Rule τ σ} {round' : γ → σ' → Rule τ σ'} {f : σ → Rule τ α} {f' : σ' → Rule τ β}
  (hend : ∀ {s}, s.upcoming = [] → sign s = none)
  (hround : ∀ {s s' more x x'}, L.Places s s' → sign s = some more → R x x' →
    L.Parallel true R (round more x) (round' more x') s s')
include hend hround

/-- A repetition and what comes behind it. The right run may see a sign where the left one sees
    none, if the left run then fails behind the repetition and the right run in its next round. -/
theorem iterateFrom_bind
    (hsign : ∀ {s s' x x'}, L.Places s s' → R x x' → sign s ≠ sign s' → sign s = none ∧
      s.atEnd ≠ s'.atEnd ∧ (∃ e, f x s = .error e ∧ e.IsAt s) ∧
        ∀ more ∈ sign s', ∃ e, round' more x' s' = .error e ∧ e.IsAt s')
    (hdone : ∀ {s s' x x'}, L.Places s s' → R x x' → L.Parallel false R' (f x) (f' x') s s')
    {s s' : TokenStream τ} {measure measure' : List (Lexeme τ)} {x : σ} {x' : σ'}
    (hm : s.upcoming.length ≤ measure.length) (hm' : s'.upcoming.length ≤ measure'.length)
    (hs : L.Places s s') (hx : R x x') :
    L.Parallel false R' (Rule.iterateFrom sign round measure x >>= f)
      (Rule.iterateFrom sign round' measure' x' >>= f') s s' := by
  have hcons : ∀ {s : TokenStream τ} {measure : List (Lexeme τ)} {more : γ}, sign s = some more →
      s.upcoming.length ≤ measure.length → ∃ l rest, measure = l :: rest := by
    intro s measure more hsome hm
    refine List.exists_cons_of_ne_nil fun hnil => ?_
    rw [hnil] at hm
    rw [hend (List.length_eq_zero_iff.1 (Nat.le_zero.1 hm))] at hsome
    cases hsome
  -- Each measure bounds the tokens that are left, and each round takes one at least.
  by_cases heq : sign s = sign s'
  · cases hsome : sign s with
    | none =>
      rw [Parallel, Rule.iterateFrom_bind_of_none hsome,
        Rule.iterateFrom_bind_of_none (heq ▸ hsome)]
      exact hdone hs hx
    | some more =>
      have hsome' : sign s' = some more := heq ▸ hsome
      obtain ⟨l', rest', rfl⟩ := hcons hsome' hm'
      cases measure with
      | nil => exact absurd (hcons hsome hm) (by simp)
      | cons l rest =>
        rw [Parallel, Rule.iterateFrom_cons_bind hsome, Rule.iterateFrom_cons_bind hsome']
        refine bind_of_eq (hround hs hsome hx) fun _ hy hmoves => ?_
        have hlt := hmoves.length_lt
        exact iterateFrom_bind hsign hdone
          (Nat.le_of_lt_succ (Nat.lt_of_lt_of_le hlt.1 hm))
          (Nat.le_of_lt_succ (Nat.lt_of_lt_of_le hlt.2 hm')) hmoves.places hy
  · obtain ⟨hnone, hne, ⟨e, he, hat⟩, hfails⟩ := hsign hs hx heq
    rw [hnone, eq_comm, ← Ne, Option.ne_none_iff_exists'] at heq
    obtain ⟨more, hsome'⟩ := heq
    obtain ⟨l', rest', rfl⟩ := hcons hsome' hm'
    obtain ⟨e', he', hat'⟩ := hfails more hsome'
    rw [Parallel, Rule.iterateFrom_bind_of_none hnone, Rule.iterateFrom_cons_bind hsome', he,
      Rule.bind_of_error he']
    exact .error (.refl hs) hat hat' fun heq => absurd heq hne
termination_by measure

/-- Rounds are parallel together with what follows them. Where only one side sees a sign, what
    follows on the other must fail in the same place. -/
theorem iterate_bind
    (hsign : ∀ {s s' x x'}, L.Places s s' → R x x' → sign s ≠ sign s' → sign s = none ∧
      s.atEnd ≠ s'.atEnd ∧ (∃ e, f x s = .error e ∧ e.IsAt s) ∧
        ∀ more ∈ sign s', ∃ e, round' more x' s' = .error e ∧ e.IsAt s')
    (hdone : ∀ {s s' x x'}, L.Places s s' → R x x' → L.Parallel false R' (f x) (f' x') s s')
    {x : σ} {x' : σ'} (hs : L.Places s s') (hx : R x x') :
    L.Parallel false R' (Rule.iterate sign round x >>= f) (Rule.iterate sign round' x' >>= f')
      s s' :=
  iterateFrom_bind hend hround hsign hdone (Nat.le_refl _) (Nat.le_refl _) hs hx

/-- Rounds are parallel if both sides see the same signs. -/
theorem iterate (hsign : ∀ {s s'}, L.Places s s' → sign s = sign s') {x : σ} {x' : σ'}
    (hs : L.Places s s') (hx : R x x') :
    L.Parallel false R (Rule.iterate sign round x) (Rule.iterate sign round' x') s s' := by
  have h : L.Parallel false R (Rule.iterate sign round x >>= Pure.pure)
      (Rule.iterate sign round' x' >>= Pure.pure) s s' :=
    iterate_bind hend hround (fun hs _ hne => absurd (hsign hs) hne) (fun hs hx => .pure hs hx)
      hs hx
  rwa [bind_pure, bind_pure] at h

end iterate

section repeatWhile

variable {condition : TokenStream τ → Bool} {items : Rule τ (List RawNode)}
  (hend : ∀ {s}, s.upcoming = [] → condition s = false)
  (hitems : ∀ {s s'}, L.Places s s' → condition s = true →
    L.Parallel true (List.Forall₂ L.node) items items s s')
include hend hitems

/-- Repetitions are parallel together with what follows them, as rounds are. -/
theorem repeatWhile_bind {f : List RawNode → Rule τ α} {f' : List RawNode → Rule τ β}
    (hcondition : ∀ {s s' nodes nodes'}, L.Places s s' → List.Forall₂ L.node nodes nodes' →
      condition s ≠ condition s' → condition s = false ∧ s.atEnd ≠ s'.atEnd ∧
        (∃ e, f nodes s = .error e ∧ e.IsAt s) ∧ ∃ e, items s' = .error e ∧ e.IsAt s')
    (hdone : ∀ {s s' nodes nodes'}, L.Places s s' → List.Forall₂ L.node nodes nodes' →
      L.Parallel false R (f nodes) (f' nodes') s s') (hs : L.Places s s') :
    L.Parallel false R (Rule.repeatWhile condition items >>= f)
      (Rule.repeatWhile condition items >>= f') s s' := by
  rw [Rule.repeatWhile, bind_assoc, bind_assoc]
  refine iterate_bind (R := List.Forall₂ L.node) (fun h => ?_) (fun hs hc hfound => ?_)
    (fun {s s' found found'} hs hfound hne => ?_) (fun {s s' found found'} hs hfound => ?_) hs .nil
  · rw [hend h]
    rfl
  · exact bind (hitems hs (by simpa using hc)) fun hnodes hs =>
      .pure hs (List.rel_append (List.rel_reverse hnodes) hfound)
  · have hfound := List.rel_reverse hfound
    obtain ⟨hfalse, hends, ⟨e, he, hat⟩, e', he', hat'⟩ :=
      hcondition hs hfound fun heq => hne (by rw [heq])
    refine ⟨by rw [hfalse]; rfl, hends, ⟨e, ?_, hat⟩, fun _ _ =>
      ⟨e', Rule.bind_of_error he', hat'⟩⟩
    rw [pure_bind, he]
  · rw [pure_bind, pure_bind]
    exact hdone hs (List.rel_reverse hfound)

/-- Repetitions are parallel if the condition holds on both sides or on neither. -/
theorem repeatWhile (hcondition : ∀ {s s'}, L.Places s s' → condition s = condition s')
    (hs : L.Places s s') :
    L.Parallel false (List.Forall₂ L.node) (Rule.repeatWhile condition items)
      (Rule.repeatWhile condition items) s s' := by
  have h : L.Parallel false (List.Forall₂ L.node) (Rule.repeatWhile condition items >>= Pure.pure)
      (Rule.repeatWhile condition items >>= Pure.pure) s s' :=
    repeatWhile_bind hend hitems (fun hs _ hne => absurd (hcondition hs) hne)
      (fun hs hnodes => .pure hs hnodes) hs
  rwa [bind_pure] at h

end repeatWhile

/-- Nodes that a rule reads one by one while a condition holds. -/
theorem repeatEach {condition : TokenStream τ → Bool} {r : Rule τ RawNode}
    (hcondition : ∀ {s s'}, L.Places s s' → condition s = condition s')
    (hend : ∀ {s}, s.upcoming = [] → condition s = false)
    (hr : ∀ {s s'}, L.Places s s' → L.Parallel true L.node r r s s') (hs : L.Places s s') :
    L.Parallel false (List.Forall₂ L.node) (Rule.repeatWhile condition do return [← r])
      (Rule.repeatWhile condition do return [← r]) s s' :=
  repeatWhile hend (fun hs _ => bind (hr hs) fun hnode hs => .pure hs (.cons hnode .nil))
    hcondition hs

/-! ## Operators -/

theorem operator {form : OperatorForm} {x : τ} (hs : L.Places s s') (hp : s.peek = some x)
    (hx : ¬ L.IsLeftStop x) : L.Parallel true L.node form.node form.node s s' := by
  refine bind (leaf hs hp hx) fun htoken hs => .pure hs ?_
  cases form.group with
  | none => exact htoken
  | some group => exact L.branch group (.cons htoken .nil)

section operators

variable {ops : Operators τ} {operand : Rule τ RawNode}
  (hops : ∀ x, L.IsStop x → ops.form? x = none)
include hops

/-- Since no stop is an operator, both sides see the same operator of a level, or none. -/
theorem next?_eq (hs : L.Places s s') (level : OperatorClass) :
    ops.next? level s = ops.next? level s' :=
  hs.peek_eq
    (f := fun o => (o.bind ops.form?).filter fun form : OperatorForm => form.level == level)
    fun x hx => by simp [hops x hx]

variable (hoperand : ∀ {s s'}, L.Places s s' → L.Parallel true L.node operand operand s s')
include hoperand

/-- The operators of some classes extend like operands to like nodes. -/
theorem extendBy {classes : List OperatorClass} {left left' : RawNode} (hs : L.Places s s')
    (hleft : L.node left left') :
    L.Parallel false L.node (ops.extendBy operand classes left) (ops.extendBy operand classes left')
      s s' := by
  induction classes generalizing s s' left left' with
  | nil => exact .pure hs hleft
  | cons level tighter ih =>
    refine bind (ih hs hleft) fun hfirst hs => iterate (R := L.node)
      (fun h => ?_) (fun {s s' form left left'} hs hnext hleft => ?_)
      (fun hs => next?_eq hops hs level) hs hfirst
    · simp [Operators.next?, TokenStream.peek, TokenStream.peekNth, h]
    · obtain ⟨hform, -⟩ := Option.filter_eq_some_iff.1 hnext
      obtain ⟨x, hp, hx⟩ := Option.bind_eq_some_iff.1 hform
      -- A stop would be no operator.
      have hstop : ¬ L.IsLeftStop x := by
        rintro ⟨l, hl, h⟩
        rw [hops x ⟨l, .inl hl, h⟩] at hx
        cases hx
      refine bind (operator hs hp hstop) fun ho hs => ?_
      refine bind (hoperand hs) fun hr hs => ?_
      refine bind (ih hs hr) fun hr hs => .pure hs ?_
      exact L.branch _ (.cons (L.withField _ hleft) (.cons (L.withField _ ho)
        (.cons (L.withField _ hr) .nil)))

theorem extend {left left' : RawNode} (hs : L.Places s s') (hleft : L.node left left') :
    L.Parallel false L.node (ops.extend operand left) (ops.extend operand left') s s' :=
  extendBy hops hoperand hs hleft

theorem expression (hs : L.Places s s') :
    L.Parallel true L.node (ops.expression operand) (ops.expression operand) s s' :=
  bind (hoperand hs) fun hleft hs => extend hops hoperand hs hleft

end operators

/-- In front of an operand both streams have the same operator, or neither has one. -/
theorem signed {signs : Signs τ} {plain operand : Rule τ RawNode}
    (hsigns : ∀ x, L.IsStop x → signs.form? x = none)
    (hplain : ∀ {s s'}, L.Places s s' → L.Parallel true L.node plain plain s s')
    (hoperand : ∀ {s s'}, L.Places s s' → L.Parallel true L.node operand operand s s')
    (hs : L.Places s s') :
    L.Parallel true L.node (signs.signed plain operand) (signs.signed plain operand) s s' := by
  have hstop : ∀ x, L.IsStop x → (some x).bind signs.form? = none := hsigns
  refine .peek hs (fun x hx => by rw [hstop x hx]; rfl) (fun x hx => by rw [hstop x hx]; rfl)
    fun o ho => ?_
  split
  · exact hplain hs
  · rename_i form hform
    obtain ⟨x, rfl, -⟩ := Option.bind_eq_some_iff.1 hform
    refine bind (operator hs (ho _ rfl).1 (ho _ rfl).2) fun ho hs => ?_
    refine bind (hoperand hs) fun hr hs => .pure hs ?_
    exact L.branch _ (.cons (L.withField _ ho) (.cons (L.withField _ hr) .nil))

end Parallel

/-! ## Skips -/

section skipFrom

variable {r : Span → Span → Prop} {stop stop' : τ → TokenStream τ → Bool}
  (hlike : ∀ {l l'}, L.like l l' → r l.span l'.span)
  (hmerge : ∀ {a a' b b' : Span}, r a a' → r b b' → r (a.merge b) (a'.merge b'))
include hlike hmerge

/-- Skips over tokens that correspond, if they stop alike, and at stops in any case. The spans
    correspond in every way that merging keeps. There may be places of some kind where the left
    skip alone stops, and then it may have stopped at one of them. -/
theorem skipFrom_or {P : TokenStream τ → Prop}
    (hstop : ∀ x t t', L.Places t t' → t.upcoming ≠ [] → t'.upcoming ≠ [] →
      stop x t = stop' x t' ∨ stop x t = true ∧ P t)
    (hleft : ∀ x t, (∃ l ∈ t.upcoming.head?, L.leftStop l) → stop x t = true)
    (hright : ∀ x t, (∃ l ∈ t.upcoming.head?, L.rightStop l) → stop' x t = true)
    {s s' : TokenStream τ} {l l' : Lexeme τ} {rest rest' : List (Lexeme τ)}
    (hu : s.upcoming = l :: rest)
    (hu' : s'.upcoming = l' :: rest') (hl : ¬ L.leftStop l) (hlike' : L.like l l')
    (hrest : L.Alike rest rest') {span span' : Span} (hspan : r span span') :
    (r (TokenStream.skipFrom stop (l :: rest) span s).1
        (TokenStream.skipFrom stop' (l' :: rest') span' s').1 ∧
      L.Moves true s s' (TokenStream.skipFrom stop (l :: rest) span s).2
        (TokenStream.skipFrom stop' (l' :: rest') span' s').2) ∨
      P (TokenStream.skipFrom stop (l :: rest) span s).2 := by
  induction hrest generalizing s s' l l' span span' with
  | @ends rest rest' hends hends' =>
    have hmoves := Moves.step hu hu' hl hlike' (.ends hends hends')
    have hone : rest = [] ∨ stop l.token s.advance = true := by
      cases rest with
      | nil => exact .inl rfl
      | cons m _ => exact .inr (hleft _ _ ⟨m, by simp [TokenStream.advance, hu], hends m rfl⟩)
    have hone' : rest' = [] ∨ stop' l'.token s'.advance = true := by
      cases rest' with
      | nil => exact .inl rfl
      | cons m _ => exact .inr (hright _ _ ⟨m, by simp [TokenStream.advance, hu'], hends' m rfl⟩)
    -- At its end or at a stop each of the skips is over.
    rw [TokenStream.skipFrom_eq_advance hone, TokenStream.skipFrom_eq_advance hone']
    exact .inl ⟨hmerge hspan (hlike hlike'), hmoves⟩
  | @cons m m' more more' hm hmore ih =>
    have hmoves := Moves.step hu hu' hl hlike' (.cons hm hmore)
    have ha : s.advance.upcoming = m :: more := by simp [TokenStream.advance, hu]
    have ha' : s'.advance.upcoming = m' :: more' := by simp [TokenStream.advance, hu']
    have hnext := hmerge hspan (hlike hlike')
    have hboth := hstop l.token _ _ hmoves.places (by simp [ha]) (by simp [ha'])
    cases hstops : stop l.token s.advance with
    | true =>
      rw [TokenStream.skipFrom_eq_advance (.inr hstops)]
      -- The left skip is over. Either the right one is as well, or the place is an exception.
      rcases hboth with hboth | ⟨-, hexcept⟩
      · rw [hstops, (L.same hlike').1] at hboth
        rw [TokenStream.skipFrom_eq_advance (.inr hboth.symm)]
        exact .inl ⟨hnext, hmoves⟩
      · exact .inr hexcept
    | false =>
      have hstops' : stop' l'.token s'.advance = false := by
        rcases hboth with hboth | ⟨htrue, -⟩
        · rw [hstops, (L.same hlike').1] at hboth
          exact hboth.symm
        · rw [hstops] at htrue
          cases htrue
      have hnostop : ¬ L.leftStop m := fun h => by
        rw [hleft _ _ ⟨m, by simp [ha], h⟩] at hstops
        cases hstops
      rw [TokenStream.skipFrom_eq_skipFrom hstops, TokenStream.skipFrom_eq_skipFrom hstops']
      exact (ih ha ha' hnostop hm hnext).imp_left fun ⟨hr, hmore⟩ => ⟨hr, hmoves.trans hmore⟩

/-- Skipping goes up to like places, if it stops at like tokens and at every stop. -/
theorem skipFrom (hstop : ∀ x t t', L.Places t t' → t.upcoming ≠ [] → t'.upcoming ≠ [] →
      stop x t = stop' x t')
    (hleft : ∀ x t, (∃ l ∈ t.upcoming.head?, L.leftStop l) → stop x t = true)
    (hright : ∀ x t, (∃ l ∈ t.upcoming.head?, L.rightStop l) → stop' x t = true)
    {s s' : TokenStream τ} {l l' : Lexeme τ} {rest rest' : List (Lexeme τ)}
    (hu : s.upcoming = l :: rest)
    (hu' : s'.upcoming = l' :: rest') (hl : ¬ L.leftStop l) (hlike' : L.like l l')
    (hrest : L.Alike rest rest') {span span' : Span} (hspan : r span span') :
    r (TokenStream.skipFrom stop (l :: rest) span s).1
        (TokenStream.skipFrom stop' (l' :: rest') span' s').1 ∧
      L.Moves true s s' (TokenStream.skipFrom stop (l :: rest) span s).2
        (TokenStream.skipFrom stop' (l' :: rest') span' s').2 :=
  (skipFrom_or (P := fun _ => False) hlike hmerge
    (fun x t t' ht hne hne' => .inl (hstop x t t' ht hne hne')) hleft hright hu hu' hl hlike'
    hrest hspan).resolve_right id

end skipFrom

end Likeness

/-- Inner rules that do the same on streams that are alike. -/
structure Nested.Parallel (L : Likeness τ) (below : Nested τ) : Prop where
  expression : ∀ {s s'}, L.Places s s' →
    L.Parallel true L.node below.expression below.expression s s'
  typeIdentifier : ∀ {s s'}, L.Places s s' →
    L.Parallel true L.node below.typeIdentifier below.typeIdentifier s s'
  unary : ∀ {s s'}, L.Places s s' → L.Parallel true L.node below.unary below.unary s s'

end GrammarTools
