import GrammarTools.TokenStream
import Mathlib.Logic.Relation
import Mathlib.Tactic.Common

/-!
# Derivations

A context-free grammar, written as a table of patterns, and the rows of tokens
that it derives. A token is read as a *word*: the token, and whether its line
ends behind it.

Two readings of a pattern are related here:

* `Derives`: the rows of words that the grammar derives from the pattern;
* `Pattern.Rel`: the places of a token stream that the pattern relates, where
  it is given which places each rule relates.

`Between` puts derivations between two places of a stream. It is closed under
the ways to build a pattern, and it is the least such relation
(`Between.rel`): what a grammar derives has every property that its
productions preserve.
-/

namespace GrammarTools

/-- A token as a grammar reads it. -/
structure Word (τ : Type) where
  /-- The token. -/
  token : τ
  /-- Whether the next token stands on a later line, or there is none. -/
  endsLine : Bool
deriving DecidableEq, Repr

/-- The words that some tokens make up. -/
def Word.ofLexemes {τ : Type} : List (Lexeme τ) → List (Word τ)
  | [] => []
  | l :: rest => ⟨l.token, rest.head?.all Lexeme.startsLine⟩ :: ofLexemes rest

/-- The right side of a production, where `ν` has the names of the rules. -/
inductive Pattern (ν τ : Type) where
  /-- One token. -/
  | token (t : τ)
  /-- One token that ends its line. -/
  | lineEnd (t : τ)
  /-- What a rule derives. -/
  | rule (n : ν)
  /-- One pattern and then the other. -/
  | seq (p q : Pattern ν τ)
  /-- One pattern or the other. -/
  | alt (p q : Pattern ν τ)
  /-- The pattern or nothing. -/
  | opt (p : Pattern ν τ)
  /-- The pattern any number of times. -/
  | many (p : Pattern ν τ)

namespace Pattern

variable {ν τ : Type}

instance : Append (Pattern ν τ) := ⟨seq⟩

instance : OrOp (Pattern ν τ) := ⟨alt⟩

/-- The pattern at least once. -/
def plus (p : Pattern ν τ) : Pattern ν τ := p ++ many p

/-- The pattern at least once, with a token between any two. -/
def separated (p : Pattern ν τ) (t : τ) : Pattern ν τ := p ++ many (token t ++ p)

/-- One of some patterns. -/
def anyOf (p : Pattern ν τ) : List (Pattern ν τ) → Pattern ν τ
  | [] => p
  | q :: rest => p ||| anyOf q rest

/-- One of some tokens. -/
def oneOf (t : τ) (more : List τ) : Pattern ν τ := anyOf (token t) (more.map token)

/-- Whether a pattern derives no empty row, if no rule does. -/
def isSolid : Pattern ν τ → Bool
  | token _ | lineEnd _ | rule _ => true
  | seq p q => p.isSolid || q.isSolid
  | alt p q => p.isSolid && q.isSolid
  | opt _ | many _ => false

end Pattern

/-- The productions of a grammar. -/
abbrev Productions (ν τ : Type) := ν → Pattern ν τ

variable {ν τ : Type}

/-- The rows of words derived from a pattern. -/
inductive Derives (g : Productions ν τ) : Pattern ν τ → List (Word τ) → Prop
  | token {t : τ} {endsLine : Bool} : Derives g (.token t) [⟨t, endsLine⟩]
  | lineEnd {t : τ} : Derives g (.lineEnd t) [⟨t, true⟩]
  | rule {n : ν} {ws : List (Word τ)} : Derives g (g n) ws → Derives g (.rule n) ws
  | seq {p q : Pattern ν τ} {us vs : List (Word τ)} :
      Derives g p us → Derives g q vs → Derives g (.seq p q) (us ++ vs)
  | left {p q : Pattern ν τ} {ws : List (Word τ)} : Derives g p ws → Derives g (.alt p q) ws
  | right {p q : Pattern ν τ} {ws : List (Word τ)} : Derives g q ws → Derives g (.alt p q) ws
  | none {p : Pattern ν τ} : Derives g (.opt p) []
  | some {p : Pattern ν τ} {ws : List (Word τ)} : Derives g p ws → Derives g (.opt p) ws
  | nil {p : Pattern ν τ} : Derives g (.many p) []
  | cons {p : Pattern ν τ} {us vs : List (Word τ)} :
      Derives g p us → Derives g (.many p) vs → Derives g (.many p) (us ++ vs)

/-- Solid patterns derive no empty row. -/
theorem Derives.ne_nil {g : Productions ν τ} (hg : ∀ n, (g n).isSolid) {p : Pattern ν τ}
    {ws : List (Word τ)} (h : Derives g p ws) (hp : p.isSolid) : ws ≠ [] := by
  induction h with
  | token | lineEnd => simp
  | @rule n _ _ ih => exact ih (hg n)
  | seq _ _ ihp ihq =>
    simp only [Pattern.isSolid, Bool.or_eq_true] at hp
    rcases hp with hp | hp <;> simp [ihp, ihq, hp]
  | left _ ih =>
    simp only [Pattern.isSolid, Bool.and_eq_true] at hp
    exact ih hp.1
  | right _ ih =>
    simp only [Pattern.isSolid, Bool.and_eq_true] at hp
    exact ih hp.2
  | none | some | nil | cons => cases hp

/-- A repetition can be made longer at its end, too. -/
theorem Derives.snoc {g : Productions ν τ} {p : Pattern ν τ} {us vs : List (Word τ)}
    (hu : Derives g (.many p) us) (hv : Derives g p vs) : Derives g (.many p) (us ++ vs) := by
  generalize hq : Pattern.many p = q at hu
  induction hu with
  | nil =>
    cases hq
    simpa using Derives.cons hv .nil
  | cons h _ _ ih =>
    cases hq
    rw [List.append_assoc]
    exact .cons h (ih rfl)
  | _ => cases hq

/-- A pattern and another one behind the first `n` words. -/
theorem Derives.split {g : Productions ν τ} {p q : Pattern ν τ} {ws : List (Word τ)} (n : Nat)
    (hp : Derives g p (ws.take n)) (hq : Derives g q (ws.drop n)) : Derives g (.seq p q) ws := by
  rw [← List.take_append_drop n ws]
  exact .seq hp hq

/-! ## Places -/

namespace TokenStream

variable {s : TokenStream τ}

theorem peek_eq_none : s.peek = none ↔ s.atEnd := by
  cases s with
  | mk past upcoming endOffset => cases upcoming <;> simp [peek, peekNth, atEnd]

theorem peek_of_isAt [DecidableEq τ] {t : τ} (h : s.isAt t = true) : s.peek = some t := by
  simpa [isAt] using h

theorem isAt_of_peek [DecidableEq τ] {t : τ} (h : s.peek = some t) : s.isAt t = true := by
  simp [isAt, h]

/-- A stream is at the start of a line if its next token is, or if it has ended. -/
theorem atLineStart_eq : s.atLineStart = s.upcoming.head?.all Lexeme.startsLine := by
  cases s with
  | mk past upcoming endOffset => cases upcoming <;> rfl

/-- A place with a token in front of it. -/
theorem exists_upcoming {t : τ} (h : s.peek = some t) :
    ∃ l rest, s.upcoming = l :: rest ∧ l.token = t ∧
      s.advance = ⟨l :: s.past, rest, s.endOffset⟩ := by
  cases s with
  | mk past upcoming endOffset =>
    cases upcoming with
    | nil => simp [peek, peekNth] at h
    | cons l rest => exact ⟨l, rest, rfl, by simpa [peek, peekNth] using h, rfl⟩

/-- Counting from behind the next token, every token comes one earlier. -/
theorem peekNth_advance {t : τ} (h : s.peek = some t) (n : Nat) :
    s.advance.peekNth n = s.peekNth (n + 1) := by
  obtain ⟨l, rest, hu, -, ha⟩ := exists_upcoming h
  simp [peekNth, hu, ha]

/-- Whether two given tokens come next, one behind the other. -/
theorem isAt_and_peekNth_iff [DecidableEq τ] {t u : τ} :
    (s.isAt t && s.peekNth 1 == some u) = true ↔ s.peek = some t ∧ s.advance.peek = some u := by
  simp only [isAt, Bool.and_eq_true, beq_iff_eq]
  refine and_congr_right fun hp => ?_
  rw [peek, peekNth_advance hp]

/-- Behind the next token, one token less is to come. -/
theorem length_advance {t : τ} (h : s.peek = some t) :
    s.advance.upcoming.length + 1 = s.upcoming.length := by
  obtain ⟨l, rest, hu, -, ha⟩ := exists_upcoming h
  simp [hu, ha]

/-- A place is *ahead* of another one if fewer tokens are to come. -/
def IsAhead (s' s : TokenStream τ) : Prop := s'.upcoming.length < s.upcoming.length

theorem IsAhead.trans {s₁ s' : TokenStream τ} (h : s₁.IsAhead s) (h' : s'.IsAhead s₁) :
    s'.IsAhead s := Nat.lt_trans h' h

theorem isAhead_advance {t : τ} (h : s.peek = some t) : s.advance.IsAhead s := by
  have := length_advance h
  unfold IsAhead
  omega

end TokenStream

/-! ## Words passed over -/

/-- The words between two places of a stream. -/
inductive Passes : TokenStream τ → List (Word τ) → TokenStream τ → Prop
  | refl {s : TokenStream τ} : Passes s [] s
  | step {s s' : TokenStream τ} {w : Word τ} {ws : List (Word τ)} :
      s.peek = some w.token → s.advance.atLineStart = w.endsLine → Passes s.advance ws s' →
        Passes s (w :: ws) s'

namespace Passes

variable {s s₁ s' : TokenStream τ} {us vs ws : List (Word τ)}

/-- What is passed in two parts is passed as a whole. -/
theorem trans (h : Passes s us s₁) (h' : Passes s₁ vs s') : Passes s (us ++ vs) s' := by
  induction h with
  | refl => exact h'
  | step hp he _ ih => exact .step hp he (ih h')

theorem exists_of_append (h : Passes s (us ++ vs) s') :
    ∃ s₁, Passes s us s₁ ∧ Passes s₁ vs s' := by
  induction us generalizing s with
  | nil => exact ⟨s, .refl, h⟩
  | cons u us ih =>
    cases h with
    | step hp he h =>
      obtain ⟨s₁, h₁, h₂⟩ := ih h
      exact ⟨s₁, .step hp he h₁, h₂⟩

/-- Where words are passed, there are fewer left. -/
theorem isAhead (h : Passes s ws s') (hw : ws ≠ []) : s'.IsAhead s := by
  induction h with
  | refl => exact absurd rfl hw
  | @step s s' w ws hp _ h ih =>
    cases ws with
    | nil =>
      cases h
      exact TokenStream.isAhead_advance hp
    | cons => exact (TokenStream.isAhead_advance hp).trans (ih (List.cons_ne_nil _ _))

end Passes

/-- All words of a stream lie between its place and its end. -/
theorem passes_ofLexemes (s : TokenStream τ) :
    ∃ s', Passes s (Word.ofLexemes s.upcoming) s' ∧ s'.atEnd := by
  obtain ⟨past, upcoming, endOffset⟩ := s
  induction upcoming generalizing past with
  | nil => exact ⟨_, .refl, rfl⟩
  | cons l rest ih =>
    obtain ⟨s', h, hend⟩ := ih (l :: past)
    refine ⟨s', ?_, hend⟩
    exact .step rfl TokenStream.atLineStart_eq h

/-- Words that reach the end of a stream are all its words. -/
theorem Passes.eq_ofLexemes {s s' : TokenStream τ} {ws : List (Word τ)} (h : Passes s ws s')
    (hend : s'.atEnd) : ws = Word.ofLexemes s.upcoming := by
  induction h with
  | @refl s =>
    rw [TokenStream.atEnd, List.isEmpty_iff] at hend
    rw [hend, Word.ofLexemes]
  | @step s s' w ws hp he _ ih =>
    obtain ⟨l, rest, hu, ht, ha⟩ := TokenStream.exists_upcoming hp
    rw [TokenStream.atLineStart_eq, ha] at he
    rw [ih hend, hu, Word.ofLexemes, ht, he, ha]

/-! ## Derivations between places -/

/-- The words between two places are derived from a pattern. -/
def Between (g : Productions ν τ) (p : Pattern ν τ) (s s' : TokenStream τ) : Prop :=
  ∃ ws, Passes s ws s' ∧ Derives g p ws

/-- A whole stream is derived if a place at its end is reached. -/
theorem derives_ofLexemes_iff {g : Productions ν τ} {p : Pattern ν τ} {s : TokenStream τ} :
    Derives g p (Word.ofLexemes s.upcoming) ↔ ∃ s', Between g p s s' ∧ s'.atEnd := by
  constructor
  · intro h
    obtain ⟨s', hs, hend⟩ := passes_ofLexemes s
    exact ⟨s', ⟨_, hs, h⟩, hend⟩
  · rintro ⟨s', ⟨ws, hs, h⟩, hend⟩
    exact hs.eq_ofLexemes hend ▸ h

namespace Between

variable {g : Productions ν τ} {p q : Pattern ν τ} {s s₁ s' : TokenStream τ}

theorem token {t : τ} (h : s.peek = some t) : Between g (.token t) s s.advance :=
  ⟨[⟨t, s.advance.atLineStart⟩], .step h rfl .refl, .token⟩

/-- A token at the end of a line is derived only where the line ends. -/
theorem lineEnd {t : τ} (h : s.peek = some t) (hs : s.advance.atLineStart) :
    Between g (.lineEnd t) s s.advance :=
  ⟨[⟨t, true⟩], .step h hs .refl, .lineEnd⟩

theorem rule {n : ν} (h : Between g (g n) s s') : Between g (.rule n) s s' :=
  let ⟨ws, hs, hd⟩ := h
  ⟨ws, hs, .rule hd⟩

theorem seq (hp : Between g p s s₁) (hq : Between g q s₁ s') : Between g (p ++ q) s s' :=
  let ⟨us, hu, hdu⟩ := hp
  let ⟨vs, hv, hdv⟩ := hq
  ⟨us ++ vs, hu.trans hv, .seq hdu hdv⟩

theorem left (h : Between g p s s') : Between g (p ||| q) s s' :=
  let ⟨ws, hs, hd⟩ := h
  ⟨ws, hs, .left hd⟩

theorem right (h : Between g q s s') : Between g (p ||| q) s s' :=
  let ⟨ws, hs, hd⟩ := h
  ⟨ws, hs, .right hd⟩

theorem none : Between g (.opt p) s s := ⟨[], .refl, .none⟩

theorem some (h : Between g p s s') : Between g (.opt p) s s' :=
  let ⟨ws, hs, hd⟩ := h
  ⟨ws, hs, .some hd⟩

theorem nil : Between g (.many p) s s := ⟨[], .refl, .nil⟩

theorem cons (hp : Between g p s s₁) (hm : Between g (.many p) s₁ s') :
    Between g (.many p) s s' :=
  let ⟨us, hu, hdu⟩ := hp
  let ⟨vs, hv, hdv⟩ := hm
  ⟨us ++ vs, hu.trans hv, .cons hdu hdv⟩

/-- A repetition between two places can be made longer at its end. -/
theorem snoc (hm : Between g (.many p) s s₁) (hp : Between g p s₁ s') :
    Between g (.many p) s s' :=
  let ⟨us, hu, hdu⟩ := hm
  let ⟨vs, hv, hdv⟩ := hp
  ⟨us ++ vs, hu.trans hv, hdu.snoc hdv⟩

/-- A choice among many patterns derives what any one of them does. -/
theorem anyOf {p : Pattern ν τ} {ps : List (Pattern ν τ)} (h : Between g q s s')
    (hq : q ∈ p :: ps) : Between g (.anyOf p ps) s s' := by
  induction ps generalizing p with
  | nil =>
    obtain rfl := List.mem_singleton.1 hq
    exact h
  | cons r ps ih =>
    rcases List.mem_cons.1 hq with rfl | hq
    · exact left h
    · exact right (ih hq)

theorem oneOf {t u : τ} {ts : List τ} (h : s.peek = Option.some t) (ht : t ∈ u :: ts) :
    Between g (.oneOf u ts) s s.advance :=
  anyOf (token h) (List.mem_map_of_mem (f := Pattern.token) ht)

/-- Of a solid pattern something is read: it derives no empty row. -/
theorem isAhead (hg : ∀ n, (g n).isSolid) (hp : p.isSolid) (h : Between g p s s') :
    s'.IsAhead s :=
  let ⟨_, hs, hd⟩ := h
  hs.isAhead (hd.ne_nil hg hp)

end Between

/-! ## Patterns as relations of places -/

/-- The places that a pattern relates, where `P` has those that each rule relates. -/
def Pattern.Rel [DecidableEq τ] (P : ν → TokenStream τ → TokenStream τ → Prop) :
    Pattern ν τ → TokenStream τ → TokenStream τ → Prop
  | token t => fun s s' => s.peek = some t ∧ s' = s.advance
  | lineEnd t => fun s s' => s.peek = some t ∧ s.advance.atLineStart ∧ s' = s.advance
  | rule n => P n
  | seq p q => Relation.Comp (p.Rel P) (q.Rel P)
  | alt p q => fun s s' => p.Rel P s s' ∨ q.Rel P s s'
  | opt p => fun s s' => s' = s ∨ p.Rel P s s'
  | many p => Relation.ReflTransGen (p.Rel P)

/-- A choice among tokens relates two places by a single step. -/
theorem Pattern.rel_oneOf [DecidableEq τ] {P : ν → TokenStream τ → TokenStream τ → Prop} {t : τ}
    {ts : List τ} {s s' : TokenStream τ} (h : (oneOf t ts).Rel P s s') :
    s' = s.advance ∧ ∃ u ∈ t :: ts, s.peek = some u := by
  induction ts generalizing t with
  | nil => exact ⟨h.2, t, List.mem_singleton_self t, h.1⟩
  | cons u ts ih =>
    rcases h with h | h
    · exact ⟨h.2, t, List.mem_cons_self, h.1⟩
    · obtain ⟨hs, v, hv, hp⟩ := ih h
      exact ⟨hs, v, List.mem_cons_of_mem _ hv, hp⟩

/-- What holds wherever a production does, holds of all that is derived. As rules derive
    no empty row, their ends may be taken to lie ahead of their starts. -/
theorem Between.rel [DecidableEq τ] {g : Productions ν τ} (hg : ∀ n, (g n).isSolid)
    {P : ν → TokenStream τ → TokenStream τ → Prop}
    (hP : ∀ n s s', s'.IsAhead s → (g n).Rel (fun m s s' => s'.IsAhead s ∧ P m s s') s s' →
      P n s s')
    {p : Pattern ν τ} {s s' : TokenStream τ} (h : Between g p s s') :
    p.Rel (fun m s s' => s'.IsAhead s ∧ P m s s') s s' := by
  obtain ⟨ws, hs, hd⟩ := h
  induction hd generalizing s s' with
  | token =>
    cases hs with
    | step ht _ hs =>
      cases hs
      exact ⟨ht, rfl⟩
  | lineEnd =>
    cases hs with
    | step ht he hs =>
      cases hs
      exact ⟨ht, he, rfl⟩
  | @rule n ws hd ih =>
    -- A rule reads something, since its production is solid, and what it relates follows from its
    -- production.
    have ha := hs.isAhead (hd.ne_nil hg (hg n))
    exact ⟨ha, hP n s s' ha (ih hs)⟩
  | seq _ _ ihp ihq =>
    obtain ⟨s₁, h₁, h₂⟩ := hs.exists_of_append
    exact ⟨s₁, ihp h₁, ihq h₂⟩
  | left _ ih => exact .inl (ih hs)
  | right _ ih => exact .inr (ih hs)
  | none =>
    cases hs
    exact .inl rfl
  | some _ ih => exact .inr (ih hs)
  | nil =>
    cases hs
    exact .refl
  | cons _ _ ihp ihm =>
    obtain ⟨s₁, h₁, h₂⟩ := hs.exists_of_append
    exact .head (ihp h₁) (ihm h₂)

end GrammarTools
