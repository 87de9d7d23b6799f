import GrammarTools.Proofs.OperatorTree
import GrammarTools.Proofs.Peopl.Chains
import GrammarTools.Proofs.Simpl.Chains

/-!
# Precedence climbing

Operators can be read one by one instead of class by class. An operator that comes next is
taken if it binds tightly enough; the operand behind it then takes all operators that bind
tighter than that one, and the two operands make up the next left operand
(`Operators.climb`).

To read class by class comes to the same. The operator that comes next decides what is
done: its operand is extended by the classes tighter than its own, and then all classes go
on behind the two operands (`Operators.extendBy_eq_of_mem`). This is what a step of climbing
does, so the two read the same nodes and fail with the same errors
(`Operators.climb_eq_extend`), as long as an operand takes a token.
-/

namespace GrammarTools

namespace Rule

variable {τ α β σ : Type} {s s' : TokenStream τ}

/-- What a rule does is known where it stands, and what goes on behind it matters only where it
    succeeds. -/
theorem bind_congr_at {r r' : Rule τ α} {f g : α → Rule τ β} (hr : r s = r' s)
    (h : ∀ a s', r s = .ok (a, s') → f a s' = g a s') : (r >>= f) s = (r' >>= g) s := by
  cases hx : r s with
  | error e => rw [bind_of_error hx, bind_of_error (hr ▸ hx)]
  | ok x => rw [bind_of_ok hx, bind_of_ok (hr ▸ hx), h x.1 x.2 hx]

section iterate

variable {sign : TokenStream τ → Option α} {round : α → σ → Rule τ σ} {more : α} {x y : σ}
  (hend : ∀ {s}, s.upcoming = [] → sign s = none)
  (hround : ∀ {s more x y s'}, sign s = some more → round more x s = .ok (y, s') → s'.IsAhead s)
include hend hround

/-- Two measures do the same if each has an element for every token. -/
theorem iterateFrom_eq_iterateFrom {measure measure' : List (Lexeme τ)}
    (h : s.upcoming.length ≤ measure.length) (h' : s.upcoming.length ≤ measure'.length) :
    iterateFrom sign round measure x s = iterateFrom sign round measure' x s := by
  induction measure generalizing measure' x s with
  | nil =>
    have hnone := hend (List.eq_nil_of_length_eq_zero (Nat.le_zero.1 h))
    cases measure' <;> simp [iterateFrom, hnone]
  | cons l measure ih =>
    cases measure' with
    | nil =>
      have hnone := hend (List.eq_nil_of_length_eq_zero (Nat.le_zero.1 h'))
      simp [iterateFrom, hnone]
    | cons l' measure' =>
      cases hsign : sign s with
      | none => simp [iterateFrom, hsign]
      | some more =>
        cases hr : round more x s with
        | error e => simp [iterateFrom, hsign, hr]
        | ok z =>
          -- The round has taken a token, so both measures are still long enough.
          have hlt : z.2.upcoming.length < s.upcoming.length := hround hsign hr
          have hz : z.2.upcoming.length ≤ measure.length :=
            Nat.le_of_lt_succ (Nat.lt_of_lt_of_le hlt h)
          have hz' : z.2.upcoming.length ≤ measure'.length :=
            Nat.le_of_lt_succ (Nat.lt_of_lt_of_le hlt h')
          simpa [iterateFrom, hsign, hr] using ih hz hz'

/-- While its sign holds, a repetition is a round and then the same repetition. -/
theorem iterate_eq_bind (hsign : sign s = some more) :
    iterate sign round x s = (round more x >>= iterate sign round) s := by
  cases hu : s.upcoming with
  | nil => simp [hend hu] at hsign
  | cons l rest =>
    have hone : iterate sign round x s = (round more x >>= iterateFrom sign round rest) s := by
      cases hr : round more x s with
      | error e => simp only [iterate, hu, iterateFrom, hsign, hr, bind_of_error hr]
      | ok z => simp only [iterate, hu, iterateFrom, hsign, hr, bind_of_ok hr]
    rw [hone]
    refine bind_congr_at rfl fun y s' hr => ?_
    have hlt : s'.upcoming.length < s.upcoming.length := hround hsign hr
    rw [hu, List.length_cons] at hlt
    exact iterateFrom_eq_iterateFrom hend hround (Nat.le_of_lt_succ hlt) (Nat.le_refl _)

/-- A repetition that succeeds has stopped because its sign no longer holds. -/
theorem sign_eq_none_of_iterate (h : iterate sign round x s = .ok (y, s')) : sign s' = none := by
  -- The bound is at least as long as what is left of the stream, and each round keeps it so.
  suffices hfrom : ∀ (measure : List (Lexeme τ)) (x : σ) (s : TokenStream τ),
      s.upcoming.length ≤ measure.length → iterateFrom sign round measure x s = .ok (y, s') →
        sign s' = none from hfrom s.upcoming x s (Nat.le_refl _) h
  intro measure
  induction measure with
  | nil =>
    intro x s hm h
    simp only [iterateFrom, Except.ok.injEq, Prod.mk.injEq] at h
    exact h.2 ▸ hend (List.eq_nil_of_length_eq_zero (Nat.le_zero.1 hm))
  | cons l measure ih =>
    intro x s hm h
    cases hsign : sign s with
    | none =>
      simp only [iterateFrom, hsign, Except.ok.injEq, Prod.mk.injEq] at h
      exact h.2 ▸ hsign
    | some more =>
      cases hr : round more x s with
      | error e => simp [iterateFrom, hsign, hr] at h
      | ok z =>
        simp only [iterateFrom, hsign, hr] at h
        have hlt : z.2.upcoming.length < s.upcoming.length := hround hsign hr
        exact ih z.1 z.2 (Nat.le_of_lt_succ (Nat.lt_of_lt_of_le hlt hm)) h

end iterate

end Rule

namespace Operators

variable {τ : Type} {ops : Operators τ} {operand : Rule τ RawNode} {s s' : TokenStream τ}
  {form : OperatorForm} {left node : RawNode} {level : OperatorClass}
  {classes tighter : List OperatorClass}

/-- What follows an operand with operators whose strength is at least `least`, one by one. The
    list bounds the number of operators. -/
def climb (ops : Operators τ) (operand : Rule τ RawNode) :
    List (Lexeme τ) → Nat → RawNode → Rule τ RawNode
  | [], _, left => pure left
  | _ :: measure, least, left => do
    match ← Rule.ask ops.upcoming? with
    | none => return left
    | some form =>
      if form.level.precedence < least then return left
      else
        let operator ← form.node
        let next ← operand
        let right ← climb ops operand measure (form.level.precedence + 1) next
        climb ops operand measure least (ops.node left operator right)

/-! ## Class by class, one by one -/

/-- The operator that comes next with its operand, which is extended by the classes that bind
    tighter, and then the other operators of some classes. -/
def extendOnce (ops : Operators τ) (operand : Rule τ RawNode) (classes : List OperatorClass)
    (form : OperatorForm) (left : RawNode) : Rule τ RawNode := do
  let operator ← form.node
  let next ← operand
  let right ← ops.extendBy operand
    (classes.filter fun level => form.level.precedence < level.precedence) next
  ops.extendBy operand classes (ops.node left operator right)

section ahead

variable (hahead : ∀ {s node s'}, operand s = .ok (node, s') → s'.IsAhead s)
include hahead

theorem length_le_of_extendBy (hsorted : classes.Pairwise fun a b => a.precedence < b.precedence)
    (h : ops.extendBy operand classes left s = .ok (node, s')) :
    s'.upcoming.length ≤ s.upcoming.length := by
  obtain ⟨t, -, hparses, -⟩ := exists_parses hsorted h
  exact hparses.chain.length_le hahead

/-- Nothing follows an operand where no operator of the classes comes next. -/
theorem extendBy_of_stops (hsorted : classes.Pairwise fun a b => a.precedence < b.precedence)
    (h : ops.Stops classes s) : ops.extendBy operand classes left s = .ok (left, s) :=
  extendBy_of_parses hahead hsorted (t := .operand left)
    ⟨.nil, trivial, by simp [OperatorTree.rest]⟩ h

section cons

variable (hsorted : (level :: tighter).Pairwise fun a b => a.precedence < b.precedence)
include hsorted

/-- A round of a class takes an operator and an operand at least. -/
theorem isAhead_of_round {right : RawNode} (hnext : ops.next? level s = some form)
    (h : (do
      let operator ← form.node
      let right ← operand
      let right ← ops.extendBy operand tighter right
      return ops.node left operator right : Rule τ RawNode) s = .ok (right, s')) :
    s'.IsAhead s := by
  obtain ⟨hform, -⟩ := next?_eq_some_iff.1 hnext
  obtain ⟨operator, s₁, hoperator, h⟩ := Rule.bind_eq_ok.1 h
  obtain ⟨next, s₂, hoperand, h⟩ := Rule.bind_eq_ok.1 h
  obtain ⟨right, s₃, hright, h⟩ := Rule.bind_eq_ok.1 h
  obtain ⟨-, rfl⟩ := Rule.pure_eq_ok.1 h
  have hadvance := isAhead_advance (Option.isSome_of_eq_some hform)
  rw [node_eq_ok hoperator] at hadvance
  exact Nat.lt_of_le_of_lt (length_le_of_extendBy hahead hsorted.of_cons hright)
    (hadvance.trans (hahead hoperand))

omit hahead hsorted in
theorem next?_eq_none_of_upcoming (h : s.upcoming = []) : ops.next? level s = none := by
  have hpeek : s.peek = none := TokenStream.peek_eq_none.2 (by simp [TokenStream.atEnd, h])
  simp [next?, hpeek]

end cons

/-- What extends an operand stops where no operator of its classes comes next. -/
theorem stops_of_extendBy (hsorted : classes.Pairwise fun a b => a.precedence < b.precedence)
    (h : ops.extendBy operand classes left s = .ok (node, s')) : ops.Stops classes s' := by
  induction classes generalizing left s node s' with
  | nil => exact fun _ _ => List.not_mem_nil
  | cons level tighter ih =>
    obtain ⟨start, s₁, hstart, h⟩ := Rule.bind_eq_ok.1 h
    -- What is read last is read by tighter classes, be it the first operand or that of a round.
    have htighter : ops.Stops tighter s' := by
      refine Rule.iterate_ok (I := fun _ s' => ops.Stops tighter s')
        (fun form left' a node b _ _ hround => ?_) (ih hsorted.of_cons hstart) h
      obtain ⟨operator, b₁, -, hround⟩ := Rule.bind_eq_ok.1 hround
      obtain ⟨next, b₂, -, hround⟩ := Rule.bind_eq_ok.1 hround
      obtain ⟨right, b₃, hright, hround⟩ := Rule.bind_eq_ok.1 hround
      obtain ⟨-, rfl⟩ := Rule.pure_eq_ok.1 hround
      exact ih hsorted.of_cons hright
    have hnone : ops.next? level s' = none :=
      Rule.sign_eq_none_of_iterate next?_eq_none_of_upcoming (isAhead_of_round hahead hsorted) h
    intro form hform hmem
    rcases List.mem_cons.1 hmem with hlevel | hmem
    · rw [next?_eq_some_iff.2 ⟨hform, hlevel⟩] at hnone
      cases hnone
    · exact htighter form hform hmem

/-- The operator that comes next decides what is done. -/
theorem extendBy_eq_of_mem (hsorted : classes.Pairwise fun a b => a.precedence < b.precedence)
    (hform : ops.upcoming? s = some form) (hmem : form.level ∈ classes) :
    ops.extendBy operand classes left s = ops.extendOnce operand classes form left s := by
  induction classes generalizing left with
  | nil => cases hmem
  | cons level tighter ih =>
    have hlt : ∀ other ∈ tighter, level.precedence < other.precedence := fun _ =>
      List.rel_of_pairwise_cons hsorted
    by_cases htighter : form.level ∈ tighter
    · -- A tighter class goes first, and the others go on behind it.
      have hfilter : (level :: tighter).filter
          (fun other => form.level.precedence < other.precedence) =
            tighter.filter fun other => form.level.precedence < other.precedence :=
        List.filter_cons_of_neg (by simpa using Nat.le_of_lt (hlt _ htighter))
      rw [extendOnce, hfilter]
      simp only [extendBy]
      rw [Rule.bind_congr_at (ih hsorted.of_cons htighter) fun _ _ _ => rfl, extendOnce]
      simp only [bind_assoc]
    · have hlevel : form.level = level := (List.mem_cons.1 hmem).resolve_right htighter
      have hfilter : (level :: tighter).filter
          (fun other => form.level.precedence < other.precedence) = tighter := by
        rw [hlevel, List.filter_cons_of_neg (by simp)]
        exact List.filter_eq_self.2 fun other hother => by simpa using hlt other hother
      have hstops : ops.Stops tighter s := fun form' hform' => by
        rw [hform, Option.some_inj] at hform'
        exact hform' ▸ htighter
      rw [extendOnce, hfilter, extendBy,
        Rule.bind_of_ok (extendBy_of_stops hahead hsorted.of_cons hstops), Rule.growWhile,
        Rule.iterate_eq_bind next?_eq_none_of_upcoming (isAhead_of_round hahead hsorted)
          (next?_eq_some_iff.2 ⟨hform, hlevel⟩)]
      simp only [bind_assoc, pure_bind]
      refine Rule.bind_congr_at rfl fun operator s₁ _ => Rule.bind_congr_at rfl fun next s₂ _ =>
        Rule.bind_congr_at rfl fun right s₃ hright => ?_
      -- No tighter operator comes next here, so the class goes on.
      rw [extendBy, Rule.bind_of_ok (extendBy_of_stops hahead hsorted.of_cons
        (stops_of_extendBy hahead hsorted.of_cons hright))]
      rfl

/-- With an element of the measure for every token, climbing reads what the classes of at least the
    given strength read. -/
theorem climb_eq_extendBy {measure : List (Lexeme τ)} {least : Nat}
    (h : s.upcoming.length ≤ measure.length) : ops.climb operand measure least left s =
      ops.extendBy operand (OperatorClass.all.filter (least ≤ ·.precedence)) left s := by
  have hsorted (least : Nat) := OperatorClass.pairwise_all.filter (least ≤ ·.precedence)
  induction measure generalizing s left least with
  | nil =>
    have hpeek : s.peek = none := TokenStream.peek_eq_none.2
      (by simpa [TokenStream.atEnd] using h)
    exact (extendBy_of_stops hahead (hsorted least) (by simp [Stops, upcoming?, hpeek])).symm
  | cons l measure ih =>
    rw [climb, Rule.ask_bind]
    cases hform : ops.upcoming? s with
    | none => exact (extendBy_of_stops hahead (hsorted least) (by simp [Stops, hform])).symm
    | some form =>
      dsimp only
      split
      case isTrue hlt =>
        refine (extendBy_of_stops hahead (hsorted least) fun form' hform' hmem => ?_).symm
        rw [hform, Option.some_inj] at hform'
        subst hform'
        simp at hmem
        omega
      case isFalse hle =>
        have hmem : form.level ∈ OperatorClass.all.filter (least ≤ ·.precedence) := by
          refine List.mem_filter.2 ⟨by cases form.level <;> decide, ?_⟩
          simpa using hle
        -- The classes that bind tighter than the operator are those of the next strength.
        have hfilter : (OperatorClass.all.filter (least ≤ ·.precedence)).filter
            (fun level => form.level.precedence < level.precedence) =
              OperatorClass.all.filter (form.level.precedence + 1 ≤ ·.precedence) := by
          rw [List.filter_filter]
          refine List.filter_congr fun level _ => ?_
          rw [Bool.eq_iff_iff]
          simp only [Bool.and_eq_true, decide_eq_true_eq]
          omega
        have honce : ops.extendBy operand (OperatorClass.all.filter (least ≤ ·.precedence)) left s =
            ops.extendOnce operand (OperatorClass.all.filter (least ≤ ·.precedence)) form left s :=
          extendBy_eq_of_mem hahead (hsorted least) hform hmem
        rw [honce, extendOnce, hfilter]
        refine Rule.bind_congr_at rfl fun operator s₁ hoperator => ?_
        refine Rule.bind_congr_at rfl fun next s₂ hoperand => ?_
        have hadvance := isAhead_advance (Option.isSome_of_eq_some hform)
        rw [node_eq_ok hoperator] at hadvance
        have hnext : s₂.upcoming.length ≤ measure.length :=
          Nat.le_of_lt_succ (Nat.lt_of_lt_of_le (hadvance.trans (hahead hoperand)) h)
        refine Rule.bind_congr_at (ih hnext) fun right s₃ hright => ih ?_
        rw [ih hnext] at hright
        exact Nat.le_trans (length_le_of_extendBy hahead (hsorted _) hright) hnext

/-- Climbing from the weakest operators on reads what all classes read. -/
theorem climb_eq_extend (left : RawNode) (s : TokenStream τ) :
    ops.climb operand s.upcoming 0 left s = ops.extend operand left s := by
  rw [climb_eq_extendBy hahead (Nat.le_refl _)]
  rfl

end ahead

end Operators

/-! ## The operators of the languages -/

/-- In both languages the operators behind an operand can be read by climbing. -/
theorem extend_eq_climb (n : Nat) (left : RawNode) :
    (∀ s, Simpl.operators.extend (Simpl.level n).unary left s =
      Simpl.operators.climb (Simpl.level n).unary s.upcoming 0 left s) ∧
    ∀ s, Peopl.operators.extend (Peopl.level n).unary left s =
      Peopl.operators.climb (Peopl.level n).unary s.upcoming 0 left s :=
  ⟨fun s => (Operators.climb_eq_extend (Simpl.isAhead_of_unary n) left s).symm,
    fun s => (Operators.climb_eq_extend (Peopl.isAhead_of_unary n) left s).symm⟩

end GrammarTools
