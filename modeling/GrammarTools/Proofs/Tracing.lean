import GrammarTools.Proofs.Parallel
import GrammarTools.Proofs.Run

/-!
# Traced rules

A *traced rule* reads like a rule and keeps account of what it does. It runs on
a machine, which is a place in a stream, the number of levels that rules are
nested at the time, and a journal. A rule is given its levels from outside and
forgets its place when it fails; a traced rule counts its levels up and down as
it goes, and a failure leaves the machine as it was at the time.

The journal has an entry for every call of a rule that has returned, by success
or failure, and for every broken statement that has been skipped. It also has
the *faults*, which are what should never happen: that a leaf is taken where no
token is left, that an operator is asked for where none stands, that a
repetition is cut off by its bound while its sign still holds, and that rules
are nested beyond all levels there are.

It *traces* a rule (`Traced.Traces`) if it has the same outcome, does not move
back, comes back to the level at which it began and adds nothing improper to the
journal. There is one lemma for each way to put rules together, by which what
traces the parts traces the whole. Where a rule has to take a token, the first
of its parts that has to does so.
-/

namespace GrammarTools

/-! ## Journals -/

/-- A call of a rule that has returned. -/
structure Call where
  /-- The name of the rule. -/
  rule : String
  /-- The number of tokens behind when it was called. -/
  start : Nat
  /-- The number of tokens behind when it returned. -/
  stop : Nat
  /-- The number of levels when it was called. -/
  depth : Nat
  /-- The number of levels when it returned. -/
  depthAfter : Nat
  /-- Whether it has read something, rather than failed. -/
  succeeded : Bool
deriving DecidableEq, Repr, Inhabited

/-- A broken statement that has been skipped. -/
structure Skip where
  /-- The number of tokens in front of the statement. -/
  start : Nat
  /-- The number of tokens behind after the skip. -/
  stop : Nat
deriving DecidableEq, Repr, Inhabited

/-- What should never happen. -/
inductive Fault where
  /-- A leaf where no token is left. -/
  | leafAtEnd
  /-- An operator where none stands. -/
  | noOperator
  /-- A repetition that ends while its sign still holds. -/
  | cutOff
  /-- Rules nested beyond all levels. -/
  | bottomless
deriving DecidableEq, Repr, Inhabited

/-- What has happened so far, the last first. -/
structure Journal where
  /-- The calls that have returned. -/
  calls : List Call
  /-- The broken statements that have been skipped. -/
  skips : List Skip
  /-- What should not have happened. -/
  faults : List Fault
deriving DecidableEq, Repr, Inhabited

/-- The rules that continue a node which has already been read, and so may take no token. -/
def Call.continuing : List String := ["extendBy", "withSuffixes", "simpleTypeDefinition"]

/-- A call among `n` tokens that moves on when it succeeds, stays among the tokens, and comes back
    to its level. -/
structure Call.IsProper (n : Nat) (c : Call) : Prop where
  progress : c.succeeded = true → c.start < c.stop ∨ c.rule ∈ continuing ∧ c.start ≤ c.stop
  stop_le : c.stop ≤ n
  depthAfter_eq : c.depthAfter = c.depth
  depth_le : c.depth ≤ maxNesting

/-- A skip among `n` tokens that passes over one at least. -/
structure Skip.IsProper (n : Nat) (k : Skip) : Prop where
  start_lt : k.start < k.stop
  stop_le : k.stop ≤ n

/-- A journal without faults, with proper calls and skips only. -/
structure Journal.IsProper (n : Nat) (j : Journal) : Prop where
  calls : ∀ c ∈ j.calls, c.IsProper n
  skips : ∀ k ∈ j.skips, k.IsProper n
  faults : j.faults = []

theorem Journal.IsProper.nil (n : Nat) : Journal.IsProper n ⟨[], [], []⟩ where
  calls := by simp
  skips := by simp
  faults := rfl

/-- A journal with one more call is proper, if the call is. -/
theorem Journal.IsProper.addCall {n : Nat} {j : Journal} (h : j.IsProper n) {c : Call}
    (hc : c.IsProper n) : Journal.IsProper n { j with calls := c :: j.calls } where
  calls := List.forall_mem_cons.2 ⟨hc, h.calls⟩
  skips := h.skips
  faults := h.faults

/-- A journal with one more skip is proper, if the skip is. -/
theorem Journal.IsProper.addSkip {n : Nat} {j : Journal} (h : j.IsProper n) {k : Skip}
    (hk : k.IsProper n) : Journal.IsProper n { j with skips := k :: j.skips } where
  calls := h.calls
  skips := List.forall_mem_cons.2 ⟨hk, h.skips⟩
  faults := h.faults

/-! ## Machines -/

variable {τ α β σ : Type}

/-- What a traced rule runs on. -/
structure Machine (τ : Type) where
  /-- The place in the stream. -/
  stream : TokenStream τ
  /-- The number of levels that rules are nested. -/
  depth : Nat
  /-- What has happened so far. -/
  journal : Journal

namespace Machine

/-- The machine with another call in the journal. -/
def log (m : Machine τ) (c : Call) : Machine τ :=
  { m with journal := { m.journal with calls := c :: m.journal.calls } }

/-- The machine with another fault in the journal. -/
def blame (m : Machine τ) (f : Fault) : Machine τ :=
  { m with journal := { m.journal with faults := f :: m.journal.faults } }

/-- The machine moved to a place further on, with the skip from `start` in the journal. -/
def skipTo (m : Machine τ) (start : Nat) (rest : TokenStream τ) : Machine τ :=
  { m with
    stream := rest
    journal := { m.journal with skips := ⟨start, rest.position⟩ :: m.journal.skips } }

/-- The call of a rule that took one machine to the other. -/
def callTo (m m' : Machine τ) (rule : String) (succeeded : Bool) : Call :=
  ⟨rule, m.stream.position, m'.stream.position, m.depth, m'.depth, succeeded⟩

end Machine

/-- What reads a part of a token stream and keeps account of it. -/
abbrev Traced (τ : Type) := EStateM SyntaxError (Machine τ)

namespace Traced

/-- A question about the place in the stream. -/
def ask (question : TokenStream τ → α) : Traced τ α := fun m => .ok (question m.stream) m

/-- The next token. -/
def peek : Traced τ (Option τ) := ask TokenStream.peek

/-- The error that something else was expected here. -/
def fail (expected : List String) : Traced τ α := fun m =>
  .error ⟨m.stream.span, expected, m.stream.text?⟩ m

/-- The error that rules are nested too deeply. -/
def tooDeep : Traced τ α := fun m => .error (.nestedTooDeeply m.stream.span m.stream.text?) m

/-- A fault. -/
def blame (f : Fault) : Traced τ Unit := fun m => .ok () (m.blame f)

/-- The next token as a leaf. -/
def leaf (kind : KindId) : Traced τ RawNode := fun m =>
  if m.stream.atEnd then .ok (.leaf kind m.stream.span) (m.blame .leafAtEnd)
  else .ok (.leaf kind m.stream.span) { m with stream := m.stream.advance }

/-- The next token as a leaf if it is the given one, which is what was expected. -/
def expect [DecidableEq τ] (token : τ) (kind : KindId) (description : String) : Traced τ RawNode :=
  fun m => if m.stream.isAt token then leaf kind m else fail [description] m

/-- A rule that is called by its name. -/
def call (name : String) (rule : Traced τ α) : Traced τ α := fun m =>
  match rule m with
  | .ok a m' => .ok a (m'.log (m.callTo m' name true))
  | .error e m' => .error e (m'.log (m.callTo m' name false))

/-- A rule one level further down, unless there are too many levels. -/
def nested (rule : Traced τ α) : Traced τ α := fun m =>
  if maxNesting ≤ m.depth then tooDeep m
  else match rule { m with depth := m.depth + 1 } with
    | .ok a m' => .ok a { m' with depth := m'.depth - 1 }
    | .error e m' => .error e { m' with depth := m'.depth - 1 }

/-- A rule beyond all levels. -/
def bottomless : Traced τ α := do
  blame .bottomless
  tooDeep

/-- A number, whose kind tells whether it has a fraction. -/
def numeral (float int : KindId) : Traced τ RawNode := do
  let text ← ask TokenStream.text?
  if (text.getD "").toList.contains '.' then leaf float else leaf int

/-- A repetition, which is cut off after as many rounds as the list has elements. -/
def iterateFrom (sign : TokenStream τ → Option α) (round : α → σ → Traced τ σ) :
    List (Lexeme τ) → σ → Traced τ σ
  | [], state => do
    if (← ask sign).isSome then blame .cutOff
    return state
  | _ :: measure, state => do
    match ← ask sign with
    | none => return state
    | some more => iterateFrom sign round measure (← round more state)

/-- A repetition for as long as the stream gives the sign. -/
def iterate (sign : TokenStream τ → Option α) (round : α → σ → Traced τ σ) (state : σ) :
    Traced τ σ :=
  fun m => iterateFrom sign round m.stream.upcoming state m

/-- All nodes that a rule reads while a condition holds. -/
def repeatWhile (condition : TokenStream τ → Bool) (items : Traced τ (List RawNode)) :
    Traced τ (List RawNode) := do
  let found ← iterate (fun s => if condition s then some () else none)
    (fun _ found => do return (← items).reverse ++ found) []
  return found.reverse

/-- A node that grows to the right for as long as the stream gives the sign. -/
def growWhile (sign : TokenStream τ → Option α) (grow : α → RawNode → Traced τ RawNode)
    (first : RawNode) : Traced τ RawNode :=
  iterate sign grow first

/-- The node for the operator that comes next. -/
def operatorNode (form? : τ → Option OperatorForm) : Traced τ RawNode := call "operatorNode" do
  match (← peek).bind form? with
  | none =>
    blame .noOperator
    return .branch .error [← leaf .error]
  | some form =>
    let token ← leaf form.kind
    return match form.group with
      | none => token
      | some group => .branch group [token]

/-- What follows an operand with operators of the given classes, the loosest first. -/
def extendBy (ops : Operators τ) (operand : Traced τ RawNode) :
    List OperatorClass → RawNode → Traced τ RawNode
  | [], left => call "extendBy" (pure left)
  | level :: tighter, left => call "extendBy" do
    let left ← extendBy ops operand tighter left
    growWhile (ops.next? level) (fun _ left => do
      let operator ← operatorNode ops.form?
      let right ← operand
      let right ← extendBy ops operand tighter right
      return ops.node left operator right) left

/-- What follows an operand with operators of any class. -/
def extend (ops : Operators τ) (operand : Traced τ RawNode) (left : RawNode) : Traced τ RawNode :=
  extendBy ops operand OperatorClass.all left

/-- An operand, and what follows it with operators of any class. -/
def extended (ops : Operators τ) (operand : Traced τ RawNode) : Traced τ RawNode := do
  let left ← operand
  extend ops operand left

/-- What `plain` reads, unless an operator comes next, which then stands in front of what
    `operand` reads. -/
def signedBy (signs : Signs τ) (plain operand : Traced τ RawNode) : Traced τ RawNode := do
  match (← peek).bind signs.form? with
  | none => plain
  | some _ =>
    let operator ← operatorNode signs.form?
    let operand ← operand
    return signs.node operator operand

/-- The traced rules that may stand inside themselves. -/
structure Nested (τ : Type) where
  /-- An expression. -/
  expression : Traced τ RawNode
  /-- A type. -/
  typeIdentifier : Traced τ RawNode
  /-- An operand with the operators in front of it. -/
  unary : Traced τ RawNode

/-- The traced rules with a number of levels, of which one is left over when rules are nested as
    deeply as they may be. -/
def Nested.level (deeper : Nested τ → Nested τ) : Nat → Nested τ
  | 0 => ⟨bottomless, bottomless, bottomless⟩
  | n + 1 =>
    let rules := deeper (level deeper n)
    ⟨call "expression" (nested rules.expression),
      call "typeIdentifier" (nested rules.typeIdentifier), call "unary" (nested rules.unary)⟩

end Traced

/-! ## Moves -/

namespace TokenStream

variable {s s' s₁ : TokenStream τ} {strict strict' : Bool}

/-- All tokens. -/
def tokens (s : TokenStream τ) : List (Lexeme τ) := s.past.reverse ++ s.upcoming

/-- The place of a stream is counted in the tokens that it has left behind. -/
theorem length_tokens (s : TokenStream τ) :
    s.tokens.length = s.position + s.upcoming.length := by
  rw [tokens, List.length_append, List.length_reverse, position]

theorem position_le_length_tokens (s : TokenStream τ) : s.position ≤ s.tokens.length :=
  s.length_tokens ▸ Nat.le_add_right _ _

/-- One place leads to another among the same tokens, over some of them if the move is strict. -/
structure Leads (strict : Bool) (s s' : TokenStream τ) : Prop where
  tokens_eq : s'.tokens = s.tokens
  endOffset_eq : s'.endOffset = s.endOffset
  position_le : s.position ≤ s'.position
  position_lt : strict = true → s.position < s'.position

namespace Leads

theorem refl (s : TokenStream τ) : Leads false s s := ⟨rfl, rfl, Nat.le_refl _, nofun⟩

/-- One way and then another make one way, which is as strict as the first of them. -/
theorem trans (h : Leads strict s s₁) (h' : Leads strict' s₁ s') : Leads strict s s' where
  tokens_eq := h'.tokens_eq.trans h.tokens_eq
  endOffset_eq := h'.endOffset_eq.trans h.endOffset_eq
  position_le := Nat.le_trans h.position_le h'.position_le
  position_lt hs := Nat.lt_of_lt_of_le (h.position_lt hs) h'.position_le

theorem weaken (h : Leads strict s s') [StrictEnough strict' strict] :
    Leads strict' s s' :=
  ⟨h.tokens_eq, h.endOffset_eq, h.position_le, fun hs => h.position_lt (StrictEnough.imp hs)⟩

/-- Going back to the position from which a move began gives the place from which it began. -/
theorem seek_eq (h : Leads strict s s') : s'.seek s.position = s := by
  have htokens : s'.past.reverse ++ s'.upcoming = s.past.reverse ++ s.upcoming := h.tokens_eq
  have hposition : s.position = s.past.reverse.length := List.length_reverse.symm
  rw [seek]
  simp only [htokens, h.endOffset_eq, hposition, List.take_left, List.drop_left,
    List.reverse_reverse]

/-- On a strict way fewer tokens are left. -/
theorem length_upcoming_lt (h : Leads true s s') : s'.upcoming.length < s.upcoming.length := by
  have hlt := h.position_lt rfl
  have hlength := s'.length_tokens
  rw [h.tokens_eq, s.length_tokens] at hlength
  omega

/-- A move over the next tokens. -/
theorem of_upcoming {skipped rest : List (Lexeme τ)} (hs : s.upcoming = skipped ++ rest)
    (hne : skipped ≠ []) : Leads true s ⟨skipped.reverse ++ s.past, rest, s.endOffset⟩ where
  tokens_eq := by simp [tokens, hs]
  endOffset_eq := rfl
  position_le := by simp [position]
  position_lt _ := by
    have := List.length_pos_iff.2 hne
    simp only [position, List.length_append, List.length_reverse]
    omega

/-- A token that is there is taken. -/
theorem advance (hs : s.atEnd = false) : Leads true s s.advance := by
  obtain ⟨l, rest, hu⟩ := exists_cons_of_atEnd hs
  have ha : s.advance = ⟨[l].reverse ++ s.past, rest, s.endOffset⟩ := by
    simp [TokenStream.advance, hu]
  exact ha ▸ .of_upcoming hu (List.cons_ne_nil l [])

/-- What is skipped is at least the first token. -/
theorem skipUntil (stop : τ → TokenStream τ → Bool) (hs : s.atEnd = false) :
    Leads true s (s.skipUntil stop).2 := by
  obtain ⟨l, rest, hu⟩ := exists_cons_of_atEnd hs
  obtain ⟨skipped, behind, hrest, heq⟩ := skipUntil_eq stop hu
  rw [heq]
  exact .of_upcoming (by rw [hu, hrest, List.cons_append]) (List.cons_ne_nil l skipped)

end Leads

theorem atEnd_of_peek {x : τ} (h : s.peek = some x) : s.atEnd = false := by
  cases hend : s.atEnd with
  | false => rfl
  | true =>
    rw [peek_eq_none.2 hend] at h
    cases h

theorem atEnd_of_isAt [DecidableEq τ] {x : τ} (h : s.isAt x = true) : s.atEnd = false :=
  atEnd_of_peek (peek_of_isAt h)

end TokenStream

/-! ## Tracing a rule -/

namespace Traced

variable {strict strict' : Bool} {depth : Nat} {s : TokenStream τ}

/-- The outcomes of a rule and of a traced rule from a place at a level: they read the same, the
    move is strict if it has to be, the level is the one at which it began, and the journal is
    proper. -/
inductive Outcome (strict : Bool) (depth : Nat) (s : TokenStream τ) :
    Except SyntaxError (α × TokenStream τ) → EStateM.Result SyntaxError (Machine τ) α → Prop
  | ok {a : α} {s' : TokenStream τ} {journal : Journal} : s.Leads strict s' →
      journal.IsProper s.tokens.length →
        Outcome strict depth s (.ok (a, s')) (.ok a ⟨s', depth, journal⟩)
  | error {e : SyntaxError} {s' : TokenStream τ} {journal : Journal} : s.Leads false s' →
      journal.IsProper s.tokens.length →
        Outcome strict depth s (.error e) (.error e ⟨s', depth, journal⟩)

/-- A traced rule *traces* a rule from a place at a level if their outcomes agree, whatever proper
    journal there is already. -/
def Traces (strict : Bool) (depth : Nat) (t : Traced τ α) (r : Rule τ α) (s : TokenStream τ) :
    Prop :=
  depth ≤ maxNesting → ∀ journal : Journal, journal.IsProper s.tokens.length →
    Outcome strict depth s (r s) (t ⟨s, depth, journal⟩)

namespace Traces

variable {t : Traced τ α} {r : Rule τ α}

/-- Only what the rules do at the place and the level matters. -/
theorem congr {t' : Traced τ α} {r' : Rule τ α} (h : Traces strict depth t' r' s)
    (ht : ∀ journal, t ⟨s, depth, journal⟩ = t' ⟨s, depth, journal⟩) (hr : r s = r' s) :
    Traces strict depth t r s := by
  intro hd journal hj
  rw [ht, hr]
  exact h hd journal hj

theorem weaken (h : Traces strict depth t r s) [StrictEnough strict' strict] :
    Traces strict' depth t r s := by
  intro hd journal hj
  generalize r s = x, t ⟨s, depth, journal⟩ = y, h hd journal hj = h
  cases h with
  | ok hm hj => exact .ok hm.weaken hj
  | error hm hj => exact .error hm hj

theorem pure (a : α) : Traces false depth (Pure.pure a : Traced τ α) (Pure.pure a) s :=
  fun _ _ hj => .ok (.refl s) hj

/-- What fails need not have moved on: strictness is asked of success alone. -/
theorem fail {expected : List String} :
    Traces true depth (Traced.fail expected : Traced τ α) (Rule.fail expected) s :=
  fun _ _ hj => .error (.refl s) hj

theorem tooDeep : Traces strict depth (Traced.tooDeep : Traced τ α) Rule.tooDeep s :=
  fun _ _ hj => .error (.refl s) hj

theorem leaf {kind : KindId} (hs : s.atEnd = false) :
    Traces true depth (Traced.leaf kind) (Rule.leaf kind) s := by
  intro _ journal hj
  rw [Traced.leaf, if_neg (by simp [hs])]
  exact .ok (.advance hs) hj

/-- What is expected is either there, and taken, or an error. -/
theorem expect [DecidableEq τ] {token : τ} {kind : KindId} {description : String} :
    Traces true depth (Traced.expect token kind description)
      (Rule.expect token kind description) s := by
  intro hd journal hj
  rw [Traced.expect, Rule.expect]
  cases hat : s.isAt token with
  | true => exact leaf (TokenStream.atEnd_of_peek (TokenStream.peek_of_isAt hat)) hd journal hj
  | false => exact fail hd journal hj

/-- Numbers are read alike, with or without a fraction. -/
theorem numeral {float int : KindId} (hs : s.atEnd = false) :
    Traces true depth (Traced.numeral float int) (Rule.numeral float int) s := by
  have hleaf : ∀ kind, Traces true depth (Traced.leaf kind) (Rule.leaf kind) s := fun _ => leaf hs
  show Traces true depth (if (s.text?.getD "").toList.contains '.' then _ else _)
    (if (s.text?.getD "").toList.contains '.' then _ else _) s
  split
  · exact hleaf float
  · exact hleaf int

/-- One rule and then another, where it is known how the first one has gone. Both together move
    on if the first one does. -/
theorem bind_of_eq {f : α → Traced τ β} {g : α → Rule τ β} (h : Traces strict depth t r s)
    (hf : ∀ {a s'}, r s = .ok (a, s') → s.Leads strict s' → Traces false depth (f a) (g a) s')
    [StrictEnough strict' strict] : Traces strict' depth (t >>= f) (r >>= g) s := by
  intro hd journal hj
  have hfirst := h hd journal hj
  show Outcome strict' depth s ((r >>= g) s) (EStateM.bind t f ⟨s, depth, journal⟩)
  rw [EStateM.bind]
  cases hr : r s with
  | error e =>
    rw [Rule.bind_of_error hr]
    rw [hr] at hfirst
    generalize t ⟨s, depth, journal⟩ = y at hfirst
    cases hfirst with
    | error hm hj => exact .error hm hj
  | ok x =>
    obtain ⟨a, s'⟩ := x
    rw [Rule.bind_of_ok hr]
    rw [hr] at hfirst
    generalize t ⟨s, depth, journal⟩ = y at hfirst
    cases hfirst with
    | @ok _ _ journal hm hj =>
      -- The second rule starts among the same tokens, so the journal is still proper for it.
      have hnext := hf hr hm hd journal (hm.tokens_eq ▸ hj)
      show Outcome strict' depth s (g a s') (f a ⟨s', depth, journal⟩)
      generalize g a s' = x, f a ⟨s', depth, journal⟩ = y at hnext
      cases hnext with
      | ok hm' hj => exact .ok (hm.trans hm').weaken (hm.tokens_eq ▸ hj)
      | error hm' hj => exact .error (hm.weaken.trans hm') (hm.tokens_eq ▸ hj)

/-- Traced rules one after the other are traced, and as strict as the first of them. -/
theorem bind {f : α → Traced τ β} {g : α → Rule τ β} (h : Traces strict depth t r s)
    (hf : ∀ a s', Traces false depth (f a) (g a) s') [StrictEnough strict' strict] :
    Traces strict' depth (t >>= f) (r >>= g) s :=
  h.bind_of_eq (fun _ _ => hf _ _)

/-- A token and then a node. -/
theorem marked {kind : KindId} {t : Traced τ RawNode} {r : Rule τ RawNode}
    (hs : s.atEnd = false) (h : Traces strict depth t r s.advance) :
    Traces true depth
      (do
        let mark ← Traced.leaf kind
        return [mark, ← t])
      (do
        let mark ← Rule.leaf kind
        return [mark, ← r]) s := by
  refine bind_of_eq (leaf hs) fun hok _ => ?_
  cases hok
  exact bind h fun _ _ => pure _

theorem ask {question : TokenStream τ → α} {f : α → Traced τ β} {g : α → Rule τ β}
    (h : Traces strict depth (f (question s)) (g (question s)) s) :
    Traces strict depth (Traced.ask question >>= f) (Rule.ask question >>= g) s := h

theorem peek {f : Option τ → Traced τ β} {g : Option τ → Rule τ β}
    (h : Traces strict depth (f s.peek) (g s.peek) s) :
    Traces strict depth (Traced.peek >>= f) (Rule.peek >>= g) s := h

/-- A choice by a question is traced, if each branch is, where the answer calls for it. -/
theorem ite {question : TokenStream τ → Bool} {t₁ t₂ : Traced τ α} {r₁ r₂ : Rule τ α}
    (h₁ : question s = true → Traces strict depth t₁ r₁ s)
    (h₂ : question s = false → Traces strict depth t₂ r₂ s) :
    Traces strict depth (Traced.ask question >>= fun answer => if answer = true then t₁ else t₂)
      (Rule.ask question >>= fun answer => if answer = true then r₁ else r₂) s := by
  refine ask ?_
  cases hanswer : question s with
  | true => exact h₁ hanswer
  | false => exact h₂ hanswer

/-! ### Calls and levels -/

/-- A call is proper if its rule takes a token, or is one of those that may go on without. -/
theorem call_of_progress {name : String} (h : Traces strict depth t r s)
    (hname : strict = true ∨ name ∈ Call.continuing) :
    Traces strict depth (Traced.call name t) r s := by
  intro hd journal hj
  rw [Traced.call]
  generalize r s = x, t ⟨s, depth, journal⟩ = y, h hd journal hj = h
  cases h with
  | @ok a s' journal hm hj =>
    refine .ok hm (hj.addCall ⟨fun _ => ?_, ?_, rfl, hd⟩)
    · rcases hname with hstrict | hname
      · exact .inl (hm.position_lt hstrict)
      · exact .inr ⟨hname, hm.position_le⟩
    · exact hm.tokens_eq ▸ s'.position_le_length_tokens
  | @error e s' journal hm hj =>
    exact .error hm (hj.addCall ⟨nofun, hm.tokens_eq ▸ s'.position_le_length_tokens, rfl, hd⟩)

/-- A rule that is called has to move on. -/
theorem call {name : String} (h : Traces true depth t r s) :
    Traces true depth (Traced.call name t) r s :=
  h.call_of_progress (.inl rfl)

/-- A rule that continues a node need not. -/
theorem call_continuing {name : String} (h : Traces strict depth t r s)
    (hname : name ∈ Call.continuing) : Traces strict depth (Traced.call name t) r s :=
  h.call_of_progress (.inr hname)

/-- A rule one level further down. -/
theorem nested (h : Traces strict (depth + 1) t r s) (hdepth : depth < maxNesting) :
    Traces strict depth (Traced.nested t) r s := by
  intro hd journal hj
  rw [Traced.nested, if_neg (Nat.not_le.2 hdepth)]
  generalize r s = x, t ⟨s, depth + 1, journal⟩ = y, h hdepth journal hj = h
  cases h with
  | ok hm hj => exact .ok hm hj
  | error hm hj => exact .error hm hj

/-- With all levels taken, nothing can be nested. -/
theorem nested_tooDeep :
    Traces strict maxNesting (Traced.nested t) (Rule.tooDeep : Rule τ α) s := by
  intro hd journal hj
  rw [Traced.nested, if_pos (Nat.le_refl _)]
  exact tooDeep hd journal hj

/-! ### Repetitions -/

section iterate

variable {sign : TokenStream τ → Option α} {tround : α → σ → Traced τ σ} {round : α → σ → Rule τ σ}

/-- Where the sign is missing, there is no round. -/
theorem iterateFrom_of_none {m : Machine τ} (h : sign m.stream = none)
    (measure : List (Lexeme τ)) (state : σ) :
    Traced.iterateFrom sign tround measure state m = .ok state m := by
  cases measure <;> simp only [Traced.iterateFrom, Bind.bind, EStateM.bind, Traced.ask, h] <;> rfl

/-- Where the sign holds, a round comes first. -/
theorem iterateFrom_of_some {m : Machine τ} {more : α} (h : sign m.stream = some more)
    (l : Lexeme τ) (measure : List (Lexeme τ)) (state : σ) :
    Traced.iterateFrom sign tround (l :: measure) state m =
      (tround more state >>= Traced.iterateFrom sign tround measure) m := by
  simp only [Traced.iterateFrom, Bind.bind, EStateM.bind, Traced.ask, h]

variable (hend : ∀ {s : TokenStream τ}, s.upcoming = [] → sign s = none)
  (hround : ∀ s more state, sign s = some more →
    Traces true depth (tround more state) (round more state) s)

include hround in
/-- A round takes a token, so what is left of the bound suffices for what is left of the stream. -/
theorem iterateFrom_cons {more : α} (hsign : sign s = some more) {l : Lexeme τ}
    {measure : List (Lexeme τ)} (hm : s.upcoming.length ≤ (l :: measure).length)
    (hrest : ∀ {s : TokenStream τ}, s.upcoming.length ≤ measure.length → ∀ state,
      Traces false depth (Traced.iterateFrom sign tround measure state)
        (Rule.iterateFrom sign round measure state) s) (state : σ) :
    Traces true depth (Traced.iterateFrom sign tround (l :: measure) state)
      (Rule.iterateFrom sign round (l :: measure) state) s := by
  -- The first round is strict, so the repetition is, whether or not the rest of it moves on.
  have hboth : Traces true depth (tround more state >>= Traced.iterateFrom sign tround measure)
      (round more state >>= Rule.iterateFrom sign round measure) s :=
    (hround s more state hsign).bind_of_eq fun _ hmoves =>
      hrest (Nat.le_of_lt_succ (Nat.lt_of_lt_of_le hmoves.length_upcoming_lt hm)) _
  refine hboth.congr (fun _ => iterateFrom_of_some hsign _ _ _) ?_
  simp only [Rule.iterateFrom, hsign, Bind.bind, StateT.bind, Except.bind]
  cases round more state s <;> rfl

include hend hround

/-- A bound of as many rounds as there are tokens left cuts nothing off. -/
theorem iterateFrom {measure : List (Lexeme τ)} (hm : s.upcoming.length ≤ measure.length)
    (state : σ) : Traces false depth (Traced.iterateFrom sign tround measure state)
      (Rule.iterateFrom sign round measure state) s := by
  induction measure generalizing s state with
  | nil =>
    have hnone := hend (List.length_eq_zero_iff.1 (Nat.le_zero.1 hm))
    exact (pure state).congr (fun _ => iterateFrom_of_none hnone _ _) rfl
  | cons l measure ih =>
    cases hsign : sign s with
    | none =>
      refine (pure state).congr (fun _ => iterateFrom_of_none hsign _ _) ?_
      simp only [Rule.iterateFrom, hsign]
      rfl
    | some more => exact (iterateFrom_cons hround hsign hm ih state).weaken

/-- Rounds are traced if each of them is strict, so that the measure is never used up. -/
theorem iterate (state : σ) : Traces false depth (Traced.iterate sign tround state)
    (Rule.iterate sign round state) s :=
  iterateFrom hend hround (Nat.le_refl _) state

/-- A repetition whose sign holds at first moves on. -/
theorem iterate_of_some {more : α} (hsign : sign s = some more) (state : σ) :
    Traces true depth (Traced.iterate sign tround state) (Rule.iterate sign round state) s := by
  cases hu : s.upcoming with
  | nil =>
    rw [hend hu] at hsign
    cases hsign
  | cons l rest =>
    have hfrom : Traces true depth (Traced.iterateFrom sign tround (l :: rest) state)
        (Rule.iterateFrom sign round (l :: rest) state) s :=
      iterateFrom_cons hround hsign (Nat.le_of_eq (congrArg List.length hu))
        (fun hm => iterateFrom hend hround hm) state
    exact hfrom.congr (fun _ => by rw [Traced.iterate, hu]) (by rw [Rule.iterate, hu])

end iterate

section repeatWhile

variable {condition : TokenStream τ → Bool} {titems : Traced τ (List RawNode)}
  {items : Rule τ (List RawNode)}
  (hend : ∀ {s : TokenStream τ}, s.upcoming = [] → condition s = false)
  (hitems : ∀ {s}, condition s = true → Traces true depth titems items s)
include hend hitems

/-- Repetitions are traced if each round is strict. -/
theorem repeatWhile : Traces false depth (Traced.repeatWhile condition titems)
    (Rule.repeatWhile condition items) s :=
  bind (iterate (fun hs => by rw [hend hs]; rfl)
    (fun _ _ _ hs => bind (hitems (by simpa using hs)) fun _ _ => pure _) []) fun _ _ => pure _

/-- Where the condition holds, there is a first round, which takes a token. -/
theorem repeatWhile_of_sign (hs : condition s = true) :
    Traces true depth (Traced.repeatWhile condition titems) (Rule.repeatWhile condition items) s :=
  bind (iterate_of_some (fun hs => by rw [hend hs]; rfl)
    (fun _ _ _ hs => bind (hitems (by simpa using hs)) fun _ _ => pure _)
    (by rw [hs]; rfl) []) fun _ _ => pure _

end repeatWhile

section repeatEach

variable {condition : TokenStream τ → Bool} {tnode : Traced τ RawNode} {node : Rule τ RawNode}
  (hend : ∀ {s : TokenStream τ}, s.upcoming = [] → condition s = false)
  (hnode : ∀ s, Traces true depth tnode node s)
include hend hnode

/-- Nodes that a rule reads one by one while a condition holds. -/
theorem repeatEach : Traces false depth (Traced.repeatWhile condition do return [← tnode])
    (Rule.repeatWhile condition do return [← node]) s :=
  repeatWhile hend fun _ => bind (hnode _) fun _ _ => pure _

/-- Where rounds make one node each and the condition holds, a token is taken. -/
theorem repeatEach_of_sign (hs : condition s = true) :
    Traces true depth (Traced.repeatWhile condition do return [← tnode])
      (Rule.repeatWhile condition do return [← node]) s :=
  repeatWhile_of_sign hend (fun _ => bind (hnode _) fun _ _ => pure _) hs

end repeatEach

/-! ### Operators -/

/-- An operator is one token. -/
theorem operatorNode {form? : τ → Option OperatorForm} {form : OperatorForm}
    (h : s.peek.bind form? = some form) :
    Traces true depth (Traced.operatorNode form?) form.node s := by
  obtain ⟨x, hp, -⟩ := Option.bind_eq_some_iff.1 h
  have hnode : Traces true depth
      (do
        let token ← Traced.leaf form.kind
        return match form.group with
          | none => token
          | some group => .branch group [token]) form.node s :=
    bind (leaf (TokenStream.atEnd_of_peek hp)) fun _ _ => pure _
  refine call (hnode.congr (fun _ => ?_) rfl)
  simp only [Traced.peek, Traced.ask, Bind.bind, EStateM.bind, h]

section operators

variable {ops : Operators τ} {toperand : Traced τ RawNode} {operand : Rule τ RawNode}
  (hoperand : ∀ s, Traces true depth toperand operand s)
include hoperand

/-- The operators of some classes are traced, as each of them takes a token before its operand. -/
theorem extendBy (classes : List OperatorClass) (left : RawNode) :
    Traces false depth (Traced.extendBy ops toperand classes left)
      (ops.extendBy operand classes left) s := by
  induction classes generalizing s left with
  | nil => exact call_continuing (pure left) (by decide)
  | cons level tighter ih =>
    -- Nothing need follow the operand, but what follows it begins with an operator.
    refine call_continuing (bind (ih left) fun left s =>
      iterate (fun hs => ?_) (fun s form left hs => ?_) left) (by decide)
    · simp [Operators.next?, TokenStream.peek, TokenStream.peekNth, hs]
    · obtain ⟨hform, -⟩ := Option.filter_eq_some_iff.1 hs
      exact bind (operatorNode hform) fun _ _ => bind (hoperand _) fun _ _ =>
        bind (ih _) fun _ _ => pure _

theorem extend (left : RawNode) : Traces false depth (Traced.extend ops toperand left)
    (ops.extend operand left) s :=
  extendBy hoperand _ left

/-- A whole expression is strict by its first operand. -/
theorem extended : Traces true depth (Traced.extended ops toperand)
    (ops.expression operand) s :=
  bind (hoperand s) fun left _ => extend hoperand left

end operators

/-- Behind a sign there is an operand again, and otherwise the plain one, so a token is taken in
    either case. -/
theorem signedBy {signs : Signs τ} {tplain toperand : Traced τ RawNode}
    {plain operand : Rule τ RawNode} (hplain : Traces true depth tplain plain s)
    (hoperand : ∀ s, Traces true depth toperand operand s) :
    Traces true depth (Traced.signedBy signs tplain toperand) (signs.signed plain operand) s := by
  refine peek ?_
  cases hform : s.peek.bind signs.form? with
  | none => exact hplain
  | some form =>
    refine bind (operatorNode hform) fun _ _ => ?_
    exact bind (hoperand _) fun _ _ => pure _

end Traces

end Traced

/-! ## Levels -/

/-- The rules that may stand inside themselves are traced, and move on. -/
structure Nested.IsTracedBy (below : Nested τ) (depth : Nat) (traced : Traced.Nested τ) :
    Prop where
  expression : ∀ s, Traced.Traces true depth traced.expression below.expression s
  typeIdentifier : ∀ s, Traced.Traces true depth traced.typeIdentifier below.typeIdentifier s
  unary : ∀ s, Traced.Traces true depth traced.unary below.unary s

/-- With as many levels left as rules may still be nested, and one more for the traced rules, the
    rules of a level are traced. -/
theorem Nested.level_isTracedBy {deeper : Nested τ → Nested τ}
    {tdeeper : Traced.Nested τ → Traced.Nested τ}
    (hdeeper : ∀ {depth : Nat} {below : Nested τ} {traced : Traced.Nested τ},
      below.IsTracedBy depth traced → (deeper below).IsTracedBy depth (tdeeper traced))
    {n depth : Nat} (hn : depth + n = maxNesting) :
    (level deeper n).IsTracedBy depth (Traced.Nested.level tdeeper (n + 1)) := by
  induction n generalizing depth with
  | zero =>
    obtain rfl : depth = maxNesting := hn
    exact ⟨fun _ => .call .nested_tooDeep, fun _ => .call .nested_tooDeep,
      fun _ => .call .nested_tooDeep⟩
  | succ n ih =>
    have hlt : depth < maxNesting := by omega
    have hb := hdeeper (ih (by omega : depth + 1 + n = maxNesting))
    exact ⟨fun s => .call (.nested (hb.expression s) hlt),
      fun s => .call (.nested (hb.typeIdentifier s) hlt),
      fun s => .call (.nested (hb.unary s) hlt)⟩

end GrammarTools
