import GrammarTools.ParseOutput
import GrammarTools.TokenStream

/-!
# Grammar rules

A *rule* reads a part of a token stream. It yields what it has read and the
place where it stopped, or else a syntax error. Rules are put together in
order by `do`; what is repeated is repeated by `Rule.iterate`.

A repetition goes on for as long as the stream shows the sign that there is
more. Every round takes at least one token, so there are no more rounds than
tokens; the list of upcoming tokens at the start serves as the measure.

Three rules may stand inside themselves. Every other rule is given these three
with room for one level less (`Nested`), and so needs no recursion of its own;
with no room left, the three rules fail.
-/

namespace GrammarTools

/-- What reads a part of a token stream. -/
abbrev Rule (τ : Type) := StateT (TokenStream τ) (Except SyntaxError)

namespace Rule

variable {τ α σ : Type}

/-- The next token. -/
def peek : Rule τ (Option τ) := fun s => .ok (s.peek, s)

/-- A question about the place in the stream. -/
def ask (question : TokenStream τ → α) : Rule τ α := fun s => .ok (question s, s)

/-- The error that something else was expected here. -/
def fail (expected : List String) : Rule τ α := fun s => .error ⟨s.span, expected, s.text?⟩

/-- The error that rules are nested too deeply. -/
def tooDeep : Rule τ α := fun s => .error (.nestedTooDeeply s.span s.text?)

/-- The next token as a leaf. -/
def leaf (kind : KindId) : Rule τ RawNode := fun s => .ok (.leaf kind s.span, s.advance)

/-- The next token as a leaf if it is the given one, which is what was expected. -/
def expect [DecidableEq τ] (token : τ) (kind : KindId) (description : String) : Rule τ RawNode :=
  fun s => if s.isAt token then leaf kind s else fail [description] s

/-- A number, whose kind tells whether it has a fraction. -/
def numeral (float int : KindId) : Rule τ RawNode := do
  let text ← ask TokenStream.text?
  if (text.getD "").toList.contains '.' then leaf float else leaf int

/-- A repetition of at most as many rounds as the list has elements. -/
def iterateFrom (sign : TokenStream τ → Option α) (round : α → σ → Rule τ σ) :
    List (Lexeme τ) → σ → Rule τ σ
  | [], state, s => .ok (state, s)
  | _ :: measure, state, s =>
    match sign s with
    | none => .ok (state, s)
    | some more =>
      match round more state s with
      | .error e => .error e
      | .ok (state, s) => iterateFrom sign round measure state s

/-- A repetition for as long as the stream gives the sign. -/
def iterate (sign : TokenStream τ → Option α) (round : α → σ → Rule τ σ) (state : σ) : Rule τ σ :=
  fun s => iterateFrom sign round s.upcoming state s

/-- All nodes that a rule reads while a condition holds. -/
def repeatWhile (condition : TokenStream τ → Bool) (items : Rule τ (List RawNode)) :
    Rule τ (List RawNode) := do
  let found ← iterate (fun s => if condition s then some () else none)
    (fun _ found => do return (← items).reverse ++ found) []
  return found.reverse

/-- A node that grows to the right for as long as the stream gives the sign. -/
def growWhile (sign : TokenStream τ → Option α) (grow : α → RawNode → Rule τ RawNode)
    (first : RawNode) : Rule τ RawNode :=
  iterate sign grow first

end Rule

/-! ## Rules inside themselves -/

/-- The rules that may stand inside themselves. -/
structure Nested (τ : Type) where
  /-- An expression. -/
  expression : Rule τ RawNode
  /-- A type. -/
  typeIdentifier : Rule τ RawNode
  /-- An operand with the operators in front of it. -/
  unary : Rule τ RawNode

namespace Nested

variable {τ : Type} {deeper : Nested τ → Nested τ}

/-- The rules with room for a number of levels, where `deeper` makes them from those with room
    for a level less. -/
def level (deeper : Nested τ → Nested τ) : Nat → Nested τ
  | 0 => ⟨Rule.tooDeep, Rule.tooDeep, Rule.tooDeep⟩
  | n + 1 => deeper (level deeper n)

/-- What holds of rules that fail, and passes from the rules of a level to those above, holds of
    the rules of all levels. -/
theorem level_forall {P : Nested τ → Prop}
    (hfail : P ⟨Rule.tooDeep, Rule.tooDeep, Rule.tooDeep⟩)
    (hdeeper : ∀ below, P below → P (deeper below)) (n : Nat) : P (level deeper n) := by
  induction n with
  | zero => exact hfail
  | succ n ih => exact hdeeper _ ih

end Nested

/-! ## What is passed over -/

namespace TokenStream

variable {τ : Type}

/-- The tokens of the list passed over until `stop` holds right after one of them, and the
    span of all that were passed over together with `span`. -/
def skipFrom (stop : τ → TokenStream τ → Bool) :
    List (Lexeme τ) → Span → TokenStream τ → Span × TokenStream τ
  | [], span, s => (span, s)
  | l :: rest, span, s =>
    if stop l.token s.advance then (span.merge l.span, s.advance)
    else skipFrom stop rest (span.merge l.span) s.advance

/-- At least one token passed over, if one is left, until `stop` holds right after the last. -/
def skipUntil (stop : τ → TokenStream τ → Bool) (s : TokenStream τ) : Span × TokenStream τ :=
  skipFrom stop s.upcoming s.span s

end TokenStream

end GrammarTools
