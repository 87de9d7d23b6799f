/-!
# Bisection

Where a property of indices stops to hold. `bisect p n` looks at the indices
below `n` by halving. If `p` holds up to some index and nowhere from there on,
the result is that index (`bisect_eq`); in any case it is at most `n`.
-/

namespace GrammarTools

/-- The end of the search among the `size` indices from `base` on. -/
def bisectFrom (p : Nat → Bool) (base size : Nat) : Nat :=
  if size ≤ 1 then base
  else
    let half := size / 2
    bisectFrom p (bif p (base + half) then base + half else base) (size - half)
termination_by size
decreasing_by omega

/-- The first index at which `p` fails, or `n` if it holds at all below `n`. -/
def bisect (p : Nat → Bool) (n : Nat) : Nat :=
  if n = 0 then 0
  else
    let base := bisectFrom p 0 n
    if p base then base + 1 else base

theorem bisectFrom_bounds (p : Nat → Bool) (base size : Nat) (h : 0 < size) :
    base ≤ bisectFrom p base size ∧ bisectFrom p base size < base + size := by
  fun_induction bisectFrom p base size with
  | case1 base size hs => omega
  | case2 base size hs half ih =>
    have hi := ih (by omega)
    have : base ≤ (bif p (base + half) then base + half else base) ∧
        (bif p (base + half) then base + half else base) ≤ base + half := by
      cases p (base + half) <;> simp
    omega

theorem bisect_le (p : Nat → Bool) (n : Nat) : bisect p n ≤ n := by
  unfold bisect
  split
  · omega
  · have := bisectFrom_bounds p 0 n (by omega)
    dsimp only
    split <;> omega

/-- What bisection finds when `p` holds at the indices below `k` and at no other: the
    last index at which it does, or the start. -/
theorem bisectFrom_eq {p : Nat → Bool} {k : Nat} (hp : ∀ i, p i = true ↔ i < k)
    (base size : Nat) (h : 0 < size) (hb : base < k ∨ base = 0) (hk : k ≤ base + size) :
    bisectFrom p base size = k - 1 := by
  fun_induction bisectFrom p base size with
  | case1 base size hs => omega
  | case2 base size hs half ih =>
    apply ih (by omega)
    · cases ht : p (base + half)
      · exact hb
      · exact Or.inl ((hp _).1 ht)
    · cases ht : p (base + half)
      · have : ¬ base + half < k := fun hlt => by simp [(hp _).2 hlt] at ht
        simp only [cond_false]
        omega
      · simp only [cond_true]
        omega

/-- If `p` holds below `k` and nowhere from `k` on, bisection finds `k`. -/
theorem bisect_eq {p : Nat → Bool} {k n : Nat} (hp : ∀ i, p i = true ↔ i < k) (hk : k ≤ n) :
    bisect p n = k := by
  unfold bisect
  split
  · omega
  · have h := bisectFrom_eq hp 0 n (by omega) (by omega) (by omega)
    simp only [h]
    by_cases hk0 : k = 0
    · have : p 0 = false := by
        rw [Bool.eq_false_iff]
        intro ht
        have := (hp _).1 ht
        omega
      simp [hk0, this]
    · have : p (k - 1) = true := (hp _).2 (by omega)
      simp only [this, if_true]
      omega

end GrammarTools
