import Mathlib.Algebra.Order.Ring.Nat
import Mathlib.Tactic.Ring

/-!
# Library — weights

The first `k` values of a sequence, all at most `N`, as the digits of a number, the first one with
the highest place.  A sequence that grows at one place, and is not smaller before it, has a greater
weight, whatever becomes of the later places.

* `sum_lt_pow`: the bound.
* `sum_mono`, `sum_lt`: how it grows.
-/

namespace Weight

/-- `b 0`, …, `b (k - 1)` as digits. -/
def sum (N : ℕ) (b : ℕ → ℕ) : ℕ → ℕ
  | 0 => 0
  | k + 1 => sum N b k * (N + 1) + b k

variable {N k j : ℕ} {b b' : ℕ → ℕ}

theorem sum_lt_pow (hb : ∀ i < k, b i ≤ N) : sum N b k < (N + 1) ^ k := by
  induction k with
  | zero => simp [sum]
  | succ k ih =>
      have hlt := ih fun i hi => hb i (hi.trans (Nat.lt_succ_self k))
      have hk := hb k (Nat.lt_succ_self k)
      calc sum N b k * (N + 1) + b k
          < sum N b k * (N + 1) + (N + 1) := by omega
        _ = (sum N b k + 1) * (N + 1) := by ring
        _ ≤ (N + 1) ^ k * (N + 1) := Nat.mul_le_mul_right _ hlt
        _ = (N + 1) ^ (k + 1) := (pow_succ ..).symm

theorem sum_mono (h : ∀ i < k, b i ≤ b' i) : sum N b k ≤ sum N b' k := by
  induction k with
  | zero => exact le_rfl
  | succ k ih =>
      have hle := ih fun i hi => h i (hi.trans (Nat.lt_succ_self k))
      exact Nat.add_le_add (Nat.mul_le_mul_right _ hle) (h k (Nat.lt_succ_self k))

/-- **The first place that grows decides.** -/
theorem sum_lt (hb : ∀ i < k, b i ≤ N) (hj : j < k) (hle : ∀ i < j, b i ≤ b' i)
    (hlt : b j < b' j) : sum N b k < sum N b' k := by
  induction k with
  | zero => exact absurd hj (Nat.not_lt_zero j)
  | succ k ih =>
      have hk := hb k (Nat.lt_succ_self k)
      rcases Nat.lt_succ_iff_lt_or_eq.mp hj with hj | rfl
      · have hprefix := ih (fun i hi => hb i (hi.trans (Nat.lt_succ_self k))) hj
        calc sum N b k * (N + 1) + b k
            < sum N b k * (N + 1) + (N + 1) := by omega
          _ = (sum N b k + 1) * (N + 1) := by ring
          _ ≤ sum N b' k * (N + 1) := Nat.mul_le_mul_right _ hprefix
          _ ≤ sum N b' (k + 1) := Nat.le_add_right ..
      · exact Nat.add_lt_add_of_le_of_lt (Nat.mul_le_mul_right _ (sum_mono hle)) hlt

end Weight
