import Mathlib.Algebra.Order.Ring.Rat
import Mathlib.Order.RelClasses
import Mathlib.Order.WithBot
import Mathlib.Tactic.NormNum.Ineq
import Mathlib.Tactic.Positivity
import Parsat.Backdoor.Instance

/-!
# Backdoor — the order on fitness values

`operator<` compares two fitness values by `rho * 2 ^ size + (1 - rho) * 2 ^ pow_nr` where both can
be computed.  Where one of them cannot, a comparison on the side takes over: it puts empty sets and
sets of tiny `rho` last, looks at the sizes if they are far apart, and scales the values down to the
smaller size otherwise.  `pow_nr` is `omega_x` in every fitness of a run, so it is a parameter here,
and the numbers are exact.

`std::sort` and `std::min_element` ask for a strict weak order.  The comparison is one where only
one of its rules applies, and not where the rule for the last ones meets the rule for far sizes: a
large set is not comparable with a small useless one, which counts as much as a large useless one,
which the large set is better than.

* `StrictWeakOn`: a strict weak order on the values with a property.
* `lt_strictWeakOn_iff`: the bounds on the sizes up to which `operator<` is one.
-/

namespace Parsat

namespace Fitness

/-- `EPS`. -/
def eps : ℚ := 1 / 10 ^ 8

section Lt

variable (powNr : ℕ) (a b : Fitness)

/-- `can_calc`. -/
def canCalc : Bool := a.size < 62 && powNr < 62

/-- What `operator double` takes the logarithm of. -/
def value : ℚ := a.rho * 2 ^ a.size + (1 - a.rho) * 2 ^ powNr

/-- The conditions under which a fitness comes last. -/
def isLast : Bool := a.size = 0 || a.rho < eps

/-- `a.size > b.size + CRIT_SZ_DIFF`, in 32 bits. -/
def isFar : Bool := (b.size + 32) % 2 ^ 32 < a.size

/-- `operator<`. -/
def lt : Bool :=
  if a.canCalc powNr && b.canCalc powNr then a.value powNr < b.value powNr
  else if a.isLast || a.isFar b then false
  else if b.isLast || b.isFar a then true
  else
    let minPowR := min a.size b.size
    -- the difference of two `uint32_t` in an `int32_t`
    let pow : ℤ := ((powNr : ℤ) - minPowR).bmod (2 ^ 32)
    let aVal := a.rho * 2 ^ (a.size - minPowR)
    let bVal := b.rho * 2 ^ (b.size - minPowR)
    if -8 < pow then aVal + (1 - a.rho) * 2 ^ pow < bVal + (1 - b.rho) * 2 ^ pow
    else aVal < bVal

end Lt

/-- The comparison is a strict weak order on the values in `V`. -/
def StrictWeakOn (lt : Fitness → Fitness → Bool) (V : Fitness → Prop) : Prop :=
  IsStrictWeakOrder {a : Fitness // V a} fun a b => lt a.1 b.1 = true

/-- A value that `_calc_fitness` can compute, of a set of at most `n` variables. -/
def Upto (n : ℕ) (a : Fitness) : Prop := 0 ≤ a.rho ∧ a.rho ≤ 1 ∧ a.size ≤ n

/-! ### Strict weak orders -/

section StrictWeakOn

variable {lt : Fitness → Fitness → Bool} {V W : Fitness → Prop}

/-- Not being worse is transitive. -/
theorem StrictWeakOn.not_lt_trans (h : StrictWeakOn lt V) {a b c : Fitness} (ha : V a) (hb : V b)
    (hc : V c) (hab : lt a b = false) (hbc : lt b c = false) : lt a c = false := by
  by_contra hac
  rw [Bool.not_eq_false] at hac
  have hba : lt b a = false := by
    by_contra hba
    rw [Bool.not_eq_false] at hba
    have := h.trans ⟨b, hb⟩ ⟨a, ha⟩ ⟨c, hc⟩ hba hac
    simp [hbc] at this
  have hcb : lt c b = false := by
    by_contra hcb
    rw [Bool.not_eq_false] at hcb
    have := h.trans ⟨a, ha⟩ ⟨c, hc⟩ ⟨b, hb⟩ hac hcb
    simp [hab] at this
  have := h.incomp_trans ⟨a, ha⟩ ⟨b, hb⟩ ⟨c, hc⟩ (by simp [hab, hba]) (by simp [hbc, hcb])
  exact this.1 hac

theorem StrictWeakOn.irrefl (h : StrictWeakOn lt V) {a : Fitness} (ha : V a) : lt a a = false := by
  have := h.toIsStrictOrder.toIrrefl.irrefl ⟨a, ha⟩
  simpa using this

theorem StrictWeakOn.asymm (h : StrictWeakOn lt V) {a b : Fitness} (ha : V a) (hb : V b)
    (hab : lt a b = true) : lt b a = false := by
  by_contra hba
  rw [Bool.not_eq_false] at hba
  have := h.trans ⟨a, ha⟩ ⟨b, hb⟩ ⟨a, ha⟩ hab hba
  simp [h.irrefl ha] at this

/-- What is a strict weak order on more values is one on fewer. -/
theorem StrictWeakOn.mono (h : StrictWeakOn lt V) (hVW : ∀ a, W a → V a) : StrictWeakOn lt W where
  irrefl a := h.toIsStrictOrder.toIrrefl.irrefl ⟨a.1, hVW _ a.2⟩
  trans a b c := h.trans ⟨a.1, hVW _ a.2⟩ ⟨b.1, hVW _ b.2⟩ ⟨c.1, hVW _ c.2⟩
  incomp_trans a b c := h.incomp_trans ⟨a.1, hVW _ a.2⟩ ⟨b.1, hVW _ b.2⟩ ⟨c.1, hVW _ c.2⟩

/-- Comparing by a key in a linear order. -/
theorem StrictWeakOn.of_key {α : Type*} [LinearOrder α] (key : Fitness → α)
    (h : ∀ a b, V a → V b → (lt a b = true ↔ key a < key b)) : StrictWeakOn lt V where
  irrefl a := by
    rw [h _ _ a.2 a.2]
    exact lt_irrefl _
  trans a b c := by
    rw [h _ _ a.2 b.2, h _ _ b.2 c.2, h _ _ a.2 c.2]
    exact lt_trans
  incomp_trans a b c := by
    rw [h _ _ a.2 b.2, h _ _ b.2 c.2, h _ _ a.2 c.2, h _ _ b.2 a.2, h _ _ c.2 b.2, h _ _ c.2 a.2]
    simp only [not_lt]
    rintro ⟨h₁, h₂⟩ ⟨h₃, h₄⟩
    exact ⟨h₃.trans h₁, h₂.trans h₄⟩

end StrictWeakOn

/-! ### Where one rule applies -/

variable {powNr n : ℕ} {a b : Fitness}

theorem lt_of_canCalc (ha : a.canCalc powNr = true) (hb : b.canCalc powNr = true) :
    lt powNr a b = true ↔ a.value powNr < b.value powNr := by
  simp [lt, ha, hb]

/-- Values of at most 61 variables are all computed. -/
theorem strictWeakOn_calc (hp : powNr < 62) (hn : n ≤ 61) : StrictWeakOn (lt powNr) (Upto n) := by
  refine .of_key (value powNr) ?_
  rintro a b ⟨-, -, ha⟩ ⟨-, -, hb⟩
  refine lt_of_canCalc ?_ ?_
  · simp only [canCalc, hp, decide_true, Bool.and_true, decide_eq_true_eq]
    omega
  · simp only [canCalc, hp, decide_true, Bool.and_true, decide_eq_true_eq]
    omega

/-- The value, scaled down to a smaller size. -/
theorem value_eq_mul {m : ℕ} (a : Fitness) (hm : m ≤ a.size) (hp : m ≤ powNr) :
    a.value powNr =
      2 ^ m * (a.rho * 2 ^ (a.size - m) + (1 - a.rho) * (2 : ℚ) ^ ((powNr : ℤ) - m)) := by
  have hpow : (2 : ℚ) ^ ((powNr : ℤ) - m) = 2 ^ (powNr - m) := by
    rw [← Nat.cast_sub hp, zpow_natCast]
  have h₁ : (2 : ℚ) ^ a.size = 2 ^ m * 2 ^ (a.size - m) := by
    rw [← pow_add, Nat.add_sub_cancel' hm]
  have h₂ : (2 : ℚ) ^ powNr = 2 ^ m * 2 ^ (powNr - m) := by
    rw [← pow_add, Nat.add_sub_cancel' hp]
  rw [value, hpow, h₁, h₂]
  ring

/-- Sets of at most 32 variables are never far from each other, and are compared by their values
unless one of them comes last. -/
theorem lt_of_small (hp : 62 ≤ powNr) (hp' : powNr < 2 ^ 31) (ha : a.size ≤ 32) (hb : b.size ≤ 32) :
    lt powNr a b = true ↔
      a.isLast = false ∧ (b.isLast = true ∨ a.value powNr < b.value powNr) := by
  have hcalc : a.canCalc powNr = false := by
    simp only [canCalc, Bool.and_eq_false_iff, decide_eq_false_iff_not]
    omega
  have hfar : ∀ c d : Fitness, c.size ≤ 32 → d.size ≤ 32 → c.isFar d = false := by
    intro c d hc hd
    have : (d.size + 32) % 2 ^ 32 = d.size + 32 := Nat.mod_eq_of_lt (by omega)
    simp only [isFar, this, decide_eq_false_iff_not]
    omega
  have hmod : ((powNr : ℤ) - (min a.size b.size : ℕ)).bmod (2 ^ 32) =
      (powNr : ℤ) - (min a.size b.size : ℕ) := Int.bmod_eq_of_le (by omega) (by omega)
  have hlarge : (-8 : ℤ) < (powNr : ℤ) - (min a.size b.size : ℕ) := by omega
  have hpos : (0 : ℚ) < 2 ^ min a.size b.size := by positivity
  simp only [lt, hcalc, Bool.false_and, Bool.false_eq_true, if_false, hfar a b ha hb,
    hfar b a hb ha, Bool.or_false, hmod, hlarge, if_true,
    a.value_eq_mul (min_le_left _ _) (by omega : min a.size b.size ≤ powNr),
    b.value_eq_mul (min_le_right _ _) (by omega : min a.size b.size ≤ powNr),
    mul_lt_mul_iff_right₀ hpos]
  cases a.isLast <;> cases b.isLast <;> simp

/-- So they are compared by the value, with a last value on top. -/
theorem strictWeakOn_small (hp : 62 ≤ powNr) (hp' : powNr < 2 ^ 31) (hn : n ≤ 32) :
    StrictWeakOn (lt powNr) (Upto n) := by
  refine .of_key (fun a => if a.isLast then (⊤ : WithTop ℚ) else (a.value powNr : WithTop ℚ)) ?_
  rintro a b ⟨-, -, ha⟩ ⟨-, -, hb⟩
  rw [lt_of_small hp hp' (by omega) (by omega)]
  cases a.isLast <;> cases b.isLast <;> simp

/-! ### Where the rules meet -/

/-- **The rules contradict each other** once sizes may differ by 33 and one of them is not
computed. -/
theorem not_strictWeakOn {m : ℕ} (hm : 33 ≤ m) (hm' : m < 2 ^ 31) (hcalc : 62 ≤ m ∨ 62 ≤ powNr)
    {V : Fitness → Prop} (hV : ∀ a, Upto m a → V a) : ¬ StrictWeakOn (lt powNr) V := by
  intro h
  -- a large set with all assignments refuted, a small and a large one with none
  let large : Fitness := ⟨1, m, 0⟩
  let useless : Fitness := ⟨0, m - 33, 0⟩
  let largeUseless : Fitness := ⟨0, m, 0⟩
  have hlast : ∀ size samples, isLast ⟨0, size, samples⟩ = true := by
    intro size samples
    simp [isLast, eps]
  have hlarge : large.canCalc powNr = false := by
    simp only [large, canCalc, Bool.and_eq_false_iff, decide_eq_false_iff_not]
    omega
  have hlarge' : largeUseless.canCalc powNr = false := hlarge
  have hfirst : large.isLast = false := by
    have : m ≠ 0 := by omega
    have heps : ¬ (1 : ℚ) < eps := by norm_num [eps]
    simp [large, isLast, this, heps]
  have hfar : large.isFar useless = true := by
    have : (m - 33 + 32) % 2 ^ 32 = m - 1 := by
      rw [Nat.mod_eq_of_lt (by omega)]
      omega
    simp only [large, useless, isFar, this, decide_eq_true_eq]
    omega
  have hnear : large.isFar largeUseless = false := by
    have : (m + 32) % 2 ^ 32 = m + 32 := Nat.mod_eq_of_lt (by omega)
    simp only [large, largeUseless, isFar, this, decide_eq_false_iff_not]
    omega
  have h₁ : lt powNr large useless = false := by simp [lt, hlarge, hfar]
  have h₂ : lt powNr useless large = false := by simp [lt, hlarge, useless, hlast]
  have h₃ : lt powNr useless largeUseless = false := by simp [lt, hlarge', useless, hlast]
  have h₄ : lt powNr largeUseless useless = false := by
    simp [lt, hlarge']
    simp [largeUseless, hlast]
  have h₅ : lt powNr large largeUseless = true := by
    simp [lt, hlarge, hfirst, hnear, largeUseless, hlast]
  have hVl : V large := hV _ ⟨by norm_num [large], by norm_num [large], le_rfl⟩
  have hVu : V useless := hV _ ⟨le_rfl, by norm_num [useless], Nat.sub_le _ _⟩
  have hVlu : V largeUseless := hV _ ⟨le_rfl, by norm_num [largeUseless], le_rfl⟩
  have := h.not_lt_trans hVl hVu hVlu h₁ h₃
  rw [h₅] at this
  cases this

/-- **When `operator<` is a strict weak order.**  On the values of all sizes it never is.  On those
of at most `n` variables it is one exactly if none of them is too large to be computed, or, where
`pow_nr` is, none of them is far from another. -/
theorem lt_strictWeakOn_iff (powNr : ℕ) :
    ¬ StrictWeakOn (lt powNr) (Upto (2 ^ 32 - 1)) ∧
    (powNr < 2 ^ 31 → ∀ n, StrictWeakOn (lt powNr) (Upto n) ↔
      powNr < 62 ∧ n ≤ 61 ∨ 62 ≤ powNr ∧ n ≤ 32) := by
  have hmono : ∀ {m n}, m ≤ n → ∀ a, Upto m a → Upto n a := by
    rintro m n hmn a ⟨h₁, h₂, h₃⟩
    exact ⟨h₁, h₂, h₃.trans hmn⟩
  refine ⟨not_strictWeakOn (m := 62) (by decide) (by decide) (.inl le_rfl) (hmono (by decide)), ?_⟩
  intro hp n
  constructor
  · intro h
    by_contra hn
    by_cases hcalc : powNr < 62
    · exact not_strictWeakOn (m := 62) (by decide) (by decide) (.inl le_rfl) (hmono (by omega)) h
    · exact not_strictWeakOn (m := 33) (by decide) (by decide) (.inr (by omega))
        (hmono (by omega)) h
  · rintro (⟨hcalc, hn⟩ | ⟨hcalc, hn⟩)
    · exact strictWeakOn_calc hcalc hn
    · exact strictWeakOn_small hcalc hp hn

/-- With `omega_x = 20`: a set of 62 variables is not comparable with a useless one of one variable,
nor that with a useless one of 62 variables, but it is better than the latter. -/
theorem lt_not_strictWeakOn_twenty :
    lt 20 ⟨1, 62, 1⟩ ⟨0, 1, 2⟩ = false ∧ lt 20 ⟨0, 1, 2⟩ ⟨1, 62, 1⟩ = false ∧
    lt 20 ⟨0, 1, 2⟩ ⟨0, 62, 1⟩ = false ∧ lt 20 ⟨0, 62, 1⟩ ⟨0, 1, 2⟩ = false ∧
    lt 20 ⟨1, 62, 1⟩ ⟨0, 62, 1⟩ = true ∧
    ¬ StrictWeakOn (lt 20) (Upto (2 ^ 32 - 1)) := by
  refine ⟨by decide +kernel, by decide +kernel, by decide +kernel, by decide +kernel,
    by decide +kernel, ?_⟩
  exact not_strictWeakOn (m := 62) (by decide) (by decide) (.inl le_rfl) fun a h =>
    ⟨h.1, h.2.1, h.2.2.trans (by decide)⟩

end Fitness

end Parsat
