import Mathlib.Algebra.BigOperators.Group.List.Basic
import Mathlib.Algebra.Order.BigOperators.Group.List
import Mathlib.Data.List.Forall2
import Mathlib.Data.List.Induction

/-!
# Library — odometers

Counting in a mixed radix, least significant digit first.  `incr` is what a counter does without
division: a digit that reaches its base becomes `0` and carries.

* `incr_digits`: adding one to the digits of `k` gives the digits of `k + 1`.
* `exists_digits`: every reading of the odometer is the digits of a number below the product.
* `flatten_range'`: intervals that follow each other without a gap make up the whole range.
* `map_digits_range`: counting through all numbers below the product reads off `tuples`, the
  readings in lexicographic order.
-/

namespace Odometer

/-- The digits of `k` for the bases `bs`. -/
def digits : List ℕ → ℕ → List ℕ
  | [], _ => []
  | b :: bs, k => k % b :: digits bs (k / b)

/-- Add one. -/
def incr : List ℕ → List ℕ → List ℕ
  | b :: bs, d :: ds => if d + 1 = b then 0 :: incr bs ds else (d + 1) :: ds
  | _, ds => ds

/-- How many digits turn over when one is added. -/
def carries : List ℕ → List ℕ → ℕ
  | b :: bs, d :: ds => if d + 1 = b then carries bs ds + 1 else 0
  | _, _ => 0

variable {b k n : ℕ} {bs ds : List ℕ}

@[simp] theorem length_digits (bs : List ℕ) (k : ℕ) : (digits bs k).length = bs.length := by
  induction bs generalizing k with
  | nil => rfl
  | cons b bs ih => simp [digits, ih]

@[simp] theorem length_incr (bs ds : List ℕ) : (incr bs ds).length = ds.length := by
  induction bs generalizing ds with
  | nil => simp [incr]
  | cons b bs ih =>
      cases ds with
      | nil => simp [incr]
      | cons d ds =>
          simp only [incr]
          split <;> simp [ih]

theorem digits_lt (h : ∀ b ∈ bs, 0 < b) (k : ℕ) :
    List.Forall₂ (· < ·) (digits bs k) bs := by
  induction bs generalizing k with
  | nil => exact .nil
  | cons b bs ih =>
      rw [List.forall_mem_cons] at h
      exact .cons (Nat.mod_lt _ h.1) (ih h.2 _)

/-- **Adding one** to the digits of `k`. -/
theorem incr_digits (h : ∀ b ∈ bs, 0 < b) (k : ℕ) :
    incr bs (digits bs k) = digits bs (k + 1) := by
  induction bs generalizing k with
  | nil => rfl
  | cons b bs ih =>
      rw [List.forall_mem_cons] at h
      have hk := Nat.div_add_mod k b
      have hlt := Nat.mod_lt k h.1
      simp only [digits, incr]
      split
      · rename_i hb
        obtain ⟨h₁, h₂⟩ := (Nat.div_mod_unique h.1 (a := k + 1) (d := k / b + 1) (c := 0)).mpr
          ⟨by rw [Nat.mul_add]; omega, h.1⟩
        rw [ih h.2, h₁, h₂]
      · rename_i hb
        obtain ⟨h₁, h₂⟩ := (Nat.div_mod_unique h.1 (a := k + 1) (d := k / b) (c := k % b + 1)).mpr
          ⟨by omega, by omega⟩
        rw [h₁, h₂]

/-- The digits past those that turn over and the one after them stay. -/
theorem drop_incr (bs ds : List ℕ) :
    (incr bs ds).drop (carries bs ds + 1) = ds.drop (carries bs ds + 1) := by
  induction bs generalizing ds with
  | nil => simp [incr]
  | cons b bs ih =>
      cases ds with
      | nil => simp [incr]
      | cons d ds =>
          simp only [incr, carries]
          split
          · simp [ih]
          · simp

theorem carries_le (bs ds : List ℕ) : carries bs ds ≤ ds.length := by
  induction bs generalizing ds with
  | nil => simp [carries]
  | cons b bs ih =>
      cases ds with
      | nil => simp [carries]
      | cons d ds =>
          simp only [carries]
          split
          · simpa using ih ds
          · exact Nat.zero_le _

/-- Numbers below the product are determined by their digits. -/
theorem digits_inj {j : ℕ} (hj : j < bs.prod) (hk : k < bs.prod)
    (h : digits bs j = digits bs k) : j = k := by
  induction bs generalizing j k with
  | nil => simp_all
  | cons b bs ih =>
      rw [List.prod_cons] at hj hk
      simp only [digits, List.cons.injEq] at h
      have hdiv := ih (Nat.div_lt_of_lt_mul hj) (Nat.div_lt_of_lt_mul hk) h.2
      rw [← Nat.div_add_mod j b, ← Nat.div_add_mod k b, h.1, hdiv]

/-- **Every reading** is the digits of a number below the product of the bases. -/
theorem exists_digits (h : List.Forall₂ (· < ·) ds bs) : ∃ k < bs.prod, digits bs k = ds := by
  induction h with
  | nil => exact ⟨0, by simp, rfl⟩
  | @cons d b ds bs hd _ ih =>
      obtain ⟨k, hk, rfl⟩ := ih
      have hpos : 0 < b := by omega
      refine ⟨d + b * k, ?_, ?_⟩
      · calc d + b * k < b + b * k := by omega
          _ = b * (k + 1) := by rw [Nat.mul_add, Nat.mul_one, Nat.add_comm]
          _ ≤ b * bs.prod := Nat.mul_le_mul_left b hk
          _ = (b :: bs).prod := List.prod_cons.symm
      · simp [digits, Nat.add_mul_mod_self_left, Nat.mod_eq_of_lt hd,
          Nat.add_mul_div_left _ _ hpos, Nat.div_eq_of_lt hd]

/-- Adjacent intervals make up the range. -/
theorem flatten_range' {start todo : ℕ → ℕ} (h₀ : start 0 = 0)
    (h : ∀ i < n, start (i + 1) = start i + todo i) :
    ((List.range n).map fun i => List.range' (start i) (todo i)).flatten =
      List.range (start n) := by
  induction n with
  | zero => simp [h₀]
  | succ n ih =>
      rw [List.range_succ, List.map_append, List.flatten_append, ih fun i hi => h i (by omega),
        h n (by omega), List.range_eq_range', List.range_eq_range']
      simpa using List.range'_append_1 (s := 0) (m := start n) (n := todo n)

/-! ### Readings in lexicographic order -/

/-- All readings for the bases `ns`, most significant digit first. -/
def tuples : List ℕ → List (List ℕ)
  | [] => [[]]
  | n :: ns => (List.range n).flatMap fun i => (tuples ns).map (i :: ·)

theorem mem_tuples {ns is : List ℕ} : is ∈ tuples ns ↔ List.Forall₂ (· < ·) is ns := by
  induction ns generalizing is with
  | nil => simp [tuples]
  | cons n ns ih =>
      simp only [tuples, List.mem_flatMap, List.mem_range, List.mem_map, ih]
      constructor
      · rintro ⟨i, hi, is, his, rfl⟩
        exact .cons hi his
      · intro h
        cases h with
        | @cons i _ is _ hi his => exact ⟨i, hi, is, his, rfl⟩

theorem length_tuples (ns : List ℕ) : (tuples ns).length = ns.prod := by
  induction ns with
  | nil => rfl
  | cons n ns ih => simp [tuples, List.length_flatMap, ih]

/-- The readings are listed in lexicographic order, so none is repeated. -/
theorem pairwise_tuples (ns : List ℕ) : (tuples ns).Pairwise (List.Lex (· < ·)) := by
  induction ns with
  | nil => simp [tuples]
  | cons n ns ih =>
      rw [tuples, List.pairwise_flatMap]
      refine ⟨?_, ?_⟩
      · intro i _
        rw [List.pairwise_map]
        exact ih.imp List.Lex.cons
      · refine List.pairwise_lt_range.imp ?_
        intro i j hij x hx y hy
        obtain ⟨x, -, rfl⟩ := List.mem_map.mp hx
        obtain ⟨y, -, rfl⟩ := List.mem_map.mp hy
        exact .rel hij

theorem digits_append_singleton (bs : List ℕ) (b k : ℕ) :
    digits (bs ++ [b]) k = digits bs k ++ [k / bs.prod % b] := by
  induction bs generalizing k with
  | nil => simp [digits]
  | cons a bs ih =>
      simp only [List.cons_append, digits, ih, List.prod_cons, Nat.div_div_eq_div_mul]

/-- The digits do not see multiples of the product of the bases. -/
theorem digits_add_mul (bs : List ℕ) (k i : ℕ) : digits bs (k + bs.prod * i) = digits bs k := by
  induction bs generalizing k i with
  | nil => rfl
  | cons b bs ih =>
      simp only [digits, List.prod_cons]
      rcases Nat.eq_zero_or_pos b with rfl | hb
      · simp
      · rw [Nat.mul_assoc, Nat.add_mul_mod_self_left, Nat.add_mul_div_left _ _ hb, ih]

theorem range_mul (n m : ℕ) :
    List.range (n * m) = (List.range n).flatMap fun i => (List.range m).map (· + m * i) := by
  have hflat : ((List.range n).map fun i => List.range' (i * m) m).flatten = List.range (n * m) :=
    flatten_range' (Nat.zero_mul m) fun i _ => Nat.succ_mul i m
  rw [← hflat, List.flatMap_def]
  congr 1
  refine List.map_congr_left ?_
  intro i _
  rw [List.range'_eq_map_range, Nat.mul_comm]
  refine List.map_congr_left ?_
  intro j _
  exact Nat.add_comm _ _

/-- **Counting** through all numbers below the product of the bases. -/
theorem map_digits_range (bs : List ℕ) :
    (List.range bs.prod).map (fun k => (digits bs k).reverse) = tuples bs.reverse := by
  induction bs using List.reverseRecOn with
  | nil => rfl
  | append_singleton bs b ih =>
      have hprod : (bs ++ [b]).prod = b * bs.prod := by simp [Nat.mul_comm]
      rw [hprod, range_mul, List.map_flatMap, List.reverse_append, List.reverse_singleton,
        List.singleton_append, tuples]
      refine List.flatMap_congr ?_
      intro i hi
      rw [← ih, List.map_map, List.map_map]
      refine List.map_congr_left ?_
      intro j hj
      -- `j` is below the product, so the last digit is `i`
      have hj' := List.mem_range.mp hj
      have hdiv : (j + bs.prod * i) / bs.prod = i := by
        rw [Nat.add_mul_div_left _ _ (by omega), Nat.div_eq_of_lt hj', Nat.zero_add]
      simp only [Function.comp_apply, digits_append_singleton, digits_add_mul, hdiv,
        Nat.mod_eq_of_lt (List.mem_range.mp hi), List.reverse_append, List.reverse_singleton,
        List.singleton_append]

end Odometer
