import Mathlib.Data.List.Nodup
import Parsat.Search.Search

/-!
# Search — complete enumerations

What `FullSearch` and `CartesianSearch` are for: a fresh search goes through all sign vectors of
its variables, or through all ways to take one vector from each list, and so do the searches it is
split into, put one after the other.  A search may be split into more parts than it has positions;
the parts left over are empty and are not run.

* `fullSearch_enumerates`: the `k`-th assignment has the binary digits of `k` as signs.
* `cartesianSearch_enumerates`: the index tuples come in lexicographic order, the last list fastest.
-/

namespace Parsat

namespace Search

variable {s : Search} {n i : ℕ}

theorem splitSearch_total (s : Search) (n i : ℕ) : (s.splitSearch n i).total =
    if (getStartAndTodo s.total n i).1 < s.total then (getStartAndTodo s.total n i).2 else 0 := by
  simp only [splitSearch]
  split
  · exact reset_total _
  · rfl

/-- What a part adds to the enumeration is its interval, which is empty if the part is. -/
theorem Fresh.visits_part (h : s.Fresh) (hi : i < n) :
    (if (s.splitSearch n i).isEmpty then [] else (s.splitSearch n i).visits) =
      (List.range' (getStartAndTodo s.total n i).1 (getStartAndTodo s.total n i).2).map
        s.entry := by
  simp only [isEmpty, splitSearch_total]
  by_cases hlt : (getStartAndTodo s.total n i).1 < s.total
  · have hpos := getStartAndTodo_pos_of_lt hi hlt
    rw [if_pos hlt, if_neg (by simpa using hpos.ne'), h.visits_split hi hlt]
  · have hle := getStartAndTodo_add_le s.total hi
    have htodo : (getStartAndTodo s.total n i).2 = 0 := by omega
    rw [if_neg hlt, htodo]
    rfl

/-- Leaving out the empty parts. -/
theorem flatMap_visits_parts_eq (s : Search) (n : ℕ) : (s.parts n).flatMap Search.visits =
    (List.range n).flatMap fun i =>
      if (s.splitSearch n i).isEmpty then [] else (s.splitSearch n i).visits := by
  rw [parts]
  induction List.range n with
  | nil => rfl
  | cons i is ih =>
      rw [List.flatMap_cons, ← ih, List.map_cons]
      cases hp : (s.splitSearch n i).isEmpty <;> simp [hp]

/-- **The non-empty parts together** visit what the search visits, in the same order. -/
theorem Fresh.flatMap_visits_parts (h : s.Fresh) (hn : 0 < n) :
    (s.parts n).flatMap Search.visits = s.visits := by
  rw [h.visits, ← flatMap_intervals s.total hn, flatMap_visits_parts_eq, List.flatMap_def,
    List.flatMap_def]
  refine congrArg _ (List.map_congr_left ?_)
  intro i hi
  exact h.visits_part (List.mem_range.mp hi)

end Search

/-! ### Sign vectors -/

/-- The assignment that encodes `k`: the first variable has the least significant bit as its
sign. -/
def signAssignment (vars : List ℕ) (k : ℕ) : LitVec :=
  vars.mapIdx fun i v => mkLit v (k.testBit i)

theorem encode_map_mkLit (vars : List ℕ) (k : ℕ) :
    encode (vars.map fun v => mkLit v false) k = signAssignment vars k := by
  simp [encode, signAssignment, List.ext_getElem_iff]

theorem visits_fullSearch {vars : List ℕ} (hn : vars.length ≤ 63) :
    (fullSearch vars).visits = (List.range (2 ^ vars.length)).map
      (encode (vars.map fun v => mkLit v false)) := by
  have hmod : vars.length % 64 = vars.length := Nat.mod_eq_of_lt (by omega)
  rw [(Search.Fresh.full hn).visits]
  simp only [fullSearch, hmod]
  rfl

/-- The signs of `signAssignment`. -/
def bits (n k : ℕ) : List Bool := (List.range n).map k.testBit

theorem map_sign_signAssignment (vars : List ℕ) (k : ℕ) :
    (signAssignment vars k).map Lit.sign = bits vars.length k := by
  simp [signAssignment, bits, List.ext_getElem_iff]

/-- Two numbers below `2 ^ n` with the same `n` bits are equal. -/
theorem bits_inj {n j k : ℕ} (hj : j < 2 ^ n) (hk : k < 2 ^ n) (h : bits n j = bits n k) :
    j = k := by
  refine Nat.eq_of_testBit_eq ?_
  intro i
  by_cases hi : i < n
  · have := congrArg (·[i]?) h
    simpa [bits, hi] using this
  · have hle : 2 ^ n ≤ 2 ^ i := Nat.pow_le_pow_right (by decide) (by omega)
    rw [Nat.testBit_lt_two_pow (by omega), Nat.testBit_lt_two_pow (by omega)]

/-- Every sign vector of length `n` is the bits of a number below `2 ^ n`. -/
theorem exists_bits (σ : List Bool) : ∃ k < 2 ^ σ.length, bits σ.length k = σ := by
  induction σ with
  | nil => exact ⟨0, by simp, rfl⟩
  | cons b σ ih =>
      obtain ⟨k, hk, hσ⟩ := ih
      refine ⟨Nat.bit b k, ?_, ?_⟩
      · rw [List.length_cons, Nat.pow_succ, Nat.bit_val]
        have := Bool.toNat_le b
        omega
      · rw [bits, List.length_cons, List.range_succ_eq_map, List.map_cons, List.map_map,
          Nat.testBit_bit_zero]
        refine congrArg _ (Eq.trans ?_ hσ)
        refine List.map_congr_left ?_
        intro i _
        exact Nat.testBit_bit_succ ..

/-- Each sign vector occurs once among the bits of the numbers below `2 ^ n`. -/
theorem count_map_bits {n : ℕ} {σ : List Bool} (h : σ.length = n) :
    ((List.range (2 ^ n)).map (bits n)).count σ = 1 := by
  subst h
  obtain ⟨k, hk, hσ⟩ := exists_bits σ
  have hnodup : ((List.range (2 ^ σ.length)).map (bits σ.length)).Nodup := by
    refine List.Nodup.map_on ?_ List.nodup_range
    intro i hi j hj e
    exact bits_inj (List.mem_range.mp hi) (List.mem_range.mp hj) e
  exact List.count_eq_one_of_mem hnodup (List.mem_map.mpr ⟨k, List.mem_range.mpr hk, hσ⟩)

/-- **A full search enumerates the sign vectors.**  For at most 63 variables a fresh `FullSearch`
visits in `2 ^ n` steps the assignments that encode `0, …, 2 ^ n - 1`, each sign vector once, and
its non-empty parts, however many parts it is split into, visit the same sequence. -/
theorem fullSearch_enumerates (vars : List ℕ) (hn : vars.length ≤ 63) (numSplit : ℕ)
    (hsplit : 1 ≤ numSplit) :
    (fullSearch vars).visits = (List.range (2 ^ vars.length)).map (signAssignment vars) ∧
    (∀ σ : List Bool, σ.length = vars.length →
      ((fullSearch vars).visits.map (List.map Lit.sign)).count σ = 1) ∧
    ((fullSearch vars).parts numSplit).flatMap Search.visits = (fullSearch vars).visits := by
  have hvisits : (fullSearch vars).visits =
      (List.range (2 ^ vars.length)).map (signAssignment vars) := by
    rw [visits_fullSearch hn]
    exact List.map_congr_left fun k _ => encode_map_mkLit vars k
  refine ⟨hvisits, ?_, (Search.Fresh.full hn).flatMap_visits_parts hsplit⟩
  intro σ hσ
  rw [hvisits, List.map_map]
  have hbits : List.map Lit.sign ∘ signAssignment vars = bits vars.length :=
    funext (map_sign_signAssignment vars)
  rw [hbits, count_map_bits hσ]

/-- Five parts of the four assignments of `7, 8`. -/
theorem fullSearch_enumerates_two :
    ((fullSearch [7, 8]).parts 5).flatMap Search.visits =
      [[mkLit 7 false, mkLit 8 false], [mkLit 7 true, mkLit 8 false],
        [mkLit 7 false, mkLit 8 true], [mkLit 7 true, mkLit 8 true]] ∧
    ((fullSearch [7, 8]).parts 5).length = 4 := by
  obtain ⟨hvisits, -, hparts⟩ := fullSearch_enumerates [7, 8] (by decide) 5 (by decide)
  refine ⟨?_, by decide +kernel⟩
  rw [hparts, hvisits]
  decide +kernel

/-! ### Index tuples -/

/-- The assignment a tuple of indices stands for: one vector from each list. -/
def tupleAssignment (set : CartesianSet) (indices : List ℕ) : LitVec :=
  (chosen set indices).flatten

/-- **A cartesian search enumerates the index tuples.**  For non-empty lists of vectors of one
length each, with fewer than `2 ^ 32` combinations, a fresh `CartesianSearch` visits the
combinations of all index tuples in lexicographic order, the last list fastest, and its non-empty
parts visit the same sequence. -/
theorem cartesianSearch_enumerates (set : CartesianSet) (hset : Uniform set)
    (hprod : (set.map List.length).prod < 2 ^ 32) (numSplit : ℕ) (hsplit : 1 ≤ numSplit) :
    let tuples := Odometer.tuples (set.map List.length)
    (∀ is, is ∈ tuples ↔ List.Forall₂ (· < ·) is (set.map List.length)) ∧
    tuples.Pairwise (List.Lex (· < ·)) ∧
    tuples.length = (set.map List.length).prod ∧
    (cartesianSearch set).visits = tuples.map (tupleAssignment set) ∧
    ((cartesianSearch set).parts numSplit).flatMap Search.visits =
      (cartesianSearch set).visits := by
  intro tuples
  have hfresh : (cartesianSearch set).Fresh := .cartesian hset hprod
  have hradices : (radices set).prod = (set.map List.length).prod := List.prod_reverse _
  have htuples : (List.range (set.map List.length).prod).map
      (fun k => (Odometer.digits (radices set) k).reverse) = tuples := by
    rw [← hradices, Odometer.map_digits_range, radices, List.reverse_reverse]
  refine ⟨fun is => Odometer.mem_tuples, Odometer.pairwise_tuples _, ?_, ?_,
    hfresh.flatMap_visits_parts hsplit⟩
  · rw [← htuples, List.length_map, List.length_range]
  · rw [hfresh.visits, cartesianSearch_total, Nat.mod_eq_of_lt hprod, ← htuples, List.map_map]
    rfl

/-- Two lists, of two vectors and of one empty and one list of size one: three parts. -/
theorem cartesianSearch_enumerates_two :
    ((cartesianSearch [[[mkLit 0 false], [mkLit 1 false]], [[]],
        [[mkLit 2 false, mkLit 3 true], [mkLit 2 true, mkLit 3 false]]]).parts 3).flatMap
          Search.visits =
      [[mkLit 0 false, mkLit 2 false, mkLit 3 true], [mkLit 0 false, mkLit 2 true, mkLit 3 false],
        [mkLit 1 false, mkLit 2 false, mkLit 3 true],
        [mkLit 1 false, mkLit 2 true, mkLit 3 false]] := by
  obtain ⟨-, -, -, hvisits, hparts⟩ := cartesianSearch_enumerates
    [[[mkLit 0 false], [mkLit 1 false]], [[]],
      [[mkLit 2 false, mkLit 3 true], [mkLit 2 true, mkLit 3 false]]]
    (by unfold Uniform; decide) (by decide) 3 (by decide)
  rw [hparts, hvisits]
  decide +kernel

end Parsat
