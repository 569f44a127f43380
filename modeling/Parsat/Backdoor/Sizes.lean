import Parsat.Backdoor.Coverage
import Parsat.Search.Split

/-!
# Backdoor — the sizes of the searches

A search stores how many positions it has.  `FullSearch` computes `2 ^ n` with a 64-bit shift, and
`CartesianSearch` multiplies the sizes of its lists in 32 bits.  Both numbers wrap: a `FullSearch`
of 64 variables, and a `CartesianSearch` of two lists of 65536 assignments, take a single step.

`Instance::_calc_fitness` asks for at most `MAX_VARS_FOR_FULL_SEARCH` variables before it builds a
`FullSearch`, `OneRBSearch::find_rb` does not.  `_prepare_cartesian` keeps its product below
`max_cartesian_size`, in 64 bits, so the 32 bits of the search are enough for what it chooses.

* `fullSearch_size_iff`, `cartesianSearch_size_iff`: when the sizes are right.
* `Greedy`: what `_prepare_cartesian` is to choose, over unbounded numbers.
* `prepareCartesian_greedy`: what it does choose.
-/

namespace Parsat

/-! ### FullSearch -/

/-- The variables of a mask. -/
def maskedVars (view : List ℕ) (mask : List Bool) : List ℕ :=
  ((view.zip mask).filter Prod.snd).map Prod.fst

theorem length_maskedVars {view : List ℕ} {mask : List Bool} (h : mask.length = view.length) :
    (maskedVars view mask).length = mask.count true := by
  have hsnd : (view.zip mask).map Prod.snd = mask := List.map_snd_zip (by omega)
  rw [maskedVars, List.length_map, ← List.countP_eq_length_filter]
  nth_rewrite 2 [← hsnd]
  rw [List.count, List.countP_map]
  congr 1
  funext x
  simp

/-- The constructor with a mask makes the search over the variables of the mask. -/
theorem fullSearchMask_eq {view : List ℕ} {mask : List Bool} (h : mask.length = view.length) :
    fullSearchMask view mask = fullSearch (maskedVars view mask) := by
  rw [fullSearch, length_maskedVars h]
  simp only [fullSearchMask, totalSize, maskedVars, List.map_map]
  rfl

/-- The search goes through every sign vector of `n` variables. -/
def Search.Exhausts (s : Search) (n : ℕ) : Prop :=
  ∀ σ : List Bool, σ.length = n → σ ∈ s.visits.map (List.map Lit.sign)

/-- A fresh full search visits the encoded numbers up to its size, however many variables it has. -/
theorem visits_fullSearch_total (vars : List ℕ) : (fullSearch vars).visits =
    (List.range (fullSearch vars).total).map (signAssignment vars) := by
  have hpos : (fullSearch vars).Pos 0 := (Search.Created.full vars).pos
  rw [hpos.visits (Nat.two_pow_pos _), List.range_eq_range']
  refine List.map_congr_left ?_
  intro k _
  exact encode_map_mkLit vars k

theorem fullSearch_total_eq_iff (vars : List ℕ) :
    (fullSearch vars).total = 2 ^ vars.length ↔ vars.length ≤ 63 := by
  constructor
  · intro h
    have := Nat.pow_right_injective (le_refl 2) h
    omega
  · intro hn
    have hmod : vars.length % 64 = vars.length := Nat.mod_eq_of_lt (by omega)
    simp [fullSearch, hmod]

theorem fullSearch_exhausts_iff (vars : List ℕ) :
    (fullSearch vars).Exhausts vars.length ↔ vars.length ≤ 63 := by
  constructor
  · intro h
    by_contra hn
    -- all positions are below `2 ^ 63`, so no literal 63 is ever negative
    have hmem := h (List.replicate vars.length true) (by simp)
    rw [visits_fullSearch_total, List.map_map, List.mem_map] at hmem
    obtain ⟨k, hk, he⟩ := hmem
    have hlt : k < 2 ^ 63 := by
      have hk := List.mem_range.mp hk
      have hpow : 2 ^ (vars.length % 64) ≤ 2 ^ 63 := Nat.pow_le_pow_right (by decide) (by omega)
      exact hk.trans_le hpow
    have hget := congrArg (·[63]?) he
    have h63 : 63 < vars.length := by omega
    simp [map_sign_signAssignment, bits, h63, Nat.testBit_lt_two_pow hlt] at hget
  · intro hn σ hσ
    have := (fullSearch_enumerates vars hn 1 le_rfl).2.1 σ hσ
    exact List.count_pos_iff.mp (by omega)

/-- **The size of a `FullSearch`** is right, and the search complete, for at most 63 variables only:
with either constructor, and for the search `OneRBSearch::find_rb` returns. -/
theorem fullSearch_size_iff (vars : List ℕ) :
    (((fullSearch vars).total = 2 ^ vars.length ↔ vars.length ≤ 63) ∧
      ((fullSearch vars).Exhausts vars.length ↔ vars.length ≤ 63)) ∧
    (∀ (view : List ℕ) (mask : List Bool), mask.length = view.length →
      ((fullSearchMask view mask).total = 2 ^ mask.count true ↔ mask.count true ≤ 63) ∧
      ((fullSearchMask view mask).Exhausts (mask.count true) ↔ mask.count true ≤ 63)) ∧
    ∀ (R : RProp) (interrupted : Bool) (base : LitVec) (rb : Instance R) (search : Search),
      OneRBSearch.findRb interrupted base rb = .search search →
      let vars := filterVars rb.vars (getVars base)
      (search.total = 2 ^ vars.length ↔ vars.length ≤ 63) ∧
        (search.Exhausts vars.length ↔ vars.length ≤ 63) := by
  refine ⟨⟨fullSearch_total_eq_iff vars, fullSearch_exhausts_iff vars⟩, ?_, ?_⟩
  · intro view mask h
    rw [fullSearchMask_eq h, ← length_maskedVars h]
    exact ⟨fullSearch_total_eq_iff _, fullSearch_exhausts_iff _⟩
  · intro R interrupted base rb search h
    unfold OneRBSearch.findRb at h
    split at h
    · cases h
    · split at h <;> cases h
      exact ⟨fullSearch_total_eq_iff _, fullSearch_exhausts_iff _⟩

/-- The search over 64 variables has one position. -/
theorem fullSearch_size_wraps : (fullSearch (List.range 64)).total = 1 ∧
    (fullSearch (List.range 64)).total ≠ 2 ^ (List.range 64).length ∧
    ¬ (fullSearch (List.range 64)).Exhausts (List.range 64).length := by
  refine ⟨rfl, ?_, ?_⟩
  · rw [Ne, fullSearch_total_eq_iff]
    decide
  · rw [fullSearch_exhausts_iff]
    decide

/-! ### CartesianSearch -/

section Cartesian

variable {set : CartesianSet}

theorem cartesianSearch_total_eq_iff (set : CartesianSet) :
    (cartesianSearch set).total = (set.map List.length).prod ↔
      (set.map List.length).prod < 2 ^ 32 := by
  rw [cartesianSearch_total, Nat.mod_eq_iff_lt (Nat.two_pow_pos 32).ne']

/-- A run has at most `2 ^ 32` steps. -/
theorem Uniform.length_visits_lt (hu : Uniform set) :
    (cartesianSearch set).visits.length < 2 ^ 32 := by
  have hlt : (cartesianSearch set).total < 2 ^ 32 := by
    rw [cartesianSearch_total]
    exact Nat.mod_lt _ (Nat.two_pow_pos 32)
  have hdone : (cartesianSearch set).done = 0 := rfl
  rcases Nat.eq_zero_or_pos (cartesianSearch set).total with h₀ | hpos
  · simp [Search.visits, h₀, Search.visitsFor]
  · rw [hu.pos_start.visits (by rwa [hdone]), List.length_map, List.length_range', hdone]
    exact hlt

/-- **The size of a `CartesianSearch`** is right, and its run visits every combination, if there are
fewer than `2 ^ 32` of them only. -/
theorem cartesianSearch_size_iff (set : CartesianSet) :
    ((cartesianSearch set).total = (set.map List.length).prod ↔
      (set.map List.length).prod < 2 ^ 32) ∧
    (Uniform set → ((cartesianSearch set).visits =
        (Odometer.tuples (set.map List.length)).map (tupleAssignment set) ↔
      (set.map List.length).prod < 2 ^ 32)) := by
  refine ⟨cartesianSearch_total_eq_iff set, ?_⟩
  intro hu
  constructor
  · intro h
    have hlt := hu.length_visits_lt
    rwa [h, List.length_map, Odometer.length_tuples] at hlt
  · intro hlt
    exact (cartesianSearch_enumerates set hu hlt 1 le_rfl).2.2.2.1

/-- All signs of 16 variables from `start` on. -/
def signsFrom (start : ℕ) : List LitVec := (fullSearch (List.range' start 16)).visits

/-- The product of the assignments of 16 variables with those of 16 others has the size zero, and a
run of one step. -/
theorem cartesianSearch_size_wraps :
    (∀ l ∈ [signsFrom 0, signsFrom 16], l ≠ []) ∧
    (cartesianSearch [signsFrom 0, signsFrom 16]).total = 0 ∧
    (cartesianSearch [signsFrom 0, signsFrom 16]).visits.length = 1 ∧
    ([signsFrom 0, signsFrom 16].map List.length).prod = 2 ^ 32 := by
  have hlen : ∀ start, (signsFrom start).length = 2 ^ 16 := by
    intro start
    rw [signsFrom, visits_fullSearch (by simp), List.length_map, List.length_range,
      List.length_range']
  have hprod : ([signsFrom 0, signsFrom 16].map List.length).prod = 2 ^ 32 := by
    simp only [List.map_cons, List.map_nil, List.prod_cons, List.prod_nil, hlen]
    norm_num
  have htotal : (cartesianSearch [signsFrom 0, signsFrom 16]).total = 0 := by
    rw [cartesianSearch_total, hprod, Nat.mod_self]
  refine ⟨?_, htotal, ?_, hprod⟩
  · intro l hl
    have : l.length = 2 ^ 16 := by
      rcases List.mem_cons.mp hl with rfl | hl
      · exact hlen 0
      · rw [List.mem_singleton.mp hl, hlen]
    exact List.ne_nil_of_length_pos (by omega)
  · simp [Search.visits, htotal, Search.visitsFor]

end Cartesian

/-! ### The greedy choice -/

/-- The lists chosen from `set` in order, when those chosen before have the product `size`: a list
of more than `maxUnpropagated` entries is skipped, and so is one that would make the product larger
than `maxSize`. -/
inductive Greedy (maxUnpropagated maxSize : ℕ) : ℕ → CartesianSet → CartesianSet → Prop
  | nil (size : ℕ) : Greedy maxUnpropagated maxSize size [] []
  | large {size : ℕ} {l : List LitVec} {set chosen : CartesianSet} :
      maxUnpropagated < l.length → Greedy maxUnpropagated maxSize size set chosen →
      Greedy maxUnpropagated maxSize size (l :: set) chosen
  | exceeds {size : ℕ} {l : List LitVec} {set chosen : CartesianSet} :
      l.length ≤ maxUnpropagated → maxSize < size * l.length →
      Greedy maxUnpropagated maxSize size set chosen →
      Greedy maxUnpropagated maxSize size (l :: set) chosen
  | take {size : ℕ} {l : List LitVec} {set chosen : CartesianSet} :
      l.length ≤ maxUnpropagated → size * l.length ≤ maxSize →
      Greedy maxUnpropagated maxSize (size * l.length) set chosen →
      Greedy maxUnpropagated maxSize size (l :: set) (l :: chosen)

namespace Greedy

variable {maxUnpropagated maxSize size : ℕ} {set chosen : CartesianSet}

theorem sublist (h : Greedy maxUnpropagated maxSize size set chosen) : chosen.Sublist set := by
  induction h with
  | nil => exact .slnil
  | large _ _ ih | exceeds _ _ _ ih => exact ih.cons _
  | take _ _ _ ih => exact ih.cons_cons _

theorem length_le (h : Greedy maxUnpropagated maxSize size set chosen) :
    ∀ l ∈ chosen, l.length ≤ maxUnpropagated := by
  induction h with
  | nil => simp
  | large _ _ ih | exceeds _ _ _ ih => exact ih
  | take hl _ _ ih => exact List.forall_mem_cons.mpr ⟨hl, ih⟩

/-- The product stays below the limit, once a list is taken. -/
theorem prod_le (h : Greedy maxUnpropagated maxSize size set chosen) :
    size * (chosen.map List.length).prod ≤ max size maxSize := by
  induction h with
  | nil => simp
  | large _ _ ih | exceeds _ _ _ ih => exact ih
  | take _ hle _ ih =>
      rw [List.map_cons, List.prod_cons, ← Nat.mul_assoc]
      omega

end Greedy

/-- **The loop of `_prepare_cartesian`** computes the greedy choice: none of its products wraps. -/
theorem greedy_takeSets {cfg : CartesianRBSearchConfig} {set : CartesianSet} {size : ℕ}
    (hsize : size < 2 ^ 32) (h : ∀ l ∈ set, l.length < 2 ^ 32) :
    Greedy cfg.maxUnpropagated.toNat cfg.maxCartesianSize.toNat size set
      (takeSets cfg size set) := by
  induction set generalizing size with
  | nil => exact .nil size
  | cons l set ih =>
      obtain ⟨hl, hset⟩ := List.forall_mem_cons.mp h
      have hmod : l.length % 2 ^ 32 = l.length := Nat.mod_eq_of_lt hl
      have hmul : size * l.length < 2 ^ 64 := by
        calc size * l.length < 2 ^ 32 * 2 ^ 32 := Nat.mul_lt_mul'' hsize hl
          _ = 2 ^ 64 := by norm_num
      have hmul' : l.length * size % 2 ^ 64 = size * l.length := by
        rw [Nat.mul_comm, Nat.mod_eq_of_lt hmul]
      have hmax := cfg.maxCartesianSize.toNat_lt
      -- the factors have 32 bits, so the product fits in 64
      simp only [takeSets, hmod, hmul', Nat.mod_eq_of_lt hmul]
      split
      · rename_i hlarge
        exact .large hlarge (ih hsize hset)
      · rename_i hlarge
        split
        · rename_i hexceeds
          exact .exceeds (by omega) hexceeds (ih hsize hset)
        · rename_i hexceeds
          exact .take (by omega) (by omega) (ih (by omega) hset)

theorem minElement_le {set : CartesianSet} : ∀ l ∈ set, (minElement set).length ≤ l.length := by
  cases set with
  | nil => simp
  | cons l set => exact (minElement_cons_spec l set).2

/-- **`_prepare_cartesian`** returns the search over the smallest list, if that has more than
`max_unpropagated` entries, and over the greedy choice otherwise; its size is the product of the
sizes of the chosen lists. -/
theorem prepareCartesian_greedy (cfg : CartesianRBSearchConfig) (set : CartesianSet)
    (hne : set ≠ []) (hset : ∀ l ∈ set, l ≠ [] ∧ l.length < 2 ^ 32) :
    let maxUnpropagated := cfg.maxUnpropagated.toNat
    let maxSize := cfg.maxCartesianSize.toNat
    let smallest := minElement set
    let chosen := selectSets cfg set
    let search := prepareCartesian cfg set
    search = cartesianSearch chosen ∧
    search.total = (chosen.map List.length).prod ∧
    (smallest ∈ set ∧ ∀ l ∈ set, smallest.length ≤ l.length) ∧
    (maxUnpropagated < smallest.length → chosen = [smallest]) ∧
    (smallest.length ≤ maxUnpropagated →
      chosen.Sublist set ∧ (∀ l ∈ chosen, l.length ≤ maxUnpropagated) ∧
      (chosen.map List.length).prod ≤ max 1 maxSize ∧
      Greedy maxUnpropagated maxSize 1 set chosen) ∧
    (chosen = [] → search.visits = [[]]) := by
  intro maxUnpropagated maxSize smallest chosen search
  have hgreedy : smallest.length ≤ maxUnpropagated →
      Greedy maxUnpropagated maxSize 1 set chosen := by
    intro hle
    have hsel : chosen = takeSets cfg 1 set := by
      simp only [chosen, selectSets]
      rw [if_neg (not_lt.mpr hle)]
    rw [hsel]
    exact greedy_takeSets (by norm_num) fun l hl => (hset l hl).2
  have hmem : smallest ∈ set := minElement_mem hne
  have hprod : (chosen.map List.length).prod < 2 ^ 32 :=
    selectSets_prod_lt fun l hl => (hset l (mem_of_mem_selectSets hl)).2
  refine ⟨rfl, (cartesianSearch_total_eq_iff chosen).mpr hprod, ⟨hmem, minElement_le⟩, ?_, ?_, ?_⟩
  · intro hlt
    simp only [chosen, selectSets]
    rw [if_pos hlt]
  · intro hle
    have h := hgreedy hle
    refine ⟨h.sublist, h.length_le, ?_, h⟩
    simpa using h.prod_le
  · intro hnil
    have : search = cartesianSearch [] := congrArg cartesianSearch hnil
    rw [this]
    rfl

/-- Lists of two, three and two entries with limits three and four: the second one is skipped, and
the search has four positions. -/
theorem prepareCartesian_greedy_three :
    let l := (fullSearch [0]).visits
    let l' := (fullSearch [1, 2]).visits.take 3
    (prepareCartesian ⟨3, 3, 4⟩ [l, l', l]).total =
      ((selectSets ⟨3, 3, 4⟩ [l, l', l]).map List.length).prod ∧
    (selectSets ⟨3, 3, 4⟩ [l, l', l]).map List.length = [2, 2] := by
  intro l l'
  exact ⟨(prepareCartesian_greedy ⟨3, 3, 4⟩ [l, l', l] (by decide) (by decide +kernel)).2.1,
    by decide +kernel⟩

end Parsat
