import Parsat.Search.Enumeration

/-!
# Search — splitting a part

`split_search` gives the clone the interval of the counter that is its share, and `_reset` moves it
there.  The interval counts from the beginning of the search that is split, but `_reset` takes it to
count from the very first position: where a search that is itself a part does not begin there, its
own offset is forgotten, and its parts go through the positions before it.

A second, smaller trap is in `_set_assignment`.  The shift `1ULL << i` takes its distance modulo 64,
so a reset `FullSearch` with more variables has the bits of its position once more in the literals
from the 64th on, where stepping never brings them.

* `splits_cases`: a search that `split_search` has made, in any number of calls, is the first one
  reset to an interval, or empty.
* `splitSearch_composes_iff`: when the parts of such a search enumerate what it enumerates.
-/

namespace Parsat

namespace Search

/-- A search as the constructors of `FullSearch` and `CartesianSearch` leave it. -/
inductive Created : Search → Prop
  | full (vars : List ℕ) : Created (fullSearch vars)
  | cartesian {set : CartesianSet} : Uniform set → Created (cartesianSearch set)

/-- The result of a sequence of calls `split_search(num_split, index)`. -/
def splits (s : Search) (calls : List (ℕ × ℕ)) : Search :=
  calls.foldl (fun s c => s.splitSearch c.1 c.2) s

/-- What a search enumerates; an empty one is not run. -/
def enumerated (s : Search) : List LitVec := if s.isEmpty then [] else s.visits

/-- The parts of a search together enumerate what it enumerates, each assignment as often. -/
def Composes (s : Search) (numSplit : ℕ) : Prop :=
  ((s.parts numSplit).flatMap visits).Perm s.enumerated

/-- No list of a cartesian search has an assignment twice. -/
def Distinct (s : Search) : Prop :=
  ∀ set is, s.kind = .cartesian set is → ∀ l ∈ set, l.Nodup

/-- The search, reset to the interval of `total` positions from `first` on. -/
def placed (s : Search) (first total : ℕ) : Search :=
  reset { s with first := first, done := 0, total := total }

variable {s : Search} {n i f T : ℕ}

@[simp] theorem placed_total (s : Search) (f T : ℕ) : (s.placed f T).total = T := reset_total _

@[simp] theorem placed_done (s : Search) (f T : ℕ) : (s.placed f T).done = 0 := reset_done _

theorem Created.pos (h : s.Created) : s.Pos 0 := by
  cases h with
  | full vars =>
      refine ⟨?_, fun _ _ h => by cases h⟩
      simp [fullSearch, entry, encode_map_zero]
  | cartesian hu => exact hu.pos_start

theorem setAssignment_setAssignment (vec : LitVec) (j k : ℕ) :
    setAssignment (setAssignment vec j) k = setAssignment vec k := by
  simp [setAssignment, mkLit, Function.comp_def]

theorem setAssignment_map_zero (vars : List ℕ) :
    setAssignment (vars.map fun v => mkLit v false) 0 = vars.map fun v => mkLit v false := by
  simp [setAssignment, mkLit, List.ext_getElem_iff]

/-- A created search is reset to all of its positions. -/
theorem Created.placed_zero (h : s.Created) : s.placed 0 s.total = s := by
  cases h with
  | full vars => simp only [placed, reset, fullSearch, setAssignment_map_zero]
  | @cartesian set hu =>
      have hpos := hu.pos_start
      have hi := (hpos.indices_eq set _ rfl).2
      have ha : (cartesianSearch set).assignment = cartesianEntry set 0 := hpos.assignment_eq
      have hcur := hu.setCur_zero 0 (hu.chosen_lengths (hu.digits_lt 0))
      simp only [placed, reset, cartesianSearch] at ha hi ⊢
      rw [ha, ← hi]
      simp only [cartesianEntry, ← hi] at hcur ⊢
      rw [hcur]

/-- **Splitting a reset search** resets it again; where it was before does not matter. -/
theorem Created.splitSearch_placed (h : s.Created) (f : ℕ)
    (hlt : (getStartAndTodo T n i).1 < T) :
    (s.placed f T).splitSearch n i =
      s.placed (getStartAndTodo T n i).1 (getStartAndTodo T n i).2 := by
  simp only [splitSearch, placed_total, if_pos hlt]
  cases h with
  | full vars =>
      simp only [placed, reset, clone, fullSearch, setAssignment_setAssignment]
  | cartesian hu => rfl

/-! ### The result of any number of calls -/

/-- Only the first part starts at zero. -/
theorem getStartAndTodo_eq_zero_iff (hi : i < n) (hlt : (getStartAndTodo T n i).1 < T) :
    (getStartAndTodo T n i).1 = 0 ↔ i = 0 := by
  constructor
  · intro h
    by_contra hne
    have h₀ := getStartAndTodo_zero T n
    have htodo : 0 < (getStartAndTodo T n 0).2 :=
      getStartAndTodo_pos_of_lt (by omega) (by omega)
    have hsucc := getStartAndTodo_succ T n 0
    have hmono := getStartAndTodo_mono T n (i := 0 + 1) (j := i) (by omega)
    omega
  · rintro rfl
    exact getStartAndTodo_zero T n

/-- A split search is empty, or the first search reset to an interval inside it, which begins at
zero if the last call had the index zero. -/
theorem splits_cases (h : s.Created) {calls : List (ℕ × ℕ)} (hc : ∀ c ∈ calls, c.2 < c.1) :
    (s.splits calls).total = 0 ∨ ∃ f T, s.splits calls = s.placed f T ∧ 0 < T ∧ f + T ≤ s.total ∧
      (f = 0 ↔ ∀ c ∈ calls.getLast?, c.2 = 0) := by
  induction calls using List.reverseRecOn with
  | nil =>
      rcases Nat.eq_zero_or_pos s.total with ht | ht
      · exact .inl ht
      · exact .inr ⟨0, s.total, h.placed_zero.symm, ht, by omega, by simp⟩
  | append_singleton calls c ih =>
      have hlast : (s.splits (calls ++ [c])) = (s.splits calls).splitSearch c.1 c.2 := by
        simp [splits]
      have hci : c.2 < c.1 := hc c (by simp)
      rw [hlast]
      rcases ih fun c' hc' => hc c' (List.mem_append_left _ hc') with h₀ | ⟨f, T, hs, hT, hle, -⟩
      · exact .inl (by simp [splitSearch_total, h₀])
      rw [hs]
      by_cases hlt : (getStartAndTodo T c.1 c.2).1 < T
      · -- the offset is forgotten: the part begins where its own interval does
        have hadd := getStartAndTodo_add_le T hci
        refine .inr ⟨_, _, h.splitSearch_placed f hlt, getStartAndTodo_pos_of_lt hci hlt, by omega,
          ?_⟩
        rw [getStartAndTodo_eq_zero_iff hci hlt]
        simp
      · exact .inl (by simp [splitSearch_total, hlt])

/-- The parts of a reset search go through the intervals of its parts. -/
theorem Created.flatMap_visits_parts (h : s.Created) (f T n : ℕ) :
    ((s.placed f T).parts n).flatMap visits = (List.range n).flatMap fun i =>
      if (getStartAndTodo T n i).1 < T then
        (s.placed (getStartAndTodo T n i).1 (getStartAndTodo T n i).2).visits
      else [] := by
  rw [flatMap_visits_parts_eq, List.flatMap_def, List.flatMap_def]
  refine congrArg _ (List.map_congr_left ?_)
  intro i hi
  simp only [isEmpty, splitSearch_total, placed_total]
  by_cases hlt : (getStartAndTodo T n i).1 < T
  · have hpos := getStartAndTodo_pos_of_lt (List.mem_range.mp hi) hlt
    rw [if_pos hlt, if_pos hlt, if_neg (by simpa using hpos.ne'), h.splitSearch_placed f hlt]
  · simp [hlt]

/-! ### What a reset search visits -/

theorem visits_placed (h : s.Created) (hn : s.Narrow) (f : ℕ) (hT : 0 < T) :
    (s.placed f T).visits = (List.range' f T).map s.entry := by
  obtain ⟨hp, he⟩ := h.pos.reset hn f T
  have := Pos.visits hp (by simpa [reset_total, reset_done] using hT)
  rwa [he, reset_total, reset_done] at this

/-- The parts of a narrow search go through all of its positions from zero on. -/
theorem flatMap_visits_parts_narrow (h : s.Created) (hn : s.Narrow) (f : ℕ) (hsplit : 0 < n) :
    ((s.placed f T).parts n).flatMap visits = (List.range T).map s.entry := by
  rw [h.flatMap_visits_parts, ← flatMap_intervals T hsplit, List.flatMap_def, List.flatMap_def]
  refine congrArg _ (List.map_congr_left ?_)
  intro i hi
  have hi := List.mem_range.mp hi
  split
  · rename_i hlt
    exact visits_placed h hn _ (getStartAndTodo_pos_of_lt hi hlt)
  · have := getStartAndTodo_add_le T hi
    have htodo : (getStartAndTodo T n i).2 = 0 := by omega
    rw [htodo]
    rfl

/-! ### Different positions have different assignments -/

theorem fullSearch_entry_inj {vars : List ℕ} (hn : vars.length ≤ 63) {j k : ℕ}
    (hj : j < (fullSearch vars).total) (hk : k < (fullSearch vars).total)
    (h : (fullSearch vars).entry j = (fullSearch vars).entry k) : j = k := by
  have hmod : vars.length % 64 = vars.length := Nat.mod_eq_of_lt (by omega)
  simp only [fullSearch, hmod] at hj hk
  simp only [entry, fullSearch, encode_map_mkLit] at h
  have hbits := congrArg (List.map Lit.sign) h
  rw [map_sign_signAssignment, map_sign_signAssignment] at hbits
  exact bits_inj hj hk hbits

/-- Indices inside lists without duplicates are determined by the vectors they choose. -/
theorem chosen_inj {set : CartesianSet} {is js : List ℕ} (hd : ∀ l ∈ set, l.Nodup)
    (hi : List.Forall₂ (· < ·) is (set.map List.length))
    (hj : List.Forall₂ (· < ·) js (set.map List.length)) (h : chosen set is = chosen set js) :
    is = js := by
  induction set generalizing is js with
  | nil =>
      cases hi
      cases hj
      rfl
  | cons l set ih =>
      cases hi with
      | @cons i _ is _ hi his =>
          cases hj with
          | @cons j _ js _ hj hjs =>
              obtain ⟨hl, hd⟩ := List.forall_mem_cons.mp hd
              simp only [chosen, List.zipWith_cons_cons, List.cons.injEq] at h
              rw [List.getD_eq_getElem _ _ hi, List.getD_eq_getElem _ _ hj,
                hl.getElem_inj_iff] at h
              rw [h.1, ih hd his hjs h.2]

theorem cartesianSearch_entry_inj {set : CartesianSet} (hu : Uniform set)
    (hd : ∀ l ∈ set, l.Nodup) {j k : ℕ} (hj : j < (cartesianSearch set).total)
    (hk : k < (cartesianSearch set).total)
    (h : (cartesianSearch set).entry j = (cartesianSearch set).entry k) : j = k := by
  have hle : (cartesianSearch set).total ≤ (radices set).prod := by
    rw [cartesianSearch_total, radices, List.prod_reverse]
    exact Nat.mod_le _ _
  have hlen := (hu.chosen_lengths (hu.digits_lt j)).trans (hu.chosen_lengths (hu.digits_lt k)).symm
  have hchosen := List.eq_iff_flatten_eq.mpr ⟨h, hlen⟩
  have hdigits := List.reverse_injective
    (chosen_inj hd (hu.digits_lt j) (hu.digits_lt k) hchosen)
  exact Odometer.digits_inj (by omega) (by omega) hdigits

theorem Created.entry_inj (h : s.Created) (hn : s.Narrow) (hd : s.Distinct) {j k : ℕ}
    (hj : j < s.total) (hk : k < s.total) (he : s.entry j = s.entry k) : j = k := by
  cases h with
  | full vars => exact fullSearch_entry_inj (by simpa [fullSearch] using hn rfl) hj hk he
  | cartesian hu => exact cartesianSearch_entry_inj hu (hd _ _ rfl) hj hk he

/-! ### More variables than bits -/

/-- A step that does not carry beyond `a` leaves the literals behind it alone. -/
theorem nextAssignment_append {a : LitVec} {k : ℕ} (b : LitVec) (h : k + 1 < 2 ^ a.length) :
    nextAssignment (encode a k ++ b) = encode a (k + 1) ++ b := by
  induction a generalizing k with
  | nil => simp at h
  | cons p ps ih =>
      rw [List.length_cons, Nat.pow_succ] at h
      simp only [encode_cons, Nat.testBit_zero, List.cons_append, nextAssignment, mkLit,
        decide_eq_true_eq]
      by_cases hk : k % 2 = 1
      · have h₁ : (k + 1) / 2 = k / 2 + 1 := by omega
        have h₂ : (k + 1) % 2 ≠ 1 := by omega
        rw [if_pos hk, ih (by omega), h₁]
        simp only [hk, h₂]
        rfl
      · have h₁ : (k + 1) / 2 = k / 2 := by omega
        have h₂ : (k + 1) % 2 = 1 := by omega
        simp [hk, h₁, h₂]

/-- So do all steps of a run that stays inside the bits of `a`. -/
theorem drop_of_mem_visitsFor {a b x : LitVec} {k : ℕ} (hkind : s.kind = .full)
    (ha : s.assignment = encode a k ++ b) (hlt : s.done < s.total)
    (hk : k + (s.total - s.done) ≤ 2 ^ a.length) (hx : x ∈ s.visitsFor n) :
    x.drop a.length = b := by
  have hdrop : s.assignment.drop a.length = b := by
    rw [ha, ← length_encode a k, List.drop_left]
  induction n generalizing s k with
  | zero =>
      obtain rfl := List.mem_singleton.mp hx
      exact hdrop
  | succ n ih =>
      rcases List.mem_cons.mp hx with rfl | hx
      · exact hdrop
      simp only [next] at hx
      split at hx
      · cases hx
      · rename_i t ht
        split at ht <;> cases ht
        rename_i hl
        have hadv : s.advance.assignment = encode a (k + 1) ++ b := by
          simp only [advance, hkind, ha]
          exact nextAssignment_append b (by omega)
        have hfull : s.advance.kind = .full := by simp [advance, hkind]
        refine ih (s := { s.advance with done := s.done + 1 }) hfull hadv ?_ ?_ hx ?_
        · simp only [advance_total]
          omega
        · simp only [advance_total]
          omega
        · rw [hadv, ← length_encode a (k + 1), List.drop_left]

section Wide

variable {vars : List ℕ}

theorem take_setAssignment (vec : LitVec) (k : ℕ) :
    (setAssignment vec k).take 64 = encode (vec.take 64) k := by
  refine List.ext_getElem (by simp [setAssignment, encode]) ?_
  intro i hi _
  have hi' : i < 64 := by
    rw [List.length_take] at hi
    omega
  simp [setAssignment, encode, Nat.mod_eq_of_lt hi']

/-- The literals from the 64th on determine the position a wide search was reset to. -/
theorem drop_setAssignment_inj {m j k : ℕ} {vec : LitVec} (hm : m ≤ 64) (hlen : m + 64 ≤ vec.length)
    (hj : j < 2 ^ m) (hk : k < 2 ^ m)
    (h : (setAssignment vec j).drop 64 = (setAssignment vec k).drop 64) : j = k := by
  refine Nat.eq_of_testBit_eq ?_
  intro i
  by_cases hi : i < m
  · have hget := congrArg (fun l => (l[i]?).map Lit.sign) h
    have hi' : 64 + i < vec.length := by omega
    have hmod : i % 64 = i := Nat.mod_eq_of_lt (by omega)
    simpa [setAssignment, hi', hmod, mkLit] using hget
  · have hle : 2 ^ m ≤ 2 ^ i := Nat.pow_le_pow_right (by decide) (by omega)
    rw [Nat.testBit_lt_two_pow (by omega), Nat.testBit_lt_two_pow (by omega)]

/-- A wide search that visits an assignment some reset has made was itself reset to it. -/
theorem eq_of_mem_visits_wide (hn : 64 ≤ vars.length) {c : ℕ} (hT : 0 < T)
    (hle : f + T ≤ (fullSearch vars).total) (hc : c < (fullSearch vars).total)
    (h : setAssignment (vars.map fun v => mkLit v false) c ∈
      ((fullSearch vars).placed f T).visits) : c = f := by
  set vec := vars.map fun v => mkLit v false with hvec
  have hlen : vec.length = vars.length := List.length_map ..
  have htake : (vec.take 64).length = 64 := by
    rw [List.length_take]
    omega
  have htotal : (fullSearch vars).total = 2 ^ (vars.length % 64) := rfl
  have hpow : 2 ^ (vars.length % 64) ≤ 2 ^ 64 := Nat.pow_le_pow_right (by decide) (by omega)
  have hasg : ((fullSearch vars).placed f T).assignment =
      encode (vec.take 64) f ++ (setAssignment vec f).drop 64 := by
    rw [← take_setAssignment, List.take_append_drop]
    rfl
  -- a run changes the first 64 literals only, so the others say where it was reset to
  have hdrop := drop_of_mem_visitsFor (s := (fullSearch vars).placed f T) rfl hasg
    (by simpa using hT) (by rw [placed_total, placed_done, htake]; omega) h
  rw [htake] at hdrop
  exact drop_setAssignment_inj (m := vars.length % 64) (by omega) (by omega) (by omega) (by omega)
    hdrop

end Wide

/-! ### When splitting composes -/

/-- The first assignment of a part is visited by the search only if that begins no later, and for a
wide search only if it begins there. -/
theorem Created.le_of_mem_visits (h : s.Created) (hd : s.Distinct) {c T' : ℕ} (hT : 0 < T)
    (hle : f + T ≤ s.total) (hc : c < s.total)
    (hmem : (s.placed c T').assignment ∈ (s.placed f T).visits) :
    f ≤ c ∧ (¬ s.Narrow → c = f) := by
  by_cases hn : s.Narrow
  · obtain ⟨hp, he⟩ := h.pos.reset hn c T'
    have ha : (s.placed c T').assignment = s.entry c := by
      rw [← he]
      exact hp.assignment_eq
    rw [ha, visits_placed h hn f hT] at hmem
    obtain ⟨k, hk, hke⟩ := List.mem_map.mp hmem
    have hk := List.mem_range'_1.mp hk
    have := h.entry_inj hn hd (by omega) hc hke
    exact ⟨by omega, fun h => absurd hn h⟩
  · cases h with
    | cartesian hu => exact absurd (fun hk => by cases hk) hn
    | full vars =>
        have hlen : 64 ≤ vars.length := by
          by_contra hlt
          exact hn fun _ => by simpa [fullSearch] using (by omega : vars.length ≤ 63)
        have := eq_of_mem_visits_wide hlen hT hle hc hmem
        exact ⟨this.ge, fun _ => this⟩

/-- The last of the calls, if there is one, had the index zero, or left nothing; and a wide search
is not moved at all. -/
def Splittable (s : Search) (calls : List (ℕ × ℕ)) (numSplit : ℕ) : Prop :=
  (s.splits calls).isEmpty = true ∨
    (∀ c ∈ calls.getLast?, c.2 = 0) ∧
      (s.Narrow ∨ (s.splits calls).total = 1 ∨ numSplit = 1)

/-- If only the first part of a search that begins at zero has positions, it is the search. -/
theorem Created.flatMap_visits_parts_single (h : s.Created) (hn : 0 < n) (hT : 0 < T)
    (hone : T = 1 ∨ n = 1) :
    ((s.placed 0 T).parts n).flatMap visits = (s.placed 0 T).visits := by
  have h₀ := getStartAndTodo_zero T n
  have h₁ := getStartAndTodo_succ T n 0
  have htodo : 0 < (getStartAndTodo T n 0).2 := getStartAndTodo_pos_of_lt hn (by omega)
  have hlast := getStartAndTodo_last T hn
  -- every other part begins at the end, so it is empty
  have hle : ∀ i, 0 < i → i ≤ n → T ≤ (getStartAndTodo T n i).1 := by
    intro i hi hin
    have hmono := getStartAndTodo_mono T n (i := 0 + 1) (j := i) hi
    rcases hone with rfl | rfl
    · omega
    · obtain rfl : i = 1 := by omega
      omega
  have hend := getStartAndTodo_add_le T hn
  have hall : (getStartAndTodo T n 0).2 = T := by
    have := hle 1 Nat.one_pos hn
    rw [show (1 : ℕ) = 0 + 1 from rfl, h₁] at this
    omega
  obtain ⟨m, rfl⟩ : ∃ m, n = m + 1 := ⟨n - 1, by omega⟩
  rw [h.flatMap_visits_parts, List.range_succ_eq_map, List.flatMap_cons, if_pos (by omega), h₀,
    hall, List.flatMap_map]
  have hrest : ∀ i ∈ List.range m, (if (getStartAndTodo T (m + 1) i.succ).1 < T then
      (s.placed (getStartAndTodo T (m + 1) i.succ).1 (getStartAndTodo T (m + 1) i.succ).2).visits
        else []) = [] := by
    intro i hi
    have := hle i.succ i.succ_pos (Nat.succ_le_succ (List.mem_range.mp hi).le)
    rw [if_neg (by omega)]
  rw [List.flatMap_eq_nil_iff.mpr hrest, List.append_nil]

/-- The first assignment of a non-empty part is among what the parts visit. -/
theorem Created.mem_visits_parts (h : s.Created) (hi : i < n)
    (hlt : (getStartAndTodo T n i).1 < T) :
    (s.placed (getStartAndTodo T n i).1 (getStartAndTodo T n i).2).assignment ∈
      ((s.placed f T).parts n).flatMap visits := by
  rw [h.flatMap_visits_parts]
  refine List.mem_flatMap.mpr ⟨i, List.mem_range.mpr hi, ?_⟩
  have hlive : (s.placed (getStartAndTodo T n i).1 (getStartAndTodo T n i).2).Live := by
    simpa [Live] using getStartAndTodo_pos_of_lt hi hlt
  rw [if_pos hlt, hlive.visits_eq]
  exact List.mem_cons_self

/-- **Splitting composes** for a search that begins at zero. -/
theorem Created.composes (h : s.Created) (hn : 0 < n) (hT : 0 < T)
    (hs : s.Narrow ∨ T = 1 ∨ n = 1) : (s.placed 0 T).Composes n := by
  have henum : (s.placed 0 T).enumerated = (s.placed 0 T).visits := by
    simp [enumerated, isEmpty, hT.ne']
  rw [Composes, henum]
  rcases hs with hs | hs
  · rw [flatMap_visits_parts_narrow h hs 0 hn, visits_placed h hs 0 hT, List.range_eq_range']
  · rw [h.flatMap_visits_parts_single hn hT hs]

/-- It does not for one that begins later, and not for a wide one that is moved. -/
theorem Created.of_composes (h : s.Created) (hd : s.Distinct) (hn : 0 < n) (hT : 0 < T)
    (hle : f + T ≤ s.total) (hs : (s.placed f T).Composes n) :
    f = 0 ∧ (s.Narrow ∨ T = 1 ∨ n = 1) := by
  have henum : (s.placed f T).enumerated = (s.placed f T).visits := by
    simp [enumerated, isEmpty, hT.ne']
  rw [Composes, henum] at hs
  have hfirst : ∀ i < n, (getStartAndTodo T n i).1 < T →
      f ≤ (getStartAndTodo T n i).1 ∧ (¬ s.Narrow → (getStartAndTodo T n i).1 = f) := by
    intro i hi hlt
    exact h.le_of_mem_visits hd hT hle (by omega) (hs.mem_iff.mp (h.mem_visits_parts hi hlt))
  have h₀ := getStartAndTodo_zero T n
  have hf : f = 0 := by
    have := (hfirst 0 hn (by omega)).1
    omega
  refine ⟨hf, ?_⟩
  by_contra hwide
  simp only [not_or] at hwide
  -- the second part of a wide search has a position, and is moved to it
  have hlt : (getStartAndTodo T n 1).1 < T := by
    by_cases hnT : n ≤ T
    · exact getStartAndTodo_lt hn hnT (by omega)
    · have hdiv : T / n = 0 := Nat.div_eq_of_lt (by omega)
      have hmod : T % n = T := Nat.mod_eq_of_lt (by omega)
      simp only [getStartAndTodo, hdiv, hmod]
      rw [if_pos (by omega)]
      omega
  have hone : 1 < n := by omega
  have := (hfirst 1 hone hlt).2 hwide.1
  rw [hf, getStartAndTodo_eq_zero_iff hone hlt] at this
  omega

/-- **When the parts of a split search enumerate it.**  For every `FullSearch` or `CartesianSearch`
and every sequence of `split_search` calls on it, the parts of the result enumerate what it
enumerates if the last call had the index zero or left nothing, and the search is no `FullSearch` of
more than 63 variables that is moved.  If no list of the cartesian set has an assignment twice,
which is nothing to ask of a `FullSearch`, this is the only way. -/
theorem splitSearch_composes_iff (s : Search) (h : s.Created) (calls : List (ℕ × ℕ))
    (hc : ∀ c ∈ calls, c.2 < c.1) (numSplit : ℕ) (hsplit : 1 ≤ numSplit) :
    (s.Splittable calls numSplit → (s.splits calls).Composes numSplit) ∧
    (s.Distinct → ((s.splits calls).Composes numSplit ↔ s.Splittable calls numSplit)) := by
  have hempty : (s.splits calls).total = 0 → (s.splits calls).Composes numSplit := by
    intro h₀
    simp [Composes, enumerated, flatMap_visits_parts_eq, isEmpty, splitSearch_total, h₀]
  have hsuff : s.Splittable calls numSplit → (s.splits calls).Composes numSplit := by
    intro hs
    rcases splits_cases h hc with h₀ | ⟨f, T, he, hT, -, hlast⟩
    · exact hempty h₀
    · rw [Splittable, he] at hs
      rw [he]
      rcases hs with hs | ⟨hz, hs⟩
      · simp [isEmpty, hT.ne'] at hs
      · obtain rfl := hlast.mpr hz
        exact h.composes hsplit hT (by simpa using hs)
  refine ⟨hsuff, fun hd => ⟨?_, hsuff⟩⟩
  intro hcomp
  rcases splits_cases h hc with h₀ | ⟨f, T, he, hT, hle, hlast⟩
  · exact .inl (by simp [isEmpty, h₀])
  · rw [he] at hcomp
    obtain ⟨hf, hw⟩ := h.of_composes hd hsplit hT hle hcomp
    rw [Splittable, he]
    exact .inr ⟨hlast.mp hf, by simpa using hw⟩

/-- The second half of the assignments of `7, 8`, split again: the parts enumerate the first
half. -/
theorem splitSearch_forgets_offset :
    ((fullSearch [7, 8]).splits [(2, 1)]).enumerated =
      [[mkLit 7 false, mkLit 8 true], [mkLit 7 true, mkLit 8 true]] ∧
    (((fullSearch [7, 8]).splits [(2, 1)]).parts 2).flatMap visits =
      [[mkLit 7 false, mkLit 8 false], [mkLit 7 true, mkLit 8 false]] ∧
    ¬ ((fullSearch [7, 8]).splits [(2, 1)]).Composes 2 := by
  have henum : ((fullSearch [7, 8]).splits [(2, 1)]).enumerated =
      [[mkLit 7 false, mkLit 8 true], [mkLit 7 true, mkLit 8 true]] := by decide +kernel
  have hparts : (((fullSearch [7, 8]).splits [(2, 1)]).parts 2).flatMap visits =
      [[mkLit 7 false, mkLit 8 false], [mkLit 7 true, mkLit 8 false]] := by decide +kernel
  refine ⟨henum, hparts, ?_⟩
  rw [Composes, henum, hparts]
  decide +kernel

/-- The first half, split again, is enumerated by its parts. -/
theorem splitSearch_composes_first :
    ((fullSearch [7, 8]).splits [(2, 0)]).Composes 2 := by
  refine (splitSearch_composes_iff (fullSearch [7, 8]) (.full _) [(2, 0)] (by decide) 2
    (by decide)).1 (.inr ⟨?_, .inl ?_⟩)
  · simp
  · intro _
    decide

end Search

end Parsat
