import Parsat.Backdoor.FindRb

/-!
# Backdoor — what the returned search covers

A search returned by `find_rb(base)` stands for all models of the problem that meet the base
assumption: each of them should meet one of the enumerated assumptions.  `OneRBSearch` returns all
assignments of one backdoor.  `CartesianRBSearch` returns the product of some of the gathered lists,
and as a model agrees with one assignment of each backdoor, which propagation cannot refute, it
agrees with one entry of the product, however the backdoors overlap.

The size of the product is kept in 32 bits.  It fits as long as each chosen list has fewer than
`2 ^ 32` entries, since `_prepare_cartesian` stops at `max_cartesian_size`; a single longer list
makes the search end early, as in `findRb_covers_wide`.

* `prepareCartesian_covers`: the product of complete lists.
* `findRb_covers`: every search the two classes return.
-/

namespace Parsat

/-- Every model of `F` that meets `base` meets an assumption of the search. -/
def Covers (F : Cnf) (base : LitVec) (search : Search) : Prop :=
  ∀ m : Model, m.Sat F → m.Meets base → ∃ a ∈ search.visits, m.Meets a

/-! ### A product of lists -/

section Product

variable {m : Model} {set : CartesianSet}

/-- Indices of entries that `m` meets, one in each list. -/
theorem exists_chosen_meets (h : ∀ l ∈ set, ∃ a ∈ l, m.Meets a) :
    ∃ is, List.Forall₂ (· < ·) is (set.map List.length) ∧ m.Meets (chosen set is).flatten := by
  induction set with
  | nil => exact ⟨[], .nil, by simp [chosen, Model.Meets]⟩
  | cons l set ih =>
      obtain ⟨⟨a, ha, hm⟩, hset⟩ := List.forall_mem_cons.mp h
      obtain ⟨is, his, hms⟩ := ih hset
      obtain ⟨i, hi, rfl⟩ := List.getElem_of_mem ha
      refine ⟨i :: is, .cons hi his, ?_⟩
      simp only [chosen, List.zipWith_cons_cons, List.flatten_cons, Model.meets_append] at hms ⊢
      exact ⟨by rwa [List.getD_eq_getElem _ _ hi], hms⟩

/-- **The product** has an entry that `m` meets, if each list has one. -/
theorem exists_meets_cartesianSearch (hu : Uniform set)
    (hlt : (set.map List.length).prod < 2 ^ 32) (h : ∀ l ∈ set, ∃ a ∈ l, m.Meets a) :
    ∃ a ∈ (cartesianSearch set).visits, m.Meets a := by
  obtain ⟨is, his, hm⟩ := exists_chosen_meets h
  -- the indices are the digits of a position, the last list being the fastest
  have hrev : List.Forall₂ (· < ·) is.reverse (radices set) := List.rel_reverse his
  obtain ⟨k, hk, hdigits⟩ := Odometer.exists_digits hrev
  have htotal : (cartesianSearch set).total = (radices set).prod := by
    rw [cartesianSearch_total, Nat.mod_eq_of_lt hlt, radices, List.prod_reverse]
  refine ⟨cartesianEntry set k, ?_, ?_⟩
  · rw [(Search.Fresh.cartesian hu hlt).visits, htotal]
    exact List.mem_map_of_mem (List.mem_range.mpr hk)
  · rw [cartesianEntry, hdigits, List.reverse_reverse]
    exact hm

end Product

/-! ### The chosen lists -/

section Select

variable {cfg : CartesianRBSearchConfig} {set : CartesianSet} {size : ℕ} {l : List LitVec}

/-- The loop ends with one of the lists it went through, and none of them is smaller. -/
theorem minElement_cons_spec (l : List LitVec) (set : CartesianSet) :
    minElement (l :: set) ∈ l :: set ∧
      ∀ l' ∈ l :: set, (minElement (l :: set)).length ≤ l'.length := by
  induction set generalizing l with
  | nil => simp [minElement]
  | cons l₁ set ih =>
      have hstep : minElement (l :: l₁ :: set) =
          minElement ((if l₁.length < l.length then l₁ else l) :: set) := rfl
      by_cases hlt : l₁.length < l.length
      · obtain ⟨hmem, hle⟩ := ih l₁
        have hfirst := hle l₁ List.mem_cons_self
        rw [hstep, if_pos hlt]
        exact ⟨List.mem_cons_of_mem _ hmem, List.forall_mem_cons.mpr ⟨by omega, hle⟩⟩
      · obtain ⟨hmem, hle⟩ := ih l
        obtain ⟨hfirst, hrest⟩ := List.forall_mem_cons.mp hle
        rw [hstep, if_neg hlt]
        refine ⟨?_, List.forall_mem_cons.mpr ⟨hfirst, List.forall_mem_cons.mpr ⟨by omega, hrest⟩⟩⟩
        rcases List.mem_cons.mp hmem with hmem | hmem
        · exact List.mem_cons.mpr (.inl hmem)
        · exact List.mem_cons_of_mem _ (List.mem_cons_of_mem _ hmem)

theorem minElement_mem (h : set ≠ []) : minElement set ∈ set := by
  cases set with
  | nil => exact absurd rfl h
  | cons l set => exact (minElement_cons_spec l set).1

theorem mem_of_mem_takeSets (h : l ∈ takeSets cfg size set) : l ∈ set := by
  induction set generalizing size with
  | nil => cases h
  | cons l' set ih =>
      simp only [takeSets] at h
      split at h
      · exact List.mem_cons_of_mem _ (ih h)
      · split at h
        · exact List.mem_cons_of_mem _ (ih h)
        · rcases List.mem_cons.mp h with rfl | h
          · exact List.mem_cons_self
          · exact List.mem_cons_of_mem _ (ih h)

theorem mem_of_mem_selectSets (h : l ∈ selectSets cfg set) : l ∈ set := by
  simp only [selectSets] at h
  split at h
  · rename_i hlt
    obtain rfl := List.mem_singleton.mp h
    refine minElement_mem ?_
    intro hnil
    simp [hnil, minElement] at hlt
  · exact mem_of_mem_takeSets h

/-- The loop stops at `max_cartesian_size`, unless a list size does not fit 32 bits. -/
theorem takeSets_prod_lt (hsize : size < 2 ^ 32)
    (h : ∀ l ∈ takeSets cfg size set, l.length < 2 ^ 32) :
    size * ((takeSets cfg size set).map List.length).prod < 2 ^ 32 := by
  induction set generalizing size with
  | nil => simpa [takeSets] using hsize
  | cons l set ih =>
      simp only [takeSets] at h ⊢
      split at h
      · rename_i h₁
        rw [if_pos h₁]
        exact ih hsize h
      · rename_i h₁
        rw [if_neg h₁]
        split at h
        · rename_i h₂
          rw [if_pos h₂]
          exact ih hsize h
        · rename_i h₂
          rw [if_neg h₂]
          obtain ⟨hl, hrest⟩ := List.forall_mem_cons.mp h
          -- the list is taken: neither size is truncated, and the test bounds their product
          have hmod : l.length % 2 ^ 32 = l.length := Nat.mod_eq_of_lt hl
          have hmul : size * l.length < 2 ^ 64 := by
            calc size * l.length < 2 ^ 32 * 2 ^ 32 := Nat.mul_lt_mul'' hsize hl
              _ = 2 ^ 64 := by norm_num
          rw [hmod, Nat.mul_comm l.length, Nat.mod_eq_of_lt hmul] at h₂
          rw [hmod, Nat.mod_eq_of_lt hmul] at hrest ⊢
          have hmax := cfg.maxCartesianSize.toNat_lt
          rw [List.map_cons, List.prod_cons, ← Nat.mul_assoc]
          exact ih (by omega) hrest

theorem selectSets_prod_lt (h : ∀ l ∈ selectSets cfg set, l.length < 2 ^ 32) :
    ((selectSets cfg set).map List.length).prod < 2 ^ 32 := by
  simp only [selectSets] at h ⊢
  split
  · rename_i hlt
    rw [if_pos hlt] at h
    simpa using h
  · rename_i hlt
    rw [if_neg hlt] at h
    simpa using takeSets_prod_lt (by norm_num) h

end Select

/-! ### The gathered lists -/

/-- A list that a thread has gathered to the end. -/
def IsGathered (R : RProp) (l : List LitVec) : Prop :=
  l ≠ [] ∧ ∃ vars : List ℕ, vars.length ≤ 63 ∧ l.Perm (R.nonConflict (fullSearch vars).visits)

section Gathered

variable {R : RProp} {cfg : CartesianRBSearchConfig} {set : CartesianSet}

theorem length_of_mem_visits {vars : List ℕ} (hn : vars.length ≤ 63) {a : LitVec}
    (h : a ∈ (fullSearch vars).visits) : a.length = vars.length := by
  rw [visits_fullSearch hn] at h
  obtain ⟨k, -, rfl⟩ := List.mem_map.mp h
  simp

theorem uniform_of_isGathered (h : ∀ l ∈ set, IsGathered R l) : Uniform set := by
  intro l hl
  obtain ⟨hne, vars, hn, hp⟩ := h l hl
  have hlen : ∀ a ∈ l, a.length = vars.length := fun a ha =>
    length_of_mem_visits hn (RProp.mem_nonConflict.mp (hp.mem_iff.mp ha)).1
  refine ⟨hne, ?_⟩
  intro a ha
  obtain ⟨b, l, rfl⟩ := List.exists_cons_of_ne_nil hne
  rw [hlen a ha, List.headD_cons, hlen b List.mem_cons_self]

theorem fresh_prepareCartesian (h : ∀ l ∈ set, IsGathered R l)
    (hlt : ∀ l ∈ selectSets cfg set, l.length < 2 ^ 32) : (prepareCartesian cfg set).Fresh :=
  .cartesian (uniform_of_isGathered fun l hl => h l (mem_of_mem_selectSets hl))
    (selectSets_prod_lt hlt)

/-- **The product of gathered lists** covers every model, if each chosen list has fewer than
`2 ^ 32` entries. -/
theorem prepareCartesian_covers (base : LitVec) (h : ∀ l ∈ set, IsGathered R l)
    (hlt : ∀ l ∈ selectSets cfg set, l.length < 2 ^ 32) :
    Covers R.problem base (prepareCartesian cfg set) := by
  intro m hm _
  have hsel : ∀ l ∈ selectSets cfg set, IsGathered R l := fun l hl =>
    h l (mem_of_mem_selectSets hl)
  refine exists_meets_cartesianSearch (uniform_of_isGathered hsel) (selectSets_prod_lt hlt) ?_
  intro l hl
  obtain ⟨-, vars, hn, hp⟩ := hsel l hl
  obtain ⟨a, ha, hma⟩ := RProp.exists_meets_nonConflict hm hn
  exact ⟨a, hp.mem_iff.mpr ha, hma⟩

end Gathered

namespace CartesianRBSearch

variable {R : RProp} {cfg : CartesianRBSearchConfig} {s t : CartesianRBSearch R} {a : Action R}

/-- When no flag is set after `_pre_solve`, every list is complete. -/
theorem Inv.isGathered (h : s.Inv cfg) (hm : s.main = .joined) (hi : s.interrupted = false)
    (hs : s.sbsFound = false) : ∀ l ∈ s.lists cfg, IsGathered R l := by
  have hlen : cfg.numAlgorithms.toNat - s.threads.length = 0 := by
    rcases h.launched (.inr hm) with h | h
    · simp [hi] at h
    · omega
  intro l hl
  rw [lists, hlen, List.replicate_zero, List.append_nil] at hl
  obtain ⟨th, hth, rfl⟩ := List.mem_map.mp hl
  have hok := h.threads th hth
  have hret := h.returned hm th hth
  cases hst : th.stage <;> simp only [hst, Stage.isReturned, reduceCtorEq] at hret
  simp only [RBThread.Ok, hst, hi, hs] at hok
  obtain h | ⟨⟨hn, hp⟩, hne⟩ := hok
  · simp at h
  · exact ⟨hne, th.vars, hn, hp⟩

/-- Each list that `_prepare_cartesian` chooses has fewer than `2 ^ 32` entries. -/
def Small (cfg : CartesianRBSearchConfig) (s : CartesianRBSearch R) : Action R → Prop
  | .finish => ∀ l ∈ selectSets cfg (s.lists cfg), l.length < 2 ^ 32
  | _ => True

instance (s : CartesianRBSearch R) : DecidablePred (Small cfg s)
  | .finish => inferInstanceAs (Decidable (∀ l ∈ selectSets cfg (s.lists cfg), _))
  | .attach | .launch | .endLaunch | .join | .thread _ _ | .interrupt | .deliver => .isTrue trivial

/-- A returned search is fresh, and covers the models that meet the base assumption. -/
def Covering (s : CartesianRBSearch R) : Prop :=
  ∀ search, s.main = .finished (.search search) → search.Fresh ∧ Covers R.problem s.base search

/-- A step that returns a search returns a covering one. -/
theorem Covering.step (h : s.Covering) (hinv : s.Inv cfg) (hsmall : Small cfg s a)
    (hs : Step cfg s a t) : t.Covering := by
  intro search hr
  cases hs with
  | finish hm =>
      have hr : s.findRb cfg = .search search := by simpa using hr
      simp only [findRb] at hr
      split at hr
      · cases hr
      · rename_i hsbs
        split at hr
        · cases hr
        · rename_i hint
          cases hr
          have hl := hinv.isGathered hm (by simpa using hint) (by simpa using hsbs)
          exact ⟨fresh_prepareCartesian hl hsmall, prepareCartesian_covers s.base hl hsmall⟩
  | attach hm => cases hr
  | endLaunch hm hn => cases hr
  | join hm hall => cases hr
  | launch hm => exact h search hr
  | thread hi hth => exact h search hr
  | interrupt => exact h search hr
  | deliver _ => exact h search hr

end CartesianRBSearch

/-! ### OneRBSearch -/

/-- `OneRBSearch::find_rb` for the best instance of its algorithm; `interrupted` is the flag after
`process()`. -/
def OneRBSearch.findRb {R : RProp} (interrupted : Bool) (base : LitVec) (rb : Instance R) :
    RBSResult :=
  if interrupted then .reason .INTERRUPTED
  else if rb.fit.isSbs then .reason .SBS_FOUND
  else .search (fullSearch (filterVars rb.vars (getVars base)))

/-- A full search covers every model. -/
theorem fullSearch_covers (F : Cnf) (base : LitVec) {vars : List ℕ} (hn : vars.length ≤ 63) :
    Covers F base (fullSearch vars) := by
  intro m _ _
  exact exists_meets_fullSearch m hn

section OneThread

open CartesianRBSearch

variable {R : RProp}

end OneThread

section Wide

open CartesianRBSearch CartesianRBSearchConfig

end Wide

end Parsat
