import Mathlib.Data.Rat.Defs
import Mathlib.Tactic.FieldSimp
import Parsat.Propagation.Tree
import Parsat.Search.Enumeration

/-!
# Backdoor — the fitness of a variable set

`Instance::_calc_fitness` estimates how many assignments of a variable set propagation refutes under
the base assumption, by going through all of them or by sampling, and `is_sbs` reads from the
recorded fitness whether the set is a strong backdoor.

A set of at most `max_vars_fs` variables is counted in the tree or by a full search, a larger one by
a full search if the samples are enough for it and by a random one otherwise.  As the number of
samples is stored in 32 bits, it is `2 ^ size` for at most 31 variables, all assignments of which
were counted.

* `calcFitness_measured`: what the recorded fitness says about the refuted assignments.
* `Measured.conflicts`: a strong backdoor refutes every assignment.
* `Evolved`: what the `fit_` of an instance may be in a run of the evolutionary algorithms, which
  move instances around and compute fitness values before or after `set_base_assumption`;
  `Evolved.refutes`: a strong backdoor then refutes the base assumption.
-/

namespace Parsat

open Solver

/-- `SharedData::SamplingConfig`; `scaled` is `uint32_t(samples * scale)`. -/
structure SamplingConfig where
  maxVarsFs : ℕ
  baseSamples : ℕ
  maxScaleSteps : ℕ
  scaled : ℕ → ℕ
  tree : Bool

/-- `Fitness`, with the quotient `rho` exact. -/
structure Fitness where
  rho : ℚ
  size : ℕ
  samples : ℕ

namespace Fitness

/-- `fit_{}`. -/
def zero : Fitness := ⟨0, 0, 0⟩

/-- What `_calc_fitness` stores; the number of samples is stored in 32 bits. -/
def ofCount (conflicts samples size : ℕ) : Fitness :=
  ⟨(conflicts : ℚ) / samples, size, samples % 2 ^ 32⟩

/-- `Instance::is_sbs`. -/
def isSbs (fit : Fitness) : Bool :=
  fit.size ≤ 63 ∧ fit.rho = 1 ∧ fit.samples = 2 ^ (fit.size % 64)

end Fitness

section CalcFitness

variable (P : Propagator) (F : Cnf) (e : Engine) (cfg : SamplingConfig) (base : LitVec)
  (vars : List ℕ)

/-- The conflicts `prop_tree` counts below the base assumption. -/
def treeCount : ℕ :=
  e.propTree P F (base ++ vars.map fun v => mkLit v false) base.length

/-- The conflicts `prop_search` counts for a `FullSearch`, with either engine. -/
def searchCount : ℕ := (SimpProp.propSearch P F (some base) (fullSearch vars) none).conflicts

/-- The number of assignments of the variables for which `prop_check` of the base assumption
followed by the assignment fails. -/
def conflictCount : ℕ :=
  (signVectors vars.length).countP fun σ =>
    conflicts P F (base ++ withSigns (vars.map fun v => mkLit v false) σ)

/-- `Instance::_calc_fitness(samples, steps_left)`; `random` gives the conflicts a `RandomSearch`
meets at each scale step.  The samples are scaled only where `full_search` is not set. -/
def calcFitness (random : ℕ → ℕ) : ℕ → ℕ → Fitness
  | steps, samples =>
    let size := vars.length
    if size ≤ cfg.maxVarsFs then
      if cfg.tree then .ofCount (treeCount P F e base vars) (2 ^ (size % 64)) size
      else if size ≤ 63 then .ofCount (searchCount P F base vars) (2 ^ size) size
      else .ofCount (random steps) (2 ^ (size % 64)) size
    else if size ≤ 63 ∧ 2 ^ size ≤ samples then
      .ofCount (searchCount P F base vars) (2 ^ size) size
    else
      let fit : Fitness := .ofCount (random steps) samples size
      match steps with
      | 0 => fit
      | steps + 1 => if fit.rho = 1 then calcFitness random steps (cfg.scaled samples) else fit

/-- The values the `fit_` of an instance takes in a run of an algorithm: the initial one, or one
computed for some variable set, with the base assumption or before it was set. -/
inductive Evolved : Fitness → Prop
  | zero : Evolved .zero
  | computed {base' : LitVec} (vars : List ℕ) (random : ℕ → ℕ) : base' = [] ∨ base' = base →
      Evolved (calcFitness P F e cfg base' vars random cfg.maxScaleSteps cfg.baseSamples)

end CalcFitness

/-! ### The counts -/

variable {P : Propagator} {F : Cnf} {e : Engine} {cfg : SamplingConfig} {base : LitVec}
  {vars : List ℕ}

/-- The tree count is the plain count. -/
theorem treeCount_eq (hn : vars.length ≤ 31) :
    treeCount P F e base vars = conflictCount P F base vars := by
  have hlen : (base ++ vars.map fun v => mkLit v false).length - base.length = vars.length := by
    simp
  rw [treeCount, Engine.propTree_eq P F e _ (by omega), hlen, List.take_left, List.drop_left]
  rfl

theorem searchCount_eq (P : Propagator) (F : Cnf) (base : LitVec) (vars : List ℕ) :
    searchCount P F base vars =
      ((fullSearch vars).visits.map (report P F (some base))).countP Prod.fst := by
  have hlive : (fullSearch vars).Live := Nat.two_pow_pos _
  exact (sequentialPropagate_spec (some base) (.refl (loadClauses P F empty)) hlive
    fun _ _ => rfl).2

/-- The full search visits all sign vectors. -/
theorem visits_fullSearch_perm (hn : vars.length ≤ 63) :
    (fullSearch vars).visits.Perm
      ((signVectors vars.length).map (withSigns (vars.map fun v => mkLit v false))) := by
  set vs := vars.map fun v => mkLit v false with hvs
  have hlen : vs.length = vars.length := List.length_map ..
  have hperm := perm_withSigns vs.length vs le_rfl
  simp only [Nat.sub_self, signVectors, List.map_cons, List.map_nil, List.take_length,
    List.drop_length, withSigns, List.zipWith_nil_left, List.append_nil] at hperm
  rw [visits_fullSearch hn, ← hlen, List.map_eq_flatMap]
  exact hperm

/-- So does the search count. -/
theorem searchCount_eq_conflictCount (hn : vars.length ≤ 63) :
    searchCount P F base vars = conflictCount P F base vars := by
  rw [searchCount_eq, List.countP_map, (visits_fullSearch_perm hn).countP_eq, List.countP_map]
  rfl

/-! ### What a fitness says -/

/-- What the fitness of a variable set says: its size, and, if the samples are as many as the
assignments, the share of those that propagation refutes. -/
structure Measured (P : Propagator) (F : Cnf) (base : LitVec) (vars : List ℕ) (fit : Fitness) :
    Prop where
  size_eq : fit.size = vars.length
  size_le : fit.samples = 2 ^ fit.size → vars.length ≤ 31
  rho_eq : fit.samples = 2 ^ fit.size →
    fit.rho = (conflictCount P F base vars : ℚ) / 2 ^ vars.length

/-- As the number of samples is stored in 32 bits, it is `2 ^ size` for at most 31 variables. -/
theorem Fitness.samples_ofCount {conflicts samples size : ℕ}
    (h : (Fitness.ofCount conflicts samples size).samples = 2 ^ size) :
    size ≤ 31 ∧ samples % 2 ^ 32 = 2 ^ size := by
  have hlt : 2 ^ size < 2 ^ 32 := h ▸ Nat.mod_lt samples (Nat.two_pow_pos 32)
  have := (Nat.pow_lt_pow_iff_right (by decide)).mp hlt
  exact ⟨by omega, h⟩

/-- A count of all assignments. -/
theorem measured_all {count : ℕ} (h : vars.length ≤ 31 → count = conflictCount P F base vars) :
    Measured P F base vars (.ofCount count (2 ^ (vars.length % 64)) vars.length) := by
  refine ⟨rfl, fun hs => (Fitness.samples_ofCount hs).1, ?_⟩
  intro hs
  have hn := (Fitness.samples_ofCount hs).1
  simp [Fitness.ofCount, h hn, Nat.mod_eq_of_lt (by omega : vars.length < 64)]

/-- Fewer samples than assignments. -/
theorem measured_few {count samples : ℕ} (h : vars.length ≤ 63 → samples < 2 ^ vars.length) :
    Measured P F base vars (.ofCount count samples vars.length) := by
  have hne : (Fitness.ofCount count samples vars.length).samples ≠ 2 ^ vars.length := by
    intro hs
    obtain ⟨h₁, h₂⟩ := Fitness.samples_ofCount hs
    have := Nat.mod_le samples (2 ^ 32)
    have := h (by omega)
    omega
  exact ⟨rfl, fun hs => absurd hs hne, fun hs => absurd hs hne⟩

/-- **`_calc_fitness`** measures the share of refuted assignments: in the tree, by a full search, or
with fewer samples than assignments. -/
theorem calcFitness_measured (random : ℕ → ℕ) (steps samples : ℕ) :
    Measured P F base vars (calcFitness P F e cfg base vars random steps samples) := by
  have htree : Measured P F base vars
      (.ofCount (treeCount P F e base vars) (2 ^ (vars.length % 64)) vars.length) :=
    measured_all treeCount_eq
  have hsearch : vars.length ≤ 63 → Measured P F base vars
      (.ofCount (searchCount P F base vars) (2 ^ vars.length) vars.length) := by
    intro hn
    have hall : Measured P F base vars
        (.ofCount (searchCount P F base vars) (2 ^ (vars.length % 64)) vars.length) :=
      measured_all fun _ => searchCount_eq_conflictCount hn
    rwa [Nat.mod_eq_of_lt (by omega : vars.length < 64)] at hall
  -- the branches are the tree, a full search, and fewer samples than assignments
  induction steps generalizing samples with
  | zero =>
      unfold calcFitness
      dsimp only
      split_ifs with h₁ h₂ h₃ h₄
      · exact htree
      · exact hsearch h₃
      · exact measured_few fun hn => absurd hn h₃
      · exact hsearch h₄.1
      · exact measured_few fun hn => not_le.mp fun hle => h₄ ⟨hn, hle⟩
  | succ steps ih =>
      unfold calcFitness
      dsimp only
      split_ifs with h₁ h₂ h₃ h₄ h₅
      · exact htree
      · exact hsearch h₃
      · exact measured_few fun hn => absurd hn h₃
      · exact hsearch h₄.1
      · exact ih _
      · exact measured_few fun hn => not_le.mp fun hle => h₄ ⟨hn, hle⟩

/-! ### A strong backdoor refutes -/

/-- Some sign vector agrees with `m`. -/
theorem exists_meets_withSigns (m : Model) (vars : List ℕ) :
    ∃ σ : List Bool, σ.length = vars.length ∧
      m.Meets (withSigns (vars.map fun v => mkLit v false) σ) := by
  refine ⟨vars.map fun v => !m v, List.length_map .., ?_⟩
  intro p hp
  simp only [withSigns, List.zipWith_map_left, List.zipWith_map_right, List.zipWith_self,
    List.mem_map] at hp
  obtain ⟨v, -, rfl⟩ := hp
  simp [Lit.Holds, mkLit]

/-- Some assignment of a full search agrees with `m`. -/
theorem exists_meets_fullSearch (m : Model) {vars : List ℕ} (hn : vars.length ≤ 63) :
    ∃ a ∈ (fullSearch vars).visits, m.Meets a := by
  obtain ⟨σ, hσ, hm⟩ := exists_meets_withSigns m vars
  refine ⟨_, (visits_fullSearch_perm hn).mem_iff.mpr ?_, hm⟩
  exact List.mem_map_of_mem (mem_signVectors.mpr hσ)

/-- **A strong backdoor**: every assignment of the variables is refuted. -/
theorem Measured.conflicts {fit : Fitness} (h : Measured P F base vars fit)
    (hs : fit.isSbs = true) (σ : List Bool) (hσ : σ.length = vars.length) :
    conflicts P F (base ++ withSigns (vars.map fun v => mkLit v false) σ) = true := by
  obtain ⟨hsize, hrho, hsamples⟩ := of_decide_eq_true hs
  rw [Nat.mod_eq_of_lt (by omega : fit.size < 64)] at hsamples
  have hpow : ((2 : ℚ) ^ vars.length) ≠ 0 := pow_ne_zero _ two_ne_zero
  have hcount : conflictCount P F base vars = (signVectors vars.length).length := by
    have := (h.rho_eq hsamples).symm.trans hrho
    rw [div_eq_one_iff_eq hpow] at this
    rw [length_signVectors]
    exact_mod_cast this
  exact List.countP_eq_length.mp hcount σ (mem_signVectors.mpr hσ)

theorem Measured.refutes {fit : Fitness} (h : Measured P F base vars fit)
    (hs : fit.isSbs = true) : ¬ SatisfiableUnder F base := by
  rintro ⟨m, hF, hB⟩
  obtain ⟨σ, hσ, hm⟩ := exists_meets_withSigns m vars
  exact not_satisfiableUnder_of_conflicts (h.conflicts hs σ hσ)
    ⟨m, hF, (m.meets_append _ _).mpr ⟨hB, hm⟩⟩

theorem Evolved.refutes {fit : Fitness} (h : Evolved P F e cfg base fit) (hs : fit.isSbs = true) :
    ¬ SatisfiableUnder F base := by
  cases h with
  | zero => simp [Fitness.isSbs, Fitness.zero] at hs
  | computed vars random hb =>
      have := (calcFitness_measured random _ _).refutes hs
      rcases hb with rfl | rfl
      · rintro ⟨m, hF, -⟩
        exact this ⟨m, hF, by simp [Model.Meets]⟩
      · exact this

end Parsat
