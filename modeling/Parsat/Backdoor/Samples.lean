import Mathlib.Algebra.Order.Field.Basic
import Mathlib.Algebra.Order.Ring.Rat
import Parsat.Backdoor.Instance
import Parsat.Propagation.Engines

/-!
# Backdoor — the number of samples

`_calc_fitness` again, with what is drawn: each evaluation sets `samples` in 64 bits, propagates
some assignments, and `fit_` keeps `samples` in 32 bits.

* `calcFitnessSampled_fit`: the fitness is the one of `calcFitness`, which has the conflicts of the
  random searches as a parameter.
* `evaluate_spec`: what one evaluation propagates and counts.
* `calcFitness_accounts_iff`: the recorded number of samples is the number of assignments the last
  evaluation propagated, unless that one had no samples, or as many as 32 bits do not hold.
-/

namespace Parsat

open Solver

/-- One evaluation in `_calc_fitness`: the value of `samples`, the conflicts, and the number of
assignments `prop_tree` or `prop_search` propagates; the tree decides all there are. -/
structure Evaluation where
  samples : ℕ
  conflicts : ℕ
  propagated : ℕ

/-- What `fit_` holds after `_calc_fitness`, with its last evaluation and the number of them. -/
structure Recorded where
  fit : Fitness
  last : Evaluation
  evaluations : ℕ

section CalcFitness

variable (P : Propagator) (F : Cnf) (e : Engine) (cfg : SamplingConfig) (base : LitVec)
  (vars : List ℕ)

/-- `full_search`. -/
def isFullSearch (samples : ℕ) : Bool :=
  vars.length ≤ cfg.maxVarsFs ∨ vars.length ≤ 63 ∧ 2 ^ vars.length ≤ samples

/-- The search, and `samples` as it is then. -/
def chooseSearch (samples : ℕ) (draws : Draws) : Option ((ℕ × AnySearch) × Draws) :=
  if vars.length ≤ 63 ∧ 2 ^ vars.length ≤ samples then
    some ((2 ^ vars.length, .fixed (fullSearch vars)), draws)
  else (randomSearch vars samples draws).map fun r => ((samples, .random r.1), r.2)

/-- An evaluation with `samples` as the parameter. -/
def evaluate (samples : ℕ) (draws : SearchDraws) : Option Evaluation :=
  let size := vars.length
  if size ≤ cfg.maxVarsFs ∧ cfg.tree then
    some ⟨2 ^ (size % 64), treeCount P F e base vars, 2 ^ size⟩
  else
    let samples := if size ≤ cfg.maxVarsFs then 2 ^ (size % 64) else samples
    (chooseSearch vars samples draws.caller).bind fun r =>
      (e.propSearchAny P F (some base) r.1.2 ⟨r.2, draws.task⟩).map fun q =>
        ⟨r.1.1, q.conflicts, q.propagated⟩

/-- `Instance::_calc_fitness(samples, steps_left)`; an evaluation draws the values for its number of
steps left. -/
def calcFitnessSampled (draws : ℕ → SearchDraws) : ℕ → ℕ → Option Recorded
  | steps, samples =>
    (evaluate P F e cfg base vars samples (draws steps)).bind fun last =>
      let fit := Fitness.ofCount last.conflicts last.samples vars.length
      match steps with
      | 0 => some ⟨fit, last, 1⟩
      | steps + 1 =>
        if ¬ isFullSearch cfg vars samples ∧ fit.rho = 1 then
          (calcFitnessSampled draws steps (cfg.scaled last.samples)).map fun r =>
            { r with evaluations := r.evaluations + 1 }
        else some ⟨fit, last, 1⟩

/-- Propagation refutes the signs `σ` of the variables. -/
def refuted (σ : List Bool) : Bool :=
  conflicts P F (base ++ withSigns (vars.map fun v => mkLit v false) σ)

def AllRefuted : Prop := ∀ σ : List Bool, σ.length = vars.length → refuted P F base vars σ = true

def SomeRefuted : Prop := ∃ σ : List Bool, σ.length = vars.length ∧ refuted P F base vars σ = true

/-- The numbers of samples are such that 32 bits hold them wherever some draws make an evaluation
the last one, and none of them is zero. -/
def Accountable : ℕ → ℕ → Prop
  | steps, samples =>
    if isFullSearch cfg vars samples then vars.length ≤ 31
    else 1 ≤ samples ∧
      match steps with
      | 0 => samples < 2 ^ 32
      | steps + 1 => (samples < 2 ^ 32 ∨ AllRefuted P F base vars) ∧
        (SomeRefuted P F base vars → Accountable steps (cfg.scaled samples))

end CalcFitness

/-- The recorded number of samples is the number of assignments propagated last, and the conflicts
are among them. -/
structure Recorded.Accounts (r : Recorded) : Prop where
  samples_eq : r.fit.samples = r.last.propagated
  conflicts_le : r.last.conflicts ≤ r.fit.samples
  rho_nonneg : 0 ≤ r.fit.rho
  rho_le : r.fit.rho ≤ 1

variable {P : Propagator} {F : Cnf} {e : Engine} {cfg : SamplingConfig} {base : LitVec}
  {vars : List ℕ} {draws : ℕ → SearchDraws} {steps samples : ℕ} {last : Evaluation} {r : Recorded}

/-! ### One evaluation -/

/-- Going through all assignments. -/
structure Evaluation.Full (P : Propagator) (F : Cnf) (base : LitVec) (vars : List ℕ)
    (last : Evaluation) : Prop where
  samples_eq : last.samples = 2 ^ vars.length
  propagated_eq : last.propagated = 2 ^ vars.length
  conflicts_eq : vars.length ≤ 31 → last.conflicts = conflictCount P F base vars

/-- Drawing `samples` of them. -/
structure Evaluation.Drawn (P : Propagator) (F : Cnf) (base : LitVec) (vars : List ℕ)
    (samples : ℕ) (last : Evaluation) : Prop where
  samples_eq : last.samples = samples
  propagated_eq : last.propagated = max 1 samples
  conflicts_le : last.conflicts ≤ max 1 samples
  all : AllRefuted P F base vars → last.conflicts = max 1 samples
  some : last.conflicts ≠ 0 → SomeRefuted P F base vars

theorem conflictCount_le (P : Propagator) (F : Cnf) (base : LitVec) (vars : List ℕ) :
    conflictCount P F base vars ≤ 2 ^ vars.length :=
  List.countP_le_length.trans_eq (length_signVectors _)

/-- A full search, with either engine. -/
theorem searched_full (he : e.Ready) (hn : vars.length ≤ 63) {d : SearchDraws} {q : Searched}
    (h : e.propSearchAny P F (some base) (.fixed (fullSearch vars)) d = some q) :
    q.conflicts = searchCount P F base vars ∧ q.propagated = 2 ^ vars.length := by
  obtain ⟨q', hq', hof⟩ := Engine.propSearchAny_fixed P F (some base) he (.full hn) d
  cases hq'.symm.trans h
  refine ⟨?_, ?_⟩
  · rw [hof.conflicts_eq, searchCount_eq, List.countP_map]
    rfl
  · rw [hof.propagated_eq, (visits_fullSearch_perm hn).length_eq, List.length_map,
      length_signVectors]

/-- The assignments a random search begins with. -/
theorem randomSearch_signed {total : ℕ} {d rest : Draws} {s : RandomSearch}
    (h : randomSearch vars total d = some (s, rest)) :
    s.total = total ∧ s.done = 0 ∧ Signed (vars.map fun v => mkLit v false) s.assignment := by
  obtain ⟨⟨a, rest'⟩, ha, he⟩ := Option.map_eq_some_iff.mp h
  cases he
  exact ⟨rfl, rfl, setRandom_signed ha⟩

/-- What a random search counts, with either engine. -/
theorem searched_drawn (he : e.Ready) {d rest : Draws} {s : RandomSearch}
    (hs : randomSearch vars samples d = some (s, rest)) {d' : SearchDraws} {q : Searched}
    (h : e.propSearchAny P F (some base) (.random s) d' = some q) :
    Evaluation.Drawn P F base vars samples ⟨samples, q.conflicts, q.propagated⟩ := by
  obtain ⟨htotal, hdone, hsigned⟩ := randomSearch_signed hs
  obtain ⟨visits, hv, hof⟩ := Engine.propSearchAny_spec he h
  have hlen : visits.length = max 1 samples := by
    rw [hv.length_eq hdone]
    exact congrArg _ htotal
  have hall := hv.signed hsigned
  have hmap : (vars.map fun v => mkLit v false).length = vars.length := List.length_map ..
  refine ⟨rfl, hof.propagated_eq.trans hlen, ?_, ?_, ?_⟩
  · rw [← hlen, hof.conflicts_eq]
    exact List.countP_le_length
  · intro hrefuted
    rw [← hlen, hof.conflicts_eq, List.countP_eq_length]
    intro a ha
    obtain ⟨σ, hσ, rfl⟩ := hall a ha
    exact hrefuted σ (hσ.trans hmap)
  · intro hne
    rw [hof.conflicts_eq] at hne
    obtain ⟨a, ha, hconf⟩ := List.countP_pos_iff.mp (Nat.pos_of_ne_zero hne)
    obtain ⟨σ, hσ, rfl⟩ := hall a ha
    exact ⟨σ, hσ.trans hmap, hconf⟩

/-- What the search of an evaluation is where all assignments are gone through. -/
theorem chooseSearch_full (h₁ : vars.length ≤ 63) (h₂ : 2 ^ vars.length ≤ samples) (d : Draws) :
    chooseSearch vars samples d = some ((2 ^ vars.length, .fixed (fullSearch vars)), d) :=
  if_pos ⟨h₁, h₂⟩

theorem isFullSearch_iff : isFullSearch cfg vars samples = true ↔
    vars.length ≤ cfg.maxVarsFs ∨ vars.length ≤ 63 ∧ 2 ^ vars.length ≤ samples :=
  decide_eq_true_iff

/-- An evaluation that goes through all assignments is in the tree or a full search. -/
theorem evaluate_eq_full (P : Propagator) (F : Cnf) (e : Engine) (base : LitVec)
    (hmax : cfg.maxVarsFs ≤ 63) (hfull : isFullSearch cfg vars samples = true) (d : SearchDraws) :
    vars.length ≤ 63 ∧ evaluate P F e cfg base vars samples d =
      if vars.length ≤ cfg.maxVarsFs ∧ cfg.tree then
        some ⟨2 ^ vars.length, treeCount P F e base vars, 2 ^ vars.length⟩
      else (e.propSearchAny P F (some base) (.fixed (fullSearch vars)) d).map fun q =>
        ⟨2 ^ vars.length, q.conflicts, q.propagated⟩ := by
  have hn : vars.length ≤ 63 := by
    rcases isFullSearch_iff.mp hfull with h | h <;> omega
  have hmod : vars.length % 64 = vars.length := Nat.mod_eq_of_lt (by omega)
  refine ⟨hn, ?_⟩
  simp only [evaluate, hmod]
  split
  · rfl
  · have hle : 2 ^ vars.length ≤
        if vars.length ≤ cfg.maxVarsFs then 2 ^ vars.length else samples := by
      split
      · exact le_rfl
      · exact ((isFullSearch_iff.mp hfull).resolve_left ‹_›).2
    rw [chooseSearch_full hn hle]
    rfl

theorem evaluate_eq_drawn (hfull : isFullSearch cfg vars samples = false) (d : SearchDraws) :
    evaluate P F e cfg base vars samples d =
      (randomSearch vars samples d.caller).bind fun r =>
        (e.propSearchAny P F (some base) (.random r.1) ⟨r.2, d.task⟩).map fun q =>
          ⟨samples, q.conflicts, q.propagated⟩ := by
  have hnot := fun h => Bool.false_ne_true (hfull.symm.trans (isFullSearch_iff.mpr h))
  have h₁ : ¬ vars.length ≤ cfg.maxVarsFs := fun h => hnot (.inl h)
  have h₂ : ¬ (vars.length ≤ 63 ∧ 2 ^ vars.length ≤ samples) := fun h => hnot (.inr h)
  simp only [evaluate, h₁, false_and, if_false, chooseSearch, h₂]
  cases randomSearch vars samples d.caller <;> rfl

/-- **An evaluation** goes through all assignments, or draws `samples` of them. -/
theorem evaluate_spec (he : e.Ready) (hmax : cfg.maxVarsFs ≤ 63) {d : SearchDraws}
    (h : evaluate P F e cfg base vars samples d = some last) :
    if isFullSearch cfg vars samples then last.Full P F base vars
    else last.Drawn P F base vars samples := by
  cases hfull : isFullSearch cfg vars samples with
  | true =>
      obtain ⟨hn, heq⟩ := evaluate_eq_full P F e base hmax hfull d
      rw [heq] at h
      split at h
      · cases h
        exact ⟨rfl, rfl, treeCount_eq⟩
      · obtain ⟨q, hq, rfl⟩ := Option.map_eq_some_iff.mp h
        obtain ⟨h₁, h₂⟩ := searched_full he hn hq
        exact ⟨rfl, h₂, fun _ => h₁.trans (searchCount_eq_conflictCount hn)⟩
  | false =>
      rw [evaluate_eq_drawn hfull] at h
      obtain ⟨⟨s, rest⟩, hs, h⟩ := Option.bind_eq_some_iff.mp h
      obtain ⟨q, hq, rfl⟩ := Option.map_eq_some_iff.mp h
      exact searched_drawn he hs hq

/-- Going through all assignments draws nothing. -/
theorem exists_evaluate_full (P : Propagator) (F : Cnf) (base : LitVec) (he : e.Ready)
    (hmax : cfg.maxVarsFs ≤ 63) (hfull : isFullSearch cfg vars samples = true) (d : SearchDraws) :
    ∃ last, evaluate P F e cfg base vars samples d = some last := by
  obtain ⟨hn, heq⟩ := evaluate_eq_full P F e base hmax hfull d
  rw [heq]
  split
  · exact ⟨_, rfl⟩
  · obtain ⟨q, hq, -⟩ := Engine.propSearchAny_fixed P F (some base) he (.full hn) d
    exact ⟨_, Option.map_eq_some_iff.mpr ⟨q, hq, rfl⟩⟩

/-- Some draws are those of the signs `σ` only. -/
theorem exists_evaluate_drawn (P : Propagator) (F : Cnf) (base : LitVec) (he : e.Ready)
    (hfull : isFullSearch cfg vars samples = false) {σ : List Bool} (hσ : σ.length = vars.length) :
    ∃ d last, evaluate P F e cfg base vars samples d = some last ∧
      last.conflicts = if refuted P F base vars σ = true then last.propagated else 0 := by
  set vs := vars.map fun v => mkLit v false with hvs
  have hlen : σ.length = vs.length := hσ.trans (List.length_map ..).symm
  obtain ⟨m, q, visits, hq, hof, hall⟩ := Engine.exists_propSearchAny_random P F (some base) he hlen
    (show (RandomSearch.mk samples 0 (withSigns vs σ)).assignment = _ from rfl)
  refine ⟨⟨σ.map Bool.toNat ++ drawsFor σ m, fun _ => drawsFor σ m⟩,
    ⟨samples, q.conflicts, q.propagated⟩, ?_, ?_⟩
  · rw [evaluate_eq_drawn hfull, randomSearch, RandomSearch.advance, setRandom_append hlen]
    simp only [Option.map_some, Option.bind_some, hq]
  · simp only [hof.conflicts_eq, hof.propagated_eq]
    split
    · rw [List.countP_eq_length]
      intro a ha
      rw [hall a ha]
      assumption
    · rw [List.countP_eq_zero]
      intro a ha
      rw [hall a ha]
      assumption

/-! ### The scale steps -/

theorem calcFitnessSampled_zero : calcFitnessSampled P F e cfg base vars draws 0 samples =
    (evaluate P F e cfg base vars samples (draws 0)).map fun last =>
      ⟨.ofCount last.conflicts last.samples vars.length, last, 1⟩ := by
  rw [calcFitnessSampled]
  cases evaluate P F e cfg base vars samples (draws 0) <;> rfl

theorem calcFitnessSampled_succ : calcFitnessSampled P F e cfg base vars draws (steps + 1) samples =
    (evaluate P F e cfg base vars samples (draws (steps + 1))).bind fun last =>
      if ¬ isFullSearch cfg vars samples ∧
          (Fitness.ofCount last.conflicts last.samples vars.length).rho = 1 then
        (calcFitnessSampled P F e cfg base vars draws steps (cfg.scaled last.samples)).map fun r =>
          { r with evaluations := r.evaluations + 1 }
      else some ⟨.ofCount last.conflicts last.samples vars.length, last, 1⟩ := by
  rw [calcFitnessSampled]

/-- The draws with more steps left are not used. -/
theorem calcFitnessSampled_congr {draws' : ℕ → SearchDraws} (h : ∀ k ≤ steps, draws k = draws' k) :
    calcFitnessSampled P F e cfg base vars draws steps samples =
      calcFitnessSampled P F e cfg base vars draws' steps samples := by
  induction steps generalizing samples with
  | zero => rw [calcFitnessSampled_zero, calcFitnessSampled_zero, h 0 le_rfl]
  | succ steps ih =>
      simp only [calcFitnessSampled_succ, h (steps + 1) le_rfl, ih fun k hk => h k (by omega)]

/-- There are at most `steps` evaluations after the first. -/
theorem calcFitnessSampled_evaluations
    (h : calcFitnessSampled P F e cfg base vars draws steps samples = some r) :
    r.evaluations ≤ steps + 1 := by
  induction steps generalizing samples r with
  | zero =>
      rw [calcFitnessSampled_zero] at h
      obtain ⟨last, -, rfl⟩ := Option.map_eq_some_iff.mp h
      exact le_rfl
  | succ steps ih =>
      rw [calcFitnessSampled_succ] at h
      obtain ⟨last, -, h⟩ := Option.bind_eq_some_iff.mp h
      split at h
      · obtain ⟨r', hr', rfl⟩ := Option.map_eq_some_iff.mp h
        exact Nat.succ_le_succ (ih hr')
      · cases h
        exact Nat.succ_le_succ (Nat.zero_le _)

/-- A count of all of at least one sample is a share of one. -/
theorem Fitness.rho_ofCount_eq_one {c samples size : ℕ} (h : samples ≠ 0) :
    (Fitness.ofCount c samples size).rho = 1 ↔ c = samples := by
  have : (samples : ℚ) ≠ 0 := Nat.cast_ne_zero.mpr h
  rw [Fitness.ofCount, div_eq_one_iff_eq this, Nat.cast_inj]

/-- The record of an evaluation accounts for it, if 32 bits hold the samples. -/
theorem accounts_ofCount {n : ℕ} (hs : last.samples = last.propagated)
    (hc : last.conflicts ≤ last.propagated) (hlt : last.propagated < 2 ^ 32) :
    (Recorded.mk (.ofCount last.conflicts last.samples n) last 1).Accounts := by
  have hmod : last.samples % 2 ^ 32 = last.propagated := by
    rw [hs, Nat.mod_eq_of_lt hlt]
  refine ⟨hmod, hc.trans_eq hmod.symm, ?_, ?_⟩
  · exact div_nonneg (Nat.cast_nonneg _) (Nat.cast_nonneg _)
  · exact div_le_one_of_le₀ (Nat.cast_le.mpr (hs ▸ hc)) (Nat.cast_nonneg _)

theorem calcFitness_full (he : e.Ready) (hmax : cfg.maxVarsFs ≤ 63)
    (hfull : isFullSearch cfg vars samples = true) {d : SearchDraws}
    (h : evaluate P F e cfg base vars samples d = some last) (random : ℕ → ℕ) (steps : ℕ) :
    calcFitness P F e cfg base vars random steps samples =
      .ofCount last.conflicts last.samples vars.length := by
  obtain ⟨hn, heq⟩ := evaluate_eq_full P F e base hmax hfull d
  have hmod : vars.length % 64 = vars.length := Nat.mod_eq_of_lt (by omega)
  have hlarge := fun hsize => (isFullSearch_iff.mp hfull).resolve_left hsize
  rw [heq] at h
  unfold calcFitness
  dsimp only
  by_cases hsize : vars.length ≤ cfg.maxVarsFs
  · rw [if_pos hsize, if_pos hn, hmod]
    by_cases ht : cfg.tree = true
    · rw [if_pos ⟨hsize, ht⟩] at h
      cases h
      rw [if_pos ht]
    · rw [if_neg fun hc => ht hc.2] at h
      obtain ⟨q, hq, rfl⟩ := Option.map_eq_some_iff.mp h
      rw [if_neg ht, (searched_full he hn hq).1]
  · rw [if_neg fun hc => hsize hc.1] at h
    obtain ⟨q, hq, rfl⟩ := Option.map_eq_some_iff.mp h
    rw [if_neg hsize, if_pos (hlarge hsize), (searched_full he hn hq).1]

theorem calcFitness_drawn (hfull : isFullSearch cfg vars samples = false) (random : ℕ → ℕ) :
    calcFitness P F e cfg base vars random steps samples =
      match steps with
      | 0 => .ofCount (random 0) samples vars.length
      | k + 1 => if (Fitness.ofCount (random (k + 1)) samples vars.length).rho = 1 then
          calcFitness P F e cfg base vars random k (cfg.scaled samples)
        else .ofCount (random (k + 1)) samples vars.length := by
  have hnot := fun h => Bool.false_ne_true (hfull.symm.trans (isFullSearch_iff.mpr h))
  conv_lhs => unfold calcFitness
  dsimp only
  rw [if_neg fun h => hnot (.inl h), if_neg fun h => hnot (.inr h)]
  cases steps <;> rfl

theorem calcFitness_congr {random random' : ℕ → ℕ} (h : ∀ k ≤ steps, random k = random' k) :
    calcFitness P F e cfg base vars random steps samples =
      calcFitness P F e cfg base vars random' steps samples := by
  induction steps generalizing samples with
  | zero =>
      unfold calcFitness
      simp only [h 0 le_rfl]
  | succ steps ih =>
      unfold calcFitness
      simp only [h (steps + 1) le_rfl, ih fun k hk => h k (by omega)]

theorem evaluate_drawn_samples (hfull : isFullSearch cfg vars samples = false) {d : SearchDraws}
    (h : evaluate P F e cfg base vars samples d = some last) : last.samples = samples := by
  rw [evaluate_eq_drawn hfull] at h
  obtain ⟨_, -, h⟩ := Option.bind_eq_some_iff.mp h
  obtain ⟨_, -, rfl⟩ := Option.map_eq_some_iff.mp h
  rfl

/-- **The fitness** is the one of `calcFitness`, for the conflicts that are met. -/
theorem calcFitnessSampled_fit (he : e.Ready) (hmax : cfg.maxVarsFs ≤ 63)
    (h : calcFitnessSampled P F e cfg base vars draws steps samples = some r) :
    ∃ random, r.fit = calcFitness P F e cfg base vars random steps samples := by
  induction steps generalizing samples r with
  | zero =>
      rw [calcFitnessSampled_zero] at h
      obtain ⟨last, hl, rfl⟩ := Option.map_eq_some_iff.mp h
      refine ⟨fun _ => last.conflicts, ?_⟩
      cases hfull : isFullSearch cfg vars samples with
      | true => exact (calcFitness_full he hmax hfull hl _ _).symm
      | false => rw [calcFitness_drawn hfull, evaluate_drawn_samples hfull hl]
  | succ steps ih =>
      rw [calcFitnessSampled_succ] at h
      obtain ⟨last, hl, h⟩ := Option.bind_eq_some_iff.mp h
      cases hfull : isFullSearch cfg vars samples with
      | true =>
          rw [if_neg fun hc => hc.1 hfull] at h
          cases h
          exact ⟨fun _ => 0, (calcFitness_full he hmax hfull hl _ _).symm⟩
      | false =>
          have hsamples := evaluate_drawn_samples hfull hl
          rw [hsamples] at h
          split at h
          · rename_i hc
            obtain ⟨r', hr', rfl⟩ := Option.map_eq_some_iff.mp h
            obtain ⟨random, hrandom⟩ := ih hr'
            -- what this step met is put before what the later steps meet
            refine ⟨Function.update random (steps + 1) last.conflicts, ?_⟩
            rw [calcFitness_drawn hfull]
            simp only [Function.update_self, hc.2, if_true, hrandom]
            exact calcFitness_congr fun k hk => (Function.update_of_ne (by omega) ..).symm
          · rename_i hc
            cases h
            refine ⟨fun _ => last.conflicts, ?_⟩
            rw [calcFitness_drawn hfull]
            exact (if_neg fun hrho => hc ⟨by simp [hfull], hrho⟩).symm

/-- An evaluation of all assignments, or of a number of samples that 32 bits hold. -/
theorem evaluate_accounts (he : e.Ready) (hmax : cfg.maxVarsFs ≤ 63) {d : SearchDraws}
    (h : evaluate P F e cfg base vars samples d = some last)
    (hs : if isFullSearch cfg vars samples then vars.length ≤ 31
      else 1 ≤ samples ∧ samples < 2 ^ 32) :
    (Recorded.mk (.ofCount last.conflicts last.samples vars.length) last 1).Accounts := by
  have hspec := evaluate_spec he hmax h
  split at hspec
  · rename_i hfull
    rw [if_pos hfull] at hs
    have hlt : 2 ^ vars.length < 2 ^ 32 := Nat.pow_lt_pow_right (by decide) (by omega)
    refine accounts_ofCount (hspec.samples_eq.trans hspec.propagated_eq.symm) ?_ ?_
    · rw [hspec.conflicts_eq hs, hspec.propagated_eq]
      exact conflictCount_le ..
    · rwa [hspec.propagated_eq]
  · rename_i hfull
    rw [if_neg hfull] at hs
    have hone : max 1 samples = samples := max_eq_right hs.1
    refine accounts_ofCount ?_ ?_ ?_
    · rw [hspec.samples_eq, hspec.propagated_eq, hone]
    · rw [hspec.propagated_eq]
      exact hspec.conflicts_le
    · rw [hspec.propagated_eq, hone]
      exact hs.2

/-- The numbers of samples of a last evaluation that is accounted for. -/
theorem of_evaluate_accounts (he : e.Ready) (hmax : cfg.maxVarsFs ≤ 63) {d : SearchDraws}
    (h : evaluate P F e cfg base vars samples d = some last)
    (ha : (Recorded.mk (.ofCount last.conflicts last.samples vars.length) last 1).Accounts) :
    if isFullSearch cfg vars samples then vars.length ≤ 31 else 1 ≤ samples ∧ samples < 2 ^ 32 := by
  have hspec := evaluate_spec he hmax h
  have heq : last.samples % 2 ^ 32 = last.propagated := ha.samples_eq
  split at hspec
  · rename_i hfull
    rw [hspec.propagated_eq, hspec.samples_eq] at heq
    rw [if_pos hfull]
    exact (Fitness.samples_ofCount (show (Fitness.ofCount 0 _ vars.length).samples = _ from heq)).1
  · rename_i hfull
    rw [hspec.propagated_eq, hspec.samples_eq] at heq
    rw [if_neg hfull]
    have := Nat.mod_lt samples (Nat.two_pow_pos 32)
    omega

/-- With such numbers of samples, every run of `_calc_fitness` accounts for its last evaluation. -/
theorem Accountable.accounts (he : e.Ready) (hmax : cfg.maxVarsFs ≤ 63)
    (ha : Accountable P F cfg base vars steps samples)
    (h : calcFitnessSampled P F e cfg base vars draws steps samples = some r) : r.Accounts := by
  induction steps generalizing samples r with
  | zero =>
      rw [calcFitnessSampled_zero] at h
      obtain ⟨last, hl, rfl⟩ := Option.map_eq_some_iff.mp h
      rw [Accountable] at ha
      exact evaluate_accounts he hmax hl ha
  | succ steps ih =>
      rw [calcFitnessSampled_succ] at h
      obtain ⟨last, hl, h⟩ := Option.bind_eq_some_iff.mp h
      rw [Accountable] at ha
      split at ha
      · rename_i hfull
        rw [if_neg fun hc => hc.1 hfull] at h
        cases h
        exact evaluate_accounts he hmax hl (by rwa [if_pos hfull])
      · rename_i hfull
        obtain ⟨hpos, hsize, hnext⟩ := ha
        have hspec := evaluate_spec he hmax hl
        rw [if_neg hfull] at hspec
        have hone : max 1 samples = samples := max_eq_right hpos
        simp only [hspec.samples_eq, Fitness.rho_ofCount_eq_one (show samples ≠ 0 by omega)] at h
        split at h
        · rename_i hc
          obtain ⟨r', hr', rfl⟩ := Option.map_eq_some_iff.mp h
          have hr := ih (hnext (hspec.some (by omega))) hr'
          exact ⟨hr.samples_eq, hr.conflicts_le, hr.rho_nonneg, hr.rho_le⟩
        · rename_i hc
          cases h
          -- the samples were not scaled, so not all assignments are refuted
          have hlt : samples < 2 ^ 32 := by
            refine hsize.resolve_right fun hall => hc ⟨hfull, ?_⟩
            rw [hspec.all hall, hone]
          rw [← hspec.samples_eq]
          exact evaluate_accounts he hmax hl (by rw [if_neg hfull]; exact ⟨hpos, hlt⟩)

/-- An evaluation after which the samples are not scaled is a run. -/
theorem calcFitnessSampled_last {d : SearchDraws}
    (h : evaluate P F e cfg base vars samples d = some last)
    (hc : steps = 0 ∨ isFullSearch cfg vars samples = true ∨
      (Fitness.ofCount last.conflicts last.samples vars.length).rho ≠ 1) :
    calcFitnessSampled P F e cfg base vars (fun _ => d) steps samples =
      some ⟨.ofCount last.conflicts last.samples vars.length, last, 1⟩ := by
  cases steps with
  | zero => rw [calcFitnessSampled_zero, h, Option.map_some]
  | succ steps =>
      rw [calcFitnessSampled_succ, h, Option.bind_some, if_neg]
      rintro ⟨hfull, hrho⟩
      rcases hc with hc | hc | hc
      · cases hc
      · exact hfull hc
      · exact hc hrho

/-- One after which they are goes before another run. -/
theorem calcFitnessSampled_scale {d : SearchDraws}
    (h : evaluate P F e cfg base vars samples d = some last)
    (hfull : isFullSearch cfg vars samples = false)
    (hrho : (Fitness.ofCount last.conflicts last.samples vars.length).rho = 1)
    (hr : calcFitnessSampled P F e cfg base vars draws steps (cfg.scaled samples) = some r) :
    calcFitnessSampled P F e cfg base vars (Function.update draws (steps + 1) d) (steps + 1)
      samples = some { r with evaluations := r.evaluations + 1 } := by
  have hcongr : ∀ k ≤ steps, draws k = Function.update draws (steps + 1) d k :=
    fun k hk => (Function.update_of_ne (by omega) ..).symm
  rw [calcFitnessSampled_congr hcongr] at hr
  rw [calcFitnessSampled_succ, Function.update_self, h, Option.bind_some,
    if_pos ⟨by simp [hfull], hrho⟩, evaluate_drawn_samples hfull h, hr, Option.map_some]

/-- Refuted signs, drawn only, make an evaluation that another one follows. -/
theorem exists_evaluate_scaled (he : e.Ready) (hmax : cfg.maxVarsFs ≤ 63)
    (hfull : isFullSearch cfg vars samples = false) (hpos : 1 ≤ samples)
    (hsome : SomeRefuted P F base vars) :
    ∃ d last, evaluate P F e cfg base vars samples d = some last ∧
      (Fitness.ofCount last.conflicts last.samples vars.length).rho = 1 := by
  obtain ⟨σ, hσ, href⟩ := hsome
  obtain ⟨d, last, hl, hc⟩ := exists_evaluate_drawn P F base he hfull hσ
  have hspec := evaluate_spec he hmax hl
  rw [if_neg (by simp [hfull])] at hspec
  rw [if_pos href, hspec.propagated_eq, max_eq_right hpos] at hc
  refine ⟨d, last, hl, ?_⟩
  rw [hspec.samples_eq, Fitness.rho_ofCount_eq_one (by omega), hc]

/-- If every run accounts for its last evaluation, the numbers of samples are such. -/
theorem accountable_of_accounts (he : e.Ready) (hmax : cfg.maxVarsFs ≤ 63)
    (h : ∀ draws r, calcFitnessSampled P F e cfg base vars draws steps samples = some r →
      r.Accounts) : Accountable P F cfg base vars steps samples := by
  induction steps generalizing samples with
  | zero =>
      have hstop := fun d last (hl : evaluate P F e cfg base vars samples d = some last) =>
        of_evaluate_accounts he hmax hl (h _ _ (calcFitnessSampled_last hl (.inl rfl)))
      rw [Accountable]
      cases hfull : isFullSearch cfg vars samples with
      | true =>
          obtain ⟨last, hl⟩ := exists_evaluate_full P F base he hmax hfull ⟨[], fun _ => []⟩
          exact hfull ▸ hstop _ _ hl
      | false =>
          obtain ⟨d, last, hl, -⟩ := exists_evaluate_drawn P F base he hfull
            (List.length_replicate : (List.replicate vars.length false).length = _)
          exact hfull ▸ hstop _ _ hl
  | succ steps ih =>
      have hstop := fun d last (hl : evaluate P F e cfg base vars samples d = some last) hc =>
        of_evaluate_accounts he hmax hl (h _ _ (calcFitnessSampled_last hl (.inr hc)))
      rw [Accountable]
      cases hfull : isFullSearch cfg vars samples with
      | true =>
          obtain ⟨last, hl⟩ := exists_evaluate_full P F base he hmax hfull ⟨[], fun _ => []⟩
          have := hstop _ _ hl (.inl hfull)
          rwa [if_pos hfull] at this
      | false =>
          simp only [hfull, Bool.false_eq_true, if_false, false_or] at hstop ⊢
          have hpos : 1 ≤ samples := by
            by_contra hlt
            obtain ⟨d, last, hl, -⟩ := exists_evaluate_drawn P F base he hfull
              (List.length_replicate : (List.replicate vars.length false).length = _)
            refine hlt (hstop d last hl ?_).1
            simp [Fitness.ofCount, evaluate_drawn_samples hfull hl, show samples = 0 by omega]
          refine ⟨hpos, ?_, ?_⟩
          · -- signs that are not refuted, drawn only, make this the last evaluation
            by_contra hnot
            obtain ⟨hlt, hall⟩ := not_or.mp hnot
            simp only [AllRefuted, not_forall] at hall
            obtain ⟨σ, hσ, href⟩ := hall
            obtain ⟨d, last, hl, hc⟩ := exists_evaluate_drawn P F base he hfull hσ
            rw [if_neg href] at hc
            exact hlt (hstop d last hl (by simp [Fitness.ofCount, hc])).2
          · intro hsome
            obtain ⟨d, last, hl, hrho⟩ := exists_evaluate_scaled he hmax hfull hpos hsome
            refine ih fun draws r hr => ?_
            have hr' := h _ _ (calcFitnessSampled_scale hl hfull hrho hr)
            exact ⟨hr'.samples_eq, hr'.conflicts_le, hr'.rho_nonneg, hr'.rho_le⟩

/-- **Sample accounting.**  The recorded number of samples is the number of assignments the last
evaluation propagated, whatever is drawn, exactly if the numbers of samples are accountable; the
samples are scaled at most `max_scale_steps` times in any case. -/
theorem calcFitness_accounts_iff (P : Propagator) (F : Cnf) (e : Engine) (cfg : SamplingConfig)
    (base : LitVec) (vars : List ℕ) (he : e.Ready) (hmax : cfg.maxVarsFs ≤ 63) :
    (∀ draws r, calcFitnessSampled P F e cfg base vars draws cfg.maxScaleSteps cfg.baseSamples =
        some r → r.Accounts ∧ r.evaluations ≤ cfg.maxScaleSteps + 1) ↔
      Accountable P F cfg base vars cfg.maxScaleSteps cfg.baseSamples := by
  constructor
  · exact fun h => accountable_of_accounts he hmax fun draws r hr => (h draws r hr).1
  · exact fun h draws r hr => ⟨h.accounts he hmax hr, calcFitnessSampled_evaluations hr⟩

/-- With `base_count` zero the search evaluates the assignment it stands at: one conflict in zero
samples. -/
theorem calcFitness_accounts_none :
    (calcFitnessSampled .saturating [[mkLit 0 false]] .simp ⟨0, 0, 0, id, false⟩ [mkLit 0 true] [1]
      (fun _ => ⟨[0], fun _ => []⟩) 0 0).map (fun r =>
        (r.fit.samples, r.last.conflicts, r.last.propagated, r.evaluations)) =
          some (0, 1, 1, 1) := by
  decide +kernel

/-- One sample of the assignments of two variables, and two more as it is a conflict. -/
theorem calcFitness_accounts_scaled :
    ∃ r, calcFitnessSampled .saturating [[mkLit 0 false]] .simp ⟨0, 1, 1, (2 * ·), false⟩
      [mkLit 0 true] [1, 2] (fun _ => ⟨[0, 1, 1, 0], fun _ => []⟩) 1 1 = some r ∧
        r.Accounts ∧ r.evaluations ≤ 2 := by
  have hsome : (calcFitnessSampled .saturating [[mkLit 0 false]] .simp ⟨0, 1, 1, (2 * ·), false⟩
      [mkLit 0 true] [1, 2] (fun _ => ⟨[0, 1, 1, 0], fun _ => []⟩) 1 1).isSome = true := by
    decide +kernel
  obtain ⟨r, hr⟩ := Option.isSome_iff_exists.mp hsome
  have hacc : Accountable .saturating [[mkLit 0 false]] ⟨0, 1, 1, (2 * ·), false⟩ [mkLit 0 true]
      [1, 2] 1 1 := by
    simp [Accountable, isFullSearch]
  exact ⟨r, hr, (calcFitness_accounts_iff _ _ .simp ⟨0, 1, 1, (2 * ·), false⟩ _ _ trivial
    (by decide)).mpr hacc _ r hr⟩

end Parsat
