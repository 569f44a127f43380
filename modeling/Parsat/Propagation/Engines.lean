import Parsat.Propagation.Reports
import Parsat.Propagation.Tree

/-!
# Propagation — any search on any engine

`prop_search` without a callback, on a search of any kind.  `ParProp` hands a search with more than
`seq_split_samples` assignments to its workers in parts; each of them draws from a generator of its
own.  What was propagated on a worker before does not matter, so a task starts on a solver that has
just loaded the problem here.

* `Engine.propSearchAny_spec`: with either engine as many assignments are propagated as `size()`
  says, or one if that is zero, and the conflicts among them counted.
* `Engine.propSearchAny_fixed`, `Engine.propSearchAny_random`: which ones these are.
* `Engine.exists_propSearchAny_random`: a random search can meet one assignment only.
-/

namespace Parsat

open Solver

/-- What a run of `prop_search` comes to: the conflicts, and how many assignments it propagated. -/
structure Searched where
  conflicts : ℕ
  propagated : ℕ

/-- The draws of the thread that calls `prop_search`, and of the threads that run its tasks. -/
structure SearchDraws where
  caller : Draws
  task : ℕ → Draws

/-- One task, or `SimpProp::prop_search`. -/
def searchTask (P : Propagator) (F : Cnf) (base : Option LitVec) (search : AnySearch)
    (draws : Draws) : Option Searched :=
  (SimpProp.propSearchAny P F base search draws none).map fun p => ⟨p.conflicts, p.calls.length⟩

/-- `_sum` of the futures of `n` tasks. -/
def sumTasks (task : ℕ → Option Searched) : ℕ → Option Searched
  | 0 => some ⟨0, 0⟩
  | n + 1 => (sumTasks task n).bind fun q => (task n).map fun r =>
    ⟨q.conflicts + r.conflicts, q.propagated + r.propagated⟩

/-- `num_threads` in `ParProp::_prop_search`. -/
def ParProp.numThreads (cfg : ParPropConfig) (size : ℕ) : ℕ :=
  min (size / cfg.seqSplitSamples.toNat) cfg.maxThreads.toNat % 2 ^ 32

/-- `prop_search` of an engine, without a callback. -/
def Engine.propSearchAny (P : Propagator) (F : Cnf) (base : Option LitVec) (search : AnySearch)
    (draws : SearchDraws) : Engine → Option Searched
  | .simp => searchTask P F base search draws.caller
  | .par cfg =>
    if search.size ≤ cfg.seqSplitSamples.toNat then searchTask P F base search (draws.task 0)
    else
      let numThreads := ParProp.numThreads cfg search.size
      sumTasks (fun index => (search.splitSearch numThreads index (draws.task index)).bind
        fun r => searchTask P F base r.1 r.2) numThreads

/-- The engine has threads, and `_prop_search` divides by `seq_split_samples`. -/
def Engine.Ready : Engine → Prop
  | .simp => True
  | .par cfg => 1 ≤ cfg.maxThreads.toNat ∧ 1 ≤ cfg.seqSplitSamples.toNat

/-- The run propagated these assignments. -/
structure Searched.Of (P : Propagator) (F : Cnf) (base : Option LitVec) (visits : List LitVec)
    (q : Searched) : Prop where
  conflicts_eq : q.conflicts = visits.countP fun a => Solver.conflicts P F (assemble base a)
  propagated_eq : q.propagated = visits.length

variable {P : Propagator} {F : Cnf} {base : Option LitVec} {search : AnySearch} {draws : Draws}
  {visits : List LitVec} {q : Searched} {n : ℕ}

/-! ### Tasks -/

/-- A task propagates what its search visits. -/
theorem searchTask_spec (h : searchTask P F base search draws = some q) :
    ∃ visits, search.visits draws = some visits ∧ q.Of P F base visits := by
  obtain ⟨p, hp, rfl⟩ := Option.map_eq_some_iff.mp h
  obtain ⟨visits, hv, hcalls, hconf⟩ := reportLoop_spec (.refl _) (fun _ _ => rfl) hp
  refine ⟨visits, hv, ?_, ?_⟩
  · rw [hconf, List.countP_map]
    rfl
  · rw [hcalls, List.length_map]

theorem exists_searchTask (P : Propagator) (F : Cnf) (base : Option LitVec)
    (h : search.visits draws = some visits) :
    ∃ q, searchTask P F base search draws = some q := by
  obtain ⟨p, hp⟩ := exists_reportLoop base none (.refl (loadClauses P F empty)) (fun _ _ => rfl) h
  exact ⟨_, Option.map_eq_some_iff.mpr ⟨p, hp, rfl⟩⟩

/-- The tasks propagate together what they propagate one by one. -/
theorem sumTasks_spec {task : ℕ → Option Searched} {Q : ℕ → List LitVec → Prop}
    (htask : ∀ i < n, ∀ r, task i = some r → ∃ visits, Q i visits ∧ r.Of P F base visits)
    (h : sumTasks task n = some q) :
    ∃ visits : ℕ → List LitVec, (∀ i < n, Q i (visits i)) ∧
      q.Of P F base ((List.range n).flatMap visits) := by
  induction n generalizing q with
  | zero =>
      cases h
      exact ⟨fun _ => [], by simp, rfl, rfl⟩
  | succ n ih =>
      obtain ⟨q', hq', h⟩ := Option.bind_eq_some_iff.mp h
      obtain ⟨r, hr, rfl⟩ := Option.map_eq_some_iff.mp h
      obtain ⟨visits, hvisits, hof⟩ := ih (fun i hi => htask i (by omega)) hq'
      obtain ⟨last, hlast, hofl⟩ := htask n (by omega) r hr
      -- the visits of the last task are put beside those of the others
      have hold : ∀ i < n, Function.update visits n last i = visits i :=
        fun i hi => Function.update_of_ne (by omega) ..
      have hflat : (List.range n).flatMap (Function.update visits n last) =
          (List.range n).flatMap visits :=
        List.flatMap_congr fun i hi => hold i (List.mem_range.mp hi)
      refine ⟨Function.update visits n last, ?_, ?_, ?_⟩
      · intro i hi
        rcases Nat.lt_succ_iff_lt_or_eq.mp hi with hi | rfl
        · exact (hold i hi).symm ▸ hvisits i hi
        · rwa [Function.update_self]
      · simp [List.range_succ, hflat, hof.conflicts_eq, hofl.conflicts_eq]
      · simp [List.range_succ, hflat, hof.propagated_eq, hofl.propagated_eq]

theorem exists_sumTasks {task : ℕ → Option Searched} (h : ∀ i < n, ∃ r, task i = some r) :
    ∃ q, sumTasks task n = some q := by
  induction n with
  | zero => exact ⟨_, rfl⟩
  | succ n ih =>
      obtain ⟨q, hq⟩ := ih fun i hi => h i (by omega)
      obtain ⟨r, hr⟩ := h n (by omega)
      exact ⟨_, by rw [sumTasks, hq, Option.bind_some, hr, Option.map_some]⟩

/-! ### Parts -/

namespace AnySearch

theorem splitSearch_size {t : AnySearch} {numSplit index : ℕ} {rest : Draws}
    (hi : index < numSplit) (h : search.splitSearch numSplit index draws = some (t, rest)) :
    t.size = (Search.getStartAndTodo search.size numSplit index).2 := by
  have hle := Search.getStartAndTodo_add_le search.size hi
  cases search with
  | fixed s =>
      cases h
      simp only [size, Search.splitSearch] at hle ⊢
      split
      · exact Search.reset_total _
      · simp only
        omega
  | random s =>
      simp only [splitSearch, size] at h hle ⊢
      split at h
      · obtain ⟨r, hr, he⟩ := Option.map_eq_some_iff.mp h
        obtain ⟨_, -, rfl⟩ := Option.map_eq_some_iff.mp hr
        cases he
        rfl
      · cases h
        simp only
        omega
  | unique s =>
      simp only [splitSearch, size] at h hle ⊢
      split at h
      · obtain ⟨r, hr, he⟩ := Option.map_eq_some_iff.mp h
        obtain ⟨_, -, rfl⟩ := Option.map_eq_some_iff.mp hr
        cases he
        rfl
      · cases h
        simp only
        omega

/-- The searches without draws. -/
theorem visitsFor_fixed (n : ℕ) (s : Search) (draws : Draws) :
    visitsFor n (.fixed s) draws = some (s.visitsFor n) := by
  induction n generalizing s with
  | zero => rfl
  | succ n ih =>
      have hnext : s.next = if (AnySearch.fixed s).AtEnd then none
        else some { s.advance with done := s.done + 1 } := rfl
      rw [visitsFor, Search.visitsFor, hnext]
      split
      · rfl
      · rw [step, Option.bind_some, ih]
        rfl

/-- What the tasks of a search visit: one task the whole search, or each a part of it. -/
inductive Covered (search : AnySearch) : List LitVec → Prop
  | whole {draws : Draws} {visits : List LitVec} :
      search.visits draws = some visits → Covered search visits
  | parts {n : ℕ} {visits : ℕ → List LitVec} : 0 < n → n ≤ search.size →
      (∀ i < n, ∃ draws part rest, search.splitSearch n i draws = some (part, rest) ∧
        part.visits rest = some (visits i)) → Covered search ((List.range n).flatMap visits)

/-- They visit as many assignments as the search has, or one if it has none. -/
theorem Covered.length_eq (h : search.Covered visits) (hd : search.done = 0) :
    visits.length = max 1 search.size := by
  cases h with
  | whole hv =>
      rw [length_visitsFor (by omega) (by omega) hv]
      split <;> omega
  | @parts n visits hn hle hv =>
      have hlen : ∀ i < n, (visits i).length =
          (Search.getStartAndTodo search.size n i).2 := by
        intro i hi
        obtain ⟨draws, part, rest, hp, hv⟩ := hv i hi
        have hpos := Search.getStartAndTodo_pos hn hle i
        have hsize := splitSearch_size hi hp
        have hdone := (splitSearch_eq_some hi hp).resolve_left (by omega)
        rw [length_visitsFor (.inr (by omega)) (by omega) hv, if_neg (by omega), hdone.2, hsize,
          Nat.sub_zero]
      have hsum := congrArg List.length (Search.flatMap_intervals search.size hn fun _ => [])
      rw [List.length_map, List.length_range] at hsum
      rw [max_eq_right (by omega), ← hsum, List.length_flatMap, List.length_flatMap]
      refine congrArg List.sum (List.map_congr_left ?_)
      intro i hi
      rw [hlen i (List.mem_range.mp hi), List.length_map, List.length_range']

end AnySearch

/-- `num_threads` is neither zero nor more than the assignments. -/
theorem ParProp.numThreads_le {cfg : ParPropConfig} (hcfg : (Engine.par cfg).Ready) {size : ℕ}
    (h : ¬ size ≤ cfg.seqSplitSamples.toNat) :
    0 < numThreads cfg size ∧ numThreads cfg size ≤ size := by
  obtain ⟨hmax, hseq⟩ := hcfg
  have hdiv : 1 ≤ size / cfg.seqSplitSamples.toNat := (Nat.one_le_div_iff (by omega)).mpr (by omega)
  have hle : size / cfg.seqSplitSamples.toNat ≤ size := Nat.div_le_self _ _
  have hlt := cfg.maxThreads.toNat_lt
  rw [numThreads, Nat.mod_eq_of_lt (lt_of_le_of_lt (min_le_right _ _) hlt)]
  omega

/-- **Either engine** propagates what the tasks visit. -/
theorem Engine.propSearchAny_spec {e : Engine} (he : e.Ready) {draws : SearchDraws}
    (h : e.propSearchAny P F base search draws = some q) :
    ∃ visits, search.Covered visits ∧ q.Of P F base visits := by
  cases e with
  | simp =>
      obtain ⟨visits, hv, hof⟩ := searchTask_spec h
      exact ⟨visits, .whole hv, hof⟩
  | par cfg =>
      simp only [propSearchAny] at h
      split at h
      · obtain ⟨visits, hv, hof⟩ := searchTask_spec h
        exact ⟨visits, .whole hv, hof⟩
      · rename_i hsize
        obtain ⟨hpos, hle⟩ := ParProp.numThreads_le he hsize
        set n := ParProp.numThreads cfg search.size
        have htask : ∀ i < n, ∀ r, ((search.splitSearch n i (draws.task i)).bind
            fun r => searchTask P F base r.1 r.2) = some r → ∃ visits,
              (∃ draws part rest, search.splitSearch n i draws = some (part, rest) ∧
                part.visits rest = some visits) ∧ r.Of P F base visits := by
          intro i _ r hr
          obtain ⟨⟨part, rest⟩, hp, hr⟩ := Option.bind_eq_some_iff.mp hr
          obtain ⟨visits, hv, hof⟩ := searchTask_spec hr
          exact ⟨visits, ⟨_, part, rest, hp, hv⟩, hof⟩
        obtain ⟨visits, hvisits, hof⟩ := sumTasks_spec htask h
        exact ⟨_, .parts hpos hle hvisits, hof⟩

/-! ### Searches without draws -/

theorem AnySearch.Covered.fixed {s : Search} (h : (AnySearch.fixed s).Covered visits)
    (hs : s.Fresh) : visits = s.visits := by
  cases h with
  | whole hv =>
      rw [AnySearch.visits, AnySearch.visitsFor_fixed] at hv
      exact (Option.some.inj hv).symm
  | @parts n visits hn hle hv =>
      rw [← hs.flatten_visits_split hn hle, List.flatMap_def]
      refine congrArg List.flatten (List.map_congr_left ?_)
      intro i hi
      obtain ⟨draws, part, rest, hp, hv⟩ := hv i (List.mem_range.mp hi)
      cases hp
      rw [AnySearch.visits, AnySearch.visitsFor_fixed] at hv
      exact (Option.some.inj hv).symm

/-- A fresh search without draws is propagated whole, with either engine. -/
theorem Engine.propSearchAny_fixed (P : Propagator) (F : Cnf) (base : Option LitVec) {e : Engine}
    (he : e.Ready) {s : Search} (hs : s.Fresh) (draws : SearchDraws) :
    ∃ q, e.propSearchAny P F base (.fixed s) draws = some q ∧ q.Of P F base s.visits := by
  have htask : ∀ (t : Search) (draws : Draws),
      ∃ q, searchTask P F base (.fixed t) draws = some q := fun t draws =>
    exists_searchTask P F base (AnySearch.visitsFor_fixed _ t draws)
  have hq : ∃ q, e.propSearchAny P F base (.fixed s) draws = some q := by
    cases e with
    | simp => exact htask s _
    | par cfg =>
        simp only [propSearchAny]
        split
        · exact htask s _
        · exact exists_sumTasks fun i _ => htask _ _
  obtain ⟨q, hq⟩ := hq
  obtain ⟨visits, hv, hof⟩ := propSearchAny_spec he hq
  exact ⟨q, hq, hv.fixed hs ▸ hof⟩

/-! ### Random searches -/

/-- The variables of `vs` with some signs. -/
def Signed (vs a : LitVec) : Prop := ∃ σ : List Bool, σ.length = vs.length ∧ a = withSigns vs σ

theorem length_withSigns {vs : LitVec} {σ : List Bool} (h : σ.length = vs.length) :
    (withSigns vs σ).length = vs.length := by
  simp [withSigns, h]

theorem withSigns_withSigns {vs : LitVec} {σ τ : List Bool} (h : τ.length = vs.length) :
    withSigns (withSigns vs τ) σ = withSigns vs σ := by
  induction vs generalizing σ τ with
  | nil => rfl
  | cons p vs ih =>
      obtain _ | ⟨b, τ⟩ := τ
      · cases h
      · cases σ with
        | nil => rfl
        | cons c σ => exact congrArg _ (ih (Nat.succ.inj h))

/-- `set_random` changes signs. -/
theorem setRandom_signed {vec a : LitVec} {rest : Draws}
    (h : setRandom vec draws = some (a, rest)) : Signed vec a := by
  induction vec generalizing draws a rest with
  | nil =>
      cases h
      exact ⟨[], rfl, rfl⟩
  | cons p vec ih =>
      cases draws with
      | nil => cases h
      | cons x draws =>
          simp only [setRandom] at h
          split at h
          · obtain ⟨⟨b, rest'⟩, hb, he⟩ := Option.map_eq_some_iff.mp h
            cases he
            obtain ⟨σ, hσ, rfl⟩ := ih hb
            exact ⟨decide (x = 1) :: σ, congrArg (· + 1) hσ, rfl⟩
          · cases h

/-- The draws for the signs `σ`, `n` times. -/
def drawsFor (σ : List Bool) (n : ℕ) : Draws := (List.replicate n (σ.map Bool.toNat)).flatten

/-- Any signs can be drawn. -/
theorem setRandom_append {vec : LitVec} {σ : List Bool} (h : σ.length = vec.length)
    (rest : Draws) : setRandom vec (σ.map Bool.toNat ++ rest) = some (withSigns vec σ, rest) := by
  induction vec generalizing σ with
  | nil =>
      rw [List.length_eq_zero_iff.mp h]
      rfl
  | cons p vec ih =>
      obtain _ | ⟨b, σ⟩ := σ
      · cases h
      · have hle := Bool.toNat_le b
        have hsign : decide (b.toNat = 1) = b := by cases b <;> rfl
        rw [List.map_cons, List.cons_append, setRandom, if_pos hle, ih (Nat.succ.inj h), hsign]
        rfl

theorem setRandom_drawsFor {vs : LitVec} {σ τ : List Bool} (hσ : σ.length = vs.length)
    (hτ : τ.length = vs.length) (n : ℕ) :
    setRandom (withSigns vs τ) (drawsFor σ (n + 1)) = some (withSigns vs σ, drawsFor σ n) := by
  rw [drawsFor, List.replicate_succ, List.flatten_cons,
    setRandom_append (hσ.trans (length_withSigns hτ).symm), withSigns_withSigns hτ]
  rfl

namespace AnySearch

variable {vs : LitVec} {σ : List Bool} {s : RandomSearch}

/-- A random search goes through signs of its variables. -/
theorem visitsFor_signed (hs : Signed vs s.assignment)
    (h : visitsFor n (.random s) draws = some visits) : ∀ a ∈ visits, Signed vs a := by
  induction n generalizing s draws visits with
  | zero =>
      cases h
      exact List.forall_mem_singleton.mpr hs
  | succ n ih =>
      rw [visitsFor] at h
      split at h
      · cases h
        exact List.forall_mem_singleton.mpr hs
      · obtain ⟨⟨t, rest⟩, ht, h⟩ := Option.bind_eq_some_iff.mp h
        obtain ⟨visits, hv, rfl⟩ := Option.map_eq_some_iff.mp h
        obtain ⟨⟨u, rest'⟩, hu, he⟩ := Option.map_eq_some_iff.mp ht
        obtain ⟨⟨a, rest''⟩, ha, he'⟩ := Option.map_eq_some_iff.mp hu
        cases he
        cases he'
        obtain ⟨τ, hτ, hτs⟩ := hs
        obtain ⟨ρ, hρ, hρs⟩ := setRandom_signed (hτs ▸ ha)
        rw [length_withSigns hτ] at hρ
        refine List.forall_mem_cons.mpr ⟨⟨τ, hτ, hτs⟩, ?_⟩
        exact ih ⟨ρ, hρ, by rw [← withSigns_withSigns hτ]; exact hρs⟩ hv

theorem Covered.signed (h : (AnySearch.random s).Covered visits) (hs : Signed vs s.assignment) :
    ∀ a ∈ visits, Signed vs a := by
  cases h with
  | whole hv => exact visitsFor_signed hs hv
  | @parts n visits hn hle hv =>
      intro a ha
      obtain ⟨i, hi, ha⟩ := List.mem_flatMap.mp ha
      obtain ⟨draws, part, rest, hp, hv⟩ := hv i (List.mem_range.mp hi)
      have hlt : (Search.getStartAndTodo s.total n i).1 < s.total :=
        Search.getStartAndTodo_lt hn hle (List.mem_range.mp hi)
      rw [splitSearch, if_pos hlt] at hp
      obtain ⟨⟨u, rest'⟩, hu, he⟩ := Option.map_eq_some_iff.mp hp
      obtain ⟨⟨b, rest''⟩, hb, he'⟩ := Option.map_eq_some_iff.mp hu
      cases he
      cases he'
      obtain ⟨τ, hτ, hτs⟩ := hs
      obtain ⟨ρ, hρ, hρs⟩ := setRandom_signed (hτs ▸ hb)
      rw [length_withSigns hτ] at hρ
      exact visitsFor_signed ⟨ρ, hρ, by rw [← withSigns_withSigns hτ]; exact hρs⟩ hv a ha

/-- With draws for `σ` only, it stays at `σ`. -/
theorem visitsFor_drawsFor (hσ : σ.length = vs.length) {m : ℕ} (hm : n ≤ m)
    (hs : s.assignment = withSigns vs σ) :
    ∃ visits, visitsFor n (.random s) (drawsFor σ m) = some visits ∧
      ∀ a ∈ visits, a = withSigns vs σ := by
  induction n generalizing s m with
  | zero => exact ⟨_, rfl, List.forall_mem_singleton.mpr hs⟩
  | succ n ih =>
      rw [visitsFor]
      split
      · exact ⟨_, rfl, List.forall_mem_singleton.mpr hs⟩
      · obtain ⟨m, rfl⟩ : ∃ k, m = k + 1 := ⟨m - 1, by omega⟩
        obtain ⟨visits, hv, hall⟩ :=
          @ih { s with assignment := withSigns vs σ, done := s.done + 1 } m (by omega) rfl
        refine ⟨s.assignment :: visits, ?_, List.forall_mem_cons.mpr ⟨hs, hall⟩⟩
        rw [step, RandomSearch.advance, hs, setRandom_drawsFor hσ hσ]
        simp only [Option.map_some, Option.bind_some, hv, assignment, hs]

end AnySearch

/-- A task with draws for `σ` only meets no other assignment. -/
theorem exists_searchTask_drawsFor (P : Propagator) (F : Cnf) (base : Option LitVec) {vs : LitVec}
    {σ : List Bool} (hσ : σ.length = vs.length) {s : RandomSearch} {m : ℕ}
    (hm : s.total - s.done ≤ m) (hs : s.assignment = withSigns vs σ) :
    ∃ q, searchTask P F base (.random s) (drawsFor σ m) = some q ∧
      ∃ visits, (∀ a ∈ visits, a = withSigns vs σ) ∧ q.Of P F base visits := by
  obtain ⟨visits, hv, hall⟩ := AnySearch.visitsFor_drawsFor hσ hm hs
  change (AnySearch.random s).visits (drawsFor σ m) = some visits at hv
  obtain ⟨q, hq⟩ := exists_searchTask P F base hv
  obtain ⟨visits', hv', hof⟩ := searchTask_spec hq
  cases hv.symm.trans hv'
  exact ⟨q, hq, visits, hall, hof⟩

/-- Nor does a task on a part, which draws for its first assignment too. -/
theorem exists_splitTask_drawsFor (P : Propagator) (F : Cnf) (base : Option LitVec) {vs : LitVec}
    {σ : List Bool} (hσ : σ.length = vs.length) {s : RandomSearch}
    (hs : s.assignment = withSigns vs σ) {n i : ℕ} (hpos : 1 ≤ n) (hle : n ≤ s.total)
    (hi : i < n) :
    ∃ q, (((AnySearch.random s).splitSearch n i (drawsFor σ (s.total + 1))).bind fun r =>
        searchTask P F base r.1 r.2) = some q ∧
      ∃ visits, (∀ a ∈ visits, a = withSigns vs σ) ∧ q.Of P F base visits := by
  have hend := Search.getStartAndTodo_add_le s.total hi
  have hlt : (Search.getStartAndTodo s.total n i).1 < s.total :=
    Search.getStartAndTodo_lt hpos hle hi
  obtain ⟨q, hq, hof⟩ := exists_searchTask_drawsFor P F base hσ
    (s := ⟨(Search.getStartAndTodo s.total n i).2, 0, withSigns vs σ⟩) (m := s.total)
    (by simp only; omega) rfl
  refine ⟨q, ?_, hof⟩
  rw [AnySearch.splitSearch, if_pos hlt, RandomSearch.advance, hs, setRandom_drawsFor hσ hσ]
  exact hq

/-- **A random search may meet one assignment only**, with either engine. -/
theorem Engine.exists_propSearchAny_random (P : Propagator) (F : Cnf) (base : Option LitVec)
    {e : Engine} (he : e.Ready) {vs : LitVec} {σ : List Bool} (hσ : σ.length = vs.length)
    {s : RandomSearch} (hs : s.assignment = withSigns vs σ) :
    ∃ m q visits, e.propSearchAny P F base (.random s) ⟨drawsFor σ m, fun _ => drawsFor σ m⟩ =
      some q ∧ q.Of P F base visits ∧ ∀ a ∈ visits, a = withSigns vs σ := by
  have hm : s.total - s.done ≤ s.total + 1 := by omega
  refine ⟨s.total + 1, ?_⟩
  cases e with
  | simp =>
      obtain ⟨q, hq, visits, hall, hof⟩ := exists_searchTask_drawsFor P F base hσ hm hs
      exact ⟨q, visits, hq, hof, hall⟩
  | par cfg =>
      simp only [propSearchAny]
      split
      · obtain ⟨q, hq, visits, hall, hof⟩ := exists_searchTask_drawsFor P F base hσ hm hs
        exact ⟨q, visits, hq, hof, hall⟩
      · rename_i hsize
        obtain ⟨hpos, hle⟩ := ParProp.numThreads_le he hsize
        have hpart := fun i hi => exists_splitTask_drawsFor P F base hσ hs (i := i) hpos hle hi
        obtain ⟨q, hq⟩ := exists_sumTasks fun i hi => (hpart i hi).imp fun _ h => h.1
        obtain ⟨visits, hall, hof⟩ := sumTasks_spec (fun i hi r hr => by
          obtain ⟨q', hq', hof⟩ := hpart i hi
          cases hq'.symm.trans hr
          exact hof) hq
        refine ⟨q, _, hq, hof, ?_⟩
        intro a ha
        obtain ⟨i, hi, ha⟩ := List.mem_flatMap.mp ha
        exact hall i (List.mem_range.mp hi) a ha

end Parsat
