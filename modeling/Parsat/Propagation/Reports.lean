import Parsat.Propagation.Sequential
import Parsat.Search.Random

/-!
# Propagation — what the callback is told

`Prop::sequential_propagate` with a search of any kind.  The loop is a `do … while`: it evaluates
the assignment the search stands at before it asks for the next one.  `split_search` makes empty
searches where there are more parts than assignments, and an empty search stands at an assignment
too, so the loop evaluates one that does not belong to it.

* `propSearchAny_fixed`: on the searches without draws this is `SimpProp.propSearch`.
* `propSearch_reports_iff`: it evaluates as many assignments as `size()` says, unless the search is
  empty or was advanced before.
-/

namespace Parsat

open Solver

namespace AnySearch

/-- The searches there are: what constructors, `operator++`, `split_search` and `clone` make. -/
inductive Made : AnySearch → Prop
  | single : Made (.fixed .single)
  | full (vars : List ℕ) : Made (.fixed (fullSearch vars))
  | fullMask (view : List ℕ) (mask : List Bool) : Made (.fixed (fullSearchMask view mask))
  | cartesian (set : CartesianSet) : Made (.fixed (cartesianSearch set))
  | random {vars : List ℕ} {total : ℕ} {draws rest : Draws} {s : RandomSearch} :
      randomSearch vars total draws = some (s, rest) → Made (.random s)
  | unique {vars : List ℕ} {total : ℕ} {draws rest : Draws} {s : UniqueSearch} :
      uniqueSearch vars total draws = some (s, rest) → Made (.unique s)
  | step {s t : AnySearch} {draws rest : Draws} : Made s → ¬ s.AtEnd →
      s.step draws = some (t, rest) → Made t
  | split {s t : AnySearch} {numSplit index : ℕ} {draws rest : Draws} : Made s →
      index < numSplit → s.splitSearch numSplit index draws = some (t, rest) → Made t
  | clone {s : AnySearch} : Made s → Made s.clone

variable {s t : AnySearch} {draws rest : Draws} {n : ℕ}

/-- One step counts, and leaves the size as it is. -/
theorem step_eq_some (h : s.step draws = some (t, rest)) :
    t.size = s.size ∧ t.done = s.done + 1 := by
  cases s with
  | fixed s =>
      cases h
      exact ⟨s.advance_total, rfl⟩
  | random s =>
      obtain ⟨q, hq, he⟩ := Option.map_eq_some_iff.mp h
      obtain ⟨r, -, rfl⟩ := Option.map_eq_some_iff.mp hq
      cases he
      exact ⟨rfl, rfl⟩
  | unique s =>
      obtain ⟨q, hq, he⟩ := Option.map_eq_some_iff.mp h
      obtain ⟨r, -, rfl⟩ := Option.map_eq_some_iff.mp hq
      cases he
      exact ⟨rfl, rfl⟩

/-- A part is empty, or at its beginning. -/
theorem splitSearch_eq_some {numSplit index : ℕ} (hi : index < numSplit)
    (h : s.splitSearch numSplit index draws = some (t, rest)) :
    t.size = 0 ∨ 0 < t.size ∧ t.done = 0 := by
  have hpos := fun total (h : (Search.getStartAndTodo total numSplit index).1 < total) =>
    Search.getStartAndTodo_pos_of_lt hi h
  cases s with
  | fixed s =>
      cases h
      simp only [size, done, Search.splitSearch]
      split
      · rename_i hlt
        exact .inr ⟨(Search.reset_total _).symm ▸ hpos _ hlt, Search.reset_done _⟩
      · exact .inl rfl
  | random s =>
      simp only [splitSearch] at h
      split at h
      · rename_i hlt
        obtain ⟨q, hq, he⟩ := Option.map_eq_some_iff.mp h
        obtain ⟨r, -, rfl⟩ := Option.map_eq_some_iff.mp hq
        cases he
        exact .inr ⟨hpos _ hlt, rfl⟩
      · cases h
        exact .inl rfl
  | unique s =>
      simp only [splitSearch] at h
      split at h
      · rename_i hlt
        obtain ⟨q, hq, he⟩ := Option.map_eq_some_iff.mp h
        obtain ⟨r, -, rfl⟩ := Option.map_eq_some_iff.mp hq
        cases he
        exact .inr ⟨hpos _ hlt, rfl⟩
      · cases h
        exact .inl rfl

/-- A search that is not empty stands at one of its assignments. -/
theorem Made.done_lt (h : s.Made) : s.size = 0 ∨ s.done < s.size := by
  have hzero : ∀ {t : AnySearch}, t.done = 0 → t.size = 0 ∨ t.done < t.size := by
    intro t ht
    omega
  induction h with
  | single => exact .inr Nat.one_pos
  | full | fullMask | cartesian => exact hzero rfl
  | random h =>
      obtain ⟨q, -, he⟩ := Option.map_eq_some_iff.mp h
      cases he
      exact hzero rfl
  | unique h =>
      obtain ⟨q, -, he⟩ := Option.map_eq_some_iff.mp h
      cases he
      exact hzero rfl
  | step _ hend hs ih =>
      obtain ⟨h₁, h₂⟩ := step_eq_some hs
      simp only [AtEnd, not_or] at hend
      omega
  | split _ hi hs _ =>
      have := splitSearch_eq_some hi hs
      omega
  | @clone s _ ih =>
      cases s with
      | fixed s =>
          obtain ⟨kind, total, done, first, asg⟩ := s
          -- only the clone of a cartesian search stands at its beginning again
          cases kind with
          | single => exact .inr Nat.one_pos
          | full => exact ih
          | cartesian set is => exact hzero rfl
      | random s => exact ih
      | unique s => exact ih

/-- The visits are what is left of the search; of an empty one, its assignment. -/
theorem length_visitsFor (hd : s.size = 0 ∨ s.done < s.size) (hn : s.size ≤ n + s.done)
    {visits : List LitVec} (h : s.visitsFor n draws = some visits) :
    visits.length = if s.size = 0 then 1 else s.size - s.done := by
  induction n generalizing s draws visits with
  | zero =>
      cases h
      rw [if_pos (by omega)]
      rfl
  | succ n ih =>
      simp only [visitsFor] at h
      split at h
      · rename_i hend
        cases h
        simp only [AtEnd] at hend
        split
        · rfl
        · rw [List.length_singleton]
          omega
      · rename_i hend
        obtain ⟨⟨t, rest⟩, hs, h⟩ := Option.bind_eq_some_iff.mp h
        obtain ⟨visits, hv, rfl⟩ := Option.map_eq_some_iff.mp h
        obtain ⟨h₁, h₂⟩ := step_eq_some hs
        simp only [AtEnd, not_or] at hend
        have ht : t.size ≠ 0 := h₁ ▸ hend.2
        have := ih (show t.size = 0 ∨ t.done < t.size by omega)
          (show t.size ≤ n + t.done by omega) hv
        rw [if_neg ht] at this
        rw [if_neg hend.2, List.length_cons, this]
        omega

end AnySearch

/-! ### The loop -/

/-- The loop of `sequential_propagate`, for at most `n` turns after this one. -/
def reportLoop (P : Propagator) (assemble : LitVec → LitVec) (callback : Option Callback) :
    ℕ → Solver → AnySearch → Draws → Option Propagation
  | n, s, search, draws =>
    let a := assemble search.assignment
    let r := propCheck P s a 0
    let last : Propagation := ⟨(!r.1).toNat, [(!r.1, a)], r.2⟩
    match n with
    | 0 => some last
    | n + 1 =>
      if Stops callback (!r.1) a ∨ search.AtEnd then some last
      else (search.step draws).bind fun q =>
        (reportLoop P assemble callback n r.2 q.1 q.2).map fun p =>
          ⟨last.conflicts + p.conflicts, last.calls ++ p.calls, p.solver⟩

/-- `SimpProp::prop_search` after `load_problem`, with any search. -/
def SimpProp.propSearchAny (P : Propagator) (F : Cnf) (base : Option LitVec) (search : AnySearch)
    (draws : Draws) (callback : Option Callback) : Option Propagation :=
  reportLoop P (assemble base) callback (search.size - search.done) (loadClauses P F empty) search
    draws

variable {P : Propagator} {F : Cnf} {base : Option LitVec} {callback : Option Callback} {s : Solver}
  {search : AnySearch} {draws : Draws} {n : ℕ} {p : Propagation}

/-- **The loop** evaluates what `do … while (++search)` visits, if the callback does not stop it. -/
theorem reportLoop_spec (hs : (loadClauses P F empty).Same s)
    (hcb : ∀ c a, Stops callback c a = false)
    (h : reportLoop P (assemble base) callback n s search draws = some p) :
    ∃ visits, search.visitsFor n draws = some visits ∧
      p.calls = visits.map (report P F base) ∧
      p.conflicts = (visits.map (report P F base)).countP Prod.fst := by
  induction n generalizing s search draws p with
  | zero =>
      obtain ⟨h₁, -⟩ := propCheck_of_same hs (assemble base search.assignment)
      cases h
      refine ⟨_, rfl, ?_, ?_⟩
      · simp [report, h₁]
      · cases hc : conflicts P F (assemble base search.assignment) <;> simp [report, h₁, hc]
  | succ n ih =>
      obtain ⟨h₁, h₂⟩ := propCheck_of_same hs (assemble base search.assignment)
      have hcount : (conflicts P F (assemble base search.assignment)).toNat =
          if conflicts P F (assemble base search.assignment) = true then 1 else 0 := by
        cases conflicts P F (assemble base search.assignment) <;> rfl
      simp only [reportLoop, hcb, Bool.false_eq_true, false_or, h₁, Bool.not_not] at h
      rw [AnySearch.visitsFor]
      split at h
      · rename_i hend
        cases h
        refine ⟨_, if_pos hend, rfl, ?_⟩
        simp [report, hcount]
      · rename_i hend
        obtain ⟨q, hq, h⟩ := Option.bind_eq_some_iff.mp h
        obtain ⟨p', hp', rfl⟩ := Option.map_eq_some_iff.mp h
        obtain ⟨visits, hv, hcalls, hconf⟩ := ih h₂ hp'
        refine ⟨search.assignment :: visits, ?_, ?_, ?_⟩
        · rw [if_neg hend, hq, Option.bind_some, hv, Option.map_some]
        · simp [hcalls, report]
        · rw [List.map_cons, List.countP_cons, ← hconf]
          exact (Nat.add_comm _ _).trans (congrArg (p'.conflicts + ·) hcount)

/-- With enough draws for the visits the loop returns. -/
theorem exists_reportLoop (base : Option LitVec) (callback : Option Callback)
    (hs : (loadClauses P F empty).Same s)
    (hcb : ∀ c a, Stops callback c a = false) {visits : List LitVec}
    (h : search.visitsFor n draws = some visits) :
    ∃ p, reportLoop P (assemble base) callback n s search draws = some p := by
  induction n generalizing s search draws visits with
  | zero => exact ⟨_, rfl⟩
  | succ n ih =>
      obtain ⟨-, h₂⟩ := propCheck_of_same hs (assemble base search.assignment)
      simp only [reportLoop, hcb, Bool.false_eq_true, false_or]
      rw [AnySearch.visitsFor] at h
      split at h
      · rename_i hend
        exact ⟨_, if_pos hend⟩
      · rename_i hend
        obtain ⟨q, hq, h⟩ := Option.bind_eq_some_iff.mp h
        obtain ⟨visits, hv, -⟩ := Option.map_eq_some_iff.mp h
        obtain ⟨p, hp⟩ := ih h₂ hv
        exact ⟨_, by rw [if_neg hend, hq, Option.bind_some, hp, Option.map_some]⟩

/-- The searches without draws. -/
theorem reportLoop_fixed (s : Solver) (search : Search) (draws : Draws) :
    reportLoop P (assemble base) callback n s (.fixed search) draws =
      some (sequentialLoop P (assemble base) callback n s search) := by
  induction n generalizing s search draws with
  | zero => rfl
  | succ n ih =>
      have hnext : search.next = if (AnySearch.fixed search).AtEnd then none
        else some { search.advance with done := search.done + 1 } := rfl
      rw [reportLoop, sequentialLoop]
      simp only [turn, hnext, AnySearch.assignment, AnySearch.step, Option.bind_some, ih]
      by_cases hstop : Stops callback (!(propCheck P s (assemble base search.assignment) 0).1)
          (assemble base search.assignment) = true
      · simp [hstop, Turn.last]
      · by_cases hend : (AnySearch.fixed search).AtEnd
        · simp [hstop, hend, Turn.last]
        · simp only [if_neg (not_or.mpr ⟨hstop, hend⟩), if_neg hstop, if_neg hend]
          rfl

theorem propSearchAny_fixed (P : Propagator) (F : Cnf) (base : Option LitVec) (search : Search)
    (draws : Draws) (callback : Option Callback) :
    SimpProp.propSearchAny P F base (.fixed search) draws callback =
      some (SimpProp.propSearch P F base search callback) :=
  reportLoop_fixed _ search draws

/-- **What is reported.**  With a callback that never returns `false`, `prop_search` evaluates what
the search visits and counts the conflicts.  These are `size()` assignments exactly if the search is
not empty and stands at its beginning. -/
theorem propSearch_reports_iff (P : Propagator) (F : Cnf) (base : Option LitVec) (f : Callback)
    (hf : ∀ c a, f c a ≠ some false) (search : AnySearch) (hsearch : search.Made) (draws : Draws)
    (p : Propagation) (hp : SimpProp.propSearchAny P F base search draws (some f) = some p) :
    (∃ visits, search.visits draws = some visits ∧ p.calls = visits.map (report P F base)) ∧
    ((p.calls.length = search.size ∧
        p.conflicts = p.calls.countP fun call => conflicts P F call.2) ↔
      search.size ≠ 0 ∧ search.done = 0) := by
  have hcb : ∀ c a, Stops (some f) c a = false := fun c a => by simp [Stops, hf c a]
  obtain ⟨visits, hv, hcalls, hconf⟩ := reportLoop_spec (.refl _) hcb hp
  have hd := hsearch.done_lt
  have hlen := AnySearch.length_visitsFor hd (by omega) hv
  have hcount : p.conflicts = p.calls.countP fun call => conflicts P F call.2 := by
    rw [hconf, hcalls, List.countP_map, List.countP_map]
    rfl
  refine ⟨⟨visits, hv, hcalls⟩, ?_⟩
  rw [and_iff_left hcount, hcalls, List.length_map, hlen]
  split
  · omega
  · omega

/-- Two assignments in three parts: the loop over the third part, which is empty, evaluates the
first assignment and counts its conflict. -/
theorem propSearch_reports_empty :
    let search := (fullSearch [0]).splitSearch 3 2
    search.isEmpty = true ∧
    (SimpProp.propSearchAny .saturating [[mkLit 0 false]] (some [mkLit 0 true]) (.fixed search) []
      (some fun _ _ => some true)).map (fun p => (p.calls, p.conflicts)) =
        some ([(true, [mkLit 0 true, mkLit 0 false])], 1) := by
  decide +kernel

/-- The second of them is evaluated alone. -/
theorem propSearch_reports_second :
    ∃ p, SimpProp.propSearchAny .saturating [[mkLit 0 false]] (some [mkLit 0 true])
      (.fixed ((fullSearch [0]).splitSearch 3 1)) [] (some fun _ _ => none) = some p ∧
        p.calls.length = 1 := by
  have hsome : (SimpProp.propSearchAny .saturating [[mkLit 0 false]] (some [mkLit 0 true])
      (.fixed ((fullSearch [0]).splitSearch 3 1)) [] (some fun _ _ => none)).isSome = true := by
    decide +kernel
  obtain ⟨p, hp⟩ := Option.isSome_iff_exists.mp hsome
  have hmade : AnySearch.Made (.fixed ((fullSearch [0]).splitSearch 3 1)) :=
    .split (.full [0]) (by decide : 1 < 3) (rfl : AnySearch.splitSearch 3 1 [] _ = some (_, []))
  refine ⟨p, hp, ?_⟩
  exact ((propSearch_reports_iff _ _ _ _ (by simp) _ hmade [] p hp).2.mpr (by decide)).1

end Parsat
