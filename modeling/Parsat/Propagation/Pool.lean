import Mathlib.Data.List.Count
import Mathlib.Data.List.Flatten
import Parsat.Library.Machine
import Parsat.Propagation.Sequential

/-!
# Propagation — the worker pool

`ParProp::prop_search` splits a search into tasks and hands them to a `WorkerPool`, whose threads
each own a solver loaded with the problem.  The machine below interleaves the caller, which submits
the tasks and waits for their futures, with the workers, which take tasks from the queue and run
`sequential_propagate` on them one turn at a time.

`Pool.Inv` is the invariant: what was reported and what is still to be evaluated make up what the
sequential engine reports, and the counts of the workers are the conflicts reported so far.  With a
measure for termination and `Pool.progress` it gives `parProp_propSearch_eq`: under every schedule
the pool returns, with the count and the calls of `SimpProp`.

The lists of a cartesian set must be `Uniform` for this.  `parProp_propSearch_ragged` is a run on a
set with a shorter vector, whose end is left over from another entry than in the sequential run.
-/

namespace Parsat

open Solver

/-- `ParPropConfig`. -/
structure ParPropConfig where
  maxThreads : UInt32
  seqSplitSamples : UInt32
  treeSplitVars : UInt32

/-- The searches of the tasks `_prop_search` submits. -/
def ParProp.tasks (cfg : ParPropConfig) (search : Search) : List Search :=
  if search.total ≤ cfg.seqSplitSamples.toNat then [search]
  else
    let numThreads :=
      min (search.total / cfg.seqSplitSamples.toNat) cfg.maxThreads.toNat % 2 ^ 32
    (List.range numThreads).map (search.splitSearch numThreads)

namespace ParProp

/-- A task on a worker: where its search stands and the conflicts so far. -/
structure Job where
  search : Search
  conflicts : ℕ

/-- A thread of the pool with the solver it owns. -/
structure Worker where
  solver : Solver
  job : Option Job

/-- One call of `_prop_search`: the tasks the caller has not submitted yet, the queue, the workers,
the values of the futures that are ready, the calls of the callback, and the result. -/
structure Pool where
  pending : List Search
  queue : List Search
  workers : List Worker
  finished : List ℕ
  calls : List (Bool × LitVec)
  result : Option ℕ

inductive Action where
  | submit
  | take (worker : ℕ)
  | work (worker : ℕ)
  | collect

/-- The pool when `_prop_search` is called. -/
def start (P : Propagator) (F : Cnf) (cfg : ParPropConfig) (search : Search) : Pool where
  pending := tasks cfg search
  queue := []
  workers := List.replicate cfg.maxThreads.toNat ⟨loadClauses P F empty, none⟩
  finished := []
  calls := []
  result := none

section Step

variable (P : Propagator) (base : Option LitVec) (callback : Option Callback) (numTasks : ℕ)

/-- One turn of the loop on a worker. -/
def workStep (t : Pool) (w : ℕ) (solver : Solver) (job : Job) : Pool :=
  let r := turn P (assemble base) callback solver job.search
  let conflicts := job.conflicts + r.conflict.toNat
  match r.next with
  | some search =>
    { t with
      workers := t.workers.set w ⟨r.solver, some ⟨search, conflicts⟩⟩
      calls := t.calls ++ [(r.conflict, r.assumption)] }
  | none =>
    { t with
      workers := t.workers.set w ⟨r.solver, none⟩
      calls := t.calls ++ [(r.conflict, r.assumption)]
      finished := t.finished ++ [conflicts] }

/-- One step: the caller submits a task or, with all futures ready, sums them up; a worker takes a
task from the queue or makes a turn. -/
def step (t : Pool) : Action → Option Pool
  | .submit =>
    match t.pending with
    | [] => none
    | s :: pending => some { t with pending, queue := t.queue ++ [s] }
  | .take w =>
    match t.workers[w]?, t.queue with
    | some ⟨solver, none⟩, s :: queue =>
      some { t with queue, workers := t.workers.set w ⟨solver, some ⟨s, 0⟩⟩ }
    | _, _ => none
  | .work w =>
    match t.workers[w]? with
    | some ⟨solver, some job⟩ => some (workStep P base callback t w solver job)
    | _ => none
  | .collect =>
    if t.result = none ∧ t.finished.length = numTasks then
      some { t with result := some t.finished.sum }
    else none

end Step

/-! ### The invariant -/

/-- The assignments a worker still has to evaluate. -/
def Worker.left (w : Worker) : List LitVec :=
  match w.job with
  | none => []
  | some job => job.search.visits

/-- The conflicts a worker has counted in its unfinished task. -/
def Worker.count (w : Worker) : ℕ :=
  match w.job with
  | none => 0
  | some job => job.conflicts

/-- Whether a worker runs a task, as a number. -/
def Worker.busy (w : Worker) : ℕ :=
  match w.job with
  | none => 0
  | some _ => 1

/-- The assignments nobody has evaluated yet. -/
def Pool.left (t : Pool) : List LitVec :=
  t.workers.flatMap Worker.left ++ t.queue.flatMap Search.visits ++ t.pending.flatMap Search.visits

/-- A worker is usable: its solver is loaded with `F`, and its search has a position to go. -/
structure Worker.Ok (P : Propagator) (F : Cnf) (w : Worker) : Prop where
  solver : (loadClauses P F empty).Same w.solver
  live : ∀ job, w.job = some job → job.search.Live

/-- The bookkeeping of a call that has to report `all` with `numTasks` tasks on `threads`
workers. -/
structure Pool.Inv (P : Propagator) (F : Cnf) (base : Option LitVec) (all : List (Bool × LitVec))
    (numTasks threads : ℕ) (t : Pool) : Prop where
  length_workers : t.workers.length = threads
  workers : ∀ w ∈ t.workers, w.Ok P F
  queue : ∀ s ∈ t.queue, s.Live
  pending : ∀ s ∈ t.pending, s.Live
  reports : (t.calls ++ t.left.map (report P F base)).Perm all
  counts : t.finished.sum + (t.workers.map Worker.count).sum = t.calls.countP Prod.fst
  tasks : t.finished.length + (t.workers.map Worker.busy).sum + t.queue.length +
    t.pending.length = numTasks
  result : ∀ r, t.result = some r → r = t.finished.sum ∧ t.finished.length = numTasks

section Inv

variable {P : Propagator} {F : Cnf} {base : Option LitVec} {callback : Option Callback}
  {all : List (Bool × LitVec)} {numTasks threads : ℕ} {t t' : Pool}

theorem Pool.Inv.submit (h : t.Inv P F base all numTasks threads)
    (hs : step P base callback numTasks t .submit = some t') :
    t'.Inv P F base all numTasks threads := by
  simp only [step] at hs
  cases hp : t.pending with
  | nil => rw [hp] at hs; cases hs
  | cons s pending =>
      rw [hp] at hs
      cases hs
      have hpend := hp ▸ h.pending
      obtain ⟨hl, hrest⟩ := List.forall_mem_cons.mp hpend
      refine { h with queue := ?_, pending := hrest, reports := ?_, tasks := ?_ }
      · intro x hx
        rcases List.mem_append.mp hx with hx | hx
        · exact h.queue x hx
        · exact List.mem_singleton.mp hx ▸ hl
      · have hr := h.reports
        simp only [Pool.left, hp] at hr ⊢
        simpa [List.flatMap_append] using hr
      · have ht := h.tasks
        simp only [hp, List.length_cons, List.length_append, List.length_nil] at ht ⊢
        omega

/-- **A step of one worker**: what it reports, counts and finishes is what it and the queue lose. -/
theorem Pool.Inv.worker (h : t.Inv P F base all numTasks threads) {w : ℕ} {old : Worker}
    {queue : List Search} (new : Worker) (calls : List (Bool × LitVec)) (finished : List ℕ)
    (hw : t.workers[w]? = some old) (hnew : new.Ok P F) (hqueue : ∀ s ∈ queue, s.Live)
    (hreports : (calls ++ (new.left ++ queue.flatMap Search.visits).map (report P F base)).Perm
      ((old.left ++ t.queue.flatMap Search.visits).map (report P F base)))
    (hcounts : finished.sum + new.count = old.count + calls.countP Prod.fst)
    (htasks : finished.length + new.busy + queue.length = old.busy + t.queue.length)
    (hfinished : finished = [] ∨ 1 ≤ old.busy) :
    Pool.Inv P F base all numTasks threads { t with
      queue
      workers := t.workers.set w new
      calls := t.calls ++ calls
      finished := t.finished ++ finished } := by
  have hcount := Machine.sum_map_set hw Worker.count new
  have hbusy := Machine.sum_map_set hw Worker.busy new
  have hlive := (Machine.flatMap_set_perm hw Worker.left new).map (report P F base)
  refine ⟨(List.length_set ..).trans h.length_workers, ?_, hqueue, h.pending, ?_, ?_, ?_, ?_⟩
  · intro v hv
    rcases List.mem_or_eq_of_mem_set hv with hv | rfl
    · exact h.workers v hv
    · exact hnew
  · -- what is no longer left was reported, each assignment once
    refine List.Perm.trans ?_ h.reports
    rw [List.perm_iff_count] at hreports hlive ⊢
    intro x
    have hreports := hreports x
    have hlive := hlive x
    simp only [Pool.left, List.map_append, List.count_append] at hreports hlive ⊢
    omega
  · have := h.counts
    simp only [List.sum_append, List.countP_append]
    omega
  · have := h.tasks
    simp only [List.length_append]
    omega
  · intro r hr
    obtain ⟨hsum, hlen⟩ := h.result r hr
    rcases hfinished with rfl | hold
    · exact ⟨by rw [List.append_nil]; exact hsum, by rw [List.append_nil]; exact hlen⟩
    · -- with a result every task is finished, so no worker can be running one
      have htasks := h.tasks
      have hpos : 1 ≤ (t.workers.map Worker.busy).sum :=
        hold.trans (List.single_le_sum (by simp) _
          (List.mem_map_of_mem (List.mem_of_getElem? hw)))
      omega

theorem Pool.Inv.take {w : ℕ} (h : t.Inv P F base all numTasks threads)
    (hs : step P base callback numTasks t (.take w) = some t') :
    t'.Inv P F base all numTasks threads := by
  simp only [step] at hs
  split at hs
  swap
  · cases hs
  rename_i solver s queue hw hq
  cases hs
  have hok := h.workers _ (List.mem_of_getElem? hw)
  obtain ⟨hlive, hrest⟩ := List.forall_mem_cons.mp (hq ▸ h.queue)
  have := h.worker ⟨solver, some ⟨s, 0⟩⟩ [] [] hw
    ⟨hok.solver, ?_⟩ hrest ?_ rfl ?_ (.inl rfl)
  · simpa using this
  · rintro _ ⟨⟩
    exact hlive
  · simp [hq, Worker.left]
  · simp [hq, Worker.busy]
    omega

theorem Pool.Inv.work {w : ℕ} (h : t.Inv P F base all numTasks threads)
    (hcb : ∀ c a, Stops callback c a = false)
    (hs : step P base callback numTasks t (.work w) = some t') :
    t'.Inv P F base all numTasks threads := by
  simp only [step] at hs
  split at hs
  swap
  · cases hs
  rename_i solver job hw
  cases hs
  have hok := h.workers _ (List.mem_of_getElem? hw)
  have hsolver : (loadClauses P F empty).Same solver := hok.solver
  have hlive := hok.live job rfl
  obtain ⟨h₁, h₂, h₃⟩ := turn_spec base job.search hsolver hcb
  have hvisits := hlive.visits_eq
  simp only [workStep]
  set r := turn P (assemble base) callback solver job.search
  have hcount : r.conflict.toNat = [(r.conflict, r.assumption)].countP Prod.fst := by
    cases r.conflict <;> rfl
  rw [h₃]
  cases hnext : job.search.next with
  | some search =>
      rw [hnext] at hvisits
      have := h.worker ⟨r.solver, some ⟨search, job.conflicts + r.conflict.toNat⟩⟩
        [(r.conflict, r.assumption)] [] hw ⟨h₂, ?_⟩ h.queue ?_ ?_ ?_
        (.inl rfl)
      · simpa using this
      · rintro _ ⟨⟩
        exact hlive.next hnext
      · simp [Worker.left, hvisits, h₁]
      · simp only [Worker.count, List.sum_nil, hcount]
        omega
      · simp [Worker.busy]
  | none =>
      rw [hnext] at hvisits
      refine h.worker ⟨r.solver, none⟩ [(r.conflict, r.assumption)]
        [job.conflicts + r.conflict.toNat] hw ⟨h₂, fun _ hj => by cases hj⟩ h.queue
        ?_ ?_ ?_ (.inr le_rfl)
      · simp [Worker.left, hvisits, h₁]
      · simp only [Worker.count, List.sum_singleton, hcount]
        omega
      · simp [Worker.busy]

/-- **Every step keeps the bookkeeping.** -/
theorem Pool.Inv.step (h : t.Inv P F base all numTasks threads)
    (hcb : ∀ c a, Stops callback c a = false) {a : Action}
    (hs : ParProp.step P base callback numTasks t a = some t') :
    t'.Inv P F base all numTasks threads := by
  cases a with
  | submit => exact h.submit hs
  | take w => exact h.take hs
  | work w => exact h.work hcb hs
  | collect =>
      simp only [ParProp.step] at hs
      split at hs
      · rename_i hc
        cases hs
        refine { h with result := ?_ }
        intro r hr
        cases hr
        exact ⟨rfl, hc.2⟩
      · cases hs

/-! ### Every schedule ends -/

/-- What is left to do: two steps to get a task to a worker, one for each turn, one to collect. -/
def Pool.work (t : Pool) : ℕ :=
  (t.workers.map fun w => w.left.length).sum + (t.queue.map fun s => s.visits.length + 1).sum +
    (t.pending.map fun s => s.visits.length + 2).sum + if t.result = none then 1 else 0

theorem Pool.Inv.work_lt (h : t.Inv P F base all numTasks threads)
    (hcb : ∀ c a, Stops callback c a = false) {a : Action}
    (hs : ParProp.step P base callback numTasks t a = some t') : t'.work < t.work := by
  cases a with
  | submit =>
      simp only [ParProp.step] at hs
      cases hp : t.pending with
      | nil => rw [hp] at hs; cases hs
      | cons s pending =>
          rw [hp] at hs
          cases hs
          simp only [Pool.work, hp, List.map_append, List.map_cons, List.map_nil, List.sum_append,
            List.sum_cons, List.sum_nil]
          omega
  | take w =>
      simp only [ParProp.step] at hs
      split at hs
      swap
      · cases hs
      rename_i solver s queue hw hq
      cases hs
      have hset := Machine.sum_map_set hw (fun v => v.left.length) ⟨solver, some ⟨s, 0⟩⟩
      simp only [Pool.work, hq, List.map_cons, List.sum_cons, Worker.left,
        List.length_nil] at hset ⊢
      omega
  | work w =>
      simp only [ParProp.step] at hs
      split at hs
      swap
      · cases hs
      rename_i solver job hw
      cases hs
      have hok := h.workers _ (List.mem_of_getElem? hw)
      have hsolver : (loadClauses P F empty).Same solver := hok.solver
      obtain ⟨-, -, h₃⟩ := turn_spec base job.search hsolver hcb
      have hvisits := (hok.live job rfl).visits_eq
      have hset := Machine.sum_map_set hw fun v => v.left.length
      simp only [workStep]
      set r := turn P (assemble base) callback solver job.search
      rw [h₃]
      cases hnext : job.search.next with
      | some search =>
          rw [hnext] at hvisits
          have hset := hset ⟨r.solver, some ⟨search, job.conflicts + r.conflict.toNat⟩⟩
          simp only [Pool.work, Worker.left, hvisits, List.length_cons] at hset ⊢
          omega
      | none =>
          rw [hnext] at hvisits
          have hset := hset ⟨r.solver, none⟩
          simp only [Pool.work, Worker.left, hvisits, List.length_cons, List.length_nil] at hset ⊢
          omega
  | collect =>
      simp only [ParProp.step] at hs
      split at hs
      · rename_i hc
        cases hs
        simp [Pool.work, hc.1]
      · cases hs

theorem sum_busy_pos {ws : List Worker} (h : 0 < (ws.map Worker.busy).sum) :
    ∃ (w : ℕ) (solver : Solver) (job : Job), ws[w]? = some ⟨solver, some job⟩ := by
  induction ws with
  | nil => simp at h
  | cons x ws ih =>
      obtain ⟨solver, _ | job⟩ := x
      · obtain ⟨w, hw⟩ := ih (by simpa [Worker.busy] using h)
        exact ⟨w + 1, hw⟩
      · exact ⟨0, solver, job, rfl⟩

/-- **Progress**: until the call returns, somebody can make a step. -/
theorem Pool.Inv.progress (h : t.Inv P F base all numTasks threads) (ht : 0 < threads)
    (hr : t.result = none) : ∃ a, (ParProp.step P base callback numTasks t a).isSome := by
  by_cases hp : t.pending = []
  swap
  · obtain ⟨s, pending, hp⟩ := List.exists_cons_of_ne_nil hp
    exact ⟨.submit, by simp [ParProp.step, hp]⟩
  by_cases hb : (t.workers.map Worker.busy).sum = 0
  swap
  · obtain ⟨w, solver, job, hw⟩ := sum_busy_pos (Nat.pos_of_ne_zero hb)
    exact ⟨.work w, by simp [ParProp.step, hw]⟩
  by_cases hq : t.queue = []
  · -- nobody is busy and nothing waits, so every task is finished
    have htasks := h.tasks
    rw [hp, hq, hb] at htasks
    exact ⟨.collect, by simp [ParProp.step, hr, ← htasks]⟩
  · obtain ⟨s, queue, hq⟩ := List.exists_cons_of_ne_nil hq
    have hlen := h.length_workers
    obtain ⟨⟨solver, job⟩, ws, hws⟩ :=
      List.exists_cons_of_length_pos (by omega : 0 < t.workers.length)
    have : job = none := by
      cases job with
      | none => rfl
      | some job =>
          rw [hws] at hb
          simp [Worker.busy] at hb
    subst this
    exact ⟨.take 0, by simp [ParProp.step, hws, hq]⟩

/-- What a call that returns has reported. -/
theorem Pool.Inv.returned (h : t.Inv P F base all numTasks threads) {r : ℕ}
    (hr : t.result = some r) : t.calls.Perm all ∧ r = all.countP Prod.fst := by
  obtain ⟨rfl, hlen⟩ := h.result r hr
  have htasks := h.tasks
  -- every task is finished, so none is anywhere else
  have hbusy : (t.workers.map Worker.busy).sum = 0 := by omega
  have hidle : ∀ w ∈ t.workers, w.job = none := by
    intro w hw
    have := List.sum_eq_zero_iff.mp hbusy _ (List.mem_map_of_mem hw)
    obtain ⟨solver, _ | job⟩ := w
    · rfl
    · simp [Worker.busy] at this
  have hq : t.queue = [] := List.length_eq_zero_iff.mp (by omega)
  have hp : t.pending = [] := List.length_eq_zero_iff.mp (by omega)
  have hleft : t.left = [] := by
    simp only [Pool.left, hq, hp, List.flatMap_nil, List.append_nil, List.flatMap_eq_nil_iff]
    intro w hw
    simp [Worker.left, hidle w hw]
  have hperm : t.calls.Perm all := by simpa [hleft] using h.reports
  refine ⟨hperm, ?_⟩
  have hcount : (t.workers.map Worker.count).sum = 0 :=
    List.sum_eq_zero_iff.mpr fun n hn => by
      obtain ⟨w, hw, rfl⟩ := List.mem_map.mp hn
      simp [Worker.count, hidle w hw]
  rw [← hperm.countP_eq, ← h.counts, hcount, Nat.add_zero]

end Inv

/-! ### The tasks -/

theorem tasks_spec {cfg : ParPropConfig} {search : Search} (hs : search.Fresh)
    (hthreads : 1 ≤ cfg.maxThreads.toNat) (hseq : 1 ≤ cfg.seqSplitSamples.toNat) :
    (∀ s ∈ tasks cfg search, s.Live) ∧
      (tasks cfg search).flatMap Search.visits = search.visits := by
  obtain ⟨hpos, hd, ht⟩ := hs.start
  simp only [tasks]
  split
  · exact ⟨by simpa [Search.Live, hd] using ht, by simp⟩
  · rename_i hlt
    set n := min (search.total / cfg.seqSplitSamples.toNat) cfg.maxThreads.toNat with hn
    have hdiv : 1 ≤ search.total / cfg.seqSplitSamples.toNat :=
      (Nat.one_le_div_iff (by omega)).mpr (by omega)
    have hle : search.total / cfg.seqSplitSamples.toNat ≤ search.total := Nat.div_le_self _ _
    -- `max_threads` has 32 bits, so the number of parts is not cut
    have hmod : n % 2 ^ 32 = n := Nat.mod_eq_of_lt
      (lt_of_le_of_lt (min_le_right _ _) cfg.maxThreads.toNat_lt)
    have hn₀ : 0 < n := by omega
    have hn₁ : n ≤ search.total := by omega
    rw [hmod]
    refine ⟨?_, ?_⟩
    · intro s hs'
      obtain ⟨i, hi, rfl⟩ := List.mem_map.mp hs'
      exact hs.live_split hn₀ hn₁ (List.mem_range.mp hi)
    · rw [List.flatMap_def, List.map_map]
      exact hs.flatten_visits_split hn₀ hn₁

theorem inv_start (P : Propagator) (F : Cnf) (base : Option LitVec) {cfg : ParPropConfig}
    {search : Search} (hs : search.Fresh) (hthreads : 1 ≤ cfg.maxThreads.toNat)
    (hseq : 1 ≤ cfg.seqSplitSamples.toNat) :
    (start P F cfg search).Inv P F base (search.visits.map (report P F base))
      (tasks cfg search).length cfg.maxThreads.toNat := by
  obtain ⟨hlive, hvisits⟩ := tasks_spec hs hthreads hseq
  refine ⟨by simp [start], ?_, by simp [start], hlive, ?_, ?_, ?_, by simp [start]⟩
  · intro w hw
    obtain rfl := List.eq_of_mem_replicate hw
    exact ⟨.refl _, fun job hj => by cases hj⟩
  · simp [start, Pool.left, Worker.left, hvisits, List.flatMap_replicate]
  · simp [start, Worker.count]
  · simp [start, Worker.busy]

end ParProp

open ParProp in
/-- **The pool does what one solver does.**  For a fresh search, a callback that never returns
`false` and every schedule: the runs of the pool are bounded, no run gets stuck before the call
returns, and a call that has returned has the count of `SimpProp` and has reported the same
assumptions with the same outcomes, each as often as the search enumerates it. -/
theorem parProp_propSearch_eq (P : Propagator) (F : Cnf) (cfg : ParPropConfig) (search : Search)
    (base : Option LitVec) (callback : Option Callback) (hs : search.Fresh)
    (hthreads : 1 ≤ cfg.maxThreads.toNat) (hseq : 1 ≤ cfg.seqSplitSamples.toNat)
    (hcb : ∀ c a, Stops callback c a = false) :
    let r := SimpProp.propSearch P F base search callback
    let next := ParProp.step P base callback (tasks cfg search).length
    r.calls = ((List.range search.total).map search.entry).map (report P F base) ∧
    (∃ bound, ∀ as t, Machine.exec next (start P F cfg search) as = some t → as.length ≤ bound) ∧
    ∀ as t, Machine.exec next (start P F cfg search) as = some t →
      (t.result = none → ∃ a, (next t a).isSome) ∧
      ∀ n, t.result = some n → n = r.conflicts ∧ t.calls.Perm r.calls := by
  intro r next
  obtain ⟨-, hd, ht⟩ := hs.start
  have hlive : search.Live := by simpa [Search.Live, hd] using ht
  obtain ⟨hcalls, hconflicts⟩ :=
    sequentialPropagate_spec base (.refl (loadClauses P F empty)) hlive hcb
  have h₀ := inv_start P F base hs hthreads hseq
  have hstep := fun t a t' (h : Pool.Inv P F base (search.visits.map (report P F base))
    (tasks cfg search).length cfg.maxThreads.toNat t) (hs : next t a = some t') => h.step hcb hs
  refine ⟨by rw [← hs.visits]; exact hcalls, ⟨(start P F cfg search).work, ?_⟩,
    ?_⟩
  · intro as t h
    have := Machine.exec_length_le hstep (fun t a t' h hs => h.work_lt hcb hs) h₀ h
    omega
  · intro as t h
    have hinv := Machine.exec_invariant hstep h₀ h
    refine ⟨fun hr => hinv.progress hthreads hr, ?_⟩
    intro n hn
    obtain ⟨hp, hc⟩ := hinv.returned hn
    exact ⟨hc.trans hconflicts.symm, hp.trans (.of_eq hcalls.symm)⟩

open ParProp in
/-- Under `(¬0 ∨ 1) ∧ (¬0 ∨ ¬1)` two workers find the two conflicts among the assignments of
`0, 1`. -/
theorem parProp_propSearch_eq_two : ∃ as t,
    Machine.exec (ParProp.step .saturating none none (tasks ⟨2, 1, 0⟩ (fullSearch [0, 1])).length)
      (start .saturating [[mkLit 0 true, mkLit 1 false], [mkLit 0 true, mkLit 1 true]] ⟨2, 1, 0⟩
        (fullSearch [0, 1])) as = some t ∧
    t.result = some 2 ∧ t.calls.Perm (SimpProp.propSearch .saturating
      [[mkLit 0 true, mkLit 1 false], [mkLit 0 true, mkLit 1 true]] none (fullSearch [0, 1])
      none).calls := by
  have hrun : (Machine.exec (ParProp.step .saturating none none
      (tasks ⟨2, 1, 0⟩ (fullSearch [0, 1])).length)
      (start .saturating [[mkLit 0 true, mkLit 1 false], [mkLit 0 true, mkLit 1 true]] ⟨2, 1, 0⟩
        (fullSearch [0, 1]))
      [.submit, .submit, .take 0, .take 1, .work 1, .work 0, .work 0, .work 1, .collect]).any
        (fun t => t.result = some 2) = true := by
    decide +kernel
  obtain ⟨t, ht, hr⟩ := Machine.exists_run hrun
  have hresult := of_decide_eq_true hr
  obtain ⟨-, -, hall⟩ := parProp_propSearch_eq .saturating
    [[mkLit 0 true, mkLit 1 false], [mkLit 0 true, mkLit 1 true]] ⟨2, 1, 0⟩ (fullSearch [0, 1])
    none none (.full (by decide)) (by decide) (by decide) (fun _ _ => rfl)
  exact ⟨_, t, ht, hresult, ((hall _ t ht).2 2 hresult).2⟩

/-- A list whose last vector is shorter than the first. -/
def raggedSet : CartesianSet :=
  [[[mkLit 0 false, mkLit 1 false], [mkLit 2 false, mkLit 3 false], [mkLit 4 false]]]

open ParProp in
/-- Three workers on `raggedSet`: behind the short vector the third one still has the end of the
first vector, with which its clone was built, and the sequential run that of the second. -/
theorem parProp_propSearch_ragged : ∃ as t n,
    Machine.exec (ParProp.step .saturating none none
      (tasks ⟨3, 1, 0⟩ (cartesianSearch raggedSet)).length)
      (start .saturating [] ⟨3, 1, 0⟩ (cartesianSearch raggedSet)) as = some t ∧
    t.result = some n ∧
    ¬ t.calls.Perm (SimpProp.propSearch .saturating [] none (cartesianSearch raggedSet) none).calls
    := by
  have hrun : ((Machine.exec (ParProp.step .saturating none none
      (tasks ⟨3, 1, 0⟩ (cartesianSearch raggedSet)).length)
      (start .saturating [] ⟨3, 1, 0⟩ (cartesianSearch raggedSet))
      [.submit, .submit, .submit, .take 0, .take 1, .take 2, .work 0, .work 1, .work 2,
        .collect]).any fun t => t.result = some 0 ∧ ¬ t.calls.Perm
          (SimpProp.propSearch .saturating [] none (cartesianSearch raggedSet) none).calls) =
        true := by
    decide +kernel
  obtain ⟨t, ht, hp⟩ := Machine.exists_run hrun
  simp only [decide_eq_true_eq] at hp
  exact ⟨_, t, 0, ht, hp.1, hp.2⟩

end Parsat
