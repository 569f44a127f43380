import Mathlib.Data.List.Perm.Basic
import Parsat.Library.Machine
import Parsat.Sat.Problem

/-!
# Solve — a batch of tasks on the solver service

`ReduceSolve::_solve_final` and `RecurringReduceSolve::_filter_fast` submit one task for each
assumption to the `SequentialSolverService` and wait for the futures.  A worker takes a task from
the queue, calls its solver and hands the answer to a callback, which sets the flags the verdict is
made of.  `interrupt()` of the service clears the queue; it is called by the callback of a `SAT`
answer and by `interrupt()` of the solve.

A future is ready when its task has ended in any way: with a value, with an exception that
`solver.solve` threw, or because the task was removed from the queue.  `wait_for_futures` waits and
does not look.  So a task that threw leaves no trace in the flags, and `batch_verdict_iff` says
exactly when this matters.

* `Batch.Inv`: each task is in one place, and the flags are what the outcomes so far make them.
* `batch_verdict_iff`: when the verdicts of the two functions are right about the outcomes.
-/

namespace Parsat

/-- What `solver.solve` returns; `SAT` comes with `get_model()`. -/
inductive Answer where
  | SAT (model : Model)
  | UNSAT
  | UNKNOWN

/-- How a task ended. -/
inductive Outcome where
  | answered (answer : Answer)
  | threw
  | dropped

namespace Outcome

def sat : Outcome → Bool
  | .answered (.SAT _) => true
  | _ => false

def unsat : Outcome → Bool
  | .answered .UNSAT => true
  | _ => false

def unknown : Outcome → Bool
  | .answered .UNKNOWN => true
  | _ => false

def thrown : Outcome → Bool
  | .threw => true
  | _ => false

end Outcome

/-- A task, with its place in the list of assumptions. -/
structure Task where
  index : ℕ
  assumption : LitVec

/-- A thread of the service: without a task, in `solver.solve`, about to call the callback, or in
the callback of a `SAT` answer, about to interrupt the service. -/
inductive ServiceWorker where
  | idle
  | solving (task : Task)
  | calling (task : Task) (answer : Answer)
  | interrupting (task : Task) (model : Model)

/-- One call of `_solve_final` or `_filter_fast`.  `clearing` is set while `interrupt()` of the
solve has set the flag and not yet cleared the queue. -/
structure Batch where
  pending : List Task
  queue : List Task
  workers : List ServiceWorker
  done : List (Task × Outcome)
  satisfied : Bool
  unknown : Bool
  failed : List LitVec
  model : Option Model
  interrupted : Bool
  clearing : Bool

namespace Batch

inductive Action where
  | submit
  | dequeue (worker : ℕ)
  | answer (worker : ℕ) (answer : Answer)
  | throw (worker : ℕ)
  | callback (worker : ℕ)
  | clearQueue (worker : ℕ)
  | interrupt
  | clearInterrupt

/-- The assumptions as tasks. -/
def tasksOf (assumptions : List LitVec) : List Task :=
  assumptions.mapIdx fun i a => ⟨i, a⟩

def start (assumptions : List LitVec) (threads : ℕ) : Batch where
  pending := tasksOf assumptions
  queue := []
  workers := List.replicate threads .idle
  done := []
  satisfied := false
  unknown := false
  failed := []
  model := none
  interrupted := false
  clearing := false

/-- `_task_queue = {}`: the promises of the tasks are broken. -/
def dropQueue (t : Batch) : Batch :=
  { t with queue := [], done := t.done ++ t.queue.map fun x => (x, .dropped) }

/-- The callback both functions pass to the service. -/
def runCallback (t : Batch) (w : ℕ) (x : Task) : Answer → Batch
  | .UNSAT =>
    { t with
      workers := t.workers.set w .idle
      done := t.done ++ [(x, .answered .UNSAT)] }
  | .UNKNOWN =>
    { t with
      workers := t.workers.set w .idle
      done := t.done ++ [(x, .answered .UNKNOWN)]
      unknown := true
      failed := t.failed ++ [x.assumption] }
  | .SAT m =>
    { t with
      workers := t.workers.set w (.interrupting x m)
      satisfied := true
      model := some m }

def step (t : Batch) : Action → Option Batch
  | .submit =>
    match t.pending with
    | [] => none
    | x :: pending => some { t with pending, queue := t.queue ++ [x] }
  | .dequeue w =>
    match t.workers[w]?, t.queue with
    | some .idle, x :: queue => some { t with queue, workers := t.workers.set w (.solving x) }
    | _, _ => none
  | .answer w answer =>
    match t.workers[w]? with
    | some (.solving x) => some { t with workers := t.workers.set w (.calling x answer) }
    | _ => none
  | .throw w =>
    match t.workers[w]? with
    | some (.solving x) =>
      some { t with workers := t.workers.set w .idle, done := t.done ++ [(x, .threw)] }
    | _ => none
  | .callback w =>
    match t.workers[w]? with
    | some (.calling x answer) => some (t.runCallback w x answer)
    | _ => none
  | .clearQueue w =>
    match t.workers[w]? with
    | some (.interrupting x m) =>
      some { t.dropQueue with
        workers := t.workers.set w .idle
        done := t.dropQueue.done ++ [(x, .answered (.SAT m))] }
    | _ => none
  | .interrupt => some { t with interrupted := true, clearing := true }
  | .clearInterrupt => if t.clearing then some { t.dropQueue with clearing := false } else none

/-- What a step does. -/
inductive Step (t : Batch) : Action → Batch → Prop
  | submit {x : Task} {pending : List Task} : t.pending = x :: pending →
      Step t .submit { t with pending, queue := t.queue ++ [x] }
  | dequeue {w : ℕ} {x : Task} {queue : List Task} : t.workers[w]? = some .idle →
      t.queue = x :: queue →
      Step t (.dequeue w) { t with queue, workers := t.workers.set w (.solving x) }
  | answer {w : ℕ} {x : Task} {answer : Answer} : t.workers[w]? = some (.solving x) →
      Step t (.answer w answer) { t with workers := t.workers.set w (.calling x answer) }
  | throw {w : ℕ} {x : Task} : t.workers[w]? = some (.solving x) →
      Step t (.throw w)
        { t with workers := t.workers.set w .idle, done := t.done ++ [(x, .threw)] }
  | callback {w : ℕ} {x : Task} {answer : Answer} : t.workers[w]? = some (.calling x answer) →
      Step t (.callback w) (t.runCallback w x answer)
  | clearQueue {w : ℕ} {x : Task} {m : Model} : t.workers[w]? = some (.interrupting x m) →
      Step t (.clearQueue w)
        { t.dropQueue with
          workers := t.workers.set w .idle
          done := t.dropQueue.done ++ [(x, .answered (.SAT m))] }
  | interrupt : Step t .interrupt { t with interrupted := true, clearing := true }
  | clearInterrupt : t.clearing = true →
      Step t .clearInterrupt { t.dropQueue with clearing := false }

theorem Step.of_step {t t' : Batch} {a : Action} (hs : t.step a = some t') : Step t a t' := by
  cases a with
  | submit =>
      simp only [step] at hs
      split at hs <;> cases hs
      exact .submit ‹_›
  | dequeue w =>
      simp only [step] at hs
      split at hs <;> cases hs
      exact .dequeue ‹_› ‹_›
  | answer w answer =>
      simp only [step] at hs
      split at hs <;> cases hs
      exact .answer ‹_›
  | throw w =>
      simp only [step] at hs
      split at hs <;> cases hs
      exact .throw ‹_›
  | callback w =>
      simp only [step] at hs
      split at hs <;> cases hs
      exact .callback ‹_›
  | clearQueue w =>
      simp only [step] at hs
      split at hs <;> cases hs
      exact .clearQueue ‹_›
  | interrupt =>
      cases hs
      exact .interrupt
  | clearInterrupt =>
      simp only [step] at hs
      split at hs <;> cases hs
      exact .clearInterrupt ‹_›

/-- All futures are ready: `wait_for_futures` returns. -/
structure Finished (t : Batch) : Prop where
  pending : t.pending = []
  queue : t.queue = []
  workers : ∀ w ∈ t.workers, w = .idle

/-- What `_solve_final` returns. -/
def solveFinal (t : Batch) : State :=
  if t.satisfied then .SAT
  else if !t.unknown && !t.interrupted then .UNSAT
  else .UNKNOWN

/-- `RecurringReduceSolve::filter_r`. -/
inductive FilterResult where
  | state (state : State)
  | failed (assumptions : List LitVec)

/-- What `_filter_fast` returns; an empty `failed` is coded as `UNKNOWN`. -/
def filterFast (t : Batch) : FilterResult :=
  if t.satisfied then .state .SAT
  else if t.failed.isEmpty then .state .UNKNOWN
  else .failed t.failed

/-- The failed list a result stands for. -/
def FilterResult.failedList : FilterResult → Option (List LitVec)
  | .state .UNKNOWN => some []
  | .state _ => none
  | .failed l => some l

/-- `UNSAT` only if every task was answered `UNSAT`, `SAT` only if some task was answered `SAT`. -/
def SolveFinalOk (tasks : List Task) (t : Batch) : Prop :=
  (t.solveFinal = .UNSAT → ∀ x ∈ tasks, ∃ o, (x, o) ∈ t.done ∧ o.unsat = true) ∧
  (t.solveFinal = .SAT → ∃ x ∈ tasks, ∃ o, (x, o) ∈ t.done ∧ o.sat = true)

/-- Without an interrupt and a `SAT` answer the failed list is what was not answered `UNSAT`. -/
def FilterFastOk (t : Batch) : Prop :=
  t.interrupted = false → (∀ d ∈ t.done, d.2.sat = false) → ∃ l, t.filterFast.failedList = some l ∧
    l.Perm ((t.done.filter fun d => !d.2.unsat).map fun d => d.1.assumption)

/-! ### The invariant -/

end Batch

/-- The task a worker has taken. -/
def ServiceWorker.tasks : ServiceWorker → List Task
  | .idle => []
  | .solving x => [x]
  | .calling x _ => [x]
  | .interrupting x _ => [x]

/-- The worker is in the callback of a `SAT` answer. -/
def ServiceWorker.sat : ServiceWorker → Bool
  | .interrupting _ _ => true
  | _ => false

namespace Batch

/-- The assumptions of the tasks answered `UNKNOWN`. -/
def unknowns (done : List (Task × Outcome)) : List LitVec :=
  (done.filter fun d => d.2.unknown).map fun d => d.1.assumption

/-- Each of the tasks `all` is in one place, and the flags say what has happened. -/
structure Inv (all : List Task) (t : Batch) : Prop where
  tasks : (t.pending ++ t.queue ++ t.workers.flatMap ServiceWorker.tasks ++
    t.done.map Prod.fst).Perm all
  satisfied : t.satisfied = true ↔ (∃ d ∈ t.done, d.2.sat = true) ∨ ∃ w ∈ t.workers, w.sat = true
  unknown : t.unknown = true ↔ ∃ d ∈ t.done, d.2.unknown = true
  failed : t.failed = unknowns t.done
  dropped : ∀ d ∈ t.done, d.2 = .dropped → t.satisfied = true ∨ t.interrupted = true
  clearing : t.clearing = true → t.interrupted = true
  model : t.satisfied = true → ∃ m, t.model = some m ∧
    ((∃ x, (x, .answered (.SAT m)) ∈ t.done) ∨ ∃ x, .interrupting x m ∈ t.workers)

section Inv

variable {all : List Task} {t t' : Batch}

theorem inv_start (assumptions : List LitVec) (threads : ℕ) :
    (start assumptions threads).Inv (tasksOf assumptions) where
  tasks := by simp [start, ServiceWorker.tasks, List.flatMap_replicate]
  satisfied := by simp [start, ServiceWorker.sat]
  unknown := by simp [start]
  failed := rfl
  dropped := by simp [start]
  clearing := by simp [start]
  model := by simp [start]

/-- Clearing the queue moves its tasks to the ended ones, which is allowed once a flag is set. -/
theorem Inv.dropQueue (h : t.Inv all) (hf : t.satisfied = true ∨ t.interrupted = true) :
    t.dropQueue.Inv all := by
  have hnew : ∀ d ∈ t.dropQueue.done, d ∈ t.done ∨ d.2 = .dropped := by
    intro d hd
    rcases List.mem_append.mp hd with hd | hd
    · exact .inl hd
    · obtain ⟨x, -, rfl⟩ := List.mem_map.mp hd
      exact .inr rfl
  have hold : ∀ d ∈ t.done, d ∈ t.dropQueue.done := fun d hd => List.mem_append_left _ hd
  refine ⟨?_, h.satisfied.trans ?_, h.unknown.trans ?_, ?_, fun _ _ _ => hf, h.clearing, ?_⟩
  · refine List.Perm.trans ?_ h.tasks
    simp only [Batch.dropQueue, List.map_append, List.map_map, Function.comp_def, List.map_id']
    classical
    rw [List.perm_iff_count]
    intro x
    simp only [List.count_append, List.count_nil]
    omega
  · refine or_congr_left ⟨fun ⟨d, hd, hs⟩ => ⟨d, hold d hd, hs⟩, ?_⟩
    rintro ⟨d, hd, hs⟩
    rcases hnew d hd with hd | hd
    · exact ⟨d, hd, hs⟩
    · rw [hd] at hs; cases hs
  · refine ⟨fun ⟨d, hd, hs⟩ => ⟨d, hold d hd, hs⟩, ?_⟩
    rintro ⟨d, hd, hs⟩
    rcases hnew d hd with hd | hd
    · exact ⟨d, hd, hs⟩
    · rw [hd] at hs; cases hs
  · have hf := h.failed
    simp only [unknowns, Batch.dropQueue] at hf ⊢
    rw [List.filter_append, List.map_append, ← hf]
    simp [Outcome.unknown]
  · intro hs
    obtain ⟨m, hm, hx⟩ := h.model hs
    exact ⟨m, hm, hx.imp_left fun ⟨x, hx⟩ => ⟨x, hold _ hx⟩⟩

theorem mem_set_of_ne {w : ℕ} {old new x : ServiceWorker} (hw : t.workers[w]? = some old)
    (hx : x ∈ t.workers) (hne : x ≠ old) : x ∈ t.workers.set w new := by
  obtain ⟨pre, post, hl, hset⟩ := Machine.exists_split hw
  rw [hset]
  rw [hl] at hx
  simp only [List.mem_append, List.mem_cons] at hx ⊢
  tauto

/-- The places of the tasks when one worker takes, keeps or ends a task. -/
theorem perm_set {w : ℕ} {old : ServiceWorker} (new : ServiceWorker) (queue : List Task)
    (ended : List (Task × Outcome)) (hw : t.workers[w]? = some old)
    (hp : (queue ++ new.tasks ++ ended.map Prod.fst).Perm (t.queue ++ old.tasks)) :
    (t.pending ++ queue ++ (t.workers.set w new).flatMap ServiceWorker.tasks ++
      (t.done ++ ended).map Prod.fst).Perm
    (t.pending ++ t.queue ++ t.workers.flatMap ServiceWorker.tasks ++ t.done.map Prod.fst) := by
  have hset := Machine.flatMap_set_perm hw ServiceWorker.tasks new
  classical
  rw [List.perm_iff_count] at hp hset ⊢
  intro x
  have hp := hp x
  have hset := hset x
  simp only [List.map_append, List.count_append] at hp hset ⊢
  omega

/-- **A worker outside the callback of a `SAT` answer** takes, keeps or ends a task. -/
theorem Inv.worker (h : t.Inv all) {w : ℕ} {old : ServiceWorker} (new : ServiceWorker)
    (queue : List Task) (ended : List (Task × Outcome)) (hw : t.workers[w]? = some old)
    (hp : (queue ++ new.tasks ++ ended.map Prod.fst).Perm (t.queue ++ old.tasks))
    (hold : old.sat = false) (hnew : new.sat = false)
    (hend : ∀ d ∈ ended, d.2.sat = false ∧ d.2 ≠ .dropped) :
    Inv all { t with
      queue
      workers := t.workers.set w new
      done := t.done ++ ended
      unknown := t.unknown || ended.any fun d => d.2.unknown
      failed := t.failed ++ unknowns ended } := by
  have hkeep : ∀ x ∈ t.workers, x.sat = true → x ∈ t.workers.set w new := by
    intro x hx hs
    refine mem_set_of_ne hw hx ?_
    intro e
    rw [e, hold] at hs
    cases hs
  refine ⟨(perm_set new queue ended hw hp).trans h.tasks, h.satisfied.trans ?_, ?_, ?_, ?_,
    h.clearing, ?_⟩
  · constructor
    · rintro (⟨d, hd, hs⟩ | ⟨x, hx, hs⟩)
      · exact .inl ⟨d, List.mem_append_left _ hd, hs⟩
      · exact .inr ⟨x, hkeep x hx hs, hs⟩
    · rintro (⟨d, hd, hs⟩ | ⟨x, hx, hs⟩)
      · rcases List.mem_append.mp hd with hd | hd
        · exact .inl ⟨d, hd, hs⟩
        · rw [(hend d hd).1] at hs; cases hs
      · rcases List.mem_or_eq_of_mem_set hx with hx | rfl
        · exact .inr ⟨x, hx, hs⟩
        · rw [hnew] at hs; cases hs
  · simp only [Bool.or_eq_true, h.unknown, List.any_eq_true, List.mem_append, or_and_right,
      exists_or]
  · simp only [unknowns, List.filter_append, List.map_append, h.failed]
  · intro d hd hdrop
    rcases List.mem_append.mp hd with hd | hd
    · exact h.dropped d hd hdrop
    · exact absurd hdrop (hend d hd).2
  · intro hs
    obtain ⟨m, hm, ⟨x, hx⟩ | ⟨x, hx⟩⟩ := h.model hs
    · exact ⟨m, hm, .inl ⟨x, List.mem_append_left _ hx⟩⟩
    · exact ⟨m, hm, .inr ⟨x, hkeep _ hx rfl⟩⟩

/-- The callback of a `SAT` answer sets its flag and keeps the model. -/
theorem Inv.callbackSat (h : t.Inv all) {w : ℕ} {x : Task} {m : Model}
    (hw : t.workers[w]? = some (.calling x (.SAT m))) :
    (t.runCallback w x (.SAT m)).Inv all := by
  have hself : .interrupting x m ∈ t.workers.set w (.interrupting x m) := by
    obtain ⟨pre, post, -, hset⟩ := Machine.exists_split hw
    rw [hset]
    simp
  have hperm := perm_set (.interrupting x m) t.queue [] hw
    (by simp [ServiceWorker.tasks])
  refine ⟨?_, ?_, h.unknown, h.failed, fun _ _ _ => .inl rfl, h.clearing, ?_⟩
  · rw [List.append_nil] at hperm
    exact hperm.trans h.tasks
  · exact ⟨fun _ => .inr ⟨_, hself, rfl⟩, fun _ => rfl⟩
  · intro _
    exact ⟨m, rfl, .inr ⟨x, hself⟩⟩

/-- The callback of a `SAT` answer ends by clearing the queue. -/
theorem Inv.clearQueue (h : t.Inv all) {w : ℕ} {x : Task} {m : Model}
    (hw : t.workers[w]? = some (.interrupting x m)) :
    Inv all { t.dropQueue with
      workers := t.workers.set w .idle
      done := t.dropQueue.done ++ [(x, .answered (.SAT m))] } := by
  have hs : t.satisfied = true :=
    h.satisfied.mpr (.inr ⟨_, List.mem_of_getElem? hw, rfl⟩)
  have hd := h.dropQueue (.inl hs)
  have hw' : t.dropQueue.workers[w]? = some (.interrupting x m) := hw
  have hsat : (x, .answered (.SAT m)) ∈ t.dropQueue.done ++ [(x, .answered (.SAT m))] := by simp
  have hperm := perm_set .idle t.dropQueue.queue [(x, .answered (.SAT m))] hw'
    (by simp [ServiceWorker.tasks])
  refine ⟨hperm.trans hd.tasks, ?_, hd.unknown.trans ?_, ?_, fun _ _ _ => .inl hs, hd.clearing,
    ?_⟩
  · exact ⟨fun _ => .inl ⟨_, hsat, rfl⟩, fun _ => hs⟩
  · simp [or_and_right, exists_or, Outcome.unknown]
  · have hf := hd.failed
    simp only [unknowns, List.filter_append, List.map_append] at hf ⊢
    rw [← hf]
    simp [Outcome.unknown]
  · intro _
    obtain ⟨m', hm, ⟨y, hy⟩ | ⟨y, hy⟩⟩ := hd.model hs
    · exact ⟨m', hm, .inl ⟨y, List.mem_append_left _ hy⟩⟩
    · -- another worker may have written its own model after this one
      by_cases e : ServiceWorker.interrupting y m' = .interrupting x m
      · obtain ⟨-, rfl⟩ := ServiceWorker.interrupting.inj e
        exact ⟨m', hm, .inl ⟨x, hsat⟩⟩
      · exact ⟨m', hm, .inr ⟨y, mem_set_of_ne hw hy e⟩⟩

/-- **Every step keeps the bookkeeping.** -/
theorem Inv.step (h : t.Inv all) {a : Action} (hs : t.step a = some t') : t'.Inv all := by
  cases Step.of_step hs with
  | @submit x pending hp =>
      have htasks := h.tasks
      rw [hp] at htasks
      refine { h with tasks := List.Perm.trans ?_ htasks }
      simp only [List.append_assoc, List.cons_append, List.nil_append]
      rw [← List.append_assoc, ← List.append_assoc]
      exact List.perm_middle
  | @dequeue w x queue hw hq =>
      have := h.worker (.solving x) queue [] hw
        (by simp [ServiceWorker.tasks, hq]) rfl rfl (by simp)
      simpa [unknowns] using this
  | @answer w x answer hw =>
      have := h.worker (.calling x answer) t.queue [] hw
        (by simp [ServiceWorker.tasks]) rfl rfl (by simp)
      simpa [unknowns] using this
  | @throw w x hw =>
      have := h.worker .idle t.queue [(x, .threw)] hw
        (by simp [ServiceWorker.tasks]) rfl rfl (by simp [Outcome.sat])
      simpa [unknowns, Outcome.unknown] using this
  | @callback w x answer hw =>
      cases answer with
      | SAT m => exact h.callbackSat hw
      | UNSAT =>
          have := h.worker .idle t.queue [(x, .answered .UNSAT)] hw
            (by simp [ServiceWorker.tasks]) rfl rfl (by simp [Outcome.sat])
          simpa [runCallback, unknowns, Outcome.unknown] using this
      | UNKNOWN =>
          have := h.worker .idle t.queue [(x, .answered .UNKNOWN)] hw
            (by simp [ServiceWorker.tasks]) rfl rfl (by simp [Outcome.sat])
          simpa [runCallback, unknowns, Outcome.unknown] using this
  | clearQueue hw => exact h.clearQueue hw
  | interrupt => exact { h with dropped := fun _ _ _ => .inr rfl, clearing := fun _ => rfl }
  | clearInterrupt hc => exact { h.dropQueue (.inr (h.clearing hc)) with clearing := by simp }

/-! ### The verdicts -/

theorem nodup_tasksOf (assumptions : List LitVec) : (tasksOf assumptions).Nodup := by
  refine List.Nodup.of_map Task.index ?_
  have : (tasksOf assumptions).map Task.index = List.range assumptions.length := by
    simp [tasksOf, List.ext_getElem_iff]
  rw [this]
  exact List.nodup_range

theorem Inv.done_perm (h : t.Inv all) (hf : t.Finished) : (t.done.map Prod.fst).Perm all := by
  have hw : t.workers.flatMap ServiceWorker.tasks = [] := by
    rw [List.flatMap_eq_nil_iff]
    intro w hw
    rw [hf.workers w hw]
    rfl
  simpa [hf.pending, hf.queue, hw] using h.tasks

theorem Inv.satisfied_iff (h : t.Inv all) (hf : t.Finished) :
    t.satisfied = true ↔ ∃ d ∈ t.done, d.2.sat = true := by
  refine h.satisfied.trans (or_iff_left ?_)
  rintro ⟨w, hw, hs⟩
  rw [hf.workers w hw] at hs
  cases hs

theorem Inv.satisfied_eq_false (h : t.Inv all) (hf : t.Finished) :
    t.satisfied = false ↔ ∀ d ∈ t.done, d.2.sat = false := by
  rw [← Bool.not_eq_true, h.satisfied_iff hf]
  simp

theorem Inv.unknown_eq_false (h : t.Inv all) :
    t.unknown = false ↔ ∀ d ∈ t.done, d.2.unknown = false := by
  rw [← Bool.not_eq_true, h.unknown]
  simp

theorem solveFinal_eq_SAT : t.solveFinal = .SAT ↔ t.satisfied = true := by
  unfold solveFinal
  cases t.satisfied <;> cases t.unknown <;> cases t.interrupted <;> simp

theorem solveFinal_eq_UNSAT : t.solveFinal = .UNSAT ↔
    t.satisfied = false ∧ t.unknown = false ∧ t.interrupted = false := by
  unfold solveFinal
  cases t.satisfied <;> cases t.unknown <;> cases t.interrupted <;> simp

/-- Without an interrupt and a `SAT` answer, no task was dropped. -/
theorem Inv.unsat_or_thrown (h : t.Inv all) (hs : t.satisfied = false) (hi : t.interrupted = false)
    (hsat : ∀ d ∈ t.done, d.2.sat = false) {d : Task × Outcome} (hd : d ∈ t.done) :
    d.2.unsat = true ∨ d.2.thrown = true ∨ d.2.unknown = true := by
  have hdrop := h.dropped d hd
  have hnot := hsat d hd
  rw [hi, hs] at hdrop
  obtain ⟨x, (m | - | -) | - | -⟩ := d
  · cases hnot
  · exact .inl rfl
  · exact .inr (.inr rfl)
  · exact .inr (.inl rfl)
  · simp at hdrop

/-- **`_solve_final`** is right unless a task threw and nothing else kept the verdict open. -/
theorem Inv.solveFinal_iff (h : t.Inv all) (hall : all.Nodup) (hf : t.Finished) :
    t.SolveFinalOk all ↔ ((∃ d ∈ t.done, d.2.thrown = true) →
      t.interrupted = true ∨ ∃ d ∈ t.done, d.2.sat = true ∨ d.2.unknown = true) := by
  have hperm := h.done_perm hf
  have hmem : ∀ d ∈ t.done, d.1 ∈ all := fun d hd => hperm.mem_iff.mp (List.mem_map_of_mem hd)
  have hfun : ∀ {x o o'}, (x, o) ∈ t.done → (x, o') ∈ t.done → o = o' := by
    intro x o o' ho ho'
    have hinj := List.inj_on_of_nodup_map (hperm.nodup_iff.mpr hall)
    exact (Prod.mk.inj (hinj ho ho' rfl)).2
  constructor
  · rintro ⟨hunsat, -⟩ ⟨⟨x, o⟩, hd, ho⟩
    by_contra hn
    simp only [not_or, not_exists, not_and, Bool.not_eq_true] at hn
    have hs := (h.satisfied_eq_false hf).mpr fun d hd => (hn.2 d hd).1
    have hu := h.unknown_eq_false.mpr fun d hd => (hn.2 d hd).2
    obtain ⟨o', ho', hu'⟩ := hunsat (solveFinal_eq_UNSAT.mpr ⟨hs, hu, hn.1⟩) x (hmem _ hd)
    -- a task has one outcome
    rw [hfun ho' hd] at hu'
    cases o <;> simp [Outcome.thrown, Outcome.unsat] at ho hu'
  · intro hc
    refine ⟨?_, ?_⟩
    · intro hv x hx
      obtain ⟨hs, hu, hi⟩ := solveFinal_eq_UNSAT.mp hv
      have hsat := (h.satisfied_eq_false hf).mp hs
      have hunknown := h.unknown_eq_false.mp hu
      obtain ⟨d, hd, rfl⟩ := List.mem_map.mp (hperm.mem_iff.mpr hx)
      refine ⟨d.2, hd, ?_⟩
      rcases h.unsat_or_thrown hs hi hsat hd with h' | h' | h'
      · exact h'
      · obtain h' | ⟨e, he, h' | h'⟩ := hc ⟨d, hd, h'⟩
        · simp [hi] at h'
        · simp [hsat e he] at h'
        · simp [hunknown e he] at h'
      · simp [hunknown d hd] at h'
    · intro hv
      obtain ⟨d, hd, hds⟩ := (h.satisfied_iff hf).mp (solveFinal_eq_SAT.mp hv)
      exact ⟨d.1, hmem d hd, d.2, hd, hds⟩

theorem failedList_filterFast (hs : t.satisfied = false) :
    t.filterFast.failedList = some t.failed := by
  unfold filterFast
  cases hf : t.failed <;> simp [hs, FilterResult.failedList]

/-- The tasks not answered `UNSAT`, when none was dropped or answered `SAT`. -/
theorem countP_not_unsat {l : List (Task × Outcome)}
    (h : ∀ d ∈ l, d.2.unsat = true ∨ d.2.thrown = true ∨ d.2.unknown = true) :
    l.countP (fun d => !d.2.unsat) =
      l.countP (fun d => d.2.unknown) + l.countP fun d => d.2.thrown := by
  induction l with
  | nil => rfl
  | cons d l ih =>
      obtain ⟨hd, hl⟩ := List.forall_mem_cons.mp h
      simp only [List.countP_cons, ih hl]
      obtain ⟨x, (m | - | -) | - | -⟩ := d <;>
        simp [Outcome.unsat, Outcome.unknown, Outcome.thrown] at hd ⊢ <;> omega

/-- **`_filter_fast`** loses exactly the tasks that threw. -/
theorem Inv.filterFast_iff (h : t.Inv all) (hf : t.Finished) :
    t.FilterFastOk ↔ ((∃ d ∈ t.done, d.2.thrown = true) →
      t.interrupted = true ∨ ∃ d ∈ t.done, d.2.sat = true) := by
  constructor
  · rintro hok ⟨d, hd, hthrown⟩
    by_contra hn
    simp only [not_or, not_exists, not_and, Bool.not_eq_true] at hn
    obtain ⟨hi, hsat⟩ := hn
    have hs := (h.satisfied_eq_false hf).mpr hsat
    obtain ⟨l, hl, hperm⟩ := hok hi hsat
    rw [failedList_filterFast hs, h.failed, Option.some.injEq] at hl
    -- a task that threw is not answered `UNSAT`, and not in the list either
    have hlen := hperm.length_eq
    rw [← hl, unknowns, List.length_map, List.length_map, ← List.countP_eq_length_filter,
      ← List.countP_eq_length_filter,
      countP_not_unsat fun d => h.unsat_or_thrown hs hi hsat] at hlen
    have hpos : 0 < t.done.countP fun d => d.2.thrown := List.countP_pos_iff.mpr ⟨d, hd, hthrown⟩
    omega
  · intro hc hi hsat
    have hs := (h.satisfied_eq_false hf).mpr hsat
    refine ⟨t.failed, failedList_filterFast hs, ?_⟩
    rw [h.failed, unknowns]
    refine List.Perm.of_eq (congrArg _ (List.filter_congr ?_))
    intro d hd
    have hnot : d.2.thrown = false := by
      rw [← Bool.not_eq_true]
      intro ht
      obtain h' | ⟨e, he, h'⟩ := hc ⟨d, hd, ht⟩
      · simp [hi] at h'
      · simp [hsat e he] at h'
    rcases h.unsat_or_thrown hs hi hsat hd with h' | h' | h' <;>
      obtain ⟨x, (m | - | -) | - | -⟩ := d <;>
        simp [Outcome.unsat, Outcome.unknown, Outcome.thrown] at h' hnot ⊢

end Inv

end Batch

open Batch in
/-- **When the verdicts are right.**  In every finished run, `_solve_final` reports `UNSAT` only for
tasks all answered `UNSAT` and `SAT` only for some answered `SAT`, exactly if no task threw, or the
solve was interrupted, or some task was answered `SAT` or `UNKNOWN`; and without an interrupt and a
`SAT` answer `_filter_fast` returns what was not answered `UNSAT`, exactly if no task threw. -/
theorem batch_verdict_iff (assumptions : List LitVec) (base : LitVec) (threads : ℕ) :
    (∀ as t, Machine.exec Batch.step (start assumptions threads) as = some t → t.Finished →
      (t.SolveFinalOk (tasksOf assumptions) ↔ ((∃ d ∈ t.done, d.2.thrown = true) →
        t.interrupted = true ∨ ∃ d ∈ t.done, d.2.sat = true ∨ d.2.unknown = true))) ∧
    (∀ as t, Machine.exec Batch.step (start (assumptions.map (base ++ ·)) threads) as = some t →
      t.Finished → (t.FilterFastOk ↔ ((∃ d ∈ t.done, d.2.thrown = true) →
        t.interrupted = true ∨ ∃ d ∈ t.done, d.2.sat = true))) := by
  have hinv : ∀ l as t, Machine.exec Batch.step (start l threads) as = some t →
      t.Inv (tasksOf l) := fun l as t h =>
    Machine.exec_invariant (fun s a t hs h => hs.step h) (inv_start l threads) h
  exact ⟨fun as t h hf => (hinv _ as t h).solveFinal_iff (nodup_tasksOf assumptions) hf,
    fun as t h hf => (hinv _ as t h).filterFast_iff hf⟩

namespace Batch

/-- A batch of one task that has ended. -/
def oneEnded (o : Outcome) : Batch :=
  { start [] 1 with done := [(⟨0, [mkLit 0 false]⟩, o)] }

theorem finished_oneEnded (o : Outcome) : (oneEnded o).Finished :=
  ⟨rfl, rfl, fun w hw => by simpa [oneEnded, start] using hw⟩

end Batch

open Batch in
/-- One task, answered `UNSAT`. -/
theorem batch_verdict_unsat : ∃ as t,
    Machine.exec Batch.step (start [[mkLit 0 false]] 1) as = some t ∧
    t.solveFinal = .UNSAT ∧ t.SolveFinalOk (tasksOf [[mkLit 0 false]]) ∧ t.FilterFastOk := by
  have hrun : Machine.exec Batch.step (start [[mkLit 0 false]] 1)
      [.submit, .dequeue 0, .answer 0 .UNSAT, .callback 0] =
        some (oneEnded (.answered .UNSAT)) := rfl
  obtain ⟨h₁, h₂⟩ := batch_verdict_iff [[mkLit 0 false]] [] 1
  refine ⟨_, _, hrun, rfl, (h₁ _ _ hrun (finished_oneEnded _)).mpr ?_,
    (h₂ _ _ hrun (finished_oneEnded _)).mpr ?_⟩
  · simp [oneEnded, Outcome.thrown]
  · simp [oneEnded, Outcome.thrown]

open Batch in
/-- One task whose solver throws: `_solve_final` reports `UNSAT`, and `_filter_fast` reports that
nothing is left. -/
theorem batch_verdict_throw : ∃ as t,
    Machine.exec Batch.step (start [[mkLit 0 false]] 1) as = some t ∧
    t.Finished ∧ ¬ t.SolveFinalOk (tasksOf [[mkLit 0 false]]) ∧ ¬ t.FilterFastOk := by
  have hrun : Machine.exec Batch.step (start [[mkLit 0 false]] 1)
      [.submit, .dequeue 0, .throw 0] = some (oneEnded .threw) := rfl
  refine ⟨_, _, hrun, finished_oneEnded _, ?_, ?_⟩
  · intro h
    obtain ⟨o, ho, hu⟩ := h.1 rfl ⟨0, [mkLit 0 false]⟩ (by simp [tasksOf])
    obtain ⟨-, rfl⟩ := Prod.mk.inj (List.mem_singleton.mp ho)
    cases hu
  · intro h
    obtain ⟨l, hl, hperm⟩ := h rfl (by simp [oneEnded, Outcome.sat])
    cases hl
    simp [oneEnded, Outcome.unsat] at hperm

end Parsat
