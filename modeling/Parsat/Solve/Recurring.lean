import Mathlib.Data.List.Perm.Subperm
import Parsat.Backdoor.Coverage
import Parsat.Solve.Service

/-!
# Solve — the main loop of `RecurringReduceSolve`

`_solve_impl` keeps a stack of base assumptions.  An iteration pops one, looks for a backdoor under
it, filters the enumerated assumptions by propagation, hands the rest to the solver service together
with the base assumption, and pushes back what the service gave up on.  The machine goes through
these stages step by step; the backdoor search is any machine that has a result at its end, and the
service is the `Batch` of one call of `_filter_fast`.

A pair of a popped base assumption and what was pushed for it is kept in `history`, which the
program does not have.

* `RecurringReduceSolve.Inv`: every model of the problem meets the base assumption in work or one on
  the stack, and what the stages of an iteration make of the base assumption still covers it.
* `recurring_sound`: the stack covers all models at the start of every iteration, `UNSAT` is right
  and `SAT` comes with a model.
-/

namespace Parsat

/-- An implementation of `RBSearch`: `find_rb(base)` as a machine, with a result at its end. -/
structure RBSearch where
  State : Type
  Action : Type
  start : LitVec → State
  step : State → Action → Option State
  result : State → Option RBSResult

/-- `RecurringReduceSolveConfig`, and the number of threads of the solver service. -/
structure RecurringReduceSolveConfig where
  maxRecursionDepth : UInt32
  maxSolveTimeMs : UInt32
  maxSolveTimeScale : UInt32
  threads : ℕ

/-- The assumptions `prop_search` evaluates for a search. -/
def RProp.enumerated (R : RProp) (search : Search) : Option (List LitVec) :=
  (R.tasks search).map (List.flatMap Search.visits)

/-- All futures are ready. -/
def Batch.finished (t : Batch) : Bool :=
  t.pending.isEmpty && t.queue.isEmpty && t.workers.all fun
    | .idle => true
    | _ => false

/-- Where `_solve_impl` stands: at the head of the loop, in `find_rb`, in `_filter_conflict`, in
`_filter_fast`, behind the filters, or at the end. -/
inductive SolvePhase (S : RBSearch) where
  | head
  | searching (base : LitVec) (depth : ℕ) (rb : S.State)
  | filtering (base : LitVec) (depth : ℕ) (search : Search)
  | solving (base : LitVec) (depth : ℕ) (timeLimit : Option ℕ) (batch : Batch)
  | filtered (base : LitVec) (depth : ℕ) (result : Batch.FilterResult)
  | returned (state : State)

/-- The service is told about an interrupt of the solve. -/
def SolvePhase.interrupt {S : RBSearch} : SolvePhase S → SolvePhase S
  | .solving base depth limit batch =>
    .solving base depth limit { batch with interrupted := true, clearing := true }
  | p => p

/-- `_solve_impl`; the top of the stack is the head of the list. -/
structure RecurringReduceSolve (S : RBSearch) where
  stack : List (LitVec × ℕ)
  phase : SolvePhase S
  model : Option Model
  interrupted : Bool
  history : List (LitVec × List LitVec)

namespace RecurringReduceSolve

inductive Action (S : RBSearch) where
  | iterate
  | search (action : S.Action)
  | found
  | filterConflict (nonConflict : List LitVec)
  | task (action : Batch.Action)
  | collect
  | proceed
  | finish
  | interrupt

variable {S : RBSearch}

def start : RecurringReduceSolve S := ⟨[([], 0)], .head, none, false, []⟩

/-- `time_limit` in milliseconds, `none` for `DUR_INDEF`. -/
def timeLimit (cfg : RecurringReduceSolveConfig) (depth : ℕ) : Option ℕ :=
  if depth < cfg.maxRecursionDepth.toNat then
    some (cfg.maxSolveTimeMs.toNat * cfg.maxSolveTimeScale.toNat ^ depth % 2 ^ 32)
  else none

/-- The `filter_r` of a stop reason. -/
def onReason (base : LitVec) : RBSReason → State
  | .SBS_FOUND => if base.length = 0 then .UNSAT else .UNKNOWN
  | .INTERRUPTED => .UNKNOWN

/-- The end of an iteration. -/
def endIteration (s : RecurringReduceSolve S) (base : LitVec) (depth : ℕ)
    (failed : List LitVec) : RecurringReduceSolve S :=
  { s with
    stack := (failed.map fun v => (v, (depth + 1) % 2 ^ 32)).reverse ++ s.stack
    phase := .head
    history := s.history ++ [(base, failed)] }

/-- A step of `_solve_impl`, of what it waits for, or of a call of `interrupt()`. -/
def step (R : RProp) (cfg : RecurringReduceSolveConfig) (s : RecurringReduceSolve S) :
    Action S → Option (RecurringReduceSolve S)
  | .iterate =>
    match s.phase, s.stack with
    | .head, (base, depth) :: stack =>
      if s.interrupted then none
      else some { s with stack, phase := .searching base depth (S.start base) }
    | _, _ => none
  | .search a =>
    match s.phase with
    | .searching base depth rb =>
      (S.step rb a).map fun rb => { s with phase := .searching base depth rb }
    | _ => none
  | .found =>
    match s.phase with
    | .searching base depth rb =>
      match S.result rb with
      | none => none
      | some (.reason r) =>
        some { s with phase := .filtered base depth (.state (onReason base r)) }
      | some (.search search) => some { s with phase := .filtering base depth search }
    | _ => none
  | .filterConflict l =>
    match s.phase with
    | .filtering base depth search =>
      match R.enumerated search with
      | none => none
      | some all =>
        -- the order is that of the callback's calls, and an interrupt ends them early
        if l.Perm (R.nonConflict all) ∨ s.interrupted = true ∧ l.Subperm (R.nonConflict all) then
          some { s with
            phase := .solving base depth (timeLimit cfg depth)
              (.start (l.map (base ++ ·)) cfg.threads) }
        else none
    | _ => none
  | .task .interrupt => none
  | .task a =>
    match s.phase with
    | .solving base depth limit batch =>
      (batch.step a).map fun batch => { s with phase := .solving base depth limit batch }
    | _ => none
  | .collect =>
    match s.phase with
    | .solving base depth _ batch =>
      if batch.finished then
        some { s with
          phase := .filtered base depth batch.filterFast
          model := batch.model <|> s.model }
      else none
    | _ => none
  | .proceed =>
    match s.phase with
    | .filtered base depth result =>
      -- the interrupt is tested before the result is looked at
      if s.interrupted then some { s with phase := .returned .UNKNOWN }
      else match result with
        | .state .UNKNOWN => some (s.endIteration base depth [])
        | .state state => some { s with phase := .returned state }
        | .failed failed => some (s.endIteration base depth failed)
    | _ => none
  | .finish =>
    match s.phase with
    | .head =>
      if s.interrupted then some { s with phase := .returned .UNKNOWN }
      else if s.stack.isEmpty then some { s with phase := .returned .UNSAT }
      else none
    | _ => none
  | .interrupt => some { s with interrupted := true, phase := s.phase.interrupt }

end RecurringReduceSolve

/-! ### Right answers -/

/-- The answer is right for the assumption. -/
def Answer.Ok (F : Cnf) (a : LitVec) : Answer → Prop
  | .SAT m => m.Sat F
  | .UNSAT => ¬ SatisfiableUnder F a
  | .UNKNOWN => True

def Outcome.Ok (F : Cnf) (a : LitVec) : Outcome → Prop
  | .answered answer => answer.Ok F a
  | .threw => False
  | .dropped => True

def ServiceWorker.Ok (F : Cnf) : ServiceWorker → Prop
  | .calling x answer => answer.Ok F x.assumption
  | .interrupting _ m => m.Sat F
  | _ => True

namespace Batch

variable {F : Cnf} {t t' : Batch} {a : Action}

/-- All answers given so far are right. -/
structure Sound (F : Cnf) (t : Batch) : Prop where
  done : ∀ d ∈ t.done, d.2.Ok F d.1.assumption
  workers : ∀ w ∈ t.workers, w.Ok F

/-- The solver answers, and rightly. -/
def Answers (F : Cnf) (t : Batch) : Action → Prop
  | .answer w answer => ∀ x, t.workers[w]? = some (.solving x) → answer.Ok F x.assumption
  | .throw _ => False
  | _ => True

theorem sound_start (F : Cnf) (assumptions : List LitVec) (threads : ℕ) :
    (start assumptions threads).Sound F := by
  refine ⟨by simp [start], ?_⟩
  intro w hw
  obtain rfl := List.eq_of_mem_replicate hw
  trivial

theorem Sound.dropQueue (h : t.Sound F) : t.dropQueue.Sound F := by
  refine ⟨?_, h.workers⟩
  intro d hd
  rcases List.mem_append.mp hd with hd | hd
  · exact h.done d hd
  · obtain ⟨x, -, rfl⟩ := List.mem_map.mp hd
    trivial

/-- A worker goes on. -/
theorem Sound.workers_set (h : t.Sound F) (w : ℕ) {new : ServiceWorker} (hnew : new.Ok F) :
    ∀ x ∈ t.workers.set w new, x.Ok F := by
  intro x hx
  rcases List.mem_or_eq_of_mem_set hx with hx | rfl
  · exact h.workers x hx
  · exact hnew

/-- A task ends. -/
theorem Sound.done_append (h : t.Sound F) (x : Task) {o : Outcome} (ho : o.Ok F x.assumption) :
    ∀ d ∈ t.done ++ [(x, o)], d.2.Ok F d.1.assumption := by
  intro d hd
  rcases List.mem_append.mp hd with hd | hd
  · exact h.done d hd
  · obtain rfl := List.mem_singleton.mp hd
    exact ho

/-- **Every step with a right answer** keeps the answers right. -/
theorem Sound.step (h : t.Sound F) (ha : t.Answers F a) (hs : t.step a = some t') :
    t'.Sound F := by
  cases Step.of_step hs with
  | submit => exact ⟨h.done, h.workers⟩
  | @dequeue w => exact ⟨h.done, h.workers_set w trivial⟩
  | @answer w x answer hw => exact ⟨h.done, h.workers_set w (ha x hw)⟩
  | throw => exact ha.elim
  | @callback w x answer hw =>
      have hok : answer.Ok F x.assumption := h.workers _ (List.mem_of_getElem? hw)
      cases answer with
      | SAT m => exact ⟨h.done, h.workers_set w hok⟩
      | UNSAT => exact ⟨h.done_append x hok, h.workers_set w trivial⟩
      | UNKNOWN => exact ⟨h.done_append x hok, h.workers_set w trivial⟩
  | @clearQueue w x m hw =>
      have hok : m.Sat F := h.workers _ (List.mem_of_getElem? hw)
      exact ⟨h.dropQueue.done_append x hok, h.workers_set w trivial⟩
  | interrupt => exact ⟨h.done, h.workers⟩
  | clearInterrupt => exact ⟨h.dropQueue.done, h.dropQueue.workers⟩

/-- Only `interrupt()` sets the flag. -/
theorem step_interrupted (hne : a ≠ .interrupt) (hs : t.step a = some t') :
    t'.interrupted = t.interrupted := by
  cases Step.of_step hs with
  | interrupt => exact absurd rfl hne
  | @callback w x answer => cases answer <;> rfl
  | submit | dequeue | answer | throw | clearQueue | clearInterrupt => rfl

theorem finished_iff : t.finished = true ↔ t.Finished := by
  have hidle : ∀ w : ServiceWorker, (match w with
      | .idle => true
      | _ => false) = true ↔ w = .idle := by
    intro w
    cases w <;> simp
  simp only [finished, Bool.and_eq_true, List.isEmpty_iff, List.all_eq_true, hidle]
  exact ⟨fun h => ⟨h.1.1, h.1.2, h.2⟩, fun h => ⟨⟨h.1, h.2⟩, h.3⟩⟩

end Batch

/-- What was pushed for `base` covers it. -/
def Replaces (F : Cnf) (base : LitVec) (subs : List LitVec) : Prop :=
  (∀ a ∈ subs, base <+: a) ∧ ∀ m : Model, m.Sat F → m.Meets base → ∃ a ∈ subs, m.Meets a

/-- The result of the filters is right for `base`. -/
def FilterOk (F : Cnf) (base : LitVec) (model : Option Model) : Batch.FilterResult → Prop
  | .state .SAT => ∃ m, model = some m ∧ m.Sat F
  | .state .UNSAT => ¬ Satisfiable F
  | .state .UNKNOWN => Replaces F base []
  | .failed l => Replaces F base l

namespace Batch

variable {F : Cnf} {t : Batch} {base : LitVec} {l : List LitVec}

/-- The assumptions the service gave up on cover what all of them covered. -/
theorem Sound.replaces (h : t.Sound F) (hinv : t.Inv (tasksOf (l.map (base ++ ·))))
    (hf : t.Finished) (hi : t.interrupted = false) (hsat : t.satisfied = false)
    (hl : ∀ m : Model, m.Sat F → m.Meets base → ∃ a ∈ l, m.Meets a) :
    Replaces F base t.failed := by
  have hperm := hinv.done_perm hf
  have hnot := (hinv.satisfied_eq_false hf).mp hsat
  refine ⟨?_, ?_⟩
  · intro a ha
    rw [hinv.failed] at ha
    obtain ⟨d, hd, rfl⟩ := List.mem_map.mp ha
    have hmem := hperm.mem_iff.mp (List.mem_map_of_mem (List.mem_of_mem_filter hd))
    obtain ⟨i, hi, he⟩ := List.mem_mapIdx.mp hmem
    rw [← he, List.getElem_map]
    exact List.prefix_append ..
  · intro m hm hb
    obtain ⟨a, ha, hma⟩ := hl m hm hb
    obtain ⟨x, hx, hxa⟩ : ∃ x ∈ tasksOf (l.map (base ++ ·)), x.assumption = base ++ a := by
      obtain ⟨i, hi, rfl⟩ := List.getElem_of_mem ha
      exact ⟨⟨i, base ++ l[i]⟩, List.mem_mapIdx.mpr ⟨i, by simpa using hi, by simp⟩, rfl⟩
    have hmx : m.Meets x.assumption := by
      rw [hxa, Model.meets_append]
      exact ⟨hb, hma⟩
    obtain ⟨d, hd, rfl⟩ := List.mem_map.mp (hperm.mem_iff.mpr hx)
    have hok := h.done d hd
    refine ⟨d.1.assumption, ?_, hmx⟩
    rw [hinv.failed]
    refine List.mem_map.mpr ⟨d, List.mem_filter.mpr ⟨hd, ?_⟩, rfl⟩
    -- the task of a model is not answered `UNSAT`, and none threw or was dropped
    rcases hinv.unsat_or_thrown hsat hi hnot hd with h' | h' | h'
    · obtain ⟨x, (m' | - | -) | - | -⟩ := d <;> simp [Outcome.unsat] at h'
      exact absurd ⟨m, hm, hmx⟩ hok
    · obtain ⟨x, (m' | - | -) | - | -⟩ := d <;> simp [Outcome.thrown] at h'
      exact hok.elim
    · exact h'

/-- **`_filter_fast`** is right, if the answers are. -/
theorem Sound.filterOk (h : t.Sound F) (hinv : t.Inv (tasksOf (l.map (base ++ ·))))
    (hf : t.Finished) (hi : t.interrupted = false) (model : Option Model)
    (hl : ∀ m : Model, m.Sat F → m.Meets base → ∃ a ∈ l, m.Meets a) :
    FilterOk F base (t.model <|> model) t.filterFast := by
  cases hsat : t.satisfied with
  | «true» =>
      obtain ⟨m, hm, ⟨x, hx⟩ | ⟨x, hx⟩⟩ := hinv.model hsat
      · -- the worker that wrote the model has ended its task
        simp only [filterFast, hsat, if_true, FilterOk, hm]
        exact ⟨m, rfl, h.done _ hx⟩
      · cases hf.workers _ hx
  | «false» =>
      have hrep := h.replaces hinv hf hi hsat hl
      cases hfail : t.failed with
      | nil =>
          rw [hfail] at hrep
          simpa [filterFast, hsat, hfail, FilterOk] using hrep
      | cons a failed =>
          rw [hfail] at hrep
          simpa [filterFast, hsat, hfail, FilterOk] using hrep

end Batch

/-! ### `_filter_conflict` -/

/-- What the callback of `_filter_conflict` keeps of the reported assumptions. -/
def keptCalls (calls : List (Bool × LitVec)) : List LitVec :=
  (calls.filter fun c => !c.1).map Prod.snd

theorem keptCalls_report (R : RProp) (l : List LitVec) :
    keptCalls (l.map (report R.propagator R.problem none)) = R.nonConflict l := by
  simp only [keptCalls, RProp.nonConflict, List.filter_map, List.map_map]
  exact List.map_id' _

open ParProp in
/-- **`_filter_conflict`** with a callback that resumes: one solver gives the assumptions of a fresh
search that propagation does not refute in their order, and the pool gives a permutation of them. -/
theorem filterConflict_spec (R : RProp) {search : Search} (hs : search.Fresh)
    {callback : Option Callback} (hcb : ∀ c a, Stops callback c a = false) :
    keptCalls (SimpProp.propSearch R.propagator R.problem none search callback).calls =
      R.nonConflict search.visits ∧
    ∀ cfg : ParPropConfig, 1 ≤ cfg.maxThreads.toNat → 1 ≤ cfg.seqSplitSamples.toNat →
      ∀ as t n, Machine.exec (ParProp.step R.propagator none callback (tasks cfg search).length)
        (start R.propagator R.problem cfg search) as = some t → t.result = some n →
        (keptCalls t.calls).Perm (R.nonConflict search.visits) := by
  obtain ⟨-, hd, ht⟩ := hs.start
  have hlive : search.Live := by simpa [Search.Live, hd] using ht
  refine ⟨?_, ?_⟩
  · rw [← keptCalls_report R]
    exact congrArg keptCalls (sequentialPropagate_spec none (.refl _) hlive hcb).1
  · intro cfg hthreads hseq as t n h hn
    have hinv := Machine.exec_invariant (fun t a t' h hs => Pool.Inv.step h hcb hs)
      (inv_start R.propagator R.problem none hs hthreads hseq) h
    rw [← keptCalls_report R]
    exact ((hinv.returned hn).1.filter _).map _

/-! ### The stack covers all models -/

/-- The assumptions evaluated for the search cover `base`. -/
def RProp.Covers (R : RProp) (base : LitVec) (search : Search) : Prop :=
  ∀ l, R.enumerated search = some l →
    ∀ m : Model, m.Sat R.problem → m.Meets base → ∃ a ∈ l, m.Meets a

/-- For a fresh search, both engines evaluate what the search visits. -/
theorem RProp.covers_of_fresh {R : RProp} {base : LitVec} {search : Search} (hs : search.Fresh)
    (h : Parsat.Covers R.problem base search) : R.Covers base search := by
  intro l hl m hm hb
  obtain ⟨tasks, htasks, rfl⟩ := Option.map_eq_some_iff.mp hl
  rw [(RProp.tasks_spec hs htasks).2]
  exact h m hm hb

/-- The result of `find_rb(base)` is right: a strong backdoor refutes the base assumption, and a
search covers it. -/
def RBSResult.Ok (R : RProp) (base : LitVec) : RBSResult → Prop
  | .reason .SBS_FOUND => ¬ SatisfiableUnder R.problem base
  | .reason .INTERRUPTED => False
  | .search s => R.Covers base s

namespace RecurringReduceSolve

variable {R : RProp} {S : RBSearch} {cfg : RecurringReduceSolveConfig}
  {s t : RecurringReduceSolve S} {a : Action S}

/-- What a step has to meet: the backdoor search and the service are right, nothing is thrown, and
nobody interrupts the solve. -/
def Right (R : RProp) (s : RecurringReduceSolve S) : Action S → Prop
  | .found => ∀ base depth rb r, s.phase = .searching base depth rb → S.result rb = some r →
      r.Ok R base
  | .task a => ∀ base depth limit batch, s.phase = .solving base depth limit batch →
      batch.Answers R.problem a
  | .interrupt => False
  | _ => True

/-- Every model meets the base assumption in work or one on the stack. -/
def StackCovers (R : RProp) (s : RecurringReduceSolve S) (base : LitVec) : Prop :=
  ∀ m : Model, m.Sat R.problem → m.Meets base ∨ ∃ e ∈ s.stack, m.Meets e.1

/-- What each stage keeps of the base assumption. -/
def PhaseOk (R : RProp) (s : RecurringReduceSolve S) : Prop :=
  match s.phase with
  | .head => ∀ m : Model, m.Sat R.problem → ∃ e ∈ s.stack, m.Meets e.1
  | .searching base _ _ => s.StackCovers R base
  | .filtering base _ search => s.StackCovers R base ∧ R.Covers base search
  | .solving base _ _ batch => s.StackCovers R base ∧ ∃ l : List LitVec,
      batch.Inv (Batch.tasksOf (l.map (base ++ ·))) ∧ batch.Sound R.problem ∧
      batch.interrupted = false ∧
      ∀ m : Model, m.Sat R.problem → m.Meets base → ∃ a ∈ l, m.Meets a
  | .filtered base _ result => s.StackCovers R base ∧ FilterOk R.problem base s.model result
  | .returned .UNSAT => ¬ Satisfiable R.problem
  | .returned .SAT => ∃ m, s.model = some m ∧ m.Sat R.problem
  | .returned .UNKNOWN => True

structure Inv (R : RProp) (s : RecurringReduceSolve S) : Prop where
  interrupted : s.interrupted = false
  history : ∀ h ∈ s.history, Replaces R.problem h.1 h.2
  phase : s.PhaseOk R

theorem inv_start : (start : RecurringReduceSolve S).Inv R where
  interrupted := rfl
  history := by simp [start]
  phase := fun m _ => ⟨([], 0), by simp [start], by simp [Model.Meets]⟩

/-- `_filter_conflict` keeps the assumptions that a model can meet. -/
theorem exists_meets_filtered {base : LitVec} {search : Search} {all l : List LitVec}
    (h : R.Covers base search) (hall : R.enumerated search = some all)
    (hl : l.Perm (R.nonConflict all)) {m : Model} (hm : m.Sat R.problem) (hb : m.Meets base) :
    ∃ a ∈ l, m.Meets a := by
  obtain ⟨a, ha, hma⟩ := h all hall m hm hb
  refine ⟨a, hl.mem_iff.mpr (RProp.mem_nonConflict.mpr ⟨ha, ?_⟩), hma⟩
  rw [← Bool.not_eq_true]
  intro hc
  exact Solver.not_satisfiableUnder_of_conflicts hc ⟨m, hm, hma⟩

/-- The end of an iteration whose base assumption is covered by what is pushed. -/
theorem Inv.endIteration (h : s.Inv R) {base : LitVec} (depth : ℕ) {failed : List LitVec}
    (hcov : s.StackCovers R base) (hrep : Replaces R.problem base failed) :
    (s.endIteration base depth failed).Inv R := by
  refine ⟨h.interrupted, ?_, ?_⟩
  · intro e he
    rcases List.mem_append.mp he with he | he
    · exact h.history e he
    · obtain rfl := List.mem_singleton.mp he
      exact hrep
  · intro m hm
    rcases hcov m hm with hb | ⟨e, he, hme⟩
    · obtain ⟨a, ha, hma⟩ := hrep.2 m hm hb
      exact ⟨(a, (depth + 1) % 2 ^ 32), by simp [RecurringReduceSolve.endIteration, ha], hma⟩
    · exact ⟨e, by simp [RecurringReduceSolve.endIteration, he], hme⟩

/-- A refuted base assumption is covered by nothing. -/
theorem replaces_nil {F : Cnf} {base : LitVec} (h : ¬ SatisfiableUnder F base) :
    Replaces F base [] :=
  ⟨by simp, fun m hm hb => absurd ⟨m, hm, hb⟩ h⟩

theorem filterOk_onReason {base : LitVec} {r : RBSReason} (model : Option Model)
    (h : RBSResult.Ok R base (.reason r)) :
    FilterOk R.problem base model (.state (onReason base r)) := by
  cases r with
  | INTERRUPTED => exact h.elim
  | SBS_FOUND =>
      cases base with
      | nil =>
          simp only [onReason, List.length_nil, if_true, FilterOk, satisfiable_iff_under_nil]
          exact h
      | cons p base => exact replaces_nil h

/-- What a step does. -/
inductive Step (R : RProp) (cfg : RecurringReduceSolveConfig) (s : RecurringReduceSolve S) :
    Action S → RecurringReduceSolve S → Prop
  | iterate {base : LitVec} {depth : ℕ} {stack : List (LitVec × ℕ)} : s.phase = .head →
      s.stack = (base, depth) :: stack → s.interrupted = false →
      Step R cfg s .iterate { s with stack, phase := .searching base depth (S.start base) }
  | search {base : LitVec} {depth : ℕ} {rb rb' : S.State} {a : S.Action} :
      s.phase = .searching base depth rb → S.step rb a = some rb' →
      Step R cfg s (.search a) { s with phase := .searching base depth rb' }
  | stop {base : LitVec} {depth : ℕ} {rb : S.State} {r : RBSReason} :
      s.phase = .searching base depth rb → S.result rb = some (.reason r) →
      Step R cfg s .found { s with phase := .filtered base depth (.state (onReason base r)) }
  | found {base : LitVec} {depth : ℕ} {rb : S.State} {search : Search} :
      s.phase = .searching base depth rb → S.result rb = some (.search search) →
      Step R cfg s .found { s with phase := .filtering base depth search }
  | filterConflict {base : LitVec} {depth : ℕ} {search : Search} {all l : List LitVec} :
      s.phase = .filtering base depth search → R.enumerated search = some all →
      l.Perm (R.nonConflict all) ∨ s.interrupted = true →
      Step R cfg s (.filterConflict l)
        { s with
          phase := .solving base depth (timeLimit cfg depth)
            (.start (l.map (base ++ ·)) cfg.threads) }
  | task {base : LitVec} {depth : ℕ} {limit : Option ℕ} {batch batch' : Batch}
      {a : Batch.Action} : s.phase = .solving base depth limit batch → a ≠ .interrupt →
      batch.step a = some batch' →
      Step R cfg s (.task a) { s with phase := .solving base depth limit batch' }
  | collect {base : LitVec} {depth : ℕ} {limit : Option ℕ} {batch : Batch} :
      s.phase = .solving base depth limit batch → batch.Finished →
      Step R cfg s .collect
        { s with phase := .filtered base depth batch.filterFast, model := batch.model <|> s.model }
  | leave {base : LitVec} {depth : ℕ} {result : Batch.FilterResult} :
      s.phase = .filtered base depth result → s.interrupted = true →
      Step R cfg s .proceed { s with phase := .returned .UNKNOWN }
  | decide {base : LitVec} {depth : ℕ} {state : State} :
      s.phase = .filtered base depth (.state state) → state ≠ .UNKNOWN →
      Step R cfg s .proceed { s with phase := .returned state }
  | again {base : LitVec} {depth : ℕ} {result : Batch.FilterResult} {failed : List LitVec} :
      s.phase = .filtered base depth result → result.failedList = some failed →
      Step R cfg s .proceed (s.endIteration base depth failed)
  | giveUp : s.phase = .head → s.interrupted = true →
      Step R cfg s .finish { s with phase := .returned .UNKNOWN }
  | exhaust : s.phase = .head → s.stack = [] →
      Step R cfg s .finish { s with phase := .returned .UNSAT }
  | interrupt : Step R cfg s .interrupt { s with interrupted := true, phase := s.phase.interrupt }

theorem step_task {a : Batch.Action} (hne : a ≠ .interrupt) :
    s.step R cfg (.task a) = match s.phase with
      | .solving base depth limit batch =>
        (batch.step a).map fun batch => { s with phase := .solving base depth limit batch }
      | _ => none := by
  cases a <;> first | rfl | exact absurd rfl hne

/-- A step of the service. -/
theorem Step.of_task {a : Batch.Action} (hs : s.step R cfg (.task a) = some t) :
    Step R cfg s (.task a) t := by
  have hne : a ≠ .interrupt := by
    rintro rfl
    cases hs
  rw [step_task hne] at hs
  split at hs
  · rename_i base depth limit batch hp
    obtain ⟨batch', hb, rfl⟩ := Option.map_eq_some_iff.mp hs
    exact .task hp hne hb
  · cases hs

theorem Step.of_step (hs : s.step R cfg a = some t) : Step R cfg s a t := by
  cases a with
  | iterate =>
      simp only [RecurringReduceSolve.step] at hs
      split at hs
      · rename_i hp hstack
        split at hs <;> cases hs
        rename_i hi
        exact .iterate hp hstack (by simpa using hi)
      · cases hs
  | search a =>
      simp only [RecurringReduceSolve.step] at hs
      split at hs
      · rename_i hp
        obtain ⟨rb, hrb, rfl⟩ := Option.map_eq_some_iff.mp hs
        exact .search hp hrb
      · cases hs
  | found =>
      simp only [RecurringReduceSolve.step] at hs
      split at hs
      · rename_i hp
        split at hs <;> cases hs
        · exact .stop hp ‹_›
        · exact .found hp ‹_›
      · cases hs
  | filterConflict l =>
      simp only [RecurringReduceSolve.step] at hs
      split at hs
      · rename_i hp
        split at hs
        · cases hs
        · rename_i hall
          split at hs <;> cases hs
          rename_i hl
          exact .filterConflict hp hall (hl.imp_right And.left)
      · cases hs
  | task a => exact .of_task hs
  | collect =>
      simp only [RecurringReduceSolve.step] at hs
      split at hs
      · rename_i hp
        split at hs <;> cases hs
        exact .collect hp (Batch.finished_iff.mp ‹_›)
      · cases hs
  | proceed =>
      simp only [RecurringReduceSolve.step] at hs
      split at hs
      · rename_i hp
        split at hs
        · cases hs
          exact .leave hp ‹_›
        · split at hs <;> cases hs
          · exact .again hp rfl
          · exact .decide hp (by rintro rfl; exact ‹_ → False› rfl)
          · exact .again hp rfl
      · cases hs
  | finish =>
      simp only [RecurringReduceSolve.step] at hs
      split at hs
      · rename_i hp
        split at hs
        · cases hs
          exact .giveUp hp ‹_›
        · split at hs <;> cases hs
          exact .exhaust hp (List.isEmpty_iff.mp ‹_›)
      · cases hs
  | interrupt =>
      cases hs
      exact .interrupt

/-- How a step leads to a state of the backdoor search. -/
theorem step_searching {base : LitVec} {depth : ℕ} {rb' : S.State}
    (hs : s.step R cfg a = some t) (hp : t.phase = .searching base depth rb') :
    (a = .iterate ∧ rb' = S.start base) ∨ a = .interrupt ∨
    ∃ b rb, a = .search b ∧ s.phase = .searching base depth rb ∧ S.step rb b = some rb' := by
  cases Step.of_step hs with
  | iterate =>
      cases hp
      exact .inl ⟨rfl, rfl⟩
  | search hphase hrb =>
      cases hp
      exact .inr (.inr ⟨_, _, rfl, hphase, hrb⟩)
  | interrupt => exact .inr (.inl rfl)
  | stop | found | filterConflict | task | collect | leave | decide | again | giveUp | exhaust =>
      cases hp

/-- **Every right step keeps the models covered.** -/
theorem Inv.step (h : s.Inv R) (hr : s.Right R a) (hs : s.step R cfg a = some t) : t.Inv R := by
  have hphase := h.phase
  have hint := h.interrupted
  cases Step.of_step hs with
  | @iterate base depth stack hp hstack _ =>
      simp only [PhaseOk, hp, hstack] at hphase
      refine ⟨hint, h.history, ?_⟩
      intro m hm
      obtain ⟨e, he, hme⟩ := hphase m hm
      rcases List.mem_cons.mp he with rfl | he
      · exact .inl hme
      · exact .inr ⟨e, he, hme⟩
  | search hp _ =>
      simp only [PhaseOk, hp] at hphase
      exact ⟨hint, h.history, hphase⟩
  | @stop base depth rb r hp hres =>
      simp only [PhaseOk, hp] at hphase
      exact ⟨hint, h.history, hphase, filterOk_onReason s.model (hr base depth rb _ hp hres)⟩
  | @found base depth rb search hp hres =>
      simp only [PhaseOk, hp] at hphase
      exact ⟨hint, h.history, hphase, hr base depth rb _ hp hres⟩
  | @filterConflict base depth search all l hp hall hl =>
      simp only [PhaseOk, hp] at hphase
      -- without an interrupt, all that is not refuted is kept
      have hl : l.Perm (R.nonConflict all) := hl.resolve_right (by simp [hint])
      exact ⟨hint, h.history, hphase.1, l, Batch.inv_start _ _, Batch.sound_start _ _ _, rfl,
        fun m hm hb => exists_meets_filtered hphase.2 hall hl hm hb⟩
  | @task base depth limit batch batch' a hp hne hb =>
      simp only [PhaseOk, hp] at hphase
      obtain ⟨hcov, l, hinv, hsound, hbi, hl⟩ := hphase
      refine ⟨hint, h.history, hcov, l, hinv.step hb,
        hsound.step (hr base depth limit batch hp) hb, ?_, hl⟩
      rw [Batch.step_interrupted hne hb, hbi]
  | collect hp hf =>
      simp only [PhaseOk, hp] at hphase
      obtain ⟨hcov, l, hinv, hsound, hbi, hl⟩ := hphase
      exact ⟨hint, h.history, hcov, hsound.filterOk hinv hf hbi s.model hl⟩
  | leave _ hi | giveUp _ hi =>
      rw [hint] at hi
      cases hi
  | @decide base depth state hp hne =>
      simp only [PhaseOk, hp] at hphase
      cases state with
      | SAT => exact ⟨hint, h.history, hphase.2⟩
      | UNSAT => exact ⟨hint, h.history, hphase.2⟩
      | UNKNOWN => exact absurd rfl hne
  | @again base depth result failed hp hfail =>
      simp only [PhaseOk, hp] at hphase
      refine h.endIteration depth hphase.1 ?_
      rcases result with ⟨- | - | -⟩ | l <;> cases hfail
      · exact hphase.2
      · exact hphase.2
  | exhaust hp hempty =>
      simp only [PhaseOk, hp] at hphase
      refine ⟨hint, h.history, ?_⟩
      -- an empty stack covers no model
      rintro ⟨m, hm⟩
      obtain ⟨e, he, -⟩ := hphase m hm
      rw [hempty] at he
      cases he
  | interrupt => exact hr.elim

end RecurringReduceSolve

open RecurringReduceSolve in
/-- **The recursion is sound.**  In every run without interrupts and exceptions in which the results
of `find_rb` and the answers of the service are right, every model of the problem meets an
assumption on the stack at the start of every iteration; `UNSAT` is returned for an unsatisfiable
problem only, and with `SAT` the model satisfies the problem. -/
theorem recurring_sound (R : RProp) (S : RBSearch) (cfg : RecurringReduceSolveConfig)
    (as : List (Action S)) (t : RecurringReduceSolve S)
    (h : Machine.exec (step R cfg) start as = some t)
    (hr : Machine.Throughout (step R cfg) (Right R) start as) :
    (t.phase = .head → ∀ m : Model, m.Sat R.problem → ∃ e ∈ t.stack, m.Meets e.1) ∧
    (t.phase = .returned .UNSAT → ¬ Satisfiable R.problem) ∧
    (t.phase = .returned .SAT → ∃ m, t.model = some m ∧ m.Sat R.problem) := by
  have hinv : t.Inv R := Machine.exec_invariant_throughout
    (fun s a t hs hr hstep => hs.step hr hstep) inv_start hr h
  have hphase := hinv.phase
  refine ⟨fun hp => ?_, fun hp => ?_, fun hp => ?_⟩
  all_goals
    simp only [PhaseOk, hp] at hphase
    exact hphase

/-- A backdoor search that returns the same search for every base assumption. -/
def RBSearch.constant (search : Search) : RBSearch where
  State := Unit
  Action := Empty
  start := fun _ => ()
  step := fun _ a => nomatch a
  result := fun _ => some (.search search)

/-- The solve has returned `state`. -/
def RecurringReduceSolve.hasReturned {S : RBSearch} (state : State) (s : RecurringReduceSolve S) :
    Bool :=
  match s.phase with
  | .returned r => r = state
  | _ => false

theorem RecurringReduceSolve.phase_of_hasReturned {S : RBSearch} {state : State}
    {s : RecurringReduceSolve S} (h : s.hasReturned state = true) :
    s.phase = .returned state := by
  unfold hasReturned at h
  split at h
  · rename_i hp
    rw [hp, of_decide_eq_true h]
  · cases h

open RecurringReduceSolve in
/-- The assignments of `0`: propagation refutes `0`, and the service answers `SAT` for `¬0`. -/
theorem recurring_sound_twoClauses : ∃ as t m,
    Machine.exec (step twoClauses ⟨1, 1000, 2, 1⟩)
      (start : RecurringReduceSolve (.constant (fullSearch [0]))) as = some t ∧
    t.phase = .returned .SAT ∧ t.model = some m ∧ m.Sat twoClauses.problem := by
  let as : List (Action (.constant (fullSearch [0]))) :=
    [.iterate, .found, .filterConflict [[mkLit 0 true]], .task .submit, .task (.dequeue 0),
      .task (.answer 0 (.SAT fun _ => false)), .task (.callback 0), .task (.clearQueue 0), .collect,
      .proceed]
  have hrun : (Machine.exec (step twoClauses ⟨1, 1000, 2, 1⟩) start as).any (hasReturned .SAT) =
      true := by
    decide +kernel
  have hright : ∀ a ∈ as, ∀ s, Right twoClauses s a := by
    intro a ha s
    simp only [as, List.mem_cons, List.not_mem_nil, or_false] at ha
    rcases ha with rfl | rfl | rfl | rfl | rfl | rfl | rfl | rfl | rfl | rfl
    case inr.inl =>
      rintro base depth rb r - hres
      cases hres
      have hn : [0].length ≤ 63 := by decide
      exact RProp.covers_of_fresh (.full hn) (fullSearch_covers _ _ hn)
    case inr.inr.inr.inr.inr.inl =>
      rintro base depth limit batch - x -
      simp [Answer.Ok, UnitProp.Satisfies, twoClauses, Lit.Holds]
    all_goals simp [Right, Batch.Answers]
  obtain ⟨t, ht, hp⟩ := Machine.exists_run hrun
  have hphase := phase_of_hasReturned hp
  obtain ⟨m, hm, hsat⟩ := (recurring_sound _ _ _ _ t ht (Machine.throughout_of_forall hright)).2.2
    hphase
  exact ⟨as, t, m, ht, hphase, hm, hsat⟩

end Parsat
