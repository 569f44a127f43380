import Parsat.Solve.Dropped

/-!
# Solve — interrupts and broken promises

`ReduceSolve::solve`, with calls of `interrupt()` at any time.  A call sets the flag first; later it
clears the queue of the service, which destroys the tasks in there and breaks their promises.  The
two implementations do not mind.  But where `preprocess` returns `false`, `solve` calls `get()` on
the future of its only task, and that throws if the task is gone.  (`ReduceSolve` has the same way
through `solve` with both halves of an interrupt at once.)

* `ReduceCall.Doomed`: what is left of a solve that has dropped tasks.
* `ReduceCall.Lost`: the future of the only task has no value; `lost_step_iff` says which steps lead
  there.
* `ReduceCall.Inv.progress`, `ReduceCall.measure_lt`: the solve goes on until it ends, and after an
  interrupt it ends after finitely many steps.
* `interrupt_returns_iff`: the runs that return what they should are those in which no `interrupt()`
  finds the only task in the queue.
-/

namespace Parsat

/-- The future of `_solver_service->solve({}, DUR_INDEF)`: the task is in the queue or with a
solver, or there is a value, an exception of the solver, or the broken promise of a removed task. -/
inductive Future where
  | queued
  | solving
  | value (state : State)
  | exception
  | broken
  deriving DecidableEq

/-- What `get()` throws: what the solver threw, or `std::future_error`. -/
inductive Thrown where
  | solver
  | brokenPromise
  deriving DecidableEq

/-- Where `solve` is: in `preprocess`, in `get()`, in `_solve_impl`, or at its end. -/
inductive CallPhase (S : RBSearch) where
  | preprocessing
  | waiting (future : Future)
  | single (threads : ℕ) (state : SingleReduceSolve S)
  | recurring (cfg : RecurringReduceSolveConfig) (state : RecurringReduceSolve S)
  | returned (state : State)
  | threw (exception : Thrown)

/-- A call of `solve`, with `_interrupted` and the number of calls of `interrupt()` that have set it
and not yet cleared the queue. -/
structure ReduceCall (S : RBSearch) where
  phase : CallPhase S
  interrupted : Bool
  clearing : ℕ

/-- `num_solvers` of the service. -/
def ReduceSolveConfig.threads : ReduceSolveConfig → ℕ
  | .single threads => threads
  | .recurring cfg => cfg.threads

def Answer.state : Answer → State
  | .SAT _ => .SAT
  | .UNSAT => .UNSAT
  | .UNKNOWN => .UNKNOWN

variable {S : RBSearch}

namespace CallPhase

def flag : CallPhase S → CallPhase S
  | .single threads s => .single threads s.flag
  | .recurring cfg s => .recurring cfg s.flag
  | p => p

/-- A task that is in the queue is gone, and its promise broken. -/
def clear : CallPhase S → CallPhase S
  | .waiting .queued => .waiting .broken
  | .single threads s => .single threads s.clear
  | .recurring cfg s => .recurring cfg s.clear
  | p => p

/-- The start of `_solve_impl`. -/
def solveImpl (interrupted : Bool) : ReduceSolveConfig → CallPhase S
  | .single threads => .single threads { SingleReduceSolve.start with interrupted }
  | .recurring cfg => .recurring cfg { RecurringReduceSolve.start with interrupted }

end CallPhase

namespace ReduceCall

inductive Action (S : RBSearch) where
  | preprocessed
  | dequeue
  | answer (answer : Answer)
  | throw
  | get
  | single (action : SingleReduceSolve.Action S)
  | recurring (action : RecurringReduceSolve.Action S)
  | interrupt
  | clear

def start : ReduceCall S := ⟨.preprocessing, false, 0⟩

/-- `get()` on a future that is ready. -/
def get : Future → Option (CallPhase S)
  | .value state => some (.returned state)
  | .exception => some (.threw .solver)
  | .broken => some (.threw .brokenPromise)
  | .queued | .solving => none

/-- A step of `solve`, of the service, or of a call of `interrupt()`; `κ` and `beyond` are as in
`preprocess`. -/
def step (R : RProp) (κ : Solver → Clause) (beyond : List (ℕ × ℕ)) (cfg : ReduceSolveConfig)
    (s : ReduceCall S) : Action S → Option (ReduceCall S)
  | .preprocessed =>
    match s.phase with
    | .preprocessing =>
      (Preprocess.preprocess R.propagator κ R.problem R.engine beyond).map fun r =>
        { s with phase := if r.1 then .solveImpl s.interrupted cfg else .waiting .queued }
    | _ => none
  | .dequeue =>
    match s.phase with
    | .waiting .queued =>
      if 0 < cfg.threads then some { s with phase := .waiting .solving } else none
    | _ => none
  | .answer answer =>
    match s.phase with
    | .waiting .solving => some { s with phase := .waiting (.value answer.state) }
    | _ => none
  | .throw =>
    match s.phase with
    | .waiting .solving => some { s with phase := .waiting .exception }
    | _ => none
  | .get =>
    match s.phase with
    | .waiting future => (get future).map fun phase => { s with phase }
    | _ => none
  -- an interrupt of the implementation is one of the solve
  | .single .interrupt | .recurring .interrupt => none
  | .single a =>
    match s.phase with
    | .single threads t => (t.step R threads a).map fun t => { s with phase := .single threads t }
    | _ => none
  | .recurring a =>
    match s.phase with
    | .recurring cfg t => (t.step R cfg a).map fun t => { s with phase := .recurring cfg t }
    | _ => none
  | .interrupt => some ⟨s.phase.flag, true, s.clearing + 1⟩
  | .clear =>
    match s.clearing with
    | 0 => none
    | n + 1 => some { s with phase := s.phase.clear, clearing := n }

/-- What `solve` has returned. -/
def result (s : ReduceCall S) : Option State :=
  match s.phase with
  | .returned state => some state
  | .single _ ⟨.returned state, _, _⟩ => some state
  | .recurring _ ⟨_, .returned state, _, _, _⟩ => some state
  | _ => none

/-- `_model`, if a callback has stored one. -/
def model (s : ReduceCall S) : Option Model :=
  match s.phase with
  | .single _ t => t.model
  | .recurring _ t => t.model
  | _ => none

/-- `solve` has returned or thrown. -/
def Ended (s : ReduceCall S) : Prop :=
  s.result.isSome = true ∨ ∃ exception, s.phase = .threw exception

/-- Some task of the futures at hand was removed from the queue. -/
def Dropped (s : ReduceCall S) : Prop :=
  match s.phase with
  | .waiting future => future = .broken
  | .single _ ⟨.solving batch, _, _⟩ => ∃ d ∈ batch.done, d.2 = .dropped
  | .recurring _ ⟨_, .solving _ _ _ batch, _, _, _⟩ => ∃ d ∈ batch.done, d.2 = .dropped
  | _ => False

/-- The process ends here, in `preprocess` or by the division by zero in `prop_search`. -/
def Crashes (R : RProp) (κ : Solver → Clause) (beyond : List (ℕ × ℕ)) (s : ReduceCall S) : Prop :=
  match s.phase with
  | .preprocessing => Preprocess.preprocess R.propagator κ R.problem R.engine beyond = none
  | .single _ ⟨.filtering search, _, _⟩ => R.enumerated search = none
  | .recurring _ t => t.Crashes R
  | _ => False

/-- No `interrupt()` clears the queue while the only task is in it, and the solver does not throw on
this task. -/
def Safe (s : ReduceCall S) : Action S → Prop
  | .clear =>
    match s.phase with
    | .waiting future => future ≠ .queued
    | _ => True
  | .throw => False
  | _ => True

/-! ### The steps -/

variable {R : RProp} {κ : Solver → Clause} {beyond : List (ℕ × ℕ)} {cfg : ReduceSolveConfig}
  {s t : ReduceCall S} {a : Action S}

/-- What a step does. -/
inductive Step (R : RProp) (κ : Solver → Clause) (beyond : List (ℕ × ℕ)) (cfg : ReduceSolveConfig)
    (s : ReduceCall S) : Action S → ReduceCall S → Prop
  | preprocessed {r : Bool × List ℕ} : s.phase = .preprocessing →
      Preprocess.preprocess R.propagator κ R.problem R.engine beyond = some r →
      Step R κ beyond cfg s .preprocessed
        { s with phase := if r.1 then .solveImpl s.interrupted cfg else .waiting .queued }
  | dequeue : s.phase = .waiting .queued →
      Step R κ beyond cfg s .dequeue { s with phase := .waiting .solving }
  | answer {answer : Answer} : s.phase = .waiting .solving →
      Step R κ beyond cfg s (.answer answer) { s with phase := .waiting (.value answer.state) }
  | throw : s.phase = .waiting .solving →
      Step R κ beyond cfg s .throw { s with phase := .waiting .exception }
  | get {future : Future} {phase : CallPhase S} : s.phase = .waiting future →
      get future = some phase → Step R κ beyond cfg s .get { s with phase }
  | single {threads : ℕ} {u v : SingleReduceSolve S} {a : SingleReduceSolve.Action S} :
      s.phase = .single threads u → a ≠ .interrupt → u.step R threads a = some v →
      Step R κ beyond cfg s (.single a) { s with phase := .single threads v }
  | recurring {c : RecurringReduceSolveConfig} {u v : RecurringReduceSolve S}
      {a : RecurringReduceSolve.Action S} : s.phase = .recurring c u → a ≠ .interrupt →
      u.step R c a = some v →
      Step R κ beyond cfg s (.recurring a) { s with phase := .recurring c v }
  | interrupt : Step R κ beyond cfg s .interrupt ⟨s.phase.flag, true, s.clearing + 1⟩
  | clear {n : ℕ} : s.clearing = n + 1 →
      Step R κ beyond cfg s .clear { s with phase := s.phase.clear, clearing := n }

theorem step_single {a : SingleReduceSolve.Action S} (hne : a ≠ .interrupt) :
    s.step R κ beyond cfg (.single a) = match s.phase with
      | .single threads t =>
        (t.step R threads a).map fun t => { s with phase := .single threads t }
      | _ => none := by
  cases a <;> first | rfl | exact absurd rfl hne

theorem step_recurring {a : RecurringReduceSolve.Action S} (hne : a ≠ .interrupt) :
    s.step R κ beyond cfg (.recurring a) = match s.phase with
      | .recurring cfg t => (t.step R cfg a).map fun t => { s with phase := .recurring cfg t }
      | _ => none := by
  cases a <;> first | rfl | exact absurd rfl hne

theorem Step.of_single {a : SingleReduceSolve.Action S}
    (hs : s.step R κ beyond cfg (.single a) = some t) : Step R κ beyond cfg s (.single a) t := by
  have hne : a ≠ .interrupt := by
    rintro rfl
    cases hs
  rw [step_single hne] at hs
  split at hs
  · obtain ⟨v, hv, rfl⟩ := Option.map_eq_some_iff.mp hs
    exact .single ‹_› hne hv
  · cases hs

theorem Step.of_recurring {a : RecurringReduceSolve.Action S}
    (hs : s.step R κ beyond cfg (.recurring a) = some t) :
    Step R κ beyond cfg s (.recurring a) t := by
  have hne : a ≠ .interrupt := by
    rintro rfl
    cases hs
  rw [step_recurring hne] at hs
  split at hs
  · obtain ⟨v, hv, rfl⟩ := Option.map_eq_some_iff.mp hs
    exact .recurring ‹_› hne hv
  · cases hs

theorem Step.of_step (hs : s.step R κ beyond cfg a = some t) : Step R κ beyond cfg s a t := by
  cases a with
  | preprocessed =>
      simp only [ReduceCall.step] at hs
      split at hs
      · obtain ⟨r, hr, rfl⟩ := Option.map_eq_some_iff.mp hs
        exact .preprocessed ‹_› hr
      · cases hs
  | dequeue =>
      simp only [ReduceCall.step] at hs
      split at hs
      · split at hs <;> cases hs
        exact .dequeue ‹_›
      · cases hs
  | answer answer =>
      simp only [ReduceCall.step] at hs
      split at hs <;> cases hs
      exact .answer ‹_›
  | throw =>
      simp only [ReduceCall.step] at hs
      split at hs <;> cases hs
      exact .throw ‹_›
  | get =>
      simp only [ReduceCall.step] at hs
      split at hs
      · obtain ⟨phase, hget, rfl⟩ := Option.map_eq_some_iff.mp hs
        exact .get ‹_› hget
      · cases hs
  | single a => exact .of_single hs
  | recurring a => exact .of_recurring hs
  | interrupt =>
      cases hs
      exact .interrupt
  | clear =>
      simp only [ReduceCall.step] at hs
      split at hs <;> cases hs
      exact .clear ‹_›

/-- An interrupt is not taken back. -/
theorem interrupted_step (hi : s.interrupted = true) (hs : s.step R κ beyond cfg a = some t) :
    t.interrupted = true := by
  cases Step.of_step hs with
  | interrupt => rfl
  | preprocessed | dequeue | answer | throw | get | single | recurring | clear => exact hi

/-! ### The invariant -/

/-- The implementation has the threads of the configuration, knows about the interrupt, and is in
order. -/
def PhaseOk (cfg : ReduceSolveConfig) (s : ReduceCall S) : Prop :=
  match s.phase with
  | .single threads t =>
    threads = cfg.threads ∧ t.interrupted = s.interrupted ∧ t.Underway threads
  | .recurring c t =>
    c.threads = cfg.threads ∧ t.interrupted = s.interrupted ∧ t.Underway c ∧ t.Excused
  | _ => True

structure Inv (cfg : ReduceSolveConfig) (s : ReduceCall S) : Prop where
  clearing : 0 < s.clearing → s.interrupted = true
  phase : s.PhaseOk cfg

theorem inv_start : (start : ReduceCall S).Inv cfg := ⟨nofun, trivial⟩

theorem Inv.step (h : s.Inv cfg) (hs : s.step R κ beyond cfg a = some t) : t.Inv cfg := by
  have hphase := h.phase
  cases Step.of_step hs with
  | @preprocessed r =>
      refine ⟨h.clearing, ?_⟩
      obtain ⟨found, view⟩ := r
      cases found with
      | «false» => trivial
      | «true» =>
          cases cfg with
          | single threads => exact ⟨rfl, rfl, [], rfl⟩
          | recurring cfg => exact ⟨rfl, rfl, trivial, trivial⟩
  | dequeue | answer | throw => exact ⟨h.clearing, trivial⟩
  | @get future phase hp hget =>
      refine ⟨h.clearing, ?_⟩
      cases future <;> cases hget <;> trivial
  | single hp hne hv =>
      simp only [PhaseOk, hp] at hphase
      obtain ⟨hthreads, hi, hu⟩ := hphase
      exact ⟨h.clearing, hthreads, (SingleReduceSolve.step_interrupted hne hv).trans hi,
        hu.step hne hv⟩
  | recurring hp hne hv =>
      simp only [PhaseOk, hp] at hphase
      obtain ⟨hthreads, hi, hu, he⟩ := hphase
      exact ⟨h.clearing, hthreads, (RecurringReduceSolve.step_interrupted hne hv).trans hi,
        hu.step hv, he.step hne hv⟩
  | interrupt =>
      refine ⟨fun _ => rfl, ?_⟩
      obtain ⟨phase, i, n⟩ := s
      cases phase with
      | single threads t => exact ⟨hphase.1, rfl, hphase.2.2.flag⟩
      | recurring c t => exact ⟨hphase.1, rfl, hphase.2.2.1.flag, hphase.2.2.2.flag⟩
      | preprocessing | waiting | returned | threw => trivial
  | clear hn =>
      have hi := h.clearing (by omega)
      refine ⟨fun _ => hi, ?_⟩
      obtain ⟨phase, i, n⟩ := s
      cases phase with
      | waiting future => cases future <;> trivial
      | single threads t =>
          obtain ⟨hthreads, hti, hu⟩ := hphase
          exact ⟨hthreads, hti, hu.clear (hti.trans hi)⟩
      | recurring c t =>
          obtain ⟨hthreads, hti, hu, he⟩ := hphase
          exact ⟨hthreads, hti, hu.clear, he.clear (hti.trans hi)⟩
      | preprocessing | returned | threw => trivial

/-! ### Dropped tasks and lost values -/

/-- What is left of a solve that has dropped tasks. -/
def Doomed (s : ReduceCall S) : Prop :=
  match s.phase with
  | .waiting future => future = .broken
  | .single _ t => t.Doomed
  | .recurring _ t => t.Doomed
  | .threw exception => exception = .brokenPromise
  | _ => False

theorem Inv.doomed (h : s.Inv cfg) (hd : s.Dropped) : s.Doomed := by
  have hphase := h.phase
  obtain ⟨phase, i, n⟩ := s
  cases phase with
  | single threads t =>
      obtain ⟨phase, model, i⟩ := t
      cases phase with
      | solving batch =>
          obtain ⟨d, hmem, hdrop⟩ := hd
          exact hphase.2.2.2.1.dropped d hmem hdrop
      | searching | filtering | returned => exact hd.elim
  | recurring c t =>
      obtain ⟨stack, phase, model, i, history⟩ := t
      cases phase with
      | solving base depth limit batch =>
          obtain ⟨d, hmem, hdrop⟩ := hd
          exact hphase.2.2.2.dropped d hmem hdrop
      | head | searching | filtering | filtered | returned => exact hd.elim
  | waiting => exact hd
  | preprocessing | returned | threw => exact hd.elim

theorem Doomed.step (hd : s.Doomed) (h : s.Inv cfg) (hs : s.step R κ beyond cfg a = some t) :
    t.Doomed := by
  have hphase := h.phase
  cases Step.of_step hs with
  | preprocessed hp =>
      simp only [Doomed, hp] at hd
  | dequeue hp | answer hp | throw hp =>
      simp only [Doomed, hp] at hd
      cases hd
  | get hp hget =>
      simp only [Doomed, hp] at hd
      subst hd
      cases hget
      rfl
  | single hp hne hv =>
      simp only [Doomed, hp] at hd
      simp only [PhaseOk, hp] at hphase
      exact hd.step hphase.2.2 hv
  | recurring hp hne hv =>
      simp only [Doomed, hp] at hd
      simp only [PhaseOk, hp] at hphase
      exact hd.step hphase.2.2.2 hv
  | interrupt =>
      obtain ⟨phase, i, n⟩ := s
      cases phase with
      | single threads t => exact SingleReduceSolve.Doomed.flag hd
      | recurring c t => exact RecurringReduceSolve.Doomed.flag hd
      | preprocessing | waiting | returned | threw => exact hd
  | clear =>
      obtain ⟨phase, i, n⟩ := s
      cases phase with
      | waiting future =>
          obtain rfl : future = .broken := hd
          rfl
      | single threads t => exact SingleReduceSolve.Doomed.clear hd
      | recurring c t => exact RecurringReduceSolve.Doomed.clear hd
      | preprocessing | returned | threw => exact hd

/-- A result after dropped tasks. -/
theorem Doomed.cautious (hd : s.Doomed) {state : State} (hr : s.result = some state) :
    Cautious state s.model := by
  unfold result at hr
  split at hr <;> cases hr
  · rename_i hp
    simp only [Doomed, hp] at hd
  · rename_i hp
    simp only [Doomed, hp] at hd
    simp only [model, hp]
    exact hd
  · rename_i hp
    simp only [Doomed, hp] at hd
    simp only [model, hp]
    exact hd

/-- The future of the only task will not have a value, or `get()` has thrown. -/
def Lost (s : ReduceCall S) : Prop :=
  match s.phase with
  | .waiting future => future = .exception ∨ future = .broken
  | .threw _ => True
  | _ => False

/-- **The value is lost** exactly by the steps that are not safe. -/
theorem lost_step_iff (hs : s.step R κ beyond cfg a = some t) :
    t.Lost ↔ s.Lost ∨ ¬ s.Safe a := by
  cases Step.of_step hs with
  | @preprocessed r hp =>
      obtain ⟨found, view⟩ := r
      cases found <;> cases cfg <;> simp [Lost, Safe, hp, CallPhase.solveImpl]
  | dequeue hp | answer hp | throw hp => simp [Lost, Safe, hp]
  | @get future phase hp hget =>
      cases future <;> cases hget <;> simp [Lost, Safe, hp]
  | single hp | recurring hp => simp [Lost, Safe, hp]
  | interrupt =>
      obtain ⟨phase, i, n⟩ := s
      cases phase <;> simp [Lost, Safe, CallPhase.flag]
  | clear =>
      obtain ⟨phase, i, n⟩ := s
      cases phase with
      | waiting future => cases future <;> simp [Lost, Safe, CallPhase.clear]
      | preprocessing | single | recurring | returned | threw =>
          simp [Lost, Safe, CallPhase.clear]

theorem not_lost_start : ¬ (start : ReduceCall S).Lost := id

/-- A solve that ends without a value has lost it. -/
theorem Ended.lost_iff (he : s.Ended) : s.Lost ↔ s.result = none := by
  obtain ⟨phase, i, n⟩ := s
  rcases he with hr | ⟨e, rfl⟩
  · obtain ⟨state, hr⟩ := Option.isSome_iff_exists.mp hr
    refine iff_of_false ?_ (by rw [hr]; nofun)
    cases phase with
    | waiting | threw => cases hr
    | preprocessing | single | recurring | returned => exact id
  · exact iff_of_true trivial rfl

/-! ### The end of a solve -/

noncomputable def stages (s : ReduceCall S) : ℕ × Ordinal.{0} :=
  match s.phase with
  | .preprocessing => (6, 0)
  | .waiting .queued => (3, 0)
  | .waiting .solving => (2, 0)
  | .waiting _ => (1, 0)
  | .single _ t => t.stages
  | .recurring _ t => t.stages
  | .returned _ | .threw _ => (0, 0)

/-- The stages that are left, and the interrupts that have not cleared the queue. -/
def Below : (ℕ × Ordinal.{0}) × ℕ → (ℕ × Ordinal.{0}) × ℕ → Prop := Prod.Lex StageLt (· < ·)

theorem wellFounded_below : WellFounded Below :=
  (Nat.lt_wfRel.wf.prod_lex Ordinal.lt_wf).prod_lex Nat.lt_wfRel.wf

/-- Clearing the queue, once. -/
theorem below_clear {x y : ℕ × Ordinal.{0}} {m n : ℕ} (h : x = y ∨ StageLt x y) (hn : n = m + 1) :
    Below (x, m) (y, n) := by
  rcases h with rfl | h
  · exact .right _ (hn ▸ Nat.lt_succ_self m)
  · exact .left _ _ h

/-- **Every step after an interrupt goes down.** -/
theorem measure_lt (hS : S.Returns) (h : s.Inv cfg) (hi : s.interrupted = true)
    (hne : a ≠ .interrupt) (hs : s.step R κ beyond cfg a = some t) :
    Below (t.stages, t.clearing) (s.stages, s.clearing) := by
  have hphase := h.phase
  cases Step.of_step hs with
  | @preprocessed r hp =>
      obtain ⟨found, view⟩ := r
      simp only [stages, hp]
      cases found with
      | «false» => exact .left _ _ (stageLt_of_lt (by decide))
      | «true» => cases cfg <;> exact .left _ _ (stageLt_of_lt (by decide))
  | dequeue hp | answer hp | throw hp =>
      simp only [stages, hp]
      exact .left _ _ (stageLt_of_lt (by decide))
  | @get future phase hp hget =>
      simp only [stages, hp]
      cases future <;> cases hget <;> exact .left _ _ (stageLt_of_lt (by decide))
  | single hp hnot hv =>
      simp only [PhaseOk, hp] at hphase
      simp only [stages, hp]
      exact .left _ _ (SingleReduceSolve.stages_lt hS hphase.2.2 hnot hv)
  | recurring hp hnot hv =>
      simp only [PhaseOk, hp] at hphase
      obtain ⟨-, hti, hu, -⟩ := hphase
      simp only [stages, hp]
      exact .left _ _ (RecurringReduceSolve.stages_lt hS hu (hti.trans hi) hnot hv)
  | interrupt => exact absurd rfl hne
  | @clear m hn =>
      refine below_clear ?_ hn
      obtain ⟨phase, i, n⟩ := s
      cases phase with
      | waiting future =>
          cases future with
          | queued => exact .inr (stageLt_of_lt (by decide))
          | solving | value | exception | broken => exact .inl rfl
      | single threads t => exact t.stages_clear
      | recurring c t => exact t.stages_clear
      | preprocessing | returned | threw => exact .inl rfl

/-- **The solve goes on** until it ends, without further interrupts. -/
theorem Inv.progress (hS : S.Returns) (hthreads : 0 < cfg.threads) (h : s.Inv cfg) :
    s.Ended ∨ s.Crashes R κ beyond ∨
      ∃ a t, a ≠ .interrupt ∧ s.step R κ beyond cfg a = some t := by
  have hphase := h.phase
  cases hp : s.phase with
  | preprocessing =>
      cases hr : Preprocess.preprocess R.propagator κ R.problem R.engine beyond with
      | none =>
          refine .inr (.inl ?_)
          simp only [Crashes, hp, hr]
      | some r =>
          refine .inr (.inr (Machine.exists_step .preprocessed (by simp) ?_))
          simp [ReduceCall.step, hp, hr]
  | waiting future =>
      refine .inr (.inr ?_)
      cases future with
      | queued =>
          refine Machine.exists_step .dequeue (by simp) ?_
          simp [ReduceCall.step, hp, hthreads]
      | solving =>
          refine Machine.exists_step (.answer .UNKNOWN) (by simp) ?_
          simp [ReduceCall.step, hp]
      | value | exception | broken =>
          refine Machine.exists_step .get (by simp) ?_
          simp [ReduceCall.step, hp, get]
  | single threads t =>
      simp only [PhaseOk, hp] at hphase
      obtain ⟨rfl, -, hu⟩ := hphase
      rcases hu.progress (R := R) hS hthreads with ⟨state, hr⟩ | ⟨search, hf, hall⟩ |
        ⟨a, u, hne, hs⟩
      · obtain ⟨phase, model, i⟩ := t
        cases hr
        exact .inl (.inl (by simp [result, hp]))
      · obtain ⟨phase, model, i⟩ := t
        cases hf
        exact .inr (.inl (by simpa [Crashes, hp] using hall))
      · refine .inr (.inr (Machine.exists_step (.single a) (by simp) ?_))
        rw [step_single hne]
        simp [hp, hs]
  | recurring c t =>
      simp only [PhaseOk, hp] at hphase
      obtain ⟨hc, -, hu, -⟩ := hphase
      rcases hu.progress (R := R) hS (hc ▸ hthreads) with ⟨state, hr⟩ | hcrash | ⟨a, u, hpat, hs⟩
      · obtain ⟨stack, phase, model, i, history⟩ := t
        cases hr
        exact .inl (.inl (by simp [result, hp]))
      · exact .inr (.inl (by simpa [Crashes, hp] using hcrash))
      · have hne : a ≠ .interrupt := by
          rintro rfl
          exact hpat
        refine .inr (.inr (Machine.exists_step (.recurring a) (by simp) ?_))
        rw [step_recurring hne]
        simp [hp, hs]
  | returned state => exact .inl (.inl (by simp [result, hp]))
  | threw e => exact .inl (.inr ⟨e, hp⟩)

end ReduceCall

open ReduceCall in
/-- **Interrupts.**  In any interleaving of `solve` with calls of `interrupt()` in which `solve` has
come to its end: it returns a result, and `UNKNOWN` or `SAT` with a model if tasks were dropped on
the way, if and only if no interrupt clears the queue while the task of the fallback is in it (and
the solver does not throw on this task).  If every `find_rb` returns, `solve` gets on until it ends,
and only finitely many steps are left after an interrupt that no other one follows. -/
theorem interrupt_returns_iff (R : RProp) (κ : Solver → Clause) (beyond : List (ℕ × ℕ))
    (S : RBSearch) (cfg : ReduceSolveConfig) :
    (∀ as t, Machine.exec (step R κ beyond cfg) (start : ReduceCall S) as = some t → t.Ended →
      ((∃ state, t.result = some state ∧
          ((∃ bs u, bs <+: as ∧ Machine.exec (step R κ beyond cfg) start bs = some u ∧ u.Dropped) →
            state = .UNKNOWN ∨ state = .SAT ∧ t.model.isSome = true)) ↔
        Machine.Throughout (step R κ beyond cfg) Safe start as)) ∧
    (S.Returns →
      (∀ as t, Machine.exec (step R κ beyond cfg) (start : ReduceCall S) as = some t →
        0 < cfg.threads → t.Ended ∨ t.Crashes R κ beyond ∨
          ∃ a u, a ≠ .interrupt ∧ t.step R κ beyond cfg a = some u) ∧
      ∀ (s : ℕ → ReduceCall S) (a : ℕ → Action S),
        (∃ as, Machine.exec (step R κ beyond cfg) start as = some (s 0)) →
        (s 0).interrupted = true →
        ¬ ∀ n, a n ≠ .interrupt ∧ (s n).step R κ beyond cfg (a n) = some (s (n + 1))) := by
  have hinv : ∀ {as : List (Action S)} {t : ReduceCall S},
      Machine.exec (step R κ beyond cfg) start as = some t → t.Inv cfg := fun h =>
    Machine.exec_invariant (fun _ _ _ hi hs => Inv.step hi hs) inv_start h
  refine ⟨fun as t h he => ?_, fun hS => ⟨fun as t h hthreads => ?_, ?_⟩⟩
  · rw [Machine.throughout_iff_not (fun _ _ _ hs => lost_step_iff hs) not_lost_start h,
      he.lost_iff]
    constructor
    · rintro ⟨state, hr, -⟩ hnone
      rw [hr] at hnone
      cases hnone
    · intro hne
      obtain ⟨state, hr⟩ := Option.ne_none_iff_exists'.mp hne
      refine ⟨state, hr, ?_⟩
      rintro ⟨bs, u, ⟨cs, rfl⟩, hu, hd⟩
      rw [Machine.exec_append, hu, Option.bind_some] at h
      have hdoomed := Machine.exec_invariant (I := fun s => s.Inv cfg ∧ s.Doomed)
        (fun _ _ _ hi hs => ⟨hi.1.step hs, hi.2.step hi.1 hs⟩) ⟨hinv hu, (hinv hu).doomed hd⟩ h
      exact hdoomed.2.cautious hr
  · exact (hinv h).progress hS hthreads
  · rintro s a ⟨as, h0⟩ hi
    refine Machine.not_infinite (C := fun _ a => a ≠ Action.interrupt)
      (I := fun s : ReduceCall S => s.Inv cfg ∧ s.interrupted = true) wellFounded_below
      (fun s => (s.stages, s.clearing)) ?_ ?_ ⟨hinv h0, hi⟩
    · exact fun _ _ _ h hne hs => ⟨h.1.step hs, interrupted_step h.2 hs⟩
    · exact fun _ _ _ h hne hs => measure_lt hS h.1 h.2 hne hs

open ReduceCall in
/-- The problem goes to the service, and an interrupt finds its task in the queue: `get()`
throws. -/
theorem interrupt_breaks_promise : ∃ as t,
    Machine.exec (step idleClauses (fun _ => []) [] (.single 1))
      (start : ReduceCall (.constant (fullSearch [0]))) as = some t ∧
    t.Ended ∧ t.result = none ∧ t.phase = .threw .brokenPromise := by
  have hpre : Preprocess.preprocess .saturating (fun _ => []) idleClauses.problem .simp [] =
      some (false, []) := by
    decide +kernel
  have hfirst : step idleClauses (fun _ => []) [] (.single 1)
      (start : ReduceCall (.constant (fullSearch [0]))) .preprocessed =
        some ⟨.waiting .queued, false, 0⟩ :=
    congrArg (Option.map fun r : Bool × List ℕ => (⟨if r.1 then _ else _, false, 0⟩ : ReduceCall _))
      hpre
  refine ⟨[.preprocessed, .interrupt, .clear, .get], ⟨.threw .brokenPromise, true, 0⟩, ?_,
    .inr ⟨_, rfl⟩, rfl, rfl⟩
  rw [Machine.exec, hfirst]
  rfl

open ReduceCall in
/-- `SingleReduceSolve` has submitted two tasks when the queue is cleared, and returns `UNKNOWN`; no
interrupted solve goes on forever. -/
theorem interrupt_returns_single : (∃ as t,
      Machine.exec (step propagatingClauses (fun _ => []) [] (.single 1))
        (start : ReduceCall (.constant (fullSearch [0]))) as = some t ∧
      t.result = some .UNKNOWN ∧
      Machine.Throughout (step propagatingClauses (fun _ => []) [] (.single 1)) Safe start as) ∧
    ∀ (s : ℕ → ReduceCall (.constant (fullSearch [0]))) (a : ℕ → Action _),
      (∃ as, Machine.exec (step propagatingClauses (fun _ => []) [] (.single 1)) start as =
        some (s 0)) → (s 0).interrupted = true →
      ¬ ∀ n, a n ≠ .interrupt ∧
        (s n).step propagatingClauses (fun _ => []) [] (.single 1) (a n) = some (s (n + 1)) := by
  let as : List (Action (.constant (fullSearch [0]))) :=
    [.preprocessed, .single .found,
      .single (.filterConflict [[mkLit 0 false], [mkLit 0 true]] []), .single (.task .submit),
      .interrupt, .single (.task .submit), .clear, .single .collect]
  have hrun : (Machine.exec (step propagatingClauses (fun _ => []) [] (.single 1)) start as).any
      (fun t => t.result = some .UNKNOWN) = true := by
    decide +kernel
  obtain ⟨t, ht, hp⟩ := Machine.exists_run hrun
  have hr := of_decide_eq_true hp
  obtain ⟨hiff, hend⟩ := interrupt_returns_iff propagatingClauses (fun _ => []) []
    (.constant (fullSearch [0])) (.single 1)
  refine ⟨⟨as, t, ht, hr, ?_⟩, (hend (RBSearch.constant_returns _)).2⟩
  refine (hiff as t ht (.inl (by rw [hr]; rfl))).mp ⟨_, hr, fun _ => .inl rfl⟩

end Parsat
