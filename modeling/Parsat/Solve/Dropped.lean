import Parsat.Solve.Reduce
import Parsat.Solve.Termination

/-!
# Solve — dropped tasks

A call of `interrupt()` sets the flag of the solve, and later clears the queue of the service, which
drops the tasks in there; so does the callback of a `SAT` answer.  The two implementations wait for
the futures and do not look.  Here the two halves of an interrupt may come at any time: `flag` and
`clear` are what they do to `_solve_impl`.

* `Batch.Excused`: in a batch, tasks are dropped only after a `SAT` answer or an interrupt.
* `SingleReduceSolve.Doomed`, `RecurringReduceSolve.Doomed`: what is left of a solve that has
  dropped tasks; its result is `UNKNOWN`, or `SAT` with a model (`Cautious`).
* `SingleReduceSolve.stages_lt`, `RecurringReduceSolve.stages_lt`: what is left to do after an
  interrupt gets less.
-/

namespace Parsat

variable {S : RBSearch}

/-- `_interrupted = true`, as `_solve_impl` sees it. -/
def SingleReduceSolve.flag (s : SingleReduceSolve S) : SingleReduceSolve S where
  phase := match s.phase with
    | .solving batch => .solving { batch with interrupted := true }
    | p => p
  model := s.model
  interrupted := true

/-- `_task_queue = {}`. -/
def SingleReduceSolve.clear (s : SingleReduceSolve S) : SingleReduceSolve S where
  phase := match s.phase with
    | .solving batch => .solving batch.dropQueue
    | p => p
  model := s.model
  interrupted := s.interrupted

def RecurringReduceSolve.flag (s : RecurringReduceSolve S) : RecurringReduceSolve S where
  stack := s.stack
  phase := match s.phase with
    | .solving base depth limit batch =>
      .solving base depth limit { batch with interrupted := true }
    | p => p
  model := s.model
  interrupted := true
  history := s.history

def RecurringReduceSolve.clear (s : RecurringReduceSolve S) : RecurringReduceSolve S where
  stack := s.stack
  phase := match s.phase with
    | .solving base depth limit batch => .solving base depth limit batch.dropQueue
    | p => p
  model := s.model
  interrupted := s.interrupted
  history := s.history

/-! ### Dropped tasks -/

namespace Batch

variable {i : Bool} {t t' : Batch} {a : Action}

/-- Tasks are dropped only once there is a `SAT` answer, or the flag `i` is set. -/
structure Excused (i : Bool) (t : Batch) : Prop where
  dropped : ∀ d ∈ t.done, d.2 = .dropped → t.satisfied = true ∨ i = true
  interrupting : ∀ x m, .interrupting x m ∈ t.workers → t.satisfied = true
  clearing : t.clearing = true → i = true
  model : t.satisfied = true → t.model.isSome = true

theorem excused_start (i interrupted : Bool) (assumptions : List LitVec) (threads : ℕ) :
    Excused i { start assumptions threads with interrupted } where
  dropped := by simp [start]
  interrupting x m hw := by cases List.eq_of_mem_replicate hw
  clearing := by simp [start]
  model := by simp [start]

/-- An interrupt excuses everything. -/
theorem Excused.flag (h : t.Excused i) : Excused true { t with interrupted := true } :=
  ⟨fun _ _ _ => .inr rfl, h.interrupting, fun _ => rfl, h.model⟩

theorem Excused.dropQueue (h : t.Excused i) (hi : t.satisfied = true ∨ i = true) :
    t.dropQueue.Excused i :=
  ⟨fun _ _ _ => hi, h.interrupting, h.clearing, h.model⟩

/-- A worker goes on, and not to the interrupt of the service. -/
theorem Excused.workers_set (h : t.Excused i) (w : ℕ) {new : ServiceWorker}
    (hnew : ∀ x m, new ≠ .interrupting x m) :
    ∀ x m, .interrupting x m ∈ t.workers.set w new → t.satisfied = true := by
  intro x m hx
  rcases List.mem_or_eq_of_mem_set hx with hx | hx
  · exact h.interrupting x m hx
  · exact absurd hx.symm (hnew x m)

/-- A task ends, and not by being dropped. -/
theorem Excused.done_append (h : t.Excused i) (x : Task) {o : Outcome} (ho : o ≠ .dropped) :
    ∀ d ∈ t.done ++ [(x, o)], d.2 = .dropped → t.satisfied = true ∨ i = true := by
  intro d hd hdrop
  rcases List.mem_append.mp hd with hd | hd
  · exact h.dropped d hd hdrop
  · obtain rfl := List.mem_singleton.mp hd
    exact absurd hdrop ho

theorem Excused.step (h : t.Excused i) (hne : a ≠ .interrupt) (hs : t.step a = some t') :
    t'.Excused i := by
  cases Step.of_step hs with
  | submit => exact ⟨h.dropped, h.interrupting, h.clearing, h.model⟩
  | @dequeue w => exact ⟨h.dropped, h.workers_set w (by simp), h.clearing, h.model⟩
  | @answer w => exact ⟨h.dropped, h.workers_set w (by simp), h.clearing, h.model⟩
  | @throw w x =>
      exact ⟨h.done_append x (by simp), h.workers_set w (by simp), h.clearing, h.model⟩
  | @callback w x answer =>
      cases answer with
      | SAT m => exact ⟨fun _ _ _ => .inl rfl, fun _ _ _ => rfl, h.clearing, fun _ => rfl⟩
      | UNSAT | UNKNOWN =>
          exact ⟨h.done_append x (by simp), h.workers_set w (by simp), h.clearing, h.model⟩
  | @clearQueue w x m hw =>
      -- only the callback of a `SAT` answer interrupts the service
      have hsat := h.interrupting x m (List.mem_of_getElem? hw)
      exact ⟨fun _ _ _ => .inl hsat, h.workers_set w (by simp), h.clearing, h.model⟩
  | interrupt => exact absurd rfl hne
  | clearInterrupt hc =>
      exact ⟨fun _ _ _ => .inr (h.clearing hc), h.interrupting, fun _ => h.clearing hc, h.model⟩

/-- A `SAT` answer is not taken back. -/
theorem satisfied_step (hsat : t.satisfied = true) (hs : t.step a = some t') :
    t'.satisfied = true := by
  cases Step.of_step hs with
  | @callback w x answer =>
      cases answer with
      | SAT m => rfl
      | UNSAT | UNKNOWN => exact hsat
  | submit | dequeue | answer | throw | clearQueue | interrupt | clearInterrupt => exact hsat

theorem work_dropQueue_le (t : Batch) : t.dropQueue.work ≤ t.work := by
  simp only [work, dropQueue, List.length_nil]
  omega

end Batch

/-- What a solve returns when tasks were dropped. -/
def Cautious (state : State) (model : Option Model) : Prop :=
  state = .UNKNOWN ∨ state = .SAT ∧ model.isSome = true

/-! ### `SingleReduceSolve` -/

namespace SingleReduceSolve

variable {R : RProp} {threads : ℕ} {s t : SingleReduceSolve S} {a : Action S}

/-- What goes on is a run of `find_rb`, or a batch on the threads of the service, which drops tasks
for a reason and knows about an interrupt. -/
def Underway (threads : ℕ) (s : SingleReduceSolve S) : Prop :=
  match s.phase with
  | .searching rb => ∃ as, Machine.exec S.step (S.start []) as = some rb
  | .solving batch => batch.workers.length = threads ∧ batch.Excused s.interrupted ∧
      (s.interrupted = true → batch.interrupted = true)
  | _ => True

/-- What is left of a solve that has dropped tasks. -/
def Doomed (s : SingleReduceSolve S) : Prop :=
  match s.phase with
  | .solving batch => batch.satisfied = true ∨ s.interrupted = true
  | .returned state => Cautious state s.model
  | _ => False

theorem step_interrupted (hne : a ≠ .interrupt) (hs : s.step R threads a = some t) :
    t.interrupted = s.interrupted := by
  cases Step.of_step hs with
  | interrupt => exact absurd rfl hne
  | search | stop | found | filterConflict | task | collect => rfl

theorem Underway.step (h : s.Underway threads) (hne : a ≠ .interrupt)
    (hs : s.step R threads a = some t) : t.Underway threads := by
  cases Step.of_step hs with
  | @search rb rb' a hp hrb =>
      simp only [Underway, hp] at h
      obtain ⟨as, has⟩ := h
      exact ⟨as ++ [a], Machine.exec_concat.mpr ⟨_, has, hrb⟩⟩
  | stop | found | collect => trivial
  | filterConflict =>
      exact ⟨List.length_replicate, Batch.excused_start .., id⟩
  | task hp hnot hb =>
      simp only [Underway, hp] at h
      obtain ⟨hlen, hex, hi⟩ := h
      refine ⟨(Batch.length_workers (Batch.Step.of_step hb)).trans hlen, hex.step hnot hb, ?_⟩
      rw [Batch.step_interrupted hnot hb]
      exact hi
  | interrupt => exact absurd rfl hne

theorem Underway.flag (h : s.Underway threads) : s.flag.Underway threads := by
  obtain ⟨phase, model, i⟩ := s
  cases phase with
  | solving batch => exact ⟨h.1, h.2.1.flag, fun _ => rfl⟩
  | searching | filtering | returned => exact h

theorem Underway.clear (h : s.Underway threads) (hi : s.interrupted = true) :
    s.clear.Underway threads := by
  obtain ⟨phase, model, i⟩ := s
  cases phase with
  | solving batch => exact ⟨h.1, h.2.1.dropQueue (.inr hi), h.2.2⟩
  | searching | filtering | returned => exact h

theorem Doomed.step (h : s.Doomed) (hu : s.Underway threads) (hs : s.step R threads a = some t) :
    t.Doomed := by
  cases Step.of_step hs with
  | search hp | stop hp | found hp | filterConflict hp =>
      simp only [Doomed, hp] at h
  | task hp hne hb =>
      simp only [Doomed, hp] at h
      exact h.imp_left fun hsat => Batch.satisfied_step hsat hb
  | @collect batch hp =>
      simp only [Doomed, hp] at h
      simp only [Underway, hp] at hu
      obtain ⟨-, hex, hi⟩ := hu
      cases hstate : batch.solveFinal with
      | SAT =>
          have hmodel := hex.model (Batch.solveFinal_eq_SAT.mp hstate)
          exact .inr ⟨rfl, isSome_orElse hmodel s.model⟩
      | UNSAT =>
          -- neither a `SAT` answer nor an interrupt
          obtain ⟨hsat, -, hint⟩ := Batch.solveFinal_eq_UNSAT.mp hstate
          rcases h with h | h
          · rw [hsat] at h
            cases h
          · rw [hi h] at hint
            cases hint
      | UNKNOWN => exact .inl rfl
  | interrupt =>
      obtain ⟨phase, model, i⟩ := s
      cases phase with
      | solving => exact .inr rfl
      | searching | filtering | returned => exact h

theorem Doomed.flag (h : s.Doomed) : s.flag.Doomed := by
  obtain ⟨phase, model, i⟩ := s
  cases phase with
  | solving => exact .inr rfl
  | searching | filtering | returned => exact h

theorem Doomed.clear (h : s.Doomed) : s.clear.Doomed := by
  obtain ⟨phase, model, i⟩ := s
  cases phase <;> exact h

end SingleReduceSolve

/-! ### `RecurringReduceSolve` -/

namespace RecurringReduceSolve

variable {R : RProp} {cfg : RecurringReduceSolveConfig} {s t : RecurringReduceSolve S}
  {a : Action S}

/-- The batch at hand drops tasks for a reason. -/
def Excused (s : RecurringReduceSolve S) : Prop :=
  match s.phase with
  | .solving _ _ _ batch => batch.Excused s.interrupted
  | _ => True

/-- What is left of a solve that has dropped tasks. -/
def Doomed (s : RecurringReduceSolve S) : Prop :=
  match s.phase with
  | .solving _ _ _ batch => batch.satisfied = true ∨ s.interrupted = true
  | .filtered _ _ result =>
    result = .state .SAT ∧ s.model.isSome = true ∨ s.interrupted = true
  | .returned state => Cautious state s.model
  | _ => s.interrupted = true

theorem step_interrupted (hne : a ≠ .interrupt) (hs : s.step R cfg a = some t) :
    t.interrupted = s.interrupted := by
  cases Step.of_step hs with
  | interrupt => exact absurd rfl hne
  | iterate | search | stop | found | filterConflict | task | collect | leave | decide | again |
      giveUp | exhaust => rfl

theorem Underway.step (h : s.Underway cfg) (hs : s.step R cfg a = some t) : t.Underway cfg := by
  cases Step.of_step hs with
  | iterate => exact ⟨[], rfl⟩
  | @search base depth rb rb' a hp hrb =>
      simp only [Underway, hp] at h
      obtain ⟨as, has⟩ := h
      exact ⟨as ++ [a], Machine.exec_concat.mpr ⟨_, has, hrb⟩⟩
  | stop | found | collect | leave | decide | again | giveUp | exhaust => trivial
  | filterConflict => exact List.length_replicate
  | task hp _ hb =>
      simp only [Underway, hp] at h
      exact (Batch.length_workers (Batch.Step.of_step hb)).trans h
  | interrupt =>
      obtain ⟨stack, phase, model, i, history⟩ := s
      cases phase <;> exact h

theorem Underway.flag (h : s.Underway cfg) : s.flag.Underway cfg := by
  obtain ⟨stack, phase, model, i, history⟩ := s
  cases phase <;> exact h

theorem Underway.clear (h : s.Underway cfg) : s.clear.Underway cfg := by
  obtain ⟨stack, phase, model, i, history⟩ := s
  cases phase <;> exact h

theorem Excused.step (h : s.Excused) (hne : a ≠ .interrupt) (hs : s.step R cfg a = some t) :
    t.Excused := by
  cases Step.of_step hs with
  | iterate | search | stop | found | collect | leave | decide | again | giveUp | exhaust => trivial
  | filterConflict => exact Batch.excused_start s.interrupted false _ _
  | task hp hnot hb =>
      simp only [Excused, hp] at h
      exact h.step hnot hb
  | interrupt => exact absurd rfl hne

theorem Excused.flag (h : s.Excused) : s.flag.Excused := by
  obtain ⟨stack, phase, model, i, history⟩ := s
  cases phase with
  | solving base depth limit batch => exact Batch.Excused.flag h
  | head | searching | filtering | filtered | returned => trivial

theorem Excused.clear (h : s.Excused) (hi : s.interrupted = true) : s.clear.Excused := by
  obtain ⟨stack, phase, model, i, history⟩ := s
  cases phase with
  | solving base depth limit batch => exact Batch.Excused.dropQueue h (.inr hi)
  | head | searching | filtering | filtered | returned => trivial

/-- After an interrupt, the end of an iteration and the head of the loop leave it. -/
theorem step_of_interrupted (hi : s.interrupted = true) (ha : a = .proceed ∨ a = .finish)
    (hs : s.step R cfg a = some t) : t = { s with phase := .returned .UNKNOWN } := by
  rcases ha with rfl | rfl
  all_goals
    simp only [RecurringReduceSolve.step, hi, if_true] at hs
    split at hs <;> cases hs
    rw [hi]

theorem Doomed.step (h : s.Doomed) (he : s.Excused) (hs : s.step R cfg a = some t) :
    t.Doomed := by
  cases Step.of_step hs with
  | iterate hp _ hi =>
      simp only [Doomed, hp, hi] at h
      cases h
  | search hp | found hp =>
      simp only [Doomed, hp] at h
      exact h
  | filterConflict hp =>
      simp only [Doomed, hp] at h
      exact .inr h
  | stop hp =>
      simp only [Doomed, hp] at h
      exact .inr h
  | task hp hnot hb =>
      simp only [Doomed, hp] at h
      exact h.imp_left fun hsat => Batch.satisfied_step hsat hb
  | @collect base depth limit batch hp =>
      simp only [Doomed, hp] at h
      simp only [Excused, hp] at he
      refine h.imp_left fun hsat => ⟨?_, isSome_orElse (he.model hsat) s.model⟩
      rw [Batch.filterFast, if_pos hsat]
  | leave | giveUp => exact .inl rfl
  | @decide base depth state hp =>
      simp only [Doomed, hp] at h
      rcases h with ⟨hsat, hmodel⟩ | hi
      · cases hsat
        exact .inr ⟨rfl, hmodel⟩
      · rw [step_of_interrupted hi (.inl rfl) hs]
        exact .inl rfl
  | @again base depth result failed hp hfail =>
      simp only [Doomed, hp] at h
      rcases h with ⟨rfl, -⟩ | hi
      · cases hfail
      · rw [step_of_interrupted hi (.inl rfl) hs]
        exact .inl rfl
  | exhaust hp =>
      simp only [Doomed, hp] at h
      rw [step_of_interrupted h (.inr rfl) hs]
      exact .inl rfl
  | interrupt =>
      obtain ⟨stack, phase, model, i, history⟩ := s
      cases phase with
      | solving | filtered => exact .inr rfl
      | head | searching | filtering => rfl
      | returned => exact h

theorem Doomed.flag (h : s.Doomed) : s.flag.Doomed := by
  obtain ⟨stack, phase, model, i, history⟩ := s
  cases phase with
  | solving | filtered => exact .inr rfl
  | head | searching | filtering => rfl
  | returned => exact h

theorem Doomed.clear (h : s.Doomed) : s.clear.Doomed := by
  obtain ⟨stack, phase, model, i, history⟩ := s
  cases phase <;> exact h

end RecurringReduceSolve

/-! ### The stages -/

/-- The order the stages go down in, with the steps inside the one at hand. -/
def StageLt : ℕ × Ordinal.{0} → ℕ × Ordinal.{0} → Prop := Prod.Lex (· < ·) (· < ·)

theorem stageLt_of_lt {m n : ℕ} {α β : Ordinal.{0}} (h : m < n) : StageLt (m, α) (n, β) :=
  .left _ _ h

namespace SingleReduceSolve

variable {R : RProp} {threads : ℕ} {s t : SingleReduceSolve S} {a : Action S}

noncomputable def stages (s : SingleReduceSolve S) : ℕ × Ordinal.{0} :=
  match s.phase with
  | .searching rb => (4, RecurringReduceSolve.rbRank rb)
  | .filtering _ => (3, 0)
  | .solving batch => (2, batch.work)
  | .returned _ => (0, 0)

theorem stages_lt (hS : S.Returns) (h : s.Underway threads) (hne : a ≠ .interrupt)
    (hs : s.step R threads a = some t) : StageLt t.stages s.stages := by
  cases Step.of_step hs with
  | search hp hrb =>
      simp only [Underway, hp] at h
      obtain ⟨as, has⟩ := h
      simp only [stages, hp]
      exact .right _ (RecurringReduceSolve.rbRank_lt
        (RecurringReduceSolve.acc_of_exec (hS.terminates []) has) hrb)
  | stop hp | found hp | filterConflict hp | collect hp =>
      simp only [stages, hp]
      exact stageLt_of_lt (by decide)
  | task hp hnot hb =>
      simp only [stages, hp]
      exact .right _ (by exact_mod_cast Batch.work_lt (Batch.Step.of_step hb) hnot)
  | interrupt => exact absurd rfl hne

theorem stages_clear (s : SingleReduceSolve S) :
    s.clear.stages = s.stages ∨ StageLt s.clear.stages s.stages := by
  obtain ⟨phase, model, i⟩ := s
  cases phase with
  | solving batch =>
      rcases (Batch.work_dropQueue_le batch).eq_or_lt with heq | hlt
      · exact .inl (congrArg (fun n : ℕ => (2, (n : Ordinal.{0}))) heq)
      · exact .inr (.right _ (by exact_mod_cast hlt))
  | searching | filtering | returned => exact .inl rfl

/-- **The solve goes on** until it returns. -/
theorem Underway.progress (hS : S.Returns) (hthreads : 0 < threads) (h : s.Underway threads) :
    (∃ state, s.phase = .returned state) ∨
      (∃ search, s.phase = .filtering search ∧ R.enumerated search = none) ∨
      ∃ a t, a ≠ .interrupt ∧ s.step R threads a = some t := by
  cases hp : s.phase with
  | searching rb =>
      simp only [Underway, hp] at h
      obtain ⟨as, has⟩ := h
      refine .inr (.inr ?_)
      cases hres : S.result rb with
      | none =>
          obtain ⟨a, rb', ha⟩ := hS.progress [] as rb has hres
          refine Machine.exists_step (.search a) (by simp) ?_
          simp [SingleReduceSolve.step, hp, ha]
      | some r =>
          refine Machine.exists_step .found (by simp) ?_
          cases r with
          | reason | search => simp [SingleReduceSolve.step, hp, hres]
  | filtering search =>
      cases hall : R.enumerated search with
      | none => exact .inr (.inl ⟨search, rfl, hall⟩)
      | some all =>
          refine .inr (.inr (Machine.exists_step
            (.filterConflict (R.nonConflict all) []) (by simp) ?_))
          simp [SingleReduceSolve.step, hp, hall]
  | solving batch =>
      simp only [Underway, hp] at h
      refine .inr (.inr ?_)
      by_cases hf : batch.Finished
      · refine Machine.exists_step .collect (by simp) ?_
        simp [SingleReduceSolve.step, hp, Batch.finished_iff.mpr hf]
      · obtain ⟨a, batch', hne, -, hb⟩ := Batch.progress (h.1 ▸ hthreads) hf
        refine Machine.exists_step (.task a) (by simp) ?_
        rw [step_task hne]
        simp [hp, hb]
  | returned state => exact .inl ⟨state, rfl⟩

end SingleReduceSolve

namespace RecurringReduceSolve

variable {R : RProp} {cfg : RecurringReduceSolveConfig} {s t : RecurringReduceSolve S}
  {a : Action S}

/-- After an interrupt there is no further iteration. -/
theorem stages_lt (hS : S.Returns) (h : s.Underway cfg) (hi : s.interrupted = true)
    (hne : a ≠ .interrupt) (hs : s.step R cfg a = some t) : StageLt t.stages s.stages := by
  cases Step.of_step hs with
  | iterate _ _ hnot =>
      rw [hi] at hnot
      cases hnot
  | @search base depth rb rb' a hp hrb =>
      simp only [Underway, hp] at h
      obtain ⟨as, has⟩ := h
      simp only [stages, hp]
      exact .right _ (rbRank_lt (acc_of_exec (hS.terminates base) has) hrb)
  | stop hp | found hp | filterConflict hp | collect hp =>
      simp only [stages, hp]
      exact stageLt_of_lt (by decide)
  | task hp hnot hb =>
      simp only [stages, hp]
      exact .right _ (by exact_mod_cast Batch.work_lt (Batch.Step.of_step hb) hnot)
  | leave hp | decide hp | again hp =>
      rw [step_of_interrupted hi (.inl rfl) hs]
      simp only [stages, hp]
      exact stageLt_of_lt (by decide)
  | giveUp hp | exhaust hp =>
      simp only [stages, hp]
      exact stageLt_of_lt (by decide)
  | interrupt => exact absurd rfl hne

theorem stages_clear (s : RecurringReduceSolve S) :
    s.clear.stages = s.stages ∨ StageLt s.clear.stages s.stages := by
  obtain ⟨stack, phase, model, i, history⟩ := s
  cases phase with
  | solving base depth limit batch =>
      rcases (Batch.work_dropQueue_le batch).eq_or_lt with heq | hlt
      · exact .inl (congrArg (fun n : ℕ => (2, (n : Ordinal.{0}))) heq)
      · exact .inr (.right _ (by exact_mod_cast hlt))
  | head | searching | filtering | filtered | returned => exact .inl rfl

end RecurringReduceSolve

end Parsat
