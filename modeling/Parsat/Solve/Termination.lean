import Mathlib.Data.Multiset.DershowitzManna
import Mathlib.SetTheory.Ordinal.Rank
import Parsat.Solve.Recurring

/-!
# Solve — the main loop of `RecurringReduceSolve` ends

An iteration takes one base assumption from the stack and may put back any number of longer ones, or
the same one again if the backdoor has no variable outside it.  So neither the stack nor the
assumptions get smaller.  What gets smaller is the depth that is left: what comes back is one level
deeper, and at the depth `max_recursion_depth` the time limit is `DUR_INDEF`, the duration zero,
which the service takes to mean that there is no limit.  A call without a limit does not give up,
unless the service was interrupted because another assumption of the batch is satisfiable, and then
the solve is over.

* `Batch.Decided`: such a batch has nothing to push back.
* `RecurringReduceSolve.Bounded`: no depth exceeds the maximum.
* `RecurringReduceSolve.measure_lt`: every step makes the multiset of the remaining depths smaller,
  in the order of Dershowitz and Manna, or leaves it and goes on to the next stage, or goes on
  inside the stage.
* `recurring_terminates`: so there is no infinite run, and no run gets stuck.
-/

namespace Parsat

/-- The steps a worker still has to make. -/
def ServiceWorker.todo : ServiceWorker → ℕ
  | .idle => 0
  | .solving _ => 3
  | .calling _ _ => 2
  | .interrupting _ _ => 1

/-- `time_limit == DUR_INDEF`: the duration zero. -/
def unlimited (timeLimit : Option ℕ) : Bool := timeLimit.getD 0 = 0

/-! ### A batch ends -/

namespace Batch

variable {t t' : Batch} {a : Action}

/-- A bound on the steps left. -/
def work (t : Batch) : ℕ :=
  5 * t.pending.length + 4 * t.queue.length + (t.workers.map ServiceWorker.todo).sum +
    t.clearing.toNat

/-- **Every step** but an interrupt makes the work less. -/
theorem work_lt (h : Step t a t') (hne : a ≠ .interrupt) : t'.work < t.work := by
  have hset : ∀ {w : ℕ} {old : ServiceWorker} (new : ServiceWorker), t.workers[w]? = some old →
      ((t.workers.set w new).map ServiceWorker.todo).sum + old.todo =
        (t.workers.map ServiceWorker.todo).sum + new.todo :=
    fun new hw => Machine.sum_map_set hw ServiceWorker.todo new
  cases h with
  | submit hp =>
      simp only [work, hp, List.length_append, List.length_cons, List.length_nil]
      omega
  | @dequeue w x queue hw hq =>
      have := hset (.solving x) hw
      simp only [work, hq, List.length_cons, ServiceWorker.todo] at this ⊢
      omega
  | @answer w x answer hw =>
      have := hset (.calling x answer) hw
      simp only [work, ServiceWorker.todo] at this ⊢
      omega
  | throw hw =>
      have := hset .idle hw
      simp only [work, ServiceWorker.todo] at this ⊢
      omega
  | @callback w x answer hw =>
      cases answer with
      | SAT m =>
          have := hset (.interrupting x m) hw
          simp only [work, runCallback, ServiceWorker.todo] at this ⊢
          omega
      | UNSAT | UNKNOWN =>
          have := hset .idle hw
          simp only [work, runCallback, ServiceWorker.todo] at this ⊢
          omega
  | clearQueue hw =>
      have := hset .idle hw
      simp only [work, dropQueue, List.length_nil, ServiceWorker.todo] at this ⊢
      omega
  | interrupt => exact absurd rfl hne
  | clearInterrupt hc =>
      simp only [work, dropQueue, hc, List.length_nil, Bool.toNat_true, Bool.toNat_false]
      omega

theorem length_workers (h : Step t a t') : t'.workers.length = t.workers.length := by
  cases h with
  | @callback w x answer => cases answer <;> simp [runCallback]
  | submit | interrupt | clearInterrupt => rfl
  | dequeue | answer | throw | clearQueue => simp

/-- **Progress**: until all futures are ready, something can happen, and it need not be that a
solver gives up. -/
theorem progress (hw : 0 < t.workers.length) (h : ¬ t.Finished) :
    ∃ a t', a ≠ .interrupt ∧ (∀ w, a ≠ .answer w .UNKNOWN) ∧ t.step a = some t' := by
  cases hp : t.pending with
  | cons x pending => exact ⟨.submit, _, by simp, by simp, by simp only [step, hp]; rfl⟩
  | nil =>
      by_cases hidle : ∀ w ∈ t.workers, w = .idle
      · cases hq : t.queue with
        | nil => exact absurd ⟨hp, hq, hidle⟩ h
        | cons x queue =>
            have hget : t.workers[0]? = some .idle := by
              rw [List.getElem?_eq_getElem hw, hidle _ (List.getElem_mem hw)]
            exact ⟨.dequeue 0, _, by simp, by simp, by simp only [step, hget, hq]; rfl⟩
      · simp only [not_forall] at hidle
        obtain ⟨worker, hmem, hbusy⟩ := hidle
        obtain ⟨w, hw⟩ := List.mem_iff_getElem?.mp hmem
        cases worker with
        | idle => exact absurd rfl hbusy
        | solving x => exact ⟨.answer w .UNSAT, _, by simp, by simp, by simp only [step, hw]; rfl⟩
        | calling x answer => exact ⟨.callback w, _, by simp, by simp, by simp only [step, hw]; rfl⟩
        | interrupting x m =>
            exact ⟨.clearQueue w, _, by simp, by simp, by simp only [step, hw]; rfl⟩

/-- No solver has given up, unless some assumption is satisfiable. -/
structure Decided (t : Batch) : Prop where
  failed : t.failed ≠ [] → t.satisfied = true
  calling : ∀ x, .calling x .UNKNOWN ∈ t.workers → t.satisfied = true

theorem decided_start (assumptions : List LitVec) (threads : ℕ) :
    (start assumptions threads).Decided where
  failed h := absurd rfl h
  calling x hx := by cases List.eq_of_mem_replicate hx

/-- A worker that goes on does not call the callback with `UNKNOWN`. -/
theorem Decided.workers_set (h : t.Decided) (w : ℕ) {new : ServiceWorker}
    (hnew : ∀ x, new = .calling x .UNKNOWN → t.satisfied = true) :
    ∀ x, .calling x .UNKNOWN ∈ t.workers.set w new → t.satisfied = true := by
  intro x hx
  rcases List.mem_or_eq_of_mem_set hx with hx | hx
  · exact h.calling x hx
  · exact hnew x hx.symm

theorem Decided.step (h : t.Decided) (ha : ∀ w, a = .answer w .UNKNOWN → t.satisfied = true)
    (hs : Step t a t') : t'.Decided := by
  cases hs with
  | submit => exact ⟨h.failed, h.calling⟩
  | @dequeue w => exact ⟨h.failed, h.workers_set w (by simp)⟩
  | @answer w x answer =>
      refine ⟨h.failed, h.workers_set w ?_⟩
      intro x' he
      cases he
      exact ha w rfl
  | @throw w => exact ⟨h.failed, h.workers_set w (by simp)⟩
  | @callback w x answer hw =>
      cases answer with
      | SAT m => exact ⟨fun _ => rfl, fun _ _ => rfl⟩
      | UNSAT => exact ⟨h.failed, h.workers_set w (by simp)⟩
      | UNKNOWN =>
          exact ⟨fun _ => h.calling x (List.mem_of_getElem? hw), h.workers_set w (by simp)⟩
  | @clearQueue w => exact ⟨h.failed, h.workers_set w (by simp)⟩
  | interrupt => exact ⟨h.failed, h.calling⟩
  | clearInterrupt => exact ⟨h.failed, h.calling⟩

/-- **A batch without a limit** leaves nothing to push. -/
theorem Decided.failedList (h : t.Decided) {l : List LitVec}
    (hl : t.filterFast.failedList = some l) : l = [] := by
  unfold filterFast at hl
  split at hl
  · cases hl
  · rename_i hsat
    have hnil : t.failed = [] := by
      by_contra hne
      exact hsat (h.failed hne)
    rw [hnil] at hl
    simpa [FilterResult.failedList] using hl.symm

end Batch

/-! ### The depths -/

/-- Every run of `find_rb` comes to its end, and has a result there. -/
structure RBSearch.Returns (S : RBSearch) : Prop where
  terminates : ∀ base, Acc (fun t s => ∃ a, S.step s a = some t) (S.start base)
  progress : ∀ base as rb, Machine.exec S.step (S.start base) as = some rb → S.result rb = none →
    ∃ a t, S.step rb a = some t

namespace RecurringReduceSolve

variable {R : RProp} {S : RBSearch} {cfg : RecurringReduceSolveConfig}
  {s t : RecurringReduceSolve S} {a : Action S}

/-- What is assumed of the steps: nobody interrupts the solve, and a call without a limit gives up
only once the service was interrupted because of a `SAT` answer. -/
def Patient (s : RecurringReduceSolve S) : Action S → Prop
  | .task (.answer _ .UNKNOWN) =>
    match s.phase with
    | .solving _ _ limit batch => unlimited limit = true → batch.satisfied = true
    | _ => True
  | .interrupt => False
  | _ => True

theorem patient_task {a : Batch.Action} (h : ∀ w, a ≠ .answer w .UNKNOWN) :
    s.Patient (.task a) := by
  cases a with
  | answer w answer =>
      cases answer with
      | UNKNOWN => exact absurd rfl (h w)
      | SAT | UNSAT => trivial
  | submit | dequeue | throw | callback | clearQueue | interrupt | clearInterrupt => trivial

/-- The depth in work is within the bound, and nothing is to be pushed at the last one. -/
def StageOk (cfg : RecurringReduceSolveConfig) (s : RecurringReduceSolve S) : Prop :=
  match s.phase with
  | .searching base depth rb => depth ≤ cfg.maxRecursionDepth.toNat ∧
      ∃ as, Machine.exec S.step (S.start base) as = some rb
  | .filtering _ depth _ => depth ≤ cfg.maxRecursionDepth.toNat
  | .solving _ depth limit batch => depth ≤ cfg.maxRecursionDepth.toNat ∧
      limit = timeLimit cfg depth ∧ batch.workers.length = cfg.threads ∧
      (unlimited limit = true → batch.Decided)
  | .filtered _ depth result => depth ≤ cfg.maxRecursionDepth.toNat ∧
      ∀ l, result.failedList = some l → l ≠ [] → depth < cfg.maxRecursionDepth.toNat
  | _ => True

structure Bounded (cfg : RecurringReduceSolveConfig) (s : RecurringReduceSolve S) : Prop where
  stack : ∀ e ∈ s.stack, e.2 ≤ cfg.maxRecursionDepth.toNat
  stage : s.StageOk cfg

theorem bounded_start : (start : RecurringReduceSolve S).Bounded cfg where
  stack := by simp [start]
  stage := trivial

/-- At the last depth there is no limit. -/
theorem unlimited_timeLimit {depth : ℕ} (h : cfg.maxRecursionDepth.toNat ≤ depth) :
    unlimited (timeLimit cfg depth) = true := by
  rw [timeLimit, if_neg (by omega)]
  rfl

/-- The depth of what an iteration pushes does not wrap. -/
theorem succ_mod_eq {depth : ℕ} (h : depth < cfg.maxRecursionDepth.toNat) :
    (depth + 1) % 2 ^ 32 = depth + 1 := by
  have := cfg.maxRecursionDepth.toNat_lt
  exact Nat.mod_eq_of_lt (by omega)

/-- **No step goes below the maximal depth.** -/
theorem Bounded.step (h : s.Bounded cfg) (hp : s.Patient a) (hs : s.step R cfg a = some t) :
    t.Bounded cfg := by
  have hstage := h.stage
  cases Step.of_step hs with
  | @iterate base depth stack _ hstack =>
      have hstk := h.stack
      rw [hstack] at hstk
      obtain ⟨hd, hstk⟩ := List.forall_mem_cons.mp hstk
      exact ⟨hstk, hd, [], rfl⟩
  | @search base depth rb rb' a hphase hrb =>
      simp only [StageOk, hphase] at hstage
      obtain ⟨hd, as, has⟩ := hstage
      exact ⟨h.stack, hd, as ++ [a], Machine.exec_concat.mpr ⟨_, has, hrb⟩⟩
  | @stop base depth rb r hphase =>
      simp only [StageOk, hphase] at hstage
      refine ⟨h.stack, hstage.1, ?_⟩
      intro l hl hne
      cases r <;> simp only [onReason] at hl
      · split at hl <;> cases hl
        exact absurd rfl hne
      · cases hl
        exact absurd rfl hne
  | @found base depth rb search hphase =>
      simp only [StageOk, hphase] at hstage
      exact ⟨h.stack, hstage.1⟩
  | @filterConflict base depth search all l hphase =>
      simp only [StageOk, hphase] at hstage
      exact ⟨h.stack, hstage, rfl, List.length_replicate, fun _ => Batch.decided_start _ _⟩
  | @task base depth limit batch batch' a hphase hne hb =>
      simp only [StageOk, hphase] at hstage
      obtain ⟨hd, hlimit, hlen, hdec⟩ := hstage
      have hstep := Batch.Step.of_step hb
      refine ⟨h.stack, hd, hlimit, (Batch.length_workers hstep).trans hlen, ?_⟩
      intro hu
      refine (hdec hu).step ?_ hstep
      rintro w rfl
      simp only [Patient, hphase] at hp
      exact hp hu
  | @collect base depth limit batch hphase hf =>
      simp only [StageOk, hphase] at hstage
      obtain ⟨hd, rfl, -, hdec⟩ := hstage
      refine ⟨h.stack, hd, ?_⟩
      intro l hl hne
      by_contra hge
      exact hne ((hdec (unlimited_timeLimit (by omega))).failedList hl)
  | @again base depth result failed hphase hfail =>
      simp only [StageOk, hphase] at hstage
      refine ⟨?_, trivial⟩
      intro e he
      simp only [endIteration, List.mem_append, List.mem_reverse, List.mem_map] at he
      rcases he with ⟨v, hv, rfl⟩ | he
      · have hlt := hstage.2 failed hfail (List.ne_nil_of_mem hv)
        rw [succ_mod_eq hlt]
        exact hlt
      · exact h.stack e he
  | leave | decide | giveUp | exhaust => exact ⟨h.stack, trivial⟩
  | interrupt => exact hp.elim

/-! ### The measure -/

/-- The steps a run of `find_rb` may still make. -/
noncomputable def rbRank (rb : S.State) : Ordinal.{0} :=
  open Classical in
  if h : Acc (fun t s => ∃ a, S.step s a = some t) rb then h.rank else 0

/-- The depths that are left below the base assumptions on the stack and the one in work. -/
def remaining (cfg : RecurringReduceSolveConfig) (s : RecurringReduceSolve S) : Multiset ℕ :=
  let stack : Multiset ℕ := s.stack.map fun e => cfg.maxRecursionDepth.toNat - e.2
  match s.phase with
  | .searching _ depth _ | .filtering _ depth _ | .solving _ depth _ _ | .filtered _ depth _ =>
    {cfg.maxRecursionDepth.toNat - depth} + stack
  | _ => stack

/-- The stages that are left, and the steps inside the one at hand. -/
noncomputable def stages (s : RecurringReduceSolve S) : ℕ × Ordinal.{0} :=
  match s.phase with
  | .head => (5, 0)
  | .searching _ _ rb => (4, rbRank rb)
  | .filtering _ _ _ => (3, 0)
  | .solving _ _ _ batch => (2, batch.work)
  | .filtered _ _ _ => (1, 0)
  | .returned _ => (0, 0)

/-- The order the measure goes down in. -/
def Below : Multiset ℕ × ℕ × Ordinal.{0} → Multiset ℕ × ℕ × Ordinal.{0} → Prop :=
  Prod.Lex Multiset.IsDershowitzMannaLT (Prod.Lex (· < ·) (· < ·))

theorem wellFounded_below : WellFounded Below :=
  Multiset.wellFounded_isDershowitzMannaLT.prod_lex (Nat.lt_wfRel.wf.prod_lex Ordinal.lt_wf)

/-- A step to a later stage. -/
theorem below_of_stage (h : t.remaining cfg = s.remaining cfg) (hst : t.stages.1 < s.stages.1) :
    Below (t.remaining cfg, t.stages) (s.remaining cfg, s.stages) := by
  rw [h]
  exact .right _ (Prod.lex_def.mpr (.inl hst))

/-- A step inside a stage. -/
theorem below_of_inside (h : t.remaining cfg = s.remaining cfg) (hst : t.stages.1 = s.stages.1)
    (hin : t.stages.2 < s.stages.2) :
    Below (t.remaining cfg, t.stages) (s.remaining cfg, s.stages) := by
  rw [h]
  exact .right _ (Prod.lex_def.mpr (.inr ⟨hst, hin⟩))

theorem rbRank_lt {rb rb' : S.State} {a : S.Action}
    (h : Acc (fun t s => ∃ a, S.step s a = some t) rb) (hs : S.step rb a = some rb') :
    rbRank rb' < rbRank rb := by
  have h' : Acc (fun t s => ∃ a, S.step s a = some t) rb' := h.inv ⟨a, hs⟩
  rw [rbRank, dif_pos h', rbRank, dif_pos h]
  exact Acc.rank_lt_of_rel h ⟨a, hs⟩

/-- What `find_rb` reaches, it leaves after finitely many steps. -/
theorem acc_of_exec {rb : S.State} {as : List S.Action} {rb' : S.State}
    (h : Acc (fun t s => ∃ a, S.step s a = some t) rb)
    (hrun : Machine.exec S.step rb as = some rb') :
    Acc (fun t s => ∃ a, S.step s a = some t) rb' := by
  induction as generalizing rb with
  | nil => exact Option.some.inj hrun ▸ h
  | cons a as ih =>
      obtain ⟨u, hu, hrun⟩ := Machine.exec_cons hrun
      exact ih (h.inv ⟨a, hu⟩) hrun

/-- **Every step goes down.** -/
theorem measure_lt (hS : S.Returns) (h : s.Bounded cfg) (hp : s.Patient a)
    (hs : s.step R cfg a = some t) :
    Below (t.remaining cfg, t.stages) (s.remaining cfg, s.stages) := by
  have hstage := h.stage
  cases Step.of_step hs with
  | @iterate base depth stack hphase hstack =>
      refine below_of_stage ?_ ?_
      · simp only [remaining, hphase, hstack, List.map_cons, ← Multiset.cons_coe,
          Multiset.singleton_add]
      · simp [stages, hphase]
  | @search base depth rb rb' a hphase hrb =>
      simp only [StageOk, hphase] at hstage
      obtain ⟨-, as, has⟩ := hstage
      refine below_of_inside ?_ ?_ ?_
      · simp only [remaining, hphase]
      · simp only [stages, hphase]
      · simp only [stages, hphase]
        exact rbRank_lt (acc_of_exec (hS.terminates base) has) hrb
  | stop hphase | found hphase | filterConflict hphase | collect hphase =>
      refine below_of_stage ?_ ?_
      · simp only [remaining, hphase]
      · simp [stages, hphase]
  | task hphase hne hb =>
      refine below_of_inside ?_ ?_ ?_
      · simp only [remaining, hphase]
      · simp only [stages, hphase]
      · simp only [stages, hphase]
        exact_mod_cast Batch.work_lt (Batch.Step.of_step hb) hne
  | @leave base depth result hphase | @decide base depth result hphase =>
      -- the base assumption in work is given up
      refine .left _ _ ⟨s.stack.map fun e => cfg.maxRecursionDepth.toNat - e.2, 0,
        {cfg.maxRecursionDepth.toNat - depth}, Multiset.singleton_ne_zero _, ?_, ?_, by simp⟩
      · simp only [remaining, add_zero]
      · simp only [remaining, hphase]
        exact add_comm _ _
  | @again base depth result failed hphase hfail =>
      simp only [StageOk, hphase] at hstage
      -- what is pushed for it is one level deeper
      refine .left _ _ ⟨s.stack.map fun e => cfg.maxRecursionDepth.toNat - e.2,
        (failed.map fun _ => cfg.maxRecursionDepth.toNat - (depth + 1) % 2 ^ 32).reverse,
        {cfg.maxRecursionDepth.toNat - depth}, Multiset.singleton_ne_zero _, ?_, ?_, ?_⟩
      · simp only [remaining, endIteration, List.map_append, List.map_reverse, List.map_map]
        rw [← Multiset.coe_add, add_comm]
        rfl
      · simp only [remaining, hphase]
        exact add_comm _ _
      · intro y hy
        simp only [Multiset.mem_coe, List.mem_reverse, List.mem_map] at hy
        obtain ⟨v, hv, rfl⟩ := hy
        have hlt := hstage.2 failed hfail (List.ne_nil_of_mem hv)
        refine ⟨_, Multiset.mem_singleton_self _, ?_⟩
        rw [succ_mod_eq hlt]
        omega
  | giveUp hphase | exhaust hphase =>
      refine below_of_stage ?_ ?_
      · simp only [remaining, hphase]
      · simp [stages, hphase]
  | interrupt => exact hp.elim

/-! ### Progress -/

/-- The process ends here, by the division by zero in `prop_search`. -/
def Crashes (R : RProp) (s : RecurringReduceSolve S) : Prop :=
  ∃ base depth search, s.phase = .filtering base depth search ∧ R.enumerated search = none

/-- What goes on is a run of `find_rb`, or a batch on the threads of the service. -/
def Underway (cfg : RecurringReduceSolveConfig) (s : RecurringReduceSolve S) : Prop :=
  match s.phase with
  | .searching base _ rb => ∃ as, Machine.exec S.step (S.start base) as = some rb
  | .solving _ _ _ batch => batch.workers.length = cfg.threads
  | _ => True

theorem Bounded.underway (h : s.Bounded cfg) : s.Underway cfg := by
  have hstage := h.stage
  unfold Underway
  cases hphase : s.phase with
  | searching =>
      simp only [StageOk, hphase] at hstage
      exact hstage.2
  | solving =>
      simp only [StageOk, hphase] at hstage
      exact hstage.2.2.1
  | head | filtering | filtered | returned => trivial

theorem exists_patient_step (hp : s.Patient a) (hs : (s.step R cfg a).isSome = true) :
    ∃ a t, s.Patient a ∧ s.step R cfg a = some t :=
  Machine.exists_step a hp hs

/-- **The solve goes on** until it returns. -/
theorem Underway.progress (hS : S.Returns) (hthreads : 0 < cfg.threads) (h : s.Underway cfg) :
    (∃ state, s.phase = .returned state) ∨ s.Crashes R ∨
      ∃ a t, s.Patient a ∧ s.step R cfg a = some t := by
  cases hphase : s.phase with
  | head =>
      refine .inr (.inr ?_)
      by_cases hi : s.interrupted = true
      · refine exists_patient_step (a := .finish) trivial ?_
        simp [RecurringReduceSolve.step, hphase, hi]
      · cases hstack : s.stack with
        | nil =>
            refine exists_patient_step (a := .finish) trivial ?_
            simp [RecurringReduceSolve.step, hphase, hi, hstack]
        | cons e stack =>
            refine exists_patient_step (a := .iterate) trivial ?_
            simp [RecurringReduceSolve.step, hphase, hi, hstack]
  | searching base depth rb =>
      simp only [Underway, hphase] at h
      obtain ⟨as, has⟩ := h
      refine .inr (.inr ?_)
      cases hres : S.result rb with
      | none =>
          obtain ⟨a, rb', ha⟩ := hS.progress base as rb has hres
          refine exists_patient_step (a := .search a) trivial ?_
          simp [RecurringReduceSolve.step, hphase, ha]
      | some r =>
          refine exists_patient_step (a := .found) trivial ?_
          cases r with
          | reason | search => simp [RecurringReduceSolve.step, hphase, hres]
  | filtering base depth search =>
      cases hall : R.enumerated search with
      | none => exact .inr (.inl ⟨base, depth, search, hphase, hall⟩)
      | some all =>
          refine .inr (.inr (exists_patient_step (a := .filterConflict (R.nonConflict all))
            trivial ?_))
          simp [RecurringReduceSolve.step, hphase, hall]
  | solving base depth limit batch =>
      simp only [Underway, hphase] at h
      refine .inr (.inr ?_)
      -- a service that has a solver gets on until every task has ended
      by_cases hf : batch.Finished
      · refine exists_patient_step (a := .collect) trivial ?_
        simp [RecurringReduceSolve.step, hphase, Batch.finished_iff.mpr hf]
      · obtain ⟨a, batch', hne, hanswer, hb⟩ := Batch.progress (h ▸ hthreads) hf
        refine exists_patient_step (patient_task hanswer) ?_
        rw [step_task hne]
        simp [hphase, hb]
  | filtered base depth result =>
      refine .inr (.inr (exists_patient_step (a := .proceed) trivial ?_))
      by_cases hi : s.interrupted = true
      · simp [RecurringReduceSolve.step, hphase, hi]
      · rcases result with ⟨- | - | -⟩ | l <;> simp [RecurringReduceSolve.step, hphase, hi]
  | returned state => exact .inl ⟨state, rfl⟩

end RecurringReduceSolve

open RecurringReduceSolve in
/-- **The recursion ends.**  In the runs without interrupts in which a solver call without a time
limit does not give up, and in which every `find_rb` returns, no depth on the stack exceeds
`max_recursion_depth`; no such run is infinite; and where one stops, the solve has returned, or the
process was ended by a division by zero, if the service has a solver at all. -/
theorem recurring_terminates (R : RProp) (S : RBSearch) (cfg : RecurringReduceSolveConfig)
    (hS : S.Returns) :
    (∀ as t, Machine.exec (step R cfg) (start : RecurringReduceSolve S) as = some t →
      Machine.Throughout (step R cfg) Patient start as →
      (∀ e ∈ t.stack, e.2 ≤ cfg.maxRecursionDepth.toNat) ∧
      (0 < cfg.threads → (∃ state, t.phase = .returned state) ∨ t.Crashes R ∨
        ∃ a u, t.Patient a ∧ t.step R cfg a = some u)) ∧
    ∀ (s : ℕ → RecurringReduceSolve S) (a : ℕ → Action S), s 0 = start →
      ¬ ∀ n, (s n).Patient (a n) ∧ (s n).step R cfg (a n) = some (s (n + 1)) := by
  have hstep : ∀ (s : RecurringReduceSolve S) (a : Action S) (t : RecurringReduceSolve S),
      s.Bounded cfg → s.Patient a → s.step R cfg a = some t → t.Bounded cfg :=
    fun s a t h hp hs => h.step hp hs
  refine ⟨?_, ?_⟩
  · intro as t h hp
    have hb := Machine.exec_invariant_throughout hstep bounded_start hp h
    exact ⟨hb.stack, fun hthreads => hb.underway.progress hS hthreads⟩
  · intro s a h0
    exact Machine.not_infinite wellFounded_below (fun s => (s.remaining cfg, s.stages)) hstep
      (fun s a t h hp hs => measure_lt hS h hp hs) (h0 ▸ bounded_start)

theorem RBSearch.constant_returns (search : Search) : (RBSearch.constant search).Returns where
  terminates _ := ⟨_, fun _ ⟨a, _⟩ => nomatch a⟩
  progress _ _ _ _ h := by cases h

open RecurringReduceSolve in
instance {S : RBSearch} (s : RecurringReduceSolve S) (a : Action S) : Decidable (s.Patient a) := by
  unfold Patient
  split
  · split <;> infer_instance
  · infer_instance
  · infer_instance

open RecurringReduceSolve in
/-- With the depth `1`, the solver gives up on `¬0` once, and `¬0` comes back with the literal
twice; there the solver has to answer. -/
theorem recurring_terminates_twoClauses :
    (∃ as t, Machine.exec (step twoClauses ⟨1, 1000, 2, 1⟩)
        (start : RecurringReduceSolve (.constant (fullSearch [0]))) as = some t ∧
      t.stack = [([mkLit 0 true], 1)] ∧ ∀ e ∈ t.stack, e.2 ≤ 1) ∧
    ∀ (s : ℕ → RecurringReduceSolve (.constant (fullSearch [0]))) (a : ℕ → Action _),
      s 0 = start → ¬ ∀ n, (s n).Patient (a n) ∧
        (s n).step twoClauses ⟨1, 1000, 2, 1⟩ (a n) = some (s (n + 1)) := by
  let as : List (Action (.constant (fullSearch [0]))) :=
    [.iterate, .found, .filterConflict [[mkLit 0 true]], .task .submit, .task (.dequeue 0),
      .task (.answer 0 .UNKNOWN), .task (.callback 0), .collect, .proceed]
  have hrun : (Machine.exec (step twoClauses ⟨1, 1000, 2, 1⟩) start as).any
      (fun t => t.stack = [([mkLit 0 true], 1)]) = true := by
    decide +kernel
  have hpatient : Machine.Throughout (step twoClauses ⟨1, 1000, 2, 1⟩) Patient start as := by
    decide +kernel
  obtain ⟨t, ht, hstack⟩ := Machine.exists_run hrun
  have hterm := recurring_terminates twoClauses _ ⟨1, 1000, 2, 1⟩
    (RBSearch.constant_returns (fullSearch [0]))
  exact ⟨⟨as, t, ht, of_decide_eq_true hstack, (hterm.1 as t ht hpatient).1⟩, hterm.2⟩

end Parsat
