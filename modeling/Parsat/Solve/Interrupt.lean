import Parsat.Library.Machine

/-!
# Solve — interrupting the solver service

`SequentialSolverService::interrupt()` empties the queue and sets the interrupt flags of every
solver.  A worker that has taken a task enters `solve` of its solver, which clears the flags before
it searches.  `SimpSolver` clears its flag once, `LMapleSolver` and `MapleCOMSPSSolver` twice, since
their vendored base class clears it again.

`PainlessSolver` has a flag of its own, which it clears in `clear_interrupt()`, and the flags of its
slaves: that of each `SequentialWorker` and that of the solver behind it.  Those are cleared there
too, and again in `SequentialWorker::solve`.  The solver of a slave clears its flag once more, on
the slave's thread, each time it starts; it is started again and again until the flag before it is
set.

The machine below interleaves one call of `interrupt()` with the workers, their slaves, and with
whoever submits tasks.  It leaves open the order in which a solver clears its flags and in which
`interrupt()` sets them.

A flag that is set between the dequeue and the last clear is lost (`exists_lost_interrupt`), and so
is one whose worker takes another task before the call returns, and that of a slave that starts its
solver again in the middle of its `setInterrupt()`.  `interrupt_heeded` says that nothing else is
lost.
-/

namespace Parsat

/-- The solvers behind the slaves of a `PainlessSolver`. -/
inductive SlaveImpl where
  | mapleCOMSPS
  | reducer
  deriving DecidableEq

/-- The implementations of `Solver`. -/
inductive SolverImpl where
  | simp
  | lmaple
  | mapleCOMSPS
  | painless (slaves : List SlaveImpl)
  deriving DecidableEq

namespace Interrupt

/-- The slave whose solver searches with a flag: there is none, its solver is to be started, its
solver searches. -/
inductive Slave where
  | none
  | starting
  | searching
  deriving DecidableEq

/-- An interrupt flag, with the number of times the thread in `solve` is still going to clear it.
`reached` is set once `interrupt()` has set the flag. -/
structure Flag where
  clears : ℕ
  slave : Slave
  set : Bool
  reached : Bool
  deriving DecidableEq

end Interrupt

/-- How often `PainlessSolver::solve` clears the flags of a slave, and whether it starts a solver
with them: `_interrupted` of the `SequentialWorker`, `_interrupt` of the `Reducer`, and
`asynch_interrupt`. -/
def SlaveImpl.flags : SlaveImpl → List (ℕ × Interrupt.Slave)
  | .mapleCOMSPS => [(2, .none), (2, .starting)]
  | .reducer => [(2, .none), (2, .none), (2, .starting)]

/-- How often `solve` clears each flag; the first one of a `PainlessSolver` is its own. -/
def SolverImpl.flags : SolverImpl → List (ℕ × Interrupt.Slave)
  | .simp => [(1, .none)]
  | .lmaple => [(2, .none)]
  | .mapleCOMSPS => [(2, .none)]
  | .painless slaves => (1, .none) :: slaves.flatMap SlaveImpl.flags

namespace Interrupt

/-- No clear is to come: a search tests the flag. -/
def Flag.Tested (f : Flag) : Prop := f.clears = 0 ∧ f.slave ≠ .starting

instance (f : Flag) : Decidable f.Tested := inferInstanceAs (Decidable (_ ∧ _))

/-- Where a worker is: without a task, before `solver.solve`, or in it. -/
inductive Phase where
  | idle
  | dequeued
  | solving
  deriving DecidableEq

/-- A worker with the flags of its solver.  `early` is set if its task was dequeued before
`interrupt()` returned. -/
structure Worker where
  phase : Phase
  flags : List Flag
  early : Bool
  deriving DecidableEq

/-- The call of `interrupt()`: not made, at the solvers, returned. -/
inductive Call where
  | before
  | setting
  | returned
  deriving DecidableEq

/-- The service; only the number of tasks in the queue matters here. -/
structure Service where
  queue : ℕ
  workers : List Worker
  call : Call
  deriving DecidableEq

def start (impl : SolverImpl) (threads : ℕ) : Service where
  queue := 0
  workers := List.replicate threads
    ⟨.idle, impl.flags.map fun p => ⟨p.1, p.2, false, false⟩, false⟩
  call := .before

inductive Action where
  | submit
  | dequeue (worker : ℕ)
  | enter (worker : ℕ)
  | clear (worker flag : ℕ)
  | begin (worker flag : ℕ)
  | again (worker flag : ℕ)
  | late (worker flag : ℕ)
  | stop (worker flag : ℕ)
  | ret (worker : ℕ)
  | clearQueue
  | set (worker flag : ℕ)
  | done

/-- A step at one flag of one worker. -/
def Service.update (t : Service) (w j : ℕ) (g : Worker → Flag → Option Flag) : Option Service :=
  match t.workers[w]? with
  | none => none
  | some x =>
    match x.flags[j]? with
    | none => none
    | some f => (g x f).map fun f' =>
      { t with workers := t.workers.set w { x with flags := x.flags.set j f' } }

/-- The flag that is tested before the solver with flag `j` is started again. -/
def Worker.guardSet (x : Worker) : ℕ → Bool
  | 0 => true
  | j + 1 => x.flags[j]?.any Flag.set

/-- One step of the service whose solvers are of the kind `impl`. -/
def step (impl : SolverImpl) (t : Service) : Action → Option Service
  | .submit => some { t with queue := t.queue + 1 }
  | .dequeue w =>
    match t.workers[w]?, t.queue with
    | some ⟨.idle, flags, _⟩, queue + 1 =>
      some { t with
        queue
        workers := t.workers.set w ⟨.dequeued, flags, t.call ≠ .returned⟩ }
    | _, _ => none
  | .enter w =>
    match t.workers[w]? with
    | some ⟨.dequeued, flags, early⟩ =>
      some { t with
        workers := t.workers.set w
          ⟨.solving, flags.zipWith (fun f p => { f with clears := p.1, slave := p.2 }) impl.flags,
            early⟩ }
    | _ => none
  -- the thread in `solve` clears a flag
  | .clear w j => t.update w j fun x f =>
    match x.phase, f.clears with
    | .solving, n + 1 => some { f with clears := n, set := false }
    | _, _ => none
  -- a slave starts its solver, which clears its flag
  | .begin w j => t.update w j fun x f =>
    if x.phase = .solving ∧ f.clears = 0 ∧ f.slave = .starting then
      some { f with slave := .searching, set := false }
    else none
  -- the solver of a slave has returned without an answer and is started again
  | .again w j => t.update w j fun x f =>
    if x.phase = .solving ∧ f.slave = .searching ∧ x.guardSet j = false then
      some { f with slave := .starting }
    else none
  -- a slave starts its solver for the call before
  | .late w j => t.update w j fun x f =>
    if f.slave = .starting ∨ f.slave = .searching ∧ x.phase ≠ .solving then
      some { f with set := false }
    else none
  -- the portfolio sets the flag of a slave
  | .stop w j => t.update w j fun _ f => if 0 < j then some { f with set := true } else none
  | .ret w =>
    match t.workers[w]? with
    | some ⟨.solving, flags, early⟩ =>
      if ∀ f ∈ flags, f.clears = 0 then
        some { t with workers := t.workers.set w ⟨.idle, flags, early⟩ }
      else none
    | _ => none
  | .clearQueue =>
    if t.call = .before then some { t with queue := 0, call := .setting } else none
  | .set w j =>
    if t.call = .setting then
      t.update w j fun _ f => some { f with set := true, reached := true }
    else none
  | .done =>
    if t.call = .setting ∧ ∀ x ∈ t.workers, ∀ f ∈ x.flags, f.reached = true then
      some { t with call := .returned }
    else none

/-- No interrupt is lost: once `interrupt()` has returned, the flags that are tested in a search of
a task dequeued before that are set. -/
def Service.Heeded (t : Service) : Prop :=
  t.call = .returned → ∀ x ∈ t.workers, x.early = true → x.phase = .solving →
    ∀ f ∈ x.flags, f.Tested → f.set = true

instance (t : Service) : Decidable t.Heeded :=
  inferInstanceAs (Decidable (_ = _ → ∀ x ∈ t.workers, _ = _ → _ = _ → ∀ f ∈ x.flags, _ → _ = _))

/-- The step sets no flag that is still going to be cleared for the task of its worker, starts no
solver again whose flag `interrupt()` has set, and gives no task to a worker that the unfinished
`interrupt()` has come to. -/
def Timely (t : Service) : Action → Prop
  | .set w j => ∀ x ∈ t.workers[w]?, ∀ f ∈ x.flags[j]?,
      x.phase = .idle ∨ x.phase = .solving ∧ f.Tested
  | .again w j => ∀ x ∈ t.workers[w]?, ∀ f ∈ x.flags[j]?, x.early = true → f.reached = false
  | .dequeue w => ∀ x ∈ t.workers[w]?, t.call = .setting → ∀ f ∈ x.flags, f.reached = false
  | _ => True

instance (t : Service) (a : Action) : Decidable (Timely t a) :=
  match a with
  | .set w j =>
    inferInstanceAs (Decidable (∀ x ∈ t.workers[w]?, ∀ f ∈ x.flags[j]?, _ ∨ _ ∧ f.Tested))
  | .again w j =>
    inferInstanceAs (Decidable (∀ x ∈ t.workers[w]?, ∀ f ∈ x.flags[j]?, _ → _))
  | .dequeue w => inferInstanceAs (Decidable (∀ x ∈ t.workers[w]?, _ → ∀ f ∈ x.flags, _ = _))
  | .submit | .enter _ | .clear _ _ | .begin _ _ | .late _ _ | .stop _ _ | .ret _ | .clearQueue
  | .done => .isTrue trivial

/-! ### Timely steps lose nothing -/

variable {impl : SolverImpl} {t t' : Service} {w j : ℕ}

/-- A flag that `interrupt()` has set for an early task is of no account any more, or is tested and
still set. -/
def Flag.Ok (f : Flag) (phase : Phase) (early : Bool) : Prop :=
  f.reached = true → early = true → phase = .idle ∨ phase = .solving ∧ f.Tested ∧ f.set = true

structure Inv (t : Service) : Prop where
  before : t.call = .before → ∀ x ∈ t.workers, ∀ f ∈ x.flags, f.reached = false
  returned : t.call = .returned → ∀ x ∈ t.workers, ∀ f ∈ x.flags, f.reached = true
  flags : ∀ x ∈ t.workers, ∀ f ∈ x.flags, f.Ok x.phase x.early

theorem inv_start (threads : ℕ) : Inv (start impl threads) where
  before := by
    intro _ x hx f hf
    rw [List.eq_of_mem_replicate hx] at hf
    obtain ⟨p, -, rfl⟩ := List.mem_map.mp hf
    rfl
  returned h := by cases h
  flags := by
    intro x hx f hf hr
    rw [List.eq_of_mem_replicate hx] at hf
    obtain ⟨p, -, rfl⟩ := List.mem_map.mp hf
    cases hr

/-- One worker moves on, with flags that are where `interrupt()` has them. -/
theorem Inv.move (h : Inv t) {x y : Worker} (hx : t.workers[w]? = some x)
    (hr : ∀ f ∈ y.flags, ∃ f' ∈ x.flags, f.reached = f'.reached)
    (hy : ∀ f ∈ y.flags, f.Ok y.phase y.early) (queue : ℕ) :
    Inv { t with queue, workers := t.workers.set w y } := by
  have hmem := List.mem_of_getElem? hx
  refine ⟨?_, ?_, ?_⟩
  · intro hc z hz f hf
    rcases List.mem_or_eq_of_mem_set hz with hz | rfl
    · exact h.before hc z hz f hf
    · obtain ⟨f', hf', heq⟩ := hr f hf
      exact heq.trans (h.before hc x hmem f' hf')
  · intro hc z hz f hf
    rcases List.mem_or_eq_of_mem_set hz with hz | rfl
    · exact h.returned hc z hz f hf
    · obtain ⟨f', hf', heq⟩ := hr f hf
      exact heq.trans (h.returned hc x hmem f' hf')
  · intro z hz f hf
    rcases List.mem_or_eq_of_mem_set hz with hz | rfl
    · exact h.flags z hz f hf
    · exact hy f hf

theorem update_eq_some {g : Worker → Flag → Option Flag} (hs : t.update w j g = some t') :
    ∃ x f f', t.workers[w]? = some x ∧ x.flags[j]? = some f ∧ g x f = some f' ∧
      t' = { t with workers := t.workers.set w { x with flags := x.flags.set j f' } } := by
  simp only [Service.update] at hs
  split at hs
  · cases hs
  rename_i x hx
  split at hs
  · cases hs
  rename_i f hf
  obtain ⟨f', hg, rfl⟩ := Option.map_eq_some_iff.mp hs
  exact ⟨x, f, f', hx, hf, hg, rfl⟩

/-- One flag changes, where `interrupt()` has it. -/
theorem Inv.update (h : Inv t) {g : Worker → Flag → Option Flag}
    (hs : t.update w j g = some t')
    (hg : ∀ x f f', t.workers[w]? = some x → x.flags[j]? = some f → g x f = some f' →
      f.Ok x.phase x.early → f'.reached = f.reached ∧ f'.Ok x.phase x.early) : Inv t' := by
  obtain ⟨x, f, f', hx, hf, hgf, rfl⟩ := update_eq_some hs
  have hmem := List.mem_of_getElem? hf
  have hok := h.flags x (List.mem_of_getElem? hx)
  obtain ⟨hr, hok'⟩ := hg x f f' hx hf hgf (hok f hmem)
  refine h.move hx (fun z hz => ?_) (fun z hz => ?_) t.queue
  · rcases List.mem_or_eq_of_mem_set hz with hz | rfl
    · exact ⟨z, hz, rfl⟩
    · exact ⟨f, hmem, hr⟩
  · rcases List.mem_or_eq_of_mem_set hz with hz | rfl
    · exact hok z hz
    · exact hok'

theorem Inv.dequeue (h : Inv t) (ht : Timely t (.dequeue w))
    (hs : step impl t (.dequeue w) = some t') : Inv t' := by
  simp only [step] at hs
  split at hs
  swap
  · cases hs
  rename_i flags early queue hx hq
  cases hs
  refine h.move (y := ⟨.dequeued, flags, _⟩) hx (fun f hf => ⟨f, hf, rfl⟩) ?_ queue
  -- an early task goes to a worker that `interrupt()` has not come to
  intro f hf hr he
  have hcall : t.call ≠ .returned := by simpa using he
  cases hc : t.call with
  | before =>
      have := h.before hc _ (List.mem_of_getElem? hx) f hf
      rw [this] at hr
      cases hr
  | setting =>
      have := ht _ hx hc f hf
      rw [this] at hr
      cases hr
  | returned => exact absurd hc hcall

theorem Inv.set (h : Inv t) (ht : Timely t (.set w j))
    (hs : step impl t (.set w j) = some t') : Inv t' := by
  simp only [step] at hs
  split at hs
  swap
  · cases hs
  rename_i hc
  obtain ⟨x, f, f', hx, hf, hgf, rfl⟩ := update_eq_some hs
  cases hgf
  refine ⟨fun hb => ?_, fun hb => ?_, ?_⟩
  · cases hc.symm.trans hb
  · cases hc.symm.trans hb
  · intro z hz y hy
    rcases List.mem_or_eq_of_mem_set hz with hz | rfl
    · exact h.flags z hz y hy
    rcases List.mem_or_eq_of_mem_set hy with hy | rfl
    · exact h.flags x (List.mem_of_getElem? hx) y hy
    · intro _ _
      -- a timely set meets a worker without a task or a flag that is tested
      exact (ht x hx f hf).imp_right fun hp => ⟨hp.1, hp.2, rfl⟩

/-- **Timely steps keep the invariant.** -/
theorem Inv.step (h : Inv t) {a : Action} (ht : Timely t a)
    (hs : Interrupt.step impl t a = some t') : Inv t' := by
  cases a with
  | submit =>
      cases hs
      exact { h with }
  | dequeue w => exact h.dequeue ht hs
  | enter w =>
      simp only [Interrupt.step] at hs
      split at hs
      swap
      · cases hs
      rename_i flags early hx
      cases hs
      have hzip : ∀ f ∈ flags.zipWith (fun f p => { f with clears := p.1, slave := p.2 })
          impl.flags, ∃ f' ∈ flags, f.reached = f'.reached := by
        intro f hf
        rw [← List.map_uncurry_zip_eq_zipWith] at hf
        obtain ⟨p, hp, rfl⟩ := List.mem_map.mp hf
        exact ⟨p.1, (List.of_mem_zip hp).1, rfl⟩
      refine h.move hx hzip ?_ t.queue
      intro f hf hr he
      -- a worker that is not in `solve` yet has no early task and such a flag
      obtain ⟨f', hf', heq⟩ := hzip f hf
      rcases h.flags _ (List.mem_of_getElem? hx) f' hf' (heq ▸ hr) he with hp | ⟨hp, -⟩ <;> cases hp
  | clear w j =>
      refine h.update hs fun x f f' _ _ hg hok => ?_
      split at hg
      swap
      · cases hg
      rename_i n hp hn
      cases hg
      refine ⟨rfl, fun hr he => ?_⟩
      rcases hok hr he with hi | ⟨-, ht, -⟩
      · exact .inl hi
      · cases hn.symm.trans ht.1
  | begin w j =>
      refine h.update hs fun x f f' _ _ hg hok => ?_
      split at hg
      swap
      · cases hg
      rename_i hc
      cases hg
      refine ⟨rfl, fun hr he => ?_⟩
      rcases hok hr he with hi | ⟨-, ht, -⟩
      · exact .inl hi
      · exact absurd hc.2.2 ht.2
  | again w j =>
      refine h.update hs fun x f f' hx hf hg hok => ?_
      split at hg
      swap
      · cases hg
      cases hg
      refine ⟨rfl, fun hr he => ?_⟩
      cases (ht x hx f hf he).symm.trans hr
  | late w j =>
      refine h.update hs fun x f f' _ _ hg hok => ?_
      split at hg
      swap
      · cases hg
      rename_i hc
      cases hg
      refine ⟨rfl, fun hr he => ?_⟩
      rcases hok hr he with hi | ⟨hp, ht, -⟩
      · exact .inl hi
      · exact hc.elim (fun hl => absurd hl ht.2) fun hl => absurd hp hl.2
  | stop w j =>
      refine h.update hs fun x f f' _ _ hg hok => ?_
      split at hg
      swap
      · cases hg
      cases hg
      exact ⟨rfl, fun hr he => (hok hr he).imp_right fun hp => ⟨hp.1, hp.2.1, rfl⟩⟩
  | ret w =>
      simp only [Interrupt.step] at hs
      split at hs
      swap
      · cases hs
      rename_i flags early hx
      split at hs
      swap
      · cases hs
      cases hs
      exact h.move (y := ⟨.idle, flags, early⟩) hx (fun f hf => ⟨f, hf, rfl⟩)
        (fun _ _ _ _ => .inl rfl) t.queue
  | clearQueue =>
      simp only [Interrupt.step] at hs
      split at hs
      · cases hs
        exact ⟨fun hb => (by cases hb), fun hb => (by cases hb), h.flags⟩
      · cases hs
  | set w j => exact h.set ht hs
  | done =>
      simp only [Interrupt.step] at hs
      split at hs
      · rename_i hc
        cases hs
        exact ⟨fun hb => (by cases hb), fun _ => hc.2, h.flags⟩
      · cases hs

theorem Inv.heeded (h : Inv t) : t.Heeded := by
  intro hc x hx he hp f hf _
  rcases h.flags x hx f hf (h.returned hc x hx f hf) he with hi | ⟨-, -, hset⟩
  · cases hp.symm.trans hi
  · exact hset

/-- All flags of the worker, as `interrupt()` sets them. -/
def setAll (flags : ℕ) : List Action := (List.range flags).map (.set 0)

/-- The clears of the worker in `solve`, until its first flag is tested. -/
def clearFirst : SolverImpl → List Action
  | .simp | .painless _ => [.clear 0 0]
  | .lmaple | .mapleCOMSPS => [.clear 0 0, .clear 0 0]

/-- `interrupt()` between the dequeue and the first clear, for a solver of each kind. -/
theorem exists_lost_interrupt : ∀ impl ∈ [SolverImpl.simp, .lmaple, .mapleCOMSPS,
    .painless [.mapleCOMSPS, .reducer]], ∃ as t,
      Machine.exec (Interrupt.step impl) (start impl 1) as = some t ∧ ¬ t.Heeded := by
  intro impl himpl
  have hrun : (Machine.exec (Interrupt.step impl) (start impl 1)
      ([.submit, .dequeue 0, .clearQueue] ++ setAll impl.flags.length ++
        [.done, .enter 0] ++ clearFirst impl)).any (fun t => ¬ t.Heeded) = true := by
    revert himpl impl
    decide
  obtain ⟨t, ht, hn⟩ := Machine.exists_run hrun
  exact ⟨_, t, ht, of_decide_eq_true hn⟩

/-- The clears of a `PainlessSolver` with one slave, up to the start of the slave's solver. -/
def clearsOfOne : List Action :=
  [.clear 0 0, .clear 0 1, .clear 0 2, .clear 0 1, .clear 0 2]

-- a `PainlessSolver` that is interrupted after all clears of its own thread: the slave still clears
-- its flag
example : (Machine.exec (Interrupt.step (.painless [.mapleCOMSPS]))
    (start (.painless [.mapleCOMSPS]) 1)
    ([.submit, .dequeue 0, .enter 0] ++ clearsOfOne ++ [.clearQueue] ++ setAll 3 ++
      [.done, .begin 0 2])).any (fun t => ¬ t.Heeded) = true := by
  decide

end Interrupt

open Interrupt in
/-- **No timely interrupt is lost.**  For every implementation, every number of workers and every
interleaving in which no flag is set between its worker's dequeue and the last clear of that flag,
no slave starts its solver again after `interrupt()` has set the solver's flag, and no worker that
`interrupt()` has come to dequeues before it returns: a task dequeued before `interrupt()` returned
runs the rest of its search with its solver's flags set. -/
theorem interrupt_heeded (impl : SolverImpl) (threads : ℕ) (as : List Action) (t : Service)
    (hrun : Machine.exec (Interrupt.step impl) (Interrupt.start impl threads) as = some t)
    (hT : Machine.Throughout (Interrupt.step impl) Timely (Interrupt.start impl threads) as) :
    t.Heeded :=
  (Machine.exec_invariant_throughout (fun _ _ _ h ht hs => Inv.step h ht hs) (inv_start threads) hT
    hrun).heeded

open Interrupt in
/-- A `PainlessSolver` with two slaves that search when `interrupt()` is called. -/
theorem interrupt_heeded_painless : ∃ as t,
    Machine.exec (Interrupt.step (.painless [.mapleCOMSPS, .reducer]))
      (Interrupt.start (.painless [.mapleCOMSPS, .reducer]) 1) as = some t ∧ t.call = .returned ∧
      (∃ x ∈ t.workers, x.early = true ∧ x.phase = .solving ∧ ∀ f ∈ x.flags, f.Tested) ∧
      t.Heeded := by
  let clears : List Action := (List.range 5).flatMap fun j => [.clear 0 (j + 1), .clear 0 (j + 1)]
  have hrun : (Machine.exec (Interrupt.step (.painless [.mapleCOMSPS, .reducer]))
      (Interrupt.start (.painless [.mapleCOMSPS, .reducer]) 1)
      ([.submit, .dequeue 0, .enter 0, .clear 0 0] ++ clears ++ [.begin 0 2, .begin 0 5, .again 0 5,
        .begin 0 5, .clearQueue] ++ setAll 6 ++ [.done])).any
        (fun t => t.call = .returned ∧
          ∃ x ∈ t.workers, x.early = true ∧ x.phase = .solving ∧ ∀ f ∈ x.flags, f.Tested) =
          true := by
    decide
  obtain ⟨t, ht, hp⟩ := Machine.exists_run hrun
  obtain ⟨hc, hx⟩ := of_decide_eq_true hp
  exact ⟨_, t, ht, hc, hx, interrupt_heeded _ 1 _ t ht (by decide)⟩

open Interrupt in
/-- A `SimpSolver` that clears the flag `interrupt()` has just set: the call returns and the search
goes on without it. -/
theorem interrupt_lost : ∃ as t,
    Machine.exec (Interrupt.step .simp) (Interrupt.start .simp 1) as = some t ∧ ¬ t.Heeded :=
  exists_lost_interrupt .simp (by decide)

end Parsat
