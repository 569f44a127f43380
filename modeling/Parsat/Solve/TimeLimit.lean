import Parsat.Solve.Timer

/-!
# Solve — time limits

One worker of `SequentialSolverService` with its solver and the timer.  A task with a time limit
goes through `Timer::launch`: it adds an event whose callback interrupts the solver, solves, and
aborts the handle.  A task without one only solves.  `SimpSolver::solve` clears the interrupt flag
before it searches.

The timer thread tests `aborted` and then runs the callback, and meanwhile the task may return,
abort its handle and be followed by another one.  If that has a time limit too, `add` makes it wait
for the end of the pass; if it has none, nothing does, and the callback interrupts it
(`timeLimit_hits_later`).  A search that throws leaves `launch` without aborting the handle, and
its event interrupts whatever is being solved when it expires.  `timeLimit_own` says that these are
the only ways.
-/

namespace Parsat

namespace TimeLimit

/-- What the worker does: nothing, a task it has taken, one that has its event, one whose search it
is in, one whose search has returned and whose handle is not aborted yet. -/
inductive Worker where
  | idle
  | started (limited : Bool)
  | added (handle : ℕ)
  | solving (handle : Option ℕ)
  | returned (handle : ℕ)
  deriving DecidableEq

/-- The handle of the task, if it has one. -/
def Worker.handle : Worker → Option ℕ
  | .added handle | .returned handle => some handle
  | .solving handle => handle
  | .idle | .started _ => none

def Worker.isSolving : Worker → Bool
  | .solving _ => true
  | _ => false

/-- The thread has tested `aborted` and runs the callback next. -/
def isCalling : Timer.Phase → Bool
  | .calling _ => true
  | _ => false

/-- The thread has tested `aborted` of the first event. -/
def isPastTest : Timer.Phase → Bool
  | .calling _ | .erasing => true
  | _ => false

/-- The service; for each callback that ran, its handle and what the worker did then. -/
structure State where
  timer : Timer.State
  worker : Worker
  flag : Bool
  interrupts : List (ℕ × Worker)
  deriving DecidableEq

def start : State := ⟨Timer.start, .idle, false, []⟩

inductive Action where
  | pass (p : Timer.Pass)
  | next (limited : Bool)
  | add (when : ℤ)
  | clear
  | ret
  | throw
  | abort

/-- The callback of the first event: `solver.interrupt()`. -/
def interrupt (s : State) : Timer.Pass → State
  | .call =>
    match s.timer.events.head? with
    | none => s
    | some e => { s with flag := true, interrupts := s.interrupts ++ [(e.handle, s.worker)] }
  | _ => s

/-- The steps of the timer thread and of the worker.  A task is being solved from the clear on; an
exception of `add` or of the search ends it, and the worker goes on. -/
def step (s : State) : Action → Option State
  | .pass p => (Timer.thread s.timer p).map fun timer => { interrupt s p with timer }
  | .next limited => if s.worker = .idle then some { s with worker := .started limited } else none
  | .add w =>
    if s.worker = .started true then
      (Timer.step s.timer (.add w true)).map fun timer =>
        { s with timer, worker := .added s.timer.added.length }
    else none
  | .clear =>
    match s.worker with
    | .started false => some { s with flag := false, worker := .solving none }
    | .added handle => some { s with flag := false, worker := .solving (some handle) }
    | _ => none
  | .ret =>
    match s.worker with
    | .solving none => some { s with worker := .idle }
    | .solving (some handle) => some { s with worker := .returned handle }
    | _ => none
  | .throw =>
    match s.worker with
    | .started true | .solving _ => some { s with worker := .idle }
    | _ => none
  | .abort =>
    match s.worker with
    | .returned handle =>
      (Timer.step s.timer (.abort handle)).map fun timer => { s with timer, worker := .idle }
    | _ => none

/-- No test of `aborted` to come lets the callback of the event run: its handle is aborted, or the
thread is past the test. -/
def Spent (t : Timer.State) (e : Timer.Event) : Prop :=
  e.handle ∈ t.aborted ∨ isPastTest t.phase = true ∧ t.events.head? = some e

instance (t : Timer.State) (e : Timer.Event) : Decidable (Spent t e) :=
  inferInstanceAs (Decidable (_ ∨ _ ∧ _))

namespace State

/-- No callback ran while another task than its own was being solved; as its own was taken before,
that is a later one. -/
def Own (s : State) : Prop :=
  ∀ r ∈ s.interrupts, r.2.isSolving = true → r.2.handle = some r.1

instance (s : State) : Decidable s.Own :=
  inferInstanceAs (Decidable (∀ r ∈ s.interrupts, _ = _ → _ = _))

/-- A task finds the flag set only if it has a time limit, and that has expired. -/
def Unharmed (s : State) : Prop :=
  s.worker.isSolving = true → s.flag = true → ∃ e ∈ s.timer.added,
    s.worker.handle = some e.handle ∧ ∃ now, (e.handle, now) ∈ s.timer.runs ∧ e.when ≤ now

/-- The invariant: all events but the one of the worker's task are spent, and between test and
callback the worker is at the task the callback belongs to, or at none that is being solved. -/
structure Inv (s : State) : Prop where
  timer : s.timer.Inv
  events : ∀ e ∈ s.timer.events, Spent s.timer e ∨ s.worker.handle = some e.handle
  calling : isCalling s.timer.phase = true → ∀ e ∈ s.timer.events.head?,
    s.worker.handle = some e.handle ∨ s.worker.handle = none ∧ s.worker.isSolving = false
  own : s.Own
  unharmed : s.Unharmed

end State

/-- A task without a time limit does not clear the flag while the timer thread is between the test
of `aborted` and the callback, and one with a time limit does not throw before its event is
spent. -/
def Apart (s : State) : Action → Prop
  | .clear => s.worker = .started false → isCalling s.timer.phase = false
  | .throw => ∀ e ∈ s.timer.events, s.worker.handle = some e.handle → Spent s.timer e
  | _ => True

instance (s : State) (a : Action) : Decidable (Apart s a) :=
  match a with
  | .clear => inferInstanceAs (Decidable (_ = _ → _ = _))
  | .throw => inferInstanceAs (Decidable (∀ e ∈ s.timer.events, _ = _ → Spent _ _))
  | .pass _ | .next _ | .add _ | .ret | .abort => .isTrue trivial

variable {s t : State} {a : Action} {p : Timer.Pass} {timer : Timer.State} {e : Timer.Event}

/-! ### Spent events -/

/-- Before the test only the handle keeps the callback from running. -/
theorem Spent.mem_aborted (h : Spent s.timer e) (hp : isPastTest s.timer.phase = false) :
    e.handle ∈ s.timer.aborted :=
  h.resolve_right fun hl => Bool.false_ne_true (hp.symm.trans hl.1)

/-- The timer thread adds nothing to the set, and what stays in it stays spent. -/
theorem Spent.thread (hi : s.timer.Inv) (ht : Timer.thread s.timer p = some timer)
    (he : e ∈ timer.events) : e ∈ s.timer.events ∧ (Spent s.timer e → Spent timer e) := by
  rcases Timer.thread_cases ht with ⟨-, hp, rfl⟩ | ⟨_, -, hp, rfl | ⟨_, -, -, rfl⟩⟩ |
    ⟨_, _, -, hp, -, ⟨-, -, rfl⟩ | ⟨-, rfl⟩⟩ | ⟨_, _, -, hp, -, rfl⟩ | ⟨_, _, -, -, hev, rfl⟩
  · exact ⟨he, fun h => .inl (h.mem_aborted (by simp [hp, isPastTest]))⟩
  · exact ⟨he, fun h => .inl (h.mem_aborted (by simp [hp, isPastTest]))⟩
  · exact ⟨he, fun h => .inl (h.mem_aborted (by simp [hp, isPastTest]))⟩
  · exact ⟨he, fun h => .inl (h.mem_aborted (by simp [hp, isPastTest]))⟩
  · exact ⟨he, fun h => .inl (h.mem_aborted (by simp [hp, isPastTest]))⟩
  · exact ⟨he, fun h => h.imp_right fun hl => ⟨rfl, hl.2⟩⟩
  · refine ⟨hev ▸ List.mem_cons_of_mem _ he, fun h => .inl (h.resolve_right fun hl => ?_)⟩
    -- the event that is erased is not among those that stay
    have hsorted := hi.sorted
    have hhead := hl.2
    rw [hev] at hsorted hhead
    cases hhead
    exact absurd ((List.pairwise_cons.mp hsorted).1 _ he) (lt_irrefl _)

theorem interrupt_worker : (interrupt s p).worker = s.worker := by
  unfold interrupt
  split
  · split <;> rfl
  · rfl

/-! ### The invariant -/

theorem inv_start : start.Inv where
  timer := Timer.inv_start
  events := by simp [start, Timer.start]
  calling := by simp [start, Timer.start]
  own := by simp [State.Own, start]
  unharmed := by simp [State.Unharmed, start]

/-- The timer thread keeps the invariant. -/
theorem State.Inv.pass (h : s.Inv) (hs : step s (.pass p) = some t) : t.Inv := by
  obtain ⟨timer, ht, rfl⟩ := Option.map_eq_some_iff.mp hs
  have htimer := h.timer.thread ht
  have hevents : ∀ e ∈ timer.events,
      Spent timer e ∨ (interrupt s p).worker.handle = some e.handle := by
    intro e he
    obtain ⟨hmem, hspent⟩ := Spent.thread h.timer ht he
    rw [interrupt_worker]
    exact (h.events e hmem).imp_left hspent
  rcases Timer.thread_cases ht with ⟨rfl, hp, rfl⟩ | ⟨now, rfl, hp, rfl | ⟨e, he, hle, rfl⟩⟩ |
    ⟨now, e, rfl, hp, he, ⟨hab, hcb, rfl⟩ | ⟨hskip, rfl⟩⟩ | ⟨now, e, rfl, hp, he, rfl⟩ |
    ⟨e, events, rfl, hp, he, rfl⟩
  · exact { h with timer := htimer, events := hevents, calling := by simp [isCalling] }
  · exact { h with timer := htimer, events := hevents, calling := by simp [isCalling] }
  · exact { h with timer := htimer, events := hevents, calling := by simp [isCalling] }
  · refine { h with timer := htimer, events := hevents, calling := ?_ }
    rintro - e' he'
    cases he.symm.trans he'
    exact .inl <| (h.events e (List.mem_of_mem_head? he)).resolve_left fun hspent =>
      hab (hspent.mem_aborted (by simp [hp, isPastTest]))
  · exact { h with timer := htimer, events := hevents, calling := by simp [isCalling] }
  · -- the callback runs: its task is the one of the worker, or nothing is being solved
    have hint : interrupt s .call = { s with
        flag := true, interrupts := s.interrupts ++ [(e.handle, s.worker)] } := by
      simp [interrupt, he]
    have hcall := h.calling (by rw [hp]; rfl) e he
    rw [hint] at hevents ⊢
    refine ⟨htimer, hevents, by simp [isCalling], ?_, ?_⟩
    · intro r hr hsolving
      rcases List.mem_append.mp hr with hr | hr
      · exact h.own r hr hsolving
      · obtain rfl := List.mem_singleton.mp hr
        exact hcall.resolve_right fun hc => Bool.false_ne_true (hc.2.symm.trans hsolving)
    · intro hsolving _
      have hown := hcall.resolve_right fun hc => Bool.false_ne_true (hc.2.symm.trans hsolving)
      exact ⟨e, h.timer.of_head he, hown, now, List.mem_append_right _ (List.mem_singleton_self _),
        (h.timer.calling now hp e he).1⟩
  · exact { h with timer := htimer, events := hevents, calling := by simp [isCalling] }

/-- The worker takes or leaves a task that has no event. -/
theorem State.Inv.leave (h : s.Inv) (hs : s.worker.handle = none) {w : Worker}
    (hw : w.handle = none) (hsolving : w.isSolving = false) :
    State.Inv { s with worker := w } where
  timer := h.timer
  events e he := .inl ((h.events e he).resolve_right (by simp [hs]))
  calling _ _ _ := .inr ⟨hw, hsolving⟩
  own := h.own
  unharmed hc := absurd (hsolving.symm.trans hc) Bool.false_ne_true

/-- The worker goes on with a task that has its event. -/
theorem State.Inv.goOn (h : s.Inv) {handle : ℕ} (hs : s.worker.handle = some handle) {w : Worker}
    {flag : Bool} (hw : w.handle = some handle) (hflag : w.isSolving = true → flag = false) :
    State.Inv { s with worker := w, flag } where
  timer := h.timer
  events e he := (h.events e he).imp_right fun ho => hw.trans (hs.symm.trans ho)
  calling hc e he := .inl <| hw.trans <| hs.symm.trans <|
    (h.calling hc e he).resolve_right fun hn => by cases hs.symm.trans hn.1
  own := h.own
  unharmed hc hf := absurd ((hflag hc).symm.trans hf) Bool.false_ne_true

/-- `Timer::add`: the new event is the one of the task. -/
theorem State.Inv.add (h : s.Inv) {w : ℤ} (hs : TimeLimit.step s (.add w) = some t) : t.Inv := by
  simp only [TimeLimit.step] at hs
  split at hs
  · rename_i hw
    obtain ⟨timer, ht, rfl⟩ := Option.map_eq_some_iff.mp hs
    have htimer := h.timer.step ht
    simp only [Timer.step] at ht
    split at ht
    · rename_i hp
      cases ht
      have hnone : s.worker.handle = none := by rw [hw]; rfl
      refine ⟨htimer, ?_, by simp [hp, isCalling], h.own, fun hsolving => ?_⟩
      · intro e he
        rcases OrderedSet.of_mem_insertBy he with rfl | he
        · exact .inr rfl
        · have hspent := (h.events e he).resolve_right (by simp [hnone])
          exact .inl (.inl (hspent.mem_aborted (by simp [hp, isPastTest])))
      · cases hsolving
    · cases ht
  · cases hs

/-- The clear, where it is apart from the callbacks: without a time limit nothing is left of the
tasks before. -/
theorem State.Inv.clear (h : s.Inv) (ha : Apart s .clear)
    (hs : TimeLimit.step s .clear = some t) : t.Inv := by
  simp only [TimeLimit.step] at hs
  split at hs
  · rename_i hw
    cases hs
    have hnone : s.worker.handle = none := by rw [hw]; rfl
    refine ⟨h.timer, ?_, ?_, h.own, fun _ hflag => by cases hflag⟩
    · exact fun e he => .inl ((h.events e he).resolve_right (by simp [hnone]))
    · exact fun hc => absurd ((ha hw).symm.trans hc) Bool.false_ne_true
  · rename_i handle hw
    cases hs
    exact h.goOn (by rw [hw]; rfl) rfl fun _ => rfl
  · cases hs

/-- The abort: the event of the task is aborted now. -/
theorem State.Inv.abort (h : s.Inv) (hs : TimeLimit.step s .abort = some t) : t.Inv := by
  simp only [TimeLimit.step] at hs
  split at hs
  · rename_i handle hw
    obtain ⟨timer, ht, rfl⟩ := Option.map_eq_some_iff.mp hs
    have htimer := h.timer.step ht
    simp only [Timer.step] at ht
    split at ht
    · cases ht
      have hsome : s.worker.handle = some handle := by rw [hw]; rfl
      refine ⟨htimer, ?_, fun _ _ _ => .inr ⟨rfl, rfl⟩, h.own, fun hsolving => ?_⟩
      · intro e he
        rcases h.events e he with hab | hown
        · exact .inl (hab.imp_left (List.mem_cons_of_mem _))
        · exact .inl (.inl (Option.some.inj (hsome.symm.trans hown) ▸ List.mem_cons_self))
      · cases hsolving
    · cases ht
  · cases hs

/-- An exception, where it is apart from the callbacks: the event of the task is spent. -/
theorem State.Inv.throw (h : s.Inv) (ha : Apart s .throw)
    (hs : TimeLimit.step s .throw = some t) : t.Inv := by
  have hworker : t = { s with worker := .idle } := by
    simp only [TimeLimit.step] at hs
    split at hs <;> cases hs <;> rfl
  subst hworker
  refine ⟨h.timer, ?_, fun _ _ _ => .inr ⟨rfl, rfl⟩, h.own, fun hsolving => by cases hsolving⟩
  exact fun e he => .inl ((h.events e he).elim id (ha e he))

/-- Every step keeps it, where the clears and the exceptions are apart from the callbacks. -/
theorem State.Inv.step (h : s.Inv) (ha : Apart s a) (hs : TimeLimit.step s a = some t) :
    t.Inv := by
  cases a with
  | pass p => exact h.pass hs
  | next limited =>
      simp only [TimeLimit.step] at hs
      split at hs
      · rename_i hw
        cases hs
        exact h.leave (by rw [hw]; rfl) rfl rfl
      · cases hs
  | add w => exact h.add hs
  | clear => exact h.clear ha hs
  | ret =>
      simp only [TimeLimit.step] at hs
      split at hs
      · rename_i hw
        cases hs
        exact h.leave (by rw [hw]; rfl) rfl rfl
      · rename_i handle hw
        cases hs
        exact h.goOn (by rw [hw]; rfl) rfl fun hsolving => by cases hsolving
      · cases hs
  | throw => exact h.throw ha hs
  | abort => exact h.abort hs

end TimeLimit

open TimeLimit in
/-- **A time limit stops its own task only.**  In every run in which no task without a time limit
clears the flag between the test of `aborted` and the callback, and none with a time limit throws
before its event is spent: no callback sets the flag while a later task than its own is being
solved, and a task that is being solved finds the flag set only if its own limit has expired. -/
theorem timeLimit_own (as : List TimeLimit.Action) (s : TimeLimit.State)
    (h : Machine.exec TimeLimit.step TimeLimit.start as = some s)
    (hC : Machine.Throughout TimeLimit.step Apart TimeLimit.start as) : s.Own ∧ s.Unharmed := by
  have := Machine.exec_invariant_throughout (fun _ _ _ hi hc hs => State.Inv.step hi hc hs)
    inv_start hC h
  exact ⟨this.own, this.unharmed⟩

open TimeLimit in
/-- A task with a time limit returns between the test and the callback of its event, and the task
without one that follows is interrupted. -/
theorem timeLimit_hits_later : ∃ as s,
    Machine.exec TimeLimit.step TimeLimit.start as = some s ∧ ¬ s.Own ∧
      s.worker = .solving none ∧ s.flag = true := by
  have hrun : (Machine.exec TimeLimit.step TimeLimit.start [.next true, .add 5, .clear, .pass .wake,
      .pass (.check 6), .pass .test, .ret, .abort, .next false, .clear, .pass .call]).any
        (fun s => ¬ s.Own ∧ s.worker = .solving none ∧ s.flag = true) = true := by
    decide +kernel
  obtain ⟨s, hs, hp⟩ := Machine.exists_run hrun
  exact ⟨_, s, hs, of_decide_eq_true hp⟩

open TimeLimit in
/-- A task with a time limit throws, and when the limit expires its event interrupts another one. -/
example : (Machine.exec TimeLimit.step TimeLimit.start [.next true, .add 5, .clear, .throw,
    .next false, .clear, .pass .wake, .pass (.check 6), .pass .test, .pass .call]).any
      (fun s => ¬ s.Own ∧ s.worker = .solving none ∧ s.flag = true) = true := by
  decide +kernel

open TimeLimit in
/-- Two tasks with a time limit: the limit of the first one expires while it is being solved, and
the second one has to wait for the end of the pass. -/
theorem timeLimit_own_two : ∃ as s, Machine.exec TimeLimit.step TimeLimit.start as = some s ∧
    s.interrupts = [(0, .solving (some 0))] ∧ s.worker = .solving (some 1) ∧ s.Own ∧
      s.Unharmed := by
  have hrun : (Machine.exec TimeLimit.step TimeLimit.start [.next true, .add 5, .clear, .pass .wake,
      .pass (.check 6), .pass .test, .pass .call, .ret, .abort, .next true, .pass .erase,
      .pass (.check 7), .add 9, .clear]).any
        (fun s => s.interrupts = [(0, .solving (some 0))] ∧ s.worker = .solving (some 1)) =
          true := by
    decide +kernel
  obtain ⟨s, hs, hp⟩ := Machine.exists_run hrun
  obtain ⟨hi, hw⟩ := of_decide_eq_true hp
  exact ⟨_, s, hs, hi, hw, timeLimit_own _ s hs (by decide +kernel)⟩

end Parsat
