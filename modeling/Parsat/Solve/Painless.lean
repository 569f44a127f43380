import Mathlib.Logic.Function.Basic
import Parsat.Library.Machine
import Parsat.Sat.Problem

/-!
# Solve — the painless portfolio solver

`PainlessSolver::solve`, called again and again, with its `Portfolio` of `SequentialWorker`s.  The
`k`-th call numbers itself `k`, resets the result record, moves the portfolio's index to `k` and
hands a task with the number `k` to each worker; then it waits for the record or an interrupt.  A
worker that is done compares its task's number with the indices and writes the record.

The record is reset before the portfolio's index moves on, and `waitInterrupt` waits for the end of
`solver->solve` but not for the `join` after it.  So a worker left over from an interrupted call may
pass the test of `Portfolio::join` in between, or have passed it before, and write its result into
the next call's record (`painless_stale_result`).  `painless_returns_own_result` proves that nothing
else goes wrong: in every run in which no join is accepted in that window or still unwritten when
the record is reset, each call returns `UNKNOWN` or what a worker produced for its own task.
-/

namespace Parsat

/-- Where the calling thread is. -/
inductive Phase where
  /-- Between two calls. -/
  | idle
  /-- After `clear_interrupt()`. -/
  | cleared
  /-- After `++solve_index`. -/
  | indexed
  /-- After `_result.global_ending = false`. -/
  | unended
  /-- After `_result.final_result = PUNKNOWN`. -/
  | reset
  /-- In `Portfolio::solve`, after `current_index = index`. -/
  | advanced
  /-- After `strategyEnding = false`: the workers whose interrupt flag is still to be unset, and
  those that only wait for their task. -/
  | starting (todo half : List ℕ)
  /-- Waiting for the record. -/
  | waiting
  /-- After the record was read. -/
  | stopping (result : State)
  /-- In `waitInterrupt()`, with the workers still to be waited for. -/
  | joining (result : State) (todo : List ℕ)
  deriving DecidableEq

/-- Where a worker is, with the number of its task and its result. -/
inductive WorkerPc where
  | idle
  /-- The task is taken. -/
  | taken (index : ℕ)
  /-- In `solver->solve`, holding the interrupt mutex. -/
  | solving (index : ℕ)
  /-- Before the test of the `do … while`. -/
  | solved (index : ℕ) (result : State)
  /-- In `SequentialWorker::join`, before the test of `global_ending`. -/
  | checking (index : ℕ) (result : State)
  /-- Before the comparison with the worker's index. -/
  | comparing (index : ℕ) (result : State)
  /-- Before the lock and the test of `Portfolio::join`. -/
  | testing (index : ℕ) (result : State)
  /-- The test is passed: before `strategyEnding = true` and `setInterrupt()`. -/
  | accepted (index : ℕ) (result : State)
  /-- Before the write of the record. -/
  | writing (index : ℕ) (result : State)
  deriving DecidableEq

/-- The caller, the result record, the portfolio and its workers.  `produced` and `returned` record
what the solvers returned for which task, and what the calls returned. -/
structure Painless where
  phase : Phase
  solveIndex : ℕ
  interrupted : Bool
  globalEnding : Bool
  finalResult : State
  currentIndex : ℕ
  strategyEnding : Bool
  joinHeld : Bool
  pc : ℕ → WorkerPc
  task : ℕ → Option ℕ
  workerIndex : ℕ → ℕ
  workerInterrupted : ℕ → Bool
  produced : List (ℕ × State)
  returned : List (ℕ × State)

namespace Painless

inductive Action where
  | caller
  | unset (worker : ℕ)
  | assign (worker : ℕ)
  | wait (worker : ℕ)
  | interrupt
  | take (worker : ℕ)
  | solve (worker : ℕ)
  | answer (worker : ℕ) (result : State)
  | work (worker : ℕ)

def start : Painless where
  phase := .idle
  solveIndex := 0
  interrupted := false
  globalEnding := false
  finalResult := .UNKNOWN
  currentIndex := 0
  strategyEnding := false
  joinHeld := false
  pc _ := .idle
  task _ := none
  workerIndex _ := 0
  workerInterrupted _ := false
  produced := []
  returned := []

/-- The next step of the calling thread, where it does not depend on a worker. -/
def callerStep (n : ℕ) (t : Painless) : Option Painless :=
  match t.phase with
  | .idle =>
    some { t with phase := .cleared, interrupted := false, workerInterrupted := fun _ => false }
  | .cleared => some { t with phase := .indexed, solveIndex := t.solveIndex + 1 }
  | .indexed => some { t with phase := .unended, globalEnding := false }
  | .unended => some { t with phase := .reset, finalResult := .UNKNOWN }
  | .reset => some { t with phase := .advanced, currentIndex := t.solveIndex }
  | .advanced => some { t with phase := .starting (List.range n) [], strategyEnding := false }
  | .starting [] [] => some { t with phase := .waiting }
  | .waiting =>
    if t.globalEnding || t.interrupted then some { t with phase := .stopping t.finalResult }
    else none
  | .stopping r =>
    some { t with phase := .joining r (List.range n), workerInterrupted := fun _ => true }
  | .joining r [] =>
    some { t with phase := .idle, returned := t.returned ++ [(t.solveIndex, r)] }
  | _ => none

/-- The test of `Portfolio::join` lets the result in. -/
def Accepts (t : Painless) (index : ℕ) (result : State) : Bool :=
  !(result = .UNKNOWN || t.strategyEnding || t.globalEnding || index ≠ t.currentIndex)

def setPc (t : Painless) (w : ℕ) (p : WorkerPc) : Painless :=
  { t with pc := Function.update t.pc w p }

/-- The next step of a worker that has a result. -/
def workStep (t : Painless) (w : ℕ) : Option Painless :=
  match t.pc w with
  | .solved i r =>
    if r = .UNKNOWN && !t.workerInterrupted w then some (t.setPc w (.taken i))
    else some { t.setPc w (.checking i r) with
      workerInterrupted := Function.update t.workerInterrupted w true }
  | .checking i r => some (t.setPc w (if t.globalEnding then .idle else .comparing i r))
  | .comparing i r => some (t.setPc w (if t.workerIndex w ≠ i then .idle else .testing i r))
  | .testing i r =>
    if t.joinHeld then none
    else if t.Accepts i r then some { t.setPc w (.accepted i r) with joinHeld := true }
    else some (t.setPc w .idle)
  | .accepted i r =>
    some { t.setPc w (.writing i r) with
      strategyEnding := true
      workerInterrupted := fun _ => true }
  | .writing _ r =>
    some { t.setPc w .idle with finalResult := r, globalEnding := true, joinHeld := false }
  | _ => none

def step (n : ℕ) (t : Painless) : Action → Option Painless
  | .caller => t.callerStep n
  | .unset w =>
    match t.phase with
    | .starting todo half =>
      if w ∈ todo then
        some { t with
          phase := .starting (todo.erase w) (w :: half)
          workerInterrupted := Function.update t.workerInterrupted w false }
      else none
    | _ => none
  | .assign w =>
    match t.phase with
    | .starting todo half =>
      if w ∈ half then
        some { t with
          phase := .starting todo (half.erase w)
          workerIndex := Function.update t.workerIndex w t.solveIndex
          task := Function.update t.task w (some t.solveIndex) }
      else none
    | _ => none
  | .wait w =>
    match t.phase, t.pc w with
    | .joining _ _, .solving _ => none
    | .joining r todo, _ =>
      if w ∈ todo then some { t with phase := .joining r (todo.erase w) } else none
    | _, _ => none
  | .interrupt => some { t with interrupted := true, workerInterrupted := fun _ => true }
  | .take w =>
    match t.pc w, t.task w with
    | .idle, some i => some { t.setPc w (.taken i) with task := Function.update t.task w none }
    | _, _ => none
  | .solve w =>
    match t.pc w with
    | .taken i => some (t.setPc w (.solving i))
    | _ => none
  | .answer w r =>
    match t.pc w with
    | .solving i => some { t.setPc w (.solved i r) with produced := t.produced ++ [(i, r)] }
    | _ => none
  | .work w => t.workStep w

/-! ### Runs without a stale join -/

end Painless

namespace Phase

/-- The record has been marked unfinished and not been read yet. -/
def Unended : Phase → Prop
  | .unended | .reset | .advanced | .starting _ _ | .waiting => True
  | _ => False

/-- The record has been reset and not been read yet. -/
def Reset : Phase → Prop
  | .reset | .advanced | .starting _ _ | .waiting => True
  | _ => False

/-- The portfolio has the index of the call. -/
def Advanced : Phase → Prop
  | .advanced | .starting _ _ | .waiting => True
  | _ => False

/-- The result read from the record. -/
def result : Phase → Option State
  | .stopping r | .joining r _ => some r
  | _ => none

theorem Reset.unended {p : Phase} (h : p.Reset) : p.Unended := by
  cases p <;> first | exact h | exact trivial

theorem Advanced.reset {p : Phase} (h : p.Advanced) : p.Reset := by
  cases p <;> first | exact h | exact trivial

end Phase

namespace WorkerPc

/-- The result a worker carries, with the number of its task. -/
def claim : WorkerPc → Option (ℕ × State)
  | .solved i r | .checking i r | .comparing i r | .testing i r | .accepted i r | .writing i r =>
    some (i, r)
  | _ => none

/-- The same, if the test of `Portfolio::join` has let it in. -/
def pendingWrite : WorkerPc → Option (ℕ × State)
  | .accepted i r | .writing i r => some (i, r)
  | _ => none

end WorkerPc

namespace Painless

/-- No join is accepted between the reset of the record and the move of the portfolio's index, and
none is accepted but unwritten when the reset begins. -/
def Safe (t : Painless) : Action → Prop
  | .caller => t.phase = .indexed → ∀ w, (t.pc w).pendingWrite = none
  | .work w => ∀ i r, t.pc w = .testing i r → t.phase = .unended ∨ t.phase = .reset →
      t.Accepts i r = false
  | _ => True

/-- `UNKNOWN`, or produced for task `k`. -/
def Own (t : Painless) (k : ℕ) (r : State) : Prop := r = .UNKNOWN ∨ (k, r) ∈ t.produced

structure Inv (t : Painless) : Prop where
  claim : ∀ w c, (t.pc w).claim = some c → c ∈ t.produced
  pendingWrite : t.phase.Unended → ∀ w c, (t.pc w).pendingWrite = some c → c.1 = t.solveIndex
  currentIndex : t.phase.Advanced → t.currentIndex = t.solveIndex
  finalResult : t.phase.Reset → t.Own t.solveIndex t.finalResult
  result : ∀ r, t.phase.result = some r → t.Own t.solveIndex r
  returned : ∀ c ∈ t.returned, t.Own c.1 c.2

variable {t t' : Painless} {n w : ℕ}

theorem inv_start : start.Inv where
  claim := by simp [start, WorkerPc.claim]
  pendingWrite := by simp [start, Phase.Unended]
  currentIndex := by simp [start, Phase.Advanced]
  finalResult := by simp [start, Phase.Reset]
  result := by simp [start, Phase.result]
  returned := by simp [start]

/-- A worker moves on with a result it has, or without one, and does not pass the test. -/
theorem Inv.setPc (h : t.Inv) {p : WorkerPc} (hc : ∀ c, p.claim = some c → c ∈ t.produced)
    (hp : t.phase.Unended → ∀ c, p.pendingWrite = some c → c.1 = t.solveIndex) :
    (t.setPc w p).Inv := by
  refine { h with claim := ?_, pendingWrite := ?_ }
  · intro v c hv
    by_cases e : v = w
    · subst e
      exact hc c (by simpa [Painless.setPc] using hv)
    · exact h.claim v c (by simpa [Painless.setPc, Function.update_of_ne e] using hv)
  · intro hu v c hv
    by_cases e : v = w
    · subst e
      exact hp hu c (by simpa [Painless.setPc] using hv)
    · exact h.pendingWrite hu v c (by simpa [Painless.setPc, Function.update_of_ne e] using hv)

/-- A worker moves on with the result it carries, or drops it. -/
theorem Inv.carryOn (h : t.Inv) {p : WorkerPc}
    (hc : ∀ c, p.claim = some c → (t.pc w).claim = some c)
    (hp : ∀ c, p.pendingWrite = some c → (t.pc w).pendingWrite = some c) : (t.setPc w p).Inv :=
  h.setPc (fun c hpc => h.claim w c (hc c hpc)) fun hu c hpc => h.pendingWrite hu w c (hp c hpc)

/-- The flags no part of the invariant reads. -/
theorem Inv.flags (h : t.Inv) (a b c d : Bool) (e f g) :
    Inv { t with
      interrupted := a, globalEnding := b, strategyEnding := c, joinHeld := d
      task := e, workerIndex := f, workerInterrupted := g } :=
  ⟨h.claim, h.pendingWrite, h.currentIndex, h.finalResult, h.result, h.returned⟩

/-- A phase in which no more is owed than before. -/
theorem Inv.toPhase (h : t.Inv) {p : Phase} (hu : p.Unended → t.phase.Unended)
    (ha : p.Advanced → t.phase.Advanced) (hr : p.Reset → t.phase.Reset)
    (hres : ∀ r, p.result = some r → t.phase.result = some r) : Inv { t with phase := p } where
  claim := h.claim
  pendingWrite hp := h.pendingWrite (hu hp)
  currentIndex hp := h.currentIndex (ha hp)
  finalResult hp := h.finalResult (hr hp)
  result r hp := h.result r (hres r hp)
  returned := h.returned

theorem Inv.caller (h : t.Inv) (hS : t.Safe .caller) (hs : t.callerStep n = some t') : t'.Inv := by
  unfold callerStep at hs
  cases hp : t.phase with
  | idle =>
      rw [hp] at hs
      cases hs
      exact (h.toPhase (p := .cleared) nofun nofun nofun nofun).flags ..
  | cleared =>
      rw [hp] at hs
      cases hs
      exact { h with
        pendingWrite := nofun, currentIndex := nofun, finalResult := nofun, result := nofun }
  | indexed =>
      rw [hp] at hs
      cases hs
      refine { h with
        pendingWrite := ?_, currentIndex := nofun, finalResult := nofun,
        result := nofun }
      -- the step is safe, so no worker is about to write when the flag is cleared
      intro _ w c hc
      rw [hS hp w] at hc
      cases hc
  | unended =>
      rw [hp] at hs
      cases hs
      exact { h with
        pendingWrite := fun _ => h.pendingWrite (by rw [hp]; trivial), currentIndex := nofun,
        finalResult := fun _ => .inl rfl, result := nofun }
  | reset =>
      rw [hp] at hs
      cases hs
      exact { h with
        pendingWrite := fun _ => h.pendingWrite (by rw [hp]; trivial), currentIndex := fun _ => rfl,
        finalResult := fun _ => h.finalResult (by rw [hp]; trivial), result := nofun }
  | advanced =>
      rw [hp] at hs
      cases hs
      refine (h.toPhase (p := .starting (List.range n) []) ?_ ?_ ?_ nofun).flags ..
      all_goals exact fun _ => by rw [hp]; trivial
  | starting todo half =>
      rw [hp] at hs
      cases todo <;> cases half <;> cases hs
      refine h.toPhase ?_ ?_ ?_ nofun
      all_goals exact fun _ => by rw [hp]; trivial
  | waiting =>
      rw [hp] at hs
      dsimp only at hs
      split at hs
      · cases hs
        refine { h with
          pendingWrite := nofun, currentIndex := nofun, finalResult := nofun, result := ?_ }
        rintro _ ⟨⟩
        exact h.finalResult (by rw [hp]; trivial)
      · cases hs
  | stopping r =>
      rw [hp] at hs
      cases hs
      refine (h.toPhase (p := .joining r (List.range n)) nofun nofun nofun ?_).flags ..
      rw [hp]
      exact fun _ hr => hr
  | joining r todo =>
      rw [hp] at hs
      cases todo <;> cases hs
      refine { h with
        pendingWrite := nofun, currentIndex := nofun, finalResult := nofun, result := nofun,
        returned := ?_ }
      intro c hc
      rcases List.mem_append.mp hc with hc | hc
      · exact h.returned c hc
      · rw [List.mem_singleton.mp hc]
        exact h.result r (by rw [hp]; rfl)

theorem Inv.work (h : t.Inv) (hS : t.Safe (.work w)) (hs : t.workStep w = some t') : t'.Inv := by
  unfold workStep at hs
  cases hp : t.pc w with
  | idle | taken i | solving i => rw [hp] at hs; cases hs
  | solved i r =>
      rw [hp] at hs
      dsimp only at hs
      split at hs
      · cases hs
        exact h.setPc nofun nofun
      · cases hs
        exact (h.carryOn (p := .checking i r) (by rw [hp]; exact fun _ hc => hc) nofun).flags ..
  | checking i r | comparing i r =>
      rw [hp] at hs
      cases hs
      split
      · exact h.setPc nofun nofun
      · exact h.carryOn (by rw [hp]; exact fun _ hc => hc) nofun
  | testing i r =>
      have hc := h.claim w (i, r) (by rw [hp]; rfl)
      have hsafe := hS i r hp
      rw [hp] at hs
      dsimp only at hs
      split at hs
      · cases hs
      · split at hs
        · rename_i hacc
          cases hs
          refine (h.setPc (p := .accepted i r) ?_ ?_).flags ..
          · rintro _ ⟨⟩
            exact hc
          · intro hu
            -- outside the window the portfolio has the index of the call
            have hadv : t.phase.Advanced := by
              cases hph : t.phase <;> rw [hph] at hu hsafe <;>
                first | exact trivial | exact hu.elim | simp [hacc] at hsafe
            have hi : i = t.currentIndex := by
              simp only [Accepts] at hacc
              simp at hacc
              exact hacc.2
            rintro _ ⟨⟩
            exact hi.trans (h.currentIndex hadv)
        · cases hs
          exact h.setPc nofun nofun
  | accepted i r =>
      rw [hp] at hs
      cases hs
      refine (h.carryOn (p := .writing i r) ?_ ?_).flags ..
      all_goals
        rw [hp]
        exact fun _ hc => hc
  | writing i r =>
      have hc := h.claim w (i, r) (by rw [hp]; rfl)
      -- what is written while the call waits was produced for it
      have hw := fun hu => h.pendingWrite hu w (i, r) (by rw [hp]; rfl)
      rw [hp] at hs
      cases hs
      have hidle := h.setPc (w := w) (p := .idle) nofun nofun
      exact ⟨hidle.claim, hidle.pendingWrite, hidle.currentIndex,
        fun hr => .inr (hw hr.unended ▸ hc), hidle.result, hidle.returned⟩

/-- **Every safe step keeps the invariant.** -/
theorem Inv.step (h : t.Inv) {a : Action} (hS : t.Safe a) (hs : t.step n a = some t') : t'.Inv := by
  cases a with
  | caller => exact h.caller hS hs
  | work w => exact h.work hS hs
  | interrupt =>
      cases hs
      exact h.flags ..
  | unset w | assign w =>
      simp only [Painless.step] at hs
      split at hs
      · rename_i todo half hp
        split at hs
        · cases hs
          refine (h.toPhase (p := .starting _ _) ?_ ?_ ?_ nofun).flags ..
          all_goals exact fun _ => by rw [hp]; trivial
        · cases hs
      · cases hs
  | wait w =>
      simp only [Painless.step] at hs
      split at hs
      · cases hs
      · rename_i hp _
        split at hs
        · cases hs
          refine h.toPhase nofun nofun nofun ?_
          rw [hp]
          exact fun _ hr => hr
        · cases hs
      · cases hs
  | take w =>
      simp only [Painless.step] at hs
      split at hs
      · cases hs
        exact (h.setPc (p := .taken _) nofun nofun).flags ..
      · cases hs
  | solve w =>
      simp only [Painless.step] at hs
      split at hs
      · cases hs
        exact h.setPc nofun nofun
      · cases hs
  | answer w r =>
      simp only [Painless.step] at hs
      split at hs
      · rename_i i hp
        cases hs
        have hg : Inv { t with produced := t.produced ++ [(i, r)] } := by
          have hmono : ∀ k s, t.Own k s → Own { t with produced := t.produced ++ [(i, r)] } k s :=
            fun k s hs => hs.imp_right (List.mem_append_left _)
          exact ⟨fun w c hc => List.mem_append_left _ (h.claim w c hc), h.pendingWrite,
            h.currentIndex, fun hr => hmono _ _ (h.finalResult hr),
            fun s hs => hmono _ _ (h.result s hs), fun c hc => hmono _ _ (h.returned c hc)⟩
        refine hg.setPc (w := w) ?_ nofun
        rintro _ ⟨⟩
        simp
      · cases hs

end Painless

open Painless in
/-- **Each call returns a result of its own.**  In every run of any number of calls on `n` workers,
interrupted at any time, whose steps are all safe, what the `k`-th call returned is `UNKNOWN` or
was produced by a worker for the task of that call. -/
theorem painless_returns_own_result (n : ℕ) (as : List Action) (t : Painless)
    (hsafe : Machine.Throughout (Painless.step n) Safe start as)
    (h : Machine.exec (Painless.step n) start as = some t) :
    ∀ c ∈ t.returned, c.2 = .UNKNOWN ∨ c ∈ t.produced := by
  have hinv := Machine.exec_invariant_throughout (fun s a t hs hS h => Inv.step hs hS h)
    inv_start hsafe h
  exact hinv.returned

namespace Painless

/-- The caller up to the wait, with the one worker started. -/
def callOne : List Action :=
  [.caller, .caller, .caller, .caller, .caller, .caller, .unset 0, .assign 0, .caller]

/-- The worker takes its task and is answered `UNSAT`. -/
def answerUnsat : List Action := [.take 0, .solve 0, .answer 0 .UNSAT]

/-- The caller from the wait to its return. -/
def returnOne : List Action := [.caller, .caller, .wait 0, .caller]

end Painless

open Painless in
/-- One call with one worker. -/
theorem painless_returns_unsat : ∃ t,
    Machine.exec (Painless.step 1) start
      (callOne ++ answerUnsat ++ List.replicate 6 (.work 0) ++ returnOne) = some t ∧
    t.returned = [(1, .UNSAT)] ∧ ∀ c ∈ t.returned, c.2 = .UNKNOWN ∨ c ∈ t.produced := by
  have hrun : ((Machine.exec (Painless.step 1) start
      (callOne ++ answerUnsat ++ List.replicate 6 (.work 0) ++ returnOne)).any fun t =>
        t.returned = [(1, .UNSAT)]) = true := by decide
  obtain ⟨t, ht, hr⟩ := Machine.exists_run hrun
  refine ⟨t, ht, by simpa using hr, painless_returns_own_result 1 _ t ?_ ht⟩
  refine ⟨nofun, nofun, fun _ _ => rfl, nofun, nofun, nofun, trivial, trivial, nofun, trivial,
    trivial, trivial, nofun, nofun, nofun, ?_, nofun, nofun, nofun, nofun, trivial, nofun, trivial⟩
  rintro i r - (h | h) <;> cases h

open Painless in
/-- The first call is interrupted while its worker is about to join with `UNSAT`.  The join is
accepted after the second call has reset the record and before it has moved the portfolio's index,
and the second call returns `UNSAT` although nobody has looked at its task. -/
theorem painless_stale_result : ∃ as t, Machine.exec (Painless.step 1) start as = some t ∧
    ¬ ∀ c ∈ t.returned, c.2 = .UNKNOWN ∨ c ∈ t.produced := by
  have hrun : ((Machine.exec (Painless.step 1) start
      (callOne ++ answerUnsat ++ [.interrupt] ++ returnOne ++
        [.caller, .caller, .caller] ++ List.replicate 4 (.work 0) ++
        [.caller, .caller, .caller, .unset 0, .assign 0, .caller, .work 0, .work 0] ++
        returnOne)).any fun t =>
          decide (t.returned = [(1, .UNKNOWN), (2, .UNSAT)] ∧ t.produced = [(1, .UNSAT)])) =
            true := by
    decide
  obtain ⟨t, ht, hr⟩ := Machine.exists_run hrun
  obtain ⟨h₁, h₂⟩ := of_decide_eq_true hr
  refine ⟨_, t, ht, ?_⟩
  intro h
  have := h (2, .UNSAT) (by simp [h₁])
  simp [h₂] at this

end Parsat
