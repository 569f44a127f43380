import Parsat.Solve.Recurring

/-!
# Solve — the event `SBS_FOUND`

The events of the process go through one queue and one thread.  A `CartesianRBSearch` that finds a
strong backdoor raises `SBS_FOUND`.  The event thread takes the event from the queue, lets go of the
lock, and walks the list of callbacks.  It calls each one that is attached when it comes to it: that
of the search that raised the event, those of later searches of the same solve, and those of other
members of the portfolio.  A callback interrupts its search, `find_rb` returns `RBS_INTERRUPTED`,
and `_solve_impl` goes on as if the base assumption had been refuted.

The machine is `_solve_impl` with a `CartesianRBSearch`, the queue, and the event thread.  An event
carries who raised it, which the program does not know.  A callback runs in one step: one that is
still running when its search is destroyed is outside of the model.

* `Process.Inv`: if a search hears of its own strong backdoor only, it is interrupted only after it
  has found one, and its result is right.
* `events_unsat_sound`: `UNSAT` is right in the runs in which the callback of a search is called for
  an event that this search has raised only.
* `events_unsat_stale`: a run in which an event calls the callback of the next search.
-/

namespace Parsat

/-- `CartesianRBSearch` as the backdoor search of a solve. -/
abbrev CartesianRBSearch.rbSearch (R : RProp) (cfg : CartesianRBSearchConfig) : RBSearch where
  State := CartesianRBSearch R
  Action := Action R
  start := start
  step := step cfg
  result := fun s =>
    match s.main with
    | .finished r => some r
    | _ => none

/-- Who raised an event: a search of this solve, by its number, or another member of the
portfolio. -/
inductive Origin where
  | own (search : ℕ)
  | other
  deriving DecidableEq

/-- The solve with the event queue, the event whose callbacks are being called, and the number of
searches the solve has started. -/
structure Process (R : RProp) (rcfg : CartesianRBSearchConfig) where
  solve : RecurringReduceSolve (CartesianRBSearch.rbSearch R rcfg)
  queue : List Origin
  event : Option Origin
  searches : ℕ

namespace Process

variable {R : RProp} {rcfg : CartesianRBSearchConfig} {cfg : RecurringReduceSolveConfig}

/-- A step of the solve, an event raised by another member, or a step of the event thread: it takes
an event, calls a callback, or is at the end of the list. -/
inductive Action (R : RProp) (rcfg : CartesianRBSearchConfig) where
  | solve (action : RecurringReduceSolve.Action (CartesianRBSearch.rbSearch R rcfg))
  | raise
  | take
  | call
  | done

def start : Process R rcfg := ⟨.start, [], none, 0⟩

/-- The callback runs on the event thread only, and `interrupt()` of the search is called by that of
the solve. -/
def allowed (s : Process R rcfg) :
    RecurringReduceSolve.Action (CartesianRBSearch.rbSearch R rcfg) → Bool
  | .search .deliver => false
  | .search .interrupt => s.solve.interrupted
  | _ => true

/-- `util::event::raise(SBS_FOUND)` by a thread of the search, and the count of searches. -/
def record (s : Process R rcfg) :
    RecurringReduceSolve.Action (CartesianRBSearch.rbSearch R rcfg) → Process R rcfg
  | .search (.thread _ .raise) => { s with queue := s.queue ++ [.own s.searches] }
  | .iterate => { s with searches := s.searches + 1 }
  | _ => s

/-- The event thread calls the attached callback, if there is one. -/
def callCallback (solve : RecurringReduceSolve (CartesianRBSearch.rbSearch R rcfg)) :
    RecurringReduceSolve (CartesianRBSearch.rbSearch R rcfg) :=
  match solve.phase with
  | .searching base depth rb =>
    match CartesianRBSearch.step rcfg rb .deliver with
    | none => solve
    | some rb => { solve with phase := .searching base depth rb }
  | _ => solve

def step (cfg : RecurringReduceSolveConfig) (s : Process R rcfg) :
    Action R rcfg → Option (Process R rcfg)
  | .solve a =>
    if s.allowed a then (s.solve.step R cfg a).map fun solve => { s.record a with solve }
    else none
  | .raise => some { s with queue := s.queue ++ [.other] }
  | .take =>
    match s.event, s.queue with
    | none, event :: queue => some { s with queue, event := some event }
    | _, _ => none
  | .call => if s.event.isSome then some { s with solve := callCallback s.solve } else none
  | .done => if s.event.isSome then some { s with event := none } else none

/-! ### What a run has to meet -/

/-- The service answers rightly, and nobody interrupts the solve. -/
def Assumed (s : Process R rcfg) : Action R rcfg → Prop
  | .solve (.task a) => ∀ base depth limit batch, s.solve.phase = .solving base depth limit batch →
      batch.Answers R.problem a
  | .solve .interrupt => False
  | _ => True

/-- The search in work. -/
def current (s : Process R rcfg) : Option (CartesianRBSearch R) :=
  match s.solve.phase with
  | .searching _ _ rb => some rb
  | _ => none

/-- The callback of a search is called for an event that this search has raised only; backdoors fit
a full search, and the chosen lists have fewer than `2 ^ 32` entries. -/
def InTime (s : Process R rcfg) : Action R rcfg → Prop
  | .solve (.search a) => ∀ rb ∈ s.current, rb.Fits a ∧ rb.Small rcfg a
  | .call => ∀ rb ∈ s.current, rb.attached = true → s.event = some (.own s.searches)
  | _ => True

instance (s : Process R rcfg) : DecidablePred s.InTime
  | .solve (.search a) =>
    inferInstanceAs (Decidable (∀ rb ∈ s.current, rb.Fits a ∧ rb.Small rcfg a))
  | .call => inferInstanceAs (Decidable (∀ rb ∈ s.current, _ → _))
  | .raise | .take | .done | .solve .iterate | .solve .found | .solve (.filterConflict _)
  | .solve (.task _) | .solve .collect | .solve .proceed | .solve .finish | .solve .interrupt =>
    .isTrue trivial

theorem current_of_phase {s : Process R rcfg} {base : LitVec} {depth : ℕ}
    {rb : CartesianRBSearch R} (h : s.solve.phase = .searching base depth rb) :
    s.current = some rb := by
  simp only [current, h]

end Process

/-! ### A search that hears of its own strong backdoor only -/

/-- If a search was not interrupted before it found a strong backdoor, a thread that tests an empty
list has seen all assignments, or a strong backdoor has been found. -/
theorem RBThread.Ok.complete {R : RProp} {th th' : RBThread R} {base : LitVec} {i s s' : Bool}
    {a : RBThread.Action R} (h : th.Ok base i s) (hf : i = true → s = true)
    (hs : th.Step base i s a th' s') : th.Complete s a := by
  cases hs with
  | empty hst | gathered hst =>
      simp only [RBThread.Ok, hst] at h
      exact fun _ hc => (h.2.2.1 hc).elim hf id
  | process | leave | proceed | sbs | enumerate | visit | resume | raise => trivial

namespace CartesianRBSearch

variable {R : RProp} {cfg : CartesianRBSearchConfig} {s t : CartesianRBSearch R} {a : Action R}
  {base : LitVec}

/-- The search is interrupted only after it has found a strong backdoor. -/
structure Undisturbed (cfg : CartesianRBSearchConfig) (base : LitVec) (s : CartesianRBSearch R) :
    Prop where
  base_eq : s.base = base
  inv : s.Inv cfg
  sound : s.Sound
  covering : s.Covering
  flags : s.interrupted = true → s.sbsFound = true
  result : s.main ≠ .finished (.reason .INTERRUPTED)

theorem undisturbed_start (base : LitVec) : (start base : CartesianRBSearch R).Undisturbed cfg base
    where
  base_eq := rfl
  inv := inv_start base
  sound := sound_start base
  covering := fun _ h => by cases h
  flags := fun h => by cases h
  result := fun h => by cases h

theorem Step.sbsFound_mono (hs : Step cfg s a t) (h : s.sbsFound = true) : t.sbsFound = true := by
  cases hs with
  | thread hi hth => exact hth.sbsFound_mono h
  | attach | launch | endLaunch | join | finish | interrupt | deliver => exact h

theorem Undisturbed.complete (h : s.Undisturbed cfg base) (hs : Step cfg s a t) :
    Complete s a := by
  cases hs with
  | @thread i th th' a sbs hi hth =>
      intro x hx
      obtain rfl : th = x := Option.some.inj (hi.symm.trans hx)
      exact (h.inv.threads th (List.mem_of_getElem? hi)).complete h.flags hth
  | attach | launch | endLaunch | join | finish | interrupt | deliver => trivial

theorem Undisturbed.step (h : s.Undisturbed cfg base) (hfit : Fits s a) (hsmall : Small cfg s a)
    (hi : a ≠ .interrupt) (hd : a = .deliver → s.sbsFound = true) (hs : Step cfg s a t) :
    t.Undisturbed cfg base where
  base_eq := hs.base_eq.trans h.base_eq
  inv := h.inv.step hfit hs
  sound := h.sound.step h.inv (h.complete hs) hs
  covering := h.covering.step h.inv hsmall hs
  flags := by
    cases hs with
    | thread hi hth => exact fun h' => hth.sbsFound_mono (h.flags h')
    | interrupt => exact absurd rfl hi
    | deliver ha => exact fun _ => hd rfl
    | attach | launch | endLaunch | join | finish => exact h.flags
  result := by
    cases hs with
    | finish hm =>
        intro hr
        have hr : s.findRb cfg = .reason .INTERRUPTED := by simpa using hr
        -- the result `INTERRUPTED` needs a flag that comes with a strong backdoor only
        simp only [findRb] at hr
        split at hr
        · cases hr
        · rename_i hsbs
          split at hr
          · rename_i hint
            exact hsbs (h.flags hint)
          · cases hr
    | attach | endLaunch | join => exact fun hr => by cases hr
    | launch | thread | interrupt | deliver => exact h.result

/-- The result of an undisturbed search is right. -/
theorem Undisturbed.ok (h : s.Undisturbed cfg base) {r : RBSResult} (hr : s.main = .finished r) :
    r.Ok R base := by
  obtain rfl := h.base_eq
  cases r with
  | reason r =>
      cases r with
      | SBS_FOUND => exact h.sound.result hr
      | INTERRUPTED => exact (h.result hr).elim
  | search search =>
      obtain ⟨hfresh, hcov⟩ := h.covering search hr
      exact RProp.covers_of_fresh hfresh hcov

end CartesianRBSearch

/-! ### The invariant -/

namespace Process

open CartesianRBSearch (rbSearch Undisturbed undisturbed_start)

variable {R : RProp} {rcfg : CartesianRBSearchConfig} {cfg : RecurringReduceSolveConfig}
  {s t : Process R rcfg}

/-- The event is in the queue, or its callbacks are being called. -/
def Pending (s : Process R rcfg) (e : Origin) : Prop := s.event = some e ∨ e ∈ s.queue

/-- The solve covers all models, its search is undisturbed, and an event that the search has raised
says that it has found a strong backdoor. -/
structure Inv (s : Process R rcfg) : Prop where
  solve : s.solve.Inv R
  search : ∀ base depth rb, s.solve.phase = .searching base depth rb → rb.Undisturbed rcfg base
  raised : ∀ base depth rb, s.solve.phase = .searching base depth rb →
    s.Pending (.own s.searches) → rb.sbsFound = true
  old : ∀ n, s.Pending (.own n) → n ≤ s.searches

theorem inv_start : (start : Process R rcfg).Inv where
  solve := RecurringReduceSolve.inv_start
  search := by simp [start, RecurringReduceSolve.start]
  raised := by simp [start, Pending]
  old := by simp [start, Pending]

/-- A step of the solve meets what `RecurringReduceSolve.Inv.step` asks for. -/
theorem Inv.right (h : s.Inv) {a : RecurringReduceSolve.Action (rbSearch R rcfg)}
    (ha : s.Assumed (.solve a)) : s.solve.Right R a := by
  cases a with
  | found =>
      intro base depth rb r hp hr
      refine (h.search base depth rb hp).ok ?_
      dsimp only at hr
      split at hr <;> cases hr
      assumption
  | task a => exact ha
  | interrupt => exact ha
  | iterate | search | filterConflict | collect | proceed | finish => trivial

/-- A step of the search of the solve. -/
theorem Inv.stepSearch (h : s.Inv) {a : CartesianRBSearch.Action R} (ha : s.allowed (.search a))
    (hin : s.InTime (.solve (.search a))) {base : LitVec} {depth : ℕ} {rb rb' : CartesianRBSearch R}
    (hp : s.solve.phase = .searching base depth rb)
    (hs : CartesianRBSearch.step rcfg rb a = some rb') :
    rb'.Undisturbed rcfg base ∧ (rb.sbsFound = true → rb'.sbsFound = true) := by
  have hstep := CartesianRBSearch.Step.of_step hs
  obtain ⟨hfit, hsmall⟩ := hin rb (current_of_phase hp)
  refine ⟨(h.search base depth rb hp).step hfit hsmall ?_ ?_ hstep, hstep.sbsFound_mono⟩
  · rintro rfl
    simp [allowed, h.solve.interrupted] at ha
  · rintro rfl
    cases ha

/-- A search that raises the event has found a strong backdoor. -/
theorem sbsFound_of_raise {base : LitVec} {i : ℕ} {rb rb' : CartesianRBSearch R}
    (h : rb.Undisturbed rcfg base)
    (hs : CartesianRBSearch.step rcfg rb (.thread i .raise) = some rb') : rb.sbsFound = true := by
  cases CartesianRBSearch.Step.of_step hs with
  | @thread _ th _ _ _ hi hth =>
      have hok := h.inv.threads th (List.mem_of_getElem? hi)
      cases hth with
      | raise hst =>
          simp only [RBThread.Ok, hst] at hok
          exact hok

theorem record_eq_or (s : Process R rcfg) (a : RecurringReduceSolve.Action (rbSearch R rcfg)) :
    (∃ i, a = .search (.thread i .raise)) ∨ a = .iterate ∨ s.record a = s := by
  unfold record
  split
  · exact .inl ⟨_, rfl⟩
  · exact .inr (.inl rfl)
  · exact .inr (.inr rfl)

theorem Inv.stepSolve (h : s.Inv) {a : RecurringReduceSolve.Action (rbSearch R rcfg)}
    {solve : RecurringReduceSolve (rbSearch R rcfg)} (ha : s.allowed a = true)
    (hA : s.Assumed (.solve a)) (hin : s.InTime (.solve a))
    (hs : s.solve.step R cfg a = some solve) : Inv { s.record a with solve } := by
  refine ⟨h.solve.step (h.right hA) hs, ?_, ?_, ?_⟩
  · intro base depth rb' hp
    rcases RecurringReduceSolve.step_searching hs hp with ⟨-, rfl⟩ | rfl | ⟨b, rb, rfl, hp₀, hrb⟩
    · exact undisturbed_start base
    · exact hA.elim
    · exact (h.stepSearch ha hin hp₀ hrb).1
  · intro base depth rb' hp hmem
    rcases RecurringReduceSolve.step_searching hs hp with ⟨rfl, -⟩ | rfl | ⟨b, rb, rfl, hp₀, hrb⟩
    · -- no event of the new search is in the queue
      exact absurd (h.old _ hmem) (Nat.not_succ_le_self s.searches)
    · exact hA.elim
    · refine (h.stepSearch ha hin hp₀ hrb).2 ?_
      rcases record_eq_or s (.search b) with ⟨i, hb⟩ | hb | hrec
      · cases hb
        exact sbsFound_of_raise (h.search base depth rb hp₀) hrb
      · cases hb
      · simp only [Pending, hrec] at hmem
        exact h.raised base depth rb hp₀ hmem
  · intro n hn
    rcases record_eq_or s a with ⟨i, rfl⟩ | rfl | hrec
    · rcases hn with hn | hn
      · exact h.old n (.inl hn)
      rcases List.mem_append.mp hn with hn | hn
      · exact h.old n (.inr hn)
      · cases List.mem_singleton.mp hn
        exact le_rfl
    · exact (h.old n hn).trans (Nat.le_succ _)
    · simp only [Pending, hrec] at hn ⊢
      exact h.old n hn

theorem callCallback_cases (solve : RecurringReduceSolve (rbSearch R rcfg)) :
    callCallback solve = solve ∨ ∃ base depth rb rb', solve.phase = .searching base depth rb ∧
      CartesianRBSearch.step rcfg rb .deliver = some rb' ∧
      callCallback solve = { solve with phase := .searching base depth rb' } := by
  unfold callCallback
  split
  · rename_i base depth rb hp
    split
    · exact .inl rfl
    · rename_i rb' hrb
      exact .inr ⟨base, depth, rb, rb', hp, hrb, rfl⟩
  · exact .inl rfl

theorem Inv.stepCall (h : s.Inv) (hin : s.InTime .call) :
    Inv { s with solve := callCallback s.solve } := by
  rcases callCallback_cases s.solve with heq | ⟨base, depth, rb, rb', hp, hrb, heq⟩
  · simp only [heq]
    exact ⟨h.solve, h.search, h.raised, h.old⟩
  · have hstep := CartesianRBSearch.Step.of_step hrb
    -- the event is one that this search has raised
    have hsbs : rb.sbsFound = true := by
      cases hstep with
      | deliver hatt =>
          exact h.raised base depth rb hp (.inl (hin rb (current_of_phase hp) hatt))
    have hu := (h.search base depth rb hp).step (a := .deliver) trivial trivial (by simp)
      (fun _ => hsbs) hstep
    simp only [heq]
    refine ⟨⟨h.solve.interrupted, h.solve.history, ?_⟩, ?_, ?_, h.old⟩
    · have := h.solve.phase
      simp only [RecurringReduceSolve.PhaseOk, hp] at this
      exact this
    · intro base' depth' rb₁ hp'
      cases hp'
      exact hu
    · intro base' depth' rb₁ hp' _
      cases hp'
      exact hstep.sbsFound_mono hsbs

/-- Steps after which no more events of this solve are pending than before. -/
theorem Inv.of_pending (h : s.Inv) {queue : List Origin} {event : Option Origin}
    (hsub : ∀ n, Pending { s with queue, event } (.own n) → s.Pending (.own n)) :
    Inv { s with queue, event } :=
  ⟨h.solve, h.search, fun base depth rb hp hm => h.raised base depth rb hp (hsub _ hm),
    fun n hn => h.old n (hsub n hn)⟩

/-- **Every step in time** keeps the search undisturbed and the models covered. -/
theorem Inv.step (h : s.Inv) {a : Action R rcfg} (hA : s.Assumed a) (hin : s.InTime a)
    (hs : s.step cfg a = some t) : t.Inv := by
  cases a with
  | solve a =>
      simp only [Process.step] at hs
      split at hs
      · rename_i ha
        obtain ⟨solve, hsolve, rfl⟩ := Option.map_eq_some_iff.mp hs
        exact h.stepSolve ha hA hin hsolve
      · cases hs
  | raise =>
      cases hs
      refine h.of_pending fun n hn => hn.imp_right fun hn => ?_
      simpa using hn
  | take =>
      simp only [Process.step] at hs
      split at hs
      · rename_i e queue hnone hq
        cases hs
        refine h.of_pending fun n hn => .inr ?_
        rw [hq]
        rcases hn with hn | hn
        · exact List.mem_cons.mpr (.inl (Option.some.inj hn).symm)
        · exact List.mem_cons_of_mem e hn
      · cases hs
  | call =>
      simp only [Process.step] at hs
      split at hs
      · cases hs
        exact h.stepCall hin
      · cases hs
  | done =>
      simp only [Process.step] at hs
      split at hs
      · cases hs
        exact h.of_pending fun n hn => .inr (hn.resolve_left (by simp))
      · cases hs

end Process

open Process in
/-- **`UNSAT` is right** in every run without an interrupt of the solve in which the callback of a
search is called for an event that this search has raised only, backdoors have at most 63 variables
outside the base assumption, and `_prepare_cartesian` chooses lists of fewer than `2 ^ 32` entries.
Every base assumption the loop is through with is covered by the assumptions pushed in its place,
and refuted if there are none. -/
theorem events_unsat_sound (R : RProp) (rcfg : CartesianRBSearchConfig)
    (cfg : RecurringReduceSolveConfig) (as : List (Action R rcfg)) (t : Process R rcfg)
    (h : Machine.exec (step cfg) start as = some t)
    (hA : Machine.Throughout (step cfg) Assumed start as)
    (hin : Machine.Throughout (step cfg) InTime start as) :
    (t.solve.phase = .returned .UNSAT → ¬ Satisfiable R.problem) ∧
    ∀ e ∈ t.solve.history, (∀ a ∈ e.2, e.1 <+: a) ∧
      ∀ m : Model, m.Sat R.problem → m.Meets e.1 → ∃ a ∈ e.2, m.Meets a := by
  have hinv : t.Inv := Machine.exec_invariant_throughout
    (fun s a t hs hc hstep => hs.step hc.1 hc.2 hstep) inv_start (hA.and hin) h
  refine ⟨?_, hinv.solve.history⟩
  intro hp
  have := hinv.solve.phase
  simp only [RecurringReduceSolve.PhaseOk, hp] at this
  exact this

open Process in
/-- One thread refutes both assignments of `0`, raises the event, and hears of it. -/
theorem events_unsat_fourClauses : ∃ (as : List (Action fourClauses ⟨1, 10, 10⟩))
    (t : Process fourClauses ⟨1, 10, 10⟩),
    Machine.exec (step ⟨1, 1000, 2, 1⟩) start as = some t ∧ t.solve.phase = .returned .UNSAT ∧
    ¬ Satisfiable fourClauses.problem := by
  let find : List (CartesianRBSearch.Action fourClauses) :=
    [.attach, .launch, .endLaunch, .thread 0 (.process (.sampled _ [] [0])),
      .thread 0 .readFlags, .thread 0 .inspect, .thread 0 (.visit 0), .thread 0 (.resume 0),
      .thread 0 (.visit 0), .thread 0 (.resume 0), .thread 0 .test, .thread 0 .raise]
  let as : List (Action fourClauses ⟨1, 10, 10⟩) :=
    .solve .iterate :: find.map (fun a => .solve (.search a)) ++
      [.take, .call, .done, .solve (.search .join), .solve (.search .finish), .solve .found,
        .solve .proceed]
  have hrun : (Machine.exec (step ⟨1, 1000, 2, 1⟩) start as).any
      (fun t => t.solve.hasReturned .UNSAT) = true := by
    decide +kernel
  obtain ⟨t, ht, hp⟩ := Machine.exists_run hrun
  have hphase := RecurringReduceSolve.phase_of_hasReturned hp
  have hA : Machine.Throughout (step ⟨1, 1000, 2, 1⟩) Assumed start as :=
    Machine.throughout_of_forall (by simp [as, find, Assumed])
  exact ⟨as, t, ht, hphase, (events_unsat_sound _ _ _ as t ht hA (by decide +kernel)).1 hphase⟩

/-- The problem `(0 ∨ 1 ∨ 2) ∧ (0 ∨ 1 ∨ ¬2) ∧ (0 ∨ ¬1 ∨ 2) ∧ (0 ∨ ¬1 ∨ ¬2)`. -/
def guardedClauses : RProp where
  propagator := .saturating
  problem := [[mkLit 0 false, mkLit 1 false, mkLit 2 false],
    [mkLit 0 false, mkLit 1 false, mkLit 2 true], [mkLit 0 false, mkLit 1 true, mkLit 2 false],
    [mkLit 0 false, mkLit 1 true, mkLit 2 true]]
  engine := .simp

section Stale

open Process

/-- The first search enumerates both assignments of `0`. -/
def staleFirst : List (CartesianRBSearch.Action guardedClauses) :=
  [.attach, .launch, .endLaunch,
    .thread 0 (.process (.computed _ ⟨0, 1, 0, id, false⟩ [] [0] fun _ => 0)),
    .thread 0 .readFlags, .thread 0 .inspect, .thread 0 (.visit 0), .thread 0 (.resume 0),
    .thread 0 (.visit 0), .thread 0 (.resume 0), .thread 0 .test, .join, .finish]

/-- The service gives up on both. -/
def staleTasks : List Batch.Action :=
  [.submit, .submit, .dequeue 0, .answer 0 .UNKNOWN, .callback 0, .dequeue 0, .answer 0 .UNKNOWN,
    .callback 0]

/-- The second search, under `¬0`, finds the strong backdoor `{1}`. -/
def staleSecond : List (CartesianRBSearch.Action guardedClauses) :=
  [.attach, .launch, .endLaunch,
    .thread 0 (.process (.computed _ ⟨63, 1, 0, id, false⟩ [mkLit 0 true] [1] fun _ => 0)),
    .thread 0 .readFlags, .thread 0 .inspect, .thread 0 .raise, .join, .finish]

/-- The event of the second search is taken while none is attached, and calls the callback of the
third one, under `0`. -/
def staleRun : List (Action guardedClauses ⟨1, 10, 10⟩) :=
  [[.solve .iterate], staleFirst.map fun a => .solve (.search a),
    [.solve .found, .solve (.filterConflict [[mkLit 0 false], [mkLit 0 true]])],
    staleTasks.map fun a => .solve (.task a), [.solve .collect, .solve .proceed],
    [.solve .iterate], staleSecond.map fun a => .solve (.search a),
    [.take, .solve .found, .solve .proceed],
    [.solve .iterate, .solve (.search .attach), .call, .done, .solve (.search .endLaunch),
      .solve (.search .join), .solve (.search .finish), .solve .found, .solve .proceed,
      .solve .finish]].flatten

/-- The third search is interrupted by the event of the second one: the base assumption `0` is
dropped, and the solve returns `UNSAT` for a satisfiable problem. -/
theorem events_unsat_stale : ∃ (as : List (Action guardedClauses ⟨1, 10, 10⟩))
    (t : Process guardedClauses ⟨1, 10, 10⟩),
    Machine.exec (step ⟨1, 1000, 2, 1⟩) start as = some t ∧
    Machine.Throughout (step ⟨1, 1000, 2, 1⟩) Assumed start as ∧
    t.solve.phase = .returned .UNSAT ∧ Satisfiable guardedClauses.problem := by
  have hrun : (Machine.exec (step ⟨1, 1000, 2, 1⟩) start staleRun).any
      (fun t => t.solve.hasReturned .UNSAT) = true := by
    decide +kernel
  obtain ⟨t, ht, hp⟩ := Machine.exists_run hrun
  refine ⟨staleRun, t, ht, Machine.throughout_of_forall ?_,
    RecurringReduceSolve.phase_of_hasReturned hp, fun v => v = 0, ?_⟩
  · simp only [staleRun, List.flatten_cons, List.forall_mem_append, List.forall_mem_map]
    simp [staleTasks, Assumed, Batch.Answers, Answer.Ok]
  · simp [UnitProp.Satisfies, guardedClauses, Lit.Holds]

end Stale

end Parsat
