import Parsat.Backdoor.Preprocess
import Parsat.Sat.Reconstruct
import Parsat.Solve.Recurring

/-!
# Solve — the model of a `SAT` answer

`ReduceSolve::solve` asks `Preprocess` whether a search for backdoors makes sense.  If so,
`_solve_impl` of `SingleReduceSolve` or `RecurringReduceSolve` runs, and the callbacks it passes to
the solver service store the model of a `SAT` answer, which `get_model()` returns afterwards.  If
not, the problem goes to the service without a callback, and nobody stores the model.

* `Batch.Stores`: a batch that is satisfied has stored a model, and only models of the problem.
* `SingleReduceSolve.Stores`, `RecurringReduceSolve.Stores`: so have the two implementations,
  whatever the backdoor search returns, the service throws or gives up on, and whenever they are
  interrupted.
* `reduceSolve_model_iff`: when `get_model()` is a model of the problem.
-/

namespace Parsat

/-! ### `SingleReduceSolve` -/

/-- Where `SingleReduceSolve::_solve_impl` stands: in `find_rb`, in `_filter_conflict`, in
`_solve_final`, or at the end. -/
inductive SinglePhase (S : RBSearch) where
  | searching (rb : S.State)
  | filtering (search : Search)
  | solving (batch : Batch)
  | returned (state : State)

/-- The service is told about an interrupt of the solve. -/
def SinglePhase.interrupt {S : RBSearch} : SinglePhase S → SinglePhase S
  | .solving batch => .solving { batch with interrupted := true, clearing := true }
  | p => p

structure SingleReduceSolve (S : RBSearch) where
  phase : SinglePhase S
  model : Option Model
  interrupted : Bool

namespace SingleReduceSolve

inductive Action (S : RBSearch) where
  | search (action : S.Action)
  | found
  | filterConflict (nonConflict skipped : List LitVec)
  | task (action : Batch.Action)
  | collect
  | interrupt

variable {S : RBSearch}

def start : SingleReduceSolve S := ⟨.searching (S.start []), none, false⟩

/-- A step of `_solve_impl`, of what it waits for, or of a call of `interrupt()`. -/
def step (R : RProp) (threads : ℕ) (s : SingleReduceSolve S) :
    Action S → Option (SingleReduceSolve S)
  | .search a =>
    match s.phase with
    | .searching rb => (S.step rb a).map fun rb => { s with phase := .searching rb }
    | _ => none
  | .found =>
    match s.phase with
    | .searching rb =>
      match S.result rb with
      | none => none
      | some (.reason r) => some { s with phase := .returned (onReason r) }
      | some (.search search) => some { s with phase := .filtering search }
    | _ => none
  | .filterConflict l skipped =>
    match s.phase with
    | .filtering search =>
      (R.enumerated search).bind fun all =>
        -- the order is that of the callback's calls, and only an interrupt makes it skip any
        if (l ++ skipped).Perm (R.nonConflict all) ∧ (skipped = [] ∨ s.interrupted = true) then
          some { s with
            phase := .solving { Batch.start l threads with interrupted := s.interrupted } }
        else none
    | _ => none
  | .task .interrupt => none
  | .task a =>
    match s.phase with
    | .solving batch => (batch.step a).map fun batch => { s with phase := .solving batch }
    | _ => none
  | .collect =>
    match s.phase with
    | .solving batch =>
      if batch.finished then
        some { s with phase := .returned batch.solveFinal, model := batch.model <|> s.model }
      else none
    | _ => none
  | .interrupt => some { s with interrupted := true, phase := s.phase.interrupt }

end SingleReduceSolve

/-! ### `ReduceSolve` -/

/-- `_solver_service->solve({}, DUR_INDEF).get()`: in the queue, with a solver, or at its end; `get`
throws if the solver did or if the task was removed from the queue. -/
inductive Fallback where
  | queued
  | solving
  | returned (state : State)
  | thrown

namespace Fallback

inductive Action where
  | dequeue
  | answer (answer : Answer)
  | throw
  | interrupt

def step : Fallback → Action → Option Fallback
  | .queued, .dequeue => some .solving
  | .solving, .answer (.SAT _) => some (.returned .SAT)
  | .solving, .answer .UNSAT => some (.returned .UNSAT)
  | .solving, .answer .UNKNOWN => some (.returned .UNKNOWN)
  | .solving, .throw => some .thrown
  | .queued, .interrupt => some .thrown
  | s, .interrupt => some s
  | _, _ => none

end Fallback

/-- The two implementations, with the number of threads of the solver service. -/
inductive ReduceSolveConfig where
  | single (threads : ℕ)
  | recurring (cfg : RecurringReduceSolveConfig)

/-- `solve` after `preprocess`. -/
inductive ReduceSolve (S : RBSearch) where
  | fallback (state : Fallback)
  | single (threads : ℕ) (state : SingleReduceSolve S)
  | recurring (cfg : RecurringReduceSolveConfig) (state : RecurringReduceSolve S)

namespace ReduceSolve

inductive Action (S : RBSearch) where
  | fallback (action : Fallback.Action)
  | single (action : SingleReduceSolve.Action S)
  | recurring (action : RecurringReduceSolve.Action S)

variable {S : RBSearch}

/-- The start of `_solve_impl`. -/
def solveImpl : ReduceSolveConfig → ReduceSolve S
  | .single threads => .single threads .start
  | .recurring cfg => .recurring cfg .start

/-- `solve` up to the result of `preprocess`; `κ` and `beyond` are as there. -/
def start (R : RProp) (κ : Solver → Clause) (beyond : List (ℕ × ℕ)) (cfg : ReduceSolveConfig) :
    Option (ReduceSolve S) :=
  (Preprocess.preprocess R.propagator κ R.problem R.engine beyond).map fun r =>
    if r.1 then solveImpl cfg else .fallback .queued

def step (R : RProp) : ReduceSolve S → Action S → Option (ReduceSolve S)
  | .fallback s, .fallback a => (s.step a).map .fallback
  | .single threads s, .single a => (s.step R threads a).map (.single threads)
  | .recurring cfg s, .recurring a => (s.step R cfg a).map (.recurring cfg)
  | _, _ => none

/-- What `solve` has returned. -/
def result : ReduceSolve S → Option State
  | .fallback (.returned state) => some state
  | .single _ ⟨.returned state, _, _⟩ => some state
  | .recurring _ ⟨_, .returned state, _, _, _⟩ => some state
  | _ => none

/-- `_model`, if a callback has stored one. -/
def model : ReduceSolve S → Option Model
  | .fallback _ => none
  | .single _ s => s.model
  | .recurring _ s => s.model

end ReduceSolve

/-- The number of variables of a solver that has read the clauses. -/
def Cnf.nVars (F : Cnf) : ℕ := (F.flatten.map fun p => p.var + 1).foldr max 0

/-- `get_model()`: the vector is empty until a callback stores a model in it. -/
def ReduceSolve.getModel {S : RBSearch} (F : Cnf) (s : ReduceSolve S) : List LBool :=
  match s.model with
  | none => []
  | some m => (List.range (Cnf.nVars F)).map fun v => .ofBool (m v)

/-- A total assignment of the variables of the clauses that satisfies every clause. -/
structure IsModel (F : Cnf) (vars : List LBool) : Prop where
  total : ∀ c ∈ F, ∀ p ∈ c, vars.getD p.var .undef ≠ .undef
  sat : PartialModel.Sat (fun v => vars.getD v .undef) F

/-! ### Stored models -/

theorem isSome_orElse {m : Option Model} (h : m.isSome = true) (model : Option Model) :
    (m <|> model).isSome = true := by
  obtain ⟨m, rfl⟩ := Option.isSome_iff_exists.mp h
  rfl

/-- A model that comes with a `SAT` answer is a model of the problem. -/
def Answer.HasModel (F : Cnf) : Answer → Prop
  | .SAT m => m.Sat F
  | _ => True

namespace Batch

variable {F : Cnf} {t t' : Batch} {a : Action}

def HasModel (F : Cnf) : Action → Prop
  | .answer _ answer => answer.HasModel F
  | _ => True

/-- A satisfied batch has stored a model, and whatever it has stored is a model of the problem. -/
structure Stores (F : Cnf) (t : Batch) : Prop where
  workers : ∀ x answer, .calling x answer ∈ t.workers → answer.HasModel F
  model : ∀ m, t.model = some m → m.Sat F
  satisfied : t.satisfied = true → t.model.isSome = true

theorem stores_start (F : Cnf) (assumptions : List LitVec) (threads : ℕ) :
    (start assumptions threads).Stores F := by
  refine ⟨?_, by simp [start], by simp [start]⟩
  intro x answer hw
  cases List.eq_of_mem_replicate hw

/-- A worker goes on, unless to the callback. -/
theorem Stores.workers_set (h : t.Stores F) (w : ℕ) {new : ServiceWorker}
    (hnew : ∀ x answer, new = .calling x answer → answer.HasModel F) :
    ∀ x answer, .calling x answer ∈ t.workers.set w new → answer.HasModel F := by
  intro x answer hx
  rcases List.mem_or_eq_of_mem_set hx with hx | hx
  · exact h.workers x answer hx
  · exact hnew x answer hx.symm

/-- **Every step** whose `SAT` answers come with models stores models only. -/
theorem Stores.step (h : t.Stores F) (ha : HasModel F a) (hs : t.step a = some t') :
    t'.Stores F := by
  cases Step.of_step hs with
  | submit | interrupt | clearInterrupt => exact ⟨h.workers, h.model, h.satisfied⟩
  | @dequeue w | @throw w | @clearQueue w =>
      exact ⟨h.workers_set w (by simp), h.model, h.satisfied⟩
  | @answer w x answer =>
      refine ⟨h.workers_set w ?_, h.model, h.satisfied⟩
      intro x answer' he
      cases he
      exact ha
  | @callback w x answer hw =>
      have hok := h.workers x answer (List.mem_of_getElem? hw)
      cases answer with
      | SAT m =>
          refine ⟨h.workers_set w (by simp), ?_, fun _ => rfl⟩
          intro m' hm
          cases hm
          exact hok
      | UNSAT => exact ⟨h.workers_set w (by simp), h.model, h.satisfied⟩
      | UNKNOWN => exact ⟨h.workers_set w (by simp), h.model, h.satisfied⟩

theorem Stores.model_orElse (h : t.Stores F) {model : Option Model}
    (hm : ∀ m, model = some m → m.Sat F) : ∀ m, (t.model <|> model) = some m → m.Sat F := by
  intro m he
  cases ht : t.model with
  | none =>
      rw [ht] at he
      exact hm m he
  | some m' =>
      rw [ht] at he
      cases he
      exact h.model m ht

/-- A satisfied batch leaves a model behind. -/
theorem Stores.isSome_orElse (h : t.Stores F) (hs : t.satisfied = true) (model : Option Model) :
    (t.model <|> model).isSome = true :=
  Parsat.isSome_orElse (h.satisfied hs) model

theorem satisfied_of_filterFast (h : t.filterFast = .state .SAT) : t.satisfied = true := by
  unfold filterFast at h
  split at h
  · assumption
  · split at h <;> cases h

end Batch

namespace SingleReduceSolve

variable {R : RProp} {S : RBSearch} {threads : ℕ} {s t : SingleReduceSolve S} {a : Action S}

def HasModel (F : Cnf) : Action S → Prop
  | .task a => Batch.HasModel F a
  | _ => True

/-- What each stage says about the stored model. -/
def PhaseStores (F : Cnf) (s : SingleReduceSolve S) : Prop :=
  match s.phase with
  | .solving batch => batch.Stores F
  | .returned state => state = .SAT → s.model.isSome = true
  | _ => True

structure Stores (F : Cnf) (s : SingleReduceSolve S) : Prop where
  model : ∀ m, s.model = some m → m.Sat F
  phase : s.PhaseStores F

theorem stores_start (F : Cnf) : (start : SingleReduceSolve S).Stores F :=
  ⟨by simp [start], trivial⟩

/-- What a step does. -/
inductive Step (R : RProp) (threads : ℕ) (s : SingleReduceSolve S) :
    Action S → SingleReduceSolve S → Prop
  | search {rb rb' : S.State} {a : S.Action} : s.phase = .searching rb → S.step rb a = some rb' →
      Step R threads s (.search a) { s with phase := .searching rb' }
  | stop {rb : S.State} {r : RBSReason} : s.phase = .searching rb →
      S.result rb = some (.reason r) →
      Step R threads s .found { s with phase := .returned (onReason r) }
  | found {rb : S.State} {search : Search} : s.phase = .searching rb →
      S.result rb = some (.search search) →
      Step R threads s .found { s with phase := .filtering search }
  | filterConflict {search : Search} {all l skipped : List LitVec} : s.phase = .filtering search →
      R.enumerated search = some all →
      Step R threads s (.filterConflict l skipped)
        { s with phase := .solving { Batch.start l threads with interrupted := s.interrupted } }
  | task {batch batch' : Batch} {a : Batch.Action} : s.phase = .solving batch → a ≠ .interrupt →
      batch.step a = some batch' →
      Step R threads s (.task a) { s with phase := .solving batch' }
  | collect {batch : Batch} : s.phase = .solving batch → batch.Finished →
      Step R threads s .collect
        { s with phase := .returned batch.solveFinal, model := batch.model <|> s.model }
  | interrupt :
      Step R threads s .interrupt { s with interrupted := true, phase := s.phase.interrupt }

theorem step_task {a : Batch.Action} (hne : a ≠ .interrupt) :
    s.step R threads (.task a) = match s.phase with
      | .solving batch => (batch.step a).map fun batch => { s with phase := .solving batch }
      | _ => none := by
  cases a <;> first | rfl | exact absurd rfl hne

/-- A step of the service. -/
theorem Step.of_task {a : Batch.Action} (hs : s.step R threads (.task a) = some t) :
    Step R threads s (.task a) t := by
  have hne : a ≠ .interrupt := by
    rintro rfl
    cases hs
  rw [step_task hne] at hs
  split at hs
  · rename_i batch hp
    obtain ⟨batch', hb, rfl⟩ := Option.map_eq_some_iff.mp hs
    exact .task hp hne hb
  · cases hs

theorem Step.of_step (hs : s.step R threads a = some t) : Step R threads s a t := by
  cases a with
  | search a =>
      simp only [SingleReduceSolve.step] at hs
      split at hs
      · obtain ⟨rb, hrb, rfl⟩ := Option.map_eq_some_iff.mp hs
        exact .search ‹_› hrb
      · cases hs
  | found =>
      simp only [SingleReduceSolve.step] at hs
      split at hs
      · rename_i hp
        split at hs <;> cases hs
        · exact .stop hp ‹_›
        · exact .found hp ‹_›
      · cases hs
  | filterConflict l skipped =>
      simp only [SingleReduceSolve.step] at hs
      split at hs
      · rename_i hp
        obtain ⟨all, hall, hs⟩ := Option.bind_eq_some_iff.mp hs
        split at hs <;> cases hs
        exact .filterConflict hp hall
      · cases hs
  | task a => exact .of_task hs
  | collect =>
      simp only [SingleReduceSolve.step] at hs
      split at hs
      · rename_i hp
        split at hs <;> cases hs
        exact .collect hp (Batch.finished_iff.mp ‹_›)
      · cases hs
  | interrupt =>
      cases hs
      exact .interrupt

/-- **Every step** of `SingleReduceSolve` keeps the stored model a model. -/
theorem Stores.step (h : s.Stores R.problem) (ha : HasModel R.problem a)
    (hs : s.step R threads a = some t) : t.Stores R.problem := by
  have hphase := h.phase
  cases Step.of_step hs with
  | search | found => exact ⟨h.model, trivial⟩
  | @stop rb r =>
      refine ⟨h.model, ?_⟩
      intro hr
      cases r <;> cases hr
  | @filterConflict search all l skipped =>
      have hb := Batch.stores_start R.problem l threads
      exact ⟨h.model, ⟨hb.workers, hb.model, hb.satisfied⟩⟩
  | task hp _ hb =>
      simp only [PhaseStores, hp] at hphase
      exact ⟨h.model, hphase.step ha hb⟩
  | collect hp =>
      simp only [PhaseStores, hp] at hphase
      refine ⟨hphase.model_orElse h.model, ?_⟩
      intro hsat
      exact hphase.isSome_orElse (Batch.solveFinal_eq_SAT.mp hsat) _
  | interrupt =>
      refine ⟨h.model, ?_⟩
      simp only [PhaseStores] at hphase ⊢
      cases hp : s.phase with
      | searching rb => trivial
      | filtering search => trivial
      | solving batch =>
          rw [hp] at hphase
          exact ⟨hphase.workers, hphase.model, hphase.satisfied⟩
      | returned state =>
          rw [hp] at hphase
          exact hphase

end SingleReduceSolve

namespace RecurringReduceSolve

variable {R : RProp} {S : RBSearch} {cfg : RecurringReduceSolveConfig}
  {s t : RecurringReduceSolve S} {a : Action S}

def HasModel (F : Cnf) : Action S → Prop
  | .task a => Batch.HasModel F a
  | _ => True

/-- What each stage says about the stored model. -/
def PhaseStores (F : Cnf) (s : RecurringReduceSolve S) : Prop :=
  match s.phase with
  | .solving _ _ _ batch => batch.Stores F
  | .filtered _ _ result => result = .state .SAT → s.model.isSome = true
  | .returned state => state = .SAT → s.model.isSome = true
  | _ => True

structure Stores (F : Cnf) (s : RecurringReduceSolve S) : Prop where
  model : ∀ m, s.model = some m → m.Sat F
  phase : s.PhaseStores F

theorem stores_start (F : Cnf) : (start : RecurringReduceSolve S).Stores F :=
  ⟨by simp [start], trivial⟩

/-- **Every step** of `RecurringReduceSolve` keeps the stored model a model. -/
theorem Stores.step (h : s.Stores R.problem) (ha : HasModel R.problem a)
    (hs : s.step R cfg a = some t) : t.Stores R.problem := by
  have hphase := h.phase
  cases Step.of_step hs with
  | iterate | search | found | again => exact ⟨h.model, trivial⟩
  | @stop base depth rb r =>
      refine ⟨h.model, ?_⟩
      intro hr
      -- a stop reason is never coded as `SAT`
      cases r
      · simp only [onReason] at hr
        split at hr <;> cases hr
      · cases hr
  | filterConflict => exact ⟨h.model, Batch.stores_start ..⟩
  | task hp _ hb =>
      simp only [PhaseStores, hp] at hphase
      exact ⟨h.model, hphase.step ha hb⟩
  | collect hp =>
      simp only [PhaseStores, hp] at hphase
      refine ⟨hphase.model_orElse h.model, ?_⟩
      intro hsat
      exact hphase.isSome_orElse (Batch.satisfied_of_filterFast hsat) _
  | leave | giveUp | exhaust => exact ⟨h.model, fun hsat => by cases hsat⟩
  | decide hp =>
      simp only [PhaseStores, hp] at hphase
      refine ⟨h.model, ?_⟩
      intro hsat
      exact hphase (congrArg _ hsat)
  | interrupt =>
      refine ⟨h.model, ?_⟩
      simp only [PhaseStores] at hphase ⊢
      cases hp : s.phase with
      | head | searching | filtering => trivial
      | solving base depth limit batch =>
          rw [hp] at hphase
          exact ⟨hphase.workers, hphase.model, hphase.satisfied⟩
      | filtered | returned =>
          rw [hp] at hphase
          exact hphase

end RecurringReduceSolve

/-! ### The vector `get_model()` returns -/

theorem Cnf.var_lt_nVars {F : Cnf} {c : Clause} (hc : c ∈ F) {p : Lit} (hp : p ∈ c) :
    p.var < Cnf.nVars F := by
  have hle : ∀ l : List Lit, p ∈ l → p.var < (l.map fun q => q.var + 1).foldr max 0 := by
    intro l hl
    induction l with
    | nil => cases hl
    | cons q l ih =>
        simp only [List.map_cons, List.foldr_cons]
        rcases List.mem_cons.mp hl with rfl | hl
        · exact lt_of_lt_of_le (Nat.lt_succ_self _) (le_max_left ..)
        · exact lt_of_lt_of_le (ih hl) (le_max_right ..)
  exact hle _ (List.mem_flatten.mpr ⟨c, hc, hp⟩)

theorem isModel_of_sat {F : Cnf} {m : Model} (h : m.Sat F) :
    IsModel F ((List.range (Cnf.nVars F)).map fun v => .ofBool (m v)) := by
  have hget : ∀ c ∈ F, ∀ p ∈ c, ((List.range (Cnf.nVars F)).map fun v => LBool.ofBool (m v)).getD
      p.var .undef = .ofBool (m p.var) := by
    intro c hc p hp
    have hlt := Cnf.var_lt_nVars hc hp
    simp [List.getD_eq_getElem?_getD, hlt]
  refine ⟨?_, ?_⟩
  · intro c hc p hp
    rw [hget c hc p hp]
    cases m p.var <;> simp [LBool.ofBool]
  · intro c hc
    obtain ⟨p, hp, hm⟩ := h c hc
    refine ⟨p, hp, ?_⟩
    rw [modelValue, hget c hc p hp, show m p.var = !p.sign from hm]
    cases p.sign <;> rfl

/-- The empty vector is a model of no clauses only. -/
theorem isModel_nil_iff {F : Cnf} : IsModel F [] ↔ F = [] := by
  constructor
  · intro h
    refine List.eq_nil_iff_forall_not_mem.mpr ?_
    intro c hc
    obtain ⟨p, hp, -⟩ := h.sat c hc
    exact h.total c hc p hp rfl
  · rintro rfl
    exact ⟨by simp, by simp [PartialModel.Sat]⟩

/-! ### Which way `solve` goes -/

namespace ReduceSolve

variable {R : RProp} {S : RBSearch} {s t : ReduceSolve S} {a : Action S}

/-- The service passes a model with every `SAT` answer. -/
def HasModel (F : Cnf) : Action S → Prop
  | .fallback (.answer answer) => answer.HasModel F
  | .single a => SingleReduceSolve.HasModel F a
  | .recurring a => RecurringReduceSolve.HasModel F a
  | _ => True

/-- The implementations store models; the way without them stays without. -/
def Stores (F : Cnf) (found : Bool) : ReduceSolve S → Prop
  | .fallback _ => found = false
  | .single _ s => found = true ∧ s.Stores F
  | .recurring _ s => found = true ∧ s.Stores F

theorem stores_solveImpl (F : Cnf) (cfg : ReduceSolveConfig) :
    (solveImpl cfg : ReduceSolve S).Stores F true := by
  cases cfg with
  | single threads => exact ⟨rfl, SingleReduceSolve.stores_start F⟩
  | recurring cfg => exact ⟨rfl, RecurringReduceSolve.stores_start F⟩

theorem Stores.step {found : Bool} (h : s.Stores R.problem found) (ha : HasModel R.problem a)
    (hs : s.step R a = some t) : t.Stores R.problem found := by
  unfold ReduceSolve.step at hs
  split at hs
  · obtain ⟨s', -, rfl⟩ := Option.map_eq_some_iff.mp hs
    exact h
  · obtain ⟨s', hs', rfl⟩ := Option.map_eq_some_iff.mp hs
    exact ⟨h.1, h.2.step ha hs'⟩
  · obtain ⟨s', hs', rfl⟩ := Option.map_eq_some_iff.mp hs
    exact ⟨h.1, h.2.step ha hs'⟩
  · cases hs

/-- With `SAT` the implementations have stored a model of the problem. -/
theorem Stores.model {F : Cnf} (h : t.Stores F true) (hsat : t.result = some .SAT) :
    ∃ m, t.model = some m ∧ m.Sat F := by
  have hsome : t.model.isSome = true ∧ ∀ m, t.model = some m → m.Sat F := by
    unfold result at hsat
    split at hsat <;> cases hsat
    · cases h
    · exact ⟨h.2.phase rfl, h.2.model⟩
    · exact ⟨h.2.phase rfl, h.2.model⟩
  obtain ⟨m, hm⟩ := Option.isSome_iff_exists.mp hsome.1
  exact ⟨m, hm, hsome.2 m hm⟩

end ReduceSolve

open ReduceSolve in
/-- **The model of a `SAT` answer.**  In every run of `solve` that returns `SAT`, whatever the
backdoor search and the service do otherwise, `get_model()` is a total model of the problem if and
only if `Preprocess` has found a variable that propagates another one, or the problem has no
clauses. -/
theorem reduceSolve_model_iff (R : RProp) (κ : Solver → Clause) (beyond : List (ℕ × ℕ))
    (S : RBSearch) (cfg : ReduceSolveConfig) (s t : ReduceSolve S) (as : List (Action S))
    (hstart : start R κ beyond cfg = some s) (hrun : Machine.exec (step R) s as = some t)
    (hmodels : ∀ a ∈ as, HasModel R.problem a) (hsat : t.result = some .SAT) :
    IsModel R.problem (t.getModel R.problem) ↔
      (∃ x ∈ Preprocess.stats R.propagator κ R.problem R.engine, 1 < x.1) ∨ R.problem = [] := by
  obtain ⟨⟨found, view⟩, hpre, rfl⟩ := Option.map_eq_some_iff.mp hstart
  rw [← Preprocess.preprocess_eq_true_iff hpre]
  have hinv : t.Stores R.problem found := by
    refine Machine.exec_invariant_throughout (I := fun s => s.Stores R.problem found)
      (fun s a t h ha hs => h.step ha hs) ?_
      (Machine.throughout_of_forall fun a ha s => hmodels a ha) hrun
    cases found with
    | «false» => rfl
    | «true» => exact stores_solveImpl ..
  cases found with
  | «true» =>
      obtain ⟨m, hm, hmF⟩ := hinv.model hsat
      simp only [getModel, hm, true_or, iff_true]
      exact isModel_of_sat hmF
  | «false» =>
      -- only the two solves of a reduction store a model
      have hmodel : t.model = none := by
        cases t with
        | fallback => rfl
        | single => cases hinv.1
        | recurring => cases hinv.1
      simp [getModel, hmodel, isModel_nil_iff]

/-- The problem `(¬0 ∨ ¬1) ∧ (2 ∨ 3 ∨ 4)`, where `0` propagates `¬1`. -/
def propagatingClauses : RProp where
  propagator := .saturating
  problem := [[mkLit 0 true, mkLit 1 true], [mkLit 2 false, mkLit 3 false, mkLit 4 false]]
  engine := .simp

open ReduceSolve in
/-- `SingleReduceSolve` enumerates `0`, and the service answers `SAT` for the first assumption. -/
theorem reduceSolve_model_iff_single : ∃ s as t,
    start propagatingClauses (fun _ => []) [] (.single 1) =
      some (s : ReduceSolve (.constant (fullSearch [0]))) ∧
    Machine.exec (step propagatingClauses) s as = some t ∧ t.result = some .SAT ∧
    IsModel propagatingClauses.problem (t.getModel propagatingClauses.problem) := by
  have hstart : start propagatingClauses (fun _ => []) [] (.single 1) =
      some (solveImpl (.single 1) : ReduceSolve (.constant (fullSearch [0]))) := by
    have hpre : Preprocess.preprocess .saturating (fun _ => []) propagatingClauses.problem .simp
        [] = some (true, [1, 0]) := by
      decide +kernel
    exact congrArg (Option.map _) hpre
  let as : List (Action (.constant (fullSearch [0]))) :=
    [.single .found, .single (.filterConflict [[mkLit 0 false], [mkLit 0 true]] []),
      .single (.task .submit), .single (.task .submit), .single (.task (.dequeue 0)),
      .single (.task (.answer 0 (.SAT fun v => v = 2))), .single (.task (.callback 0)),
      .single (.task (.clearQueue 0)), .single .collect]
  have hrun : (Machine.exec (step propagatingClauses) (solveImpl (.single 1)) as).any
      (fun t => t.result = some .SAT) = true := by
    decide +kernel
  obtain ⟨t, ht, hp⟩ := Machine.exists_run hrun
  have hsat := of_decide_eq_true hp
  refine ⟨_, as, t, hstart, ht, hsat, ?_⟩
  refine (reduceSolve_model_iff _ _ _ _ _ _ t as hstart ht ?_ hsat).mpr (.inl ?_)
  · intro a ha
    simp only [as, List.mem_cons, List.not_mem_nil, or_false] at ha
    rcases ha with rfl | rfl | rfl | rfl | rfl | rfl | rfl | rfl | rfl
    case inr.inr.inr.inr.inr.inl =>
      simp [HasModel, SingleReduceSolve.HasModel, Batch.HasModel, Answer.HasModel,
        UnitProp.Satisfies, propagatingClauses, Lit.Holds]
    all_goals trivial
  · decide +kernel

/-- The problem `0 ∨ 1 ∨ 2`, where no variable propagates another. -/
def idleClauses : RProp where
  propagator := .saturating
  problem := [[mkLit 0 false, mkLit 1 false, mkLit 2 false]]
  engine := .simp

open ReduceSolve in
/-- The problem goes to the service, which answers `SAT` with a model; `get_model()` is empty. -/
theorem reduceSolve_model_lost : ∃ s as t,
    start idleClauses (fun _ => []) [] (.single 1) =
      some (s : ReduceSolve (.constant (fullSearch [0]))) ∧
    Machine.exec (step idleClauses) s as = some t ∧ (∀ a ∈ as, HasModel idleClauses.problem a) ∧
    t.result = some .SAT ∧ ¬ IsModel idleClauses.problem (t.getModel idleClauses.problem) := by
  have hpre : Preprocess.preprocess .saturating (fun _ => []) idleClauses.problem .simp [] =
      some (false, []) := by
    decide +kernel
  refine ⟨.fallback .queued, [.fallback .dequeue, .fallback (.answer (.SAT fun _ => true))],
    .fallback (.returned .SAT), congrArg (Option.map _) hpre, rfl, ?_, rfl, ?_⟩
  · intro a ha
    simp only [List.mem_cons, List.not_mem_nil, or_false] at ha
    rcases ha with rfl | rfl
    · trivial
    · simp [HasModel, Answer.HasModel, UnitProp.Satisfies, idleClauses, Lit.Holds]
  · intro h
    have := isModel_nil_iff.mp h
    cases this

end Parsat
