import Parsat.Library.Machine
import Parsat.Sat.Problem
import Parsat.Backdoor.Instance

/-!
# Backdoor — the threads of `CartesianRBSearch::find_rb`

`_pre_solve` attaches a callback for the event `SBS_FOUND`, starts one thread for each algorithm and
joins them.  A thread runs its algorithm, and unless the best instance is a strong backdoor it
enumerates all assignments of that instance's variables outside the base assumption, to gather those
that propagation does not refute.  A thread that gathered none has found a strong backdoor too.

Threads and event thread share two flags, `_interrupted` and `_sbs_found`, which are only ever set.
So a test that reads one flag after the other has the outcome of a test that reads both at once, and
the machine reads them in one step.

The enumeration also stops when a flag is set.  An empty list then says nothing, and still counts as
a strong backdoor: `findRb_sbsFound_interrupted` is such a run.

* `CartesianRBSearch.Inv`: what the threads gathered, unless a flag made them stop.
* `findRb_sbsFound_sound`: in the runs where no thread tests a list that was cut short,
  `RBS_SBS_FOUND` refutes the base assumption.
-/

namespace Parsat

open Solver

/-! ### The propagation engine and its instances -/

/-- `util::get_vars`; of the set only membership is asked. -/
def getVars (assumption : LitVec) : List ℕ := assumption.map Lit.var

/-- `util::filter_vars`. -/
def filterVars (vars varsToFilter : List ℕ) : List ℕ :=
  vars.filter fun v => !varsToFilter.contains v

/-- `RProp`, loaded with a problem. -/
structure RProp where
  propagator : Propagator
  problem : Cnf
  engine : Engine

namespace RProp

variable (R : RProp)

/-- Whether propagation refutes an assumption. -/
def conflicts (a : LitVec) : Bool := Solver.conflicts R.propagator R.problem a

/-- The assumptions of a list that propagation does not refute. -/
def nonConflict (l : List LitVec) : List LitVec := l.filter fun a => !R.conflicts a

/-- The searches `prop_search` runs; `none` where a division by zero ends the process: by the number
of threads in `Preprocess::preprocess`, by `_seq_split_samples` in `_prop_search`. -/
def tasks (search : Search) : Option (List Search) :=
  match R.engine with
  | .simp => some [search]
  | .par cfg =>
    if cfg.maxThreads = 0 ∨ cfg.seqSplitSamples = 0 then none
    else some (ParProp.tasks cfg search)

end RProp

/-- An instance of an algorithm with the base assumption of its shared data. -/
structure Instance (R : RProp) where
  base : LitVec
  vars : List ℕ
  fit : Fitness
  evolved : ∃ cfg, Evolved R.propagator R.problem R.engine cfg base fit

/-! ### A thread -/

/-- A task of the enumeration: about to propagate, about to read the flags at the end of the
callback, or at its end. -/
inductive EnumTask where
  | visit (search : Search)
  | resume (search : Search)
  | ended

/-- A task whose callback returned, with `true` if it was stopped before its end. -/
def EnumTask.next (stopped : Bool) (search : Search) : EnumTask × Bool :=
  match search.next with
  | none => (.ended, false)
  | some search => if stopped then (.ended, true) else (.visit search, false)

def EnumTask.isEnded : EnumTask → Bool
  | .ended => true
  | _ => false

/-- Where a thread stands. -/
inductive Stage (R : RProp) where
  | processing
  | processed (rb : Instance R)
  | checked (rb : Instance R)
  | enumerating (tasks : List EnumTask)
  | raising
  | returned

def Stage.isReturned {R : RProp} : Stage R → Bool
  | .returned => true
  | _ => false

/-- A thread with its entry of `non_conflict_assignments`; `cut` records that a task of its
enumeration was stopped before its end. -/
structure RBThread (R : RProp) where
  stage : Stage R
  vars : List ℕ
  assignments : List LitVec
  cut : Bool

namespace RBThread

inductive Action (R : RProp) where
  | process (rb : Instance R)
  | readFlags
  | inspect
  | visit (task : ℕ)
  | resume (task : ℕ)
  | test
  | raise

variable {R : RProp}

def new : RBThread R := ⟨.processing, [], [], false⟩

/-- `_raise_for_sbs`, up to the event: the exchange succeeds for the first thread only. -/
def raiseForSbs (th : RBThread R) (sbsFound : Bool) : RBThread R × Bool :=
  ({ th with stage := if sbsFound then .returned else .raising }, true)

/-- The search of `createFullSearch(vars)` is handed to `prop_search`. -/
def startEnumeration (th : RBThread R) (base : LitVec) (rb : Instance R) : Option (RBThread R) :=
  let vars := filterVars rb.vars (getVars base)
  (R.tasks (fullSearch vars)).map fun tasks =>
    { th with vars, stage := .enumerating (tasks.map .visit) }

/-- The callback: keep the assignment if it is not refuted. -/
def gather (th : RBThread R) (a : LitVec) : List LitVec :=
  if R.conflicts a then th.assignments else th.assignments ++ [a]

/-- A step of a thread; the second component is `_sbs_found` after it. -/
def step (base : LitVec) (interrupted sbsFound : Bool) (th : RBThread R) :
    Action R → Option (RBThread R × Bool)
  | .process rb =>
    match th.stage with
    | .processing => if rb.base = base then some ({ th with stage := .processed rb }, sbsFound)
      else none
    | _ => none
  | .readFlags =>
    match th.stage with
    | .processed rb =>
      -- `if (_is_interrupted() || _sbs_found) { return; }`
      some ({ th with stage := if interrupted || sbsFound then .returned else .checked rb },
        sbsFound)
    | _ => none
  | .inspect =>
    match th.stage with
    | .checked rb =>
      if rb.fit.isSbs then some (th.raiseForSbs sbsFound)
      else (th.startEnumeration base rb).map (·, sbsFound)
    | _ => none
  | .visit j =>
    match th.stage with
    | .enumerating tasks =>
      match tasks[j]? with
      | some (.visit search) =>
        some ({ th with
          stage := .enumerating (tasks.set j (.resume search))
          assignments := th.gather search.assignment }, sbsFound)
      | _ => none
    | _ => none
  | .resume j =>
    match th.stage with
    | .enumerating tasks =>
      match tasks[j]? with
      | some (.resume search) =>
        let r := EnumTask.next (interrupted || sbsFound) search
        some ({ th with
          stage := .enumerating (tasks.set j r.1)
          cut := th.cut || r.2 }, sbsFound)
      | _ => none
    | _ => none
  | .test =>
    match th.stage with
    | .enumerating tasks =>
      if tasks.all EnumTask.isEnded then
        -- `if (non_conflict_assignments[i].empty())`
        if th.assignments.isEmpty then some (th.raiseForSbs sbsFound)
        else some ({ th with stage := .returned }, sbsFound)
      else none
    | _ => none
  | .raise =>
    match th.stage with
    | .raising => some ({ th with stage := .returned }, sbsFound)
    | _ => none

end RBThread

/-! ### The search -/

/-- `RBSReason`. -/
inductive RBSReason where
  | SBS_FOUND
  | INTERRUPTED
  deriving DecidableEq

/-- `rbs_result_t`. -/
inductive RBSResult where
  | reason (reason : RBSReason)
  | search (search : Search)

/-- `CartesianRBSearchConfig`, without the configurations of the algorithms. -/
structure CartesianRBSearchConfig where
  numAlgorithms : UInt32
  maxUnpropagated : UInt32
  maxCartesianSize : UInt32

/-! ### The product of the gathered lists -/

section PrepareCartesian

variable (cfg : CartesianRBSearchConfig)

/-- `std::min_element` by size: the first of the smallest lists. -/
def minElement : CartesianSet → List LitVec
  | [] => []
  | l :: set => set.foldl (fun it l => if l.length < it.length then l else it) l

/-- The loop of `_prepare_cartesian`; `cur_size` has 32 bits and `size` has 64. -/
def takeSets : ℕ → CartesianSet → CartesianSet
  | _, [] => []
  | size, l :: set =>
    let curSize := l.length % 2 ^ 32
    if cfg.maxUnpropagated.toNat < curSize then takeSets size set
    else if cfg.maxCartesianSize.toNat < curSize * size % 2 ^ 64 then takeSets size set
    else l :: takeSets (size * curSize % 2 ^ 64) set

/-- The lists `_prepare_cartesian` chooses. -/
def selectSets (set : CartesianSet) : CartesianSet :=
  if cfg.maxUnpropagated.toNat < (minElement set).length then [minElement set]
  else takeSets cfg 1 set

/-- `_prepare_cartesian`. -/
def prepareCartesian (set : CartesianSet) : Search := cartesianSearch (selectSets cfg set)

end PrepareCartesian

/-- Where the thread in `find_rb` stands: before the callback is attached, starting threads, joining
them, behind `_pre_solve`, or at the end. -/
inductive MainStage where
  | created
  | launching
  | joining
  | joined
  | finished (result : RBSResult)

/-- A `CartesianRBSearch` in `find_rb(base)`. -/
structure CartesianRBSearch (R : RProp) where
  base : LitVec
  main : MainStage
  threads : List (RBThread R)
  interrupted : Bool
  sbsFound : Bool
  attached : Bool

namespace CartesianRBSearch

inductive Action (R : RProp) where
  | attach
  | launch
  | endLaunch
  | thread (i : ℕ) (action : RBThread.Action R)
  | join
  | finish
  | interrupt
  | deliver

variable {R : RProp}

def start (base : LitVec) : CartesianRBSearch R := ⟨base, .created, [], false, false, false⟩

/-- `non_conflict_assignments`; a thread that was not started leaves its list empty. -/
def lists (cfg : CartesianRBSearchConfig) (s : CartesianRBSearch R) : CartesianSet :=
  s.threads.map RBThread.assignments ++
    List.replicate (cfg.numAlgorithms.toNat - s.threads.length) []

/-- What `find_rb` returns after `_pre_solve`. -/
def findRb (cfg : CartesianRBSearchConfig) (s : CartesianRBSearch R) : RBSResult :=
  if s.sbsFound then .reason .SBS_FOUND
  else if s.interrupted then .reason .INTERRUPTED
  else .search (prepareCartesian cfg (s.lists cfg))

/-- A step; `interrupt` is `RBSearch::interrupt()`, and `deliver` is the attached callback, which
calls it and detaches itself. -/
def step (cfg : CartesianRBSearchConfig) (s : CartesianRBSearch R) :
    Action R → Option (CartesianRBSearch R)
  | .attach =>
    match s.main with
    | .created =>
      -- `IPS_VERIFY(_cfg.num_algorithms() > 0)`
      if 0 < cfg.numAlgorithms.toNat then some { s with main := .launching, attached := true }
      else none
    | _ => none
  | .launch =>
    match s.main with
    | .launching =>
      -- `i < _cfg.num_algorithms() && !_interrupted`
      if s.threads.length < cfg.numAlgorithms.toNat ∧ s.interrupted = false then
        some { s with threads := s.threads ++ [.new] }
      else none
    | _ => none
  | .endLaunch =>
    match s.main with
    | .launching =>
      if s.threads.length < cfg.numAlgorithms.toNat ∧ s.interrupted = false then none
      else some { s with main := .joining }
    | _ => none
  | .thread i a =>
    match s.threads[i]? with
    | none => none
    | some th =>
      (th.step s.base s.interrupted s.sbsFound a).map fun r =>
        { s with threads := s.threads.set i r.1, sbsFound := r.2 }
  | .join =>
    match s.main with
    | .joining =>
      if s.threads.all fun th => th.stage.isReturned then
        -- the handle of the callback ends with `_pre_solve`
        some { s with main := .joined, attached := false }
      else none
    | _ => none
  | .finish =>
    match s.main with
    | .joined => some { s with main := .finished (s.findRb cfg) }
    | _ => none
  | .interrupt => some { s with interrupted := true }
  | .deliver => if s.attached then some { s with interrupted := true, attached := false } else none

end CartesianRBSearch

/-! ### What a thread gathers -/

/-- The assignments a task has still to visit. -/
def EnumTask.left : EnumTask → List LitVec
  | .visit search => search.visits
  | .resume search =>
    match search.next with
    | none => []
    | some search => search.visits
  | .ended => []

def EnumTask.Live : EnumTask → Prop
  | .visit search | .resume search => search.Live
  | .ended => True

namespace RProp

variable (R : RProp)

@[simp] theorem nonConflict_append (l l' : List LitVec) :
    R.nonConflict (l ++ l') = R.nonConflict l ++ R.nonConflict l' := List.filter_append ..

@[simp] theorem nonConflict_nil : R.nonConflict [] = [] := rfl

theorem mem_nonConflict {R : RProp} {l : List LitVec} {a : LitVec} :
    a ∈ R.nonConflict l ↔ a ∈ l ∧ R.conflicts a = false := by
  simp [nonConflict]

/-- The tasks of an engine visit what the search visits. -/
theorem tasks_spec {R : RProp} {search : Search} {tasks : List Search} (hs : search.Fresh)
    (h : R.tasks search = some tasks) :
    (∀ s ∈ tasks, s.Live) ∧ tasks.flatMap Search.visits = search.visits := by
  unfold RProp.tasks at h
  split at h
  · cases h
    obtain ⟨-, hd, ht⟩ := hs.start
    refine ⟨?_, by simp⟩
    intro s hs
    obtain rfl := List.mem_singleton.mp hs
    simpa [Search.Live, hd] using ht
  · split at h
    · cases h
    · rename_i cfg _ hcfg
      cases h
      simp only [← UInt32.toNat_inj, not_or] at hcfg
      exact ParProp.tasks_spec hs (Nat.one_le_iff_ne_zero.mpr hcfg.1)
        (Nat.one_le_iff_ne_zero.mpr hcfg.2)

/-- A model of the problem agrees with an assignment of the variables that propagation does not
refute. -/
theorem exists_meets_nonConflict {R : RProp} {m : Model} (hm : m.Sat R.problem) {vars : List ℕ}
    (hn : vars.length ≤ 63) : ∃ a ∈ R.nonConflict (fullSearch vars).visits, m.Meets a := by
  obtain ⟨a, hmem, ha⟩ := exists_meets_fullSearch m hn
  refine ⟨a, mem_nonConflict.mpr ⟨hmem, ?_⟩, ha⟩
  rw [← Bool.not_eq_true]
  intro hc
  exact not_satisfiableUnder_of_conflicts hc ⟨m, hm, ha⟩

end RProp

namespace RBThread

variable {R : RProp} {th th' : RBThread R} {base : LitVec} {i s i' s' : Bool} {a : Action R}

/-- The list of the thread holds what is not refuted of all assignments of its variables. -/
def Gathered (th : RBThread R) : Prop :=
  th.vars.length ≤ 63 ∧ th.assignments.Perm (R.nonConflict (fullSearch th.vars).visits)

/-- What a thread has gathered; a set flag excuses what is missing. -/
def Ok (base : LitVec) (interrupted sbsFound : Bool) (th : RBThread R) : Prop :=
  match th.stage with
  | .processing => th.assignments = [] ∧ th.cut = false
  | .processed rb | .checked rb =>
    (th.assignments = [] ∧ th.cut = false) ∧ rb.base = base ∧
      (filterVars rb.vars (getVars base)).length ≤ 63
  | .enumerating tasks =>
    th.vars.length ≤ 63 ∧ (∀ t ∈ tasks, t.Live) ∧
      (th.cut = true → interrupted = true ∨ sbsFound = true) ∧
      (th.cut = false → (th.assignments ++ R.nonConflict (tasks.flatMap EnumTask.left)).Perm
        (R.nonConflict (fullSearch th.vars).visits))
  | .raising => sbsFound = true
  | .returned => (interrupted = true ∨ sbsFound = true) ∨ th.Gathered ∧ th.assignments ≠ []

/-- The backdoor an algorithm finds fits a full search. -/
def Fits (base : LitVec) : Action R → Prop
  | .process rb => (filterVars rb.vars (getVars base)).length ≤ 63
  | _ => True

/-- The thread does not test a list that was cut short, or a strong backdoor has been found. -/
def Complete (sbsFound : Bool) (th : RBThread R) : Action R → Prop
  | .test => th.assignments = [] → th.cut = true → sbsFound = true
  | _ => True

instance (base : LitVec) : DecidablePred (Fits (R := R) base)
  | .process _ => inferInstanceAs (Decidable (_ ≤ _))
  | .readFlags | .inspect | .visit _ | .resume _ | .test | .raise => .isTrue trivial

instance (sbsFound : Bool) (th : RBThread R) : DecidablePred (Complete sbsFound th)
  | .test => inferInstanceAs (Decidable (_ → _ → _))
  | .readFlags | .inspect | .visit _ | .resume _ | .process _ | .raise => .isTrue trivial

theorem Ok.mono (h : th.Ok base i s) (hi : i = true → i' = true) (hs : s = true → s' = true) :
    th.Ok base i' s' := by
  have hf : i = true ∨ s = true → i' = true ∨ s' = true := Or.imp hi hs
  cases hst : th.stage <;> simp only [Ok, hst] at h ⊢
  case processing => exact h
  case processed => exact h
  case checked => exact h
  case enumerating => exact ⟨h.1, h.2.1, fun hc => hf (h.2.2.1 hc), h.2.2.2⟩
  case raising => exact hs h
  case returned => exact h.imp_left hf

theorem ok_new : (new : RBThread R).Ok base i s := ⟨rfl, rfl⟩

/-- What `_raise_for_sbs` leaves. -/
theorem ok_raiseForSbs (th : RBThread R) (base : LitVec) (i s : Bool) :
    (th.raiseForSbs s).1.Ok base i true := by
  cases s with
  | «false» => exact rfl
  | «true» => exact .inl (.inr rfl)

/-- A task visits its next assignment. -/
theorem Ok.visit {tasks : List EnumTask} {j : ℕ} {search : Search}
    (h : th.Ok base i s) (hst : th.stage = .enumerating tasks)
    (hj : tasks[j]? = some (.visit search)) :
    Ok (R := R) base i s { th with
      stage := .enumerating (tasks.set j (.resume search))
      assignments := th.gather search.assignment } := by
  obtain ⟨pre, post, rfl, hset⟩ := Machine.exists_split hj
  simp only [Ok, hst] at h
  obtain ⟨h₁, h₂, h₃, h₄⟩ := h
  have hlive : search.Live := h₂ (.visit search) (by simp)
  have hleft : (EnumTask.visit search).left =
      search.assignment :: (EnumTask.resume search).left := hlive.visits_eq
  refine ⟨h₁, ?_, h₃, fun hc => List.Perm.trans ?_ (h₄ hc)⟩
  · intro t ht
    rcases List.mem_or_eq_of_mem_set ht with ht | rfl
    · exact h₂ t ht
    · exact hlive
  · -- the visited assignment moves from what is left to the list, unless it is refuted
    rw [hset, List.perm_iff_count]
    intro x
    simp only [gather, List.flatMap_append, List.flatMap_cons, hleft, RProp.nonConflict_append,
      List.count_append]
    cases hx : R.conflicts search.assignment with
    | «true» => simp [RProp.nonConflict, hx]
    | «false» =>
        simp [RProp.nonConflict, hx, List.count_append, List.count_cons]
        omega

/-- A task goes on, or ends. -/
theorem Ok.resume {tasks : List EnumTask} {j : ℕ} {search : Search}
    (h : th.Ok base i s) (hst : th.stage = .enumerating tasks)
    (hj : tasks[j]? = some (.resume search)) :
    Ok (R := R) base i s { th with
      stage := .enumerating (tasks.set j (EnumTask.next (i || s) search).1)
      cut := th.cut || (EnumTask.next (i || s) search).2 } := by
  obtain ⟨pre, post, rfl, hset⟩ := Machine.exists_split hj
  simp only [Ok, hst] at h
  obtain ⟨h₁, h₂, h₃, h₄⟩ := h
  have hlive : search.Live := h₂ (.resume search) (by simp)
  -- a task that is stopped has a flag to blame, one that is not loses nothing
  have hnext : (EnumTask.next (i || s) search).1.Live ∧
      ((EnumTask.next (i || s) search).2 = true → i = true ∨ s = true) ∧
      ((EnumTask.next (i || s) search).2 = false →
        (EnumTask.next (i || s) search).1.left = (EnumTask.resume search).left) := by
    cases hn : search.next with
    | none => simp [EnumTask.next, EnumTask.left, EnumTask.Live, hn]
    | some search' =>
        have := hlive.next hn
        cases i <;> cases s <;> simp [EnumTask.next, EnumTask.left, EnumTask.Live, hn, this]
  refine ⟨h₁, ?_, ?_, ?_⟩
  · intro t ht
    rcases List.mem_or_eq_of_mem_set ht with ht | rfl
    · exact h₂ t ht
    · exact hnext.1
  · intro hc
    rcases Bool.or_eq_true_iff.mp hc with hc | hc
    · exact h₃ hc
    · exact hnext.2.1 hc
  · intro hc
    obtain ⟨hc, hc'⟩ := Bool.or_eq_false_iff.mp hc
    rw [hset]
    simpa only [List.flatMap_append, List.flatMap_cons, hnext.2.2 hc'] using h₄ hc

theorem Ok.startEnumeration {rb : Instance R} (h : th.assignments = [] ∧ th.cut = false)
    (hn : (filterVars rb.vars (getVars base)).length ≤ 63)
    (hs : th.startEnumeration base rb = some th') : th'.Ok base i s := by
  simp only [RBThread.startEnumeration, Option.map_eq_some_iff] at hs
  obtain ⟨tasks, htasks, rfl⟩ := hs
  obtain ⟨hlive, hvisits⟩ := RProp.tasks_spec (.full hn) htasks
  refine ⟨hn, ?_, by simp [h.2], ?_⟩
  · intro t ht
    obtain ⟨search, hsearch, rfl⟩ := List.mem_map.mp ht
    exact hlive search hsearch
  · intro _
    simp only [h.1, List.nil_append, List.flatMap_map, EnumTask.left, hvisits]
    rfl

/-- When all tasks have ended, nothing is left. -/
theorem flatMap_left_of_all {tasks : List EnumTask} (h : tasks.all EnumTask.isEnded = true) :
    tasks.flatMap EnumTask.left = [] := by
  rw [List.flatMap_eq_nil_iff]
  intro t ht
  have := List.all_eq_true.mp h t ht
  cases t <;> simp_all [EnumTask.isEnded, EnumTask.left]

/-- What a step of a thread does. -/
inductive Step (base : LitVec) (i s : Bool) (th : RBThread R) : Action R → RBThread R → Bool → Prop
  | process {rb : Instance R} : th.stage = .processing → rb.base = base →
      Step base i s th (.process rb) { th with stage := .processed rb } s
  | leave {rb : Instance R} : th.stage = .processed rb → i = true ∨ s = true →
      Step base i s th .readFlags { th with stage := .returned } s
  | proceed {rb : Instance R} : th.stage = .processed rb →
      Step base i s th .readFlags { th with stage := .checked rb } s
  | sbs {rb : Instance R} : th.stage = .checked rb → rb.fit.isSbs = true →
      Step base i s th .inspect (th.raiseForSbs s).1 true
  | enumerate {rb : Instance R} {th' : RBThread R} : th.stage = .checked rb →
      th.startEnumeration base rb = some th' → Step base i s th .inspect th' s
  | visit {tasks : List EnumTask} {j : ℕ} {search : Search} : th.stage = .enumerating tasks →
      tasks[j]? = some (.visit search) →
      Step base i s th (.visit j)
        { th with
          stage := .enumerating (tasks.set j (.resume search))
          assignments := th.gather search.assignment } s
  | resume {tasks : List EnumTask} {j : ℕ} {search : Search} : th.stage = .enumerating tasks →
      tasks[j]? = some (.resume search) →
      Step base i s th (.resume j)
        { th with
          stage := .enumerating (tasks.set j (EnumTask.next (i || s) search).1)
          cut := th.cut || (EnumTask.next (i || s) search).2 } s
  | empty {tasks : List EnumTask} : th.stage = .enumerating tasks →
      tasks.all EnumTask.isEnded = true → th.assignments = [] →
      Step base i s th .test (th.raiseForSbs s).1 true
  | gathered {tasks : List EnumTask} : th.stage = .enumerating tasks →
      tasks.all EnumTask.isEnded = true → th.assignments ≠ [] →
      Step base i s th .test { th with stage := .returned } s
  | raise : th.stage = .raising → Step base i s th .raise { th with stage := .returned } s

theorem Step.of_step (hs : th.step base i s a = some (th', s')) : Step base i s th a th' s' := by
  cases a with
  | process rb =>
      simp only [RBThread.step] at hs
      split at hs
      · rename_i hst
        split at hs
        · rename_i hb
          cases hs
          exact .process hst hb
        · cases hs
      · cases hs
  | readFlags =>
      simp only [RBThread.step] at hs
      split at hs
      · rename_i rb hst
        cases hs
        split
        · rename_i hf
          exact .leave hst (Bool.or_eq_true_iff.mp hf)
        · exact .proceed hst
      · cases hs
  | inspect =>
      simp only [RBThread.step] at hs
      split at hs
      · rename_i rb hst
        split at hs
        · rename_i hsbs
          cases hs
          exact .sbs hst hsbs
        · simp only [Option.map_eq_some_iff, Prod.mk.injEq] at hs
          obtain ⟨_, hs, rfl, rfl⟩ := hs
          exact .enumerate hst hs
      · cases hs
  | visit j =>
      simp only [RBThread.step] at hs
      split at hs
      · rename_i tasks hst
        split at hs
        · rename_i search hj
          cases hs
          exact .visit hst hj
        · cases hs
      · cases hs
  | resume j =>
      simp only [RBThread.step] at hs
      split at hs
      · rename_i tasks hst
        split at hs
        · rename_i search hj
          cases hs
          exact .resume hst hj
        · cases hs
      · cases hs
  | test =>
      simp only [RBThread.step] at hs
      split at hs
      · rename_i tasks hst
        split at hs
        · rename_i hend
          split at hs
          · rename_i he
            cases hs
            exact .empty hst hend (by simpa using he)
          · rename_i he
            cases hs
            exact .gathered hst hend (by simpa using he)
        · cases hs
      · cases hs
  | raise =>
      simp only [RBThread.step] at hs
      split at hs
      · rename_i hst
        cases hs
        exact .raise hst
      · cases hs

theorem Step.sbsFound_mono (hs : Step base i s th a th' s') (h : s = true) : s' = true := by
  cases hs <;> first | exact h | rfl

theorem Step.not_returned (hs : Step base i s th a th' s') : th.stage.isReturned = false := by
  cases hs <;> simp [Stage.isReturned, *]

/-- **Every step of a thread** keeps what it has gathered. -/
theorem Ok.step (h : th.Ok base i s) (hfit : Fits base a) (hs : Step base i s th a th' s') :
    th'.Ok base i s' := by
  cases hs with
  | process hst hb =>
      simp only [Ok, hst] at h
      exact ⟨h, hb, hfit⟩
  | leave hst hf => exact .inl hf
  | proceed hst =>
      simp only [Ok, hst] at h
      exact h
  | sbs hst hsbs => exact ok_raiseForSbs th base i s
  | enumerate hst hs =>
      simp only [Ok, hst] at h
      exact .startEnumeration h.1 h.2.2 hs
  | visit hst hj => exact h.visit hst hj
  | resume hst hj => exact h.resume hst hj
  | empty hst hend hnil => exact ok_raiseForSbs th base i s
  | gathered hst hend hne =>
      simp only [Ok, hst] at h
      -- a list that was not cut short has everything that is not refuted
      cases hc : th.cut with
      | «true» => exact .inl (h.2.2.1 hc)
      | «false» =>
          have hp := h.2.2.2 hc
          rw [flatMap_left_of_all hend] at hp
          exact .inr ⟨⟨h.1, by simpa using hp⟩, hne⟩
  | raise hst =>
      simp only [Ok, hst] at h
      exact .inl (.inr h)

/-- **A strong backdoor refutes**, if the list it was read from was not cut short. -/
theorem Ok.refutes (h : th.Ok base i false) (hc : Complete false th a)
    (hs : Step base i false th a th' true) : ¬ SatisfiableUnder R.problem base := by
  cases hs with
  | sbs hst hsbs =>
      rename_i rb
      simp only [Ok, hst] at h
      obtain ⟨-, rfl, -⟩ := h
      obtain ⟨cfg, hev⟩ := rb.evolved
      exact hev.refutes hsbs
  | empty hst hend hnil =>
      simp only [Ok, hst] at h
      obtain ⟨hn, -, -, hp⟩ := h
      have hcut : th.cut = false := by
        rw [← Bool.not_eq_true]
        intro hcut
        cases hc hnil hcut
      have hp := hp hcut
      rw [flatMap_left_of_all hend, hnil] at hp
      -- no assignment is left, but a model of the problem meets one that is not refuted
      rintro ⟨m, hm, -⟩
      obtain ⟨a, ha, -⟩ := RProp.exists_meets_nonConflict hm hn
      rw [← hp.mem_iff] at ha
      cases ha

end RBThread

/-! ### What the search returns -/

namespace CartesianRBSearch

variable {R : RProp} {cfg : CartesianRBSearchConfig} {s t : CartesianRBSearch R} {a : Action R}

/-- What a step does. -/
inductive Step (cfg : CartesianRBSearchConfig) (s : CartesianRBSearch R) :
    Action R → CartesianRBSearch R → Prop
  | attach : s.main = .created →
      Step cfg s .attach { s with main := .launching, attached := true }
  | launch : s.main = .launching → Step cfg s .launch { s with threads := s.threads ++ [.new] }
  | endLaunch : s.main = .launching →
      s.interrupted = true ∨ cfg.numAlgorithms.toNat ≤ s.threads.length →
      Step cfg s .endLaunch { s with main := .joining }
  | thread {i : ℕ} {th th' : RBThread R} {a : RBThread.Action R} {sbs : Bool} :
      s.threads[i]? = some th → th.Step s.base s.interrupted s.sbsFound a th' sbs →
      Step cfg s (.thread i a) { s with threads := s.threads.set i th', sbsFound := sbs }
  | join : s.main = .joining → (∀ th ∈ s.threads, th.stage.isReturned = true) →
      Step cfg s .join { s with main := .joined, attached := false }
  | finish : s.main = .joined → Step cfg s .finish { s with main := .finished (s.findRb cfg) }
  | interrupt : Step cfg s .interrupt { s with interrupted := true }
  | deliver : s.attached = true →
      Step cfg s .deliver { s with interrupted := true, attached := false }

theorem Step.of_step (h : s.step cfg a = some t) : Step cfg s a t := by
  cases a with
  | attach =>
      simp only [step] at h
      split at h
      · rename_i hm
        split at h <;> cases h
        exact .attach hm
      · cases h
  | launch =>
      simp only [step] at h
      split at h
      · rename_i hm
        split at h <;> cases h
        exact .launch hm
      · cases h
  | endLaunch =>
      simp only [step] at h
      split at h
      · rename_i hm
        split at h <;> cases h
        rename_i hn
        refine .endLaunch hm ?_
        rw [← not_lt, ← Bool.not_eq_false, or_comm, ← not_and_or]
        exact hn
      · cases h
  | thread i a =>
      simp only [step] at h
      split at h
      · cases h
      · rename_i th hi
        obtain ⟨⟨th', sbs⟩, hs, rfl⟩ := Option.map_eq_some_iff.mp h
        exact .thread hi (.of_step hs)
  | join =>
      simp only [step] at h
      split at h
      · rename_i hm
        split at h <;> cases h
        rename_i hall
        exact .join hm (List.all_eq_true.mp hall)
      · cases h
  | finish =>
      simp only [step] at h
      split at h <;> cases h
      rename_i hm
      exact .finish hm
  | interrupt =>
      cases h
      exact .interrupt
  | deliver =>
      simp only [step] at h
      split at h <;> cases h
      rename_i ha
      exact .deliver ha

theorem Step.base_eq (h : Step cfg s a t) : t.base = s.base := by
  cases h <;> rfl

/-- The backdoors the algorithms find fit a full search. -/
def Fits (s : CartesianRBSearch R) : Action R → Prop
  | .thread _ a => RBThread.Fits s.base a
  | _ => True

/-- No thread tests a list that was cut short, unless a strong backdoor has been found. -/
def Complete (s : CartesianRBSearch R) : Action R → Prop
  | .thread i a => ∀ th ∈ s.threads[i]?, th.Complete s.sbsFound a
  | _ => True

instance (s : CartesianRBSearch R) : DecidablePred (Fits s)
  | .thread _ _ => inferInstanceAs (Decidable (RBThread.Fits _ _))
  | .attach | .launch | .endLaunch | .join | .finish | .interrupt | .deliver => .isTrue trivial

instance (s : CartesianRBSearch R) : DecidablePred (Complete s)
  | .thread i a => inferInstanceAs (Decidable (∀ th ∈ s.threads[i]?, th.Complete s.sbsFound a))
  | .attach | .launch | .endLaunch | .join | .finish | .interrupt | .deliver => .isTrue trivial

/-- The threads are in order, and `find_rb` has waited for all of them. -/
structure Inv (cfg : CartesianRBSearchConfig) (s : CartesianRBSearch R) : Prop where
  threads : ∀ th ∈ s.threads, th.Ok s.base s.interrupted s.sbsFound
  launched : s.main = .joining ∨ s.main = .joined →
    s.interrupted = true ∨ cfg.numAlgorithms.toNat ≤ s.threads.length
  returned : s.main = .joined → ∀ th ∈ s.threads, th.stage.isReturned = true

theorem inv_start (base : LitVec) : (start base : CartesianRBSearch R).Inv cfg where
  threads := by simp [start]
  launched := by simp [start]
  returned := by simp [start]

/-- **Every step** keeps the threads in order. -/
theorem Inv.step (h : s.Inv cfg) (hfit : Fits s a) (hs : Step cfg s a t) : t.Inv cfg := by
  cases hs with
  | attach hm => exact { h with launched := by simp, returned := by simp }
  | launch hm =>
      refine ⟨?_, by simp [hm], by simp [hm]⟩
      intro th hth
      rcases List.mem_append.mp hth with hth | hth
      · exact h.threads th hth
      · obtain rfl := List.mem_singleton.mp hth
        exact RBThread.ok_new
  | endLaunch hm hn => exact { h with launched := fun _ => hn, returned := by simp }
  | @thread i th th' a sbs hi hth =>
      have hmem : th ∈ s.threads := List.mem_of_getElem? hi
      refine ⟨?_, ?_, ?_⟩
      · intro x hx
        rcases List.mem_or_eq_of_mem_set hx with hx | rfl
        · exact (h.threads x hx).mono id hth.sbsFound_mono
        · exact (h.threads th hmem).step hfit hth
      · simpa using h.launched
      · intro hm
        have := h.returned hm th hmem
        rw [hth.not_returned] at this
        cases this
  | join hm hall =>
      exact { h with launched := fun _ => h.launched (.inl hm), returned := fun _ => hall }
  | finish hm => exact { h with launched := by simp, returned := by simp }
  | interrupt =>
      exact ⟨fun th hth => (h.threads th hth).mono (fun _ => rfl) id, fun _ => .inl rfl, h.returned⟩
  | deliver _ =>
      exact ⟨fun th hth => (h.threads th hth).mono (fun _ => rfl) id, fun _ => .inl rfl, h.returned⟩

/-- `_sbs_found` and `RBS_SBS_FOUND` refute the base assumption. -/
structure Sound (s : CartesianRBSearch R) : Prop where
  sbsFound : s.sbsFound = true → ¬ SatisfiableUnder R.problem s.base
  result : s.main = .finished (.reason .SBS_FOUND) → ¬ SatisfiableUnder R.problem s.base

theorem sound_start (base : LitVec) : (start base : CartesianRBSearch R).Sound where
  sbsFound := by simp [start]
  result := by simp [start]

theorem findRb_eq_sbsFound (h : s.findRb cfg = .reason .SBS_FOUND) : s.sbsFound = true := by
  unfold findRb at h
  split at h
  · assumption
  · split at h <;> cases h

/-- **Every step** that does not test a list cut short keeps the verdict sound. -/
theorem Sound.step (h : s.Sound) (hinv : s.Inv cfg) (hc : Complete s a) (hs : Step cfg s a t) :
    t.Sound := by
  cases hs with
  | attach hm => exact { h with result := by simp }
  | launch hm => exact ⟨h.sbsFound, h.result⟩
  | endLaunch hm hn => exact { h with result := by simp }
  | @thread i th th' a sbs hi hth =>
      refine ⟨?_, h.result⟩
      intro hsbs
      obtain rfl : sbs = true := hsbs
      cases hf : s.sbsFound with
      | «true» => exact h.sbsFound hf
      | «false» =>
          have hok := hinv.threads th (List.mem_of_getElem? hi)
          have hcth := hc th hi
          rw [hf] at hth hok hcth
          exact hok.refutes hcth hth
  | join hm hall => exact { h with result := by simp }
  | finish hm =>
      refine ⟨h.sbsFound, ?_⟩
      intro hr
      have hr : s.findRb cfg = .reason .SBS_FOUND := by simpa using hr
      exact h.sbsFound (findRb_eq_sbsFound hr)
  | interrupt => exact ⟨h.sbsFound, h.result⟩
  | deliver _ => exact ⟨h.sbsFound, h.result⟩

end CartesianRBSearch

/-- What `SingleReduceSolve::_solve_impl` makes of a stop reason. -/
def SingleReduceSolve.onReason : RBSReason → State
  | .SBS_FOUND => .UNSAT
  | .INTERRUPTED => .UNKNOWN

open CartesianRBSearch in
/-- **`RBS_SBS_FOUND` refutes the base assumption**, and `SingleReduceSolve` answers `UNSAT` for an
unsatisfiable problem only, in every run in which the backdoors have at most 63 variables outside
the base assumption and no thread tests a list that was cut short before a strong backdoor was
found. -/
theorem findRb_sbsFound_sound (R : RProp) (cfg : CartesianRBSearchConfig) (base : LitVec)
    (as : List (Action R)) (t : CartesianRBSearch R)
    (h : Machine.exec (step cfg) (start base) as = some t)
    (hc : Machine.Throughout (step cfg) (fun s a => Fits s a ∧ Complete s a) (start base) as) :
    (t.main = .finished (.reason .SBS_FOUND) → ¬ SatisfiableUnder R.problem base) ∧
    (base = [] → ∀ r, t.main = .finished (.reason r) → SingleReduceSolve.onReason r = .UNSAT →
      ¬ Satisfiable R.problem) := by
  have hinv : t.base = base ∧ t.Inv cfg ∧ t.Sound := by
    refine Machine.exec_invariant_throughout (I := fun s => s.base = base ∧ s.Inv cfg ∧ s.Sound)
      ?_ ⟨rfl, inv_start base, sound_start base⟩ hc h
    rintro s a t ⟨hb, hi, hs⟩ ⟨hfit, hcomplete⟩ hstep
    have hstep := Step.of_step hstep
    exact ⟨hstep.base_eq.trans hb, hi.step hfit hstep, hs.step hi hcomplete hstep⟩
  obtain ⟨rfl, -, hsound⟩ := hinv
  refine ⟨hsound.result, ?_⟩
  intro hb r hr hu
  cases r with
  | SBS_FOUND =>
      rw [satisfiable_iff_under_nil, ← hb]
      exact hsound.result hr
  | INTERRUPTED => cases hu

/-! ### Runs of one thread -/

/-- An instance whose fitness was computed for its variables. -/
def Instance.computed (R : RProp) (cfg : SamplingConfig) (base : LitVec) (vars : List ℕ)
    (random : ℕ → ℕ) : Instance R where
  base := base
  vars := vars
  fit := calcFitness R.propagator R.problem R.engine cfg base vars random cfg.maxScaleSteps
    cfg.baseSamples
  evolved := ⟨cfg, .computed vars random (.inr rfl)⟩

/-- An instance whose fitness is one sample, which was refuted. -/
def Instance.sampled (R : RProp) (base : LitVec) (vars : List ℕ) : Instance R :=
  .computed R ⟨0, 1, 0, id, false⟩ base vars fun _ => 1

/-- The search has returned `RBS_SBS_FOUND`. -/
def CartesianRBSearch.sbsReturned {R : RProp} (s : CartesianRBSearch R) : Bool :=
  match s.main with
  | .finished (.reason .SBS_FOUND) => true
  | _ => false

theorem CartesianRBSearch.main_of_sbsReturned {R : RProp} {s : CartesianRBSearch R}
    (h : s.sbsReturned = true) : s.main = .finished (.reason .SBS_FOUND) := by
  unfold sbsReturned at h
  split at h
  · assumption
  · cases h

/-- `(0 ∨ 1) ∧ (0 ∨ ¬1) ∧ (¬0 ∨ 1) ∧ (¬0 ∨ ¬1)`. -/
def fourClauses : RProp where
  propagator := .saturating
  problem := [[mkLit 0 false, mkLit 1 false], [mkLit 0 false, mkLit 1 true],
    [mkLit 0 true, mkLit 1 false], [mkLit 0 true, mkLit 1 true]]
  engine := .simp

/-- The problem `(¬0 ∨ 1) ∧ (¬0 ∨ ¬1)`. -/
def twoClauses : RProp where
  propagator := .saturating
  problem := [[mkLit 0 true, mkLit 1 false], [mkLit 0 true, mkLit 1 true]]
  engine := .simp

open CartesianRBSearch RBThread in
/-- One thread refutes both assignments of `0`. -/
theorem findRb_sbsFound_fourClauses : ∃ as t,
    Machine.exec (step ⟨1, 10, 10⟩) (start [] : CartesianRBSearch fourClauses) as = some t ∧
    t.main = .finished (.reason .SBS_FOUND) ∧ ¬ Satisfiable fourClauses.problem := by
  let as : List (CartesianRBSearch.Action fourClauses) :=
    [.attach, .launch, .endLaunch, .thread 0 (.process (.sampled _ [] [0])),
      .thread 0 .readFlags, .thread 0 .inspect, .thread 0 (.visit 0), .thread 0 (.resume 0),
      .thread 0 (.visit 0), .thread 0 (.resume 0), .thread 0 .test, .thread 0 .raise, .join,
      .finish]
  have hrun : (Machine.exec (step ⟨1, 10, 10⟩) (start []) as).any sbsReturned = true := by
    decide +kernel
  obtain ⟨t, ht, hp⟩ := Machine.exists_run hrun
  have hmain := main_of_sbsReturned hp
  exact ⟨as, t, ht, hmain,
    (findRb_sbsFound_sound _ _ _ _ t ht (by decide +kernel)).2 rfl _ hmain rfl⟩

open CartesianRBSearch RBThread in
/-- The interrupt comes when one thread has refuted `0` and not looked at `¬0`: the list is empty,
and `find_rb` returns `RBS_SBS_FOUND` for a satisfiable problem. -/
theorem findRb_sbsFound_interrupted : ∃ as t,
    Machine.exec (step ⟨1, 10, 10⟩) (start [] : CartesianRBSearch twoClauses) as = some t ∧
    t.main = .finished (.reason .SBS_FOUND) ∧ SatisfiableUnder twoClauses.problem [] := by
  have hrun : (Machine.exec (step ⟨1, 10, 10⟩) (start [] : CartesianRBSearch twoClauses)
      [.attach, .launch, .endLaunch, .thread 0 (.process (.sampled _ [] [0])),
        .thread 0 .readFlags, .thread 0 .inspect, .thread 0 (.visit 0), .interrupt,
        .thread 0 (.resume 0), .thread 0 .test, .thread 0 .raise, .join,
        .finish]).any sbsReturned = true := by
    decide +kernel
  obtain ⟨t, ht, hp⟩ := Machine.exists_run hrun
  refine ⟨_, t, ht, main_of_sbsReturned hp, fun _ => false, ?_, by simp [Model.Meets]⟩
  simp [UnitProp.Satisfies, twoClauses, Lit.Holds]

end Parsat
