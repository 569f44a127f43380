import Mathlib.Data.List.Basic
import Parsat.Library.Machine

/-!
# Library — a pool of workers with futures

A caller submits tasks and waits for their values; workers, each with a state of its own, take
tasks from a queue and run them.  A task is a value of `τ` that a worker in a state of `σ` runs by
`exec : σ → τ → ρ × σ`.

`Inv` is the invariant over the tasks `ts` of one call, for workers whose states are `Good` and
give every task its value `val`: what is submitted has its future ready, or waits in the queue or
on a worker.

* `Inv.step`, `Inv.work_lt`: every step keeps it and makes the work less.
* `Inv.progress`: until the caller has its values, somebody can make a step.
* `runs`: so every schedule is bounded, none gets stuck, and the caller gets the values of its
  tasks in their order.
-/

/-- The state of one call. -/
structure TaskPool (σ τ ρ : Type*) where
  pending : List τ
  queue : List (ℕ × τ)
  workers : List (σ × Option (ℕ × τ))
  futures : List (Option ρ)
  result : Option (List ρ)

namespace TaskPool

variable {σ τ ρ : Type*}

inductive Action where
  | submit
  | take (worker : ℕ)
  | work (worker : ℕ)
  | collect

/-- The pool when the call is made. -/
def start (workers : List σ) (ts : List τ) : TaskPool σ τ ρ where
  pending := ts
  queue := []
  workers := workers.map (·, none)
  futures := []
  result := none

variable (exec : σ → τ → ρ × σ)

/-- One step: the caller submits a task or, with everything submitted and all futures ready, reads
their values; a worker takes a task or runs the one it has. -/
def step (t : TaskPool σ τ ρ) : Action → Option (TaskPool σ τ ρ)
  | .submit =>
    match t.pending with
    | [] => none
    | k :: pending =>
      some { t with
        pending
        queue := t.queue ++ [(t.futures.length, k)]
        futures := t.futures ++ [none] }
  | .take w =>
    match t.workers[w]?, t.queue with
    | some (s, none), k :: queue => some { t with queue, workers := t.workers.set w (s, some k) }
    | _, _ => none
  | .work w =>
    match t.workers[w]? with
    | some (s, some (i, k)) =>
      some { t with
        workers := t.workers.set w ((exec s k).2, none)
        futures := t.futures.set i (some (exec s k).1) }
    | _ => none
  | .collect =>
    if t.pending.isEmpty && t.result.isNone && t.futures.all Option.isSome then
      some { t with result := some (t.futures.filterMap id) }
    else none

variable {exec}

/-! ### What a step does -/

theorem step_submit {t t' : TaskPool σ τ ρ} (h : step exec t .submit = some t') :
    ∃ k pending, t.pending = k :: pending ∧
      t' = { t with
        pending
        queue := t.queue ++ [(t.futures.length, k)]
        futures := t.futures ++ [none] } := by
  simp only [step] at h
  split at h
  · cases h
  · rename_i k pending hp
    exact ⟨k, pending, hp, (Option.some.inj h).symm⟩

theorem step_take {t t' : TaskPool σ τ ρ} {w : ℕ} (h : step exec t (.take w) = some t') :
    ∃ s k queue, t.workers[w]? = some (s, none) ∧ t.queue = k :: queue ∧
      t' = { t with queue, workers := t.workers.set w (s, some k) } := by
  simp only [step] at h
  split at h
  · rename_i s k queue hw hq
    exact ⟨s, k, queue, hw, hq, (Option.some.inj h).symm⟩
  · cases h

theorem step_work {t t' : TaskPool σ τ ρ} {w : ℕ} (h : step exec t (.work w) = some t') :
    ∃ s i k, t.workers[w]? = some (s, some (i, k)) ∧
      t' = { t with
        workers := t.workers.set w ((exec s k).2, none)
        futures := t.futures.set i (some (exec s k).1) } := by
  simp only [step] at h
  split at h
  · rename_i s i k hw
    exact ⟨s, i, k, hw, (Option.some.inj h).symm⟩
  · cases h

theorem step_collect {t t' : TaskPool σ τ ρ} (h : step exec t .collect = some t') :
    t.pending = [] ∧ t.result = none ∧ (∀ f ∈ t.futures, f.isSome) ∧
      t' = { t with result := some (t.futures.filterMap id) } := by
  simp only [step] at h
  split at h
  · rename_i hc
    simp only [Bool.and_eq_true, List.isEmpty_iff, Option.isNone_iff_eq_none,
      List.all_eq_true] at hc
    exact ⟨hc.1.1, hc.1.2, hc.2, (Option.some.inj h).symm⟩
  · cases h

/-! ### The invariant -/

variable {Good : σ → Prop} {val : τ → ρ} {ts : List τ} {threads : ℕ} {t t' : TaskPool σ τ ρ}

/-- The tasks on the workers. -/
def running (t : TaskPool σ τ ρ) : List (ℕ × τ) := t.workers.filterMap Prod.snd

/-- The bookkeeping of a call with the tasks `ts` on `threads` workers. -/
structure Inv (Good : σ → Prop) (val : τ → ρ) (ts : List τ) (threads : ℕ)
    (t : TaskPool σ τ ρ) : Prop where
  length_workers : t.workers.length = threads
  good : ∀ w ∈ t.workers, Good w.1
  pending : t.pending = ts.drop t.futures.length
  bound : t.futures.length ≤ ts.length
  tasks : ∀ k ∈ t.queue ++ t.running, ts[k.1]? = some k.2
  ready : ∀ (i : ℕ) (v : ρ), t.futures[i]? = some (some v) → (ts[i]?).map val = some v
  waiting : ∀ i : ℕ, t.futures[i]? = some none → ∃ k, (i, k) ∈ t.queue ++ t.running
  result : ∀ vs, t.result = some vs → vs = ts.map val

theorem inv_start {ws : List σ} (hws : ∀ s ∈ ws, Good s) :
    (start ws ts : TaskPool σ τ ρ).Inv Good val ts ws.length where
  length_workers := List.length_map _
  good := by
    intro w hw
    obtain ⟨s, hs, rfl⟩ := List.mem_map.mp hw
    exact hws s hs
  pending := rfl
  bound := Nat.zero_le _
  tasks := by simp [start, running]
  ready := by simp [start]
  waiting := by simp [start]
  result := by simp [start]

/-- The tasks on the workers when one of them gets or loses its task. -/
theorem running_set {w : ℕ} {s : σ} {job : Option (ℕ × τ)} (hw : t.workers[w]? = some (s, job)) :
    ∃ pre post, t.running = pre ++ job.toList ++ post ∧
      ∀ (s' : σ) (job' : Option (ℕ × τ)),
        (t.workers.set w (s', job')).filterMap Prod.snd = pre ++ job'.toList ++ post := by
  obtain ⟨pre, post, hl, hset⟩ := Machine.exists_split hw
  have hsnd : ∀ (s' : σ) (job' : Option (ℕ × τ)),
      (pre ++ (s', job') :: post).filterMap Prod.snd =
        pre.filterMap Prod.snd ++ job'.toList ++ post.filterMap Prod.snd := fun s' job' => by
    cases job' <;> simp
  refine ⟨pre.filterMap Prod.snd, post.filterMap Prod.snd, ?_, ?_⟩
  · rw [running, hl, hsnd]
  · intro s' job'
    rw [hset, hsnd]

theorem good_set {w : ℕ} {s : σ} {job : Option (ℕ × τ)} (hg : ∀ x ∈ t.workers, Good x.1)
    (hs : Good s) : ∀ x ∈ t.workers.set w (s, job), Good x.1 := by
  intro x hx
  rcases List.mem_or_eq_of_mem_set hx with hx | rfl
  · exact hg x hx
  · exact hs

theorem Inv.submit (h : t.Inv Good val ts threads) (hs : step exec t .submit = some t') :
    t'.Inv Good val ts threads := by
  obtain ⟨k, pending, hp, rfl⟩ := step_submit hs
  have hdrop := h.pending.symm.trans hp
  have hget : ts[t.futures.length]? = some k := by
    rw [← List.head?_drop, hdrop, List.head?_cons]
  have hlt : t.futures.length < ts.length := (List.getElem?_eq_some_iff.mp hget).1
  refine { h with pending := ?_, bound := ?_, tasks := ?_, ready := ?_, waiting := ?_ }
  · rw [List.length_append, List.length_singleton, ← List.drop_drop, hdrop]
    rfl
  · rw [List.length_append, List.length_singleton]
    exact hlt
  · intro x hx
    simp only [List.append_assoc, List.mem_append, List.mem_singleton] at hx
    rcases hx with hx | rfl | hx
    · exact h.tasks x (List.mem_append_left _ hx)
    · exact hget
    · exact h.tasks x (List.mem_append_right _ hx)
  · intro i v hv
    rw [List.getElem?_append] at hv
    split at hv
    · exact h.ready i v hv
    · simp [List.getElem?_singleton] at hv
  · intro i hi
    simp only [List.append_assoc, List.mem_append, List.mem_singleton]
    rw [List.getElem?_append] at hi
    split at hi
    · obtain ⟨k', hk'⟩ := h.waiting i hi
      rcases List.mem_append.mp hk' with hk' | hk'
      · exact ⟨k', .inl hk'⟩
      · exact ⟨k', .inr (.inr hk')⟩
    · rename_i hn
      rw [List.getElem?_singleton] at hi
      split at hi
      · have : i = t.futures.length := by omega
        exact ⟨k, .inr (.inl (by rw [this]))⟩
      · cases hi

theorem Inv.take {w : ℕ} (h : t.Inv Good val ts threads)
    (hs : step exec t (.take w) = some t') : t'.Inv Good val ts threads := by
  obtain ⟨s, k, queue, hw, hq, rfl⟩ := step_take hs
  obtain ⟨pre, post, hrun, hset⟩ := running_set hw
  -- the task only changes places
  have hmem : ∀ x, x ∈ queue ++ (t.workers.set w (s, some k)).filterMap Prod.snd ↔
      x ∈ t.queue ++ t.running := fun x => by
    rw [hset, hrun, hq]
    simp only [List.mem_append, List.mem_cons, Option.toList_some, Option.toList_none,
      List.not_mem_nil]
    tauto
  refine { h with
    length_workers := by rw [List.length_set]; exact h.length_workers
    good := good_set h.good (h.good _ (List.mem_of_getElem? hw))
    tasks := fun x hx => h.tasks x ((hmem x).mp hx)
    waiting := ?_ }
  intro i hi
  obtain ⟨k', hk'⟩ := h.waiting i hi
  exact ⟨k', (hmem _).mpr hk'⟩

theorem Inv.work {w : ℕ}
    (hexec : ∀ s, Good s → ∀ k ∈ ts, (exec s k).1 = val k ∧ Good (exec s k).2)
    (h : t.Inv Good val ts threads) (hs : step exec t (.work w) = some t') :
    t'.Inv Good val ts threads := by
  obtain ⟨s, i, k, hw, rfl⟩ := step_work hs
  obtain ⟨pre, post, hrun, hset⟩ := running_set hw
  -- the task leaves its worker, and no other one moves
  have hmem : ∀ x, x ∈ t.queue ++ t.running ↔
      x = (i, k) ∨ x ∈ t.queue ++ (t.workers.set w ((exec s k).2, none)).filterMap Prod.snd :=
    fun x => by
    rw [hset, hrun]
    simp only [List.mem_append, List.mem_singleton, Option.toList_some, Option.toList_none,
      List.not_mem_nil]
    tauto
  have hk : ts[i]? = some k := h.tasks (i, k) ((hmem _).mpr (.inl rfl))
  obtain ⟨hval, hgood⟩ := hexec s (h.good _ (List.mem_of_getElem? hw)) k (List.mem_of_getElem? hk)
  refine { h with
    length_workers := by rw [List.length_set]; exact h.length_workers
    good := good_set h.good hgood
    pending := by rw [List.length_set]; exact h.pending
    bound := by rw [List.length_set]; exact h.bound
    tasks := fun x hx => h.tasks x ((hmem x).mpr (.inr hx))
    ready := ?_
    waiting := ?_ }
  · intro j v hv
    rw [List.getElem?_set] at hv
    split at hv
    · rename_i hij
      subst hij
      split at hv
      · rw [hk, Option.map_some, ← hval]
        exact Option.some.inj hv
      · cases hv
    · exact h.ready j v hv
  · intro j hj
    rw [List.getElem?_set] at hj
    split at hj
    · split at hj <;> cases hj
    · rename_i hij
      obtain ⟨k', hk'⟩ := h.waiting j hj
      refine ⟨k', ((hmem _).mp hk').resolve_left ?_⟩
      intro e
      exact hij (congrArg Prod.fst e).symm

theorem Inv.collect (h : t.Inv Good val ts threads) (hs : step exec t .collect = some t') :
    t'.Inv Good val ts threads := by
  obtain ⟨hp, -, hsome, rfl⟩ := step_collect hs
  refine { h with result := ?_ }
  rintro _ ⟨⟩
  have hlen : t.futures.length = ts.length :=
    Nat.le_antisymm h.bound (List.drop_eq_nil_iff.mp (h.pending.symm.trans hp))
  -- every future has the value of its task, so they are read in the order of the tasks
  have hfut : t.futures = ts.map fun k => some (val k) := by
    refine List.ext_getElem? fun i => ?_
    rw [List.getElem?_map]
    cases hi : t.futures[i]? with
    | none =>
        rw [List.getElem?_eq_none_iff, hlen, ← List.getElem?_eq_none_iff] at hi
        rw [hi, Option.map_none]
    | some f =>
        obtain ⟨v, rfl⟩ := Option.isSome_iff_exists.mp (hsome f (List.mem_of_getElem? hi))
        obtain ⟨k, hk, hv⟩ := Option.map_eq_some_iff.mp (h.ready i v hi)
        rw [hk, Option.map_some, hv]
  rw [hfut, List.filterMap_map]
  exact congrFun List.filterMap_eq_map ts

/-- **Every step keeps the bookkeeping.** -/
theorem Inv.step (hexec : ∀ s, Good s → ∀ k ∈ ts, (exec s k).1 = val k ∧ Good (exec s k).2)
    (h : t.Inv Good val ts threads) {a : Action} (hs : TaskPool.step exec t a = some t') :
    t'.Inv Good val ts threads := by
  cases a with
  | submit => exact h.submit hs
  | take w => exact h.take hs
  | work w => exact h.work hexec hs
  | collect => exact h.collect hs

/-! ### Every schedule ends -/

/-- What is left to do: three steps for a task that is not submitted, two for one in the queue, one
for one on a worker, and one to read the values. -/
def work (t : TaskPool σ τ ρ) : ℕ :=
  3 * t.pending.length + 2 * t.queue.length + t.running.length + if t.result.isNone then 1 else 0

theorem work_lt {a : Action} (hs : step exec t a = some t') : t'.work < t.work := by
  cases a with
  | submit =>
      obtain ⟨k, pending, hp, rfl⟩ := step_submit hs
      simp only [work, running, hp, List.length_cons, List.length_append, List.length_nil]
      omega
  | take w =>
      obtain ⟨s, k, queue, hw, hq, rfl⟩ := step_take hs
      obtain ⟨pre, post, hrun, hset⟩ := running_set hw
      simp only [work, hrun, hq, List.length_cons, List.length_append, Option.toList_none,
        List.length_nil]
      simp only [running, hset, List.length_append, Option.toList_some, List.length_singleton]
      omega
  | work w =>
      obtain ⟨s, i, k, hw, rfl⟩ := step_work hs
      obtain ⟨pre, post, hrun, hset⟩ := running_set hw
      simp only [work, hrun, List.length_append, Option.toList_some, List.length_singleton]
      simp only [running, hset, List.length_append, Option.toList_none, List.length_nil]
      omega
  | collect =>
      obtain ⟨-, hr, -, rfl⟩ := step_collect hs
      simp [work, running, hr]

/-- **Progress**: until the caller has its values, somebody can make a step. -/
theorem Inv.progress (h : t.Inv Good val ts threads) (hthreads : 0 < threads)
    (hr : t.result = none) : ∃ a, (TaskPool.step exec t a).isSome := by
  by_cases hp : t.pending = []
  swap
  · obtain ⟨k, pending, hp⟩ := List.exists_cons_of_ne_nil hp
    exact ⟨.submit, by simp [TaskPool.step, hp]⟩
  by_cases hrun : t.running = []
  swap
  · obtain ⟨⟨i, k⟩, rest, hrun⟩ := List.exists_cons_of_ne_nil hrun
    have hmem : (i, k) ∈ t.running := by rw [hrun]; exact List.mem_cons_self
    obtain ⟨⟨s, job⟩, hs, rfl⟩ := List.mem_filterMap.mp hmem
    obtain ⟨w, hw⟩ := List.getElem?_of_mem hs
    exact ⟨.work w, by simp [TaskPool.step, hw]⟩
  by_cases hq : t.queue = []
  · have hsome : ∀ f ∈ t.futures, f.isSome := by
      intro f hf
      obtain ⟨i, hi⟩ := List.getElem?_of_mem hf
      cases f with
      | none =>
          obtain ⟨k, hk⟩ := h.waiting i hi
          simp [hq, hrun] at hk
      | some v => rfl
    exact ⟨.collect, by simpa [TaskPool.step, hp, hr] using hsome⟩
  · obtain ⟨k, queue, hq⟩ := List.exists_cons_of_ne_nil hq
    have hlen := h.length_workers
    obtain ⟨⟨s, job⟩, ws, hws⟩ := List.exists_cons_of_length_pos (hlen ▸ hthreads)
    cases job with
    | none => exact ⟨.take 0, by simp [TaskPool.step, hws, hq]⟩
    | some k' => simp [running, hws] at hrun

/-- **Runs of the pool.**  Every schedule is bounded, none gets stuck before the caller has its
values, and these are the values of the tasks. -/
theorem runs (hexec : ∀ s, Good s → ∀ k ∈ ts, (exec s k).1 = val k ∧ Good (exec s k).2)
    {ws : List σ} (hws : ∀ s ∈ ws, Good s) (hpos : 0 < ws.length) {as : List Action}
    (h : Machine.exec (step exec) (start ws ts) as = some t) :
    as.length ≤ 3 * ts.length + 1 ∧
      (t.result = none → ∃ a, (step exec t a).isSome) ∧
      ∀ vs, t.result = some vs → vs = ts.map val := by
  have h₀ : (start ws ts : TaskPool σ τ ρ).Inv Good val ts ws.length := inv_start hws
  have hstep := fun (t : TaskPool σ τ ρ) a t' (hi : t.Inv Good val ts ws.length)
    (hs : step exec t a = some t') => hi.step hexec hs
  have hinv := Machine.exec_invariant hstep h₀ h
  have hlen := Machine.exec_length_le (μ := work) hstep (fun t a t' _ hs => work_lt hs) h₀ h
  have hwork : (start ws ts : TaskPool σ τ ρ).work = 3 * ts.length + 1 := by
    have hidle : (ws.map fun s => (s, (none : Option (ℕ × τ)))).filterMap Prod.snd = [] := by
      rw [List.filterMap_eq_nil_iff]
      intro x hx
      obtain ⟨s, -, rfl⟩ := List.mem_map.mp hx
      rfl
    simp [work, start, running, hidle]
  refine ⟨by omega, hinv.progress hpos, hinv.result⟩

end TaskPool
