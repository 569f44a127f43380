import Mathlib.Data.Int.Order.Basic
import Mathlib.Data.List.Count
import Mathlib.Data.List.Nodup
import Parsat.Library.Machine
import Parsat.Library.OrderedSet

/-!
# Solve — the timer

`util::Timer` keeps its events in a `std::set` whose order looks at the deadlines only, and one
thread runs the callbacks of those that have expired.  The thread holds the mutex while it goes
through the set, so `add` waits for the end of a pass; a handle can be aborted at any time, also
between the test of its flag and the callback.

An event with the deadline of another one that is still in the set is not inserted, and nothing says
so: its callback never runs (`timer_events_kept_iff`).
-/

namespace Parsat

namespace Timer

/-- `TimerEvent`: the deadline, whether there is a callback, and the number of its handle. -/
structure Event where
  when : ℤ
  callback : Bool
  handle : ℕ
  deriving DecidableEq

/-- Where the thread is: outside of the loop over the events, at its condition, or in its body
before the test of `aborted`, the callback or `erase`; in the first two of these with the time it
has read. -/
inductive Phase where
  | waiting
  | looping
  | expired (now : ℤ)
  | calling (now : ℤ)
  | erasing
  deriving DecidableEq

/-- The timer, with the events that `add` was called for and the callbacks that ran, at the time the
thread has read. -/
structure State where
  events : List Event
  phase : Phase
  aborted : List ℕ
  added : List Event
  runs : List (ℕ × ℤ)
  deriving DecidableEq

def start : State := ⟨[], .waiting, [], [], []⟩

/-- A step of the thread. -/
inductive Pass where
  | wake
  | check (now : ℤ)
  | test
  | call
  | erase

inductive Action where
  | add (when : ℤ) (callback : Bool)
  | abort (handle : ℕ)
  | pass (p : Pass)

/-- The thread.  The loop erases the first event or ends, so its iterator is always `begin()`. -/
def thread (t : State) : Pass → Option State
  | .wake => if t.phase = .waiting then some { t with phase := .looping } else none
  | .check now =>
    match t.phase, t.events with
    | .looping, [] => some { t with phase := .waiting }
    | .looping, e :: _ => some { t with phase := if e.when ≤ now then .expired now else .waiting }
    | _, _ => none
  | .test =>
    match t.phase, t.events with
    | .expired now, e :: _ => some { t with
        phase := if e.handle ∉ t.aborted ∧ e.callback then .calling now else .erasing }
    | _, _ => none
  | .call =>
    match t.phase, t.events with
    | .calling now, e :: _ => some { t with
        phase := .erasing
        runs := t.runs ++ [(e.handle, now)] }
    | _, _ => none
  | .erase =>
    match t.phase, t.events with
    | .erasing, _ :: events => some { t with events, phase := .looping }
    | _, _ => none

/-- `add` inserts, `abort` sets the flag, the thread goes on. -/
def step (t : State) : Action → Option State
  | .add w callback =>
    let e : Event := ⟨w, callback, t.added.length⟩
    if t.phase = .waiting then
      some { t with
        events := OrderedSet.insertBy Event.when e t.events
        added := t.added ++ [e] }
    else none
  | .abort handle =>
    if handle < t.added.length then some { t with aborted := handle :: t.aborted } else none
  | .pass p => thread t p

namespace State

/-- How often the callback of the event ran. -/
def runCount (t : State) (e : Event) : ℕ := (t.runs.map Prod.fst).count e.handle

/-- Every event with a callback is in the set or has run exactly once, unless it was aborted. -/
def Kept (t : State) : Prop := ∀ e ∈ t.added, e.callback = true → e.handle ∉ t.aborted →
  e ∈ t.events ∧ t.runCount e = 0 ∨ t.runCount e = 1

instance (t : State) : Decidable t.Kept :=
  inferInstanceAs (Decidable (∀ e ∈ t.added, _ = _ → _ ∉ _ → _ ∧ _ = _ ∨ _ = _))

/-- No callback ran before its deadline. -/
def OnTime (t : State) : Prop := ∀ r ∈ t.runs, ∀ e ∈ t.added, e.handle = r.1 → e.when ≤ r.2

/-- What holds in every run. -/
structure Inv (t : State) : Prop where
  sorted : t.events.Pairwise fun x y => x.when < y.when
  mem_added : ∀ e ∈ t.events, e ∈ t.added
  handles : t.added.map Event.handle = List.range t.added.length
  aborted_lt : ∀ i ∈ t.aborted, i < t.added.length
  runs_added : ∀ r ∈ t.runs, ∃ e ∈ t.added, e.handle = r.1 ∧ e.callback = true ∧ e.when ≤ r.2
  runs_nodup : (t.runs.map Prod.fst).Nodup
  runs_pending : ∀ e ∈ t.events, e.handle ∈ t.runs.map Prod.fst →
    t.phase = .erasing ∧ t.events.head? = some e
  expired : ∀ now, t.phase = .expired now → ∀ e ∈ t.events.head?, e.when ≤ now
  calling : ∀ now, t.phase = .calling now → ∀ e ∈ t.events.head?, e.when ≤ now ∧ e.callback = true
  erasing : t.phase = .erasing → ∀ e ∈ t.events.head?,
    e.handle ∈ t.runs.map Prod.fst ∨ e.handle ∈ t.aborted ∨ e.callback = false

end State

/-- The deadline of an event with a callback is not the one of an event in the set. -/
def NewDeadline (t : State) : Action → Prop
  | .add w callback => callback = true → ∀ e ∈ t.events, e.when ≠ w
  | _ => True

instance (t : State) (a : Action) : Decidable (NewDeadline t a) :=
  match a with
  | .add w callback => inferInstanceAs (Decidable (callback = true → ∀ e ∈ t.events, e.when ≠ w))
  | .abort _ | .pass _ => .isTrue trivial

variable {t u : State} {a : Action} {p : Pass} {e : Event} {w : ℤ} {callback : Bool}

/-! ### The invariant -/

theorem State.Inv.eq_of_handle (h : t.Inv) {e e' : Event} (he : e ∈ t.added) (he' : e' ∈ t.added)
    (heq : e.handle = e'.handle) : e = e' :=
  List.inj_on_of_nodup_map (h.handles ▸ List.nodup_range) he he' heq

theorem State.Inv.handle_lt (h : t.Inv) (he : e ∈ t.added) : e.handle < t.added.length :=
  List.mem_range.mp (h.handles ▸ List.mem_map_of_mem he)

theorem State.Inv.run_lt (h : t.Inv) {i : ℕ} (hi : i ∈ t.runs.map Prod.fst) :
    i < t.added.length := by
  obtain ⟨r, hr, rfl⟩ := List.mem_map.mp hi
  obtain ⟨e, he, heq, -⟩ := h.runs_added r hr
  exact heq ▸ h.handle_lt he

theorem inv_start : start.Inv where
  sorted := List.Pairwise.nil
  mem_added := by simp [start]
  handles := rfl
  aborted_lt := by simp [start]
  runs_added := by simp [start]
  runs_nodup := List.nodup_nil
  runs_pending := by simp [start]
  expired := by simp [start]
  calling := by simp [start]
  erasing := by simp [start]

/-- What the thread can do. -/
theorem thread_cases (h : thread t p = some u) :
    (p = .wake ∧ t.phase = .waiting ∧ u = { t with phase := .looping }) ∨
    (∃ now, p = .check now ∧ t.phase = .looping ∧
      (u = { t with phase := .waiting } ∨
        ∃ e, t.events.head? = some e ∧ e.when ≤ now ∧ u = { t with phase := .expired now })) ∨
    (∃ now e, p = .test ∧ t.phase = .expired now ∧ t.events.head? = some e ∧
      (e.handle ∉ t.aborted ∧ e.callback = true ∧ u = { t with phase := .calling now } ∨
        (e.handle ∈ t.aborted ∨ e.callback = false) ∧ u = { t with phase := .erasing })) ∨
    (∃ now e, p = .call ∧ t.phase = .calling now ∧ t.events.head? = some e ∧
      u = { t with phase := .erasing, runs := t.runs ++ [(e.handle, now)] }) ∨
    (∃ e events, p = .erase ∧ t.phase = .erasing ∧ t.events = e :: events ∧
      u = { t with events, phase := .looping }) := by
  obtain ⟨events, phase, aborted, added, runs⟩ := t
  cases p with
  | wake =>
      simp only [thread] at h
      split at h
      · exact .inl ⟨rfl, ‹_›, (Option.some.inj h).symm⟩
      · cases h
  | check now =>
      simp only [thread] at h
      split at h
      · exact .inr (.inl ⟨now, rfl, rfl, .inl (Option.some.inj h).symm⟩)
      · rename_i e _
        refine .inr (.inl ⟨now, rfl, rfl, ?_⟩)
        split at h
        · exact .inr ⟨e, rfl, ‹_›, (Option.some.inj h).symm⟩
        · exact .inl (Option.some.inj h).symm
      · cases h
  | test =>
      simp only [thread] at h
      split at h
      · rename_i now e _
        refine .inr (.inr (.inl ⟨now, e, rfl, rfl, rfl, ?_⟩))
        split at h
        · rename_i hc
          exact .inl ⟨hc.1, hc.2, (Option.some.inj h).symm⟩
        · rename_i hc
          refine .inr ⟨?_, (Option.some.inj h).symm⟩
          rw [not_and_or, not_not, Bool.not_eq_true] at hc
          exact hc
      · cases h
  | call =>
      simp only [thread] at h
      split at h
      · exact .inr (.inr (.inr (.inl ⟨_, _, rfl, rfl, rfl, (Option.some.inj h).symm⟩)))
      · cases h
  | erase =>
      simp only [thread] at h
      split at h
      · exact .inr (.inr (.inr (.inr ⟨_, _, rfl, rfl, rfl, (Option.some.inj h).symm⟩)))
      · cases h

theorem State.Inv.of_head (h : t.Inv) (he : t.events.head? = some e) : e ∈ t.added :=
  h.mem_added e (List.mem_of_mem_head? he)

/-- What is in the set has not run, unless it is about to be erased. -/
theorem State.Inv.not_run (h : t.Inv) (hp : t.phase ≠ .erasing) (he : e ∈ t.events) :
    e.handle ∉ t.runs.map Prod.fst :=
  fun hr => hp (h.runs_pending e he hr).1

/-- Steps of the thread that change neither the set nor the runs. -/
theorem State.Inv.move (h : t.Inv) (hp : t.phase ≠ .erasing) (phase : Phase)
    (expired : ∀ now, phase = .expired now → ∀ e ∈ t.events.head?, e.when ≤ now)
    (calling : ∀ now, phase = .calling now → ∀ e ∈ t.events.head?,
      e.when ≤ now ∧ e.callback = true)
    (erasing : phase = .erasing → ∀ e ∈ t.events.head?,
      e.handle ∈ t.runs.map Prod.fst ∨ e.handle ∈ t.aborted ∨ e.callback = false) :
    State.Inv { t with phase } :=
  { h with
    runs_pending := fun _ he hr => absurd hr (h.not_run hp he)
    expired
    calling
    erasing }

/-- The thread keeps the invariant. -/
theorem State.Inv.thread (h : t.Inv) (hs : thread t p = some u) : u.Inv := by
  rcases thread_cases hs with ⟨-, hp, rfl⟩ | ⟨now, -, hp, rfl | ⟨e, he, hle, rfl⟩⟩ |
    ⟨now, e, -, hp, he, ⟨-, hcb, rfl⟩ | ⟨hskip, rfl⟩⟩ | ⟨now, e, -, hp, he, rfl⟩ |
    ⟨e, events, -, hp, he, rfl⟩
  · exact h.move (by simp [hp]) _ (by simp) (by simp) (by simp)
  · exact h.move (by simp [hp]) _ (by simp) (by simp) (by simp)
  · refine h.move (by simp [hp]) _ ?_ (by simp) (by simp)
    rintro now' hnow e' he'
    cases hnow
    cases he.symm.trans he'
    exact hle
  · refine h.move (by simp [hp]) _ (by simp) ?_ (by simp)
    rintro now' hnow e' he'
    cases hnow
    cases he.symm.trans he'
    exact ⟨h.expired now hp e he, hcb⟩
  · refine h.move (by simp [hp]) _ (by simp) (by simp) ?_
    rintro - e' he'
    cases he.symm.trans he'
    exact .inr hskip
  · -- the callback runs, for the first time
    have hnot := h.not_run (by simp [hp]) (List.mem_of_mem_head? he)
    obtain ⟨hle, hcb⟩ := h.calling now hp e he
    refine { h with
      runs_added := ?_, runs_nodup := ?_, runs_pending := ?_, expired := by simp
      calling := by simp, erasing := ?_ }
    · intro r hr
      rcases List.mem_append.mp hr with hr | hr
      · exact h.runs_added r hr
      · obtain rfl := List.mem_singleton.mp hr
        exact ⟨e, h.of_head he, rfl, hcb, hle⟩
    · rw [List.map_append]
      refine h.runs_nodup.append (List.nodup_singleton _) ?_
      simpa using hnot
    · intro e' he' hr
      refine ⟨rfl, ?_⟩
      rw [List.map_append] at hr
      rcases List.mem_append.mp hr with hr | hr
      · exact absurd hr (h.not_run (by simp [hp]) he')
      · rw [h.eq_of_handle (h.mem_added e' he') (h.of_head he) (List.mem_singleton.mp hr)]
        exact he
    · rintro - e' he'
      cases he.symm.trans he'
      exact .inl (by simp)
  · -- the first event goes
    have hsorted := h.sorted
    rw [he] at hsorted
    refine { h with
      sorted := hsorted.of_cons
      mem_added := fun e' he' => h.mem_added e' (he ▸ List.mem_cons_of_mem e he')
      runs_pending := ?_, expired := by simp, calling := by simp, erasing := by simp }
    intro e' he' hr
    have hhead := (h.runs_pending e' (he ▸ List.mem_cons_of_mem e he') hr).2
    rw [he] at hhead
    cases hhead
    exact absurd ((List.pairwise_cons.mp hsorted).1 _ he') (lt_irrefl _)

/-- So do `add` and `abort`. -/
theorem State.Inv.step (h : t.Inv) (hs : step t a = some u) : u.Inv := by
  cases a with
  | add w callback =>
      simp only [Timer.step] at hs
      split at hs
      · rename_i hp
        cases hs
        refine {
          sorted := OrderedSet.pairwise_insertBy h.sorted
          mem_added := ?_
          handles := by simp [h.handles, List.range_succ]
          aborted_lt := ?_, runs_added := ?_
          runs_nodup := h.runs_nodup
          runs_pending := ?_, expired := by simp [hp], calling := by simp [hp]
          erasing := by simp [hp] }
        · intro e he
          rcases OrderedSet.of_mem_insertBy he with rfl | he
          · exact List.mem_append_right _ (List.mem_singleton_self _)
          · exact List.mem_append_left _ (h.mem_added e he)
        · intro i hi
          rw [List.length_append]
          exact Nat.lt_add_right _ (h.aborted_lt i hi)
        · intro r hr
          obtain ⟨e, he, hrest⟩ := h.runs_added r hr
          exact ⟨e, List.mem_append_left _ he, hrest⟩
        · intro e he hr
          rcases OrderedSet.of_mem_insertBy he with rfl | he
          · exact absurd (h.run_lt hr) (Nat.lt_irrefl _)
          · exact absurd hr (h.not_run (by simp [hp]) he)
      · cases hs
  | abort handle =>
      simp only [Timer.step] at hs
      split at hs
      · rename_i hlt
        cases hs
        refine { h with aborted_lt := List.forall_mem_cons.mpr ⟨hlt, h.aborted_lt⟩, erasing := ?_ }
        intro hp e he
        have := h.erasing hp e he
        exact this.imp_right (Or.imp_left (List.mem_cons_of_mem _))
      · cases hs
  | pass p => exact h.thread hs

/-- A run never has its callback run before the deadline. -/
theorem State.Inv.onTime (h : t.Inv) : t.OnTime := by
  intro r hr e he heq
  obtain ⟨e', he', heq', -, hle⟩ := h.runs_added r hr
  rwa [h.eq_of_handle he he' (heq.trans heq'.symm)]

/-! ### What is kept -/

theorem State.Inv.runCount_eq_zero (h : t.Inv) (hp : t.phase ≠ .erasing) (he : e ∈ t.events) :
    t.runCount e = 0 :=
  List.count_eq_zero.mpr (h.not_run hp he)

/-- The thread loses nothing. -/
theorem State.Inv.kept_thread (h : t.Inv) (hk : t.Kept) (hs : Timer.thread t p = some u) :
    u.Kept := by
  rcases thread_cases hs with ⟨-, -, rfl⟩ | ⟨-, -, -, rfl | ⟨-, -, -, rfl⟩⟩ |
    ⟨-, -, -, -, -, ⟨-, -, rfl⟩ | ⟨-, rfl⟩⟩ | ⟨now, e₀, -, hp, he₀, rfl⟩ |
    ⟨e₀, events, -, hp, he₀, rfl⟩
  · exact hk
  · exact hk
  · exact hk
  · exact hk
  · exact hk
  · intro e he hcb hab
    -- the callback of the first event runs: one run more for its handle only
    have hcount : State.runCount { t with
        phase := .erasing, runs := t.runs ++ [(e₀.handle, now)] } e =
          t.runCount e + if e₀.handle = e.handle then 1 else 0 := by
      simp [State.runCount, List.count_singleton, List.count_append]
    rw [hcount]
    by_cases heq : e₀.handle = e.handle
    · obtain rfl := h.eq_of_handle (h.of_head he₀) he heq
      rw [h.runCount_eq_zero (by simp [hp]) (List.mem_of_mem_head? he₀), if_pos rfl]
      exact .inr rfl
    · rw [if_neg heq]
      exact hk e he hcb hab
  · intro e he hcb hab
    refine (hk e he hcb hab).imp_left ?_
    rintro ⟨hmem, hzero⟩
    rw [he₀] at hmem
    refine ⟨(List.mem_cons.mp hmem).resolve_left ?_, hzero⟩
    rintro rfl
    rcases h.erasing hp e (by rw [he₀]; rfl) with hrun | hab' | hcb'
    · exact List.count_eq_zero.mp hzero hrun
    · exact hab hab'
    · exact Bool.false_ne_true (hcb'.symm.trans hcb)

/-- An event with a new deadline is kept. -/
theorem State.Inv.kept (h : t.Inv) (hk : t.Kept) (hn : NewDeadline t a)
    (hs : Timer.step t a = some u) : u.Kept := by
  cases a with
  | add w callback =>
      simp only [Timer.step] at hs
      split at hs
      · cases hs
        intro e he hcb hab
        rcases List.mem_append.mp he with he | he
        · exact (hk e he hcb hab).imp_left (And.imp_left OrderedSet.mem_insertBy_of_mem)
        · obtain rfl := List.mem_singleton.mp he
          exact .inl ⟨OrderedSet.mem_insertBy_self (hn hcb),
            List.count_eq_zero.mpr fun hr => Nat.lt_irrefl _ (h.run_lt hr)⟩
      · cases hs
  | abort handle =>
      simp only [Timer.step] at hs
      split at hs
      · cases hs
        exact fun e he hcb hab => hk e he hcb fun hmem => hab (List.mem_cons_of_mem _ hmem)
      · cases hs
  | pass p => exact h.kept_thread hk hs

/-- An event with a callback and the deadline of another one is lost at once. -/
theorem State.Inv.not_kept (h : t.Inv) (hn : ¬ NewDeadline t a) (hs : Timer.step t a = some u) :
    ¬ u.Kept := by
  cases a with
  | add w callback =>
      simp only [Timer.step] at hs
      split at hs
      · cases hs
        simp only [NewDeadline, not_forall, not_not] at hn
        obtain ⟨hcb, e, he, rfl⟩ := hn
        intro hk
        set new : Event := ⟨e.when, callback, t.added.length⟩ with hnew
        have hab : new.handle ∉ t.aborted := fun hmem => Nat.lt_irrefl _ (h.aborted_lt _ hmem)
        -- the set has the deadline already, so the new event is not inserted
        have hsame : OrderedSet.insertBy Event.when new t.events = t.events :=
          OrderedSet.insertBy_eq_self h.sorted he rfl
        rcases hk new (List.mem_append_right _ (List.mem_singleton_self _)) hcb hab with
          ⟨hmem, -⟩ | hone
        · simp only [hsame] at hmem
          exact Nat.lt_irrefl _ (h.handle_lt (h.mem_added _ hmem))
        · have hpos : 0 < (t.runs.map Prod.fst).count new.handle := Nat.lt_of_lt_of_eq Nat.one_pos
            hone.symm
          exact Nat.lt_irrefl _ (h.run_lt (List.count_pos_iff.mp hpos))
      · cases hs
  | abort | pass => exact absurd trivial hn

end Timer

open Timer in
/-- **Timer events.**  In any run of the timer, no callback runs before its deadline; and in every
state of the run each event with a callback that was not aborted is in the set or has run exactly
once, if and only if no such event was added with the deadline of one in the set. -/
theorem timer_events_kept_iff (as : List Timer.Action) (t : Timer.State)
    (h : Machine.exec Timer.step Timer.start as = some t) :
    (∀ bs u, bs <+: as → Machine.exec Timer.step Timer.start bs = some u → u.OnTime) ∧
    ((∀ bs u, bs <+: as → Machine.exec Timer.step Timer.start bs = some u → u.Kept) ↔
      Machine.Throughout Timer.step NewDeadline Timer.start as) := by
  have hinv := fun bs u (hu : Machine.exec Timer.step Timer.start bs = some u) =>
    Machine.exec_invariant (fun _ _ _ hi hs => State.Inv.step hi hs) inv_start hu
  refine ⟨fun bs u _ hu => (hinv bs u hu).onTime, ?_, ?_⟩
  · intro hkept
    refine Machine.throughout_of_prefixes fun bs u hu a ha => ?_
    obtain ⟨v, hv⟩ := Machine.exec_of_prefix h ha
    obtain ⟨u', hu', hstep⟩ := Machine.exec_concat.mp hv
    cases hu.symm.trans hu'
    by_contra hn
    exact (hinv bs u hu).not_kept hn hstep (hkept _ v ha hv)
  · intro hC bs u hb hu
    have := Machine.exec_invariant_throughout
      (fun _ _ _ (hi : State.Inv _ ∧ State.Kept _) hc hs =>
        ⟨hi.1.step hs, hi.1.kept hi.2 hc hs⟩)
      ⟨inv_start, by simp [State.Kept, start]⟩ (hC.of_prefix hb) hu
    exact this.2

/-- Two events with the deadline 5: at the time 6 the first one has its callback run, and of the
second one nothing is left. -/
theorem timer_event_lost : ∃ as t, Machine.exec Timer.step Timer.start as = some t ∧ ¬ t.Kept ∧
    t.events = [] ∧ t.aborted = [] ∧ t.runs = [(0, 6)] := by
  have hrun : (Machine.exec Timer.step Timer.start [.add 5 true, .add 5 true, .pass .wake,
      .pass (.check 6), .pass .test, .pass .call, .pass .erase, .pass (.check 6)]).any
        (fun t => ¬ t.Kept ∧ t.events = [] ∧ t.aborted = [] ∧ t.runs = [(0, 6)]) = true := by
    decide +kernel
  obtain ⟨t, ht, hp⟩ := Machine.exists_run hrun
  exact ⟨_, t, ht, of_decide_eq_true hp⟩

/-- With different deadlines, the later one added first, the callback of the earlier one has run and
the other one is still in the set. -/
theorem timer_events_kept_two : ∃ as t, Machine.exec Timer.step Timer.start as = some t ∧ t.Kept ∧
    t.OnTime ∧ t.runs = [(1, 6)] := by
  have hrun : (Machine.exec Timer.step Timer.start [.add 7 true, .add 5 true, .pass .wake,
      .pass (.check 6), .pass .test, .pass .call, .pass .erase, .pass (.check 6)]).any
        (fun t => t.runs = [(1, 6)]) = true := by
    decide +kernel
  obtain ⟨t, ht, hp⟩ := Machine.exists_run hrun
  have hkept := timer_events_kept_iff _ t ht
  refine ⟨_, t, ht, ?_, hkept.1 _ t List.prefix_rfl ht, of_decide_eq_true hp⟩
  exact hkept.2.mpr (by decide +kernel) _ t List.prefix_rfl ht

end Parsat
