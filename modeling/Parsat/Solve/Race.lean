import Parsat.Solve.Portfolio

/-!
# Solve — who stops the members of a portfolio

The threads of `PortfolioSolve::solve` once more, this time with what `interrupt()` does to the
members: it sets the flag of each, in any order, and a member whose flag is set may give up with
`UNKNOWN` instead of finishing.  The answers a member would give at its own end are `own`.

The exchange succeeds for `UNKNOWN` too, so a member that gives up of its own accord stops the
others.

* `Inv.step`: what the threads know, as long as nobody wins the exchange with `UNKNOWN` before a
  member has answered.
* `portfolio_stops_iff`: a portfolio stops its members for an answer only, and returns `UNKNOWN`
  only if all of them do, exactly if no member returns `UNKNOWN` of its own accord.
-/

namespace Parsat

/-- The threads of a call of `solve`: where each is, what its member has returned, the members'
flags, the shared `result`, and whether `solve` has interrupted a member. -/
structure Race where
  pc : ℕ → Pc
  returned : ℕ → Option State
  flagged : ℕ → Bool
  result : State
  stopped : Bool

namespace Race

def start : Race := ⟨fun _ => .solving, fun _ => none, fun _ => false, .UNKNOWN, false⟩

/-- A member's `solve` returns, its thread tries the exchange, writes the model, interrupts the
member `j` or leaves; or somebody else interrupts a member. -/
inductive Action where
  | ret (i : ℕ) (answer : State)
  | exchange (i : ℕ)
  | write (i : ℕ)
  | stop (i j : ℕ)
  | leave (i : ℕ)
  | outside (j : ℕ)

/-- One step.  A member returns its own answer or, with its flag set, `UNKNOWN`; a thread leaves
`interrupt()` when all flags are set. -/
def step (own : List State) (t : Race) : Action → Option Race
  | .ret i answer =>
    if t.pc i = .solving ∧ i < own.length ∧
        (own[i]? = some answer ∨ t.flagged i = true ∧ answer = .UNKNOWN) then
      some { t with
        pc := Function.update t.pc i .returned
        returned := Function.update t.returned i (some answer) }
    else none
  | .exchange i =>
    match t.pc i, t.returned i with
    | .returned, some answer =>
      if t.result = .UNKNOWN then
        some { t with pc := Function.update t.pc i .won, result := answer }
      else some { t with pc := Function.update t.pc i .lost }
    | _, _ => none
  | .write i =>
    if t.pc i = .won then some { t with pc := Function.update t.pc i .written } else none
  | .stop i j =>
    if t.pc i = .written ∧ j < own.length then
      some { t with flagged := Function.update t.flagged j true, stopped := true }
    else none
  | .leave i =>
    if t.pc i = .written ∧ ∀ j < own.length, t.flagged j = true then
      some { t with pc := Function.update t.pc i .done }
    else none
  | .outside j =>
    if j < own.length then some { t with flagged := Function.update t.flagged j true } else none

/-- All threads have been joined. -/
def Complete (own : List State) (t : Race) : Prop :=
  ∀ i < own.length, t.pc i = .done ∨ t.pc i = .lost

instance (own : List State) (t : Race) : Decidable (t.Complete own) :=
  inferInstanceAs (Decidable (∀ i < own.length, _))

/-- The member `i` has returned `SAT` or `UNSAT`. -/
def Answered (t : Race) (i : ℕ) : Prop := ∃ a, t.returned i = some a ∧ a ≠ .UNKNOWN

/-- Some member has. -/
def Decided (t : Race) : Prop := ∃ i, t.Answered i

/-- Members are stopped for an answer only, and an `UNKNOWN` result means that every member ends
with `UNKNOWN`. -/
structure Fair (own : List State) (t : Race) : Prop where
  stops : t.stopped = true → t.Decided
  result : t.Complete own → t.result = .UNKNOWN → ∀ a ∈ own, a = .UNKNOWN

/-- The step is not an exchange that succeeds with `UNKNOWN` before a member has answered. -/
def Earned (t : Race) : Action → Prop
  | .exchange i => t.result = .UNKNOWN → t.returned i = some .UNKNOWN → t.Decided
  | _ => True

/-- The step is one of the portfolio's own. -/
def Inside : Action → Prop
  | .outside _ => False
  | _ => True

variable {own : List State} {t t' : Race}

/-! ### What a step does -/

theorem step_ret {i : ℕ} {answer : State} (h : t.step own (.ret i answer) = some t') :
    t.pc i = .solving ∧ i < own.length ∧
      (own[i]? = some answer ∨ t.flagged i = true ∧ answer = .UNKNOWN) ∧
      t' = { t with
        pc := Function.update t.pc i .returned
        returned := Function.update t.returned i (some answer) } := by
  simp only [step] at h
  split at h
  · rename_i hc
    exact ⟨hc.1, hc.2.1, hc.2.2, (Option.some.inj h).symm⟩
  · cases h

theorem step_exchange {i : ℕ} (h : t.step own (.exchange i) = some t') :
    ∃ answer, t.pc i = .returned ∧ t.returned i = some answer ∧
      ((t.result = .UNKNOWN ∧
          t' = { t with pc := Function.update t.pc i .won, result := answer }) ∨
        (t.result ≠ .UNKNOWN ∧ t' = { t with pc := Function.update t.pc i .lost })) := by
  simp only [step] at h
  split at h
  · rename_i answer hp hr
    split at h
    · rename_i hu
      exact ⟨answer, hp, hr, .inl ⟨hu, (Option.some.inj h).symm⟩⟩
    · rename_i hu
      exact ⟨answer, hp, hr, .inr ⟨hu, (Option.some.inj h).symm⟩⟩
  · cases h

theorem step_write {i : ℕ} (h : t.step own (.write i) = some t') :
    t.pc i = .won ∧ t' = { t with pc := Function.update t.pc i .written } := by
  simp only [step] at h
  split at h
  · rename_i hp
    exact ⟨hp, (Option.some.inj h).symm⟩
  · cases h

theorem step_stop {i j : ℕ} (h : t.step own (.stop i j) = some t') :
    t.pc i = .written ∧
      t' = { t with flagged := Function.update t.flagged j true, stopped := true } := by
  simp only [step] at h
  split at h
  · rename_i hc
    exact ⟨hc.1, (Option.some.inj h).symm⟩
  · cases h

theorem step_leave {i : ℕ} (h : t.step own (.leave i) = some t') :
    t.pc i = .written ∧ t' = { t with pc := Function.update t.pc i .done } := by
  simp only [step] at h
  split at h
  · rename_i hc
    exact ⟨hc.1, (Option.some.inj h).symm⟩
  · cases h

theorem step_outside {j : ℕ} (h : t.step own (.outside j) = some t') :
    t' = { t with flagged := Function.update t.flagged j true } := by
  simp only [step] at h
  split at h
  · exact (Option.some.inj h).symm
  · cases h

/-! ### Winning with an answer -/

/-- What the threads know: winners and stopped members mean that somebody has answered, and an
answer that has reached the exchange is the result, or lost to another. -/
structure Inv (own : List State) (t : Race) : Prop where
  members : ∀ i, own.length ≤ i → t.returned i = none
  fresh : ∀ i, t.pc i = .solving → t.returned i = none
  winner : ∀ i, (t.pc i).Winner → t.Decided
  stopped : t.stopped = true → t.Decided
  exchanged : ∀ i, t.Answered i → t.pc i ≠ .returned → t.result ≠ .UNKNOWN
  lost : ∀ i, t.pc i = .lost → t.result ≠ .UNKNOWN

theorem inv_start : start.Inv own where
  members := by simp [start]
  fresh := by simp [start]
  winner := by simp [start, Pc.Winner]
  stopped := by simp [start]
  exchanged := by simp [start, Answered]
  lost := by simp [start]

/-- What has been returned stays. -/
theorem Inv.answered_step (h : t.Inv own) {a : Action} (hs : t.step own a = some t') {j : ℕ}
    (hj : t.Answered j) : t'.Answered j := by
  obtain ⟨b, hb, hne⟩ := hj
  refine ⟨b, ?_, hne⟩
  cases a with
  | ret i answer =>
      obtain ⟨hp, -, -, rfl⟩ := step_ret hs
      have hji : j ≠ i := by
        rintro rfl
        rw [h.fresh j hp] at hb
        cases hb
      exact (Function.update_of_ne hji _ _).trans hb
  | exchange i => obtain ⟨_, -, -, ⟨-, rfl⟩ | ⟨-, rfl⟩⟩ := step_exchange hs <;> exact hb
  | write i => obtain ⟨-, rfl⟩ := step_write hs; exact hb
  | stop i k => obtain ⟨-, rfl⟩ := step_stop hs; exact hb
  | leave i => obtain ⟨-, rfl⟩ := step_leave hs; exact hb
  | outside k => rw [step_outside hs]; exact hb

theorem Inv.decided_step (h : t.Inv own) {a : Action} (hs : t.step own a = some t')
    (hd : t.Decided) : t'.Decided := by
  obtain ⟨j, hj⟩ := hd
  exact ⟨j, h.answered_step hs hj⟩

/-- A winner that moves on. -/
theorem Inv.advance (h : t.Inv own) {i : ℕ} {p : Pc} (hw : (t.pc i).Winner) (hp : p.Winner) :
    Inv own { t with pc := Function.update t.pc i p } := by
  have hne : p ≠ .solving ∧ p ≠ .returned ∧ p ≠ .lost := by
    rcases hp with rfl | rfl | rfl <;> decide
  have hi : t.pc i ≠ .returned := by
    rcases hw with e | e | e <;> rw [e] <;> decide
  refine ⟨h.members, ?_, fun _ _ => h.winner i hw, h.stopped, ?_, ?_⟩
  · intro j hj
    by_cases e : j = i
    · subst e
      exact absurd ((Function.update_self _ _ _).symm.trans hj) hne.1
    · exact h.fresh j ((Function.update_of_ne e _ _).symm.trans hj)
  · intro j ha hj
    by_cases e : j = i
    · subst e
      exact h.exchanged j ha hi
    · exact h.exchanged j ha fun hr => hj ((Function.update_of_ne e _ _).trans hr)
  · intro j hj
    by_cases e : j = i
    · subst e
      exact absurd ((Function.update_self _ _ _).symm.trans hj) hne.2.2
    · exact h.lost j ((Function.update_of_ne e _ _).symm.trans hj)

theorem Inv.ret (h : t.Inv own) {i : ℕ} {answer : State}
    (hs : t.step own (.ret i answer) = some t') : t'.Inv own := by
  have hdec := h.decided_step hs
  obtain ⟨hp, hi, -, rfl⟩ := step_ret hs
  refine ⟨?_, ?_, ?_, fun hst => hdec (h.stopped hst), ?_, ?_⟩
  · intro j hj
    have e : j ≠ i := by omega
    exact (Function.update_of_ne e _ _).trans (h.members j hj)
  · intro j hj
    have e : j ≠ i := by
      rintro rfl
      simp at hj
    simp only [Function.update_of_ne e] at hj ⊢
    exact h.fresh j hj
  · intro j hj
    by_cases e : j = i
    · subst e
      simp [Pc.Winner] at hj
    · simp only [Function.update_of_ne e] at hj
      exact hdec (h.winner j hj)
  · intro j ha hj
    have e : j ≠ i := by
      rintro rfl
      simp at hj
    simp only [Answered, Function.update_of_ne e] at ha hj
    exact h.exchanged j ha hj
  · intro j hj
    have e : j ≠ i := by
      rintro rfl
      simp at hj
    simp only [Function.update_of_ne e] at hj
    exact h.lost j hj

theorem Inv.exchange (h : t.Inv own) {i : ℕ} (he : t.Earned (.exchange i))
    (hs : t.step own (.exchange i) = some t') : t'.Inv own := by
  obtain ⟨answer, hp, hr, ⟨hu, rfl⟩ | ⟨hu, rfl⟩⟩ := step_exchange hs
  · -- the winner has answered, or somebody else has
    have hdec : t.Decided := by
      by_cases ha : answer = .UNKNOWN
      · exact he hu (ha ▸ hr)
      · exact ⟨i, answer, hr, ha⟩
    refine ⟨h.members, ?_, fun _ _ => hdec, fun _ => hdec, ?_, ?_⟩
    · intro j hj
      have e : j ≠ i := by
        rintro rfl
        simp at hj
      exact h.fresh j ((Function.update_of_ne e _ _).symm.trans hj)
    · intro j ha hj
      by_cases e : j = i
      · subst e
        obtain ⟨b, hb, hne⟩ := ha
        exact (Option.some.inj (hr.symm.trans hb)) ▸ hne
      · have hj' : t.pc j ≠ .returned := fun hr' => hj ((Function.update_of_ne e _ _).trans hr')
        exact absurd hu (h.exchanged j ha hj')
    · intro j hj
      have e : j ≠ i := by
        rintro rfl
        simp at hj
      exact absurd hu (h.lost j ((Function.update_of_ne e _ _).symm.trans hj))
  · -- the loser has found a result, which a winner has left
    refine ⟨h.members, ?_, ?_, h.stopped, fun _ _ _ => hu, fun _ _ => hu⟩
    · intro j hj
      have e : j ≠ i := by
        rintro rfl
        simp at hj
      exact h.fresh j ((Function.update_of_ne e _ _).symm.trans hj)
    · intro j hj
      have e : j ≠ i := by
        rintro rfl
        simp [Pc.Winner] at hj
      simp only [Function.update_of_ne e] at hj
      exact h.winner j hj

/-- **Every earned step keeps what the threads know.** -/
theorem Inv.step (h : t.Inv own) {a : Action} (he : t.Earned a) (hs : t.step own a = some t') :
    t'.Inv own := by
  cases a with
  | ret i answer => exact h.ret hs
  | exchange i => exact h.exchange he hs
  | write i =>
      obtain ⟨hp, rfl⟩ := step_write hs
      exact h.advance (.inl hp) (.inr (.inl rfl))
  | stop i j =>
      obtain ⟨hp, rfl⟩ := step_stop hs
      exact { h with stopped := fun _ => h.winner i (.inr (.inl hp)) }
  | leave i =>
      obtain ⟨hp, rfl⟩ := step_leave hs
      exact h.advance (.inr (.inl hp)) (.inr (.inr rfl))
  | outside j =>
      rw [step_outside hs]
      exact { h with }

/-- A call that returns `UNKNOWN` had no members. -/
theorem Inv.fair (h : t.Inv own) : t.Fair own where
  stops := h.stopped
  result := by
    intro hc hr a ha
    obtain ⟨i, hi⟩ := List.getElem?_of_mem ha
    have hi' := (List.getElem?_eq_some_iff.mp hi).1
    rcases hc i hi' with hp | hp
    · obtain ⟨j, hj⟩ := h.winner i (.inr (.inr hp))
      have hj' : j < own.length := by
        by_contra hn
        obtain ⟨b, hb, -⟩ := hj
        rw [h.members j (by omega)] at hb
        cases hb
      -- somebody has answered and is past its exchange, so there is a result
      refine absurd hr (h.exchanged j hj ?_)
      rcases hc j hj' with e | e <;> rw [e] <;> decide
    · exact absurd hr (h.lost i hp)

/-! ### Members that do not give up -/

/-- Without interrupts from outside and with members that end with an answer, an `UNKNOWN` comes
from a stopped member. -/
structure Quiet (own : List State) (t : Race) : Prop where
  inv : t.Inv own
  flagged : ∀ i, t.flagged i = true → t.stopped = true
  unknown : ∀ i, t.returned i = some .UNKNOWN → t.Decided

theorem quiet_start : start.Quiet own where
  inv := inv_start
  flagged := by simp [start]
  unknown := by simp [start]

theorem Quiet.earned (h : t.Quiet own) (a : Action) : t.Earned a := by
  cases a with
  | exchange i => exact fun _ hr => h.unknown i hr
  | ret | write | stop | leave | outside => trivial

theorem Quiet.step (h : t.Quiet own) (hown : ∀ a ∈ own, a ≠ .UNKNOWN) {a : Action}
    (hin : Inside a) (hs : t.step own a = some t') : t'.Quiet own := by
  have hinv := h.inv.step (h.earned a) hs
  have hdec := h.inv.decided_step hs
  cases a with
  | ret i answer =>
      obtain ⟨-, -, hans, rfl⟩ := step_ret hs
      refine ⟨hinv, h.flagged, ?_⟩
      intro j hj
      by_cases e : j = i
      · subst e
        obtain rfl : answer = .UNKNOWN := by simpa using hj
        rcases hans with hans | ⟨hf, -⟩
        · exact absurd rfl (hown _ (List.mem_of_getElem? hans))
        · exact hdec (h.inv.stopped (h.flagged j hf))
      · exact hdec (h.unknown j ((Function.update_of_ne e _ _).symm.trans hj))
  | exchange i =>
      obtain ⟨_, -, -, ⟨-, rfl⟩ | ⟨-, rfl⟩⟩ := step_exchange hs <;>
        exact ⟨hinv, h.flagged, fun j hj => hdec (h.unknown j hj)⟩
  | write i =>
      obtain ⟨-, rfl⟩ := step_write hs
      exact ⟨hinv, h.flagged, fun j hj => hdec (h.unknown j hj)⟩
  | stop i j =>
      obtain ⟨-, rfl⟩ := step_stop hs
      exact ⟨hinv, fun _ _ => rfl, fun j hj => hdec (h.unknown j hj)⟩
  | leave i =>
      obtain ⟨-, rfl⟩ := step_leave hs
      exact ⟨hinv, h.flagged, fun j hj => hdec (h.unknown j hj)⟩
  | outside j => exact hin.elim

/-- A member that gives up of its own accord, first of all, stops another. -/
theorem exists_stopped {i : ℕ} (hi : own[i]? = some .UNKNOWN) :
    ∃ as t, Machine.exec (Race.step own) start as = some t ∧
      Machine.Throughout (Race.step own) (fun _ => Inside) start as ∧
      t.stopped = true ∧ ¬ t.Decided := by
  obtain ⟨hlt, hget⟩ := List.getElem?_eq_some_iff.mp hi
  let t₁ : Race :=
    { start with
      pc := Function.update start.pc i .returned
      returned := Function.update start.returned i (some .UNKNOWN) }
  have hrun : Machine.exec (Race.step own) start
      [.ret i .UNKNOWN, .exchange i, .write i, .stop i i] =
        some { t₁ with
          pc := Function.update start.pc i .written
          flagged := Function.update start.flagged i true
          stopped := true } := by
    simp [Machine.exec, Race.step, start, hlt, hget, t₁]
  refine ⟨_, _, hrun, Machine.throughout_of_forall ?_, rfl, ?_⟩
  · intro a ha
    simp only [List.mem_cons, List.not_mem_nil, or_false] at ha
    rcases ha with rfl | rfl | rfl | rfl <;> exact fun _ => trivial
  · rintro ⟨j, b, hb, hne⟩
    by_cases e : j = i
    · subst e
      simp only [t₁, Function.update_self, Option.some.injEq] at hb
      exact hne hb.symm
    · simp [t₁, start, Function.update_of_ne e] at hb

end Race

open Race in
/-- **When a portfolio stops its members.**  In every run of the portfolio, with interrupts from
outside or without, in which no thread wins the exchange with `UNKNOWN` before a member has
answered, members are stopped for an answer only and an `UNKNOWN` result means that all members end
with `UNKNOWN`.  Without interrupts from outside that is so in all runs exactly if no member
returns `UNKNOWN` of its own accord. -/
theorem portfolio_stops_iff (own : List State) :
    (∀ as t, Machine.exec (Race.step own) start as = some t →
      Machine.Throughout (Race.step own) Earned start as → t.Fair own) ∧
    ((∀ as t, Machine.exec (Race.step own) start as = some t →
        Machine.Throughout (Race.step own) (fun _ => Inside) start as → t.Fair own) ↔
      ∀ a ∈ own, a ≠ .UNKNOWN) := by
  have hearned : ∀ as t, Machine.exec (Race.step own) start as = some t →
      Machine.Throughout (Race.step own) Earned start as → t.Fair own := fun as t hrun hC =>
    (Machine.exec_invariant_throughout (fun _ _ _ h he hs => Inv.step h he hs) inv_start hC
      hrun).fair
  refine ⟨hearned, ?_, ?_⟩
  · rintro h a ha rfl
    obtain ⟨i, hi⟩ := List.getElem?_of_mem ha
    obtain ⟨as, t, hrun, hin, hst, hnot⟩ := exists_stopped hi
    exact hnot ((h as t hrun hin).stops hst)
  · intro hown as t hrun hin
    refine hearned as t hrun ?_
    exact Machine.throughout_of_invariant (fun _ _ _ h hi hs => Quiet.step h hown hi hs)
      (fun _ a h _ => h.earned a) quiet_start hin

open Race in
/-- The first member gives up; the second, which would have found `SAT`, is stopped, and the
portfolio returns `UNKNOWN`. -/
theorem portfolio_stops_without_answer : ∃ as t,
    Machine.exec (Race.step [.UNKNOWN, .SAT]) start as = some t ∧
      Machine.Throughout (Race.step [.UNKNOWN, .SAT]) (fun _ => Inside) start as ∧
      (t.stopped = true ∧ ¬ t.Decided) ∧
      (t.Complete [.UNKNOWN, .SAT] ∧ t.result = .UNKNOWN ∧
        ¬ ∀ a ∈ ([.UNKNOWN, .SAT] : List State), a = .UNKNOWN) := by
  refine ⟨[.ret 0 .UNKNOWN, .exchange 0, .write 0, .stop 0 0, .stop 0 1, .leave 0,
    .ret 1 .UNKNOWN, .exchange 1, .write 1, .leave 1], _, rfl, Machine.throughout_of_forall ?_,
    ⟨rfl, ?_⟩, by decide, rfl, by decide⟩
  · simp [Inside]
  · rintro ⟨i, a, ha, hne⟩
    have hret : ∀ i a, Function.update (Function.update start.returned 0 (some .UNKNOWN)) 1
        (some .UNKNOWN) i = some a → a = .UNKNOWN := by
      intro i a h
      by_cases e₁ : i = 1 <;> by_cases e₀ : i = 0 <;>
        simp [Function.update_apply, e₁, e₀, start] at h <;> exact h.symm
    exact hne (hret i a ha)

end Parsat
