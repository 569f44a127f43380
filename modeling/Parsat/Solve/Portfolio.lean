import Mathlib.Logic.Function.Basic
import Parsat.Library.Machine
import Parsat.Sat.Problem

/-!
# Solve — the portfolio

`PortfolioSolve::solve` runs each member on a thread of its own.  A thread whose member has
returned tries to exchange the shared `result` from `UNKNOWN` to its answer; the ones that succeed
copy their member's model into `_model` and interrupt the others.

A member that returned `UNKNOWN` succeeds too, as long as nobody has an answer, and may be slow to
write.  `portfolio_model_iff` says for which answers every schedule is safe: an `UNKNOWN` member
next to a `SAT` one must have the model of a `SAT` member.
-/

namespace Parsat

/-- A member of the portfolio: what `solve` returns and what `get_model` gives afterwards. -/
structure Member where
  answer : State
  model : List LBool

/-- Where the thread of a member is: in `solve`, before the exchange, before the write of `_model`,
before `interrupt()`, at its end, or at its end without the exchange. -/
inductive Pc where
  | solving
  | returned
  | won
  | written
  | done
  | lost
  deriving DecidableEq

namespace Pc

/-- The exchange has succeeded. -/
def Winner (p : Pc) : Prop := p = .won ∨ p = .written ∨ p = .done

/-- `_model` has been written. -/
def Writer (p : Pc) : Prop := p = .written ∨ p = .done

theorem Writer.winner {p : Pc} (h : p.Writer) : p.Winner := .inr h

end Pc

/-- The threads of a call of `solve`, with the variables they share. -/
structure Portfolio where
  pc : ℕ → Pc
  result : State
  model : List LBool
  interrupted : Bool

namespace Portfolio

def start : Portfolio := ⟨fun _ => .solving, .UNKNOWN, [], false⟩

/-- The next step of thread `i`. -/
def step (ms : List Member) (t : Portfolio) (i : ℕ) : Option Portfolio :=
  match ms[i]?, t.pc i with
  | some _, .solving => some { t with pc := Function.update t.pc i .returned }
  | some m, .returned =>
    if t.result = .UNKNOWN then
      some { t with pc := Function.update t.pc i .won, result := m.answer }
    else some { t with pc := Function.update t.pc i .lost }
  | some m, .won => some { t with pc := Function.update t.pc i .written, model := m.model }
  | some _, .written => some { t with pc := Function.update t.pc i .done, interrupted := true }
  | _, _ => none

/-- All threads have been joined. -/
def Complete (ms : List Member) (t : Portfolio) : Prop :=
  ∀ i < ms.length, t.pc i = .done ∨ t.pc i = .lost

variable {ms : List Member} {t t' : Portfolio} {i : ℕ} {m : Member}

/-! ### Who writes -/

/-- The winners have the result or `UNKNOWN`, a `SAT` result has a winner, and the model is that
of a writer once there is one. -/
structure Inv (ms : List Member) (t : Portfolio) : Prop where
  winner : ∀ i m, ms[i]? = some m → (t.pc i).Winner → m.answer = t.result ∨ m.answer = .UNKNOWN
  sat : t.result = .SAT → ∃ i m, ms[i]? = some m ∧ m.answer = .SAT ∧ (t.pc i).Winner
  model : ∀ i, (t.pc i).Writer → ∃ j m, ms[j]? = some m ∧ (t.pc j).Writer ∧ t.model = m.model

theorem inv_start : start.Inv ms where
  winner := by simp [start, Pc.Winner]
  sat := by simp [start]
  model := by simp [start, Pc.Writer]

/-- What a step does: a member returns, wins or loses the exchange, writes, or interrupts. -/
theorem step_cases (h : t.step ms i = some t') : ∃ m, ms[i]? = some m ∧
    ((t.pc i = .solving ∧ t' = { t with pc := Function.update t.pc i .returned }) ∨
    (t.pc i = .returned ∧ t.result = .UNKNOWN ∧
      t' = { t with pc := Function.update t.pc i .won, result := m.answer }) ∨
    (t.pc i = .returned ∧ t.result ≠ .UNKNOWN ∧
      t' = { t with pc := Function.update t.pc i .lost }) ∨
    (t.pc i = .won ∧ t' = { t with pc := Function.update t.pc i .written, model := m.model }) ∨
    (t.pc i = .written ∧
      t' = { t with pc := Function.update t.pc i .done, interrupted := true })) := by
  unfold step at h
  split at h
  · rename_i m hm hp
    exact ⟨m, hm, .inl ⟨hp, (Option.some.inj h).symm⟩⟩
  · rename_i m hm hp
    split at h
    · rename_i hr
      exact ⟨m, hm, .inr (.inl ⟨hp, hr, (Option.some.inj h).symm⟩)⟩
    · rename_i hr
      exact ⟨m, hm, .inr (.inr (.inl ⟨hp, hr, (Option.some.inj h).symm⟩))⟩
  · rename_i m hm hp
    exact ⟨m, hm, .inr (.inr (.inr (.inl ⟨hp, (Option.some.inj h).symm⟩)))⟩
  · rename_i m hm hp
    exact ⟨m, hm, .inr (.inr (.inr (.inr ⟨hp, (Option.some.inj h).symm⟩)))⟩
  · cases h

/-- A thread that moves between two places with the same rights changes no right. -/
theorem congr_update {R : Pc → Prop} {p : Pc} (h : R p ↔ R (t.pc i)) (j : ℕ) :
    R (Function.update t.pc i p j) ↔ R (t.pc j) := by
  by_cases e : j = i
  · rw [e, Function.update_self, h]
  · rw [Function.update_of_ne e]

theorem Inv.step (h : t.Inv ms) (hs : t.step ms i = some t') : t'.Inv ms := by
  obtain ⟨m, hm, hc⟩ := step_cases hs
  obtain ⟨hp, rfl⟩ | ⟨hp, hr, rfl⟩ | ⟨hp, hr, rfl⟩ | ⟨hp, rfl⟩ | ⟨hp, rfl⟩ := hc
  · have hwin := congr_update (t := t) (i := i) (R := Pc.Winner) (p := .returned)
      (by simp [hp, Pc.Winner])
    have hwr := congr_update (t := t) (i := i) (R := Pc.Writer) (p := .returned)
      (by simp [hp, Pc.Writer])
    constructor <;> simp only [hwin, hwr]
    exacts [h.winner, h.sat, h.model]
  · -- the exchange succeeds: the winners so far have answered `UNKNOWN`
    have hwr := congr_update (t := t) (i := i) (R := Pc.Writer) (p := .won)
      (by simp [hp, Pc.Writer])
    refine ⟨?_, ?_, by simp only [hwr]; exact h.model⟩
    · intro j n hj hw
      by_cases e : j = i
      · subst e
        rw [hm] at hj
        cases hj
        exact .inl rfl
      · simp only [Function.update_of_ne e] at hw
        have := h.winner j n hj hw
        rw [hr, or_self] at this
        exact .inr this
    · intro hsat
      exact ⟨i, m, hm, hsat, by simp [Pc.Winner]⟩
  · have hwin := congr_update (t := t) (i := i) (R := Pc.Winner) (p := .lost)
      (by simp [hp, Pc.Winner])
    have hwr := congr_update (t := t) (i := i) (R := Pc.Writer) (p := .lost)
      (by simp [hp, Pc.Writer])
    constructor <;> simp only [hwin, hwr]
    exacts [h.winner, h.sat, h.model]
  · have hwin := congr_update (t := t) (i := i) (R := Pc.Winner) (p := .written)
      (by simp [hp, Pc.Winner])
    refine ⟨by simp only [hwin]; exact h.winner, by simp only [hwin]; exact h.sat, ?_⟩
    intro _ _
    exact ⟨i, m, hm, by simp [Pc.Writer], rfl⟩
  · have hwin := congr_update (t := t) (i := i) (R := Pc.Winner) (p := .done)
      (by simp [hp, Pc.Winner])
    have hwr := congr_update (t := t) (i := i) (R := Pc.Writer) (p := .done)
      (by simp [hp, Pc.Writer])
    constructor <;> simp only [hwin, hwr]
    exacts [h.winner, h.sat, h.model]

/-- After a `SAT` result the model is that of a member that returned `SAT` or `UNKNOWN`. -/
theorem Inv.model_of_complete (h : t.Inv ms) (hc : t.Complete ms) (hr : t.result = .SAT) :
    ∃ m ∈ ms, (m.answer = .SAT ∨ m.answer = .UNKNOWN) ∧ t.model = m.model := by
  obtain ⟨i, m, hm, -, hw⟩ := h.sat hr
  have hdone : t.pc i = .done := by
    refine (hc i (List.getElem?_eq_some_iff.mp hm).1).resolve_right fun hl => ?_
    simp [hl, Pc.Winner] at hw
  obtain ⟨j, n, hn, hj, hmodel⟩ := h.model i (.inr hdone)
  exact ⟨n, List.mem_of_getElem? hn, hr ▸ h.winner j n hn hj.winner, hmodel⟩

/-! ### A schedule for a slow write -/

/-- Members that return when the result is there lose the exchange. -/
theorem exec_losers (ms : List Member) (hr : t.result = .SAT) {l : List ℕ} (hl : l.Nodup)
    (hlt : ∀ i ∈ l, i < ms.length) (hp : ∀ i ∈ l, t.pc i = .solving) :
    Machine.exec (Portfolio.step ms) t (l.flatMap fun i => [i, i]) =
      some { t with pc := fun i => if i ∈ l then .lost else t.pc i } := by
  induction l generalizing t with
  | nil => simp [Machine.exec]
  | cons i l ih =>
      obtain ⟨hi, hl⟩ := List.nodup_cons.mp hl
      obtain ⟨m, hm⟩ : ∃ m, ms[i]? = some m :=
        ⟨_, List.getElem?_eq_getElem (hlt i List.mem_cons_self)⟩
      have h₁ : t.step ms i = some { t with pc := Function.update t.pc i .returned } := by
        simp [Portfolio.step, hm, hp i (by simp)]
      have h₂ : Portfolio.step ms { t with pc := Function.update t.pc i .returned } i =
          some { t with pc := Function.update t.pc i .lost } := by
        simp [Portfolio.step, hm, hr]
      have hrest := ih (t := { t with pc := Function.update t.pc i .lost }) hr hl
        (fun j hj => hlt j (by simp [hj])) fun j hj => by
          have e : j ≠ i := fun e => hi (e ▸ hj)
          simp only [Function.update_of_ne e]
          exact hp j (by simp [hj])
      simp only [List.flatMap_cons, List.cons_append, List.nil_append, Machine.exec, h₁, h₂,
        Option.bind_some, hrest]
      congr 2
      funext j
      by_cases e : j = i
      · simp [e]
      · simp [e]

/-- The member `u` wins the exchange with `UNKNOWN`, then the member `s` with `SAT`, and `u` writes
last. -/
theorem exists_slow_write (ms : List Member) {s u : ℕ} {a b : Member} (hs : ms[s]? = some a)
    (hu : ms[u]? = some b) (hsat : a.answer = .SAT) (hunk : b.answer = .UNKNOWN) :
    ∃ as t, Machine.exec (Portfolio.step ms) start as = some t ∧ t.Complete ms ∧
      t.result = .SAT ∧ t.model = b.model := by
  have hne : s ≠ u := by
    rintro rfl
    rw [hs] at hu
    cases hu
    rw [hsat] at hunk
    cases hunk
  let mid : Portfolio :=
    { pc := fun i => if i = s ∨ i = u then .done else .solving
      result := .SAT
      model := b.model
      interrupted := true }
  have hmid : Machine.exec (Portfolio.step ms) start [u, u, s, s, s, s, u, u] = some mid := by
    simp [Machine.exec, Portfolio.step, start, hs, hu, hsat, hunk, hne, hne.symm, mid]
    funext i
    by_cases e₁ : i = s <;> by_cases e₂ : i = u <;> simp [e₁, e₂, Function.update_apply]
  -- the other members return when there is a result, and lose the exchange
  let l := (List.range ms.length).filter fun i => i ≠ s ∧ i ≠ u
  have hrest := exec_losers ms (t := mid) rfl (l := l) (List.nodup_range.filter _)
    (fun i hi => List.mem_range.mp (List.mem_filter.mp hi).1) fun i hi => by
      have := (List.mem_filter.mp hi).2
      simp only [decide_eq_true_eq] at this
      simp [mid, this]
  refine ⟨[u, u, s, s, s, s, u, u] ++ l.flatMap fun i => [i, i],
    { mid with pc := fun i => if i ∈ l then .lost else mid.pc i }, ?_, ?_, rfl, rfl⟩
  · rw [Machine.exec_append, hmid]
    exact hrest
  · intro i hi
    by_cases hl : i ∈ l
    · exact .inr (if_pos hl)
    · refine .inl ((if_neg hl).trans (if_pos ?_))
      by_contra hn
      exact hl (List.mem_filter.mpr ⟨List.mem_range.mpr hi, by simpa [not_or] using hn⟩)

end Portfolio

open Portfolio in
/-- **When the model is that of a `SAT` member.**  Every schedule of the portfolio that ends with
`SAT` leaves the model of a member that returned `SAT`, exactly if the models of the members that
returned `UNKNOWN`, should another have returned `SAT`, are models of such members too. -/
theorem portfolio_model_iff (ms : List Member) :
    (∀ as t, Machine.exec (Portfolio.step ms) start as = some t → t.Complete ms →
      t.result = .SAT → ∃ m ∈ ms, m.answer = .SAT ∧ t.model = m.model) ↔
    ∀ u ∈ ms, u.answer = .UNKNOWN → (∃ s ∈ ms, s.answer = .SAT) →
      ∃ s ∈ ms, s.answer = .SAT ∧ u.model = s.model := by
  constructor
  · rintro h u hu hunk ⟨s, hs, hsat⟩
    obtain ⟨i, hi⟩ := List.getElem?_of_mem hs
    obtain ⟨j, hj⟩ := List.getElem?_of_mem hu
    obtain ⟨as, t, hrun, hc, hr, hmodel⟩ := exists_slow_write ms hi hj hsat hunk
    exact hmodel ▸ h as t hrun hc hr
  · intro h as t hrun hc hr
    have hinv := Machine.exec_invariant (fun s i t hs h => Inv.step hs h)
      (inv_start : start.Inv ms) hrun
    obtain ⟨i, s, hs, hsat, -⟩ := hinv.sat hr
    obtain ⟨m, hm, ha | ha, hmodel⟩ := hinv.model_of_complete hc hr
    · exact ⟨m, hm, ha, hmodel⟩
    · exact hmodel ▸ h m hm ha ⟨s, List.mem_of_getElem? hs, hsat⟩

open Portfolio in
/-- A member that gives up between the answer and the write of another. -/
theorem portfolio_model_overwritten : ∃ as t,
    Machine.exec (Portfolio.step [⟨.SAT, [.true]⟩, ⟨.UNKNOWN, []⟩]) start as = some t ∧
    t.Complete [⟨.SAT, [.true]⟩, ⟨.UNKNOWN, []⟩] ∧ t.result = .SAT ∧
    ¬ ∃ m ∈ ([⟨.SAT, [.true]⟩, ⟨.UNKNOWN, []⟩] : List Member),
      m.answer = .SAT ∧ t.model = m.model := by
  obtain ⟨as, t, hrun, hc, hr, hmodel⟩ := exists_slow_write [⟨.SAT, [.true]⟩, ⟨.UNKNOWN, []⟩]
    (s := 0) (u := 1) rfl rfl rfl rfl
  refine ⟨as, t, hrun, hc, hr, ?_⟩
  simp [hmodel]

end Parsat
