import Parsat.Minisat.Core

/-!
# Minisat — the trail

The operations on the trail: a literal is enqueued, a decision level is opened, levels are undone.
Each keeps the invariant.

* `Base.mem_level0`, `Base.level_eq_iff`: the level of a literal by its place on the trail.
* `Base.uncheckedEnqueue`: enqueueing, as a decision or with a reason.
* `Inv.newDecisionLevel`, `Base.cancelUntil`: the levels.  Undoing a level needs only what holds
  also after a conflict.
-/

namespace Parsat.Minisat

open UnitProp

namespace Core

/-- Above level 0 only the first literal of a level has no reason. -/
def Decided (s : Core) : Prop :=
  ∀ k p, s.trail[k]? = some p → 0 < s.level p.var → s.reason p.var = none → k ∈ s.trailLim

variable {s t u : Core} {W : Lit → List Watcher} {p q : Lit} {cr k n : ℕ}

/-! ### What the trail says -/

theorem Base.value_iff (h : s.Base W) : s.value p = .true ↔ p ∈ s.trail := h.wf.value_iff p

theorem Base.value_false (h : s.Base W) : s.value p = .false ↔ -p ∈ s.trail := h.wf.value_false

theorem Base.value_undef (h : s.Base W) : s.value p = .undef ↔ p ∉ s.trail ∧ -p ∉ s.trail :=
  h.wf.value_undef

/-- The trail says nothing about an unassigned variable. -/
theorem Base.var_ne_of_undef (h : s.Base W) (hp : s.value p = .undef) :
    ∀ q ∈ s.trail, q.var ≠ p.var := by
  obtain ⟨hpt, hnpt⟩ := h.value_undef.mp hp
  intro q hq e
  rcases Lit.eq_or_eq_neg e with rfl | rfl
  · exact hpt hq
  · exact hnpt hq

theorem Base.consistent (h : s.Base W) (hp : p ∈ s.trail) : -p ∉ s.trail := h.wf.consistent p hp

theorem level0_subset : s.level0 ⊆ s.trail := fun _ => List.mem_of_mem_take

theorem Base.setQhead (h : s.Base W) (n : ℕ) : Base W { s with qhead := n } :=
  { h with wf := h.wf.of_trail rfl rfl }

theorem trail_pos (hp : p ∈ s.trail) : ∃ k : ℕ, s.trail[k]? = some p :=
  List.mem_iff_getElem?.mp hp

/-- A variable has one place on the trail. -/
theorem Base.pos_unique (h : s.Base W) {k k' : ℕ} (hp : s.trail[k]? = some p)
    (hq : s.trail[k']? = some q) (hv : p.var = q.var) : k = k' := by
  have hd := List.pairwise_iff_getElem.mp h.wf.distinct
  obtain ⟨hk, rfl⟩ := List.getElem?_eq_some_iff.mp hp
  obtain ⟨hk', rfl⟩ := List.getElem?_eq_some_iff.mp hq
  rcases lt_trichotomy k k' with hlt | rfl | hlt
  · exact absurd hv (hd k k' hk hk' hlt)
  · rfl
  · exact absurd hv.symm (hd k' k hk' hk hlt)

theorem Base.mem_take (h : s.Base W) (hp : s.trail[k]? = some p) :
    p ∈ s.trail.take n ↔ k < n := by
  constructor
  · intro hm
    obtain ⟨k', hk'⟩ := List.mem_iff_getElem?.mp hm
    have hlt : k' < n := by
      have := (List.getElem?_eq_some_iff.mp hk').1
      simp only [List.length_take] at this
      omega
    rw [List.getElem?_take_of_lt hlt] at hk'
    rwa [h.pos_unique hp hk' rfl]
  · intro hlt
    refine List.mem_iff_getElem?.mpr ⟨k, ?_⟩
    rw [List.getElem?_take_of_lt hlt, hp]

/-- The level of a literal is 0 as long as no decision level starts. -/
theorem Base.mem_level0 (h : s.Base W) : p ∈ s.level0 ↔ p ∈ s.trail ∧ s.level p.var = 0 := by
  constructor
  · intro hp
    have ht := level0_subset hp
    obtain ⟨k, hk⟩ := trail_pos ht
    refine ⟨ht, (h.level_eq k p hk).trans (List.countP_eq_zero.mpr fun n hn => ?_)⟩
    have hlt := (h.mem_take hk).mp hp
    match hl : s.trailLim with
    | [] => simp [hl] at hn
    | m :: ms =>
        have hsort := h.lim_sorted
        rw [hl] at hn hsort hlt
        have hmn : m ≤ n := (List.mem_cons.mp hn).elim (fun e => e ▸ le_rfl)
          fun hn => (List.pairwise_cons.mp hsort).1 n hn
        simp only [List.headD_cons] at hlt
        simp only [decide_eq_true_eq]
        omega
  · rintro ⟨ht, hl⟩
    obtain ⟨k, hk⟩ := trail_pos ht
    rw [h.level_eq k p hk, List.countP_eq_zero] at hl
    refine (h.mem_take hk).mpr ?_
    match hlim : s.trailLim with
    | [] => exact (List.getElem?_eq_some_iff.mp hk).1
    | m :: ms =>
        have := hl m (by simp [hlim])
        simpa using this

theorem Base.level_le (h : s.Base W) (hp : p ∈ s.trail) : s.level p.var ≤ s.decisionLevel := by
  obtain ⟨k, hk⟩ := trail_pos hp
  exact (h.level_eq k p hk).trans_le List.countP_le_length

/-- Later literals have higher levels. -/
theorem Base.level_mono (h : s.Base W) {k' : ℕ} (hp : s.trail[k]? = some p)
    (hq : s.trail[k']? = some q) (hk : k ≤ k') : s.level p.var ≤ s.level q.var := by
  rw [h.level_eq k p hp, h.level_eq k' q hq]
  exact List.countP_mono_left fun n _ hn => by simp only [decide_eq_true_eq] at hn ⊢; omega

/-- No level from a later one on has started. -/
theorem Base.countP_drop (h : s.Base W) {l : ℕ} (hl : s.trailLim[l]? = some n) (hk : k < n) :
    (s.trailLim.drop l).countP (· ≤ k) = 0 := by
  obtain ⟨hlt, rfl⟩ := List.getElem?_eq_some_iff.mp hl
  have hsort := List.pairwise_iff_getElem.mp h.lim_sorted
  refine List.countP_eq_zero.mpr fun m hm => ?_
  obtain ⟨i, hi, rfl⟩ := List.mem_iff_getElem.mp hm
  simp only [List.length_drop] at hi
  simp only [List.getElem_drop, decide_eq_true_eq]
  rcases Nat.eq_zero_or_pos i with rfl | hpos
  · simp only [Nat.add_zero]
    omega
  · have := hsort l (l + i) hlt (by omega) (by omega)
    omega

/-- The literals before the start of a level are below the level. -/
theorem Base.level_lt_iff (h : s.Base W) (hp : s.trail[k]? = some p) {l : ℕ}
    (hl : s.trailLim[l]? = some n) : s.level p.var ≤ l ↔ k < n := by
  obtain ⟨hlt, rfl⟩ := List.getElem?_eq_some_iff.mp hl
  have hsort := List.pairwise_iff_getElem.mp h.lim_sorted
  rw [h.level_eq k p hp]
  constructor
  · intro hle
    by_contra hn
    -- the first `l + 1` levels start at `k` or before
    have hall : (s.trailLim.take (l + 1)).countP (· ≤ k) = l + 1 := by
      rw [List.countP_eq_length.mpr, List.length_take]
      · omega
      · intro m hm
        obtain ⟨i, hi, rfl⟩ := List.mem_iff_getElem.mp hm
        simp only [List.length_take] at hi
        simp only [List.getElem_take, decide_eq_true_eq]
        rcases Nat.lt_or_ge i l with hil | hil
        · have := hsort i l (by omega) hlt hil
          omega
        · have : i = l := by omega
          subst this
          omega
    have := (List.take_sublist (l + 1) s.trailLim).countP_le (p := (· ≤ k))
    omega
  · intro hk
    have hnone := h.countP_drop hl hk
    have hsplit := congrArg (List.countP (· ≤ k)) (List.take_append_drop l s.trailLim)
    rw [List.countP_append, hnone] at hsplit
    have : (s.trailLim.take l).countP (· ≤ k) ≤ l :=
      List.countP_le_length.trans (by simp)
    omega

/-! ### Enqueueing -/

theorem level0_uncheckedEnqueue (h : s.Base W) (p : Lit) (from' : Option ℕ) :
    s.level0 ⊆ (s.uncheckedEnqueue p from').level0 := by
  unfold level0 uncheckedEnqueue
  match hl : s.trailLim with
  | [] => simp [List.take_of_length_le]
  | n :: _ =>
      have hn : n ≤ s.trail.length := h.lim_le n (by simp [hl])
      simp [List.take_append_of_le_length hn]

/-- An unassigned literal may be enqueued, from a clause that starts with it and is false
otherwise. -/
theorem Base.uncheckedEnqueue (h : s.Base W) {from' : Option ℕ} (hp : s.value p = .undef)
    (hfrom : ∀ cr, from' = some cr →
      cr ∈ s.refs ∧ ∃ rest, s.ca cr = p :: rest ∧ ∀ q ∈ rest, -q ∈ s.trail) :
    (s.uncheckedEnqueue p from').Base W := by
  have hvar := h.var_ne_of_undef hp
  -- the position on the trail is an old one, or the last
  have hpos : ∀ k q, (s.uncheckedEnqueue p from').trail[k]? = some q →
      s.trail[k]? = some q ∧ k < s.trail.length ∨ k = s.trail.length ∧ q = p := by
    intro k q hk
    rcases lt_or_ge k s.trail.length with hlt | hge
    · exact .inl ⟨by rwa [Core.uncheckedEnqueue, List.getElem?_append_left hlt] at hk, hlt⟩
    · rw [Core.uncheckedEnqueue, List.getElem?_append_right hge] at hk
      obtain ⟨hz, he⟩ := List.getElem?_eq_some_iff.mp hk
      simp only [List.length_singleton, Nat.lt_one_iff] at hz
      exact .inr ⟨by omega, by simpa [hz] using he.symm⟩
  refine
    { h with
      blocker := fun q w hw hcr =>
        (h.blocker q w hw hcr).imp_right (level0_uncheckedEnqueue h p from' ·)
      wf := h.wf.uncheckedEnqueue hp
      lim_le := fun n hn => (h.lim_le n hn).trans (by simp [Core.uncheckedEnqueue])
      upTo := ?_
      level_eq := ?_
      reason_eq := ?_ }
  · intro n hn cr hcr q hq
    have := h.upTo n hn cr hcr q hq
    rwa [Core.uncheckedEnqueue, List.take_append_of_le_length (h.lim_le n hn)]
  · intro k q hk
    rcases hpos k q hk with ⟨hk, -⟩ | ⟨rfl, rfl⟩
    · have hne := hvar q (List.mem_of_getElem? hk)
      simpa [level, Core.uncheckedEnqueue, hne] using h.level_eq k q hk
    · simp only [level, Core.uncheckedEnqueue, Function.update_self, decisionLevel]
      exact (List.countP_eq_length.mpr fun n hn => by simpa using h.lim_le n hn).symm
  · intro k q cr hk hr hl
    rcases hpos k q hk with ⟨hk, hlt⟩ | ⟨rfl, rfl⟩
    · have hne := hvar q (List.mem_of_getElem? hk)
      simp only [reason, level, Core.uncheckedEnqueue, Function.update_of_ne hne] at hr hl
      obtain ⟨hcr, rest, hc, hrest⟩ := h.reason_eq k q cr hk hr hl
      refine ⟨hcr, rest, hc, fun x hx => ?_⟩
      rw [Core.uncheckedEnqueue, List.take_append_of_le_length hlt.le]
      exact hrest x hx
    · simp only [reason, Core.uncheckedEnqueue, Function.update_self] at hr
      obtain ⟨hcr, rest, hc, hrest⟩ := hfrom cr hr
      refine ⟨hcr, rest, hc, fun x hx => ?_⟩
      rw [Core.uncheckedEnqueue, List.take_left]
      exact hrest x hx

/-! ### Decision levels -/

theorem level0_newDecisionLevel (s : Core) : s.newDecisionLevel.level0 = s.level0 := by
  unfold level0 newDecisionLevel
  cases s.trailLim <;> simp

/-- A new level starts behind what has been propagated. -/
theorem Inv.newDecisionLevel (h : s.Inv) (hq : s.qhead = s.trail.length) :
    s.newDecisionLevel.Inv := by
  refine
    { h with
      blocker := fun q w hw hcr => (level0_newDecisionLevel s).symm ▸ h.blocker q w hw hcr
      wf := h.wf.of_trail rfl rfl
      lim_sorted := ?_
      lim_le := ?_
      upTo := ?_
      level_eq := ?_ }
  · refine List.pairwise_append.mpr ⟨h.lim_sorted, List.pairwise_singleton _ _, ?_⟩
    intro m hm n hn
    exact List.mem_singleton.mp hn ▸ h.lim_le m hm
  · exact List.forall_mem_append.mpr ⟨h.lim_le, by simp [Core.newDecisionLevel]⟩
  · refine List.forall_mem_append.mpr ⟨h.upTo, fun n hn => ?_⟩
    exact List.mem_singleton.mp hn ▸ h.upTo_length hq
  · intro k p hk
    have hlt := (List.getElem?_eq_some_iff.mp hk).1
    have hnle : ¬ s.trail.length ≤ k := not_le.mpr hlt
    refine (h.level_eq k p hk).trans ?_
    simp [Core.newDecisionLevel, List.countP_append, hnle]

theorem abs_cancelUntil (s : Core) (level : ℕ) :
    (s.cancelUntil level).abs = s.abs.cancelUntil level := by
  by_cases hl : level < s.decisionLevel
  · have hl' : level < s.abs.decisionLevel := hl
    rw [cancelUntil, if_pos hl, Solver.cancelUntil, if_pos hl']
    rfl
  · have hl' : ¬ level < s.abs.decisionLevel := hl
    rw [cancelUntil, if_neg hl, Solver.cancelUntil, if_neg hl']

/-- What is undone above a level that starts at `lim`. -/
theorem cancelUntil_eq {level lim : ℕ} (hlim : s.trailLim[level]? = some lim) :
    s.cancelUntil level =
      { s with
        assigns := fun v => if v ∈ (s.trail.drop lim).map Lit.var then .undef else s.assigns v
        orderHeap := ((s.trail.drop lim).map Lit.var).reverse.foldl (insertVarOrder s.decision)
          s.orderHeap
        qhead := lim
        trail := s.trail.take lim
        trailLim := s.trailLim.take level } := by
  have hl : level < s.decisionLevel := (List.getElem?_eq_some_iff.mp hlim).1
  rw [Core.cancelUntil, if_pos hl, List.getD_eq_getElem?_getD, hlim]
  rfl

/-- The levels below start before. -/
theorem Base.lim_le_of_mem_take (h : s.Base W) {level lim : ℕ}
    (hlim : s.trailLim[level]? = some lim) (hn : n ∈ s.trailLim.take level) : n ≤ lim := by
  obtain ⟨i, hi⟩ := List.mem_iff_getElem?.mp hn
  have hil : i < level := by
    have := (List.getElem?_eq_some_iff.mp hi).1
    simp only [List.length_take] at this
    omega
  rw [List.getElem?_take_of_lt hil] at hi
  obtain ⟨hi', rfl⟩ := List.getElem?_eq_some_iff.mp hi
  obtain ⟨hl', rfl⟩ := List.getElem?_eq_some_iff.mp hlim
  exact List.pairwise_iff_getElem.mp h.lim_sorted i level hi' hl' hil

theorem Base.take_take (h : s.Base W) {level lim : ℕ} (hlim : s.trailLim[level]? = some lim) :
    (s.trail.take lim).take ((s.trailLim.take level).headD (s.trail.take lim).length) =
      s.level0 := by
  have hle := h.lim_le lim (List.mem_of_getElem? hlim)
  unfold level0
  match hlims : s.trailLim, level, hlim with
  | m :: _, 0, hlim =>
      obtain rfl : m = lim := by simpa using hlim
      simp [List.take_take]
  | m :: ms, l + 1, hlim' =>
      have hm : m ≤ lim := h.lim_le_of_mem_take (hlims ▸ hlim' : s.trailLim[l + 1]? = some lim)
        (by simp [hlims])
      simp [List.take_take, hm]

/-- Level 0 stays. -/
theorem Base.level0_cancelUntil (h : s.Base W) (level : ℕ) :
    (s.cancelUntil level).level0 = s.level0 := by
  by_cases hl : level < s.decisionLevel
  · have hlim := List.getElem?_eq_getElem hl
    rw [cancelUntil_eq hlim]
    exact h.take_take hlim
  · rw [Core.cancelUntil, if_neg hl]

/-- **Undoing levels.**  Below the start of the level everything has been propagated. -/
theorem Base.cancelUntil (h : s.Base s.watches) {level : ℕ} (hl : level < s.decisionLevel) :
    (s.cancelUntil level).Inv := by
  obtain ⟨lim, hlim⟩ : ∃ lim, s.trailLim[level]? = some lim :=
    ⟨_, List.getElem?_eq_getElem hl⟩
  have hmem : lim ∈ s.trailLim := List.mem_of_getElem? hlim
  have hle := h.lim_le lim hmem
  have hbelow : ∀ n ∈ s.trailLim.take level, n ≤ lim := fun n hn => h.lim_le_of_mem_take hlim hn
  have hwf : (s.cancelUntil level).abs.Wf := abs_cancelUntil s level ▸ h.wf.cancelUntil level
  have hlevel0 := h.level0_cancelUntil level
  rw [cancelUntil_eq hlim] at hwf hlevel0 ⊢
  have hpos : ∀ k p, (s.trail.take lim)[k]? = some p → s.trail[k]? = some p ∧ k < lim := by
    intro k p hk
    have hlt := (List.getElem?_eq_some_iff.mp hk).1
    rw [List.length_take, Nat.lt_min] at hlt
    exact ⟨by rwa [List.getElem?_take_of_lt hlt.1] at hk, hlt.1⟩
  have htake : ∀ n ≤ lim, (s.trail.take lim).take n = s.trail.take n := by
    intro n hn
    rw [List.take_take, min_eq_left hn]
  refine
    { h with
      blocker := fun q w hw hcr => hlevel0 ▸ h.blocker q w hw hcr
      wf := hwf
      lim_sorted := h.lim_sorted.sublist (List.take_sublist ..)
      lim_le := fun n hn => by simpa using ⟨hbelow n hn, h.lim_le n (List.mem_of_mem_take hn)⟩
      upTo := ?_
      level_eq := ?_
      reason_eq := ?_
      qhead_le := by simp [hle]
      processed := ?_ }
  · intro n hn cr hcr q hq hf
    have hn' := htake n (hbelow n hn)
    simp only [hn'] at hf ⊢
    exact h.upTo n (List.mem_of_mem_take hn) cr hcr q hq hf
  · intro k p hk
    obtain ⟨hk, hlt⟩ := hpos k p hk
    have hsplit := congrArg (List.countP (· ≤ k)) (List.take_append_drop level s.trailLim)
    rw [List.countP_append, h.countP_drop hlim hlt, Nat.add_zero] at hsplit
    exact (h.level_eq k p hk).trans hsplit.symm
  · intro k p cr hk hr hlv
    obtain ⟨hk, hlt⟩ := hpos k p hk
    obtain ⟨hcr, rest, hc, hrest⟩ := h.reason_eq k p cr hk hr hlv
    exact ⟨hcr, rest, hc, by simpa only [htake k hlt.le] using hrest⟩
  · intro cr hcr q hq hf
    simp only [htake lim le_rfl] at hf
    exact h.upTo lim hmem cr hcr q hq hf

end Core

end Parsat.Minisat
