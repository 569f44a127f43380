import Parsat.Library.Weight
import Parsat.Minisat.Search

/-!
# Minisat — progress

Conflicts do not go on forever.  A decision opens a level, a learnt clause adds a literal to an
earlier one, and clauses that are forgotten meanwhile change neither: read as digits, the numbers of
literals up to each level grow in every round (`searchStep_progress`).  So a search ends, also
without a bound on the conflicts, and its answer is right (`search_spec`).
-/

namespace Parsat.Minisat

open UnitProp

namespace Core

variable {s t u : Core} {W : Lit → List Watcher} {p q a : Lit} {cr k n : ℕ} {c : Clause} {F : Cnf}
  {cfg : Config} {g : Guess}

/-- How many literals are assigned up to a level. -/
def filled (s : Core) (level : ℕ) : ℕ := (s.trailLim[level]?).getD s.trail.length

def progress (s : Core) : ℕ := Weight.sum s.nVars s.filled s.maxLevels

theorem Base.filled_le (h : s.Base W) (i : ℕ) : s.filled i ≤ s.trail.length := by
  unfold filled
  cases hi : s.trailLim[i]? with
  | none => exact le_rfl
  | some n => exact h.lim_le n (List.mem_of_getElem? hi)

theorem progress_lt_max (hb : s.Base W) (hlen : s.trail.length ≤ s.nVars) :
    s.progress < s.maxConflicts :=
  Weight.sum_lt_pow fun i _ => (hb.filled_le i).trans hlen

/-- Literals of the present level. -/
theorem progress_le (hlim : t.trailLim = s.trailLim) (hlen : s.trail.length ≤ t.trail.length)
    (hn : t.nVars = s.nVars) (ha : t.assumptions = s.assumptions) : s.progress ≤ t.progress := by
  unfold progress maxLevels
  rw [hn, ha]
  refine Weight.sum_mono fun i _ => ?_
  unfold filled
  rw [hlim]
  cases s.trailLim[i]? with
  | none => exact hlen
  | some n => exact le_rfl

theorem progress_of_outline (h : t.outline = s.outline) : t.progress = s.progress := by
  unfold progress maxLevels filled
  rw [nVars_of_fixed (fixed_of_outline h), assumptions_of_fixed (fixed_of_outline h),
    trail_of_outline h, trailLim_of_outline h]

/-- A level without a literal. -/
theorem filled_newDecisionLevel (s : Core) : s.newDecisionLevel.filled = s.filled := by
  funext i
  unfold filled newDecisionLevel
  rcases lt_trichotomy i s.trailLim.length with hi | rfl | hi
  · rw [List.getElem?_append_left hi]
  · simp
  · rw [List.getElem?_eq_none hi.le, List.getElem?_eq_none]
    rw [List.length_append, List.length_singleton]
    exact hi

theorem progress_newDecisionLevel (s : Core) : s.newDecisionLevel.progress = s.progress := by
  unfold progress
  rw [filled_newDecisionLevel]
  rfl

/-- A new level with a literal. -/
theorem progress_decide (hb : s.Base W) (hlen : s.trail.length ≤ s.nVars)
    (hl : s.decisionLevel + 1 < s.maxLevels) (p : Lit) :
    s.progress < (s.newDecisionLevel.uncheckedEnqueue p none).progress := by
  rw [← progress_newDecisionLevel]
  have hle : ∀ i, s.newDecisionLevel.filled i ≤ s.nVars := fun i => by
    rw [filled_newDecisionLevel]
    exact (hb.filled_le i).trans hlen
  have hlim : s.newDecisionLevel.trailLim.length = s.decisionLevel + 1 := by
    simp [newDecisionLevel, decisionLevel]
  refine Weight.sum_lt (fun i _ => hle i) hl (fun i hi => ?_) ?_
  · change (s.newDecisionLevel.trailLim[i]?).getD _ ≤ (s.newDecisionLevel.trailLim[i]?).getD _
    rw [List.getElem?_eq_getElem (hlim ▸ hi)]
    exact le_rfl
  · change (s.newDecisionLevel.trailLim[s.decisionLevel + 1]?).getD s.trail.length <
      (s.newDecisionLevel.trailLim[s.decisionLevel + 1]?).getD (s.trail ++ [p]).length
    rw [List.getElem?_eq_none hlim.le]
    simp

theorem length_trail_learn_eq (s : Core) (hc : c ≠ []) :
    (s.learn c).trail.length = s.trail.length + 1 := by
  match c, hc with
  | [_], _ => simp [learn, uncheckedEnqueue]
  | p :: q :: c, _ =>
      rw [learn, pushClause_eq]
      simp [uncheckedEnqueue]

/-- One more literal on an earlier level. -/
theorem progress_learn (hb : s.Base W) (hlen : s.trail.length ≤ s.nVars) {bt : ℕ}
    (hbt : bt < s.decisionLevel) (hl : s.decisionLevel ≤ s.maxLevels) (hc : c ≠ []) :
    s.progress < ((s.cancelUntil bt).learn c).progress := by
  have hlim := List.getElem?_eq_getElem hbt
  have hle := hb.lim_le _ (List.mem_of_getElem? hlim)
  have hfix := (fixed_learn (s.cancelUntil bt) c).trans (fixed_cancelUntil s bt)
  have hlims : ((s.cancelUntil bt).learn c).trailLim = s.trailLim.take bt := by
    rw [trailLim_learn, cancelUntil_eq hlim]
  have htrail : ((s.cancelUntil bt).learn c).trail.length = s.trailLim[bt] + 1 := by
    rw [length_trail_learn_eq _ hc, cancelUntil_eq hlim, List.length_take, min_eq_left hle]
  unfold progress maxLevels
  rw [nVars_of_fixed hfix, assumptions_of_fixed hfix]
  refine Weight.sum_lt (fun i _ => (hb.filled_le i).trans hlen) (hbt.trans_le hl)
    (fun i hi => ?_) ?_
  · -- the earlier levels are full
    unfold filled
    rw [hlims, List.getElem?_take_of_lt hi, List.getElem?_eq_getElem (hi.trans hbt)]
    exact le_rfl
  · unfold filled
    rw [hlims, hlim, htrail, List.getElem?_eq_none (by simp)]
    simp

/-! ### One round -/

def Assumed.state : Assumed → Core
  | .done s | .next s _ | .failed s _ => s

/-- The loop over the assumptions opens levels without literals. -/
theorem progress_assume (s : Core) (ps : List Lit) :
    (s.assume ps).state.progress = s.progress := by
  induction ps generalizing s with
  | nil => rfl
  | cons p ps ih =>
      unfold assume
      cases s.value p with
      | «true» => exact (ih s.newDecisionLevel).trans (progress_newDecisionLevel s)
      | «false» => rfl
      | undef => rfl

theorem Settled.decideNext_progress (h : s.Settled F) {conflictC c' : ℕ}
    (hr : Core.decideNext g conflictC s = .next c' u) :
    s.progress < u.progress ∧ c' = conflictC := by
  have hgood := h.decideNext (Nat.lt_succ_self conflictC) g
  have hassume := h.assume (rfl : s.assumptions.drop s.decisionLevel = _)
  rw [hr] at hgood
  obtain ⟨hsound, hlevels, -, -⟩ := hgood
  have hlen := hsound.searching.toBounded.trail_le hsound.inv.toBase
  have hdl := hlevels.length_le
  -- the new level with its literal
  have hnew : ∀ (t : Core) (p : Lit), t.Base t.watches →
      u = t.newDecisionLevel.uncheckedEnqueue p none → t.progress < u.progress := by
    rintro t p hb rfl
    simp only [uncheckedEnqueue, newDecisionLevel, decisionLevel, List.length_append,
      List.length_singleton] at hlen hdl
    refine progress_decide hb (by omega) ?_ p
    simp only [maxLevels, decisionLevel]
    omega
  unfold Core.decideNext at hr
  have hprog := progress_assume s (s.assumptions.drop s.decisionLevel)
  cases ha : s.assume (s.assumptions.drop s.decisionLevel) with
  | failed t p => simp [ha] at hr
  | next t p =>
      rw [ha] at hr hassume hprog
      obtain ⟨rfl, rfl⟩ := Round.next.inj hr
      exact ⟨hprog ▸ hnew t p hassume.1.inv.toBase rfl, rfl⟩
  | done t =>
      rw [ha] at hr hassume hprog
      simp only at hr
      rcases pickBranchLit_spec hassume.1.searching.toBounded g with
        ⟨hnone, -, -⟩ | ⟨p, heap, hpick, -, -, -, -⟩
      · rcases hp : t.pickBranchLit g with ⟨_ | p, v⟩
        · simp [hp] at hr
        · simp [hp] at hnone
      · rw [hpick] at hr
        obtain ⟨rfl, rfl⟩ := Round.next.inj hr
        have hb : Base t.watches { t with orderHeap := heap } :=
          { hassume.1.inv.toBase with wf := hassume.1.inv.wf.of_trail rfl rfl }
        exact ⟨hprog ▸ hnew { t with orderHeap := heap } p hb rfl, rfl⟩

/-- **Every round makes progress.** -/
theorem searchStep_progress (h : s.Sound F) (hlevels : s.Levels) (hok : s.ok = true)
    {nofConflicts : ℤ} {conflictC c' : ℕ}
    (hr : searchStep cfg nofConflicts g conflictC s = .next c' u) :
    s.progress < u.progress ∧ c' ≤ conflictC + 1 := by
  obtain ⟨hnone, hsome⟩ := h.propagate
  obtain ⟨hext, hbase, hq, -, -⟩ := h.inv.propagate
  have hfix := hext.fixed_eq
  obtain ⟨ext, he⟩ := hext.trail_eq
  have hlen : s.trail.length ≤ s.propagate.2.trail.length := by simp [he]
  have hlevels' := hlevels.mono hext.trailLim_eq (assumptions_of_fixed hfix) hlen
  have hprog := progress_le hext.trailLim_eq hlen (nVars_of_fixed hfix) (assumptions_of_fixed hfix)
  unfold searchStep at hr
  rcases hp : s.propagate with ⟨_ | cr, t⟩
  case some =>
      rw [hp] at hsome hlevels' hprog hr
      have hconf := hsome cr rfl
      have hlevels' : t.Levels := hlevels'
      simp only at hr
      split_ifs at hr with hdl
      obtain ⟨d, bt, hana, hL⟩ := analyze_spec hconf.base hconf.searching.decided
        (Nat.pos_of_ne_zero hdl) cfg.ccminMode hconf.mem hconf.false
      simp only [hana] at hr
      obtain ⟨rfl, rfl⟩ := Round.next.inj hr
      have hne : d ≠ [] := by
        obtain ⟨⟨p, rest, rfl, -⟩, -⟩ := hL
        simp
      have htrail : t.trail.length ≤ t.nVars := hconf.searching.toBounded.trail_le hconf.base
      have hmax : t.decisionLevel ≤ t.maxLevels := by
        have := hlevels'.length_le
        simp only [maxLevels]
        omega
      exact ⟨hprog.trans_lt (progress_learn hconf.base htrail hL.lt hmax hne), le_rfl⟩
  case none =>
      rw [hp] at hnone hfix hlevels' hprog hq hr
      have hset : t.Settled F := ⟨hnone rfl, hlevels', hq⟩
      simp only at hr
      by_cases hstop : Reached nofConflicts conflictC ∨ g.stop = true
      · simp [hstop] at hr
      obtain ⟨v, hv, hvset, hvo⟩ := hset.tidy ((ok_of_fixed hfix).trans hok) cfg g
      rw [if_neg hstop, hv, if_neg (by simp)] at hr
      obtain ⟨hlt, rfl⟩ := hvset.decideNext_progress hr
      rw [progress_of_outline hvo] at hlt
      exact ⟨hprog.trans_lt hlt, Nat.le_succ _⟩

theorem decideNext_ne_undef {conflictC : ℕ} :
    decideNext g conflictC s ≠ .done .undef u := by
  intro hr
  unfold decideNext at hr
  cases ha : s.assume (s.assumptions.drop s.decisionLevel) with
  | failed t p => simp [ha] at hr
  | next t p => simp [ha] at hr
  | done t =>
      rw [ha] at hr
      rcases hp : t.pickBranchLit g with ⟨_ | p, v⟩ <;> simp [hp] at hr

/-- A search is given up only when the bound is reached or the budget used up. -/
theorem searchStep_undef {nofConflicts : ℤ} {conflictC : ℕ}
    (hr : searchStep cfg nofConflicts g conflictC s = .done .undef u) :
    Reached nofConflicts conflictC ∨ g.stop = true := by
  by_contra hstop
  unfold searchStep at hr
  rcases hp : s.propagate with ⟨_ | cr, t⟩
  case some =>
      rw [hp] at hr
      simp only at hr
      split_ifs at hr
      · cases hr
      · cases hana : t.analyze cfg.ccminMode cr fun _ => .undef with
        | none => simp [hana] at hr
        | some _ => simp [hana] at hr
  case none =>
      rw [hp] at hr
      simp only [if_neg hstop] at hr
      generalize (if t.decisionLevel = 0 then simplify cfg g t else (true, t)) = r at hr
      split_ifs at hr
      · cases hr
      · exact decideNext_ne_undef hr
      · exact decideNext_ne_undef hr

/-! ### The search -/

theorem maxConflicts_eq (h : t.fixed = s.fixed) : t.maxConflicts = s.maxConflicts := by
  unfold maxConflicts maxLevels
  rw [nVars_of_fixed h, assumptions_of_fixed h]

/-- As long as its bound is not reached, a search has fewer conflicts than it can have at all. -/
theorem lt_limit (h : s.Sound F) {nofConflicts : ℤ} {conflictC : ℕ} (hc : conflictC ≤ s.progress)
    (hr : ¬ Reached nofConflicts conflictC) : conflictC < limit nofConflicts s := by
  unfold limit
  unfold Reached at hr
  split_ifs with hn
  · omega
  · exact hc.trans_lt
      (progress_lt_max h.inv.toBase (h.searching.toBounded.trail_le h.inv.toBase))

/-- An answer, and what it leaves as it is. -/
structure Answered (F : Cnf) (s : Core) (status : LBool) (t : Core) : Prop where
  verdict : Verdict F t status
  ok_eq : t.ok = s.ok
  nVars_eq : t.nVars = s.nVars
  decision_eq : t.decision = s.decision
  assumptions_eq : t.assumptions = s.assumptions

theorem Answered.trans {status : LBool} (h : t.Answered F status u) (hok : t.ok = s.ok)
    (hn : t.nVars = s.nVars) (hd : t.decision = s.decision) (ha : t.assumptions = s.assumptions) :
    s.Answered F status u :=
  ⟨h.verdict, h.ok_eq.trans hok, h.nVars_eq.trans hn, h.decision_eq.trans hd,
    h.assumptions_eq.trans ha⟩

/-- **The rounds of a search** come to an answer, and without a budget to `undef` only where the
bound is below what a search can have. -/
theorem searchLoop_spec (h : s.Sound F) (hlevels : s.Levels) (hok : s.ok = true)
    (hconfl : s.conflict = []) (cfg : Config) (gs : ℕ → Guess) {nofConflicts : ℤ} {conflictC : ℕ}
    (hc : conflictC ≤ s.progress) (hn : distance (limit nofConflicts s) conflictC s < n) :
    ∃ status t, searchLoop cfg nofConflicts gs n conflictC s = some (status, t) ∧
      s.Answered F status t ∧ (status = .undef → (∀ i, (gs i).stop = false) →
        0 ≤ nofConflicts ∧ nofConflicts < s.maxConflicts) := by
  -- each round brings the end closer, and there are no more conflicts than progress
  induction n generalizing s conflictC with
  | zero => exact absurd hn (Nat.not_lt_zero _)
  | succ n ih =>
      have hround := searchStep_spec h hlevels hok hconfl cfg nofConflicts (gs n) (lt_limit h hc)
      rw [searchLoop]
      cases hr : searchStep cfg nofConflicts (gs n) conflictC s with
      | next c t =>
          rw [hr] at hround
          obtain ⟨hsound, hlev, hfix, hlt⟩ := hround
          obtain ⟨hprog, hc'⟩ := searchStep_progress h hlevels hok hr
          have hlimit : limit nofConflicts t = limit nofConflicts s := by
            unfold limit
            rw [maxConflicts_eq hfix]
          have hle : c ≤ t.progress := by omega
          have hdist : distance (limit nofConflicts t) c t < n := by
            rw [hlimit]
            omega
          obtain ⟨status, u, hu, hans, hundef⟩ := ih hsound hlev ((ok_of_fixed hfix).trans hok)
            ((conflict_of_fixed hfix).trans hconfl) hle hdist
          exact ⟨status, u, hu, hans.trans (ok_of_fixed hfix) (nVars_of_fixed hfix)
            (congrArg decision hfix : t.fixed.decision = s.fixed.decision)
            (assumptions_of_fixed hfix), maxConflicts_eq hfix ▸ hundef⟩
      | done status t =>
          rw [hr] at hround
          obtain ⟨h₁, h₂, h₃, h₄, h₅⟩ := hround
          refine ⟨status, t, rfl, ⟨h₁, h₂, h₃, h₄, h₅⟩, ?_⟩
          rintro rfl hgs
          have hlt := progress_lt_max h.inv.toBase (h.searching.toBounded.trail_le h.inv.toBase)
          have hreached := (searchStep_undef hr).resolve_right (by simp [hgs n])
          unfold Reached at hreached
          omega
      | failed =>
          rw [hr] at hround
          exact hround.elim

/-- No levels yet. -/
theorem Clean.levels (h : s.Clean F) : s.Levels :=
  ⟨fun i n hi => by simp [h.trailLim_eq] at hi, by simp [decisionLevel, h.trailLim_eq]⟩

/-- **The search** ends, no assertion fails, and its answer is right.  It is given up only when the
budget is used up or the bound is reached, and it does not reach a bound above all numbers of
conflicts it can have. -/
theorem search_spec (h : s.Clean F) (hok : s.ok = true) (hconfl : s.conflict = [])
    (cfg : Config) (nofConflicts : ℤ) (gs : ℕ → Guess) :
    ∃ status t, s.search cfg nofConflicts gs = some (status, t) ∧ s.Answered F status t ∧
      (status = .undef → (∀ i, (gs i).stop = false) →
        0 ≤ nofConflicts ∧ nofConflicts < s.maxConflicts) := by
  refine searchLoop_spec h.toSound h.levels hok hconfl cfg gs (Nat.zero_le _) ?_
  unfold distance searchFuel
  split_ifs
  · simp only [Nat.sub_zero]
    omega
  · simp only [decisionLevel, h.trailLim_eq, List.length_nil]
    omega

end Core

end Parsat.Minisat
