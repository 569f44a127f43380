import Parsat.Minisat.Progress
import Parsat.Sat.PropCheck

/-!
# Minisat — checking assumptions

The three calls that only propagate: `prop_check(assumps)` enqueues all assumptions at one level,
`prop_check(assumps, prop)` opens a level for each of them, and `prop_check_subtree` walks the tree
of signs of the variables behind the head.

* `Probed.decide`, `Probing.cancelUntil`: a literal is tried, and what was tried is undone.
* `Clean.propCheck`, `Clean.propCheckProp`, `Clean.propCheckSubtree`: after each call the solver is
  back on level 0, with everything propagated.
* `Clean.propCheck_refines`: `prop_check` with watched literals is `prop_check` of the abstract
  solver.
-/

namespace Parsat.Minisat

open UnitProp

namespace Core

/-- The loop `prop_check` enqueues its assumptions with. -/
def enqueueAll (s : Core) : LitVec → Bool × Core
  | [] => (true, s)
  | p :: ps =>
    match s.value p with
    | .false => (false, s)
    | .true => s.enqueueAll ps
    | .undef => (s.uncheckedEnqueue p none).enqueueAll ps

/-- `prop_check(assumps, psaving)`: the answer and the state after it. -/
def propCheck (s : Core) (assumps : LitVec) (psaving : ℕ) : Bool × Core :=
  if s.ok = false then (false, s)
  else
    let level := s.decisionLevel
    let e := ({ s with phaseSaving := psaving }.newDecisionLevel).enqueueAll assumps
    let r := if e.1 then e.2.propagate else (none, e.2)
    let t := if level < r.2.decisionLevel then r.2.cancelUntil level else r.2
    (e.1 && r.1.isNone, { t with phaseSaving := s.phaseSaving })

/-- The loop of the second `prop_check`: `st`, the conflict `confl` and the state. -/
def propagateEach : LitVec → Core → Bool × Option ℕ × Core
  | [], s => (true, none, s)
  | p :: ps, s =>
    match s.value p with
    | .false => (false, none, s)
    | .true => propagateEach ps s
    | .undef =>
      match (s.newDecisionLevel.uncheckedEnqueue p none).propagate with
      | (none, t) => propagateEach ps t
      | (some confl, t) => (true, some confl, t)

/-- `prop_check(assumps, prop, psaving)`: the answer, `prop` and the state after it. -/
def propCheckProp (s : Core) (assumps : LitVec) (psaving : ℕ) : (Bool × LitVec) × Core :=
  if s.ok = false then ((false, []), s)
  else
    let level := s.decisionLevel
    let e := propagateEach assumps { s with phaseSaving := psaving }
    let r := e.2.2
    let prop :=
      if level < r.decisionLevel then
        r.trail.drop (r.trailLim.getD level 0) ++
          (e.2.1.map fun confl => (r.ca confl).take 1).getD []
      else []
    let t := if level < r.decisionLevel then r.cancelUntil level else r
    ((e.1 && e.2.1.isNone, prop), { t with phaseSaving := s.phaseSaving })

/-- One of the two blocks of `prop_check_subtree_impl`: the subtree below the literal `p`, of
`half` assignments, with `next` for the variables after it. -/
def subtreeBranch (half : UInt64) (next : Core → UInt64 × Core) (p : Lit) (s : Core) :
    UInt64 × Core :=
  match s.value p with
  | .false => (half, s)
  | .undef =>
    let baseLevel := s.decisionLevel
    let n :=
      match (s.newDecisionLevel.uncheckedEnqueue p none).propagate with
      | (none, t) => next t
      | (some _, t) => (half, t)
    (n.1, n.2.cancelUntil baseLevel)
  | .true => next s

/-- `prop_check_subtree_impl(vars, index)`, on the variables from `index` on. -/
def propCheckSubtreeImpl : LitVec → Core → UInt64 × Core
  | [], s => (0, s)
  | l :: vars, s =>
    let half : UInt64 := 1 <<< UInt64.ofNat vars.length
    let left := s.subtreeBranch half (propCheckSubtreeImpl vars) (mkLit l.var true)
    let right := left.2.subtreeBranch half (propCheckSubtreeImpl vars) (mkLit l.var false)
    (left.1 + right.1, right.2)

/-- `prop_check_subtree(vars, head_size)`. -/
def propCheckSubtree (s : Core) (vars : LitVec) (headSize : ℕ) : UInt64 × Core :=
  let subtreeSize : UInt64 := 1 <<< UInt64.ofNat (vars.length - headSize)
  if s.ok = false then (subtreeSize, s)
  else
    let level := s.decisionLevel
    let e := s.newDecisionLevel.enqueueAll (vars.take headSize)
    let r :=
      if e.1 then
        match e.2.propagate with
        | (none, t) => propCheckSubtreeImpl (vars.drop headSize) t
        | (some _, t) => (subtreeSize, t)
      else (subtreeSize, e.2)
    (r.1, if level < r.2.decisionLevel then r.2.cancelUntil level else r.2)

variable {s t u : Core} {p : Lit} {n : ℕ} {F : Cnf}

theorem usable_congr (hn : t.nVars = s.nVars) (hd : t.decision = s.decision) (v : ℕ) :
    t.Usable v ↔ s.Usable v := by
  rw [Usable, Usable, hn, hd]

theorem model_of_fixed (h : t.fixed = s.fixed) : t.model = s.model :=
  (congrArg model h : t.fixed.model = s.fixed.model)

theorem usable_of_fixed (h : t.fixed = s.fixed) (v : ℕ) : t.Usable v ↔ s.Usable v :=
  usable_congr (nVars_of_fixed h) (congrArg decision h : t.fixed.decision = s.fixed.decision) v

/-! ### Trying literals -/

/-- The state `t` while literals are tried on top of `s`. -/
structure Probing (F : Cnf) (s t : Core) : Prop where
  base : t.Base t.watches
  bounded : t.Bounded
  means : t.Means F
  fixed_eq : t.fixed = s.fixed

/-- With everything propagated, the next one may be tried. -/
structure Probed (F : Cnf) (s t : Core) : Prop extends Probing F s t where
  inv : t.Inv
  qhead_eq : t.qhead = t.trail.length

theorem Clean.probed (h : s.Clean F) (k : ℕ) : Probed F s { s with phaseSaving := k } := by
  have hinv : Inv { s with phaseSaving := k } :=
    { h.inv with wf := h.inv.wf.of_trail rfl rfl }
  exact ⟨⟨hinv.toBase, { h.searching.toBounded with }, { h.means with }, rfl⟩, hinv, h.qhead_eq⟩

/-- Back on level 0. -/
theorem Probed.clean (h : Probed F s t) (hdl : t.decisionLevel = 0) (k : ℕ) :
    Clean F { t with phaseSaving := k } := by
  have hlim : t.trailLim = [] := List.length_eq_zero_iff.mp hdl
  have hlevel : ∀ q ∈ t.trail, t.level q.var = 0 := fun q => h.base.level_eq_zero hlim
  refine ⟨⟨{ h.inv with wf := h.inv.wf.of_trail rfl rfl }, ?_, { h.means with }⟩, h.qhead_eq, hlim⟩
  exact
    { h.bounded with
      decided := fun k p hk hl _ => absurd (hlevel p (List.mem_of_getElem? hk)) hl.ne'
      assumed := fun p hp _ hl _ => absurd (hlevel p hp) hl.ne'
      met := fun i a hi => absurd hi (by simp [decisionLevel, hlim]) }

theorem decisionLevel_newDecisionLevel (s : Core) :
    s.newDecisionLevel.decisionLevel = s.decisionLevel + 1 := by
  simp [decisionLevel, newDecisionLevel]

theorem Probed.newDecisionLevel (h : Probed F s t) : Probed F s t.newDecisionLevel := by
  have hinv := h.inv.newDecisionLevel h.qhead_eq
  refine ⟨⟨hinv.toBase, { h.bounded with }, ⟨fun m => ?_, h.means.learnt⟩, h.fixed_eq⟩, hinv,
    h.qhead_eq⟩
  rw [level0_newDecisionLevel]
  exact h.means.models m

/-- Above level 0 a literal may be enqueued without a reason. -/
theorem Probing.uncheckedEnqueue (h : Probing F s t) (hdl : 0 < t.decisionLevel)
    (hu : s.Usable p.var) (hinv : t.Inv) (hv : t.value p = .undef) :
    Probing F s (t.uncheckedEnqueue p none) ∧ (t.uncheckedEnqueue p none).Inv := by
  have hinv' : (t.uncheckedEnqueue p none).Inv := hinv.uncheckedEnqueue hv (by simp)
  have hlim : t.trailLim ≠ [] := List.ne_nil_of_length_pos hdl
  have hu' : t.Usable p.var := (usable_of_fixed h.fixed_eq _).mpr hu
  exact ⟨⟨hinv'.toBase, h.bounded.uncheckedEnqueue hu' none, h.means.enqueue h.base hlim,
    h.fixed_eq⟩, hinv'⟩

/-- Without a conflict everything is propagated then. -/
theorem Probing.propagate (h : Probing F s t) (hinv : t.Inv) :
    Probing F s t.propagate.2 ∧ (t.propagate.1 = none → Probed F s t.propagate.2) ∧
      t.propagate.2.decisionLevel = t.decisionLevel := by
  obtain ⟨hext, hbase, hq, hnone, -⟩ := hinv.propagate
  have hp : Probing F s t.propagate.2 :=
    ⟨hbase, h.bounded.of_extends h.base hbase hext, h.means.of_extends h.base hext,
      hext.fixed_eq.trans h.fixed_eq⟩
  exact ⟨hp, fun e => ⟨hp, hnone e, hq⟩, congrArg List.length hext.trailLim_eq⟩

/-- **A literal is tried** on a level of its own. -/
theorem Probed.decide (h : Probed F s t) (hu : s.Usable p.var) (hv : t.value p = .undef)
    {confl : Option ℕ}
    (hr : (t.newDecisionLevel.uncheckedEnqueue p none).propagate = (confl, u)) :
    Probing F s u ∧ (confl = none → Probed F s u) ∧ u.decisionLevel = t.decisionLevel + 1 := by
  have hnew := h.newDecisionLevel
  have hlevel := decisionLevel_newDecisionLevel t
  obtain ⟨hp, hinv⟩ :=
    hnew.toProbing.uncheckedEnqueue (hlevel ▸ Nat.succ_pos _) hu hnew.inv hv
  have hprop := hp.propagate hinv
  rw [hr] at hprop
  exact ⟨hprop.1, hprop.2.1, hprop.2.2.trans hlevel⟩

/-- **What was tried is undone**, after a conflict too. -/
theorem Probing.cancelUntil (h : Probing F s t) {level : ℕ} (hl : level < t.decisionLevel) :
    Probed F s (t.cancelUntil level) ∧ (t.cancelUntil level).decisionLevel = level := by
  have hlim := List.getElem?_eq_getElem (show level < t.trailLim.length from hl)
  have hinv := h.base.cancelUntil hl
  refine ⟨⟨⟨hinv.toBase, h.bounded.cancelUntil level, h.means.cancelUntil h.base level,
    (fixed_cancelUntil t level).trans h.fixed_eq⟩, hinv, ?_⟩, decisionLevel_cancelUntil hl.le⟩
  rw [cancelUntil_eq hlim]
  exact (List.length_take_of_le (h.base.lim_le _ (List.getElem_mem _))).symm

/-- The end of a call: nothing was tried, or everything is undone. -/
theorem Probing.finish (h : Probing F s t) (h0 : t.decisionLevel = 0 → Probed F s t) (k : ℕ) :
    Clean F { (if 0 < t.decisionLevel then t.cancelUntil 0 else t) with phaseSaving := k } ∧
      (if 0 < t.decisionLevel then t.cancelUntil 0 else t).fixed = s.fixed := by
  split_ifs with hl
  · obtain ⟨hp, hdl⟩ := h.cancelUntil hl
    exact ⟨hp.clean hdl k, hp.fixed_eq⟩
  · have hdl : t.decisionLevel = 0 := Nat.eq_zero_of_not_pos hl
    exact ⟨(h0 hdl).clean hdl k, h.fixed_eq⟩

theorem Clean.decisionLevel_eq (h : s.Clean F) : s.decisionLevel = 0 :=
  List.length_eq_zero_iff.mpr h.trailLim_eq

/-! ### All assumptions at once -/

theorem Probing.enqueueAll {ps : LitVec} (h : Probing F s t) (hinv : t.Inv)
    (hdl : 0 < t.decisionLevel) (hps : ∀ p ∈ ps, s.Usable p.var) :
    Probing F s (t.enqueueAll ps).2 ∧ (t.enqueueAll ps).2.Inv ∧
      (t.enqueueAll ps).2.decisionLevel = t.decisionLevel := by
  induction ps generalizing t with
  | nil => exact ⟨h, hinv, rfl⟩
  | cons p ps ih =>
      rw [List.forall_mem_cons] at hps
      unfold Core.enqueueAll
      cases hv : t.value p with
      | «false» => exact ⟨h, hinv, rfl⟩
      | «true» => exact ih h hinv hdl hps.2
      | undef =>
          obtain ⟨hp, hinv'⟩ := h.uncheckedEnqueue hdl hps.1 hinv hv
          exact ih hp hinv' hdl hps.2

/-- A new level with the assumptions on it. -/
theorem Clean.enqueueAll (h : s.Clean F) {a : LitVec} (ha : ∀ p ∈ a, s.Usable p.var) (k : ℕ) :
    let e := ({ s with phaseSaving := k }.newDecisionLevel).enqueueAll a
    Probing F s e.2 ∧ e.2.Inv ∧ e.2.decisionLevel = 1 := by
  have hnew := (h.probed k).newDecisionLevel
  have hlevel : ({ s with phaseSaving := k }.newDecisionLevel).decisionLevel = 1 :=
    (decisionLevel_newDecisionLevel _).trans (congrArg (· + 1) h.decisionLevel_eq)
  obtain ⟨hp, hinv, hdl⟩ :=
    hnew.toProbing.enqueueAll hnew.inv (hlevel ▸ Nat.one_pos) ha
  exact ⟨hp, hinv, hdl.trans hlevel⟩

/-- **After `prop_check(assumps)`** the solver is back between two calls. -/
theorem Clean.propCheck (h : s.Clean F) (hok : s.ok = true) {a : LitVec}
    (ha : ∀ p ∈ a, s.Usable p.var) (k : ℕ) :
    (s.propCheck a k).2.Clean F ∧ (s.propCheck a k).2.fixed = s.fixed := by
  obtain ⟨hp, hinv, hdl⟩ := h.enqueueAll ha k
  unfold Core.propCheck
  rw [if_neg (by simp [hok])]
  set e := ({ s with phaseSaving := k }.newDecisionLevel).enqueueAll a
  obtain ⟨hr, hlevel⟩ : Probing F s (if e.1 then e.2.propagate else (none, e.2)).2 ∧
      (if e.1 then e.2.propagate else (none, e.2)).2.decisionLevel = 1 := by
    split_ifs
    · obtain ⟨hp', -, hdl'⟩ := hp.propagate hinv
      exact ⟨hp', hdl'.trans hdl⟩
    · exact ⟨hp, hdl⟩
  simp only [h.decisionLevel_eq]
  exact hr.finish (fun e => by omega) s.phaseSaving

/-! ### One assumption after the other -/

theorem Probed.propagateEach {ps : LitVec} (h : Probed F s t) (hps : ∀ p ∈ ps, s.Usable p.var) :
    Probing F s (propagateEach ps t).2.2 ∧
      ((propagateEach ps t).2.2.decisionLevel = 0 → Probed F s (propagateEach ps t).2.2) := by
  induction ps generalizing t with
  | nil => exact ⟨h.toProbing, fun _ => h⟩
  | cons p ps ih =>
      rw [List.forall_mem_cons] at hps
      unfold Core.propagateEach
      cases hv : t.value p with
      | «false» => exact ⟨h.toProbing, fun _ => h⟩
      | «true» => exact ih h hps.2
      | undef =>
          rcases hr : (t.newDecisionLevel.uncheckedEnqueue p none).propagate with ⟨_ | confl, u⟩
          · exact ih ((h.decide hps.1 hv hr).2.1 rfl) hps.2
          · obtain ⟨hp, -, hdl⟩ := h.decide hps.1 hv hr
            exact ⟨hp, fun e => absurd (hdl.symm.trans e) (Nat.succ_ne_zero _)⟩

/-- **After `prop_check(assumps, prop)`** the solver is back between two calls. -/
theorem Clean.propCheckProp (h : s.Clean F) (hok : s.ok = true) {a : LitVec}
    (ha : ∀ p ∈ a, s.Usable p.var) (k : ℕ) :
    (s.propCheckProp a k).2.Clean F ∧ (s.propCheckProp a k).2.fixed = s.fixed := by
  obtain ⟨hp, h0⟩ := (h.probed k).propagateEach ha
  unfold Core.propCheckProp
  rw [if_neg (by simp [hok])]
  simp only [h.decisionLevel_eq]
  exact hp.finish h0 s.phaseSaving

/-! ### The tree of signs -/

/-- A subtree is left as it was entered, if the walk below it does the same. -/
theorem Probed.subtreeBranch (h : Probed F s t) (hu : s.Usable p.var) (half : UInt64)
    {next : Core → UInt64 × Core}
    (hnext : ∀ u, Probed F s u →
      Probed F s (next u).2 ∧ (next u).2.decisionLevel = u.decisionLevel) :
    Probed F s (t.subtreeBranch half next p).2 ∧
      (t.subtreeBranch half next p).2.decisionLevel = t.decisionLevel := by
  unfold Core.subtreeBranch
  cases hv : t.value p with
  | «false» => exact ⟨h, rfl⟩
  | «true» => exact hnext t h
  | undef =>
      rcases hr : (t.newDecisionLevel.uncheckedEnqueue p none).propagate with ⟨_ | confl, u⟩
      · obtain ⟨-, hp, hdl⟩ := h.decide hu hv hr
        obtain ⟨hn, hdl'⟩ := hnext u (hp rfl)
        exact hn.toProbing.cancelUntil (hdl'.trans hdl ▸ Nat.lt_succ_self _)
      · obtain ⟨hp, -, hdl⟩ := h.decide hu hv hr
        exact hp.cancelUntil (hdl ▸ Nat.lt_succ_self _)

/-- **The walk** over the tree leaves the levels it was called on. -/
theorem Probed.propCheckSubtreeImpl {vars : LitVec} (h : Probed F s t)
    (hv : ∀ l ∈ vars, s.Usable l.var) :
    Probed F s (propCheckSubtreeImpl vars t).2 ∧
      (propCheckSubtreeImpl vars t).2.decisionLevel = t.decisionLevel := by
  induction vars generalizing t with
  | nil => exact ⟨h, rfl⟩
  | cons l vars ih =>
      rw [List.forall_mem_cons] at hv
      have hnext : ∀ u, Probed F s u → Probed F s (Core.propCheckSubtreeImpl vars u).2 ∧
          (Core.propCheckSubtreeImpl vars u).2.decisionLevel = u.decisionLevel :=
        fun u hu => ih hu hv.2
      obtain ⟨hleft, hdl⟩ := h.subtreeBranch (p := mkLit l.var true) hv.1
        (1 <<< UInt64.ofNat vars.length) hnext
      obtain ⟨hright, hdl'⟩ := hleft.subtreeBranch (p := mkLit l.var false) hv.1
        (1 <<< UInt64.ofNat vars.length) hnext
      exact ⟨hright, hdl'.trans hdl⟩

/-- **After `prop_check_subtree`** the solver is back between two calls. -/
theorem Clean.propCheckSubtree (h : s.Clean F) (hok : s.ok = true) {vars : LitVec}
    (hv : ∀ l ∈ vars, s.Usable l.var) (headSize : ℕ) :
    (s.propCheckSubtree vars headSize).2.Clean F ∧
      (s.propCheckSubtree vars headSize).2.fixed = s.fixed := by
  obtain ⟨hp, hinv, hdl⟩ :=
    h.enqueueAll (fun p hp => hv p (List.mem_of_mem_take hp) : ∀ p ∈ vars.take headSize, _)
      s.phaseSaving
  unfold Core.propCheckSubtree
  rw [if_neg (by simp [hok])]
  change Probing F s (s.newDecisionLevel.enqueueAll (vars.take headSize)).2 at hp
  change (s.newDecisionLevel.enqueueAll (vars.take headSize)).2.Inv at hinv
  change (s.newDecisionLevel.enqueueAll (vars.take headSize)).2.decisionLevel = 1 at hdl
  set e := s.newDecisionLevel.enqueueAll (vars.take headSize)
  simp only [h.decisionLevel_eq]
  generalize hr : (if e.1 = true then _ else _ : UInt64 × Core) = r
  obtain ⟨hr', hlevel⟩ : Probing F s r.2 ∧ r.2.decisionLevel = 1 := by
    rw [← hr]
    split_ifs
    · obtain ⟨hp', hnone, hdl'⟩ := hp.propagate hinv
      rcases hc : e.2.propagate with ⟨_ | confl, u⟩
      · rw [hc] at hnone hdl'
        obtain ⟨hw, hdl''⟩ := (hnone rfl).propCheckSubtreeImpl
          (fun l hl => hv l (List.mem_of_mem_drop hl) : ∀ l ∈ vars.drop headSize, _)
        exact ⟨hw.toProbing, hdl''.trans (hdl'.trans hdl)⟩
      · rw [hc] at hp' hdl'
        exact ⟨hp', hdl'.trans hdl⟩
    · exact ⟨hp, hdl⟩
  exact hr'.finish (fun e => by omega) _

/-! ### The abstract solver -/

theorem abs_enqueueAll (s : Core) (a : LitVec) :
    s.abs.enqueueAll a = ((s.enqueueAll a).1, (s.enqueueAll a).2.abs) := by
  induction a generalizing s with
  | nil => rfl
  | cons p ps ih =>
      unfold Solver.enqueueAll enqueueAll
      rw [show s.abs.value p = s.value p from rfl]
      cases s.value p with
      | «false» => rfl
      | «true» => exact ih s
      | undef => exact ih (s.uncheckedEnqueue p none)

open Classical in
/-- A propagator that does in one state what the watches do. -/
noncomputable def propagator (s : Core) (h : s.Inv) : Propagator where
  run x := if x = s.abs then (s.propagate.1.isSome, s.propagate.2.abs) else saturatingRun x
  spec x hx := by
    split_ifs with e
    · exact e ▸ propagate_refines h
    · exact saturatingRun_spec x hx

/-- **`prop_check` with watched literals** is `prop_check` of the abstract solver. -/
theorem Clean.propCheck_refines (h : s.Clean F) {a : LitVec} (ha : ∀ p ∈ a, s.Usable p.var)
    (k : ℕ) :
    ∃ P : Propagator, s.abs.propCheck P a k = ((s.propCheck a k).1, (s.propCheck a k).2.abs) := by
  obtain ⟨-, hinv', -⟩ := h.enqueueAll ha k
  have habs := abs_enqueueAll ({ s with phaseSaving := k }.newDecisionLevel) a
  unfold Core.propCheck Solver.propCheck
  set e := ({ s with phaseSaving := k }.newDecisionLevel).enqueueAll a
  have hrun : (propagator e.2 hinv').run e.2.abs = (e.2.propagate.1.isSome, e.2.propagate.2.abs) :=
    if_pos rfl
  refine ⟨propagator e.2 hinv', ?_⟩
  change (if s.ok = false then _ else _) = _
  split_ifs with hok
  · rfl
  · change ({ s.abs with phaseSaving := k }.newDecisionLevel).enqueueAll a = _ at habs
    have hdl : s.abs.decisionLevel = s.decisionLevel := rfl
    -- undoing the level commutes with forgetting the watches
    have hcancel : ∀ x : Core, (if s.decisionLevel < x.abs.decisionLevel
        then x.abs.cancelUntil s.decisionLevel else x.abs) =
        (if s.decisionLevel < x.decisionLevel then x.cancelUntil s.decisionLevel else x).abs := by
      intro x
      rw [← abs_cancelUntil]
      change (if s.decisionLevel < x.decisionLevel then _ else _) = _
      split_ifs <;> rfl
    simp only [habs, hdl]
    cases e.1 with
    | true =>
        simp only [hrun, if_true, hcancel, Bool.true_and]
        generalize (if s.decisionLevel < e.2.propagate.2.decisionLevel then
          e.2.propagate.2.cancelUntil s.decisionLevel else e.2.propagate.2) = x
        cases e.2.propagate.1 <;> rfl
    | false =>
        simp only [if_false, Bool.false_eq_true, hcancel, Bool.false_and]
        generalize (if s.decisionLevel < e.2.decisionLevel then
          e.2.cancelUntil s.decisionLevel else e.2) = x
        rfl

end Core

end Parsat.Minisat
