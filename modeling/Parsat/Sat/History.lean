import Parsat.Sat.PropCheck

/-!
# Sat — one solver, many calls

The enumerators put millions of questions to one solver: `prop_check(assumps)`,
`prop_check(assumps, prop)` and `prop_check_subtree(vars, head_size)`.  The second one propagates
its assumptions one by one, each at a decision level of its own, and copies what the trail gained.

* `propCheckProp_same`: it too gives back the state it was called in.
* `propCheckProp_eq_true_iff`, `propCheckProp_copied`: it answers as the first one does, and copies
  what follows from the assumptions.
* `Agree`: two quiescent states with the same literals on the trail.  Propagating the same
  assumptions keeps them in agreement (`Agree.propagateEach`), so what is copied is the same up
  to order.
* `Call.run`, `serve`: a solver serving a list of calls; `serve_same`: it is always back where the
  loading left it.

The order of the trail and the literals reached when `propagate()` meets a conflict depend on the
order in which it visits the clauses, which is not assumed here.
-/

namespace Parsat

open UnitProp

namespace Solver

/-- The loop of the second `prop_check`: `st`, the conflict `confl` (with the clause `propagate()`
returns) and the state. -/
def propagateEach (P : Propagator) (κ : Solver → Clause) :
    LitVec → Solver → Bool × Option Clause × Solver
  | [], s => (true, none, s)
  | p :: ps, s =>
    match s.value p with
    | .false => (false, none, s)
    | .true => propagateEach P κ ps s
    | .undef =>
      let e := s.newDecisionLevel.uncheckedEnqueue p
      let r := P.run e
      if r.1 then (true, some (κ e), r.2) else propagateEach P κ ps r.2

/-- `prop_check(assumps, prop, psaving)`: the answer, the local `confl`, what `prop` holds, and the
state after it.  A conflict adds the first literal of its clause to `prop`. -/
def propCheckProp (P : Propagator) (κ : Solver → Clause) (s : Solver) (assumps : LitVec)
    (psaving : ℕ) : (Bool × Option Clause × LitVec) × Solver :=
  if s.ok = false then ((false, none, []), s)
  else
    let level := s.decisionLevel
    let e := propagateEach P κ assumps { s with phaseSaving := psaving }
    let r := e.2.2
    let prop :=
      if level < r.decisionLevel then
        r.trail.drop (r.trailLim.getD level 0) ++ (e.2.1.map (List.take 1)).getD []
      else []
    let t := if level < r.decisionLevel then r.cancelUntil level else r
    ((e.1 && e.2.1.isNone, e.2.1, prop), { t with phaseSaving := s.phaseSaving })

/-! ### What the loop leaves behind -/

variable {P : Propagator} {κ : Solver → Clause} {s t : Solver}

/-- The state of the loop: nothing was enqueued so far, or a first level was opened on top of the
trail of `s`. -/
structure Grown (s r : Solver) : Prop where
  ok_eq : r.ok = s.ok
  phaseSaving_eq : r.phaseSaving = s.phaseSaving
  nVars_eq : r.nVars = s.nVars
  clauses : SameClauses s.clauses r.clauses
  wf : r.Wf
  levels : r = s ∨ ∃ ext more, r.trail = s.trail ++ ext ∧
    r.trailLim = s.trailLim ++ s.trail.length :: more

theorem Grown.refl (h : s.Wf) : s.Grown s := ⟨rfl, rfl, rfl, .refl _, h, .inl rfl⟩

theorem Grown.trail_eq {r : Solver} (h : s.Grown r) : ∃ ext, r.trail = s.trail ++ ext := by
  rcases h.levels with rfl | ⟨ext, -, htrail, -⟩
  · exact ⟨[], (List.append_nil _).symm⟩
  · exact ⟨ext, htrail⟩

/-- One decision, propagated. -/
theorem Quiescent.grown_decision (hs : s.Quiescent) {p : Lit} (hv : s.value p = .undef) :
    s.Grown (P.run (s.newDecisionLevel.uncheckedEnqueue p)).2 := by
  have hr := P.spec _ (hs.ready_decision hv).1
  obtain ⟨ext, hext⟩ := hr.trail_eq
  refine ⟨hr.ok_eq, hr.phaseSaving_eq, hr.nVars_eq, hr.clauses, hr.wf, .inr ⟨p :: ext, [], ?_, ?_⟩⟩
  · rw [hext]
    simp [Solver.uncheckedEnqueue, Solver.newDecisionLevel]
  · exact hr.trailLim_eq

/-- Growing on after a first level was opened. -/
theorem Grown.trans {u : Solver} (h : s.Grown t) (h' : t.Grown u) : s.Grown u where
  ok_eq := h'.ok_eq.trans h.ok_eq
  phaseSaving_eq := h'.phaseSaving_eq.trans h.phaseSaving_eq
  nVars_eq := h'.nVars_eq.trans h.nVars_eq
  clauses := h.clauses.trans h'.clauses
  wf := h'.wf
  levels := by
    rcases h'.levels with rfl | ⟨ext', more', htrail', hlim'⟩
    · exact h.levels
    · rcases h.levels with rfl | ⟨ext, more, htrail, hlim⟩
      · exact .inr ⟨ext', more', htrail', hlim'⟩
      · refine .inr ⟨ext ++ ext', more ++ t.trail.length :: more', ?_, ?_⟩
        · rw [htrail', htrail, List.append_assoc]
        · rw [hlim', hlim, List.append_assoc, List.cons_append]

/-- **The loop** only opens levels above `s`, and ends in a quiescent state unless it met a
conflict. -/
theorem propagateEach_grown (hs : s.Quiescent) (a : LitVec) :
    s.Grown (propagateEach P κ a s).2.2 ∧
      ((propagateEach P κ a s).2.1 = none → (propagateEach P κ a s).2.2.Quiescent) := by
  induction a generalizing s with
  | nil => exact ⟨.refl hs.toWf, fun _ => hs⟩
  | cons p ps ih =>
      cases hv : s.value p with
      | «false» =>
          simp only [propagateEach, hv]
          exact ⟨.refl hs.toWf, fun _ => hs⟩
      | «true» =>
          simp only [propagateEach, hv]
          exact ih hs
      | undef =>
          have hready := (hs.ready_decision hv).1
          have hg := hs.grown_decision (P := P) hv
          simp only [propagateEach, hv]
          cases hc : (P.run (s.newDecisionLevel.uncheckedEnqueue p)).1 with
          | «true» =>
              rw [if_pos rfl]
              exact ⟨hg, fun h => by cases h⟩
          | «false» =>
              rw [if_neg (by simp)]
              obtain ⟨h₁, h₂⟩ := ih ((P.spec _ hready).quiescent hready hc)
              exact ⟨hg.trans h₁, h₂⟩

/-- Backtracking from a state grown out of `s`. -/
theorem Grown.undo {r : Solver} (h : s.Grown r) (hq : s.qhead = s.trail.length) (hs : s.Wf) :
    s.Same (if s.decisionLevel < r.decisionLevel then r.cancelUntil s.decisionLevel else r) := by
  rcases h.levels with rfl | ⟨ext, more, htrail, hlim⟩
  · rw [if_neg (lt_irrefl _)]
    exact .refl _
  · rw [if_pos (by simp [decisionLevel, hlim])]
    exact hs.cancelUntil_same h.wf hq h.ok_eq h.phaseSaving_eq h.nVars_eq h.clauses ⟨ext, htrail⟩
      ⟨more, hlim⟩

/-- What is copied is what the trail gained. -/
theorem Grown.drop_eq {r : Solver} (h : s.Grown r) :
    (if s.decisionLevel < r.decisionLevel then r.trail.drop (r.trailLim.getD s.decisionLevel 0)
      else []) = r.trail.drop s.trail.length := by
  rcases h.levels with rfl | ⟨ext, more, htrail, hlim⟩
  · rw [if_neg (lt_irrefl _), List.drop_length]
  · have hget : r.trailLim.getD s.decisionLevel 0 = s.trail.length := by simp [hlim, decisionLevel]
    rw [if_pos (by simp [decisionLevel, hlim]), hget]

theorem Quiescent.phaseSaving (hs : s.Quiescent) (k : ℕ) :
    Quiescent { s with phaseSaving := k } :=
  ⟨⟨hs.toWf.of_trail rfl rfl, hs.attached, hs.queue⟩, hs.qhead_eq⟩

/-- **The second `prop_check` leaves the state as it was** too. -/
theorem propCheckProp_same (hs : s.ok = true → s.Quiescent) (a : LitVec) (k : ℕ) :
    s.Same (propCheckProp P κ s a k).2 := by
  by_cases hok : s.ok = true
  swap
  · rw [propCheckProp, if_pos (by simpa using hok)]; exact .refl s
  have hq := (hs hok).phaseSaving k
  have hg := (propagateEach_grown (P := P) (κ := κ) hq a).1
  rw [propCheckProp, if_neg (by simp [hok])]
  exact Same.restore_phaseSaving (k := k) (hg.undo hq.qhead_eq hq.toWf)

/-! ### States in agreement -/

/-- Two quiescent states with the same literals on the trail and the same clauses. -/
structure Agree (s t : Solver) : Prop where
  left : s.Quiescent
  right : t.Quiescent
  trailSet_eq : t.trailSet = s.trailSet
  clauses : SameClauses s.clauses t.clauses

theorem Agree.value_eq (h : s.Agree t) (p : Lit) : t.value p = s.value p := by
  have hiff : ∀ q, t.value q = .true ↔ s.value q = .true := fun q => by
    rw [h.right.toWf.value_iff, h.left.toWf.value_iff]
    exact Set.ext_iff.mp h.trailSet_eq q
  have h₁ := hiff p
  have h₂ := hiff (-p)
  rw [value_neg, value_neg] at h₂
  cases e : s.value p <;> cases e' : t.value p <;> simp [e, e'] at h₁ h₂ <;> rfl

/-- The same decision, propagated in two states in agreement. -/
theorem Agree.decision (h : s.Agree t) {p : Lit} (hv : s.value p = .undef) :
    (P.run (t.newDecisionLevel.uncheckedEnqueue p)).1 =
        (P.run (s.newDecisionLevel.uncheckedEnqueue p)).1 ∧
      ((P.run (s.newDecisionLevel.uncheckedEnqueue p)).1 = false →
        (P.run (s.newDecisionLevel.uncheckedEnqueue p)).2.Agree
          (P.run (t.newDecisionLevel.uncheckedEnqueue p)).2) := by
  obtain ⟨hready, hset⟩ := h.left.ready_decision hv
  obtain ⟨hready', hset'⟩ := h.right.ready_decision ((h.value_eq p).trans hv)
  have hr := P.spec _ hready
  have hr' := P.spec _ hready'
  have hc : SameClauses (s.newDecisionLevel.uncheckedEnqueue p).clauses
    (t.newDecisionLevel.uncheckedEnqueue p).clauses := h.clauses
  have hset'' : (t.newDecisionLevel.uncheckedEnqueue p).trailSet =
      (s.newDecisionLevel.uncheckedEnqueue p).trailSet := by
    rw [hset, hset', h.trailSet_eq]
  have hflag : (P.run (t.newDecisionLevel.uncheckedEnqueue p)).1 =
      (P.run (s.newDecisionLevel.uncheckedEnqueue p)).1 := by
    rw [Bool.eq_iff_iff, hr.conflict_iff, hr'.conflict_iff, hset'', ← hc.conflict_iff]
  refine ⟨hflag, ?_⟩
  intro hf
  have hf' := hflag.trans hf
  refine ⟨hr.quiescent hready hf, hr'.quiescent hready' hf', ?_,
    hr.clauses.symm.trans (hc.trans hr'.clauses)⟩
  rw [hr.trailSet_eq hf, hr'.trailSet_eq hf', hset'', hc.closure_eq]

/-- **The loop in two states in agreement** takes the same turns, and ends in agreement unless it
met a conflict. -/
theorem Agree.propagateEach (h : s.Agree t) (a : LitVec) :
    (propagateEach P κ a t).1 = (propagateEach P κ a s).1 ∧
      (propagateEach P κ a t).2.1.isSome = (propagateEach P κ a s).2.1.isSome ∧
      ((propagateEach P κ a s).2.1 = none →
        (propagateEach P κ a s).2.2.Agree (propagateEach P κ a t).2.2) := by
  induction a generalizing s t with
  | nil => exact ⟨rfl, rfl, fun _ => h⟩
  | cons p ps ih =>
      have hvt := h.value_eq p
      cases hv : s.value p with
      | «false» =>
          rw [hv] at hvt
          simp only [Solver.propagateEach, hv, hvt]
          exact ⟨trivial, trivial, fun _ => h⟩
      | «true» =>
          rw [hv] at hvt
          simp only [Solver.propagateEach, hv, hvt]
          exact ih h
      | undef =>
          obtain ⟨hflag, hnext⟩ := h.decision (P := P) hv
          rw [hv] at hvt
          simp only [Solver.propagateEach, hv, hvt, hflag]
          cases hc : (P.run (s.newDecisionLevel.uncheckedEnqueue p)).1 with
          | «true» => simp
          | «false» => simpa using ih (hnext hc)

/-- What two states in agreement gained on top of one trail is the same up to order. -/
theorem Agree.perm_drop (h : s.Agree t) {base : List Lit} (hs : ∃ ext, s.trail = base ++ ext)
    (ht : ∃ ext, t.trail = base ++ ext) :
    (t.trail.drop base.length).Perm (s.trail.drop base.length) := by
  have hnodup : ∀ {u : Solver}, u.Wf → u.trail.Nodup := fun hu =>
    hu.distinct.imp fun hne => ne_of_apply_ne Lit.var hne
  have hperm : t.trail.Perm s.trail :=
    (List.perm_ext_iff_of_nodup (hnodup h.right.toWf) (hnodup h.left.toWf)).mpr
      fun p => Set.ext_iff.mp h.trailSet_eq p
  obtain ⟨ext, hs⟩ := hs
  obtain ⟨ext', ht⟩ := ht
  rw [hs, ht, List.perm_append_left_iff] at hperm
  rw [hs, ht, List.drop_left, List.drop_left]
  exact hperm

/-- Without a conflict, `prop` is what the trail gained. -/
theorem propCheckProp_prop (hs : s.Quiescent) (hok : s.ok = true) {a : LitVec} {k : ℕ}
    (hnone : (propagateEach P κ a { s with phaseSaving := k }).2.1 = none) :
    (propCheckProp P κ s a k).1.2.2 =
      (propagateEach P κ a { s with phaseSaving := k }).2.2.trail.drop s.trail.length := by
  have hg := (propagateEach_grown (P := P) (κ := κ) (hs.phaseSaving k) a).1
  rw [propCheckProp, if_neg (by simp [hok])]
  simp only [hnone, Option.map_none, Option.getD_none, List.append_nil]
  exact hg.drop_eq

/-- What the loop answers, and the literals on its trail if that is `true`: going on from a closure
refutes and derives the same. -/
theorem propagateEach_spec (hs : s.Quiescent) (a : LitVec) :
    let r := propagateEach P κ a s
    ((r.1 && r.2.1.isNone) = true ↔ ¬ Refuted s.clauses (s.trailSet ∪ {p | p ∈ a})) ∧
      ((r.1 && r.2.1.isNone) = true →
        r.2.2.trailSet = Closure s.clauses (s.trailSet ∪ {p | p ∈ a})) := by
  induction a generalizing s with
  | nil =>
      have hempty : s.trailSet ∪ {p | p ∈ ([] : LitVec)} = s.trailSet := by
        simp only [List.not_mem_nil, Set.ofPred_false, Set.union_empty]
      rw [hempty]
      exact ⟨iff_of_true rfl hs.not_refuted, fun _ => hs.closed.closure_eq.symm⟩
  | cons p ps ih =>
      cases hv : s.value p with
      | «false» =>
          have hneg : -p ∈ s.trailSet := hs.toWf.value_false.mp hv
          simp only [propagateEach, hv]
          refine ⟨iff_of_false (by simp) (not_not.mpr (.inr ?_)), by simp⟩
          exact fun hc => hc p (.inr List.mem_cons_self) (.inl hneg)
      | «true» =>
          have hp : p ∈ s.trailSet := (hs.toWf.value_iff p).mp hv
          simp only [propagateEach, hv]
          rw [union_setOf_mem_cons, Set.union_singleton, Set.insert_eq_of_mem hp]
          exact ih hs
      | undef =>
          obtain ⟨hready, hset⟩ := hs.ready_decision hv
          have hr := P.spec _ hready
          have hclauses : (s.newDecisionLevel.uncheckedEnqueue p).clauses = s.clauses := rfl
          simp only [propagateEach, hv]
          cases hc : (P.run (s.newDecisionLevel.uncheckedEnqueue p)).1 with
          | «true» =>
              have hconf := hr.conflict_iff.mp hc
              rw [hset, hclauses] at hconf
              rw [if_pos rfl]
              refine ⟨iff_of_false (by simp) (not_not.mpr (.inl (hconf.mono ?_))), by simp⟩
              rw [union_setOf_mem_cons]
              exact Set.subset_union_left
          | «false» =>
              -- going on from the closure with the other literals gives the closure of all
              have htrail := hr.trailSet_eq hc
              rw [hset, hclauses] at htrail
              obtain ⟨h₁, h₂⟩ := ih (hr.quiescent hready hc)
              rw [if_neg Bool.false_ne_true]
              rw [htrail, ← hr.clauses.refuted_iff, hclauses, refuted_closure_union,
                ← union_setOf_mem_cons] at h₁
              rw [htrail, ← hr.clauses.closure_eq, hclauses] at h₂
              refine ⟨h₁, fun ht => (h₂ ht).trans ?_⟩
              rw [union_setOf_mem_cons]
              exact Set.ext fun q => derives_closure_union

/-- **The second `prop_check` decides refutation** too. -/
theorem propCheckProp_eq_true_iff (hs : s.Quiescent) (hok : s.ok = true) (a : LitVec) (k : ℕ) :
    (propCheckProp P κ s a k).1.1 = true ↔
      ¬ Refuted s.clauses (s.trailSet ∪ {p | p ∈ a}) := by
  rw [propCheckProp, if_neg (by simp [hok])]
  exact (propagateEach_spec (P := P) (κ := κ) (hs.phaseSaving k) a).1

/-- If it answers `true`, `prop` has what follows from the assumptions and was not assigned. -/
theorem propCheckProp_copied (hs : s.Quiescent) (hok : s.ok = true) {a : LitVec} {k : ℕ}
    (h : (propCheckProp P κ s a k).1.1 = true) :
    (propCheckProp P κ s a k).1.2.2.Nodup ∧ ∀ p, p ∈ (propCheckProp P κ s a k).1.2.2 ↔
      p ∈ Closure s.clauses (s.trailSet ∪ {p | p ∈ a}) ∧ s.value p = .undef := by
  have hq := hs.phaseSaving k
  have htrue : ((propagateEach P κ a { s with phaseSaving := k }).1 &&
      (propagateEach P κ a { s with phaseSaving := k }).2.1.isNone) = true := by
    rw [propCheckProp, if_neg (by simp [hok])] at h
    exact h
  have hg := (propagateEach_grown (P := P) (κ := κ) hq a).1
  have hset := (propagateEach_spec hq a).2 htrue
  rw [propCheckProp_prop hs hok (Option.isNone_iff_eq_none.mp (Bool.and_eq_true_iff.mp htrue).2)]
  set r := (propagateEach P κ a { s with phaseSaving := k }).2.2
  -- the trail grows at its end, so what is copied is what was added
  obtain ⟨ext, hext⟩ := hg.trail_eq
  have hnodup : r.trail.Nodup := hg.wf.distinct.imp fun hne => ne_of_apply_ne Lit.var hne
  rw [hext] at hnodup
  have hdrop : r.trail.drop s.trail.length = ext := by rw [hext, List.drop_left]
  rw [hdrop]
  refine ⟨hnodup.of_append_right, fun p => ?_⟩
  have hmem : p ∈ r.trail ↔ p ∈ Closure s.clauses (s.trailSet ∪ {p | p ∈ a}) :=
    Set.ext_iff.mp hset p
  rw [← hmem, hs.toWf.value_undef, hext, List.mem_append]
  constructor
  · intro hp
    refine ⟨.inr hp, fun hp' => List.disjoint_of_nodup_append hnodup hp' hp, fun hn => ?_⟩
    refine hg.wf.consistent p ?_ ?_
    · show p ∈ r.trail
      rw [hext]
      exact List.mem_append_right _ hp
    · show -p ∈ r.trail
      rw [hext]
      exact List.mem_append_left _ hn
  · rintro ⟨hp, hnot, -⟩
    exact hp.resolve_left hnot

/-- A solver in the same state answers the same, and copies the same literals unless it met a
conflict. -/
theorem propCheckProp_of_same (hs : s.ok = true → s.Quiescent) (hst : s.Same t) (a : LitVec)
    (k : ℕ) :
    (propCheckProp P κ t a k).1.1 = (propCheckProp P κ s a k).1.1 ∧
      (propCheckProp P κ t a k).1.2.1.isSome = (propCheckProp P κ s a k).1.2.1.isSome ∧
      ((propCheckProp P κ s a k).1.2.1 = none →
        (propCheckProp P κ t a k).1.2.2.Perm (propCheckProp P κ s a k).1.2.2) := by
  by_cases hok : s.ok = true
  swap
  · have hok' : s.ok = false := by simpa using hok
    rw [propCheckProp, if_pos (hst.ok_eq.trans hok'), propCheckProp, if_pos hok']
    exact ⟨rfl, rfl, fun _ => .refl _⟩
  have hok' : t.ok = true := hst.ok_eq.trans hok
  have hq := (hs hok).phaseSaving k
  have hq' := ((hs hok).same hst).phaseSaving k
  have hag : Agree { s with phaseSaving := k } { t with phaseSaving := k } :=
    ⟨hq, hq', hst.trailSet_eq, hst.clauses⟩
  obtain ⟨h₁, h₂, h₃⟩ := hag.propagateEach (P := P) (κ := κ) a
  have hflag : ∀ u : Solver, u.ok = true → (propCheckProp P κ u a k).1.1 =
      ((Solver.propagateEach P κ a { u with phaseSaving := k }).1 &&
        (Solver.propagateEach P κ a { u with phaseSaving := k }).2.1.isNone) := fun u hu => by
    rw [propCheckProp, if_neg (by simp [hu])]
  have hconfl : ∀ u : Solver, u.ok = true → (propCheckProp P κ u a k).1.2.1 =
      (Solver.propagateEach P κ a { u with phaseSaving := k }).2.1 := fun u hu => by
    rw [propCheckProp, if_neg (by simp [hu])]
  refine ⟨?_, ?_, ?_⟩
  · rw [hflag s hok, hflag t hok', ← Option.not_isSome, ← Option.not_isSome, h₁, h₂]
  · rw [hconfl s hok, hconfl t hok', h₂]
  · intro hnone
    rw [hconfl s hok] at hnone
    have hnone' : (Solver.propagateEach P κ a { t with phaseSaving := k }).2.1 = none := by
      rw [← Option.not_isSome_iff_eq_none, h₂, hnone]
      simp
    have htrail : t.trail.length = s.trail.length := congrArg List.length hst.trail_eq
    rw [propCheckProp_prop (hs hok) hok hnone,
      propCheckProp_prop ((hs hok).same hst) hok' hnone', htrail]
    obtain ⟨ext, hext⟩ := (propagateEach_grown (P := P) (κ := κ) hq' a).1.trail_eq
    exact (h₃ hnone).perm_drop (propagateEach_grown hq a).1.trail_eq
      ⟨ext, hext.trans (congrArg (· ++ ext) hst.trail_eq)⟩

end Solver

/-! ### A solver serving calls -/

open Solver

/-- A call; the two bounds on a subtree are the assertions of `prop_check_subtree`. -/
inductive Call
  | check (assumps : LitVec) (psaving : ℕ)
  | checkProp (assumps : LitVec) (psaving : ℕ)
  | subtree (vars : LitVec) (headSize : ℕ) (hsize : vars.length - headSize ≤ 63)
    (hhead : headSize ≤ vars.length)

inductive Reply
  | answer (st : Bool)
  | propagated (st : Bool) (confl : Option Clause) (prop : LitVec)
  | count (n : UInt64)

/-- The same answer: equal values, and the same literals in `prop` unless both report a
conflict. -/
def Reply.Agrees : Reply → Reply → Prop
  | .answer b, .answer b' => b' = b
  | .propagated b c prop, .propagated b' c' prop' =>
    b' = b ∧ c'.isSome = c.isSome ∧ (c = none → prop'.Perm prop)
  | .count n, .count n' => n' = n
  | _, _ => False

/-- One call: what it returns and the solver after it. -/
def Call.run (P : Propagator) (κ : Solver → Clause) (s : Solver) : Call → Reply × Solver
  | .check a k => (.answer (s.propCheck P a k).1, (s.propCheck P a k).2)
  | .checkProp a k =>
    let r := s.propCheckProp P κ a k
    (.propagated r.1.1 r.1.2.1 r.1.2.2, r.2)
  | .subtree vars head _ _ =>
    (.count (s.propCheckSubtree P vars head).1, (s.propCheckSubtree P vars head).2)

/-- The solver after a list of calls. -/
def serve (P : Propagator) (κ : Solver → Clause) (s : Solver) (calls : List Call) : Solver :=
  calls.foldl (fun s c => (c.run P κ s).2) s

variable {P : Propagator} {κ : Solver → Clause} {s t : Solver}

theorem Call.run_same (hs : s.ok = true → s.Quiescent) (c : Call) : s.Same (c.run P κ s).2 := by
  cases c with
  | check a k => exact propCheck_same hs a k
  | checkProp a k => exact propCheckProp_same hs a k
  | subtree vars head _ _ => exact propCheckSubtree_same hs vars head

theorem Call.run_agrees (hs : s.ok = true → s.Quiescent) (hst : s.Same t) (c : Call) :
    (c.run P κ s).1.Agrees (c.run P κ t).1 := by
  cases c with
  | check a k => exact propCheck_eq_of_same hs hst a k
  | checkProp a k => exact propCheckProp_of_same hs hst a k
  | subtree vars head hsize _ => exact propCheckSubtree_eq_of_same hs hst hsize

/-- **Serving** any list of calls ends where it started. -/
theorem serve_same (hs : s.ok = true → s.Quiescent) (calls : List Call) :
    s.Same (serve P κ s calls) := by
  induction calls generalizing s with
  | nil => exact .refl s
  | cons c calls ih =>
      have hc := Call.run_same (P := P) (κ := κ) hs c
      exact hc.trans (ih fun hok => (hs (hc.ok_eq ▸ hok)).same hc)

/-- **History independence of propagation.**  After any list of calls on a solver loaded with `F`,
the next call gives back the trail, the assignment, the decision levels, the queue head and
`phase_saving` as it found them, and answers as a freshly loaded solver does. -/
theorem call_history_independent (P : Propagator) (κ : Solver → Clause) (F : Cnf)
    (calls : List Call) (c : Call) :
    (serve P κ (loadClauses P F empty) calls).Same
        (c.run P κ (serve P κ (loadClauses P F empty) calls)).2 ∧
      (c.run P κ (loadClauses P F empty)).1.Agrees
        (c.run P κ (serve P κ (loadClauses P F empty) calls)).1 := by
  have hs := (loaded_loadClauses P F).quiescent
  have hsame := serve_same (P := P) (κ := κ) hs calls
  refine ⟨Call.run_same ?_ c, Call.run_agrees hs hsame c⟩
  intro hok
  exact (hs (hsame.ok_eq ▸ hok)).same hsame

end Parsat
