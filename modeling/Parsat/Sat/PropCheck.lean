import Mathlib.Data.List.Count
import Mathlib.Tactic.Ring
import Parsat.Sat.Solver

/-!
# Sat — checking assumptions by propagation

`prop_check(assumps)` enqueues all its assumptions at one decision level and propagates once;
`prop_check_subtree(vars, head_size)` walks the tree of signs of the tail, one decision and one
propagation at a time.  `prop_check` answers whether the assumptions are refuted
(`propCheck_eq_true_iff`), both give back the state they were called in up to the order of the
literals in a clause (`propCheck_same`, `propCheckSubtree_same`), and the tree count is the number
of sign vectors `prop_check` rejects (`propCheckSubtree_eq_countP`).

`conflicts` is the answer of a solver loaded with a formula.  It does not depend on what the solver
was asked before (`propCheck_of_same`), and a conflict refutes
(`not_satisfiableUnder_of_conflicts`).
-/

namespace Parsat

open UnitProp

namespace Solver

/-- The loop both functions enqueue assumptions with: it stops at a false literal. -/
def enqueueAll (s : Solver) : LitVec → Bool × Solver
  | [] => (true, s)
  | p :: ps =>
    match s.value p with
    | .false => (false, s)
    | .true => s.enqueueAll ps
    | .undef => (s.uncheckedEnqueue p).enqueueAll ps

/-- `prop_check(assumps, psaving)`: the answer and the state after it. -/
def propCheck (P : Propagator) (s : Solver) (assumps : LitVec) (psaving : ℕ) : Bool × Solver :=
  if s.ok = false then (false, s)
  else
    let level := s.decisionLevel
    let e := ({ s with phaseSaving := psaving }.newDecisionLevel).enqueueAll assumps
    let r := if e.1 then P.run e.2 else (false, e.2)
    let t := if level < r.2.decisionLevel then r.2.cancelUntil level else r.2
    (e.1 && !r.1, { t with phaseSaving := s.phaseSaving })

/-- One of the two blocks of `prop_check_subtree_impl`: the subtree below the literal `p`, of
`half` assignments, with `next` for the variables after it. -/
def subtreeBranch (P : Propagator) (half : UInt64) (next : Solver → UInt64 × Solver) (p : Lit)
    (s : Solver) : UInt64 × Solver :=
  match s.value p with
  | .false => (half, s)
  | .undef =>
    let baseLevel := s.decisionLevel
    let r := P.run (s.newDecisionLevel.uncheckedEnqueue p)
    let n := if r.1 then (half, r.2) else next r.2
    (n.1, n.2.cancelUntil baseLevel)
  | .true => next s

/-- `prop_check_subtree_impl(vars, index)`, on the variables from `index` on. -/
def propCheckSubtreeImpl (P : Propagator) : LitVec → Solver → UInt64 × Solver
  | [], s => (0, s)
  | l :: vars, s =>
    let half : UInt64 := 1 <<< UInt64.ofNat vars.length
    let left := subtreeBranch P half (propCheckSubtreeImpl P vars) (mkLit l.var true) s
    let right := subtreeBranch P half (propCheckSubtreeImpl P vars) (mkLit l.var false) left.2
    (left.1 + right.1, right.2)

/-- `prop_check_subtree(vars, head_size)`. -/
def propCheckSubtree (P : Propagator) (s : Solver) (vars : LitVec) (headSize : ℕ) :
    UInt64 × Solver :=
  let subtreeSize : UInt64 := 1 <<< UInt64.ofNat (vars.length - headSize)
  if s.ok = false then (subtreeSize, s)
  else
    let level := s.decisionLevel
    let e := s.newDecisionLevel.enqueueAll (vars.take headSize)
    let r :=
      if e.1 then
        let r := P.run e.2
        if r.1 then (subtreeSize, r.2) else propCheckSubtreeImpl P (vars.drop headSize) r.2
      else (subtreeSize, e.2)
    (r.1, if level < r.2.decisionLevel then r.2.cancelUntil level else r.2)

/-! ### Enqueueing -/

variable {P : Propagator} {s t : Solver}

/-- What `enqueueAll` does to a state: it pushes unassigned literals, and either everything asked
for is then on the trail or it met a contradiction. -/
structure Enqueued (s : Solver) (a : LitVec) (r : Bool × Solver) : Prop where
  frame : r.2 = { s with assigns := r.2.assigns, trail := r.2.trail }
  wf : r.2.Wf
  trail_eq : ∃ ext, r.2.trail = s.trail ++ ext
  trailSet_eq : r.1 = true → r.2.trailSet = s.trailSet ∪ {p | p ∈ a}
  inconsistent : r.1 = false → ¬ Consistent (s.trailSet ∪ {p | p ∈ a})

theorem union_setOf_mem_cons (A : Set Lit) (p : Lit) (ps : LitVec) :
    A ∪ {q | q ∈ p :: ps} = A ∪ {p} ∪ {q | q ∈ ps} := by
  ext q
  simp only [Set.mem_union, Set.mem_ofPred_eq, List.mem_cons, Set.mem_singleton_iff, or_assoc]

theorem enqueueAll_spec (hs : s.Wf) (a : LitVec) : s.Enqueued a (s.enqueueAll a) := by
  induction a generalizing s with
  | nil => exact ⟨rfl, hs, ⟨[], by simp [enqueueAll]⟩, by simp [enqueueAll], by simp [enqueueAll]⟩
  | cons p ps ih =>
      cases hv : s.value p with
      | «false» =>
          -- the loop stops at a literal that contradicts the trail
          simp only [enqueueAll, hv]
          refine ⟨rfl, hs, ⟨[], by simp⟩, by simp, ?_⟩
          intro _ hc
          exact hc p (.inr (by simp)) (.inl (hs.value_false.mp hv))
      | «true» =>
          have hp : p ∈ s.trailSet := (hs.value_iff p).mp hv
          simp only [enqueueAll, hv]
          obtain ⟨h₁, h₂, h₃, h₄, h₅⟩ := ih hs
          refine ⟨h₁, h₂, h₃, ?_, ?_⟩ <;>
            rw [union_setOf_mem_cons, Set.union_singleton, Set.insert_eq_of_mem hp]
          · exact h₄
          · exact h₅
      | undef =>
          simp only [enqueueAll, hv]
          obtain ⟨h₁, h₂, ⟨ext, h₃⟩, h₄, h₅⟩ := ih (hs.uncheckedEnqueue hv)
          have hset : (s.uncheckedEnqueue p).trailSet = s.trailSet ∪ {p} := by
            ext q
            simp [trailSet, uncheckedEnqueue, or_comm]
          rw [hset, ← union_setOf_mem_cons] at h₄ h₅
          exact ⟨h₁, h₂, ⟨p :: ext, by rw [h₃]; simp [uncheckedEnqueue]⟩, h₄, h₅⟩

/-- A quiescent state with one more decision level. -/
theorem Quiescent.newDecisionLevel (h : s.Quiescent) (k : ℕ) :
    ({ s with phaseSaving := k }.newDecisionLevel).Quiescent :=
  ⟨⟨h.toWf.of_trail rfl rfl, h.attached, h.queue⟩, h.qhead_eq⟩

/-- Enqueueing without a contradiction and propagating refutes exactly the assumptions. -/
theorem Enqueued.conflict_iff {a : LitVec} {e : Bool × Solver} (hs : s.Quiescent)
    (h : s.Enqueued a e) (he : e.1 = true) :
    e.2.Ready ∧ ((P.run e.2).1 = true ↔ Refuted s.clauses (s.trailSet ∪ {p | p ∈ a})) := by
  have hclauses : e.2.clauses = s.clauses := by rw [h.frame]
  have hqhead : e.2.qhead = s.qhead := by rw [h.frame]
  obtain ⟨ext, hext⟩ := h.trail_eq
  have hready := hs.ready_of_append h.wf hclauses hqhead hext
  refine ⟨hready, ?_⟩
  rw [(P.spec _ hready).conflict_iff, hclauses, h.trailSet_eq he]
  refine ⟨.inl, fun hr => hr.resolve_right fun hc => hc ?_⟩
  rw [← h.trailSet_eq he]
  exact h.wf.consistent

/-! ### `prop_check` -/

theorem propCheck_not_ok (h : s.ok = false) (a : LitVec) (k : ℕ) :
    s.propCheck P a k = (false, s) := by
  simp [propCheck, h]

/-- **`prop_check` decides refutation**: it answers `true` exactly when the assumptions on top of
the trail are not refuted. -/
theorem propCheck_eq_true_iff (hs : s.Quiescent) (hok : s.ok = true) (a : LitVec) (k : ℕ) :
    (s.propCheck P a k).1 = true ↔ ¬ Refuted s.clauses (s.trailSet ∪ {p | p ∈ a}) := by
  have hq := hs.newDecisionLevel k
  have he := enqueueAll_spec hq.toWf a
  rw [propCheck, if_neg (by simp [hok])]
  cases hst : (({ s with phaseSaving := k }.newDecisionLevel).enqueueAll a).1 with
  | «false» =>
      simp only [hst, Bool.false_and]
      exact ⟨fun h => absurd h (by simp), fun h => absurd (.inr (he.inconsistent hst)) h⟩
  | «true» =>
      have hc := (he.conflict_iff (P := P) hq hst).2
      simp only [hst, if_true, Bool.true_and]
      rw [Bool.not_eq_true', ← Bool.not_eq_true, hc]
      rfl

/-- Backtracking from a state with one more decision level than `s`. -/
theorem Quiescent.undo_level (hs : s.Quiescent) {k : ℕ} {u : Solver} (hw : u.Wf)
    (hok : u.ok = s.ok) (hph : u.phaseSaving = k) (hn : u.nVars = s.nVars)
    (hc : SameClauses s.clauses u.clauses) (htrail : ∃ ext, u.trail = s.trail ++ ext)
    (hlim : u.trailLim = s.trailLim ++ [s.trail.length]) :
    { s with phaseSaving := k }.Same
      (if s.decisionLevel < u.decisionLevel then u.cancelUntil s.decisionLevel else u) := by
  rw [if_pos (by simp [decisionLevel, hlim])]
  have hw' : Wf { s with phaseSaving := k } := hs.toWf.of_trail rfl rfl
  exact hw'.cancelUntil_same hw hs.qhead_eq hok hph hn hc htrail ⟨[], hlim⟩

/-- Backtracking after the assumptions were enqueued. -/
theorem Quiescent.undo_enqueued (hs : s.Quiescent) {k : ℕ} {a : LitVec} {e : Bool × Solver}
    (he : ({ s with phaseSaving := k }.newDecisionLevel).Enqueued a e) {u : Solver}
    (hu : e.2.Same u) : { s with phaseSaving := k }.Same
      (if s.decisionLevel < u.decisionLevel then u.cancelUntil s.decisionLevel else u) := by
  obtain ⟨ext, hext⟩ := he.trail_eq
  refine hs.undo_level (he.wf.of_trail hu.trail_eq hu.assigns_eq) (hu.ok_eq.trans ?_)
    (hu.phaseSaving_eq.trans ?_) (hu.nVars_eq.trans ?_) ((?_ : SameClauses _ _).trans hu.clauses)
    ⟨ext, hu.trail_eq.trans hext⟩ (hu.trailLim_eq.trans ?_) <;> rw [he.frame]
  · rfl
  · rfl
  · rfl
  · exact .refl _
  · rfl

/-- Backtracking after the assumptions were propagated. -/
theorem Quiescent.undo_propagated (hs : s.Quiescent) {k : ℕ} {a : LitVec} {e : Bool × Solver}
    (he : ({ s with phaseSaving := k }.newDecisionLevel).Enqueued a e) (hready : e.2.Ready)
    {u : Solver} (hu : (P.run e.2).2.Same u) : { s with phaseSaving := k }.Same
      (if s.decisionLevel < u.decisionLevel then u.cancelUntil s.decisionLevel else u) := by
  have hr := P.spec _ hready
  obtain ⟨ext, hext⟩ := he.trail_eq
  obtain ⟨ext', hext'⟩ := hr.trail_eq
  refine hs.undo_level (hr.wf.of_trail hu.trail_eq hu.assigns_eq)
    (hu.ok_eq.trans (hr.ok_eq.trans ?_)) (hu.phaseSaving_eq.trans (hr.phaseSaving_eq.trans ?_))
    (hu.nVars_eq.trans (hr.nVars_eq.trans ?_))
    ((?_ : SameClauses _ _).trans (hr.clauses.trans hu.clauses)) ⟨ext ++ ext', ?_⟩
    (hu.trailLim_eq.trans (hr.trailLim_eq.trans ?_))
  · rw [he.frame]; rfl
  · rw [he.frame]; rfl
  · rw [he.frame]; rfl
  · rw [he.frame]; exact .refl _
  · rw [hu.trail_eq, hext', hext, List.append_assoc]; rfl
  · rw [he.frame]; rfl

/-- Putting `phase_saving` back. -/
theorem Same.restore_phaseSaving {k : ℕ} (h : { s with phaseSaving := k }.Same t) :
    s.Same { t with phaseSaving := s.phaseSaving } :=
  ⟨h.ok_eq, h.trail_eq, h.assigns_eq, h.trailLim_eq, h.qhead_eq, rfl, h.nVars_eq, h.clauses⟩

/-- **`prop_check` leaves the state as it was**, whatever it answers. -/
theorem propCheck_same (hs : s.ok = true → s.Quiescent) (a : LitVec) (k : ℕ) :
    s.Same (s.propCheck P a k).2 := by
  by_cases hok : s.ok = true
  swap
  · rw [propCheck_not_ok (by simpa using hok)]; exact .refl s
  replace hs := hs hok
  have hq := hs.newDecisionLevel k
  have he := enqueueAll_spec hq.toWf a
  rw [propCheck, if_neg (by simp [hok])]
  refine Same.restore_phaseSaving (k := k) ?_
  cases hst : (({ s with phaseSaving := k }.newDecisionLevel).enqueueAll a).1 with
  | «false» =>
      simp only [Bool.false_eq_true, if_false]
      exact hs.undo_enqueued he (.refl _)
  | «true» =>
      simp only [if_true]
      exact hs.undo_propagated (P := P) he (he.conflict_iff (P := P) hq hst).1 (.refl _)

/-- A solver in the same state gives the same answer. -/
theorem propCheck_eq_of_same (hs : s.ok = true → s.Quiescent) (hst : s.Same t) (a : LitVec)
    (k : ℕ) : (t.propCheck P a k).1 = (s.propCheck P a k).1 := by
  by_cases hok : s.ok = true
  · have hok' : t.ok = true := hst.ok_eq.trans hok
    rw [Bool.eq_iff_iff, propCheck_eq_true_iff ((hs hok).same hst) hok',
      propCheck_eq_true_iff (hs hok) hok, hst.trailSet_eq, hst.clauses.refuted_iff]
  · have hok' : s.ok = false := by simpa using hok
    rw [propCheck_not_ok hok', propCheck_not_ok (hst.ok_eq.trans hok')]

/-! ### The tree count -/

end Solver

/-- All sign vectors of length `n`. -/
def signVectors : ℕ → List (List Bool)
  | 0 => [[]]
  | n + 1 => (signVectors n).map (true :: ·) ++ (signVectors n).map (false :: ·)

theorem mem_signVectors {n : ℕ} {σ : List Bool} : σ ∈ signVectors n ↔ σ.length = n := by
  induction n generalizing σ with
  | zero => simp [signVectors]
  | succ n ih =>
      cases σ with
      | nil => simp [signVectors]
      | cons b σ => cases b <;> simp [signVectors, ih]

/-- The variables of `vars` with the signs `σ`. -/
def withSigns (vars : LitVec) (σ : List Bool) : LitVec :=
  List.zipWith (fun l b => mkLit l.var b) vars σ

/-- How many sign vectors of `vars` are refuted on top of the literals `A`. -/
noncomputable def refutedCount (C : List Clause) (A : Set Lit) (vars : LitVec) : ℕ :=
  open Classical in
  (signVectors vars.length).countP fun σ => Refuted C (A ∪ {p | p ∈ withSigns vars σ})

section Count

variable {C C' : List Clause} {A : Set Lit}

/-- Two sets of literals that refute the same sign vectors have the same count. -/
theorem refutedCount_eq {A' : Set Lit} (vars : LitVec)
    (h : ∀ σ, Refuted C (A ∪ {p | p ∈ withSigns vars σ}) ↔
      Refuted C' (A' ∪ {p | p ∈ withSigns vars σ})) :
    refutedCount C A vars = refutedCount C' A' vars :=
  List.countP_congr fun σ _ => by simp only [decide_eq_true_eq]; exact h σ

theorem refutedCount_cons (l : Lit) (vars : LitVec) :
    refutedCount C A (l :: vars) = refutedCount C (A ∪ {mkLit l.var true}) vars +
      refutedCount C (A ∪ {mkLit l.var false}) vars := by
  classical
  have hcons : ∀ (b : Bool) (σ : List Bool),
      A ∪ {p | p ∈ withSigns (l :: vars) (b :: σ)} =
        A ∪ {mkLit l.var b} ∪ {p | p ∈ withSigns vars σ} := fun b σ =>
    Solver.union_setOf_mem_cons A (mkLit l.var b) (withSigns vars σ)
  simp only [refutedCount, List.length_cons, signVectors, List.countP_append, List.countP_map]
  congr 1 <;> refine List.countP_congr fun σ _ => ?_ <;>
    rw [Function.comp_apply, decide_eq_true_eq, decide_eq_true_eq, hcons]

theorem length_signVectors (n : ℕ) : (signVectors n).length = 2 ^ n := by
  induction n with
  | zero => rfl
  | succ n ih => simp only [signVectors, List.length_append, List.length_map, ih]; ring

/-- Below a refuted set of literals every assignment is refuted. -/
theorem refutedCount_of_refuted (h : Refuted C A) (vars : LitVec) :
    refutedCount C A vars = 2 ^ vars.length := by
  rw [refutedCount, ← length_signVectors, List.countP_eq_length]
  intro σ _
  simpa using h.mono Set.subset_union_left

theorem refutedCount_closure (vars : LitVec) :
    refutedCount C (Closure C A) vars = refutedCount C A vars :=
  refutedCount_eq vars fun _ => refuted_closure_union

theorem refutedCount_congr (h : SameClauses C C') (vars : LitVec) :
    refutedCount C A vars = refutedCount C' A vars :=
  refutedCount_eq vars fun _ => h.refuted_iff

theorem refutedCount_le (vars : LitVec) : refutedCount C A vars ≤ 2 ^ vars.length := by
  rw [← length_signVectors]
  exact List.countP_le_length

end Count

theorem toNat_one_shiftLeft {n : ℕ} (h : n ≤ 63) :
    ((1 : UInt64) <<< UInt64.ofNat n).toNat = 2 ^ n := by
  have h₁ : n % 64 = n := Nat.mod_eq_of_lt (by omega)
  have h₂ : 2 ^ n < 2 ^ 64 := Nat.pow_lt_pow_right (by decide) (by omega)
  have h₃ : n < 2 ^ 64 := by omega
  have h₄ : (UInt64.ofNat n).toNat = n := by rw [UInt64.toNat_ofNat', Nat.mod_eq_of_lt h₃]
  rw [UInt64.toNat_shiftLeft, h₄, h₁, Nat.shiftLeft_eq, UInt64.toNat_one, one_mul,
    Nat.mod_eq_of_lt h₂]

namespace Solver

variable {P : Propagator} {s t : Solver}

/-- One decision on top of a quiescent state: the literal is ready to be propagated. -/
theorem Quiescent.ready_decision (hs : s.Quiescent) {p : Lit} (hv : s.value p = .undef) :
    (s.newDecisionLevel.uncheckedEnqueue p).Ready ∧
      (s.newDecisionLevel.uncheckedEnqueue p).trailSet = s.trailSet ∪ {p} := by
  have hq := hs.newDecisionLevel s.phaseSaving
  refine ⟨hq.ready_of_append (hq.toWf.uncheckedEnqueue (p := p) hv) rfl rfl rfl, ?_⟩
  ext q
  simp [trailSet, Solver.uncheckedEnqueue, Solver.newDecisionLevel, or_comm]

/-- Backtracking from any state that agrees with the one the decision was propagated to. -/
theorem Quiescent.undo_decision (hs : s.Quiescent) {p : Lit} (hv : s.value p = .undef)
    {u : Solver} (hu : (P.run (s.newDecisionLevel.uncheckedEnqueue p)).2.Same u) :
    s.Same (u.cancelUntil s.decisionLevel) := by
  have hr := P.spec _ (hs.ready_decision hv).1
  obtain ⟨ext, hext⟩ := hr.trail_eq
  have hrt : (P.run (s.newDecisionLevel.uncheckedEnqueue p)).2.trail = s.trail ++ p :: ext := by
    rw [hext]; simp [Solver.uncheckedEnqueue, Solver.newDecisionLevel]
  exact hs.toWf.cancelUntil_same (hr.wf.of_trail hu.trail_eq hu.assigns_eq) hs.qhead_eq
    (hu.ok_eq.trans hr.ok_eq) (hu.phaseSaving_eq.trans hr.phaseSaving_eq)
    (hu.nVars_eq.trans hr.nVars_eq) (hr.clauses.trans hu.clauses) ⟨_, hu.trail_eq.trans hrt⟩
    ⟨[], hu.trailLim_eq.trans hr.trailLim_eq⟩

/-- One block of the recursion gives the state back. -/
theorem subtreeBranch_same (hs : s.Quiescent) (p : Lit) (half : UInt64)
    {next : Solver → UInt64 × Solver} (hnext : ∀ t : Solver, t.Quiescent → t.Same (next t).2) :
    s.Same (subtreeBranch P half next p s).2 := by
  cases hv : s.value p with
  | «false» =>
      simp only [subtreeBranch, hv]
      exact .refl s
  | «true» =>
      simp only [subtreeBranch, hv]
      exact hnext s hs
  | undef =>
      have hready := (hs.ready_decision hv).1
      simp only [subtreeBranch, hv]
      refine hs.undo_decision (P := P) hv ?_
      cases hc : (P.run (s.newDecisionLevel.uncheckedEnqueue p)).1 with
      | «true» => exact .refl _
      | «false» => exact hnext _ ((P.spec _ hready).quiescent hready hc)

/-- The count one block of the recursion owes: the one below its literal. -/
theorem subtreeBranch_count (hs : s.Quiescent) (p : Lit) {half : UInt64} {vars : LitVec}
    (hhalf : half.toNat = 2 ^ vars.length) {next : Solver → UInt64 × Solver}
    (hnext : ∀ t : Solver, t.Quiescent →
      (next t).1.toNat = refutedCount t.clauses t.trailSet vars) :
    (subtreeBranch P half next p s).1.toNat =
      refutedCount s.clauses (s.trailSet ∪ {p}) vars := by
  cases hv : s.value p with
  | «false» =>
      simp only [subtreeBranch, hv]
      -- everything below a false literal is refuted: the block adds `half` at once
      rw [hhalf, refutedCount_of_refuted (.inr fun hc => ?_)]
      exact hc p (.inr rfl) (.inl (hs.toWf.value_false.mp hv))
  | «true» =>
      have hp : p ∈ s.trailSet := (hs.toWf.value_iff p).mp hv
      simp only [subtreeBranch, hv]
      rw [Set.union_singleton, Set.insert_eq_of_mem hp]
      exact hnext s hs
  | undef =>
      obtain ⟨hready, hset⟩ := hs.ready_decision hv
      have hr := P.spec _ hready
      cases hc : (P.run (s.newDecisionLevel.uncheckedEnqueue p)).1 with
      | «true» =>
          simp only [subtreeBranch, hv, hc, if_true]
          rw [hhalf, refutedCount_of_refuted (.inl ?_)]
          exact hset ▸ hr.conflict_iff.mp hc
      | «false» =>
          simp only [subtreeBranch, hv, hc]
          rw [if_neg (by simp), hnext _ (hr.quiescent hready hc), hr.trailSet_eq hc, hset,
            ← refutedCount_congr hr.clauses]
          exact refutedCount_closure vars

/-- The recursion gives the state back. -/
theorem propCheckSubtreeImpl_same (vars : LitVec) (hs : s.Quiescent) :
    s.Same (propCheckSubtreeImpl P vars s).2 := by
  induction vars generalizing s with
  | nil => exact .refl s
  | cons l vars ih =>
      have hl := subtreeBranch_same (P := P) hs (mkLit l.var true)
        (1 <<< UInt64.ofNat vars.length) fun t ht => ih ht
      -- the second branch starts from the state that the first one gave back
      have hr := subtreeBranch_same (P := P) (hs.same hl) (mkLit l.var false)
        (1 <<< UInt64.ofNat vars.length) fun t ht => ih ht
      exact hl.trans hr

/-- The recursion counts the refuted sign vectors of the remaining variables. -/
theorem propCheckSubtreeImpl_count (vars : LitVec) (hs : s.Quiescent) (hn : vars.length ≤ 63) :
    (propCheckSubtreeImpl P vars s).1.toNat = refutedCount s.clauses s.trailSet vars := by
  induction vars generalizing s with
  | nil =>
      have hr := hs.not_refuted
      simp [propCheckSubtreeImpl, refutedCount, signVectors, withSigns, hr]
  | cons l vars ih =>
      have hlen : vars.length ≤ 63 := by simp at hn; omega
      have hls := subtreeBranch_same (P := P) hs (mkLit l.var true)
        (1 <<< UInt64.ofNat vars.length) fun t ht => propCheckSubtreeImpl_same (P := P) vars ht
      have hl := subtreeBranch_count (P := P) hs (mkLit l.var true) (toNat_one_shiftLeft hlen)
        fun t ht => ih ht hlen
      have hr := subtreeBranch_count (P := P) (hs.same hls) (mkLit l.var false)
        (toNat_one_shiftLeft hlen) fun t ht => ih ht hlen
      rw [hls.trailSet_eq, ← refutedCount_congr hls.clauses] at hr
      simp only [propCheckSubtreeImpl]
      -- the two halves together are at most `2 ^ 63`, so the sum does not wrap
      have hle := refutedCount_le (C := s.clauses) (A := s.trailSet) (l :: vars)
      have hpow : 2 ^ (l :: vars).length ≤ 2 ^ 63 := Nat.pow_le_pow_right (by decide) hn
      rw [refutedCount_cons] at hle ⊢
      rw [UInt64.toNat_add, hl, hr, Nat.mod_eq_of_lt (by omega)]

/-- **`prop_check_subtree` leaves the state as it was**, whatever it counts. -/
theorem propCheckSubtree_same (hs : s.ok = true → s.Quiescent) (vars : LitVec) (head : ℕ) :
    s.Same (s.propCheckSubtree P vars head).2 := by
  by_cases hok : s.ok = true
  swap
  · rw [propCheckSubtree, if_pos (by simpa using hok)]; exact .refl s
  replace hs := hs hok
  have hq := hs.newDecisionLevel s.phaseSaving
  have he := enqueueAll_spec hq.toWf (vars.take head)
  rw [propCheckSubtree, if_neg (by simp [hok])]
  cases hst : (s.newDecisionLevel.enqueueAll (vars.take head)).1 with
  | «false» =>
      simp only [hst, Bool.false_eq_true, if_false]
      exact hs.undo_enqueued he (.refl _)
  | «true» =>
      have hready := (he.conflict_iff (P := P) hq hst).1
      have hr := P.spec _ hready
      simp only [hst, if_true]
      refine hs.undo_propagated (P := P) he hready ?_
      cases hc : (P.run (s.newDecisionLevel.enqueueAll (vars.take head)).2).1 with
      | «true» => exact .refl _
      | «false» => exact propCheckSubtreeImpl_same (vars.drop head) (hr.quiescent hready hc)

/-- The tree count of a quiescent solver. -/
theorem propCheckSubtree_count (hs : s.Quiescent) (hok : s.ok = true) {vars : LitVec} {head : ℕ}
    (hn : vars.length - head ≤ 63) :
    (s.propCheckSubtree P vars head).1.toNat =
      refutedCount s.clauses (s.trailSet ∪ {p | p ∈ vars.take head}) (vars.drop head) := by
  have hlen : (vars.drop head).length = vars.length - head := List.length_drop
  have hsize := toNat_one_shiftLeft hn
  have hq := hs.newDecisionLevel s.phaseSaving
  have he := enqueueAll_spec hq.toWf (vars.take head)
  rw [propCheckSubtree, if_neg (by simp [hok])]
  cases hst : (s.newDecisionLevel.enqueueAll (vars.take head)).1 with
  | «false» =>
      have hr : Refuted s.clauses (s.trailSet ∪ {p | p ∈ vars.take head}) :=
        .inr (he.inconsistent hst)
      simp only [hst]
      rw [if_neg (by simp), hsize, refutedCount_of_refuted hr, hlen]
  | «true» =>
      obtain ⟨hready, hconf⟩ := he.conflict_iff (P := P) hq hst
      have hr := P.spec _ hready
      have hclauses : (s.newDecisionLevel.enqueueAll (vars.take head)).2.clauses = s.clauses := by
        rw [he.frame]; rfl
      cases hc : (P.run (s.newDecisionLevel.enqueueAll (vars.take head)).2).1 with
      | «true» =>
          have hr' : Refuted s.clauses (s.trailSet ∪ {p | p ∈ vars.take head}) := hconf.mp hc
          simp only [hst, hc, if_true]
          rw [hsize, refutedCount_of_refuted hr', hlen]
      | «false» =>
          simp only [hst, hc, if_true]
          rw [if_neg (by simp), propCheckSubtreeImpl_count (P := P) (vars.drop head)
            (hr.quiescent hready hc) (by omega), hr.trailSet_eq hc, he.trailSet_eq hst,
            ← refutedCount_congr hr.clauses, hclauses, refutedCount_closure]
          rfl

/-- A solver in the same state counts the same. -/
theorem propCheckSubtree_eq_of_same (hs : s.ok = true → s.Quiescent) (hst : s.Same t)
    {vars : LitVec} {head : ℕ} (hn : vars.length - head ≤ 63) :
    (t.propCheckSubtree P vars head).1 = (s.propCheckSubtree P vars head).1 := by
  by_cases hok : s.ok = true
  · have hok' : t.ok = true := hst.ok_eq.trans hok
    rw [← UInt64.toNat_inj, propCheckSubtree_count ((hs hok).same hst) hok' hn,
      propCheckSubtree_count (hs hok) hok hn, hst.trailSet_eq, refutedCount_congr hst.clauses]
  · have hok' : s.ok = false := by simpa using hok
    rw [propCheckSubtree, if_pos (hst.ok_eq.trans hok'), propCheckSubtree, if_pos hok']

/-! ### A loaded clause set -/

/-- Propagating `a` on the clauses `F` ends in a conflict. -/
def conflicts (P : Propagator) (F : Cnf) (a : LitVec) : Bool :=
  !(propCheck P (loadClauses P F empty) a 0).1

/-- **History independence**: a solver loaded with `F` answers the same after any earlier calls,
and is ready for the next one. -/
theorem propCheck_of_same {P : Propagator} {F : Cnf} {t : Solver}
    (h : (loadClauses P F empty).Same t) (a : LitVec) :
    (t.propCheck P a 0).1 = !conflicts P F a ∧
      (loadClauses P F empty).Same (t.propCheck P a 0).2 := by
  have hL := loaded_loadClauses P F
  have hready : t.ok = true → t.Quiescent := fun hok =>
    (hL.quiescent (h.ok_eq ▸ hok)).same h
  refine ⟨?_, h.trans (propCheck_same hready a 0)⟩
  rw [conflicts, Bool.not_not, propCheck_eq_of_same hL.quiescent h]

/-- **A conflict refutes.** -/
theorem not_satisfiableUnder_of_conflicts {P : Propagator} {F : Cnf} {a : LitVec}
    (h : conflicts P F a = true) : ¬ SatisfiableUnder F a := by
  have hL := loaded_loadClauses P F
  rw [conflicts, Bool.not_eq_true'] at h
  rintro ⟨m, hF, ha⟩
  by_cases hok : (loadClauses P F empty).ok = true
  · have hr := (not_congr (propCheck_eq_true_iff (P := P) (hL.quiescent hok) hok a 0)).mp
      (by simp [h])
    obtain ⟨hC, hT⟩ := (hL.models_iff hok m).mpr hF
    refine not_refuted_of_model (valuation_holds m) hC ?_ (not_not.mp hr)
    intro p hp
    rcases hp with hp | hp
    · exact hT p hp
    · exact ha p hp
  · exact hL.unsat (by simpa using hok) ⟨m, hF⟩

/-- More assumptions are refuted as well. -/
theorem conflicts_mono {P : Propagator} {F : Cnf} {a b : LitVec} (hab : a ⊆ b)
    (h : conflicts P F a = true) : conflicts P F b = true := by
  have hL := loaded_loadClauses P F
  rw [conflicts, Bool.not_eq_true'] at h ⊢
  by_cases hok : (loadClauses P F empty).ok = true
  · have hr := (not_congr (propCheck_eq_true_iff (P := P) (hL.quiescent hok) hok a 0)).mp
      (by simp [h])
    rw [← Bool.not_eq_true, propCheck_eq_true_iff (hL.quiescent hok) hok, not_not]
    exact (not_not.mp hr).mono (Set.union_subset_union_right _ fun p hp => hab hp)
  · rw [propCheck_not_ok (by simpa using hok)]

/-- The tree count of a loaded solver. -/
theorem propCheckSubtree_loaded (P : Propagator) (F : Cnf) (vars : LitVec) {head : ℕ}
    (hn : vars.length - head ≤ 63) :
    (propCheckSubtree P (loadClauses P F empty) vars head).1.toNat =
      (signVectors (vars.length - head)).countP fun σ =>
        conflicts P F (vars.take head ++ withSigns (vars.drop head) σ) := by
  classical
  have hL := loaded_loadClauses P F
  simp only [conflicts]
  set s := loadClauses P F empty
  by_cases hok : s.ok = true
  · have hq := hL.quiescent hok
    rw [propCheckSubtree_count hq hok hn, refutedCount, List.length_drop]
    refine List.countP_congr ?_
    intro σ _
    have happ : s.trailSet ∪ {p | p ∈ vars.take head ++ withSigns (vars.drop head) σ} =
        s.trailSet ∪ {p | p ∈ vars.take head} ∪ {p | p ∈ withSigns (vars.drop head) σ} := by
      ext p
      simp [or_assoc]
    rw [decide_eq_true_eq, Bool.not_eq_true', ← Bool.not_eq_true, propCheck_eq_true_iff hq hok,
      not_not, happ]
  · have hok' : s.ok = false := by simpa using hok
    have hall : (signVectors (vars.length - head)).countP (fun σ =>
        !(propCheck P s (vars.take head ++ withSigns (vars.drop head) σ) 0).1) =
          (signVectors (vars.length - head)).length :=
      List.countP_eq_length.mpr fun σ _ => by simp [propCheck_not_ok hok']
    rw [hall, length_signVectors, ← toNat_one_shiftLeft hn]
    simp [propCheckSubtree, hok']

/-- **The fast tree count is the plain count.**  On a loaded clause set, `prop_check_subtree` of
`vars` with a head of `head` literals returns the number of sign vectors of the tail that
`prop_check` rejects together with the head. -/
theorem propCheckSubtree_eq_countP (P : Propagator) (F : Cnf) (vars : LitVec) (head : ℕ)
    (_hhead : head ≤ vars.length) (hn : vars.length - head ≤ 63) :
    (propCheckSubtree P (loadClauses P F empty) vars head).1.toNat =
      (signVectors (vars.length - head)).countP fun σ =>
        !(propCheck P (loadClauses P F empty)
          (vars.take head ++ withSigns (vars.drop head) σ) 0).1 :=
  propCheckSubtree_loaded P F vars hn

/-- Under `(¬0 ∨ 1) ∧ (¬0 ∨ ¬1)` two of the four assignments of `0, 1` are rejected. -/
theorem propCheckSubtree_eq_countP_two :
    (propCheckSubtree .saturating (loadClauses .saturating
      [[mkLit 0 true, mkLit 1 false], [mkLit 0 true, mkLit 1 true]] empty)
        [mkLit 0 false, mkLit 1 false] 0).1.toNat = 2 := by
  rw [propCheckSubtree_eq_countP _ _ _ _ (by decide) (by decide)]
  decide +kernel

end Solver

end Parsat
