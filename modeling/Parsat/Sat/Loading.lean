import Parsat.Sat.History

/-!
# Sat — what loading leaves of a formula

`addClause_` drops clauses, shortens them and makes level-0 assignments of them.  What is left is
the formula, simplified by these assignments, so propagation on the solver is unit propagation on
the formula: it refutes the same assumptions and derives the same literals from the others.

* `loadClauses_simplifies`: the invariant of loading.
* `propCheck_loaded`: `prop_check` answers whether unit propagation on the formula refutes.
* `propCheck_overloads_agree`: so both overloads answer the same, and what the second one copies
  is what follows from the assumptions.
-/

namespace Parsat

open UnitProp

namespace Solver

variable {P : Propagator} {κ : Solver → Clause} {s : Solver} {F : Cnf} {ps c : Clause}

/-- A clause the loop drops. -/
theorem Quiescent.covered_of_keepLits_none (hs : s.Quiescent)
    (h : s.keepLits none (sortLits ps) = none) :
    (∃ q ∈ ps, q ∈ s.trailSet) ∨ ∃ q ∈ ps, -q ∈ ps ∧ -q ≠ q := by
  rcases keepLits_none h with ⟨p, hp, hv⟩ | ⟨p, hp, hp' | hp'⟩
  · exact .inl ⟨p, mem_sortLits.mp hp, (hs.toWf.value_iff p).mp hv⟩
  · exact .inr ⟨p, mem_sortLits.mp hp, mem_sortLits.mp hp', Lit.neg_ne p⟩
  · cases hp'

/-- What it keeps of a clause. -/
theorem Quiescent.keepLits_sound (hs : s.Quiescent)
    (h : s.keepLits none (sortLits ps) = some c) :
    c ⊆ ps ∧ ∀ q ∈ ps, q ∈ c ∨ -q ∈ s.trailSet := by
  obtain ⟨h₁, h₂⟩ := keepLits_some h
  refine ⟨fun q hq => mem_sortLits.mp (h₁ q hq).1, fun q hq => ?_⟩
  rcases h₂ q (mem_sortLits.mpr hq) with h | h | h
  · exact .inl h
  · exact .inr (hs.toWf.value_false.mp h)
  · cases h

/-- The literal that is left of a clause follows from it. -/
theorem derives_left (hF : Simplifies F s.trailSet s.clauses) {p : Lit} (hp : p ∈ ps)
    (h : ∀ q ∈ ps, q ∈ [p] ∨ -q ∈ s.trailSet) : Derives (F ++ [ps]) ∅ p := by
  refine .unit (List.mem_append_right _ (List.mem_singleton_self ps)) hp fun q hq hne => ?_
  have hfalse := (h q hq).resolve_left fun hmem => hne (List.mem_singleton.mp hmem)
  exact (hF.derives _ hfalse).mono_clauses (List.subset_append_left ..)

/-- One more clause, of which one literal is left: the clause is gone, and the literal is assigned
and propagated. -/
theorem addClause_simplifies_unit (P : Propagator) (hs : s.Quiescent)
    (hF : Simplifies F s.trailSet s.clauses) {p : Lit}
    (h : s.keepLits none (sortLits ps) = some [p]) :
    ((P.run (s.uncheckedEnqueue p)).1 = false →
      Simplifies (F ++ [ps]) (P.run (s.uncheckedEnqueue p)).2.trailSet
        (P.run (s.uncheckedEnqueue p)).2.clauses) ∧
    ((P.run (s.uncheckedEnqueue p)).1 = true → Refuted (F ++ [ps]) ∅) := by
  obtain ⟨hsub, hfalse⟩ := hs.keepLits_sound h
  have hp : s.value p = .undef := ((keepLits_some h).1 p (by simp)).2
  have hready := hs.ready_of_append (t := s.uncheckedEnqueue p) (hs.toWf.uncheckedEnqueue hp)
    rfl rfl rfl
  have hr := P.spec _ hready
  have hset : (s.uncheckedEnqueue p).trailSet = s.trailSet ∪ {p} := by
    ext q
    simp [trailSet, uncheckedEnqueue, or_comm]
  have hps : p ∈ ps := hsub (List.mem_singleton_self p)
  -- the clause is gone; its literal `p` follows, as the others are false
  have happ : Simplifies (F ++ [ps]) (s.trailSet ∪ {p}) (s.clauses ++ []) := by
    refine hF.append Set.subset_union_left ?_ (by simp) (.inl ⟨p, hps, .inr rfl⟩)
    rintro q (hq | rfl)
    · exact (hF.derives q hq).mono_clauses (List.subset_append_left ..)
    · exact derives_left hF hps hfalse
  rw [List.append_nil] at happ
  constructor
  · intro hc
    have htrail := hr.trailSet_eq hc
    rw [hset] at htrail
    refine happ.grow hr.clauses ?_ fun q hq => ?_
    · exact fun q hq => (Set.ext_iff.mp htrail q).mpr (subset_closure hq)
    · have hq' : Derives s.clauses (s.trailSet ∪ {p} ∪ ∅) q := by
        rw [Set.union_empty]
        exact (Set.ext_iff.mp htrail q).mp hq
      exact happ.derives_of hq'
  · intro hc
    have hconf := hr.conflict_iff.mp hc
    rw [hset] at hconf
    rw [happ.refuted_iff, Set.union_empty]
    exact .inl hconf

/-- **One more clause.** -/
theorem addClause_simplifies (P : Propagator) (hs : s.Quiescent) (hok : s.ok = true)
    (hF : Simplifies F s.trailSet s.clauses) (ps : Clause) :
    ((addClause_ P s ps).2.ok = true → Simplifies (F ++ [ps]) (addClause_ P s ps).2.trailSet
      (addClause_ P s ps).2.clauses) ∧
    ((addClause_ P s ps).2.ok = false → Refuted (F ++ [ps]) ∅) := by
  have hold : ∀ q ∈ s.trailSet, Derives (F ++ [ps]) ∅ q := fun q hq =>
    (hF.derives q hq).mono_clauses (List.subset_append_left ..)
  match h : s.keepLits none (sortLits ps) with
  | none =>
      have happ := hF.append (E := []) subset_rfl hold (by simp)
        ((hs.covered_of_keepLits_none h).imp_right .inl)
      rw [List.append_nil] at happ
      simp only [addClause_, hok, h]
      exact ⟨fun _ => happ, fun e => by simp [hok] at e⟩
  | some [] =>
      have hfalse := (hs.keepLits_sound h).2
      simp only [addClause_, hok, h]
      refine ⟨by simp, fun _ => .inl ⟨ps, by simp, fun q hq => ?_⟩⟩
      exact hold _ ((hfalse q hq).resolve_left List.not_mem_nil)
  | some [p] =>
      obtain ⟨h₁, h₂⟩ := addClause_simplifies_unit P hs hF h
      simp only [addClause_, hok, h]
      exact ⟨fun hc => h₁ (Bool.not_eq_eq_eq_not.mp hc), fun hc => h₂ (Bool.not_eq_eq_eq_not.mp hc)⟩
  | some (a :: b :: c) =>
      have happ := hF.append (E := [a :: b :: c]) subset_rfl hold
        (by simpa using hs.keepLits_sound h) (.inr (.inr (by simp)))
      simp only [addClause_, hok, h]
      exact ⟨fun _ => happ, fun e => by simp at e⟩

theorem loadClauses_concat (P : Propagator) (F : Cnf) (c : Clause) :
    loadClauses P (F ++ [c]) s = (addClause_ P ((loadClauses P F s).growVars c) c).2 := by
  simp [loadClauses, List.foldl_append]

/-- **Loading** leaves the formula, simplified by the level-0 assignments, or finds it refuted. -/
theorem loadClauses_simplifies (P : Propagator) (F : Cnf) :
    ((loadClauses P F empty).ok = true →
      Simplifies F (loadClauses P F empty).trailSet (loadClauses P F empty).clauses) ∧
    ((loadClauses P F empty).ok = false → Refuted F ∅) := by
  induction F using List.reverseRecOn with
  | nil =>
      have hnil : (empty.trailSet : Set Lit) = ∅ := Set.eq_empty_of_forall_notMem fun _ => by
        simp [trailSet, empty]
      refine ⟨fun _ => ?_, fun h => by cases h⟩
      show Simplifies [] empty.trailSet []
      rw [hnil]
      exact .nil
  | append_singleton F c ih =>
      rw [loadClauses_concat]
      set s := loadClauses P F empty
      by_cases hok : s.ok = true
      · have hq := ((loaded_loadClauses P F).quiescent hok).growVars c
        exact addClause_simplifies P hq hok (ih.1 hok) c
      · -- a contradictory solver takes no more clauses
        have hok' : s.ok = false := by simpa using hok
        have hsame : (addClause_ P (s.growVars c) c).2 = s.growVars c := by
          simp [addClause_, growVars, hok']
        rw [hsame]
        refine ⟨fun h => absurd h hok, fun _ => ?_⟩
        exact (ih.2 hok').mono_clauses (List.subset_append_left ..)

/-! ### The variables of a loaded solver -/

/-- The number of variables of a solver that has read `F`: one more than the largest of `F`. -/
def numVars (F : Cnf) : ℕ := F.flatten.foldl (fun n p => max n (p.var + 1)) 0

theorem lt_foldl_var {x n : ℕ} {ps : LitVec} :
    x < ps.foldl (fun n p => max n (p.var + 1)) n ↔ x < n ∨ ∃ p ∈ ps, x ≤ p.var := by
  induction ps generalizing n with
  | nil => simp
  | cons p ps ih =>
      simp only [List.foldl_cons, ih, lt_max_iff, Nat.lt_succ_iff, List.exists_mem_cons_iff,
        or_assoc]

theorem lt_numVars {x : ℕ} : x < numVars F ↔ ∃ c ∈ F, ∃ p ∈ c, x ≤ p.var := by
  rw [numVars, lt_foldl_var]
  constructor
  · rintro (h | ⟨p, hp, hx⟩)
    · exact absurd h (Nat.not_lt_zero x)
    · obtain ⟨c, hc, hpc⟩ := List.mem_flatten.mp hp
      exact ⟨c, hc, p, hpc, hx⟩
  · rintro ⟨c, hc, p, hp, hx⟩
    exact .inr ⟨p, List.mem_flatten.mpr ⟨c, hc, hp⟩, hx⟩

theorem addClause_nVars (P : Propagator) (hs : s.ok = true → s.Quiescent) (ps : Clause) :
    (addClause_ P s ps).2.nVars = s.nVars := by
  by_cases hok : s.ok = true
  · match h : s.keepLits none (sortLits ps) with
    | none => simp [addClause_, hok, h]
    | some [] => simp [addClause_, hok, h]
    | some [p] =>
        have hp : s.value p = .undef := ((keepLits_some h).1 p (by simp)).2
        have hready := (hs hok).ready_of_append (t := s.uncheckedEnqueue p)
          ((hs hok).toWf.uncheckedEnqueue hp) rfl rfl rfl
        have hn : (P.run (s.uncheckedEnqueue p)).2.nVars = s.nVars := (P.spec _ hready).nVars_eq
        simpa [addClause_, hok, h] using hn
    | some (a :: b :: c) => simp [addClause_, hok, h]
  · simp [addClause_, hok]

/-- A clause may make new variables whether it is kept or not. -/
theorem loadClauses_nVars (P : Propagator) (F : Cnf) :
    (loadClauses P F empty).nVars = numVars F := by
  induction F using List.reverseRecOn with
  | nil => rfl
  | append_singleton F c ih =>
      have hs : ((loadClauses P F empty).growVars c).ok = true → _ := fun hok =>
        ((loaded_loadClauses P F).quiescent hok).growVars c
      rw [loadClauses_concat, addClause_nVars P hs, growVars, ih]
      simp [numVars, List.foldl_append]

/-- **`prop_check` of a loaded solver** answers whether unit propagation on the formula refutes. -/
theorem propCheck_loaded (P : Propagator) (F : Cnf) (a : LitVec) (k : ℕ) :
    ((loadClauses P F empty).propCheck P a k).1 = true ↔ ¬ Refuted F {p | p ∈ a} := by
  obtain ⟨h₁, h₂⟩ := loadClauses_simplifies P F
  by_cases hok : (loadClauses P F empty).ok = true
  · rw [propCheck_eq_true_iff ((loaded_loadClauses P F).quiescent hok) hok,
      (h₁ hok).refuted_iff]
  · have hok' : (loadClauses P F empty).ok = false := by simpa using hok
    rw [propCheck_not_ok hok']
    refine iff_of_false Bool.false_ne_true (not_not.mpr ?_)
    exact (h₂ hok').mono (Set.empty_subset _)

end Solver

open Solver

/-- **The two overloads agree.**  On a solver loaded with `F`, after any calls: enqueueing all
assumptions and propagating once answers the same as propagating one after the other, and if that is
`true`, `prop` has the literals that unit propagation derives from the assumptions and that were not
assigned at level 0, each once. -/
theorem propCheck_overloads_agree (P : Propagator) (κ : Solver → Clause) (F : Cnf)
    (calls : List Call) (a : LitVec) (k k' : ℕ) :
    let s := serve P κ (loadClauses P F empty) calls
    (s.propCheck P a k).1 = (s.propCheckProp P κ a k').1.1 ∧
      ((s.propCheckProp P κ a k').1.1 = true →
        (s.propCheckProp P κ a k').1.2.2.Nodup ∧ ∀ p, p ∈ (s.propCheckProp P κ a k').1.2.2 ↔
          p ∈ Closure F {q | q ∈ a} ∧ s.value p = .undef) := by
  intro s
  have hs := (loaded_loadClauses P F).quiescent
  have hsame := serve_same (P := P) (κ := κ) hs calls
  by_cases hok : s.ok = true
  · have hok₀ : (loadClauses P F empty).ok = true := hsame.ok_eq ▸ hok
    have hq : s.Quiescent := (hs hok₀).same hsame
    have hF := (loadClauses_simplifies P F).1 hok₀
    refine ⟨?_, fun h => ?_⟩
    · rw [Bool.eq_iff_iff, propCheck_eq_true_iff hq hok, propCheckProp_eq_true_iff hq hok]
    · have hnot := (propCheckProp_eq_true_iff hq hok a k').mp h
      -- no call has changed the clauses that loading has made of `F`
      have hclosure : Closure s.clauses (s.trailSet ∪ {q | q ∈ a}) = Closure F {q | q ∈ a} := by
        rw [hsame.trailSet_eq, ← hsame.clauses.refuted_iff] at hnot
        rw [hsame.trailSet_eq, ← hsame.clauses.closure_eq,
          hF.closure_eq (hF.refuted_iff.not.mpr hnot)]
      rw [← hclosure]
      exact propCheckProp_copied hq hok h
  · have hok' : s.ok = false := by simpa using hok
    have hprop : s.propCheckProp P κ a k' = ((false, none, []), s) := if_pos hok'
    rw [propCheck_not_ok hok', hprop]
    exact ⟨rfl, fun h => by cases h⟩

end Parsat
