import Parsat.Library.Numbering
import Parsat.Sat.Loading
import Parsat.Sat.Reconstruct

/-!
# Sat — the renumbering all consumers share

`toDimacs` numbers the variables of the clauses it exports in the order in which it meets them, in
two passes over one growing map.  `read_clauses` inverts the map in a loop over all variables, and
a solver that loads the exported clauses makes its own variables of the numbers.

* `toDimacs_induct`: what `mapVar` keeps holds of the map.
* `toDimacs_numbers`: so the map is a bijection between the unassigned variables of the unsatisfied
  clauses and the first numbers.
* `readClauses_renumbered`: the exported clauses, the inverse, the translation of variables and the
  loaded solvers follow it.
-/

namespace Parsat

open Numbering

/-- `remap_variables`; `none` is the failure of the verification. -/
def Problem.remapVariables (p : Problem) (vars : List ℕ) : Option (List ℕ) :=
  vars.mapM fun var => p.revMapping[var]?

/-- The entry of `_mapping` at `x`, if it has one that is not `-1`. -/
def Problem.mapped (p : Problem) (x : ℕ) : Option ℕ := p.mapping.getD x none

namespace Solver

/-- The unassigned variables of the unsatisfied clauses. -/
def openVars (s : Solver) : Finset ℕ :=
  ((s.clauses.filter (!s.satisfied ·)).flatten.map Lit.var).toFinset.filter (s.assigns · = .undef)

/-! ### The numbers given so far -/

section Numbers

variable {s : Solver} {σ : VarMap} {I : VarMap → Prop}

theorem mapLits_induct (hI : ∀ σ x, I σ → I (σ.mapVar x).2) (h : I σ) (c : Clause) :
    I (s.mapLits c σ).2 := by
  induction c generalizing σ with
  | nil => exact h
  | cons p c ih =>
      simp only [mapLits]
      split
      · exact ih (hI σ p.var h)
      · exact ih h

theorem clauseToDimacs_induct (hI : ∀ σ x, I σ → I (σ.mapVar x).2) (h : I σ) (c : Clause) :
    I (s.clauseToDimacs c σ).2 := by
  unfold clauseToDimacs
  split
  · exact h
  · exact mapLits_induct hI h c

theorem scanClauses_induct (hI : ∀ σ x, I σ → I (σ.mapVar x).2) (h : I σ) (cs : List Clause) :
    I (s.scanClauses cs σ) := by
  induction cs generalizing σ with
  | nil => exact h
  | cons c cs ih => exact ih (clauseToDimacs_induct hI h c)

theorem emitClauses_induct (hI : ∀ σ x, I σ → I (σ.mapVar x).2) (h : I σ) (cs : List Clause) :
    I (s.emitClauses cs σ).2 := by
  induction cs generalizing σ with
  | nil => exact h
  | cons c cs ih =>
      have hrest := ih (clauseToDimacs_induct hI h c (s := s))
      simp only [emitClauses]
      split <;> exact hrest

/-- What `mapVar` keeps, the export keeps. -/
theorem toDimacs_induct (hI : ∀ σ x, I σ → I (σ.mapVar x).2) (h : I ⟨[], 0⟩) (s : Solver) :
    I (s.toDimacs []).2 :=
  emitClauses_induct hI (scanClauses_induct hI h s.clauses) s.clauses

/-- A variable without a number gets the next one. -/
theorem mapVar_numbers (h : Numbers σ.get σ.max) (x : ℕ) :
    Numbers (σ.mapVar x).2.get (σ.mapVar x).2.max := by
  have hget := σ.get_mapVar x
  cases hx : σ.get x with
  | some y => simpa [VarMap.mapVar, hx] using h
  | none =>
      have hmax : (σ.mapVar x).2.max = σ.max + 1 := by simp [VarMap.mapVar, hx]
      have hnum : (σ.mapVar x).1 = σ.max := by simp [VarMap.mapVar, hx]
      rw [hmax]
      refine h.update hx ?_ fun z hz => ?_
      · rw [hget, if_pos rfl, hnum]
      · rw [hget, if_neg hz]

end Numbers

variable {s : Solver}

/-- The variables of the clauses that are left. -/
theorem mem_openVars {x : ℕ} :
    x ∈ s.openVars ↔ ∃ c ∈ s.residual s.clauses, ∃ p ∈ c, p.var = x := by
  simp only [openVars, Finset.mem_filter, List.mem_toFinset, List.mem_map, List.mem_flatten,
    List.mem_filter]
  have hvalue : ∀ p : Lit, s.value p = .undef ↔ s.assigns p.var = .undef := fun p => by
    simp only [value]
    cases s.assigns p.var <;> cases p.sign <;> simp [LBool.xor, LBool.ofBool]
  constructor
  · rintro ⟨⟨p, ⟨c, ⟨hc, hs⟩, hp⟩, rfl⟩, hx⟩
    refine exists_mem_residual hc ⟨by simpa using hs, p, List.mem_filter.mpr ⟨hp, ?_⟩, rfl⟩
    simp [(hvalue p).mpr hx]
  · rintro ⟨d, hd, p, hp, rfl⟩
    obtain ⟨c, hc, hs, -, rfl⟩ := mem_residual.mp hd
    obtain ⟨hp, hv⟩ := List.mem_filter.mp hp
    refine ⟨⟨p, ⟨c, ⟨hc, by simp [hs]⟩, hp⟩, rfl⟩, (hvalue p).mp ?_⟩
    cases e : s.value p
    · rw [satisfied_iff.mpr ⟨p, hp, e⟩] at hs
      cases hs
    · simp [e] at hv
    · rfl

/-- **The map** numbers the unassigned variables of the unsatisfied clauses, and nothing else. -/
theorem toDimacs_numbers (s : Solver) :
    (∀ x, ((s.toDimacs []).2.get x).isSome ↔ x ∈ s.openVars) ∧
      Numbers (s.toDimacs []).2.get s.openVars.card := by
  obtain ⟨-, hmapped, hdom, -⟩ := toDimacs_spec s
  have hiff : ∀ x, ((s.toDimacs []).2.get x).isSome ↔ x ∈ s.openVars := fun x => by
    rw [mem_openVars]
    refine ⟨hdom x, ?_⟩
    rintro ⟨c, hc, p, hp, rfl⟩
    exact hmapped c hc p hp
  have hnum : Numbers (s.toDimacs []).2.get (s.toDimacs []).2.max := by
    refine toDimacs_induct (I := fun σ => Numbers σ.get σ.max) ?_ ?_ s
    · exact fun σ x hσ => mapVar_numbers hσ x
    · exact numbers_none fun x => by simp [VarMap.get]
  rw [hnum.card_eq fun x => (hiff x).symm]
  exact ⟨hiff, hnum⟩

/-- In a solver without a false clause every unsatisfied clause is left. -/
theorem Settled.residual_eq (h : s.Settled) :
    s.residual s.clauses = (s.clauses.filter (!s.satisfied ·)).map s.openLits := by
  have hne : ∀ c ∈ s.clauses, s.openLits c ≠ [] := fun c hc => by
    obtain ⟨p, hp, hv⟩ := h.not_falsified c hc
    exact List.ne_nil_of_mem (List.mem_filter.mpr ⟨hp, by simpa using hv⟩)
  rw [residual, ← List.filterMap_eq_map, List.filterMap_filter]
  refine List.filterMap_congr fun c hc => ?_
  by_cases hs : s.satisfied c = true
  · simp [hs]
  · simp [hs, hne c hc]

end Solver

/-! ### What follows the map -/

/-- The clauses of the problem are the unsatisfied ones of its solver under a bijection from their
unassigned variables to the first numbers, and the inverse, the translation of variables and the
solvers that load the clauses go by it. -/
structure Problem.Renumbered (p : Problem) : Prop where
  dom : ∀ x, (p.mapped x).isSome ↔ x ∈ p.solver.openVars
  numbers : Numbers p.mapped p.solver.openVars.card
  clauses : p.clauses = (p.solver.clauses.filter (!p.solver.satisfied ·)).map fun c =>
    (p.solver.openLits c).map fun q => mkLit ((p.mapped q.var).getD 0) q.sign
  length_revMapping : p.revMapping.length = p.solver.openVars.card
  mapped_revMapping : ∀ m < p.solver.openVars.card,
    ∃ x, p.revMapping[m]? = some x ∧ p.mapped x = some m
  remapVariables : ∀ vs : List ℕ, (∀ m ∈ vs, m < p.solver.openVars.card) →
    ∃ ws, p.remapVariables vs = some ws ∧ ws.map p.mapped = vs.map some
  remapVariables_mapped : ∀ ws vs : List ℕ, ws.map p.mapped = vs.map some →
    p.remapVariables vs = some ws
  loaded : ∀ P : Propagator,
    (Solver.loadClauses P p.clauses .empty).nVars = p.solver.openVars.card

section Read

variable {V : Vendored} {F : Cnf} {e : Bool}

/-- The loop of `read_clauses` writes each variable at its number. -/
theorem revMapping_eq (V : Vendored) (F : Cnf) (e : Bool) :
    (readClauses V F e).revMapping = invert 0 (readClauses V F e).mapped
      (List.range (readClauses V F e).solver.nVars) := rfl

/-- A solver makes as many variables as there are numbers. -/
theorem numVars_clauses (V : Vendored) (F : Cnf) (e : Bool) :
    Solver.numVars (readClauses V F e).clauses = (readClauses V F e).solver.openVars.card := by
  obtain ⟨hdom, hnum⟩ := (readClauses V F e).solver.toDimacs_numbers
  have hclauses : (readClauses V F e).clauses = _ :=
    (Solver.toDimacs_spec (readClauses V F e).solver).2.2.2
  have hmem : ∀ c ∈ (readClauses V F e).solver.residual (readClauses V F e).solver.clauses,
      ∀ q ∈ c, q.var ∈ (readClauses V F e).solver.openVars := fun c hc q hq =>
    Solver.mem_openVars.mpr ⟨c, hc, q, hq, rfl⟩
  -- each number is in a clause, the largest one too
  refine eq_of_forall_lt_iff fun x => ?_
  rw [Solver.lt_numVars, hclauses]
  constructor
  · rintro ⟨_, hc', _, hq', hx⟩
    obtain ⟨c, hc, rfl⟩ := List.mem_map.mp hc'
    obtain ⟨q, hq, rfl⟩ := List.mem_map.mp hq'
    obtain ⟨y, hy⟩ := Option.isSome_iff_exists.mp ((hdom _).mpr (hmem c hc q hq))
    rw [VarMap.rename, mkLit_var, hy, Option.getD_some] at hx
    exact hx.trans_lt (hnum.lt hy)
  · intro hx
    obtain ⟨v, hv⟩ := hnum.onto hx
    obtain ⟨c, hc, q, hq, rfl⟩ := Solver.mem_openVars.mp ((hdom v).mp (by rw [hv]; rfl))
    refine ⟨_, List.mem_map_of_mem hc, _, List.mem_map_of_mem hq, ?_⟩
    rw [VarMap.rename, mkLit_var, hv, Option.getD_some]

/-- **The renumbering.**  What `read_clauses` exports of a solver that is not contradictory is
renumbered by a bijection that the inverse map, `remap_variables` and every solver that loads the
clauses share. -/
theorem readClauses_renumbered (V : Vendored)
    (hV : ∀ s : Solver, s.Bounded → (V.eliminator.run s).2.Bounded) (F : Cnf) (e : Bool)
    (hok : (readClauses V F e).solver.ok = true) : (readClauses V F e).Renumbered := by
  obtain ⟨-, hsettled, hbounded⟩ := readClauses_settled hV hok
  obtain ⟨hdom, hnum⟩ := (readClauses V F e).solver.toDimacs_numbers
  have hclauses : (readClauses V F e).clauses = _ :=
    (Solver.toDimacs_spec (readClauses V F e).solver).2.2.2
  -- the loop over all variables meets each one that has a number
  have hrange : ∀ x, ((readClauses V F e).mapped x).isSome →
      x ∈ List.range (readClauses V F e).solver.nVars := fun x hx => by
    obtain ⟨d, hd, q, hq, rfl⟩ := Solver.mem_openVars.mp ((hdom x).mp hx)
    obtain ⟨c, hc, -, -, rfl⟩ := Solver.mem_residual.mp hd
    exact List.mem_range.mpr (hbounded.clauses c hc q (List.mem_filter.mp hq).1)
  have hget : ∀ {x y}, (readClauses V F e).mapped x = some y →
      (readClauses V F e).revMapping[y]? = some x := fun {x y} hy => by
    rw [revMapping_eq]
    exact getElem?_invert hnum.inj (hrange x (by rw [hy]; rfl)) hy
  refine ⟨hdom, hnum, ?_, ?_, ?_, ?_, ?_, ?_⟩
  · rw [hclauses, hsettled.residual_eq, List.map_map]
    rfl
  · rw [revMapping_eq]
    exact hnum.length_invert hrange
  · intro m hm
    obtain ⟨x, hx⟩ := hnum.onto hm
    exact ⟨x, hget hx, hx⟩
  · exact fun vs hvs => hnum.exists_mapM hget hvs
  · exact fun ws vs hws => mapM_of_map hget hws
  · exact fun P => (Solver.loadClauses_nVars P _).trans (numVars_clauses V F e)

/-- `(x₃ ∨ ¬x₁)`, `(x₅)`, `(¬x₅ ∨ x₁ ∨ x₄)` and `(x₂ ∨ x₅)`: the unassigned variables are `1`, `3`
and `4`, as the last clause is satisfied. -/
theorem readClauses_renumbered_gaps :
    (readClauses .plain [[mkLit 3 false, mkLit 1 true], [mkLit 5 false],
      [mkLit 5 true, mkLit 1 false, mkLit 4 false], [mkLit 2 false, mkLit 5 false]]
      false).Renumbered :=
  readClauses_renumbered _ (fun _ h => h) _ _ (by decide +kernel)

end Read

end Parsat
