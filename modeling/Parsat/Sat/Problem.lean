import Parsat.Sat.Solver

/-!
# Sat — reading a problem

`Problem::read_clauses`: parse the clauses into a solver, eliminate variables if asked to, export
the clauses that are left under a renumbering of their variables (`SimpSolver::toDimacs`), and
decide from the exported list and a local flag whether the problem is already solved.

`eliminate()` is a parameter (`Eliminator`).  The export is characterised by `toDimacs_spec`: it
lists the unsatisfied clauses without their false literals, drops the ones this leaves empty, and
renames the variables injectively.

The export does not look at the solver's `ok`.  `readClauses_sound_iff` says exactly when the
outcome is right about the formula: the solver must not have found a contradiction, or what it
still holds must be contradictory by itself, or nothing may be left and `eliminate` have been
asked for, since only then does the local flag know of the contradiction.
-/

namespace Parsat

open UnitProp

/-- `core::sat::State`. -/
inductive State where
  | SAT
  | UNSAT
  | UNKNOWN
  deriving DecidableEq, Repr

/-! ### The export -/

/-- The `vec<Var> map` of `toDimacs`, where `-1` is `none`, with its counter `max`. -/
structure VarMap where
  map : List (Option ℕ)
  max : ℕ

namespace VarMap

/-- The image of `x`, if `x` is inside the vector and not `-1`. -/
def get (σ : VarMap) (x : ℕ) : Option ℕ := σ.map.getD x none

/-- `mapVar`: the image of `x`, which is the next number if `x` has none yet. -/
def mapVar (σ : VarMap) (x : ℕ) : ℕ × VarMap :=
  match σ.get x with
  | some y => (y, σ)
  | none =>
    (σ.max, { map := (σ.map ++ List.replicate (x + 1 - σ.map.length) none).set x (some σ.max)
              max := σ.max + 1 })

end VarMap

namespace Solver

/-- The literals of a clause that are not false, under the renumbering. -/
def mapLits (s : Solver) : Clause → VarMap → LitVec × VarMap
  | [], σ => ([], σ)
  | p :: c, σ =>
    if s.value p ≠ .false then
      let r := σ.mapVar p.var
      let q := s.mapLits c r.2
      (mkLit r.1 p.sign :: q.1, q.2)
    else s.mapLits c σ

/-- `toDimacs(lits, c, map, max)`, which skips a satisfied clause. -/
def clauseToDimacs (s : Solver) (c : Clause) (σ : VarMap) : Option LitVec × VarMap :=
  if s.satisfied c then (none, σ)
  else
    let q := s.mapLits c σ
    (some q.1, q.2)

/-- The loop of `toDimacs(out_cls, map)` that numbers the variables. -/
def scanClauses (s : Solver) (cs : List Clause) (σ : VarMap) : VarMap :=
  cs.foldl (fun σ c => (s.clauseToDimacs c σ).2) σ

/-- The loop of `toDimacs(out_cls, map)` that writes the clauses, except empty ones. -/
def emitClauses (s : Solver) : List Clause → VarMap → List LitVec × VarMap
  | [], σ => ([], σ)
  | c :: cs, σ =>
    let r := s.clauseToDimacs c σ
    let q := s.emitClauses cs r.2
    match r.1 with
    | some (l :: ls) => ((l :: ls) :: q.1, q.2)
    | _ => q

/-- `toDimacs(out_cls, map)`. -/
def toDimacs (s : Solver) (map : List (Option ℕ)) : List LitVec × VarMap :=
  s.emitClauses s.clauses (s.scanClauses s.clauses ⟨map, 0⟩)

end Solver

/-! ### Reading -/

/-- No clause is false under the trail. -/
structure Solver.Settled (s : Solver) : Prop extends Solver.Wf s where
  not_falsified : ∀ c ∈ s.clauses, ∃ p ∈ c, s.value p ≠ .false

/-- `eliminate(true)` of the vendored solver: it returns `ok`, gives up at once on a solver that is
not `ok`, returns `false` only for an unsatisfiable state, and otherwise leaves a propagated state
that is satisfiable exactly if the one before was. -/
structure Eliminator where
  run : Solver → Bool × Solver
  flag : ∀ s, (run s).1 = (run s).2.ok
  not_ok : ∀ s : Solver, s.ok = false → run s = (false, s)
  unsat : ∀ s : Solver, s.ok = true → s.Quiescent → (run s).1 = false → ¬ ∃ m, s.Models m
  settled : ∀ s : Solver, s.ok = true → s.Quiescent → (run s).1 = true → (run s).2.Settled
  preserves : ∀ s : Solver, s.ok = true → s.Quiescent → (run s).1 = true →
    ((∃ m, (run s).2.Models m) ↔ ∃ m, s.Models m)

/-- The vendored solver code `Problem` calls; `solve` gives `_solver.model` after
`_solver.solve()`. -/
structure Vendored where
  propagator : Propagator
  eliminator : Eliminator
  solve : Solver → List LBool

/-- `core::sat::Problem` after its constructor. -/
structure Problem where
  clauses : List LitVec
  mapping : List (Option ℕ)
  revMapping : List ℕ
  model : List LBool
  result : State
  solver : Solver

/-- The loop that inverts `_mapping`. -/
def revMappingOf (nVars : ℕ) (mapping : List (Option ℕ)) : List ℕ :=
  (List.range nVars).foldl (fun rev var =>
    match mapping.getD var none with
    | none => rev
    | some mapped => (rev ++ List.replicate (1 + mapped - rev.length) 0).set mapped var) []

/-- The local `ok` and the solver after parsing and, if asked for, elimination. -/
def parseAndEliminate (V : Vendored) (F : Cnf) (eliminate : Bool) : Bool × Solver :=
  let s := Solver.loadClauses V.propagator F Solver.empty
  if eliminate then V.eliminator.run s else (true, s)

/-- `Problem::read_clauses`. -/
def readClauses (V : Vendored) (F : Cnf) (eliminate : Bool) : Problem :=
  let r := parseAndEliminate V F eliminate
  let d := r.2.toDimacs []
  { clauses := d.1
    mapping := d.2.map
    revMapping := revMappingOf r.2.nVars d.2.map
    model := if d.1.isEmpty && r.1 then V.solve r.2 else []
    result := if d.1.isEmpty then (if r.1 then .SAT else .UNSAT) else .UNKNOWN
    solver := r.2 }

/-- The outcome of reading is right about the formula. -/
def Problem.Sound (p : Problem) (F : Cnf) : Prop :=
  match p.result with
  | .SAT => Satisfiable F
  | .UNSAT => ¬ Satisfiable F
  | .UNKNOWN => Satisfiable p.clauses ↔ Satisfiable F

/-! ### What the export lists -/

namespace VarMap

variable {σ τ : VarMap}

/-- Numbers are below `max`, and no two variables share one. -/
structure Injective (σ : VarMap) : Prop where
  lt_max : ∀ {x y}, σ.get x = some y → y < σ.max
  inj : ∀ {x x' y}, σ.get x = some y → σ.get x' = some y → x = x'

/-- `τ` numbers every variable `σ` does, the same way. -/
structure Le (σ τ : VarMap) : Prop where
  get_eq : ∀ {x y}, σ.get x = some y → τ.get x = some y

theorem Le.refl (σ : VarMap) : σ.Le σ := ⟨id⟩

theorem Le.trans {υ : VarMap} (h : σ.Le τ) (h' : τ.Le υ) : σ.Le υ :=
  ⟨fun hx => h'.get_eq (h.get_eq hx)⟩

theorem get_mapVar (σ : VarMap) (x z : ℕ) :
    (σ.mapVar x).2.get z = if z = x then some (σ.mapVar x).1 else σ.get z := by
  unfold mapVar
  cases h : σ.get x with
  | some y =>
      by_cases e : z = x
      · simp [e, h]
      · simp [e]
  | none =>
      simp only [get, List.getD_eq_getElem?_getD] at h ⊢
      by_cases e : z = x
      · subst e
        rw [List.getElem?_set_self (by simp; omega)]
        simp
      · rw [List.getElem?_set_ne (fun h => e h.symm), if_neg e, List.getElem?_append]
        split
        · rfl
        · rename_i hz
          rw [List.getElem?_eq_none (by omega : σ.map.length ≤ z)]
          rw [List.getElem?_replicate]
          split <;> rfl

theorem le_mapVar (σ : VarMap) (x : ℕ) : σ.Le (σ.mapVar x).2 := by
  refine ⟨fun {z y} h => ?_⟩
  rw [get_mapVar]
  split
  · rename_i e
    subst e
    simp [mapVar, h]
  · exact h

theorem Injective.mapVar (h : σ.Injective) (x : ℕ) : (σ.mapVar x).2.Injective := by
  unfold VarMap.mapVar
  cases hx : σ.get x with
  | some y => exact h
  | none =>
      have hget := get_mapVar σ x
      simp only [VarMap.mapVar, hx] at hget
      constructor
      · intro z y hz
        rw [hget] at hz
        split at hz
        · cases hz; exact Nat.lt_succ_self _
        · exact (h.lt_max hz).trans (Nat.lt_succ_self _)
      · intro z z' y hz hz'
        rw [hget] at hz hz'
        split at hz <;> split at hz'
        · rename_i e e'
          rw [e, e']
        · cases hz; exact absurd (h.lt_max hz') (lt_irrefl _)
        · cases hz'; exact absurd (h.lt_max hz) (lt_irrefl _)
        · exact h.inj hz hz'

/-- A literal under the renumbering. -/
def rename (σ : VarMap) (p : Lit) : Lit := mkLit ((σ.get p.var).getD 0) p.sign

end VarMap

namespace Solver

/-- The literals of a clause that are not false. -/
def openLits (s : Solver) (c : Clause) : Clause := c.filter fun p => s.value p ≠ .false

/-- The clauses the solver still has to satisfy: the unsatisfied ones without their false
literals, where this leaves any. -/
def residual (s : Solver) (cs : List Clause) : Cnf :=
  cs.filterMap fun c =>
    if s.satisfied c || (s.openLits c).isEmpty then none else some (s.openLits c)

variable {s : Solver} {σ τ : VarMap}

theorem mapLits_spec (hσ : σ.Injective) (c : Clause) :
    (s.mapLits c σ).2.Injective ∧ σ.Le (s.mapLits c σ).2 ∧
      (∀ p ∈ s.openLits c, ((s.mapLits c σ).2.get p.var).isSome) ∧
      ∀ υ, (s.mapLits c σ).2.Le υ → (s.mapLits c σ).1 = (s.openLits c).map υ.rename := by
  induction c generalizing σ with
  | nil => exact ⟨hσ, .refl σ, by simp [openLits], by simp [mapLits, openLits]⟩
  | cons p c ih =>
      by_cases hp : s.value p = .false
      · have ho : s.openLits (p :: c) = s.openLits c := by simp [openLits, hp]
        simp only [mapLits, hp, ne_eq, not_true_eq_false, if_false, ho]
        exact ih hσ
      · have ho : s.openLits (p :: c) = p :: s.openLits c := by simp [openLits, hp]
        obtain ⟨h₁, h₂, h₃, h₄⟩ := ih (hσ.mapVar p.var)
        have hget := VarMap.get_mapVar σ p.var p.var
        rw [if_pos rfl] at hget
        simp only [mapLits, hp, ne_eq, not_false_eq_true, if_true, ho]
        refine ⟨h₁, (σ.le_mapVar p.var).trans h₂, ?_, ?_⟩
        · intro q hq
          rcases List.mem_cons.mp hq with rfl | hq
          · rw [h₂.get_eq hget]; rfl
          · exact h₃ q hq
        · intro υ hυ
          rw [List.map_cons, h₄ υ hυ, VarMap.rename, hυ.get_eq (h₂.get_eq hget),
            Option.getD_some]

theorem clauseToDimacs_spec (hσ : σ.Injective) (c : Clause) :
    (s.clauseToDimacs c σ).2.Injective ∧ σ.Le (s.clauseToDimacs c σ).2 := by
  unfold clauseToDimacs
  split
  · exact ⟨hσ, .refl σ⟩
  · obtain ⟨h₁, h₂, -, -⟩ := mapLits_spec hσ (s := s) c
    exact ⟨h₁, h₂⟩

theorem scanClauses_injective (hσ : σ.Injective) (cs : List Clause) :
    (s.scanClauses cs σ).Injective := by
  induction cs generalizing σ with
  | nil => exact hσ
  | cons c cs ih => exact ih (clauseToDimacs_spec hσ c).1

theorem emitClauses_spec (hσ : σ.Injective) (cs : List Clause) :
    (s.emitClauses cs σ).2.Injective ∧ σ.Le (s.emitClauses cs σ).2 ∧
      (∀ c ∈ s.residual cs, ∀ p ∈ c, ((s.emitClauses cs σ).2.get p.var).isSome) ∧
      ∀ υ, (s.emitClauses cs σ).2.Le υ →
        (s.emitClauses cs σ).1 = (s.residual cs).map (List.map υ.rename) := by
  induction cs generalizing σ with
  | nil => exact ⟨hσ, .refl σ, by simp [residual], by simp [emitClauses, residual]⟩
  | cons c cs ih =>
      obtain ⟨hinj, hle⟩ := clauseToDimacs_spec hσ (s := s) c
      obtain ⟨h₁, h₂, h₃, h₄⟩ := ih hinj
      by_cases hs : s.satisfied c = true
      · have hr : s.residual (c :: cs) = s.residual cs := by simp [residual, hs]
        have he : s.emitClauses (c :: cs) σ = s.emitClauses cs σ := by
          simp [emitClauses, clauseToDimacs, hs]
        simp only [clauseToDimacs, hs, if_true] at h₁ h₂ h₃ h₄
        rw [he, hr]
        exact ⟨h₁, h₂, h₃, h₄⟩
      · obtain ⟨-, -, g₃, g₄⟩ := mapLits_spec hσ (s := s) c
        have hd : s.clauseToDimacs c σ = (some (s.mapLits c σ).1, (s.mapLits c σ).2) := by
          simp [clauseToDimacs, hs]
        rw [hd] at hle h₁ h₂ h₃ h₄
        by_cases ho : s.openLits c = []
        · -- every literal is false: nothing is written
          have hr : s.residual (c :: cs) = s.residual cs := by simp [residual, hs, ho]
          have hm : (s.mapLits c σ).1 = [] := by simpa [ho] using g₄ _ (.refl _)
          have he : s.emitClauses (c :: cs) σ = s.emitClauses cs (s.mapLits c σ).2 := by
            simp [emitClauses, hd, hm]
          rw [he, hr]
          exact ⟨h₁, hle.trans h₂, h₃, h₄⟩
        · have hr : s.residual (c :: cs) = s.openLits c :: s.residual cs := by
            simp [residual, hs, ho]
          obtain ⟨l, ls, hm⟩ : ∃ l ls, (s.mapLits c σ).1 = l :: ls := by
            have hne : (s.mapLits c σ).1 ≠ [] := by
              rw [g₄ _ (.refl _)]
              simpa using ho
            exact List.exists_cons_of_ne_nil hne
          have he : s.emitClauses (c :: cs) σ =
              ((l :: ls) :: (s.emitClauses cs (s.mapLits c σ).2).1,
                (s.emitClauses cs (s.mapLits c σ).2).2) := by
            simp [emitClauses, hd, hm]
          rw [he, hr]
          refine ⟨h₁, hle.trans h₂, ?_, ?_⟩
          · intro d hd' p hp
            rcases List.mem_cons.mp hd' with rfl | hd'
            · obtain ⟨y, hy⟩ := Option.isSome_iff_exists.mp (g₃ p hp)
              simp [h₂.get_eq hy]
            · exact h₃ d hd' p hp
          · -- a number that is given stays, so a later map renames the clause in the same way
            intro υ hυ
            rw [List.map_cons, h₄ υ hυ, ← g₄ υ (h₂.trans hυ), hm]

/-- A variable is numbered only because it is in the clause. -/
theorem mapLits_dom {c : Clause} {x : ℕ} (h : ((s.mapLits c σ).2.get x).isSome) :
    (σ.get x).isSome ∨ ∃ p ∈ s.openLits c, p.var = x := by
  induction c generalizing σ with
  | nil => exact .inl h
  | cons p c ih =>
      by_cases hp : s.value p = .false
      · have ho : s.openLits (p :: c) = s.openLits c := by simp [openLits, hp]
        simp only [mapLits, hp, ne_eq, not_true_eq_false, if_false] at h
        rw [ho]
        exact ih h
      · have ho : s.openLits (p :: c) = p :: s.openLits c := by simp [openLits, hp]
        simp only [mapLits, hp, ne_eq, not_false_eq_true, if_true] at h
        rw [ho]
        rcases ih h with h | ⟨q, hq, e⟩
        · rw [VarMap.get_mapVar] at h
          split at h
          · rename_i e
            exact .inr ⟨p, List.mem_cons_self, e.symm⟩
          · exact .inl h
        · exact .inr ⟨q, List.mem_cons_of_mem _ hq, e⟩

theorem clauseToDimacs_dom {c : Clause} {x : ℕ} (h : ((s.clauseToDimacs c σ).2.get x).isSome) :
    (σ.get x).isSome ∨ s.satisfied c = false ∧ ∃ p ∈ s.openLits c, p.var = x := by
  unfold clauseToDimacs at h
  split at h
  · exact .inl h
  · rename_i hs
    exact (mapLits_dom h).imp id fun hp => ⟨by simpa using hs, hp⟩

/-- A variable of an unsatisfied clause is in a residual one. -/
theorem exists_mem_residual {cs : List Clause} {c : Clause} {x : ℕ} (hc : c ∈ cs)
    (h : s.satisfied c = false ∧ ∃ p ∈ s.openLits c, p.var = x) :
    ∃ d ∈ s.residual cs, ∃ p ∈ d, p.var = x := by
  obtain ⟨hs, p, hp, e⟩ := h
  have hne : s.openLits c ≠ [] := List.ne_nil_of_mem hp
  refine ⟨s.openLits c, ?_, p, hp, e⟩
  rw [residual, List.mem_filterMap]
  exact ⟨c, hc, by simp [hs, hne]⟩

theorem scanClauses_dom {cs all : List Clause} {x : ℕ} (hall : ∀ c ∈ cs, c ∈ all)
    (h : ((s.scanClauses cs σ).get x).isSome) :
    (σ.get x).isSome ∨ ∃ d ∈ s.residual all, ∃ p ∈ d, p.var = x := by
  induction cs generalizing σ with
  | nil => exact .inl h
  | cons c cs ih =>
      obtain ⟨hc, hcs⟩ := List.forall_mem_cons.mp hall
      rcases ih hcs h with h | h
      · exact (clauseToDimacs_dom h).imp id (exists_mem_residual hc)
      · exact .inr h

theorem emitClauses_dom {cs all : List Clause} {x : ℕ} (hall : ∀ c ∈ cs, c ∈ all)
    (h : ((s.emitClauses cs σ).2.get x).isSome) :
    (σ.get x).isSome ∨ ∃ d ∈ s.residual all, ∃ p ∈ d, p.var = x := by
  induction cs generalizing σ with
  | nil => exact .inl h
  | cons c cs ih =>
      obtain ⟨hc, hcs⟩ := List.forall_mem_cons.mp hall
      have hmap : (s.emitClauses (c :: cs) σ).2 =
          (s.emitClauses cs (s.clauseToDimacs c σ).2).2 := by
        simp only [emitClauses]
        split <;> rfl
      rw [hmap] at h
      rcases ih hcs h with h | h
      · exact (clauseToDimacs_dom h).imp id (exists_mem_residual hc)
      · exact .inr h

/-- **The export** lists the residual clauses under an injective renumbering of exactly their
variables. -/
theorem toDimacs_spec (s : Solver) : (s.toDimacs []).2.Injective ∧
    (∀ c ∈ s.residual s.clauses, ∀ p ∈ c, ((s.toDimacs []).2.get p.var).isSome) ∧
      (∀ x, ((s.toDimacs []).2.get x).isSome → ∃ c ∈ s.residual s.clauses, ∃ p ∈ c, p.var = x) ∧
      (s.toDimacs []).1 = (s.residual s.clauses).map (List.map (s.toDimacs []).2.rename) := by
  have h₀ : VarMap.Injective ⟨[], 0⟩ := ⟨by simp [VarMap.get], by simp [VarMap.get]⟩
  obtain ⟨h₁, -, h₃, h₄⟩ := emitClauses_spec (scanClauses_injective h₀ s.clauses (s := s)) s.clauses
    (s := s)
  refine ⟨h₁, h₃, ?_, h₄ _ (.refl _)⟩
  intro x hx
  rcases emitClauses_dom (fun _ hc => hc) hx with hx | hx
  · rcases scanClauses_dom (fun _ hc => hc) hx with hx | hx
    · simp [VarMap.get] at hx
    · exact hx
  · exact hx

theorem toDimacs_eq (s : Solver) : ∃ σ : VarMap, σ.Injective ∧
    (∀ c ∈ s.residual s.clauses, ∀ p ∈ c, (σ.get p.var).isSome) ∧
      (s.toDimacs []).1 = (s.residual s.clauses).map (List.map σ.rename) := by
  obtain ⟨h₁, h₂, -, h₄⟩ := toDimacs_spec s
  exact ⟨_, h₁, h₂, h₄⟩

end Solver

/-- An injective renumbering keeps satisfiability. -/
theorem satisfiable_rename {σ : VarMap} (hσ : σ.Injective) {F : Cnf}
    (hF : ∀ c ∈ F, ∀ p ∈ c, (σ.get p.var).isSome) :
    Satisfiable (F.map (List.map σ.rename)) ↔ Satisfiable F := by
  constructor
  · rintro ⟨m, hm⟩
    refine ⟨fun v => m ((σ.get v).getD 0), ?_⟩
    intro c hc
    obtain ⟨q, hq, hv⟩ := hm _ (List.mem_map_of_mem hc)
    obtain ⟨p, hp, rfl⟩ := List.mem_map.mp hq
    exact ⟨p, hp, hv⟩
  · rintro ⟨m, hm⟩
    classical
    refine ⟨fun y => decide (∃ v, σ.get v = some y ∧ m v = true), ?_⟩
    intro c hc
    obtain ⟨d, hd, rfl⟩ := List.mem_map.mp hc
    obtain ⟨p, hp, hv⟩ := hm d hd
    refine ⟨σ.rename p, List.mem_map_of_mem hp, ?_⟩
    obtain ⟨y, hy⟩ := Option.isSome_iff_exists.mp (hF d hd p hp)
    simp only [Lit.Holds, VarMap.rename, mkLit, hy, Option.getD_some] at hv ⊢
    rw [← hv]
    refine Bool.eq_iff_iff.mpr (decide_eq_true_iff.trans ⟨?_, fun h => ⟨_, hy, h⟩⟩)
    rintro ⟨v, hv', h⟩
    exact hσ.inj hv' hy ▸ h

/-! ### When reading is right -/

namespace Solver

variable {s : Solver}

theorem Quiescent.settled (h : s.Quiescent) : s.Settled where
  toWf := h.toWf
  not_falsified := by
    intro c hc
    by_contra hn
    simp only [not_exists, not_and, not_not] at hn
    refine h.not_refuted (.inl (h.closed.conflict_iff.mpr ⟨c, hc, ?_⟩))
    intro q hq
    exact h.toWf.value_false.mp (hn q hq)

theorem satisfied_iff {c : Clause} : s.satisfied c = true ↔ ∃ p ∈ c, s.value p = .true := by
  simp [satisfied]

theorem mem_residual {cs : List Clause} {d : Clause} : d ∈ s.residual cs ↔
    ∃ c ∈ cs, s.satisfied c = false ∧ s.openLits c ≠ [] ∧ d = s.openLits c := by
  simp only [residual, List.mem_filterMap]
  refine exists_congr fun c => and_congr_right ?_
  intro _
  by_cases h₁ : s.satisfied c = true <;> by_cases h₂ : s.openLits c = []
  · simp [h₁]
  · simp [h₁]
  · simp [h₂]
  · simp only [h₁, h₂, List.isEmpty_iff, Bool.false_or]
    simp [h₂, eq_comm (a := d)]

/-- A solver in which no clause is falsified has a model exactly if its residual clauses do. -/
theorem Settled.satisfiable_residual (h : s.Settled) :
    Satisfiable (s.residual s.clauses) ↔ ∃ m, s.Models m := by
  constructor
  · rintro ⟨m, hm⟩
    -- follow the trail where it is defined, `m` elsewhere
    let m' : Model := fun v => (s.assigns v).getD (m v)
    have htrue : ∀ p, s.value p = .true → p.Holds m' := fun p hp => by
      simp only [Solver.value] at hp
      simp only [Lit.Holds, m']
      cases hv : s.assigns p.var <;> cases hb : p.sign <;>
        simp [hv, hb, LBool.xor, LBool.ofBool, LBool.getD] at hp ⊢
    have hundef : ∀ p, s.value p = .undef → p.Holds m → p.Holds m' := fun p hp hv => by
      have : s.assigns p.var = .undef := by
        simp only [Solver.value] at hp
        cases e : s.assigns p.var <;> cases hb : p.sign <;>
          simp [e, hb, LBool.xor, LBool.ofBool] at hp ⊢
      simpa only [Lit.Holds, m', this, LBool.getD] using hv
    refine ⟨m', ?_, fun p hp => htrue p ((h.value_iff p).mpr hp)⟩
    intro c hc
    by_cases hs : s.satisfied c = true
    · obtain ⟨p, hp, hv⟩ := satisfied_iff.mp hs
      exact ⟨p, hp, htrue p hv⟩
    · obtain ⟨q, hq, hq'⟩ := h.not_falsified c hc
      have hne : s.openLits c ≠ [] :=
        List.ne_nil_of_mem (List.mem_filter.mpr ⟨hq, by simpa using hq'⟩)
      obtain ⟨p, hp, hv⟩ := hm _ (mem_residual.mpr ⟨c, hc, by simpa using hs, hne, rfl⟩)
      obtain ⟨hp, hpv⟩ := List.mem_filter.mp hp
      refine ⟨p, hp, hundef p ?_ hv⟩
      cases e : s.value p
      · exact absurd (satisfied_iff.mpr ⟨p, hp, e⟩) hs
      · simp [e] at hpv
      · rfl
  · -- a true literal is not false on the trail, so it is among those that are left
    rintro ⟨m, hC, hT⟩
    refine ⟨m, ?_⟩
    intro d hd
    obtain ⟨c, hc, -, -, rfl⟩ := mem_residual.mp hd
    obtain ⟨p, hp, hv⟩ := hC c hc
    refine ⟨p, List.mem_filter.mpr ⟨hp, ?_⟩, hv⟩
    have : s.value p ≠ .false := fun e =>
      (Lit.holds_neg m p).mp (hT _ (h.toWf.value_false.mp e)) hv
    simpa using this

end Solver

theorem satisfiable_toDimacs (s : Solver) :
    Satisfiable (s.toDimacs []).1 ↔ Satisfiable (s.residual s.clauses) := by
  obtain ⟨σ, h₁, h₂, h₃⟩ := s.toDimacs_eq
  rw [h₃, satisfiable_rename h₁ h₂]

theorem toDimacs_eq_nil (s : Solver) : (s.toDimacs []).1 = [] ↔ s.residual s.clauses = [] := by
  obtain ⟨σ, -, -, h₃⟩ := s.toDimacs_eq
  rw [h₃, List.map_eq_nil_iff]

/-- The state in which the export finds the solver: consistent with an equisatisfiable residue, or
contradictory, which `F` then is too. -/
theorem parseAndEliminate_spec (V : Vendored) (F : Cnf) (e : Bool) :
    let r := parseAndEliminate V F e
    (r.2.ok = true → r.1 = true ∧ (Satisfiable (r.2.residual r.2.clauses) ↔ Satisfiable F)) ∧
      (r.2.ok = false → r.1 = !e ∧ ¬ Satisfiable F) := by
  have hL := Solver.loaded_loadClauses V.propagator F
  have hmodels : (Solver.loadClauses V.propagator F Solver.empty).ok = true →
      ((∃ m, (Solver.loadClauses V.propagator F Solver.empty).Models m) ↔ Satisfiable F) :=
    fun hok => exists_congr fun m => hL.models_iff hok m
  cases e with
  | «false» =>
      simp only [parseAndEliminate]
      refine ⟨fun hok => ⟨rfl, ?_⟩, fun hok => ⟨rfl, hL.unsat hok⟩⟩
      exact (hL.quiescent hok).settled.satisfiable_residual.trans (hmodels hok)
  | «true» =>
      simp only [parseAndEliminate, if_true]
      by_cases hok : (Solver.loadClauses V.propagator F Solver.empty).ok = true
      · have hq := hL.quiescent hok
        refine ⟨?_, ?_⟩
        · intro h
          have h' := (V.eliminator.flag _).trans h
          refine ⟨h', ?_⟩
          rw [(V.eliminator.settled _ hok hq h').satisfiable_residual,
            V.eliminator.preserves _ hok hq h', hmodels hok]
        · intro h
          have h' := (V.eliminator.flag _).trans h
          exact ⟨h', fun hF => V.eliminator.unsat _ hok hq h' ((hmodels hok).mpr hF)⟩
      · have hok' : (Solver.loadClauses V.propagator F Solver.empty).ok = false := by
          simpa using hok
        rw [V.eliminator.not_ok _ hok']
        exact ⟨fun h => absurd h hok, fun _ => ⟨rfl, hL.unsat hok'⟩⟩

/-- **When reading is right.**  The outcome of the constructor agrees with the formula exactly if
the solver is not contradictory when the export starts, or the clauses it still has to satisfy are
unsatisfiable by themselves, or there are none and elimination was asked for. -/
theorem readClauses_sound_iff (V : Vendored) (F : Cnf) (e : Bool) :
    (readClauses V F e).Sound F ↔
      (parseAndEliminate V F e).2.ok = true ∨
      ¬ Satisfiable ((parseAndEliminate V F e).2.residual (parseAndEliminate V F e).2.clauses) ∨
      ((parseAndEliminate V F e).2.residual (parseAndEliminate V F e).2.clauses = [] ∧
        e = true) := by
  obtain ⟨hok, hnot⟩ := parseAndEliminate_spec V F e
  have hsat := satisfiable_toDimacs (parseAndEliminate V F e).2
  have hnil := toDimacs_eq_nil (parseAndEliminate V F e).2
  have hempty : Satisfiable [] := ⟨fun _ => true, by simp [Satisfies]⟩
  simp only [Problem.Sound, readClauses]
  set r := parseAndEliminate V F e
  -- the flag is read only if no clause is exported
  by_cases hd : (r.2.toDimacs []).1 = []
  · have hr := hnil.mp hd
    rw [hr] at hok ⊢
    cases ho : r.2.ok with
    | «true» =>
        obtain ⟨h₁, h₂⟩ := hok ho
        simp [hd, h₁, h₂.mp hempty]
    | «false» =>
        obtain ⟨h₁, h₂⟩ := hnot ho
        cases e <;> simp [hd, h₁, h₂, hempty]
  · have hr := mt hnil.mpr hd
    have hd' : (r.2.toDimacs []).1.isEmpty = false := by simpa using hd
    simp only [hd', hsat]
    cases ho : r.2.ok with
    | «true» => simp [(hok ho).2]
    | «false» => simp [(hnot ho).2, hr]

/-! ### A contradiction among the unit clauses -/

/-- `eliminate()` of a solver with `use_simplification` off, and of any solver that is not `ok`. -/
def Eliminator.off : Eliminator where
  run s := (s.ok, s)
  flag _ := rfl
  not_ok s h := by simp [h]
  unsat s h _ h' := by simp [h] at h'
  settled s _ hq _ := hq.settled
  preserves _ _ _ _ := Iff.rfl

/-- The saturating propagator without elimination. -/
def Vendored.plain : Vendored := ⟨.saturating, .off, fun _ => []⟩

/-- The file `2 3 0`, `1 0`, `-1 0`. -/
def clashingUnits : Cnf :=
  [[mkLit 1 false, mkLit 2 false], [mkLit 0 false], [mkLit 0 true]]

theorem not_satisfiable_clashingUnits : ¬ Satisfiable clashingUnits := by
  rintro ⟨m, hm⟩
  obtain ⟨p, hp, h⟩ := hm [mkLit 0 false] (by decide)
  obtain ⟨q, hq, h'⟩ := hm [mkLit 0 true] (by decide)
  obtain rfl := List.mem_singleton.mp hp
  obtain rfl := List.mem_singleton.mp hq
  simp only [Lit.Holds, mkLit] at h h'
  rw [h] at h'
  cases h'

/-- The contradiction is found while parsing, with `2 3 0` already in the clause list: the export
is that clause alone. -/
theorem readClauses_clashingUnits :
    ¬ (readClauses .plain clashingUnits true).Sound clashingUnits := by
  have hr : (readClauses .plain clashingUnits true).result = .UNKNOWN := by decide +kernel
  have hc : (readClauses .plain clashingUnits true).clauses =
      [[mkLit 0 false, mkLit 1 false]] := by decide +kernel
  have hsat : Satisfiable [[mkLit 0 false, mkLit 1 false]] :=
    ⟨fun _ => true, by simp [Satisfies, Lit.Holds, mkLit]⟩
  simp only [Problem.Sound, hr, hc, hsat, true_iff]
  exact not_satisfiable_clashingUnits

end Parsat
