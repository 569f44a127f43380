import Parsat.Minisat.Calls

/-!
# Minisat — what holds all through a search

The states a search of a solver passes through, at whatever point and after however many restarts
(`Searches`).  In each of them propagation does what unit propagation says, and a clause learnt from
a conflict is one the solver did not have.
-/

namespace Parsat.Minisat

open UnitProp

namespace Core

/-- The states of the searches of a solver to which the clauses `F` have been added. -/
inductive Searches (cfg : Config) (F : Cnf) : Core → Prop where
  | start {s : Core} {assumps : List Lit} : Reaches F s → s.ok = true →
      (∀ a ∈ assumps, s.Usable a.var) →
      Searches cfg F { s with model := [], conflict := [], assumptions := assumps }
  | round {s t : Core} {g : Guess} {nofConflicts : ℤ} {conflictC conflictC' : ℕ} :
      Searches cfg F s → searchStep cfg nofConflicts g conflictC s = .next conflictC' t →
      Searches cfg F t
  | restart {s t : Core} {g : Guess} {nofConflicts : ℤ} {conflictC : ℕ} : Searches cfg F s →
      searchStep cfg nofConflicts g conflictC s = .done .undef t → Searches cfg F t

variable {s t : Core} {W : Lit → List Watcher} {p : Lit} {cr bt : ℕ} {c d : Clause} {F : Cnf}
  {cfg : Config}

/-- The invariant of the search. -/
structure Ongoing (F : Cnf) (s : Core) : Prop extends Sound F s where
  levels : s.Levels
  ok : s.ok = true
  conflict_eq : s.conflict = []

theorem Searches.ongoing (h : Searches cfg F s) : s.Ongoing F := by
  induction h with
  | start h hok ha =>
      have hclean := (h.idle.clean hok).congr_answer [] [] _ ha
      exact ⟨hclean.toSound, hclean.levels, hok, rfl⟩
  | @round s t g nofConflicts conflictC _ _ hr ih =>
      have hround := searchStep_spec ih.toSound ih.levels ih.ok ih.conflict_eq cfg nofConflicts g
        fun _ => Nat.lt_succ_self conflictC
      rw [hr] at hround
      obtain ⟨hsound, hlevels, hfix, -⟩ := hround
      exact ⟨hsound, hlevels, (ok_of_fixed hfix).trans ih.ok,
        (conflict_of_fixed hfix).trans ih.conflict_eq⟩
  | @restart s t g nofConflicts conflictC _ hr ih =>
      have hround := searchStep_spec ih.toSound ih.levels ih.ok ih.conflict_eq cfg nofConflicts g
        fun _ => Nat.lt_succ_self conflictC
      rw [hr] at hround
      obtain ⟨hverdict, hok, -⟩ := hround
      cases hverdict with
      | stopped hclean hc => exact ⟨hclean.toSound, hclean.levels, hok.trans ih.ok, hc⟩

/-- **Propagation in a search** ends with the saturated trail of unit propagation, or with a
conflict exactly if unit propagation has one. -/
theorem Searches.propagated (h : Searches cfg F s) :
    s.abs.Propagated (s.propagate.1.isSome, s.propagate.2.abs) :=
  propagate_refines h.ongoing.inv

/-- What is learnt has no clause of the solver within it: on the level it goes back to, such a
clause would have been propagated. -/
theorem Learnt.not_subset (h : s.Learnt c bt) (hb : s.Base W) (hd : d ∈ s.db) : ¬ d ⊆ c := by
  obtain ⟨cr, hcr, rfl⟩ := mem_db.mp hd
  obtain ⟨⟨p, rest, rfl, hp, -, hrest, -⟩, hlt, -⟩ := h
  intro hsub
  have hlim := List.getElem?_eq_getElem (show bt < s.trailLim.length from hlt)
  obtain ⟨q, hq, hne⟩ := hb.exists_watch_ne hcr (-p)
  have hmem : q ∈ rest := (List.mem_cons.mp (hsub (List.mem_of_mem_take hq))).resolve_left hne
  -- a watch of the clause is false on level `bt` already
  obtain ⟨hqt, -, hql⟩ := hrest q hmem
  obtain ⟨k, hk⟩ := trail_pos hqt
  have hkn := (hb.level_lt_iff hk hlim).mp hql
  obtain ⟨b, hbc, hbt⟩ := hb.upTo _ (List.getElem_mem _) cr hcr q hq
    (List.mem_of_getElem? (by rw [List.getElem?_take_of_lt hkn]; exact hk))
  have hbt' := List.mem_of_mem_take hbt
  rcases List.mem_cons.mp (hsub hbc) with rfl | hb'
  · exact hb.consistent hp hbt'
  · exact hb.consistent hbt' (hrest b hb').1

/-- **A conflict in a search** above level 0 is analysed without a failed assertion: the clause is
false on the trail but for its first literal once the search is back on level `bt`, it follows from
the clauses that were added, and it is not there yet, nor is a part of it. -/
theorem Searches.learns (h : Searches cfg F s) (hp : s.propagate = (some cr, t))
    (hdl : 0 < t.decisionLevel) :
    ∃ c bt, t.analyze cfg.ccminMode cr (fun _ => .undef) = some (c, bt, fun _ => .undef) ∧
      t.Learnt c bt ∧ (∀ m : Model, m.Sat F → ∃ q ∈ c, q.Holds m) ∧ ∀ d ∈ t.db, ¬ d ⊆ c := by
  have hconf : t.Conflicting F cr := by
    have := h.ongoing.propagate.2 cr (by rw [hp])
    rwa [hp] at this
  obtain ⟨c, bt, hana, hL⟩ := analyze_spec hconf.base hconf.searching.decided hdl cfg.ccminMode
    hconf.mem hconf.false
  exact ⟨c, bt, hana, hL, fun m hm => hconf.means.implied hm hL.implied,
    fun d hd => hL.not_subset hconf.base hd⟩

/-- A solver whose two clauses leave the first variable one value. -/
def forced : Core := (pair.addClause_ [mkLit 0 false, mkLit 1 false]).2

/-- The start of a search in it with the other value assumed, and the state after a round. -/
def begun : Core := { forced with model := [], conflict := [], assumptions := [mkLit 0 true] }

def assumed : Core :=
  match searchStep ⟨2, true⟩ 1 .plain 0 begun with
  | .next _ s | .done _ s => s
  | .failed => begun

theorem searches_assumed :
    Searches ⟨2, true⟩ [[mkLit 0 false, mkLit 1 true], [mkLit 0 false, mkLit 1 false]] assumed := by
  have husable : ∀ v, v = 0 ∨ v = 1 → pair.Usable v := fun v => usable_pair.mpr
  have hps : ∀ p ∈ [mkLit 0 false, mkLit 1 false], pair.Usable p.var := by
    intro p hp
    rcases List.mem_pair.mp hp with rfl | rfl
    · exact husable 0 (.inl rfl)
    · exact husable 1 (.inr rfl)
  have hadds := (reaches_pair.idle.clean rfl).addClause_ rfl hps
  have hstart : Searches ⟨2, true⟩
      [[mkLit 0 false, mkLit 1 true], [mkLit 0 false, mkLit 1 false]] begun := by
    refine .start (.addClause reaches_pair hps) rfl fun a ha => ?_
    rw [List.mem_singleton.mp ha]
    exact (hadds.usable _).mpr (husable 0 (.inl rfl))
  exact .round (g := .plain) hstart (rfl : searchStep ⟨2, true⟩ 1 .plain 0 begun = .next 0 assumed)

theorem propagated_assumed :
    assumed.abs.Propagated (assumed.propagate.1.isSome, assumed.propagate.2.abs) :=
  searches_assumed.propagated

theorem learns_assumed :
    ∃ c bt, assumed.propagate.2.analyze 2 1 (fun _ => .undef) = some (c, bt, fun _ => .undef) ∧
      assumed.propagate.2.Learnt c bt ∧
      (∀ m : Model, m.Sat [[mkLit 0 false, mkLit 1 true], [mkLit 0 false, mkLit 1 false]] →
        ∃ q ∈ c, q.Holds m) ∧ ∀ d ∈ assumed.propagate.2.db, ¬ d ⊆ c :=
  searches_assumed.learns
    (Prod.ext (by decide +kernel : assumed.propagate.1 = some 1) rfl) (by decide +kernel)

end Core

end Parsat.Minisat
