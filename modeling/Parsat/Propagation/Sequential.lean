import Parsat.Sat.PropCheck
import Parsat.Search.Search

/-!
# Propagation — one solver

`Prop::sequential_propagate` and the engine `SimpProp` built on it: propagate what the search
visits, one assumption after the other, and tell the callback about each.  The callback stops the
loop by returning `false`; one that throws does not.

`sequentialPropagate_spec` reads the loop back for a callback that never returns `false`: it
evaluates every assignment of the search, and the count is the number of conflicts among them.
-/

namespace Parsat

open Solver

/-- `prop_callback_t`; `none` is a call that throws. -/
abbrev Callback := Bool → LitVec → Option Bool

/-- `if (callback) … break`: the callback is there and returns `false`. -/
def Stops (callback : Option Callback) (conflict : Bool) (a : LitVec) : Bool :=
  match callback with
  | none => false
  | some f => f conflict a = some false

/-- One turn of the loop: what was propagated, with which outcome, and where the loop goes on. -/
structure Turn where
  conflict : Bool
  assumption : LitVec
  solver : Solver
  next : Option Search

/-- The body of the loop; `assemble` puts the base assumption in front. -/
def turn (P : Propagator) (assemble : LitVec → LitVec) (callback : Option Callback) (s : Solver)
    (search : Search) : Turn :=
  let a := assemble search.assignment
  let r := propCheck P s a 0
  { conflict := !r.1
    assumption := a
    solver := r.2
    next := if Stops callback (!r.1) a then none else search.next }

/-- What a propagation returns and leaves: the number of conflicts, the evaluated assumptions in
the order of the callback's calls, and the solver. -/
structure Propagation where
  conflicts : ℕ
  calls : List (Bool × LitVec)
  solver : Solver

/-- The last turn of the loop. -/
def Turn.last (t : Turn) : Propagation := ⟨t.conflict.toNat, [(t.conflict, t.assumption)], t.solver⟩

/-- The loop, for at most `n` turns after this one. -/
def sequentialLoop (P : Propagator) (assemble : LitVec → LitVec) (callback : Option Callback) :
    ℕ → Solver → Search → Propagation
  | 0, s, search => (turn P assemble callback s search).last
  | n + 1, s, search =>
    let t := turn P assemble callback s search
    match t.next with
    | none => t.last
    | some search' =>
      let r := sequentialLoop P assemble callback n t.solver search'
      ⟨t.conflict.toNat + r.conflicts, (t.conflict, t.assumption) :: r.calls, r.solver⟩

/-- Both overloads of `sequential_propagate`: without a base assumption the search's own vector is
propagated, with one it is `util::concat(base_assumption, search())`. -/
def assemble : Option LitVec → LitVec → LitVec
  | none, a => a
  | some base, a => base ++ a

/-- `Prop::sequential_propagate`. -/
def sequentialPropagate (P : Propagator) (s : Solver) (base : Option LitVec) (search : Search)
    (callback : Option Callback) : Propagation :=
  sequentialLoop P (assemble base) callback (search.total - search.done) s search

/-- `SimpProp::prop_search` after `load_problem`. -/
def SimpProp.propSearch (P : Propagator) (F : Cnf) (base : Option LitVec) (search : Search)
    (callback : Option Callback) : Propagation :=
  sequentialPropagate P (loadClauses P F empty) base search callback

/-! ### What the loop evaluates -/

/-- What is reported about an assignment of the search. -/
def report (P : Propagator) (F : Cnf) (base : Option LitVec) (a : LitVec) : Bool × LitVec :=
  (Solver.conflicts P F (assemble base a), assemble base a)

section Spec

variable {P : Propagator} {F : Cnf} {base : Option LitVec} {callback : Option Callback} {s : Solver}
  {search : Search}

/-- One turn on a loaded solver reports the assignment of the search. -/
theorem turn_spec (base : Option LitVec) (search : Search) (hs : (loadClauses P F empty).Same s)
    (hcb : ∀ c a, Stops callback c a = false) :
    let t := turn P (assemble base) callback s search
    (t.conflict, t.assumption) = report P F base search.assignment ∧
      (loadClauses P F empty).Same t.solver ∧ t.next = search.next := by
  obtain ⟨h₁, h₂⟩ := propCheck_of_same hs (assemble base search.assignment)
  refine ⟨?_, h₂, ?_⟩
  · simp only [turn, report, h₁, Bool.not_not]
  · simp only [turn, hcb]
    rfl

/-- **The loop** evaluates the visits of the search. -/
theorem sequentialLoop_spec (n : ℕ) (hs : (loadClauses P F empty).Same s) (hl : search.Live)
    (hn : search.total ≤ n + search.done) (hcb : ∀ c a, Stops callback c a = false) :
    (sequentialLoop P (assemble base) callback n s search).calls =
        search.visits.map (report P F base) ∧
      (sequentialLoop P (assemble base) callback n s search).conflicts =
        (search.visits.map (report P F base)).countP Prod.fst := by
  induction n generalizing s search with
  | zero => exact absurd hl (by simp only [Search.Live]; omega)
  | succ n ih =>
      obtain ⟨h₁, h₂, h₃⟩ := turn_spec base search hs hcb
      rw [hl.visits_eq, sequentialLoop]
      set t := turn P (assemble base) callback s search
      have hcount : t.conflict.toNat = if t.conflict = true then 1 else 0 := by
        cases t.conflict <;> rfl
      cases hnext : search.next with
      | none => simp [h₃, hnext, Turn.last, ← h₁, hcount]
      | some search' =>
          obtain ⟨ht, hd, -⟩ := Search.next_eq_some hnext
          obtain ⟨hc, hk⟩ := ih h₂ (hl.next hnext) (by omega)
          simp only [h₃, hnext, hc, hk, List.map_cons, ← h₁, List.countP_cons, hcount]
          exact ⟨trivial, Nat.add_comm _ _⟩

/-- **Sequential propagation** evaluates every assignment of the search, in its order, and counts
the conflicts. -/
theorem sequentialPropagate_spec (base : Option LitVec) (hs : (loadClauses P F empty).Same s)
    (hl : search.Live) (hcb : ∀ c a, Stops callback c a = false) :
    (sequentialPropagate P s base search callback).calls = search.visits.map (report P F base) ∧
      (sequentialPropagate P s base search callback).conflicts =
        (search.visits.map (report P F base)).countP Prod.fst :=
  sequentialLoop_spec _ hs hl (by simp only [Search.Live] at hl; omega) hcb

end Spec

end Parsat
