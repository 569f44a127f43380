import Mathlib.Data.Nat.Size
import Parsat.Library.TaskPool
import Parsat.Propagation.Pool

/-!
# Propagation — the tree count

`prop_tree(vars, head_size)` counts the sign vectors of the tail that propagation refutes together
with the head.  `SimpProp` asks one solver; `ParProp` fixes the signs of the first tail variables in
all ways and hands the subtrees to the pool.  As each task leaves its solver as it was, the pool's
sum is a sum of answers of loaded solvers.

* `treeTasks_perm`: the subtrees of the tasks partition the tree, as long as the number of fixed
  variables fits the 32-bit shift that turns it into a number of tasks.
* `Engine.propTree_eq`: both engines count the refuted sign vectors.
* `parProp_propTree_eq`: so does the pool under every schedule of its workers.
-/

namespace Parsat

open Solver

/-- `ilog2`: the number of bits of `x`. -/
def ilog2 (x : ℕ) : ℕ := x.size

/-- The literals from `start` on, `n` of them, with the bits of `value` as signs. -/
def fixHead (asgn : LitVec) (start n value : ℕ) : LitVec :=
  asgn.take start ++ encode ((asgn.drop start).take n) value ++ asgn.drop (start + n)

/-- `ParProp::prop_tree`. -/
def ParProp.propTree (P : Propagator) (F : Cnf) (cfg : ParPropConfig) (vars : LitVec)
    (headSize : ℕ) : ℕ :=
  let varsLeft := vars.length - headSize
  if varsLeft ≤ cfg.treeSplitVars.toNat then
    (propCheckSubtree P (loadClauses P F empty) vars headSize).1.toNat
  else
    let fixedVars := min (ilog2 cfg.maxThreads.toNat) (varsLeft - cfg.treeSplitVars.toNat)
    let threads := 2 ^ (fixedVars % 32)
    ((List.range threads).map fun thread =>
      (propCheckSubtree P (loadClauses P F empty) (fixHead vars headSize fixedVars thread)
        (headSize + fixedVars)).1.toNat).sum

/-- The propagation engines. -/
inductive Engine where
  | simp
  | par (cfg : ParPropConfig)

/-- `prop_tree` of an engine. -/
def Engine.propTree (P : Propagator) (F : Cnf) : Engine → LitVec → ℕ → ℕ
  | .simp, vars, headSize => (propCheckSubtree P (loadClauses P F empty) vars headSize).1.toNat
  | .par cfg, vars, headSize => ParProp.propTree P F cfg vars headSize

/-- `std::min(_tree_max_fixed_vars, may_be_fixed_vars)`. -/
def ParProp.fixedVars (cfg : ParPropConfig) (varsLeft : ℕ) : ℕ :=
  min (ilog2 cfg.maxThreads.toNat) (varsLeft - cfg.treeSplitVars.toNat)

/-- The tasks `prop_tree` submits: the literals of each and the size of its head. -/
def ParProp.treeTasks (cfg : ParPropConfig) (vars : LitVec) (headSize : ℕ) : List (LitVec × ℕ) :=
  let varsLeft := vars.length - headSize
  if varsLeft ≤ cfg.treeSplitVars.toNat then [(vars, headSize)]
  else
    let fixedVars := ParProp.fixedVars cfg varsLeft
    (List.range (2 ^ (fixedVars % 32))).map fun thread =>
      (fixHead vars headSize fixedVars thread, headSize + fixedVars)

/-- A task on the solver of a worker. -/
def ParProp.treeTask (P : Propagator) (s : Solver) (k : LitVec × ℕ) : UInt64 × Solver :=
  s.propCheckSubtree P k.1 k.2

/-- `_sum`; the value of a single future is its own sum. -/
def ParProp.sum (futures : List UInt64) : UInt64 := futures.foldl (· + ·) 0

/-- The assignments below a head of `headSize` literals. -/
def subtreeAssignments (vars : LitVec) (headSize : ℕ) : List LitVec :=
  (signVectors (vars.length - headSize)).map fun σ =>
    vars.take headSize ++ withSigns (vars.drop headSize) σ

/-! ### The subtrees partition the tree -/

theorem flatMap_range_two_mul {α : Type*} (h : ℕ → List α) (m : ℕ) :
    (List.range (2 * m)).flatMap h =
      (List.range m).flatMap fun u => h (2 * u) ++ h (2 * u + 1) := by
  induction m with
  | zero => rfl
  | succ m ih =>
      rw [Nat.mul_succ, List.range_succ, List.range_succ, List.range_succ]
      simp only [List.flatMap_append, ih]
      simp

/-- The sign vectors, arranged by the signs of the first `k` variables. -/
theorem perm_withSigns (k : ℕ) (vs : LitVec) (hk : k ≤ vs.length) :
    ((List.range (2 ^ k)).flatMap fun t => (signVectors (vs.length - k)).map fun σ =>
      encode (vs.take k) t ++ withSigns (vs.drop k) σ).Perm
    ((signVectors vs.length).map (withSigns vs)) := by
  induction k generalizing vs with
  | zero => simp [encode]
  | succ k ih =>
      cases vs with
      | nil => simp at hk
      | cons l vs =>
          -- the lowest bit of the number is the sign of the first variable
          have ih' := ih vs (by simpa using hk)
          have hodd : ∀ u, (2 * u + 1) / 2 = u := fun u => by omega
          have heven : ∀ u, 2 * u / 2 = u := fun u => by omega
          have hbit : ∀ u, (2 * u).testBit 0 = false := fun u => by simp
          have hbit' : ∀ u, (2 * u + 1).testBit 0 = true := fun u => by simp
          have hmap : ∀ (b : Bool), ((List.range (2 ^ k)).flatMap fun u =>
              (signVectors (vs.length - k)).map fun σ =>
                mkLit l.var b :: (encode (vs.take k) u ++ withSigns (vs.drop k) σ)).Perm
              ((signVectors vs.length).map fun σ => mkLit l.var b :: withSigns vs σ) := fun b => by
            have := ih'.map (mkLit l.var b :: ·)
            simpa [List.map_flatMap, Function.comp_def] using this
          rw [Nat.pow_succ, Nat.mul_comm, flatMap_range_two_mul]
          simp only [List.length_cons, Nat.add_sub_add_right, List.take_succ_cons,
            List.drop_succ_cons, encode_cons, List.cons_append, hodd, heven, hbit, hbit',
            signVectors, List.map_append, List.map_map, Function.comp_def, withSigns,
            List.zipWith_cons_cons]
          refine (List.flatMap_append_perm _ _ _).symm.trans ?_
          refine List.perm_append_comm.trans ?_
          exact (hmap true).append (hmap false)

theorem take_fixHead {vars : LitVec} {start n : ℕ} (value : ℕ) (h : start + n ≤ vars.length) :
    (fixHead vars start n value).take (start + n) =
      vars.take start ++ encode ((vars.drop start).take n) value := by
  have hlen : (vars.take start ++ encode ((vars.drop start).take n) value).length =
      start + n := by
    simp
    omega
  rw [fixHead, ← hlen, List.take_left]

theorem drop_fixHead {vars : LitVec} {start n : ℕ} (value : ℕ) (h : start + n ≤ vars.length) :
    (fixHead vars start n value).drop (start + n) = vars.drop (start + n) := by
  have hlen : (vars.take start ++ encode ((vars.drop start).take n) value).length =
      start + n := by
    simp
    omega
  rw [fixHead]
  nth_rewrite 1 [← hlen]
  rw [List.drop_left]

theorem length_fixHead {vars : LitVec} {start n : ℕ} (value : ℕ) (h : start + n ≤ vars.length) :
    (fixHead vars start n value).length = vars.length := by
  simp [fixHead]
  omega

/-- The assignments below an extended head. -/
theorem subtreeAssignments_fixHead {vars : LitVec} {start n : ℕ} (value : ℕ)
    (h : start + n ≤ vars.length) :
    subtreeAssignments (fixHead vars start n value) (start + n) =
      ((signVectors ((vars.drop start).length - n)).map fun σ =>
        encode ((vars.drop start).take n) value ++
          withSigns ((vars.drop start).drop n) σ).map (vars.take start ++ ·) := by
  have hlen : vars.length - (start + n) = (vars.drop start).length - n := by
    rw [List.length_drop]
    omega
  rw [subtreeAssignments, take_fixHead value h, drop_fixHead value h, length_fixHead value h, hlen,
    List.drop_drop]
  simp [Function.comp_def]

theorem fixedVars_le (cfg : ParPropConfig) (n : ℕ) : ParProp.fixedVars cfg n ≤ n :=
  (min_le_right _ _).trans (Nat.sub_le _ _)

/-- **The subtrees of the tasks partition the tree.** -/
theorem treeTasks_perm (cfg : ParPropConfig) (vars : LitVec) {head : ℕ}
    (hfix : ParProp.fixedVars cfg (vars.length - head) < 32) :
    ((ParProp.treeTasks cfg vars head).flatMap fun k => subtreeAssignments k.1 k.2).Perm
      (subtreeAssignments vars head) := by
  simp only [ParProp.treeTasks]
  split
  · simp
  · set n := ParProp.fixedVars cfg (vars.length - head)
    have hle : n ≤ (vars.drop head).length := by
      rw [List.length_drop]
      exact fixedVars_le cfg _
    have hle' : head + n ≤ vars.length := by
      rw [List.length_drop] at hle
      omega
    have hperm := (perm_withSigns n (vars.drop head) hle).map (vars.take head ++ ·)
    rw [Nat.mod_eq_of_lt hfix, List.flatMap_map]
    simp only [subtreeAssignments_fixHead _ hle', ← List.map_flatMap]
    refine hperm.trans (.of_eq ?_)
    rw [subtreeAssignments, List.length_drop, List.map_map]
    rfl

/-- The tail of a task is no longer than the whole tail. -/
theorem length_of_mem_treeTasks {cfg : ParPropConfig} {vars : LitVec} {head : ℕ}
    {k : LitVec × ℕ} (hk : k ∈ ParProp.treeTasks cfg vars head) :
    k.1.length - k.2 ≤ vars.length - head := by
  simp only [ParProp.treeTasks] at hk
  split at hk
  · rw [List.mem_singleton.mp hk]
  · obtain ⟨t, -, rfl⟩ := List.mem_map.mp hk
    have hle := fixedVars_le cfg (vars.length - head)
    rw [length_fixHead t (by omega)]
    omega

/-! ### The counts -/

/-- `prop_check_subtree` on a loaded solver counts the refuted assignments below the head. -/
theorem propCheckSubtree_subtreeAssignments (P : Propagator) (F : Cnf) (vars : LitVec) {head : ℕ}
    (hn : vars.length - head ≤ 63) :
    (propCheckSubtree P (loadClauses P F empty) vars head).1.toNat =
      (subtreeAssignments vars head).countP (Solver.conflicts P F) := by
  rw [propCheckSubtree_loaded P F vars hn, subtreeAssignments, List.countP_map]
  rfl

/-- The counts of the tasks add up. -/
theorem sum_treeTasks (P : Propagator) (F : Cnf) {cfg : ParPropConfig} {vars : LitVec} {head : ℕ}
    (hn : vars.length - head ≤ 63) (hfix : ParProp.fixedVars cfg (vars.length - head) < 32) :
    ((ParProp.treeTasks cfg vars head).map fun k =>
      (propCheckSubtree P (loadClauses P F empty) k.1 k.2).1.toNat).sum =
        (propCheckSubtree P (loadClauses P F empty) vars head).1.toNat := by
  have htask : ∀ k ∈ ParProp.treeTasks cfg vars head,
      (propCheckSubtree P (loadClauses P F empty) k.1 k.2).1.toNat =
        (subtreeAssignments k.1 k.2).countP (Solver.conflicts P F) := fun k hk =>
    propCheckSubtree_subtreeAssignments P F k.1 ((length_of_mem_treeTasks hk).trans hn)
  rw [List.map_congr_left htask, propCheckSubtree_subtreeAssignments P F vars hn,
    ← (treeTasks_perm cfg vars hfix).countP_eq, List.countP_flatMap]
  rfl

theorem ParProp.propTree_eq_sum (P : Propagator) (F : Cnf) (cfg : ParPropConfig) (vars : LitVec)
    (head : ℕ) : ParProp.propTree P F cfg vars head = ((ParProp.treeTasks cfg vars head).map
      fun k => (propCheckSubtree P (loadClauses P F empty) k.1 k.2).1.toNat).sum := by
  simp only [ParProp.propTree, ParProp.treeTasks]
  split
  · simp
  · rw [List.map_map]
    rfl

/-- **The tree count of an engine** is the number of refuted sign vectors. -/
theorem Engine.propTree_eq (P : Propagator) (F : Cnf) (e : Engine) (vars : LitVec) {head : ℕ}
    (hn : vars.length - head ≤ 31) :
    e.propTree P F vars head = (signVectors (vars.length - head)).countP fun σ =>
      Solver.conflicts P F (vars.take head ++ withSigns (vars.drop head) σ) := by
  have hn' : vars.length - head ≤ 63 := by omega
  rw [← propCheckSubtree_loaded P F vars hn']
  cases e with
  | simp => rfl
  | par cfg =>
      have hfix := fixedVars_le cfg (vars.length - head)
      rw [Engine.propTree, ParProp.propTree_eq_sum, sum_treeTasks P F hn' (by omega)]

/-! ### The pool -/

/-- With at most `2 ^ 31 - 1` threads the number of tasks fits the shift. -/
theorem fixedVars_lt {cfg : ParPropConfig} (hmax : cfg.maxThreads.toNat ≤ 2 ^ 31 - 1) (n : ℕ) :
    ParProp.fixedVars cfg n < 32 := by
  have hsize : cfg.maxThreads.toNat.size ≤ 31 := Nat.size_le.mpr (by omega)
  exact lt_of_le_of_lt (min_le_left _ _) (by rw [ilog2]; omega)

theorem toNat_sum (l : List UInt64) :
    (ParProp.sum l).toNat = (l.map UInt64.toNat).sum % 2 ^ 64 := by
  have h : ∀ a : UInt64,
      (l.foldl (· + ·) a).toNat = (a.toNat + (l.map UInt64.toNat).sum) % 2 ^ 64 := by
    induction l with
    | nil => intro a; simp [Nat.mod_eq_of_lt a.toNat_lt]
    | cons x l ih =>
        intro a
        rw [List.foldl_cons, ih, UInt64.toNat_add, List.map_cons, List.sum_cons, Nat.mod_add_mod,
          Nat.add_assoc]
  rw [ParProp.sum, h]
  simp

/-- **The parallel tree count is the sequential one.**  For every loaded problem, every head of
`vars` that leaves at most 63 variables, up to `2 ^ 31 - 1` threads and any `tree_split_vars`: the
tasks of the pool partition the assignments of the tail; every schedule of the workers is bounded
and gets on until the call returns; and the sum it returns is what `SimpProp` counts. -/
theorem parProp_propTree_eq (P : Propagator) (F : Cnf) (cfg : ParPropConfig) (vars : LitVec)
    (head : ℕ) (workers : List Solver) (_hhead : head ≤ vars.length)
    (hn : vars.length - head ≤ 63) (hpos : 1 ≤ cfg.maxThreads.toNat)
    (hmax : cfg.maxThreads.toNat ≤ 2 ^ 31 - 1) (hlen : workers.length = cfg.maxThreads.toNat)
    (hloaded : ∀ s ∈ workers, (loadClauses P F empty).Same s) :
    ((ParProp.treeTasks cfg vars head).flatMap fun k => subtreeAssignments k.1 k.2).Perm
        (subtreeAssignments vars head) ∧
      ∀ as t, Machine.exec (TaskPool.step (ParProp.treeTask P))
          (TaskPool.start workers (ParProp.treeTasks cfg vars head)) as = some t →
        as.length ≤ 3 * (ParProp.treeTasks cfg vars head).length + 1 ∧
        (t.result = none → ∃ a, (TaskPool.step (ParProp.treeTask P) t a).isSome) ∧
        ∀ counts, t.result = some counts →
          (ParProp.sum counts).toNat = Engine.propTree P F .simp vars head := by
  have hfix := fixedVars_lt hmax (vars.length - head)
  refine ⟨treeTasks_perm cfg vars hfix, ?_⟩
  intro as t hrun
  have hexec : ∀ s : Solver, (loadClauses P F empty).Same s →
      ∀ k ∈ ParProp.treeTasks cfg vars head,
        (ParProp.treeTask P s k).1 = (propCheckSubtree P (loadClauses P F empty) k.1 k.2).1 ∧
          (loadClauses P F empty).Same (ParProp.treeTask P s k).2 := by
    intro s hs k hk
    have hq := (loaded_loadClauses P F).quiescent
    refine ⟨propCheckSubtree_eq_of_same hq hs ((length_of_mem_treeTasks hk).trans hn), ?_⟩
    exact hs.trans (propCheckSubtree_same (fun hok => (hq (hs.ok_eq ▸ hok)).same hs) k.1 k.2)
  obtain ⟨hbound, hprogress, hresult⟩ := TaskPool.runs hexec hloaded (by omega) hrun
  refine ⟨hbound, hprogress, ?_⟩
  intro counts hc
  have hsum := sum_treeTasks P F hn hfix
  have hlt := (propCheckSubtree P (loadClauses P F empty) vars head).1.toNat_lt
  rw [hresult counts hc, toNat_sum, List.map_map]
  simp only [Function.comp_def]
  rw [hsum, Nat.mod_eq_of_lt hlt]
  rfl

/-- Under `(¬0 ∨ 1) ∧ (¬0 ∨ ¬1)` two workers find the two refuted assignments of `0, 1`, one task
for each assignment. -/
theorem parProp_propTree_eq_two : ∃ as t counts,
    Machine.exec (TaskPool.step (ParProp.treeTask .saturating))
      (TaskPool.start (List.replicate 2 (loadClauses .saturating
        [[mkLit 0 true, mkLit 1 false], [mkLit 0 true, mkLit 1 true]] empty))
        (ParProp.treeTasks ⟨2, 1, 0⟩ [mkLit 0 false, mkLit 1 false] 0)) as = some t ∧
      t.result = some counts ∧ (ParProp.sum counts).toNat = Engine.propTree .saturating
        [[mkLit 0 true, mkLit 1 false], [mkLit 0 true, mkLit 1 true]] .simp
        [mkLit 0 false, mkLit 1 false] 0 := by
  have hrun : (Machine.exec (TaskPool.step (ParProp.treeTask .saturating))
      (TaskPool.start (List.replicate 2 (loadClauses .saturating
        [[mkLit 0 true, mkLit 1 false], [mkLit 0 true, mkLit 1 true]] empty))
        (ParProp.treeTasks ⟨2, 1, 0⟩ [mkLit 0 false, mkLit 1 false] 0))
      [.submit, .submit, .take 1, .take 0, .submit, .work 0, .submit, .take 0, .work 0, .work 1,
        .take 1, .work 1, .collect]).any (fun t => t.result = some [1, 0, 1, 0]) = true := by
    decide +kernel
  obtain ⟨t, ht, hr⟩ := Machine.exists_run hrun
  have hresult := of_decide_eq_true hr
  obtain ⟨-, hall⟩ := parProp_propTree_eq .saturating
    [[mkLit 0 true, mkLit 1 false], [mkLit 0 true, mkLit 1 true]] ⟨2, 1, 0⟩
    [mkLit 0 false, mkLit 1 false] 0 (List.replicate 2 (loadClauses .saturating
      [[mkLit 0 true, mkLit 1 false], [mkLit 0 true, mkLit 1 true]] empty))
    (by decide) (by decide) (by decide) (by decide) rfl
    (fun s hs => List.eq_of_mem_replicate hs ▸ .refl _)
  exact ⟨_, t, _, ht, hresult, (hall _ t ht).2.2 _ hresult⟩

end Parsat
