import Mathlib.Data.List.Sort
import Mathlib.Data.Prod.Lex
import Mathlib.Data.Set.Card
import Parsat.Propagation.Tree
import Parsat.Sat.History

/-!
# Backdoor — the variables worth a search

`Preprocess::preprocess` propagates each variable with both signs, on the solvers of the propagation
engine, and keeps the variables that propagate anything besides themselves, the most effective ones
first.  If there are none it gives up, and there is no search for backdoors.

The loop that fills the view stops at the first variable that propagates nothing else.  Where there
is no such variable it reads on behind the last one: `beyond` is what it finds there.

* `map_snd_stats`: the ranges of the threads put each variable to one solver.
* `stats_eq`: `stats` records how many variables the two propagations of each variable touch.
* `preprocess_eq_true_iff`: when `preprocess` returns `true`.
* `fillView`: the loop again, with an end where it would read behind the last entry.
* `preprocess_right_iff`: when it does not, and what the view has then.
-/

namespace Parsat

open Solver

/-- The solvers of an engine. -/
def Engine.native (P : Propagator) (F : Cnf) (e : Engine) : List Solver :=
  List.replicate (match e with
    | .simp => 1
    | .par cfg => cfg.maxThreads.toNat) (loadClauses P F empty)

namespace Preprocess

section Stats

variable (P : Propagator) (κ : Solver → Clause)

/-- `collect_stats` with both signs of a variable: the size of `prop_both`, and the solver after the
two calls. -/
def collectStats (s : Solver) (v : ℕ) : ℕ × Solver :=
  let r := s.propCheckProp P κ [mkLit v true] 0
  let r' := r.2.propCheckProp P κ [mkLit v false] 0
  (((r.1.2.2 ++ r'.1.2.2).map Lit.var).dedup.length, r'.2)

/-- `stats_thread` of a thread that goes through `vars`. -/
def statsThread : Solver → List ℕ → List (ℕ × ℕ)
  | _, [] => []
  | s, v :: vars => ((collectStats P κ s v).1, v) :: statsThread (collectStats P κ s v).2 vars

end Stats

/-- The ranges from `start_var` on of `n` threads, the first of them thread `i`. -/
def ranges (numVars perThread extra : ℕ) : ℕ → ℕ → ℕ → List (List ℕ)
  | 0, _, _ => []
  | n + 1, i, start =>
    if start < numVars then
      let stop := min numVars (start + (perThread + if i < extra then 1 else 0))
      List.range' start (stop - start) :: ranges numVars perThread extra n (i + 1) stop
    else []

variable (P : Propagator) (κ : Solver → Clause) (F : Cnf) (e : Engine)

/-- `_num_vars`. -/
def numVars : ℕ := (loadClauses P F empty).nVars

/-- `stats` before it is sorted, which makes the order of the threads of no account. -/
def stats : List (ℕ × ℕ) :=
  let workers := e.native P F
  let n := numVars P F
  List.flatten (List.zipWith (statsThread P κ) workers
    (ranges n (n / workers.length) (n % workers.length) workers.length 0 0))

/-- The pairs from the last one on. -/
def sortedStats : List (ℕ × ℕ) :=
  ((stats P κ F e).insertionSort fun a b => toLex a ≤ toLex b).reverse

/-- `preprocess`: what it returns and `_var_view`; `none` where the division by the number of
threads ends the process. -/
def preprocess (beyond : List (ℕ × ℕ)) : Option (Bool × List ℕ) :=
  if numVars P F = 0 then some (false, [])
  else if (e.native P F).length = 0 then none
  else match sortedStats P κ F e with
    | [] => none
    | best :: rest =>
      if best.1 ≤ 1 then some (false, [])
      else some (true,
        (((best :: rest ++ beyond).takeWhile fun x => 1 < x.1).take 10000).map Prod.snd)

/-- The loop that fills `_var_view`, over the entries there are; `none` where it reads behind the
last of them. -/
def fillView : ℕ → List (ℕ × ℕ) → Option (List ℕ)
  | 0, _ => some []
  | _ + 1, [] => none
  | k + 1, x :: rest => if 1 < x.1 then (fillView k rest).map (x.2 :: ·) else some []

/-- The variables of each worker. -/
def assigned : List (List ℕ) :=
  let workers := e.native P F
  let n := numVars P F
  ranges n (n / workers.length) (n % workers.length) workers.length 0 0

/-- The variables that the worker of `v` propagates before it comes to `v`. -/
def earlier (v : ℕ) : List ℕ :=
  (((assigned P F e).find? fun vars => v ∈ vars).getD []).takeWhile (· ≠ v)

/-- The worker of `v` when it comes to `v`: a loaded solver after both propagations of each earlier
variable. -/
def worker (v : ℕ) : Solver :=
  (((earlier P F e v).flatMap fun w => [[mkLit w true], [mkLit w false]]).foldl
    (fun s assumptions => (s.propCheckProp P κ assumptions 0).2) (loadClauses P F empty))

/-- How many variables the two propagations of `v` touch: those of the literals in `propagated`
after `prop_check` of the one sign, and after that of the other one. -/
def touched (v : ℕ) : ℕ :=
  let r := (worker P κ F e v).propCheckProp P κ [mkLit v true] 0
  let r' := r.2.propCheckProp P κ [mkLit v false] 0
  ((r.1.2.2.map Lit.var).toFinset ∪ (r'.1.2.2.map Lit.var).toFinset).card

/-- The view lists the best 10000 of the variables that touch another one, or all of them. -/
structure IsBest (view : List ℕ) : Prop where
  nodup : view.Nodup
  length_eq : view.length =
    min 10000 ((List.range (numVars P F)).countP fun v => 1 < touched P κ F e v)
  mem : ∀ v ∈ view, v < numVars P F ∧ 1 < touched P κ F e v
  sorted : view.Pairwise fun v w => touched P κ F e w ≤ touched P κ F e v
  best : ∀ v ∈ view, ∀ w < numVars P F, w ∉ view → touched P κ F e w ≤ touched P κ F e v

/-- What `preprocess` is to do: put each variable to one worker, read existing entries only, and
list the best variables. -/
structure Right : Prop where
  shared : (assigned P F e).flatten = List.range (numVars P F) ∧
    (assigned P F e).length ≤ (e.native P F).length
  inside : ∀ best rest, sortedStats P κ F e = best :: rest → 1 < best.1 →
    (fillView 10000 (best :: rest)).isSome = true
  view : ∀ beyond view, preprocess P κ F e beyond = some (true, view) → IsBest P κ F e view

/-! ### The ranges of the threads -/

variable {P κ F e}

theorem map_snd_statsThread (s : Solver) (vars : List ℕ) :
    (statsThread P κ s vars).map Prod.snd = vars := by
  induction vars generalizing s with
  | nil => rfl
  | cons v vars ih => simp [statsThread, ih]

/-- The ranges go through the variables from `start` on, if the threads left are enough for them. -/
theorem flatten_ranges {numVars perThread extra n i start : ℕ} (hstart : start ≤ numVars)
    (h : numVars ≤ start + n * perThread + (min (i + n) extra - i)) :
    (ranges numVars perThread extra n i start).flatten = List.range' start (numVars - start) := by
  induction n generalizing i start with
  | zero =>
      have : numVars = start := by omega
      simp [ranges, this]
  | succ n ih =>
      rw [ranges]
      split
      swap
      · have : numVars = start := by omega
        simp [this]
      dsimp only
      set cur := perThread + if i < extra then 1 else 0 with hcur
      have hmul : (n + 1) * perThread = n * perThread + perThread := Nat.succ_mul ..
      -- the first `extra` threads have one variable more
      have hstep : numVars ≤ min numVars (start + cur) + n * perThread +
          (min (i + 1 + n) extra - (i + 1)) := by
        rcases Nat.le_total numVars (start + cur) with hle | hle
        · omega
        · split at hcur <;> omega
      set stop := min numVars (start + cur) with hstop
      have hle : start ≤ stop := by omega
      have hle' : stop ≤ numVars := min_le_left ..
      have happ := List.range'_append_1 (s := start) (m := stop - start) (n := numVars - stop)
      rw [Nat.add_sub_cancel' hle] at happ
      rw [List.flatten_cons, ih hle' hstep, happ]
      congr 1
      omega

/-- There are at most as many ranges as threads. -/
theorem length_ranges_le (numVars perThread extra n i start : ℕ) :
    (ranges numVars perThread extra n i start).length ≤ n := by
  induction n generalizing i start with
  | zero => exact le_rfl
  | succ n ih =>
      rw [ranges]
      split
      · exact Nat.succ_le_succ (ih ..)
      · exact Nat.zero_le _

theorem map_snd_zipWith_statsThread {workers : List Solver} {rs : List (List ℕ)}
    (h : rs.length ≤ workers.length) :
    (List.zipWith (statsThread P κ) workers rs).flatten.map Prod.snd = rs.flatten := by
  induction workers generalizing rs with
  | nil =>
      rw [List.eq_nil_of_length_eq_zero (Nat.le_zero.mp h)]
      rfl
  | cons w workers ih =>
      cases rs with
      | nil => rfl
      | cons r rs =>
          rw [List.zipWith_cons_cons, List.flatten_cons, List.map_append, map_snd_statsThread,
            ih (Nat.le_of_succ_le_succ h), List.flatten_cons]

/-- **The threads share the variables**: each is put to one solver. -/
theorem flatten_assigned (hw : (e.native P F).length ≠ 0) :
    (assigned P F e).flatten = List.range (numVars P F) := by
  have hdiv := Nat.div_add_mod (numVars P F) (e.native P F).length
  have hmod := Nat.mod_lt (numVars P F) (Nat.pos_of_ne_zero hw)
  rw [assigned, flatten_ranges (Nat.zero_le _), List.range_eq_range', Nat.sub_zero]
  omega

/-- There is one entry of each variable. -/
theorem map_snd_stats (hw : (e.native P F).length ≠ 0) :
    (stats P κ F e).map Prod.snd = List.range (numVars P F) := by
  rw [stats, map_snd_zipWith_statsThread (length_ranges_le ..)]
  exact flatten_assigned hw

/-! ### When there is something to search -/

theorem sortedStats_perm : (sortedStats P κ F e).Perm (stats P κ F e) :=
  (List.reverse_perm _).trans (List.perm_insertionSort _ _)

theorem sortedStats_pairwise : (sortedStats P κ F e).Pairwise fun a b => b.1 ≤ a.1 := by
  have hsorted : ((stats P κ F e).insertionSort fun a b => toLex a ≤ toLex b).Pairwise
      fun a b => toLex a ≤ toLex b := List.pairwise_insertionSort _ _
  exact (List.pairwise_reverse.mpr hsorted).imp fun h => Prod.Lex.monotone_fst _ _ h

/-- The first of the sorted pairs has the largest statistics. -/
theorem le_of_sortedStats {best : ℕ × ℕ} {rest : List (ℕ × ℕ)}
    (h : sortedStats P κ F e = best :: rest) : ∀ x ∈ stats P κ F e, x.1 ≤ best.1 := by
  intro x hx
  have hmem := sortedStats_perm.mem_iff.mpr hx
  have hsorted := sortedStats_pairwise (P := P) (κ := κ) (F := F) (e := e)
  rw [h] at hmem hsorted
  rcases List.mem_cons.mp hmem with rfl | hmem
  · exact le_rfl
  · exact List.rel_of_pairwise_cons hsorted hmem

/-- **`preprocess` returns `true`** if some variable propagates another one. -/
theorem preprocess_eq_true_iff {beyond : List (ℕ × ℕ)} {found : Bool} {view : List ℕ}
    (h : preprocess P κ F e beyond = some (found, view)) :
    found = true ↔ ∃ x ∈ stats P κ F e, 1 < x.1 := by
  unfold preprocess at h
  split at h
  · rename_i hn
    cases h
    have hranges : ∀ perThread extra n, ranges 0 perThread extra n 0 0 = [] := by
      intro perThread extra n
      cases n <;> rfl
    have hempty : stats P κ F e = [] := by
      rw [stats, hn, hranges, List.zipWith_nil_right]
      rfl
    simp [hempty]
  · split at h
    · cases h
    split at h
    · cases h
    rename_i best rest hs
    have hmem : best ∈ stats P κ F e := by
      have : best ∈ sortedStats P κ F e := hs ▸ List.mem_cons_self
      exact (List.mem_insertionSort _).mp (List.mem_reverse.mp this)
    split at h <;> cases h
    · rename_i hle
      simp only [Bool.false_eq_true, false_iff, not_exists, not_and, not_lt]
      intro x hx
      exact (le_of_sortedStats hs x hx).trans hle
    · rename_i hlt
      simp only [true_iff]
      exact ⟨best, hmem, not_le.mp hlt⟩

/-! ### What the view lists -/

theorem fillView_isSome_iff {k : ℕ} {l : List (ℕ × ℕ)} :
    (fillView k l).isSome = true ↔ k ≤ l.length ∨ ∃ x ∈ l, x.1 ≤ 1 := by
  induction l generalizing k with
  | nil => cases k <;> simp [fillView]
  | cons x rest ih =>
      cases k with
      | zero => simp [fillView]
      | succ k =>
          simp only [fillView]
          split
          · rename_i hx
            simp [ih, Nat.not_le.mpr hx]
          · rename_i hx
            simp [Nat.not_lt.mp hx]

/-- Where the loop stays inside, it is of no account what lies behind the last entry. -/
theorem fillView_eq_some {k : ℕ} {l : List (ℕ × ℕ)} {view : List ℕ}
    (h : fillView k l = some view) (beyond : List (ℕ × ℕ)) :
    (((l ++ beyond).takeWhile fun x => 1 < x.1).take k).map Prod.snd = view := by
  induction k generalizing l view with
  | zero =>
      cases h
      rfl
  | succ k ih =>
      cases l with
      | nil => cases h
      | cons x rest =>
          simp only [fillView] at h
          split at h
          · rename_i hx
            obtain ⟨view', hview, rfl⟩ := Option.map_eq_some_iff.mp h
            rw [List.cons_append, List.takeWhile_cons_of_pos (by simpa using hx),
              List.take_succ_cons, List.map_cons, ih hview]
          · rename_i hx
            cases h
            rw [List.cons_append, List.takeWhile_cons_of_neg (by simpa using hx)]
            rfl

/-- In a list that goes down, the entries before the first small one are all that are not small. -/
theorem takeWhile_eq_filter {l : List (ℕ × ℕ)} (h : l.Pairwise fun a b => b.1 ≤ a.1) :
    (l.takeWhile fun x => 1 < x.1) = l.filter fun x => 1 < x.1 := by
  induction l with
  | nil => rfl
  | cons x l ih =>
      obtain ⟨hx, hl⟩ := List.pairwise_cons.mp h
      by_cases hlt : 1 < x.1
      · rw [List.takeWhile_cons_of_pos (by simpa using hlt),
          List.filter_cons_of_pos (by simpa using hlt), ih hl]
      · have hnil : l.filter (fun x => 1 < x.1) = [] := by
          rw [List.filter_eq_nil_iff]
          intro y hy
          have := hx y hy
          simp only [decide_eq_true_eq]
          omega
        rw [List.takeWhile_cons_of_neg (by simpa using hlt),
          List.filter_cons_of_neg (by simpa using hlt), hnil]

/-! ### What is recorded of a variable -/

/-- The size of `prop_both`. -/
theorem collectStats_fst (s : Solver) (v : ℕ) :
    (collectStats P κ s v).1 =
      let r := s.propCheckProp P κ [mkLit v true] 0
      let r' := r.2.propCheckProp P κ [mkLit v false] 0
      ((r.1.2.2.map Lit.var).toFinset ∪ (r'.1.2.2.map Lit.var).toFinset).card := by
  simp only [collectStats]
  rw [← List.toFinset_append, ← List.map_append, List.card_toFinset]

/-- What a thread records of a variable, on the solver that the variables before it leave. -/
theorem fst_of_mem_statsThread {s : Solver} {vars : List ℕ} (hvars : vars.Nodup) :
    ∀ x ∈ statsThread P κ s vars, x.1 = (collectStats P κ
      (((vars.takeWhile (· ≠ x.2)).flatMap fun w => [[mkLit w true], [mkLit w false]]).foldl
        (fun s a => (s.propCheckProp P κ a 0).2) s) x.2).1 := by
  induction vars generalizing s with
  | nil => simp [statsThread]
  | cons w vars ih =>
      obtain ⟨hw, hvars⟩ := List.nodup_cons.mp hvars
      intro x hx
      rcases List.mem_cons.mp hx with rfl | hx
      · rw [List.takeWhile_cons_of_neg (by simp)]
        rfl
      · have hmem : x.2 ∈ vars := by
          rw [← map_snd_statsThread (P := P) (κ := κ) (collectStats P κ s w).2 vars]
          exact List.mem_map_of_mem hx
        have hne : w ≠ x.2 := fun h => hw (h ▸ hmem)
        rw [List.takeWhile_cons_of_pos (by simpa using hne)]
        exact ih hvars x hx

theorem nodup_assigned (hw : (e.native P F).length ≠ 0) : (assigned P F e).flatten.Nodup := by
  rw [flatten_assigned hw]
  exact List.nodup_range

/-- A variable is in one range only. -/
theorem find_assigned (hw : (e.native P F).length ≠ 0) {vars : List ℕ} {v : ℕ}
    (hvars : vars ∈ assigned P F e) (hv : v ∈ vars) :
    (assigned P F e).find? (fun vars => v ∈ vars) = some vars := by
  have hnodup := nodup_assigned hw
  generalize assigned P F e = ranges at hvars hnodup
  induction ranges with
  | nil => cases hvars
  | cons r ranges ih =>
      rw [List.flatten_cons] at hnodup
      rcases List.mem_cons.mp hvars with rfl | hvars
      · rw [List.find?_cons_of_pos (by simpa using hv)]
      · have hr : v ∉ r := fun hr =>
          List.disjoint_of_nodup_append hnodup hr (List.mem_flatten.mpr ⟨vars, hvars, hv⟩)
        rw [List.find?_cons_of_neg (by simpa using hr)]
        exact ih hvars hnodup.of_append_right

/-- Every entry of `stats` is one of a thread. -/
theorem exists_of_mem_stats {x : ℕ × ℕ} (hx : x ∈ stats P κ F e) :
    ∃ vars ∈ assigned P F e, x ∈ statsThread P κ (loadClauses P F empty) vars := by
  obtain ⟨l, hl, hx⟩ := List.mem_flatten.mp hx
  rw [← List.map_uncurry_zip_eq_zipWith] at hl
  obtain ⟨⟨s, vars⟩, hmem, rfl⟩ := List.mem_map.mp hl
  obtain ⟨hs, hvars⟩ := List.of_mem_zip hmem
  have hs : s = loadClauses P F empty := List.eq_of_mem_replicate hs
  rw [Function.uncurry_apply_pair, hs] at hx
  exact ⟨vars, hvars, hx⟩

/-- An entry of `stats` is what the two propagations of its variable touch. -/
theorem fst_of_mem_stats (hw : (e.native P F).length ≠ 0) {x : ℕ × ℕ}
    (hx : x ∈ stats P κ F e) : x.1 = touched P κ F e x.2 := by
  obtain ⟨vars, hvars, hx⟩ := exists_of_mem_stats hx
  have hnodup : vars.Nodup := (List.nodup_flatten.mp (nodup_assigned hw)).1 _ hvars
  have hv : x.2 ∈ vars := by
    rw [← map_snd_statsThread (P := P) (κ := κ) (loadClauses P F empty) vars]
    exact List.mem_map_of_mem hx
  rw [fst_of_mem_statsThread hnodup x hx, collectStats_fst, touched, worker, earlier,
    find_assigned hw hvars hv]
  rfl

/-- **The statistics**, in the order of the variables: each with the number of variables that its
two propagations touch. -/
theorem stats_eq (hw : (e.native P F).length ≠ 0) :
    stats P κ F e = (List.range (numVars P F)).map fun v => (touched P κ F e v, v) := by
  rw [← map_snd_stats (κ := κ) hw, List.map_map]
  refine (List.map_id _).symm.trans (List.map_congr_left fun x hx => ?_)
  exact Prod.ext (fst_of_mem_stats hw hx) rfl

/-- Every variable finds its worker in the state the loading left it in. -/
theorem same_worker (v : ℕ) : (loadClauses P F empty).Same (worker P κ F e v) := by
  have hloaded := (loaded_loadClauses P F).quiescent
  have hfold : ∀ (calls : List LitVec) (s : Solver), (loadClauses P F empty).Same s →
      (loadClauses P F empty).Same
        (calls.foldl (fun s a => (s.propCheckProp P κ a 0).2) s) := by
    intro calls
    induction calls with
    | nil => exact fun _ hs => hs
    | cons a calls ih =>
        intro s hs
        exact ih _ (hs.trans
          (propCheckProp_same (fun hok => (hloaded (hs.ok_eq ▸ hok)).same hs) a 0))
  exact hfold _ _ (.refl _)

/-- **What is counted** of a variable neither sign of which is refuted: the variables that unit
propagation assigns from one of the signs. -/
theorem touched_eq_ncard {v : ℕ} (hok : (loadClauses P F empty).ok = true)
    (h : ∀ b, ¬ UnitProp.Refuted (loadClauses P F empty).clauses
      ((loadClauses P F empty).trailSet ∪ {p | p ∈ [mkLit v b]})) :
    touched P κ F e v = Set.ncard {w | ∃ b p,
      (p ∈ UnitProp.Closure (loadClauses P F empty).clauses
        ((loadClauses P F empty).trailSet ∪ {p | p ∈ [mkLit v b]}) ∧
      (loadClauses P F empty).value p = .undef) ∧ p.var = w} := by
  set s := loadClauses P F empty with hs
  have hloaded : s.Quiescent := (loaded_loadClauses P F).quiescent hok
  have hcopied : ∀ {t : Solver}, s.Same t → ∀ b p, p ∈ (t.propCheckProp P κ [mkLit v b] 0).1.2.2 ↔
      p ∈ UnitProp.Closure s.clauses (s.trailSet ∪ {p | p ∈ [mkLit v b]}) ∧
        s.value p = .undef := by
    intro t ht b p
    have hq := hloaded.same ht
    have hok' : t.ok = true := ht.ok_eq.trans hok
    have hnot : ¬ UnitProp.Refuted t.clauses (t.trailSet ∪ {p | p ∈ [mkLit v b]}) := by
      rw [← ht.clauses.refuted_iff, ht.trailSet_eq]
      exact h b
    rw [(propCheckProp_copied hq hok'
      ((propCheckProp_eq_true_iff hq hok' [mkLit v b] 0).mpr hnot)).2 p, ← ht.clauses.closure_eq,
      ht.trailSet_eq, Solver.value, ht.assigns_eq]
    rfl
  have hw : s.Same (worker P κ F e v) := same_worker v
  have hw' : s.Same ((worker P κ F e v).propCheckProp P κ [mkLit v true] 0).2 :=
    hw.trans (propCheckProp_same (fun _ => hloaded.same hw) [mkLit v true] 0)
  rw [touched, ← Set.ncard_coe_finset]
  congr 1
  ext w
  simp only [Finset.coe_union, List.coe_toFinset, List.mem_map, Set.mem_union, Set.mem_ofPred_eq,
    Bool.exists_bool, hcopied hw, hcopied hw']
  exact or_comm

/-! ### The best variables -/

/-- The entries are those of the variables. -/
theorem mem_sortedStats (hw : (e.native P F).length ≠ 0) {x : ℕ × ℕ} :
    x ∈ sortedStats P κ F e ↔ x.2 < numVars P F ∧ x.1 = touched P κ F e x.2 := by
  rw [sortedStats_perm.mem_iff, stats_eq hw, List.mem_map]
  constructor
  · rintro ⟨v, hv, rfl⟩
    exact ⟨List.mem_range.mp hv, rfl⟩
  · rintro ⟨hv, ht⟩
    exact ⟨x.2, List.mem_range.mpr hv, Prod.ext ht.symm rfl⟩

/-- **The first entries** of the sorted statistics are the best variables. -/
theorem isBest_take (hw : (e.native P F).length ≠ 0) :
    IsBest P κ F e ((((sortedStats P κ F e).takeWhile fun x => 1 < x.1).take 10000).map
      Prod.snd) := by
  rw [takeWhile_eq_filter sortedStats_pairwise]
  set large := (sortedStats P κ F e).filter fun x => 1 < x.1 with hlarge
  have hmem : ∀ x ∈ large, x.2 < numVars P F ∧ x.1 = touched P κ F e x.2 ∧ 1 < x.1 := by
    intro x hx
    obtain ⟨hx, hlt⟩ := List.mem_filter.mp hx
    obtain ⟨hv, ht⟩ := (mem_sortedStats hw).mp hx
    exact ⟨hv, ht, by simpa using hlt⟩
  have hdown : large.Pairwise fun a b => b.1 ≤ a.1 := sortedStats_pairwise.filter _
  have hnodup : (large.map Prod.snd).Nodup := by
    have hall : ((sortedStats P κ F e).map Prod.snd).Nodup := by
      rw [(sortedStats_perm.map Prod.snd).nodup_iff, map_snd_stats hw]
      exact List.nodup_range
    exact hall.sublist (List.filter_sublist.map _)
  have htake : (large.take 10000).Sublist large := List.take_sublist ..
  refine ⟨hnodup.sublist (htake.map _), ?_, ?_, ?_, ?_⟩
  · have hcount : large.length =
        (List.range (numVars P F)).countP fun v => 1 < touched P κ F e v := by
      rw [hlarge, ← List.countP_eq_length_filter, sortedStats_perm.countP_eq, stats_eq hw,
        List.countP_map]
      rfl
    rw [List.length_map, List.length_take, hcount]
  · intro v hv
    obtain ⟨x, hx, rfl⟩ := List.mem_map.mp hv
    obtain ⟨h₁, h₂, h₃⟩ := hmem x (htake.subset hx)
    exact ⟨h₁, h₂ ▸ h₃⟩
  · rw [List.pairwise_map]
    refine (hdown.sublist htake).imp_of_mem ?_
    intro a b ha hb hab
    rwa [← (hmem a (htake.subset ha)).2.1, ← (hmem b (htake.subset hb)).2.1]
  · intro v hv w hw' hnot
    obtain ⟨x, hx, rfl⟩ := List.mem_map.mp hv
    obtain ⟨-, hx₂, hx₃⟩ := hmem x (htake.subset hx)
    by_cases hlt : 1 < touched P κ F e w
    · -- a large entry that was not taken stands behind those that were
      have hin : (touched P κ F e w, w) ∈ large :=
        List.mem_filter.mpr ⟨(mem_sortedStats hw).mpr ⟨hw', rfl⟩, by simpa using hlt⟩
      rw [← List.take_append_drop 10000 large] at hin hdown
      rcases List.mem_append.mp hin with hin | hin
      · exact absurd (List.mem_map_of_mem hin) hnot
      · have := (List.pairwise_append.mp hdown).2.2 x hx _ hin
        rwa [← hx₂]
    · omega

theorem length_sortedStats (hw : (e.native P F).length ≠ 0) :
    (sortedStats P κ F e).length = numVars P F := by
  rw [sortedStats_perm.length_eq, stats_eq hw, List.length_map, List.length_range]

/-- When the loop stays inside: it stops at a variable that touches no other one or at the cap. -/
theorem fillView_sortedStats_isSome_iff (hw : (e.native P F).length ≠ 0) {k : ℕ} :
    (fillView k (sortedStats P κ F e)).isSome = true ↔
      (∃ v < numVars P F, touched P κ F e v ≤ 1) ∨ k ≤ numVars P F := by
  rw [fillView_isSome_iff, length_sortedStats hw, or_comm]
  refine or_congr_left ⟨?_, ?_⟩
  · rintro ⟨x, hx, hle⟩
    obtain ⟨hv, ht⟩ := (mem_sortedStats hw).mp hx
    exact ⟨x.2, hv, ht ▸ hle⟩
  · rintro ⟨v, hv, hle⟩
    exact ⟨(touched P κ F e v, v), (mem_sortedStats hw).mpr ⟨hv, rfl⟩, hle⟩

/-- Where the loop stays inside, the view lists the best variables. -/
theorem isBest_preprocess (hn : 1 ≤ numVars P F) (hw : (e.native P F).length ≠ 0)
    (hin : (fillView 10000 (sortedStats P κ F e)).isSome = true) {beyond : List (ℕ × ℕ)}
    {view : List ℕ} (h : preprocess P κ F e beyond = some (true, view)) :
    IsBest P κ F e view := by
  rw [preprocess, if_neg (by omega), if_neg hw] at h
  split at h
  · cases h
  rename_i best rest hs
  split at h
  · cases h
  simp only [Option.some.injEq, Prod.mk.injEq, true_and] at h
  obtain ⟨view', hview⟩ := Option.isSome_iff_exists.mp hin
  -- what lies behind the last entry makes no difference
  have h₁ := fillView_eq_some (hs ▸ hview) beyond
  have h₂ := fillView_eq_some hview []
  rw [← h, h₁, ← h₂, List.append_nil]
  exact isBest_take hw

/-- **When `preprocess` works.**  It puts each variable to one worker, reads only entries of `stats`
that exist, and lists the best variables, if there is a worker and either some variable touches no
other one or there are at least 10000 variables; otherwise not. -/
theorem preprocess_right_iff (P : Propagator) (κ : Solver → Clause) (F : Cnf) (e : Engine)
    (hn : 1 ≤ numVars P F) :
    Right P κ F e ↔ (e.native P F).length ≠ 0 ∧
      ((∃ v < numVars P F, touched P κ F e v ≤ 1) ∨ 10000 ≤ numVars P F) := by
  constructor
  · intro h
    have hw : (e.native P F).length ≠ 0 := by
      intro hw
      have hnil : assigned P F e = [] :=
        List.eq_nil_of_length_eq_zero (Nat.le_zero.mp (hw ▸ h.shared.2))
      have := congrArg List.length h.shared.1
      simp only [hnil, List.flatten_nil, List.length_nil, List.length_range] at this
      omega
    refine ⟨hw, ?_⟩
    by_contra hall
    -- if every variable touches another one, the loop passes the last entry
    have hlarge : ∀ v < numVars P F, 1 < touched P κ F e v := by
      intro v hv
      by_contra hle
      exact hall (.inl ⟨v, hv, not_lt.mp hle⟩)
    obtain ⟨best, rest, hs⟩ : ∃ best rest, sortedStats P κ F e = best :: rest :=
      List.exists_cons_of_length_pos (by rw [length_sortedStats hw]; omega)
    have hbest := (mem_sortedStats hw).mp (hs ▸ List.mem_cons_self : best ∈ sortedStats P κ F e)
    have hin := h.inside best rest hs (hbest.2 ▸ hlarge _ hbest.1)
    exact hall ((fillView_sortedStats_isSome_iff hw).mp (hs ▸ hin))
  · rintro ⟨hw, hcond⟩
    have hin := (fillView_sortedStats_isSome_iff (κ := κ) hw).mpr hcond
    refine ⟨⟨flatten_assigned hw, length_ranges_le ..⟩, ?_,
      fun _ _ hpre => isBest_preprocess hn hw hin hpre⟩
    intro best rest hs _
    rwa [hs] at hin

/-- `(0 ∨ 1)`: both variables touch the other one, and the loop reads a third entry. -/
theorem preprocess_reads_beyond :
    let F : Cnf := [[mkLit 0 false, mkLit 1 false]]
    numVars .saturating F = 2 ∧
    sortedStats .saturating (fun _ => []) F .simp = [(2, 1), (2, 0)] ∧
    fillView 10000 [(2, 1), (2, 0)] = none ∧
    preprocess .saturating (fun _ => []) F .simp [] = some (true, [1, 0]) ∧
    preprocess .saturating (fun _ => []) F .simp [(7, 5)] = some (true, [1, 0, 5]) ∧
    ¬ Right .saturating (fun _ => []) F .simp := by
  intro F
  have hs : sortedStats .saturating (fun _ => []) F .simp = [(2, 1), (2, 0)] := by decide +kernel
  refine ⟨by decide +kernel, hs, by decide +kernel, by decide +kernel, by decide +kernel, ?_⟩
  intro h
  have := h.inside _ _ hs (by decide)
  revert this
  decide +kernel

/-- `(0 ∨ 1) ∧ (2 ∨ 3 ∨ 4)`: the loop stops at a variable of the second clause. -/
theorem preprocess_right_two :
    Right .saturating (fun _ => []) [[mkLit 0 false, mkLit 1 false],
      [mkLit 2 false, mkLit 3 false, mkLit 4 false]] .simp := by
  refine (preprocess_right_iff _ _ _ _ (by decide +kernel)).mpr ⟨by decide +kernel, .inl ⟨2, ?_⟩⟩
  decide +kernel

end Preprocess

end Parsat
