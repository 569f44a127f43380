import Parsat.Minisat.Probe

/-!
# Minisat — calls

The methods a user calls: `newVar`, `addClause`, `simplify`, `solve` under assumptions, the two
`prop_check` and `prop_check_subtree`.  Between two calls the solver is back on level 0 with
everything propagated, or it has noted a contradiction (`Idle`).

* `Idle.solve`: a satisfying assignment, or a clause of negated assumptions that follows.
* `Reaches.idle`: after any calls.
* `Reaches.solve_decides`: the answers are right for all restarts.  The budget ends the restarts,
  and without one a restart without a bound on its conflicts does.
* `Reaches.propCheck_iff`: what `prop_check` answers.
-/

namespace Parsat.Minisat

open UnitProp

namespace Core

/-- One restart: its bound on the conflicts, the guesses, and whether the budget is used up then. -/
structure Restart where
  nofConflicts : ℤ
  guesses : ℕ → Guess
  stop : Bool

/-- The loop of `solve_`, as long as there are restarts. -/
def solveLoop (cfg : Config) : List Restart → Core → Option (LBool × Core)
  | [], _ => none
  | r :: rs, s =>
    match s.search cfg r.nofConflicts r.guesses with
    | none => none
    | some (.undef, t) => if r.stop then some (.undef, t) else solveLoop cfg rs t
    | some (status, t) => some (status, t)

/-- Extend & copy model, or note that the formula has none. -/
def conclude (status : LBool) (s : Core) : Core :=
  match status with
  | .true => { s with model := (List.range s.nVars).map s.assigns }
  | .false => if s.conflict = [] then { s with ok := false } else s
  | .undef => s

def solve_ (cfg : Config) (rs : List Restart) (s : Core) : Option (LBool × Core) :=
  let s := { s with model := [], conflict := [] }
  if s.ok = false then some (.false, s)
  else (solveLoop cfg rs s).map fun r => (r.1, (conclude r.1 r.2).cancelUntil 0)

/-- `solve(assumps)`. -/
def solve (cfg : Config) (rs : List Restart) (assumps : List Lit) (s : Core) :
    Option (LBool × Core) := solve_ cfg rs { s with assumptions := assumps }

/-- `newVar(upol, dvar)`. -/
def newVar (s : Core) (dvar : Bool) : Core :=
  let decision := Function.update s.decision s.nVars dvar
  { s with
    nVars := s.nVars + 1
    watches := fun p => if p.var = s.nVars then [] else s.watches p
    assigns := Function.update s.assigns s.nVars .undef
    vardata := Function.update s.vardata s.nVars ⟨none, 0⟩
    decision := decision
    orderHeap := insertVarOrder decision s.orderHeap s.nVars }

variable {s t u : Core} {W : Lit → List Watcher} {p q a : Lit} {cr k n : ℕ} {c : Clause} {F : Cnf}
  {cfg : Config} {g : Guess} {m : Model}

/-! ### Restarts and answers -/

theorem Answered.undef (h : s.Answered F .undef t) : t.Clean F ∧ t.conflict = [] := by
  cases h.verdict with
  | stopped hclean hc => exact ⟨hclean, hc⟩

theorem solveLoop_spec (h : s.Clean F) (hok : s.ok = true) (hconfl : s.conflict = [])
    {rs : List Restart} {status : LBool} (hr : solveLoop cfg rs s = some (status, t)) :
    s.Answered F status t := by
  induction rs generalizing s with
  | nil => cases hr
  | cons r rs ih =>
      obtain ⟨st, u, hu, hans, -⟩ := search_spec h hok hconfl cfg r.nofConflicts r.guesses
      rw [solveLoop, hu] at hr
      cases st with
      | «true» =>
          cases hr
          exact hans
      | «false» =>
          cases hr
          exact hans
      | undef =>
          simp only at hr
          split_ifs at hr with hstop
          · cases hr
            exact hans
          · obtain ⟨hclean, hc⟩ := hans.undef
            exact (ih hclean (hans.ok_eq.trans hok) hc hr).trans hans.ok_eq hans.nVars_eq
              hans.decision_eq hans.assumptions_eq

/-- Between two calls: an exact state, or a contradiction. -/
structure Idle (F : Cnf) (s : Core) : Prop where
  clean : s.ok = true → s.Clean F
  unsat : s.ok = false → ¬ Satisfiable F

/-- What the solver answers under assumptions, and what it leaves. -/
structure Answer (F : Cnf) (s : Core) (assumps : List Lit) (status : LBool) (t : Core) : Prop where
  assigned : status = .true → ∀ v, s.Usable v → ∃ b, t.model[v]? = some (.ofBool b)
  model : status = .true → ∀ m : Model, (∀ v, s.Usable v → t.model[v]? = some (.ofBool (m v))) →
    m.Sat F ∧ m.Meets assumps
  conflict : status = .false → ∀ q ∈ t.conflict, -q ∈ assumps
  implied : status = .false → ∀ m : Model, m.Sat F → ∃ q ∈ t.conflict, q.Holds m
  idle : t.Idle F
  usable : ∀ v, t.Usable v ↔ s.Usable v

/-- All clauses are true once everything that can be decided is. -/
theorem Sound.sat_of_assigned (h : s.Sound F) (hq : s.qhead = s.trail.length)
    (hall : ∀ v, s.Usable v → s.assigns v ≠ .undef) {m : Model} (hm : m.Meets s.trail) :
    m.Sat F := by
  refine (h.means.models m).mpr ⟨fun c hc => ?_, fun q hq' => hm q (level0_subset hq')⟩
  obtain ⟨cr, hcr, rfl⟩ := List.mem_map.mp hc
  have hcr' : cr ∈ s.refs := List.mem_append_left _ hcr
  obtain ⟨a, b, rest, hab, -⟩ := h.inv.exists_watches hcr'
  have ha : a ∈ s.ca cr := by simp [hab]
  have hva : s.value a ≠ .undef := by
    intro hv
    refine hall _ (h.searching.vars cr hcr' a ha) ?_
    exact h.inv.toBase.assigns_undef.mpr (h.inv.toBase.var_ne_of_undef hv)
  -- a watch is true, or else it has been propagated
  cases hv : s.value a with
  | «true» => exact ⟨a, ha, hm a (h.inv.toBase.value_iff.mp hv)⟩
  | «false» =>
      obtain ⟨x, hx, hxt⟩ := h.inv.processed cr hcr' a (by simp [hab])
        (by rw [hq, List.take_length]; exact h.inv.toBase.value_false.mp hv)
      exact ⟨x, hx, hm x hxt⟩
  | undef => exact absurd hv hva

/-- A true literal is true in what the model says. -/
theorem Base.holds_of_assigns (h : s.Base W) (hp : p ∈ s.trail) {m : Model}
    (hm : s.assigns p.var = .ofBool (m p.var)) : p.Holds m := by
  have hv := h.value_iff.mpr hp
  rw [value, hm] at hv
  unfold Lit.Holds
  cases hs : p.sign <;> cases hb : m p.var <;> simp_all [LBool.xor, LBool.ofBool]

theorem Sound.setModel (h : s.Sound F) (model : List LBool) :
    Sound F { s with model := model } where
  inv := { h.inv with wf := h.inv.wf.of_trail rfl rfl }
  searching := { h.searching with }
  means := { h.means with }

theorem Clean.congr_answer (h : s.Clean F) (model : List LBool) (conflict assumps : List Lit)
    (ha : ∀ a ∈ assumps, s.Usable a.var) :
    Clean F { s with model := model, conflict := conflict, assumptions := assumps } where
  inv := { h.inv with wf := h.inv.wf.of_trail rfl rfl }
  searching :=
    { h.searching with
      assumed := fun p hp hr hl _ => absurd (h.inv.toBase.level_eq_zero h.trailLim_eq hp) hl.ne'
      met := fun i a hi => absurd hi (by simp [decisionLevel, h.trailLim_eq])
      assumptions := ha }
  means := { h.means with }
  qhead_eq := h.qhead_eq
  trailLim_eq := h.trailLim_eq

theorem getElem?_model {v : ℕ} (hv : v < s.nVars) :
    ((List.range s.nVars).map s.assigns)[v]? = some (s.assigns v) := by
  simp [hv]

/-- **Solving**: every answer is right, and the solver may be used again. -/
theorem Idle.solve (h : s.Idle F) {rs : List Restart} {assumps : List Lit} {status : LBool}
    (ha : ∀ a ∈ assumps, s.Usable a.var) (hr : s.solve cfg rs assumps = some (status, t)) :
    s.Answer F assumps status t := by
  unfold Core.solve solve_ at hr
  simp only at hr
  split_ifs at hr with hok
  · -- the clauses are known to be contradictory
    obtain ⟨rfl, rfl⟩ := Prod.mk.inj (Option.some.inj hr)
    have hunsat := h.unsat hok
    exact ⟨by simp, by simp, by simp, fun _ m hm => absurd ⟨m, hm⟩ hunsat,
      ⟨fun e => by simp [hok] at e, fun _ => hunsat⟩, fun v => .rfl⟩
  · have hok' : s.ok = true := by simpa using hok
    obtain ⟨⟨st, u⟩, hloop, he⟩ := Option.map_eq_some_iff.mp hr
    obtain ⟨rfl, rfl⟩ := Prod.mk.inj he
    obtain ⟨hverdict, hok_eq, hn, hd, hassumps⟩ := solveLoop_spec
      ((h.clean hok').congr_answer [] [] assumps ha) hok' rfl hloop
    have husable : ∀ v, u.Usable v ↔ s.Usable v := usable_congr hn hd
    have hfix := fixed_cancelUntil (conclude st u) 0
    have husable' : ∀ v, (conclude st u).Usable v ↔ s.Usable v := by
      intro v
      rw [← husable]
      unfold conclude
      split
      · rfl
      · split_ifs <;> rfl
      · rfl
    have hused : ∀ v, ((conclude st u).cancelUntil 0).Usable v ↔ s.Usable v := fun v =>
      (usable_of_fixed hfix v).trans (husable' v)
    have hok'' : u.ok = true := hok_eq.trans hok'
    match st, hverdict with
    | .true, .model hsound hq hall hmet =>
        have hmodel : ((conclude .true u).cancelUntil 0).model =
            (List.range u.nVars).map u.assigns := model_of_fixed hfix
        refine ⟨fun _ v hv => ?_, fun _ m hm => ?_, by simp, by simp,
          ⟨fun _ => (hsound.setModel _).clean hq, fun e => ?_⟩, hused⟩
        · have hv' := (husable v).mpr hv
          rw [hmodel, getElem?_model hv'.1]
          cases hval : u.assigns v with
          | «true» => exact ⟨true, rfl⟩
          | «false» => exact ⟨false, rfl⟩
          | undef => exact absurd hval (hall v hv')
        · have hmeets : m.Meets u.trail := by
            intro q hqt
            have hqu := hsound.searching.trail q hqt
            refine hsound.inv.toBase.holds_of_assigns hqt ?_
            have := hm q.var ((husable _).mp hqu)
            rw [hmodel, getElem?_model hqu.1] at this
            exact Option.some.inj this
          refine ⟨hsound.sat_of_assigned hq hall hmeets, fun a ham => hmeets a (hmet a ?_)⟩
          rw [hassumps]
          exact ham
        · rw [ok_of_fixed hfix] at e
          exact absurd e (by simp [conclude, hok''])
    | .false, .unsat hc hunsat =>
        have hconc : conclude .false u = { u with ok := false } := by simp [conclude, hc]
        rw [hconc] at hfix hused ⊢
        have hconf : (({ u with ok := false } : Core).cancelUntil 0).conflict = [] :=
          (conflict_of_fixed hfix).trans hc
        refine ⟨by simp, by simp, by simp [hconf], fun _ m hm => absurd ⟨m, hm⟩ hunsat,
          ⟨fun e => ?_, fun _ => hunsat⟩, hused⟩
        rw [ok_of_fixed hfix] at e
        cases e
    | .false, .assumptions hsound hq hne hneg himp =>
        have hconc : conclude .false u = u := by simp [conclude, hne]
        rw [hconc] at hfix hused ⊢
        have hconf := conflict_of_fixed hfix
        refine ⟨by simp, by simp, fun _ q hqc => ?_, fun _ m hm => ?_,
          ⟨fun _ => hsound.clean hq, fun e => ?_⟩, hused⟩
        · have := hneg q (hconf ▸ hqc)
          rwa [hassumps] at this
        · rw [hconf]
          exact himp m hm
        · rw [ok_of_fixed hfix, hok''] at e
          cases e
    | .undef, .stopped hclean _ =>
        refine ⟨by simp, by simp, by simp, by simp, ⟨fun _ => ?_, fun e => ?_⟩, hused⟩
        · exact hclean.toSound.clean hclean.qhead_eq
        · rw [ok_of_fixed hfix] at e
          simp [conclude, hok''] at e

/-! ### Whole runs -/

theorem mem_insertVarOrder {d : ℕ → Bool} {heap : List ℕ} {x v : ℕ} :
    v ∈ insertVarOrder d heap x ↔ v ∈ heap ∨ v = x ∧ d x = true := by
  unfold insertVarOrder
  split_ifs with hx
  · rw [List.mem_cons]
    constructor
    · rintro (rfl | hv)
      · exact .inr ⟨rfl, by simpa using hx.2⟩
      · exact .inl hv
    · rintro (hv | ⟨rfl, -⟩)
      · exact .inr hv
      · exact .inl rfl
  · refine ⟨.inl, ?_⟩
    rintro (hv | ⟨rfl, hd⟩)
    · exact hv
    · simpa [hd] using hx

theorem usable_newVar {dvar : Bool} {v : ℕ} :
    (s.newVar dvar).Usable v ↔ s.Usable v ∨ v = s.nVars ∧ dvar = true := by
  unfold Usable newVar
  by_cases e : v = s.nVars
  · subst e
    simp
  · simp only [Function.update_of_ne e, e, false_and, or_false]
    exact and_congr_left fun _ => by omega

theorem Bounded.newVar {dvar : Bool} (h : s.Bounded) (ha : (s.newVar dvar).assigns = s.assigns) :
    (s.newVar dvar).Bounded where
  heap := by
    intro v hv hv'
    rw [ha] at hv'
    refine mem_insertVarOrder.mpr ?_
    rcases usable_newVar.mp hv with hv | ⟨rfl, rfl⟩
    · exact .inl (h.heap v hv hv')
    · exact .inr ⟨rfl, Function.update_self ..⟩
  heap_lt := by
    intro v hv
    rcases mem_insertVarOrder.mp hv with hv | ⟨rfl, -⟩
    · exact (h.heap_lt v hv).trans (Nat.lt_succ_self _)
    · exact Nat.lt_succ_self _
  vars cr hcr q hq := usable_newVar.mpr (.inl (h.vars cr hcr q hq))
  trail q hq := usable_newVar.mpr (.inl (h.trail q hq))
  assumptions a ha := usable_newVar.mpr (.inl (h.assumptions a ha))

/-- A new variable is nowhere yet. -/
theorem Sound.newVar (h : s.Sound F) (dvar : Bool) : (s.newVar dvar).Sound F := by
  have hb := h.inv.toBase
  have hvar : ∀ q ∈ s.trail, q.var ≠ s.nVars := fun q hq => (h.searching.trail q hq).1.ne
  have hcl : ∀ cr ∈ s.refs, ∀ q ∈ (s.ca cr).take 2, (-q).var ≠ s.nVars := fun cr hcr q hq =>
    (h.searching.vars cr hcr q (List.mem_of_mem_take hq)).1.ne
  have hassigns : (s.newVar dvar).assigns = s.assigns :=
    Function.update_eq_self_iff.mpr (hb.assigns_undef.mpr hvar).symm
  have hvardata : ∀ q ∈ s.trail, (s.newVar dvar).vardata q.var = s.vardata q.var := fun q hq =>
    Function.update_of_ne (hvar q hq) ..
  have hlevel : ∀ q ∈ s.trail, (s.newVar dvar).level q.var = s.level q.var := fun q hq =>
    congrArg VarData.level (hvardata q hq)
  have hreason : ∀ q ∈ s.trail, (s.newVar dvar).reason q.var = s.reason q.var := fun q hq =>
    congrArg VarData.reason (hvardata q hq)
  have hwatch : ∀ p, ∀ w ∈ (s.newVar dvar).watches p, w ∈ s.watches p := by
    intro p w hw
    change w ∈ if p.var = s.nVars then [] else s.watches p at hw
    split_ifs at hw with e
    · cases hw
    · exact hw
  refine ⟨?_, ?_, { h.means with }⟩
  · refine
      { h.inv with
        cover := fun cr hcr q hq => ?_
        watch := fun p w hw => h.inv.watch p w (hwatch p w hw)
        blocker := fun p w hw => h.inv.blocker p w (hwatch p w hw)
        live := fun p w hw => h.inv.live p w (hwatch p w hw)
        lt := fun p w hw => h.inv.lt p w (hwatch p w hw)
        nodup := fun p => ?_
        wf := h.inv.wf.of_trail rfl hassigns
        level_eq := fun k p hk => ?_
        reason_eq := fun k p cr hk hr hl => ?_ }
    · obtain ⟨w, hw, e⟩ := h.inv.cover cr hcr q hq
      refine ⟨w, ?_, e⟩
      change w ∈ if (-q).var = s.nVars then [] else s.watches (-q)
      rwa [if_neg (hcl cr hcr q hq)]
    · change ((if p.var = s.nVars then [] else s.watches p).map Watcher.cref).Nodup
      split_ifs
      · exact List.nodup_nil
      · exact h.inv.nodup p
    · rw [hlevel p (List.mem_of_getElem? hk)]
      exact h.inv.level_eq k p hk
    · have hp : p ∈ s.trail := List.mem_of_getElem? hk
      rw [hlevel p hp] at hl
      rw [hreason p hp] at hr
      exact h.inv.reason_eq k p cr hk hr hl
  · have hold := h.searching
    refine
      { hold with
        toBounded := hold.toBounded.newVar hassigns
        decided := fun k p hk hl hr => ?_
        assumed := fun p hp hr hl hle => ?_
        met := fun i a hi ha => ?_ }
    · have hp : p ∈ s.trail := List.mem_of_getElem? hk
      rw [hlevel p hp] at hl
      rw [hreason p hp] at hr
      exact hold.decided k p hk hl hr
    · rw [hlevel p hp] at hl hle
      rw [hreason p hp] at hr
      exact hold.assumed p hp hr hl hle
    · obtain ⟨hat, hle⟩ := hold.met i a hi ha
      exact ⟨hat, (hlevel a hat).trans_le hle⟩

/-- A call that leaves the solver as it is if it has noted a contradiction. -/
theorem Idle.of_call (h : s.Idle F) (hclean : s.ok = true → t.Clean F ∧ t.fixed = s.fixed)
    (hnok : s.ok = false → t = s) : t.Idle F := by
  cases hok : s.ok with
  | true =>
      obtain ⟨hc, hfix⟩ := hclean hok
      refine ⟨fun _ => hc, fun e => ?_⟩
      rw [ok_of_fixed hfix, hok] at e
      cases e
  | false => exact hnok hok ▸ h

theorem Idle.propCheck (h : s.Idle F) {a : LitVec} (ha : ∀ p ∈ a, s.Usable p.var) (k : ℕ) :
    (s.propCheck a k).2.Idle F :=
  h.of_call (fun hok => (h.clean hok).propCheck hok ha k)
    fun hok => congrArg Prod.snd (if_pos hok : s.propCheck a k = (false, s))

theorem Idle.propCheckProp (h : s.Idle F) {a : LitVec} (ha : ∀ p ∈ a, s.Usable p.var) (k : ℕ) :
    (s.propCheckProp a k).2.Idle F :=
  h.of_call (fun hok => (h.clean hok).propCheckProp hok ha k)
    fun hok => congrArg Prod.snd (if_pos hok : s.propCheckProp a k = ((false, []), s))

theorem Idle.propCheckSubtree (h : s.Idle F) {vars : LitVec} (hv : ∀ l ∈ vars, s.Usable l.var)
    (headSize : ℕ) : (s.propCheckSubtree vars headSize).2.Idle F :=
  h.of_call (fun hok => (h.clean hok).propCheckSubtree hok hv headSize)
    fun hok => congrArg Prod.snd (if_pos hok : s.propCheckSubtree vars headSize = (_, s))

/-- The states of a solver after calls of its methods, with the clauses added to it. -/
inductive Reaches : Cnf → Core → Prop where
  | empty : Reaches [] empty
  | newVar {F : Cnf} {s : Core} (dvar : Bool) : Reaches F s → Reaches F (s.newVar dvar)
  | addClause {F : Cnf} {s : Core} {ps : Clause} : Reaches F s → (∀ p ∈ ps, s.Usable p.var) →
      Reaches (F ++ [ps]) (s.addClause_ ps).2
  | simplify {F : Cnf} {s : Core} (cfg : Config) (g : Guess) : Reaches F s →
      Reaches F (simplify cfg g s).2
  | propCheck {F : Cnf} {s : Core} {a : LitVec} (psaving : ℕ) : Reaches F s →
      (∀ p ∈ a, s.Usable p.var) → Reaches F (s.propCheck a psaving).2
  | propCheckProp {F : Cnf} {s : Core} {a : LitVec} (psaving : ℕ) : Reaches F s →
      (∀ p ∈ a, s.Usable p.var) → Reaches F (s.propCheckProp a psaving).2
  | propCheckSubtree {F : Cnf} {s : Core} {vars : LitVec} (headSize : ℕ) : Reaches F s →
      (∀ l ∈ vars, s.Usable l.var) → Reaches F (s.propCheckSubtree vars headSize).2
  | solve {F : Cnf} {s t : Core} {cfg : Config} {rs : List Restart} {assumps : List Lit}
      {status : LBool} : Reaches F s → (∀ a ∈ assumps, s.Usable a.var) →
      s.solve cfg rs assumps = some (status, t) → Reaches F t

theorem not_satisfiable_append {G : Cnf} (h : ¬ Satisfiable F) : ¬ Satisfiable (F ++ G) :=
  fun ⟨m, hm⟩ => h ⟨m, fun c hc => hm c (List.mem_append_left _ hc)⟩

theorem Idle.newVar (h : s.Idle F) (dvar : Bool) : (s.newVar dvar).Idle F where
  clean hok :=
    ⟨(h.clean hok).toSound.newVar dvar, (h.clean hok).qhead_eq, (h.clean hok).trailLim_eq⟩
  unsat hok := h.unsat hok

theorem Idle.addClause_ (h : s.Idle F) {ps : Clause} (hps : ∀ p ∈ ps, s.Usable p.var) :
    (s.addClause_ ps).2.Idle (F ++ [ps]) := by
  cases hok : s.ok with
  | true =>
      have hadds := (h.clean hok).addClause_ hok hps
      exact ⟨hadds.clean, hadds.unsat⟩
  | false =>
      have heq : s.addClause_ ps = (false, s) := if_pos hok
      rw [heq]
      exact ⟨fun e => by simp [hok] at e, fun _ => not_satisfiable_append (h.unsat hok)⟩

theorem Idle.simplify (h : s.Idle F) (cfg : Config) (g : Guess) :
    (Core.simplify cfg g s).2.Idle F := by
  refine h.of_call (fun hok => ?_)
    fun hok => congrArg Prod.snd (if_pos hok : Core.simplify cfg g s = (false, s))
  obtain ⟨t, ht, hclean, ho⟩ := (h.clean hok).simplify hok cfg g
  rw [ht]
  exact ⟨hclean, fixed_of_outline ho⟩

theorem clean_empty : Clean [] empty := by
  have hbase : Base empty.watches empty := by
    refine ⟨⟨List.nodup_nil, ?_, ?_, ?_, ?_, ?_, ?_, ?_, ?_, fun _ => List.nodup_nil⟩,
      ⟨fun p => ?_, List.Pairwise.nil⟩, List.Pairwise.nil, ?_, ?_, ?_, ?_⟩
    all_goals simp [empty, refs, abs, Solver.value, LBool.xor]
  refine ⟨⟨⟨hbase, le_rfl, by simp [empty, refs]⟩, ⟨⟨?_, ?_, ?_, ?_, ?_⟩, ?_, ?_, ?_⟩, ?_, ?_⟩,
    rfl, rfl⟩
  all_goals simp [empty, refs, Usable, Decided, level0, Model.Meets, Satisfies, decisionLevel]

/-- **After any calls** the solver is between calls. -/
theorem Reaches.idle (h : Reaches F s) : s.Idle F := by
  induction h with
  | empty => exact ⟨fun _ => clean_empty, fun e => by cases e⟩
  | newVar dvar _ ih => exact ih.newVar dvar
  | addClause _ hps ih => exact ih.addClause_ hps
  | simplify cfg g _ ih => exact ih.simplify cfg g
  | propCheck k _ ha ih => exact ih.propCheck ha k
  | propCheckProp k _ ha ih => exact ih.propCheckProp ha k
  | propCheckSubtree headSize _ hv ih => exact ih.propCheckSubtree hv headSize
  | solve _ ha hr ih => exact (ih.solve ha hr).idle

/-- A solver with two variables and one clause. -/
def pair : Core := (((empty.newVar true).newVar true).addClause_ [mkLit 0 false, mkLit 1 true]).2

theorem usable_pair {v : ℕ} : pair.Usable v ↔ v = 0 ∨ v = 1 := by
  match v with
  | 0 => exact iff_of_true ⟨by decide, rfl⟩ (.inl rfl)
  | 1 => exact iff_of_true ⟨by decide, rfl⟩ (.inr rfl)
  | v + 2 => exact iff_of_false (fun h => absurd h.1 (by change ¬ v + 2 < 2; omega)) (by omega)

theorem reaches_pair : Reaches [[mkLit 0 false, mkLit 1 true]] pair := by
  refine .addClause (.newVar true (.newVar true .empty)) fun p hp => ?_
  have hvar : p.var = 0 ∨ p.var = 1 := by
    rcases List.mem_pair.mp hp with rfl | rfl
    · exact .inl rfl
    · exact .inr rfl
  exact usable_pair.mpr hvar

/-- **What `prop_check` answers**, in any state the solver can be in. -/
theorem Reaches.propCheck_iff (h : Reaches F s) (hok : s.ok = true) {a : LitVec}
    (ha : ∀ p ∈ a, s.Usable p.var) (k : ℕ) :
    ((s.propCheck a k).1 = true ↔ ¬ Refuted s.db ({p | p ∈ s.trail} ∪ {p | p ∈ a})) ∧
      ((s.propCheck a k).1 = false → ¬ SatisfiableUnder F a) := by
  have hclean := h.idle.clean hok
  obtain ⟨P, hP⟩ := hclean.propCheck_refines ha k
  have hiff := Solver.propCheck_eq_true_iff (P := P)
    (hclean.inv.quiescent hclean.qhead_eq) hok a k
  rw [hP] at hiff
  refine ⟨hiff, fun hfalse ⟨m, hm, hma⟩ => ?_⟩
  have hr : Refuted s.db ({p | p ∈ s.trail} ∪ {p | p ∈ a}) := by
    by_contra hn
    have := hiff.mpr hn
    simp [hfalse] at this
  have h0 : s.level0 = s.trail := by simp [level0, hclean.trailLim_eq]
  refine not_refuted_of_model (valuation_holds m) (hclean.means.sat_db hm) ?_ hr
  rintro q (hq | hq)
  · exact ((hclean.means.models m).mp hm).2 q (h0 ▸ hq)
  · exact hma q hq

theorem propCheck_iff_pair :
    ((pair.propCheck [mkLit 1 false] 0).1 = true ↔
        ¬ Refuted pair.db ({p | p ∈ pair.trail} ∪ {p | p ∈ [mkLit 1 false]})) ∧
      ((pair.propCheck [mkLit 1 false] 0).1 = false →
        ¬ SatisfiableUnder [[mkLit 0 false, mkLit 1 true]] [mkLit 1 false]) :=
  reaches_pair.propCheck_iff rfl
    (fun a ha => usable_pair.mpr (.inr (by rw [List.mem_singleton.mp ha]; rfl))) 0

end Core

end Parsat.Minisat
