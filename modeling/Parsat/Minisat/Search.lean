import Parsat.Minisat.Sound

/-!
# Minisat — the search

`Solver::search()` and `Solver::solve_()`: propagate, learn from a conflict and go back, or else
restart, simplify, drop learnt clauses, and decide, first on the assumptions.

What depends on activities, on random numbers and on the clock is an argument of each round
(`Guess`): the order of the learnt clauses and of the variables in the heap, when to restart,
simplify and reduce, and the sign of a decision.  Everything here holds for all guesses.

* `searchStep_spec`: one round keeps what the state stands for, and comes closer to the end.
-/

namespace Parsat.Minisat

open UnitProp

/-- The options of the solver that are used here. -/
structure Config where
  ccminMode : ℕ
  removeSatisfied : Bool

/-- What the heuristics decide in one round: whether to stop, to simplify and to reduce; the learnt
clauses in the order of their activity, and those below the limit; the place in the heap of a random
decision, the heap in the order of `removeMin`, and the sign of a decision. -/
structure Guess where
  stop : Bool
  simplify : Bool
  reduce : Bool
  rank : List ℕ → List ℕ
  rank_perm : ∀ cs, (rank cs).Perm cs
  weak : ℕ → Bool
  random : Option ℕ
  order : List ℕ → List ℕ
  order_perm : ∀ vs, (order vs).Perm vs
  sign : ℕ → Bool

/-- Everything is simplified and reduced in every round, and nothing is random. -/
def Guess.plain : Guess where
  stop := false
  simplify := true
  reduce := true
  rank cs := cs
  rank_perm _ := .refl _
  weak _ := true
  random := none
  order vs := vs
  order_perm _ := .refl _
  sign _ := false

namespace Core

/-! ### Reducing and simplifying -/

/-- One learnt clause in `reduceDB`, with its place in the list of `2 * half` clauses. -/
def reduceStep (g : Guess) (half : ℕ) (r : Core × List ℕ) (e : ℕ × ℕ) : Core × List ℕ :=
  if 2 < (r.1.ca e.1).length ∧ ¬ r.1.locked e.1 ∧ (e.2 < half ∨ g.weak e.1) then
    (r.1.removeClause e.1, r.2)
  else (r.1, r.2 ++ [e.1])

def reduceDB (s : Core) (g : Guess) : Core :=
  let r := (g.rank s.learnts).zipIdx.foldl (reduceStep g (s.learnts.length / 2)) (s, [])
  r.1.setList true r.2

def rebuildOrderHeap (s : Core) : Core :=
  { s with orderHeap := (List.range s.nVars).filter fun v => s.decision v ∧ s.assigns v = .undef }

def simplify (cfg : Config) (g : Guess) (s : Core) : Bool × Core :=
  if s.ok = false then (false, s)
  else match s.propagate with
    | (some _, t) => (false, { t with ok := false })
    | (none, t) =>
      if g.simplify then
        let u := t.removeSatisfied true
        (true, (if cfg.removeSatisfied then u.removeSatisfied false else u).rebuildOrderHeap)
      else (true, t)

/-! ### Decisions -/

/-- What the loop over the assumptions comes to: all levels of assumptions are there, or one
assumption is next, or false. -/
inductive Assumed where
  | done (s : Core)
  | next (s : Core) (p : Lit)
  | failed (s : Core) (p : Lit)

/-- Perform user provided assumptions. -/
def assume (s : Core) : List Lit → Assumed
  | [] => .done s
  | p :: ps =>
    match s.value p with
    -- dummy decision level
    | .true => s.newDecisionLevel.assume ps
    | .false => .failed s p
    | .undef => .next s p

/-- The condition on the variable at which the loop of `pickBranchLit` stops. -/
def pickable (s : Core) (v : ℕ) : Bool := s.assigns v = .undef ∧ s.decision v

def pickBranchLit (s : Core) (g : Guess) : Option Lit × Core :=
  -- random decision
  match (g.random.bind fun i => s.orderHeap[i]?).filter s.pickable with
  | some v => (some (mkLit v (g.sign v)), s)
  | none =>
    -- activity based decision
    match (g.order s.orderHeap).dropWhile fun v => !s.pickable v with
    | [] => (none, { s with orderHeap := [] })
    | v :: heap => (some (mkLit v (g.sign v)), { s with orderHeap := heap })

/-! ### The loops -/

/-- What one round comes to: another one, an answer, or a failed assertion. -/
inductive Round where
  | next (conflictC : ℕ) (s : Core)
  | done (status : LBool) (s : Core)
  | failed

/-- The round after propagation without a conflict, once it has not stopped there. -/
def decideNext (g : Guess) (conflictC : ℕ) (s : Core) : Round :=
  match s.assume (s.assumptions.drop s.decisionLevel) with
  | .failed t p => .done .false { t with conflict := (t.analyzeFinal (-p) fun _ => .undef).1 }
  | .next t p => .next conflictC (t.newDecisionLevel.uncheckedEnqueue p none)
  | .done t =>
    match t.pickBranchLit g with
    | (none, u) => .done .true u
    | (some p, u) => .next conflictC (u.newDecisionLevel.uncheckedEnqueue p none)

/-- The bound on the conflicts is reached; a negative one never is. -/
def Reached (nofConflicts : ℤ) (conflictC : ℕ) : Prop :=
  0 ≤ nofConflicts ∧ nofConflicts ≤ conflictC

instance (nofConflicts : ℤ) (conflictC : ℕ) : Decidable (Reached nofConflicts conflictC) :=
  inferInstanceAs (Decidable (_ ∧ _))

/-- One round of `search(nof_conflicts)`. -/
def searchStep (cfg : Config) (nofConflicts : ℤ) (g : Guess) (conflictC : ℕ) (s : Core) : Round :=
  match s.propagate with
  | (some confl, t) =>
    if t.decisionLevel = 0 then .done .false t
    else match t.analyze cfg.ccminMode confl fun _ => .undef with
      | none => .failed
      | some (c, bt, _) => .next (conflictC + 1) ((t.cancelUntil bt).learn c)
  | (none, t) =>
    if Reached nofConflicts conflictC ∨ g.stop then .done .undef (t.cancelUntil 0)
    else
      let r := if t.decisionLevel = 0 then simplify cfg g t else (true, t)
      if r.1 = false then .done .false r.2
      else decideNext g conflictC (if g.reduce then r.2.reduceDB g else r.2)

/-- `search`, for at most so many rounds. -/
def searchLoop (cfg : Config) (nofConflicts : ℤ) (gs : ℕ → Guess) :
    ℕ → ℕ → Core → Option (LBool × Core)
  | 0, _, _ => none
  | n + 1, conflictC, s =>
    match searchStep cfg nofConflicts (gs n) conflictC s with
    | .next conflictC' t => searchLoop cfg nofConflicts gs n conflictC' t
    | .done status t => some (status, t)
    | .failed => none

/-- How many levels there can be. -/
def maxLevels (s : Core) : ℕ := s.assumptions.length + s.nVars + 1

/-- More conflicts than a search can have. -/
def maxConflicts (s : Core) : ℕ := (s.nVars + 1) ^ s.maxLevels

/-- The conflicts after which a search is over at last. -/
def limit (nofConflicts : ℤ) (s : Core) : ℕ :=
  if 0 ≤ nofConflicts then nofConflicts.toNat else s.maxConflicts

/-- Rounds enough: between two conflicts there are at most as many decisions as variables, and
conflicts one after the other go back a level each. -/
def searchFuel (nofConflicts : ℤ) (s : Core) : ℕ :=
  limit nofConflicts s * (s.nVars + 1) + 2 * s.nVars + s.assumptions.length + 2

def search (cfg : Config) (nofConflicts : ℤ) (gs : ℕ → Guess) (s : Core) : Option (LBool × Core) :=
  searchLoop cfg nofConflicts gs (searchFuel nofConflicts s) 0 s

/-! ### What the rounds leave as it is -/

variable {s t u : Core} {W : Lit → List Watcher} {p q a : Lit} {cr k n : ℕ} {c : Clause} {F : Cnf}
  {cfg : Config} {g : Guess}

/-- What `search` does not change. -/
def fixed (s : Core) : Core :=
  { empty with
    ok := s.ok, nVars := s.nVars, decision := s.decision, assumptions := s.assumptions
    model := s.model, conflict := s.conflict }

/-- With what belongs to the trail. -/
def outline (s : Core) : Core :=
  { s.fixed with trail := s.trail, qhead := s.qhead, trailLim := s.trailLim }

theorem fixed_of_outline (h : t.outline = s.outline) : t.fixed = s.fixed :=
  (congrArg fixed h : t.outline.fixed = s.outline.fixed)

theorem trail_of_outline (h : t.outline = s.outline) : t.trail = s.trail :=
  (congrArg trail h : t.outline.trail = s.outline.trail)

theorem qhead_of_outline (h : t.outline = s.outline) : t.qhead = s.qhead :=
  (congrArg qhead h : t.outline.qhead = s.outline.qhead)

theorem trailLim_of_outline (h : t.outline = s.outline) : t.trailLim = s.trailLim :=
  (congrArg trailLim h : t.outline.trailLim = s.outline.trailLim)

theorem assumptions_of_fixed (h : t.fixed = s.fixed) : t.assumptions = s.assumptions :=
  (congrArg assumptions h : t.fixed.assumptions = s.fixed.assumptions)

theorem nVars_of_fixed (h : t.fixed = s.fixed) : t.nVars = s.nVars :=
  (congrArg nVars h : t.fixed.nVars = s.fixed.nVars)

theorem conflict_of_fixed (h : t.fixed = s.fixed) : t.conflict = s.conflict :=
  (congrArg conflict h : t.fixed.conflict = s.fixed.conflict)

theorem ok_of_fixed (h : t.fixed = s.fixed) : t.ok = s.ok :=
  (congrArg ok h : t.fixed.ok = s.fixed.ok)

theorem Extends.fixed_eq (h : s.Extends t) : t.fixed = s.fixed :=
  (congrArg fixed h.frame_eq : t.frame.fixed = s.frame.fixed)

theorem fixed_cancelUntil (s : Core) (level : ℕ) : (s.cancelUntil level).fixed = s.fixed := by
  unfold cancelUntil
  split_ifs <;> rfl

theorem fixed_learn (s : Core) (c : Clause) : (s.learn c).fixed = s.fixed := by
  unfold learn
  split
  · rfl
  · rfl
  · rw [pushClause_eq]
    rfl

theorem outline_removeClause (s : Core) (cr : ℕ) : (s.removeClause cr).outline = s.outline := by
  rw [removeClause_eq]
  rfl

theorem outline_trim (s : Core) (cr : ℕ) : (s.trim cr).outline = s.outline := by
  unfold trim
  split <;> rfl

theorem outline_foldl {α : Type*} {f : Core × List ℕ → α → Core × List ℕ}
    (hf : ∀ r x, (f r x).1.outline = r.1.outline) (xs : List α) (r : Core × List ℕ) :
    (xs.foldl f r).1.outline = r.1.outline := by
  induction xs generalizing r with
  | nil => rfl
  | cons x xs ih => exact (ih _).trans (hf r x)

theorem outline_removeSatisfied (s : Core) (learnt : Bool) :
    (s.removeSatisfied learnt).outline = s.outline := by
  refine outline_foldl (fun r x => ?_) _ (s, [])
  unfold removeSatisfiedStep
  split_ifs
  · exact outline_removeClause ..
  · exact outline_trim ..

theorem outline_reduceDB (s : Core) (g : Guess) : (s.reduceDB g).outline = s.outline := by
  refine outline_foldl (fun r x => ?_) _ (s, [])
  unfold reduceStep
  split_ifs
  · exact outline_removeClause ..
  · rfl

/-! ### Reducing and simplifying -/

/-- A clause that is not locked is no reason above level 0. -/
theorem Base.level_of_not_locked (h : s.Base W) (hl : s.locked cr = false) (hp : p ∈ s.trail)
    (hr : s.reason p.var = some cr) : s.level p.var = 0 := by
  by_contra hpos
  obtain ⟨k, hk⟩ := trail_pos hp
  obtain ⟨-, rest, hc, -⟩ := h.reason_eq k p cr hk hr (Nat.pos_of_ne_zero hpos)
  simp [locked, hc, h.value_iff.mpr hp, hr] at hl

/-- **The loop of `reduceDB`**, behind the clauses `pre`. -/
theorem Sound.reduce_foldl {half : ℕ} {es : List (ℕ × ℕ)} (pre : List ℕ)
    (h : (t.setList true (pre ++ es.map Prod.fst)).Sound F) :
    ((es.foldl (reduceStep g half) (t, pre)).1.setList true
      (es.foldl (reduceStep g half) (t, pre)).2).Sound F := by
  induction es generalizing t pre with
  | nil => simpa using h
  | cons e es ih =>
      rw [List.foldl_cons]
      rw [List.map_cons] at h
      have hb : (t.setList true (pre ++ e.1 :: es.map Prod.fst)).Base t.watches := h.inv.toBase
      unfold reduceStep
      split_ifs with hdrop
      · refine ih _ (h.dropRef (fun p hp hr => ?_) (by simp))
        have hl : t.locked e.1 = false := by simpa using hdrop.2.1
        exact hb.level_of_not_locked hl hp hr
      · rw [List.append_cons] at h
        exact ih _ h

/-- **Reducing** the learnt clauses. -/
theorem Sound.reduceDB (h : s.Sound F) (g : Guess) : (s.reduceDB g).Sound F := by
  refine Sound.reduce_foldl [] ?_
  rw [List.nil_append, List.zipIdx_map_fst]
  have hs : s.setList true s.learnts = s := rfl
  exact h.of_perm hs (g.rank_perm s.learnts)

theorem Sound.setHeap (h : s.Sound F) {heap : List ℕ}
    (hheap : ∀ v, s.Usable v → s.assigns v = .undef → v ∈ heap) (hlt : ∀ v ∈ heap, v < s.nVars) :
    Sound F { s with orderHeap := heap } where
  inv := { h.inv with wf := h.inv.wf.of_trail rfl rfl }
  searching := { h.searching with heap := hheap, heap_lt := hlt }
  means := { h.means with }

/-- With nothing in the queue, propagation does nothing. -/
theorem propagate_eq (hq : s.qhead = s.trail.length) : s.propagate = (none, s) := by
  have hnone : s.trail[s.qhead]? = none := by simp [hq]
  unfold propagate
  cases s.trail.length - s.qhead + s.db.flatten.length with
  | zero => rfl
  | succ n => rw [propagateLoop_succ, hnone]

/-- **Simplifying** at level 0. -/
theorem Clean.simplify (h : s.Clean F) (hok : s.ok = true) (cfg : Config) (g : Guess) :
    ∃ t, simplify cfg g s = (true, t) ∧ t.Clean F ∧ t.outline = s.outline := by
  unfold Core.simplify
  rw [if_neg (by simp [hok]), propagate_eq h.qhead_eq]
  simp only
  split_ifs with hsimp hrem
  · have h₁ := h.removeSatisfied true
    have h₂ := h₁.removeSatisfied false
    refine ⟨_, rfl, ⟨h₂.toSound.setHeap ?_ ?_, h₂.qhead_eq, h₂.trailLim_eq⟩,
      (outline_removeSatisfied ..).trans (outline_removeSatisfied ..)⟩
    · intro v hv hu
      exact List.mem_filter.mpr ⟨List.mem_range.mpr hv.1, by simp [hv.2, hu]⟩
    · exact fun v hv => List.mem_range.mp (List.mem_filter.mp hv).1
  · have h₁ := h.removeSatisfied true
    refine ⟨_, rfl, ⟨h₁.toSound.setHeap ?_ ?_, h₁.qhead_eq, h₁.trailLim_eq⟩,
      outline_removeSatisfied ..⟩
    · intro v hv hu
      exact List.mem_filter.mpr ⟨List.mem_range.mpr hv.1, by simp [hv.2, hu]⟩
    · exact fun v hv => List.mem_range.mp (List.mem_filter.mp hv).1
  · exact ⟨s, rfl, h, rfl⟩

/-! ### Decision levels -/

/-- At most the assumptions have levels without a literal of their own. -/
structure Levels (s : Core) : Prop where
  start : ∀ i n, s.trailLim[i]? = some n → i ≤ s.assumptions.length + n
  length_le : s.decisionLevel ≤ s.assumptions.length + s.trail.length

theorem Levels.mono (h : s.Levels) (hlim : t.trailLim = s.trailLim)
    (ha : t.assumptions = s.assumptions) (htrail : s.trail.length ≤ t.trail.length) : t.Levels := by
  refine ⟨fun i n hi => ?_, ?_⟩
  · rw [hlim] at hi
    rw [ha]
    exact h.start i n hi
  · rw [decisionLevel, hlim, ha]
    exact h.length_le.trans (Nat.add_le_add_left htrail _)

theorem Levels.of_outline (h : s.Levels) (ho : t.outline = s.outline) : t.Levels :=
  h.mono (trailLim_of_outline ho) (assumptions_of_fixed (fixed_of_outline ho))
    (trail_of_outline ho ▸ le_rfl)

theorem Levels.cancelUntil (h : s.Levels) (hb : s.Base W) (level : ℕ) :
    (s.cancelUntil level).Levels := by
  by_cases hl : level < s.decisionLevel
  · have hlim := List.getElem?_eq_getElem hl
    rw [cancelUntil_eq hlim]
    refine ⟨fun i n hi => h.start i n ?_, ?_⟩
    · have hlt := (List.getElem?_eq_some_iff.mp hi).1
      simp only [List.length_take] at hlt
      rwa [List.getElem?_take_of_lt (by omega)] at hi
    · have hle := hb.lim_le _ (List.mem_of_getElem? hlim)
      have := h.start level _ hlim
      simp only [decisionLevel, List.length_take] at hl ⊢
      omega
  · rwa [Core.cancelUntil, if_neg hl]

theorem Levels.newDecisionLevel (h : s.Levels) (hlt : s.decisionLevel < s.assumptions.length) :
    s.newDecisionLevel.Levels := by
  refine ⟨fun i n hi => ?_, ?_⟩
  · rcases lt_or_ge i s.trailLim.length with hil | hil
    · rw [Core.newDecisionLevel, List.getElem?_append_left hil] at hi
      exact h.start i n hi
    · have := (List.getElem?_eq_some_iff.mp hi).1
      simp only [Core.newDecisionLevel, List.length_append, List.length_singleton] at this
      change i ≤ s.assumptions.length + n
      simp only [decisionLevel] at hlt
      omega
  · simp only [decisionLevel, Core.newDecisionLevel, List.length_append,
      List.length_singleton] at hlt ⊢
    omega

theorem Levels.decide (h : s.Levels) (p : Lit) :
    (s.newDecisionLevel.uncheckedEnqueue p none).Levels := by
  have hle := h.length_le
  refine ⟨fun i n hi => ?_, ?_⟩
  · change (s.trailLim ++ [s.trail.length])[i]? = some n at hi
    change i ≤ s.assumptions.length + n
    rcases lt_or_ge i s.trailLim.length with hil | hil
    · rw [List.getElem?_append_left hil] at hi
      exact h.start i n hi
    · rw [List.getElem?_append_right hil] at hi
      obtain ⟨hz, he⟩ := List.getElem?_eq_some_iff.mp hi
      simp only [List.length_singleton, Nat.lt_one_iff] at hz
      have hn : s.trail.length = n := by simpa [hz] using he
      simp only [decisionLevel] at hle
      omega
  · simp only [decisionLevel, Core.newDecisionLevel, Core.uncheckedEnqueue, List.length_append,
      List.length_singleton] at hle ⊢
    omega

theorem Bounded.trail_le (h : s.Bounded) (hb : s.Base W) : s.trail.length ≤ s.nVars := by
  have hn : (s.trail.map Lit.var).Nodup := by
    rw [List.Nodup, List.pairwise_map]
    exact hb.wf.distinct
  have hsub : s.trail.map Lit.var ⊆ List.range s.nVars := by
    intro v hv
    obtain ⟨q, hq, rfl⟩ := List.mem_map.mp hv
    exact List.mem_range.mpr (h.trail q hq).1
  simpa using (List.subperm_of_subset hn hsub).length_le

/-! ### One round -/

/-- What a round works with: everything is propagated. -/
structure Settled (F : Cnf) (s : Core) : Prop extends Sound F s where
  levels : s.Levels
  qhead_eq : s.qhead = s.trail.length

/-- How far the search is from its end: conflicts up to the bound with the decisions between them,
and then levels. -/
def distance (limit conflictC : ℕ) (s : Core) : ℕ :=
  if conflictC < limit then
    (limit - conflictC) * (s.nVars + 1) + (s.nVars - s.trail.length) +
      s.assumptions.length + s.nVars + 1
  else s.decisionLevel

/-- What an answer of `search` says. -/
inductive Verdict (F : Cnf) (s : Core) : LBool → Prop where
  | stopped : s.Clean F → s.conflict = [] → Verdict F s .undef
  | model : s.Sound F → s.qhead = s.trail.length → (∀ v, s.Usable v → s.assigns v ≠ .undef) →
      (∀ a ∈ s.assumptions, a ∈ s.trail) → Verdict F s .true
  | unsat : s.conflict = [] → ¬ Satisfiable F → Verdict F s .false
  | assumptions : s.Sound F → s.qhead = s.trail.length → s.conflict ≠ [] →
      (∀ q ∈ s.conflict, -q ∈ s.assumptions) →
      (∀ m : Model, m.Sat F → ∃ q ∈ s.conflict, q.Holds m) → Verdict F s .false

/-- What a round has to achieve from `s`. -/
def Round.Good (F : Cnf) (limit conflictC : ℕ) (s : Core) : Round → Prop
  | .next conflictC' t => t.Sound F ∧ t.Levels ∧ t.fixed = s.fixed ∧
      distance limit conflictC' t < distance limit conflictC s
  | .done status t => Verdict F t status ∧ t.ok = s.ok ∧ t.nVars = s.nVars ∧
      t.decision = s.decision ∧ t.assumptions = s.assumptions
  | .failed => False

theorem drop_eq_cons {α : Type*} {l : List α} {i : ℕ} {x : α} {xs : List α}
    (h : l.drop i = x :: xs) : l[i]? = some x ∧ l.drop (i + 1) = xs := by
  have hlt : i < l.length := by
    by_contra hge
    rw [List.drop_eq_nil_of_le (not_lt.mp hge)] at h
    cases h
  rw [List.drop_eq_getElem_cons hlt] at h
  obtain ⟨h₁, h₂⟩ := List.cons.inj h
  exact ⟨h₁ ▸ List.getElem?_eq_getElem hlt, h₂⟩

/-- What the loop over the assumptions leaves. -/
def Assumed.Good (F : Cnf) (s : Core) : Assumed → Prop
  | .done t => t.Settled F ∧ t.fixed = s.fixed ∧ t.trail = s.trail ∧
      t.assumptions.length ≤ t.decisionLevel
  | .next t p => t.Settled F ∧ t.fixed = s.fixed ∧ t.trail = s.trail ∧
      t.assumptions[t.decisionLevel]? = some p ∧ t.value p = .undef
  | .failed t p => t.Settled F ∧ t.fixed = s.fixed ∧ t.trail = s.trail ∧
      t.assumptions[t.decisionLevel]? = some p ∧ t.value p = .false

theorem Settled.assume {ps : List Lit} (h : s.Settled F)
    (hps : s.assumptions.drop s.decisionLevel = ps) : (s.assume ps).Good F s := by
  induction ps generalizing s with
  | nil =>
      refine ⟨h, rfl, rfl, ?_⟩
      simpa using hps
  | cons p ps ih =>
      obtain ⟨hget, hdrop⟩ := drop_eq_cons hps
      have hlt := (List.getElem?_eq_some_iff.mp hget).1
      rw [Core.assume]
      cases hv : s.value p with
      | «true» =>
          have hp := h.inv.toBase.value_iff.mp hv
          have hsound := h.toSound.dummy h.qhead_eq fun a ha => by
            rw [hget] at ha
            exact Option.some.inj ha ▸ hp
          have hset : s.newDecisionLevel.Settled F :=
            ⟨hsound, h.levels.newDecisionLevel hlt, h.qhead_eq⟩
          have hlen : s.newDecisionLevel.decisionLevel = s.decisionLevel + 1 := by
            simp [decisionLevel, Core.newDecisionLevel]
          have hnext := ih (s := s.newDecisionLevel) hset (by rw [hlen]; exact hdrop)
          exact hnext
      | «false» => exact ⟨h, rfl, rfl, hget, hv⟩
      | undef => exact ⟨h, rfl, rfl, hget, hv⟩

/-- **A decision** keeps what the state stands for, and the trail grows. -/
theorem Settled.decide (h : s.Settled F) (heap : List ℕ) {conflictC limit : ℕ}
    (hc : conflictC < limit) (hp : s.value p = .undef) (hu : s.Usable p.var)
    (ha : ∀ a, s.assumptions[s.decisionLevel]? = some a → a = p)
    (hheap : ∀ v, s.Usable v → s.assigns v = .undef → v ≠ p.var → v ∈ heap)
    (hlt : ∀ v ∈ heap, v < s.nVars) :
    let t : Core := { s with orderHeap := heap }
    (t.newDecisionLevel.uncheckedEnqueue p none).Sound F ∧
      (t.newDecisionLevel.uncheckedEnqueue p none).Levels ∧
      distance limit conflictC (t.newDecisionLevel.uncheckedEnqueue p none) <
        distance limit conflictC s := by
  have hsound := h.toSound.decide h.qhead_eq hp hu ha
  have hlen := hsound.searching.toBounded.trail_le hsound.inv.toBase
  refine ⟨hsound.setHeap (fun v hv hv' => ?_) hlt, (h.levels.decide p).mono rfl rfl le_rfl, ?_⟩
  · -- the decision variable is assigned now
    have hne : v ≠ p.var := by
      rintro rfl
      simp only [Core.uncheckedEnqueue, Function.update_self] at hv'
      cases hsg : p.sign <;> simp [hsg, LBool.ofBool] at hv'
    exact hheap v hv ((Function.update_of_ne hne ..).symm.trans hv') hne
  · have hlen' : s.trail.length + 1 ≤ s.nVars := by
      simpa [Core.uncheckedEnqueue, newDecisionLevel] using hlen
    simp only [distance, if_pos hc, Core.uncheckedEnqueue, newDecisionLevel, List.length_append,
      List.length_singleton]
    omega

theorem pickable_iff {v : ℕ} :
    s.pickable v = true ↔ s.assigns v = .undef ∧ s.decision v = true := by
  simp [pickable]

theorem value_mkLit {v : ℕ} {b : Bool} (h : s.assigns v = .undef) :
    s.value (mkLit v b) = .undef := by
  simp [value, h, LBool.xor]

/-- What `pickBranchLit` does: it takes an unassigned variable out of the heap, if there is one. -/
theorem pickBranchLit_spec (h : s.Bounded) (g : Guess) :
    ((s.pickBranchLit g).1 = none ∧ (s.pickBranchLit g).2 = { s with orderHeap := [] } ∧
      ∀ v, s.Usable v → s.assigns v ≠ .undef) ∨
    ∃ p heap, s.pickBranchLit g = (some p, { s with orderHeap := heap }) ∧
      s.value p = .undef ∧ s.Usable p.var ∧
      (∀ v, s.Usable v → s.assigns v = .undef → v ≠ p.var → v ∈ heap) ∧
      ∀ v ∈ heap, v < s.nVars := by
  have hmem : ∀ v, v ∈ g.order s.orderHeap ↔ v ∈ s.orderHeap := fun v =>
    (g.order_perm s.orderHeap).mem_iff
  unfold pickBranchLit
  split
  · rename_i v hv
    obtain ⟨hr, hpick⟩ := Option.filter_eq_some_iff.mp hv
    obtain ⟨i, -, hi⟩ := Option.bind_eq_some_iff.mp hr
    obtain ⟨hu, hd⟩ := pickable_iff.mp hpick
    exact .inr ⟨_, s.orderHeap, rfl, value_mkLit hu, ⟨h.heap_lt v (List.mem_of_getElem? hi), hd⟩,
      fun w hw hw' _ => h.heap w hw hw', h.heap_lt⟩
  · have hsplit := List.takeWhile_append_dropWhile (p := fun v => !s.pickable v)
      (l := g.order s.orderHeap)
    have htake : ∀ v ∈ (g.order s.orderHeap).takeWhile fun v => !s.pickable v,
        s.pickable v = false := fun v hv => by
      simpa using List.all_eq_true.mp List.all_takeWhile v hv
    have hnot : ∀ v, s.Usable v → s.assigns v = .undef →
        v ∈ (g.order s.orderHeap).dropWhile fun v => !s.pickable v := by
      intro v hv hu
      have hv' := (hmem v).mpr (h.heap v hv hu)
      rw [← hsplit, List.mem_append] at hv'
      refine hv'.resolve_left fun ht => ?_
      exact absurd (htake v ht) (by simp [pickable, hu, hv.2])
    split
    · rename_i hdrop
      refine .inl ⟨rfl, rfl, fun v hv hu => ?_⟩
      have := hnot v hv hu
      rw [hdrop] at this
      cases this
    · rename_i v heap hdrop
      have hsub : ∀ w ∈ v :: heap, w ∈ s.orderHeap := fun w hw => by
        exact (hmem w).mp ((List.dropWhile_sublist _).subset (hdrop ▸ hw))
      have hpick : s.pickable v = true := by
        have := List.head?_dropWhile_not (fun v => !s.pickable v) (g.order s.orderHeap)
        rw [hdrop] at this
        simpa using this
      obtain ⟨hu, hd⟩ := pickable_iff.mp hpick
      refine .inr ⟨_, heap, rfl, value_mkLit hu, ⟨h.heap_lt v (hsub v List.mem_cons_self), hd⟩,
        fun w hw hw' hne => ?_, fun w hw => h.heap_lt w (hsub w (List.mem_cons_of_mem _ hw))⟩
      have := hnot w hw hw'
      rw [hdrop] at this
      exact (List.mem_cons.mp this).resolve_left hne

/-- **The final conflict** is a clause of negated assumptions that follows. -/
theorem Settled.final (h : s.Settled F) (hp : s.assumptions[s.decisionLevel]? = some p)
    (hv : s.value p = .false) :
    Verdict F { s with conflict := (s.analyzeFinal (-p) fun _ => .undef).1 } .false := by
  have hb := h.inv.toBase
  have hlt := (List.getElem?_eq_some_iff.mp hp).1
  obtain ⟨-, hmem, hout, hder⟩ := analyzeFinal_spec hb (hb.value_false.mp hv)
  set out := (s.analyzeFinal (-p) fun _ => .undef).1
  refine .assumptions ⟨?_, ?_, ?_⟩ h.qhead_eq (List.ne_nil_of_mem hmem) ?_ ?_
  · exact { h.inv with wf := h.inv.wf.of_trail rfl rfl }
  · exact { h.searching with }
  · exact { h.means with }
  · intro q hq
    rcases hout q hq with rfl | ⟨hqt, hr, hl⟩
    · rw [neg_neg]
      exact List.mem_of_getElem? hp
    · have hle := hb.level_le hqt
      exact h.searching.assumed (-q) hqt hr hl (by omega)
  · intro m hm
    by_contra hn
    have hall : ∀ q ∈ out, ¬ q.Holds m := fun q hq hqm => hn ⟨q, hq, hqm⟩
    refine hall _ hmem (h.means.holds hm (fun x hx => ?_) hder)
    by_contra hx'
    exact hall (-x) hx ((Lit.holds_neg m x).mpr hx')

/-- The second half of a round. -/
theorem Settled.decideNext (h : s.Settled F) {conflictC limit : ℕ}
    (hc : conflictC < limit) (g : Guess) :
    (decideNext g conflictC s).Good F limit conflictC s := by
  have hgood := h.assume rfl
  unfold Core.decideNext
  -- the distance counts the trail alone
  have hdist : ∀ t : Core, t.fixed = s.fixed → t.trail = s.trail →
      distance limit conflictC t = distance limit conflictC s := by
    intro t hf ht
    simp only [distance, if_pos hc, nVars_of_fixed hf, assumptions_of_fixed hf, ht]
  cases ha : s.assume (s.assumptions.drop s.decisionLevel) with
  | failed t p =>
      rw [ha] at hgood
      obtain ⟨ht, hf, -, hget, hv⟩ := hgood
      exact ⟨ht.final hget hv, (ok_of_fixed hf : t.ok = s.ok),
        (nVars_of_fixed hf : t.nVars = s.nVars),
        (congrArg decision hf : t.fixed.decision = s.fixed.decision),
        (assumptions_of_fixed hf : t.assumptions = s.assumptions)⟩
  | next t p =>
      rw [ha] at hgood
      obtain ⟨ht, hf, htr, hget, hv⟩ := hgood
      obtain ⟨hsound, hlevels, hlt⟩ := ht.decide t.orderHeap hc hv
        (ht.searching.assumptions p (List.mem_of_getElem? hget))
        (fun a ha => Option.some.inj (ha.symm.trans hget))
        (fun v hv hv' _ => ht.searching.heap v hv hv') ht.searching.heap_lt
      exact ⟨hsound, hlevels, hf, hdist t hf htr ▸ hlt⟩
  | done t =>
      rw [ha] at hgood
      obtain ⟨ht, hf, htr, hlen⟩ := hgood
      simp only
      rcases pickBranchLit_spec ht.searching.toBounded g with ⟨hnone, hu, hall⟩ |
        ⟨p, heap, hpick, hv, huse, hheap, hlt⟩
      · rcases hp : t.pickBranchLit g with ⟨_ | p, u⟩
        case none =>
            rw [hp] at hu
            obtain rfl : u = { t with orderHeap := [] } := hu
            refine ⟨.model (ht.toSound.setHeap (fun v hv hv' => absurd hv' (hall v hv)) (by simp))
              ht.qhead_eq hall fun a ha => ?_, ok_of_fixed hf, nVars_of_fixed hf,
              (congrArg decision hf : t.fixed.decision = s.fixed.decision),
              assumptions_of_fixed hf⟩
            obtain ⟨i, hi⟩ := List.mem_iff_getElem?.mp ha
            have := (List.getElem?_eq_some_iff.mp hi).1
            exact (ht.searching.met i a (lt_of_lt_of_le this hlen) hi).1
        · simp [hp] at hnone
      · rw [hpick]
        obtain ⟨hsound, hlevels, hdec⟩ := ht.decide heap hc hv huse
          (fun a ha => by
            have := (List.getElem?_eq_some_iff.mp ha).1
            omega) hheap hlt
        exact ⟨hsound, hlevels, hf, hdist t hf htr ▸ hdec⟩

theorem decisionLevel_cancelUntil {level : ℕ} (hl : level ≤ s.decisionLevel) :
    (s.cancelUntil level).decisionLevel = level := by
  unfold cancelUntil
  split_ifs with hlt
  · simp only [decisionLevel, List.length_take]
    exact min_eq_left hl
  · omega

theorem trailLim_learn (s : Core) (c : Clause) : (s.learn c).trailLim = s.trailLim := by
  unfold learn
  split
  · rfl
  · rfl
  · rw [pushClause_eq]
    rfl

theorem length_trail_learn (s : Core) (c : Clause) : s.trail.length ≤ (s.learn c).trail.length := by
  unfold learn
  split
  · exact le_rfl
  · simp [uncheckedEnqueue]
  · rw [pushClause_eq]
    simp [uncheckedEnqueue]

/-- Back on level 0, everything is propagated. -/
theorem Sound.clean (h : s.Sound F) (hq : s.qhead = s.trail.length) :
    (s.cancelUntil 0).Clean F := by
  refine ⟨h.cancelUntil 0, ?_, ?_⟩
  · unfold Core.cancelUntil
    split_ifs with hl
    · have hlim := List.getElem?_eq_getElem hl
      have hle := h.inv.lim_le _ (List.mem_of_getElem? hlim)
      simp only [List.getD_eq_getElem?_getD, hlim, Option.getD_some, List.length_take]
      omega
    · exact hq
  · have := decisionLevel_cancelUntil (s := s) (Nat.zero_le _)
    exact List.length_eq_zero_iff.mp this

/-- A conflict brings the end closer. -/
theorem distance_conflict {limit conflictC : ℕ} (hlen : t.trail.length ≤ t.nVars)
    (hlevel : t.decisionLevel ≤ t.assumptions.length + t.trail.length)
    (hlt : t.decisionLevel < s.decisionLevel) (hn : t.nVars = s.nVars)
    (ha : t.assumptions = s.assumptions) :
    distance limit (conflictC + 1) t < distance limit conflictC s := by
  have hstep : conflictC < limit → (limit - conflictC) * (s.nVars + 1) =
      (limit - (conflictC + 1)) * (s.nVars + 1) + (s.nVars + 1) := by
    intro hc
    rw [← Nat.succ_mul]
    congr 1
    omega
  unfold distance
  rw [hn] at hlen ⊢
  rw [ha] at hlevel ⊢
  split_ifs with h₁ h₂ h₂
  · have := hstep h₂
    omega
  · omega
  · have := hstep h₂
    omega
  · exact hlt

/-- Simplifying on level 0 finds no contradiction, and reducing keeps the trail. -/
theorem Settled.tidy (h : s.Settled F) (hok : s.ok = true) (cfg : Config) (g : Guess) :
    ∃ u, (if s.decisionLevel = 0 then simplify cfg g s else (true, s)) = (true, u) ∧
      (if g.reduce then u.reduceDB g else u).Settled F ∧
      (if g.reduce then u.reduceDB g else u).outline = s.outline := by
  obtain ⟨u, hu, husound, huo⟩ : ∃ u, (if s.decisionLevel = 0 then simplify cfg g s
      else (true, s)) = (true, u) ∧ u.Sound F ∧ u.outline = s.outline := by
    by_cases hdl : s.decisionLevel = 0
    · have hclean : s.Clean F := ⟨h.toSound, h.qhead_eq, List.length_eq_zero_iff.mp hdl⟩
      obtain ⟨u, hu, huc, huo⟩ := hclean.simplify hok cfg g
      exact ⟨u, by rw [if_pos hdl, hu], huc.toSound, huo⟩
    · exact ⟨s, by rw [if_neg hdl], h.toSound, rfl⟩
  obtain ⟨hvsound, hvo⟩ : (if g.reduce then u.reduceDB g else u).Sound F ∧
      (if g.reduce then u.reduceDB g else u).outline = s.outline := by
    split_ifs
    · exact ⟨husound.reduceDB g, (outline_reduceDB ..).trans huo⟩
    · exact ⟨husound, huo⟩
  refine ⟨u, hu, ⟨hvsound, h.levels.of_outline hvo, ?_⟩, hvo⟩
  rw [qhead_of_outline hvo, trail_of_outline hvo, h.qhead_eq]

/-- **One round of `search`.** -/
theorem searchStep_spec (h : s.Sound F) (hlevels : s.Levels) (hok : s.ok = true)
    (hconfl : s.conflict = []) (cfg : Config) (nofConflicts : ℤ) (g : Guess)
    {limit conflictC : ℕ} (hlimit : ¬ Reached nofConflicts conflictC → conflictC < limit) :
    (searchStep cfg nofConflicts g conflictC s).Good F limit conflictC s := by
  obtain ⟨hnone, hsome⟩ := h.propagate
  obtain ⟨hext, hbase, hq, -, -⟩ := h.inv.propagate
  have hfix := hext.fixed_eq
  have hlevels' : s.propagate.2.Levels := by
    refine hlevels.mono hext.trailLim_eq (assumptions_of_fixed hfix) ?_
    obtain ⟨ext, he⟩ := hext.trail_eq
    simp [he]
  have hdist : distance limit conflictC s.propagate.2 ≤
      distance limit conflictC s := by
    obtain ⟨ext, he⟩ := hext.trail_eq
    simp only [distance, nVars_of_fixed hfix, assumptions_of_fixed hfix, decisionLevel,
      hext.trailLim_eq, he, List.length_append]
    split_ifs <;> omega
  unfold searchStep
  rcases hr : s.propagate with ⟨_ | cr, t⟩
  case some =>
      rw [hr] at hsome hfix hlevels' hdist
      have hconf := hsome cr rfl
      simp only
      split_ifs with hdl
      · exact ⟨.unsat ((conflict_of_fixed hfix).trans hconfl)
          (hconf.unsat (List.length_eq_zero_iff.mp hdl)), ok_of_fixed hfix, nVars_of_fixed hfix,
          (congrArg decision hfix : t.fixed.decision = s.fixed.decision),
          assumptions_of_fixed hfix⟩
      · obtain ⟨c, bt, hana, hL⟩ := analyze_spec hconf.base hconf.searching.decided
          (Nat.pos_of_ne_zero hdl) cfg.ccminMode hconf.mem hconf.false
        simp only [hana]
        have hsound := hconf.learn hL
        have hfix' : ((t.cancelUntil bt).learn c).fixed = t.fixed :=
          (fixed_learn ..).trans (fixed_cancelUntil ..)
        have hlev : ((t.cancelUntil bt).learn c).Levels :=
          (hlevels'.cancelUntil hconf.base bt).mono (trailLim_learn ..)
            (assumptions_of_fixed (fixed_learn ..)) (length_trail_learn ..)
        have hdl' : ((t.cancelUntil bt).learn c).decisionLevel = bt := by
          rw [decisionLevel, trailLim_learn]
          exact decisionLevel_cancelUntil hL.lt.le
        have hlt : ((t.cancelUntil bt).learn c).decisionLevel < t.decisionLevel := by
          rw [hdl']
          exact hL.lt
        refine ⟨hsound, hlev, hfix'.trans hfix, lt_of_lt_of_le ?_ hdist⟩
        have hlen := hsound.searching.toBounded.trail_le hsound.inv.toBase
        exact distance_conflict hlen hlev.length_le hlt (nVars_of_fixed hfix')
          (assumptions_of_fixed hfix')
  case none =>
      rw [hr] at hnone hfix hlevels' hdist hq
      have hset : t.Settled F := ⟨hnone rfl, hlevels', hq⟩
      simp only
      by_cases hstop : Reached nofConflicts conflictC ∨ g.stop = true
      · have hf := (fixed_cancelUntil t 0).trans hfix
        rw [if_pos hstop]
        have hclean := hset.toSound.clean hq
        exact ⟨.stopped hclean ((conflict_of_fixed hf).trans hconfl), ok_of_fixed hf,
          nVars_of_fixed hf,
          (congrArg decision hf : (t.cancelUntil 0).fixed.decision = s.fixed.decision),
          assumptions_of_fixed hf⟩
      · obtain ⟨u, hu, hvset, hvo⟩ := hset.tidy ((ok_of_fixed hfix).trans hok) cfg g
        rw [if_neg hstop, hu, if_neg (by simp)]
        set v := if g.reduce then u.reduceDB g else u
        rw [not_or] at hstop
        have hvf := (fixed_of_outline hvo).trans hfix
        have hvd : distance limit conflictC v ≤ distance limit conflictC s := by
          refine le_of_eq_of_le ?_ hdist
          simp only [distance, nVars_of_fixed (fixed_of_outline hvo), decisionLevel,
            assumptions_of_fixed (fixed_of_outline hvo), trail_of_outline hvo,
            trailLim_of_outline hvo]
        have hround := hvset.decideNext (hlimit hstop.1) g
        cases hd : Core.decideNext g conflictC v with
        | next c' w =>
            rw [hd] at hround
            obtain ⟨h₁, h₂, h₃, h₄⟩ := hround
            exact ⟨h₁, h₂, h₃.trans hvf, h₄.trans_le hvd⟩
        | done st w =>
            rw [hd] at hround
            obtain ⟨h₁, h₂, h₃, h₄, h₅⟩ := hround
            exact ⟨h₁, h₂.trans (ok_of_fixed hvf), h₃.trans (nVars_of_fixed hvf),
              h₄.trans (congrArg decision hvf : v.fixed.decision = s.fixed.decision),
              h₅.trans (assumptions_of_fixed hvf)⟩
        | failed =>
            rw [hd] at hround
            exact hround.elim

end Core

end Parsat.Minisat
