import Mathlib.Data.List.Induction
import Mathlib.Data.List.Sort
import Mathlib.Logic.Function.Basic
import Parsat.Sat.Literal

/-!
# Sat — the propagating solver

The part of `Minisat::Solver` the repository's own code works with: the clause list, the
assignment with its trail, the decision levels, the propagation queue and the flag `ok`.
Watch lists, activities, saved phases and the elimination data are read by nothing modelled here.

`propagate()` is a parameter (`Propagator`): a function on solver states that, from a state whose
literals before `qhead` have been propagated, reports a conflict exactly when the unit-propagation
closure of the trail falsifies a clause, and otherwise extends the trail to that closure.  It may
reorder the literals of a clause, as the watched-literal scheme does.  `Propagator.saturating` is
one such function.

`Quiescent` is the state between two calls: the assignment is what the trail says, every attached
clause has two literals of different variables, and the trail is closed under propagation.
`addClause_` keeps it as long as `ok` stays set (`addClause_spec`).
-/

namespace Parsat

open UnitProp

structure Solver where
  ok : Bool
  clauses : List Clause
  assigns : ℕ → LBool
  trail : List Lit
  trailLim : List ℕ
  qhead : ℕ
  phaseSaving : ℕ
  nVars : ℕ

namespace Solver

/-- A solver without variables; `phase_saving` is at the default of its option. -/
def empty : Solver where
  ok := true
  clauses := []
  assigns _ := .undef
  trail := []
  trailLim := []
  qhead := 0
  phaseSaving := 2
  nVars := 0

/-- `value(Lit)`. -/
def value (s : Solver) (p : Lit) : LBool := (s.assigns p.var).xor p.sign

def decisionLevel (s : Solver) : ℕ := s.trailLim.length

def newDecisionLevel (s : Solver) : Solver :=
  { s with trailLim := s.trailLim ++ [s.trail.length] }

def uncheckedEnqueue (s : Solver) (p : Lit) : Solver :=
  { s with
    assigns := Function.update s.assigns p.var (.ofBool !p.sign)
    trail := s.trail ++ [p] }

/-- Revert to the state at `level`, keeping the assignments at `level` but not beyond. -/
def cancelUntil (s : Solver) (level : ℕ) : Solver :=
  if level < s.decisionLevel then
    let lim := s.trailLim.getD level 0
    { s with
      assigns := fun v => if v ∈ (s.trail.drop lim).map Lit.var then .undef else s.assigns v
      qhead := lim
      trail := s.trail.take lim
      trailLim := s.trailLim.take level }
  else s

/-- `satisfied(const Clause&)`. -/
def satisfied (s : Solver) (c : Clause) : Bool := c.any fun p => s.value p = .true

/-- `newVar()` until `var` is a variable of the solver. -/
def growVars (s : Solver) (c : Clause) : Solver :=
  { s with nVars := c.foldl (fun n p => max n (p.var + 1)) s.nVars }

/-! ### What a state says -/

/-- The literals on the trail. -/
def trailSet (s : Solver) : Set Lit := {p | p ∈ s.trail}

/-- `m` satisfies the clauses and the literals on the trail. -/
def Models (m : Model) (s : Solver) : Prop := m.Sat s.clauses ∧ m.Meets s.trail

/-- The assignment is what the trail says, and the trail repeats no variable. -/
structure Wf (s : Solver) : Prop where
  value_iff : ∀ p, s.value p = .true ↔ p ∈ s.trail
  distinct : s.trail.Pairwise fun p q => p.var ≠ q.var

/-- The state `propagate()` expects: attached clauses have at least two literals, of different
variables, and the literals before `qhead` have been propagated. -/
structure Ready (s : Solver) : Prop extends Wf s where
  attached : ∀ c ∈ s.clauses, 2 ≤ c.length ∧ c.Pairwise fun p q => p.var ≠ q.var
  queue : ∀ c ∈ s.clauses, ∀ p ∈ c,
    (∀ q ∈ c, q ≠ p → -q ∈ s.trail.take s.qhead) → p ∈ s.trail

/-- Everything on the trail has been propagated, without a conflict. -/
structure Quiescent (s : Solver) : Prop extends Ready s where
  qhead_eq : s.qhead = s.trail.length

/-- What `propagate()` makes of the state `s`: the conflict flag and the state after it. -/
structure Propagated (s : Solver) (r : Bool × Solver) : Prop where
  ok_eq : r.2.ok = s.ok
  trailLim_eq : r.2.trailLim = s.trailLim
  phaseSaving_eq : r.2.phaseSaving = s.phaseSaving
  nVars_eq : r.2.nVars = s.nVars
  clauses : SameClauses s.clauses r.2.clauses
  wf : r.2.Wf
  trail_eq : ∃ ext, r.2.trail = s.trail ++ ext
  qhead_eq : r.2.qhead = r.2.trail.length
  conflict_iff : r.1 = true ↔ Conflict s.clauses s.trailSet
  closure : r.1 = false → ∀ p, p ∈ r.2.trail ↔ Derives s.clauses s.trailSet p

/-- Equal up to the order of the literals inside each clause. -/
structure Same (s t : Solver) : Prop where
  ok_eq : t.ok = s.ok
  trail_eq : t.trail = s.trail
  assigns_eq : t.assigns = s.assigns
  trailLim_eq : t.trailLim = s.trailLim
  qhead_eq : t.qhead = s.qhead
  phaseSaving_eq : t.phaseSaving = s.phaseSaving
  nVars_eq : t.nVars = s.nVars
  clauses : SameClauses s.clauses t.clauses

end Solver

/-- `propagate()` of the vendored solver. -/
structure Propagator where
  run : Solver → Bool × Solver
  spec : ∀ s : Solver, s.Ready → s.Propagated (run s)

namespace Solver

/-! ### The assignment and the trail -/

variable {s t : Solver} {p q : Lit}

theorem value_neg : s.value (-p) = .true ↔ s.value p = .false := by
  simp only [value, Lit.var_neg, Lit.sign_neg]
  cases s.assigns p.var <;> cases p.sign <;> simp [LBool.xor, LBool.ofBool]

theorem Wf.value_false (h : s.Wf) : s.value p = .false ↔ -p ∈ s.trail :=
  value_neg.symm.trans (h.value_iff (-p))

theorem Wf.value_undef (h : s.Wf) : s.value p = .undef ↔ p ∉ s.trail ∧ -p ∉ s.trail := by
  rw [← h.value_iff, ← h.value_false]
  cases s.value p <;> simp

theorem Wf.consistent (h : s.Wf) : Consistent s.trailSet := by
  intro p hp hp'
  have h₁ := (h.value_iff p).mpr hp
  have h₂ := h.value_false.mpr hp'
  rw [h₁] at h₂
  cases h₂

/-- The trail determines the assignment. -/
theorem Wf.assigns_eq (hs : s.Wf) (ht : t.Wf) (h : t.trail = s.trail) : t.assigns = s.assigns := by
  funext v
  have hv : ∀ b, t.value (mkLit v b) = .true ↔ s.value (mkLit v b) = .true := fun b => by
    rw [ht.value_iff, hs.value_iff, h]
  have h₁ := hv true
  have h₂ := hv false
  simp only [value, mkLit] at h₁ h₂
  cases e₁ : t.assigns v <;> cases e₂ : s.assigns v <;>
    simp [e₁, e₂, LBool.xor, LBool.ofBool] at h₁ h₂ <;> rfl

theorem Wf.of_trail (hs : s.Wf) (h₁ : t.trail = s.trail) (h₂ : t.assigns = s.assigns) : t.Wf where
  value_iff p := by rw [h₁, ← hs.value_iff, value, value, h₂]
  distinct := h₁ ▸ hs.distinct

theorem Wf.newDecisionLevel (h : s.Wf) : s.newDecisionLevel.Wf := h.of_trail rfl rfl

theorem uncheckedEnqueue_value :
    (s.uncheckedEnqueue p).value q = if q.var = p.var then .ofBool (p.sign == q.sign)
      else s.value q := by
  simp only [value, uncheckedEnqueue]
  by_cases e : q.var = p.var
  · rw [e, Function.update_self, if_pos rfl]
    cases p.sign <;> cases q.sign <;> rfl
  · rw [Function.update_of_ne e, if_neg e]

/-- An unassigned literal may be enqueued. -/
theorem Wf.uncheckedEnqueue (h : s.Wf) (hp : s.value p = .undef) : (s.uncheckedEnqueue p).Wf where
  value_iff q := by
    rw [uncheckedEnqueue_value]
    obtain ⟨h₁, h₂⟩ := h.value_undef.mp hp
    simp only [Solver.uncheckedEnqueue, List.mem_append, List.mem_singleton]
    by_cases e : q.var = p.var
    · rcases Lit.eq_or_eq_neg e with rfl | rfl
      · simp [LBool.ofBool]
      · simp [h₂, Lit.neg_ne, LBool.ofBool]
    · rw [if_neg e, h.value_iff]
      exact ⟨.inl, fun h => h.resolve_right fun e' => e (e' ▸ rfl)⟩
  distinct := by
    obtain ⟨h₁, h₂⟩ := h.value_undef.mp hp
    refine List.pairwise_append.mpr ⟨h.distinct, List.pairwise_singleton _ _, ?_⟩
    intro a ha b hb e
    rw [List.mem_singleton.mp hb] at e
    rcases Lit.eq_or_eq_neg e with rfl | rfl
    · exact h₁ ha
    · exact h₂ ha

theorem Wf.cancelUntil (h : s.Wf) (level : ℕ) : (s.cancelUntil level).Wf := by
  unfold Solver.cancelUntil
  split
  · set lim := s.trailLim.getD level 0
    have hsplit := h.distinct
    rw [← List.take_append_drop lim s.trail, List.pairwise_append] at hsplit
    obtain ⟨hd, -, hcross⟩ := hsplit
    refine ⟨?_, hd⟩
    intro p
    simp only [value]
    split
    · rename_i hv
      obtain ⟨q, hq, e⟩ := List.mem_map.mp hv
      refine ⟨by simp [LBool.xor], fun hp => absurd e.symm (hcross p hp q hq)⟩
    · rename_i hv
      have hval := h.value_iff p
      simp only [value] at hval
      rw [hval]
      refine ⟨?_, List.mem_of_mem_take⟩
      intro hp
      rw [← List.take_append_drop lim s.trail, List.mem_append] at hp
      exact hp.resolve_right fun hp => hv (List.mem_map.mpr ⟨p, hp, rfl⟩)
  · exact h

/-- Undoing everything above a decision level gives back the state below it. -/
theorem Wf.cancelUntil_same (hs : s.Wf) (ht : t.Wf) (hq : s.qhead = s.trail.length)
    (hok : t.ok = s.ok) (hph : t.phaseSaving = s.phaseSaving) (hn : t.nVars = s.nVars)
    (hc : SameClauses s.clauses t.clauses) (htrail : ∃ ext, t.trail = s.trail ++ ext)
    (hlim : ∃ more, t.trailLim = s.trailLim ++ s.trail.length :: more) :
    s.Same (t.cancelUntil s.decisionLevel) := by
  obtain ⟨ext, htrail⟩ := htrail
  obtain ⟨more, hlim⟩ := hlim
  have hlt : s.decisionLevel < t.decisionLevel := by
    simp only [decisionLevel, hlim, List.length_append, List.length_cons]; omega
  have hget : t.trailLim.getD s.decisionLevel 0 = s.trail.length := by
    simp [hlim, decisionLevel]
  have htr : (t.cancelUntil s.decisionLevel).trail = s.trail := by
    simp only [Solver.cancelUntil, if_pos hlt, hget, htrail, List.take_left]
  refine ⟨?_, htr, hs.assigns_eq (ht.cancelUntil _) htr, ?_, ?_, ?_, ?_, ?_⟩ <;>
    simp only [Solver.cancelUntil, if_pos hlt, hget]
  · exact hok
  · simp [hlim, decisionLevel]
  · exact hq.symm
  · exact hph
  · exact hn
  · exact hc

theorem Same.refl (s : Solver) : s.Same s := ⟨rfl, rfl, rfl, rfl, rfl, rfl, rfl, .refl _⟩

theorem Same.trans {u : Solver} (h : s.Same t) (h' : t.Same u) : s.Same u where
  ok_eq := h'.ok_eq.trans h.ok_eq
  trail_eq := h'.trail_eq.trans h.trail_eq
  assigns_eq := h'.assigns_eq.trans h.assigns_eq
  trailLim_eq := h'.trailLim_eq.trans h.trailLim_eq
  qhead_eq := h'.qhead_eq.trans h.qhead_eq
  phaseSaving_eq := h'.phaseSaving_eq.trans h.phaseSaving_eq
  nVars_eq := h'.nVars_eq.trans h.nVars_eq
  clauses := h.clauses.trans h'.clauses

theorem Same.trailSet_eq (h : s.Same t) : t.trailSet = s.trailSet := by
  simp only [trailSet, h.trail_eq]

/-! ### Quiescent states -/

theorem attached_congr {C C' : List Clause} (h : SameClauses C C')
    (hC : ∀ c ∈ C, 2 ≤ c.length ∧ c.Pairwise fun p q => p.var ≠ q.var) :
    ∀ c ∈ C', 2 ≤ c.length ∧ c.Pairwise fun p q => p.var ≠ q.var := by
  intro c hc
  obtain ⟨d, hd, e⟩ := h.symm.exists_perm hc
  obtain ⟨h₁, h₂⟩ := hC d hd
  exact ⟨e.length_eq ▸ h₁, (e.pairwise_iff fun h => h.symm).mpr h₂⟩

theorem Quiescent.closed (h : s.Quiescent) : Closed s.clauses s.trailSet := by
  intro c hc p hp hu
  refine h.queue c hc p hp ?_
  intro q hq e
  rw [h.qhead_eq, List.take_length]
  exact hu q hq e

/-- No clause of a quiescent state is false under its trail. -/
theorem Quiescent.not_refuted (h : s.Quiescent) : ¬ Refuted s.clauses s.trailSet := by
  rintro (hc | hc)
  · obtain ⟨c, hc, hq⟩ := h.closed.conflict_iff.mp hc
    have hne : c ≠ [] := by
      rintro rfl
      have := (h.attached _ hc).1
      simp at this
    obtain ⟨p, hp⟩ := List.exists_mem_of_ne_nil c hne
    exact h.toWf.consistent p (h.closed c hc p hp fun q hq' _ => hq q hq') (hq p hp)
  · exact hc h.toWf.consistent

theorem Quiescent.same (h : s.Quiescent) (hst : s.Same t) : t.Quiescent where
  toWf := h.toWf.of_trail hst.trail_eq hst.assigns_eq
  attached := attached_congr hst.clauses h.attached
  queue := by
    intro c hc p hp hu
    rw [hst.trail_eq, hst.qhead_eq] at *
    obtain ⟨d, hd, e⟩ := hst.clauses.symm.exists_perm hc
    exact h.queue d hd p (e.mem_iff.mp hp) fun q hq => hu q (e.mem_iff.mpr hq)
  qhead_eq := by rw [hst.qhead_eq, hst.trail_eq, h.qhead_eq]

theorem Propagated.quiescent {r : Bool × Solver} (hs : s.Ready) (h : s.Propagated r)
    (hr : r.1 = false) : r.2.Quiescent where
  toWf := h.wf
  attached := attached_congr h.clauses hs.attached
  queue := by
    intro c hc p hp hu
    rw [h.qhead_eq, List.take_length] at hu
    obtain ⟨d, hd, e⟩ := h.clauses.symm.exists_perm hc
    refine (h.closure hr p).mpr (.unit hd (e.mem_iff.mp hp) ?_)
    intro q hq hne
    exact (h.closure hr _).mp (hu q (e.mem_iff.mpr hq) hne)
  qhead_eq := h.qhead_eq

theorem Propagated.trailSet_eq {r : Bool × Solver} (h : s.Propagated r) (hr : r.1 = false) :
    r.2.trailSet = Closure s.clauses s.trailSet :=
  Set.ext fun p => h.closure hr p

/-- Literals of unassigned, different variables enqueued one after the other. -/
theorem Wf.foldl_uncheckedEnqueue (h : s.Wf) {ps : List Lit}
    (hd : (s.trail ++ ps).Pairwise fun p q => p.var ≠ q.var) :
    (ps.foldl Solver.uncheckedEnqueue s).Wf ∧
      (ps.foldl Solver.uncheckedEnqueue s).trail = s.trail ++ ps := by
  induction ps generalizing s with
  | nil => exact ⟨h, (List.append_nil _).symm⟩
  | cons p ps ih =>
      have hp : s.value p = .undef := by
        have hcross := (List.pairwise_append.mp hd).2.2
        refine h.value_undef.mpr ⟨?_, ?_⟩
        · intro hm
          exact hcross p hm p List.mem_cons_self rfl
        · intro hm
          exact hcross (-p) hm p List.mem_cons_self rfl
      have := ih (h.uncheckedEnqueue hp) (by simpa [Solver.uncheckedEnqueue] using hd)
      simpa [Solver.uncheckedEnqueue] using this

theorem foldl_uncheckedEnqueue_frame (s : Solver) (ps : List Lit) :
    ps.foldl uncheckedEnqueue s =
      { s with
        assigns := (ps.foldl uncheckedEnqueue s).assigns
        trail := (ps.foldl uncheckedEnqueue s).trail } := by
  induction ps generalizing s with
  | nil => rfl
  | cons p ps ih => exact ih (s.uncheckedEnqueue p)

end Solver

/-! ### A propagator -/

open Solver

/-- Propagation by saturating the trail, clause by clause. -/
def saturatingRun (s : Solver) : Bool × Solver :=
  let r := saturate s.clauses s.clauses.flatten.length s.trail
  let t := (r.2.drop s.trail.length).foldl uncheckedEnqueue s
  (r.1, { t with qhead := t.trail.length })

theorem saturatingRun_spec (s : Solver) (hs : s.Ready) : s.Propagated (saturatingRun s) := by
  have hn : (pending s.clauses s.trail).length ≤ s.clauses.flatten.length :=
    List.length_filter_le _ _
  obtain ⟨⟨ext, he⟩, -, -, -, hpw⟩ := saturate_spec hn
  have hdrop :
      (saturate s.clauses s.clauses.flatten.length s.trail).2.drop s.trail.length = ext := by
    rw [he, List.drop_left]
  have hvar : ∀ p q : Lit, (q ≠ p ∧ q ≠ -p) ↔ p.var ≠ q.var := fun p q =>
    ⟨fun h e => (Lit.eq_or_eq_neg e.symm).elim h.1 h.2,
      fun h => ⟨fun e => h (e ▸ rfl), fun e => h (e ▸ rfl)⟩⟩
  simp only [hvar, he] at hpw
  obtain ⟨hwf, htr⟩ := hs.toWf.foldl_uncheckedEnqueue (hpw hs.distinct)
  have hframe := foldl_uncheckedEnqueue_frame s ext
  simp only [saturatingRun, hdrop]
  rw [hframe]
  refine ⟨rfl, rfl, rfl, rfl, .refl _, hwf.of_trail rfl rfl, ⟨ext, htr⟩, rfl,
    saturate_conflict_iff hn, ?_⟩
  intro h p
  simp only [htr, ← he]
  exact mem_saturate_iff hn h

/-- A function that does what is assumed of `propagate()`. -/
def Propagator.saturating : Propagator where
  run := saturatingRun
  spec := saturatingRun_spec

/-! ### Adding clauses -/

namespace Solver

/-- The loop of `addClause_` over the sorted literals, after the literal `last` was kept: `none` if
the clause is satisfied or a tautology, else the literals that stay. -/
def keepLits (s : Solver) : Option Lit → List Lit → Option (List Lit)
  | _, [] => some []
  | last, p :: ps =>
    if s.value p = .true ∨ last.map (-·) = some p then none
    else if s.value p ≠ .false ∧ last ≠ some p then (s.keepLits (some p) ps).map (p :: ·)
    else s.keepLits last ps

/-- `sort(ps)`. -/
def sortLits (ps : Clause) : Clause := ps.insertionSort fun p q => p.toInt ≤ q.toInt

/-- `addClause_`: the returned flag and the state after it. -/
def addClause_ (P : Propagator) (s : Solver) (ps : Clause) : Bool × Solver :=
  if s.ok = false then (false, s)
  else match s.keepLits none (sortLits ps) with
    | none => (true, s)
    | some [] => (false, { s with ok := false })
    | some [p] =>
      let r := P.run (s.uncheckedEnqueue p)
      (!r.1, { r.2 with ok := !r.1 })
    | some c => (true, { s with clauses := s.clauses ++ [c] })

/-- `loadClauses`, and the clause loop of `parse_DIMACS`. -/
def loadClauses (P : Propagator) (F : Cnf) (s : Solver) : Solver :=
  F.foldl (fun s c => (addClause_ P (s.growVars c) c).2) s

variable {s t : Solver}

theorem mem_sortLits {ps : Clause} {p : Lit} : p ∈ sortLits ps ↔ p ∈ ps :=
  (List.perm_insertionSort _ ps).mem_iff

theorem sorted_sortLits (ps : Clause) : (sortLits ps).Pairwise fun p q => p.toInt ≤ q.toInt := by
  have : Std.Total fun p q : Lit => p.toInt ≤ q.toInt := ⟨fun _ _ => Nat.le_total _ _⟩
  have : IsTrans Lit fun p q => p.toInt ≤ q.toInt := ⟨fun _ _ _ => Nat.le_trans⟩
  exact List.pairwise_insertionSort _ ps

/-- A clause the loop drops has a true literal or two opposite ones. -/
theorem keepLits_none {last : Option Lit} {ps : List Lit} (h : s.keepLits last ps = none) :
    (∃ p ∈ ps, s.value p = .true) ∨ (∃ p ∈ ps, -p ∈ ps ∨ last = some (-p)) := by
  induction ps generalizing last with
  | nil => simp [keepLits] at h
  | cons p ps ih =>
      simp only [keepLits] at h
      split at h
      · rename_i hc
        rcases hc with hc | hc
        · exact .inl ⟨p, List.mem_cons_self, hc⟩
        · obtain ⟨l, hl, rfl⟩ := Option.map_eq_some_iff.mp hc
          exact .inr ⟨-l, List.mem_cons_self, .inr (by rw [neg_neg]; exact hl)⟩
      · split at h
        · rcases ih (Option.map_eq_none_iff.mp h) with ⟨q, hq, hv⟩ | ⟨q, hq, hq' | hq'⟩
          · exact .inl ⟨q, List.mem_cons_of_mem _ hq, hv⟩
          · exact .inr ⟨q, List.mem_cons_of_mem _ hq, .inl (List.mem_cons_of_mem _ hq')⟩
          · have e := Option.some.inj hq'
            exact .inr ⟨q, List.mem_cons_of_mem _ hq, .inl (e ▸ List.mem_cons_self)⟩
        · rcases ih h with ⟨q, hq, hv⟩ | ⟨q, hq, hq' | hq'⟩
          · exact .inl ⟨q, List.mem_cons_of_mem _ hq, hv⟩
          · exact .inr ⟨q, List.mem_cons_of_mem _ hq, .inl (List.mem_cons_of_mem _ hq')⟩
          · exact .inr ⟨q, List.mem_cons_of_mem _ hq, .inr hq'⟩

/-- The literals the loop keeps are unassigned literals of the clause, and it drops only false
literals and repetitions. -/
theorem keepLits_some {last : Option Lit} {ps c : List Lit} (h : s.keepLits last ps = some c) :
    (∀ p ∈ c, p ∈ ps ∧ s.value p = .undef) ∧
      ∀ p ∈ ps, p ∈ c ∨ s.value p = .false ∨ last = some p := by
  induction ps generalizing last c with
  | nil =>
      simp only [keepLits, Option.some.injEq] at h
      subst h
      simp
  | cons p ps ih =>
      simp only [keepLits] at h
      split at h
      · cases h
      · rename_i hn
        split at h
        · rename_i hk
          obtain ⟨c', hc', rfl⟩ := Option.map_eq_some_iff.mp h
          obtain ⟨h₁, h₂⟩ := ih hc'
          have hp : s.value p = .undef := by
            cases e : s.value p
            · exact absurd (.inl e) hn
            · exact absurd e hk.1
            · rfl
          refine ⟨?_, ?_⟩
          · intro q hq
            rcases List.mem_cons.mp hq with rfl | hq
            · exact ⟨List.mem_cons_self, hp⟩
            · exact ⟨List.mem_cons_of_mem _ (h₁ q hq).1, (h₁ q hq).2⟩
          · intro q hq
            rcases List.mem_cons.mp hq with rfl | hq
            · exact .inl List.mem_cons_self
            · rcases h₂ q hq with h | h | h
              · exact .inl (List.mem_cons_of_mem _ h)
              · exact .inr (.inl h)
              · exact .inl (Option.some.inj h ▸ List.mem_cons_self)
        · rename_i hk
          obtain ⟨h₁, h₂⟩ := ih h
          refine ⟨fun q hq => ⟨List.mem_cons_of_mem _ (h₁ q hq).1, (h₁ q hq).2⟩, ?_⟩
          intro q hq
          rcases List.mem_cons.mp hq with rfl | hq
          · by_cases hf : s.value q = .false
            · exact .inr (.inl hf)
            · exact .inr (.inr (not_not.mp fun e => hk ⟨hf, e⟩))
          · exact h₂ q hq

/-- On a sorted clause the kept literals have different variables, all above that of `last`. -/
theorem keepLits_distinct {last : Option Lit} {ps c : List Lit}
    (hs : ps.Pairwise fun p q => p.toInt ≤ q.toInt)
    (hl : ∀ l, last = some l → ∀ p ∈ ps, l.toInt ≤ p.toInt)
    (h : s.keepLits last ps = some c) :
    c.Pairwise (fun p q => p.var ≠ q.var) ∧ ∀ l, last = some l → ∀ p ∈ c, l.var < p.var := by
  induction ps generalizing last c with
  | nil =>
      simp only [keepLits, Option.some.injEq] at h
      subst h
      simp
  | cons p ps ih =>
      obtain ⟨hp, hps⟩ := List.pairwise_cons.mp hs
      simp only [keepLits] at h
      split at h
      · cases h
      · rename_i hn
        split at h
        · rename_i hk
          obtain ⟨c', hc', rfl⟩ := Option.map_eq_some_iff.mp h
          obtain ⟨h₁, h₂⟩ := ih hps (by rintro l ⟨⟩; exact hp) hc'
          have hlt := h₂ p rfl
          refine ⟨List.pairwise_cons.mpr ⟨fun q hq => (hlt q hq).ne, h₁⟩, ?_⟩
          intro l hl'
          -- `p` is above `last` and neither equal nor opposite to it
          have hlp : l.var < p.var := by
            refine lt_of_le_of_ne (Lit.var_le_of_toInt_le (hl l hl' p List.mem_cons_self)) ?_
            intro e
            rcases Lit.eq_or_eq_neg e with rfl | rfl
            · exact hk.2 hl'
            · exact hn (.inr (by rw [hl', Option.map_some, neg_neg]))
          intro q hq
          rcases List.mem_cons.mp hq with rfl | hq
          · exact hlp
          · exact hlp.trans (hlt q hq)
        · exact ih hps (fun l hl' q hq => hl l hl' q (List.mem_cons_of_mem _ hq)) h

/-- Unassigned literals pushed on a quiescent state wait in the queue. -/
theorem Quiescent.ready_of_append (hs : s.Quiescent) (ht : t.Wf) (hc : t.clauses = s.clauses)
    (hq : t.qhead = s.qhead) {ext : List Lit} (htrail : t.trail = s.trail ++ ext) : t.Ready where
  toWf := ht
  attached := hc ▸ hs.attached
  queue := by
    intro c hcl p hp hu
    rw [hq, hs.qhead_eq, htrail, List.take_left] at hu
    rw [htrail]
    exact List.mem_append_left _ (hs.closed c (hc ▸ hcl) p hp hu)

/-- Under a model of the trail, a clause and what the loop keeps of it are equally true. -/
theorem Wf.holds_keepLits (hs : s.Wf) {ps c : Clause} {m : Model} (hm : m.Meets s.trail)
    (h : s.keepLits none (sortLits ps) = some c) :
    (∃ p ∈ ps, p.Holds m) ↔ ∃ p ∈ c, p.Holds m := by
  obtain ⟨h₁, h₂⟩ := keepLits_some h
  constructor
  · rintro ⟨p, hp, hv⟩
    rcases h₂ p (mem_sortLits.mpr hp) with h | h | h
    · exact ⟨p, h, hv⟩
    · exact absurd hv ((Lit.holds_neg m p).mp (hm _ (hs.value_false.mp h)))
    · cases h
  · rintro ⟨p, hp, hv⟩
    exact ⟨p, mem_sortLits.mp (h₁ p hp).1, hv⟩

theorem Wf.holds_of_keepLits_none (hs : s.Wf) {ps : Clause} {m : Model} (hm : m.Meets s.trail)
    (h : s.keepLits none (sortLits ps) = none) : ∃ p ∈ ps, p.Holds m := by
  rcases keepLits_none h with ⟨p, hp, hv⟩ | ⟨p, hp, hp' | hp'⟩
  · exact ⟨p, mem_sortLits.mp hp, hm p ((hs.value_iff p).mp hv)⟩
  · by_cases hv : p.Holds m
    · exact ⟨p, mem_sortLits.mp hp, hv⟩
    · exact ⟨-p, mem_sortLits.mp hp', (Lit.holds_neg m p).mpr hv⟩
  · cases hp'

/-- What `addClause_` makes of a quiescent state: either the solver stays consistent and the state
means the old one with the clause, or the two contradict each other. -/
structure Added (s : Solver) (ps : Clause) (r : Bool × Solver) : Prop where
  flag : r.1 = r.2.ok
  trailLim_eq : r.2.trailLim = s.trailLim
  quiescent : r.2.ok = true → r.2.Quiescent
  models_iff : r.2.ok = true → ∀ m : Model, r.2.Models m ↔ s.Models m ∧ ∃ p ∈ ps, p.Holds m
  contradiction : r.2.ok = false → ∀ m : Model, ¬ (s.Models m ∧ ∃ p ∈ ps, p.Holds m)

theorem addClause_unit (P : Propagator) (hs : s.Quiescent) {ps : Clause} {p : Lit}
    (hok : s.ok = true) (h : s.keepLits none (sortLits ps) = some [p]) :
    s.Added ps (addClause_ P s ps) := by
  have hp : s.value p = .undef := ((keepLits_some h).1 p (by simp)).2
  have hready := hs.ready_of_append (t := s.uncheckedEnqueue p) (hs.toWf.uncheckedEnqueue hp)
    rfl rfl rfl
  have hr := P.spec _ hready
  have hset : (s.uncheckedEnqueue p).trailSet = {q | q ∈ s.trail ++ [p]} := rfl
  simp only [addClause_, hok, h]
  refine ⟨rfl, hr.trailLim_eq, fun hr' => ?_, fun hr' m => ?_, fun hr' m => ?_⟩
  all_goals replace hr' := (Bool.not_eq_eq_eq_not).mp hr'
  · have hq := hr.quiescent hready hr'
    exact ⟨⟨hq.toWf.of_trail rfl rfl, hq.attached, hq.queue⟩, hq.qhead_eq⟩
  · -- the clause says what the literal says that is left of it
    constructor
    · rintro ⟨hC, hT⟩
      have hC' : m.Sat s.clauses := hr.clauses.symm.satisfies hC
      obtain ⟨ext, he⟩ := hr.trail_eq
      have hT' : m.Meets (s.trail ++ [p]) := fun q hq =>
        hT q (by simp only [he]; exact List.mem_append_left _ hq)
      rw [Model.meets_append] at hT'
      refine ⟨⟨hC', hT'.1⟩, (hs.toWf.holds_keepLits hT'.1 h).mpr ⟨p, by simp, hT'.2 p (by simp)⟩⟩
    · rintro ⟨⟨hC, hT⟩, hps⟩
      obtain ⟨q, hq, hv⟩ := (hs.toWf.holds_keepLits hT h).mp hps
      obtain rfl := List.mem_singleton.mp hq
      refine ⟨hr.clauses.satisfies hC, ?_⟩
      intro r hr''
      refine ((hr.closure hr' r).mp hr'').sound (valuation_holds m) hC ?_
      intro a ha
      rcases List.mem_append.mp ha with ha | ha
      · exact hT a ha
      · exact List.mem_singleton.mp ha ▸ hv
  · rintro ⟨⟨hC, hT⟩, hps⟩
    obtain ⟨q, hq, hv⟩ := (hs.toWf.holds_keepLits hT h).mp hps
    obtain rfl := List.mem_singleton.mp hq
    refine not_refuted_of_model (valuation_holds m) hC ?_
      (.inl (hr.conflict_iff.mp hr'))
    intro a ha
    rcases List.mem_append.mp ha with ha | ha
    · exact hT a ha
    · exact List.mem_singleton.mp ha ▸ hv

theorem addClause_push (P : Propagator) (hs : s.Quiescent) {ps c : Clause} (hok : s.ok = true)
    (h : s.keepLits none (sortLits ps) = some c) (hc : 2 ≤ c.length) :
    s.Added ps (addClause_ P s ps) := by
  have hd := (keepLits_distinct (sorted_sortLits ps) (by rintro l ⟨⟩) h).1
  have hundef := (keepLits_some h).1
  have hadd : addClause_ P s ps = (true, { s with clauses := s.clauses ++ [c] }) := by
    match c, hc with
    | a :: b :: c, _ => simp [addClause_, hok, h]
  rw [hadd]
  refine ⟨hok.symm, rfl, ?_, ?_, ?_⟩
  · intro _
    refine ⟨⟨hs.toWf.of_trail rfl rfl, ?_, ?_⟩, hs.qhead_eq⟩
    · intro d hd'
      rcases List.mem_append.mp hd' with hd' | hd'
      · exact hs.attached d hd'
      · rw [List.mem_singleton.mp hd']; exact ⟨hc, hd⟩
    · intro d hd' p hp hu
      rcases List.mem_append.mp hd' with hd' | hd'
      · exact hs.queue d hd' p hp hu
      · -- two unassigned literals: the new clause is not unit
        obtain rfl := List.mem_singleton.mp hd'
        have : ∃ q ∈ d, q ≠ p := by
          match d, hc, hd with
          | a :: b :: d, _, hd =>
              by_cases e : a = p
              · refine ⟨b, by simp, ?_⟩
                intro e'
                exact (List.pairwise_cons.mp hd).1 b (by simp) (by rw [e, e'])
              · exact ⟨a, by simp, e⟩
        obtain ⟨q, hq, hne⟩ := this
        have hv := (hundef q hq).2
        exact absurd (List.mem_of_mem_take (hu q hq hne)) (hs.toWf.value_undef.mp hv).2
  · intro _ m
    constructor
    · rintro ⟨hC, hT⟩
      refine ⟨⟨fun d hd => hC d (List.mem_append_left _ hd), hT⟩, ?_⟩
      exact (hs.toWf.holds_keepLits hT h).mpr (hC c (by simp))
    · rintro ⟨⟨hC, hT⟩, hps⟩
      refine ⟨?_, hT⟩
      intro d hd
      rcases List.mem_append.mp hd with hd | hd
      · exact hC d hd
      · rw [List.mem_singleton.mp hd]; exact (hs.toWf.holds_keepLits hT h).mp hps
  · intro h
    rw [hok] at h; cases h

/-- **Adding a clause** keeps the solver quiescent and its meaning exact, or finds a
contradiction. -/
theorem addClause_spec (P : Propagator) (hs : s.Quiescent) (hok : s.ok = true) (ps : Clause) :
    s.Added ps (addClause_ P s ps) := by
  match h : s.keepLits none (sortLits ps) with
  | none =>
      simp only [addClause_, hok, h]
      exact ⟨hok.symm, rfl, fun _ => hs,
        fun _ m => ⟨fun hm => ⟨hm, hs.toWf.holds_of_keepLits_none hm.2 h⟩, And.left⟩,
        fun e => by simp [hok] at e⟩
  | some [] =>
      simp only [addClause_, hok, h]
      -- every literal of the clause is false on the trail
      refine ⟨rfl, rfl, by simp, by simp, ?_⟩
      intro _ m hm
      have := (hs.toWf.holds_keepLits hm.1.2 h).mp hm.2
      simp at this
  | some [p] => exact addClause_unit P hs hok h
  | some (a :: b :: c) => exact addClause_push P hs hok h (by simp)

/-- What loading the clauses `F` leaves behind. -/
structure Loaded (F : Cnf) (s : Solver) : Prop where
  trailLim_eq : s.trailLim = []
  quiescent : s.ok = true → s.Quiescent
  models_iff : s.ok = true → ∀ m : Model, s.Models m ↔ m.Sat F
  unsat : s.ok = false → ¬ Satisfiable F

theorem quiescent_empty : empty.Quiescent where
  value_iff := by simp [empty, value, LBool.xor]
  distinct := List.Pairwise.nil
  attached := by simp [empty]
  queue := by simp [empty]
  qhead_eq := rfl

theorem loaded_empty : Loaded [] empty where
  trailLim_eq := rfl
  quiescent _ := quiescent_empty
  models_iff _ m := by simp [Models, empty, Satisfies, Model.Meets]
  unsat h := by cases h

theorem Quiescent.growVars (hs : s.Quiescent) (c : Clause) : (s.growVars c).Quiescent :=
  ⟨⟨hs.toWf.of_trail rfl rfl, hs.attached, hs.queue⟩, hs.qhead_eq⟩

/-- One more clause. -/
theorem Loaded.addClause_ {P : Propagator} {F : Cnf} (h : Loaded F s) (c : Clause) :
    Loaded (F ++ [c]) (addClause_ P (s.growVars c) c).2 := by
  have hsat : ∀ m : Model, m.Sat (F ++ [c]) ↔ m.Sat F ∧ ∃ p ∈ c, p.Holds m := by
    intro m
    simp [Satisfies, or_imp, forall_and]
  by_cases hok : s.ok = true
  · have ha := addClause_spec P ((h.quiescent hok).growVars c) hok c
    have hm : ∀ m, (s.growVars c).Models m ↔ m.Sat F := h.models_iff hok
    refine ⟨ha.trailLim_eq.trans h.trailLim_eq, ha.quiescent, ?_, ?_⟩
    · intro h' m
      rw [ha.models_iff h' m, hm, hsat]
    · intro h'
      rintro ⟨m, hmF⟩
      exact ha.contradiction h' m (by rw [hm, ← hsat]; exact hmF)
  · have hok' : s.ok = false := by simpa using hok
    have hs : (Solver.addClause_ P (s.growVars c) c).2 = s.growVars c := by
      simp [Solver.addClause_, growVars, hok']
    rw [hs]
    refine ⟨h.trailLim_eq, fun h' => absurd h' hok, fun h' => absurd h' hok, ?_⟩
    intro _
    rintro ⟨m, hmF⟩
    exact h.unsat hok' ⟨m, ((hsat m).mp hmF).1⟩

/-- **Loading** a formula leaves a quiescent solver with exactly the models of the formula, or a
solver that is not `ok`, and then the formula has none. -/
theorem loaded_loadClauses (P : Propagator) (F : Cnf) : Loaded F (loadClauses P F empty) := by
  induction F using List.reverseRecOn with
  | nil => exact loaded_empty
  | append_singleton F c ih =>
      have := ih.addClause_ (P := P) c
      simpa [loadClauses, List.foldl_append] using this

end Solver

end Parsat
