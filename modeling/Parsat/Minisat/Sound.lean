import Parsat.Minisat.Analyze
import Parsat.Minisat.Database

/-!
# Minisat — what a state stands for

`Sound F s` is the invariant of the solver with the formula `F`: the watches are in order (`Inv`),
decisions take up the assumptions first and all that can be decided is in the heap (`Searching`),
and the clauses with the literals of level 0 have the models of `F` (`Means`).  Each operation of
the solver keeps it.

* `Sound.propagate`: propagation, or a conflict.
* `Sound.cancelUntil`, `Sound.decide`, `Sound.dummy`: decision levels.
* `Sound.learn`: a learnt clause and its asserting literal.
* `Sound.dropRef`, `Sound.trim`, `Sound.removeSatisfied`: clauses that go.
* `Sound.addClause_`: a clause that comes.
-/

namespace Parsat.Minisat

open UnitProp

namespace Core

/-- The list of the original or of the learnt clauses is replaced. -/
def setList (s : Core) (learnt : Bool) (cs : List ℕ) : Core :=
  { s with
    clauses := if learnt then s.clauses else cs
    learnts := if learnt then cs else s.learnts }

/-- One clause of the list in `removeSatisfied`, and the clauses that are kept. -/
def removeSatisfiedStep (r : Core × List ℕ) (cr : ℕ) : Core × List ℕ :=
  if r.1.satisfied (r.1.ca cr) then (r.1.removeClause cr, r.2) else (r.1.trim cr, r.2 ++ [cr])

/-- `removeSatisfied(cs)`, where `cs` are the learnt clauses or the original ones. -/
def removeSatisfied (s : Core) (learnt : Bool) : Core :=
  let r := (if learnt then s.learnts else s.clauses).foldl removeSatisfiedStep (s, [])
  r.1.setList learnt r.2

/-- What `search` does with a learnt clause. -/
def learn (s : Core) : Clause → Core
  | [] => s
  | [p] => s.uncheckedEnqueue p none
  | p :: q :: c => (s.pushClause true (p :: q :: c)).uncheckedEnqueue p (some s.size)

/-- `addClause_`: the returned flag and the state after it. -/
def addClause_ (s : Core) (ps : Clause) : Bool × Core :=
  if s.ok = false then (false, s)
  else match s.abs.keepLits none (Solver.sortLits ps) with
    | none => (true, s)
    | some [] => (false, { s with ok := false })
    | some [p] =>
      let r := (s.uncheckedEnqueue p none).propagate
      (r.1.isNone, { r.2 with ok := r.1.isNone })
    | some c => (true, s.pushClause false c)

variable {s t u : Core} {W : Lit → List Watcher} {p q a : Lit} {cr k n : ℕ} {c : Clause}

/-! ### What a state stands for -/

/-- A variable of the solver that may be decided. -/
def Usable (s : Core) (v : ℕ) : Prop := v < s.nVars ∧ s.decision v = true

/-- Everything is about variables that can be decided, and the heap holds those that are free. -/
structure Bounded (s : Core) : Prop where
  heap : ∀ v, s.Usable v → s.assigns v = .undef → v ∈ s.orderHeap
  heap_lt : ∀ v ∈ s.orderHeap, v < s.nVars
  vars : ∀ cr ∈ s.refs, ∀ q ∈ s.ca cr, s.Usable q.var
  trail : ∀ q ∈ s.trail, s.Usable q.var
  assumptions : ∀ a ∈ s.assumptions, s.Usable a.var

/-- The search's own invariant: decisions take up the assumptions first. -/
structure Searching (s : Core) : Prop extends Bounded s where
  decided : s.Decided
  assumed : ∀ p ∈ s.trail, s.reason p.var = none → 0 < s.level p.var →
    s.level p.var ≤ s.assumptions.length → p ∈ s.assumptions
  met : ∀ i a, i < s.decisionLevel → s.assumptions[i]? = some a →
    a ∈ s.trail ∧ s.level a.var ≤ i + 1

/-- The clauses and the literals of level 0 have the models of `F`, and learnt clauses follow. -/
structure Means (F : Cnf) (s : Core) : Prop where
  models : ∀ m : Model, m.Sat F ↔ m.Sat (s.clauses.map s.ca) ∧ m.Meets s.level0
  learnt : ∀ m : Model, m.Sat F → m.Sat (s.learnts.map s.ca)

structure Sound (F : Cnf) (s : Core) : Prop where
  inv : s.Inv
  searching : s.Searching
  means : s.Means F

variable {F : Cnf} {m : Model}

theorem Means.sat_db (h : s.Means F) (hm : m.Sat F) : m.Sat s.db := by
  intro c hc
  rw [db, refs, List.map_append, List.mem_append] at hc
  exact hc.elim (((h.models m).mp hm).1 c) (h.learnt m hm c)

/-- What follows from level 0 and further literals is true in the models that make these true. -/
theorem Means.holds (h : s.Means F) (hm : m.Sat F) {K : Set Lit} (hK : ∀ q ∈ K, q.Holds m)
    (hp : Derives s.db ({x | x ∈ s.level0} ∪ K) p) : p.Holds m := by
  refine hp.sound (valuation_holds m) (h.sat_db hm) ?_
  rintro q (hq | hq)
  · exact ((h.models m).mp hm).2 q hq
  · exact hK q hq

/-- A clause that follows by propagation is true in every model. -/
theorem Means.implied (h : s.Means F) (hm : m.Sat F)
    (hc : Conflict s.db ({x | x ∈ s.level0} ∪ {x | -x ∈ c})) : ∃ q ∈ c, q.Holds m := by
  by_contra hn
  refine not_refuted_of_model (valuation_holds m) (h.sat_db hm) ?_ (.inl hc)
  rintro q (hq | hq)
  · exact ((h.models m).mp hm).2 q hq
  · have : -q ∈ c := hq
    by_contra hq'
    exact hn ⟨-q, this, (Lit.holds_neg m q).mpr hq'⟩

/-! ### One list after the other -/

theorem refs_setList (s : Core) (learnt : Bool) (cs cs' : List ℕ) (h : cs.Perm cs') :
    (s.setList learnt cs).refs.Perm (s.setList learnt cs').refs := by
  cases learnt with
  | true => exact h.append_left s.clauses
  | false => exact h.append_right s.learnts

theorem mem_refs_setList (s : Core) (learnt : Bool) (cs : List ℕ) :
    cr ∈ (s.setList learnt cs).refs ↔
      cr ∈ cs ∨ cr ∈ if learnt then s.clauses else s.learnts := by
  cases learnt with
  | true => exact List.mem_append.trans or_comm
  | false => exact List.mem_append

/-- The order of the clauses does not matter. -/
theorem Inv.of_perm (h : s.Inv) {C L : List ℕ} (hperm : (C ++ L).Perm s.refs) :
    Inv { s with clauses := C, learnts := L } := by
  have hmem : ∀ x, x ∈ C ++ L ↔ x ∈ s.refs := fun x => hperm.mem_iff
  exact
    { h with
      refs_nodup := hperm.nodup_iff.mpr h.refs_nodup
      refs_lt := fun x hx => h.refs_lt x ((hmem x).mp hx)
      refs_live := fun x hx => h.refs_live x ((hmem x).mp hx)
      shape := fun x hx => h.shape x ((hmem x).mp hx)
      cover := fun x hx => h.cover x ((hmem x).mp hx)
      watch := fun q w hw hx => h.watch q w hw ((hmem _).mp hx)
      blocker := fun q w hw hx => h.blocker q w hw ((hmem _).mp hx)
      live := fun q w hw => (h.live q w hw).imp_left (hmem _).mpr
      wf := h.wf.of_trail rfl rfl
      upTo := fun n hn x hx => h.upTo n hn x ((hmem x).mp hx)
      reason_eq := fun k p x hk hr hl =>
        (h.reason_eq k p x hk hr hl).imp_left (hmem x).mpr
      processed := fun x hx => h.processed x ((hmem x).mp hx) }

theorem Sound.of_perm (h : s.Sound F) {learnt : Bool} {cs cs' : List ℕ}
    (hs : t.setList learnt cs = s) (hperm : cs'.Perm cs) : (t.setList learnt cs').Sound F := by
  subst hs
  have hrefs := refs_setList t learnt cs' cs hperm
  refine ⟨h.inv.of_perm hrefs, { h.searching with vars := ?_ }, ?_, ?_⟩
  · exact fun x hx => h.searching.vars x (hrefs.mem_iff.mp hx)
  · intro m
    refine (h.means.models m).trans (and_congr_left fun _ => ?_)
    cases learnt with
    | true => exact .rfl
    | false =>
        have := fun c => (hperm.map t.ca).mem_iff (a := c)
        exact forall_congr' fun c => by
          rw [show (c ∈ (t.setList false cs).clauses.map (t.setList false cs).ca) ↔ _ from
            (this c).symm]
          rfl
  · intro m hm
    have hl := h.means.learnt m hm
    cases learnt with
    | true => exact fun c hc => hl c ((hperm.map t.ca).mem_iff.mp hc)
    | false => exact hl

theorem removeClause_setList (t : Core) (learnt : Bool) (cs cs' : List ℕ) (cr : ℕ) :
    ((t.setList learnt cs).removeClause cr).setList learnt cs' =
      (t.removeClause cr).setList learnt cs' := by
  cases learnt <;>
  · unfold removeClause detachClause locked
    rcases hc : t.ca cr with _ | ⟨a, _ | ⟨b, rest⟩⟩ <;>
      simp only [setList, hc, smudge, value] <;> rfl

/-- **A clause of a list is removed**: a learnt one that is no reason above level 0, or one that is
true at level 0. -/
theorem Sound.dropRef {learnt : Bool} {pre post : List ℕ}
    (h : (t.setList learnt (pre ++ cr :: post)).Sound F)
    (hreason : ∀ p ∈ t.trail, t.reason p.var = some cr → t.level p.var = 0)
    (hsat : learnt = false → ∃ q ∈ t.ca cr, q ∈ t.level0) :
    ((t.removeClause cr).setList learnt (pre ++ post)).Sound F := by
  rw [← removeClause_setList t learnt (pre ++ cr :: post)]
  set s := t.setList learnt (pre ++ cr :: post) with hs
  have hcr : cr ∈ s.refs := (mem_refs_setList ..).mpr (.inl (by simp))
  have hperm : s.refs.Perm (cr :: (t.setList learnt (pre ++ post)).refs) := by
    cases learnt with
    | true => exact (List.perm_middle.append_left _).trans List.perm_middle
    | false => exact List.perm_middle.append_right _
  have hnodup := hperm.nodup_iff.mp h.inv.refs_nodup
  have hmem : ∀ x, x ∈ (t.setList learnt (pre ++ post)).refs ↔ x ∈ s.refs ∧ x ≠ cr := by
    intro x
    rw [hperm.mem_iff, List.mem_cons]
    constructor
    · intro hx
      exact ⟨.inr hx, fun e => (List.nodup_cons.mp hnodup).1 (e ▸ hx)⟩
    · rintro ⟨hx, hne⟩
      exact hx.resolve_left hne
  have hinv := h.inv.dropRef (C := (t.setList learnt (pre ++ post)).clauses)
    (L := (t.setList learnt (pre ++ post)).learnts) hcr hmem (List.nodup_cons.mp hnodup).2 hreason
  have hvardata := vardata_removeClause s cr
  have heq : (s.removeClause cr).setList learnt (pre ++ post) =
      s.dropRef cr (t.setList learnt (pre ++ post)).clauses
        (t.setList learnt (pre ++ post)).learnts := by
    rw [Core.dropRef, removeClause_eq]
    cases learnt <;> rfl
  rw [heq]
  rw [dropRef_eq] at hinv ⊢
  -- reasons change only at level 0
  have hdec : ∀ p ∈ s.trail, (s.removeClause cr).reason p.var = none →
      0 < (s.removeClause cr).level p.var → s.reason p.var = none ∧ 0 < s.level p.var := by
    intro p hp hr hl
    rw [(hvardata p.var).1] at hl
    rcases (hvardata p.var).2 with e | ⟨-, e, -⟩
    · exact ⟨e ▸ hr, hl⟩
    · exact absurd (hreason p hp e) hl.ne'
  refine ⟨hinv, ?_, ?_, ?_⟩
  · have hold := h.searching
    refine
      { hold with
        vars := fun x hx => hold.vars x ((hmem x).mp hx).1
        decided := ?_
        assumed := ?_
        met := ?_ }
    · intro k p hk hl hr
      obtain ⟨hr', hl'⟩ := hdec p (List.mem_of_getElem? hk) hr hl
      exact hold.decided k p hk hl' hr'
    · intro p hp hr hl hle
      obtain ⟨hr', hl'⟩ := hdec p hp hr hl
      exact hold.assumed p hp hr' hl' (((hvardata p.var).1.symm.trans_le hle))
    · intro i a hi ha
      refine (hold.met i a hi ha).imp_right fun hle => ?_
      exact (hvardata a.var).1.trans_le hle
  · intro m
    refine (h.means.models m).trans (and_congr_left fun h0 => ?_)
    cases learnt with
    | true => exact .rfl
    | false =>
        obtain ⟨q, hq, hq0⟩ := hsat rfl
        have hcl : s.clauses.Perm (cr :: (pre ++ post)) := List.perm_middle
        constructor
        · intro hall c hc
          obtain ⟨x, hx, rfl⟩ := List.mem_map.mp hc
          exact hall _ (List.mem_map.mpr ⟨x, hcl.mem_iff.mpr (List.mem_cons_of_mem _ hx), rfl⟩)
        · intro hall c hc
          obtain ⟨x, hx, rfl⟩ := List.mem_map.mp hc
          rcases List.mem_cons.mp (hcl.mem_iff.mp hx) with rfl | hx
          · exact ⟨q, hq, h0 q hq0⟩
          · exact hall _ (List.mem_map.mpr ⟨x, hx, rfl⟩)
  · intro m hm c hc
    have hl := h.means.learnt m hm
    cases learnt with
    | true =>
        obtain ⟨x, hx, rfl⟩ := List.mem_map.mp hc
        refine hl _ (List.mem_map.mpr ⟨x, List.perm_middle.mem_iff.mpr ?_, rfl⟩)
        exact List.mem_cons_of_mem _ hx
    | false => exact hl c hc

/-- **A clause of a list is trimmed.** -/
theorem Sound.trim {learnt : Bool} {cs : List ℕ} (h : (t.setList learnt cs).Sound F)
    (hq : t.qhead = t.trail.length) (hdl : t.trailLim = []) (hcr : cr ∈ cs)
    (hs : t.satisfied (t.ca cr) = false) : ((t.trim cr).setList learnt cs).Sound F := by
  set s := t.setList learnt cs with hs'
  have hcr' : cr ∈ s.refs := (mem_refs_setList ..).mpr (.inl hcr)
  have hinv := h.inv.trim hq hdl hcr' hs
  obtain ⟨c, ht, -, -, hperm⟩ := trim_spec (h.inv.shape cr hcr').1 (h.inv.watches_undef hq hcr' hs)
  have heq : (t.trim cr).setList learnt cs = s.trim cr := by
    unfold Core.trim
    rw [show s.ca cr = t.ca cr from rfl]
    rcases t.ca cr with _ | ⟨a, _ | ⟨b, rest⟩⟩ <;> rfl
  rw [heq]
  rw [ht] at hinv ⊢
  have hlevel0 : s.level0 = s.trail := by
    rw [level0, show s.trailLim = [] from hdl]
    simp
  have hca : ∀ x, ∀ q ∈ (s.setClause cr c).ca x, q ∈ s.ca x := by
    intro x q hqx
    rw [ca_setClause] at hqx
    split_ifs at hqx with e
    · exact e ▸ (List.mem_filter.mp (hperm.mem_iff.mp hqx)).1
    · exact hqx
  -- under level 0 a clause and what is left of it are equally true
  have hholds : ∀ m : Model, m.Meets s.level0 → ∀ x,
      (∃ q ∈ s.ca x, q.Holds m) → ∃ q ∈ (s.setClause cr c).ca x, q.Holds m := by
    rintro m h0 x ⟨q, hqx, hqm⟩
    refine ⟨q, ?_, hqm⟩
    rw [ca_setClause]
    split_ifs with e
    · refine hperm.mem_iff.mpr (List.mem_filter.mpr ⟨e ▸ hqx, ?_⟩)
      have hv : s.value q ≠ .false := fun hv =>
        (Lit.holds_neg m q).mp (h0 _ (hlevel0 ▸ h.inv.toBase.value_false.mp hv)) hqm
      simpa using hv
    · exact hqx
  have hsat : ∀ m : Model, m.Meets s.level0 → ∀ xs : List ℕ,
      m.Sat (xs.map (s.setClause cr c).ca) ↔ m.Sat (xs.map s.ca) := by
    intro m h0 xs
    simp only [Satisfies, List.mem_map, forall_exists_index, and_imp, forall_apply_eq_imp_iff₂]
    refine forall₂_congr fun x _ => ⟨?_, hholds m h0 x⟩
    rintro ⟨q, hqx, hqm⟩
    exact ⟨q, hca x q hqx, hqm⟩
  refine ⟨hinv, { h.searching with vars := ?_ }, ?_, ?_⟩
  · exact fun x hx q hqx => h.searching.vars x hx q (hca x q hqx)
  · intro m
    refine (h.means.models m).trans (and_congr_left fun h0 => ?_)
    exact (hsat m h0 s.clauses).symm
  · intro m hm
    exact (hsat m ((h.means.models m).mp hm).2 s.learnts).mpr (h.means.learnt m hm)

/-! ### Operations on the trail -/

theorem Base.assigns_undef (h : s.Base W) {v : ℕ} :
    s.assigns v = .undef ↔ ∀ p ∈ s.trail, p.var ≠ v := by
  have hval : s.value ⟨v, false⟩ = .undef ↔ s.assigns v = .undef := by
    simp only [value]
    cases s.assigns v <;> simp [LBool.xor, LBool.ofBool]
  constructor
  · intro hv
    exact h.var_ne_of_undef (hval.mpr hv)
  · intro hv
    exact hval.mp (h.value_undef.mpr ⟨fun hm => hv _ hm rfl, fun hm => hv _ hm rfl⟩)

theorem Extends.assumptions_eq (h : s.Extends t) : t.assumptions = s.assumptions :=
  (congrArg Core.assumptions h.frame_eq : t.frame.assumptions = s.frame.assumptions)

theorem Bounded.of_extends {W' : Lit → List Watcher} (h : s.Bounded) (hs : s.Base W)
    (ht : t.Base W') (hext : s.Extends t) : t.Bounded := by
  have hheap : t.orderHeap = s.orderHeap :=
    (congrArg orderHeap hext.frame_eq : t.frame.orderHeap = s.frame.orderHeap)
  have hnVars : t.nVars = s.nVars :=
    (congrArg nVars hext.frame_eq : t.frame.nVars = s.frame.nVars)
  have husable : ∀ v, t.Usable v ↔ s.Usable v := fun v =>
    (Eq.to_iff (congrArg (fun u => u.Usable v) hext.frame_eq) : t.frame.Usable v ↔ _)
  refine ⟨?_, ?_, ?_, ?_, ?_⟩
  · intro v hv hu
    rw [hheap]
    refine h.heap v ((husable v).mp hv) (hs.assigns_undef.mpr fun p hp => ?_)
    exact ht.assigns_undef.mp hu p (hext.trail_subset hp)
  · rw [hheap, hnVars]
    exact h.heap_lt
  · intro cr hcr q hq
    exact (husable _).mpr (h.vars cr (hext.refs_eq ▸ hcr) q ((hext.perm cr).mem_iff.mp hq))
  · intro q hq
    refine (husable _).mpr ?_
    cases hext.derived q hq with
    | base hq => exact h.trail q hq
    | unit hc hqc _ =>
        obtain ⟨cr, hcr, rfl⟩ := mem_db.mp hc
        exact h.vars cr hcr q hqc
  · intro a ha
    exact (husable _).mpr (h.assumptions a (hext.assumptions_eq ▸ ha))

theorem Searching.of_extends {W' : Lit → List Watcher} (h : s.Searching) (hs : s.Base W)
    (ht : t.Base W') (hext : s.Extends t) : t.Searching := by
  have hassumptions := hext.assumptions_eq
  -- a literal without a reason is an old one
  have hold : ∀ p ∈ t.trail, t.reason p.var = none → p ∈ s.trail ∧
      t.level p.var = s.level p.var ∧ s.reason p.var = none := by
    intro p hp hr
    by_cases hps : p ∈ s.trail
    · have hv := hext.old p hps
      exact ⟨hps, congrArg VarData.level hv, (congrArg VarData.reason hv).symm.trans hr⟩
    · exact absurd hr (hext.new p hp hps)
  obtain ⟨ext, he⟩ := hext.trail_eq
  refine ⟨h.toBounded.of_extends hs ht hext, ?_, ?_, ?_⟩
  · intro k p hk hl hr
    obtain ⟨hps, hlev, hr'⟩ := hold p (List.mem_of_getElem? hk) hr
    obtain ⟨k', hk'⟩ := trail_pos hps
    have hk'' : t.trail[k']? = some p := by
      rw [he, List.getElem?_append_left (List.getElem?_eq_some_iff.mp hk').1]
      exact hk'
    obtain rfl := ht.pos_unique hk hk'' rfl
    rw [hext.trailLim_eq]
    exact h.decided k p hk' (hlev ▸ hl) hr'
  · intro p hp hr hl hle
    obtain ⟨hps, hlev, hr'⟩ := hold p hp hr
    rw [hassumptions] at hle ⊢
    exact h.assumed p hps hr' (hlev ▸ hl) (hlev ▸ hle)
  · intro i a hi ha
    rw [hassumptions] at ha
    rw [decisionLevel, hext.trailLim_eq] at hi
    obtain ⟨ha, hle⟩ := h.met i a hi ha
    exact ⟨hext.trail_subset ha, (congrArg VarData.level (hext.old a ha)).trans_le hle⟩

theorem Means.of_extends (h : s.Means F) (hs : s.Base W) (hext : s.Extends t) : t.Means F := by
  have hclauses : t.clauses = s.clauses :=
    (congrArg clauses hext.frame_eq : t.frame.clauses = s.frame.clauses)
  have hlearnts : t.learnts = s.learnts :=
    (congrArg learnts hext.frame_eq : t.frame.learnts = s.frame.learnts)
  have hsat : ∀ (m : Model) (xs : List ℕ), m.Sat (xs.map t.ca) ↔ m.Sat (xs.map s.ca) := by
    intro m xs
    simp only [Satisfies, List.mem_map, forall_exists_index, and_imp, forall_apply_eq_imp_iff₂]
    exact forall₂_congr fun x _ => exists_congr fun q => and_congr_left fun _ =>
      (hext.perm x).mem_iff
  obtain ⟨ext, he⟩ := hext.trail_eq
  -- level 0 grows only by what follows
  have hlevel0 : ∀ m : Model, m.Sat F → m.Meets t.level0 := by
    intro m hm q hq
    cases hlim : s.trailLim with
    | nil =>
        have hs0 : s.level0 = s.trail := by simp [level0, hlim]
        refine h.holds hm (K := ∅) (by simp) ((hext.derived q (level0_subset hq)).mono ?_)
        exact fun x hx => .inl (hs0 ▸ hx)
    | cons lim lims =>
        have hle := hs.lim_le lim (by simp [hlim])
        refine ((h.models m).mp hm).2 q ?_
        rw [level0, hext.trailLim_eq, hlim, List.headD_cons, he,
          List.take_append_of_le_length hle] at hq
        rwa [level0, hlim]
  have hsub : s.level0 ⊆ t.level0 := by
    intro q hq
    cases hlim : s.trailLim with
    | nil =>
        rw [level0, hext.trailLim_eq, hlim, List.headD_nil, List.take_length]
        exact hext.trail_subset (level0_subset hq)
    | cons lim lims =>
        have hle := hs.lim_le lim (by simp [hlim])
        rw [level0, hext.trailLim_eq, hlim, List.headD_cons, he,
          List.take_append_of_le_length hle]
        rwa [level0, hlim] at hq
  refine ⟨fun m => ⟨fun hm => ⟨?_, hlevel0 m hm⟩, ?_⟩, fun m hm => ?_⟩
  · rw [hclauses]
    exact (hsat m _).mpr ((h.models m).mp hm).1
  · rintro ⟨hC, h0⟩
    rw [hclauses] at hC
    exact (h.models m).mpr ⟨(hsat m _).mp hC, fun q hq => h0 q (hsub hq)⟩
  · rw [hlearnts]
    exact (hsat m _).mpr (h.learnt m hm)

/-- The state of a conflict: a clause is false. -/
structure Conflicting (F : Cnf) (s : Core) (cr : ℕ) : Prop where
  base : s.Base s.watches
  searching : s.Searching
  means : s.Means F
  mem : cr ∈ s.refs
  false : ∀ q ∈ s.ca cr, -q ∈ s.trail

/-- **Propagation** keeps what the state stands for. -/
theorem Sound.propagate (h : s.Sound F) :
    (s.propagate.1 = none → s.propagate.2.Sound F) ∧
      ∀ cr, s.propagate.1 = some cr → s.propagate.2.Conflicting F cr := by
  obtain ⟨hext, hbase, -, hinv, hconfl⟩ := h.inv.propagate
  have hsearch := h.searching.of_extends h.inv.toBase hbase hext
  have hmeans := h.means.of_extends h.inv.toBase hext
  exact ⟨fun e => ⟨hinv e, hsearch, hmeans⟩,
    fun cr e => ⟨hbase, hsearch, hmeans, (hconfl cr e).1, (hconfl cr e).2⟩⟩

/-- A conflict at level 0 leaves no model. -/
theorem Conflicting.unsat (h : s.Conflicting F cr) (hdl : s.trailLim = []) : ¬ Satisfiable F := by
  rintro ⟨m, hm⟩
  have h0 : s.level0 = s.trail := by simp [level0, hdl]
  obtain ⟨q, hq, hqm⟩ := h.means.sat_db hm _ (mem_db.mpr ⟨cr, h.mem, rfl⟩)
  exact (Lit.holds_neg m q).mp (((h.means.models m).mp hm).2 _ (h0 ▸ h.false q hq)) hqm

theorem mem_foldl_insertVarOrder {decision : ℕ → Bool} {heap vs : List ℕ} {v : ℕ} :
    v ∈ vs.foldl (insertVarOrder decision) heap ↔ v ∈ heap ∨ v ∈ vs ∧ decision v = true := by
  induction vs generalizing heap with
  | nil => simp
  | cons x vs ih =>
      rw [List.foldl_cons, ih]
      unfold insertVarOrder
      split_ifs with hx
      · simp only [List.mem_cons]
        constructor
        · rintro ((rfl | hv) | ⟨hv, hd⟩)
          · exact .inr ⟨.inl rfl, hx.2⟩
          · exact .inl hv
          · exact .inr ⟨.inr hv, hd⟩
        · rintro (hv | ⟨rfl | hv, hd⟩)
          · exact .inl (.inr hv)
          · exact .inl (.inl rfl)
          · exact .inr ⟨hv, hd⟩
      · simp only [List.mem_cons]
        constructor
        · exact Or.imp_right fun ⟨hv, hd⟩ => ⟨.inr hv, hd⟩
        · rintro (hv | ⟨rfl | hv, hd⟩)
          · exact .inl hv
          · exact .inl (by_contra fun hn => hx ⟨hn, hd⟩)
          · exact .inr ⟨hv, hd⟩

/-- The variables of undone levels can be decided again. -/
theorem Bounded.cancelUntil (h : s.Bounded) (level : ℕ) : (s.cancelUntil level).Bounded := by
  by_cases hl : level < s.decisionLevel
  · have hlim := List.getElem?_eq_getElem hl
    rw [cancelUntil_eq hlim]
    refine ⟨?_, ?_, h.vars, fun q hq => h.trail q (List.mem_of_mem_take hq), h.assumptions⟩
    · intro v hv hu
      refine mem_foldl_insertVarOrder.mpr ?_
      simp only at hu
      split_ifs at hu with hm
      · exact .inr ⟨List.mem_reverse.mpr hm, hv.2⟩
      · exact .inl (h.heap v hv hu)
    · intro v hv
      rcases mem_foldl_insertVarOrder.mp hv with hv | ⟨hv, -⟩
      · exact h.heap_lt v hv
      · obtain ⟨q, hq, rfl⟩ := List.mem_map.mp (List.mem_reverse.mp hv)
        exact (h.trail q (List.mem_of_mem_drop hq)).1
  · rwa [Core.cancelUntil, if_neg hl]

theorem Searching.cancelUntil (h : s.Searching) (hb : s.Base W) (level : ℕ) :
    (s.cancelUntil level).Searching := by
  have hbounded := h.toBounded.cancelUntil level
  by_cases hl : level < s.decisionLevel
  · have hlim := List.getElem?_eq_getElem hl
    set lim := s.trailLim[level] with hlimdef
    rw [cancelUntil_eq hlim] at hbounded ⊢
    have hpos : ∀ k p, (s.trail.take lim)[k]? = some p → s.trail[k]? = some p ∧ k < lim := by
      intro k p hk
      have hlt := (List.getElem?_eq_some_iff.mp hk).1
      rw [List.length_take, Nat.lt_min] at hlt
      exact ⟨by rwa [List.getElem?_take_of_lt hlt.1] at hk, hlt.1⟩
    refine ⟨hbounded, ?_, ?_, ?_⟩
    · intro k p hk hlev hr
      obtain ⟨hk, hlt⟩ := hpos k p hk
      have hmem := h.decided k p hk hlev hr
      rw [← List.take_append_drop level s.trailLim, List.mem_append] at hmem
      refine hmem.resolve_right fun hd => ?_
      have := List.countP_eq_zero.mp (hb.countP_drop hlim hlt) k hd
      simp at this
    · exact fun p hp => h.assumed p (List.mem_of_mem_take hp)
    · intro i a hi ha
      rw [decisionLevel, List.length_take, Nat.lt_min] at hi
      obtain ⟨ha, hle⟩ := h.met i a hi.2 ha
      obtain ⟨k, hk⟩ := trail_pos ha
      refine ⟨(hb.mem_take hk).mpr ((hb.level_lt_iff hk hlim).mp ?_), hle⟩
      omega
  · rwa [Core.cancelUntil, if_neg hl]

theorem Means.cancelUntil (h : s.Means F) (hb : s.Base W) (level : ℕ) :
    (s.cancelUntil level).Means F := by
  have h0 := hb.level0_cancelUntil level
  have hc : (s.cancelUntil level).clauses = s.clauses ∧ (s.cancelUntil level).learnts = s.learnts ∧
      (s.cancelUntil level).ca = s.ca := by
    unfold Core.cancelUntil
    split_ifs <;> exact ⟨rfl, rfl, rfl⟩
  refine ⟨fun m => ?_, fun m hm => ?_⟩
  · rw [hc.1, hc.2.2, h0]
    exact h.models m
  · rw [hc.2.1, hc.2.2]
    exact h.learnt m hm

theorem Sound.cancelUntil (h : s.Sound F) (level : ℕ) : (s.cancelUntil level).Sound F := by
  refine ⟨?_, h.searching.cancelUntil h.inv.toBase level, h.means.cancelUntil h.inv.toBase level⟩
  by_cases hl : level < s.decisionLevel
  · exact h.inv.toBase.cancelUntil hl
  · rw [Core.cancelUntil, if_neg hl]
    exact h.inv

theorem Inv.uncheckedEnqueue (h : s.Inv) {from' : Option ℕ} (hp : s.value p = .undef)
    (hfrom : ∀ cr, from' = some cr →
      cr ∈ s.refs ∧ ∃ rest, s.ca cr = p :: rest ∧ ∀ q ∈ rest, -q ∈ s.trail) :
    (s.uncheckedEnqueue p from').Inv := by
  have hle : s.trail.length ≤ (s.uncheckedEnqueue p from').trail.length := by
    simp [Core.uncheckedEnqueue]
  refine ⟨h.toBase.uncheckedEnqueue hp hfrom, h.qhead_le.trans hle, ?_⟩
  intro cr hcr q hq hf
  obtain ⟨b, hb, hbt⟩ := h.processed cr hcr q hq
    (by rwa [Core.uncheckedEnqueue, List.take_append_of_le_length h.qhead_le] at hf)
  exact ⟨b, hb, List.mem_append_left _ hbt⟩

theorem Bounded.uncheckedEnqueue (h : s.Bounded) (hu : s.Usable p.var) (from' : Option ℕ) :
    (s.uncheckedEnqueue p from').Bounded := by
  refine ⟨fun v hv hv' => h.heap v hv ?_, h.heap_lt, h.vars, ?_, h.assumptions⟩
  · by_cases e : v = p.var
    · subst e
      simp only [Core.uncheckedEnqueue, Function.update_self] at hv'
      cases hs : p.sign <;> simp [hs, LBool.ofBool] at hv'
    · exact (Function.update_of_ne e ..).symm.trans hv'
  · exact List.forall_mem_append.mpr ⟨h.trail, fun q hq => List.mem_singleton.mp hq ▸ hu⟩

/-- A literal is enqueued: with a reason, at level 0, or as the decision of its level. -/
theorem Searching.uncheckedEnqueue (h : s.Searching) (hb : s.Base W) {from' : Option ℕ}
    (hp : s.value p = .undef) (hu : s.Usable p.var)
    (hdec : from' = none → 0 < s.decisionLevel → s.trail.length ∈ s.trailLim ∧
      (s.decisionLevel ≤ s.assumptions.length → p ∈ s.assumptions)) :
    (s.uncheckedEnqueue p from').Searching := by
  have hvar := hb.var_ne_of_undef hp
  have hself : (s.uncheckedEnqueue p from').vardata p.var = ⟨from', s.decisionLevel⟩ :=
    Function.update_self ..
  have hother : ∀ q ∈ s.trail, (s.uncheckedEnqueue p from').vardata q.var = s.vardata q.var :=
    fun q hq => Function.update_of_ne (hvar q hq) ..
  refine ⟨h.toBounded.uncheckedEnqueue hu from', ?_, ?_, ?_⟩
  · intro k q hk hl hr
    rw [level] at hl
    rw [reason] at hr
    rcases lt_or_ge k s.trail.length with hlt | hge
    · rw [Core.uncheckedEnqueue, List.getElem?_append_left hlt] at hk
      rw [hother q (List.mem_of_getElem? hk)] at hl hr
      exact h.decided k q hk hl hr
    · rw [Core.uncheckedEnqueue, List.getElem?_append_right hge] at hk
      obtain ⟨hz, he⟩ := List.getElem?_eq_some_iff.mp hk
      simp only [List.length_singleton, Nat.lt_one_iff] at hz
      obtain rfl : q = p := by simpa [hz] using he.symm
      rw [hself] at hl hr
      have hk' : k = s.trail.length := by omega
      exact hk' ▸ (hdec hr hl).1
  · intro q hq hr hl hle
    rw [level] at hl hle
    rw [reason] at hr
    rcases List.mem_append.mp hq with hq | hq
    · rw [hother q hq] at hl hr hle
      exact h.assumed q hq hr hl hle
    · obtain rfl := List.mem_singleton.mp hq
      rw [hself] at hl hr hle
      exact (hdec hr hl).2 hle
  · intro i a hi ha
    obtain ⟨ha, hle⟩ := h.met i a hi ha
    exact ⟨List.mem_append_left _ ha, (congrArg VarData.level (hother a ha)).trans_le hle⟩

/-- The next level has a literal of its own, an assumption if there is one for the level. -/
theorem Sound.decide (h : s.Sound F) (hq : s.qhead = s.trail.length) (hp : s.value p = .undef)
    (hu : s.Usable p.var) (ha : ∀ a, s.assumptions[s.decisionLevel]? = some a → a = p) :
    (s.newDecisionLevel.uncheckedEnqueue p none).Sound F := by
  have hinv := h.inv.newDecisionLevel hq
  have h0 : (s.newDecisionLevel.uncheckedEnqueue p none).level0 = s.level0 := by
    refine Eq.trans ?_ (level0_newDecisionLevel s)
    unfold level0 Core.uncheckedEnqueue newDecisionLevel
    cases hl : s.trailLim with
    | nil => simp
    | cons m ms =>
        have hm := h.inv.lim_le m (by simp [hl])
        simp [List.take_append_of_le_length hm]
  refine ⟨hinv.uncheckedEnqueue hp (by simp), ?_, fun m => ?_, h.means.learnt⟩
  · have hvar := hinv.toBase.var_ne_of_undef hp
    have hself : (s.newDecisionLevel.uncheckedEnqueue p none).vardata p.var =
        ⟨none, s.decisionLevel + 1⟩ := by
      simp [Core.uncheckedEnqueue, newDecisionLevel, decisionLevel]
    have hother : ∀ q ∈ s.trail,
        (s.newDecisionLevel.uncheckedEnqueue p none).vardata q.var = s.vardata q.var :=
      fun q hq => Function.update_of_ne (hvar q hq) ..
    -- the invariant for the new level alone fails until its assumption is enqueued
    have hs : s.Searching := h.searching
    have hbounded : s.newDecisionLevel.Bounded := { hs.toBounded with }
    refine ⟨hbounded.uncheckedEnqueue hu none, ?_, ?_, ?_⟩
    · intro k q hk hl hr
      rw [level] at hl
      rw [reason] at hr
      rcases lt_or_ge k s.trail.length with hlt | hge
      · rw [Core.uncheckedEnqueue, newDecisionLevel, List.getElem?_append_left hlt] at hk
        rw [hother q (List.mem_of_getElem? hk)] at hl hr
        exact List.mem_append_left _ (hs.decided k q hk hl hr)
      · have hlt := (List.getElem?_eq_some_iff.mp hk).1
        simp only [Core.uncheckedEnqueue, newDecisionLevel, List.length_append,
          List.length_singleton] at hlt
        have hk' : k = s.trail.length := by omega
        exact List.mem_append_right _ (List.mem_singleton.mpr hk')
    · intro q hq hr hl hle
      rw [level] at hl hle
      rw [reason] at hr
      rcases List.mem_append.mp hq with hq | hq
      · rw [hother q hq] at hl hr hle
        exact hs.assumed q hq hr hl hle
      · obtain rfl := List.mem_singleton.mp hq
        rw [hself] at hle
        change s.decisionLevel + 1 ≤ s.assumptions.length at hle
        have hget := List.getElem?_eq_getElem (show s.decisionLevel < s.assumptions.length from hle)
        exact ha _ hget ▸ List.mem_of_getElem? hget
    · intro i a hi hia
      simp only [Core.uncheckedEnqueue, newDecisionLevel, decisionLevel, List.length_append,
        List.length_singleton] at hi
      rcases Nat.lt_succ_iff_lt_or_eq.mp hi with hi | rfl
      · obtain ⟨ha, hle⟩ := hs.met i a hi hia
        exact ⟨List.mem_append_left _ ha, (congrArg VarData.level (hother a ha)).trans_le hle⟩
      · obtain rfl := ha a hia
        refine ⟨List.mem_append_right _ (List.mem_singleton_self a), ?_⟩
        rw [level, hself]
        rfl
  · rw [h0]
    exact h.means.models m

/-- A dummy level, for an assumption that is true already. -/
theorem Sound.dummy (h : s.Sound F) (hq : s.qhead = s.trail.length)
    (ha : ∀ a, s.assumptions[s.decisionLevel]? = some a → a ∈ s.trail) :
    s.newDecisionLevel.Sound F := by
  have hs := h.searching
  refine ⟨h.inv.newDecisionLevel hq, { hs with decided := ?_, met := ?_ }, fun m => ?_,
    h.means.learnt⟩
  · exact fun k p hk hl hr => List.mem_append_left _ (hs.decided k p hk hl hr)
  · intro i a hi hia
    simp only [newDecisionLevel, decisionLevel, List.length_append, List.length_singleton] at hi
    rcases Nat.lt_succ_iff_lt_or_eq.mp hi with hi | rfl
    · exact hs.met i a hi hia
    · have hat := ha a hia
      exact ⟨hat, (h.inv.toBase.level_le hat).trans (Nat.le_succ _)⟩
  · rw [level0_newDecisionLevel]
    exact h.means.models m

/-! ### Learnt clauses -/

theorem Searching.pushClause (h : s.Searching) (hinv : s.Inv) (learnt : Bool)
    (hc : ∀ q ∈ c, s.Usable q.var) : (s.pushClause learnt c).Searching := by
  have hrefs := refs_pushClause s learnt c
  have hvars : ∀ cr ∈ (s.pushClause learnt c).refs, ∀ q ∈ (s.pushClause learnt c).ca cr,
      s.Usable q.var := by
    intro cr hcr q hq
    rw [pushClause_eq] at hq
    rcases List.mem_cons.mp (hrefs.mem_iff.mp hcr) with rfl | hcr
    · exact hc q (by simpa using hq)
    · have hne : cr ≠ s.size := (hinv.refs_lt cr hcr).ne
      exact h.vars cr hcr q (by simpa [hne] using hq)
  rw [pushClause_eq] at hvars ⊢
  exact { h with vars := hvars }

/-- The old clauses are still there. -/
theorem map_ca_pushClause (xs : List ℕ) (hinv : s.Inv) (learnt : Bool) (c : Clause)
    (hxs : ∀ x ∈ xs, x ∈ s.refs) : xs.map (s.pushClause learnt c).ca = xs.map s.ca := by
  refine List.map_congr_left fun x hx => ?_
  rw [pushClause_eq]
  exact Function.update_of_ne (hinv.refs_lt x (hxs x hx)).ne ..

theorem level0_pushClause (s : Core) (learnt : Bool) (c : Clause) :
    (s.pushClause learnt c).level0 = s.level0 := by
  rw [pushClause_eq]
  rfl

theorem Means.pushLearnt (h : s.Means F) (hinv : s.Inv)
    (hc : ∀ m : Model, m.Sat F → ∃ q ∈ c, q.Holds m) : (s.pushClause true c).Means F := by
  have hclauses := map_ca_pushClause s.clauses hinv true c
    fun x hx => List.mem_append_left _ hx
  have hlearnts := map_ca_pushClause s.learnts hinv true c
    fun x hx => List.mem_append_right _ hx
  have heq := pushClause_eq s true c
  have hcl : (s.pushClause true c).clauses = s.clauses := by rw [heq]; rfl
  have hle : (s.pushClause true c).learnts = s.learnts ++ [s.size] := by rw [heq]; rfl
  have hself : (s.pushClause true c).ca s.size = c := by
    rw [heq]
    exact Function.update_self ..
  refine ⟨fun m => ?_, fun m hm => ?_⟩
  · rw [hcl, hclauses, level0_pushClause]
    exact h.models m
  · rw [hle, List.map_append, hlearnts, List.map_singleton, hself]
    exact List.forall_mem_append.mpr ⟨h.learnt m hm, by simpa using hc m hm⟩

/-- Level 0 gets a literal that is true in every model. -/
theorem Means.enqueue0 (h : s.Means F) (hdl : s.trailLim = []) {from' : Option ℕ}
    (hp : ∀ m : Model, m.Sat F → p.Holds m) : (s.uncheckedEnqueue p from').Means F := by
  have h0 : s.level0 = s.trail := by simp [level0, hdl]
  have h0' : (s.uncheckedEnqueue p from').level0 = s.trail ++ [p] := by
    simp [level0, Core.uncheckedEnqueue, hdl, List.take_of_length_le]
  refine ⟨fun m => ⟨fun hm => ?_, ?_⟩, h.learnt⟩
  · refine ⟨((h.models m).mp hm).1, ?_⟩
    rw [h0', ← h0, Model.meets_append]
    exact ⟨((h.models m).mp hm).2, by simpa [Model.Meets] using hp m hm⟩
  · rintro ⟨hC, hT⟩
    rw [h0', ← h0, Model.meets_append] at hT
    exact (h.models m).mpr ⟨hC, hT.1⟩

/-- Above level 0 it changes nothing. -/
theorem Means.enqueue (h : s.Means F) (hb : s.Base W) (hdl : s.trailLim ≠ [])
    {from' : Option ℕ} : (s.uncheckedEnqueue p from').Means F := by
  obtain ⟨lim, lims, hlims⟩ := List.exists_cons_of_ne_nil hdl
  have hlim := hb.lim_le lim (by simp [hlims])
  have h0 : (s.uncheckedEnqueue p from').level0 = s.level0 := by
    simp [level0, Core.uncheckedEnqueue, hlims, List.take_append_of_le_length hlim]
  refine ⟨fun m => ?_, h.learnt⟩
  rw [h0]
  exact h.models m

/-- **Learning.**  Back on the level that `analyze` has found, the asserting literal is unassigned
and follows from the learnt clause. -/
theorem Conflicting.learn (h : s.Conflicting F cr) {bt : ℕ} (hL : s.Learnt c bt) :
    ((s.cancelUntil bt).learn c).Sound F := by
  obtain ⟨⟨p, rest, rfl, hp, hplev, hrest, hnil, hcons⟩, hlt, hdist, hconfl⟩ := hL
  have himp : ∀ m : Model, m.Sat F → ∃ q ∈ -p :: rest, q.Holds m := fun m hm =>
    h.means.implied hm hconfl
  have hlim := List.getElem?_eq_getElem hlt
  set lim := s.trailLim[bt] with hlimdef
  have hb := h.base
  have hinv : (s.cancelUntil bt).Inv := hb.cancelUntil hlt
  have hsearch := h.searching.cancelUntil hb bt
  have hmeans := h.means.cancelUntil hb bt
  have htrail : (s.cancelUntil bt).trail = s.trail.take lim := by rw [cancelUntil_eq hlim]
  have hlims : (s.cancelUntil bt).trailLim = s.trailLim.take bt := by rw [cancelUntil_eq hlim]
  have husable : ∀ v, (s.cancelUntil bt).Usable v ↔ s.Usable v := fun v => by
    rw [cancelUntil_eq hlim]
    rfl
  -- a literal stays exactly if its level does
  have hstay : ∀ x ∈ s.trail, x ∈ (s.cancelUntil bt).trail ↔ s.level x.var ≤ bt := by
    intro x hx
    obtain ⟨k, hk⟩ := trail_pos hx
    rw [htrail, hb.mem_take hk, hb.level_lt_iff hk hlim]
  set u := s.cancelUntil bt with hu
  have hpu : u.value (-p) = .undef := by
    refine hinv.toBase.value_undef.mpr ⟨fun hm => ?_, fun hm => ?_⟩
    · rw [htrail] at hm
      exact hb.consistent hp (List.mem_of_mem_take hm)
    · rw [neg_neg] at hm
      have := (hstay p hp).mp hm
      omega
  have hpuse : u.Usable (-p).var := (husable _).mpr (h.searching.trail p hp)
  match rest, hrest, hnil, hcons with
  | [], _, hnil, _ =>
      -- a unit clause: everything is undone
      obtain rfl := hnil rfl
      have hdl : u.trailLim = [] := by simp [hlims]
      refine ⟨hinv.uncheckedEnqueue hpu (by simp),
        hsearch.uncheckedEnqueue hinv.toBase hpu hpuse fun _ hpos => ?_,
        hmeans.enqueue0 hdl fun m hm => by simpa using himp m hm⟩
      simp [decisionLevel, hdl] at hpos
  | q :: r, hrest, _, hcons =>
      have hqlev : s.level q.var = bt := hcons q r rfl
      obtain ⟨hqt, hqpos, -⟩ := hrest q List.mem_cons_self
      have hdl : u.trailLim ≠ [] := by
        rw [hlims]
        intro e
        have := congrArg List.length e
        simp only [List.length_take, List.length_nil] at this
        simp only [decisionLevel] at hlt
        omega
      have hfalse : ∀ x ∈ q :: r, -x ∈ u.trail := fun x hx =>
        (hstay _ (hrest x hx).1).mpr (hrest x hx).2.2
      have huse : ∀ x ∈ -p :: q :: r, u.Usable x.var := by
        intro x hx
        rcases List.mem_cons.mp hx with rfl | hx
        · exact hpuse
        · exact hsearch.trail (-x) (hfalse x hx)
      have hpush : (u.pushClause true (-p :: q :: r)).Base
          (u.pushClause true (-p :: q :: r)).watches := by
        refine hinv.toBase.pushClause true rfl hdist fun n hn hor => ?_
        exfalso
        rcases hor with hm | hm
        · rw [neg_neg] at hm
          exact (hinv.toBase.value_undef.mp hpu).2 (by rw [neg_neg]; exact List.mem_of_mem_take hm)
        · -- the level of the second literal is the present one
          obtain ⟨k, hk⟩ := trail_pos (hfalse q List.mem_cons_self)
          have hkn := (hinv.toBase.mem_take hk).mp hm
          obtain ⟨i, hi⟩ := List.mem_iff_getElem?.mp hn
          have hle := (hinv.toBase.level_lt_iff hk hi).mpr hkn
          have hlen := (List.getElem?_eq_some_iff.mp hi).1
          rw [hlims, List.length_take] at hlen
          have hlev : u.level (-q).var = s.level q.var := by
            rw [hu, cancelUntil_eq hlim]
            rfl
          omega
      have heq := pushClause_eq u true (-p :: q :: r)
      have hself : (u.pushClause true (-p :: q :: r)).ca u.size = -p :: q :: r := by
        rw [heq]
        exact Function.update_self ..
      have hmem : u.size ∈ (u.pushClause true (-p :: q :: r)).refs :=
        (refs_pushClause ..).mem_iff.mpr List.mem_cons_self
      have htr : (u.pushClause true (-p :: q :: r)).trail = u.trail := by rw [heq]
      have hq : (u.pushClause true (-p :: q :: r)).qhead = u.qhead := by rw [heq]
      have hval : (u.pushClause true (-p :: q :: r)).value (-p) = .undef := by
        rw [heq]
        exact hpu
      have hdl' : (u.pushClause true (-p :: q :: r)).trailLim ≠ [] := by
        rw [heq]
        exact hdl
      have hfrom : ∀ x, some u.size = some x → x ∈ (u.pushClause true (-p :: q :: r)).refs ∧
          ∃ rest, (u.pushClause true (-p :: q :: r)).ca x = -p :: rest ∧
            ∀ y ∈ rest, -y ∈ (u.pushClause true (-p :: q :: r)).trail := by
        rintro x ⟨⟩
        exact ⟨hmem, q :: r, hself, htr ▸ hfalse⟩
      have hmeans' := hmeans.pushLearnt hinv himp
      have hsearch' := hsearch.pushClause hinv true huse
      refine ⟨⟨hpush.uncheckedEnqueue hval hfrom, ?_, ?_⟩,
        hsearch'.uncheckedEnqueue hpush hval (by rw [heq]; exact hpuse) (by simp),
        hmeans'.enqueue hpush hdl'⟩
      · change (u.pushClause true (-p :: q :: r)).qhead ≤
          ((u.pushClause true (-p :: q :: r)).trail ++ [-p]).length
        rw [hq, htr, List.length_append]
        exact hinv.qhead_le.trans (Nat.le_add_right ..)
      · intro x hx y hy hf
        change -y ∈ ((u.pushClause true (-p :: q :: r)).trail ++ [-p]).take
          (u.pushClause true (-p :: q :: r)).qhead at hf
        change ∃ b ∈ (u.pushClause true (-p :: q :: r)).ca x,
          b ∈ (u.pushClause true (-p :: q :: r)).trail ++ [-p]
        rw [htr]
        rw [hq, htr, List.take_append_of_le_length hinv.qhead_le] at hf
        rcases List.mem_cons.mp ((refs_pushClause ..).mem_iff.mp hx) with rfl | hx
        · exact ⟨-p, by simp [hself], by simp⟩
        · have hca : (u.pushClause true (-p :: q :: r)).ca x = u.ca x := by
            rw [heq]
            exact Function.update_of_ne (hinv.refs_lt x hx).ne ..
          have hy' : y ∈ (u.ca x).take 2 := by rw [← hca]; exact hy
          obtain ⟨b, hb, hbt⟩ := hinv.processed x hx y hy' hf
          exact ⟨b, hca ▸ hb, List.mem_append_left _ hbt⟩

/-! ### Satisfied clauses -/

/-- The invariant between two calls: level 0, with everything propagated. -/
structure Clean (F : Cnf) (s : Core) : Prop extends Sound F s where
  qhead_eq : s.qhead = s.trail.length
  trailLim_eq : s.trailLim = []

theorem Base.level_eq_zero (h : s.Base W) (hdl : s.trailLim = []) (hp : p ∈ s.trail) :
    s.level p.var = 0 := by
  have := h.level_le hp
  simpa [decisionLevel, hdl] using this

/-- **The loop of `removeSatisfied`**, behind the clauses `pre`. -/
theorem Clean.removeSatisfied_foldl {learnt : Bool} {cs : List ℕ} (pre : List ℕ)
    (h : (t.setList learnt (pre ++ cs)).Clean F) :
    ((cs.foldl removeSatisfiedStep (t, pre)).1.setList learnt
      (cs.foldl removeSatisfiedStep (t, pre)).2).Clean F := by
  induction cs generalizing t pre with
  | nil => simpa using h
  | cons cr cs ih =>
      have hb : (t.setList learnt (pre ++ cr :: cs)).Base t.watches := h.inv.toBase
      have h0 : t.level0 = t.trail := by
        rw [level0, show t.trailLim = [] from h.trailLim_eq]
        simp
      rw [List.foldl_cons]
      unfold removeSatisfiedStep
      split_ifs with hs
      · refine ih _ ⟨h.toSound.dropRef (fun p hp _ => hb.level_eq_zero h.trailLim_eq hp)
          fun _ => ?_, ?_, ?_⟩
        · obtain ⟨q, hq, hv⟩ := List.any_eq_true.mp hs
          exact ⟨q, hq, h0 ▸ hb.value_iff.mp (of_decide_eq_true hv)⟩
        · have := h.qhead_eq
          rw [removeClause_eq]
          exact this
        · have := h.trailLim_eq
          rw [removeClause_eq]
          exact this
      · have hs' : t.satisfied (t.ca cr) = false := by simpa using hs
        have hmem : cr ∈ pre ++ cr :: cs := List.mem_append_right _ List.mem_cons_self
        have htrim := h.toSound.trim h.qhead_eq h.trailLim_eq hmem hs'
        have hcr : cr ∈ (t.setList learnt (pre ++ cr :: cs)).refs :=
          (mem_refs_setList ..).mpr (.inl (by simp))
        obtain ⟨a, b, rest, rest', -, ht, -⟩ := trim_eq (s := t) (h.inv.shape cr hcr).1
        rw [List.append_cons] at htrim
        refine ih _ ⟨htrim, ?_, ?_⟩
        · rw [ht]
          exact h.qhead_eq
        · rw [ht]
          exact h.trailLim_eq

theorem Clean.removeSatisfied (h : s.Clean F) (learnt : Bool) :
    (s.removeSatisfied learnt).Clean F := by
  refine Clean.removeSatisfied_foldl [] ?_
  cases learnt <;> exact h

/-! ### Original clauses -/

theorem Sound.with_ok (h : s.Sound F) (ok : Bool) : Sound F { s with ok := ok } where
  inv :=
    { h.inv with
      wf := h.inv.wf.of_trail rfl rfl }
  searching := { h.searching with }
  means := { h.means with }

theorem Means.congr {G : Cnf} (h : s.Means F) (hFG : ∀ m : Model, m.Sat G ↔ m.Sat F) :
    s.Means G :=
  ⟨fun m => (hFG m).trans (h.models m), fun m hm => h.learnt m ((hFG m).mp hm)⟩

theorem sat_append_singleton {G : Cnf} {d : Clause} :
    m.Sat (G ++ [d]) ↔ m.Sat G ∧ ∃ q ∈ d, q.Holds m := by
  simp [Satisfies, or_imp, forall_and]

/-- One more clause, of which `c` is left at level 0. -/
theorem Means.pushOriginal (h : s.Means F) (hinv : s.Inv) {ps : Clause}
    (hc : ∀ m : Model, m.Meets s.level0 → ((∃ q ∈ ps, q.Holds m) ↔ ∃ q ∈ c, q.Holds m)) :
    (s.pushClause false c).Means (F ++ [ps]) := by
  have hclauses := map_ca_pushClause s.clauses hinv false c
    fun x hx => List.mem_append_left _ hx
  have hlearnts := map_ca_pushClause s.learnts hinv false c
    fun x hx => List.mem_append_right _ hx
  have heq := pushClause_eq s false c
  have hcl : (s.pushClause false c).clauses = s.clauses ++ [s.size] := by rw [heq]; rfl
  have hle : (s.pushClause false c).learnts = s.learnts := by rw [heq]; rfl
  have hself : (s.pushClause false c).ca s.size = c := by
    rw [heq]
    exact Function.update_self ..
  refine ⟨fun m => ?_, fun m hm => ?_⟩
  · rw [hcl, List.map_append, hclauses, List.map_singleton, hself, level0_pushClause,
      sat_append_singleton, sat_append_singleton, h.models m, and_assoc, and_assoc]
    refine and_congr_right fun _ => ?_
    constructor
    · rintro ⟨h0, hps⟩
      exact ⟨(hc m h0).mp hps, h0⟩
    · rintro ⟨hps, h0⟩
      exact ⟨h0, (hc m h0).mpr hps⟩
  · rw [hle, hlearnts]
    exact h.learnt m (sat_append_singleton.mp hm).1

/-- What `addClause_` makes of a state. -/
structure Adds (F : Cnf) (ps : Clause) (s : Core) (r : Bool × Core) : Prop where
  flag : r.1 = r.2.ok
  usable : ∀ v, r.2.Usable v ↔ s.Usable v
  clean : r.2.ok = true → r.2.Clean (F ++ [ps])
  unsat : r.2.ok = false → ¬ Satisfiable (F ++ [ps])

/-- **Adding a clause** keeps the solver's meaning exact, or finds a contradiction. -/
theorem Clean.addClause_ (h : s.Clean F) (hok : s.ok = true) {ps : Clause}
    (hps : ∀ p ∈ ps, s.Usable p.var) : s.Adds F ps (s.addClause_ ps) := by
  have hwf : s.abs.Wf := h.inv.wf
  have h0 : s.level0 = s.abs.trail := by
    rw [level0, h.trailLim_eq]
    exact List.take_length
  rcases hk : s.abs.keepLits none (Solver.sortLits ps) with _ | _ | ⟨p, _ | ⟨b, c⟩⟩
  case none =>
      -- the clause is true already
      simp only [Core.addClause_, hok, hk]
      refine ⟨hok.symm, fun _ => .rfl, fun _ => ⟨⟨h.inv, h.searching, h.means.congr fun m => ?_⟩,
        h.qhead_eq, h.trailLim_eq⟩, fun e => by simp [hok] at e⟩
      rw [sat_append_singleton, and_iff_left_iff_imp]
      intro hm
      exact hwf.holds_of_keepLits_none (h0 ▸ ((h.means.models m).mp hm).2) hk
  case some.nil =>
      simp only [Core.addClause_, hok, hk]
      refine ⟨rfl, fun _ => .rfl, fun e => by simp at e, ?_⟩
      rintro - ⟨m, hm⟩
      obtain ⟨hm, hmps⟩ := sat_append_singleton.mp hm
      have := (hwf.holds_keepLits (h0 ▸ ((h.means.models m).mp hm).2) hk).mp hmps
      simp at this
  case some.cons.nil =>
      simp only [Core.addClause_, hok, hk]
      obtain ⟨hmem, hundef⟩ := (Solver.keepLits_some hk).1 p (by simp)
      have hp : s.value p = .undef := hundef
      have huse := hps p (Solver.mem_sortLits.mp hmem)
      have hinv : (s.uncheckedEnqueue p none).Inv := h.inv.uncheckedEnqueue hp (by simp)
      have hholds : ∀ m : Model, m.Sat F → ((∃ q ∈ ps, q.Holds m) ↔ p.Holds m) := fun m hm => by
        rw [hwf.holds_keepLits (h0 ▸ ((h.means.models m).mp hm).2) hk]
        simp
      have hsound : (s.uncheckedEnqueue p none).Sound (F ++ [ps]) := by
        refine ⟨hinv, h.searching.uncheckedEnqueue h.inv.toBase hp huse fun _ hpos => ?_,
          fun m => ?_, fun m hm => h.means.learnt m (sat_append_singleton.mp hm).1⟩
        · simp [decisionLevel, h.trailLim_eq] at hpos
        · have h0' : (s.uncheckedEnqueue p none).level0 = s.level0 ++ [p] := by
            simp [level0, Core.uncheckedEnqueue, h.trailLim_eq, List.take_of_length_le]
          rw [sat_append_singleton, h0', Model.meets_append]
          constructor
          · rintro ⟨hm, hmps⟩
            obtain ⟨hC, hT⟩ := (h.means.models m).mp hm
            exact ⟨hC, hT, by simpa [Model.Meets] using (hholds m hm).mp hmps⟩
          · rintro ⟨hC, hT, hpm⟩
            have hm := (h.means.models m).mpr ⟨hC, hT⟩
            exact ⟨hm, (hholds m hm).mpr (hpm p (by simp))⟩
      obtain ⟨hnone, hsome⟩ := hsound.propagate
      obtain ⟨hext, -, hq, -, -⟩ := hinv.propagate
      set r := (s.uncheckedEnqueue p none).propagate
      have hlim : r.2.trailLim = [] := hext.trailLim_eq.trans h.trailLim_eq
      refine ⟨rfl, fun v => ?_, fun e => ⟨(hnone (by simpa using e)).with_ok _, hq, hlim⟩,
        fun e => ?_⟩
      · exact (Eq.to_iff (congrArg (fun u => u.Usable v) hext.frame_eq) : r.2.frame.Usable v ↔ _)
      · obtain ⟨cr, hcr⟩ := Option.isSome_iff_exists.mp (by simpa using e : r.1.isSome = true)
        exact (hsome cr hcr).unsat hlim
  case some.cons.cons =>
      simp only [Core.addClause_, hok, hk]
      have hkeep := (Solver.keepLits_some hk).1
      have hdist := (Solver.keepLits_distinct (Solver.sorted_sortLits ps) (by rintro l ⟨⟩) hk).1
      have huse : ∀ q ∈ p :: b :: c, s.Usable q.var := fun q hq =>
        hps q (Solver.mem_sortLits.mp (hkeep q hq).1)
      have heq := pushClause_eq s false (p :: b :: c)
      have hbase : (s.pushClause false (p :: b :: c)).Base
          (s.pushClause false (p :: b :: c)).watches :=
        h.inv.toBase.pushClause false rfl hdist (by simp [h.trailLim_eq])
      have hself : (s.pushClause false (p :: b :: c)).ca s.size = p :: b :: c := by
        rw [heq]
        exact Function.update_self ..
      have htr : (s.pushClause false (p :: b :: c)).trail = s.trail := by rw [heq]
      have hq : (s.pushClause false (p :: b :: c)).qhead = s.qhead := by rw [heq]
      have hclean : (s.pushClause false (p :: b :: c)).Clean (F ++ [ps]) := by
        refine ⟨⟨⟨hbase, ?_, ?_⟩, h.searching.pushClause h.inv false huse,
          h.means.pushOriginal h.inv fun m hm => hwf.holds_keepLits (h0 ▸ hm) hk⟩, ?_, ?_⟩
        · rw [hq, htr]
          exact h.inv.qhead_le
        · intro x hx y hy hf
          rw [hq, htr] at hf
          rw [htr]
          rcases List.mem_cons.mp ((refs_pushClause ..).mem_iff.mp hx) with rfl | hx
          · -- the literals of the new clause are unassigned
            rw [hself] at hy
            have hv := (hkeep y (List.mem_of_mem_take hy)).2
            exact absurd (List.mem_of_mem_take hf) (hwf.value_undef.mp hv).2
          · have hca : (s.pushClause false (p :: b :: c)).ca x = s.ca x := by
              rw [heq]
              exact Function.update_of_ne (h.inv.refs_lt x hx).ne ..
            rw [hca] at hy ⊢
            exact h.inv.processed x hx y hy hf
        · rw [hq, htr]
          exact h.qhead_eq
        · rw [heq]
          exact h.trailLim_eq
      have hok' : (s.pushClause false (p :: b :: c)).ok = true := by
        rw [heq]
        exact hok
      refine ⟨hok'.symm, fun v => ?_, fun _ => hclean, fun e => by simp [hok'] at e⟩
      rw [heq]
      rfl

end Core

end Parsat.Minisat
