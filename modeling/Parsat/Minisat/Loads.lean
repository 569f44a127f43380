import Parsat.Minisat.Eliminate

/-!
# Minisat — whole runs of simplification

Clauses are added, subsumed, and replaced by resolvents in any order: in whatever order the loop of
`eliminate` takes the variables, and whenever more clauses come.

* `Stands`: the clauses that are there stand for those that were added, up to the eliminated
  variables, and the stack gives these their values.
* `Loads.subsumed`: a round of subsumption ends and leaves nothing to subsume.
* `Loads.eliminated`: the elimination of a variable ends and loses nothing.
-/

namespace Parsat.Minisat

open UnitProp

namespace Simp

variable {σ τ : Simp} {lim : ℤ} {v : ℕ} {m : Model} {F G : Cnf} {ps : Clause}

/-- The states of a simplifying solver, with the clauses added to it. -/
inductive Loads (lim : ℤ) : Cnf → Simp → Prop where
  | empty : Loads lim [] .empty
  | newVar {F : Cnf} {σ : Simp} (dvar : Bool) : Loads lim F σ → Loads lim F (σ.newVar dvar)
  | addClause {F : Cnf} {σ : Simp} {ps : Clause} : Loads lim F σ →
      (∀ p ∈ ps, σ.core.Usable p.var) → Loads lim (F ++ [ps]) (σ.addClause_ ps).2
  | subsume {F : Cnf} {σ τ : Simp} : Loads lim F σ → σ.core.ok = true →
      σ.gatherTouchedClauses.backwardSubsumptionCheck lim = some (true, τ) → Loads lim F τ
  | eliminateVar {F : Cnf} {σ τ : Simp} {v : ℕ} (grow clauseLim : ℤ) : Loads lim F σ →
      σ.core.ok = true → v < σ.core.nVars → σ.eliminated v = false → σ.core.assigns v = .undef →
      σ.eliminateVar grow clauseLim lim v = some (true, τ) → Loads lim F τ

/-- The models agree on the variables that are not eliminated. -/
def Agree (σ : Simp) (m m' : Model) : Prop := ∀ v, σ.eliminated v = false → m' v = m v

/-- The clauses `G` of the solver stand for the clauses `F` that were added. -/
structure Stands (F G : Cnf) (σ : Simp) : Prop where
  gone : ∀ v, σ.eliminated v = true → v < σ.core.nVars ∧ ¬ σ.core.Usable v
  models : ∀ m : Model, m.Sat G ↔ ∃ m' : Model, σ.Agree m m' ∧ m'.Sat F
  extend : ∀ (m : Model) (β : PartialModel), m.Sat G →
    (∀ v, σ.eliminated v = false → β v = .ofBool (m v)) →
    ∃ m' : Model, σ.Agree m m' ∧ m'.Sat F ∧ ∀ v, extendModel σ.elimclauses β v = .ofBool (m' v)

theorem Stands.sat (h : Stands F G σ) (hm : m.Sat F) : m.Sat G :=
  (h.models m).mpr ⟨m, fun _ _ => rfl, hm⟩

/-- Where what is eliminated stays, so does what the solver stands for. -/
theorem Stands.congr (h : Stands F G σ) (he : τ.eliminated = σ.eliminated)
    (hs : τ.elimclauses = σ.elimclauses) (hn : σ.core.nVars ≤ τ.core.nVars)
    (hu : ∀ v, τ.core.Usable v → v < σ.core.nVars → σ.core.Usable v) : Stands F G τ := by
  refine ⟨fun v hv => ?_, ?_, ?_⟩
  · rw [he] at hv
    obtain ⟨hlt, hnot⟩ := h.gone v hv
    exact ⟨hlt.trans_le hn, fun h => hnot (hu v h hlt)⟩
  · unfold Agree
    rw [he]
    exact h.models
  · unfold Agree
    rw [he, hs]
    exact h.extend

theorem Stands.append (h : Stands F G σ) (hps : ∀ p ∈ ps, σ.core.Usable p.var) :
    Stands (F ++ [ps]) (G ++ [ps]) σ := by
  have helim : ∀ p ∈ ps, σ.eliminated p.var = false := fun p hp => by
    by_contra hn
    exact (h.gone p.var (by simpa using hn)).2 (hps p hp)
  have hholds : ∀ m m' : Model, σ.Agree m m' → ((∃ q ∈ ps, q.Holds m') ↔ ∃ q ∈ ps, q.Holds m) := by
    refine fun m m' ha => exists_congr fun q => and_congr_right fun hq => ?_
    rw [Lit.Holds, Lit.Holds, ha _ (helim q hq)]
  refine ⟨h.gone, fun m => ?_, fun m β hm hβ => ?_⟩
  · rw [Core.sat_append_singleton, h.models]
    constructor
    · rintro ⟨⟨m', ha, hF⟩, hp⟩
      exact ⟨m', ha, Core.sat_append_singleton.mpr ⟨hF, (hholds m m' ha).mpr hp⟩⟩
    · rintro ⟨m', ha, hF⟩
      obtain ⟨hF, hp⟩ := Core.sat_append_singleton.mp hF
      exact ⟨⟨m', ha, hF⟩, (hholds m m' ha).mp hp⟩
  · obtain ⟨hG, hp⟩ := Core.sat_append_singleton.mp hm
    obtain ⟨m', ha, hF, hext⟩ := h.extend m β hG hβ
    exact ⟨m', ha, Core.sat_append_singleton.mpr ⟨hF, (hholds m m' ha).mpr hp⟩, hext⟩

/-- A variable more is eliminated. -/
theorem Stands.project {G' : Cnf} (h : Stands F G σ) (hp : Projects v G σ G' τ)
    (hv : v < σ.core.nVars) : Stands F G' τ := by
  have helim : ∀ w, τ.eliminated w = true ↔ w = v ∨ σ.eliminated w = true := by
    intro w
    rw [hp.eliminated_eq]
    by_cases e : w = v <;> simp [e]
  have hfalse : ∀ w, τ.eliminated w = false ↔ w ≠ v ∧ σ.eliminated w = false := by
    intro w
    rw [← Bool.not_eq_true, helim, not_or, Bool.not_eq_true]
  have hagree : ∀ (m m' : Model) (b : Bool), σ.Agree (Function.update m v b) m' → τ.Agree m m' := by
    intro m m' b ha w hw
    obtain ⟨hne, hw⟩ := (hfalse w).mp hw
    rw [ha w hw, Function.update_of_ne hne]
  refine ⟨fun w hw => ?_, fun m => ?_, fun m β hm hβ => ?_⟩
  · rw [hp.nVars_eq, hp.usable]
    rcases (helim w).mp hw with rfl | hw
    · exact ⟨hv, fun hu => hu.2 rfl⟩
    · exact ⟨(h.gone w hw).1, fun hu => (h.gone w hw).2 hu.1⟩
  · rw [hp.models]
    constructor
    · rintro ⟨b, hb⟩
      obtain ⟨m', ha, hF⟩ := (h.models _).mp hb
      exact ⟨m', hagree m m' b ha, hF⟩
    · rintro ⟨m', ha, hF⟩
      refine ⟨m' v, (h.models _).mpr ⟨m', fun w hw => ?_, hF⟩⟩
      by_cases e : w = v
      · rw [e, Function.update_self]
      · rw [Function.update_of_ne e]
        exact ha w ((hfalse w).mpr ⟨e, hw⟩)
  · have hused : ∀ w, σ.core.Usable w → σ.eliminated w = false := fun w hu => by
      by_contra hn
      exact (h.gone w (by simpa using hn)).2 hu
    obtain ⟨b, hb, hG⟩ := hp.extend m β hm fun w hu hne => hβ w ((hfalse w).mpr ⟨hne, hused w hu⟩)
    obtain ⟨m', ha, hF, hext⟩ := h.extend (Function.update m v b)
      (Function.update β v (.ofBool b)) hG fun w hw => by
        by_cases e : w = v
        · rw [e, Function.update_self, Function.update_self]
        · rw [Function.update_of_ne e, Function.update_of_ne e]
          exact hβ w ((hfalse w).mpr ⟨e, hw⟩)
    exact ⟨m', hagree m m' b ha, hF, fun w => hb ▸ hext w⟩

/-- What the solver is after any calls. -/
structure Simplified (lim : ℤ) (F : Cnf) (σ : Simp) : Prop where
  stands : σ.core.ok = true → ∃ G, Loaded lim G σ ∧ Stands F G σ
  unsat : σ.core.ok = false → ¬ Satisfiable F

theorem stands_empty : Stands [] [] .empty where
  gone v hv := by cases hv
  models m := ⟨fun _ => ⟨m, fun _ _ => rfl, by simp [Satisfies]⟩, fun _ => by simp [Satisfies]⟩
  extend m β _ hβ := ⟨m, fun _ _ => rfl, by simp [Satisfies], fun v => hβ v rfl⟩

theorem Simplified.newVar (h : Simplified lim F σ) (dvar : Bool) :
    Simplified lim F (σ.newVar dvar) := by
  have hok : (σ.newVar dvar).core.ok = σ.core.ok := by
    unfold Simp.newVar
    dsimp only
    split_ifs <;> rfl
  refine ⟨fun e => ?_, fun e => h.unsat (hok ▸ e)⟩
  obtain ⟨G, hl, hs⟩ := h.stands (hok ▸ e)
  have hcore : (σ.newVar dvar).core = σ.core.newVar dvar := by
    unfold Simp.newVar
    dsimp only
    split_ifs <;> rfl
  have helim : (σ.newVar dvar).eliminated = Function.update σ.eliminated σ.core.nVars false := by
    unfold Simp.newVar
    dsimp only
    split_ifs <;> rfl
  have hstack : (σ.newVar dvar).elimclauses = σ.elimclauses := by
    unfold Simp.newVar
    dsimp only
    split_ifs <;> rfl
  have hnew : σ.eliminated σ.core.nVars = false := by
    by_contra hn
    exact lt_irrefl _ (hs.gone _ (by simpa using hn)).1
  refine ⟨G, hl.newVar dvar, hs.congr ?_ hstack ?_ fun v hu hlt => ?_⟩
  · rw [helim, ← hnew, Function.update_eq_self]
  · rw [hcore]
    exact Nat.le_succ _
  · rw [hcore, Core.usable_newVar] at hu
    exact hu.resolve_right fun e => hlt.ne e.1

theorem Simplified.addClause_ (h : Simplified lim F σ) (hps : ∀ p ∈ ps, σ.core.Usable p.var) :
    Simplified lim (F ++ [ps]) (σ.addClause_ ps).2 := by
  cases hok : σ.core.ok with
  | true =>
      obtain ⟨G, hl, hs⟩ := h.stands hok
      have hl' := hl.addClause_ hps
      have hs' := hs.append hps
      obtain ⟨-, hcore, helim, hstack⟩ := core_addClause σ ps
      refine ⟨fun e => ⟨_, hl', hs'.congr helim hstack ?_ fun v hu _ => ?_⟩, fun e ⟨m, hm⟩ => ?_⟩
      · exact (perm_addClause hl hok hps).2.ge
      · rw [hcore, ((hl.idle.clean hok).addClause_ hok hps).usable] at hu
        exact hu
      · exact hl'.idle.unsat e ⟨m, hs'.sat hm⟩
  | false =>
      have heq : σ.core.addClause_ ps = (false, σ.core) := if_pos hok
      have hcore : (σ.addClause_ ps).2.core = σ.core := by rw [(core_addClause σ ps).2.1, heq]
      refine ⟨fun e => ?_, fun _ => Core.not_satisfiable_append (h.unsat hok)⟩
      rw [hcore, hok] at e
      cases e

/-- A round of subsumption. -/
theorem Simplified.subsume (h : Simplified lim F σ) (hok : σ.core.ok = true) :
    ∃ r, σ.gatherTouchedClauses.backwardSubsumptionCheck lim = some r ∧
      (r.1 = true → ∃ G, Checked lim G σ.gatherTouchedClauses r.2 ∧ Stands F G r.2) ∧
      (r.1 = false → ¬ Satisfiable F) := by
  obtain ⟨G, hl, hs⟩ := h.stands hok
  obtain ⟨hg, -, hcore, helim, hstack⟩ := hl.gather hok
  obtain ⟨r, hr, htrue, hfalse⟩ := hg.check (hcore.symm ▸ hok)
  refine ⟨r, hr, fun e => ⟨G, htrue e, ?_⟩, fun e ⟨m, hm⟩ => hfalse e ⟨m, hs.sat hm⟩⟩
  have hf := (htrue e).frame_eq
  have hfixed : r.2.core.fixed = σ.gatherTouchedClauses.core.fixed := congrArg Simp.core hf
  rw [hcore] at hfixed
  refine hs.congr ((congrArg Simp.eliminated hf : r.2.frame.eliminated = _).trans helim)
    ((congrArg Simp.elimclauses hf : r.2.frame.elimclauses = _).trans hstack)
    (Core.nVars_of_fixed hfixed).ge fun v hu _ => (Core.usable_of_fixed hfixed v).mp hu

/-- A variable is eliminated. -/
theorem Simplified.eliminateVar (h : Simplified lim F σ) (hok : σ.core.ok = true)
    (grow clauseLim : ℤ) (hv : v < σ.core.nVars) (hund : σ.core.assigns v = .undef) :
    ∃ r, σ.eliminateVar grow clauseLim lim v = some r ∧
      (r.1 = true → r.2.core.ok = true ∧ ∃ G, Loaded lim G r.2 ∧ Stands F G r.2) ∧
      (r.1 = false → ¬ Satisfiable F) := by
  obtain ⟨G, hl, hs⟩ := h.stands hok
  obtain ⟨r, hr, he⟩ := hl.eliminateVar hok grow clauseLim hund
  refine ⟨r, hr, fun e => ⟨he.ok e, ?_⟩, fun e ⟨m, hm⟩ => he.unsat e ⟨m, hs.sat hm⟩⟩
  rcases he.kept e with ⟨hl', hu⟩ | ⟨G', hl', hp⟩
  · exact ⟨G, hl', hs.congr hu.eliminated_eq hu.elimclauses_eq hu.nVars_eq.ge
      fun w hw _ => (hu.usable w).mp hw⟩
  · exact ⟨G', hl', hs.project hp hv⟩

theorem Loads.simplified (h : Loads lim F σ) : Simplified lim F σ := by
  induction h with
  | empty => exact ⟨fun _ => ⟨[], loaded_empty, stands_empty⟩, fun e => by cases e⟩
  | newVar dvar _ ih => exact ih.newVar dvar
  | addClause _ hps ih => exact ih.addClause_ hps
  | subsume _ hok hr ih =>
      obtain ⟨r, hr', htrue, -⟩ := ih.subsume hok
      rw [hr] at hr'
      obtain rfl := Option.some.inj hr'
      obtain ⟨G, hc, hs⟩ := htrue rfl
      refine ⟨fun _ => ⟨G, hc.loaded, hs⟩, fun e => ?_⟩
      rw [hc.ok] at e
      cases e
  | eliminateVar grow clauseLim _ hok hv _ hund hr ih =>
      obtain ⟨r, hr', htrue, -⟩ := ih.eliminateVar hok grow clauseLim hv hund
      rw [hr] at hr'
      obtain rfl := Option.some.inj hr'
      obtain ⟨hok', hG⟩ := htrue rfl
      refine ⟨fun _ => hG, fun e => ?_⟩
      rw [hok'] at e
      cases e

/-! ### What is left -/

/-- What is left of the clauses `F`: its models are theirs without the eliminated variables, and
`extendModel` gives these their values. -/
structure Represents (F : Cnf) (σ : Simp) : Prop where
  models : ∀ m : Model,
    (∀ x ∈ σ.core.clauses, ∃ q ∈ σ.core.ca x, q.Holds m) ∧ m.Meets σ.core.trail ↔
      ∃ m' : Model, σ.Agree m m' ∧ m'.Sat F
  extend : ∀ (m : Model) (β : PartialModel),
    (∀ x ∈ σ.core.clauses, ∃ q ∈ σ.core.ca x, q.Holds m) → m.Meets σ.core.trail →
    (∀ v, σ.eliminated v = false → β v = .ofBool (m v)) →
    ∃ m' : Model, σ.Agree m m' ∧ m'.Sat F ∧ ∀ v, extendModel σ.elimclauses β v = .ofBool (m' v)
  unused : ∀ v, σ.eliminated v = true → (∀ x ∈ σ.core.clauses, ∀ q ∈ σ.core.ca x, q.var ≠ v) ∧
    ∀ q ∈ σ.core.trail, q.var ≠ v

/-- Nothing in what is left can be subsumed or strengthened. -/
structure Reduced (lim : ℤ) (F : Cnf) (σ : Simp) : Prop extends Represents F σ where
  qhead_eq : σ.core.qhead = σ.core.trail.length
  clear : ∀ x ∈ σ.core.clauses, ∀ y ∈ σ.core.clauses, x ≠ y → Small lim (σ.core.ca y) →
    ¬ Overlaps (σ.core.ca x) (σ.core.ca y)
  unassigned : ∀ p ∈ σ.core.trail, ∀ y ∈ σ.core.clauses, Small lim (σ.core.ca y) →
    p ∉ σ.core.ca y ∧ -p ∉ σ.core.ca y

theorem Stands.represents (h : Stands F G σ) (hl : Loaded lim G σ) (hok : σ.core.ok = true) :
    Represents F σ := by
  have hroot := (hl.kept hok).work.rooted
  have hG : ∀ m : Model, m.Sat G ↔
      (∀ x ∈ σ.core.clauses, ∃ q ∈ σ.core.ca x, q.Holds m) ∧ m.Meets σ.core.trail := fun m => by
    rw [(hl.idle.clean hok).models hroot.learnts_eq, Core.models_abs, hroot.refs_eq]
  refine ⟨fun m => (hG m).symm.trans (h.models m),
    fun m β hC hT => h.extend m β ((hG m).mpr ⟨hC, hT⟩),
    fun v hv => ⟨fun x hx q hq e => ?_, fun q hq e => ?_⟩⟩
  · exact (h.gone v hv).2 (e ▸ hroot.bounded.vars x (hroot.refs_eq ▸ hx) q hq)
  · exact (h.gone v hv).2 (e ▸ hroot.bounded.trail q hq)

/-- **Subsumption** ends in any state of any run: either the clauses that were added are
unsatisfiable, or what is left stands for them and nothing in it is left to subsume. -/
theorem Loads.subsumed (h : Loads lim F σ) (hok : σ.core.ok = true) :
    ∃ b τ, σ.gatherTouchedClauses.backwardSubsumptionCheck lim = some (b, τ) ∧
      (b = true → Reduced lim F τ) ∧ (b = false → ¬ Satisfiable F) := by
  obtain ⟨⟨b, τ⟩, hr, htrue, hfalse⟩ := h.simplified.subsume hok
  refine ⟨b, τ, hr, fun e => ?_, hfalse⟩
  obtain ⟨G, hc, hs⟩ := htrue e
  have hroot := (hc.loaded.kept hc.ok).work.rooted
  have hrefs := hroot.refs_eq
  have htouched : σ.gatherTouchedClauses.touched = fun _ => false := by
    obtain ⟨G', hl, -⟩ := h.simplified.stands hok
    exact funext (hl.gather hok).2.1
  have hseen := hc.seen
  rw [htouched] at hseen
  refine ⟨hs.represents hc.loaded hc.ok, (hc.loaded.idle.clean hc.ok).qhead_eq,
    fun x hx y hy hne hsm => ?_, fun p hp y hy hsm => ?_⟩
  · have ht : Entry.Taken τ (.clause x) := ⟨hrefs ▸ hx, hc.queue_eq ▸ List.not_mem_nil⟩
    exact hseen.clear (.clause x) (fun _ _ => rfl) _ ht (hrefs ▸ hy)
      (fun e => hne (Entry.clause.inj e)) hsm
  · have ht : Entry.Taken τ (.tmpunit p) := by
      change p ∈ τ.core.trail.take τ.bwdsubAssigns
      rw [hc.bwd_eq, List.take_length]
      exact hp
    have hno := hseen.clear (.tmpunit p) trivial _ ht (hrefs ▸ hy) (fun e => by cases e) hsm
    exact ⟨fun hm => hno ⟨p, fun q hq => .inl (List.mem_singleton.mp hq ▸ hm)⟩,
      fun hm => hno ⟨p, fun q hq => .inr ⟨List.mem_singleton.mp hq, hm⟩⟩⟩

/-- Three clauses: the first makes the second smaller and subsumes the third. -/
def three : Simp :=
  let σ := ((Simp.empty.newVar true).newVar true).newVar true
  let σ := (σ.addClause_ [mkLit 0 false, mkLit 1 false]).2
  let σ := (σ.addClause_ [mkLit 0 false, mkLit 1 true, mkLit 2 false]).2
  (σ.addClause_ [mkLit 0 false, mkLit 1 false, mkLit 2 true]).2

theorem loads_three : Loads (-1) [[mkLit 0 false, mkLit 1 false],
    [mkLit 0 false, mkLit 1 true, mkLit 2 false],
    [mkLit 0 false, mkLit 1 false, mkLit 2 true]] three := by
  refine .addClause (F := [_, _]) (.addClause (F := [_]) (.addClause (F := [])
    (.newVar true (.newVar true (.newVar true .empty))) fun p hp => ?_) fun p hp => ?_)
    fun p hp => ?_
  · rcases List.mem_pair.mp hp with rfl | rfl <;> exact ⟨by decide, rfl⟩
  · rcases List.mem_cons.mp hp with rfl | hp
    · exact ⟨by decide, rfl⟩
    · rcases List.mem_pair.mp hp with rfl | rfl <;> exact ⟨by decide, rfl⟩
  · rcases List.mem_cons.mp hp with rfl | hp
    · exact ⟨by decide, rfl⟩
    · rcases List.mem_pair.mp hp with rfl | rfl <;> exact ⟨by decide, rfl⟩

theorem subsumed_three :
    ∃ b τ, three.gatherTouchedClauses.backwardSubsumptionCheck (-1) = some (b, τ) ∧
      (b = true → Reduced (-1) [[mkLit 0 false, mkLit 1 false],
        [mkLit 0 false, mkLit 1 true, mkLit 2 false],
        [mkLit 0 false, mkLit 1 false, mkLit 2 true]] τ) ∧
      (b = false → ¬ Satisfiable [[mkLit 0 false, mkLit 1 false],
        [mkLit 0 false, mkLit 1 true, mkLit 2 false],
        [mkLit 0 false, mkLit 1 false, mkLit 2 true]]) :=
  loads_three.subsumed (by decide)

/-- **Elimination** of an unassigned variable ends in any state of any run: either the clauses that
were added are unsatisfiable, or what is left, with the clauses on the stack, stands for them. -/
theorem Loads.eliminated (h : Loads lim F σ) (hok : σ.core.ok = true) (grow clauseLim : ℤ)
    (hv : v < σ.core.nVars) (hund : σ.core.assigns v = .undef) :
    ∃ b τ, σ.eliminateVar grow clauseLim lim v = some (b, τ) ∧
      (b = true → Represents F τ) ∧ (b = false → ¬ Satisfiable F) := by
  obtain ⟨⟨b, τ⟩, hr, htrue, hfalse⟩ := h.simplified.eliminateVar hok grow clauseLim hv hund
  refine ⟨b, τ, hr, fun e => ?_, hfalse⟩
  obtain ⟨hokτ, G, hl, hs⟩ := htrue e
  exact hs.represents hl hokτ

theorem eliminated_three :
    ∃ b τ, three.eliminateVar 0 20 (-1) 1 = some (b, τ) ∧
      (b = true → Represents [[mkLit 0 false, mkLit 1 false],
        [mkLit 0 false, mkLit 1 true, mkLit 2 false],
        [mkLit 0 false, mkLit 1 false, mkLit 2 true]] τ) ∧
      (b = false → ¬ Satisfiable [[mkLit 0 false, mkLit 1 false],
        [mkLit 0 false, mkLit 1 true, mkLit 2 false],
        [mkLit 0 false, mkLit 1 false, mkLit 2 true]]) :=
  loads_three.eliminated (by decide) 0 20 (by decide) rfl

end Simp

end Parsat.Minisat
