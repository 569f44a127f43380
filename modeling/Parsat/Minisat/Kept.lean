import Parsat.Minisat.Backward

/-!
# Minisat — between two simplifications

A clause that is added touches its variables, and before the next check the clauses of the touched
variables go into the queue again: so a check finds not only what the new clauses subsume, but also
what subsumes them.

* `Kept`: the invariant, where the clauses that are not touched are clear of each other.
* `Kept.gatherTouchedClauses`, `Kept.note`: what is touched, and what is queued for it.
* `Loaded.newVar`, `Loaded.addClause_`, `Loaded.gather`, `Loaded.check`: the steps.
-/

namespace Parsat.Minisat

open UnitProp

namespace Simp

variable {σ τ υ : Simp} {lim : ℤ} {x v : ℕ} {p : Lit} {m : Model} {F : Cnf} {ps : Clause}

/-! ### Touched variables -/

theorem mem_foldl_gather {r : ℕ → Bool} {xs q : List ℕ} {y : ℕ} :
    y ∈ xs.foldl (fun q cr => if r cr = true ∨ cr ∈ q then q else q ++ [cr]) q ↔
      y ∈ q ∨ y ∈ xs ∧ r y = false := by
  induction xs generalizing q with
  | nil => simp
  | cons x xs ih =>
      rw [List.foldl_cons, ih, List.mem_cons]
      split_ifs with h
      · constructor
        · exact Or.imp_right fun hy => ⟨.inr hy.1, hy.2⟩
        · rintro (hy | ⟨rfl | hy, hr⟩)
          · exact .inl hy
          · exact .inl (h.resolve_left (by simp [hr]))
          · exact .inr ⟨hy, hr⟩
      · rw [List.mem_append, List.mem_singleton]
        constructor
        · rintro ((hy | rfl) | hy)
          · exact .inl hy
          · exact .inr ⟨.inl rfl, by simpa using fun e => h (.inl e)⟩
          · exact .inr ⟨.inr hy.1, hy.2⟩
        · rintro (hy | ⟨rfl | hy, hr⟩)
          · exact .inl (.inl hy)
          · exact .inl (.inr rfl)
          · exact .inr ⟨hy, hr⟩

/-- What `gatherTouchedClauses` has done when it has gone through the variables in `vs`. -/
structure Gathers (vs : List ℕ) (σ τ : Simp) : Prop where
  work : τ.Work
  core_eq : τ.core = σ.core
  bwd_eq : τ.bwdsubAssigns = σ.bwdsubAssigns
  eliminated_eq : τ.eliminated = σ.eliminated
  elimclauses_eq : τ.elimclauses = σ.elimclauses
  queue_sub : ∀ x ∈ σ.queue, x ∈ τ.queue
  touched : ∀ v, τ.touched v = true ↔ σ.touched v = true ∧ v ∉ vs
  queued : ∀ x ∈ σ.core.refs, ∀ q ∈ σ.core.ca x, q.var ∈ vs → σ.touched q.var = true → x ∈ τ.queue

theorem Work.gatherVar (h : σ.Work) (v : ℕ) : Gathers [v] σ (σ.gatherVar v) := by
  unfold Simp.gatherVar
  split_ifs with ht
  · obtain ⟨hw, -, hcore, hocc⟩ := h.lookup 0 v
    have hqueue : (σ.lookup v).queue = σ.queue := by unfold Simp.lookup; split_ifs <;> rfl
    have htouched : (σ.lookup v).touched = σ.touched := by unfold Simp.lookup; split_ifs <;> rfl
    have hbwd : (σ.lookup v).bwdsubAssigns = σ.bwdsubAssigns := by
      unfold Simp.lookup; split_ifs <;> rfl
    have helim : (σ.lookup v).eliminated = σ.eliminated := by
      unfold Simp.lookup; split_ifs <;> rfl
    have hcls : (σ.lookup v).elimclauses = σ.elimclauses := by
      unfold Simp.lookup; split_ifs <;> rfl
    refine ⟨{ hw with queue := fun x hx => ?_ }, hcore, hbwd, helim, hcls,
      fun x hx => ?_, fun w => ?_,
      fun x hx q hq hv _ => ?_⟩
    · rcases mem_foldl_gather.mp hx with hx | ⟨hx, -⟩
      · exact hw.queue x hx
      · exact ⟨.inl (hcore ▸ ((hocc x).mp hx).1), hw.occurs_lt v x hx⟩
    · exact mem_foldl_gather.mpr (.inl (hqueue ▸ hx))
    · change Function.update (σ.lookup v).touched v false w = true ↔ _
      rw [htouched, List.mem_singleton]
      by_cases e : w = v <;> simp [e]
    · refine mem_foldl_gather.mpr (.inr ⟨(hocc x).mpr ⟨hx, q, hq, List.mem_singleton.mp hv⟩, ?_⟩)
      rw [hcore]
      exact h.not_removed hx
  · refine ⟨h, rfl, rfl, rfl, rfl, fun _ => id, fun w => ?_, fun x _ q _ hv ht' => ?_⟩
    · refine ⟨fun hw => ⟨hw, fun e => ht (List.mem_singleton.mp e ▸ hw)⟩, And.left⟩
    · exact absurd (List.mem_singleton.mp hv ▸ ht') ht

theorem Gathers.append {vs ws : List ℕ} (h : Gathers vs σ τ) (h' : Gathers ws τ υ) :
    Gathers (vs ++ ws) σ υ where
  work := h'.work
  core_eq := h'.core_eq.trans h.core_eq
  bwd_eq := h'.bwd_eq.trans h.bwd_eq
  eliminated_eq := h'.eliminated_eq.trans h.eliminated_eq
  elimclauses_eq := h'.elimclauses_eq.trans h.elimclauses_eq
  queue_sub x hx := h'.queue_sub x (h.queue_sub x hx)
  touched v := by rw [h'.touched, h.touched, List.mem_append, not_or, and_assoc]
  queued x hx q hq hv ht := by
    by_cases hvs : q.var ∈ vs
    · exact h'.queue_sub x (h.queued x hx q hq hvs ht)
    · exact h'.queued x (h.core_eq.symm ▸ hx) q (h.core_eq.symm ▸ hq)
        ((List.mem_append.mp hv).resolve_left hvs) ((h.touched _).mpr ⟨ht, hvs⟩)

theorem Work.foldl_gatherVar (h : σ.Work) (vs : List ℕ) :
    Gathers vs σ (vs.foldl Simp.gatherVar σ) := by
  induction vs generalizing σ with
  | nil =>
      exact ⟨h, rfl, rfl, rfl, rfl, fun _ => id, fun v => by simp,
        fun _ _ _ _ hv => by simp at hv⟩
  | cons v vs ih =>
      have hv := h.gatherVar v
      exact hv.append (ih hv.work)

/-! ### The invariant between two checks -/

/-- Clauses without touched variables, and what has been taken of the trail, are clear. -/
structure Kept (lim : ℤ) (σ : Simp) : Prop where
  work : σ.Work
  assumptions : σ.core.assumptions = []
  touched_lt : ∀ v, σ.touched v = true → v < σ.core.nVars
  untouched : σ.nTouched = 0 → ∀ v, σ.touched v = false
  clear : ∀ e : Entry, e.Untouched σ.touched σ → ∀ x, Clear lim e x σ

/-- The simplifying solver between two calls. -/
structure Loaded (lim : ℤ) (F : Cnf) (σ : Simp) : Prop where
  idle : σ.core.Idle F
  kept : σ.core.ok = true → Kept lim σ

/-- **The touched clauses are queued**, and then all others are clear. -/
theorem Kept.gatherTouchedClauses (h : Kept lim σ) (hdone : ∀ x ∈ σ.core.refs, σ.core.Done x) :
    Gathers (List.range σ.core.nVars) σ σ.gatherTouchedClauses ∧
      Seen lim (fun _ => false) σ.gatherTouchedClauses ∧
      (∀ v, σ.gatherTouchedClauses.touched v = false) ∧
      σ.gatherTouchedClauses.nTouched = 0 := by
  have hg : Gathers (List.range σ.core.nVars) σ σ.gatherTouchedClauses ∧
      σ.gatherTouchedClauses.nTouched = 0 := by
    unfold Simp.gatherTouchedClauses
    split_ifs with h0
    · refine ⟨⟨h.work, rfl, rfl, rfl, rfl, fun _ => id, fun v => ?_, fun x _ q _ _ ht => ?_⟩, h0⟩
      · simp [h.untouched h0 v]
      · simp [h.untouched h0 q.var] at ht
    · have hf := h.work.foldl_gatherVar (List.range σ.core.nVars)
      exact ⟨{ hf with work := { hf.work with } }, rfl⟩
  obtain ⟨hg, h0⟩ := hg
  have hfalse : ∀ v, σ.gatherTouchedClauses.touched v = false := by
    intro v
    by_contra hn
    obtain ⟨ht, hv⟩ := (hg.touched v).mp (by simpa using hn)
    exact hv (List.mem_range.mpr (h.touched_lt v ht))
  refine ⟨hg, ⟨fun e _ x => ?_, ?_⟩, hfalse, h0⟩
  · intro ht hx hne hsm
    have hlits : e.lits σ.gatherTouchedClauses = e.lits σ := by
      cases e <;> simp only [Entry.lits, hg.core_eq]
    have ht' : e.Taken σ := by
      cases e with
      | clause cr => exact ⟨hg.core_eq ▸ ht.1, fun hq => ht.2 (hg.queue_sub cr hq)⟩
      | tmpunit p =>
          have ht' : p ∈ σ.gatherTouchedClauses.core.trail.take
            σ.gatherTouchedClauses.bwdsubAssigns := ht
          rwa [hg.core_eq, hg.bwd_eq] at ht'
    have hfresh : e.Untouched σ.touched σ := by
      cases e with
      | clause cr =>
          intro q hq
          by_contra hn
          have hqt : σ.touched q.var = true := by simpa using hn
          exact ht.2 (hg.queued cr ht'.1 q hq (List.mem_range.mpr (h.touched_lt _ hqt)) hqt)
      | tmpunit p => trivial
    rw [hg.core_eq] at hx hsm ⊢
    rw [hlits]
    exact h.clear e hfresh x ht' hx hne hsm
  · rw [hg.core_eq]
    exact fun x hx _ => hdone x hx

/-! ### A clause more -/

/-- What `addClause_` notes for a clause with distinct variables. -/
theorem foldl_noteLit (cr : ℕ) {c : Clause} (hc : c.Pairwise fun p q => p.var ≠ q.var) (σ : Simp) :
    c.foldl (noteLit cr) σ =
      { σ with
        occurs := fun v => if ∃ q ∈ c, q.var = v then σ.occurs v ++ [cr] else σ.occurs v
        touched := fun v => σ.touched v || decide (∃ q ∈ c, q.var = v)
        nTouched := σ.nTouched + c.length } := by
  induction c generalizing σ with
  | nil => simp
  | cons p c ih =>
      obtain ⟨hp, hc⟩ := List.pairwise_cons.mp hc
      rw [List.foldl_cons, ih hc, noteLit]
      have hnot : ∀ q ∈ c, q.var ≠ p.var := fun q hq e => hp q hq e.symm
      congr 1
      · funext v
        by_cases e : v = p.var
        · subst e
          simp
        · have e' : ¬ p.var = v := fun h => e h.symm
          simp [e, e']
      · funext v
        by_cases e : v = p.var
        · subst e
          simpa using hnot
        · have e' : ¬ p.var = v := fun h => e h.symm
          simp [e, e']
      · change σ.nTouched + 1 + c.length = σ.nTouched + (c.length + 1)
        omega

/-- A clause that comes, where it is not noted yet. -/
def pushed (σ : Simp) (c : Clause) : Simp := { σ with core := σ.core.pushClause false c }

theorem mem_refs_pushed {c : Clause} {y : ℕ} :
    y ∈ (σ.pushed c).core.refs ↔ y = σ.core.size ∨ y ∈ σ.core.refs :=
  (Core.refs_pushClause ..).mem_iff.trans List.mem_cons

theorem ca_pushed_self (σ : Simp) (c : Clause) : (σ.pushed c).core.ca σ.core.size = c := by
  rw [pushed, Core.pushClause_eq]
  exact Function.update_self ..

theorem ca_pushed {c : Clause} (hx : x < σ.core.size) : (σ.pushed c).core.ca x = σ.core.ca x := by
  rw [pushed, Core.pushClause_eq]
  exact Function.update_of_ne hx.ne ..

theorem removed_pushed {c : Clause} (hx : x < σ.core.size) :
    (σ.pushed c).core.removed x = σ.core.removed x := by
  rw [pushed, Core.pushClause_eq]
  exact Function.update_of_ne hx.ne ..

@[simp] theorem size_pushed (σ : Simp) (c : Clause) :
    (σ.pushed c).core.size = σ.core.size + 1 := by
  rw [pushed, Core.pushClause_eq]

@[simp] theorem trail_pushed (σ : Simp) (c : Clause) : (σ.pushed c).core.trail = σ.core.trail := by
  rw [pushed, Core.pushClause_eq]

@[simp] theorem assumptions_pushed (σ : Simp) (c : Clause) :
    (σ.pushed c).core.assumptions = σ.core.assumptions := by
  rw [pushed, Core.pushClause_eq]

@[simp] theorem nVars_pushed (σ : Simp) (c : Clause) : (σ.pushed c).core.nVars = σ.core.nVars := by
  rw [pushed, Core.pushClause_eq]

theorem note_pushed {c : Clause} (hc : c.Pairwise fun p q => p.var ≠ q.var) :
    (σ.pushed c).note σ.core.size =
      { σ.pushed c with
        queue := σ.queue ++ [σ.core.size]
        occurs := fun v => if ∃ q ∈ c, q.var = v then σ.occurs v ++ [σ.core.size] else σ.occurs v
        touched := fun v => σ.touched v || decide (∃ q ∈ c, q.var = v)
        nTouched := σ.nTouched + c.length } := by
  rw [Simp.note, ca_pushed_self]
  exact foldl_noteLit _ hc _

/-- The literals of the new clause. -/
theorem rooted_pushed (c : Clause) (h : (σ.pushed c).core.Rooted) :
    2 ≤ c.length ∧ (c.Pairwise fun p q => p.var ≠ q.var) ∧ ∀ q ∈ c, q.var < σ.core.nVars := by
  have hsize := mem_refs_pushed (σ := σ) (c := c) |>.mpr (.inl rfl)
  have hshape := h.base.shape _ hsize
  have hvars := h.bounded.vars _ hsize
  rw [ca_pushed_self] at hshape hvars
  exact ⟨hshape.1, hshape.2, fun q hq => nVars_pushed σ c ▸ (hvars q hq).1⟩

theorem Work.note (h : σ.Work) {c : Clause} (hroot : (σ.pushed c).core.Rooted) :
    ((σ.pushed c).note σ.core.size).Work := by
  have hlt : ∀ y ∈ σ.core.refs, y < σ.core.size := h.rooted.base.refs_lt
  obtain ⟨-, hvars, -⟩ := rooted_pushed c hroot
  have hocc : ∀ v y, (y ∈ if ∃ q ∈ c, q.var = v then σ.occurs v ++ [σ.core.size] else σ.occurs v) ↔
      y ∈ σ.occurs v ∨ y = σ.core.size ∧ ∃ q ∈ c, q.var = v := by
    intro v y
    split_ifs with hv <;> simp [hv]
  rw [note_pushed hvars]
  refine ⟨hroot, h.on, ?_, ?_, ?_, ?_, ?_, ?_⟩
  · intro y hy q hq
    rcases mem_refs_pushed.mp hy with rfl | hy
    · exact (hocc _ _).mpr (.inr ⟨rfl, q, ca_pushed_self σ c ▸ hq, rfl⟩)
    · exact (hocc _ _).mpr (.inl (h.cover y hy q (ca_pushed (hlt y hy) ▸ hq)))
  · intro v y hy
    rcases (hocc v y).mp hy with hy | ⟨rfl, hv⟩
    · have hylt := h.occurs_lt v y hy
      refine (h.live v y hy).imp (fun hl => ⟨mem_refs_pushed.mpr (.inr hl.1), ?_⟩)
        fun hl => ⟨(removed_pushed hylt).trans hl.1, hl.2⟩
      exact (ca_pushed hylt).symm ▸ hl.2
    · exact .inl ⟨mem_refs_pushed.mpr (.inl rfl), (ca_pushed_self σ c).symm ▸ hv⟩
  · intro v
    change (if ∃ q ∈ c, q.var = v then σ.occurs v ++ [σ.core.size] else σ.occurs v).Nodup
    split_ifs
    · refine (h.nodup v).append (List.nodup_singleton _) ?_
      rw [List.disjoint_singleton]
      exact fun hm => lt_irrefl _ (h.occurs_lt v _ hm)
    · exact h.nodup v
  · intro v y hy
    rw [size_pushed]
    rcases (hocc v y).mp hy with hy | ⟨rfl, -⟩
    · exact (h.occurs_lt v y hy).trans (Nat.lt_succ_self _)
    · exact Nat.lt_succ_self _
  · intro y hy
    rw [size_pushed]
    rcases List.mem_append.mp hy with hy | hy
    · obtain ⟨hor, hylt⟩ := h.queue y hy
      exact ⟨hor.imp (fun hy => mem_refs_pushed.mpr (.inr hy)) (removed_pushed hylt).trans,
        hylt.trans (Nat.lt_succ_self _)⟩
    · rw [List.mem_singleton.mp hy]
      exact ⟨.inl (mem_refs_pushed.mpr (.inl rfl)), Nat.lt_succ_self _⟩
  · exact (trail_pushed σ c).symm ▸ h.bwd_le

/-- **A new clause is noted**: what could overlap it is touched. -/
theorem Kept.note (h : Kept lim σ) {c : Clause} (hroot : (σ.pushed c).core.Rooted)
    (hc : ∀ q ∈ c, σ.core.value q = .undef) : Kept lim ((σ.pushed c).note σ.core.size) := by
  have hb := h.work.rooted.base
  have hw := h.work.note hroot
  obtain ⟨hlen, hvars, hbound⟩ := rooted_pushed c hroot
  have htouched : ∀ v, (σ.touched v || decide (∃ q ∈ c, q.var = v)) = false ↔
      σ.touched v = false ∧ ¬ ∃ q ∈ c, q.var = v := by
    intro v
    rw [Bool.or_eq_false_iff, decide_eq_false_iff_not]
  rw [note_pushed hvars] at hw ⊢
  refine ⟨hw, (assumptions_pushed σ c).trans h.assumptions, ?_, ?_, ?_⟩
  · intro v hv
    rw [nVars_pushed]
    rcases Bool.or_eq_true_iff.mp hv with hv | hv
    · exact h.touched_lt v hv
    · obtain ⟨q, hq, rfl⟩ := of_decide_eq_true hv
      exact hbound q hq
  · intro h0
    change σ.nTouched + c.length = 0 at h0
    omega
  · intro e he y ht hy hne hsm ho
    have ht' : e.Taken σ := by
      cases e with
      | clause cr =>
          obtain ⟨hcr, hq⟩ := ht
          rcases mem_refs_pushed.mp hcr with rfl | hcr
          · exact absurd (List.mem_append_right _ (List.mem_singleton_self _)) hq
          · exact ⟨hcr, fun hm => hq (List.mem_append_left _ hm)⟩
      | tmpunit p => exact (trail_pushed σ c ▸ ht : p ∈ σ.core.trail.take σ.bwdsubAssigns)
    have hin : e.In σ := ht'.isIn
    have hlits : e.lits (σ.pushed c) = e.lits σ := by
      cases e with
      | clause cr => exact ca_pushed (hb.refs_lt cr hin)
      | tmpunit p => rfl
    have hfresh : e.Untouched σ.touched σ ∧ ∀ q ∈ e.lits σ, ¬ ∃ a ∈ c, a.var = q.var := by
      cases e with
      | clause cr =>
          have hcr : (σ.pushed c).core.ca cr = σ.core.ca cr := hlits
          have hall : ∀ q ∈ (σ.pushed c).core.ca cr, σ.touched q.var = false ∧
              ¬ ∃ a ∈ c, a.var = q.var := fun q hq => (htouched _).mp (he q hq)
          rw [hcr] at hall
          exact ⟨fun q hq => (hall q hq).1, fun q hq => (hall q hq).2⟩
      | tmpunit p =>
          refine ⟨trivial, fun q hq => ?_⟩
          rw [List.mem_singleton.mp hq]
          rintro ⟨a, ha, e⟩
          exact hb.var_ne_of_undef (hc a ha) p hin e.symm
    have ho' : Overlaps (e.lits σ) ((σ.pushed c).core.ca y) := hlits ▸ ho
    rcases mem_refs_pushed.mp hy with rfl | hy
    · rw [ca_pushed_self] at ho'
      obtain ⟨q, hq⟩ := List.exists_mem_of_ne_nil _ (hin.ne_nil h.work)
      exact hfresh.2 q hq (ho'.exists_var hq)
    · have hca : (σ.pushed c).core.ca y = σ.core.ca y := ca_pushed (hb.refs_lt y hy)
      have hsm' : Small lim (σ.core.ca y) := hca ▸ hsm
      exact h.clear e hfresh.1 y ht' hy hne hsm' (hca ▸ ho')

theorem Kept.of_shrinks (h : Kept lim σ) (hw : τ.Work) (hs : Shrinks lim σ τ) : Kept lim τ := by
  have htouched : τ.touched = σ.touched :=
    (congrArg Simp.touched hs.frame_eq : τ.frame.touched = σ.frame.touched)
  have hnTouched : τ.nTouched = σ.nTouched :=
    (congrArg Simp.nTouched hs.frame_eq : τ.frame.nTouched = σ.frame.nTouched)
  have hassump : τ.core.assumptions = σ.core.assumptions :=
    Core.assumptions_of_fixed (congrArg Simp.core hs.frame_eq)
  refine ⟨hw, hassump.trans h.assumptions, ?_, ?_, fun e he x ht => ?_⟩
  · rw [htouched, nVars_of_frame hs.frame_eq]
    exact h.touched_lt
  · rw [htouched, hnTouched]
    exact h.untouched
  · rw [htouched] at he
    exact (h.clear e (he.of_shrinks ht hs) x).mono h.work hs ht

/-- The core of the result is the solver's, and what is eliminated stays. -/
theorem core_addClause (σ : Simp) (ps : Clause) :
    (σ.addClause_ ps).1 = (σ.core.addClause_ ps).1 ∧
      (σ.addClause_ ps).2.core = (σ.core.addClause_ ps).2 ∧
      (σ.addClause_ ps).2.eliminated = σ.eliminated ∧
      (σ.addClause_ ps).2.elimclauses = σ.elimclauses := by
  have hnote : ∀ (c : Clause) (cr : ℕ) (τ : Simp), (c.foldl (noteLit cr) τ).core = τ.core ∧
      (c.foldl (noteLit cr) τ).eliminated = τ.eliminated ∧
      (c.foldl (noteLit cr) τ).elimclauses = τ.elimclauses := by
    intro c cr
    induction c with
    | nil => exact fun _ => ⟨rfl, rfl, rfl⟩
    | cons p c ih => exact fun τ => ih _
  unfold Simp.addClause_
  dsimp only
  split_ifs with h₁ h₂
  · exact ⟨h₁.symm, rfl, rfl, rfl⟩
  · exact ⟨by simpa using h₁, hnote ..⟩
  · exact ⟨by simpa using h₁, rfl, rfl, rfl⟩

theorem Loaded.addClause_ (h : Loaded lim F σ) (hps : ∀ p ∈ ps, σ.core.Usable p.var) :
    Loaded lim (F ++ [ps]) (σ.addClause_ ps).2 := by
  have hidle := h.idle.addClause_ hps
  have hcore := (core_addClause σ ps).2.1
  refine ⟨hcore ▸ hidle, fun hok' => ?_⟩
  rw [hcore] at hok'
  cases hok : σ.core.ok with
  | false =>
      have heq : σ.core.addClause_ ps = (false, σ.core) := if_pos hok
      rw [heq, hok] at hok'
      cases hok'
  | true =>
      have hk := h.kept hok
      have hclean := hidle.clean hok'
      rcases hkl : σ.core.abs.keepLits none (Solver.sortLits ps) with _ | _ | ⟨p, _ | ⟨b, c⟩⟩
      case none =>
          have heq : σ.core.addClause_ ps = (true, σ.core) := by
            simp only [Core.addClause_, hok, hkl]; rfl
          have heq' : σ.addClause_ ps = (true, σ) := by simp [Simp.addClause_, heq]
          rw [heq']
          exact hk
      case some.nil =>
          have heq : σ.core.addClause_ ps = (false, { σ.core with ok := false }) := by
            simp only [Core.addClause_, hok, hkl]; rfl
          rw [heq] at hok'
          cases hok'
      case some.cons.nil =>
          obtain ⟨hmem, hp⟩ := (Solver.keepLits_some hkl).1 p List.mem_cons_self
          have he := hk.work.rooted.enqueue hp (hps p (Solver.mem_sortLits.mp hmem))
          set r := (σ.core.uncheckedEnqueue p none).propagate
          have heq : σ.core.addClause_ ps = (r.1.isNone, { r.2 with ok := r.1.isNone }) := by
            simp only [Core.addClause_, hok, hkl]; rfl
          have hr : r.1.isNone = true := by
            rw [heq] at hok'
            exact hok'
          have hokr : r.2.ok = true := (Core.ok_of_fixed he.fixed_eq).trans hok
          have hself : { r.2 with ok := true } = r.2 := by rw [← hokr]
          rw [hr, hself] at heq
          have heq' : σ.addClause_ ps = (true, { σ with core := r.2 }) := by
            simp [Simp.addClause_, heq, he.clauses_eq]
          obtain ⟨hw, hs⟩ := hk.work.enqueued lim he (by simpa using hr)
          rw [heq']
          exact hk.of_shrinks hw hs
      case some.cons.cons =>
          have heq : σ.core.addClause_ ps = (true, σ.core.pushClause false (p :: b :: c)) := by
            simp only [Core.addClause_, hok, hkl]; rfl
          rw [heq] at hclean
          have hpush := Core.pushClause_eq σ.core false (p :: b :: c)
          have hclauses : (σ.core.pushClause false (p :: b :: c)).clauses =
              σ.core.clauses ++ [σ.core.size] := by rw [hpush]; rfl
          have hlearnts : (σ.core.pushClause false (p :: b :: c)).learnts = [] := by
            rw [hpush]
            exact hk.work.rooted.learnts_eq
          have heq' : σ.addClause_ ps = (true,
              (σ.pushed (p :: b :: c)).note σ.core.size) := by
            simp [Simp.addClause_, heq, hclauses, hk.work.on, pushed]
          rw [heq']
          exact hk.note (hclean.rooted hlearnts) fun q hq => ((Solver.keepLits_some hkl).1 q hq).2

/-- The clauses there are keep their literals when one is added. -/
theorem perm_addClause (h : Loaded lim F σ) (hok : σ.core.ok = true)
    (hps : ∀ p ∈ ps, σ.core.Usable p.var) :
    (∀ x < σ.core.size, ((σ.addClause_ ps).2.core.ca x).Perm (σ.core.ca x) ∧
      x < (σ.addClause_ ps).2.core.size) ∧ (σ.addClause_ ps).2.core.nVars = σ.core.nVars := by
  have hroot := (h.kept hok).work.rooted
  rw [(core_addClause σ ps).2.1]
  rcases hkl : σ.core.abs.keepLits none (Solver.sortLits ps) with _ | _ | ⟨p, _ | ⟨b, c⟩⟩
  case none =>
      simp only [Core.addClause_, hok, hkl]
      exact ⟨fun x hx => ⟨.refl _, hx⟩, rfl⟩
  case some.nil =>
      simp only [Core.addClause_, hok, hkl]
      exact ⟨fun x hx => ⟨.refl _, hx⟩, rfl⟩
  case some.cons.nil =>
      simp only [Core.addClause_, hok, hkl]
      obtain ⟨hmem, hp⟩ := (Solver.keepLits_some hkl).1 p List.mem_cons_self
      have he := hroot.enqueue hp (hps p (Solver.mem_sortLits.mp hmem))
      have hn := Core.nVars_of_fixed he.fixed_eq
      exact ⟨fun x hx => ⟨he.perm x, he.size_eq.symm ▸ hx⟩, hn⟩
  case some.cons.cons =>
      simp only [Core.addClause_, hok, hkl]
      refine ⟨fun x hx => ?_, nVars_pushed σ _⟩
      have hca : (σ.pushed (p :: b :: c)).core.ca x = σ.core.ca x := ca_pushed hx
      exact ⟨.of_eq hca, (size_pushed σ (p :: b :: c)).symm ▸ hx.trans (Nat.lt_succ_self _)⟩

theorem Loaded.newVar (h : Loaded lim F σ) (dvar : Bool) : Loaded lim F (σ.newVar dvar) := by
  have hidle := h.idle.newVar dvar
  have hcore : (σ.newVar dvar).core = σ.core.newVar dvar := by
    unfold Simp.newVar
    dsimp only
    split_ifs <;> rfl
  refine ⟨hcore ▸ hidle, fun hok' => ?_⟩
  rw [hcore] at hok'
  have hk := h.kept hok'
  have hw := hk.work
  have hlearnts : (σ.core.newVar dvar).learnts = [] := hw.rooted.learnts_eq
  have hroot := (hidle.clean hok').rooted hlearnts
  have hvar : ∀ x ∈ σ.core.refs, ∀ q ∈ σ.core.ca x, q.var ≠ σ.core.nVars := fun x hx q hq =>
    (hw.rooted.bounded.vars x hx q hq).1.ne
  have heq : σ.newVar dvar =
      { σ with
        core := σ.core.newVar dvar
        frozen := Function.update σ.frozen σ.core.nVars false
        eliminated := Function.update σ.eliminated σ.core.nVars false
        occurs := Function.update σ.occurs σ.core.nVars []
        touched := Function.update σ.touched σ.core.nVars false
        elimHeap := σ.core.nVars :: σ.elimHeap } := by
    simp [Simp.newVar, hw.on]
  have hocc : ∀ v y, y ∈ Function.update σ.occurs σ.core.nVars [] v ↔
      v ≠ σ.core.nVars ∧ y ∈ σ.occurs v := by
    intro v y
    by_cases e : v = σ.core.nVars <;> simp [e]
  have htouched : ∀ v, Function.update σ.touched σ.core.nVars false v = true ↔
      v ≠ σ.core.nVars ∧ σ.touched v = true := by
    intro v
    by_cases e : v = σ.core.nVars <;> simp [e]
  rw [heq]
  refine ⟨⟨hroot, hw.on, ?_, ?_, ?_, ?_, hw.queue, hw.bwd_le⟩, hk.assumptions, ?_, ?_, ?_⟩
  · exact fun x hx q hq => (hocc _ x).mpr ⟨hvar x hx q hq, hw.cover x hx q hq⟩
  · exact fun v x hx => hw.live v x ((hocc v x).mp hx).2
  · intro v
    change (Function.update σ.occurs σ.core.nVars [] v).Nodup
    by_cases e : v = σ.core.nVars
    · simp [e]
    · rw [Function.update_of_ne e]
      exact hw.nodup v
  · exact fun v x hx => hw.occurs_lt v x ((hocc v x).mp hx).2
  · exact fun v hv => (hk.touched_lt v ((htouched v).mp hv).2).trans (Nat.lt_succ_self _)
  · intro h0 v
    by_contra hn
    exact absurd ((htouched v).mp (by simpa using hn)).2 (by simp [hk.untouched h0 v])
  · -- the new variable is in nothing that has been taken
    intro e he x ht
    have ht' : e.Taken σ := by cases e <;> exact ht
    have hlits : e.lits σ = e.lits { σ with core := σ.core.newVar dvar } := by cases e <;> rfl
    have hu : e.Untouched σ.touched σ := by
      cases e with
      | clause cr =>
          intro q hq
          have hf : Function.update σ.touched σ.core.nVars false q.var = false := he q hq
          rwa [Function.update_of_ne (hvar cr ht'.1 q hq)] at hf
      | tmpunit p => trivial
    intro hx hnx hsm
    have hc := hk.clear e hu x ht' hx hnx hsm
    rwa [hlits] at hc

/-- What a check that returns true makes of a solver. -/
structure Checked (lim : ℤ) (F : Cnf) (σ τ : Simp) : Prop where
  loaded : Loaded lim F τ
  ok : τ.core.ok = true
  seen : Seen lim σ.touched τ
  queue_eq : τ.queue = []
  bwd_eq : τ.bwdsubAssigns = τ.core.trail.length
  frame_eq : τ.frame = σ.frame

/-- **A check** of a solver between two calls. -/
theorem Loaded.check (h : Loaded lim F σ) (hok : σ.core.ok = true) :
    ∃ r, σ.backwardSubsumptionCheck lim = some r ∧ (r.1 = true → Checked lim F σ r.2) ∧
      (r.1 = false → ¬ Satisfiable F) := by
  have hk := h.kept hok
  have hclean := h.idle.clean hok
  have hmodels := fun m : Model => hclean.models (m := m) hk.work.rooted.learnts_eq
  have hseen : Seen lim σ.touched σ := ⟨hk.clear, fun x hx _ => hclean.inv.processed x hx⟩
  obtain ⟨r, hr, hsub⟩ := backwardSubsumptionCheck_spec hk.work hseen
  refine ⟨r, hr, fun e => ?_, fun e ⟨m, hm⟩ => hsub.unsat e m ((hmodels m).mp hm)⟩
  have hw := hsub.work e
  have hs := hsub.seen e
  have hf := hsub.frame_eq e
  have hfixed : r.2.core.fixed = σ.core.fixed := congrArg Simp.core hf
  have hokr : r.2.core.ok = true := (Core.ok_of_fixed hfixed).trans hok
  have htouched : r.2.touched = σ.touched :=
    (congrArg Simp.touched hf : r.2.frame.touched = σ.frame.touched)
  have hnTouched : r.2.nTouched = σ.nTouched :=
    (congrArg Simp.nTouched hf : r.2.frame.nTouched = σ.frame.nTouched)
  have hclean' : r.2.core.Clean F :=
    hw.rooted.clean (hs.processed (hsub.bwd_eq e).ge) fun m =>
      (hmodels m).trans (hsub.models e m).symm
  refine ⟨⟨⟨fun _ => hclean', fun hn => ?_⟩, fun _ => ⟨hw, ?_, ?_, ?_, ?_⟩⟩, hokr, hs,
    hsub.queue_eq e, hsub.bwd_eq e, hf⟩
  · rw [hokr] at hn
    cases hn
  · exact (Core.assumptions_of_fixed hfixed).trans hk.assumptions
  · rw [htouched, nVars_of_frame hf]
    exact hk.touched_lt
  · rw [htouched, hnTouched]
    exact hk.untouched
  · rw [htouched]
    exact hs.clear

/-- The touched clauses are queued. -/
theorem Loaded.gather (h : Loaded lim F σ) (hok : σ.core.ok = true) :
    Loaded lim F σ.gatherTouchedClauses ∧ (∀ v, σ.gatherTouchedClauses.touched v = false) ∧
      σ.gatherTouchedClauses.core = σ.core ∧
      σ.gatherTouchedClauses.eliminated = σ.eliminated ∧
      σ.gatherTouchedClauses.elimclauses = σ.elimclauses := by
  have hk := h.kept hok
  obtain ⟨hg, hseen, hfalse, -⟩ := hk.gatherTouchedClauses (h.idle.clean hok).inv.processed
  refine ⟨⟨hg.core_eq.symm ▸ h.idle, fun _ => ⟨hg.work, ?_, fun v hv => ?_, fun _ => hfalse,
    fun e _ => hseen.clear e ?_⟩⟩, hfalse, hg.core_eq, hg.eliminated_eq, hg.elimclauses_eq⟩
  · rw [hg.core_eq]
    exact hk.assumptions
  · rw [hfalse] at hv
    cases hv
  · cases e <;> simp [Entry.Untouched]

theorem loaded_empty : Loaded lim [] .empty where
  idle := ⟨fun _ => Core.clean_empty, fun e => by cases e⟩
  kept _ := by
    have hroot := Core.clean_empty.rooted rfl
    refine ⟨⟨hroot, rfl, ?_, ?_, fun _ => List.nodup_nil, ?_, ?_, le_rfl⟩, rfl, ?_, fun _ _ => rfl,
      ?_⟩
    all_goals simp [Simp.empty, Core.empty, Core.refs, Clear]

end Simp

end Parsat.Minisat
