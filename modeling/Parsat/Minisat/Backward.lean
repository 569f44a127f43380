import Parsat.Minisat.Subsume

/-!
# Minisat — backward subsumption

An entry of the queue goes through the clauses of its variable that occurs least; the loop goes on
until the queue is empty and the trail has been gone through.

* `Clear`: an entry that has been taken does not overlap a clause; what is clear stays clear.
* `scan_spec`, `check_spec`: one entry.
* `backwardSubsumptionCheck_spec`: the check ends, keeps the models and leaves all clear.
-/

namespace Parsat.Minisat

open UnitProp

namespace Simp

variable {σ τ υ : Simp} {lim : ℤ} {T : ℕ → Bool} {x : ℕ} {p : Lit} {m : Model}

/-! ### One entry of the queue -/

/-- The clause is there, or the literal is true. -/
def Entry.In (σ : Simp) : Entry → Prop
  | .clause cr => cr ∈ σ.core.refs
  | .tmpunit p => p ∈ σ.core.trail

theorem Entry.In.holds {e : Entry} (h : e.In σ) (hm : σ.core.abs.Models m) :
    ∃ q ∈ e.lits σ, q.Holds m := by
  obtain ⟨hC, hT⟩ := Core.models_abs.mp hm
  cases e with
  | clause cr => exact hC cr h
  | tmpunit p => exact ⟨p, List.mem_singleton_self p, hT p h⟩

theorem Entry.In.mark {e : Entry} (h : e.In σ) (hw : σ.Work) : e.mark σ = false := by
  cases e with
  | clause cr => exact hw.not_removed h
  | tmpunit p => rfl

theorem Entry.In.step {e : Entry} (h : e.In σ) (hs : Shrinks lim σ τ) (hne : e ≠ .clause x)
    (hrefs : ∀ y ∈ σ.core.refs, y ≠ x → y ∈ τ.core.refs) : e.In τ := by
  cases e with
  | clause cr => exact hrefs cr h fun e => hne (e ▸ rfl)
  | tmpunit p =>
      obtain ⟨ext, he⟩ := hs.trail
      change p ∈ τ.core.trail
      rw [he]
      exact List.mem_append_left ext h

/-- What the check of an entry achieves: the models stay, or there are none. -/
structure Checks (lim : ℤ) (σ : Simp) (r : Bool × Simp) : Prop where
  work : r.1 = true → r.2.Work
  shrinks : r.1 = true → Shrinks lim σ r.2
  models : r.1 = true → ∀ m : Model, r.2.core.abs.Models m ↔ σ.core.abs.Models m
  unsat : r.1 = false → ∀ m : Model, ¬ σ.core.abs.Models m

theorem Checks.refl (h : σ.Work) : Checks lim σ (true, σ) :=
  ⟨fun _ => h, fun _ => .refl lim σ, fun _ _ => .rfl, fun e => by cases e⟩

theorem Checks.none (h : ∀ m : Model, ¬ σ.core.abs.Models m) : Checks lim σ (false, τ) :=
  ⟨fun e => absurd e (by simp), fun e => absurd e (by simp), fun e => absurd e (by simp),
    fun _ => h⟩

theorem Checks.trans {r : Bool × Simp} (hs : Shrinks lim σ τ)
    (hm : ∀ m : Model, τ.core.abs.Models m ↔ σ.core.abs.Models m) (h : Checks lim τ r) :
    Checks lim σ r :=
  ⟨h.work, fun e => hs.trans (h.shrinks e), fun e m => (h.models e m).trans (hm m),
    fun e m hσ => h.unsat e m ((hm m).mpr hσ)⟩

/-- The entry has been taken and is not waiting again. -/
def Entry.Taken (σ : Simp) : Entry → Prop
  | .clause cr => cr ∈ σ.core.refs ∧ cr ∉ σ.queue
  | .tmpunit p => p ∈ σ.core.trail.take σ.bwdsubAssigns

theorem Entry.Taken.of_shrinks {e : Entry} (h : e.Taken τ) (hw : σ.Work) (hs : Shrinks lim σ τ) :
    e.Taken σ := by
  cases e with
  | clause cr => exact ⟨hs.refs cr h.1, fun hq => h.2 (hs.queue_sub cr hq)⟩
  | tmpunit p =>
      obtain ⟨ext, he⟩ := hs.trail
      change p ∈ τ.core.trail.take τ.bwdsubAssigns at h
      rwa [he, hs.bwd_eq, List.take_append_of_le_length hw.bwd_le] at h

theorem Entry.Taken.isIn {e : Entry} (h : e.Taken σ) : e.In σ := by
  cases e with
  | clause cr => exact h.1
  | tmpunit p => exact List.mem_of_mem_take h

theorem Entry.Taken.perm {e : Entry} (h : e.Taken τ) (hs : Shrinks lim σ τ) :
    (e.lits τ).Perm (e.lits σ) := by
  cases e with
  | clause cr => exact (hs.same cr h.1).resolve_left h.2
  | tmpunit p => exact .refl _

/-- An entry that has been taken does not overlap the clause. -/
def Clear (lim : ℤ) (e : Entry) (x : ℕ) (σ : Simp) : Prop :=
  e.Taken σ → x ∈ σ.core.refs → e ≠ .clause x → Small lim (σ.core.ca x) →
    ¬ Overlaps (e.lits σ) (σ.core.ca x)

theorem Clear.mono {e : Entry} (h : Clear lim e x σ) (hw : σ.Work) (hs : Shrinks lim σ τ) :
    Clear lim e x τ := fun ht hx hne hsm ho =>
  h (ht.of_shrinks hw hs) (hs.refs x hx) hne (hs.small x hx hsm)
    (ho.mono (ht.perm hs).symm.subset (hs.lits x hx))

theorem Entry.In.pairwise {e : Entry} (h : e.In σ) (hw : σ.Work) :
    (e.lits σ).Pairwise fun p q => p.var ≠ q.var := by
  cases e with
  | clause cr => exact (hw.rooted.base.shape cr h).2
  | tmpunit p => exact List.pairwise_singleton ..

/-- Resolution of an entry with a clause. -/
theorem Entry.In.resolvent {e : Entry} (h : e.In σ) (hw : σ.Work) (hx : x ∈ σ.core.refs)
    (hp : p ∈ e.lits σ) (hall : ∀ q ∈ e.lits σ, q ∈ σ.core.ca x ∨ q = p)
    (hm : σ.core.abs.Models m) : ∃ a ∈ (σ.core.ca x).erase (-p), a.Holds m := by
  by_cases hpm : p.Holds m
  · obtain ⟨b, hb, hbm⟩ := (Core.models_abs.mp hm).1 x hx
    have hne : b ≠ -p := by
      rintro rfl
      exact (Lit.holds_neg m p).mp hbm hpm
    exact ⟨b, (List.mem_erase_of_ne hne).mpr hb, hbm⟩
  · obtain ⟨q, hq, hqm⟩ := h.holds hm
    have hqp : q ≠ p := fun e => hpm (e ▸ hqm)
    have hne : q ≠ -p := fun e => not_mem_neg (h.pairwise hw) hp (e ▸ hq)
    exact ⟨q, (List.mem_erase_of_ne hne).mpr ((hall q hq).resolve_right hqp), hqm⟩

/-- **The candidates of an entry.** -/
theorem scan_spec (lim : ℤ) {e : Entry} (h : σ.Work) (he : e.In σ) (xs : List ℕ)
    (hxs : ∀ y ∈ xs, y ∈ σ.core.refs ∨ σ.core.removed y = true) :
    Checks lim σ (σ.scan lim e xs) ∧
      ((σ.scan lim e xs).1 = true → ∀ y ∈ xs, Clear lim e y (σ.scan lim e xs).2) := by
  induction xs generalizing σ with
  | nil => exact ⟨.refl h, fun _ => List.forall_mem_nil _⟩
  | cons x xs ih =>
      obtain ⟨hx, hxs⟩ := List.forall_mem_cons.mp hxs
      -- what the rest of the list does behind a step to `τ`
      have hrest : ∀ τ : Simp, τ.Work → e.In τ → Shrinks lim σ τ →
          (∀ m : Model, τ.core.abs.Models m ↔ σ.core.abs.Models m) → Clear lim e x τ →
          Checks lim σ (τ.scan lim e xs) ∧
            ((τ.scan lim e xs).1 = true → ∀ y ∈ x :: xs, Clear lim e y (τ.scan lim e xs).2) := by
        intro τ hw hin hs hm hclear
        obtain ⟨hc, hcl⟩ := ih hw hin fun y hy => hs.kept y (hxs y hy)
        exact ⟨.trans hs hm hc, fun hb => List.forall_mem_cons.mpr
          ⟨hclear.mono hw (hc.shrinks hb), hcl hb⟩⟩
      rw [scan, if_neg (by simp [he.mark h])]
      by_cases hcand : σ.core.removed x = false ∧ e ≠ .clause x ∧ Small lim (σ.core.ca x)
      · rw [if_pos hcand]
        obtain ⟨hlive, hne, hsm⟩ := hcand
        have hx' : x ∈ σ.core.refs := hx.resolve_right (by simp [hlive])
        rcases hsub : subsumes (e.lits σ) (σ.core.ca x) with _ | _ | l
        · refine hrest σ h he (.refl lim σ) (fun _ => .rfl) ?_
          exact fun _ _ _ _ => not_overlaps_of_subsumes (he.pairwise h)
            (h.rooted.base.shape x hx').2 hsub
        · obtain ⟨hw, hs, hrefs, hca, -, -, -⟩ := h.removeClause lim hx'
          have hin := he.step hs hne fun y hy hyx => (hrefs y).mpr ⟨hy, hyx⟩
          refine hrest _ hw hin hs (fun m => ?_) fun _ hx => absurd rfl ((hrefs x).mp hx).2
          refine (models_removeClause h hx').trans (and_iff_left_of_imp fun hm => ?_) |>.symm
          obtain ⟨q, hq, hqm⟩ := hin.holds hm
          refine ⟨q, subset_of_subsumes hsub ?_, hqm⟩
          cases e with
          | clause cr => exact (congrFun hca cr ▸ hq : q ∈ σ.core.ca cr)
          | tmpunit p => exact hq
        · obtain ⟨hl, hnl, hall⟩ := resolves_of_subsumes hsub
          have hsteps := h.strengthenClause hx' hnl hsm
          have hres := fun m : Model => he.resolvent (m := m) h hx' hl hall
          rcases hstr : σ.strengthenClause x (-l) with ⟨_ | _, τ⟩
          · rw [hstr] at hsteps
            simp only [hstr]
            exact ⟨.none fun m hm => hsteps.unsat rfl m hm (hres m hm), fun e => absurd e (by simp)⟩
          · rw [hstr] at hsteps
            simp only [hstr]
            have hs : Shrinks lim σ τ := hsteps.shrinks rfl
            refine hrest τ (hsteps.work rfl) (he.step hs hne (hsteps.others rfl)) hs
              (fun m => ?_) ?_
            · exact (hsteps.models rfl m).trans (and_iff_left_of_imp (hres m))
            · -- the variable is gone from the clause
              intro ht hxτ _ _ ho
              obtain ⟨a, ha, e⟩ := ho.exists_var ((ht.perm hs).mem_iff.mpr hl)
              exact var_ne_of_mem_erase (h.rooted.base.shape x hx').2 hnl
                (hsteps.lits rfl hxτ a ha) e
      · rw [if_neg hcand]
        refine hrest σ h he (.refl lim σ) (fun _ => .rfl) ?_
        exact fun _ hx' hne hsm => absurd ⟨h.not_removed hx', hne, hsm⟩ hcand

theorem exists_best (σ : Simp) {c : Clause} (hc : c ≠ []) : ∃ q ∈ c, q.var = σ.best c := by
  cases c with
  | nil => exact absurd rfl hc
  | cons p c =>
      have hfold : ∀ (c : Clause) (v : ℕ), c.foldl
          (fun v q => if (σ.occurs q.var).length < (σ.occurs v).length then q.var else v) v = v ∨
            ∃ q ∈ c, q.var = c.foldl
              (fun v q => if (σ.occurs q.var).length < (σ.occurs v).length then q.var else v)
              v := by
        intro c
        induction c with
        | nil => exact fun v => .inl rfl
        | cons a c ih =>
            intro v
            simp only [List.foldl_cons]
            split_ifs
            · rcases ih a.var with e | ⟨q, hq, e⟩
              · exact .inr ⟨a, List.mem_cons_self, e.symm⟩
              · exact .inr ⟨q, List.mem_cons_of_mem _ hq, e⟩
            · exact (ih v).imp_right fun ⟨q, hq, e⟩ => ⟨q, List.mem_cons_of_mem _ hq, e⟩
      rcases hfold c p.var with e | ⟨q, hq, e⟩
      · exact ⟨p, List.mem_cons_self, e.symm⟩
      · exact ⟨q, List.mem_cons_of_mem _ hq, e⟩

theorem Entry.In.ne_nil {e : Entry} (h : e.In σ) (hw : σ.Work) : e.lits σ ≠ [] := by
  cases e with
  | clause cr =>
      exact List.ne_nil_of_length_pos (zero_lt_two.trans_le (hw.rooted.base.shape cr h).1)
  | tmpunit p => exact List.cons_ne_nil p []

/-- **One entry.** -/
theorem check_spec (lim : ℤ) {e : Entry} (h : σ.Work) (he : e.In σ) :
    Checks lim σ (check lim e σ) ∧
      ((check lim e σ).1 = true → ∀ y, Clear lim e y (check lim e σ).2) := by
  obtain ⟨hw, hs, hcore, hocc⟩ := h.lookup lim (σ.best (e.lits σ))
  obtain ⟨b, hb, hbest⟩ := σ.exists_best (he.ne_nil h)
  rw [check, if_neg (by simp [he.mark h])]
  set v := σ.best (e.lits σ)
  have hin : e.In (σ.lookup v) := by
    cases e <;> simp only [Entry.In, hcore] at he ⊢ <;> exact he
  obtain ⟨hc, hcl⟩ := scan_spec lim hw hin _ fun y hy => .inl (hcore ▸ ((hocc y).mp hy).1)
  refine ⟨.trans hs (fun m => by rw [hcore]) hc, fun hr y => ?_⟩
  by_cases hy : y ∈ (σ.lookup v).occurs v
  · exact hcl hr y hy
  · -- a clause that overlaps has the variable
    intro ht hy' _ _ ho
    have hshr := hs.trans (hc.shrinks hr)
    obtain ⟨a, ha, e⟩ := ho.exists_var ((ht.perm hshr).mem_iff.mpr hb)
    exact hy ((hocc y).mpr ⟨hshr.refs y hy', a, hshr.lits y hy' a ha, e.trans hbest⟩)

/-! ### The loop -/

/-- Literals of the trail, and clauses without a variable of `T`. -/
def Entry.Untouched (T : ℕ → Bool) (σ : Simp) : Entry → Prop
  | .clause cr => ∀ q ∈ σ.core.ca cr, T q.var = false
  | .tmpunit _ => True

theorem Entry.Untouched.of_shrinks {e : Entry} (h : e.Untouched T τ) (ht : e.Taken τ)
    (hs : Shrinks lim σ τ) : e.Untouched T σ := by
  cases e with
  | clause cr => exact fun q hq => h q ((ht.perm hs).mem_iff.mpr hq)
  | tmpunit p => trivial

/-- Where the check has got to: what has been taken is clear of the small clauses, except for
clauses with a variable of `T`, and the large clauses are not behind. -/
structure Seen (lim : ℤ) (T : ℕ → Bool) (σ : Simp) : Prop where
  clear : ∀ e : Entry, e.Untouched T σ → ∀ x, Clear lim e x σ
  done : ∀ x ∈ σ.core.refs, ¬ Small lim (σ.core.ca x) → σ.core.Done x

/-- With the whole trail taken no clause is behind. -/
theorem Seen.processed (h : Seen lim T σ) (hb : σ.core.trail.length ≤ σ.bwdsubAssigns) :
    ∀ x ∈ σ.core.refs, σ.core.Done x := by
  intro x hx
  by_cases hs : Small lim (σ.core.ca x)
  · intro q hq hf
    have ht : Entry.Taken σ (.tmpunit (-q)) := by
      change -q ∈ σ.core.trail.take σ.bwdsubAssigns
      rw [List.take_of_length_le hb]
      exact List.mem_of_mem_take hf
    refine absurd ⟨-q, fun a ha => .inr ⟨List.mem_singleton.mp ha, ?_⟩⟩
      (h.clear (.tmpunit (-q)) trivial x ht hx (by simp) hs)
    rw [neg_neg]
    exact List.mem_of_mem_take hq
  · exact h.done x hx hs

theorem Seen.next {e : Entry} (h : Seen lim T σ) (hw : τ.Work) (hs : Shrinks lim τ υ)
    (hcore : τ.core = σ.core) (htaken : ∀ e' : Entry, e'.Taken τ → e' = e ∨ e'.Taken σ)
    (hcl : ∀ x, Clear lim e x υ) : Seen lim T υ where
  clear e' hu x := by
    by_cases he : e' = e
    · exact he ▸ hcl x
    · intro ht'
      have hlits : e'.lits τ = e'.lits σ := by cases e' <;> simp only [Entry.lits, hcore]
      have hu' : e'.Untouched T σ := by
        have hτ := hu.of_shrinks ht' hs
        cases e' with
        | clause cr => exact fun q hq => hτ q (by rw [hcore]; exact hq)
        | tmpunit p => trivial
      refine Clear.mono (fun ht => ?_) hw hs ht'
      rw [hlits, hcore]
      exact h.clear e' hu' x ((htaken e' ht).resolve_left he)
  done x hx hns := by
    obtain ⟨hns', hd⟩ := hs.done x hx hns
    rw [hcore] at hns' hd
    exact hd (h.done x (hcore ▸ hs.refs x hx) hns')

/-- What `backwardSubsumptionCheck` returns. -/
structure Subsumed (lim : ℤ) (T : ℕ → Bool) (σ : Simp) (r : Bool × Simp) : Prop where
  work : r.1 = true → r.2.Work
  seen : r.1 = true → Seen lim T r.2
  queue_eq : r.1 = true → r.2.queue = []
  bwd_eq : r.1 = true → r.2.bwdsubAssigns = r.2.core.trail.length
  frame_eq : r.1 = true → r.2.frame = σ.frame
  models : r.1 = true → ∀ m : Model, r.2.core.abs.Models m ↔ σ.core.abs.Models m
  unsat : r.1 = false → ∀ m : Model, ¬ σ.core.abs.Models m

theorem Subsumed.none (h : ∀ m : Model, ¬ σ.core.abs.Models m) : Subsumed lim T σ (false, τ) where
  work e := absurd e (by simp)
  seen e := absurd e (by simp)
  queue_eq e := absurd e (by simp)
  bwd_eq e := absurd e (by simp)
  frame_eq e := absurd e (by simp)
  models e := absurd e (by simp)
  unsat _ := h

theorem Subsumed.of_step {r : Bool × Simp} (hf : τ.frame = σ.frame)
    (hm : ∀ m : Model, τ.core.abs.Models m ↔ σ.core.abs.Models m) (h : Subsumed lim T τ r) :
    Subsumed lim T σ r :=
  { h with
    frame_eq := fun e => (h.frame_eq e).trans hf
    models := fun e m => (h.models e m).trans (hm m)
    unsat := fun e m hσ => h.unsat e m ((hm m).mpr hσ) }

theorem nVars_of_frame (h : τ.frame = σ.frame) : τ.core.nVars = σ.core.nVars :=
  Core.nVars_of_fixed (congrArg Simp.core h)

theorem backwardLoop_cons {n cr : ℕ} {queue : List ℕ} {r : Bool × Simp}
    (hq : σ.queue = cr :: queue) (hr : check lim (.clause cr) { σ with queue := queue } = r) :
    σ.backwardLoop lim (n + 1) = if r.1 then r.2.backwardLoop lim n else some (false, r.2) := by
  rw [backwardLoop]
  simp only [hq, hr]
  rcases r with ⟨_ | _, υ⟩ <;> rfl

theorem backwardLoop_nil {n : ℕ} {r : Bool × Simp} (hq : σ.queue = [])
    (hp : σ.core.trail[σ.bwdsubAssigns]? = some p)
    (hr : check lim (.tmpunit p) { σ with bwdsubAssigns := σ.bwdsubAssigns + 1 } = r) :
    σ.backwardLoop lim (n + 1) = if r.1 then r.2.backwardLoop lim n else some (false, r.2) := by
  rw [backwardLoop]
  simp only [hq] at hr ⊢
  simp only [hp, hr]
  rcases r with ⟨_ | _, υ⟩ <;> rfl

/-- **The loop ends**, and has checked everything when it does. -/
theorem backwardLoop_spec {n : ℕ} (h : σ.Work) (hseen : Seen lim T σ)
    (hn : σ.weight + (σ.core.nVars - σ.bwdsubAssigns) < n) :
    ∃ r, σ.backwardLoop lim n = some r ∧ Subsumed lim T σ r := by
  induction n generalizing σ with
  | zero => exact absurd hn (Nat.not_lt_zero _)
  | succ n ih =>
      -- what the rest of the loop does behind the check of an entry
      have hrest : ∀ (e : Entry) (τ υ : Simp), τ.core = σ.core → τ.frame = σ.frame →
          (∀ e' : Entry, e'.Taken τ → e' = e ∨ e'.Taken σ) → τ.Work →
          τ.weight + (τ.core.nVars - τ.bwdsubAssigns) < n → υ.Work → Shrinks lim τ υ →
          (∀ m : Model, υ.core.abs.Models m ↔ τ.core.abs.Models m) → (∀ x, Clear lim e x υ) →
          ∃ r, υ.backwardLoop lim n = some r ∧ Subsumed lim T σ r := by
        intro e τ υ hcore hf htaken hw hlt hw' hs hm hcl
        have hlt' : υ.weight + (υ.core.nVars - υ.bwdsubAssigns) < n := by
          have hn' : υ.core.nVars = τ.core.nVars := nVars_of_frame hs.frame_eq
          have hb : υ.bwdsubAssigns = τ.bwdsubAssigns := hs.bwd_eq
          have hle : υ.weight ≤ τ.weight := hs.weight_le
          omega
        obtain ⟨r, hr, hsub⟩ := ih hw' (hseen.next hw hs hcore htaken hcl) hlt'
        exact ⟨r, hr, hsub.of_step (hs.frame_eq.trans hf) fun m => by rw [hm, hcore]⟩
      cases hq : σ.queue with
      | cons cr queue =>
          set τ : Simp := { σ with queue := queue } with hτ
          have hw : τ.Work :=
            { h with queue := fun x hx => h.queue x (hq ▸ List.mem_cons_of_mem _ hx) }
          have htaken : ∀ e' : Entry, e'.Taken τ → e' = .clause cr ∨ e'.Taken σ := by
            rintro (x | p) ht
            · by_cases e : x = cr
              · exact .inl (e ▸ rfl)
              · refine .inr ⟨ht.1, fun hx => ?_⟩
                exact (List.mem_cons.mp (hq ▸ hx)).elim e ht.2
            · exact .inr ht
          have hlt : τ.weight + (τ.core.nVars - τ.bwdsubAssigns) < n := by
            have hweight : τ.weight + 1 = σ.weight := by
              simp only [weight, hτ, hq, List.length_cons]
              omega
            change τ.weight + (σ.core.nVars - σ.bwdsubAssigns) < n
            omega
          rcases (h.queue cr (hq ▸ List.mem_cons_self)).1 with hcr | hcr
          · obtain ⟨hc, hcl⟩ := check_spec lim hw (e := .clause cr) hcr
            rcases hres : check lim (.clause cr) τ with ⟨_ | _, υ⟩
            · rw [hres] at hc
              rw [backwardLoop_cons hq hres, if_neg (by simp)]
              exact ⟨_, rfl, .none (hc.unsat rfl)⟩
            · rw [hres] at hc hcl
              rw [backwardLoop_cons hq hres, if_pos rfl]
              exact hrest _ τ υ rfl rfl htaken hw hlt (hc.work rfl) (hc.shrinks rfl)
                (hc.models rfl) (hcl rfl)
          · -- a removed clause is passed over
            have hres : check lim (.clause cr) τ = (true, τ) := if_pos hcr
            rw [backwardLoop_cons hq hres, if_pos rfl]
            refine hrest (.clause cr) τ τ rfl rfl htaken hw hlt hw (.refl lim τ) (fun _ => .rfl)
              fun x ht => ?_
            exact absurd hcr (by simp [h.not_removed ht.1])
      | nil =>
          rcases hp : σ.core.trail[σ.bwdsubAssigns]? with _ | p
          · have hle := List.getElem?_eq_none_iff.mp hp
            have hend : σ.backwardLoop lim (n + 1) = some (true, σ) := by
              rw [backwardLoop]
              simp only [hq, hp]
            exact ⟨_, hend, fun _ => h, fun _ => hseen, fun _ => hq,
              fun _ => h.bwd_le.antisymm hle, fun _ => rfl, fun _ _ => .rfl,
              fun e => absurd e (by simp)⟩
          · obtain ⟨hlt, -⟩ := List.getElem?_eq_some_iff.mp hp
            set τ : Simp := { σ with bwdsubAssigns := σ.bwdsubAssigns + 1 }
            have hw : τ.Work := { h with bwd_le := hlt }
            have htaken : ∀ e' : Entry, e'.Taken τ → e' = .tmpunit p ∨ e'.Taken σ := by
              rintro (x | a) ht
              · exact .inr ht
              · have ht' : a ∈ σ.core.trail.take (σ.bwdsubAssigns + 1) := ht
                rw [List.take_add_one, hp] at ht'
                rcases List.mem_append.mp ht' with ha | ha
                · exact .inr ha
                · exact .inl (congrArg _ (by simpa using ha))
            have hin : Entry.In τ (.tmpunit p) := List.mem_of_getElem? hp
            obtain ⟨hc, hcl⟩ := check_spec lim hw hin
            rcases hres : check lim (.tmpunit p) τ with ⟨_ | _, υ⟩
            · rw [hres] at hc
              rw [backwardLoop_nil hq hp hres, if_neg (by simp)]
              exact ⟨_, rfl, .none (hc.unsat rfl)⟩
            · rw [hres] at hc hcl
              rw [backwardLoop_nil hq hp hres, if_pos rfl]
              refine hrest _ τ υ rfl rfl htaken hw ?_ (hc.work rfl) (hc.shrinks rfl) (hc.models rfl)
                (hcl rfl)
              have hle := h.rooted.bounded.trail_le h.rooted.base
              change σ.weight + (σ.core.nVars - (σ.bwdsubAssigns + 1)) < n
              omega

theorem backwardSubsumptionCheck_spec (h : σ.Work) (hseen : Seen lim T σ) :
    ∃ r, σ.backwardSubsumptionCheck lim = some r ∧ Subsumed lim T σ r :=
  backwardLoop_spec h hseen (Nat.lt_succ_self _)

end Simp

end Parsat.Minisat
