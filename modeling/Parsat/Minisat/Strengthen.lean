import Parsat.Minisat.Calls

/-!
# Minisat — clauses that change at level 0

Simplification works at level 0 on original clauses: it removes them, takes literals out of them and
enqueues what is left of a binary clause.  A clause that loses a literal is detached strictly and
attached again by its first two literals, and these may be false already: the clause is then behind
with what has been propagated.  `Rooted` is the invariant without that part, and `Done` says of a
single clause that it is not behind.

* `Rooted.dropRef`, `Rooted.strengthen`, `Rooted.enqueue`: the three steps, and what the clauses and
  the trail say after them.
* `Rooted.clean`: with no clause behind, the solver is between two calls.
-/

namespace Parsat.Minisat

open UnitProp

namespace Core

/-- `remove(watches[p], Watcher(cr, _))`: watchers are compared by their clause. -/
def unwatch (s : Core) (p : Lit) (cr : ℕ) : Core :=
  { s with watches := Function.update s.watches p ((s.watches p).eraseP fun w => w.cref = cr) }

/-- `detachClause(cr, true)`. -/
def detachStrict (s : Core) (cr : ℕ) : Core :=
  match s.ca cr with
  | a :: b :: _ => (s.unwatch (-a) cr).unwatch (-b) cr
  | _ => s

/-- `detachClause(cr, true)`, `c.strengthen(l)` and `attachClause(cr)`. -/
def strengthen (s : Core) (cr : ℕ) (l : Lit) : Core :=
  ((s.detachStrict cr).setClause cr ((s.ca cr).erase l)).attachClause cr

/-- `enqueue(p)`. -/
def enqueue (s : Core) (p : Lit) : Bool × Core :=
  if s.value p ≠ .undef then (s.value p ≠ .false, s) else (true, s.uncheckedEnqueue p none)

variable {s t u : Core} {W : Lit → List Watcher} {p q l a b : Lit} {cr x : ℕ} {c rest : Clause}
  {F : Cnf} {m : Model}

/-! ### Other watches -/

theorem mem_unwatch (hn : ((s.watches q).map Watcher.cref).Nodup) {w : Watcher} :
    w ∈ (s.unwatch p cr).watches q ↔ w ∈ s.watches q ∧ (q = p → w.cref ≠ cr) := by
  simp only [unwatch]
  by_cases e : q = p
  · subst e
    rw [Function.update_self]
    simp only [forall_const]
    generalize s.watches q = ws at hn ⊢
    induction ws with
    | nil => simp
    | cons v ws ih =>
        obtain ⟨hv, hws⟩ := List.nodup_cons.mp hn
        by_cases ev : v.cref = cr
        · rw [List.eraseP_cons_of_pos (by simpa using ev)]
          have hne : ∀ w ∈ ws, w.cref ≠ cr := fun w hw e => hv (ev ▸ e ▸ List.mem_map_of_mem hw)
          constructor
          · exact fun hw => ⟨List.mem_cons_of_mem _ hw, hne w hw⟩
          · rintro ⟨hw, hcr⟩
            exact (List.mem_cons.mp hw).resolve_left fun e => hcr (e ▸ ev)
        · rw [List.eraseP_cons_of_neg (by simpa using ev), List.mem_cons, ih hws, List.mem_cons]
          constructor
          · rintro (rfl | ⟨hw, hcr⟩)
            · exact ⟨.inl rfl, ev⟩
            · exact ⟨.inr hw, hcr⟩
          · rintro ⟨rfl | hw, hcr⟩
            · exact .inl rfl
            · exact .inr ⟨hw, hcr⟩
  · rw [Function.update_of_ne e]
    simp [e]

theorem nodup_unwatch (hn : ((s.watches q).map Watcher.cref).Nodup) :
    (((s.unwatch p cr).watches q).map Watcher.cref).Nodup := by
  simp only [unwatch]
  by_cases e : q = p
  · subst e
    rw [Function.update_self]
    exact hn.sublist (List.eraseP_sublist.map _)
  · rwa [Function.update_of_ne e]

theorem detachStrict_eq (s : Core) (cr : ℕ) :
    s.detachStrict cr = { s with watches := (s.detachStrict cr).watches } := by
  unfold detachStrict
  rcases s.ca cr with _ | ⟨a, _ | ⟨b, rest⟩⟩ <;> rfl

/-- **No list names the clause** once it is detached strictly. -/
theorem Watching.mem_detachStrict (h : s.Watching s.watches) (hcr : cr ∈ s.refs) {w : Watcher} :
    w ∈ (s.detachStrict cr).watches q ↔ w ∈ s.watches q ∧ w.cref ≠ cr := by
  obtain ⟨a, b, rest, hc, -⟩ := h.exists_watches hcr
  have hn : (((s.unwatch (-a) cr).watches q).map Watcher.cref).Nodup := nodup_unwatch (h.nodup q)
  simp only [detachStrict, hc]
  rw [mem_unwatch hn, mem_unwatch (h.nodup q), and_assoc]
  refine and_congr_right fun hw => ⟨?_, fun hne => ⟨fun _ => hne, fun _ => hne⟩⟩
  rintro ⟨ha, hb⟩ e
  have hq := h.watch q w hw (e ▸ hcr)
  rw [e, hc] at hq
  rcases (by simpa using hq : -q = a ∨ -q = b) with rfl | rfl
  · exact ha (neg_neg q).symm e
  · exact hb (neg_neg q).symm e

theorem Watching.nodup_detachStrict (h : s.Watching s.watches) :
    (((s.detachStrict cr).watches q).map Watcher.cref).Nodup := by
  unfold detachStrict
  split
  · exact nodup_unwatch (nodup_unwatch (h.nodup q))
  · exact h.nodup q

/-- What `strengthen` leaves as it is. -/
theorem strengthen_eq (s : Core) (cr : ℕ) (l : Lit) :
    s.strengthen cr l =
      { s with
        ca := Function.update s.ca cr ((s.ca cr).erase l)
        watches := (s.strengthen cr l).watches } := by
  have hset : (s.detachStrict cr).setClause cr ((s.ca cr).erase l) =
      { s with
        ca := Function.update s.ca cr ((s.ca cr).erase l)
        watches := (s.detachStrict cr).watches } := by
    conv_lhs => rw [detachStrict_eq]
    rfl
  have hattach := attachClause_eq ((s.detachStrict cr).setClause cr ((s.ca cr).erase l)) cr
  change s.strengthen cr l =
    { (s.detachStrict cr).setClause cr ((s.ca cr).erase l) with
      watches := (s.strengthen cr l).watches } at hattach
  rwa [hset] at hattach

@[simp] theorem refs_strengthen (s : Core) (cr : ℕ) (l : Lit) :
    (s.strengthen cr l).refs = s.refs := by
  rw [strengthen_eq]
  rfl

@[simp] theorem clauses_strengthen (s : Core) (cr : ℕ) (l : Lit) :
    (s.strengthen cr l).clauses = s.clauses := by
  rw [strengthen_eq]

@[simp] theorem removed_strengthen (s : Core) (cr : ℕ) (l : Lit) :
    (s.strengthen cr l).removed = s.removed := by
  rw [strengthen_eq]

@[simp] theorem size_strengthen (s : Core) (cr : ℕ) (l : Lit) :
    (s.strengthen cr l).size = s.size := by
  rw [strengthen_eq]

@[simp] theorem trail_strengthen (s : Core) (cr : ℕ) (l : Lit) :
    (s.strengthen cr l).trail = s.trail := by
  rw [strengthen_eq]

@[simp] theorem qhead_strengthen (s : Core) (cr : ℕ) (l : Lit) :
    (s.strengthen cr l).qhead = s.qhead := by
  rw [strengthen_eq]

@[simp] theorem fixed_strengthen (s : Core) (cr : ℕ) (l : Lit) :
    (s.strengthen cr l).fixed = s.fixed := by
  rw [strengthen_eq]
  rfl

theorem ca_strengthen (s : Core) (cr x : ℕ) (l : Lit) :
    (s.strengthen cr l).ca x = if x = cr then (s.ca cr).erase l else s.ca x := by
  rw [strengthen_eq]
  exact Function.update_apply ..

theorem ca_strengthen_self (s : Core) (cr : ℕ) (l : Lit) :
    (s.strengthen cr l).ca cr = (s.ca cr).erase l := by
  rw [ca_strengthen, if_pos rfl]

theorem ca_strengthen_of_ne (h : x ≠ cr) : (s.strengthen cr l).ca x = s.ca x := by
  rw [ca_strengthen, if_neg h]

theorem ca_strengthen_subset (s : Core) (cr x : ℕ) (l : Lit) :
    (s.strengthen cr l).ca x ⊆ s.ca x := by
  rw [ca_strengthen]
  split_ifs with e
  · exact e ▸ List.erase_subset
  · exact List.Subset.refl _

/-- The lists name the clause by its new watches. -/
theorem Watching.mem_strengthen (h : s.Watching s.watches) (hcr : cr ∈ s.refs)
    (hc : (s.ca cr).erase l = a :: b :: rest) (hab : a ≠ b) {w : Watcher} :
    w ∈ (s.strengthen cr l).watches q ↔
      w ∈ s.watches q ∧ w.cref ≠ cr ∨ q = -a ∧ w = ⟨cr, b⟩ ∨ q = -b ∧ w = ⟨cr, a⟩ := by
  have hself : ((s.detachStrict cr).setClause cr ((s.ca cr).erase l)).ca cr = a :: b :: rest := by
    rw [ca_setClause, if_pos rfl, hc]
  rw [strengthen, mem_watches_attachClause hself hab, ← h.mem_detachStrict hcr]
  rfl

/-- **A clause without one of its literals**, at level 0. -/
theorem Base.strengthen (h : s.Base s.watches) (hdl : s.trailLim = []) (hcr : cr ∈ s.refs)
    (hlen : 2 < (s.ca cr).length) : (s.strengthen cr l).Base (s.strengthen cr l).watches := by
  obtain ⟨a, b, rest, hc, hvars⟩ : ∃ a b rest, (s.ca cr).erase l = a :: b :: rest ∧
      (a :: b :: rest).Pairwise fun p q => p.var ≠ q.var := by
    have hsub : ((s.ca cr).erase l).Sublist (s.ca cr) := List.erase_sublist
    have hpair := (h.shape cr hcr).2.sublist hsub
    have hlen' : 2 ≤ ((s.ca cr).erase l).length := by
      have := List.le_length_erase (a := l) (l := s.ca cr)
      omega
    rcases e : (s.ca cr).erase l with _ | ⟨a, _ | ⟨b, rest⟩⟩
    · simp [e] at hlen'
    · simp [e] at hlen'
    · exact ⟨a, b, rest, rfl, e ▸ hpair⟩
  have hab : a ≠ b := by
    rintro rfl
    exact (List.pairwise_cons.mp hvars).1 a List.mem_cons_self rfl
  have hmem := fun q w => h.toWatching.mem_strengthen (q := q) (w := w) hcr hc hab
  have hnodup : ∀ q, (((s.strengthen cr l).watches q).map Watcher.cref).Nodup := by
    intro q
    refine nodup_watches_attachClause ((ca_setClause ..).trans ((if_pos rfl).trans hc)) hab ?_
      h.toWatching.nodup_detachStrict
    exact fun w hw => ((h.toWatching.mem_detachStrict hcr).mp hw).2
  have hlevel : ∀ (k : ℕ) (p : Lit), s.trail[k]? = some p → s.level p.var = 0 := fun k p hk =>
    h.level_eq_zero hdl (List.mem_of_getElem? hk)
  have hself : (s.strengthen cr l).ca cr = a :: b :: rest := (ca_strengthen_self ..).trans hc
  have hother : ∀ x, x ≠ cr → (s.strengthen cr l).ca x = s.ca x := fun _ => ca_strengthen_of_ne
  have hrefs : (s.strengthen cr l).refs = s.refs := refs_strengthen ..
  have htrail : (s.strengthen cr l).trail = s.trail := trail_strengthen ..
  have heq := strengthen_eq s cr l
  set t := s.strengthen cr l
  have hlim : t.trailLim = [] := by rw [heq]; exact hdl
  have hlevel0 : t.level0 = s.level0 := by rw [level0, level0, htrail, hlim, hdl]
  refine ⟨⟨hrefs ▸ h.refs_nodup, ?_, ?_, ?_, ?_, ?_, ?_, ?_, ?_, hnodup⟩,
    h.wf.of_trail htrail (by rw [heq]; rfl), by simp [hlim], by simp [hlim], by simp [hlim],
    ?_, ?_⟩
  · rw [hrefs, heq]
    exact h.refs_lt
  · rw [hrefs, heq]
    exact h.refs_live
  · intro x hx
    by_cases e : x = cr
    · subst e
      rw [hself]
      exact ⟨by simp, hvars⟩
    · rw [hother x e]
      exact h.shape x (hrefs ▸ hx)
  · intro x hx q hq
    by_cases e : x = cr
    · subst e
      rw [hself] at hq
      rcases (by simpa using hq : q = a ∨ q = b) with rfl | rfl
      · exact ⟨_, (hmem _ _).mpr (.inr (.inl ⟨rfl, rfl⟩)), rfl⟩
      · exact ⟨_, (hmem _ _).mpr (.inr (.inr ⟨rfl, rfl⟩)), rfl⟩
    · rw [hother x e] at hq
      obtain ⟨w, hw, rfl⟩ := h.cover x (hrefs ▸ hx) q hq
      exact ⟨w, (hmem _ _).mpr (.inl ⟨hw, e⟩), rfl⟩
  · intro q w hw hx
    rcases (hmem q w).mp hw with ⟨hw, e⟩ | ⟨rfl, rfl⟩ | ⟨rfl, rfl⟩
    · rw [hother _ e]
      exact h.watch q w hw (hrefs ▸ hx)
    · simp [hself]
    · simp [hself]
  · intro q w hw hx
    rcases (hmem q w).mp hw with ⟨hw, e⟩ | ⟨rfl, rfl⟩ | ⟨rfl, rfl⟩
    · rw [hother _ e, hlevel0]
      exact h.blocker q w hw (hrefs ▸ hx)
    · exact .inl (by simp [hself])
    · exact .inl (by simp [hself])
  · intro q w hw
    rcases (hmem q w).mp hw with ⟨hw, -⟩ | ⟨rfl, rfl⟩ | ⟨rfl, rfl⟩
    · rw [hrefs, heq]
      exact h.live q w hw
    · exact .inl (hrefs ▸ hcr)
    · exact .inl (hrefs ▸ hcr)
  · intro q w hw
    rw [show t.size = s.size by rw [heq]]
    rcases (hmem q w).mp hw with ⟨hw, -⟩ | ⟨rfl, rfl⟩ | ⟨rfl, rfl⟩
    · exact h.lt q w hw
    · exact h.refs_lt cr hcr
    · exact h.refs_lt cr hcr
  · intro k p hk
    rw [hlim, List.countP_nil, show t.level = s.level by rw [heq]; rfl]
    exact hlevel k p (htrail ▸ hk)
  · -- at level 0 there is nothing to say of reasons
    intro k p y hk _ hl
    rw [show t.level = s.level by rw [heq]; rfl, hlevel k p (htrail ▸ hk)] at hl
    exact absurd hl (lt_irrefl 0)

/-! ### Level 0, with clauses that are behind -/

/-- Level 0 without learnt clauses, where all of the trail has been propagated but for the clauses
that have been strengthened since. -/
structure Rooted (s : Core) : Prop where
  base : s.Base s.watches
  bounded : s.Bounded
  qhead_eq : s.qhead = s.trail.length
  trailLim_eq : s.trailLim = []
  learnts_eq : s.learnts = []

theorem Rooted.level0_eq (h : s.Rooted) : s.level0 = s.trail := by simp [level0, h.trailLim_eq]

theorem Rooted.refs_eq (h : s.Rooted) : s.refs = s.clauses := by simp [refs, h.learnts_eq]

theorem models_abs :
    s.abs.Models m ↔ (∀ x ∈ s.refs, ∃ q ∈ s.ca x, q.Holds m) ∧ m.Meets s.trail := by
  simp only [Solver.Models, abs, Satisfies, db, List.mem_map, forall_exists_index, and_imp,
    forall_apply_eq_imp_iff₂]

/-- **With no clause behind** the solver is between two calls. -/
theorem Rooted.clean (h : s.Rooted) (hdone : ∀ x ∈ s.refs, s.Done x)
    (hF : ∀ m : Model, m.Sat F ↔ s.abs.Models m) : s.Clean F := by
  have hlevel : ∀ p ∈ s.trail, s.level p.var = 0 := fun p => h.base.level_eq_zero h.trailLim_eq
  refine ⟨⟨⟨h.base, h.qhead_eq.le, hdone⟩,
    { h.bounded with
      decided := fun k p hk hl _ => absurd (hlevel p (List.mem_of_getElem? hk)) hl.ne'
      assumed := fun p hp _ hl _ => absurd (hlevel p hp) hl.ne'
      met := fun i a hi => absurd hi (by simp [decisionLevel, h.trailLim_eq]) },
    ⟨fun m => ?_, fun m _ => ?_⟩⟩, h.qhead_eq, h.trailLim_eq⟩
  · rw [hF, h.level0_eq, ← h.refs_eq]
    exact .rfl
  · rw [h.learnts_eq]
    exact List.forall_mem_nil _

theorem Clean.rooted (h : s.Clean F) (hl : s.learnts = []) : s.Rooted :=
  ⟨h.inv.toBase, h.searching.toBounded, h.qhead_eq, h.trailLim_eq, hl⟩

theorem Clean.models (h : s.Clean F) (hl : s.learnts = []) : m.Sat F ↔ s.abs.Models m := by
  have h0 := (h.rooted hl).level0_eq
  rw [h.means.models m, h0, ← (h.rooted hl).refs_eq]
  exact .rfl

/-- What one clause less means. -/
theorem Rooted.dropRef (h : s.Rooted) (hcr : cr ∈ s.refs) :
    (s.dropRef cr (s.clauses.erase cr) s.learnts).Rooted ∧
      ∀ x, x ∈ (s.dropRef cr (s.clauses.erase cr) s.learnts).refs ↔ x ∈ s.refs ∧ x ≠ cr := by
  have hn : s.clauses.Nodup := h.refs_eq ▸ h.base.refs_nodup
  have hmem : ∀ x, x ∈ s.clauses.erase cr ++ s.learnts ↔ x ∈ s.refs ∧ x ≠ cr := fun x => by
    rw [h.refs_eq, h.learnts_eq, List.append_nil, hn.mem_erase_iff, and_comm]
  have hnodup : (s.clauses.erase cr ++ s.learnts).Nodup := by
    rw [h.learnts_eq, List.append_nil]
    exact hn.erase cr
  have hbase := h.base.dropRef hcr hmem hnodup
    fun p hp _ => h.base.level_eq_zero h.trailLim_eq hp
  refine ⟨?_, hmem⟩
  rw [dropRef_eq] at hbase ⊢
  exact ⟨hbase, { h.bounded with vars := fun x hx => h.bounded.vars x ((hmem x).mp hx).1 },
    h.qhead_eq, h.trailLim_eq, h.learnts_eq⟩

theorem Rooted.strengthen (h : s.Rooted) (hcr : cr ∈ s.refs) (hlen : 2 < (s.ca cr).length) :
    (s.strengthen cr l).Rooted := by
  have hbase := h.base.strengthen (l := l) h.trailLim_eq hcr hlen
  have hsub := fun x => ca_strengthen_subset s cr x l
  rw [strengthen_eq] at hbase hsub ⊢
  exact ⟨hbase, { h.bounded with vars := fun x hx q hq => h.bounded.vars x hx q (hsub x hq) },
    h.qhead_eq, h.trailLim_eq, h.learnts_eq⟩

/-- What is written over a removed clause is not seen. -/
theorem Rooted.setClause (h : s.Rooted) (hcr : cr ∉ s.refs) (c : Clause) :
    (s.setClause cr c).Rooted := by
  have hca : ∀ x ∈ s.refs, (s.setClause cr c).ca x = s.ca x := fun x hx =>
    (ca_setClause ..).trans (if_neg fun e : x = cr => hcr (e ▸ hx))
  have hlevel : ∀ (k : ℕ) (p : Lit), s.trail[k]? = some p → s.level p.var = 0 := fun k p hk =>
    h.base.level_eq_zero h.trailLim_eq (List.mem_of_getElem? hk)
  refine ⟨?_, { h.bounded with vars := fun x hx => ?_ }, h.qhead_eq, h.trailLim_eq, h.learnts_eq⟩
  · exact
      { h.base with
        shape := fun x hx => by rw [hca x hx]; exact h.base.shape x hx
        cover := fun x hx q hq => h.base.cover x hx q (hca x hx ▸ hq)
        watch := fun q w hw hx => by rw [hca _ hx]; exact h.base.watch q w hw hx
        blocker := fun q w hw hx => by rw [hca _ hx]; exact h.base.blocker q w hw hx
        wf := h.base.wf.of_trail rfl rfl
        upTo := fun n hn => absurd (h.trailLim_eq ▸ hn : n ∈ []) List.not_mem_nil
        reason_eq := fun k p y hk _ hl => absurd (hlevel k p hk) hl.ne' }
  · rw [hca x hx]
    exact h.bounded.vars x hx

/-- What enqueueing a literal and propagating it at level 0 comes to. -/
structure Enqueued (s : Core) (p : Lit) (r : Option ℕ × Core) : Prop where
  clauses_eq : r.2.clauses = s.clauses
  refs_eq : r.2.refs = s.refs
  removed_eq : r.2.removed = s.removed
  size_eq : r.2.size = s.size
  perm : ∀ x, (r.2.ca x).Perm (s.ca x)
  trail_eq : ∃ ext, r.2.trail = s.trail ++ p :: ext
  rooted : r.1 = none → r.2.Rooted
  done : r.1 = none → ∀ x ∈ s.refs, s.Done x → r.2.Done x
  models : ∀ m : Model, s.abs.Models m → p.Holds m → r.1 = none ∧ r.2.abs.Models m
  fixed_eq : r.2.fixed = s.fixed

theorem Rooted.enqueue (h : s.Rooted) (hp : s.value p = .undef) (hu : s.Usable p.var) :
    s.Enqueued p (s.uncheckedEnqueue p none).propagate := by
  have hbase : (s.uncheckedEnqueue p none).Base s.watches :=
    h.base.uncheckedEnqueue hp (by simp)
  have hle : (s.uncheckedEnqueue p none).qhead ≤ (s.uncheckedEnqueue p none).trail.length := by
    simp [uncheckedEnqueue, h.qhead_eq]
  have htrail : (s.uncheckedEnqueue p none).trail = s.trail ++ [p] := rfl
  obtain ⟨hext, hbase', hq, hdone, hconfl⟩ := Base.propagate hbase hle
  set r := (s.uncheckedEnqueue p none).propagate
  have hlearnts : r.2.learnts = s.learnts :=
    (congrArg learnts hext.frame_eq : r.2.frame.learnts = _)
  obtain ⟨ext, he⟩ := hext.trail_eq
  have he' : r.2.trail = s.trail ++ p :: ext := by simp [he, htrail]
  -- what is derived is true in the models
  have hholds : ∀ m : Model, s.abs.Models m → p.Holds m → ∀ q ∈ r.2.trail, q.Holds m := by
    intro m hm hpm q hqt
    refine (hext.derived q hqt).sound (valuation_holds m) hm.1 fun x hx => ?_
    rcases List.mem_append.mp (hx : x ∈ s.trail ++ [p]) with hx | hx
    · exact hm.2 x hx
    · exact List.mem_singleton.mp hx ▸ hpm
  have hsat : ∀ m : Model, s.abs.Models m → ∀ x ∈ s.refs, ∃ q ∈ r.2.ca x, q.Holds m := by
    intro m hm x hx
    obtain ⟨q, hqx, hqm⟩ := (models_abs.mp hm).1 x hx
    exact ⟨q, (hext.perm x).mem_iff.mpr hqx, hqm⟩
  have hrefs : r.2.refs = s.refs := hext.refs_eq
  refine ⟨(congrArg clauses hext.frame_eq : r.2.frame.clauses = _), hrefs,
    (congrArg removed hext.frame_eq : r.2.frame.removed = _),
    (congrArg size hext.frame_eq : r.2.frame.size = _), hext.perm, ⟨ext, he'⟩,
    fun _ => ⟨hbase', ?_, hq, ?_, ?_⟩, ?_, ?_, hext.fixed_eq⟩
  · exact (h.bounded.uncheckedEnqueue hu none).of_extends hbase hbase' hext
  · exact hext.trailLim_eq.trans h.trailLim_eq
  · exact hlearnts.trans h.learnts_eq
  · intro e x hx hd
    refine hdone e x hx fun q hqx hf => ?_
    have hf' : -q ∈ (s.trail ++ [p]).take s.qhead := hf
    rw [List.take_append_of_le_length h.qhead_eq.le] at hf'
    obtain ⟨b, hb, hbt⟩ := hd q hqx hf'
    exact ⟨b, hb, List.mem_append_left _ hbt⟩
  · intro m hm hpm
    constructor
    · by_contra hn
      obtain ⟨cr, hcr⟩ := Option.ne_none_iff_exists'.mp hn
      obtain ⟨hmem, hfalse⟩ := hconfl cr hcr
      obtain ⟨q, hqx, hqm⟩ := hsat m hm cr (hrefs ▸ hmem)
      exact (Lit.holds_neg m q).mp (hholds m hm hpm _ (hfalse q hqx)) hqm
    · exact models_abs.mpr ⟨fun x hx => hsat m hm x (hrefs ▸ hx), hholds m hm hpm⟩

/-- The models come from models of before. -/
theorem Enqueued.models_of {r : Option ℕ × Core} (h : s.Enqueued p r) (hm : r.2.abs.Models m) :
    s.abs.Models m ∧ p.Holds m := by
  obtain ⟨ext, he⟩ := h.trail_eq
  obtain ⟨hC, hT⟩ := models_abs.mp hm
  refine ⟨models_abs.mpr ⟨fun x hx => ?_, fun q hq => hT q ?_⟩, hT p ?_⟩
  · obtain ⟨q, hq, hqm⟩ := hC x (h.refs_eq ▸ hx)
    exact ⟨q, (h.perm x).mem_iff.mp hq, hqm⟩
  · rw [he]
    exact List.mem_append_left _ hq
  · rw [he]
    simp

end Core

end Parsat.Minisat
