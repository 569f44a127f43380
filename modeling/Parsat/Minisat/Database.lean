import Parsat.Minisat.Propagate

/-!
# Minisat — the clause database

Clauses are attached (`pushClause`), removed (`removeClause`, whose caller drops the reference) and
trimmed of literals that are false at level 0.  Each keeps the invariant.  A removed clause stays in
the lists of its watches, which are dirty from then on; a trimmed clause may lose the literal that
serves as its blocker, which stays false for good.

* `Base.pushClause`: a new clause, of which no false watch has been left behind.
* `Base.dropRef`: one clause less, if it is no reason above level 0.
* `Inv.trim`: a clause without literals that are false at level 0.
-/

namespace Parsat.Minisat

open UnitProp

namespace Core

/-- `ca.alloc(c, learnt)`, whose reference is pushed on its list and attached. -/
def pushClause (s : Core) (learnt : Bool) (c : Clause) : Core :=
  let t := s.alloc c
  { t with
    clauses := if learnt then t.clauses else t.clauses ++ [s.size]
    learnts := if learnt then t.learnts ++ [s.size] else t.learnts }.attachClause s.size

/-- Trim clause: in place of a false literal comes the last one. -/
def trimRest (isFalse : Lit → Bool) : List Lit → List Lit
  | [] => []
  | q :: rest =>
    if isFalse q then
      match _h : rest.getLast? with
      | none => []
      | some l => trimRest isFalse (l :: rest.dropLast)
    else q :: trimRest isFalse rest
termination_by c => c.length
decreasing_by
  · have : rest ≠ [] := by
      rintro rfl
      cases _h
    have := List.length_pos_of_ne_nil this
    simp only [List.length_cons, List.length_dropLast]
    omega
  · simp

def trim (s : Core) (cr : ℕ) : Core :=
  match s.ca cr with
  | a :: b :: rest => s.setClause cr (a :: b :: trimRest (fun q => s.value q = .false) rest)
  | _ => s

/-- `satisfied(const Clause&)`. -/
def satisfied (s : Core) (c : Clause) : Bool := c.any fun p => s.value p = .true

variable {s t u : Core} {W : Lit → List Watcher} {p q a b : Lit} {cr k n : ℕ} {c rest : Clause}

/-! ### A new clause -/

theorem mem_watches_attachClause (hc : s.ca cr = a :: b :: rest) (hab : a ≠ b) {w : Watcher} :
    w ∈ (s.attachClause cr).watches q ↔
      w ∈ s.watches q ∨ q = -a ∧ w = ⟨cr, b⟩ ∨ q = -b ∧ w = ⟨cr, a⟩ := by
  have hne : -b ≠ -a := fun e => hab (neg_inj.mp e).symm
  simp only [attachClause, hc, pushWatch]
  by_cases ea : q = -a
  · subst ea
    simp [hne.symm]
  · by_cases eb : q = -b
    · subst eb
      simp [hne]
    · simp [ea, eb]

theorem nodup_watches_attachClause (hc : s.ca cr = a :: b :: rest) (hab : a ≠ b)
    (hfresh : ∀ w ∈ s.watches q, w.cref ≠ cr) (hn : ((s.watches q).map Watcher.cref).Nodup) :
    (((s.attachClause cr).watches q).map Watcher.cref).Nodup := by
  have hne : -b ≠ -a := fun e => hab (neg_inj.mp e).symm
  have hpush : ∀ x : Lit, ((s.watches q ++ [(⟨cr, x⟩ : Watcher)]).map Watcher.cref).Nodup := by
    intro x
    rw [List.map_append, List.nodup_append]
    refine ⟨hn, List.nodup_singleton _, ?_⟩
    rintro i hi j hj rfl
    obtain ⟨w, hw, rfl⟩ := List.mem_map.mp hi
    exact hfresh w hw (List.mem_singleton.mp hj)
  simp only [attachClause, hc, pushWatch]
  by_cases ea : q = -a
  · subst ea
    rw [Function.update_of_ne hne.symm, Function.update_self]
    exact hpush b
  · by_cases eb : q = -b
    · subst eb
      rw [Function.update_self, Function.update_of_ne hne]
      exact hpush a
    · rw [Function.update_of_ne eb, Function.update_of_ne ea]
      exact hn

theorem mem_watches_pushClause (learnt : Bool) (hc : c = a :: b :: rest) (hab : a ≠ b)
    {w : Watcher} :
    w ∈ (s.pushClause learnt c).watches q ↔
      w ∈ s.watches q ∨ q = -a ∧ w = ⟨s.size, b⟩ ∨ q = -b ∧ w = ⟨s.size, a⟩ := by
  subst hc
  exact mem_watches_attachClause (Function.update_self ..) hab

theorem nodup_watches_pushClause (learnt : Bool) (hc : c = a :: b :: rest) (hab : a ≠ b)
    (hlt : ∀ w ∈ s.watches q, w.cref < s.size) (hn : ((s.watches q).map Watcher.cref).Nodup) :
    (((s.pushClause learnt c).watches q).map Watcher.cref).Nodup := by
  subst hc
  exact nodup_watches_attachClause (Function.update_self ..) hab (fun w hw => (hlt w hw).ne) hn

theorem attachClause_eq (s : Core) (cr : ℕ) :
    s.attachClause cr = { s with watches := (s.attachClause cr).watches } := by
  unfold attachClause
  rcases s.ca cr with _ | ⟨a, _ | ⟨b, rest⟩⟩ <;> rfl

/-- What a new clause leaves as it is. -/
theorem pushClause_eq (s : Core) (learnt : Bool) (c : Clause) :
    s.pushClause learnt c =
      { s with
        ca := Function.update s.ca s.size c
        size := s.size + 1
        removed := Function.update s.removed s.size false
        clauses := if learnt then s.clauses else s.clauses ++ [s.size]
        learnts := if learnt then s.learnts ++ [s.size] else s.learnts
        watches := (s.pushClause learnt c).watches } := by
  exact attachClause_eq ..

theorem refs_pushClause (s : Core) (learnt : Bool) (c : Clause) :
    (s.pushClause learnt c).refs.Perm (s.size :: s.refs) := by
  rw [pushClause_eq]
  cases learnt with
  | true =>
      change (s.clauses ++ (s.learnts ++ [s.size])).Perm _
      rw [← List.append_assoc]
      exact List.perm_append_singleton ..
  | false =>
      change ((s.clauses ++ [s.size]) ++ s.learnts).Perm _
      rw [List.append_assoc, List.singleton_append]
      exact List.perm_middle

/-- **A new clause** may be attached if no level has left a false watch of it behind. -/
theorem Base.pushClause (h : s.Base s.watches) (learnt : Bool) (hc : c = a :: b :: rest)
    (hvars : c.Pairwise fun p q => p.var ≠ q.var)
    (hup : ∀ n ∈ s.trailLim, -a ∈ s.trail.take n ∨ -b ∈ s.trail.take n →
      ∃ x ∈ c, x ∈ s.trail.take n) :
    (s.pushClause learnt c).Base (s.pushClause learnt c).watches := by
  have hab : a ≠ b := by
    rintro rfl
    rw [hc] at hvars
    exact (List.pairwise_cons.mp hvars).1 a List.mem_cons_self rfl
  have hrefs : ∀ x, x ∈ (s.pushClause learnt c).refs ↔ x = s.size ∨ x ∈ s.refs := fun x => by
    rw [(refs_pushClause s learnt c).mem_iff, List.mem_cons]
  have hnot : s.size ∉ s.refs := fun hm => (h.refs_lt _ hm).false
  have hnodup : (s.pushClause learnt c).refs.Nodup :=
    (refs_pushClause s learnt c).nodup_iff.mpr (List.nodup_cons.mpr ⟨hnot, h.refs_nodup⟩)
  have hself : (s.pushClause learnt c).ca s.size = c := by
    rw [pushClause_eq]
    exact Function.update_self ..
  have hold : ∀ x ∈ s.refs, (s.pushClause learnt c).ca x = s.ca x := fun x hx => by
    rw [pushClause_eq]
    exact Function.update_of_ne (fun e : x = s.size => hnot (e ▸ hx)) ..
  have hlive : ∀ x ∈ s.refs, (s.pushClause learnt c).removed x = s.removed x := fun x hx => by
    rw [pushClause_eq]
    exact Function.update_of_ne (fun e : x = s.size => hnot (e ▸ hx)) ..
  have hwatch := fun q w => mem_watches_pushClause (s := s) (q := q) (w := w) learnt hc hab
  have hnodupW := fun q => nodup_watches_pushClause (q := q) learnt hc hab (h.lt q) (h.nodup q)
  set t := s.pushClause learnt c with ht
  have heq := pushClause_eq s learnt c
  rw [← ht] at heq
  have htrail : t.trail = s.trail := by rw [heq]
  have hlim : t.trailLim = s.trailLim := by rw [heq]
  have hvardata : t.vardata = s.vardata := by rw [heq]
  have hsize : t.size = s.size + 1 := by rw [heq]
  have hdirty : t.dirty = s.dirty := by rw [heq]
  have hassigns : t.assigns = s.assigns := by rw [heq]
  have hlevel0 : t.level0 = s.level0 := by rw [level0, level0, htrail, hlim]
  -- an old clause of the lists is an old clause
  have hmem : ∀ q, ∀ w ∈ s.watches q, w.cref ∈ t.refs → w.cref ∈ s.refs := fun q w hw hx =>
    ((hrefs _).mp hx).resolve_left (h.lt q w hw).ne
  refine ⟨⟨hnodup, ?_, ?_, ?_, ?_, ?_, ?_, ?_, ?_, hnodupW⟩, h.wf.of_trail htrail hassigns, ?_,
    ?_, ?_, ?_, ?_⟩
  · intro x hx
    rcases (hrefs x).mp hx with rfl | hx
    · omega
    · have := h.refs_lt x hx
      omega
  · intro x hx
    rcases (hrefs x).mp hx with rfl | hx
    · rw [heq]
      exact Function.update_self ..
    · exact (hlive x hx).trans (h.refs_live x hx)
  · intro x hx
    rcases (hrefs x).mp hx with rfl | hx
    · rw [hself]
      exact ⟨by simp [hc], hvars⟩
    · exact hold x hx ▸ h.shape x hx
  · intro x hx q hq
    rcases (hrefs x).mp hx with rfl | hx
    · rw [hself, hc] at hq
      rcases (by simpa using hq : q = a ∨ q = b) with rfl | rfl
      · exact ⟨_, (hwatch _ _).mpr (.inr (.inl ⟨rfl, rfl⟩)), rfl⟩
      · exact ⟨_, (hwatch _ _).mpr (.inr (.inr ⟨rfl, rfl⟩)), rfl⟩
    · rw [hold x hx] at hq
      obtain ⟨w, hw, e⟩ := h.cover x hx q hq
      exact ⟨w, (hwatch _ _).mpr (.inl hw), e⟩
  · intro q w hw hx
    rcases (hwatch q w).mp hw with hw | ⟨rfl, rfl⟩ | ⟨rfl, rfl⟩
    · have hx' := hmem q w hw hx
      rw [hold _ hx']
      exact h.watch q w hw hx'
    · simp [hself, hc]
    · simp [hself, hc]
  · intro q w hw hx
    rcases (hwatch q w).mp hw with hw | ⟨rfl, rfl⟩ | ⟨rfl, rfl⟩
    · have hx' := hmem q w hw hx
      rw [hold _ hx', hlevel0]
      exact h.blocker q w hw hx'
    · exact .inl (by simp [hself, hc])
    · exact .inl (by simp [hself, hc])
  · intro q w hw
    rcases (hwatch q w).mp hw with hw | ⟨rfl, rfl⟩ | ⟨rfl, rfl⟩
    · refine (h.live q w hw).imp (fun hx => (hrefs _).mpr (.inr hx)) fun hr => ⟨?_, hdirty ▸ hr.2⟩
      rw [heq]
      exact (Function.update_of_ne (h.lt q w hw).ne ..).trans hr.1
    · exact .inl ((hrefs _).mpr (.inl rfl))
    · exact .inl ((hrefs _).mpr (.inl rfl))
  · intro q w hw
    rcases (hwatch q w).mp hw with hw | ⟨rfl, rfl⟩ | ⟨rfl, rfl⟩
    · have := h.lt q w hw
      omega
    · simp [hsize]
    · simp [hsize]
  · exact hlim ▸ h.lim_sorted
  · rw [hlim, htrail]
    exact h.lim_le
  · intro n hn x hx q hq hf
    rw [hlim] at hn
    rw [htrail] at hf ⊢
    rcases (hrefs x).mp hx with rfl | hx
    · rw [hself] at hq ⊢
      refine hup n hn ?_
      rw [hc] at hq
      rcases (by simpa using hq : q = a ∨ q = b) with rfl | rfl
      · exact .inl hf
      · exact .inr hf
    · rw [hold x hx] at hq ⊢
      exact h.upTo n hn x hx q hq hf
  · intro k p hk
    rw [htrail] at hk
    rw [level, hvardata, hlim]
    exact h.level_eq k p hk
  · intro k p cr hk hr hl
    rw [htrail] at hk ⊢
    rw [reason, hvardata] at hr
    rw [level, hvardata] at hl
    obtain ⟨hcr, rest, hca, hrest⟩ := h.reason_eq k p cr hk hr hl
    exact ⟨(hrefs _).mpr (.inr hcr), rest, (hold cr hcr).trans hca, hrest⟩

/-! ### A clause less -/

theorem detachClause_eq (s : Core) (cr : ℕ) :
    s.detachClause cr = { s with dirty := (s.detachClause cr).dirty } := by
  unfold detachClause
  rcases s.ca cr with _ | ⟨a, _ | ⟨b, rest⟩⟩ <;> rfl

theorem removeClause_eq (s : Core) (cr : ℕ) :
    s.removeClause cr =
      { s with
        dirty := (s.removeClause cr).dirty
        vardata := (s.removeClause cr).vardata
        removed := Function.update s.removed cr true } := by
  unfold removeClause
  rw [detachClause_eq]

/-- The lists of the watches are dirty now. -/
theorem dirty_removeClause (hlen : 2 ≤ (s.ca cr).length) (p : Lit) :
    (s.removeClause cr).dirty p = true ↔ s.dirty p = true ∨ -p ∈ (s.ca cr).take 2 := by
  change (s.detachClause cr).dirty p = true ↔ _
  unfold detachClause
  match hc : s.ca cr, hlen with
  | a :: b :: rest, _ =>
      simp only [smudge, Function.update_apply, List.take_succ_cons, List.take_zero, List.mem_cons,
        List.not_mem_nil, or_false, neg_eq_iff_eq_neg]
      split_ifs <;> simp_all

/-- Levels stay, and only a reason that is removed is forgotten. -/
theorem vardata_removeClause (s : Core) (cr v : ℕ) :
    (s.removeClause cr).level v = s.level v ∧
      ((s.removeClause cr).reason v = s.reason v ∨
        (s.removeClause cr).reason v = none ∧ s.reason v = some cr ∧ s.locked cr = true) := by
  unfold level reason removeClause locked
  match hc : s.ca cr with
  | [] => exact ⟨rfl, .inl rfl⟩
  | a :: rest =>
      simp only
      split_ifs with hl
      · by_cases e : v = a.var
        · subst e
          rw [Function.update_self]
          have hl' : s.value a = .true ∧ s.reason a.var = some cr := of_decide_eq_true hl
          exact ⟨rfl, .inr ⟨rfl, hl'.2, hl⟩⟩
        · rw [Function.update_of_ne e]
          exact ⟨rfl, .inl rfl⟩
      · exact ⟨rfl, .inl rfl⟩

/-- `removeClause` when its caller has dropped the reference. -/
def dropRef (s : Core) (cr : ℕ) (clauses learnts : List ℕ) : Core :=
  { s.removeClause cr with clauses := clauses, learnts := learnts }

theorem dropRef_eq (s : Core) (cr : ℕ) (C L : List ℕ) :
    s.dropRef cr C L =
      { s with
        dirty := (s.removeClause cr).dirty
        vardata := (s.removeClause cr).vardata
        removed := Function.update s.removed cr true
        clauses := C
        learnts := L } := by
  rw [dropRef, removeClause_eq]

/-- **A clause less**, if it is no reason above level 0. -/
theorem Base.dropRef {C L : List ℕ} (h : s.Base W) (hcr : cr ∈ s.refs)
    (hmem : ∀ x, x ∈ C ++ L ↔ x ∈ s.refs ∧ x ≠ cr) (hn : (C ++ L).Nodup)
    (hreason : ∀ p ∈ s.trail, s.reason p.var = some cr → s.level p.var = 0) :
    (s.dropRef cr C L).Base W := by
  have hdirty := dirty_removeClause (h.shape cr hcr).1
  have hvardata := vardata_removeClause s cr
  have heq := dropRef_eq s cr C L
  have hlevel : ∀ v, (s.dropRef cr C L).level v = s.level v := fun v => (hvardata v).1
  have hreason' : ∀ v x, (s.dropRef cr C L).reason v = some x → s.reason v = some x := by
    intro v x hx
    rcases (hvardata v).2 with e | ⟨e, -⟩
    · exact e.symm.trans hx
    · exact absurd (e.symm.trans hx) (by simp)
  have hsub : ∀ x ∈ (s.dropRef cr C L).refs, x ∈ s.refs ∧ x ≠ cr := fun x hx => (hmem x).mp hx
  have hca : (s.dropRef cr C L).ca = s.ca := by rw [heq]
  have htrail : (s.dropRef cr C L).trail = s.trail := by rw [heq]
  have hlim : (s.dropRef cr C L).trailLim = s.trailLim := by rw [heq]
  have hlevel0 : (s.dropRef cr C L).level0 = s.level0 := by rw [level0, level0, htrail, hlim]
  have hremoved : (s.dropRef cr C L).removed = Function.update s.removed cr true := by rw [heq]
  have hsize : (s.dropRef cr C L).size = s.size := by rw [heq]
  refine ⟨⟨hn, ?_, ?_, ?_, ?_, ?_, ?_, ?_, ?_, h.nodup⟩,
    h.wf.of_trail htrail (show (s.dropRef cr C L).assigns = _ by rw [heq]; rfl), ?_, ?_, ?_, ?_, ?_⟩
  · rw [hsize]
    exact fun x hx => h.refs_lt x (hsub x hx).1
  · intro x hx
    rw [hremoved, Function.update_of_ne (hsub x hx).2]
    exact h.refs_live x (hsub x hx).1
  · rw [hca]
    exact fun x hx => h.shape x (hsub x hx).1
  · rw [hca]
    exact fun x hx q hq => h.cover x (hsub x hx).1 q hq
  · rw [hca]
    exact fun q w hw hx => h.watch q w hw (hsub _ hx).1
  · rw [hca, hlevel0]
    exact fun q w hw hx => h.blocker q w hw (hsub _ hx).1
  · -- what is removed is behind a dirty list
    intro q w hw
    rw [hremoved]
    by_cases e : w.cref = cr
    · refine .inr ⟨by rw [e, Function.update_self], (hdirty q).mpr (.inr ?_)⟩
      exact e ▸ h.watch q w hw (e ▸ hcr)
    · rw [Function.update_of_ne e]
      exact (h.live q w hw).imp (fun hx => (hmem _).mpr ⟨hx, e⟩)
        fun hr => ⟨hr.1, (hdirty q).mpr (.inl hr.2)⟩
  · rw [hsize]
    exact h.lt
  · exact hlim ▸ h.lim_sorted
  · rw [hlim, htrail]
    exact h.lim_le
  · rw [hlim]
    intro n hn x hx
    rw [hca, htrail]
    exact h.upTo n hn x (hsub x hx).1
  · intro k p hk
    rw [htrail] at hk
    rw [hlevel, hlim]
    exact h.level_eq k p hk
  · intro k p x hk hr hl
    rw [htrail] at hk
    rw [hlevel] at hl
    rw [hca, htrail]
    obtain ⟨hx, rest, hc, hrest⟩ := h.reason_eq k p x hk (hreason' _ x hr) hl
    refine ⟨(hmem x).mpr ⟨hx, ?_⟩, rest, hc, hrest⟩
    rintro rfl
    have := hreason p (List.mem_of_getElem? hk) (hreason' _ x hr)
    omega

theorem Inv.dropRef {C L : List ℕ} (h : s.Inv) (hcr : cr ∈ s.refs)
    (hmem : ∀ x, x ∈ C ++ L ↔ x ∈ s.refs ∧ x ≠ cr) (hn : (C ++ L).Nodup)
    (hreason : ∀ p ∈ s.trail, s.reason p.var = some cr → s.level p.var = 0) :
    (s.dropRef cr C L).Inv := by
  have hbase := h.toBase.dropRef hcr hmem hn hreason
  rw [dropRef_eq] at hbase ⊢
  exact ⟨hbase, h.qhead_le, fun x hx => h.processed x ((hmem x).mp hx).1⟩

/-! ### A clause with fewer literals -/

theorem trimRest_perm (f : Lit → Bool) (rest : List Lit) :
    (trimRest f rest).Perm (rest.filter fun q => !f q) := by
  fun_induction trimRest f rest with
  | case1 => exact .nil
  | case2 q rest hq hl =>
      obtain rfl := List.getLast?_eq_none_iff.mp hl
      simp [hq]
  | case3 q rest hq l hl ih =>
      have he : rest.dropLast ++ [l] = rest := List.dropLast_append_getLast? l hl
      have hperm : (l :: rest.dropLast).Perm rest := by
        conv_rhs => rw [← he]
        exact (List.perm_append_singleton ..).symm
      rw [List.filter_cons_of_neg (by simp [hq])]
      exact ih.trans (hperm.filter _)
  | case4 q rest hq ih =>
      rw [List.filter_cons_of_pos (by simp [hq])]
      exact ih.cons q

theorem not_satisfied (h : s.Base W) : s.satisfied c = false ↔ ∀ b ∈ c, b ∉ s.trail := by
  simp only [satisfied, List.any_eq_false, decide_eq_true_eq, h.value_iff]

/-- The watches of a clause that is not satisfied are unassigned once all is propagated: what
`removeSatisfied` asserts. -/
theorem Inv.watches_undef (h : s.Inv) (hq : s.qhead = s.trail.length) (hcr : cr ∈ s.refs)
    (hs : s.satisfied (s.ca cr) = false) : ∀ q ∈ (s.ca cr).take 2, s.value q = .undef := by
  have hns := (not_satisfied h.toBase).mp hs
  intro q hqc
  refine h.toBase.value_undef.mpr ⟨hns q (List.mem_of_mem_take hqc), fun hf => ?_⟩
  obtain ⟨b, hb, hbt⟩ := h.processed cr hcr q hqc (by rwa [hq, List.take_length])
  exact hns b hb hbt

theorem trim_eq (hlen : 2 ≤ (s.ca cr).length) :
    ∃ a b rest rest', s.ca cr = a :: b :: rest ∧ s.trim cr = s.setClause cr (a :: b :: rest') ∧
      rest'.Perm (rest.filter fun q => s.value q ≠ .false) := by
  match hc : s.ca cr, hlen with
  | a :: b :: rest, _ =>
      have hperm := trimRest_perm (fun q => decide (s.value q = .false)) rest
      refine ⟨a, b, rest, _, rfl, by simp only [trim, hc], hperm.trans (.of_eq ?_)⟩
      exact List.filter_congr fun q _ => decide_not.symm

/-- What a trimmed clause has lost. -/
theorem trim_spec (hlen : 2 ≤ (s.ca cr).length)
    (hundef : ∀ q ∈ (s.ca cr).take 2, s.value q = .undef) :
    ∃ c, s.trim cr = s.setClause cr c ∧ c.take 2 = (s.ca cr).take 2 ∧ 2 ≤ c.length ∧
      c.Perm ((s.ca cr).filter fun q => s.value q ≠ .false) := by
  obtain ⟨a, b, rest, rest', hc, ht, hperm⟩ := trim_eq hlen
  rw [hc] at hundef ⊢
  refine ⟨_, ht, rfl, by simp, ?_⟩
  rw [List.filter_cons_of_pos (by simp [hundef a (by simp)]),
    List.filter_cons_of_pos (by simp [hundef b (by simp)])]
  exact (hperm.cons b).cons a

/-- **A trimmed clause.**  At level 0 the lost literals are false for good. -/
theorem Inv.trim (h : s.Inv) (hq : s.qhead = s.trail.length) (hdl : s.trailLim = [])
    (hcr : cr ∈ s.refs) (hs : s.satisfied (s.ca cr) = false) : (s.trim cr).Inv := by
  obtain ⟨c, ht, htake, hlen, hperm⟩ := trim_spec (h.shape cr hcr).1 (h.watches_undef hq hcr hs)
  have hns := (not_satisfied h.toBase).mp hs
  have hlevel0 : s.level0 = s.trail := by simp [level0, hdl]
  rw [ht]
  have htake' : ∀ x, ((s.setClause cr c).ca x).take 2 = (s.ca x).take 2 := by
    intro x
    rw [ca_setClause]
    split_ifs with e
    · exact e ▸ htake
    · rfl
  refine
    { h with
      shape := ?_
      cover := fun x hx q hqx => h.cover x hx q (htake' x ▸ hqx)
      watch := fun q w hw hx => (htake' _).symm ▸ h.watch q w hw hx
      blocker := ?_
      wf := h.wf.of_trail rfl rfl
      upTo := fun n hn => absurd (hdl ▸ hn : n ∈ []) List.not_mem_nil
      reason_eq := ?_
      processed := ?_ }
  · intro x hx
    rw [ca_setClause]
    split_ifs with e
    · refine ⟨hlen, (hperm.pairwise_iff fun h => h.symm).mpr ?_⟩
      exact (h.shape cr hcr).2.sublist List.filter_sublist
    · exact h.shape x hx
  · intro q w hw hx
    rw [ca_setClause]
    split_ifs with e
    · refine (h.blocker q w hw hx).elim (fun hb => ?_) .inr
      by_cases hv : s.value w.blocker = .false
      · exact .inr (hlevel0 ▸ h.toBase.value_false.mp hv)
      · exact .inl (hperm.mem_iff.mpr (List.mem_filter.mpr ⟨e ▸ hb, by simpa using hv⟩))
    · exact h.blocker q w hw hx
  · intro k p x hk hr hl
    have := h.level_eq k p hk
    rw [hdl, List.countP_nil] at this
    exact absurd hl (by simp [level, setClause] at this ⊢; omega)
  · intro x hx q hqx hf
    obtain ⟨b, hb, hbt⟩ := h.processed x hx q (htake' x ▸ hqx) hf
    refine ⟨b, ?_, hbt⟩
    rw [ca_setClause]
    split_ifs with e
    · exact absurd hbt (hns b (e ▸ hb))
    · exact hb

end Core

end Parsat.Minisat
