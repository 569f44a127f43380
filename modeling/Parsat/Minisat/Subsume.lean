import Parsat.Minisat.Simp
import Mathlib.Algebra.Order.Ring.Nat

/-!
# Minisat — subsumption: the steps

`backwardSubsumptionCheck` takes clauses from the queue, and literals of the trail as clauses with
one literal, and goes through the clauses one of their variables occurs in: those that are subsumed
are removed, and those that can be resolved with them to fewer literals lose the literal.

* `subset_of_subsumes`, `resolves_of_subsumes`, `not_overlaps_of_subsumes`: what `Clause::subsumes`
  finds, and that it finds what there is, signatures notwithstanding.
* `Work`: the invariant of the simplifying solver, and `Shrinks`, what a step does to the clauses.
* `Work.removeClause`, `Work.enqueueUnit`, `Work.strengthenClause`: the steps.
-/

namespace Parsat.Minisat

open UnitProp

/-! ### Clauses -/

variable {c d : Clause} {p q : Lit} {v : ℕ}

theorem getLsbD_abstraction (c : Clause) {i : ℕ} (hi : i < 32) :
    (abstraction c).getLsbD i = true ↔ ∃ q ∈ c, q.var % 32 = i := by
  have hfold : ∀ a : BitVec 32,
      (c.foldl (fun a p => a ||| 1#32 <<< (p.var % 32)) a).getLsbD i = true ↔
        a.getLsbD i = true ∨ ∃ q ∈ c, q.var % 32 = i := by
    induction c with
    | nil => simp
    | cons p c ih =>
        intro a
        rw [List.foldl_cons, ih]
        have hbit : (1#32 <<< (p.var % 32)).getLsbD i = true ↔ p.var % 32 = i := by
          rw [BitVec.getLsbD_shiftLeft, BitVec.getLsbD_one]
          simp only [hi, decide_true, Bool.true_and, Bool.and_eq_true, Bool.not_eq_true',
            decide_eq_false_iff_not, decide_eq_true_eq]
          omega
        simp only [BitVec.getLsbD_or, Bool.or_eq_true, hbit, List.exists_mem_cons_iff, or_assoc]
  rw [abstraction, hfold]
  simp

/-- The signatures do not rule out a clause with the variables of the other. -/
theorem abstraction_sub (h : ∀ p ∈ c, ∃ q ∈ d, q.var = p.var) :
    abstraction c &&& ~~~abstraction d = 0#32 := by
  refine BitVec.eq_of_getLsbD_eq fun i hi => ?_
  rw [BitVec.getLsbD_and, BitVec.getLsbD_not, BitVec.getLsbD_zero]
  by_contra hn
  have hc : (abstraction c).getLsbD i = true := by
    cases e : (abstraction c).getLsbD i <;> simp [e] at hn ⊢
  obtain ⟨p, hp, rfl⟩ := (getLsbD_abstraction c hi).mp hc
  obtain ⟨q, hq, e⟩ := h p hp
  have hd := (getLsbD_abstraction d hi).mpr ⟨q, hq, by rw [e]⟩
  simp [hd] at hn

theorem searchLit_eq_none {ret : Option Lit} (h : searchLit ret p d = none) :
    p ∉ d ∧ (ret = none → -p ∉ d) := by
  induction d with
  | nil => simp
  | cons q d ih =>
      rw [searchLit] at h
      split_ifs at h with h₁ h₂
      obtain ⟨hp, hn⟩ := ih h
      refine ⟨List.not_mem_cons_of_ne_of_not_mem h₁ hp,
        fun e => List.not_mem_cons_of_ne_of_not_mem ?_ (hn e)⟩
      rintro rfl
      exact h₂ ⟨e, (neg_neg p).symm⟩

theorem searchLit_eq_some {ret r : Option Lit} (h : searchLit ret p d = some r) :
    r = ret ∧ p ∈ d ∨ ret = none ∧ r = some p ∧ -p ∈ d := by
  induction d with
  | nil => cases h
  | cons q d ih =>
      rw [searchLit] at h
      split_ifs at h with h₁ h₂
      · exact .inl ⟨(Option.some.inj h).symm, h₁ ▸ List.mem_cons_self⟩
      · refine .inr ⟨h₂.1, (Option.some.inj h).symm, ?_⟩
        rw [h₂.2, neg_neg]
        exact List.mem_cons_self
      · exact (ih h).imp (And.imp_right (List.mem_cons_of_mem _))
          (And.imp_right (And.imp_right (List.mem_cons_of_mem _)))

/-- What the loop has found out of the literals of `c` when it ends. -/
theorem subsumesLoop_eq_some {ret r : Option Lit} (h : subsumesLoop d c ret = some r) :
    (∀ q ∈ c, q ∈ d ∨ r = some q) ∧ (r = ret ∨ ret = none ∧ ∃ p ∈ c, r = some p ∧ -p ∈ d) := by
  induction c generalizing ret with
  | nil =>
      cases h
      exact ⟨List.forall_mem_nil _, .inl rfl⟩
  | cons p c ih =>
      rw [subsumesLoop] at h
      cases hs : searchLit ret p d with
      | none =>
          rw [hs] at h
          cases h
      | some ret' =>
          rw [hs] at h
          obtain ⟨hall, hr⟩ := ih h
          rcases searchLit_eq_some hs with ⟨rfl, hp⟩ | ⟨rfl, rfl, hp⟩
          · refine ⟨List.forall_mem_cons.mpr ⟨.inl hp, hall⟩, hr.imp_right ?_⟩
            rintro ⟨e, q, hq, hrq⟩
            exact ⟨e, q, List.mem_cons_of_mem _ hq, hrq⟩
          · obtain rfl : r = some p := by simpa using hr
            exact ⟨List.forall_mem_cons.mpr ⟨.inr rfl, hall⟩,
              .inr ⟨rfl, p, List.mem_cons_self, rfl, hp⟩⟩

/-- **`lit_Undef`**: the clause subsumes the other. -/
theorem subset_of_subsumes (h : subsumes c d = some none) : c ⊆ d := by
  unfold subsumes at h
  split_ifs at h
  intro q hq
  exact ((subsumesLoop_eq_some h).1 q hq).resolve_right (by simp)

/-- **A literal**: its negation can be deleted from the other by resolution. -/
theorem resolves_of_subsumes (h : subsumes c d = some (some p)) :
    p ∈ c ∧ -p ∈ d ∧ ∀ q ∈ c, q ∈ d ∨ q = p := by
  unfold subsumes at h
  split_ifs at h
  obtain ⟨hall, hr⟩ := subsumesLoop_eq_some h
  rcases hr with hr | ⟨-, q, hq, hr, hn⟩
  · cases hr
  · obtain rfl := Option.some.inj hr
    exact ⟨hq, hn, fun x hx => (hall x hx).imp_right fun e => (Option.some.inj e).symm⟩

/-- The clauses subsume the other, or up to a literal that can be deleted from it. -/
def Overlaps (c d : Clause) : Prop := ∃ p, ∀ q ∈ c, q ∈ d ∨ q = p ∧ -p ∈ d

theorem Overlaps.mono {c' d' : Clause} (h : Overlaps c d) (hc : c' ⊆ c) (hd : d ⊆ d') :
    Overlaps c' d' := by
  obtain ⟨p, hp⟩ := h
  exact ⟨p, fun q hq => (hp q (hc hq)).imp (fun h => hd h) fun h => ⟨h.1, hd h.2⟩⟩

theorem Overlaps.exists_var (h : Overlaps c d) (hp : p ∈ c) : ∃ q ∈ d, q.var = p.var := by
  obtain ⟨r, hr⟩ := h
  rcases hr p hp with hd | ⟨rfl, hd⟩
  · exact ⟨p, hd, rfl⟩
  · exact ⟨-p, hd, rfl⟩

theorem var_ne_of_mem_erase (h : c.Pairwise fun p q => p.var ≠ q.var) (hp : p ∈ c)
    (hq : q ∈ c.erase p) : q.var ≠ p.var := by
  have hpair := ((List.perm_cons_erase hp).pairwise_iff fun h => h.symm).mp h
  exact ((List.pairwise_cons.mp hpair).1 q hq).symm

theorem not_mem_neg (h : c.Pairwise fun p q => p.var ≠ q.var) (hp : p ∈ c) : -p ∉ c :=
  fun hn => var_ne_of_mem_erase h hp ((List.mem_erase_of_ne (Lit.neg_ne p)).mpr hn) rfl

theorem Overlaps.subsumesLoop (hc : c.Pairwise fun p q => p.var ≠ q.var)
    (hd : d.Pairwise fun p q => p.var ≠ q.var) {ret : Option Lit}
    (h : ∀ q ∈ c, q ∈ d ∨ q = p ∧ -p ∈ d ∧ ret = none) : subsumesLoop d c ret ≠ none := by
  induction c generalizing ret with
  | nil => simp [Minisat.subsumesLoop]
  | cons q c ih =>
      obtain ⟨hq, hall⟩ := List.forall_mem_cons.mp h
      obtain ⟨hqc, hc⟩ := List.pairwise_cons.mp hc
      rw [Minisat.subsumesLoop]
      cases hs : searchLit ret q d with
      | none =>
          obtain ⟨hn, hneg⟩ := searchLit_eq_none hs
          rcases hq with hq | ⟨rfl, hq, e⟩
          · exact absurd hq hn
          · exact absurd hq (hneg e)
      | some r =>
          refine ih hc fun x hx => ?_
          rcases searchLit_eq_some hs with ⟨rfl, -⟩ | ⟨-, rfl, hqn⟩
          · exact hall x hx
          · -- the literal that differs has been found
            have hqd : q ∉ d := fun hq => not_mem_neg hd hq hqn
            obtain ⟨rfl, -, -⟩ := hq.resolve_left hqd
            exact .inl ((hall x hx).resolve_right fun hr => hqc x hx (hr.1 ▸ rfl))

/-- **`lit_Error`**: the signatures notwithstanding, there is nothing to be found. -/
theorem not_overlaps_of_subsumes (hc : c.Pairwise fun p q => p.var ≠ q.var)
    (hd : d.Pairwise fun p q => p.var ≠ q.var) (h : subsumes c d = none) : ¬ Overlaps c d := by
  intro ho
  have hvar : ∀ p ∈ c, ∃ q ∈ d, q.var = p.var := fun p hp => ho.exists_var hp
  have habs := abstraction_sub hvar
  have hlen : ¬ d.length < c.length := by
    have hn : (c.map Lit.var).Nodup := List.pairwise_map.mpr hc
    have hsub : c.map Lit.var ⊆ d.map Lit.var := by
      intro v hv
      obtain ⟨p, hp, rfl⟩ := List.mem_map.mp hv
      obtain ⟨q, hq, e⟩ := hvar p hp
      exact e ▸ List.mem_map_of_mem hq
    have := (List.subperm_of_subset hn hsub).length_le
    simpa using this
  unfold subsumes at h
  rw [if_neg (by simp only [habs, ne_eq, not_true, or_false, hlen, not_false_eq_true])] at h
  obtain ⟨p, hp⟩ := ho
  exact Overlaps.subsumesLoop hc hd (fun q hq => (hp q hq).imp_right fun h => ⟨h.1, h.2, rfl⟩) h

namespace Simp

variable {σ τ υ : Simp} {lim : ℤ} {x : ℕ} {p q : Lit} {m : Model}

/-! ### The invariant -/

/-- What neither subsumption nor propagation changes. -/
def frame (σ : Simp) : Simp :=
  { σ with
    core := σ.core.fixed, occurs := fun _ => [], occDirty := fun _ => false, elimHeap := []
    queue := [], bwdsubAssigns := 0 }

/-- Simplification is on, and the occurrence lists and the queue are about the clauses. -/
structure Work (σ : Simp) : Prop where
  rooted : σ.core.Rooted
  on : σ.useSimplification = true
  cover : ∀ x ∈ σ.core.refs, ∀ q ∈ σ.core.ca x, x ∈ σ.occurs q.var
  live : ∀ v, ∀ x ∈ σ.occurs v, (x ∈ σ.core.refs ∧ ∃ q ∈ σ.core.ca x, q.var = v) ∨
    (σ.core.removed x = true ∧ σ.occDirty v = true)
  nodup : ∀ v, (σ.occurs v).Nodup
  occurs_lt : ∀ v, ∀ x ∈ σ.occurs v, x < σ.core.size
  queue : ∀ x ∈ σ.queue, (x ∈ σ.core.refs ∨ σ.core.removed x = true) ∧ x < σ.core.size
  bwd_le : σ.bwdsubAssigns ≤ σ.core.trail.length

/-- Clauses go or lose literals, but not the large ones; the trail grows. -/
structure Shrinks (lim : ℤ) (σ τ : Simp) : Prop where
  refs : ∀ x ∈ τ.core.refs, x ∈ σ.core.refs
  lits : ∀ x ∈ τ.core.refs, ∀ q ∈ τ.core.ca x, q ∈ σ.core.ca x
  small : ∀ x ∈ τ.core.refs, Small lim (τ.core.ca x) → Small lim (σ.core.ca x)
  done : ∀ x ∈ τ.core.refs, ¬ Small lim (τ.core.ca x) →
    ¬ Small lim (σ.core.ca x) ∧ (σ.core.Done x → τ.core.Done x)
  trail : ∃ ext, τ.core.trail = σ.core.trail ++ ext
  weight_le : τ.weight ≤ σ.weight
  kept : ∀ x, x ∈ σ.core.refs ∨ σ.core.removed x = true →
    x ∈ τ.core.refs ∨ τ.core.removed x = true
  queue_sub : ∀ x ∈ σ.queue, x ∈ τ.queue
  same : ∀ x ∈ τ.core.refs, x ∈ τ.queue ∨ (τ.core.ca x).Perm (σ.core.ca x)
  bwd_eq : τ.bwdsubAssigns = σ.bwdsubAssigns
  frame_eq : τ.frame = σ.frame

theorem Shrinks.refl (lim : ℤ) (σ : Simp) : Shrinks lim σ σ where
  refs _ := id
  lits _ _ _ := id
  small _ _ := id
  done _ _ h := ⟨h, id⟩
  trail := ⟨[], (List.append_nil _).symm⟩
  weight_le := le_rfl
  kept _ := id
  queue_sub _ := id
  same _ _ := .inr (.refl _)
  bwd_eq := rfl
  frame_eq := rfl

theorem Shrinks.trans (h : Shrinks lim σ τ) (h' : Shrinks lim τ υ) : Shrinks lim σ υ where
  refs x hx := h.refs x (h'.refs x hx)
  lits x hx q hq := h.lits x (h'.refs x hx) q (h'.lits x hx q hq)
  small x hx hs := h.small x (h'.refs x hx) (h'.small x hx hs)
  done x hx hs := by
    obtain ⟨h₁, hd₁⟩ := h'.done x hx hs
    obtain ⟨h₂, hd₂⟩ := h.done x (h'.refs x hx) h₁
    exact ⟨h₂, hd₁ ∘ hd₂⟩
  trail := by
    obtain ⟨e₁, he₁⟩ := h.trail
    obtain ⟨e₂, he₂⟩ := h'.trail
    exact ⟨e₁ ++ e₂, by rw [he₂, he₁, List.append_assoc]⟩
  weight_le := h'.weight_le.trans h.weight_le
  kept x := h'.kept x ∘ h.kept x
  queue_sub x hx := h'.queue_sub x (h.queue_sub x hx)
  same x hx := by
    rcases h'.same x hx with hq | hp'
    · exact .inl hq
    · exact (h.same x (h'.refs x hx)).imp (h'.queue_sub x) hp'.trans
  bwd_eq := h'.bwd_eq.trans h.bwd_eq
  frame_eq := h'.frame_eq.trans h.frame_eq

/-! ### The occurrence lists -/

theorem updateElimHeap_eq (σ : Simp) (v : ℕ) :
    ∃ heap, σ.updateElimHeap v = { σ with elimHeap := heap } := by
  unfold updateElimHeap
  split_ifs
  · exact ⟨_, rfl⟩
  · exact ⟨_, rfl⟩

theorem foldl_unnoteLit (c : Clause) (σ : Simp) :
    ∃ heap, c.foldl unnoteLit σ =
      { σ with
        elimHeap := heap
        occDirty := fun v => σ.occDirty v || c.any fun q => q.var = v } := by
  induction c generalizing σ with
  | nil => exact ⟨σ.elimHeap, by simp⟩
  | cons q c ih =>
      obtain ⟨heap, hh⟩ := updateElimHeap_eq σ q.var
      obtain ⟨heap', hh'⟩ := ih (σ.unnoteLit q)
      refine ⟨heap', ?_⟩
      rw [List.foldl_cons, hh', unnoteLit, hh]
      congr 1
      funext v
      simp only [Function.update_apply, List.any_cons]
      by_cases e : v = q.var
      · simp [e]
      · rw [if_neg e, decide_eq_false (fun e' => e e'.symm), Bool.false_or]

theorem Work.removeClause_eq (h : σ.Work) (x : ℕ) :
    ∃ heap, σ.removeClause x =
      { σ with
        core := σ.core.dropRef x (σ.core.clauses.erase x) σ.core.learnts
        elimHeap := heap
        occDirty := fun v => σ.occDirty v || (σ.core.ca x).any fun q => q.var = v } := by
  obtain ⟨heap, hh⟩ := foldl_unnoteLit (σ.core.ca x) σ
  exact ⟨heap, by simp only [removeClause, h.on, if_true, hh]⟩

theorem Work.not_removed (h : σ.Work) (hx : x ∈ σ.core.refs) : σ.core.removed x = false :=
  h.rooted.base.refs_live x hx

/-- `lookup` leaves the clauses of the variable. -/
theorem Work.lookup (h : σ.Work) (lim : ℤ) (v : ℕ) :
    (σ.lookup v).Work ∧ Shrinks lim σ (σ.lookup v) ∧ (σ.lookup v).core = σ.core ∧
      ∀ x, x ∈ (σ.lookup v).occurs v ↔ x ∈ σ.core.refs ∧ ∃ q ∈ σ.core.ca x, q.var = v := by
  have hiff : ∀ x, x ∈ σ.core.refs → (∃ q ∈ σ.core.ca x, q.var = v) → x ∈ σ.occurs v := by
    rintro x hx ⟨q, hq, rfl⟩
    exact h.cover x hx q hq
  unfold Simp.lookup
  split_ifs with hd
  · have hmem : ∀ w x, x ∈ Function.update σ.occurs v
        ((σ.occurs v).filter fun cr => !σ.core.removed cr) w ↔
          x ∈ σ.occurs w ∧ (w = v → σ.core.removed x = false) := by
      intro w x
      by_cases e : w = v
      · subst e
        simp
      · simp [e]
    refine ⟨⟨h.rooted, h.on, ?_, ?_, ?_, ?_, h.queue, h.bwd_le⟩, ?_, rfl, ?_⟩
    · exact fun x hx q hq => (hmem _ x).mpr ⟨h.cover x hx q hq, fun _ => h.not_removed hx⟩
    · intro w x hx
      obtain ⟨hx, hr⟩ := (hmem w x).mp hx
      refine (h.live w x hx).imp_right fun hl => ⟨hl.1, ?_⟩
      have hne : w ≠ v := fun e => by simp [hr e] at hl
      exact (Function.update_of_ne hne ..).trans hl.2
    · intro w
      change (Function.update σ.occurs v _ w).Nodup
      by_cases e : w = v
      · subst e
        rw [Function.update_self]
        exact (h.nodup w).filter _
      · rw [Function.update_of_ne e]
        exact h.nodup w
    · exact fun w x hx => h.occurs_lt w x ((hmem w x).mp hx).1
    · exact { Shrinks.refl lim σ with weight_le := le_rfl, frame_eq := rfl }
    · intro x
      change x ∈ Function.update σ.occurs v _ v ↔ _
      rw [hmem]
      constructor
      · rintro ⟨hx, hr⟩
        exact (h.live v x hx).resolve_right fun hl => by simp [hr rfl] at hl
      · rintro ⟨hx, hq⟩
        exact ⟨hiff x hx hq, fun _ => h.not_removed hx⟩
  · refine ⟨h, .refl lim σ, rfl, fun x => ⟨fun hx => ?_, fun hx => hiff x hx.1 hx.2⟩⟩
    exact (h.live v x hx).resolve_right fun hl => hd hl.2

/-! ### A clause less -/

theorem weight_erase (hx : x ∈ σ.core.clauses) :
    ((σ.core.clauses.erase x).map fun y => (σ.core.ca y).length).sum + (σ.core.ca x).length +
      σ.queue.length = σ.weight := by
  have hsum := ((List.perm_cons_erase hx).map fun y => (σ.core.ca y).length).sum_nat
  rw [List.map_cons, List.sum_cons] at hsum
  simp only [weight]
  omega

/-- **A clause is removed.** -/
theorem Work.removeClause (h : σ.Work) (lim : ℤ) (hx : x ∈ σ.core.refs) :
    (σ.removeClause x).Work ∧ Shrinks lim σ (σ.removeClause x) ∧
      (∀ y, y ∈ (σ.removeClause x).core.refs ↔ y ∈ σ.core.refs ∧ y ≠ x) ∧
      (σ.removeClause x).core.ca = σ.core.ca ∧ (σ.removeClause x).core.trail = σ.core.trail ∧
      (σ.removeClause x).weight + (σ.core.ca x).length = σ.weight ∧
      (σ.removeClause x).queue = σ.queue := by
  obtain ⟨heap, heq⟩ := h.removeClause_eq x
  obtain ⟨hroot, hrefs⟩ := h.rooted.dropRef hx
  have hdrop := Core.dropRef_eq σ.core x (σ.core.clauses.erase x) σ.core.learnts
  rw [heq]
  set s := σ.core.dropRef x (σ.core.clauses.erase x) σ.core.learnts
  have hca : s.ca = σ.core.ca := by rw [hdrop]
  have htrail : s.trail = σ.core.trail := by rw [hdrop]
  have hsize : s.size = σ.core.size := by rw [hdrop]
  have hclauses : s.clauses = σ.core.clauses.erase x := by rw [hdrop]
  have hremoved : ∀ y, s.removed y = true ↔ y = x ∨ σ.core.removed y = true := by
    intro y
    rw [hdrop]
    by_cases e : y = x
    · simp [e]
    · simp [e]
  have hdone : ∀ y, σ.core.Done y → s.Done y := by
    intro y hd
    rw [hdrop]
    exact hd
  have hkept : ∀ y, y ∈ σ.core.refs ∨ σ.core.removed y = true →
      y ∈ s.refs ∨ s.removed y = true := by
    intro y hor
    by_cases e : y = x
    · exact .inr ((hremoved y).mpr (.inl e))
    · exact hor.imp (fun hy => (hrefs y).mpr ⟨hy, e⟩) fun hr => (hremoved y).mpr (.inr hr)
  have hweight : (s.clauses.map fun y => (s.ca y).length).sum + (σ.core.ca x).length +
      σ.queue.length = σ.weight := by
    rw [hclauses, hca]
    exact weight_erase (h.rooted.refs_eq ▸ hx)
  refine ⟨⟨hroot, h.on, ?_, ?_, h.nodup, ?_, ?_, ?_⟩, ⟨?_, ?_, ?_, ?_, ?_, ?_, hkept, fun _ => id,
    fun y _ => .inr (.of_eq (congrFun hca y)), rfl, ?_⟩, hrefs, hca, htrail, ?_, rfl⟩
  · intro y hy q hq
    exact h.cover y ((hrefs y).mp hy).1 q (hca ▸ hq)
  · intro v y hy
    by_cases e : y = x
    · subst e
      refine .inr ⟨(hremoved y).mpr (.inl rfl), ?_⟩
      rcases h.live v y hy with ⟨-, q, hq, rfl⟩ | hl
      · exact Bool.or_eq_true_iff.mpr (.inr (List.any_eq_true.mpr ⟨q, hq, by simp⟩))
      · exact Bool.or_eq_true_iff.mpr (.inl hl.2)
    · refine (h.live v y hy).imp (fun hl => ⟨(hrefs y).mpr ⟨hl.1, e⟩, ?_⟩)
        fun hl => ⟨(hremoved y).mpr (.inr hl.1), Bool.or_eq_true_iff.mpr (.inl hl.2)⟩
      exact hca.symm ▸ hl.2
  · exact fun v y hy => hsize.symm ▸ h.occurs_lt v y hy
  · exact fun y hy => ⟨hkept y (h.queue y hy).1, hsize.symm ▸ (h.queue y hy).2⟩
  · exact htrail.symm ▸ h.bwd_le
  · exact fun y hy => ((hrefs y).mp hy).1
  · exact fun y _ q hq => hca ▸ hq
  · exact fun y _ hs => hca ▸ hs
  · exact fun y _ hs => ⟨hca ▸ hs, hdone y⟩
  · exact ⟨[], htrail.trans (List.append_nil _).symm⟩
  · simp only [weight] at hweight ⊢
    omega
  · have hfixed : s.fixed = σ.core.fixed := by rw [hdrop]; rfl
    simp only [frame, hfixed]
  · simp only [weight] at hweight ⊢
    omega

/-- What the clauses without one of them say. -/
theorem models_removeClause (h : σ.Work) (hx : x ∈ σ.core.refs) :
    σ.core.abs.Models m ↔
      (σ.removeClause x).core.abs.Models m ∧ ∃ q ∈ σ.core.ca x, q.Holds m := by
  obtain ⟨-, -, hrefs, hca, htrail, -, -⟩ := h.removeClause 0 hx
  rw [Core.models_abs, Core.models_abs, hca, htrail]
  constructor
  · exact fun ⟨hC, hT⟩ => ⟨⟨fun y hy => hC y ((hrefs y).mp hy).1, hT⟩, hC x hx⟩
  · rintro ⟨⟨hC, hT⟩, hxm⟩
    refine ⟨fun y hy => ?_, hT⟩
    by_cases e : y = x
    · exact e ▸ hxm
    · exact hC y ((hrefs y).mpr ⟨hy, e⟩)

/-! ### A literal less -/

theorem Work.pushQueue (h : σ.Work) (hx : x ∈ σ.core.refs) :
    Work { σ with queue := σ.queue ++ [x] } where
  rooted := h.rooted
  on := h.on
  cover := h.cover
  live := h.live
  nodup := h.nodup
  occurs_lt := h.occurs_lt
  queue := List.forall_mem_append.mpr ⟨h.queue,
    List.forall_mem_singleton.mpr ⟨.inl hx, h.rooted.base.refs_lt x hx⟩⟩
  bwd_le := h.bwd_le

/-- A unit is enqueued and propagated. -/
theorem Work.enqueued (h : σ.Work) (lim : ℤ) {r : Option ℕ × Core} (he : σ.core.Enqueued p r)
    (hr : r.1 = none) :
    Work { σ with core := r.2 } ∧ Shrinks lim σ { σ with core := r.2 } := by
  obtain ⟨ext, htrail⟩ := he.trail_eq
  have hmem : ∀ y q, q ∈ r.2.ca y ↔ q ∈ σ.core.ca y := fun y q => (he.perm y).mem_iff
  have hsmall : ∀ y, Small lim (r.2.ca y) ↔ Small lim (σ.core.ca y) := fun y => by
    rw [Small, Small, (he.perm y).length_eq]
  refine ⟨⟨he.rooted hr, h.on, ?_, ?_, h.nodup, ?_, ?_, ?_⟩, ⟨?_, ?_, ?_, ?_, ?_, ?_, ?_,
    fun _ => id, fun y _ => .inr (he.perm y), rfl, ?_⟩⟩
  · exact fun y hy q hq => h.cover y (he.refs_eq ▸ hy) q ((hmem y q).mp hq)
  · intro v y hy
    refine (h.live v y hy).imp ?_ fun hl => ⟨he.removed_eq ▸ hl.1, hl.2⟩
    rintro ⟨hy', q, hq, hv⟩
    exact ⟨he.refs_eq ▸ hy', q, (hmem y q).mpr hq, hv⟩
  · exact fun v y hy => he.size_eq ▸ h.occurs_lt v y hy
  · intro y hy
    obtain ⟨hor, hlt⟩ := h.queue y hy
    exact ⟨hor.imp (he.refs_eq ▸ ·) (he.removed_eq ▸ ·), he.size_eq ▸ hlt⟩
  · have := h.bwd_le
    simp only [htrail, List.length_append]
    omega
  · exact fun y hy => he.refs_eq ▸ hy
  · exact fun y _ q hq => (hmem y q).mp hq
  · exact fun y _ hs => (hsmall y).mp hs
  · exact fun y hy hs =>
      ⟨fun hs' => hs ((hsmall y).mpr hs'), he.done hr y (he.refs_eq ▸ hy)⟩
  · exact ⟨_, htrail⟩
  · refine Nat.add_le_add_right (le_of_eq ?_) _
    simp only [he.clauses_eq, (he.perm _).length_eq]
  · exact fun y => Or.imp (he.refs_eq ▸ ·) (he.removed_eq ▸ ·)
  · simp only [frame, he.fixed_eq]

/-- What a step that adds the clause `c` and loses clauses comes to. -/
structure Steps (lim : ℤ) (c : Clause) (σ : Simp) (r : Bool × Simp) : Prop where
  work : r.1 = true → r.2.Work
  shrinks : r.1 = true → Shrinks lim σ r.2
  models : r.1 = true →
    ∀ m : Model, r.2.core.abs.Models m ↔ σ.core.abs.Models m ∧ ∃ q ∈ c, q.Holds m
  unsat : r.1 = false → ∀ m : Model, σ.core.abs.Models m → ¬ ∃ q ∈ c, q.Holds m

theorem Work.enqueueUnit (h : σ.Work) (lim : ℤ) (hp : σ.core.Usable p.var) :
    Steps lim [p] σ (σ.enqueueUnit [p]) ∧
      ((σ.enqueueUnit [p]).1 = true →
        ∀ y, y ∈ (σ.enqueueUnit [p]).2.core.refs ↔ y ∈ σ.core.refs) := by
  have hval := h.rooted.base.value_iff (p := p)
  have hvalf := h.rooted.base.value_false (p := p)
  have hsing : ∀ m : Model, (∃ q ∈ [p], q.Holds m) ↔ p.Holds m := fun m => by simp
  cases hv : σ.core.value p with
  | undef =>
      have he := h.rooted.enqueue hv hp
      have heq : σ.enqueueUnit [p] = ((σ.core.uncheckedEnqueue p none).propagate.1.isNone,
          { σ with core := (σ.core.uncheckedEnqueue p none).propagate.2 }) := by
        simp [Simp.enqueueUnit, Core.enqueue, hv]
      rw [heq]
      refine ⟨⟨fun e => ?_, fun e => ?_, fun e m => ?_, fun e m hm => ?_⟩, fun _ y => ?_⟩
      · exact (h.enqueued lim he (by simpa using e)).1
      · exact (h.enqueued lim he (by simpa using e)).2
      · rw [hsing]
        exact ⟨he.models_of, fun hm => (he.models m hm.1 hm.2).2⟩
      · rw [hsing]
        intro hpm
        have hnone := (he.models m hm hpm).1
        rw [hnone] at e
        cases e
      · rw [he.refs_eq]
  | «true» =>
      have hq : σ.core.propagate = (none, σ.core) := Core.propagate_eq h.rooted.qhead_eq
      have heq : σ.enqueueUnit [p] = (true, σ) := by
        simp [Simp.enqueueUnit, Core.enqueue, hv, hq]
      rw [heq]
      refine ⟨⟨fun _ => h, fun _ => .refl lim σ, fun _ m => ?_, fun e => by cases e⟩,
        fun _ y => Iff.rfl⟩
      rw [hsing]
      exact ⟨fun hm => ⟨hm, (Core.models_abs.mp hm).2 p (hval.mp hv)⟩, And.left⟩
  | «false» =>
      have heq : σ.enqueueUnit [p] = (false, σ) := by
        simp [Simp.enqueueUnit, Core.enqueue, hv]
      rw [heq]
      refine ⟨⟨fun e => absurd e (by simp), fun e => absurd e (by simp),
        fun e => absurd e (by simp), fun _ m hm => ?_⟩, fun e => absurd e (by simp)⟩
      rw [hsing]
      intro hpm
      exact (Lit.holds_neg m p).mp ((Core.models_abs.mp hm).2 _ (hvalf.mp hv)) hpm

/-- The weight does not see what is written over a removed clause. -/
theorem weight_setClause (hx : x ∉ σ.core.clauses) (c : Clause) :
    weight { σ with core := σ.core.setClause x c } = σ.weight := by
  refine congrArg (· + σ.queue.length) (congrArg List.sum (List.map_congr_left fun y hy => ?_))
  exact congrArg List.length ((Core.ca_setClause ..).trans (if_neg fun e : y = x => hx (e ▸ hy)))

theorem Work.setClause (h : σ.Work) (lim : ℤ) (hx : x ∉ σ.core.refs) (c : Clause) :
    Work { σ with core := σ.core.setClause x c } ∧
      Shrinks lim σ { σ with core := σ.core.setClause x c } ∧
      ∀ m : Model, (σ.core.setClause x c).abs.Models m ↔ σ.core.abs.Models m := by
  have hca : ∀ y ∈ σ.core.refs, (σ.core.setClause x c).ca y = σ.core.ca y := fun y hy =>
    (Core.ca_setClause ..).trans (if_neg fun e : y = x => hx (e ▸ hy))
  refine ⟨⟨h.rooted.setClause hx c, h.on, ?_, ?_, h.nodup, h.occurs_lt, h.queue, h.bwd_le⟩,
    ⟨fun _ => id, ?_, ?_, ?_, ⟨[], (List.append_nil _).symm⟩, ?_, fun _ => id, fun _ => id,
      fun y hy => .inr (.of_eq (hca y hy)), rfl, rfl⟩, fun m => ?_⟩
  · exact fun y hy q hq => h.cover y hy q (hca y hy ▸ hq)
  · exact fun v y hy => (h.live v y hy).imp_left fun hl => ⟨hl.1, by rw [hca y hl.1]; exact hl.2⟩
  · exact fun y hy q hq => hca y hy ▸ hq
  · exact fun y hy hs => hca y hy ▸ hs
  · exact fun y hy hs => ⟨hca y hy ▸ hs, fun hd q hq hf => by
      rw [hca y hy] at hq ⊢
      exact hd q hq hf⟩
  · exact (weight_setClause (h.rooted.refs_eq ▸ hx) c).le
  · rw [Core.models_abs, Core.models_abs]
    refine and_congr_left fun _ => forall₂_congr fun y hy => ?_
    rw [hca y hy]

theorem weight_pushQueue (σ : Simp) (x : ℕ) :
    weight { σ with queue := σ.queue ++ [x] } = σ.weight + 1 := by
  simp only [weight, List.length_append, List.length_singleton]
  rfl

/-- What the loss of the literal `q` of the clause `x` comes to. -/
structure LosesLit (lim : ℤ) (x : ℕ) (q : Lit) (σ : Simp) (r : Bool × Simp) : Prop
    extends Steps lim ((σ.core.ca x).erase q) σ r where
  others : r.1 = true → ∀ y ∈ σ.core.refs, y ≠ x → y ∈ r.2.core.refs
  lits : r.1 = true → x ∈ r.2.core.refs → ∀ a ∈ r.2.core.ca x, a ∈ (σ.core.ca x).erase q

/-- A binary clause goes, and its other literal is propagated. -/
theorem Work.strengthenBinary (h : σ.Work) (lim : ℤ) (hx : x ∈ σ.core.refs) (hq : q ∈ σ.core.ca x)
    (h2 : (σ.core.ca x).length = 2) : LosesLit lim x q σ (σ.strengthenClause x q) := by
  have hlen := List.length_erase_of_mem hq
  obtain ⟨a, ha⟩ : ∃ a, (σ.core.ca x).erase q = [a] := List.length_eq_one_iff.mp (by omega)
  have hau : σ.core.Usable a.var :=
    h.rooted.bounded.vars x hx a (List.mem_of_mem_erase (ha ▸ List.mem_singleton_self a))
  set ρ : Simp := { σ with queue := σ.queue ++ [x] } with hρ
  have hpush : ρ.Work := h.pushQueue hx
  obtain ⟨hw₁, hs₁, hrefs₁, -, -, hweight₁, -⟩ := hpush.removeClause lim hx
  have hmod₁ := fun m => models_removeClause (m := m) hpush hx
  set τ := ρ.removeClause x with hτ
  have hnot : x ∉ τ.core.refs := fun hx' => ((hrefs₁ x).mp hx').2 rfl
  obtain ⟨hw₂, hs₂, hmod₂⟩ := hw₁.setClause lim hnot ((σ.core.ca x).erase q)
  set υ : Simp := { τ with core := τ.core.setClause x ((σ.core.ca x).erase q) } with hυ
  have hu : υ.core.Usable a.var := by
    have hfixed : υ.core.fixed = σ.core.fixed :=
      congrArg Simp.core (hs₂.frame_eq.trans hs₁.frame_eq)
    exact (Core.usable_of_fixed hfixed _).mpr hau
  obtain ⟨hsteps, hrefs₃⟩ := hw₂.enqueueUnit lim hu
  have heq : σ.strengthenClause x q = υ.enqueueUnit [a] := by
    simp only [Simp.strengthenClause, h2, if_true, ha, hυ, hτ, hρ]
  have hweight : υ.weight ≤ σ.weight := by
    have hnot' : x ∉ τ.core.clauses := hw₁.rooted.refs_eq ▸ hnot
    have hυw : υ.weight = τ.weight := weight_setClause hnot' _
    have hρw : ρ.weight = σ.weight + 1 := weight_pushQueue σ x
    have hca2 : (ρ.core.ca x).length = 2 := h2
    omega
  -- the queue has grown, and the weight has not
  have hshr : Shrinks lim σ υ :=
    { hs₁.trans hs₂ with
      weight_le := hweight
      queue_sub := fun y hy => (hs₁.trans hs₂).queue_sub y (List.mem_append_left _ hy) }
  rw [heq]
  refine ⟨⟨hsteps.work, fun e => hshr.trans (hsteps.shrinks e), fun e m => ?_, fun e m hm => ?_⟩,
    fun e y hy hne => ?_, fun e hx' => ?_⟩
  · rw [hsteps.models e m, hmod₂ m, ha]
    refine and_congr_left fun ⟨b, hb, hbm⟩ => ?_
    rw [hmod₁ m, and_iff_left]
    exact ⟨b, List.mem_of_mem_erase (ha ▸ hb), hbm⟩
  · rw [ha]
    exact hsteps.unsat e m ((hmod₂ m).mpr ((hmod₁ m).mp hm).1)
  · exact (hrefs₃ e y).mpr ((hrefs₁ y).mpr ⟨hy, hne⟩)
  · exact absurd ((hrefs₃ e x).mp hx') hnot

/-- A longer clause is in the queue, without the literal and out of its list. -/
def shortened (σ : Simp) (x : ℕ) (q : Lit) : Simp :=
  { σ with
    queue := σ.queue ++ [x]
    core := σ.core.strengthen x q
    occurs := Function.update σ.occurs q.var ((σ.occurs q.var).erase x) }

theorem strengthenClause_eq (hq : q ∈ σ.core.ca x) (hlen : 2 < (σ.core.ca x).length) :
    ∃ heap, σ.strengthenClause x q = (true, { σ.shortened x q with elimHeap := heap }) := by
  have hunit : ∀ τ : Simp, τ.enqueueUnit ((σ.core.ca x).erase q) = (true, τ) := by
    intro τ
    have hlen' := List.length_erase_of_mem hq
    rcases e : (σ.core.ca x).erase q with _ | ⟨a, _ | ⟨b, rest⟩⟩
    · rfl
    · rw [e, List.length_singleton] at hlen'
      omega
    · rfl
  obtain ⟨heap, hheap⟩ := updateElimHeap_eq (σ.shortened x q) q.var
  refine ⟨heap, ?_⟩
  rw [← hheap]
  simp only [Simp.strengthenClause, hlen.ne', if_false, hunit]
  rfl

theorem mem_occurs_shortened (h : σ.Work) {v y : ℕ} :
    y ∈ (σ.shortened x q).occurs v ↔ y ∈ σ.occurs v ∧ (v = q.var → y ≠ x) := by
  change y ∈ Function.update σ.occurs q.var ((σ.occurs q.var).erase x) v ↔ _
  by_cases e : v = q.var
  · subst e
    rw [Function.update_self, (h.nodup _).mem_erase_iff]
    simp [and_comm]
  · simp [e]

theorem Work.shortened (h : σ.Work) (hx : x ∈ σ.core.refs) (hq : q ∈ σ.core.ca x)
    (hlen : 2 < (σ.core.ca x).length) : (σ.shortened x q).Work := by
  have hsub := fun y => Core.ca_strengthen_subset σ.core x y q
  have hrefs : (σ.shortened x q).core.refs = σ.core.refs := Core.refs_strengthen ..
  have hremoved : (σ.shortened x q).core.removed = σ.core.removed := Core.removed_strengthen ..
  have hsize : (σ.shortened x q).core.size = σ.core.size := Core.size_strengthen ..
  refine ⟨h.rooted.strengthen hx hlen, h.on, ?_, ?_, ?_, ?_, ?_, ?_⟩
  · intro y hy b hb
    refine (mem_occurs_shortened h).mpr
      ⟨h.cover y (hrefs ▸ hy) b (hsub y hb), fun e e' => ?_⟩
    subst e'
    have hb' : b ∈ (σ.core.ca y).erase q := Core.ca_strengthen_self σ.core y q ▸ hb
    exact var_ne_of_mem_erase (h.rooted.base.shape y hx).2 hq hb' e
  · intro v y hy
    obtain ⟨hy, hv⟩ := (mem_occurs_shortened h).mp hy
    refine (h.live v y hy).imp ?_ fun hl => ⟨hremoved ▸ hl.1, hl.2⟩
    rintro ⟨hy', b, hb, rfl⟩
    refine ⟨hrefs.symm ▸ hy', b, ?_, rfl⟩
    by_cases e : y = x
    · subst e
      have hbq : b ≠ q := fun e => hv (e ▸ rfl) rfl
      exact (Core.ca_strengthen_self σ.core y q).symm ▸ (List.mem_erase_of_ne hbq).mpr hb
    · exact (Core.ca_strengthen_of_ne e).symm ▸ hb
  · intro v
    change (Function.update σ.occurs q.var _ v).Nodup
    by_cases e : v = q.var
    · subst e
      rw [Function.update_self]
      exact (h.nodup _).erase x
    · rw [Function.update_of_ne e]
      exact h.nodup v
  · exact fun v y hy => hsize.symm ▸ h.occurs_lt v y ((mem_occurs_shortened h).mp hy).1
  · rw [hrefs, hremoved, hsize]
    exact List.forall_mem_append.mpr ⟨h.queue,
      List.forall_mem_singleton.mpr ⟨.inl hx, h.rooted.base.refs_lt x hx⟩⟩
  · exact (Core.trail_strengthen σ.core x q).symm ▸ h.bwd_le

theorem weight_shortened (h : σ.Work) (hx : x ∈ σ.core.refs) (hq : q ∈ σ.core.ca x) :
    (σ.shortened x q).weight = σ.weight := by
  have hxc : x ∈ σ.core.clauses := h.rooted.refs_eq ▸ hx
  have hn : σ.core.clauses.Nodup := h.rooted.refs_eq ▸ h.rooted.base.refs_nodup
  have hpos := List.length_pos_of_mem hq
  have hlen := List.length_erase_of_mem hq
  have hsum := ((List.perm_cons_erase hxc).map
    fun y => ((σ.core.strengthen x q).ca y).length).sum_nat
  have hrest : (σ.core.clauses.erase x).map (fun y => ((σ.core.strengthen x q).ca y).length) =
      (σ.core.clauses.erase x).map fun y => (σ.core.ca y).length :=
    List.map_congr_left fun y hy => by
      rw [Core.ca_strengthen_of_ne (hn.mem_erase_iff.mp hy).1]
  have hold := weight_erase hxc
  rw [List.map_cons, List.sum_cons, hrest, Core.ca_strengthen_self] at hsum
  simp only [weight, Simp.shortened, Core.clauses_strengthen, List.length_append,
    List.length_singleton] at hold ⊢
  omega

theorem Work.shrinks_shortened (h : σ.Work) (hx : x ∈ σ.core.refs) (hq : q ∈ σ.core.ca x)
    (hsmall : Small lim (σ.core.ca x)) : Shrinks lim σ (σ.shortened x q) := by
  have hself : (σ.shortened x q).core.ca x = (σ.core.ca x).erase q := Core.ca_strengthen_self ..
  have hother : ∀ y, y ≠ x → (σ.shortened x q).core.ca y = σ.core.ca y := fun _ =>
    Core.ca_strengthen_of_ne
  have hrefs : (σ.shortened x q).core.refs = σ.core.refs := Core.refs_strengthen ..
  have hremoved : (σ.shortened x q).core.removed = σ.core.removed := Core.removed_strengthen ..
  have htrail : (σ.shortened x q).core.trail = σ.core.trail := Core.trail_strengthen ..
  have hqhead : (σ.shortened x q).core.qhead = σ.core.qhead := Core.qhead_strengthen ..
  have hsm : Small lim ((σ.core.ca x).erase q) := by
    refine hsmall.imp_right fun hlt => ?_
    have hle : (((σ.core.ca x).erase q).length : ℤ) ≤ (σ.core.ca x).length := by
      exact_mod_cast List.length_erase_le
    omega
  refine ⟨fun y hy => hrefs ▸ hy, fun y _ _ hb => Core.ca_strengthen_subset σ.core x y q hb,
    fun y _ hs => ?_, fun y _ hns => ?_, ⟨[], htrail.trans (List.append_nil _).symm⟩,
    (weight_shortened h hx hq).le, fun y hy => ?_, fun _ => List.mem_append_left _, fun y _ => ?_,
    rfl, ?_⟩
  · by_cases e : y = x
    · exact e ▸ hsmall
    · exact hother y e ▸ hs
  · by_cases e : y = x
    · subst e
      exact absurd (hself.symm ▸ hsm) hns
    · refine ⟨hother y e ▸ hns, fun hd b hb hf => ?_⟩
      rw [hother y e] at hb ⊢
      rw [htrail, hqhead] at hf
      rw [htrail]
      exact hd b hb hf
  · rw [hrefs, hremoved]
    exact hy
  · by_cases e : y = x
    · exact .inl (List.mem_append_right _ (List.mem_singleton.mpr e))
    · exact .inr (.of_eq (hother y e))
  · simp only [frame, Simp.shortened, Core.fixed_strengthen]

theorem models_shortened (hx : x ∈ σ.core.refs) :
    (σ.shortened x q).core.abs.Models m ↔
      σ.core.abs.Models m ∧ ∃ a ∈ (σ.core.ca x).erase q, a.Holds m := by
  rw [Core.models_abs, Core.models_abs]
  simp only [Simp.shortened, Core.refs_strengthen, Core.trail_strengthen]
  constructor
  · rintro ⟨hC, hT⟩
    refine ⟨⟨fun y hy => ?_, hT⟩, Core.ca_strengthen_self σ.core x q ▸ hC x hx⟩
    obtain ⟨b, hb, hbm⟩ := hC y hy
    exact ⟨b, Core.ca_strengthen_subset σ.core x y q hb, hbm⟩
  · rintro ⟨⟨hC, hT⟩, hxm⟩
    refine ⟨fun y hy => ?_, hT⟩
    by_cases e : y = x
    · subst e
      rwa [Core.ca_strengthen_self]
    · rw [Core.ca_strengthen_of_ne e]
      exact hC y hy

/-- **A clause loses a literal**: what is left is kept, or propagated. -/
theorem Work.strengthenClause (h : σ.Work) (hx : x ∈ σ.core.refs) (hq : q ∈ σ.core.ca x)
    (hsmall : Small lim (σ.core.ca x)) : LosesLit lim x q σ (σ.strengthenClause x q) := by
  have hlen := (h.rooted.base.shape x hx).1
  by_cases h2 : (σ.core.ca x).length = 2
  · exact h.strengthenBinary lim hx hq h2
  · have hlen3 : 2 < (σ.core.ca x).length := by omega
    have hw := h.shortened hx hq hlen3
    obtain ⟨heap, heq⟩ := strengthenClause_eq hq hlen3
    rw [heq]
    refine ⟨⟨fun _ => { hw with }, fun _ => { h.shrinks_shortened hx hq hsmall with },
      fun _ m => models_shortened hx, fun e => absurd e (by simp)⟩,
      fun _ y hy _ => ?_, fun _ _ a ha => ?_⟩
    · exact (Core.refs_strengthen σ.core x q).symm ▸ hy
    · exact Core.ca_strengthen_self σ.core x q ▸ ha

end Simp

end Parsat.Minisat
