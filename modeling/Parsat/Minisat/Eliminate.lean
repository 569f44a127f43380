import Parsat.Minisat.Kept
import Parsat.Sat.Reconstruct

/-!
# Minisat — elimination of a variable

The clauses of a variable are replaced by their resolvents; those of one sign are stored with a unit
clause behind them, and tell later which value the variable must have.

* `mem_merge`: the resolvent, and `needs_storedOf`: what the stored clauses need.
* `addResolvents_spec`: the resolvents are added.
* `Loaded.eliminateVar`: what is left says that the variable has some value.
-/

namespace Parsat.Minisat

open UnitProp

variable {ps qs out c d : Clause} {p q l : Lit} {v : ℕ} {m : Model}

/-! ### Resolvents -/

theorem mergeRest_none (h : mergeRest ps v qs = none) : ∃ q ∈ qs, q.var ≠ v ∧ -q ∈ ps := by
  induction qs with
  | nil => cases h
  | cons q qs ih =>
      rw [mergeRest] at h
      split_ifs at h with hv
      · obtain ⟨a, ha, hav⟩ := ih h
        exact ⟨a, List.mem_cons_of_mem _ ha, hav⟩
      · rcases hf : ps.find? fun p => p.var = q.var with _ | p
        · rw [hf] at h
          obtain ⟨a, ha, hav⟩ := ih (Option.map_eq_none_iff.mp h)
          exact ⟨a, List.mem_cons_of_mem _ ha, hav⟩
        · rw [hf] at h
          simp only at h
          split_ifs at h with e
          · exact ⟨q, List.mem_cons_self, hv, e ▸ List.mem_of_find?_eq_some hf⟩
          · obtain ⟨a, ha, hav⟩ := ih h
            exact ⟨a, List.mem_cons_of_mem _ ha, hav⟩

theorem mergeRest_some (h : mergeRest ps v qs = some out) :
    (∀ q ∈ out, q ∈ qs ∧ q.var ≠ v) ∧ ∀ q ∈ qs, q.var ≠ v → q ∈ out ∨ q ∈ ps := by
  induction qs generalizing out with
  | nil =>
      cases h
      simp
  | cons q qs ih =>
      rw [mergeRest] at h
      split_ifs at h with hv
      · obtain ⟨h₁, h₂⟩ := ih h
        exact ⟨fun a ha => ⟨List.mem_cons_of_mem _ (h₁ a ha).1, (h₁ a ha).2⟩,
          List.forall_mem_cons.mpr ⟨fun hn => absurd hv hn, h₂⟩⟩
      · rcases hf : ps.find? fun p => p.var = q.var with _ | p
        · rw [hf] at h
          obtain ⟨rest, hr, rfl⟩ := Option.map_eq_some_iff.mp h
          obtain ⟨h₁, h₂⟩ := ih hr
          refine ⟨List.forall_mem_cons.mpr ⟨⟨List.mem_cons_self, hv⟩, fun a ha =>
            ⟨List.mem_cons_of_mem _ (h₁ a ha).1, (h₁ a ha).2⟩⟩, List.forall_mem_cons.mpr
            ⟨fun _ => .inl List.mem_cons_self, fun a ha hav => ?_⟩⟩
          exact (h₂ a ha hav).imp_left (List.mem_cons_of_mem _)
        · rw [hf] at h
          simp only at h
          split_ifs at h with e
          obtain ⟨h₁, h₂⟩ := ih h
          refine ⟨fun a ha => ⟨List.mem_cons_of_mem _ (h₁ a ha).1, (h₁ a ha).2⟩,
            List.forall_mem_cons.mpr ⟨fun _ => .inr ?_, h₂⟩⟩
          have hpq : p.var = q.var := by simpa using List.find?_some hf
          rcases Lit.eq_or_eq_neg hpq with rfl | hn
          · exact List.mem_of_find?_eq_some hf
          · exact absurd hn e

/-- **The resolvent**, where it is not a tautology. -/
theorem mem_merge (h : merge c d v = some out) : q ∈ out ↔ (q ∈ c ∨ q ∈ d) ∧ q.var ≠ v := by
  have key : ∀ {ps qs out : Clause}, mergeRest ps v qs = some out →
      (q ∈ out ++ ps.filter (fun p => p.var ≠ v) ↔ (q ∈ ps ∨ q ∈ qs) ∧ q.var ≠ v) := by
    intro ps qs out h
    obtain ⟨h₁, h₂⟩ := mergeRest_some h
    rw [List.mem_append, List.mem_filter, decide_eq_true_eq]
    constructor
    · rintro (hq | ⟨hq, hv⟩)
      · exact ⟨.inr (h₁ q hq).1, (h₁ q hq).2⟩
      · exact ⟨.inl hq, hv⟩
    · rintro ⟨hq | hq, hv⟩
      · exact .inr ⟨hq, hv⟩
      · exact (h₂ q hq hv).imp_right fun hq => ⟨hq, hv⟩
  unfold merge at h
  obtain ⟨rest, hr, rfl⟩ := Option.map_eq_some_iff.mp h
  split_ifs at hr ⊢ with hlen
  · rw [key hr, or_comm]
  · exact key hr

theorem merge_none (h : merge c d v = none) :
    ∃ q, q.var ≠ v ∧ (q ∈ c ∧ -q ∈ d ∨ q ∈ d ∧ -q ∈ c) := by
  unfold merge at h
  have hr := Option.map_eq_none_iff.mp h
  split_ifs at hr with hlen
  · obtain ⟨q, hq, hv, hn⟩ := mergeRest_none hr
    exact ⟨q, hv, .inl ⟨hq, hn⟩⟩
  · obtain ⟨q, hq, hv, hn⟩ := mergeRest_none hr
    exact ⟨q, hv, .inr ⟨hq, hn⟩⟩

/-- A literal of the clause that is not about `v` is true. -/
def Rest (m : Model) (v : ℕ) (c : Clause) : Prop := ∃ q ∈ c, q.var ≠ v ∧ q.Holds m

theorem holds_merge (h : merge c d v = some out) :
    (∃ q ∈ out, q.Holds m) ↔ Rest m v c ∨ Rest m v d := by
  constructor
  · rintro ⟨q, hq, hm⟩
    obtain ⟨hq, hv⟩ := (mem_merge h).mp hq
    exact hq.imp (fun hq => ⟨q, hq, hv, hm⟩) fun hq => ⟨q, hq, hv, hm⟩
  · rintro (⟨q, hq, hv, hm⟩ | ⟨q, hq, hv, hm⟩)
    · exact ⟨q, (mem_merge h).mpr ⟨.inl hq, hv⟩, hm⟩
    · exact ⟨q, (mem_merge h).mpr ⟨.inr hq, hv⟩, hm⟩

theorem rest_of_merge_none (h : merge c d v = none) : Rest m v c ∨ Rest m v d := by
  obtain ⟨q, hv, ⟨hq, hn⟩ | ⟨hq, hn⟩⟩ := merge_none h
  · by_cases hm : q.Holds m
    · exact .inl ⟨q, hq, hv, hm⟩
    · exact .inr ⟨-q, hn, hv, (Lit.holds_neg m q).mpr hm⟩
  · by_cases hm : q.Holds m
    · exact .inr ⟨q, hq, hv, hm⟩
    · exact .inl ⟨-q, hn, hv, (Lit.holds_neg m q).mpr hm⟩

theorem rest_perm (h : c.Perm d) : Rest m v c ↔ Rest m v d := by
  simp only [Rest, h.mem_iff]

theorem holds_update {b : Bool} (h : q.var ≠ v) :
    q.Holds (Function.update m v b) ↔ q.Holds m := by
  rw [Lit.Holds, Lit.Holds, Function.update_of_ne h]

theorem holds_update_self {b : Bool} (h : q.var = v) :
    q.Holds (Function.update m v b) ↔ b = !q.sign := by
  rw [Lit.Holds, h, Function.update_self]

/-- A clause with a literal of `v` under a new value of `v`. -/
theorem exists_holds_update {b : Bool} (hl : l ∈ c) (hlv : l.var = v)
    (hc : c.Pairwise fun p q => p.var ≠ q.var) :
    (∃ q ∈ c, q.Holds (Function.update m v b)) ↔ b = (!l.sign) ∨ Rest m v c := by
  constructor
  · rintro ⟨q, hq, hm⟩
    by_cases e : q = l
    · subst e
      exact .inl ((holds_update_self hlv).mp hm)
    · have hne : q.var ≠ v := hlv ▸
        var_ne_of_mem_erase hc hl ((List.mem_erase_of_ne e).mpr hq)
      exact .inr ⟨q, hq, hne, (holds_update hne).mp hm⟩
  · rintro (hb | ⟨q, hq, hv, hm⟩)
    · exact ⟨l, hl, (holds_update_self hlv).mpr hb⟩
    · exact ⟨q, hq, (holds_update hv).mpr hm⟩

/-! ### The clauses that are stored -/

theorem mkElimClause_eq (hl : l ∈ c) (hc : c.Pairwise fun p q => p.var ≠ q.var) :
    ∃ rest, mkElimClause l.var c = l :: rest ∧ ∀ q, q ∈ rest ↔ q ∈ c ∧ q.var ≠ l.var := by
  have hi : (c.findIdx fun p => p.var = l.var) < c.length :=
    List.findIdx_lt_length.mpr ⟨l, hl, by simp⟩
  have hhead := Core.swapIn_zero hi
  have hperm := Core.swapIn_perm c (c.findIdx fun p => p.var = l.var)
  have hvar : (c.get ⟨c.findIdx fun p => p.var = l.var, hi⟩).var = l.var := by
    simpa using List.findIdx_getElem (w := hi)
  have hself : c.get ⟨c.findIdx fun p => p.var = l.var, hi⟩ = l := by
    by_contra hne
    exact var_ne_of_mem_erase hc hl
      ((List.mem_erase_of_ne hne).mpr (List.get_mem c _)) hvar
  rw [List.getElem?_eq_getElem hi] at hhead
  replace hhead := hhead.trans (congrArg some hself)
  rw [mkElimClause]
  rcases he : Core.swapIn c (c.findIdx fun p => p.var = l.var) with _ | ⟨a, rest⟩
  · rw [he] at hhead
    cases hhead
  · rw [he] at hhead hperm
    obtain rfl : a = l := by simpa using hhead
    refine ⟨rest, he, fun q => ?_⟩
    have hrest : rest.Perm (c.erase a) := by
      have := hperm.erase a
      rwa [List.erase_cons_head] at this
    rw [hrest.mem_iff]
    constructor
    · exact fun hq => ⟨List.mem_of_mem_erase hq, var_ne_of_mem_erase hc hl hq⟩
    · exact fun ⟨hq, hne⟩ => (List.mem_erase_of_ne fun e => hne (congrArg Lit.var e)).mpr hq

/-- What is stored for the literal `l`, of the clauses `side` with it. -/
def storedOf (ca : ℕ → Clause) (l : Lit) (side : List ℕ) : Stored :=
  ⟨l, side.map fun x => (mkElimClause l.var (ca x)).tail⟩

section StoredOf

variable {ca : ℕ → Clause} {side : List ℕ}

theorem clauses_storedOf
    (hside : ∀ x ∈ side, l ∈ ca x ∧ (ca x).Pairwise fun p q => p.var ≠ q.var) :
    (storedOf ca l side).clauses = (side.map fun x => mkElimClause l.var (ca x)) ++ [[-l]] := by
  rw [Stored.clauses, storedOf, List.map_map]
  refine congrArg (· ++ [[-l]]) (List.map_congr_left fun x hx => ?_)
  obtain ⟨rest, hrest, -⟩ := mkElimClause_eq (hside x hx).1 (hside x hx).2
  simp [hrest]

theorem mem_storedOf
    (hside : ∀ x ∈ side, l ∈ ca x ∧ (ca x).Pairwise fun p q => p.var ≠ q.var) {x : ℕ}
    (hx : x ∈ side) {q : Lit} :
    q ∈ (mkElimClause l.var (ca x)).tail ↔ q ∈ ca x ∧ q.var ≠ l.var := by
  obtain ⟨rest, hrest, hmem⟩ := mkElimClause_eq (hside x hx).1 (hside x hx).2
  rw [hrest]
  exact hmem q

theorem avoids_storedOf
    (hside : ∀ x ∈ side, l ∈ ca x ∧ (ca x).Pairwise fun p q => p.var ≠ q.var) :
    (storedOf ca l side).Avoids l.var := by
  rintro rest hrest q hq
  obtain ⟨x, hx, rfl⟩ := List.mem_map.mp hrest
  exact ((mem_storedOf hside hx).mp hq).2

/-- The values of the other variables decide whether a stored clause needs the variable. -/
theorem needs_storedOf {β : PartialModel}
    (hside : ∀ x ∈ side, l ∈ ca x ∧ (ca x).Pairwise fun p q => p.var ≠ q.var)
    (hβ : ∀ x ∈ side, ∀ q ∈ ca x, q.var ≠ l.var → β q.var = .ofBool (m q.var)) :
    (storedOf ca l side).Needs β ↔ ∃ x ∈ side, ¬ Rest m l.var (ca x) := by
  have hval : ∀ x ∈ side, ∀ q ∈ ca x, q.var ≠ l.var →
      (modelValue β q = .false ↔ ¬ q.Holds m) := by
    intro x hx q hq hne
    rw [modelValue, hβ x hx q hq hne, Lit.Holds]
    cases hs : q.sign <;> cases hm : m q.var <;> simp [LBool.xor, LBool.ofBool]
  constructor
  · rintro ⟨rest, hrest, hfalse⟩
    obtain ⟨x, hx, rfl⟩ := List.mem_map.mp hrest
    refine ⟨x, hx, ?_⟩
    rintro ⟨q, hq, hne, hm⟩
    exact (hval x hx q hq hne).mp (hfalse q ((mem_storedOf hside hx).mpr ⟨hq, hne⟩)) hm
  · rintro ⟨x, hx, hn⟩
    refine ⟨_, List.mem_map_of_mem hx, fun q hq => ?_⟩
    obtain ⟨hq, hne⟩ := (mem_storedOf hside hx).mp hq
    exact (hval x hx q hq hne).mpr fun hm => hn ⟨q, hq, hne, hm⟩

end StoredOf

/-! ### Values for the variable -/

theorem not_rest_iff_of_neg {b : Bool} (h : b ≠ (!l.sign)) : b = !(-l).sign := by
  rw [Lit.sign_neg]
  cases b <;> cases hs : l.sign <;> simp_all

/-- **What the stack says** about the variable: with one side stored, all clauses are true. -/
theorem exists_extendModel {ca : ℕ → Clause} {side other : List ℕ} {β : PartialModel}
    (hside : ∀ x ∈ side, l ∈ ca x ∧ (ca x).Pairwise fun p q => p.var ≠ q.var)
    (hother : ∀ y ∈ other, -l ∈ ca y ∧ (ca y).Pairwise fun p q => p.var ≠ q.var)
    (hβ : ∀ x ∈ side, ∀ q ∈ ca x, q.var ≠ l.var → β q.var = .ofBool (m q.var))
    (hres : ∀ x ∈ side, ∀ y ∈ other, Rest m l.var (ca x) ∨ Rest m l.var (ca y)) :
    ∃ b, extendModel ((side.map fun x => mkElimClause l.var (ca x)) ++ [[-l]]) β =
        Function.update β l.var (.ofBool b) ∧
      (∀ x ∈ side, ∃ q ∈ ca x, q.Holds (Function.update m l.var b)) ∧
      ∀ y ∈ other, ∃ q ∈ ca y, q.Holds (Function.update m l.var b) := by
  obtain ⟨b, hb, hiff⟩ : ∃ b,
      extendModel (storedOf ca l side).clauses β = Function.update β l.var (.ofBool b) ∧
        (b = (!l.sign) ↔ ∃ x ∈ side, ¬ Rest m l.var (ca x)) := by
    have hrun := Stored.extendModel_clauses (β := β) (avoids_storedOf hside)
    rw [← needs_storedOf hside hβ]
    split_ifs at hrun with hneeds
    · exact ⟨!l.sign, hrun, iff_of_true rfl hneeds⟩
    · exact ⟨l.sign, hrun, iff_of_false (by simp) hneeds⟩
  refine ⟨b, clauses_storedOf hside ▸ hb, fun x hx => ?_, fun y hy => ?_⟩
  · rw [exists_holds_update (hside x hx).1 rfl (hside x hx).2]
    by_contra hn
    exact hn (.inl (hiff.mpr ⟨x, hx, fun hr => hn (.inr hr)⟩))
  · rw [exists_holds_update (hother y hy).1 (Lit.var_neg l) (hother y hy).2]
    by_cases hbl : b = !l.sign
    · obtain ⟨x, hx, hr⟩ := hiff.mp hbl
      exact .inr ((hres x hx y hy).resolve_left hr)
    · exact .inl (not_rest_iff_of_neg hbl)

/-- A value under which all clauses are true makes the resolvents true. -/
theorem rest_of_holds_update {b : Bool} (hl : l ∈ c)
    (hc : c.Pairwise fun p q => p.var ≠ q.var) (hn : -l ∈ d)
    (hd : d.Pairwise fun p q => p.var ≠ q.var)
    (hmc : ∃ q ∈ c, q.Holds (Function.update m l.var b))
    (hmd : ∃ q ∈ d, q.Holds (Function.update m l.var b)) : Rest m l.var c ∨ Rest m l.var d := by
  rw [exists_holds_update hl rfl hc] at hmc
  rw [exists_holds_update hn (Lit.var_neg l) hd] at hmd
  rcases hmc with hb | hr
  · rcases hmd with hb' | hr
    · rw [hb, Lit.sign_neg] at hb'
      cases hs : l.sign <;> simp [hs] at hb'
    · exact .inr hr
  · exact .inl hr

/-! ### The clauses of the variable go -/

theorem Core.usable_unset {s : Core} {w : ℕ} :
    Core.Usable { s with decision := Function.update s.decision v false } w ↔
      s.Usable w ∧ w ≠ v := by
  unfold Core.Usable
  by_cases e : w = v <;> simp [e]

theorem Core.Rooted.unset {s : Core} (h : s.Rooted)
    (hcl : ∀ x ∈ s.refs, ∀ q ∈ s.ca x, q.var ≠ v) (htr : ∀ q ∈ s.trail, q.var ≠ v)
    (ha : s.assumptions = []) :
    Core.Rooted { s with decision := Function.update s.decision v false } where
  base := { h.base with wf := h.base.wf.of_trail rfl rfl }
  bounded :=
    { heap := fun w hw hund => h.bounded.heap w (Core.usable_unset.mp hw).1 hund
      heap_lt := h.bounded.heap_lt
      vars := fun x hx q hq => Core.usable_unset.mpr ⟨h.bounded.vars x hx q hq, hcl x hx q hq⟩
      trail := fun q hq => Core.usable_unset.mpr ⟨h.bounded.trail q hq, htr q hq⟩
      assumptions := fun a ha' => absurd (ha ▸ ha' : a ∈ ([] : List Lit)) List.not_mem_nil }
  qhead_eq := h.qhead_eq
  trailLim_eq := h.trailLim_eq
  learnts_eq := h.learnts_eq

namespace Simp

variable {σ τ υ : Simp} {lim grow clauseLim : ℤ} {x : ℕ} {F G : Cnf}

theorem updateElimHeap_unset (σ : Simp) (w : ℕ) :
    (σ.unsetDecision v).updateElimHeap w = (σ.updateElimHeap w).unsetDecision v := by
  by_cases h : w ∉ σ.elimHeap ∧ σ.frozen w = false ∧ σ.eliminated w = false ∧
      σ.core.assigns w = .undef
  · have h₁ : (σ.unsetDecision v).updateElimHeap w =
        { σ.unsetDecision v with elimHeap := w :: σ.elimHeap } := if_pos h
    have h₂ : σ.updateElimHeap w = { σ with elimHeap := w :: σ.elimHeap } := if_pos h
    rw [h₁, h₂]
    rfl
  · have h₁ : (σ.unsetDecision v).updateElimHeap w = σ.unsetDecision v := if_neg h
    have h₂ : σ.updateElimHeap w = σ := if_neg h
    rw [h₁, h₂]

theorem unnoteLit_unset (σ : Simp) (p : Lit) :
    (σ.unsetDecision v).unnoteLit p = (σ.unnoteLit p).unsetDecision v := by
  unfold unnoteLit
  rw [updateElimHeap_unset]
  rfl

/-- Removing a clause does not look at what may be decided. -/
theorem removeClause_unset (σ : Simp) (x : ℕ) :
    (σ.unsetDecision v).removeClause x = (σ.removeClause x).unsetDecision v := by
  have hfold : ∀ (c : Clause) (σ : Simp),
      c.foldl unnoteLit (σ.unsetDecision v) = (c.foldl unnoteLit σ).unsetDecision v := by
    intro c
    induction c with
    | nil => exact fun _ => rfl
    | cons p c ih =>
        intro σ
        rw [List.foldl_cons, unnoteLit_unset, ih]
        rfl
  have hdrop : ∀ τ : Simp,
      { τ.unsetDecision v with
        core := (τ.unsetDecision v).core.dropRef x ((τ.unsetDecision v).core.clauses.erase x)
          (τ.unsetDecision v).core.learnts } =
      unsetDecision
        { τ with core := τ.core.dropRef x (τ.core.clauses.erase x) τ.core.learnts } v := by
    intro τ
    unfold unsetDecision Core.dropRef Core.removeClause Core.detachClause
    dsimp only
    rcases τ.core.ca x with _ | ⟨a, _ | ⟨b, rest⟩⟩ <;> rfl
  unfold Simp.removeClause
  have hca : (σ.unsetDecision v).core.ca x = σ.core.ca x := rfl
  have hon : (σ.unsetDecision v).useSimplification = σ.useSimplification := rfl
  rw [hca, hon]
  by_cases h : σ.useSimplification = true
  · rw [if_pos h, if_pos h, hfold]
    exact hdrop _
  · rw [if_neg h, if_neg h]
    exact hdrop _

theorem foldl_removeClause_unset (xs : List ℕ) (σ : Simp) :
    xs.foldl Simp.removeClause (σ.unsetDecision v) =
      (xs.foldl Simp.removeClause σ).unsetDecision v := by
  induction xs generalizing σ with
  | nil => rfl
  | cons x xs ih => rw [List.foldl_cons, removeClause_unset, ih, List.foldl_cons]

theorem Work.removeAll (h : σ.Work) (lim : ℤ) {xs : List ℕ} (hn : xs.Nodup)
    (hxs : ∀ x ∈ xs, x ∈ σ.core.refs) :
    (xs.foldl Simp.removeClause σ).Work ∧ Shrinks lim σ (xs.foldl Simp.removeClause σ) ∧
      (∀ y, y ∈ (xs.foldl Simp.removeClause σ).core.refs ↔ y ∈ σ.core.refs ∧ y ∉ xs) ∧
      (xs.foldl Simp.removeClause σ).core.ca = σ.core.ca ∧
      (xs.foldl Simp.removeClause σ).core.trail = σ.core.trail ∧
      (xs.foldl Simp.removeClause σ).core.size = σ.core.size := by
  induction xs generalizing σ with
  | nil => exact ⟨h, .refl lim σ, fun y => by simp, rfl, rfl, rfl⟩
  | cons x xs ih =>
      obtain ⟨hx, hxs⟩ := List.forall_mem_cons.mp hxs
      obtain ⟨hnx, hn⟩ := List.nodup_cons.mp hn
      obtain ⟨hw, hs, hrefs, hca, htrail, -, -⟩ := h.removeClause lim hx
      have hsize : (σ.removeClause x).core.size = σ.core.size := by
        obtain ⟨heap, heq⟩ := h.removeClause_eq x
        rw [heq, Core.dropRef_eq]
      obtain ⟨hw', hs', hrefs', hca', htrail', hsize'⟩ := ih hw hn fun y hy =>
        (hrefs y).mpr ⟨hxs y hy, fun e => hnx (e ▸ hy)⟩
      rw [List.foldl_cons]
      refine ⟨hw', hs.trans hs', fun y => ?_, hca'.trans hca, htrail'.trans htrail,
        hsize'.trans hsize⟩
      rw [hrefs', hrefs, List.mem_cons, not_or, and_assoc]

/-- The clauses and the literals of the trail as a formula. -/
def remaining (s : Core) : Cnf := s.refs.map s.ca ++ s.trail.map fun p => [p]

theorem sat_remaining {s : Core} : m.Sat (remaining s) ↔ s.abs.Models m := by
  rw [Core.models_abs, remaining]
  simp only [Satisfies, List.mem_append, List.mem_map]
  constructor
  · refine fun h => ⟨fun x hx => h _ (.inl ⟨x, hx, rfl⟩), fun p hp => ?_⟩
    simpa using h [p] (.inr ⟨p, hp, rfl⟩)
  · rintro ⟨hC, hT⟩ c (⟨x, hx, rfl⟩ | ⟨p, hp, rfl⟩)
    · exact hC x hx
    · exact ⟨p, List.mem_singleton_self p, hT p hp⟩

/-! ### The resolvents come -/

/-- What adding the resolvents comes to, where `C` are the clauses. -/
structure AddsResolvents (lim : ℤ) (G : Cnf) (v : ℕ) (C : ℕ → Clause) (pairs : List (ℕ × ℕ))
    (σ : Simp) (r : Bool × Simp) : Prop where
  ok : r.1 = true → r.2.core.ok = true
  loaded : r.1 = true → ∃ R, Loaded lim (G ++ R) r.2 ∧
    ∀ m : Model, m.Sat R ↔ ∀ e ∈ pairs, Rest m v (C e.1) ∨ Rest m v (C e.2)
  unsat : r.1 = false → ∀ m : Model, m.Sat G → ¬ ∀ e ∈ pairs, Rest m v (C e.1) ∨ Rest m v (C e.2)
  eliminated_eq : r.2.eliminated = σ.eliminated
  elimclauses_eq : r.2.elimclauses = σ.elimclauses
  usable : r.1 = true → ∀ w, r.2.core.Usable w ↔ σ.core.Usable w
  nVars_eq : r.1 = true → r.2.core.nVars = σ.core.nVars

theorem sat_append {m : Model} {F G : Cnf} : m.Sat (F ++ G) ↔ m.Sat F ∧ m.Sat G := by
  simp only [Satisfies, List.forall_mem_append]

theorem addResolvents_spec {C : ℕ → Clause} {pairs : List (ℕ × ℕ)} (h : Loaded lim G σ)
    (hok : σ.core.ok = true)
    (hC : ∀ e ∈ pairs, ((σ.core.ca e.1).Perm (C e.1) ∧ e.1 < σ.core.size) ∧
      (σ.core.ca e.2).Perm (C e.2) ∧ e.2 < σ.core.size)
    (hu : ∀ e ∈ pairs, ∀ q, q ∈ C e.1 ∨ q ∈ C e.2 → q.var ≠ v → σ.core.Usable q.var) :
    AddsResolvents lim G v C pairs σ (σ.addResolvents v pairs) := by
  induction pairs generalizing σ G with
  | nil =>
      exact ⟨fun _ => hok, fun _ => ⟨[], by rwa [List.append_nil], fun m => by simp [Satisfies]⟩,
        fun e => absurd e (by simp [addResolvents]), rfl, rfl, fun _ _ => .rfl, fun _ => rfl⟩
  | cons e pairs ih =>
      obtain ⟨x, y⟩ := e
      obtain ⟨⟨⟨hpx, hx⟩, hpy, hy⟩, hC⟩ := List.forall_mem_cons.mp hC
      obtain ⟨hux, hu⟩ := List.forall_mem_cons.mp hu
      have hrest : ∀ m : Model, Rest m v (σ.core.ca x) ∨ Rest m v (σ.core.ca y) ↔
          Rest m v (C x) ∨ Rest m v (C y) := fun m => by rw [rest_perm hpx, rest_perm hpy]
      cases hm : merge (σ.core.ca x) (σ.core.ca y) v with
      | none =>
          have heq : σ.addResolvents v ((x, y) :: pairs) = σ.addResolvents v pairs := by
            simp only [addResolvents, hm]
          have hih := ih h hok hC hu
          rw [heq]
          refine { hih with loaded := fun e => ?_, unsat := fun e m hG hall => ?_ }
          · obtain ⟨R, hR, hiff⟩ := hih.loaded e
            refine ⟨R, hR, fun m => (hiff m).trans ?_⟩
            rw [List.forall_mem_cons, and_iff_right]
            exact (hrest m).mp (rest_of_merge_none hm)
          · exact hih.unsat e m hG (List.forall_mem_cons.mp hall).2
      | some c =>
          have hpair : ∀ m : Model, (∃ q ∈ c, q.Holds m) ↔ Rest m v (C x) ∨ Rest m v (C y) :=
            fun m => (holds_merge hm).trans (hrest m)
          have huc : ∀ p ∈ c, σ.core.Usable p.var := by
            intro p hp
            obtain ⟨hp, hpv⟩ := (mem_merge hm).mp hp
            exact hux p (hp.imp hpx.mem_iff.mp hpy.mem_iff.mp) hpv
          have hl := h.addClause_ huc
          have hadds := (h.idle.clean hok).addClause_ hok huc
          obtain ⟨hflag, hcore, helim, hcls⟩ := core_addClause σ c
          obtain ⟨hperm, hnVars⟩ := perm_addClause h hok huc
          rcases hr : σ.addClause_ c with ⟨_ | _, τ⟩
          · have heq : σ.addResolvents v ((x, y) :: pairs) = (false, τ) := by
              simp only [addResolvents, hm, hr]
            rw [hr] at hflag hcore helim hcls
            rw [heq]
            refine ⟨fun e => absurd e (by simp), fun e => absurd e (by simp), fun _ m hG hall => ?_,
              helim, hcls, fun e => absurd e (by simp), fun e => absurd e (by simp)⟩
            refine hadds.unsat (by rw [← hadds.flag, ← hflag])
              ⟨m, Core.sat_append_singleton.mpr ⟨hG, ?_⟩⟩
            exact (hpair m).mpr (List.forall_mem_cons.mp hall).1
          · have heq : σ.addResolvents v ((x, y) :: pairs) = τ.addResolvents v pairs := by
              simp only [addResolvents, hm, hr]
            rw [hr] at hflag hcore helim hcls hl hperm hnVars
            have hcore' : τ.core = (σ.core.addClause_ c).2 := hcore
            have hokτ : τ.core.ok = true := by
              rw [hcore', ← hadds.flag, ← hflag]
            have husable : ∀ w, τ.core.Usable w ↔ σ.core.Usable w := fun w => by
              rw [hcore', hadds.usable]
            have hih := ih hl hokτ
              (fun e he =>
                ⟨⟨(hperm _ (hC e he).1.2).1.trans (hC e he).1.1, (hperm _ (hC e he).1.2).2⟩,
                  (hperm _ (hC e he).2.2).1.trans (hC e he).2.1, (hperm _ (hC e he).2.2).2⟩)
              (fun e he q hq hqv => (husable _).mpr (hu e he q hq hqv))
            rw [heq]
            refine ⟨hih.ok, fun e => ?_, fun e m hG hall => ?_, hih.eliminated_eq.trans helim,
              hih.elimclauses_eq.trans hcls, fun e w => (hih.usable e w).trans (husable w),
              fun e => (hih.nVars_eq e).trans hnVars⟩
            · obtain ⟨R, hR, hiff⟩ := hih.loaded e
              refine ⟨[c] ++ R, by rwa [← List.append_assoc], fun m => ?_⟩
              rw [sat_append, List.forall_mem_cons, hiff m]
              refine and_congr_left fun _ => ?_
              rw [← hpair m]
              simp [Satisfies]
            · obtain ⟨hxy, hall⟩ := List.forall_mem_cons.mp hall
              exact hih.unsat e m (Core.sat_append_singleton.mpr ⟨hG, (hpair m).mpr hxy⟩) hall

/-- A variable that is not used any more loses its list. -/
theorem Kept.clearOccurs (h : Kept lim σ) (hv : ¬ σ.core.Usable v) :
    Kept lim { σ with occurs := Function.update σ.occurs v [] } := by
  have hw := h.work
  have hne : ∀ x ∈ σ.core.refs, ∀ q ∈ σ.core.ca x, q.var ≠ v := fun x hx q hq e =>
    hv (e ▸ hw.rooted.bounded.vars x hx q hq)
  have hocc : ∀ w y, y ∈ Function.update σ.occurs v [] w ↔ w ≠ v ∧ y ∈ σ.occurs w := by
    intro w y
    by_cases e : w = v <;> simp [e]
  have hwork : Work { σ with occurs := Function.update σ.occurs v [] } := by
    refine ⟨hw.rooted, hw.on, ?_, ?_, ?_, ?_, hw.queue, hw.bwd_le⟩
    · exact fun x hx q hq => (hocc _ x).mpr ⟨hne x hx q hq, hw.cover x hx q hq⟩
    · exact fun w x hx => hw.live w x ((hocc w x).mp hx).2
    · intro w
      change (Function.update σ.occurs v [] w).Nodup
      by_cases e : w = v
      · simp [e]
      · rw [Function.update_of_ne e]
        exact hw.nodup w
    · exact fun w x hx => hw.occurs_lt w x ((hocc w x).mp hx).2
  exact ⟨hwork, h.assumptions, h.touched_lt, h.untouched, fun e hu x ht => by
    cases e with
    | clause cr => exact h.clear (.clause cr) hu x ht
    | tmpunit p => exact h.clear (.tmpunit p) hu x ht⟩

/-! ### A variable is eliminated -/

/-- What is left when the variable `v` is gone: the clauses `G'` say that it has some value, and the
stack finds it. -/
structure Projects (v : ℕ) (G : Cnf) (σ : Simp) (G' : Cnf) (τ : Simp) : Prop where
  eliminated_eq : τ.eliminated = Function.update σ.eliminated v true
  usable : ∀ w, τ.core.Usable w ↔ σ.core.Usable w ∧ w ≠ v
  nVars_eq : τ.core.nVars = σ.core.nVars
  models : ∀ m : Model, m.Sat G' ↔ ∃ b, Model.Sat (Function.update m v b) G
  extend : ∀ (m : Model) (β : PartialModel), m.Sat G' →
    (∀ w, σ.core.Usable w → w ≠ v → β w = .ofBool (m w)) →
    ∃ b, extendModel τ.elimclauses β = extendModel σ.elimclauses (Function.update β v (.ofBool b)) ∧
      Model.Sat (Function.update m v b) G

/-- The solver is as it was. -/
structure Unchanged (σ τ : Simp) : Prop where
  eliminated_eq : τ.eliminated = σ.eliminated
  elimclauses_eq : τ.elimclauses = σ.elimclauses
  usable : ∀ w, τ.core.Usable w ↔ σ.core.Usable w
  nVars_eq : τ.core.nVars = σ.core.nVars

/-- What is noted of the eliminated variables is not looked at. -/
theorem Loaded.push (h : Loaded lim G σ) (eliminated : ℕ → Bool) (elimclauses : List Clause) :
    Loaded lim G { σ with eliminated := eliminated, elimclauses := elimclauses } where
  idle := h.idle
  kept hok := by
    have hk := h.kept hok
    refine ⟨{ hk.work with }, hk.assumptions, hk.touched_lt, hk.untouched, fun e hu x ht => ?_⟩
    cases e with
    | clause cr => exact hk.clear (.clause cr) hu x ht
    | tmpunit p => exact hk.clear (.tmpunit p) hu x ht

theorem Loaded.lookup (h : Loaded lim G σ) (v : ℕ) : Loaded lim G (σ.lookup v) := by
  have hcore : (σ.lookup v).core = σ.core := by unfold Simp.lookup; split_ifs <;> rfl
  refine ⟨hcore.symm ▸ h.idle, fun hok => ?_⟩
  rw [hcore] at hok
  have hk := h.kept hok
  obtain ⟨hw, hs, -, -⟩ := hk.work.lookup lim v
  exact hk.of_shrinks hw hs

/-- The clauses of the variable, by its sign in them. -/
structure Sides (v : ℕ) (C : ℕ → Clause) (cls pos neg : List ℕ) : Prop where
  left : ∀ x ∈ pos, mkLit v false ∈ C x ∧ (C x).Pairwise fun p q => p.var ≠ q.var
  right : ∀ x ∈ neg, mkLit v true ∈ C x ∧ (C x).Pairwise fun p q => p.var ≠ q.var
  mem : ∀ x, x ∈ cls ↔ x ∈ pos ∨ x ∈ neg

theorem sides_filter {C : ℕ → Clause} {cls : List ℕ}
    (hshape : ∀ x ∈ cls, (C x).Pairwise fun p q => p.var ≠ q.var)
    (hvar : ∀ x ∈ cls, ∃ q ∈ C x, q.var = v) :
    Sides v C cls (cls.filter fun x => mkLit v false ∈ C x)
      (cls.filter fun x => mkLit v false ∉ C x) := by
  refine ⟨fun x hx => ?_, fun x hx => ?_, fun x => ?_⟩
  · obtain ⟨hx, hp⟩ := List.mem_filter.mp hx
    exact ⟨of_decide_eq_true hp, hshape x hx⟩
  · obtain ⟨hx, hp⟩ := List.mem_filter.mp hx
    obtain ⟨q, hq, hqv⟩ := hvar x hx
    refine ⟨?_, hshape x hx⟩
    rcases Lit.eq_or_eq_neg (p := q) (q := mkLit v false) hqv with rfl | rfl
    · exact absurd hq (of_decide_eq_true hp)
    · exact hq
  · rw [List.mem_filter, List.mem_filter, ← and_or_left, and_iff_left]
    simp only [decide_eq_true_eq]
    exact em _

theorem Sides.mem_product {C : ℕ → Clause} {cls pos neg : List ℕ} (h : Sides v C cls pos neg)
    {e : ℕ × ℕ} (he : e ∈ pos ×ˢ neg) : e.1 ∈ cls ∧ e.2 ∈ cls := by
  obtain ⟨hx, hy⟩ := List.pair_mem_product.mp he
  exact ⟨(h.mem e.1).mpr (.inl hx), (h.mem e.2).mpr (.inr hy)⟩

theorem Sides.exists_extendModel {C : ℕ → Clause} {cls pos neg : List ℕ} (h : Sides v C cls pos neg)
    (hC : σ.core.ca = C) {β : PartialModel}
    (hβ : ∀ x ∈ cls, ∀ q ∈ C x, q.var ≠ v → β q.var = .ofBool (m q.var))
    (hres : ∀ e ∈ pos ×ˢ neg, Rest m v (C e.1) ∨ Rest m v (C e.2)) :
    ∃ b, extendModel (σ.elimStack v pos neg) β = Function.update β v (.ofBool b) ∧
      ∀ x ∈ cls, ∃ q ∈ C x, q.Holds (Function.update m v b) := by
  subst hC
  have hpair : ∀ x ∈ pos, ∀ y ∈ neg, Rest m v (σ.core.ca x) ∨ Rest m v (σ.core.ca y) :=
    fun x hx y hy => hres (x, y) (List.pair_mem_product.mpr ⟨hx, hy⟩)
  unfold elimStack
  split_ifs
  · obtain ⟨b, hb, hneg, hpos⟩ := Minisat.exists_extendModel (l := mkLit v true) h.right h.left
      (fun x hx => hβ x ((h.mem x).mpr (.inr hx))) fun y hy x hx => (hpair x hx y hy).symm
    exact ⟨b, hb, fun x hx => ((h.mem x).mp hx).elim (hpos x) (hneg x)⟩
  · obtain ⟨b, hb, hpos, hneg⟩ := Minisat.exists_extendModel (l := mkLit v false) h.left h.right
      (fun x hx => hβ x ((h.mem x).mpr (.inl hx))) hpair
    exact ⟨b, hb, fun x hx => ((h.mem x).mp hx).elim (hpos x) (hneg x)⟩

theorem Sides.rest {C : ℕ → Clause} {cls pos neg : List ℕ} (h : Sides v C cls pos neg) {b : Bool}
    (hm : ∀ x ∈ cls, ∃ q ∈ C x, q.Holds (Function.update m v b)) :
    ∀ e ∈ pos ×ˢ neg, Rest m v (C e.1) ∨ Rest m v (C e.2) := by
  rintro ⟨x, y⟩ he
  obtain ⟨hx, hy⟩ := List.pair_mem_product.mp he
  exact rest_of_holds_update (l := mkLit v false) (h.left x hx).1 (h.left x hx).2
    (h.right y hy).1 (h.right y hy).2 (hm x ((h.mem x).mpr (.inl hx)))
    (hm y ((h.mem y).mpr (.inr hy)))

/-- The solver without the clauses of the variable. -/
structure Dropped (lim : ℤ) (v : ℕ) (cls : List ℕ) (σ τ : Simp) : Prop where
  loaded : Loaded lim (remaining τ.core) τ
  ok : τ.core.ok = true
  ca_eq : τ.core.ca = σ.core.ca
  size_eq : τ.core.size = σ.core.size
  usable : ∀ w, τ.core.Usable w ↔ σ.core.Usable w ∧ w ≠ v
  nVars_eq : τ.core.nVars = σ.core.nVars
  eliminated_eq : τ.eliminated = σ.eliminated
  elimclauses_eq : τ.elimclauses = σ.elimclauses
  models : ∀ m : Model, τ.core.abs.Models m ↔
    (∀ x ∈ σ.core.refs, x ∉ cls → ∃ q ∈ σ.core.ca x, q.Holds m) ∧ m.Meets σ.core.trail

theorem Loaded.drop (h : Loaded lim G σ) (hok : σ.core.ok = true) {cls : List ℕ} (hn : cls.Nodup)
    (hcls : ∀ x, x ∈ cls ↔ x ∈ σ.core.refs ∧ ∃ q ∈ σ.core.ca x, q.var = v)
    (hv : ∀ q ∈ σ.core.trail, q.var ≠ v) :
    Dropped lim v cls σ ((cls.foldl Simp.removeClause σ).unsetDecision v) := by
  have hk := h.kept hok
  obtain ⟨hw, hs, hrefs, hca, htrail, hsize⟩ :=
    hk.work.removeAll lim hn fun x hx => ((hcls x).mp hx).1
  have hkρ := hk.of_shrinks hw hs
  set ρ := cls.foldl Simp.removeClause σ
  have hfixed : ρ.core.fixed = σ.core.fixed := congrArg Simp.core hs.frame_eq
  have hne : ∀ x ∈ ρ.core.refs, ∀ q ∈ ρ.core.ca x, q.var ≠ v := by
    intro x hx q hq e
    obtain ⟨hx, hnot⟩ := (hrefs x).mp hx
    exact hnot ((hcls x).mpr ⟨hx, q, hca ▸ hq, e⟩)
  have hroot := hw.rooted.unset hne (htrail.symm ▸ hv) hkρ.assumptions
  have hkτ : Kept lim (ρ.unsetDecision v) :=
    ⟨{ hw with rooted := hroot }, hkρ.assumptions, hkρ.touched_lt, hkρ.untouched,
      fun e hu x ht => by
      cases e with
      | clause cr => exact hkρ.clear (.clause cr) hu x ht
      | tmpunit p => exact hkρ.clear (.tmpunit p) hu x ht⟩
  have hdone : ∀ x ∈ (ρ.unsetDecision v).core.refs, (ρ.unsetDecision v).core.Done x := by
    intro x hx q hq hf
    have hold := (h.idle.clean hok).inv.processed x ((hrefs x).mp hx).1
    have hqhead : ρ.core.qhead = σ.core.qhead := by
      rw [hw.rooted.qhead_eq, hk.work.rooted.qhead_eq, htrail]
    change q ∈ (ρ.core.ca x).take 2 at hq
    change -q ∈ ρ.core.trail.take ρ.core.qhead at hf
    change ∃ b ∈ ρ.core.ca x, b ∈ ρ.core.trail
    rw [hca] at hq ⊢
    rw [htrail, hqhead] at hf
    rw [htrail]
    exact hold q hq hf
  have hokρ : (ρ.unsetDecision v).core.ok = true := (Core.ok_of_fixed hfixed).trans hok
  have hclean := hroot.clean hdone fun m => sat_remaining
  refine ⟨⟨⟨fun _ => hclean, fun e => ?_⟩, fun _ => hkτ⟩, hokρ, hca, hsize, fun w => ?_,
    (Core.nVars_of_fixed hfixed : ρ.core.nVars = _),
    (congrArg Simp.eliminated hs.frame_eq : ρ.frame.eliminated = _),
    (congrArg Simp.elimclauses hs.frame_eq : ρ.frame.elimclauses = _), fun m => ?_⟩
  · rw [hokρ] at e
    cases e
  · exact Core.usable_unset.trans (and_congr_left fun _ => Core.usable_of_fixed hfixed w)
  · rw [Core.models_abs]
    change (∀ x ∈ ρ.core.refs, ∃ q ∈ ρ.core.ca x, q.Holds m) ∧ m.Meets ρ.core.trail ↔ _
    rw [hca, htrail]
    refine and_congr_left fun _ => ⟨fun hC x hx hnot => hC x ((hrefs x).mpr ⟨hx, hnot⟩),
      fun hC x hx => hC x ((hrefs x).mp hx).1 ((hrefs x).mp hx).2⟩

/-- A model of the rest and a value of the variable. -/
theorem sat_update_iff (hG : ∀ m : Model, m.Sat G ↔ σ.core.abs.Models m)
    {cls : List ℕ} (hcls : ∀ x, x ∈ cls ↔ x ∈ σ.core.refs ∧ ∃ q ∈ σ.core.ca x, q.var = v)
    (hv : ∀ q ∈ σ.core.trail, q.var ≠ v) {b : Bool} :
    Model.Sat (Function.update m v b) G ↔
      ((∀ x ∈ σ.core.refs, x ∉ cls → ∃ q ∈ σ.core.ca x, q.Holds m) ∧ m.Meets σ.core.trail) ∧
        ∀ x ∈ cls, ∃ q ∈ σ.core.ca x, q.Holds (Function.update m v b) := by
  have hout : ∀ x ∈ σ.core.refs, x ∉ cls →
      ((∃ q ∈ σ.core.ca x, q.Holds (Function.update m v b)) ↔ ∃ q ∈ σ.core.ca x, q.Holds m) := by
    intro x hx hnot
    refine exists_congr fun q => and_congr_right fun hq => holds_update fun e => ?_
    exact hnot ((hcls x).mpr ⟨hx, q, hq, e⟩)
  rw [hG, Core.models_abs]
  constructor
  · rintro ⟨hC, hT⟩
    exact ⟨⟨fun x hx hnot => (hout x hx hnot).mp (hC x hx),
      fun q hq => (holds_update (hv q hq)).mp (hT q hq)⟩, fun x hx => hC x ((hcls x).mp hx).1⟩
  · rintro ⟨⟨hC, hT⟩, hin⟩
    refine ⟨fun x hx => ?_, fun q hq => (holds_update (hv q hq)).mpr (hT q hq)⟩
    by_cases hmem : x ∈ cls
    · exact hin x hmem
    · exact (hout x hx hmem).mpr (hC x hx hmem)

/-- What `eliminateVar` returns. -/
structure Eliminates (lim : ℤ) (v : ℕ) (G : Cnf) (σ : Simp) (r : Bool × Simp) : Prop where
  ok : r.1 = true → r.2.core.ok = true
  kept : r.1 = true → Loaded lim G r.2 ∧ Unchanged σ r.2 ∨
    ∃ G', Loaded lim G' r.2 ∧ Projects v G σ G' r.2
  unsat : r.1 = false → ¬ Satisfiable G

/-- **A variable is eliminated**, or not if there are too many resolvents. -/
theorem Loaded.eliminateVar (h : Loaded lim G σ) (hok : σ.core.ok = true) (grow clauseLim : ℤ)
    (hund : σ.core.assigns v = .undef) :
    ∃ r, σ.eliminateVar grow clauseLim lim v = some r ∧ Eliminates lim v G σ r := by
  obtain ⟨-, -, hcore, hocc⟩ := (h.kept hok).work.lookup lim v
  have hl := h.lookup v
  have helim : (σ.lookup v).eliminated = σ.eliminated := by unfold Simp.lookup; split_ifs <;> rfl
  have hstack : (σ.lookup v).elimclauses = σ.elimclauses := by
    unfold Simp.lookup; split_ifs <;> rfl
  unfold Simp.eliminateVar
  dsimp only
  set σ₀ := σ.lookup v
  set cls := σ₀.occurs v
  set pos := cls.filter fun x => mkLit v false ∈ σ₀.core.ca x
  set neg := cls.filter fun x => mkLit v false ∉ σ₀.core.ca x
  have hok₀ : σ₀.core.ok = true := hcore.symm ▸ hok
  have hk₀ := hl.kept hok₀
  have hroot := hk₀.work.rooted
  have hG : ∀ m : Model, m.Sat G ↔ σ₀.core.abs.Models m := fun m =>
    (hl.idle.clean hok₀).models hroot.learnts_eq
  split_ifs with hex
  · refine ⟨_, rfl, fun _ => hok₀, fun _ => .inl ⟨hl, helim, hstack, fun w => ?_, ?_⟩,
      fun e => absurd e (by simp)⟩
    · rw [hcore]
    · rw [hcore]
  -- the clauses of the variable, and their signs
  have hcls : ∀ x, x ∈ cls ↔ x ∈ σ₀.core.refs ∧ ∃ q ∈ σ₀.core.ca x, q.var = v := fun x => by
    rw [hocc, hcore]
  have hshape : ∀ x ∈ cls, (σ₀.core.ca x).Pairwise fun p q => p.var ≠ q.var := fun x hx =>
    (hroot.base.shape x ((hcls x).mp hx).1).2
  have hsides : Sides v σ₀.core.ca cls pos neg :=
    sides_filter hshape fun x hx => ((hcls x).mp hx).2
  have hv : ∀ q ∈ σ₀.core.trail, q.var ≠ v := fun q hq => by
    rw [hcore] at hq
    exact (h.kept hok).work.rooted.base.assigns_undef.mp hund q hq
  -- they are removed
  set σ₁ : Simp :=
    { σ₀ with
      eliminated := Function.update σ₀.eliminated v true
      elimclauses := σ₀.elimclauses ++ σ₀.elimStack v pos neg }
  have hl₁ : Loaded lim G σ₁ := hl.push _ _
  have hdrop : Dropped lim v cls σ₁ ((cls.foldl Simp.removeClause σ₁).unsetDecision v) :=
    hl₁.drop hok₀ (hk₀.work.nodup v) hcls hv
  rw [foldl_removeClause_unset]
  set τ := (cls.foldl Simp.removeClause σ₁).unsetDecision v
  -- the resolvents are added
  have hlt : ∀ x ∈ cls, x < τ.core.size := fun x hx =>
    hdrop.size_eq.symm ▸ hk₀.work.occurs_lt v x hx
  have hca : τ.core.ca = σ₀.core.ca := hdrop.ca_eq
  have husable : ∀ x ∈ cls, ∀ q ∈ σ₀.core.ca x, q.var ≠ v → τ.core.Usable q.var :=
    fun x hx q hq hqv => (hdrop.usable _).mpr
      ⟨hroot.bounded.vars x ((hcls x).mp hx).1 q hq, hqv⟩
  have hmemp : ∀ e ∈ pos ×ˢ neg, e.1 ∈ cls ∧ e.2 ∈ cls := fun _ => hsides.mem_product
  have hadd : AddsResolvents lim (remaining τ.core) v σ₀.core.ca (pos ×ˢ neg) τ
      (τ.addResolvents v (pos ×ˢ neg)) := by
    refine addResolvents_spec hdrop.loaded hdrop.ok (fun e he => ?_) fun e he q hq hqv => ?_
    · rw [hca]
      exact ⟨⟨.refl _, hlt _ (hmemp e he).1⟩, .refl _, hlt _ (hmemp e he).2⟩
    · exact hq.elim (fun hq => husable _ (hmemp e he).1 q hq hqv)
        fun hq => husable _ (hmemp e he).2 q hq hqv
  -- a model of what is left, and a value that makes the clauses of the variable true
  have hrem : ∀ (m : Model) (b : Bool), Model.Sat (Function.update m v b) G ↔
      m.Sat (remaining τ.core) ∧
        ∀ x ∈ cls, ∃ q ∈ σ₀.core.ca x, q.Holds (Function.update m v b) := fun m b => by
    rw [sat_update_iff hG hcls hv, sat_remaining, hdrop.models]
  have hsome : ∀ m : Model, (∃ b, Model.Sat (Function.update m v b) G) →
      m.Sat (remaining τ.core) ∧
        ∀ e ∈ pos ×ˢ neg, Rest m v (σ₀.core.ca e.1) ∨ Rest m v (σ₀.core.ca e.2) := by
    rintro m ⟨b, hb⟩
    obtain ⟨hm, hc⟩ := (hrem m b).mp hb
    exact ⟨hm, hsides.rest hc⟩
  rcases hr : τ.addResolvents v (pos ×ˢ neg) with ⟨_ | _, υ⟩
  · rw [hr] at hadd
    refine ⟨_, rfl, fun e => absurd e (by simp), fun e => absurd e (by simp), ?_⟩
    rintro - ⟨m, hm⟩
    obtain ⟨hm₁, hall⟩ := hsome m ⟨m v, by rwa [Function.update_eq_self]⟩
    exact hadd.unsat rfl m hm₁ hall
  · rw [hr] at hadd
    obtain ⟨R, hR, hiff⟩ := hadd.loaded rfl
    have hokυ := hadd.ok rfl
    have hnot : ¬ υ.core.Usable v := fun hu =>
      ((hdrop.usable v).mp ((hadd.usable rfl v).mp hu)).2 rfl
    have hlυ : Loaded lim (remaining τ.core ++ R)
        { υ with occurs := Function.update υ.occurs v [] } :=
      ⟨hR.idle, fun hok => (hR.kept hok).clearOccurs hnot⟩
    obtain ⟨r, hcheck, htrue, hfalse⟩ := hlυ.check hokυ
    -- the stack gives the variable its value
    have hext : ∀ (m : Model) (β : PartialModel), m.Sat (remaining τ.core ++ R) →
        (∀ w, σ.core.Usable w → w ≠ v → β w = .ofBool (m w)) →
        ∃ b, extendModel (σ₀.elimclauses ++ σ₀.elimStack v pos neg) β =
          extendModel σ.elimclauses (Function.update β v (.ofBool b)) ∧
          Model.Sat (Function.update m v b) G := by
      intro m β hm hβ
      obtain ⟨hm₁, hmR⟩ := sat_append.mp hm
      obtain ⟨b, hb, hc⟩ := hsides.exists_extendModel (σ := σ₀) rfl (β := β)
        (fun x hx q hq hqv => hβ _ (hcore ▸ hroot.bounded.vars x ((hcls x).mp hx).1 q hq) hqv)
        ((hiff m).mp hmR)
      refine ⟨b, ?_, (hrem m b).mpr ⟨hm₁, hc⟩⟩
      rw [extendModel, List.foldr_append]
      exact congrArg₂ extendModel hstack hb
    have hmodels : ∀ m : Model, m.Sat (remaining τ.core ++ R) ↔
        ∃ b, Model.Sat (Function.update m v b) G := by
      refine fun m => ⟨fun hm => ?_, fun hb => ?_⟩
      · obtain ⟨b, -, hb⟩ := hext m (fun w => .ofBool (m w)) hm fun _ _ _ => rfl
        exact ⟨b, hb⟩
      · obtain ⟨hm₁, hall⟩ := hsome m hb
        exact sat_append.mpr ⟨hm₁, (hiff m).mpr hall⟩
    refine ⟨r, hcheck, fun e => (htrue e).ok, fun e => .inr ⟨_, (htrue e).loaded, ?_⟩, fun e => ?_⟩
    · have hf := (htrue e).frame_eq
      have hfixed : r.2.core.fixed = υ.core.fixed := congrArg Simp.core hf
      have hcls' : r.2.elimclauses = σ₀.elimclauses ++ σ₀.elimStack v pos neg :=
        (congrArg Simp.elimclauses hf : r.2.frame.elimclauses = _).trans
          (hadd.elimclauses_eq.trans hdrop.elimclauses_eq)
      refine ⟨?_, fun w => ?_, ?_, hmodels, hcls'.symm ▸ hext⟩
      · rw [← helim]
        exact (congrArg Simp.eliminated hf : r.2.frame.eliminated = _).trans
          (hadd.eliminated_eq.trans hdrop.eliminated_eq)
      · rw [Core.usable_of_fixed hfixed, hadd.usable rfl, hdrop.usable, ← hcore]
      · rw [← hcore]
        exact (Core.nVars_of_fixed hfixed).trans ((hadd.nVars_eq rfl).trans hdrop.nVars_eq)
    · rintro ⟨m, hm⟩
      exact hfalse e ⟨m, (hmodels m).mpr ⟨m v, by rwa [Function.update_eq_self]⟩⟩

end Simp

end Parsat.Minisat
