import Mathlib.Algebra.Group.Defs
import Mathlib.Data.Set.Lattice
import Mathlib.Data.List.Basic
import Mathlib.Data.List.Perm.Basic
import Mathlib.Tactic.Tauto

/-!
# Library — unit propagation

Unit propagation over clauses of literals of any type with an involutive negation.
`Derives C A p` says that the literal `p` follows from the literals `A` through the clauses `C`:
`p` is in `A`, or some clause has all its other literals false.  A set of literals is *refuted*
when its closure falsifies a clause or it holds a literal and its negation (`Refuted`).

* `refuted_closure_union`: propagating first and adding literals afterwards refutes exactly what
  adding them at once refutes.  This is the confluence that lets a search propagate one decision
  at a time.
* `not_refuted_of_model`: a refuted set of literals has no model.
* `Simplifies.refuted_iff`, `Simplifies.closure_eq`: simplifying clauses with literals that follow
  from them changes nothing.
* `saturate`: propagation as a loop over an explicit trail, with `saturate_conflict_iff` and
  `mem_saturate_iff` saying that it computes the closure.
-/

namespace UnitProp

variable {L : Type*} [InvolutiveNeg L]

/-! ### The closure -/

/-- `p` follows from `A` by unit propagation through `C`. -/
inductive Derives (C : List (List L)) (A : Set L) : L → Prop where
  | base {p : L} : p ∈ A → Derives C A p
  | unit {c : List L} {p : L} :
      c ∈ C → p ∈ c → (∀ q ∈ c, q ≠ p → Derives C A (-q)) → Derives C A p

/-- The literals that follow from `A`. -/
def Closure (C : List (List L)) (A : Set L) : Set L := {p | Derives C A p}

/-- The closure of `A` falsifies a clause. -/
def Conflict (C : List (List L)) (A : Set L) : Prop := ∃ c ∈ C, ∀ q ∈ c, Derives C A (-q)

/-- `A` holds no literal together with its negation. -/
def Consistent (A : Set L) : Prop := ∀ p ∈ A, -p ∉ A

/-- `A` is contradictory, at once or after propagation. -/
def Refuted (C : List (List L)) (A : Set L) : Prop := Conflict C A ∨ ¬ Consistent A

/-- `A` already holds every literal a clause makes unit. -/
def Closed (C : List (List L)) (A : Set L) : Prop :=
  ∀ c ∈ C, ∀ p ∈ c, (∀ q ∈ c, q ≠ p → -q ∈ A) → p ∈ A

variable {C C' : List (List L)} {A B : Set L} {p : L}

theorem Derives.mono (hAB : A ⊆ B) (h : Derives C A p) : Derives C B p := by
  induction h with
  | base h => exact .base (hAB h)
  | unit hc hp _ ih => exact .unit hc hp ih

theorem subset_closure : A ⊆ Closure C A := fun _ h => .base h

/-- What follows from literals that themselves follow from `B`, follows from `B`. -/
theorem Derives.cut (h : Derives C A p) (hA : A ⊆ Closure C B) : Derives C B p := by
  induction h with
  | base h => exact hA h
  | unit hc hp _ ih => exact .unit hc hp ih

theorem closure_union_subset : Closure C A ∪ B ⊆ Closure C (A ∪ B) := by
  rintro q (h | h)
  · exact Derives.mono Set.subset_union_left h
  · exact .base (Or.inr h)

theorem derives_closure_union : Derives C (Closure C A ∪ B) p ↔ Derives C (A ∪ B) p :=
  ⟨fun h => h.cut closure_union_subset,
    fun h => h.mono (Set.union_subset_union_left _ subset_closure)⟩

theorem Closed.derives_iff (hA : Closed C A) : Derives C A p ↔ p ∈ A := by
  refine ⟨?_, .base⟩
  intro h
  induction h with
  | base h => exact h
  | unit hc hp _ ih => exact hA _ hc _ hp ih

theorem Closed.closure_eq (hA : Closed C A) : Closure C A = A := by
  ext q
  exact hA.derives_iff

/-- A literal and its negation both follow only from literals that are refuted. -/
theorem refuted_of_derives (h₁ : Derives C A p) (h₂ : Derives C A (-p)) : Refuted C A := by
  -- the last clause used on either side is falsified by the other side
  have clash : ∀ {r : L}, Derives C A r → Derives C A (-r) → r ∉ A → Refuted C A := by
    intro r hr hr' hn
    cases hr with
    | base h => exact absurd h hn
    | unit hc _ h =>
        refine .inl ⟨_, hc, ?_⟩
        intro q hq
        by_cases e : q = r
        · exact e ▸ hr'
        · exact h q hq e
  by_cases hp : p ∈ A
  · by_cases hp' : -p ∈ A
    · exact .inr fun hc => hc p hp hp'
    · exact clash h₂ (by rwa [neg_neg]) hp'
  · exact clash h₁ h₂ hp

theorem Conflict.mono (hAB : A ⊆ B) : Conflict C A → Conflict C B := by
  rintro ⟨c, hc, h⟩
  exact ⟨c, hc, fun q hq => (h q hq).mono hAB⟩

theorem Conflict.cut (h : Conflict C A) (hA : A ⊆ Closure C B) : Conflict C B := by
  obtain ⟨c, hc, hq⟩ := h
  exact ⟨c, hc, fun q hqc => (hq q hqc).cut hA⟩

theorem Refuted.mono (hAB : A ⊆ B) : Refuted C A → Refuted C B := by
  rintro (h | h)
  · exact .inl (h.mono hAB)
  · exact .inr fun hB => h fun q hq hq' => hB q (hAB hq) (hAB hq')

/-- **Confluence.**  Closing `A` before `B` is added changes nothing about refutation. -/
theorem refuted_closure_union : Refuted C (Closure C A ∪ B) ↔ Refuted C (A ∪ B) := by
  refine ⟨?_, Refuted.mono (Set.union_subset_union_left _ subset_closure)⟩
  rintro (⟨c, hc, h⟩ | h)
  · exact .inl ⟨c, hc, fun q hq => derives_closure_union.mp (h q hq)⟩
  · simp only [Consistent, not_forall, not_not] at h
    obtain ⟨q, hq, hq'⟩ := h
    exact refuted_of_derives (closure_union_subset hq) (closure_union_subset hq')

theorem Closed.conflict_iff (hA : Closed C A) : Conflict C A ↔ ∃ c ∈ C, ∀ q ∈ c, -q ∈ A := by
  simp only [Conflict, hA.derives_iff]

/-! ### Clauses up to the order of their literals -/

/-- The same clauses in the same order, each up to the order of its literals. -/
def SameClauses (C C' : List (List L)) : Prop := List.Forall₂ List.Perm C C'

omit [InvolutiveNeg L] in
theorem SameClauses.refl (C : List (List L)) : SameClauses C C :=
  List.forall₂_same.mpr fun c _ => List.Perm.refl c

omit [InvolutiveNeg L] in
theorem SameClauses.symm (h : SameClauses C C') : SameClauses C' C :=
  List.Forall₂.flip (h.imp fun _ _ h => h.symm)

omit [InvolutiveNeg L] in
theorem SameClauses.trans {C'' : List (List L)} (h : SameClauses C C')
    (h' : SameClauses C' C'') : SameClauses C C'' := by
  induction h generalizing C'' with
  | nil => cases h'; exact .nil
  | cons hc _ ih => cases h' with | cons hc' h' => exact .cons (hc.trans hc') (ih h')

omit [InvolutiveNeg L] in
theorem SameClauses.exists_perm (h : SameClauses C C') {c : List L} (hc : c ∈ C) :
    ∃ c' ∈ C', c.Perm c' := by
  induction h with
  | nil => cases hc
  | @cons a b _ _ hab _ ih =>
      rcases List.mem_cons.mp hc with rfl | hc
      · exact ⟨b, List.mem_cons_self, hab⟩
      · obtain ⟨c', hc', hp⟩ := ih hc
        exact ⟨c', List.mem_cons_of_mem _ hc', hp⟩

theorem Derives.congr (h : SameClauses C C') (hp : Derives C A p) : Derives C' A p := by
  induction hp with
  | base h => exact .base h
  | @unit c q hc hq _ ih =>
      obtain ⟨c', hc', e⟩ := h.exists_perm hc
      exact .unit hc' (e.mem_iff.mp hq) fun r hr => ih r (e.mem_iff.mpr hr)

theorem Conflict.congr (h : SameClauses C C') : Conflict C A → Conflict C' A := by
  rintro ⟨c, hc, hd⟩
  obtain ⟨c', hc', e⟩ := h.exists_perm hc
  exact ⟨c', hc', fun q hq => (hd q (e.mem_iff.mpr hq)).congr h⟩

theorem SameClauses.conflict_iff (h : SameClauses C C') : Conflict C A ↔ Conflict C' A :=
  ⟨Conflict.congr h, Conflict.congr h.symm⟩

theorem SameClauses.refuted_iff (h : SameClauses C C') : Refuted C A ↔ Refuted C' A :=
  or_congr h.conflict_iff Iff.rfl

theorem SameClauses.closure_eq (h : SameClauses C C') : Closure C A = Closure C' A :=
  Set.ext fun _ => ⟨Derives.congr h, Derives.congr h.symm⟩

theorem SameClauses.closed (h : SameClauses C C') (hA : Closed C A) : Closed C' A := by
  intro c' hc' q hq hu
  obtain ⟨c, hc, e⟩ := h.symm.exists_perm hc'
  exact hA c hc q (e.mem_iff.mp hq) fun r hr => hu r (e.mem_iff.mpr hr)

/-! ### Models -/

/-- A valuation of the literals that respects negation. -/
def Valuation (v : L → Prop) : Prop := ∀ p, v (-p) ↔ ¬ v p

/-- Every clause has a literal true under `v`. -/
def Satisfies (v : L → Prop) (C : List (List L)) : Prop := ∀ c ∈ C, ∃ p ∈ c, v p

omit [InvolutiveNeg L] in
theorem SameClauses.satisfies {v : L → Prop} (h : SameClauses C C') (hC : Satisfies v C) :
    Satisfies v C' := by
  intro c' hc'
  obtain ⟨c, hc, e⟩ := h.symm.exists_perm hc'
  obtain ⟨p, hp, hv⟩ := hC c hc
  exact ⟨p, e.mem_iff.mpr hp, hv⟩

theorem Derives.sound {v : L → Prop} (hv : Valuation v) (hC : Satisfies v C)
    (hA : ∀ q ∈ A, v q) (h : Derives C A p) : v p := by
  induction h with
  | base h => exact hA _ h
  | @unit c q hc _ _ ih =>
      obtain ⟨r, hr, hvr⟩ := hC c hc
      by_cases e : r = q
      · exact e ▸ hvr
      · exact absurd hvr ((hv r).mp (ih r hr e))

/-- **Propagation is sound**: literals with a model of the clauses are not refuted. -/
theorem not_refuted_of_model {v : L → Prop} (hv : Valuation v) (hC : Satisfies v C)
    (hA : ∀ q ∈ A, v q) : ¬ Refuted C A := by
  rintro (⟨c, hc, h⟩ | h)
  · obtain ⟨r, hr, hvr⟩ := hC c hc
    exact (hv r).mp ((h r hr).sound hv hC hA) hvr
  · exact h fun q hq hq' => (hv q).mp (hA _ hq') (hA q hq)

/-- Under every literal that occurs, propagation is evaluation: literals are refuted exactly when
the valuation that makes them true falsifies a clause. -/
theorem refuted_iff_not_satisfies {v : L → Prop} (hv : Valuation v) (hA : ∀ q ∈ A, v q)
    (hall : ∀ c ∈ C, ∀ q ∈ c, ¬ v q → -q ∈ A) : Refuted C A ↔ ¬ Satisfies v C := by
  refine ⟨fun hr hC => not_refuted_of_model hv hC hA hr, fun hC => ?_⟩
  simp only [Satisfies, not_forall, not_exists, not_and] at hC
  obtain ⟨c, hc, hfalse⟩ := hC
  exact .inl ⟨c, hc, fun q hq => .base (hall c hc q hq (hfalse q hq))⟩

/-! ### Simplified clauses -/

variable {D : List (List L)} {T T' : Set L}

theorem Derives.mono_clauses (hCD : C ⊆ D) (h : Derives C A p) : Derives D A p := by
  induction h with
  | base h => exact .base h
  | unit hc hp _ ih => exact .unit (hCD hc) hp ih

theorem Refuted.mono_clauses (hCD : C ⊆ D) : Refuted C A → Refuted D A :=
  Or.imp_left fun ⟨c, hc, h⟩ => ⟨c, hCD hc, fun q hq => (h q hq).mono_clauses hCD⟩

/-- `C'` is what the literals `T` make of `C`, where these follow from `C`: a clause is gone with a
literal of `T` or two opposite ones, or it is there without some literals that are false under
`T`. -/
structure Simplifies (C : List (List L)) (T : Set L) (C' : List (List L)) : Prop where
  derives : ∀ p ∈ T, Derives C ∅ p
  sound : ∀ c ∈ C', ∃ d ∈ C, c ⊆ d ∧ ∀ q ∈ d, q ∈ c ∨ -q ∈ T
  covered : ∀ d ∈ C, (∃ q ∈ d, q ∈ T) ∨ (∃ q ∈ d, -q ∈ d ∧ -q ≠ q) ∨
    ∃ c ∈ C', c ⊆ d ∧ ∀ q ∈ d, q ∈ c ∨ -q ∈ T

/-- What follows from the simplified clauses follows from the clauses. -/
theorem Simplifies.derives_of (h : Simplifies C T C') (hp : Derives C' (T ∪ A) p) :
    Derives C A p := by
  induction hp with
  | base hp =>
      rcases hp with hp | hp
      · exact (h.derives _ hp).mono (Set.empty_subset A)
      · exact .base hp
  | unit hc hp _ ih =>
      obtain ⟨d, hd, hcd, hrest⟩ := h.sound _ hc
      refine .unit hd (hcd hp) fun q hq hne => ?_
      rcases hrest q hq with hq | hq
      · exact ih q hq hne
      · exact (h.derives _ hq).mono (Set.empty_subset A)

/-- The other way round, if nothing is refuted. -/
theorem Simplifies.derives_or (h : Simplifies C T C') (hp : Derives C A p) :
    Derives C' (T ∪ A) p ∨ Refuted C' (T ∪ A) := by
  by_cases hr : Refuted C' (T ∪ A)
  · exact .inr hr
  refine .inl ?_
  induction hp with
  | base hp => exact .base (.inr hp)
  | @unit d p hd hp _ ih =>
      -- a literal of the clause that is true is `p`
      have honly : ∀ q ∈ d, Derives C' (T ∪ A) q → Derives C' (T ∪ A) p := by
        intro q hq hder
        by_cases e : q = p
        · exact e ▸ hder
        · exact absurd (refuted_of_derives hder (ih q hq e)) hr
      rcases h.covered d hd with ⟨q, hq, hT⟩ | ⟨q, hq, hq', hne⟩ | ⟨c, hc, hcd, -⟩
      · exact honly q hq (.base (.inl hT))
      · by_cases e : q = p
        · have := ih (-q) hq' (e ▸ hne)
          rwa [neg_neg, e] at this
        · exact honly (-q) hq' (ih q hq e)
      · by_cases hpc : p ∈ c
        · exact .unit hc hpc fun q hq hne => ih q (hcd hq) hne
        · -- then all literals of `c` are false
          refine absurd (.inl ⟨c, hc, fun q hq => ih q (hcd hq) ?_⟩) hr
          rintro rfl
          exact hpc hq

/-- **Simplification** refutes and derives the same. -/
theorem Simplifies.refuted_iff (h : Simplifies C T C') : Refuted C A ↔ Refuted C' (T ∪ A) := by
  constructor
  · rintro (⟨d, hd, hq⟩ | hc)
    · by_contra hr
      have hall : ∀ q ∈ d, Derives C' (T ∪ A) (-q) := fun q hqd =>
        (h.derives_or (hq q hqd)).resolve_right hr
      refine hr ?_
      -- whatever has become of the false clause, what is left of it is refuted
      rcases h.covered d hd with ⟨q, hqd, hT⟩ | ⟨q, hqd, hqd', -⟩ | ⟨c, hc, hcd, -⟩
      · exact refuted_of_derives (.base (.inl hT)) (hall q hqd)
      · exact refuted_of_derives (hall q hqd) (hall (-q) hqd')
      · exact .inl ⟨c, hc, fun q hqc => hall q (hcd hqc)⟩
    · exact .inr fun hT => hc fun p hp hp' => hT p (.inr hp) (.inr hp')
  · rintro (⟨c, hc, hq⟩ | hT)
    · obtain ⟨d, hd, -, hrest⟩ := h.sound c hc
      refine .inl ⟨d, hd, fun q hqd => ?_⟩
      rcases hrest q hqd with hqc | hqT
      · exact h.derives_of (hq q hqc)
      · exact h.derives_of (.base (.inl hqT))
    · simp only [Consistent, not_forall, not_not] at hT
      obtain ⟨p, hp, hp'⟩ := hT
      exact refuted_of_derives (h.derives_of (.base hp)) (h.derives_of (.base hp'))

theorem Simplifies.closure_eq (h : Simplifies C T C') (hr : ¬ Refuted C A) :
    Closure C A = Closure C' (T ∪ A) :=
  Set.ext fun _ => ⟨fun hp => (h.derives_or hp).resolve_right fun hr' => hr (h.refuted_iff.mpr hr'),
    h.derives_of⟩

/-- No clauses are simplified by nothing. -/
theorem Simplifies.nil : Simplifies ([] : List (List L)) ∅ [] :=
  ⟨fun _ hp => hp.elim, fun _ hc => (List.not_mem_nil hc).elim,
    fun _ hd => (List.not_mem_nil hd).elim⟩

/-- More literals, and the clauses in another order. -/
theorem Simplifies.grow (h : Simplifies C T C') {C'' : List (List L)} (hC : SameClauses C' C'')
    (hT : T ⊆ T') (hd : ∀ p ∈ T', Derives C ∅ p) : Simplifies C T' C'' where
  derives := hd
  sound c hc := by
    obtain ⟨c', hc', e⟩ := hC.symm.exists_perm hc
    obtain ⟨d, hd, hcd, hrest⟩ := h.sound c' hc'
    exact ⟨d, hd, fun q hq => hcd (e.mem_iff.mp hq),
      fun q hq => (hrest q hq).imp e.mem_iff.mpr (hT ·)⟩
  covered d hd := by
    refine (h.covered d hd).imp (fun ⟨q, hq, hqT⟩ => ⟨q, hq, hT hqT⟩) (Or.imp_right ?_)
    rintro ⟨c, hc, hcd, hrest⟩
    obtain ⟨c', hc', e⟩ := hC.exists_perm hc
    exact ⟨c', hc', fun q hq => hcd (e.mem_iff.mpr hq),
      fun q hq => (hrest q hq).imp e.mem_iff.mp (hT ·)⟩

/-- One more clause, with the literals that follow from it: it is gone or simplified to `E`. -/
theorem Simplifies.append (h : Simplifies C T C') {d : List L} {E : List (List L)} (hT : T ⊆ T')
    (hT' : ∀ p ∈ T', Derives (C ++ [d]) ∅ p) (hE : ∀ c ∈ E, c ⊆ d ∧ ∀ q ∈ d, q ∈ c ∨ -q ∈ T')
    (hd : (∃ q ∈ d, q ∈ T') ∨ (∃ q ∈ d, -q ∈ d ∧ -q ≠ q) ∨ E ≠ []) :
    Simplifies (C ++ [d]) T' (C' ++ E) where
  derives := hT'
  sound c hc := by
    rcases List.mem_append.mp hc with hc | hc
    · obtain ⟨d', hd', hcd, hrest⟩ := h.sound c hc
      exact ⟨d', List.mem_append_left _ hd', hcd, fun q hq => (hrest q hq).imp_right (hT ·)⟩
    · exact ⟨d, List.mem_append_right _ (List.mem_singleton_self d), hE c hc⟩
  covered d' hd' := by
    rcases List.mem_append.mp hd' with hd' | hd'
    · refine (h.covered d' hd').imp (fun ⟨q, hq, hqT⟩ => ⟨q, hq, hT hqT⟩) (Or.imp_right ?_)
      rintro ⟨c, hc, hcd, hrest⟩
      exact ⟨c, List.mem_append_left _ hc, hcd, fun q hq => (hrest q hq).imp_right (hT ·)⟩
    · obtain rfl := List.mem_singleton.mp hd'
      refine hd.imp_right (Or.imp_right fun hne => ?_)
      obtain ⟨c, hc⟩ := List.exists_mem_of_ne_nil E hne
      exact ⟨c, List.mem_append_right _ hc, hE c hc⟩

/-! ### Propagation as a loop -/

section Saturate

variable [DecidableEq L]

/-- Some clause has only literals whose negation is on the trail. -/
def falsified (C : List (List L)) (T : List L) : Bool := C.any fun c => c.all fun q => -q ∈ T

/-- A literal some clause makes unit and that is not yet on the trail. -/
def pick (C : List (List L)) (T : List L) : Option L :=
  C.findSome? fun c => c.find? fun p => p ∉ T ∧ ∀ q ∈ c, q ≠ p → -q ∈ T

/-- Extend the trail by unit literals until a clause is falsified or nothing is unit. -/
def saturate (C : List (List L)) : ℕ → List L → Bool × List L
  | 0, T => (falsified C T, T)
  | n + 1, T =>
    if falsified C T then (true, T)
    else match pick C T with
      | none => (false, T)
      | some p => saturate C n (T ++ [p])

/-- The literals of `C` that are not on the trail. -/
def pending (C : List (List L)) (T : List L) : List L := C.flatten.filter (· ∉ T)

variable {T : List L} {n : ℕ}

theorem falsified_iff : falsified C T = true ↔ ∃ c ∈ C, ∀ q ∈ c, -q ∈ T := by
  simp [falsified]

omit [InvolutiveNeg L] in
theorem pending_append_lt (hp : p ∈ C.flatten) (hT : p ∉ T) :
    (pending C (T ++ [p])).length < (pending C T).length := by
  have hsub : (pending C (T ++ [p])).Sublist (pending C T) :=
    List.monotone_filter_right _ fun q hq => by
      simp only [List.mem_append, decide_eq_true_eq, not_or] at hq ⊢
      exact hq.1
  refine lt_of_le_of_ne hsub.length_le ?_
  intro h
  have hm : p ∈ pending C T := by simp only [pending, List.mem_filter]; simp [hp, hT]
  rw [← hsub.eq_of_length h, pending, List.mem_filter] at hm
  simp at hm

omit [InvolutiveNeg L] [DecidableEq L] in
theorem SameClauses.flatten_perm (h : SameClauses C C') : C.flatten.Perm C'.flatten := by
  induction h with
  | nil => exact .nil
  | cons hc _ ih => exact hc.append ih

omit [InvolutiveNeg L] in
theorem SameClauses.length_pending (h : SameClauses C C') (T : List L) :
    (pending C T).length = (pending C' T).length := (h.flatten_perm.filter _).length_eq

theorem pick_eq_some (h : pick C T = some p) :
    p ∉ T ∧ ∃ c ∈ C, p ∈ c ∧ ∀ q ∈ c, q ≠ p → -q ∈ T := by
  obtain ⟨c, hc, hf⟩ := List.exists_of_findSome?_eq_some h
  have hp := List.find?_some hf
  simp only [decide_eq_true_eq] at hp
  exact ⟨hp.1, c, hc, List.mem_of_find?_eq_some hf, hp.2⟩

theorem closed_of_pick_eq_none (h : pick C T = none) : Closed C {q | q ∈ T} := by
  intro c hc q hq hu
  by_contra hn
  have h' := List.find?_eq_none.mp (List.findSome?_eq_none_iff.mp h c hc) q hq
  simp only [decide_eq_true_eq, not_and] at h'
  exact h' hn hu

/-- What `saturate` returns: an extension of the trail by derived literals that either falsifies a
clause or is closed, and that repeats no variable if the trail did not. -/
theorem saturate_spec (hn : (pending C T).length ≤ n) :
    (∃ ext, (saturate C n T).2 = T ++ ext) ∧
    (∀ q ∈ (saturate C n T).2, Derives C {q | q ∈ T} q) ∧
    ((saturate C n T).1 = true ↔ ∃ c ∈ C, ∀ q ∈ c, -q ∈ (saturate C n T).2) ∧
    ((saturate C n T).1 = false → Closed C {q | q ∈ (saturate C n T).2}) ∧
    (T.Pairwise (fun p q => q ≠ p ∧ q ≠ -p) →
      (saturate C n T).2.Pairwise (fun p q => q ≠ p ∧ q ≠ -p)) := by
  -- each literal put on the trail makes the pending ones fewer
  induction n generalizing T with
  | zero =>
      -- nothing is pending, so nothing can be picked
      have hnone : pick C T = none := by
        by_contra h
        obtain ⟨q, hq⟩ := Option.ne_none_iff_exists'.mp h
        obtain ⟨hT, c, hc, hqc, -⟩ := pick_eq_some hq
        have := pending_append_lt (List.mem_flatten.mpr ⟨c, hc, hqc⟩) hT
        omega
      exact ⟨⟨[], by simp [saturate]⟩, fun q hq => .base hq, falsified_iff,
        fun _ => closed_of_pick_eq_none hnone, id⟩
  | succ n ih =>
      by_cases hf : falsified C T = true
      · simp only [saturate, hf, if_true]
        exact ⟨⟨[], by simp⟩, fun q hq => .base hq, by simpa using falsified_iff.mp hf,
          by simp, id⟩
      · cases hk : pick C T with
        | none =>
            simp only [saturate, hf, hk]
            exact ⟨⟨[], by simp⟩, fun q hq => .base hq, by simpa using mt falsified_iff.mpr hf,
              fun _ => closed_of_pick_eq_none hk, id⟩
        | some r =>
            obtain ⟨hT, c, hc, hrc, hu⟩ := pick_eq_some hk
            have hlt := pending_append_lt (List.mem_flatten.mpr ⟨c, hc, hrc⟩) hT
            obtain ⟨⟨ext, he⟩, hd, hcf, hcl, hpw⟩ := ih (T := T ++ [r]) (by omega)
            simp only [saturate, hf, hk]
            refine ⟨⟨r :: ext, by simpa using he⟩, fun q hq => (hd q hq).cut ?_, hcf, hcl,
              fun h => hpw (List.pairwise_append.mpr ⟨h, List.pairwise_singleton _ _, ?_⟩)⟩
            · intro s hs
              rcases List.mem_append.mp hs with hs | hs
              · exact .base hs
              · rw [List.mem_singleton.mp hs]
                exact .unit hc hrc fun q hq e => .base (hu q hq e)
            · -- a unit literal whose negation is on the trail would falsify its clause
              intro a ha b hb
              rw [List.mem_singleton.mp hb]
              refine ⟨fun e => hT (e ▸ ha), fun e => hf (falsified_iff.mpr ⟨c, hc, ?_⟩)⟩
              intro q hq
              by_cases eq : q = r
              · rw [eq, e, neg_neg]; exact ha
              · exact hu q hq eq

/-- `saturate` reports a conflict exactly when the closure of the trail falsifies a clause. -/
theorem saturate_conflict_iff (hn : (pending C T).length ≤ n) :
    (saturate C n T).1 = true ↔ Conflict C {q | q ∈ T} := by
  obtain ⟨⟨ext, he⟩, hd, hcf, hcl, -⟩ := saturate_spec hn
  constructor
  · intro h
    obtain ⟨c, hc, hq⟩ := hcf.mp h
    exact ⟨c, hc, fun q hq' => hd _ (hq q hq')⟩
  · intro h
    by_contra hne
    obtain ⟨c, hc, hq⟩ := h
    have hclosed := hcl (by simpa using hne)
    refine hne (hcf.mpr ⟨c, hc, ?_⟩)
    intro q hq'
    refine hclosed.derives_iff.mp ((hq q hq').mono ?_)
    intro s hs
    simpa [he] using Or.inl hs

/-- Without a conflict `saturate` extends the trail to the closure. -/
theorem mem_saturate_iff (hn : (pending C T).length ≤ n) (h : (saturate C n T).1 = false) :
    p ∈ (saturate C n T).2 ↔ Derives C {q | q ∈ T} p := by
  obtain ⟨⟨ext, he⟩, hd, -, hcl, -⟩ := saturate_spec hn
  refine ⟨hd p, fun hp => (hcl h).derives_iff.mp (hp.mono ?_)⟩
  intro s hs
  simpa [he] using Or.inl hs

end Saturate

end UnitProp
