import Mathlib.Algebra.GroupWithZero.Nat
import Mathlib.Data.List.Basic

/-!
# Library — machines and their runs

A machine is a partial step function `step : σ → α → Option σ`: the action says what happens next
and who does it, and a step the state does not allow is `none`.  A run is a list of actions, so a
claim about every schedule is a claim about every list `exec` accepts.

* `exec_invariant`: what every step preserves, every run preserves.
* `exec_invariant_throughout`: the same for runs whose steps all meet a side condition.
* `throughout_of_invariant`: a side condition that an invariant gives.
* `throughout_of_prefixes`: a side condition that the states of a run give.
* `throughout_iff_not`: a side condition whose violations the last state shows.
* `exec_concat`, `Throughout.concat`: the last step of a run, and the side condition on it.
* `exec_length_le`: a measure that every step decreases bounds the length of every run.
* `not_infinite`: the same for a well-founded relation, where the runs have no common bound.
* `exists_split`: the state of one party in a list of parties, to say what a step changes there.
* `sum_map_set`, `flatMap_set_perm`: what all parties have together, when one of them changes.
-/

namespace Machine

variable {σ α : Type*} (step : σ → α → Option σ)

/-- The state after a list of actions. -/
def exec : σ → List α → Option σ
  | s, [] => some s
  | s, a :: as => (step s a).bind fun t => exec t as

/-- Every step of the run from `s` meets `C`, a condition on the state before it and the action. -/
def Throughout (C : σ → α → Prop) : σ → List α → Prop
  | _, [] => True
  | s, a :: as => C s a ∧ match step s a with
    | none => True
    | some t => Throughout C t as

instance decidableThroughout (C : σ → α → Prop) [∀ s a, Decidable (C s a)] :
    (s : σ) → (as : List α) → Decidable (Throughout step C s as)
  | _, [] => .isTrue trivial
  | s, a :: as =>
    letI : Decidable (match step s a with
        | none => True
        | some t => Throughout step C t as) :=
      match step s a with
      | none => .isTrue trivial
      | some t => decidableThroughout C t as
    inferInstanceAs (Decidable (_ ∧ _))

variable {step} {s t : σ} {a : α} {as bs : List α} {C D : σ → α → Prop} {I : σ → Prop}

theorem exec_cons (h : exec step s (a :: as) = some t) :
    ∃ u, step s a = some u ∧ exec step u as = some t :=
  Option.bind_eq_some_iff.mp h

theorem exec_append (s : σ) (as bs : List α) :
    exec step s (as ++ bs) = (exec step s as).bind fun t => exec step t bs := by
  induction as generalizing s with
  | nil => rfl
  | cons a as ih =>
      simp only [List.cons_append, exec]
      cases step s a with
      | none => rfl
      | some u => exact ih u

/-- The last step of a run. -/
theorem exec_concat :
    exec step s (as ++ [a]) = some t ↔ ∃ u, exec step s as = some u ∧ step u a = some t := by
  rw [exec_append, Option.bind_eq_some_iff]
  simp only [exec, Option.bind_fun_some]

theorem throughout_of_forall (h : ∀ a ∈ as, ∀ s, C s a) : Throughout step C s as := by
  induction as generalizing s with
  | nil => trivial
  | cons a as ih =>
      obtain ⟨ha, has⟩ := List.forall_mem_cons.mp h
      refine ⟨ha s, ?_⟩
      cases step s a with
      | none => trivial
      | some t => exact ih has

theorem Throughout.and (hC : Throughout step C s as) (hD : Throughout step D s as) :
    Throughout step (fun s a => C s a ∧ D s a) s as := by
  induction as generalizing s with
  | nil => trivial
  | cons a as ih =>
      refine ⟨⟨hC.1, hD.1⟩, ?_⟩
      replace hC := hC.2
      replace hD := hD.2
      cases h : step s a with
      | none => trivial
      | some t =>
          rw [h] at hC hD
          exact ih hC hD

/-- **Invariants.** -/
theorem exec_invariant (hI : ∀ s a t, I s → step s a = some t → I t) (hs : I s)
    (h : exec step s as = some t) : I t := by
  induction as generalizing s with
  | nil => exact Option.some.inj h ▸ hs
  | cons a as ih =>
      obtain ⟨u, hu, h⟩ := exec_cons h
      exact ih (hI s a u hs hu) h

/-- **Invariants of the runs that meet a condition.** -/
theorem exec_invariant_throughout (hI : ∀ s a t, I s → C s a → step s a = some t → I t)
    (hs : I s) (hC : Throughout step C s as) (h : exec step s as = some t) : I t := by
  induction as generalizing s with
  | nil => exact Option.some.inj h ▸ hs
  | cons a as ih =>
      obtain ⟨u, hu, h⟩ := exec_cons h
      obtain ⟨hC, hrest⟩ := hC
      rw [hu] at hrest
      exact ih (hI s a u hs hC hu) hrest h

/-- A condition that follows from an invariant holds throughout a run that keeps it. -/
theorem throughout_of_invariant (hI : ∀ s a t, I s → D s a → step s a = some t → I t)
    (hC : ∀ s a, I s → D s a → C s a) (hs : I s) (hD : Throughout step D s as) :
    Throughout step C s as := by
  induction as generalizing s with
  | nil => trivial
  | cons a as ih =>
      obtain ⟨hd, hrest⟩ := hD
      refine ⟨hC s a hs hd, ?_⟩
      cases h : step s a with
      | none => trivial
      | some t =>
          rw [h] at hrest
          exact ih (hI s a t hs hd h) hrest

/-- A condition holds throughout a run if it holds wherever the run passes. -/
theorem throughout_of_prefixes
    (h : ∀ bs u, exec step s bs = some u → ∀ a, bs ++ [a] <+: as → C u a) :
    Throughout step C s as := by
  induction as generalizing s with
  | nil => trivial
  | cons a as ih =>
      refine ⟨h [] s rfl a ⟨as, rfl⟩, ?_⟩
      cases hu : step s a with
      | none => trivial
      | some u =>
          refine ih fun bs v hv b hb => h (a :: bs) v ?_ b ?_
          · rw [exec, hu, Option.bind_some, hv]
          · exact List.cons_prefix_cons.mpr ⟨rfl, hb⟩

/-- A condition whose violations leave a mark for good. -/
theorem throughout_iff_not {L : σ → Prop}
    (hL : ∀ s a t, step s a = some t → (L t ↔ L s ∨ ¬ C s a)) (hs : ¬ L s)
    (h : exec step s as = some t) : Throughout step C s as ↔ ¬ L t := by
  have hmark : L t ↔ L s ∨ ¬ Throughout step C s as := by
    clear hs
    induction as generalizing s with
    | nil => simp [Throughout, Option.some.inj h]
    | cons a as ih =>
        obtain ⟨u, hu, h⟩ := exec_cons h
        rw [ih h, hL s a u hu, Throughout, hu, not_and_or, or_assoc]
  rw [hmark, or_iff_right hs, not_not]

/-- What holds throughout a run holds throughout its beginnings. -/
theorem Throughout.of_prefix (h : Throughout step C s as) (hb : bs <+: as) :
    Throughout step C s bs := by
  induction bs generalizing s as with
  | nil => trivial
  | cons b bs ih =>
      obtain ⟨cs, rfl⟩ := hb
      refine ⟨h.1, ?_⟩
      have hrest := h.2
      cases hu : step s b with
      | none => trivial
      | some u =>
          rw [hu] at hrest
          exact ih hrest ⟨cs, rfl⟩

/-- The condition on the last step of a run. -/
theorem Throughout.concat (h : Throughout step C s (as ++ [a])) (ht : exec step s as = some t) :
    C t a := by
  induction as generalizing s with
  | nil => exact Option.some.inj ht ▸ h.1
  | cons b bs ih =>
      obtain ⟨u, hu, ht⟩ := exec_cons ht
      have hrest := h.2
      simp only [hu] at hrest
      exact ih hrest ht

/-- The beginnings of a run are runs. -/
theorem exec_of_prefix (h : exec step s as = some t) (hb : bs <+: as) :
    ∃ u, exec step s bs = some u := by
  obtain ⟨cs, rfl⟩ := hb
  rw [exec_append] at h
  obtain ⟨u, hu, -⟩ := Option.bind_eq_some_iff.mp h
  exact ⟨u, hu⟩

/-- A measure that decreases with every step bounds the runs. -/
theorem exec_length_le {μ : σ → ℕ} (hI : ∀ s a t, I s → step s a = some t → I t)
    (hμ : ∀ s a t, I s → step s a = some t → μ t < μ s) (hs : I s)
    (h : exec step s as = some t) : as.length + μ t ≤ μ s := by
  induction as generalizing s with
  | nil => simp [Option.some.inj h]
  | cons a as ih =>
      obtain ⟨u, hu, h⟩ := exec_cons h
      have h₁ := hμ s a u hs hu
      have h₂ := ih (hI s a u hs hu) h
      simp only [List.length_cons]
      omega

/-- Where every step goes down in a well-founded relation, no run is infinite. -/
theorem not_infinite {β : Type*} {r : β → β → Prop} (hr : WellFounded r) (μ : σ → β)
    (hI : ∀ s a t, I s → C s a → step s a = some t → I t)
    (hμ : ∀ s a t, I s → C s a → step s a = some t → r (μ t) (μ s))
    {s : ℕ → σ} {a : ℕ → α} (hs : I (s 0)) :
    ¬ ∀ n, C (s n) (a n) ∧ step (s n) (a n) = some (s (n + 1)) := by
  intro h
  have hinv : ∀ n, I (s n) := by
    intro n
    induction n with
    | zero => exact hs
    | succ n ih => exact hI _ _ _ ih (h n).1 (h n).2
  have hall : ∀ b n, μ (s n) ≠ b := by
    intro b
    induction b using hr.induction with
    | _ b ih =>
      rintro n rfl
      exact ih _ (hμ _ _ _ (hinv n) (h n).1 (h n).2) (n + 1) rfl
  exact hall _ 0 rfl

/-- A step with the property `p`, as evaluation finds it. -/
theorem exists_step (a : α) {p : α → Prop} (ha : p a) (h : (step s a).isSome = true) :
    ∃ a t, p a ∧ step s a = some t := by
  obtain ⟨t, ht⟩ := Option.isSome_iff_exists.mp h
  exact ⟨a, t, ha, ht⟩

/-- A run that ends in a state with the property `p`, as evaluation finds it. -/
theorem exists_run {p : σ → Bool} (h : (exec step s as).any p = true) :
    ∃ t, exec step s as = some t ∧ p t = true := by
  cases he : exec step s as with
  | none => simp [he] at h
  | some t => exact ⟨t, rfl, by simpa [he] using h⟩

/-- Setting one entry of a list, with the entries before and after it named. -/
theorem exists_split {l : List σ} {i : ℕ} (h : l[i]? = some s) :
    ∃ pre post, l = pre ++ s :: post ∧ ∀ x, l.set i x = pre ++ x :: post := by
  obtain ⟨hi, rfl⟩ := List.getElem?_eq_some_iff.mp h
  refine ⟨l.take i, l.drop (i + 1), ?_, fun x => List.set_eq_take_cons_drop x hi⟩
  rw [List.getElem_cons_drop, List.take_append_drop]

theorem sum_map_set {l : List σ} {i : ℕ} (h : l[i]? = some s) (f : σ → ℕ) (x : σ) :
    ((l.set i x).map f).sum + f s = (l.map f).sum + f x := by
  obtain ⟨pre, post, rfl, hset⟩ := exists_split h
  rw [hset]
  simp only [List.map_append, List.map_cons, List.sum_append, List.sum_cons]
  omega

theorem flatMap_set_perm {β : Type*} {l : List σ} {i : ℕ} (h : l[i]? = some s) (f : σ → List β)
    (x : σ) : ((l.set i x).flatMap f ++ f s).Perm (l.flatMap f ++ f x) := by
  obtain ⟨pre, post, rfl, hset⟩ := exists_split h
  classical
  rw [hset, List.perm_iff_count]
  intro y
  simp only [List.flatMap_append, List.flatMap_cons, List.count_append]
  omega

end Machine
