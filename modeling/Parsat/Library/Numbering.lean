import Mathlib.Data.Finset.Card
import Mathlib.Data.List.Basic
import Mathlib.Logic.Function.Basic

/-!
# Library — numberings

Things of a type `α` numbered on the fly, in the order in which they are first seen: a partial map
`f : α → Option ℕ` and the next number `k`.  `Numbers f k` says that the numbers in use are exactly
`0, …, k - 1` and that no two things share one, so `f` is a bijection from the numbered things.

* `Numbers.update`: the next thing gets the number `k`.
* `Numbers.card_eq`: `k` is how many things are numbered.
* `invert`: the list of the things by number, written in any order with the list grown as needed;
  `Numbers.length_invert` and `getElem?_invert` say that it is the inverse.
* `exists_mapM_invert`, `mapM_of_map`: lists translate back and forth.
-/

namespace Numbering

variable {α : Type*} {f : α → Option ℕ} {k : ℕ}

/-- The numbers of `f` are `0, …, k - 1`, each of one thing. -/
structure Numbers (f : α → Option ℕ) (k : ℕ) : Prop where
  lt : ∀ {x y}, f x = some y → y < k
  inj : ∀ {x x' y}, f x = some y → f x' = some y → x = x'
  onto : ∀ {y}, y < k → ∃ x, f x = some y

/-- Nothing is numbered. -/
theorem numbers_none (h : ∀ x, f x = none) : Numbers f 0 where
  lt hx := by rw [h] at hx; cases hx
  inj hx := by rw [h] at hx; cases hx
  onto hy := absurd hy (Nat.not_lt_zero _)

/-- A new thing gets the next number. -/
theorem Numbers.update (h : Numbers f k) {x : α} (hx : f x = none) {g : α → Option ℕ}
    (hself : g x = some k) (hne : ∀ z, z ≠ x → g z = f z) : Numbers g (k + 1) where
  lt {z y} hz := by
    by_cases e : z = x
    · rw [e, hself] at hz
      cases hz
      exact Nat.lt_succ_self _
    · exact (h.lt (hne z e ▸ hz)).trans (Nat.lt_succ_self _)
  inj {z z' y} hz hz' := by
    by_cases e : z = x <;> by_cases e' : z' = x
    · rw [e, e']
    · rw [e, hself] at hz
      cases hz
      exact absurd (h.lt (hne z' e' ▸ hz')) (lt_irrefl _)
    · rw [e', hself] at hz'
      cases hz'
      exact absurd (h.lt (hne z e ▸ hz)) (lt_irrefl _)
    · exact h.inj (hne z e ▸ hz) (hne z' e' ▸ hz')
  onto {y} hy := by
    rcases Nat.lt_succ_iff_lt_or_eq.mp hy with hy | rfl
    · obtain ⟨z, hz⟩ := h.onto hy
      refine ⟨z, (hne z ?_).trans hz⟩
      rintro rfl
      rw [hx] at hz
      cases hz
    · exact ⟨x, hself⟩

/-- As many things are numbered as there are numbers. -/
theorem Numbers.card_eq (h : Numbers f k) {S : Finset α} (hS : ∀ x, x ∈ S ↔ (f x).isSome) :
    S.card = k := by
  rw [← Finset.card_range k]
  refine Finset.card_nbij (fun x => (f x).getD 0) ?_ ?_ ?_
  · intro x hx
    obtain ⟨y, hy⟩ := Option.isSome_iff_exists.mp ((hS x).mp hx)
    simpa [hy] using h.lt hy
  · intro x hx x' hx' e
    obtain ⟨y, hy⟩ := Option.isSome_iff_exists.mp ((hS x).mp hx)
    obtain ⟨y', hy'⟩ := Option.isSome_iff_exists.mp ((hS x').mp hx')
    simp only [hy, hy', Option.getD_some] at e
    exact h.inj hy (e ▸ hy')
  · intro y hy
    obtain ⟨x, hx⟩ := h.onto (Finset.mem_range.mp hy)
    exact ⟨x, (hS x).mpr (by rw [hx]; rfl), by simp [hx]⟩

/-! ### The inverse -/

/-- `x` at the place `y` of a list, which is filled up with `d` if it is shorter. -/
def put (d : α) (rev : List α) (y : ℕ) (x : α) : List α :=
  (rev ++ List.replicate (1 + y - rev.length) d).set y x

theorem length_put (d : α) (rev : List α) (y : ℕ) (x : α) :
    (put d rev y x).length = max rev.length (y + 1) := by
  simp only [put, List.length_set, List.length_append, List.length_replicate]
  omega

theorem getElem?_put_self (d : α) (rev : List α) (y : ℕ) (x : α) :
    (put d rev y x)[y]? = some x := by
  refine List.getElem?_set_self ?_
  simp only [List.length_append, List.length_replicate]
  omega

theorem getElem?_put_ne (d : α) {rev : List α} {y y' : ℕ} (x : α) {x' : α} (hne : y ≠ y')
    (h : rev[y']? = some x') : (put d rev y x)[y']? = some x' := by
  obtain ⟨hlt, -⟩ := List.getElem?_eq_some_iff.mp h
  rw [put, List.getElem?_set_ne hne, List.getElem?_append_left hlt, h]

/-- The things of `xs` by number. -/
def invert (d : α) (f : α → Option ℕ) (xs : List α) : List α :=
  xs.foldl (fun rev x =>
    match f x with
    | none => rev
    | some y => put d rev y x) []

variable {d : α} {xs : List α}

theorem invert_concat (d : α) (f : α → Option ℕ) (xs : List α) (x : α) :
    invert d f (xs ++ [x]) = match f x with
      | none => invert d f xs
      | some y => put d (invert d f xs) y x := by
  simp [invert, List.foldl_append]

/-- Every thing is at its number. -/
theorem getElem?_invert (hinj : ∀ {x x' y}, f x = some y → f x' = some y → x = x') {x : α} {y : ℕ}
    (hx : x ∈ xs) (hy : f x = some y) : (invert d f xs)[y]? = some x := by
  induction xs using List.reverseRecOn with
  | nil => cases hx
  | append_singleton xs z ih =>
      rw [invert_concat]
      by_cases e : z = x
      · subst e
        rw [hy]
        exact getElem?_put_self ..
      · have hmem : x ∈ xs := (List.mem_append.mp hx).resolve_right fun h =>
          e (List.mem_singleton.mp h).symm
        cases hz : f z with
        | none => exact ih hmem
        | some w =>
            refine getElem?_put_ne d z ?_ (ih hmem)
            rintro rfl
            exact e (hinj hz hy)

theorem length_invert_le (h : ∀ {x y}, f x = some y → y < k) : (invert d f xs).length ≤ k := by
  induction xs using List.reverseRecOn with
  | nil => exact Nat.zero_le k
  | append_singleton xs z ih =>
      rw [invert_concat]
      cases hz : f z with
      | none => exact ih
      | some w => exact (length_put ..).trans_le (max_le ih (h hz))

/-- The inverse has no gap and no thing too many. -/
theorem Numbers.length_invert (h : Numbers f k) (hxs : ∀ x, (f x).isSome → x ∈ xs) :
    (invert d f xs).length = k := by
  refine le_antisymm (length_invert_le h.lt) (Nat.le_of_not_lt fun hlt => ?_)
  obtain ⟨x, hx⟩ := h.onto hlt
  have hget := getElem?_invert (d := d) h.inj (hxs x (by rw [hx]; rfl)) hx
  rw [List.getElem?_eq_none le_rfl] at hget
  cases hget

/-! ### Translating lists -/

variable {rev : List α} {ys : List ℕ}

/-- Every list of numbers is that of some things. -/
theorem Numbers.exists_mapM (h : Numbers f k) (hrev : ∀ {x y}, f x = some y → rev[y]? = some x)
    (hys : ∀ y ∈ ys, y < k) : ∃ zs, ys.mapM (fun y => rev[y]?) = some zs ∧
      zs.map f = ys.map some := by
  induction ys with
  | nil => exact ⟨[], rfl, rfl⟩
  | cons y ys ih =>
      obtain ⟨hy, hys⟩ := List.forall_mem_cons.mp hys
      obtain ⟨x, hx⟩ := h.onto hy
      obtain ⟨zs, hzs, hmap⟩ := ih hys
      exact ⟨x :: zs, by simp [List.mapM_cons, hrev hx, hzs], by simp [hx, hmap]⟩

/-- And only of these. -/
theorem mapM_of_map (hrev : ∀ {x y}, f x = some y → rev[y]? = some x) {zs : List α}
    (hmap : zs.map f = ys.map some) : ys.mapM (fun y => rev[y]?) = some zs := by
  induction ys generalizing zs with
  | nil =>
      rw [List.map_nil, List.map_eq_nil_iff] at hmap
      rw [hmap]
      rfl
  | cons y ys ih =>
      obtain ⟨x, zs, rfl, hx, hzs⟩ := List.map_eq_cons_iff.mp hmap
      simp [List.mapM_cons, hrev hx, ih hzs]

end Numbering
