import Mathlib.Data.List.Pairwise
import Mathlib.Order.Lattice

/-!
# Library — sets ordered by a key

An ordered set whose order looks at a key only, as the list of its elements in order: an element
whose key the set has already is not inserted.

* `mem_insertBy_self`, `mem_insertBy_of_mem`: with a new key the element is added, and none is lost.
* `insertBy_eq_self`: with a key of the set nothing happens.
* `pairwise_insertBy`: the list stays in order.
-/

namespace OrderedSet

variable {α κ : Type*} [LinearOrder κ] (key : α → κ) {a x : α} {l : List α}

/-- `insert`. -/
def insertBy (a : α) : List α → List α
  | [] => [a]
  | x :: l =>
    if key a < key x then a :: x :: l
    else if key x < key a then x :: insertBy a l
    else x :: l

variable {key}

theorem of_mem_insertBy (h : x ∈ insertBy key a l) : x = a ∨ x ∈ l := by
  induction l with
  | nil => exact .inl (List.mem_singleton.mp h)
  | cons y l ih =>
      rw [insertBy] at h
      split at h
      · exact List.mem_cons.mp h
      · split at h
        · rcases List.mem_cons.mp h with rfl | h
          · exact .inr List.mem_cons_self
          · exact (ih h).imp_right (List.mem_cons_of_mem y)
        · exact .inr h

theorem mem_insertBy_of_mem (h : x ∈ l) : x ∈ insertBy key a l := by
  induction l with
  | nil => cases h
  | cons y l ih =>
      rw [insertBy]
      split
      · exact List.mem_cons_of_mem a h
      · split
        · rcases List.mem_cons.mp h with rfl | h
          · exact List.mem_cons_self
          · exact List.mem_cons_of_mem y (ih h)
        · exact h

theorem mem_insertBy_self (h : ∀ x ∈ l, key x ≠ key a) : a ∈ insertBy key a l := by
  induction l with
  | nil => exact List.mem_cons_self
  | cons y l ih =>
      obtain ⟨hy, hl⟩ := List.forall_mem_cons.mp h
      rw [insertBy]
      split
      · exact List.mem_cons_self
      · rename_i hle
        rw [if_pos (lt_of_le_of_ne (not_lt.mp hle) hy)]
        exact List.mem_cons_of_mem y (ih hl)

theorem pairwise_insertBy (h : l.Pairwise fun x y => key x < key y) :
    (insertBy key a l).Pairwise fun x y => key x < key y := by
  induction l with
  | nil => exact List.pairwise_singleton ..
  | cons y l ih =>
      obtain ⟨hy, hl⟩ := List.pairwise_cons.mp h
      rw [insertBy]
      split
      · rename_i hlt
        refine List.pairwise_cons.mpr ⟨?_, h⟩
        exact List.forall_mem_cons.mpr ⟨hlt, fun x hx => hlt.trans (hy x hx)⟩
      · split
        · rename_i hlt
          refine List.pairwise_cons.mpr ⟨?_, ih hl⟩
          intro x hx
          rcases of_mem_insertBy hx with rfl | hx
          · exact hlt
          · exact hy x hx
        · exact h

/-- **A key of the set.** -/
theorem insertBy_eq_self (h : l.Pairwise fun x y => key x < key y) (hx : x ∈ l)
    (hk : key x = key a) : insertBy key a l = l := by
  induction l with
  | nil => cases hx
  | cons y l ih =>
      obtain ⟨hy, hl⟩ := List.pairwise_cons.mp h
      rw [insertBy]
      rcases List.mem_cons.mp hx with rfl | hx
      · simp [hk]
      · have hlt := hk ▸ hy x hx
        rw [if_neg hlt.not_gt, if_pos hlt, ih hl hx]

end OrderedSet
