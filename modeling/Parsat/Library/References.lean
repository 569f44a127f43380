import Mathlib.Data.List.Nodup
import Mathlib.Data.List.Range

/-!
# Library — references to objects

Objects that several references may share lie in a list, a reference is a position in it, and a new
object is appended.  A client that holds references to different objects sees what a client that
holds the objects themselves sees: it reads, changes, adds and reorders them through its references,
and what others append does not matter to it.

* `read`: the objects a list of references stands for.
* `Valid`: the references are different, and all refer to an object.
* `Valid.read_set`, `read_append`, `Valid.read_append_new`, `read_take`, `read_read`: reading after
  a change of one object, an allocation, and a choice of some of the references.
-/

namespace References

variable {α : Type*} {objects : List α} {refs : List ℕ} {k p : ℕ}

/-- The objects that are referred to. -/
abbrev read (objects : List α) (refs : List ℕ) : List α := refs.filterMap (objects[·]?)

/-- No two references to one object, and none to nothing. -/
structure Valid (objects : List α) (refs : List ℕ) : Prop where
  nodup : refs.Nodup
  lt : ∀ p ∈ refs, p < objects.length

/-- All objects, in their order. -/
theorem read_range (objects : List α) : read objects (List.range objects.length) = objects := by
  induction objects with
  | nil => rfl
  | cons a objects ih =>
      rw [read, List.length_cons, List.range_succ_eq_map]
      simpa [List.filterMap_map, Function.comp_def] using ih

theorem read_perm (h : refs.Perm (List.range objects.length)) :
    (read objects refs).Perm objects := by
  have := h.filterMap (objects[·]?)
  rwa [show (List.range objects.length).filterMap (objects[·]?) = objects from
    read_range objects] at this

theorem getElem?_read (h : ∀ p ∈ refs, p < objects.length) (k : ℕ) :
    (read objects refs)[k]? = refs[k]?.bind (objects[·]?) := by
  induction refs generalizing k with
  | nil => rfl
  | cons p refs ih =>
      obtain ⟨hp, hrefs⟩ := List.forall_mem_cons.mp h
      rw [read, List.filterMap_cons_some (List.getElem?_eq_getElem hp)]
      cases k with
      | zero => simp [hp]
      | succ k => simpa using ih hrefs k

theorem length_read (h : ∀ p ∈ refs, p < objects.length) :
    (read objects refs).length = refs.length := by
  induction refs with
  | nil => rfl
  | cons p refs ih =>
      obtain ⟨hp, hrefs⟩ := List.forall_mem_cons.mp h
      rw [read, List.filterMap_cons_some (List.getElem?_eq_getElem hp), List.length_cons,
        List.length_cons, ih hrefs]

/-- A choice of the objects by their positions is one of the references. -/
theorem read_read (h : ∀ p ∈ refs, p < objects.length) (ks : List ℕ) :
    read objects (read refs ks) = read (read objects refs) ks := by
  rw [read, read, List.filterMap_filterMap]
  congr 1
  funext k
  exact (getElem?_read h k).symm

theorem read_take (h : ∀ p ∈ refs, p < objects.length) (n : ℕ) :
    read objects (refs.take n) = (read objects refs).take n := by
  refine List.ext_getElem? fun k => ?_
  rw [getElem?_read fun p hp => h p (List.mem_of_mem_take hp), List.getElem?_take,
    List.getElem?_take]
  split
  · rw [getElem?_read h]
  · rfl

/-- What is appended is not referred to. -/
theorem read_append (h : ∀ p ∈ refs, p < objects.length) (new : List α) :
    read (objects ++ new) refs = read objects refs := by
  refine List.filterMap_congr fun p hp => ?_
  exact List.getElem?_append_left (h p hp)

/-- The objects behind others. -/
theorem read_new (objects new : List α) :
    read (objects ++ new) (List.range' objects.length new.length) = new := by
  rw [List.range'_eq_map_range, read, List.filterMap_map]
  rw [show ((objects ++ new)[·]?) ∘ (objects.length + ·) = (new[·]?) by
    funext k
    simp [List.getElem?_append_right]]
  exact read_range new

/-- A change in place of an object behind others. -/
theorem modify_append (objects rest : List α) (x : α) (f : α → α) :
    (objects ++ x :: rest).modify objects.length f = objects ++ f x :: rest := by
  induction objects with
  | nil => rfl
  | cons a objects ih => simpa using ih

namespace Valid

/-- **A change of one object** changes it for its only reference. -/
theorem read_set (h : Valid objects refs) (hp : refs[k]? = some p) (x : α) :
    read (objects.set p x) refs = (read objects refs).set k x := by
  refine List.ext_getElem? fun l => ?_
  have hlt : ∀ q ∈ refs, q < (objects.set p x).length := by
    simpa using h.lt
  rw [getElem?_read hlt, List.getElem?_set, length_read h.lt, getElem?_read h.lt]
  obtain ⟨hk, hkp⟩ := List.getElem?_eq_some_iff.mp hp
  by_cases hl : k = l
  · subst hl
    have := h.lt p (List.mem_of_getElem? hp)
    rw [if_pos rfl, if_pos hk, hp, Option.bind_some, List.getElem?_set_self this]
  · rw [if_neg hl]
    cases hq : refs[l]? with
    | none => rfl
    | some q =>
        have hne : p ≠ q := by
          rintro rfl
          obtain ⟨hl', hlq⟩ := List.getElem?_eq_some_iff.mp hq
          exact hl (h.nodup.getElem_inj_iff.mp (hkp.trans hlq.symm))
        simp [List.getElem?_set_ne hne]

theorem set (h : Valid objects refs) (p : ℕ) (x : α) : Valid (objects.set p x) refs :=
  ⟨h.nodup, by simpa using h.lt⟩

theorem append (h : Valid objects refs) (new : List α) : Valid (objects ++ new) refs :=
  ⟨h.nodup, fun p hp => by
    have := h.lt p hp
    rw [List.length_append]
    omega⟩

theorem append_refs {refs' : List ℕ} (h : Valid objects refs) (h' : Valid objects refs')
    (hd : ∀ p ∈ refs, p ∉ refs') : Valid objects (refs ++ refs') := by
  refine ⟨h.nodup.append h'.nodup fun p hp hp' => hd p hp hp', ?_⟩
  intro p hp
  rcases List.mem_append.mp hp with hp | hp
  · exact h.lt p hp
  · exact h'.lt p hp

/-- The references to new objects. -/
theorem range' (objects new : List α) :
    Valid (objects ++ new) (List.range' objects.length new.length) := by
  refine ⟨List.nodup_range', ?_⟩
  intro p hp
  rw [List.length_append]
  exact (List.mem_range'_1.mp hp).2

/-- They are other references. -/
theorem notMem_range' (h : Valid objects refs) (n : ℕ) :
    ∀ p ∈ refs, p ∉ List.range' objects.length n := by
  intro p hp hp'
  have := h.lt p hp
  have := (List.mem_range'_1.mp hp').1
  omega

theorem append_new (h : Valid objects refs) (new : List α) :
    Valid (objects ++ new) (refs ++ List.range' objects.length new.length) :=
  (h.append new).append_refs (.range' objects new) (h.notMem_range' _)

theorem read_append_new (h : Valid objects refs) (new : List α) :
    read (objects ++ new) (refs ++ List.range' objects.length new.length) =
      read objects refs ++ new := by
  rw [read, List.filterMap_append]
  exact congrArg₂ (· ++ ·) (read_append h.lt new) (read_new objects new)

/-- Some of the references, in any order. -/
theorem read_take_perm (h : Valid objects refs) {ks : List ℕ}
    (hks : ks.Perm (List.range refs.length)) (n : ℕ) :
    Valid objects ((read refs ks).take n) := by
  have hperm := read_perm hks
  refine ⟨((hperm.nodup_iff).mpr h.nodup).sublist (List.take_sublist n _), ?_⟩
  intro p hp
  exact h.lt p (hperm.mem_iff.mp (List.mem_of_mem_take hp))

end Valid

end References
