import Mathlib.Data.Fintype.Card

/-!
# Library — a bounded cache

A map with a bound on its size.  An entry that is added to a full cache takes the place of another
one; which one is left open, so whoever adds an entry names it.

* `Cache.Sound`: every entry is in a relation of keys and values, and `Sound.get`, `Sound.add` keep
  a client that only adds such entries from seeing any other.
* `length_le_maxSize`: the bound is kept.
* `get_eq_some_iff`: where each key occurs once, `get` finds the entries.
* `length_cons_filter`: a value for a key leaves one entry more, unless the key had one.
* `exists_get_none`: a cache of fewer entries than there are keys lacks one.
-/

/-- The entries, each key at most once. -/
abbrev Cache (κ ν : Type*) := List (κ × ν)

namespace Cache

variable {κ ν : Type*} {R : κ → ν → Prop} {c c' : Cache κ ν} {k : κ} {v : ν}

/-- Every entry is in the relation. -/
def Sound (R : κ → ν → Prop) (c : Cache κ ν) : Prop := ∀ e ∈ c, R e.1 e.2

theorem sound_nil : Sound R ([] : Cache κ ν) := by simp [Sound]

/-- Entries in one relation are in a larger one. -/
theorem Sound.imp {R' : κ → ν → Prop} (h : c.Sound R) (himp : ∀ k v, R k v → R' k v) :
    c.Sound R' :=
  fun e he => himp _ _ (h e he)

variable [DecidableEq κ]

def get (c : Cache κ ν) (k : κ) : Option ν := (c.find? fun e => e.1 = k).map Prod.snd

/-- Adds an entry, and removes the entry at `evicted` first if there are `maxSize` of them. -/
def add (maxSize evicted : ℕ) (c : Cache κ ν) (k : κ) (v : ν) : Option (Cache κ ν) :=
  if c.length = maxSize then
    if evicted < c.length then some ((k, v) :: (c.eraseIdx evicted).filter fun e => e.1 ≠ k)
    else none
  else some ((k, v) :: c.filter fun e => e.1 ≠ k)

theorem Sound.get (h : c.Sound R) (hk : c.get k = some v) : R k v := by
  obtain ⟨e, he, rfl⟩ := Option.map_eq_some_iff.mp hk
  have hkey : e.1 = k := by simpa using List.find?_some he
  exact hkey ▸ h e (List.mem_of_find?_eq_some he)

/-- What `add` leaves is the new entry and some of the old ones, with other keys. -/
theorem of_mem_add {maxSize evicted : ℕ} (ha : c.add maxSize evicted k v = some c') {e : κ × ν}
    (he : e ∈ c') : e = (k, v) ∨ e ∈ c ∧ e.1 ≠ k := by
  unfold add at ha
  split_ifs at ha <;> cases ha
  · refine (List.mem_cons.mp he).imp_right fun he => ?_
    obtain ⟨he, hne⟩ := List.mem_filter.mp he
    exact ⟨List.mem_of_mem_eraseIdx he, of_decide_eq_true hne⟩
  · refine (List.mem_cons.mp he).imp_right fun he => ?_
    exact (List.mem_filter.mp he).imp_right of_decide_eq_true

theorem mem_add {maxSize evicted : ℕ} (ha : c.add maxSize evicted k v = some c') :
    (k, v) ∈ c' := by
  unfold add at ha
  split_ifs at ha <;> cases ha <;> exact List.mem_cons_self

theorem Sound.add (h : c.Sound R) (hv : R k v) {maxSize evicted : ℕ}
    (ha : c.add maxSize evicted k v = some c') : c'.Sound R := by
  intro e he
  rcases of_mem_add ha he with rfl | ⟨he, -⟩
  · exact hv
  · exact h e he

/-- At most one entry is added. -/
theorem length_add_le {maxSize evicted : ℕ} (ha : c.add maxSize evicted k v = some c') :
    c'.length ≤ c.length + 1 := by
  unfold Cache.add at ha
  split_ifs at ha <;> cases ha
  · exact Nat.succ_le_succ ((List.length_filter_le ..).trans (List.eraseIdx_sublist ..).length_le)
  · exact Nat.succ_le_succ (List.length_filter_le ..)

/-- The bound is kept. -/
theorem length_le_maxSize {maxSize evicted : ℕ} (h : c.length ≤ maxSize)
    (ha : c.add maxSize evicted k v = some c') : c'.length ≤ maxSize := by
  by_cases hfull : c.length = maxSize
  · rw [Cache.add, if_pos hfull] at ha
    split at ha <;> cases ha
    rename_i hev
    have h₁ := List.length_filter_le (fun e => decide (e.1 ≠ k)) (c.eraseIdx evicted)
    rw [List.length_eraseIdx_of_lt hev] at h₁
    rw [List.length_cons]
    omega
  · have := length_add_le ha
    omega

theorem get_eq_some_iff (hn : (c.map Prod.fst).Nodup) : c.get k = some v ↔ (k, v) ∈ c := by
  rw [get, Option.map_eq_some_iff]
  constructor
  · rintro ⟨e, he, rfl⟩
    have hkey : e.1 = k := by simpa using List.find?_some he
    exact hkey ▸ List.mem_of_find?_eq_some he
  · intro hmem
    cases he : c.find? fun e => e.1 = k with
    | none =>
        have := List.find?_eq_none.mp he _ hmem
        simp at this
    | some e =>
        have hkey : e.1 = k := by simpa using List.find?_some he
        refine ⟨e, rfl, ?_⟩
        rw [List.inj_on_of_nodup_map hn (List.mem_of_find?_eq_some he) hmem hkey]

/-- A value for a key is one entry more, unless the key had one. -/
theorem length_cons_filter (hn : (c.map Prod.fst).Nodup) :
    ((k, v) :: c.filter fun e => e.1 ≠ k).length =
      if (c.get k).isSome then c.length else c.length + 1 := by
  have hsplit := List.length_eq_length_filter_add (l := c) fun e => e.1 = k
  have hcount : (c.filter fun e => e.1 = k).length = (c.map Prod.fst).count k := by
    rw [List.count_eq_countP, List.countP_map, List.countP_eq_length_filter]
    congr 2
  have hmem : k ∈ c.map Prod.fst ↔ (c.get k).isSome := by
    rw [Option.isSome_iff_exists, List.mem_map]
    simp [get_eq_some_iff hn]
  rw [hcount, hn.count] at hsplit
  simp only [← decide_not] at hsplit
  simp only [List.length_cons, ne_eq, ← hmem]
  split_ifs at hsplit ⊢ with h <;> omega

theorem exists_get_none [Fintype κ] (h : c.length < Fintype.card κ) : ∃ k, c.get k = none := by
  by_contra hall
  have hkeys : ∀ k, k ∈ c.map Prod.fst := by
    intro k
    by_contra hk
    refine hall ⟨k, ?_⟩
    rw [Cache.get, Option.map_eq_none_iff, List.find?_eq_none]
    intro e he hek
    exact hk (List.mem_map.mpr ⟨e, he, by simpa using hek⟩)
  have := Finset.card_le_card (fun k _ => List.mem_toFinset.mpr (hkeys k) :
    Finset.univ ⊆ (c.map Prod.fst).toFinset)
  have hle := List.toFinset_card_le (c.map Prod.fst)
  rw [Finset.card_univ] at this
  rw [List.length_map] at hle
  omega

end Cache
