import Parsat.Library.Cache
import Parsat.Library.Machine

/-!
# Backdoor — the cache of fitness values

`LRUCache`, with every order of its operations.  `add` makes room when the size is the maximal one,
before it looks at the key, by erasing the entry at `begin()`.  The table leaves open which entry
that is, so whoever adds an entry names it.

`set_max_size` may leave the cache larger than the new maximal size.  Then the sizes are never equal
again, and the cache grows; and with the maximal size 0, which is what the constructor and the
configuration start from, `add` erases from an empty table.

* `lastAdded`: what was added last for a key; a present key is mapped to it in every run.
* `add_sizeKept_iff`: what one `add` does to the bound.
* `lru_cache_kept_iff`: the runs that keep to the bound and erase nothing from an empty table are
  those whose additions find at most the maximal number of entries, and that is not 0.
-/

namespace Parsat

/-- `LRUCache`: `max_cache_size_` and `map_`, where each key occurs once. -/
structure LRUCache (κ ν : Type*) where
  maxCacheSize : UInt32
  map : Cache κ ν
  nodup : (map.map Prod.fst).Nodup

namespace LRUCache

variable {κ ν : Type*}

/-- After an operation: the cache, or nothing if it was `map_.erase(map_.begin())` on an empty
table, which is undefined. -/
inductive State (κ ν : Type*) where
  | cache (c : LRUCache κ ν)
  | erasedEmpty

inductive Action (κ ν : Type*) where
  /-- `add(key, value)`, where `begin()` is the entry at `evicted`. -/
  | add (key : κ) (value : ν) (evicted : ℕ)
  | get (key : κ)
  | invalidate
  | setMaxSize (newMaxSize : UInt32)

/-- `LRUCache(max_cache_size)`. -/
def new (maxCacheSize : UInt32) : LRUCache κ ν := ⟨maxCacheSize, [], List.nodup_nil⟩

/-- `size()`, the number of entries cut to 32 bits. -/
def size (c : LRUCache κ ν) : UInt32 := .ofNat c.map.length

/-- `map_.erase`, at the entry `i`. -/
def erase (c : LRUCache κ ν) (i : ℕ) : LRUCache κ ν where
  maxCacheSize := c.maxCacheSize
  map := c.map.eraseIdx i
  nodup := c.nodup.sublist ((List.eraseIdx_sublist ..).map _)

def invalidate (c : LRUCache κ ν) : LRUCache κ ν := { c with map := [], nodup := List.nodup_nil }

def setMaxSize (c : LRUCache κ ν) (newMaxSize : UInt32) : LRUCache κ ν :=
  { c with maxCacheSize := newMaxSize }

variable [DecidableEq κ]

def get (c : LRUCache κ ν) (k : κ) : Option ν := c.map.get k

/-- `map_[key] = value`. -/
def assign (c : LRUCache κ ν) (k : κ) (v : ν) : LRUCache κ ν where
  maxCacheSize := c.maxCacheSize
  map := (k, v) :: c.map.filter fun e => e.1 ≠ k
  nodup := by
    refine List.nodup_cons.mpr ⟨?_, c.nodup.sublist (List.filter_sublist.map _)⟩
    simp

/-- `add`; `none` where no entry is the `evicted`-th. -/
def add (c : LRUCache κ ν) (k : κ) (v : ν) (evicted : ℕ) : Option (State κ ν) :=
  if c.map.length = c.maxCacheSize.toNat then
    if c.map = [] then some .erasedEmpty
    else if evicted < c.map.length then some (.cache ((c.erase evicted).assign k v))
    else none
  else some (.cache (c.assign k v))

/-- An operation on a cache.  Nothing is said about what comes after the undefined one. -/
def step : State κ ν → Action κ ν → Option (State κ ν)
  | .cache c, .add k v evicted => c.add k v evicted
  | .cache c, .get _ => some (.cache c)
  | .cache c, .invalidate => some (.cache c.invalidate)
  | .cache c, .setMaxSize n => some (.cache (c.setMaxSize n))
  | .erasedEmpty, _ => none

/-- The value that the operation adds for the key. -/
def Action.added (k : κ) : Action κ ν → Option ν
  | .add k' v _ => if k' = k then some v else none
  | _ => none

/-- The last value that was added for the key. -/
def lastAdded (k : κ) (as : List (Action κ ν)) : Option ν :=
  (as.filterMap (Action.added k)).getLast?

/-- The number of entries once the key has one. -/
def entriesWith (c : LRUCache κ ν) (k : κ) : ℕ :=
  if (c.get k).isSome then c.map.length else c.map.length + 1

/-- An addition finds at most `max_cache_size_` entries, and that is not 0; or so many more that
with the key `size()` has wrapped at 2^32 and is back at or below the maximal size. -/
def Roomy : State κ ν → Action κ ν → Prop
  | .cache c, .add k _ _ =>
    0 < c.maxCacheSize ∧ c.map.length ≤ c.maxCacheSize.toNat ∨
      c.maxCacheSize.toNat < c.map.length ∧ 2 ^ 32 ≤ c.entriesWith k ∧
        c.entriesWith k % 2 ^ 32 ≤ c.maxCacheSize.toNat
  | _, _ => True

/-- What is expected of a run from `s`: nothing is erased from an empty table, directly after an
addition the size is at most the maximal one, and a key that is present is mapped to the value that
was added last for it. -/
structure Kept (s : State κ ν) (as : List (Action κ ν)) : Prop where
  not_erasedEmpty : ∀ bs, bs <+: as → Machine.exec step s bs ≠ some .erasedEmpty
  size_le : ∀ bs k v evicted c, bs ++ [.add k v evicted] <+: as →
    Machine.exec step s (bs ++ [.add k v evicted]) = some (.cache c) → c.size ≤ c.maxCacheSize
  get_eq_last : ∀ bs c k v, bs <+: as → Machine.exec step s bs = some (.cache c) →
    c.get k = some v → lastAdded k bs = some v

variable {c c' : LRUCache κ ν} {s t : State κ ν} {k k' : κ} {v w : ν} {evicted : ℕ}
  {a : Action κ ν} {as : List (Action κ ν)}

omit [DecidableEq κ] in
theorem toNat_size (c : LRUCache κ ν) : c.size.toNat = c.map.length % 2 ^ 32 := UInt32.toNat_ofNat'

/-- `add` erases from an empty table, or adds to the cache as a bounded cache does. -/
theorem add_cases (h : c.add k v evicted = some t) :
    (t = .erasedEmpty ∧ c.map = [] ∧ c.maxCacheSize.toNat = 0) ∨
    ∃ c', t = .cache c' ∧ c'.maxCacheSize = c.maxCacheSize ∧
      c.map.add c.maxCacheSize.toNat evicted k v = some c'.map := by
  unfold add at h
  split_ifs at h with hfull hempty hev
  · refine .inl ⟨(Option.some.inj h).symm, hempty, ?_⟩
    rw [← hfull, hempty, List.length_nil]
  · refine .inr ⟨_, (Option.some.inj h).symm, rfl, ?_⟩
    rw [Cache.add, if_pos hfull, if_pos hev]
    rfl
  · refine .inr ⟨_, (Option.some.inj h).symm, rfl, ?_⟩
    rw [Cache.add, if_neg hfull]
    rfl

theorem get_eq_some_iff : c.get k = some v ↔ (k, v) ∈ c.map := Cache.get_eq_some_iff c.nodup

/-- The entries after an addition, where the size was not the maximal one. -/
theorem length_add (h : c.map.length ≠ c.maxCacheSize.toNat)
    (ha : c.map.add c.maxCacheSize.toNat evicted k v = some c'.map) :
    c'.map.length = c.entriesWith k := by
  rw [Cache.add, if_neg h] at ha
  rw [← Option.some.inj ha, Cache.length_cons_filter c.nodup]
  rfl

/-- What an addition does to the bound. -/
theorem add_sizeKept_iff (h : c.add k v evicted = some t) :
    (t ≠ .erasedEmpty ∧ ∀ c', t = .cache c' → c'.size ≤ c'.maxCacheSize) ↔
      Roomy (.cache c) (.add k v evicted) := by
  have hmax := c.maxCacheSize.toNat_lt
  rcases add_cases h with ⟨rfl, hempty, hzero⟩ | ⟨c', rfl, hm, ha⟩
  · simp [Roomy, UInt32.lt_iff_toNat_lt, hempty, hzero]
  · simp only [Roomy, ne_eq, reduceCtorEq, not_false_eq_true, State.cache.injEq, forall_eq',
      true_and, UInt32.lt_iff_toNat_lt, UInt32.le_iff_toNat_le, toNat_size, hm]
    by_cases hle : c.map.length ≤ c.maxCacheSize.toNat
    · -- within the bound, as any bounded cache
      have hle' := Cache.length_le_maxSize hle ha
      have hpos := List.length_pos_of_mem (Cache.mem_add ha)
      rw [Nat.mod_eq_of_lt (by omega)]
      exact iff_of_true hle' (.inl ⟨by simp; omega, hle⟩)
    · -- beyond it the sizes differ, and nothing is evicted
      have hlen := length_add (by omega) ha
      have hge : c.map.length ≤ c.entriesWith k := by
        unfold entriesWith
        split_ifs <;> omega
      rw [hlen]
      omega

/-! ### The last value -/

/-- A value that is present was there before, or is the one that was just added. -/
theorem get_of_step (h : step s a = some (.cache c')) (hget : c'.get k = some v) :
    a.added k = some v ∨ a.added k = none ∧ ∃ c, s = .cache c ∧ c.get k = some v := by
  rw [get_eq_some_iff] at hget
  match s, a with
  | .erasedEmpty, _ => cases h
  | .cache c, .get k' =>
      cases h
      exact .inr ⟨rfl, c', rfl, get_eq_some_iff.mpr hget⟩
  | .cache c, .invalidate =>
      cases h
      cases hget
  | .cache c, .setMaxSize n =>
      cases h
      exact .inr ⟨rfl, c, rfl, get_eq_some_iff.mpr hget⟩
  | .cache c, .add k' w evicted =>
      rcases add_cases h with ⟨h, -⟩ | ⟨_, h, -, ha⟩ <;> cases h
      rcases Cache.of_mem_add ha hget with heq | ⟨hmem, hne⟩
      · cases heq
        exact .inl (if_pos rfl)
      · exact .inr ⟨if_neg (Ne.symm hne), c, rfl, get_eq_some_iff.mpr hmem⟩

theorem lastAdded_append (k : κ) (as : List (Action κ ν)) (a : Action κ ν) :
    lastAdded k (as ++ [a]) = (a.added k).or (lastAdded k as) := by
  cases h : a.added k with
  | none => simp [lastAdded, h]
  | some v => simp [lastAdded, h]

/-- In every run, a key that is present is mapped to the value that was added last for it. -/
theorem get_eq_lastAdded {maxCacheSize : UInt32}
    (h : Machine.exec step (.cache (new maxCacheSize)) as = some (.cache c))
    (hget : c.get k = some v) : lastAdded k as = some v := by
  induction as using List.reverseRecOn generalizing c with
  | nil =>
      cases h
      cases hget
  | append_singleton as a ih =>
      obtain ⟨s, hs, hstep⟩ := Machine.exec_concat.mp h
      rw [lastAdded_append]
      rcases get_of_step hstep hget with hadd | ⟨hnone, c', rfl, hget'⟩
      · rw [hadd, Option.some_or]
      · rw [hnone, Option.none_or]
        exact ih hs hget'

/-! ### The bound -/

/-- A step that the state does not allow is an addition that names no entry of a full cache. -/
theorem roomy_of_none (h : step (.cache c) a = none) : Roomy (.cache c) a := by
  cases a with
  | add k v evicted =>
      simp only [step, add] at h
      split_ifs at h with hfull hempty hev
      have hpos := List.length_pos_of_ne_nil hempty
      exact .inl ⟨UInt32.lt_iff_toNat_lt.mpr (by simp; omega), hfull.le⟩
  | get | invalidate | setMaxSize => trivial

/-- A cache stays one unless an addition finds no room. -/
theorem ne_erasedEmpty (h : step s a = some t) (hr : Roomy s a) : t ≠ .erasedEmpty := by
  match s, a with
  | .erasedEmpty, _ => cases h
  | .cache c, .add k v evicted => exact ((add_sizeKept_iff h).mpr hr).1
  | .cache c, .get _ | .cache c, .invalidate | .cache c, .setMaxSize _ => cases h; nofun

end LRUCache

open LRUCache in
/-- **The cache.**  Whatever order the operations come in, whatever the maximal sizes and whichever
entries are evicted: nothing is erased from an empty table, the size is at most the maximal one
directly after each addition and each present key has its last value, if and only if every addition
finds at most `max_cache_size_` entries and this is not 0 (or the table is past 2^32 entries and
`size()` is back below the maximal size). -/
theorem lru_cache_kept_iff {κ ν : Type*} [DecidableEq κ] (maxCacheSize : UInt32)
    (as : List (LRUCache.Action κ ν)) :
    Kept (.cache (new maxCacheSize)) as ↔
      Machine.Throughout step Roomy (.cache (new maxCacheSize)) as := by
  constructor
  · intro h
    refine Machine.throughout_of_prefixes fun bs u hu a ha => ?_
    cases u with
    | erasedEmpty => trivial
    | cache c =>
      cases hstep : step (.cache c) a with
      | none => exact roomy_of_none hstep
      | some t =>
        have ht : Machine.exec step (.cache (new maxCacheSize)) (bs ++ [a]) = some t :=
          Machine.exec_concat.mpr ⟨_, hu, hstep⟩
        cases a with
        | add k v evicted =>
            refine (add_sizeKept_iff hstep).mp ⟨?_, ?_⟩
            · rintro rfl
              exact h.not_erasedEmpty _ ha ht
            · rintro c' rfl
              exact h.size_le bs k v evicted c' ha ht
        | get | invalidate | setMaxSize => trivial
  · intro h
    refine ⟨fun bs hb hbs => ?_, fun bs k v evicted c hb hc => ?_, fun bs c k v _ hc hget => ?_⟩
    · rcases List.eq_nil_or_concat' bs with rfl | ⟨as', a, rfl⟩
      · cases hbs
      · obtain ⟨u, hu, hstep⟩ := Machine.exec_concat.mp hbs
        exact ne_erasedEmpty hstep ((h.of_prefix hb).concat hu) rfl
    · obtain ⟨u, hu, hstep⟩ := Machine.exec_concat.mp hc
      cases u with
      | erasedEmpty => cases hstep
      | cache c₀ => exact ((add_sizeKept_iff hstep).mpr ((h.of_prefix hb).concat hu)).2 c rfl
    · exact get_eq_lastAdded hc hget

open LRUCache in
/-- With the default limit 0 the first addition erases from an empty table; and a cache that holds
two entries when its maximal size becomes 1 holds three after the next addition. -/
theorem lru_cache_not_kept :
    ¬ Kept (.cache (new 0)) [.setMaxSize 0, .add 5 1 0] ∧
    ¬ Kept (.cache (new 2)) [.add 5 1 0, .add 6 2 0, .setMaxSize 1, .add 7 3 0] ∧
    Machine.exec step (.cache (new 0)) [.setMaxSize 0, .add 5 1 0] = some .erasedEmpty ∧
    ∃ c : LRUCache ℕ ℕ, Machine.exec step (.cache (new 2))
        [.add 5 1 0, .add 6 2 0, .setMaxSize 1, .add 7 3 0] = some (.cache c) ∧
      c.maxCacheSize = 1 ∧ c.size = 3 := by
  have hempty : Machine.exec step (.cache (new 0))
      [.setMaxSize 0, .add 5 1 0] = some (.erasedEmpty : LRUCache.State ℕ ℕ) := rfl
  obtain ⟨c, hc, hmax, hsize⟩ : ∃ c : LRUCache ℕ ℕ, Machine.exec step (.cache (new 2))
      [.add 5 1 0, .add 6 2 0, .setMaxSize 1, .add 7 3 0] = some (.cache c) ∧
        c.maxCacheSize = 1 ∧ c.size = 3 := ⟨_, rfl, rfl, rfl⟩
  refine ⟨fun h => h.not_erasedEmpty _ List.prefix_rfl hempty, fun h => ?_, hempty,
    c, hc, hmax, hsize⟩
  have hle := h.size_le [.add 5 1 0, .add 6 2 0, .setMaxSize 1] 7 3 0 c List.prefix_rfl hc
  rw [hmax, hsize] at hle
  exact absurd hle (by decide)

end Parsat
