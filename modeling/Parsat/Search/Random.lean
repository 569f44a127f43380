import Mathlib.Data.Finset.Card
import Mathlib.Order.Interval.Finset.Nat
import Parsat.Search.Enumeration

/-!
# Search — random searches

`RandomSearch` draws the sign of every variable anew at each step.  `UniqueSearch` draws a number it
has not visited yet and decodes it to signs; its first number is `_first`, which is never drawn.

The numbers are drawn from the positions of the search, `[_first + 1, _last]`, so that the loop
which rejects visited ones always has one left to find, and a run goes through all positions.  But
the same numbers are decoded to assignments: those from `total` on are never met.

* `Good`: the positions visited are as many as the steps made, and `_first` is one of them.
* `uniqueSearch_visits`: a run visits `total` different assignments, and so do the parts together.
* `createAutoRandomSearch_canVisit_iff`: which assignments a run can visit.
-/

namespace Parsat

/-- The values the calls of `util::random::sample` return, one after the other. -/
abbrev Draws := List ℕ

/-- `RandomSearch`; it does not read `_first` and `_last`. -/
structure RandomSearch where
  total : ℕ
  done : ℕ
  assignment : LitVec

/-- `UniqueSearch`. -/
structure UniqueSearch where
  total : ℕ
  done : ℕ
  first : ℕ
  last : ℕ
  assignment : LitVec
  visited : Finset ℕ

/-! ### RandomSearch -/

/-- `set_random`, with a draw from `[0, 1]` for each literal; `none` where there are too few. -/
def setRandom : LitVec → Draws → Option (LitVec × Draws)
  | [], draws => some ([], draws)
  | _ :: _, [] => none
  | p :: vec, x :: draws =>
    if x ≤ 1 then (setRandom vec draws).map fun r => (mkLit p.var (x = 1) :: r.1, r.2) else none

namespace RandomSearch

/-- `_advance` and `_reset`. -/
def advance (s : RandomSearch) (draws : Draws) : Option (RandomSearch × Draws) :=
  (setRandom s.assignment draws).map fun r => ({ s with assignment := r.1 }, r.2)

end RandomSearch

/-- `RandomSearch(vars, total)`. -/
def randomSearch (vars : List ℕ) (total : ℕ) (draws : Draws) : Option (RandomSearch × Draws) :=
  RandomSearch.advance ⟨total, 0, vars.map fun v => mkLit v false⟩ draws

/-! ### UniqueSearch -/

namespace UniqueSearch

/-- The loop of `_advance_us`: draw from `[lo, hi]` while the sample is visited; `none` where the
draws do not end. -/
def drawUnvisited (visited : Finset ℕ) (lo hi : ℕ) : ℕ → Draws → Option (ℕ × Draws)
  | sample, [] => if sample ∈ visited then none else some (sample, [])
  | sample, x :: draws =>
    if sample ∈ visited then
      if lo ≤ x ∧ x ≤ hi then drawUnvisited visited lo hi x draws else none
    else some (sample, x :: draws)

/-- `_advance_us`. -/
def advanceUs (s : UniqueSearch) (draws : Draws) : Option (UniqueSearch × Draws) :=
  (drawUnvisited s.visited (s.first + 1) s.last s.first draws).map fun r =>
    ({ s with visited := insert r.1 s.visited, assignment := setAssignment s.assignment r.1 }, r.2)

/-- `_reset`. -/
def reset (s : UniqueSearch) (draws : Draws) : Option (UniqueSearch × Draws) :=
  advanceUs { s with visited := ∅ } draws

end UniqueSearch

/-- `UniqueSearch(vars, total)`; `_last` is computed in 64 bits. -/
def uniqueSearch (vars : List ℕ) (total : ℕ) (draws : Draws) : Option (UniqueSearch × Draws) :=
  UniqueSearch.advanceUs
    ⟨total, 0, 0, (total + 2 ^ 64 - 1) % 2 ^ 64, vars.map fun v => mkLit v false, ∅⟩ draws

/-! ### Searches of any kind -/

/-- `core::search::Search` with all its subclasses. -/
inductive AnySearch where
  | fixed (s : Search)
  | random (s : RandomSearch)
  | unique (s : UniqueSearch)

namespace AnySearch

/-- `size()`. -/
def size : AnySearch → ℕ
  | .fixed s => s.total
  | .random s => s.total
  | .unique s => s.total

def done : AnySearch → ℕ
  | .fixed s => s.done
  | .random s => s.done
  | .unique s => s.done

/-- `operator()`. -/
def assignment : AnySearch → LitVec
  | .fixed s => s.assignment
  | .random s => s.assignment
  | .unique s => s.assignment

/-- `_advance(); ++_done;`. -/
def step (draws : Draws) : AnySearch → Option (AnySearch × Draws)
  | .fixed s => some (.fixed { s.advance with done := s.done + 1 }, draws)
  | .random s => (s.advance draws).map fun r => (.random { r.1 with done := s.done + 1 }, r.2)
  | .unique s => (s.advanceUs draws).map fun r => (.unique { r.1 with done := s.done + 1 }, r.2)

/-- `operator++` returns `false`. -/
def AtEnd (s : AnySearch) : Prop := s.done = s.size - 1 ∨ s.size = 0

instance (s : AnySearch) : Decidable s.AtEnd := inferInstanceAs (Decidable (_ ∨ _))

/-- `clone()`; the copy of a random search is an ordinary copy. -/
def clone : AnySearch → AnySearch
  | .fixed s => .fixed s.clone
  | s => s

/-- `split_search`. -/
def splitSearch (numSplit index : ℕ) (draws : Draws) : AnySearch → Option (AnySearch × Draws)
  | .fixed s => some (.fixed (s.splitSearch numSplit index), draws)
  | .random s =>
    let r := Search.getStartAndTodo s.total numSplit index
    if r.1 < s.total then
      (RandomSearch.advance { s with done := 0, total := r.2 } draws).map fun q =>
        (.random q.1, q.2)
    else some (.random { s with total := 0 }, draws)
  | .unique s =>
    let r := Search.getStartAndTodo s.total numSplit index
    if r.1 < s.total then
      (UniqueSearch.reset
        { s with first := r.1, last := r.1 + r.2 - 1, done := 0, total := r.2 } draws).map
          fun q => (.unique q.1, q.2)
    else some (.unique { s with total := 0 }, draws)

/-- The assignments `operator()` gives in `do … while (++search)`, for at most `n` steps; `none`
where the draws do not end. -/
def visitsFor : ℕ → AnySearch → Draws → Option (List LitVec)
  | 0, s, _ => some [s.assignment]
  | n + 1, s, draws =>
    if s.AtEnd then some [s.assignment]
    else (s.step draws).bind fun r => (visitsFor n r.1 r.2).map (s.assignment :: ·)

/-- The assignments `operator()` gives in `do … while (++search)`. -/
def visits (s : AnySearch) (draws : Draws) : Option (List LitVec) :=
  s.visitsFor (s.size - s.done) draws

/-- The second search is the first one after some calls of `operator++`. -/
inductive Reaches (s : AnySearch) : AnySearch → Prop
  | refl : Reaches s s
  | step {t u : AnySearch} {draws rest : Draws} : Reaches s t → ¬ t.AtEnd →
      t.step draws = some (u, rest) → Reaches s u

end AnySearch

/-- `createAutoRandomSearch(vars, total)`. -/
def createAutoRandomSearch (vars : List ℕ) (total : ℕ) (draws : Draws) :
    Option (AnySearch × Draws) :=
  if vars.length ≤ 63 then (uniqueSearch vars total draws).map fun r => (.unique r.1, r.2)
  else (randomSearch vars total draws).map fun r => (.random r.1, r.2)

/-! ### What a run visits -/

/-- The number that has the signs as binary digits, the first one the least significant. -/
def signValue : List Bool → ℕ
  | [] => 0
  | b :: σ => b.toNat + 2 * signValue σ

theorem bits_signValue (σ : List Bool) : bits σ.length (signValue σ) = σ := by
  induction σ with
  | nil => rfl
  | cons b σ ih =>
      have hbit : signValue (b :: σ) = Nat.bit b (signValue σ) := by
        rw [signValue, Nat.bit_val, Nat.add_comm]
      rw [bits, List.length_cons, List.range_succ_eq_map, List.map_cons, List.map_map, hbit,
        Nat.testBit_bit_zero]
      refine congrArg _ (Eq.trans ?_ ih)
      refine List.map_congr_left ?_
      intro i _
      exact Nat.testBit_bit_succ ..

theorem signValue_lt (σ : List Bool) : signValue σ < 2 ^ σ.length := by
  induction σ with
  | nil => exact Nat.one_pos
  | cons b σ ih =>
      have := Bool.toNat_le b
      rw [signValue, List.length_cons, Nat.pow_succ]
      omega

@[simp] theorem length_bits (n k : ℕ) : (bits n k).length = n := by
  simp [bits]

theorem signValue_bits {n k : ℕ} (hk : k < 2 ^ n) : signValue (bits n k) = k := by
  have hlt := signValue_lt (bits n k)
  have hbits := bits_signValue (bits n k)
  rw [length_bits] at hlt hbits
  exact bits_inj hlt hk hbits

theorem setAssignment_signAssignment {vars : List ℕ} (hn : vars.length ≤ 63) (j k : ℕ) :
    setAssignment (signAssignment vars j) k = signAssignment vars k := by
  rw [setAssignment_eq_encode (by simp [signAssignment]; omega), ← encode_map_mkLit,
    encode_encode, encode_map_mkLit]

theorem signAssignment_inj {vars : List ℕ} {j k : ℕ} (hj : j < 2 ^ vars.length)
    (hk : k < 2 ^ vars.length) (h : signAssignment vars j = signAssignment vars k) : j = k := by
  refine bits_inj hj hk ?_
  rw [← map_sign_signAssignment, ← map_sign_signAssignment, h]

namespace UniqueSearch

variable {vars : List ℕ} {s t : UniqueSearch} {draws rest : Draws} {n : ℕ}

/-- The loop leaves with its first sample or with one it drew, and not with a visited one. -/
theorem drawUnvisited_spec {visited : Finset ℕ} {lo hi sample y : ℕ}
    (h : drawUnvisited visited lo hi sample draws = some (y, rest)) :
    y ∉ visited ∧ (y = sample ∨ y ∈ Finset.Icc lo hi) := by
  induction draws generalizing sample with
  | nil =>
      simp only [drawUnvisited] at h
      split at h
      · cases h
      · cases h
        exact ⟨‹_›, .inl rfl⟩
  | cons x draws ih =>
      simp only [drawUnvisited] at h
      split at h
      · split at h
        · rename_i hx
          obtain ⟨h₁, h₂⟩ := ih h
          refine ⟨h₁, .inr ?_⟩
          rcases h₂ with rfl | h₂
          · exact Finset.mem_Icc.mpr hx
          · exact h₂
        · cases h
      · cases h
        exact ⟨‹_›, .inl rfl⟩

/-- Without a visited first sample nothing is drawn. -/
theorem drawUnvisited_self {visited : Finset ℕ} {lo hi sample : ℕ} (h : sample ∉ visited)
    (draws : Draws) : drawUnvisited visited lo hi sample draws = some (sample, draws) := by
  cases draws <;> simp [drawUnvisited, h]

/-- A sample that was visited is replaced by the first draw, if that one was not. -/
theorem drawUnvisited_cons {visited : Finset ℕ} {lo hi sample x : ℕ} (h : sample ∈ visited)
    (hx : lo ≤ x ∧ x ≤ hi) (hv : x ∉ visited) (draws : Draws) :
    drawUnvisited visited lo hi sample (x :: draws) = some (x, draws) := by
  rw [drawUnvisited, if_pos h, if_pos hx, drawUnvisited_self hv]

/-- The positions visited so far: as many as the steps made, and `_first` is one of them. -/
structure Good (vars : List ℕ) (s : UniqueSearch) : Prop where
  assignment_eq : ∃ x, s.assignment = signAssignment vars x
  visited_sub : s.visited ⊆ Finset.Icc s.first s.last
  first_mem : s.first ∈ s.visited
  card_eq : s.visited.card = s.done + 1
  last_eq : s.last + 1 = s.first + s.total
  lt : s.done < s.total

/-- Where a run begins: at `_first`. -/
structure Begun (vars : List ℕ) (s : UniqueSearch) : Prop where
  assignment_eq : s.assignment = signAssignment vars s.first
  visited_eq : s.visited = {s.first}
  done_eq : s.done = 0
  last_eq : s.last + 1 = s.first + s.total
  pos : 0 < s.total

theorem Begun.good (h : s.Begun vars) : s.Good vars where
  assignment_eq := ⟨_, h.assignment_eq⟩
  visited_sub := by
    have := h.last_eq
    have := h.pos
    rw [h.visited_eq, Finset.singleton_subset_iff, Finset.mem_Icc]
    omega
  first_mem := by
    rw [h.visited_eq]
    exact Finset.mem_singleton_self _
  card_eq := by rw [h.visited_eq, Finset.card_singleton, h.done_eq]
  last_eq := h.last_eq
  lt := h.done_eq ▸ h.pos

/-- **The loop has something to find**: as long as steps are left, so are unvisited positions. -/
theorem Good.exists_not_visited (h : s.Good vars) (hd : s.done + 1 < s.total) :
    ∃ v, s.first + 1 ≤ v ∧ v ≤ s.last ∧ v ∉ s.visited := by
  have hcard : s.visited.card < (Finset.Icc s.first s.last).card := by
    have := h.last_eq
    rw [Nat.card_Icc, h.card_eq]
    omega
  obtain ⟨v, hv, hnot⟩ := Finset.exists_mem_notMem_of_card_lt_card hcard
  have hne : v ≠ s.first := by
    rintro rfl
    exact hnot h.first_mem
  have := Finset.mem_Icc.mp hv
  exact ⟨v, by omega, this.2, hnot⟩

/-- What one call of `_advance_us` on a good search does. -/
theorem Good.advanceUs (hn : vars.length ≤ 63) (h : s.Good vars)
    (ha : s.advanceUs draws = some (t, rest)) :
    ∃ x ∈ Finset.Icc s.first s.last, x ∉ s.visited ∧
      t = { s with visited := insert x s.visited, assignment := signAssignment vars x } := by
  obtain ⟨⟨x, draws'⟩, hx, he⟩ := Option.map_eq_some_iff.mp ha
  obtain ⟨rfl, -⟩ := Prod.mk.inj he
  obtain ⟨hnot, hx⟩ := drawUnvisited_spec hx
  obtain ⟨y, hy⟩ := h.assignment_eq
  have hne : x ≠ s.first := by
    rintro rfl
    exact hnot h.first_mem
  refine ⟨x, ?_, hnot, ?_⟩
  · have := Finset.mem_Icc.mp (hx.resolve_left hne)
    exact Finset.mem_Icc.mpr ⟨by omega, this.2⟩
  · rw [hy, setAssignment_signAssignment hn]

/-- `operator++` keeps a search good. -/
theorem Good.step (hn : vars.length ≤ 63) (h : s.Good vars)
    (hd : ¬ (AnySearch.unique s).AtEnd)
    (ha : s.advanceUs draws = some (t, rest)) : Good vars { t with done := s.done + 1 } := by
  obtain ⟨x, hx, hnot, rfl⟩ := h.advanceUs hn ha
  have hlt := h.lt
  simp only [AnySearch.AtEnd, AnySearch.done, AnySearch.size, not_or] at hd
  refine ⟨⟨x, rfl⟩, ?_, Finset.mem_insert_of_mem h.first_mem, ?_, h.last_eq, ?_⟩
  · exact Finset.insert_subset hx h.visited_sub
  · rw [Finset.card_insert_of_notMem hnot, h.card_eq]
  · show s.done + 1 < s.total
    omega

/-- **A run** goes on through different unvisited positions, until there are no more. -/
theorem Good.visitsFor (hn : vars.length ≤ 63) (h : s.Good vars) (hle : s.total ≤ n + s.done)
    {visits : List LitVec} (hr : AnySearch.visitsFor n (.unique s) draws = some visits) :
    ∃ xs : List ℕ, visits = s.assignment :: xs.map (signAssignment vars) ∧ xs.Nodup ∧
      (∀ x ∈ xs, x ∈ Finset.Icc s.first s.last ∧ x ∉ s.visited) ∧
      s.done + 1 + xs.length = s.total := by
  induction n generalizing s draws visits with
  | zero =>
      have := h.lt
      omega
  | succ n ih =>
      have hlt := h.lt
      simp only [AnySearch.visitsFor] at hr
      split at hr
      · rename_i hend
        cases hr
        simp only [AnySearch.AtEnd, AnySearch.done, AnySearch.size] at hend
        exact ⟨[], rfl, List.nodup_nil, by simp, by simp only [List.length_nil]; omega⟩
      · rename_i hend
        obtain ⟨⟨t, rest⟩, hs, hr⟩ := Option.bind_eq_some_iff.mp hr
        obtain ⟨visits, hv, rfl⟩ := Option.map_eq_some_iff.mp hr
        obtain ⟨⟨u, rest'⟩, hu, he⟩ := Option.map_eq_some_iff.mp hs
        obtain ⟨rfl, rfl⟩ := Prod.mk.inj he
        have hgood := h.step hn hend hu
        obtain ⟨x, hx, hnot, rfl⟩ := h.advanceUs hn hu
        obtain ⟨xs, rfl, hnodup, hxs, hlen⟩ := ih hgood (by simp only; omega) hv
        -- `x` is marked as visited, so what comes later is different
        refine ⟨x :: xs, rfl, ?_, ?_, ?_⟩
        · refine List.nodup_cons.mpr ⟨?_, hnodup⟩
          intro hmem
          exact (hxs x hmem).2 (Finset.mem_insert_self _ _)
        · refine List.forall_mem_cons.mpr ⟨⟨hx, hnot⟩, ?_⟩
          intro y hy
          obtain ⟨h₁, h₂⟩ := hxs y hy
          exact ⟨h₁, fun hmem => h₂ (Finset.mem_insert_of_mem hmem)⟩
        · simp only [List.length_cons] at hlen ⊢
          omega

/-- **A whole run** visits the positions of the search, in some order. -/
theorem Begun.visits (hn : vars.length ≤ 63) (h : s.Begun vars) {visits : List LitVec}
    (hr : (AnySearch.unique s).visits draws = some visits) :
    ∃ xs : List ℕ, xs.Perm (List.range' s.first s.total) ∧
      visits = xs.map (signAssignment vars) := by
  obtain ⟨xs, rfl, hnodup, hxs, hlen⟩ := h.good.visitsFor hn
    (by simp only [AnySearch.size, AnySearch.done]; omega) hr
  refine ⟨s.first :: xs, ?_, by rw [List.map_cons, h.assignment_eq]⟩
  have hnodup' : (s.first :: xs).Nodup := by
    refine List.nodup_cons.mpr ⟨?_, hnodup⟩
    intro hmem
    exact (hxs _ hmem).2 h.good.first_mem
  have hsub : s.first :: xs ⊆ List.range' s.first s.total := by
    intro x hx
    have hlast := h.last_eq
    have hpos := h.pos
    rw [List.mem_range'_1]
    rcases List.mem_cons.mp hx with rfl | hx
    · omega
    · have := Finset.mem_Icc.mp (hxs x hx).1
      omega
  -- there are as many different positions as the search has: they are all of them
  refine (hnodup'.subperm hsub).perm_of_length_le ?_
  have := h.done_eq
  rw [List.length_range', List.length_cons]
  omega

/-- `_reset`, and the constructor, go to `_first` and draw nothing. -/
theorem reset_eq (s : UniqueSearch) (draws : Draws) : s.reset draws = some
    ({ s with visited := {s.first}, assignment := setAssignment s.assignment s.first }, draws) := by
  simp [reset, advanceUs, drawUnvisited_self]

/-- Some draws end every loop. -/
theorem Good.exists_visits (hn : vars.length ≤ 63) (h : s.Good vars) (n : ℕ) :
    ∃ draws visits, AnySearch.visitsFor n (.unique s) draws = some visits := by
  induction n generalizing s with
  | zero => exact ⟨[], _, rfl⟩
  | succ n ih =>
      by_cases hend : (AnySearch.unique s).AtEnd
      · exact ⟨[], _, by rw [AnySearch.visitsFor, if_pos hend]⟩
      · have hlt := h.lt
        have hmore : s.done + 1 < s.total := by
          simp only [AnySearch.AtEnd, AnySearch.done, AnySearch.size, not_or] at hend
          omega
        -- with a value that was not visited the loop ends at its first draw
        obtain ⟨v, hlo, hhi, hv⟩ := h.exists_not_visited hmore
        have hadv : ∀ draws, s.advanceUs (v :: draws) =
            some ({ s with visited := insert v s.visited,
                           assignment := setAssignment s.assignment v }, draws) := by
          intro draws
          rw [UniqueSearch.advanceUs, drawUnvisited_cons h.first_mem ⟨hlo, hhi⟩ hv]
          rfl
        obtain ⟨draws, visits, hr⟩ := ih (h.step hn hend (hadv []))
        refine ⟨v :: draws, s.assignment :: visits, ?_⟩
        rw [AnySearch.visitsFor, if_neg hend, AnySearch.step, hadv, Option.map_some,
          Option.bind_some, hr]
        rfl

/-- What `operator++` reaches from a good search. -/
theorem Good.reaches (hn : vars.length ≤ 63) (h : s.Good vars) {a : AnySearch}
    (hr : (AnySearch.unique s).Reaches a) :
    ∃ t, a = .unique t ∧ t.Good vars ∧ t.total = s.total := by
  induction hr with
  | refl => exact ⟨s, rfl, h, rfl⟩
  | step _ hend hs ih =>
      obtain ⟨t, rfl, ht, htotal⟩ := ih
      obtain ⟨⟨u, _⟩, hu, he⟩ := Option.map_eq_some_iff.mp hs
      obtain ⟨rfl, -⟩ := Prod.mk.inj he
      refine ⟨_, rfl, ht.step hn hend hu, ?_⟩
      obtain ⟨x, -, -, rfl⟩ := ht.advanceUs hn hu
      exact htotal

/-- Each time the loop draws in a run, a value of its range was not visited; it draws when
`operator++` is called before the end. -/
def NeverStuck (s : UniqueSearch) : Prop :=
  ∀ t, (AnySearch.unique s).Reaches (.unique t) → ¬ (AnySearch.unique t).AtEnd →
    ∃ v, t.first + 1 ≤ v ∧ v ≤ t.last ∧ v ∉ t.visited

theorem Good.neverStuck (hn : vars.length ≤ 63) (h : s.Good vars) : s.NeverStuck := by
  intro t hr hend
  obtain ⟨_, he, ht, -⟩ := h.reaches hn hr
  cases he
  have hlt := ht.lt
  refine ht.exists_not_visited ?_
  simp only [AnySearch.AtEnd, AnySearch.done, AnySearch.size, not_or] at hend
  omega

/-- An empty search makes no step. -/
theorem neverStuck_empty (h : s.total = 0) : s.NeverStuck := by
  have hall : ∀ a, (AnySearch.unique s).Reaches a → a = .unique s := by
    intro a hr
    induction hr with
    | refl => rfl
    | step _ hend _ ih =>
        subst ih
        exact absurd (.inr h) hend
  intro t hr hend
  cases hall _ hr
  exact absurd (.inr h) hend

/-- The part `index` of `num_split`: it begins at its own interval, or it is empty. -/
theorem Good.splitSearch (hn : vars.length ≤ 63) (h : s.Good vars) {numSplit index : ℕ}
    (hi : index < numSplit) :
    ∃ part : UniqueSearch,
      (∀ draws, (AnySearch.unique s).splitSearch numSplit index draws =
        some (.unique part, draws)) ∧
      (part.Begun vars ∧
          part.first = (Search.getStartAndTodo s.total numSplit index).1 ∧
          part.total = (Search.getStartAndTodo s.total numSplit index).2 ∨
        part.total = 0 ∧ (Search.getStartAndTodo s.total numSplit index).2 = 0) := by
  by_cases hlt : (Search.getStartAndTodo s.total numSplit index).1 < s.total
  · have hpos := Search.getStartAndTodo_pos_of_lt hi hlt
    obtain ⟨x, hx⟩ := h.assignment_eq
    let r := Search.getStartAndTodo s.total numSplit index
    refine ⟨⟨r.2, 0, r.1, r.1 + r.2 - 1, setAssignment s.assignment r.1, {r.1}⟩, ?_,
      .inl ⟨⟨?_, rfl, rfl, ?_, hpos⟩, rfl, rfl⟩⟩
    · intro draws
      simp only [AnySearch.splitSearch, if_pos hlt, reset_eq]
      rfl
    · simp only [hx]
      exact setAssignment_signAssignment hn _ _
    · exact Nat.sub_add_cancel (le_add_left hpos)
  · have hle := Search.getStartAndTodo_add_le s.total hi
    refine ⟨{ s with total := 0 }, ?_, .inr ⟨rfl, by omega⟩⟩
    intro draws
    simp only [AnySearch.splitSearch, if_neg hlt]

/-- The numbers below `total` encode different assignments. -/
theorem nodup_signAssignments {total : ℕ} (h : total ≤ 2 ^ vars.length) :
    ((List.range total).map (signAssignment vars)).Nodup := by
  refine List.Nodup.map_on ?_ List.nodup_range
  intro i hi j hj e
  have hi' := List.mem_range.mp hi
  have hj' := List.mem_range.mp hj
  exact signAssignment_inj (by omega) (by omega) e

/-- The non-empty parts visit together what the numbers below `total` encode. -/
theorem perm_visits_parts (hn : vars.length ≤ 63) {total numSplit : ℕ} (hsplit : 1 ≤ numSplit)
    {part : ℕ → UniqueSearch}
    (hpart : ∀ i < numSplit, (part i).Begun vars ∧
        (part i).first = (Search.getStartAndTodo total numSplit i).1 ∧
        (part i).total = (Search.getStartAndTodo total numSplit i).2 ∨
      (part i).total = 0 ∧ (Search.getStartAndTodo total numSplit i).2 = 0)
    {visits : ℕ → List LitVec} (hvisits : ∀ i < numSplit, (part i).total ≠ 0 →
      ∃ draws, (AnySearch.unique (part i)).visits draws = some (visits i)) :
    ((List.range numSplit).flatMap fun i => if (part i).total = 0 then [] else visits i).Perm
      ((List.range total).map (signAssignment vars)) := by
  rw [← Search.flatMap_intervals total hsplit]
  refine List.Perm.flatMap_left _ ?_
  intro i hi
  have hi' := List.mem_range.mp hi
  rcases hpart i hi' with ⟨hb, hf, htodo⟩ | ⟨hzero, htodo⟩
  · rw [if_neg hb.pos.ne']
    obtain ⟨draws, hr⟩ := hvisits i hi' hb.pos.ne'
    obtain ⟨xs, hxs, he⟩ := hb.visits hn hr
    rw [he, ← hf, ← htodo]
    exact hxs.map _
  · rw [if_pos hzero, htodo]
    rfl

end UniqueSearch

/-- The constructor. -/
theorem uniqueSearch_begun {vars : List ℕ} (hn : vars.length ≤ 63) {total : ℕ} (h₁ : 1 ≤ total)
    (h₂ : total ≤ 2 ^ vars.length) :
    ∃ s : UniqueSearch, (∀ draws, uniqueSearch vars total draws = some (s, draws)) ∧
      s.Begun vars ∧ s.first = 0 ∧ s.total = total := by
  have hlt : 2 ^ vars.length ≤ 2 ^ 63 := Nat.pow_le_pow_right (by decide) hn
  have hlast : (total + 2 ^ 64 - 1) % 2 ^ 64 = total - 1 := by omega
  refine ⟨_, fun draws => UniqueSearch.reset_eq
    ⟨total, 0, 0, (total + 2 ^ 64 - 1) % 2 ^ 64, vars.map fun v => mkLit v false, ∅⟩ draws,
    ⟨?_, rfl, rfl, ?_, h₁⟩, rfl, rfl⟩
  · simp only
    rw [setAssignment_eq_encode (by simp; omega), encode_map_mkLit]
  · simp only [hlast]
    omega

/-- **A `UniqueSearch` visits different assignments.**  Whatever is drawn, a run that ends visits
`total` of them, and so do the non-empty parts together, split at the beginning or after any number
of steps; and where a loop draws, its range has a value that was not visited. -/
theorem uniqueSearch_visits (vars : List ℕ) (hn : vars.length ≤ 63) (total : ℕ) (h₁ : 1 ≤ total)
    (h₂ : total ≤ 2 ^ vars.length) (numSplit : ℕ) (hsplit : 1 ≤ numSplit) :
    ∃ s : UniqueSearch, (∀ draws, uniqueSearch vars total draws = some (s, draws)) ∧
      (∀ draws visits, (AnySearch.unique s).visits draws = some visits →
        visits.length = total ∧ visits.Nodup) ∧
      s.NeverStuck ∧
      ∀ t, (AnySearch.unique s).Reaches t → ∃ part : ℕ → UniqueSearch,
        (∀ i < numSplit, ∀ draws, t.splitSearch numSplit i draws =
          some (.unique (part i), draws)) ∧
        (∀ i < numSplit, (part i).NeverStuck) ∧
        ∀ visits : ℕ → List LitVec,
          (∀ i < numSplit, (part i).total ≠ 0 → ∃ draws,
            (AnySearch.unique (part i)).visits draws = some (visits i)) →
          let together := (List.range numSplit).flatMap fun i =>
            if (part i).total = 0 then [] else visits i
          together.Nodup ∧ together.length = total := by
  have hnodup := UniqueSearch.nodup_signAssignments h₂
  obtain ⟨s, hs, hbegun, hfirst, htotal⟩ := uniqueSearch_begun hn h₁ h₂
  refine ⟨s, hs, ?_, hbegun.good.neverStuck hn, ?_⟩
  · intro draws visits hr
    obtain ⟨xs, hperm, rfl⟩ := hbegun.visits hn hr
    rw [hfirst, htotal, ← List.range_eq_range'] at hperm
    have hperm' := hperm.map (signAssignment vars)
    exact ⟨by rw [hperm'.length_eq]; simp, hperm'.nodup_iff.mpr hnodup⟩
  · intro a hr
    obtain ⟨t, rfl, ht, htt⟩ := hbegun.good.reaches hn hr
    rw [htotal] at htt
    have : Nonempty UniqueSearch := ⟨s⟩
    choose! part hpart hcases using fun i (hi : i < numSplit) => ht.splitSearch hn hi
    rw [htt] at hcases
    refine ⟨part, hpart, ?_, ?_⟩
    · intro i hi
      rcases hcases i hi with ⟨hb, -, -⟩ | ⟨hzero, -⟩
      · exact hb.good.neverStuck hn
      · exact UniqueSearch.neverStuck_empty hzero
    · intro visits hvisits together
      have hperm := UniqueSearch.perm_visits_parts hn hsplit hcases hvisits
      exact ⟨hperm.nodup_iff.mpr hnodup, by rw [hperm.length_eq]; simp⟩

/-- Two samples of the four assignments of two variables. -/
theorem uniqueSearch_visits_two :
    ∃ s : UniqueSearch, (∀ draws, uniqueSearch [7, 8] 2 draws = some (s, draws)) ∧
      ∀ draws visits, (AnySearch.unique s).visits draws = some visits →
        visits.length = 2 ∧ visits.Nodup := by
  obtain ⟨s, hs, hvisits, -, -⟩ :=
    uniqueSearch_visits [7, 8] (by decide) 2 (by decide) (by decide) 2 (by decide)
  exact ⟨s, hs, hvisits⟩

/-! ### The assignments that are never visited -/

/-- For some draws, the run of `createAutoRandomSearch(vars, total)` visits the signs `σ`. -/
def CanVisit (vars : List ℕ) (total : ℕ) (σ : List Bool) : Prop :=
  ∃ draws s rest visits, createAutoRandomSearch vars total draws = some (s, rest) ∧
    s.visits rest = some visits ∧ σ ∈ visits.map (List.map Lit.sign)

/-- The assignments met are those of the numbers below `total`, whatever is drawn. -/
theorem canVisit_iff_lt {vars : List ℕ} (hn : vars.length ≤ 63) {total : ℕ} (h₁ : 1 ≤ total)
    (h₂ : total ≤ 2 ^ vars.length) {σ : List Bool} (hσ : σ.length = vars.length) :
    CanVisit vars total σ ↔ signValue σ < total := by
  obtain ⟨s, hs, hbegun, hfirst, htotal⟩ := uniqueSearch_begun hn h₁ h₂
  have hcreate : ∀ draws, createAutoRandomSearch vars total draws = some (.unique s, draws) := by
    intro draws
    rw [createAutoRandomSearch, if_pos hn, hs]
    rfl
  have hmem : ∀ draws visits, (AnySearch.unique s).visits draws = some visits →
      (σ ∈ visits.map (List.map Lit.sign) ↔ signValue σ < total) := by
    intro draws visits hr
    obtain ⟨xs, hperm, rfl⟩ := hbegun.visits hn hr
    rw [hfirst, htotal, ← List.range_eq_range'] at hperm
    rw [List.map_map, List.mem_map]
    constructor
    · rintro ⟨x, hx, he⟩
      have hlt := List.mem_range.mp (hperm.mem_iff.mp hx)
      have hval := signValue_lt σ
      rw [hσ] at hval
      have hbits : bits vars.length (signValue σ) = σ := hσ ▸ bits_signValue σ
      rw [Function.comp_apply, map_sign_signAssignment] at he
      rwa [bits_inj hval (by omega) (hbits.trans he.symm)]
    · intro hlt
      refine ⟨signValue σ, hperm.mem_iff.mpr (List.mem_range.mpr hlt), ?_⟩
      rw [Function.comp_apply, map_sign_signAssignment, ← hσ, bits_signValue]
  constructor
  · rintro ⟨draws, a, rest, visits, ha, hr, hv⟩
    rw [hcreate] at ha
    cases ha
    exact (hmem _ _ hr).mp hv
  · intro hlt
    obtain ⟨draws, visits, hr⟩ := hbegun.good.exists_visits hn (s.total - s.done)
    exact ⟨draws, _, draws, visits, hcreate draws, hr, (hmem _ _ hr).mpr hlt⟩

/-- **Which assignments a random search can visit.**  For at most 63 variables it is a
`UniqueSearch`, and can visit the assignments that encode the numbers below `total`: all of them
if `total` is `2 ^ n`, and otherwise not all. -/
theorem createAutoRandomSearch_canVisit_iff (vars : List ℕ) (hn : vars.length ≤ 63) (total : ℕ)
    (h₁ : 1 ≤ total) (h₂ : total ≤ 2 ^ vars.length) :
    (∀ σ : List Bool, σ.length = vars.length →
      (CanVisit vars total σ ↔ signValue σ < total)) ∧
    ((∀ σ : List Bool, σ.length = vars.length → CanVisit vars total σ) ↔
      total = 2 ^ vars.length) := by
  refine ⟨fun σ hσ => canVisit_iff_lt hn h₁ h₂ hσ, ?_, ?_⟩
  · intro hall
    by_contra hne
    obtain ⟨σ, hσ, hval⟩ : ∃ σ : List Bool, σ.length = vars.length ∧ signValue σ = total :=
      ⟨bits vars.length total, length_bits .., signValue_bits (by omega)⟩
    have := (canVisit_iff_lt hn h₁ h₂ hσ).mp (hall σ hσ)
    omega
  · rintro rfl σ hσ
    exact (canVisit_iff_lt hn h₁ le_rfl hσ).mpr (hσ ▸ signValue_lt σ)

/-- Two samples over two variables: the second variable is never negative. -/
theorem createAutoRandomSearch_corner :
    ¬ CanVisit [0, 1] 2 [false, true] ∧ ¬ CanVisit [0, 1] 2 [true, true] := by
  refine ⟨?_, ?_⟩ <;> rw [canVisit_iff_lt (by decide) (by decide) (by decide) rfl] <;> decide

/-- With all four samples every assignment can be visited. -/
theorem createAutoRandomSearch_canVisit_four : CanVisit [0, 1] 4 [false, true] :=
  (createAutoRandomSearch_canVisit_iff [0, 1] (by decide) 4 (by decide) (by decide)).2.mpr rfl _ rfl

end Parsat
