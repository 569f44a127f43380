import Mathlib.Algebra.BigOperators.Group.List.Basic
import Mathlib.Algebra.Order.BigOperators.GroupWithZero.List
import Mathlib.Algebra.Order.Ring.Nat
import Mathlib.Data.Nat.Bitwise
import Mathlib.Tactic.Ring
import Parsat.Library.Odometer
import Parsat.Sat.Literal

/-!
# Search — enumerating assumptions

`core::search::Search` with its subclasses `SingleSearch`, `FullSearch` and `CartesianSearch`: a
counter over `[0, total)` and the assignment that belongs to it.  The base class counts, the
subclass advances the assignment, and `split_search` clones the search and resets the clone to an
interval of the counter.

`entry k` is the assignment at position `k`, and `Pos s k` says that `s` stands there.  One step
moves from `k` to `k + 1` (`Pos.advance`), a reset moves to any position (`Pos.reset`), so

* `Fresh.visits`: a fresh search visits `entry 0, …, entry (total - 1)`;
* `Fresh.visits_split`: its part `i` of `n` visits the entries of its own interval, and
* `Fresh.flatten_visits_split`: the intervals of all parts follow each other without a gap.

The vectors of one list of a cartesian set must have one length (`Uniform`): the buffer of a
`CartesianSearch` is as long as the first vectors of the lists together, and a shorter vector would
leave the end of an earlier one in it.
-/

namespace Parsat

/-- `CartesianSearch::cartesian_set_t`. -/
abbrev CartesianSet := List (List LitVec)

/-- The subclass of a search, with the fields it adds. -/
inductive Kind where
  | single
  | full
  | cartesian (set : CartesianSet) (indices : List ℕ)

/-- `core::search::Search`; `_last` is written and never read. -/
structure Search where
  kind : Kind
  total : ℕ
  done : ℕ
  first : ℕ
  assignment : LitVec

/-! ### FullSearch -/

/-- The literals of `vec` with the binary digits of `value` as signs. -/
def encode (vec : LitVec) (value : ℕ) : LitVec :=
  vec.mapIdx fun i p => mkLit p.var (value.testBit i)

/-- `Search::_set_assignment`; the shift of `1ULL` takes its distance modulo the width. -/
def setAssignment (vec : LitVec) (value : ℕ) : LitVec :=
  vec.mapIdx fun i p => mkLit p.var (value.testBit (i % 64))

/-- `next_assignment`: flip the negative literals up to the first positive one, and that one. -/
def nextAssignment : LitVec → LitVec
  | [] => []
  | p :: ps => if p.sign then -p :: nextAssignment ps else mkLit p.var true :: ps

/-- `FullSearch(vars)`; the shift of `1ULL` takes its distance modulo the width. -/
def fullSearch (vars : List ℕ) : Search where
  kind := .full
  total := 2 ^ (vars.length % 64)
  done := 0
  first := 0
  assignment := vars.map fun v => mkLit v false

/-- `Search::total_size`. -/
def totalSize (mask : List Bool) : ℕ := 2 ^ (mask.count true % 64)

/-- `FullSearch(var_view, bit_mask)`. -/
def fullSearchMask (view : List ℕ) (mask : List Bool) : Search where
  kind := .full
  total := totalSize mask
  done := 0
  first := 0
  assignment := ((view.zip mask).filter Prod.snd).map fun x => mkLit x.1 false

/-! ### CartesianSearch -/

/-- Write `a` into the buffer from `offset` on. -/
def writeAt : LitVec → ℕ → LitVec → LitVec
  | buf, _, [] => buf
  | buf, offset, p :: ps => writeAt (buf.set offset p) (offset + 1) ps

/-- The second loop of `_set_cur`. -/
def writeFrom : CartesianSet → List ℕ → ℕ → LitVec → LitVec
  | l :: set, i :: is, offset, buf =>
    writeFrom set is (offset + (l.getD i []).length) (writeAt buf offset (l.getD i []))
  | _, _, _, buf => buf

/-- The vectors the indices point at. -/
def chosen (set : CartesianSet) (indices : List ℕ) : List LitVec :=
  List.zipWith (fun l i => l.getD i []) set indices

/-- `_set_cur`. -/
def setCur (set : CartesianSet) (indices : List ℕ) (start : ℕ) (buf : LitVec) : LitVec :=
  writeFrom (set.drop start) (indices.drop start)
    (((chosen set indices).take start).map List.length).sum buf

/-- The list sizes, the last one first: `_advance` and `_reset` start at the last list. -/
def radices (set : CartesianSet) : List ℕ := (set.map List.length).reverse

/-- `CartesianSearch(cartesian_set)`; the size is accumulated in 32 bits. -/
def cartesianSearch (set : CartesianSet) : Search where
  kind := .cartesian set (List.replicate set.length 0)
  total := set.foldl (fun size v => size * v.length % 2 ^ 32) 1
  done := 0
  first := 0
  assignment := setCur set (List.replicate set.length 0) 0
    (List.replicate (set.map fun v => (v.headD []).length).sum (mkLit 0 false))

/-! ### The base class -/

namespace Search

/-- `createSingleSearch()`. -/
def single : Search := ⟨.single, 1, 0, 0, []⟩

/-- `_advance`. -/
def advance (s : Search) : Search :=
  match s.kind with
  | .single => s
  | .full => { s with assignment := nextAssignment s.assignment }
  | .cartesian set indices =>
    let is := (Odometer.incr (radices set) indices.reverse).reverse
    let index := indices.length - 1 - Odometer.carries (radices set) indices.reverse
    { s with kind := .cartesian set is, assignment := setCur set is index s.assignment }

/-- `_reset`. -/
def reset (s : Search) : Search :=
  match s.kind with
  | .single => s
  | .full => { s with assignment := setAssignment s.assignment s.first }
  | .cartesian set _ =>
    let is := (Odometer.digits (radices set) s.first).reverse
    { s with kind := .cartesian set is, assignment := setCur set is 0 s.assignment }

/-- `clone()`: a cartesian search is built anew from its set. -/
def clone (s : Search) : Search :=
  match s.kind with
  | .single => single
  | .full => s
  | .cartesian set _ => cartesianSearch set

/-- `operator++`, `none` if it returns `false`. -/
def next (s : Search) : Option Search :=
  if s.done = s.total - 1 ∨ s.total = 0 then none
  else some { s.advance with done := s.done + 1 }

/-- `get_start_and_todo`. -/
def getStartAndTodo (total numSplit index : ℕ) : ℕ × ℕ :=
  let div := total / numSplit
  let rem := total % numSplit
  if index < rem then (index * (div + 1), div + 1)
  else (rem * (div + 1) + (index - rem) * div, div)

/-- `split_search`. -/
def splitSearch (s : Search) (numSplit index : ℕ) : Search :=
  let r := getStartAndTodo s.total numSplit index
  if r.1 < s.total then reset { s.clone with first := r.1, done := 0, total := r.2 }
  else { s.clone with total := 0 }

/-- `empty()`. -/
def isEmpty (s : Search) : Bool := s.total = 0

/-- The non-empty searches among the parts `split_search(num_split, 0), …` of a search. -/
def parts (s : Search) (numSplit : ℕ) : List Search :=
  ((List.range numSplit).map (s.splitSearch numSplit)).filter fun part => !part.isEmpty

/-- The assignments `operator()` gives in `do … while (++search)`, for at most `n` steps. -/
def visitsFor : ℕ → Search → List LitVec
  | 0, s => [s.assignment]
  | n + 1, s =>
    s.assignment :: match s.next with
      | none => []
      | some t => visitsFor n t

/-- The assignments `operator()` gives in `do … while (++search)`. -/
def visits (s : Search) : List LitVec := visitsFor (s.total - s.done) s

end Search

/-! ### Positions -/

/-- The vectors of each list have one length, and no list is empty. -/
def Uniform (set : CartesianSet) : Prop :=
  ∀ l ∈ set, l ≠ [] ∧ ∀ a ∈ l, a.length = (l.headD []).length

/-- The assignment at position `k` of a cartesian search. -/
def cartesianEntry (set : CartesianSet) (k : ℕ) : LitVec :=
  (chosen set (Odometer.digits (radices set) k).reverse).flatten

namespace Search

/-- The assignment at position `k`. -/
def entry (s : Search) (k : ℕ) : LitVec :=
  match s.kind with
  | .single => []
  | .full => encode s.assignment k
  | .cartesian set _ => cartesianEntry set k

/-- The search stands at position `k`. -/
structure Pos (s : Search) (k : ℕ) : Prop where
  assignment_eq : s.assignment = s.entry k
  indices_eq : ∀ set is, s.kind = .cartesian set is →
    Uniform set ∧ is = (Odometer.digits (radices set) k).reverse

/-- A search as the constructors leave it, where the size is exact. -/
inductive Fresh : Search → Prop
  | single : Fresh single
  | full {vars : List ℕ} : vars.length ≤ 63 → Fresh (fullSearch vars)
  | cartesian {set : CartesianSet} : Uniform set → (set.map List.length).prod < 2 ^ 32 →
      Fresh (cartesianSearch set)

end Search

/-! ### One step of a full search -/

section Full

variable {vec : LitVec} {k : ℕ}

theorem encode_cons (p : Lit) (ps : LitVec) (k : ℕ) :
    encode (p :: ps) k = mkLit p.var (k.testBit 0) :: encode ps (k / 2) := by
  simp only [encode, List.mapIdx_cons]
  congr 2
  funext i q
  rw [Nat.testBit_succ]

theorem nextAssignment_encode (vec : LitVec) (k : ℕ) :
    nextAssignment (encode vec k) = encode vec (k + 1) := by
  induction vec generalizing k with
  | nil => rfl
  | cons p ps ih =>
      simp only [encode_cons, Nat.testBit_zero, nextAssignment, mkLit, decide_eq_true_eq]
      by_cases h : k % 2 = 1
      · have h₁ : (k + 1) / 2 = k / 2 + 1 := by omega
        have h₂ : (k + 1) % 2 ≠ 1 := by omega
        rw [if_pos h, ih, h₁]
        simp only [h, h₂]
        rfl
      · have h₁ : (k + 1) / 2 = k / 2 := by omega
        have h₂ : (k + 1) % 2 = 1 := by omega
        simp [h, h₁, h₂]

theorem encode_encode (vec : LitVec) (j k : ℕ) :
    encode (encode vec j) k = encode vec k := by
  simp [encode, mkLit, Function.comp_def]

@[simp] theorem length_encode (vec : LitVec) (k : ℕ) :
    (encode vec k).length = vec.length := by
  simp [encode]

theorem setAssignment_eq_encode (h : vec.length ≤ 64) (k : ℕ) :
    setAssignment vec k = encode vec k := by
  refine List.ext_getElem (by simp [setAssignment]) ?_
  intro i hi _
  have : i % 64 = i := Nat.mod_eq_of_lt (by simp [setAssignment] at hi; omega)
  simp [setAssignment, encode, this]

theorem encode_map_zero (vars : List ℕ) :
    encode (vars.map fun v => mkLit v false) 0 = vars.map fun v => mkLit v false := by
  simp [encode, mkLit, List.ext_getElem_iff]

end Full

/-! ### The buffer of a cartesian search -/

section Buffer

variable {set : CartesianSet} {is : List ℕ}

theorem writeAt_append (x : LitVec) {y a : LitVec} (z : LitVec) (h : y.length = a.length) :
    writeAt (x ++ y ++ z) x.length a = x ++ a ++ z := by
  induction a generalizing x y with
  | nil =>
      obtain rfl := List.length_eq_zero_iff.mp h
      rfl
  | cons p a ih =>
      cases y with
      | nil => simp at h
      | cons q y =>
          have hset : (x ++ q :: y ++ z).set x.length p = x ++ [p] ++ y ++ z := by
            simp
          have hlen : x.length + 1 = (x ++ [p]).length := by simp
          rw [writeAt, hset, hlen, ih (x ++ [p]) (by simpa using h)]
          simp

/-- The rest of the buffer, written vector by vector over old vectors of the same lengths. -/
theorem writeFrom_append (x : LitVec) {olds : List LitVec} (h : set.length = is.length)
    (hlen : olds.map List.length = (chosen set is).map List.length) :
    writeFrom set is x.length (x ++ olds.flatten) = x ++ (chosen set is).flatten := by
  induction set generalizing is olds x with
  | nil =>
      have : olds = [] := by simpa [chosen] using hlen
      simp [this, writeFrom, chosen]
  | cons l set ih =>
      cases is with
      | nil => simp at h
      | cons i is =>
          cases olds with
          | nil => simp [chosen] at hlen
          | cons y olds =>
              simp only [chosen, List.zipWith_cons_cons, List.map_cons, List.cons.injEq] at hlen
              have hoff : x.length + (l.getD i []).length = (x ++ l.getD i []).length := by simp
              rw [writeFrom, List.flatten_cons, ← List.append_assoc, writeAt_append x _ hlen.1,
                hoff, ih (x ++ l.getD i []) (by simpa using h) hlen.2]
              simp [chosen]

theorem chosen_drop (set : CartesianSet) (is : List ℕ) (n : ℕ) :
    chosen (set.drop n) (is.drop n) = (chosen set is).drop n := by
  simp only [chosen, List.drop_zipWith]

/-- `_set_cur` writes the chosen vectors, if those it does not write are in place. -/
theorem setCur_eq (set : CartesianSet) (is : List ℕ) (olds : List LitVec) (n : ℕ)
    (h : set.length = is.length)
    (hlen : olds.map List.length = (chosen set is).map List.length)
    (htake : olds.take n = (chosen set is).take n) :
    setCur set is n olds.flatten = (chosen set is).flatten := by
  have hsplit : olds.flatten = ((chosen set is).take n).flatten ++ (olds.drop n).flatten := by
    rw [← htake, ← List.flatten_append, List.take_append_drop]
  have hoff : (((chosen set is).take n).map List.length).sum =
      (((chosen set is).take n).flatten).length := by rw [List.length_flatten]
  rw [setCur, hoff, hsplit, writeFrom_append _ (by simp [h])]
  · rw [chosen_drop, ← List.flatten_append, List.take_append_drop]
  · rw [chosen_drop, List.map_drop, List.map_drop, hlen]

/-- Indices inside the lists of a uniform set choose vectors of the lengths of the first ones. -/
theorem Uniform.chosen_lengths (hu : Uniform set)
    (hi : List.Forall₂ (· < ·) is (set.map List.length)) :
    (chosen set is).map List.length = set.map fun v => (v.headD []).length := by
  induction set generalizing is with
  | nil => simp [chosen]
  | cons l set ih =>
      cases hi with
      | @cons i _ is _ hi his =>
          obtain ⟨hl, hu⟩ := List.forall_mem_cons.mp hu
          have hget : l.getD i [] ∈ l := by
            rw [List.getD_eq_getElem _ _ hi]
            exact List.getElem_mem _
          have := ih hu his
          simp only [chosen] at this
          simp only [chosen, List.zipWith_cons_cons, List.map_cons, this, hl.2 _ hget]

theorem Uniform.radices_pos (hu : Uniform set) : ∀ b ∈ radices set, 0 < b := by
  intro b hb
  simp only [radices, List.mem_reverse, List.mem_map] at hb
  obtain ⟨l, hl, rfl⟩ := hb
  exact List.length_pos_iff.mpr (hu l hl).1

theorem Uniform.digits_lt (hu : Uniform set) (k : ℕ) :
    List.Forall₂ (· < ·) (Odometer.digits (radices set) k).reverse (set.map List.length) := by
  have h := List.rel_reverse (Odometer.digits_lt hu.radices_pos k)
  simpa only [radices, List.reverse_reverse] using h

theorem length_digits_radices (set : CartesianSet) (k : ℕ) :
    (Odometer.digits (radices set) k).reverse.length = set.length := by
  simp [radices]

/-- Writing the vectors of position `k` from the front. -/
theorem Uniform.setCur_zero (hu : Uniform set) (k : ℕ) {olds : List LitVec}
    (hlen : olds.map List.length = set.map fun v => (v.headD []).length) :
    setCur set (Odometer.digits (radices set) k).reverse 0 olds.flatten = cartesianEntry set k :=
  setCur_eq _ _ olds 0 (length_digits_radices set k).symm
    (hlen.trans (hu.chosen_lengths (hu.digits_lt k)).symm) rfl

theorem digits_zero (bs : List ℕ) : Odometer.digits bs 0 = List.replicate bs.length 0 := by
  induction bs with
  | nil => rfl
  | cons b bs ih => simp [Odometer.digits, ih, List.replicate_succ]

/-- The size of a cartesian search is the product modulo `2 ^ 32`. -/
theorem cartesianSearch_total (set : CartesianSet) :
    (cartesianSearch set).total = (set.map List.length).prod % 2 ^ 32 := by
  have h : ∀ acc < 2 ^ 32, set.foldl (fun size v => size * v.length % 2 ^ 32) acc =
      acc * (set.map List.length).prod % 2 ^ 32 := by
    induction set with
    | nil =>
        intro acc hacc
        rw [List.map_nil, List.prod_nil, Nat.mul_one, Nat.mod_eq_of_lt hacc]
        rfl
    | cons v set ih =>
        intro acc _
        rw [List.foldl_cons, ih _ (Nat.mod_lt _ (Nat.two_pow_pos 32)), List.map_cons,
          List.prod_cons, Nat.mod_mul_mod, Nat.mul_assoc]
  rw [cartesianSearch, h 1 (by decide), Nat.one_mul]

end Buffer

/-- A cartesian search starts with the first vectors, whatever its size. -/
theorem Uniform.pos_start {set : CartesianSet} (hu : Uniform set) :
    (cartesianSearch set).Pos 0 := by
  have h₀ : List.replicate set.length 0 = (Odometer.digits (radices set) 0).reverse := by
    simp [digits_zero, radices]
  have hbuf : List.replicate (set.map fun v => (v.headD []).length).sum (mkLit 0 false) =
      (set.map fun v => List.replicate (v.headD []).length (mkLit 0 false)).flatten := by
    symm
    rw [List.eq_replicate_iff]
    refine ⟨by simp [List.length_flatten, Function.comp_def], ?_⟩
    intro p hp
    obtain ⟨l, hl, hp⟩ := List.mem_flatten.mp hp
    obtain ⟨v, -, rfl⟩ := List.mem_map.mp hl
    exact List.eq_of_mem_replicate hp
  refine ⟨?_, ?_⟩
  · simp only [cartesianSearch, Search.entry, h₀, hbuf]
    exact hu.setCur_zero 0 (by simp)
  · simp only [cartesianSearch, Kind.cartesian.injEq]
    rintro _ _ ⟨rfl, rfl⟩
    exact ⟨hu, h₀⟩

/-! ### Runs -/

namespace Search

variable {s : Search} {k n i : ℕ}

theorem take_incr_reverse (rs ds : List ℕ) :
    ((Odometer.incr rs ds).reverse).take (ds.length - 1 - Odometer.carries rs ds) =
      ds.reverse.take (ds.length - 1 - Odometer.carries rs ds) := by
  have hle := Odometer.carries_le rs ds
  by_cases h : Odometer.carries rs ds = ds.length
  · simp [h]
  · rw [List.take_reverse, List.take_reverse, Odometer.length_incr]
    have hd : ds.length - (ds.length - 1 - Odometer.carries rs ds) =
        Odometer.carries rs ds + 1 := by omega
    rw [hd, Odometer.drop_incr]

/-- **One step** moves to the next position. -/
theorem Pos.advance (h : s.Pos k) : s.advance.Pos (k + 1) ∧ s.advance.entry = s.entry := by
  obtain ⟨kind, total, done, first, asg⟩ := s
  obtain ⟨ha, hi⟩ := h
  cases kind with
  | single => exact ⟨⟨ha, by simp [Search.advance]⟩, rfl⟩
  | full =>
      -- the buffer is a binary number, with the first literal as the lowest bit
      have hn : nextAssignment asg = encode asg (k + 1) := by
        have ha' : asg = encode asg k := ha
        rw [ha', nextAssignment_encode, encode_encode]
      refine ⟨⟨?_, by simp [Search.advance]⟩, funext ?_⟩
      · simp only [Search.advance, entry, hn, encode_encode]
      · intro j
        simp only [Search.advance, entry, hn, encode_encode]
  | cartesian set is =>
      obtain ⟨hu, rfl⟩ := hi set is rfl
      have ha' : asg = cartesianEntry set k := ha
      have hincr : Odometer.incr (radices set) (Odometer.digits (radices set) k) =
          Odometer.digits (radices set) (k + 1) := Odometer.incr_digits hu.radices_pos k
      -- the indices before the carries stay, so only the end of the buffer is written
      have htake := take_incr_reverse (radices set) (Odometer.digits (radices set) k)
      rw [hincr] at htake
      have hcur := setCur_eq set (Odometer.digits (radices set) (k + 1)).reverse
        (chosen set (Odometer.digits (radices set) k).reverse)
        ((Odometer.digits (radices set) k).length - 1 -
          Odometer.carries (radices set) (Odometer.digits (radices set) k))
        (length_digits_radices set _).symm
        (by rw [hu.chosen_lengths (hu.digits_lt _), hu.chosen_lengths (hu.digits_lt _)])
        (by rw [chosen, chosen, List.take_zipWith, List.take_zipWith, htake])
      refine ⟨⟨?_, ?_⟩, rfl⟩
      · simp only [Search.advance, entry, List.reverse_reverse, List.length_reverse, hincr, ha']
        exact hcur
      · simp only [Search.advance, List.reverse_reverse, hincr, Kind.cartesian.injEq]
        rintro _ _ ⟨rfl, rfl⟩
        exact ⟨hu, rfl⟩

theorem advance_total (s : Search) : s.advance.total = s.total := by
  unfold advance; split <;> rfl

/-- `do … while (++search)` from position `k` on. -/
theorem Pos.visitsFor (h : s.Pos k) (hd : s.done < s.total) (hn : s.total ≤ n + s.done) :
    s.visitsFor n = (List.range' k (s.total - s.done)).map s.entry := by
  induction n generalizing s k with
  | zero => omega
  | succ n ih =>
      simp only [Search.visitsFor, next]
      by_cases hl : s.done = s.total - 1 ∨ s.total = 0
      · have : s.total - s.done = 1 := by omega
        rw [if_pos hl, this]
        simp [h.assignment_eq]
      · obtain ⟨hp, he⟩ := h.advance
        have hsub : s.total - s.done = (s.total - (s.done + 1)) + 1 := by omega
        have hp' : Pos { s.advance with done := s.done + 1 } (k + 1) := ⟨hp.1, hp.2⟩
        have hrest := ih hp' (by simp only [advance_total]; omega)
          (by simp only [advance_total]; omega)
        have hentry : entry { s.advance with done := s.done + 1 } = s.entry := he
        rw [hentry] at hrest
        rw [if_neg hl, hsub, List.range'_succ, List.map_cons, h.assignment_eq]
        dsimp only
        rw [hrest, advance_total]

theorem Pos.visits (h : s.Pos k) (hd : s.done < s.total) :
    s.visits = (List.range' k (s.total - s.done)).map s.entry :=
  h.visitsFor hd (by omega)

/-- What the constructors establish. -/
theorem Fresh.start (h : s.Fresh) : s.Pos 0 ∧ s.done = 0 ∧ 0 < s.total := by
  cases h with
  | single => exact ⟨⟨rfl, fun _ _ h => by cases h⟩, rfl, Nat.one_pos⟩
  | full hn =>
      refine ⟨⟨?_, by simp [fullSearch]⟩, rfl, Nat.two_pow_pos _⟩
      simp [fullSearch, entry, encode_map_zero]
  | @cartesian set hu hlt =>
      refine ⟨hu.pos_start, rfl, ?_⟩
      rw [cartesianSearch_total, Nat.mod_eq_of_lt hlt]
      refine List.prod_pos ?_
      intro b hb
      exact hu.radices_pos b (by simpa [radices] using hb)

/-- The search still has a position to go. -/
def Live (s : Search) : Prop := s.done < s.total

theorem next_eq_some {s t : Search} (h : s.next = some t) :
    t.total = s.total ∧ t.done = s.done + 1 ∧ ¬ s.done = s.total - 1 := by
  simp only [next] at h
  split at h
  · cases h
  · rename_i hl
    simp only [Option.some.injEq] at h
    subst h
    exact ⟨advance_total s, rfl, fun e => hl (.inl e)⟩

theorem Live.next {s t : Search} (h : s.Live) (ht : s.next = some t) : t.Live := by
  obtain ⟨h₁, h₂, h₃⟩ := next_eq_some ht
  simp only [Live] at h ⊢
  omega

/-- The visits of a search are its assignment and the visits after `operator++`. -/
theorem Live.visits_eq {s : Search} (h : s.Live) :
    s.visits = s.assignment :: match s.next with
      | none => []
      | some t => t.visits := by
  obtain ⟨m, hm⟩ : ∃ m, s.total - s.done = m + 1 := ⟨s.total - s.done - 1, by
    simp only [Live] at h; omega⟩
  rw [visits, hm, visitsFor]
  cases ht : s.next with
  | none => rfl
  | some t =>
      obtain ⟨h₁, h₂, -⟩ := next_eq_some ht
      have : t.total - t.done = m := by omega
      simp only [visits, this]

/-! ### Parts -/

section Split

variable {total : ℕ}

theorem getStartAndTodo_zero (total n : ℕ) : (getStartAndTodo total n 0).1 = 0 := by
  simp only [getStartAndTodo]
  split
  · simp
  · simp only [not_lt, Nat.le_zero] at *
    simp_all

/-- A part starts where the one before it ends. -/
theorem getStartAndTodo_succ (total n i : ℕ) : (getStartAndTodo total n (i + 1)).1 =
    (getStartAndTodo total n i).1 + (getStartAndTodo total n i).2 := by
  simp only [getStartAndTodo]
  set rem := total % n
  set div := total / n
  by_cases h₁ : i + 1 < rem
  · rw [if_pos h₁, if_pos (by omega)]
    exact Nat.succ_mul i _
  · by_cases h₂ : i < rem
    · have : rem = i + 1 := by omega
      rw [if_neg h₁, if_pos h₂, this, Nat.sub_self, Nat.zero_mul, Nat.add_zero]
      exact Nat.succ_mul i _
    · have : i + 1 - rem = i - rem + 1 := by omega
      rw [if_neg h₁, if_neg h₂, this, Nat.succ_mul, Nat.add_assoc]

theorem getStartAndTodo_last (total : ℕ) (hn : 0 < n) : (getStartAndTodo total n n).1 = total := by
  have hlt := Nat.mod_lt total hn
  obtain ⟨m, hm⟩ : ∃ m, n = total % n + m := ⟨n - total % n, by omega⟩
  have hdiv := Nat.div_add_mod total n
  simp only [getStartAndTodo, if_neg (not_lt.mpr hlt.le)]
  have hsub : n - total % n = m := by omega
  calc total % n * (total / n + 1) + (n - total % n) * (total / n)
      = (total % n + m) * (total / n) + total % n := by rw [hsub]; ring
    _ = n * (total / n) + total % n := by rw [← hm]
    _ = total := hdiv

theorem getStartAndTodo_pos (hn : 0 < n) (hle : n ≤ total) (i : ℕ) :
    0 < (getStartAndTodo total n i).2 := by
  have := Nat.div_pos hle hn
  simp only [getStartAndTodo]
  split <;> omega

theorem getStartAndTodo_mono (total n : ℕ) {i j : ℕ} (h : i ≤ j) :
    (getStartAndTodo total n i).1 ≤ (getStartAndTodo total n j).1 := by
  induction h with
  | refl => exact le_rfl
  | step _ ih => exact ih.trans (by rw [Nat.succ_eq_add_one, getStartAndTodo_succ]; omega)

theorem getStartAndTodo_lt (hn : 0 < n) (hle : n ≤ total) (hi : i < n) :
    (getStartAndTodo total n i).1 < total := by
  have h₁ := getStartAndTodo_succ total n i
  have h₂ := getStartAndTodo_pos hn hle i
  have h₃ := getStartAndTodo_mono total n (i := i + 1) (j := n) hi
  rw [getStartAndTodo_last total hn] at h₃
  omega

/-- The parts stay inside the search, so the 64-bit arithmetic does not wrap. -/
theorem getStartAndTodo_add_le (total : ℕ) (hi : i < n) :
    (getStartAndTodo total n i).1 + (getStartAndTodo total n i).2 ≤ total := by
  have h := getStartAndTodo_mono total n (i := i + 1) (j := n) hi
  rwa [getStartAndTodo_last total (by omega), getStartAndTodo_succ] at h

/-- A part that starts inside the search is not empty, also with more parts than positions. -/
theorem getStartAndTodo_pos_of_lt (hi : i < n) (h : (getStartAndTodo total n i).1 < total) :
    0 < (getStartAndTodo total n i).2 := by
  by_cases hle : n ≤ total
  · exact getStartAndTodo_pos (by omega) hle i
  · have hdiv : total / n = 0 := Nat.div_eq_of_lt (by omega)
    have hmod : total % n = total := Nat.mod_eq_of_lt (by omega)
    simp only [getStartAndTodo, hdiv, hmod] at h ⊢
    split
    · exact Nat.one_pos
    · rename_i hi'
      rw [if_neg hi'] at h
      omega

end Split

theorem Fresh.clone_eq (h : s.Fresh) : s.clone = s := by
  cases h <;> rfl

/-- A full search whose literals `_set_assignment` reaches with different shifts. -/
def Narrow (s : Search) : Prop := s.kind = .full → s.assignment.length ≤ 63

theorem Fresh.narrow (h : s.Fresh) : s.Narrow := by
  intro hk
  cases h with
  | full hn => simpa [fullSearch] using hn
  | single | cartesian => cases hk

/-- A reset search stands at its first position. -/
theorem Pos.reset (h : s.Pos k) (hn : s.Narrow) (first total : ℕ) :
    Pos (Search.reset { s with first := first, done := 0, total := total }) first ∧
      (Search.reset { s with first := first, done := 0, total := total }).entry = s.entry := by
  obtain ⟨kind, total', done, first', asg⟩ := s
  obtain ⟨ha, hi⟩ := h
  cases kind with
  | single => exact ⟨⟨ha, by simp [Search.reset]⟩, rfl⟩
  | full =>
      have hlen : asg.length ≤ 63 := hn rfl
      have hset := setAssignment_eq_encode (show asg.length ≤ 64 by omega) first
      refine ⟨⟨?_, fun _ _ h => by cases h⟩, funext ?_⟩
      · simp only [Search.reset, entry, hset, encode_encode]
      · intro j
        simp only [Search.reset, entry, hset, encode_encode]
  | cartesian set is =>
      obtain ⟨hu, rfl⟩ := hi set is rfl
      have ha' : asg = cartesianEntry set k := ha
      refine ⟨⟨?_, ?_⟩, rfl⟩
      · simp only [Search.reset, entry, ha']
        exact hu.setCur_zero first (hu.chosen_lengths (hu.digits_lt k))
      · simp only [Search.reset, Kind.cartesian.injEq]
        rintro _ _ ⟨rfl, rfl⟩
        exact ⟨hu, rfl⟩

theorem reset_total (s : Search) : s.reset.total = s.total := by
  unfold reset; split <;> rfl

theorem reset_done (s : Search) : s.reset.done = s.done := by
  unfold reset; split <;> rfl

/-- **A fresh search** visits its entries in order. -/
theorem Fresh.visits (h : s.Fresh) : s.visits = (List.range s.total).map s.entry := by
  obtain ⟨hpos, hd, ht⟩ := h.start
  rw [hpos.visits (by omega), hd, Nat.sub_zero, List.range_eq_range']

/-- **A part of a fresh search** visits the entries of its interval. -/
theorem Fresh.visits_split (h : s.Fresh) (hi : i < n)
    (hlt : (getStartAndTodo s.total n i).1 < s.total) :
    (s.splitSearch n i).visits =
      (List.range' (getStartAndTodo s.total n i).1 (getStartAndTodo s.total n i).2).map
        s.entry := by
  simp only [splitSearch, h.clone_eq, if_pos hlt]
  obtain ⟨hp, he⟩ :=
    h.start.1.reset h.narrow (getStartAndTodo s.total n i).1 (getStartAndTodo s.total n i).2
  have htodo := getStartAndTodo_pos_of_lt hi hlt
  rw [hp.visits (by rw [reset_total, reset_done]; exact htodo), he, reset_total, reset_done,
    Nat.sub_zero]

theorem Fresh.live_split (h : s.Fresh) (hn : 0 < n) (hle : n ≤ s.total) (hi : i < n) :
    (s.splitSearch n i).Live := by
  simp only [splitSearch, h.clone_eq, if_pos (getStartAndTodo_lt hn hle hi), Live, reset_total,
    reset_done]
  exact getStartAndTodo_pos hn hle i

/-- The intervals of the parts follow each other. -/
theorem flatMap_intervals (total : ℕ) (hn : 0 < n) (f : ℕ → LitVec) :
    (List.range n).flatMap (fun i => (List.range' (getStartAndTodo total n i).1
      (getStartAndTodo total n i).2).map f) = (List.range total).map f := by
  rw [← List.map_flatMap, List.flatMap_def, Odometer.flatten_range' (getStartAndTodo_zero _ _)
    fun i _ => getStartAndTodo_succ _ _ i, getStartAndTodo_last _ hn]

/-- **The parts together** visit what the search visits, in the same order. -/
theorem Fresh.flatten_visits_split (h : s.Fresh) (hn : 0 < n) (hle : n ≤ s.total) :
    ((List.range n).map fun i => (s.splitSearch n i).visits).flatten = s.visits := by
  rw [h.visits, ← flatMap_intervals s.total hn, List.flatMap_def]
  refine congrArg _ (List.map_congr_left ?_)
  intro i hi
  have hi' := List.mem_range.mp hi
  exact h.visits_split hi' (getStartAndTodo_lt hn hle hi')

end Search

end Parsat
