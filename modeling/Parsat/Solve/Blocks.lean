import Mathlib.Data.List.Nodup
import Mathlib.Data.Rat.Floor
import Mathlib.Tactic.Linarith

/-!
# Solve — the solvers of the painless portfolio

`PainlessSolver::PainlessSolver`.  The portfolio has `max_threads` solvers, dealt to blocks of
`block_size`; the last member of a block of two or more is its reducer, around a solver of its own.
One counter runs through both loops: the inner one advances it for each solver before the reducer,
the header of the outer one for the last member, and the size of the next block is read off it.

* `Made`: solvers are made and put at the end of `_solvers`, one object each.
* `addSolvers_made`, `fillBlock_made`: what the inner loop and an iteration of the outer one make.
* `Dealt`, `fillBlocks_dealt`: what the blocks from some point on get, for as many solvers as are
  left.
* `painlessSolver_blocks`: what the constructor makes.
-/

namespace Parsat

/-- The objects behind `painless::SolverInterface*`, each with its address. -/
inductive SolverInterface where
  | mapleCOMSPS (address : ℕ) (lbdLimit : ℤ)
  | reducer (address : ℕ) (solver : SolverInterface)
  deriving DecidableEq

/-- `SolverBlock`: the solvers and the reducer, a null pointer at first. -/
structure SolverBlock where
  solvers : List SolverInterface
  reducer : Option SolverInterface
  deriving DecidableEq

/-- `PainlessSolverConfig`, as far as the constructor reads it for the solvers.  The counter ends at
`max_threads` (`fillBlocks_dealt`), so no `int` overflows. -/
structure PainlessSolverConfig where
  maxThreads : ℤ
  blockSize : ℤ
  lbdLimit : ℤ
  sharingEnabled : Bool

/-- The constructor at work: the objects made so far, the counter `solvers` and `_solvers`. -/
structure PainlessBuilder where
  objects : ℕ
  counter : ℤ
  solvers : List SolverInterface
  deriving DecidableEq

/-- `PainlessSolver`: `_solvers`, `_solver_block_list`, the solvers of the workers in `working`, and
what is passed to `_sharing.share`. -/
structure PainlessSolver where
  solvers : List SolverInterface
  solverBlockList : List SolverBlock
  slaves : List SolverInterface
  shared : Option (List SolverBlock)

def SolverInterface.address : SolverInterface → ℕ
  | mapleCOMSPS a _ | reducer a _ => a

/-- The members of a block. -/
def SolverBlock.members (b : SolverBlock) : List SolverInterface := b.solvers ++ b.reducer.toList

namespace PainlessBuilder

/-- `SolverFactory::createMapleCOMSPSSolver`. -/
def createMapleCOMSPSSolver (t : PainlessBuilder) (lbdLimit : ℤ) :
    SolverInterface × PainlessBuilder :=
  (.mapleCOMSPS t.objects lbdLimit, { t with objects := t.objects + 1 })

/-- `SolverFactory::createReducerSolver`. -/
def createReducerSolver (t : PainlessBuilder) (solver : SolverInterface) :
    SolverInterface × PainlessBuilder :=
  (.reducer t.objects solver, { t with objects := t.objects + 1 })

/-- `_solvers.push_back(solver)`. -/
def push (t : PainlessBuilder) (solver : SolverInterface) : PainlessBuilder :=
  { t with solvers := t.solvers ++ [solver] }

/-- `++solvers`. -/
def count (t : PainlessBuilder) : PainlessBuilder := { t with counter := t.counter + 1 }

/-- A new solver in `_solvers` and in the block. -/
def addSolver (lbdLimit : ℤ) (b : SolverBlock) (t : PainlessBuilder) :
    SolverBlock × PainlessBuilder :=
  let (solver, t) := t.createMapleCOMSPSSolver lbdLimit
  ({ b with solvers := b.solvers ++ [solver] }, t.push solver)

/-- The inner loop, with `j` more iterations. -/
def addSolvers (lbdLimit : ℤ) : ℕ → SolverBlock → PainlessBuilder → SolverBlock × PainlessBuilder
  | 0, b, t => (b, t)
  | j + 1, b, t =>
    let (b, t) := addSolver lbdLimit b t
    addSolvers lbdLimit j b t.count

/-- The body of the outer loop. -/
def fillBlock (cfg : PainlessSolverConfig) (b : SolverBlock) (t : PainlessBuilder) :
    SolverBlock × PainlessBuilder :=
  let curBlockSize := min (cfg.maxThreads - t.counter) cfg.blockSize
  if 1 < curBlockSize then
    let (b, t) := addSolvers cfg.lbdLimit (curBlockSize - 1).toNat b t
    let (inner, t) := t.createMapleCOMSPSSolver cfg.lbdLimit
    let (solver, t) := t.createReducerSolver inner
    ({ b with reducer := some solver }, t.push solver)
  else addSolver cfg.lbdLimit b t

/-- The outer loop, over the blocks that are left. -/
def fillBlocks (cfg : PainlessSolverConfig) :
    List SolverBlock → PainlessBuilder → List SolverBlock × PainlessBuilder
  | [], t => ([], t)
  | b :: bs, t =>
    let (b, t) := fillBlock cfg b t
    let (bs, t) := fillBlocks cfg bs t.count
    (b :: bs, t)

end PainlessBuilder

namespace PainlessSolver

/-- `n_blocks`. -/
def nBlocks (cfg : PainlessSolverConfig) : ℤ :=
  cfg.maxThreads.tdiv cfg.blockSize + if 0 < cfg.maxThreads.tmod cfg.blockSize then 1 else 0

/-- `PainlessSolver(config)`. -/
def new (cfg : PainlessSolverConfig) : PainlessSolver :=
  let (blocks, t) := PainlessBuilder.fillBlocks cfg
    (List.replicate (nBlocks cfg).toNat ⟨[], none⟩) ⟨0, 0, []⟩
  { solvers := t.solvers
    solverBlockList := blocks
    slaves := t.solvers
    shared := if cfg.sharingEnabled then some blocks else none }

end PainlessSolver

namespace PainlessBuilder

variable {cfg : PainlessSolverConfig} {t u v : PainlessBuilder} {ms ns : List SolverInterface}

/-- From `t` to `u`, these solvers are made and put at the end of `_solvers`. -/
structure Made (ms : List SolverInterface) (t u : PainlessBuilder) : Prop where
  solvers : u.solvers = t.solvers ++ ms
  objects_le : t.objects ≤ u.objects
  le_address : ∀ s ∈ ms, t.objects ≤ s.address
  address_lt : ∀ s ∈ ms, s.address < u.objects
  sorted : (ms.map SolverInterface.address).Pairwise (· < ·)

theorem Made.nil (t : PainlessBuilder) : Made [] t t where
  solvers := (List.append_nil _).symm
  objects_le := le_rfl
  le_address := by simp
  address_lt := by simp
  sorted := List.Pairwise.nil

theorem Made.append (h : Made ms t u) (h' : Made ns u v) : Made (ms ++ ns) t v where
  solvers := by rw [h'.solvers, h.solvers, List.append_assoc]
  objects_le := h.objects_le.trans h'.objects_le
  le_address := by
    intro s hs
    rcases List.mem_append.mp hs with hs | hs
    · exact h.le_address s hs
    · exact h.objects_le.trans (h'.le_address s hs)
  address_lt := by
    intro s hs
    rcases List.mem_append.mp hs with hs | hs
    · exact (h.address_lt s hs).trans_le h'.objects_le
    · exact h'.address_lt s hs
  sorted := by
    rw [List.map_append]
    refine List.pairwise_append.mpr ⟨h.sorted, h'.sorted, ?_⟩
    intro a ha b hb
    obtain ⟨s, hs, rfl⟩ := List.mem_map.mp ha
    obtain ⟨s', hs', rfl⟩ := List.mem_map.mp hb
    exact (h.address_lt s hs).trans_le (h'.le_address s' hs')

theorem Made.count (h : Made ms t u) : Made ms t u.count := { h with }

theorem addSolver_made (lbdLimit : ℤ) (b : SolverBlock) (t : PainlessBuilder) :
    ∃ s, (addSolver lbdLimit b t).1 = { b with solvers := b.solvers ++ [s] } ∧
      Made [s] t (addSolver lbdLimit b t).2 ∧ (addSolver lbdLimit b t).2.counter = t.counter := by
  refine ⟨_, rfl, ⟨rfl, Nat.le_succ _, ?_, ?_, List.pairwise_singleton _ _⟩, rfl⟩
  · exact List.forall_mem_singleton.mpr le_rfl
  · exact List.forall_mem_singleton.mpr (Nat.lt_succ_self _)

theorem addSolvers_made (lbdLimit : ℤ) (j : ℕ) (b : SolverBlock) (t : PainlessBuilder) :
    ∃ ms, ms.length = j ∧
      (addSolvers lbdLimit j b t).1 = { b with solvers := b.solvers ++ ms } ∧
      Made ms t (addSolvers lbdLimit j b t).2 ∧
      (addSolvers lbdLimit j b t).2.counter = t.counter + j := by
  induction j generalizing b t with
  | zero => exact ⟨[], rfl, by simp [addSolvers], .nil t, by simp [addSolvers]⟩
  | succ j ih =>
      obtain ⟨s, hb, hmade, hcount⟩ := addSolver_made lbdLimit b t
      obtain ⟨ms, hlen, hb', hmade', hcount'⟩ := ih (addSolver lbdLimit b t).1
        (addSolver lbdLimit b t).2.count
      refine ⟨s :: ms, by rw [List.length_cons, hlen], ?_, hmade.count.append hmade', ?_⟩
      · rw [addSolvers, hb', hb]
        simp
      · rw [addSolvers, hcount', count, hcount]
        push_cast
        ring

/-- An iteration of the outer loop deals as many solvers as fit into the block. -/
theorem fillBlock_made (ht : t.counter < cfg.maxThreads) (hsize : 1 ≤ cfg.blockSize) :
    let b := (fillBlock cfg ⟨[], none⟩ t).1
    Made b.members t (fillBlock cfg ⟨[], none⟩ t).2 ∧
      (b.members.length : ℤ) = min (cfg.maxThreads - t.counter) cfg.blockSize ∧
      (b.reducer.isSome ↔ 2 ≤ b.members.length) ∧
      (fillBlock cfg ⟨[], none⟩ t).2.count.counter = t.counter + b.members.length := by
  intro b
  by_cases hcur : 1 < min (cfg.maxThreads - t.counter) cfg.blockSize
  · -- all but one by the inner loop, and the reducer
    obtain ⟨ms, hlen, hb, hmade, hcount⟩ := addSolvers_made cfg.lbdLimit
      (min (cfg.maxThreads - t.counter) cfg.blockSize - 1).toNat ⟨[], none⟩ t
    set r := addSolvers cfg.lbdLimit
      (min (cfg.maxThreads - t.counter) cfg.blockSize - 1).toNat ⟨[], none⟩ t with hr
    set last : SolverInterface := .reducer (r.2.objects + 1)
      (.mapleCOMSPS r.2.objects cfg.lbdLimit) with hlast
    have hfill : fillBlock cfg ⟨[], none⟩ t =
        (⟨ms, some last⟩, ⟨r.2.objects + 2, r.2.counter, r.2.solvers ++ [last]⟩) := by
      rw [fillBlock, if_pos hcur, ← hr]
      change ((⟨r.1.solvers, some last⟩ : SolverBlock), _) = _
      rw [hb]
      rfl
    have hmembers : b.members = ms ++ [last] := by
      simp only [b, hfill]
      rfl
    have hlast' : Made [last] r.2 (fillBlock cfg ⟨[], none⟩ t).2 := by
      rw [hfill]
      refine ⟨rfl, Nat.le_add_right _ 2, ?_, ?_, List.pairwise_singleton _ _⟩
      · exact List.forall_mem_singleton.mpr (Nat.le_succ _)
      · exact List.forall_mem_singleton.mpr (Nat.lt_succ_self _)
    rw [hmembers]
    refine ⟨hmade.append hlast', ?_, ?_, ?_⟩
    · rw [List.length_append, hlen, List.length_singleton]
      omega
    · simp only [b, hfill, Option.isSome_some, true_iff, List.length_append, hlen,
        List.length_singleton]
      omega
    · rw [hfill, count, hcount, List.length_append, hlen, List.length_singleton]
      push_cast
      ring
  · -- one solver, and no reducer
    obtain ⟨s, hb, hmade, hcount⟩ := addSolver_made cfg.lbdLimit ⟨[], none⟩ t
    have hfill : fillBlock cfg ⟨[], none⟩ t = addSolver cfg.lbdLimit ⟨[], none⟩ t := by
      rw [fillBlock, if_neg hcur]
    have hb' : b = ⟨[s], none⟩ := by
      simp only [b, hfill, hb]
      rfl
    rw [hb', hfill]
    refine ⟨hmade, ?_, by simp [SolverBlock.members], ?_⟩
    · simp only [SolverBlock.members, Option.toList_none, List.append_nil, List.length_singleton]
      omega
    · simp [count, hcount, SolverBlock.members]

/-- What the blocks have when `left` solvers were to be dealt. -/
structure Dealt (blockSize left : ℤ) (bs : List SolverBlock) : Prop where
  length : ((bs.flatMap SolverBlock.members).length : ℤ) = left
  pos : ∀ b ∈ bs, 0 < b.members.length
  le : ∀ b ∈ bs, (b.members.length : ℤ) ≤ blockSize
  full : ∀ b ∈ bs.dropLast, (b.members.length : ℤ) = blockSize
  reducer : ∀ b ∈ bs, b.reducer.isSome ↔ 2 ≤ b.members.length

/-- The outer loop, with as many blocks left as the solvers left need. -/
theorem fillBlocks_dealt (hsize : 1 ≤ cfg.blockSize) (k : ℕ) (t : PainlessBuilder)
    (hleft : t.counter ≤ cfg.maxThreads) (hle : cfg.maxThreads - t.counter ≤ k * cfg.blockSize)
    (hlt : k * cfg.blockSize < cfg.maxThreads - t.counter + cfg.blockSize) :
    let r := fillBlocks cfg (List.replicate k ⟨[], none⟩) t
    r.1.length = k ∧ Dealt cfg.blockSize (cfg.maxThreads - t.counter) r.1 ∧
      Made (r.1.flatMap SolverBlock.members) t r.2 ∧ r.2.counter = cfg.maxThreads := by
  induction k generalizing t with
  | zero =>
      simp only [Nat.cast_zero, zero_mul] at hle
      have heq : t.counter = cfg.maxThreads := by omega
      refine ⟨rfl, ⟨?_, nofun, nofun, nofun, nofun⟩, .nil t, heq⟩
      rw [heq, sub_self]
      rfl
  | succ k ih =>
      intro r
      push_cast at hle hlt
      rw [add_mul, one_mul] at hle hlt
      have hnonneg : 0 ≤ (k : ℤ) * cfg.blockSize := by positivity
      obtain ⟨hmade, hlen, hred, hcount⟩ := fillBlock_made (t := t) (by omega) hsize
      set b := (fillBlock cfg ⟨[], none⟩ t).1
      obtain ⟨hk, hdealt, hmade', hend⟩ := ih (fillBlock cfg ⟨[], none⟩ t).2.count
        (by omega) (by omega) (by omega)
      set bs := (fillBlocks cfg (List.replicate k ⟨[], none⟩)
        (fillBlock cfg ⟨[], none⟩ t).2.count).1 with hbs
      have hr : r.1 = b :: bs := rfl
      rw [hr, List.flatMap_cons]
      refine ⟨by rw [List.length_cons, hk], ⟨?_, ?_, ?_, ?_, ?_⟩, hmade.count.append hmade', hend⟩
      · have := hdealt.length
        rw [List.flatMap_cons, List.length_append]
        push_cast
        omega
      · exact List.forall_mem_cons.mpr ⟨by omega, hdealt.pos⟩
      · exact List.forall_mem_cons.mpr ⟨by omega, hdealt.le⟩
      · -- a block before another one is full
        cases k with
        | zero =>
            rw [List.length_eq_zero_iff.mp hk]
            nofun
        | succ k =>
            have hnonneg' : 0 ≤ (k : ℤ) * cfg.blockSize := by positivity
            have hne : bs ≠ [] := List.ne_nil_of_length_eq_add_one hk
            push_cast at hlt
            rw [add_mul, one_mul] at hlt
            rw [List.dropLast_cons_of_ne_nil hne]
            exact List.forall_mem_cons.mpr ⟨by omega, hdealt.full⟩
      · exact List.forall_mem_cons.mpr ⟨hred, hdealt.reducer⟩

end PainlessBuilder

/-- Where the members of all blocks are different, each is in one block. -/
theorem SolverBlock.existsUnique_block {bs : List SolverBlock} {s : SolverInterface}
    (hn : (bs.flatMap members).Nodup) (hs : s ∈ bs.flatMap members) :
    ∃! i : ℕ, ∃ b : SolverBlock, bs[i]? = some b ∧ s ∈ b.members := by
  obtain ⟨b, hb, hsb⟩ := List.mem_flatMap.mp hs
  obtain ⟨i, hi, rfl⟩ := List.mem_iff_getElem.mp hb
  refine ⟨i, ⟨_, List.getElem?_eq_getElem hi, hsb⟩, ?_⟩
  rintro j ⟨b', hj, hsb'⟩
  obtain ⟨hlt, rfl⟩ := List.getElem?_eq_some_iff.mp hj
  have hdisjoint := List.pairwise_iff_getElem.mp (List.nodup_flatMap.mp hn).2
  rcases lt_trichotomy i j with hij | heq | hji
  · exact (hdisjoint i j hi hlt hij hsb hsb').elim
  · exact heq.symm
  · exact (hdisjoint j i hlt hi hji hsb' hsb).elim

theorem PainlessSolver.nBlocks_bounds {cfg : PainlessSolverConfig} (hthreads : 1 ≤ cfg.maxThreads)
    (hsize : 1 ≤ cfg.blockSize) :
    0 ≤ nBlocks cfg ∧ cfg.maxThreads ≤ nBlocks cfg * cfg.blockSize ∧
      nBlocks cfg * cfg.blockSize < cfg.maxThreads + cfg.blockSize := by
  have hdiv := Int.mul_ediv_add_emod cfg.maxThreads cfg.blockSize
  have hmod := Int.emod_nonneg cfg.maxThreads (b := cfg.blockSize) (by omega)
  have hlt := Int.emod_lt_of_pos cfg.maxThreads (b := cfg.blockSize) (by omega)
  have hnonneg := Int.ediv_nonneg (a := cfg.maxThreads) (b := cfg.blockSize) (by omega) (by omega)
  rw [nBlocks, Int.tdiv_eq_ediv_of_nonneg (by omega), Int.tmod_eq_emod_of_nonneg (by omega),
    add_mul, mul_comm (cfg.maxThreads / cfg.blockSize)]
  split_ifs with hrest
  · refine ⟨by omega, ?_, ?_⟩ <;> rw [one_mul] <;> omega
  · refine ⟨by omega, ?_, ?_⟩ <;> rw [zero_mul] <;> omega

theorem PainlessSolver.nBlocks_eq {cfg : PainlessSolverConfig} (hthreads : 1 ≤ cfg.maxThreads)
    (hsize : 1 ≤ cfg.blockSize) :
    nBlocks cfg = ⌈(cfg.maxThreads : ℚ) / cfg.blockSize⌉ := by
  obtain ⟨-, hle, hlt⟩ := nBlocks_bounds hthreads hsize
  have hpos : (0 : ℚ) < cfg.blockSize := by exact_mod_cast hsize
  refine (Int.ceil_eq_iff.mpr ⟨?_, ?_⟩).symm
  · rw [lt_div_iff₀ hpos, sub_mul, one_mul, sub_lt_iff_lt_add]
    exact_mod_cast hlt
  · rw [div_le_iff₀ hpos]
    exact_mod_cast hle

open PainlessSolver in
/-- **The blocks of the portfolio.**  For any `max_threads` and `block_size` from 1 on, the
constructor makes `max_threads` different solvers and deals them to as few blocks as can be, all but
the last one full, each solver to one block; and the blocks of two or more have a reducer. -/
theorem painlessSolver_blocks (cfg : PainlessSolverConfig) (hthreads : 1 ≤ cfg.maxThreads)
    (hsize : 1 ≤ cfg.blockSize) :
    ((new cfg).solvers.length : ℤ) = cfg.maxThreads ∧
    ((new cfg).solvers.map SolverInterface.address).Nodup ∧
    ((new cfg).solverBlockList.length : ℤ) = ⌈(cfg.maxThreads : ℚ) / cfg.blockSize⌉ ∧
    (∀ b ∈ (new cfg).solverBlockList,
      0 < b.members.length ∧ (b.members.length : ℤ) ≤ cfg.blockSize) ∧
    (∀ b ∈ (new cfg).solverBlockList.dropLast, (b.members.length : ℤ) = cfg.blockSize) ∧
    (new cfg).solverBlockList.flatMap SolverBlock.members = (new cfg).solvers ∧
    (∀ s ∈ (new cfg).solvers, ∃! i : ℕ, ∃ b : SolverBlock,
      (new cfg).solverBlockList[i]? = some b ∧ s ∈ b.members) ∧
    ∀ b ∈ (new cfg).solverBlockList, b.reducer.isSome ↔ 2 ≤ b.members.length := by
  obtain ⟨hnonneg, hle, hlt⟩ := nBlocks_bounds hthreads hsize
  have hcast := Int.toNat_of_nonneg hnonneg
  obtain ⟨hlen, hdealt, hmade, -⟩ := PainlessBuilder.fillBlocks_dealt hsize (nBlocks cfg).toNat
    ⟨0, 0, []⟩ (Int.le_of_lt hthreads) (by rw [hcast, sub_zero]; exact hle)
    (by rw [hcast, sub_zero]; exact hlt)
  have hsolvers : (new cfg).solvers = (new cfg).solverBlockList.flatMap SolverBlock.members :=
    hmade.solvers
  have hnodup : ((new cfg).solvers.map SolverInterface.address).Nodup :=
    hsolvers ▸ hmade.sorted.imp Nat.ne_of_lt
  refine ⟨?_, hnodup, ?_, fun b hb => ⟨hdealt.pos b hb, hdealt.le b hb⟩, hdealt.full, hsolvers.symm,
    fun s hs => ?_, hdealt.reducer⟩
  · rw [hsolvers]
    exact hdealt.length.trans (sub_zero _)
  · rw [← nBlocks_eq hthreads hsize, ← hcast]
    exact_mod_cast hlen
  · rw [hsolvers] at hs hnodup
    exact SolverBlock.existsUnique_block (hnodup.of_map _) hs

/-- Seven solvers in blocks of three: the last block has one, and no reducer. -/
theorem painlessSolver_blocks_seven :
    (PainlessSolver.new ⟨7, 3, 0, true⟩).solverBlockList.map
        (fun b => (b.members.length, b.reducer.isSome)) = [(3, true), (3, true), (1, false)] ∧
    ((PainlessSolver.new ⟨7, 3, 0, true⟩).solvers.length : ℤ) = 7 ∧
    ((PainlessSolver.new ⟨7, 3, 0, true⟩).solvers.map SolverInterface.address).Nodup := by
  obtain ⟨hlen, hnodup, -⟩ := painlessSolver_blocks ⟨7, 3, 0, true⟩ (by decide) (by decide)
  exact ⟨by decide, hlen, hnodup⟩

end Parsat
