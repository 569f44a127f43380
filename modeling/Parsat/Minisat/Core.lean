import Mathlib.Algebra.Group.Basic
import Parsat.Sat.Solver

/-!
# Minisat — the core solver

`Minisat::Solver` with what it propagates and learns by: the clauses behind references, the lists of
the clauses that watch a literal, and the reason and the level of each assigned variable.  `abs`
forgets these again and leaves the solver of `Sat.Solver`.

The literals `c[0]` and `c[1]` of a clause `c` are watched: `watches[~c[0]]` and `watches[~c[1]]`
name the clause, each with a *blocker*, a literal that shows the clause to be satisfied if it is
true.  A removed clause stays in these lists, which become dirty, until they are looked up.

* `Core.Base`: what the lists, the levels and the reasons say, and that no level below the present
  one has left a false watch in a clause without a true literal (`upTo`).
* `Core.Inv`: in addition, the same of all literals that have been propagated.
* `Core.Inv.ready`, `Core.Inv.quiescent`: the abstract solver is in the state that `propagate()`
  expects, or leaves.
-/

namespace Parsat.Minisat

open UnitProp

/-- `Watcher`. -/
structure Watcher where
  cref : ℕ
  blocker : Lit
  deriving DecidableEq

/-- `VarData`, where `CRef_Undef` is `none`. -/
structure VarData where
  reason : Option ℕ
  level : ℕ

/-- `Minisat::Solver`.  `ca` holds the literals behind the references below `size`, and `removed`
those whose `mark()` is 1; `orderHeap` lists what is in `order_heap`. -/
structure Core where
  ok : Bool
  ca : ℕ → Clause
  size : ℕ
  removed : ℕ → Bool
  clauses : List ℕ
  learnts : List ℕ
  watches : Lit → List Watcher
  dirty : Lit → Bool
  assigns : ℕ → LBool
  vardata : ℕ → VarData
  trail : List Lit
  trailLim : List ℕ
  qhead : ℕ
  phaseSaving : ℕ
  nVars : ℕ
  decision : ℕ → Bool
  orderHeap : List ℕ
  assumptions : List Lit
  model : List LBool
  conflict : List Lit

namespace Core

def empty : Core where
  ok := true
  ca _ := []
  size := 0
  removed _ := false
  clauses := []
  learnts := []
  watches _ := []
  dirty _ := false
  assigns _ := .undef
  vardata _ := ⟨none, 0⟩
  trail := []
  trailLim := []
  qhead := 0
  phaseSaving := 2
  nVars := 0
  decision _ := false
  orderHeap := []
  assumptions := []
  model := []
  conflict := []

/-- `value(Lit)`. -/
def value (s : Core) (p : Lit) : LBool := (s.assigns p.var).xor p.sign

def decisionLevel (s : Core) : ℕ := s.trailLim.length

def level (s : Core) (v : ℕ) : ℕ := (s.vardata v).level

def reason (s : Core) (v : ℕ) : Option ℕ := (s.vardata v).reason

def newDecisionLevel (s : Core) : Core := { s with trailLim := s.trailLim ++ [s.trail.length] }

def uncheckedEnqueue (s : Core) (p : Lit) (from' : Option ℕ) : Core :=
  { s with
    assigns := Function.update s.assigns p.var (.ofBool !p.sign)
    vardata := Function.update s.vardata p.var ⟨from', s.decisionLevel⟩
    trail := s.trail ++ [p] }

/-- `insertVarOrder`. -/
def insertVarOrder (decision : ℕ → Bool) (heap : List ℕ) (x : ℕ) : List ℕ :=
  if x ∉ heap ∧ decision x then x :: heap else heap

def cancelUntil (s : Core) (level : ℕ) : Core :=
  if level < s.decisionLevel then
    let lim := s.trailLim.getD level 0
    let undone := (s.trail.drop lim).map Lit.var
    { s with
      assigns := fun v => if v ∈ undone then .undef else s.assigns v
      orderHeap := undone.reverse.foldl (insertVarOrder s.decision) s.orderHeap
      qhead := lim
      trail := s.trail.take lim
      trailLim := s.trailLim.take level }
  else s

/-! ### Clauses and their watches -/

/-- `ca.alloc`, which gives the reference `s.size`. -/
def alloc (s : Core) (c : Clause) : Core :=
  { s with
    ca := Function.update s.ca s.size c
    size := s.size + 1
    removed := Function.update s.removed s.size false }

/-- `watches[p].push(w)`. -/
def pushWatch (s : Core) (p : Lit) (w : Watcher) : Core :=
  { s with watches := Function.update s.watches p (s.watches p ++ [w]) }

def attachClause (s : Core) (cr : ℕ) : Core :=
  match s.ca cr with
  | a :: b :: _ => (s.pushWatch (-a) ⟨cr, b⟩).pushWatch (-b) ⟨cr, a⟩
  | _ => s

/-- `watches.smudge`. -/
def smudge (s : Core) (p : Lit) : Core := { s with dirty := Function.update s.dirty p true }

/-- `detachClause`, not strict. -/
def detachClause (s : Core) (cr : ℕ) : Core :=
  match s.ca cr with
  | a :: b :: _ => (s.smudge (-a)).smudge (-b)
  | _ => s

def locked (s : Core) (cr : ℕ) : Bool :=
  match s.ca cr with
  | a :: _ => s.value a = .true ∧ s.reason a.var = some cr
  | [] => false

/-- `removeClause`; the caller drops the reference from its list. -/
def removeClause (s : Core) (cr : ℕ) : Core :=
  let t := s.detachClause cr
  { t with
    vardata := match s.ca cr with
      | a :: _ =>
        if s.locked cr then Function.update s.vardata a.var ⟨none, s.level a.var⟩ else s.vardata
      | [] => s.vardata
    removed := Function.update s.removed cr true }

/-- `watches.lookup(p)`, after which `s.watches p` holds no removed clause. -/
def lookup (s : Core) (p : Lit) : Core :=
  if s.dirty p then
    { s with
      watches := Function.update s.watches p ((s.watches p).filter fun w => !s.removed w.cref)
      dirty := Function.update s.dirty p false }
  else s

/-! ### The abstract solver -/

/-- The clauses that are attached. -/
def refs (s : Core) : List ℕ := s.clauses ++ s.learnts

def db (s : Core) : List Clause := s.refs.map s.ca

/-- The solver without its watches, levels and reasons; learnt clauses are clauses. -/
def abs (s : Core) : Parsat.Solver where
  ok := s.ok
  clauses := s.db
  assigns := s.assigns
  trail := s.trail
  trailLim := s.trailLim
  qhead := s.qhead
  phaseSaving := s.phaseSaving
  nVars := s.nVars

/-- The literals assigned at level 0. -/
def level0 (s : Core) : List Lit := s.trail.take (s.trailLim.headD s.trail.length)

/-! ### The invariant -/

/-- Among the first `n` literals of the trail: a clause with a false watch has a true literal. -/
def UpTo (s : Core) (n : ℕ) : Prop :=
  ∀ cr ∈ s.refs, ∀ q ∈ (s.ca cr).take 2, -q ∈ s.trail.take n → ∃ b ∈ s.ca cr, b ∈ s.trail.take n

/-- The lists `W` name the attached clauses by their watches, and removed ones where they are
dirty. -/
structure Watching (W : Lit → List Watcher) (s : Core) : Prop where
  refs_nodup : s.refs.Nodup
  refs_lt : ∀ cr ∈ s.refs, cr < s.size
  refs_live : ∀ cr ∈ s.refs, s.removed cr = false
  shape : ∀ cr ∈ s.refs, 2 ≤ (s.ca cr).length ∧ (s.ca cr).Pairwise fun p q => p.var ≠ q.var
  cover : ∀ cr ∈ s.refs, ∀ q ∈ (s.ca cr).take 2, ∃ w ∈ W (-q), w.cref = cr
  watch : ∀ p, ∀ w ∈ W p, w.cref ∈ s.refs → -p ∈ (s.ca w.cref).take 2
  blocker : ∀ p, ∀ w ∈ W p, w.cref ∈ s.refs → w.blocker ∈ s.ca w.cref ∨ -w.blocker ∈ s.level0
  live : ∀ p, ∀ w ∈ W p, w.cref ∈ s.refs ∨ (s.removed w.cref = true ∧ s.dirty p = true)
  lt : ∀ p, ∀ w ∈ W p, w.cref < s.size
  nodup : ∀ p, ((W p).map Watcher.cref).Nodup

/-- The invariant apart from what has been propagated. -/
structure Base (W : Lit → List Watcher) (s : Core) : Prop extends Watching W s where
  wf : s.abs.Wf
  lim_sorted : s.trailLim.Pairwise (· ≤ ·)
  lim_le : ∀ n ∈ s.trailLim, n ≤ s.trail.length
  upTo : ∀ n ∈ s.trailLim, s.UpTo n
  level_eq : ∀ k p, s.trail[k]? = some p → s.level p.var = s.trailLim.countP (· ≤ k)
  reason_eq : ∀ k p cr, s.trail[k]? = some p → s.reason p.var = some cr → 0 < s.level p.var →
    cr ∈ s.refs ∧ ∃ rest, s.ca cr = p :: rest ∧ ∀ q ∈ rest, -q ∈ s.trail.take k

/-- The invariant: a clause with a false watch that has been propagated has a true literal. -/
structure Inv (s : Core) : Prop extends Base s.watches s where
  qhead_le : s.qhead ≤ s.trail.length
  processed : ∀ cr ∈ s.refs, ∀ q ∈ (s.ca cr).take 2, -q ∈ s.trail.take s.qhead →
    ∃ b ∈ s.ca cr, b ∈ s.trail

variable {s t u : Core} {W : Lit → List Watcher} {p q : Lit} {cr : ℕ}

theorem mem_db {c : Clause} : c ∈ s.db ↔ ∃ cr ∈ s.refs, s.ca cr = c := List.mem_map

/-- The watches of an attached clause. -/
theorem Watching.exists_watches (h : s.Watching W) (hcr : cr ∈ s.refs) :
    ∃ a b rest, s.ca cr = a :: b :: rest ∧ a ≠ b := by
  obtain ⟨hlen, hvars⟩ := h.shape cr hcr
  match hc : s.ca cr with
  | [] | [_] => simp [hc] at hlen
  | a :: b :: rest =>
      rw [hc] at hvars
      refine ⟨a, b, rest, rfl, ?_⟩
      rintro rfl
      exact (List.pairwise_cons.mp hvars).1 a List.mem_cons_self rfl

/-- If all literals but one of an attached clause are false, one of them is watched. -/
theorem Watching.exists_watch_ne (h : s.Watching W) (hcr : cr ∈ s.refs) (p : Lit) :
    ∃ q ∈ (s.ca cr).take 2, q ≠ p := by
  obtain ⟨a, b, rest, hc, hne⟩ := h.exists_watches hcr
  rw [hc]
  by_cases e : a = p
  · exact ⟨b, by simp, e ▸ hne.symm⟩
  · exact ⟨a, by simp, e⟩

/-- **The abstract state** before propagation. -/
theorem Inv.ready (h : s.Inv) : s.abs.Ready where
  toWf := h.wf
  attached := by
    intro c hc
    obtain ⟨cr, hcr, rfl⟩ := mem_db.mp hc
    exact h.shape cr hcr
  queue := by
    intro c hc p hp hrest
    obtain ⟨cr, hcr, rfl⟩ := mem_db.mp hc
    obtain ⟨q, hq, hne⟩ := h.exists_watch_ne hcr p
    obtain ⟨b, hb, htrue⟩ := h.processed cr hcr q hq (hrest q (List.mem_of_mem_take hq) hne)
    -- the true literal can only be `p`
    by_cases e : b = p
    · exact e ▸ htrue
    · exact absurd (List.mem_of_mem_take (hrest b hb e)) (h.wf.consistent b htrue)

theorem Inv.quiescent (h : s.Inv) (hq : s.qhead = s.trail.length) : s.abs.Quiescent :=
  ⟨h.ready, hq⟩

theorem Inv.upTo_length (h : s.Inv) (hq : s.qhead = s.trail.length) : s.UpTo s.trail.length := by
  intro cr hcr q hqc hqt
  rw [List.take_length]
  exact h.processed cr hcr q hqc (hq ▸ hqt)

end Core

end Parsat.Minisat
