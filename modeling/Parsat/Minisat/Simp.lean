import Parsat.Minisat.Strengthen

/-!
# Minisat — subsumption and elimination: definitions

`SimpSolver` keeps, on top of the solver, a list of the clauses each variable occurs in, a queue of
clauses to check for subsumption, a heap of variables to eliminate, and clauses of the eliminated
variables.  In each round of `eliminate` the clauses of the variables that were touched go into the
queue; clauses that are subsumed by one of the queue go, and clauses that can be strengthened by a
resolution lose a literal.  Then variables are replaced by the resolvents of their clauses, if these
are not too many.

The solver's `clauses` lose a removed reference at once; in the source it stays until the next
garbage collection.  A clause has mark 2 in `gatherTouchedClauses` if it is in the queue.  No check
is interrupted.
-/

namespace Parsat.Minisat

open UnitProp

/-- `Minisat::SimpSolver`. -/
structure Simp where
  core : Core
  useSimplification : Bool
  elimclauses : List Clause
  touched : ℕ → Bool
  occurs : ℕ → List ℕ
  occDirty : ℕ → Bool
  elimHeap : List ℕ
  queue : List ℕ
  frozen : ℕ → Bool
  eliminated : ℕ → Bool
  bwdsubAssigns : ℕ
  nTouched : ℕ

/-! ### Clauses -/

/-- `calcAbstraction`. -/
def abstraction (c : Clause) : BitVec 32 := c.foldl (fun a p => a ||| 1#32 <<< (p.var % 32)) 0#32

/-- The search for `p` or `~p` in a clause, where `ret` is the literal that can be deleted so far;
`none` if there is neither. -/
def searchLit (ret : Option Lit) (p : Lit) : Clause → Option (Option Lit)
  | [] => none
  | q :: d =>
    if p = q then some ret
    else if ret = none ∧ p = -q then some (some p)
    else searchLit ret p d

def subsumesLoop (d : Clause) : Clause → Option Lit → Option (Option Lit)
  | [], ret => some ret
  | p :: c, ret =>
    match searchLit ret p d with
    | none => none
    | some ret' => subsumesLoop d c ret'

/-- `c.subsumes(d)`: `none` for `lit_Error`, `some none` for `lit_Undef`. -/
def subsumes (c d : Clause) : Option (Option Lit) :=
  if d.length < c.length ∨ abstraction c &&& ~~~abstraction d ≠ 0#32 then none
  else subsumesLoop d c none

/-- What `merge` takes from the smaller clause; `none` if the resolvent is a tautology. -/
def mergeRest (ps : Clause) (v : ℕ) : Clause → Option Clause
  | [] => some []
  | q :: qs =>
    if q.var = v then mergeRest ps v qs
    else match ps.find? fun p => p.var = q.var with
      | some p => if p = -q then none else mergeRest ps v qs
      | none => (mergeRest ps v qs).map (q :: ·)

/-- `merge(_ps, _qs, v, out_clause)`. -/
def merge (ps qs : Clause) (v : ℕ) : Option Clause :=
  let r := if ps.length < qs.length then (qs, ps) else (ps, qs)
  (mergeRest r.1 v r.2).map fun out => out ++ r.1.filter fun p => p.var ≠ v

/-- `merge(_ps, _qs, v, size)`. -/
def mergeSize (ps qs : Clause) (v : ℕ) : Option ℕ :=
  let r := if ps.length < qs.length then (qs, ps) else (ps, qs)
  (mergeRest r.1 v r.2).map fun out => r.1.length - 1 + out.length

/-- `mkElimClause(elimclauses, v, c)`: the literal of `v` comes first. -/
def mkElimClause (v : ℕ) (c : Clause) : Clause := Core.swapIn c (c.findIdx fun p => p.var = v)

/-- Whether the resolvents of these sizes are too many, or one is too long. -/
def exceeds (clauseLim bound : ℤ) : List (Option ℕ) → ℤ → Bool
  | [], _ => false
  | none :: sizes, cnt => exceeds clauseLim bound sizes cnt
  | some size :: sizes, cnt =>
    (cnt + 1 > bound ∨ clauseLim ≠ -1 ∧ (size : ℤ) > clauseLim) ||
      exceeds clauseLim bound sizes (cnt + 1)

namespace Simp

def empty : Simp where
  core := .empty
  useSimplification := true
  elimclauses := []
  touched _ := false
  occurs _ := []
  occDirty _ := false
  elimHeap := []
  queue := []
  frozen _ := false
  eliminated _ := false
  bwdsubAssigns := 0
  nTouched := 0

/-! ### Variables and clauses -/

def updateElimHeap (σ : Simp) (v : ℕ) : Simp :=
  if v ∉ σ.elimHeap ∧ σ.frozen v = false ∧ σ.eliminated v = false ∧ σ.core.assigns v = .undef then
    { σ with elimHeap := v :: σ.elimHeap }
  else σ

/-- `newVar(upol, dvar)`. -/
def newVar (σ : Simp) (dvar : Bool) : Simp :=
  let v := σ.core.nVars
  let τ :=
    { σ with
      core := σ.core.newVar dvar
      frozen := Function.update σ.frozen v false
      eliminated := Function.update σ.eliminated v false }
  if τ.useSimplification then
    { τ with
      occurs := Function.update τ.occurs v []
      touched := Function.update τ.touched v false
      elimHeap := v :: τ.elimHeap }
  else τ

/-- One literal of a new clause `cr`. -/
def noteLit (cr : ℕ) (σ : Simp) (p : Lit) : Simp :=
  { σ with
    occurs := Function.update σ.occurs p.var (σ.occurs p.var ++ [cr])
    touched := Function.update σ.touched p.var true
    nTouched := σ.nTouched + 1 }

/-- What `addClause_` does with the clause the solver has attached. -/
def note (σ : Simp) (cr : ℕ) : Simp :=
  (σ.core.ca cr).foldl (noteLit cr) { σ with queue := σ.queue ++ [cr] }

def addClause_ (σ : Simp) (ps : Clause) : Bool × Simp :=
  let r := σ.core.addClause_ ps
  let τ := { σ with core := r.2 }
  if r.1 = false then (false, τ)
  else if σ.useSimplification ∧ r.2.clauses.length = σ.core.clauses.length + 1 then
    (true, τ.note (r.2.clauses.getLastD 0))
  else (true, τ)

/-- `occurs.lookup(v)`. -/
def lookup (σ : Simp) (v : ℕ) : Simp :=
  if σ.occDirty v then
    { σ with
      occurs := Function.update σ.occurs v ((σ.occurs v).filter fun cr => !σ.core.removed cr)
      occDirty := Function.update σ.occDirty v false }
  else σ

/-- One literal of a clause that is removed. -/
def unnoteLit (σ : Simp) (p : Lit) : Simp :=
  let τ := σ.updateElimHeap p.var
  { τ with occDirty := Function.update τ.occDirty p.var true }

def removeClause (σ : Simp) (cr : ℕ) : Simp :=
  let τ := if σ.useSimplification then (σ.core.ca cr).foldl unnoteLit σ else σ
  { τ with core := τ.core.dropRef cr (τ.core.clauses.erase cr) τ.core.learnts }

/-- `enqueue(c[0]) && propagate() == CRef_Undef` for a clause that has one literal left. -/
def enqueueUnit (σ : Simp) : Clause → Bool × Simp
  | [p] =>
    let e := σ.core.enqueue p
    if e.1 then
      let r := e.2.propagate
      (r.1.isNone, { σ with core := r.2 })
    else (false, { σ with core := e.2 })
  | _ => (true, σ)

def strengthenClause (σ : Simp) (cr : ℕ) (l : Lit) : Bool × Simp :=
  let c := σ.core.ca cr
  let σ := { σ with queue := σ.queue ++ [cr] }
  let τ :=
    if c.length = 2 then
      let τ := σ.removeClause cr
      { τ with core := τ.core.setClause cr (c.erase l) }
    else
      { σ with
        core := σ.core.strengthen cr l
        occurs := Function.update σ.occurs l.var ((σ.occurs l.var).erase cr) }.updateElimHeap l.var
  τ.enqueueUnit (c.erase l)

/-! ### Subsumption -/

/-- One variable in `gatherTouchedClauses`. -/
def gatherVar (σ : Simp) (v : ℕ) : Simp :=
  if σ.touched v then
    let τ := σ.lookup v
    { τ with
      queue := (τ.occurs v).foldl
        (fun q cr => if τ.core.removed cr ∨ cr ∈ q then q else q ++ [cr]) τ.queue
      touched := Function.update τ.touched v false }
  else σ

def gatherTouchedClauses (σ : Simp) : Simp :=
  if σ.nTouched = 0 then σ
  else { (List.range σ.core.nVars).foldl gatherVar σ with nTouched := 0 }

/-- What is taken from the queue: a clause, or `bwdsub_tmpunit` with a literal of the trail. -/
inductive Entry where
  | clause (cr : ℕ)
  | tmpunit (p : Lit)
  deriving DecidableEq

def Entry.lits (σ : Simp) : Entry → Clause
  | .clause cr => σ.core.ca cr
  | .tmpunit p => [p]

def Entry.mark (σ : Simp) : Entry → Bool
  | .clause cr => σ.core.removed cr
  | .tmpunit _ => false

/-- Find best variable to scan. -/
def best (σ : Simp) : Clause → ℕ
  | [] => 0
  | p :: c => c.foldl
      (fun v q => if (σ.occurs q.var).length < (σ.occurs v).length then q.var else v) p.var

/-- Clauses below `subsumption_lim`, where `-1` is no limit. -/
def Small (lim : ℤ) (c : Clause) : Prop :=
  lim = -1 ∨ (c.length : ℤ) < lim

instance (lim : ℤ) (c : Clause) : Decidable (Small lim c) :=
  inferInstanceAs (Decidable (_ ∨ _))

/-- Search all candidates.  A clause that loses its literal of the variable leaves the list the loop
runs over, and the index steps back: so each clause of the list is visited once. -/
def scan (lim : ℤ) (e : Entry) : List ℕ → Simp → Bool × Simp
  | [], σ => (true, σ)
  | x :: xs, σ =>
    if e.mark σ then (true, σ)
    else if σ.core.removed x = false ∧ e ≠ .clause x ∧ Small lim (σ.core.ca x) then
      match subsumes (e.lits σ) (σ.core.ca x) with
      | none => scan lim e xs σ
      | some none => scan lim e xs (σ.removeClause x)
      | some (some l) =>
        match σ.strengthenClause x (-l) with
        | (false, τ) => (false, τ)
        | (true, τ) => scan lim e xs τ
    else scan lim e xs σ

/-- What the loop does with an entry. -/
def check (lim : ℤ) (e : Entry) (σ : Simp) : Bool × Simp :=
  if e.mark σ then (true, σ)
  else
    let v := σ.best (e.lits σ)
    let τ := σ.lookup v
    τ.scan lim e (τ.occurs v)

def backwardLoop (lim : ℤ) : ℕ → Simp → Option (Bool × Simp)
  | 0, _ => none
  | n + 1, σ =>
    match σ.queue with
    | cr :: queue =>
      match check lim (.clause cr) { σ with queue := queue } with
      | (false, τ) => some (false, τ)
      | (true, τ) => backwardLoop lim n τ
    | [] =>
      match σ.core.trail[σ.bwdsubAssigns]? with
      | some p =>
        match check lim (.tmpunit p) { σ with bwdsubAssigns := σ.bwdsubAssigns + 1 } with
        | (false, τ) => some (false, τ)
        | (true, τ) => backwardLoop lim n τ
      | none => some (true, σ)

/-- The literals of the clauses, the queue, and the trail that is to be checked. -/
def weight (σ : Simp) : ℕ :=
  (σ.core.clauses.map fun cr => (σ.core.ca cr).length).sum + σ.queue.length

def backwardSubsumptionCheck (lim : ℤ) (σ : Simp) : Option (Bool × Simp) :=
  backwardLoop lim (σ.weight + (σ.core.nVars - σ.bwdsubAssigns) + 1) σ

/-! ### Elimination -/

/-- `setDecisionVar(v, false)`. -/
def unsetDecision (σ : Simp) (v : ℕ) : Simp :=
  { σ with core := { σ.core with decision := Function.update σ.core.decision v false } }

/-- The clauses in the cross product are added. -/
def addResolvents (v : ℕ) : List (ℕ × ℕ) → Simp → Bool × Simp
  | [], σ => (true, σ)
  | (x, y) :: xs, σ =>
    match merge (σ.core.ca x) (σ.core.ca y) v with
    | none => addResolvents v xs σ
    | some c =>
      match σ.addClause_ c with
      | (false, τ) => (false, τ)
      | (true, τ) => addResolvents v xs τ

/-- The clauses that are stored for the eliminated variable. -/
def elimStack (σ : Simp) (v : ℕ) (pos neg : List ℕ) : List Clause :=
  if neg.length < pos.length then
    (neg.map fun x => mkElimClause v (σ.core.ca x)) ++ [[mkLit v false]]
  else (pos.map fun x => mkElimClause v (σ.core.ca x)) ++ [[mkLit v true]]

def eliminateVar (grow clauseLim lim : ℤ) (v : ℕ) (σ : Simp) : Option (Bool × Simp) :=
  let σ := σ.lookup v
  let cls := σ.occurs v
  let pos := cls.filter fun x => mkLit v false ∈ σ.core.ca x
  let neg := cls.filter fun x => mkLit v false ∉ σ.core.ca x
  let sizes := (pos ×ˢ neg).map fun e => mergeSize (σ.core.ca e.1) (σ.core.ca e.2) v
  if exceeds clauseLim (cls.length + grow) sizes 0 then some (true, σ)
  else
    -- Delete and store old clauses:
    let τ :=
      { σ with
        eliminated := Function.update σ.eliminated v true
        elimclauses := σ.elimclauses ++ σ.elimStack v pos neg }.unsetDecision v
    let τ := cls.foldl removeClause τ
    match τ.addResolvents v (pos ×ˢ neg) with
    | (false, υ) => some (false, υ)
    | (true, υ) => { υ with occurs := Function.update υ.occurs v [] }.backwardSubsumptionCheck lim

end Simp

end Parsat.Minisat
