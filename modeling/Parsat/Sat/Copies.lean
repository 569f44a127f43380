import Parsat.Sat.Renumber

/-!
# Sat — copies of a problem

`Problem` has hand-written copy and move constructors and assignments.  Each carries the clauses,
the path, the elimination flag and the result over, and nothing else: a new object has the maps, the
model and the solver of the default constructors, an assigned one keeps its own.

* `runAll_eq`: of a sequence of operations, the last one that writes to another object decides.
* `copies_agree_iff`: the copy answers as the original exactly if, in a new object, there is nothing
  to translate, or the assigned object translated the same before.
-/

namespace Parsat

/-- `core::sat::Problem` with the fields that reading leaves alone: the stack and the model of its
solver too. -/
structure ProblemState extends Problem where
  path : String
  eliminate : Bool
  elimclauses : List Clause
  solverModel : List LBool

namespace ProblemState

/-- `Problem(path, eliminate)`. -/
def construct {V : Vendored} (E : Elimination V) (F : Cnf) (path : String) (eliminate : Bool) :
    ProblemState where
  toProblem := readClauses V F eliminate
  path := path
  eliminate := eliminate
  elimclauses := E.elimclauses F eliminate
  solverModel := (readClauses V F eliminate).model

/-- The value `remap_and_extend_model` gives to the variable `i` before the reverse pass: what the
solver's model had there, if nothing else. -/
def remapVar (o : ProblemState) (vars : List LBool) (i : ℕ) : LBool :=
  if o.solver.nVars ≤ i then o.solverModel.getD i .undef
  else if o.solver.assigns i = .undef then
    match o.mapped i with
    | none => o.solverModel.getD i .undef
    | some j => vars.getD j .undef
  else o.solver.assigns i

/-- `remap_and_extend_model(vars)`: the model, which also stays in the solver; `none` is the failure
of the verification. -/
def remapAndExtendModel (o : ProblemState) (vars : List LBool) :
    Option (List LBool × ProblemState) :=
  if o.Verified vars then
    let size := max o.solverModel.length o.solver.nVars
    let model := (List.range size).map (extendModel o.elimclauses (o.remapVar vars))
    some (model, { o with solverModel := model })
  else none

/-- The model it returns. -/
def extended (o : ProblemState) (vars : List LBool) : Option (List LBool) :=
  (o.remapAndExtendModel vars).map Prod.fst

/-- Before the first call nothing is in the solver's model. -/
theorem extended_eq {o : ProblemState} (ho : o.solverModel = []) (vars : List LBool) :
    o.extended vars = (o.toProblem.remapAndExtendModel o.elimclauses vars).map fun β =>
      (List.range o.solver.nVars).map β := by
  have hvar : o.remapVar vars = o.toProblem.remapVar vars := by
    funext i
    simp only [remapVar, Problem.remapVar, Problem.mapped]
    cases o.mapping.getD i none <;> simp [ho]
  simp only [extended, remapAndExtendModel, Problem.remapAndExtendModel, hvar, ho]
  split <;> simp

/-! ### Copying and moving -/

/-- What each of the four operations writes, and what it leaves. -/
def carry (o target : ProblemState) : ProblemState :=
  { target with
    clauses := o.clauses
    eliminate := o.eliminate
    path := o.path
    result := o.result }

/-- An object before the body of a constructor runs. -/
def blank : ProblemState where
  clauses := []
  mapping := []
  revMapping := []
  model := []
  result := .UNKNOWN
  solver := .empty
  path := ""
  eliminate := false
  elimclauses := []
  solverModel := []

/-- `Problem(Problem const& o)`. -/
def copyConstruct (o : ProblemState) : ProblemState := carry o blank

/-- `Problem(Problem&& o)`. -/
def moveConstruct (o : ProblemState) : ProblemState := carry o blank

/-- `operator=(Problem const& o)`; a `target` of `none` is `o` itself. -/
def copyAssign (o : ProblemState) : Option ProblemState → ProblemState
  | none => o
  | some target => carry o target

/-- `operator=(Problem&& o)`; a `target` of `none` is `o` itself. -/
def moveAssign (o : ProblemState) : Option ProblemState → ProblemState
  | none => o
  | some target => carry o target

/-- One of the operations, with the object that is assigned to. -/
inductive Op where
  | copyConstruct
  | moveConstruct
  | copyAssign (target : Option ProblemState)
  | moveAssign (target : Option ProblemState)

/-- The object that holds the copy after the operation. -/
def run (o : ProblemState) : Op → ProblemState
  | .copyConstruct => o.copyConstruct
  | .moveConstruct => o.moveConstruct
  | .copyAssign target => o.copyAssign target
  | .moveAssign target => o.moveAssign target

/-- Each operation copies what the one before has left. -/
def runAll (p : ProblemState) (ops : List Op) : ProblemState := ops.foldl run p

/-- The object an operation writes to, as it was before; none if that is the copied one. -/
def Op.target : Op → Option ProblemState
  | .copyConstruct | .moveConstruct => some blank
  | .copyAssign target | .moveAssign target => target

/-- The last operation that writes to another object. -/
def lastWrite (ops : List Op) : Option Op := (ops.filter (·.target.isSome)).getLast?

variable {p o t : ProblemState} {ops : List Op}

theorem run_eq (o : ProblemState) (op : Op) :
    o.run op = (op.target.map (carry o)).getD o := by
  cases op with
  | copyConstruct => rfl
  | moveConstruct => rfl
  | copyAssign target => cases target <;> rfl
  | moveAssign target => cases target <;> rfl

/-- **The last write decides**, whatever the operations before it wrote to. -/
theorem runAll_eq (p : ProblemState) (ops : List Op) :
    p.runAll ops = (((lastWrite ops).bind Op.target).map (carry p)).getD p := by
  induction ops using List.reverseRecOn with
  | nil => rfl
  | append_singleton ops op ih =>
      have hrun : p.runAll (ops ++ [op]) = (p.runAll ops).run op := by
        simp [runAll, List.foldl_append]
      rw [hrun, run_eq]
      cases ht : op.target with
      | none =>
          have hlast : lastWrite (ops ++ [op]) = lastWrite ops := by simp [lastWrite, ht]
          rw [hlast, ← ih]
          rfl
      | some t =>
          have hlast : lastWrite (ops ++ [op]) = some op := by simp [lastWrite, ht]
          have hcarry : carry (p.runAll ops) t = carry p t := by
            rw [ih]
            cases (lastWrite ops).bind Op.target <;> rfl
          simp [hlast, ht, hcarry]

/-! ### What a copy answers -/

/-- `q` answers every call as `p` does. -/
structure SameResults (p q : ProblemState) : Prop where
  clauses : q.clauses = p.clauses
  get_result : q.result = p.result
  get_model : q.model = p.model
  get_mapping : q.mapping = p.mapping
  get_rev_mapping : q.revMapping = p.revMapping
  remap_variables : ∀ vs, q.remapVariables vs = p.remapVariables vs
  remap_and_extend_model : ∀ m, q.extended m = p.extended m

/-- There is nothing to translate: no map, no model and a solver without variables. -/
structure Blank (p : ProblemState) : Prop where
  mapping : p.mapping = []
  revMapping : p.revMapping = []
  model : p.model = []
  nVars : p.solver.nVars = 0
  solverModel : p.solverModel = []

/-- `t` has the maps and the model of `p`, and a solver that extends every model alike. -/
structure Stands (t p : ProblemState) : Prop where
  mapping : t.mapping = p.mapping
  revMapping : t.revMapping = p.revMapping
  model : t.model = p.model
  extended : ∀ m, t.extended m = p.extended m

/-- Extending reads nothing of what is carried over. -/
theorem extended_carry (o t : ProblemState) (m : List LBool) :
    (carry o t).extended m = t.extended m := by
  by_cases h : t.Verified m
  · have h' : (carry o t).Verified m := h
    simp only [extended, remapAndExtendModel, if_pos h, if_pos h', Option.map_some]
    rfl
  · have h' : ¬ (carry o t).Verified m := h
    simp only [extended, remapAndExtendModel, if_neg h, if_neg h', Option.map_none]

/-- What is not carried over was right before. -/
theorem sameResults_carry_iff : SameResults p (carry p t) ↔ t.Stands p := by
  constructor
  · intro h
    refine ⟨h.get_mapping, h.get_rev_mapping, h.get_model, fun m => ?_⟩
    exact (extended_carry p t m).symm.trans (h.remap_and_extend_model m)
  · intro h
    have hrev : (carry p t).revMapping = p.revMapping := h.revMapping
    refine ⟨rfl, rfl, h.model, h.mapping, hrev, fun vs => ?_, fun m => ?_⟩
    · rw [Problem.remapVariables, Problem.remapVariables, hrev]
    · exact (extended_carry p t m).trans (h.extended m)

theorem extended_of_blank (h : p.Blank) (m : List LBool) : p.extended m = some [] := by
  have hver : p.Verified m := fun i hi => by
    rw [h.nVars] at hi
    exact absurd hi (Nat.not_lt_zero i)
  simp [extended, remapAndExtendModel, hver, h.nVars, h.solverModel]

/-- A new object stands for `p` if there is nothing to translate. -/
theorem stands_blank_iff : blank.Stands p ↔ p.Blank := by
  have hblank : blank.Blank := ⟨rfl, rfl, rfl, rfl, rfl⟩
  constructor
  · intro h
    have hp : p.extended [] = some [] := (h.extended []).symm.trans (extended_of_blank hblank [])
    have hsize : max p.solverModel.length p.solver.nVars = 0 := by
      simp only [extended, remapAndExtendModel] at hp
      split at hp
      · simpa using hp
      · cases hp
    have hmodel : p.solverModel = [] := List.length_eq_zero_iff.mp (by omega)
    exact ⟨h.mapping.symm, h.revMapping.symm, h.model.symm, by omega, hmodel⟩
  · intro h
    refine ⟨h.mapping.symm, h.revMapping.symm, h.model.symm, fun m => ?_⟩
    rw [extended_of_blank hblank, extended_of_blank h]

/-- When the copy is right: nothing was written, or to a new object and there is nothing to
translate, or to one that stood for `p` before. -/
def Kept (p : ProblemState) (ops : List Op) : Prop :=
  match lastWrite ops with
  | none => True
  | some .copyConstruct | some .moveConstruct => p.Blank
  | some (.copyAssign target) | some (.moveAssign target) => ∀ t ∈ target, t.Stands p

/-- **Copies.**  After any sequence of copies and moves, the object that holds the copy answers as
`p` does exactly if the last object written to could have answered for `p` before. -/
theorem copies_agree_iff (p : ProblemState) (ops : List Op) :
    SameResults p (p.runAll ops) ↔ Kept p ops := by
  rw [runAll_eq, Kept]
  match h : lastWrite ops with
  | none => exact iff_of_true ⟨rfl, rfl, rfl, rfl, rfl, fun _ => rfl, fun _ => rfl⟩ trivial
  | some .copyConstruct | some .moveConstruct =>
      exact sameResults_carry_iff.trans stands_blank_iff
  | some (.copyAssign target) | some (.moveAssign target) =>
      cases target with
      | none =>
          -- such an operation writes to no other object
          have hmem := List.mem_of_getLast? h
          simp [Op.target] at hmem
      | some t => simpa [Op.target] using sameResults_carry_iff

/-- A copy of a problem read from `1 2 0` has no map. -/
theorem copy_loses_mapping : ¬ ∀ (p : ProblemState) (ops : List Op),
    SameResults p (p.runAll ops) := by
  intro h
  have hmap := (h (construct .off [[mkLit 0 false, mkLit 1 false]] "f.cnf" false)
    [.copyConstruct]).get_mapping
  revert hmap
  decide +kernel

/-- A copy of a problem read from any formula with a variable translates its models wrongly. -/
theorem not_sameResults_copyConstruct {V : Vendored} (E : Elimination V) {F : Cnf}
    (hF : Solver.numVars F ≠ 0) (path : String) (eliminate : Bool) :
    ¬ SameResults (construct E F path eliminate) (construct E F path eliminate).copyConstruct := by
  intro h
  have hvars : (readClauses V F eliminate).solver.nVars = 0 :=
    (stands_blank_iff.mp (sameResults_carry_iff.mp h)).nVars
  refine hF ?_
  rw [← Solver.loadClauses_nVars V.propagator]
  cases eliminate with
  | «false» => exact hvars
  | «true» => exact (E.nVars_eq _).symm.trans hvars

end ProblemState

end Parsat
