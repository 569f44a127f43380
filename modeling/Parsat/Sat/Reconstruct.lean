import Parsat.Sat.Problem

/-!
# Sat — the model of the whole formula

A solver finds a model of the exported clauses.  `Problem::remap_and_extend_model` turns it into a
model of the formula that was read: it takes the value a variable has at level 0, else the value of
its image under `_mapping`, and leaves the variable undefined if it has neither; then the reverse
pass of `extendModel` gives the eliminated variables their values.  `do_print_model` prints an
undefined variable as false.

What elimination leaves behind is a parameter (`Elimination`): the clauses stored for each
eliminated variable, and that the pass turns every total model of what is left into one of the
formula.

* `Stored.extendModel_clauses`: the clauses stored for a variable give it the value that one of them
  needs, or else the other one.  An undefined variable makes a clause that has it positively need
  nothing, though it is false as it is printed.
* `Shadow.extendModel`: the pass over an assignment with undefined variables and over the one with
  these variables false agree as long as no step is decided by that.
* `remapAndExtendModel_sat_iff`: so the printed assignment satisfies the formula exactly if none is.
* `remapAndExtendModel_wide`: a formula where one is.
-/

namespace Parsat

open UnitProp

/-! ### Extending and printing -/

/-- A `vec<lbool>` of values, undefined outside the vector. -/
abbrev PartialModel := ℕ → LBool

/-- `modelValue(Lit)`. -/
def modelValue (β : PartialModel) (p : Lit) : LBool := (β p.var).xor p.sign

/-- One clause of `elimclauses`: its first literal is made true unless another is not false. -/
def extendClause : Clause → PartialModel → PartialModel
  | [], β => β
  | x :: rest, β =>
    if rest.any fun q => modelValue β q ≠ .false then β
    else Function.update β x.var (.ofBool !x.sign)

/-- `extendModel()`, which starts with the clause pushed last. -/
def extendModel (elimclauses : List Clause) (β : PartialModel) : PartialModel :=
  elimclauses.foldr extendClause β

/-- The total reading of a partial assignment: an undefined variable is false. -/
def PartialModel.toModel (β : PartialModel) : Model := fun v => decide (β v = .true)

/-- Every clause has a true literal. -/
def PartialModel.Sat (β : PartialModel) (C : List Clause) : Prop :=
  ∀ c ∈ C, ∃ p ∈ c, modelValue β p = .true

/-- The value `remap_and_extend_model` gives to the variable `i` before the reverse pass. -/
def Problem.remapVar (p : Problem) (vars : List LBool) (i : ℕ) : LBool :=
  if p.solver.nVars ≤ i then .undef
  else if p.solver.assigns i = .undef then
    match p.mapping.getD i none with
    | none => .undef
    | some j => vars.getD j .undef
  else p.solver.assigns i

/-- The condition of the `IPS_VERIFY` in the loop. -/
def Problem.Verified (p : Problem) (vars : List LBool) : Prop :=
  ∀ i < p.solver.nVars, p.solver.assigns i = .undef →
    ∀ j ∈ p.mapping.getD i none, j < vars.length

instance (p : Problem) (vars : List LBool) : Decidable (p.Verified vars) :=
  inferInstanceAs (Decidable (∀ i < p.solver.nVars, _ → ∀ j ∈ p.mapping.getD i none, _))

/-- `remap_and_extend_model(vars)`, the first time it is called; `none` is the failure of the
verification. -/
def Problem.remapAndExtendModel (p : Problem) (elimclauses : List Clause) (vars : List LBool) :
    Option PartialModel :=
  if p.Verified vars then some (extendModel elimclauses (p.remapVar vars)) else none

/-- The numbers `do_print_model` writes for a model of `n` variables. -/
def doPrintModel (n : ℕ) (model : PartialModel) : List ℤ :=
  (List.range n).map fun v => if model v = .true then (v : ℤ) + 1 else -(v : ℤ) - 1

/-- The assignment a printed model stands for. -/
def printedModel (out : List ℤ) : Model := fun v => decide ((v : ℤ) + 1 ∈ out)

/-! ### What elimination leaves behind -/

/-- What `eliminateVar` pushes for a variable: the clauses with the literal `head`, of which `rests`
holds the other literals, and behind them the unit clause of the other sign. -/
structure Stored where
  head : Lit
  rests : List (List Lit)

namespace Stored

def clauses (g : Stored) : List Clause := g.rests.map (g.head :: ·) ++ [[-g.head]]

/-- A stored clause needs its first literal, all others being false. -/
def Needs (g : Stored) (β : PartialModel) : Prop :=
  ∃ rest ∈ g.rests, ∀ q ∈ rest, modelValue β q = .false

instance (g : Stored) (β : PartialModel) : Decidable (g.Needs β) :=
  inferInstanceAs (Decidable (∃ rest ∈ g.rests, _))

/-- A stored clause needs its first literal in what is printed, where an undefined variable is
false. -/
def NeedsPrinted (g : Stored) (β : PartialModel) : Prop :=
  ∃ rest ∈ g.rests, ∀ q ∈ rest, ¬ q.Holds β.toModel

/-- A variable that occurs in no stored clause, or only at its head. -/
def Avoids (g : Stored) (v : ℕ) : Prop := ∀ rest ∈ g.rests, ∀ q ∈ rest, q.var ≠ v

end Stored

/-- No variable is eliminated twice, and no clause stored for a variable has one that is gone. -/
structure InOrder (stored : List Stored) : Prop where
  own : ∀ g ∈ stored, g.Avoids g.head.var
  later : stored.Pairwise fun g h => h.head.var ≠ g.head.var ∧ h.Avoids g.head.var

/-- The reverse pass over what is stored. -/
def extendStored (stored : List Stored) (β : PartialModel) : PartialModel :=
  extendModel (stored.flatMap Stored.clauses) β

/-- Clauses and trail are about variables of the solver. -/
structure Solver.Bounded (s : Solver) : Prop where
  clauses : ∀ c ∈ s.clauses, ∀ p ∈ c, p.var < s.nVars
  trail : ∀ p ∈ s.trail, p.var < s.nVars

/-- `β` is total on the variables that are not eliminated, agrees with the level-0 assignment and
satisfies the remaining clauses. -/
structure Completes (s : Solver) (eliminated : ℕ → Bool) (β : PartialModel) : Prop where
  total : ∀ v < s.nVars, eliminated v = false → β v ≠ .undef
  agrees : ∀ v < s.nVars, s.assigns v ≠ .undef → β v = s.assigns v
  sat : β.Sat s.clauses

/-- What `eliminate(true)` stores and the variables it eliminates, as functions of the solver before
it.  The clauses it stores follow from the formula. -/
structure Elimination (V : Vendored) where
  stored : Solver → List Stored
  eliminated : Solver → ℕ → Bool
  heads : ∀ s, ∀ g ∈ stored s, eliminated s g.head.var = true
  nVars_eq : ∀ s, (V.eliminator.run s).2.nVars = s.nVars
  bounded : ∀ s : Solver, s.Bounded → (V.eliminator.run s).2.Bounded ∧
    ∀ g ∈ stored s, g.head.var < s.nVars ∧ ∀ rest ∈ g.rests, ∀ q ∈ rest, q.var < s.nVars
  inOrder : ∀ F : Cnf, (V.eliminator.run (Solver.loadClauses V.propagator F .empty)).1 = true →
    InOrder (stored (Solver.loadClauses V.propagator F .empty))
  implied : ∀ F : Cnf, (V.eliminator.run (Solver.loadClauses V.propagator F .empty)).1 = true →
    ∀ g ∈ stored (Solver.loadClauses V.propagator F .empty), ∀ rest ∈ g.rests, ∀ m : Model,
      m.Sat F → ∃ q ∈ g.head :: rest, q.Holds m
  reverse : ∀ (F : Cnf) (β : PartialModel),
    (V.eliminator.run (Solver.loadClauses V.propagator F .empty)).1 = true →
    Completes (V.eliminator.run (Solver.loadClauses V.propagator F .empty)).2
      (eliminated (Solver.loadClauses V.propagator F .empty)) β →
    (extendStored (stored (Solver.loadClauses V.propagator F .empty)) β).Sat F

namespace Elimination

variable {V : Vendored} (E : Elimination V) (F : Cnf)

/-- What is stored in the problem's solver. -/
def storedClauses (eliminate : Bool) : List Stored :=
  if eliminate then E.stored (Solver.loadClauses V.propagator F .empty) else []

/-- `elimclauses` of the problem's solver. -/
def elimclauses (eliminate : Bool) : List Clause :=
  (E.storedClauses F eliminate).flatMap Stored.clauses

/-- `isEliminated` of the problem's solver. -/
def isEliminated (eliminate : Bool) (v : ℕ) : Bool :=
  eliminate && E.eliminated (Solver.loadClauses V.propagator F .empty) v

/-- The variables nothing gives a value: neither assigned at level 0, nor in an exported clause,
nor eliminated. -/
def Free (eliminate : Bool) (v : ℕ) : Prop :=
  (readClauses V F eliminate).solver.assigns v = .undef ∧
    (readClauses V F eliminate).mapping.getD v none = none ∧ E.isEliminated F eliminate v = false

/-- In no step of the reverse pass is it left to an undefined variable whether the eliminated one
gets the value that its stored clauses need: if one needs it as printed, then one does. -/
def Decided (eliminate : Bool) (vars : List LBool) : Prop :=
  ∀ before g after, E.storedClauses F eliminate = before ++ g :: after →
    g.NeedsPrinted (extendStored after ((readClauses V F eliminate).remapVar vars)) →
    g.Needs (extendStored after ((readClauses V F eliminate).remapVar vars))

end Elimination

theorem not_holds_toModel {β : PartialModel} {p : Lit} (h : modelValue β p = .false) :
    ¬ p.Holds β.toModel := by
  simp only [Lit.Holds, PartialModel.toModel]
  simp only [modelValue] at h
  cases e : β p.var <;> cases e' : p.sign <;> simp_all [LBool.xor, LBool.ofBool]

/-! ### One variable after the other -/

namespace Stored

variable {g : Stored} {β : PartialModel}

theorem modelValue_update {v : ℕ} {q : Lit} (hq : q.var ≠ v) (b : LBool) :
    modelValue (Function.update β v b) q = modelValue β q := by
  rw [modelValue, modelValue, Function.update_of_ne hq]

/-- The clauses of one literal, once its variable has the other value. -/
theorem foldr_extendClause {l : Lit} {rests : List (List Lit)}
    (h : ∀ rest ∈ rests, ∀ q ∈ rest, q.var ≠ l.var) :
    (rests.map (l :: ·)).foldr extendClause (Function.update β l.var (.ofBool l.sign)) =
      Function.update β l.var
        (if ∃ rest ∈ rests, ∀ q ∈ rest, modelValue β q = .false then .ofBool !l.sign
        else .ofBool l.sign) := by
  induction rests with
  | nil => simp
  | cons rest rests ih =>
      obtain ⟨hrest, hrests⟩ := List.forall_mem_cons.mp h
      have hany : ∀ b, (rest.any fun q => modelValue (Function.update β l.var b) q ≠ .false) =
          !decide (∀ q ∈ rest, modelValue β q = .false) := by
        intro b
        rw [Bool.eq_iff_iff, List.any_eq_true]
        simp only [Bool.not_eq_true', decide_eq_false_iff_not, decide_eq_true_eq, not_forall,
          exists_prop]
        exact exists_congr fun q => and_congr_right fun hq => by rw [modelValue_update (hrest q hq)]
      rw [List.map_cons, List.foldr_cons, ih hrests, extendClause, hany]
      by_cases hall : ∀ q ∈ rest, modelValue β q = .false
      · have hex : ∃ r ∈ rest :: rests, ∀ q ∈ r, modelValue β q = .false :=
          ⟨rest, List.mem_cons_self, hall⟩
        rw [if_pos hex, decide_eq_true hall, if_neg (by simp), Function.update_idem]
      · have hex : (∃ r ∈ rest :: rests, ∀ q ∈ r, modelValue β q = .false) ↔
            ∃ r ∈ rests, ∀ q ∈ r, modelValue β q = .false := by
          simp [hall]
        rw [decide_eq_false hall, if_pos (by simp)]
        simp only [hex]

/-- **What the clauses of a variable do** in the reverse pass. -/
theorem extendModel_clauses (h : g.Avoids g.head.var) :
    extendModel g.clauses β = Function.update β g.head.var
      (if g.Needs β then .ofBool !g.head.sign else .ofBool g.head.sign) := by
  have hunit : extendClause [-g.head] β =
      Function.update β g.head.var (.ofBool g.head.sign) := by
    simp [extendClause]
  rw [extendModel, clauses, List.foldr_append, List.foldr_cons, List.foldr_nil, hunit]
  exact foldr_extendClause h

end Stored

theorem extendStored_cons (g : Stored) (stored : List Stored) (β : PartialModel) :
    extendStored (g :: stored) β = extendModel g.clauses (extendStored stored β) := by
  simp [extendStored, extendModel]

theorem extendStored_append (before after : List Stored) (β : PartialModel) :
    extendStored (before ++ after) β = extendStored before (extendStored after β) := by
  simp [extendStored, extendModel]

/-- A variable that is not eliminated keeps its value. -/
theorem extendStored_of_ne {stored : List Stored} {β : PartialModel} {v : ℕ}
    (hown : ∀ g ∈ stored, g.Avoids g.head.var) (hv : ∀ g ∈ stored, v ≠ g.head.var) :
    extendStored stored β v = β v := by
  induction stored with
  | nil => rfl
  | cons g stored ih =>
      rw [List.forall_mem_cons] at hown hv
      rw [extendStored_cons, Stored.extendModel_clauses hown.1, Function.update_of_ne hv.1]
      exact ih hown.2 hv.2

/-! ### Two passes side by side -/

/-- The variables of `U` are undefined in `β` and not true in `β'`; elsewhere the two agree. -/
structure Shadow (U : ℕ → Prop) (β β' : PartialModel) : Prop where
  agree : ∀ v, ¬ U v → β' v = β v
  undef : ∀ v, U v → β v = .undef
  not_true : ∀ v, U v → β' v ≠ .true

section Shadow

variable {U : ℕ → Prop} {β β' : PartialModel}

theorem Shadow.true_iff (h : Shadow U β β') (v : ℕ) : β v = .true ↔ β' v = .true := by
  by_cases hv : U v
  · simp [h.undef v hv, h.not_true v hv]
  · rw [h.agree v hv]

theorem Shadow.toModel_eq (h : Shadow U β β') : β.toModel = β'.toModel :=
  funext fun v => decide_eq_decide.mpr (h.true_iff v)

/-- What needs its head over `β'` needs it as printed over `β`, and the other way round if nothing
is left to a variable of `U`. -/
theorem Shadow.needs_iff (h : Shadow U β β') {g : Stored} (hg : g.NeedsPrinted β → g.Needs β) :
    g.Needs β' ↔ g.Needs β := by
  constructor
  · rintro ⟨rest, hrest, hfalse⟩
    exact hg ⟨rest, hrest, fun q hq => h.toModel_eq ▸ not_holds_toModel (hfalse q hq)⟩
  · rintro ⟨rest, hrest, hfalse⟩
    refine ⟨rest, hrest, fun q hq => ?_⟩
    have hq' := hfalse q hq
    have hu : ¬ U q.var := fun hu => by
      simp [modelValue, h.undef _ hu, LBool.xor] at hq'
    rwa [modelValue, h.agree _ hu]

/-- **The reverse pass** keeps the two in step. -/
theorem Shadow.extendModel (h : Shadow U β β') {stored : List Stored}
    (hown : ∀ g ∈ stored, g.Avoids g.head.var) (hU : ∀ g ∈ stored, ¬ U g.head.var)
    (hdec : ∀ before g after, stored = before ++ g :: after →
      g.NeedsPrinted (extendStored after β) → g.Needs (extendStored after β)) :
    Shadow U (extendStored stored β) (extendStored stored β') := by
  induction stored with
  | nil => exact h
  | cons g stored ih =>
      rw [List.forall_mem_cons] at hown hU
      have hs := ih hown.2 hU.2 fun before g' after e =>
        hdec (g :: before) g' after (congrArg (g :: ·) e)
      have hneeds := hs.needs_iff (hdec [] g stored rfl)
      have hne : ∀ v, U v → v ≠ g.head.var := fun v hv e => hU.1 (e ▸ hv)
      simp only [extendStored_cons, Stored.extendModel_clauses hown.1, hneeds]
      refine ⟨fun v hv => ?_, fun v hv => ?_, fun v hv => ?_⟩
      · by_cases e : v = g.head.var
        · simp [e]
        · rw [Function.update_of_ne e, Function.update_of_ne e, hs.agree v hv]
      · rw [Function.update_of_ne (hne v hv), hs.undef v hv]
      · rw [Function.update_of_ne (hne v hv)]
        exact hs.not_true v hv

/-- **A step that is left to an undefined variable**: a stored clause stays false as printed, to the
end of the pass. -/
theorem exists_lost {stored before after : List Stored} {g : Stored} (hord : InOrder stored)
    (heq : stored = before ++ g :: after) {β : PartialModel}
    (hp : g.NeedsPrinted (extendStored after β)) (hn : ¬ g.Needs (extendStored after β)) :
    ∃ rest ∈ g.rests, ∀ q ∈ g.head :: rest, ¬ q.Holds (extendStored stored β).toModel := by
  subst heq
  obtain ⟨rest, hrest, hfalse⟩ := hp
  have hown : g.Avoids g.head.var := hord.own g (by simp)
  have hbefore : ∀ h ∈ before, h.Avoids h.head.var := fun h hh =>
    hord.own h (List.mem_append_left _ hh)
  have hlater : ∀ h ∈ before, g.head.var ≠ h.head.var ∧ g.Avoids h.head.var := fun h hh =>
    (List.pairwise_append.mp hord.later).2.2 h hh g List.mem_cons_self
  refine ⟨rest, hrest, fun q hq => ?_⟩
  -- the steps that follow are about other variables
  have hkeep : extendStored (before ++ g :: after) β q.var =
      Function.update (extendStored after β) g.head.var (.ofBool g.head.sign) q.var := by
    rw [extendStored_append, extendStored_cons, Stored.extendModel_clauses hown, if_neg hn]
    refine extendStored_of_ne hbefore fun h hh => ?_
    rcases List.mem_cons.mp hq with rfl | hq
    · exact (hlater h hh).1
    · exact (hlater h hh).2 rest hrest q hq
  rw [Lit.Holds, PartialModel.toModel, hkeep]
  rcases List.mem_cons.mp hq with rfl | hq
  · rw [Function.update_self]
    cases g.head.sign <;> decide
  · rw [Function.update_of_ne (hown rest hrest q hq)]
    exact hfalse q hq

end Shadow

/-! ### The loaded solver -/

namespace Solver

variable {P : Propagator} {s : Solver}

theorem lt_growVars (s : Solver) (c : Clause) :
    s.nVars ≤ (s.growVars c).nVars ∧ ∀ p ∈ c, p.var < (s.growVars c).nVars := by
  simp only [growVars]
  generalize s.nVars = n
  induction c generalizing n with
  | nil => simp
  | cons q c ih =>
      obtain ⟨h₁, h₂⟩ := ih (max n (q.var + 1))
      simp only [List.foldl_cons]
      refine ⟨(le_max_left _ _).trans h₁, ?_⟩
      intro p hp
      rcases List.mem_cons.mp hp with rfl | hp
      · exact lt_of_lt_of_le (Nat.lt_succ_self _) ((le_max_right _ _).trans h₁)
      · exact h₂ p hp

/-- What propagation derives is on the trail or in a clause. -/
theorem Bounded.derives (h : s.Bounded) {p : Lit} (hp : Derives s.clauses s.trailSet p) :
    p.var < s.nVars := by
  cases hp with
  | base hp => exact h.trail p hp
  | unit hc hp _ => exact h.clauses _ hc p hp

theorem Bounded.addClause_ (h : s.Bounded) (hq : s.Quiescent) {ps : Clause}
    (hps : ∀ p ∈ ps, p.var < s.nVars) (hok : (addClause_ P s ps).2.ok = true) :
    (addClause_ P s ps).2.Bounded ∧ (addClause_ P s ps).2.nVars = s.nVars := by
  unfold Solver.addClause_ at hok ⊢
  split
  · exact ⟨h, rfl⟩
  · rename_i hs
    rw [if_neg hs] at hok
    split
    · exact ⟨h, rfl⟩
    · exact ⟨⟨h.clauses, h.trail⟩, rfl⟩
    · -- a unit clause: what is propagated from it has variables of the clauses
      rename_i p hk
      simp only [hk] at hok
      have hp := (keepLits_some hk).1 p (by simp)
      have hpv := hps p (mem_sortLits.mp hp.1)
      have hready := hq.ready_of_append (t := s.uncheckedEnqueue p)
        (hq.toWf.uncheckedEnqueue hp.2) rfl rfl rfl
      have hr := P.spec _ hready
      have hflag : (P.run (s.uncheckedEnqueue p)).1 = false := by simpa using hok
      have hb : (s.uncheckedEnqueue p).Bounded := by
        refine ⟨h.clauses, ?_⟩
        intro q hq'
        rcases List.mem_append.mp hq' with hq' | hq'
        · exact h.trail q hq'
        · rw [List.mem_singleton.mp hq']
          exact hpv
      refine ⟨⟨?_, ?_⟩, hr.nVars_eq⟩
      · intro c hc q hq'
        obtain ⟨d, hd, e⟩ := hr.clauses.symm.exists_perm hc
        exact hr.nVars_eq ▸ hb.clauses d hd q (e.mem_iff.mp hq')
      · intro q hq'
        exact hr.nVars_eq ▸ hb.derives ((hr.closure hflag q).mp hq')
    · rename_i c _ _ hk
      refine ⟨⟨?_, h.trail⟩, rfl⟩
      intro d hd q hq'
      rcases List.mem_append.mp hd with hd | hd
      · exact h.clauses d hd q hq'
      · rw [List.mem_singleton.mp hd] at hq'
        exact hps q (mem_sortLits.mp ((keepLits_some hk).1 q hq').1)

/-- Loading keeps to the variables it has made, and makes those of the formula. -/
theorem bounded_loadClauses (P : Propagator) (F : Cnf) :
    (loadClauses P F empty).ok = true → (loadClauses P F empty).Bounded ∧
      ∀ c ∈ F, ∀ p ∈ c, p.var < (loadClauses P F empty).nVars := by
  induction F using List.reverseRecOn with
  | nil => exact fun _ => ⟨⟨by simp [loadClauses, empty], by simp [loadClauses, empty]⟩, by simp⟩
  | append_singleton F c ih =>
      have hload : loadClauses P (F ++ [c]) empty =
          (addClause_ P ((loadClauses P F empty).growVars c) c).2 := by
        simp [loadClauses, List.foldl_append]
      rw [hload]
      intro hok
      -- a contradictory solver stays contradictory
      have hok' : (loadClauses P F empty).ok = true := by
        by_contra hn
        have hf : (loadClauses P F empty).ok = false := by simpa using hn
        simp [addClause_, growVars, hf] at hok
      obtain ⟨hb, hF⟩ := ih hok'
      have hq' := ((loaded_loadClauses P F).quiescent hok').growVars c
      obtain ⟨hle, hlt⟩ := lt_growVars (loadClauses P F empty) c
      have hb' : ((loadClauses P F empty).growVars c).Bounded :=
        ⟨fun d hd p hp => (hb.clauses d hd p hp).trans_le hle,
          fun p hp => (hb.trail p hp).trans_le hle⟩
      obtain ⟨h₁, h₂⟩ := hb'.addClause_ hq' hlt hok
      refine ⟨h₁, ?_⟩
      rw [h₂]
      intro d hd p hp
      rcases List.mem_append.mp hd with hd | hd
      · exact (hF d hd p hp).trans_le hle
      · exact hlt p (List.mem_singleton.mp hd ▸ hp)

end Solver

theorem holds_toModel {β : PartialModel} {p : Lit} (h : modelValue β p = .true) :
    p.Holds β.toModel := by
  simp only [Lit.Holds, PartialModel.toModel]
  simp only [modelValue] at h
  cases e : β p.var <;> cases e' : p.sign <;> simp_all [LBool.xor, LBool.ofBool]

theorem modelValue_of_holds {β : PartialModel} {p : Lit} (hd : β p.var ≠ .undef)
    (h : p.Holds β.toModel) : modelValue β p = .true := by
  simp only [Lit.Holds, PartialModel.toModel] at h
  simp only [modelValue]
  cases e : β p.var <;> cases e' : p.sign <;> simp_all [LBool.xor, LBool.ofBool]

/-- A total model of the loaded clauses and the trail is one of the formula. -/
theorem Completes.sat_loadClauses {P : Propagator} {F : Cnf}
    (hok : (Solver.loadClauses P F .empty).ok = true) {β : PartialModel}
    (h : Completes (Solver.loadClauses P F .empty) (fun _ => false) β) : β.Sat F := by
  have hL := Solver.loaded_loadClauses P F
  obtain ⟨hb, hF⟩ := Solver.bounded_loadClauses P F hok
  have hmodels : (Solver.loadClauses P F .empty).Models β.toModel := by
    refine ⟨?_, ?_⟩
    · intro c hc
      obtain ⟨p, hp, hv⟩ := h.sat c hc
      exact ⟨p, hp, holds_toModel hv⟩
    · intro p hp
      have hv := ((hL.quiescent hok).value_iff p).mpr hp
      have hne : (Solver.loadClauses P F .empty).assigns p.var ≠ .undef := by
        intro e
        simp [Solver.value, e, LBool.xor] at hv
      refine holds_toModel ?_
      rw [modelValue, h.agrees _ (hb.trail p hp) hne]
      exact hv
  intro c hc
  obtain ⟨p, hp, hv⟩ := (hL.models_iff hok _).mp hmodels c hc
  exact ⟨p, hp, modelValue_of_holds (h.total _ (hF c hc p hp) rfl) hv⟩

/-! ### The printed assignment -/

theorem printedModel_doPrintModel {n v : ℕ} (hv : v < n) (model : PartialModel) :
    printedModel (doPrintModel n model) v = decide (model v = .true) := by
  simp only [printedModel, doPrintModel, List.mem_map, List.mem_range, decide_eq_decide]
  constructor
  · rintro ⟨w, -, hw⟩
    split at hw
    · rename_i h
      have : w = v := by omega
      exact this ▸ h
    · omega
  · intro h
    exact ⟨v, hv, if_pos h⟩

theorem Shadow.sat_printed {U : ℕ → Prop} {β β' : PartialModel} (h : Shadow U β β') {F : Cnf}
    {n : ℕ} (hF : ∀ c ∈ F, ∀ p ∈ c, p.var < n) (hsat : β'.Sat F) :
    (printedModel (doPrintModel n β)).Sat F := by
  intro c hc
  obtain ⟨p, hp, hv⟩ := hsat c hc
  refine ⟨p, hp, ?_⟩
  have hm := holds_toModel hv
  rw [Lit.Holds, printedModel_doPrintModel (hF c hc p hp)]
  rw [Lit.Holds, PartialModel.toModel] at hm
  simpa only [h.true_iff] using hm

/-- A solver that is `ok` after reading: no clause is false, and everything is about its
variables. -/
theorem readClauses_settled {V : Vendored}
    (hV : ∀ s : Solver, s.Bounded → (V.eliminator.run s).2.Bounded) {F : Cnf} {e : Bool}
    (hok : (readClauses V F e).solver.ok = true) :
    (Solver.loadClauses V.propagator F .empty).ok = true ∧
      (readClauses V F e).solver.Settled ∧ (readClauses V F e).solver.Bounded := by
  have hL := Solver.loaded_loadClauses V.propagator F
  have hB := Solver.bounded_loadClauses V.propagator F
  cases e with
  | «false» =>
      have hok' : (Solver.loadClauses V.propagator F .empty).ok = true := hok
      exact ⟨hok', (hL.quiescent hok').settled, (hB hok').1⟩
  | «true» =>
      have hrun : (readClauses V F true).solver =
        (V.eliminator.run (Solver.loadClauses V.propagator F .empty)).2 := rfl
      have hflag := (V.eliminator.flag _).trans (hrun ▸ hok)
      have hok' : (Solver.loadClauses V.propagator F .empty).ok = true := by
        by_contra hn
        rw [V.eliminator.not_ok _ (by simpa using hn)] at hflag
        cases hflag
      rw [hrun]
      exact ⟨hok', V.eliminator.settled _ hok' (hL.quiescent hok') hflag, hV _ (hB hok').1⟩

/-- What is assumed of elimination, for the problem's solver. -/
structure Elimination.Stack {V : Vendored} (E : Elimination V) (F : Cnf) (e : Bool) : Prop where
  heads : ∀ g ∈ E.storedClauses F e, E.isEliminated F e g.head.var = true
  lt : ∀ g ∈ E.storedClauses F e, g.head.var < (readClauses V F e).solver.nVars ∧
    ∀ rest ∈ g.rests, ∀ q ∈ rest, q.var < (readClauses V F e).solver.nVars
  inOrder : InOrder (E.storedClauses F e)
  implied : ∀ g ∈ E.storedClauses F e, ∀ rest ∈ g.rests, ∀ m : Model, m.Sat F →
    ∃ q ∈ g.head :: rest, q.Holds m
  reverse : ∀ β, Completes (readClauses V F e).solver (E.isEliminated F e) β →
    (extendStored (E.storedClauses F e) β).Sat F

/-- Its variables are also those of the formula, and the reverse pass completes a total model of
what is left. -/
theorem Elimination.spec {V : Vendored} (E : Elimination V) (F : Cnf) (e : Bool)
    (hok : (readClauses V F e).solver.ok = true) :
    (readClauses V F e).solver.Settled ∧ (readClauses V F e).solver.Bounded ∧
      (∀ c ∈ F, ∀ p ∈ c, p.var < (readClauses V F e).solver.nVars) ∧ E.Stack F e := by
  obtain ⟨hok', hsettled, hbounded⟩ := readClauses_settled (fun s hs => (E.bounded s hs).1) hok
  obtain ⟨hloaded, hF⟩ := Solver.bounded_loadClauses V.propagator F hok'
  refine ⟨hsettled, hbounded, ?_⟩
  cases e with
  | «false» =>
      have hnil : E.storedClauses F false = [] := rfl
      refine ⟨hF, ?_, ?_, ?_, ?_, fun β hβ => Completes.sat_loadClauses hok' hβ⟩ <;> rw [hnil]
      · simp
      · simp
      · exact ⟨by simp, List.Pairwise.nil⟩
      · simp
  | «true» =>
      have hrun : (readClauses V F true).solver =
        (V.eliminator.run (Solver.loadClauses V.propagator F .empty)).2 := rfl
      have hflag := (V.eliminator.flag _).trans (hrun ▸ hok)
      have hn := E.nVars_eq (Solver.loadClauses V.propagator F .empty)
      refine ⟨?_, E.heads _, ?_, E.inOrder F hflag, E.implied F hflag,
        fun β hβ => E.reverse F β hflag hβ⟩ <;> rw [hrun, hn]
      · exact hF
      · exact (E.bounded _ hloaded).2

section Remap

variable {V : Vendored} {E : Elimination V} {F : Cnf} {e : Bool} {vars : List LBool}

/-- A model of the exported clauses gives every mapped variable a value. -/
theorem getD_ne_undef
    (htotal : ∀ c ∈ (readClauses V F e).clauses, ∀ p ∈ c, vars.getD p.var .undef ≠ .undef)
    {i j : ℕ} (hj : (readClauses V F e).mapping.getD i none = some j) :
    vars.getD j .undef ≠ .undef := by
  obtain ⟨-, -, hdom, hcl⟩ := Solver.toDimacs_spec (readClauses V F e).solver
  have hget : ((readClauses V F e).solver.toDimacs []).2.get i = some j := hj
  obtain ⟨c, hc, p, hp, rfl⟩ := hdom i (by rw [hget]; rfl)
  have hmem : c.map ((readClauses V F e).solver.toDimacs []).2.rename ∈
      (readClauses V F e).clauses := by
    change _ ∈ ((readClauses V F e).solver.toDimacs []).1
    rw [hcl]
    exact List.mem_map_of_mem hc
  have := htotal _ hmem _ (List.mem_map_of_mem hp)
  simpa [VarMap.rename, hget] using this

/-- The assignment before the reverse pass, with the free variables false. -/
noncomputable def filled (E : Elimination V) (F : Cnf) (e : Bool) (vars : List LBool) :
    PartialModel :=
  open Classical in
  fun v => if v < (readClauses V F e).solver.nVars ∧ E.Free F e v then .false
    else (readClauses V F e).remapVar vars v

theorem shadow_filled (E : Elimination V) (F : Cnf) (e : Bool) (vars : List LBool) :
    Shadow (E.Free F e) ((readClauses V F e).remapVar vars) (filled E F e vars) := by
  have hundef : ∀ v, E.Free F e v → (readClauses V F e).remapVar vars v = .undef := by
    rintro v ⟨h₁, h₂, -⟩
    rw [Problem.remapVar, if_pos h₁, h₂]
    split <;> rfl
  refine ⟨?_, hundef, ?_⟩
  · intro v hv
    rw [filled, if_neg fun h => hv h.2]
  · intro v hv
    rw [filled]
    split
    · decide
    · rw [hundef v hv]
      decide

/-- A value at level 0 is taken over. -/
theorem filled_of_assigned {v : ℕ} (hv : v < (readClauses V F e).solver.nVars)
    (h : (readClauses V F e).solver.assigns v ≠ .undef) :
    filled E F e vars v = (readClauses V F e).solver.assigns v := by
  rw [filled, if_neg fun hf => h hf.2.1, Problem.remapVar, if_neg (not_le.mpr hv),
    if_neg h]

/-- A mapped variable gets the value of its image. -/
theorem filled_of_mapped {v j : ℕ} (hv : v < (readClauses V F e).solver.nVars)
    (h : (readClauses V F e).solver.assigns v = .undef)
    (hj : (readClauses V F e).mapping.getD v none = some j) :
    filled E F e vars v = vars.getD j .undef := by
  have hne : ¬ E.Free F e v := by
    intro hf
    rw [hf.2.1] at hj
    cases hj
  rw [filled, if_neg fun hf => hne hf.2, Problem.remapVar, if_neg (not_le.mpr hv),
    if_pos h, hj]

/-- The residual clauses are satisfied through the mapping. -/
theorem exists_true_openLits (hb : (readClauses V F e).solver.Bounded)
    (hsat : PartialModel.Sat (fun v => vars.getD v .undef) (readClauses V F e).clauses)
    {c : Clause} (hc : c ∈ (readClauses V F e).solver.clauses)
    (hs : (readClauses V F e).solver.satisfied c = false)
    (ho : (readClauses V F e).solver.openLits c ≠ []) :
    ∃ p ∈ c, modelValue (filled E F e vars) p = .true := by
  obtain ⟨-, hget, -, hcl⟩ := Solver.toDimacs_spec (readClauses V F e).solver
  have hres := Solver.mem_residual.mpr ⟨c, hc, hs, ho, rfl⟩
  have hmem : ((readClauses V F e).solver.openLits c).map
      ((readClauses V F e).solver.toDimacs []).2.rename ∈ (readClauses V F e).clauses := by
    change _ ∈ ((readClauses V F e).solver.toDimacs []).1
    rw [hcl]
    exact List.mem_map_of_mem hres
  obtain ⟨q, hq, hv⟩ := hsat _ hmem
  obtain ⟨p, hp, rfl⟩ := List.mem_map.mp hq
  obtain ⟨j, hj⟩ := Option.isSome_iff_exists.mp (hget _ hres p hp)
  obtain ⟨hpc, hpv⟩ := List.mem_filter.mp hp
  -- the literal is neither false nor, in an unsatisfied clause, true
  have hundef : (readClauses V F e).solver.assigns p.var = .undef := by
    have hnt : (readClauses V F e).solver.value p ≠ .true := fun h => by
      rw [Solver.satisfied_iff.mpr ⟨p, hpc, h⟩] at hs
      cases hs
    have hnf : (readClauses V F e).solver.value p ≠ .false := by simpa using hpv
    simp only [Solver.value] at hnt hnf
    cases h : (readClauses V F e).solver.assigns p.var <;> cases h' : p.sign <;>
      simp [h, h', LBool.xor, LBool.ofBool] at hnt hnf ⊢
  refine ⟨p, hpc, ?_⟩
  rw [modelValue, filled_of_mapped (hb.clauses c hc p hpc) hundef hj]
  simpa [modelValue, VarMap.rename, hj] using hv

/-- **The filled assignment** is a total model of what elimination left. -/
theorem completes_filled (hset : (readClauses V F e).solver.Settled)
    (hb : (readClauses V F e).solver.Bounded)
    (htotal : ∀ c ∈ (readClauses V F e).clauses, ∀ p ∈ c, vars.getD p.var .undef ≠ .undef)
    (hsat : PartialModel.Sat (fun v => vars.getD v .undef) (readClauses V F e).clauses) :
    Completes (readClauses V F e).solver (E.isEliminated F e) (filled E F e vars) := by
  refine ⟨?_, fun v hv h => filled_of_assigned hv h, ?_⟩
  · intro v hv hel
    by_cases ha : (readClauses V F e).solver.assigns v = .undef
    · cases hm : (readClauses V F e).mapping.getD v none with
      | none =>
          rw [filled, if_pos ⟨hv, ha, hm, hel⟩]
          decide
      | some j =>
          rw [filled_of_mapped hv ha hm]
          exact getD_ne_undef htotal hm
    · rw [filled_of_assigned hv ha]
      exact ha
  · intro c hc
    by_cases hs : (readClauses V F e).solver.satisfied c = true
    · obtain ⟨p, hp, hv⟩ := Solver.satisfied_iff.mp hs
      have hne : (readClauses V F e).solver.assigns p.var ≠ .undef := by
        intro h
        simp [Solver.value, h, LBool.xor] at hv
      refine ⟨p, hp, ?_⟩
      rw [modelValue, filled_of_assigned (hb.clauses c hc p hp) hne]
      exact hv
    · obtain ⟨q, hq, hqv⟩ := hset.not_falsified c hc
      refine exists_true_openLits hb hsat hc (by simpa using hs) ?_
      exact List.ne_nil_of_mem (List.mem_filter.mpr ⟨hq, by simpa using hqv⟩)

end Remap

/-- **Model reconstruction.**  For a formula whose reading ends with `UNKNOWN` and a solver that is
`ok`, and for every total model of the exported clauses: the call does not fail and the printed
assignment satisfies the formula exactly if no step of the reverse pass is left to an undefined
variable. -/
theorem remapAndExtendModel_sat_iff (V : Vendored) (E : Elimination V) (F : Cnf) (e : Bool)
    (vars : List LBool) (_hresult : (readClauses V F e).result = .UNKNOWN)
    (hok : (readClauses V F e).solver.ok = true)
    (htotal : ∀ c ∈ (readClauses V F e).clauses, ∀ p ∈ c, vars.getD p.var .undef ≠ .undef)
    (hsat : PartialModel.Sat (fun v => vars.getD v .undef) (readClauses V F e).clauses) :
    (∃ model, (readClauses V F e).remapAndExtendModel (E.elimclauses F e) vars = some model ∧
      (printedModel (doPrintModel (readClauses V F e).solver.nVars model)).Sat F) ↔
      E.Decided F e vars := by
  obtain ⟨hset, hb, hF, hstack⟩ := E.spec F e hok
  -- a number beyond `vars` would be a literal without a value
  have hver : (readClauses V F e).Verified vars := by
    intro i _ _ j hj
    by_contra hn
    refine getD_ne_undef htotal hj ?_
    rw [List.getD_eq_getElem?_getD, List.getElem?_eq_none (by omega), Option.getD_none]
  have hrun : (readClauses V F e).remapAndExtendModel (E.elimclauses F e) vars =
      some (extendStored (E.storedClauses F e) ((readClauses V F e).remapVar vars)) := if_pos hver
  rw [hrun]
  constructor
  · rintro ⟨model, hmodel, hprinted⟩ before g after heq hp
    obtain rfl := Option.some.inj hmodel
    by_contra hn
    obtain ⟨rest, hrest, hlost⟩ := exists_lost hstack.inOrder heq hp hn
    have hg : g ∈ E.storedClauses F e := by simp [heq]
    obtain ⟨q, hq, hm⟩ := hstack.implied g hg rest hrest _ hprinted
    have hlt : q.var < (readClauses V F e).solver.nVars := by
      rcases List.mem_cons.mp hq with rfl | hq
      · exact (hstack.lt g hg).1
      · exact (hstack.lt g hg).2 rest hrest q hq
    refine hlost q hq ?_
    rwa [Lit.Holds, printedModel_doPrintModel hlt] at hm
  · intro hdec
    -- the first literal of a clause on the stack is eliminated, so it is not free
    have hfree : ∀ g ∈ E.storedClauses F e, ¬ E.Free F e g.head.var := by
      rintro g hg ⟨-, -, hf⟩
      rw [hstack.heads g hg] at hf
      cases hf
    have hshadow := (shadow_filled E F e vars).extendModel hstack.inOrder.own hfree hdec
    exact ⟨_, rfl, hshadow.sat_printed hF (hstack.reverse _ (completes_filled hset hb htotal hsat))⟩

/-- Without elimination nothing is stored. -/
def Elimination.off : Elimination .plain where
  stored _ := []
  eliminated _ _ := false
  heads := by simp
  nVars_eq _ := rfl
  bounded _ h := ⟨h, by simp⟩
  inOrder _ _ := ⟨by simp, List.Pairwise.nil⟩
  implied _ _ := by simp
  reverse _ _ hok h := Completes.sat_loadClauses hok h

/-- The formula `(1 ∨ 2) ∧ (¬3 ∨ ¬4) ∧ 3`: the value of `3` comes from level 0, as that of `4`. -/
theorem remapAndExtendModel_sat_units :
    ∃ model, (readClauses .plain [[mkLit 1 false, mkLit 2 false], [mkLit 3 true, mkLit 4 true],
        [mkLit 3 false]] false).remapAndExtendModel [] [.true, .false] = some model ∧
      (printedModel (doPrintModel 5 model)).Sat
        [[mkLit 1 false, mkLit 2 false], [mkLit 3 true, mkLit 4 true], [mkLit 3 false]] :=
  (remapAndExtendModel_sat_iff .plain .off _ false _ (by decide +kernel) (by decide +kernel)
    (by decide +kernel) (by unfold PartialModel.Sat; decide +kernel)).mpr
    fun before g after h => by cases before <;> cases h

/-! ### A formula with a free variable on the stack -/

namespace Solver

variable {P : Propagator} {s : Solver}

/-- The loop of `addClause_` on a sorted clause of unassigned variables. -/
theorem keepLits_eq_some (hs : ∀ p, s.value p = .undef) {c : Clause}
    (hc : c.Pairwise fun p q => p.var < q.var) {last : Option Lit}
    (hlast : ∀ l ∈ last, ∀ p ∈ c, l.var < p.var) : s.keepLits last c = some c := by
  induction c generalizing last with
  | nil => rfl
  | cons p c ih =>
      obtain ⟨hp, hc⟩ := List.pairwise_cons.mp hc
      have hne : ∀ l ∈ last, p ≠ -l ∧ l ≠ p := fun l hl => by
        have := hlast l hl p List.mem_cons_self
        refine ⟨?_, ?_⟩ <;> rintro rfl
        · simp at this
        · exact lt_irrefl _ this
      have h₁ : ¬ (s.value p = .true ∨ last.map (-·) = some p) := by
        rw [hs p]
        rintro (h | h)
        · cases h
        · obtain ⟨l, hl, rfl⟩ := Option.map_eq_some_iff.mp h
          exact (hne l hl).1 rfl
      have h₂ : s.value p ≠ .false ∧ last ≠ some p := by
        rw [hs p]
        refine ⟨by decide, ?_⟩
        rintro rfl
        exact (hne p rfl).2 rfl
      have hrest : s.keepLits (some p) c = some c :=
        ih hc fun l hl q hq => Option.some.inj hl ▸ hp q hq
      rw [keepLits, if_neg h₁, if_pos h₂, hrest]
      rfl

/-- Sorted clauses of unassigned variables are attached as they are. -/
theorem loadClauses_attach {C : List Clause}
    (hC : ∀ c ∈ C, 2 ≤ c.length ∧ c.Pairwise fun p q => p.var < q.var) (hok : s.ok = true)
    (hs : ∀ p, s.value p = .undef) :
    ∃ n, loadClauses P C s = { s with clauses := s.clauses ++ C, nVars := n } := by
  induction C generalizing s with
  | nil => exact ⟨s.nVars, by simp [loadClauses]⟩
  | cons c C ih =>
      obtain ⟨⟨hlen, hc⟩, hC⟩ := List.forall_mem_cons.mp hC
      have hsort : sortLits c = c := by
        refine List.Pairwise.insertionSort_eq (hc.imp ?_)
        intro p q h
        simp only [Lit.toInt]
        cases p.sign <;> cases q.sign <;> simp <;> omega
      have hkeep : (s.growVars c).keepLits none (sortLits c) = some c := by
        rw [hsort]
        exact keepLits_eq_some (s := s.growVars c) hs hc fun l hl => by cases hl
      have hadd : (addClause_ P (s.growVars c) c).2 =
          { s.growVars c with clauses := s.clauses ++ [c] } := by
        rcases c with _ | ⟨a, _ | ⟨b, c⟩⟩
        · exact absurd hlen (by simp)
        · exact absurd hlen (by simp)
        · have hok' : (s.growVars (a :: b :: c)).ok = true := hok
          simp only [addClause_, hok', hkeep]
          rfl
      have hstep : loadClauses P (c :: C) s =
          loadClauses P C { s.growVars c with clauses := s.clauses ++ [c] } := by
        rw [loadClauses, List.foldl_cons, hadd]
        rfl
      obtain ⟨n, hn⟩ := ih (s := { s.growVars c with clauses := s.clauses ++ [c] }) hC hok hs
      refine ⟨n, ?_⟩
      rw [hstep, hn]
      simp [growVars]

theorem saturating_clauses (s : Solver) : (Propagator.saturating.run s).2.clauses = s.clauses := by
  simp only [Propagator.saturating, saturatingRun]
  rw [foldl_uncheckedEnqueue_frame]

end Solver

/-- The literals of the variables `4, …, n + 3`. -/
def wideTail (n : ℕ) : List Lit := (List.range n).map fun i => mkLit (4 + i) false

/-- Two clauses of `n + 2` literals with the variables `0` and `1`, an equivalence between `1` and
the negation of `2`, and clauses that keep the other variables from being eliminated. -/
def longClauses (n : ℕ) : List Clause :=
  [mkLit 0 false :: mkLit 1 false :: wideTail n, mkLit 0 false :: mkLit 1 true :: wideTail n,
    [mkLit 1 false, mkLit 2 false], [mkLit 1 true, mkLit 2 true],
    [mkLit 3 true, mkLit 4 false, mkLit 5 false], [mkLit 3 true, mkLit 6 false, mkLit 7 false]] ++
  (List.range n).map fun i => [mkLit 3 false, mkLit (4 + i) true]

/-- The file: the clauses, and then the unit clause `0`. -/
def wideFormula (n : ℕ) : Cnf := longClauses n ++ [[mkLit 0 false]]

/-- What `eliminate` leaves of `longClauses`: the clauses with the variable `2` are gone, and the
two wide ones, which are satisfied, are still there, being too long for the subsumption check. -/
def wideRest (n : ℕ) : List Clause := (longClauses n).filter fun c => c.all fun p => p.var ≠ 2

/-- The solver after reading `wideFormula n`. -/
def IsWide (n : ℕ) (s : Solver) : Prop :=
  s.ok = true ∧ s.clauses = longClauses n ∧ s.trail = [mkLit 0 false]

instance (n : ℕ) (s : Solver) : Decidable (IsWide n s) := inferInstanceAs (Decidable (_ ∧ _ ∧ _))

theorem mem_longClauses {n : ℕ} {c : Clause} (h : c ∈ longClauses n) :
    (∃ b, c = mkLit 0 false :: mkLit 1 b :: wideTail n) ∨
      (∃ b, c = [mkLit 1 b, mkLit 2 b]) ∨
      (∃ q ∈ c, q.sign = true ∧ 3 ≤ q.var) ∧ 2 ≤ c.length ∧ (∀ q ∈ c, 3 ≤ q.var) ∧
        c.Pairwise fun p q => p.var < q.var := by
  simp only [longClauses, List.cons_append, List.nil_append, List.mem_cons, List.mem_map] at h
  rcases h with rfl | rfl | rfl | rfl | rfl | rfl | ⟨i, -, rfl⟩
  · exact .inl ⟨_, rfl⟩
  · exact .inl ⟨_, rfl⟩
  · exact .inr (.inl ⟨_, rfl⟩)
  · exact .inr (.inl ⟨_, rfl⟩)
  · exact .inr (.inr (by decide))
  · exact .inr (.inr (by decide))
  · exact .inr (.inr ⟨⟨mkLit (4 + i) true, by simp, rfl, by simp; omega⟩, by simp, by simp; omega,
      by simp; omega⟩)

theorem le_var_wideTail {n : ℕ} {q : Lit} (h : q ∈ wideTail n) : 4 ≤ q.var := by
  obtain ⟨i, -, rfl⟩ := List.mem_map.mp h
  exact Nat.le_add_right 4 i

theorem longClauses_sorted {n : ℕ} :
    ∀ c ∈ longClauses n, 2 ≤ c.length ∧ c.Pairwise fun p q => p.var < q.var := by
  intro c hc
  rcases mem_longClauses hc with ⟨b, rfl⟩ | ⟨b, rfl⟩ | ⟨-, h₁, -, h₂⟩
  · have htail : (wideTail n).Pairwise fun p q => p.var < q.var := by
      rw [wideTail, List.pairwise_map]
      exact List.pairwise_lt_range.imp fun h => by simpa using h
    refine ⟨by simp, ?_⟩
    simp only [List.pairwise_cons, List.mem_cons, mkLit_var]
    refine ⟨?_, ?_, htail⟩
    · rintro q (rfl | hq)
      · simp
      · exact lt_of_lt_of_le (by decide) (le_var_wideTail hq)
    · intro q hq
      exact lt_of_lt_of_le (by decide) (le_var_wideTail hq)
  · simp
  · exact ⟨h₁, h₂⟩

/-- The variable `0` occurs positively only. -/
theorem neg_not_mem_longClauses {n : ℕ} : ∀ c ∈ longClauses n, mkLit 0 true ∉ c := by
  intro c hc hm
  rcases mem_longClauses hc with ⟨b, rfl⟩ | ⟨b, rfl⟩ | ⟨-, -, h, -⟩
  · simp only [List.mem_cons] at hm
    rcases hm with hm | hm | hm
    · simp [mkLit] at hm
    · simp [mkLit] at hm
    · have := le_var_wideTail hm
      simp at this
  · simp [mkLit] at hm
  · have := h _ hm
    simp at this

/-- A literal whose negation is in no clause propagates nothing. -/
theorem Derives.eq_of_pure {C : List Clause} {y : Lit}
    (hC : ∀ c ∈ C, 2 ≤ c.length ∧ c.Pairwise fun p q => p.var < q.var) (hy : ∀ c ∈ C, -y ∉ c)
    {p : Lit} (h : Derives C {y} p) : p = y := by
  have hclosed : Closed C {y} := by
    intro c hc p hp hu
    obtain ⟨hlen, hpw⟩ := hC c hc
    have hother : ∃ q ∈ c, q ≠ p := by
      match c, hlen, hpw with
      | a :: b :: c, _, hpw =>
        have hab := (List.pairwise_cons.mp hpw).1 b (by simp)
        by_cases e : a = p
        · exact ⟨b, by simp, fun e' => by rw [e, e'] at hab; exact lt_irrefl _ hab⟩
        · exact ⟨a, by simp, e⟩
    obtain ⟨q, hq, hne⟩ := hother
    have hqy : q = -y := by rw [← Set.mem_singleton_iff.mp (hu q hq hne), neg_neg]
    exact absurd (hqy ▸ hq) (hy c hc)
  exact Set.mem_singleton_iff.mp (hclosed.derives_iff.mp h)

open Solver in
/-- Reading `wideFormula` attaches its clauses and assigns the variable `0`. -/
theorem isWide_loadClauses (n : ℕ) :
    IsWide n (loadClauses .saturating (wideFormula n) .empty) := by
  have hval : ∀ p, Solver.empty.value p = .undef := fun p => by
    simp [value, Solver.empty, LBool.xor]
  obtain ⟨k, hk⟩ :=
    loadClauses_attach (P := .saturating) (s := .empty) (longClauses_sorted (n := n))
      rfl hval
  have hq := (loaded_loadClauses .saturating (longClauses n)).quiescent (by rw [hk]; rfl)
  rw [hk] at hq
  set s : Solver :=
    { Solver.empty with clauses := Solver.empty.clauses ++ longClauses n, nVars := k }
  have hq' := hq.growVars [mkLit 0 false]
  have hload : loadClauses .saturating (wideFormula n) .empty =
      (addClause_ .saturating (s.growVars [mkLit 0 false]) [mkLit 0 false]).2 := by
    rw [wideFormula, loadClauses, List.foldl_append]
    exact congrArg (fun t => (addClause_ _ (t.growVars [mkLit 0 false]) [mkLit 0 false]).2) hk
  have hkeep : (s.growVars [mkLit 0 false]).keepLits none (sortLits [mkLit 0 false]) =
      some [mkLit 0 false] :=
    keepLits_eq_some (s := s.growVars [mkLit 0 false]) hval (List.pairwise_singleton _ _)
      fun l hl => by cases hl
  have hready := hq'.ready_of_append
    (t := (s.growVars [mkLit 0 false]).uncheckedEnqueue (mkLit 0 false))
    (hq'.toWf.uncheckedEnqueue (hval _)) rfl rfl rfl
  have hr := Propagator.saturating.spec _ hready
  have hset : ((s.growVars [mkLit 0 false]).uncheckedEnqueue (mkLit 0 false)).trailSet =
      {mkLit 0 false} := by
    ext p
    simp [trailSet, uncheckedEnqueue, growVars, s, Solver.empty]
  -- `¬0` is in no clause, so nothing follows from the unit
  have hder : ∀ p, Derives (longClauses n) {mkLit 0 false} p → p = mkLit 0 false := fun p hp =>
    Derives.eq_of_pure longClauses_sorted neg_not_mem_longClauses hp
  have hclauses : ((s.growVars [mkLit 0 false]).uncheckedEnqueue (mkLit 0 false)).clauses =
    longClauses n := rfl
  have hflag : (Propagator.saturating.run
      ((s.growVars [mkLit 0 false]).uncheckedEnqueue (mkLit 0 false))).1 = false := by
    rw [Bool.eq_false_iff, ne_eq, hr.conflict_iff, hset, hclauses]
    rintro ⟨c, hc, hall⟩
    obtain ⟨q, hq⟩ := List.exists_mem_of_length_pos
      (lt_of_lt_of_le Nat.two_pos (longClauses_sorted c hc).1)
    have hneg : q = mkLit 0 true := by
      rw [← neg_neg q, hder _ (hall q hq)]
      rfl
    exact neg_not_mem_longClauses c hc (hneg ▸ hq)
  have htrail : (Propagator.saturating.run
      ((s.growVars [mkLit 0 false]).uncheckedEnqueue (mkLit 0 false))).2.trail =
        [mkLit 0 false] := by
    obtain ⟨ext, hext⟩ := hr.trail_eq
    have hext' : (Propagator.saturating.run
      ((s.growVars [mkLit 0 false]).uncheckedEnqueue (mkLit 0 false))).2.trail =
        mkLit 0 false :: ext := hext
    have hpw := hr.wf.distinct
    rw [hext'] at hpw ⊢
    cases ext with
    | nil => rfl
    | cons p ext =>
        have hp := (hr.closure hflag p).mp (by rw [hext']; simp)
        rw [hset, hclauses] at hp
        exact absurd (congrArg Lit.var (hder p hp)).symm
          ((List.pairwise_cons.mp hpw).1 p List.mem_cons_self)
  have hadd : (addClause_ .saturating (s.growVars [mkLit 0 false]) [mkLit 0 false]).2 =
      { (Propagator.saturating.run
          ((s.growVars [mkLit 0 false]).uncheckedEnqueue (mkLit 0 false))).2 with
        ok := !(Propagator.saturating.run
          ((s.growVars [mkLit 0 false]).uncheckedEnqueue (mkLit 0 false))).1 } := by
    have hok : (s.growVars [mkLit 0 false]).ok = true := rfl
    simp only [addClause_, hok, hkeep]
    rfl
  rw [hload, hadd]
  exact ⟨by simp [hflag], saturating_clauses _, htrail⟩

/-! #### Eliminating the variable `2` -/

/-- The values after the reverse pass over `(2 ∨ 1)` and `¬2`. -/
theorem extendModel_wide (β : PartialModel) :
    extendModel [[mkLit 2 false, mkLit 1 false], [mkLit 2 true]] β =
      Function.update β 2 (if β 1 = .false then .true else .false) := by
  have h₁ : extendClause [mkLit 2 true] β = Function.update β 2 .false := rfl
  have h₂ : modelValue (Function.update β 2 .false) (mkLit 1 false) = β 1 := by
    have hxor : ∀ b : LBool, b.xor false = b := fun b => by cases b <;> rfl
    simp [modelValue, hxor]
  simp only [extendModel, List.foldr_cons, List.foldr_nil, h₁]
  simp only [extendClause, List.any_cons, List.any_nil, Bool.or_false, h₂]
  by_cases h : β 1 = .false
  · simp [h, LBool.ofBool]
  · simp [h]

/-- `eliminate(true)` as it works on `longClauses`; on other solvers it does nothing. -/
def wideRun (n : ℕ) (s : Solver) : Bool × Solver :=
  if IsWide n s then (true, { s with clauses := wideRest n }) else (s.ok, s)

theorem mem_wideRest {n : ℕ} {c : Clause} :
    c ∈ wideRest n ↔ c ∈ longClauses n ∧ ∀ p ∈ c, p.var ≠ 2 := by
  simp [wideRest]

/-- A clause with the variable `2` is one of the equivalence. -/
theorem mem_longClauses_two {n : ℕ} {c : Clause} (h : c ∈ longClauses n) (h' : c ∉ wideRest n) :
    ∃ b, c = [mkLit 1 b, mkLit 2 b] := by
  rcases mem_longClauses h with ⟨b, rfl⟩ | hb | ⟨-, -, h₃, -⟩
  · refine absurd (mem_wideRest.mpr ⟨h, ?_⟩) h'
    intro p hp
    simp only [List.mem_cons] at hp
    rcases hp with rfl | rfl | hp
    · simp
    · simp
    · have := le_var_wideTail hp
      omega
  · exact hb
  · refine absurd (mem_wideRest.mpr ⟨h, fun p hp => ?_⟩) h'
    have := h₃ p hp
    omega

def wideEliminator (n : ℕ) : Eliminator where
  run := wideRun n
  flag s := by
    unfold wideRun
    split
    · rename_i h
      exact h.1.symm
    · rfl
  not_ok s hs := by
    have : ¬ IsWide n s := fun h => by simp [h.1] at hs
    simp [wideRun, this, hs]
  unsat s hok _ h := by
    unfold wideRun at h
    split at h
    · cases h
    · simp [hok] at h
  settled s hok hq _ := by
    unfold wideRun
    split
    · rename_i h
      refine ⟨hq.toWf.of_trail rfl rfl, ?_⟩
      intro c hc
      exact hq.settled.not_falsified c (h.2.1 ▸ (mem_wideRest.mp hc).1)
    · exact hq.settled
  preserves s hok hq _ := by
    unfold wideRun
    split
    · rename_i h
      constructor
      · rintro ⟨m, hC, hT⟩
        -- the value of `2` is the negation of that of `1`
        refine ⟨Function.update m 2 !m 1, ?_, ?_⟩
        · intro c hc
          rw [h.2.1] at hc
          by_cases hr : c ∈ wideRest n
          · obtain ⟨p, hp, hv⟩ := hC c hr
            refine ⟨p, hp, ?_⟩
            rw [Lit.Holds, Function.update_of_ne ((mem_wideRest.mp hr).2 p hp)]
            exact hv
          · obtain ⟨b, rfl⟩ := mem_longClauses_two hc hr
            by_cases hb : m 1 = !b
            · exact ⟨mkLit 1 b, by simp, by simpa [Lit.Holds] using hb⟩
            · refine ⟨mkLit 2 b, by simp, ?_⟩
              cases b <;> simp [Lit.Holds] at hb ⊢ <;> simp [hb]
        · intro p hp
          rw [h.2.2, List.mem_singleton] at hp
          subst hp
          have := hT (mkLit 0 false) (by rw [h.2.2]; simp)
          simpa [Lit.Holds] using this
      · rintro ⟨m, hC, hT⟩
        refine ⟨m, ?_, hT⟩
        intro c hc
        exact hC c (h.2.1 ▸ (mem_wideRest.mp hc).1)
    · exact Iff.rfl

/-- Only the variable `0` is assigned. -/
theorem IsWide.assigns_eq {n : ℕ} {s : Solver} (hw : IsWide n s) (hs : s.Wf) {v : ℕ} (hv : v ≠ 0) :
    s.assigns v = .undef := by
  have hval : s.value (mkLit v false) = .undef := by
    rw [hs.value_undef, hw.2.2, neg_mkLit]
    simp [mkLit, hv]
  simp only [Solver.value, mkLit_var, mkLit_sign] at hval
  cases e : s.assigns v <;> simp [e, LBool.xor, LBool.ofBool] at hval ⊢

def wideVendored (n : ℕ) : Vendored := ⟨.saturating, wideEliminator n, fun _ => []⟩

/-- Where the reverse pass over the stack completes a model of the rest. -/
theorem Completes.extend_wide {n : ℕ} {s : Solver} (hw : IsWide n s) (hq : s.Quiescent)
    (hb : s.Bounded) {β : PartialModel}
    (h : Completes { s with clauses := wideRest n } (fun v => decide (v = 2)) β) :
    Completes s (fun _ => false)
      (extendModel [[mkLit 2 false, mkLit 1 false], [mkLit 2 true]] β) := by
  rw [extendModel_wide]
  have h₁ : β 1 ≠ .undef := by
    refine h.total 1 ?_ (by decide)
    have hmem : [mkLit 1 false, mkLit 2 false] ∈ s.clauses := by
      rw [hw.2.1]
      simp [longClauses]
    exact hb.clauses _ hmem (mkLit 1 false) (by simp)
  have h₂ : s.assigns 2 = .undef := hw.assigns_eq hq.toWf (by decide)
  refine ⟨?_, ?_, ?_⟩
  · intro v hv _
    by_cases e : v = 2
    · subst e
      rw [Function.update_self]
      split <;> decide
    · rw [Function.update_of_ne e]
      exact h.total v hv (by simpa using e)
  · intro v hv hne
    have e : v ≠ 2 := by
      rintro rfl
      exact hne h₂
    rw [Function.update_of_ne e]
    exact h.agrees v hv hne
  · intro c hc
    rw [hw.2.1] at hc
    by_cases hr : c ∈ wideRest n
    · obtain ⟨p, hp, hv⟩ := h.sat c hr
      refine ⟨p, hp, ?_⟩
      rw [modelValue, Function.update_of_ne ((mem_wideRest.mp hr).2 p hp)]
      exact hv
    · -- the two clauses with `2`, whose value the reverse pass has chosen for them
      obtain ⟨b, rfl⟩ := mem_longClauses_two hc hr
      by_cases hb : modelValue β (mkLit 1 b) = .true
      · exact ⟨mkLit 1 b, by simp, by simpa [modelValue] using hb⟩
      · refine ⟨mkLit 2 b, by simp, ?_⟩
        simp only [modelValue, mkLit_var, mkLit_sign, Function.update_self] at hb ⊢
        cases e : β 1 <;> cases b <;> simp [e, LBool.xor, LBool.ofBool] at hb h₁ ⊢

/-- What is stored of `longClauses`: the clause `2 ∨ 1`, and `¬2`. -/
def wideStored (n : ℕ) (s : Solver) : List Stored :=
  if IsWide n s then [⟨mkLit 2 false, [[mkLit 1 false]]⟩] else []

theorem wide_reverse (n : ℕ) (F : Cnf) (β : PartialModel)
    (hflag : (wideRun n (Solver.loadClauses .saturating F .empty)).1 = true)
    (h : Completes (wideRun n (Solver.loadClauses .saturating F .empty)).2
      (fun v => decide (IsWide n (Solver.loadClauses .saturating F .empty) ∧ v = 2)) β) :
    (extendStored (wideStored n (Solver.loadClauses .saturating F .empty)) β).Sat F := by
  by_cases hw : IsWide n (Solver.loadClauses .saturating F .empty)
  · simp only [wideRun, hw, true_and] at h
    rw [wideStored, if_pos hw]
    refine Completes.sat_loadClauses hw.1 (h.extend_wide hw ?_ ?_)
    · exact (Solver.loaded_loadClauses _ F).quiescent hw.1
    · exact (Solver.bounded_loadClauses _ F hw.1).1
  · simp only [wideRun, if_neg hw] at hflag
    simp only [wideRun, hw, false_and, decide_false] at h
    rw [wideStored, if_neg hw]
    exact Completes.sat_loadClauses hflag h

theorem mem_wideStored {n : ℕ} {s : Solver} {g : Stored} (h : g ∈ wideStored n s) :
    IsWide n s ∧ g = ⟨mkLit 2 false, [[mkLit 1 false]]⟩ := by
  unfold wideStored at h
  split at h
  · rename_i hw
    exact ⟨hw, List.mem_singleton.mp h⟩
  · cases h

def wideElimination (n : ℕ) : Elimination (wideVendored n) where
  stored := wideStored n
  eliminated s v := decide (IsWide n s ∧ v = 2)
  heads s g hg := by
    obtain ⟨hw, rfl⟩ := mem_wideStored hg
    simp [hw]
  nVars_eq s := by
    simp only [wideVendored, wideEliminator, wideRun]
    split <;> rfl
  bounded s hb := by
    refine ⟨?_, fun g hg => ?_⟩
    · simp only [wideVendored, wideEliminator, wideRun]
      split
      · rename_i h
        exact ⟨fun c hc => hb.clauses c (h.2.1 ▸ (mem_wideRest.mp hc).1), hb.trail⟩
      · exact hb
    · obtain ⟨hw, rfl⟩ := mem_wideStored hg
      have hmem : [mkLit 1 false, mkLit 2 false] ∈ s.clauses := by
        rw [hw.2.1]
        simp [longClauses]
      exact ⟨hb.clauses _ hmem (mkLit 2 false) (by simp),
        by simpa using hb.clauses _ hmem (mkLit 1 false) (by simp)⟩
  inOrder F _ := by
    refine ⟨fun g hg => ?_, ?_⟩
    · obtain ⟨-, rfl⟩ := mem_wideStored hg
      simp [Stored.Avoids]
    · unfold wideStored
      split
      · exact List.pairwise_singleton ..
      · exact List.Pairwise.nil
  implied F _ g hg rest hrest m hm := by
    obtain ⟨hw, rfl⟩ := mem_wideStored hg
    have hmem : [mkLit 1 false, mkLit 2 false] ∈
        (Solver.loadClauses .saturating F .empty).clauses := by
      rw [show (Solver.loadClauses .saturating F .empty).clauses = longClauses n from hw.2.1]
      simp [longClauses]
    have hmodels := ((Solver.loaded_loadClauses .saturating F).models_iff hw.1 m).mpr hm
    obtain ⟨q, hq, hv⟩ := hmodels.1 _ hmem
    obtain rfl := List.mem_singleton.mp hrest
    exact ⟨q, List.mem_pair.mpr (List.mem_pair.mp hq).symm, hv⟩
  reverse := wide_reverse n

/-- What is exported has a negative literal in each clause and none of the variables below `3`. -/
theorem mem_residual_wide {n : ℕ} {s : Solver} (hw : IsWide n s) (hs : s.Wf) {d : Clause}
    (hd : d ∈ Solver.residual { s with clauses := wideRest n } (wideRest n)) :
    (∃ q ∈ d, q.sign = true) ∧ ∀ q ∈ d, 3 ≤ q.var := by
  obtain ⟨c, hc, hsat, -, rfl⟩ := Solver.mem_residual.mp hd
  obtain ⟨hc, h₂⟩ := mem_wideRest.mp hc
  rcases mem_longClauses hc with ⟨b, rfl⟩ | ⟨b, rfl⟩ | ⟨⟨q, hq, hneg, hvar⟩, -, h₃, -⟩
  · -- the wide clauses are satisfied
    have htrue : Solver.value { s with clauses := wideRest n } (mkLit 0 false) = .true :=
      (hs.value_iff _).mpr (by rw [hw.2.2]; simp)
    rw [Solver.satisfied_iff.mpr ⟨_, List.mem_cons_self, htrue⟩] at hsat
    cases hsat
  · exact absurd rfl (h₂ (mkLit 2 b) (by simp))
  · refine ⟨⟨q, List.mem_filter.mpr ⟨hq, ?_⟩, hneg⟩, ?_⟩
    · have hundef : s.assigns q.var = .undef := hw.assigns_eq hs (by omega)
      simp [Solver.value, hundef, LBool.xor]
    · intro p hp
      exact h₃ p (List.mem_filter.mp hp).1

/-- The long clauses keep `¬3 ∨ 4 ∨ 5`, no literal of which has a value. -/
theorem residual_wide_ne_nil {n : ℕ} {s : Solver} (hw : IsWide n s) (hs : s.Wf) :
    Solver.residual { s with clauses := wideRest n } (wideRest n) ≠ [] := by
  have hundef : ∀ q ∈ [mkLit 3 true, mkLit 4 false, mkLit 5 false],
      Solver.value { s with clauses := wideRest n } q = .undef := by
    intro q hq
    have hq0 : q.var ≠ 0 := by
      simp only [List.mem_cons, List.not_mem_nil, or_false] at hq
      rcases hq with rfl | rfl | rfl <;> decide
    simp [Solver.value, hw.assigns_eq hs hq0, LBool.xor]
  refine List.ne_nil_of_mem (Solver.mem_residual.mpr
    ⟨[mkLit 3 true, mkLit 4 false, mkLit 5 false], ?_, ?_, ?_, rfl⟩)
  · exact mem_wideRest.mpr ⟨by simp [longClauses], by decide⟩
  · rw [Bool.eq_false_iff, ne_eq, Solver.satisfied_iff]
    rintro ⟨q, hq, hv⟩
    rw [hundef q hq] at hv
    cases hv
  · refine List.ne_nil_of_mem (List.mem_filter.mpr ⟨List.mem_cons_self, ?_⟩)
    rw [hundef _ List.mem_cons_self]
    decide

namespace Solver

variable {s : Solver}

/-- The vector that makes all exported variables false. -/
def allFalse (s : Solver) : List LBool := List.replicate (s.toDimacs []).2.max .false

theorem mem_toDimacs {c : Clause} (hc : c ∈ (s.toDimacs []).1) :
    ∃ d ∈ s.residual s.clauses, c = d.map (s.toDimacs []).2.rename := by
  rw [(toDimacs_spec s).2.2.2] at hc
  obtain ⟨d, hd, rfl⟩ := List.mem_map.mp hc
  exact ⟨d, hd, rfl⟩

theorem getD_allFalse {d : Clause} (hd : d ∈ s.residual s.clauses) {q : Lit} (hq : q ∈ d) :
    s.allFalse.getD ((s.toDimacs []).2.rename q).var .undef = .false := by
  obtain ⟨hinj, hget, -, -⟩ := toDimacs_spec s
  obtain ⟨y, hy⟩ := Option.isSome_iff_exists.mp (hget d hd q hq)
  have hlt : ((s.toDimacs []).2.rename q).var < (s.toDimacs []).2.max := by
    rw [VarMap.rename, hy]
    exact hinj.lt_max hy
  simp [allFalse, hlt]

theorem allFalse_total :
    ∀ c ∈ (s.toDimacs []).1, ∀ p ∈ c, s.allFalse.getD p.var .undef ≠ .undef := by
  intro c hc p hp
  obtain ⟨d, hd, rfl⟩ := mem_toDimacs hc
  obtain ⟨q, hq, rfl⟩ := List.mem_map.mp hp
  rw [getD_allFalse hd hq]
  decide

/-- A clause with a negative literal is satisfied. -/
theorem allFalse_sat (h : ∀ d ∈ s.residual s.clauses, ∃ q ∈ d, q.sign = true) :
    PartialModel.Sat (fun v => s.allFalse.getD v .undef) (s.toDimacs []).1 := by
  intro c hc
  obtain ⟨d, hd, rfl⟩ := mem_toDimacs hc
  obtain ⟨q, hq, hneg⟩ := h d hd
  refine ⟨_, List.mem_map_of_mem hq, ?_⟩
  have hsign : ((s.toDimacs []).2.rename q).sign = true := hneg
  rw [modelValue, getD_allFalse hd hq, hsign]
  rfl

end Solver

/-- All exported variables false: the variable `1` stays undefined, so the clause `2 ∨ 1` of the
stack is taken to be true and `2` stays false; but `1` is printed as false, too. -/
theorem exists_unsat_printed (n : ℕ) : ∃ vars model,
    (readClauses (wideVendored n) (wideFormula n) true).result = .UNKNOWN ∧
    (readClauses (wideVendored n) (wideFormula n) true).solver.ok = true ∧
    (∀ c ∈ (readClauses (wideVendored n) (wideFormula n) true).clauses, ∀ p ∈ c,
      vars.getD p.var .undef ≠ .undef) ∧
    PartialModel.Sat (fun v => vars.getD v .undef)
      (readClauses (wideVendored n) (wideFormula n) true).clauses ∧
    (readClauses (wideVendored n) (wideFormula n) true).remapAndExtendModel
      ((wideElimination n).elimclauses (wideFormula n) true) vars = some model ∧
    ¬ (printedModel (doPrintModel
      (readClauses (wideVendored n) (wideFormula n) true).solver.nVars model)).Sat
        (wideFormula n) := by
  have hw := isWide_loadClauses n
  have hwf := ((Solver.loaded_loadClauses .saturating (wideFormula n)).quiescent hw.1).toWf
  have hF := (Solver.bounded_loadClauses .saturating (wideFormula n) hw.1).2
  set s := Solver.loadClauses .saturating (wideFormula n) .empty with hs
  set p := readClauses (wideVendored n) (wideFormula n) true with hp
  have hsolver : p.solver = { s with clauses := wideRest n } := by
    change (wideRun n s).2 = _
    rw [wideRun, if_pos hw]
  obtain ⟨hinj, -, hdom, -⟩ := Solver.toDimacs_spec p.solver
  have hres : ∀ d ∈ p.solver.residual p.solver.clauses,
      (∃ q ∈ d, q.sign = true) ∧ ∀ q ∈ d, 3 ≤ q.var := by
    rw [hsolver]
    exact fun d hd => mem_residual_wide hw hwf hd
  -- the clauses that are left do not have the variable `1`, so it has no number
  have hone : p.remapVar p.solver.allFalse 1 = .undef := by
    have ha : p.solver.assigns 1 = .undef := by
      rw [hsolver]
      exact hw.assigns_eq hwf (by decide)
    have hnone : p.mapping.getD 1 none = none := by
      by_contra hn
      obtain ⟨d, hd, q, hq, hq1⟩ := hdom 1 (Option.isSome_iff_ne_none.mpr hn)
      have := (hres d hd).2 q hq
      omega
    rw [Problem.remapVar, if_pos ha, hnone]
    split <;> rfl
  refine ⟨p.solver.allFalse, _, ?_, ?_, Solver.allFalse_total,
    Solver.allFalse_sat fun d hd => (hres d hd).1, if_pos ?_, ?_⟩
  · have hd : (p.solver.toDimacs []).1.isEmpty = false := by
      have hne : p.solver.residual p.solver.clauses ≠ [] := by
        rw [hsolver]
        exact residual_wide_ne_nil hw hwf
      simpa using mt (toDimacs_eq_nil p.solver).mp hne
    change (if (p.solver.toDimacs []).1.isEmpty then _ else State.UNKNOWN) = State.UNKNOWN
    rw [hd]
    rfl
  · rw [hsolver]
    exact hw.1
  · intro i _ _ j hj
    rw [Solver.allFalse, List.length_replicate]
    exact hinj.lt_max hj
  · have hstack : (wideElimination n).elimclauses (wideFormula n) true =
        [[mkLit 2 false, mkLit 1 false], [mkLit 2 true]] := by
      change (wideStored n s).flatMap Stored.clauses = _
      rw [wideStored, if_pos hw]
      rfl
    have hnv : p.solver.nVars = s.nVars := by rw [hsolver]
    have hmem₁₂ : [mkLit 1 false, mkLit 2 false] ∈ wideFormula n := by
      simp [wideFormula, longClauses]
    rw [hstack, extendModel_wide, hone, if_neg (by decide), hnv]
    intro hsat
    obtain ⟨q, hq, hv⟩ := hsat _ hmem₁₂
    rw [Lit.Holds, printedModel_doPrintModel (hF _ hmem₁₂ q hq)] at hv
    simp only [List.mem_cons, List.not_mem_nil, or_false] at hq
    rcases hq with rfl | rfl
    · simp [hone] at hv
    · simp at hv

/-- **A model that is lost.**  The formula has two clauses of a thousand literals, one more than the
subsumption check looks at, which the unit clause at the end of the file satisfies. -/
theorem remapAndExtendModel_wide : ∃ vars model,
    (readClauses (wideVendored 998) (wideFormula 998) true).result = .UNKNOWN ∧
    (readClauses (wideVendored 998) (wideFormula 998) true).solver.ok = true ∧
    (∀ c ∈ (readClauses (wideVendored 998) (wideFormula 998) true).clauses, ∀ p ∈ c,
      vars.getD p.var .undef ≠ .undef) ∧
    PartialModel.Sat (fun v => vars.getD v .undef)
      (readClauses (wideVendored 998) (wideFormula 998) true).clauses ∧
    (readClauses (wideVendored 998) (wideFormula 998) true).remapAndExtendModel
      ((wideElimination 998).elimclauses (wideFormula 998) true) vars = some model ∧
    ¬ (printedModel (doPrintModel
      (readClauses (wideVendored 998) (wideFormula 998) true).solver.nVars model)).Sat
        (wideFormula 998) :=
  exists_unsat_printed 998

end Parsat
