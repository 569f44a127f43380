import Mathlib.Algebra.Group.Defs
import Mathlib.Data.List.Basic
import Parsat.Library.UnitPropagation

/-!
# Sat — literals, clauses and models

`Mini::Lit`, `Mini::lbool` and the vectors of literals every component passes around, with the
meaning of a CNF.  A literal is a variable with a sign, and `sign = true` is the *negative*
literal: `mkLit v false` is `v`, `mkLit v true` is `¬v`.
-/

namespace Parsat

/-- `Mini::Lit`, with the two parts of its code `x = var + var + sign`; a `Mini::Var` is a
number. -/
structure Lit where
  var : ℕ
  sign : Bool
  deriving DecidableEq, Repr

/-- `Mini::mkLit`. -/
def mkLit (v : ℕ) (sign : Bool) : Lit := ⟨v, sign⟩

/-- `operator~`. -/
instance : InvolutiveNeg Lit where
  neg p := ⟨p.var, !p.sign⟩
  neg_neg p := by cases p; simp

namespace Lit

/-- `Lit::x`, by which `operator<` compares. -/
def toInt (p : Lit) : ℕ := p.var + p.var + p.sign.toNat

@[simp] theorem var_neg (p : Lit) : (-p).var = p.var := rfl

@[simp] theorem sign_neg (p : Lit) : (-p).sign = !p.sign := rfl

theorem neg_ne (p : Lit) : -p ≠ p := by
  intro h
  have : (-p).sign = p.sign := by rw [h]
  simp at this

/-- Two literals of one variable are equal or opposite. -/
theorem eq_or_eq_neg {p q : Lit} (h : p.var = q.var) : p = q ∨ p = -q := by
  obtain ⟨v, a⟩ := p
  obtain ⟨w, b⟩ := q
  obtain rfl : v = w := h
  cases a <;> cases b <;> first | exact .inl rfl | exact .inr rfl

theorem var_le_of_toInt_le {p q : Lit} (h : p.toInt ≤ q.toInt) : p.var ≤ q.var := by
  have := Bool.toNat_le p.sign
  have := Bool.toNat_le q.sign
  simp only [toInt] at h
  omega

end Lit

@[simp] theorem mkLit_var (v : ℕ) (b : Bool) : (mkLit v b).var = v := rfl

@[simp] theorem mkLit_sign (v : ℕ) (b : Bool) : (mkLit v b).sign = b := rfl

@[simp] theorem neg_mkLit (v : ℕ) (b : Bool) : -mkLit v b = mkLit v !b := rfl

@[simp] theorem mkLit_var_sign (p : Lit) : mkLit p.var p.sign = p := rfl

/-- `core::lit_vec_t`. -/
abbrev LitVec := List Lit

/-- A clause, as the parser hands it to `addClause_`. -/
abbrev Clause := List Lit

abbrev Cnf := List Clause

/-- `Mini::lbool`: `l_True`, `l_False`, `l_Undef`. -/
inductive LBool where
  | true
  | false
  | undef
  deriving DecidableEq, Repr

namespace LBool

/-- `lbool(bool x)`. -/
def ofBool : Bool → LBool
  | .true => .true
  | .false => .false

/-- The value if it is defined, else `b`. -/
def getD : LBool → Bool → Bool
  | .true, _ => .true
  | .false, _ => .false
  | .undef, b => b

/-- `operator^`, which leaves `l_Undef` undefined. -/
def xor : LBool → Bool → LBool
  | .true, b => ofBool !b
  | .false, b => ofBool b
  | .undef, _ => .undef

end LBool

/-! ### Models -/

/-- A total assignment of the variables. -/
abbrev Model := ℕ → Bool

/-- `p` is true under `m`. -/
def Lit.Holds (m : Model) (p : Lit) : Prop := m p.var = !p.sign

instance (m : Model) (p : Lit) : Decidable (p.Holds m) := inferInstanceAs (Decidable (_ = _))

/-- `m` satisfies every clause of `F`. -/
abbrev Model.Sat (m : Model) (F : Cnf) : Prop := UnitProp.Satisfies (Lit.Holds m) F

/-- `m` makes every literal of `a` true. -/
def Model.Meets (m : Model) (a : LitVec) : Prop := ∀ p ∈ a, p.Holds m

instance (m : Model) (a : LitVec) : Decidable (m.Meets a) :=
  inferInstanceAs (Decidable (∀ p ∈ a, p.Holds m))

def Satisfiable (F : Cnf) : Prop := ∃ m : Model, m.Sat F

/-- `F` together with the assumption `a` has a model. -/
def SatisfiableUnder (F : Cnf) (a : LitVec) : Prop := ∃ m : Model, m.Sat F ∧ m.Meets a

theorem Lit.holds_neg (m : Model) (p : Lit) : (-p).Holds m ↔ ¬ p.Holds m := by
  simp only [Lit.Holds, Lit.var_neg, Lit.sign_neg]
  cases m p.var <;> cases p.sign <;> simp

theorem valuation_holds (m : Model) : UnitProp.Valuation (Lit.Holds m) := Lit.holds_neg m

@[simp] theorem Model.meets_append (m : Model) (a b : LitVec) :
    m.Meets (a ++ b) ↔ m.Meets a ∧ m.Meets b := by
  simp [Model.Meets, or_imp, forall_and]

theorem satisfiable_iff_under_nil (F : Cnf) : Satisfiable F ↔ SatisfiableUnder F [] := by
  simp [Satisfiable, SatisfiableUnder, Model.Meets]

end Parsat
