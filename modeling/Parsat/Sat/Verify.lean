import Mathlib.Data.Int.Basic
import Parsat.Sat.Loading

/-!
# Sat — the certificate checker

`cli/verify` loads a formula, reads the literals of a certificate, adds the positive literal of
every variable the certificate does not list, and runs `prop_check` under all of them.  The formula
it propagates through is what `addClause_` made of the clauses; by `propCheck_loaded` that is
propagation through the clauses themselves, and under a literal for every variable propagation is
evaluation.

* `readTokens_nil_iff`: which certificates are read, and what is read of them.
* `verify_iff_sat`: the verdict is whether the certified assignment satisfies the formula.
-/

namespace Parsat

open UnitProp Solver

/-- A word of the certificate. -/
abbrev Token := List Char

/-- `isspace`. -/
def isSpace (x : Char) : Bool := x ∈ [' ', '\t', '\n', '\x0b', '\x0c', '\r']

/-- What `ifs >> token` reads, until it fails. -/
def tokens (certificate : List Char) : List Token :=
  (certificate.splitOnP isSpace).filter (· ≠ [])

/-- `token[0] == 'v' || token[0] == '0'`. -/
def skipped (token : Token) : Bool := token.head? = some 'v' ∨ token.head? = some '0'

/-- The number that the leading digits of `ds` write. -/
def digits (ds : Token) : ℕ :=
  (ds.takeWhile Char.isDigit).foldl (fun n d => 10 * n + (d.toNat - '0'.toNat)) 0

/-- `std::atoi`, where the number fits an `int`. -/
def atoi : Token → ℤ
  | '-' :: ds => -digits ds
  | '+' :: ds => digits ds
  | ds => digits ds

/-- `std::abs(v) - 1`. -/
def tokenVar (v : ℤ) : ℤ := v.natAbs - 1

/-- `mkLit(var, v < 0)`. -/
def tokenLit (v : ℤ) : Lit := mkLit (tokenVar v).toNat (v < 0)

/-- The loop over the tokens: `model` and `used_vars`, or `none` when an `IPS_VERIFY` fails. -/
def readTokens (nVars : ℕ) : List Token → LitVec → List ℤ → Option (LitVec × List ℤ)
  | [], model, used => some (model, used)
  | token :: ts, model, used =>
    if skipped token then readTokens nVars ts model used
    else
      let v := atoi token
      let var := tokenVar v
      if var ∈ used then none
      else if 0 ≤ var ∧ var < nVars then
        readTokens nVars ts (model ++ [tokenLit v]) (used ++ [var])
      else none

/-- The loop over the variables that are not in `used_vars`. -/
def unlisted (nVars : ℕ) (used : List ℤ) : LitVec :=
  ((List.range nVars).filter fun i : ℕ => (i : ℤ) ∉ used).map (mkLit · false)

/-- `main`: whether the certificate is accepted; `none` when it is not one for this formula. -/
def verify (P : Propagator) (F : Cnf) (certificate : List Char) : Option Bool :=
  let solver := loadClauses P F empty
  (readTokens solver.nVars (tokens certificate) [] []).map fun r =>
    (solver.propCheck P (r.1 ++ unlisted solver.nVars r.2) 0).1

/-! ### What is read -/

/-- The numbers of the tokens that are not skipped. -/
def listed (ts : List Token) : List ℤ := (ts.filter (!skipped ·)).map atoi

/-- The numbers are literals of the first `n` variables, each variable at most once. -/
structure Lists (n : ℕ) (vs : List ℤ) : Prop where
  bound : ∀ v ∈ vs, 1 ≤ v.natAbs ∧ v.natAbs ≤ n
  once : (vs.map Int.natAbs).Nodup

variable {n : ℕ} {vs : List ℤ} {ts : List Token} {model : LitVec} {used : List ℤ}

theorem readTokens_eq_some_iff {r : LitVec × List ℤ} :
    readTokens n ts model used = some r ↔
      (∀ v ∈ listed ts, 0 ≤ tokenVar v ∧ tokenVar v < n) ∧
      (∀ v ∈ listed ts, tokenVar v ∉ used) ∧ ((listed ts).map tokenVar).Nodup ∧
      (model ++ (listed ts).map tokenLit, used ++ (listed ts).map tokenVar) = r := by
  induction ts generalizing model used with
  | nil => simp [readTokens, listed]
  | cons token ts ih =>
      by_cases hskip : skipped token = true
      · have hlisted : listed (token :: ts) = listed ts := by simp [listed, hskip]
        rw [hlisted, ← ih, readTokens, if_pos hskip]
      · have hlisted : listed (token :: ts) = atoi token :: listed ts := by simp [listed, hskip]
        rw [hlisted, readTokens, if_neg hskip]
        by_cases hused : tokenVar (atoi token) ∈ used
        · simp [hused]
        · by_cases hvar : 0 ≤ tokenVar (atoi token) ∧ tokenVar (atoi token) < n
          · have hfresh : (∀ v ∈ listed ts, tokenVar v ∉ used ++ [tokenVar (atoi token)]) ↔
                (∀ v ∈ listed ts, tokenVar v ∉ used) ∧
                  tokenVar (atoi token) ∉ (listed ts).map tokenVar := by
              simp [forall_and]
            simp only [hused, hvar, and_self, ↓reduceIte, ih, hfresh, List.forall_mem_cons,
              List.map_cons, List.nodup_cons, List.append_assoc, List.cons_append,
              List.nil_append, not_false_eq_true, true_and, and_assoc]
          · simp [hused, hvar]

/-- `tokenVar` numbers the variables from 0. -/
theorem lists_iff : Lists n vs ↔
    (∀ v ∈ vs, 0 ≤ tokenVar v ∧ tokenVar v < n) ∧ (vs.map tokenVar).Nodup := by
  have hbound : ∀ v, (1 ≤ v.natAbs ∧ v.natAbs ≤ n) ↔ 0 ≤ tokenVar v ∧ tokenVar v < n := by
    intro v
    simp only [tokenVar]
    omega
  have hinj : Function.Injective fun k : ℕ => (k : ℤ) - 1 := by
    intro a b hab
    simp only at hab
    omega
  have hmap : vs.map tokenVar = (vs.map Int.natAbs).map fun k : ℕ => (k : ℤ) - 1 := by
    simp [Function.comp_def, tokenVar]
  rw [hmap, List.nodup_map_iff hinj]
  exact ⟨fun h => ⟨fun v hv => (hbound v).mp (h.bound v hv), h.once⟩,
    fun h => ⟨fun v hv => (hbound v).mpr (h.1 v hv), h.2⟩⟩

/-- What is read are the certificates that list variables of the formula, each once. -/
theorem readTokens_nil_iff {r : LitVec × List ℤ} : readTokens n ts [] [] = some r ↔
    Lists n (listed ts) ∧ ((listed ts).map tokenLit, (listed ts).map tokenVar) = r := by
  simp [readTokens_eq_some_iff, lists_iff, and_assoc]

/-! ### The certified assignment -/

/-- The listed literals are true, and so is every variable that is not listed. -/
def certified (vs : List ℤ) : Model := fun x =>
  match vs.find? (·.natAbs = x + 1) with
  | some v => 0 < v
  | none => true

theorem certified_listed (h : (vs.map Int.natAbs).Nodup) {v : ℤ} {x : ℕ} (hv : v ∈ vs)
    (hx : v.natAbs = x + 1) : certified vs x = decide (0 < v) := by
  match hfind : vs.find? (·.natAbs = x + 1) with
  | some w =>
      have hw := List.find?_some hfind
      have heq : w = v := List.inj_on_of_nodup_map h (List.mem_of_find?_eq_some hfind) hv
        (by simpa [hx] using hw)
      simp [certified, hfind, heq]
  | none => simpa [hx] using List.find?_eq_none.mp hfind v hv

theorem certified_unlisted {x : ℕ} (h : ∀ v ∈ vs, v.natAbs ≠ x + 1) : certified vs x = true := by
  have hfind : vs.find? (·.natAbs = x + 1) = none := List.find?_eq_none.mpr fun v hv => by
    simpa using h v hv
  simp [certified, hfind]

/-- What is enqueued: the literals of the formula's variables that the certificate makes true. -/
theorem mem_enqueued (h : Lists n vs) {p : Lit} :
    p ∈ vs.map tokenLit ++ unlisted n (vs.map tokenVar) ↔ p.var < n ∧ p.Holds (certified vs) := by
  simp only [unlisted, List.mem_append, List.mem_map, List.mem_filter, List.mem_range,
    decide_eq_true_eq]
  constructor
  · rintro (⟨v, hv, rfl⟩ | ⟨i, ⟨hi, hnot⟩, rfl⟩)
    · obtain ⟨h₁, h₂⟩ := h.bound v hv
      have hx : v.natAbs = (tokenVar v).toNat + 1 := by simp only [tokenVar]; omega
      refine ⟨by simp only [tokenLit, mkLit_var]; omega, ?_⟩
      have hsign : decide (0 < v) = !decide (v < 0) := by
        rw [← decide_not, decide_eq_decide]
        omega
      rw [Lit.Holds, tokenLit, mkLit_var, mkLit_sign, certified_listed h.once hv hx, hsign]
    · refine ⟨hi, certified_unlisted fun v hv (hx : v.natAbs = i + 1) => hnot ⟨v, hv, ?_⟩⟩
      simp only [tokenVar, hx]
      omega
  · rintro ⟨hp, hm⟩
    by_cases hv : ∃ v ∈ vs, v.natAbs = p.var + 1
    · obtain ⟨v, hv, hx⟩ := hv
      have hsign : decide (v < 0) = p.sign := by
        rw [Lit.Holds, certified_listed h.once hv hx] at hm
        rw [← Bool.not_inj_iff, ← hm, ← decide_not, decide_eq_decide]
        omega
      have hvar : (tokenVar v).toNat = p.var := by simp only [tokenVar]; omega
      exact .inl ⟨v, hv, by rw [tokenLit, hvar, hsign, mkLit_var_sign]⟩
    · push Not at hv
      have hsign : p.sign = false := by
        rw [Lit.Holds, certified_unlisted hv] at hm
        simpa using hm
      refine .inr ⟨p.var, ⟨hp, ?_⟩, by rw [← hsign, mkLit_var_sign]⟩
      rintro ⟨v, hmem, hx⟩
      have := hv v hmem
      simp only [tokenVar] at hx
      omega

/-- **The certificate checker is exact.**  A certificate that lists variables of `F`, each at most
once, is read, and it is accepted if and only if the assignment that takes the listed literals and
makes every other variable true satisfies `F`. -/
theorem verify_iff_sat (P : Propagator) (F : Cnf) (certificate : List Char)
    (h : Lists (numVars F) (listed (tokens certificate))) :
    verify P F certificate ≠ none ∧
      (verify P F certificate = some true ↔
        (certified (listed (tokens certificate))).Sat F) := by
  set vs := listed (tokens certificate)
  have hread : readTokens (numVars F) (tokens certificate) [] [] =
      some (vs.map tokenLit, vs.map tokenVar) := readTokens_nil_iff.mpr ⟨h, rfl⟩
  simp only [verify, loadClauses_nVars, hread, Option.map_some, ne_eq, reduceCtorEq,
    not_false_eq_true, true_and, Option.some.injEq, propCheck_loaded]
  rw [refuted_iff_not_satisfies (valuation_holds (certified vs)), not_not]
  · intro q hq
    exact ((mem_enqueued h).mp hq).2
  · intro c hc q hq hnot
    refine (mem_enqueued h).mpr ⟨lt_numVars.mpr ⟨c, hc, q, hq, le_rfl⟩, ?_⟩
    exact (Lit.holds_neg _ q).mpr hnot

/-- `(x₀ ∨ ¬x₁ ∨ x₀)`, `(x₁ ∨ ¬x₁)`, `(x₀)` and `(¬x₀ ∨ ¬x₁)` under a certificate that lists `¬x₁`
only: the first clause is shortened, the second dropped, the third becomes an assignment. -/
theorem verify_accepts_unlisted :
    verify .saturating [[mkLit 0 false, mkLit 1 true, mkLit 0 false],
      [mkLit 1 false, mkLit 1 true], [mkLit 0 false], [mkLit 0 true, mkLit 1 true]]
      ['v', ' ', '-', '2', ' ', '0'] = some true := by
  refine (verify_iff_sat _ _ _ ⟨by decide, by decide⟩).2.mpr ?_
  simp only [Model.Sat, Satisfies]
  decide

end Parsat
