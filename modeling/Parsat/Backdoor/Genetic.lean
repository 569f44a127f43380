import Parsat.Backdoor.Evolution
import Parsat.Backdoor.Order

/-!
# Backdoor — the population of `GAAlgorithm`

A step of `GAAlgorithm` chooses `g = q - h` parents by their fitness, makes a pair of children of
every two of them, keeps the best `h` instances and adds the children.  The fitness values it
chooses by are in the vector `fits_`, which `_prepare` fills and every step overwrites from the
front.  If `g` is odd, there is one child too few; the vector keeps its length, its last entry is
not overwritten any more, and `choose` may still choose it.

Doubles are a parameter.  Of `x / x` it is assumed that it is not below a sample: it is one, or not
a number, and samples are at most one.

* `Doubles.lowerBound_lt`: the binary search ends before the end, if the last entry is not below the
  sample, in whatever order the others are.
* `GAAlgorithm.Inv`: what holds after any steps, for the size the population then has.
* `genetic_right_iff`: so after a step the population, `fits_` and the chosen parents are right
  exactly if `q - h` is even.
-/

namespace Parsat

namespace Ea

/-- The operations on `double` that `choose` rests on: `Fitness::operator double`, `1. / x`, sums,
quotients and comparisons, and the values `sample<double>(0., 1.)` may return. -/
structure Doubles where
  D : Type
  ofFitness : Fitness → D
  recip : D → D
  add : D → D → D
  div : D → D → D
  lt : D → D → Bool
  IsSample : D → Prop
  /-- The quotient is one, or not a number. -/
  div_self : ∀ x sample, IsSample sample → lt (div x x) sample = false

namespace Doubles

variable (F : Doubles)

/-- The loop of `choose` that inverts the entries and adds them up. -/
def cumulate (prev : Option F.D) : List F.D → List F.D
  | [] => []
  | x :: xs =>
    let y := match prev with
      | none => F.recip x
      | some p => F.add (F.recip x) p
    y :: cumulate (some y) xs

/-- The loop of `std::lower_bound` from `first`, over `len` entries, in at most `fuel` rounds. -/
def lowerBound (below : ℕ → Bool) : (fuel first len : ℕ) → ℕ
  | 0, first, _ => first
  | fuel + 1, first, len =>
    if len = 0 then first
    else
      let half := len / 2
      if below (first + half) then lowerBound below fuel (first + half + 1) (len - half - 1)
      else lowerBound below fuel first half

/-- `choose`, on what `sample` returns; without an entry there is no last one. -/
def choose (distrib samples : List F.D) : Option (List ℕ) :=
  let cumulative := F.cumulate none distrib
  cumulative.getLast?.map fun sum =>
    let cumulative := cumulative.map (F.div · sum)
    let index (sample : F.D) :=
      lowerBound (fun k => cumulative[k]?.any (F.lt · sample)) cumulative.length 0 cumulative.length
    -- the result is filled from its end
    (samples.map index).reverse

end Doubles

/-- `GAAlgorithm`, with its vector `fits_`. -/
structure GAAlgorithm (F : Doubles) (n : ℕ) extends Algorithm n where
  fits : List F.D

namespace GAAlgorithm

variable (X : Context) (F : Doubles) (cross : Crossover) (q h : ℕ)

/-- `prepare`; what `_prepare` pushes to `fits_` is the fitness of the instance it has just
added. -/
def prepare (inits : List (Fin X.numVars × Draw)) : Option (GAAlgorithm F X.numVars) :=
  (Algorithm.prepare X inits (.ga cross q h)).map fun s =>
    ⟨s, s.population.map fun i => F.ofFitness i.fit⟩

/-- `_recalculate_fitness`: entries are overwritten, and no entry is added. -/
def recalculateFitness {n : ℕ} (fits : List F.D) (population : List (Instance n)) :
    Option (List F.D) :=
  if population.length ≤ fits.length then
    some (population.map (fun i => F.ofFitness i.fit) ++ fits.drop population.length)
  else none

/-- `_step`, on what `sample` returns in `choose`. -/
def step (s : GAAlgorithm F X.numVars) (samples : List F.D) (c : Choice X.numVars) :
    Option (GAAlgorithm F X.numVars) :=
  let g := (q + 2 ^ 32 - h) % 2 ^ 32
  if samples.length = g then
    (F.choose s.fits samples).bind fun parents =>
      if (c.matings.flatMap fun m => [m.p₁, m.p₂]) = parents.take (2 * (g / 2)) then
        (s.toAlgorithm.step X c (.ga cross q h)).bind fun t =>
          (recalculateFitness F s.fits t.population).map fun fits => ⟨t, fits⟩
      else none
  else none

/-- What happens to an algorithm once it is prepared. -/
inductive Action where
  | step (samples : List F.D) (c : Choice X.numVars)
  | getBest (d : ℕ → Draw)
  | setBaseAssumption (base : LitVec)

/-- A step of the algorithm, a call of `get_best()` by `process` or by its limit, or of
`set_base_assumption`. -/
def act (s : GAAlgorithm F X.numVars) : Action X F → Option (GAAlgorithm F X.numVars)
  | .step samples c => s.step X F cross q h samples c
  | .getBest d => (s.getBest X d).map fun r => { s with toAlgorithm := r.2 }
  | .setBaseAssumption base => some { s with base }

/-- The action is a step. -/
def Action.isStep {X : Context} {F : Doubles} : Action X F → Bool
  | .step _ _ => true
  | _ => false

variable {X F}

/-- The population has `q` instances, `fits_` has the fitness of each of them and nothing else, and
whatever the samples are, `choose` chooses from the population. -/
structure Right (s : GAAlgorithm F X.numVars) : Prop where
  length : s.population.length = q
  ready : s.Ready
  fits : s.fits = s.population.map fun i => F.ofFitness i.fit
  parents : ∀ samples, (∀ x ∈ samples, F.IsSample x) →
    ∃ parents, F.choose s.fits samples = some parents ∧ ∀ p ∈ parents, p < s.population.length

end GAAlgorithm

/-! ### Choosing -/

namespace Doubles

variable {F : Doubles}

/-- The search stays in its range. -/
theorem lowerBound_le (below : ℕ → Bool) (fuel first len : ℕ) :
    lowerBound below fuel first len ≤ first + len := by
  induction fuel generalizing first len with
  | zero => exact Nat.le_add_right _ _
  | succ fuel ih =>
      simp only [lowerBound]
      split_ifs with hlen
      · omega
      · have := ih (first + len / 2 + 1) (len - len / 2 - 1)
        omega
      · have := ih first (len / 2)
        omega

/-- **The search ends before the end**, if the last entry is not below the sample. -/
theorem lowerBound_lt {below : ℕ → Bool} {fuel first len : ℕ} (hfuel : len ≤ fuel)
    (hlen : 0 < len) (hlast : below (first + len - 1) = false) :
    lowerBound below fuel first len < first + len := by
  induction fuel generalizing first len with
  | zero => omega
  | succ fuel ih =>
      simp only [lowerBound, hlen.ne', if_false]
      split_ifs with hmid
      · by_cases hrest : len - len / 2 - 1 = 0
        · -- the middle is the last entry
          rw [show first + len - 1 = first + len / 2 by omega, hmid] at hlast
          cases hlast
        · have hend : first + len / 2 + 1 + (len - len / 2 - 1) = first + len := by omega
          have := ih (by omega) (Nat.pos_of_ne_zero hrest) (by rwa [hend])
          rwa [hend] at this
      · have := lowerBound_le below fuel first (len / 2)
        omega

@[simp] theorem length_cumulate (prev : Option F.D) (l : List F.D) :
    (F.cumulate prev l).length = l.length := by
  induction l generalizing prev with
  | nil => rfl
  | cons x l ih => simp [cumulate, ih]

/-- **`choose`** returns positions of the vector. -/
theorem choose_spec {distrib samples : List F.D} (hne : distrib ≠ [])
    (hs : ∀ x ∈ samples, F.IsSample x) :
    ∃ parents, F.choose distrib samples = some parents ∧ ∀ p ∈ parents, p < distrib.length := by
  have hpos : 0 < distrib.length := List.length_pos_of_ne_nil hne
  have hlen := F.length_cumulate none distrib
  obtain ⟨sum, hsum⟩ : ∃ sum, (F.cumulate none distrib).getLast? = some sum := by
    rw [← Option.isSome_iff_exists, List.getLast?_isSome, ← List.length_pos_iff]
    omega
  refine ⟨_, by rw [choose, hsum]; rfl, ?_⟩
  intro p hp
  obtain ⟨x, hx, rfl⟩ := List.mem_map.mp (List.mem_reverse.mp hp)
  generalize hentries : (F.cumulate none distrib).map (F.div · sum) = entries
  have hlength : entries.length = distrib.length := by
    rw [← hentries, List.length_map, hlen]
  -- the last entry is divided by itself
  have hlast : entries[0 + entries.length - 1]?.any (F.lt · x) = false := by
    have hget : (F.cumulate none distrib)[distrib.length - 1]? = some sum := by
      rw [← hlen, ← List.getLast?_eq_getElem?, hsum]
    rw [zero_add, hlength, ← hentries, List.getElem?_map, hget]
    exact F.div_self _ _ (hs x hx)
  have hlt : lowerBound (fun k => entries[k]?.any (F.lt · x)) entries.length 0 entries.length <
      0 + entries.length := lowerBound_lt le_rfl (hlength ▸ hpos) hlast
  rw [zero_add] at hlt
  exact hlt.trans_eq hlength

end Doubles

/-! ### The size of the population -/

namespace Algorithm

variable {X : Context} {s t : Algorithm X.numVars}

theorem length_mapM_mate {cross : Crossover} {population : List (Instance X.numVars)}
    {matings : List (Mating X.numVars)} {children : List (List (Instance X.numVars))}
    (h : matings.mapM (mate X cross population) = some children) :
    children.flatten.length = 2 * matings.length := by
  induction matings generalizing children with
  | nil =>
      cases h
      rfl
  | cons m matings ih =>
      rw [List.mapM_cons] at h
      obtain ⟨two, htwo, h⟩ := Option.bind_eq_some_iff.mp h
      obtain ⟨rest, hrest, h⟩ := Option.bind_eq_some_iff.mp h
      cases h
      have hlen : two.length = 2 := by
        unfold mate at htwo
        split at htwo <;> cases htwo
        rfl
      rw [List.flatten_cons, List.length_append, hlen, ih hrest, List.length_cons]
      omega

theorem length_select {size : ℕ} {order : List (ℕ × Draw)} {sorted : List ℕ}
    (h : s.select X size order sorted = some t) :
    t.population.length = min size s.population.length := by
  rcases select_cases h with ⟨hle, rfl⟩ | ⟨hlt, -, hsorted, u, hu, rfl⟩
  · exact (min_eq_right hle).symm
  · rw [← length_of_evaluateAll hu] at hsorted ⊢
    rw [List.length_take, (References.read_perm hsorted).length_eq]

/-- **A step of `GAAlgorithm`** leaves the survivors and two children for each mating. -/
theorem length_step_ga {cross : Crossover} {q h : ℕ} {c : Choice X.numVars}
    (hq : q < 2 ^ 32) (hh : h ≤ q) (hs : h ≤ s.population.length)
    (hstep : s.step X c (.ga cross q h) = some t) :
    t.population.length = h + 2 * ((q - h) / 2) := by
  have hg : (q + 2 ^ 32 - h) % 2 ^ 32 = q - h := by omega
  obtain ⟨children, u, hmatings, hchildren, hu, hall⟩ := step_ga_cases hstep
  rw [length_of_evaluateAll hall, List.length_append, length_select hu,
    length_mapM_mate hchildren, hmatings, hg, min_eq_left hs]

theorem length_addEvaluated {inits : List (Fin X.numVars × Draw)}
    (h : s.addEvaluated X inits = some t) :
    t.population.length = s.population.length + inits.length := by
  induction inits generalizing s with
  | nil =>
      cases h
      rfl
  | cons x inits ih =>
      obtain ⟨u, hu, h⟩ := Option.bind_eq_some_iff.mp h
      have hlen : u.population.length = s.population.length + 1 := by
        obtain ⟨i, -, ⟨-, rfl⟩ | ⟨-, fit, -, -, hp⟩⟩ := evaluate_cases hu
        · simp [addInstance]
        · simp [hp, addInstance]
      rw [ih h, hlen, List.length_cons]
      omega

/-- `_prepare` asks every instance it adds for its fitness. -/
theorem ready_addEvaluated {inits : List (Fin X.numVars × Draw)} (hs : s.Ready)
    (h : s.addEvaluated X inits = some t) : t.Ready := by
  induction inits generalizing s with
  | nil =>
      cases h
      exact hs
  | cons x inits ih =>
      obtain ⟨u, hu, h⟩ := Option.bind_eq_some_iff.mp h
      refine ih ?_ h
      obtain ⟨i, hi, ⟨hcached, rfl⟩ | ⟨-, fit, -, -, hp⟩⟩ := evaluate_cases hu
      · simp only [addInstance, List.getElem?_concat_length] at hi
        cases hi
        cases hcached
      · intro j hj
        simp only [addInstance, List.set_append_right _ _ le_rfl, Nat.sub_self, List.set_cons_zero]
          at hp
        rw [hp] at hj
        rcases List.mem_append.mp hj with hj | hj
        · exact hs j hj
        · rw [List.mem_singleton.mp hj]

end Algorithm

namespace GAAlgorithm

variable {X : Context} {F : Doubles} {cross : Crossover} {q h m : ℕ}
  {s t : GAAlgorithm F X.numVars}

/-- What holds of a population of `m` instances: `fits_` has `q` entries, the first of which are
those of the population. -/
structure Inv (q m : ℕ) (s : GAAlgorithm F X.numVars) : Prop where
  length : s.population.length = m
  ready : s.Ready
  fits_length : s.fits.length = q
  fits : s.fits.take m = s.population.map fun i => F.ofFitness i.fit

theorem Inv.step {samples : List F.D} {c : Choice X.numVars} (hq : q < 2 ^ 32) (hh : h ≤ q)
    (hm : h ≤ m) (hs : s.Inv q m) (hstep : s.step X F cross q h samples c = some t) :
    t.Inv q (h + 2 * ((q - h) / 2)) := by
  simp only [GAAlgorithm.step] at hstep
  split at hstep
  swap
  · cases hstep
  obtain ⟨parents, -, hstep⟩ := Option.bind_eq_some_iff.mp hstep
  split at hstep
  swap
  · cases hstep
  obtain ⟨u, hu, hstep⟩ := Option.bind_eq_some_iff.mp hstep
  obtain ⟨fits, hfits, rfl⟩ := Option.map_eq_some_iff.mp hstep
  have hlen := Algorithm.length_step_ga hq hh (hs.length.symm ▸ hm) hu
  have hready := Algorithm.step_ready hu
  -- only the first entries of `fits_` are written: its length stays
  unfold recalculateFitness at hfits
  split at hfits <;> cases hfits
  rename_i hle
  refine ⟨hlen, hready, ?_, ?_⟩
  · rw [← hs.fits_length, List.length_append, List.length_map, List.length_drop]
    omega
  · rw [← hlen]
    exact List.take_left' (List.length_map _)

theorem Inv.getBest {d : ℕ → Draw} {i : Instance X.numVars} {u : Algorithm X.numVars}
    (hs : s.Inv q m) (h : s.getBest X d = some (i, u)) :
    Inv q m ({ s with toAlgorithm := u } : GAAlgorithm F X.numVars) := by
  rw [Algorithm.getBest_of_ready hs.ready h]
  exact hs

/-- **Any steps** after each other: the first one decides the size of the population. -/
theorem Inv.exec {as : List (Action X F)} (hq : q < 2 ^ 32) (hh : h ≤ q) (hm : h ≤ m)
    (hs : s.Inv q m) (hrun : Machine.exec (act X F cross q h) s as = some t) :
    t.Inv q (if as.any Action.isStep then h + 2 * ((q - h) / 2) else m) := by
  induction as generalizing s m with
  | nil => exact Option.some.inj hrun ▸ hs
  | cons a as ih =>
      obtain ⟨u, hu, hrest⟩ := Machine.exec_cons hrun
      cases a with
      | step samples c =>
          have := ih (Nat.le_add_right _ _) (hs.step hq hh hm hu) hrest
          simpa [Action.isStep] using this
      | getBest d =>
          obtain ⟨⟨i, v⟩, hv, rfl⟩ := Option.map_eq_some_iff.mp hu
          simpa [Action.isStep] using ih hm (hs.getBest hv) hrest
      | setBaseAssumption base =>
          cases hu
          have hb : Inv q m ({ s with base } : GAAlgorithm F X.numVars) :=
            ⟨hs.length, hs.ready, hs.fits_length, hs.fits⟩
          simpa [Action.isStep] using ih hm hb hrest

theorem inv_prepare {inits : List (Fin X.numVars × Draw)}
    (h : prepare X F cross q h inits = some s) : s.Inv q q := by
  obtain ⟨u, hu, rfl⟩ := Option.map_eq_some_iff.mp h
  simp only [Algorithm.prepare] at hu
  split at hu
  · rename_i hlen
    have hlength : u.population.length = q := by
      rw [Algorithm.length_addEvaluated hu, hlen]
      exact Nat.zero_add q
    have hready := Algorithm.ready_addEvaluated (fun i hi => absurd hi List.not_mem_nil) hu
    refine ⟨hlength, hready, ?_, ?_⟩
    · rw [List.length_map, hlength]
    · rw [List.take_of_length_le (by rw [List.length_map, hlength])]
  · cases hu

theorem Inv.right_iff (hq : 1 ≤ q) (hs : s.Inv q m) : s.Right q ↔ m = q := by
  constructor
  · intro h
    exact hs.length.symm.trans h.length
  · rintro rfl
    have hne : s.fits ≠ [] := by
      rintro he
      have := hs.fits_length
      rw [he, List.length_nil] at this
      omega
    refine ⟨hs.length, hs.ready, ?_, ?_⟩
    · rw [← hs.fits, List.take_of_length_le hs.fits_length.le]
    · intro samples hsamples
      rw [hs.length, ← hs.fits_length]
      exact Doubles.choose_spec hne hsamples

end GAAlgorithm

/-- **When the population is right.**  After `prepare` and any steps, whatever is drawn, the
population has `q` instances, `fits_` the fitness of each, and `choose` chooses among them, exactly
if `q - h` is even or no step was made yet. -/
theorem genetic_right_iff (X : Context) (F : Doubles) (cross : Crossover) (q h : ℕ) (hq : 1 ≤ q)
    (hq' : q < 2 ^ 32) (hh : h ≤ q) (inits : List (Fin X.numVars × Draw))
    (s t : GAAlgorithm F X.numVars) (hs : GAAlgorithm.prepare X F cross q h inits = some s)
    (as : List (GAAlgorithm.Action X F))
    (ht : Machine.exec (GAAlgorithm.act X F cross q h) s as = some t) :
    t.Right q ↔ Even (q - h) ∨ ∀ a ∈ as, a.isStep = false := by
  have hinv := (GAAlgorithm.inv_prepare hs).exec hq' hh hh ht
  rw [hinv.right_iff hq, Nat.even_iff]
  have hnone : (as.any GAAlgorithm.Action.isStep = false) ↔ ∀ a ∈ as, a.isStep = false := by
    simp
  rw [← hnone]
  cases as.any GAAlgorithm.Action.isStep with
  | false => simp
  | true =>
      simp only [if_true, Bool.true_eq_false, or_false]
      omega

/-- Exact arithmetic, with `none` for what is not a number; the logarithm is rounded down. -/
def Doubles.exact (powNr : ℕ) : Doubles where
  D := Option ℚ
  ofFitness fit := some (Nat.log2 (fit.value powNr).floor.toNat)
  recip x := x.bind fun x => if x = 0 then none else some x⁻¹
  add x y := x.bind fun x => y.map (x + ·)
  div x y := x.bind fun x => y.bind fun y => if y = 0 then none else some (x / y)
  lt x y := x.any fun x => y.any (x < ·)
  IsSample x := ∃ y, x = some y ∧ 0 ≤ y ∧ y ≤ 1
  div_self x sample := by
    rintro ⟨y, rfl, -, hy⟩
    cases x with
    | none => rfl
    | some x =>
        by_cases hx : x = 0
        · simp [hx]
        · simpa [hx] using hy

/-- A mating without a flip, of the parents `p₁` and `p₂`. -/
def Mating.plain {n : ℕ} (p₁ p₂ : ℕ) (pos : Fin n) : Mating n :=
  ⟨p₁, p₂, pos, pos, fun _ => false, fun _ => false⟩

/-- The choices of a step that compares all `n` instances and keeps their order. -/
def Choice.plain {k : ℕ} (n : ℕ) (matings : List (Mating k)) : Choice k where
  coins := []
  matings := matings
  order := (List.range n).map fun k => (k, .none)
  sorted := List.range n
  recalculated _ := .none
  best _ := .none

/-- With `q = 2` and `h = 0`, two children replace the population. -/
theorem genetic_right_two :
    let X := Context.small exclusiveClauses [1, 0]
    let F := Doubles.exact 20
    ∃ s t, GAAlgorithm.prepare X F .twoPoint 2 0
        [(⟨0, by decide⟩, .none), (⟨1, by decide⟩, .none)] = some s ∧
      Machine.exec (GAAlgorithm.act X F .twoPoint 2 0) s
        [.step [some (9 / 10), some 0] (.plain 2 [.plain 0 1 ⟨0, by decide⟩])] = some t ∧
      t.Right 2 := by
  intro X F
  have hrun : (GAAlgorithm.prepare X F .twoPoint 2 0
      [(⟨0, by decide⟩, .none), (⟨1, by decide⟩, .none)]).any (fun s =>
        (Machine.exec (GAAlgorithm.act X F .twoPoint 2 0) s
          [.step [some (9 / 10), some 0] (.plain 2 [.plain 0 1 ⟨0, by decide⟩])]).isSome) =
            true := by
    decide +kernel
  obtain ⟨s, hs, hany⟩ := (Option.any_eq_true ..).mp hrun
  obtain ⟨t, ht⟩ := Option.isSome_iff_exists.mp hany
  exact ⟨s, t, hs, ht, (genetic_right_iff X F _ 2 0 (by decide) (by decide) (by decide) _ s t hs _
    ht).mpr (.inl (by decide))⟩

/-- With `q = 4` and `h = 1`, three instances are left after a step, and `choose` chooses the
fourth one. -/
theorem genetic_chooses_beyond :
    let X := Context.small exclusiveClauses [1, 0]
    let F := Doubles.exact 20
    ∃ s t, GAAlgorithm.prepare X F .twoPoint 4 1
        (List.replicate 4 (⟨0, by decide⟩, .none)) = some s ∧
      Machine.exec (GAAlgorithm.act X F .twoPoint 4 1) s
        [.step [some 0, some 0, some 0] (.plain 4 [.plain 0 0 ⟨0, by decide⟩])] = some t ∧
      t.population.length = 3 ∧ t.fits.length = 4 ∧
      F.choose t.fits [some (9 / 10), some (9 / 10), some (9 / 10)] = some [3, 3, 3] ∧
      ¬ t.Right 4 := by
  intro X F
  have hrun : (GAAlgorithm.prepare X F .twoPoint 4 1
      (List.replicate 4 (⟨0, by decide⟩, .none))).any (fun s =>
        (Machine.exec (GAAlgorithm.act X F .twoPoint 4 1) s
          [.step [some 0, some 0, some 0] (.plain 4 [.plain 0 0 ⟨0, by decide⟩])]).any fun t =>
            t.population.length = 3 ∧ t.fits.length = 4 ∧
            F.choose t.fits [some (9 / 10), some (9 / 10), some (9 / 10)] = some [3, 3, 3]) =
              true := by
    decide +kernel
  obtain ⟨s, hs, hany⟩ := (Option.any_eq_true ..).mp hrun
  obtain ⟨t, ht, hp⟩ := Machine.exists_run hany
  obtain ⟨hlen, hfits, hchoose⟩ := of_decide_eq_true hp
  refine ⟨s, t, hs, ht, hlen, hfits, hchoose, ?_⟩
  intro hright
  have := hright.length
  omega

end Ea

end Parsat
