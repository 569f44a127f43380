import Parsat.Backdoor.Heap
import Parsat.Backdoor.Order

/-!
# Backdoor — the best instance stays

Both algorithms keep the best instances of a population: `EAAlgorithm` the better one of the parent
and its child, `GAAlgorithm` the best `h` before the children join them.  Where `operator<` is a
strict weak order on the values that are compared, `std::sort` sorts and `std::min_element` finds a
least value, and the best instance does not get worse.

* `Orderly`: the values a step compares are among those on which `operator<` is a strict weak order,
  and the sort sorts them.
* `step_exists_not_worse`: a step leaves an instance that is not worse than a given one.
* `elitism`: so, step by step, the best instance is not worse than before; and no instance that was
  there is changed by the mutation or crossover of a child.
-/

namespace Parsat

namespace Ea

open Fitness

namespace Algorithm

variable (X : Context)

/-- What a step calls `select` on, and for how many instances. -/
def selection (s : Algorithm X.numVars) (c : Choice X.numVars) :
    Kind → Option (ℕ × Algorithm X.numVars)
  | .ea =>
    s.population.head?.bind fun front =>
      (mutateUntilNew X s.cache c.coins front).map fun child =>
        (1, { s with population := s.population ++ [child] })
  | .ga _ _ h => some (h, s)

/-- `std::sort` sorts, and the values it compares are in `V`. -/
def Sorts (V : Fitness → Prop) (s : Algorithm X.numVars) (size : ℕ) (order : List (ℕ × Draw))
    (sorted : List ℕ) : Prop :=
  size < s.population.length → ∀ u ∈ s.evaluateAll X order,
    (∀ i ∈ u.population, V i.fit) ∧
      (References.read u.population sorted).Pairwise fun a b => X.lt b.fit a.fit = false

/-- The values that a step and the `get_best` after it compare are in `V`, and the sort sorts. -/
def Orderly (V : Fitness → Prop) (kind : Kind) (s : Algorithm X.numVars)
    (c : Choice X.numVars) : Prop :=
  (∀ r ∈ s.selection X c kind, r.2.Sorts X V r.1 c.order c.sorted) ∧
    ∀ t ∈ s.step X c kind, ∀ i ∈ t.population, V i.fit

instance (V : Fitness → Prop) [DecidablePred V] (s : Algorithm X.numVars) (size : ℕ)
    (order : List (ℕ × Draw)) (sorted : List ℕ) : Decidable (s.Sorts X V size order sorted) := by
  unfold Sorts
  infer_instance

instance (V : Fitness → Prop) [DecidablePred V] (kind : Kind) (s : Algorithm X.numVars)
    (c : Choice X.numVars) : Decidable (s.Orderly X V kind c) := by
  unfold Orderly
  infer_instance

variable {X} {V : Fitness → Prop} {s t : Algorithm X.numVars} {b i : Instance X.numVars}

/-- An instance that has its fitness stays as it is. -/
theorem mem_evaluateAll {order : List (ℕ × Draw)} (hi : i ∈ s.population) (hc : i.cached = true)
    (h : s.evaluateAll X order = some t) : i ∈ t.population := by
  refine evaluateAll_preserves (P := fun t => i ∈ t.population) ?_ hi h
  intro u k d v hu hv
  obtain ⟨j, hj, ⟨-, rfl⟩ | ⟨hnot, fit, -, -, hp⟩⟩ := evaluate_cases hv
  · exact hu
  · obtain ⟨l, hl⟩ := List.mem_iff_getElem?.mp hu
    have hne : k ≠ l := by
      rintro rfl
      rw [hj] at hl
      rw [Option.some.inj hl, hc] at hnot
      cases hnot
    rw [hp]
    exact List.mem_of_getElem? ((List.getElem?_set_ne hne).trans hl)

theorem evaluateAll_of_ready {order : List (ℕ × Draw)} (hs : s.Ready)
    (h : s.evaluateAll X order = some t) : t = s := by
  refine evaluateAll_preserves (P := (· = s)) ?_ rfl h
  rintro u k d v rfl hv
  exact evaluate_of_ready hs hv

/-- **The loop of `std::min_element`**: none of the entries it went through is better. -/
theorem minElement_not_worse {d : ℕ → Draw} {ks : List ℕ} {best k : ℕ}
    (hV : StrictWeakOn X.lt V) (hs : s.Ready) (hfit : ∀ i ∈ s.population, V i.fit)
    (h : minElement X d best ks s = some (k, t)) (hb : s.population[k]? = some b) :
    ∀ l ∈ best :: ks, ∀ i, s.population[l]? = some i → X.lt i.fit b.fit = false := by
  have hVb := hfit b (List.mem_of_getElem? hb)
  induction ks generalizing best with
  | nil =>
      cases h
      intro l hl i hi
      obtain rfl := List.mem_singleton.mp hl
      rw [hb] at hi
      exact Option.some.inj hi ▸ hV.irrefl hVb
  | cons k' ks ih =>
      obtain ⟨u, hu, h⟩ := Option.bind_eq_some_iff.mp h
      rw [evaluateAll_of_ready hs hu] at h
      split at h
      swap
      · cases h
      rename_i x y hx hy
      have hVx := hfit x (List.mem_of_getElem? hx)
      have hVy := hfit y (List.mem_of_getElem? hy)
      have hrest := ih h
      -- neither the loser of the comparison nor the winner is better
      have hxy : X.lt x.fit b.fit = false ∧ X.lt y.fit b.fit = false := by
        cases hlt : X.lt x.fit y.fit with
        | true =>
            rw [hlt, if_pos rfl] at hrest
            have hxb := hrest k' List.mem_cons_self x hx
            exact ⟨hxb, hV.not_lt_trans hVy hVx hVb (hV.asymm hVx hVy hlt) hxb⟩
        | false =>
            rw [hlt, if_neg Bool.false_ne_true] at hrest
            have hyb := hrest best List.mem_cons_self y hy
            exact ⟨hV.not_lt_trans hVx hVy hVb hlt hyb, hyb⟩
      intro l hl i hi
      rcases List.mem_cons.mp hl with rfl | hl
      · rw [hy] at hi
        exact Option.some.inj hi ▸ hxy.2
      · rcases List.mem_cons.mp hl with rfl | hl
        · rw [hx] at hi
          exact Option.some.inj hi ▸ hxy.1
        · exact hrest l (List.mem_cons_of_mem _ hl) i hi

/-- **`get_best`** returns an instance that no other one is better than. -/
theorem getBest_not_worse {d : ℕ → Draw} (hV : StrictWeakOn X.lt V) (hs : s.Ready)
    (hfit : ∀ i ∈ s.population, V i.fit) (h : s.getBest X d = some (b, t)) :
    b ∈ s.population ∧ ∀ i ∈ s.population, X.lt i.fit b.fit = false := by
  obtain ⟨⟨k, u⟩, hu, h⟩ := Option.bind_eq_some_iff.mp h
  obtain ⟨j, hj, he⟩ := Option.map_eq_some_iff.mp h
  obtain ⟨rfl, rfl⟩ := Prod.mk.inj he
  -- every fitness is computed already, so the comparisons change nothing
  have hus : u = s := by
    refine minElement_preserves (P := (· = s)) ?_ rfl hu
    rintro u k d v rfl hv
    exact evaluate_of_ready hs hv
  subst hus
  refine ⟨List.mem_of_getElem? hj, ?_⟩
  intro i hi
  obtain ⟨l, hl⟩ := List.mem_iff_getElem?.mp hi
  refine minElement_not_worse hV hs hfit hu hj l ?_ i hl
  have hlt := (List.getElem?_eq_some_iff.mp hl).1
  rw [List.mem_cons, List.mem_range'_1]
  omega

/-- **Selection** of at least one keeps an instance that is not worse. -/
theorem select_exists_not_worse {size : ℕ} {order : List (ℕ × Draw)} {sorted : List ℕ}
    (hsorts : s.Sorts X V size order sorted) (hsize : 1 ≤ size)
    (h : s.select X size order sorted = some t) (hb : b ∈ s.population) (hc : b.cached = true) :
    ∃ x ∈ t.population, x = b ∨ V b.fit ∧ X.lt b.fit x.fit = false := by
  rcases select_cases h with ⟨-, rfl⟩ | ⟨hlt, -, hsorted, u, hu, rfl⟩
  · exact ⟨b, hb, .inl rfl⟩
  · obtain ⟨hfit, hpair⟩ := hsorts hlt u hu
    have hbu := mem_evaluateAll hb hc hu
    rw [← length_of_evaluateAll hu] at hsorted
    have hmem := (References.read_perm hsorted).mem_iff.mpr hbu
    -- the first instance after the sort stays, and `b` is not better
    cases hl : References.read u.population sorted with
    | nil =>
        rw [hl] at hmem
        cases hmem
    | cons x l =>
        rw [hl] at hmem hpair
        refine ⟨x, ?_, ?_⟩
        · show x ∈ (References.read u.population sorted).take size
          obtain ⟨n, rfl⟩ := Nat.exists_eq_add_of_le' hsize
          rw [hl, List.take_succ_cons]
          exact List.mem_cons_self
        · rcases List.mem_cons.mp hmem with rfl | hbl
          · exact .inl rfl
          · exact .inr ⟨hfit b hbu, (List.pairwise_cons.mp hpair).1 b hbl⟩

theorem mem_of_select_of_ready {size : ℕ} {order : List (ℕ × Draw)} {sorted : List ℕ}
    (hs : s.Ready) (h : s.select X size order sorted = some t) :
    ∀ i ∈ t.population, i ∈ s.population := by
  rcases select_cases h with ⟨-, rfl⟩ | ⟨-, -, -, u, hu, rfl⟩
  · exact fun _ => id
  · obtain rfl := evaluateAll_of_ready hs hu
    intro i hi
    obtain ⟨k, -, hk⟩ := List.mem_filterMap.mp (List.mem_of_mem_take hi)
    exact List.mem_of_getElem? hk

/-- **A step** leaves an instance that is not worse than a given one. -/
theorem step_exists_not_worse {kind : Kind} {c : Choice X.numVars}
    (hkind : ∀ cross q h, kind = .ga cross q h → 1 ≤ h) (hs : s.Ready)
    (ho : s.Orderly X V kind c) (h : s.step X c kind = some t) (hb : b ∈ s.population) :
    ∃ x ∈ t.population, x = b ∨ V b.fit ∧ X.lt b.fit x.fit = false := by
  have hc := hs b hb
  cases kind with
  | ea =>
      obtain ⟨front, child, hfront, hchild, h⟩ := step_ea_cases h
      have hsel : s.selection X c .ea =
          some (1, { s with population := s.population ++ [child] }) := by
        rw [selection, hfront, Option.bind_some, hchild]
        rfl
      exact select_exists_not_worse (ho.1 _ hsel) le_rfl h (List.mem_append_left _ hb) hc
  | ga cross q h' =>
      obtain ⟨children, u, -, -, hu, h⟩ := step_ga_cases h
      obtain ⟨x, hx, hxb⟩ := select_exists_not_worse (ho.1 (h', s) rfl) (hkind cross q h' rfl)
        hu hb hc
      -- the survivors have their fitness, so it is not computed anew
      have hcx := hs x (mem_of_select_of_ready hs hu x hx)
      exact ⟨x, mem_evaluateAll (List.mem_append_left _ hx) hcx h, hxb⟩

end Algorithm

/-- **Elitism.**  In every run of `EAAlgorithm`, and of `GAAlgorithm` with `1 ≤ h`, whatever is
drawn, a step changes no instance there was, but for computing its fitness; and if `operator<` is a
strict weak order on the values the step compares, the best instance after it is not worse than the
best one after the step before. -/
theorem elitism (X : Context) (V : Fitness → Prop) (hV : StrictWeakOn X.lt V) (kind : Kind)
    (hkind : ∀ cross q h, kind = .ga cross q h → 1 ≤ h) (base : LitVec)
    (inits : List (Fin X.numVars × Draw)) (s t u : Store X.numVars)
    (hs : Store.prepare X inits kind = some s) (cs : List (Choice X.numVars))
    (ht : Machine.exec (Store.iterate X kind) (s.setBaseAssumption X base) cs = some t)
    (c : Choice X.numVars) (hu : t.step X c kind = some u) :
    (∀ (p : ℕ) (i : Instance X.numVars), t.heap[p]? = some i →
      ∃ j, u.heap[p]? = some j ∧ j.mask = i.mask ∧ (i.cached = true → j = i)) ∧
    (cs ≠ [] → t.deref.Orderly X V kind c → ∀ d d' p p' t' u',
      t.getBest X d = some (p, t') → u.getBest X d' = some (p', u') →
      ∃ b b', t'.heap[p]? = some b ∧ u'.heap[p']? = some b' ∧ X.lt b.fit b'.fit = false) := by
  have hwf : (s.setBaseAssumption X base).Wf := (Store.prepare_spec hs).1
  obtain ⟨htwf, -, hrun⟩ := Store.exec_spec hwf ht
  obtain ⟨huwf, hkeeps, hstep⟩ := Store.step_spec htwf hu
  refine ⟨hkeeps, ?_⟩
  intro hcs ho d d' p p' t' u' hbest hbest'
  obtain ⟨-, b, hb, hbest⟩ := Store.getBest_spec htwf hbest
  obtain ⟨-, b', hb', hbest'⟩ := Store.getBest_spec huwf hbest'
  refine ⟨b, b', hb, hb', ?_⟩
  have hready := Algorithm.exec_ready hcs hrun
  have hready' := Algorithm.step_ready hstep
  have hmem : b ∈ t.deref.population := by
    have := (Algorithm.getBest_spec t.deref.sound_trivial (fun _ _ => trivial) hbest).2
    rwa [Algorithm.getBest_of_ready hready hbest] at this
  have hfit := ho.2 _ hstep
  obtain ⟨hmem', hmin⟩ := Algorithm.getBest_not_worse hV hready' hfit hbest'
  -- the step leaves an `x` that is not worse than `b`, nor is `b'` worse than `x`
  obtain ⟨x, hx, rfl | ⟨hVb, hxb⟩⟩ := Algorithm.step_exists_not_worse hkind hready ho hstep hmem
  · exact hmin x hx
  · exact hV.not_lt_trans hVb (hfit x hx) (hfit b' hmem') hxb (hmin x hx)

/-- A choice for `EAAlgorithm`: one mutation, and a sort that leaves the parent in the first
place. -/
def Choice.parent {n : ℕ} (coins : Mask n) : Choice n :=
  { Choice.child coins with sorted := [0, 1] }

/-- The mutation of `{0}` into `{0, 1}` is better, and the one of that into `{1}` is not. -/
theorem elitism_two :
    let X := Context.small exclusiveClauses [1, 0]
    ∃ s t u p t' p' u' b b', Store.prepare X [(⟨1, by decide⟩, .none)] .ea = some s ∧
      Machine.exec (Store.iterate X .ea) (s.setBaseAssumption X [])
        [.child fun k => k.val = 0] = some t ∧
      t.step X (.parent fun k => k.val = 1) .ea = some u ∧
      t.getBest X (fun _ => .none) = some (p, t') ∧ u.getBest X (fun _ => .none) = some (p', u') ∧
      t'.heap[p]? = some b ∧ u'.heap[p']? = some b' ∧ X.lt b.fit b'.fit = false := by
  intro X
  have hV : StrictWeakOn X.lt fun _ => True := by
    refine .of_key (fun a => OrderDual.toDual a.rho) ?_
    intro a b _ _
    exact decide_eq_true_iff
  have hrun : (Store.prepare X [(⟨1, by decide⟩, .none)] .ea).any (fun s =>
      (Machine.exec (Store.iterate X .ea) (s.setBaseAssumption X [])
        [.child fun k => k.val = 0]).any fun t =>
          decide (t.deref.Orderly X (fun _ => True) .ea (.parent fun k => k.val = 1)) &&
          (t.getBest X fun _ => .none).isSome &&
          (t.step X (.parent fun k => k.val = 1) .ea).any fun u =>
            (u.getBest X fun _ => .none).isSome) = true := by
    decide +kernel
  obtain ⟨s, hs, hany⟩ := (Option.any_eq_true ..).mp hrun
  obtain ⟨t, ht, hany⟩ := Machine.exists_run hany
  simp only [Bool.and_eq_true, decide_eq_true_eq] at hany
  obtain ⟨⟨horderly, hbest⟩, hany⟩ := hany
  obtain ⟨u, hu, hbest'⟩ := (Option.any_eq_true ..).mp hany
  obtain ⟨⟨p, t'⟩, hp⟩ := Option.isSome_iff_exists.mp hbest
  obtain ⟨⟨p', u'⟩, hp'⟩ := Option.isSome_iff_exists.mp hbest'
  obtain ⟨b, b', hb, hb', hlt⟩ := (elitism X _ hV .ea (fun _ _ _ hk => by cases hk) [] _ s t u hs _
    ht _ hu).2 (List.cons_ne_nil _ _) horderly _ _ p p' t' u' hp hp'
  exact ⟨s, t, u, p, t', p', u', b, b', hs, ht, hu, hp, hp', hb, hb', hlt⟩

end Ea

end Parsat
