import Mathlib.Algebra.Order.Ring.Nat
import Parsat.Minisat.Propagate

/-!
# Minisat — conflict analysis

`Solver::analyze()`: from a false clause back along the trail, each literal of the present level is
replaced by its reason until one is left, the first unique implication point.  The literals of lower
levels that are met on the way, less those that others imply (`litRedundant`, or a plainer test, by
`ccmin_mode`), form the learnt clause together with its negation.  `analyzeFinal` goes back in the
same way from a false assumption to the assumptions it follows from.

The array `seen` is a member of the solver that each of these expects clear and leaves clear; it is
an argument and a result here.

* `covered`: literals whose reasons lead to literals of a set follow from that set.
* `resolve_spec`: the loop reaches the implication point, and what is left of the conflict follows
  by propagation from what it has collected.
* `litRedundant_spec`: the search of `litRedundant` ends, and what it marks removable is implied.
* `analyze_spec`: the learnt clause, and the level to go back to.
* `analyzeFinal_spec`: the assumptions that cannot hold together.
-/

namespace Parsat.Minisat

open UnitProp

/-- The values of `seen[v]`: 0, 1 (`seen_source`), 2 (`seen_removable`) and 3 (`seen_failed`). -/
inductive Seen where
  | undef
  | source
  | removable
  | failed
  deriving DecidableEq

namespace Core

/-- `ca[reason(v)]`. -/
def reasonClause (s : Core) (v : ℕ) : Clause :=
  match s.reason v with
  | some cr => s.ca cr
  | none => []

/-! ### The implication point -/

/-- The variables of `analyze`; `out` is `out_learnt` without the asserting literal. -/
structure Analysis where
  seen : ℕ → Seen
  pathC : ℕ
  out : List Lit

/-- One literal of the clause that is resolved with. -/
def mark (s : Core) (a : Analysis) (q : Lit) : Analysis :=
  if a.seen q.var = .undef ∧ 0 < s.level q.var then
    let seen := Function.update a.seen q.var .source
    if s.decisionLevel ≤ s.level q.var then ⟨seen, a.pathC + 1, a.out⟩
    else ⟨seen, a.pathC, a.out ++ [q]⟩
  else a

/-- Select next clause to look at: the last literal before position `n` that is `seen`. -/
def nextSeen (s : Core) (seen : ℕ → Seen) : ℕ → Option (ℕ × Lit)
  | 0 => none
  | n + 1 =>
    match s.trail[n]? with
    | some p => if seen p.var ≠ .undef then some (n, p) else s.nextSeen seen n
    | none => s.nextSeen seen n

/-- The loop, where `n` is `index + 1` and `lits` are the literals of `confl` that are looked at.
`none` stands for a failed assertion. -/
def resolve (s : Core) : ℕ → ℕ → List Lit → Analysis → Option (Lit × Analysis)
  | 0, _, _, _ => none
  | fuel + 1, n, lits, a =>
    let b := lits.foldl s.mark a
    match s.nextSeen b.seen n with
    | none => none
    | some (i, p) =>
      let b' : Analysis := ⟨Function.update b.seen p.var .undef, b.pathC - 1, b.out⟩
      if b'.pathC = 0 then some (p, b')
      else match s.reason p.var with
        | none => none
        | some cr => s.resolve fuel i (s.ca cr).tail b'

/-! ### Simplifying the learnt clause -/

/-- `seen[]` with the literals to clear it by, `analyze_toclear`. -/
structure Marks where
  seen : ℕ → Seen
  toclear : List Lit

/-- Give `seen[var(p)]` the value `x` if it has none. -/
def Marks.put (m : Marks) (x : Seen) (p : Lit) : Marks :=
  if m.seen p.var = .undef then ⟨Function.update m.seen p.var x, m.toclear ++ [p]⟩ else m

/-- The loop of `litRedundant`: the `i`-th literal of the reason of `p` is looked at, and `stack` is
`analyze_stack` from the top. -/
def litRedundantLoop (s : Core) :
    ℕ → ℕ → Lit → List (ℕ × Lit) → Marks → Option (Bool × Marks)
  | 0, _, _, _, _ => none
  | fuel + 1, i, p, stack, m =>
    match (s.reasonClause p.var)[i]? with
    | some l =>
      -- variable at level 0 or previously removable
      if s.level l.var = 0 ∨ m.seen l.var = .source ∨ m.seen l.var = .removable then
        s.litRedundantLoop fuel (i + 1) p stack m
      -- variable can not be removed for some local reason
      else if s.reason l.var = none ∨ m.seen l.var = .failed then
        some (false, (((0, p) :: stack).reverse.map Prod.snd).foldl (Marks.put · .failed) m)
      else s.litRedundantLoop fuel 1 l ((i, p) :: stack) m
    | none =>
      let m' := m.put .removable p
      match stack with
      | [] => some (true, m')
      | (j, q) :: stack => s.litRedundantLoop fuel (j + 1) q stack m'

def weight (s : Core) (x : Lit) : ℕ := (s.reasonClause x.var).length + 1

/-- Steps enough for each literal of each reason. -/
def redundantFuel (s : Core) : ℕ := (s.trail.map s.weight).sum

def litRedundant (s : Core) (p : Lit) (m : Marks) : Option (Bool × Marks) :=
  s.litRedundantLoop s.redundantFuel 1 p [] m

/-- The loop over `out_learnt` for `ccmin_mode == 2`. -/
def minimizeDeep (s : Core) : List Lit → Marks → Option (List Lit × Marks)
  | [], m => some ([], m)
  | q :: qs, m =>
    if s.reason q.var = none then
      (s.minimizeDeep qs m).map fun r => (q :: r.1, r.2)
    else match s.litRedundant q m with
      | none => none
      | some (redundant, m') =>
        (s.minimizeDeep qs m').map fun r => (if redundant then r.1 else q :: r.1, r.2)

/-- The condition for `ccmin_mode == 1`. -/
def keepsBasic (s : Core) (seen : ℕ → Seen) (q : Lit) : Bool :=
  match s.reason q.var with
  | none => true
  | some cr => (s.ca cr).tail.any fun l => seen l.var = .undef ∧ 0 < s.level l.var

/-- Simplify conflict clause. -/
def minimize (s : Core) (ccmin : ℕ) (out : List Lit) (m : Marks) : Option (List Lit × Marks) :=
  if ccmin = 2 then s.minimizeDeep out m
  else if ccmin = 1 then some (out.filter (s.keepsBasic m.seen), m)
  else some (out, m)

/-! ### The backtrack level -/

/-- The level of the `i`-th literal. -/
def levelAt (s : Core) (ls : List Lit) (i : ℕ) : ℕ := (ls[i]?).elim 0 fun q => s.level q.var

/-- The first literal assigned at the highest level. -/
def maxIndex (s : Core) (ls : List Lit) : ℕ :=
  (List.range ls.length).foldl (fun m i => if s.levelAt ls m < s.levelAt ls i then i else m) 0

/-- Swap the `i`-th literal with the first. -/
def swapIn (ls : List Lit) (i : ℕ) : List Lit :=
  match ls[0]?, ls[i]? with
  | some a, some b => (ls.set 0 b).set i a
  | _, _ => ls

/-- `analyze(confl, out_learnt, out_btlevel)`: the learnt clause, the level, and `seen`. -/
def analyze (s : Core) (ccmin : ℕ) (confl : ℕ) (seen : ℕ → Seen) :
    Option (List Lit × ℕ × (ℕ → Seen)) :=
  match s.resolve (s.trail.length + 1) s.trail.length (s.ca confl) ⟨seen, 0, []⟩ with
  | none => none
  | some (p, a) =>
    match s.minimize ccmin a.out ⟨a.seen, -p :: a.out⟩ with
    | none => none
    | some (out, m) =>
      let out' := swapIn out (s.maxIndex out)
      some (-p :: out', s.levelAt out' 0,
        m.toclear.foldl (fun f q => Function.update f q.var .undef) m.seen)

/-! ### The final conflict -/

/-- `LSet::insert`. -/
def insertLit (out : List Lit) (p : Lit) : List Lit := if p ∈ out then out else out ++ [p]

/-- One literal of the trail, from the back, in `analyzeFinal`. -/
def finalStep (s : Core) (r : List Lit × (ℕ → Seen)) (x : Lit) : List Lit × (ℕ → Seen) :=
  if r.2 x.var ≠ .undef then
    let (out, seen) := match s.reason x.var with
      | none => (insertLit r.1 (-x), r.2)
      | some cr => (r.1, (s.ca cr).tail.foldl (fun f q =>
          if 0 < s.level q.var then Function.update f q.var .source else f) r.2)
    (out, Function.update seen x.var .undef)
  else r

/-- `analyzeFinal(p, out_conflict)`. -/
def analyzeFinal (s : Core) (p : Lit) (seen : ℕ → Seen) : List Lit × (ℕ → Seen) :=
  if s.decisionLevel = 0 then ([p], seen)
  else
    let r := ((s.trail.drop (s.trailLim.headD 0)).reverse).foldl s.finalStep
      ([p], Function.update seen p.var .source)
    (r.1, Function.update r.2 p.var .undef)

/-! ### What follows from the reasons -/

variable {s : Core} {W : Lit → List Watcher} {p q : Lit} {cr k n : ℕ} {a : Analysis}

/-- **Covered literals.**  If the reasons of the literals of `R` lead to `R` again, or the literal
is in `K`, then all literals of `R` follow from `K`. -/
theorem Base.covered (h : s.Base W) {K : Set Lit} {R : ℕ → Prop}
    (hR : ∀ x ∈ s.trail, R x.var → 0 < s.level x.var → x ∈ K ∨
      s.reason x.var ≠ none ∧ ∀ q ∈ (s.reasonClause x.var).tail, s.level q.var = 0 ∨ R q.var) :
    ∀ x ∈ s.trail, R x.var → Derives s.db ({x | x ∈ s.level0} ∪ K) x := by
  -- the literals of a reason stand before the literal they imply
  suffices ∀ k x, s.trail[k]? = some x → R x.var → Derives s.db ({x | x ∈ s.level0} ∪ K) x by
    intro x hx
    obtain ⟨k, hk⟩ := trail_pos hx
    exact this k x hk
  intro k
  induction k using Nat.strong_induction_on with
  | _ k ih =>
      intro x hk hRx
      have hx := List.mem_of_getElem? hk
      rcases Nat.eq_zero_or_pos (s.level x.var) with hl | hl
      · exact .base (.inl (h.mem_level0.mpr ⟨hx, hl⟩))
      rcases hR x hx hRx hl with hK | ⟨hr, htail⟩
      · exact .base (.inr hK)
      obtain ⟨cr, hcr⟩ := Option.ne_none_iff_exists'.mp hr
      obtain ⟨hmem, rest, hc, hrest⟩ := h.reason_eq k x cr hk hcr hl
      refine .unit (mem_db.mpr ⟨cr, hmem, hc⟩) List.mem_cons_self fun q hq hne => ?_
      have hq' := (List.mem_cons.mp hq).resolve_left hne
      have hbefore := hrest q hq'
      obtain ⟨k', hk'⟩ := trail_pos (List.mem_of_mem_take hbefore)
      rcases htail q (by simpa [reasonClause, hcr, hc] using hq') with hz | hRq
      · exact .base (.inl (h.mem_level0.mpr ⟨List.mem_of_getElem? hk', hz⟩))
      · exact ih k' ((h.mem_take hk').mp hbefore) _ hk' hRq

/-! ### The loop to the implication point -/

/-- The literals that what is left of the conflict follows from. -/
def Analysis.lits (s : Core) (a : Analysis) : Set Lit :=
  {x | x ∈ s.level0 ∨ -x ∈ a.out ∨
    (x ∈ s.trail ∧ s.level x.var = s.decisionLevel ∧ a.seen x.var ≠ .undef)}

/-- What `analyze` has collected when the trail from `n` on is done. -/
structure Collects (s : Core) (n : ℕ) (a : Analysis) : Prop where
  out : ∀ q ∈ a.out, -q ∈ s.trail ∧ 0 < s.level q.var ∧ s.level q.var < s.decisionLevel ∧
    a.seen q.var = .source
  distinct : a.out.Pairwise fun p q => p.var ≠ q.var
  seen : ∀ v, a.seen v ≠ .undef → a.seen v = .source ∧
    ((∃ q ∈ a.out, q.var = v) ∨ ∃ x ∈ s.trail.take n, x.var = v ∧ s.level v = s.decisionLevel)
  count : a.pathC =
    (s.trail.filter fun x => s.level x.var = s.decisionLevel ∧ a.seen x.var ≠ .undef).length

theorem filter_perm_cons {α : Type*} {l : List α} {x : α} {f g : α → Bool} (hl : l.Nodup)
    (hx : x ∈ l) (hf : ¬ f x) (h : ∀ y ∈ l, g y ↔ f y ∨ y = x) :
    (l.filter g).Perm (x :: l.filter f) := by
  have hn : (x :: l.filter f).Nodup :=
    List.nodup_cons.mpr ⟨fun hm => hf (List.mem_filter.mp hm).2, hl.filter _⟩
  refine (List.perm_ext_iff_of_nodup (hl.filter _) hn).mpr fun y => ?_
  simp only [List.mem_filter, List.mem_cons]
  constructor
  · rintro ⟨hy, hg⟩
    exact ((h y hy).mp hg).elim (fun hf => .inr ⟨hy, hf⟩) .inl
  · rintro (rfl | ⟨hy, hf'⟩)
    · exact ⟨hx, (h y hx).mpr (.inr rfl)⟩
    · exact ⟨hy, (h y hy).mpr (.inl hf')⟩

theorem Base.trail_nodup (h : s.Base W) : s.trail.Nodup :=
  h.wf.distinct.imp fun hne e => hne (congrArg Lit.var e)

/-- Two literals of one variable on the trail are the same. -/
theorem Base.eq_of_var (h : s.Base W) (hp : p ∈ s.trail) (hq : q ∈ s.trail) (e : p.var = q.var) :
    p = q := by
  obtain ⟨k, hk⟩ := trail_pos hp
  obtain ⟨k', hk'⟩ := trail_pos hq
  obtain rfl := h.pos_unique hk hk' e
  exact Option.some.inj (hk.symm.trans hk')

theorem neg_eq_of_var (h : s.Base W) (hp : -p ∈ s.trail) (hq : -q ∈ s.trail)
    (e : p.var = q.var) : p = q := neg_inj.mp (h.eq_of_var hp hq e)

theorem update_source_ne {seen : ℕ → Seen} {v w : ℕ} (hs : seen w ≠ .undef) :
    Function.update seen v .source w ≠ .undef := by
  by_cases e : w = v
  · simp [e]
  · rwa [Function.update_of_ne e]

/-- A false literal is looked at. -/
theorem Collects.mark (h : s.Base W) (ha : s.Collects n a) (hq : -q ∈ s.trail.take n) :
    s.Collects n (s.mark a q) ∧ a.lits s ⊆ (s.mark a q).lits s ∧ -q ∈ (s.mark a q).lits s := by
  have hqt := List.mem_of_mem_take hq
  unfold Core.mark
  split_ifs with hnew hcur
  · -- a literal of the present level
    obtain ⟨hundef, hpos⟩ := hnew
    have hlev : s.level q.var = s.decisionLevel := le_antisymm (h.level_le (p := -q) hqt) hcur
    have hne : ∀ x ∈ a.out, x.var ≠ q.var := by
      intro x hx e
      have := (ha.out x hx).2.2.2
      rw [e, hundef] at this
      cases this
    refine ⟨⟨?_, ha.distinct, ?_, ?_⟩, ?_, ?_⟩
    · intro x hx
      obtain ⟨h₁, h₂, h₃, h₄⟩ := ha.out x hx
      exact ⟨h₁, h₂, h₃, (Function.update_of_ne (hne x hx) ..).trans h₄⟩
    · intro v hv
      by_cases e : v = q.var
      · subst e
        exact ⟨Function.update_self .., .inr ⟨-q, hq, rfl, hlev⟩⟩
      · simp only [Function.update_of_ne e] at hv ⊢
        exact ha.seen v hv
    · have hperm : (s.trail.filter fun x => decide (s.level x.var = s.decisionLevel ∧
          Function.update a.seen q.var .source x.var ≠ .undef)).Perm
          (-q :: s.trail.filter fun x => decide (s.level x.var = s.decisionLevel ∧
            a.seen x.var ≠ .undef)) := by
        refine filter_perm_cons h.trail_nodup hqt (by simp [hundef]) fun y hy => ?_
        by_cases e : y.var = q.var
        · obtain rfl : y = -q := h.eq_of_var hy hqt e
          simp [hlev]
        · have hyq : y ≠ -q := fun hyq => e (by rw [hyq, Lit.var_neg])
          simp [Function.update_of_ne e, hyq]
      exact (congrArg (· + 1) ha.count).trans hperm.length_eq.symm
    · rintro x (hx | hx | ⟨hx, hl, hs⟩)
      · exact .inl hx
      · exact .inr (.inl hx)
      · exact .inr (.inr ⟨hx, hl, update_source_ne hs⟩)
    · exact .inr (.inr ⟨hqt, hlev, by simp⟩)
  · -- a literal of a lower level
    obtain ⟨hundef, hpos⟩ := hnew
    have hne : ∀ x ∈ a.out, x.var ≠ q.var := by
      intro x hx e
      have := (ha.out x hx).2.2.2
      rw [e, hundef] at this
      cases this
    refine ⟨⟨?_, ?_, ?_, ?_⟩, ?_, ?_⟩
    · intro x hx
      rcases List.mem_append.mp hx with hx | hx
      · obtain ⟨h₁, h₂, h₃, h₄⟩ := ha.out x hx
        exact ⟨h₁, h₂, h₃, (Function.update_of_ne (hne x hx) ..).trans h₄⟩
      · rw [List.mem_singleton.mp hx]
        exact ⟨hqt, hpos, not_le.mp hcur, Function.update_self ..⟩
    · refine List.pairwise_append.mpr ⟨ha.distinct, List.pairwise_singleton _ _, ?_⟩
      intro x hx y hy
      exact List.mem_singleton.mp hy ▸ hne x hx
    · intro v hv
      by_cases e : v = q.var
      · subst e
        exact ⟨Function.update_self .., .inl ⟨q, by simp, rfl⟩⟩
      · simp only [Function.update_of_ne e] at hv ⊢
        obtain ⟨hs, ⟨x, hx, hxv⟩ | hx⟩ := ha.seen v hv
        · exact ⟨hs, .inl ⟨x, List.mem_append_left _ hx, hxv⟩⟩
        · exact ⟨hs, .inr hx⟩
    · refine ha.count.trans (congrArg List.length (List.filter_congr fun x _ => ?_))
      by_cases e : x.var = q.var
      · have : s.level x.var ≠ s.decisionLevel := by
          rw [e]
          exact (not_le.mp hcur).ne
        simp [this]
      · simp [Function.update_of_ne e]
    · rintro x (hx | hx | ⟨hx, hl, hs⟩)
      · exact .inl hx
      · exact .inr (.inl (List.mem_append_left _ hx))
      · exact .inr (.inr ⟨hx, hl, update_source_ne hs⟩)
    · exact .inr (.inl (by simp))
  · -- a literal of level 0, or one that has been seen
    refine ⟨ha, subset_rfl, ?_⟩
    by_cases hl : s.level q.var = 0
    · exact .inl (h.mem_level0.mpr ⟨hqt, hl⟩)
    have hs : a.seen q.var ≠ .undef := fun e => hnew ⟨e, Nat.pos_of_ne_zero hl⟩
    obtain ⟨-, ⟨x, hx, hv⟩ | ⟨x, hx, hv, hlev⟩⟩ := ha.seen _ hs
    · obtain rfl : x = q := neg_eq_of_var h (ha.out x hx).1 hqt hv
      exact .inr (.inl (by rwa [neg_neg]))
    · exact .inr (.inr ⟨hqt, hlev, hs⟩)

/-- The literals of a clause are looked at. -/
theorem Collects.marks (h : s.Base W) {lits : List Lit} (ha : s.Collects n a)
    (hlits : ∀ q ∈ lits, -q ∈ s.trail.take n) :
    s.Collects n (lits.foldl s.mark a) ∧ a.lits s ⊆ (lits.foldl s.mark a).lits s ∧
      ∀ q ∈ lits, -q ∈ (lits.foldl s.mark a).lits s := by
  induction lits generalizing a with
  | nil => exact ⟨ha, subset_rfl, by simp⟩
  | cons q lits ih =>
      obtain ⟨ha', hsub, hq⟩ := ha.mark h (hlits q List.mem_cons_self)
      obtain ⟨hb, hsub', hrest⟩ := ih ha' fun x hx => hlits x (List.mem_cons_of_mem _ hx)
      exact ⟨hb, hsub.trans hsub', List.forall_mem_cons.mpr ⟨hsub' hq, hrest⟩⟩

theorem pathC_le_foldl (lits : List Lit) (a : Analysis) :
    a.pathC ≤ (lits.foldl s.mark a).pathC := by
  induction lits generalizing a with
  | nil => exact le_rfl
  | cons q lits ih =>
      refine le_trans ?_ (ih _)
      unfold mark
      split_ifs <;> simp

theorem nextSeen_none {seen : ℕ → Seen} (h : s.nextSeen seen n = none) :
    ∀ k < n, ∀ x, s.trail[k]? = some x → seen x.var = .undef := by
  induction n with
  | zero => exact fun k hk => absurd hk (Nat.not_lt_zero k)
  | succ n ih =>
      intro k hk x hx
      rw [nextSeen] at h
      rcases Nat.lt_succ_iff_lt_or_eq.mp hk with hlt | rfl
      · refine ih ?_ k hlt x hx
        split at h
        · split_ifs at h
          exact h
        · exact h
      · simp only [hx] at h
        split_ifs at h with hs
        exact not_not.mp hs

theorem nextSeen_some {seen : ℕ → Seen} {i : ℕ} (h : s.nextSeen seen n = some (i, p)) :
    i < n ∧ s.trail[i]? = some p ∧ seen p.var ≠ .undef ∧
      ∀ k < n, i < k → ∀ x, s.trail[k]? = some x → seen x.var = .undef := by
  induction n with
  | zero => cases h
  | succ n ih =>
      rw [nextSeen] at h
      have hstep : s.nextSeen seen n = some (i, p) →
          (∀ x, s.trail[n]? = some x → seen x.var = .undef) →
          i < n + 1 ∧ s.trail[i]? = some p ∧ seen p.var ≠ .undef ∧
            ∀ k < n + 1, i < k → ∀ x, s.trail[k]? = some x → seen x.var = .undef := by
        intro h' hn
        obtain ⟨h₁, h₂, h₃, h₄⟩ := ih h'
        refine ⟨Nat.lt_succ_of_lt h₁, h₂, h₃, fun k hk hik x hx => ?_⟩
        rcases Nat.lt_succ_iff_lt_or_eq.mp hk with hlt | rfl
        · exact h₄ k hlt hik x hx
        · exact hn x hx
      split at h
      · rename_i x hx
        split_ifs at h with hs
        · cases h
          refine ⟨Nat.lt_succ_self i, hx, hs, fun k hk hik => ?_⟩
          omega
        · exact hstep h fun y hy => by
            obtain rfl := Option.some.inj (hx.symm.trans hy)
            exact not_not.mp hs
      · rename_i hx
        exact hstep h fun y hy => by rw [hx] at hy; cases hy

/-- Some literal of the present level has been seen. -/
theorem Collects.exists_current (ha : s.Collects n a) (hc : 0 < a.pathC) :
    ∃ x ∈ s.trail, s.level x.var = s.decisionLevel ∧ a.seen x.var ≠ .undef := by
  rw [ha.count] at hc
  obtain ⟨x, hx⟩ := List.exists_mem_of_length_pos hc
  obtain ⟨hx, hp⟩ := List.mem_filter.mp hx
  exact ⟨x, hx, by simpa using hp⟩

/-- A literal of the present level that has been seen is still ahead. -/
theorem Collects.current_lt (h : s.Base W) (ha : s.Collects n a) (hp : s.trail[k]? = some p)
    (hl : s.level p.var = s.decisionLevel) (hs : a.seen p.var ≠ .undef) : k < n := by
  obtain ⟨-, ⟨q, hq, e⟩ | ⟨x, hx, e, -⟩⟩ := ha.seen _ hs
  · have := (ha.out q hq).2.2.1
    rw [e] at this
    omega
  · obtain rfl := h.eq_of_var (List.mem_of_mem_take hx) (List.mem_of_getElem? hp) e
    exact (h.mem_take hp).mp hx

/-- **The next literal** is one of the present level, and the last that has been seen. -/
theorem Collects.nextSeen (h : s.Base W) (ha : s.Collects n a) (hc : 0 < a.pathC) :
    ∃ i p, s.nextSeen a.seen n = some (i, p) ∧ i < n ∧ s.trail[i]? = some p ∧
      s.level p.var = s.decisionLevel ∧ a.seen p.var ≠ .undef ∧
      ∀ k < n, i < k → ∀ x, s.trail[k]? = some x → a.seen x.var = .undef := by
  obtain ⟨y, hy, hyl, hys⟩ := ha.exists_current hc
  obtain ⟨k, hk⟩ := trail_pos hy
  have hkn := ha.current_lt h hk hyl hys
  match hnext : s.nextSeen a.seen n with
  | none => exact absurd (nextSeen_none hnext k hkn y hk) hys
  | some (i, p) =>
      obtain ⟨hin, hp, hs, hlast⟩ := nextSeen_some hnext
      have hki : k ≤ i := by
        by_contra hlt
        exact hys (hlast k hkn (not_le.mp hlt) y hk)
      refine ⟨i, p, rfl, hin, hp, le_antisymm (h.level_le (List.mem_of_getElem? hp)) ?_, hs, hlast⟩
      exact hyl ▸ h.level_mono hk hp hki

/-- The literal `p` is given up, and what needs it needs only what it follows from. -/
theorem Collects.remove (h : s.Base W) (ha : s.Collects n a) {i : ℕ} (hp : s.trail[i]? = some p)
    (hl : s.level p.var = s.decisionLevel) (hs : a.seen p.var ≠ .undef)
    (hlast : ∀ k < n, i < k → ∀ x, s.trail[k]? = some x → a.seen x.var = .undef) :
    s.Collects i ⟨Function.update a.seen p.var .undef, a.pathC - 1, a.out⟩ ∧
      a.lits s ⊆ insert p
        ((⟨Function.update a.seen p.var .undef, a.pathC - 1, a.out⟩ : Analysis).lits s) := by
  have hpt := List.mem_of_getElem? hp
  have hout : ∀ q ∈ a.out, q.var ≠ p.var := by
    intro q hq e
    have := (ha.out q hq).2.2.1
    rw [e] at this
    omega
  refine ⟨⟨?_, ha.distinct, ?_, ?_⟩, ?_⟩
  · intro q hq
    obtain ⟨h₁, h₂, h₃, h₄⟩ := ha.out q hq
    exact ⟨h₁, h₂, h₃, (Function.update_of_ne (hout q hq) ..).trans h₄⟩
  · intro v hv
    have hvp : v ≠ p.var := by
      rintro rfl
      exact hv (Function.update_self ..)
    simp only [Function.update_of_ne hvp] at hv ⊢
    obtain ⟨hsrc, hor⟩ := ha.seen v hv
    refine ⟨hsrc, hor.imp_right ?_⟩
    rintro ⟨x, hx, rfl, hxl⟩
    obtain ⟨k, hk⟩ := trail_pos (List.mem_of_mem_take hx)
    refine ⟨x, (h.mem_take hk).mpr ?_, rfl, hxl⟩
    have hkn := (h.mem_take hk).mp hx
    have hki : k ≠ i := by
      rintro rfl
      exact hvp (congrArg Lit.var (Option.some.inj (hk.symm.trans hp)))
    by_contra hlt
    exact hv (hlast k hkn (by omega) x hk)
  · have hperm : (s.trail.filter fun x => decide (s.level x.var = s.decisionLevel ∧
        a.seen x.var ≠ .undef)).Perm (p :: s.trail.filter fun x => decide
          (s.level x.var = s.decisionLevel ∧
            Function.update a.seen p.var .undef x.var ≠ .undef)) := by
      refine filter_perm_cons h.trail_nodup hpt (by simp) fun y hy => ?_
      by_cases e : y.var = p.var
      · obtain rfl := h.eq_of_var hy hpt e
        simp [hl, hs]
      · have hyp : y ≠ p := fun hyp => e (congrArg Lit.var hyp)
        simp [Function.update_of_ne e, hyp]
    have := hperm.length_eq
    rw [← ha.count, List.length_cons] at this
    simp only [this, Nat.add_sub_cancel]
  · rintro x (hx | hx | ⟨hx, hxl, hxs⟩)
    · exact .inr (.inl hx)
    · exact .inr (.inr (.inl hx))
    · by_cases e : x.var = p.var
      · exact .inl (h.eq_of_var hx hpt e)
      · exact .inr (.inr (.inr ⟨hx, hxl, ne_of_eq_of_ne (Function.update_of_ne e ..) hxs⟩))

/-- A literal of the present level with another one before it has a reason. -/
theorem Base.exists_reason (h : s.Base W) (hd : s.Decided) (hdl : 0 < s.decisionLevel) {i : ℕ}
    (hp : s.trail[i]? = some p) (hl : s.level p.var = s.decisionLevel) (hk : s.trail[k]? = some q)
    (hq : s.level q.var = s.decisionLevel) (hki : k < i) :
    ∃ cr rest, s.reason p.var = some cr ∧ cr ∈ s.refs ∧ s.ca cr = p :: rest ∧
      ∀ x ∈ rest, -x ∈ s.trail.take i := by
  cases hr : s.reason p.var with
  | some cr =>
      obtain ⟨hmem, rest, hc, hrest⟩ := h.reason_eq i p cr hp hr (hl ▸ hdl)
      exact ⟨cr, rest, rfl, hmem, hc, hrest⟩
  | none =>
      -- the present level would start at `p`
      have hlim := hd i p hp (hl ▸ hdl) hr
      rw [h.level_eq k q hk] at hq
      have := List.countP_eq_length.mp hq i hlim
      simp only [decide_eq_true_eq] at this
      omega

/-- What the loop ends with: the implication point, and what is left of the conflict. -/
structure Resolved (s : Core) (p : Lit) (a : Analysis) : Prop where
  mem : p ∈ s.trail
  level_eq : s.level p.var = s.decisionLevel
  collects : ∃ n, s.Collects n a
  pathC_eq : a.pathC = 0
  conflict : Conflict s.db (insert p (a.lits s))

/-- **The loop of `analyze`.** -/
theorem resolve_spec (h : s.Base W) (hd : s.Decided) (hdl : 0 < s.decisionLevel) {fuel : ℕ}
    {lits : List Lit} (hfuel : n < fuel) (ha : s.Collects n a)
    (hlits : ∀ q ∈ lits, -q ∈ s.trail.take n)
    (hconfl : Conflict s.db (a.lits s ∪ {x | -x ∈ lits}))
    (hcur : 0 < (lits.foldl s.mark a).pathC) :
    ∃ p b, s.resolve fuel n lits a = some (p, b) ∧ s.Resolved p b := by
  -- each round goes at least one literal back on the trail
  induction fuel generalizing n lits a with
  | zero => omega
  | succ fuel ih =>
      obtain ⟨hb, hsub, hrest⟩ := ha.marks h hlits
      set b := lits.foldl s.mark a with hbdef
      have hconfl' : Conflict s.db (b.lits s) := by
        refine hconfl.mono (Set.union_subset hsub fun x hx => ?_)
        have := hrest (-x) hx
        rwa [neg_neg] at this
      obtain ⟨i, p, hnext, hin, hp, hl, hs, hlast⟩ := hb.nextSeen h hcur
      obtain ⟨hcol, hins⟩ := hb.remove h hp hl hs hlast
      have hmem := List.mem_of_getElem? hp
      rw [resolve]
      simp only [← hbdef, hnext]
      split_ifs with hz
      · exact ⟨p, _, rfl, hmem, hl, ⟨i, hcol⟩, hz, hconfl'.mono hins⟩
      · -- another literal of the level is ahead, so this one has a reason
        have hpos := Nat.pos_of_ne_zero hz
        obtain ⟨y, hy, hyl, hys⟩ := hcol.exists_current hpos
        obtain ⟨k, hk⟩ := trail_pos hy
        have hki := hcol.current_lt h hk hyl hys
        obtain ⟨cr, rest, hr, hcr, hc, htail⟩ := h.exists_reason hd hdl hp hl hk hyl hki
        simp only [hr, hc, List.tail_cons]
        refine ih (by omega) hcol htail (hconfl'.cut fun x hx => ?_) ?_
        · rcases hins hx with rfl | hx
          · refine .unit (mem_db.mpr ⟨cr, hcr, hc⟩) List.mem_cons_self fun q hq hne => ?_
            refine .base (.inr ?_)
            change - -q ∈ rest
            rw [neg_neg]
            exact (List.mem_cons.mp hq).resolve_left hne
          · exact .base (.inl hx)
        · exact hpos.trans_le (pathC_le_foldl rest ⟨_, _, _⟩)

/-! ### Redundant literals -/

section Redundant

variable {m m' : Marks} {v : ℕ} {x : Seen} {stack : List (ℕ × Lit)} {i fuel : ℕ} {b : Bool}

/-- `v` is in the conflict clause, or follows from what is. -/
def Marks.In (m : Marks) (v : ℕ) : Prop := m.seen v = .source ∨ m.seen v = .removable

/-- The literals of the reason of `v` before the `i`-th are of level 0 or in. -/
def Marks.ParentsIn (m : Marks) (s : Core) (v i : ℕ) : Prop :=
  ∀ j, 1 ≤ j → j < i → ∀ l, (s.reasonClause v)[j]? = some l → s.level l.var = 0 ∨ m.In l.var

/-- What has a value can be cleared, and what is removable follows from what is in. -/
structure Marks.Ok (m : Marks) (s : Core) : Prop where
  toclear : ∀ v, m.seen v ≠ .undef → ∃ q ∈ m.toclear, q.var = v
  removable : ∀ v, m.seen v = .removable →
    s.reason v ≠ none ∧ ∀ q ∈ (s.reasonClause v).tail, s.level q.var = 0 ∨ m.In q.var

/-- More is marked, but no source. -/
structure Marks.Grows (m m' : Marks) : Prop where
  source : ∀ v, m'.seen v = .source ↔ m.seen v = .source
  removable : ∀ v, m.seen v = .removable → m'.seen v = .removable

theorem Marks.Grows.refl (m : Marks) : m.Grows m := ⟨fun _ => .rfl, fun _ => id⟩

theorem Marks.Grows.trans {m'' : Marks} (h : m.Grows m') (h' : m'.Grows m'') : m.Grows m'' :=
  ⟨fun v => (h'.source v).trans (h.source v), fun v hv => h'.removable v (h.removable v hv)⟩

theorem Marks.Grows.mem (h : m.Grows m') (hv : m.In v) : m'.In v :=
  hv.imp (h.source v).mpr (h.removable v)

theorem Marks.Grows.parentsIn (h : m.Grows m') (hm : m.ParentsIn s v i) : m'.ParentsIn s v i :=
  fun j hj hji l hl => (hm j hj hji l hl).imp_right h.mem

theorem Marks.ParentsIn.succ {l : Lit} (h : m.ParentsIn s v i)
    (hl : (s.reasonClause v)[i]? = some l) (hin : s.level l.var = 0 ∨ m.In l.var) :
    m.ParentsIn s v (i + 1) := by
  intro j hj hji l' hl'
  rcases Nat.lt_succ_iff_lt_or_eq.mp hji with hlt | rfl
  · exact h j hj hlt l' hl'
  · obtain rfl := Option.some.inj (hl.symm.trans hl')
    exact hin

theorem Marks.ParentsIn.tail (h : m.ParentsIn s v i) (hi : (s.reasonClause v)[i]? = none) :
    ∀ q ∈ (s.reasonClause v).tail, s.level q.var = 0 ∨ m.In q.var := by
  intro q hq
  obtain ⟨j, hj⟩ := List.mem_iff_getElem?.mp hq
  rw [List.getElem?_tail] at hj
  have hlt := (List.getElem?_eq_some_iff.mp hj).1
  have hle := List.getElem?_eq_none_iff.mp hi
  exact h (j + 1) (by omega) (by omega) q hj

theorem Marks.seen_put (m : Marks) (x : Seen) (p : Lit) (v : ℕ) :
    (m.put x p).seen v = if v = p.var ∧ m.seen v = .undef then x else m.seen v := by
  unfold put
  by_cases e : v = p.var
  · subst e
    split_ifs <;> simp_all
  · split_ifs <;> simp_all

theorem Marks.grows_put (hx : x ≠ .source) (p : Lit) : m.Grows (m.put x p) where
  source v := by
    rw [seen_put]
    split_ifs with h
    · simp [h.2, hx]
    · exact .rfl
  removable v hv := by
    rw [seen_put, if_neg (by simp [hv])]
    exact hv

theorem Marks.toclear_put (h : ∀ v, m.seen v ≠ .undef → ∃ q ∈ m.toclear, q.var = v) (x : Seen)
    (p : Lit) : ∀ v, (m.put x p).seen v ≠ .undef → ∃ q ∈ (m.put x p).toclear, q.var = v := by
  intro v hv
  unfold put at hv ⊢
  split_ifs at hv ⊢ with hp
  · by_cases e : v = p.var
    · exact ⟨p, by simp, e.symm⟩
    · simp only [Function.update_of_ne e] at hv
      obtain ⟨q, hq, he⟩ := h v hv
      exact ⟨q, List.mem_append_left _ hq, he⟩
  · exact h v hv

/-- Marking a literal that cannot be removed. -/
theorem Marks.Ok.put_failed (h : m.Ok s) (p : Lit) : (m.put .failed p).Ok s where
  toclear := toclear_put h.toclear .failed p
  removable v hv := by
    rw [seen_put] at hv
    split_ifs at hv
    obtain ⟨hr, hq⟩ := h.removable v hv
    exact ⟨hr, fun q hq' => (hq q hq').imp_right (grows_put (by decide) p).mem⟩

theorem Marks.Ok.foldl_failed (h : m.Ok s) (ps : List Lit) :
    (ps.foldl (Marks.put · .failed) m).Ok s ∧ m.Grows (ps.foldl (Marks.put · .failed) m) := by
  induction ps generalizing m with
  | nil => exact ⟨h, .refl m⟩
  | cons p ps ih =>
      obtain ⟨hok, hg⟩ := ih (h.put_failed p)
      exact ⟨hok, (grows_put (by decide) p).trans hg⟩

/-- Marking a literal whose parents are in. -/
theorem Marks.Ok.put_removable (h : m.Ok s) (hr : s.reason p.var ≠ none)
    (hq : ∀ q ∈ (s.reasonClause p.var).tail, s.level q.var = 0 ∨ m.In q.var) :
    (m.put .removable p).Ok s where
  toclear := toclear_put h.toclear .removable p
  removable v hv := by
    have hg : m.Grows (m.put .removable p) := grows_put (by decide) p
    rw [seen_put] at hv
    split_ifs at hv with e
    · rw [e.1]
      exact ⟨hr, fun q hq' => (hq q hq').imp_right hg.mem⟩
    · obtain ⟨hr', hq'⟩ := h.removable v hv
      exact ⟨hr', fun q hq => (hq' q hq).imp_right hg.mem⟩

/-- The literal that is looked at: so far its parents are in. -/
structure Frame (s : Core) (m : Marks) (i : ℕ) (p : Lit) : Prop where
  pos : 1 ≤ i
  reason : s.reason p.var ≠ none
  parents : m.ParentsIn s p.var i
  seen : m.seen p.var ≠ .failed

/-- The literals on the stack: each waits for the literal above it. -/
def Frames (s : Core) (m : Marks) : Lit → List (ℕ × Lit) → Prop
  | _, [] => True
  | p, (j, q) :: stack =>
    (s.reasonClause q.var)[j]? = some p ∧ s.Frame m j q ∧ s.Frames m q stack

theorem Frame.put_removable (h : s.Frame m i p) (q : Lit) : s.Frame (m.put .removable q) i p where
  pos := h.pos
  reason := h.reason
  parents := (Marks.grows_put (by decide) q).parentsIn h.parents
  seen := by
    rw [Marks.seen_put]
    split_ifs
    · decide
    · exact h.seen

theorem Frames.put_removable (h : s.Frames m p stack) (q : Lit) :
    s.Frames (m.put .removable q) p stack := by
  induction stack generalizing p with
  | nil => trivial
  | cons f stack ih => exact ⟨h.1, h.2.1.put_removable q, ih h.2.2⟩

/-- The literal at the bottom of the stack. -/
def bottom : Lit → List (ℕ × Lit) → Lit
  | p, [] => p
  | _, (_, q) :: stack => bottom q stack

theorem Marks.In.put_removable (h : m.seen p.var ≠ .failed) : (m.put .removable p).In p.var := by
  rw [In, seen_put]
  cases hs : m.seen p.var <;> simp_all

/-- **What `litRedundant` leaves**: what it marks removable is implied, and so is the literal it
was asked for if it says so. -/
theorem litRedundantLoop_ok (hm : m.Ok s) (hp : s.Frame m i p) (hst : s.Frames m p stack)
    (h : s.litRedundantLoop fuel i p stack m = some (b, m')) :
    m'.Ok s ∧ m.Grows m' ∧ (b = true → ∀ q ∈ (s.reasonClause (bottom p stack).var).tail,
      s.level q.var = 0 ∨ m'.In q.var) := by
  induction fuel generalizing i p stack m with
  | zero => cases h
  | succ fuel ih =>
      rw [litRedundantLoop] at h
      cases hl : (s.reasonClause p.var)[i]? with
      | some l =>
          simp only [hl] at h
          split_ifs at h with hin hfail
          · -- the literal is in: the next one
            have hin' : s.level l.var = 0 ∨ m.In l.var := hin
            exact ih hm ⟨by omega, hp.reason, hp.parents.succ hl hin', hp.seen⟩ hst h
          · -- some local reason: all on the stack fail
            cases h
            obtain ⟨hok, hg⟩ := hm.foldl_failed ((((0, p) :: stack).reverse).map Prod.snd)
            exact ⟨hok, hg, fun e => by cases e⟩
          · -- go on with the literal itself
            simp only [not_or] at hin hfail
            have hfl : s.Frame m 1 l := ⟨le_rfl, hfail.1, fun j hj hj1 => by omega, hfail.2⟩
            have hstl : s.Frames m l ((i, p) :: stack) := ⟨hl, hp, hst⟩
            have hrest := ih hm hfl hstl h
            exact hrest
      | none =>
          -- all parents are in, so the literal is, too
          have htail := hp.parents.tail hl
          have hok := hm.put_removable hp.reason htail
          have hg : m.Grows (m.put .removable p) := Marks.grows_put (by decide) p
          cases stack with
          | nil =>
              simp only [hl] at h
              cases h
              exact ⟨hok, hg, fun _ q hq => (htail q hq).imp_right hg.mem⟩
          | cons f stack =>
              obtain ⟨j, q⟩ := f
              simp only [hl] at h
              obtain ⟨hj, hq, hst'⟩ := hst
              have hq' := hq.put_removable p
              have hin : (m.put .removable p).In p.var := Marks.In.put_removable hp.seen
              obtain ⟨h₁, h₂, h₃⟩ := ih hok ⟨by omega, hq'.reason,
                hq'.parents.succ hj (.inr hin), hq'.seen⟩ (hst'.put_removable p) h
              exact ⟨h₁, hg.trans h₂, h₃⟩

/-! The search ends: the potential is what may still be looked at. -/

/-- The place of a variable on the trail. -/
def pos (s : Core) (v : ℕ) : ℕ := (s.trail.map Lit.var).idxOf v

/-- Above level 0, and not a decision. -/
def Implied (s : Core) (v : ℕ) : Prop :=
  (∃ x ∈ s.trail, x.var = v) ∧ 0 < s.level v ∧ s.reason v ≠ none

theorem Base.pos_eq (h : s.Base W) (hp : s.trail[k]? = some p) : s.pos p.var = k := by
  obtain ⟨hk, rfl⟩ := List.getElem?_eq_some_iff.mp hp
  have hn : (s.trail.map Lit.var).Nodup := by
    rw [List.Nodup, List.pairwise_map]
    exact h.wf.distinct
  have := hn.idxOf_getElem k (by simpa using hk)
  rwa [List.getElem_map] at this

/-- The literals of a reason are false and stand before what they imply. -/
theorem Base.parent (h : s.Base W) (hv : s.Implied v) {l : Lit}
    (hl : l ∈ (s.reasonClause v).tail) : -l ∈ s.trail ∧ s.pos l.var < s.pos v := by
  obtain ⟨⟨x, hx, rfl⟩, hlev, hr⟩ := hv
  obtain ⟨k, hk⟩ := trail_pos hx
  obtain ⟨cr, hcr⟩ := Option.ne_none_iff_exists'.mp hr
  obtain ⟨-, rest, hc, hrest⟩ := h.reason_eq k x cr hk hcr hlev
  have hl' : l ∈ rest := by simpa [reasonClause, hcr, hc] using hl
  have hbefore := hrest l hl'
  obtain ⟨k', hk'⟩ := trail_pos (List.mem_of_mem_take hbefore)
  refine ⟨List.mem_of_getElem? hk', ?_⟩
  rw [← Lit.var_neg l, h.pos_eq hk', h.pos_eq hk]
  exact (h.mem_take hk').mp hbefore

/-- The literals not looked at so far, where the variables `vs` are on the stack. -/
def unvisited (s : Core) (m : Marks) (vs : List ℕ) : List Lit :=
  s.trail.filter fun x => m.seen x.var = .undef ∧ x.var ∉ vs

def stackVars (stack : List (ℕ × Lit)) : List ℕ := stack.map fun f => f.2.var

def potential (s : Core) (m : Marks) (i : ℕ) (p : Lit) (stack : List (ℕ × Lit)) : ℕ :=
  ((s.unvisited m (p.var :: stackVars stack)).map s.weight).sum +
    ((s.reasonClause p.var).length + 1 - i) +
    (stack.map fun f => (s.reasonClause f.2.var).length - f.1).sum

theorem sum_filter_le {α : Type*} (w : α → ℕ) (f : α → Bool) (l : List α) :
    ((l.filter f).map w).sum ≤ (l.map w).sum := by
  induction l with
  | nil => simp
  | cons a l ih =>
      cases hf : f a <;> simp [hf] <;> omega

/-- What is on the stack, with `p` on top. -/
structure Climbing (s : Core) (i : ℕ) (p : Lit) (stack : List (ℕ × Lit)) : Prop where
  index_le : i ≤ (s.reasonClause p.var).length
  implied : s.Implied p.var
  waiting : ∀ f ∈ stack, s.Implied f.2.var ∧ f.1 < (s.reasonClause f.2.var).length
  chain : (p.var :: stackVars stack).Pairwise fun v w => s.pos v < s.pos w

/-- A literal is pushed. -/
theorem potential_push (h : s.Base W) (hc : s.Climbing i p stack) {l : Lit}
    (hl : (s.reasonClause p.var)[i]? = some l) (hpos : 1 ≤ i) (hlev : s.level l.var ≠ 0)
    (hr : s.reason l.var ≠ none) (hs : m.seen l.var = .undef) :
    s.Climbing 1 l ((i, p) :: stack) ∧
      s.potential m 1 l ((i, p) :: stack) < s.potential m i p stack := by
  have htail : l ∈ (s.reasonClause p.var).tail := by
    refine List.mem_iff_getElem?.mpr ⟨i - 1, ?_⟩
    rwa [List.getElem?_tail, Nat.sub_add_cancel hpos]
  obtain ⟨hlt, hlpos⟩ := h.parent hc.implied htail
  have hi := (List.getElem?_eq_some_iff.mp hl).1
  have hbelow : ∀ v ∈ p.var :: stackVars stack, s.pos l.var < s.pos v := by
    intro v hv
    rcases List.mem_cons.mp hv with rfl | hv
    · exact hlpos
    · exact hlpos.trans ((List.pairwise_cons.mp hc.chain).1 v hv)
  have himp : s.Implied l.var := ⟨⟨-l, hlt, rfl⟩, Nat.pos_of_ne_zero hlev, hr⟩
  have hlen : 1 ≤ (s.reasonClause l.var).length := by
    obtain ⟨k, hk⟩ := trail_pos hlt
    obtain ⟨cr, hcr⟩ := Option.ne_none_iff_exists'.mp hr
    obtain ⟨-, rest, he, -⟩ := h.reason_eq k _ cr hk hcr (Nat.pos_of_ne_zero hlev)
    simp [reasonClause, hcr, he]
  refine ⟨⟨hlen, himp, ?_, List.pairwise_cons.mpr ⟨hbelow, hc.chain⟩⟩, ?_⟩
  · exact List.forall_mem_cons.mpr ⟨⟨hc.implied, hi⟩, hc.waiting⟩
  · -- the literal leaves those that are not looked at
    have hnot : l.var ∉ p.var :: stackVars stack := fun hm => (hbelow _ hm).false
    have hperm : (s.unvisited m (p.var :: stackVars stack)).Perm
        (-l :: s.unvisited m (l.var :: p.var :: stackVars stack)) := by
      refine filter_perm_cons h.trail_nodup hlt (by simp) fun y hy => ?_
      by_cases e : y.var = l.var
      · obtain rfl : y = -l := h.eq_of_var hy hlt e
        simpa [hs] using hnot
      · have hyl : y ≠ -l := fun hyl => e (by rw [hyl, Lit.var_neg])
        simp [e, hyl]
    have hsum := (hperm.map s.weight).sum_nat
    rw [List.map_cons, List.sum_cons] at hsum
    simp only [potential, stackVars, List.map_cons, List.sum_cons, weight, Lit.var_neg] at hsum ⊢
    omega

/-- A literal is done. -/
theorem potential_pop {j : ℕ} (hc : s.Climbing i p ((j, q) :: stack)) :
    s.Climbing (j + 1) q stack ∧
      s.potential (m.put .removable p) (j + 1) q stack <
        s.potential m i p ((j, q) :: stack) := by
  obtain ⟨himp, hj⟩ := hc.waiting (j, q) List.mem_cons_self
  refine ⟨⟨hj, himp, fun f hf => hc.waiting f (List.mem_cons_of_mem _ hf),
    (List.pairwise_cons.mp hc.chain).2⟩, ?_⟩
  have hsame : s.unvisited (m.put .removable p) (q.var :: stackVars stack) =
      s.unvisited m (p.var :: q.var :: stackVars stack) := by
    refine List.filter_congr fun y _ => ?_
    simp only [Marks.seen_put, List.mem_cons, not_or, decide_eq_decide]
    by_cases e : y.var = p.var
    · by_cases hs : m.seen p.var = .undef <;> simp [e, hs]
    · simp [e]
  have hi := hc.index_le
  have hj' : j < (s.reasonClause q.var).length := hj
  simp only [stackVars] at hsame
  simp only [potential, stackVars, hsame, List.map_cons, List.sum_cons]
  omega

/-- **The search of `litRedundant` ends.** -/
theorem litRedundantLoop_isSome (h : s.Base W) (hc : s.Climbing i p stack) (hp : s.Frame m i p)
    (hst : s.Frames m p stack) (hfuel : s.potential m i p stack ≤ fuel) :
    ∃ r, s.litRedundantLoop fuel i p stack m = some r := by
  induction fuel generalizing i p stack m with
  | zero =>
      have := hc.index_le
      simp only [potential] at hfuel
      omega
  | succ fuel ih =>
      rw [litRedundantLoop]
      cases hl : (s.reasonClause p.var)[i]? with
      | some l =>
          have hi := (List.getElem?_eq_some_iff.mp hl).1
          simp only
          split_ifs with hin hfail
          · refine ih ⟨hi, hc.implied, hc.waiting, hc.chain⟩
              ⟨by omega, hp.reason, hp.parents.succ hl hin, hp.seen⟩ hst ?_
            simp only [potential] at hfuel ⊢
            omega
          · exact ⟨_, rfl⟩
          · simp only [not_or] at hin hfail
            have hs : m.seen l.var = .undef := by
              cases hs : m.seen l.var <;> simp_all
            obtain ⟨hc', hlt⟩ := potential_push h hc hl hp.pos hin.1 hfail.1 hs
            have hfl : s.Frame m 1 l := ⟨le_rfl, hfail.1, fun j hj hj1 => by omega, hfail.2⟩
            exact ih hc' hfl ⟨hl, hp, hst⟩ (by omega)
      | none =>
          cases stack with
          | nil => exact ⟨_, rfl⟩
          | cons f stack =>
              obtain ⟨j, q⟩ := f
              obtain ⟨hc', hlt⟩ := potential_pop (m := m) hc
              obtain ⟨hj, hq, hst'⟩ := hst
              have hq' := hq.put_removable p
              have hin : (m.put .removable p).In p.var := Marks.In.put_removable hp.seen
              exact ih hc' ⟨by omega, hq'.reason, hq'.parents.succ hj (.inr hin), hq'.seen⟩
                (hst'.put_removable p) (by omega)

/-- **`litRedundant`** for a literal of the conflict clause. -/
theorem litRedundant_spec (h : s.Base W) (hm : m.Ok s) (hp : -p ∈ s.trail)
    (hl : 0 < s.level p.var) (hr : s.reason p.var ≠ none) (hs : m.seen p.var = .source) :
    ∃ b m', s.litRedundant p m = some (b, m') ∧ m'.Ok s ∧ m.Grows m' ∧
      (b = true → ∀ q ∈ (s.reasonClause p.var).tail, s.level q.var = 0 ∨ m'.In q.var) := by
  have hframe : s.Frame m 1 p := ⟨le_rfl, hr, fun j hj hj1 => by omega, by simp [hs]⟩
  have hlen : 1 ≤ (s.reasonClause p.var).length := by
    obtain ⟨k, hk⟩ := trail_pos hp
    obtain ⟨cr, hcr⟩ := Option.ne_none_iff_exists'.mp hr
    obtain ⟨-, rest, he, -⟩ := h.reason_eq k _ cr hk hcr hl
    simp [reasonClause, hcr, he]
  have hclimb : s.Climbing 1 p [] :=
    ⟨hlen, ⟨⟨-p, hp, rfl⟩, hl, hr⟩, by simp, List.pairwise_singleton _ _⟩
  have hfuel : s.potential m 1 p [] ≤ s.redundantFuel := by
    have hperm : (s.trail.filter fun y => decide (m.seen y.var = .undef ∧ y.var ∉ [p.var]) ||
        decide (y = -p)).Perm (-p :: s.unvisited m [p.var]) :=
      filter_perm_cons h.trail_nodup hp (by simp) fun y _ => by simp
    have hsum := (hperm.map s.weight).sum_nat
    have hle := sum_filter_le s.weight (fun y => decide (m.seen y.var = .undef ∧ y.var ∉ [p.var]) ||
        decide (y = -p)) s.trail
    rw [hsum, List.map_cons, List.sum_cons] at hle
    simp only [potential, redundantFuel, stackVars, List.map_nil, List.sum_nil]
    have hw : s.weight (-p) = (s.reasonClause p.var).length + 1 := rfl
    omega
  have hst : s.Frames m p [] := trivial
  obtain ⟨⟨b, m'⟩, hres⟩ := litRedundantLoop_isSome h hclimb hframe hst hfuel
  obtain ⟨hok, hg, hb⟩ := litRedundantLoop_ok hm hframe hst hres
  exact ⟨b, m', hres, hok, hg, hb⟩

end Redundant

/-! ### The simplified clause -/

section Minimize

variable {m m' : Marks} {out kept : List Lit}

/-- What is left of the clause when `kept` is kept of `out`: the others are implied. -/
structure Kept (s : Core) (out kept : List Lit) (m : Marks) : Prop where
  ok : m.Ok s
  sublist : kept.Sublist out
  dropped : ∀ q ∈ out, q ∉ kept → s.reason q.var ≠ none ∧
    ∀ l ∈ (s.reasonClause q.var).tail, s.level l.var = 0 ∨ m.In l.var

theorem minimizeDeep_spec (h : s.Base W) (hm : m.Ok s) (hout : ∀ q ∈ out, -q ∈ s.trail ∧
      0 < s.level q.var ∧ m.seen q.var = .source) :
    ∃ kept m', s.minimizeDeep out m = some (kept, m') ∧ m.Grows m' ∧ s.Kept out kept m' := by
  induction out generalizing m with
  | nil => exact ⟨[], m, rfl, .refl m, hm, .slnil, by simp⟩
  | cons q qs ih =>
      obtain ⟨⟨hq, hlev, hsrc⟩, hqs⟩ := List.forall_mem_cons.mp hout
      rw [minimizeDeep]
      split_ifs with hr
      · -- a decision is kept
        obtain ⟨kept, m', hk, hg, hkept⟩ := ih hm hqs
        refine ⟨q :: kept, m', by rw [hk]; rfl, hg, hkept.ok, hkept.sublist.cons_cons q, ?_⟩
        intro x hx hn
        simp only [List.mem_cons, not_or] at hn
        exact hkept.dropped x ((List.mem_cons.mp hx).resolve_left hn.1) hn.2
      · obtain ⟨b, m₁, hb, hok, hg, hred⟩ := litRedundant_spec h hm hq hlev hr hsrc
        obtain ⟨kept, m', hk, hg', hkept⟩ := ih hok fun x hx =>
          ⟨(hqs x hx).1, (hqs x hx).2.1, (hg.source _).mpr (hqs x hx).2.2⟩
        simp only [hb, hk]
        refine ⟨_, m', rfl, hg.trans hg', hkept.ok, ?_, ?_⟩
        · cases b with
          | true => exact hkept.sublist.cons q
          | false => exact hkept.sublist.cons_cons q
        · intro x hx hn
          rcases List.mem_cons.mp hx with rfl | hx
          · cases b with
            | true => exact ⟨hr, fun l hl => (hred rfl l hl).imp_right hg'.mem⟩
            | false => simp at hn
          · refine hkept.dropped x hx fun hk => hn ?_
            cases b with
            | true => exact hk
            | false => exact List.mem_cons_of_mem _ hk

theorem minimize_spec (h : s.Base W) (ccmin : ℕ) (hm : m.Ok s)
    (hout : ∀ q ∈ out, -q ∈ s.trail ∧ 0 < s.level q.var ∧ m.seen q.var = .source)
    (hsrc : ∀ v, m.seen v ≠ .undef → m.seen v = .source) :
    ∃ kept m', s.minimize ccmin out m = some (kept, m') ∧ m.Grows m' ∧ s.Kept out kept m' := by
  unfold minimize
  split_ifs with hdeep hbasic
  · exact minimizeDeep_spec h hm hout
  · refine ⟨_, m, rfl, .refl m, hm, List.filter_sublist, fun q hq hn => ?_⟩
    have hk : s.keepsBasic m.seen q = false := by
      simpa [List.mem_filter, hq] using hn
    unfold keepsBasic at hk
    split at hk
    · cases hk
    · rename_i cr hcr
      refine ⟨by simp [hcr], fun l hl => ?_⟩
      have hl' : l ∈ (s.ca cr).tail := by simpa [reasonClause, hcr] using hl
      have := List.any_eq_false.mp hk l hl'
      simp only [decide_eq_true_eq, not_and, not_lt, Nat.le_zero] at this
      by_cases hu : m.seen l.var = .undef
      · exact .inl (this hu)
      · exact .inr (.inl (hsrc _ hu))
  · exact ⟨out, m, rfl, .refl m, hm, .refl _, fun q hq hn => absurd hq hn⟩

/-- **The simplified clause** implies the clause. -/
theorem Kept.derives (h : s.Base W) (hk : s.Kept out kept m)
    (hin : ∀ v, m.seen v = .source → ∃ q ∈ out, q.var = v) (hfalse : ∀ q ∈ out, -q ∈ s.trail)
    (hsrc : ∀ q ∈ out, m.seen q.var = .source) :
    ∀ q ∈ out, Derives s.db ({x | x ∈ s.level0} ∪ {x | -x ∈ kept}) (-q) := by
  intro q hq
  refine h.covered (R := m.In) ?_ (-q) (hfalse q hq) (.inl (hsrc q hq))
  rintro x hx (hs | hr) -
  · obtain ⟨y, hy, hv⟩ := hin _ hs
    obtain rfl : -y = x := h.eq_of_var (hfalse y hy) hx hv
    by_cases hyk : y ∈ kept
    · exact .inl (by simpa using hyk)
    · exact .inr (hk.dropped y hy hyk)
  · exact .inr (hk.ok.removable _ hr)

end Minimize

/-! ### The backtrack level -/

theorem maxIndex_spec {ls : List Lit} (hls : ls ≠ []) :
    s.maxIndex ls < ls.length ∧
      ∀ i < ls.length, s.levelAt ls i ≤ s.levelAt ls (s.maxIndex ls) := by
  -- the index is that of a literal, and no level before `n` is higher
  suffices ∀ n ≤ ls.length, (List.range n).foldl
      (fun m i => if s.levelAt ls m < s.levelAt ls i then i else m) 0 < ls.length ∧
      ∀ i < n, s.levelAt ls i ≤ s.levelAt ls ((List.range n).foldl
        (fun m i => if s.levelAt ls m < s.levelAt ls i then i else m) 0) from
    this ls.length le_rfl
  intro n hn
  induction n with
  | zero => exact ⟨List.length_pos_of_ne_nil hls, fun i hi => absurd hi (Nat.not_lt_zero i)⟩
  | succ n ih =>
      obtain ⟨hlt, hmax⟩ := ih (by omega)
      rw [List.range_succ, List.foldl_append, List.foldl_cons, List.foldl_nil]
      split_ifs with hnew
      · refine ⟨by omega, fun i hi => ?_⟩
        rcases Nat.lt_succ_iff_lt_or_eq.mp hi with hi | rfl
        · exact (hmax i hi).trans hnew.le
        · exact le_rfl
      · refine ⟨hlt, fun i hi => ?_⟩
        rcases Nat.lt_succ_iff_lt_or_eq.mp hi with hi | rfl
        · exact hmax i hi
        · exact not_lt.mp hnew

theorem swapIn_perm (ls : List Lit) (i : ℕ) : (swapIn ls i).Perm ls := by
  unfold swapIn
  split
  · rename_i a b ha hb
    obtain ⟨h₀, rfl⟩ := List.getElem?_eq_some_iff.mp ha
    obtain ⟨hi, rfl⟩ := List.getElem?_eq_some_iff.mp hb
    exact List.set_set_perm h₀ hi
  · exact .refl _

theorem swapIn_zero {ls : List Lit} {i : ℕ} (hi : i < ls.length) : (swapIn ls i)[0]? = ls[i]? := by
  have h₀ : 0 < ls.length := by omega
  rw [swapIn, List.getElem?_eq_getElem h₀, List.getElem?_eq_getElem hi]
  rcases Nat.eq_zero_or_pos i with rfl | hpos
  · simp [h₀]
  · simp only
    rw [List.getElem?_set_ne (by omega), List.getElem?_set_self h₀]

/-- The literal of the highest level is in the first place now. -/
theorem level_le_swapIn (ls : List Lit) :
    ∀ q ∈ swapIn ls (s.maxIndex ls),
      s.level q.var ≤ s.levelAt (swapIn ls (s.maxIndex ls)) 0 := by
  intro q hq
  have hq' := (swapIn_perm ls _).subset hq
  obtain ⟨i, hi⟩ := List.mem_iff_getElem?.mp hq'
  obtain ⟨hlt, hmax⟩ := maxIndex_spec (s := s) (List.ne_nil_of_mem hq')
  have hle := hmax i (List.getElem?_eq_some_iff.mp hi).1
  simp only [levelAt, hi, Option.elim_some] at hle
  rw [levelAt, swapIn_zero hlt]
  exact hle

theorem levelAt_lt {ls : List Lit} {l i : ℕ} (hl : 0 < l) (h : ∀ q ∈ ls, s.level q.var < l) :
    s.levelAt ls i < l := by
  unfold levelAt
  cases hi : ls[i]? with
  | none => exact hl
  | some q => exact h q (List.mem_of_getElem? hi)

/-- What `analyze` returns: the asserting literal, false literals of lower levels with one of the
highest level first, and that level; and the clause follows by propagation. -/
structure Learnt (s : Core) (c : Clause) (bt : ℕ) : Prop where
  shape : ∃ p rest, c = -p :: rest ∧ p ∈ s.trail ∧ s.level p.var = s.decisionLevel ∧
    (∀ q ∈ rest, -q ∈ s.trail ∧ 0 < s.level q.var ∧ s.level q.var ≤ bt) ∧
    (rest = [] → bt = 0) ∧ ∀ q r, rest = q :: r → s.level q.var = bt
  lt : bt < s.decisionLevel
  distinct : c.Pairwise fun p q => p.var ≠ q.var
  implied : Conflict s.db ({x | x ∈ s.level0} ∪ {x | -x ∈ c})

/-- The clause is false on the trail, but not below the present level. -/
theorem Base.exists_current (h : s.Base W) (hdl : 0 < s.decisionLevel) (hcr : cr ∈ s.refs)
    (hfalse : ∀ q ∈ s.ca cr, -q ∈ s.trail) : ∃ q ∈ s.ca cr, s.level q.var = s.decisionLevel := by
  by_contra hnone
  simp only [not_exists, not_and] at hnone
  obtain ⟨lim, hlim⟩ : ∃ lim, s.trailLim[s.decisionLevel - 1]? = some lim :=
    ⟨_, List.getElem?_eq_getElem (by simp only [decisionLevel] at hdl ⊢; omega)⟩
  have hbelow : ∀ q ∈ s.ca cr, -q ∈ s.trail.take lim := by
    intro q hq
    obtain ⟨k, hk⟩ := trail_pos (hfalse q hq)
    refine (h.mem_take hk).mpr ((h.level_lt_iff hk hlim).mp ?_)
    have := h.level_le (hfalse q hq)
    have := hnone q hq
    simp only [Lit.var_neg] at *
    omega
  -- its watches would have been dealt with
  obtain ⟨a, b, rest, hc, -⟩ := h.exists_watches hcr
  obtain ⟨x, hx, hxt⟩ := h.upTo lim (List.mem_of_getElem? hlim) cr hcr a (by simp [hc])
    (hbelow a (by simp [hc]))
  exact h.consistent (List.mem_of_mem_take hxt) (hfalse x hx)

theorem foldl_clear (seen : ℕ → Seen) (ps : List Lit) (v : ℕ) :
    ps.foldl (fun f q => Function.update f q.var .undef) seen v =
      if ∃ q ∈ ps, q.var = v then .undef else seen v := by
  induction ps generalizing seen with
  | nil => simp
  | cons p ps ih =>
      rw [List.foldl_cons, ih]
      by_cases e : v = p.var
      · subst e
        simp
      · simp [Function.update_of_ne e, Ne.symm e]

/-- The conflicting clause is marked, and some literal of the present level with it. -/
theorem Base.pathC_pos (h : s.Base W) (hdl : 0 < s.decisionLevel) (hcr : cr ∈ s.refs)
    (hfalse : ∀ q ∈ s.ca cr, -q ∈ s.trail) (ha : s.Collects s.trail.length a) :
    0 < ((s.ca cr).foldl s.mark a).pathC := by
  obtain ⟨q, hq, hlev⟩ := h.exists_current hdl hcr hfalse
  obtain ⟨hb, -, hmem⟩ := ha.marks h fun q hq => by
    rw [List.take_length]
    exact hfalse q hq
  rw [hb.count]
  refine List.length_pos_of_mem (a := -q) (List.mem_filter.mpr ⟨hfalse q hq, ?_⟩)
  rcases hmem q hq with h0 | hout | ⟨-, -, hs⟩
  · have := (h.mem_level0.mp h0).2
    rw [Lit.var_neg] at this
    omega
  · have := (hb.out _ hout).2.2.1
    rw [neg_neg] at this
    omega
  · simpa [hlev] using hs

/-- What has been seen at the end is in the clause. -/
theorem Resolved.seen (h : s.Resolved p a) {v : ℕ} (hv : a.seen v ≠ .undef) :
    a.seen v = .source ∧ ∃ q ∈ a.out, q.var = v := by
  obtain ⟨n, hcol⟩ := h.collects
  obtain ⟨hs, hq | ⟨x, hx, rfl, hl⟩⟩ := hcol.seen v hv
  · exact ⟨hs, hq⟩
  · have hz := hcol.count.symm.trans h.pathC_eq
    rw [List.length_eq_zero_iff, List.filter_eq_nil_iff] at hz
    exact absurd (by simp [hl, hv]) (hz x (List.mem_of_mem_take hx))

/-- What is left of the conflict follows from the simplified clause. -/
theorem Resolved.implied (h : s.Base W) (hR : s.Resolved p a) {kept : List Lit} {m : Marks}
    (hk : s.Kept a.out kept m) (hm : ∀ v, m.seen v = .source ↔ a.seen v = .source) :
    Conflict s.db ({x | x ∈ s.level0} ∪ {x | -x ∈ -p :: kept}) := by
  obtain ⟨n, hcol⟩ := hR.collects
  have hder := hk.derives h (fun v hv => (hR.seen (by simp [(hm v).mp hv])).2)
    (fun q hq => (hcol.out q hq).1) (fun q hq => (hm _).mpr (hcol.out q hq).2.2.2)
  refine hR.conflict.cut ?_
  rintro x (rfl | hx | hx | ⟨hx, hl, hs⟩)
  · exact .base (.inr List.mem_cons_self)
  · exact .base (.inl hx)
  · have := hder (-x) hx
    rw [neg_neg] at this
    refine this.mono (Set.union_subset_union_right _ fun y hy => ?_)
    exact List.mem_cons_of_mem _ hy
  · -- no literal of the present level is left
    obtain ⟨q, hq, e⟩ := (hR.seen hs).2
    have := (hcol.out q hq).2.2.1
    rw [e] at this
    omega

/-- **Conflict analysis** ends with a clause, and with `seen` clear. -/
theorem analyze_spec (h : s.Base W) (hd : s.Decided) (hdl : 0 < s.decisionLevel) (ccmin : ℕ)
    (hcr : cr ∈ s.refs) (hfalse : ∀ q ∈ s.ca cr, -q ∈ s.trail) :
    ∃ c bt, s.analyze ccmin cr (fun _ => .undef) = some (c, bt, fun _ => .undef) ∧
      s.Learnt c bt := by
  have hinit : s.Collects s.trail.length ⟨fun _ => .undef, 0, []⟩ :=
    ⟨by simp, .nil, fun v hv => absurd rfl hv, by simp⟩
  have hconfl : Conflict s.db
      ((⟨fun _ => .undef, 0, []⟩ : Analysis).lits s ∪ {x | -x ∈ s.ca cr}) := by
    refine ⟨s.ca cr, mem_db.mpr ⟨cr, hcr, rfl⟩, fun q hq => .base (.inr ?_)⟩
    change - -q ∈ s.ca cr
    rwa [neg_neg]
  obtain ⟨p, a, hres, hR⟩ := resolve_spec h hd hdl (Nat.lt_succ_self _) hinit
    (fun q hq => by rw [List.take_length]; exact hfalse q hq) hconfl
    (h.pathC_pos hdl hcr hfalse hinit)
  obtain ⟨n, hcol⟩ := hR.collects
  have hsrc : ∀ v, a.seen v ≠ .undef → a.seen v = .source := fun v hv => (hR.seen hv).1
  have hok : (⟨a.seen, -p :: a.out⟩ : Marks).Ok s := by
    refine ⟨fun v hv => ?_, fun v hv => ?_⟩
    · obtain ⟨q, hq, e⟩ := (hR.seen hv).2
      exact ⟨q, List.mem_cons_of_mem _ hq, e⟩
    · have hv' : a.seen v = .removable := hv
      have := hsrc v (by simp [hv'])
      rw [hv'] at this
      cases this
  obtain ⟨kept, m, hmin, hg, hk⟩ := minimize_spec h ccmin hok
    (fun q hq => ⟨(hcol.out q hq).1, (hcol.out q hq).2.1, (hcol.out q hq).2.2.2⟩) hsrc
  set out' := swapIn kept (s.maxIndex kept) with hout'
  have hperm : out'.Perm kept := swapIn_perm ..
  have hmem : ∀ q ∈ out', q ∈ a.out := fun q hq => hk.sublist.subset (hperm.subset hq)
  have hlow : ∀ q ∈ out', s.level q.var < s.decisionLevel := fun q hq =>
    (hcol.out q (hmem q hq)).2.2.1
  refine ⟨-p :: out', s.levelAt out' 0, ?_, ⟨p, out', rfl, hR.mem, hR.level_eq, ?_, ?_, ?_⟩,
    levelAt_lt hdl hlow, ?_, ?_⟩
  · have hclear : m.toclear.foldl (fun f q => Function.update f q.var .undef) m.seen =
        fun _ => .undef := by
      funext v
      rw [foldl_clear]
      split_ifs with hv
      · rfl
      · by_contra hn
        exact hv (hk.ok.toclear v hn)
    simp only [analyze, hres, hmin, hclear, hout']
  · intro q hq
    obtain ⟨hqt, hpos, -⟩ := hcol.out q (hmem q hq)
    exact ⟨hqt, hpos, level_le_swapIn kept q hq⟩
  · intro e
    simp [e, levelAt]
  · intro q r e
    simp [e, levelAt]
  · refine List.pairwise_cons.mpr ⟨fun q hq e => ?_, ?_⟩
    · have := hlow q hq
      rw [← e, Lit.var_neg, hR.level_eq] at this
      exact this.false
    · exact (hperm.pairwise_iff fun h => h.symm).mpr (hcol.distinct.sublist hk.sublist)
  · refine (hR.implied h hk hg.source).mono (Set.union_subset_union_right _ fun x hx => ?_)
    exact (hperm.cons (-p)).mem_iff.mpr hx

/-! ### The final conflict -/

/-- The state of `analyzeFinal` when the trail from `n` on is done: `p` follows from the decisions
that have been found and the literals that are still marked. -/
structure Finds (s : Core) (p : Lit) (n : ℕ) (r : List Lit × (ℕ → Seen)) : Prop where
  mem : p ∈ r.1
  out : ∀ q ∈ r.1, q = p ∨ -q ∈ s.trail ∧ s.reason q.var = none ∧ 0 < s.level q.var
  seen : ∀ v, r.2 v ≠ .undef → v = p.var ∨ ∃ x ∈ s.trail.take n, x.var = v ∧ 0 < s.level v
  derives : Derives s.db ({x | x ∈ s.level0} ∪ {x | -x ∈ r.1} ∪
    {x | x ∈ s.trail.take n ∧ r.2 x.var ≠ .undef}) p

theorem mem_insertLit {out : List Lit} : q ∈ insertLit out p ↔ q ∈ out ∨ q = p := by
  unfold insertLit
  split_ifs with h
  · exact ⟨.inl, fun hq => hq.elim id fun e => e ▸ h⟩
  · simp

theorem foldl_source (seen : ℕ → Seen) (qs : List Lit) (v : ℕ) :
    qs.foldl (fun f q => if 0 < s.level q.var then Function.update f q.var .source else f) seen v =
      if ∃ q ∈ qs, q.var = v ∧ 0 < s.level v then .source else seen v := by
  induction qs generalizing seen with
  | nil => simp
  | cons q qs ih =>
      rw [List.foldl_cons, ih]
      by_cases e : q.var = v
      · subst e
        by_cases hl : 0 < s.level q.var <;> simp [hl]
      · by_cases hl : 0 < s.level q.var <;> simp [hl, e, Function.update_of_ne (Ne.symm e)]

/-- One literal of the trail is done. -/
theorem Finds.step (h : s.Base W) {r : List Lit × (ℕ → Seen)} {x : Lit}
    (hx : s.trail[n]? = some x) (hl : 0 < s.level x.var) (hr : s.Finds p (n + 1) r) :
    s.Finds p n (s.finalStep r x) := by
  have htake : s.trail.take (n + 1) = s.trail.take n ++ [x] := by
    rw [List.take_add_one, hx]
    rfl
  have hxt := List.mem_of_getElem? hx
  -- the other marked literals stand before `n`
  have hbefore : ∀ y ∈ s.trail.take (n + 1), y.var ≠ x.var → y ∈ s.trail.take n := by
    intro y hy hne
    rw [htake] at hy
    refine (List.mem_append.mp hy).resolve_right fun hy => hne ?_
    rw [List.mem_singleton.mp hy]
  unfold finalStep
  split_ifs with hs
  · cases hreason : s.reason x.var with
    | none =>
        -- a decision
        refine ⟨mem_insertLit.mpr (.inl hr.mem), ?_, ?_, hr.derives.mono ?_⟩
        · intro q hq
          rcases mem_insertLit.mp hq with hq | rfl
          · exact hr.out q hq
          · exact .inr ⟨by rwa [neg_neg], hreason, hl⟩
        · intro v hv
          by_cases e : v = x.var
          · exact absurd (e ▸ Function.update_self ..) hv
          · refine (hr.seen v ((Function.update_of_ne e ..).symm.trans_ne hv)).imp_right ?_
            rintro ⟨y, hy, rfl, hyl⟩
            exact ⟨y, hbefore y hy e, rfl, hyl⟩
        · rintro y ((hy | hy) | ⟨hy, hys⟩)
          · exact .inl (.inl hy)
          · exact .inl (.inr (mem_insertLit.mpr (.inl hy)))
          · by_cases e : y.var = x.var
            · obtain rfl := h.eq_of_var (List.mem_of_mem_take hy) hxt e
              exact .inl (.inr (mem_insertLit.mpr (.inr rfl)))
            · exact .inr ⟨hbefore y hy e, (Function.update_of_ne e ..).trans_ne hys⟩
    | some cr =>
        -- an implied literal: its reason is marked
        obtain ⟨hmem, rest, hc, hrest⟩ := h.reason_eq n x cr hx hreason hl
        have hne : ∀ q ∈ rest, q.var ≠ x.var := by
          intro q hq e
          have := (List.pairwise_cons.mp (hc ▸ (h.shape cr hmem).2)).1 q hq
          exact this e.symm
        simp only [hc, List.tail_cons]
        refine ⟨hr.mem, hr.out, ?_, hr.derives.cut ?_⟩
        · intro v hv
          by_cases e : v = x.var
          · exact absurd (e ▸ Function.update_self ..) hv
          · simp only [Function.update_of_ne e, foldl_source] at hv
            split_ifs at hv with hq
            · obtain ⟨q, hq, rfl, hlev⟩ := hq
              exact .inr ⟨-q, hrest q hq, rfl, hlev⟩
            · refine (hr.seen v hv).imp_right ?_
              rintro ⟨y, hy, rfl, hyl⟩
              exact ⟨y, hbefore y hy e, rfl, hyl⟩
        · rintro y ((hy | hy) | ⟨hy, hys⟩)
          · exact .base (.inl (.inl hy))
          · exact .base (.inl (.inr hy))
          · by_cases e : y.var = x.var
            · obtain rfl := h.eq_of_var (List.mem_of_mem_take hy) hxt e
              refine .unit (mem_db.mpr ⟨cr, hmem, hc⟩) List.mem_cons_self fun q hq hqy => .base ?_
              have hq := (List.mem_cons.mp hq).resolve_left hqy
              have hqt := hrest q hq
              by_cases hz : s.level q.var = 0
              · exact .inl (.inl (h.mem_level0.mpr ⟨List.mem_of_mem_take hqt, hz⟩))
              · refine .inr ⟨hqt, ?_⟩
                simp only [Lit.var_neg, Function.update_of_ne (hne q hq), foldl_source]
                rw [if_pos ⟨q, hq, rfl, Nat.pos_of_ne_zero hz⟩]
                decide
            · refine .base (.inr ⟨hbefore y hy e, ?_⟩)
              simp only [Function.update_of_ne e, foldl_source]
              split_ifs
              · decide
              · exact hys
  · refine ⟨hr.mem, hr.out, ?_, hr.derives.mono ?_⟩
    · intro v hv
      refine (hr.seen v hv).imp_right ?_
      rintro ⟨y, hy, rfl, hyl⟩
      exact ⟨y, hbefore y hy fun e => hs (e ▸ hv), rfl, hyl⟩
    · rintro y (hy | ⟨hy, hys⟩)
      · exact .inl hy
      · exact .inr ⟨hbefore y hy fun e => hs (e ▸ hys), hys⟩

/-- **The final conflict**: `p` follows from decisions, and `seen` is clear again. -/
theorem analyzeFinal_spec (h : s.Base W) (hp : p ∈ s.trail) :
    (s.analyzeFinal p fun _ => .undef).2 = (fun _ => .undef) ∧
    p ∈ (s.analyzeFinal p fun _ => .undef).1 ∧
    (∀ q ∈ (s.analyzeFinal p fun _ => .undef).1, q = p ∨
      -q ∈ s.trail ∧ s.reason q.var = none ∧ 0 < s.level q.var) ∧
    Derives s.db ({x | x ∈ s.level0} ∪ {x | -x ∈ (s.analyzeFinal p fun _ => .undef).1}) p := by
  unfold analyzeFinal
  split_ifs with hdl
  · refine ⟨rfl, List.mem_singleton_self p, by simp, .base (.inl (h.mem_level0.mpr ⟨hp, ?_⟩))⟩
    exact Nat.le_zero.mp (hdl ▸ h.level_le hp)
  · obtain ⟨lim, lims, hlims⟩ : ∃ lim lims, s.trailLim = lim :: lims :=
      List.exists_cons_of_ne_nil fun e => hdl (by rw [decisionLevel, e]; rfl)
    have hhead : s.trailLim.headD 0 = lim := by rw [hlims]; rfl
    have hlim : s.trailLim[0]? = some lim := by rw [hlims]; rfl
    have hle := h.lim_le lim (List.mem_of_getElem? hlim)
    -- back from the end of the trail
    have hloop : ∀ d ≤ s.trail.length - lim, s.Finds p (s.trail.length - d)
        ((s.trail.drop (s.trail.length - d)).reverse.foldl s.finalStep
          ([p], Function.update (fun _ => .undef) p.var .source)) := by
      intro d hd
      induction d with
      | zero =>
          simp only [Nat.sub_zero, List.drop_length, List.reverse_nil, List.foldl_nil]
          refine ⟨List.mem_singleton_self p, by simp, fun v hv => .inl ?_, .base (.inr ⟨?_, ?_⟩)⟩
          · by_contra e
            exact hv (Function.update_of_ne e _ fun _ => Seen.undef)
          · rwa [List.take_length]
          · simp
      | succ d ih =>
          have hlt : s.trail.length - (d + 1) < s.trail.length := by omega
          have hdrop := List.drop_eq_getElem_cons hlt
          rw [show s.trail.length - (d + 1) + 1 = s.trail.length - d by omega] at hdrop
          rw [hdrop, List.reverse_cons, List.foldl_append]
          have hget := List.getElem?_eq_getElem hlt
          refine Finds.step h hget ?_ ?_
          · by_contra hz
            have := (h.level_lt_iff hget hlim).mp (by omega)
            omega
          · rw [show s.trail.length - (d + 1) + 1 = s.trail.length - d by omega]
            exact ih (by omega)
    have hend := hloop (s.trail.length - lim) le_rfl
    rw [show s.trail.length - (s.trail.length - lim) = lim by omega] at hend
    rw [hhead]
    set r := (s.trail.drop lim).reverse.foldl s.finalStep
      ([p], Function.update (fun _ => .undef) p.var .source)
    -- nothing above level 0 is left
    have hseen : ∀ v, r.2 v ≠ .undef → v = p.var := by
      intro v hv
      refine (hend.seen v hv).resolve_right ?_
      rintro ⟨x, hx, rfl, hxl⟩
      obtain ⟨k, hk⟩ := trail_pos (List.mem_of_mem_take hx)
      have := (h.level_lt_iff hk hlim).mpr ((h.mem_take hk).mp hx)
      omega
    refine ⟨?_, hend.mem, hend.out, hend.derives.mono ?_⟩
    · funext v
      change Function.update r.2 p.var .undef v = .undef
      by_cases e : v = p.var
      · exact e ▸ Function.update_self ..
      · rw [Function.update_of_ne e]
        by_contra hv
        exact e (hseen v hv)
    · rintro x (hx | ⟨hx, hxs⟩)
      · exact hx
      · obtain ⟨k, hk⟩ := trail_pos (List.mem_of_mem_take hx)
        refine .inl (h.mem_level0.mpr ⟨List.mem_of_getElem? hk, ?_⟩)
        exact Nat.le_zero.mp ((h.level_lt_iff hk hlim).mpr ((h.mem_take hk).mp hx))

end Core

end Parsat.Minisat
