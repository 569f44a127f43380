import Parsat.Minisat.Trail

/-!
# Minisat — propagation by watched literals

`Solver::propagate()`.  For each literal `p` of the queue the loop goes through the clauses that
watch `~p`: it leaves a clause with a true literal alone, gives the clause another watch if some
literal is not false, and otherwise enqueues the one literal that is left, or stops at a conflict.

* `visitOne_cases`: what one clause can come to.
* `Extends`: what propagation may do to a state at all; by `Extends.upTo` it leaves no false watch
  behind on the levels below.
* `visit_spec`, `propagate_spec`: the loops keep the invariant.
* `propagate_refines`: propagation by watched literals is unit propagation.
-/

namespace Parsat.Minisat

open UnitProp

namespace Core

/-- What becomes of a watcher: it stays, or its clause is watched by another literal now, or the
clause is false. -/
inductive Visited where
  | keep (w : Watcher) (s : Core)
  | move (s : Core)
  | conflict (w : Watcher) (s : Core)

/-- Make sure the false literal is `c[1]`. -/
def orient (falseLit : Lit) : Clause → Clause
  | a :: b :: c => if a = falseLit then b :: a :: c else a :: b :: c
  | c => c

/-- Look for a new watch in `c[2..]`; `falseLit` takes its place. -/
def newWatch (s : Core) (falseLit : Lit) : List Lit → Option (Lit × List Lit)
  | [] => none
  | q :: rest =>
    if s.value q ≠ .false then some (q, falseLit :: rest)
    else (s.newWatch falseLit rest).map fun r => (r.1, q :: r.2)

def setClause (s : Core) (cr : ℕ) (c : Clause) : Core :=
  { s with ca := Function.update s.ca cr c }

/-- The body of the inner loop, for a watcher of the literal `p`. -/
def visitOne (p : Lit) (w : Watcher) (s : Core) : Visited :=
  -- try to avoid inspecting the clause
  if s.value w.blocker = .true then .keep w s
  else
    let t := s.setClause w.cref (orient (-p) (s.ca w.cref))
    match t.ca w.cref with
    | first :: falseLit :: rest =>
      let w' : Watcher := ⟨w.cref, first⟩
      if first ≠ w.blocker ∧ t.value first = .true then .keep w' t
      else match t.newWatch falseLit rest with
        | some (q, rest') => .move ((t.setClause w.cref (first :: q :: rest')).pushWatch (-q) w')
        | none =>
          if t.value first = .false then .conflict w' { t with qhead := t.trail.length }
          else .keep w' (t.uncheckedEnqueue first (some w.cref))
    | _ => .keep w s

/-- What the inner loop returns: the clause that is false, if any, the watchers that stay, and the
state. -/
structure Visit where
  confl : Option ℕ
  kept : List Watcher
  state : Core

/-- The inner loop.  After a conflict the remaining watchers are copied. -/
def visit (p : Lit) : List Watcher → Core → Visit
  | [], s => ⟨none, [], s⟩
  | w :: ws, s =>
    match visitOne p w s with
    | .keep w' t =>
      let r := visit p ws t
      { r with kept := w' :: r.kept }
    | .move t => visit p ws t
    | .conflict w' t => ⟨some w.cref, w' :: ws, t⟩

/-- The outer loop, at most `n` times. -/
def propagateLoop : ℕ → Core → Option ℕ × Core
  | 0, s => (none, s)
  | n + 1, s =>
    match s.trail[s.qhead]? with
    | none => (none, s)
    | some p =>
      let t := { s with qhead := s.qhead + 1 }.lookup p
      let r := visit p (t.watches p) t
      let u := { r.state with watches := Function.update r.state.watches p r.kept }
      match r.confl with
      -- the queue is empty now
      | some cr => (some cr, u)
      | none => propagateLoop n u

/-- `propagate()`: the conflicting clause, if any, and the state.  A literal that is enqueued occurs
in some clause, so the loop has ended after as many rounds. -/
def propagate (s : Core) : Option ℕ × Core :=
  propagateLoop (s.trail.length - s.qhead + s.db.flatten.length) s

/-! ### What one clause can come to -/

variable {s t u : Core} {W : Lit → List Watcher} {p q : Lit} {w : Watcher} {cr : ℕ}

@[simp] theorem setClause_ca_self (s : Core) (cr : ℕ) (c : Clause) :
    (s.setClause cr c).ca cr = c := Function.update_self ..

@[simp] theorem value_setClause (s : Core) (cr : ℕ) (c : Clause) (p : Lit) :
    (s.setClause cr c).value p = s.value p := rfl

theorem orient_eq {c : Clause} (h : q ∈ c.take 2) (hlen : 2 ≤ c.length) :
    ∃ a rest, orient q c = a :: q :: rest ∧ (a :: q :: rest).Perm c ∧
      (c = a :: q :: rest ∨ c = q :: a :: rest) := by
  match c, hlen with
  | a :: b :: rest, _ =>
      by_cases e : a = q
      · subst e
        exact ⟨b, rest, by simp [orient], .swap .., .inr rfl⟩
      · obtain rfl : q = b := by simpa [Ne.symm e] using h
        exact ⟨a, rest, by simp [orient, e], .refl _, .inl rfl⟩

theorem newWatch_none {rest : List Lit} (h : s.newWatch p rest = none) :
    ∀ q ∈ rest, s.value q = .false := by
  induction rest with
  | nil => simp
  | cons a rest ih =>
      rw [newWatch] at h
      split_ifs at h with ha
      exact List.forall_mem_cons.mpr ⟨not_not.mp ha, ih (Option.map_eq_none_iff.mp h)⟩

theorem newWatch_some {rest rest' : List Lit} (h : s.newWatch p rest = some (q, rest')) :
    s.value q ≠ .false ∧ (q :: rest').Perm (p :: rest) := by
  induction rest generalizing rest' with
  | nil => cases h
  | cons a rest ih =>
      rw [newWatch] at h
      split_ifs at h with ha
      · cases h
        exact ⟨ha, .swap ..⟩
      · obtain ⟨⟨b, r⟩, hr, he⟩ := Option.map_eq_some_iff.mp h
        cases he
        obtain ⟨hval, hperm⟩ := ih hr
        exact ⟨hval, (List.Perm.swap ..).trans ((hperm.cons a).trans (.swap ..))⟩

/-- What `visitOne` can come to: the blocker is true, or the clause is `first`, the false literal
and `rest`, and then `first` is true, or there is a new watch, or all of `rest` is false. -/
inductive Visiting (p : Lit) (w : Watcher) (s : Core) : Visited → Prop
  | blocked : s.value w.blocker = .true → Visiting p w s (.keep w s)
  | satisfied {first : Lit} {rest : List Lit} :
      orient (-p) (s.ca w.cref) = first :: -p :: rest → s.value first = .true →
      Visiting p w s (.keep ⟨w.cref, first⟩ (s.setClause w.cref (first :: -p :: rest)))
  | moved {first q : Lit} {rest rest' : List Lit} :
      orient (-p) (s.ca w.cref) = first :: -p :: rest → s.value first ≠ .true →
      s.value q ≠ .false → (q :: rest').Perm (-p :: rest) →
      Visiting p w s (.move (((s.setClause w.cref (first :: -p :: rest)).setClause w.cref
        (first :: q :: rest')).pushWatch (-q) ⟨w.cref, first⟩))
  | unit {first : Lit} {rest : List Lit} :
      orient (-p) (s.ca w.cref) = first :: -p :: rest → s.value first = .undef →
      (∀ q ∈ rest, s.value q = .false) →
      Visiting p w s (.keep ⟨w.cref, first⟩
        ((s.setClause w.cref (first :: -p :: rest)).uncheckedEnqueue first (some w.cref)))
  | conflict {first : Lit} {rest : List Lit} :
      orient (-p) (s.ca w.cref) = first :: -p :: rest → s.value first = .false →
      (∀ q ∈ rest, s.value q = .false) →
      Visiting p w s (.conflict ⟨w.cref, first⟩
        { s.setClause w.cref (first :: -p :: rest) with qhead := s.trail.length })

theorem visitOne_cases (hp : -p ∈ (s.ca w.cref).take 2) (hlen : 2 ≤ (s.ca w.cref).length) :
    Visiting p w s (visitOne p w s) := by
  obtain ⟨first, rest, hc, -⟩ := orient_eq hp hlen
  unfold visitOne
  by_cases hblock : s.value w.blocker = .true
  · rw [if_pos hblock]
    exact .blocked hblock
  · simp only [if_neg hblock, hc, setClause_ca_self, value_setClause]
    by_cases hfirst : s.value first = .true
    · rw [if_pos ⟨by rintro rfl; exact hblock hfirst, hfirst⟩]
      exact .satisfied hc hfirst
    · rw [if_neg fun h => hfirst h.2]
      split
      · rename_i q rest' hnew
        obtain ⟨hval, hperm⟩ := newWatch_some hnew
        exact .moved hc hfirst hval hperm
      · rename_i hnew
        have hrest := newWatch_none hnew
        split_ifs with hfalse
        · exact .conflict hc hfalse hrest
        · refine .unit hc ?_ hrest
          cases hv : s.value first with
          | true => exact absurd hv hfirst
          | false => exact absurd hv hfalse
          | undef => rfl

/-! ### The watches of one clause change -/

section Watches

variable {W' : Lit → List Watcher} {w' : Watcher} {pre ws : List Watcher} {c rest rest' : Clause}
  {first f : Lit}

theorem ca_setClause (s : Core) (cr x : ℕ) (c : Clause) :
    (s.setClause cr c).ca x = if x = cr then c else s.ca x := Function.update_apply ..

/-- The watcher of a clause gets another blocker. -/
theorem Watching.reblock (h : s.Watching W) (hW : W p = pre ++ w :: ws) (hw : w'.cref = w.cref)
    (hb : w'.blocker ∈ s.ca w.cref) : s.Watching (Function.update W p (pre ++ w' :: ws)) := by
  have hsame : ∀ q, (Function.update W p (pre ++ w' :: ws) q).map Watcher.cref =
      (W q).map Watcher.cref := by
    intro q
    by_cases e : q = p
    · subst e
      simp [hW, hw]
    · rw [Function.update_of_ne e]
  have hmem : ∀ q, ∀ x ∈ Function.update W p (pre ++ w' :: ws) q,
      x ∈ W q ∨ x = w' ∧ q = p := by
    intro q x hx
    by_cases e : q = p
    · subst e
      rw [Function.update_self] at hx
      rw [hW]
      simp only [List.mem_append, List.mem_cons] at hx ⊢
      tauto
    · rw [Function.update_of_ne e] at hx
      exact .inl hx
  -- everything but the blocker is about the references in the lists
  have hcref : ∀ q, ∀ x ∈ Function.update W p (pre ++ w' :: ws) q, ∃ y ∈ W q, y.cref = x.cref := by
    intro q x hx
    have := List.mem_map_of_mem (f := Watcher.cref) hx
    rw [hsame] at this
    exact List.mem_map.mp this
  refine ⟨h.refs_nodup, h.refs_lt, h.refs_live, h.shape, ?_, ?_, ?_, ?_, ?_, ?_⟩
  · intro cr hcr q hq
    obtain ⟨x, hx, rfl⟩ := h.cover cr hcr q hq
    have := List.mem_map_of_mem (f := Watcher.cref) hx
    rw [← hsame] at this
    exact List.mem_map.mp this
  · intro q x hx hcr
    obtain ⟨y, hy, he⟩ := hcref q x hx
    rw [← he] at hcr ⊢
    exact h.watch q y hy hcr
  · intro q x hx hcr
    rcases hmem q x hx with hx | ⟨rfl, rfl⟩
    · exact h.blocker q x hx hcr
    · exact .inl (hw ▸ hb)
  · intro q x hx
    obtain ⟨y, hy, he⟩ := hcref q x hx
    exact he ▸ h.live q y hy
  · intro q x hx
    obtain ⟨y, hy, he⟩ := hcref q x hx
    exact he ▸ h.lt q y hy
  · intro q
    rw [hsame]
    exact h.nodup q

/-- The literals of a clause change places, but not its watches. -/
theorem Watching.setClause (h : s.Watching W) (hperm : c.Perm (s.ca cr))
    (htake : (c.take 2).Perm ((s.ca cr).take 2)) : (s.setClause cr c).Watching W := by
  have hp : ∀ x, ((s.setClause cr c).ca x).Perm (s.ca x) := by
    intro x
    rw [ca_setClause]
    split_ifs with e
    · exact e ▸ hperm
    · exact .refl _
  have ht : ∀ x, (((s.setClause cr c).ca x).take 2).Perm ((s.ca x).take 2) := by
    intro x
    rw [ca_setClause]
    split_ifs with e
    · exact e ▸ htake
    · exact .refl _
  refine ⟨h.refs_nodup, h.refs_lt, h.refs_live, ?_, ?_, ?_, ?_, h.live, h.lt, h.nodup⟩
  · intro x hx
    rw [(hp x).length_eq, (hp x).pairwise_iff fun h => h.symm]
    exact h.shape x hx
  · exact fun x hx q hq => h.cover x hx q ((ht x).mem_iff.mp hq)
  · exact fun q x hx hcr => (ht _).mem_iff.mpr (h.watch q x hx hcr)
  · exact fun q x hx hcr => (h.blocker q x hx hcr).imp_left (hp _).mem_iff.mpr

/-- The watch `f` of a clause gives way to the literal `q`. -/
theorem Watching.move (h : s.Watching W) (pre ws : List Watcher) (hcr : cr ∈ s.refs)
    (hc : s.ca cr = first :: f :: rest)
    (hperm : (q :: rest').Perm (f :: rest)) (hqf : q ≠ f) (hWf : W (-f) = pre ++ w :: ws)
    (hw : w.cref = cr) (hf : W' (-f) = pre ++ ws) (hq : W' (-q) = W (-q) ++ [⟨cr, first⟩])
    (hother : ∀ p, p ≠ -f → p ≠ -q → W' p = W p) :
    (s.setClause cr (first :: q :: rest')).Watching W' := by
  have hvars := (h.shape cr hcr).2
  rw [hc] at hvars
  have hfirst := (List.pairwise_cons.mp hvars).1
  have hqfirst : q ≠ first := by
    rintro rfl
    exact hfirst q (hperm.mem_iff.mp List.mem_cons_self) rfl
  have hneg : -q ≠ -f := fun e => hqf (neg_inj.mp e)
  -- no other watcher of `f` has the clause, and none of `q` has it
  have hnodup : ∀ x ∈ pre ++ ws, x.cref ≠ cr := by
    have := h.nodup (-f)
    rw [hWf, List.map_append, List.map_cons, List.nodup_middle] at this
    intro x hx e
    rw [← List.map_append] at this
    exact (List.nodup_cons.mp this).1 (List.mem_map.mpr ⟨x, hx, e.trans hw.symm⟩)
  have hnew : ∀ x ∈ W (-q), x.cref ≠ cr := by
    rintro x hx rfl
    have := h.watch _ x hx hcr
    rw [neg_neg, hc] at this
    simp [hqf, hqfirst] at this
  have hmem : ∀ p, ∀ x ∈ W' p, x ∈ W p ∧ (p = -f ∨ p = -q → x.cref ≠ cr) ∨
      p = -q ∧ x = ⟨cr, first⟩ := by
    intro p x hx
    by_cases e : p = -f
    · subst e
      rw [hf] at hx
      refine .inl ⟨?_, fun _ => hnodup x hx⟩
      rw [hWf]
      simp only [List.mem_append, List.mem_cons] at hx ⊢
      tauto
    · by_cases e' : p = -q
      · subst e'
        rw [hq] at hx
        rcases List.mem_append.mp hx with hx | hx
        · exact .inl ⟨hx, fun _ => hnew x hx⟩
        · exact .inr ⟨rfl, List.mem_singleton.mp hx⟩
      · rw [hother p e e'] at hx
        exact .inl ⟨hx, fun h => (h.elim e e').elim⟩
  have hmem' : ∀ p, ∀ x ∈ W p, x.cref ≠ cr ∨ p ≠ -f → x ∈ W' p := by
    intro p x hx hor
    by_cases e : p = -f
    · subst e
      rw [hWf] at hx
      rw [hf]
      have hne : x ≠ w := fun e => (hor.resolve_right (by simp)) (e ▸ hw)
      simpa [hne] using hx
    · by_cases e' : p = -q
      · subst e'
        rw [hq]
        exact List.mem_append_left _ hx
      · rwa [hother p e e']
  have hp : ∀ x, ((s.setClause cr (first :: q :: rest')).ca x).Perm (s.ca x) := by
    intro x
    rw [ca_setClause]
    split_ifs with e
    · rw [e, hc]
      exact hperm.cons first
    · exact .refl _
  refine ⟨h.refs_nodup, h.refs_lt, h.refs_live, ?_, ?_, ?_, ?_, ?_, ?_, ?_⟩
  · intro x hx
    rw [(hp x).length_eq, (hp x).pairwise_iff fun h => h.symm]
    exact h.shape x hx
  · intro x hx q' hq'
    rw [ca_setClause] at hq'
    split_ifs at hq' with e
    · subst e
      rcases (by simpa using hq' : q' = first ∨ q' = q) with rfl | rfl
      · obtain ⟨y, hy, he⟩ := h.cover x hx q' (by simp [hc])
        refine ⟨y, hmem' _ y hy (.inr fun e => ?_), he⟩
        exact hfirst f List.mem_cons_self (congrArg Lit.var (neg_inj.mp e))
      · exact ⟨⟨x, first⟩, by simp [hq], rfl⟩
    · obtain ⟨y, hy, rfl⟩ := h.cover x hx q' hq'
      exact ⟨y, hmem' _ y hy (.inl e), rfl⟩
  · intro p x hx hxr
    rw [ca_setClause]
    rcases hmem p x hx with ⟨hx, hne⟩ | ⟨rfl, rfl⟩
    · have hold := h.watch p x hx hxr
      split_ifs with e
      · rw [e, hc] at hold
        rcases (by simpa using hold : -p = first ∨ -p = f) with hp | hp
        · simp [hp]
        · exact absurd e (hne (.inl (by rw [← hp, neg_neg])))
      · exact hold
    · simp
  · intro p x hx hxr
    rcases hmem p x hx with ⟨hx, -⟩ | ⟨rfl, rfl⟩
    · exact (h.blocker p x hx hxr).imp_left (hp _).mem_iff.mpr
    · exact .inl (by simp)
  · intro p x hx
    rcases hmem p x hx with ⟨hx, -⟩ | ⟨rfl, rfl⟩
    · exact h.live p x hx
    · exact .inl hcr
  · intro p x hx
    rcases hmem p x hx with ⟨hx, -⟩ | ⟨rfl, rfl⟩
    · exact h.lt p x hx
    · exact h.refs_lt cr hcr
  · intro p
    by_cases e : p = -f
    · subst e
      have := h.nodup (-f)
      rw [hWf] at this
      rw [hf]
      exact this.sublist (((List.sublist_cons_self w ws).append_left pre).map _)
    · by_cases e' : p = -q
      · subst e'
        rw [hq, List.map_append, List.nodup_append]
        refine ⟨h.nodup _, List.nodup_singleton _, ?_⟩
        rintro a ha b hb rfl
        obtain ⟨x, hx, rfl⟩ := List.mem_map.mp ha
        exact hnew x hx (by simpa using hb)
      · rw [hother p e e']
        exact h.nodup p

end Watches

/-! ### What propagation may do -/

/-- The part of a state that propagation leaves as it is. -/
def frame (s : Core) : Core :=
  { s with
    ca := empty.ca, watches := empty.watches, dirty := empty.dirty, assigns := empty.assigns
    vardata := empty.vardata, trail := [], qhead := 0 }

theorem derives_of_mem (h : p ∈ s.trail) : Derives s.db s.abs.trailSet p := .base h

/-- What propagation may do to the state `s`: it reorders clauses, never watches a literal that is
false in `s` and has not been watched, and enqueues what follows, with a reason. -/
structure Extends (s t : Core) : Prop where
  frame_eq : t.frame = s.frame
  perm : ∀ cr, (t.ca cr).Perm (s.ca cr)
  watch : ∀ cr, ∀ q ∈ (t.ca cr).take 2, q ∈ (s.ca cr).take 2 ∨ -q ∉ s.trail
  trail_eq : ∃ ext, t.trail = s.trail ++ ext
  old : ∀ q ∈ s.trail, t.vardata q.var = s.vardata q.var
  new : ∀ q ∈ t.trail, q ∉ s.trail → t.reason q.var ≠ none
  derived : ∀ q ∈ t.trail, Derives s.db s.abs.trailSet q
  pending_le : t.trail.length + (pending t.db t.trail).length ≤
    s.trail.length + (pending s.db s.trail).length

namespace Extends

theorem refl (s : Core) : s.Extends s where
  frame_eq := rfl
  perm _ := .refl _
  watch _ _ := .inl
  trail_eq := ⟨[], by simp⟩
  old _ _ := rfl
  new _ hq hn := absurd hq hn
  derived _ := derives_of_mem
  pending_le := le_rfl

theorem refs_eq (h : s.Extends t) : t.refs = s.refs :=
  (congrArg refs h.frame_eq : t.frame.refs = s.frame.refs)

theorem trailLim_eq (h : s.Extends t) : t.trailLim = s.trailLim :=
  (congrArg trailLim h.frame_eq : t.frame.trailLim = s.frame.trailLim)

theorem sameClauses (h : s.Extends t) : SameClauses s.db t.db := by
  rw [db, db, h.refs_eq, SameClauses, List.forall₂_map_left_iff, List.forall₂_map_right_iff]
  exact List.forall₂_same.mpr fun cr _ => (h.perm cr).symm

theorem trail_subset (h : s.Extends t) : s.trail ⊆ t.trail := by
  obtain ⟨ext, he⟩ := h.trail_eq
  exact he ▸ List.subset_append_left s.trail ext

theorem trans (h : s.Extends t) (h' : t.Extends u) : s.Extends u where
  frame_eq := h'.frame_eq.trans h.frame_eq
  perm cr := (h'.perm cr).trans (h.perm cr)
  watch cr q hq := by
    rcases h'.watch cr q hq with hq | hq
    · exact h.watch cr q hq
    · exact .inr fun hs => hq (h.trail_subset hs)
  trail_eq := by
    obtain ⟨ext, he⟩ := h.trail_eq
    obtain ⟨ext', he'⟩ := h'.trail_eq
    exact ⟨ext ++ ext', by rw [he', he, List.append_assoc]⟩
  old q hq := (h'.old q (h.trail_subset hq)).trans (h.old q hq)
  new q hq hn := by
    by_cases ht : q ∈ t.trail
    · rw [reason, h'.old q ht]
      exact h.new q ht hn
    · exact h'.new q hq ht
  derived q hq := ((h'.derived q hq).congr h.sameClauses.symm).cut h.derived
  pending_le := h'.pending_le.trans h.pending_le

/-- No false watch is left behind on the levels below. -/
theorem upTo {n : ℕ} (h : s.Extends t) (hn : n ≤ s.trail.length) (hs : s.UpTo n) : t.UpTo n := by
  obtain ⟨ext, he⟩ := h.trail_eq
  have htake : t.trail.take n = s.trail.take n := by rw [he, List.take_append_of_le_length hn]
  intro cr hcr q hq hf
  rw [h.refs_eq] at hcr
  rw [htake] at hf ⊢
  have hq' := (h.watch cr q hq).resolve_right fun hn => hn (List.mem_of_mem_take hf)
  obtain ⟨b, hb, hbt⟩ := hs cr hcr q hq' hf
  exact ⟨b, (h.perm cr).mem_iff.mpr hb, hbt⟩

/-- Only the literals of one clause change places. -/
theorem setClause {c : Clause} (hperm : c.Perm (s.ca cr))
    (hwatch : ∀ q ∈ c.take 2, q ∈ (s.ca cr).take 2 ∨ -q ∉ s.trail) :
    s.Extends (s.setClause cr c) := by
  have hp : ∀ x, ((s.setClause cr c).ca x).Perm (s.ca x) := by
    intro x
    rw [ca_setClause]
    split_ifs with e
    · exact e ▸ hperm
    · exact .refl _
  refine ⟨rfl, hp, ?_, ⟨[], by simp [Core.setClause]⟩, fun _ _ => rfl,
    fun _ hq hn => absurd hq hn, fun _ => derives_of_mem (s := s), ?_⟩
  · intro x q hq
    rw [ca_setClause] at hq
    split_ifs at hq with e
    · exact e ▸ hwatch q hq
    · exact .inl hq
  · have hsame : SameClauses (s.setClause cr c).db s.db := by
      rw [db, db, SameClauses, List.forall₂_map_left_iff, List.forall₂_map_right_iff]
      exact List.forall₂_same.mpr fun cr _ => hp cr
    exact Nat.add_le_add_left (hsame.length_pending _).le _

/-- Only the watches, or the queue. -/
theorem of_eq (hframe : t.frame = s.frame) (hca : t.ca = s.ca) (htrail : t.trail = s.trail)
    (hvardata : t.vardata = s.vardata) : s.Extends t := by
  have hrefs : t.refs = s.refs := (congrArg refs hframe : t.frame.refs = s.frame.refs)
  have hdb : t.db = s.db := by rw [db, db, hca, hrefs]
  refine ⟨hframe, fun _ => hca ▸ .refl _, fun _ _ hq => .inl (hca ▸ hq), ⟨[], by simp [htrail]⟩,
    fun _ _ => hvardata ▸ rfl, fun _ hq hn => absurd (htrail ▸ hq) hn,
    fun _ hq => derives_of_mem (htrail ▸ hq), ?_⟩
  rw [hdb, htrail]

/-- A literal that follows is enqueued. -/
theorem enqueue (hp : Derives s.db s.abs.trailSet p) (hn : ∀ q ∈ s.trail, q.var ≠ p.var)
    (hmem : p ∈ s.db.flatten) (cr : ℕ) : s.Extends (s.uncheckedEnqueue p (some cr)) := by
  refine ⟨rfl, fun _ => .refl _, fun _ _ => .inl, ⟨[p], rfl⟩,
    fun q hq => Function.update_of_ne (hn q hq) .., ?_, ?_, ?_⟩
  · intro q hq hqs
    obtain rfl := List.mem_singleton.mp ((List.mem_append.mp hq).resolve_left hqs)
    simp [reason, uncheckedEnqueue]
  · intro q hq
    rcases List.mem_append.mp hq with hq | hq
    · exact derives_of_mem hq
    · exact List.mem_singleton.mp hq ▸ hp
  · have := pending_append_lt hmem fun hp => hn p hp rfl
    have hlen : (s.trail ++ [p]).length = s.trail.length + 1 := by simp
    change (s.trail ++ [p]).length + (pending s.db (s.trail ++ [p])).length ≤ _
    omega

end Extends

/-! ### The invariant under each change -/

/-- The literals of one clause change places.  The clause may be the reason of a literal only if
nothing changes. -/
theorem Base.setClause {W' : Lit → List Watcher} {c : Clause} (h : s.Base W)
    (hW : (s.setClause cr c).Watching W') (hperm : c.Perm (s.ca cr))
    (hwatch : ∀ q ∈ c.take 2, q ∈ (s.ca cr).take 2 ∨ -q ∉ s.trail)
    (hhead : ∀ x rest, s.ca cr = x :: rest → x ∈ s.trail → c = s.ca cr) :
    (s.setClause cr c).Base W' where
  toWatching := hW
  wf := h.wf.of_trail rfl rfl
  lim_sorted := h.lim_sorted
  lim_le := h.lim_le
  upTo n hn := (Extends.setClause hperm hwatch).upTo (h.lim_le n hn) (h.upTo n hn)
  level_eq := h.level_eq
  reason_eq k p x hk hr hl := by
    obtain ⟨hx, rest, hc, hrest⟩ := h.reason_eq k p x hk hr hl
    refine ⟨hx, rest, ?_, hrest⟩
    rw [ca_setClause]
    split_ifs with e
    · subst e
      rw [hhead p rest hc (List.mem_of_getElem? hk), hc]
    · exact hc

theorem Base.pushWatch (h : s.Base W) (p : Lit) (w : Watcher) : (s.pushWatch p w).Base W :=
  { h with wf := h.wf.of_trail rfl rfl }

theorem Base.refs_lookup (h : s.Base s.watches) (p : Lit) :
    ∀ w ∈ (s.lookup p).watches p, w.cref ∈ s.refs := by
  intro w hw
  rw [lookup] at hw
  split_ifs at hw with hd
  · simp only [Function.update_self, List.mem_filter, Bool.not_eq_eq_eq_not, Bool.not_true] at hw
    refine (h.live p w hw.1).resolve_right fun hr => ?_
    simp [hw.2] at hr
  · exact (h.live p w hw).resolve_right fun hr => hd hr.2

/-- Only removed clauses are dropped from a list. -/
theorem Base.lookup (h : s.Base s.watches) (p : Lit) :
    (s.lookup p).Base (s.lookup p).watches := by
  rw [Core.lookup]
  split_ifs with hd
  · set W' := Function.update s.watches p ((s.watches p).filter fun w => !s.removed w.cref)
    have hself : W' p = (s.watches p).filter fun w => !s.removed w.cref := Function.update_self ..
    have hother : ∀ q, q ≠ p → W' q = s.watches q := fun q e => Function.update_of_ne e ..
    have hsub : ∀ q, (W' q).Sublist (s.watches q) := by
      intro q
      by_cases e : q = p
      · rw [e, hself]
        exact List.filter_sublist
      · rw [hother q e]
    refine
      { h with
        cover := ?_
        watch := fun q w hw => h.watch q w ((hsub q).subset hw)
        blocker := fun q w hw => h.blocker q w ((hsub q).subset hw)
        live := ?_
        lt := fun q w hw => h.lt q w ((hsub q).subset hw)
        nodup := fun q => (h.nodup q).sublist ((hsub q).map _)
        wf := h.wf.of_trail rfl rfl }
    · intro cr hcr q hq
      obtain ⟨w, hw, rfl⟩ := h.cover cr hcr q hq
      refine ⟨w, ?_, rfl⟩
      change w ∈ W' (-q)
      by_cases e : -q = p
      · rw [e] at hw ⊢
        rw [hself, List.mem_filter]
        exact ⟨hw, by simpa using h.refs_live _ hcr⟩
      · rwa [hother _ e]
    · intro q w hw
      by_cases e : q = p
      · subst e
        exact .inl (h.refs_lookup q w (by simpa [Core.lookup, hd, W'] using hw))
      · exact (h.live q w ((hsub q).subset hw)).imp_right fun hr =>
          ⟨hr.1, (Function.update_of_ne e ..).trans hr.2⟩
  · exact h

/-! ### The inner loop -/

section Visit

variable {pre ws : List Watcher} {first : Lit} {rest : List Lit}

/-- What holds after one clause: the lists are those before and behind the watcher with what it has
become, and a clause that stays has a true literal. -/
def Visited.Keeps (p : Lit) (w : Watcher) (pre ws : List Watcher) (s : Core) : Visited → Prop
  | .keep w' t => s.Extends t ∧ t.Base (Function.update t.watches p (pre ++ w' :: ws)) ∧
      t.qhead = s.qhead ∧ w'.cref = w.cref ∧ ∃ b ∈ t.ca w.cref, b ∈ t.trail
  | .move t => s.Extends t ∧ t.Base (Function.update t.watches p (pre ++ ws)) ∧ t.qhead = s.qhead
  | .conflict w' t => s.Extends t ∧ t.Base (Function.update t.watches p (pre ++ w' :: ws)) ∧
      t.qhead = t.trail.length ∧ ∀ q ∈ t.ca w.cref, -q ∈ t.trail

/-- Putting the false literal in the second place. -/
theorem Base.orient (h : s.Base (Function.update s.watches p (pre ++ w :: ws))) (hp : p ∈ s.trail)
    (hcr : w.cref ∈ s.refs) (hc : orient (-p) (s.ca w.cref) = first :: -p :: rest) :
    s.Extends (s.setClause w.cref (first :: -p :: rest)) ∧
      (s.setClause w.cref (first :: -p :: rest)).Base
        (Function.update s.watches p (pre ++ w :: ws)) := by
  have hwatch : -p ∈ (s.ca w.cref).take 2 := h.watch p w (by simp) hcr
  obtain ⟨a, r, hc', hperm, hor⟩ := orient_eq hwatch (h.shape _ hcr).1
  obtain ⟨rfl, rfl⟩ : first = a ∧ rest = r := by
    rw [hc] at hc'
    simpa using hc'
  have htake : ((first :: -p :: rest).take 2).Perm ((s.ca w.cref).take 2) := by
    rcases hor with e | e
    · rw [e]
    · rw [e]
      exact .swap ..
  have hnew : ∀ q ∈ (first :: -p :: rest).take 2, q ∈ (s.ca w.cref).take 2 ∨ -q ∉ s.trail :=
    fun q hq => .inl (htake.mem_iff.mp hq)
  refine ⟨Extends.setClause hperm hnew,
    h.setClause (h.toWatching.setClause hperm htake) hperm hnew ?_⟩
  -- the clause changes only if it starts with the false literal
  intro x r hx hxt
  rcases hor with e | e
  · exact e.symm
  · obtain rfl : -p = x := by
      rw [e] at hx
      exact (List.cons.inj hx).1
    exact absurd hxt (h.consistent hp)

theorem Base.reblock {w' : Watcher} (h : s.Base (Function.update W p (pre ++ w :: ws)))
    (hw : w'.cref = w.cref) (hb : w'.blocker ∈ s.ca w.cref) :
    s.Base (Function.update W p (pre ++ w' :: ws)) := by
  have := h.toWatching.reblock (Function.update_self ..) hw hb
  rw [Function.update_idem] at this
  exact { h with toWatching := this }

/-- **One clause.** -/
theorem Base.visitOne (h : s.Base (Function.update s.watches p (pre ++ w :: ws)))
    (hp : p ∈ s.trail) (hcr : w.cref ∈ s.refs) :
    (visitOne p w s).Keeps p w pre ws s := by
  have hwatch : -p ∈ (s.ca w.cref).take 2 := h.watch p w (by simp) hcr
  have hcases := visitOne_cases (s := s) hwatch (h.shape _ hcr).1
  generalize Core.visitOne p w s = r at hcases ⊢
  cases hcases with
  | blocked hv =>
      -- the blocker is true, hence still in the clause
      have ht := h.value_iff.mp hv
      have hb : w.blocker ∈ s.ca w.cref :=
        (h.blocker p w (by simp) hcr).resolve_right fun hn => h.consistent ht (level0_subset hn)
      exact ⟨.refl s, h, rfl, rfl, w.blocker, hb, ht⟩
  | satisfied hc hv =>
      obtain ⟨hext, hbase⟩ := h.orient hp hcr hc
      exact ⟨hext, hbase.reblock rfl (by simp), rfl, rfl, _, by simp, h.value_iff.mp hv⟩
  | @moved first q rest rest' hc hv hq hperm =>
      obtain ⟨hext, hbase⟩ := h.orient hp hcr hc
      set t := s.setClause w.cref (first :: -p :: rest) with ht
      have hca : t.ca w.cref = first :: -p :: rest := setClause_ca_self ..
      have hqt : -q ∉ t.trail := mt h.value_false.mpr hq
      have hqp : q ≠ -p := by
        rintro rfl
        exact hqt ((neg_neg p).symm ▸ hp)
      have hpq : -q ≠ p := fun e => hqp (by rw [← e, neg_neg])
      have hperm' : (first :: q :: rest').Perm (t.ca w.cref) := hca ▸ hperm.cons first
      have hnew : ∀ x ∈ (first :: q :: rest').take 2, x ∈ (t.ca w.cref).take 2 ∨ -x ∉ t.trail := by
        intro x hx
        rcases (by simpa using hx : x = first ∨ x = q) with rfl | rfl
        · exact .inl (by simp [hca])
        · exact .inr hqt
      set t' := t.setClause w.cref (first :: q :: rest') with ht'
      have hmove : t'.Watching
          (Function.update (t'.pushWatch (-q) ⟨w.cref, first⟩).watches p (pre ++ ws)) := by
        refine hbase.toWatching.move (w := w) pre ws hcr hca hperm hqp ?_ rfl ?_ ?_ ?_
        · rw [neg_neg, Function.update_self]
        · rw [neg_neg, Function.update_self]
        · rw [Function.update_of_ne hpq, Function.update_of_ne hpq]
          exact Function.update_self ..
        · intro r hr hr'
          rw [neg_neg] at hr
          rw [Function.update_of_ne hr, Function.update_of_ne hr]
          exact Function.update_of_ne hr' ..
      refine ⟨hext.trans ((Extends.setClause hperm' hnew).trans (.of_eq rfl rfl rfl rfl)),
        (hbase.setClause hmove hperm' hnew ?_).pushWatch .., rfl⟩
      -- the first literal is not true, so the clause is no reason
      intro x r hx hxt
      obtain rfl : first = x := by
        rw [hca] at hx
        exact (List.cons.inj hx).1
      exact absurd (h.value_iff.mpr hxt) hv
  | @unit first rest hc hv hfalse =>
      obtain ⟨hext, hbase⟩ := h.orient hp hcr hc
      set t := s.setClause w.cref (first :: -p :: rest) with ht
      have hca : t.ca w.cref = first :: -p :: rest := setClause_ca_self ..
      have hrest : ∀ q ∈ -p :: rest, -q ∈ t.trail := by
        intro q hq
        rcases List.mem_cons.mp hq with rfl | hq
        · exact (neg_neg p).symm ▸ hp
        · exact h.value_false.mp (hfalse q hq)
      have hmem : t.ca w.cref ∈ t.db := mem_db.mpr ⟨w.cref, hcr, rfl⟩
      have hder : Derives t.db t.abs.trailSet first := by
        refine .unit hmem (by simp [hca]) fun q hq hne => derives_of_mem (hrest q ?_)
        rw [hca] at hq
        exact (List.mem_cons.mp hq).resolve_left hne
      have hflat : first ∈ t.db.flatten := List.mem_flatten.mpr ⟨_, hmem, by simp [hca]⟩
      have hblock : t.Base (Function.update s.watches p (pre ++ ⟨w.cref, first⟩ :: ws)) :=
        hbase.reblock rfl (by simp [hca])
      refine ⟨hext.trans (.enqueue hder (hbase.var_ne_of_undef hv) hflat _),
        hblock.uncheckedEnqueue hv ?_, rfl, rfl, first, ?_, ?_⟩
      · rintro cr ⟨⟩
        exact ⟨hcr, _, hca, hrest⟩
      · change first ∈ t.ca w.cref
        simp [hca]
      · exact List.mem_append_right _ (List.mem_singleton_self first)
  | @conflict first rest hc hv hfalse =>
      obtain ⟨hext, hbase⟩ := h.orient hp hcr hc
      have hblock : (s.setClause w.cref (first :: -p :: rest)).Base
          (Function.update s.watches p (pre ++ ⟨w.cref, first⟩ :: ws)) :=
        hbase.reblock rfl (by simp)
      refine ⟨hext.trans (.of_eq rfl rfl rfl rfl), hblock.setQhead _, rfl, ?_⟩
      intro q hq
      simp only [setClause_ca_self, List.mem_cons] at hq
      rcases hq with rfl | rfl | hq
      · exact h.value_false.mp hv
      · exact (neg_neg p).symm ▸ hp
      · exact h.value_false.mp (hfalse q hq)

/-- **The inner loop.** -/
theorem Base.visit (h : s.Base (Function.update s.watches p (pre ++ ws))) (hp : p ∈ s.trail)
    (hws : ∀ w ∈ ws, w.cref ∈ s.refs) :
    s.Extends (visit p ws s).state ∧
    (visit p ws s).state.Base
      (Function.update (visit p ws s).state.watches p (pre ++ (visit p ws s).kept)) ∧
    ((visit p ws s).confl = none → (visit p ws s).state.qhead = s.qhead ∧
      ∀ w ∈ (visit p ws s).kept,
        ∃ b ∈ (visit p ws s).state.ca w.cref, b ∈ (visit p ws s).state.trail) ∧
    ∀ cr, (visit p ws s).confl = some cr → cr ∈ s.refs ∧
      (visit p ws s).state.qhead = (visit p ws s).state.trail.length ∧
      ∀ q ∈ (visit p ws s).state.ca cr, -q ∈ (visit p ws s).state.trail := by
  induction ws generalizing s pre with
  | nil => exact ⟨.refl s, h, fun _ => ⟨rfl, by simp [Core.visit]⟩, fun _ e => by cases e⟩
  | cons w ws ih =>
      have hcr := hws w List.mem_cons_self
      have hstep := h.visitOne hp hcr
      rw [Core.visit]
      match hv : Core.visitOne p w s with
      | .keep w' t =>
          rw [hv] at hstep
          obtain ⟨hext, hbase, hq, hw', b, hb, hbt⟩ := hstep
          rw [List.append_cons] at hbase
          obtain ⟨hext', hbase', hnone, hsome⟩ := ih hbase (hext.trail_subset hp)
            fun w hw => hext.refs_eq ▸ hws w (List.mem_cons_of_mem _ hw)
          refine ⟨hext.trans hext', by rwa [← List.append_cons] at hbase', fun hc => ?_, ?_⟩
          · obtain ⟨hq', hkept⟩ := hnone hc
            refine ⟨hq'.trans hq, List.forall_mem_cons.mpr ⟨⟨b, ?_, hext'.trail_subset hbt⟩, hkept⟩⟩
            rw [hw']
            exact (hext'.perm _).mem_iff.mpr hb
          · exact hext.refs_eq ▸ hsome
      | .move t =>
          rw [hv] at hstep
          obtain ⟨hext, hbase, hq⟩ := hstep
          obtain ⟨hext', hbase', hnone, hsome⟩ := ih hbase (hext.trail_subset hp)
            fun w hw => hext.refs_eq ▸ hws w (List.mem_cons_of_mem _ hw)
          exact ⟨hext.trans hext', hbase', fun hc => ⟨(hnone hc).1.trans hq, (hnone hc).2⟩,
            hext.refs_eq ▸ hsome⟩
      | .conflict w' t =>
          rw [hv] at hstep
          obtain ⟨hext, hbase, hq, hfalse⟩ := hstep
          refine ⟨hext, hbase, fun e => by simp at e, ?_⟩
          intro cr e
          cases e
          exact ⟨hcr, hq, hfalse⟩

end Visit

/-! ### The outer loop -/

/-- One round: `p` is propagated. -/
def propagateOne (s : Core) (p : Lit) : Option ℕ × Core :=
  let t := { s with qhead := s.qhead + 1 }.lookup p
  let r := visit p (t.watches p) t
  (r.confl, { r.state with watches := Function.update r.state.watches p r.kept })

theorem propagateLoop_succ (n : ℕ) (s : Core) :
    propagateLoop (n + 1) s = match s.trail[s.qhead]? with
      | none => (none, s)
      | some p => match s.propagateOne p with
        | (some cr, u) => (some cr, u)
        | (none, u) => propagateLoop n u := by
  rw [propagateLoop]
  cases s.trail[s.qhead]? with
  | none => rfl
  | some p =>
      simp only [propagateOne]
      cases (visit p (({ s with qhead := s.qhead + 1 }.lookup p).watches p)
        ({ s with qhead := s.qhead + 1 }.lookup p)).confl <;> rfl

theorem frame_lookup (s : Core) (p : Lit) :
    (s.lookup p).frame = s.frame ∧ (s.lookup p).ca = s.ca ∧ (s.lookup p).trail = s.trail ∧
      (s.lookup p).vardata = s.vardata ∧ (s.lookup p).qhead = s.qhead := by
  rw [lookup]
  split_ifs <;> exact ⟨rfl, rfl, rfl, rfl, rfl⟩

/-- A clause whose false watches among the propagated literals are made up for by a true literal. -/
def Done (s : Core) (cr : ℕ) : Prop :=
  ∀ q ∈ (s.ca cr).take 2, -q ∈ s.trail.take s.qhead → ∃ b ∈ s.ca cr, b ∈ s.trail

/-- What `propagate()` makes of a state. -/
structure Propagation (s : Core) (r : Option ℕ × Core) : Prop where
  ext : s.Extends r.2
  base : r.2.Base r.2.watches
  qhead_eq : r.2.qhead = r.2.trail.length
  done : r.1 = none → ∀ cr ∈ s.refs, s.Done cr → r.2.Done cr
  conflict : ∀ cr, r.1 = some cr → cr ∈ r.2.refs ∧ ∀ q ∈ r.2.ca cr, -q ∈ r.2.trail

theorem Propagation.of_extends {r : Option ℕ × Core} (hext : s.Extends t)
    (hdone : ∀ cr ∈ s.refs, s.Done cr → t.Done cr) (h : t.Propagation r) : s.Propagation r :=
  ⟨hext.trans h.ext, h.base, h.qhead_eq,
    fun e cr hcr hd => h.done e cr (hext.refs_eq ▸ hcr) (hdone cr hcr hd), h.conflict⟩

/-- **One round** propagates `p`, or ends in a conflict. -/
theorem Base.propagateOne (h : s.Base s.watches) (hp : s.trail[s.qhead]? = some p) :
    s.Extends (s.propagateOne p).2 ∧
    ((s.propagateOne p).1 = none →
      (s.propagateOne p).2.Base (s.propagateOne p).2.watches ∧
      (s.propagateOne p).2.qhead = s.qhead + 1 ∧
      ∀ cr ∈ s.refs, s.Done cr → (s.propagateOne p).2.Done cr) ∧
    ∀ cr, (s.propagateOne p).1 = some cr → s.Propagation (s.propagateOne p) := by
  have hpt : p ∈ s.trail := List.mem_of_getElem? hp
  set t := { s with qhead := s.qhead + 1 }.lookup p with ht
  obtain ⟨hframe, hca, htrail, hvardata, hqhead⟩ :=
    frame_lookup { s with qhead := s.qhead + 1 } p
  have hst : s.Extends t := .of_eq hframe hca htrail hvardata
  have hs : Base s.watches { s with qhead := s.qhead + 1 } := h.setQhead _
  have hbase : t.Base (Function.update t.watches p ([] ++ t.watches p)) := by
    rw [List.nil_append, Function.update_eq_self]
    exact Base.lookup hs p
  have hrefs : ∀ w ∈ t.watches p, w.cref ∈ t.refs := by
    rw [hst.refs_eq]
    exact Base.refs_lookup hs p
  obtain ⟨hext, hbase', hnone, hsome⟩ := hbase.visit (htrail ▸ hpt) hrefs
  set r := Core.visit p (t.watches p) t with hr
  set u : Core := { r.state with watches := Function.update r.state.watches p r.kept } with hu
  have hone : s.propagateOne p = (r.confl, u) := rfl
  have hub : u.Base u.watches := { hbase' with wf := hbase'.wf.of_trail rfl rfl }
  have hsu : s.Extends u := hst.trans (hext.trans (.of_eq rfl rfl rfl rfl))
  rw [hone]
  refine ⟨hsu, fun hc => ?_, fun cr hc => ?_⟩
  · obtain ⟨hq, hkept⟩ := hnone hc
    have hq' : u.qhead = s.qhead + 1 := hq.trans hqhead
    obtain ⟨ext, he⟩ := hsu.trail_eq
    have hlt : s.qhead < s.trail.length := (List.getElem?_eq_some_iff.mp hp).1
    refine ⟨hub, hq', fun cr hcr hd q hqc hf => ?_⟩
    rw [hq', he, List.take_append_of_le_length hlt, List.take_add_one, hp] at hf
    rcases List.mem_append.mp hf with hf | hf
    · -- the literal had been propagated before
      have hold := (hsu.watch cr q hqc).resolve_right fun hn => hn (List.mem_of_mem_take hf)
      obtain ⟨b, hb, hbt⟩ := hd q hold hf
      exact ⟨b, (hsu.perm cr).mem_iff.mpr hb, hsu.trail_subset hbt⟩
    · obtain rfl : -q = p := by simpa using hf
      obtain ⟨w, hw, rfl⟩ := hub.cover cr (hsu.refs_eq.symm ▸ hcr) q hqc
      exact hkept w (by simpa [hu] using hw)
  · obtain ⟨hcr, hq, hfalse⟩ := hsome cr hc
    refine ⟨hsu, hub, hq, fun e => ?_, fun cr' e => ?_⟩
    · rw [hc] at e
      cases e
    · rw [hc] at e
      cases e
      exact ⟨hext.refs_eq ▸ hcr, hfalse⟩

theorem Base.propagateLoop {n : ℕ} (h : s.Base s.watches) (hq : s.qhead ≤ s.trail.length)
    (hn : s.trail.length - s.qhead + (pending s.db s.trail).length ≤ n) :
    s.Propagation (propagateLoop n s) := by
  -- a round makes the queue shorter by one literal, and each literal it enqueues was pending
  induction n generalizing s with
  | zero =>
      exact ⟨.refl s, h, by simp only [Core.propagateLoop]; omega, fun _ _ _ hd => hd,
        fun _ e => by cases e⟩
  | succ n ih =>
      rw [propagateLoop_succ]
      cases hp : s.trail[s.qhead]? with
      | none =>
          have := List.getElem?_eq_none_iff.mp hp
          exact ⟨.refl s, h, by simp only; omega, fun _ _ _ hd => hd, fun _ e => by cases e⟩
      | some p =>
          obtain ⟨hext, hnone, hsome⟩ := h.propagateOne hp
          match hone : s.propagateOne p with
          | (some cr, u) =>
              simp only [hone]
              exact hone ▸ hsome cr (by rw [hone])
          | (none, u) =>
              simp only [hone] at hext hnone ⊢
              obtain ⟨hbase, hqu, hdone⟩ := hnone trivial
              have hlt : s.qhead < s.trail.length := (List.getElem?_eq_some_iff.mp hp).1
              obtain ⟨ext, he⟩ := hext.trail_eq
              have hpend := hext.pending_le
              have hlen : u.trail.length = s.trail.length + ext.length := by simp [he]
              exact .of_extends hext hdone (ih hbase (by omega) (by omega))

theorem Base.propagate (h : s.Base s.watches) (hq : s.qhead ≤ s.trail.length) :
    s.Propagation s.propagate :=
  h.propagateLoop hq (Nat.add_le_add_left (List.length_filter_le ..) _)

/-- **Propagation by watched literals** keeps the invariant, or finds a clause that is false. -/
theorem Inv.propagate (h : s.Inv) :
    s.Extends s.propagate.2 ∧ s.propagate.2.Base s.propagate.2.watches ∧
      s.propagate.2.qhead = s.propagate.2.trail.length ∧
      (s.propagate.1 = none → s.propagate.2.Inv) ∧
      ∀ cr, s.propagate.1 = some cr →
        cr ∈ s.propagate.2.refs ∧ ∀ q ∈ s.propagate.2.ca cr, -q ∈ s.propagate.2.trail := by
  obtain ⟨hext, hbase, hq, hdone, hconfl⟩ := h.toBase.propagate h.qhead_le
  exact ⟨hext, hbase, hq, fun e => ⟨hbase, hq.le, fun cr hcr =>
    hdone e cr (hext.refs_eq ▸ hcr) (h.processed cr (hext.refs_eq ▸ hcr))⟩, hconfl⟩

/-- **Propagation by watched literals is unit propagation.** -/
theorem propagate_refines (h : s.Inv) :
    s.abs.Propagated (s.propagate.1.isSome, s.propagate.2.abs) := by
  obtain ⟨hext, hbase, hq, hinv, hconfl⟩ := h.propagate
  set r := s.propagate
  have hsub : s.abs.trailSet ⊆ r.2.abs.trailSet := hext.trail_subset
  have hclosed : r.1 = none → Closed r.2.db r.2.abs.trailSet :=
    fun e => ((hinv e).quiescent hq).closed
  refine ⟨?_, ?_, ?_, ?_, hext.sameClauses, hbase.wf, hext.trail_eq, hq, ⟨?_, ?_⟩, ?_⟩
  · exact (congrArg ok hext.frame_eq : r.2.frame.ok = s.frame.ok)
  · exact hext.trailLim_eq
  · exact (congrArg phaseSaving hext.frame_eq : r.2.frame.phaseSaving = s.frame.phaseSaving)
  · exact (congrArg nVars hext.frame_eq : r.2.frame.nVars = s.frame.nVars)
  · intro e
    obtain ⟨cr, hcr⟩ := Option.isSome_iff_exists.mp e
    obtain ⟨hmem, hfalse⟩ := hconfl cr hcr
    refine ⟨s.ca cr, mem_db.mpr ⟨cr, hext.refs_eq ▸ hmem, rfl⟩, fun q hqc => hext.derived _ ?_⟩
    exact hfalse q ((hext.perm cr).mem_iff.mpr hqc)
  · intro hc
    by_contra hn
    have e : r.1 = none := by simpa using hn
    refine ((hinv e).quiescent hq).not_refuted (.inl ?_)
    exact (hext.sameClauses.conflict_iff.mp hc).mono hsub
  · intro e p
    have e' : r.1 = none := by simpa using e
    refine ⟨hext.derived p, fun hd => ?_⟩
    exact (hclosed e').derives_iff.mp ((hd.congr hext.sameClauses).mono hsub)

end Core

end Parsat.Minisat
