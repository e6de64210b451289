import VantagePoint.Search
import Mathlib.Logic.Function.Basic

/-! `VPT_all_within`. -/
namespace VantagePoint
open WhileLoop GroupMetric

variable {α D : Type*}

/-- `struct WithinList`; `items` is the address of the buffer, `none` for NULL. -/
structure WithinList where
  items : Option ℕ
  numItems : ℕ
  capacity : ℕ
deriving DecidableEq, Repr

/-- A match written to `all_within.items[index]` while the buffer has room for
`capacity` entries. -/
structure WithinWrite (α D : Type*) where
  index : ℕ
  capacity : ℕ
  entry : VPEntry α D
deriving DecidableEq, Repr

/-- Locals and output parameters of `VPT_all_within`. The last field is a record
of the run that the code does not keep: the writes of matches, oldest first. -/
structure WithinState (α D : Type*) where
  allWithin : WithinList
  cells : ℕ → Option (VPEntry α D)
  resultSpace : Option ℕ
  numResults : ℕ
  reallocs : ℕ
  writes : List (WithinWrite α D)

/-- The (item, distance) pairs accepted so far. -/
def WithinState.accepted (s : WithinState α D) : List (VPEntry α D) :=
  s.writes.map WithinWrite.entry

/-- Doubling the buffer when it is full. `realloc n` is the answer to the n-th
request: `none` for failure, else the address of a buffer that replaces the old
one and holds a copy of its entries. -/
def growIfFull (realloc : ℕ → Option ℕ) (s : WithinState α D) :
    Except (WithinState α D) (WithinState α D) :=
  if s.allWithin.numItems = s.allWithin.capacity then
    -- `realloc` is called before the capacity is doubled, and copies the entries.
    match realloc s.reallocs with
    | none => .error { s with reallocs := s.reallocs+1 }
    | some address => .ok { s with
        reallocs := s.reallocs+1
        cells := fun i => if i < s.allWithin.capacity then s.cells i else none
        allWithin := { s.allWithin with
          capacity := 2*s.allWithin.capacity
          items := some address } }
  else .ok s

/-- The count goes up first, and the match is written at the new count. -/
def writeMatch (s : WithinState α D) (item : α) (dist : D) : WithinState α D :=
  let numItems := s.allWithin.numItems+1
  { s with
    allWithin := { s.allWithin with numItems := numItems }
    cells := Function.update s.cells numItems (some ⟨item, dist⟩)
    writes := s.writes ++ [⟨numItems, s.allWithin.capacity, ⟨item, dist⟩⟩] }

/-- Growing the buffer changes neither the count nor what was accepted. -/
theorem growIfFull_ok {realloc : ℕ → Option ℕ} {s s' : WithinState α D}
    (h : growIfFull realloc s = .ok s') :
    s'.writes = s.writes ∧ s'.allWithin.numItems = s.allWithin.numItems := by
  unfold growIfFull at h
  split at h
  · split at h
    · cases h
    · cases h
      exact ⟨rfl, rfl⟩
  · cases h
    exact ⟨rfl, rfl⟩

section Code

variable [LinearOrder D]

/-- `if (dist <= max_dist) { push }`, the same code for branch and list items. -/
def considerWithin (realloc : ℕ → Option ℕ) (max_dist : D) (s : WithinState α D) (item : α)
    (dist : D) : Except (WithinState α D) (WithinState α D) :=
  if dist ≤ max_dist then (growIfFull realloc s).bind fun s => .ok (writeMatch s item dist)
  else .ok s

def withinList (realloc : ℕ → Option ℕ) (dist_fn : α → α → D) (datapoint : α) (max_dist : D) :
    List α → WithinState α D → Except (WithinState α D) (WithinState α D)
  | [], s => .ok s
  | item :: items, s =>
    (considerWithin realloc max_dist s item (dist_fn item datapoint)).bind
      (withinList realloc dist_fn datapoint max_dist items)

def withinSearch (realloc : ℕ → Option ℕ) (dist_fn : α → α → D) (datapoint : α) (max_dist : D) :
    Search α D (WithinState α D) (WithinState α D) where
  onBranch s item dist := considerWithin realloc max_dist s item dist
  onList s items := withinList realloc dist_fn datapoint max_dist items s
  bound _ := max_dist

/-- The state after the first lines of `VPT_all_within`. -/
def withinStart (buffer : Option ℕ) : WithinState α D where
  allWithin := ⟨buffer, 0, vptMaxListSize⟩
  cells _ := none
  resultSpace := buffer
  numResults := 0
  reallocs := 0
  writes := []

/-- The returned flag and the final state; `buffer` is what the first `malloc`
returns. An early exit of the loop is `return false`. -/
def vptAllWithin [Add D] [Sub D] (buffer : Option ℕ) (realloc : ℕ → Option ℕ)
    (dist_fn : α → α → D) (root : VPNode α D) (datapoint : α) (max_dist : D) :
    Bool × WithinState α D :=
  match buffer with
  | none => (false, withinStart none)
  | some address =>
    match ((withinSearch realloc dist_fn datapoint max_dist).loop dist_fn datapoint).run
        root.nodeCount (.start (withinStart (some address)) root) with
    | .ok s => (true, { s.acc with numResults := s.acc.allWithin.numItems })
    | .error s => (false, s)

/-- A true return comes from a loop that has emptied its stack. -/
theorem vptAllWithin_true [Add D] [Sub D] {buffer : Option ℕ} {realloc : ℕ → Option ℕ}
    {dist_fn : α → α → D} {t : VPNode α D} {q : α} {max_dist : D}
    (h : (vptAllWithin buffer realloc dist_fn t q max_dist).1 = true) :
    ∃ s, (withinSearch realloc dist_fn q max_dist).visit dist_fn q t (withinStart buffer) = .ok s ∧
      (vptAllWithin buffer realloc dist_fn t q max_dist).2 =
        { s with numResults := s.allWithin.numItems } := by
  cases buffer with
  | none => exact absurd h (by simp [vptAllWithin])
  | some address =>
    have hrun := loop_run_start (withinSearch realloc dist_fn q max_dist) dist_fn q
      (withinStart (some address)) t
    -- A failed `realloc` leaves the loop, and the method, with false.
    cases hv : (withinSearch realloc dist_fn q max_dist).visit dist_fn q t
        (withinStart (some address)) with
    | error e =>
      rw [hv] at hrun
      simp [vptAllWithin, hrun, Except.map] at h
    | ok s =>
      rw [hv] at hrun
      exact ⟨s, rfl, by simp only [vptAllWithin, hrun, Except.map]⟩

end Code

section Accepted

variable [LinearOrder D] (dist : α → D) (max_dist : D)

/-- What a linear scan of `xs` would report. -/
def matchesOf (xs : List α) : List (VPEntry α D) :=
  (xs.filter fun x => dist x ≤ max_dist).map fun x => ⟨x, dist x⟩

theorem matchesOf_append (xs ys : List α) :
    matchesOf dist max_dist (xs ++ ys) = matchesOf dist max_dist xs ++ matchesOf dist max_dist ys := by
  simp only [matchesOf, List.filter_append, List.map_append]

theorem matchesOf_far (xs : List α) (h : ∀ x ∈ xs, max_dist < dist x) :
    matchesOf dist max_dist xs = [] := by
  rw [matchesOf, List.map_eq_nil_iff, List.filter_eq_nil_iff]
  intro x hx
  simpa using h x hx

/-- From `s` to `s'` the points `xs` have been scanned: exactly the matches
among them have been accepted, and counted. -/
structure Scanned (s s' : WithinState α D) (xs : List α) : Prop where
  accepted : s'.accepted.Perm (s.accepted ++ matchesOf dist max_dist xs)
  counted : s'.allWithin.numItems = s.allWithin.numItems+(matchesOf dist max_dist xs).length

variable {dist max_dist}

theorem Scanned.perm {s s' : WithinState α D} {xs ys : List α} (hp : xs.Perm ys)
    (h : Scanned dist max_dist s s' xs) : Scanned dist max_dist s s' ys := by
  have hm : (matchesOf dist max_dist xs).Perm (matchesOf dist max_dist ys) :=
    (hp.filter _).map _
  exact ⟨h.accepted.trans (hm.append_left _), by rw [h.counted, hm.length_eq]⟩

theorem Scanned.trans {a b c : WithinState α D} {xs ys : List α}
    (h : Scanned dist max_dist a b xs) (h' : Scanned dist max_dist b c ys) :
    Scanned dist max_dist a c (xs ++ ys) := by
  constructor
  · rw [matchesOf_append, ← List.append_assoc]
    exact h'.accepted.trans (h.accepted.append_right _)
  · rw [matchesOf_append, List.length_append, h'.counted, h.counted, Nat.add_assoc]

theorem Scanned.skip (s : WithinState α D) (xs : List α) (h : ∀ x ∈ xs, max_dist < dist x) :
    Scanned dist max_dist s s xs := by
  constructor
  · rw [matchesOf_far dist max_dist xs h, List.append_nil]
  · rw [matchesOf_far dist max_dist xs h, List.length_nil, Nat.add_zero]

theorem considerWithin_scanned (d : α → D) {realloc : ℕ → Option ℕ} {s s' : WithinState α D}
    (x : α) (h : considerWithin realloc max_dist s x (d x) = .ok s') :
    Scanned d max_dist s s' [x] := by
  unfold considerWithin at h
  by_cases hx : d x ≤ max_dist
  · rw [if_pos hx] at h
    obtain ⟨g, hg, hw⟩ := (except_bind_eq_ok _ _ _).mp h
    obtain ⟨hwrites, hcount⟩ := growIfFull_ok hg
    cases hw
    have hm : matchesOf d max_dist [x] = [⟨x, d x⟩] := by
      simp [matchesOf, hx]
    constructor
    · simp [WithinState.accepted, writeMatch, hwrites, hm]
    · simp [writeMatch, hcount, hm]
  · rw [if_neg hx] at h
    cases h
    apply Scanned.skip
    intro y hy
    rw [List.mem_singleton.mp hy]
    exact not_le.mp hx

theorem withinList_scanned {realloc : ℕ → Option ℕ} {dist_fn : α → α → D} {q : α}
    (xs : List α) {s s' : WithinState α D}
    (h : withinList realloc dist_fn q max_dist xs s = .ok s') :
    Scanned (fun x => dist_fn x q) max_dist s s' xs := by
  induction xs generalizing s with
  | nil =>
    cases h
    exact Scanned.skip _ [] (fun x hx => absurd hx List.not_mem_nil)
  | cons x xs ih =>
    obtain ⟨m, hm, hrest⟩ := (except_bind_eq_ok _ _ _).mp h
    have hone := considerWithin_scanned (fun x => dist_fn x q) x hm
    exact hone.trans (ih hrest)

end Accepted

section Complete

variable [AddCommGroup D] [LinearOrder D] [IsOrderedAddMonoid D]

/-- A search of one subtree accepts exactly the matches a linear scan of its
points would. -/
theorem within_visit_scanned {dist_fn : α → α → D} (hd : IsMetric dist_fn) (q : α) (max_dist : D)
    (realloc : ℕ → Option ℕ) (t : VPNode α D) (ht : t.Ordered dist_fn) (s s' : WithinState α D)
    (h : (withinSearch realloc dist_fn q max_dist).visit dist_fn q t s = .ok s') :
    Scanned (fun x => dist_fn x q) max_dist s s' t.items := by
  -- The bound is `max_dist` throughout, so a subtree that is skipped has no match.
  refine visit_rule (R := Scanned (fun x => dist_fn x q) max_dist)
    (withinSearch realloc dist_fn q max_dist) dist_fn q ?_ ?_ ?_ ?_ ?_ hd t ht s s' h
  · intro a b xs ys hp hR
    exact hR.perm hp
  · intro a b c xs ys hR hR'
    exact hR.trans hR'
  · intro a b v hv
    exact considerWithin_scanned (fun x => dist_fn x q) v hv
  · intro a b xs hl
    exact withinList_scanned xs hl
  · intro a xs hx
    exact Scanned.skip a xs hx

end Complete

end VantagePoint
