import VantagePoint.Search

/-! `VPT_nn`. -/
namespace VantagePoint
open WhileLoop GroupMetric

variable {α D : Type*}

/-- The locals `closest` and `closest_dist`; `closest` is unset at first. -/
structure Closest (α D : Type*) where
  closest : Option α
  closestDist : D
deriving DecidableEq, Repr

/-- `if (dist < closest_dist) { closest_dist = dist; closest = item; }` -/
def Closest.consider [LinearOrder D] (c : Closest α D) (item : α) (dist : D) : Closest α D :=
  if dist < c.closestDist then ⟨some item, dist⟩ else c

/-- What `VPT_nn` does at a branch, at a list, and what it prunes by. -/
def nnSearch [LinearOrder D] (dist_fn : α → α → D) (datapoint : α) :
    Search α D (Closest α D) Empty where
  onBranch c item dist := .ok (c.consider item dist)
  onList c items := .ok (items.foldl (fun c x => c.consider x (dist_fn x datapoint)) c)
  bound c := c.closestDist

/-- A loop whose body never leaves early has a value. -/
def loopValue {σ : Type*} : Except Empty σ → σ
  | .ok s => s
  | .error e => e.elim

section Code

variable [LinearOrder D] [Add D] [Sub D]

def vptNn (dist_fn : α → α → D) (DIST_MAX : D) (root : VPNode α D) (datapoint : α) :
    Closest α D :=
  (loopValue (((nnSearch dist_fn datapoint).loop dist_fn datapoint).run root.nodeCount
    (.start ⟨none, DIST_MAX⟩ root))).acc

/-- The loop of `VPT_nn` comes to its end with an empty stack, and `VPT_nn`
returns what the recursive visit of the root returns. -/
theorem nn_loop_ends (dist_fn : α → α → D) (DIST_MAX : D) (t : VPNode α D) (q : α) :
    ((nnSearch dist_fn q).loop dist_fn q).run t.nodeCount (.start ⟨none, DIST_MAX⟩ t) =
        .ok ⟨vptNn dist_fn DIST_MAX t q, []⟩ ∧
      (nnSearch dist_fn q).visit dist_fn q t ⟨none, DIST_MAX⟩ =
        .ok (vptNn dist_fn DIST_MAX t q) := by
  have hrun := loop_run_start (nnSearch dist_fn q) dist_fn q ⟨none, DIST_MAX⟩ t
  unfold vptNn
  cases hv : (nnSearch dist_fn q).visit dist_fn q t ⟨none, DIST_MAX⟩ with
  | error e => exact e.elim
  | ok c =>
    rw [hv] at hrun
    rw [hrun]
    exact ⟨rfl, rfl⟩

end Code

/-- From `c` to `c'` the points `xs` have been accounted for: either nothing
changed or one of them is the new closest, and none of them is closer. -/
structure Nearest [LinearOrder D] (dist : α → D) (c c' : Closest α D) (xs : List α) : Prop where
  le : c'.closestDist ≤ c.closestDist
  origin : c' = c ∨ ∃ x ∈ xs, c' = ⟨some x, dist x⟩
  bound : ∀ x ∈ xs, c'.closestDist ≤ dist x

section Order

variable [LinearOrder D] {dist : α → D}

theorem Nearest.perm {c c' : Closest α D} {xs ys : List α} (hp : xs.Perm ys)
    (h : Nearest dist c c' xs) : Nearest dist c c' ys := by
  refine ⟨h.le, ?_, fun x hx => h.bound x (hp.mem_iff.mpr hx)⟩
  rcases h.origin with he | ⟨x, hx, he⟩
  · exact Or.inl he
  · exact Or.inr ⟨x, hp.mem_iff.mp hx, he⟩

theorem Nearest.trans {a b c : Closest α D} {xs ys : List α} (h : Nearest dist a b xs)
    (h' : Nearest dist b c ys) : Nearest dist a c (xs ++ ys) := by
  refine ⟨h'.le.trans h.le, ?_, ?_⟩
  · rcases h'.origin with rfl | ⟨y, hy, he⟩
    · rcases h.origin with he | ⟨x, hx, he⟩
      · exact Or.inl he
      · exact Or.inr ⟨x, List.mem_append_left _ hx, he⟩
    · exact Or.inr ⟨y, List.mem_append_right _ hy, he⟩
  · intro x hx
    rcases List.mem_append.mp hx with hx | hx
    · exact h'.le.trans (h.bound x hx)
    · exact h'.bound x hx

theorem Nearest.skip (c : Closest α D) (xs : List α) (h : ∀ x ∈ xs, c.closestDist < dist x) :
    Nearest dist c c xs :=
  ⟨le_rfl, Or.inl rfl, fun x hx => (h x hx).le⟩

theorem nearest_consider (c : Closest α D) (x : α) :
    Nearest dist c (c.consider x (dist x)) [x] := by
  unfold Closest.consider
  by_cases hlt : dist x < c.closestDist
  · rw [if_pos hlt]
    exact ⟨hlt.le, Or.inr ⟨x, List.mem_singleton_self x, rfl⟩,
      fun y hy => by rw [List.mem_singleton.mp hy]⟩
  · rw [if_neg hlt]
    exact ⟨le_rfl, Or.inl rfl, fun y hy => by rw [List.mem_singleton.mp hy]; exact not_lt.mp hlt⟩

theorem nearest_foldl (c : Closest α D) (xs : List α) :
    Nearest dist c (xs.foldl (fun c x => c.consider x (dist x)) c) xs := by
  induction xs generalizing c with
  | nil => exact Nearest.skip c [] (fun x hx => absurd hx List.not_mem_nil)
  | cons x xs ih => exact (nearest_consider c x).trans (ih _)

end Order

section Exact

variable [AddCommGroup D] [LinearOrder D] [IsOrderedAddMonoid D]

/-- What a search of one subtree does to `closest` and `closest_dist`. -/
theorem nn_visit_nearest {dist_fn : α → α → D} (hd : IsMetric dist_fn) (q : α)
    (t : VPNode α D) (ht : t.Ordered dist_fn) (c c' : Closest α D)
    (h : (nnSearch dist_fn q).visit dist_fn q t c = .ok c') :
    Nearest (fun x => dist_fn x q) c c' t.items := by
  -- `Nearest` is the relation the traversal rule is used at: it composes, and a
  -- subtree that is skipped holds nothing closer.
  refine visit_rule (R := Nearest (fun x => dist_fn x q)) (nnSearch dist_fn q) dist_fn q
    ?_ ?_ ?_ ?_ ?_ hd t ht c c' h
  · intro a b xs ys hp hR
    exact hR.perm hp
  · intro a b c xs ys hR hR'
    exact hR.trans hR'
  · intro a b v hv
    cases hv
    exact nearest_consider a v
  · intro a b xs hl
    cases hl
    exact nearest_foldl a xs
  · intro a xs hx
    exact Nearest.skip a xs hx

theorem vptNn_eq_nearest {dist_fn : α → α → D} (hd : IsMetric dist_fn) (DIST_MAX : D)
    (t : VPNode α D) (ht : t.Ordered dist_fn) (hne : t.items ≠ []) (q : α)
    (hmax : ∀ x ∈ t.items, dist_fn x q < DIST_MAX) :
    ∃ x ∈ t.items, vptNn dist_fn DIST_MAX t q = ⟨some x, dist_fn x q⟩ ∧
      ∀ y ∈ t.items, dist_fn x q ≤ dist_fn y q := by
  -- The loop with its stack ends where the recursive visit of the root ends.
  obtain ⟨_, hvisit⟩ := nn_loop_ends dist_fn DIST_MAX t q
  have hn := nn_visit_nearest hd q t ht _ _ hvisit
  rcases hn.origin with he | ⟨x, hx, he⟩
  · -- nothing was written: impossible, as every distance is below DIST_MAX
    obtain ⟨y, hy⟩ := List.exists_mem_of_ne_nil _ hne
    have hle := hn.bound y hy
    rw [he] at hle
    exact absurd (hmax y hy) (not_lt_of_ge hle)
  -- the last write is the point reported, and the bound on all points is about it
  · refine ⟨x, hx, he, ?_⟩
    intro y hy
    have hle := hn.bound y hy
    rwa [he] at hle

end Exact

end VantagePoint
