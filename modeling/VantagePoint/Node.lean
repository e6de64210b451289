import VantagePoint.GroupMetric
import Mathlib.Data.List.Basic

/-! The tree as the queries read it: a `VPNode` together with the nodes its
child pointers lead to. The pointers themselves are in `Arena`. -/
namespace VantagePoint

/-- `VPT_BUILD_LIST_THRESHOLD` -/
def vptBuildListThreshold : ℕ := 100
/-- `VPT_MAX_HEIGHT` -/
def vptMaxHeight : ℕ := 100
/-- `VPT_MAX_LIST_SIZE` -/
def vptMaxListSize : ℕ := 1000

structure VPEntry (α D : Type*) where
  item : α
  distance : D
deriving DecidableEq, Repr

/-- The labelled union `struct VPNode`: label `'b'` is `branch`, label `'l'` is
`pointlist`. -/
inductive VPNode (α D : Type*) where
  | branch (item : α) (radius : D) (left right : VPNode α D)
  | pointlist (items : List α)
deriving DecidableEq, Repr

variable {α D : Type*}

/-- The points stored under a node, with multiplicity. -/
def VPNode.items : VPNode α D → List α
  | .branch item _ left right => item :: (left.items ++ right.items)
  | .pointlist items => items

def VPNode.nodeCount : VPNode α D → ℕ
  | .branch _ _ left right => left.nodeCount+right.nodeCount+1
  | .pointlist _ => 1

@[simp] theorem items_branch (v : α) (r : D) (l n : VPNode α D) :
    (VPNode.branch v r l n).items = v :: (l.items ++ n.items) := rfl

@[simp] theorem items_pointlist (xs : List α) :
    (VPNode.pointlist xs : VPNode α D).items = xs := rfl

theorem nodeCount_pos (t : VPNode α D) : 0 < t.nodeCount := by
  cases t with
  | branch v r l n => exact Nat.succ_pos _
  | pointlist xs => exact Nat.one_pos

/-- The search invariant of the tree: left ≤ radius < right at every branch. -/
def VPNode.Ordered [LinearOrder D] (dist_fn : α → α → D) : VPNode α D → Prop
  | .branch item radius left right =>
    (∀ x ∈ left.items, dist_fn item x ≤ radius) ∧
    (∀ x ∈ right.items, radius < dist_fn item x) ∧
    left.Ordered dist_fn ∧ right.Ordered dist_fn
  | .pointlist _ => True

instance VPNode.decidableOrdered [LinearOrder D] (dist_fn : α → α → D) :
    (t : VPNode α D) → Decidable (t.Ordered dist_fn)
  | .branch item radius left right =>
    have := decidableOrdered dist_fn left
    have := decidableOrdered dist_fn right
    inferInstanceAs (Decidable ((∀ x ∈ left.items, dist_fn item x ≤ radius) ∧
      (∀ x ∈ right.items, radius < dist_fn item x) ∧
      left.Ordered dist_fn ∧ right.Ordered dist_fn))
  | .pointlist _ => inferInstanceAs (Decidable True)

/-- Every list node holds fewer than `n` points. -/
def VPNode.ListsBelow (n : ℕ) : VPNode α D → Prop
  | .branch _ _ left right => left.ListsBelow n ∧ right.ListsBelow n
  | .pointlist items => items.length < n

end VantagePoint
