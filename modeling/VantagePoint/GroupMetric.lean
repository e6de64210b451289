import Mathlib.Algebra.Order.Group.Int
import Mathlib.Algebra.Order.Group.Unbundled.Basic
import Mathlib.Algebra.Order.Group.Abs

/-! Metrics with values in a linearly ordered abelian group, and the two ways
the triangle inequality keeps a ball away from a query point. -/
namespace GroupMetric

variable {α D : Type*} [AddCommGroup D] [LinearOrder D]

structure IsMetric (d : α → α → D) : Prop where
  dist_self : ∀ x, d x x = 0
  eq_of_dist_eq_zero : ∀ x y, d x y = 0 → x = y
  dist_comm : ∀ x y, d x y = d y x
  dist_triangle : ∀ x y z, d x z ≤ d x y+d y z

variable [IsOrderedAddMonoid D]

theorem IsMetric.nonneg {d : α → α → D} (hd : IsMetric d) (x y : α) : 0 ≤ d x y := by
  by_contra hneg
  have hlt : d x y < 0 := lt_of_not_ge hneg
  have htri := hd.dist_triangle x y x
  rw [hd.dist_self, hd.dist_comm y x] at htri
  exact absurd htri (not_le_of_gt (add_neg hlt hlt))

/-- Inside: a point of the closed ball of radius `r` about `v` is farther than
`t` from every query whose distance to `v` exceeds `r+t`. -/
theorem IsMetric.lt_of_inside {d : α → α → D} (hd : IsMetric d) {v x q : α} {r t : D}
    (hx : d v x ≤ r) (hq : ¬ d v q-t ≤ r) : t < d x q := by
  have htri := hd.dist_triangle v x q
  have hsum : r+t < r+d x q := by
    calc
      r+t < d v q := lt_sub_iff_add_lt.mp (lt_of_not_ge hq)
      _ ≤ d v x+d x q := htri
      _ ≤ r+d x q := by gcongr
  exact lt_of_add_lt_add_left hsum

/-- Outside: a point beyond radius `r` of `v` is farther than `t` from every
query that stays more than `t` inside the ball. -/
theorem IsMetric.lt_of_outside {d : α → α → D} (hd : IsMetric d) {v x q : α} {r t : D}
    (hx : r < d v x) (hq : ¬ d v q+t ≥ r) : t < d x q := by
  have htri := hd.dist_triangle v q x
  rw [hd.dist_comm q x] at htri
  have hsum : d v q+t < d v q+d x q := by
    calc
      d v q+t < r := lt_of_not_ge hq
      _ < d v x := hx
      _ ≤ d v q+d x q := htri
  exact lt_of_add_lt_add_left hsum

theorem isMetric_int_abs_sub : IsMetric (fun x y : ℤ => |x-y|) where
  dist_self x := by simp only [sub_self, abs_zero]
  eq_of_dist_eq_zero x y h := by
    have h0 := abs_eq_zero.mp h
    omega
  dist_comm x y := abs_sub_comm x y
  dist_triangle x y z := abs_sub_le x y z

end GroupMetric
