import Mathlib.Data.List.Sort
import Mathlib.Order.Lattice

/-! The k smallest elements of a list over a linear order. A sorted list is
determined by how many of its elements lie below each bound, so every fact here
is reduced to counting. -/
namespace Smallest

variable {D : Type*} [LinearOrder D]

/-- How many elements of the list are at most `y`. -/
def rank (l : List D) (y : D) : ℕ := l.countP (· ≤ y)

/-- The k smallest elements, in ascending order. -/
def smallest (k : ℕ) (l : List D) : List D := (l.insertionSort (· ≤ ·)).take k

theorem rank_append (l l' : List D) (y : D) : rank (l ++ l') y = rank l y+rank l' y :=
  List.countP_append

theorem rank_perm {l l' : List D} (h : l.Perm l') (y : D) : rank l y = rank l' y :=
  h.countP_eq _

theorem rank_le_length (l : List D) (y : D) : rank l y ≤ l.length := List.countP_le_length

theorem rank_mono (l : List D) {y z : D} (h : y ≤ z) : rank l y ≤ rank l z := by
  apply List.countP_mono_left
  intro x _ hx
  simp only [decide_eq_true_eq] at hx ⊢
  exact hx.trans h

theorem rank_pos_iff (l : List D) (y : D) : 0 < rank l y ↔ ∃ x ∈ l, x ≤ y := by
  simp only [rank, List.countP_pos_iff, decide_eq_true_eq]

theorem rank_eq_zero_of_sorted {x : D} {l : List D} (h : (x :: l).Pairwise (· ≤ ·)) {y : D}
    (hy : y < x) : rank (x :: l) y = 0 := by
  rw [rank, List.countP_eq_zero]
  intro z hz
  have hxz : x ≤ z := by
    rcases List.mem_cons.mp hz with rfl | hz
    · exact le_rfl
    · exact List.rel_of_pairwise_cons h hz
  simpa using hy.trans_le hxz

/-- Sorted lists with the same ranks are equal. -/
theorem eq_of_rank_eq {l l' : List D} (hl : l.Pairwise (· ≤ ·)) (hl' : l'.Pairwise (· ≤ ·))
    (h : ∀ y, rank l y = rank l' y) : l = l' := by
  -- Both lists are cut at the head: equal ranks at the two heads make them equal.
  induction l generalizing l' with
  | nil =>
    cases l' with
    | nil => rfl
    | cons y l' =>
      have hpos : 0 < rank (y :: l') y :=
        (rank_pos_iff _ _).mpr ⟨y, List.mem_cons_self, le_rfl⟩
      have hy := h y
      simp only [rank, List.countP_nil] at hy hpos
      omega
  | cons x l ih =>
    have hx : 0 < rank (x :: l) x := (rank_pos_iff _ _).mpr ⟨x, List.mem_cons_self, le_rfl⟩
    cases l' with
    | nil =>
      have hx' := h x
      simp only [rank, List.countP_nil] at hx hx'
      omega
    | cons y l' =>
      have hy : 0 < rank (y :: l') y := (rank_pos_iff _ _).mpr ⟨y, List.mem_cons_self, le_rfl⟩
      have hxy : x = y := by
        -- the smaller head would have rank 0 on the other side
        rcases lt_trichotomy x y with hlt | heq | hgt
        · rw [h x, rank_eq_zero_of_sorted hl' hlt] at hx
          exact absurd hx (lt_irrefl 0)
        · exact heq
        · rw [← h y, rank_eq_zero_of_sorted hl hgt] at hy
          exact absurd hy (lt_irrefl 0)
      subst hxy
      have htail : l = l' := by
        apply ih hl.of_cons hl'.of_cons
        intro z
        have hz := h z
        simp only [rank, List.countP_cons] at hz ⊢
        omega
      rw [htail]

/-- Keeping the first k elements of a sorted list caps its ranks at k. -/
theorem rank_take {l : List D} (hl : l.Pairwise (· ≤ ·)) (k : ℕ) (y : D) :
    rank (l.take k) y = min k (rank l y) := by
  induction l generalizing k with
  | nil => simp only [List.take_nil, rank, List.countP_nil, Nat.min_zero]
  | cons x l ih =>
    cases k with
    | zero => simp only [List.take_zero, rank, List.countP_nil, Nat.zero_min]
    | succ k =>
      -- A head above `y` is below nothing that follows, so both sides are 0.
      by_cases hxy : x ≤ y
      · have hi := ih hl.of_cons k
        simp only [rank, List.take_succ_cons, List.countP_cons, hxy, decide_true,
          ↓reduceIte] at hi ⊢
        omega
      · have hz : rank (x :: l) y = 0 := rank_eq_zero_of_sorted hl (not_le.mp hxy)
        have hsub : rank ((x :: l).take (k+1)) y ≤ rank (x :: l) y :=
          (List.take_sublist _ _).countP_le
        omega

theorem pairwise_smallest (k : ℕ) (l : List D) : (smallest k l).Pairwise (· ≤ ·) :=
  (List.pairwise_insertionSort (· ≤ ·) l).sublist (List.take_sublist _ _)

theorem length_smallest (k : ℕ) (l : List D) : (smallest k l).length = min k l.length := by
  rw [smallest, List.length_take, List.length_insertionSort]

theorem rank_smallest (k : ℕ) (l : List D) (y : D) :
    rank (smallest k l) y = min k (rank l y) := by
  rw [smallest, rank_take (List.pairwise_insertionSort (· ≤ ·) l),
    rank_perm (List.perm_insertionSort (· ≤ ·) l)]

/-- A sorted list with the ranks of the k smallest is the list of the k smallest. -/
theorem eq_smallest {k : ℕ} {l s : List D} (hs : s.Pairwise (· ≤ ·))
    (h : ∀ y, rank s y = min k (rank l y)) : s = smallest k l := by
  apply eq_of_rank_eq hs (pairwise_smallest k l)
  intro y
  rw [h, rank_smallest]

theorem smallest_min_length (k : ℕ) (l : List D) : smallest (min k l.length) l = smallest k l := by
  apply eq_smallest (pairwise_smallest _ l)
  intro y
  have hle := rank_le_length l y
  rw [rank_smallest]
  omega

theorem smallest_perm (k : ℕ) {l l' : List D} (h : l.Perm l') : smallest k l = smallest k l' := by
  apply eq_smallest (pairwise_smallest k l)
  intro y
  rw [rank_smallest, rank_perm h]

/-- One more element: insert it into the k smallest so far and drop the surplus. -/
theorem smallest_cons (k : ℕ) (x : D) (l s : List D) (hs : s.Pairwise (· ≤ ·))
    (hp : s.Perm (x :: smallest k l)) : s.take k = smallest k (x :: l) := by
  apply eq_smallest (hs.sublist (List.take_sublist _ _))
  intro y
  have hcons (t : List D) : rank (x :: t) y = rank t y+if x ≤ y then 1 else 0 := by
    simp only [rank, List.countP_cons, decide_eq_true_eq]
  -- Counting turns the insertion into `min k (1 + min k n) = min k (1 + n)`.
  rw [rank_take hs, rank_perm hp, hcons, hcons, rank_smallest]
  omega

/-- Adding points `o` leaves the k smallest of `l` as they are exactly when each
of them has enough points of `l` at or below it. -/
theorem smallest_append_eq_iff (k : ℕ) (l o : List D) :
    smallest k l = smallest k (l ++ o) ↔
      ∀ y ∈ o, min k (l.length+o.length) ≤ rank l y := by
  constructor
  · intro h y hy
    have hr := congrArg (fun s => rank s y) h
    simp only [rank_smallest, rank_append] at hr
    have hpos : 0 < rank o y := (rank_pos_iff o y).mpr ⟨y, hy, le_rfl⟩
    omega
  · intro h
    apply eq_smallest (pairwise_smallest k l)
    intro z
    rw [rank_smallest, rank_append]
    -- Either no added element lies below `z`, or one does and `l` already fills
    -- the k places at or below it.
    rcases Nat.eq_zero_or_pos (rank o z) with hz | hz
    · rw [hz, Nat.add_zero]
    · obtain ⟨y, hy, hyz⟩ := (rank_pos_iff o z).mp hz
      have hle := (h y hy).trans (rank_mono l hyz)
      have hlen := rank_le_length l z
      have ho := List.length_pos_of_mem hy
      omega

end Smallest
