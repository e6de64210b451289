import VantagePoint.NearestAgreement
import VantagePoint.RangeSearch
import VantagePoint.MachineWord

/-! The pruning tests when `dist_t` is an integer type: `dist - t` may wrap below
the smallest value and `dist + t` above the largest, where `t` is the bound of the
search at the branch. -/
namespace VantagePoint
open WhileLoop GroupMetric MachineWord

variable {α : Type*} {g : Signedness} {w : ℕ}

section Code

/-- `P` holds at every branch the search takes off its stack, of the bound its
tests read there. -/
def Search.AtBranches {D σ ε : Type*} [LinearOrder D] [Add D] [Sub D] (S : Search α D σ ε)
    (dist_fn : α → α → D) (q : α) (root : VPNode α D) (start : σ)
    (P : D → α → D → VPNode α D → VPNode α D → Prop) : Prop :=
  ∀ s, (S.loop dist_fn q).Reaches (.start start root) s →
    ∀ item radius left right below acc, s.toTraverse = .branch item radius left right :: below →
      S.onBranch s.acc item (dist_fn item q) = .ok acc → P (S.bound acc) item radius left right

/-- Both tests decide as they would in the integers, and a child that holds a point
within the bound is pushed. -/
structure TestsExact (dist_fn : α → α → Word g w) (q : α) (t : Word g w) (item : α)
    (radius : Word g w) (left right : VPNode α (Word g w)) : Prop where
  diff : dist_fn item q-t ≤ radius ↔ (dist_fn item q).val-t.val ≤ radius.val
  sum : dist_fn item q+t ≥ radius ↔ (dist_fn item q).val+t.val ≥ radius.val
  pushesLeft : ∀ x ∈ left.items, dist_fn x q ≤ t → dist_fn item q-t ≤ radius
  pushesRight : ∀ x ∈ right.items, dist_fn x q ≤ t → dist_fn item q+t ≥ radius

/-- The difference does not go below the smallest value, or comes back up to the
radius at most. -/
def DiffFits (dist t radius : Word g w) : Prop :=
  least g w ≤ dist.val-t.val ∨ dist.val-t.val+2^w ≤ radius.val

/-- The sum does not exceed the largest value, or comes back down to the radius at
least. -/
def SumFits (dist t radius : Word g w) : Prop :=
  dist.val+t.val ≤ greatest g w ∨ radius.val ≤ dist.val+t.val-2^w

end Code

section Tests

variable {dist t radius : Word g w}

theorem diff_exact_iff (hw : 0 < w) (ht : 0 ≤ t.val) :
    (dist-t ≤ radius ↔ dist.val-t.val ≤ radius.val) ↔ DiffFits dist t radius := by
  obtain ⟨hlow, _⟩ := val_range hw radius
  rw [le_iff_val, val_sub hw dist t ht, DiffFits]
  split
  · rename_i hfits
    exact ⟨fun _ => Or.inl hfits, fun _ => Iff.rfl⟩
  -- the exact difference is below every value of the type, so the test is to succeed
  · constructor
    · intro h
      exact Or.inr (h.mpr (by omega))
    · intro h
      omega

theorem sum_exact_iff (hw : 0 < w) (hd : 0 ≤ dist.val) :
    (dist+t ≥ radius ↔ dist.val+t.val ≥ radius.val) ↔ SumFits dist t radius := by
  obtain ⟨_, hhigh⟩ := val_range hw radius
  rw [ge_iff_le, le_iff_val, val_add hw dist t hd, SumFits]
  split
  · rename_i hfits
    exact ⟨fun _ => Or.inl hfits, fun _ => Iff.rfl⟩
  -- the exact sum is above every value of the type
  · constructor
    · intro h
      exact Or.inr (h.mpr (by omega))
    · intro h
      omega

/-- With a sign the difference of two distances is always in range. -/
theorem diffFits_signed {dist t radius : Word .signed w} (hw : 0 < w) (hd : 0 ≤ dist.val) :
    DiffFits dist t radius := by
  obtain ⟨_, hhigh⟩ := val_range hw t
  have hdouble := two_pow_double hw
  left
  change -2^(w-1) ≤ dist.val-t.val
  change t.val ≤ -2^(w-1)+2^w-1 at hhigh
  omega

variable {dist_fn : α → α → Word g w} {q : α}

/-- Exact tests push every child with a point within the bound. -/
theorem testsExact_iff (hw : 0 < w) (hd : IsMetric fun x y => (dist_fn x y).val) {v : α}
    {r : Word g w} {left right : VPNode α (Word g w)}
    (ho : (VPNode.branch v r left right).Ordered dist_fn) (ht : 0 ≤ t.val) :
    TestsExact dist_fn q t v r left right ↔
      DiffFits (dist_fn v q) t r ∧ SumFits (dist_fn v q) t r := by
  have hdist : 0 ≤ (dist_fn v q).val := hd.nonneg v q
  rw [← diff_exact_iff hw ht, ← sum_exact_iff hw hdist]
  obtain ⟨hin, hout, _, _⟩ := ho
  constructor
  · intro h
    exact ⟨h.diff, h.sum⟩
  -- The triangle inequality is one about integers, so it needs the tests to be exact.
  · rintro ⟨hdiff, hsum⟩
    refine ⟨hdiff, hsum, ?_, ?_⟩
    · intro x hx hxt
      by_contra hn
      rw [hdiff] at hn
      exact absurd (le_iff_val.mp hxt) (not_le.mpr (hd.lt_of_inside (le_iff_val.mp (hin x hx)) hn))
    · intro x hx hxt
      by_contra hn
      rw [hsum] at hn
      exact absurd (le_iff_val.mp hxt) (not_le.mpr (hd.lt_of_outside (lt_iff_val.mp (hout x hx)) hn))

end Tests

section Runs

variable {σ ε : Type*} {S : Search α (Word g w) σ ε} {dist_fn : α → α → Word g w} {q : α}
  {I : σ → Prop} {t : VPNode α (Word g w)} {start : σ}

/-- A search that keeps `I` takes only ordered trees off its stack. -/
theorem reaches_ordered (ht : t.Ordered dist_fn)
    (hbranch : ∀ a b v, I a → S.onBranch a v (dist_fn v q) = .ok b → I b)
    (hlist : ∀ a b xs, I a → S.onList a xs = .ok b → I b) (hstart : I start)
    {s : SearchState α (Word g w) σ} (hs : (S.loop dist_fn q).Reaches (.start start t) s) :
    I s.acc ∧ ∀ u ∈ s.toTraverse, u.Ordered dist_fn := by
  refine reaches_invariant (S.loop dist_fn q)
    (fun s => I s.acc ∧ ∀ u ∈ s.toTraverse, u.Ordered dist_fn) ?_ _ s ?_ hs
  · rintro ⟨acc, ts⟩ s' ⟨hI, hts⟩ ⟨_, hbody⟩
    change S.body dist_fn q ⟨acc, ts⟩ = .ok s' at hbody
    cases ts with
    | nil =>
      cases hbody
      exact ⟨hI, hts⟩
    | cons u ts =>
      have hbelow : ∀ u' ∈ ts, u'.Ordered dist_fn := fun u' hu' => hts u' (List.mem_cons_of_mem _ hu')
      cases u with
      | pointlist xs =>
        obtain ⟨acc', hacc, hok⟩ := (except_bind_eq_ok _ _ _).mp hbody
        cases hok
        exact ⟨hlist _ _ xs hI hacc, hbelow⟩
      | branch v r left right =>
        obtain ⟨acc', hacc, hok⟩ := (except_bind_eq_ok _ _ _).mp hbody
        cases hok
        obtain ⟨_, _, hol, hor⟩ := hts _ List.mem_cons_self
        refine ⟨hbranch _ _ v hI hacc, fun u hu => ?_⟩
        rcases mem_pushChildren hu with rfl | rfl | hu
        · exact hol
        · exact hor
        · exact hbelow u hu
  · refine ⟨hstart, ?_⟩
    intro u hu
    rw [List.mem_singleton.mp hu]
    exact ht

/-- For a search whose bound never becomes negative, the tests of a run are exact
exactly if they fit at every branch of the run. -/
theorem atBranches_exact_iff (hw : 0 < w) (hd : IsMetric fun x y => (dist_fn x y).val)
    (ht : t.Ordered dist_fn)
    (hbranch : ∀ a b v, I a → S.onBranch a v (dist_fn v q) = .ok b → I b)
    (hlist : ∀ a b xs, I a → S.onList a xs = .ok b → I b) (hstart : I start)
    (hbound : ∀ a, I a → 0 ≤ (S.bound a).val) :
    S.AtBranches dist_fn q t start (TestsExact dist_fn q) ↔
      S.AtBranches dist_fn q t start (fun bound item radius _ _ =>
        DiffFits (dist_fn item q) bound radius ∧ SumFits (dist_fn item q) bound radius) := by
  have hone (s : SearchState α (Word g w) σ)
      (hs : (S.loop dist_fn q).Reaches (.start start t) s) (v : α) (r : Word g w)
      (left right : VPNode α (Word g w)) (below : List (VPNode α (Word g w))) (acc : σ)
      (htop : s.toTraverse = .branch v r left right :: below)
      (hacc : S.onBranch s.acc v (dist_fn v q) = .ok acc) :=
    have hI := reaches_ordered ht hbranch hlist hstart hs
    testsExact_iff (q := q) (t := S.bound acc) hw hd (hI.2 _ (by rw [htop]; exact List.mem_cons_self))
      (hbound acc (hbranch _ _ v hI.1 hacc))
  constructor
  · intro h s hs v r left right below acc htop hacc
    exact (hone s hs v r left right below acc htop hacc).mp
      (h s hs v r left right below acc htop hacc)
  · intro h s hs v r left right below acc htop hacc
    exact (hone s hs v r left right below acc htop hacc).mpr
      (h s hs v r left right below acc htop hacc)

end Runs

section Searches

variable {dist_fn : α → α → Word g w} {t : VPNode α (Word g w)}

/-- After the update at a branch `closest_dist` is at most `dist`. -/
theorem closestDist_consider_le (c : Closest α (Word g w)) (v : α) (d : Word g w) :
    (c.consider v d).closestDist ≤ d := by
  unfold Closest.consider
  by_cases hlt : d < c.closestDist
  · rw [if_pos hlt]
  · rw [if_neg hlt]
    exact not_lt.mp hlt

/-- `VPT_nn` never takes away more than `dist`, so only its sum can wrap. -/
theorem nn_exact_iff (hw : 0 < w) (hd : IsMetric fun x y => (dist_fn x y).val)
    (ht : t.Ordered dist_fn) (q : α) :
    (nnSearch dist_fn q).AtBranches dist_fn q t ⟨none, largest g w⟩ (TestsExact dist_fn q) ↔
      (nnSearch dist_fn q).AtBranches dist_fn q t ⟨none, largest g w⟩ fun bound item radius _ _ =>
        SumFits (dist_fn item q) bound radius := by
  let I (c : Closest α (Word g w)) : Prop := 0 ≤ c.closestDist.val
  have hone (c : Closest α (Word g w)) (x : α) (hc : I c) : I (c.consider x (dist_fn x q)) := by
    unfold Closest.consider
    by_cases hlt : dist_fn x q < c.closestDist
    · rw [if_pos hlt]
      exact hd.nonneg x q
    · rwa [if_neg hlt]
  have hbranch (a b : Closest α (Word g w)) (v : α) (ha : I a)
      (h : (nnSearch dist_fn q).onBranch a v (dist_fn v q) = .ok b) : I b := by
    cases h
    exact hone a v ha
  have hlist (a b : Closest α (Word g w)) (xs : List α) (ha : I a)
      (h : (nnSearch dist_fn q).onList a xs = .ok b) : I b := by
    cases h
    induction xs generalizing a with
    | nil => exact ha
    | cons x xs ih => exact ih _ (hone a x ha)
  have hstart : I ⟨none, largest g w⟩ := by
    have hle := greatest_nonneg g hw
    rwa [← val_largest hw] at hle
  rw [atBranches_exact_iff (I := I) hw hd ht hbranch hlist hstart fun a ha => ha]
  constructor
  · intro h s hs v r left right below acc htop hacc
    exact (h s hs v r left right below acc htop hacc).2
  · intro h s hs v r left right below acc htop hacc
    -- The bound is read after the update, when it is at most `dist`.
    refine ⟨Or.inl ?_, h s hs v r left right below acc htop hacc⟩
    cases hacc
    have hle := le_iff_val.mp (closestDist_consider_le s.acc v (dist_fn v q))
    have hleast := least_nonpos g w
    change least g w ≤ (dist_fn v q).val-((s.acc.consider v (dist_fn v q)).closestDist).val
    omega

/-- The tests of `VPT_knn`, whose `tau` is `DIST_MAX` or the distance of an entry. -/
theorem knn_exact_iff (hw : 0 < w) (hd : IsMetric fun x y => (dist_fn x y).val)
    (hmax : ∀ x y, (dist_fn x y).val < greatest g w) (ht : t.Ordered dist_fn) (q : α) {k : ℕ}
    (hk : 1 ≤ k) :
    (knnSearch k dist_fn q).AtBranches dist_fn q t (knnStart (largest g w)) (TestsExact dist_fn q) ↔
      (knnSearch k dist_fn q).AtBranches dist_fn q t (knnStart (largest g w))
        fun bound item radius _ _ =>
          DiffFits (dist_fn item q) bound radius ∧ SumFits (dist_fn item q) bound radius := by
  let I (s : KnnState α (Word g w)) : Prop :=
    TauOfLive (largest g w) s ∧ ∀ e ∈ s.live, 0 ≤ e.distance.val
  have hcovers (a b : KnnState α (Word g w)) (xs : List α) (ha : ∀ e ∈ a.live, 0 ≤ e.distance.val)
      (h : Covers (fun x => dist_fn x q) a b xs) : ∀ e ∈ b.live, 0 ≤ e.distance.val := by
    intro e he
    rcases h.origin e he with hold | ⟨x, _, rfl⟩
    · exact ha e hold
    · exact hd.nonneg x q
  have hmax' (x : α) : dist_fn x q < largest g w := by
    rw [lt_iff_val, val_largest hw]
    exact hmax x q
  refine atBranches_exact_iff (I := I) hw hd ht ?_ ?_ ⟨tauOfLive_start _, ?_⟩ ?_
  · intro a b v ha h
    cases h
    exact ⟨ha.1.push hk v _, hcovers _ _ [v] ha.2 (ha.1.covers_push hk v)⟩
  · intro a b xs ha h
    cases h
    obtain ⟨hb, hcov⟩ := ha.1.considerList (fun x => dist_fn x q) hk xs fun x _ => hmax' x
    exact ⟨hb, hcovers _ _ xs ha.2 hcov⟩
  · intro e he
    exact absurd he List.not_mem_nil
  · rintro s ⟨hs, hlive⟩
    change 0 ≤ s.tau.val
    -- `tau` is `DIST_MAX` while nothing is in use.
    by_cases hnil : s.live = []
    · rw [hs.tau_empty hnil, val_largest hw]
      exact greatest_nonneg g hw
    · obtain ⟨e, he, hte⟩ := hs.tau_mem hnil
      rw [← hte]
      exact hlive e he

theorem within_exact_iff (hw : 0 < w) (hd : IsMetric fun x y => (dist_fn x y).val)
    (ht : t.Ordered dist_fn) (q : α) {max_dist : Word g w} (hmax : 0 ≤ max_dist.val)
    (realloc : ℕ → Option ℕ) (address : ℕ) :
    (withinSearch realloc dist_fn q max_dist).AtBranches dist_fn q t
        (withinStart (some address)) (TestsExact dist_fn q) ↔
      (withinSearch realloc dist_fn q max_dist).AtBranches dist_fn q t
        (withinStart (some address)) fun bound item radius _ _ =>
          DiffFits (dist_fn item q) bound radius ∧ SumFits (dist_fn item q) bound radius :=
  atBranches_exact_iff (I := fun _ => True) hw hd ht (fun _ _ _ _ _ => trivial)
    (fun _ _ _ _ _ => trivial) trivial fun _ _ => hmax

end Searches

/-- Ten points on a line, and their distances as 32-bit words. -/
def gridDist (g : Signedness) (x y : Fin 10) : Word g 32 :=
  ⟨BitVec.ofNat 32 (Int.natAbs ((x.val : ℤ)-y.val))⟩

theorem val_gridDist (g : Signedness) (x y : Fin 10) :
    (gridDist g x y).val = |(x.val : ℤ)-y.val| := by
  cases g with
  | signed =>
    revert x y
    decide
  | unsigned =>
    revert x y
    decide

theorem isMetric_gridDist (g : Signedness) : IsMetric fun x y => (gridDist g x y).val where
  dist_self x := by rw [val_gridDist, sub_self, abs_zero]
  eq_of_dist_eq_zero x y h := by
    rw [val_gridDist] at h
    have hval : (x.val : ℤ) = y.val := isMetric_int_abs_sub.eq_of_dist_eq_zero _ _ h
    exact Fin.ext (Int.ofNat_inj.mp hval)
  dist_comm x y := by rw [val_gridDist, val_gridDist, abs_sub_comm]
  dist_triangle x y z := by
    rw [val_gridDist, val_gridDist, val_gridDist]
    exact abs_sub_le _ _ _

theorem gridDist_lt (g : Signedness) (x y : Fin 10) :
    (gridDist g x y).val < greatest g 32 := by
  have hle : |(x.val : ℤ)-y.val| < 10 := by
    have hx := x.isLt
    have hy := y.isLt
    rw [abs_lt]
    omega
  have hlarge : 10 ≤ greatest g 32 := by
    cases g with
    | signed => decide
    | unsigned => decide
  rw [val_gridDist]
  omega

/-- A branch of radius 5 about 0, with 3 on the left and 9 on the right. -/
def gridTree (g : Signedness) : VPNode (Fin 10) (Word g 32) :=
  .branch 0 ⟨5⟩ (.pointlist [3]) (.pointlist [9])

theorem gridTree_ordered (g : Signedness) : (gridTree g).Ordered (gridDist g) := by
  cases g with
  | signed => decide
  | unsigned => decide

end VantagePoint
