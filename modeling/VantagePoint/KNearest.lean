import VantagePoint.Search
import VantagePoint.CandidateList
import VantagePoint.Smallest
import VantagePoint.NearestNeighbour
import Mathlib.Data.List.Perm.Subperm

/-! `VPT_knn`, and exactly when it meets its contract. While fewer than k points
have been met, `tau` is the largest distance met so far and not yet a bound on
the answer, but the list filter and the pruning tests use it all the same. -/
namespace VantagePoint
open WhileLoop GroupMetric Smallest

variable {α D : Type*}

section Code

variable [LinearOrder D]

/-- Loop body over a list node: `if (vplist_distances[i] < tau) { push }`. -/
def KnnState.considerListItem (k : ℕ) (s : KnnState α D) (item : α) (dist : D) : KnnState α D :=
  if dist < s.tau then s.push k item dist else s

def knnSearch (k : ℕ) (dist_fn : α → α → D) (datapoint : α) : Search α D (KnnState α D) Empty where
  onBranch s item dist := .ok (s.push k item dist)
  onList s vplist :=
    let vplistDistances := vplist.map fun x => dist_fn x datapoint
    .ok ((vplist.zip vplistDistances).foldl (fun s p => s.considerListItem k p.1 p.2) s)
  bound s := s.tau

def knnStart (DIST_MAX : D) : KnnState α D := ⟨[], 0, DIST_MAX⟩

/-- The contents of `result_space[0..num_results)` and `*num_results`. -/
def vptKnn [Add D] [Sub D] (dist_fn : α → α → D) (DIST_MAX : D) (root : VPNode α D) (size : ℕ)
    (datapoint : α) (k : ℕ) : List (VPEntry α D) × ℕ :=
  if size = 0 ∨ k = 0 then ([], 0)
  else
    let s := (loopValue (((knnSearch k dist_fn datapoint).loop dist_fn datapoint).run
      root.nodeCount (.start (knnStart DIST_MAX) root))).acc
    (s.knnlist.take s.knnlistSize, s.knnlistSize)

/-- The contract: `num_results = min(k, size)` entries in ascending order, stored
points with their true distances, and no k points of the tree are closer. -/
structure IsKNearest (dist : α → D) (k : ℕ) (stored : List α)
    (result : List (VPEntry α D) × ℕ) : Prop where
  count : result.2 = min k stored.length
  length : result.1.length = result.2
  ascending : SortedByDistance result.1
  subperm : (result.1.map VPEntry.item).Subperm stored
  distances : ∀ e ∈ result.1, e.distance = dist e.item
  smallest : result.1.map VPEntry.distance = smallest result.2 (stored.map dist)

/-- A walk that stops once k points have been met: how many, the largest of
their distances, and the points it went past. -/
structure Walk (α D : Type*) where
  met : ℕ
  far : Option D
  missed : List α
deriving DecidableEq, Repr

def Walk.meet (k : ℕ) (dist : D) (w : Walk α D) : Walk α D :=
  if k ≤ w.met then w else
    { w with met := w.met+1, far := some (w.far.elim dist fun f => max f dist) }

def Walk.miss (k : ℕ) (xs : List α) (w : Walk α D) : Walk α D :=
  if k ≤ w.met then w else { w with missed := xs ++ w.missed }

/-- A list point counts as met when it is nearer than the farthest point so far. -/
def Walk.point (k : ℕ) (dist : α → D) (w : Walk α D) (x : α) : Walk α D :=
  if ∀ f ∈ w.far, dist x < f then w.meet k (dist x) else w.miss k [x]

/-- Where the query lies inside the ball of a branch the right subtree comes
first, and is missed when even the farthest point so far does not reach it. -/
def VPNode.walk [Add D] (k : ℕ) (dist_fn : α → α → D) (q : α) : VPNode α D → Walk α D → Walk α D
  | .branch item radius left right, w =>
    let dist := dist_fn item q
    let w := w.meet k dist
    if dist < radius then
      left.walk k dist_fn q
        (if ∀ f ∈ w.far, dist+f ≥ radius then right.walk k dist_fn q w
          else w.miss k right.items)
    else right.walk k dist_fn q (left.walk k dist_fn q w)
  | .pointlist items, w => items.foldl (Walk.point k fun x => dist_fn x q) w

/-- At least min(k, size) points that the walk did not miss are at most as far
as each point that it did. -/
def WalkSuffices [Add D] (k : ℕ) (dist_fn : α → α → D) (q : α) (t : VPNode α D) : Prop :=
  let missed := (t.walk k dist_fn q ⟨0, none, []⟩).missed
  ∀ y ∈ missed, min k t.items.length+missed.countP (fun x => dist_fn x q ≤ dist_fn y q) ≤
    t.items.countP fun x => dist_fn x q ≤ dist_fn y q

instance [Add D] (k : ℕ) (dist_fn : α → α → D) (q : α) (t : VPNode α D) :
    Decidable (WalkSuffices k dist_fn q t) :=
  inferInstanceAs (Decidable (∀ y ∈ (t.walk k dist_fn q ⟨0, none, []⟩).missed, _ ≤ _))

end Code

section WalkFacts

variable [LinearOrder D]

theorem meet_of_full {k : ℕ} {w : Walk α D} (h : k ≤ w.met) (d : D) : w.meet k d = w := if_pos h

omit [LinearOrder D] in
theorem miss_of_full {k : ℕ} {w : Walk α D} (h : k ≤ w.met) (xs : List α) : w.miss k xs = w :=
  if_pos h

theorem point_of_full {k : ℕ} {w : Walk α D} (h : k ≤ w.met) (dist : α → D) (x : α) :
    w.point k dist x = w := by
  simp only [Walk.point, meet_of_full h, miss_of_full h, ite_self]

theorem foldl_point_of_full {k : ℕ} {w : Walk α D} (h : k ≤ w.met) (dist : α → D) (xs : List α) :
    xs.foldl (Walk.point k dist) w = w := by
  induction xs with
  | nil => rfl
  | cons x xs ih => rw [List.foldl_cons, point_of_full h, ih]

theorem walk_branch [Add D] (k : ℕ) (w : Walk α D) (dist_fn : α → α → D) (q v : α) (r : D)
    (left right : VPNode α D) :
    (VPNode.branch v r left right).walk k dist_fn q w =
      if dist_fn v q < r then
        left.walk k dist_fn q
          (if ∀ f ∈ (w.meet k (dist_fn v q)).far, dist_fn v q+f ≥ r then
            right.walk k dist_fn q (w.meet k (dist_fn v q))
          else (w.meet k (dist_fn v q)).miss k right.items)
      else right.walk k dist_fn q (left.walk k dist_fn q (w.meet k (dist_fn v q))) := rfl

/-- The walk is over once k points have been met. -/
theorem walk_of_full [Add D] {k : ℕ} {w : Walk α D} (h : k ≤ w.met) (dist_fn : α → α → D) (q : α)
    (t : VPNode α D) : t.walk k dist_fn q w = w := by
  induction t with
  | pointlist xs => exact foldl_point_of_full h _ xs
  | branch v r left right ihl ihr =>
    rw [walk_branch]
    simp only [meet_of_full h, miss_of_full h, ihl, ihr, ite_self]

theorem walk_of_no_items [Add D] (k : ℕ) (w : Walk α D) (dist_fn : α → α → D) (q : α)
    (t : VPNode α D) (ht : t.items = []) : t.walk k dist_fn q w = w := by
  cases t with
  | branch v r left right => cases ht
  | pointlist xs =>
    cases ht
    rfl

end WalkFacts

section Invariant

variable [LinearOrder D] {dist : α → D} {DIST_MAX : D} {k : ℕ}

/-- `P` are the entries pushed so far, `Z` the points passed over since the list
became full. While it is filling, the walk keeps step with the search. -/
structure KnnInv (dist : α → D) (DIST_MAX : D) (k : ℕ) (s : KnnState α D) (w : Walk α D)
    (P : List (VPEntry α D)) (Z : List α) : Prop where
  size : s.knnlistSize = min k P.length
  fits : s.knnlistSize ≤ s.knnlist.length
  sorted : SortedByDistance s.live
  dists : s.live.map VPEntry.distance = smallest k (P.map VPEntry.distance)
  sub : s.live.Subperm P
  le_tau : ∀ e ∈ s.live, e.distance ≤ s.tau
  tau_mem : P ≠ [] → ∃ e ∈ s.live, e.distance = s.tau
  tau_empty : P = [] → s.tau = DIST_MAX
  distances : ∀ e ∈ P, e.distance = dist e.item
  filling : w.met < k → P.length = w.met ∧ Z = [] ∧ (∀ f, w.far = some f ↔ P ≠ [] ∧ f = s.tau)
  full : k ≤ w.met → k ≤ P.length ∧ ∀ z ∈ Z, s.tau ≤ dist z

theorem KnnInv.live_length {s : KnnState α D} {w : Walk α D} {P : List (VPEntry α D)} {Z : List α}
    (h : KnnInv dist DIST_MAX k s w P Z) : s.live.length = min k P.length := by
  rw [KnnState.live, List.length_take_of_le h.fits, h.size]

/-- While the list is filling nothing has been dropped from it. -/
theorem KnnInv.le_tau_of_filling {s : KnnState α D} {w : Walk α D} {P : List (VPEntry α D)}
    {Z : List α} (h : KnnInv dist DIST_MAX k s w P Z) (hw : w.met < k) :
    ∀ e ∈ P, e.distance ≤ s.tau := by
  have hlen := (h.filling hw).1
  have hp : s.live.Perm P := by
    apply h.sub.perm_of_length_le
    rw [h.live_length]
    omega
  intro e he
  exact h.le_tau e (hp.mem_iff.mpr he)

/-- Once the list is full, every point at `tau` or beyond has k pushed points at
or below it. -/
theorem KnnInv.rank_of_full {s : KnnState α D} {w : Walk α D} {P : List (VPEntry α D)}
    {Z : List α} (h : KnnInv dist DIST_MAX k s w P Z) (hP : k ≤ P.length) {y : D}
    (hy : s.tau ≤ y) : k ≤ rank (P.map VPEntry.distance) y := by
  have hall : rank (s.live.map VPEntry.distance) y = s.live.length := by
    rw [rank, List.countP_map, List.countP_eq_length]
    intro e he
    simpa using (h.le_tau e he).trans hy
  rw [h.dists, rank_smallest, h.live_length] at hall
  omega

theorem knnInv_start (hk : 0 < k) :
    KnnInv dist DIST_MAX k (knnStart DIST_MAX) (⟨0, none, []⟩ : Walk α D) [] [] where
  size := (Nat.min_zero k).symm
  fits := le_rfl
  sorted := List.Pairwise.nil
  dists := by simp [knnStart, KnnState.live, Smallest.smallest]
  sub := List.nil_subperm
  le_tau e he := by simp [knnStart, KnnState.live] at he
  tau_mem h := absurd rfl h
  tau_empty _ := rfl
  distances e he := absurd he List.not_mem_nil
  filling _ := ⟨rfl, rfl, by simp⟩
  full h := absurd h (not_le.mpr hk)

/-- A push, by the search and in the walk. -/
theorem KnnInv.push (hk : 0 < k) {s : KnnState α D} {w : Walk α D} {P : List (VPEntry α D)}
    {Z : List α} (h : KnnInv dist DIST_MAX k s w P Z) (x : α) :
    KnnInv dist DIST_MAX k (s.push k x (dist x)) (w.meet k (dist x)) (⟨x, dist x⟩ :: P) Z := by
  have hins : (insertByDistance ⟨x, dist x⟩ s.live).length = s.live.length+1 :=
    insertByDistance_length _ _
  have hllen := h.live_length
  have hlive : (s.push k x (dist x)).live = (insertByDistance ⟨x, dist x⟩ s.live).take k := by
    rw [push_live k s x (dist x) h.fits h.sorted, h.size]
    -- Nothing is dropped while there is room; afterwards the last entry is.
    rcases Nat.lt_or_ge P.length k with hlt | hge
    · have hmin : min (min k P.length+1) k = min k P.length+1 := by omega
      rw [hmin, List.take_of_length_le (by omega), List.take_of_length_le (by omega)]
    · have hmin : min (min k P.length+1) k = k := by omega
      rw [hmin]
  -- The remaining fields follow the cases of `w.met < k` after the push.
  obtain ⟨hle, htop⟩ := push_tau k hk s x (dist x) h.fits h.sorted
  have hsorted := insertByDistance_sorted ⟨x, dist x⟩ h.sorted
  have hdists : (s.push k x (dist x)).live.map VPEntry.distance =
      smallest k ((⟨x, dist x⟩ :: P).map VPEntry.distance) := by
    rw [hlive, List.map_take, List.map_cons]
    apply smallest_cons _ _ _ _ (sortedByDistance_map.mp hsorted)
    rw [← h.dists]
    exact (insertByDistance_perm _ _).map VPEntry.distance
  have hsub : (s.push k x (dist x)).live.Subperm (⟨x, dist x⟩ :: P) := by
    rw [hlive]
    apply (List.take_sublist _ _).subperm.trans
    exact (insertByDistance_perm _ _).subperm.trans ((List.subperm_cons _).mpr h.sub)
  refine ⟨?_, push_fits k s x (dist x) h.fits h.sorted, ?_, hdists, hsub, hle, fun _ => htop,
    fun hnil => absurd hnil (List.cons_ne_nil _ _), ?_, ?_, ?_⟩
  · change min (s.knnlistSize+1) k = min k (P.length+1)
    rw [h.size]
    omega
  · rw [hlive]
    exact hsorted.sublist (List.take_sublist _ _)
  · intro e he
    rcases List.mem_cons.mp he with rfl | he
    · rfl
    · exact h.distances e he
  · -- still filling: nothing is dropped, so the new tau is the larger of two
    intro hw
    have hmet : w.met < k := by
      by_contra hn
      rw [meet_of_full (not_lt.mp hn)] at hw
      exact hn hw
    obtain ⟨hlen, hZ, hfar⟩ := h.filling hmet
    have hm : w.meet k (dist x) = { w with
        met := w.met+1, far := some (w.far.elim (dist x) fun f => max f (dist x)) } :=
      if_neg (not_le.mpr hmet)
    have hroom : w.met+1 < k := by rwa [hm] at hw
    have hperm : (s.push k x (dist x)).live.Perm (⟨x, dist x⟩ :: s.live) := by
      rw [hlive, List.take_of_length_le (by omega)]
      exact insertByDistance_perm _ _
    have hx : dist x ≤ (s.push k x (dist x)).tau := hle _ (hperm.mem_iff.mpr List.mem_cons_self)
    have htau : (s.push k x (dist x)).tau = w.far.elim (dist x) fun f => max f (dist x) := by
      obtain ⟨e, he, het⟩ := htop
      -- the first push sets `tau`, a later one raises it to the maximum
      cases hf : w.far with
      | none =>
        have hP : P = [] := by
          by_contra hne
          have := (hfar s.tau).mpr ⟨hne, rfl⟩
          rw [hf] at this
          cases this
        have hnil : s.live = [] := List.eq_nil_of_length_eq_zero (by rw [hllen, hP]; simp)
        have hmem := hperm.mem_iff.mp he
        rw [hnil, List.mem_singleton] at hmem
        rw [← het, hmem]
        rfl
      | some f =>
        obtain ⟨hne, rfl⟩ := (hfar f).mp hf
        obtain ⟨e', he', het'⟩ := h.tau_mem hne
        apply le_antisymm
        · rw [← het]
          rcases List.mem_cons.mp (hperm.mem_iff.mp he) with rfl | hold
          · exact le_max_right _ _
          · exact (h.le_tau e hold).trans (le_max_left _ _)
        · apply max_le _ hx
          rw [← het']
          exact hle e' (hperm.mem_iff.mpr (List.mem_cons_of_mem _ he'))
    refine ⟨by rw [hm, List.length_cons, hlen], hZ, ?_⟩
    intro f
    rw [hm, htau]
    constructor
    · intro hf
      exact ⟨List.cons_ne_nil _ _, (Option.some.inj hf).symm⟩
    · rintro ⟨_, hf⟩
      rw [hf]
  · intro hw
    rw [List.length_cons]
    -- this push may be the one that fills the list
    rcases Nat.lt_or_ge w.met k with hmet | hmet
    · obtain ⟨hlen, hZ, _⟩ := h.filling hmet
      have hm : (w.meet k (dist x)).met = w.met+1 := by
        rw [Walk.meet, if_neg (not_le.mpr hmet)]
      refine ⟨by omega, fun z hz => ?_⟩
      rw [hZ] at hz
      exact absurd hz List.not_mem_nil
    · obtain ⟨hP, hZ⟩ := h.full hmet
      refine ⟨by omega, fun z hz => le_trans ?_ (hZ z hz)⟩
      -- the new k smallest all lie at or below the old tau
      obtain ⟨e, he, het⟩ := htop
      have hr := h.rank_of_full hP (le_refl s.tau)
      have hrank : rank ((s.push k x (dist x)).live.map VPEntry.distance) s.tau = k := by
        rw [hdists, rank_smallest, List.map_cons]
        have hmono : rank (P.map VPEntry.distance) s.tau ≤
            rank ((⟨x, dist x⟩ : VPEntry α D).distance :: P.map VPEntry.distance) s.tau :=
          (List.sublist_cons_self _ _).countP_le
        omega
      have hlen : (s.push k x (dist x)).live.length = k := by
        rw [hlive, List.length_take_of_le]
        omega
      rw [← het]
      have hall : ∀ d ∈ (s.push k x (dist x)).live.map VPEntry.distance, decide (d ≤ s.tau) = true := by
        rw [← List.countP_eq_length, List.length_map, hlen]
        exact hrank
      simpa using hall e.distance (List.mem_map_of_mem he)

end Invariant

end VantagePoint
