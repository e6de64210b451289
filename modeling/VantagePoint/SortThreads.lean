import VantagePoint.Sort
import VantagePoint.DisjointThreads
import Mathlib.Data.Finset.Lattice.Fold
import Mathlib.Data.Fintype.Basic

/-! The subsorts of `mergesort` as threads. Each runs `shellsort` in place on its
part of the array, one loop test or assignment at a time, and the merge starts
when all of them have been joined. -/
namespace VantagePoint
open DisjointThreads

variable {α D : Type*}

section Code

/-- Where a thread stands in `shellsort`: at the test of one of its three loops,
with the variables in use there, or at its end. -/
inductive ShellPoint (α D : Type*) where
  | outer (interval : ℕ)
  | middle (interval i : ℕ)
  | inner (interval i j : ℕ) (temp : VPEntry α D)
  | done
deriving DecidableEq, Repr

variable [LinearOrder D]

/-- From one loop test of `shellsort` to the next; `arr` is the thread's sublist. -/
def shellStep : ShellPoint α D × List (VPEntry α D) → ShellPoint α D × List (VPEntry α D)
  | (.outer interval, arr) => (if interval > 0 then .middle interval interval else .done, arr)
  | (.middle interval i, arr) =>
    match arr[i]? with
    | some temp => (.inner interval i i temp, arr)
    | none => (.outer (interval/2), arr)
  | (.inner interval i j temp, arr) =>
    if j ≥ interval then
      match arr[j-interval]? with
      | some e =>
        if e.distance > temp.distance then (.inner interval i (j-interval) temp, arr.set j e)
        else (.middle interval (i+1), arr.set j temp)
      | none => (.middle interval (i+1), arr.set j temp)
    else (.middle interval (i+1), arr.set j temp)
  | (.done, arr) => (.done, arr)

omit [LinearOrder D] in
theorem each_mul_le (n i : ℕ) (hi : i ≤ mergesortNumThreads) :
    i*(n/mergesortNumThreads) ≤ n :=
  (Nat.mul_le_mul_right _ hi).trans (Nat.mul_div_le n _)

/-- `sublists[i].arr` and `sublists[i].n` -/
def sublistRanges (n : ℕ) : Ranges (Fin mergesortNumThreads) n where
  start i := i.val*(n/mergesortNumThreads)
  size i := if i.val+1 < mergesortNumThreads then n/mergesortNumThreads
    else n-i.val*(n/mergesortNumThreads)
  inside i := by
    have hle := each_mul_le n (i.val+1) i.isLt
    have hstart := each_mul_le n i.val i.isLt.le
    rw [Nat.succ_mul] at hle
    split
    · exact hle
    · omega
  apart i j hij := by
    -- the one with the smaller number ends where the next one begins, or before
    have hends (a b : Fin mergesortNumThreads) (hab : a.val < b.val) :
        a.val*(n/mergesortNumThreads)+(if a.val+1 < mergesortNumThreads then
          n/mergesortNumThreads else n-a.val*(n/mergesortNumThreads)) ≤
        b.val*(n/mergesortNumThreads) := by
      have hb := b.isLt
      rw [if_pos (by omega), ← Nat.succ_mul]
      exact Nat.mul_le_mul_right _ hab
    rcases Nat.lt_or_ge i.val j.val with hlt | hge
    · exact Or.inl (hends i j hlt)
    · refine Or.inr (hends j i ?_)
      have hne : i.val ≠ j.val := fun h => hij (Fin.ext h)
      omega

/-- The threads after they have run for a while, each starting with
`interval = n / 2` for the `n` of its own sublist. -/
def subsorts (arr : List (VPEntry α D)) (schedule : List (Fin mergesortNumThreads)) :
    Shared (Fin mergesortNumThreads) (ShellPoint α D) (VPEntry α D) :=
  run (sublistRanges arr.length) shellStep
    ⟨fun i => .outer ((sublistRanges arr.length).size i/2), arr⟩ schedule

/-- Every thread has come to its end. -/
def Joined (arr : List (VPEntry α D)) (schedule : List (Fin mergesortNumThreads)) : Prop :=
  ∀ i, (subsorts arr schedule).locals i = .done

theorem mergesortNumThreads_pos : 0 < mergesortNumThreads := by decide

/-- The cursors, `smallest_idx` and the scratch space after `m` rounds of the merge
of what is in the sublists. -/
def mergeSublists (big : VPEntry α D) (arr : List (VPEntry α D)) (m : ℕ) :
    KWayMerge.State (Fin mergesortNumThreads) (VPEntry α D) :=
  (KWayMerge.step VPEntry.distance (List.finRange mergesortNumThreads) (sublistOf arr) big)^[m]
    ⟨fun _ => 0, ⟨0, mergesortNumThreads_pos⟩, []⟩

/-- `VPSort` when the threads are scheduled as `schedule` says. -/
def vpSortThreads (big : VPEntry α D) (schedule : List (Fin mergesortNumThreads))
    (arr : List (VPEntry α D)) : List (VPEntry α D) :=
  if arr.length < sortThreshold then shellsort arr
  else (mergeSublists big (subsorts arr schedule).arr arr.length).out

end Code

section Thread

variable [LinearOrder D]

theorem length_shellStep (v : ShellPoint α D × List (VPEntry α D)) :
    (shellStep v).2.length = v.2.length := by
  obtain ⟨point, arr⟩ := v
  cases point with
  | outer interval => rfl
  | middle interval i =>
    rw [shellStep]
    cases arr[i]? with
    | none => rfl
    | some temp => rfl
  -- every assignment of the loop overwrites one cell
  | inner interval i j temp =>
    rw [shellStep]
    split
    · split
      · split
        · exact List.length_set
        · exact List.length_set
      · exact List.length_set
    · exact List.length_set
  | done => rfl

/-- The inner loop moves the hole as `shiftDown` does. -/
theorem shellStep_inner (interval i : ℕ) (hpos : 0 < interval) (temp : VPEntry α D) (fuel : ℕ)
    (arr : List (VPEntry α D)) (j : ℕ) (hj : j ≤ fuel) :
    ∃ k, shellStep^[k] (.inner interval i j temp, arr) =
      (.middle interval (i+1), shiftDown interval temp fuel arr j) := by
  induction fuel generalizing arr j with
  | zero =>
    -- The step that tests the guard for the last time puts `temp` in its place.
    have hstop : ¬ j ≥ interval := by omega
    refine ⟨1, ?_⟩
    rw [Function.iterate_one, shellStep, if_neg hstop]
    rfl
  | succ fuel ih =>
    unfold shiftDown
    by_cases hge : j ≥ interval
    · cases he : arr[j-interval]? with
      | none =>
        refine ⟨1, ?_⟩
        simp only [Function.iterate_one, shellStep, hge, ↓reduceIte, he]
      | some e =>
        by_cases hgt : e.distance > temp.distance
        · obtain ⟨k, hk⟩ := ih (arr.set j e) (j-interval) (by omega)
          refine ⟨k+1, ?_⟩
          rw [Function.iterate_succ_apply]
          simp only [shellStep, hge, ↓reduceIte, he, hgt]
          exact hk
        · refine ⟨1, ?_⟩
          simp only [Function.iterate_one, shellStep, hge, ↓reduceIte, he, hgt]
    · refine ⟨1, ?_⟩
      rw [Function.iterate_one, shellStep, if_neg hge, if_neg hge]

/-- The middle loop inserts the remaining entries. -/
theorem shellStep_middle (interval : ℕ) (hpos : 0 < interval) (m i : ℕ) (arr : List (VPEntry α D))
    (hm : m = arr.length-i) :
    ∃ k, shellStep^[k] (.middle interval i, arr) =
      (.outer (interval/2), (List.range' i m).foldl (insertAt interval) arr) := by
  induction m generalizing i arr with
  | zero =>
    refine ⟨1, ?_⟩
    have hnone : arr[i]? = none := List.getElem?_eq_none (by omega)
    simp only [Function.iterate_one, shellStep, hnone, List.range'_zero, List.foldl_nil]
  | succ m ih =>
    have hi : i < arr.length := by omega
    have hget : arr[i]? = some arr[i] := List.getElem?_eq_getElem hi
    obtain ⟨k, hk⟩ := shellStep_inner interval i hpos arr[i] i arr i le_rfl
    have hins : shiftDown interval arr[i] i arr i = insertAt interval arr i := by
      rw [insertAt, hget]
    rw [hins] at hk
    have hlen := (insertAt_perm interval arr i).length_eq
    obtain ⟨k', hk'⟩ := ih (i+1) (insertAt interval arr i) (by omega)
    refine ⟨k'+(k+1), ?_⟩
    -- One step reads `temp`, `k` steps insert it, `k'` steps do the rest.
    have hread : shellStep (.middle interval i, arr) = (.inner interval i i arr[i], arr) := by
      simp only [shellStep, hget]
    rw [Function.iterate_add_apply, Function.iterate_succ_apply, hread, hk, hk',
      List.range'_succ, List.foldl_cons]

theorem shellStep_outer (fuel interval : ℕ) (arr : List (VPEntry α D)) (hle : interval ≤ fuel) :
    ∃ k, shellStep^[k] (.outer interval, arr) = (.done, shellPasses fuel interval arr) := by
  induction fuel generalizing interval arr with
  | zero =>
    have hstop : ¬ interval > 0 := by omega
    refine ⟨1, ?_⟩
    rw [Function.iterate_one, shellStep, if_neg hstop]
    rfl
  | succ fuel ih =>
    unfold shellPasses
    by_cases hpos : interval > 0
    · obtain ⟨k, hk⟩ := shellStep_middle interval hpos (arr.length-interval) interval arr rfl
      -- Halving the gap leaves less fuel needed, as in `shellPasses`.
      obtain ⟨k', hk'⟩ := ih (interval/2) (insertPass interval arr) (by omega)
      refine ⟨k'+(k+1), ?_⟩
      have hpass : (List.range' interval (arr.length-interval)).foldl (insertAt interval) arr =
          insertPass interval arr := rfl
      rw [hpass] at hk
      have hstart : shellStep (.outer interval, arr) = (.middle interval interval, arr) := by
        rw [shellStep, if_pos hpos]
      rw [Function.iterate_add_apply, Function.iterate_succ_apply, hstart, hk, hk', if_pos hpos]
    · refine ⟨1, ?_⟩
      rw [Function.iterate_one, shellStep, if_neg hpos, if_neg hpos]

theorem shellStep_done (k : ℕ) (arr : List (VPEntry α D)) :
    shellStep^[k] (.done, arr) = (.done, arr) := by
  induction k with
  | zero => rfl
  | succ k ih =>
    rw [Function.iterate_succ_apply]
    exact ih

/-- A thread comes to its end, and then its sublist is what `shellsort` makes of it. -/
theorem shellStep_shellsort (arr : List (VPEntry α D)) :
    (∃ k, ∀ m, k ≤ m →
      shellStep^[m] (.outer (arr.length/2), arr) = (.done, shellsort arr)) ∧
    ∀ m, (shellStep^[m] (.outer (arr.length/2), arr)).1 = .done →
      (shellStep^[m] (.outer (arr.length/2), arr)).2 = shellsort arr := by
  obtain ⟨k, hk⟩ := shellStep_outer arr.length (arr.length/2) arr (Nat.div_le_self _ 2)
  have hafter : ∀ m, k ≤ m →
      shellStep^[m] (.outer (arr.length/2), arr) = (.done, shellsort arr) := by
    intro m hm
    obtain ⟨d, rfl⟩ := Nat.exists_eq_add_of_le' hm
    rw [Function.iterate_add_apply, hk]
    exact shellStep_done d _
  refine ⟨⟨k, hafter⟩, ?_⟩
  intro m hdone
  -- From an end reached early the thread does not move any more.
  cases hv : shellStep^[m] (.outer (arr.length/2), arr) with
  | mk point arr' =>
    rw [hv] at hdone
    have hlate := hafter (k+m) (Nat.le_add_right _ _)
    have hpoint : point = .done := hdone
    rw [Function.iterate_add_apply, hv, hpoint, shellStep_done] at hlate
    exact (Prod.mk.inj hlate).2

end Thread

section Threads

variable [LinearOrder D]

omit [LinearOrder D] in
theorem sublistOf_eq_slice (arr : List (VPEntry α D)) (i : Fin mergesortNumThreads) :
    sublistOf arr i = Segment.slice ((sublistRanges arr.length).start i)
      ((sublistRanges arr.length).size i) arr := by
  unfold sublistOf sublistRanges Segment.slice
  dsimp only
  split
  · rfl
  · rw [List.take_of_length_le]
    rw [List.length_drop]

theorem subsorts_view (arr : List (VPEntry α D)) (schedule : List (Fin mergesortNumThreads))
    (i : Fin mergesortNumThreads) :
    ((subsorts arr schedule).locals i, sublistOf (subsorts arr schedule).arr i) =
        shellStep^[schedule.count i] (.outer ((sublistOf arr i).length/2), sublistOf arr i) ∧
      (subsorts arr schedule).arr.length = arr.length := by
  let r := sublistRanges arr.length
  obtain ⟨hview, hlen⟩ := view_run (r := r) length_shellStep schedule
    (s := ⟨fun i => .outer (r.size i/2), arr⟩) rfl i
  refine ⟨?_, hlen⟩
  have hsize : (sublistOf arr i).length = r.size i := by
    rw [sublistOf_eq_slice]
    exact Segment.length_slice (r.inside i)
  -- The bounds of the sublists depend on the length only, which no step changes.
  have hnow : sublistOf (subsorts arr schedule).arr i =
      Segment.slice (r.start i) (r.size i) (subsorts arr schedule).arr := by
    rw [sublistOf_eq_slice]
    change (subsorts arr schedule).arr.length = arr.length at hlen
    rw [hlen]
  rw [hsize, hnow, sublistOf_eq_slice arr i]
  exact hview

/-- A schedule that gives every thread enough steps comes to the join. -/
theorem exists_joined (arr : List (VPEntry α D)) :
    ∃ k, ∀ schedule : List (Fin mergesortNumThreads),
      (∀ i, k ≤ schedule.count i) → Joined arr schedule := by
  -- Each thread has a number of steps of its own; the largest of them will do for all.
  have hone (i : Fin mergesortNumThreads) := (shellStep_shellsort (sublistOf arr i)).1
  choose k hk using hone
  refine ⟨Finset.univ.sup k, ?_⟩
  intro schedule hsched i
  have henough : k i ≤ schedule.count i := (Finset.le_sup (Finset.mem_univ i)).trans (hsched i)
  have hview := (subsorts_view arr schedule i).1
  rw [hk i _ henough] at hview
  exact (Prod.mk.inj hview).1

/-- When the threads have been joined every sublist has been sorted on its own. -/
theorem sublistOf_subsorts {arr : List (VPEntry α D)} {schedule : List (Fin mergesortNumThreads)}
    (hjoin : Joined arr schedule) (i : Fin mergesortNumThreads) :
    sublistOf (subsorts arr schedule).arr i = shellsort (sublistOf arr i) := by
  have hview := (subsorts_view arr schedule i).1
  have hpoint := hjoin i
  rw [hpoint] at hview
  obtain ⟨hdone, hsub⟩ := Prod.mk.inj hview
  rw [hsub]
  exact (shellStep_shellsort (sublistOf arr i)).2 _ hdone.symm

/-- The order in which the threads run does not matter. -/
theorem vpSortThreads_eq {big : VPEntry α D} {arr : List (VPEntry α D)}
    {schedule : List (Fin mergesortNumThreads)} (hjoin : Joined arr schedule) :
    vpSortThreads big schedule arr = vpSort big arr := by
  have hruns : sublistOf (subsorts arr schedule).arr = fun i => shellsort (sublistOf arr i) :=
    funext (sublistOf_subsorts hjoin)
  rw [vpSortThreads, vpSort, mergeSublists, hruns]
  rfl

/-- `VPSort` sorts, whatever the order in which the subsorts run: every schedule
that lets them run long enough comes to the join, the array is then permuted into
ascending order, and each round of the merge takes an entry not yet consumed. -/
theorem vpSort_any_schedule (big : VPEntry α D) (arr : List (VPEntry α D))
    (hbig : ∀ e ∈ arr, e.distance ≤ big.distance) :
    (∃ k, ∀ schedule : List (Fin mergesortNumThreads),
      (∀ i, k ≤ schedule.count i) → Joined arr schedule) ∧
    ∀ schedule, Joined arr schedule →
      (vpSortThreads big schedule arr).Perm arr ∧
      SortedByDistance (vpSortThreads big schedule arr) ∧
      ∀ m < arr.length, ∃ j e,
        (sublistOf (subsorts arr schedule).arr j)[
          (mergeSublists big (subsorts arr schedule).arr m).pos j]? = some e ∧
        mergeSublists big (subsorts arr schedule).arr (m+1) =
          ⟨Function.update (mergeSublists big (subsorts arr schedule).arr m).pos j
              ((mergeSublists big (subsorts arr schedule).arr m).pos j+1), j,
            (mergeSublists big (subsorts arr schedule).arr m).out ++ [e]⟩ := by
  refine ⟨exists_joined arr, ?_⟩
  intro schedule hjoin
  rw [vpSortThreads_eq hjoin]
  obtain ⟨hperm, hsorted⟩ := vpSort_spec big arr hbig
  refine ⟨hperm, hsorted, ?_⟩
  intro m hm
  have hsub : ((List.finRange mergesortNumThreads).flatMap
      (sublistOf (subsorts arr schedule).arr)).Perm arr := by
    have hp := List.Perm.flatMap_left (List.finRange mergesortNumThreads)
      (fun i _ => shellsort_perm (sublistOf arr i))
    rw [flatMap_sublistOf] at hp
    rwa [funext (sublistOf_subsorts hjoin)]
  have hruns : ∀ i ∈ List.finRange mergesortNumThreads,
      SortedByDistance (sublistOf (subsorts arr schedule).arr i) := by
    intro i _
    rw [sublistOf_subsorts hjoin]
    exact shellsort_sorted _
  obtain ⟨j, _, e, hget, hstep⟩ := KWayMerge.iterate_takes (List.nodup_finRange _) hruns
    (fun e he => hbig e (hsub.mem_iff.mp he)) ⟨0, by decide⟩ m (by rwa [hsub.length_eq])
  exact ⟨j, e, hget, hstep⟩

end Threads

/-- Two thousand entries, every second of them at the distance of the sentinel. -/
def levelEntries : List (VPEntry ℕ ℕ) := (List.range 2000).map fun n => ⟨n, 100-n%2⟩

/-- The threads one after another are one way to run them. -/
theorem vpSort_any_schedule_level :
    ∃ schedule, Joined levelEntries schedule ∧
      (vpSortThreads ⟨0, 100⟩ schedule levelEntries).Perm levelEntries ∧
      SortedByDistance (vpSortThreads ⟨0, 100⟩ schedule levelEntries) := by
  have hbig : ∀ e ∈ levelEntries, e.distance ≤ (⟨0, 100⟩ : VPEntry ℕ ℕ).distance := by
    intro e he
    obtain ⟨n, _, rfl⟩ := List.mem_map.mp he
    exact Nat.sub_le _ _
  obtain ⟨⟨k, hk⟩, hsorts⟩ := vpSort_any_schedule ⟨0, 100⟩ levelEntries hbig
  have hjoin := hk ((List.finRange mergesortNumThreads).flatMap (List.replicate k)) fun i => by
    rw [← List.replicate_sublist_iff]
    exact List.sublist_flatten_of_mem (List.mem_map_of_mem (List.mem_finRange i))
  obtain ⟨hperm, hsorted, _⟩ := hsorts _ hjoin
  exact ⟨_, hjoin, hperm, hsorted⟩

end VantagePoint
