import VantagePoint.EntryOrder
import VantagePoint.KWayMerge
import Mathlib.Data.List.Induction
import Mathlib.Data.List.FinRange

/-! `vpsort.h`: shell sort, the eight-way merge sort and the choice between
them. `big` is the merge sentinel: its distance is `(dist_t) INFINITY`, its item
is never initialised. -/
namespace VantagePoint

variable {α D : Type*}

section Code

variable [LinearOrder D]

/-- Inner loop of `shellsort`: the hole at `j` moves down by `interval` while the
entry below it is larger than `temp`, which then fills it. `j` is fuel enough. -/
def shiftDown (interval : ℕ) (temp : VPEntry α D) :
    ℕ → List (VPEntry α D) → ℕ → List (VPEntry α D)
  | 0, arr, j => arr.set j temp
  | fuel+1, arr, j =>
    if j ≥ interval then
      match arr[j-interval]? with
      | some e =>
        if e.distance > temp.distance then
          shiftDown interval temp fuel (arr.set j e) (j-interval)
        else arr.set j temp
      | none => arr.set j temp
    else arr.set j temp

def insertAt (interval : ℕ) (arr : List (VPEntry α D)) (i : ℕ) : List (VPEntry α D) :=
  match arr[i]? with
  | some temp => shiftDown interval temp i arr i
  | none => arr

/-- `for (i = interval; i < n; i += 1)` -/
def insertPass (interval : ℕ) (arr : List (VPEntry α D)) : List (VPEntry α D) :=
  (List.range' interval (arr.length-interval)).foldl (insertAt interval) arr

/-- `for (interval = n / 2; interval > 0; interval /= 2)` -/
def shellPasses : ℕ → ℕ → List (VPEntry α D) → List (VPEntry α D)
  | 0, _, arr => arr
  | fuel+1, interval, arr =>
    if interval > 0 then shellPasses fuel (interval/2) (insertPass interval arr) else arr

def shellsort (arr : List (VPEntry α D)) : List (VPEntry α D) :=
  shellPasses arr.length (arr.length/2) arr

/-- `MERGESORT_NUM_THREADS` -/
def mergesortNumThreads : ℕ := 8

/-- The i-th sublist before sorting: all have `n / num_threads` entries, but for
the last one, which takes what is left. -/
def sublistOf (arr : List (VPEntry α D)) (i : Fin mergesortNumThreads) : List (VPEntry α D) :=
  -- `num_threads - 1` sublists of equal size; integer division leaves the rest
  let each := arr.length/mergesortNumThreads
  if i.val+1 < mergesortNumThreads then (arr.drop (i.val*each)).take each
  else arr.drop (i.val*each)

/-- `mergesort`. The subsorts work on disjoint ranges, so they are done side by
side; the merge writes to scratch space, which is copied back. -/
def mergesort (big : VPEntry α D) (arr : List (VPEntry α D)) : List (VPEntry α D) :=
  let sublists (i : Fin mergesortNumThreads) := shellsort (sublistOf arr i)
  ((KWayMerge.step VPEntry.distance (List.finRange mergesortNumThreads) sublists big)^[arr.length]
    ⟨fun _ => 0, ⟨0, by decide⟩, []⟩).out

/-- `SORT_THRESHOLD` -/
def sortThreshold : ℕ := 2000

/-- `VPSort` -/
def vpSort (big : VPEntry α D) (arr : List (VPEntry α D)) : List (VPEntry α D) :=
  if arr.length < sortThreshold then shellsort arr else mergesort big arr

end Code

section Shell

variable [LinearOrder D]

/-- Moving the hole is swapping `temp` with the entry that fills it. -/
theorem shiftDown_perm (interval : ℕ) (temp : VPEntry α D) (fuel : ℕ) (arr : List (VPEntry α D))
    (j : ℕ) (hj : j < arr.length) :
    (shiftDown interval temp fuel arr j).Perm (arr.set j temp) := by
  -- Induction on the fuel: the hole moves from `j` to `j - interval`.
  induction fuel generalizing arr j with
  | zero => exact List.Perm.refl _
  | succ fuel ih =>
    unfold shiftDown
    split
    · rename_i hge
      have hlt : j-interval < arr.length := by omega
      rw [List.getElem?_eq_getElem hlt]
      dsimp only
      split
      -- the entry moves up into the hole, and `temp` is still to be placed below
      · have hi := ih (arr.set j arr[j-interval]) (j-interval) (by rwa [List.length_set])
        apply hi.trans
        rcases Nat.eq_zero_or_pos interval with rfl | hpos
        · simp only [Nat.sub_zero, List.set_set]
          exact List.Perm.refl _
        · have hne : j ≠ j-interval := by omega
          have hj' : j < (arr.set j temp).length := by rwa [List.length_set]
          have hlt' : j-interval < (arr.set j temp).length := by rwa [List.length_set]
          have hswap := List.set_set_perm hj' hlt'
          rw [List.getElem_set_self, List.getElem_set_ne hne, List.set_set] at hswap
          exact hswap
      · exact List.Perm.refl _
    · exact List.Perm.refl _

theorem insertAt_perm (interval : ℕ) (arr : List (VPEntry α D)) (i : ℕ) :
    (insertAt interval arr i).Perm arr := by
  unfold insertAt
  cases hi : arr[i]? with
  | none => exact List.Perm.refl _
  | some temp =>
    obtain ⟨hlt, he⟩ := List.getElem?_eq_some_iff.mp hi
    have hp := shiftDown_perm interval temp i arr i hlt
    have hset : arr.set i temp = arr := by rw [← he, List.set_getElem_self]
    rwa [hset] at hp

theorem foldl_insertAt_perm (interval : ℕ) (is : List ℕ) (arr : List (VPEntry α D)) :
    (is.foldl (insertAt interval) arr).Perm arr := by
  induction is generalizing arr with
  | nil => exact List.Perm.refl _
  | cons i is ih => exact (ih _).trans (insertAt_perm interval arr i)

theorem shellPasses_perm (fuel interval : ℕ) (arr : List (VPEntry α D)) :
    (shellPasses fuel interval arr).Perm arr := by
  induction fuel generalizing interval arr with
  | zero => exact List.Perm.refl _
  | succ fuel ih =>
    unfold shellPasses
    split
    · exact (ih _ _).trans (foldl_insertAt_perm _ _ _)
    · exact List.Perm.refl _

theorem shellsort_perm (arr : List (VPEntry α D)) : (shellsort arr).Perm arr :=
  shellPasses_perm _ _ arr

/-- With interval 1 the hole sinks to the place of `temp` in a sorted prefix. -/
theorem shiftDown_one (temp x : VPEntry α D) (pre post : List (VPEntry α D)) (fuel : ℕ)
    (hfuel : pre.length ≤ fuel) (h : SortedByDistance pre) :
    shiftDown 1 temp fuel (pre ++ x :: post) pre.length = insertByDistance temp pre ++ post := by
  have hset (ys : List (VPEntry α D)) (y e : VPEntry α D) (zs : List (VPEntry α D)) :
      (ys ++ y :: zs).set ys.length e = ys ++ e :: zs := by
    rw [List.set_append_right _ _ le_rfl, Nat.sub_self]
    rfl
  -- The hole meets the prefix from its last entry, so the induction peels the
  -- prefix from behind.
  induction pre using List.reverseRecOn generalizing x post fuel with
  | nil =>
    cases fuel with
    | zero => rfl
    | succ fuel => rfl
  | append_singleton pre b ih =>
    have hpre : SortedByDistance pre := h.sublist (List.sublist_append_left _ _)
    have hlen : (pre ++ [b]).length = pre.length+1 := List.length_append
    rw [hlen] at hfuel ⊢
    obtain ⟨fuel, rfl⟩ := Nat.exists_eq_add_of_le' (Nat.le_trans (Nat.le_add_left 1 _) hfuel)
    have hget : (pre ++ [b] ++ x :: post)[pre.length]? = some b := by
      rw [List.append_assoc, List.getElem?_append_right le_rfl, Nat.sub_self]
      rfl
    unfold shiftDown
    rw [if_pos (Nat.le_add_left 1 _), Nat.add_sub_cancel, hget]
    dsimp only
    have hput (e : VPEntry α D) : (pre ++ [b] ++ x :: post).set (pre.length+1) e =
        pre ++ [b] ++ e :: post := by
      rw [← hlen]
      exact hset (pre ++ [b]) x e post
    rw [hput, hput]
    by_cases hlt : b.distance > temp.distance
    · rw [if_pos hlt, List.append_assoc, List.singleton_append,
        ih b (b :: post) fuel (by omega) hpre, insertByDistance_concat_of_lt temp b pre hlt,
        List.append_assoc, List.singleton_append]
    · rw [if_neg hlt, insertByDistance_concat_of_ge temp b pre h hlt,
        List.append_assoc (pre ++ [b]), List.singleton_append]

/-- With interval 1, entry `i` joins the sorted prefix before it. -/
theorem insertAt_one (arr : List (VPEntry α D)) (i : ℕ) (hi : i < arr.length)
    (h : SortedByDistance (arr.take i)) : SortedByDistance ((insertAt 1 arr i).take (i+1)) := by
  have hlen : (arr.take i).length = i := List.length_take_of_le (by omega)
  have hsplit : arr = arr.take i ++ arr[i] :: arr.drop (i+1) := by
    rw [← List.drop_eq_getElem_cons hi, List.take_append_drop]
  have hins : insertAt 1 arr i = insertByDistance arr[i] (arr.take i) ++ arr.drop (i+1) := by
    have hs := shiftDown_one arr[i] arr[i] (arr.take i) (arr.drop (i+1)) i (by omega) h
    rw [← hsplit, hlen] at hs
    rw [insertAt, List.getElem?_eq_getElem hi]
    exact hs
  have hilen : (insertByDistance arr[i] (arr.take i)).length = i+1 := by
    rw [insertByDistance_length, hlen]
  rw [hins, List.take_append_of_le_length (by omega), List.take_of_length_le (by omega)]
  exact insertByDistance_sorted _ h

theorem insertPass_one_sorted (arr : List (VPEntry α D)) :
    SortedByDistance (insertPass 1 arr) := by
  have hpass (n i : ℕ) (a : List (VPEntry α D)) (hn : i+n = a.length)
      (h : SortedByDistance (a.take i)) :
      SortedByDistance ((List.range' i n).foldl (insertAt 1) a) := by
    induction n generalizing i a with
    | zero =>
      rw [List.take_of_length_le (by omega)] at h
      exact h
    | succ n ih =>
      rw [List.range'_succ, List.foldl_cons]
      have hlen := (insertAt_perm 1 a i).length_eq
      exact ih (i+1) _ (by omega) (insertAt_one a i (by omega) h)
  cases arr with
  | nil => exact List.Pairwise.nil
  | cons e arr =>
    apply hpass
    · rw [List.length_cons]
      omega
    · exact List.pairwise_singleton _ e

/-- The last interval is 1, whatever the passes before it did. -/
theorem shellPasses_sorted (fuel interval : ℕ) (arr : List (VPEntry α D)) (hpos : 0 < interval)
    (hfuel : interval ≤ fuel) : SortedByDistance (shellPasses fuel interval arr) := by
  induction fuel generalizing interval arr with
  | zero => omega
  | succ fuel ih =>
    unfold shellPasses
    rw [if_pos hpos]
    -- Halving goes on until the interval is 1, and that pass sorts on its own.
    rcases Nat.eq_zero_or_pos (interval/2) with hz | hp
    · have hone : interval = 1 := by omega
      subst hone
      have hend : shellPasses fuel (1/2) (insertPass 1 arr) = insertPass 1 arr := by
        cases fuel with
        | zero => rfl
        | succ fuel => rfl
      rw [hend]
      exact insertPass_one_sorted arr
    · exact ih (interval/2) _ hp (by omega)

theorem shellsort_sorted (arr : List (VPEntry α D)) : SortedByDistance (shellsort arr) := by
  rcases Nat.lt_or_ge arr.length 2 with hlt | hge
  · have hp := shellsort_perm arr
    have hlen : (shellsort arr).length < 2 := by rwa [hp.length_eq]
    match hs : shellsort arr with
    | [] => exact List.Pairwise.nil
    | [e] => exact List.pairwise_singleton _ e
    | a :: b :: l =>
      rw [hs, List.length_cons, List.length_cons] at hlen
      omega
  · exact shellPasses_sorted _ _ arr (by omega) (by omega)

end Shell

section Merge

variable [LinearOrder D]

omit [LinearOrder D] in
/-- The sublists together are the array. -/
theorem flatMap_sublistOf (arr : List (VPEntry α D)) :
    (List.finRange mergesortNumThreads).flatMap (sublistOf arr) = arr := by
  let each := arr.length/mergesortNumThreads
  have hjoin (n m : ℕ) : arr.drop n = (arr.drop n).take m ++ arr.drop (n+m) := by
    rw [← List.drop_drop, List.take_append_drop]
  have hfin : List.finRange mergesortNumThreads =
      [⟨0, by decide⟩, ⟨1, by decide⟩, ⟨2, by decide⟩, ⟨3, by decide⟩, ⟨4, by decide⟩,
        ⟨5, by decide⟩, ⟨6, by decide⟩, ⟨7, by decide⟩] := by decide
  rw [hfin]
  simp only [List.flatMap_cons, List.flatMap_nil, List.append_nil, sublistOf]
  change (arr.drop (0*each)).take each ++ ((arr.drop (1*each)).take each ++
    ((arr.drop (2*each)).take each ++ ((arr.drop (3*each)).take each ++
    ((arr.drop (4*each)).take each ++ ((arr.drop (5*each)).take each ++
    ((arr.drop (6*each)).take each ++ arr.drop (7*each))))))) = arr
  -- From the back, each sublist is joined to what follows it.
  have hstep (n : ℕ) : (arr.drop (n*each)).take each ++ arr.drop ((n+1)*each) =
      arr.drop (n*each) := by
    rw [Nat.succ_mul, ← hjoin]
  rw [hstep 6, hstep 5, hstep 4, hstep 3, hstep 2, hstep 1, hstep 0, Nat.zero_mul, List.drop_zero]

theorem mergesort_spec (big : VPEntry α D) (arr : List (VPEntry α D))
    (hbig : ∀ e ∈ arr, e.distance ≤ big.distance) :
    (mergesort big arr).Perm arr ∧ SortedByDistance (mergesort big arr) := by
  -- The sorted sublists are the runs of the merge.
  let runs (i : Fin mergesortNumThreads) := shellsort (sublistOf arr i)
  have hperm : ((List.finRange mergesortNumThreads).flatMap runs).Perm arr := by
    have hp := List.Perm.flatMap_left (List.finRange mergesortNumThreads)
      (fun i _ => shellsort_perm (sublistOf arr i))
    rwa [flatMap_sublistOf] at hp
  have hruns : ∀ i ∈ List.finRange mergesortNumThreads, SortedByDistance (runs i) :=
    fun i _ => shellsort_sorted _
  have hm := KWayMerge.iterate_step (List.nodup_finRange _) hruns
    (fun e he => hbig e (hperm.mem_iff.mp he)) ⟨0, by decide⟩
  rw [hperm.length_eq] at hm
  exact ⟨hm.1.trans hperm, hm.2⟩

theorem vpSort_length (big : VPEntry α D) (arr : List (VPEntry α D)) :
    (vpSort big arr).length = arr.length := by
  unfold vpSort
  split
  · exact (shellsort_perm arr).length_eq
  · rw [mergesort, KWayMerge.length_iterate_step, List.length_nil, Nat.zero_add]

/-- `VPSort` sorts on both paths, item and distance kept together. -/
theorem vpSort_spec (big : VPEntry α D) (arr : List (VPEntry α D))
    (hbig : ∀ e ∈ arr, e.distance ≤ big.distance) :
    (vpSort big arr).Perm arr ∧ SortedByDistance (vpSort big arr) := by
  unfold vpSort
  split
  · exact ⟨shellsort_perm arr, shellsort_sorted arr⟩
  · exact mergesort_spec big arr hbig

end Merge

end VantagePoint
