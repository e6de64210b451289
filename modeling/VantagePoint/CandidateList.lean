import VantagePoint.EntryOrder
import Mathlib.Data.List.Induction

/-! The sorted list of candidates that `VPT_knn` keeps, `__knnlist_push`, and
the bookkeeping the source repeats after every push. -/
namespace VantagePoint

variable {α D : Type*}

/-- `knnlist[i] = e`, where `i` is at most the number of cells written so far. -/
def writeSlot (knnlist : List (VPEntry α D)) (i : ℕ) (e : VPEntry α D) : List (VPEntry α D) :=
  knnlist.take i ++ e :: knnlist.drop (i+1)

section Code

variable [LinearOrder D]

/-- The `do` loop of `__knnlist_push`: entry `n` moves down while it is smaller
than its predecessor. -/
def siftIn (knnlist : List (VPEntry α D)) : ℕ → List (VPEntry α D)
  | 0 => knnlist
  | n+1 =>
    match knnlist[n+1]?, knnlist[n]? with
    | some a, some b =>
      if a.distance < b.distance then siftIn ((knnlist.set (n+1) b).set n a) n else knnlist
    | _, _ => knnlist

/-- `__knnlist_push` -/
def knnlistPush (knnlist : List (VPEntry α D)) (knnlistSize : ℕ) (toAddItem : α)
    (toAddDist : D) : List (VPEntry α D) :=
  siftIn (writeSlot knnlist knnlistSize ⟨toAddItem, toAddDist⟩) knnlistSize

/-- The locals `knnlist`, `knnlist_size` and `tau` of `VPT_knn`. -/
structure KnnState (α D : Type*) where
  knnlist : List (VPEntry α D)
  knnlistSize : ℕ
  tau : D
deriving DecidableEq, Repr

/-- Push, cap the size at `k`, and read `tau` off the last entry. -/
def KnnState.push (k : ℕ) (s : KnnState α D) (item : α) (dist : D) : KnnState α D :=
  let knnlist := knnlistPush s.knnlist s.knnlistSize item dist
  let knnlistSize := min (s.knnlistSize+1) k
  { knnlist := knnlist
    knnlistSize := knnlistSize
    tau := match knnlist[max (knnlistSize-1) 0]? with
      | some e => e.distance
      | none => s.tau }

/-- The entries in use, `knnlist[0..knnlist_size)`. -/
def KnnState.live (s : KnnState α D) : List (VPEntry α D) := s.knnlist.take s.knnlistSize

end Code

section Push

variable [LinearOrder D]

/-- The bubble loop inserts the entry into the sorted prefix before it and
leaves the cells behind it alone. -/
theorem siftIn_append (pre post : List (VPEntry α D)) (e : VPEntry α D)
    (h : SortedByDistance pre) :
    siftIn (pre ++ e :: post) pre.length = insertByDistance e pre ++ post := by
  -- As the entry moves down, the prefix loses its last entry.
  induction pre using List.reverseRecOn generalizing post with
  | nil => rfl
  | append_singleton pre b ih =>
    have hpre : SortedByDistance pre := h.sublist (List.sublist_append_left _ _)
    have hlen : (pre ++ [b]).length = pre.length+1 := List.length_append
    have hlist : pre ++ [b] ++ e :: post = pre ++ b :: e :: post := by
      rw [List.append_assoc, List.singleton_append]
    have hat : (pre ++ b :: e :: post)[pre.length+1]? = some e := by
      rw [List.getElem?_append_right (Nat.le_add_right _ 1), Nat.add_sub_cancel_left]
      rfl
    have hbefore : (pre ++ b :: e :: post)[pre.length]? = some b := by
      rw [List.getElem?_append_right le_rfl, Nat.sub_self]
      rfl
    have hswap : ((pre ++ b :: e :: post).set (pre.length+1) b).set pre.length e =
        pre ++ e :: b :: post := by
      rw [List.set_append_right _ _ (Nat.le_add_right _ 1), Nat.add_sub_cancel_left,
        List.set_append_right _ _ le_rfl, Nat.sub_self]
      rfl
    rw [hlen, hlist]
    unfold siftIn
    rw [hat, hbefore]
    dsimp only
    by_cases hlt : e.distance < b.distance
    · rw [if_pos hlt, hswap, ih _ hpre, insertByDistance_concat_of_lt e b pre hlt,
        List.append_assoc, List.singleton_append]
    · rw [if_neg hlt, insertByDistance_concat_of_ge e b pre h hlt, List.append_assoc,
        List.append_assoc, List.singleton_append, List.singleton_append]

/-- `__knnlist_push` on a sorted list of `size` entries: the entry is inserted
among them, and no cell beyond index `size` changes. -/
theorem knnlistPush_eq (knnlist : List (VPEntry α D)) (size : ℕ) (x : α) (d : D)
    (hsize : size ≤ knnlist.length) (h : SortedByDistance (knnlist.take size)) :
    knnlistPush knnlist size x d =
      insertByDistance ⟨x, d⟩ (knnlist.take size) ++ knnlist.drop (size+1) := by
  have hlen : (knnlist.take size).length = size := List.length_take_of_le hsize
  have hs := siftIn_append (knnlist.take size) (knnlist.drop (size+1)) ⟨x, d⟩ h
  rw [hlen] at hs
  exact hs

/-- The entries in use after a push. -/
theorem push_live (k : ℕ) (s : KnnState α D) (x : α) (d : D)
    (hsize : s.knnlistSize ≤ s.knnlist.length) (h : SortedByDistance s.live) :
    (s.push k x d).live =
      (insertByDistance ⟨x, d⟩ s.live).take (min (s.knnlistSize+1) k) := by
  have hins : (insertByDistance ⟨x, d⟩ s.live).length = s.knnlistSize+1 := by
    rw [insertByDistance_length, KnnState.live, List.length_take_of_le hsize]
  have hp : (s.push k x d).knnlist = insertByDistance ⟨x, d⟩ s.live ++
      s.knnlist.drop (s.knnlistSize+1) := knnlistPush_eq s.knnlist s.knnlistSize x d hsize h
  have hn : (s.push k x d).knnlistSize = min (s.knnlistSize+1) k := rfl
  rw [KnnState.live, hp, hn, List.take_append_of_le_length]
  rw [hins]
  exact min_le_left _ _

theorem push_fits (k : ℕ) (s : KnnState α D) (x : α) (d : D)
    (hsize : s.knnlistSize ≤ s.knnlist.length) (h : SortedByDistance s.live) :
    (s.push k x d).knnlistSize ≤ (s.push k x d).knnlist.length := by
  have hp : (s.push k x d).knnlist = insertByDistance ⟨x, d⟩ s.live ++
      s.knnlist.drop (s.knnlistSize+1) := knnlistPush_eq s.knnlist s.knnlistSize x d hsize h
  have hn : (s.push k x d).knnlistSize = min (s.knnlistSize+1) k := rfl
  rw [hp, hn, List.length_append, insertByDistance_length, KnnState.live,
    List.length_take_of_le hsize]
  omega

/-- After a push `tau` is the largest distance in use. -/
theorem push_tau (k : ℕ) (hk : 0 < k) (s : KnnState α D) (x : α) (d : D)
    (hsize : s.knnlistSize ≤ s.knnlist.length) (h : SortedByDistance s.live) :
    (∀ e ∈ (s.push k x d).live, e.distance ≤ (s.push k x d).tau) ∧
      ∃ e ∈ (s.push k x d).live, e.distance = (s.push k x d).tau := by
  have hfit := push_fits k s x d hsize h
  have hn : (s.push k x d).knnlistSize = min (s.knnlistSize+1) k := rfl
  -- The last cell in use holds the largest distance of a sorted list.
  have hlast : (s.push k x d).knnlistSize-1 < (s.push k x d).knnlist.length := by omega
  have hlen : (s.push k x d).live.length = (s.push k x d).knnlistSize := List.length_take_of_le hfit
  have hlast' : (s.push k x d).knnlistSize-1 < (s.push k x d).live.length := by omega
  have hget : (s.push k x d).live[(s.push k x d).knnlistSize-1] =
      (s.push k x d).knnlist[(s.push k x d).knnlistSize-1] := by
    simp only [KnnState.live, List.getElem_take]
  have htau : (s.push k x d).tau =
      ((s.push k x d).live[(s.push k x d).knnlistSize-1]).distance := by
    have hdef : (s.push k x d).tau =
        match (s.push k x d).knnlist[max ((s.push k x d).knnlistSize-1) 0]? with
        | some e => e.distance
        | none => s.tau := rfl
    rw [hdef, Nat.max_zero, List.getElem?_eq_getElem hlast, hget]
  have hsorted : SortedByDistance (s.push k x d).live := by
    rw [push_live k s x d hsize h]
    exact (insertByDistance_sorted ⟨x, d⟩ h).sublist (List.take_sublist _ _)
  refine ⟨?_, _, List.getElem_mem _, htau.symm⟩
  intro e he
  obtain ⟨i, hi, rfl⟩ := List.getElem_of_mem he
  rw [htau]
  exact hsorted.le_getElem (by omega) hi hlast'

end Push

end VantagePoint
