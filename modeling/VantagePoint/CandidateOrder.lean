import VantagePoint.CandidateList
import VantagePoint.StableSort

/-! What `knnlist` holds after any number of pushes: the beginning of the stable
sort of everything pushed. The buffer may hold anything before the first push. -/
namespace VantagePoint
open StableSort

variable {α D : Type*} [LinearOrder D]

/-- One push after another, each followed by `size = min(size + 1, k)`. -/
def KnnState.pushes (k : ℕ) (s : KnnState α D) (pushed : List (VPEntry α D)) : KnnState α D :=
  pushed.foldl (fun s e => s.push k e.item e.distance) s

theorem pushes_concat (k : ℕ) (s : KnnState α D) (P : List (VPEntry α D)) (e : VPEntry α D) :
    s.pushes k (P ++ [e]) = (s.pushes k P).push k e.item e.distance := by
  rw [KnnState.pushes, List.foldl_append]
  rfl

/-- The entries in use are the first `k` of the sorted pushes, and the cells
beyond index `k` are those of the buffer the list was started in. -/
structure KeepsBest (k : ℕ) (buf : List (VPEntry α D)) (s : KnnState α D)
    (P : List (VPEntry α D)) : Prop where
  size : s.knnlistSize = min k P.length
  fits : s.knnlistSize ≤ s.knnlist.length
  live : s.live = (stableSort VPEntry.distance P).take k
  beyond : ∀ i, k < i → s.knnlist[i]? = buf[i]?

theorem keepsBest_start (k : ℕ) (buf : List (VPEntry α D)) (tau : D) :
    KeepsBest k buf ⟨buf, 0, tau⟩ [] where
  size := (Nat.min_zero k).symm
  fits := Nat.zero_le _
  live := by simp only [KnnState.live, List.take_zero, stableSort, List.mergeSort_nil, List.take_nil]
  beyond _ _ := rfl

section Push

variable {k : ℕ} {buf P : List (VPEntry α D)} {s : KnnState α D}

theorem KeepsBest.sorted (h : KeepsBest k buf s P) : SortedByDistance s.live := by
  rw [h.live]
  exact (stableSort_sorted _ P).sublist (List.take_sublist _ _)

theorem KeepsBest.live_length (h : KeepsBest k buf s P) : s.live.length = min k P.length := by
  rw [KnnState.live, List.length_take_of_le h.fits, h.size]

theorem KeepsBest.push (h : KeepsBest k buf s P) (e : VPEntry α D) :
    KeepsBest k buf (s.push k e.item e.distance) (P ++ [e]) := by
  have hlen : (insertByDistance e s.live).length = min k P.length+1 := by
    rw [insertByDistance_length, h.live_length]
  refine ⟨?_, push_fits k s e.item e.distance h.fits h.sorted, ?_, ?_⟩
  · change min (s.knnlistSize+1) k = min k (P ++ [e]).length
    rw [h.size, List.length_append, List.length_singleton]
    omega
  · -- Capping the size at `k` drops the entry that the push moved to index `k`.
    have htake : (insertByDistance e s.live).take (min (s.knnlistSize+1) k) =
        (insertByDistance e s.live).take k := by
      rw [h.size]
      rcases Nat.lt_or_ge P.length k with hlt | hge
      · rw [List.take_of_length_le (by omega), List.take_of_length_le (by omega)]
      · congr 1
        omega
    rw [push_live k s e.item e.distance h.fits h.sorted, htake, h.live, stableSort_concat]
    exact take_insertBehind k e _
  · intro i hi
    -- A push writes up to index `size`, which is at most `k`.
    have hpush : (s.push k e.item e.distance).knnlist =
        insertByDistance e s.live ++ s.knnlist.drop (s.knnlistSize+1) :=
      knnlistPush_eq s.knnlist s.knnlistSize e.item e.distance h.fits h.sorted
    have hsize := h.size
    rw [hpush, List.getElem?_append_right (by omega), List.getElem?_drop, hlen, ← h.beyond i hi]
    congr 1
    omega

theorem keepsBest_pushes (k : ℕ) (buf : List (VPEntry α D)) (tau : D) (P : List (VPEntry α D)) :
    KeepsBest k buf (KnnState.pushes k ⟨buf, 0, tau⟩ P) P := by
  induction P using List.reverseRecOn with
  | nil => exact keepsBest_start k buf tau
  | append_singleton P e ih =>
    rw [pushes_concat]
    exact ih.push e

/-- The last entry in use is the farthest. -/
theorem KeepsBest.last (h : KeepsBest k buf s P) (hk : 0 < k) (hP : P ≠ []) :
    ∃ e, s.knnlist[s.knnlistSize-1]? = some e ∧ e ∈ s.live ∧
      ∀ e' ∈ s.live, e'.distance ≤ e.distance := by
  have hpos : 0 < P.length := List.length_pos_of_ne_nil hP
  have hsize := h.size
  have hlast : s.knnlistSize-1 < s.live.length := by
    rw [h.live_length]
    omega
  have hget : s.live[s.knnlistSize-1]? = s.knnlist[s.knnlistSize-1]? :=
    List.getElem?_take_of_lt (by omega)
  rw [List.getElem?_eq_getElem hlast] at hget
  refine ⟨_, hget.symm, List.getElem_mem hlast, ?_⟩
  intro e he
  obtain ⟨i, hi, rfl⟩ := List.getElem_of_mem he
  have hlen := h.live_length
  exact h.sorted.le_getElem (by omega) hi hlast

end Push

/-- After any sequence of pushes into an empty list, `knnlist[0..size)` is the
beginning of the stable sort of all pairs pushed, the entry at `size - 1` is the
farthest of them, and no cell beyond index `k` has been written. -/
theorem pushes_keep_best (k : ℕ) (hk : 1 ≤ k) (buf : List (VPEntry α D)) (tau : D)
    (P : List (VPEntry α D)) :
    (KnnState.pushes k ⟨buf, 0, tau⟩ P).knnlistSize = min k P.length ∧
    (KnnState.pushes k ⟨buf, 0, tau⟩ P).live =
      (stableSort VPEntry.distance P).take (min k P.length) ∧
    (P ≠ [] → ∃ e,
      (KnnState.pushes k ⟨buf, 0, tau⟩ P).knnlist[
        (KnnState.pushes k ⟨buf, 0, tau⟩ P).knnlistSize-1]? = some e ∧
      e ∈ (KnnState.pushes k ⟨buf, 0, tau⟩ P).live ∧
      ∀ e' ∈ (KnnState.pushes k ⟨buf, 0, tau⟩ P).live, e'.distance ≤ e.distance) ∧
    ∀ i, k < i → (KnnState.pushes k ⟨buf, 0, tau⟩ P).knnlist[i]? = buf[i]? := by
  have h := keepsBest_pushes k buf tau P
  refine ⟨h.size, ?_, h.last hk, h.beyond⟩
  have hlen : (stableSort VPEntry.distance P).length = P.length :=
    (stableSort_perm _ P).length_eq
  rw [h.live, ← hlen]
  exact List.take_eq_take_min

/-- Two places and four pushes, of which two are at distance 1: the earlier of
them stands first, and the last push is not kept. -/
theorem pushes_keep_best_ties :
    (KnnState.pushes 2 ⟨[⟨0, 50⟩, ⟨0, 60⟩, ⟨0, 70⟩, ⟨0, 80⟩], 0, 100⟩
      [⟨7, 3⟩, ⟨8, 1⟩, ⟨9, 1⟩, ⟨6, 4⟩] : KnnState ℕ ℕ).live = [⟨8, 1⟩, ⟨9, 1⟩] ∧
    (KnnState.pushes 2 ⟨[⟨0, 50⟩, ⟨0, 60⟩, ⟨0, 70⟩, ⟨0, 80⟩], 0, 100⟩
      [⟨7, 3⟩, ⟨8, 1⟩, ⟨9, 1⟩, ⟨6, 4⟩] : KnnState ℕ ℕ).live =
      (stableSort VPEntry.distance
        ([⟨7, 3⟩, ⟨8, 1⟩, ⟨9, 1⟩, ⟨6, 4⟩] : List (VPEntry ℕ ℕ))).take 2 :=
  ⟨by decide, (pushes_keep_best 2 (by decide) _ _ _).2.1⟩

end VantagePoint
