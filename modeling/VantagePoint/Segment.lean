import Mathlib.Data.List.Basic

/-! Ranges of a list, and overwriting a range in place. An algorithm that works
on parts of one array reads a part with `slice` and puts it back with `splice`. -/
namespace Segment

variable {E : Type*}

/-- The `n` elements from index `start` on. -/
def slice (start n : ℕ) (l : List E) : List E := (l.drop start).take n

/-- The list with `seg` in place of the `n` elements from index `start` on. -/
def splice (start n : ℕ) (l seg : List E) : List E := l.take start ++ (seg ++ l.drop (start+n))

theorem length_slice {start n : ℕ} {l : List E} (h : start+n ≤ l.length) :
    (slice start n l).length = n := by
  rw [slice, List.length_take, List.length_drop]
  omega

theorem length_splice {start n : ℕ} {l seg : List E} (h : start+n ≤ l.length)
    (hs : seg.length = n) : (splice start n l seg).length = l.length := by
  simp only [splice, List.length_append, List.length_take, List.length_drop, hs]
  omega

theorem getElem?_slice {start n i : ℕ} (l : List E) (hi : i < n) :
    (slice start n l)[i]? = l[start+i]? := by
  rw [slice, List.getElem?_take_of_lt hi, List.getElem?_drop]

theorem slice_splice_self {start n : ℕ} {l seg : List E} (h : start+n ≤ l.length)
    (hs : seg.length = n) : slice start n (splice start n l seg) = seg := by
  have hlen : (l.take start).length = start := List.length_take_of_le (by omega)
  have hdrop : (splice start n l seg).drop start = seg ++ l.drop (start+n) := by
    rw [splice, List.drop_append_of_le_length (by omega), List.drop_of_length_le (by omega),
      List.nil_append]
  rw [slice, hdrop, List.take_append_of_le_length (by omega), List.take_of_length_le (by omega)]

/-- A range behind the overwritten one is as it was. -/
theorem slice_splice_after {start n a m : ℕ} {l seg : List E} (h : start+n ≤ l.length)
    (hs : seg.length = n) (ha : start+n ≤ a) : slice a m (splice start n l seg) = slice a m l := by
  -- Both lists end in `l.drop (start + n)`, and `a` lies in that part.
  have hlen : (l.take start ++ seg).length = start+n := by
    rw [List.length_append, hs, List.length_take_of_le (by omega)]
  have hdrop : (splice start n l seg).drop a = l.drop a := by
    rw [splice, ← List.append_assoc, List.drop_append, List.drop_of_length_le (by omega), hlen,
      List.nil_append, List.drop_drop]
    congr 1
    omega
  rw [slice, slice, hdrop]

/-- So is a range in front of it. -/
theorem slice_splice_before {start n a m : ℕ} {l seg : List E} (h : start+n ≤ l.length)
    (ha : a+m ≤ start) : slice a m (splice start n l seg) = slice a m l := by
  have hlen : (l.take start).length = start := List.length_take_of_le (by omega)
  have hdrop : ((l.take start).drop a).length = start-a := by rw [List.length_drop, hlen]
  rw [slice, splice, List.drop_append_of_le_length (by omega),
    List.take_append_of_le_length (by omega), List.drop_take, List.take_take,
    Nat.min_eq_left (by omega), slice]

theorem slice_cons {start n : ℕ} {l : List E} {e : E} (he : l[start]? = some e) :
    slice start (n+1) l = e :: slice (start+1) n l := by
  obtain ⟨hlt, hget⟩ := List.getElem?_eq_some_iff.mp he
  rw [slice, List.drop_eq_getElem_cons hlt, hget, List.take_succ_cons, slice]

theorem take_slice (start : ℕ) {m n : ℕ} (l : List E) (h : m ≤ n) :
    (slice start n l).take m = slice start m l := by
  rw [slice, List.take_take, Nat.min_eq_left h, slice]

theorem drop_slice (start m n : ℕ) (l : List E) :
    (slice start n l).drop m = slice (start+m) (n-m) l := by
  rw [slice, List.drop_take, List.drop_drop, slice]

theorem getElem?_splice {start n i : ℕ} {l seg : List E} (h : start+n ≤ l.length)
    (hs : seg.length = n) (hi : i < n) : (splice start n l seg)[start+i]? = seg[i]? := by
  rw [← getElem?_slice _ hi, slice_splice_self h hs]

end Segment
