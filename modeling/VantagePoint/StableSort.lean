import Mathlib.Data.List.Sort
import Mathlib.Order.Lattice

/-! Stable sorting by a key: elements of one key keep their order. A list that is
sorted by its keys is determined by the sublist of each key, so insertion behind
equal keys, one element at a time, computes the same list. -/
namespace StableSort

variable {β D : Type*} [LinearOrder D]

def SortedBy (key : β → D) (l : List β) : Prop := l.Pairwise fun a b => key a ≤ key b

/-- The elements whose key is `d`, in the order of the list. -/
def ofKey (key : β → D) (d : D) (l : List β) : List β := l.filter fun a => key a = d

def keyLe (key : β → D) (a b : β) : Bool := decide (key a ≤ key b)

def stableSort (key : β → D) (l : List β) : List β := l.mergeSort (keyLe key)

/-- Insertion behind the elements of smaller and of equal key. -/
def insertBehind (key : β → D) (e : β) (l : List β) : List β :=
  l.orderedInsert (fun a b => key a < key b) e

variable {key : β → D}

theorem keyLe_iff {a b : β} : keyLe key a b = true ↔ key a ≤ key b := decide_eq_true_iff

theorem keyLe_trans (a b c : β) (hab : keyLe key a b = true) (hbc : keyLe key b c = true) :
    keyLe key a c = true := keyLe_iff.mpr ((keyLe_iff.mp hab).trans (keyLe_iff.mp hbc))

theorem keyLe_total (a b : β) : (keyLe key a b || keyLe key b a) = true := by
  rw [Bool.or_eq_true, keyLe_iff, keyLe_iff]
  exact le_total _ _

theorem stableSort_perm (key : β → D) (l : List β) : (stableSort key l).Perm l :=
  List.mergeSort_perm l _

theorem stableSort_sorted (key : β → D) (l : List β) : SortedBy key (stableSort key l) :=
  (List.pairwise_mergeSort keyLe_trans keyLe_total l).imp keyLe_iff.mp

/-- Stability: the elements of each key keep their order. -/
theorem ofKey_stableSort (key : β → D) (d : D) (l : List β) :
    ofKey key d (stableSort key l) = ofKey key d l := by
  -- The elements of one key are a sorted sublist, so the sort does not disturb them.
  have hrun : (ofKey key d l).Pairwise fun a b => keyLe key a b = true := by
    apply List.pairwise_of_forall_mem_list
    intro a ha b hb
    have hka : key a = d := by simpa using List.of_mem_filter ha
    have hkb : key b = d := by simpa using List.of_mem_filter hb
    exact keyLe_iff.mpr (by rw [hka, hkb])
  have hsub : (ofKey key d l).Sublist (stableSort key l) :=
    List.sublist_mergeSort keyLe_trans keyLe_total hrun List.filter_sublist
  have hself : ofKey key d (ofKey key d l) = ofKey key d l := by
    rw [ofKey, ofKey, List.filter_filter]
    simp only [Bool.and_self]
  have hkeep : (ofKey key d l).Sublist (ofKey key d (stableSort key l)) := by
    rw [← hself]
    exact hsub.filter _
  exact (hkeep.eq_of_length ((stableSort_perm key l).filter _).length_eq.symm).symm

theorem ofKey_cons_of_eq {d : D} {a : β} (h : key a = d) (l : List β) :
    ofKey key d (a :: l) = a :: ofKey key d l := List.filter_cons_of_pos (by simpa using h)

theorem ofKey_cons_of_ne {d : D} {a : β} (h : key a ≠ d) (l : List β) :
    ofKey key d (a :: l) = ofKey key d l := List.filter_cons_of_neg (by simpa using h)

theorem ofKey_append (d : D) (l l' : List β) :
    ofKey key d (l ++ l') = ofKey key d l ++ ofKey key d l' := List.filter_append ..

/-- Two sorted lists with the same elements, in the same order within each key,
are the same list. -/
theorem eq_of_sorted_of_ofKey {l l' : List β} (h : SortedBy key l) (h' : SortedBy key l')
    (hkey : ∀ d, ofKey key d l = ofKey key d l') : l = l' := by
  induction l generalizing l' with
  | nil =>
    cases l' with
    | nil => rfl
    | cons b l' =>
      have hb := hkey (key b)
      rw [ofKey_cons_of_eq rfl] at hb
      cases hb
  | cons a l ih =>
    cases l' with
    | nil =>
      have ha := hkey (key a)
      rw [ofKey_cons_of_eq rfl] at ha
      cases ha
    | cons b l' =>
      -- Each head occurs in the other list, so neither key is below the other.
      have hmem (x y : β) (u v : List β) (hv : SortedBy key (y :: v))
          (he : ofKey key (key x) (x :: u) = ofKey key (key x) (y :: v)) : key y ≤ key x := by
        have hx : x ∈ ofKey key (key x) (y :: v) := by
          rw [← he, ofKey_cons_of_eq rfl]
          exact List.mem_cons_self
        rcases List.mem_cons.mp (List.mem_of_mem_filter hx) with rfl | hx
        · exact le_rfl
        · exact List.rel_of_pairwise_cons hv hx
      have hab : key a = key b :=
        le_antisymm (hmem b a l' l h (hkey (key b)).symm) (hmem a b l l' h' (hkey (key a)))
      have hhead := hkey (key a)
      rw [ofKey_cons_of_eq rfl, ofKey_cons_of_eq hab.symm] at hhead
      obtain ⟨rfl, _⟩ := List.cons.inj hhead
      rw [ih h.of_cons h'.of_cons]
      intro d
      have hd := hkey d
      by_cases had : key a = d
      · rw [ofKey_cons_of_eq had, ofKey_cons_of_eq had] at hd
        exact (List.cons.inj hd).2
      · rwa [ofKey_cons_of_ne had, ofKey_cons_of_ne had] at hd

theorem insertBehind_cons_of_lt {e b : β} (h : key e < key b) (l : List β) :
    insertBehind key e (b :: l) = e :: b :: l := by
  simp only [insertBehind, List.orderedInsert_cons, h, ↓reduceIte]

theorem insertBehind_cons_of_ge {e b : β} (h : ¬ key e < key b) (l : List β) :
    insertBehind key e (b :: l) = b :: insertBehind key e l := by
  simp only [insertBehind, List.orderedInsert_cons, h, ↓reduceIte]

theorem insertBehind_sorted (e : β) {l : List β} (h : SortedBy key l) :
    SortedBy key (insertBehind key e l) := by
  induction l with
  | nil => exact List.pairwise_singleton _ e
  | cons b l ih =>
    by_cases hlt : key e < key b
    · rw [insertBehind_cons_of_lt hlt]
      apply List.Pairwise.cons _ h
      intro c hc
      rcases List.mem_cons.mp hc with rfl | hc
      · exact hlt.le
      · exact hlt.le.trans (List.rel_of_pairwise_cons h hc)
    · rw [insertBehind_cons_of_ge hlt]
      apply List.Pairwise.cons _ (ih h.of_cons)
      intro c hc
      rcases (List.mem_orderedInsert _).mp hc with rfl | hc
      · exact not_lt.mp hlt
      · exact List.rel_of_pairwise_cons h hc

/-- Within its key the inserted element comes last. -/
theorem ofKey_insertBehind (e : β) (d : D) {l : List β} (h : SortedBy key l) :
    ofKey key d (insertBehind key e l) = ofKey key d (l ++ [e]) := by
  induction l with
  | nil => rfl
  | cons b l ih =>
    by_cases hlt : key e < key b
    · rw [insertBehind_cons_of_lt hlt, ofKey_append]
      by_cases hd : key e = d
      -- everything that stands behind `e` has a larger key
      · have hnone : ofKey key d (b :: l) = [] := by
          apply List.filter_eq_nil_iff.mpr
          intro c hc
          have hbc : key b ≤ key c := by
            rcases List.mem_cons.mp hc with rfl | hc
            · exact le_rfl
            · exact List.rel_of_pairwise_cons h hc
          have hne : key c ≠ d := by
            rw [← hd]
            exact (hlt.trans_le hbc).ne'
          simpa using hne
        rw [ofKey_cons_of_eq hd, hnone, ofKey_cons_of_eq hd]
        rfl
      · have hsingle : ofKey key d [e] = [] := ofKey_cons_of_ne hd []
        rw [ofKey_cons_of_ne hd, hsingle, List.append_nil]
    · rw [insertBehind_cons_of_ge hlt, List.cons_append]
      by_cases hd : key b = d
      · rw [ofKey_cons_of_eq hd, ofKey_cons_of_eq hd, ih h.of_cons]
      · rw [ofKey_cons_of_ne hd, ofKey_cons_of_ne hd, ih h.of_cons]

/-- Sorting one element more is inserting it behind its equals. -/
theorem stableSort_concat (l : List β) (e : β) :
    stableSort key (l ++ [e]) = insertBehind key e (stableSort key l) := by
  apply eq_of_sorted_of_ofKey (stableSort_sorted key _)
    (insertBehind_sorted e (stableSort_sorted key l))
  intro d
  rw [ofKey_stableSort, ofKey_insertBehind e d (stableSort_sorted key l), ofKey_append,
    ofKey_append, ofKey_stableSort]

/-- The first `k` elements after an insertion depend only on the first `k` before it. -/
theorem take_insertBehind (k : ℕ) (e : β) (l : List β) :
    (insertBehind key e (l.take k)).take k = (insertBehind key e l).take k := by
  induction l generalizing k with
  | nil => rw [List.take_nil]
  | cons b l ih =>
    cases k with
    | zero => rfl
    | succ k =>
      rw [List.take_succ_cons]
      by_cases hlt : key e < key b
      · rw [insertBehind_cons_of_lt hlt, insertBehind_cons_of_lt hlt, List.take_succ_cons,
          List.take_succ_cons]
        -- `e` takes the first place, and of `b :: l` one element fewer remains
        cases k with
        | zero => rfl
        | succ k => rw [List.take_succ_cons, List.take_succ_cons, List.take_take,
            Nat.min_eq_left (Nat.le_succ k)]
      · rw [insertBehind_cons_of_ge hlt, insertBehind_cons_of_ge hlt, List.take_succ_cons,
          List.take_succ_cons, ih]

end StableSort
