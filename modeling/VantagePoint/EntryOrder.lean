import VantagePoint.Node
import Mathlib.Data.List.Sort

/-! Lists of entries in ascending order of distance. Both the candidate list of
`VPT_knn` and the last pass of the shell sort insert behind equal distances. -/
namespace VantagePoint

variable {α D : Type*} [LinearOrder D]

/-- Insertion behind all entries that are no farther away. -/
def insertByDistance (e : VPEntry α D) (l : List (VPEntry α D)) : List (VPEntry α D) :=
  l.orderedInsert (fun a b => a.distance < b.distance) e

def SortedByDistance (l : List (VPEntry α D)) : Prop :=
  l.Pairwise fun a b => a.distance ≤ b.distance

theorem sortedByDistance_map {l : List (VPEntry α D)} :
    SortedByDistance l ↔ (l.map VPEntry.distance).Pairwise (· ≤ ·) := by
  rw [List.pairwise_map, SortedByDistance]

theorem insertByDistance_perm (e : VPEntry α D) (l : List (VPEntry α D)) :
    (insertByDistance e l).Perm (e :: l) := List.perm_orderedInsert _ e l

theorem insertByDistance_length (e : VPEntry α D) (l : List (VPEntry α D)) :
    (insertByDistance e l).length = l.length+1 := List.orderedInsert_length _ l e

theorem insertByDistance_sorted (e : VPEntry α D) {l : List (VPEntry α D)}
    (h : SortedByDistance l) : SortedByDistance (insertByDistance e l) := by
  induction l with
  | nil => exact List.pairwise_singleton _ e
  | cons b l ih =>
    have hb : ∀ c ∈ l, b.distance ≤ c.distance := fun c hc => List.rel_of_pairwise_cons h hc
    unfold insertByDistance
    rw [List.orderedInsert_cons]
    split
    -- inserted here: nearer than the head, so than all that follows
    · rename_i hlt
      apply List.Pairwise.cons _ h
      intro c hc
      rcases List.mem_cons.mp hc with rfl | hc
      · exact hlt.le
      · exact hlt.le.trans (hb c hc)
    -- inserted further on: the head stays in front of it, ties included
    · rename_i hge
      apply List.Pairwise.cons _ (ih h.of_cons)
      intro c hc
      rcases (List.mem_orderedInsert _).mp hc with rfl | hc
      · exact not_lt.mp hge
      · exact hb c hc

theorem insertByDistance_concat_of_lt (e b : VPEntry α D) (l : List (VPEntry α D))
    (h : e.distance < b.distance) :
    insertByDistance e (l ++ [b]) = insertByDistance e l ++ [b] := by
  induction l with
  | nil => simp only [insertByDistance, List.nil_append, List.orderedInsert_cons, h, ↓reduceIte,
      List.orderedInsert_nil, List.cons_append]
  | cons c l ih =>
    simp only [insertByDistance, List.cons_append, List.orderedInsert_cons] at ih ⊢
    split
    · rfl
    · rw [ih, List.cons_append]

theorem insertByDistance_of_ge (e : VPEntry α D) (l : List (VPEntry α D))
    (h : ∀ b ∈ l, ¬ e.distance < b.distance) : insertByDistance e l = l ++ [e] := by
  induction l with
  | nil => rfl
  | cons b l ih =>
    have hb := h b List.mem_cons_self
    have hl := ih fun c hc => h c (List.mem_cons_of_mem _ hc)
    simp only [insertByDistance, List.orderedInsert_cons, hb, ↓reduceIte] at hl ⊢
    rw [hl, List.cons_append]

/-- An entry that is no nearer than the last of a sorted list goes to its end. -/
theorem insertByDistance_concat_of_ge (e b : VPEntry α D) (l : List (VPEntry α D))
    (h : SortedByDistance (l ++ [b])) (hge : ¬ e.distance < b.distance) :
    insertByDistance e (l ++ [b]) = l ++ [b] ++ [e] := by
  apply insertByDistance_of_ge
  intro c hc
  have hcb : c.distance ≤ b.distance := by
    rcases List.mem_append.mp hc with hc | hc
    · exact (List.pairwise_append.mp h).2.2 c hc b (List.mem_singleton_self b)
    · rw [List.mem_singleton.mp hc]
  exact not_lt.mpr (hcb.trans (not_lt.mp hge))

theorem SortedByDistance.le_getElem {l : List (VPEntry α D)} (h : SortedByDistance l) {i j : ℕ}
    (hij : i ≤ j) (hi : i < l.length) (hj : j < l.length) : l[i].distance ≤ l[j].distance := by
  rcases Nat.lt_or_ge i j with hlt | hge
  · exact List.pairwise_iff_getElem.mp h i j _ hj hlt
  · have he : i = j := by omega
    subst he
    exact le_rfl

end VantagePoint
