import Mathlib.Data.List.Perm.Basic
import Mathlib.Data.List.Nodup
import Mathlib.Order.Lattice
import Mathlib.Logic.Function.Basic

/-! Merging sorted runs by taking, again and again, a smallest head among them.
The runs are indexed by `ι`; `ids` is the order in which heads are compared. -/
namespace KWayMerge

variable {ι E D : Type*} [DecidableEq ι] [LinearOrder D] (key : E → D)

/-- Compare the heads in turn, keeping the last one that is not larger. -/
def select (ids : List ι) (runs : ι → List E) (pos : ι → ℕ) (start : ι × E) : ι × E :=
  ids.foldl (fun best j =>
    match (runs j)[pos j]? with
    | some e => if key e ≤ key best.2 then (j, e) else best
    | none => best) start

structure State (ι E : Type*) where
  pos : ι → ℕ
  idx : ι
  out : List E

/-- One step: select, advance the selected cursor, append what was selected.
The index is carried over from the step before when no head is selected. -/
def step (ids : List ι) (runs : ι → List E) (big : E) (s : State ι E) : State ι E :=
  let best := select key ids runs s.pos (s.idx, big)
  { pos := Function.update s.pos best.1 (s.pos best.1+1)
    idx := best.1
    out := s.out ++ [best.2] }

/-- What the cursors have not consumed. -/
def remaining (ids : List ι) (runs : ι → List E) (pos : ι → ℕ) : List E :=
  ids.flatMap fun j => (runs j).drop (pos j)

omit [DecidableEq ι] in
/-- Either nothing was selected and every head is larger than the start, or the
selected head is a smallest one. -/
theorem select_cases (ids : List ι) (runs : ι → List E) (pos : ι → ℕ) (start : ι × E) :
    (select key ids runs pos start = start ∧
      ∀ i ∈ ids, ∀ e, (runs i)[pos i]? = some e → key start.2 < key e) ∨
    ((select key ids runs pos start).1 ∈ ids ∧
      (runs (select key ids runs pos start).1)[pos (select key ids runs pos start).1]? =
        some (select key ids runs pos start).2 ∧
      key (select key ids runs pos start).2 ≤ key start.2 ∧
      ∀ i ∈ ids, ∀ e, (runs i)[pos i]? = some e →
        key (select key ids runs pos start).2 ≤ key e) := by
  induction ids generalizing start with
  | nil => exact Or.inl ⟨rfl, fun i hi => absurd hi List.not_mem_nil⟩
  | cons j ids ih =>
    -- the head of run `j` either replaces the start of the fold or is passed over
    by_cases ha : ∃ a, (runs j)[pos j]? = some a ∧ key a ≤ key start.2
    · obtain ⟨a, hj, ha⟩ := ha
      have hs : select key (j :: ids) runs pos start = select key ids runs pos (j, a) := by
        simp only [select, List.foldl_cons, hj, ha, ↓reduceIte]
      rw [hs]
      rcases ih (j, a) with ⟨he, hlt⟩ | ⟨hmem, hget, hle, hmin⟩
      · rw [he]
        refine Or.inr ⟨List.mem_cons_self, hj, ha, ?_⟩
        intro i hi e hie
        rcases List.mem_cons.mp hi with rfl | hi
        · rw [hj] at hie
          cases hie
          exact le_rfl
        · exact (hlt i hi e hie).le
      · refine Or.inr ⟨List.mem_cons_of_mem _ hmem, hget, hle.trans ha, ?_⟩
        intro i hi e hie
        rcases List.mem_cons.mp hi with rfl | hi
        · rw [hj] at hie
          cases hie
          exact hle
        · exact hmin i hi e hie
    · have hlarger : ∀ a, (runs j)[pos j]? = some a → key start.2 < key a := by
        intro a hj
        apply lt_of_not_ge
        exact fun hle => ha ⟨a, hj, hle⟩
      have hs : select key (j :: ids) runs pos start = select key ids runs pos start := by
        cases hj : (runs j)[pos j]? with
        | none => simp only [select, List.foldl_cons, hj]
        | some a =>
          simp only [select, List.foldl_cons, hj, not_le.mpr (hlarger a hj), ↓reduceIte]
      rw [hs]
      rcases ih start with ⟨he, hlt⟩ | ⟨hmem, hget, hle, hmin⟩
      · refine Or.inl ⟨he, ?_⟩
        intro i hi e hie
        rcases List.mem_cons.mp hi with rfl | hi
        · exact hlarger e hie
        · exact hlt i hi e hie
      · refine Or.inr ⟨List.mem_cons_of_mem _ hmem, hget, hle, ?_⟩
        intro i hi e hie
        rcases List.mem_cons.mp hi with rfl | hi
        · exact hle.trans (hlarger e hie).le
        · exact hmin i hi e hie

/-- Advancing one cursor takes exactly its head out of what remains. -/
theorem remaining_update (ids : List ι) (hn : ids.Nodup) (runs : ι → List E) (pos : ι → ℕ) (j : ι)
    (hj : j ∈ ids) (e : E) (he : (runs j)[pos j]? = some e) :
    (remaining ids runs pos).Perm
      (e :: remaining ids runs (Function.update pos j (pos j+1))) := by
  induction ids with
  | nil => exact absurd hj List.not_mem_nil
  | cons i ids ih =>
    obtain ⟨hi, hn'⟩ := List.nodup_cons.mp hn
    simp only [remaining, List.flatMap_cons] at ih ⊢
    by_cases hij : i = j
    · subst hij
      have hrest : ids.flatMap (fun k => (runs k).drop (Function.update pos i (pos i+1) k)) =
          ids.flatMap fun k => (runs k).drop (pos k) := by
        apply List.flatMap_congr
        intro k hk
        have hki : k ≠ i := fun h => hi (h ▸ hk)
        rw [Function.update_of_ne hki]
      have hlt : pos i < (runs i).length := (List.getElem?_eq_some_iff.mp he).1
      have hdrop : (runs i).drop (pos i) = e :: (runs i).drop (pos i+1) := by
        rw [List.drop_eq_getElem_cons hlt, (List.getElem?_eq_some_iff.mp he).2]
      rw [hrest, Function.update_self, hdrop]
      exact List.Perm.refl _
    · have hmem : j ∈ ids := (List.mem_cons.mp hj).resolve_left (fun h => hij h.symm)
      rw [Function.update_of_ne hij]
      calc
        ((runs i).drop (pos i) ++ ids.flatMap fun k => (runs k).drop (pos k)).Perm
            ((runs i).drop (pos i) ++ e :: ids.flatMap fun k =>
              (runs k).drop (Function.update pos j (pos j+1) k)) := (ih hn' hmem).append_left _
        (_ : List E).Perm _ := List.perm_middle

/-- The merge invariant: everything is either out, in order, or remaining, and
nothing remaining is smaller than anything out. -/
structure Merged (ids : List ι) (runs : ι → List E) (all : List E) (s : State ι E) : Prop where
  perm : (s.out ++ remaining ids runs s.pos).Perm all
  sorted : s.out.Pairwise fun a b => key a ≤ key b
  below : ∀ a ∈ s.out, ∀ b ∈ remaining ids runs s.pos, key a ≤ key b

omit [DecidableEq ι] in
/-- If anything remains, some run has a head. -/
theorem exists_head {ids : List ι} {runs : ι → List E} {pos : ι → ℕ}
    (hrem : remaining ids runs pos ≠ []) :
    ∃ i ∈ ids, ∃ e, (runs i)[pos i]? = some e ∧ e ∈ remaining ids runs pos := by
  obtain ⟨b, hb⟩ := List.exists_mem_of_ne_nil _ hrem
  obtain ⟨i, hi, hbi⟩ := List.mem_flatMap.mp hb
  obtain ⟨n, hlen, _⟩ := List.getElem_of_mem hbi
  rw [List.length_drop] at hlen
  have hlt : pos i < (runs i).length := by omega
  refine ⟨i, hi, (runs i)[pos i], List.getElem?_eq_getElem hlt, ?_⟩
  apply List.mem_flatMap.mpr
  refine ⟨i, hi, ?_⟩
  rw [List.drop_eq_getElem_cons hlt]
  exact List.mem_cons_self

variable {key}

theorem Merged.step {ids : List ι} (hn : ids.Nodup) {runs : ι → List E}
    (hruns : ∀ i ∈ ids, (runs i).Pairwise fun a b => key a ≤ key b) {big : E} {all : List E}
    (hbig : ∀ e ∈ all, key e ≤ key big) {s : State ι E} (h : Merged key ids runs all s)
    (hrem : remaining ids runs s.pos ≠ []) :
    Merged key ids runs all (step key ids runs big s) := by
  rcases select_cases key ids runs s.pos (s.idx, big) with ⟨_, hlt⟩ | ⟨hmem, hget, _, hmin⟩
  -- some run has a head, so one is selected
  · obtain ⟨i, hi, e, he, her⟩ := exists_head hrem
    have hall : e ∈ all := h.perm.mem_iff.mp (List.mem_append_right _ her)
    exact absurd (hbig e hall) (not_le.mpr (hlt i hi e he))
  · let best := select key ids runs s.pos (s.idx, big)
    have hup := remaining_update ids hn runs s.pos best.1 hmem best.2 hget
    have hbest (c : E) (hc : c ∈ remaining ids runs s.pos) : key best.2 ≤ key c := by
      obtain ⟨i, hi, hci⟩ := List.mem_flatMap.mp hc
      obtain ⟨n, hlen, hcn⟩ := List.getElem_of_mem hci
      rw [List.length_drop] at hlen
      rw [List.getElem_drop] at hcn
      have hhead := hmin i hi _ (List.getElem?_eq_getElem (by omega : s.pos i < (runs i).length))
      -- `c` is the head of its run or stands behind it, and the run is sorted
      rcases Nat.eq_zero_or_pos n with rfl | hpos
      · simp only [Nat.add_zero] at hcn
        rwa [hcn] at hhead
      · have hs := List.pairwise_iff_getElem.mp (hruns i hi) (s.pos i) (s.pos i+n)
          (by omega) (by omega) (by omega)
        rw [hcn] at hs
        exact hhead.trans hs
    -- What is appended was still remaining, so nothing out is larger.
    have hin : best.2 ∈ remaining ids runs s.pos := hup.mem_iff.mpr List.mem_cons_self
    refine ⟨?_, ?_, ?_⟩
    · change (s.out ++ [best.2] ++ _).Perm all
      rw [List.append_assoc]
      exact (hup.symm.append_left _).trans h.perm
    · apply List.pairwise_append.mpr
      refine ⟨h.sorted, List.pairwise_singleton _ _, ?_⟩
      intro a ha c hc
      rw [List.mem_singleton.mp hc]
      exact h.below a ha _ hin
    · intro a ha c hc
      have hc' : c ∈ remaining ids runs s.pos := hup.mem_iff.mpr (List.mem_cons_of_mem _ hc)
      rcases List.mem_append.mp ha with ha | ha
      · exact h.below a ha c hc'
      · rw [List.mem_singleton.mp ha]
        exact hbest c hc'

theorem length_iterate_step (ids : List ι) (runs : ι → List E) (big : E) (n : ℕ) (s : State ι E) :
    ((step key ids runs big)^[n] s).out.length = s.out.length+n := by
  induction n with
  | zero => rfl
  | succ n ih =>
    rw [Function.iterate_succ_apply', step, List.length_append, ih, List.length_singleton,
      Nat.add_assoc]

/-- While something remains, a step takes the head of a run that is not used up. -/
theorem Merged.step_takes {ids : List ι} {runs : ι → List E} {big : E} {all : List E}
    (hbig : ∀ e ∈ all, key e ≤ key big) {s : State ι E} (h : Merged key ids runs all s)
    (hrem : remaining ids runs s.pos ≠ []) :
    ∃ j ∈ ids, ∃ e, (runs j)[s.pos j]? = some e ∧
      KWayMerge.step key ids runs big s =
        ⟨Function.update s.pos j (s.pos j+1), j, s.out ++ [e]⟩ := by
  rcases select_cases key ids runs s.pos (s.idx, big) with ⟨_, hlt⟩ | ⟨hmem, hget, _, _⟩
  · obtain ⟨i, hi, e, he, her⟩ := exists_head hrem
    have hall : e ∈ all := h.perm.mem_iff.mp (List.mem_append_right _ her)
    exact absurd (hbig e hall) (not_le.mpr (hlt i hi e he))
  · exact ⟨_, hmem, _, hget, rfl⟩

/-- After `n` steps `n` elements are out, so fewer than all of them leave
something to select. -/
theorem merged_iterate {ids : List ι} (hn : ids.Nodup) {runs : ι → List E}
    (hruns : ∀ i ∈ ids, (runs i).Pairwise fun a b => key a ≤ key b) {big : E}
    (hbig : ∀ e ∈ ids.flatMap runs, key e ≤ key big) (idx : ι) (n : ℕ)
    (hle : n ≤ (ids.flatMap runs).length) :
    Merged key ids runs (ids.flatMap runs) ((step key ids runs big)^[n] ⟨fun _ => 0, idx, []⟩) ∧
      (n < (ids.flatMap runs).length →
        remaining ids runs ((step key ids runs big)^[n] ⟨fun _ => 0, idx, []⟩).pos ≠ []) := by
  induction n with
  | zero =>
    have hstart : remaining ids runs (fun _ => 0) = ids.flatMap runs := by
      simp only [remaining, List.drop_zero]
    refine ⟨⟨?_, List.Pairwise.nil, fun a ha => absurd ha List.not_mem_nil⟩, ?_⟩
    · simp only [Function.iterate_zero, id_eq, List.nil_append, hstart]
      exact List.Perm.refl _
    · intro hlt
      simp only [Function.iterate_zero, id_eq, hstart]
      exact List.ne_nil_of_length_pos hlt
  | succ n ih =>
    obtain ⟨hM, hrem⟩ := ih (by omega)
    have hnext := hM.step hn hruns hbig (hrem (by omega))
    rw [Function.iterate_succ_apply']
    refine ⟨hnext, ?_⟩
    intro hlt hnil
    have hl := hnext.perm.length_eq
    rw [hnil, List.append_nil, ← Function.iterate_succ_apply' (step key ids runs big),
      length_iterate_step, List.length_nil] at hl
    omega

/-- As many steps as there are elements merge the runs. -/
theorem iterate_step {ids : List ι} (hn : ids.Nodup) {runs : ι → List E}
    (hruns : ∀ i ∈ ids, (runs i).Pairwise fun a b => key a ≤ key b) {big : E}
    (hbig : ∀ e ∈ ids.flatMap runs, key e ≤ key big) (idx : ι) :
    ((step key ids runs big)^[(ids.flatMap runs).length] ⟨fun _ => 0, idx, []⟩).out.Perm
        (ids.flatMap runs) ∧
      ((step key ids runs big)^[(ids.flatMap runs).length] ⟨fun _ => 0, idx, []⟩).out.Pairwise
        fun a b => key a ≤ key b := by
  obtain ⟨hM, _⟩ := merged_iterate hn hruns hbig idx _ le_rfl
  -- At the end everything is out, so nothing remains.
  have hnil : remaining ids runs
      ((step key ids runs big)^[(ids.flatMap runs).length] ⟨fun _ => 0, idx, []⟩).pos = [] := by
    have hl := hM.perm.length_eq
    rw [List.length_append, length_iterate_step, List.length_nil] at hl
    exact List.eq_nil_of_length_eq_zero (by omega)
  have hperm := hM.perm
  rw [hnil, List.append_nil] at hperm
  exact ⟨hperm, hM.sorted⟩

/-- Every step of a merge takes the head of a run that is not used up. -/
theorem iterate_takes {ids : List ι} (hn : ids.Nodup) {runs : ι → List E}
    (hruns : ∀ i ∈ ids, (runs i).Pairwise fun a b => key a ≤ key b) {big : E}
    (hbig : ∀ e ∈ ids.flatMap runs, key e ≤ key big) (idx : ι) (n : ℕ)
    (hlt : n < (ids.flatMap runs).length) :
    ∃ j ∈ ids, ∃ e,
      (runs j)[((step key ids runs big)^[n] ⟨fun _ => 0, idx, []⟩).pos j]? = some e ∧
      (step key ids runs big)^[n+1] ⟨fun _ => 0, idx, []⟩ =
        ⟨Function.update ((step key ids runs big)^[n] ⟨fun _ => 0, idx, []⟩).pos j
            (((step key ids runs big)^[n] ⟨fun _ => 0, idx, []⟩).pos j+1), j,
          ((step key ids runs big)^[n] ⟨fun _ => 0, idx, []⟩).out ++ [e]⟩ := by
  obtain ⟨hM, hrem⟩ := merged_iterate hn hruns hbig idx n hlt.le
  rw [Function.iterate_succ_apply']
  exact hM.step_takes hbig (hrem hlt)

end KWayMerge
