import VantagePoint.KNearest

/-! When `VPT_knn` meets its contract: the search is followed in step with the
walk, and the points the walk missed decide. -/
namespace VantagePoint
open WhileLoop GroupMetric Smallest

variable {α D : Type*}

section Advance

variable [LinearOrder D] {dist : α → D} {DIST_MAX : D} {k : ℕ}

/-- From `s`, `w` to `s'`, `w'` the points `xs` have been dealt with: pushed,
missed by the walk, or passed over by a full list. -/
def KnnAdvance (dist : α → D) (DIST_MAX : D) (k : ℕ) (s : KnnState α D) (w : Walk α D)
    (s' : KnnState α D) (w' : Walk α D) (xs : List α) : Prop :=
  ∀ P Z, KnnInv dist DIST_MAX k s w P Z → ∃ P' Z', KnnInv dist DIST_MAX k s' w' P' Z' ∧
    (P'.map VPEntry.item ++ w'.missed ++ Z').Perm
      (xs ++ (P.map VPEntry.item ++ w.missed ++ Z))

theorem KnnAdvance.perm {s s' : KnnState α D} {w w' : Walk α D} {xs ys : List α}
    (hp : xs.Perm ys) (h : KnnAdvance dist DIST_MAX k s w s' w' xs) :
    KnnAdvance dist DIST_MAX k s w s' w' ys := by
  intro P Z hI
  obtain ⟨P', Z', hI', hperm⟩ := h P Z hI
  exact ⟨P', Z', hI', hperm.trans (hp.append_right _)⟩

theorem KnnAdvance.trans {a b c : KnnState α D} {w w' w'' : Walk α D} {xs ys : List α}
    (h : KnnAdvance dist DIST_MAX k a w b w' xs)
    (h' : KnnAdvance dist DIST_MAX k b w' c w'' ys) :
    KnnAdvance dist DIST_MAX k a w c w'' (xs ++ ys) := by
  intro P Z hI
  obtain ⟨P', Z', hI', hperm⟩ := h P Z hI
  obtain ⟨P'', Z'', hI'', hperm'⟩ := h' P' Z' hI'
  refine ⟨P'', Z'', hI'', hperm'.trans ?_⟩
  calc
    (ys ++ (P'.map VPEntry.item ++ w'.missed ++ Z')).Perm
        (ys ++ (xs ++ (P.map VPEntry.item ++ w.missed ++ Z))) := hperm.append_left _
    _ = (ys ++ xs) ++ (P.map VPEntry.item ++ w.missed ++ Z) := (List.append_assoc _ _ _).symm
    (_ : List α).Perm _ := List.perm_append_comm.append_right _

theorem KnnAdvance.refl (s : KnnState α D) (w : Walk α D) :
    KnnAdvance dist DIST_MAX k s w s w [] :=
  fun P Z hI => ⟨P, Z, hI, List.Perm.refl _⟩

theorem knnAdvance_push (hk : 0 < k) (s : KnnState α D) (w : Walk α D) (x : α) :
    KnnAdvance dist DIST_MAX k s w (s.push k x (dist x)) (w.meet k (dist x)) [x] := by
  intro P Z hI
  have hm : (w.meet k (dist x)).missed = w.missed := by
    unfold Walk.meet
    split <;> rfl
  refine ⟨⟨x, dist x⟩ :: P, Z, hI.push hk x, ?_⟩
  rw [hm]
  exact List.Perm.refl _

/-- A pruned subtree or a filtered point while the list is filling. -/
theorem knnAdvance_miss (s : KnnState α D) (w : Walk α D) (hw : w.met < k) (xs : List α) :
    KnnAdvance dist DIST_MAX k s w s (w.miss k xs) xs := by
  intro P Z hI
  have hm : w.miss k xs = { w with missed := xs ++ w.missed } := if_neg (not_le.mpr hw)
  rw [hm]
  refine ⟨P, Z, { hI with }, ?_⟩
  calc
    (P.map VPEntry.item ++ (xs ++ w.missed) ++ Z).Perm
        (xs ++ P.map VPEntry.item ++ w.missed ++ Z) := by
      rw [← List.append_assoc]
      exact (List.perm_append_comm.append_right _).append_right _
    _ = _ := by simp only [List.append_assoc]

/-- A pruned subtree or a filtered point once the list is full. -/
theorem knnAdvance_skip (s : KnnState α D) (w : Walk α D) (hw : k ≤ w.met) (xs : List α)
    (hx : ∀ x ∈ xs, s.tau ≤ dist x) : KnnAdvance dist DIST_MAX k s w s w xs := by
  intro P Z hI
  refine ⟨P, xs ++ Z, { hI with filling := fun h => absurd h (not_lt.mpr hw), full := ?_ }, ?_⟩
  · intro hw
    obtain ⟨hP, hZ⟩ := hI.full hw
    refine ⟨hP, fun z hz => ?_⟩
    rcases List.mem_append.mp hz with hz | hz
    · exact hx z hz
    · exact hZ z hz
  · rw [← List.append_assoc, ← List.append_assoc]
    exact List.perm_append_comm.append_right _

theorem knnAdvance_listItem (hk : 0 < k) (s : KnnState α D) (w : Walk α D) (x : α)
    (hmax : dist x < DIST_MAX) :
    KnnAdvance dist DIST_MAX k s w (s.considerListItem k x (dist x)) (w.point k dist x) [x] := by
  intro P Z hI
  unfold KnnState.considerListItem
  by_cases hx : dist x < s.tau
  · rw [if_pos hx]
    have hpoint : w.point k dist x = w.meet k (dist x) := by
      rcases Nat.lt_or_ge w.met k with hw | hw
      · apply if_pos
        intro f hf
        rw [(((hI.filling hw).2.2 f).mp hf).2]
        exact hx
      · rw [point_of_full hw, meet_of_full hw]
    rw [hpoint]
    exact knnAdvance_push hk s w x P Z hI
  · rw [if_neg hx]
    rcases Nat.lt_or_ge w.met k with hw | hw
    · have hP : P ≠ [] := by
        intro hnil
        rw [hI.tau_empty hnil] at hx
        exact hx hmax
      have hfar : w.far = some s.tau := ((hI.filling hw).2.2 s.tau).mpr ⟨hP, rfl⟩
      have hpoint : w.point k dist x = w.miss k [x] := by
        apply if_neg
        intro hall
        exact hx (hall s.tau hfar)
      rw [hpoint]
      exact knnAdvance_miss s w hw [x] P Z hI
    · rw [point_of_full hw]
      apply knnAdvance_skip s w hw [x] _ P Z hI
      intro y hy
      rw [List.mem_singleton.mp hy]
      exact not_lt.mp hx

theorem knnAdvance_list (hk : 0 < k) (s : KnnState α D) (w : Walk α D) (xs : List α)
    (hmax : ∀ x ∈ xs, dist x < DIST_MAX) :
    KnnAdvance dist DIST_MAX k s w
      ((xs.zip (xs.map dist)).foldl (fun s p => s.considerListItem k p.1 p.2) s)
      (xs.foldl (Walk.point k dist) w) xs := by
  induction xs generalizing s w with
  | nil => exact KnnAdvance.refl s w
  | cons x xs ih =>
    have hone := knnAdvance_listItem hk s w x (hmax x List.mem_cons_self)
    have hrest := ih (s.considerListItem k x (dist x)) (w.point k dist x)
      (fun y hy => hmax y (List.mem_cons_of_mem _ hy))
    exact hone.trans hrest

end Advance

section Visit

variable [AddCommGroup D] [LinearOrder D] [IsOrderedAddMonoid D] {dist_fn : α → α → D}
  {DIST_MAX : D} {k : ℕ}

/-- Once the list is full no subtree is pruned wrongly: the traversal rule
applies as it stands, and the walk is over. -/
theorem knn_children_full (q : α) (v : α) (r : D) (left right : VPNode α D)
    (hd : IsMetric dist_fn) (ho : (VPNode.branch v r left right).Ordered dist_fn)
    (s s' : KnnState α D) (w : Walk α D) (hw : k ≤ w.met)
    (hl : ∀ s s' w, (knnSearch k dist_fn q).visit dist_fn q left s = .ok s' →
      KnnAdvance (fun x => dist_fn x q) DIST_MAX k s w s' (left.walk k dist_fn q w) left.items)
    (hr : ∀ s s' w, (knnSearch k dist_fn q).visit dist_fn q right s = .ok s' →
      KnnAdvance (fun x => dist_fn x q) DIST_MAX k s w s' (right.walk k dist_fn q w) right.items)
    (h : (if dist_fn v q < r then
        (visitIf (dist_fn v q+s.tau ≥ r) ((knnSearch k dist_fn q).visit dist_fn q right) s).bind
          (visitIf (dist_fn v q-s.tau ≤ r) ((knnSearch k dist_fn q).visit dist_fn q left))
      else
        (visitIf (dist_fn v q-s.tau ≤ r) ((knnSearch k dist_fn q).visit dist_fn q left) s).bind
          (visitIf (dist_fn v q+s.tau ≥ r) ((knnSearch k dist_fn q).visit dist_fn q right))) =
      .ok s') :
    KnnAdvance (fun x => dist_fn x q) DIST_MAX k s w s' w (left.items ++ right.items) := by
  obtain ⟨hin, hout, _, _⟩ := ho
  let R (a b : KnnState α D) (xs : List α) : Prop :=
    KnnAdvance (fun x => dist_fn x q) DIST_MAX k a w b w xs
  have hperm (a b : KnnState α D) (xs ys : List α) (hp : xs.Perm ys) (hR : R a b xs) : R a b ys :=
    hR.perm hp
  have htrans (a b c : KnnState α D) (xs ys : List α) (hR : R a b xs) (hR' : R b c ys) :
      R a c (xs ++ ys) := hR.trans hR'
  have hskip (a : KnnState α D) (xs : List α) (hx : ∀ x ∈ xs, a.tau < dist_fn x q) : R a a xs :=
    knnAdvance_skip a w hw xs (fun x hx' => (hx x hx').le)
  have hleft (a b : KnnState α D) (hv : (knnSearch k dist_fn q).visit dist_fn q left a = .ok b) :
      R a b left.items := by
    have hstep := hl a b w hv
    rwa [walk_of_full hw] at hstep
  have hright (a b : KnnState α D) (hv : (knnSearch k dist_fn q).visit dist_fn q right a = .ok b) :
      R a b right.items := by
    have hstep := hr a b w hv
    rwa [walk_of_full hw] at hstep
  have hnl (hn : ¬ dist_fn v q-s.tau ≤ r) : ∀ x ∈ left.items, s.tau < dist_fn x q :=
    fun x hx => hd.lt_of_inside (hin x hx) hn
  have hnr (hn : ¬ dist_fn v q+s.tau ≥ r) : ∀ x ∈ right.items, s.tau < dist_fn x q :=
    fun x hx => hd.lt_of_outside (hout x hx) hn
  by_cases hlt : dist_fn v q < r
  · rw [if_pos hlt] at h
    exact (visit_children_rule (knnSearch k dist_fn q) dist_fn q (R := R) hperm htrans hskip
      right left _ _ s s' hright hleft hnr hnl h).perm List.perm_append_comm
  · rw [if_neg hlt] at h
    exact visit_children_rule (knnSearch k dist_fn q) dist_fn q (R := R) hperm htrans hskip
      left right _ _ s s' hleft hright hnl hnr h

/-- The search of a subtree keeps step with the walk of that subtree. -/
theorem knn_visit_advance (hk : 0 < k) (q : α) (hd : IsMetric dist_fn) (t : VPNode α D)
    (ht : t.Ordered dist_fn) (hmax : ∀ x ∈ t.items, dist_fn x q < DIST_MAX)
    (s s' : KnnState α D) (w : Walk α D)
    (h : (knnSearch k dist_fn q).visit dist_fn q t s = .ok s') :
    KnnAdvance (fun x => dist_fn x q) DIST_MAX k s w s' (t.walk k dist_fn q w) t.items := by
  -- Induction on the subtree; at a branch the case is whether the list is full
  -- once the item has been pushed.
  induction t generalizing s s' w with
  | pointlist xs =>
    cases h
    exact knnAdvance_list hk s w xs hmax
  | branch v r left right ihl ihr =>
    have ho := ht
    obtain ⟨hin, hout, hol, hor⟩ := ht
    have hl := ihl hol (fun x hx => hmax x
      (List.mem_cons_of_mem _ (List.mem_append_left _ hx)))
    have hr := ihr hor (fun x hx => hmax x
      (List.mem_cons_of_mem _ (List.mem_append_right _ hx)))
    let d := dist_fn v q
    let s1 := s.push k v d
    let w1 := w.meet k d
    have hpush : KnnAdvance (fun x => dist_fn x q) DIST_MAX k s w s1 w1 [v] :=
      knnAdvance_push hk s w v
    have hrest : (if d < r then
        (visitIf (d+s1.tau ≥ r) ((knnSearch k dist_fn q).visit dist_fn q right) s1).bind
          (visitIf (d-s1.tau ≤ r) ((knnSearch k dist_fn q).visit dist_fn q left))
      else
        (visitIf (d-s1.tau ≤ r) ((knnSearch k dist_fn q).visit dist_fn q left) s1).bind
          (visitIf (d+s1.tau ≥ r) ((knnSearch k dist_fn q).visit dist_fn q right))) = .ok s' := h
    have hwalk : (VPNode.branch v r left right).walk k dist_fn q w =
        if d < r then
          left.walk k dist_fn q (if ∀ f ∈ w1.far, d+f ≥ r then right.walk k dist_fn q w1
            else w1.miss k right.items)
        else right.walk k dist_fn q (left.walk k dist_fn q w1) :=
      walk_branch k w dist_fn q v r left right
    -- Full: `tau` bounds the answer and pruning loses nothing.
    by_cases hw : k ≤ w1.met
    · have hover : (VPNode.branch v r left right).walk k dist_fn q w = w1 := by
        rw [hwalk]
        simp only [walk_of_full hw, miss_of_full hw, ite_self]
      rw [hover]
      exact hpush.trans (knn_children_full q v r left right hd ho s1 s' w1 hw hl hr hrest)
    · intro P Z hI
      have hI1 : KnnInv (fun x => dist_fn x q) DIST_MAX k s1 w1 (⟨v, d⟩ :: P) Z := hI.push hk v
      have hfar : w1.far = some s1.tau :=
        ((hI1.filling (not_le.mp hw)).2.2 s1.tau).mpr ⟨List.cons_ne_nil _ _, rfl⟩
      have htau : d ≤ s1.tau := hI1.le_tau_of_filling (not_le.mp hw) ⟨v, d⟩ List.mem_cons_self
      have hpos : 0 ≤ s1.tau := (hd.nonneg v q).trans htau
      -- no point lies under a left child that is skipped while the list fills
      have hempty (hn : ¬ d-s1.tau ≤ r) : left.items = [] := by
        apply List.eq_nil_iff_forall_not_mem.mpr
        intro x hx
        apply hn
        calc
          d-s1.tau ≤ 0 := sub_nonpos.mpr htau
          _ ≤ dist_fn v x := hd.nonneg v x
          _ ≤ r := hin x hx
      have hleft (a b : KnnState α D) (u : Walk α D)
          (hv : visitIf (d-s1.tau ≤ r) ((knnSearch k dist_fn q).visit dist_fn q left) a = .ok b) :
          KnnAdvance (fun x => dist_fn x q) DIST_MAX k a u b (left.walk k dist_fn q u)
            left.items := by
        rcases (visitIf_eq_ok _ _ _ _).mp hv with ⟨_, hv⟩ | ⟨hn, rfl⟩
        · exact hl a b u hv
        · rw [walk_of_no_items k u dist_fn q left (hempty hn), hempty hn]
          exact KnnAdvance.refl a u
      have hchildren : KnnAdvance (fun x => dist_fn x q) DIST_MAX k s1 w1 s'
          ((VPNode.branch v r left right).walk k dist_fn q w) (left.items ++ right.items) := by
        rw [hwalk]
        simp only [hfar, Option.mem_some_iff, forall_eq']
        by_cases hlt : d < r
        · rw [if_pos hlt] at hrest ⊢
          obtain ⟨c, hfirst, hsecond⟩ := (except_bind_eq_ok _ _ _).mp hrest
          have hright : KnnAdvance (fun x => dist_fn x q) DIST_MAX k s1 w1 c
              (if d+s1.tau ≥ r then right.walk k dist_fn q w1 else w1.miss k right.items)
              right.items := by
            rcases (visitIf_eq_ok _ _ _ _).mp hfirst with ⟨hp, hv⟩ | ⟨hn, rfl⟩
            · rw [if_pos hp]
              exact hr s1 c w1 hv
            · rw [if_neg hn]
              exact knnAdvance_miss s1 w1 (not_le.mp hw) right.items
          exact (hright.trans (hleft c s' _ hsecond)).perm List.perm_append_comm
        · rw [if_neg hlt] at hrest ⊢
          obtain ⟨c, hfirst, hsecond⟩ := (except_bind_eq_ok _ _ _).mp hrest
          -- outside the ball the right child always passes its test: `tau` is not
          -- negative
          have hreach : r ≤ d+s1.tau := by
            calc
              r ≤ d := not_lt.mp hlt
              _ ≤ d+s1.tau := le_add_of_nonneg_right hpos
          rcases (visitIf_eq_ok _ _ _ _).mp hsecond with ⟨_, hv⟩ | ⟨hn, _⟩
          · exact (hleft s1 c w1 hfirst).trans (hr c s' _ hv)
          · exact absurd hreach hn
      exact (hpush.trans hchildren) P Z hI

/-- What `VPT_knn` returns, in terms of the entries pushed (`P`), the points
passed over by a full list (`Z`) and the points the walk missed. -/
theorem vptKnn_ends (hk : 0 < k) (q : α) (hd : IsMetric dist_fn) (t : VPNode α D)
    (ht : t.Ordered dist_fn) (hne : t.items ≠ []) (hmax : ∀ x ∈ t.items, dist_fn x q < DIST_MAX) :
    ∃ s P Z, vptKnn dist_fn DIST_MAX t t.items.length q k = (s.live, s.knnlistSize) ∧
      KnnInv (fun x => dist_fn x q) DIST_MAX k s (t.walk k dist_fn q ⟨0, none, []⟩) P Z ∧
      (P.map VPEntry.item ++ (t.walk k dist_fn q ⟨0, none, []⟩).missed ++ Z).Perm t.items := by
  have hrun := loop_run_start (knnSearch k dist_fn q) dist_fn q (knnStart DIST_MAX) t
  have hsize : ¬ (t.items.length = 0 ∨ k = 0) := by
    rintro (h | h)
    · exact hne (List.eq_nil_of_length_eq_zero h)
    · omega
  cases hv : (knnSearch k dist_fn q).visit dist_fn q t (knnStart DIST_MAX) with
  | error e => exact e.elim
  | ok s =>
    obtain ⟨P, Z, hI, hperm⟩ := knn_visit_advance hk q hd t ht hmax _ s ⟨0, none, []⟩ hv [] []
      (knnInv_start hk)
    refine ⟨s, P, Z, ?_, hI, by simpa using hperm⟩
    rw [hv] at hrun
    rw [vptKnn, if_neg hsize, hrun]
    rfl

end Visit

end VantagePoint
