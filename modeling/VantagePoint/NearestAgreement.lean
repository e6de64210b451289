import VantagePoint.KNearest

/-! `VPT_knn` against `VPT_nn`. Whatever `tau` does while the list fills, it is the
distance of an entry in use, so a point hidden by it is no closer than that entry. -/
namespace VantagePoint
open WhileLoop GroupMetric

variable {α D : Type*}

section FirstEntry

variable [LinearOrder D] {dist : α → D} {DIST_MAX : D} {k : ℕ}

/-- The entries in use are sorted and `tau` is the largest of their distances. -/
structure TauOfLive (DIST_MAX : D) (s : KnnState α D) : Prop where
  fits : s.knnlistSize ≤ s.knnlist.length
  sorted : SortedByDistance s.live
  tau_empty : s.live = [] → s.tau = DIST_MAX
  tau_mem : s.live ≠ [] → ∃ e ∈ s.live, e.distance = s.tau

/-- From `a` to `b` the points `xs` have been accounted for: none of them, and no
entry there was, is closer than everything in use. -/
structure Covers (dist : α → D) (a b : KnnState α D) (xs : List α) : Prop where
  old : ∀ e ∈ a.live, ∃ f ∈ b.live, f.distance ≤ e.distance
  new : ∀ x ∈ xs, ∃ f ∈ b.live, f.distance ≤ dist x
  origin : ∀ f ∈ b.live, f ∈ a.live ∨ ∃ x ∈ xs, f = ⟨x, dist x⟩

theorem Covers.perm {a b : KnnState α D} {xs ys : List α} (hp : xs.Perm ys)
    (h : Covers dist a b xs) : Covers dist a b ys where
  old := h.old
  new x hx := h.new x (hp.mem_iff.mpr hx)
  origin f hf := by
    rcases h.origin f hf with hold | ⟨x, hx, he⟩
    · exact Or.inl hold
    · exact Or.inr ⟨x, hp.mem_iff.mp hx, he⟩

theorem Covers.trans {a b c : KnnState α D} {xs ys : List α} (h : Covers dist a b xs)
    (h' : Covers dist b c ys) : Covers dist a c (xs ++ ys) where
  old e he := by
    obtain ⟨f, hf, hle⟩ := h.old e he
    obtain ⟨g, hg, hle'⟩ := h'.old f hf
    exact ⟨g, hg, hle'.trans hle⟩
  new x hx := by
    rcases List.mem_append.mp hx with hx | hx
    · obtain ⟨f, hf, hle⟩ := h.new x hx
      obtain ⟨g, hg, hle'⟩ := h'.old f hf
      exact ⟨g, hg, hle'.trans hle⟩
    · exact h'.new x hx
  origin f hf := by
    rcases h'.origin f hf with hb | ⟨y, hy, he⟩
    · rcases h.origin f hb with ha | ⟨x, hx, he⟩
      · exact Or.inl ha
      · exact Or.inr ⟨x, List.mem_append_left _ hx, he⟩
    · exact Or.inr ⟨y, List.mem_append_right _ hy, he⟩

/-- Points at `tau` or beyond, all nearer than `DIST_MAX`, may be passed over. -/
theorem Covers.skip {a : KnnState α D} (h : TauOfLive DIST_MAX a) (xs : List α)
    (hmax : ∀ x ∈ xs, dist x < DIST_MAX) (hxs : ∀ x ∈ xs, a.tau ≤ dist x) : Covers dist a a xs where
  old e he := ⟨e, he, le_rfl⟩
  new x hx := by
    -- With nothing in use `tau` is still `DIST_MAX`, and no point lies there.
    have hne : a.live ≠ [] := by
      intro hnil
      have hle := hxs x hx
      rw [h.tau_empty hnil] at hle
      exact absurd (hmax x hx) (not_lt.mpr hle)
    obtain ⟨e, he, hte⟩ := h.tau_mem hne
    exact ⟨e, he, hte.trans_le (hxs x hx)⟩
  origin _ hf := Or.inl hf

theorem tauOfLive_start (DIST_MAX : D) :
    TauOfLive DIST_MAX (knnStart DIST_MAX : KnnState α D) where
  fits := le_rfl
  sorted := List.Pairwise.nil
  tau_empty _ := rfl
  tau_mem h := absurd rfl h

section Push

variable {s : KnnState α D}

theorem TauOfLive.push (h : TauOfLive DIST_MAX s) (hk : 0 < k) (x : α) (d : D) :
    TauOfLive DIST_MAX (s.push k x d) := by
  obtain ⟨_, e, he, hte⟩ := push_tau k hk s x d h.fits h.sorted
  refine ⟨push_fits k s x d h.fits h.sorted, ?_, ?_, fun _ => ⟨e, he, hte⟩⟩
  · rw [push_live k s x d h.fits h.sorted]
    exact (insertByDistance_sorted ⟨x, d⟩ h.sorted).sublist (List.take_sublist _ _)
  · intro hnil
    rw [hnil] at he
    exact absurd he List.not_mem_nil

/-- A push may drop the last entry, never the first. -/
theorem TauOfLive.covers_push (h : TauOfLive DIST_MAX s) (hk : 0 < k) (x : α) :
    Covers dist s (s.push k x (dist x)) [x] := by
  have hperm : (insertByDistance ⟨x, dist x⟩ s.live).Perm (⟨x, dist x⟩ :: s.live) :=
    insertByDistance_perm _ _
  have hsorted := insertByDistance_sorted ⟨x, dist x⟩ h.sorted
  have hlive := push_live k s x (dist x) h.fits h.sorted
  -- `m+1` entries are in use after the push, the first of the insertion among them.
  obtain ⟨m, hm⟩ : ∃ m, min (s.knnlistSize+1) k = m+1 := ⟨min s.knnlistSize (k-1), by omega⟩
  rw [hm] at hlive
  have hle : ∀ e ∈ insertByDistance ⟨x, dist x⟩ s.live,
      ∃ f ∈ (s.push k x (dist x)).live, f.distance ≤ e.distance := by
    cases hins : insertByDistance ⟨x, dist x⟩ s.live with
    | nil => exact fun e he => absurd he List.not_mem_nil
    | cons f l =>
      rw [hins] at hlive hsorted
      intro e he
      refine ⟨f, by rw [hlive]; exact List.mem_cons_self, ?_⟩
      rcases List.mem_cons.mp he with rfl | he
      · exact le_rfl
      · exact List.rel_of_pairwise_cons hsorted he
  refine ⟨?_, ?_, ?_⟩
  · intro e he
    exact hle e (hperm.mem_iff.mpr (List.mem_cons_of_mem _ he))
  · intro y hy
    rw [List.mem_singleton.mp hy]
    exact hle ⟨x, dist x⟩ (hperm.mem_iff.mpr List.mem_cons_self)
  · intro f hf
    rw [hlive] at hf
    rcases List.mem_cons.mp (hperm.mem_iff.mp (List.mem_of_mem_take hf)) with rfl | hf
    · exact Or.inr ⟨x, List.mem_singleton_self x, rfl⟩
    · exact Or.inl hf

theorem TauOfLive.considerListItem (h : TauOfLive DIST_MAX s) (hk : 0 < k) (x : α)
    (hx : dist x < DIST_MAX) :
    TauOfLive DIST_MAX (s.considerListItem k x (dist x)) ∧
      Covers dist s (s.considerListItem k x (dist x)) [x] := by
  unfold KnnState.considerListItem
  by_cases hlt : dist x < s.tau
  · rw [if_pos hlt]
    exact ⟨h.push hk x _, h.covers_push hk x⟩
  · rw [if_neg hlt]
    refine ⟨h, Covers.skip h [x] ?_ ?_⟩
    · intro y hy
      rwa [List.mem_singleton.mp hy]
    · intro y hy
      rw [List.mem_singleton.mp hy]
      exact not_lt.mp hlt

variable (dist) in
theorem TauOfLive.considerList (h : TauOfLive DIST_MAX s) (hk : 0 < k) (xs : List α)
    (hxs : ∀ x ∈ xs, dist x < DIST_MAX) :
    TauOfLive DIST_MAX
        ((xs.zip (xs.map dist)).foldl (fun s p => s.considerListItem k p.1 p.2) s) ∧
      Covers dist s
        ((xs.zip (xs.map dist)).foldl (fun s p => s.considerListItem k p.1 p.2) s) xs := by
  induction xs generalizing s with
  | nil => exact ⟨h, Covers.skip h [] hxs fun x hx => absurd hx List.not_mem_nil⟩
  | cons x xs ih =>
    obtain ⟨hx, hxcov⟩ := h.considerListItem hk x (hxs x List.mem_cons_self)
    obtain ⟨hrest, hrestcov⟩ := ih hx fun y hy => hxs y (List.mem_cons_of_mem _ hy)
    exact ⟨hrest, hxcov.trans hrestcov⟩

end Push

end FirstEntry

section OneEntry

variable [LinearOrder D] {DIST_MAX : D} {s : KnnState α D} {c : Closest α D}

/-- With `k = 1` the list holds what `VPT_nn` holds in its two variables. -/
structure SameClosest (DIST_MAX : D) (s : KnnState α D) (c : Closest α D) : Prop where
  fits : s.knnlistSize ≤ s.knnlist.length
  tau : s.tau = c.closestDist
  live : s.live = (c.closest.map fun x => ⟨x, c.closestDist⟩).toList
  unset : c.closest = none → c.closestDist = DIST_MAX

theorem SameClosest.sorted (h : SameClosest DIST_MAX s c) : SortedByDistance s.live := by
  rw [h.live]
  cases c.closest with
  | none => exact List.Pairwise.nil
  | some x => exact List.pairwise_singleton _ _

/-- An unconditional push evicts the farther of two entries, the later one on a
tie, and `VPT_nn` replaces `closest` only by a closer point. -/
theorem SameClosest.push (h : SameClosest DIST_MAX s c) (x : α) {d : D} (hd : d < DIST_MAX) :
    SameClosest DIST_MAX (s.push 1 x d) (c.consider x d) := by
  have hlive := push_live 1 s x d h.fits h.sorted
  have hone : min (s.knnlistSize+1) 1 = 1 := by omega
  rw [hone, h.live] at hlive
  have hcons : (s.push 1 x d).live =
      ((c.consider x d).closest.map fun y => ⟨y, (c.consider x d).closestDist⟩).toList ∧
      ∃ y, (c.consider x d).closest = some y := by
    unfold Closest.consider
    rw [hlive]
    cases hc : c.closest with
    -- The first push: the point is closer than `DIST_MAX`, so `VPT_nn` takes it too.
    | none =>
      have hlt : d < c.closestDist := by rwa [h.unset hc]
      rw [if_pos hlt]
      exact ⟨rfl, x, rfl⟩
    | some y =>
      by_cases hlt : d < c.closestDist
      · rw [if_pos hlt]
        refine ⟨?_, x, rfl⟩
        simp [insertByDistance, hlt]
      · rw [if_neg hlt]
        refine ⟨?_, y, hc⟩
        simp [insertByDistance, hlt, hc]
  obtain ⟨hlive', y, hy⟩ := hcons
  refine ⟨push_fits 1 s x d h.fits h.sorted, ?_, hlive', fun hnone => ?_⟩
  · obtain ⟨_, e, he, hte⟩ := push_tau 1 one_pos s x d h.fits h.sorted
    rw [hlive', hy] at he
    rw [← hte, List.mem_singleton.mp he]
  · rw [hy] at hnone
    cases hnone

theorem SameClosest.considerListItem (h : SameClosest DIST_MAX s c) (x : α) {d : D}
    (hd : d < DIST_MAX) : SameClosest DIST_MAX (s.considerListItem 1 x d) (c.consider x d) := by
  unfold KnnState.considerListItem
  by_cases hlt : d < s.tau
  · rw [if_pos hlt]
    exact h.push x hd
  · rw [if_neg hlt]
    -- Both test the same number.
    rw [h.tau] at hlt
    rw [Closest.consider, if_neg hlt]
    exact h

theorem SameClosest.considerList (h : SameClosest DIST_MAX s c) (dist : α → D) (xs : List α)
    (hxs : ∀ x ∈ xs, dist x < DIST_MAX) :
    SameClosest DIST_MAX
      ((xs.zip (xs.map dist)).foldl (fun s p => s.considerListItem 1 p.1 p.2) s)
      (xs.foldl (fun c x => c.consider x (dist x)) c) := by
  induction xs generalizing s c with
  | nil => exact h
  | cons x xs ih =>
    exact ih (h.considerListItem x (hxs x List.mem_cons_self)) fun y hy =>
      hxs y (List.mem_cons_of_mem _ hy)

/-- The two searches take the same path through the tree. -/
theorem knn_one_simulates_nn [Add D] [Sub D] (dist_fn : α → α → D) (q : α) (t : VPNode α D)
    (hmax : ∀ x ∈ t.items, dist_fn x q < DIST_MAX) :
    BothOk (SameClosest DIST_MAX)
      ((knnSearch 1 dist_fn q).visit dist_fn q t (knnStart DIST_MAX))
      ((nnSearch dist_fn q).visit dist_fn q t ⟨none, DIST_MAX⟩) := by
  refine visit_simulates (knnSearch 1 dist_fn q) (nnSearch dist_fn q) dist_fn q
    (fun s c h => h.tau) t ?_ ?_ _ _ ⟨le_rfl, rfl, rfl, fun _ => rfl⟩
  · intro s c v hv h
    exact ⟨_, _, rfl, rfl, h.push v (hmax v hv)⟩
  · intro s c xs hxs h
    exact ⟨_, _, rfl, rfl, h.considerList _ xs fun x hx => hmax x (hxs hx)⟩

end OneEntry

section Agreement

/-- The loop of `VPT_knn` comes to its end, and its list is what is returned. -/
theorem knn_loop_ends [LinearOrder D] [Add D] [Sub D] (dist_fn : α → α → D) (DIST_MAX : D)
    (t : VPNode α D) (hne : t.items ≠ []) (q : α) {k : ℕ} (hk : 1 ≤ k) :
    ∃ s, (knnSearch k dist_fn q).visit dist_fn q t (knnStart DIST_MAX) = .ok s ∧
      vptKnn dist_fn DIST_MAX t t.items.length q k = (s.live, s.knnlistSize) := by
  have hrun := loop_run_start (knnSearch k dist_fn q) dist_fn q (knnStart DIST_MAX) t
  have hsize : ¬ (t.items.length = 0 ∨ k = 0) := by
    rintro (h | h)
    · exact hne (List.eq_nil_of_length_eq_zero h)
    · omega
  cases hv : (knnSearch k dist_fn q).visit dist_fn q t (knnStart DIST_MAX) with
  | error e => exact e.elim
  | ok s =>
    rw [hv] at hrun
    refine ⟨s, rfl, ?_⟩
    rw [vptKnn, if_neg hsize, hrun]
    rfl

variable [AddCommGroup D] [LinearOrder D] [IsOrderedAddMonoid D] {dist_fn : α → α → D}

/-- What `VPT_knn` holds after a subtree covers the points of the subtree. -/
theorem knn_visit_covers {DIST_MAX : D} {k : ℕ} (hk : 1 ≤ k) (hd : IsMetric dist_fn) (q : α)
    (t : VPNode α D) (ht : t.Ordered dist_fn) (hmax : ∀ x ∈ t.items, dist_fn x q < DIST_MAX)
    (a b : KnnState α D) (ha : TauOfLive DIST_MAX a)
    (h : (knnSearch k dist_fn q).visit dist_fn q t a = .ok b) :
    TauOfLive DIST_MAX b ∧ Covers (fun x => dist_fn x q) a b t.items := by
  -- The relation of the traversal rule, for points within range.
  let R (a b : KnnState α D) (xs : List α) : Prop := (∀ x ∈ xs, dist_fn x q < DIST_MAX) →
    TauOfLive DIST_MAX a → TauOfLive DIST_MAX b ∧ Covers (fun x => dist_fn x q) a b xs
  refine visit_rule (R := R) (knnSearch k dist_fn q) dist_fn q ?_ ?_ ?_ ?_ ?_ hd t ht a b h hmax ha
  · intro a b xs ys hp hR hys ha
    obtain ⟨hb, hcov⟩ := hR (fun x hx => hys x (hp.mem_iff.mp hx)) ha
    exact ⟨hb, hcov.perm hp⟩
  · intro a b c xs ys hR hR' hxys ha
    obtain ⟨hb, hcov⟩ := hR (fun x hx => hxys x (List.mem_append_left _ hx)) ha
    obtain ⟨hc, hcov'⟩ := hR' (fun y hy => hxys y (List.mem_append_right _ hy)) hb
    exact ⟨hc, hcov.trans hcov'⟩
  · intro a b v hv _ ha
    cases hv
    exact ⟨ha.push hk v _, ha.covers_push hk v⟩
  · intro a b xs hl hxs ha
    cases hl
    exact ha.considerList _ hk xs hxs
  · intro a xs hskip hxs ha
    exact ⟨ha, Covers.skip ha xs hxs fun x hx => (hskip x hx).le⟩

end Agreement

end VantagePoint
