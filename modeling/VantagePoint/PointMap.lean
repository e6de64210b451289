import VantagePoint.MemorySearch

/-! The library never looks inside a point: it copies points and measures them. So a
search of relabelled points, with the distances they had, is the relabelled search.
The Java binding stores indices and measures the objects they stand for. -/
namespace VantagePoint
open WhileLoop

universe u v w

variable {α : Type u} {β : Type w} {D : Type v} (f : α → β)

section Relabel

def VPEntry.map (e : VPEntry α D) : VPEntry β D := ⟨f e.item, e.distance⟩

def VPNode.map : VPNode α D → VPNode β D
  | .branch item radius left right => .branch (f item) radius left.map right.map
  | .pointlist items => .pointlist (items.map f)

def Closest.map (c : Closest α D) : Closest β D := ⟨c.closest.map f, c.closestDist⟩

def KnnState.map (s : KnnState α D) : KnnState β D :=
  ⟨s.knnlist.map (VPEntry.map f), s.knnlistSize, s.tau⟩

def WithinState.map (s : WithinState α D) : WithinState β D where
  allWithin := s.allWithin
  cells i := (s.cells i).map (VPEntry.map f)
  resultSpace := s.resultSpace
  numResults := s.numResults
  reallocs := s.reallocs
  writes := s.writes.map fun w => ⟨w.index, w.capacity, w.entry.map f⟩

def Query.map : Query α D → Query β D
  | .nn q => .nn (f q)
  | .knn q k => .knn (f q) k
  | .allWithin q max_dist buffer realloc => .allWithin (f q) max_dist buffer realloc

def Answer.map : Answer α D → Answer β D
  | .nn c => .nn (c.map f)
  | .knn result => .knn (result.1.map (VPEntry.map f), result.2)
  | .allWithin result => .allWithin (result.1, result.2.map f)

/-- The distances of relabelled points. -/
def pullback (dist_fn : β → β → D) : α → α → D := fun x y => dist_fn (f x) (f y)

@[simp] theorem map_item (e : VPEntry α D) : (e.map f).item = f e.item := rfl

@[simp] theorem map_distance (e : VPEntry α D) : (e.map f).distance = e.distance := rfl

@[simp] theorem map_tau (s : KnnState α D) : (s.map f).tau = s.tau := rfl

@[simp] theorem map_allWithin (s : WithinState α D) : (s.map f).allWithin = s.allWithin := rfl

@[simp] theorem map_reallocs (s : WithinState α D) : (s.map f).reallocs = s.reallocs := rfl

@[simp] theorem map_branch (v : α) (r : D) (left right : VPNode α D) :
    (VPNode.branch v r left right).map f = .branch (f v) r (left.map f) (right.map f) := rfl

@[simp] theorem map_pointlist (xs : List α) :
    (VPNode.pointlist xs : VPNode α D).map f = .pointlist (xs.map f) := rfl

@[simp] theorem map_items (t : VPNode α D) : (t.map f).items = t.items.map f := by
  induction t with
  | pointlist xs => rfl
  | branch v r left right ihl ihr => simp [ihl, ihr]

@[simp] theorem map_nodeCount (t : VPNode α D) : (t.map f).nodeCount = t.nodeCount := by
  induction t with
  | pointlist xs => rfl
  | branch v r left right ihl ihr => simp [VPNode.nodeCount, ihl, ihr]

theorem map_ordered [LinearOrder D] (dist_fn : β → β → D) (t : VPNode α D) :
    (t.map f).Ordered dist_fn ↔ t.Ordered (pullback f dist_fn) := by
  induction t with
  | pointlist xs => rfl
  | branch v r left right ihl ihr => simp [VPNode.Ordered, pullback, ihl, ihr]

end Relabel

section Visit

variable {σ τ ε δ : Type*}

/-- Both ways out of a computation, relabelled. -/
def mapBoth (g : σ → τ) (h : ε → δ) : Except ε σ → Except δ τ
  | .ok a => .ok (g a)
  | .error e => .error (h e)

theorem mapBoth_bind {g : σ → τ} {h : ε → δ} (x : Except ε σ) {F : τ → Except δ τ}
    {G : σ → Except ε σ} (hFG : ∀ a, F (g a) = mapBoth g h (G a)) :
    (mapBoth g h x).bind F = mapBoth g h (x.bind G) := by
  cases x with
  | error e => rfl
  | ok a => exact hFG a

theorem mapBoth_visitIf {g : σ → τ} {h : ε → δ} (p : Prop) [Decidable p] {F : τ → Except δ τ}
    {G : σ → Except ε σ} (hFG : ∀ a, F (g a) = mapBoth g h (G a)) (a : σ) :
    visitIf p F (g a) = mapBoth g h (visitIf p G a) := by
  by_cases hp : p
  · simpa only [visitIf, hp, ↓reduceIte] using hFG a
  · simp only [visitIf, hp, ↓reduceIte, mapBoth]

variable [LinearOrder D] [Add D] [Sub D]

/-- The search of a relabelled tree is the relabelled search. -/
theorem visit_map (g : σ → τ) (h : ε → δ) (S : Search α D σ ε) (T : Search β D τ δ)
    (dist_fn : α → α → D) (dist_fn' : β → β → D) (q : α) (q' : β) (t : VPNode α D)
    (hdist : ∀ x ∈ t.items, dist_fn' (f x) q' = dist_fn x q)
    (hbound : ∀ a, T.bound (g a) = S.bound a)
    (hbranch : ∀ a x d, T.onBranch (g a) (f x) d = mapBoth g h (S.onBranch a x d))
    (hlist : ∀ a xs, xs ⊆ t.items → T.onList (g a) (xs.map f) = mapBoth g h (S.onList a xs))
    (a : σ) : T.visit dist_fn' q' (t.map f) (g a) = mapBoth g h (S.visit dist_fn q t a) := by
  induction t generalizing a with
  | pointlist xs => exact hlist a xs fun x hx => hx
  | branch v r left right ihl ihr =>
    have hleft : left.items ⊆ (VPNode.branch v r left right).items := fun x hx =>
      List.mem_cons_of_mem _ (List.mem_append_left _ hx)
    have hright : right.items ⊆ (VPNode.branch v r left right).items := fun x hx =>
      List.mem_cons_of_mem _ (List.mem_append_right _ hx)
    have hl := ihl (fun x hx => hdist x (hleft hx)) fun a xs hxs => hlist a xs
      fun x hx => hleft (hxs hx)
    have hr := ihr (fun x hx => hdist x (hright hx)) fun a xs hxs => hlist a xs
      fun x hx => hright (hxs hx)
    rw [map_branch, Search.visit, Search.visit, hdist v List.mem_cons_self, hbranch]
    -- Equal distances and bounds: both searches take the same children, in the same order.
    apply mapBoth_bind
    intro b
    dsimp only
    rw [hbound]
    by_cases hlt : dist_fn v q < r
    · rw [if_pos hlt, if_pos hlt, mapBoth_visitIf _ hr]
      exact mapBoth_bind _ fun c => mapBoth_visitIf _ hl c
    · rw [if_neg hlt, if_neg hlt, mapBoth_visitIf _ hl]
      exact mapBoth_bind _ fun c => mapBoth_visitIf _ hr c

end Visit

section Variables

variable [LinearOrder D]

theorem consider_map (c : Closest α D) (x : α) (d : D) :
    (c.map f).consider (f x) d = (c.consider x d).map f := by
  by_cases h : d < c.closestDist
  · simp [Closest.consider, Closest.map, h]
  · simp [Closest.consider, Closest.map, h]

theorem considerAll_map (dist : α → D) (dist' : β → D) (xs : List α)
    (hdist : ∀ x ∈ xs, dist' (f x) = dist x) (c : Closest α D) :
    (xs.map f).foldl (fun c y => c.consider y (dist' y)) (c.map f) =
      (xs.foldl (fun c x => c.consider x (dist x)) c).map f := by
  induction xs generalizing c with
  | nil => rfl
  | cons x xs ih =>
    rw [List.map_cons, List.foldl_cons, List.foldl_cons, hdist x List.mem_cons_self, consider_map]
    exact ih (fun y hy => hdist y (List.mem_cons_of_mem _ hy)) _

theorem siftIn_map (knnlist : List (VPEntry α D)) (n : ℕ) :
    siftIn (knnlist.map (VPEntry.map f)) n = (siftIn knnlist n).map (VPEntry.map f) := by
  induction n generalizing knnlist with
  | zero => rfl
  | succ n ih =>
    unfold siftIn
    rw [List.getElem?_map, List.getElem?_map]
    cases ha : knnlist[n+1]? with
    | none => rfl
    | some a =>
      cases hb : knnlist[n]? with
      | none => rfl
      | some b =>
        dsimp only [Option.map_some]
        -- The entries keep their distances, so both lists are sifted alike.
        by_cases hlt : a.distance < b.distance
        · rw [if_pos hlt, if_pos (show (a.map f).distance < (b.map f).distance from hlt), ← ih,
            List.map_set, List.map_set]
        · rw [if_neg hlt, if_neg (show ¬ (a.map f).distance < (b.map f).distance from hlt)]

theorem push_map (k : ℕ) (s : KnnState α D) (x : α) (d : D) :
    (s.map f).push k (f x) d = (s.push k x d).map f := by
  have hlist : knnlistPush (s.map f).knnlist (s.map f).knnlistSize (f x) d =
      (knnlistPush s.knnlist s.knnlistSize x d).map (VPEntry.map f) := by
    unfold knnlistPush
    rw [← siftIn_map]
    simp [writeSlot, KnnState.map, VPEntry.map, List.map_take, List.map_drop]
  simp only [KnnState.push, KnnState.map] at hlist ⊢
  rw [hlist, List.getElem?_map]
  congr 1
  cases (knnlistPush s.knnlist s.knnlistSize x d)[max (min (s.knnlistSize+1) k-1) 0]? with
  | none => rfl
  | some e => rfl

theorem considerList_map (k : ℕ) (dist : α → D) (dist' : β → D) (xs : List α)
    (hdist : ∀ x ∈ xs, dist' (f x) = dist x) (s : KnnState α D) :
    ((xs.map f).zip ((xs.map f).map dist')).foldl
        (fun s p => s.considerListItem k p.1 p.2) (s.map f) =
      ((xs.zip (xs.map dist)).foldl (fun s p => s.considerListItem k p.1 p.2) s).map f := by
  induction xs generalizing s with
  | nil => rfl
  | cons x xs ih =>
    have hitem : (s.map f).considerListItem k (f x) (dist x) =
        (s.considerListItem k x (dist x)).map f := by
      by_cases h : dist x < s.tau
      · simp [KnnState.considerListItem, h, push_map]
      · simp [KnnState.considerListItem, h]
    simp only [List.map_cons, List.zip_cons_cons, List.foldl_cons]
    rw [hdist x List.mem_cons_self, hitem]
    exact ih (fun y hy => hdist y (List.mem_cons_of_mem _ hy)) _

omit [LinearOrder D] in
theorem growIfFull_map (realloc : ℕ → Option ℕ) (s : WithinState α D) :
    growIfFull realloc (s.map f) =
      mapBoth (WithinState.map f) (WithinState.map f) (growIfFull realloc s) := by
  by_cases hfull : s.allWithin.numItems = s.allWithin.capacity
  · cases hr : realloc s.reallocs with
    | none =>
      simp only [growIfFull, map_allWithin, map_reallocs, hfull, ↓reduceIte, hr]
      rfl
    | some address =>
      simp only [growIfFull, hfull, ↓reduceIte, hr, mapBoth, WithinState.map, Except.ok.injEq,
        WithinState.mk.injEq, true_and, and_true]
      ext i : 1
      by_cases hi : i < s.allWithin.capacity
      · simp [hi]
      · simp [hi]
  · simp only [growIfFull, map_allWithin, hfull, ↓reduceIte]
    rfl

omit [LinearOrder D] in
theorem writeMatch_map (s : WithinState α D) (x : α) (d : D) :
    writeMatch (s.map f) (f x) d = (writeMatch s x d).map f := by
  simp only [writeMatch, WithinState.map, WithinState.mk.injEq, true_and, List.map_append,
    List.map_cons, List.map_nil]
  constructor
  · ext i : 1
    by_cases hi : i = s.allWithin.numItems+1
    · subst hi
      simp [VPEntry.map]
    · simp [Function.update_of_ne hi]
  · rfl

theorem considerWithin_map (realloc : ℕ → Option ℕ) (max_dist : D) (s : WithinState α D) (x : α)
    (d : D) : considerWithin realloc max_dist (s.map f) (f x) d =
      mapBoth (WithinState.map f) (WithinState.map f) (considerWithin realloc max_dist s x d) := by
  unfold considerWithin
  by_cases h : d ≤ max_dist
  · rw [if_pos h, if_pos h, growIfFull_map]
    apply mapBoth_bind
    intro s'
    rw [writeMatch_map]
    rfl
  · rw [if_neg h, if_neg h]
    rfl

theorem withinList_map (realloc : ℕ → Option ℕ) (dist_fn : α → α → D) (dist_fn' : β → β → D)
    (q : α) (q' : β) (max_dist : D) (xs : List α)
    (hdist : ∀ x ∈ xs, dist_fn' (f x) q' = dist_fn x q) (s : WithinState α D) :
    withinList realloc dist_fn' q' max_dist (xs.map f) (s.map f) =
      mapBoth (WithinState.map f) (WithinState.map f)
        (withinList realloc dist_fn q max_dist xs s) := by
  induction xs generalizing s with
  | nil => rfl
  | cons x xs ih =>
    rw [List.map_cons, withinList, withinList, hdist x List.mem_cons_self, considerWithin_map]
    apply mapBoth_bind
    intro s'
    exact ih (fun y hy => hdist y (List.mem_cons_of_mem _ hy)) s'

end Variables

section Queries

variable [LinearOrder D] [Add D] [Sub D] {f} {dist_fn : α → α → D} {dist_fn' : β → β → D} {q : α}
  {q' : β} {t : VPNode α D}

theorem vptNn_map (hdist : ∀ x ∈ t.items, dist_fn' (f x) q' = dist_fn x q) (DIST_MAX : D) :
    vptNn dist_fn' DIST_MAX (t.map f) q' = (vptNn dist_fn DIST_MAX t q).map f := by
  have hmap : (nnSearch dist_fn' q').visit dist_fn' q' (t.map f) ⟨none, DIST_MAX⟩ =
      mapBoth (Closest.map f) id ((nnSearch dist_fn q).visit dist_fn q t ⟨none, DIST_MAX⟩) := by
    show (nnSearch dist_fn' q').visit dist_fn' q' (t.map f) (Closest.map f ⟨none, DIST_MAX⟩) = _
    apply visit_map f (Closest.map f) id (nnSearch dist_fn q) (nnSearch dist_fn' q') dist_fn dist_fn'
      q q' t hdist
    · intro c
      rfl
    · intro c x d
      exact congrArg Except.ok (consider_map f c x d)
    · intro c xs hxs
      exact congrArg Except.ok (considerAll_map f _ _ xs (fun x hx => hdist x (hxs hx)) c)
  rw [(nn_loop_ends dist_fn DIST_MAX t q).2, (nn_loop_ends dist_fn' DIST_MAX (t.map f) q').2]
    at hmap
  exact Except.ok.inj hmap

theorem vptKnn_map (hdist : ∀ x ∈ t.items, dist_fn' (f x) q' = dist_fn x q) (DIST_MAX : D)
    (size k : ℕ) : vptKnn dist_fn' DIST_MAX (t.map f) size q' k =
      ((vptKnn dist_fn DIST_MAX t size q k).1.map (VPEntry.map f),
        (vptKnn dist_fn DIST_MAX t size q k).2) := by
  have hmap : (knnSearch k dist_fn' q').visit dist_fn' q' (t.map f) (knnStart DIST_MAX) =
      mapBoth (KnnState.map f) id
        ((knnSearch k dist_fn q).visit dist_fn q t (knnStart DIST_MAX)) := by
    show (knnSearch k dist_fn' q').visit dist_fn' q' (t.map f)
      (KnnState.map f (knnStart DIST_MAX)) = _
    apply visit_map f (KnnState.map f) id (knnSearch k dist_fn q) (knnSearch k dist_fn' q') dist_fn
      dist_fn' q q' t hdist
    · intro s
      rfl
    · intro s x d
      exact congrArg Except.ok (push_map f k s x d)
    · intro s xs hxs
      exact congrArg Except.ok (considerList_map f k _ _ xs (fun x hx => hdist x (hxs hx)) s)
  have hrun := loop_run_start (knnSearch k dist_fn q) dist_fn q (knnStart DIST_MAX) t
  have hrun' := loop_run_start (knnSearch k dist_fn' q') dist_fn' q' (knnStart DIST_MAX) (t.map f)
  unfold vptKnn
  by_cases hnone : size = 0 ∨ k = 0
  · simp only [if_pos hnone, List.map_nil]
  · rw [if_neg hnone, if_neg hnone, hrun, hrun', hmap]
    cases (knnSearch k dist_fn q).visit dist_fn q t (knnStart DIST_MAX) with
    | error e => exact e.elim
    | ok s => simp only [mapBoth, Except.map, loopValue, KnnState.map, List.map_take]

theorem vptAllWithin_map (hdist : ∀ x ∈ t.items, dist_fn' (f x) q' = dist_fn x q) (max_dist : D)
    (buffer : Option ℕ) (realloc : ℕ → Option ℕ) :
    vptAllWithin buffer realloc dist_fn' (t.map f) q' max_dist =
      ((vptAllWithin buffer realloc dist_fn t q max_dist).1,
        (vptAllWithin buffer realloc dist_fn t q max_dist).2.map f) := by
  cases buffer with
  | none => rfl
  | some address =>
    have hmap : (withinSearch realloc dist_fn' q' max_dist).visit dist_fn' q' (t.map f)
        (withinStart (some address)) = mapBoth (WithinState.map f) (WithinState.map f)
          ((withinSearch realloc dist_fn q max_dist).visit dist_fn q t
            (withinStart (some address))) := by
      show (withinSearch realloc dist_fn' q' max_dist).visit dist_fn' q' (t.map f)
        (WithinState.map f (withinStart (some address))) = _
      apply visit_map f (WithinState.map f) (WithinState.map f)
        (withinSearch realloc dist_fn q max_dist) (withinSearch realloc dist_fn' q' max_dist)
        dist_fn dist_fn' q q' t hdist
      · intro s
        rfl
      · intro s x d
        exact considerWithin_map f realloc max_dist s x d
      · intro s xs hxs
        exact withinList_map f realloc dist_fn dist_fn' q q' max_dist xs
          (fun x hx => hdist x (hxs hx)) s
    have hrun := loop_run_start (withinSearch realloc dist_fn q max_dist) dist_fn q
      (withinStart (some address)) t
    have hrun' := loop_run_start (withinSearch realloc dist_fn' q' max_dist) dist_fn' q'
      (withinStart (some address)) (t.map f)
    unfold vptAllWithin
    dsimp only
    rw [hrun, hrun', hmap]
    cases (withinSearch realloc dist_fn q max_dist).visit dist_fn q t
        (withinStart (some address)) with
    | error s => rfl
    | ok s => rfl

end Queries

end VantagePoint
