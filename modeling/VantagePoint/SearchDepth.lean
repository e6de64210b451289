import VantagePoint.BuildMemory
import VantagePoint.KNearest
import VantagePoint.RangeSearch

/-! How many nodes wait on `to_traverse`. Where a query lies inside the ball of a
branch the right subtree is searched first, with the left one waiting beneath
it; so a long chain of right children fills the stack. -/
namespace VantagePoint
open WhileLoop

universe u v w z

variable {α : Type u} {D : Type v} {σ : Type w} {ε : Type z}

section Code

variable [LinearOrder D]

/-- The nodes that a search which prunes nothing has on its stack at most, while
it is in the subtree: one more under the child it visits first. -/
def VPNode.pendingDepth (dist : α → D) : VPNode α D → ℕ
  | .branch item radius left right =>
    if dist item < radius then max (right.pendingDepth dist+1) (left.pendingDepth dist)
    else max (left.pendingDepth dist+1) (right.pendingDepth dist)
  | .pointlist _ => 1

/-- The same for a stack, each node with all those below it. -/
def stackDepth (dist : α → D) : List (VPNode α D) → ℕ
  | [] => 0
  | t :: ts => max (t.pendingDepth dist+ts.length) (stackDepth dist ts)

variable [Add D] [Sub D]

/-- In no state of the search is its stack larger than the array it is kept in. -/
def Search.Fits (S : Search α D σ ε) (dist_fn : α → α → D) (q : α) (acc : σ)
    (root : VPNode α D) : Prop :=
  ∀ s, (S.loop dist_fn q).Reaches (.start acc root) s → s.toTraverse.length ≤ vptMaxHeight

/-- The stacks of `VPT_nn`, `VPT_knn` and `VPT_all_within` for one query, whatever
`k` and `max_dist` are and whatever `realloc` answers. -/
structure StacksFit (dist_fn : α → α → D) (DIST_MAX : D) (root : VPNode α D) (q : α) : Prop where
  nn : (nnSearch dist_fn q).Fits dist_fn q ⟨none, DIST_MAX⟩ root
  knn : ∀ k, 1 ≤ k → (knnSearch k dist_fn q).Fits dist_fn q (knnStart DIST_MAX) root
  within : ∀ max_dist buffer realloc,
    (withinSearch realloc dist_fn q max_dist).Fits dist_fn q (withinStart buffer) root

end Code

section Bound

variable [LinearOrder D] (dist : α → D)

theorem pendingDepth_pos (t : VPNode α D) : 0 < t.pendingDepth dist := by
  cases t with
  | pointlist xs => exact Nat.one_pos
  | branch v r left right =>
    unfold VPNode.pendingDepth
    split
    · exact (Nat.succ_pos _).trans_le (le_max_left _ _)
    · exact (Nat.succ_pos _).trans_le (le_max_left _ _)

theorem length_le_stackDepth (ts : List (VPNode α D)) : ts.length ≤ stackDepth dist ts := by
  cases ts with
  | nil => exact le_rfl
  | cons t ts =>
    have hpos := pendingDepth_pos dist t
    rw [List.length_cons, stackDepth]
    omega

variable [Add D] [Sub D]

/-- The two children pushed, at most, are accounted for by their parent. -/
theorem stackDepth_pushChildren_le (bound radius : D) (v : α) (l r : VPNode α D)
    (ts : List (VPNode α D)) :
    stackDepth dist (pushChildren (dist v) bound radius l r ts) ≤
      stackDepth dist (.branch v radius l r :: ts) := by
  -- A test that fails pushes nothing, which can only lower the depth.
  have hif (p : Prop) [Decidable p] (t : VPNode α D) (us : List (VPNode α D)) :
      stackDepth dist (if p then t :: us else us) ≤
          max (t.pendingDepth dist+us.length) (stackDepth dist us) ∧
        (if p then t :: us else us).length ≤ us.length+1 := by
    by_cases hp : p
    · rw [if_pos hp]
      exact ⟨le_rfl, le_rfl⟩
    · rw [if_neg hp]
      exact ⟨le_max_right _ _, Nat.le_succ _⟩
  unfold pushChildren
  rw [stackDepth, VPNode.pendingDepth]
  by_cases hlt : dist v < radius
  · rw [if_pos hlt, if_pos hlt]
    obtain ⟨hleft, hlen⟩ := hif (dist v-bound ≤ radius) l ts
    have hright := (hif (dist v+bound ≥ radius) r
      (if dist v-bound ≤ radius then l :: ts else ts)).1
    dsimp only
    omega
  · rw [if_neg hlt, if_neg hlt]
    obtain ⟨hright, hlen⟩ := hif (dist v+bound ≥ radius) r ts
    have hleft := (hif (dist v-bound ≤ radius) l
      (if dist v+bound ≥ radius then r :: ts else ts)).1
    dsimp only
    omega

variable (S : Search α D σ ε) (dist_fn : α → α → D) (q : α)

/-- The step lemma: no pass raises the depth of the stack. -/
theorem stackDepth_step_le {s s' : SearchState α D σ} (h : (S.loop dist_fn q).Step s s') :
    stackDepth (fun x => dist_fn x q) s'.toTraverse ≤
      stackDepth (fun x => dist_fn x q) s.toTraverse := by
  obtain ⟨acc, ts⟩ := s
  obtain ⟨hg, hb⟩ := h
  cases ts with
  | nil => cases hg
  | cons t ts =>
    cases t with
    | pointlist xs =>
      obtain ⟨acc', _, hs⟩ := (except_bind_eq_ok _ _ _).mp hb
      cases hs
      exact le_max_right _ _
    | branch v radius l r =>
      obtain ⟨acc', _, hs⟩ := (except_bind_eq_ok _ _ _).mp hb
      cases hs
      exact stackDepth_pushChildren_le (fun x => dist_fn x q) (S.bound acc') radius v l r ts

/-- The run lemma: the depth of the root bounds the stack of every search of it. -/
theorem fits_of_pendingDepth {root : VPNode α D} (acc : σ)
    (h : root.pendingDepth (fun x => dist_fn x q) ≤ vptMaxHeight) :
    S.Fits dist_fn q acc root := by
  intro s hs
  have hstart : stackDepth (fun x => dist_fn x q)
      (SearchState.start acc root).toTraverse ≤ vptMaxHeight := by
    rw [SearchState.start, stackDepth, stackDepth, List.length_nil]
    omega
  have hdepth := reaches_invariant (S.loop dist_fn q)
    (fun s => stackDepth (fun x => dist_fn x q) s.toTraverse ≤ vptMaxHeight)
    (fun s s' hI hstep => (stackDepth_step_le S dist_fn q hstep).trans hI) _ s hstart hs
  exact (length_le_stackDepth _ _).trans hdepth

end Bound

section Wide

variable [LinearOrder D] [Add D] [Sub D]

/-- No pruning test with this bound rejects a child anywhere in the tree. -/
def VPNode.Wide (dist : α → D) (bound : D) : VPNode α D → Prop
  | .branch item radius left right =>
    (dist item-bound ≤ radius ∧ radius ≤ dist item+bound) ∧
      left.Wide dist bound ∧ right.Wide dist bound
  | .pointlist _ => True

variable (S : Search α D σ ε) (dist_fn : α → α → D) (q : α) {bound : D}

/-- From any state with `t` on top of its stack, the search comes to have `n`
nodes on the stack in place of `t`, and later none. -/
def Search.Fills (t : VPNode α D) (n : ℕ) : Prop :=
  ∀ acc ts, (∃ s, (S.loop dist_fn q).Reaches ⟨acc, t :: ts⟩ s ∧
      s.toTraverse.length = n+ts.length) ∧
    ∃ acc', (S.loop dist_fn q).Reaches ⟨acc, t :: ts⟩ ⟨acc', ts⟩

theorem fills_pointlist (hlist : ∀ a xs, ∃ b, S.onList a xs = .ok b) (xs : List α) :
    S.Fills dist_fn q (.pointlist xs) 1 := by
  intro acc ts
  obtain ⟨acc', ha⟩ := hlist acc xs
  have hstep : (S.loop dist_fn q).Step ⟨acc, .pointlist xs :: ts⟩ ⟨acc', ts⟩ := by
    refine ⟨rfl, ?_⟩
    change (S.onList acc xs).bind _ = _
    rw [ha]
    rfl
  refine ⟨⟨_, Relation.ReflTransGen.refl, ?_⟩, acc', Relation.ReflTransGen.single hstep⟩
  rw [List.length_cons, Nat.add_comm]

/-- A branch whose children are both pushed, `first` above `second`. -/
theorem fills_branch (hbound : ∀ a, S.bound a = bound)
    (hbranch : ∀ a v d, ∃ b, S.onBranch a v d = .ok b) {v : α} {radius : D}
    {l r first second : VPNode α D} {n m : ℕ}
    (hpush : ∀ ts, pushChildren (dist_fn v q) bound radius l r ts = first :: second :: ts)
    (hfirst : S.Fills dist_fn q first n) (hsecond : S.Fills dist_fn q second m) :
    S.Fills dist_fn q (.branch v radius l r) (max (n+1) m) := by
  intro acc ts
  obtain ⟨acc', ha⟩ := hbranch acc v (dist_fn v q)
  have hstep : (S.loop dist_fn q).Step ⟨acc, .branch v radius l r :: ts⟩
      ⟨acc', first :: second :: ts⟩ := by
    refine ⟨rfl, ?_⟩
    change (S.onBranch acc v (dist_fn v q)).bind _ = _
    rw [ha, ← hpush ts, ← hbound acc']
    rfl
  obtain ⟨⟨s₁, hs₁, hlen₁⟩, acc₁, hdone₁⟩ := hfirst acc' (second :: ts)
  obtain ⟨⟨s₂, hs₂, hlen₂⟩, acc₂, hdone₂⟩ := hsecond acc₁ ts
  refine ⟨?_, acc₂, (hdone₁.trans hdone₂).head hstep⟩
  rw [List.length_cons] at hlen₁
  -- The stack is highest while the child that comes first is searched, with the
  -- other one waiting, or else during the search of the other.
  rcases le_total m (n+1) with hle | hle
  · refine ⟨s₁, hs₁.head hstep, ?_⟩
    rw [hlen₁, max_eq_left hle]
    omega
  · refine ⟨s₂, (hdone₁.trans hs₂).head hstep, ?_⟩
    rw [hlen₂, max_eq_right hle]

/-- A search that never leaves early and prunes nothing does have `pendingDepth`
nodes on its stack at some time. -/
theorem fills_pendingDepth (hbound : ∀ a, S.bound a = bound)
    (hbranch : ∀ a v d, ∃ b, S.onBranch a v d = .ok b) (hlist : ∀ a xs, ∃ b, S.onList a xs = .ok b)
    (t : VPNode α D) (ht : t.Wide (fun x => dist_fn x q) bound) :
    S.Fills dist_fn q t (t.pendingDepth fun x => dist_fn x q) := by
  induction t with
  | pointlist xs => exact fills_pointlist S dist_fn q hlist xs
  | branch v radius l r ihl ihr =>
    obtain ⟨⟨hsub, hadd⟩, hl, hr⟩ := ht
    rw [VPNode.pendingDepth]
    by_cases hlt : dist_fn v q < radius
    · rw [if_pos hlt]
      apply fills_branch S dist_fn q hbound hbranch _ (ihr hr) (ihl hl)
      intro ts
      simp only [pushChildren, hlt, hsub, ge_iff_le, hadd, ↓reduceIte]
    · rw [if_neg hlt]
      apply fills_branch S dist_fn q hbound hbranch _ (ihl hl) (ihr hr)
      intro ts
      simp only [pushChildren, hlt, hsub, ge_iff_le, hadd, ↓reduceIte]

end Wide

/-- While `realloc` returns, a range search never leaves early. -/
theorem withinSearch_total [LinearOrder D] (dist_fn : α → α → D) (q : α) (max_dist : D) (address : ℕ) :
    (∀ a v d, ∃ b, (withinSearch (fun _ => some address) dist_fn q max_dist).onBranch a v d =
        .ok b) ∧
      ∀ a xs, ∃ b, (withinSearch (fun _ => some address) dist_fn q max_dist).onList a xs =
        .ok b := by
  have hone (s : WithinState α D) (v : α) (d : D) :
      ∃ b, considerWithin (fun _ => some address) max_dist s v d = .ok b := by
    unfold considerWithin growIfFull
    split
    · split
      · exact ⟨_, rfl⟩
      · exact ⟨_, rfl⟩
    · exact ⟨_, rfl⟩
  refine ⟨hone, ?_⟩
  intro s xs
  induction xs generalizing s with
  | nil => exact ⟨s, rfl⟩
  | cons x xs ih =>
    obtain ⟨b, hb⟩ := hone s x (dist_fn x q)
    obtain ⟨c, hc⟩ := ih b
    refine ⟨c, ?_⟩
    change (considerWithin (fun _ => some address) max_dist s x (dist_fn x q)).bind _ = _
    rw [hb]
    exact hc

section Within

variable [AddCommGroup D] [LinearOrder D] [IsOrderedAddMonoid D]

theorem wide_mono (dist : α → D) {b c : D} (hbc : b ≤ c) (t : VPNode α D) (h : t.Wide dist b) :
    t.Wide dist c := by
  induction t with
  | pointlist xs => trivial
  | branch v r left right ihl ihr =>
    obtain ⟨⟨hsub, hadd⟩, hl, hr⟩ := h
    refine ⟨⟨?_, ?_⟩, ihl hl, ihr hr⟩
    · exact (sub_le_sub_left hbc _).trans hsub
    · exact hadd.trans (add_le_add_right hbc _)

/-- Some `max_dist` is too large to prune anything. -/
theorem exists_wide (dist : α → D) (t : VPNode α D) : ∃ b, t.Wide dist b := by
  induction t with
  | pointlist xs => exact ⟨0, trivial⟩
  | branch v r left right ihl ihr =>
    obtain ⟨bl, hl⟩ := ihl
    obtain ⟨br, hr⟩ := ihr
    refine ⟨max (max bl br) (max (dist v-r) (r-dist v)), ⟨?_, ?_⟩, ?_, ?_⟩
    · apply sub_le_comm.mp
      exact (le_max_left _ _).trans (le_max_right _ _)
    · apply sub_le_iff_le_add'.mp
      exact (le_max_right _ _).trans (le_max_right _ _)
    · exact wide_mono dist ((le_max_left _ _).trans (le_max_left _ _)) left hl
    · exact wide_mono dist ((le_max_right _ _).trans (le_max_left _ _)) right hr

/-- The stacks of the searches fit if and only if the depth of the root does: a
range search that prunes nothing is the one that needs the most room. -/
theorem stacksFit_iff (dist_fn : α → α → D) (DIST_MAX : D) (root : VPNode α D) (q : α) :
    StacksFit dist_fn DIST_MAX root q ↔
      root.pendingDepth (fun x => dist_fn x q) ≤ vptMaxHeight := by
  constructor
  · intro h
    -- With this `max_dist` the search goes through the whole tree.
    obtain ⟨max_dist, hwide⟩ := exists_wide (fun x => dist_fn x q) root
    obtain ⟨hbranch, hlist⟩ := withinSearch_total dist_fn q max_dist 0
    obtain ⟨⟨s, hs, hlen⟩, _⟩ := fills_pendingDepth
      (withinSearch (fun _ => some 0) dist_fn q max_dist) dist_fn q (fun _ => rfl) hbranch hlist
      root hwide (withinStart none) []
    have hfit := h.within max_dist none (fun _ => some 0) s hs
    rw [hlen, List.length_nil] at hfit
    exact hfit
  · intro h
    exact ⟨fits_of_pendingDepth _ _ _ _ h, fun k _ => fits_of_pendingDepth _ _ _ _ h,
      fun _ _ _ => fits_of_pendingDepth _ _ _ _ h⟩

/-- A tree that `VPT_build` makes, and any query: the stacks of the searches fit
if and only if the depth of the tree, seen from the query, does. -/
theorem vptBuild_stacksFit_iff (env : BuildEnv α D) (arena : Arena α D) (data : List α)
    (hsize : data.length < sizeT) (hok : ∀ i, env.ok i = true) (hbig : env.Bounded)
    (hin : SplitsInside env arena data) (DIST_MAX : D) (q : α) :
    ∃ t root, vptBuild env arena data = .ok t ∧ t.arena.Represents root t.root ∧
      (StacksFit env.distFn DIST_MAX root q ↔
        root.pendingDepth (fun x => env.distFn x q) ≤ vptMaxHeight) :=
  vptBuild_tree arena hsize hok hbig hin (stacksFit_iff env.distFn DIST_MAX _ q)

end Within

section Couples

/-- The guests of one couple, and a query that is one of them. -/
theorem vptBuild_stacksFit_iff_couple :
    ∃ t root, vptBuild coupleEnv .empty (couples 1) = .ok t ∧ t.arena.Represents root t.root ∧
      (StacksFit coupleEnv.distFn 7 root (some (0, true)) ↔
        root.pendingDepth (fun x => coupleEnv.distFn x (some (0, true))) ≤ vptMaxHeight) :=
  vptBuild_stacksFit_iff coupleEnv .empty (couples 1) (by decide) (fun _ => rfl)
    coupleEnv_bounded (splitsInside_of_short (by decide)) 7 (some (0, true))

theorem coupleDist_none_lt (g : ℕ × Bool) : coupleDist (some g) none < 4 := by
  change (3 : ℤ) < 4
  decide

/-- Seen from outside, every split of a paired list is one more waiting node. -/
theorem pendingDepth_paired (m : ℕ) (xs : List Guest) (hp : Paired xs) (hm : 98+2*m ≤ xs.length) :
    m < (buildItems coupleEnv xs).pendingDepth fun x => coupleDist x none := by
  -- Each branch takes two points off the list, the one it stores and its partner.
  induction m generalizing xs with
  | zero => exact pendingDepth_pos _ _
  | succ m ih =>
    cases xs with
    | nil => cases hm
    | cons x xs =>
      obtain ⟨g, rfl, _⟩ := hp.partner x List.mem_cons_self
      rw [List.length_cons] at hm
      obtain ⟨right, hc, hright, hlen⟩ := paired_cut hp (by omega)
      rw [buildItems_of_cut (by rw [List.length_cons, vptBuildListThreshold]; omega) hc,
        VPNode.pendingDepth, if_pos (coupleDist_none_lt g)]
      have hdeep := ih right hright (by omega)
      dsimp only
      omega

theorem buildTree_paired_deep {data : List Guest} (hp : Paired data)
    (hlarge : vptMaxListSize ≤ data.length) :
    vptMaxHeight < (buildTree coupleEnv data).pendingDepth fun x => coupleEnv.distFn x none := by
  cases data with
  | nil => cases hlarge
  | cons x xs =>
    obtain ⟨g, rfl, _⟩ := hp.partner x List.mem_cons_self
    have hlen := hlarge
    rw [List.length_cons, vptMaxListSize] at hlen
    obtain ⟨right, hc, hright, hlen'⟩ := paired_cut hp (by omega)
    have hflip : coupleEnv.distFn (some g) = fun x => coupleEnv.distFn x (some g) :=
      funext fun x => coupleDist_comm (some g) x
    rw [hflip] at hc
    have hin : coupleEnv.distFn (some g) none < 4 := coupleDist_none_lt g
    have hdeep : 450 < (buildItems coupleEnv right).pendingDepth
      fun x => coupleEnv.distFn x none := pendingDepth_paired 450 right hright (by omega)
    rw [buildTree_of_cut hlarge hc, VPNode.pendingDepth, if_pos hin, vptMaxHeight]
    dsimp only
    omega

/-- Five hundred couples and a query at distance 3 from all of them: range search
writes past `to_traverse`. -/
theorem vptBuild_not_stacksFit : GroupMetric.IsMetric coupleEnv.distFn ∧
    SplitsInside coupleEnv .empty (couples 500) ∧
    ∃ t root, vptBuild coupleEnv .empty (couples 500) = .ok t ∧
      t.arena.Represents root t.root ∧ ¬ StacksFit coupleEnv.distFn 7 root none := by
  have hlen : (couples 500).length = 1000 := length_couples 500
  have hsize : (couples 500).length < sizeT := by
    rw [hlen]
    decide
  have hin := splitsInside_couples .empty 500 hsize
  have hdeep := buildTree_paired_deep (paired_couples 500) hlen.ge
  refine ⟨isMetric_coupleDist, hin, ?_⟩
  apply vptBuild_tree .empty hsize (fun _ => rfl) coupleEnv_bounded hin
  rw [stacksFit_iff, not_le]
  exact hdeep

end Couples

end VantagePoint
