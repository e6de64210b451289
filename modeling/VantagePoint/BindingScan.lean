import VantagePoint.BindingThreads
import VantagePoint.TreeClient

/-! The steps of one search, where the memory holds a tree of indices into the array.
No step goes wrong; and where every measurement found the search's own query point,
the steps are those of the search that runs undisturbed. -/
namespace VantagePoint
open WhileLoop

variable {Obj D : Type}

/-- The indices of an array of `n` objects. -/
def indices (n : ℕ) : List ℤ := (List.range n).map Nat.cast

/-- An array without a null. -/
def Full (datapoints : JavaArray Obj) : Prop := ∀ o ∈ datapoints, o.isSome

section Objects

variable {datapoints : JavaArray Obj} {x : ℤ}

@[simp] theorem length_indices (n : ℕ) : (indices n).length = n := by
  rw [indices, List.length_map, List.length_range]

theorem mem_indices {n : ℕ} : x ∈ indices n ↔ ∃ i < n, (i : ℤ) = x := by
  simp only [indices, List.mem_map, List.mem_range]

theorem indices_append (m n : ℕ) :
    indices m ++ (List.range' m n).map Nat.cast = indices (m+n) := by
  rw [indices, indices, ← List.map_append, List.range_eq_range', List.range_eq_range']
  congr 1
  have happ := List.range'_append_1 (s := 0) (m := m) (n := n)
  rwa [Nat.zero_add] at happ

/-- Every index of a full array finds an object. -/
theorem element_of_mem (h : Full datapoints) (hx : x ∈ indices datapoints.length) :
    ∃ o, element datapoints x = some o := by
  obtain ⟨i, hi, rfl⟩ := mem_indices.mp hx
  obtain ⟨o, ho⟩ := Option.isSome_iff_exists.mp (h _ (List.getElem_mem hi))
  refine ⟨o, ?_⟩
  simp [element, List.getElem?_eq_getElem hi, ho]

/-- The distance of a stored object from `q`. -/
def Binding.distTo [Zero D] (b : Binding Obj D) (datapoints : JavaArray Obj) (q : Obj) (x : ℤ) : D :=
  match jdistFn b.distFn datapoints (some q) x (-1) with
  | .ok dist => dist
  | .error _ => 0

theorem jdistFn_of_mem [Zero D] (b : Binding Obj D) (h : Full datapoints)
    (hx : x ∈ indices datapoints.length) (q : Obj) :
    jdistFn b.distFn datapoints (some q) x (-1) = .ok (b.distTo datapoints q x) := by
  obtain ⟨o, ho⟩ := element_of_mem h hx
  simp [Binding.distTo, jdistFn, ho]

/-- The object an index stands for; `q` where it finds none, as at -1. -/
def objectAt (datapoints : JavaArray Obj) (q : Obj) (i : ℤ) : Obj := (element datapoints i).getD q

end Objects

section Variables

variable [LinearOrder D] {items : List ℤ}

theorem mem_siftIn {α : Type*} {e : VPEntry α D} {knnlist : List (VPEntry α D)} {n : ℕ}
    (h : e ∈ siftIn knnlist n) : e ∈ knnlist := by
  induction n generalizing knnlist with
  | zero => exact h
  | succ n ih =>
    unfold siftIn at h
    split at h
    · rename_i a c ha hc
      split at h
      · rcases List.mem_or_eq_of_mem_set (ih h) with hset | rfl
        · rcases List.mem_or_eq_of_mem_set hset with hold | rfl
          · exact hold
          · exact List.mem_of_getElem? hc
        · exact List.mem_of_getElem? ha
      · exact h
    · exact h

theorem mem_push {α : Type*} {e : VPEntry α D} {k : ℕ} {s : KnnState α D} {x : α} {d : D}
    (h : e ∈ (s.push k x d).knnlist) : e ∈ s.knnlist ∨ e = ⟨x, d⟩ := by
  have hslot : e ∈ writeSlot s.knnlist s.knnlistSize ⟨x, d⟩ := mem_siftIn h
  rcases List.mem_append.mp hslot with htake | hdrop
  · exact Or.inl (List.mem_of_mem_take htake)
  · rcases List.mem_cons.mp hdrop with rfl | hdrop
    · exact Or.inr rfl
    · exact Or.inl (List.mem_of_mem_drop hdrop)

theorem mem_considerListItem {α : Type*} {e : VPEntry α D} {k : ℕ} {s : KnnState α D} {x : α}
    {d : D} (h : e ∈ (s.considerListItem k x d).knnlist) : e ∈ s.knnlist ∨ e = ⟨x, d⟩ := by
  unfold KnnState.considerListItem at h
  split at h
  · exact mem_push h
  · exact Or.inl h

theorem siftIn_ne_nil {α : Type*} {knnlist : List (VPEntry α D)} {n : ℕ} (h : knnlist ≠ []) :
    siftIn knnlist n ≠ [] := by
  induction n generalizing knnlist with
  | zero => exact h
  | succ n ih =>
    unfold siftIn
    split
    · split
      · exact ih (by simpa using h)
      · exact h
    · exact h

theorem push_live_ne_nil {α : Type*} {k : ℕ} (hk : 1 ≤ k) (s : KnnState α D) (x : α) (d : D) :
    (s.push k x d).live ≠ [] := by
  intro hnil
  rcases List.take_eq_nil_iff.mp hnil with hsize | hlist
  · have hmin : min (s.knnlistSize+1) k = 0 := hsize
    omega
  · exact siftIn_ne_nil (List.append_ne_nil_of_right_ne_nil _ (List.cons_ne_nil _ _)) hlist

theorem foldl_live_ne_nil {α : Type*} {k : ℕ} (hk : 1 ≤ k) {s : KnnState α D} (h : s.live ≠ [])
    (ps : List (α × D)) :
    (ps.foldl (fun s p => s.considerListItem k p.1 p.2) s).live ≠ [] := by
  induction ps generalizing s with
  | nil => exact h
  | cons p ps ih =>
    apply ih
    show (s.considerListItem k p.1 p.2).live ≠ []
    unfold KnnState.considerListItem
    split
    · exact push_live_ne_nil hk s p.1 p.2
    · exact h

theorem consider_mem {c : Closest ℤ D} {x y : ℤ} {d : D} (hx : x ∈ items)
    (h : ∀ y ∈ c.closest, y ∈ items) (hy : y ∈ (c.consider x d).closest) : y ∈ items := by
  unfold Closest.consider at hy
  split at hy
  · rw [← Option.some.inj hy]
    exact hx
  · exact h y hy

theorem consider_isSome {c : Closest ℤ D} (x : ℤ) (d : D) (h : c.closest.isSome) :
    (c.consider x d).closest.isSome := by
  unfold Closest.consider
  split
  · rfl
  · exact h

theorem consider_start {DIST_MAX : D} (x : ℤ) {d : D} (h : d < DIST_MAX) :
    (Closest.consider ⟨none, DIST_MAX⟩ x d).closest.isSome := by
  rw [Closest.consider, if_pos h]
  rfl

theorem foldl_isSome (dist : ℤ → D) {c : Closest ℤ D} (h : c.closest.isSome) (xs : List ℤ) :
    (xs.foldl (fun c x => c.consider x (dist x)) c).closest.isSome := by
  induction xs generalizing c with
  | nil => exact h
  | cons x xs ih => exact ih (consider_isSome x (dist x) h)

/-- What the variables of a search are good for: candidates are stored items, and the
first cell of a range search's array is not written. -/
def Request.Holds (items : List ℤ) : (r : Request D) → r.Acc → Prop
  | .nn, (c : Closest ℤ D) => ∀ x ∈ c.closest, x ∈ items
  | .knn _, (s : KnnState ℤ D) => ∀ e ∈ s.knnlist, e.item ∈ items
  | .allWithin _, (s : WithinState ℤ D) => s.cells 0 = none

/-- A search for neighbours has met one. -/
def Request.HasCandidate : (r : Request D) → r.Acc → Prop
  | .nn, (c : Closest ℤ D) => c.closest.isSome
  | .knn k, (s : KnnState ℤ D) => 1 ≤ k → s.live ≠ []
  | .allWithin _, _ => True

theorem considerWithin_cell {max_dist : D} {realloc : ℕ → Option ℕ} {s s' : WithinState ℤ D}
    {x : ℤ} {d : D} (h : considerWithin realloc max_dist s x d = .ok s') (hs : s.cells 0 = none) :
    s'.cells 0 = none := by
  unfold considerWithin at h
  split at h
  · obtain ⟨s₁, hgrow, h⟩ := (except_bind_eq_ok _ _ _).mp h
    cases h
    -- growing copies the cells, and the match goes to a cell behind the first
    have hcell : s₁.cells 0 = none := by
      unfold growIfFull at hgrow
      split at hgrow
      · split at hgrow
        · cases hgrow
        · cases hgrow
          simp [hs]
      · cases hgrow
        exact hs
    simpa [writeMatch] using hcell
  · cases h
    exact hs

theorem next_granted (n : ℕ) : ((fun n => some (n+1) : ℕ → Option ℕ) n).isSome := rfl

/-- No request ends its search early: the memory for a range search is found. -/
theorem onBranch_holds (r : Request D) (dist : ℤ → D) {acc : r.Acc} {x : ℤ} (d : D)
    (hx : x ∈ items) (h : r.Holds items acc) :
    ∃ acc', (r.search dist).onBranch acc x d = .ok acc' ∧ r.Holds items acc' := by
  cases r with
  | nn => exact ⟨_, rfl, fun y hy => consider_mem hx h hy⟩
  | knn k =>
    refine ⟨_, rfl, ?_⟩
    intro e he
    rcases mem_push he with hold | rfl
    · exact h e hold
    · exact hx
  | allWithin max_dist =>
    obtain ⟨acc', hacc'⟩ := considerWithin_granted next_granted max_dist acc x d
    exact ⟨acc', hacc', considerWithin_cell hacc' h⟩

theorem onList_holds (r : Request D) (dist : ℤ → D) {acc : r.Acc} {xs : List ℤ}
    (hxs : ∀ x ∈ xs, x ∈ items) (h : r.Holds items acc) :
    ∃ acc', (r.search dist).onList acc xs = .ok acc' ∧ r.Holds items acc' := by
  cases r with
  | nn =>
    refine ⟨_, rfl, ?_⟩
    induction xs generalizing acc with
    | nil => exact h
    | cons x xs ih =>
      apply ih fun y hy => hxs y (List.mem_cons_of_mem _ hy)
      exact fun y hy => consider_mem (hxs x List.mem_cons_self) h hy
  | knn k =>
    refine ⟨_, rfl, ?_⟩
    have hzip : ∀ p ∈ xs.zip (xs.map dist), p.1 ∈ items := fun p hp =>
      hxs p.1 (List.of_mem_zip hp).1
    generalize xs.zip (xs.map dist) = ps at hzip
    induction ps generalizing acc with
    | nil => exact h
    | cons p ps ih =>
      apply ih _ fun p' hp' => hzip p' (List.mem_cons_of_mem _ hp')
      intro e he
      rcases mem_considerListItem he with hold | rfl
      · exact h e hold
      · exact hzip p List.mem_cons_self
  | allWithin max_dist =>
    have hrun (xs : List ℤ) (s : WithinState ℤ D) (hs : s.cells 0 = none) :
        ∃ s', withinList (fun n => some (n+1)) (fun x _ => dist x) (-1) max_dist xs s = .ok s' ∧
          s'.cells 0 = none := by
      induction xs generalizing s with
      | nil => exact ⟨s, rfl, hs⟩
      | cons x xs ih =>
        obtain ⟨s₁, hs₁⟩ := considerWithin_granted next_granted max_dist s x (dist x)
        obtain ⟨s', hs', hcell⟩ := ih s₁ (considerWithin_cell hs₁ hs)
        exact ⟨s', by rw [withinList, hs₁, Except.bind, hs'], hcell⟩
    exact hrun xs acc h

theorem withinList_congr {realloc : ℕ → Option ℕ} {max_dist : D} {dist dist' : ℤ → ℤ → D} {q : ℤ}
    {xs : List ℤ} (h : ∀ x ∈ xs, dist x q = dist' x q) (s : WithinState ℤ D) :
    withinList realloc dist q max_dist xs s = withinList realloc dist' q max_dist xs s := by
  induction xs generalizing s with
  | nil => rfl
  | cons x xs ih =>
    rw [withinList, withinList, h x List.mem_cons_self]
    congr 1
    funext s'
    exact ih (fun y hy => h y (List.mem_cons_of_mem _ hy)) s'

/-- A search reads distances of the items it is given, and no others. -/
theorem onList_congr (r : Request D) {dist dist' : ℤ → D} {xs : List ℤ}
    (h : ∀ x ∈ xs, dist x = dist' x) (acc : r.Acc) :
    (r.search dist).onList acc xs = (r.search dist').onList acc xs := by
  cases r with
  | nn =>
    apply congrArg Except.ok
    apply List.foldl_ext
    intro c x hx
    show c.consider x (dist x) = c.consider x (dist' x)
    rw [h x hx]
  | knn k =>
    show Except.ok (List.foldl _ acc (xs.zip (xs.map dist))) = Except.ok _
    rw [List.map_congr_left h]
    rfl
  | allWithin max_dist =>
    exact withinList_congr (fun x hx => h x hx) acc

end Variables

section Nodes

/-- The items of the node on top of a tree. -/
def VPNode.own {α : Type*} : VPNode α D → List α
  | .branch item _ _ _ => [item]
  | .pointlist items => items

theorem mem_items_of_own {t : VPNode ℤ D} {x : ℤ} (h : x ∈ t.own) : x ∈ t.items := by
  cases t with
  | branch v r left right =>
    rw [List.mem_singleton.mp h]
    exact List.mem_cons_self
  | pointlist xs => exact h

variable {m : Arena ℤ D}

theorem nodeItems_of_pointsTo (hlive : m.Live) {p : Option NodePtr} {t : VPNode ℤ D}
    (h : m.PointsTo p t) : nodeItems m p = .ok t.own := by
  obtain ⟨p, rfl, hrep⟩ := h
  cases t with
  | branch v r left right =>
    obtain ⟨hwalk, lp, rp, hcell, _⟩ := hrep
    simp only [nodeItems, loadNode_of_live hlive hwalk, hcell, Except.bind, VPNode.own]
  | pointlist xs =>
    obtain ⟨hwalk, l, capacity, hcell, hholds⟩ := hrep
    simp only [nodeItems, loadNode_of_live hlive hwalk, hcell, Except.bind, VPNode.own,
      loadItems_of_live hlive hholds]

variable [LinearOrder D] [Add D] [Sub D] {items : List ℤ}

/-- A search that has a candidate keeps one, and the first pass finds one if it meets
a distance below `DIST_MAX`. -/
theorem body_candidate (DIST_MAX : D) (r : Request D) (dist : ℤ → D) {acc : r.Acc}
    {t : VPNode ℤ D} {trees : List (VPNode ℤ D)} {s : SearchState ℤ D r.Acc}
    (hbody : (r.search dist).body (fun x _ => dist x) (-1) ⟨acc, t :: trees⟩ = .ok s)
    (h : r.HasCandidate acc ∨
      acc = r.start DIST_MAX ∧ t.own ≠ [] ∧ ∀ x ∈ t.own, dist x < DIST_MAX) :
    r.HasCandidate s.acc := by
  cases r with
  | nn =>
    cases t with
    | branch v radius left right =>
      cases hbody
      rcases h with hsome | ⟨rfl, _, hdist⟩
      · exact consider_isSome v (dist v) hsome
      · exact consider_start v (hdist v List.mem_cons_self)
    | pointlist xs =>
      cases hbody
      rcases h with hsome | ⟨rfl, hne, hdist⟩
      · exact foldl_isSome dist hsome xs
      · obtain ⟨x, xs, rfl⟩ := List.exists_cons_of_ne_nil hne
        exact foldl_isSome dist (consider_start x (hdist x List.mem_cons_self)) xs
  | allWithin max_dist => trivial
  | knn k =>
    intro hk
    cases t with
    | branch v radius left right =>
      cases hbody
      exact push_live_ne_nil hk acc v (dist v)
    | pointlist xs =>
      cases hbody
      rcases h with hlive | ⟨rfl, hne, hdist⟩
      · exact foldl_live_ne_nil hk (hlive hk) _
      · -- the first item of the list is a candidate
        obtain ⟨x, xs, rfl⟩ := List.exists_cons_of_ne_nil hne
        have hx : dist x < KnnState.tau ((Request.knn k).start DIST_MAX) :=
          hdist x List.mem_cons_self
        have hpush : KnnState.considerListItem k ((Request.knn k).start DIST_MAX) x (dist x) =
            KnnState.push k ((Request.knn k).start DIST_MAX) x (dist x) := if_pos hx
        show (List.foldl (fun (s : KnnState ℤ D) (p : ℤ × D) => s.considerListItem k p.1 p.2)
          (KnnState.considerListItem k ((Request.knn k).start DIST_MAX) x (dist x)) _).live ≠ []
        rw [hpush]
        exact foldl_live_ne_nil hk (push_live_ne_nil hk _ x (dist x)) _

/-- One pass over live memory: it ends normally, as the pass over the trees does, and
leaves pointers to subtrees. -/
theorem pointerBody_holds (r : Request D) (dist : ℤ → D) (hlive : m.Live)
    {s : PointerState r.Acc} {trees : List (VPNode ℤ D)}
    (hstack : List.Forall₂ m.PointsTo s.toTraverse trees) (hitems : ∀ t ∈ trees, t.items ⊆ items)
    (hacc : r.Holds items s.acc) :
    ∃ s' u, (r.search dist).pointerBody m (fun x _ => dist x) (-1) s = .ok s' ∧
      (r.search dist).body (fun x _ => dist x) (-1) ⟨s.acc, trees⟩ = .ok u ∧ SameSearch m s' u ∧
      (∀ t ∈ u.toTraverse, t.items ⊆ items) ∧ r.Holds items u.acc := by
  -- The pass over the trees themselves cannot end early.
  have hbody : ∃ u, (r.search dist).body (fun x _ => dist x) (-1) ⟨s.acc, trees⟩ = .ok u ∧
      (∀ t ∈ u.toTraverse, t.items ⊆ items) ∧ r.Holds items u.acc := by
    cases trees with
    | nil => exact ⟨⟨s.acc, []⟩, rfl, hitems, hacc⟩
    | cons t trees =>
      have hrest : ∀ t ∈ trees, t.items ⊆ items := fun t ht =>
        hitems t (List.mem_cons_of_mem _ ht)
      have htop := hitems t List.mem_cons_self
      cases t with
      | pointlist xs =>
        have hxs (x : ℤ) (hx : x ∈ xs) : x ∈ items := htop hx
        obtain ⟨acc', hacc', hholds⟩ := onList_holds r dist hxs hacc
        refine ⟨⟨acc', trees⟩, ?_, hrest, hholds⟩
        show ((r.search dist).onList s.acc xs).bind _ = _
        rw [hacc']
        rfl
      | branch v radius left right =>
        obtain ⟨acc', hacc', hholds⟩ := onBranch_holds r dist (dist v) (htop List.mem_cons_self) hacc
        refine ⟨⟨acc', pushChildren (dist v) ((r.search dist).bound acc') radius left right trees⟩,
          ?_, ?_, hholds⟩
        · show ((r.search dist).onBranch s.acc v (dist v)).bind _ = _
          rw [hacc']
          rfl
        · intro t ht
          rcases mem_pushChildren ht with rfl | rfl | ht
          · intro x hx
            exact htop (List.mem_cons_of_mem _ (List.mem_append_left _ hx))
          · intro x hx
            exact htop (List.mem_cons_of_mem _ (List.mem_append_right _ hx))
          · exact hrest t ht
  obtain ⟨u, hbody, hitems', hholds⟩ := hbody
  have hsame : SameSearch m s ⟨s.acc, trees⟩ := ⟨rfl, hstack⟩
  have hmatch := pointerBody_matches (r.search dist) (fun x _ => dist x) (-1) hlive hsame
  rw [hbody] at hmatch
  cases hp : (r.search dist).pointerBody m (fun x _ => dist x) (-1) s with
  | error e =>
    rw [hp] at hmatch
    exact hmatch.elim
  | ok s' =>
    rw [hp] at hmatch
    exact ⟨s', u, rfl, hbody, hmatch, hitems', hholds⟩

/-- A pass reads the distances of the items of its node, and no others. -/
theorem pointerBody_congr (r : Request D) (acc : r.Acc) (rest : List (Option NodePtr))
    {dist dist' : ℤ → D} {p : Option NodePtr} {xs : List ℤ} (hxs : nodeItems m p = .ok xs)
    (h : ∀ x ∈ xs, dist x = dist' x) :
    (r.search dist).pointerBody m (fun x _ => dist x) (-1) ⟨acc, p :: rest⟩ =
      (r.search dist').pointerBody m (fun x _ => dist' x) (-1) ⟨acc, p :: rest⟩ := by
  have hbranch : (r.search dist).onBranch = (r.search dist').onBranch := by
    cases r with
    | nn => rfl
    | knn k => rfl
    | allWithin max_dist => rfl
  have hbound : (r.search dist).bound = (r.search dist').bound := by
    cases r with
    | nn => rfl
    | knn k => rfl
    | allWithin max_dist => rfl
  unfold nodeItems at hxs
  unfold Search.pointerBody
  dsimp only
  cases hload : m.loadNode p with
  | error e => rfl
  | ok cell =>
    rw [hload] at hxs
    cases cell with
    | uninit => rfl
    | branch item radius left right =>
      obtain rfl : [item] = xs := Except.ok.inj hxs
      simp only [Except.mapError, Except.bind, hbranch, hbound, h item List.mem_cons_self]
    | pointlist l size capacity =>
      change m.loadItems l size = .ok xs at hxs
      simp only [Except.mapError, Except.bind, hxs, onList_congr r h]

end Nodes

section Steps

variable [LinearOrder D] [Zero D] [Add D] [Sub D] {b : Binding Obj D} {t : SharedTree Obj D}
  {r : Request D} {q : Obj} {scan : Scan Obj D r.Acc}

/-- A search in steps: its stack holds pointers to subtrees, the items of the node it
measures are those of the top one, and where every measurement found `q`, it is in a
state of the search that runs undisturbed. -/
structure Scan.Follows (b : Binding Obj D) (t : SharedTree Obj D) (r : Request D) (q : Obj)
    (scan : Scan Obj D r.Acc) : Prop where
  stack : ∃ trees, List.Forall₂ t.vpt.arena.PointsTo scan.state.toTraverse trees ∧
    ∀ tree ∈ trees, tree.items ⊆ indices t.datapoints.length
  node : ∀ pending measured, scan.node = some (pending, measured) →
    ∃ p rest, scan.state.toTraverse = p :: rest ∧
      nodeItems t.vpt.arena p = .ok (measured.map Prod.fst ++ pending)
  acc : r.Holds (indices t.datapoints.length) scan.state.acc
  candidate : (∀ x y, b.distFn x y < b.DIST_MAX) →
    (scan.state = ⟨r.start b.DIST_MAX, [some t.vpt.root]⟩ ∨ r.HasCandidate scan.state.acc) ∧
    ∀ pending measured, scan.node = some (pending, measured) → ∀ p ∈ measured, p.2 < b.DIST_MAX
  own : (∀ p ∈ scan.seen, p = some q) →
    ((r.search (b.distTo t.datapoints q)).pointerLoop t.vpt.arena
      (fun x _ => b.distTo t.datapoints q x) (-1)).Reaches
        ⟨r.start b.DIST_MAX, [some t.vpt.root]⟩ scan.state ∧
    ∀ pending measured, scan.node = some (pending, measured) →
      ∀ p ∈ measured, p.2 = b.distTo t.datapoints q p.1

omit [LinearOrder D] [Add D] [Sub D] in
theorem exists_measuredDist {measured : List (ℤ × D)} {x : ℤ}
    (hx : x ∈ measured.map Prod.fst) : ∃ p ∈ measured, p.1 = x ∧ measuredDist measured x = p.2 := by
  unfold measuredDist
  induction measured with
  | nil => cases hx
  | cons p measured ih =>
    obtain ⟨y, d⟩ := p
    rw [List.lookup_cons]
    by_cases hxy : x = y
    · subst hxy
      rw [beq_self_eq_true]
      exact ⟨(x, d), List.mem_cons_self, rfl, rfl⟩
    · rw [beq_eq_false_iff_ne.mpr hxy]
      rcases List.mem_cons.mp hx with heq | hx
      · exact absurd heq hxy
      · obtain ⟨p, hp, hpx, hdist⟩ := ih hx
        exact ⟨p, List.mem_cons_of_mem _ hp, hpx, hdist⟩

omit [LinearOrder D] [Add D] [Sub D] in
theorem measuredDist_of_mem {dist : ℤ → D} {measured : List (ℤ × D)}
    (h : ∀ p ∈ measured, p.2 = dist p.1) {x : ℤ} (hx : x ∈ measured.map Prod.fst) :
    measuredDist measured x = dist x := by
  obtain ⟨p, hp, rfl, hdist⟩ := exists_measuredDist hx
  rw [hdist, h p hp]

/-- The state in which the loop is entered. -/
theorem follows_start {root : VPNode ℤ D} (hrep : t.vpt.arena.Represents root t.vpt.root)
    (hitems : root.items ⊆ indices t.datapoints.length) :
    Scan.Follows b t r q (b.startScan r t.vpt.root) where
  stack := by
    refine ⟨[root], .cons ⟨_, rfl, hrep⟩ .nil, ?_⟩
    intro tree htree
    rw [List.mem_singleton.mp htree]
    exact hitems
  node pending measured h := by cases h
  acc := by
    cases r with
    | nn =>
      intro x hx
      cases hx
    | knn k =>
      intro e he
      cases he
    | allWithin max_dist => rfl
  candidate _ := ⟨Or.inl rfl, fun pending measured h => by cases h⟩
  own _ := ⟨Relation.ReflTransGen.refl, fun pending measured h => by cases h⟩

/-- The step lemma: a search goes on or has come to its end. -/
theorem step_follows (hlive : t.vpt.arena.Live) (hfull : Full t.datapoints)
    (hroot : ∀ xs, nodeItems t.vpt.arena (some t.vpt.root) = .ok xs → xs ≠ [])
    (h : scan.Follows b t r q) (q' : Obj) :
    (∃ scan', scan.step b r t (some q') = .ok (.inl scan') ∧ scan'.Follows b t r q) ∨
    scan.state.toTraverse = [] ∧ scan.step b r t (some q') = .ok (.inr (r.finish scan.state.acc)) := by
  obtain ⟨⟨acc, toTraverse⟩, node, seen⟩ := scan
  obtain ⟨trees, hstack, hitems⟩ := h.stack
  dsimp only at hstack
  cases node with
  | none =>
    cases hstack with
    | nil => exact Or.inr ⟨rfl, rfl⟩
    | @cons p tree rest trees hp hrest =>
      -- the next node is taken from the stack
      left
      refine ⟨⟨⟨acc, p :: rest⟩, some (tree.own, []), seen⟩, ?_, ?_⟩
      · simp only [Scan.step, nodeItems_of_pointsTo hlive hp, Except.mapError, Except.map]
      · refine ⟨⟨tree :: trees, .cons hp hrest, hitems⟩, ?_, h.acc, ?_, ?_⟩
        · rintro pending measured ⟨⟩
          exact ⟨p, rest, rfl, nodeItems_of_pointsTo hlive hp⟩
        · intro hmax
          refine ⟨(h.candidate hmax).1, ?_⟩
          rintro pending measured ⟨⟩ p hp
          cases hp
        · intro hseen
          refine ⟨(h.own hseen).1, ?_⟩
          rintro pending measured ⟨⟩ p hp
          cases hp
  | some node =>
    obtain ⟨pending, measured⟩ := node
    obtain ⟨p, rest, hstate, hnode⟩ := h.node pending measured rfl
    obtain rfl : toTraverse = p :: rest := hstate
    left
    cases hstack with
    | @cons p tree rest trees hp hrest =>
      have hown : tree.own = measured.map Prod.fst ++ pending :=
        Except.ok.inj ((nodeItems_of_pointsTo hlive hp).symm.trans hnode)
      cases pending with
      | cons x pending =>
        -- one more item is measured, whatever point is found there
        have hx : x ∈ indices t.datapoints.length := by
          apply hitems tree List.mem_cons_self (mem_items_of_own _)
          rw [hown]
          exact List.mem_append_right _ List.mem_cons_self
        refine ⟨⟨⟨acc, p :: rest⟩, some (pending, measured ++ [(x, b.distTo t.datapoints q' x)]),
          seen ++ [some q']⟩, ?_, ?_⟩
        · simp only [Scan.step, jdistFn_of_mem b hfull hx, Except.map]
        · refine ⟨⟨tree :: trees, .cons hp hrest, hitems⟩, ?_, h.acc, ?_, ?_⟩
          · rintro _ _ ⟨⟩
            exact ⟨p, rest, rfl, by simpa using hnode⟩
          · intro hmax
            obtain ⟨hstart, hbelow⟩ := h.candidate hmax
            refine ⟨hstart, ?_⟩
            rintro _ _ ⟨⟩ p' hp'
            rcases List.mem_append.mp hp' with hold | hnew
            · exact hbelow (x :: pending) measured rfl p' hold
            · obtain ⟨o, ho⟩ := element_of_mem hfull hx
              rw [List.mem_singleton.mp hnew]
              simpa [Binding.distTo, jdistFn, ho] using hmax o q'
          · intro hseen
            obtain ⟨hreach, hdist⟩ := h.own fun o ho => hseen o (List.mem_append_left _ ho)
            have hq : q' = q := Option.some.inj (hseen (some q') (by simp))
            refine ⟨hreach, ?_⟩
            rintro _ _ ⟨⟩ p' hp'
            rcases List.mem_append.mp hp' with hold | hnew
            · exact hdist (x :: pending) measured rfl p' hold
            · rw [List.mem_singleton.mp hnew, hq]
      | nil =>
        -- the pass through the body, with the distances as they were measured
        obtain ⟨s', u, hpass, hbody, hsame, hitems', hacc'⟩ := pointerBody_holds r
          (measuredDist measured) hlive (s := ⟨acc, p :: rest⟩) (.cons hp hrest) hitems h.acc
        rw [List.append_nil] at hnode hown
        refine ⟨⟨s', none, seen⟩, ?_, ⟨u.toTraverse, hsame.stack, hitems'⟩, ?_, ?_, ?_, ?_⟩
        · simp only [Scan.step, hpass]
        · rintro _ _ ⟨⟩
        · rw [hsame.acc]
          exact hacc'
        · intro hmax
          obtain ⟨hstart, hbelow⟩ := h.candidate hmax
          refine ⟨Or.inr ?_, fun pending measured h => by cases h⟩
          rw [hsame.acc]
          apply body_candidate b.DIST_MAX r (measuredDist measured) hbody
          rcases hstart with hstart | hcandidate
          · right
            cases hstart
            refine ⟨rfl, ?_, ?_⟩
            · rw [hown]
              exact hroot _ hnode
            · intro x hx
              rw [hown] at hx
              obtain ⟨p, hp, _, hdist⟩ := exists_measuredDist hx
              rw [hdist]
              exact hbelow [] measured rfl p hp
          · exact Or.inl hcandidate
        · intro hseen
          obtain ⟨hreach, hdist⟩ := h.own hseen
          refine ⟨hreach.tail ⟨rfl, ?_⟩, fun pending measured h => by cases h⟩
          have hcongr := pointerBody_congr r acc rest hnode fun x hx =>
            measuredDist_of_mem (hdist [] measured rfl) hx
          exact hcongr.symm.trans hpass

/-- A step finds one query point at most. -/
theorem step_seen {scan' : Scan Obj D r.Acc} {comparing : Option Obj}
    (h : scan.step b r t comparing = .ok (.inl scan')) {p : Option Obj} (hp : p ∈ scan'.seen) :
    p ∈ scan.seen ∨ p = comparing := by
  obtain ⟨⟨acc, toTraverse⟩, node, seen⟩ := scan
  unfold Scan.step at h
  cases node with
  | none =>
    cases toTraverse with
    | nil => cases h
    | cons p rest =>
      obtain ⟨items, _, hscan⟩ := (except_map_eq_ok _ _ _).mp h
      cases hscan
      exact Or.inl hp
  | some node =>
    obtain ⟨pending, measured⟩ := node
    cases pending with
    | cons x pending =>
      obtain ⟨dist, _, hscan⟩ := (except_map_eq_ok _ _ _).mp h
      cases hscan
      rcases List.mem_append.mp hp with hold | hnew
      · exact Or.inl hold
      · exact Or.inr (List.mem_singleton.mp hnew)
    | nil =>
      dsimp only at h
      split at h
      · cases h
        exact Or.inl hp
      · cases h
      · cases h

end Steps

end VantagePoint
