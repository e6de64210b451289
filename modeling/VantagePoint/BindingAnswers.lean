import VantagePoint.BindingSafety
import VantagePoint.PointMap

/-! What the locked searches answer, whatever the other threads do meanwhile. The one
thing that may come between is the query point, which another search may replace; where
every measurement found its own, a search answers as a scan of the array. -/
namespace VantagePoint
open WhileLoop GroupMetric RwLock GuardedThreads

variable {Obj D : Type}

/-- The objects of an array. -/
def objects (datapoints : JavaArray Obj) : List Obj := datapoints.filterMap id

def Request.query (q : Obj) : Request D → Query Obj D
  | .nn => .nn q
  | .knn k => .knn q k
  | .allWithin max_dist => .allWithin q max_dist (some 0) fun n => some (n+1)

/-- What the caller of the search finds. -/
def Request.answer : (r : Request D) → r.Acc → Answer ℤ D
  | .nn, (c : Closest ℤ D) => .nn c
  | .knn _, (s : KnnState ℤ D) => .knn (s.live, s.knnlistSize)
  | .allWithin _, (s : WithinState ℤ D) => .allWithin (true, s)

section Objects

variable {datapoints : JavaArray Obj}

theorem exists_objects (h : Full datapoints) : datapoints = (objects datapoints).map some := by
  unfold objects
  induction datapoints with
  | nil => rfl
  | cons o datapoints ih =>
    obtain ⟨x, rfl⟩ := Option.isSome_iff_exists.mp (h o List.mem_cons_self)
    rw [List.filterMap_cons]
    exact congrArg _ (ih fun o ho => h o (List.mem_cons_of_mem _ ho))

/-- The indices of a full array stand for its objects. -/
theorem map_objectAt_indices (h : Full datapoints) (q : Obj) :
    (indices datapoints.length).map (objectAt datapoints q) = objects datapoints := by
  have harray := exists_objects h
  generalize objects datapoints = os at harray ⊢
  subst harray
  rw [List.length_map, indices, List.map_map]
  apply List.ext_getElem
  · rw [List.length_map, List.length_range]
  · intro i hi hi'
    have hnat : ¬ (i : ℤ) < 0 := by omega
    simp [objectAt, element, List.getElem?_eq_getElem hi', hnat]

theorem distTo_eq [Zero D] (b : Binding Obj D) (h : Full datapoints) {x : ℤ}
    (hx : x ∈ indices datapoints.length) (q : Obj) :
    b.distFn (objectAt datapoints q x) q = b.distTo datapoints q x := by
  obtain ⟨o, ho⟩ := element_of_mem h hx
  simp [Binding.distTo, jdistFn, objectAt, ho]

end Objects

section Trees

variable {α : Type*} [LinearOrder D]

theorem ordered_congr {dist_fn dist_fn' : α → α → D} {t : VPNode α D}
    (h : ∀ x ∈ t.items, ∀ y ∈ t.items, dist_fn x y = dist_fn' x y) (ht : t.Ordered dist_fn) :
    t.Ordered dist_fn' := by
  induction t with
  | pointlist xs => trivial
  | branch v r left right ihl ihr =>
    obtain ⟨hl, hr, hol, hor⟩ := ht
    have hleft {x : α} (hx : x ∈ left.items) : x ∈ (VPNode.branch v r left right).items :=
      List.mem_cons_of_mem _ (List.mem_append_left _ hx)
    have hright {x : α} (hx : x ∈ right.items) : x ∈ (VPNode.branch v r left right).items :=
      List.mem_cons_of_mem _ (List.mem_append_right _ hx)
    refine ⟨?_, ?_, ihl (fun x hx y hy => h x (hleft hx) y (hleft hy)) hol,
      ihr (fun x hx y hy => h x (hright hx) y (hright hy)) hor⟩
    · intro x hx
      rw [← h v List.mem_cons_self x (hleft hx)]
      exact hl x hx
    · intro x hx
      rw [← h v List.mem_cons_self x (hright hx)]
      exact hr x hx

variable [Add D] [Sub D]

/-- No request ends its search early. -/
theorem visit_total (r : Request D) (dist : ℤ → D) (root : VPNode ℤ D) {acc : r.Acc}
    (h : r.Holds root.items acc) :
    ∃ acc', (r.search dist).visit (fun x _ => dist x) (-1) root acc = .ok acc' := by
  have hvisit : BothOk (fun acc acc' : r.Acc => acc = acc' ∧ r.Holds root.items acc)
      ((r.search dist).visit (fun x _ => dist x) (-1) root acc)
      ((r.search dist).visit (fun x _ => dist x) (-1) root acc) := by
    apply visit_simulates
    · rintro acc _ ⟨rfl, _⟩
      rfl
    · rintro acc _ x hx ⟨rfl, hholds⟩
      obtain ⟨acc', hacc', hholds'⟩ := onBranch_holds r dist (dist x) hx hholds
      exact ⟨acc', acc', hacc', hacc', rfl, hholds'⟩
    · rintro acc _ xs hxs ⟨rfl, hholds⟩
      obtain ⟨acc', hacc', hholds'⟩ := onList_holds r dist (fun x hx => hxs hx) hholds
      exact ⟨acc', acc', hacc', hacc', rfl, hholds'⟩
    · exact ⟨rfl, h⟩
  obtain ⟨acc', _, hacc', _⟩ := hvisit
  exact ⟨acc', hacc'⟩

/-- The undisturbed search of the memory ends as the recursive visit of the tree. -/
theorem visit_of_undisturbed [Zero D] {b : Binding Obj D} {t : SharedTree Obj D} {r : Request D}
    {q : Obj} {acc : r.Acc} {root : VPNode ℤ D} (hlive : t.vpt.arena.Live)
    (hrep : t.vpt.arena.Represents root t.vpt.root) (h : r.Undisturbed b t q ⟨acc, []⟩) :
    (r.search (b.distTo t.datapoints q)).visit (fun x _ => b.distTo t.datapoints q x) (-1) root
      (r.start b.DIST_MAX) = .ok acc := by
  have hstart : r.Holds root.items (r.start b.DIST_MAX) := by
    cases r with
    | nn =>
      intro x hx
      cases hx
    | knn k =>
      intro e he
      cases he
    | allWithin max_dist => rfl
  obtain ⟨acc', hacc'⟩ := visit_total r (b.distTo t.datapoints q) root hstart
  have hmatch := pointerLoop_matches (r.search (b.distTo t.datapoints q))
    (fun x _ => b.distTo t.datapoints q x) (-1) hlive hrep root.nodeCount (r.start b.DIST_MAX)
  rw [loop_run_start, hacc'] at hmatch
  cases hrun : ((r.search (b.distTo t.datapoints q)).pointerLoop t.vpt.arena
      (fun x _ => b.distTo t.datapoints q x) (-1)).run root.nodeCount
        ⟨r.start b.DIST_MAX, [some t.vpt.root]⟩ with
  | error e =>
    rw [hrun] at hmatch
    exact hmatch.elim
  | ok s =>
    rw [hrun] at hmatch
    obtain ⟨acc'', ps⟩ := s
    obtain ⟨hacc, hstack⟩ := hmatch
    obtain rfl : acc'' = acc' := hacc
    cases hstack
    -- The loop ends once, so the steps in between make no difference.
    have hend := eq_of_run_of_reaches _ _ hrun rfl h rfl
    rw [hacc']
    exact congrArg (fun s => Except.ok (PointerState.acc s)) hend

end Trees

section Answers

variable [AddCommGroup D] [LinearOrder D] [IsOrderedAddMonoid D] {b : Binding Obj D}
  {t : SharedTree Obj D} {r : Request D} {q : Obj} {acc : r.Acc}

/-- Where every measurement found the search's own query point, its answer is that of a
scan of the array. -/
theorem answer_of_undisturbed (hd : IsMetric b.distFn) (hmax : ∀ x y, b.distFn x y < b.DIST_MAX)
    (ht : t.Sane b) (hr : r.Served) (h : r.Undisturbed b t q ⟨acc, []⟩) :
    ScanAnswer b.distFn b.DIST_MAX (objects t.datapoints) (r.query q)
      ((r.answer (r.finish acc)).map (objectAt t.datapoints q)) := by
  obtain ⟨hlive, root, hrep, hitems, hordered⟩ := ht.root
  have hvisit := visit_of_undisturbed hlive hrep h
  have hrun := loop_run_start (r.search (b.distTo t.datapoints q))
    (fun x _ => b.distTo t.datapoints q x) (-1) (r.start b.DIST_MAX) root
  rw [hvisit] at hrun
  have hin {x : ℤ} (hx : x ∈ root.items) : x ∈ indices t.datapoints.length :=
    hitems.mem_iff.mp hx
  have hdist (x : ℤ) (hx : x ∈ root.items) :
      b.distFn (objectAt t.datapoints q x) q = b.distTo t.datapoints q x :=
    distTo_eq b ht.full (hin hx) q
  have hobjects : (root.map (objectAt t.datapoints q)).items.Perm (objects t.datapoints) := by
    rw [map_items, ← map_objectAt_indices ht.full q]
    exact hitems.map _
  have hmapped : (root.map (objectAt t.datapoints q)).Ordered b.distFn := by
    rw [map_ordered]
    apply ordered_congr _ hordered
    intro x hx y hy
    obtain ⟨ox, hox⟩ := element_of_mem ht.full (hin hx)
    obtain ⟨oy, hoy⟩ := element_of_mem ht.full (hin hy)
    simp [env_distFn, pullback, objectAt, hox, hoy]
  have hscan := answer_scan hd hmapped hobjects (fun x _ y => hmax x y) (r.query q)
  have hlen : (objects t.datapoints).length ≠ 0 := by
    intro h0
    apply ht.nonempty
    rw [exists_objects ht.full, List.length_eq_zero_iff.mp h0]
    rfl
  suffices hanswer : (root.map (objectAt t.datapoints q)).answer b.distFn b.DIST_MAX
      (objects t.datapoints).length (r.query q) =
        (r.answer (r.finish acc)).map (objectAt t.datapoints q) by
    rwa [hanswer] at hscan
  cases r with
  | nn =>
    have hloop : ((nnSearch (fun x _ => b.distTo t.datapoints q x) (-1)).loop
        (fun x _ => b.distTo t.datapoints q x) (-1)).run root.nodeCount
          (.start ⟨none, b.DIST_MAX⟩ root) = .ok ⟨acc, []⟩ := hrun
    have hnn : vptNn (fun x _ => b.distTo t.datapoints q x) b.DIST_MAX root (-1) = acc := by
      rw [vptNn, hloop]
      rfl
    have hmap : vptNn b.distFn b.DIST_MAX (root.map (objectAt t.datapoints q)) q =
        (vptNn (fun x _ => b.distTo t.datapoints q x) b.DIST_MAX root (-1)).map
          (objectAt t.datapoints q) := vptNn_map hdist b.DIST_MAX
    rw [hnn] at hmap
    exact congrArg Answer.nn hmap
  | knn k =>
    have hk : ¬ ((objects t.datapoints).length = 0 ∨ k = 0) := by
      rintro (h0 | rfl)
      · exact hlen h0
      · exact absurd (show 1 ≤ 0 from hr) (by decide)
    have hloop : ((knnSearch k (fun x _ => b.distTo t.datapoints q x) (-1)).loop
        (fun x _ => b.distTo t.datapoints q x) (-1)).run root.nodeCount
          (.start (knnStart b.DIST_MAX) root) = .ok ⟨acc, []⟩ := hrun
    have hknn : vptKnn (fun x _ => b.distTo t.datapoints q x) b.DIST_MAX root
        (objects t.datapoints).length (-1) k =
          (KnnState.live acc, KnnState.knnlistSize acc) := by
      rw [vptKnn, if_neg hk, hloop]
      rfl
    have hmap : vptKnn b.distFn b.DIST_MAX (root.map (objectAt t.datapoints q))
        (objects t.datapoints).length q k =
          ((KnnState.live acc).map (VPEntry.map (objectAt t.datapoints q)),
            KnnState.knnlistSize acc) := by
      have hboth : vptKnn b.distFn b.DIST_MAX (root.map (objectAt t.datapoints q))
          (objects t.datapoints).length q k =
            (_, (vptKnn (fun x _ => b.distTo t.datapoints q x) b.DIST_MAX root
              (objects t.datapoints).length (-1) k).2) := vptKnn_map hdist b.DIST_MAX _ k
      rwa [hknn] at hboth
    exact congrArg Answer.knn hmap
  | allWithin max_dist =>
    have hloop : ((withinSearch (fun n => some (n+1)) (fun x _ => b.distTo t.datapoints q x) (-1)
        max_dist).loop (fun x _ => b.distTo t.datapoints q x) (-1)).run root.nodeCount
          (.start (withinStart (some 0)) root) = .ok ⟨acc, []⟩ := hrun
    have hwithin : vptAllWithin (some 0) (fun n => some (n+1))
        (fun x _ => b.distTo t.datapoints q x) root (-1) max_dist =
          (true, (Request.allWithin max_dist).finish acc) := by
      rw [vptAllWithin]
      dsimp only
      rw [hloop]
      rfl
    have hmap : vptAllWithin (some 0) (fun n => some (n+1)) b.distFn
        (root.map (objectAt t.datapoints q)) q max_dist =
          ((vptAllWithin (some 0) (fun n => some (n+1)) (fun x _ => b.distTo t.datapoints q x) root
            (-1) max_dist).1, _) := vptAllWithin_map hdist max_dist (some 0) _
    rw [hwithin] at hmap
    exact congrArg Answer.allWithin hmap

/-- What is read of the results of a `knn` where every measurement found `q`, the query
point of the call or another one. -/
theorem knn_results (hd : IsMetric b.distFn) (hmax : ∀ x y, b.distFn x y < b.DIST_MAX)
    (ht : t.Sane b) {k : ℕ} {acc : KnnState ℤ D} {seen : List (Option Obj)} (hk : 1 ≤ k)
    (hended : (Request.knn k).Ended b t q acc seen) (hown : ∀ p ∈ seen, p = some q) :
    ((Request.knn k).results acc).isEmpty = false ∧
      ∃ entries, ((Request.knn k).results acc).mapM (newEntryAt t.datapoints) = .ok entries ∧
        KnnSound (fun o => b.distFn o q) k (objects t.datapoints) (entries, entries.length) := by
  obtain ⟨acc', hacc, hholds, _, hreach⟩ := hended
  obtain rfl : acc = acc' := hacc
  have hsound : KnnSound (fun o => b.distFn o q) k (objects t.datapoints)
      (acc.live.map (VPEntry.map (objectAt t.datapoints q)),
        acc.knnlistSize) := answer_of_undisturbed (r := .knn k) hd hmax ht hk (hreach hown)
  have hmapM := mapM_newEntryAt ht.full q acc.live fun e he =>
    hholds e (List.mem_of_mem_take he)
  refine ⟨?_, acc.live.map (VPEntry.map (objectAt t.datapoints q)), hmapM, ?_⟩
  · -- The array is not empty, so there is a nearest object.
    have hobjects : objects t.datapoints ≠ [] := by
      intro hnil
      apply ht.nonempty
      rw [exists_objects ht.full, hnil]
      rfl
    obtain ⟨o, ho⟩ := List.exists_mem_of_ne_nil _ hobjects
    obtain ⟨e, rest, hlive, _⟩ := hsound.nearest hk o ho
    show (acc.live.map some).isEmpty = false
    cases hl : acc.live with
    | nil =>
      rw [hl] at hlive
      cases hlive
    | cons e es => rfl
  · have hlength := hsound.length
    dsimp only at hlength
    rw [← hlength] at hsound
    exact hsound

/-- What is read of the result of an `nn` where every measurement found `q`. -/
theorem nn_results (hd : IsMetric b.distFn) (hmax : ∀ x y, b.distFn x y < b.DIST_MAX)
    (ht : t.Sane b) {acc : Closest ℤ D} {seen : List (Option Obj)}
    (hended : (Request.nn : Request D).Ended b t q acc seen) (hown : ∀ p ∈ seen, p = some q) :
    ∃ o, ((Request.nn : Request D).results acc).mapM (newEntryAt t.datapoints) =
        .ok [⟨o, b.distFn o q⟩] ∧
      o ∈ objects t.datapoints ∧ ∀ o' ∈ objects t.datapoints, b.distFn o q ≤ b.distFn o' q := by
  obtain ⟨acc', hacc, hholds, _, hreach⟩ := hended
  obtain rfl : acc = acc' := hacc
  have hscan : ScanAnswer b.distFn b.DIST_MAX (objects t.datapoints) (.nn q)
      (.nn (acc.map (objectAt t.datapoints q))) :=
    answer_of_undisturbed (r := .nn) hd hmax ht trivial (hreach hown)
  rcases hscan with ⟨hnil, _⟩ | ⟨o, ho, hclosest, hnearest⟩
  · exfalso
    apply ht.nonempty
    rw [exists_objects ht.full, hnil]
    rfl
  · obtain ⟨hmap, hdist⟩ := Closest.mk.inj hclosest
    obtain ⟨x, hx, rfl⟩ := Option.map_eq_some_iff.mp hmap
    have hresults : (Request.nn : Request D).results acc =
        [(⟨x, acc.closestDist⟩ : VPEntry ℤ D)].map some := by
      show [acc.closest.map _] = _
      rw [hx]
      rfl
    refine ⟨objectAt t.datapoints q x, ?_, ho, hnearest⟩
    rw [hresults, mapM_newEntryAt ht.full q _ fun e he => ?_]
    · rw [List.map_singleton, hdist]
    · rw [List.mem_singleton.mp he]
      exact hholds x hx

omit [IsOrderedAddMonoid D] in
/-- The results of a range search are never read, if there are any. -/
theorem within_unread {max_dist : D} {acc : WithinState ℤ D} {seen : List (Option Obj)}
    (hended : (Request.allWithin max_dist).Ended b t q acc seen)
    (hne : ((Request.allWithin max_dist).results acc).isEmpty = false) :
    ((Request.allWithin max_dist).results acc).mapM (newEntryAt t.datapoints) =
      .error (.memory .unwritten) := by
  obtain ⟨acc', rfl, hholds, _⟩ := hended
  have hcell : ((Request.allWithin max_dist).finish acc' : WithinState ℤ D).cells 0 = none := hholds
  exact mapM_newEntryAt_within hcell hne

/-- There are, where every measurement found `q`, if some object is within the distance. -/
theorem within_results (hd : IsMetric b.distFn) (hmax : ∀ x y, b.distFn x y < b.DIST_MAX)
    (ht : t.Sane b) {max_dist : D} {acc : WithinState ℤ D} {seen : List (Option Obj)}
    (hended : (Request.allWithin max_dist).Ended b t q acc seen) (hown : ∀ p ∈ seen, p = some q) :
    ((Request.allWithin max_dist).results acc).isEmpty = false ↔
      ∃ o ∈ objects t.datapoints, b.distFn o q ≤ max_dist := by
  obtain ⟨acc', rfl, _, _, hreach⟩ := hended
  have hscan : WithinState.numResults ((Request.allWithin max_dist).finish acc') =
      (matchesOf (fun o => b.distFn o q) max_dist (objects t.datapoints)).length :=
    ((answer_of_undisturbed (r := .allWithin max_dist) hd hmax ht trivial (hreach hown)).1 rfl).2
  have hlen : ((Request.allWithin max_dist).results
      ((Request.allWithin max_dist).finish acc')).length =
        WithinState.numResults ((Request.allWithin max_dist).finish acc') := by
    simp [Request.results]
  rw [List.isEmpty_eq_false_iff, ← List.length_pos_iff, hlen, hscan, matchesOf, List.length_map,
    List.length_pos_iff_exists_mem]
  simp [List.mem_filter]

end Answers

section Interleavings

variable {ι : Type*} [Fintype ι] [DecidableEq ι] [AddCommGroup D] [LinearOrder D]
  [IsOrderedAddMonoid D] {b : Binding Obj D} {t : SharedTree Obj D}
  {calls : ι → List (BindingCall Obj D)}
  {s : System ι (SharedTree Obj D) (Option Obj) (BindingThread Obj D)} {i : ι}

omit [Fintype ι] [IsOrderedAddMonoid D] in
/-- What the method does with the results it has found. -/
theorem step_found {r : Request D} {q : Obj} {acc : r.Acc} {seen : List (Option Obj)}
    (hpc : (s.thread i).pc = .found r q acc seen) (hr : r.locked = true) :
    (∀ entries, (r.results acc).isEmpty = false →
      (r.results acc).mapM (newEntryAt s.guarded.datapoints) = .ok entries →
        s.step b.program i = .ok (s.goto i { s.thread i with
          returned := (s.thread i).returned ++ [r.value entries]
          pc := .releasing .read })) ∧
    (∀ fault, (r.results acc).isEmpty = false →
      (r.results acc).mapM (newEntryAt s.guarded.datapoints) = .error fault →
        s.step b.program i = .error (.fault fault)) ∧
    ((r.results acc).isEmpty = true → s.step b.program i = .ok (s.goto i { s.thread i with
      leaked := (s.thread i).leaked+1
      returned := (s.thread i).returned ++ [.null]
      pc := .ready })) := by
  generalize hth : s.thread i = th at hpc
  obtain ⟨todo, leaked, returned, pc⟩ := th
  obtain rfl : pc = .found r q acc seen := hpc
  refine ⟨?_, ?_, ?_⟩
  · intro entries hne hentries
    simp only [System.step, hth, Binding.program, hr, hne, hentries, Bool.false_eq_true, and_false,
      ↓reduceIte, Except.map]
  · intro fault hne hfault
    simp only [System.step, hth, Binding.program, hr, hne, hfault, Bool.false_eq_true, and_false,
      ↓reduceIte, Except.map]
  · intro hempty
    simp only [System.step, hth, Binding.program, hr, hempty, and_self, ↓reduceIte]

omit [Fintype ι] in
/-- What `knn` returns where every measurement found `q`. -/
theorem knn_found (hd : IsMetric b.distFn) (hmax : ∀ x y, b.distFn x y < b.DIST_MAX)
    (ht : s.guarded.Sane b) {k : ℕ} {q q' : Obj} {acc : KnnState ℤ D} {seen : List (Option Obj)}
    (hk : 1 ≤ k) (hpc : (s.thread i).pc = .found (.knn k) q' acc seen)
    (hended : (Request.knn k).Ended b s.guarded q acc seen) (hown : ∀ p ∈ seen, p = some q) :
    ∃ s' entries, s.step b.program i = .ok s' ∧
      (s'.thread i).returned = (s.thread i).returned ++ [.list entries] ∧
      (s'.thread i).pc = .releasing .read ∧
      KnnSound (fun o => b.distFn o q) k (objects s.guarded.datapoints)
        (entries, entries.length) := by
  obtain ⟨hne, entries, hentries, hsound⟩ := knn_results hd hmax ht hk hended hown
  refine ⟨_, entries, (step_found (b := b) hpc rfl).1 _ hne hentries, ?_, ?_, hsound⟩
  · rw [goto_self]
    rfl
  · rw [goto_self]

omit [Fintype ι] in
/-- What `nn` returns where every measurement found `q`. -/
theorem nn_found (hd : IsMetric b.distFn) (hmax : ∀ x y, b.distFn x y < b.DIST_MAX)
    (ht : s.guarded.Sane b) {q q' : Obj} {acc : Closest ℤ D} {seen : List (Option Obj)}
    (hpc : (s.thread i).pc = .found .nn q' acc seen)
    (hended : (Request.nn : Request D).Ended b s.guarded q acc seen)
    (hown : ∀ p ∈ seen, p = some q) :
    ∃ s' o, s.step b.program i = .ok s' ∧
      (s'.thread i).returned = (s.thread i).returned ++ [.entry ⟨o, b.distFn o q⟩] ∧
      o ∈ objects s.guarded.datapoints ∧
      ∀ o' ∈ objects s.guarded.datapoints, b.distFn o q ≤ b.distFn o' q := by
  obtain ⟨o, hentries, ho, hnearest⟩ := nn_results hd hmax ht hended hown
  generalize hth : s.thread i = th at hpc
  obtain ⟨todo, leaked, returned, pc⟩ := th
  obtain rfl : pc = .found .nn q' acc seen := hpc
  have hstep : s.step b.program i =
      .ok (s.goto i ⟨todo, leaked, returned ++ [.entry ⟨o, b.distFn o q⟩], .ready⟩) := by
    simp only [System.step, hth, Binding.program, Request.locked, hentries, Bool.false_eq_true,
      false_and, ↓reduceIte, Except.map, Request.value]
  refine ⟨_, o, hstep, ?_, ho, hnearest⟩
  rw [goto_self]

/-- A `knn` whose search has just ended, and found its own query point every time. -/
def Pc.knnFound : Pc Guest ℤ → Bool
  | .found (.knn _) q _ seen => seen.all fun p => p = some q
  | _ => false

theorem exists_of_knnFound {pc : Pc Guest ℤ} (h : pc.knnFound = true) :
    ∃ k q acc seen, pc = .found (.knn k) q acc seen ∧ ∀ p ∈ seen, p = some q := by
  unfold Pc.knnFound at h
  split at h
  · rename_i k q acc seen
    exact ⟨k, q, acc, seen, rfl, by simpa using h⟩
  · cases h

/-- An `all_within` whose search has just ended. -/
def Pc.withinFound : Pc Guest ℤ → Bool
  | .found (.allWithin _) _ _ _ => true
  | _ => false

theorem exists_of_withinFound {pc : Pc Guest ℤ} (h : pc.withinFound = true) :
    ∃ max_dist q acc seen, pc = .found (.allWithin max_dist) q acc seen := by
  unfold Pc.withinFound at h
  split at h
  · rename_i max_dist q acc seen
    exact ⟨max_dist, q, acc, seen, rfl⟩
  · cases h

end Interleavings

end VantagePoint
