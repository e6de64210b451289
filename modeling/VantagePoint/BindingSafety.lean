import VantagePoint.BindingArray
import VantagePoint.BindingScan

/-! The methods of the Java tree that take the lock, in any number of threads and any
interleaving. Between the calls the tree serves the indices of the array, a search
meets no torn-down tree, and a method goes wrong in one way only: a range search that
has found something reads a result that was never written. -/
namespace VantagePoint
open WhileLoop RwLock GuardedThreads BlockLedger

variable {Obj D : Type}

/-- `nn` takes no lock, and `add` replaces the array under a read lock. -/
def BindingCall.Guarded : BindingCall Obj D → Prop
  | .query .nn _ => False
  | .add _ => False
  | _ => True

/-- A request of a locked method. -/
def Request.Admitted : Request D → Prop
  | .nn => False
  | .knn k => 1 ≤ k
  | .allWithin _ => True

/-- A request that a method goes on with. -/
def Request.Served : Request D → Prop
  | .nn => True
  | .knn k => 1 ≤ k
  | .allWithin _ => True

theorem Request.Admitted.served {r : Request D} (h : r.Admitted) : r.Served := by
  cases r with
  | nn => trivial
  | knn k => exact h
  | allWithin max_dist => trivial

section Distances

variable [LinearOrder D] [Zero D] {b : Binding Obj D} {datapoints : JavaArray Obj}

/-- A symmetric distance of which `big` is an upper bound. -/
structure Binding.Fits (b : Binding Obj D) : Prop where
  comm : ∀ x y, b.distFn x y = b.distFn y x
  le : ∀ x y, b.distFn x y ≤ b.big.distance
  nonneg : 0 ≤ b.big.distance

omit [LinearOrder D] in
/-- Without a query point the index -1 finds nothing. -/
theorem env_distFn (b : Binding Obj D) (datapoints : JavaArray Obj) (i j : ℤ) :
    (b.env datapoints).distFn i j =
      match element datapoints i, element datapoints j with
      | some first, some second => b.distFn first second
      | _, _ => 0 := by
  have hsecond : (if j = -1 then none else element datapoints j) = element datapoints j := by
    by_cases hj : j = -1
    · subst hj
      rfl
    · rw [if_neg hj]
  simp only [Binding.env, jdistFn, hsecond]
  cases element datapoints i with
  | none => rfl
  | some first =>
    cases element datapoints j with
    | none => rfl
    | some second => rfl

theorem Binding.Fits.env_comm (h : b.Fits) (i j : ℤ) :
    (b.env datapoints).distFn i j = (b.env datapoints).distFn j i := by
  rw [env_distFn, env_distFn]
  cases element datapoints i with
  | none =>
    cases element datapoints j with
    | none => rfl
    | some second => rfl
  | some first =>
    cases element datapoints j with
    | none => rfl
    | some second => exact h.comm first second

theorem Binding.Fits.env_bounded (h : b.Fits) : (b.env datapoints).Bounded := by
  intro i j
  rw [env_distFn]
  cases element datapoints i with
  | none => exact h.nonneg
  | some first =>
    cases element datapoints j with
    | none => exact h.nonneg
    | some second => exact h.le first second

end Distances

section Invariant

variable [LinearOrder D] [Zero D]

/-- The invariant of what the lock guards. -/
structure SharedTree.Sane (b : Binding Obj D) (t : SharedTree Obj D) : Prop where
  nonempty : t.datapoints ≠ []
  full : Full t.datapoints
  serves : Serves (b.env t.datapoints) t.vpt (indices t.datapoints.length)

/-- No build of the array leaves a list in its scans, in whatever order its indices come. -/
def SharedTree.BuildsInside (b : Binding Obj D) (t : SharedTree Obj D) : Prop :=
  ∀ (m : Arena ℤ D) ys, ys.Perm (indices t.datapoints.length) →
    SplitsInside (b.env t.datapoints) m ys

variable [Add D] [Sub D]

/-- The loop of a search, from the root on, that measures every item from `q`. -/
def Request.Undisturbed (b : Binding Obj D) (t : SharedTree Obj D) (r : Request D) (q : Obj)
    (s : PointerState r.Acc) : Prop :=
  ((r.search (b.distTo t.datapoints q)).pointerLoop t.vpt.arena
    (fun x _ => b.distTo t.datapoints q x) (-1)).Reaches
      ⟨r.start b.DIST_MAX, [some t.vpt.root]⟩ s

/-- What is known of a search that has come to its end. -/
def Request.Ended (b : Binding Obj D) (t : SharedTree Obj D) (r : Request D) (q : Obj) (acc : r.Acc)
    (seen : List (Option Obj)) : Prop :=
  ∃ acc', acc = r.finish acc' ∧ r.Holds (indices t.datapoints.length) acc' ∧
    ((∀ x y, b.distFn x y < b.DIST_MAX) → r.HasCandidate acc') ∧
    ((∀ p ∈ seen, p = some q) → r.Undisturbed b t q ⟨acc', []⟩)

/-- What a method may rely on. -/
def Pc.Relies (b : Binding Obj D) (t : SharedTree Obj D) (comparing : Option Obj) : Pc Obj D → Prop
  | .ready => True
  | .locking r _ => r.Admitted ∧ comparing.isSome
  | .posting r _ => r.Admitted ∧ t.Sane b
  | .starting r _ => r.Admitted ∧ comparing.isSome ∧ t.Sane b
  | .searching r q scan => r.Admitted ∧ comparing.isSome ∧ t.Sane b ∧ scan.Follows b t r q
  | .found r q acc seen => r.Admitted ∧ t.Sane b ∧ r.Ended b t q acc seen
  | .sizing => True
  | .adding _ => False
  | .storing _ => False
  | .appending datapoints => t.Sane b ∧ Full datapoints
  -- between the two halves of a rebuild the chunks are gone, and the items are in a block
  | .tearing added => t.datapoints ≠ [] ∧ Full t.datapoints ∧ ∃ n,
    t.datapoints.length = n+added.getD 0 ∧ Intact t.vpt (indices n) ∧
      t.vpt.arena.Accounts (fun _ => true) []
  | .building block data => t.datapoints ≠ [] ∧ Full t.datapoints ∧
    data.Perm (indices t.datapoints.length) ∧
      Settled (fun _ => true) t.vpt.arena.requests [block] t.vpt.arena.freed
  | .releasing .read => True
  | .releasing .write => t.Sane b

/-- What a thread may rely on: its calls use the lock. -/
def BindingThread.Relies (b : Binding Obj D) (th : BindingThread Obj D) (t : SharedTree Obj D)
    (comparing : Option Obj) : Prop :=
  (∀ call ∈ th.todo, call.Guarded) ∧ th.pc.Relies b t comparing

/-- The one way to go wrong. -/
def BindingThread.Unwritten (th : BindingThread Obj D) (_ : SharedTree Obj D)
    (fault : BindingFault) : Prop :=
  fault = .memory .unwritten ∧ ∃ max_dist q acc seen, th.pc = .found (.allWithin max_dist) q acc seen

end Invariant

section Values

theorem Request.Admitted.locked {r : Request D} (h : r.Admitted) : r.locked = true := by
  cases r with
  | nn => exact h.elim
  | knn k => rfl
  | allWithin max_dist => rfl

theorem full_of_validateArray {datapoints : JavaArray Obj} {n : ℕ}
    (h : validateArray datapoints = .ok n) : Full datapoints := by
  unfold validateArray at h
  split at h
  · cases h
  · split at h
    · cases h
    · rename_i hnull
      intro o ho
      by_contra hno
      exact hnull (List.any_eq_true.mpr ⟨o, ho, by simpa using hno⟩)

/-- Every result of a nearest-neighbour search finds its object. -/
theorem mapM_newEntryAt {datapoints : JavaArray Obj} (hfull : Full datapoints) (q : Obj)
    (es : List (VPEntry ℤ D)) (h : ∀ e ∈ es, e.item ∈ indices datapoints.length) :
    (es.map some).mapM (newEntryAt datapoints) =
      .ok (es.map fun e => ⟨objectAt datapoints q e.item, e.distance⟩) := by
  induction es with
  | nil => rfl
  | cons e es ih =>
    obtain ⟨o, ho⟩ := element_of_mem hfull (h e List.mem_cons_self)
    rw [List.map_cons, List.mapM_cons, ih fun e' he' => h e' (List.mem_cons_of_mem _ he')]
    simp only [newEntryAt, ho, List.map_cons, objectAt, Option.getD_some]
    rfl

/-- The first cell of a range search's results is never written. -/
theorem mapM_newEntryAt_within {datapoints : JavaArray Obj} {s : WithinState ℤ D}
    (hcell : s.cells 0 = none) {max_dist : D}
    (hne : ((Request.allWithin max_dist).results s).isEmpty = false) :
    ((Request.allWithin max_dist).results s).mapM (newEntryAt datapoints) =
      .error (.memory .unwritten) := by
  have hresults : (Request.allWithin max_dist).results s = (List.range s.numResults).map fun i =>
    if s.allWithin.items = s.resultSpace then s.cells i else none := rfl
  rw [hresults] at hne ⊢
  cases hn : s.numResults with
  | zero =>
    rw [hn] at hne
    cases hne
  | succ n =>
    rw [List.range_succ_eq_map, List.map_cons, hcell, ite_self, List.mapM_cons]
    rfl

end Values

section Methods

variable [LinearOrder D] [Zero D] [Add D] [Sub D] {b : Binding Obj D} {t : SharedTree Obj D}
  {comparing : Option Obj} {th : BindingThread Obj D}

/-- Without a hold a method relies on nothing that a writer changes. -/
theorem relies_of_free (hfree : th.pc.share = .free) (h : th.pc.Relies b t comparing)
    (t' : SharedTree Obj D) : th.pc.Relies b t' comparing := by
  generalize th.pc = pc at hfree h
  cases pc with
  | ready => trivial
  | locking r q => exact h
  | posting r q =>
    rw [Pc.share, if_pos h.1.locked] at hfree
    cases hfree
  | starting r q =>
    rw [Pc.share, if_pos h.1.locked] at hfree
    cases hfree
  | searching r q scan =>
    rw [Pc.share, if_pos h.1.locked] at hfree
    cases hfree
  | found r q acc seen =>
    rw [Pc.share, if_pos h.1.locked] at hfree
    cases hfree
  | sizing => trivial
  | adding datapoint => exact h.elim
  | storing datapoints => exact h.elim
  | appending datapoints => cases hfree
  | tearing added => cases hfree
  | building block data => cases hfree
  | releasing mode =>
    cases mode with
    | read => trivial
    | write => cases hfree

/-- The query point may be replaced by another one at any time. -/
theorem relies_of_post (h : th.pc.Relies b t comparing) (q : Obj) : th.pc.Relies b t (some q) := by
  generalize th.pc = pc at h
  cases pc with
  | locking r q' => exact ⟨h.1, rfl⟩
  | starting r q' => exact ⟨h.1, rfl, h.2.2⟩
  | searching r q' scan => exact ⟨h.1, rfl, h.2.2⟩
  | ready => exact h
  | posting r q' => exact h
  | found r q' acc seen => exact h
  | sizing => exact h
  | adding datapoint => exact h
  | storing datapoints => exact h
  | appending datapoints => exact h
  | tearing added => exact h
  | building block data => exact h
  | releasing mode =>
    cases mode with
    | read => trivial
    | write => exact h

/-- With the lock granted on a sane tree a method starts on good terms. -/
theorem Asks.relies {call : BindingCall Obj D} {mode : Mode} {pc : Pc Obj D}
    (h : Asks call mode pc) (hcall : call.Guarded) (ht : t.Sane b) :
    pc.Relies b t comparing := by
  cases h with
  | rebuild =>
    exact ⟨ht.nonempty, ht.full, t.datapoints.length, rfl, ht.serves.intact, ht.serves.accounts⟩
  | addRebuild datapoints n hv => exact ⟨ht, full_of_validateArray hv⟩
  | allWithin max_dist q => exact ⟨trivial, ht⟩
  | size => trivial
  | add datapoint => exact hcall.elim

theorem Posts.relies {call : BindingCall Obj D} {q : Obj} {pc : Pc Obj D} (h : Posts call q pc)
    (hcall : call.Guarded) : pc.Relies b t (some q) := by
  cases h with
  | nn q => exact hcall.elim
  | knn k q hk => exact ⟨hk, rfl⟩

omit [Add D] [Sub D] in
/-- The chunks of a sane tree are live, and the tree in them has the indices as items. -/
theorem SharedTree.Sane.root (h : t.Sane b) :
    t.vpt.arena.Live ∧ ∃ root, t.vpt.arena.Represents root t.vpt.root ∧
      root.items.Perm (indices t.datapoints.length) ∧
        root.Ordered (b.env t.datapoints).distFn :=
  ⟨h.serves.live, h.serves.ordered⟩

omit [Add D] [Sub D] in
/-- The root has an item. -/
theorem SharedTree.Sane.root_items (h : t.Sane b) (xs : List ℤ)
    (hxs : nodeItems t.vpt.arena (some t.vpt.root) = .ok xs) : xs ≠ [] := by
  obtain ⟨hlive, root, hrep, hitems, _⟩ := h.root
  obtain rfl : root.own = xs :=
    Except.ok.inj ((nodeItems_of_pointsTo hlive ⟨_, rfl, hrep⟩).symm.trans hxs)
  cases root with
  | branch v r left right => exact List.cons_ne_nil _ _
  | pointlist xs =>
    intro hnil
    have hlen := hitems.length_eq
    rw [length_indices] at hlen
    apply h.nonempty
    rw [← List.length_eq_zero_iff, ← hlen]
    exact List.length_eq_zero_iff.mpr hnil

/-- A step of a search: it goes on, or has come to its end. -/
theorem search_goes_on {r : Request D} {q : Obj} {scan : Scan Obj D r.Acc} (ht : t.Sane b)
    (h : scan.Follows b t r q) (hsome : comparing.isSome) :
    ∃ next, scan.step b r t comparing = .ok next ∧
      match next with
      | .inl scan => scan.Follows b t r q
      | .inr acc => r.Ended b t q acc scan.seen := by
  obtain ⟨q', rfl⟩ := Option.isSome_iff_exists.mp hsome
  rcases step_follows ht.root.1 ht.full ht.root_items h q' with ⟨scan', hstep, hscan'⟩ |
    ⟨hend, hstep⟩
  · exact ⟨_, hstep, hscan'⟩
  · refine ⟨_, hstep, scan.state.acc, rfl, h.acc, ?_, ?_⟩
    · intro hmax
      rcases (h.candidate hmax).1 with hstart | hcandidate
      · -- the loop does not end where it starts
        rw [hstart] at hend
        cases hend
      · exact hcandidate
    · intro hseen
      have hreach := (h.own hseen).1
      obtain ⟨⟨acc, toTraverse⟩, node, seen⟩ := scan
      obtain rfl : toTraverse = [] := hend
      exact hreach

/-- Where a search has found something: every result has its object, or the first one
was not written. -/
theorem results_of_ended {r : Request D} {q : Obj} {acc : r.Acc} {seen : List (Option Obj)}
    (ht : t.Sane b) (h : r.Ended b t q acc seen)
    (hmax : r = .nn → ∀ x y, b.distFn x y < b.DIST_MAX)
    (hsome : ¬ (r.locked = true ∧ (r.results acc).isEmpty = true)) :
    (∃ entries, (r.results acc).mapM (newEntryAt t.datapoints) = .ok entries) ∨
      ∃ max_dist, r = .allWithin max_dist ∧
        (r.results acc).mapM (newEntryAt t.datapoints) = .error (.memory .unwritten) := by
  obtain ⟨acc', rfl, hholds, hcandidate, _⟩ := h
  cases r with
  | nn =>
    left
    obtain ⟨x, hx⟩ : ∃ x, Closest.closest acc' = some x :=
      Option.isSome_iff_exists.mp (hcandidate (hmax rfl))
    have hitem : x ∈ indices t.datapoints.length := hholds x hx
    have hresults : Request.nn.results acc' =
        [(⟨x, Closest.closestDist acc'⟩ : VPEntry ℤ D)].map some := by
      show [(Closest.closest acc').map _] = _
      rw [hx]
      rfl
    show ∃ entries, (Request.nn.results acc').mapM (newEntryAt t.datapoints) = .ok entries
    rw [hresults]
    refine ⟨_, mapM_newEntryAt ht.full q _ fun e he => ?_⟩
    rw [List.mem_singleton.mp he]
    exact hitem
  | knn k =>
    left
    exact ⟨_, mapM_newEntryAt ht.full q (KnnState.live acc') fun e he =>
      hholds e (List.mem_of_mem_take he)⟩
  | allWithin max_dist =>
    right
    have hne : ((Request.allWithin max_dist).results
        ((Request.allWithin max_dist).finish acc')).isEmpty = false := by
      rw [← Bool.not_eq_true]
      exact fun hempty => hsome ⟨rfl, hempty⟩
    have hcell : ((Request.allWithin max_dist).finish acc' : WithinState ℤ D).cells 0 = none := hholds
    exact ⟨max_dist, rfl, mapM_newEntryAt_within hcell hne⟩

theorem appending_relies {datapoints : JavaArray Obj}
    (h : (Pc.appending datapoints).Relies b t comparing) :
    (Pc.tearing (some datapoints.length)).Relies b
      { t with datapoints := t.datapoints ++ datapoints } comparing := by
  obtain ⟨ht, hfull⟩ := h
  refine ⟨fun hnil => ht.nonempty (List.append_eq_nil_iff.mp hnil).1, ?_, t.datapoints.length, ?_,
    ht.serves.intact, ht.serves.accounts⟩
  · intro o ho
    rcases List.mem_append.mp ho with hold | hnew
    · exact ht.full o hold
    · exact hfull o hnew
  · exact List.length_append

/-- Both halves of a rebuild are granted what they ask for, and keep the promise that
the other half starts from. -/
theorem tearing_relies {added : Option ℕ} (h : (Pc.tearing added).Relies b t comparing) :
    ∃ call, (lifeOpOf t.vpt.size added).call (b.env t.datapoints) t.vpt = .ok call ∧
      (Pc.building call.block call.data).Relies b
        { t with vpt := { t.vpt with arena := call.arena } } comparing := by
  obtain ⟨hne, hfull, n, hlen, hintact, haccounts⟩ := h
  have hok (i : ℕ) : (b.env t.datapoints).ok i = true := rfl
  obtain ⟨call, hcall, hp, _⟩ := LifeOp.call_intact hok hintact (lifeOpOf t.vpt.size added)
  have hitems : indices n ++ (lifeOpOf t.vpt.size added).supplied = indices t.datapoints.length := by
    rw [hlen, hintact.size, length_indices]
    cases added with
    | none => exact List.append_nil _
    | some added => exact indices_append n added
  rw [hitems] at hp
  have hsettled : Settled (b.env t.datapoints).ok call.arena.requests [call.block]
      call.arena.freed := LifeOp.call_settled haccounts hcall
  exact ⟨call, hcall, hne, hfull, hp, hsettled⟩

theorem building_relies (hb : b.Fits) {block : ℕ} {data : List ℤ}
    (h : (Pc.building block data).Relies b t comparing) (hsize : t.datapoints.length < sizeT)
    (hin : t.BuildsInside b) :
    (data.all fun i => (element t.datapoints i).isSome) = true ∧
      ∃ vpt, BuildCall.finish (b.env t.datapoints) ⟨block, t.vpt.arena, data⟩ = .ok vpt ∧
        SharedTree.Sane b { t with vpt := vpt } := by
  obtain ⟨hne, hfull, hp, hsettled⟩ := h
  constructor
  · rw [List.all_eq_true]
    intro i hi
    obtain ⟨o, ho⟩ := element_of_mem hfull (hp.mem_iff.mp hi)
    rw [ho]
    rfl
  · let call : BuildCall ℤ D := ⟨block, t.vpt.arena, data⟩
    have hok (i : ℕ) : (b.env t.datapoints).ok i = true := rfl
    have hcall : call.data.Perm (indices t.datapoints.length) := hp
    obtain ⟨vpt, hfinish, hserves⟩ := finish_serves hok hb.env_bounded hb.env_comm hcall
      (by rwa [length_indices]) (hin _ _ hp) hsettled
    exact ⟨vpt, hfinish, hne, hfull, hserves⟩

/-- Each method, taken by itself, keeps what the others rely on. -/
theorem program_sound (hb : b.Fits) : Sound b.program BindingThread.share (SharedTree.Sane b)
    (fun t => t.datapoints.length < sizeT ∧ t.BuildsInside b) (BindingThread.Relies b)
    BindingThread.Unwritten where
  stable th t t' comparing hshare h := by
    obtain ⟨hreaders, hwriter⟩ := Lock.mk.inj hshare
    have hfree : th.pc.share = .free := by
      show (⟨th.pc.share.readers, th.pc.share.writer⟩ : Lock) = ⟨0, false⟩
      rw [hwriter, show th.pc.share.readers = 0 by omega]
    exact ⟨h.1, relies_of_free hfree h.2 t'⟩
  noticed th₁ th set th' t comparing hact h := by
    obtain ⟨q, rfl, _⟩ := program_post b hact
    exact ⟨h.1, relies_of_post h.2 q⟩
  acquire th mode th' t comparing hact h ht := by
    rcases program_acquire b hact with ⟨call, todo, pc, _, htodo, hasks, rfl⟩ |
      ⟨r, q, hpc, _, _, rfl⟩
    · have hcalls := h.1
      rw [htodo] at hcalls
      exact ⟨fun call' hcall' => hcalls call' (List.mem_cons_of_mem _ hcall'),
        hasks.relies (hcalls call List.mem_cons_self) ht⟩
    · have hrelies := h.2
      rw [hpc] at hrelies
      exact ⟨h.1, hrelies.1, hrelies.2, ht⟩
  release th mode th' t comparing hact h := by
    obtain ⟨hpc, rfl⟩ := program_release b hact
    refine ⟨⟨h.1, trivial⟩, ?_⟩
    rintro rfl
    have hrelies := h.2
    rwa [hpc] at hrelies
  read th look t comparing hact h := by
    obtain ⟨hcalls, hrelies⟩ := h
    rcases program_read b hact with ⟨call, todo, hpc, htodo, _, rfl⟩ | ⟨r, q, hpc, hr, rfl⟩ |
      ⟨r, q, hpc, rfl⟩ | ⟨r, q, scan, hpc, rfl⟩ | ⟨r, q, acc, seen, hpc, rfl⟩ | ⟨hpc, rfl⟩ |
      ⟨datapoint, hpc, rfl⟩
    · -- a call that is refused
      refine ⟨?_, fun f hf => by cases hf⟩
      rintro th' ⟨⟩
      rw [htodo] at hcalls
      exact ⟨fun call' hcall' => hcalls call' (List.mem_cons_of_mem _ hcall'), hrelies⟩
    · rw [hpc] at hrelies
      exact absurd hrelies.1.locked (by simp [hr])
    · refine ⟨?_, fun f hf => by cases hf⟩
      rintro th' ⟨⟩
      rw [hpc] at hrelies
      obtain ⟨hr, hsome, ht⟩ := hrelies
      obtain ⟨_, root, hrep, hitems, _⟩ := ht.root
      exact ⟨hcalls, hr, hsome, ht, follows_start hrep hitems.subset⟩
    · rw [hpc] at hrelies
      obtain ⟨hr, hsome, ht, hfollows⟩ := hrelies
      obtain ⟨next, hstep, hnext⟩ := search_goes_on ht hfollows hsome
      simp only [hstep]
      refine ⟨?_, fun f hf => by cases hf⟩
      rintro th' ⟨⟩
      cases next with
      | inl scan' => exact ⟨hcalls, hr, hsome, ht, hnext⟩
      | inr acc => exact ⟨hcalls, hr, ht, hnext⟩
    · rw [hpc] at hrelies
      by_cases hnone : r.locked = true ∧ (r.results acc).isEmpty = true
      · simp only [hnone, and_self, ↓reduceIte]
        refine ⟨?_, fun f hf => by cases hf⟩
        rintro th' ⟨⟩
        exact ⟨hcalls, trivial⟩
      · dsimp only
        rw [if_neg hnone]
        have hnn (hr : r = .nn) : ∀ x y, b.distFn x y < b.DIST_MAX := by
          have hadmitted := hrelies.1
          rw [hr] at hadmitted
          exact hadmitted.elim
        rcases results_of_ended hrelies.2.1 hrelies.2.2 hnn hnone with ⟨entries, hentries⟩ |
          ⟨max_dist, rfl, hfault⟩
        · rw [hentries, if_pos hrelies.1.locked]
          refine ⟨?_, fun f hf => by cases hf⟩
          rintro th' ⟨⟩
          exact ⟨hcalls, trivial⟩
        · rw [hfault]
          constructor
          · rintro th' ⟨⟩
          · rintro f ⟨⟩
            exact ⟨rfl, max_dist, q, acc, seen, hpc⟩
    · refine ⟨?_, fun f hf => by cases hf⟩
      rintro th' ⟨⟩
      exact ⟨hcalls, trivial⟩
    · rw [hpc] at hrelies
      exact hrelies.elim
  write th change t comparing hact h hP := by
    obtain ⟨hcalls, hrelies⟩ := h
    rcases program_write b hact with ⟨stored, hpc, rfl⟩ | ⟨datapoints, hpc, rfl⟩ |
      ⟨added, hpc, rfl⟩ | ⟨block, data, hpc, rfl⟩
    · rw [hpc] at hrelies
      exact hrelies.elim
    · refine ⟨by rw [BindingThread.share, hpc]; rfl, ?_, fun f hf => by cases hf⟩
      rintro t' th' ⟨⟩
      rw [hpc] at hrelies
      exact ⟨hcalls, appending_relies hrelies⟩
    · rw [hpc] at hrelies
      obtain ⟨call, hcall, hnext⟩ := tearing_relies hrelies
      simp only [hcall]
      refine ⟨by rw [BindingThread.share, hpc]; rfl, ?_, fun f hf => by cases hf⟩
      rintro t' th' ⟨⟩
      exact ⟨hcalls, hnext⟩
    · rw [hpc] at hrelies
      obtain ⟨hall, vpt, hfinish, ht⟩ := building_relies hb hrelies hP.1 hP.2
      simp only [hall, ↓reduceIte, hfinish]
      refine ⟨by rw [BindingThread.share, hpc]; rfl, ?_, fun f hf => by cases hf⟩
      rintro t' th' ⟨⟩
      exact ⟨hcalls, ht⟩
  post th set th' t comparing hact h := by
    obtain ⟨q, rfl, ⟨call, todo, pc, _, htodo, hposts, rfl⟩ | ⟨r, hpc, rfl⟩⟩ := program_post b hact
    · have hcalls := h.1
      rw [htodo] at hcalls
      exact ⟨fun call' hcall' => hcalls call' (List.mem_cons_of_mem _ hcall'),
        hposts.relies (hcalls call List.mem_cons_self)⟩
    · have hrelies := h.2
      rw [hpc] at hrelies
      exact ⟨h.1, hrelies.1, rfl, hrelies.2⟩

end Methods

section Interleavings

variable {ι : Type*} [Fintype ι] [DecidableEq ι] [LinearOrder D] [Zero D] [Add D] [Sub D]
  {b : Binding Obj D} {t : SharedTree Obj D} {calls : ι → List (BindingCall Obj D)}
  {s s' : System ι (SharedTree Obj D) (Option Obj) (BindingThread Obj D)} {i : ι}

omit [Fintype ι] [DecidableEq ι] [LinearOrder D] [Zero D] [Add D] [Sub D] in
theorem BindingCall.Guarded.not_pushes {call : BindingCall Obj D} (h : call.Guarded) :
    ¬ call.Pushes := by
  cases call with
  | add datapoint => exact h.elim
  | _ => exact id

/-- Threads that make calls of locked methods, on a sane tree and with fewer than 2^64
objects in all. No build leaves a list in its scans, in any of the interleavings. -/
structure Workload (b : Binding Obj D) (t : SharedTree Obj D)
    (calls : ι → List (BindingCall Obj D)) : Prop where
  fits : b.Fits
  sane : t.Sane b
  guarded : ∀ i, ∀ call ∈ calls i, call.Guarded
  small : t.datapoints.length+
    Multiset.card (∑ i, ((calls i).map BindingCall.additions).sum) < sizeT
  inside : ∀ s, Reaches b.program (launch t calls) s → s.guarded.BuildsInside b

theorem Workload.assumed (w : Workload b t calls) (h : Reaches b.program (launch t calls) s) :
    s.guarded.datapoints.length < sizeT ∧ s.guarded.BuildsInside b :=
  have hpush (i : ι) (call : BindingCall Obj D) (hcall : call ∈ calls i) : ¬ call.Pushes :=
    (w.guarded i call hcall).not_pushes
  ⟨lt_of_le_of_lt (array_length_le hpush h) w.small, w.inside s h⟩

theorem Workload.safe (w : Workload b t calls) (h : Reaches b.program (launch t calls) s) :
    Safe BindingThread.share (SharedTree.Sane b) (BindingThread.Relies b) s := by
  have hstart : Safe BindingThread.share (SharedTree.Sane b) (BindingThread.Relies b)
      (launch t calls) :=
    ⟨consistent_launch, fun _ => w.sane, fun i => ⟨w.guarded i, trivial⟩⟩
  exact safe_reaches (program_disciplined b) (program_sound w.fits) hstart
    (fun s' hs' => w.assumed hs') h

theorem guestTree_sane : guestTree.Sane guestBinding := by
  have hfits : guestBinding.Fits := ⟨coupleDist_comm, coupleDist_le, by decide⟩
  have hin : SplitsInside (guestBinding.env guestTree.datapoints) .empty (indices 6) :=
    splitsInside_of_short (by decide)
  have hok (i : ℕ) : (guestBinding.env guestTree.datapoints).ok i = true := rfl
  obtain ⟨vpt, hbuild, hserves⟩ := vptBuild_serves .empty (by decide) hok hfits.env_bounded
    hfits.env_comm hin settled_start
  have hvpt : guestTree.vpt = vpt := by
    have hbuild' : vptBuild (guestBinding.env ((couples 3).map some)) .empty
        ((List.range 6).map Nat.cast) = .ok vpt := hbuild
    simp only [guestTree, hbuild']
  refine ⟨by decide, fun o ho => ?_, ?_⟩
  · obtain ⟨g, _, rfl⟩ := List.mem_map.mp ho
    rfl
  rw [hvpt]
  exact hserves

theorem guestCalls_guarded (i : Fin 3) : ∀ call ∈ guestCalls i, call.Guarded := by
  intro call hcall
  match i with
  | 0 =>
    rcases List.mem_cons.mp hcall with rfl | hcall
    · trivial
    · rw [List.mem_singleton.mp hcall]
      trivial
  | 1 =>
    rcases List.mem_cons.mp hcall with rfl | hcall
    · trivial
    · rw [List.mem_singleton.mp hcall]
      trivial
  | 2 =>
    rcases List.mem_cons.mp hcall with rfl | hcall
    · trivial
    · rw [List.mem_singleton.mp hcall]
      trivial

/-- With few guests no list is ever cut. -/
theorem guests_inside {calls : ι → List (BindingCall Guest ℤ)}
    {s : System ι (SharedTree Guest ℤ) (Option Guest) (BindingThread Guest ℤ)}
    (hpush : ∀ i, ∀ call ∈ calls i, ¬ call.Pushes)
    (hfew : guestTree.datapoints.length+
      Multiset.card (∑ i, ((calls i).map BindingCall.additions).sum) < vptMaxListSize)
    (h : Reaches guestBinding.program (launch guestTree calls) s) :
    s.guarded.BuildsInside guestBinding := by
  intro m ys hys
  have hlen := array_length_le hpush h
  apply splitsInside_of_short
  rw [hys.length_eq, length_indices]
  exact lt_of_le_of_lt hlen hfew

theorem guests_workload {calls : ι → List (BindingCall Guest ℤ)}
    (hguarded : ∀ i, ∀ call ∈ calls i, call.Guarded)
    (hfew : guestTree.datapoints.length+
      Multiset.card (∑ i, ((calls i).map BindingCall.additions).sum) < vptMaxListSize) :
    Workload guestBinding guestTree calls where
  fits := ⟨coupleDist_comm, coupleDist_le, by decide⟩
  sane := guestTree_sane
  guarded := hguarded
  small := lt_trans hfew (by decide)
  inside _ h := guests_inside (fun i call hcall => (hguarded i call hcall).not_pushes) hfew h

theorem guestWorkload : Workload guestBinding guestTree guestCalls :=
  guests_workload guestCalls_guarded (by decide)

/-- The fourth couple is in, and two searches are under way. -/
def guestSchedule : List (Fin 3) :=
  List.replicate 5 1 ++ List.replicate 14 0 ++ List.replicate 6 2

omit [LinearOrder D] [Zero D] [Add D] [Sub D] in
/-- `VPT_teardown` gives up every chunk of the tree. -/
theorem vptTeardown_frees {α : Type*} {env : BuildEnv α D} {vpt : VPTree α D}
    {result : Option (ℕ × List α)} {m : Arena α D} (h : vptTeardown env vpt = .ok (result, m))
    {i : ℕ} (hi : i ∈ vpt.arena.chunks) : i ∈ m.freed := by
  have hdestroy (m' : Arena α D) (hchunks : m'.chunks = vpt.arena.chunks) :
      i ∈ m'.destroy.freed := by
    rw [destroy_eq, hchunks]
    exact List.mem_append_left _ (List.mem_reverse.mpr hi)
  unfold vptTeardown Arena.malloc at h
  by_cases hr : env.ok vpt.arena.requests = true
  · simp only [hr, ↓reduceIte] at h
    split at h
    · cases h
    · split at h
      · cases h
      · cases h
        exact hdestroy _ rfl
  · simp only [hr, Bool.false_eq_true, ↓reduceIte] at h
    cases h
    exact hdestroy _ rfl

omit [LinearOrder D] [Zero D] [Add D] [Sub D] in
theorem rebuildCall_frees {α : Type*} {env : BuildEnv α D} {vpt : VPTree α D} {call : BuildCall α D}
    (h : rebuildCall env vpt = .ok call) {i : ℕ} (hi : i ∈ vpt.arena.chunks) :
    i ∈ call.arena.freed := by
  obtain ⟨⟨result, m⟩, hteardown, h⟩ := (except_bind_eq_ok _ _ _).mp h
  have hfreed := vptTeardown_frees hteardown hi
  cases result with
  | none => cases h
  | some result =>
    dsimp only at h
    split at h
    · cases h
    · cases h
      exact hfreed

omit [Fintype ι] in
/-- What the missing lock of `nn` comes to. For every tree and every query point there
is an interleaving with a rebuild in which `nn` follows a pointer into freed memory. -/
theorem nn_reads_freed (b : Binding Obj D) (t : SharedTree Obj D) (xs : List ℤ)
    (calls : ι → List (BindingCall Obj D)) (i j : ι) (q : Obj) (todo todo' : List (BindingCall Obj D))
    (ht : Intact t.vpt xs) (hij : i ≠ j) (hi : calls i = .query .nn q :: todo)
    (hj : calls j = .rebuild :: todo') :
    ∃ s, Reaches b.program (launch t calls) s ∧
      s.step b.program i = .error (.fault (.memory .useAfterFree)) := by
  have hok (n : ℕ) : (b.env t.datapoints).ok n = true := rfl
  obtain ⟨call, hcall, _⟩ := rebuildCall_intact hok ht
  -- `nn` has come as far as its loop, and the rebuild as far as the teardown.
  let nn (pc : Pc Obj D) : BindingThread Obj D := ⟨todo, 0, [], pc⟩
  let rebuild (pc : Pc Obj D) : BindingThread Obj D := ⟨todo', 0, [], pc⟩
  let s₀ := launch t calls
  let s₁ := { s₀ with loose := some q }.goto i (nn (.locking .nn q))
  let s₂ := s₁.goto i (nn (.starting .nn q))
  let s₃ := s₂.goto i (nn (.searching .nn q (b.startScan .nn t.vpt.root)))
  let s₄ := { s₃ with lock := ⟨0, true⟩ }.goto j (rebuild (.tearing none))
  let s₅ := { s₄ with guarded := { t with vpt := { t.vpt with arena := call.arena } } }.goto j
    (rebuild (.building call.block call.data))
  have hready : b.program (s₀.thread i) = .post (fun _ => some q) (nn (.locking .nn q)) := by
    show b.program ⟨calls i, 0, [], .ready⟩ = _
    rw [hi]
    rfl
  have hlocking : b.program (s₁.thread i) = .read fun _ _ => .ok (nn (.starting .nn q)) := by
    rw [goto_self]
    rfl
  have hstarting : b.program (s₂.thread i) = .read fun t _ =>
      .ok (nn (.searching .nn q (b.startScan .nn t.vpt.root))) := by
    rw [goto_self]
    rfl
  have hother : s₃.thread j = s₀.thread j := by
    rw [goto_ne _ hij.symm, goto_ne _ hij.symm, goto_ne _ hij.symm]
  have hrebuild : b.program (s₃.thread j) = .acquire .write (rebuild (.tearing none)) := by
    rw [hother]
    show b.program ⟨calls j, 0, [], .ready⟩ = _
    rw [hj]
    rfl
  have hteardown : ∃ change, b.program (s₄.thread j) = .write change ∧ change s₄.guarded =
      .ok ({ t with vpt := { t.vpt with arena := call.arena } },
        rebuild (.building call.block call.data)) := by
    rw [goto_self]
    refine ⟨_, rfl, ?_⟩
    show (((rebuildCall (b.env t.datapoints) t.vpt).mapError _).map _) = _
    rw [hcall]
    rfl
  obtain ⟨change, htearing, hchange⟩ := hteardown
  refine ⟨s₅, ?_, ?_⟩
  · have h₁ : s₀.step b.program i = .ok s₁ := step_post hready
    have h₂ : s₁.step b.program i = .ok s₂ := step_read hlocking rfl
    have h₃ : s₂.step b.program i = .ok s₃ := step_read hstarting rfl
    have h₄ : s₃.step b.program j = .ok s₄ := step_acquire hrebuild rfl
    have h₅ : s₄.step b.program j = .ok s₅ := step_write htearing hchange
    exact (((((Relation.ReflTransGen.refl.tail ⟨i, h₁⟩).tail ⟨i, h₂⟩).tail ⟨i, h₃⟩).tail
      ⟨j, h₄⟩).tail ⟨j, h₅⟩)
  · -- The root was read before the teardown, and its chunk is gone.
    obtain ⟨root, hrep, _⟩ := ht.reachable
    have hroot : t.vpt.root ∈ t.vpt.arena.nodeWalk := by
      cases root with
      | branch v r left right => exact hrep.1
      | pointlist ys => exact hrep.1
    have hfreed : t.vpt.root.chunk ∈ call.arena.freed :=
      rebuildCall_frees hcall (List.mem_append_left _ (chunk_mem_of_walk hroot))
    have hthread : s₅.thread i = nn (.searching .nn q (b.startScan .nn t.vpt.root)) := by
      rw [goto_ne _ hij, goto_ne _ hij, goto_self]
    have hload : call.arena.loadNode (some t.vpt.root) = .error .useAfterFree := if_pos hfreed
    have hstep : (b.startScan .nn t.vpt.root).step b .nn s₅.guarded s₅.loose =
        .error (.memory .useAfterFree) := by
      show ((nodeItems call.arena (some t.vpt.root)).mapError _).map _ = _
      rw [nodeItems, hload]
      rfl
    have hsearching : ∃ look, b.program (s₅.thread i) = .read look ∧
        look s₅.guarded s₅.loose = .error (.memory .useAfterFree) := by
      rw [hthread]
      refine ⟨_, rfl, ?_⟩
      show ((b.startScan .nn t.vpt.root).step b .nn s₅.guarded s₅.loose).map _ = _
      rw [hstep]
      rfl
    obtain ⟨look, hact, hlook⟩ := hsearching
    exact step_read_error hact hlook

/-- A guest looks for the nearest one while the tree is rebuilt. -/
def crossing : Fin 2 → List (BindingCall Guest ℤ)
  | 0 => [.query .nn (some (1, true))]
  | 1 => [.rebuild]

theorem nn_reads_freed_guests :
    ∃ s, Reaches guestBinding.program (launch guestTree crossing) s ∧
      s.step guestBinding.program 0 = .error (.fault (.memory .useAfterFree)) :=
  nn_reads_freed guestBinding guestTree (indices 6) crossing 0 1 (some (1, true)) [] []
    guestTree_sane.serves.intact (by decide) rfl rfl

end Interleavings

end VantagePoint
