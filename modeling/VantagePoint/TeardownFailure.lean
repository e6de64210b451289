import VantagePoint.BuildFailure
import VantagePoint.MemorySearch
import VantagePoint.TreeLife

/-! `VPT_teardown` when there is no memory for its result. The documentation says
that the tree will not be destroyed and remains usable; the code calls
`VPT_destroy`. -/
namespace VantagePoint
open WhileLoop

universe u v

variable {α : Type u} {D : Type v}

/-- What the documentation promises of a failed teardown that found the tree `t`
and left `t'`: everything is as it was and live, the queries made afterwards get
the answers they would have got, and the final `VPT_destroy` releases each chunk
once. -/
structure StillUsable [LinearOrder D] [Add D] [Sub D] (dist_fn : α → α → D) (DIST_MAX : D)
    (t t' : VPTree α D) (queries : List (Query α D)) : Prop where
  root : t'.root = t.root
  size : t'.size = t.size
  nodeAllocs : t'.arena.nodeAllocs = t.arena.nodeAllocs
  listAllocs : t'.arena.listAllocs = t.arena.listAllocs
  nodes : ∀ p ∈ t.arena.nodeWalk, t'.arena.nodes p = t.arena.nodes p
  items : ∀ l, t.arena.HasCell l → t'.arena.lists l = t.arena.lists l
  live : t'.arena.Live
  answers : ∀ query ∈ queries, ∃ fuel answer,
    t.query dist_fn DIST_MAX fuel query = .ok (some answer) ∧
      t'.query dist_fn DIST_MAX fuel query = .ok (some answer)
  released : ∀ i ∈ t.arena.chunks, t'.arena.destroy.freed.count i = 1

section Destroy

theorem foldl_free (chain : List Chunk) (m : Arena α D) :
    chain.foldl (fun m c => m.free c.id) m =
      { m with freed := (chain.map Chunk.id).reverse ++ m.freed } := by
  induction chain generalizing m with
  | nil => rfl
  | cons c chain ih =>
    rw [List.foldl_cons, ih, List.map_cons, List.reverse_cons, List.append_assoc]
    rfl

/-- `VPT_destroy` releases the chunks of both chains and changes nothing else. -/
theorem destroy_eq (m : Arena α D) :
    m.destroy = { m with freed := m.chunks.reverse ++ m.freed } := by
  rw [Arena.destroy, foldl_free, foldl_free, Arena.chunks, List.reverse_append,
    List.append_assoc]

theorem vptTeardown_null {env : BuildEnv α D} {t : VPTree α D} {m : Arena α D}
    (h : vptTeardown env t = .ok (none, m)) :
    m = { t.arena with requests := t.arena.requests+1 }.destroy := by
  unfold vptTeardown Arena.malloc at h
  by_cases hr : env.ok t.arena.requests = true
  -- With memory for the result it does not return `NULL`.
  · simp only [hr, ↓reduceIte] at h
    split at h
    · cases h
    · split at h
      · cases h
      · cases h
  · simp only [hr, Bool.false_eq_true, ↓reduceIte] at h
    cases h
    rfl

/-- The callers return `false` in turn. -/
theorem rebuild_of_null [LinearOrder D] {env : BuildEnv α D} {t : VPTree α D} {m : Arena α D}
    (h : vptTeardown env t = .ok (none, m)) (toAdd : List α) :
    vptRebuild env t = .error .outOfMemory ∧ vptAddRebuild env t toAdd = .error .outOfMemory := by
  have hcall : rebuildCall env t = .error .outOfMemory := by
    rw [rebuildCall, h]
    rfl
  rw [vptRebuild, vptAddRebuild, addRebuildCall, hcall]
  exact ⟨rfl, rfl⟩

variable {env : BuildEnv α D} {t : VPTree α D} {m : Arena α D}

/-- After a failed teardown no chunk of the tree is left. -/
theorem freed_of_null (h : vptTeardown env t = .ok (none, m)) {i : ℕ}
    (hi : i ∈ t.arena.chunks) : i ∈ m.chunks ∧ i ∈ m.freed := by
  rw [vptTeardown_null h, destroy_eq]
  exact ⟨hi, List.mem_append_left _ (List.mem_reverse.mpr hi)⟩

/-- `VPT_destroy` releases every chunk once more. -/
theorem destroy_of_null (h : vptTeardown env t = .ok (none, m)) {i : ℕ}
    (hi : i ∈ t.arena.chunks) : 1 < m.destroy.freed.count i := by
  obtain ⟨hmem, hfreed⟩ := freed_of_null h hi
  -- Once by the failed teardown, once by the caller who believes the tree is alive.
  have hagain : 0 < m.chunks.reverse.count i :=
    List.count_pos_iff.mpr (List.mem_reverse.mpr hmem)
  have honce : 0 < m.freed.count i := List.count_pos_iff.mpr hfreed
  rw [destroy_eq, List.count_append]
  omega

variable [LinearOrder D] [Add D] [Sub D]

theorem not_usable_of_null (h : vptTeardown env t = .ok (none, m)) {i : ℕ}
    (hi : i ∈ t.arena.chunks) (dist_fn : α → α → D) (DIST_MAX : D) (queries : List (Query α D)) :
    ¬ StillUsable dist_fn DIST_MAX t { t with arena := m } queries := by
  intro husable
  obtain ⟨hmem, hfreed⟩ := freed_of_null h hi
  exact husable.live i hmem hfreed

/-- `VPT_nn` reads the root out of a chunk that is gone. -/
theorem nn_of_null (h : vptTeardown env t = .ok (none, m)) (hroot : t.root.chunk ∈ t.arena.chunks)
    (dist_fn : α → α → D) (DIST_MAX : D) (fuel : ℕ) (q : α) :
    VPTree.query dist_fn DIST_MAX { t with arena := m } (fuel+1) (.nn q) =
      .error .useAfterFree :=
  search_freed (freed_of_null h hroot).2 (nnSearch dist_fn q) dist_fn q fuel _ _ _

end Destroy

/-- What calls of the allocator do to the chunks on the way from `m` to `m'`: node
chunks stay, chunks and freed blocks that are new were requested on the way. -/
structure Arena.Grows (m m' : Arena α D) : Prop where
  requests : m.requests ≤ m'.requests
  nodes : ∀ i ∈ m.nodeAllocs.map Chunk.id, i ∈ m'.nodeAllocs.map Chunk.id
  fresh : ∀ i ∈ m'.chunks, i ∈ m.chunks ∨ m.requests ≤ i ∧ i < m'.requests
  freed : ∀ i ∈ m'.freed, i ∈ m.freed ∨ m.requests ≤ i ∧ i < m'.requests ∧ i ∉ m'.chunks
  nodup : m.chunks.Nodup → (∀ i ∈ m.chunks, i < m.requests) → m'.chunks.Nodup

/-- The chunks of a tree: different blocks that were allocated and never freed. -/
structure Arena.Owned (m : Arena α D) : Prop where
  nodup : m.chunks.Nodup
  lt : ∀ i ∈ m.chunks, i < m.requests
  live : m.Live
  freed_lt : ∀ i ∈ m.freed, i < m.requests

section Grows

variable {m m' m'' : Arena α D}

theorem Arena.Grows.trans (h : m.Grows m') (h' : m'.Grows m'') : m.Grows m'' where
  requests := h.requests.trans h'.requests
  nodes i hi := h'.nodes i (h.nodes i hi)
  fresh i hi := by
    have hle := h.requests
    have hle' := h'.requests
    rcases h'.fresh i hi with hold | hnew
    · rcases h.fresh i hold with hold | hnew
      · exact Or.inl hold
      · right
        omega
    · right
      omega
  freed i hi := by
    have hle := h.requests
    have hle' := h'.requests
    rcases h'.freed i hi with hold | ⟨hge, hlt, hnot⟩
    · rcases h.freed i hold with hold | ⟨hge, hlt, hnot⟩
      · exact Or.inl hold
      -- A block freed on the first part stays freed: later chunks have later numbers.
      · refine Or.inr ⟨hge, by omega, ?_⟩
        intro hmem
        rcases h'.fresh i hmem with hchunk | hnew
        · exact hnot hchunk
        · omega
    · exact Or.inr ⟨by omega, hlt, hnot⟩
  nodup hn hlt := by
    apply h'.nodup (h.nodup hn hlt)
    intro i hi
    have hle := h.requests
    rcases h.fresh i hi with hold | hnew
    · have hbound := hlt i hold
      omega
    · exact hnew.2

theorem Arena.Grows.owned (h : m.Grows m') (hm : m.Owned) : m'.Owned where
  nodup := h.nodup hm.nodup hm.lt
  lt i hi := by
    have hle := h.requests
    rcases h.fresh i hi with hold | hnew
    · have hbound := hm.lt i hold
      omega
    · exact hnew.2
  -- Blocks freed before were requested before, and those freed on the way are no chunks.
  live i hi hfreed := by
    rcases h.freed i hfreed with hold | ⟨_, _, hnot⟩
    · have hbound := hm.freed_lt i hold
      rcases h.fresh i hi with hchunk | hnew
      · exact hm.live i hchunk hold
      · omega
    · exact hnot hi
  freed_lt i hi := by
    have hle := h.requests
    rcases h.freed i hi with hold | hnew
    · have hbound := hm.freed_lt i hold
      omega
    · exact hnew.2.1

/-- The chunks are the same blocks, whatever else has changed. -/
theorem Arena.Grows.same (hn : m'.nodeAllocs.map Chunk.id = m.nodeAllocs.map Chunk.id)
    (hl : m'.listAllocs.map Chunk.id = m.listAllocs.map Chunk.id)
    (hr : m.requests ≤ m'.requests) (hf : m'.freed = m.freed) : m.Grows m' := by
  have hchunks : m'.chunks = m.chunks := by rw [Arena.chunks, hn, hl, Arena.chunks]
  refine ⟨hr, ?_, ?_, ?_, ?_⟩
  · intro i hi
    rwa [hn]
  · intro i hi
    rw [hchunks] at hi
    exact Or.inl hi
  · intro i hi
    rw [hf] at hi
    exact Or.inl hi
  · intro hnodup _
    rwa [hchunks]

/-- One more chunk, the block just requested. -/
theorem Arena.Grows.push (hchunks : m'.chunks.Perm (m.requests :: m.chunks))
    (hn : ∀ i ∈ m.nodeAllocs.map Chunk.id, i ∈ m'.nodeAllocs.map Chunk.id)
    (hr : m'.requests = m.requests+1) (hf : m'.freed = m.freed) : m.Grows m' := by
  refine ⟨by omega, hn, ?_, ?_, ?_⟩
  · intro i hi
    rcases List.mem_cons.mp (hchunks.mem_iff.mp hi) with rfl | hold
    · right
      omega
    · exact Or.inl hold
  · intro i hi
    rw [hf] at hi
    exact Or.inl hi
  · intro hnodup hlt
    apply hchunks.nodup_iff.mpr
    apply List.nodup_cons.mpr ⟨_, hnodup⟩
    intro hmem
    exact lt_irrefl _ (hlt _ hmem)

/-- A block that is no chunk and was requested on the way is freed. -/
theorem Arena.Grows.free (h : m.Grows m') {id : ℕ} (hge : m.requests ≤ id)
    (hlt : id < m'.requests) (hnot : id ∉ m'.chunks) : m.Grows (m'.free id) where
  requests := h.requests
  nodes := h.nodes
  fresh := h.fresh
  freed i hi := by
    rcases List.mem_cons.mp hi with rfl | hi
    · exact Or.inr ⟨hge, hlt, hnot⟩
    · exact h.freed i hi
  nodup := h.nodup

theorem takeNode_grows {p : NodePtr} (h : m.takeNode = (some p, m')) :
    m.Grows m' ∧ p.chunk ∈ m'.nodeAllocs.map Chunk.id := by
  cases hchain : m.nodeAllocs with
  | nil =>
    rw [Arena.takeNode, hchain] at h
    cases h
  | cons front next =>
    rw [Arena.takeNode, hchain] at h
    cases h
    refine ⟨.same ?_ rfl le_rfl rfl, List.mem_cons_self⟩
    rw [hchain]
    rfl

theorem allocVPNode_grows {ok : ℕ → Bool} {bufs : BufSizes} {p : NodePtr}
    (h : m.allocVPNode ok bufs = (some p, m')) :
    m.Grows m' ∧ p.chunk ∈ m'.nodeAllocs.map Chunk.id := by
  cases hchain : m.nodeAllocs with
  | nil =>
    rw [Arena.allocVPNode, hchain] at h
    cases h
  | cons front next =>
    rw [allocVPNode_eq hchain] at h
    by_cases hfull : front.size = bufs.nodeallocBufSize-1
    · rw [if_pos hfull] at h
      by_cases hr : ok m.requests = true
      · rw [if_pos hr] at h
        have hpush : m.Grows { m with
            nodeAllocs := ⟨m.requests, 0⟩ :: m.nodeAllocs
            requests := m.requests+1 } :=
          .push (List.Perm.refl _) (fun i hi => List.mem_cons_of_mem _ hi) rfl rfl
        obtain ⟨hgrows, hp⟩ := takeNode_grows h
        exact ⟨hpush.trans hgrows, hp⟩
      · rw [if_neg hr] at h
        cases h
    · rw [if_neg hfull] at h
      exact takeNode_grows h

theorem takeList_grows (m : Arena α D) (n : ℕ) : m.Grows (m.takeList n).2 := by
  cases hchain : m.listAllocs with
  | nil =>
    rw [Arena.takeList, hchain]
    exact .same rfl rfl le_rfl rfl
  | cons front next =>
    rw [Arena.takeList, hchain]
    refine .same rfl ?_ le_rfl rfl
    rw [hchain]
    rfl

theorem allocVPList_grows (ok : ℕ → Bool) (bufs : BufSizes) (m : Arena α D) (n : ℕ) :
    m.Grows (m.allocVPList ok bufs n).2 := by
  cases hchain : m.listAllocs with
  | nil =>
    rw [Arena.allocVPList, hchain]
    exact .same rfl rfl le_rfl rfl
  | cons front next =>
    rw [allocVPList_eq hchain]
    by_cases hfull : front.size+n ≥ bufs.listallocBufSize-1
    · rw [if_pos hfull]
      by_cases hr : ok m.requests = true
      · rw [if_pos hr]
        have hpush : m.Grows { m with
            listAllocs := ⟨m.requests, 0⟩ :: m.listAllocs
            requests := m.requests+1 } :=
          .push List.perm_middle (fun _ hi => hi) rfl rfl
        exact hpush.trans (takeList_grows _ n)
      · rw [if_neg hr]
        exact .same rfl rfl (Nat.le_succ _) rfl
    · rw [if_neg hfull]
      exact takeList_grows m n

theorem writeNode_grows (m : Arena α D) (p : NodePtr) (cell : VPNodeCell α D) :
    m.Grows (m.writeNode p cell) :=
  .same rfl rfl le_rfl rfl

theorem setChild_grows (m : Arena α D) (side : Side) (p c : NodePtr) :
    m.Grows (m.setChild side p c) := by
  unfold Arena.setChild
  split
  · exact .same rfl rfl le_rfl rfl
  · exact .same rfl rfl le_rfl rfl
  · exact .same rfl rfl le_rfl rfl

theorem copyItems_grows {items : Option ListPtr} {xs : List α} (h : m.copyItems items xs = .ok m') :
    m.Grows m' := by
  unfold Arena.copyItems at h
  split at h
  · cases h
    exact .same rfl rfl le_rfl rfl
  · cases h
    exact .same rfl rfl le_rfl rfl
  · cases h

end Grows

section Build

variable [LinearOrder D] {env : BuildEnv α D} {arena : Arena α D} {data : List α}
  {s s' : BuildState α D} {t : VPTree α D}

theorem buildBody_grows (h : buildBody env s = .ok s') : s.arena.Grows s'.arena := by
  unfold buildBody at h
  split at h
  · cases h
    exact .same rfl rfl le_rfl rfl
  · rename_i side popped rest hpop
    rw [← (work_of_pop hpop).2.1]
    split at h
    · obtain ⟨⟨newnode, m₁⟩, hnode, h⟩ := (except_bind_eq_ok _ _ _).mp h
      obtain ⟨hgrows, _⟩ := allocVPNode_grows (orFail_eq_ok.mp hnode)
      have hlist := allocVPList_grows env.ok env.bufs m₁ popped.numChildren
      dsimp only at h
      split at h
      · cases h
      · split at h
        · cases h
        -- The list may be denied here: then it is `NULL`, and only an empty copy succeeds.
        · obtain ⟨m₂, hcopy, h⟩ := (except_bind_eq_ok _ _ _).mp h
          cases h
          have hwrite := (writeNode_grows _ newnode _).trans (copyItems_grows hcopy)
          have hlink := setChild_grows m₂ side popped.parent newnode
          exact hgrows.trans (hlist.trans (hwrite.trans hlink))
    · obtain ⟨⟨newnode, m₁⟩, hnode, h⟩ := (except_bind_eq_ok _ _ _).mp h
      obtain ⟨hgrows, _⟩ := allocVPNode_grows (orFail_eq_ok.mp hnode)
      obtain ⟨_, _, h⟩ := (except_bind_eq_ok _ _ _).mp h
      obtain ⟨_, _, h⟩ := (except_bind_eq_ok _ _ _).mp h
      cases h
      exact hgrows.trans ((writeNode_grows m₁ newnode _).trans
        (setChild_grows _ side popped.parent newnode))

theorem buildLoop_grows {s₀ : BuildState α D} (hs : (buildLoop env).Reaches s₀ s) :
    s₀.arena.Grows s.arena := by
  apply reaches_invariant (buildLoop env) (fun t => s₀.arena.Grows t.arena) _ s₀ s
    (.same rfl rfl le_rfl rfl) hs
  intro t t' ht hstep
  exact ht.trans (buildBody_grows hstep.2)

omit [LinearOrder D] in
theorem initialArena_grows (arena : Arena α D) (n : ℕ) :
    (initialArena arena 0).Grows (initialArena arena n) :=
  .same rfl rfl (Nat.le_add_right _ _) rfl

/-- Whatever requests fail on the way: a build that returns `true` has a root in
one of its own chunks, and has freed nothing but its two buffers. -/
theorem vptBuild_grows (h : vptBuild env arena data = .ok t) :
    (initialArena arena 0).Grows t.arena ∧ t.root.chunk ∈ t.arena.nodeAllocs.map Chunk.id := by
  obtain ⟨m, hinit, h⟩ := (except_bind_eq_ok _ _ _).mp h
  obtain rfl := initAllocator_eq_ok hinit
  by_cases hsmall : data.length < vptMaxListSize
  · rw [if_pos hsmall] at h
    obtain ⟨⟨root, m₁⟩, hnode, h⟩ := (except_bind_eq_ok _ _ _).mp h
    obtain ⟨⟨items, m₂⟩, hlist, h⟩ := (except_bind_eq_ok _ _ _).mp h
    cases h
    obtain ⟨hgrows, hroot⟩ := allocVPNode_grows (orFail_eq_ok.mp hnode)
    have hgrows' := allocVPList_grows env.ok env.bufs m₁ vptMaxListSize
    rw [orFail_eq_ok.mp hlist] at hgrows'
    exact ⟨hgrows.trans (hgrows'.trans (.same rfl rfl le_rfl rfl)), hgrows'.nodes _ hroot⟩
  · rw [if_neg hsmall] at h
    cases data with
    | nil => exact absurd (by decide : 0 < vptMaxListSize) hsmall
    | cons v xs =>
      obtain ⟨r, hr, h⟩ := (except_bind_eq_ok _ _ _).mp h
      obtain ⟨hr', _⟩ := (rootSplit_granted env _ (List.cons_ne_nil v xs)).ok hr
      obtain rfl := Except.ok.inj ((rootSplit_ok env.granted_ok v xs).symm.trans hr')
      obtain ⟨⟨root, s₀⟩, hs₀, h⟩ := (except_bind_eq_ok _ _ _).mp h
      obtain ⟨_, _, hs₀⟩ := (except_bind_eq_ok _ _ _).mp hs₀
      obtain ⟨⟨root', m₁⟩, hnode, hs₀⟩ := (except_bind_eq_ok _ _ _).mp hs₀
      cases hs₀
      obtain ⟨hgrows, hroot⟩ := allocVPNode_grows (orFail_eq_ok.mp hnode)
      obtain ⟨s, hrun, h⟩ := (except_bind_eq_ok _ _ _).mp h
      cases h
      have hloop := (writeNode_grows m₁ root _).trans (buildLoop_grows (run_reaches _ _ _ _ hrun))
      have hall : (initialArena arena 2).Grows s.arena := hgrows.trans hloop
      -- The two buffers were requested after the first chunks and before all others.
      have hother (id : ℕ) (hge : arena.requests+2 ≤ id) (hlt : id < arena.requests+4) :
          id ∉ s.arena.chunks := by
        intro hmem
        rcases hall.fresh id hmem with hold | hnew
        · have hfirst : id ∈ [arena.requests, arena.requests+1] := hold
          simp only [List.mem_cons, List.not_mem_nil, or_false] at hfirst
          omega
        · have hbound : arena.requests+2+2 ≤ id := hnew.1
          omega
      have hbound : arena.requests+2+2 ≤ s.arena.requests := hall.requests
      have hstart : (initialArena arena 0).Grows s.arena := (initialArena_grows arena 2).trans hall
      have hscratch : (initialArena arena 0).Grows (s.arena.free (arena.requests+3)) := by
        apply hstart.free _ _ (hother _ (by omega) (by omega))
        · exact Nat.le_succ _
        · omega
      have hbuffer : (initialArena arena 0).Grows
          ((s.arena.free (arena.requests+3)).free (arena.requests+2)) := by
        apply hscratch.free le_rfl _ (hother (arena.requests+2) le_rfl (by omega))
        change arena.requests+2 < s.arena.requests
        omega
      exact ⟨hbuffer, hloop.nodes _ hroot⟩

omit [LinearOrder D] in
theorem initialArena_owned (hfreed : ∀ i ∈ arena.freed, i < arena.requests) :
    (initialArena arena 0).Owned := by
  have hchunks : (initialArena arena 0).chunks = [arena.requests, arena.requests+1] := rfl
  have hrequests : (initialArena arena 0).requests = arena.requests+2 := rfl
  have hmem (i : ℕ) (hi : i ∈ (initialArena arena 0).chunks) :
      i = arena.requests ∨ i = arena.requests+1 := by
    rw [hchunks] at hi
    simpa using hi
  refine ⟨?_, ?_, ?_, ?_⟩
  · rw [hchunks]
    simp
  · intro i hi
    have hcases := hmem i hi
    omega
  · intro i hi hold
    have hcases := hmem i hi
    have hlt : i < arena.requests := hfreed i hold
    omega
  · intro i hold
    have hlt : i < arena.requests := hfreed i hold
    omega

/-- The failed request by itself would do no harm: leaving the rest of the
function out, the tree is usable, with the answers of the tree it was built as. -/
theorem usable_of_request [Add D] [Sub D] (hsize : data.length < sizeT)
    (hok : ∀ i, env.ok i = true) (hbig : env.Bounded) (hin : SplitsInside env arena data)
    (hfreed : ∀ i ∈ arena.freed, i < arena.requests) (h : vptBuild env arena data = .ok t)
    (DIST_MAX : D) (queries : List (Query α D)) :
    StillUsable env.distFn DIST_MAX t
      { t with arena := { t.arena with requests := t.arena.requests+1 } } queries := by
  obtain ⟨t', h', hbuilt⟩ := vptBuild_built arena hsize hok hbig hin
  obtain rfl : t = t' := Except.ok.inj (h.symm.trans h')
  have howned : t.arena.Owned := (vptBuild_grows h).1.owned (initialArena_owned hfreed)
  let m : Arena α D := { t.arena with requests := t.arena.requests+1 }
  -- The request counts up, and nothing else of the memory changes.
  have hkeeps : t.arena.Keeps m := ⟨fun _ hp => ⟨hp, rfl⟩, fun _ hl => ⟨hl, rfl⟩⟩
  refine ⟨rfl, rfl, rfl, rfl, fun _ _ => rfl, fun _ _ => rfl, howned.live, ?_, ?_⟩
  · intro query _
    exact ⟨_, _, query_represents env.distFn DIST_MAX howned.live hbuilt.represents query,
      query_represents env.distFn DIST_MAX (t := { t with arena := m }) howned.live
        (hbuilt.represents.keeps hkeeps) query⟩
  · intro i hi
    have hfree : t.arena.freed.count i = 0 := List.count_eq_zero.mpr (howned.live i hi)
    have hdestroy : m.destroy.freed = t.arena.chunks.reverse ++ t.arena.freed := by
      rw [destroy_eq]
      rfl
    dsimp only
    rw [hdestroy, List.count_append, hfree, List.count_reverse,
      List.count_eq_one_of_mem howned.nodup hi]

/-- For every tree that was built and every query made afterwards, a teardown that
returns `NULL` breaks its promise: the tree is not usable, since all its chunks
are gone, a `VPT_nn` reads freed memory, and `VPT_destroy` frees every chunk once
more. -/
theorem vptTeardown_not_usable [Add D] [Sub D] (env : BuildEnv α D) (arena : Arena α D)
    (data : List α) (t : VPTree α D) (m : Arena α D) (hbuild : vptBuild env arena data = .ok t)
    (hnull : vptTeardown env t = .ok (none, m)) (DIST_MAX : D) (queries : List (Query α D)) :
    ¬ StillUsable env.distFn DIST_MAX t { t with arena := m } queries ∧
      (∀ fuel q, VPTree.query env.distFn DIST_MAX { t with arena := m } (fuel+1) (.nn q) =
        .error .useAfterFree) ∧
      ∀ i ∈ t.arena.chunks, 1 < m.destroy.freed.count i := by
  have hroot : t.root.chunk ∈ t.arena.chunks := List.mem_append_left _ (vptBuild_grows hbuild).2
  refine ⟨not_usable_of_null hnull hroot _ _ _, ?_, ?_⟩
  · intro fuel q
    exact nn_of_null hnull hroot _ _ fuel q
  · intro i hi
    exact destroy_of_null hnull hi

/-- The third request fails: the first two are for the chunks. -/
def thirdFails : BuildEnv ℤ ℤ := ⟨fun x y => |x-y|, ⟨0, 100⟩, fun i => decide (i ≠ 2), bufSizes⟩

/-- The teardown of a tree of two items. -/
theorem vptTeardown_not_usable_pair : ∃ t m, vptBuild thirdFails .empty [3, 5] = .ok t ∧
    vptTeardown thirdFails t = .ok (none, m) ∧
    ¬ StillUsable thirdFails.distFn 100 t { t with arena := m } [.nn 4] :=
  ⟨_, _, rfl, rfl, (vptTeardown_not_usable thirdFails .empty [3, 5] _ _ rfl rfl 100 [.nn 4]).1⟩

/-- The teardown of a tree of one item fails, and a query for that item reads freed
memory. -/
theorem vptTeardown_single : ∃ t m, vptBuild thirdFails .empty [3] = .ok t ∧
    vptTeardown thirdFails t = .ok (none, m) ∧
    VPTree.query thirdFails.distFn 100 { t with arena := m } 1 (.nn 3) = .error .useAfterFree ∧
    ¬ StillUsable thirdFails.distFn 100 t { t with arena := m } [.nn 3] := by
  have hfail : ∃ t m, vptBuild thirdFails .empty [3] = .ok t ∧
      vptTeardown thirdFails t = .ok (none, m) ∧ t.root.chunk ∈ t.arena.chunks :=
    ⟨_, _, rfl, rfl, List.mem_cons_self⟩
  obtain ⟨t, m, hbuild, hnull, hroot⟩ := hfail
  exact ⟨t, m, hbuild, hnull, nn_of_null hnull hroot _ _ 0 3,
    not_usable_of_null hnull hroot _ _ _⟩

end Build

end VantagePoint
