import VantagePoint.SplitScan

/-! One pass through the main loop of `VPT_build`, when memory is found and the
split stays inside its entries. Frames are ranges of the one build buffer, and
the frames on both stacks, in the order in which they are going to be taken, lie
in it from left to right. -/
namespace VantagePoint
open WhileLoop

universe u v

variable {α : Type u} {D : Type v}

section Memory

variable {m m' : Arena α D}

theorem Arena.Chained.congr (h : m.Chained) (hn : m'.nodeAllocs = m.nodeAllocs)
    (hl : m'.listAllocs = m.listAllocs) (hr : m'.requests = m.requests) : m'.Chained where
  nodeIds := by rw [hn]; exact h.nodeIds
  nodeIds_lt := by rw [hn, hr]; exact h.nodeIds_lt
  nodes_ne := by rw [hn]; exact h.nodes_ne
  listIds := by rw [hl]; exact h.listIds
  listIds_lt := by rw [hl, hr]; exact h.listIds_lt
  lists_ne := by rw [hl]; exact h.lists_ne

/-- Linking a child changes one node and nothing about the allocator. -/
theorem setChild_allocs (m : Arena α D) (side : Side) (p c : NodePtr) :
    (m.setChild side p c).nodeAllocs = m.nodeAllocs ∧
      (m.setChild side p c).listAllocs = m.listAllocs ∧
      (m.setChild side p c).requests = m.requests ∧ (m.setChild side p c).lists = m.lists := by
  unfold Arena.setChild
  split
  · exact ⟨rfl, rfl, rfl, rfl⟩
  · exact ⟨rfl, rfl, rfl, rfl⟩
  · exact ⟨rfl, rfl, rfl, rfl⟩

theorem Arena.Chained.setChild (h : m.Chained) (side : Side) (p c : NodePtr) :
    (m.setChild side p c).Chained := by
  obtain ⟨hn, hl, hr, _⟩ := setChild_allocs m side p c
  exact h.congr hn hl hr

theorem allocVPNode_ok (ok : ℕ → Bool) (bufs : BufSizes) (hok : ∀ i, ok i = true)
    (h : m.Chained) : ∃ p m', m.allocVPNode ok bufs = (some p, m') ∧ m.NewNode p m' := by
  rcases allocVPNode_cases ok bufs h with hnew | ⟨hfail, _⟩
  · exact hnew
  · rw [hok] at hfail
    cases hfail

theorem allocVPList_ok (ok : ℕ → Bool) (bufs : BufSizes) (hok : ∀ i, ok i = true)
    (h : m.Chained) (n : ℕ) :
    ∃ l m', m.allocVPList ok bufs n = (some l, m') ∧ m.NewList l n m' := by
  rcases allocVPList_cases ok bufs h n with hnew | ⟨hfail, _⟩
  · exact hnew
  · rw [hok] at hfail
    cases hfail

end Memory

/-- The frames still to be built, in the order in which they will be taken. -/
def BuildState.work (s : BuildState α D) : List (Side × VPBuildStackFrame) :=
  s.leftStack.map (Prod.mk .left) ++ s.rightStack.map (Prod.mk .right)

section Pop

variable {s rest : BuildState α D} {side : Side} {popped : VPBuildStackFrame}

theorem work_of_pop (h : s.pop = some (side, popped, rest)) :
    s.work = (side, popped) :: rest.work ∧ rest.arena = s.arena ∧
      rest.buildBuffer = s.buildBuffer := by
  unfold BuildState.pop at h
  split at h
  · rename_i hl
    cases h
    refine ⟨?_, rfl, rfl⟩
    rw [BuildState.work, hl]
    rfl
  · rename_i hl hr
    cases h
    refine ⟨?_, rfl, rfl⟩
    rw [BuildState.work, BuildState.work, hl, hr]
    rfl
  · cases h

theorem mem_work_of_pop (h : s.pop = some (side, popped, rest)) : (side, popped) ∈ s.work := by
  rw [(work_of_pop h).1]
  exact List.mem_cons_self

theorem pop_eq_none_iff : s.pop = none ↔ s.work = [] := by
  cases hp : s.pop with
  | none =>
    refine ⟨fun _ => ?_, fun _ => rfl⟩
    unfold BuildState.pop at hp
    split at hp
    · cases hp
    · cases hp
    · rename_i hl hr
      rw [BuildState.work, hl, hr]
      rfl
  | some x =>
    obtain ⟨side, popped, rest⟩ := x
    constructor
    · intro h
      cases h
    · intro h
      rw [(work_of_pop hp).1] at h
      cases h

/-- A right frame is taken only when the left stack is empty, and the left stack
never holds more than one. -/
theorem leftStack_of_pop (hone : s.leftStack.length ≤ 1) (h : s.pop = some (side, popped, rest)) :
    rest.leftStack = [] ∧ ((side = .left ∧ s.leftStack = [popped] ∧
      rest.rightStack = s.rightStack) ∨ (side = .right ∧ s.leftStack = [] ∧
      s.rightStack = popped :: rest.rightStack)) := by
  unfold BuildState.pop at h
  split at h
  · rename_i left tail hl
    cases h
    rw [hl, List.length_cons] at hone
    -- The left frame taken is the only one there is.
    have htail : tail = [] := List.eq_nil_of_length_eq_zero (by omega)
    subst htail
    exact ⟨rfl, Or.inl ⟨rfl, hl, rfl⟩⟩
  · rename_i hl hr
    cases h
    exact ⟨hl, Or.inr ⟨rfl, hl, hr⟩⟩
  · cases h

end Pop

/-- The stacks and the buffer in every state of the main loop. -/
structure BuildState.Framed (s : BuildState α D) : Prop where
  chained : s.arena.Chained
  left_le_one : s.leftStack.length ≤ 1
  ordered : s.work.Pairwise fun f g => f.2.children+f.2.numChildren ≤ g.2.children
  bounds : ∀ f ∈ s.work, f.2.children+f.2.numChildren ≤ s.buildBuffer.length
  size_lt : s.buildBuffer.length < sizeT

/-- Distances are at most the sentinel of the merge sort, which is infinity. -/
def BuildEnv.Bounded [LinearOrder D] (env : BuildEnv α D) : Prop :=
  ∀ x y, env.distFn x y ≤ env.big.distance

variable [LinearOrder D] (env : BuildEnv α D)

/-- If the next pass splits, it stays inside. -/
def BuildState.InsideNext (s : BuildState α D) : Prop :=
  ∀ side popped rest σ, s.pop = some (side, popped, rest) →
    vptBuildListThreshold ≤ popped.numChildren →
    (rest.arena.allocVPNode env.ok env.bufs).1.isSome →
    frameSplit env rest popped = .ok σ → σ.Inside env.big

variable {env}

omit [LinearOrder D] in
/-- The split that the code makes of a frame. -/
theorem frameSplit_eq_ok {s : BuildState α D} {popped : VPBuildStackFrame} {σ : Split α D} :
    frameSplit env s popped = .ok σ ↔ ∃ first, s.buildBuffer[popped.children]? = some first ∧
      popped.children+popped.numChildren ≤ s.buildBuffer.length ∧
      σ = ⟨first.item, env.distFn first.item, s.buildBuffer, popped.children+1,
        popped.numChildren-1⟩ := by
  unfold frameSplit
  cases hfirst : s.buildBuffer[popped.children]? with
  | none =>
    constructor
    · intro h
      cases h
    · rintro ⟨_, h, _⟩
      cases h
  | some first =>
    dsimp only
    by_cases hb : popped.children+popped.numChildren > s.buildBuffer.length
    · rw [if_pos hb]
      constructor
      · intro h
        cases h
      · rintro ⟨_, _, hle, _⟩
        omega
    · rw [if_neg hb]
      constructor
      · intro h
        cases h
        exact ⟨first, rfl, by omega, rfl⟩
      · rintro ⟨_, hf, _, rfl⟩
        cases hf
        rfl

/-- A frame that is long enough to be split gives a split that fits. -/
theorem fits_of_frameSplit {s : BuildState α D} {popped : VPBuildStackFrame} {σ : Split α D}
    (hσ : frameSplit env s popped = .ok σ) (hnum : vptBuildListThreshold ≤ popped.numChildren)
    (hsize : s.buildBuffer.length < sizeT) (hbig : env.Bounded) :
    σ.Fits ∧ ∀ x, σ.distance x ≤ env.big.distance := by
  obtain ⟨first, _, hb, rfl⟩ := frameSplit_eq_ok.mp hσ
  unfold vptBuildListThreshold at hnum
  refine ⟨⟨?_, ?_, ?_⟩, fun x => hbig _ _⟩
  · dsimp only
    omega
  · dsimp only
    omega
  · dsimp only
    omega

section Pass

variable {s rest : BuildState α D} {side : Side} {popped : VPBuildStackFrame}

/-- A pass that takes a short frame makes a list node of its entries. -/
theorem buildBody_leaf (hok : ∀ i, env.ok i = true) (hF : s.Framed)
    (hpop : s.pop = some (side, popped, rest))
    (hnum : popped.numChildren < vptBuildListThreshold) :
    ∃ newnode m₁ l m₂, s.arena.NewNode newnode m₁ ∧ m₁.NewList l popped.numChildren m₂ ∧
      buildBody env s = .ok { rest with
        arena := ((m₂.writeNode newnode
          (.pointlist (some l) popped.numChildren popped.numChildren)).writeItems l
            ((Segment.slice popped.children popped.numChildren s.buildBuffer).map
              VPEntry.item)).setChild side popped.parent newnode } := by
  obtain ⟨_, harena, hbuf⟩ := work_of_pop hpop
  have hb : popped.children+popped.numChildren ≤ s.buildBuffer.length :=
    hF.bounds (side, popped) (mem_work_of_pop hpop)
  obtain ⟨newnode, m₁, halloc, hnew⟩ := allocVPNode_ok env.ok env.bufs hok hF.chained
  obtain ⟨l, m₂, hlist, hnewl⟩ :=
    allocVPList_ok env.ok env.bufs hok hnew.chained popped.numChildren
  refine ⟨newnode, m₁, l, m₂, hnew, hnewl, ?_⟩
  -- The pass is executed with the node and the list it is given.
  rw [buildBody, hpop]
  dsimp only
  rw [if_pos hnum, buildLeaf, harena, halloc]
  simp only [orFail, Except.bind, hlist, reduceCtorEq, and_false, ↓reduceIte, hbuf,
    not_lt.mpr hb, Arena.copyItems]

/-- A pass that takes a long frame makes a branch node of its first entry and
leaves the others to two new frames. -/
theorem buildBody_branch (hok : ∀ i, env.ok i = true) (hbig : env.Bounded) (hF : s.Framed)
    (hin : s.InsideNext env) (hpop : s.pop = some (side, popped, rest))
    (hnum : vptBuildListThreshold ≤ popped.numChildren) :
    ∃ newnode m₁ σ m last next, s.arena.NewNode newnode m₁ ∧
      frameSplit env s popped = .ok σ ∧ σ.Fits ∧
      (∀ x, σ.distance x ≤ env.big.distance) ∧ 0 < m ∧ m ≤ σ.numEntries-σ.numEntries/2 ∧
      scanBack (σ.sorted env.big) (σ.numEntries-σ.numEntries/2) = some m ∧
      (σ.sorted env.big)[m-1]? = some last ∧ (σ.sorted env.big)[m]? = some next ∧
      last.distance < next.distance ∧
      buildBody env s = .ok {
        arena := (m₁.writeNode newnode
          (.branch σ.sortBy last.distance none none)).setChild side popped.parent newnode
        buildBuffer := σ.measured env.big
        leftStack := [⟨newnode, σ.entryList, m⟩]
        rightStack := ⟨newnode, σ.entryList+m, σ.numEntries-m⟩ :: rest.rightStack } := by
  obtain ⟨_, harena, hbuf⟩ := work_of_pop hpop
  have hleft := (leftStack_of_pop hF.left_le_one hpop).1
  have hb : popped.children+popped.numChildren ≤ s.buildBuffer.length :=
    hF.bounds (side, popped) (mem_work_of_pop hpop)
  have hlt : popped.children < s.buildBuffer.length := by
    unfold vptBuildListThreshold at hnum
    omega
  obtain ⟨newnode, m₁, halloc, hnew⟩ := allocVPNode_ok env.ok env.bufs hok hF.chained
  have hσ : frameSplit env s popped = .ok ⟨s.buildBuffer[popped.children].item,
      env.distFn s.buildBuffer[popped.children].item, s.buildBuffer, popped.children+1,
      popped.numChildren-1⟩ :=
    frameSplit_eq_ok.mpr ⟨_, List.getElem?_eq_getElem hlt, hb, rfl⟩
  -- Popping changes the stacks only.
  have hσrest : frameSplit env rest popped = frameSplit env s popped := by
    rw [frameSplit, hbuf, frameSplit]
  -- From here on only what a split satisfies matters, not what it is made of.
  generalize Split.mk _ _ _ _ _ = σ at hσ
  obtain ⟨hfits, hdist⟩ := fits_of_frameSplit hσ hnum hF.size_lt hbig
  have hinside : σ.Inside env.big := by
    apply hin side popped rest σ hpop hnum
    · rw [harena, halloc]
      rfl
    · rw [hσrest, hσ]
  obtain ⟨m, last, next, hpos, hm, hscan, hlast, hnext, hlt', _, hhalves⟩ :=
    halves_of_inside hfits hdist hinside
  refine ⟨newnode, m₁, σ, m, last, next, hnew, hσ, hfits, hdist, hpos, hm, hscan, hlast, hnext,
    hlt', ?_⟩
  rw [buildBody, hpop]
  dsimp only
  rw [if_neg (by omega), buildBranch, harena, halloc, hσrest, hσ]
  simp only [orFail, Except.bind, hhalves, hleft]

end Pass

section Start

variable {arena : Arena α D} {data : List α}

/-- The allocator as `VPT_build` sets it up, after `n` more requests. -/
def initialArena (arena : Arena α D) (n : ℕ) : Arena α D :=
  { arena with nodeAllocs := [⟨arena.requests, 0⟩]
               listAllocs := [⟨arena.requests+1, 0⟩]
               requests := arena.requests+2+n }

omit [LinearOrder D] in
theorem initAllocator_ok (hok : ∀ i, env.ok i = true) :
    initAllocator env arena = .ok (initialArena arena 0) := by
  simp only [initAllocator, Arena.malloc, hok, ↓reduceIte, orFail, Except.bind]
  rfl

omit [LinearOrder D] in
/-- A setup that succeeds leaves one empty chunk in each chain. -/
theorem initAllocator_eq_ok {m : Arena α D} (h : initAllocator env arena = .ok m) :
    m = initialArena arena 0 := by
  unfold initAllocator Arena.malloc at h
  -- Both requests were granted, or the setup would have failed.
  by_cases hnode : env.ok arena.requests = true
  · by_cases hlist : env.ok (arena.requests+1) = true
    · simp only [hnode, hlist, ↓reduceIte, orFail, Except.bind] at h
      exact (Except.ok.inj h).symm
    · simp only [hnode, hlist, ↓reduceIte, orFail, Except.bind, Bool.false_eq_true] at h
      cases h
  · simp only [hnode, ↓reduceIte, orFail, Except.bind, Bool.false_eq_true] at h
    cases h

omit [LinearOrder D] in
theorem initialArena_chained (arena : Arena α D) (n : ℕ) : (initialArena arena n).Chained where
  nodeIds := List.nodup_singleton _
  nodeIds_lt := by
    intro c hc
    rw [List.mem_singleton.mp hc]
    change arena.requests < arena.requests+2+n
    omega
  nodes_ne := List.cons_ne_nil _ _
  listIds := List.nodup_singleton _
  listIds_lt := by
    intro c hc
    rw [List.mem_singleton.mp hc]
    change arena.requests+1 < arena.requests+2+n
    omega
  lists_ne := List.cons_ne_nil _ _

/-- The split by the root `v` of the other points `xs`. -/
def splitAtRoot (env : BuildEnv α D) (v : α) (xs : List α) : Split α D :=
  ⟨v, fun x => env.distFn x v, xs.map fun x => ⟨x, env.big.distance⟩, 0, xs.length⟩

omit [LinearOrder D] in
theorem rootSplit_eq_ok {r : RootSplit α D} (h : rootSplit env arena data = .ok r) :
    ∃ v xs, data = v :: xs ∧ r.split = splitAtRoot env v xs := by
  unfold rootSplit at h
  split at h
  · cases h
  · rename_i v xs
    obtain ⟨_, _, h⟩ := (except_bind_eq_ok _ _ _).mp h
    obtain ⟨_, _, h⟩ := (except_bind_eq_ok _ _ _).mp h
    cases h
    exact ⟨v, xs, rfl, rfl⟩

theorem splitAtRoot_fits {v : α} {xs : List α} (hlarge : vptMaxListSize ≤ (v :: xs).length)
    (hsize : (v :: xs).length < sizeT) (hbig : env.Bounded) :
    (splitAtRoot env v xs).Fits ∧
      ∀ x, (splitAtRoot env v xs).distance x ≤ env.big.distance := by
  rw [List.length_cons] at hlarge hsize
  unfold vptMaxListSize at hlarge
  -- The root is no entry of its own split, so one entry fewer than items.
  refine ⟨⟨?_, ?_, ?_⟩, fun x => hbig _ _⟩
  · simp only [splitAtRoot, List.length_map]
    omega
  · simp only [splitAtRoot]
    omega
  · simp only [splitAtRoot]
    omega

omit [LinearOrder D] in
theorem rootSplit_ok (hok : ∀ i, env.ok i = true) (v : α) (xs : List α) :
    rootSplit env (initialArena arena 0) (v :: xs) =
      .ok ⟨splitAtRoot env v xs, initialArena arena 2, arena.requests+2, arena.requests+3⟩ := by
  simp only [rootSplit, Arena.malloc, hok, ↓reduceIte, orFail, Except.bind]
  rfl

/-- A large build with memory for its buffers performs the split by the root. -/
theorem performs_root (hok : ∀ i, env.ok i = true) (v : α) (xs : List α)
    (hlarge : vptMaxListSize ≤ (v :: xs).length) :
    Performs env arena (v :: xs) (splitAtRoot env v xs) :=
  .root _ _ hlarge (initAllocator_ok hok) (rootSplit_ok hok v xs)

variable (arena) in
/-- A large build in which memory is found and the root's split stays inside
enters its main loop, with the two halves on the stacks. -/
theorem entersLoop_of_inside (hok : ∀ i, env.ok i = true) (hbig : env.Bounded)
    (hlarge : vptMaxListSize ≤ data.length) (hsize : data.length < sizeT)
    (hin : ∀ v xs, data = v :: xs → (splitAtRoot env v xs).Inside env.big) :
    ∃ v xs root m₁ m last next s₀, data = v :: xs ∧
      (initialArena arena 2).NewNode root m₁ ∧ (splitAtRoot env v xs).Fits ∧
      (∀ x, (splitAtRoot env v xs).distance x ≤ env.big.distance) ∧
      0 < m ∧ m ≤ xs.length-xs.length/2 ∧
      scanBack ((splitAtRoot env v xs).sorted env.big) (xs.length-xs.length/2) = some m ∧
      ((splitAtRoot env v xs).sorted env.big)[m-1]? = some last ∧
      ((splitAtRoot env v xs).sorted env.big)[m]? = some next ∧
      last.distance < next.distance ∧
      s₀ = { arena := m₁.writeNode root (.branch v last.distance none none)
             buildBuffer := (splitAtRoot env v xs).measured env.big
             leftStack := [⟨root, 0, m⟩]
             rightStack := [⟨root, m, xs.length-m⟩] } ∧
      EntersLoop env arena data root s₀ := by
  cases data with
  | nil =>
    -- no items is less than `VPT_MAX_LIST_SIZE` of them
    exact absurd hlarge (Nat.not_succ_le_zero 999)
  | cons v xs =>
    obtain ⟨hfits, hdist⟩ := splitAtRoot_fits hlarge hsize hbig
    have hinside := hin v xs rfl
    obtain ⟨m, last, next, hpos, hm, hscan, hlast, hnext, hlt, _, hhalves⟩ :=
      halves_of_inside hfits hdist hinside
    obtain ⟨root, m₁, halloc, hnew⟩ :=
      allocVPNode_ok env.ok env.bufs hok (initialArena_chained arena 2)
    refine ⟨v, xs, root, m₁, m, last, next, _, rfl, hnew, hfits, hdist, hpos, hm, hscan, hlast,
      hnext, hlt, rfl, hlarge, _, _, initAllocator_ok hok, rootSplit_ok hok v xs, ?_⟩
    simp only [buildStart, hhalves, Except.bind, halloc, orFail]
    simp only [splitAtRoot, Nat.zero_add]

/-- There is one state in which the main loop is entered. -/
theorem entersLoop_unique {root root' : NodePtr} {s₀ s₀' : BuildState α D}
    (h : EntersLoop env arena data root s₀) (h' : EntersLoop env arena data root' s₀') :
    root = root' ∧ s₀ = s₀' := by
  obtain ⟨_, m, r, hinit, hr, hs⟩ := h
  obtain ⟨_, m', r', hinit', hr', hs'⟩ := h'
  have hm : m = m' := Except.ok.inj (hinit.symm.trans hinit')
  subst hm
  have hrr : r = r' := Except.ok.inj (hr.symm.trans hr')
  subst hrr
  have hss := Except.ok.inj (hs.symm.trans hs')
  exact Prod.mk.inj hss

end Start

end VantagePoint
