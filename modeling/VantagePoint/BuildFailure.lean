import VantagePoint.Allocator
import VantagePoint.BuildMemory

/-! `VPT_build` when requests for memory fail. As long as every request finds
memory a build does what it does when memory never runs out. A request that
fails makes it return `false`, except in one place: the copy of the leaf case
that builds right nodes uses the list it gets without a check. -/
namespace VantagePoint
open WhileLoop

universe u v

variable {α : Type u} {D : Type v}

/-- The same build with memory for every request. -/
def BuildEnv.granted (env : BuildEnv α D) : BuildEnv α D := { env with ok := fun _ => true }

theorem BuildEnv.granted_ok (env : BuildEnv α D) (i : ℕ) : env.granted.ok i = true := rfl

/-- Every request made on the way from `m` to `m'` found memory. -/
structure Arena.Granted (ok : ℕ → Bool) (m m' : Arena α D) : Prop where
  le : m.requests ≤ m'.requests
  found : ∀ i, m.requests ≤ i → i < m'.requests → ok i = true

/-- No slot or cell is taken and no request made. -/
structure Arena.SameAllocs (m m' : Arena α D) : Prop where
  nodeAllocs : m'.nodeAllocs = m.nodeAllocs
  listAllocs : m'.listAllocs = m.listAllocs
  requests : m'.requests = m.requests

/-- A list of `n` items needs another chunk, and there is no memory for it. -/
def Arena.ListDenied (ok : ℕ → Bool) (bufs : BufSizes) (m : Arena α D) (n : ℕ) : Prop :=
  ∃ front next, m.listAllocs = front :: next ∧ front.size+n ≥ bufs.listallocBufSize-1 ∧
    ok m.requests = false

/-- `x` returns `false`, or it is `y` and its result satisfies `P`. -/
def SameOrFails {β : Type*} (P : β → Prop) (x y : Except TreeError β) : Prop :=
  x = .error .outOfMemory ∨ x = y ∧ ∀ b, x = .ok b → P b

section Requests

variable {ok : ℕ → Bool} {bufs : BufSizes} {m m' m'' : Arena α D}

theorem Arena.Granted.trans (h : m.Granted ok m') (h' : m'.Granted ok m'') : m.Granted ok m'' where
  le := h.le.trans h'.le
  found i hi hi' := by
    rcases Nat.lt_or_ge i m'.requests with hlt | hge
    · exact h.found i hi hlt
    · exact h'.found i hge hi'

/-- No request at all. -/
theorem Arena.Granted.of_eq (h : m'.requests = m.requests) : m.Granted ok m' where
  le := h.ge
  found i hi hi' := by omega

theorem Arena.Granted.request (h : ok m.requests = true) (hm : m'.requests = m.requests+1) :
    m.Granted ok m' where
  le := by omega
  found i hi hi' := by
    obtain rfl : i = m.requests := by omega
    exact h

theorem SameOrFails.bind {β γ : Type*} {P : β → Prop} {Q : γ → Prop} {x y : Except TreeError β}
    {f g : β → Except TreeError γ} (h : SameOrFails P x y)
    (hfg : ∀ b, x = .ok b → P b → SameOrFails Q (f b) (g b)) :
    SameOrFails Q (x.bind f) (y.bind g) := by
  rcases h with rfl | ⟨rfl, hP⟩
  -- A failure of `x` ends both.
  · exact Or.inl rfl
  · cases x with
    | error e =>
      refine Or.inr ⟨rfl, ?_⟩
      intro c hc
      cases hc
    | ok b => exact hfg b rfl (hP b rfl)

theorem SameOrFails.of_ok {β : Type*} {P : β → Prop} {b : β} (h : P b) :
    SameOrFails P (.ok b) (.ok b) := by
  refine Or.inr ⟨rfl, ?_⟩
  intro c hc
  cases hc
  exact h

theorem orFail_none {β γ : Type*} {x : Option β × γ} (h : x.1 = none) :
    orFail x = .error .outOfMemory := by
  obtain ⟨b, c⟩ := x
  obtain rfl : b = none := h
  rfl

theorem orFail_eq_ok {β γ : Type*} {x : Option β × γ} {b : β} {c : γ} :
    orFail x = .ok (b, c) ↔ x = (some b, c) := by
  obtain ⟨b', c'⟩ := x
  cases b' with
  | none =>
    constructor
    · intro h
      cases h
    · intro h
      cases h
  | some b' =>
    constructor
    · intro h
      cases h
      rfl
    · intro h
      cases h
      rfl

theorem orFail_malloc (m : Arena α D) :
    SameOrFails (fun b => m.Granted ok b.2) (orFail (m.malloc ok))
      (orFail (m.malloc fun _ => true)) := by
  by_cases hr : ok m.requests = true
  · simp only [Arena.malloc, hr, ↓reduceIte, orFail]
    exact .of_ok (.request hr rfl)
  · left
    simp only [Arena.malloc, hr, Bool.false_eq_true, ↓reduceIte, orFail]

/-- What a request has to answer so that something is handed out. -/
theorem granted_of_some {β : Type*} {full : Prop} [Decidable full] {found : Bool} {b : β}
    {x y : Option β × Arena α D}
    (h : (if full then if found then x else (none, m) else y) = (some b, m')) :
    (if full then if true then x else (none, m) else y) = (some b, m') := by
  by_cases hfull : full
  · rw [if_pos hfull] at h ⊢
    cases found with
    | true => exact h
    -- a request that failed hands out nothing
    | false => cases h
  · rwa [if_neg hfull] at h ⊢

/-- A node that is handed out is the one handed out if memory never runs out. -/
theorem allocVPNode_granted {p : NodePtr} (h : m.allocVPNode ok bufs = (some p, m')) :
    m.allocVPNode (fun _ => true) bufs = (some p, m') := by
  cases hchain : m.nodeAllocs with
  | nil =>
    rw [Arena.allocVPNode, hchain] at h
    cases h
  | cons front next =>
    rw [allocVPNode_eq hchain] at h ⊢
    exact granted_of_some h

theorem allocVPNode_isSome (h : (m.allocVPNode ok bufs).1.isSome) :
    (m.allocVPNode (fun _ => true) bufs).1.isSome := by
  obtain ⟨p, hp⟩ := Option.isSome_iff_exists.mp h
  rw [allocVPNode_granted (Prod.ext hp rfl)]
  rfl

theorem allocVPList_granted {l : ListPtr} {n : ℕ}
    (h : m.allocVPList ok bufs n = (some l, m')) :
    m.allocVPList (fun _ => true) bufs n = (some l, m') := by
  cases hchain : m.listAllocs with
  | nil =>
    rw [Arena.allocVPList, hchain] at h
    cases h
  | cons front next =>
    rw [allocVPList_eq hchain] at h ⊢
    exact granted_of_some h

theorem allocVPNode_found (ok : ℕ → Bool) (bufs : BufSizes) (m : Arena α D) :
    (m.allocVPNode ok bufs).1 = none ∨
      ∃ p m', m.allocVPNode ok bufs = (some p, m') ∧ m.Granted ok m' := by
  cases hchain : m.nodeAllocs with
  | nil =>
    left
    rw [Arena.allocVPNode, hchain]
  | cons front next =>
    rw [allocVPNode_eq hchain]
    by_cases hfull : front.size = bufs.nodeallocBufSize-1
    · rw [if_pos hfull]
      by_cases hr : ok m.requests = true
      · rw [if_pos hr]
        exact Or.inr ⟨_, _, rfl, .request hr rfl⟩
      · left
        rw [if_neg hr]
    · rw [if_neg hfull, Arena.takeNode, hchain]
      exact Or.inr ⟨_, _, rfl, .of_eq rfl⟩

theorem allocVPList_found (ok : ℕ → Bool) (bufs : BufSizes) (h : m.Chained) (n : ℕ) :
    m.ListDenied ok bufs n ∨
      ∃ l m', m.allocVPList ok bufs n = (some l, m') ∧ m.Granted ok m' := by
  cases hchain : m.listAllocs with
  | nil => exact absurd hchain h.lists_ne
  | cons front next =>
    rw [allocVPList_eq hchain]
    by_cases hfull : front.size+n ≥ bufs.listallocBufSize-1
    · by_cases hr : ok m.requests = true
      · rw [if_pos hfull, if_pos hr]
        exact Or.inr ⟨_, _, rfl, .request hr rfl⟩
      · exact Or.inl ⟨front, next, hchain, hfull, by simpa using hr⟩
    -- A front chunk with room needs no request.
    · rw [if_neg hfull, Arena.takeList, hchain]
      exact Or.inr ⟨_, _, rfl, .of_eq rfl⟩

theorem allocVPList_denied {n : ℕ} (h : m.ListDenied ok bufs n) :
    (m.allocVPList ok bufs n).1 = none := by
  obtain ⟨front, next, hchain, hfull, hr⟩ := h
  rw [allocVPList_eq hchain, if_pos hfull, hr]
  rfl

theorem chained_of_node (h : m.Chained) {p : NodePtr}
    (he : m.allocVPNode ok bufs = (some p, m')) : m'.Chained := by
  rcases allocVPNode_cases ok bufs h with ⟨q, m₁, halloc, hnew⟩ | ⟨_, halloc⟩
  · rw [halloc] at he
    cases he
    exact hnew.chained
  · rw [halloc] at he
    cases he

theorem orFail_allocVPNode (ok : ℕ → Bool) (bufs : BufSizes) (m : Arena α D) :
    SameOrFails (fun b => m.Granted ok b.2) (orFail (m.allocVPNode ok bufs))
      (orFail (m.allocVPNode (fun _ => true) bufs)) := by
  rcases allocVPNode_found ok bufs m with hnone | ⟨p, m', he, hm'⟩
  · exact Or.inl (orFail_none hnone)
  · rw [he, allocVPNode_granted he]
    exact .of_ok hm'

theorem orFail_allocVPList (ok : ℕ → Bool) (bufs : BufSizes) (h : m.Chained) (n : ℕ) :
    SameOrFails (fun b => m.Granted ok b.2) (orFail (m.allocVPList ok bufs n))
      (orFail (m.allocVPList (fun _ => true) bufs n)) := by
  rcases allocVPList_found ok bufs h n with hdenied | ⟨l, m', he, hm'⟩
  · exact Or.inl (orFail_none (allocVPList_denied hdenied))
  · rw [he, allocVPList_granted he]
    exact .of_ok hm'

theorem initAllocator_granted (env : BuildEnv α D) (arena : Arena α D) :
    SameOrFails (arena.Granted env.ok) (initAllocator env arena)
      (initAllocator env.granted arena) := by
  unfold initAllocator
  apply (orFail_malloc arena).bind
  rintro ⟨nodeChunk, m⟩ _ hm
  apply (orFail_malloc m).bind
  rintro ⟨listChunk, m'⟩ _ hm'
  exact .of_ok ((hm.trans hm').trans (.of_eq rfl))

theorem rootSplit_granted (env : BuildEnv α D) (arena : Arena α D) {data : List α}
    (hdata : data ≠ []) :
    SameOrFails (fun r => arena.Granted env.ok r.arena) (rootSplit env arena data)
      (rootSplit env.granted arena data) := by
  cases data with
  | nil => exact absurd rfl hdata
  | cons v xs =>
    unfold rootSplit
    apply (orFail_malloc arena).bind
    rintro ⟨buildBuffer, m⟩ _ hm
    apply (orFail_malloc m).bind
    rintro ⟨scratchSpace, m'⟩ _ hm'
    exact .of_ok (hm.trans hm')

theorem buildStart_granted [LinearOrder D] (env : BuildEnv α D) (r : RootSplit α D) :
    SameOrFails (fun b => r.arena.Granted env.ok b.2.arena) (buildStart env r)
      (buildStart env.granted r) := by
  unfold buildStart
  -- Splitting asks for no memory.
  have hsplit : SameOrFails (fun _ => True) (r.split.halves env.big) (r.split.halves env.big) :=
    Or.inr ⟨rfl, fun _ _ => trivial⟩
  apply hsplit.bind
  rintro h _ _
  apply (orFail_allocVPNode env.ok env.bufs r.arena).bind
  rintro ⟨root, m⟩ _ hm
  exact .of_ok (hm.trans (.of_eq rfl))

theorem vptSmallBuild_granted (env : BuildEnv α D) (h : m.Chained) (data : List α) :
    SameOrFails (fun t => m.Granted env.ok t.arena) (vptSmallBuild env m data)
      (vptSmallBuild env.granted m data) := by
  unfold vptSmallBuild
  apply (orFail_allocVPNode env.ok env.bufs m).bind
  rintro ⟨root, m₁⟩ hroot hm₁
  apply (orFail_allocVPList env.ok env.bufs
    (chained_of_node h (orFail_eq_ok.mp hroot)) vptMaxListSize).bind
  rintro ⟨l, m₂⟩ _ hm₂
  exact .of_ok ((hm₁.trans hm₂).trans (.of_eq rfl))

end Requests

variable [LinearOrder D] {env : BuildEnv α D}

/-- The pass to come makes a right leaf, and its list is denied. -/
def BuildState.RightDenied (env : BuildEnv α D) (s : BuildState α D) : Prop :=
  ∃ popped rest newnode m, s.pop = some (.right, popped, rest) ∧
    popped.numChildren < vptBuildListThreshold ∧
    s.arena.allocVPNode env.ok env.bufs = (some newnode, m) ∧
    m.ListDenied env.ok env.bufs popped.numChildren

section Pass

variable {s rest : BuildState α D} {side : Side} {popped : VPBuildStackFrame} {newnode : NodePtr}
  {m₁ m₂ : Arena α D} {l : ListPtr}

/-- Without a node a pass comes back with `false` before it does anything. -/
theorem buildBody_noNode (hpop : s.pop = some (side, popped, rest))
    (hnone : (s.arena.allocVPNode env.ok env.bufs).1 = none) :
    buildBody env s = .error .outOfMemory := by
  have hfail := orFail_none hnone
  rw [← (work_of_pop hpop).2.1] at hfail
  rw [buildBody, hpop]
  dsimp only
  rw [buildLeaf, buildBranch, hfail]
  split
  · rfl
  · rfl

/-- The left copy of the leaf case checks its list. -/
theorem buildBody_noLeft (hpop : s.pop = some (.left, popped, rest))
    (hnum : popped.numChildren < vptBuildListThreshold)
    (hnode : s.arena.allocVPNode env.ok env.bufs = (some newnode, m₁))
    (hnone : (m₁.allocVPList env.ok env.bufs popped.numChildren).1 = none) :
    buildBody env s = .error .outOfMemory := by
  generalize halloc : m₁.allocVPList env.ok env.bufs popped.numChildren = alloc at hnone
  obtain ⟨items, m₂⟩ := alloc
  obtain rfl : items = none := hnone
  rw [buildBody, hpop]
  dsimp only
  rw [if_pos hnum, buildLeaf, (work_of_pop hpop).2.1, hnode]
  simp only [orFail, Except.bind, halloc, and_self, ↓reduceIte]

/-- A short frame whose node and list are found is built as in a build in which
memory never runs out. -/
theorem buildBody_leafPass (hF : s.Framed) (hpop : s.pop = some (side, popped, rest))
    (hnum : popped.numChildren < vptBuildListThreshold)
    (hnode : s.arena.allocVPNode env.ok env.bufs = (some newnode, m₁))
    (hlist : m₁.allocVPList env.ok env.bufs popped.numChildren = (some l, m₂)) :
    ∃ s', buildBody env s = .ok s' ∧ buildBody env.granted s = .ok s' ∧ s'.Framed ∧
      ItemPass env.granted s s' ∧ m₂.SameAllocs s'.arena := by
  obtain ⟨s', hb, hF', hpass⟩ := buildBody_list env.granted_ok hF hpop hnum
  obtain ⟨_, harena, _⟩ := work_of_pop hpop
  have hnode' : s.arena.allocVPNode env.granted.ok env.granted.bufs = (some newnode, m₁) :=
    allocVPNode_granted hnode
  have hlist' : m₁.allocVPList env.granted.ok env.granted.bufs popped.numChildren =
      (some l, m₂) := allocVPList_granted hlist
  -- Both builds are given the same node and the same list.
  have hsame : buildBody env s = buildBody env.granted s := by
    rw [buildBody, buildBody, hpop]
    dsimp only
    rw [if_pos hnum, if_pos hnum, buildLeaf, buildLeaf, harena, hnode, hnode']
    dsimp only [orFail, Except.bind]
    rw [hlist, hlist']
  rw [hb] at hsame
  refine ⟨s', hsame, hb, hF', hpass, ?_⟩
  rw [buildBody, hpop] at hsame
  dsimp only at hsame
  rw [if_pos hnum, buildLeaf, harena, hnode] at hsame
  simp only [orFail, Except.bind, hlist, reduceCtorEq, and_false, ↓reduceIte,
    Arena.copyItems] at hsame
  split at hsame
  · cases hsame
  · cases hsame
    -- Writing the leaf and linking it takes nothing from the chunks.
    obtain ⟨hn, hl, hr, _⟩ := setChild_allocs _ side popped.parent newnode
    exact ⟨hn, hl, hr⟩

/-- The same for a long frame whose node is found. -/
theorem buildBody_branchPass (hbig : env.Bounded) (hF : s.Framed) (hin : s.InsideNext env)
    (hpop : s.pop = some (side, popped, rest))
    (hnum : vptBuildListThreshold ≤ popped.numChildren)
    (hnode : s.arena.allocVPNode env.ok env.bufs = (some newnode, m₁)) :
    ∃ s', buildBody env s = .ok s' ∧ buildBody env.granted s = .ok s' ∧ s'.Framed ∧
      ItemPass env.granted s s' ∧ m₁.SameAllocs s'.arena := by
  obtain ⟨_, harena, _⟩ := work_of_pop hpop
  -- The hypothesis is about the pass with its node, which is there in both builds.
  have hin' : s.InsideNext env.granted := by
    intro side' popped' rest' σ hpop' hnum' _ hσ
    apply hin side' popped' rest' σ hpop' hnum' _ hσ
    rw [(work_of_pop hpop').2.1, hnode]
    rfl
  obtain ⟨s', hb, hF', hpass⟩ := buildBody_cut env.granted_ok hbig hF hin' hpop hnum
  have hnode' : s.arena.allocVPNode env.granted.ok env.granted.bufs = (some newnode, m₁) :=
    allocVPNode_granted hnode
  have hsame : buildBody env s = buildBody env.granted s := by
    rw [buildBody, buildBody, hpop]
    dsimp only
    rw [if_neg (not_lt.mpr hnum), if_neg (not_lt.mpr hnum), buildBranch, buildBranch, harena,
      hnode, hnode']
    rfl
  rw [hb] at hsame
  refine ⟨s', hsame, hb, hF', hpass, ?_⟩
  rw [buildBody, hpop] at hsame
  dsimp only at hsame
  rw [if_neg (not_lt.mpr hnum), buildBranch, harena, hnode] at hsame
  obtain ⟨_, hfirst, hsame⟩ := (except_bind_eq_ok _ _ _).mp hsame
  cases hfirst
  obtain ⟨_, _, hsame⟩ := (except_bind_eq_ok _ _ _).mp hsame
  obtain ⟨_, _, hsame⟩ := (except_bind_eq_ok _ _ _).mp hsame
  cases hsame
  obtain ⟨hn, hl, hr, _⟩ := setChild_allocs _ side popped.parent newnode
  exact ⟨hn, hl, hr⟩

/-- The step lemma: a pass comes back with `false`, or it is one of the same build
with memory for every request. -/
theorem buildBody_step (hbig : env.Bounded) (hF : s.Framed) (hin : s.InsideNext env)
    (hnot : ¬ s.RightDenied env) (hguard : (buildLoop env).guard s = true) :
    buildBody env s = .error .outOfMemory ∨
      ∃ s', buildBody env s = .ok s' ∧ buildBody env.granted s = .ok s' ∧ s'.Framed ∧
        ItemPass env.granted s s' ∧ s.arena.Granted env.ok s'.arena := by
  obtain ⟨⟨side, popped, rest⟩, hpop⟩ := Option.isSome_iff_exists.mp hguard
  -- A pass asks for its node first, and for a list only if it makes a leaf.
  rcases allocVPNode_found env.ok env.bufs s.arena with hnone | ⟨newnode, m₁, hnode, hm₁⟩
  · exact Or.inl (buildBody_noNode hpop hnone)
  rcases Nat.lt_or_ge popped.numChildren vptBuildListThreshold with hnum | hnum
  · have hchained := chained_of_node hF.chained hnode
    rcases allocVPList_found env.ok env.bufs hchained popped.numChildren with
      hdenied | ⟨l, m₂, hlist, hm₂⟩
    · cases side with
      | left => exact Or.inl (buildBody_noLeft hpop hnum hnode (allocVPList_denied hdenied))
      -- the copy without a check
      | right => exact absurd ⟨popped, rest, newnode, m₁, hpop, hnum, hnode, hdenied⟩ hnot
    · obtain ⟨s', hb, hb', hF', hpass, hsame⟩ := buildBody_leafPass hF hpop hnum hnode hlist
      exact Or.inr ⟨s', hb, hb', hF', hpass, (hm₁.trans hm₂).trans (.of_eq hsame.requests)⟩
  · obtain ⟨s', hb, hb', hF', hpass, hsame⟩ := buildBody_branchPass hbig hF hin hpop hnum hnode
    exact Or.inr ⟨s', hb, hb', hF', hpass, hm₁.trans (.of_eq hsame.requests)⟩

/-- The missing check: the items of the leaf are written through `NULL`. -/
theorem buildBody_denied (hF : s.Framed)
    (hpos : ∀ f ∈ s.work, f.1 = .right → 0 < f.2.numChildren) (h : s.RightDenied env) :
    buildBody env s = .error .nullWrite := by
  obtain ⟨popped, rest, newnode, m, hpop, hnum, hnode, hdenied⟩ := h
  obtain ⟨_, harena, hbuf⟩ := work_of_pop hpop
  have hmem := mem_work_of_pop hpop
  have hb : popped.children+popped.numChildren ≤ s.buildBuffer.length := hF.bounds _ hmem
  have hlen : (s.itemsOf popped).length = popped.numChildren := length_itemsOf hF hmem
  -- An empty list would be copied without a write.
  have hitems : 0 < (s.itemsOf popped).length := by
    rw [hlen]
    exact hpos _ hmem rfl
  have hnone := allocVPList_denied hdenied
  generalize halloc : m.allocVPList env.ok env.bufs popped.numChildren = alloc at hnone
  obtain ⟨items, m'⟩ := alloc
  obtain rfl : items = none := hnone
  rw [buildBody, hpop]
  dsimp only
  rw [if_pos hnum, buildLeaf, harena, hnode]
  simp only [orFail, Except.bind, halloc, reduceCtorEq, false_and, ↓reduceIte, hbuf,
    not_lt.mpr hb]
  rw [BuildState.itemsOf] at hitems
  obtain ⟨x, hx⟩ := List.exists_mem_of_length_pos hitems
  cases hxs : (Segment.slice popped.children popped.numChildren s.buildBuffer).map VPEntry.item with
  | nil =>
    rw [hxs] at hx
    exact absurd hx List.not_mem_nil
  | cons x xs => rfl

/-- The side of a cut that right nodes are built of is never empty. -/
theorem ItemPass.right_pos {s' : BuildState α D} (hbig : env.Bounded) (h : ItemPass env s s')
    (hF' : s'.Framed) (hpos : ∀ f ∈ s.work, f.1 = .right → 0 < f.2.numChildren) :
    ∀ f ∈ s'.work, f.1 = .right → 0 < f.2.numChildren := by
  cases h with
  | list hpop _ _ _ _ hwork _ =>
    rw [(work_of_pop hpop).1] at hpos
    intro f hf
    rw [hwork] at hf
    exact hpos f (List.mem_cons_of_mem _ hf)
  | @cut side popped fl fr rest _ _ _ v xs c hpop _ _ hlong hc _ _ _ hwork _ hitemsr _ =>
    rw [(work_of_pop hpop).1] at hpos
    obtain ⟨hcl, hcr⟩ := length_cut (hbig v) hc
    have hlenr := length_itemsOf hF' (f := (.right, fr))
      (by rw [hwork]; exact List.mem_cons_of_mem _ List.mem_cons_self)
    dsimp only at hlenr
    rw [hitemsr] at hlenr
    rw [List.length_cons] at hlong
    unfold vptBuildListThreshold at hlong
    intro f hf hside
    rw [hwork] at hf
    rcases List.mem_cons.mp hf with rfl | hf
    · cases hside
    · rcases List.mem_cons.mp hf with rfl | hf
      -- The new right frame has half of the items cut, rounded down, or more.
      · dsimp only
        omega
      · exact hpos f (List.mem_cons_of_mem _ hf) hside

end Pass

/-- The invariant of a main loop in which every request so far found memory. -/
structure BuildState.OnTrack (env : BuildEnv α D) (arena : Arena α D) (n : ℕ)
    (s : BuildState α D) : Prop where
  framed : s.Framed
  halved : s.Halved n
  right : ∀ f ∈ s.work, f.1 = .right → 0 < f.2.numChildren
  granted : arena.Granted env.ok s.arena

section Runs

variable {arena : Arena α D} {data : List α} {root : NodePtr} {s₀ s : BuildState α D}

theorem SameOrFails.ok {β : Type*} {P : β → Prop} {x y : Except TreeError β} {b : β}
    (h : SameOrFails P x y) (hx : x = .ok b) : y = .ok b ∧ P b := by
  rcases h with hfail | ⟨hsame, hP⟩
  · rw [hx] at hfail
    cases hfail
  · exact ⟨hsame.symm.trans hx, hP b hx⟩

theorem SameOrFails.fails_or_ok {β : Type*} {P : β → Prop} {x y : Except TreeError β} {b : β}
    (h : SameOrFails P x y) (hy : y = .ok b) :
    x = .error .outOfMemory ∨ x = .ok b ∧ P b := by
  rcases h with hfail | ⟨rfl, hP⟩
  · exact Or.inl hfail
  · exact Or.inr ⟨hy, hP b hy⟩

/-- A large build with its buffers allocated has the start of one in which memory
never runs out before it. -/
theorem itemStart_of_rootSplit (hsize : data.length < sizeT) (hbig : env.Bounded)
    (hlarge : vptMaxListSize ≤ data.length) {m : Arena α D} {r : RootSplit α D}
    (hinit : initAllocator env arena = .ok m) (hr : rootSplit env m data = .ok r)
    (hroot : r.split.Inside env.big) :
    arena.Granted env.ok r.arena ∧ ∃ root v xs c m₁ fl fr s₀,
      ItemStart env.granted arena data root v xs c m₁ fl fr s₀ ∧
        buildStart env.granted r = .ok (root, s₀) := by
  have hdata : data ≠ [] := by
    rintro rfl
    exact absurd hlarge (Nat.not_succ_le_zero 999)
  obtain ⟨hinit', hm⟩ := (initAllocator_granted env arena).ok hinit
  obtain ⟨hr', hmr⟩ := (rootSplit_granted env m hdata).ok hr
  have hatRoot (v : α) (xs : List α) (hd : data = v :: xs) :
      (splitAtRoot env.granted v xs).Inside env.big := by
    obtain ⟨v', xs', hd', hsplit⟩ := rootSplit_eq_ok hr
    obtain ⟨rfl, rfl⟩ := List.cons.inj (hd.symm.trans hd')
    rw [hsplit] at hroot
    exact hroot
  -- The start when memory never runs out is known; it has the same `m` and `r`.
  obtain ⟨root, v, xs, c, m₁, fl, fr, s₀, hstart⟩ :=
    itemStart_of_inside arena env.granted_ok hbig hlarge hsize hatRoot
  refine ⟨hm.trans hmr, root, v, xs, c, m₁, fl, fr, s₀, hstart, ?_⟩
  obtain ⟨_, m', r', hinit'', hr'', hs⟩ := hstart.enters
  obtain rfl : m = m' := Except.ok.inj (hinit'.symm.trans hinit'')
  obtain rfl : r = r' := Except.ok.inj (hr'.symm.trans hr'')
  exact hs

/-- A loop that is entered is entered on track, as it is when memory never runs out. -/
theorem onTrack_of_enters (hsize : data.length < sizeT) (hbig : env.Bounded)
    (hroot : ∀ m r, initAllocator env arena = .ok m → rootSplit env m data = .ok r →
      r.split.Inside env.big) (henter : EntersLoop env arena data root s₀) :
    EntersLoop env.granted arena data root s₀ ∧ s₀.OnTrack env arena data.length ∧
      s₀.weight ≤ buildFuel data.length := by
  have hbig' : env.granted.Bounded := hbig
  obtain ⟨hlarge, m, r, hinit, hr, hs⟩ := henter
  obtain ⟨hmr, root', v, xs, c, m₁, fl, fr, s₀', hstart, hs'⟩ :=
    itemStart_of_rootSplit hsize hbig hlarge hinit hr (hroot m r hinit hr)
  obtain ⟨hs'', hms⟩ := (buildStart_granted env r).ok hs
  obtain ⟨rfl, rfl⟩ := Prod.mk.inj (Except.ok.inj (hs''.symm.trans hs'))
  obtain ⟨hhalved, hweight⟩ := hstart.halved hbig'
  refine ⟨hstart.enters, ⟨hstart.framed, hhalved, ?_, hmr.trans hms⟩, hweight⟩
  obtain ⟨hcl, hcr⟩ := length_cut (fun x => hbig' x v) hstart.cut
  have hlenr := length_itemsOf hstart.framed (f := (.right, fr))
    (by rw [hstart.work]; exact List.mem_cons_of_mem _ List.mem_cons_self)
  dsimp only at hlenr
  rw [hstart.right] at hlenr
  rw [hstart.data_eq, List.length_cons] at hlarge
  unfold vptMaxListSize at hlarge
  intro f hf hside
  rw [hstart.work] at hf
  rcases List.mem_cons.mp hf with rfl | hf
  · cases hside
  · rw [List.mem_singleton.mp hf]
    dsimp only
    omega

theorem BuildState.OnTrack.pass {n : ℕ} (hn : n < sizeT) (hbig : env.Bounded)
    (h : s.OnTrack env arena n) (hin : s.InsideNext env) {s' : BuildState α D}
    (hstep : (buildLoop env).Step s s') :
    (buildLoop env.granted).Step s s' ∧ s'.OnTrack env arena n ∧ s'.weight < s.weight := by
  obtain ⟨hguard, hbody⟩ := hstep
  change buildBody env s = .ok s' at hbody
  -- A pass that is denied the list of a right leaf does not come back.
  have hnot : ¬ s.RightDenied env := by
    intro hdenied
    rw [buildBody_denied h.framed h.right hdenied] at hbody
    cases hbody
  rcases buildBody_step hbig h.framed hin hnot hguard with hfail | ⟨t, ht, ht', hF', hp, hg⟩
  · rw [hfail] at hbody
    cases hbody
  · obtain rfl : t = s' := Except.ok.inj (ht.symm.trans hbody)
    have hbig' : env.granted.Bounded := hbig
    obtain ⟨hH', hlt⟩ := hp.halved hn hbig' h.framed hF' h.halved
    exact ⟨⟨hguard, ht'⟩, ⟨hF', hH', hp.right_pos hbig' hF' h.right, h.granted.trans hg⟩, hlt⟩

theorem onTrack_of_reaches (hsize : data.length < sizeT) (hbig : env.Bounded)
    (hin : SplitsInside env arena data) (henter : EntersLoop env arena data root s₀)
    (hs : (buildLoop env).Reaches s₀ s) : s.OnTrack env arena data.length := by
  obtain ⟨_, h₀, _⟩ := onTrack_of_enters hsize hbig
    (fun m r hinit hr => hin _ (.root m r henter.1 hinit hr)) henter
  apply reaches_invariant_of (buildLoop env) (BuildState.OnTrack env arena data.length)
    (BuildState.InsideNext env) _ s₀ s h₀ (fun t ht => insideNext_of_reaches hin henter ht) hs
  intro t t' ht hnext hstep
  exact (ht.pass hsize hbig hnext hstep).2.1

/-- Splits that stay inside when memory never runs out do so in a build that fails
on the way. -/
theorem splitsInside_of_granted (hsize : data.length < sizeT) (hbig : env.Bounded)
    (hin : SplitsInside env.granted arena data) : SplitsInside env arena data := by
  have hatRoot (hlarge : vptMaxListSize ≤ data.length) (m : Arena α D) (r : RootSplit α D)
      (hinit : initAllocator env arena = .ok m) (hr : rootSplit env m data = .ok r) :
      r.split.Inside env.big := by
    have hdata : data ≠ [] := by
      rintro rfl
      exact absurd hlarge (Nat.not_succ_le_zero 999)
    exact hin _ (.root m r hlarge ((initAllocator_granted env arena).ok hinit).1
      ((rootSplit_granted env m hdata).ok hr).1)
  intro σ hσ
  cases hσ with
  | root m r hlarge hinit hr => exact hatRoot hlarge m r hinit hr
  | frame root s₀ s s' side popped _ henter hs hpop hbranch hnode hσ =>
    obtain ⟨henter', h₀, _⟩ := onTrack_of_enters hsize hbig (hatRoot henter.1) henter
    have hnext {t : BuildState α D} (ht : (buildLoop env.granted).Reaches s₀ t) :
        t.InsideNext env := by
      intro side popped rest σ hpop hnum hnode hσ
      exact insideNext_of_reaches hin henter' ht side popped rest σ hpop hnum
        (allocVPNode_isSome hnode) hσ
    -- The states reached are reached, and on track, when memory never runs out.
    have hreach {t : BuildState α D} (ht : (buildLoop env).Reaches s₀ t) :
        (buildLoop env.granted).Reaches s₀ t ∧ t.OnTrack env arena data.length := by
      induction ht with
      | refl => exact ⟨Relation.ReflTransGen.refl, h₀⟩
      | tail _ hstep ih =>
        obtain ⟨hreach, ht⟩ := ih
        obtain ⟨hstep', ht', _⟩ := ht.pass hsize hbig (hnext hreach) hstep
        exact ⟨hreach.tail hstep', ht'⟩
    exact hnext (hreach hs).1 side popped s' σ hpop hbranch hnode hσ

/-- A build that comes to a right leaf whose list is denied ends in a write
through `NULL`. -/
theorem vptBuild_denied (hsize : data.length < sizeT) (hbig : env.Bounded)
    (hin : SplitsInside env arena data) (henter : EntersLoop env arena data root s₀)
    (hs : (buildLoop env).Reaches s₀ s) (hdenied : s.RightDenied env) :
    vptBuild env arena data = .error .nullWrite := by
  obtain ⟨_, h₀, hweight⟩ := onTrack_of_enters hsize hbig
    (fun m r hinit hr => hin _ (.root m r henter.1 hinit hr)) henter
  have ht := onTrack_of_reaches hsize hbig hin henter hs
  have hbody := buildBody_denied ht.framed ht.right hdenied
  obtain ⟨popped, rest, _, _, hpop, _⟩ := hdenied
  have hguard : (buildLoop env).guard s = true := by
    change s.pop.isSome = true
    rw [hpop]
    rfl
  have hpos : 0 < s.weight := by
    rw [weight_of_pop hpop]
    omega
  -- The fuel is enough to come to `s` and for one pass more.
  have hrun : (buildLoop env).run (buildFuel data.length) s₀ = .error .nullWrite := by
    apply run_error_of_reaches (buildLoop env) (BuildState.OnTrack env arena data.length)
      (BuildState.InsideNext env) BuildState.weight _ _ s₀ s _ h₀
      (fun t ht => insideNext_of_reaches hin henter ht) hs hguard hbody hpos hweight
    intro t t' ht hnext hstep
    exact (ht.pass hsize hbig hnext hstep).2
  obtain ⟨hlarge, m, r, hinit, hr, hstart⟩ := henter
  rw [vptBuild, hinit]
  simp only [Except.bind, not_lt.mpr hlarge, ↓reduceIte, vptLargeBuild, hr, hstart, hrun]

end Runs

end VantagePoint
