import VantagePoint.BlockLedger
import VantagePoint.TeardownFailure

/-! Every block a tree asks for is given back once: over any life of a tree whose
calls report success, whatever `malloc` has answered on the way. -/
namespace VantagePoint
open WhileLoop BlockLedger

universe u v

variable {α : Type u} {D : Type v}

/-- The blocks granted so far are those in `held`, the chunks of the tree, and those
that were freed. -/
def Arena.Accounts (ok : ℕ → Bool) (held : List ℕ) (m : Arena α D) : Prop :=
  Settled ok m.requests (held ++ m.chunks) m.freed

section Allocator

variable {ok : ℕ → Bool} {held : List ℕ} {m m' : Arena α D}

/-- The chunks are the same blocks, whatever else has changed. -/
theorem Arena.Accounts.same (h : m.Accounts ok held) (hchunks : m'.chunks = m.chunks)
    (hr : m'.requests = m.requests) (hf : m'.freed = m.freed) : m'.Accounts ok held := by
  rwa [Arena.Accounts, hchunks, hr, hf]

/-- One more chunk, the block just requested. -/
theorem Arena.Accounts.push (h : m.Accounts ok held) (hok : ok m.requests = true)
    (hchunks : m'.chunks.Perm (m.requests :: m.chunks)) (hr : m'.requests = m.requests+1)
    (hf : m'.freed = m.freed) : m'.Accounts ok held := by
  rw [Arena.Accounts, hr, hf]
  apply (Settled.granted h hok).perm
  calc
    (held ++ m'.chunks).Perm (held ++ m.requests :: m.chunks) := hchunks.append_left held
    (_ : List ℕ).Perm (m.requests :: (held ++ m.chunks)) := List.perm_middle

/-- A request that is denied. -/
theorem Arena.Accounts.denied (h : m.Accounts ok held) (hok : ok m.requests ≠ true) :
    Arena.Accounts ok held { m with requests := m.requests+1 } :=
  Settled.denied h hok

theorem Arena.Accounts.free {i : ℕ} (h : m.Accounts ok (i :: held)) :
    (m.free i).Accounts ok held :=
  Settled.release h

theorem takeNode_chunks (m : Arena α D) :
    m.takeNode.2.chunks = m.chunks ∧ m.takeNode.2.requests = m.requests ∧
      m.takeNode.2.freed = m.freed := by
  cases hchain : m.nodeAllocs with
  | nil => simp [Arena.takeNode, hchain]
  | cons front next => simp [Arena.takeNode, Arena.chunks, hchain]

theorem takeList_chunks (m : Arena α D) (n : ℕ) :
    (m.takeList n).2.chunks = m.chunks ∧ (m.takeList n).2.requests = m.requests ∧
      (m.takeList n).2.freed = m.freed := by
  cases hchain : m.listAllocs with
  | nil => simp [Arena.takeList, hchain]
  | cons front next => simp [Arena.takeList, Arena.chunks, hchain]

theorem allocVPNode_accounts (bufs : BufSizes) (h : m.Accounts ok held) :
    (m.allocVPNode ok bufs).2.Accounts ok held := by
  cases hchain : m.nodeAllocs with
  | nil => simpa [Arena.allocVPNode, hchain] using h
  | cons front next =>
    rw [allocVPNode_eq hchain]
    by_cases hfull : front.size = bufs.nodeallocBufSize-1
    · rw [if_pos hfull]
      by_cases hr : ok m.requests = true
      · rw [if_pos hr]
        obtain ⟨hc, hreq, hf⟩ := takeNode_chunks
          { m with nodeAllocs := ⟨m.requests, 0⟩ :: m.nodeAllocs, requests := m.requests+1 }
        apply h.push hr _ hreq hf
        rw [hc]
        exact List.Perm.refl _
      · rw [if_neg hr]
        exact h.denied hr
    · rw [if_neg hfull]
      obtain ⟨hc, hreq, hf⟩ := takeNode_chunks m
      exact h.same hc hreq hf

theorem allocVPList_accounts (bufs : BufSizes) (n : ℕ) (h : m.Accounts ok held) :
    (m.allocVPList ok bufs n).2.Accounts ok held := by
  cases hchain : m.listAllocs with
  | nil => simpa [Arena.allocVPList, hchain] using h
  | cons front next =>
    rw [allocVPList_eq hchain]
    by_cases hfull : front.size+n ≥ bufs.listallocBufSize-1
    · rw [if_pos hfull]
      by_cases hr : ok m.requests = true
      · rw [if_pos hr]
        obtain ⟨hc, hreq, hf⟩ := takeList_chunks
          { m with listAllocs := ⟨m.requests, 0⟩ :: m.listAllocs, requests := m.requests+1 } n
        apply h.push hr _ hreq hf
        rw [hc]
        exact List.perm_middle
      · rw [if_neg hr]
        exact h.denied hr
    · rw [if_neg hfull]
      obtain ⟨hc, hreq, hf⟩ := takeList_chunks m n
      exact h.same hc hreq hf

theorem writeNode_accounts (p : NodePtr) (cell : VPNodeCell α D) (h : m.Accounts ok held) :
    (m.writeNode p cell).Accounts ok held :=
  h.same rfl rfl rfl

theorem setChild_accounts (side : Side) (p c : NodePtr) (h : m.Accounts ok held) :
    (m.setChild side p c).Accounts ok held := by
  unfold Arena.setChild
  split
  · exact writeNode_accounts p _ h
  · exact writeNode_accounts p _ h
  · exact h

theorem copyItems_accounts {items : Option ListPtr} {xs : List α} (h : m.Accounts ok held)
    (hcopy : m.copyItems items xs = .ok m') : m'.Accounts ok held := by
  unfold Arena.copyItems at hcopy
  split at hcopy
  · cases hcopy
    exact h.same rfl rfl rfl
  · cases hcopy
    exact h
  · cases hcopy

/-- `VPT_destroy` gives every chunk back. -/
theorem destroy_settled (h : m.Accounts ok held) :
    Settled ok m.destroy.requests held m.destroy.freed := by
  rw [destroy_eq]
  exact (h.perm List.perm_append_comm).releaseAll

end Allocator

section Build

variable [LinearOrder D] {env : BuildEnv α D} {arena : Arena α D} {data : List α}
  {held : List ℕ} {s s' : BuildState α D} {t t' : VPTree α D}

/-- The step lemma: whatever a pass of the main loop is granted, it keeps. -/
theorem buildBody_accounts (h : s.arena.Accounts env.ok held)
    (hbody : buildBody env s = .ok s') : s'.arena.Accounts env.ok held := by
  unfold buildBody at hbody
  split at hbody
  · cases hbody
    exact h
  · rename_i side popped rest hpop
    rw [← (work_of_pop hpop).2.1] at h
    split at hbody
    · obtain ⟨⟨newnode, m₁⟩, hnode, hbody⟩ := (except_bind_eq_ok _ _ _).mp hbody
      have h₁ := allocVPNode_accounts env.bufs h
      rw [orFail_eq_ok.mp hnode] at h₁
      have h₂ := allocVPList_accounts env.bufs popped.numChildren h₁
      dsimp only at hbody
      split at hbody
      · cases hbody
      · split at hbody
        · cases hbody
        · obtain ⟨m₂, hcopy, hbody⟩ := (except_bind_eq_ok _ _ _).mp hbody
          cases hbody
          apply setChild_accounts
          exact copyItems_accounts (writeNode_accounts newnode _ h₂) hcopy
    · obtain ⟨⟨newnode, m₁⟩, hnode, hbody⟩ := (except_bind_eq_ok _ _ _).mp hbody
      have h₁ := allocVPNode_accounts env.bufs h
      rw [orFail_eq_ok.mp hnode] at h₁
      obtain ⟨_, _, hbody⟩ := (except_bind_eq_ok _ _ _).mp hbody
      obtain ⟨_, _, hbody⟩ := (except_bind_eq_ok _ _ _).mp hbody
      cases hbody
      apply setChild_accounts
      exact writeNode_accounts newnode _ h₁

theorem buildLoop_accounts {s₀ : BuildState α D} (h : s₀.arena.Accounts env.ok held)
    (hs : (buildLoop env).Reaches s₀ s) : s.arena.Accounts env.ok held := by
  apply reaches_invariant (buildLoop env) (fun s => s.arena.Accounts env.ok held) _ s₀ s h hs
  intro s s' hI hstep
  exact buildBody_accounts hI hstep.2

omit [LinearOrder D] in
/-- A request that is granted. -/
theorem malloc_settled {m : Arena α D} {i : ℕ}
    (h : Settled env.ok arena.requests held arena.freed)
    (hmalloc : orFail (arena.malloc env.ok) = .ok (i, m)) :
    Settled env.ok m.requests (i :: held) m.freed := by
  have hm := orFail_eq_ok.mp hmalloc
  simp only [Arena.malloc, Prod.mk.injEq, Option.ite_none_right_eq_some, Option.some.injEq] at hm
  obtain ⟨⟨hok, rfl⟩, rfl⟩ := hm
  exact h.granted hok

omit [LinearOrder D] in
/-- The two chunks a build starts with; the chains of an earlier tree are gone. -/
theorem initAllocator_accounts {m : Arena α D} (h : Settled env.ok arena.requests held arena.freed)
    (hinit : initAllocator env arena = .ok m) : m.Accounts env.ok held := by
  obtain ⟨⟨nodeChunk, m₁⟩, hnode, hinit⟩ := (except_bind_eq_ok _ _ _).mp hinit
  obtain ⟨⟨listChunk, m₂⟩, hlist, hinit⟩ := (except_bind_eq_ok _ _ _).mp hinit
  cases hinit
  apply (malloc_settled (malloc_settled h hnode) hlist).perm
  calc
    (held ++ [nodeChunk, listChunk]).Perm ([nodeChunk, listChunk] ++ held) :=
      List.perm_append_comm
    (_ : List ℕ).Perm (listChunk :: nodeChunk :: held) := List.Perm.swap _ _ _

omit [LinearOrder D] in
/-- A request that is granted leaves the chains as they are. -/
theorem malloc_accounts {m m' : Arena α D} {i : ℕ} (h : m.Accounts env.ok held)
    (hmalloc : orFail (m.malloc env.ok) = .ok (i, m')) : m'.Accounts env.ok (i :: held) := by
  have hm := orFail_eq_ok.mp hmalloc
  simp only [Arena.malloc, Prod.mk.injEq] at hm
  have hsame : m'.chunks = m.chunks := by
    rw [← hm.2]
    rfl
  show Settled env.ok m'.requests (i :: held ++ m'.chunks) m'.freed
  rw [hsame]
  exact malloc_settled h hmalloc

/-- A build that reports success has freed its two buffers, and holds its chunks. -/
theorem vptBuild_accounts (h : Settled env.ok arena.requests held arena.freed)
    (hbuild : vptBuild env arena data = .ok t) : t.arena.Accounts env.ok held := by
  obtain ⟨m, hinit, hbuild⟩ := (except_bind_eq_ok _ _ _).mp hbuild
  have hm := initAllocator_accounts h hinit
  by_cases hsmall : data.length < vptMaxListSize
  · rw [if_pos hsmall] at hbuild
    obtain ⟨⟨root, m₁⟩, hnode, hbuild⟩ := (except_bind_eq_ok _ _ _).mp hbuild
    obtain ⟨⟨items, m₂⟩, hlist, hbuild⟩ := (except_bind_eq_ok _ _ _).mp hbuild
    cases hbuild
    have h₁ := allocVPNode_accounts env.bufs hm
    rw [orFail_eq_ok.mp hnode] at h₁
    have h₂ := allocVPList_accounts env.bufs vptMaxListSize h₁
    rw [orFail_eq_ok.mp hlist] at h₂
    exact h₂.same rfl rfl rfl
  · rw [if_neg hsmall] at hbuild
    cases data with
    | nil => exact absurd (by decide : 0 < vptMaxListSize) hsmall
    | cons v xs =>
      obtain ⟨r, hr, hbuild⟩ := (except_bind_eq_ok _ _ _).mp hbuild
      obtain ⟨⟨buildBuffer, m₁⟩, hbuffer, hr⟩ := (except_bind_eq_ok _ _ _).mp hr
      obtain ⟨⟨scratchSpace, m₂⟩, hscratch, hr⟩ := (except_bind_eq_ok _ _ _).mp hr
      cases hr
      have h₂ : m₂.Accounts env.ok (scratchSpace :: buildBuffer :: held) :=
        malloc_accounts (malloc_accounts hm hbuffer) hscratch
      obtain ⟨⟨root, s₀⟩, hs₀, hbuild⟩ := (except_bind_eq_ok _ _ _).mp hbuild
      obtain ⟨_, _, hs₀⟩ := (except_bind_eq_ok _ _ _).mp hs₀
      obtain ⟨⟨root', m₃⟩, hnode, hs₀⟩ := (except_bind_eq_ok _ _ _).mp hs₀
      cases hs₀
      have h₃ := allocVPNode_accounts env.bufs h₂
      rw [orFail_eq_ok.mp hnode] at h₃
      obtain ⟨s, hrun, hbuild⟩ := (except_bind_eq_ok _ _ _).mp hbuild
      cases hbuild
      have hloop : s.arena.Accounts env.ok (scratchSpace :: buildBuffer :: held) := by
        apply buildLoop_accounts _ (run_reaches _ _ _ _ hrun)
        exact writeNode_accounts _ _ h₃
      exact hloop.free.free

end Build

section Life

variable {env : BuildEnv α D} {held : List ℕ} {t t' : VPTree α D}

/-- A teardown holds the block it returns, if any, and nothing of the tree. -/
theorem vptTeardown_settled {result : Option (ℕ × List α)} {m : Arena α D}
    (h : t.arena.Accounts env.ok held) (hteardown : vptTeardown env t = .ok (result, m)) :
    Settled env.ok m.requests ((result.map Prod.fst).toList ++ held) m.freed := by
  unfold vptTeardown Arena.malloc at hteardown
  by_cases hr : env.ok t.arena.requests = true
  · simp only [hr, ↓reduceIte] at hteardown
    split at hteardown
    · cases hteardown
    · split at hteardown
      · cases hteardown
      · cases hteardown
        have hm : Arena.Accounts env.ok (t.arena.requests :: held)
            { t.arena with requests := t.arena.requests+1 } := Settled.granted h hr
        exact destroy_settled hm
  · simp only [hr, Bool.false_eq_true, ↓reduceIte] at hteardown
    cases hteardown
    exact destroy_settled (h.denied hr)

theorem rebuildCall_settled {call : BuildCall α D} (h : t.arena.Accounts env.ok held)
    (hcall : rebuildCall env t = .ok call) :
    Settled env.ok call.arena.requests (call.block :: held) call.arena.freed := by
  obtain ⟨⟨result, m⟩, hteardown, hcall⟩ := (except_bind_eq_ok _ _ _).mp hcall
  have hm := vptTeardown_settled h hteardown
  cases result with
  | none => cases hcall
  | some r =>
    dsimp only at hcall
    split at hcall
    · cases hcall
    · cases hcall
      exact hm

/-- The block that `realloc` returns takes the place of the one it was given. -/
theorem addRebuildCall_settled {call : BuildCall α D} {toAdd : List α}
    (h : t.arena.Accounts env.ok held) (hcall : addRebuildCall env t toAdd = .ok call) :
    Settled env.ok call.arena.requests (call.block :: held) call.arena.freed := by
  obtain ⟨first, hfirst, hcall⟩ := (except_bind_eq_ok _ _ _).mp hcall
  obtain ⟨⟨newItems, m⟩, hmalloc, hcall⟩ := (except_bind_eq_ok _ _ _).mp hcall
  cases hcall
  have hboth := malloc_settled (rebuildCall_settled h hfirst) hmalloc
  exact (hboth.perm (List.Perm.swap _ _ _)).release

variable [LinearOrder D]

theorem finish_accounts {call : BuildCall α D}
    (h : Settled env.ok call.arena.requests (call.block :: held) call.arena.freed)
    (hfinish : call.finish env = .ok t) : t.arena.Accounts env.ok held := by
  obtain ⟨t', hbuild, hfinish⟩ := (except_bind_eq_ok _ _ _).mp hfinish
  cases hfinish
  exact (vptBuild_accounts h hbuild).free

omit [LinearOrder D] in
/-- The block of the call is what it holds. -/
theorem LifeOp.call_settled {op : LifeOp α} {call : BuildCall α D}
    (h : t.arena.Accounts env.ok held) (hcall : op.call env t = .ok call) :
    Settled env.ok call.arena.requests (call.block :: held) call.arena.freed := by
  cases op with
  | rebuild => exact rebuildCall_settled h hcall
  | addRebuild toAdd => exact addRebuildCall_settled h hcall

theorem apply_accounts {op : LifeOp α} (h : t.arena.Accounts env.ok held)
    (happly : op.apply env t = .ok t') : t'.arena.Accounts env.ok held := by
  cases op with
  | rebuild =>
    obtain ⟨call, hcall, hfinish⟩ := (except_bind_eq_ok _ _ _).mp happly
    exact finish_accounts (rebuildCall_settled h hcall) hfinish
  | addRebuild toAdd =>
    obtain ⟨call, hcall, hfinish⟩ := (except_bind_eq_ok _ _ _).mp happly
    exact finish_accounts (addRebuildCall_settled h hcall) hfinish

/-- The run lemma. -/
theorem vptLife_accounts (ops : List (LifeOp α)) (h : t.arena.Accounts env.ok held)
    (hlife : vptLife env t ops = .ok t') : t'.arena.Accounts env.ok held := by
  induction ops generalizing t with
  | nil =>
    cases hlife
    exact h
  | cons op ops ih =>
    obtain ⟨t₁, happly, hlife⟩ := (except_bind_eq_ok _ _ _).mp hlife
    exact ih (apply_accounts h happly) hlife

/-- No leak and no double free. After a build and any calls that rebuild the tree,
all reporting success, every block that `malloc` has granted is a chunk of the tree
or was freed, once; so the tree's chunks are live, `VPT_destroy` leaves every block
freed exactly once, and so does a teardown whose result the caller frees. -/
theorem vptLife_frees_once (env : BuildEnv α D) (arena : Arena α D) (data : List α)
    (ops : List (LifeOp α)) (t₀ t : VPTree α D)
    (hstart : Settled env.ok arena.requests [] arena.freed)
    (hbuild : vptBuild env arena data = .ok t₀) (hlife : vptLife env t₀ ops = .ok t) :
    t.arena.Live ∧
      t.arena.destroy.freed.Perm ((List.range t.arena.requests).filter env.ok) ∧
      ∀ block items m, vptTeardown env t = .ok (some (block, items), m) →
        (m.free block).freed.Perm ((List.range m.requests).filter env.ok) := by
  have h : t.arena.Accounts env.ok [] := vptLife_accounts ops (vptBuild_accounts hstart hbuild) hlife
  refine ⟨fun i hi => Settled.live h hi, ?_, ?_⟩
  · have hdestroy := destroy_settled h
    rwa [destroy_eq] at hdestroy ⊢
  · intro block items m hteardown
    exact (vptTeardown_settled h hteardown).release

theorem coupleLife_size :
    ((couples 500).take 800 ++ coupleLife.flatMap LifeOp.supplied).length < sizeT := by
  simp only [coupleLife, List.flatMap_cons, List.flatMap_nil, LifeOp.supplied, List.append_nil,
    List.take_append_drop, length_couples]
  decide

/-- The life of the couples runs. -/
theorem coupleLife_runs :
    ∃ t₀ t, vptBuild coupleEnv .empty ((couples 500).take 800) = .ok t₀ ∧
      vptLife coupleEnv t₀ coupleLife = .ok t ∧
      Intact t ((couples 500).take 800 ++ coupleLife.flatMap LifeOp.supplied) := by
  have hsize := coupleLife_size
  have hok (i : ℕ) : coupleEnv.ok i = true := rfl
  have hdata : ((couples 500).take 800).length < sizeT := by
    rw [List.length_append] at hsize
    omega
  obtain ⟨t₀, hbuild, h₀⟩ := vptBuild_intact .empty hdata hok coupleEnv_bounded
    (coupleLife_inside [] List.nil_prefix _ _ (by rw [List.flatMap_nil, List.append_nil]))
  obtain ⟨t, hlife, h⟩ := vptLife_intact hok coupleEnv_bounded coupleLife h₀ hsize
    (lifeInside_of_perm hok coupleEnv_bounded coupleLife h₀ hsize coupleLife_inside)
  exact ⟨t₀, t, hbuild, hlife, h⟩

theorem vptLife_frees_once_couples :
    ∃ t₀ t, vptBuild coupleEnv .empty ((couples 500).take 800) = .ok t₀ ∧
      vptLife coupleEnv t₀ coupleLife = .ok t ∧ t.arena.Live ∧
      t.arena.destroy.freed.Perm ((List.range t.arena.requests).filter coupleEnv.ok) ∧
      ∀ block items m, vptTeardown coupleEnv t = .ok (some (block, items), m) →
        (m.free block).freed.Perm ((List.range m.requests).filter coupleEnv.ok) := by
  obtain ⟨t₀, t, hbuild, hlife, _⟩ := coupleLife_runs
  exact ⟨t₀, t, hbuild, hlife,
    vptLife_frees_once coupleEnv .empty _ coupleLife t₀ t settled_start hbuild hlife⟩

end Life

end VantagePoint
