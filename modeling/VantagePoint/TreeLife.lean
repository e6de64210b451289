import VantagePoint.BuildMemory
import Mathlib.Data.List.Infix

/-! `VPT_teardown`, `VPT_rebuild` and `VPT_add_rebuild`. A teardown does not follow
child pointers: it walks the chunks of the node allocator, so the nodes handed
out have to be the nodes of the tree. -/
namespace VantagePoint

universe u v

variable {α : Type u} {D : Type v}

section Code

/-- What a teardown takes out of one node slot, `none` if it would read memory
that was never written. -/
def Arena.itemsAt (m : Arena α D) (p : NodePtr) : Option (List α) :=
  match m.nodes p with
  | .branch item _ _ _ => some [item]
  | .pointlist (some l) size _ => m.readItems l size
  | .pointlist none 0 _ => some []
  | _ => none

/-- The loop over the slots of all chunks, in the order of the chain. -/
def Arena.walkItems (m : Arena α D) : List NodePtr → Option (List α)
  | [] => some []
  | p :: ps => (m.itemsAt p).bind fun xs => (m.walkItems ps).map (xs ++ ·)

/-- `VPT_destroy` -/
def Arena.destroy (m : Arena α D) : Arena α D :=
  m.listAllocs.foldl (fun m c => m.free c.id) (m.nodeAllocs.foldl (fun m c => m.free c.id) m)

/-- `VPT_teardown`: the block it returns with the items in it, or `NULL`. The
block has room for `vpt->size` items. -/
def vptTeardown (env : BuildEnv α D) (t : VPTree α D) :
    Except TreeError (Option (ℕ × List α) × Arena α D) :=
  match t.arena.malloc env.ok with
  -- the tree goes even if there is no memory for its items
  | (none, m) => .ok (none, m.destroy)
  | (some allItems, m) =>
    match m.walkItems m.nodeWalk with
    | none => .error .unwritten
    | some items =>
      if items.length > t.size then .error .outOfBounds
      else .ok (some (allItems, items), m.destroy)

/-- A call of `VPT_build` made by a rebuild: the array passed and the block it is
in, and the memory at that moment. -/
structure BuildCall (α : Type u) (D : Type v) where
  block : ℕ
  arena : Arena α D
  data : List α

/-- The first half of `VPT_rebuild`. -/
def rebuildCall (env : BuildEnv α D) (t : VPTree α D) : Except TreeError (BuildCall α D) :=
  (vptTeardown env t).bind fun
    | (none, _) => .error .outOfMemory
    | (some (block, items), m) =>
      -- `VPT_build` is given `size` items, so as many have to be there
      if items.length < t.size then .error .unwritten else .ok ⟨block, m, items⟩

/-- The first half of `VPT_add_rebuild`: the items are put behind the old ones, in
a block that `realloc` returns in place of the one it is given. -/
def addRebuildCall (env : BuildEnv α D) (t : VPTree α D) (toAdd : List α) :
    Except TreeError (BuildCall α D) :=
  (rebuildCall env t).bind fun call =>
    (orFail (call.arena.malloc env.ok)).bind fun (newItems, m) =>
      .ok ⟨newItems, m.free call.block, call.data ++ toAdd⟩

variable [LinearOrder D]

/-- The second half of both. -/
def BuildCall.finish (env : BuildEnv α D) (call : BuildCall α D) : Except TreeError (VPTree α D) :=
  (vptBuild env call.arena call.data).bind fun t =>
    .ok { t with arena := t.arena.free call.block }

/-- `VPT_rebuild` -/
def vptRebuild (env : BuildEnv α D) (t : VPTree α D) : Except TreeError (VPTree α D) :=
  (rebuildCall env t).bind (BuildCall.finish env)

/-- `VPT_add_rebuild` -/
def vptAddRebuild (env : BuildEnv α D) (t : VPTree α D) (toAdd : List α) :
    Except TreeError (VPTree α D) :=
  (addRebuildCall env t toAdd).bind (BuildCall.finish env)

end Code

section Walk

variable {m m' : Arena α D} {p : NodePtr} {xs : List α}

/-- Node `p` is written, and these are its own items. -/
def Arena.Bears (m : Arena α D) (p : NodePtr) (xs : List α) : Prop :=
  (∃ v r lp rp, m.nodes p = .branch v r lp rp ∧ xs = [v]) ∨
    ∃ l capacity, m.nodes p = .pointlist (some l) xs.length capacity ∧ m.Holds l xs

theorem Arena.Bears.itemsAt (h : m.Bears p xs) : m.itemsAt p = some xs := by
  rcases h with ⟨v, r, lp, rp, hcell, rfl⟩ | ⟨l, cap, hcell, hl⟩
  · rw [Arena.itemsAt, hcell]
  · rw [Arena.itemsAt, hcell]
    exact hl.read

theorem Arena.Bears.keeps (h : m.Bears p xs) (hp : p ∈ m.nodeWalk) (hk : m.Keeps m') :
    m'.Bears p xs := by
  have hn := (hk.node p hp).2
  rcases h with ⟨v, r, lp, rp, hcell, rfl⟩ | ⟨l, cap, hcell, hl⟩
  · exact Or.inl ⟨v, r, lp, rp, by rw [hn, hcell], rfl⟩
  · exact Or.inr ⟨l, cap, by rw [hn, hcell], hl.keeps hk⟩

/-- Linking a child changes no node's own items. -/
theorem Arena.Bears.setChild (h : m.Bears p xs) (side : Side) (q c : NodePtr) :
    (m.setChild side q c).Bears p xs := by
  rcases h with ⟨v, r, lp, rp, hcell, rfl⟩ | ⟨l, cap, hcell, hl⟩
  · by_cases hpq : p = q
    · subst hpq
      obtain ⟨⟨lp', rp', hcell'⟩, _⟩ := setChild_nodes_self (c := c) side hcell
      exact Or.inl ⟨v, r, lp', rp', hcell', rfl⟩
    · exact Or.inl ⟨v, r, lp, rp, by rw [setChild_nodes_ne side hpq, hcell], rfl⟩
  · exact Or.inr ⟨l, cap, by rw [setChild_nodes_pointlist side hcell, hcell], setChild_holds side hl⟩

/-- The items of all nodes handed out. -/
def Arena.walked (m : Arena α D) : List α := m.nodeWalk.flatMap fun p => (m.itemsAt p).getD []

/-- Every node handed out is written. -/
def Arena.Written (m : Arena α D) : Prop := ∀ p ∈ m.nodeWalk, ∃ xs, m.Bears p xs

theorem walkItems_eq (ps : List NodePtr) (h : ∀ p ∈ ps, ∃ xs, m.Bears p xs) :
    m.walkItems ps = some (ps.flatMap fun p => (m.itemsAt p).getD []) := by
  -- Induction along the chain: each slot is written, so each has items to give.
  induction ps with
  | nil => rfl
  | cons p ps ih =>
    obtain ⟨xs, hxs⟩ := h p List.mem_cons_self
    rw [Arena.walkItems, hxs.itemsAt, ih fun q hq => h q (List.mem_cons_of_mem _ hq),
      List.flatMap_cons, hxs.itemsAt]
    rfl

/-- One more node: the walk meets it once, and everything else as before. -/
theorem walked_grow {c : NodePtr} {m₁ : Arena α D} (hnode : m.NewNode c m₁)
    (hwalk : m'.nodeWalk = m₁.nodeWalk) (hw : m.Written)
    (hkeep : ∀ p ∈ m.nodeWalk, ∀ xs, m.Bears p xs → m'.Bears p xs) (hc : m'.Bears c xs) :
    m'.Written ∧ m'.walked.Perm (xs ++ m.walked) := by
  obtain ⟨ps, qs, hm, hm₁⟩ := hnode.walk
  have hm' : m'.nodeWalk = ps ++ c :: qs := hwalk.trans hm₁
  have hmem (p : NodePtr) : p ∈ m'.nodeWalk ↔ p = c ∨ p ∈ m.nodeWalk := by
    rw [hwalk]
    exact hnode.mem_walk p
  -- The slots on both sides of the new one give what they gave.
  have hold (p : NodePtr) (hp : p ∈ m.nodeWalk) :
      (m'.itemsAt p).getD [] = (m.itemsAt p).getD [] := by
    obtain ⟨ys, hys⟩ := hw p hp
    rw [hys.itemsAt, (hkeep p hp ys hys).itemsAt]
  constructor
  · intro p hp
    rcases (hmem p).mp hp with rfl | hp
    · exact ⟨xs, hc⟩
    · obtain ⟨ys, hys⟩ := hw p hp
      exact ⟨ys, hkeep p hp ys hys⟩
  · have hps : ps.flatMap (fun p => (m'.itemsAt p).getD []) =
        ps.flatMap fun p => (m.itemsAt p).getD [] := by
      apply List.flatMap_congr
      intro p hp
      exact hold p (by rw [hm]; exact List.mem_append_left _ hp)
    have hqs : qs.flatMap (fun p => (m'.itemsAt p).getD []) =
        qs.flatMap fun p => (m.itemsAt p).getD [] := by
      apply List.flatMap_congr
      intro p hp
      exact hold p (by rw [hm]; exact List.mem_append_right _ hp)
    rw [Arena.walked, Arena.walked, hm, hm', List.flatMap_append, List.flatMap_append,
      List.flatMap_cons, hps, hqs, hc.itemsAt, Option.getD_some]
    exact List.perm_append_comm_assoc _ _ _

/-- Memory with the same nodes handed out has the same walk. -/
theorem walked_same (hm : m'.nodeWalk = m.nodeWalk) (hw : m.Written)
    (hkeep : ∀ p ∈ m.nodeWalk, ∀ xs, m.Bears p xs → m'.Bears p xs) :
    m'.Written ∧ m'.walked = m.walked := by
  constructor
  · intro p hp
    rw [hm] at hp
    obtain ⟨xs, hxs⟩ := hw p hp
    exact ⟨xs, hkeep p hp xs hxs⟩
  · rw [Arena.walked, Arena.walked, hm]
    apply List.flatMap_congr
    intro p hp
    obtain ⟨xs, hxs⟩ := hw p hp
    rw [hxs.itemsAt, (hkeep p hp xs hxs).itemsAt]

theorem Arena.Written.free (hw : m.Written) (id : ℕ) :
    (m.free id).Written ∧ (m.free id).walked = m.walked :=
  walked_same rfl hw fun _ hp _ h => h.keeps hp (Arena.Keeps.free m id)

end Walk

variable [LinearOrder D] {env : BuildEnv α D} {arena : Arena α D} {data : List α}

section Build

/-- The conservation invariant of the main loop: the nodes made so far and the
frames together hold the data. -/
structure BuildState.Conserved (data : List α) (s : BuildState α D) : Prop where
  written : s.arena.Written
  perm : (s.arena.walked ++ s.work.flatMap fun f => s.itemsOf f.2).Perm data

/-- A pass moves the items of one frame to the node it makes and the frames it
leaves. -/
theorem ItemPass.conserved {s s' : BuildState α D} (hbig : env.Bounded) (h : ItemPass env s s')
    (hC : s.Conserved data) : s'.Conserved data := by
  have hperm := hC.perm
  cases h with
  | @list side popped rest _ newnode m₁ m₂ l hpop hnode hlist hshort harena hwork hitems =>
    let xs := s.itemsOf popped
    let mw := (m₂.writeNode newnode (.pointlist (some l) xs.length xs.length)).writeItems l xs
    change s'.arena = mw.setChild side popped.parent newnode at harena
    have hk : s.arena.Keeps mw :=
      (hnode.keeps.trans (hlist.keeps le_rfl)).writeNode hnode.fresh _
    have hwalk : s'.arena.nodeWalk = m₁.nodeWalk := by
      rw [harena, setChild_nodeWalk]
      simp only [mw, Arena.nodeWalk, Arena.writeItems, Arena.writeNode, hlist.nodeAllocs]
    have hkeep (p : NodePtr) (hp : p ∈ s.arena.nodeWalk) (ys : List α)
        (hys : s.arena.Bears p ys) : s'.arena.Bears p ys := by
      rw [harena]
      exact (hys.keeps hp hk).setChild side _ _
    have hbears : s'.arena.Bears newnode xs := by
      rw [harena]
      apply Arena.Bears.setChild
      exact Or.inr ⟨l, xs.length, Function.update_self _ _ _,
        (hlist.holds le_rfl).congr rfl rfl⟩
    obtain ⟨hw, hgrow⟩ := walked_grow hnode hwalk hC.written hkeep hbears
    refine ⟨hw, ?_⟩
    have hrest : (s'.work.flatMap fun f => s'.itemsOf f.2) =
        rest.work.flatMap fun f => s.itemsOf f.2 := by
      rw [hwork]
      exact List.flatMap_congr hitems
    rw [(work_of_pop hpop).1, List.flatMap_cons] at hperm
    rw [hrest]
    calc
      (s'.arena.walked ++ _).Perm (xs ++ s.arena.walked ++ _) := hgrow.append_right _
      (_ : List α).Perm (s.arena.walked ++ (xs ++ _)) := by
        rw [List.append_assoc]
        exact List.perm_append_comm_assoc _ _ _
      (_ : List α).Perm data := hperm
  | @cut side popped fl fr rest _ newnode m₁ v xs c hpop hnode hvx hlong hc hfl hfr harena hwork
      hleft hright hitems =>
    let mw := m₁.writeNode newnode (.branch v c.radius none none)
    change s'.arena = mw.setChild side popped.parent newnode at harena
    have hk : s.arena.Keeps mw := hnode.keeps.writeNode hnode.fresh _
    have hwalk : s'.arena.nodeWalk = m₁.nodeWalk := by
      rw [harena, setChild_nodeWalk]
      rfl
    have hkeep (p : NodePtr) (hp : p ∈ s.arena.nodeWalk) (ys : List α)
        (hys : s.arena.Bears p ys) : s'.arena.Bears p ys := by
      rw [harena]
      exact (hys.keeps hp hk).setChild side _ _
    have hbears : s'.arena.Bears newnode [v] := by
      rw [harena]
      apply Arena.Bears.setChild
      exact Or.inl ⟨v, c.radius, none, none, Function.update_self _ _ _, rfl⟩
    obtain ⟨hw, hgrow⟩ := walked_grow hnode hwalk hC.written hkeep hbears
    refine ⟨hw, ?_⟩
    have hrest : (s'.work.flatMap fun f => s'.itemsOf f.2) =
        c.left ++ (c.right ++ rest.work.flatMap fun f => s.itemsOf f.2) := by
      rw [hwork, List.flatMap_cons, List.flatMap_cons, hleft, hright, List.flatMap_congr hitems]
    -- The vantage point goes to the new node, the rest to the two new frames.
    have hcut := (cutItems_spec (hbig v) hc).1
    rw [(work_of_pop hpop).1, List.flatMap_cons] at hperm
    dsimp only at hperm
    rw [hvx] at hperm
    rw [hrest, ← List.append_assoc c.left]
    calc
      (s'.arena.walked ++ _).Perm ([v] ++ s.arena.walked ++ _) := hgrow.append_right _
      (_ : List α).Perm ([v] ++ s.arena.walked ++ (xs ++ _)) :=
        (hcut.append_right _).append_left _
      (_ : List α).Perm (s.arena.walked ++ ([v] ++ (xs ++ _))) := by
        rw [List.append_assoc]
        exact List.perm_append_comm_assoc _ _ _
      (_ : List α).Perm data := hperm

theorem ItemStart.conserved {root : NodePtr} {v : α} {xs : List α} {c : ItemCut α D}
    {m₁ : Arena α D} {fl fr : VPBuildStackFrame} {s₀ : BuildState α D} (hbig : env.Bounded)
    (h : ItemStart env arena data root v xs c m₁ fl fr s₀) : s₀.Conserved data := by
  have hbears : s₀.arena.Bears root [v] := by
    rw [h.arena_eq]
    exact Or.inl ⟨v, c.radius, none, none, Function.update_self _ _ _, rfl⟩
  have hnone : (initialArena arena 2).Written := fun p hp => absurd hp List.not_mem_nil
  have hwalk : s₀.arena.nodeWalk = m₁.nodeWalk := by
    rw [h.arena_eq]
    rfl
  obtain ⟨hw, hgrow⟩ := walked_grow h.node hwalk hnone
    (fun p hp => absurd hp List.not_mem_nil) hbears
  refine ⟨hw, ?_⟩
  have hcut := (cutItems_spec (fun x => hbig x v) h.cut).1
  rw [h.work, List.flatMap_cons, List.flatMap_cons, List.flatMap_nil, List.append_nil, h.left,
    h.right, h.data_eq]
  exact hgrow.append hcut

end Build

section Life

/-- A tree and the items supplied to it: counted by `size`, reachable from the
root, and met by a walk through the allocator, each the same multiset. -/
structure Intact (t : VPTree α D) (xs : List α) : Prop where
  size : t.size = xs.length
  reachable : ∃ root, t.arena.Represents root t.root ∧ root.items.Perm xs
  written : t.arena.Written
  walked : t.arena.walked.Perm xs

variable {t : VPTree α D} {xs : List α}

omit [LinearOrder D] in
theorem Intact.perm (h : Intact t xs) {ys : List α} (hp : xs.Perm ys) : Intact t ys := by
  obtain ⟨root, hrep, hitems⟩ := h.reachable
  exact ⟨h.size.trans hp.length_eq, ⟨root, hrep, hitems.trans hp⟩, h.written, h.walked.trans hp⟩

omit [LinearOrder D] in
theorem Intact.free (h : Intact t xs) (block : ℕ) :
    Intact { t with arena := t.arena.free block } xs := by
  obtain ⟨root, hrep, hitems⟩ := h.reachable
  obtain ⟨hw, hwalked⟩ := h.written.free block
  refine ⟨h.size, ⟨root, hrep.keeps (Arena.Keeps.free _ _), hitems⟩, hw, ?_⟩
  dsimp only
  rw [hwalked]
  exact h.walked

variable (arena) in
theorem vptSmallBuild_conserved (hok : ∀ i, env.ok i = true)
    (hsmall : data.length < vptMaxListSize) : ∃ t, vptBuild env arena data = .ok t ∧
      t.arena.Written ∧ t.arena.walked.Perm data := by
  obtain ⟨root, m₁, l, m₂, hnode, hnewl, hbuild⟩ := vptSmallBuild_eq arena hok hsmall
  refine ⟨_, hbuild, ?_⟩
  let mw := (m₂.writeNode root
    (.pointlist (some l) data.length vptMaxListSize)).writeItems l data
  change mw.Written ∧ mw.walked.Perm data
  have hbears : mw.Bears root data := Or.inr ⟨l, vptMaxListSize, Function.update_self _ _ _,
    (hnewl.holds hsmall.le).congr rfl rfl⟩
  have hnone : (initialArena arena 0).Written := fun p hp => absurd hp List.not_mem_nil
  have hwalk : mw.nodeWalk = m₁.nodeWalk := by
    simp only [mw, Arena.nodeWalk, Arena.writeItems, Arena.writeNode, hnewl.nodeAllocs]
  obtain ⟨hw, hgrow⟩ := walked_grow hnode hwalk hnone
    (fun p hp => absurd hp List.not_mem_nil) hbears
  refine ⟨hw, hgrow.trans ?_⟩
  exact (List.append_nil data).symm ▸ List.Perm.refl data

variable (arena) in
theorem vptBuild_intact (hsize : data.length < sizeT) (hok : ∀ i, env.ok i = true)
    (hbig : env.Bounded) (hin : SplitsInside env arena data) :
    ∃ t, vptBuild env arena data = .ok t ∧ Intact t data := by
  obtain ⟨t, hbuild, hb⟩ := vptBuild_built arena hsize hok hbig hin
  have hitems := (buildTree_spec hbig data).1
  have hwalk : t.arena.Written ∧ t.arena.walked.Perm data := by
    -- below the threshold the tree is one list node, above it the loop conserves
    rcases Nat.lt_or_ge data.length vptMaxListSize with hsmall | hlarge
    · obtain ⟨t', hbuild', hw⟩ := vptSmallBuild_conserved arena hok hsmall
      obtain rfl : t = t' := Except.ok.inj (hbuild.symm.trans hbuild')
      exact hw
    · obtain ⟨root, s, a, b, hbuild', hwork, _, hC⟩ := vptBuild_run arena hlarge hsize hok hbig hin
        (fun _ s => s.Conserved data) (fun _ _ _ _ _ _ _ _ h => h.conserved hbig)
        (fun _ _ _ _ hC hp => hp.conserved hbig hC)
      obtain rfl := Except.ok.inj (hbuild.symm.trans hbuild')
      obtain ⟨hwa, hea⟩ := hC.written.free a
      obtain ⟨hwb, heb⟩ := hwa.free b
      refine ⟨hwb, ?_⟩
      have hperm := hC.perm
      rw [hwork, List.flatMap_nil, List.append_nil] at hperm
      dsimp only
      rwa [heb, hea]
  exact ⟨t, hbuild, hb.size, ⟨_, hb.represents, hitems⟩, hwalk.1, hwalk.2⟩

omit [LinearOrder D] in
/-- `VPT_teardown` returns the items, exactly as many as `vpt->size`. -/
theorem vptTeardown_intact (hok : ∀ i, env.ok i = true) (h : Intact t xs) :
    ∃ block items m, vptTeardown env t = .ok (some (block, items), m) ∧
      items.length = t.size ∧ items.Perm xs := by
  -- The block for the items is a request of its own and touches no node.
  let m : Arena α D := { t.arena with requests := t.arena.requests+1 }
  have hkeep (p : NodePtr) (hp : p ∈ t.arena.nodeWalk) (ys : List α)
      (hys : t.arena.Bears p ys) : m.Bears p ys :=
    hys.keeps hp ⟨fun _ hq => ⟨hq, rfl⟩, fun _ hl => ⟨hl, rfl⟩⟩
  have hsame : m.Written ∧ m.walked = t.arena.walked := walked_same rfl h.written hkeep
  obtain ⟨hw, hwalked⟩ := hsame
  have hitems : m.walkItems m.nodeWalk = some m.walked := walkItems_eq m.nodeWalk hw
  have hperm : m.walked.Perm xs := by
    rw [hwalked]
    exact h.walked
  have hlen : m.walked.length = t.size := by
    rw [hperm.length_eq, h.size]
  refine ⟨t.arena.requests, m.walked, m.destroy, ?_, hlen, hperm⟩
  have hmalloc : t.arena.malloc env.ok = (some t.arena.requests, m) := by
    rw [Arena.malloc, hok, if_pos rfl]
  rw [vptTeardown, hmalloc]
  dsimp only
  rw [hitems]
  dsimp only
  rw [if_neg (by omega)]

omit [LinearOrder D] in
theorem rebuildCall_intact (hok : ∀ i, env.ok i = true) (h : Intact t xs) :
    ∃ call, rebuildCall env t = .ok call ∧ call.data.Perm xs := by
  obtain ⟨block, items, m, hteardown, hlen, hperm⟩ := vptTeardown_intact hok h
  refine ⟨⟨block, m, items⟩, ?_, hperm⟩
  simp only [rebuildCall, hteardown, Except.bind, hlen, lt_self_iff_false, ↓reduceIte]

omit [LinearOrder D] in
theorem addRebuildCall_intact (hok : ∀ i, env.ok i = true) (h : Intact t xs) (toAdd : List α) :
    ∃ call, addRebuildCall env t toAdd = .ok call ∧ call.data.Perm (xs ++ toAdd) := by
  obtain ⟨call, hcall, hperm⟩ := rebuildCall_intact hok h
  refine ⟨⟨call.arena.requests,
    { call.arena with requests := call.arena.requests+1 }.free call.block,
    call.data ++ toAdd⟩, ?_, hperm.append_right toAdd⟩
  simp only [addRebuildCall, hcall, Except.bind, Arena.malloc, hok, ↓reduceIte, orFail]

theorem finish_intact (hok : ∀ i, env.ok i = true) (hbig : env.Bounded) {call : BuildCall α D}
    (hsize : call.data.length < sizeT) (hin : SplitsInside env call.arena call.data) :
    ∃ t, call.finish env = .ok t ∧ Intact t call.data := by
  obtain ⟨t, hbuild, ht⟩ := vptBuild_intact call.arena hsize hok hbig hin
  refine ⟨_, ?_, ht.free call.block⟩
  simp only [BuildCall.finish, hbuild, Except.bind]

/-- A call in the life of a tree. -/
inductive LifeOp (α : Type u) where
  | rebuild
  | addRebuild (toAdd : List α)

/-- The call of `VPT_build` it makes. -/
def LifeOp.call (env : BuildEnv α D) (t : VPTree α D) : LifeOp α → Except TreeError (BuildCall α D)
  | .rebuild => rebuildCall env t
  | .addRebuild toAdd => addRebuildCall env t toAdd

def LifeOp.apply (env : BuildEnv α D) (t : VPTree α D) : LifeOp α → Except TreeError (VPTree α D)
  | .rebuild => vptRebuild env t
  | .addRebuild toAdd => vptAddRebuild env t toAdd

/-- The items it supplies. -/
def LifeOp.supplied : LifeOp α → List α
  | .rebuild => []
  | .addRebuild toAdd => toAdd

/-- The calls, one after the other. -/
def vptLife (env : BuildEnv α D) (t : VPTree α D) : List (LifeOp α) → Except TreeError (VPTree α D)
  | [] => .ok t
  | op :: ops => (op.apply env t).bind fun t => vptLife env t ops

/-- In every call of `VPT_build` along the way, no scan leaves its list. -/
def LifeInside (env : BuildEnv α D) (t : VPTree α D) : List (LifeOp α) → Prop
  | [] => True
  | op :: ops => (∀ call, op.call env t = .ok call → SplitsInside env call.arena call.data) ∧
    ∀ t', op.apply env t = .ok t' → LifeInside env t' ops

theorem apply_intact (hok : ∀ i, env.ok i = true) (hbig : env.Bounded) (h : Intact t xs)
    (op : LifeOp α) (hsize : (xs ++ op.supplied).length < sizeT)
    (hin : ∀ call, op.call env t = .ok call → SplitsInside env call.arena call.data) :
    ∃ t', op.apply env t = .ok t' ∧ Intact t' (xs ++ op.supplied) := by
  -- Both calls end in a build of what the teardown returned, with more behind it.
  have hcall : ∃ call, op.call env t = .ok call ∧ call.data.Perm (xs ++ op.supplied) ∧
      op.apply env t = call.finish env := by
    cases op with
    | rebuild =>
      obtain ⟨call, hc, hp⟩ := rebuildCall_intact hok h
      refine ⟨call, hc, by rwa [LifeOp.supplied, List.append_nil], ?_⟩
      simp only [LifeOp.apply, vptRebuild, hc, Except.bind]
    | addRebuild toAdd =>
      obtain ⟨call, hc, hp⟩ := addRebuildCall_intact hok h toAdd
      refine ⟨call, hc, hp, ?_⟩
      simp only [LifeOp.apply, vptAddRebuild, hc, Except.bind]
  obtain ⟨call, hc, hp, happly⟩ := hcall
  rw [← hp.length_eq] at hsize
  obtain ⟨t', hfinish, ht'⟩ := finish_intact hok hbig hsize (hin call hc)
  exact ⟨t', by rw [happly, hfinish], ht'.perm hp⟩

/-- The run lemma for the life of a tree. -/
theorem vptLife_intact (hok : ∀ i, env.ok i = true) (hbig : env.Bounded) (ops : List (LifeOp α))
    (h : Intact t xs) (hsize : (xs ++ ops.flatMap LifeOp.supplied).length < sizeT)
    (hin : LifeInside env t ops) :
    ∃ t', vptLife env t ops = .ok t' ∧ Intact t' (xs ++ ops.flatMap LifeOp.supplied) := by
  -- Induction on the calls, with the tree that each one leaves.
  induction ops generalizing t xs with
  | nil => exact ⟨t, rfl, by rwa [List.flatMap_nil, List.append_nil]⟩
  | cons op ops ih =>
    rw [List.flatMap_cons, ← List.append_assoc] at hsize ⊢
    have hop : (xs ++ op.supplied).length < sizeT := by
      rw [List.length_append] at hsize
      omega
    obtain ⟨t₁, happly, h₁⟩ := apply_intact hok hbig h op hop hin.1
    obtain ⟨t', hlife, h'⟩ := ih h₁ hsize (hin.2 t₁ happly)
    refine ⟨t', ?_, h'⟩
    simp only [vptLife, happly, Except.bind, hlife]

/-- No scan leaves its list in a life whose builds never do that, whatever the
order in which a teardown has left the items supplied so far. -/
theorem lifeInside_of_perm (hok : ∀ i, env.ok i = true) (hbig : env.Bounded)
    (ops : List (LifeOp α)) (h : Intact t xs)
    (hsize : (xs ++ ops.flatMap LifeOp.supplied).length < sizeT)
    (hin : ∀ done, done <+: ops → ∀ (m : Arena α D) (ys : List α),
      ys.Perm (xs ++ done.flatMap LifeOp.supplied) → SplitsInside env m ys) :
    LifeInside env t ops := by
  induction ops generalizing t xs with
  | nil => trivial
  | cons op ops ih =>
    rw [List.flatMap_cons, ← List.append_assoc] at hsize
    have hop : (xs ++ op.supplied).length < sizeT := by
      rw [List.length_append] at hsize
      omega
    -- The teardown may return the items in any order, which is what `hin` allows for.
    have hfirst (call : BuildCall α D) (hcall : op.call env t = .ok call) :
        SplitsInside env call.arena call.data := by
      have hp : call.data.Perm (xs ++ op.supplied) := by
        cases op with
        | rebuild =>
          obtain ⟨call', hc, hp⟩ := rebuildCall_intact hok h
          obtain rfl : call = call' := Except.ok.inj (hcall.symm.trans hc)
          rwa [LifeOp.supplied, List.append_nil]
        | addRebuild toAdd =>
          obtain ⟨call', hc, hp⟩ := addRebuildCall_intact hok h toAdd
          obtain rfl : call = call' := Except.ok.inj (hcall.symm.trans hc)
          exact hp
      apply hin [op] (List.prefix_cons_inj op |>.mpr List.nil_prefix) call.arena call.data
      rwa [List.flatMap_singleton]
    refine ⟨hfirst, ?_⟩
    intro t' happly
    obtain ⟨t₁, happly', h₁⟩ := apply_intact hok hbig h op hop hfirst
    obtain rfl : t' = t₁ := Except.ok.inj (happly.symm.trans happly')
    apply ih h₁ hsize
    intro done hdone m ys hys
    apply hin (op :: done) ((List.prefix_cons_inj op).mpr hdone) m ys
    rwa [List.flatMap_cons, ← List.append_assoc]

/-- No item is lost, invented or duplicated over the life of a tree: after a
build and any calls that rebuild it, with memory found and no scan leaving its
list, `vpt->size`, the items reachable from the root and what a teardown would
return are all the items supplied so far. -/
theorem vptLife_conserves (env : BuildEnv α D) (arena : Arena α D) (data : List α)
    (ops : List (LifeOp α)) (hsize : (data ++ ops.flatMap LifeOp.supplied).length < sizeT)
    (hok : ∀ i, env.ok i = true) (hbig : env.Bounded) (hin : SplitsInside env arena data)
    (hins : ∀ t, vptBuild env arena data = .ok t → LifeInside env t ops) :
    ∃ t₀ t, vptBuild env arena data = .ok t₀ ∧ vptLife env t₀ ops = .ok t ∧
      t.size = (data ++ ops.flatMap LifeOp.supplied).length ∧
      (∃ root, t.arena.Represents root t.root ∧
        root.items.Perm (data ++ ops.flatMap LifeOp.supplied)) ∧
      ∃ block items m, vptTeardown env t = .ok (some (block, items), m) ∧
        items.length = t.size ∧ items.Perm (data ++ ops.flatMap LifeOp.supplied) := by
  have hdata : data.length < sizeT := by
    rw [List.length_append] at hsize
    omega
  obtain ⟨t₀, hbuild, h₀⟩ := vptBuild_intact arena hdata hok hbig hin
  obtain ⟨t, hlife, h⟩ := vptLife_intact hok hbig ops h₀ hsize (hins t₀ hbuild)
  exact ⟨t₀, t, hbuild, hlife, h.size, h.reachable, vptTeardown_intact hok h⟩

/-- Two hundred guests join eight hundred, and the tree is rebuilt once more. -/
def coupleLife : List (LifeOp Guest) := [.addRebuild ((couples 500).drop 800), .rebuild]

theorem coupleLife_inside (done : List (LifeOp Guest)) (hdone : done <+: coupleLife)
    (m : Arena Guest ℤ) (ys : List Guest)
    (hys : ys.Perm ((couples 500).take 800 ++ done.flatMap LifeOp.supplied)) :
    SplitsInside coupleEnv m ys := by
  have hlen := hys.length_eq
  rcases List.prefix_cons_iff.mp hdone with rfl | ⟨rest, rfl, hrest⟩
  · -- 800 guests are a single list
    rw [List.flatMap_nil, List.append_nil, List.length_take, length_couples] at hlen
    exact splitsInside_of_short (by rw [hlen]; decide)
  · have hnone : rest.flatMap LifeOp.supplied = [] := by
      rcases List.prefix_cons_iff.mp hrest with rfl | ⟨rest', rfl, hrest'⟩
      · rfl
      · rw [List.prefix_nil.mp hrest']
        rfl
    rw [List.flatMap_cons, hnone, List.append_nil, LifeOp.supplied, List.take_append_drop] at hys
    apply splitsInside_paired m ((paired_couples 500).perm hys.symm)
    rw [hys.length_eq, length_couples]
    decide

/-- A tree of 800 guests, a single list, becomes one of 1000 and is rebuilt. -/
theorem vptLife_conserves_couples :
    ∃ t₀ t, vptBuild coupleEnv .empty ((couples 500).take 800) = .ok t₀ ∧
      vptLife coupleEnv t₀ coupleLife = .ok t ∧
      t.size = ((couples 500).take 800 ++ coupleLife.flatMap LifeOp.supplied).length ∧
      (∃ root, t.arena.Represents root t.root ∧
        root.items.Perm ((couples 500).take 800 ++ coupleLife.flatMap LifeOp.supplied)) ∧
      ∃ block items m, vptTeardown coupleEnv t = .ok (some (block, items), m) ∧
        items.length = t.size ∧
        items.Perm ((couples 500).take 800 ++ coupleLife.flatMap LifeOp.supplied) := by
  have hsize : ((couples 500).take 800 ++ coupleLife.flatMap LifeOp.supplied).length < sizeT := by
    simp only [coupleLife, List.flatMap_cons, List.flatMap_nil, LifeOp.supplied, List.append_nil,
      List.take_append_drop, length_couples]
    decide
  have hok (i : ℕ) : coupleEnv.ok i = true := rfl
  have hin : SplitsInside coupleEnv .empty ((couples 500).take 800) :=
    coupleLife_inside [] List.nil_prefix _ _ (by rw [List.flatMap_nil, List.append_nil])
  apply vptLife_conserves coupleEnv .empty _ coupleLife hsize hok coupleEnv_bounded hin
  intro t ht
  have hdata : ((couples 500).take 800).length < sizeT := by
    rw [List.length_append] at hsize
    omega
  obtain ⟨t', hbuild, h⟩ := vptBuild_intact .empty hdata hok coupleEnv_bounded hin
  obtain rfl : t = t' := Except.ok.inj (ht.symm.trans hbuild)
  exact lifeInside_of_perm hok coupleEnv_bounded coupleLife h hsize coupleLife_inside

end Life

end VantagePoint
