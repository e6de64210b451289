import VantagePoint.BuildLoop

/-! The tree `VPT_build` leaves in memory is the one `buildTree` describes. While
the loop runs, a child that is not linked yet is read off the stacks: its frame
says which node it is going to be. -/
namespace VantagePoint
open WhileLoop

universe u v

variable {α : Type u} {D : Type v}

/-- Node `p` is the root of `t` in memory, every child pointer set. -/
def Arena.Represents (m : Arena α D) : VPNode α D → NodePtr → Prop
  | .branch item radius left right, p => p ∈ m.nodeWalk ∧ ∃ lp rp,
    m.nodes p = .branch item radius (some lp) (some rp) ∧ m.Represents left lp ∧
      m.Represents right rp
  | .pointlist items, p => p ∈ m.nodeWalk ∧ ∃ l capacity,
    m.nodes p = .pointlist (some l) items.length capacity ∧ m.Holds l items

theorem Arena.Represents.keeps {m m' : Arena α D} (hk : m.Keeps m') {t : VPNode α D} {p : NodePtr}
    (h : m.Represents t p) : m'.Represents t p := by
  induction t generalizing p with
  | pointlist xs =>
    obtain ⟨hp, l, cap, hcell, hl⟩ := h
    obtain ⟨hp', hn⟩ := hk.node p hp
    exact ⟨hp', l, cap, hn.trans hcell, hl.keeps hk⟩
  | branch v r left right ihl ihr =>
    obtain ⟨hp, lp, rp, hcell, hl, hr⟩ := h
    obtain ⟨hp', hn⟩ := hk.node p hp
    exact ⟨hp', lp, rp, hn.trans hcell, ihl hl, ihr hr⟩

/-- The child pointer of a branch on one side. -/
def VPNodeCell.link : VPNodeCell α D → Side → Option NodePtr
  | .branch _ _ left _, .left => left
  | .branch _ _ _ right, .right => right
  | _, _ => none

/-- Children still to be built: the side, the parent and the tree it will be. -/
abbrev Pending (α : Type u) (D : Type v) := List (Side × NodePtr × VPNode α D)

/-- The child of `p` on one side is `t`: pending, or linked to a node in `S`. -/
def ChildSpelled (pend : Pending α D) (p : NodePtr) (side : Side) (link : Option NodePtr)
    (t : VPNode α D) (S : NodePtr → Prop) : Prop :=
  (side, p, t) ∈ pend ∨ ((∀ u, (side, p, u) ∉ pend) ∧ ∃ c, link = some c ∧ S c)

/-- `Represents`, with the pending children taken as built, and list nodes that
fit the buffers of the searches. -/
def Arena.Spells (m : Arena α D) (pend : Pending α D) : VPNode α D → NodePtr → Prop
  | .branch item radius left right, p => p ∈ m.nodeWalk ∧
    (∃ lp rp, m.nodes p = .branch item radius lp rp) ∧
    ChildSpelled pend p .left ((m.nodes p).link .left) left (m.Spells pend left) ∧
    ChildSpelled pend p .right ((m.nodes p).link .right) right (m.Spells pend right)
  | .pointlist items, p => p ∈ m.nodeWalk ∧ items.length < vptMaxListSize ∧ ∃ l capacity,
    m.nodes p = .pointlist (some l) items.length capacity ∧ m.Holds l items

section Spells

variable {m m' : Arena α D} {pend pend' : Pending α D}

theorem ChildSpelled.imp {p : NodePtr} {side : Side} {link : Option NodePtr} {t : VPNode α D}
    {S S' : NodePtr → Prop} (h : ChildSpelled pend p side link t S)
    (hpend : ∀ u, (side, p, u) ∈ pend ↔ (side, p, u) ∈ pend') (hS : ∀ c, S c → S' c) :
    ChildSpelled pend' p side link t S' := by
  rcases h with hmem | ⟨hnone, c, hc, hSc⟩
  · exact Or.inl ((hpend t).mp hmem)
  · exact Or.inr ⟨fun u hu => hnone u ((hpend u).mpr hu), c, hc, hS c hSc⟩

theorem Arena.Spells.mem_walk {t : VPNode α D} {p : NodePtr} (h : m.Spells pend t p) :
    p ∈ m.nodeWalk := by
  cases t with
  | pointlist xs => exact h.1
  | branch v r left right => exact h.1

/-- Memory that keeps what is handed out keeps the tree, and entries for nodes
that are not handed out can be added to the pending ones. -/
theorem Arena.Spells.mono (hk : m.Keeps m')
    (hpend : ∀ p ∈ m.nodeWalk, ∀ side u, (side, p, u) ∈ pend ↔ (side, p, u) ∈ pend')
    {t : VPNode α D} {p : NodePtr} (h : m.Spells pend t p) : m'.Spells pend' t p := by
  induction t generalizing p with
  | pointlist xs =>
    obtain ⟨hp, hlen, l, cap, hcell, hl⟩ := h
    obtain ⟨hp', hn⟩ := hk.node p hp
    exact ⟨hp', hlen, l, cap, hn.trans hcell, hl.keeps hk⟩
  | branch v r left right ihl ihr =>
    obtain ⟨hp, hcell, hl, hr⟩ := h
    obtain ⟨hp', hn⟩ := hk.node p hp
    refine ⟨hp', by rwa [hn], ?_, ?_⟩
    · rw [hn]
      exact hl.imp (hpend p hp .left) fun c hc => ihl hc
    · rw [hn]
      exact hr.imp (hpend p hp .right) fun c hc => ihr hc

theorem setChild_nodes_ne (side : Side) {q c p : NodePtr} (h : p ≠ q) :
    (m.setChild side q c).nodes p = m.nodes p := by
  unfold Arena.setChild
  split
  · exact Function.update_of_ne h _ _
  · exact Function.update_of_ne h _ _
  · rfl

theorem setChild_nodes_self (side : Side) {q c : NodePtr} {v : α} {r : D}
    {lp rp : Option NodePtr} (h : m.nodes q = .branch v r lp rp) :
    (∃ lp' rp', (m.setChild side q c).nodes q = .branch v r lp' rp') ∧
      ((m.setChild side q c).nodes q).link side = some c ∧
      ∀ side', side' ≠ side → ((m.setChild side q c).nodes q).link side' = (m.nodes q).link side' := by
  have hself (cell : VPNodeCell α D) : (m.writeNode q cell).nodes q = cell :=
    Function.update_self _ _ _
  cases side with
  | left =>
    have hset : m.setChild .left q c = m.writeNode q (.branch v r (some c) rp) := by
      simp only [Arena.setChild, h]
    rw [hset, hself, h]
    refine ⟨⟨_, _, rfl⟩, rfl, ?_⟩
    intro side' hne
    cases side' with
    | left => exact absurd rfl hne
    | right => rfl
  | right =>
    have hset : m.setChild .right q c = m.writeNode q (.branch v r lp (some c)) := by
      simp only [Arena.setChild, h]
    rw [hset, hself, h]
    refine ⟨⟨_, _, rfl⟩, rfl, ?_⟩
    intro side' hne
    cases side' with
    | left => rfl
    | right => exact absurd rfl hne

theorem setChild_holds (side : Side) {q c : NodePtr} {l : ListPtr} {xs : List α}
    (h : m.Holds l xs) : (m.setChild side q c).Holds l xs := by
  obtain ⟨_, hallocs, _, hlists⟩ := setChild_allocs m side q c
  exact h.congr hallocs hlists

theorem setChild_nodeWalk (side : Side) (q c : NodePtr) :
    (m.setChild side q c).nodeWalk = m.nodeWalk := by
  rw [Arena.nodeWalk, (setChild_allocs m side q c).1, Arena.nodeWalk]

theorem setChild_nodes_pointlist (side : Side) {q c p : NodePtr} {l : Option ListPtr} {n k : ℕ}
    (h : m.nodes p = .pointlist l n k) : (m.setChild side q c).nodes p = m.nodes p := by
  by_cases hpq : p = q
  · subst hpq
    simp only [Arena.setChild, h]
  · exact setChild_nodes_ne side hpq

/-- Linking the pending child of `q` to a node that spells it. -/
theorem Arena.Spells.setChild {side : Side} {q c : NodePtr} {t₀ : VPNode α D}
    (hkey : ∀ u, (side, q, u) ∉ pend) (hc : (m.setChild side q c).Spells pend t₀ c)
    {t : VPNode α D} {p : NodePtr} (h : m.Spells ((side, q, t₀) :: pend) t p) :
    (m.setChild side q c).Spells pend t p := by
  -- a child other than the linked one is pending or linked as before
  have hother (p : NodePtr) (side' : Side) (hne : (side', p) ≠ (side, q)) (u : VPNode α D) :
      (side', p, u) ∈ (side, q, t₀) :: pend ↔ (side', p, u) ∈ pend := by
    rw [List.mem_cons]
    constructor
    · rintro (heq | hmem)
      · obtain ⟨hs, hpu⟩ := Prod.mk.inj heq
        obtain ⟨hp, _⟩ := Prod.mk.inj hpu
        exact absurd (by rw [hs, hp]) hne
      · exact hmem
    · exact Or.inr
  induction t generalizing p with
  | pointlist xs =>
    obtain ⟨hp, hlen, l, cap, hcell, hl⟩ := h
    refine ⟨by rwa [setChild_nodeWalk], hlen, l, cap, ?_, setChild_holds side hl⟩
    rw [setChild_nodes_pointlist side hcell, hcell]
  | branch v r left right ihl ihr =>
    obtain ⟨hp, ⟨lp, rp, hcell⟩, hl, hr⟩ := h
    have hwalk : p ∈ (m.setChild side q c).nodeWalk := by rwa [setChild_nodeWalk]
    -- Only the cell of `q` has changed.
    by_cases hpq : p = q
    · subst hpq
      obtain ⟨hbranch, hlink, hlinks⟩ := setChild_nodes_self (c := c) side hcell
      -- At `q` itself one child is the one just linked, the other is as before.
      have hchild (side' : Side) (t : VPNode α D) (S : NodePtr → Prop)
          (hS : ∀ c', S c' → (m.setChild side p c).Spells pend t c')
          (h : ChildSpelled ((side, p, t₀) :: pend) p side' ((m.nodes p).link side') t S) :
          ChildSpelled pend p side' (((m.setChild side p c).nodes p).link side') t
            ((m.setChild side p c).Spells pend t) := by
        by_cases hs : side' = side
        · subst hs
          rw [hlink]
          rcases h with hmem | ⟨hnone, _⟩
          · rcases List.mem_cons.mp hmem with heq | hmem
            · obtain rfl : t = t₀ := (Prod.mk.inj (Prod.mk.inj heq).2).2
              exact Or.inr ⟨hkey, c, rfl, hc⟩
            · exact absurd hmem (hkey t)
          · exact absurd List.mem_cons_self (hnone t₀)
        · rw [hlinks side' hs]
          exact h.imp (hother p side' fun he => hs (Prod.mk.inj he).1) hS
      exact ⟨hwalk, hbranch, hchild .left left _ (fun c' hc' => ihl hc') hl,
        hchild .right right _ (fun c' hc' => ihr hc') hr⟩
    · have hn := setChild_nodes_ne (m := m) (c := c) side hpq
      have hne (side' : Side) : (side', p) ≠ (side, q) := fun he => hpq (Prod.mk.inj he).2
      refine ⟨hwalk, ⟨lp, rp, by rw [hn, hcell]⟩, ?_, ?_⟩
      · rw [hn]
        exact hl.imp (hother p .left (hne .left)) fun c' hc' => ihl hc'
      · rw [hn]
        exact hr.imp (hother p .right (hne .right)) fun c' hc' => ihr hc'

/-- With nothing pending, the tree is there. -/
theorem Arena.Spells.represents {t : VPNode α D} {p : NodePtr} (h : m.Spells [] t p) :
    m.Represents t p ∧ t.ListsBelow vptMaxListSize := by
  induction t generalizing p with
  | pointlist xs =>
    obtain ⟨hp, hlen, l, cap, hcell, hl⟩ := h
    exact ⟨⟨hp, l, cap, hcell, hl⟩, hlen⟩
  | branch v r left right ihl ihr =>
    obtain ⟨hp, ⟨lp, rp, hcell⟩, hl, hr⟩ := h
    rw [hcell] at hl hr
    rcases hl with hmem | ⟨_, cl, hcl, hl⟩
    · exact absurd hmem List.not_mem_nil
    · rcases hr with hmem | ⟨_, cr, hcr, hr⟩
      · exact absurd hmem List.not_mem_nil
      · obtain ⟨hl', hbl⟩ := ihl hl
        obtain ⟨hr', hbr⟩ := ihr hr
        refine ⟨⟨hp, cl, cr, ?_, hl', hr'⟩, hbl, hbr⟩
        change lp = some cl at hcl
        change rp = some cr at hcr
        rw [hcell, hcl, hcr]

end Spells

variable [LinearOrder D] {env : BuildEnv α D}

def BuildState.pending (env : BuildEnv α D) (s : BuildState α D) : Pending α D :=
  s.work.map fun f => (f.1, f.2.parent, buildItems env (s.itemsOf f.2))

/-- The invariant of the main loop: the nodes built so far, with the pending
children as `buildItems` will make them, are the tree `t`. -/
structure BuildState.Laid (env : BuildEnv α D) (t : VPNode α D) (root : NodePtr)
    (s : BuildState α D) : Prop where
  spells : s.arena.Spells (s.pending env) t root
  keys : (s.work.map fun f => (f.1, f.2.parent)).Nodup
  parents : ∀ f ∈ s.work, f.2.parent ∈ s.arena.nodeWalk

section Pass

variable {s s' rest : BuildState α D} {t : VPNode α D} {root : NodePtr}

theorem pending_congr {w : List (Side × VPBuildStackFrame)}
    (h : ∀ f ∈ w, s'.itemsOf f.2 = s.itemsOf f.2) :
    (w.map fun f => (f.1, f.2.parent, buildItems env (s'.itemsOf f.2))) =
      w.map fun f => (f.1, f.2.parent, buildItems env (s.itemsOf f.2)) := by
  apply List.map_congr_left
  intro f hf
  rw [h f hf]

omit [LinearOrder D] in
/-- Writing a fresh node `c` and linking it as the child that was pending. -/
theorem Arena.Spells.grow {m mw : Arena α D} {pend pend' : Pending α D} {side : Side}
    {q c : NodePtr} {t₀ : VPNode α D} (h : m.Spells ((side, q, t₀) :: pend) t root)
    (hk : m.Keeps mw)
    (hextra : ∀ p ∈ m.nodeWalk, ∀ side u, (side, p, u) ∈ pend ↔ (side, p, u) ∈ pend')
    (hkey : ∀ u, (side, q, u) ∉ pend') (hc : (mw.setChild side q c).Spells pend' t₀ c) :
    (mw.setChild side q c).Spells pend' t root := by
  apply Arena.Spells.setChild hkey hc
  apply h.mono hk
  intro p hp side' u
  rw [List.mem_cons, List.mem_cons, hextra p hp]

theorem ItemPass.laid (h : ItemPass env s s') (hL : s.Laid env t root) : s'.Laid env t root := by
  cases h with
  | @list side popped rest _ newnode m₁ m₂ l hpop hnode hlist hshort harena hwork hitems =>
    have hs := (work_of_pop hpop).1
    have hkeys := hL.keys
    have hparents := hL.parents
    have hspells := hL.spells
    rw [hs, List.map_cons, List.nodup_cons] at hkeys
    rw [hs] at hparents
    rw [BuildState.pending, hs, List.map_cons] at hspells
    dsimp only at hkeys hspells
    rw [buildItems_of_short hshort] at hspells
    let xs := s.itemsOf popped
    let mw := (m₂.writeNode newnode (.pointlist (some l) xs.length xs.length)).writeItems l xs
    change s'.arena = mw.setChild side popped.parent newnode at harena
    have hk : s.arena.Keeps mw :=
      (hnode.keeps.trans (hlist.keeps le_rfl)).writeNode hnode.fresh _
    have hcell : mw.nodes newnode = .pointlist (some l) xs.length xs.length :=
      Function.update_self _ _ _
    have hin : newnode ∈ mw.nodeWalk :=
      ((hlist.keeps le_rfl).node newnode ((hnode.mem_walk newnode).mpr (Or.inl rfl))).1
    refine ⟨?_, by rw [hwork]; exact hkeys.2, ?_⟩
    · rw [BuildState.pending, hwork, pending_congr hitems, harena]
      apply hspells.grow hk (fun _ _ _ _ => Iff.rfl)
      · -- no other frame is for this child
        intro u hu
        obtain ⟨f, hf, heq⟩ := List.mem_map.mp hu
        obtain ⟨h1, h2⟩ := Prod.mk.inj heq
        exact hkeys.1 (List.mem_map.mpr ⟨f, hf, by rw [h1, (Prod.mk.inj h2).1]⟩)
      · refine ⟨by rwa [setChild_nodeWalk], ?_, l, xs.length, ?_,
          setChild_holds side ((hlist.holds le_rfl).congr rfl rfl)⟩
        · exact hshort.trans (by decide)
        · rw [setChild_nodes_pointlist side hcell, hcell]
    · intro f hf
      rw [hwork] at hf
      rw [harena, setChild_nodeWalk]
      exact (hk.node _ (hparents f (List.mem_cons_of_mem _ hf))).1
  | @cut side popped fl fr rest _ newnode m₁ v xs c hpop hnode hvx hlong hc hfl hfr harena hwork
      hleft hright hitems =>
    have hs := (work_of_pop hpop).1
    have hkeys := hL.keys
    have hparents := hL.parents
    have hspells := hL.spells
    rw [hs, List.map_cons, List.nodup_cons] at hkeys
    rw [hs] at hparents
    rw [BuildState.pending, hs, List.map_cons] at hspells
    dsimp only at hkeys hspells
    rw [hvx, buildItems_of_cut hlong hc] at hspells
    let mw := m₁.writeNode newnode (.branch v c.radius none none)
    change s'.arena = mw.setChild side popped.parent newnode at harena
    have hk : s.arena.Keeps mw := hnode.keeps.writeNode hnode.fresh _
    have hcell : mw.nodes newnode = .branch v c.radius none none := Function.update_self _ _ _
    have hin : newnode ∈ mw.nodeWalk := (hnode.mem_walk newnode).mpr (Or.inl rfl)
    -- The parent was handed out earlier, so linking leaves the new node alone.
    have hne : newnode ≠ popped.parent := fun he =>
      hnode.fresh (he ▸ hparents (side, popped) List.mem_cons_self)
    have hpend : s'.pending env = (.left, newnode, buildItems env c.left) ::
        (.right, newnode, buildItems env c.right) ::
          rest.work.map fun f => (f.1, f.2.parent, buildItems env (s.itemsOf f.2)) := by
      rw [BuildState.pending, hwork, List.map_cons, List.map_cons, pending_congr hitems, hfl, hfr,
        hleft, hright]
    -- the parents of older frames were handed out before the new node was
    have hold (side' : Side) (f : Side × VPBuildStackFrame) (hf : f ∈ rest.work) :
        (f.1, f.2.parent) ≠ (side', newnode) := by
      intro he
      have hp := hparents f (List.mem_cons_of_mem _ hf)
      rw [(Prod.mk.inj he).2] at hp
      exact hnode.fresh hp
    refine ⟨?_, ?_, ?_⟩
    · rw [hpend, harena]
      apply hspells.grow hk
      · intro p hp side' u
        have hpn : p ≠ newnode := fun he => hnode.fresh (he ▸ hp)
        simp only [List.mem_cons, Prod.mk.injEq, hpn, false_and, and_false, false_or]
      · intro u hu
        simp only [List.mem_cons, Prod.mk.injEq, hne.symm, false_and, and_false, false_or] at hu
        obtain ⟨f, hf, heq⟩ := List.mem_map.mp hu
        obtain ⟨h1, h2⟩ := Prod.mk.inj heq
        exact hkeys.1 (List.mem_map.mpr ⟨f, hf, by rw [h1, (Prod.mk.inj h2).1]⟩)
      · have hn := setChild_nodes_ne (m := mw) (c := newnode) side hne
        refine ⟨by rwa [setChild_nodeWalk], ⟨none, none, by rw [hn, hcell]⟩, ?_, ?_⟩
        · exact Or.inl List.mem_cons_self
        · exact Or.inl (List.mem_cons_of_mem _ List.mem_cons_self)
    · rw [hwork, List.map_cons, List.map_cons, List.nodup_cons, List.nodup_cons]
      dsimp only
      rw [hfl, hfr]
      refine ⟨?_, ?_, hkeys.2⟩
      · intro hmem
        rcases List.mem_cons.mp hmem with heq | hmem
        · cases heq
        · obtain ⟨f, hf, heq⟩ := List.mem_map.mp hmem
          exact hold _ f hf heq
      · intro hmem
        obtain ⟨f, hf, heq⟩ := List.mem_map.mp hmem
        exact hold _ f hf heq
    · intro f hf
      rw [hwork] at hf
      rw [harena, setChild_nodeWalk]
      rcases List.mem_cons.mp hf with rfl | hf
      · dsimp only
        rwa [hfl]
      · rcases List.mem_cons.mp hf with rfl | hf
        · dsimp only
          rwa [hfr]
        · exact (hk.node _ (hparents f (List.mem_cons_of_mem _ hf))).1

end Pass

section Build

variable {arena : Arena α D} {data : List α}

theorem ItemStart.laid {root : NodePtr} {v : α} {xs : List α} {c : ItemCut α D} {m₁ : Arena α D}
    {fl fr : VPBuildStackFrame} {s₀ : BuildState α D}
    (h : ItemStart env arena data root v xs c m₁ fl fr s₀)
    (hlarge : vptMaxListSize ≤ data.length) : s₀.Laid env (buildTree env data) root := by
  have hin : root ∈ s₀.arena.nodeWalk := by
    rw [h.arena_eq]
    exact (h.node.mem_walk root).mpr (Or.inl rfl)
  have hcell : s₀.arena.nodes root = .branch v c.radius none none := by
    rw [h.arena_eq]
    exact Function.update_self _ _ _
  have hpend : s₀.pending env = [(.left, root, buildItems env c.left),
      (.right, root, buildItems env c.right)] := by
    rw [BuildState.pending, h.work, List.map_cons, List.map_cons, List.map_nil, h.parents.1,
      h.parents.2, h.left, h.right]
  have hlong := hlarge
  rw [h.data_eq] at hlong
  rw [h.data_eq, buildTree_of_cut hlong h.cut]
  refine ⟨?_, ?_, ?_⟩
  · rw [hpend]
    exact ⟨hin, ⟨none, none, hcell⟩, Or.inl List.mem_cons_self,
      Or.inl (List.mem_cons_of_mem _ List.mem_cons_self)⟩
  · rw [h.work, List.map_cons, List.map_cons, List.map_nil, h.parents.1, h.parents.2]
    simp
  · intro f hf
    rw [h.work] at hf
    rcases List.mem_cons.mp hf with rfl | hf
    · dsimp only
      rwa [h.parents.1]
    · rw [List.mem_singleton.mp hf]
      dsimp only
      rwa [h.parents.2]

/-- What a build leaves behind when it succeeds. -/
structure Built (env : BuildEnv α D) (data : List α) (t : VPTree α D) : Prop where
  size : t.size = data.length
  represents : t.arena.Represents (buildTree env data) t.root
  lists : (buildTree env data).ListsBelow vptMaxListSize

variable (arena) in
theorem vptSmallBuild_eq (hok : ∀ i, env.ok i = true) (hsmall : data.length < vptMaxListSize) :
    ∃ root m₁ l m₂, (initialArena arena 0).NewNode root m₁ ∧
      m₁.NewList l vptMaxListSize m₂ ∧ vptBuild env arena data = .ok ⟨root, data.length,
        (m₂.writeNode root
          (.pointlist (some l) data.length vptMaxListSize)).writeItems l data⟩ := by
  obtain ⟨root, m₁, halloc, hnode⟩ :=
    allocVPNode_ok env.ok env.bufs hok (initialArena_chained arena 0)
  obtain ⟨l, m₂, hlist, hnewl⟩ := allocVPList_ok env.ok env.bufs hok hnode.chained vptMaxListSize
  refine ⟨root, m₁, l, m₂, hnode, hnewl, ?_⟩
  rw [vptBuild, initAllocator_ok hok]
  simp only [Except.bind, hsmall, ↓reduceIte, vptSmallBuild, halloc, orFail, hlist]

theorem vptSmallBuild_built (hok : ∀ i, env.ok i = true) (hsmall : data.length < vptMaxListSize) :
    ∃ t, vptBuild env arena data = .ok t ∧ Built env data t := by
  obtain ⟨root, m₁, l, m₂, hnode, hnewl, hbuild⟩ := vptSmallBuild_eq arena hok hsmall
  have htree : buildTree env data = .pointlist data := by
    unfold buildTree
    rw [if_pos hsmall]
  refine ⟨_, hbuild, rfl, ?_, ?_⟩
  · rw [htree]
    refine ⟨?_, l, vptMaxListSize, Function.update_self _ _ _,
      (hnewl.holds hsmall.le).congr rfl rfl⟩
    exact ((hnewl.keeps hsmall.le).node root ((hnode.mem_walk root).mpr (Or.inl rfl))).1
  · rw [htree]
    exact hsmall

variable (arena) in
/-- A build in which memory is found and no scan leaves its list returns `true`
and leaves the tree `buildTree env data` behind. -/
theorem vptBuild_built (hsize : data.length < sizeT) (hok : ∀ i, env.ok i = true)
    (hbig : env.Bounded) (hin : SplitsInside env arena data) :
    ∃ t, vptBuild env arena data = .ok t ∧ Built env data t := by
  rcases Nat.lt_or_ge data.length vptMaxListSize with hsmall | hlarge
  · exact vptSmallBuild_built hok hsmall
  · obtain ⟨root, s, a, b, hbuild, hwork, _, hL⟩ := vptBuild_run arena hlarge hsize hok hbig hin
      (fun root s => s.Laid env (buildTree env data) root)
      (fun _ _ _ _ _ _ _ _ h => h.laid hlarge) (fun _ _ _ _ hL hp => hp.laid hL)
    have hspells := hL.spells
    rw [BuildState.pending, hwork, List.map_nil] at hspells
    obtain ⟨hrep, hlists⟩ := hspells.represents
    refine ⟨_, hbuild, rfl, ?_, hlists⟩
    exact hrep.keeps ((Arena.Keeps.free _ _).trans (Arena.Keeps.free _ _))

/-- The tree of the data as `VPT_build` leaves it in memory. -/
theorem vptBuild_tree (arena : Arena α D) (hsize : data.length < sizeT)
    (hok : ∀ i, env.ok i = true) (hbig : env.Bounded) (hin : SplitsInside env arena data)
    {P : VPNode α D → Prop} (hP : P (buildTree env data)) :
    ∃ t root, vptBuild env arena data = .ok t ∧ t.arena.Represents root t.root ∧ P root := by
  obtain ⟨t, hbuild, hb⟩ := vptBuild_built arena hsize hok hbig hin
  exact ⟨t, buildTree env data, hbuild, hb.represents, hP⟩

/-- The search invariant: whatever the data, a build in which memory is found and
no scan leaves its list makes a tree in memory with both children of every branch
set, ordered at every branch, and with list nodes the searches have room for. -/
theorem vptBuild_ordered (env : BuildEnv α D) (arena : Arena α D) (data : List α)
    (hsize : data.length < sizeT) (hok : ∀ i, env.ok i = true) (hbig : env.Bounded)
    (hcomm : ∀ x y, env.distFn x y = env.distFn y x) (hin : SplitsInside env arena data) :
    ∃ t root, vptBuild env arena data = .ok t ∧ t.arena.Represents root t.root ∧
      root.Ordered env.distFn ∧ root.ListsBelow vptMaxListSize := by
  obtain ⟨t, hbuild, hb⟩ := vptBuild_built arena hsize hok hbig hin
  exact ⟨t, buildTree env data, hbuild, hb.represents, (buildTree_spec hbig data).2 hcomm, hb.lists⟩

/-- The tree of five hundred couples. -/
theorem vptBuild_ordered_couples :
    ∃ t root, vptBuild coupleEnv .empty (couples 500) = .ok t ∧
      t.arena.Represents root t.root ∧ root.Ordered coupleEnv.distFn ∧
      root.ListsBelow vptMaxListSize :=
  have hsize : (couples 500).length < sizeT := by
    rw [length_couples]
    decide
  vptBuild_ordered coupleEnv .empty (couples 500) hsize (fun _ => rfl) coupleEnv_bounded
    coupleDist_comm (splitsInside_couples .empty 500 hsize)

end Build

end VantagePoint
