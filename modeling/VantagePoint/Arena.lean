import VantagePoint.Node
import Mathlib.Logic.Function.Basic

/-! The nodes of a tree in memory: pointers into allocator chunks, the chains of
chunks a `VPTree` owns, and `__alloc_VPNode` and `__alloc_VPList`. -/
namespace VantagePoint

universe u v

/-- `NODEALLOC_BUF_SIZE` and `LISTALLOC_BUF_SIZE` -/
structure BufSizes where
  nodeallocBufSize : ℕ
  listallocBufSize : ℕ
deriving DecidableEq, Repr

/-- The values the header defines. -/
def bufSizes : BufSizes := ⟨1000, 1000000⟩

/-- A `VPNode*`: slot `slot` of the buffer of the node chunk `chunk`. -/
structure NodePtr where
  chunk : ℕ
  slot : ℕ
deriving DecidableEq, Repr

/-- A `vpt_t*` into the buffer of a list chunk. -/
structure ListPtr where
  chunk : ℕ
  offset : ℕ
deriving DecidableEq, Repr

/-- The contents of a node slot. Child pointers are `none` until they are set. -/
inductive VPNodeCell (α : Type u) (D : Type v) where
  | uninit
  | branch (item : α) (radius : D) (left right : Option NodePtr)
  | pointlist (items : Option ListPtr) (size capacity : ℕ)
deriving DecidableEq, Repr

/-- A `NodeAllocs` or `ListAllocs` block: which allocation it is, and its `size`. -/
structure Chunk where
  id : ℕ
  size : ℕ
deriving DecidableEq, Repr

/-- The allocator of a tree, its chains front first, together with the memory it
points into. `requests` counts the calls of `malloc`, and a block is named by
the call that returned it. -/
structure Arena (α : Type u) (D : Type v) where
  nodeAllocs : List Chunk
  listAllocs : List Chunk
  nodes : NodePtr → VPNodeCell α D
  lists : ListPtr → Option α
  requests : ℕ
  freed : List ℕ

variable {α : Type u} {D : Type v}

/-- Before the first allocation. -/
def Arena.empty : Arena α D := ⟨[], [], fun _ => .uninit, fun _ => none, 0, []⟩

section Code

/-- `malloc`; `ok` says which calls find memory. -/
def Arena.malloc (ok : ℕ → Bool) (m : Arena α D) : Option ℕ × Arena α D :=
  (if ok m.requests then some m.requests else none, { m with requests := m.requests+1 })

def Arena.free (m : Arena α D) (id : ℕ) : Arena α D := { m with freed := id :: m.freed }

/-- The next slot of the front chunk. -/
def Arena.takeNode (m : Arena α D) : Option NodePtr × Arena α D :=
  match m.nodeAllocs with
  | [] => (none, m)
  | front :: next =>
    (some ⟨front.id, front.size⟩,
      { m with nodeAllocs := { front with size := front.size+1 } :: next })

/-- `__alloc_VPNode` -/
def Arena.allocVPNode (ok : ℕ → Bool) (bufs : BufSizes) (m : Arena α D) :
    Option NodePtr × Arena α D :=
  match m.nodeAllocs with
  | [] => (none, m)
  | front :: _ =>
    if front.size = bufs.nodeallocBufSize-1 then
      match m.malloc ok with
      | (none, m) => (none, m)
      | (some id, m) => { m with nodeAllocs := ⟨id, 0⟩ :: m.nodeAllocs }.takeNode
    else m.takeNode

/-- The next `bufSize` cells of the front chunk. -/
def Arena.takeList (m : Arena α D) (bufSize : ℕ) : Option ListPtr × Arena α D :=
  match m.listAllocs with
  | [] => (none, m)
  | front :: next =>
    (some ⟨front.id, front.size⟩,
      { m with listAllocs := { front with size := front.size+bufSize } :: next })

/-- `__alloc_VPList` -/
def Arena.allocVPList (ok : ℕ → Bool) (bufs : BufSizes) (m : Arena α D) (bufSize : ℕ) :
    Option ListPtr × Arena α D :=
  match m.listAllocs with
  | [] => (none, m)
  | front :: _ =>
    if front.size+bufSize ≥ bufs.listallocBufSize-1 then
      match m.malloc ok with
      | (none, m) => (none, m)
      | (some id, m) => { m with listAllocs := ⟨id, 0⟩ :: m.listAllocs }.takeList bufSize
    else m.takeList bufSize

def Arena.writeNode (m : Arena α D) (p : NodePtr) (cell : VPNodeCell α D) : Arena α D :=
  { m with nodes := Function.update m.nodes p cell }

/-- `items[i] = xs[i]` for all `i` below the length of `xs` -/
def Arena.writeItems (m : Arena α D) (items : ListPtr) (xs : List α) : Arena α D :=
  { m with lists := fun l =>
      if l.chunk = items.chunk ∧ items.offset ≤ l.offset ∧ l.offset < items.offset+xs.length then
        xs[l.offset-items.offset]?
      else m.lists l }

end Code

/-- The slots handed out, in the order in which a walk along the chain from
`node_allocs` meets them. -/
def Arena.nodeWalk (m : Arena α D) : List NodePtr :=
  m.nodeAllocs.flatMap fun c => (List.range c.size).map (NodePtr.mk c.id)

/-- The list cells handed out. -/
def Arena.HasCell (m : Arena α D) (l : ListPtr) : Prop :=
  ∃ c ∈ m.listAllocs, c.id = l.chunk ∧ l.offset < c.size

theorem mem_nodeWalk (m : Arena α D) (p : NodePtr) :
    p ∈ m.nodeWalk ↔ ∃ c ∈ m.nodeAllocs, c.id = p.chunk ∧ p.slot < c.size := by
  unfold Arena.nodeWalk
  rw [List.mem_flatMap]
  constructor
  · rintro ⟨c, hc, hp⟩
    obtain ⟨i, hi, rfl⟩ := List.mem_map.mp hp
    exact ⟨c, hc, rfl, List.mem_range.mp hi⟩
  · rintro ⟨c, hc, hid, hlt⟩
    refine ⟨c, hc, List.mem_map.mpr ⟨p.slot, List.mem_range.mpr hlt, ?_⟩⟩
    rw [hid]

/-- The chains are made of different blocks, all of them allocated earlier. -/
structure Arena.Chained (m : Arena α D) : Prop where
  nodeIds : (m.nodeAllocs.map Chunk.id).Nodup
  nodeIds_lt : ∀ c ∈ m.nodeAllocs, c.id < m.requests
  nodes_ne : m.nodeAllocs ≠ []
  listIds : (m.listAllocs.map Chunk.id).Nodup
  listIds_lt : ∀ c ∈ m.listAllocs, c.id < m.requests
  lists_ne : m.listAllocs ≠ []

/-- What is handed out stays handed out and keeps its contents. -/
structure Arena.Keeps (m m' : Arena α D) : Prop where
  node : ∀ p ∈ m.nodeWalk, p ∈ m'.nodeWalk ∧ m'.nodes p = m.nodes p
  cell : ∀ l, m.HasCell l → m'.HasCell l ∧ m'.lists l = m.lists l

theorem Arena.Keeps.trans {m m' m'' : Arena α D} (h : m.Keeps m') (h' : m'.Keeps m'') :
    m.Keeps m'' where
  node p hp := by
    have h1 := h.node p hp
    have h2 := h'.node p h1.1
    exact ⟨h2.1, h2.2.trans h1.2⟩
  cell l hl := by
    have h1 := h.cell l hl
    have h2 := h'.cell l h1.1
    exact ⟨h2.1, h2.2.trans h1.2⟩

theorem Arena.Keeps.free (m : Arena α D) (id : ℕ) : m.Keeps (m.free id) where
  node _ hp := ⟨hp, rfl⟩
  cell _ hl := ⟨hl, rfl⟩

/-- `m'` is `m` with one more node handed out: `p`, which was not handed out
before. -/
structure Arena.NewNode (m : Arena α D) (p : NodePtr) (m' : Arena α D) : Prop where
  chained : m'.Chained
  fresh : p ∉ m.nodeWalk
  walk : ∃ ps qs, m.nodeWalk = ps ++ qs ∧ m'.nodeWalk = ps ++ p :: qs
  nodes : m'.nodes = m.nodes
  lists : m'.lists = m.lists
  listAllocs : m'.listAllocs = m.listAllocs

/-- `m'` is `m` with `n` more cells handed out, from `l` on. -/
structure Arena.NewList (m : Arena α D) (l : ListPtr) (n : ℕ) (m' : Arena α D) : Prop where
  chained : m'.Chained
  fresh : ∀ i < n, ¬ m.HasCell ⟨l.chunk, l.offset+i⟩
  has : ∀ i < n, m'.HasCell ⟨l.chunk, l.offset+i⟩
  mono : ∀ c, m.HasCell c → m'.HasCell c
  nodes : m'.nodes = m.nodes
  lists : m'.lists = m.lists
  nodeAllocs : m'.nodeAllocs = m.nodeAllocs

section Chains

/-- A block just allocated is none of the earlier ones. -/
theorem fresh_nodup {chain : List Chunk} {n : ℕ} (h : (chain.map Chunk.id).Nodup)
    (hlt : ∀ c ∈ chain, c.id < n) : (((⟨n, 0⟩ : Chunk) :: chain).map Chunk.id).Nodup := by
  rw [List.map_cons, List.nodup_cons]
  refine ⟨?_, h⟩
  intro hmem
  obtain ⟨c, hc, hid⟩ := List.mem_map.mp hmem
  have hold := hlt c hc
  dsimp only at hid
  omega

theorem fresh_lt {chain : List Chunk} {n : ℕ} (hlt : ∀ c ∈ chain, c.id < n) :
    ∀ c ∈ (⟨n, 0⟩ : Chunk) :: chain, c.id < n+1 := by
  intro c hc
  rcases List.mem_cons.mp hc with rfl | hc
  · exact Nat.lt_succ_self _
  · exact Nat.lt_succ_of_lt (hlt c hc)

/-- The front chunk may grow: ids stay as they are. -/
theorem grown_lt {front : Chunk} {next : List Chunk} {n size : ℕ}
    (hlt : ∀ c ∈ front :: next, c.id < n) : ∀ c ∈ ⟨front.id, size⟩ :: next, c.id < n := by
  intro c hc
  rcases List.mem_cons.mp hc with rfl | hc
  · exact hlt front List.mem_cons_self
  · exact hlt c (List.mem_cons_of_mem _ hc)

end Chains

section Allocate

variable {m : Arena α D}

/-- A block just allocated may become the front chunk. -/
theorem Arena.Chained.push_node (h : m.Chained) :
    { m with nodeAllocs := ⟨m.requests, 0⟩ :: m.nodeAllocs, requests := m.requests+1 }.Chained where
  nodeIds := fresh_nodup h.nodeIds h.nodeIds_lt
  nodeIds_lt := fresh_lt h.nodeIds_lt
  nodes_ne := List.cons_ne_nil _ _
  listIds := h.listIds
  listIds_lt c hc := Nat.lt_succ_of_lt (h.listIds_lt c hc)
  lists_ne := h.lists_ne

theorem Arena.Chained.push_list (h : m.Chained) :
    { m with listAllocs := ⟨m.requests, 0⟩ :: m.listAllocs, requests := m.requests+1 }.Chained where
  nodeIds := h.nodeIds
  nodeIds_lt c hc := Nat.lt_succ_of_lt (h.nodeIds_lt c hc)
  nodes_ne := h.nodes_ne
  listIds := fresh_nodup h.listIds h.listIds_lt
  listIds_lt := fresh_lt h.listIds_lt
  lists_ne := List.cons_ne_nil _ _

theorem takeNode_newNode (h : m.Chained) :
    ∃ p m', m.takeNode = (some p, m') ∧ m.NewNode p m' := by
  cases hchain : m.nodeAllocs with
  | nil => exact absurd hchain h.nodes_ne
  | cons front next =>
    have hids := h.nodeIds
    rw [hchain, List.map_cons, List.nodup_cons] at hids
    refine ⟨⟨front.id, front.size⟩, { m with nodeAllocs := ⟨front.id, front.size+1⟩ :: next },
      by rw [Arena.takeNode, hchain], ?_, ?_, ?_, rfl, rfl, rfl⟩
    · have hlt := h.nodeIds_lt
      rw [hchain] at hlt
      refine ⟨?_, grown_lt hlt, List.cons_ne_nil _ _, h.listIds, h.listIds_lt, h.lists_ne⟩
      rw [List.map_cons, List.nodup_cons]
      exact hids
    · -- the slot is behind those of its own chunk, and no other chunk has its id
      intro hp
      obtain ⟨c, hc, hid, hlt⟩ := (mem_nodeWalk m _).mp hp
      rw [hchain] at hc
      rcases List.mem_cons.mp hc with rfl | hc
      · exact absurd hlt (lt_irrefl _)
      · exact hids.1 (List.mem_map.mpr ⟨c, hc, hid⟩)
    -- The walk meets the new slot behind the others of the front chunk.
    · refine ⟨(List.range front.size).map (NodePtr.mk front.id),
        next.flatMap fun c => (List.range c.size).map (NodePtr.mk c.id), ?_, ?_⟩
      · rw [Arena.nodeWalk, hchain, List.flatMap_cons]
      · rw [Arena.nodeWalk, List.flatMap_cons, List.range_succ, List.map_append, List.append_assoc]
        rfl

/-- What a call of `__alloc_VPNode` can do: hand out a slot, or leave everything
as it is because the chunk it needed could not be allocated. -/
theorem allocVPNode_cases (ok : ℕ → Bool) (bufs : BufSizes) (h : m.Chained) :
    (∃ p m', m.allocVPNode ok bufs = (some p, m') ∧ m.NewNode p m') ∨
    (ok m.requests = false ∧
      m.allocVPNode ok bufs = (none, { m with requests := m.requests+1 })) := by
  cases hchain : m.nodeAllocs with
  | nil => exact absurd hchain h.nodes_ne
  | cons front next =>
    -- A full front chunk asks for another block first.
    by_cases hfull : front.size = bufs.nodeallocBufSize-1
    · cases hr : ok m.requests with
      | true =>
        left
        obtain ⟨p, m', htake, hnew⟩ := takeNode_newNode h.push_node
        refine ⟨p, m', ?_, hnew.chained, ?_, ?_, hnew.nodes, hnew.lists, hnew.listAllocs⟩
        · simp only [Arena.allocVPNode, hchain, hfull, ↓reduceIte, Arena.malloc, hr]
          rw [hchain] at htake
          exact htake
        · exact hnew.fresh
        · exact hnew.walk
      | false =>
        right
        refine ⟨rfl, ?_⟩
        simp only [Arena.allocVPNode, hchain, hfull, ↓reduceIte, Arena.malloc, hr,
          Bool.false_eq_true]
    · left
      obtain ⟨p, m', htake, hnew⟩ := takeNode_newNode h
      refine ⟨p, m', ?_, hnew⟩
      simp only [Arena.allocVPNode, hchain, hfull, ↓reduceIte]
      exact htake

theorem takeList_newList (h : m.Chained) (n : ℕ) :
    ∃ l m', m.takeList n = (some l, m') ∧ m.NewList l n m' := by
  cases hchain : m.listAllocs with
  | nil => exact absurd hchain h.lists_ne
  | cons front next =>
    have hids := h.listIds
    rw [hchain, List.map_cons, List.nodup_cons] at hids
    refine ⟨⟨front.id, front.size⟩, { m with listAllocs := ⟨front.id, front.size+n⟩ :: next },
      by rw [Arena.takeList, hchain], ?_, ?_, ?_, ?_, rfl, rfl, rfl⟩
    · have hlt := h.listIds_lt
      rw [hchain] at hlt
      refine ⟨h.nodeIds, h.nodeIds_lt, h.nodes_ne, ?_, grown_lt hlt, List.cons_ne_nil _ _⟩
      rw [List.map_cons, List.nodup_cons]
      exact hids
    -- As for nodes: the cells are behind those of their chunk, and its id is no other's.
    · intro i _ hcell
      obtain ⟨c, hc, hid, hlt⟩ := hcell
      rw [hchain] at hc
      rcases List.mem_cons.mp hc with rfl | hc
      · dsimp only at hlt
        omega
      · exact hids.1 (List.mem_map.mpr ⟨c, hc, hid⟩)
    · intro i hi
      exact ⟨_, List.mem_cons_self, rfl, Nat.add_lt_add_left hi _⟩
    · intro c hcell
      obtain ⟨b, hb, hid, hlt⟩ := hcell
      rw [hchain] at hb
      rcases List.mem_cons.mp hb with rfl | hb
      · exact ⟨_, List.mem_cons_self, hid, Nat.lt_add_right n hlt⟩
      · exact ⟨b, List.mem_cons_of_mem _ hb, hid, hlt⟩

/-- What a call of `__alloc_VPList` can do. -/
theorem allocVPList_cases (ok : ℕ → Bool) (bufs : BufSizes) (h : m.Chained) (n : ℕ) :
    (∃ l m', m.allocVPList ok bufs n = (some l, m') ∧ m.NewList l n m') ∨
    (ok m.requests = false ∧
      m.allocVPList ok bufs n = (none, { m with requests := m.requests+1 })) := by
  cases hchain : m.listAllocs with
  | nil => exact absurd hchain h.lists_ne
  | cons front next =>
    -- The front chunk is left behind, however much of it is free, when the list
    -- does not fit.
    by_cases hfull : front.size+n ≥ bufs.listallocBufSize-1
    · cases hr : ok m.requests with
      | true =>
        left
        obtain ⟨l, m', htake, hnew⟩ := takeList_newList h.push_list n
        -- An empty chunk more changes nothing about the cells handed out.
        have hpush (c : ListPtr) : m.HasCell c →
            { m with listAllocs := ⟨m.requests, 0⟩ :: m.listAllocs,
                     requests := m.requests+1 }.HasCell c := by
          rintro ⟨b, hb, hcell⟩
          exact ⟨b, List.mem_cons_of_mem _ hb, hcell⟩
        refine ⟨l, m', ?_, hnew.chained, ?_, hnew.has, ?_, hnew.nodes, hnew.lists,
          hnew.nodeAllocs⟩
        · simp only [Arena.allocVPList, hchain, hfull, ↓reduceIte, Arena.malloc, hr]
          rw [hchain] at htake
          exact htake
        · intro i hi hcell
          exact hnew.fresh i hi (hpush _ hcell)
        · intro c hcell
          exact hnew.mono c (hpush _ hcell)
      | false =>
        right
        refine ⟨rfl, ?_⟩
        simp only [Arena.allocVPList, hchain, hfull, ↓reduceIte, Arena.malloc, hr,
          Bool.false_eq_true]
    · left
      obtain ⟨l, m', htake, hnew⟩ := takeList_newList h n
      refine ⟨l, m', ?_, hnew⟩
      simp only [Arena.allocVPList, hchain, hfull, ↓reduceIte]
      exact htake

end Allocate

section Contents

variable {m m' : Arena α D}

theorem Arena.NewNode.mem_walk {p : NodePtr} (h : m.NewNode p m') (q : NodePtr) :
    q ∈ m'.nodeWalk ↔ q = p ∨ q ∈ m.nodeWalk := by
  obtain ⟨ps, qs, hm, hm'⟩ := h.walk
  rw [hm, hm', List.mem_append, List.mem_append, List.mem_cons]
  tauto

theorem Arena.NewNode.keeps {p : NodePtr} (h : m.NewNode p m') : m.Keeps m' where
  node q hq := ⟨(h.mem_walk q).mpr (Or.inr hq), congrFun h.nodes q⟩
  cell l hl := by
    obtain ⟨c, hc, hcell⟩ := hl
    rw [← h.listAllocs] at hc
    exact ⟨⟨c, hc, hcell⟩, congrFun h.lists l⟩

/-- Writing a node that was not handed out leaves what was alone. -/
theorem Arena.Keeps.writeNode (h : m.Keeps m') {p : NodePtr} (hp : p ∉ m.nodeWalk)
    (cell : VPNodeCell α D) : m.Keeps (m'.writeNode p cell) where
  node q hq := by
    have hne : q ≠ p := fun he => hp (he ▸ hq)
    exact ⟨(h.node q hq).1, (Function.update_of_ne hne _ _).trans (h.node q hq).2⟩
  cell := h.cell

theorem Arena.NewList.keeps {l : ListPtr} {n : ℕ} {xs : List α} (h : m.NewList l n m')
    (hle : xs.length ≤ n) : m.Keeps (m'.writeItems l xs) where
  node p hp := by
    have hwalk : (m'.writeItems l xs).nodeWalk = m.nodeWalk := by
      simp only [Arena.nodeWalk, Arena.writeItems, h.nodeAllocs]
    rw [hwalk]
    exact ⟨hp, congrFun h.nodes p⟩
  cell c hc := by
    refine ⟨h.mono c hc, ?_⟩
    rw [Arena.writeItems, h.lists]
    apply if_neg
    rintro ⟨hid, hge, hlt⟩
    apply h.fresh (c.offset-l.offset) (by omega)
    -- a cell that was overwritten would be one of those just handed out
    have hcell : (⟨l.chunk, l.offset+(c.offset-l.offset)⟩ : ListPtr) = c := by
      rw [← hid, Nat.add_sub_cancel' hge]
    rwa [hcell]

/-- `items[0..size)`, or `none` when a cell of it was never written. -/
def Arena.readItems (m : Arena α D) : ListPtr → ℕ → Option (List α)
  | _, 0 => some []
  | l, n+1 => (m.lists l).bind fun x => (m.readItems ⟨l.chunk, l.offset+1⟩ n).map (x :: ·)

theorem readItems_of_cells (l : ListPtr) (xs : List α)
    (h : ∀ i < xs.length, m.lists ⟨l.chunk, l.offset+i⟩ = xs[i]?) :
    m.readItems l xs.length = some xs := by
  induction xs generalizing l with
  | nil => rfl
  -- The rest of the list is read from the next cell on, so the offsets shift by one.
  | cons x xs ih =>
    have hx : m.lists l = some x := h 0 (Nat.succ_pos _)
    have hxs : m.readItems ⟨l.chunk, l.offset+1⟩ xs.length = some xs := by
      apply ih
      intro i hi
      have hs := h (i+1) (Nat.succ_lt_succ hi)
      rw [List.getElem?_cons_succ] at hs
      rw [← hs]
      congr 2
      change l.offset+1+i = l.offset+(i+1)
      omega
    rw [List.length_cons, Arena.readItems, hx, Option.bind_some, hxs]
    rfl

theorem readItems_writeItems (m : Arena α D) (l : ListPtr) (xs : List α) :
    (m.writeItems l xs).readItems l xs.length = some xs := by
  apply readItems_of_cells
  intro i hi
  have hin : l.offset ≤ l.offset+i ∧ l.offset+i < l.offset+xs.length :=
    ⟨Nat.le_add_right _ _, Nat.add_lt_add_left hi _⟩
  simp only [Arena.writeItems, hin, and_self, ↓reduceIte, Nat.add_sub_cancel_left]

theorem readItems_congr (l : ListPtr) (n : ℕ)
    (h : ∀ i < n, m'.lists ⟨l.chunk, l.offset+i⟩ = m.lists ⟨l.chunk, l.offset+i⟩) :
    m'.readItems l n = m.readItems l n := by
  induction n generalizing l with
  | zero => rfl
  | succ n ih =>
    have hl : m'.lists l = m.lists l := h 0 (Nat.succ_pos _)
    have hrest : m'.readItems ⟨l.chunk, l.offset+1⟩ n = m.readItems ⟨l.chunk, l.offset+1⟩ n := by
      apply ih
      intro i hi
      have hs := h (i+1) (Nat.succ_lt_succ hi)
      have ho : l.offset+(i+1) = l.offset+1+i := by omega
      rwa [ho] at hs
    rw [Arena.readItems, Arena.readItems, hl, hrest]

/-- `l` holds the list `xs`, in cells that are handed out. -/
structure Arena.Holds (m : Arena α D) (l : ListPtr) (xs : List α) : Prop where
  has : ∀ i < xs.length, m.HasCell ⟨l.chunk, l.offset+i⟩
  read : m.readItems l xs.length = some xs

theorem Arena.Holds.congr {l : ListPtr} {xs : List α} (h : m.Holds l xs)
    (ha : m'.listAllocs = m.listAllocs) (hl : m'.lists = m.lists) : m'.Holds l xs where
  has i hi := by
    obtain ⟨c, hc, hcell⟩ := h.has i hi
    exact ⟨c, by rwa [ha], hcell⟩
  read := by
    rw [readItems_congr l xs.length fun i _ => congrFun hl _]
    exact h.read

theorem Arena.Holds.keeps {l : ListPtr} {xs : List α} (h : m.Holds l xs) (hk : m.Keeps m') :
    m'.Holds l xs where
  has i hi := (hk.cell _ (h.has i hi)).1
  read := by
    rw [readItems_congr l xs.length fun i hi => (hk.cell _ (h.has i hi)).2]
    exact h.read

theorem Arena.NewList.holds {l : ListPtr} {n : ℕ} {xs : List α} (h : m.NewList l n m')
    (hle : xs.length ≤ n) : (m'.writeItems l xs).Holds l xs where
  has i hi := h.has i (by omega)
  read := readItems_writeItems m' l xs

end Contents

end VantagePoint
