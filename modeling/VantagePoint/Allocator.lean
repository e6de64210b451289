import VantagePoint.BuildStep
import Mathlib.Algebra.BigOperators.Group.List.Basic

/-! The allocator over any sequence of calls. A node is one slot of its chunk and
a list a range of cells, so both chains are chains of chunks from which extents
are cut off at the front chunk. -/
namespace VantagePoint

/-- `size` consecutive places of a chunk's buffer, from `offset` on. -/
structure Extent where
  chunk : ℕ
  offset : ℕ
  size : ℕ
deriving DecidableEq, Repr

/-- No place belongs to both. -/
def Extent.Apart (e f : Extent) : Prop :=
  e.chunk = f.chunk → e.offset+e.size ≤ f.offset ∨ f.offset+f.size ≤ e.offset

/-- The places of a chunk that `out` accounts for. -/
def placesOf (id : ℕ) (out : List Extent) : ℕ :=
  ((out.filter fun e => e.chunk = id).map Extent.size).sum

/-- The extents `out` were cut off from the chunks of a chain whose buffers have
`cap` places. -/
structure CutFrom (cap : ℕ) (chain : List Chunk) (out : List Extent) : Prop where
  inside : ∀ e ∈ out, ∃ c ∈ chain, c.id = e.chunk ∧ e.offset+e.size ≤ c.size
  room : ∀ c ∈ chain, c.size ≤ cap
  apart : out.Pairwise Extent.Apart
  counts : ∀ c ∈ chain, c.size = placesOf c.id out

section Chains

variable {cap : ℕ} {chain : List Chunk} {out : List Extent}

theorem placesOf_concat (id : ℕ) (out : List Extent) (e : Extent) :
    placesOf id (out ++ [e]) = placesOf id out+(if e.chunk = id then e.size else 0) := by
  unfold placesOf
  rw [List.filter_append, List.map_append, List.sum_append]
  by_cases he : e.chunk = id
  · simp only [he, decide_true, List.filter_cons_of_pos, List.filter_nil, List.map_cons,
      List.map_nil, List.sum_cons, List.sum_nil, ↓reduceIte, Nat.add_zero]
  · simp only [he, decide_false, Bool.false_eq_true, not_false_eq_true, List.filter_cons_of_neg,
      List.filter_nil, List.map_nil, List.sum_nil, ↓reduceIte]

/-- A block just allocated has nothing cut off yet. -/
theorem CutFrom.open (h : CutFrom cap chain out) {n : ℕ} (hlt : ∀ c ∈ chain, c.id < n) :
    CutFrom cap (⟨n, 0⟩ :: chain) out where
  inside e he := by
    obtain ⟨c, hc, hin⟩ := h.inside e he
    exact ⟨c, List.mem_cons_of_mem _ hc, hin⟩
  room c hc := by
    rcases List.mem_cons.mp hc with rfl | hc
    · exact Nat.zero_le _
    · exact h.room c hc
  apart := h.apart
  counts c hc := by
    rcases List.mem_cons.mp hc with rfl | hc
    -- Ids grow with the requests, so no extent carries the id of the new block.
    · have hnone : out.filter (fun e => e.chunk = n) = [] := by
        apply List.filter_eq_nil_iff.mpr
        intro e he
        obtain ⟨c, hc, hid, _⟩ := h.inside e he
        have hold := hlt c hc
        simp only [decide_eq_true_eq]
        omega
      rw [placesOf, hnone]
      rfl
    · exact h.counts c hc

/-- The next `n` places of the front chunk lie behind all that was cut off from it. -/
theorem CutFrom.cut {front : Chunk} {next : List Chunk} (h : CutFrom cap (front :: next) out)
    (hids : ((front :: next).map Chunk.id).Nodup) {n : ℕ} (hn : front.size+n ≤ cap) :
    CutFrom cap (⟨front.id, front.size+n⟩ :: next) (out ++ [⟨front.id, front.size, n⟩]) := by
  rw [List.map_cons, List.nodup_cons] at hids
  refine ⟨?_, ?_, ?_, ?_⟩
  · intro e he
    rcases List.mem_append.mp he with he | he
    · obtain ⟨c, hc, hid, hin⟩ := h.inside e he
      rcases List.mem_cons.mp hc with rfl | hc
      · exact ⟨_, List.mem_cons_self, hid, Nat.le_add_right_of_le hin⟩
      · exact ⟨c, List.mem_cons_of_mem _ hc, hid, hin⟩
    · rw [List.mem_singleton.mp he]
      exact ⟨_, List.mem_cons_self, rfl, le_rfl⟩
  · intro c hc
    rcases List.mem_cons.mp hc with rfl | hc
    · exact hn
    · exact h.room c (List.mem_cons_of_mem _ hc)
  · apply List.pairwise_append.mpr ⟨h.apart, List.pairwise_singleton _ _, ?_⟩
    intro e he f hf hchunk
    rw [List.mem_singleton.mp hf] at hchunk ⊢
    obtain ⟨c, hc, hid, hin⟩ := h.inside e he
    left
    rcases List.mem_cons.mp hc with rfl | hc
    · exact hin
    -- an extent of the front chunk is not in a chunk behind it
    · exact absurd (List.mem_map.mpr ⟨c, hc, hid.trans hchunk⟩) hids.1
  · intro c hc
    rw [placesOf_concat]
    rcases List.mem_cons.mp hc with rfl | hc
    · rw [if_pos rfl, ← h.counts front List.mem_cons_self]
    -- The closed chunks keep their counts: the new extent bears another id.
    · have hne : ¬ front.id = c.id := fun he => hids.1 (List.mem_map.mpr ⟨c, hc, he.symm⟩)
      rw [if_neg hne]
      exact h.counts c (List.mem_cons_of_mem _ hc)

end Chains

universe u v

variable {α : Type u} {D : Type v}

section Code

inductive AllocCall where
  | node
  | list (bufSize : ℕ)
deriving DecidableEq, Repr

/-- The allocator after some calls, and what they returned: the nodes, and the
lists with the size that was asked for, oldest first. -/
structure Handouts (α : Type u) (D : Type v) where
  arena : Arena α D
  nodes : List NodePtr
  lists : List (ListPtr × ℕ)

def Handouts.call (ok : ℕ → Bool) (bufs : BufSizes) (s : Handouts α D) : AllocCall → Handouts α D
  | .node =>
    match s.arena.allocVPNode ok bufs with
    | (some p, m) => { s with arena := m, nodes := s.nodes ++ [p] }
    | (none, m) => { s with arena := m }
  | .list bufSize =>
    match s.arena.allocVPList ok bufs bufSize with
    | (some l, m) => { s with arena := m, lists := s.lists ++ [(l, bufSize)] }
    | (none, m) => { s with arena := m }

/-- The calls one after another, from an allocator that has handed out nothing. -/
def allocCalls (ok : ℕ → Bool) (bufs : BufSizes) (m : Arena α D) (calls : List AllocCall) :
    Handouts α D :=
  calls.foldl (Handouts.call ok bufs) ⟨m, [], []⟩

end Code

def NodePtr.extent (p : NodePtr) : Extent := ⟨p.chunk, p.slot, 1⟩

def listExtent (l : ListPtr × ℕ) : Extent := ⟨l.1.chunk, l.1.offset, l.2⟩

/-- The invariant of the calls. The front node chunk is left as soon as its last
slot but one is taken. -/
structure Handouts.Sound (bufs : BufSizes) (s : Handouts α D) : Prop where
  chained : s.arena.Chained
  separate : ∀ c ∈ s.arena.nodeAllocs, ∀ b ∈ s.arena.listAllocs, c.id ≠ b.id
  nodes : CutFrom (bufs.nodeallocBufSize-1) s.arena.nodeAllocs (s.nodes.map NodePtr.extent)
  lists : CutFrom bufs.listallocBufSize s.arena.listAllocs (s.lists.map listExtent)
  walk : s.arena.nodeWalk.Perm s.nodes

section Calls

variable {ok : ℕ → Bool} {bufs : BufSizes} {s : Handouts α D}

/-- Nothing is handed out by a `malloc` alone. -/
theorem Handouts.Sound.request (h : s.Sound bufs) :
    Handouts.Sound bufs { s with arena := { s.arena with requests := s.arena.requests+1 } } where
  chained := ⟨h.chained.nodeIds, fun c hc => Nat.lt_succ_of_lt (h.chained.nodeIds_lt c hc),
    h.chained.nodes_ne, h.chained.listIds,
    fun c hc => Nat.lt_succ_of_lt (h.chained.listIds_lt c hc), h.chained.lists_ne⟩
  separate := h.separate
  nodes := h.nodes
  lists := h.lists
  walk := h.walk

theorem Handouts.Sound.openNodes (h : s.Sound bufs) :
    Handouts.Sound bufs { s with arena := { s.arena with
      nodeAllocs := ⟨s.arena.requests, 0⟩ :: s.arena.nodeAllocs
      requests := s.arena.requests+1 } } where
  chained := h.chained.push_node
  separate c hc b hb := by
    rcases List.mem_cons.mp hc with rfl | hc
    · exact (h.chained.listIds_lt b hb).ne'
    · exact h.separate c hc b hb
  nodes := h.nodes.open h.chained.nodeIds_lt
  lists := h.lists
  walk := h.walk

theorem Handouts.Sound.openLists (h : s.Sound bufs) :
    Handouts.Sound bufs { s with arena := { s.arena with
      listAllocs := ⟨s.arena.requests, 0⟩ :: s.arena.listAllocs
      requests := s.arena.requests+1 } } where
  chained := h.chained.push_list
  separate c hc b hb := by
    rcases List.mem_cons.mp hb with rfl | hb
    · exact (h.chained.nodeIds_lt c hc).ne
    · exact h.separate c hc b hb
  nodes := h.nodes
  lists := h.lists.open h.chained.listIds_lt
  walk := h.walk

/-- A node is cut off from a front chunk with room for it. -/
theorem Handouts.Sound.takeNode (h : s.Sound bufs) {front : Chunk} {next : List Chunk}
    (hchain : s.arena.nodeAllocs = front :: next) (hroom : front.size+1 ≤ bufs.nodeallocBufSize-1) :
    ∃ p m, s.arena.takeNode = (some p, m) ∧
      Handouts.Sound bufs { s with arena := m, nodes := s.nodes ++ [p] } := by
  obtain ⟨p, m, htake, hnew⟩ := takeNode_newNode h.chained
  -- `takeNode_newNode` says what is new about the slot; here its address is needed.
  have hval : s.arena.takeNode = (some ⟨front.id, front.size⟩,
      { s.arena with nodeAllocs := ⟨front.id, front.size+1⟩ :: next }) := by
    rw [Arena.takeNode, hchain]
  refine ⟨p, m, htake, hnew.chained, ?_, ?_, ?_, ?_⟩
  · rw [htake] at hval
    cases hval
    intro c hc b hb
    rcases List.mem_cons.mp hc with rfl | hc
    · exact h.separate front (by rw [hchain]; exact List.mem_cons_self) b hb
    · exact h.separate c (by rw [hchain]; exact List.mem_cons_of_mem _ hc) b hb
  · rw [htake] at hval
    cases hval
    have hids := h.chained.nodeIds
    have hcut := h.nodes
    rw [hchain] at hids hcut
    rw [List.map_append]
    exact hcut.cut hids hroom
  · rw [hnew.listAllocs]
    exact h.lists
  · obtain ⟨ps, qs, hold, hnow⟩ := hnew.walk
    have hperm := h.walk
    rw [hold] at hperm
    rw [hnow]
    -- the walk meets the new slot last in its chunk, the list of nodes has it last
    have hfirst : (ps ++ p :: qs).Perm (p :: s.nodes) := List.perm_middle.trans (hperm.cons p)
    exact hfirst.trans (List.perm_append_singleton p s.nodes).symm

theorem Handouts.Sound.takeList (h : s.Sound bufs) {front : Chunk} {next : List Chunk} {n : ℕ}
    (hchain : s.arena.listAllocs = front :: next) (hroom : front.size+n ≤ bufs.listallocBufSize) :
    ∃ l m, s.arena.takeList n = (some l, m) ∧
      Handouts.Sound bufs { s with arena := m, lists := s.lists ++ [(l, n)] } := by
  obtain ⟨l, m, htake, hnew⟩ := takeList_newList h.chained n
  have hval : s.arena.takeList n = (some ⟨front.id, front.size⟩,
      { s.arena with listAllocs := ⟨front.id, front.size+n⟩ :: next }) := by
    rw [Arena.takeList, hchain]
  refine ⟨l, m, htake, hnew.chained, ?_, ?_, ?_, ?_⟩
  · rw [htake] at hval
    cases hval
    intro c hc b hb
    rcases List.mem_cons.mp hb with rfl | hb
    · exact h.separate c hc front (by rw [hchain]; exact List.mem_cons_self)
    · exact h.separate c hc b (by rw [hchain]; exact List.mem_cons_of_mem _ hb)
  · rw [hnew.nodeAllocs]
    exact h.nodes
  · rw [htake] at hval
    cases hval
    have hids := h.chained.listIds
    have hcut := h.lists
    rw [hchain] at hids hcut
    rw [List.map_append]
    exact hcut.cut hids hroom
  · have hwalk : m.nodeWalk = s.arena.nodeWalk := by
      simp only [Arena.nodeWalk, hnew.nodeAllocs]
    rw [hwalk]
    exact h.walk

theorem allocVPNode_eq {m : Arena α D} {front : Chunk} {next : List Chunk}
    (hchain : m.nodeAllocs = front :: next) :
    m.allocVPNode ok bufs =
      if front.size = bufs.nodeallocBufSize-1 then
        if ok m.requests then
          { m with nodeAllocs := ⟨m.requests, 0⟩ :: m.nodeAllocs
                   requests := m.requests+1 }.takeNode
        else (none, { m with requests := m.requests+1 })
      else m.takeNode := by
  unfold Arena.allocVPNode Arena.malloc
  rw [hchain]
  by_cases hr : ok m.requests = true
  · simp only [hr, ↓reduceIte]
  · simp only [hr, Bool.false_eq_true, ↓reduceIte]

theorem allocVPList_eq {m : Arena α D} {front : Chunk} {next : List Chunk}
    (hchain : m.listAllocs = front :: next) (n : ℕ) :
    m.allocVPList ok bufs n =
      if front.size+n ≥ bufs.listallocBufSize-1 then
        if ok m.requests then
          { m with listAllocs := ⟨m.requests, 0⟩ :: m.listAllocs
                   requests := m.requests+1 }.takeList n
        else (none, { m with requests := m.requests+1 })
      else m.takeList n := by
  unfold Arena.allocVPList Arena.malloc
  rw [hchain]
  by_cases hr : ok m.requests = true
  · simp only [hr, ↓reduceIte]
  · simp only [hr, Bool.false_eq_true, ↓reduceIte]

/-- One call, whether it finds memory or not. -/
theorem Handouts.Sound.call (h : s.Sound bufs) (hnode : 1 < bufs.nodeallocBufSize)
    (c : AllocCall) (hc : ∀ n, c = .list n → n < bufs.listallocBufSize) :
    (s.call ok bufs c).Sound bufs := by
  cases c with
  | node =>
    cases hchain : s.arena.nodeAllocs with
    | nil => exact absurd hchain h.chained.nodes_ne
    | cons front next =>
      -- The last slot of a node chunk is never used: the test is for equality with it.
      have hfront : front.size ≤ bufs.nodeallocBufSize-1 :=
        h.nodes.room front (by rw [hchain]; exact List.mem_cons_self)
      rw [Handouts.call, allocVPNode_eq hchain]
      by_cases hfull : front.size = bufs.nodeallocBufSize-1
      · rw [if_pos hfull]
        by_cases hr : ok s.arena.requests = true
        · have hroom : 0+1 ≤ bufs.nodeallocBufSize-1 := by omega
          obtain ⟨p, m, htake, hsound⟩ := h.openNodes.takeNode rfl hroom
          rw [if_pos hr, htake]
          exact hsound
        · rw [if_neg hr]
          exact h.request
      · obtain ⟨p, m, htake, hsound⟩ := h.takeNode hchain (by omega)
        rw [if_neg hfull, htake]
        exact hsound
  | list n =>
    have hn := hc n rfl
    cases hchain : s.arena.listAllocs with
    | nil => exact absurd hchain h.chained.lists_ne
    | cons front next =>
      rw [Handouts.call, allocVPList_eq hchain]
      by_cases hfull : front.size+n ≥ bufs.listallocBufSize-1
      · rw [if_pos hfull]
        by_cases hr : ok s.arena.requests = true
        -- A list that does not fit an open chunk fits a fresh one; the old tail is given up.
        · have hroom : 0+n ≤ bufs.listallocBufSize := by omega
          obtain ⟨l, m, htake, hsound⟩ := h.openLists.takeList rfl hroom
          rw [if_pos hr, htake]
          exact hsound
        · rw [if_neg hr]
          exact h.request
      · have hroom : front.size+n ≤ bufs.listallocBufSize := by omega
        obtain ⟨l, m, htake, hsound⟩ := h.takeList hchain hroom
        rw [if_neg hfull, htake]
        exact hsound

theorem sound_calls (hnode : 1 < bufs.nodeallocBufSize) (calls : List AllocCall)
    (hcalls : ∀ n, .list n ∈ calls → n < bufs.listallocBufSize) (h : s.Sound bufs) :
    (calls.foldl (Handouts.call ok bufs) s).Sound bufs := by
  induction calls generalizing s with
  | nil => exact h
  | cons c calls ih =>
    rw [List.foldl_cons]
    apply ih
    · intro n hn
      exact hcalls n (List.mem_cons_of_mem _ hn)
    · apply h.call hnode c
      intro n hn
      exact hcalls n (by rw [← hn]; exact List.mem_cons_self)

/-- Both chains consist of one chunk of size 0 when `VPT_build` has set them up. -/
theorem sound_start {env : BuildEnv α D} {arena m : Arena α D}
    (hinit : initAllocator env arena = .ok m) (bufs : BufSizes) :
    Handouts.Sound bufs ⟨m, [], []⟩ := by
  have hempty (cap id : ℕ) : CutFrom cap [⟨id, 0⟩] [] := by
    refine ⟨fun e he => absurd he List.not_mem_nil, ?_, List.Pairwise.nil, ?_⟩
    · intro c hc
      rw [List.mem_singleton.mp hc]
      exact Nat.zero_le _
    · intro c hc
      rw [List.mem_singleton.mp hc]
      rfl
  rw [initAllocator_eq_ok hinit]
  refine ⟨initialArena_chained arena 0, ?_, hempty _ _, hempty _ _, List.Perm.nil⟩
  · intro c hc b hb
    rw [List.mem_singleton.mp hc, List.mem_singleton.mp hb]
    exact (Nat.lt_succ_self _).ne

end Calls

/-- What the callers rely on: the places handed out lie in the buffers of their
chunks and are all different, each chunk's `size` counts those handed out from
it, and a walk along the chain of node chunks meets every node once. -/
structure Handouts.Disjoint (bufs : BufSizes) (s : Handouts α D) : Prop where
  nodeInside : ∀ p ∈ s.nodes, p.slot < bufs.nodeallocBufSize ∧
    ∃ c ∈ s.arena.nodeAllocs, c.id = p.chunk
  listInside : ∀ l ∈ s.lists, l.1.offset+l.2 ≤ bufs.listallocBufSize ∧
    ∃ c ∈ s.arena.listAllocs, c.id = l.1.chunk
  nodesApart : s.nodes.Nodup
  listsApart : s.lists.Pairwise fun l l' =>
    ∀ i < l.2, ∀ j < l'.2, (⟨l.1.chunk, l.1.offset+i⟩ : ListPtr) ≠ ⟨l'.1.chunk, l'.1.offset+j⟩
  separate : ∀ p ∈ s.nodes, ∀ l ∈ s.lists, p.chunk ≠ l.1.chunk
  nodeSizes : ∀ c ∈ s.arena.nodeAllocs, c.size = s.nodes.countP fun p => p.chunk = c.id
  listSizes : ∀ c ∈ s.arena.listAllocs,
    c.size = ((s.lists.filter fun l => l.1.chunk = c.id).map Prod.snd).sum
  walk : s.arena.nodeWalk.Perm s.nodes

section Results

variable {ok : ℕ → Bool} {bufs : BufSizes} {s : Handouts α D}

theorem placesOf_nodes (id : ℕ) (nodes : List NodePtr) :
    placesOf id (nodes.map NodePtr.extent) = nodes.countP fun p => p.chunk = id := by
  induction nodes with
  | nil => rfl
  | cons p nodes ih =>
    rw [List.countP_cons, ← ih]
    unfold placesOf
    rw [List.map_cons]
    by_cases hp : p.chunk = id
    · simp [NodePtr.extent, hp, Nat.add_comm]
    · simp [NodePtr.extent, hp]

theorem placesOf_lists (id : ℕ) (lists : List (ListPtr × ℕ)) :
    placesOf id (lists.map listExtent) =
      ((lists.filter fun l => l.1.chunk = id).map Prod.snd).sum := by
  rw [placesOf, List.filter_map, List.map_map]
  rfl

theorem Handouts.Sound.disjoint (h : s.Sound bufs) : s.Disjoint bufs where
  nodeInside p hp := by
    obtain ⟨c, hc, hid, hin⟩ := h.nodes.inside p.extent (List.mem_map_of_mem hp)
    have hroom := h.nodes.room c hc
    have hslot : p.slot+1 ≤ c.size := hin
    exact ⟨by omega, c, hc, hid⟩
  listInside l hl := by
    obtain ⟨c, hc, hid, hin⟩ := h.lists.inside (listExtent l) (List.mem_map_of_mem hl)
    exact ⟨hin.trans (h.lists.room c hc), c, hc, hid⟩
  nodesApart := by
    apply (List.pairwise_map.mp h.nodes.apart).imp
    rintro p q hpq rfl
    -- One slot handed out twice would be an extent apart from itself.
    have hself : p.slot+1 ≤ p.slot ∨ p.slot+1 ≤ p.slot := hpq rfl
    omega
  listsApart := by
    apply (List.pairwise_map.mp h.lists.apart).imp
    intro l l' hll i hi j hj heq
    obtain ⟨hchunk, hoffset⟩ := ListPtr.mk.inj heq
    have hends : l.1.offset+l.2 ≤ l'.1.offset ∨ l'.1.offset+l'.2 ≤ l.1.offset := hll hchunk
    omega
  separate p hp l hl := by
    obtain ⟨c, hc, hid, _⟩ := h.nodes.inside p.extent (List.mem_map_of_mem hp)
    obtain ⟨b, hb, hid', _⟩ := h.lists.inside (listExtent l) (List.mem_map_of_mem hl)
    have hne := h.separate c hc b hb
    rwa [hid, hid'] at hne
  nodeSizes c hc := by rw [h.nodes.counts c hc, placesOf_nodes]
  listSizes c hc := by rw [h.lists.counts c hc, placesOf_lists]
  walk := h.walk

/-- After any sequence of calls from the state `VPT_build` sets up, whichever
requests for chunks fail, what was handed out is in bounds and disjoint, and a
further call that fails leaves both chains as they are. -/
theorem allocCalls_disjoint (env : BuildEnv α D) (hnode : 1 < env.bufs.nodeallocBufSize)
    (arena m : Arena α D) (hinit : initAllocator env arena = .ok m) (calls : List AllocCall)
    (hcalls : ∀ n, .list n ∈ calls → n < env.bufs.listallocBufSize) :
    (allocCalls env.ok env.bufs m calls).Disjoint env.bufs ∧
    (((allocCalls env.ok env.bufs m calls).arena.allocVPNode env.ok env.bufs).1 = none →
      ((allocCalls env.ok env.bufs m calls).call env.ok env.bufs .node).arena.nodeAllocs =
          (allocCalls env.ok env.bufs m calls).arena.nodeAllocs ∧
        ((allocCalls env.ok env.bufs m calls).call env.ok env.bufs .node).arena.listAllocs =
          (allocCalls env.ok env.bufs m calls).arena.listAllocs) ∧
    ∀ n, ((allocCalls env.ok env.bufs m calls).arena.allocVPList env.ok env.bufs n).1 = none →
      ((allocCalls env.ok env.bufs m calls).call env.ok env.bufs (.list n)).arena.nodeAllocs =
          (allocCalls env.ok env.bufs m calls).arena.nodeAllocs ∧
        ((allocCalls env.ok env.bufs m calls).call env.ok env.bufs (.list n)).arena.listAllocs =
          (allocCalls env.ok env.bufs m calls).arena.listAllocs := by
  have hsound : (allocCalls env.ok env.bufs m calls).Sound env.bufs :=
    sound_calls hnode calls hcalls (sound_start hinit env.bufs)
  refine ⟨hsound.disjoint, ?_, ?_⟩
  · intro hnone
    rcases allocVPNode_cases env.ok env.bufs hsound.chained with ⟨p, m', he, _⟩ | ⟨_, he⟩
    · rw [he] at hnone
      cases hnone
    · rw [Handouts.call, he]
      exact ⟨rfl, rfl⟩
  · intro n hnone
    rcases allocVPList_cases env.ok env.bufs hsound.chained n with ⟨l, m', he, _⟩ | ⟨_, he⟩
    · rw [he] at hnone
      cases hnone
    · rw [Handouts.call, he]
      exact ⟨rfl, rfl⟩

end Results

/-- Buffers of three nodes and of ten list cells; the request for a second list
chunk fails, and a shorter list still finds room in the first. -/
theorem allocCalls_disjoint_small :
    (allocCalls (fun i => decide (i ≠ 3)) ⟨3, 10⟩
      { (Arena.empty : Arena ℤ ℤ) with nodeAllocs := [⟨0, 0⟩], listAllocs := [⟨1, 0⟩], requests := 2 }
      [.node, .list 4, .node, .node, .list 5, .list 3]).lists = [(⟨1, 0⟩, 4), (⟨1, 4⟩, 3)] ∧
    (allocCalls (fun i => decide (i ≠ 3)) ⟨3, 10⟩
      { (Arena.empty : Arena ℤ ℤ) with nodeAllocs := [⟨0, 0⟩], listAllocs := [⟨1, 0⟩], requests := 2 }
      [.node, .list 4, .node, .node, .list 5, .list 3]).Disjoint ⟨3, 10⟩ :=
  ⟨by decide, (allocCalls_disjoint
    { distFn := fun x y : ℤ => |x-y|, big := ⟨0, 100⟩, ok := fun i => decide (i ≠ 3), bufs := ⟨3, 10⟩ }
    (by decide) Arena.empty _ rfl [.node, .list 4, .node, .node, .list 5, .list 3] (by
      intro n hn
      simp only [List.mem_cons, AllocCall.list.injEq, reduceCtorEq, List.not_mem_nil, false_or,
        or_false] at hn
      change n < 10
      omega)).1⟩

end VantagePoint
