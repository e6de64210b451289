import VantagePoint.BuildMemory
import VantagePoint.KNearest
import VantagePoint.RangeSearch

/-! The queries on the memory of a tree. They follow child pointers and read items
through the chunks of the allocator, and a chunk that was freed faults. Where
the memory holds a tree they do what the searches of that tree do. -/
namespace VantagePoint
open WhileLoop

universe u v w z

variable {α : Type u} {D : Type v} {σ : Type w} {ε : Type z}

/-- How an access goes wrong. -/
inductive MemoryFault where
  | nullPointer
  | useAfterFree
  | unwritten
deriving DecidableEq, Repr

/-- Why a loop over memory is left: an access that goes wrong, or a `return` in
its body. -/
inductive Stop (ε : Type z) where
  | fault (fault : MemoryFault)
  | early (value : ε)

/-- Locals of a search, with the pointers that `to_traverse` really holds. -/
structure PointerState (σ : Type w) where
  acc : σ
  toTraverse : List (Option NodePtr)

section Code

/-- `*p` -/
def Arena.loadNode (m : Arena α D) : Option NodePtr → Except MemoryFault (VPNodeCell α D)
  | none => .error .nullPointer
  | some p => if p.chunk ∈ m.freed then .error .useAfterFree else .ok (m.nodes p)

/-- `items[i]` for all `i` below `size`. -/
def Arena.loadItems (m : Arena α D) : Option ListPtr → ℕ → Except MemoryFault (List α)
  | _, 0 => .ok []
  | none, _+1 => .error .nullPointer
  | some l, n+1 =>
    if l.chunk ∈ m.freed then .error .useAfterFree
    else
      match m.readItems l (n+1) with
      | none => .error .unwritten
      | some items => .ok items

variable [LinearOrder D] [Add D] [Sub D]

/-- `pushChildren`, on pointers. -/
def pushPointers (dist bound radius : D) (left right : Option NodePtr)
    (toTraverse : List (Option NodePtr)) : List (Option NodePtr) :=
  if dist < radius then
    let toTraverse := if dist-bound ≤ radius then left :: toTraverse else toTraverse
    if dist+bound ≥ radius then right :: toTraverse else toTraverse
  else
    let toTraverse := if dist+bound ≥ radius then right :: toTraverse else toTraverse
    if dist-bound ≤ radius then left :: toTraverse else toTraverse

/-- Body of `while (to_traverse_size)`. -/
def Search.pointerBody (S : Search α D σ ε) (m : Arena α D) (dist_fn : α → α → D)
    (datapoint : α) (s : PointerState σ) : Except (Stop ε) (PointerState σ) :=
  match s.toTraverse with
  | [] => .ok s
  | currentNode :: toTraverse =>
    ((m.loadNode currentNode).mapError .fault).bind fun
    | .uninit => .error (.fault .unwritten)
    | .branch item radius left right =>
      let dist := dist_fn item datapoint
      ((S.onBranch s.acc item dist).mapError .early).bind fun acc =>
        .ok ⟨acc, pushPointers dist (S.bound acc) radius left right toTraverse⟩
    | .pointlist items size _ =>
      ((m.loadItems items size).mapError .fault).bind fun items =>
        ((S.onList s.acc items).mapError .early).bind fun acc => .ok ⟨acc, toTraverse⟩

def Search.pointerLoop (S : Search α D σ ε) (m : Arena α D) (dist_fn : α → α → D)
    (datapoint : α) : Loop (PointerState σ) (Stop ε) where
  guard s := !s.toTraverse.isEmpty
  body := S.pointerBody m dist_fn datapoint

/-- A call of one of the queries; what `malloc` and `realloc` answer to
`VPT_all_within` is part of it. -/
inductive Query (α : Type u) (D : Type v) where
  | nn (datapoint : α)
  | knn (datapoint : α) (k : ℕ)
  | allWithin (datapoint : α) (max_dist : D) (buffer : Option ℕ) (realloc : ℕ → Option ℕ)

/-- What the caller of a query finds afterwards. -/
inductive Answer (α : Type u) (D : Type v) where
  | nn (result : Closest α D)
  | knn (results : List (VPEntry α D) × ℕ)
  | allWithin (results : Bool × WithinState α D)

/-- The loop of a query from the root on, and what is returned at its end; `none`
while it is still running. -/
def Arena.search (m : Arena α D) (S : Search α D σ ε) (dist_fn : α → α → D) (datapoint : α)
    (root : NodePtr) (fuel : ℕ) (acc : σ) (atEnd : σ → Answer α D) (atReturn : ε → Answer α D) :
    Except MemoryFault (Option (Answer α D)) :=
  match (S.pointerLoop m dist_fn datapoint).run fuel ⟨acc, [some root]⟩ with
  | .ok ⟨acc, []⟩ => .ok (some (atEnd acc))
  | .ok ⟨_, _ :: _⟩ => .ok none
  | .error (.early value) => .ok (some (atReturn value))
  | .error (.fault fault) => .error fault

/-- `VPT_nn`, `VPT_knn` and `VPT_all_within` on a tree in memory. -/
def VPTree.query (dist_fn : α → α → D) (DIST_MAX : D) (t : VPTree α D) (fuel : ℕ) :
    Query α D → Except MemoryFault (Option (Answer α D))
  | .nn datapoint =>
    t.arena.search (nnSearch dist_fn datapoint) dist_fn datapoint t.root fuel ⟨none, DIST_MAX⟩
      .nn Empty.elim
  | .knn datapoint k =>
    if t.size = 0 ∨ k = 0 then .ok (some (.knn ([], 0)))
    else
      t.arena.search (knnSearch k dist_fn datapoint) dist_fn datapoint t.root fuel
        (knnStart DIST_MAX) (fun s => .knn (s.knnlist.take s.knnlistSize, s.knnlistSize)) Empty.elim
  | .allWithin datapoint max_dist buffer realloc =>
    match buffer with
    | none => .ok (some (.allWithin (false, withinStart none)))
    | some address =>
      t.arena.search (withinSearch realloc dist_fn datapoint max_dist) dist_fn datapoint t.root
        fuel (withinStart (some address))
        (fun s => .allWithin (true, { s with numResults := s.allWithin.numItems }))
        fun s => .allWithin (false, s)

/-- The same queries on the tree that the memory holds. -/
def VPNode.answer (dist_fn : α → α → D) (DIST_MAX : D) (root : VPNode α D) (size : ℕ) :
    Query α D → Answer α D
  | .nn datapoint => .nn (vptNn dist_fn DIST_MAX root datapoint)
  | .knn datapoint k => .knn (vptKnn dist_fn DIST_MAX root size datapoint k)
  | .allWithin datapoint max_dist buffer realloc =>
    .allWithin (vptAllWithin buffer realloc dist_fn root datapoint max_dist)

end Code

/-- The blocks of both chains. -/
def Arena.chunks (m : Arena α D) : List ℕ :=
  m.nodeAllocs.map Chunk.id ++ m.listAllocs.map Chunk.id

/-- None of the chunks has been freed. -/
def Arena.Live (m : Arena α D) : Prop := ∀ i ∈ m.chunks, i ∉ m.freed

section Loads

variable {m : Arena α D} {p : NodePtr} {l : ListPtr}

theorem chunk_mem_of_walk (hp : p ∈ m.nodeWalk) : p.chunk ∈ m.nodeAllocs.map Chunk.id := by
  obtain ⟨c, hc, hid, _⟩ := (mem_nodeWalk m p).mp hp
  exact List.mem_map.mpr ⟨c, hc, hid⟩

theorem loadNode_of_live (hlive : m.Live) (hp : p ∈ m.nodeWalk) :
    m.loadNode (some p) = .ok (m.nodes p) :=
  if_neg (hlive p.chunk (List.mem_append_left _ (chunk_mem_of_walk hp)))

theorem loadItems_of_live (hlive : m.Live) {xs : List α} (h : m.Holds l xs) :
    m.loadItems (some l) xs.length = .ok xs := by
  cases xs with
  -- an empty list is not read
  | nil => rfl
  | cons x xs =>
    obtain ⟨c, hc, hid, _⟩ := h.has 0 (Nat.succ_pos _)
    have hmem : l.chunk ∈ m.listAllocs.map Chunk.id := List.mem_map.mpr ⟨c, hc, hid⟩
    have hread := h.read
    rw [List.length_cons] at hread ⊢
    rw [Arena.loadItems, if_neg (hlive l.chunk (List.mem_append_right _ hmem)), hread]

end Loads

section Simulation

variable [LinearOrder D] [Add D] [Sub D] {m : Arena α D}

/-- The pointer leads to the tree. -/
def Arena.PointsTo (m : Arena α D) (p : Option NodePtr) (t : VPNode α D) : Prop :=
  ∃ q, p = some q ∧ m.Represents t q

/-- The two states of a search: the same variables, and a stack of pointers to the
trees of the other stack. -/
structure SameSearch (m : Arena α D) (s : PointerState σ) (s' : SearchState α D σ) : Prop where
  acc : s.acc = s'.acc
  stack : List.Forall₂ m.PointsTo s.toTraverse s'.toTraverse

def SameReturn (e : Stop ε) (e' : ε) : Prop := e = .early e'

theorem pushPointers_forall₂ {dist bound radius : D} {left right : Option NodePtr}
    {l r : VPNode α D} {ps : List (Option NodePtr)} {ts : List (VPNode α D)}
    (hl : m.PointsTo left l) (hr : m.PointsTo right r) (h : List.Forall₂ m.PointsTo ps ts) :
    List.Forall₂ m.PointsTo (pushPointers dist bound radius left right ps)
      (pushChildren dist bound radius l r ts) := by
  -- The two tests read the same numbers, so both stacks push the same children.
  have hpush (c : Prop) [Decidable c] {p : Option NodePtr} {t : VPNode α D}
      {ps : List (Option NodePtr)} {ts : List (VPNode α D)} (hp : m.PointsTo p t)
      (h : List.Forall₂ m.PointsTo ps ts) :
      List.Forall₂ m.PointsTo (if c then p :: ps else ps) (if c then t :: ts else ts) := by
    by_cases hc : c
    · rw [if_pos hc, if_pos hc]
      exact .cons hp h
    · rwa [if_neg hc, if_neg hc]
  unfold pushPointers pushChildren
  by_cases hlt : dist < radius
  · rw [if_pos hlt, if_pos hlt]
    exact hpush _ hr (hpush _ hl h)
  · rw [if_neg hlt, if_neg hlt]
    exact hpush _ hl (hpush _ hr h)

variable (S : Search α D σ ε) (dist_fn : α → α → D) (q : α)

/-- One pass over memory is one pass over the tree. -/
theorem pointerBody_matches (hlive : m.Live) {s : PointerState σ} {s' : SearchState α D σ}
    (h : SameSearch m s s') :
    Matches (SameSearch m) SameReturn (S.pointerBody m dist_fn q s) (S.body dist_fn q s') := by
  obtain ⟨acc, ps⟩ := s
  obtain ⟨acc', ts⟩ := s'
  obtain ⟨hacc, hstack⟩ := h
  obtain rfl : acc = acc' := hacc
  cases hstack with
  | nil => exact ⟨rfl, .nil⟩
  | @cons p t ps ts hp hstack =>
    -- The same node is on top of both stacks; the cases are those of the tree.
    obtain ⟨p, rfl, hrep⟩ := hp
    cases t with
    | pointlist xs =>
      obtain ⟨hwalk, l, capacity, hcell, hholds⟩ := hrep
      simp only [Search.pointerBody, Search.body, loadNode_of_live hlive hwalk, hcell,
        loadItems_of_live hlive hholds, Except.mapError, Except.bind]
      cases S.onList acc xs with
      | error e => exact rfl
      | ok acc' => exact ⟨rfl, hstack⟩
    | branch v r left right =>
      obtain ⟨hwalk, lp, rp, hcell, hleft, hright⟩ := hrep
      simp only [Search.pointerBody, Search.body, loadNode_of_live hlive hwalk, hcell,
        Except.mapError, Except.bind]
      cases S.onBranch acc v (dist_fn v q) with
      | error e => exact rfl
      | ok acc' =>
        exact ⟨rfl, pushPointers_forall₂ ⟨lp, rfl, hleft⟩ ⟨rp, rfl, hright⟩ hstack⟩

/-- A whole search of memory is the search of the tree that it holds. -/
theorem pointerLoop_matches (hlive : m.Live) {p : NodePtr} {t : VPNode α D}
    (h : m.Represents t p) (fuel : ℕ) (acc : σ) :
    Matches (SameSearch m) SameReturn
      ((S.pointerLoop m dist_fn q).run fuel ⟨acc, [some p]⟩)
      ((S.loop dist_fn q).run fuel (.start acc t)) := by
  apply run_simulates
  · rintro ⟨_, ps⟩ ⟨_, ts⟩ ⟨_, hstack⟩
    change (!ps.isEmpty) = !ts.isEmpty
    cases hstack with
    | nil => rfl
    | cons _ _ => rfl
  · intro s s' hs _
    exact pointerBody_matches S dist_fn q hlive hs
  · exact ⟨rfl, .cons ⟨p, rfl, h⟩ .nil⟩

theorem search_represents (hlive : m.Live) {p : NodePtr} {t : VPNode α D}
    (h : m.Represents t p) (acc : σ) (atEnd : σ → Answer α D) (atReturn : ε → Answer α D) :
    m.search S dist_fn q p t.nodeCount acc atEnd atReturn =
      .ok (some (match (S.loop dist_fn q).run t.nodeCount (.start acc t) with
        | .ok s => atEnd s.acc
        | .error e => atReturn e)) := by
  have hmatch := pointerLoop_matches S dist_fn q hlive h t.nodeCount acc
  rw [loop_run_start] at hmatch ⊢
  unfold Arena.search
  generalize (S.pointerLoop m dist_fn q).run t.nodeCount ⟨acc, [some p]⟩ = x at hmatch ⊢
  cases hv : S.visit dist_fn q t acc with
  | error e =>
    rw [hv] at hmatch
    cases x with
    | ok s => exact hmatch.elim
    | error stop =>
      obtain rfl : stop = .early e := hmatch
      rfl
  | ok acc' =>
    rw [hv] at hmatch
    cases x with
    | error stop => exact hmatch.elim
    | ok s =>
      obtain ⟨acc'', ps⟩ := s
      obtain ⟨hacc, hstack⟩ := hmatch
      obtain rfl : acc'' = acc' := hacc
      cases hstack
      rfl

/-- A query of live memory gives the answer of the tree that the memory holds. -/
theorem query_represents (DIST_MAX : D) {t : VPTree α D} {root : VPNode α D}
    (hlive : t.arena.Live) (h : t.arena.Represents root t.root) (query : Query α D) :
    t.query dist_fn DIST_MAX root.nodeCount query =
      .ok (some (root.answer dist_fn DIST_MAX t.size query)) := by
  cases query with
  | nn q =>
    rw [VPTree.query, search_represents _ dist_fn q hlive h, VPNode.answer,
      (nn_loop_ends dist_fn DIST_MAX root q).1]
  | knn q k =>
    rw [VPTree.query, VPNode.answer, vptKnn]
    by_cases hnone : t.size = 0 ∨ k = 0
    · rw [if_pos hnone, if_pos hnone]
    · rw [if_neg hnone, if_neg hnone, search_represents _ dist_fn q hlive h]
      cases ((knnSearch k dist_fn q).loop dist_fn q).run root.nodeCount
        (.start (knnStart DIST_MAX) root) with
      | error e => exact e.elim
      | ok s => rfl
  | allWithin q max_dist buffer realloc =>
    cases buffer with
    | none => rfl
    | some address =>
      rw [VPTree.query, VPNode.answer, vptAllWithin, search_represents _ dist_fn q hlive h]
      cases ((withinSearch realloc dist_fn q max_dist).loop dist_fn q).run root.nodeCount
        (.start (withinStart (some address)) root) with
      | error e => rfl
      | ok s => rfl

end Simulation

/-- A freed root is the first thing a query comes to. -/
theorem search_freed [LinearOrder D] [Add D] [Sub D] {m : Arena α D} {root : NodePtr}
    (hfreed : root.chunk ∈ m.freed) (S : Search α D σ ε) (dist_fn : α → α → D) (q : α) (fuel : ℕ)
    (acc : σ) (atEnd : σ → Answer α D) (atReturn : ε → Answer α D) :
    m.search S dist_fn q root (fuel+1) acc atEnd atReturn = .error .useAfterFree := by
  have hload : m.loadNode (some root) = .error .useAfterFree := if_pos hfreed
  have hbody : (S.pointerLoop m dist_fn q).body ⟨acc, [some root]⟩ =
      .error (.fault .useAfterFree) := by
    simp only [Search.pointerLoop, Search.pointerBody, hload, Except.mapError, Except.bind]
  rw [Arena.search, run_of_error _ fuel _ _ rfl hbody]

end VantagePoint
