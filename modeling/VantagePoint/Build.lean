import VantagePoint.Arena
import VantagePoint.Segment
import VantagePoint.Sort
import VantagePoint.WhileLoop
import Mathlib.Algebra.Ring.Nat

/-! `VPT_build`. Pointers into the build buffer are indices; the source's two
copies of the loop body, for left and for right nodes, are one definition with
the side as a parameter. -/
namespace VantagePoint
open WhileLoop

universe u v

variable {α : Type u} {D : Type v}

/-- What `VPT_build` is called with besides the data, and what its calls of
`malloc` will answer. `big` is the sentinel of the merge sort. -/
structure BuildEnv (α : Type u) (D : Type v) where
  distFn : α → α → D
  big : VPEntry α D
  ok : ℕ → Bool
  bufs : BufSizes

/-- `outOfMemory` is a return of `false`; the others are accesses outside a
buffer or through a null pointer, and reads of memory that was never written. -/
inductive TreeError where
  | outOfMemory
  | outOfBounds
  | nullWrite
  | unwritten
deriving DecidableEq, Repr

structure VPTree (α : Type u) (D : Type v) where
  root : NodePtr
  size : ℕ
  arena : Arena α D

inductive Side where
  | left
  | right
deriving DecidableEq, Repr

/-- `children` is an index into the build buffer. -/
structure VPBuildStackFrame where
  parent : NodePtr
  children : ℕ
  numChildren : ℕ
deriving DecidableEq, Repr

/-- The variables of the main loop, the stacks with their tops first. -/
structure BuildState (α : Type u) (D : Type v) where
  arena : Arena α D
  buildBuffer : List (VPEntry α D)
  leftStack : List VPBuildStackFrame
  rightStack : List VPBuildStackFrame

/-- Number of values of `size_t`. -/
def sizeT : ℕ := 2^64

/-- Subtraction of `size_t`. -/
def subSize (a b : ℕ) : ℕ := (a+sizeT-b%sizeT)%sizeT

/-- A split at the moment the code comes to it: the vantage point, the distance
it measures by, and `entry_list[0..num_entries)` inside the build buffer. -/
structure Split (α : Type u) (D : Type v) where
  sortBy : α
  distance : α → D
  buildBuffer : List (VPEntry α D)
  entryList : ℕ
  numEntries : ℕ

/-- `left_num_children`, `right_children`, `right_num_children` and the radius. -/
structure Halves (D : Type v) where
  radius : D
  leftNum : ℕ
  rightChildren : ℕ
  rightNum : ℕ

section Code

variable [LinearOrder D]

/-- `if (!p) return false;` -/
def orFail {β γ : Type*} : Option β × γ → Except TreeError (β × γ)
  | (some b, c) => .ok (b, c)
  | (none, _) => .error .outOfMemory

def Split.entries (σ : Split α D) : List (VPEntry α D) :=
  Segment.slice σ.entryList σ.numEntries σ.buildBuffer

/-- The entries with the distances just measured, sorted by `VPSort`. -/
def Split.sorted (big : VPEntry α D) (σ : Split α D) : List (VPEntry α D) :=
  vpSort big (σ.entries.map fun e => ⟨e.item, σ.distance e.item⟩)

/-- The build buffer after measuring and sorting. -/
def Split.measured (big : VPEntry α D) (σ : Split α D) : List (VPEntry α D) :=
  Segment.splice σ.entryList σ.numEntries σ.buildBuffer (σ.sorted big)

/-- Where the backward scan starts: `num_entries / 2` entries before the end. -/
def Split.start (σ : Split α D) : ℕ := σ.entryList+(σ.numEntries-σ.numEntries/2)

/-- `while (right_children->distance == (right_children - 1)->distance)`, going
back from index `r`. `none` when it comes to read index -1 of the buffer. -/
def scanBack (buffer : List (VPEntry α D)) : ℕ → Option ℕ
  | 0 => none
  | r+1 =>
    match buffer[r+1]?, buffer[r]? with
    | some a, some b => if a.distance = b.distance then scanBack buffer r else some (r+1)
    -- a comparison with an entry behind the buffer
    | _, _ => none

/-- The values of `right_children` at which that loop makes its comparison, with
the entry there and the one before it. -/
def scanReads (buffer : List (VPEntry α D)) : ℕ → List ℕ
  | 0 => [0]
  | r+1 =>
    match buffer[r+1]?, buffer[r]? with
    | some a, some b => if a.distance = b.distance then (r+1) :: scanReads buffer r else [r+1]
    | _, _ => [r+1]

/-- The split itself, once the entries are sorted. -/
def Split.halves (big : VPEntry α D) (σ : Split α D) : Except TreeError (Halves D) :=
  match scanBack (σ.measured big) σ.start with
  | none => .error .outOfBounds
  | some r =>
    match (σ.measured big)[r-1]? with
    | none => .error .outOfBounds
    | some last =>
      -- `right_num_children++` at every step back
      let rightNum := (σ.numEntries/2+(σ.start-r))%sizeT
      .ok { radius := last.distance
            leftNum := subSize σ.numEntries rightNum
            rightChildren := r
            rightNum := rightNum }

/-- `parent->u.branch.left = newnode`, or `right`. -/
def Arena.setChild (m : Arena α D) (side : Side) (parent newnode : NodePtr) : Arena α D :=
  match m.nodes parent, side with
  | .branch item radius _ right, .left =>
    m.writeNode parent (.branch item radius (some newnode) right)
  | .branch item radius left _, .right =>
    m.writeNode parent (.branch item radius left (some newnode))
  | _, _ => m

/-- The copying loop of a leaf; with nothing to copy it writes nowhere. -/
def Arena.copyItems (m : Arena α D) (items : Option ListPtr) (xs : List α) :
    Except TreeError (Arena α D) :=
  match items, xs with
  | some l, xs => .ok (m.writeItems l xs)
  | none, [] => .ok m
  | none, _ :: _ => .error .nullWrite

/-- Base case. Only the left copy checks the list it gets. -/
def buildLeaf (env : BuildEnv α D) (side : Side) (s : BuildState α D)
    (popped : VPBuildStackFrame) : Except TreeError (BuildState α D) :=
  (orFail (s.arena.allocVPNode env.ok env.bufs)).bind fun (newnode, arena) =>
    match arena.allocVPList env.ok env.bufs popped.numChildren with
    | (items, arena) =>
      if side = .left ∧ items = none then .error .outOfMemory
      else if popped.children+popped.numChildren > s.buildBuffer.length then .error .outOfBounds
      else
        -- copies `children[i].item` for all `i` below `num_children`
        let xs := (Segment.slice popped.children popped.numChildren s.buildBuffer).map VPEntry.item
        let cell := .pointlist items popped.numChildren popped.numChildren
        ((arena.writeNode newnode cell).copyItems items xs).bind fun arena =>
          .ok { s with arena := arena.setChild side popped.parent newnode }

/-- The split of a frame: its first child is the vantage point. -/
def frameSplit (env : BuildEnv α D) (s : BuildState α D) (popped : VPBuildStackFrame) :
    Except TreeError (Split α D) :=
  match s.buildBuffer[popped.children]? with
  | none => .error .outOfBounds
  | some first =>
    if popped.children+popped.numChildren > s.buildBuffer.length then .error .outOfBounds
    else .ok { sortBy := first.item
               distance := env.distFn first.item
               buildBuffer := s.buildBuffer
               entryList := popped.children+1
               numEntries := popped.numChildren-1 }

/-- Inductive case. -/
def buildBranch (env : BuildEnv α D) (side : Side) (s : BuildState α D)
    (popped : VPBuildStackFrame) : Except TreeError (BuildState α D) :=
  (orFail (s.arena.allocVPNode env.ok env.bufs)).bind fun (newnode, arena) =>
    (frameSplit env s popped).bind fun σ =>
      (σ.halves env.big).bind fun h =>
        -- both frames name the new node as the parent of what they become
        let cell := .branch σ.sortBy h.radius none none
        .ok { arena := (arena.writeNode newnode cell).setChild side popped.parent newnode
              buildBuffer := σ.measured env.big
              leftStack := ⟨newnode, σ.entryList, h.leftNum⟩ :: s.leftStack
              rightStack := ⟨newnode, h.rightChildren, h.rightNum⟩ :: s.rightStack }

/-- The frame an iteration takes, and the state without it. -/
def BuildState.pop (s : BuildState α D) : Option (Side × VPBuildStackFrame × BuildState α D) :=
  match s.leftStack, s.rightStack with
  -- left frames first, as long as there are any
  | popped :: rest, _ => some (.left, popped, { s with leftStack := rest })
  | [], popped :: rest => some (.right, popped, { s with rightStack := rest })
  | [], [] => none

/-- Body of `while (left_stacksize || right_stacksize)`. -/
def buildBody (env : BuildEnv α D) (s : BuildState α D) : Except TreeError (BuildState α D) :=
  match s.pop with
  | none => .ok s
  | some (side, popped, s) =>
    if popped.numChildren < vptBuildListThreshold then buildLeaf env side s popped
    else buildBranch env side s popped

def buildLoop (env : BuildEnv α D) : Loop (BuildState α D) TreeError where
  guard s := s.pop.isSome
  body := buildBody env

/-- `__VPT_small_build` -/
def vptSmallBuild (env : BuildEnv α D) (arena : Arena α D) (data : List α) :
    Except TreeError (VPTree α D) :=
  (orFail (arena.allocVPNode env.ok env.bufs)).bind fun (root, arena) =>
    (orFail (arena.allocVPList env.ok env.bufs vptMaxListSize)).bind fun (items, arena) =>
      let cell := .pointlist (some items) data.length vptMaxListSize
      .ok ⟨root, data.length, (arena.writeNode root cell).writeItems items data⟩

/-- The first two requests: one empty chunk for each chain. -/
def initAllocator (env : BuildEnv α D) (arena : Arena α D) : Except TreeError (Arena α D) :=
  (orFail (arena.malloc env.ok)).bind fun (nodeChunk, arena) =>
    (orFail (arena.malloc env.ok)).bind fun (listChunk, arena) =>
      .ok { arena with nodeAllocs := [⟨nodeChunk, 0⟩], listAllocs := [⟨listChunk, 0⟩] }

/-- A large build when it comes to split by the root, with the build buffer and
the scratch space allocated. -/
structure RootSplit (α : Type u) (D : Type v) where
  split : Split α D
  arena : Arena α D
  buildBuffer : ℕ
  scratchSpace : ℕ

/-- The root's distances are measured towards the root, all others from the
vantage point. The distances of a fresh buffer are written before they are read;
`big` stands for what it holds. -/
def rootSplit (env : BuildEnv α D) (arena : Arena α D) (data : List α) :
    Except TreeError (RootSplit α D) :=
  match data with
  | [] => .error .outOfBounds
  | sortBy :: data =>
    (orFail (arena.malloc env.ok)).bind fun (buildBuffer, arena) =>
      (orFail (arena.malloc env.ok)).bind fun (scratchSpace, arena) =>
        let split := { sortBy := sortBy
                       distance := fun x => env.distFn x sortBy
                       buildBuffer := data.map fun x => ⟨x, env.big.distance⟩
                       entryList := 0
                       numEntries := data.length }
        .ok ⟨split, arena, buildBuffer, scratchSpace⟩

/-- The root node, and the state in which the main loop is entered. -/
def buildStart (env : BuildEnv α D) (r : RootSplit α D) :
    Except TreeError (NodePtr × BuildState α D) :=
  (r.split.halves env.big).bind fun h =>
    (orFail (r.arena.allocVPNode env.ok env.bufs)).bind fun (root, arena) =>
      .ok (root, { arena := arena.writeNode root (.branch r.split.sortBy h.radius none none)
                   buildBuffer := r.split.measured env.big
                   leftStack := [⟨root, r.split.entryList, h.leftNum⟩]
                   rightStack := [⟨root, h.rightChildren, h.rightNum⟩] })

/-- Passes through the main loop that are enough for `n` points. -/
def buildFuel (n : ℕ) : ℕ := 2*n+2

def vptLargeBuild (env : BuildEnv α D) (arena : Arena α D) (data : List α) :
    Except TreeError (VPTree α D) :=
  (rootSplit env arena data).bind fun r =>
    (buildStart env r).bind fun (root, s) =>
      ((buildLoop env).run (buildFuel data.length) s).bind fun s =>
        .ok ⟨root, data.length, (s.arena.free r.scratchSpace).free r.buildBuffer⟩

/-- `VPT_build`; a return of `true` is a tree. -/
def vptBuild (env : BuildEnv α D) (arena : Arena α D) (data : List α) :
    Except TreeError (VPTree α D) :=
  (initAllocator env arena).bind fun arena =>
    if data.length < vptMaxListSize then vptSmallBuild env arena data
    else vptLargeBuild env arena data

end Code

section Runs

variable [LinearOrder D]

/-- The main loop of a build of `data` is entered in state `s`. -/
def EntersLoop (env : BuildEnv α D) (arena : Arena α D) (data : List α) (root : NodePtr)
    (s : BuildState α D) : Prop :=
  vptMaxListSize ≤ data.length ∧ ∃ arena' r, initAllocator env arena = .ok arena' ∧
    rootSplit env arena' data = .ok r ∧ buildStart env r = .ok (root, s)

/-- The splits a build of `data` performs: the root's, and those of the frames
popped in the states its main loop reaches. -/
inductive Performs (env : BuildEnv α D) (arena : Arena α D) (data : List α) : Split α D → Prop where
  | root (arena' : Arena α D) (r : RootSplit α D) (hlarge : vptMaxListSize ≤ data.length)
      (hinit : initAllocator env arena = .ok arena') (hr : rootSplit env arena' data = .ok r) :
      Performs env arena data r.split
  | frame (root : NodePtr) (s₀ s s' : BuildState α D) (side : Side) (popped : VPBuildStackFrame)
      (σ : Split α D) (henter : EntersLoop env arena data root s₀)
      (hs : (buildLoop env).Reaches s₀ s) (hpop : s.pop = some (side, popped, s'))
      (hbranch : vptBuildListThreshold ≤ popped.numChildren)
      (hnode : (s'.arena.allocVPNode env.ok env.bufs).1.isSome)
      (hσ : frameSplit env s' popped = .ok σ) : Performs env arena data σ

/-- The backward scan stops at two adjacent unequal distances of the split's own
entry list. -/
def Split.Inside (big : VPEntry α D) (σ : Split α D) : Prop :=
  ∃ r, scanBack (σ.measured big) σ.start = some r ∧ σ.entryList < r

def SplitsInside (env : BuildEnv α D) (arena : Arena α D) (data : List α) : Prop :=
  ∀ σ, Performs env arena data σ → σ.Inside env.big

end Runs

end VantagePoint
