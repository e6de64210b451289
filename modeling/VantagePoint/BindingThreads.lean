import VantagePoint.GuardedThreads
import VantagePoint.JavaBinding
import VantagePoint.MemorySearch
import VantagePoint.TreeLife

/-! Threads of a JVM that call the methods of one Java tree. Here the C tree is the one
in memory, and what a method does to it is cut into the steps between which another
thread may come in: a search takes its nodes and measures its distances one by one,
and a rebuild tears the tree down before it builds the next. The tree and the array of
objects are behind the lock; `currently_comparing`, the query point, is not. What belongs to
the JVM is left out: the environment pointer, which is that of the thread that built
the tree, and the references. -/
namespace VantagePoint
open WhileLoop RwLock GuardedThreads

/-- What the lock guards: the fields `vpt` and `datapoints`. -/
structure SharedTree (Obj D : Type) where
  vpt : VPTree ℤ D
  datapoints : JavaArray Obj

/-- How a method of the binding goes wrong: in a search, in a rebuild, or by `exit(2)`. -/
inductive BindingFault where
  | memory (fault : MemoryFault)
  | tree (error : TreeError)
  | exits
deriving DecidableEq, Repr

/-- The distance function of the Java class, and the constants of the C library. -/
structure Binding (Obj D : Type) where
  distFn : Obj → Obj → D
  DIST_MAX : D
  big : VPEntry ℤ D

inductive Request (D : Type) where
  | nn
  | knn (k : ℕ)
  | allWithin (max_dist : D)

/-- The variables of the search that answers a request. -/
def Request.Acc {D : Type} : Request D → Type
  | .nn => Closest ℤ D
  | .knn _ => KnnState ℤ D
  | .allWithin _ => WithinState ℤ D

/-- What the search returns early. -/
def Request.Err {D : Type} : Request D → Type
  | .nn => Empty
  | .knn _ => Empty
  | .allWithin _ => WithinState ℤ D

/-- Locals of a search: its variables and stack; the items of the node on top that are
still to be measured, with the distances of the others; and a record of the run that
the code does not keep, the query points that were found at each measurement. -/
structure Scan (Obj D σ : Type) where
  state : PointerState σ
  node : Option (List ℤ × List (ℤ × D))
  seen : List (Option Obj)

inductive BindingCall (Obj D : Type) where
  | rebuild
  | addRebuild (datapoints : JavaArray Obj)
  | query (request : Request D) (datapoint : Obj)
  | size
  | add (datapoint : Option Obj)

/-- Where a thread is in a method. -/
inductive Pc (Obj D : Type) where
  | ready
  | locking (request : Request D) (datapoint : Obj)
  | posting (request : Request D) (datapoint : Obj)
  | starting (request : Request D) (datapoint : Obj)
  | searching (request : Request D) (datapoint : Obj) (scan : Scan Obj D request.Acc)
  | found (request : Request D) (datapoint : Obj) (acc : request.Acc) (seen : List (Option Obj))
  | sizing
  | adding (datapoint : Option Obj)
  | storing (datapoints : JavaArray Obj)
  | appending (datapoints : JavaArray Obj)
  | tearing (added : Option ℕ)
  | building (block : ℕ) (data : List ℤ)
  | releasing (mode : Mode)

/-- The calls a thread has still to make, the read holds that earlier calls returned
with, and the values they returned. -/
structure BindingThread (Obj D : Type) where
  todo : List (BindingCall Obj D)
  leaked : ℕ
  returned : List (JavaValue Obj D)
  pc : Pc Obj D

variable {Obj D : Type}

section Code

/-- `GetObjectArrayElement`; an index outside the array throws, and the object is NULL. -/
def element (datapoints : JavaArray Obj) (i : ℤ) : Option Obj :=
  if i < 0 then none else (datapoints[i.toNat]?).join

/-- `jdist_fn`. The second index is -1 for the query point. -/
def jdistFn (distFn : Obj → Obj → D) (datapoints : JavaArray Obj) (comparing : Option Obj)
    (first_idx second_idx : ℤ) : Except BindingFault D :=
  match element datapoints first_idx,
      if second_idx = -1 then comparing else element datapoints second_idx with
  | some first, some second => .ok (distFn first second)
  | _, _ => .error .exits

/-- `nn` takes no lock. -/
def Request.locked : Request D → Bool
  | .nn => false
  | .knn _ => true
  | .allWithin _ => true

/-- An element of the result array, read by `new_VPEntry_jobject`. -/
def newEntryAt (datapoints : JavaArray Obj) :
    Option (VPEntry ℤ D) → Except BindingFault (VPEntry Obj D)
  | none => .error (.memory .unwritten)
  | some e =>
    match element datapoints e.item with
    | none => .error .exits
    | some item => .ok ⟨item, e.distance⟩

/-- The items of the node a pointer leads to. -/
def nodeItems (m : Arena ℤ D) (p : Option NodePtr) : Except MemoryFault (List ℤ) :=
  (m.loadNode p).bind fun
  | .uninit => .error .unwritten
  | .branch item _ _ _ => .ok [item]
  | .pointlist items size _ => m.loadItems items size

/-- The distance measured for an item. -/
def measuredDist [Zero D] (measured : List (ℤ × D)) (x : ℤ) : D := (measured.lookup x).getD 0

/-- The search, given the distance of each item from the query point. All memory it
asks for is found, at a new address. -/
def Request.search [LinearOrder D] (dist : ℤ → D) : (r : Request D) → Search ℤ D r.Acc r.Err
  | .nn => nnSearch (fun x _ => dist x) (-1)
  | .knn k => knnSearch k (fun x _ => dist x) (-1)
  | .allWithin max_dist => withinSearch (fun n => some (n+1)) (fun x _ => dist x) (-1) max_dist

def Request.start (DIST_MAX : D) : (r : Request D) → r.Acc
  | .nn => (⟨none, DIST_MAX⟩ : Closest ℤ D)
  | .knn _ => (knnStart DIST_MAX : KnnState ℤ D)
  | .allWithin _ => (withinStart (some 0) : WithinState ℤ D)

/-- The last lines of the search. -/
def Request.finish : (r : Request D) → r.Acc → r.Acc
  | .nn, c => c
  | .knn _, s => s
  | .allWithin _, (s : WithinState ℤ D) =>
    show WithinState ℤ D from { s with numResults := s.allWithin.numItems }

def Request.early : (r : Request D) → r.Err → r.Acc
  | .nn, e => e.elim
  | .knn _, e => e.elim
  | .allWithin _, s => s

/-- The cells of the result array that are read afterwards, `none` where nothing was
written or the array has been moved. -/
def Request.results : (r : Request D) → r.Acc → List (Option (VPEntry ℤ D))
  | .nn, (c : Closest ℤ D) => [c.closest.map fun x => ⟨x, c.closestDist⟩]
  | .knn _, (s : KnnState ℤ D) => s.live.map some
  | .allWithin _, (s : WithinState ℤ D) => (List.range s.numResults).map fun i =>
    if s.allWithin.items = s.resultSpace then s.cells i else none

/-- What the method returns, given the objects of its results. -/
def Request.value : Request D → List (VPEntry Obj D) → JavaValue Obj D
  | .nn, e :: _ => .entry e
  | _, entries => .list entries

/-- `VPT_rebuild`, or `VPT_add_rebuild` of the next indices. -/
def lifeOpOf (size : ℕ) : Option ℕ → LifeOp ℤ
  | none => .rebuild
  | some added => .addRebuild ((List.range' size added).map Nat.cast)

def BindingThread.goto (th : BindingThread Obj D) (pc : Pc Obj D) : BindingThread Obj D :=
  { th with pc := pc }

variable (b : Binding Obj D)

/-- The state in which a search enters its loop. -/
def Binding.startScan (r : Request D) (root : NodePtr) : Scan Obj D r.Acc :=
  ⟨⟨r.start b.DIST_MAX, [some root]⟩, none, []⟩

/-- A build by the binding: distances are those of the objects. -/
def Binding.env [Zero D] (datapoints : JavaArray Obj) : BuildEnv ℤ D where
  distFn i j :=
    match jdistFn b.distFn datapoints none i j with
    | .ok dist => dist
    | .error _ => 0
  big := b.big
  ok _ := true
  bufs := bufSizes

/-- What a thread does when it enters a method. A refused call returns at once. -/
def BindingThread.enter (th : BindingThread Obj D) :
    BindingCall Obj D → Action (SharedTree Obj D) (Option Obj) (BindingThread Obj D) BindingFault
  | .rebuild => .acquire .write (th.goto (.tearing none))
  | .addRebuild datapoints =>
    match validateArray datapoints with
    | .error _ => .read fun _ _ => .ok (th.goto .ready)
    | .ok _ => .acquire .write (th.goto (.appending datapoints))
  -- `nn` and `knn` set the query point first, `all_within` takes the lock first
  | .query .nn q => .post (fun _ => some q) (th.goto (.locking .nn q))
  | .query (.knn k) q =>
    if k < 1 then .read fun _ _ => .ok (th.goto .ready)
    else .post (fun _ => some q) (th.goto (.locking (.knn k) q))
  | .query (.allWithin max_dist) q => .acquire .read (th.goto (.posting (.allWithin max_dist) q))
  | .size => .acquire .read (th.goto .sizing)
  | .add datapoint => .acquire .read (th.goto (.adding datapoint))

variable [LinearOrder D] [Zero D] [Add D] [Sub D]

/-- The next step of a search; `comparing` is the query point in the tree at that
moment. The search ends with a value on the right. -/
def Scan.step (r : Request D) (t : SharedTree Obj D) (comparing : Option Obj)
    (s : Scan Obj D r.Acc) : Except BindingFault (Scan Obj D r.Acc ⊕ r.Acc) :=
  match s.node, s.state.toTraverse with
  | none, [] => .ok (.inr (r.finish s.state.acc))
  | none, currentNode :: _ =>
    ((nodeItems t.vpt.arena currentNode).mapError .memory).map fun items =>
      .inl { s with node := some (items, []) }
  | some (x :: pending, measured), _ =>
    (jdistFn b.distFn t.datapoints comparing x (-1)).map fun dist =>
      .inl { s with node := some (pending, measured ++ [(x, dist)])
                    seen := s.seen ++ [comparing] }
  | some ([], measured), _ =>
    -- every item of the node is measured: the pass through the body
    match (r.search (measuredDist measured)).pointerBody t.vpt.arena
        (fun x _ => measuredDist measured x) (-1) s.state with
    | .ok state => .ok (.inl ⟨state, none, s.seen⟩)
    | .error (.fault f) => .error (.memory f)
    | .error (.early e) => .ok (.inr (r.early e))

/-- The methods. -/
def Binding.program (th : BindingThread Obj D) :
    Action (SharedTree Obj D) (Option Obj) (BindingThread Obj D) BindingFault :=
  match th.pc with
  | .ready =>
    match th.todo with
    | [] => .idle
    | call :: todo => { th with todo := todo }.enter call
  | .locking r q =>
    if r.locked then .acquire .read (th.goto (.starting r q)) else
      .read fun _ _ => .ok (th.goto (.starting r q))
  | .posting r q => .post (fun _ => some q) (th.goto (.starting r q))
  | .starting r q => .read fun t _ => .ok (th.goto (.searching r q (b.startScan r t.vpt.root)))
  | .searching r q scan => .read fun t comparing =>
    (scan.step b r t comparing).map fun
    | .inl scan => th.goto (.searching r q scan)
    | .inr acc => th.goto (.found r q acc scan.seen)
  | .found r _ acc _ => .read fun t _ =>
    if r.locked ∧ (r.results acc).isEmpty then
      -- `if (!num_found) return NULL;`
      .ok { th with leaked := th.leaked+1, returned := th.returned ++ [.null], pc := .ready }
    else
      ((r.results acc).mapM (newEntryAt t.datapoints)).map fun entries =>
        { th with returned := th.returned ++ [r.value entries]
                  pc := if r.locked then .releasing .read else .ready }
  | .sizing => .read fun t _ =>
    .ok { th with returned := th.returned ++ [.int ((t.vpt.size : ℤ).bmod (2^32))]
                  pc := .releasing .read }
  -- the longer array is made and stored by a reader; `VPT_add` returns `false`
  | .adding datapoint => .read fun t _ => .ok (th.goto (.storing (t.datapoints ++ [datapoint])))
  | .storing datapoints => .write fun t =>
    .ok ({ t with datapoints := datapoints }, th.goto (.releasing .read))
  | .appending datapoints => .write fun t =>
    .ok ({ t with datapoints := t.datapoints ++ datapoints },
      th.goto (.tearing (some datapoints.length)))
  | .tearing added => .write fun t =>
    (((lifeOpOf t.vpt.size added).call (b.env t.datapoints) t.vpt).mapError .tree).map fun call =>
      ({ t with vpt := { t.vpt with arena := call.arena } },
        th.goto (.building call.block call.data))
  | .building block data => .write fun t =>
    if data.all fun i => (element t.datapoints i).isSome then
      ((BuildCall.finish (b.env t.datapoints) ⟨block, t.vpt.arena, data⟩).mapError .tree).map
        fun vpt => ({ t with vpt := vpt }, th.goto (.releasing .write))
    else .error .exits
  | .releasing mode => .release mode (th.goto .ready)

omit [LinearOrder D] [Zero D] [Add D] [Sub D] in
/-- What a thread holds of the lock inside a method. -/
def Pc.share : Pc Obj D → Lock
  | .ready => .free
  | .locking _ _ => .free
  | .posting r _ => if r.locked then ⟨1, false⟩ else .free
  | .starting r _ => if r.locked then ⟨1, false⟩ else .free
  | .searching r _ _ => if r.locked then ⟨1, false⟩ else .free
  | .found r _ _ _ => if r.locked then ⟨1, false⟩ else .free
  | .sizing => ⟨1, false⟩
  | .adding _ => ⟨1, false⟩
  | .storing _ => ⟨1, false⟩
  | .appending _ => ⟨0, true⟩
  | .tearing _ => ⟨0, true⟩
  | .building _ _ => ⟨0, true⟩
  | .releasing .read => ⟨1, false⟩
  | .releasing .write => ⟨0, true⟩

omit [LinearOrder D] [Zero D] [Add D] [Sub D] in
/-- What a thread holds, the read holds of earlier calls included. -/
def BindingThread.share (th : BindingThread Obj D) : Lock :=
  ⟨th.leaked+th.pc.share.readers, th.pc.share.writer⟩

omit [LinearOrder D] [Zero D] [Add D] [Sub D] in
/-- Threads that are about to make their calls on a tree that nobody is using. -/
def launch {ι : Type*} (t : SharedTree Obj D) (calls : ι → List (BindingCall Obj D)) :
    System ι (SharedTree Obj D) (Option Obj) (BindingThread Obj D) :=
  ⟨.free, t, none, fun i => ⟨calls i, 0, [], .ready⟩⟩

end Code

end VantagePoint
