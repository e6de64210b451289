import VantagePoint.Node
import VantagePoint.RwLock
import Mathlib.Algebra.Ring.Int.Defs
import Mathlib.Algebra.Ring.Nat

/-! The native methods of the Java class. The C tree holds indices into a Java
array of objects. What the JVM and the functions of `vpt.h` answer to a call is
part of its arguments, so that every outcome is a call; the lookups that `VPT_build`
caches are taken to succeed. -/
namespace VantagePoint
open RwLock

universe u v

variable {Obj : Type u} {D : Type v}

/-- `waits` is a lock that is never granted, `notHeld` the release of one that is
not held, `badPointer` an access through a pointer that is NULL or was freed.
`exits` is `exit(2)`, or the end of the JVM. -/
inductive Fault where
  | waits
  | notHeld
  | badPointer
  | exits
deriving DecidableEq, Repr

inductive ExceptionClass where
  | illegalArgument
  | illegalState
  | outOfMemory
deriving DecidableEq, Repr

structure Thrown where
  exceptionClass : ExceptionClass
  message : String
deriving DecidableEq, Repr

/-- The C tree: its `size` and the indices stored in it. -/
structure CTree where
  size : ℕ
  indices : List ℕ
deriving DecidableEq, Repr

/-- The C tree holds the items `xs`, in whatever order. -/
structure CTree.Holds (t : CTree) (xs : List ℕ) : Prop where
  size : t.size = xs.length
  indices : t.indices.Perm xs

/-- A Java array; an element that is `null` is `none`. -/
abbrev JavaArray (Obj : Type u) := List (Option Obj)

/-- `struct JVPTree`, without the references that the methods only pass on.
`inserted` is a record of the run that the code does not keep: the insertions
that were accepted, each with the index it was given. -/
structure JVPTree (Obj : Type u) where
  vpt : CTree
  rwlock : Lock
  datapoints : Option (JavaArray Obj)
  currentlyComparing : Option Obj
  inserted : List (ℕ × Option Obj)

/-- The field `vpt_ptr` and what it points to; `none` before `VPT_build` and after
`close`. -/
abbrev NativeState (Obj : Type u) := Option (JVPTree Obj)

inductive JavaValue (Obj : Type u) (D : Type v) where
  | void
  | null
  | int (n : ℤ)
  | entry (e : VPEntry Obj D)
  | list (entries : List (VPEntry Obj D))

/-- A call that has returned, with the exceptions it has thrown by then. -/
structure Returned (Obj : Type u) (D : Type v) where
  state : NativeState Obj
  thrown : List Thrown
  value : JavaValue Obj D

/-- The references that `VPT_build` makes global, those it checks. -/
inductive GlobalRef where
  | this
  | distFn
  | datapoints
  | entryClass
deriving DecidableEq, Repr

/-- Whether the two `malloc`s and each `NewGlobalRef` return, and what `VPT_build`
of the C library does: `none` is a return of `false`. -/
structure BuildAnswers where
  malloc : Bool
  newGlobalRef : GlobalRef → Bool
  vptBuild : Option CTree

/-- `tree` is the C tree that `VPT_add_rebuild` leaves. -/
structure AddRebuildAnswers where
  newGlobalRef : Bool
  tree : CTree

/-- What a search of the C tree finds, whether `NewObjectArray` returns, whether
`NewObject` returns for each entry, and whether `Arrays.asList` returns. -/
structure SearchAnswers (D : Type v) where
  found : List (VPEntry ℕ D)
  newObjectArray : Bool
  newObject : Bool
  asList : Bool

section Code

def illegalArgument (message : String) : Thrown := ⟨.illegalArgument, message⟩

def illegalState (message : String) : Thrown := ⟨.illegalState, message⟩

def outOfMemory (message : String) : Thrown := ⟨.outOfMemory, message⟩

/-- `validateArray`: the size of the array. -/
def validateArray (datapoints : JavaArray Obj) : Except Thrown ℕ :=
  if datapoints.length = 0 then
    .error (illegalArgument "The collection cannot be of size zero.")
  else if datapoints.any Option.isNone then
    .error (illegalArgument "The Collection cannot contain any null elements.")
  else .ok datapoints.length

/-- An access through the pointer that `get_owned_jvpt` returns. -/
def deref : NativeState Obj → Except Fault (JVPTree Obj)
  | some jvpt => .ok jvpt
  | none => .error .badPointer

/-- `JVPT_READ_LOCK`, `JVPT_WRITE_LOCK` -/
def JVPTree.lock (mode : Mode) (jvpt : JVPTree Obj) : Except Fault (JVPTree Obj) :=
  match jvpt.rwlock.acquire mode with
  | none => .error .waits
  | some rwlock => .ok { jvpt with rwlock := rwlock }

/-- `JVPT_READ_UNLOCK`, `JVPT_WRITE_UNLOCK` -/
def JVPTree.unlock (mode : Mode) (jvpt : JVPTree Obj) : Except Fault (JVPTree Obj) :=
  match jvpt.rwlock.release mode with
  | none => .error .notHeld
  | some rwlock => .ok { jvpt with rwlock := rwlock }

/-- The indices from `start` on that are given to the elements of an array. -/
def indexFrom (start : ℕ) (datapoints : JavaArray Obj) : List (ℕ × Option Obj) :=
  (List.range' start datapoints.length).zip datapoints

def Returned.throw (s : NativeState Obj) (e : Thrown) : Returned Obj D := ⟨s, [e], .void⟩

/-- `Java_vptree_VPTree_VPT_1build` -/
def nativeBuild (datapoints : Option (JavaArray Obj)) (distFn : Option (Obj → Obj → D))
    (answers : BuildAnswers) (s : NativeState Obj) : Returned Obj D :=
  match datapoints, distFn with
  | none, _ => .throw s (illegalArgument "Datapoints cannot be null.")
  | some _, none => .throw s (illegalArgument "Distance function cannot be null.")
  | some datapoints, some _ =>
    match validateArray datapoints with
    | .error e => .throw s e
    | .ok _ =>
      if !answers.malloc then
        .throw s (outOfMemory "Ran out of memory allocating the Vantage Point Tree.")
      else if !answers.newGlobalRef .this then .throw s (outOfMemory
        "Ran out of memory creating a global reference to the this VPTree.")
      else if !answers.newGlobalRef .distFn then .throw s (outOfMemory
        "Ran out of memory creating a global reference to the distance function.")
      else if !answers.newGlobalRef .datapoints then .throw s (outOfMemory
        "Ran out of memory creating a global reference to the datapoints array.")
      else if !answers.newGlobalRef .entryClass then .throw s (outOfMemory
        "Ran out of memory creating a global reference to the VPEntry<T> class.")
      else
        match answers.vptBuild with
        | none => .throw s (outOfMemory "Ran out of memory building the Vantage Point Tree.")
        | some vpt =>
          let jvpt := { vpt := vpt
                        rwlock := .free
                        datapoints := some datapoints
                        currentlyComparing := none
                        inserted := indexFrom 0 datapoints }
          ⟨some jvpt, [], .void⟩

/-- `Java_vptree_VPTree_rebuild`; `tree` is what `VPT_rebuild` leaves. -/
def nativeRebuild (tree : CTree) (s : NativeState Obj) : Except Fault (Returned Obj D) :=
  (deref s).bind fun jvpt =>
    (jvpt.lock .write).bind fun jvpt =>
      ({ jvpt with vpt := tree }.unlock .write).bind fun jvpt =>
        .ok ⟨some jvpt, [], .void⟩

/-- `VPEntry.arrcat`, called with a first array that may be NULL. -/
def arrcat (arr1 : Option (JavaArray Obj)) (arr2 : JavaArray Obj) : Option (JavaArray Obj) :=
  arr1.map (· ++ arr2)

/-- `VPEntry.arrpush` -/
def arrpush (arr : Option (JavaArray Obj)) (pushing : Option Obj) : Option (JavaArray Obj) :=
  arr.map (· ++ [pushing])

/-- `Java_vptree_VPTree_VPT_1addRebuild`. The array is replaced before the C tree
is asked to take the new indices. -/
def nativeAddRebuild (datapoints : Option (JavaArray Obj)) (answers : AddRebuildAnswers)
    (s : NativeState Obj) : Except Fault (Returned Obj D) :=
  match datapoints with
  | none => .ok (.throw s (illegalArgument "The collection cannot be null."))
  | some datapoints =>
    match validateArray datapoints with
    | .error e => .ok (.throw s e)
    | .ok _ =>
      (deref s).bind fun jvpt =>
        (jvpt.lock .write).bind fun jvpt =>
          -- without a global reference the field is left NULL
          let result := arrcat jvpt.datapoints datapoints
          let jvpt := { jvpt with
            datapoints := if answers.newGlobalRef then result else none
            vpt := answers.tree
            inserted := jvpt.inserted ++ indexFrom jvpt.vpt.size datapoints }
          (jvpt.unlock .write).bind fun jvpt => .ok ⟨some jvpt, [], .void⟩

/-- `new_VPEntry_jobject`: an index that finds no object ends the process. -/
def JVPTree.newEntry (jvpt : JVPTree Obj) (newObject : Bool) (e : VPEntry ℕ D) :
    Except Fault (VPEntry Obj D) :=
  match jvpt.datapoints.bind (·[e.item]?) with
  | some (some item) => if newObject then .ok ⟨item, e.distance⟩ else .error .exits
  | _ => .error .exits

/-- `Java_vptree_VPTree_nn`, which takes no lock; `nearest` is what `VPT_nn` writes. -/
def nativeNn (datapoint : Option Obj) (nearest : VPEntry ℕ D) (newObject : Bool)
    (s : NativeState Obj) : Except Fault (Returned Obj D) :=
  match datapoint, s with
  | none, s => .ok ⟨s, [illegalArgument "The datapoint cannot be null."], .null⟩
  | some _, none =>
    let closed := illegalState "This VPTree has already been closed."
    .ok ⟨none, [closed, closed], .null⟩
  | some datapoint, some jvpt =>
    let jvpt := { jvpt with currentlyComparing := some datapoint }
    (jvpt.newEntry newObject nearest).bind fun entry => .ok ⟨some jvpt, [], .entry entry⟩

/-- `Java_vptree_VPTree_knn` -/
def nativeKnn (datapoint : Option Obj) (k : ℤ) (answers : SearchAnswers D)
    (s : NativeState Obj) : Except Fault (Returned Obj D) :=
  match datapoint with
  | none => .ok ⟨s, [illegalArgument "The datapoint cannot be null."], .null⟩
  | some datapoint =>
    if k < 1 then .ok ⟨s, [illegalArgument "k cannot be less than 1."], .null⟩
    else
      (deref s).bind fun jvpt =>
        ({ jvpt with currentlyComparing := some datapoint }.lock .read).bind fun jvpt =>
          -- the two returns that leave the lock held
          if answers.found.isEmpty then .ok ⟨some jvpt, [], .null⟩
          else if !answers.newObjectArray then .ok ⟨some jvpt, [], .null⟩
          else
            (answers.found.mapM (jvpt.newEntry answers.newObject)).bind fun entries =>
              (jvpt.unlock .read).bind fun jvpt =>
                if !answers.asList then .ok ⟨some jvpt, [], .null⟩
                else .ok ⟨some jvpt, [], .list entries⟩

/-- `Java_vptree_VPTree_size`; the size is cast to `jint`. -/
def nativeSize (s : NativeState Obj) : Except Fault (Returned Obj D) :=
  (deref s).bind fun jvpt =>
    (jvpt.lock .read).bind fun jvpt =>
      (jvpt.unlock .read).bind fun jvpt =>
        .ok ⟨some jvpt, [], .int ((jvpt.vpt.size : ℤ).bmod (2^32))⟩

/-- `Java_vptree_VPTree_all_1within`. A negative `max_dist` throws, but the method
goes on. The lock is released after the list is made. -/
def nativeAllWithin [LT D] [DecidableLT D] [Zero D] (datapoint : Option Obj) (max_dist : D)
    (answers : SearchAnswers D) (s : NativeState Obj) : Except Fault (Returned Obj D) :=
  match datapoint with
  | none => .ok ⟨s, [illegalArgument "The datapoint cannot be null."], .null⟩
  | some datapoint =>
    let thrown := if max_dist < 0 then [illegalArgument "max_dist cannot be less than 0."] else []
    (deref s).bind fun jvpt =>
      (jvpt.lock .read).bind fun jvpt =>
        let jvpt := { jvpt with currentlyComparing := some datapoint }
        -- the three returns that leave the lock held
        if answers.found.isEmpty then .ok ⟨some jvpt, thrown, .null⟩
        else if !answers.newObjectArray then .ok ⟨some jvpt, thrown, .null⟩
        else
          (answers.found.mapM (jvpt.newEntry answers.newObject)).bind fun entries =>
            if !answers.asList then .ok ⟨some jvpt, thrown, .null⟩
            else (jvpt.unlock .read).bind fun jvpt => .ok ⟨some jvpt, thrown, .list entries⟩

/-- `VPT_add` of the C library: "Not implemented". -/
def vptAdd (vpt : CTree) (_to_add : ℕ) : Bool × CTree := (false, vpt)

/-- `Java_vptree_VPTree_add`. A `datapoint` that is null throws, but the method
goes on. -/
def nativeAdd (datapoint : Option Obj) (newGlobalRef : Bool) (s : NativeState Obj) :
    Except Fault (Returned Obj D) :=
  let refused := if datapoint.isNone then [illegalArgument "Datapoint cannot be null."] else []
  (deref s).bind fun jvpt =>
    (jvpt.lock .read).bind fun jvpt =>
      let result := arrpush jvpt.datapoints datapoint
      let index := jvpt.vpt.size
      let (success, vpt) := vptAdd jvpt.vpt index
      let jvpt := { jvpt with
        datapoints := if newGlobalRef then result else none
        vpt := vpt
        inserted := if success then jvpt.inserted ++ [(index, datapoint)] else jvpt.inserted }
      let failed := if success then []
        else [outOfMemory "Ran out of memory adding a point to the tree."]
      (jvpt.unlock .read).bind fun jvpt => .ok ⟨some jvpt, refused ++ failed, .void⟩

/-- `Java_vptree_VPTree_close`: the `JVPTree` is freed, and the lock in it is
released after that. -/
def nativeClose (s : NativeState Obj) : Except Fault (Returned Obj D) :=
  (deref s).bind fun jvpt =>
    (jvpt.lock .write).bind fun _ =>
      -- `jvpt` points to freed memory from here on
      let s : NativeState Obj := none
      (deref s).bind fun jvpt =>
        (jvpt.unlock .write).bind fun _ => .ok ⟨s, [], .void⟩

/-- A call of a native method. -/
inductive NativeCall (Obj : Type u) (D : Type v) where
  | build (datapoints : Option (JavaArray Obj)) (distFn : Option (Obj → Obj → D))
      (answers : BuildAnswers)
  | rebuild (tree : CTree)
  | addRebuild (datapoints : Option (JavaArray Obj)) (answers : AddRebuildAnswers)
  | nn (datapoint : Option Obj) (nearest : VPEntry ℕ D) (newObject : Bool)
  | knn (datapoint : Option Obj) (k : ℤ) (answers : SearchAnswers D)
  | size
  | allWithin (datapoint : Option Obj) (max_dist : D) (answers : SearchAnswers D)
  | add (datapoint : Option Obj) (newGlobalRef : Bool)
  | close

variable [LT D] [DecidableLT D] [Zero D]

def NativeCall.exec (c : NativeCall Obj D) (s : NativeState Obj) : Except Fault (Returned Obj D) :=
  match c with
  | .build datapoints distFn answers => .ok (nativeBuild datapoints distFn answers s)
  | .rebuild tree => nativeRebuild tree s
  | .addRebuild datapoints answers => nativeAddRebuild datapoints answers s
  | .nn datapoint nearest newObject => nativeNn datapoint nearest newObject s
  | .knn datapoint k answers => nativeKnn datapoint k answers s
  | .size => nativeSize s
  | .allWithin datapoint max_dist answers => nativeAllWithin datapoint max_dist answers s
  | .add datapoint newGlobalRef => nativeAdd datapoint newGlobalRef s
  | .close => nativeClose s

/-- The state after a call, for sequences of calls. -/
def nativeStep (s : NativeState Obj) (c : NativeCall Obj D) : Except Fault (NativeState Obj) :=
  (c.exec s).map Returned.state

end Code

/-- The tree a build hands over. -/
def newJVPTree (datapoints : JavaArray Obj) (vpt : CTree) : JVPTree Obj where
  vpt := vpt
  rwlock := .free
  datapoints := some datapoints
  currentlyComparing := none
  inserted := indexFrom 0 datapoints

/-- A build throws and changes nothing, or hands over a new tree. -/
theorem nativeBuild_cases (datapoints : Option (JavaArray Obj))
    (distFn : Option (Obj → Obj → D)) (answers : BuildAnswers) (s : NativeState Obj) :
    (∃ e, nativeBuild datapoints distFn answers s = .throw s e) ∨
      ∃ arr vpt, datapoints = some arr ∧ answers.vptBuild = some vpt ∧
        nativeBuild datapoints distFn answers s = ⟨some (newJVPTree arr vpt), [], .void⟩ := by
  unfold nativeBuild
  split
  · exact Or.inl ⟨_, rfl⟩
  · exact Or.inl ⟨_, rfl⟩
  · split
    · exact Or.inl ⟨_, rfl⟩
    · -- six requests, each of which may fail
      repeat' split
      all_goals first
        | exact Or.inl ⟨_, rfl⟩
        | exact Or.inr ⟨_, _, rfl, by assumption, rfl⟩

end VantagePoint
