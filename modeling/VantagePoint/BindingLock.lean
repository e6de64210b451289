import VantagePoint.CallSequence
import VantagePoint.JavaBinding

/-! The native methods and the lock of the tree. -/
namespace VantagePoint
open RwLock CallSequence

universe u v

variable {Obj : Type u} {D : Type v}

/-- A call that leaves the lock as it found it, still allocated, and that never
waits, releases what it does not hold or follows a bad pointer. Where the process
ends there is no lock to speak of. -/
def Balanced (s : NativeState Obj) : Except Fault (Returned Obj D) → Prop
  | .ok r => r.state.map JVPTree.rwlock = s.map JVPTree.rwlock
  | .error .exits => True
  | .error _ => False

/-- The returns between acquisition and release are not taken. -/
def NativeCall.Releases (s : NativeState Obj) : NativeCall Obj D → Prop
  | .knn (some _) k answers => 1 ≤ k → answers.found ≠ [] ∧ answers.newObjectArray = true
  | .allWithin (some _) _ answers => answers.found ≠ [] ∧ answers.newObjectArray = true ∧
    ∀ jvpt entries, s = some jvpt →
      answers.found.mapM (jvpt.newEntry answers.newObject) = .ok entries → answers.asList = true
  | .close => False
  | _ => True

section Step

variable {jvpt : JVPTree Obj}

theorem lock_of_free (hfree : jvpt.rwlock = .free) (m : Mode) :
    ∃ held, Lock.free.acquire m = some held ∧
      jvpt.lock m = .ok { jvpt with rwlock := held } := by
  obtain ⟨held, h⟩ := acquire_free m
  refine ⟨held, h, ?_⟩
  rw [JVPTree.lock, hfree, h]

theorem unlock_of_held {held : Lock} {m : Mode} (h : Lock.free.acquire m = some held)
    (hheld : jvpt.rwlock = held) : jvpt.unlock m = .ok { jvpt with rwlock := .free } := by
  rw [JVPTree.unlock, hheld, release_of_acquire h]

/-- A return with the lock still held. -/
theorem not_balanced_of_held {held : Lock} {m : Mode} (h : Lock.free.acquire m = some held)
    (hfree : jvpt.rwlock = .free) {jvpt' : JVPTree Obj} (hheld : jvpt'.rwlock = held)
    (thrown : List Thrown) (value : JavaValue Obj D) :
    ¬ Balanced (some jvpt) (.ok ⟨some jvpt', thrown, value⟩) := by
  intro hb
  have heq : jvpt'.rwlock = jvpt.rwlock := Option.some.inj hb
  rw [hheld, hfree] at heq
  exact (acquire_held h).1 heq

theorem balanced_of_free (hfree : jvpt.rwlock = .free) {jvpt' : JVPTree Obj}
    (hfree' : jvpt'.rwlock = .free) (thrown : List Thrown) (value : JavaValue Obj D) :
    Balanced (some jvpt) (.ok ⟨some jvpt', thrown, value⟩) := by
  change some jvpt'.rwlock = some jvpt.rwlock
  rw [hfree, hfree']

theorem newEntry_error {newObject : Bool} {e : VPEntry ℕ D} {f : Fault}
    (h : jvpt.newEntry newObject e = .error f) : f = .exits := by
  unfold JVPTree.newEntry at h
  split at h
  · split at h
    · cases h
    · cases h
      rfl
  · cases h
    rfl

theorem newEntries_error {newObject : Bool} {es : List (VPEntry ℕ D)} {f : Fault}
    (h : es.mapM (jvpt.newEntry newObject) = .error f) : f = .exits := by
  induction es generalizing f with
  | nil => cases h
  -- The first entry that cannot be made ends the process; the others are not tried.
  | cons e es ih =>
    rw [List.mapM_cons] at h
    cases he : jvpt.newEntry newObject e with
    | error f' =>
      rw [he] at h
      cases h
      exact newEntry_error he
    | ok x =>
      rw [he] at h
      cases hes : es.mapM (jvpt.newEntry newObject) with
      | error f' =>
        have hf' := ih hes
        change (es.mapM (jvpt.newEntry newObject) >>= _) = _ at h
        rw [hes] at h
        cases h
        exact hf'
      | ok xs =>
        change (es.mapM (jvpt.newEntry newObject) >>= _) = _ at h
        rw [hes] at h
        cases h

theorem build_balanced (hfree : jvpt.rwlock = .free) (datapoints : Option (JavaArray Obj))
    (distFn : Option (Obj → Obj → D)) (answers : BuildAnswers) :
    Balanced (some jvpt) (.ok (nativeBuild datapoints distFn answers (some jvpt))) := by
  rcases nativeBuild_cases datapoints distFn answers (some jvpt) with ⟨e, h⟩ | ⟨arr, vpt, _, _, h⟩
  · rw [h]
    exact balanced_of_free hfree hfree _ _
  · rw [h]
    exact balanced_of_free hfree rfl _ _

theorem nativeRebuild_eq (hfree : jvpt.rwlock = .free) (tree : CTree) :
    nativeRebuild (D := D) tree (some jvpt) =
      .ok ⟨some { jvpt with vpt := tree, rwlock := .free }, [], .void⟩ := by
  obtain ⟨held, hacq, hlock⟩ := lock_of_free hfree .write
  simp only [nativeRebuild, deref, Except.bind, hlock, unlock_of_held hacq]

theorem nativeAddRebuild_eq (hfree : jvpt.rwlock = .free) {arr : JavaArray Obj} {n : ℕ}
    (harr : validateArray arr = .ok n) (answers : AddRebuildAnswers) :
    nativeAddRebuild (D := D) (some arr) answers (some jvpt) =
      .ok ⟨some { jvpt with
        vpt := answers.tree
        rwlock := .free
        datapoints := if answers.newGlobalRef then arrcat jvpt.datapoints arr else none
        inserted := jvpt.inserted ++ indexFrom jvpt.vpt.size arr }, [], .void⟩ := by
  obtain ⟨held, hacq, hlock⟩ := lock_of_free hfree .write
  simp only [nativeAddRebuild, harr, deref, Except.bind, hlock, unlock_of_held hacq]

/-- An `add` always throws, with the array already one element longer. -/
theorem nativeAdd_eq (hfree : jvpt.rwlock = .free) (datapoint : Option Obj)
    (newGlobalRef : Bool) : ∃ thrown, thrown ≠ [] ∧
    nativeAdd (D := D) datapoint newGlobalRef (some jvpt) =
      .ok ⟨some { jvpt with
        rwlock := .free
        datapoints := if newGlobalRef then arrpush jvpt.datapoints datapoint else none }, thrown,
        .void⟩ := by
  obtain ⟨held, hacq, hlock⟩ := lock_of_free hfree .read
  simp only [nativeAdd, vptAdd, deref, Except.bind, hlock, unlock_of_held hacq, Bool.false_eq_true,
    ↓reduceIte]
  exact ⟨_, List.append_ne_nil_of_right_ne_nil _ (List.cons_ne_nil _ _), rfl⟩

theorem rebuild_balanced (hfree : jvpt.rwlock = .free) (tree : CTree) :
    Balanced (D := D) (some jvpt) (nativeRebuild tree (some jvpt)) := by
  rw [nativeRebuild_eq hfree]
  exact balanced_of_free hfree rfl _ _

theorem addRebuild_balanced (hfree : jvpt.rwlock = .free) (datapoints : Option (JavaArray Obj))
    (answers : AddRebuildAnswers) :
    Balanced (D := D) (some jvpt) (nativeAddRebuild datapoints answers (some jvpt)) := by
  cases datapoints with
  | none => exact balanced_of_free hfree hfree _ _
  | some arr =>
    cases harr : validateArray arr with
    | error e =>
      simp only [nativeAddRebuild, harr]
      exact balanced_of_free hfree hfree _ _
    | ok n =>
      rw [nativeAddRebuild_eq hfree harr]
      exact balanced_of_free hfree rfl _ _

theorem add_balanced (hfree : jvpt.rwlock = .free) (datapoint : Option Obj)
    (newGlobalRef : Bool) :
    Balanced (D := D) (some jvpt) (nativeAdd datapoint newGlobalRef (some jvpt)) := by
  obtain ⟨thrown, _, h⟩ := nativeAdd_eq hfree datapoint newGlobalRef
  rw [h]
  exact balanced_of_free hfree rfl _ _

theorem nn_balanced (hfree : jvpt.rwlock = .free) (datapoint : Option Obj)
    (nearest : VPEntry ℕ D) (newObject : Bool) :
    Balanced (some jvpt) (nativeNn datapoint nearest newObject (some jvpt)) := by
  cases datapoint with
  | none => exact balanced_of_free hfree hfree _ _
  | some q =>
    unfold nativeNn
    dsimp only
    cases he : JVPTree.newEntry { jvpt with currentlyComparing := some q } newObject nearest with
    | error f =>
      obtain rfl := newEntry_error he
      trivial
    | ok e =>
      apply balanced_of_free hfree
      exact hfree

theorem size_balanced (hfree : jvpt.rwlock = .free) :
    Balanced (D := D) (some jvpt) (nativeSize (some jvpt)) := by
  obtain ⟨held, hacq, hlock⟩ := lock_of_free hfree .read
  simp only [nativeSize, deref, Except.bind, hlock, unlock_of_held hacq]
  exact balanced_of_free hfree rfl _ _

/-- A `close` comes to the release with the lock already freed. -/
theorem close_not_balanced (hfree : jvpt.rwlock = .free) :
    ¬ Balanced (D := D) (some jvpt) (nativeClose (some jvpt)) := by
  obtain ⟨held, _, hlock⟩ := lock_of_free hfree .write
  simp only [nativeClose, deref, Except.bind, hlock]
  exact not_false

/-- Entries are made from the array alone. -/
theorem newEntry_congr (held : Lock) (q : Option Obj) (newObject : Bool) :
    JVPTree.newEntry (D := D) { jvpt with rwlock := held, currentlyComparing := q } newObject =
      jvpt.newEntry newObject := rfl

theorem knn_balanced_iff (hfree : jvpt.rwlock = .free) (q : Obj) (k : ℤ)
    (answers : SearchAnswers D) :
    Balanced (some jvpt) (nativeKnn (some q) k answers (some jvpt)) ↔
      (1 ≤ k → answers.found ≠ [] ∧ answers.newObjectArray = true) := by
  have hfree' : JVPTree.rwlock { jvpt with currentlyComparing := some q } = .free := hfree
  obtain ⟨held, hacq, hlock⟩ := lock_of_free hfree' .read
  obtain ⟨found, newObjectArray, newObject, asList⟩ := answers
  unfold nativeKnn
  dsimp only
  -- A call that is refused has not taken the lock.
  by_cases hk : k < 1
  · rw [if_pos hk]
    exact iff_of_true (balanced_of_free hfree hfree _ _) fun h => absurd hk (not_lt.mpr h)
  rw [if_neg hk]
  simp only [deref, Except.bind, hlock, not_lt.mp hk, forall_const, newEntry_congr]
  cases found with
  -- the two early returns
  | nil => exact iff_of_false (not_balanced_of_held hacq hfree rfl _ _) fun h => h.1 rfl
  | cons e es =>
    cases newObjectArray with
    | false =>
      exact iff_of_false (not_balanced_of_held hacq hfree rfl _ _)
        fun h => Bool.false_ne_true h.2
    | true =>
      refine iff_of_true ?_ ⟨List.cons_ne_nil _ _, rfl⟩
      simp only [List.isEmpty_cons, Bool.not_true, Bool.false_eq_true, ↓reduceIte]
      -- An entry that cannot be made ends the process.
      cases hes : (e :: es).mapM (jvpt.newEntry newObject) with
      | error f =>
        obtain rfl := newEntries_error hes
        trivial
      | ok entries =>
        simp only [unlock_of_held hacq]
        cases asList with
        | false =>
          apply balanced_of_free hfree
          rfl
        | true =>
          apply balanced_of_free hfree
          rfl

theorem allWithin_balanced_iff [LT D] [DecidableLT D] [Zero D] (hfree : jvpt.rwlock = .free)
    (q : Obj) (max_dist : D) (answers : SearchAnswers D) :
    Balanced (some jvpt) (nativeAllWithin (some q) max_dist answers (some jvpt)) ↔
      NativeCall.Releases (some jvpt) (.allWithin (some q) max_dist answers) := by
  obtain ⟨held, hacq, hlock⟩ := lock_of_free hfree .read
  obtain ⟨found, newObjectArray, newObject, asList⟩ := answers
  unfold nativeAllWithin
  simp only [deref, Except.bind, hlock, newEntry_congr, NativeCall.Releases]
  cases found with
  -- nothing found: an early return
  | nil => exact iff_of_false (not_balanced_of_held hacq hfree rfl _ _) fun h => h.1 rfl
  | cons e es =>
    cases newObjectArray with
    -- no array for the entries: another
    | false =>
      exact iff_of_false (not_balanced_of_held hacq hfree rfl _ _)
        fun h => Bool.false_ne_true h.2.1
    | true =>
      simp only [List.isEmpty_cons, Bool.not_true, Bool.false_eq_true, ↓reduceIte]
      cases hes : (e :: es).mapM (jvpt.newEntry newObject) with
      | error f =>
        obtain rfl := newEntries_error hes
        refine iff_of_true trivial ⟨List.cons_ne_nil _ _, trivial, ?_⟩
        intro jvpt' entries hj hok
        obtain rfl := Option.some.inj hj
        rw [hes] at hok
        cases hok
      | ok entries =>
        cases asList with
        | false =>
          exact iff_of_false (not_balanced_of_held hacq hfree rfl _ _)
            fun h => Bool.false_ne_true (h.2.2 jvpt entries rfl hes)
        | true =>
          refine iff_of_true ?_ ⟨List.cons_ne_nil _ _, trivial, fun _ _ _ _ => rfl⟩
          simp only [Bool.not_true, Bool.false_eq_true, ↓reduceIte, unlock_of_held hacq]
          apply balanced_of_free hfree
          rfl

variable [LT D] [DecidableLT D] [Zero D]

/-- The step lemma. -/
theorem exec_balanced_iff (hfree : jvpt.rwlock = .free) (c : NativeCall Obj D) :
    Balanced (some jvpt) (c.exec (some jvpt)) ↔ c.Releases (some jvpt) := by
  cases c with
  | build datapoints distFn answers =>
    exact iff_of_true (build_balanced hfree datapoints distFn answers) trivial
  | rebuild tree => exact iff_of_true (rebuild_balanced hfree tree) trivial
  | addRebuild datapoints answers =>
    exact iff_of_true (addRebuild_balanced hfree datapoints answers) trivial
  | nn datapoint nearest newObject =>
    exact iff_of_true (nn_balanced hfree datapoint nearest newObject) trivial
  | knn datapoint k answers =>
    cases datapoint with
    | none => exact iff_of_true (balanced_of_free hfree hfree _ _) trivial
    | some q => exact knn_balanced_iff hfree q k answers
  | size => exact iff_of_true (size_balanced hfree) trivial
  | allWithin datapoint max_dist answers =>
    cases datapoint with
    | none => exact iff_of_true (balanced_of_free hfree hfree _ _) trivial
    | some q => exact allWithin_balanced_iff hfree q max_dist answers
  | add datapoint newGlobalRef =>
    exact iff_of_true (add_balanced hfree datapoint newGlobalRef) trivial
  | close => exact iff_of_false (close_not_balanced hfree) not_false

end Step

section Run

variable [LT D] [DecidableLT D] [Zero D]

end Run

end VantagePoint
