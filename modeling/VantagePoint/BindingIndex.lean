import VantagePoint.BindingLock
import VantagePoint.TreeLife

/-! The indices in the C tree and the Java array they point into. -/
namespace VantagePoint
open RwLock CallSequence

universe u v

variable {Obj : Type u} {D : Type v}

/-- The C tree holds the indices of the array, each once, and every object whose
insertion was accepted is where its index says. -/
structure JVPTree.InStep (jvpt : JVPTree Obj) : Prop where
  array : ∃ arr, jvpt.datapoints = some arr ∧ arr.length = jvpt.vpt.size ∧
    ∀ p ∈ jvpt.inserted, arr[p.1]? = some p.2
  indices : jvpt.vpt.indices.Perm (List.range jvpt.vpt.size)
  inserted : (jvpt.inserted.map Prod.fst).Perm jvpt.vpt.indices

/-- The calls that may change the tree. -/
def NativeCall.Updates : NativeCall Obj D → Prop
  | .build .. | .rebuild _ | .addRebuild .. | .add .. => True
  | _ => False

/-- The C library conserves items: what it is given, or what the tree held before
together with what is added, is what the tree holds after. -/
def NativeCall.Conserves (s : NativeState Obj) : NativeCall Obj D → Prop
  | .build (some arr) _ answers =>
    ∀ vpt, answers.vptBuild = some vpt → vpt.Holds (List.range arr.length)
  | .rebuild tree => ∀ jvpt, s = some jvpt → tree.Holds jvpt.vpt.indices
  | .addRebuild (some arr) answers => ∀ jvpt, s = some jvpt →
    answers.tree.Holds (jvpt.vpt.indices ++ List.range' jvpt.vpt.size arr.length)
  | _ => True

/-- No `add`, and memory for the reference to the array of an `addRebuild`. -/
def NativeCall.KeepsStep : NativeCall Obj D → Prop
  | .add .. => False
  | .addRebuild (some arr) answers =>
    (∃ n, validateArray arr = .ok n) → answers.newGlobalRef = true
  | _ => True

section Insert

theorem map_fst_indexFrom (start : ℕ) (arr : JavaArray Obj) :
    (indexFrom start arr).map Prod.fst = List.range' start arr.length :=
  List.map_fst_zip (by rw [List.length_range'])

theorem getElem?_of_mem_indexFrom {start : ℕ} {arr : JavaArray Obj} {p : ℕ × Option Obj}
    (hp : p ∈ indexFrom start arr) (before : JavaArray Obj) (hlen : before.length = start) :
    (before ++ arr)[p.1]? = some p.2 := by
  obtain ⟨i, hi, rfl⟩ := List.getElem_of_mem hp
  have hlt : i < arr.length := by
    rw [indexFrom, List.length_zip, List.length_range'] at hi
    omega
  simp only [indexFrom, List.getElem_zip, List.getElem_range', Nat.one_mul]
  rw [List.getElem?_append_right (by omega), hlen, Nat.add_sub_cancel_left,
    List.getElem?_eq_getElem hlt]

/-- A new tree is in step with its array. -/
theorem newJVPTree_inStep {arr : JavaArray Obj} {vpt : CTree}
    (h : vpt.Holds (List.range arr.length)) : (newJVPTree arr vpt).InStep where
  array := by
    refine ⟨arr, rfl, ?_, ?_⟩
    · rw [newJVPTree, h.size, List.length_range]
    · intro p hp
      exact getElem?_of_mem_indexFrom hp [] rfl
  indices := by
    rw [newJVPTree, h.size, List.length_range]
    exact h.indices
  inserted := by
    rw [newJVPTree, map_fst_indexFrom, ← List.range_eq_range']
    exact h.indices.symm

variable {jvpt : JVPTree Obj}

theorem JVPTree.InStep.length_indices (h : jvpt.InStep) :
    jvpt.vpt.indices.length = jvpt.vpt.size := by
  rw [h.indices.length_eq, List.length_range]

/-- New objects behind the old ones, with the indices from `vpt->size` on. -/
theorem JVPTree.InStep.append (h : jvpt.InStep) {arr : JavaArray Obj} {vpt : CTree}
    (hvpt : vpt.Holds (jvpt.vpt.indices ++ List.range' jvpt.vpt.size arr.length)) (l : Lock) :
    JVPTree.InStep { jvpt with
      vpt := vpt
      rwlock := l
      datapoints := arrcat jvpt.datapoints arr
      inserted := jvpt.inserted ++ indexFrom jvpt.vpt.size arr } := by
  obtain ⟨old, hold, hlen, hins⟩ := h.array
  have hsize : vpt.size = jvpt.vpt.size+arr.length := by
    rw [hvpt.size, List.length_append, h.length_indices, List.length_range']
  refine ⟨⟨old ++ arr, ?_, ?_, ?_⟩, ?_, ?_⟩
  · dsimp only
    rw [hold]
    rfl
  · dsimp only
    rw [List.length_append, hlen, hsize]
  · intro p hp
    rcases List.mem_append.mp hp with hp | hp
    · -- an old index is below the length of the old array
      have hp' := hins p hp
      obtain ⟨hlt, _⟩ := List.getElem?_eq_some_iff.mp hp'
      rw [List.getElem?_append_left hlt, hp']
    · exact getElem?_of_mem_indexFrom hp old hlen
  · dsimp only
    rw [hsize, List.range_add]
    apply hvpt.indices.trans
    have hshift : List.range' jvpt.vpt.size arr.length =
        (List.range arr.length).map (jvpt.vpt.size + ·) := by
      rw [List.range'_eq_map_range]
    rw [hshift]
    exact h.indices.append_right _
  · dsimp only
    rw [List.map_append, map_fst_indexFrom]
    exact (h.inserted.append_right _).trans hvpt.indices.symm

theorem JVPTree.InStep.rebuild (h : jvpt.InStep) {vpt : CTree}
    (hvpt : vpt.Holds jvpt.vpt.indices) (l : Lock) :
    JVPTree.InStep { jvpt with vpt := vpt, rwlock := l } := by
  have hsize : vpt.size = jvpt.vpt.size := hvpt.size.trans h.length_indices
  refine ⟨?_, ?_, ?_⟩
  · dsimp only
    rw [hsize]
    exact h.array
  · dsimp only
    rw [hsize]
    exact hvpt.indices.trans h.indices
  · exact h.inserted.trans hvpt.indices.symm

end Insert

section Library

variable [LinearOrder D] {env : BuildEnv ℕ D} {t : VPTree ℕ D} {xs : List ℕ}

/-- The tree of the C library as the binding sees it. -/
def VPTree.toCTree (t : VPTree ℕ D) : CTree := ⟨t.size, t.arena.walked⟩

omit [LinearOrder D] in
theorem Intact.toCTree_holds (h : Intact t xs) : t.toCTree.Holds xs := ⟨h.size, h.walked⟩

/-- `VPT_build` conserves the indices it is given. -/
theorem vptBuild_conserves (hok : ∀ i, env.ok i = true) (hbig : env.Bounded) {arena : Arena ℕ D}
    {arr : JavaArray Obj} (hsize : arr.length < sizeT)
    (hin : SplitsInside env arena (List.range arr.length)) {s : NativeState Obj}
    {distFn : Option (Obj → Obj → D)} {answers : BuildAnswers}
    (hrun : vptBuild env arena (List.range arr.length) = .ok t)
    (hanswer : answers.vptBuild = some t.toCTree) :
    NativeCall.Conserves s (.build (some arr) distFn answers) := by
  intro vpt hvpt
  obtain rfl := Option.some.inj (hanswer.symm.trans hvpt)
  have hsize' : (List.range arr.length).length < sizeT := by rwa [List.length_range]
  obtain ⟨t', hbuild, h⟩ := vptBuild_intact arena hsize' hok hbig hin
  obtain rfl : t' = t := Except.ok.inj (hbuild.symm.trans hrun)
  exact h.toCTree_holds

/-- `VPT_rebuild` and `VPT_add_rebuild` conserve the indices of every tree made by
the library and those they are given. -/
theorem apply_holds (hok : ∀ i, env.ok i = true) (hbig : env.Bounded) (h : Intact t xs)
    (op : LifeOp ℕ) (hsize : (xs ++ op.supplied).length < sizeT)
    (hin : ∀ call, op.call env t = .ok call → SplitsInside env call.arena call.data)
    {t' : VPTree ℕ D} (hrun : op.apply env t = .ok t') :
    t'.toCTree.Holds (t.toCTree.indices ++ op.supplied) := by
  obtain ⟨u, happly, hu⟩ := apply_intact hok hbig h op hsize hin
  obtain rfl : u = t' := Except.ok.inj (happly.symm.trans hrun)
  exact (hu.perm (h.walked.symm.append_right _)).toCTree_holds

theorem vptRebuild_conserves (hok : ∀ i, env.ok i = true) (hbig : env.Bounded) (h : Intact t xs)
    (hsize : xs.length < sizeT)
    (hin : ∀ call, rebuildCall env t = .ok call → SplitsInside env call.arena call.data)
    {t' : VPTree ℕ D} (hrun : vptRebuild env t = .ok t') {jvpt : JVPTree Obj}
    (hj : jvpt.vpt = t.toCTree) :
    NativeCall.Conserves (D := D) (some jvpt) (.rebuild t'.toCTree) := by
  intro _ hjvpt
  obtain rfl := Option.some.inj hjvpt
  have hholds := apply_holds hok hbig h .rebuild
    (by rwa [LifeOp.supplied, List.append_nil]) hin hrun
  rw [LifeOp.supplied, List.append_nil] at hholds
  rwa [hj]

theorem vptAddRebuild_conserves (hok : ∀ i, env.ok i = true) (hbig : env.Bounded)
    (h : Intact t xs) {arr : JavaArray Obj} (hsize : (xs.length+arr.length) < sizeT)
    (hin : ∀ call, addRebuildCall env t (List.range' t.size arr.length) = .ok call →
      SplitsInside env call.arena call.data) {t' : VPTree ℕ D}
    (hrun : vptAddRebuild env t (List.range' t.size arr.length) = .ok t') {jvpt : JVPTree Obj}
    (hj : jvpt.vpt = t.toCTree) (newGlobalRef : Bool) :
    NativeCall.Conserves (D := D) (some jvpt)
      (.addRebuild (some arr) ⟨newGlobalRef, t'.toCTree⟩) := by
  intro _ hjvpt
  obtain rfl := Option.some.inj hjvpt
  have hlen : (xs ++ List.range' t.size arr.length).length < sizeT := by
    rwa [List.length_append, List.length_range']
  have hholds := apply_holds hok hbig h (.addRebuild (List.range' t.size arr.length)) hlen hin hrun
  rwa [hj]

end Library

section Step

variable {jvpt : JVPTree Obj}

/-- The call returns, and the tree and the array are in step. -/
def StaysInStep [LT D] [DecidableLT D] [Zero D] (s : NativeState Obj) (c : NativeCall Obj D) :
    Prop :=
  ∃ r jvpt, c.exec s = .ok r ∧ r.state = some jvpt ∧ jvpt.InStep

variable [LT D] [DecidableLT D] [Zero D]

theorem build_inStep (h : jvpt.InStep) (datapoints : Option (JavaArray Obj))
    (distFn : Option (Obj → Obj → D)) (answers : BuildAnswers)
    (hcons : NativeCall.Conserves (some jvpt) (.build datapoints distFn answers)) :
    StaysInStep (some jvpt) (.build datapoints distFn answers) := by
  refine ⟨nativeBuild datapoints distFn answers (some jvpt), ?_⟩
  rcases nativeBuild_cases datapoints distFn answers (some jvpt) with
    ⟨e, he⟩ | ⟨arr, vpt, rfl, hvpt, he⟩
  · exact ⟨jvpt, rfl, by rw [he, Returned.throw], h⟩
  · exact ⟨newJVPTree arr vpt, rfl, by rw [he], newJVPTree_inStep (hcons vpt hvpt)⟩

theorem rebuild_inStep (hfree : jvpt.rwlock = .free) (h : jvpt.InStep) (tree : CTree)
    (hcons : NativeCall.Conserves (D := D) (some jvpt) (.rebuild tree)) :
    StaysInStep (D := D) (some jvpt) (.rebuild tree) :=
  ⟨_, _, nativeRebuild_eq hfree tree, rfl, h.rebuild (hcons jvpt rfl) _⟩

theorem addRebuild_inStep_iff (hfree : jvpt.rwlock = .free) (h : jvpt.InStep)
    (datapoints : Option (JavaArray Obj)) (answers : AddRebuildAnswers)
    (hcons : NativeCall.Conserves (D := D) (some jvpt) (.addRebuild datapoints answers)) :
    StaysInStep (D := D) (some jvpt) (.addRebuild datapoints answers) ↔
      NativeCall.KeepsStep (D := D) (.addRebuild datapoints answers) := by
  cases datapoints with
  | none => exact iff_of_true ⟨_, jvpt, rfl, rfl, h⟩ trivial
  | some arr =>
    cases harr : validateArray arr with
    | error e =>
      refine iff_of_true ⟨.throw (some jvpt) e, jvpt, ?_, rfl, h⟩ ?_
      · simp only [NativeCall.exec, nativeAddRebuild, harr]
      · rintro ⟨n, hn⟩
        rw [harr] at hn
        cases hn
    | ok n =>
      have hexec := nativeAddRebuild_eq (D := D) hfree harr answers
      -- Without the reference `datapoints` is NULL: no array to be in step with.
      cases hanswer : answers.newGlobalRef with
      | true =>
        rw [hanswer, if_pos rfl] at hexec
        exact iff_of_true ⟨_, _, hexec, rfl, h.append (hcons jvpt rfl) _⟩ fun _ => hanswer
      | false =>
        refine iff_of_false ?_ fun hk => Bool.false_ne_true (hanswer.symm.trans (hk ⟨n, harr⟩))
        rintro ⟨r, jvpt', hr, hj, h'⟩
        rw [hanswer] at hexec
        obtain rfl : _ = r := Except.ok.inj (hexec.symm.trans hr)
        obtain rfl := Option.some.inj hj
        obtain ⟨arr', harr', _⟩ := h'.array
        cases harr'

/-- After an `add` the array is one element longer than the tree, or it is lost. -/
theorem add_not_inStep (hfree : jvpt.rwlock = .free) (h : jvpt.InStep) (datapoint : Option Obj)
    (newGlobalRef : Bool) : ¬ StaysInStep (D := D) (some jvpt) (.add datapoint newGlobalRef) := by
  rintro ⟨r, jvpt', hr, hj, h'⟩
  obtain ⟨thrown, _, hexec⟩ := nativeAdd_eq (D := D) hfree datapoint newGlobalRef
  obtain rfl : _ = r := Except.ok.inj (hexec.symm.trans hr)
  obtain rfl := Option.some.inj hj
  obtain ⟨arr, harr, hlen, _⟩ := h.array
  obtain ⟨arr', harr', hlen', _⟩ := h'.array
  dsimp only at harr' hlen'
  cases newGlobalRef with
  | false => cases harr'
  | true =>
    rw [harr] at harr'
    cases harr'
    rw [List.length_append, List.length_singleton] at hlen'
    omega

/-- The step lemma. -/
theorem exec_inStep_iff (hfree : jvpt.rwlock = .free) (h : jvpt.InStep) (c : NativeCall Obj D)
    (hup : c.Updates) (hcons : c.Conserves (some jvpt)) :
    StaysInStep (some jvpt) c ↔ c.KeepsStep := by
  cases c with
  | build datapoints distFn answers =>
    exact iff_of_true (build_inStep h datapoints distFn answers hcons) trivial
  | rebuild tree => exact iff_of_true (rebuild_inStep hfree h tree hcons) trivial
  | addRebuild datapoints answers => exact addRebuild_inStep_iff hfree h datapoints answers hcons
  | add datapoint newGlobalRef =>
    exact iff_of_false (add_not_inStep hfree h datapoint newGlobalRef) not_false
  | nn _ _ _ => exact hup.elim
  | knn _ _ _ => exact hup.elim
  | size => exact hup.elim
  | allWithin _ _ _ => exact hup.elim
  | close => exact hup.elim

omit [LT D] [DecidableLT D] [Zero D] in
theorem NativeCall.Updates.releases {c : NativeCall Obj D} (hup : c.Updates)
    (s : NativeState Obj) : c.Releases s := by
  cases c with
  | build _ _ _ => trivial
  | rebuild _ => trivial
  | addRebuild _ _ => trivial
  | add _ _ => trivial
  | nn _ _ _ => exact hup.elim
  | knn _ _ _ => exact hup.elim
  | size => exact hup.elim
  | allWithin _ _ _ => exact hup.elim
  | close => exact hup.elim

/-- A tree in step whose lock is free stays one through a call that keeps step. -/
theorem exec_keeps (hfree : jvpt.rwlock = .free) (h : jvpt.InStep) (c : NativeCall Obj D)
    (hup : c.Updates) (hcons : c.Conserves (some jvpt)) (hc : c.KeepsStep) :
    ∃ jvpt', nativeStep (some jvpt) c = .ok (some jvpt') ∧ jvpt'.rwlock = .free ∧
      jvpt'.InStep := by
  obtain ⟨r, jvpt', hexec, hj, h'⟩ := (exec_inStep_iff hfree h c hup hcons).mpr hc
  have hb := (exec_balanced_iff hfree c).mpr (hup.releases _)
  rw [hexec] at hb
  have hlock : r.state.map JVPTree.rwlock = some jvpt.rwlock := hb
  rw [hj] at hlock
  refine ⟨jvpt', ?_, (Option.some.inj hlock).trans hfree, h'⟩
  rw [nativeStep, hexec, ← hj]
  rfl

/-- After a build that succeeds, in every sequence of builds, rebuilds and
additions: the tree and its array are in step after each call if and only if no
call is an `add`, nor an `addRebuild` that gets no reference to its new array. -/
theorem nativeCalls_inStep_iff (datapoints : Option (JavaArray Obj))
    (distFn : Option (Obj → Obj → D)) (answers : BuildAnswers) (jvpt : JVPTree Obj)
    (calls : List (NativeCall Obj D))
    (hopen : nativeStep none (.build datapoints distFn answers) = .ok (some jvpt))
    (hcalls : Each nativeStep (fun s c => c.Updates ∧ c.Conserves s) none
      (.build datapoints distFn answers :: calls)) :
    Each nativeStep StaysInStep none (.build datapoints distFn answers :: calls) ↔
      ∀ c ∈ calls, c.KeepsStep := by
  obtain ⟨⟨_, hcons⟩, hrest⟩ := hcalls
  -- A build that succeeds hands over a tree in step, with its lock free.
  have hfirst : jvpt.rwlock = .free ∧ jvpt.InStep ∧
      StaysInStep none (.build datapoints distFn answers) := by
    rcases nativeBuild_cases datapoints distFn answers none with ⟨e, he⟩ | ⟨arr, vpt, rfl, hvpt, he⟩
    · rw [nativeStep, NativeCall.exec, he] at hopen
      cases hopen
    · rw [nativeStep, NativeCall.exec, he] at hopen
      cases hopen
      have hin := newJVPTree_inStep (hcons vpt hvpt)
      exact ⟨rfl, hin, _, _, rfl, by rw [he], hin⟩
  obtain ⟨hfree, hin, hstays⟩ := hfirst
  have hA := hrest _ hopen
  -- the invariant: open, the lock free, and in step
  let I (s : NativeState Obj) : Prop := ∃ jvpt, s = some jvpt ∧ jvpt.rwlock = .free ∧ jvpt.InStep
  have hI : I (some jvpt) := ⟨jvpt, rfl, hfree, hin⟩
  have hiff : Each nativeStep StaysInStep (some jvpt) calls ↔
      Each nativeStep (fun _ c => c.KeepsStep) (some jvpt) calls := by
    apply each_iff (I := I) (A := fun s c => c.Updates ∧ c.Conserves s) _ _ _ _ hI hA
    · rintro s c ⟨jvpt, rfl, hfree, hin⟩ ⟨hup, hcons⟩
      exact exec_inStep_iff hfree hin c hup hcons
    · rintro s c s' ⟨jvpt, rfl, hfree, hin⟩ ⟨hup, hcons⟩ hc hs'
      obtain ⟨jvpt', hstep, h'⟩ := exec_keeps hfree hin c hup hcons hc
      exact ⟨jvpt', Except.ok.inj (hs'.symm.trans hstep), h'⟩
  have hforall : Each nativeStep (fun _ (c : NativeCall Obj D) => c.KeepsStep) (some jvpt) calls ↔
      ∀ c ∈ calls, c.KeepsStep := by
    apply each_iff_forall (I := I) (A := fun s c => c.Updates ∧ c.Conserves s) _ _ _ hI hA
    rintro s c ⟨jvpt, rfl, hfree, hin⟩ ⟨hup, hcons⟩ hc
    obtain ⟨jvpt', hstep, h'⟩ := exec_keeps hfree hin c hup hcons hc
    exact ⟨some jvpt', hstep, jvpt', rfl, h'⟩
  rw [← hforall, ← hiff]
  constructor
  · rintro ⟨_, h⟩
    exact h _ hopen
  · intro h
    refine ⟨hstays, fun s' hs' => ?_⟩
    obtain rfl := Except.ok.inj (hopen.symm.trans hs')
    exact h

end Step

section Solo

/-- A tree of one object. -/
def soloBuild : NativeCall ℕ ℤ :=
  .build (some [some 10]) (some fun x y => if x = y then 0 else 1)
    ⟨true, fun _ => true, some ⟨1, [0]⟩⟩

theorem soloBuild_step : nativeStep none soloBuild = .ok (some (newJVPTree [some 10] ⟨1, [0]⟩)) :=
  rfl

theorem soloBuild_admitted {calls : List (NativeCall ℕ ℤ)}
    (h : Each nativeStep (fun s c => c.Updates ∧ c.Conserves s)
      (some (newJVPTree [some 10] ⟨1, [0]⟩)) calls) :
    Each nativeStep (fun s c => c.Updates ∧ c.Conserves s) none (soloBuild :: calls) := by
  refine ⟨⟨trivial, ?_⟩, ?_⟩
  · intro vpt hvpt
    obtain rfl := Option.some.inj hvpt
    exact ⟨rfl, List.Perm.refl _⟩
  · intro s' hs'
    obtain rfl := Except.ok.inj (soloBuild_step.symm.trans hs')
    exact h

/-- One object more, by an `addRebuild`. -/
theorem nativeCalls_inStep_iff_solo :
    Each nativeStep StaysInStep none
        (soloBuild :: [.addRebuild (some [some 12]) ⟨true, ⟨2, [1, 0]⟩⟩]) ↔
      ∀ c ∈ [(.addRebuild (some [some 12]) ⟨true, ⟨2, [1, 0]⟩⟩ : NativeCall ℕ ℤ)],
        c.KeepsStep := by
  apply nativeCalls_inStep_iff _ _ _ _ _ soloBuild_step
  apply soloBuild_admitted
  refine ⟨⟨trivial, ?_⟩, fun _ _ => trivial⟩
  intro jvpt hj
  obtain rfl := Option.some.inj hj
  exact ⟨rfl, List.Perm.swap 0 1 []⟩

/-- An `add` throws but leaves its object in the array, and the `addRebuild` after
it gives its own object the index 1 of the other. -/
theorem nativeCalls_not_inStep :
    let calls : List (NativeCall ℕ ℤ) :=
      [.add (some 11) true, .addRebuild (some [some 12]) ⟨true, ⟨2, [0, 1]⟩⟩]
    Each nativeStep (fun s c => c.Updates ∧ c.Conserves s) none (soloBuild :: calls) ∧
      ¬ Each nativeStep StaysInStep none (soloBuild :: calls) ∧
      calls.foldlM nativeStep (some (newJVPTree [some 10] ⟨1, [0]⟩)) = .ok (some
        { vpt := ⟨2, [0, 1]⟩
          rwlock := .free
          datapoints := some [some 10, some 11, some 12]
          currentlyComparing := none
          inserted := [(0, some 10), (1, some 12)] }) := by
  intro calls
  let tree : JVPTree ℕ := newJVPTree [some 10] ⟨1, [0]⟩
  let added : JVPTree ℕ := { tree with datapoints := some [some 10, some 11] }
  have hadd : nativeStep (D := ℤ) (some tree) (.add (some 11) true) = .ok (some added) := rfl
  refine ⟨?_, ?_, rfl⟩
  · apply soloBuild_admitted
    refine ⟨⟨trivial, trivial⟩, ?_⟩
    intro s' hs'
    obtain rfl := Except.ok.inj (hadd.symm.trans hs')
    refine ⟨⟨trivial, ?_⟩, fun _ _ => trivial⟩
    intro jvpt hj
    obtain rfl := Option.some.inj hj
    exact ⟨rfl, List.Perm.refl _⟩
  · rintro ⟨_, h⟩
    obtain ⟨⟨r, jvpt, hr, hj, hin⟩, _⟩ := h _ soloBuild_step
    have hstep : nativeStep (D := ℤ) (some tree) (.add (some 11) true) = .ok r.state := by
      rw [nativeStep, hr]
      rfl
    have hj' : some jvpt = some added := by
      rw [← hj]
      exact Except.ok.inj (hstep.symm.trans hadd)
    obtain rfl := Option.some.inj hj'
    -- two objects, one index
    obtain ⟨arr, harr, hlen, _⟩ := hin.array
    cases harr
    cases hlen

end Solo

end VantagePoint
