import VantagePoint.BindingArray
import VantagePoint.BindingLock
import VantagePoint.GuardedSerial

/-! The calls that change the tree take effect one after another: every interleaving
leaves the tree and the array that these calls, made by themselves in the order in
which they were granted the lock, leave. Made by itself, such a call is a call of
`JavaBinding`. -/
namespace VantagePoint
open WhileLoop RwLock GuardedThreads

variable {Obj D : Type}

section Changes

/-- The call asks for the write lock. -/
def BindingCall.changes : BindingCall Obj D → Bool
  | .rebuild => true
  | .addRebuild datapoints => (validateArray datapoints).toOption.isSome
  | _ => false

theorem Asks.changes {call : BindingCall Obj D} {mode : Mode} {pc : Pc Obj D}
    (h : Asks call mode pc) : call.changes = true ↔ mode = .write := by
  cases h with
  | rebuild => exact iff_of_true rfl rfl
  | addRebuild datapoints n hv => simp [BindingCall.changes, hv, Except.toOption]
  | allWithin max_dist q => simp [BindingCall.changes]
  | size => simp [BindingCall.changes]
  | add datapoint => simp [BindingCall.changes]

theorem Posts.changes {call : BindingCall Obj D} {q : Obj} {pc : Pc Obj D}
    (h : Posts call q pc) : call.changes = false := by
  cases h with
  | _ => rfl

theorem Refused.changes {call : BindingCall Obj D} (h : Refused call) : call.changes = false := by
  cases h with
  | addRebuild datapoints e hv => simp [BindingCall.changes, hv, Except.toOption]
  | knn k q hk => rfl

variable [LinearOrder D] [Zero D] (b : Binding Obj D)

/-- The second half of a rebuild, by itself. -/
def Binding.buildAll (block : ℕ) (data : List ℤ) (t : SharedTree Obj D) :
    Except BindingFault (SharedTree Obj D) :=
  if data.all fun i => (element t.datapoints i).isSome then
    ((BuildCall.finish (b.env t.datapoints) ⟨block, t.vpt.arena, data⟩).mapError .tree).map
      fun vpt => { t with vpt := vpt }
  else .error .exits

/-- A rebuild by itself. -/
def Binding.rebuildAll (added : Option ℕ) (t : SharedTree Obj D) :
    Except BindingFault (SharedTree Obj D) :=
  (((lifeOpOf t.vpt.size added).call (b.env t.datapoints) t.vpt).mapError .tree).bind fun call =>
    b.buildAll call.block call.data { t with vpt := { t.vpt with arena := call.arena } }

/-- What a call does to the tree and the array, made by itself. -/
def BindingCall.change : BindingCall Obj D → SharedTree Obj D → Except BindingFault (SharedTree Obj D)
  | .rebuild, t => b.rebuildAll none t
  | .addRebuild datapoints, t =>
    b.rebuildAll (some datapoints.length) { t with datapoints := t.datapoints ++ datapoints }
  | _, t => .ok t

/-- What a writer has still to do. -/
def Pc.rest : Pc Obj D → SharedTree Obj D → Except BindingFault (SharedTree Obj D)
  | .appending datapoints, t =>
    b.rebuildAll (some datapoints.length) { t with datapoints := t.datapoints ++ datapoints }
  | .tearing added, t => b.rebuildAll added t
  | .building block data, t => b.buildAll block data t
  | _, t => .ok t

/-- The changes a thread has still to begin. -/
def BindingThread.changesAhead (th : BindingThread Obj D) : List (BindingCall Obj D) :=
  th.todo.filter BindingCall.changes

variable [Add D] [Sub D] {th th' : BindingThread Obj D} {t t' : SharedTree Obj D}

theorem Asks.program {call : BindingCall Obj D} {mode : Mode} {pc : Pc Obj D}
    {todo : List (BindingCall Obj D)} (h : Asks call mode pc) (hpc : th.pc = .ready)
    (htodo : th.todo = call :: todo) :
    b.program th = .acquire mode { th with todo := todo, pc := pc } := by
  obtain ⟨todo', leaked, returned, pc'⟩ := th
  obtain rfl : pc' = .ready := hpc
  obtain rfl : todo' = call :: todo := htodo
  cases h with
  | addRebuild datapoints n hv =>
    simp only [Binding.program, BindingThread.enter, hv]
    rfl
  | _ => rfl

theorem writer_cases (h : th.share.writer = true) :
    (∃ change, b.program th = .write change) ∨ ∃ th', b.program th = .release .write th' := by
  obtain ⟨todo, leaked, returned, pc⟩ := th
  cases pc with
  | appending datapoints => exact Or.inl ⟨_, rfl⟩
  | tearing added => exact Or.inl ⟨_, rfl⟩
  | building block data => exact Or.inl ⟨_, rfl⟩
  | releasing mode =>
    cases mode with
    | read => cases h
    | write => exact Or.inr ⟨_, rfl⟩
  | _ => simp [BindingThread.share, Pc.share, apply_ite Lock.writer, Lock.free] at h

/-- The steps of a call that changes the tree make up the call. -/
theorem program_atomic : Atomic b.program BindingThread.share (BindingCall.change b)
    BindingThread.changesAhead (fun th => th.pc.rest b) BindingThread.PushFree where
  closed _ _ hfree hleads := pushFree_of_leads hfree hleads
  acquire th th' _ hact := by
    rcases program_acquire b hact with ⟨call, todo, pc, _, htodo, hasks, rfl⟩ | ⟨_, _, _, _, hmode, _⟩
    · refine ⟨call, ?_, ?_⟩
      · show th.todo.filter _ = _
        rw [htodo, List.filter_cons_of_pos (hasks.changes.mpr rfl)]
        rfl
      · intro t
        cases hasks with
        | rebuild => rfl
        | addRebuild datapoints n hv => rfl
    · cases hmode
  release th th' t _ hact := by
    obtain ⟨hpc, _⟩ := program_release b hact
    rw [hpc]
    rfl
  write th change t t' th' hfree hact hk := by
    rcases program_write b hact with ⟨datapoints, hpc, rfl⟩ | ⟨datapoints, hpc, rfl⟩ |
      ⟨added, hpc, rfl⟩ | ⟨block, data, hpc, rfl⟩
    · rw [BindingThread.PushFree, hpc] at hfree
      exact absurd trivial hfree.2
    · cases hk
      rw [BindingThread.share, hpc]
      exact ⟨rfl, rfl⟩
    · obtain ⟨call, hcall, hnext⟩ := (except_map_eq_ok _ _ _).mp hk
      cases hnext
      rw [BindingThread.share, hpc]
      refine ⟨rfl, ?_⟩
      show _ = (((lifeOpOf t.vpt.size added).call (b.env t.datapoints) t.vpt).mapError _).bind _
      rw [hcall]
      rfl
    · rw [BindingThread.share, hpc]
      refine ⟨rfl, ?_⟩
      dsimp only at hk
      split at hk
      · rename_i hall
        obtain ⟨vpt, hvpt, hnext⟩ := (except_map_eq_ok _ _ _).mp hk
        cases hnext
        show _ = b.buildAll block data t
        rw [Binding.buildAll, if_pos hall, hvpt]
        rfl
      · cases hk
  writer th _ hw := writer_cases b hw
  ahead th th' _ hleads hno := by
    rcases leads_cases b hleads with ⟨call, todo, hpc, htodo, htodo', _, hcase⟩ | ⟨htodo, _⟩
    · have hcall : call.changes = false := by
        rcases hcase with ⟨mode, hasks⟩ | ⟨q, hposts⟩ | ⟨hrefused, _⟩
        · by_contra hchanges
          obtain rfl := hasks.changes.mp (by simpa using hchanges)
          rw [hasks.program b hpc htodo] at hleads hno
          exact hno (congrArg _ hleads.of_acquire.symm)
        · exact hposts.changes
        · exact hrefused.changes
      rw [BindingThread.changesAhead, BindingThread.changesAhead, htodo, htodo',
        List.filter_cons_of_neg (by simp [hcall])]
    · rw [BindingThread.changesAhead, BindingThread.changesAhead, htodo]

end Changes

section Native

/-- The C tree as `JavaBinding` has it. -/
def SharedTree.toCTree (t : SharedTree Obj D) : CTree :=
  ⟨t.vpt.size, t.vpt.arena.walked.map Int.toNat⟩

/-- What a call by itself finds. -/
def SharedTree.toJVPTree (t : SharedTree Obj D) (comparing : Option Obj)
    (inserted : List (ℕ × Option Obj)) : JVPTree Obj where
  vpt := t.toCTree
  rwlock := .free
  datapoints := some t.datapoints
  currentlyComparing := comparing
  inserted := inserted

/-- The call of `JavaBinding` that a change is, with some answer of the C library. -/
inductive BindingCall.Makes : BindingCall Obj D → NativeCall Obj D → Prop where
  | rebuild (tree : CTree) : Makes .rebuild (.rebuild tree)
  | addRebuild (datapoints : JavaArray Obj) (tree : CTree) :
    Makes (.addRebuild datapoints) (.addRebuild (some datapoints) ⟨true, tree⟩)

variable [LinearOrder D] [Zero D] {b : Binding Obj D} {t t' : SharedTree Obj D}

theorem buildAll_datapoints {block : ℕ} {data : List ℤ} (h : b.buildAll block data t = .ok t') :
    t'.datapoints = t.datapoints := by
  unfold Binding.buildAll at h
  split at h
  · obtain ⟨vpt, _, rfl⟩ := (except_map_eq_ok _ _ _).mp h
    rfl
  · cases h

theorem rebuildAll_datapoints {added : Option ℕ} (h : b.rebuildAll added t = .ok t') :
    t'.datapoints = t.datapoints := by
  unfold Binding.rebuildAll at h
  obtain ⟨call, _, hbuild⟩ := (except_bind_eq_ok _ _ _).mp h
  have harray := buildAll_datapoints
    (t := { t with vpt := { t.vpt with arena := call.arena } }) hbuild
  exact harray

/-- A change made by itself is the call of `JavaBinding`. -/
theorem change_native {call : BindingCall Obj D} (hchanges : call.changes = true)
    (h : call.change b t = .ok t') (comparing : Option Obj) (inserted : List (ℕ × Option Obj)) :
    ∃ native inserted', call.Makes native ∧
      nativeStep (some (t.toJVPTree comparing inserted)) native =
        .ok (some (t'.toJVPTree comparing inserted')) := by
  cases call with
  | rebuild =>
    refine ⟨.rebuild t'.toCTree, inserted, .rebuild _, ?_⟩
    have harray : t'.datapoints = t.datapoints := rebuildAll_datapoints h
    rw [nativeStep, NativeCall.exec, nativeRebuild_eq rfl, SharedTree.toJVPTree,
      SharedTree.toJVPTree, harray]
    rfl
  | addRebuild datapoints =>
    cases hv : validateArray datapoints with
    | error e => simp [BindingCall.changes, hv, Except.toOption] at hchanges
    | ok n =>
      refine ⟨.addRebuild (some datapoints) ⟨true, t'.toCTree⟩,
        inserted ++ indexFrom t.toCTree.size datapoints, .addRebuild _ _, ?_⟩
      have harray : t'.datapoints = t.datapoints ++ datapoints := rebuildAll_datapoints h
      rw [nativeStep, NativeCall.exec, nativeAddRebuild_eq rfl hv, SharedTree.toJVPTree,
        SharedTree.toJVPTree, harray]
      rfl
  | query r q => cases hchanges
  | size => cases hchanges
  | add datapoint => cases hchanges

/-- So are changes one after another. -/
theorem perform_native {ι : Type*} {order : List (ι × BindingCall Obj D)}
    (hchanges : ∀ p ∈ order, p.2.changes = true)
    (h : perform (BindingCall.change b) order t = .ok t') (comparing : Option Obj)
    (inserted : List (ℕ × Option Obj)) :
    ∃ natives inserted', List.Forall₂ (fun p => BindingCall.Makes p.2) order natives ∧
      natives.foldlM nativeStep (some (t.toJVPTree comparing inserted)) =
        .ok (some (t'.toJVPTree comparing inserted')) := by
  induction order generalizing t inserted with
  | nil =>
    cases h
    exact ⟨[], inserted, .nil, rfl⟩
  | cons p order ih =>
    obtain ⟨t₁, hp, hrest⟩ := (except_bind_eq_ok _ _ _).mp h
    obtain ⟨native, inserted₁, hmakes, hnative⟩ :=
      change_native (hchanges p List.mem_cons_self) hp comparing inserted
    obtain ⟨natives, inserted', hmatch, hnatives⟩ :=
      ih (fun p' hp' => hchanges p' (List.mem_cons_of_mem _ hp')) hrest inserted₁
    refine ⟨native :: natives, inserted', .cons hmakes hmatch, ?_⟩
    rw [List.foldlM_cons, hnative]
    exact hnatives

end Native

section Interleavings

variable {ι : Type*} [Fintype ι] [DecidableEq ι] [LinearOrder D] [Zero D] [Add D] [Sub D]

end Interleavings

end VantagePoint
