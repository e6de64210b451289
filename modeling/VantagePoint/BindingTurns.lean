import VantagePoint.BindingRace
import VantagePoint.GuardedTurns

/-! The Java tree as its documentation wants it used: externally synchronized, so that no
call begins while another one is under way. Then `nn` may go without a lock, the query
point is the caller's own, and the threads refine the machine in which a call is one
step on the objects stored so far. -/
namespace VantagePoint
open WhileLoop GroupMetric RwLock GuardedThreads

variable {Obj D : Type}

section Purpose

variable [LinearOrder D] [Zero D] [Add D] [Sub D]

/-- What a call is good for: the objects it leaves of those it finds, and what it
returns. An `all_within` that has something to return is none. -/
inductive BindingCall.Does (b : Binding Obj D) (os : List Obj) :
    BindingCall Obj D → List Obj → List (JavaValue Obj D) → Prop where
  | rebuild : Does b os .rebuild os []
  | addRebuild (datapoints : JavaArray Obj) (n : ℕ) (h : validateArray datapoints = .ok n) :
    Does b os (.addRebuild datapoints) (os ++ objects datapoints) []
  | refused (call : BindingCall Obj D) (h : Refused call) : Does b os call os []
  | nn (q o : Obj) (ho : o ∈ os) (h : ∀ o' ∈ os, b.distFn o q ≤ b.distFn o' q) :
    Does b os (.query .nn q) os [.entry ⟨o, b.distFn o q⟩]
  | knn (k : ℕ) (q : Obj) (entries : List (VPEntry Obj D))
    (h : KnnSound (fun o => b.distFn o q) k os (entries, entries.length)) :
    Does b os (.query (.knn k) q) os [.list entries]
  | allWithin (max_dist : D) (q : Obj) (h : ∀ o ∈ os, ¬ b.distFn o q ≤ max_dist) :
    Does b os (.query (.allWithin max_dist) q) os [.null]
  | size : Does b os .size os [.int ((os.length : ℤ).bmod (2^32))]

/-- A thread makes its next call. -/
def Binding.Does (b : Binding Obj D) (os : List Obj)
    (th : List (BindingCall Obj D) × List (JavaValue Obj D)) (os' : List Obj)
    (th' : List (BindingCall Obj D) × List (JavaValue Obj D)) : Prop :=
  ∃ call values, th.1 = call :: th'.1 ∧ call.Does b os os' values ∧ th'.2 = th.2 ++ values

end Purpose

section Effects

/-- The call a method was entered by, until it takes effect. -/
def Pc.pending : Pc Obj D → List (BindingCall Obj D)
  | .locking r q => [.query r q]
  | .posting r q => [.query r q]
  | .starting r q => [.query r q]
  | .searching r q _ => [.query r q]
  | .found r q _ _ => [.query r q]
  | .sizing => [.size]
  | .appending datapoints => [.addRebuild datapoints]
  | _ => []

/-- The calls of a thread that have still to take effect, and the values it has got. -/
def BindingThread.view (th : BindingThread Obj D) :
    List (BindingCall Obj D) × List (JavaValue Obj D) :=
  (th.pc.pending ++ th.todo, th.returned)

theorem view_goto {th : BindingThread Obj D} {pc : Pc Obj D} (h : pc.pending = th.pc.pending) :
    (th.goto pc).view = th.view := by
  show (pc.pending ++ th.todo, th.returned) = _
  rw [h]
  rfl

theorem objects_append (datapoints added : JavaArray Obj) :
    objects (datapoints ++ added) = objects datapoints ++ objects added :=
  List.filterMap_append

theorem Asks.pending {call : BindingCall Obj D} {mode : Mode} {pc : Pc Obj D}
    (h : Asks call mode pc) (hpush : ¬ call.Pushes) :
    call = .rebuild ∧ pc.pending = [] ∨ pc.pending = [call] := by
  cases h with
  | rebuild => exact Or.inl ⟨rfl, rfl⟩
  | add datapoint => exact absurd trivial hpush
  | _ => exact Or.inr rfl

theorem Posts.pending {call : BindingCall Obj D} {q : Obj} {pc : Pc Obj D}
    (h : Posts call q pc) : pc.pending = [call] := by
  cases h with
  | _ => rfl

end Effects

section Methods

variable [LinearOrder D] [Zero D] [Add D] [Sub D] {b : Binding Obj D} {t : SharedTree Obj D}
  {comparing : Option Obj} {pc : Pc Obj D}

/-- What a method may rely on when no other one is under way. -/
def Pc.Owns (b : Binding Obj D) (t : SharedTree Obj D) (comparing : Option Obj) : Pc Obj D → Prop
  | .ready => t.Sane b
  | .locking r q => r.Served ∧ comparing = some q ∧ t.Sane b
  | .posting r _ => r.Served ∧ t.Sane b
  | .starting r q => r.Served ∧ comparing = some q ∧ t.Sane b
  | .searching r q scan => r.Served ∧ comparing = some q ∧ t.Sane b ∧ scan.Follows b t r q ∧
    ∀ p ∈ scan.seen, p = some q
  | .found r q acc seen => r.Served ∧ t.Sane b ∧ r.Ended b t q acc seen ∧ ∀ p ∈ seen, p = some q
  | .sizing => t.Sane b
  | .appending datapoints => t.Sane b ∧ ∃ n, validateArray datapoints = .ok n
  | .releasing _ => t.Sane b
  -- in the middle of a rebuild it is as behind the lock
  | pc => pc.Relies b t comparing

theorem Asks.owns {call : BindingCall Obj D} {mode : Mode} (h : Asks call mode pc)
    (hpush : ¬ call.Pushes) (ht : t.Sane b) : pc.Owns b t comparing := by
  cases h with
  | rebuild =>
    exact ⟨ht.nonempty, ht.full, t.datapoints.length, rfl, ht.serves.intact, ht.serves.accounts⟩
  | addRebuild datapoints n hv => exact ⟨ht, n, hv⟩
  | allWithin max_dist q => exact ⟨trivial, ht⟩
  | size => exact ht
  | add datapoint => exact absurd trivial hpush

theorem Posts.owns {call : BindingCall Obj D} {q : Obj} (h : Posts call q pc) (ht : t.Sane b) :
    pc.Owns b t (some q) := by
  cases h with
  | nn q => exact ⟨trivial, rfl, ht⟩
  | knn k q hk => exact ⟨hk, rfl, ht⟩

/-- Nothing happens in a call that returns at once. -/
theorem refused_of_makes {t' : SharedTree Obj D} {comparing' : Option Obj}
    {th th' : BindingThread Obj D} (hpc : th.pc = .ready) (hpc' : th'.pc = .ready)
    (hmakes : (b.program th).Makes t comparing t' comparing' th') :
    t' = t ∧ comparing' = comparing ∧ th'.returned = th.returned ∧
      ∃ call, th.todo = call :: th'.todo ∧ Refused call := by
  obtain ⟨todo, leaked, returned, pc⟩ := th
  obtain rfl : pc = .ready := hpc
  cases todo with
  | nil => cases hmakes
  | cons call todo =>
    have henter : (BindingThread.enter ⟨todo, leaked, returned, .ready⟩ call).Makes
        t comparing t' comparing' th' := hmakes
    rcases enter_cases ⟨todo, leaked, returned, .ready⟩ call with ⟨mode, pc, he, hasks⟩ |
      ⟨q, pc, he, hposts⟩ | ⟨he, hrefused⟩
    · rw [he] at henter
      cases henter
      obtain rfl : pc = .ready := hpc'
      cases hasks
    · rw [he] at henter
      cases henter
      obtain rfl : pc = .ready := hpc'
      cases hposts
    · rw [he] at henter
      obtain ⟨rfl, rfl, hk⟩ := henter.of_read
      cases hk
      exact ⟨rfl, rfl, rfl, call, rfl, hrefused⟩

theorem not_fails_of_ready {th : BindingThread Obj D} {fault : BindingFault} (hpc : th.pc = .ready) :
    ¬ (b.program th).Fails t comparing fault := by
  intro hfails
  obtain ⟨todo, leaked, returned, pc⟩ := th
  obtain rfl : pc = .ready := hpc
  cases todo with
  | nil => cases hfails
  | cons call todo =>
    have henter : (BindingThread.enter ⟨todo, leaked, returned, .ready⟩ call).Fails
        t comparing fault := hfails
    rcases enter_cases ⟨todo, leaked, returned, .ready⟩ call with ⟨mode, pc, he, _⟩ |
      ⟨q, pc, he, _⟩ | ⟨he, _⟩
    · rw [he] at henter
      cases henter
    · rw [he] at henter
      cases henter
    · rw [he] at henter
      cases henter with
      | read look _ _ _ hf => cases hf

/-- A step of a method keeps what the method relies on. -/
theorem owns_of_makes (hb : b.Fits) {t' : SharedTree Obj D} {comparing' : Option Obj}
    {th th' : BindingThread Obj D} (hfree : th.PushFree) (howns : th.pc.Owns b t comparing)
    (hsize : t.datapoints.length < sizeT) (hin : t.BuildsInside b)
    (hmakes : (b.program th).Makes t comparing t' comparing' th') :
    th'.pc.Owns b t' comparing' := by
  generalize hact : b.program th = act at hmakes
  cases hmakes with
  | acquire mode =>
    rcases program_acquire b hact with ⟨call, todo, pc, hpc, htodo, hasks, rfl⟩ |
      ⟨r, q, hpc, _, _, rfl⟩
    · rw [hpc] at howns
      refine hasks.owns (hfree.1 call ?_) howns
      rw [htodo]
      exact List.mem_cons_self
    · rw [hpc] at howns
      exact howns
  | release mode =>
    obtain ⟨hpc, rfl⟩ := program_release b hact
    rw [hpc] at howns
    exact howns
  | read look _ _ _ hk =>
    rcases program_read b hact with ⟨call, todo, hpc, _, _, rfl⟩ | ⟨r, q, hpc, _, rfl⟩ |
      ⟨r, q, hpc, rfl⟩ | ⟨r, q, scan, hpc, rfl⟩ | ⟨r, q, acc, seen, hpc, rfl⟩ | ⟨hpc, rfl⟩ |
      ⟨datapoint, hpc, rfl⟩
    · cases hk
      exact howns
    · cases hk
      rw [hpc] at howns
      exact howns
    · cases hk
      rw [hpc] at howns
      obtain ⟨hr, hown, ht⟩ := howns
      obtain ⟨_, root, hrep, hitems, _⟩ := ht.root
      exact ⟨hr, hown, ht, follows_start hrep hitems.subset, fun p hp => by cases hp⟩
    · rw [hpc] at howns
      obtain ⟨hr, rfl, ht, hfollows, hseen⟩ := howns
      have hsome : (some q).isSome := rfl
      obtain ⟨next, hstep, hnext⟩ := search_goes_on ht hfollows hsome
      simp only [hstep] at hk
      cases hk
      cases next with
      | inl scan' =>
        refine ⟨hr, rfl, ht, hnext, fun p hp => ?_⟩
        rcases step_seen hstep hp with hold | hnew
        · exact hseen p hold
        · exact hnew
      | inr acc => exact ⟨hr, ht, hnext, hseen⟩
    · rw [hpc] at howns
      dsimp only at hk
      split at hk
      · cases hk
        exact howns.2.1
      · obtain ⟨entries, _, rfl⟩ := (except_map_eq_ok _ _ _).mp hk
        dsimp only
        split
        · exact howns.2.1
        · exact howns.2.1
    · cases hk
      rw [hpc] at howns
      exact howns
    · rw [hpc] at howns
      exact howns.elim
  | write change _ _ _ _ hk =>
    rcases program_write b hact with ⟨stored, hpc, rfl⟩ | ⟨datapoints, hpc, rfl⟩ |
      ⟨added, hpc, rfl⟩ | ⟨block, data, hpc, rfl⟩
    · rw [hpc] at howns
      exact howns.elim
    · cases hk
      rw [hpc] at howns
      obtain ⟨ht, n, hv⟩ := howns
      have hrelies : (Pc.appending datapoints).Relies b t comparing :=
        ⟨ht, full_of_validateArray hv⟩
      exact appending_relies hrelies
    · rw [hpc] at howns
      have hrelies : (Pc.tearing added).Relies b t comparing := howns
      obtain ⟨call, hcall, hnext⟩ := tearing_relies hrelies
      simp only [hcall] at hk
      cases hk
      exact hnext
    · rw [hpc] at howns
      have hrelies : (Pc.building block data).Relies b t comparing := howns
      obtain ⟨hall, vpt, hfinish, ht⟩ := building_relies hb hrelies hsize hin
      simp only [hall, ↓reduceIte, hfinish] at hk
      cases hk
      exact ht
  | post set =>
    obtain ⟨q, rfl, ⟨call, todo, pc, hpc, _, hposts, rfl⟩ | ⟨r, hpc, rfl⟩⟩ :=
      program_post b hact
    · rw [hpc] at howns
      exact hposts.owns howns
    · rw [hpc] at howns
      exact ⟨howns.1, rfl, howns.2⟩

/-- There is one step that may go wrong. -/
theorem unwritten_of_fails (hb : b.Fits) (hmax : ∀ x y, b.distFn x y < b.DIST_MAX)
    {th : BindingThread Obj D} {fault : BindingFault} (howns : th.pc.Owns b t comparing)
    (hsize : t.datapoints.length < sizeT) (hin : t.BuildsInside b)
    (hfails : (b.program th).Fails t comparing fault) : th.Unwritten t fault := by
  generalize hact : b.program th = act at hfails
  cases hfails with
  | read look _ _ _ hf =>
    rcases program_read b hact with ⟨call, todo, hpc, _, _, rfl⟩ | ⟨r, q, hpc, _, rfl⟩ |
      ⟨r, q, hpc, rfl⟩ | ⟨r, q, scan, hpc, rfl⟩ | ⟨r, q, acc, seen, hpc, rfl⟩ | ⟨hpc, rfl⟩ |
      ⟨datapoint, hpc, rfl⟩
    · cases hf
    · cases hf
    · cases hf
    · rw [hpc] at howns
      obtain ⟨_, rfl, ht, hfollows, _⟩ := howns
      have hsome : (some q).isSome := rfl
      obtain ⟨next, hstep, _⟩ := search_goes_on ht hfollows hsome
      simp only [hstep] at hf
      cases hf
    · rw [hpc] at howns
      dsimp only at hf
      split at hf
      · cases hf
      · rename_i hnone
        rcases results_of_ended howns.2.1 howns.2.2.1 (fun _ => hmax) hnone with
          ⟨entries, hentries⟩ | ⟨max_dist, rfl, hfault⟩
        · rw [hentries] at hf
          cases hf
        · rw [hfault] at hf
          cases hf
          exact ⟨rfl, max_dist, q, acc, seen, hpc⟩
    · cases hf
    · cases hf
  | write change _ _ _ hf =>
    rcases program_write b hact with ⟨stored, hpc, rfl⟩ | ⟨datapoints, hpc, rfl⟩ |
      ⟨added, hpc, rfl⟩ | ⟨block, data, hpc, rfl⟩
    · cases hf
    · cases hf
    · rw [hpc] at howns
      have hrelies : (Pc.tearing added).Relies b t comparing := howns
      obtain ⟨call, hcall, _⟩ := tearing_relies hrelies
      simp only [hcall] at hf
      cases hf
    · rw [hpc] at howns
      have hrelies : (Pc.building block data).Relies b t comparing := howns
      obtain ⟨hall, vpt, hfinish, _⟩ := building_relies hb hrelies hsize hin
      simp only [hall, ↓reduceIte, hfinish] at hf
      cases hf

/-- The methods of threads that take turns, each taken by itself. -/
theorem program_turns (hb : b.Fits) (hmax : ∀ x y, b.distFn x y < b.DIST_MAX) :
    Turns b.program (fun th => th.pc = .ready) (SharedTree.Sane b)
      (fun t => t.datapoints.length < sizeT ∧ t.BuildsInside b) BindingThread.PushFree
      (fun th t comparing => th.pc.Owns b t comparing) BindingThread.Unwritten where
  closed _ _ hfree hleads := pushFree_of_leads hfree hleads
  enter th t comparing _ hpc ht := by
    rw [hpc]
    exact ht
  leave th t comparing hpc howns := by
    rwa [hpc] at howns
  next _ _ _ _ _ _ hfree howns hP hmakes := owns_of_makes hb hfree howns hP.1 hP.2 hmakes
  fault _ _ _ _ howns hP hfails := unwritten_of_fails hb hmax howns hP.1 hP.2 hfails
  quiet _ _ _ _ _ _ hpc hpc' hmakes :=
    have hsame := refused_of_makes hpc hpc' hmakes
    ⟨hsame.1, hsame.2.1⟩
  calm _ _ _ _ hpc := not_fails_of_ready hpc

end Methods

section Refinement

variable [AddCommGroup D] [LinearOrder D] [IsOrderedAddMonoid D] {b : Binding Obj D}
  {t : SharedTree Obj D} {comparing : Option Obj} {th th' : BindingThread Obj D}

/-- A search takes effect when its results are read. -/
theorem found_does (hd : IsMetric b.distFn) (hmax : ∀ x y, b.distFn x y < b.DIST_MAX)
    (ht : t.Sane b) {r : Request D} {q : Obj} {acc : r.Acc} {seen : List (Option Obj)}
    (hr : r.Served) (hpc : th.pc = .found r q acc seen) (hended : r.Ended b t q acc seen)
    (hown : ∀ p ∈ seen, p = some q) (hmakes : (b.program th).Makes t comparing t comparing th') :
    b.Does (objects t.datapoints) th.view (objects t.datapoints) th'.view := by
  obtain ⟨todo, leaked, returned, pc⟩ := th
  obtain rfl : pc = .found r q acc seen := hpc
  obtain ⟨_, _, hk⟩ := hmakes.of_read
  cases r with
  | nn =>
    obtain ⟨o, hentries, ho, hnearest⟩ := nn_results hd hmax ht hended hown
    simp only [Request.locked, Bool.false_eq_true, false_and, ↓reduceIte, hentries] at hk
    cases hk
    exact ⟨_, _, rfl, .nn q o ho hnearest, rfl⟩
  | knn k =>
    obtain ⟨hne, entries, hentries, hsound⟩ := knn_results hd hmax ht hr hended hown
    simp only [hne, Bool.false_eq_true, and_false, ↓reduceIte, hentries] at hk
    cases hk
    exact ⟨_, _, rfl, .knn k q entries hsound, rfl⟩
  | allWithin max_dist =>
    have hresults := within_results hd hmax ht hended hown
    cases hempty : ((Request.allWithin max_dist).results acc).isEmpty with
    | true =>
      simp only [Request.locked, hempty, and_self, ↓reduceIte] at hk
      cases hk
      refine ⟨_, _, rfl, .allWithin max_dist q ?_, rfl⟩
      intro o ho hle
      have hsome := hresults.mpr ⟨o, ho, hle⟩
      rw [hempty] at hsome
      cases hsome
    | false =>
      simp only [hempty, Bool.false_eq_true, and_false, ↓reduceIte,
        within_unread hended hempty] at hk
      cases hk

/-- Of the steps of a method one has the effect of the call, and the others have none. -/
theorem program_takes_effect (hd : IsMetric b.distFn) (hmax : ∀ x y, b.distFn x y < b.DIST_MAX) :
    TakesEffect b.program (fun th => th.pc = .ready) BindingThread.PushFree
      (fun th t comparing => th.pc.Owns b t comparing) (fun t => objects t.datapoints)
      BindingThread.view b.Does where
  busy th t comparing t' comparing' th' hfree howns hmakes := by
    have hmakes' := hmakes
    generalize hact : b.program th = act at hmakes
    cases hmakes with
    | acquire mode =>
      rcases program_acquire b hact with ⟨call, todo, pc, hpc, htodo, hasks, rfl⟩ |
        ⟨r, q, hpc, _, _, rfl⟩
      · have hpush : ¬ call.Pushes := by
          apply hfree.1
          rw [htodo]
          exact List.mem_cons_self
        have hview : th.view = (call :: todo, th.returned) := by
          rw [BindingThread.view, hpc, htodo]
          rfl
        rw [hview]
        rcases hasks.pending hpush with ⟨rfl, hnone⟩ | hone
        · right
          refine ⟨.rebuild, [], ?_, .rebuild, (List.append_nil _).symm⟩
          show _ = .rebuild :: (pc.pending ++ todo)
          rw [hnone]
          rfl
        · left
          refine ⟨rfl, ?_⟩
          show (pc.pending ++ todo, th.returned) = _
          rw [hone]
          rfl
      · exact Or.inl ⟨rfl, view_goto (by rw [hpc]; rfl)⟩
    | release mode =>
      obtain ⟨hpc, rfl⟩ := program_release b hact
      exact Or.inl ⟨rfl, view_goto (by rw [hpc]; rfl)⟩
    | read look _ _ _ hk =>
      rcases program_read b hact with ⟨call, todo, hpc, htodo, hrefused, rfl⟩ | ⟨r, q, hpc, _, rfl⟩ |
        ⟨r, q, hpc, rfl⟩ | ⟨r, q, scan, hpc, rfl⟩ | ⟨r, q, acc, seen, hpc, _⟩ | ⟨hpc, rfl⟩ |
        ⟨datapoint, hpc, rfl⟩
      · cases hk
        right
        refine ⟨call, [], ?_, .refused call hrefused, (List.append_nil _).symm⟩
        show th.pc.pending ++ th.todo = call :: (th.pc.pending ++ todo)
        rw [hpc, htodo]
        rfl
      · cases hk
        exact Or.inl ⟨rfl, view_goto (by rw [hpc]; rfl)⟩
      · cases hk
        exact Or.inl ⟨rfl, view_goto (by rw [hpc]; rfl)⟩
      · obtain ⟨next, _, rfl⟩ := (except_map_eq_ok _ _ _).mp hk
        left
        cases next with
        | inl scan' => exact ⟨rfl, view_goto (by rw [hpc]; rfl)⟩
        | inr acc => exact ⟨rfl, view_goto (by rw [hpc]; rfl)⟩
      · rw [hpc] at howns
        obtain ⟨hr, ht, hended, hown⟩ := howns
        exact Or.inr (found_does hd hmax ht hr hpc hended hown hmakes')
      · -- the size of the tree is that of the array
        rw [hpc] at howns
        have ht : t.Sane b := howns
        have hlen : t.vpt.size = (objects t.datapoints).length := by
          rw [ht.serves.intact.size, length_indices]
          exact congrArg List.length (exists_objects ht.full) |>.trans (List.length_map _)
        cases hk
        right
        refine ⟨.size, [.int (((objects t.datapoints).length : ℤ).bmod (2^32))], ?_, .size, ?_⟩
        · show th.pc.pending ++ th.todo = _
          rw [hpc]
          rfl
        · rw [← hlen]
          rfl
      · rw [hpc] at howns
        exact howns.elim
    | write change _ _ _ _ hk =>
      rcases program_write b hact with ⟨stored, hpc, rfl⟩ | ⟨datapoints, hpc, rfl⟩ |
        ⟨added, hpc, rfl⟩ | ⟨block, data, hpc, rfl⟩
      · rw [hpc] at howns
        exact howns.elim
      · cases hk
        rw [hpc] at howns
        obtain ⟨_, n, hv⟩ := howns
        right
        refine ⟨.addRebuild datapoints, [], ?_, ?_, (List.append_nil _).symm⟩
        · show th.pc.pending ++ th.todo = _
          rw [hpc]
          rfl
        · have hdoes : BindingCall.Does b (objects t.datapoints) (.addRebuild datapoints) _ [] :=
            .addRebuild datapoints n hv
          rwa [← objects_append] at hdoes
      · obtain ⟨call, _, hcall⟩ := (except_map_eq_ok _ _ _).mp hk
        cases hcall
        exact Or.inl ⟨rfl, view_goto (by rw [hpc]; rfl)⟩
      · dsimp only at hk
        split at hk
        · obtain ⟨vpt, _, hvpt⟩ := (except_map_eq_ok _ _ _).mp hk
          cases hvpt
          exact Or.inl ⟨rfl, view_goto (by rw [hpc]; rfl)⟩
        · cases hk
    | post set =>
      obtain ⟨q, rfl, ⟨call, todo, pc, hpc, htodo, hposts, rfl⟩ | ⟨r, hpc, rfl⟩⟩ :=
        program_post b hact
      · left
        refine ⟨rfl, ?_⟩
        show (pc.pending ++ todo, th.returned) = (th.pc.pending ++ th.todo, th.returned)
        rw [hposts.pending, hpc, htodo]
        rfl
      · exact Or.inl ⟨rfl, view_goto (by rw [hpc]; rfl)⟩
  idle th t comparing t' comparing' th' hpc hpc' hmakes := by
    obtain ⟨rfl, _, hreturned, call, htodo, hrefused⟩ := refused_of_makes hpc hpc' hmakes
    right
    refine ⟨call, [], ?_, .refused call hrefused, ?_⟩
    · show th.pc.pending ++ th.todo = call :: (th'.pc.pending ++ th'.todo)
      rw [hpc, hpc', htodo]
      rfl
    · show th'.returned = th.returned ++ []
      rw [hreturned, List.append_nil]

end Refinement

section Interleavings

variable {ι : Type*} [Fintype ι] [DecidableEq ι]

section Safety

variable [LinearOrder D] [Zero D] [Add D] [Sub D] {b : Binding Obj D} {t : SharedTree Obj D}
  {calls : ι → List (BindingCall Obj D)}
  {s : System ι (SharedTree Obj D) (Option Obj) (BindingThread Obj D)}

/-- Threads that share a sane tree and never call `add`, with fewer than 2^64 objects in
all. No build leaves a list in its scans while they take turns. -/
structure Sharing (b : Binding Obj D) (t : SharedTree Obj D) (calls : ι → List (BindingCall Obj D)) :
    Prop where
  fits : b.Fits
  bounded : ∀ x y, b.distFn x y < b.DIST_MAX
  sane : t.Sane b
  unpushed : ∀ i, ∀ call ∈ calls i, ¬ call.Pushes
  small : t.datapoints.length+
    Multiset.card (∑ i, ((calls i).map BindingCall.additions).sum) < sizeT
  inside : ∀ s, ReachesInTurns b.program (fun th => th.pc = .ready) (launch t calls) s →
    s.guarded.BuildsInside b

theorem Sharing.assumed (w : Sharing b t calls)
    (h : ReachesInTurns b.program (fun th => th.pc = .ready) (launch t calls) s) :
    s.guarded.datapoints.length < sizeT ∧ s.guarded.BuildsInside b :=
  ⟨lt_of_le_of_lt (array_length_le w.unpushed (reaches_of_inTurns h)) w.small, w.inside s h⟩

theorem Sharing.start (w : Sharing b t calls) :
    InTurn (fun th => th.pc = .ready) BindingThread.PushFree
      (fun th t comparing => th.pc.Owns b t comparing) (launch t calls) :=
  ⟨fun _ _ _ => Or.inl rfl, fun i => ⟨w.unpushed i, id⟩, fun _ _ => w.sane⟩

theorem Sharing.inTurn (w : Sharing b t calls)
    (h : ReachesInTurns b.program (fun th => th.pc = .ready) (launch t calls) s) :
    InTurn (fun th => th.pc = .ready) BindingThread.PushFree
      (fun th t comparing => th.pc.Owns b t comparing) s :=
  inTurn_reaches (program_turns w.fits w.bounded) w.start (fun _ hs' => w.assumed hs') h

def Pc.isReady : Pc Guest ℤ → Bool
  | .ready => true
  | _ => false

theorem eq_ready {pc : Pc Guest ℤ} (h : pc.isReady = true) : pc = .ready := by
  unfold Pc.isReady at h
  split at h
  · rfl
  · cases h

theorem crossing_unpushed (i : Fin 2) : ∀ call ∈ crossing i, ¬ call.Pushes := by
  intro call hcall
  match i with
  | 0 =>
    rw [List.mem_singleton.mp hcall]
    exact id
  | 1 =>
    rw [List.mem_singleton.mp hcall]
    exact id

theorem crossing_sharing : Sharing guestBinding guestTree crossing where
  fits := ⟨coupleDist_comm, coupleDist_le, by decide⟩
  bounded x y := lt_of_le_of_lt (coupleDist_le x y) (by decide)
  sane := guestTree_sane
  unpushed := crossing_unpushed
  small := by decide
  inside _ h := guests_inside crossing_unpushed (by decide) (reaches_of_inTurns h)

/-- The guest has found the nearest one before the tree is rebuilt. -/
theorem crossing_inTurns :
    ∃ s, (launch guestTree crossing).run guestBinding.program
        (List.replicate 13 0 ++ List.replicate 4 1) = .ok s ∧ (∀ i, (s.thread i).pc = .ready) ∧
      ReachesInTurns guestBinding.program (fun th => th.pc = .ready) (launch guestTree crossing) s := by
  obtain ⟨s₁, hrun₁, hready₁⟩ := exists_of_run guestBinding.program (launch guestTree crossing)
    (List.replicate 13 0) (fun s => (s.thread 0).pc.isReady) (by decide +kernel)
  obtain ⟨s, hrun, hready⟩ := exists_of_run guestBinding.program (launch guestTree crossing)
    (List.replicate 13 0 ++ List.replicate 4 1)
    (fun s => (s.thread 0).pc.isReady && (s.thread 1).pc.isReady) (by decide +kernel)
  obtain ⟨hready0, hready1⟩ := Bool.and_eq_true_iff.mp hready
  have hrest := hrun
  rw [run_append hrun₁] at hrest
  refine ⟨s, hrun, fun i => ?_, ?_⟩
  · match i with
    | 0 => exact eq_ready hready0
    | 1 => exact eq_ready hready1
  · refine (inTurns_of_run (fun _ _ => rfl) hrun₁).trans (inTurns_of_run (fun j hj => ?_) hrest)
    match j with
    | 0 => exact eq_ready hready₁
    | 1 => exact absurd rfl hj

end Safety

variable [AddCommGroup D] [LinearOrder D] [IsOrderedAddMonoid D]

end Interleavings

end VantagePoint
