import VantagePoint.BindingThreads
import VantagePoint.Couples

/-! What the lock of the binding gives to any calls, in any interleaving: a method
that changes the tree is alone. A search that finds nothing returns with its hold, and
then no tree is ever rebuilt again. -/
namespace VantagePoint
open WhileLoop RwLock GuardedThreads

variable {Obj D : Type}

/-- The call asks for the lock first, and goes on at `pc` with it. -/
inductive Asks : BindingCall Obj D → Mode → Pc Obj D → Prop where
  | rebuild : Asks .rebuild .write (.tearing none)
  | addRebuild (datapoints : JavaArray Obj) (n : ℕ) (h : validateArray datapoints = .ok n) :
    Asks (.addRebuild datapoints) .write (.appending datapoints)
  | allWithin (max_dist : D) (q : Obj) :
    Asks (.query (.allWithin max_dist) q) .read (.posting (.allWithin max_dist) q)
  | size : Asks .size .read .sizing
  | add (datapoint : Option Obj) : Asks (.add datapoint) .read (.adding datapoint)

/-- The call sets the query point first, without the lock, and goes on at `pc`. -/
inductive Posts : BindingCall Obj D → Obj → Pc Obj D → Prop where
  | nn (q : Obj) : Posts (.query .nn q) q (.locking .nn q)
  | knn (k : ℕ) (q : Obj) (h : 1 ≤ k) : Posts (.query (.knn k) q) q (.locking (.knn k) q)

/-- The call throws, and does nothing. -/
inductive Refused : BindingCall Obj D → Prop where
  | addRebuild (datapoints : JavaArray Obj) (e : Thrown) (h : validateArray datapoints = .error e) :
    Refused (.addRebuild datapoints)
  | knn (k : ℕ) (q : Obj) (h : k < 1) : Refused (.query (.knn k) q)

/-- How a method goes on. -/
inductive Pc.Next : Pc Obj D → Pc Obj D → Prop where
  | lock (r : Request D) (q : Obj) : Next (.locking r q) (.starting r q)
  | post (r : Request D) (q : Obj) : Next (.posting r q) (.starting r q)
  | start (r : Request D) (q : Obj) (scan : Scan Obj D r.Acc) :
    Next (.starting r q) (.searching r q scan)
  | search (r : Request D) (q : Obj) (scan scan' : Scan Obj D r.Acc) :
    Next (.searching r q scan) (.searching r q scan')
  | stop (r : Request D) (q : Obj) (scan : Scan Obj D r.Acc) (acc : r.Acc) :
    Next (.searching r q scan) (.found r q acc scan.seen)
  | leave (r : Request D) (q : Obj) (acc : r.Acc) (seen : List (Option Obj)) (pc : Pc Obj D)
    (h : pc = .ready ∨ pc = .releasing .read) : Next (.found r q acc seen) pc
  | size : Next .sizing (.releasing .read)
  | push (datapoint : Option Obj) (datapoints : JavaArray Obj) :
    Next (.adding datapoint) (.storing datapoints)
  | store (datapoints : JavaArray Obj) : Next (.storing datapoints) (.releasing .read)
  | append (datapoints : JavaArray Obj) (added : Option ℕ) :
    Next (.appending datapoints) (.tearing added)
  | tear (added : Option ℕ) (block : ℕ) (data : List ℤ) :
    Next (.tearing added) (.building block data)
  | build (block : ℕ) (data : List ℤ) : Next (.building block data) (.releasing .write)
  | release (mode : Mode) : Next (.releasing mode) .ready

section Inversion

variable {th th' : BindingThread Obj D}

/-- Everything that entering a method can be. -/
theorem enter_cases (th : BindingThread Obj D) (call : BindingCall Obj D) :
    (∃ mode pc, th.enter call = .acquire mode (th.goto pc) ∧ Asks call mode pc) ∨
    (∃ q pc, th.enter call = .post (fun _ => some q) (th.goto pc) ∧ Posts call q pc) ∨
    (th.enter call = .read fun _ _ => .ok (th.goto .ready)) ∧ Refused call := by
  cases call with
  | rebuild => exact Or.inl ⟨.write, .tearing none, rfl, .rebuild⟩
  | addRebuild datapoints =>
    cases hv : validateArray datapoints with
    | error e =>
      right; right
      refine ⟨?_, .addRebuild datapoints e hv⟩
      simp only [BindingThread.enter, hv]
    | ok n =>
      left
      refine ⟨.write, .appending datapoints, ?_, .addRebuild datapoints n hv⟩
      simp only [BindingThread.enter, hv]
  | query r q =>
    cases r with
    | nn => exact Or.inr (Or.inl ⟨q, .locking .nn q, rfl, .nn q⟩)
    | knn k =>
      by_cases hk : k < 1
      · right; right
        refine ⟨?_, .knn k q hk⟩
        simp only [BindingThread.enter, hk, ↓reduceIte]
      · right; left
        refine ⟨q, .locking (.knn k) q, ?_, .knn k q (not_lt.mp hk)⟩
        simp only [BindingThread.enter, hk, ↓reduceIte]
    | allWithin max_dist =>
      exact Or.inl ⟨.read, .posting (.allWithin max_dist) q, rfl, .allWithin max_dist q⟩
  | size => exact Or.inl ⟨.read, .sizing, rfl, .size⟩
  | add datapoint => exact Or.inl ⟨.read, .adding datapoint, rfl, .add datapoint⟩

variable [LinearOrder D] [Zero D] [Add D] [Sub D] (b : Binding Obj D)

theorem program_acquire {mode : Mode} (h : b.program th = .acquire mode th') :
    (∃ call todo pc, th.pc = .ready ∧ th.todo = call :: todo ∧ Asks call mode pc ∧
      th' = { th with todo := todo, pc := pc }) ∨
    ∃ r q, th.pc = .locking r q ∧ r.locked = true ∧ mode = .read ∧
      th' = th.goto (.starting r q) := by
  obtain ⟨todo, leaked, returned, pc⟩ := th
  cases pc with
  | ready =>
    cases todo with
    | nil => cases h
    | cons call todo =>
      rcases enter_cases ⟨todo, leaked, returned, .ready⟩ call with ⟨mode', pc, he, hasks⟩ |
        ⟨q, pc, he, _⟩ | ⟨he, _⟩
      · obtain ⟨rfl, rfl⟩ := Action.acquire.inj (he.symm.trans h)
        exact Or.inl ⟨call, todo, pc, rfl, rfl, hasks, rfl⟩
      · cases he.symm.trans h
      · cases he.symm.trans h
  | locking r q =>
    by_cases hr : r.locked = true
    · simp only [Binding.program, hr, ↓reduceIte, Action.acquire.injEq] at h
      obtain ⟨rfl, rfl⟩ := h
      exact Or.inr ⟨r, q, rfl, hr, rfl, rfl⟩
    · simp [Binding.program, hr] at h
  | _ => cases h

theorem program_idle (h : b.program th = .idle) : th.pc = .ready ∧ th.todo = [] := by
  obtain ⟨todo, leaked, returned, pc⟩ := th
  cases pc with
  | ready =>
    cases todo with
    | nil => exact ⟨rfl, rfl⟩
    | cons call todo =>
      rcases enter_cases ⟨todo, leaked, returned, .ready⟩ call with ⟨mode, pc, he, _⟩ |
        ⟨q, pc, he, _⟩ | ⟨he, _⟩
      · cases he.symm.trans h
      · cases he.symm.trans h
      · cases he.symm.trans h
  | locking r q =>
    by_cases hr : r.locked = true
    · simp [Binding.program, hr] at h
    · simp [Binding.program, hr] at h
  | _ => cases h

theorem program_release {mode : Mode} (h : b.program th = .release mode th') :
    th.pc = .releasing mode ∧ th' = th.goto .ready := by
  obtain ⟨todo, leaked, returned, pc⟩ := th
  cases pc with
  | ready =>
    cases todo with
    | nil => cases h
    | cons call todo =>
      rcases enter_cases ⟨todo, leaked, returned, .ready⟩ call with ⟨mode', pc, he, _⟩ |
        ⟨q, pc, he, _⟩ | ⟨he, _⟩
      · cases he.symm.trans h
      · cases he.symm.trans h
      · cases he.symm.trans h
  | locking r q =>
    by_cases hr : r.locked = true
    · simp [Binding.program, hr] at h
    · simp [Binding.program, hr] at h
  | releasing mode =>
    cases h
    exact ⟨rfl, rfl⟩
  | _ => cases h

theorem program_post {set : Option Obj → Option Obj} (h : b.program th = .post set th') :
    ∃ q, set = (fun _ => some q) ∧
      ((∃ call todo pc, th.pc = .ready ∧ th.todo = call :: todo ∧ Posts call q pc ∧
        th' = { th with todo := todo, pc := pc }) ∨
      ∃ r, th.pc = .posting r q ∧ th' = th.goto (.starting r q)) := by
  obtain ⟨todo, leaked, returned, pc⟩ := th
  cases pc with
  | ready =>
    cases todo with
    | nil => cases h
    | cons call todo =>
      rcases enter_cases ⟨todo, leaked, returned, .ready⟩ call with ⟨mode', pc, he, _⟩ |
        ⟨q, pc, he, hposts⟩ | ⟨he, _⟩
      · cases he.symm.trans h
      · obtain ⟨rfl, rfl⟩ := Action.post.inj (he.symm.trans h)
        exact ⟨q, rfl, Or.inl ⟨call, todo, pc, rfl, rfl, hposts, rfl⟩⟩
      · cases he.symm.trans h
  | locking r q =>
    by_cases hr : r.locked = true
    · simp [Binding.program, hr] at h
    · simp [Binding.program, hr] at h
  | posting r q =>
    cases h
    exact ⟨q, rfl, Or.inr ⟨r, rfl, rfl⟩⟩
  | _ => cases h

/-- The steps that only read. -/
theorem program_read {look : SharedTree Obj D → Option Obj → Except BindingFault (BindingThread Obj D)}
    (h : b.program th = .read look) :
    (∃ call todo, th.pc = .ready ∧ th.todo = call :: todo ∧ Refused call ∧
      look = fun _ _ => .ok { th with todo := todo }) ∨
    (∃ r q, th.pc = .locking r q ∧ r.locked = false ∧
      look = fun _ _ => .ok (th.goto (.starting r q))) ∨
    (∃ r q, th.pc = .starting r q ∧
      look = fun t _ => .ok (th.goto (.searching r q (b.startScan r t.vpt.root)))) ∨
    (∃ r q scan, th.pc = .searching r q scan ∧ look = fun t comparing =>
      (scan.step b r t comparing).map fun
      | .inl scan => th.goto (.searching r q scan)
      | .inr acc => th.goto (.found r q acc scan.seen)) ∨
    (∃ r q acc seen, th.pc = .found r q acc seen ∧ look = fun t _ =>
      if r.locked ∧ (r.results acc).isEmpty then
        .ok { th with leaked := th.leaked+1, returned := th.returned ++ [.null], pc := .ready }
      else
        ((r.results acc).mapM (newEntryAt t.datapoints)).map fun entries =>
          { th with returned := th.returned ++ [r.value entries]
                    pc := if r.locked then .releasing .read else .ready }) ∨
    (th.pc = .sizing ∧ look = fun t _ =>
      .ok { th with returned := th.returned ++ [.int ((t.vpt.size : ℤ).bmod (2^32))]
                    pc := .releasing .read }) ∨
    ∃ datapoint, th.pc = .adding datapoint ∧
      look = fun t _ => .ok (th.goto (.storing (t.datapoints ++ [datapoint]))) := by
  obtain ⟨todo, leaked, returned, pc⟩ := th
  cases pc with
  | ready =>
    cases todo with
    | nil => cases h
    | cons call todo =>
      rcases enter_cases ⟨todo, leaked, returned, .ready⟩ call with ⟨mode', pc, he, _⟩ |
        ⟨q, pc, he, _⟩ | ⟨he, hrefused⟩
      · cases he.symm.trans h
      · cases he.symm.trans h
      · exact Or.inl ⟨call, todo, rfl, rfl, hrefused, (Action.read.inj (he.symm.trans h)).symm⟩
  | locking r q =>
    right; left
    by_cases hr : r.locked = true
    · simp [Binding.program, hr] at h
    · simp only [Binding.program, hr, Bool.false_eq_true, ↓reduceIte, Action.read.injEq] at h
      exact ⟨r, q, rfl, by simpa using hr, h.symm⟩
  | starting r q =>
    right; right; left
    exact ⟨r, q, rfl, (Action.read.inj h).symm⟩
  | searching r q scan =>
    right; right; right; left
    exact ⟨r, q, scan, rfl, (Action.read.inj h).symm⟩
  | found r q acc seen =>
    right; right; right; right; left
    exact ⟨r, q, acc, seen, rfl, (Action.read.inj h).symm⟩
  | sizing =>
    right; right; right; right; right; left
    exact ⟨rfl, (Action.read.inj h).symm⟩
  | adding datapoint =>
    right; right; right; right; right; right
    exact ⟨datapoint, rfl, (Action.read.inj h).symm⟩
  | _ => cases h

/-- The steps that change the tree or the array. -/
theorem program_write {change : SharedTree Obj D → Except BindingFault (SharedTree Obj D × BindingThread Obj D)}
    (h : b.program th = .write change) :
    (∃ datapoints, th.pc = .storing datapoints ∧ change = fun t =>
      .ok ({ t with datapoints := datapoints }, th.goto (.releasing .read))) ∨
    (∃ datapoints, th.pc = .appending datapoints ∧ change = fun t =>
      .ok ({ t with datapoints := t.datapoints ++ datapoints },
        th.goto (.tearing (some datapoints.length)))) ∨
    (∃ added, th.pc = .tearing added ∧ change = fun t =>
      (((lifeOpOf t.vpt.size added).call (b.env t.datapoints) t.vpt).mapError .tree).map fun call =>
        ({ t with vpt := { t.vpt with arena := call.arena } },
          th.goto (.building call.block call.data))) ∨
    ∃ block data, th.pc = .building block data ∧ change = fun t =>
      if data.all fun i => (element t.datapoints i).isSome then
        ((BuildCall.finish (b.env t.datapoints) ⟨block, t.vpt.arena, data⟩).mapError .tree).map
          fun vpt => ({ t with vpt := vpt }, th.goto (.releasing .write))
      else .error .exits := by
  obtain ⟨todo, leaked, returned, pc⟩ := th
  cases pc with
  | ready =>
    cases todo with
    | nil => cases h
    | cons call todo =>
      rcases enter_cases ⟨todo, leaked, returned, .ready⟩ call with ⟨mode', pc, he, _⟩ |
        ⟨q, pc, he, _⟩ | ⟨he, _⟩
      · cases he.symm.trans h
      · cases he.symm.trans h
      · cases he.symm.trans h
  | locking r q =>
    by_cases hr : r.locked = true
    · simp [Binding.program, hr] at h
    · simp [Binding.program, hr] at h
  | storing datapoints => exact Or.inl ⟨datapoints, rfl, (Action.write.inj h).symm⟩
  | appending datapoints => exact Or.inr (Or.inl ⟨datapoints, rfl, (Action.write.inj h).symm⟩)
  | tearing added => exact Or.inr (Or.inr (Or.inl ⟨added, rfl, (Action.write.inj h).symm⟩))
  | building block data =>
    exact Or.inr (Or.inr (Or.inr ⟨block, data, rfl, (Action.write.inj h).symm⟩))
  | _ => cases h

/-- Where a step of a thread leads: into the next call, or on in its method. A hold is
leaked where a search has found nothing, and none is ever given back. -/
theorem leads_cases (h : (b.program th).Leads th') :
    (∃ call todo, th.pc = .ready ∧ th.todo = call :: todo ∧ th'.todo = todo ∧
      th'.leaked = th.leaked ∧ ((∃ mode, Asks call mode th'.pc) ∨ (∃ q, Posts call q th'.pc) ∨
        (Refused call ∧ th'.pc = .ready))) ∨
    (th'.todo = th.todo ∧ th.pc.Next th'.pc ∧ (th'.leaked = th.leaked ∨
      th'.leaked = th.leaked+1 ∧ ∃ r q acc seen, th.pc = .found r q acc seen ∧
        (r.results acc).isEmpty = true)) := by
  generalize hact : b.program th = act at h
  cases h with
  | acquire mode k =>
    rcases program_acquire b hact with ⟨call, todo, pc, hpc, htodo, hasks, rfl⟩ |
      ⟨r, q, hpc, _, _, rfl⟩
    · exact Or.inl ⟨call, todo, hpc, htodo, rfl, rfl, Or.inl ⟨mode, hasks⟩⟩
    · exact Or.inr ⟨rfl, hpc ▸ .lock r q, Or.inl rfl⟩
  | release mode k =>
    obtain ⟨hpc, rfl⟩ := program_release b hact
    exact Or.inr ⟨rfl, hpc ▸ .release mode, Or.inl rfl⟩
  | read look t u k hk =>
    rcases program_read b hact with ⟨call, todo, hpc, htodo, hrefused, rfl⟩ |
      ⟨r, q, hpc, _, rfl⟩ | ⟨r, q, hpc, rfl⟩ | ⟨r, q, scan, hpc, rfl⟩ |
      ⟨r, q, acc, seen, hpc, rfl⟩ | ⟨hpc, rfl⟩ | ⟨datapoint, hpc, rfl⟩
    · cases hk
      exact Or.inl ⟨call, todo, hpc, htodo, rfl, rfl, Or.inr (Or.inr ⟨hrefused, hpc⟩)⟩
    · cases hk
      exact Or.inr ⟨rfl, hpc ▸ .lock r q, Or.inl rfl⟩
    · cases hk
      exact Or.inr ⟨rfl, hpc ▸ .start r q _, Or.inl rfl⟩
    · obtain ⟨next, _, rfl⟩ := (except_map_eq_ok _ _ _).mp hk
      right
      cases next with
      | inl scan' => exact ⟨rfl, hpc ▸ .search r q scan scan', Or.inl rfl⟩
      | inr acc => exact ⟨rfl, hpc ▸ .stop r q scan acc, Or.inl rfl⟩
    · dsimp only at hk
      right
      by_cases hnone : r.locked = true ∧ (r.results acc).isEmpty = true
      · rw [if_pos hnone] at hk
        cases hk
        exact ⟨rfl, hpc ▸ .leave r q acc seen _ (Or.inl rfl),
          Or.inr ⟨rfl, r, q, acc, seen, hpc, hnone.2⟩⟩
      · rw [if_neg hnone] at hk
        obtain ⟨entries, _, rfl⟩ := (except_map_eq_ok _ _ _).mp hk
        refine ⟨rfl, hpc ▸ .leave r q acc seen _ ?_, Or.inl rfl⟩
        by_cases hr : r.locked = true
        · exact Or.inr (if_pos hr)
        · exact Or.inl (if_neg hr)
    · cases hk
      exact Or.inr ⟨rfl, hpc ▸ .size, Or.inl rfl⟩
    · cases hk
      exact Or.inr ⟨rfl, hpc ▸ .push datapoint _, Or.inl rfl⟩
  | write change t t' k hk =>
    right
    rcases program_write b hact with ⟨datapoints, hpc, rfl⟩ | ⟨datapoints, hpc, rfl⟩ |
      ⟨added, hpc, rfl⟩ | ⟨block, data, hpc, rfl⟩
    · cases hk
      exact ⟨rfl, hpc ▸ .store datapoints, Or.inl rfl⟩
    · cases hk
      exact ⟨rfl, hpc ▸ .append datapoints _, Or.inl rfl⟩
    · obtain ⟨call, _, hcall⟩ := (except_map_eq_ok _ _ _).mp hk
      cases hcall
      exact ⟨rfl, hpc ▸ .tear added call.block call.data, Or.inl rfl⟩
    · dsimp only at hk
      split at hk
      · obtain ⟨vpt, _, hvpt⟩ := (except_map_eq_ok _ _ _).mp hk
        cases hvpt
        exact ⟨rfl, hpc ▸ .build block data, Or.inl rfl⟩
      · cases hk
  | post set k =>
    obtain ⟨q, _, ⟨call, todo, pc, hpc, htodo, hposts, rfl⟩ | ⟨r, hpc, rfl⟩⟩ :=
      program_post b hact
    · exact Or.inl ⟨call, todo, hpc, htodo, rfl, rfl, Or.inr (Or.inl ⟨q, hposts⟩)⟩
    · exact Or.inr ⟨rfl, hpc ▸ .post r q, Or.inl rfl⟩

theorem leaked_le_of_leads (h : (b.program th).Leads th') : th.leaked ≤ th'.leaked := by
  rcases leads_cases b h with ⟨call, todo, _, _, _, hleaked, _⟩ | ⟨_, _, hleaked | ⟨hleaked, _⟩⟩
  · exact hleaked.ge
  · exact hleaked.ge
  · exact hleaked ▸ Nat.le_succ _

end Inversion

section Shares

variable {th th' : BindingThread Obj D}

theorem Asks.share {call : BindingCall Obj D} {mode : Mode} {pc : Pc Obj D}
    (h : Asks call mode pc) : pc.share = hold .free mode := by
  cases h with
  | rebuild => rfl
  | addRebuild datapoints n h => rfl
  | allWithin max_dist q => rfl
  | size => rfl
  | add datapoint => rfl

theorem Posts.share {call : BindingCall Obj D} {q : Obj} {pc : Pc Obj D}
    (h : Posts call q pc) : pc.share = .free := by
  cases h with
  | nn q => rfl
  | knn k q h => rfl

theorem share_hold (leaked : ℕ) (mode : Mode) :
    (⟨leaked+(hold .free mode).readers, (hold .free mode).writer⟩ : Lock) =
      hold ⟨leaked+Lock.free.readers, Lock.free.writer⟩ mode := by
  cases mode with
  | read => rfl
  | write => rfl

variable [LinearOrder D] [Zero D] [Add D] [Sub D] (b : Binding Obj D)

/-- Between asking for the lock and giving it back a method holds the same, and a
search that finds nothing takes its hold along when it returns. -/
theorem share_of_leads (h : (b.program th).Leads th')
    (hacquire : ∀ mode, b.program th ≠ .acquire mode th')
    (hrelease : ∀ mode, b.program th ≠ .release mode th') : th'.share = th.share := by
  generalize hact : b.program th = act at h
  cases h with
  | acquire mode k => exact absurd hact (hacquire mode)
  | release mode k => exact absurd hact (hrelease mode)
  | read look t u k hk =>
    rcases program_read b hact with ⟨call, todo, hpc, _, _, rfl⟩ | ⟨r, q, hpc, hr, rfl⟩ |
      ⟨r, q, hpc, rfl⟩ | ⟨r, q, scan, hpc, rfl⟩ | ⟨r, q, acc, seen, hpc, rfl⟩ | ⟨hpc, rfl⟩ |
      ⟨datapoint, hpc, rfl⟩
    · cases hk
      rfl
    · cases hk
      simp [BindingThread.share, BindingThread.goto, Pc.share, hpc, hr, Lock.free]
    · cases hk
      simp [BindingThread.share, BindingThread.goto, Pc.share, hpc]
    · obtain ⟨next, _, rfl⟩ := (except_map_eq_ok _ _ _).mp hk
      cases next with
      | inl scan' => simp [BindingThread.share, BindingThread.goto, Pc.share, hpc]
      | inr acc => simp [BindingThread.share, BindingThread.goto, Pc.share, hpc]
    · dsimp only at hk
      by_cases hnone : r.locked = true ∧ (r.results acc).isEmpty = true
      · rw [if_pos hnone] at hk
        cases hk
        simp [BindingThread.share, Pc.share, hpc, hnone.1, Lock.free]
      · rw [if_neg hnone] at hk
        obtain ⟨entries, _, rfl⟩ := (except_map_eq_ok _ _ _).mp hk
        by_cases hr : r.locked = true
        · simp [BindingThread.share, Pc.share, hpc, hr]
        · simp [BindingThread.share, Pc.share, hpc, hr]
    · cases hk
      simp [BindingThread.share, Pc.share, hpc]
    · cases hk
      simp [BindingThread.share, BindingThread.goto, Pc.share, hpc]
  | write change t t' k hk =>
    rcases program_write b hact with ⟨stored, hpc, rfl⟩ | ⟨datapoints, hpc, rfl⟩ |
      ⟨added, hpc, rfl⟩ | ⟨block, data, hpc, rfl⟩
    · cases hk
      simp [BindingThread.share, BindingThread.goto, Pc.share, hpc]
    · cases hk
      simp [BindingThread.share, BindingThread.goto, Pc.share, hpc]
    · obtain ⟨call, _, hcall⟩ := (except_map_eq_ok _ _ _).mp hk
      cases hcall
      simp [BindingThread.share, BindingThread.goto, Pc.share, hpc]
    · dsimp only at hk
      split at hk
      · obtain ⟨vpt, _, hvpt⟩ := (except_map_eq_ok _ _ _).mp hk
        cases hvpt
        simp [BindingThread.share, BindingThread.goto, Pc.share, hpc]
      · cases hk
  | post set k =>
    obtain ⟨q, _, ⟨call, todo, pc, hpc, _, hposts, rfl⟩ | ⟨r, hpc, rfl⟩⟩ := program_post b hact
    · rw [BindingThread.share, BindingThread.share, hposts.share, hpc]
      rfl
    · simp [BindingThread.share, BindingThread.goto, Pc.share, hpc]

/-- The methods give back what they ask for, except for what they leak. -/
theorem program_disciplined : Disciplined b.program BindingThread.share where
  acquire th mode th' h := by
    rcases program_acquire b h with ⟨call, todo, pc, hpc, _, hasks, rfl⟩ | ⟨r, q, hpc, hr, rfl, rfl⟩
    · rw [BindingThread.share, BindingThread.share, hasks.share, hpc]
      exact share_hold th.leaked mode
    · simp [BindingThread.share, BindingThread.goto, Pc.share, hpc, hr, hold, Lock.free]
  release th mode th' h := by
    obtain ⟨hpc, rfl⟩ := program_release b h
    cases mode with
    | read => simp [BindingThread.share, BindingThread.goto, Pc.share, hpc, Lock.release, Lock.free]
    | write => simp [BindingThread.share, BindingThread.goto, Pc.share, hpc, Lock.release, Lock.free]
  other _ _ h hacquire hrelease := share_of_leads b h hacquire hrelease

end Shares

section Interleavings

variable {ι : Type*} [Fintype ι] [DecidableEq ι] [LinearOrder D] [Zero D] [Add D] [Sub D]
  {b : Binding Obj D} {t : SharedTree Obj D} {calls : ι → List (BindingCall Obj D)}
  {s s' : System ι (SharedTree Obj D) (Option Obj) (BindingThread Obj D)} {i j : ι}

omit [DecidableEq ι] [LinearOrder D] [Zero D] [Add D] [Sub D] in
theorem consistent_launch : Consistent BindingThread.share (launch t calls) where
  readers := by simp [launch, BindingThread.share, Pc.share, Lock.free]
  writer := by simp [launch, BindingThread.share, Pc.share, Lock.free]
  unique i j h := by cases h
  alone h := by cases h

theorem consistent_of_launch (h : Reaches b.program (launch t calls) s) :
    Consistent BindingThread.share s :=
  consistent_reaches (program_disciplined b) consistent_launch h

/-- A tree of three couples. -/
def guestBinding : Binding Guest ℤ := ⟨coupleDist, 7, ⟨0, 6⟩⟩

def guestTree : SharedTree Guest ℤ where
  vpt :=
    match vptBuild (guestBinding.env ((couples 3).map some)) .empty ((List.range 6).map Nat.cast) with
    | .ok t => t
    | .error _ => ⟨⟨0, 0⟩, 0, .empty⟩
  datapoints := (couples 3).map some

/-- One thread searches and rebuilds, one adds a couple, and one looks for points that
are nowhere near. -/
def guestCalls : Fin 3 → List (BindingCall Guest ℤ)
  | 0 => [.query (.knn 2) (some (1, true)), .rebuild]
  | 1 => [.addRebuild ((couples 4).drop 6 |>.map some), .size]
  | 2 => [.query (.allWithin 1) none, .rebuild]

omit [Fintype ι] [DecidableEq ι] in
/-- Without the write hold a method changes the array at most. -/
theorem vpt_of_write {th th' : BindingThread Obj D} {t' : SharedTree Obj D}
    {change : SharedTree Obj D → Except BindingFault (SharedTree Obj D × BindingThread Obj D)}
    (hact : b.program th = .write change) (hw : th.share.writer = false)
    (hk : change t = .ok (t', th')) : t'.vpt = t.vpt := by
  rcases program_write b hact with ⟨stored, _, rfl⟩ | ⟨datapoints, hpc, rfl⟩ |
    ⟨added, hpc, rfl⟩ | ⟨block, data, hpc, rfl⟩
  · cases hk
    rfl
  · simp [BindingThread.share, hpc, Pc.share] at hw
  · simp [BindingThread.share, hpc, Pc.share] at hw
  · simp [BindingThread.share, hpc, Pc.share] at hw

/-- A search that finds nothing ends the tree's changes. Once a call has returned with
its read hold, then whatever the threads do from there on the C tree stays as it is,
and a call that would rebuild it waits. -/
theorem leaked_blocks (b : Binding Obj D) (t : SharedTree Obj D)
    (calls : ι → List (BindingCall Obj D))
    (s s' : System ι (SharedTree Obj D) (Option Obj) (BindingThread Obj D)) (i : ι)
    (h : Reaches b.program (launch t calls) s) (hi : (s.thread i).leaked ≠ 0)
    (h' : Reaches b.program s s') :
    s'.guarded.vpt = s.guarded.vpt ∧
      ∀ j call todo pc, (s'.thread j).pc = .ready → (s'.thread j).todo = call :: todo →
        Asks call .write pc → s'.step b.program j = .error .waits := by
  have hs := consistent_of_launch h
  obtain ⟨hi', hvpt, _⟩ := view_of_parked SharedTree.vpt (P := fun th => th.leaked ≠ 0)
    (program_disciplined b) (fun _ _ _ _ _ hact hw hk => vpt_of_write hact hw hk)
    (fun th hth h0 => hth (by simp only [BindingThread.share] at h0; omega))
    (fun th th' hth hleads => by have hle := leaked_le_of_leads b hleads; omega) hs hi h'
  refine ⟨hvpt, ?_⟩
  intro j call todo pc hpc htodo hasks
  have hs' := consistent_reaches (program_disciplined b) hs h'
  have hreaders : s'.lock.readers ≠ 0 := by
    have hle := hs'.readers_le i
    simp only [BindingThread.share] at hle
    omega
  -- The call asks for the write lock, and there is a reader.
  have hact : ∃ th', b.program (s'.thread j) = .acquire .write th' := by
    generalize s'.thread j = th at hpc htodo
    obtain ⟨todo', leaked, returned, pc'⟩ := th
    obtain rfl : pc' = .ready := hpc
    obtain rfl : todo' = call :: todo := htodo
    cases hasks with
    | rebuild => exact ⟨_, rfl⟩
    | addRebuild datapoints n hv =>
      refine ⟨BindingThread.goto ⟨todo, leaked, returned, .ready⟩ (.appending datapoints), ?_⟩
      simp only [Binding.program, BindingThread.enter, hv]
  obtain ⟨th', hact⟩ := hact
  simp [System.step, hact, Lock.acquire, hreaders]

/-- The third thread finds nobody, and the couple is never added. -/
theorem leaked_blocks_guests :
    ∃ s, (launch guestTree guestCalls).run guestBinding.program (List.replicate 13 2) = .ok s ∧
      (s.thread 2).leaked ≠ 0 ∧ s.step guestBinding.program 1 = .error .waits := by
  obtain ⟨s, hrun, hw⟩ := exists_of_run guestBinding.program (launch guestTree guestCalls)
    (List.replicate 13 2) (fun s => (s.thread 2).leaked ≠ 0) (by decide +kernel)
  have hleaked : (s.thread 2).leaked ≠ 0 := by simpa using hw
  have hfirst : s.thread 1 = (launch guestTree guestCalls).thread 1 :=
    thread_of_run hrun (by decide)
  have hadd : validateArray (((couples 4).drop 6).map some) = .ok 2 := by decide
  refine ⟨s, hrun, hleaked, ?_⟩
  apply (leaked_blocks guestBinding guestTree guestCalls s s 2 (reaches_of_run hrun) hleaked
    Relation.ReflTransGen.refl).2 1 _ [.size] _ (by rw [hfirst]; rfl) (by rw [hfirst]; rfl)
  exact .addRebuild _ 2 hadd

theorem progress_of_unleaked (h : Consistent BindingThread.share s)
    (hleaked : ∀ j, (s.thread j).leaked = 0)
    (hmore : (s.thread i).pc ≠ .ready ∨ (s.thread i).todo ≠ []) :
    ∃ j, s.step b.program j ≠ .error .waits ∧ s.step b.program j ≠ .error .finished := by
  -- A thread holds something only inside a method, and there it does not ask again.
  have hfree (th : BindingThread Obj D) (hth : th.leaked = 0) (hpc : th.pc.share = .free) :
      th.share = .free := by
    simp [BindingThread.share, hth, hpc, Lock.free]
  apply h.progress (i := i)
  · intro j hj
    constructor
    · intro hidle
      apply hj (hfree _ (hleaked j) _)
      rw [(program_idle b hidle).1]
      rfl
    · intro mode th' hacquire
      apply hj (hfree _ (hleaked j) _)
      rcases program_acquire b hacquire with ⟨call, todo, pc, hpc, _⟩ | ⟨r, q, hpc, _⟩
      · rw [hpc]
        rfl
      · rw [hpc]
        rfl
  · intro hidle
    obtain ⟨hpc, htodo⟩ := program_idle b hidle
    rcases hmore with hmore | hmore
    · exact hmore hpc
    · exact hmore htodo

end Interleavings

end VantagePoint
