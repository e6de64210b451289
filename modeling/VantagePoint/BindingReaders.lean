import VantagePoint.BindingAnswers
import VantagePoint.GuardedReaders

/-! Threads that only ask. Without a writer the missing lock of `nn` does no harm: in any
interleaving the searches find the tree as it was, and `nn` returns an object. -/
namespace VantagePoint
open WhileLoop GroupMetric RwLock GuardedThreads

variable {Obj D : Type}

/-- The call changes nothing. -/
def BindingCall.Queries : BindingCall Obj D → Prop
  | .query _ _ => True
  | .size => True
  | _ => False

section Readers

variable [LinearOrder D] [Zero D] [Add D] [Sub D] {b : Binding Obj D} {t : SharedTree Obj D}
  {comparing : Option Obj} {pc : Pc Obj D}

/-- What a method that changes nothing may rely on, in a tree that nobody changes. -/
def Pc.Peruses (b : Binding Obj D) (t : SharedTree Obj D) (comparing : Option Obj) :
    Pc Obj D → Prop
  | .ready => True
  | .locking r _ => r.Served ∧ comparing.isSome
  | .posting r _ => r.Served
  | .starting r _ => r.Served ∧ comparing.isSome
  | .searching r q scan => r.Served ∧ comparing.isSome ∧ scan.Follows b t r q
  | .found r q acc seen => r.Served ∧ r.Ended b t q acc seen
  | .sizing => True
  | .releasing .read => True
  | _ => False

/-- What a thread of a reader may rely on. -/
def BindingThread.Peruses (b : Binding Obj D) (t : SharedTree Obj D) (th : BindingThread Obj D)
    (comparing : Option Obj) : Prop :=
  (∀ call ∈ th.todo, call.Queries) ∧ th.pc.Peruses b t comparing

theorem peruses_of_post (h : pc.Peruses b t comparing) (q : Obj) : pc.Peruses b t (some q) := by
  cases pc with
  | locking r q' => exact ⟨h.1, rfl⟩
  | starting r q' => exact ⟨h.1, rfl⟩
  | searching r q' scan => exact ⟨h.1, rfl, h.2.2⟩
  | releasing mode =>
    cases mode with
    | read => trivial
    | write => exact h
  | _ => exact h

theorem Asks.peruses {call : BindingCall Obj D} {mode : Mode} (h : Asks call mode pc)
    (hcall : call.Queries) : pc.Peruses b t comparing := by
  cases h with
  | allWithin max_dist q => trivial
  | size => trivial
  | _ => exact hcall.elim

theorem Posts.peruses {call : BindingCall Obj D} {q : Obj} (h : Posts call q pc) :
    pc.Peruses b t (some q) := by
  cases h with
  | nn q => exact ⟨trivial, rfl⟩
  | knn k q hk => exact ⟨hk, rfl⟩

/-- Each method that changes nothing, taken by itself, goes on. -/
theorem program_reading (ht : t.Sane b) (hmax : ∀ x y, b.distFn x y < b.DIST_MAX) :
    Reading b.program t (BindingThread.Peruses b t) (fun th fault => th.Unwritten t fault) where
  noticed th₁ th set th' comparing hact h := by
    obtain ⟨q, rfl, _⟩ := program_post b hact
    exact ⟨h.1, peruses_of_post h.2 q⟩
  acquire th mode th' comparing hact h := by
    rcases program_acquire b hact with ⟨call, todo, pc, _, htodo, hasks, rfl⟩ |
      ⟨r, q, hpc, _, _, rfl⟩
    · have hcalls := h.1
      rw [htodo] at hcalls
      exact ⟨fun call' hcall' => hcalls call' (List.mem_cons_of_mem _ hcall'),
        hasks.peruses (hcalls call List.mem_cons_self)⟩
    · have hperuses := h.2
      rw [hpc] at hperuses
      exact ⟨h.1, hperuses⟩
  release th mode th' comparing hact h := by
    obtain ⟨_, rfl⟩ := program_release b hact
    exact ⟨h.1, trivial⟩
  read th look comparing hact h := by
    obtain ⟨hcalls, hperuses⟩ := h
    rcases program_read b hact with ⟨call, todo, hpc, htodo, _, rfl⟩ | ⟨r, q, hpc, hr, rfl⟩ |
      ⟨r, q, hpc, rfl⟩ | ⟨r, q, scan, hpc, rfl⟩ | ⟨r, q, acc, seen, hpc, rfl⟩ | ⟨hpc, rfl⟩ |
      ⟨datapoint, hpc, rfl⟩
    · refine ⟨?_, fun f hf => by cases hf⟩
      rintro th' ⟨⟩
      rw [htodo] at hcalls
      exact ⟨fun call' hcall' => hcalls call' (List.mem_cons_of_mem _ hcall'), hperuses⟩
    · -- `nn` goes on without a lock
      refine ⟨?_, fun f hf => by cases hf⟩
      rintro th' ⟨⟩
      rw [hpc] at hperuses
      exact ⟨hcalls, hperuses⟩
    · refine ⟨?_, fun f hf => by cases hf⟩
      rintro th' ⟨⟩
      rw [hpc] at hperuses
      obtain ⟨_, root, hrep, hitems, _⟩ := ht.root
      exact ⟨hcalls, hperuses.1, hperuses.2, follows_start hrep hitems.subset⟩
    · rw [hpc] at hperuses
      obtain ⟨hr, hsome, hfollows⟩ := hperuses
      obtain ⟨next, hstep, hnext⟩ := search_goes_on ht hfollows hsome
      simp only [hstep]
      refine ⟨?_, fun f hf => by cases hf⟩
      rintro th' ⟨⟩
      cases next with
      | inl scan' => exact ⟨hcalls, hr, hsome, hnext⟩
      | inr acc => exact ⟨hcalls, hr, hnext⟩
    · rw [hpc] at hperuses
      by_cases hnone : r.locked = true ∧ (r.results acc).isEmpty = true
      · simp only [hnone, and_self, ↓reduceIte]
        refine ⟨?_, fun f hf => by cases hf⟩
        rintro th' ⟨⟩
        exact ⟨hcalls, trivial⟩
      · dsimp only
        rw [if_neg hnone]
        rcases results_of_ended ht hperuses.2 (fun _ => hmax) hnone with ⟨entries, hentries⟩ |
          ⟨max_dist, rfl, hfault⟩
        · rw [hentries]
          refine ⟨?_, fun f hf => by cases hf⟩
          rintro th' ⟨⟩
          refine ⟨hcalls, ?_⟩
          dsimp only
          split
          · trivial
          · trivial
        · rw [hfault]
          constructor
          · rintro th' ⟨⟩
          · rintro f ⟨⟩
            exact ⟨rfl, max_dist, q, acc, seen, hpc⟩
    · refine ⟨?_, fun f hf => by cases hf⟩
      rintro th' ⟨⟩
      exact ⟨hcalls, trivial⟩
    · rw [hpc] at hperuses
      exact hperuses.elim
  write th change comparing hact h := by
    have hperuses := h.2
    rcases program_write b hact with ⟨stored, hpc, _⟩ | ⟨datapoints, hpc, _⟩ | ⟨added, hpc, _⟩ |
      ⟨block, data, hpc, _⟩
    all_goals
      rw [hpc] at hperuses
      exact hperuses
  post th set th' comparing hact h := by
    obtain ⟨q, rfl, ⟨call, todo, pc, _, htodo, hposts, rfl⟩ | ⟨r, hpc, rfl⟩⟩ := program_post b hact
    · have hcalls := h.1
      rw [htodo] at hcalls
      exact ⟨fun call' hcall' => hcalls call' (List.mem_cons_of_mem _ hcall'), hposts.peruses⟩
    · have hperuses := h.2
      rw [hpc] at hperuses
      exact ⟨h.1, hperuses, rfl⟩

end Readers

section Interleavings

variable {ι : Type*} [DecidableEq ι]

section Safety

variable [LinearOrder D] [Zero D] [Add D] [Sub D] {b : Binding Obj D} {t : SharedTree Obj D}
  {calls : ι → List (BindingCall Obj D)}
  {s : System ι (SharedTree Obj D) (Option Obj) (BindingThread Obj D)}

theorem peruses_reaches (ht : t.Sane b) (hmax : ∀ x y, b.distFn x y < b.DIST_MAX)
    (hcalls : ∀ i, ∀ call ∈ calls i, call.Queries) (h : Reaches b.program (launch t calls) s) :
    s.guarded = t ∧ ∀ i, (s.thread i).Peruses b t s.loose := by
  have hstart (i : ι) : ((launch t calls).thread i).Peruses b t (launch t calls).loose :=
    ⟨hcalls i, trivial⟩
  exact reading_reaches (program_reading ht hmax) rfl hstart h

/-- One guest looks for the nearest one, and another for two of them. -/
def asking : Fin 2 → List (BindingCall Guest ℤ)
  | 0 => [.query .nn (some (1, true))]
  | 1 => [.query (.knn 2) none, .size]

theorem asking_queries (i : Fin 2) : ∀ call ∈ asking i, call.Queries := by
  intro call hcall
  match i with
  | 0 =>
    rw [List.mem_singleton.mp hcall]
    trivial
  | 1 =>
    rcases List.mem_cons.mp hcall with rfl | hcall
    · trivial
    · rw [List.mem_singleton.mp hcall]
      trivial

end Safety

variable [AddCommGroup D] [LinearOrder D] [IsOrderedAddMonoid D]

/-- An `nn` whose search has just ended, and found its own query point every time. -/
def Pc.nnFound : Pc Guest ℤ → Bool
  | .found .nn q _ seen => seen.all fun p => p = some q
  | _ => false

theorem exists_of_nnFound {pc : Pc Guest ℤ} (h : pc.nnFound = true) :
    ∃ q acc seen, pc = .found .nn q acc seen ∧ ∀ p ∈ seen, p = some q := by
  unfold Pc.nnFound at h
  split at h
  · rename_i q acc seen
    exact ⟨q, acc, seen, rfl, by simpa using h⟩
  · cases h

end Interleavings

end VantagePoint
