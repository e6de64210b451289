import VantagePoint.RwLock
import Mathlib.Algebra.BigOperators.Group.Finset.Basic
import Mathlib.Algebra.Order.BigOperators.Group.Finset
import Mathlib.Data.Fintype.Basic
import Mathlib.Logic.Relation

/-! Threads that share a state behind one read-write lock, and a second state that
no lock guards. Every step names the thread that takes it, so a run is an arbitrary
interleaving. The rule: what each thread does under the lock, taken by itself, keeps
the invariant of the guarded state; then every interleaving does. -/
namespace GuardedThreads
open RwLock

universe u v w x y

/-- What a thread does next. `κ` are the local states, `τ` the guarded state and `υ`
the other one. -/
inductive Action (τ : Type u) (υ : Type v) (κ : Type w) (φ : Type x) where
  | idle
  | acquire (mode : Mode) (next : κ)
  | release (mode : Mode) (next : κ)
  | read (look : τ → υ → Except φ κ)
  | write (change : τ → Except φ (τ × κ))
  | post (set : υ → υ) (next : κ)

structure System (ι : Type y) (τ : Type u) (υ : Type v) (κ : Type w) where
  lock : Lock
  guarded : τ
  loose : υ
  thread : ι → κ

/-- Why a thread takes no step. -/
inductive Stuck (φ : Type x) where
  | finished
  | waits
  | notHeld
  | fault (fault : φ)

variable {ι : Type y} {τ : Type u} {υ : Type v} {κ : Type w} {φ : Type x}

/-- The local states an action can lead to. -/
inductive Action.Leads : Action τ υ κ φ → κ → Prop where
  | acquire (mode : Mode) (k : κ) : Leads (.acquire mode k) k
  | release (mode : Mode) (k : κ) : Leads (.release mode k) k
  | read (look : τ → υ → Except φ κ) (t : τ) (u : υ) (k : κ) (h : look t u = .ok k) :
    Leads (.read look) k
  | write (change : τ → Except φ (τ × κ)) (t t' : τ) (k : κ) (h : change t = .ok (t', k)) :
    Leads (.write change) k
  | post (set : υ → υ) (k : κ) : Leads (.post set k) k

theorem Action.Leads.of_acquire {mode : Mode} {k k' : κ}
    (h : (Action.acquire mode k : Action τ υ κ φ).Leads k') : k' = k := by
  cases h with
  | acquire => rfl

/-- What an action makes of both states and of its thread. -/
inductive Action.Makes : Action τ υ κ φ → τ → υ → τ → υ → κ → Prop where
  | acquire (mode : Mode) (k : κ) (t : τ) (u : υ) : Makes (.acquire mode k) t u t u k
  | release (mode : Mode) (k : κ) (t : τ) (u : υ) : Makes (.release mode k) t u t u k
  | read (look : τ → υ → Except φ κ) (t : τ) (u : υ) (k : κ) (h : look t u = .ok k) :
    Makes (.read look) t u t u k
  | write (change : τ → Except φ (τ × κ)) (t t' : τ) (u : υ) (k : κ) (h : change t = .ok (t', k)) :
    Makes (.write change) t u t' u k
  | post (set : υ → υ) (k : κ) (t : τ) (u : υ) : Makes (.post set k) t u t (set u) k

/-- How an action goes wrong. -/
inductive Action.Fails : Action τ υ κ φ → τ → υ → φ → Prop where
  | read (look : τ → υ → Except φ κ) (t : τ) (u : υ) (f : φ) (h : look t u = .error f) :
    Fails (.read look) t u f
  | write (change : τ → Except φ (τ × κ)) (t : τ) (u : υ) (f : φ) (h : change t = .error f) :
    Fails (.write change) t u f

theorem Action.Makes.leads {a : Action τ υ κ φ} {t t' : τ} {u u' : υ} {k : κ}
    (h : a.Makes t u t' u' k) : a.Leads k := by
  cases h with
  | acquire mode => exact .acquire mode k
  | release mode => exact .release mode k
  | read look _ _ _ h => exact .read look t u k h
  | write change _ _ _ _ h => exact .write change t t' k h
  | post set => exact .post set k

theorem Action.Makes.of_read {look : τ → υ → Except φ κ} {t t' : τ} {u u' : υ} {k : κ}
    (h : (Action.read look).Makes t u t' u' k) : t' = t ∧ u' = u ∧ look t u = .ok k := by
  cases h with
  | read _ _ _ _ hk => exact ⟨rfl, rfl, hk⟩

section Code

variable [DecidableEq ι] (program : κ → Action τ υ κ φ)

def System.goto (s : System ι τ υ κ) (i : ι) (k : κ) : System ι τ υ κ :=
  { s with thread := Function.update s.thread i k }

/-- The next step of thread `i`. -/
def System.step (s : System ι τ υ κ) (i : ι) : Except (Stuck φ) (System ι τ υ κ) :=
  match program (s.thread i) with
  | .idle => .error .finished
  | .acquire mode k =>
    match s.lock.acquire mode with
    | none => .error .waits
    | some lock => .ok ({ s with lock := lock }.goto i k)
  | .release mode k =>
    match s.lock.release mode with
    | none => .error .notHeld
    | some lock => .ok ({ s with lock := lock }.goto i k)
  | .read look =>
    match look s.guarded s.loose with
    | .error f => .error (.fault f)
    | .ok k => .ok (s.goto i k)
  | .write change =>
    match change s.guarded with
    | .error f => .error (.fault f)
    | .ok (t, k) => .ok ({ s with guarded := t }.goto i k)
  | .post set k => .ok ({ s with loose := set s.loose }.goto i k)

/-- The steps of one schedule. -/
def System.run (s : System ι τ υ κ) : List ι → Except (Stuck φ) (System ι τ υ κ)
  | [] => .ok s
  | i :: is => (s.step program i).bind fun s => s.run is

/-- `s'` comes after `s` in some interleaving. -/
def Reaches : System ι τ υ κ → System ι τ υ κ → Prop :=
  Relation.ReflTransGen fun s s' => ∃ i, s.step program i = .ok s'

end Code

/-- One hold more. -/
def hold (l : Lock) : Mode → Lock
  | .read => { l with readers := l.readers+1 }
  | .write => { l with writer := true }

/-- `share k` is what a thread in the local state `k` holds of the lock: acquisitions
add to it, and a thread releases only what it holds. -/
structure Disciplined (program : κ → Action τ υ κ φ) (share : κ → Lock) : Prop where
  acquire : ∀ k mode k', program k = .acquire mode k' → share k' = hold (share k) mode
  release : ∀ k mode k', program k = .release mode k' →
    (share k).release mode = some (share k')
  other : ∀ k k', (program k).Leads k' → (∀ mode, program k ≠ .acquire mode k') →
    (∀ mode, program k ≠ .release mode k') → share k' = share k

/-- The lock is what the threads hold together, and a writer holds it alone. -/
structure Consistent [Fintype ι] (share : κ → Lock) (s : System ι τ υ κ) : Prop where
  readers : s.lock.readers = ∑ i, (share (s.thread i)).readers
  writer : s.lock.writer = true ↔ ∃ i, (share (s.thread i)).writer = true
  unique : ∀ i j, (share (s.thread i)).writer = true → (share (s.thread j)).writer = true → i = j
  alone : s.lock.writer = true → s.lock.readers = 0

section Steps

variable [DecidableEq ι] {program : κ → Action τ υ κ φ} {s s' : System ι τ υ κ} {i j : ι}

@[simp] theorem goto_self (k : κ) : (s.goto i k).thread i = k := Function.update_self _ _ _

theorem goto_ne (k : κ) (h : j ≠ i) : (s.goto i k).thread j = s.thread j :=
  Function.update_of_ne h _ _

theorem goto_goto (k k' : κ) : (s.goto i k).goto i k' = s.goto i k' := by
  simp only [System.goto, Function.update_idem]

/-- Everything a step can be. -/
theorem step_cases (h : s.step program i = .ok s') :
    (∃ mode k l, program (s.thread i) = .acquire mode k ∧ s.lock.acquire mode = some l ∧
      s' = { s with lock := l }.goto i k) ∨
    (∃ mode k l, program (s.thread i) = .release mode k ∧ s.lock.release mode = some l ∧
      s' = { s with lock := l }.goto i k) ∨
    (∃ look k, program (s.thread i) = .read look ∧ look s.guarded s.loose = .ok k ∧
      s' = s.goto i k) ∨
    (∃ change t k, program (s.thread i) = .write change ∧ change s.guarded = .ok (t, k) ∧
      s' = { s with guarded := t }.goto i k) ∨
    ∃ set k, program (s.thread i) = .post set k ∧
      s' = { s with loose := set s.loose }.goto i k := by
  unfold System.step at h
  cases hp : program (s.thread i) with
  | idle =>
    rw [hp] at h
    cases h
  | acquire mode k =>
    simp only [hp] at h
    cases hl : s.lock.acquire mode with
    | none =>
      rw [hl] at h
      cases h
    | some l =>
      rw [hl] at h
      exact Or.inl ⟨mode, k, l, rfl, hl, (Except.ok.inj h).symm⟩
  | release mode k =>
    simp only [hp] at h
    cases hl : s.lock.release mode with
    | none =>
      rw [hl] at h
      cases h
    | some l =>
      rw [hl] at h
      exact Or.inr (Or.inl ⟨mode, k, l, rfl, hl, (Except.ok.inj h).symm⟩)
  | read look =>
    simp only [hp] at h
    cases hl : look s.guarded s.loose with
    | error f =>
      rw [hl] at h
      cases h
    | ok k =>
      rw [hl] at h
      exact Or.inr (Or.inr (Or.inl ⟨look, k, rfl, hl, (Except.ok.inj h).symm⟩))
  | write change =>
    simp only [hp] at h
    cases hl : change s.guarded with
    | error f =>
      rw [hl] at h
      cases h
    | ok r =>
      rw [hl] at h
      exact Or.inr (Or.inr (Or.inr (Or.inl ⟨change, r.1, r.2, rfl, hl, (Except.ok.inj h).symm⟩)))
  | post set k =>
    simp only [hp] at h
    exact Or.inr (Or.inr (Or.inr (Or.inr ⟨set, k, rfl, (Except.ok.inj h).symm⟩)))

/-- A thread goes where its action leads, and the others stay where they are. -/
theorem step_leads (h : s.step program i = .ok s') :
    (program (s.thread i)).Leads (s'.thread i) ∧ ∀ j, j ≠ i → s'.thread j = s.thread j := by
  rcases step_cases h with ⟨mode, k, l, hp, _, rfl⟩ | ⟨mode, k, l, hp, _, rfl⟩ |
    ⟨look, k, hp, hk, rfl⟩ | ⟨change, t, k, hp, hk, rfl⟩ | ⟨set, k, hp, rfl⟩
  · refine ⟨?_, fun j hj => goto_ne k hj⟩
    rw [hp, goto_self]
    exact .acquire mode k
  · refine ⟨?_, fun j hj => goto_ne k hj⟩
    rw [hp, goto_self]
    exact .release mode k
  · refine ⟨?_, fun j hj => goto_ne k hj⟩
    rw [hp, goto_self]
    exact .read look _ _ k hk
  · refine ⟨?_, fun j hj => goto_ne k hj⟩
    rw [hp, goto_self]
    exact .write change _ t k hk
  · refine ⟨?_, fun j hj => goto_ne k hj⟩
    rw [hp, goto_self]
    exact .post set k

theorem run_cons {is : List ι} (h : s.run program (i :: is) = .ok s') :
    ∃ s₁, s.step program i = .ok s₁ ∧ s₁.run program is = .ok s' := by
  rw [System.run] at h
  cases hi : s.step program i with
  | error e =>
    rw [hi] at h
    cases h
  | ok s₁ =>
    rw [hi] at h
    exact ⟨s₁, rfl, h⟩

theorem run_append {is js : List ι} (h : s.run program is = .ok s') :
    s.run program (is ++ js) = s'.run program js := by
  induction is generalizing s with
  | nil =>
    cases h
    rfl
  | cons i is ih =>
    obtain ⟨s₁, hi, hrest⟩ := run_cons h
    rw [List.cons_append, System.run, hi]
    exact ih hrest

theorem reaches_of_run {is : List ι} (h : s.run program is = .ok s') : Reaches program s s' := by
  induction is generalizing s with
  | nil =>
    cases h
    exact Relation.ReflTransGen.refl
  | cons i is ih =>
    obtain ⟨s₁, hi, hrest⟩ := run_cons h
    exact Relation.ReflTransGen.head ⟨i, hi⟩ (ih hrest)

theorem step_makes (h : s.step program i = .ok s') :
    (program (s.thread i)).Makes s.guarded s.loose s'.guarded s'.loose (s'.thread i) := by
  rcases step_cases h with ⟨mode, k, l, hp, _, rfl⟩ | ⟨mode, k, l, hp, _, rfl⟩ |
    ⟨look, k, hp, hk, rfl⟩ | ⟨change, t, k, hp, hk, rfl⟩ | ⟨set, k, hp, rfl⟩
  · rw [hp, goto_self]
    exact .acquire mode k _ _
  · rw [hp, goto_self]
    exact .release mode k _ _
  · rw [hp, goto_self]
    exact .read look _ _ k hk
  · rw [hp, goto_self]
    exact .write change _ t _ k hk
  · rw [hp, goto_self]
    exact .post set k _ _

theorem step_fails {f : φ} (h : s.step program i = .error (.fault f)) :
    (program (s.thread i)).Fails s.guarded s.loose f := by
  unfold System.step at h
  split at h
  · cases h
  · split at h
    · cases h
    · cases h
  · split at h
    · cases h
    · cases h
  · rename_i look hact
    split at h
    · rename_i f' hf
      cases h
      rw [hact]
      exact .read look _ _ f hf
    · cases h
  · rename_i change hact
    split at h
    · rename_i f' hf
      cases h
      rw [hact]
      exact .write change _ _ f hf
    · cases h
  · cases h

theorem step_read {look : τ → υ → Except φ κ} {k : κ} (hact : program (s.thread i) = .read look)
    (hk : look s.guarded s.loose = .ok k) : s.step program i = .ok (s.goto i k) := by
  simp only [System.step, hact, hk]

theorem step_read_error {look : τ → υ → Except φ κ} {f : φ}
    (hact : program (s.thread i) = .read look) (hk : look s.guarded s.loose = .error f) :
    s.step program i = .error (.fault f) := by
  simp only [System.step, hact, hk]

theorem step_post {set : υ → υ} {k : κ} (hact : program (s.thread i) = .post set k) :
    s.step program i = .ok ({ s with loose := set s.loose }.goto i k) := by
  simp only [System.step, hact]

theorem step_acquire {mode : Mode} {k : κ} {l : Lock} (hact : program (s.thread i) = .acquire mode k)
    (hl : s.lock.acquire mode = some l) :
    s.step program i = .ok ({ s with lock := l }.goto i k) := by
  simp only [System.step, hact, hl]

theorem step_release {mode : Mode} {k : κ} {l : Lock} (hact : program (s.thread i) = .release mode k)
    (hl : s.lock.release mode = some l) :
    s.step program i = .ok ({ s with lock := l }.goto i k) := by
  simp only [System.step, hact, hl]

theorem step_write {change : τ → Except φ (τ × κ)} {t : τ} {k : κ}
    (hact : program (s.thread i) = .write change) (hk : change s.guarded = .ok (t, k)) :
    s.step program i = .ok ({ s with guarded := t }.goto i k) := by
  simp only [System.step, hact, hk]

theorem exists_of_run (program : κ → Action τ υ κ φ) (s : System ι τ υ κ) (is : List ι)
    (p : System ι τ υ κ → Bool) (h : (s.run program is).toOption.any p = true) :
    ∃ s', s.run program is = .ok s' ∧ p s' = true := by
  cases hr : s.run program is with
  | error e =>
    rw [hr] at h
    cases h
  | ok s' =>
    rw [hr] at h
    exact ⟨s', rfl, h⟩

/-- A thread that takes no step stays where it is. -/
theorem thread_of_run {is : List ι} (h : s.run program is = .ok s') (hj : j ∉ is) :
    s'.thread j = s.thread j := by
  induction is generalizing s with
  | nil =>
    cases h
    rfl
  | cons i is ih =>
    obtain ⟨s₁, hi, hrest⟩ := run_cons h
    rw [ih hrest fun hmem => hj (List.mem_cons_of_mem _ hmem)]
    exact (step_leads hi).2 j fun heq => hj (heq ▸ List.mem_cons_self)

end Steps

section Exclusion

variable [Fintype ι] [DecidableEq ι] {program : κ → Action τ υ κ φ} {share : κ → Lock}
  {s s' : System ι τ υ κ} {i j : ι}

/-- What all threads have together, where one of them changes its local state. -/
theorem sum_update {M : Type*} [AddCommMonoid M] (f : κ → M) (thread : ι → κ) (i : ι) (k : κ) :
    ∃ rest, ∑ j, f (thread j) = f (thread i)+rest ∧
      ∑ j, f (Function.update thread i k j) = f k+rest := by
  have hrest : ∑ j ∈ Finset.univ.erase i, f (Function.update thread i k j) =
      ∑ j ∈ Finset.univ.erase i, f (thread j) := by
    apply Finset.sum_congr rfl
    intro j hj
    rw [Function.update_of_ne (Finset.ne_of_mem_erase hj)]
  refine ⟨∑ j ∈ Finset.univ.erase i, f (thread j), ?_, ?_⟩
  · rw [Finset.add_sum_erase _ (fun j => f (thread j)) (Finset.mem_univ i)]
  · rw [← Finset.add_sum_erase _ _ (Finset.mem_univ i), hrest, Function.update_self]

omit [DecidableEq ι] in
theorem Consistent.readers_le (h : Consistent share s) (i : ι) :
    (share (s.thread i)).readers ≤ s.lock.readers := by
  rw [h.readers]
  exact Finset.single_le_sum (fun j _ => Nat.zero_le (share (s.thread j)).readers)
    (Finset.mem_univ i)

omit [DecidableEq ι] in
/-- Where the lock has no writer, no thread is one. -/
theorem Consistent.no_writer (h : Consistent share s) (hw : s.lock.writer = false) (j : ι) :
    (share (s.thread j)).writer = false := by
  by_contra hj
  exact absurd (hw.symm.trans (h.writer.mpr ⟨j, by simpa using hj⟩)) (by decide)

omit [DecidableEq ι] in
theorem Consistent.lock_free (h : Consistent share s) (hfree : ∀ i, share (s.thread i) = .free) :
    s.lock = .free := by
  have hr : s.lock.readers = 0 := by
    rw [h.readers]
    simp [hfree, Lock.free]
  have hw : s.lock.writer = false := by
    by_contra hw
    obtain ⟨j, hj⟩ := h.writer.mp (by simpa using hw)
    rw [hfree j] at hj
    cases hj
  show s.lock = ⟨0, false⟩
  rw [← hr, ← hw]

omit [DecidableEq ι] in
/-- Beside a writer no thread holds anything, and a writer has no read hold. -/
theorem Consistent.free_of_writer (h : Consistent share s)
    (hi : (share (s.thread i)).writer = true) :
    (share (s.thread i)).readers = 0 ∧ ∀ j, j ≠ i → share (s.thread j) = .free := by
  have hzero := h.alone (h.writer.mpr ⟨i, hi⟩)
  have hreaders (j : ι) : (share (s.thread j)).readers = 0 := by
    have hle := h.readers_le j
    omega
  refine ⟨hreaders i, fun j hj => ?_⟩
  have hj' : (share (s.thread j)).writer ≠ true := fun hw => hj (h.unique j i hw hi)
  show share (s.thread j) = ⟨0, false⟩
  rw [← hreaders j, ← Bool.not_eq_true _ |>.mp hj']

/-- A step that changes no share. -/
theorem Consistent.same {k : κ} (h : Consistent share s) (hk : share k = share (s.thread i))
    (hlock : s'.lock = s.lock) (hthread : s'.thread = Function.update s.thread i k) :
    Consistent share s' := by
  have hshare (j : ι) : share (s'.thread j) = share (s.thread j) := by
    rw [hthread]
    by_cases hj : j = i
    · subst hj
      rw [Function.update_self, hk]
    · rw [Function.update_of_ne hj]
  refine ⟨?_, ?_, ?_, ?_⟩
  · simp only [hlock, hshare, h.readers]
  · simp only [hlock, hshare, h.writer]
  · simp only [hshare]
    exact h.unique
  · rw [hlock]
    exact h.alone

theorem Consistent.acquire {mode : Mode} {k : κ} {l : Lock} (h : Consistent share s)
    (hk : share k = hold (share (s.thread i)) mode) (hl : s.lock.acquire mode = some l) :
    Consistent share ({ s with lock := l }.goto i k) := by
  obtain ⟨rest, hsum, hsum'⟩ := sum_update (fun k => (share k).readers) s.thread i k
  have hreaders := h.readers
  have hold' := h.no_writer (writer_of_acquire hl)
  cases mode with
  | read =>
    obtain ⟨hw, rfl⟩ := acquire_read hl
    have hno (j : ι) : (share (Function.update s.thread i k j)).writer = false := by
      by_cases hji : j = i
      · subst hji
        rw [Function.update_self, hk]
        exact hold' j
      · rw [Function.update_of_ne hji]
        exact hold' j
    refine ⟨?_, ?_, ?_, ?_⟩
    · show s.lock.readers+1 = ∑ j, (share (Function.update s.thread i k j)).readers
      rw [hk] at hsum'
      simp only [hold] at hsum'
      omega
    · simp [System.goto, hno, hw]
    · intro j j' hj
      exact absurd hj (by simp [System.goto, hno])
    · intro hw'
      exact absurd (hw.symm.trans hw') (by decide)
  | write =>
    obtain ⟨hw, hr, rfl⟩ := acquire_write hl
    have hself : (share (Function.update s.thread i k i)).writer = true := by
      rw [Function.update_self, hk]
      rfl
    have hother (j : ι) (hj : (share (Function.update s.thread i k j)).writer = true) : j = i := by
      by_contra hne
      rw [Function.update_of_ne hne, hold' j] at hj
      cases hj
    refine ⟨?_, ?_, ?_, ?_⟩
    · show s.lock.readers = ∑ j, (share (Function.update s.thread i k j)).readers
      rw [hk] at hsum'
      simp only [hold] at hsum'
      omega
    · exact iff_of_true rfl ⟨i, hself⟩
    · intro j j' hj hj'
      exact (hother j hj).trans (hother j' hj').symm
    · exact fun _ => hr

theorem Consistent.release {mode : Mode} {k : κ} {l : Lock} (h : Consistent share s)
    (hk : (share (s.thread i)).release mode = some (share k)) (hl : s.lock.release mode = some l) :
    Consistent share ({ s with lock := l }.goto i k) := by
  obtain ⟨rest, hsum, hsum'⟩ := sum_update (fun k => (share k).readers) s.thread i k
  have hreaders := h.readers
  have hle := h.readers_le i
  cases mode with
  | read =>
    obtain ⟨hpos, rfl⟩ := release_read hl
    obtain ⟨hpos', hshare⟩ := release_read hk
    have hwriter (j : ι) : (share (Function.update s.thread i k j)).writer =
        (share (s.thread j)).writer := by
      by_cases hj : j = i
      · subst hj
        rw [Function.update_self, hshare]
      · rw [Function.update_of_ne hj]
    refine ⟨?_, ?_, ?_, ?_⟩
    · show s.lock.readers-1 = ∑ j, (share (Function.update s.thread i k j)).readers
      rw [hshare] at hsum'
      dsimp only at hsum'
      omega
    · simp only [System.goto, hwriter]
      exact h.writer
    · simp only [System.goto, hwriter]
      exact h.unique
    · intro hw
      exact absurd (h.alone hw) hpos
  | write =>
    obtain ⟨_, rfl⟩ := release_write hl
    obtain ⟨hw, hshare⟩ := release_write hk
    have hno (j : ι) : (share (Function.update s.thread i k j)).writer = false := by
      by_cases hj : j = i
      · subst hj
        rw [Function.update_self, hshare]
      · rw [Function.update_of_ne hj, (h.free_of_writer hw).2 j hj]
        rfl
    refine ⟨?_, ?_, ?_, ?_⟩
    · show s.lock.readers = ∑ j, (share (Function.update s.thread i k j)).readers
      rw [hshare] at hsum'
      dsimp only at hsum'
      omega
    · simp [System.goto, hno]
    · intro j j' hj
      exact absurd hj (by simp [System.goto, hno])
    · intro hw'
      cases hw'

/-- The step lemma for the lock. -/
theorem consistent_step (hp : Disciplined program share) (h : Consistent share s)
    (hstep : s.step program i = .ok s') : Consistent share s' := by
  rcases step_cases hstep with ⟨mode, k, l, hact, hl, rfl⟩ | ⟨mode, k, l, hact, hl, rfl⟩ |
    ⟨look, k, hact, hk, rfl⟩ | ⟨change, t, k, hact, hk, rfl⟩ | ⟨set, k, hact, rfl⟩
  · exact h.acquire (hp.acquire _ _ _ hact) hl
  · exact h.release (hp.release _ _ _ hact) hl
  · refine h.same (hp.other _ k ?_ ?_ ?_) rfl rfl
    · rw [hact]
      exact .read look _ _ k hk
    · simp [hact]
    · simp [hact]
  · refine h.same (hp.other _ k ?_ ?_ ?_) rfl rfl
    · rw [hact]
      exact .write change _ t k hk
    · simp [hact]
    · simp [hact]
  · refine h.same (hp.other _ k ?_ ?_ ?_) rfl rfl
    · rw [hact]
      exact .post set k
    · simp [hact]
    · simp [hact]

/-- The run lemma for the lock. -/
theorem consistent_reaches (hp : Disciplined program share) (h : Consistent share s)
    (hs : Reaches program s s') : Consistent share s' := by
  induction hs with
  | refl => exact h
  | tail _ hstep ih =>
    obtain ⟨i, hi⟩ := hstep
    exact consistent_step hp ih hi

/-- No thread ever releases a lock that is not held. -/
theorem Consistent.held (hp : Disciplined program share) (h : Consistent share s) (i : ι) :
    s.step program i ≠ .error .notHeld := by
  intro hstep
  unfold System.step at hstep
  split at hstep
  · cases hstep
  · split at hstep
    · cases hstep
    · cases hstep
  · rename_i mode k hact
    have hk := hp.release _ _ _ hact
    have hle := h.readers_le i
    cases mode with
    | read =>
      have hpos := (release_read hk).1
      have hpos' : s.lock.readers ≠ 0 := by omega
      simp [Lock.release, hpos'] at hstep
    | write =>
      have hlock := h.writer.mpr ⟨i, (release_write hk).1⟩
      simp [Lock.release, hlock] at hstep
  · split at hstep
    · cases hstep
    · cases hstep
  · split at hstep
    · cases hstep
    · cases hstep
  · cases hstep

omit [Fintype ι] in
/-- What every step of a thread keeps holds of it for the whole run. -/
theorem closed_reaches {C : κ → Prop} (hclosed : ∀ k k', C k → (program k).Leads k' → C k')
    (hi : C (s.thread i)) (hreach : Reaches program s s') : C (s'.thread i) := by
  induction hreach with
  | refl => exact hi
  | tail _ hstep ih =>
    obtain ⟨j, hj⟩ := hstep
    obtain ⟨hleads, hothers⟩ := step_leads hj
    by_cases hij : i = j
    · subst hij
      exact hclosed _ _ ih hleads
    · rwa [hothers i hij]

omit [Fintype ι] in
/-- What every write does to the guarded state, the whole run does. -/
theorem related_reaches {C : κ → Prop} {R : τ → τ → Prop} (hrefl : ∀ t, R t t)
    (htrans : ∀ t t' t'', R t t' → R t' t'' → R t t'')
    (hwrite : ∀ k change t t' k', C k → program k = .write change → change t = .ok (t', k') → R t t')
    (hclosed : ∀ k k', C k → (program k).Leads k' → C k') (hC : ∀ i, C (s.thread i))
    (hreach : Reaches program s s') : R s.guarded s'.guarded := by
  induction hreach with
  | refl => exact hrefl _
  | tail hbefore hstep ih =>
    obtain ⟨i, hi⟩ := hstep
    apply htrans _ _ _ ih
    rcases step_cases hi with ⟨mode, k, l, _, _, rfl⟩ | ⟨mode, k, l, _, _, rfl⟩ |
      ⟨look, k, _, _, rfl⟩ | ⟨change, t, k, hact, hk, rfl⟩ | ⟨set, k, _, rfl⟩
    · exact hrefl _
    · exact hrefl _
    · exact hrefl _
    · exact hwrite _ _ _ _ _ (closed_reaches hclosed (hC i) hbefore) hact hk
    · exact hrefl _

section Totals

variable {M : Type*} [AddCommMonoid M] {C : κ → Prop} {f : κ → M} {g : τ → M}

/-- The conservation rule for one step: what the threads have still to add, and what
is there, stay the same together. `C` are the local states it applies to. -/
theorem total_step
    (hkeep : ∀ k k', C k → (program k).Leads k' → (∀ change, program k ≠ .write change) →
      f k' = f k)
    (hwrite : ∀ k change t t' k', C k → program k = .write change → change t = .ok (t', k') →
      g t'+f k' = g t+f k) (hC : C (s.thread i)) (hstep : s.step program i = .ok s') :
    g s'.guarded+∑ j, f (s'.thread j) = g s.guarded+∑ j, f (s.thread j) := by
  obtain ⟨hleads, hothers⟩ := step_leads hstep
  -- Only the thread that moves counts.
  have hone : g s'.guarded+f (s'.thread i) = g s.guarded+f (s.thread i) := by
    rcases step_cases hstep with ⟨mode, k, l, hact, _, rfl⟩ | ⟨mode, k, l, hact, _, rfl⟩ |
      ⟨look, k, hact, _, rfl⟩ | ⟨change, t, k, hact, hk, rfl⟩ | ⟨set, k, hact, rfl⟩
    · exact congrArg _ (hkeep _ _ hC hleads (by simp [hact]))
    · exact congrArg _ (hkeep _ _ hC hleads (by simp [hact]))
    · exact congrArg _ (hkeep _ _ hC hleads (by simp [hact]))
    · rw [goto_self]
      exact hwrite _ _ _ _ _ hC hact hk
    · exact congrArg _ (hkeep _ _ hC hleads (by simp [hact]))
  have hthread : s'.thread = Function.update s.thread i (s'.thread i) := by
    funext j
    by_cases hj : j = i
    · subst hj
      rw [Function.update_self]
    · rw [Function.update_of_ne hj, hothers j hj]
  obtain ⟨rest, hsum, hsum'⟩ := sum_update f s.thread i (s'.thread i)
  rw [← hthread] at hsum'
  rw [hsum, hsum', ← add_assoc, ← add_assoc, hone]

/-- The run lemma for conservation. -/
theorem total_reaches
    (hkeep : ∀ k k', C k → (program k).Leads k' → (∀ change, program k ≠ .write change) →
      f k' = f k)
    (hwrite : ∀ k change t t' k', C k → program k = .write change → change t = .ok (t', k') →
      g t'+f k' = g t+f k)
    (hclosed : ∀ k k', C k → (program k).Leads k' → C k') (hC : ∀ i, C (s.thread i))
    (hreach : Reaches program s s') :
    g s'.guarded+∑ j, f (s'.thread j) = g s.guarded+∑ j, f (s.thread j) := by
  induction hreach with
  | refl => rfl
  | tail hbefore hstep ih =>
    obtain ⟨i, hi⟩ := hstep
    exact (total_step hkeep hwrite (closed_reaches hclosed (hC i) hbefore) hi).trans ih

end Totals

end Exclusion

section Rule

variable [Fintype ι] [DecidableEq ι]

/-- What is asked of the thread programs, each taken by itself. `I` is the invariant
of the guarded state, `P` what is assumed of it where it is written, `J` what a thread
may rely on in a local state, and `A` the faults that are put up with. A thread writes
only as a writer; with no hold at all it relies on nothing that a writer could change;
and what it relies on survives the posts of others. -/
structure Sound (program : κ → Action τ υ κ φ) (share : κ → Lock) (I P : τ → Prop)
    (J : κ → τ → υ → Prop) (A : κ → τ → φ → Prop) : Prop where
  stable : ∀ k t t' u, share k = .free → J k t u → J k t' u
  noticed : ∀ k₁ k set k' t u, program k₁ = .post set k' → J k t u → J k t (set u)
  acquire : ∀ k mode k' t u, program k = .acquire mode k' → J k t u → I t → J k' t u
  release : ∀ k mode k' t u, program k = .release mode k' → J k t u →
    J k' t u ∧ (mode = .write → I t)
  read : ∀ k look t u, program k = .read look → J k t u →
    (∀ k', look t u = .ok k' → J k' t u) ∧ ∀ f, look t u = .error f → A k t f
  write : ∀ k change t u, program k = .write change → J k t u → P t →
    (share k).writer = true ∧ (∀ t' k', change t = .ok (t', k') → J k' t' u) ∧
      ∀ f, change t = .error f → A k t f
  post : ∀ k set k' t u, program k = .post set k' → J k t u → J k' t (set u)

/-- What holds of every state of a run. -/
structure Safe (share : κ → Lock) (I : τ → Prop) (J : κ → τ → υ → Prop) (s : System ι τ υ κ) :
    Prop where
  consistent : Consistent share s
  invariant : s.lock.writer = false → I s.guarded
  relied : ∀ i, J (s.thread i) s.guarded s.loose

variable {program : κ → Action τ υ κ φ} {share : κ → Lock} {I P : τ → Prop}
  {J : κ → τ → υ → Prop} {A : κ → τ → φ → Prop} {s s' : System ι τ υ κ} {i : ι}

omit [Fintype ι] in
/-- A thread moves; the others rely on what they relied on. -/
theorem relied_goto {t : τ} {u : υ} {k : κ} (hself : J k t u)
    (hothers : ∀ j, j ≠ i → J (s.thread j) t u) (j : ι) :
    J (Function.update s.thread i k j) t u := by
  by_cases hj : j = i
  · subst hj
    rwa [Function.update_self]
  · rw [Function.update_of_ne hj]
    exact hothers j hj

/-- The step lemma. -/
theorem safe_step (hp : Disciplined program share) (hs : Sound program share I P J A)
    (h : Safe share I J s) (hP : P s.guarded) (hstep : s.step program i = .ok s') :
    Safe share I J s' := by
  have hconsistent := consistent_step hp h.consistent hstep
  rcases step_cases hstep with ⟨mode, k, l, hact, hl, rfl⟩ | ⟨mode, k, l, hact, hl, rfl⟩ |
    ⟨look, k, hact, hk, rfl⟩ | ⟨change, t, k, hact, hk, rfl⟩ | ⟨set, k, hact, rfl⟩
  · have hI := h.invariant (writer_of_acquire hl)
    refine ⟨hconsistent, fun _ => hI, relied_goto ?_ fun j _ => h.relied j⟩
    exact hs.acquire _ _ _ _ _ hact (h.relied i) hI
  · obtain ⟨hJ, hI⟩ := hs.release _ _ _ _ _ hact (h.relied i)
    refine ⟨hconsistent, ?_, relied_goto hJ fun j _ => h.relied j⟩
    -- A reader leaves the guarded state as the invariant found it.
    intro _
    cases mode with
    | write => exact hI rfl
    | read =>
      apply h.invariant
      by_contra hw
      exact (release_read hl).1 (h.consistent.alone (by simpa using hw))
  · refine ⟨hconsistent, h.invariant, relied_goto ?_ fun j _ => h.relied j⟩
    exact (hs.read _ _ _ _ hact (h.relied i)).1 k hk
  · obtain ⟨hw, hok, _⟩ := hs.write _ _ _ _ hact (h.relied i) hP
    refine ⟨hconsistent, ?_, relied_goto (hok t k hk) fun j hj => ?_⟩
    · intro hnone
      have hlock := h.consistent.writer.mpr ⟨i, hw⟩
      exact absurd (hlock.symm.trans hnone) (by decide)
    -- The other threads hold nothing, so they rely on nothing that has changed.
    · exact hs.stable _ _ _ _ ((h.consistent.free_of_writer hw).2 j hj) (h.relied j)
  · refine ⟨hconsistent, h.invariant, relied_goto ?_ fun j _ => ?_⟩
    · exact hs.post _ _ _ _ _ hact (h.relied i)
    · exact hs.noticed _ _ _ _ _ _ hact (h.relied j)

/-- The run lemma: the rule for threads behind a lock. -/
theorem safe_reaches (hp : Disciplined program share) (hs : Sound program share I P J A)
    (h : Safe share I J s) (hP : ∀ s', Reaches program s s' → P s'.guarded)
    (hreach : Reaches program s s') : Safe share I J s' := by
  induction hreach with
  | refl => exact h
  | tail hbefore hstep ih =>
    obtain ⟨i, hi⟩ := hstep
    exact safe_step hp hs ih (hP _ hbefore) hi

/-- In a safe state a thread can only wait, be finished, or meet a fault that is put
up with. -/
theorem Safe.fault_allowed (hs : Sound program share I P J A) (h : Safe share I J s)
    (hP : P s.guarded) {f : φ} (hstep : s.step program i = .error (.fault f)) :
    A (s.thread i) s.guarded f := by
  generalize hact : program (s.thread i) = act
  have hfails := step_fails hstep
  rw [hact] at hfails
  cases hfails with
  | read look _ _ _ hf => exact (hs.read _ _ _ _ hact (h.relied i)).2 f hf
  | write change _ _ _ hf => exact (hs.write _ _ _ _ hact (h.relied i) hP).2.2 f hf

end Rule

section Parked

variable [Fintype ι] [DecidableEq ι] {program : κ → Action τ υ κ φ} {share : κ → Lock}
  {s s' : System ι τ υ κ} {i : ι}

/-- A read hold that is never given up keeps every writer out for good: whatever the
threads do from there on, what only writers change of the guarded state stays. -/
theorem view_of_parked {γ : Type*} (view : τ → γ) {P : κ → Prop} (hp : Disciplined program share)
    (hview : ∀ k change t t' k', program k = .write change → (share k).writer = false →
      change t = .ok (t', k') → view t' = view t)
    (hP : ∀ k, P k → (share k).readers ≠ 0)
    (hclosed : ∀ k k', P k → (program k).Leads k' → P k') (h : Consistent share s)
    (hi : P (s.thread i)) (hreach : Reaches program s s') :
    P (s'.thread i) ∧ view s'.guarded = view s.guarded ∧ s'.lock.writer = false := by
  have hno (s : System ι τ υ κ) (h : Consistent share s) (hi : P (s.thread i)) :
      s.lock.writer = false := by
    by_contra hw
    have hzero := h.alone (by simpa using hw)
    have hle := h.readers_le i
    have hpos := hP _ hi
    omega
  induction hreach with
  | refl => exact ⟨hi, rfl, hno s h hi⟩
  | tail hbefore hstep ih =>
    rename_i b c
    obtain ⟨hb, hguarded, hnone⟩ := ih
    obtain ⟨j, hj⟩ := hstep
    have hconsistent := consistent_reaches hp h hbefore
    have hc : P (c.thread i) := closed_reaches hclosed hb (Relation.ReflTransGen.single ⟨j, hj⟩)
    refine ⟨hc, ?_, hno c (consistent_step hp hconsistent hj) hc⟩
    rw [← hguarded]
    rcases step_cases hj with ⟨mode, k, l, hact, hl, rfl⟩ | ⟨mode, k, l, hact, hl, rfl⟩ |
      ⟨look, k, hact, hk, rfl⟩ | ⟨change, t, k, hact, hk, rfl⟩ | ⟨set, k, hact, rfl⟩
    · rfl
    · rfl
    · rfl
    · -- a thread that writes here is no writer, since there is none
      apply hview _ _ _ _ _ hact _ hk
      by_contra hw
      have hlock := hconsistent.writer.mpr ⟨j, by simpa using hw⟩
      exact absurd (hlock.symm.trans hnone) (by decide)
    · rfl

/-- No deadlock: where every thread that holds something has more to do with it, and
not all are finished, some thread does not have to wait. -/
theorem Consistent.progress (h : Consistent share s)
    (hbusy : ∀ i, share (s.thread i) ≠ .free →
      program (s.thread i) ≠ .idle ∧ ∀ mode k, program (s.thread i) ≠ .acquire mode k)
    (hmore : program (s.thread i) ≠ .idle) :
    ∃ j, s.step program j ≠ .error .waits ∧ s.step program j ≠ .error .finished := by
  -- A thread that neither asks for the lock nor has finished goes on at once.
  have hgo (j : ι) (hidle : program (s.thread j) ≠ .idle)
      (hacquire : ∀ mode k, program (s.thread j) ≠ .acquire mode k) :
      s.step program j ≠ .error .waits ∧ s.step program j ≠ .error .finished := by
    unfold System.step
    split
    · exact absurd ‹_› hidle
    · exact absurd ‹_› (hacquire _ _)
    · split
      · simp
      · simp
    · split
      · simp
      · simp
    · split
      · simp
      · simp
    · simp
  by_cases hholder : ∃ j, share (s.thread j) ≠ .free
  · obtain ⟨j, hj⟩ := hholder
    obtain ⟨hidle, hacquire⟩ := hbusy j hj
    exact ⟨j, hgo j hidle hacquire⟩
  · -- Nobody holds anything: the lock is free, and granted to whoever asks.
    have hfree (j : ι) : share (s.thread j) = .free := by
      by_contra hj
      exact hholder ⟨j, hj⟩
    have hlock := h.lock_free hfree
    by_cases hacquire : ∃ mode k, program (s.thread i) = .acquire mode k
    · obtain ⟨mode, k, hact⟩ := hacquire
      obtain ⟨l, hl⟩ := acquire_free mode
      refine ⟨i, ?_, ?_⟩
      · simp [System.step, hact, hlock, hl]
      · simp [System.step, hact, hlock, hl]
    · refine ⟨i, hgo i hmore fun mode k hact => hacquire ⟨mode, k, hact⟩⟩

end Parked

end GuardedThreads
