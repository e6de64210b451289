import VantagePoint.GuardedThreads

/-! Threads that take turns: by an agreement that the programs know nothing of, nobody
begins an operation while another one is under way. Then an operation may rely on all it
has found and done since it began, whether it takes the lock or not, and the threads
refine the machine in which an operation is one step. -/
namespace GuardedThreads
open RwLock

universe u v w x y

variable {ι : Type y} {τ : Type u} {υ : Type v} {κ : Type w} {φ : Type x}

/-- At most one thread is inside an operation. -/
def Exclusive (idle : κ → Prop) (s : System ι τ υ κ) : Prop :=
  ∀ i j, i ≠ j → idle (s.thread i) ∨ idle (s.thread j)

section Rule

variable [DecidableEq ι]

/-- `s'` comes after `s` in some interleaving in which the threads take turns. -/
def ReachesInTurns (program : κ → Action τ υ κ φ) (idle : κ → Prop) :
    System ι τ υ κ → System ι τ υ κ → Prop :=
  Relation.ReflTransGen fun s s' => (∃ i, s.step program i = .ok s') ∧ Exclusive idle s'

/-- What is asked of the programs, each taken by itself. Between the operations `I` holds
of the guarded state; inside of one its thread relies on `J`. `C` are the local states
that occur, `P` is what is assumed of the guarded state, and `A` are the faults that are
put up with. -/
structure Turns (program : κ → Action τ υ κ φ) (idle : κ → Prop) (I P : τ → Prop) (C : κ → Prop)
    (J : κ → τ → υ → Prop) (A : κ → τ → φ → Prop) : Prop where
  closed : ∀ k k', C k → (program k).Leads k' → C k'
  enter : ∀ k t u, C k → idle k → I t → J k t u
  leave : ∀ k t u, idle k → J k t u → I t
  next : ∀ k t u t' u' k', C k → J k t u → P t → (program k).Makes t u t' u' k' → J k' t' u'
  fault : ∀ k t u f, J k t u → P t → (program k).Fails t u f → A k t f
  quiet : ∀ k t u t' u' k', idle k → idle k' → (program k).Makes t u t' u' k' → t' = t ∧ u' = u
  calm : ∀ k t u f, idle k → ¬ (program k).Fails t u f

/-- The machine in which an operation is one step: what the threads share, and what is
seen of each thread. -/
structure AtomicSystem (ι : Type*) (σ : Type*) (α : Type*) where
  shared : σ
  thread : ι → α

/-- `a'` comes after `a` where each step is an operation of one thread. -/
def AtomicSystem.Reaches {σ α : Type*} (does : σ → α → σ → α → Prop) :
    AtomicSystem ι σ α → AtomicSystem ι σ α → Prop :=
  Relation.ReflTransGen fun a a' => ∃ i x, does a.shared (a.thread i) a'.shared x ∧
    a'.thread = Function.update a.thread i x

omit [DecidableEq ι] in
/-- What the atomic machine keeps of a state. -/
def System.view {σ α : Type*} (shared : τ → σ) (seen : κ → α) (s : System ι τ υ κ) :
    AtomicSystem ι σ α :=
  ⟨shared s.guarded, fun i => seen (s.thread i)⟩

/-- What is asked of the programs, that of the steps of an operation one has its effect
and the others have none. -/
structure TakesEffect {σ α : Type*} (program : κ → Action τ υ κ φ) (idle C : κ → Prop)
    (J : κ → τ → υ → Prop) (shared : τ → σ) (seen : κ → α) (does : σ → α → σ → α → Prop) : Prop where
  busy : ∀ k t u t' u' k', C k → J k t u → (program k).Makes t u t' u' k' →
    (shared t' = shared t ∧ seen k' = seen k) ∨ does (shared t) (seen k) (shared t') (seen k')
  idle : ∀ k t u t' u' k', idle k → idle k' → (program k).Makes t u t' u' k' →
    (shared t' = shared t ∧ seen k' = seen k) ∨ does (shared t) (seen k) (shared t') (seen k')

/-- What holds of every state of a run: a thread that nobody else's operation comes
between may rely on what it relies on. -/
structure InTurn (idle : κ → Prop) (C : κ → Prop) (J : κ → τ → υ → Prop) (s : System ι τ υ κ) :
    Prop where
  exclusive : Exclusive idle s
  occurs : ∀ i, C (s.thread i)
  alone : ∀ i, (∀ j, j ≠ i → idle (s.thread j)) → J (s.thread i) s.guarded s.loose

variable {program : κ → Action τ υ κ φ} {idle : κ → Prop} {I P : τ → Prop} {C : κ → Prop}
  {J : κ → τ → υ → Prop} {A : κ → τ → φ → Prop} {s s' : System ι τ υ κ} {i : ι}

omit [DecidableEq ι] in
/-- While one thread is inside an operation, the others are idle. -/
theorem InTurn.others (h : InTurn idle C J s) (hi : ¬ idle (s.thread i)) (j : ι) (hj : j ≠ i) :
    idle (s.thread j) :=
  (h.exclusive i j hj.symm).resolve_left hi

/-- The step lemma. -/
theorem inTurn_step (ht : Turns program idle I P C J A) (h : InTurn idle C J s) (hP : P s.guarded)
    (hstep : s.step program i = .ok s') (hexclusive : Exclusive idle s') : InTurn idle C J s' := by
  obtain ⟨hleads, hothers⟩ := step_leads hstep
  have hmakes := step_makes hstep
  have hoccurs (j : ι) : C (s'.thread j) := by
    by_cases hj : j = i
    · subst hj
      exact ht.closed _ _ (h.occurs j) hleads
    · rw [hothers j hj]
      exact h.occurs j
  refine ⟨hexclusive, hoccurs, ?_⟩
  by_cases halone : ∀ j, j ≠ i → idle (s.thread j)
  · -- It is the turn of the thread that moves.
    have hself := ht.next _ _ _ _ _ _ (h.occurs i) (h.alone i halone) hP hmakes
    intro j hj
    by_cases hji : j = i
    · subst hji
      exact hself
    · have hidle : idle (s'.thread i) := hj i (Ne.symm hji)
      apply ht.enter _ _ _ (hoccurs j)
      · rw [hothers j hji]
        exact halone j hji
      · exact ht.leave _ _ _ hidle hself
  · -- Somebody else is inside an operation, and so this thread stays idle.
    obtain ⟨j, hj⟩ := not_forall.mp halone
    obtain ⟨hji, hbusy⟩ := Classical.not_imp.mp hj
    have hbefore := h.others hbusy i (Ne.symm hji)
    have hbusy' : ¬ idle (s'.thread j) := by rwa [hothers j hji]
    have hafter := (hexclusive i j (Ne.symm hji)).resolve_right hbusy'
    obtain ⟨hguarded, hloose⟩ := ht.quiet _ _ _ _ _ _ hbefore hafter hmakes
    intro l hl
    obtain rfl : j = l := by
      by_contra hjl
      exact hbusy' (hl j hjl)
    rw [hguarded, hloose, hothers j hji]
    exact h.alone j (h.others hbusy)

/-- The run lemma: the rule for threads that take turns. -/
theorem inTurn_reaches (ht : Turns program idle I P C J A) (h : InTurn idle C J s)
    (hP : ∀ s', ReachesInTurns program idle s s' → P s'.guarded)
    (hreach : ReachesInTurns program idle s s') : InTurn idle C J s' := by
  induction hreach with
  | refl => exact h
  | tail hbefore hnext ih =>
    obtain ⟨⟨i, hi⟩, hexclusive⟩ := hnext
    exact inTurn_step ht ih (hP _ hbefore) hi hexclusive

/-- Taking turns is one way to be interleaved. -/
theorem reaches_of_inTurns (h : ReachesInTurns program idle s s') : Reaches program s s' := by
  induction h with
  | refl => exact Relation.ReflTransGen.refl
  | tail _ hnext ih => exact ih.tail hnext.1

theorem InTurn.fault_allowed (ht : Turns program idle I P C J A) (h : InTurn idle C J s)
    (hP : P s.guarded) {f : φ} (hstep : s.step program i = .error (.fault f)) :
    A (s.thread i) s.guarded f := by
  have hfails := step_fails hstep
  have hbusy : ¬ idle (s.thread i) := fun hidle => ht.calm _ _ _ _ hidle hfails
  exact ht.fault _ _ _ _ (h.alone i (h.others hbusy)) hP hfails

/-- A thread that runs alone takes its turn. -/
theorem inTurns_of_run {n : ℕ} (hidle : ∀ j, j ≠ i → idle (s.thread j))
    (h : s.run program (List.replicate n i) = .ok s') : ReachesInTurns program idle s s' := by
  induction n generalizing s with
  | zero =>
    cases h
    exact Relation.ReflTransGen.refl
  | succ n ih =>
    obtain ⟨s₁, hi, hrest⟩ := run_cons h
    have hidle₁ (j : ι) (hj : j ≠ i) : idle (s₁.thread j) := by
      rw [(step_leads hi).2 j hj]
      exact hidle j hj
    refine Relation.ReflTransGen.head ⟨⟨i, hi⟩, fun j l hjl => ?_⟩ (ih hidle₁ hrest)
    by_cases hj : j = i
    · exact Or.inr (hidle₁ l fun hl => hjl (hj.trans hl.symm))
    · exact Or.inl (hidle₁ j hj)

section Effects

variable {σ α : Type*} {shared : τ → σ} {seen : κ → α} {does : σ → α → σ → α → Prop}

/-- A step is none of the atomic machine, or one. -/
theorem InTurn.takes_effect (h : InTurn idle C J s)
    (he : TakesEffect program idle C J shared seen does) (hstep : s.step program i = .ok s')
    (hexclusive : Exclusive idle s') :
    AtomicSystem.Reaches does (s.view shared seen) (s'.view shared seen) := by
  have hmakes := step_makes hstep
  obtain ⟨_, hothers⟩ := step_leads hstep
  have hcase : (shared s'.guarded = shared s.guarded ∧ seen (s'.thread i) = seen (s.thread i)) ∨
      does (shared s.guarded) (seen (s.thread i)) (shared s'.guarded) (seen (s'.thread i)) := by
    by_cases halone : ∀ j, j ≠ i → idle (s.thread j)
    · exact he.busy _ _ _ _ _ _ (h.occurs i) (h.alone i halone) hmakes
    · -- Somebody else is inside an operation, and so this thread stays idle.
      obtain ⟨j, hj⟩ := not_forall.mp halone
      obtain ⟨hji, hbusy⟩ := Classical.not_imp.mp hj
      have hbusy' : ¬ idle (s'.thread j) := by rwa [hothers j hji]
      exact he.idle _ _ _ _ _ _ (h.others hbusy i (Ne.symm hji))
        ((hexclusive i j (Ne.symm hji)).resolve_right hbusy') hmakes
  have hthread (x : α) (hx : seen (s'.thread i) = x) :
      (s'.view shared seen).thread = Function.update (s.view shared seen).thread i x := by
    funext j
    by_cases hj : j = i
    · subst hj
      rw [Function.update_self]
      exact hx
    · rw [Function.update_of_ne hj]
      exact congrArg seen (hothers j hj)
  rcases hcase with ⟨hshared, hseen⟩ | hdoes
  · have hsame : s'.view shared seen = s.view shared seen := by
      have hthreads := hthread _ hseen
      rw [show seen (s.thread i) = (s.view shared seen).thread i from rfl,
        Function.update_eq_self] at hthreads
      show AtomicSystem.mk (shared s'.guarded) (s'.view shared seen).thread = _
      rw [hshared, hthreads]
      rfl
    rw [hsame]
    exact Relation.ReflTransGen.refl
  · exact Relation.ReflTransGen.single ⟨i, _, hdoes, hthread _ rfl⟩

/-- Threads that take turns refine the atomic machine. -/
theorem refines_reaches (ht : Turns program idle I P C J A)
    (he : TakesEffect program idle C J shared seen does) (h : InTurn idle C J s)
    (hP : ∀ s', ReachesInTurns program idle s s' → P s'.guarded)
    (hreach : ReachesInTurns program idle s s') :
    AtomicSystem.Reaches does (s.view shared seen) (s'.view shared seen) := by
  induction hreach with
  | refl => exact Relation.ReflTransGen.refl
  | tail hbefore hnext ih =>
    obtain ⟨⟨i, hi⟩, hexclusive⟩ := hnext
    exact ih.trans ((inTurn_reaches ht h hP hbefore).takes_effect he hi hexclusive)

end Effects

end Rule

end GuardedThreads
