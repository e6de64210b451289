import VantagePoint.GuardedThreads

/-! Threads of which none ever writes. They need no lock: each of them finds the guarded
state as it was at the start, and nothing passes between them but the other state. -/
namespace GuardedThreads
open RwLock

universe u v w x y

variable {ι : Type y} {τ : Type u} {υ : Type v} {κ : Type w} {φ : Type x}

/-- What is asked of the programs, each taken by itself, over a guarded state `t`. `J` is
what a thread may rely on in a local state, and `A` the faults that are put up with. -/
structure Reading (program : κ → Action τ υ κ φ) (t : τ) (J : κ → υ → Prop) (A : κ → φ → Prop) :
    Prop where
  noticed : ∀ k₁ k set k' u, program k₁ = .post set k' → J k u → J k (set u)
  acquire : ∀ k mode k' u, program k = .acquire mode k' → J k u → J k' u
  release : ∀ k mode k' u, program k = .release mode k' → J k u → J k' u
  read : ∀ k look u, program k = .read look → J k u →
    (∀ k', look t u = .ok k' → J k' u) ∧ ∀ f, look t u = .error f → A k f
  write : ∀ k change u, program k = .write change → ¬ J k u
  post : ∀ k set k' u, program k = .post set k' → J k u → J k' (set u)

variable [DecidableEq ι] {program : κ → Action τ υ κ φ} {t : τ} {J : κ → υ → Prop}
  {A : κ → φ → Prop} {s s' : System ι τ υ κ} {i : ι}

/-- The step lemma. -/
theorem reading_step (hr : Reading program t J A) (ht : s.guarded = t)
    (h : ∀ j, J (s.thread j) s.loose) (hstep : s.step program i = .ok s') :
    s'.guarded = t ∧ ∀ j, J (s'.thread j) s'.loose := by
  -- Only the thread itself moves.
  have hmove {k : κ} {u : υ} (hself : J k u) (hothers : ∀ j, J (s.thread j) u) (j : ι) :
      J (Function.update s.thread i k j) u :=
    relied_goto (J := fun k _ u => J k u) (t := t) hself (fun j _ => hothers j) j
  rcases step_cases hstep with ⟨mode, k, l, hact, _, rfl⟩ | ⟨mode, k, l, hact, _, rfl⟩ |
    ⟨look, k, hact, hk, rfl⟩ | ⟨change, t', k, hact, _, rfl⟩ | ⟨set, k, hact, rfl⟩
  · exact ⟨ht, hmove (hr.acquire _ _ _ _ hact (h i)) h⟩
  · exact ⟨ht, hmove (hr.release _ _ _ _ hact (h i)) h⟩
  · rw [ht] at hk
    exact ⟨ht, hmove ((hr.read _ _ _ hact (h i)).1 k hk) h⟩
  · exact absurd (h i) (hr.write _ _ _ hact)
  · exact ⟨ht, hmove (hr.post _ _ _ _ hact (h i)) fun j => hr.noticed _ _ _ _ _ hact (h j)⟩

/-- The run lemma: the rule for threads that never write. -/
theorem reading_reaches (hr : Reading program t J A) (ht : s.guarded = t)
    (h : ∀ j, J (s.thread j) s.loose) (hreach : Reaches program s s') :
    s'.guarded = t ∧ ∀ j, J (s'.thread j) s'.loose := by
  induction hreach with
  | refl => exact ⟨ht, h⟩
  | tail _ hstep ih =>
    obtain ⟨i, hi⟩ := hstep
    exact reading_step hr ih.1 ih.2 hi

theorem reading_fault (hr : Reading program t J A) (ht : s.guarded = t)
    (h : ∀ j, J (s.thread j) s.loose) {f : φ} (hstep : s.step program i = .error (.fault f)) :
    A (s.thread i) f := by
  generalize hact : program (s.thread i) = act
  have hfails := step_fails hstep
  rw [hact, ht] at hfails
  cases hfails with
  | read look _ _ _ hf => exact (hr.read _ _ _ hact (h i)).2 f hf
  | write change _ _ _ _ => exact absurd (h i) (hr.write _ _ _ hact)

end GuardedThreads
