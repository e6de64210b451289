import VantagePoint.GuardedThreads
import Mathlib.Data.DFinsupp.WellFounded

/-! Threads behind a lock come to an end in every interleaving, where each of them,
taken by itself, has a variant: a bound on what it has ahead that its own steps lower,
and that no writer touches while the thread holds nothing. -/
namespace GuardedThreads
open RwLock

universe u v w x y

variable {ι : Type y} {τ : Type u} {υ : Type v} {κ : Type w} {φ : Type x} {W : Type*}

/-- `M k t w` says that in the local state `k` a thread has at most `w` ahead of it. -/
structure Variant [Preorder W] (program : κ → Action τ υ κ φ) (share : κ → Lock) (P : τ → Prop)
    (J : κ → τ → υ → Prop) (M : κ → τ → W → Prop) : Prop where
  stable : ∀ k t t' u w, share k = .free → J k t u → M k t w → M k t' w
  next : ∀ k t u t' u' k' w, J k t u → P t → M k t w → (program k).Makes t u t' u' k' →
    ∃ w' < w, M k' t' w'

variable [Fintype ι] [DecidableEq ι] {program : κ → Action τ υ κ φ} {share : κ → Lock}
  {I P : τ → Prop} {J : κ → τ → υ → Prop} {A : κ → τ → φ → Prop} {M : κ → τ → W → Prop}
  {s s' : System ι τ υ κ} {i j : ι}

/-- A thread that finds the guarded state changed under it holds nothing. -/
theorem free_of_changed (hs : Sound program share I P J A) (h : Safe share I J s)
    (hP : P s.guarded) (hstep : s.step program i = .ok s') (hj : j ≠ i) :
    s'.guarded = s.guarded ∨ share (s.thread j) = .free := by
  rcases step_cases hstep with ⟨mode, k, l, _, _, rfl⟩ | ⟨mode, k, l, _, _, rfl⟩ |
    ⟨look, k, _, _, rfl⟩ | ⟨change, t, k, hact, _, rfl⟩ | ⟨set, k, _, rfl⟩
  · exact Or.inl rfl
  · exact Or.inl rfl
  · exact Or.inl rfl
  · right
    have hw := (hs.write _ _ _ _ hact (h.relied i) hP).1
    exact (h.consistent.free_of_writer hw).2 j hj
  · exact Or.inl rfl

variable [Preorder W]

/-- The step lemma: one bound goes down, and the others stay good. -/
theorem variant_step (hs : Sound program share I P J A) (hv : Variant program share P J M)
    (h : Safe share I J s) (hP : P s.guarded) {w : ι → W}
    (hw : ∀ j, M (s.thread j) s.guarded (w j)) (hstep : s.step program i = .ok s') :
    ∃ w' < w, ∀ j, M (s'.thread j) s'.guarded (w' j) := by
  obtain ⟨wi, hlt, hM⟩ := hv.next _ _ _ _ _ _ _ (h.relied i) hP (hw i) (step_makes hstep)
  refine ⟨Function.update w i wi, update_lt_self_iff.mpr hlt, ?_⟩
  intro j
  by_cases hj : j = i
  · subst hj
    rwa [Function.update_self]
  · rw [Function.update_of_ne hj, (step_leads hstep).2 j hj]
    rcases free_of_changed hs h hP hstep hj with hsame | hfree
    · rw [hsame]
      exact hw j
    · exact hv.stable _ _ _ _ _ hfree (h.relied j) (hw j)

/-- The run lemma: no interleaving goes on for ever. -/
theorem no_endless_run [WellFoundedLT W] (hp : Disciplined program share)
    (hs : Sound program share I P J A) (hv : Variant program share P J M) (h : Safe share I J s)
    (hP : ∀ s', Reaches program s s' → P s'.guarded) {w : ι → W}
    (hw : ∀ j, M (s.thread j) s.guarded (w j)) (run : ℕ → System ι τ υ κ) (hrun : run 0 = s) :
    ∃ n, ∀ i, (run n).step program i ≠ .ok (run (n+1)) := by
  by_contra hno
  have hgo (n : ℕ) : ∃ i, (run n).step program i = .ok (run (n+1)) := by
    by_contra hstop
    exact hno ⟨n, fun i hi => hstop ⟨i, hi⟩⟩
  clear hno
  -- The induction is on the bounds of all threads together.
  induction w using WellFoundedLT.induction generalizing s run with
  | ind w ih =>
    obtain ⟨i, hi⟩ := hgo 0
    rw [hrun] at hi
    have hafter : Reaches program s (run 1) := Relation.ReflTransGen.single ⟨i, hi⟩
    have hPs : P s.guarded := hP s Relation.ReflTransGen.refl
    obtain ⟨w', hlt, hw'⟩ := variant_step hs hv h hPs hw hi
    exact ih w' hlt (safe_step hp hs h hPs hi) (fun s' hs' => hP s' (hafter.trans hs')) hw'
      (fun n => run (n+1)) rfl fun n => hgo (n+1)

end GuardedThreads
