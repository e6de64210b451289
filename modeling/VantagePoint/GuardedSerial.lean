import VantagePoint.GuardedThreads

/-! Threads behind a lock change the guarded state one after another: where a writer's
steps, run by themselves, make up one operation, every interleaving leaves the state
that the operations leave in the order in which the lock was granted. -/
namespace GuardedThreads
open RwLock

universe u v w x y

variable {ι : Type y} {τ : Type u} {υ : Type v} {κ : Type w} {φ : Type x} {O : Type*}

/-- Operations of several threads, one after another. -/
def perform (op : O → τ → Except φ τ) : List (ι × O) → τ → Except φ τ
  | [], t => .ok t
  | p :: order, t => (op p.2 t).bind (perform op order)

/-- The operations of one thread. -/
def operationsOf [DecidableEq ι] (i : ι) (order : List (ι × O)) : List O :=
  (order.filter fun p => p.1 = i).map Prod.snd

/-- What is asked of the programs. `op` are the operations as a whole, `ahead` those a
thread has still to begin, and `rest` what is still to be done of the one a writer is
in. `C` are the local states that occur. -/
structure Atomic (program : κ → Action τ υ κ φ) (share : κ → Lock) (op : O → τ → Except φ τ)
    (ahead : κ → List O) (rest : κ → τ → Except φ τ) (C : κ → Prop) : Prop where
  closed : ∀ k k', C k → (program k).Leads k' → C k'
  acquire : ∀ k k', C k → program k = .acquire .write k' →
    ∃ o, ahead k = o :: ahead k' ∧ ∀ t, rest k' t = op o t
  release : ∀ k k' t, C k → program k = .release .write k' → rest k t = .ok t
  write : ∀ k change t t' k', C k → program k = .write change → change t = .ok (t', k') →
    (share k).writer = true ∧ rest k' t' = rest k t
  writer : ∀ k, C k → (share k).writer = true →
    (∃ change, program k = .write change) ∨ ∃ k', program k = .release .write k'
  ahead : ∀ k k', C k → (program k).Leads k' → program k ≠ .acquire .write k' → ahead k' = ahead k

/-- The state is that of an order of operations; where a writer is at work, it is on
the way there. -/
structure Serial [DecidableEq ι] (share : κ → Lock) (op : O → τ → Except φ τ) (ahead : κ → List O)
    (rest : κ → τ → Except φ τ) (s₀ s : System ι τ υ κ) (order : List (ι × O)) : Prop where
  each : ∀ i, operationsOf i order ++ ahead (s.thread i) = ahead (s₀.thread i)
  quiet : s.lock.writer = false → perform op order s₀.guarded = .ok s.guarded
  busy : ∀ i, (share (s.thread i)).writer = true →
    perform op order s₀.guarded = rest (s.thread i) s.guarded

theorem perform_concat (op : O → τ → Except φ τ) (order : List (ι × O)) (p : ι × O) (t : τ) :
    perform op (order ++ [p]) t = (perform op order t).bind (op p.2) := by
  induction order generalizing t with
  | nil =>
    show (op p.2 t).bind Except.ok = op p.2 t
    cases op p.2 t with
    | error f => rfl
    | ok t' => rfl
  | cons p' order ih =>
    show (op p'.2 t).bind _ = ((op p'.2 t).bind _).bind _
    cases op p'.2 t with
    | error f => rfl
    | ok t' => exact ih t'

section Rule

variable [Fintype ι] [DecidableEq ι] {program : κ → Action τ υ κ φ} {share : κ → Lock}
  {op : O → τ → Except φ τ} {ahead : κ → List O} {rest : κ → τ → Except φ τ} {C : κ → Prop}
  {s₀ s s' : System ι τ υ κ} {order : List (ι × O)} {i : ι}

omit [Fintype ι] in
@[simp] theorem operationsOf_concat_self (o : O) :
    operationsOf i (order ++ [(i, o)]) = operationsOf i order ++ [o] := by
  simp [operationsOf]

omit [Fintype ι] in
theorem operationsOf_concat_ne {j : ι} (o : O) (h : i ≠ j) :
    operationsOf j (order ++ [(i, o)]) = operationsOf j order := by
  simp [operationsOf, h]

omit [Fintype ι] in
/-- A step that begins no operation, by a thread that is no writer. -/
theorem Serial.same {k : κ} (h : Serial share op ahead rest s₀ s order)
    (hk : ahead k = ahead (s.thread i)) (hno : (share k).writer = false)
    (hthread : s'.thread = Function.update s.thread i k) (hlock : s'.lock.writer = s.lock.writer)
    (hguarded : s'.guarded = s.guarded) : Serial share op ahead rest s₀ s' order where
  each j := by
    rw [← h.each j, hthread]
    by_cases hj : j = i
    · subst hj
      rw [Function.update_self, hk]
    · rw [Function.update_of_ne hj]
  quiet hw := by
    rw [hguarded]
    exact h.quiet (hlock ▸ hw)
  busy j hj := by
    rw [hthread] at hj ⊢
    by_cases hji : j = i
    · subst hji
      rw [Function.update_self, hno] at hj
      cases hj
    · rw [Function.update_of_ne hji] at hj ⊢
      rw [hguarded]
      exact h.busy j hj

/-- The step lemma. -/
theorem serial_step (hp : Disciplined program share) (ha : Atomic program share op ahead rest C)
    (hconsistent : Consistent share s) (hC : C (s.thread i))
    (h : Serial share op ahead rest s₀ s order) (hstep : s.step program i = .ok s') :
    ∃ order', Serial share op ahead rest s₀ s' order' := by
  have hafter := consistent_step hp hconsistent hstep
  have hleads := (step_leads hstep).1
  rcases step_cases hstep with ⟨mode, k, l, hact, hl, rfl⟩ | ⟨mode, k, l, hact, hl, rfl⟩ |
    ⟨look, k, hact, hk, rfl⟩ | ⟨change, t, k, hact, hk, rfl⟩ | ⟨set, k, hact, rfl⟩
  · rw [goto_self] at hleads
    cases mode with
    | read =>
      -- no operation begins, and nobody is a writer
      obtain ⟨hw, rfl⟩ := acquire_read hl
      have hnone := hafter.no_writer hw i
      rw [goto_self] at hnone
      exact ⟨order, h.same (ha.ahead _ _ hC hleads (by simp [hact])) hnone rfl rfl rfl⟩
    | write =>
      obtain ⟨hw, _, rfl⟩ := acquire_write hl
      obtain ⟨o, hahead, hrest⟩ := ha.acquire _ _ hC hact
      have hself : (share k).writer = true := by
        rw [hp.acquire _ _ _ hact]
        rfl
      refine ⟨order ++ [(i, o)], ?_, fun hno => (by cases hno), ?_⟩
      · intro j
        by_cases hj : j = i
        · subst hj
          rw [operationsOf_concat_self, goto_self, List.append_assoc, ← h.each j, hahead]
          rfl
        · rw [operationsOf_concat_ne o (Ne.symm hj), goto_ne _ hj]
          exact h.each j
      · intro j hj
        obtain rfl : j = i := hafter.unique j i hj (by rwa [goto_self])
        rw [perform_concat, h.quiet hw, goto_self]
        exact (hrest s.guarded).symm
  · rw [goto_self] at hleads
    have hsame := ha.ahead _ _ hC hleads (by simp [hact])
    cases mode with
    | read =>
      obtain ⟨hpos, rfl⟩ := release_read hl
      have hw : s.lock.writer = false := by
        by_contra hw
        exact hpos (hconsistent.alone (by simpa using hw))
      have hnone := hafter.no_writer hw i
      rw [goto_self] at hnone
      exact ⟨order, h.same hsame hnone rfl rfl rfl⟩
    | write =>
      -- the operation is complete
      obtain ⟨_, rfl⟩ := release_write hl
      have hwriter := (release_write (hp.release _ _ _ hact)).1
      have hdone := (h.busy i hwriter).trans (ha.release _ _ s.guarded hC hact)
      refine ⟨order, ?_, fun _ => hdone, fun j hj => ?_⟩
      swap
      · rw [hafter.no_writer rfl j] at hj
        cases hj
      intro j
      by_cases hj : j = i
      · subst hj
        rw [goto_self, hsame]
        exact h.each j
      · rw [goto_ne _ hj]
        exact h.each j
  · rw [goto_self] at hleads
    refine ⟨order, h.same (ha.ahead _ _ hC hleads (by simp [hact])) ?_ rfl rfl rfl⟩
    rw [hp.other _ _ hleads (by simp [hact]) (by simp [hact])]
    by_contra hw
    rcases ha.writer _ hC (by simpa using hw) with ⟨change, hwrite⟩ | ⟨k', hrelease⟩
    · simp [hact] at hwrite
    · simp [hact] at hrelease
  · rw [goto_self] at hleads
    obtain ⟨hw, hrest⟩ := ha.write _ _ _ _ _ hC hact hk
    have hlock := hconsistent.writer.mpr ⟨i, hw⟩
    have hsame := ha.ahead _ _ hC hleads (by simp [hact])
    refine ⟨order, ?_, fun hno => absurd (hlock.symm.trans hno) (by decide), ?_⟩
    · intro j
      by_cases hj : j = i
      · subst hj
        rw [goto_self, hsame]
        exact h.each j
      · rw [goto_ne _ hj]
        exact h.each j
    · intro j hj
      have hself : (share k).writer = true := by
        rw [hp.other _ _ hleads (by simp [hact]) (by simp [hact])]
        exact hw
      obtain rfl : j = i := hafter.unique j i hj (by rwa [goto_self])
      rw [goto_self, h.busy j hw]
      exact hrest.symm
  · rw [goto_self] at hleads
    refine ⟨order, h.same (ha.ahead _ _ hC hleads (by simp [hact])) ?_ rfl rfl rfl⟩
    rw [hp.other _ _ hleads (by simp [hact]) (by simp [hact])]
    by_contra hw
    rcases ha.writer _ hC (by simpa using hw) with ⟨change, hwrite⟩ | ⟨k', hrelease⟩
    · simp [hact] at hwrite
    · simp [hact] at hrelease

/-- The run lemma: every interleaving is a serial one, as far as the guarded state goes. -/
theorem serial_reaches (hp : Disciplined program share) (ha : Atomic program share op ahead rest C)
    (hconsistent : Consistent share s₀) (hC : ∀ i, C (s₀.thread i)) (hfree : s₀.lock.writer = false)
    (hreach : Reaches program s₀ s) : ∃ order, Serial share op ahead rest s₀ s order := by
  induction hreach with
  | refl => exact ⟨[], fun _ => rfl, fun _ => rfl,
      fun j hj => absurd ((hconsistent.no_writer hfree j).symm.trans hj) (by decide)⟩
  | tail hbefore hstep ih =>
    obtain ⟨i, hi⟩ := hstep
    obtain ⟨order, h⟩ := ih
    exact serial_step hp ha (consistent_reaches hp hconsistent hbefore)
      (closed_reaches ha.closed (hC i) hbefore) h hi

end Rule

end GuardedThreads
