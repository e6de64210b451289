import Mathlib.Data.Nat.Notation
import Mathlib.Logic.Relation

/-! Loops of the form `while (guard) body`, where the body may leave the loop
early with a value of its own. A run is fuelled; `Reaches` speaks of every
state the loop meets, whatever the fuel. -/
namespace WhileLoop

universe u v

structure Loop (σ : Type u) (ε : Type v) where
  guard : σ → Bool
  body : σ → Except ε σ

section Except

variable {ε : Type v}

theorem except_bind_assoc {β γ δ : Type*} (x : Except ε β) (f : β → Except ε γ)
    (g : γ → Except ε δ) : (x.bind f).bind g = x.bind fun b => (f b).bind g := by
  cases x with
  | error e => rfl
  | ok b => rfl

theorem except_bind_eq_ok {β γ : Type*} (x : Except ε β) (f : β → Except ε γ) (c : γ) :
    x.bind f = .ok c ↔ ∃ b, x = .ok b ∧ f b = .ok c := by
  cases x with
  | error e =>
    constructor
    · intro h
      cases h
    · rintro ⟨b, hb, _⟩
      cases hb
  | ok b =>
    constructor
    · intro h
      exact ⟨b, rfl, h⟩
    · rintro ⟨b', hb, hf⟩
      cases hb
      exact hf

theorem except_map_eq_ok {β γ : Type*} (x : Except ε β) (f : β → γ) (c : γ) :
    x.map f = .ok c ↔ ∃ b, x = .ok b ∧ f b = c := by
  cases x with
  | error e =>
    constructor
    · intro h
      cases h
    · rintro ⟨b, hb, _⟩
      cases hb
  | ok b =>
    constructor
    · intro h
      exact ⟨b, rfl, Except.ok.inj h⟩
    · rintro ⟨b', hb, rfl⟩
      cases hb
      rfl

end Except

variable {σ : Type u} {ε : Type v}

/-- At most `n` passes through the body. -/
def Loop.run (L : Loop σ ε) : ℕ → σ → Except ε σ
  | 0, s => .ok s
  | n+1, s => if L.guard s then (L.body s).bind (L.run n) else .ok s

/-- One pass: the guard holds and the body comes back normally. -/
def Loop.Step (L : Loop σ ε) (s s' : σ) : Prop :=
  L.guard s = true ∧ L.body s = .ok s'

def Loop.Reaches (L : Loop σ ε) : σ → σ → Prop :=
  Relation.ReflTransGen L.Step

theorem run_of_not_guard (L : Loop σ ε) (n : ℕ) (s : σ) (h : L.guard s = false) :
    L.run n s = .ok s := by
  cases n with
  | zero => rfl
  | succ n => simp only [Loop.run, h, Bool.false_eq_true, ↓reduceIte]

theorem run_of_body (L : Loop σ ε) (n : ℕ) (s s' : σ) (h : L.Step s s') :
    L.run (n+1) s = L.run n s' := by
  simp only [Loop.run, h.1, h.2, ↓reduceIte, Except.bind]

theorem run_of_error (L : Loop σ ε) (n : ℕ) (s : σ) (e : ε) (hg : L.guard s = true)
    (hb : L.body s = .error e) : L.run (n+1) s = .error e := by
  simp only [Loop.run, hg, hb, ↓reduceIte, Except.bind]

/-- A loop that has come to its end is not changed by more fuel. -/
theorem run_of_le (L : Loop σ ε) {n m : ℕ} (hle : n ≤ m) (s : σ)
    (hend : ∀ s', L.run n s = .ok s' → L.guard s' = false) : L.run m s = L.run n s := by
  induction n generalizing m s with
  | zero => exact run_of_not_guard L m s (hend s rfl)
  | succ n ih =>
    obtain ⟨m, rfl⟩ : ∃ m', m = m'+1 := ⟨m-1, by omega⟩
    by_cases hg : L.guard s = true
    · cases hb : L.body s with
      | error e => rw [run_of_error L m s e hg hb, run_of_error L n s e hg hb]
      | ok t =>
        rw [run_of_body L m s t ⟨hg, hb⟩, run_of_body L n s t ⟨hg, hb⟩]
        apply ih (by omega)
        intro s' hs'
        exact hend s' (by rw [run_of_body L n s t ⟨hg, hb⟩, hs'])
    · have hg' : L.guard s = false := by simpa using hg
      rw [run_of_not_guard L (m+1) s hg', run_of_not_guard L (n+1) s hg']

/-- A run that comes back normally ends in a state the loop reaches. -/
theorem run_reaches (L : Loop σ ε) (n : ℕ) (s s' : σ) (h : L.run n s = .ok s') :
    L.Reaches s s' := by
  induction n generalizing s with
  -- With no fuel the run stands still.
  | zero =>
    cases h
    exact Relation.ReflTransGen.refl
  | succ n ih =>
    by_cases hg : L.guard s = true
    · cases hb : L.body s with
      | error e =>
        rw [run_of_error L n s e hg hb] at h
        cases h
      | ok t =>
        rw [run_of_body L n s t ⟨hg, hb⟩] at h
        exact Relation.ReflTransGen.head ⟨hg, hb⟩ (ih t h)
    · rw [run_of_not_guard L (n+1) s (by simpa using hg)] at h
      cases h
      exact Relation.ReflTransGen.refl

/-- A run that leaves its body early does so from a state the loop reaches. -/
theorem run_error_reaches (L : Loop σ ε) (n : ℕ) (s : σ) (e : ε) (h : L.run n s = .error e) :
    ∃ t, L.Reaches s t ∧ L.guard t = true ∧ L.body t = .error e := by
  induction n generalizing s with
  -- A run without fuel ends normally.
  | zero => cases h
  | succ n ih =>
    by_cases hg : L.guard s = true
    · cases hb : L.body s with
      | error e' =>
        rw [run_of_error L n s e' hg hb] at h
        cases h
        exact ⟨s, Relation.ReflTransGen.refl, hg, hb⟩
      | ok t =>
        rw [run_of_body L n s t ⟨hg, hb⟩] at h
        obtain ⟨u, hu, hgu, hbu⟩ := ih t h
        exact ⟨u, Relation.ReflTransGen.head ⟨hg, hb⟩ hu, hgu, hbu⟩
    · rw [run_of_not_guard L (n+1) s (by simpa using hg)] at h
      cases h

/-- A loop comes to one end only, however it gets there. -/
theorem eq_of_run_of_reaches (L : Loop σ ε) (n : ℕ) {s s₁ s₂ : σ} (hrun : L.run n s = .ok s₁)
    (h₁ : L.guard s₁ = false) (hreach : L.Reaches s s₂) (h₂ : L.guard s₂ = false) : s₁ = s₂ := by
  induction hreach using Relation.ReflTransGen.head_induction_on generalizing n with
  | refl =>
    rw [run_of_not_guard L n s₂ h₂] at hrun
    exact (Except.ok.inj hrun).symm
  | @head s t hpass _ ih =>
    cases n with
    | zero =>
      cases hrun
      exact absurd (hpass.1.symm.trans h₁) (by decide)
    | succ n =>
      rw [run_of_body L n s t hpass] at hrun
      exact ih n hrun

/-- The invariant rule: what every pass keeps holds in every state reached. -/
theorem reaches_invariant (L : Loop σ ε) (I : σ → Prop)
    (hstep : ∀ s s', I s → L.Step s s' → I s') (s s' : σ) (hs : I s)
    (h : L.Reaches s s') : I s' := by
  induction h with
  | refl => exact hs
  | tail _ hlast ih => exact hstep _ _ ih hlast

/-- The invariant rule under an assumption `P` on the states of the run: the
pass out of a state may use that this state satisfies `P`. -/
theorem reaches_invariant_of (L : Loop σ ε) (I P : σ → Prop)
    (hstep : ∀ s s', I s → P s → L.Step s s' → I s') (s s' : σ) (hs : I s)
    (hP : ∀ t, L.Reaches s t → P t) (h : L.Reaches s s') : I s' := by
  induction h with
  | refl => exact hs
  | tail hprefix hlast ih => exact hstep _ _ ih (hP _ hprefix) hlast

/-- The failure rule: when every pass keeps `I` and lowers the measure, fuel as
large as the measure carries the loop to any state reached, and over an error there. -/
theorem run_error_of_reaches (L : Loop σ ε) (I P : σ → Prop) (μ : σ → ℕ)
    (hstep : ∀ s s', I s → P s → L.Step s s' → I s' ∧ μ s' < μ s)
    (n : ℕ) (s t : σ) (e : ε) (hs : I s) (hP : ∀ u, L.Reaches s u → P u) (ht : L.Reaches s t)
    (hg : L.guard t = true) (hb : L.body t = .error e) (hpos : 0 < μ t) (hn : μ s ≤ n) :
    L.run n s = .error e := by
  induction ht using Relation.ReflTransGen.head_induction_on generalizing n with
  -- The measure is still positive where the loop fails, so one unit of fuel is left.
  | refl =>
    cases n with
    | zero => omega
    | succ n => exact run_of_error L n t e hg hb
  | @head s u hpass hrest ih =>
    obtain ⟨hu, hlt⟩ := hstep s u hs (hP s Relation.ReflTransGen.refl) hpass
    cases n with
    | zero => omega
    | succ n =>
      rw [run_of_body L n s u hpass]
      exact ih n hu (fun v hv => hP v (Relation.ReflTransGen.head hpass hv)) (by omega)

/-- The termination rule: when every pass comes back normally, keeps `I` and
lowers the measure, fuel as large as the measure carries the loop to its end. -/
theorem run_terminates (L : Loop σ ε) (I P : σ → Prop) (μ : σ → ℕ)
    (hstep : ∀ s, I s → P s → L.guard s = true →
      ∃ s', L.body s = .ok s' ∧ I s' ∧ μ s' < μ s)
    (n : ℕ) (s : σ) (hs : I s) (hP : ∀ t, L.Reaches s t → P t) (hn : μ s ≤ n) :
    ∃ s', L.run n s = .ok s' ∧ I s' ∧ L.guard s' = false := by
  induction n generalizing s with
  | zero =>
    -- Measure 0 allows no further pass, so the guard has to be false.
    by_cases hg : L.guard s = true
    · obtain ⟨t, _, _, hlt⟩ := hstep s hs (hP s Relation.ReflTransGen.refl) hg
      omega
    · exact ⟨s, rfl, hs, by simpa using hg⟩
  | succ n ih =>
    by_cases hg : L.guard s = true
    · obtain ⟨t, hb, ht, hlt⟩ := hstep s hs (hP s Relation.ReflTransGen.refl) hg
      obtain ⟨s', hr, hI, hd⟩ := ih t ht
        (fun u hu => hP u (Relation.ReflTransGen.head ⟨hg, hb⟩ hu)) (by omega)
      exact ⟨s', by rw [run_of_body L n s t ⟨hg, hb⟩, hr], hI, hd⟩
    · have hg' : L.guard s = false := by simpa using hg
      exact ⟨s, run_of_not_guard L (n+1) s hg', hs, hg'⟩

section Simulation

variable {τ : Type*} {δ : Type*}

/-- Two computations end alike: both normally or both early, with related values. -/
def Matches (R : σ → τ → Prop) (E : ε → δ → Prop) : Except ε σ → Except δ τ → Prop
  | .ok s, .ok t => R s t
  | .error e, .error d => E e d
  | _, _ => False

/-- The simulation rule: loops whose guards agree and whose bodies end alike in
related states have runs that end alike, whatever the fuel. -/
theorem run_simulates (L : Loop σ ε) (M : Loop τ δ) (R : σ → τ → Prop) (E : ε → δ → Prop)
    (hguard : ∀ s t, R s t → L.guard s = M.guard t)
    (hbody : ∀ s t, R s t → L.guard s = true → Matches R E (L.body s) (M.body t))
    (n : ℕ) (s : σ) (t : τ) (h : R s t) : Matches R E (L.run n s) (M.run n t) := by
  induction n generalizing s t with
  | zero => exact h
  | succ n ih =>
    by_cases hg : L.guard s = true
    · have hg' : M.guard t = true := by rw [← hguard s t h, hg]
      have hmatch := hbody s t h hg
      cases hb : L.body s with
      | error e =>
        cases hb' : M.body t with
        | error d =>
          rw [run_of_error L n s e hg hb, run_of_error M n t d hg' hb']
          rwa [hb, hb'] at hmatch
        -- one body goes on while the other ends early: excluded by `Matches`
        | ok t' =>
          rw [hb, hb'] at hmatch
          exact hmatch.elim
      | ok s' =>
        cases hb' : M.body t with
        | error d =>
          rw [hb, hb'] at hmatch
          exact hmatch.elim
        | ok t' =>
          rw [run_of_body L n s s' ⟨hg, hb⟩, run_of_body M n t t' ⟨hg', hb'⟩]
          rw [hb, hb'] at hmatch
          exact ih s' t' hmatch
    · have hg₀ : L.guard s = false := by simpa using hg
      have hg' : M.guard t = false := by rw [← hguard s t h, hg₀]
      rw [run_of_not_guard L (n+1) s hg₀, run_of_not_guard M (n+1) t hg']
      exact h

end Simulation

end WhileLoop
