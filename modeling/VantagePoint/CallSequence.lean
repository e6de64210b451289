import Mathlib.Data.List.Basic

/-! Sequences of calls on a state, where a call may fail for good. -/
namespace CallSequence

universe u v w

variable {σ : Type u} {κ : Type v} {ε : Type w}

/-- Every call that is made meets `P` in the state it finds. -/
def Each (step : σ → κ → Except ε σ) (P : σ → κ → Prop) : σ → List κ → Prop
  | _, [] => True
  | s, c :: cs => P s c ∧ ∀ s', step s c = .ok s' → Each step P s' cs

variable {step : σ → κ → Except ε σ} {I : σ → Prop} {A P Q : σ → κ → Prop}

theorem each_of_forall (h : ∀ s c, P s c) (s : σ) (cs : List κ) : Each step P s cs := by
  induction cs generalizing s with
  | nil => trivial
  | cons c cs ih => exact ⟨h s c, fun s' _ => ih s'⟩

/-- The rule for exact conditions: if in the states that satisfy `I` a call has
`P` exactly when it has `Q`, and such calls keep `I`, then the calls of a
sequence all have `P` exactly when they all have `Q`. -/
theorem each_iff (hiff : ∀ s c, I s → A s c → (P s c ↔ Q s c))
    (hkeep : ∀ s c s', I s → A s c → Q s c → step s c = .ok s' → I s') (s : σ) (cs : List κ)
    (hI : I s) (hA : Each step A s cs) : Each step P s cs ↔ Each step Q s cs := by
  induction cs generalizing s with
  | nil => exact Iff.rfl
  | cons c cs ih =>
    obtain ⟨hc, hrest⟩ := hA
    constructor
    · rintro ⟨hP, hPs⟩
      have hQ := (hiff s c hI hc).mp hP
      refine ⟨hQ, fun s' hs' => ?_⟩
      exact (ih s' (hkeep s c s' hI hc hQ hs') (hrest s' hs')).mp (hPs s' hs')
    · rintro ⟨hQ, hQs⟩
      refine ⟨(hiff s c hI hc).mpr hQ, fun s' hs' => ?_⟩
      exact (ih s' (hkeep s c s' hI hc hQ hs') (hrest s' hs')).mpr (hQs s' hs')

/-- A condition on the calls alone, where those that meet it do not fail. -/
theorem each_iff_forall {B : κ → Prop}
    (hok : ∀ s c, I s → A s c → B c → ∃ s', step s c = .ok s' ∧ I s') (s : σ) (cs : List κ)
    (hI : I s) (hA : Each step A s cs) : Each step (fun _ c => B c) s cs ↔ ∀ c ∈ cs, B c := by
  induction cs generalizing s with
  | nil => exact ⟨fun _ c hc => absurd hc List.not_mem_nil, fun _ => trivial⟩
  | cons c cs ih =>
    obtain ⟨hc, hrest⟩ := hA
    rw [List.forall_mem_cons]
    constructor
    · rintro ⟨hB, hBs⟩
      obtain ⟨s', hs', hI'⟩ := hok s c hI hc hB
      exact ⟨hB, (ih s' hI' (hrest s' hs')).mp (hBs s' hs')⟩
    · rintro ⟨hB, hBs⟩
      obtain ⟨s', hs', hI'⟩ := hok s c hI hc hB
      refine ⟨hB, fun t ht => ?_⟩
      obtain rfl : s' = t := Except.ok.inj (hs'.symm.trans ht)
      exact (ih s' hI' (hrest s' hs')).mpr hBs

end CallSequence
