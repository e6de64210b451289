import VantagePoint.BindingReaders
import VantagePoint.BindingTermination

/-! The query point is one field for all threads, and no lock guards it. A search that has
the read lock, and the tree to itself, answers for the point that was written last. -/
namespace VantagePoint
open WhileLoop GroupMetric RwLock GuardedThreads

variable {Obj D : Type}

section Alone

variable [LinearOrder D] [Zero D] [Add D] [Sub D] {b : Binding Obj D} {t : SharedTree Obj D}
  {comparing : Option Obj} {r : Request D} {q : Obj} {scan scan' : Scan Obj D r.Acc}

/-- The steps of a search while nobody replaces the query point. -/
def Scan.Alone (b : Binding Obj D) (t : SharedTree Obj D) (q : Obj) :
    Scan Obj D r.Acc → Scan Obj D r.Acc → Prop :=
  Relation.ReflTransGen fun scan scan' => scan.step b r t (some q) = .ok (.inl scan')

/-- A search that is left alone comes to its end, and has measured from `q` only. -/
theorem search_ends (ht : t.Sane b) {w : ℕ ×ₗ WithTop ℕ} (hahead : scan.Ahead t w)
    (h : scan.Follows b t r q) (hseen : ∀ p ∈ scan.seen, p = some q) :
    ∃ scan' acc, Scan.Alone b t q scan scan' ∧ scan'.step b r t (some q) = .ok (.inr acc) ∧
      r.Ended b t q acc scan'.seen ∧ ∀ p ∈ scan'.seen, p = some q := by
  induction w using WellFoundedLT.induction generalizing scan with
  | ind w ih =>
    have hsome : (some q).isSome := rfl
    obtain ⟨next, hstep, hnext⟩ := search_goes_on ht h hsome
    cases next with
    | inr acc => exact ⟨scan, acc, Relation.ReflTransGen.refl, hstep, hnext, hseen⟩
    | inl scan₁ =>
      obtain ⟨w', hlt, hw'⟩ := step_ahead ht.root.1 h hstep hahead
      have hseen₁ (p : Option Obj) (hp : p ∈ scan₁.seen) : p = some q := by
        rcases step_seen hstep hp with hold | hnew
        · exact hseen p hold
        · exact hnew
      obtain ⟨scan', acc, halone, hlast⟩ := ih w' hlt hw' hnext hseen₁
      exact ⟨scan', acc, halone.head hstep, hlast⟩

variable {ι : Type*} [DecidableEq ι]
  {s : System ι (SharedTree Obj D) (Option Obj) (BindingThread Obj D)} {i : ι}
  {th : BindingThread Obj D}

/-- The same for the thread that runs the search. -/
theorem reaches_of_alone {q' : Obj} (hloose : s.loose = some q)
    (h : Scan.Alone b s.guarded q scan scan') :
    Reaches b.program (s.goto i (th.goto (.searching r q' scan)))
      (s.goto i (th.goto (.searching r q' scan'))) := by
  induction h with
  | refl => exact Relation.ReflTransGen.refl
  | @tail scan₁ scan₂ _ hstep ih =>
    obtain ⟨look, hact, hlook⟩ : ∃ look,
        b.program ((s.goto i (th.goto (.searching r q' scan₁))).thread i) = .read look ∧
          look s.guarded s.loose = .ok (th.goto (.searching r q' scan₂)) := by
      rw [goto_self]
      refine ⟨_, rfl, ?_⟩
      show (scan₁.step b r s.guarded s.loose).map _ = _
      rw [hloose, hstep]
      rfl
    have hnext := step_read hact hlook
    rw [goto_goto] at hnext
    exact ih.tail ⟨i, hnext⟩

theorem Posts.program {call : BindingCall Obj D} {pc : Pc Obj D} {todo : List (BindingCall Obj D)}
    (h : Posts call q pc) (hpc : th.pc = .ready) (htodo : th.todo = call :: todo) :
    b.program th = .post (fun _ => some q) { th with todo := todo, pc := pc } := by
  obtain ⟨todo', leaked, returned, pc'⟩ := th
  obtain rfl : pc' = .ready := hpc
  obtain rfl : todo' = call :: todo := htodo
  cases h with
  | nn q => rfl
  | knn k q hk =>
    simp only [Binding.program, BindingThread.enter, not_lt.mpr hk, ↓reduceIte]
    rfl

end Alone

section Interleavings

variable {ι : Type*} [DecidableEq ι] [AddCommGroup D] [LinearOrder D] [IsOrderedAddMonoid D]

/-- A guest looks for the nearest one, and so does somebody from outside. -/
def rivals : Fin 2 → List (BindingCall Guest ℤ)
  | 0 => [.query (.knn 1) (some (1, true))]
  | 1 => [.query .nn none]

end Interleavings

end VantagePoint
