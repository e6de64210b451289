import VantagePoint.BindingExclusion
import Mathlib.Algebra.Order.BigOperators.Group.Multiset

/-! The array of objects, under threads that add to it. `addRebuild` appends to it as a
writer, and in no interleaving is an object lost, doubled or moved. `add` makes a longer
array and stores it as a reader: of two calls at a time one is lost. -/
namespace VantagePoint
open WhileLoop RwLock GuardedThreads

variable {Obj D : Type}

section Additions

/-- The objects a call adds to the array. A call that is refused adds none. -/
def BindingCall.additions : BindingCall Obj D → Multiset (Option Obj)
  | .addRebuild datapoints =>
    match validateArray datapoints with
    | .error _ => 0
    | .ok _ => datapoints
  | .add datapoint => {datapoint}
  | _ => 0

def Pc.additions : Pc Obj D → Multiset (Option Obj)
  | .appending datapoints => datapoints
  | .adding datapoint => {datapoint}
  | _ => 0

/-- The objects a thread has still to add. -/
def BindingThread.additions (th : BindingThread Obj D) : Multiset (Option Obj) :=
  (th.todo.map BindingCall.additions).sum+th.pc.additions

def BindingCall.Pushes : BindingCall Obj D → Prop
  | .add _ => True
  | _ => False

def Pc.Pushes : Pc Obj D → Prop
  | .adding _ => True
  | .storing _ => True
  | _ => False

/-- A thread that never calls `add`. -/
def BindingThread.PushFree (th : BindingThread Obj D) : Prop :=
  (∀ call ∈ th.todo, ¬ call.Pushes) ∧ ¬ th.pc.Pushes

theorem Asks.additions {call : BindingCall Obj D} {mode : Mode} {pc : Pc Obj D}
    (h : Asks call mode pc) : pc.additions = call.additions := by
  cases h with
  | addRebuild datapoints n hv => simp only [Pc.additions, BindingCall.additions, hv]
  | rebuild => rfl
  | allWithin max_dist q => rfl
  | size => rfl
  | add datapoint => rfl

theorem Posts.additions {call : BindingCall Obj D} {q : Obj} {pc : Pc Obj D}
    (h : Posts call q pc) : pc.additions = call.additions := by
  cases h with
  | nn q => rfl
  | knn k q hk => rfl

theorem Refused.additions {call : BindingCall Obj D} (h : Refused call) : call.additions = 0 := by
  cases h with
  | addRebuild datapoints e hv => simp only [BindingCall.additions, hv]
  | knn k q hk => rfl

/-- Only the step that appends takes from what a method is about to append. -/
theorem Pc.Next.additions {pc pc' : Pc Obj D} (h : pc.Next pc') (hpush : ¬ pc.Pushes)
    (happend : ∀ datapoints, pc ≠ .appending datapoints) : pc'.additions = pc.additions := by
  cases h with
  | leave r q acc seen pc' h =>
    rcases h with rfl | rfl
    · rfl
    · rfl
  | push datapoint datapoints => exact absurd trivial hpush
  | append datapoints added => exact absurd rfl (happend datapoints)
  | _ => rfl

theorem Pc.Next.pushes {pc pc' : Pc Obj D} (h : pc.Next pc') (hpush : ¬ pc.Pushes) :
    ¬ pc'.Pushes := by
  cases h with
  | leave r q acc seen pc' h =>
    rcases h with rfl | rfl
    · exact id
    · exact id
  | push datapoint datapoints => exact absurd trivial hpush
  | _ => exact id

theorem Asks.pushes {call : BindingCall Obj D} {mode : Mode} {pc : Pc Obj D}
    (h : Asks call mode pc) (hpush : ¬ call.Pushes) : ¬ pc.Pushes := by
  cases h with
  | add datapoint => exact absurd trivial hpush
  | _ => exact id

theorem Posts.pushes {call : BindingCall Obj D} {q : Obj} {pc : Pc Obj D}
    (h : Posts call q pc) : ¬ pc.Pushes := by
  cases h with
  | _ => exact id

end Additions

section Steps

variable [LinearOrder D] [Zero D] [Add D] [Sub D] {b : Binding Obj D} {t t' : SharedTree Obj D}
  {th th' : BindingThread Obj D}

theorem pushFree_of_leads (hfree : th.PushFree) (h : (b.program th).Leads th') :
    th'.PushFree := by
  obtain ⟨hcalls, hpush⟩ := hfree
  rcases leads_cases b h with ⟨call, todo, hpc, htodo, htodo', _, hcase⟩ | ⟨htodo, hnext, _⟩
  · rw [htodo] at hcalls
    refine ⟨?_, ?_⟩
    · rw [htodo']
      exact fun call' hcall' => hcalls call' (List.mem_cons_of_mem _ hcall')
    · rcases hcase with ⟨mode, hasks⟩ | ⟨q, hposts⟩ | ⟨_, hready⟩
      · exact hasks.pushes (hcalls call List.mem_cons_self)
      · exact hposts.pushes
      · rw [hready]
        exact id
  · exact ⟨htodo ▸ hcalls, hnext.pushes hpush⟩

/-- Whatever a thread does but write, it has the same to add afterwards. -/
theorem additions_of_leads (hfree : th.PushFree) (h : (b.program th).Leads th')
    (hwrite : ∀ change, b.program th ≠ .write change) : th'.additions = th.additions := by
  rcases leads_cases b h with ⟨call, todo, hpc, htodo, htodo', _, hcase⟩ | ⟨htodo, hnext, _⟩
  · have hcall : th'.pc.additions = call.additions := by
      rcases hcase with ⟨mode, hasks⟩ | ⟨q, hposts⟩ | ⟨hrefused, hready⟩
      · exact hasks.additions
      · exact hposts.additions
      · rw [hready, hrefused.additions]
        rfl
    have hready : th.pc.additions = 0 := by
      rw [hpc]
      rfl
    rw [BindingThread.additions, BindingThread.additions, htodo, htodo', hcall, hready,
      List.map_cons, List.sum_cons, add_zero, add_comm]
  · have happend (datapoints : JavaArray Obj) : th.pc ≠ .appending datapoints := by
      intro hpc
      apply hwrite
      simp only [Binding.program, hpc]
      rfl
    rw [BindingThread.additions, BindingThread.additions, htodo, hnext.additions hfree.2 happend]

/-- A write moves what is to be added from the thread to the end of the array. -/
theorem additions_of_write {change : SharedTree Obj D → Except BindingFault (SharedTree Obj D × BindingThread Obj D)}
    (hfree : th.PushFree) (hact : b.program th = .write change) (hk : change t = .ok (t', th')) :
    t.datapoints <+: t'.datapoints ∧
      (t'.datapoints : Multiset (Option Obj))+th'.additions = t.datapoints+th.additions := by
  rcases program_write b hact with ⟨datapoints, hpc, rfl⟩ | ⟨datapoints, hpc, rfl⟩ |
    ⟨added, hpc, rfl⟩ | ⟨block, data, hpc, rfl⟩
  · rw [BindingThread.PushFree, hpc] at hfree
    exact absurd trivial hfree.2
  · cases hk
    refine ⟨List.prefix_append _ _, ?_⟩
    simp only [BindingThread.additions, BindingThread.goto, hpc, Pc.additions, add_zero,
      ← Multiset.coe_add]
    rw [add_assoc, add_comm (datapoints : Multiset (Option Obj))]
  · obtain ⟨call, _, hcall⟩ := (except_map_eq_ok _ _ _).mp hk
    cases hcall
    simp [BindingThread.additions, BindingThread.goto, hpc, Pc.additions]
  · dsimp only at hk
    split at hk
    · obtain ⟨vpt, _, hvpt⟩ := (except_map_eq_ok _ _ _).mp hk
      cases hvpt
      simp [BindingThread.additions, BindingThread.goto, hpc, Pc.additions]
    · cases hk

end Steps

section Interleavings

variable {ι : Type*} [DecidableEq ι] [LinearOrder D] [Zero D] [Add D] [Sub D]
  {b : Binding Obj D} {t : SharedTree Obj D} {calls : ι → List (BindingCall Obj D)}
  {s : System ι (SharedTree Obj D) (Option Obj) (BindingThread Obj D)}

/-- The conservation law of the array. -/
theorem array_total [Fintype ι] (hpush : ∀ i, ∀ call ∈ calls i, ¬ call.Pushes)
    (h : Reaches b.program (launch t calls) s) :
    (s.guarded.datapoints : Multiset (Option Obj))+∑ i, (s.thread i).additions =
      t.datapoints+∑ i, ((calls i).map BindingCall.additions).sum := by
  have htotal := total_reaches (C := BindingThread.PushFree) (f := BindingThread.additions)
    (g := fun t : SharedTree Obj D => (t.datapoints : Multiset (Option Obj)))
    (fun _ _ hfree hleads hwrite => additions_of_leads hfree hleads hwrite)
    (fun _ _ _ _ _ hfree hact hk => (additions_of_write hfree hact hk).2)
    (fun _ _ hfree hleads => pushFree_of_leads hfree hleads) (fun i => ⟨hpush i, id⟩) h
  have hstart (i : ι) :
      ((launch t calls).thread i).additions = ((calls i).map BindingCall.additions).sum :=
    add_zero _
  simp only [hstart] at htotal
  exact htotal

/-- No interleaving makes the array longer than all that is added to it. -/
theorem array_length_le [Fintype ι] (hpush : ∀ i, ∀ call ∈ calls i, ¬ call.Pushes)
    (h : Reaches b.program (launch t calls) s) :
    s.guarded.datapoints.length ≤ t.datapoints.length+
      Multiset.card (∑ i, ((calls i).map BindingCall.additions).sum) := by
  have htotal := congrArg Multiset.card (array_total hpush h)
  simp only [Multiset.card_add, Multiset.coe_card] at htotal
  omega

theorem guestCalls_pushFree (i : Fin 3) : ∀ call ∈ guestCalls i, ¬ call.Pushes := by
  intro call hcall hpush
  cases call with
  | add datapoint =>
    match i with
    | 0 => simp [guestCalls] at hcall
    | 1 => simp [guestCalls] at hcall
    | 2 => simp [guestCalls] at hcall
  | _ => exact hpush

/-- What the read lock of `add` comes to. For every tree and any two objects there is an
interleaving of two calls after which both have returned, and the first object is
nowhere. -/
theorem add_loses (b : Binding Obj D) (t : SharedTree Obj D)
    (calls : ι → List (BindingCall Obj D)) (i j : ι) (o o' : Option Obj)
    (todo todo' : List (BindingCall Obj D)) (hij : i ≠ j) (hi : calls i = .add o :: todo)
    (hj : calls j = .add o' :: todo') :
    ∃ s, Reaches b.program (launch t calls) s ∧ s.thread i = ⟨todo, 0, [], .ready⟩ ∧
      s.thread j = ⟨todo', 0, [], .ready⟩ ∧ s.guarded.datapoints = t.datapoints ++ [o'] := by
  let pusher (pc : Pc Obj D) : BindingThread Obj D := ⟨todo, 0, [], pc⟩
  let pusher' (pc : Pc Obj D) : BindingThread Obj D := ⟨todo', 0, [], pc⟩
  let s₀ := launch t calls
  let s₁ := { s₀ with lock := ⟨1, false⟩ }.goto i (pusher (.adding o))
  let s₂ := { s₁ with lock := ⟨2, false⟩ }.goto j (pusher' (.adding o'))
  -- Both make their array from the same one.
  let s₃ := s₂.goto i (pusher (.storing (t.datapoints ++ [o])))
  let s₄ := s₃.goto j (pusher' (.storing (t.datapoints ++ [o'])))
  let s₅ := { s₄ with guarded := { t with datapoints := t.datapoints ++ [o] } }.goto i
    (pusher (.releasing .read))
  let s₆ := { s₅ with guarded := { t with datapoints := t.datapoints ++ [o'] } }.goto j
    (pusher' (.releasing .read))
  let s₇ := { s₆ with lock := ⟨1, false⟩ }.goto i (pusher .ready)
  let s₈ := { s₇ with lock := ⟨0, false⟩ }.goto j (pusher' .ready)
  have hact₁ : b.program (s₀.thread i) = .acquire .read (pusher (.adding o)) := by
    show b.program ⟨calls i, 0, [], .ready⟩ = _
    rw [hi]
    rfl
  have hact₂ : b.program (s₁.thread j) = .acquire .read (pusher' (.adding o')) := by
    rw [goto_ne _ hij.symm]
    show b.program ⟨calls j, 0, [], .ready⟩ = _
    rw [hj]
    rfl
  have hact₃ : b.program (s₂.thread i) =
      .read fun t _ => .ok (pusher (.storing (t.datapoints ++ [o]))) := by
    rw [goto_ne _ hij, goto_self]
    rfl
  have hact₄ : b.program (s₃.thread j) =
      .read fun t _ => .ok (pusher' (.storing (t.datapoints ++ [o']))) := by
    rw [goto_ne _ hij.symm, goto_self]
    rfl
  have hact₅ : b.program (s₄.thread i) = .write fun t' =>
      .ok ({ t' with datapoints := t.datapoints ++ [o] }, pusher (.releasing .read)) := by
    rw [goto_ne _ hij, goto_self]
    rfl
  have hact₆ : b.program (s₅.thread j) = .write fun t' =>
      .ok ({ t' with datapoints := t.datapoints ++ [o'] }, pusher' (.releasing .read)) := by
    rw [goto_ne _ hij.symm, goto_self]
    rfl
  have hact₇ : b.program (s₆.thread i) = .release .read (pusher .ready) := by
    rw [goto_ne _ hij, goto_self]
    rfl
  have hact₈ : b.program (s₇.thread j) = .release .read (pusher' .ready) := by
    rw [goto_ne _ hij.symm, goto_self]
    rfl
  refine ⟨s₈, ?_, ?_, goto_self _, rfl⟩
  · have h₁ : s₀.step b.program i = .ok s₁ := step_acquire hact₁ rfl
    have h₂ : s₁.step b.program j = .ok s₂ := step_acquire hact₂ rfl
    have h₃ : s₂.step b.program i = .ok s₃ := step_read hact₃ rfl
    have h₄ : s₃.step b.program j = .ok s₄ := step_read hact₄ rfl
    have h₅ : s₄.step b.program i = .ok s₅ := step_write hact₅ rfl
    have h₆ : s₅.step b.program j = .ok s₆ := step_write hact₆ rfl
    have h₇ : s₆.step b.program i = .ok s₇ := step_release hact₇ rfl
    have h₈ : s₇.step b.program j = .ok s₈ := step_release hact₈ rfl
    exact ((((((((Relation.ReflTransGen.refl.tail ⟨i, h₁⟩).tail ⟨j, h₂⟩).tail ⟨i, h₃⟩).tail
      ⟨j, h₄⟩).tail ⟨i, h₅⟩).tail ⟨j, h₆⟩).tail ⟨i, h₇⟩).tail ⟨j, h₈⟩)
  · rw [goto_ne _ hij, goto_self]

/-- A couple comes through two doors. -/
def doors : Fin 2 → List (BindingCall Guest ℤ)
  | 0 => [.add (some (some (3, true)))]
  | 1 => [.add (some (some (3, false))), .size]

theorem add_loses_guests :
    ∃ s, Reaches guestBinding.program (launch guestTree doors) s ∧
      s.thread 0 = ⟨[], 0, [], .ready⟩ ∧ s.thread 1 = ⟨[.size], 0, [], .ready⟩ ∧
      s.guarded.datapoints = guestTree.datapoints ++ [some (some (3, false))] :=
  add_loses guestBinding guestTree doors 0 1 (some (some (3, true))) (some (some (3, false)))
    [] [.size] (by decide) rfl rfl

end Interleavings

end VantagePoint
