import VantagePoint.BindingSafety
import VantagePoint.GuardedTermination

/-! Every interleaving of the locked methods comes to its end: a search has only the
nodes of its tree before it, and the tree stands still while it goes on. Without range
searches the end is that all calls have returned. -/
namespace VantagePoint
open WhileLoop RwLock GuardedThreads

variable {Obj D : Type}

section Ranks

/-- Steps that a method has still to make at most, a search counted as one. -/
def Pc.rank : Pc Obj D → ℕ
  | .ready => 0
  | .locking _ _ => 5
  | .posting _ _ => 5
  | .starting _ _ => 4
  | .searching _ _ _ => 3
  | .found _ _ _ _ => 2
  | .sizing => 2
  | .adding _ => 3
  | .storing _ => 2
  | .appending _ => 4
  | .tearing _ => 3
  | .building _ _ => 2
  | .releasing _ => 1

def BindingThread.ahead (th : BindingThread Obj D) : ℕ := 6*th.todo.length+th.pc.rank

theorem rank_le (pc : Pc Obj D) : pc.rank ≤ 5 := by
  cases pc with
  | _ => simp [Pc.rank]

/-- A method goes on with its search, or comes nearer to its end. -/
theorem Pc.Next.cases_searching {pc pc' : Pc Obj D} (h : pc.Next pc') :
    (∃ r q scan, pc = .starting r q ∧ pc' = .searching r q scan) ∨
    (∃ r q scan scan', pc = .searching r q scan ∧ pc' = .searching r q scan') ∨
    pc'.rank < pc.rank ∧ ∀ r q scan, pc' ≠ .searching r q scan := by
  cases h with
  | start r q scan => exact Or.inl ⟨r, q, scan, rfl, rfl⟩
  | search r q scan scan' => exact Or.inr (Or.inl ⟨r, q, scan, scan', rfl, rfl⟩)
  | leave r q acc seen pc' h =>
    right; right
    rcases h with rfl | rfl
    · simp [Pc.rank]
    · simp [Pc.rank]
  | _ =>
    right; right
    simp [Pc.rank]

theorem Asks.not_searching {call : BindingCall Obj D} {mode : Mode} {pc : Pc Obj D}
    (h : Asks call mode pc) (r : Request D) (q : Obj) (scan : Scan Obj D r.Acc) :
    pc ≠ .searching r q scan := by
  cases h with
  | _ => simp

theorem Posts.not_searching {call : BindingCall Obj D} {q' : Obj} {pc : Pc Obj D}
    (h : Posts call q' pc) (r : Request D) (q : Obj) (scan : Scan Obj D r.Acc) :
    pc ≠ .searching r q scan := by
  cases h with
  | _ => simp

end Ranks

section Variant

variable [LinearOrder D] [Zero D] [Add D] [Sub D] {b : Binding Obj D} {t t' : SharedTree Obj D}
  {comparing : Option Obj} {th th' : BindingThread Obj D}

/-- What a search has before it: the nodes under those of its stack, and the items of the
node it is at. -/
def Scan.Ahead {σ : Type} (t : SharedTree Obj D) (scan : Scan Obj D σ) (w : ℕ ×ₗ WithTop ℕ) : Prop :=
  ∃ trees, List.Forall₂ t.vpt.arena.PointsTo scan.state.toTraverse trees ∧
    w = toLex (stackWeight trees, scan.node.elim ⊤ fun node => (node.1.length : WithTop ℕ))

/-- The variant of a thread. -/
def BindingThread.Ahead (th : BindingThread Obj D) (t : SharedTree Obj D)
    (w : ℕ ×ₗ ℕ ×ₗ WithTop ℕ) : Prop :=
  ∃ x, w = toLex (th.ahead, x) ∧ ∀ r q scan, th.pc = .searching r q scan → scan.Ahead t x

/-- A search that goes on has less before it. -/
theorem step_ahead {r : Request D} {q : Obj} {scan scan' : Scan Obj D r.Acc}
    (hlive : t.vpt.arena.Live) (hfollows : scan.Follows b t r q)
    (hstep : scan.step b r t comparing = .ok (.inl scan')) {w : ℕ ×ₗ WithTop ℕ}
    (h : scan.Ahead t w) : ∃ w' < w, scan'.Ahead t w' := by
  obtain ⟨⟨acc, toTraverse⟩, node, seen⟩ := scan
  obtain ⟨trees, hstack, rfl⟩ := h
  have hnode := hfollows.node
  unfold Scan.step at hstep
  cases node with
  | none =>
    cases toTraverse with
    | nil => cases hstep
    | cons p rest =>
      obtain ⟨items, _, hscan⟩ := (except_map_eq_ok _ _ _).mp hstep
      cases hscan
      refine ⟨_, ?_, trees, hstack, rfl⟩
      exact Prod.Lex.toLex_lt_toLex.mpr (Or.inr ⟨rfl, WithTop.coe_lt_top _⟩)
  | some node =>
    obtain ⟨pending, measured⟩ := node
    cases pending with
    | cons x pending =>
      obtain ⟨dist, _, hscan⟩ := (except_map_eq_ok _ _ _).mp hstep
      cases hscan
      have hlt : (pending.length : WithTop ℕ) < ((x :: pending).length : ℕ) :=
        WithTop.coe_lt_coe.mpr (Nat.lt_succ_self _)
      refine ⟨_, ?_, trees, hstack, rfl⟩
      exact Prod.Lex.toLex_lt_toLex.mpr (Or.inr ⟨rfl, hlt⟩)
    | nil =>
      obtain ⟨p, rest, hstate, _⟩ := hnode [] measured rfl
      obtain rfl : toTraverse = p :: rest := hstate
      have hsame : SameSearch t.vpt.arena ⟨acc, p :: rest⟩ ⟨acc, trees⟩ := ⟨rfl, hstack⟩
      have hmatch := pointerBody_matches (r.search (measuredDist measured))
        (fun x _ => measuredDist measured x) (-1) hlive hsame
      dsimp only at hstep
      cases hp : (r.search (measuredDist measured)).pointerBody t.vpt.arena
          (fun x _ => measuredDist measured x) (-1) ⟨acc, p :: rest⟩ with
      | error e =>
        rw [hp] at hstep
        cases e with
        | fault f => cases hstep
        | early e => cases hstep
      | ok s =>
        rw [hp] at hstep hmatch
        cases hstep
        cases hu : (r.search (measuredDist measured)).body (fun x _ => measuredDist measured x) (-1)
            ⟨acc, trees⟩ with
        | error e =>
          rw [hu] at hmatch
          exact hmatch.elim
        | ok u =>
          rw [hu] at hmatch
          have hne : trees ≠ [] := by
            rintro rfl
            cases hstack
          refine ⟨_, ?_, u.toTraverse, hmatch.stack, rfl⟩
          exact Prod.Lex.toLex_lt_toLex.mpr (Or.inl (stackWeight_body_lt _ _ _ hne hu))

/-- The steps of a thread lower its variant, and a writer leaves it. -/
theorem binding_variant (b : Binding Obj D) (P : SharedTree Obj D → Prop) :
    Variant b.program BindingThread.share P (BindingThread.Relies b) BindingThread.Ahead where
  stable th t t' comparing w hshare h hw := by
    obtain ⟨x, rfl, _⟩ := hw
    refine ⟨x, rfl, ?_⟩
    intro r q scan hpc
    have hrelies := h.2
    rw [hpc] at hrelies
    rw [BindingThread.share, hpc, Pc.share, if_pos hrelies.1.locked] at hshare
    simp [Lock.free] at hshare
  next th t comparing t' comparing' th' w h hP hw hmakes := by
    obtain ⟨x, rfl, hscan⟩ := hw
    rcases leads_cases b hmakes.leads with ⟨call, todo, hpc, htodo, htodo', _, hcase⟩ |
      ⟨htodo, hnext, _⟩
    · -- A call less.
      have hlt : th'.ahead < th.ahead := by
        have hle := rank_le th'.pc
        simp only [BindingThread.ahead, htodo, htodo', List.length_cons]
        omega
      refine ⟨toLex (th'.ahead, x), Prod.Lex.toLex_lt_toLex.mpr (Or.inl hlt), x, rfl, ?_⟩
      intro r q scan hsearching
      rcases hcase with ⟨mode, hasks⟩ | ⟨q', hposts⟩ | ⟨_, hready⟩
      · exact absurd hsearching (hasks.not_searching r q scan)
      · exact absurd hsearching (hposts.not_searching r q scan)
      · rw [hready] at hsearching
        cases hsearching
    · rcases hnext.cases_searching with ⟨r, q, scan, hpc, hpc'⟩ | ⟨r, q, scan, scan', hpc, hpc'⟩ |
        ⟨hrank, hno⟩
      · -- The search starts at the root.
        obtain ⟨todo, leaked, returned, pc⟩ := th
        obtain rfl : pc = .starting r q := hpc
        obtain ⟨rfl, _, hlook⟩ := hmakes.of_read
        cases hlook
        obtain ⟨_, _, ht⟩ := h.2
        obtain ⟨_, root, hrep, _⟩ := ht.root
        refine ⟨toLex (_, toLex (stackWeight [root], ⊤)),
          Prod.Lex.toLex_lt_toLex.mpr (Or.inl ?_), _, rfl, ?_⟩
        · show 6*todo.length+3 < 6*todo.length+4
          omega
        · rintro r' q' scan' ⟨⟩
          exact ⟨[root], .cons ⟨_, rfl, hrep⟩ .nil, rfl⟩
      · -- The search goes on.
        obtain ⟨todo, leaked, returned, pc⟩ := th
        obtain rfl : pc = .searching r q scan := hpc
        obtain ⟨rfl, _, hlook⟩ := hmakes.of_read
        obtain ⟨next, hstep, rfl⟩ := (except_map_eq_ok _ _ _).mp hlook
        obtain ⟨_, _, ht, hfollows⟩ := h.2
        cases next with
        | inr acc => cases hpc'
        | inl scan'' =>
          obtain ⟨x', hlt, hx'⟩ := step_ahead ht.root.1 hfollows hstep (hscan r q scan rfl)
          refine ⟨toLex (_, x'), Prod.Lex.toLex_lt_toLex.mpr (Or.inr ⟨rfl, hlt⟩), x', rfl, ?_⟩
          rintro r' q' scan₁ ⟨⟩
          exact hx'
      · have hlt : th'.ahead < th.ahead := by
          simp only [BindingThread.ahead, htodo]
          omega
        refine ⟨toLex (th'.ahead, x), Prod.Lex.toLex_lt_toLex.mpr (Or.inl hlt), x, rfl, ?_⟩
        intro r q scan hsearching
        exact absurd hsearching (hno r q scan)

end Variant

section RangeFree

def BindingCall.request : BindingCall Obj D → Option (Request D)
  | .query r _ => some r
  | _ => none

/-- The request a method is about. -/
def Pc.request : Pc Obj D → Option (Request D)
  | .locking r _ => some r
  | .posting r _ => some r
  | .starting r _ => some r
  | .searching r _ _ => some r
  | .found r _ _ _ => some r
  | _ => none

/-- No range search is under way or to come, and no call has returned with its hold. -/
structure BindingThread.RangeFree (th : BindingThread Obj D) : Prop where
  todo : ∀ call ∈ th.todo, ∀ max_dist, call.request ≠ some (.allWithin max_dist)
  pc : ∀ max_dist, th.pc.request ≠ some (.allWithin max_dist)
  leaked : th.leaked = 0

theorem Asks.request {call : BindingCall Obj D} {mode : Mode} {pc : Pc Obj D}
    (h : Asks call mode pc) : pc.request = call.request := by
  cases h with
  | _ => rfl

theorem Posts.request {call : BindingCall Obj D} {q : Obj} {pc : Pc Obj D}
    (h : Posts call q pc) : pc.request = call.request := by
  cases h with
  | _ => rfl

theorem Pc.Next.request {pc pc' : Pc Obj D} (h : pc.Next pc') :
    pc'.request = pc.request ∨ pc'.request = none := by
  cases h with
  | leave r q acc seen pc' h =>
    right
    rcases h with rfl | rfl
    · rfl
    · rfl
  | _ => exact Or.inl rfl

variable [LinearOrder D] [Zero D] [Add D] [Sub D] {b : Binding Obj D} {t : SharedTree Obj D}
  {comparing : Option Obj}

/-- A search for neighbours does not come back with nothing. -/
theorem found_not_empty {r : Request D} {q : Obj} {acc : r.Acc} {seen : List (Option Obj)}
    (h : (Pc.found r q acc seen).Relies b t comparing) (hmax : ∀ x y, b.distFn x y < b.DIST_MAX)
    (hrange : ∀ max_dist, r ≠ .allWithin max_dist) : (r.results acc).isEmpty = false := by
  obtain ⟨hr, _, acc', rfl, _, hcandidate, _⟩ := h
  cases r with
  | nn => exact hr.elim
  | allWithin max_dist => exact absurd rfl (hrange max_dist)
  | knn k =>
    have hlive : KnnState.live acc' ≠ [] := hcandidate hmax hr
    rw [List.isEmpty_eq_false_iff]
    exact fun hnil => hlive (List.map_eq_nil_iff.mp hnil)

variable {ι : Type*} [Fintype ι] [DecidableEq ι]
  {s s' : System ι (SharedTree Obj D) (Option Obj) (BindingThread Obj D)} {i : ι}

theorem rangeFree_step
    (h : Safe BindingThread.share (SharedTree.Sane b) (BindingThread.Relies b) s)
    (hmax : ∀ x y, b.distFn x y < b.DIST_MAX) (hfree : ∀ j, (s.thread j).RangeFree)
    (hstep : s.step b.program i = .ok s') (j : ι) : (s'.thread j).RangeFree := by
  obtain ⟨hleads, hothers⟩ := step_leads hstep
  by_cases hj : j = i
  · subst hj
    obtain ⟨htodo, hpc, hleaked⟩ := hfree j
    rcases leads_cases b hleads with ⟨call, todo, hready, hcall, htodo', hleaked', hcase⟩ |
      ⟨htodo', hnext, hleaked'⟩
    · rw [hcall] at htodo
      refine ⟨?_, ?_, hleaked'.trans hleaked⟩
      · rw [htodo']
        exact fun call' hcall' => htodo call' (List.mem_cons_of_mem _ hcall')
      · have hfirst := htodo call List.mem_cons_self
        rcases hcase with ⟨mode, hasks⟩ | ⟨q, hposts⟩ | ⟨_, hready'⟩
        · rwa [hasks.request]
        · rwa [hposts.request]
        · rw [hready']
          exact fun max_dist hnone => by cases hnone
    · refine ⟨htodo' ▸ htodo, ?_, ?_⟩
      · rcases hnext.request with hsame | hnone
        · rwa [hsame]
        · rw [hnone]
          exact fun max_dist hnone => by cases hnone
      · rcases hleaked' with hsame | ⟨_, r, q, acc, seen, hfound, hempty⟩
        · exact hsame.trans hleaked
        · -- a hold is leaked by range searches only
          have hrelies := (h.relied j).2
          rw [hfound] at hrelies hpc
          have hrange (max_dist : D) (hr : r = .allWithin max_dist) : False :=
            hpc max_dist (congrArg some hr)
          rw [found_not_empty hrelies hmax hrange] at hempty
          cases hempty
  · rw [hothers j hj]
    exact hfree j

end RangeFree

section Interleavings

variable {ι : Type*} [Fintype ι] [DecidableEq ι] [LinearOrder D] [Zero D] [Add D] [Sub D]
  {b : Binding Obj D} {t : SharedTree Obj D} {calls : ι → List (BindingCall Obj D)}
  {s : System ι (SharedTree Obj D) (Option Obj) (BindingThread Obj D)} {i : ι}

/-- Three threads that take turns. -/
def turns : ℕ → System (Fin 3) (SharedTree Guest ℤ) (Option Guest) (BindingThread Guest ℤ)
  | 0 => launch guestTree guestCalls
  | n+1 =>
    match (turns n).step guestBinding.program (Fin.ofNat 3 n) with
    | .ok s => s
    | .error _ => turns n

theorem rangeFree_reaches (w : Workload b t calls) (hmax : ∀ x y, b.distFn x y < b.DIST_MAX)
    (hrange : ∀ i, ∀ call ∈ calls i, ∀ max_dist, call.request ≠ some (.allWithin max_dist))
    (h : Reaches b.program (launch t calls) s) (i : ι) : (s.thread i).RangeFree := by
  induction h generalizing i with
  | refl => exact ⟨hrange i, fun max_dist hnone => (by cases hnone), rfl⟩
  | tail hbefore hstep ih =>
    obtain ⟨j, hj⟩ := hstep
    exact rangeFree_step (w.safe hbefore) hmax ih hj i

/-- The searches for a partner come first, and then the fourth couple. -/
def evening : Fin 2 → List (BindingCall Guest ℤ)
  | 0 => [.query (.knn 2) (some (1, true)), .rebuild]
  | 1 => [.addRebuild ((couples 4).drop 6 |>.map some), .query (.knn 1) none]

theorem evening_guarded (i : Fin 2) : ∀ call ∈ evening i, call.Guarded ∧
    ∀ max_dist, call.request ≠ some (.allWithin max_dist) := by
  intro call hcall
  match i with
  | 0 =>
    rcases List.mem_cons.mp hcall with rfl | hcall
    · exact ⟨trivial, by simp [BindingCall.request]⟩
    · rw [List.mem_singleton.mp hcall]
      exact ⟨trivial, by simp [BindingCall.request]⟩
  | 1 =>
    rcases List.mem_cons.mp hcall with rfl | hcall
    · exact ⟨trivial, by simp [BindingCall.request]⟩
    · rw [List.mem_singleton.mp hcall]
      exact ⟨trivial, by simp [BindingCall.request]⟩

end Interleavings

end VantagePoint
