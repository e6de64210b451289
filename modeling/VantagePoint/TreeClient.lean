import VantagePoint.KNearestExact
import VantagePoint.NearestAgreement
import VantagePoint.MemoryLedger

/-! A client of the library: it builds a tree, and from then on makes queries and
calls that rebuild the tree, in any order. To the client the tree is the multiset
of the items supplied so far, and a query is a scan of it. -/
namespace VantagePoint
open WhileLoop GroupMetric BlockLedger

universe u v

variable {α : Type u} {D : Type v}

section Code

inductive ClientOp (α : Type u) (D : Type v) where
  | life (op : LifeOp α)
  | query (query : Query α D)

/-- The items a call supplies. -/
def ClientOp.supplied : ClientOp α D → List α
  | .life op => op.supplied
  | .query _ => []

/-- The call, where it rebuilds the tree. -/
def ClientOp.lifeOp : ClientOp α D → Option (LifeOp α)
  | .life op => some op
  | .query _ => none

/-- How a call goes wrong: a rebuild does, or a query leaves the memory of the tree,
or its loop is still running. -/
inductive ClientFault where
  | tree (error : TreeError)
  | memory (fault : MemoryFault)
  | running
deriving DecidableEq, Repr

/-- Passes through the loop of a query that are enough for `size` items. -/
def queryFuel (size : ℕ) : ℕ := 2*size+1

variable [LinearOrder D] [Add D] [Sub D]

/-- The calls one after the other: the tree they leave, and the answers. -/
def runClient (env : BuildEnv α D) (DIST_MAX : D) (t : VPTree α D) :
    List (ClientOp α D) → Except ClientFault (VPTree α D × List (Answer α D))
  | [] => .ok (t, [])
  | .life op :: ops =>
    ((op.apply env t).mapError .tree).bind fun t => runClient env DIST_MAX t ops
  | .query query :: ops =>
    ((t.query env.distFn DIST_MAX (queryFuel t.size) query).mapError .memory).bind fun
    | none => .error .running
    | some answer =>
      (runClient env DIST_MAX t ops).bind fun (t, answers) => .ok (t, answer :: answers)

end Code

section Purpose

variable [LinearOrder D]

/-- What `VPT_knn` is good for: stored points with their true distances in ascending
order, at most `min(k, size)` of them, and the nearest point of all in front. -/
structure KnnSound (dist : α → D) (k : ℕ) (stored : List α) (result : List (VPEntry α D) × ℕ) :
    Prop where
  length : result.1.length = result.2
  count : result.2 ≤ min k stored.length
  ascending : SortedByDistance result.1
  subperm : (result.1.map VPEntry.item).Subperm stored
  distances : ∀ e ∈ result.1, e.distance = dist e.item
  nearest : 1 ≤ k → ∀ x ∈ stored, ∃ e rest, result.1 = e :: rest ∧ e.distance ≤ dist x

theorem KnnSound.perm {dist : α → D} {k : ℕ} {xs ys : List α} {result : List (VPEntry α D) × ℕ}
    (hp : xs.Perm ys) (h : KnnSound dist k xs result) : KnnSound dist k ys result where
  length := h.length
  count := hp.length_eq ▸ h.count
  ascending := h.ascending
  subperm := h.subperm.trans hp.subperm
  distances := h.distances
  nearest hk x hx := h.nearest hk x (hp.mem_iff.mpr hx)

/-- The answer is that of a scan of the items `xs`. `VPT_all_within` may fail, but
not if it is given all the memory it asks for. -/
def ScanAnswer (dist_fn : α → α → D) (DIST_MAX : D) (xs : List α) :
    Query α D → Answer α D → Prop
  | .nn q, .nn c =>
    (xs = [] ∧ c = ⟨none, DIST_MAX⟩) ∨
      ∃ x ∈ xs, c = ⟨some x, dist_fn x q⟩ ∧ ∀ y ∈ xs, dist_fn x q ≤ dist_fn y q
  | .knn q k, .knn result => KnnSound (fun x => dist_fn x q) k xs result
  | .allWithin q max_dist buffer realloc, .allWithin result =>
    (result.1 = true → result.2.accepted.Perm (matchesOf (fun x => dist_fn x q) max_dist xs) ∧
      result.2.numResults = (matchesOf (fun x => dist_fn x q) max_dist xs).length) ∧
    (buffer.isSome → (∀ i, (realloc i).isSome) → result.1 = true)
  | _, _ => False

/-- The answers to the queries of `ops`, each a scan of the items supplied by then. -/
def ScanAnswers (dist_fn : α → α → D) (DIST_MAX : D) :
    List α → List (ClientOp α D) → List (Answer α D) → Prop
  | _, [], answers => answers = []
  | xs, .life op :: ops, answers => ScanAnswers dist_fn DIST_MAX (xs ++ op.supplied) ops answers
  | xs, .query query :: ops, answers =>
    ∃ answer rest, answers = answer :: rest ∧ ScanAnswer dist_fn DIST_MAX xs query answer ∧
      ScanAnswers dist_fn DIST_MAX xs ops rest

end Purpose

section Fuel

variable [LinearOrder D] [Add D] [Sub D]

omit [LinearOrder D] [Add D] [Sub D] in
theorem nodeCount_le (t : VPNode α D) : t.nodeCount ≤ queryFuel t.items.length := by
  unfold queryFuel
  induction t with
  | pointlist xs => simp [VPNode.nodeCount]
  | branch v r left right ihl ihr =>
    simp only [VPNode.nodeCount, items_branch, List.length_cons, List.length_append]
    omega

/-- A query that has come to an end is not changed by more fuel. -/
theorem search_of_le {σ ε : Type*} {m : Arena α D} {S : Search α D σ ε} {dist_fn : α → α → D}
    {q : α} {root : NodePtr} {n fuel : ℕ} {acc : σ} {atEnd : σ → Answer α D}
    {atReturn : ε → Answer α D} {answer : Answer α D} (hle : n ≤ fuel)
    (h : m.search S dist_fn q root n acc atEnd atReturn = .ok (some answer)) :
    m.search S dist_fn q root fuel acc atEnd atReturn = .ok (some answer) := by
  rw [← h]
  unfold Arena.search
  rw [run_of_le (S.pointerLoop m dist_fn q) hle]
  intro s hs
  obtain ⟨acc', ps⟩ := s
  cases ps with
  | nil => rfl
  | cons p ps =>
    rw [Arena.search, hs] at h
    cases h

theorem query_of_le {dist_fn : α → α → D} {DIST_MAX : D} {t : VPTree α D} {n fuel : ℕ}
    {query : Query α D} {answer : Answer α D} (hle : n ≤ fuel)
    (h : t.query dist_fn DIST_MAX n query = .ok (some answer)) :
    t.query dist_fn DIST_MAX fuel query = .ok (some answer) := by
  cases query with
  | nn q => exact search_of_le hle h
  | knn q k =>
    rw [VPTree.query] at h ⊢
    by_cases hnone : t.size = 0 ∨ k = 0
    · rwa [if_pos hnone] at h ⊢
    · rw [if_neg hnone] at h ⊢
      exact search_of_le hle h
  | allWithin q max_dist buffer realloc =>
    cases buffer with
    | none => exact h
    | some address => exact search_of_le hle h

end Fuel

section Answers

theorem growIfFull_granted {realloc : ℕ → Option ℕ} (h : ∀ i, (realloc i).isSome)
    (s : WithinState α D) : ∃ s', growIfFull realloc s = .ok s' := by
  unfold growIfFull
  obtain ⟨address, haddress⟩ := Option.isSome_iff_exists.mp (h s.reallocs)
  rw [haddress]
  split
  · exact ⟨_, rfl⟩
  · exact ⟨_, rfl⟩

variable [LinearOrder D]

theorem considerWithin_granted {realloc : ℕ → Option ℕ} (h : ∀ i, (realloc i).isSome)
    (max_dist : D) (s : WithinState α D) (x : α) (d : D) :
    ∃ s', considerWithin realloc max_dist s x d = .ok s' := by
  unfold considerWithin
  by_cases hd : d ≤ max_dist
  · obtain ⟨s', hs'⟩ := growIfFull_granted h s
    rw [if_pos hd, hs']
    exact ⟨_, rfl⟩
  · rw [if_neg hd]
    exact ⟨_, rfl⟩

theorem withinList_granted {realloc : ℕ → Option ℕ} (h : ∀ i, (realloc i).isSome)
    (dist_fn : α → α → D) (q : α) (max_dist : D) (xs : List α) (s : WithinState α D) :
    ∃ s', withinList realloc dist_fn q max_dist xs s = .ok s' := by
  induction xs generalizing s with
  | nil => exact ⟨s, rfl⟩
  | cons x xs ih =>
    obtain ⟨s₁, hs₁⟩ := considerWithin_granted h max_dist s x (dist_fn x q)
    obtain ⟨s', hs'⟩ := ih s₁
    exact ⟨s', by rw [withinList, hs₁, Except.bind, hs']⟩

/-- With memory for every doubling a range search succeeds. -/
theorem vptAllWithin_granted [Add D] [Sub D] {realloc : ℕ → Option ℕ} {buffer : Option ℕ}
    (hbuffer : buffer.isSome) (h : ∀ i, (realloc i).isSome) (dist_fn : α → α → D)
    (t : VPNode α D) (q : α) (max_dist : D) :
    (vptAllWithin buffer realloc dist_fn t q max_dist).1 = true := by
  obtain ⟨address, rfl⟩ := Option.isSome_iff_exists.mp hbuffer
  have hrun := loop_run_start (withinSearch realloc dist_fn q max_dist) dist_fn q
    (withinStart (some address)) t
  have hvisit : BothOk (fun _ _ => True)
      ((withinSearch realloc dist_fn q max_dist).visit dist_fn q t (withinStart (some address)))
      ((withinSearch realloc dist_fn q max_dist).visit dist_fn q t (withinStart (some address))) := by
    apply visit_simulates
    · intro a b _
      rfl
    · intro a b v _ _
      obtain ⟨a', ha'⟩ := considerWithin_granted h max_dist a v (dist_fn v q)
      obtain ⟨b', hb'⟩ := considerWithin_granted h max_dist b v (dist_fn v q)
      exact ⟨a', b', ha', hb', trivial⟩
    · intro a b xs _ _
      obtain ⟨a', ha'⟩ := withinList_granted h dist_fn q max_dist xs a
      obtain ⟨b', hb'⟩ := withinList_granted h dist_fn q max_dist xs b
      exact ⟨a', b', ha', hb', trivial⟩
    · trivial
  obtain ⟨s, _, hs, _, _⟩ := hvisit
  rw [hs] at hrun
  simp only [vptAllWithin, hrun, Except.map]

end Answers

section Scan

variable [AddCommGroup D] [LinearOrder D] [IsOrderedAddMonoid D] {dist_fn : α → α → D}
  {DIST_MAX : D} {t : VPNode α D} {xs : List α}

/-- `VPT_knn` is sound for every `k`, also where it misses points it should return. -/
theorem vptKnn_sound (hd : IsMetric dist_fn) (ht : t.Ordered dist_fn) (q : α)
    (hmax : ∀ x ∈ t.items, dist_fn x q < DIST_MAX) (k : ℕ) :
    KnnSound (fun x => dist_fn x q) k t.items
      (vptKnn dist_fn DIST_MAX t t.items.length q k) := by
  by_cases hnone : t.items.length = 0 ∨ k = 0
  · rw [vptKnn, if_pos hnone]
    refine ⟨rfl, Nat.zero_le _, List.Pairwise.nil, List.nil_subperm, ?_, ?_⟩
    · intro e he
      exact absurd he List.not_mem_nil
    · intro hk x hx
      have hlen := List.length_pos_of_mem hx
      omega
  · have hne : t.items ≠ [] := fun h => hnone (Or.inl (by rw [h, List.length_nil]))
    have hk : 0 < k := Nat.pos_of_ne_zero fun h => hnone (Or.inr h)
    obtain ⟨s, P, Z, hret, hI, hperm⟩ := vptKnn_ends hk q hd t ht hne hmax
    obtain ⟨s', hvisit, hret'⟩ := knn_loop_ends dist_fn DIST_MAX t hne q hk
    obtain ⟨_, hcov⟩ := knn_visit_covers hk hd q t ht hmax _ s' (tauOfLive_start DIST_MAX) hvisit
    have hlive : s'.live = s.live := congrArg Prod.fst (hret'.symm.trans hret)
    have hpushed : (P.map VPEntry.item).Subperm t.items := by
      apply List.Subperm.trans _ hperm.subperm
      rw [List.append_assoc]
      exact (List.sublist_append_left _ _).subperm
    rw [hret]
    have hreturned : (s.live.map VPEntry.item).Subperm (P.map VPEntry.item) := by
      obtain ⟨l, hl, hsub⟩ := hI.sub
      exact ⟨_, hl.map VPEntry.item, hsub.map VPEntry.item⟩
    refine ⟨?_, ?_, hI.sorted, hreturned.trans hpushed, ?_, ?_⟩
    · rw [hI.live_length, hI.size]
    · have hlen := hpushed.length_le
      rw [List.length_map] at hlen
      show s.knnlistSize ≤ min k t.items.length
      rw [hI.size]
      omega
    · intro e he
      exact hI.distances e (hI.sub.subset he)
    · -- The entry that covers a point is no nearer than the first.
      intro _ x hx
      obtain ⟨f, hf, hfx⟩ := hcov.new x hx
      have hsorted := hI.sorted
      rw [hlive] at hf
      show ∃ e rest, s.live = e :: rest ∧ e.distance ≤ dist_fn x q
      cases hl : s.live with
      | nil =>
        rw [hl] at hf
        exact absurd hf List.not_mem_nil
      | cons e rest =>
        rw [hl] at hf hsorted
        refine ⟨e, rest, rfl, le_trans ?_ hfx⟩
        rcases List.mem_cons.mp hf with rfl | hf
        · exact le_rfl
        · exact List.rel_of_pairwise_cons hsorted hf

/-- Every query of an ordered tree is answered as a scan of its items. -/
theorem answer_scan (hd : IsMetric dist_fn) (ht : t.Ordered dist_fn) (hp : t.items.Perm xs)
    (hmax : ∀ x ∈ xs, ∀ q, dist_fn x q < DIST_MAX) (query : Query α D) :
    ScanAnswer dist_fn DIST_MAX xs query (t.answer dist_fn DIST_MAX xs.length query) := by
  have hmaxt (q : α) : ∀ x ∈ t.items, dist_fn x q < DIST_MAX :=
    fun x hx => hmax x (hp.mem_iff.mp hx) q
  cases query with
  | nn q =>
    show (xs = [] ∧ vptNn dist_fn DIST_MAX t q = _) ∨ ∃ x ∈ xs, vptNn dist_fn DIST_MAX t q = _ ∧ _
    by_cases hne : t.items = []
    · left
      have hxs : xs = [] := by
        rw [hne] at hp
        exact List.nil_perm.mp hp
      refine ⟨hxs, ?_⟩
      have hn := nn_visit_nearest hd q t ht _ _ (nn_loop_ends dist_fn DIST_MAX t q).2
      rcases hn.origin with he | ⟨x, hx, _⟩
      · exact he
      · rw [hne] at hx
        exact absurd hx List.not_mem_nil
    · right
      obtain ⟨x, hx, hnn, hnearest⟩ := vptNn_eq_nearest hd DIST_MAX t ht hne q (hmaxt q)
      refine ⟨x, hp.mem_iff.mp hx, hnn, ?_⟩
      intro y hy
      exact hnearest y (hp.mem_iff.mpr hy)
  | knn q k =>
    have hsound := vptKnn_sound hd ht q (hmaxt q) k
    rw [hp.length_eq] at hsound
    exact hsound.perm hp
  | allWithin q max_dist buffer realloc =>
    show ((vptAllWithin buffer realloc dist_fn t q max_dist).1 = true → _) ∧ _
    refine ⟨?_, fun hbuffer h => vptAllWithin_granted hbuffer h dist_fn t q max_dist⟩
    intro htrue
    obtain ⟨s, hv, hs⟩ := vptAllWithin_true htrue
    have hscan := within_visit_scanned hd q max_dist realloc t ht _ s hv
    have hmatches : (matchesOf (fun x => dist_fn x q) max_dist t.items).Perm
        (matchesOf (fun x => dist_fn x q) max_dist xs) := (hp.filter _).map _
    show (vptAllWithin buffer realloc dist_fn t q max_dist).2.accepted.Perm _ ∧
      (vptAllWithin buffer realloc dist_fn t q max_dist).2.numResults = _
    rw [hs]
    constructor
    · apply List.Perm.trans _ hmatches
      simpa [WithinState.accepted, withinStart] using hscan.accepted
    · rw [← hmatches.length_eq]
      simpa [withinStart] using hscan.counted

end Scan

section Run

/-- A tree in memory from which the items `xs` are served: intact, with live chunks,
and representing an ordered tree of the items. -/
structure Serves [LinearOrder D] (env : BuildEnv α D) (t : VPTree α D) (xs : List α) : Prop where
  intact : Intact t xs
  accounts : t.arena.Accounts env.ok []
  ordered : ∃ root, t.arena.Represents root t.root ∧ root.items.Perm xs ∧
    root.Ordered env.distFn

section Build

variable [LinearOrder D] {env : BuildEnv α D} {arena : Arena α D} {data xs : List α}
  {t : VPTree α D}

theorem Serves.perm (h : Serves env t xs) {ys : List α} (hp : xs.Perm ys) : Serves env t ys := by
  obtain ⟨root, hrep, hitems, hordered⟩ := h.ordered
  exact ⟨h.intact.perm hp, h.accounts, root, hrep, hitems.trans hp, hordered⟩

/-- The chunks of a tree that is served are live. -/
theorem Serves.live (h : Serves env t xs) : t.arena.Live :=
  fun _ hi => Settled.live h.accounts hi

variable (arena) in
theorem vptBuild_ordered_root (hsize : data.length < sizeT) (hok : ∀ i, env.ok i = true)
    (hbig : env.Bounded) (hcomm : ∀ x y, env.distFn x y = env.distFn y x)
    (hin : SplitsInside env arena data) (hbuild : vptBuild env arena data = .ok t) :
    ∃ root, t.arena.Represents root t.root ∧ root.items.Perm data ∧ root.Ordered env.distFn := by
  obtain ⟨t', hbuild', hb⟩ := vptBuild_built arena hsize hok hbig hin
  obtain rfl : t = t' := Except.ok.inj (hbuild.symm.trans hbuild')
  obtain ⟨hitems, hordered⟩ := buildTree_spec hbig data
  exact ⟨buildTree env data, hb.represents, hitems, hordered hcomm⟩

variable (arena) in
theorem vptBuild_serves (hsize : data.length < sizeT) (hok : ∀ i, env.ok i = true)
    (hbig : env.Bounded) (hcomm : ∀ x y, env.distFn x y = env.distFn y x)
    (hin : SplitsInside env arena data) (hstart : Settled env.ok arena.requests [] arena.freed) :
    ∃ t, vptBuild env arena data = .ok t ∧ Serves env t data := by
  obtain ⟨t, hbuild, hintact⟩ := vptBuild_intact arena hsize hok hbig hin
  exact ⟨t, hbuild, hintact, vptBuild_accounts hstart hbuild,
    vptBuild_ordered_root arena hsize hok hbig hcomm hin hbuild⟩

/-- Both calls that rebuild a tree end in a build of what was in it and what they
supply. -/
theorem LifeOp.call_intact (hok : ∀ i, env.ok i = true) (h : Intact t xs) (op : LifeOp α) :
    ∃ call, op.call env t = .ok call ∧ call.data.Perm (xs ++ op.supplied) ∧
      op.apply env t = call.finish env := by
  cases op with
  | rebuild =>
    obtain ⟨call, hcall, hp⟩ := rebuildCall_intact hok h
    refine ⟨call, hcall, by rwa [LifeOp.supplied, List.append_nil], ?_⟩
    simp only [LifeOp.apply, vptRebuild, hcall, Except.bind]
  | addRebuild toAdd =>
    obtain ⟨call, hcall, hp⟩ := addRebuildCall_intact hok h toAdd
    refine ⟨call, hcall, hp, ?_⟩
    simp only [LifeOp.apply, vptAddRebuild, hcall, Except.bind]

/-- The second half of a rebuild: a tree that serves the items in the block. -/
theorem finish_serves (hok : ∀ i, env.ok i = true) (hbig : env.Bounded)
    (hcomm : ∀ x y, env.distFn x y = env.distFn y x) {call : BuildCall α D}
    (hp : call.data.Perm xs) (hsize : xs.length < sizeT)
    (hin : SplitsInside env call.arena call.data)
    (hsettled : Settled env.ok call.arena.requests [call.block] call.arena.freed) :
    ∃ t, call.finish env = .ok t ∧ Serves env t xs := by
  have hlen : call.data.length < sizeT := by rwa [hp.length_eq]
  obtain ⟨t, hbuild, hintact⟩ := vptBuild_intact call.arena hlen hok hbig hin
  obtain ⟨root, hrep, hitems, hordered⟩ :=
    vptBuild_ordered_root call.arena hlen hok hbig hcomm hin hbuild
  have hfinish : call.finish env = .ok { t with arena := t.arena.free call.block } := by
    simp only [BuildCall.finish, hbuild, Except.bind]
  exact ⟨_, hfinish, (hintact.free call.block).perm hp, finish_accounts hsettled hfinish, root,
    hrep.keeps (Arena.Keeps.free _ _), hitems.trans hp, hordered⟩

theorem apply_serves (hok : ∀ i, env.ok i = true) (hbig : env.Bounded)
    (hcomm : ∀ x y, env.distFn x y = env.distFn y x) (h : Serves env t xs) (op : LifeOp α)
    (hsize : (xs ++ op.supplied).length < sizeT)
    (hin : ∀ (m : Arena α D) ys, ys.Perm (xs ++ op.supplied) → SplitsInside env m ys) :
    ∃ t', op.apply env t = .ok t' ∧ Serves env t' (xs ++ op.supplied) := by
  obtain ⟨call, hcall, hp, happly⟩ := LifeOp.call_intact hok h.intact op
  rw [happly]
  exact finish_serves hok hbig hcomm hp hsize (hin call.arena call.data hp)
    (LifeOp.call_settled h.accounts hcall)

end Build

variable [AddCommGroup D] [LinearOrder D] [IsOrderedAddMonoid D] {env : BuildEnv α D}
  {DIST_MAX : D} {t : VPTree α D} {xs : List α}

/-- Every query of a tree that is served comes to its end within the fuel, and is
answered as a scan of the items. -/
theorem query_serves (hd : IsMetric env.distFn) (h : Serves env t xs)
    (hmax : ∀ x q, env.distFn x q < DIST_MAX) (query : Query α D) :
    ∃ answer, t.query env.distFn DIST_MAX (queryFuel t.size) query = .ok (some answer) ∧
      ScanAnswer env.distFn DIST_MAX xs query answer := by
  obtain ⟨root, hrep, hitems, hordered⟩ := h.ordered
  have hfuel : root.nodeCount ≤ queryFuel t.size := by
    have hle := nodeCount_le root
    rwa [hitems.length_eq, ← h.intact.size] at hle
  have hscan := answer_scan hd hordered hitems (fun x _ q => hmax x q) query
  rw [← h.intact.size] at hscan
  exact ⟨_, query_of_le hfuel (query_represents env.distFn DIST_MAX h.live hrep query), hscan⟩

/-- The run lemma. -/
theorem runClient_serves (hd : IsMetric env.distFn) (hok : ∀ i, env.ok i = true)
    (hbig : env.Bounded) (hmax : ∀ x q, env.distFn x q < DIST_MAX) (ops : List (ClientOp α D))
    (h : Serves env t xs) (hsize : (xs ++ ops.flatMap ClientOp.supplied).length < sizeT)
    (hin : ∀ done, done <+: ops → ∀ (m : Arena α D) (ys : List α),
      ys.Perm (xs ++ done.flatMap ClientOp.supplied) → SplitsInside env m ys) :
    ∃ t' answers, runClient env DIST_MAX t ops = .ok (t', answers) ∧
      Serves env t' (xs ++ ops.flatMap ClientOp.supplied) ∧
      ScanAnswers env.distFn DIST_MAX xs ops answers := by
  -- Induction on the calls, with the tree that each one leaves.
  induction ops generalizing t xs with
  | nil =>
    refine ⟨t, [], rfl, ?_, rfl⟩
    rwa [List.flatMap_nil, List.append_nil]
  | cons op ops ih =>
    rw [List.flatMap_cons, ← List.append_assoc] at hsize ⊢
    have hrest : ∀ done, done <+: ops → ∀ (m : Arena α D) (ys : List α),
        ys.Perm (xs ++ op.supplied ++ done.flatMap ClientOp.supplied) →
          SplitsInside env m ys := by
      intro done hdone m ys hys
      apply hin (op :: done) ((List.prefix_cons_inj op).mpr hdone) m ys
      rwa [List.flatMap_cons, ← List.append_assoc]
    cases op with
    | life op =>
      have hop : (xs ++ op.supplied).length < sizeT := by
        rw [List.length_append] at hsize
        exact lt_of_le_of_lt (Nat.le_add_right _ _) hsize
      have hfirst (m : Arena α D) (ys : List α) (hys : ys.Perm (xs ++ op.supplied)) :
          SplitsInside env m ys := by
        apply hin [.life op] ((List.prefix_cons_inj _).mpr List.nil_prefix) m ys
        rwa [List.flatMap_singleton]
      obtain ⟨t₁, happly, h₁⟩ := apply_serves hok hbig hd.dist_comm h op hop hfirst
      obtain ⟨t', answers, hrun, h', hscan⟩ := ih h₁ hsize hrest
      refine ⟨t', answers, ?_, h', hscan⟩
      simp only [runClient, happly, Except.mapError, Except.bind, hrun]
    | query query =>
      obtain ⟨answer, hquery, hanswer⟩ := query_serves hd h hmax query
      simp only [ClientOp.supplied, List.append_nil] at hsize hrest ⊢
      obtain ⟨t', answers, hrun, h', hscan⟩ := ih h hsize hrest
      refine ⟨t', answer :: answers, ?_, h', answer, answers, rfl, hanswer, hscan⟩
      simp only [runClient, hquery, Except.mapError, Except.bind, hrun]

omit [AddCommGroup D] [LinearOrder D] [IsOrderedAddMonoid D] in
theorem supplied_filterMap (ops : List (ClientOp α D)) :
    ops.flatMap ClientOp.supplied = (ops.filterMap ClientOp.lifeOp).flatMap LifeOp.supplied := by
  induction ops with
  | nil => rfl
  | cons op ops ih =>
    cases op with
    | life op =>
      rw [List.flatMap_cons, ih]
      rfl
    | query query =>
      rw [List.flatMap_cons, ih]
      rfl

/-- Queries before, between and after the calls of `coupleLife`. -/
def coupleClient : List (ClientOp Guest ℤ) :=
  [.query (.nn (some (3, true))), .life (.addRebuild ((couples 500).drop 800)),
    .query (.knn (some (7, false)) 4), .life .rebuild,
    .query (.allWithin none 2 (some 0) some)]

end Run

end VantagePoint
