import VantagePoint.BuildFailure

/-! When `VPT_build` reports that it ran out of memory. -/
namespace VantagePoint
open WhileLoop

universe u v

variable {α : Type u} {D : Type v} [LinearOrder D]

/-- What the documentation of `VPT_build` says about memory: it returns `true` when
every request was granted, and `false` when it ran out of memory. -/
def ReportsOutOfMemory (env : BuildEnv α D) (arena : Arena α D) (data : List α) : Prop :=
  match vptBuild env arena data with
  | .ok t => arena.Granted env.ok t.arena
  | .error e => e = .outOfMemory

section Results

variable {env : BuildEnv α D} {arena : Arena α D} {data : List α}

theorem reports_of_fails (h : vptBuild env arena data = .error .outOfMemory) :
    ReportsOutOfMemory env arena data := by
  rw [ReportsOutOfMemory, h]

theorem reports_of_ok {t : VPTree α D} (h : vptBuild env arena data = .ok t)
    (ht : arena.Granted env.ok t.arena) : ReportsOutOfMemory env arena data := by
  rw [ReportsOutOfMemory, h]
  exact ht

/-- The small build checks both of its requests. -/
theorem reports_of_small (hsmall : data.length < vptMaxListSize) :
    ReportsOutOfMemory env arena data := by
  have hbuild : SameOrFails (fun t => arena.Granted env.ok t.arena) (vptBuild env arena data)
      (vptBuild env.granted arena data) := by
    unfold vptBuild
    apply (initAllocator_granted env arena).bind
    intro m hinit hm
    obtain rfl := initAllocator_eq_ok hinit
    simp only [hsmall, ↓reduceIte]
    rcases vptSmallBuild_granted env (initialArena_chained arena 0) data with
      hfail | ⟨hsame, hgranted⟩
    · exact Or.inl hfail
    · exact Or.inr ⟨hsame, fun t ht => hm.trans (hgranted t ht)⟩
  obtain ⟨_, _, _, _, _, _, hgranted⟩ := vptSmallBuild_eq arena env.granted_ok hsmall
  rcases hbuild.fails_or_ok hgranted with hfail | ⟨hok, ht⟩
  · exact reports_of_fails hfail
  · exact reports_of_ok hok ht

/-- A large build whose loop never meets a right leaf with a denied list. -/
theorem reports_of_large (hsize : data.length < sizeT) (hbig : env.Bounded)
    (hin : SplitsInside env arena data) (hlarge : vptMaxListSize ≤ data.length)
    (hnot : ∀ root s₀ s, EntersLoop env arena data root s₀ →
      (buildLoop env).Reaches s₀ s → ¬ s.RightDenied env) : ReportsOutOfMemory env arena data := by
  have hbuild : vptBuild env arena data =
      (initAllocator env arena).bind fun m => vptLargeBuild env m data := by
    unfold vptBuild
    simp only [not_lt.mpr hlarge, ↓reduceIte]
  cases data with
  | nil => exact absurd hlarge (Nat.not_succ_le_zero 999)
  | cons v xs =>
    -- The four requests of the setup and the one for the root node, in their order.
    rcases (initAllocator_granted env arena).fails_or_ok (initAllocator_ok env.granted_ok) with
      hfail | ⟨hinit, _⟩
    · apply reports_of_fails
      rw [hbuild, hfail]
      rfl
    rcases (rootSplit_granted env (initialArena arena 0)
      (List.cons_ne_nil v xs)).fails_or_ok
      (rootSplit_ok env.granted_ok v xs) with hfail | ⟨hr, _⟩
    · apply reports_of_fails
      simp only [hbuild, hinit, Except.bind, vptLargeBuild, hfail]
    obtain ⟨_, root, _, _, _, _, _, _, s₀, _, hs'⟩ :=
      itemStart_of_rootSplit hsize hbig hlarge hinit hr (hin _ (.root _ _ hlarge hinit hr))
    rcases (buildStart_granted env _).fails_or_ok hs' with hfail | ⟨hs, _⟩
    · apply reports_of_fails
      simp only [hbuild, hinit, Except.bind, vptLargeBuild, hr, hfail]
    have henter : EntersLoop env arena (v :: xs) root s₀ := ⟨hlarge, _, _, hinit, hr, hs⟩
    cases hrun : (buildLoop env).run (buildFuel (v :: xs).length) s₀ with
    | ok s =>
      have ht := onTrack_of_reaches hsize hbig hin henter (run_reaches _ _ _ _ hrun)
      have hok : vptBuild env arena (v :: xs) = .ok ⟨root, (v :: xs).length,
          (s.arena.free (arena.requests+3)).free (arena.requests+2)⟩ := by
        simp only [hbuild, hinit, Except.bind, vptLargeBuild, hr, hs, hrun]
      exact reports_of_ok hok (ht.granted.trans (.of_eq rfl))
    | error e =>
      -- The loop is left early by a pass that meets a failing request.
      obtain ⟨t, ht, hguard, hbody⟩ := run_error_reaches _ _ _ _ hrun
      have hT := onTrack_of_reaches hsize hbig hin henter ht
      change buildBody env t = .error e at hbody
      rcases buildBody_step hbig hT.framed (insideNext_of_reaches hin henter ht)
        (hnot root s₀ t henter ht) hguard with hfail | ⟨t', hok, _⟩
      · obtain rfl : e = .outOfMemory := Except.error.inj (hbody.symm.trans hfail)
        apply reports_of_fails
        simp only [hbuild, hinit, Except.bind, vptLargeBuild, hr, hs, hrun]
      · rw [hbody] at hok
        cases hok

/-- Running out of memory is reported, and nothing is written through `NULL`,
exactly if no list of a right leaf is denied. -/
theorem vptBuild_reports_iff (env : BuildEnv α D) (arena : Arena α D) (data : List α)
    (hsize : data.length < sizeT) (hbig : env.Bounded) (hin : SplitsInside env arena data) :
    ReportsOutOfMemory env arena data ↔ ∀ root s₀ s, EntersLoop env arena data root s₀ →
      (buildLoop env).Reaches s₀ s → ¬ s.RightDenied env := by
  constructor
  · intro hreports root s₀ s henter hs hdenied
    rw [ReportsOutOfMemory, vptBuild_denied hsize hbig hin henter hs hdenied] at hreports
    cases hreports
  · intro hnot
    rcases Nat.lt_or_ge data.length vptMaxListSize with hsmall | hlarge
    -- A small build has no loop, and the condition says nothing about it.
    · exact reports_of_small hsmall
    · exact reports_of_large hsize hbig hin hlarge hnot

/-- A build of five hundred couples whose fifth request would fail. -/
theorem vptBuild_reports_iff_couples :
    ReportsOutOfMemory { coupleEnv with ok := fun i => decide (i < 4) } .empty (couples 500) ↔
      ∀ root s₀ s,
        EntersLoop { coupleEnv with ok := fun i => decide (i < 4) } .empty (couples 500) root s₀ →
        (buildLoop { coupleEnv with ok := fun i => decide (i < 4) }).Reaches s₀ s →
        ¬ s.RightDenied { coupleEnv with ok := fun i => decide (i < 4) } :=
  have hsize : (couples 500).length < sizeT := by
    rw [length_couples]
    decide
  vptBuild_reports_iff _ .empty (couples 500) hsize coupleEnv_bounded
    (splitsInside_of_granted hsize coupleEnv_bounded (splitsInside_couples .empty 500 hsize))

end Results

section Shortage

/-- Five hundred list cells to a chunk, and memory for the four requests of the
setup only. -/
def shortEnv : BuildEnv Guest ℤ :=
  { coupleEnv with ok := fun i => decide (i < 4), bufs := ⟨1000, 500⟩ }

/-- After the four requests of the setup, with `a` nodes and `b` list cells taken
from the first chunks. -/
def Arena.Uses (m : Arena Guest ℤ) (a b : ℕ) : Prop :=
  m.requests = 4 ∧ ∃ i j, m.nodeAllocs = [⟨i, a⟩] ∧ m.listAllocs = [⟨j, b⟩]

/-- Two frames: one guest on the left, and a paired list of `n` on the right. -/
structure BuildState.Deciding (s : BuildState Guest ℤ) (n a b : ℕ) : Prop where
  framed : s.Framed
  uses : s.arena.Uses a b
  work : ∃ fl fr x, s.work = [(.left, fl), (.right, fr)] ∧ s.itemsOf fl = [x] ∧
    Paired (s.itemsOf fr) ∧ (s.itemsOf fr).length = n

/-- The right frame only. -/
structure BuildState.Waiting (s : BuildState Guest ℤ) (n a b : ℕ) : Prop where
  framed : s.Framed
  uses : s.arena.Uses a b
  work : ∃ fr, s.work = [(.right, fr)] ∧ Paired (s.itemsOf fr) ∧ (s.itemsOf fr).length = n

variable {m m' : Arena Guest ℤ} {s : BuildState Guest ℤ} {n a b : ℕ}

theorem Arena.Uses.same (h : m.Uses a b) (hm : m.SameAllocs m') : m'.Uses a b := by
  obtain ⟨hr, i, j, hn, hl⟩ := h
  exact ⟨hm.requests.trans hr, i, j, hm.nodeAllocs.trans hn, hm.listAllocs.trans hl⟩

theorem Arena.Uses.node (h : m.Uses a b) (ha : a < 999) :
    ∃ p m', m.allocVPNode shortEnv.ok shortEnv.bufs = (some p, m') ∧ m'.Uses (a+1) b := by
  obtain ⟨hr, i, j, hn, hl⟩ := h
  have hroom : ¬ a = shortEnv.bufs.nodeallocBufSize-1 := ha.ne
  rw [allocVPNode_eq hn, if_neg hroom, Arena.takeNode, hn]
  exact ⟨_, _, rfl, hr, i, j, rfl, hl⟩

theorem Arena.Uses.list (h : m.Uses a b) (hb : b+n < 499) :
    ∃ l m', m.allocVPList shortEnv.ok shortEnv.bufs n = (some l, m') ∧ m'.Uses a (b+n) := by
  obtain ⟨hr, i, j, hn, hl⟩ := h
  have hroom : ¬ b+n ≥ shortEnv.bufs.listallocBufSize-1 := not_le.mpr hb
  rw [allocVPList_eq hl, if_neg hroom, Arena.takeList, hl]
  exact ⟨_, _, rfl, hr, i, j, hn, rfl⟩

theorem Arena.Uses.denied (h : m.Uses a b) (hb : 499 ≤ b+n) :
    m.ListDenied shortEnv.ok shortEnv.bufs n := by
  obtain ⟨hr, i, j, hn, hl⟩ := h
  refine ⟨_, _, hl, hb, ?_⟩
  rw [hr]
  rfl

theorem shortEnv_bounded : shortEnv.Bounded := coupleEnv_bounded

/-- The first frame is the one a pass takes. -/
theorem pop_of_work {side : Side} {f : VPBuildStackFrame} {w : List (Side × VPBuildStackFrame)}
    (hwork : s.work = (side, f) :: w) : ∃ rest, s.pop = some (side, f, rest) ∧ rest.work = w := by
  cases hpop : s.pop with
  | none =>
    rw [pop_eq_none_iff.mp hpop] at hwork
    cases hwork
  | some frame =>
    obtain ⟨side', f', rest⟩ := frame
    rw [(work_of_pop hpop).1] at hwork
    obtain ⟨heq, hrest⟩ := List.cons.inj hwork
    obtain ⟨rfl, rfl⟩ := Prod.mk.inj heq
    exact ⟨rest, rfl, hrest⟩

/-- The one guest on the left becomes a list node. -/
theorem BuildState.Deciding.leaf (h : s.Deciding n a b) (ha : a < 999) (hb : b+1 < 499) :
    ∃ s', (buildLoop shortEnv).Step s s' ∧ s'.Waiting n (a+1) (b+1) := by
  obtain ⟨fl, fr, x, hwork, hleft, hpaired, hlen⟩ := h.work
  obtain ⟨rest, hpop, hrest⟩ := pop_of_work hwork
  have hone : fl.numChildren = 1 := by
    have hl := length_itemsOf h.framed (mem_work_of_pop hpop)
    dsimp only at hl
    rw [← hl, hleft]
    rfl
  have hnum : fl.numChildren < vptBuildListThreshold := by
    rw [hone]
    decide
  obtain ⟨p, m₁, hnode, hm₁⟩ := h.uses.node ha
  obtain ⟨l, m₂, hlist, hm₂⟩ := hm₁.list hb
  rw [← hone] at hlist
  obtain ⟨s', hbody, _, hF', hpass, hsame⟩ := buildBody_leafPass h.framed hpop hnum hnode hlist
  have hguard : (buildLoop shortEnv).guard s = true := Option.isSome_of_mem hpop
  refine ⟨s', ⟨hguard, hbody⟩, hF', hm₂.same hsame, fr, ?_⟩
  cases hpass with
  | list hpop' _ _ _ _ hwork' hitems =>
    rw [hpop] at hpop'
    cases hpop'
    rw [hwork', hrest, hitems (.right, fr) (by rw [hrest]; exact List.mem_singleton_self _)]
    exact ⟨rfl, hpaired, hlen⟩
  | cut hpop' _ hvx hlong =>
    rw [hpop] at hpop'
    cases hpop'
    rw [← hvx, hleft, List.length_singleton] at hlong
    exact absurd hlong (by decide)

/-- The right list is cut again: the partner of its first guest on the left, and
all others on the right. -/
theorem BuildState.Waiting.cut (h : s.Waiting (n+2) a b) (hn : vptBuildListThreshold ≤ n+2)
    (ha : a < 999) : ∃ s', (buildLoop shortEnv).Step s s' ∧ s'.Deciding n (a+1) b := by
  obtain ⟨fr, hwork, hpaired, hlen⟩ := h.work
  obtain ⟨rest, hpop, hrest⟩ := pop_of_work hwork
  have hnum : fr.numChildren = n+2 := by
    have hl := length_itemsOf h.framed (mem_work_of_pop hpop)
    dsimp only at hl
    rw [← hl, hlen]
  have hcut (v : Guest) (xs : List Guest) (hvx : s.itemsOf fr = v :: xs) :
      ∃ g right, cutItems shortEnv.big (shortEnv.distFn v) xs = some ⟨4, [partner g], right⟩ ∧
        Paired right ∧ right.length = n := by
    rw [hvx] at hpaired hlen
    rw [List.length_cons] at hlen
    unfold vptBuildListThreshold at hn
    obtain ⟨g, rfl, _⟩ := hpaired.partner v List.mem_cons_self
    obtain ⟨right, hc, hright, hrlen⟩ := paired_cut hpaired (by omega)
    exact ⟨g, right, hc, hright, by omega⟩
  have hin : s.InsideNext shortEnv := by
    apply insideNext_of_items shortEnv_bounded h.framed
    intro f hf v xs hvx _
    rw [hwork] at hf
    rw [List.mem_singleton.mp hf] at hvx
    obtain ⟨_, _, hc, _⟩ := hcut v xs hvx
    exact ⟨_, hc⟩
  obtain ⟨p, m₁, hnode, hm₁⟩ := h.uses.node ha
  obtain ⟨s', hbody, _, hF', hpass, hsame⟩ :=
    buildBody_branchPass shortEnv_bounded h.framed hin hpop (by rw [hnum]; exact hn) hnode
  have hguard : (buildLoop shortEnv).guard s = true := Option.isSome_of_mem hpop
  refine ⟨s', ⟨hguard, hbody⟩, hF', hm₁.same hsame, ?_⟩
  cases hpass with
  | list hpop' _ _ hshort =>
    rw [hpop] at hpop'
    cases hpop'
    rw [hlen] at hshort
    exact absurd hn (not_le.mpr hshort)
  | @cut _ _ fl' fr' _ _ _ _ v xs c hpop' _ hvx _ hc _ _ _ hwork' hleft hright _ =>
    rw [hpop] at hpop'
    cases hpop'
    obtain ⟨g, right, hc', hpaired', hlen'⟩ := hcut v xs hvx
    obtain rfl : c = ⟨4, [partner g], right⟩ := Option.some.inj (hc.symm.trans hc')
    rw [hrest] at hwork'
    exact ⟨fl', fr', partner g, hwork', hleft, by rwa [hright], by rw [hright]; exact hlen'⟩

/-- Two guests fewer on the right with every branch, down to a right leaf. -/
theorem BuildState.Deciding.run (k : ℕ) (h : s.Deciding (98+2*k) a b) (ha : a+2*k < 999)
    (hb : b+k+1 < 499) :
    ∃ s', (buildLoop shortEnv).Reaches s s' ∧ s'.Waiting 98 (a+2*k+1) (b+k+1) := by
  induction k generalizing s a b with
  | zero =>
    obtain ⟨s', hstep, hs'⟩ := h.leaf (by omega) (by omega)
    exact ⟨s', Relation.ReflTransGen.single hstep, hs'⟩
  | succ k ih =>
    obtain ⟨s₁, hstep₁, h₁⟩ := h.leaf (by omega) (by omega)
    have h₁' : s₁.Waiting (98+2*k+2) (a+1) (b+1) := h₁
    obtain ⟨s₂, hstep₂, h₂⟩ := h₁'.cut (by unfold vptBuildListThreshold; omega) (by omega)
    obtain ⟨s', hreach, hs'⟩ := ih h₂ (by omega) (by omega)
    refine ⟨s', (hreach.head hstep₂).head hstep₁, ?_⟩
    have hnodes : a+1+1+2*k+1 = a+2*(k+1)+1 := by omega
    have hcells : b+1+k+1 = b+(k+1)+1 := by omega
    rwa [hnodes, hcells] at hs'

theorem splitsInside_short (hsize : (couples 500).length < sizeT) :
    SplitsInside shortEnv .empty (couples 500) :=
  splitsInside_of_granted hsize shortEnv_bounded
    (splitsInside_bufs ⟨1000, 500⟩ .empty (paired_couples 500) hsize)

/-- The setup's four requests are granted, and the root node is taken from the
first chunk. -/
theorem deciding_start (hsize : (couples 500).length < sizeT) :
    ∃ root s₀, EntersLoop shortEnv .empty (couples 500) root s₀ ∧ s₀.Deciding (98+2*450) 1 0 := by
  have hlarge : vptMaxListSize ≤ (couples 500).length := by
    rw [length_couples]
    decide
  have hpaired := paired_couples 500
  have hlen := length_couples 500
  have hin := splitsInside_short hsize
  generalize couples 500 = data at hsize hlarge hpaired hlen hin
  cases data with
  | nil => cases hlen
  | cons v xs =>
    have hinit : initAllocator shortEnv .empty = .ok (initialArena .empty 0) := rfl
    have hr : rootSplit shortEnv (initialArena .empty 0) (v :: xs) =
        .ok ⟨splitAtRoot shortEnv v xs, initialArena .empty 2, 2, 3⟩ := rfl
    obtain ⟨_, root, v', xs', c, m₁, fl, fr, s₀, hstart, hs⟩ := itemStart_of_rootSplit hsize
      shortEnv_bounded hlarge hinit hr (hin _ (.root _ _ hlarge hinit hr))
    have hs' : buildStart shortEnv ⟨splitAtRoot shortEnv v xs, initialArena .empty 2, 2, 3⟩ =
        .ok (root, s₀) := hs
    refine ⟨root, s₀, ⟨hlarge, _, _, hinit, hr, hs'⟩, hstart.framed, ?_, ?_⟩
    · obtain ⟨_, _, hs'⟩ := (except_bind_eq_ok _ _ _).mp hs'
      cases hs'
      exact ⟨rfl, 0, 1, rfl, rfl⟩
    · obtain ⟨rfl, rfl⟩ := List.cons.inj hstart.data_eq
      obtain ⟨g, rfl, _⟩ := hpaired.partner v List.mem_cons_self
      rw [List.length_cons] at hlen
      obtain ⟨right, hc, hright, hrlen⟩ := paired_cut hpaired (by omega)
      -- the root is measured the other way round
      have hflip : (fun x => coupleEnv.distFn x (some g)) = coupleEnv.distFn (some g) :=
        funext fun x => coupleDist_comm x (some g)
      have hcut : cutItems coupleEnv.big (fun x => coupleEnv.distFn x (some g)) xs = some c :=
        hstart.cut
      rw [hflip] at hcut
      obtain rfl : c = ⟨4, [partner g], right⟩ := Option.some.inj (hcut.symm.trans hc)
      exact ⟨fl, fr, partner g, hstart.work, hstart.left, by rwa [hstart.right],
        by rw [hstart.right]; dsimp only; omega⟩

/-- Five hundred couples, and no memory for a second list chunk: the 451 left
leaves fit the first one, and the right leaf of 98 guests that is then built does
not. -/
theorem vptBuild_not_reports : GroupMetric.IsMetric shortEnv.distFn ∧
    SplitsInside shortEnv .empty (couples 500) ∧
    vptBuild shortEnv .empty (couples 500) = .error .nullWrite ∧
    ¬ ReportsOutOfMemory shortEnv .empty (couples 500) := by
  have hsize : (couples 500).length < sizeT := by
    rw [length_couples]
    decide
  have hin := splitsInside_short hsize
  obtain ⟨root, s₀, henter, h₀⟩ := deciding_start hsize
  obtain ⟨s, hreach, hs⟩ := h₀.run 450 (by decide) (by decide)
  have hdenied : s.RightDenied shortEnv := by
    obtain ⟨fr, hwork, _, hlen⟩ := hs.work
    obtain ⟨rest, hpop, _⟩ := pop_of_work hwork
    have hnum : fr.numChildren = 98 := by
      have hl := length_itemsOf hs.framed (mem_work_of_pop hpop)
      dsimp only at hl
      rw [← hl, hlen]
    obtain ⟨p, m₁, hnode, hm₁⟩ := hs.uses.node (by decide)
    refine ⟨fr, rest, p, m₁, hpop, by rw [hnum]; decide, hnode, ?_⟩
    rw [hnum]
    exact hm₁.denied (by decide)
  have hnull := vptBuild_denied hsize shortEnv_bounded hin henter hreach hdenied
  refine ⟨isMetric_coupleDist, hin, hnull, ?_⟩
  rw [ReportsOutOfMemory, hnull]
  decide

end Shortage

end VantagePoint
