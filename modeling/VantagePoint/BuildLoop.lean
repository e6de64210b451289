import VantagePoint.Couples
import Mathlib.Tactic.Ring

/-! The main loop of `VPT_build` over whole runs: which splits are well defined,
that the loop ends, and how high its two stacks get. -/
namespace VantagePoint
open WhileLoop

universe u v

variable {α : Type u} {D : Type v}

section Stacks

/-- Frame number `i` from the bottom of the right stack has at most `n / 2^i`
entries: it stands for a left turn on the way to the node being built. -/
def RightHalved (n : ℕ) : List VPBuildStackFrame → Prop
  | [] => True
  | f :: below => f.numChildren*2^below.length ≤ n ∧ RightHalved n below

structure BuildState.Halved (n : ℕ) (s : BuildState α D) : Prop where
  left : ∀ f ∈ s.leftStack, f.numChildren*2^s.rightStack.length ≤ n
  right : RightHalved n s.rightStack
  deep : s.rightStack.length ≤ vptMaxHeight

/-- What the main loop still has to do, counted in passes. -/
def BuildState.weight (s : BuildState α D) : ℕ :=
  (s.work.map fun f => 2*f.2.numChildren+1).sum

variable {s rest : BuildState α D} {side : Side} {popped : VPBuildStackFrame}

/-- The frame taken, halved as often as there are right frames below it. -/
theorem halved_of_pop {n : ℕ} (h : s.Halved n) (hone : s.leftStack.length ≤ 1)
    (hpop : s.pop = some (side, popped, rest)) :
    popped.numChildren*2^rest.rightStack.length ≤ n ∧ RightHalved n rest.rightStack ∧
      rest.rightStack.length ≤ vptMaxHeight := by
  -- A left frame stands on top of all right frames, a right one on those below.
  rcases (leftStack_of_pop hone hpop).2 with ⟨_, hl, hr⟩ | ⟨_, _, hr⟩
  · rw [hr]
    refine ⟨h.left popped ?_, h.right, h.deep⟩
    rw [hl]
    exact List.mem_singleton_self _
  · have hright := h.right
    have hdeep := h.deep
    rw [hr] at hright hdeep
    rw [List.length_cons] at hdeep
    exact ⟨hright.1, hright.2, by omega⟩

/-- Two frames pushed in place of one: the left one has at most half of its
entries, so the depth of the right stack stays below 64 while there are fewer
than 2^64 points. -/
theorem halved_of_push {n : ℕ} (hn : n < sizeT) {below : List VPBuildStackFrame} {c m k : ℕ}
    (hc : vptBuildListThreshold ≤ c) (hhalf : c*2^below.length ≤ n) (hm : 2*m ≤ c) (hk : k ≤ c)
    (hbelow : RightHalved n below) (l r : VPBuildStackFrame) (hl : l.numChildren = m)
    (hr : r.numChildren = k) (hs : s.leftStack = [l]) (hs' : s.rightStack = r :: below) :
    s.Halved n where
  left := by
    rw [hs, hs']
    intro f hf
    rw [List.mem_singleton.mp hf, hl, List.length_cons]
    -- One more right frame, and the left one has half of the entries: `c * 2^d`
    -- stays below `n`.
    calc
      m*2^(below.length+1) = (2*m)*2^below.length := by ring
      _ ≤ c*2^below.length := Nat.mul_le_mul_right _ hm
      _ ≤ n := hhalf
  right := by
    rw [hs']
    refine ⟨?_, hbelow⟩
    rw [hr]
    exact (Nat.mul_le_mul_right _ hk).trans hhalf
  deep := by
    rw [hs', List.length_cons]
    -- a hundred frames would stand for a list of 2^64 entries
    by_contra hdeep
    have hpow : 2^64 ≤ 2^below.length := by
      apply Nat.pow_le_pow_right (by decide)
      unfold vptMaxHeight at hdeep
      omega
    have hmul := Nat.mul_le_mul hc hpow
    unfold vptBuildListThreshold at hmul
    unfold sizeT at hn
    omega

theorem weight_of_pop (h : s.pop = some (side, popped, rest)) :
    s.weight = 2*popped.numChildren+1+rest.weight := by
  rw [BuildState.weight, (work_of_pop h).1, List.map_cons, List.sum_cons, BuildState.weight]

end Stacks

variable [LinearOrder D] {env : BuildEnv α D}

section Splits

variable {arena : Arena α D} {data : List α}

/-- A pass keeps the length of the build buffer, whatever else it does. -/
theorem buildBody_length {s s' : BuildState α D} (hsize : s.buildBuffer.length < sizeT)
    (hbig : env.Bounded) (h : buildBody env s = .ok s') :
    s'.buildBuffer.length = s.buildBuffer.length := by
  unfold buildBody at h
  split at h
  · cases h
    rfl
  · rename_i side popped rest hpop
    obtain ⟨_, _, hbuf⟩ := work_of_pop hpop
    rw [← hbuf] at hsize ⊢
    split at h
    · obtain ⟨_, _, h⟩ := (except_bind_eq_ok _ _ _).mp h
      dsimp only at h
      split at h
      · cases h
      · split at h
        · cases h
        · obtain ⟨_, _, h⟩ := (except_bind_eq_ok _ _ _).mp h
          cases h
          rfl
    · rename_i hnum
      obtain ⟨_, _, h⟩ := (except_bind_eq_ok _ _ _).mp h
      obtain ⟨σ, hσ, h⟩ := (except_bind_eq_ok _ _ _).mp h
      obtain ⟨_, _, h⟩ := (except_bind_eq_ok _ _ _).mp h
      cases h
      obtain ⟨hfits, hdist⟩ := fits_of_frameSplit hσ (not_lt.mp hnum) hsize hbig
      obtain ⟨_, _, _, rfl⟩ := frameSplit_eq_ok.mp hσ
      exact length_measured hfits hdist

theorem entersLoop_length {root : NodePtr} {s₀ : BuildState α D} (hsize : data.length < sizeT)
    (hbig : env.Bounded) (h : EntersLoop env arena data root s₀) :
    s₀.buildBuffer.length+1 = data.length := by
  obtain ⟨hlarge, arena', r, _, hr, hs⟩ := h
  obtain ⟨v, xs, rfl, hsplit⟩ := rootSplit_eq_ok hr
  obtain ⟨hfits, hdist⟩ := splitAtRoot_fits hlarge hsize hbig
  obtain ⟨_, _, hs⟩ := (except_bind_eq_ok _ _ _).mp hs
  obtain ⟨_, _, hs⟩ := (except_bind_eq_ok _ _ _).mp hs
  cases hs
  dsimp only
  rw [hsplit, length_measured hfits hdist]
  simp only [splitAtRoot, List.length_map, List.length_cons]

/-- Every split a build performs has its entries inside the build buffer. -/
theorem performs_fits {σ : Split α D} (hsize : data.length < sizeT) (hbig : env.Bounded)
    (h : Performs env arena data σ) : σ.Fits ∧ ∀ x, σ.distance x ≤ env.big.distance := by
  cases h with
  | root arena' r hlarge _ hr =>
    obtain ⟨v, xs, rfl, hsplit⟩ := rootSplit_eq_ok hr
    rw [hsplit]
    exact splitAtRoot_fits hlarge hsize hbig
  | frame root s₀ s s' side popped _ henter hs hpop hbranch _ hσ =>
    have hstart := entersLoop_length hsize hbig henter
    have hlen : s.buildBuffer.length = s₀.buildBuffer.length := by
      apply reaches_invariant (buildLoop env)
        (fun t => t.buildBuffer.length = s₀.buildBuffer.length) _ s₀ s rfl hs
      intro t t' ht hstep
      rw [buildBody_length (by omega) hbig hstep.2, ht]
    obtain ⟨_, _, hbuf⟩ := work_of_pop hpop
    exact fits_of_frameSplit hσ hbranch (by rw [hbuf]; omega) hbig

/-- At every split of every build: the split is well defined if and only if no
more than half of its entries, rounded up, are at the smallest distance. -/
theorem performs_wellDefined_iff (env : BuildEnv α D) (arena : Arena α D) (data : List α)
    (hsize : data.length < sizeT) (hbig : env.Bounded) (σ : Split α D)
    (h : Performs env arena data σ) : σ.WellDefined env.big ↔ σ.TieBound := by
  obtain ⟨hfits, hdist⟩ := performs_fits hsize hbig h
  rw [wellDefined_iff_inside hfits hdist, inside_iff_tieBound hfits hdist]

theorem not_tieBound_of_level {σ : Split α D} (hf : σ.Fits) (d : D)
    (hlevel : ∀ e ∈ σ.entries, σ.distance e.item = d) : ¬ σ.TieBound := by
  have hall : σ.nearest = σ.entries := by
    apply List.filter_eq_self.mpr
    intro e he
    apply decide_eq_true
    intro e' he'
    rw [hlevel e he, hlevel e' he']
  have h2 := hf.two_le
  unfold Split.TieBound
  rw [hall, length_entries hf]
  omega

end Splits

section Ties

/-- Two items, at distance 1 from each other. -/
def discreteDist (x y : Bool) : ℤ := if x = y then 0 else 1

theorem isMetric_discreteDist : GroupMetric.IsMetric discreteDist where
  dist_self := by decide
  eq_of_dist_eq_zero := by decide
  dist_comm := by decide
  dist_triangle := by decide

def discreteEnv : BuildEnv Bool ℤ := ⟨discreteDist, ⟨false, 1⟩, fun _ => true, bufSizes⟩

theorem discreteEnv_bounded : discreteEnv.Bounded := by
  unfold BuildEnv.Bounded
  decide

/-- The split at the root of a thousand equal items. -/
theorem performs_wellDefined_iff_replicate :
    (splitAtRoot discreteEnv false (List.replicate 999 false)).WellDefined discreteEnv.big ↔
      (splitAtRoot discreteEnv false (List.replicate 999 false)).TieBound :=
  performs_wellDefined_iff discreteEnv .empty (false :: List.replicate 999 false)
    (by simp only [List.length_cons, List.length_replicate, sizeT]; omega) discreteEnv_bounded _
    (performs_root (fun _ => rfl) _ _
      (by simp only [List.length_cons, List.length_replicate, vptMaxListSize]; omega))

/-- A thousand equal items: the scan at the root runs off the front of its list. -/
theorem performs_not_wellDefined : GroupMetric.IsMetric discreteEnv.distFn ∧
    ∃ σ, Performs discreteEnv .empty (List.replicate 1000 false) σ ∧
      ¬ σ.WellDefined discreteEnv.big := by
  have hlarge : vptMaxListSize ≤ (false :: List.replicate 999 false).length := by
    simp only [List.length_cons, List.length_replicate, vptMaxListSize]
    omega
  have hsize : (false :: List.replicate 999 false).length < sizeT := by
    simp only [List.length_cons, List.length_replicate, sizeT]
    omega
  have hperf : Performs discreteEnv .empty (List.replicate 1000 false)
      (splitAtRoot discreteEnv false (List.replicate 999 false)) :=
    performs_root (fun _ => rfl) false (List.replicate 999 false) hlarge
  obtain ⟨hfits, hdist⟩ := splitAtRoot_fits hlarge hsize discreteEnv_bounded
  refine ⟨isMetric_discreteDist, _, hperf, ?_⟩
  rw [wellDefined_iff_inside hfits hdist, inside_iff_tieBound hfits hdist]
  apply not_tieBound_of_level hfits 0
  intro e he
  have hmem := List.mem_of_mem_drop (List.mem_of_mem_take he)
  obtain ⟨x, hx, rfl⟩ := List.mem_map.mp hmem
  rw [List.eq_of_mem_replicate hx]
  rfl

end Ties

section Pass

variable {s s' : BuildState α D}

omit [LinearOrder D] in
theorem stacks_of_work {l r : List VPBuildStackFrame}
    (h : s.work = l.map (Prod.mk .left) ++ r.map (Prod.mk .right)) :
    s.leftStack = l ∧ s.rightStack = r := by
  have hleft (l r : List VPBuildStackFrame) :
      (l.map (Prod.mk Side.left) ++ r.map (Prod.mk Side.right)).filterMap
        (fun f => if f.1 = .left then some f.2 else none) = l := by
    simp [List.filterMap_append, List.filterMap_map]
  have hright (l r : List VPBuildStackFrame) :
      (l.map (Prod.mk Side.left) ++ r.map (Prod.mk Side.right)).filterMap
        (fun f => if f.1 = .right then some f.2 else none) = r := by
    simp [List.filterMap_append, List.filterMap_map]
  unfold BuildState.work at h
  constructor
  · rw [← hleft s.leftStack s.rightStack, h, hleft]
  · rw [← hright s.leftStack s.rightStack, h, hright]

/-- The sides of a cut have the sizes that keep the stacks low. -/
theorem length_cut {f : α → D} (hf : ∀ x, f x ≤ env.big.distance)
    {xs : List α} {c : ItemCut α D} (hc : cutItems env.big f xs = some c) :
    2*c.left.length ≤ xs.length+1 ∧ c.left.length+c.right.length = xs.length := by
  have hhalf := (cutItems_left hf hc).2
  have hlen := length_cutItems hc
  omega

/-- Every pass keeps the stacks low and leaves less to do. -/
theorem ItemPass.halved {n : ℕ} (hn : n < sizeT) (hbig : env.Bounded) (h : ItemPass env s s')
    (hF : s.Framed) (hF' : s'.Framed) (hH : s.Halved n) : s'.Halved n ∧ s'.weight < s.weight := by
  cases h with
  | @list side popped rest _ _ _ _ _ hpop _ _ _ _ hwork _ =>
    have hleft := (leftStack_of_pop hF.left_le_one hpop).1
    obtain ⟨_, hbelow, hdeep⟩ := halved_of_pop hH hF.left_le_one hpop
    have hweight := weight_of_pop hpop
    obtain ⟨hl, hr⟩ := stacks_of_work hwork
    refine ⟨⟨?_, by rwa [hr], by rwa [hr]⟩, ?_⟩
    · rw [hl, hleft]
      intro f hf
      exact absurd hf List.not_mem_nil
    · have hsame : s'.weight = rest.weight := by
        rw [BuildState.weight, hwork, BuildState.weight]
      omega
  | @cut side popped fl fr rest _ _ _ v xs c hpop _ hvx hlong hc _ _ _ hwork hitemsl hitemsr _ =>
    have hleft := (leftStack_of_pop hF.left_le_one hpop).1
    obtain ⟨hhalf, hbelow, _⟩ := halved_of_pop hH hF.left_le_one hpop
    have hweight := weight_of_pop hpop
    obtain ⟨hcl, hcr⟩ := length_cut (hbig v) hc
    have hlen := length_itemsOf hF (mem_work_of_pop hpop)
    have hlenl := length_itemsOf hF' (f := (.left, fl)) (by rw [hwork]; exact List.mem_cons_self)
    have hlenr := length_itemsOf hF' (f := (.right, fr))
      (by rw [hwork]; exact List.mem_cons_of_mem _ List.mem_cons_self)
    dsimp only at hlen hlenl hlenr
    rw [hvx] at hlen
    rw [hitemsl] at hlenl
    rw [hitemsr] at hlenr
    rw [hlen] at hlong
    rw [List.length_cons] at hlen
    -- The left stack is empty after the pop, so only right frames are left.
    have hrest : rest.work = rest.rightStack.map (Prod.mk .right) := by
      rw [BuildState.work, hleft, List.map_nil, List.nil_append]
    obtain ⟨hl, hr⟩ := stacks_of_work (l := [fl]) (r := fr :: rest.rightStack)
      (by rw [hwork, hrest]; rfl)
    constructor
    · exact halved_of_push hn hlong hhalf (by omega) (by omega) hbelow fl fr rfl rfl hl hr
    · have hsum : s'.weight = 2*fl.numChildren+1+(2*fr.numChildren+1+rest.weight) := by
        rw [BuildState.weight, hwork, List.map_cons, List.map_cons, List.sum_cons, List.sum_cons,
          BuildState.weight]
      omega

end Pass

section Runs

variable {arena : Arena α D} {data : List α} {root : NodePtr} {v : α} {xs : List α}
  {c : ItemCut α D} {m₁ : Arena α D} {fl fr : VPBuildStackFrame} {s₀ : BuildState α D}

theorem ItemStart.halved (hbig : env.Bounded)
    (h : ItemStart env arena data root v xs c m₁ fl fr s₀) :
    s₀.Halved data.length ∧ s₀.weight ≤ buildFuel data.length := by
  obtain ⟨hcl, hcr⟩ := length_cut (fun x => hbig x v) h.cut
  have hlenl := length_itemsOf h.framed (f := (.left, fl)) (by rw [h.work]; exact List.mem_cons_self)
  have hlenr := length_itemsOf h.framed (f := (.right, fr))
    (by rw [h.work]; exact List.mem_cons_of_mem _ List.mem_cons_self)
  dsimp only at hlenl hlenr
  rw [h.left] at hlenl
  rw [h.right] at hlenr
  obtain ⟨hl, hr⟩ := stacks_of_work (l := [fl]) (r := [fr]) h.work
  have hdata : data.length = xs.length+1 := by rw [h.data_eq, List.length_cons]
  constructor
  · refine ⟨?_, ?_, ?_⟩
    · rw [hl, hr]
      intro f hf
      rw [List.mem_singleton.mp hf, List.length_singleton]
      omega
    · rw [hr]
      refine ⟨?_, trivial⟩
      rw [List.length_nil, Nat.pow_zero, Nat.mul_one]
      omega
    · rw [hr, List.length_singleton]
      decide
  · rw [BuildState.weight, h.work]
    simp only [List.map_cons, List.map_nil, List.sum_cons, List.sum_nil, buildFuel]
    omega

variable (arena) in
/-- The run lemma of the main loop. It is entered, it comes to its end with no
frame left, and whatever holds at its start and is kept by passes holds in every
state on the way. -/
theorem buildLoop_run (hlarge : vptMaxListSize ≤ data.length) (hsize : data.length < sizeT)
    (hok : ∀ i, env.ok i = true) (hbig : env.Bounded) (hin : SplitsInside env arena data)
    (I : NodePtr → BuildState α D → Prop)
    (hstart : ∀ root v xs c m₁ fl fr s₀, ItemStart env arena data root v xs c m₁ fl fr s₀ →
      I root s₀)
    (hpass : ∀ root s s', s.Framed → I root s → ItemPass env s s' → I root s') :
    ∃ root s₀ s, EntersLoop env arena data root s₀ ∧
      (buildLoop env).run (buildFuel data.length) s₀ = .ok s ∧ s.work = [] ∧
      ∀ t, (buildLoop env).Reaches s₀ t → t.Framed ∧ t.Halved data.length ∧ I root t := by
  obtain ⟨root, v, xs, c, m₁, fl, fr, s₀, h⟩ := itemStart_of_inside arena hok hbig hlarge hsize
    (fun v xs hd => inside_of_splitsInside hok hlarge hin hd)
  obtain ⟨hH, hweight⟩ := h.halved hbig
  let J (t : BuildState α D) : Prop := t.Framed ∧ t.Halved data.length ∧ I root t
  have hJ : J s₀ := ⟨h.framed, hH, hstart _ _ _ _ _ _ _ _ h⟩
  -- termination: every pass keeps the invariants and lowers the weight
  have hstep (t : BuildState α D) (ht : J t) (hnext : t.InsideNext env)
      (hg : (buildLoop env).guard t = true) :
      ∃ t', buildBody env t = .ok t' ∧ J t' ∧ t'.weight < t.weight := by
    obtain ⟨t', hb, hF', hp⟩ := buildBody_itemPass hok hbig ht.1 hnext hg
    obtain ⟨hH', hlt⟩ := hp.halved hsize hbig ht.1 hF' ht.2.1
    exact ⟨t', hb, ⟨hF', hH', hpass root t t' ht.1 ht.2.2 hp⟩, hlt⟩
  have hinside (t : BuildState α D) (ht : (buildLoop env).Reaches s₀ t) : t.InsideNext env :=
    insideNext_of_reaches hin h.enters ht
  obtain ⟨s, hrun, _, hg⟩ := run_terminates (buildLoop env) J _ BuildState.weight hstep
    (buildFuel data.length) s₀ hJ hinside hweight
  refine ⟨root, s₀, s, h.enters, hrun, ?_, ?_⟩
  · apply pop_eq_none_iff.mp
    exact Option.not_isSome_iff_eq_none.mp (by rw [Bool.not_eq_true]; exact hg)
  · intro t ht
    apply reaches_invariant_of (buildLoop env) J _ _ s₀ t hJ hinside ht
    intro t t' ht hnext hpass
    obtain ⟨u, hu, hJu, _⟩ := hstep t ht hnext hpass.1
    obtain rfl : u = t' := Except.ok.inj (hu.symm.trans hpass.2)
    exact hJu

variable (arena) in
/-- The run lemma for a whole large build. -/
theorem vptBuild_run (hlarge : vptMaxListSize ≤ data.length) (hsize : data.length < sizeT)
    (hok : ∀ i, env.ok i = true) (hbig : env.Bounded) (hin : SplitsInside env arena data)
    (I : NodePtr → BuildState α D → Prop)
    (hstart : ∀ root v xs c m₁ fl fr s₀, ItemStart env arena data root v xs c m₁ fl fr s₀ →
      I root s₀)
    (hpass : ∀ root s s', s.Framed → I root s → ItemPass env s s' → I root s') :
    ∃ root s a b, vptBuild env arena data =
        .ok ⟨root, data.length, (s.arena.free a).free b⟩ ∧
      s.work = [] ∧ s.Framed ∧ I root s := by
  obtain ⟨root, s₀, s, ⟨_, arena', r, hinit, hr, hs⟩, hrun, hwork, hall⟩ :=
    buildLoop_run arena hlarge hsize hok hbig hin I hstart hpass
  obtain ⟨hF, _, hI⟩ := hall s (run_reaches _ _ _ _ hrun)
  refine ⟨root, s, r.scratchSpace, r.buildBuffer, ?_, hwork, hF, hI⟩
  rw [vptBuild, hinit]
  simp only [Except.bind, not_lt.mpr hlarge, ↓reduceIte, vptLargeBuild, hr, hs, hrun]

/-- In every build in which memory is found and no scan leaves its list: the main
loop is entered if the list is a large one, it comes to its end, and in every
state it reaches there is at most one left frame, and the right stack has not
overflown. -/
theorem vptBuild_loop_ends (env : BuildEnv α D) (arena : Arena α D) (data : List α)
    (hsize : data.length < sizeT) (hok : ∀ i, env.ok i = true) (hbig : env.Bounded)
    (hin : SplitsInside env arena data) :
    (vptMaxListSize ≤ data.length → ∃ root s₀, EntersLoop env arena data root s₀) ∧
    ∀ root s₀, EntersLoop env arena data root s₀ →
      (∃ s, (buildLoop env).run (buildFuel data.length) s₀ = .ok s ∧
        (buildLoop env).guard s = false) ∧
      ∀ t, (buildLoop env).Reaches s₀ t →
        t.leftStack.length ≤ 1 ∧ t.rightStack.length ≤ vptMaxHeight := by
  have hrun (hlarge : vptMaxListSize ≤ data.length) := buildLoop_run arena hlarge hsize hok hbig hin
    (fun _ _ => True) (fun _ _ _ _ _ _ _ _ _ => trivial) (fun _ _ _ _ _ _ => trivial)
  constructor
  · intro hlarge
    obtain ⟨root, s₀, _, henter, _⟩ := hrun hlarge
    exact ⟨root, s₀, henter⟩
  · intro root s₀ henter
    obtain ⟨root', s₀', s, henter', hs, hwork, hall⟩ := hrun henter.1
    -- a build has one state in which it enters the loop
    obtain ⟨rfl, rfl⟩ := entersLoop_unique henter henter'
    refine ⟨⟨s, hs, ?_⟩, ?_⟩
    · have hpop := pop_eq_none_iff.mpr hwork
      change s.pop.isSome = false
      rw [hpop]
      rfl
    · intro t ht
      obtain ⟨hF, hH, _⟩ := hall t ht
      exact ⟨hF.left_le_one, hH.deep⟩

/-- The loop of a build of five hundred couples, whose tree is 450 branches deep. -/
theorem vptBuild_loop_ends_couples :
    (vptMaxListSize ≤ (couples 500).length →
      ∃ root s₀, EntersLoop coupleEnv .empty (couples 500) root s₀) ∧
    ∀ root s₀, EntersLoop coupleEnv .empty (couples 500) root s₀ →
      (∃ s, (buildLoop coupleEnv).run (buildFuel (couples 500).length) s₀ = .ok s ∧
        (buildLoop coupleEnv).guard s = false) ∧
      ∀ t, (buildLoop coupleEnv).Reaches s₀ t →
        t.leftStack.length ≤ 1 ∧ t.rightStack.length ≤ vptMaxHeight :=
  have hsize : (couples 500).length < sizeT := by
    rw [length_couples]
    decide
  vptBuild_loop_ends coupleEnv .empty (couples 500) hsize (fun _ => rfl)
    coupleEnv_bounded (splitsInside_couples .empty 500 hsize)

end Runs

end VantagePoint
