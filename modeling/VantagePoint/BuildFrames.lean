import VantagePoint.BuildStep
import VantagePoint.BuildSpec

/-! The frames of `VPT_build` and the items they stand for. All frames are ranges
of the one buffer that is measured and sorted again at every split; a pass only
touches the range of the frame it takes. -/
namespace VantagePoint
open WhileLoop

universe u v

variable {α : Type u} {D : Type v}

/-- The items in the range of a frame. -/
def BuildState.itemsOf (s : BuildState α D) (f : VPBuildStackFrame) : List α :=
  (Segment.slice f.children f.numChildren s.buildBuffer).map VPEntry.item

section Framed

variable {s rest : BuildState α D} {side : Side} {popped : VPBuildStackFrame}

theorem length_itemsOf (hF : s.Framed) {f : Side × VPBuildStackFrame} (hf : f ∈ s.work) :
    (s.itemsOf f.2).length = f.2.numChildren := by
  rw [BuildState.itemsOf, List.length_map, Segment.length_slice (hF.bounds f hf)]

/-- A pass that takes a short frame only takes it away. -/
theorem framed_of_leaf {arena : Arena α D} (hF : s.Framed)
    (hpop : s.pop = some (side, popped, rest)) (hc : arena.Chained) :
    { rest with arena := arena }.Framed := by
  obtain ⟨hwork, _, hbuf⟩ := work_of_pop hpop
  have hleft := (leftStack_of_pop hF.left_le_one hpop).1
  have hordered := hF.ordered
  have hbounds := hF.bounds
  have hsize := hF.size_lt
  rw [hwork] at hordered hbounds
  rw [← hbuf] at hbounds hsize
  refine ⟨hc, ?_, hordered.of_cons, fun f hf => hbounds f (List.mem_cons_of_mem _ hf), hsize⟩
  dsimp only
  rw [hleft]
  exact Nat.zero_le 1

/-- A pass that takes a long frame puts two in its place, side by side inside it. -/
theorem framed_of_branch {arena : Arena α D} {buffer : List (VPEntry α D)} {p : NodePtr} {m : ℕ}
    (hF : s.Framed) (hpop : s.pop = some (side, popped, rest)) (hc : arena.Chained)
    (hlen : buffer.length = s.buildBuffer.length) (hpos : 0 < popped.numChildren)
    (hm : m ≤ popped.numChildren-1) :
    (BuildState.mk arena buffer [⟨p, popped.children+1, m⟩]
      (⟨p, popped.children+1+m, popped.numChildren-1-m⟩ :: rest.rightStack)).Framed := by
  obtain ⟨hwork, _, _⟩ := work_of_pop hpop
  have hleft := (leftStack_of_pop hF.left_le_one hpop).1
  have hordered := hF.ordered
  have hbounds := hF.bounds
  rw [hwork, List.pairwise_cons] at hordered
  rw [hwork] at hbounds
  have hpopped := hbounds (side, popped) List.mem_cons_self
  have hrest : rest.work = rest.rightStack.map (Prod.mk .right) := by
    rw [BuildState.work, hleft, List.map_nil, List.nil_append]
  rw [hrest] at hordered hbounds
  dsimp only at hpopped hordered
  -- The frames below lie behind the range that is cut in two.
  have hbehind (f : Side × VPBuildStackFrame) (hf : f ∈ rest.rightStack.map (Prod.mk .right)) :
      popped.children+popped.numChildren ≤ f.2.children := hordered.1 f hf
  refine ⟨hc, le_rfl, ?_, ?_, by dsimp only; rw [hlen]; exact hF.size_lt⟩
  · change ((Side.left, _) :: (Side.right, _) :: rest.rightStack.map (Prod.mk .right)).Pairwise _
    rw [List.pairwise_cons, List.pairwise_cons]
    refine ⟨?_, ?_, hordered.2⟩
    · intro f hf
      rcases List.mem_cons.mp hf with rfl | hf
      · exact le_rfl
      · have hb := hbehind f hf
        dsimp only
        omega
    · intro f hf
      have hb := hbehind f hf
      dsimp only
      omega
  · intro f hf
    change f ∈ (Side.left, _) :: (Side.right, _) :: rest.rightStack.map (Prod.mk .right) at hf
    dsimp only
    rw [hlen]
    rcases List.mem_cons.mp hf with rfl | hf
    · dsimp only
      omega
    · rcases List.mem_cons.mp hf with rfl | hf
      · dsimp only
        omega
      · exact hbounds f (List.mem_cons_of_mem _ hf)

end Framed

variable [LinearOrder D] {env : BuildEnv α D}

section Cut

variable {σ : Split α D} {big : VPEntry α D}

theorem sorted_eq (big : VPEntry α D) (σ : Split α D) : σ.sorted big =
    vpSort big ((σ.entries.map VPEntry.item).map fun x => ⟨x, σ.distance x⟩) := by
  rw [List.map_map]
  rfl

/-- The two halves of the sorted entries are ranges of the buffer. -/
theorem slice_measured (hf : σ.Fits) (hbig : ∀ x, σ.distance x ≤ big.distance) {m : ℕ}
    (hm : m ≤ σ.numEntries) :
    Segment.slice σ.entryList m (σ.measured big) = (σ.sorted big).take m ∧
      Segment.slice (σ.entryList+m) (σ.numEntries-m) (σ.measured big) =
        (σ.sorted big).drop m := by
  have hself : Segment.slice σ.entryList σ.numEntries (σ.measured big) = σ.sorted big :=
    Segment.slice_splice_self hf.bounds (length_sorted hf hbig)
  constructor
  · rw [← hself, Segment.take_slice _ _ hm]
  · rw [← hself, Segment.drop_slice]

/-- A split stays inside if its items can be cut. -/
theorem inside_of_cutItems (hf : σ.Fits) (hbig : ∀ x, σ.distance x ≤ big.distance)
    {c : ItemCut α D} (hc : cutItems big σ.distance (σ.entries.map VPEntry.item) = some c) :
    σ.Inside big := by
  obtain ⟨m, last, hscan, _, _⟩ := cutItems_eq_some hc
  have hstart := start_bounds hf
  rw [← sorted_eq, List.length_map, length_entries hf] at hscan
  have hpos := (scanBack_stop hscan).1
  refine ⟨σ.entryList+m, ?_, by omega⟩
  unfold Split.start at hstart ⊢
  exact ((scanBack_measured hf hbig (by omega)).mpr hscan).1

/-- The cut that a split inside its entries makes. -/
theorem cutItems_of_scan {last : VPEntry α D} {m : ℕ} (hf : σ.Fits)
    (hscan : scanBack (σ.sorted big) (σ.numEntries-σ.numEntries/2) = some m)
    (hlast : (σ.sorted big)[m-1]? = some last) :
    cutItems big σ.distance (σ.entries.map VPEntry.item) = some ⟨last.distance,
      ((σ.sorted big).take m).map VPEntry.item, ((σ.sorted big).drop m).map VPEntry.item⟩ := by
  unfold cutItems
  dsimp only
  rw [← sorted_eq, List.length_map, length_entries hf, hscan, Option.bind_some, hlast,
    Option.map_some]

end Cut

/-- What one pass does, told about items: it turns the frame it takes into a node
of its own, and no other frame's items change. A short frame becomes a list
node; the first item of a long one becomes a branch, and two new frames stand
for the sides of the cut. -/
inductive ItemPass (env : BuildEnv α D) (s : BuildState α D) : BuildState α D → Prop where
  | list {side : Side} {popped : VPBuildStackFrame} {rest s' : BuildState α D} {newnode : NodePtr}
      {m₁ m₂ : Arena α D} {l : ListPtr} (hpop : s.pop = some (side, popped, rest))
      (hnode : s.arena.NewNode newnode m₁) (hlist : m₁.NewList l (s.itemsOf popped).length m₂)
      (hshort : (s.itemsOf popped).length < vptBuildListThreshold)
      (harena : s'.arena = ((m₂.writeNode newnode (.pointlist (some l) (s.itemsOf popped).length
        (s.itemsOf popped).length)).writeItems l
          (s.itemsOf popped)).setChild side popped.parent newnode)
      (hwork : s'.work = rest.work) (hitems : ∀ f ∈ rest.work, s'.itemsOf f.2 = s.itemsOf f.2) :
      ItemPass env s s'
  | cut {side : Side} {popped fl fr : VPBuildStackFrame} {rest s' : BuildState α D}
      {newnode : NodePtr} {m₁ : Arena α D} {v : α} {xs : List α} {c : ItemCut α D}
      (hpop : s.pop = some (side, popped, rest)) (hnode : s.arena.NewNode newnode m₁)
      (hvx : s.itemsOf popped = v :: xs) (hlong : vptBuildListThreshold ≤ (v :: xs).length)
      (hcut : cutItems env.big (env.distFn v) xs = some c) (hl : fl.parent = newnode)
      (hr : fr.parent = newnode)
      (harena : s'.arena = (m₁.writeNode newnode
        (.branch v c.radius none none)).setChild side popped.parent newnode)
      (hwork : s'.work = (.left, fl) :: (.right, fr) :: rest.work)
      (hleft : s'.itemsOf fl = c.left) (hright : s'.itemsOf fr = c.right)
      (hitems : ∀ f ∈ rest.work, s'.itemsOf f.2 = s.itemsOf f.2) : ItemPass env s s'

/-- The state in which the main loop is entered, told about items. -/
structure ItemStart (env : BuildEnv α D) (arena : Arena α D) (data : List α) (root : NodePtr)
    (v : α) (xs : List α) (c : ItemCut α D) (m₁ : Arena α D) (fl fr : VPBuildStackFrame)
    (s₀ : BuildState α D) : Prop where
  data_eq : data = v :: xs
  node : (initialArena arena 2).NewNode root m₁
  cut : cutItems env.big (fun x => env.distFn x v) xs = some c
  parents : fl.parent = root ∧ fr.parent = root
  arena_eq : s₀.arena = m₁.writeNode root (.branch v c.radius none none)
  work : s₀.work = [(.left, fl), (.right, fr)]
  enters : EntersLoop env arena data root s₀
  framed : s₀.Framed
  left : s₀.itemsOf fl = c.left
  right : s₀.itemsOf fr = c.right

section Pass

variable {s rest : BuildState α D} {side : Side} {popped : VPBuildStackFrame}

/-- Sorting the range of the frame that is taken leaves the others' items alone. -/
theorem itemsOf_measured (hbig : env.Bounded) (hF : s.Framed)
    (hpop : s.pop = some (side, popped, rest))
    (hnum : vptBuildListThreshold ≤ popped.numChildren) {σ : Split α D}
    (hσ : frameSplit env s popped = .ok σ) {f : Side × VPBuildStackFrame} (hf : f ∈ rest.work) :
    Segment.slice f.2.children f.2.numChildren (σ.measured env.big) =
      Segment.slice f.2.children f.2.numChildren s.buildBuffer := by
  obtain ⟨hfits, hdist⟩ := fits_of_frameSplit hσ hnum hF.size_lt hbig
  have hlen := length_sorted hfits hdist
  obtain ⟨first, _, hb, rfl⟩ := frameSplit_eq_ok.mp hσ
  have hordered := hF.ordered
  rw [(work_of_pop hpop).1, List.pairwise_cons] at hordered
  have hbehind : popped.children+popped.numChildren ≤ f.2.children := hordered.1 f hf
  unfold vptBuildListThreshold at hnum
  apply Segment.slice_splice_after hfits.bounds hlen
  dsimp only
  omega

omit [LinearOrder D] in
/-- The items of a frame are its vantage point and the entries of its split. -/
theorem itemsOf_popped {σ : Split α D} (hσ : frameSplit env s popped = .ok σ)
    (hnum : vptBuildListThreshold ≤ popped.numChildren) :
    s.itemsOf popped = σ.sortBy :: σ.entries.map VPEntry.item ∧
      σ.distance = env.distFn σ.sortBy := by
  obtain ⟨first, hfirst, _, rfl⟩ := frameSplit_eq_ok.mp hσ
  unfold vptBuildListThreshold at hnum
  have hcount : popped.numChildren = popped.numChildren-1+1 := by omega
  refine ⟨?_, rfl⟩
  rw [BuildState.itemsOf, hcount, Segment.slice_cons hfirst, List.map_cons]
  rfl

theorem buildBody_list (hok : ∀ i, env.ok i = true) (hF : s.Framed)
    (hpop : s.pop = some (side, popped, rest))
    (hnum : popped.numChildren < vptBuildListThreshold) :
    ∃ s', buildBody env s = .ok s' ∧ s'.Framed ∧ ItemPass env s s' := by
  obtain ⟨newnode, m₁, l, m₂, hnew, hnewl, hbody⟩ := buildBody_leaf hok hF hpop hnum
  obtain ⟨_, _, hbuf⟩ := work_of_pop hpop
  have hlen : (s.itemsOf popped).length = popped.numChildren :=
    length_itemsOf hF (mem_work_of_pop hpop)
  refine ⟨{ rest with arena := _ }, hbody, ?_, .list hpop hnew (by rwa [hlen]) (by rwa [hlen])
    (by rw [hlen]; rfl) rfl ?_⟩
  · apply framed_of_leaf hF hpop
    apply Arena.Chained.setChild
    exact hnewl.chained.congr rfl rfl rfl
  · intro f _
    change (Segment.slice f.2.children f.2.numChildren rest.buildBuffer).map VPEntry.item =
      s.itemsOf f.2
    rw [hbuf, BuildState.itemsOf]

theorem buildBody_cut (hok : ∀ i, env.ok i = true) (hbig : env.Bounded) (hF : s.Framed)
    (hin : s.InsideNext env) (hpop : s.pop = some (side, popped, rest))
    (hnum : vptBuildListThreshold ≤ popped.numChildren) :
    ∃ s', buildBody env s = .ok s' ∧ s'.Framed ∧ ItemPass env s s' := by
  obtain ⟨newnode, m₁, σ, m, last, next, hnew, hσ, hfits, hdist, hpos, hm, hscan, hlast, _, _,
    hbody⟩ := buildBody_branch hok hbig hF hin hpop hnum
  have hleft := (leftStack_of_pop hF.left_le_one hpop).1
  have hmlen := length_measured hfits hdist
  have hcut := cutItems_of_scan hfits hscan hlast
  have hothers (f : Side × VPBuildStackFrame) (hf : f ∈ rest.work) :=
    itemsOf_measured hbig hF hpop hnum hσ hf
  obtain ⟨htake, hdrop⟩ := slice_measured hfits hdist (by omega : m ≤ σ.numEntries)
  obtain ⟨hitems, hd⟩ := itemsOf_popped hσ hnum
  obtain ⟨first, hfirst, hb, hσeq⟩ := frameSplit_eq_ok.mp hσ
  unfold vptBuildListThreshold at hnum
  rw [hd] at hcut
  have hlong : vptBuildListThreshold ≤ (σ.sortBy :: σ.entries.map VPEntry.item).length := by
    rw [← hitems, length_itemsOf hF (mem_work_of_pop hpop)]
    exact hnum
  let fl : VPBuildStackFrame := ⟨newnode, σ.entryList, m⟩
  let fr : VPBuildStackFrame := ⟨newnode, σ.entryList+m, σ.numEntries-m⟩
  have hl : fl.parent = newnode := rfl
  have hr : fr.parent = newnode := rfl
  refine ⟨_, hbody, ?_, .cut hpop hnew hitems hlong hcut hl hr rfl ?_ ?_ ?_ ?_⟩
  · have hlen : (σ.measured env.big).length = s.buildBuffer.length := by
      rw [hmlen, hσeq]
    have he : σ.entryList = popped.children+1 := by rw [hσeq]
    have hn : σ.numEntries = popped.numChildren-1 := by rw [hσeq]
    rw [he, hn]
    refine framed_of_branch hF hpop ?_ hlen (by omega) (by omega)
    apply Arena.Chained.setChild
    exact hnew.chained.congr rfl rfl rfl
  · simp only [BuildState.work, hleft, List.map_nil, List.nil_append, List.map_cons,
      List.cons_append, fl, fr]
  · rw [BuildState.itemsOf, htake]
  · rw [BuildState.itemsOf, hdrop]
  · intro f hf
    rw [BuildState.itemsOf, BuildState.itemsOf, hothers f hf]

/-- The step lemma of the main loop: the pass comes back, and does what
`ItemPass` says. -/
theorem buildBody_itemPass (hok : ∀ i, env.ok i = true) (hbig : env.Bounded) (hF : s.Framed)
    (hin : s.InsideNext env) (hguard : (buildLoop env).guard s = true) :
    ∃ s', buildBody env s = .ok s' ∧ s'.Framed ∧ ItemPass env s s' := by
  obtain ⟨⟨side, popped, rest⟩, hpop⟩ := Option.isSome_iff_exists.mp hguard
  rcases Nat.lt_or_ge popped.numChildren vptBuildListThreshold with hnum | hnum
  · exact buildBody_list hok hF hpop hnum
  · exact buildBody_cut hok hbig hF hin hpop hnum

end Pass

section Runs

variable {arena : Arena α D} {data : List α}

theorem insideNext_of_reaches {root : NodePtr} {s₀ s : BuildState α D}
    (hin : SplitsInside env arena data) (henter : EntersLoop env arena data root s₀)
    (hs : (buildLoop env).Reaches s₀ s) : s.InsideNext env :=
  fun side popped rest σ hpop hnum hnode hσ =>
    hin σ (.frame root s₀ s rest side popped σ henter hs hpop hnum hnode hσ)

theorem inside_of_splitsInside (hok : ∀ i, env.ok i = true)
    (hlarge : vptMaxListSize ≤ data.length) (hin : SplitsInside env arena data) {v : α}
    {xs : List α} (hd : data = v :: xs) : (splitAtRoot env v xs).Inside env.big := by
  subst hd
  exact hin _ (performs_root hok v xs hlarge)

omit [LinearOrder D] in
theorem splitAtRoot_items (env : BuildEnv α D) (v : α) (xs : List α) :
    (splitAtRoot env v xs).entries.map VPEntry.item = xs := by
  have hlen : (xs.map fun x => (⟨x, env.big.distance⟩ : VPEntry α D)).length = xs.length :=
    List.length_map _
  rw [Split.entries, Segment.slice]
  simp only [splitAtRoot, List.drop_zero]
  rw [List.take_of_length_le (by omega), List.map_map, Function.comp_def, List.map_id']

/-- The two halves of the root split, as the main loop finds them. -/
theorem framed_of_start {v : α} {xs : List α} {root : NodePtr} {m₁ : Arena α D} {m : ℕ}
    {last : VPEntry α D} {s₀ : BuildState α D} (hnew : (initialArena arena 2).NewNode root m₁)
    (hfits : (splitAtRoot env v xs).Fits)
    (hdist : ∀ x, (splitAtRoot env v xs).distance x ≤ env.big.distance)
    (hm : m ≤ xs.length-xs.length/2) (hsize : (v :: xs).length < sizeT)
    (hs₀ : s₀ = { arena := m₁.writeNode root (.branch v last.distance none none)
                  buildBuffer := (splitAtRoot env v xs).measured env.big
                  leftStack := [⟨root, 0, m⟩]
                  rightStack := [⟨root, m, xs.length-m⟩] }) : s₀.Framed := by
  have hlen : ((splitAtRoot env v xs).measured env.big).length = xs.length := by
    rw [length_measured hfits hdist]
    exact List.length_map _
  have hdata : (v :: xs).length = xs.length+1 := List.length_cons
  subst hs₀
  refine ⟨?_, le_rfl, ?_, ?_, ?_⟩
  · exact hnew.chained.congr rfl rfl rfl
  · change [(Side.left, _), (Side.right, _)].Pairwise _
    rw [List.pairwise_cons]
    refine ⟨?_, List.pairwise_singleton _ _⟩
    intro f hf
    rw [List.mem_singleton.mp hf]
    exact (Nat.zero_add m).le
  · intro f hf
    change f ∈ [(Side.left, _), (Side.right, _)] at hf
    dsimp only
    rw [hlen]
    rcases List.mem_cons.mp hf with rfl | hf
    · dsimp only
      omega
    · rw [List.mem_singleton.mp hf]
      dsimp only
      omega
  · dsimp only
    omega

variable (arena) in
theorem itemStart_of_inside (hok : ∀ i, env.ok i = true) (hbig : env.Bounded)
    (hlarge : vptMaxListSize ≤ data.length) (hsize : data.length < sizeT)
    (hin : ∀ v xs, data = v :: xs → (splitAtRoot env v xs).Inside env.big) :
    ∃ root v xs c m₁ fl fr s₀, ItemStart env arena data root v xs c m₁ fl fr s₀ := by
  obtain ⟨v, xs, root, m₁, m, last, next, s₀, rfl, hnew, hfits, hdist, hpos, hm, hscan, hlast, _,
    _, hs₀, henter⟩ := entersLoop_of_inside arena hok hbig hlarge hsize hin
  have hF := framed_of_start hnew hfits hdist hm hsize hs₀
  have hcut := cutItems_of_scan hfits hscan hlast
  rw [splitAtRoot_items] at hcut
  have hmle : m ≤ xs.length := by omega
  obtain ⟨htake, hdrop⟩ := slice_measured hfits hdist hmle
  change Segment.slice 0 m ((splitAtRoot env v xs).measured env.big) = _ at htake
  change Segment.slice (0+m) (xs.length-m) ((splitAtRoot env v xs).measured env.big) = _ at hdrop
  rw [Nat.zero_add] at hdrop
  subst hs₀
  refine ⟨root, v, xs, _, m₁, ⟨root, 0, m⟩, ⟨root, m, xs.length-m⟩, _, rfl, hnew, hcut,
    ⟨rfl, rfl⟩, rfl, rfl, henter, hF, ?_, ?_⟩
  · rw [BuildState.itemsOf, htake]
  · rw [BuildState.itemsOf, hdrop]

/-- If the items of every frame can be cut, the next split stays inside. -/
theorem insideNext_of_items {s : BuildState α D} (hbig : env.Bounded) (hF : s.Framed)
    (hcut : ∀ f ∈ s.work, ∀ v xs, s.itemsOf f.2 = v :: xs →
      vptBuildListThreshold ≤ (v :: xs).length → ∃ c, cutItems env.big (env.distFn v) xs = some c) :
    s.InsideNext env := by
  intro side popped rest σ hpop hnum _ hσ
  obtain ⟨_, _, hbuf⟩ := work_of_pop hpop
  have hmem := mem_work_of_pop hpop
  have hσs : frameSplit env s popped = .ok σ := by
    rw [frameSplit, hbuf] at hσ
    rw [frameSplit, hσ]
  obtain ⟨hfits, hdist⟩ := fits_of_frameSplit hσs hnum hF.size_lt hbig
  obtain ⟨hitems, hd⟩ := itemsOf_popped hσs hnum
  have hlen := length_itemsOf hF hmem
  dsimp only at hlen
  obtain ⟨c, hc⟩ := hcut (side, popped) hmem _ _ hitems (by rw [← hitems, hlen]; exact hnum)
  rw [← hd] at hc
  exact inside_of_cutItems hfits hdist hc

/-- What cutting keeps, a pass keeps for the items of all frames. -/
theorem ItemPass.items {s s' : BuildState α D} (h : ItemPass env s s') {Q : List α → Prop}
    (hcut : ∀ v xs, Q (v :: xs) → vptBuildListThreshold ≤ (v :: xs).length →
      ∃ c, cutItems env.big (env.distFn v) xs = some c ∧ Q c.left ∧ Q c.right)
    (hQ : ∀ f ∈ s.work, Q (s.itemsOf f.2)) : ∀ f ∈ s'.work, Q (s'.itemsOf f.2) := by
  cases h with
  | list hpop _ _ _ _ hwork hitems =>
    rw [(work_of_pop hpop).1] at hQ
    intro f hf
    rw [hwork] at hf
    rw [hitems f hf]
    exact hQ f (List.mem_cons_of_mem _ hf)
  | @cut side popped fl fr rest _ _ _ v xs c hpop _ hvx hlong hc _ _ _ hwork hleft hright hitems =>
    rw [(work_of_pop hpop).1] at hQ
    have hQp := hQ (side, popped) List.mem_cons_self
    dsimp only at hQp
    rw [hvx] at hQp
    -- the pass made the cut that `hcut` speaks of
    obtain ⟨c', hc', hQl, hQr⟩ := hcut v xs hQp hlong
    obtain rfl : c = c' := Option.some.inj (hc.symm.trans hc')
    intro f hf
    rw [hwork] at hf
    rcases List.mem_cons.mp hf with rfl | hf
    · dsimp only
      rwa [hleft]
    · rcases List.mem_cons.mp hf with rfl | hf
      · dsimp only
        rwa [hright]
      · rw [hitems f hf]
        exact hQ f (List.mem_cons_of_mem _ hf)

/-- A short list is never split. -/
theorem splitsInside_of_short (h : data.length < vptMaxListSize) :
    SplitsInside env arena data := by
  intro σ hσ
  cases hσ with
  | root _ _ hlarge => exact absurd h (not_lt.mpr hlarge)
  | frame _ _ _ _ _ _ _ henter => exact absurd h (not_lt.mpr henter.1)

/-- Builds of data whose lists can be cut at every level: `Q` is what is known of
the items of a frame, and cutting keeps it. -/
theorem splitsInside_of_items (hok : ∀ i, env.ok i = true) (hbig : env.Bounded)
    (hsize : data.length < sizeT) (Q : List α → Prop)
    (hroot : ∀ v xs, data = v :: xs → vptMaxListSize ≤ (v :: xs).length →
      ∃ c, cutItems env.big (fun x => env.distFn x v) xs = some c ∧ Q c.left ∧ Q c.right)
    (hcut : ∀ v xs, Q (v :: xs) → vptBuildListThreshold ≤ (v :: xs).length →
      ∃ c, cutItems env.big (env.distFn v) xs = some c ∧ Q c.left ∧ Q c.right) :
    SplitsInside env arena data := by
  -- The root is measured the other way round, so it has a case of its own.
  have hatRoot (hlarge : vptMaxListSize ≤ data.length) (v : α) (xs : List α)
      (hd : data = v :: xs) : (splitAtRoot env v xs).Inside env.big := by
    obtain ⟨c, hc, _, _⟩ := hroot v xs hd (hd ▸ hlarge)
    subst hd
    obtain ⟨hfits, hdist⟩ := splitAtRoot_fits hlarge hsize hbig
    apply inside_of_cutItems hfits hdist
    rw [splitAtRoot_items]
    exact hc
  -- In a state whose items can all be cut, the pass to come splits well.
  have hnext (t : BuildState α D) (hI : t.Framed ∧ ∀ f ∈ t.work, Q (t.itemsOf f.2)) :
      t.InsideNext env := by
    apply insideNext_of_items hbig hI.1
    intro f hf v xs hitems hlen
    have hQ := hI.2 f hf
    rw [hitems] at hQ
    obtain ⟨c, hc, _, _⟩ := hcut v xs hQ hlen
    exact ⟨c, hc⟩
  intro σ hσ
  cases hσ with
  | root arena' r hlarge _ hr =>
    obtain ⟨v, xs, hd, hsplit⟩ := rootSplit_eq_ok hr
    rw [hsplit]
    exact hatRoot hlarge v xs hd
  | frame root s₀ s s' side popped _ henter hs hpop hbranch hnode hσ =>
    obtain ⟨root', v, xs, c, m₁, fl, fr, s₀', hstart⟩ :=
      itemStart_of_inside arena hok hbig henter.1 hsize (hatRoot henter.1)
    obtain ⟨_, rfl⟩ := entersLoop_unique henter hstart.enters
    -- By the invariant rule this holds of every state the loop reaches.
    have hI : s.Framed ∧ ∀ f ∈ s.work, Q (s.itemsOf f.2) := by
      apply reaches_invariant (buildLoop env)
        (fun t => t.Framed ∧ ∀ f ∈ t.work, Q (t.itemsOf f.2)) _ s₀ s _ hs
      · intro t t' hI hstep
        obtain ⟨u, hu, huF, hpass⟩ := buildBody_itemPass hok hbig hI.1 (hnext t hI) hstep.1
        obtain rfl : u = t' := Except.ok.inj (hu.symm.trans hstep.2)
        exact ⟨huF, hpass.items hcut hI.2⟩
      · obtain ⟨c', hc', hQl, hQr⟩ := hroot v xs hstart.data_eq (hstart.data_eq ▸ henter.1)
        obtain rfl : c = c' := Option.some.inj (hstart.cut.symm.trans hc')
        refine ⟨hstart.framed, ?_⟩
        intro f hf
        rw [hstart.work] at hf
        rcases List.mem_cons.mp hf with rfl | hf
        · dsimp only
          rwa [hstart.left]
        · rw [List.mem_singleton.mp hf]
          dsimp only
          rwa [hstart.right]
    exact hnext s hI side popped s' _ hpop hbranch hnode hσ

end Runs

end VantagePoint
