import VantagePoint.SearchDepth
import Mathlib.Data.List.FinRange
import Mathlib.Data.Nat.Log

/-! Builds of data of which few points are equidistant from any other. The scan for the
cut then goes back by a few entries only, and so no scan leaves its list, the tree is
balanced, and the searches have room on their stacks. -/
namespace VantagePoint

universe u v

variable {α : Type u} {D : Type v}

/-- The branches on the longest way down. -/
def VPNode.height : VPNode α D → ℕ
  | .branch _ _ left right => max left.height right.height+1
  | .pointlist _ => 0

section Cut

variable [LinearOrder D]

/-- At most `c` of the points are at the same distance from any of them. -/
def TiesAtMost (dist_fn : α → α → D) (c : ℕ) (xs : List α) : Prop :=
  ∀ v ∈ xs, ∀ r, xs.countP (fun x => dist_fn v x = r) ≤ c

theorem TiesAtMost.subperm {dist_fn : α → α → D} {c : ℕ} {xs ys : List α}
    (h : TiesAtMost dist_fn c xs) (hys : ys.Subperm xs) : TiesAtMost dist_fn c ys :=
  fun v hv r => (hys.countP_le _).trans (h v (hys.subset hv) r)

/-- Every point is at its own distance from any point. -/
theorem TiesAtMost.pos {dist_fn : α → α → D} {c : ℕ} {v : α} {xs : List α}
    (h : TiesAtMost dist_fn c (v :: xs)) : 1 ≤ c := by
  have hv := h v List.mem_cons_self (dist_fn v v)
  rw [List.countP_cons_of_pos (by simp)] at hv
  omega

variable {big : VPEntry α D} {f : α → D} {xs : List α} {c : ℕ}

/-- The scan passes fewer than `c` entries. -/
theorem scanBack_of_ties {es : List (VPEntry α D)} {k : ℕ} (hk : k < es.length) (hc : c ≤ k)
    (hties : ∀ r, es.countP (fun e => e.distance = r) ≤ c) :
    ∃ m, scanBack es k = some m ∧ k < m+c := by
  by_contra hno
  have hlow (m : ℕ) (hm : scanBack es k = some m) : m ≤ k-c := by
    by_contra hlt
    exact hno ⟨m, hm, by omega⟩
  have hsame := (scanBack_pass (Nat.sub_le k c) hk hlow).2
  -- Otherwise `c+1` entries, up to the one the scan starts from, are tied.
  have hlen : ((es.drop (k-c)).take (c+1)).length = c+1 := by
    rw [List.length_take, List.length_drop]
    omega
  have hall : ((es.drop (k-c)).take (c+1)).countP (fun e => e.distance = es[k].distance) =
      ((es.drop (k-c)).take (c+1)).length := by
    apply List.countP_eq_length.mpr
    intro e he
    obtain ⟨i, hi, rfl⟩ := List.getElem_of_mem he
    rw [hlen] at hi
    have heq := hsame (k-c+i) (Nat.le_add_right _ _) (by omega)
    simpa using heq
  have hsub : ((es.drop (k-c)).take (c+1)).Sublist es :=
    (List.take_sublist _ _).trans (List.drop_sublist _ _)
  have hle := (hsub.countP_le).trans (hties es[k].distance)
  rw [hall, hlen] at hle
  omega

/-- A list is cut less than `c` entries from its middle. -/
theorem cutItems_of_ties (hbig : ∀ x, f x ≤ big.distance) (h2 : 2 ≤ xs.length)
    (hc : c ≤ xs.length-xs.length/2) (hties : ∀ r, xs.countP (fun x => f x = r) ≤ c) :
    ∃ cut, cutItems big f xs = some cut ∧ xs.length-xs.length/2 < cut.left.length+c := by
  have hlen := vpSort_length big (xs.map fun x => (⟨x, f x⟩ : VPEntry α D))
  rw [List.length_map] at hlen
  have hperm := (vpSort_items hbig xs).1
  unfold cutItems
  dsimp only
  generalize vpSort big (xs.map fun x => (⟨x, f x⟩ : VPEntry α D)) = es at hlen hperm ⊢
  have hcount (r : D) : es.countP (fun e => e.distance = r) ≤ c := by
    rw [hperm.countP_eq, List.countP_map]
    exact hties r
  obtain ⟨m, hscan, hm⟩ := scanBack_of_ties (by omega) hc hcount
  have hle := (scanBack_stop hscan).2.1
  have hlast : m-1 < es.length := by omega
  refine ⟨⟨es[m-1].distance, (es.take m).map VPEntry.item, (es.drop m).map VPEntry.item⟩, ?_, ?_⟩
  · rw [hscan, Option.bind_some, List.getElem?_eq_getElem hlast, Option.map_some]
  · rw [List.length_map, List.length_take]
    omega

end Cut

section Height

/-- How high a tree of `n` points may be. -/
def HeightFits (c n h : ℕ) : Prop :=
  h = 0 ∨ (102-2*c)*2^(h-1)+vptBuildListThreshold ≤ n+(102-2*c)

theorem heightFits_branch {c n left right h k : ℕ} (hpos : 1 ≤ c)
    (hc : 2*c ≤ vptBuildListThreshold) (hn : vptBuildListThreshold ≤ n) (hleft : left ≤ n/2)
    (hright : right+1 ≤ (n-1)/2+c) (hl : HeightFits c left h) (hr : HeightFits c right k) :
    HeightFits c n (max h k+1) := by
  unfold HeightFits vptBuildListThreshold at *
  right
  rw [Nat.add_sub_cancel]
  rcases Nat.eq_zero_or_pos (max h k) with hzero | hmax
  · rw [hzero, pow_zero]
    omega
  · obtain ⟨a, ha⟩ := Nat.exists_eq_succ_of_ne_zero hmax.ne'
    have hdouble : (102-2*c)*2^(max h k) = 2*((102-2*c)*2^a) := by
      rw [ha, pow_succ]
      ring
    rw [hdouble]
    rcases le_total h k with hle | hle
    · rw [max_eq_right hle] at ha
      rw [ha, Nat.succ_sub_one] at hr
      omega
    · rw [max_eq_left hle] at ha
      rw [ha, Nat.succ_sub_one] at hl
      omega

variable [LinearOrder D] {env : BuildEnv α D} {c : ℕ}

/-- The induction along which trees are built from lists that can be cut: `Q` is what is
known of a list, and cutting keeps it. -/
theorem buildItems_cut_rule {P : List α → VPNode α D → Prop} (Q : List α → Prop)
    (hcut : ∀ v xs, Q (v :: xs) → vptBuildListThreshold ≤ (v :: xs).length →
      ∃ cut, cutItems env.big (env.distFn v) xs = some cut ∧ Q cut.left ∧ Q cut.right ∧
        ∀ l r, P cut.left l → P cut.right r → P (v :: xs) (.branch v cut.radius l r))
    (hlist : ∀ xs, xs.length < vptBuildListThreshold → P xs (.pointlist xs)) {xs : List α}
    (hQ : Q xs) : P xs (buildItems env xs) := by
  induction hn : xs.length using Nat.strong_induction_on generalizing xs with
  | _ n ih =>
    subst hn
    rcases Nat.lt_or_ge xs.length vptBuildListThreshold with hshort | hlong
    · rw [buildItems_of_short hshort]
      exact hlist xs hshort
    · cases xs with
      | nil => cases hlong
      | cons v xs =>
        obtain ⟨cut, hc, hleft, hright, hbranch⟩ := hcut v xs hQ hlong
        have hlen := length_cutItems hc
        rw [List.length_cons] at ih
        rw [buildItems_of_cut hlong hc]
        exact hbranch _ _ (ih cut.left.length (by omega) hleft rfl)
          (ih cut.right.length (by omega) hright rfl)

/-- Where ties are few, both sides of a cut are about half of the list. -/
theorem cut_of_ties {v : α} {xs : List α} (hbig : env.Bounded)
    (hc : 2*c ≤ vptBuildListThreshold) (hties : TiesAtMost env.distFn c (v :: xs))
    (hlong : vptBuildListThreshold ≤ (v :: xs).length) :
    ∃ cut, cutItems env.big (env.distFn v) xs = some cut ∧
      TiesAtMost env.distFn c cut.left ∧ TiesAtMost env.distFn c cut.right ∧
      cut.left.length ≤ (v :: xs).length/2 ∧
      cut.right.length+1 ≤ ((v :: xs).length-1)/2+c := by
  rw [List.length_cons] at hlong ⊢
  unfold vptBuildListThreshold at hc hlong
  have hothers (r : D) : xs.countP (fun x => env.distFn v x = r) ≤ c :=
    ((List.sublist_cons_self v xs).countP_le).trans (hties v List.mem_cons_self r)
  obtain ⟨cut, hcut, hleft⟩ := cutItems_of_ties (hbig v) (by omega) (by omega) hothers
  obtain ⟨hperm, _, _⟩ := cutItems_spec (hbig v) hcut
  have hsub : (cut.left ++ cut.right).Subperm (v :: xs) :=
    hperm.subperm.trans (List.sublist_cons_self v xs).subperm
  have hhalf := (cutItems_left (hbig v) hcut).2
  have hlen := length_cutItems hcut
  refine ⟨cut, hcut, ?_, ?_, ?_, ?_⟩
  · exact hties.subperm ((List.sublist_append_left _ _).subperm.trans hsub)
  · exact hties.subperm ((List.sublist_append_right _ _).subperm.trans hsub)
  · omega
  · omega

theorem buildItems_height (hbig : env.Bounded) (hc : 2*c ≤ vptBuildListThreshold) {xs : List α}
    (hties : TiesAtMost env.distFn c xs) : HeightFits c xs.length (buildItems env xs).height := by
  apply buildItems_cut_rule (P := fun xs t => HeightFits c xs.length t.height)
    (TiesAtMost env.distFn c) _ (fun xs _ => Or.inl rfl) hties
  intro v xs hxs hlong
  obtain ⟨cut, hcut, hleft, hright, hhalf, hother⟩ := cut_of_ties hbig hc hxs hlong
  refine ⟨cut, hcut, hleft, hright, ?_⟩
  intro l r hl hr
  exact heightFits_branch hxs.pos hc hlong hhalf hother hl hr

theorem buildTree_height (hbig : env.Bounded) (hcomm : ∀ x y, env.distFn x y = env.distFn y x)
    (hc : 2*c ≤ vptBuildListThreshold) {data : List α} (hties : TiesAtMost env.distFn c data) :
    HeightFits c data.length (buildTree env data).height := by
  rcases Nat.lt_or_ge data.length vptMaxListSize with hsmall | hlarge
  · left
    unfold buildTree
    rw [if_pos hsmall]
    rfl
  · cases data with
    | nil => cases hlarge
    | cons v xs =>
      have hlong : vptBuildListThreshold ≤ (v :: xs).length := le_trans (by decide) hlarge
      obtain ⟨cut, hcut, hleft, hright, hhalf, hother⟩ := cut_of_ties hbig hc hties hlong
      have hflip : env.distFn v = fun x => env.distFn x v := funext fun x => hcomm v x
      rw [hflip] at hcut
      rw [buildTree_of_cut hlarge hcut]
      exact heightFits_branch hties.pos hc hlong hhalf hother (buildItems_height hbig hc hleft)
        (buildItems_height hbig hc hright)

/-- No scan leaves its list. -/
theorem splitsInside_of_ties (arena : Arena α D) (hok : ∀ i, env.ok i = true) (hbig : env.Bounded)
    (hcomm : ∀ x y, env.distFn x y = env.distFn y x) (hc : 2*c ≤ vptBuildListThreshold)
    {data : List α} (hsize : data.length < sizeT) (hties : TiesAtMost env.distFn c data) :
    SplitsInside env arena data := by
  apply splitsInside_of_items hok hbig hsize (TiesAtMost env.distFn c)
  · intro v xs hdata hlarge
    subst hdata
    have hlong : vptBuildListThreshold ≤ (v :: xs).length := le_trans (by decide) hlarge
    obtain ⟨cut, hcut, hleft, hright, _⟩ := cut_of_ties hbig hc hties hlong
    have hflip : env.distFn v = fun x => env.distFn x v := funext fun x => hcomm v x
    rw [hflip] at hcut
    exact ⟨cut, hcut, hleft, hright⟩
  · intro v xs hxs hlong
    obtain ⟨cut, hcut, hleft, hright, _⟩ := cut_of_ties hbig hc hxs hlong
    exact ⟨cut, hcut, hleft, hright⟩

/-- The height in closed form. -/
theorem HeightFits.le_log {n h : ℕ} (hpos : 1 ≤ c) (hc : 2*c ≤ vptBuildListThreshold)
    (hh : HeightFits c n h) :
    h ≤ Nat.log 2 ((n-2*(c-1))/(vptBuildListThreshold-2*(c-1)))+1 := by
  rcases hh with rfl | hh
  · exact Nat.zero_le _
  · unfold vptBuildListThreshold at *
    have hwidth : 102-2*c = 100-2*(c-1) := by omega
    rw [hwidth] at hh
    have hpow : 2^(h-1) ≤ (n-2*(c-1))/(100-2*(c-1)) := by
      rw [Nat.le_div_iff_mul_le (by omega), mul_comm]
      omega
    have hlog := Nat.le_log_of_pow_le (by decide) hpow
    omega

theorem HeightFits.lt_maxHeight {n h : ℕ} (hc : 2*c ≤ vptBuildListThreshold) (hn : n < sizeT)
    (hh : HeightFits c n h) : h < vptMaxHeight := by
  rcases hh with rfl | hh
  · decide
  · unfold vptBuildListThreshold at *
    have hpow : 2^h ≤ n+2 := by
      cases h with
      | zero => omega
      | succ h =>
        rw [Nat.succ_sub_one] at hh
        have hmul : 2*2^h ≤ (102-2*c)*2^h := Nat.mul_le_mul_right _ (by omega)
        rw [pow_succ, mul_comm]
        omega
    have hlt : 2^h < 2^65 := lt_of_le_of_lt hpow (by unfold sizeT at hn; omega)
    have hbound := (Nat.pow_lt_pow_iff_right (by decide)).mp hlt
    unfold vptMaxHeight
    omega

theorem pendingDepth_le_height (dist : α → D) (t : VPNode α D) :
    t.pendingDepth dist ≤ t.height+1 := by
  induction t with
  | pointlist xs => exact le_rfl
  | branch v r left right ihl ihr =>
    unfold VPNode.pendingDepth VPNode.height
    split
    · omega
    · omega

end Height

section Build

variable [LinearOrder D]

/-- Data of which at most half a list threshold of points are equidistant from any of
them: where memory is found, the build returns `true` with an ordered tree of all the
points, of logarithmic height, and no search of it ever runs out of stack. -/
theorem vptBuild_balanced [Add D] [Sub D] (env : BuildEnv α D) (arena : Arena α D) (data : List α)
    (c : ℕ) (hc : 2*c ≤ vptBuildListThreshold) (hties : TiesAtMost env.distFn c data)
    (hne : data ≠ []) (hsize : data.length < sizeT) (hok : ∀ i, env.ok i = true)
    (hbig : env.Bounded) (hcomm : ∀ x y, env.distFn x y = env.distFn y x) :
    ∃ t root, vptBuild env arena data = .ok t ∧ t.arena.Represents root t.root ∧
      root.items.Perm data ∧ root.Ordered env.distFn ∧
      root.height ≤ Nat.log 2 ((data.length-2*(c-1))/(vptBuildListThreshold-2*(c-1)))+1 ∧
      ∀ DIST_MAX q, StacksFit env.distFn DIST_MAX root q := by
  have hin := splitsInside_of_ties arena hok hbig hcomm hc hsize hties
  have hheight := buildTree_height hbig hcomm hc hties
  have hpos : 1 ≤ c := by
    obtain ⟨v, xs, rfl⟩ := List.exists_cons_of_ne_nil hne
    exact hties.pos
  obtain ⟨hperm, hordered⟩ := buildTree_spec hbig data
  apply vptBuild_tree arena hsize hok hbig hin
  refine ⟨hperm, hordered hcomm, hheight.le_log hpos hc, ?_⟩
  intro DIST_MAX q
  have hdepth : (buildTree env data).pendingDepth (fun x => env.distFn x q) ≤ vptMaxHeight :=
    (pendingDepth_le_height _ _).trans (hheight.lt_maxHeight hc hsize)
  exact ⟨fits_of_pendingDepth _ _ _ _ hdepth, fun k _ => fits_of_pendingDepth _ _ _ _ hdepth,
    fun _ _ _ => fits_of_pendingDepth _ _ _ _ hdepth⟩

/-- Points on a line, one apart. -/
def rulerEnv (n : ℕ) : BuildEnv (Fin (n+1)) ℤ :=
  ⟨fun i j => |(i : ℤ)-j|, ⟨0, n⟩, fun _ => true, bufSizes⟩

def ruler (n : ℕ) : List (Fin (n+1)) := List.finRange (n+1)

theorem rulerEnv_bounded (n : ℕ) : (rulerEnv n).Bounded := by
  intro i j
  have hi := i.isLt
  have hj := j.isLt
  show |(i : ℤ)-j| ≤ n
  exact abs_le.mpr ⟨by omega, by omega⟩

/-- Only two points of a line are at one distance from a third. -/
theorem tiesAtMost_ruler (n : ℕ) :
    TiesAtMost (rulerEnv n).distFn 2 (ruler n) := by
  intro i _ r
  rw [List.countP_eq_length_filter]
  let value (j : Fin (n+1)) : ℤ := j
  have hinj : Function.Injective value := fun j k hjk => Fin.ext (by simpa [value] using hjk)
  have hnodup : (((ruler n).filter fun j => (rulerEnv n).distFn i j = r).map value).Nodup :=
    ((List.nodup_finRange (n+1)).filter _).map hinj
  have hsub : ((ruler n).filter fun j => (rulerEnv n).distFn i j = r).map value ⊆
      [i-r, i+r] := by
    intro y hy
    obtain ⟨j, hj, rfl⟩ := List.mem_map.mp hy
    have habs : |(i : ℤ)-j| = r := of_decide_eq_true (List.mem_filter.mp hj).2
    rcases abs_choice ((i : ℤ)-j) with hcase | hcase
    · simp only [value, List.mem_cons, List.not_mem_nil, or_false]
      omega
    · simp only [value, List.mem_cons, List.not_mem_nil, or_false]
      omega
  have hlen := (List.subperm_of_subset hnodup hsub).length_le
  rwa [List.length_map] at hlen

/-- A thousand points on a line. -/
theorem vptBuild_balanced_ruler :
    ∃ t root, vptBuild (rulerEnv 999) .empty (ruler 999) = .ok t ∧
      t.arena.Represents root t.root ∧ root.items.Perm (ruler 999) ∧
      root.Ordered (rulerEnv 999).distFn ∧ root.height ≤ 4 ∧
      ∀ DIST_MAX q, StacksFit (rulerEnv 999).distFn DIST_MAX root q := by
  have hlen : (ruler 999).length = 1000 := List.length_finRange
  have hlog : Nat.log 2 (((ruler 999).length-2*(2-1))/
      (vptBuildListThreshold-2*(2-1)))+1 = 4 := by
    rw [hlen]
    decide
  obtain ⟨t, root, hbuild, hrep, hperm, hordered, hheight, hfit⟩ :=
    vptBuild_balanced (rulerEnv 999) .empty (ruler 999) 2 (by decide) (tiesAtMost_ruler 999)
      (List.ne_nil_of_length_pos (by rw [hlen]; decide)) (by rw [hlen]; decide) (fun _ => rfl)
      (rulerEnv_bounded 999) (fun i j => abs_sub_comm _ _)
  exact ⟨t, root, hbuild, hrep, hperm, hordered, hheight.trans hlog.le, hfit⟩

end Build

end VantagePoint
