import VantagePoint.SplitScan

/-! What tree `VPT_build` makes, by recursion on lists of items: no buffer, no
stacks and no memory. The code is shown to make this tree in `BuildMemory`. -/
namespace VantagePoint

universe u v

variable {α : Type u} {D : Type v}

/-- A list of items cut in two by their distances. -/
structure ItemCut (α : Type u) (D : Type v) where
  radius : D
  left : List α
  right : List α

section Spec

variable [LinearOrder D]

/-- Sort the items by the distance `f`, then cut in front of the last jump in the
distances of the first half. There is none to cut at when they are all equal. -/
def cutItems (big : VPEntry α D) (f : α → D) (xs : List α) : Option (ItemCut α D) :=
  let es := vpSort big (xs.map fun x => ⟨x, f x⟩)
  (scanBack es (xs.length-xs.length/2)).bind fun m =>
    (es[m-1]?).map fun last =>
      ⟨last.distance, (es.take m).map VPEntry.item, (es.drop m).map VPEntry.item⟩

theorem cutItems_eq_some {big : VPEntry α D} {f : α → D} {xs : List α} {c : ItemCut α D}
    (h : cutItems big f xs = some c) :
    ∃ m last, scanBack (vpSort big (xs.map fun x => ⟨x, f x⟩)) (xs.length-xs.length/2) = some m ∧
      (vpSort big (xs.map fun x => ⟨x, f x⟩))[m-1]? = some last ∧
      c = ⟨last.distance, ((vpSort big (xs.map fun x => ⟨x, f x⟩)).take m).map VPEntry.item,
        ((vpSort big (xs.map fun x => ⟨x, f x⟩)).drop m).map VPEntry.item⟩ := by
  obtain ⟨m, hm, h⟩ := Option.bind_eq_some_iff.mp h
  obtain ⟨last, hlast, rfl⟩ := Option.map_eq_some_iff.mp h
  exact ⟨m, last, hm, hlast, rfl⟩

theorem length_cutItems {big : VPEntry α D} {f : α → D} {xs : List α} {c : ItemCut α D}
    (h : cutItems big f xs = some c) : c.left.length+c.right.length = xs.length := by
  obtain ⟨m, last, _, _, rfl⟩ := cutItems_eq_some h
  simp only [List.length_map, List.length_take, List.length_drop, vpSort_length]
  omega

/-- The node a frame of the items `xs` becomes. -/
def buildItems (env : BuildEnv α D) : List α → VPNode α D
  | [] => .pointlist []
  | v :: xs =>
    if (v :: xs).length < vptBuildListThreshold then .pointlist (v :: xs)
    else
      match _hc : cutItems env.big (env.distFn v) xs with
      | none => .pointlist (v :: xs)
      | some c => .branch v c.radius (buildItems env c.left) (buildItems env c.right)
termination_by xs => xs.length
decreasing_by
  · have hlen := length_cutItems _hc
    rw [List.length_cons]
    omega
  · have hlen := length_cutItems _hc
    rw [List.length_cons]
    omega

/-- The whole tree. -/
def buildTree (env : BuildEnv α D) (data : List α) : VPNode α D :=
  if data.length < vptMaxListSize then .pointlist data
  else
    match data with
    | [] => .pointlist []
    | v :: xs =>
      match cutItems env.big (fun x => env.distFn x v) xs with
      | none => .pointlist (v :: xs)
      | some c => .branch v c.radius (buildItems env c.left) (buildItems env c.right)

end Spec

section Cut

variable [LinearOrder D] {big : VPEntry α D} {f : α → D} {xs : List α} {c : ItemCut α D}

/-- What sorting the items by `f` gives: entries that carry the distance of
their item, in ascending order. -/
theorem vpSort_items (hbig : ∀ x, f x ≤ big.distance) (xs : List α) :
    (vpSort big (xs.map fun x => ⟨x, f x⟩)).Perm (xs.map fun x => ⟨x, f x⟩) ∧
      SortedByDistance (vpSort big (xs.map fun x => ⟨x, f x⟩)) := by
  apply vpSort_spec
  intro e he
  obtain ⟨x, _, rfl⟩ := List.mem_map.mp he
  exact hbig x

/-- A cut separates the items strictly by the radius and loses none of them. -/
theorem cutItems_spec (hbig : ∀ x, f x ≤ big.distance) (h : cutItems big f xs = some c) :
    (c.left ++ c.right).Perm xs ∧ (∀ x ∈ c.left, f x ≤ c.radius) ∧
      ∀ x ∈ c.right, c.radius < f x := by
  obtain ⟨m, last, hscan, hlast, rfl⟩ := cutItems_eq_some h
  obtain ⟨hperm, hsorted⟩ := vpSort_items hbig xs
  have hdist (e : VPEntry α D) (he : e ∈ vpSort big (xs.map fun x => ⟨x, f x⟩)) :
      e.distance = f e.item := by
    obtain ⟨x, _, rfl⟩ := List.mem_map.mp (hperm.mem_iff.mp he)
    rfl
  -- Only the order of the entries and their distances are used from here on.
  generalize vpSort big (xs.map fun x => ⟨x, f x⟩) = es at *
  obtain ⟨hpos, _, ⟨a, b, ha, hb, hne⟩, _⟩ := scanBack_stop hscan
  have hbl : b = last := Option.some.inj (hb.symm.trans hlast)
  subst hbl
  obtain ⟨hma, hga⟩ := List.getElem?_eq_some_iff.mp ha
  obtain ⟨hmb, hgb⟩ := List.getElem?_eq_some_iff.mp hb
  -- The scan stopped at unequal neighbours, and the list is sorted.
  have hba : b.distance < a.distance := by
    have hle := hsorted.le_getElem (Nat.sub_le m 1) hmb hma
    rw [hga, hgb] at hle
    exact lt_of_le_of_ne hle (fun heq => hne heq.symm)
  refine ⟨?_, ?_, ?_⟩
  · rw [← List.map_append, List.take_append_drop]
    have hitems := hperm.map VPEntry.item
    rwa [List.map_map, Function.comp_def, List.map_id'] at hitems
  · intro x hx
    obtain ⟨e, he, rfl⟩ := List.mem_map.mp hx
    rw [← hdist e (List.mem_of_mem_take he)]
    obtain ⟨i, hi, rfl⟩ := List.getElem_of_mem he
    rw [List.length_take] at hi
    have hle := hsorted.le_getElem (by omega : i ≤ m-1) (by omega) hmb
    rw [hgb] at hle
    rwa [List.getElem_take]
  · intro x hx
    obtain ⟨e, he, rfl⟩ := List.mem_map.mp hx
    rw [← hdist e (List.mem_of_mem_drop he)]
    obtain ⟨i, hi, rfl⟩ := List.getElem_of_mem he
    rw [List.length_drop] at hi
    have hle := hsorted.le_getElem (Nat.le_add_right m i) hma (by omega)
    rw [hga] at hle
    calc
      b.distance < a.distance := hba
      _ ≤ es[m+i].distance := hle
      _ = (es.drop m)[i].distance := by rw [List.getElem_drop]

/-- The radius is the distance of an item on the left, and the left side is at
most the half that is rounded up. -/
theorem cutItems_left (hbig : ∀ x, f x ≤ big.distance) (h : cutItems big f xs = some c) :
    (∃ x ∈ c.left, f x = c.radius) ∧ c.left.length ≤ xs.length-xs.length/2 := by
  obtain ⟨m, last, hscan, hlast, rfl⟩ := cutItems_eq_some h
  have hperm := (vpSort_items hbig xs).1
  obtain ⟨x, _, rfl⟩ := List.mem_map.mp (hperm.mem_iff.mp (List.mem_of_getElem? hlast))
  obtain ⟨hpos, hle, _, _⟩ := scanBack_stop hscan
  constructor
  -- The radius is that of the last entry in front of the cut.
  · refine ⟨x, List.mem_map.mpr ⟨⟨x, f x⟩, ?_, rfl⟩, rfl⟩
    apply List.mem_of_getElem? (i := m-1)
    rw [List.getElem?_take_of_lt (by omega), hlast]
  · rw [List.length_map, List.length_take]
    omega

/-- One item nearer than all others is enough for a cut. -/
theorem exists_cutItems (hbig : ∀ x, f x ≤ big.distance) (hn : xs.Nodup) (h2 : 2 ≤ xs.length)
    {p : α} (hp : p ∈ xs) (hlt : ∀ x ∈ xs, x ≠ p → f p < f x) :
    ∃ c, cutItems big f xs = some c := by
  obtain ⟨hperm, hsorted⟩ := vpSort_items hbig xs
  have hlen := vpSort_length big (xs.map fun x => (⟨x, f x⟩ : VPEntry α D))
  rw [List.length_map] at hlen
  unfold cutItems
  dsimp only
  cases hscan : scanBack (vpSort big (xs.map fun x => ⟨x, f x⟩)) (xs.length-xs.length/2) with
  | some m =>
    have hle := (scanBack_stop hscan).2.1
    have hm : m-1 < (vpSort big (xs.map fun x => (⟨x, f x⟩ : VPEntry α D))).length := by omega
    exact ⟨_, by rw [Option.bind_some, List.getElem?_eq_getElem hm, Option.map_some]⟩
  | none =>
    exfalso
    -- the first two sorted entries would both be nearest, hence the same item
    generalize vpSort big (xs.map fun x => (⟨x, f x⟩ : VPEntry α D)) = es at *
    have hk : xs.length-xs.length/2 < es.length := by omega
    have hpass := (scanBack_pass (Nat.zero_le _) hk
      (fun r hr => by rw [hscan] at hr; cases hr)).2
    have h01 := (hpass 0 le_rfl (Nat.zero_le _)).trans (hpass 1 (Nat.zero_le _) (by omega)).symm
    have hnearest (i : ℕ) (hi : i < es.length) (hid : es[i].distance = es[0].distance) :
        es[i].item = p := by
      have hpe : (⟨p, f p⟩ : VPEntry α D) ∈ es :=
        hperm.mem_iff.mpr (List.mem_map.mpr ⟨p, hp, rfl⟩)
      obtain ⟨j, hj, hje⟩ := List.getElem_of_mem hpe
      have hle := hsorted.le_getElem (Nat.zero_le j) (by omega) hj
      rw [hje, ← hid] at hle
      obtain ⟨x, hx, hxe⟩ := List.mem_map.mp (hperm.mem_iff.mp (List.getElem_mem hi))
      rw [← hxe] at hle ⊢
      by_contra hne
      exact absurd hle (not_le.mpr (hlt x hx hne))
    have hitems : (es.map VPEntry.item).Nodup := by
      have hm := hperm.map VPEntry.item
      rw [List.map_map, Function.comp_def, List.map_id'] at hm
      exact hm.nodup_iff.mpr hn
    have h0 := hnearest 0 (by omega) rfl
    have h1 := hnearest 1 (by omega) h01.symm
    have hl0 : 0 < (es.map VPEntry.item).length := by rw [List.length_map]; omega
    have hl1 : 1 < (es.map VPEntry.item).length := by rw [List.length_map]; omega
    have heq : (es.map VPEntry.item)[0] = (es.map VPEntry.item)[1] := by
      rw [List.getElem_map, List.getElem_map, h0, h1]
    have habs := (List.Nodup.getElem_inj_iff hitems).mp heq
    omega

end Cut

section Tree

variable [LinearOrder D] {env : BuildEnv α D}

/-- The induction along which trees are built: lists below the threshold and
lists that cannot be cut become list nodes. -/
theorem buildItems_rule {P : List α → VPNode α D → Prop}
    (hlist : ∀ xs, xs.length < vptBuildListThreshold → P xs (.pointlist xs))
    (hstuck : ∀ v xs, cutItems env.big (env.distFn v) xs = none →
      P (v :: xs) (.pointlist (v :: xs)))
    (hbranch : ∀ v xs c l r, cutItems env.big (env.distFn v) xs = some c → P c.left l →
      P c.right r → P (v :: xs) (.branch v c.radius l r)) (xs : List α) :
    P xs (buildItems env xs) := by
  -- Induction on the number of items: both sides of a cut are shorter.
  induction hn : xs.length using Nat.strong_induction_on generalizing xs with
  | _ n ih =>
    subst hn
    cases xs with
    | nil =>
      rw [buildItems]
      exact hlist [] (Nat.zero_lt_succ 99)
    | cons v xs =>
      rw [buildItems]
      split
      · rename_i hlt
        exact hlist _ hlt
      · split
        · rename_i hc
          exact hstuck v xs hc
        · rename_i c hc
          have hlen := length_cutItems hc
          rw [List.length_cons] at ih
          exact hbranch v xs c _ _ hc (ih c.left.length (by omega) c.left rfl)
            (ih c.right.length (by omega) c.right rfl)

/-- A branch over a cut: nothing is lost, and the radius separates its sides. -/
theorem branch_of_cut {f : α → D} {dist_fn : α → α → D} {v : α} {xs : List α} {c : ItemCut α D}
    {l r : VPNode α D} (hbig : ∀ x, f x ≤ env.big.distance) (hf : ∀ x, f x = dist_fn v x)
    (hc : cutItems env.big f xs = some c) (hl : l.items.Perm c.left ∧ l.Ordered dist_fn)
    (hr : r.items.Perm c.right ∧ r.Ordered dist_fn) :
    (VPNode.branch v c.radius l r).items.Perm (v :: xs) ∧
      (VPNode.branch v c.radius l r).Ordered dist_fn := by
  obtain ⟨hperm, hleft, hright⟩ := cutItems_spec hbig hc
  refine ⟨?_, ?_, ?_, hl.2, hr.2⟩
  · rw [items_branch]
    exact ((hl.1.append hr.1).trans hperm).cons v
  · intro x hx
    rw [← hf]
    exact hleft x (hl.1.mem_iff.mp hx)
  · intro x hx
    rw [← hf]
    exact hright x (hr.1.mem_iff.mp hx)

theorem buildItems_spec (hbig : ∀ x y, env.distFn x y ≤ env.big.distance) (xs : List α) :
    (buildItems env xs).items.Perm xs ∧ (buildItems env xs).Ordered env.distFn := by
  apply buildItems_rule (P := fun xs t => t.items.Perm xs ∧ t.Ordered env.distFn)
  · intro xs _
    exact ⟨List.Perm.refl _, trivial⟩
  · intro v xs _
    exact ⟨List.Perm.refl _, trivial⟩
  · intro v xs c l r hc hl hr
    exact branch_of_cut (hbig v) (fun _ => rfl) hc hl hr

/-- The tree of the data holds the data, and is ordered if distances are symmetric:
the root's are measured towards it, those of the other branches from them. -/
theorem buildTree_spec (hbig : ∀ x y, env.distFn x y ≤ env.big.distance) (data : List α) :
    (buildTree env data).items.Perm data ∧
      ((∀ x y, env.distFn x y = env.distFn y x) → (buildTree env data).Ordered env.distFn) := by
  unfold buildTree
  split
  · exact ⟨List.Perm.refl _, fun _ => trivial⟩
  · split
    · exact ⟨List.Perm.refl _, fun _ => trivial⟩
    · rename_i v xs _
      split
      · exact ⟨List.Perm.refl _, fun _ => trivial⟩
      · rename_i c hc
        constructor
        · obtain ⟨hperm, _, _⟩ := cutItems_spec (fun x => hbig x v) hc
          have hl := (buildItems_spec hbig c.left).1
          have hr := (buildItems_spec hbig c.right).1
          rw [items_branch]
          exact ((hl.append hr).trans hperm).cons v
        -- The root's distances are measured the other way round.
        · intro hcomm
          exact (branch_of_cut (fun x => hbig x v) (fun x => hcomm x v) hc
            (buildItems_spec hbig c.left) (buildItems_spec hbig c.right)).2

theorem buildItems_of_short {xs : List α} (h : xs.length < vptBuildListThreshold) :
    buildItems env xs = .pointlist xs := by
  cases xs with
  | nil => rw [buildItems]
  | cons v xs => rw [buildItems, if_pos h]

theorem buildItems_of_cut {v : α} {xs : List α} {c : ItemCut α D}
    (h : vptBuildListThreshold ≤ (v :: xs).length)
    (hc : cutItems env.big (env.distFn v) xs = some c) :
    buildItems env (v :: xs) = .branch v c.radius (buildItems env c.left)
      (buildItems env c.right) := by
  rw [buildItems, if_neg (not_lt.mpr h)]
  split
  · rename_i hn
    rw [hc] at hn
    cases hn
  · rename_i c' hc'
    obtain rfl : c = c' := Option.some.inj (hc.symm.trans hc')
    rfl

theorem buildTree_of_cut {v : α} {xs : List α} {c : ItemCut α D}
    (h : vptMaxListSize ≤ (v :: xs).length)
    (hc : cutItems env.big (fun x => env.distFn x v) xs = some c) :
    buildTree env (v :: xs) = .branch v c.radius (buildItems env c.left)
      (buildItems env c.right) := by
  unfold buildTree
  rw [if_neg (not_lt.mpr h)]
  dsimp only
  rw [hc]

end Tree

end VantagePoint
