import VantagePoint.BuildFrames
import VantagePoint.GroupMetric

/-! A metric under which median splits are as uneven as they can be. Points come
in couples: partners are at distance 4, all others at distance 6. A split by one
point puts its partner on the left and everybody else on the right. -/
namespace VantagePoint

/-- `none` is a point outside all couples, at distance 3 from everyone. -/
abbrev Guest := Option (ℕ × Bool)

def partner (g : ℕ × Bool) : Guest := some (g.1, !g.2)

def coupleDist : Guest → Guest → ℤ
  | none, none => 0
  | none, some _ => 3
  | some _, none => 3
  | some g, some h => if g = h then 0 else if g.1 = h.1 then 4 else 6

theorem coupleDist_cases (g h : ℕ × Bool) :
    (g = h ∧ coupleDist (some g) (some h) = 0) ∨
      (g ≠ h ∧ (coupleDist (some g) (some h) = 4 ∨ coupleDist (some g) (some h) = 6)) := by
  by_cases heq : g = h
  · exact Or.inl ⟨heq, by simp only [coupleDist, heq, ↓reduceIte]⟩
  · refine Or.inr ⟨heq, ?_⟩
    by_cases hfst : g.1 = h.1
    · exact Or.inl (by simp only [coupleDist, heq, hfst, ↓reduceIte])
    · exact Or.inr (by simp only [coupleDist, heq, hfst, ↓reduceIte])

theorem coupleDist_comm (x y : Guest) : coupleDist x y = coupleDist y x := by
  cases x with
  | none =>
    cases y with
    | none => rfl
    | some h => rfl
  | some g =>
    cases y with
    | none => rfl
    | some h =>
      simp only [coupleDist, eq_comm]

theorem isMetric_coupleDist : GroupMetric.IsMetric coupleDist where
  dist_self x := by
    cases x with
    | none => rfl
    | some g => simp only [coupleDist, ↓reduceIte]
  eq_of_dist_eq_zero x y h := by
    cases x with
    | none =>
      cases y with
      | none => rfl
      | some g => cases h
    | some g =>
      cases y with
      | none => cases h
      | some h' =>
        rcases coupleDist_cases g h' with ⟨rfl, _⟩ | ⟨_, h4 | h6⟩
        · rfl
        · omega
        · omega
  dist_comm := coupleDist_comm
  dist_triangle x y z := by
    -- 6 ≤ 3+3, and a distance of 0 identifies its points
    cases x with
    | none =>
      cases y with
      | none =>
        cases z with
        | none => decide
        | some k => exact le_rfl
      | some h =>
        cases z with
        | none => exact (by decide : (0 : ℤ) ≤ 3+3)
        | some k =>
          have hd := coupleDist_cases h k
          change 3 ≤ 3+coupleDist (some h) (some k)
          omega
    | some g =>
      cases y with
      | none =>
        cases z with
        | none => exact le_rfl
        | some k =>
          have hd := coupleDist_cases g k
          change coupleDist (some g) (some k) ≤ 3+3
          omega
      | some h =>
        cases z with
        | none =>
          have hd := coupleDist_cases g h
          change 3 ≤ coupleDist (some g) (some h)+3
          omega
        | some k =>
          have hgk := coupleDist_cases g k
          have hgh := coupleDist_cases g h
          have hhk := coupleDist_cases h k
          rcases hgh with ⟨rfl, h0⟩ | ⟨_, hgh⟩
          · omega
          · rcases hhk with ⟨rfl, h0⟩ | ⟨_, hhk⟩
            · omega
            · omega

theorem coupleDist_le (x y : Guest) : coupleDist x y ≤ 6 := by
  cases x with
  | none =>
    cases y with
    | none => decide
    | some h => exact (by decide : (3 : ℤ) ≤ 6)
  | some g =>
    cases y with
    | none => exact (by decide : (3 : ℤ) ≤ 6)
    | some h =>
      have hd := coupleDist_cases g h
      omega

def coupleEnv : BuildEnv Guest ℤ := ⟨coupleDist, ⟨none, 6⟩, fun _ => true, bufSizes⟩

theorem coupleEnv_bounded : coupleEnv.Bounded := coupleDist_le

/-- `n` couples. -/
def couples (n : ℕ) : List Guest :=
  (List.range n).flatMap fun i => [some (i, false), some (i, true)]

/-- Nobody twice, and everybody with their partner. -/
structure Paired (xs : List Guest) : Prop where
  nodup : xs.Nodup
  partner : ∀ x ∈ xs, ∃ g, x = some g ∧ partner g ∈ xs

theorem length_couples (n : ℕ) : (couples n).length = 2*n := by
  induction n with
  | zero => rfl
  | succ n ih =>
    have hsucc : couples (n+1) = couples n ++ [some (n, false), some (n, true)] := by
      rw [couples, List.range_succ, List.flatMap_append, List.flatMap_singleton, couples]
    rw [hsucc, List.length_append, ih]
    rfl

theorem mem_couples (n : ℕ) (x : Guest) : x ∈ couples n ↔ ∃ g, x = some g ∧ g.1 < n := by
  simp only [couples, List.mem_flatMap, List.mem_range, List.mem_cons, List.not_mem_nil, or_false]
  constructor
  · rintro ⟨i, hi, rfl | rfl⟩
    · exact ⟨_, rfl, hi⟩
    · exact ⟨_, rfl, hi⟩
  · rintro ⟨⟨i, b⟩, rfl, hi⟩
    cases b with
    | false => exact ⟨i, hi, Or.inl rfl⟩
    | true => exact ⟨i, hi, Or.inr rfl⟩

theorem paired_couples (n : ℕ) : Paired (couples n) where
  nodup := by
    apply List.nodup_flatMap.mpr
    refine ⟨fun i _ => ?_, ?_⟩
    · simp
    · apply List.nodup_range.imp
      intro i j hij x hx hy
      simp only [List.mem_cons, List.not_mem_nil, or_false] at hx hy
      rcases hx with rfl | rfl
      · simp [hij] at hy
      · simp [hij] at hy
  partner x hx := by
    obtain ⟨g, rfl, hg⟩ := (mem_couples n x).mp hx
    exact ⟨g, rfl, (mem_couples n _).mpr ⟨_, rfl, hg⟩⟩

theorem partner_ne (g : ℕ × Bool) : partner g ≠ some g := by
  intro h
  have hb := congrArg Prod.snd (Option.some.inj h)
  exact absurd hb (Bool.not_ne_self g.2)

theorem partner_inj {g h : ℕ × Bool} (he : partner g = partner h) : g = h := by
  have hp := Option.some.inj he
  have hfst := congrArg Prod.fst hp
  have hsnd := congrArg Prod.snd hp
  exact Prod.ext hfst (Bool.not_inj hsnd)

theorem eq_partner_of_fst {g h : ℕ × Bool} (hne : h ≠ g) (hfst : h.1 = g.1) :
    some h = partner g := by
  have hsnd : h.2 = !g.2 := Bool.eq_not.mpr fun hs => hne (Prod.ext hfst hs)
  rw [partner, ← hsnd, ← hfst]

/-- Seen from a guest of a paired list, the partner is the one nearest point. -/
theorem paired_dist {g : ℕ × Bool} {xs : List Guest} (h : Paired (some g :: xs)) :
    partner g ∈ xs ∧ coupleDist (some g) (partner g) = 4 ∧
      ∀ x ∈ xs, x ≠ partner g → coupleDist (some g) x = 6 := by
  refine ⟨?_, ?_, ?_⟩
  · obtain ⟨g', hg', hmem⟩ := h.partner (some g) List.mem_cons_self
    obtain rfl : g = g' := Option.some.inj hg'
    rcases List.mem_cons.mp hmem with heq | hmem
    · exact absurd heq (partner_ne g)
    · exact hmem
  · have hne : g ≠ (g.1, !g.2) := fun he => partner_ne g (congrArg some he.symm)
    simp only [coupleDist, partner, hne, ↓reduceIte]
  · intro x hx hne
    obtain ⟨k, rfl, _⟩ := h.partner x (List.mem_cons_of_mem _ hx)
    have hk : g ≠ k := by
      rintro rfl
      exact (List.nodup_cons.mp h.nodup).1 hx
    have hfst : g.1 ≠ k.1 := fun he => hne (eq_partner_of_fst hk.symm he.symm)
    simp only [coupleDist, hk, hfst, ↓reduceIte]

/-- The cut of a paired list by its first guest: their partner on one side, all
others on the other. -/
theorem paired_cut {g : ℕ × Bool} {xs : List Guest} (h : Paired (some g :: xs))
    (h2 : 2 ≤ xs.length) :
    ∃ right, cutItems coupleEnv.big (coupleEnv.distFn (some g)) xs =
      some ⟨4, [partner g], right⟩ ∧ Paired right ∧ right.length+1 = xs.length := by
  obtain ⟨hp, h4, h6⟩ := paired_dist h
  obtain ⟨hg, hn⟩ := List.nodup_cons.mp h.nodup
  have hbig (x : Guest) : coupleEnv.distFn (some g) x ≤ coupleEnv.big.distance :=
    coupleEnv_bounded _ x
  -- The partner is nearer than all others, so the scan finds a jump.
  obtain ⟨⟨r, left, right⟩, hc⟩ := exists_cutItems hbig hn h2 hp (by
    intro x hx hne
    change coupleDist (some g) (partner g) < coupleDist (some g) x
    rw [h4, h6 x hx hne]
    decide)
  obtain ⟨hperm, hleft, hright⟩ := cutItems_spec hbig hc
  obtain ⟨⟨x, hx, hxr⟩, hhalf⟩ := cutItems_left hbig hc
  change coupleDist (some g) x = r at hxr
  dsimp only at hperm hleft hright hx hhalf
  have hmem (y : Guest) : y ∈ xs ↔ y ∈ left ∨ y ∈ right := by
    rw [← hperm.mem_iff, List.mem_append]
  have hlen := hperm.length_eq
  rw [List.length_append] at hlen
  -- somebody is on the right, so the radius is below 6 and belongs to the partner
  obtain ⟨y, hy⟩ := List.exists_mem_of_length_pos (by omega : 0 < right.length)
  have hry : r < coupleDist (some g) y := hright y hy
  have hy6 := coupleDist_le (some g) y
  have hxp : x = partner g := by
    by_contra hne
    rw [h6 x ((hmem x).mpr (Or.inl hx)) hne] at hxr
    omega
  subst hxp
  have hr : r = 4 := hxr.symm.trans h4
  subst hr
  have hall : ∀ z ∈ left, z = partner g := by
    intro z hz
    by_contra hne
    have hz4 : coupleDist (some g) z ≤ 4 := hleft z hz
    rw [h6 z ((hmem z).mpr (Or.inl hz)) hne] at hz4
    omega
  have hnodup := hperm.nodup_iff.mpr hn
  have hsingle : left = [partner g] := by
    -- the left side is not empty, and its points are all the partner
    match left, hx, hall, hnodup with
    | [], hx, _, _ => exact absurd hx List.not_mem_nil
    | [a], _, hall, _ => rw [hall a List.mem_cons_self]
    | a :: b :: l, _, hall, hnodup =>
      have hab : a = b := (hall a List.mem_cons_self).trans
        (hall b (List.mem_cons_of_mem _ List.mem_cons_self)).symm
      rw [List.cons_append, List.nodup_cons] at hnodup
      exact absurd (hab ▸ List.mem_cons_self) hnodup.1
  subst hsingle
  rw [List.singleton_append, List.nodup_cons] at hnodup
  refine ⟨right, hc, ⟨hnodup.2, ?_⟩, by rw [← hlen, List.length_singleton]; omega⟩
  intro z hz
  have hzx : z ∈ xs := (hmem z).mpr (Or.inr hz)
  obtain ⟨k, rfl, hk⟩ := h.partner z (List.mem_cons_of_mem _ hzx)
  refine ⟨k, rfl, ?_⟩
  rcases List.mem_cons.mp hk with hkg | hk
  · -- then `k` would be the partner of `g`
    have hkp : some k = partner g := by
      apply eq_partner_of_fst
      · rintro rfl
        exact hg hzx
      · have hkg' : (k.1, !k.2) = g := Option.some.inj hkg
        rw [← hkg']
    rw [hkp] at hz
    exact absurd hz hnodup.1
  · rcases (hmem _).mp hk with hl | hr
    · have hkg := partner_inj (List.mem_singleton.mp hl)
      rw [hkg] at hzx
      exact absurd hzx hg
    · exact hr

theorem Paired.perm {xs ys : List Guest} (h : Paired xs) (hp : xs.Perm ys) : Paired ys where
  nodup := hp.nodup_iff.mp h.nodup
  partner x hx := by
    obtain ⟨g, hg, hmem⟩ := h.partner x (hp.mem_iff.mpr hx)
    exact ⟨g, hg, hp.mem_iff.mp hmem⟩

/-- Builds of paired lists never leave an entry list while they scan, whatever the
sizes of their buffers. -/
theorem splitsInside_bufs (bufs : BufSizes) (arena : Arena Guest ℤ) {data : List Guest}
    (hpaired : Paired data) (hn : data.length < sizeT) :
    SplitsInside { coupleEnv with bufs := bufs } arena data := by
  have hcut (v : Guest) (xs : List Guest) (hp : Paired (v :: xs)) (h2 : 2 ≤ xs.length) :
      ∃ c, cutItems coupleEnv.big (coupleEnv.distFn v) xs = some c ∧
        (c.left.length < vptBuildListThreshold ∨ Paired c.left) ∧
        (c.right.length < vptBuildListThreshold ∨ Paired c.right) := by
    obtain ⟨g, rfl, _⟩ := hp.partner v List.mem_cons_self
    obtain ⟨right, hc, hright, _⟩ := paired_cut hp h2
    exact ⟨_, hc, Or.inl (by decide : 1 < 100), Or.inr hright⟩
  have hbig : BuildEnv.Bounded { coupleEnv with bufs := bufs } := coupleEnv_bounded
  apply splitsInside_of_items (fun _ => rfl) hbig hn
    (fun xs => xs.length < vptBuildListThreshold ∨ Paired xs)
  · intro v xs hd hlarge
    have hflip : (fun x => coupleEnv.distFn x v) = coupleEnv.distFn v :=
      funext fun x => coupleDist_comm x v
    rw [hflip]
    rw [hd] at hpaired
    rw [List.length_cons] at hlarge
    unfold vptMaxListSize at hlarge
    exact hcut v xs hpaired (by omega)
  · intro v xs hQ hlen
    rcases hQ with hlt | hp
    · exact absurd hlen (not_le.mpr hlt)
    · rw [List.length_cons] at hlen
      unfold vptBuildListThreshold at hlen
      exact hcut v xs hp (by omega)

theorem splitsInside_paired (arena : Arena Guest ℤ) {data : List Guest} (hpaired : Paired data)
    (hn : data.length < sizeT) : SplitsInside coupleEnv arena data :=
  splitsInside_bufs bufSizes arena hpaired hn

theorem splitsInside_couples (arena : Arena Guest ℤ) (n : ℕ) (hn : (couples n).length < sizeT) :
    SplitsInside coupleEnv arena (couples n) :=
  splitsInside_paired arena (paired_couples n) hn

end VantagePoint
