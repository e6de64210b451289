import VantagePoint.Build

/-! One median split: when the backward scan stays inside its own entries, and
what the split computes if it does. -/
namespace VantagePoint

universe u v

variable {α : Type u} {D : Type v} [LinearOrder D]

theorem subSize_of_le {a b : ℕ} (ha : a < sizeT) (hb : b ≤ a) : subSize a b = a-b := by
  unfold subSize sizeT at *
  omega

theorem scanBack_succ {buffer : List (VPEntry α D)} {r : ℕ} {a b : VPEntry α D}
    (ha : buffer[r+1]? = some a) (hb : buffer[r]? = some b) :
    scanBack buffer (r+1) =
      if a.distance = b.distance then scanBack buffer r else some (r+1) := by
  rw [scanBack, ha, hb]

theorem scanReads_succ {buffer : List (VPEntry α D)} {r : ℕ} {a b : VPEntry α D}
    (ha : buffer[r+1]? = some a) (hb : buffer[r]? = some b) :
    scanReads buffer (r+1) =
      if a.distance = b.distance then (r+1) :: scanReads buffer r else [r+1] := by
  rw [scanReads, ha, hb]

/-- Where the scan stops, two adjacent distances differ; it has compared nothing
below that place. -/
theorem scanBack_stop {buffer : List (VPEntry α D)} {r₀ r : ℕ}
    (h : scanBack buffer r₀ = some r) : 0 < r ∧ r ≤ r₀ ∧
      (∃ a b, buffer[r]? = some a ∧ buffer[r-1]? = some b ∧ a.distance ≠ b.distance) ∧
      ∀ x ∈ scanReads buffer r₀, r ≤ x ∧ x ≤ r₀ := by
  -- Induction on the place the scan has come to; a read outside the buffer
  -- gives no value, so every case but two is closed by `h`.
  induction r₀ with
  | zero =>
    rw [scanBack] at h
    cases h
  | succ r₀ ih =>
    cases ha : buffer[r₀+1]? with
    | none =>
      rw [scanBack, ha] at h
      cases h
    | some a =>
      cases hb : buffer[r₀]? with
      | none =>
        rw [scanBack, ha, hb] at h
        cases h
      | some b =>
        rw [scanBack_succ ha hb] at h
        rw [scanReads_succ ha hb]
        by_cases heq : a.distance = b.distance
        · rw [if_pos heq] at h ⊢
          obtain ⟨hpos, hle, hne, hreads⟩ := ih h
          refine ⟨hpos, by omega, hne, ?_⟩
          intro x hx
          rcases List.mem_cons.mp hx with rfl | hx
          · omega
          · have hxr := hreads x hx
            omega
        · rw [if_neg heq] at h ⊢
          cases h
          refine ⟨by omega, le_rfl, ⟨a, b, ha, hb, heq⟩, ?_⟩
          intro x hx
          rw [List.mem_singleton.mp hx]
          omega

/-- If the scan does not stop above index `e`, all it has passed are equal, and
it comes to compare the entry at `e` with the one before. -/
theorem scanBack_pass {buffer : List (VPEntry α D)} {e r₀ : ℕ} (he : e ≤ r₀)
    (hlen : r₀ < buffer.length) (h : ∀ r, scanBack buffer r₀ = some r → r ≤ e) :
    e ∈ scanReads buffer r₀ ∧ ∀ i, e ≤ i → ∀ (hi : i ≤ r₀),
      (buffer.get ⟨i, by omega⟩).distance = (buffer.get ⟨r₀, hlen⟩).distance := by
  induction r₀ with
  | zero =>
    have hz : e = 0 := by omega
    subst hz
    refine ⟨List.mem_singleton_self 0, ?_⟩
    intro i _ hi
    have hz : i = 0 := by omega
    subst hz
    rfl
  | succ r₀ ih =>
    have ha : buffer[r₀+1]? = some (buffer.get ⟨r₀+1, hlen⟩) := List.getElem?_eq_getElem hlen
    have hb : buffer[r₀]? = some (buffer.get ⟨r₀, by omega⟩) := List.getElem?_eq_getElem _
    -- Above `e` the scan has to go on; at `e` it makes the comparison in question.
    rcases Nat.lt_or_ge e (r₀+1) with hlt | hge
    · have heq : (buffer.get ⟨r₀+1, hlen⟩).distance =
          (buffer.get ⟨r₀, by omega⟩).distance := by
        by_contra hne
        have hr := h (r₀+1) (by rw [scanBack_succ ha hb, if_neg hne])
        omega
      have hscan : scanBack buffer (r₀+1) = scanBack buffer r₀ := by
        rw [scanBack_succ ha hb, if_pos heq]
      obtain ⟨hmem, hall⟩ := ih (by omega) (by omega) (fun r hr => h r (by rw [hscan, hr]))
      constructor
      · rw [scanReads_succ ha hb, if_pos heq]
        exact List.mem_cons_of_mem _ hmem
      · intro i hei hi
        rcases Nat.lt_or_ge i (r₀+1) with hir | hir
        · rw [heq]
          exact hall i hei (by omega)
        · have hir' : i = r₀+1 := by omega
          subst hir'
          rfl
    · have hz : e = r₀+1 := by omega
      subst hz
      constructor
      · rw [scanReads, ha, hb]
        dsimp only
        split
        · exact List.mem_cons_self
        · exact List.mem_cons_self
      · intro i hei hi
        have hir : i = r₀+1 := by omega
        subst hir
        rfl

/-- The range of a split is part of its buffer, and big enough to be split. -/
structure Split.Fits (σ : Split α D) : Prop where
  bounds : σ.entryList+σ.numEntries ≤ σ.buildBuffer.length
  size_lt : σ.numEntries < sizeT
  two_le : 2 ≤ σ.numEntries

/-- The entries nearest to the vantage point. -/
def Split.nearest (σ : Split α D) : List (VPEntry α D) :=
  σ.entries.filter fun e => ∀ e' ∈ σ.entries, σ.distance e.item ≤ σ.distance e'.item

/-- No more entries are nearest than those the scan starts behind. -/
def Split.TieBound (σ : Split α D) : Prop :=
  σ.nearest.length ≤ σ.numEntries-σ.numEntries/2

/-- What the split has to be: every comparison between two of its own entries,
counts that add up and are what the scan counted, and a radius that was just
measured from the vantage point. -/
structure Split.WellDefined (big : VPEntry α D) (σ : Split α D) : Prop where
  reads : ∀ r ∈ scanReads (σ.measured big) σ.start,
    σ.entryList < r ∧ r < σ.entryList+σ.numEntries
  halves : ∃ h, σ.halves big = .ok h ∧ h.leftNum+h.rightNum = σ.numEntries ∧
    h.rightNum = σ.numEntries/2+(σ.start-h.rightChildren) ∧
    ∃ e ∈ σ.entries, h.radius = σ.distance e.item

section Sorted

variable {σ : Split α D} {big : VPEntry α D}

omit [LinearOrder D] in
theorem length_entries (hf : σ.Fits) : σ.entries.length = σ.numEntries :=
  Segment.length_slice hf.bounds

theorem sorted_spec (hbig : ∀ x, σ.distance x ≤ big.distance) :
    (σ.sorted big).Perm (σ.entries.map fun e => ⟨e.item, σ.distance e.item⟩) ∧
      SortedByDistance (σ.sorted big) := by
  apply vpSort_spec
  intro e he
  obtain ⟨e', _, rfl⟩ := List.mem_map.mp he
  exact hbig e'.item

theorem length_sorted (hf : σ.Fits) (hbig : ∀ x, σ.distance x ≤ big.distance) :
    (σ.sorted big).length = σ.numEntries := by
  rw [(sorted_spec hbig).1.length_eq, List.length_map, length_entries hf]

theorem length_measured (hf : σ.Fits) (hbig : ∀ x, σ.distance x ≤ big.distance) :
    (σ.measured big).length = σ.buildBuffer.length :=
  Segment.length_splice hf.bounds (length_sorted hf hbig)

/-- The entries of the split in the buffer it leaves behind. -/
theorem measured_getElem? (hf : σ.Fits) (hbig : ∀ x, σ.distance x ≤ big.distance) {i : ℕ}
    (hi : i < σ.numEntries) :
    (σ.measured big)[σ.entryList+i]? = (σ.sorted big)[i]? :=
  Segment.getElem?_splice hf.bounds (length_sorted hf hbig) hi

/-- Every sorted entry carries the distance of its item. -/
theorem distance_of_mem_sorted (hbig : ∀ x, σ.distance x ≤ big.distance) {e : VPEntry α D}
    (he : e ∈ σ.sorted big) : ∃ e' ∈ σ.entries, e = ⟨e'.item, σ.distance e'.item⟩ := by
  obtain ⟨e', he', heq⟩ := List.mem_map.mp ((sorted_spec hbig).1.mem_iff.mp he)
  exact ⟨e', he', heq.symm⟩

/-- The nearest entries, counted in the sorted list. -/
theorem length_nearest (hbig : ∀ x, σ.distance x ≤ big.distance) :
    σ.nearest.length =
      (σ.sorted big).countP fun e => ∀ e' ∈ σ.sorted big, e.distance ≤ e'.distance := by
  obtain ⟨hp, _⟩ : _ ∧ SortedByDistance (σ.sorted big) := sorted_spec hbig
  rw [hp.countP_eq, List.countP_map, Split.nearest, ← List.countP_eq_length_filter]
  apply List.countP_congr
  intro e _
  simp only [decide_eq_true_eq, Function.comp_apply]
  constructor
  · intro h e' he'
    obtain ⟨e'', he'', rfl⟩ := distance_of_mem_sorted hbig he'
    exact h e'' he''
  · intro h e' he'
    exact h ⟨e'.item, σ.distance e'.item⟩ (hp.mem_iff.mpr (List.mem_map.mpr ⟨e', he', rfl⟩))

omit [LinearOrder D] in
theorem start_bounds (hf : σ.Fits) :
    σ.entryList < σ.start ∧ σ.start < σ.entryList+σ.numEntries := by
  have h2 := hf.two_le
  unfold Split.start
  omega

/-- The scan seen from inside the entry list: it stops there, above the first
entry, exactly when the scan of the sorted entries alone stops. -/
theorem scanBack_measured (hf : σ.Fits) (hbig : ∀ x, σ.distance x ≤ big.distance) {i m : ℕ}
    (hi : i < σ.numEntries) :
    scanBack (σ.measured big) (σ.entryList+i) = some (σ.entryList+m) ∧ 0 < m ↔
      scanBack (σ.sorted big) i = some m := by
  have hlen := length_sorted hf hbig
  induction i with
  | zero =>
    constructor
    · rintro ⟨h, hpos⟩
      have hle := (scanBack_stop h).2.1
      omega
    · intro h
      rw [scanBack] at h
      cases h
  | succ i ih =>
    obtain ⟨a, ha⟩ : ∃ a, (σ.sorted big)[i+1]? = some a :=
      ⟨_, List.getElem?_eq_getElem (by omega)⟩
    obtain ⟨b, hb⟩ : ∃ b, (σ.sorted big)[i]? = some b :=
      ⟨_, List.getElem?_eq_getElem (by omega)⟩
    have ha' : (σ.measured big)[σ.entryList+i+1]? = some a := by
      rw [Nat.add_assoc, measured_getElem? hf hbig hi, ha]
    have hb' : (σ.measured big)[σ.entryList+i]? = some b := by
      rw [measured_getElem? hf hbig (by omega), hb]
    -- both scans compare the same two entries
    rw [← Nat.add_assoc, scanBack_succ ha' hb', scanBack_succ ha hb]
    by_cases heq : a.distance = b.distance
    · rw [if_pos heq, if_pos heq]
      exact ih (by omega)
    · rw [if_neg heq, if_neg heq, Option.some.injEq, Option.some.injEq]
      omega

/-- A split that stays inside: the first `m` sorted entries go left, the radius
is the largest distance among them, and the others are strictly farther away. -/
theorem halves_of_inside (hf : σ.Fits) (hbig : ∀ x, σ.distance x ≤ big.distance)
    (h : σ.Inside big) : ∃ m last next, 0 < m ∧ m ≤ σ.numEntries-σ.numEntries/2 ∧
      scanBack (σ.sorted big) (σ.numEntries-σ.numEntries/2) = some m ∧
      (σ.sorted big)[m-1]? = some last ∧ (σ.sorted big)[m]? = some next ∧
      last.distance < next.distance ∧
      (∀ r ∈ scanReads (σ.measured big) σ.start,
        σ.entryList < r ∧ r < σ.entryList+σ.numEntries) ∧
      σ.halves big = .ok ⟨last.distance, m, σ.entryList+m, σ.numEntries-m⟩ := by
  have h2 := hf.two_le
  have hlt := hf.size_lt
  obtain ⟨r, hscan, hin⟩ := h
  obtain ⟨_, hle, ⟨a, b, ha, hb, hne⟩, hreads⟩ := scanBack_stop hscan
  have hstart := start_bounds hf
  -- `m` is the place of the scan counted from the start of the entry list.
  obtain ⟨m, rfl⟩ : ∃ m, r = σ.entryList+m := ⟨r-σ.entryList, by omega⟩
  have hm : m ≤ σ.numEntries-σ.numEntries/2 := by
    unfold Split.start at hle
    omega
  have hrel := (scanBack_measured hf hbig (by omega)).mp ⟨hscan, by omega⟩
  have hidx : σ.entryList+m-1 = σ.entryList+(m-1) := by omega
  have hb' := hb
  rw [hidx, measured_getElem? hf hbig (by omega)] at hb'
  have ha' := ha
  rw [measured_getElem? hf hbig (by omega)] at ha'
  obtain ⟨_, hsorted⟩ : _ ∧ SortedByDistance (σ.sorted big) := sorted_spec hbig
  obtain ⟨hma, hga⟩ := List.getElem?_eq_some_iff.mp ha'
  obtain ⟨hmb, hgb⟩ := List.getElem?_eq_some_iff.mp hb'
  have hba := hsorted.le_getElem (Nat.sub_le m 1) hmb hma
  rw [hga, hgb] at hba
  refine ⟨m, b, a, by omega, hm, hrel, hb', ha', lt_of_le_of_ne hba (fun he => hne he.symm), ?_, ?_⟩
  · intro x hx
    have hxr := hreads x hx
    omega
  · -- neither count wraps: both are at most `num_entries`, which is below 2^64
    have hright : (σ.numEntries/2+(σ.start-(σ.entryList+m)))%sizeT = σ.numEntries-m := by
      unfold Split.start
      rw [Nat.mod_eq_of_lt (by omega)]
      omega
    have hleft : subSize σ.numEntries (σ.numEntries-m) = m := by
      rw [subSize_of_le hlt (Nat.sub_le _ _)]
      omega
    rw [Split.halves, hscan]
    dsimp only
    rw [hb]
    dsimp only
    rw [hright, hleft]

/-- A scan that does not stop inside passes all entries above the first. -/
theorem scan_le_of_not_inside (hout : ¬ σ.Inside big) (r : ℕ)
    (hr : scanBack (σ.measured big) σ.start = some r) : r ≤ σ.entryList := by
  by_contra hlt
  exact hout ⟨r, hr, not_le.mp hlt⟩

theorem wellDefined_iff_inside (hf : σ.Fits) (hbig : ∀ x, σ.distance x ≤ big.distance) :
    σ.WellDefined big ↔ σ.Inside big := by
  have hstart := start_bounds hf
  constructor
  · intro h
    by_contra hout
    have hall := scan_le_of_not_inside hout
    have hlen := length_measured hf hbig
    have hb := hf.bounds
    have hmem := (scanBack_pass (by omega : σ.entryList ≤ σ.start) (by omega) hall).1
    exact absurd (h.reads _ hmem).1 (lt_irrefl _)
  · intro h
    obtain ⟨m, last, _, hpos, hm, _, hlast, _, _, hreads, hhalves⟩ := halves_of_inside hf hbig h
    refine ⟨hreads, _, hhalves, ?_, ?_, ?_⟩
    · dsimp only
      omega
    · unfold Split.start
      dsimp only
      omega
    · obtain ⟨e, he, rfl⟩ := distance_of_mem_sorted hbig (List.mem_of_getElem? hlast)
      exact ⟨e, he, rfl⟩

/-- Entries in front of a jump in the sorted distances are the only ones that can
be nearest; entries level with the first one all are. -/
theorem inside_iff_tieBound (hf : σ.Fits) (hbig : ∀ x, σ.distance x ≤ big.distance) :
    σ.Inside big ↔ σ.TieBound := by
  have hstart := start_bounds hf
  have hlen := length_sorted hf hbig
  obtain ⟨_, hsorted⟩ : _ ∧ SortedByDistance (σ.sorted big) := sorted_spec hbig
  have hsplit (p : VPEntry α D → Bool) (m : ℕ) : (σ.sorted big).countP p =
      ((σ.sorted big).take m).countP p+((σ.sorted big).drop m).countP p := by
    rw [← List.countP_append, List.take_append_drop]
  unfold Split.TieBound
  rw [length_nearest hbig]
  constructor
  · intro h
    obtain ⟨m, last, next, hpos, hm, _, hlast, hnext, hlt, _, _⟩ := halves_of_inside hf hbig h
    obtain ⟨hmlt, hnext'⟩ := List.getElem?_eq_some_iff.mp hnext
    -- what lies behind the jump is not nearest
    have hnone : ((σ.sorted big).drop m).countP
        (fun e => ∀ e' ∈ σ.sorted big, e.distance ≤ e'.distance) = 0 := by
      rw [List.countP_eq_zero]
      intro e he hmin
      obtain ⟨i, hi, rfl⟩ := List.getElem_of_mem he
      rw [List.length_drop] at hi
      simp only [decide_eq_true_eq, List.getElem_drop] at hmin
      have hle := hsorted.le_getElem (Nat.le_add_right m i) hmlt (by omega)
      rw [hnext'] at hle
      have hmin' := hmin last (List.mem_of_getElem? hlast)
      exact absurd (hle.trans hmin') (not_le.mpr hlt)
    have hle : ((σ.sorted big).take m).countP
        (fun e => ∀ e' ∈ σ.sorted big, e.distance ≤ e'.distance) ≤ m := by
      apply List.countP_le_length.trans
      rw [List.length_take]
      exact min_le_left _ _
    rw [hsplit _ m, hnone]
    omega
  · intro h
    by_contra hout
    have hall := scan_le_of_not_inside hout
    have hmlen := length_measured hf hbig
    have hb := hf.bounds
    have hpass := (scanBack_pass (by omega : σ.entryList ≤ σ.start) (by omega) hall).2
    -- all entries up to the place where the scan starts are at the first one's distance
    let k := σ.numEntries-σ.numEntries/2
    have hk : k < (σ.sorted big).length := by
      rw [hlen]
      unfold Split.start at hstart
      omega
    have hget (i : ℕ) (hi : i ≤ k) : ((σ.sorted big).get ⟨i, by omega⟩).distance =
        ((σ.sorted big).get ⟨k, hk⟩).distance := by
      have hm (j : ℕ) (hj : j ≤ k) (hjm : σ.entryList+j < (σ.measured big).length) :
          (σ.measured big).get ⟨σ.entryList+j, hjm⟩ = (σ.sorted big).get ⟨j, by omega⟩ := by
        apply Option.some.inj
        have hs := measured_getElem? hf hbig (i := j) (by omega)
        rw [List.getElem?_eq_getElem hjm, List.getElem?_eq_getElem (by omega)] at hs
        exact hs
      have hp := hpass (σ.entryList+i) (Nat.le_add_right _ _) (Nat.add_le_add_left hi _)
      rw [hm i hi] at hp
      exact hp.trans (congrArg VPEntry.distance (hm k le_rfl _))
    -- so the first k+1 entries are all nearest: one more than the bound allows
    have hmin : ∀ e ∈ (σ.sorted big).take (k+1),
        ∀ e' ∈ σ.sorted big, e.distance ≤ e'.distance := by
      intro e he e' he'
      obtain ⟨i, hi, rfl⟩ := List.getElem_of_mem he
      obtain ⟨j, hj, rfl⟩ := List.getElem_of_mem he'
      rw [List.length_take] at hi
      rw [List.getElem_take]
      have hi0 := (hget i (by omega)).trans (hget 0 (Nat.zero_le _)).symm
      calc
        (σ.sorted big)[i].distance = (σ.sorted big)[0].distance := hi0
        _ ≤ (σ.sorted big)[j].distance := hsorted.le_getElem (Nat.zero_le j) (by omega) hj
    have hcount : ((σ.sorted big).take (k+1)).countP
        (fun e => ∀ e' ∈ σ.sorted big, e.distance ≤ e'.distance) = k+1 := by
      rw [List.countP_eq_length.mpr fun e he => decide_eq_true (hmin e he), List.length_take]
      omega
    rw [hsplit _ (k+1), hcount] at h
    omega

end Sorted

end VantagePoint
