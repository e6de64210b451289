import VantagePoint.RangeSearch
import VantagePoint.BuildMemory

/-! Where `VPT_all_within` writes its matches. The count is raised before it is
used as an index, so the first match lands in the second cell and the one that
fills the buffer lands behind it. -/
namespace VantagePoint
open WhileLoop GroupMetric

variable {α D : Type*}

section Code

variable [LinearOrder D] [Add D] [Sub D]

/-- The points a search with the bound `max_dist` comes to, in the order in which
it takes them up. -/
def VPNode.met (dist_fn : α → α → D) (q : α) (max_dist : D) : VPNode α D → List α
  | .branch item radius left right =>
    let dist := dist_fn item q
    let left := if dist-max_dist ≤ radius then left.met dist_fn q max_dist else []
    let right := if dist+max_dist ≥ radius then right.met dist_fn q max_dist else []
    item :: if dist < radius then right ++ left else left ++ right
  | .pointlist items => items

/-- The states of a run of `VPT_all_within`: whenever the loop tests its guard,
after any number of the items of a list, and on return. -/
inductive WithinPoint (buffer : Option ℕ) (realloc : ℕ → Option ℕ) (dist_fn : α → α → D)
    (root : VPNode α D) (datapoint : α) (max_dist : D) : WithinState α D → Prop where
  | head (s : SearchState α D (WithinState α D)) (hbuffer : buffer.isSome)
      (hs : ((withinSearch realloc dist_fn datapoint max_dist).loop dist_fn datapoint).Reaches
        (.start (withinStart buffer) root) s) :
      WithinPoint buffer realloc dist_fn root datapoint max_dist s.acc
  | item (s s' : WithinState α D) (done todo : List α) (below : List (VPNode α D))
      (hbuffer : buffer.isSome)
      (hs : ((withinSearch realloc dist_fn datapoint max_dist).loop dist_fn datapoint).Reaches
        (.start (withinStart buffer) root) ⟨s, .pointlist (done ++ todo) :: below⟩)
      (hdone : withinList realloc dist_fn datapoint max_dist done s = .ok s') :
      WithinPoint buffer realloc dist_fn root datapoint max_dist s'
  | final : WithinPoint buffer realloc dist_fn root datapoint max_dist
      (vptAllWithin buffer realloc dist_fn root datapoint max_dist).2

end Code

/-- The count is that of the matches accepted so far, and they stand at the
beginning of the buffer in the order in which they were accepted. -/
def WithinState.Landed (s : WithinState α D) : Prop :=
  s.allWithin.numItems = s.accepted.length ∧ ∀ i < s.accepted.length, s.cells i = s.accepted[i]?

/-- What a caller finds who reads `result_space[0..num_results)`. -/
def WithinState.ReadBack (s : WithinState α D) : Prop :=
  s.resultSpace = s.allWithin.items ∧
    (List.range s.numResults).map s.cells = s.accepted.map some

/-- What the writes of matches do to count, capacity and buffer. The first
`VPT_MAX_LIST_SIZE` of them meet the capacity that the method started with. -/
structure WithinState.Growing (buffer : Option ℕ) (s : WithinState α D) : Prop where
  counted : s.allWithin.numItems = s.writes.length
  result : s.resultSpace = buffer
  first : s.cells 0 = none
  roomy : vptMaxListSize ≤ s.allWithin.capacity
  ungrown : s.writes.length < vptMaxListSize →
    s.allWithin.capacity = vptMaxListSize ∧ s.allWithin.items = buffer
  placed : ∀ j w, s.writes[j]? = some w →
    w.index = j+1 ∧ (j < vptMaxListSize → w.capacity = vptMaxListSize)

section Growing

variable {buffer : Option ℕ} {s s' : WithinState α D}

theorem length_accepted (s : WithinState α D) : s.accepted.length = s.writes.length :=
  List.length_map _

theorem growing_start (buffer : Option ℕ) : (withinStart buffer : WithinState α D).Growing buffer where
  counted := rfl
  result := rfl
  first := rfl
  roomy := le_rfl
  ungrown _ := ⟨rfl, rfl⟩
  placed j w hw := by
    rw [withinStart, List.getElem?_nil] at hw
    cases hw

/-- Growth comes when the count has reached the capacity, so not before
`VPT_MAX_LIST_SIZE` matches have been written. -/
theorem growIfFull_cases (realloc : ℕ → Option ℕ) (h : s.Growing buffer) :
    (∃ g, growIfFull realloc s = .ok g ∧ g.Growing buffer ∧ g.writes = s.writes) ∨
    ∃ e, growIfFull realloc s = .error e ∧ e.Growing buffer ∧ e.writes = s.writes ∧
      vptMaxListSize ≤ s.writes.length := by
  unfold growIfFull
  by_cases hfull : s.allWithin.numItems = s.allWithin.capacity
  · have hmany : vptMaxListSize ≤ s.writes.length := by
      rw [← h.counted, hfull]
      exact h.roomy
    rw [if_pos hfull]
    cases realloc s.reallocs with
    | none =>
      exact Or.inr ⟨_, rfl, ⟨h.counted, h.result, h.first, h.roomy, h.ungrown, h.placed⟩, rfl, hmany⟩
    | some address =>
      refine Or.inl ⟨_, rfl, ⟨h.counted, h.result, ?_, ?_, ?_, h.placed⟩, rfl⟩
      -- `realloc` copies the cells, the first one as it was.
      · dsimp only
        rw [h.first, ite_self]
      · exact h.roomy.trans (Nat.le_mul_of_pos_left _ Nat.two_pos)
      · intro hfew
        exact absurd hmany (not_le.mpr hfew)
  · rw [if_neg hfull]
    exact Or.inl ⟨s, rfl, h, rfl⟩

theorem writeMatch_growing (h : s.Growing buffer) (x : α) (d : D) :
    (writeMatch s x d).Growing buffer where
  counted := by simp only [writeMatch, h.counted, List.length_append, List.length_singleton]
  result := h.result
  first := by
    have hne : 0 ≠ s.allWithin.numItems+1 := (Nat.succ_ne_zero _).symm
    change Function.update s.cells (s.allWithin.numItems+1) (some ⟨x, d⟩) 0 = none
    rw [Function.update_of_ne hne]
    exact h.first
  roomy := h.roomy
  ungrown hfew := by
    apply h.ungrown
    simp only [writeMatch, List.length_append, List.length_singleton] at hfew
    omega
  placed j w hw := by
    simp only [writeMatch] at hw
    rcases Nat.lt_trichotomy j s.writes.length with hlt | rfl | hgt
    · rw [List.getElem?_append_left hlt] at hw
      exact h.placed j w hw
    -- the new write: one beyond the old count, at the capacity of the moment
    · rw [List.getElem?_concat_length] at hw
      cases hw
      exact ⟨congrArg (· + 1) h.counted, fun hfew => (h.ungrown hfew).1⟩
    · rw [List.getElem?_eq_none] at hw
      · cases hw
      · rw [List.length_append, List.length_singleton]
        omega

end Growing

/-- How a part of the run that begins in `s` and deals with the points `xs` may
end. A failed `realloc` comes after `VPT_MAX_LIST_SIZE` matches at least. -/
def WithinOutcome [LinearOrder D] (buffer : Option ℕ) (dist : α → D) (max_dist : D)
    (s : WithinState α D) (xs : List α) : Except (WithinState α D) (WithinState α D) → Prop
  | .ok s' => s'.Growing buffer ∧ s'.accepted = s.accepted ++ matchesOf dist max_dist xs
  | .error e => e.Growing buffer ∧ vptMaxListSize ≤ e.accepted.length ∧
      e.accepted <+: s.accepted ++ matchesOf dist max_dist xs

theorem matchesOf_nil [LinearOrder D] (dist : α → D) (max_dist : D) :
    matchesOf dist max_dist [] = [] := rfl

theorem length_matchesOf [LinearOrder D] (dist : α → D) (max_dist : D) (xs : List α) :
    (matchesOf dist max_dist xs).length = xs.countP fun x => dist x ≤ max_dist := by
  rw [matchesOf, List.length_map, List.countP_eq_length_filter]

theorem matchesOf_eq_nil [LinearOrder D] {dist : α → D} {max_dist : D} {xs : List α} :
    matchesOf dist max_dist xs = [] ↔ ∀ x ∈ xs, ¬ dist x ≤ max_dist := by
  rw [matchesOf, List.map_eq_nil_iff, List.filter_eq_nil_iff]
  simp only [decide_eq_true_eq]

section Outcome

variable [LinearOrder D] {buffer : Option ℕ} {dist : α → D} {max_dist : D} {s : WithinState α D}
  {xs ys : List α}

theorem WithinOutcome.bind {x : Except (WithinState α D) (WithinState α D)}
    {f : WithinState α D → Except (WithinState α D) (WithinState α D)}
    (h : WithinOutcome buffer dist max_dist s xs x)
    (hf : ∀ s', s'.Growing buffer → WithinOutcome buffer dist max_dist s' ys (f s')) :
    WithinOutcome buffer dist max_dist s (xs ++ ys) (x.bind f) := by
  have hsplit : s.accepted ++ matchesOf dist max_dist (xs ++ ys) =
      s.accepted ++ matchesOf dist max_dist xs ++ matchesOf dist max_dist ys := by
    rw [matchesOf_append, List.append_assoc]
  cases x with
  | error e =>
    -- A failed `realloc` leaves `ys` undone: what was accepted is still a prefix.
    obtain ⟨hg, hmany, hpre⟩ := h
    refine ⟨hg, hmany, ?_⟩
    rw [hsplit]
    exact hpre.trans (List.prefix_append _ _)
  | ok s' =>
    obtain ⟨hg, hacc⟩ := h
    have hrest := hf s' hg
    unfold WithinOutcome at hrest ⊢
    rw [hacc] at hrest
    rw [hsplit]
    exact hrest

theorem considerWithin_outcome (dist : α → D) (realloc : ℕ → Option ℕ) (hs : s.Growing buffer)
    (x : α) :
    WithinOutcome buffer dist max_dist s [x] (considerWithin realloc max_dist s x (dist x)) := by
  unfold considerWithin
  by_cases hx : dist x ≤ max_dist
  · have hm : matchesOf dist max_dist [x] = [⟨x, dist x⟩] := by
      simp [matchesOf, hx]
    rw [if_pos hx]
    rcases growIfFull_cases realloc hs with ⟨g, hgrow, hg, hw⟩ | ⟨e, hgrow, he, hw, hmany⟩
    · rw [hgrow]
      refine ⟨writeMatch_growing hg x _, ?_⟩
      rw [hm]
      simp only [WithinState.accepted, writeMatch, hw, List.map_append, List.map_cons, List.map_nil]
    · rw [hgrow]
      have hacc : e.accepted = s.accepted := congrArg (List.map WithinWrite.entry) hw
      refine ⟨he, ?_, ?_⟩
      · rwa [hacc, length_accepted]
      · rw [hacc]
        exact List.prefix_append _ _
  · rw [if_neg hx]
    refine ⟨hs, ?_⟩
    rw [matchesOf_far, List.append_nil]
    intro y hy
    rw [List.mem_singleton.mp hy]
    exact not_le.mp hx

theorem withinList_outcome (realloc : ℕ → Option ℕ) (dist_fn : α → α → D) (q : α) (max_dist : D)
    (xs : List α) (hs : s.Growing buffer) :
    WithinOutcome buffer (fun x => dist_fn x q) max_dist s xs
      (withinList realloc dist_fn q max_dist xs s) := by
  induction xs generalizing s with
  | nil => exact ⟨hs, (List.append_nil _).symm⟩
  | cons x xs ih =>
    exact (considerWithin_outcome (fun x => dist_fn x q) realloc hs x).bind fun s' hs' => ih hs'

end Outcome

section Loop

variable [LinearOrder D] [Add D] [Sub D] {buffer : Option ℕ} {realloc : ℕ → Option ℕ}
  {dist_fn : α → α → D} {q : α} {max_dist : D}

/-- The points of the subtrees a branch pushes, with those of the stack below. -/
theorem met_pushChildren (dist radius : D) (left right : VPNode α D) (ts : List (VPNode α D)) :
    (pushChildren dist max_dist radius left right ts).flatMap (VPNode.met dist_fn q max_dist) =
      (if dist < radius then
        (if dist+max_dist ≥ radius then right.met dist_fn q max_dist else []) ++
          (if dist-max_dist ≤ radius then left.met dist_fn q max_dist else [])
      else
        (if dist-max_dist ≤ radius then left.met dist_fn q max_dist else []) ++
          (if dist+max_dist ≥ radius then right.met dist_fn q max_dist else [])) ++
        ts.flatMap (VPNode.met dist_fn q max_dist) := by
  have hpush (p : Prop) [Decidable p] (t : VPNode α D) (us : List (VPNode α D)) :
      (if p then t :: us else us).flatMap (VPNode.met dist_fn q max_dist) =
        (if p then t.met dist_fn q max_dist else []) ++
          us.flatMap (VPNode.met dist_fn q max_dist) := by
    by_cases hp : p
    · rw [if_pos hp, if_pos hp, List.flatMap_cons]
    · rw [if_neg hp, if_neg hp, List.nil_append]
  unfold pushChildren
  by_cases hlt : dist < radius
  · rw [if_pos hlt, if_pos hlt, hpush, hpush, List.append_assoc]
  · rw [if_neg hlt, if_neg hlt, hpush, hpush, List.append_assoc]

/-- The loop invariant: the matches accepted so far and those among the points
still to be met from the stack make up `all`. -/
structure Meets (buffer : Option ℕ) (dist_fn : α → α → D) (q : α) (max_dist : D)
    (all : List (VPEntry α D)) (s : SearchState α D (WithinState α D)) : Prop where
  growing : s.acc.Growing buffer
  all : s.acc.accepted ++ matchesOf (fun x => dist_fn x q) max_dist
    (s.toTraverse.flatMap (VPNode.met dist_fn q max_dist)) = all

variable (realloc) in
/-- One pass of the loop, whether it comes back or leaves the method. -/
theorem Meets.body {all : List (VPEntry α D)} {s : SearchState α D (WithinState α D)}
    (h : Meets buffer dist_fn q max_dist all s) :
    match (withinSearch realloc dist_fn q max_dist).body dist_fn q s with
    | .ok s' => Meets buffer dist_fn q max_dist all s'
    | .error e => e.Growing buffer ∧ vptMaxListSize ≤ e.accepted.length ∧ e.accepted <+: all := by
  obtain ⟨acc, ts⟩ := s
  obtain ⟨hg, hall⟩ := h
  -- What is left to do after the top of the stack.
  have hpass (xs ys : List α) (us : List (VPNode α D))
      (x : Except (WithinState α D) (WithinState α D))
      (hx : WithinOutcome buffer (fun x => dist_fn x q) max_dist acc xs x)
      (hstack : ts.flatMap (VPNode.met dist_fn q max_dist) = xs ++ ys)
      (hus : us.flatMap (VPNode.met dist_fn q max_dist) = ys) :
      match x.bind fun acc => .ok (⟨acc, us⟩ : SearchState α D (WithinState α D)) with
      | .ok s' => Meets buffer dist_fn q max_dist all s'
      | .error e => e.Growing buffer ∧ vptMaxListSize ≤ e.accepted.length ∧ e.accepted <+: all := by
    dsimp only at hall
    rw [hstack, matchesOf_append, ← List.append_assoc] at hall
    cases x with
    | error e =>
      obtain ⟨he, hmany, hpre⟩ := hx
      refine ⟨he, hmany, ?_⟩
      rw [← hall]
      exact hpre.trans (List.prefix_append _ _)
    | ok acc' =>
      obtain ⟨hg', hacc⟩ := hx
      refine ⟨hg', ?_⟩
      rw [← hall, hus, hacc]
  cases ts with
  | nil => exact ⟨hg, hall⟩
  | cons t ts =>
    cases t with
    | pointlist xs =>
      exact hpass xs _ ts _ (withinList_outcome realloc dist_fn q max_dist xs hg) rfl rfl
    | branch v r left right =>
      -- The item of the branch comes before the points of its children.
      refine hpass [v] _ _ _ (considerWithin_outcome (fun x => dist_fn x q) realloc hg v) ?_
        (met_pushChildren (dist_fn v q) r left right ts)
      rw [List.flatMap_cons, VPNode.met]
      rfl

theorem meets_of_reaches {t : VPNode α D} {s : SearchState α D (WithinState α D)}
    (h : ((withinSearch realloc dist_fn q max_dist).loop dist_fn q).Reaches
      (.start (withinStart buffer) t) s) :
    Meets buffer dist_fn q max_dist
      (matchesOf (fun x => dist_fn x q) max_dist (t.met dist_fn q max_dist)) s := by
  refine reaches_invariant _ _ ?_ _ s ⟨growing_start buffer, ?_⟩ h
  · intro a b ha hstep
    have hbody : (withinSearch realloc dist_fn q max_dist).body dist_fn q a = .ok b := hstep.2
    have hb := ha.body realloc
    rw [hbody] at hb
    exact hb
  · simp [SearchState.start, withinStart, WithinState.accepted]

/-- On a true return all matches met have been accepted; on a false one, which is
a failed `realloc`, at least `VPT_MAX_LIST_SIZE` of them have been. -/
theorem vptAllWithin_final (address : ℕ) (realloc : ℕ → Option ℕ) (dist_fn : α → α → D)
    (t : VPNode α D) (q : α) (max_dist : D) :
    let r := vptAllWithin (some address) realloc dist_fn t q max_dist
    let all := matchesOf (fun x => dist_fn x q) max_dist (t.met dist_fn q max_dist)
    r.2.Growing (some address) ∧
      (r.1 = true ∧ r.2.accepted = all ∧ r.2.numResults = r.2.allWithin.numItems ∨
        r.1 = false ∧ vptMaxListSize ≤ r.2.accepted.length ∧ r.2.accepted <+: all) := by
  intro r all
  have hrun := loop_run_start (withinSearch realloc dist_fn q max_dist) dist_fn q
    (withinStart (some address)) t
  cases hr : ((withinSearch realloc dist_fn q max_dist).loop dist_fn q).run t.nodeCount
      (.start (withinStart (some address)) t) with
  | ok s =>
    obtain ⟨hg, hall⟩ := meets_of_reaches (run_reaches _ _ _ _ hr)
    have hval : r = (true, { s.acc with numResults := s.acc.allWithin.numItems }) := by
      simp only [r, vptAllWithin, hr]
    -- The fuel was enough, so the stack is empty and nothing is left to be met.
    have hempty : s.toTraverse = [] := by
      rw [hr] at hrun
      cases hv : (withinSearch realloc dist_fn q max_dist).visit dist_fn q t
          (withinStart (some address)) with
      | error e =>
        rw [hv] at hrun
        cases hrun
      | ok acc =>
        rw [hv] at hrun
        cases hrun
        rfl
    rw [hempty, List.flatMap_nil, matchesOf_nil, List.append_nil] at hall
    rw [hval]
    exact ⟨⟨hg.counted, hg.result, hg.first, hg.roomy, hg.ungrown, hg.placed⟩,
      Or.inl ⟨rfl, hall, rfl⟩⟩
  | error e =>
    obtain ⟨s, hs, _, hbody⟩ := run_error_reaches _ _ _ _ hr
    have hbody' : (withinSearch realloc dist_fn q max_dist).body dist_fn q s = .error e := hbody
    have he := (meets_of_reaches hs).body realloc
    rw [hbody'] at he
    obtain ⟨hg, hmany, hpre⟩ := he
    have hval : r = (false, e) := by
      simp only [r, vptAllWithin, hr]
    rw [hval]
    exact ⟨hg, Or.inr ⟨rfl, hmany, hpre⟩⟩

/-- At every point of a run the matches accepted are among those met. -/
theorem accepted_of_point {s : WithinState α D} {t : VPNode α D}
    (h : WithinPoint buffer realloc dist_fn t q max_dist s) :
    (∃ buffer, s.Growing buffer) ∧
      s.accepted <+: matchesOf (fun x => dist_fn x q) max_dist (t.met dist_fn q max_dist) := by
  cases h with
  | head s hbuffer hs =>
    obtain ⟨hg, hall⟩ := meets_of_reaches hs
    exact ⟨⟨_, hg⟩, _, hall⟩
  | item a s done todo below hbuffer hs hdone =>
    obtain ⟨hg, hall⟩ := meets_of_reaches hs
    -- The part `done` of the list has been dealt with, `todo` and the stack are left.
    have hout := withinList_outcome realloc dist_fn q max_dist done hg
    rw [hdone] at hout
    obtain ⟨hg', hacc⟩ := hout
    refine ⟨⟨_, hg'⟩, ?_⟩
    rw [← hall, List.flatMap_cons, VPNode.met, List.append_assoc, matchesOf_append,
      ← List.append_assoc, ← hacc]
    exact List.prefix_append _ _
  | final =>
    cases buffer with
    | none => exact ⟨⟨_, growing_start none⟩, List.nil_prefix⟩
    | some address =>
      obtain ⟨hg, ⟨_, hall, _⟩ | ⟨_, _, hpre⟩⟩ :=
        vptAllWithin_final address realloc dist_fn t q max_dist
      · rw [hall]
        exact ⟨⟨_, hg⟩, List.prefix_refl _⟩
      · exact ⟨⟨_, hg⟩, hpre⟩

end Loop

section Results

variable [LinearOrder D] [Add D] [Sub D] (buffer : Option ℕ) (realloc : ℕ → Option ℕ)
  (dist_fn : α → α → D) (t : VPNode α D) (q : α) (max_dist : D)

/-- The match that fills the buffer is written behind it. -/
theorem exists_write_outside (address : ℕ)
    (hmany : vptMaxListSize ≤ (t.met dist_fn q max_dist).countP fun x => dist_fn x q ≤ max_dist) :
    ∃ w ∈ (vptAllWithin (some address) realloc dist_fn t q max_dist).2.writes,
      w.index = w.capacity := by
  obtain ⟨hg, hfinal⟩ := vptAllWithin_final address realloc dist_fn t q max_dist
  have hlen := length_accepted (vptAllWithin (some address) realloc dist_fn t q max_dist).2
  have hfull : vptMaxListSize ≤
      (vptAllWithin (some address) realloc dist_fn t q max_dist).2.writes.length := by
    rcases hfinal with ⟨_, hall, _⟩ | ⟨_, hmany', _⟩
    · rw [← hlen, hall, length_matchesOf]
      exact hmany
    · rwa [hlen] at hmany'
  have hlast : vptMaxListSize-1 <
      (vptAllWithin (some address) realloc dist_fn t q max_dist).2.writes.length :=
    lt_of_lt_of_le (by decide) hfull
  obtain ⟨hindex, hcap⟩ := hg.placed _ _ (List.getElem?_eq_getElem hlast)
  exact ⟨_, List.getElem_mem hlast, by rw [hindex, hcap (by decide)]; rfl⟩

end Results

section Metric

variable [AddCommGroup D] [LinearOrder D] [IsOrderedAddMonoid D] {dist_fn : α → α → D}

/-- In an ordered tree the matches met are those of all stored points. -/
theorem met_matches_perm (hd : IsMetric dist_fn) (q : α) (max_dist : D) (t : VPNode α D)
    (ht : t.Ordered dist_fn) :
    (matchesOf (fun x => dist_fn x q) max_dist (t.met dist_fn q max_dist)).Perm
      (matchesOf (fun x => dist_fn x q) max_dist t.items) := by
  induction t with
  | pointlist xs => exact List.Perm.refl _
  | branch v r left right ihl ihr =>
    obtain ⟨hin, hout, hol, hor⟩ := ht
    -- A child that fails its test has no match at all.
    have hchild (p : Prop) [Decidable p] (c : VPNode α D)
        (ih : (matchesOf (fun x => dist_fn x q) max_dist (c.met dist_fn q max_dist)).Perm
          (matchesOf (fun x => dist_fn x q) max_dist c.items))
        (hfar : ¬p → ∀ x ∈ c.items, max_dist < dist_fn x q) :
        (matchesOf (fun x => dist_fn x q) max_dist
          (if p then c.met dist_fn q max_dist else [])).Perm
          (matchesOf (fun x => dist_fn x q) max_dist c.items) := by
      by_cases hp : p
      · rwa [if_pos hp]
      · rw [if_neg hp, matchesOf_far _ _ c.items (hfar hp)]
        exact List.Perm.refl _
    have hl := hchild (dist_fn v q-max_dist ≤ r) left (ihl hol)
      fun hn x hx => hd.lt_of_inside (hin x hx) hn
    have hr := hchild (dist_fn v q+max_dist ≥ r) right (ihr hor)
      fun hn x hx => hd.lt_of_outside (hout x hx) hn
    rw [VPNode.met, items_branch, ← List.singleton_append, matchesOf_append,
      ← List.singleton_append (l := left.items ++ right.items), matchesOf_append, matchesOf_append]
    apply List.Perm.append_left
    by_cases hlt : dist_fn v q < r
    · rw [if_pos hlt, matchesOf_append]
      exact (hr.append hl).trans List.perm_append_comm
    · rw [if_neg hlt, matchesOf_append]
      exact hl.append hr

end Metric

/-- Every guest is at distance 3 from `none`, so all of them are matches. -/
theorem exists_write_outside_couples (n : ℕ) (hn : vptMaxListSize ≤ 2*n) :
    ∃ w ∈ (vptAllWithin (some 0) some coupleDist (buildTree coupleEnv (couples n)) none 3).2.writes,
      w.index = w.capacity := by
  apply exists_write_outside
  obtain ⟨hperm, hordered⟩ := buildTree_spec coupleEnv_bounded (couples n)
  have ho : (buildTree coupleEnv (couples n)).Ordered coupleDist := hordered coupleDist_comm
  have hcount := (met_matches_perm isMetric_coupleDist none 3 _ ho).length_eq
  have hall : (buildTree coupleEnv (couples n)).items.countP (fun x => coupleDist x none ≤ 3) =
      (couples n).length := by
    rw [hperm.countP_eq, List.countP_eq_length]
    intro x hx
    obtain ⟨g, rfl, _⟩ := (mem_couples n x).mp hx
    rfl
  rw [length_matchesOf, length_matchesOf, hall, length_couples] at hcount
  rw [hcount]
  exact hn

end VantagePoint
