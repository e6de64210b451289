import VantagePoint.Node
import VantagePoint.WhileLoop
import Mathlib.Algebra.Ring.Nat
import Mathlib.Data.List.Perm.Basic

/-! The traversal that `VPT_nn`, `VPT_knn` and `VPT_all_within` are three copies
of. What the copies do with a point, and the bound they prune by, are the
fields of `Search`; the stack handling and the pruning tests are common. -/
namespace VantagePoint
open WhileLoop

universe u v w z

variable {α : Type u} {D : Type v} {σ : Type w} {ε : Type z}

/-- What one search does at a branch item, at a list node, and the bound
(`closest_dist`, `tau` or `max_dist`) its pruning tests read afterwards. -/
structure Search (α : Type u) (D : Type v) (σ : Type w) (ε : Type z) where
  onBranch : σ → α → D → Except ε σ
  onList : σ → List α → Except ε σ
  bound : σ → D

/-- Locals of a search: its own variables and `to_traverse`, top first. -/
structure SearchState (α : Type u) (D : Type v) (σ : Type w) where
  acc : σ
  toTraverse : List (VPNode α D)

section Traversal

variable [LinearOrder D] [Add D] [Sub D]

/-- The two pruning tests of a branch, in the order the source makes them: the
child pushed last is the one visited first. -/
def pushChildren (dist bound radius : D) (left right : VPNode α D)
    (toTraverse : List (VPNode α D)) : List (VPNode α D) :=
  -- The query is inside the ball: right is pushed last and visited first.
  if dist < radius then
    let toTraverse := if dist-bound ≤ radius then left :: toTraverse else toTraverse
    if dist+bound ≥ radius then right :: toTraverse else toTraverse
  else
    let toTraverse := if dist+bound ≥ radius then right :: toTraverse else toTraverse
    if dist-bound ≤ radius then left :: toTraverse else toTraverse

theorem mem_pushChildren {dist bound radius : D} {left right t : VPNode α D}
    {toTraverse : List (VPNode α D)}
    (h : t ∈ pushChildren dist bound radius left right toTraverse) :
    t = left ∨ t = right ∨ t ∈ toTraverse := by
  have hpush (p : Prop) [Decidable p] (u : VPNode α D) (ts : List (VPNode α D))
      (hmem : t ∈ if p then u :: ts else ts) : t = u ∨ t ∈ ts := by
    by_cases hp : p
    · rw [if_pos hp] at hmem
      exact List.mem_cons.mp hmem
    · rw [if_neg hp] at hmem
      exact Or.inr hmem
  unfold pushChildren at h
  by_cases hlt : dist < radius
  · rw [if_pos hlt] at h
    rcases hpush _ _ _ h with hr | h
    · exact Or.inr (Or.inl hr)
    · rcases hpush _ _ _ h with hl | h
      · exact Or.inl hl
      · exact Or.inr (Or.inr h)
  · rw [if_neg hlt] at h
    rcases hpush _ _ _ h with hl | h
    · exact Or.inl hl
    · rcases hpush _ _ _ h with hr | h
      · exact Or.inr (Or.inl hr)
      · exact Or.inr (Or.inr h)

/-- Body of `while (to_traverse_size)`. -/
def Search.body (S : Search α D σ ε) (dist_fn : α → α → D) (datapoint : α)
    (s : SearchState α D σ) : Except ε (SearchState α D σ) :=
  match s.toTraverse with
  | [] => .ok s
  | .branch item radius left right :: toTraverse =>
    let dist := dist_fn item datapoint
    (S.onBranch s.acc item dist).bind fun acc =>
      .ok ⟨acc, pushChildren dist (S.bound acc) radius left right toTraverse⟩
  | .pointlist items :: toTraverse =>
    (S.onList s.acc items).bind fun acc => .ok ⟨acc, toTraverse⟩

def Search.loop (S : Search α D σ ε) (dist_fn : α → α → D) (datapoint : α) :
    Loop (SearchState α D σ) ε where
  guard s := !s.toTraverse.isEmpty
  body := S.body dist_fn datapoint

/-- The state in which a search of `root` enters its loop. -/
def SearchState.start (acc : σ) (root : VPNode α D) : SearchState α D σ := ⟨acc, [root]⟩

def visitIf (p : Prop) [Decidable p] (visit : σ → Except ε σ) (acc : σ) : Except ε σ :=
  if p then visit acc else .ok acc

/-- The same search by recursion on the tree, without a stack. -/
def Search.visit (S : Search α D σ ε) (dist_fn : α → α → D) (datapoint : α) :
    VPNode α D → σ → Except ε σ
  | .branch item radius left right, acc =>
    let dist := dist_fn item datapoint
    (S.onBranch acc item dist).bind fun acc =>
      let bound := S.bound acc
      if dist < radius then
        (visitIf (dist+bound ≥ radius) (S.visit dist_fn datapoint right) acc).bind
          (visitIf (dist-bound ≤ radius) (S.visit dist_fn datapoint left))
      else
        (visitIf (dist-bound ≤ radius) (S.visit dist_fn datapoint left) acc).bind
          (visitIf (dist+bound ≥ radius) (S.visit dist_fn datapoint right))
  | .pointlist items, acc => S.onList acc items

/-- Visiting every node of a stack, top first. -/
def Search.visitAll (S : Search α D σ ε) (dist_fn : α → α → D) (datapoint : α) :
    List (VPNode α D) → σ → Except ε σ
  | [], acc => .ok acc
  | t :: ts, acc => (S.visit dist_fn datapoint t acc).bind (S.visitAll dist_fn datapoint ts)

variable (S : Search α D σ ε) (dist_fn : α → α → D) (q : α)

theorem visitAll_visitIf (p : Prop) [Decidable p] (t : VPNode α D) (ts : List (VPNode α D)) :
    S.visitAll dist_fn q (if p then t :: ts else ts) = fun acc =>
      (visitIf p (S.visit dist_fn q t) acc).bind (S.visitAll dist_fn q ts) := by
  funext acc
  by_cases hp : p
  · simp only [hp, ↓reduceIte, Search.visitAll, visitIf]
  · simp only [hp, ↓reduceIte, visitIf, Except.bind]

/-- Visiting the children a branch pushes is the recursive visit of the branch. -/
theorem visitAll_pushChildren (dist bound radius : D) (l r : VPNode α D)
    (ts : List (VPNode α D)) (acc : σ) :
    S.visitAll dist_fn q (pushChildren dist bound radius l r ts) acc =
      (if dist < radius then
        (visitIf (dist+bound ≥ radius) (S.visit dist_fn q r) acc).bind
          (visitIf (dist-bound ≤ radius) (S.visit dist_fn q l))
      else
        (visitIf (dist-bound ≤ radius) (S.visit dist_fn q l) acc).bind
          (visitIf (dist+bound ≥ radius) (S.visit dist_fn q r))).bind
        (S.visitAll dist_fn q ts) := by
  unfold pushChildren
  by_cases hlt : dist < radius
  · simp only [hlt, ↓reduceIte, visitAll_visitIf, except_bind_assoc]
  · simp only [hlt, ↓reduceIte, visitAll_visitIf, except_bind_assoc]

/-- Nodes still to be met from a stack, pruning aside. -/
def stackWeight (ts : List (VPNode α D)) : ℕ := (ts.map VPNode.nodeCount).sum

theorem stackWeight_pushChildren_lt (dist bound radius : D) (v : α) (l r : VPNode α D)
    (ts : List (VPNode α D)) :
    stackWeight (pushChildren dist bound radius l r ts) <
      stackWeight (.branch v radius l r :: ts) := by
  -- Either test adds at most the nodes of its own child.
  have hw (p : Prop) [Decidable p] (t : VPNode α D) (us : List (VPNode α D)) :
      stackWeight (if p then t :: us else us) ≤ t.nodeCount+stackWeight us := by
    by_cases hp : p
    · simp only [hp, ↓reduceIte, stackWeight, List.map_cons, List.sum_cons, le_refl]
    · simp only [hp, ↓reduceIte, Nat.le_add_left]
  have hb : stackWeight (.branch v radius l r :: ts) =
      l.nodeCount+r.nodeCount+1+stackWeight ts := by
    simp only [stackWeight, List.map_cons, List.sum_cons, VPNode.nodeCount]
  rw [hb]
  unfold pushChildren
  by_cases hlt : dist < radius
  · simp only [hlt, ↓reduceIte]
    have h1 := hw (dist+bound ≥ radius) r (if dist-bound ≤ radius then l :: ts else ts)
    have h2 := hw (dist-bound ≤ radius) l ts
    omega
  · simp only [hlt, ↓reduceIte]
    have h1 := hw (dist-bound ≤ radius) l (if dist+bound ≥ radius then r :: ts else ts)
    have h2 := hw (dist+bound ≥ radius) r ts
    omega

/-- Every pass takes a node off the stack for good. -/
theorem stackWeight_body_lt {s s' : SearchState α D σ} (hne : s.toTraverse ≠ [])
    (h : S.body dist_fn q s = .ok s') : stackWeight s'.toTraverse < stackWeight s.toTraverse := by
  obtain ⟨acc, ts⟩ := s
  cases ts with
  | nil => exact absurd rfl hne
  | cons t ts =>
    cases t with
    | branch v r left right =>
      obtain ⟨acc', _, hacc'⟩ := (except_bind_eq_ok _ _ _).mp h
      cases hacc'
      exact stackWeight_pushChildren_lt (dist_fn v q) (S.bound acc') r v left right ts
    | pointlist xs =>
      obtain ⟨acc', _, hacc'⟩ := (except_bind_eq_ok _ _ _).mp h
      cases hacc'
      simp only [stackWeight, List.map_cons, List.sum_cons, VPNode.nodeCount]
      omega

/-- The loop with its explicit stack computes the recursive visit, and the
number of nodes on the stack is fuel enough for it to come to its end. -/
theorem loop_run_eq_visitAll (n : ℕ) (acc : σ) (ts : List (VPNode α D))
    (hn : stackWeight ts ≤ n) :
    (S.loop dist_fn q).run n ⟨acc, ts⟩ =
      (S.visitAll dist_fn q ts acc).map fun acc => ⟨acc, []⟩ := by
  induction n generalizing acc ts with
  | zero =>
    cases ts with
    | nil => rfl
    | cons t ts =>
      have hpos := nodeCount_pos t
      simp only [stackWeight, List.map_cons, List.sum_cons] at hn
      omega
  | succ n ih =>
    cases ts with
    | nil => rfl
    | cons t ts =>
      cases t with
      | pointlist xs =>
        have hw : stackWeight ts ≤ n := by
          simp only [stackWeight, List.map_cons, List.sum_cons, VPNode.nodeCount] at hn ⊢
          omega
        have hb : (S.loop dist_fn q).body ⟨acc, .pointlist xs :: ts⟩ =
            (S.onList acc xs).bind fun acc => .ok ⟨acc, ts⟩ := rfl
        have hv : S.visitAll dist_fn q (.pointlist xs :: ts) acc =
            (S.onList acc xs).bind (S.visitAll dist_fn q ts) := rfl
        rw [hv]
        cases ho : S.onList acc xs with
        | error e =>
          rw [run_of_error _ n _ e rfl (by rw [hb, ho]; rfl)]
          rfl
        | ok acc' =>
          rw [run_of_body _ n _ ⟨acc', ts⟩ ⟨rfl, by rw [hb, ho]; rfl⟩]
          exact ih acc' ts hw
      | branch v radius l r =>
        have hb : (S.loop dist_fn q).body ⟨acc, .branch v radius l r :: ts⟩ =
            (S.onBranch acc v (dist_fn v q)).bind fun acc =>
              .ok ⟨acc, pushChildren (dist_fn v q) (S.bound acc) radius l r ts⟩ := rfl
        have hv : S.visitAll dist_fn q (.branch v radius l r :: ts) acc =
            (S.onBranch acc v (dist_fn v q)).bind fun acc =>
              S.visitAll dist_fn q (pushChildren (dist_fn v q) (S.bound acc) radius l r ts) acc := by
          simp only [Search.visitAll, Search.visit, except_bind_assoc, visitAll_pushChildren]
        rw [hv]
        cases ho : S.onBranch acc v (dist_fn v q) with
        | error e =>
          rw [run_of_error _ n _ e rfl (by rw [hb, ho]; rfl)]
          rfl
        | ok acc' =>
          rw [run_of_body _ n _ _ ⟨rfl, by rw [hb, ho]; rfl⟩]
          have hlt := stackWeight_pushChildren_lt (dist_fn v q) (S.bound acc') radius v l r ts
          exact ih acc' _ (by omega)

/-- `loop_run_eq_visitAll` for a search started at the root. -/
theorem loop_run_start (acc : σ) (t : VPNode α D) :
    (S.loop dist_fn q).run t.nodeCount (.start acc t) =
      (S.visit dist_fn q t acc).map fun acc => ⟨acc, []⟩ := by
  have hw : stackWeight [t] ≤ t.nodeCount := by
    simp only [stackWeight, List.map_cons, List.map_nil, List.sum_cons, List.sum_nil]
    omega
  rw [SearchState.start, loop_run_eq_visitAll S dist_fn q _ acc [t] hw]
  simp only [Search.visitAll]
  -- An early exit of the visit is an early exit of the loop.
  cases S.visit dist_fn q t acc with
  | error e => rfl
  | ok acc' => rfl

end Traversal

section Rule

variable [AddCommGroup D] [LinearOrder D] (S : Search α D σ ε) (dist_fn : α → α → D) (q : α) {R : σ → σ → List α → Prop}

theorem visitIf_eq_ok (p : Prop) [Decidable p] (f : σ → Except ε σ) (a b : σ) :
    visitIf p f a = .ok b ↔ (p ∧ f a = .ok b) ∨ (¬p ∧ a = b) := by
  by_cases hp : p
  · simp only [visitIf, hp, ↓reduceIte, true_and, not_true, false_and, or_false]
  · simp only [visitIf, hp, ↓reduceIte, Except.ok.injEq, false_and, not_false_eq_true,
      true_and, false_or]

/-- The two children of a branch, each visited or skipped. Both tests read the
bound `S.bound a` that held when the children were pushed, so a skipped child is
accounted for before the other one is visited. -/
theorem visit_children_rule
    (hperm : ∀ a b xs ys, xs.Perm ys → R a b xs → R a b ys)
    (htrans : ∀ a b c xs ys, R a b xs → R b c ys → R a c (xs ++ ys))
    (hskip : ∀ a xs, (∀ x ∈ xs, S.bound a < dist_fn x q) → R a a xs)
    (t u : VPNode α D) (p p' : Prop) [Decidable p] [Decidable p'] (a b : σ)
    (ht : ∀ a b, S.visit dist_fn q t a = .ok b → R a b t.items)
    (hu : ∀ a b, S.visit dist_fn q u a = .ok b → R a b u.items)
    (hp : ¬p → ∀ x ∈ t.items, S.bound a < dist_fn x q)
    (hp' : ¬p' → ∀ x ∈ u.items, S.bound a < dist_fn x q)
    (h : (visitIf p (S.visit dist_fn q t) a).bind (visitIf p' (S.visit dist_fn q u)) = .ok b) :
    R a b (t.items ++ u.items) := by
  -- `c` is what the variables are after the child that comes first; a child is
  -- either visited or skipped, and a skip leaves the variables as they are.
  obtain ⟨c, hfirst, hsecond⟩ := (except_bind_eq_ok _ _ _).mp h
  have hR : R a c t.items := by
    rcases (visitIf_eq_ok _ _ _ _).mp hfirst with ⟨_, hv⟩ | ⟨hn, rfl⟩
    · exact ht a c hv
    · exact hskip a _ (hp hn)
  rcases (visitIf_eq_ok _ _ _ _).mp hsecond with ⟨_, hv⟩ | ⟨hn, rfl⟩
  · exact htrans _ _ _ _ _ hR (hu c b hv)
  · exact hperm _ _ _ _ List.perm_append_comm (htrans _ _ _ _ _ (hskip a _ (hp' hn)) hR)

variable [IsOrderedAddMonoid D]

/-- The traversal rule. `R a b xs` says what a search with variables `a` may
have done with the points `xs` by the time its variables are `b`. Whatever holds
of points met, and of points farther away than the bound, holds of a subtree. -/
theorem visit_rule
    (hperm : ∀ a b xs ys, xs.Perm ys → R a b xs → R a b ys)
    (htrans : ∀ a b c xs ys, R a b xs → R b c ys → R a c (xs ++ ys))
    (hbranch : ∀ a b v, S.onBranch a v (dist_fn v q) = .ok b → R a b [v])
    (hlist : ∀ a b xs, S.onList a xs = .ok b → R a b xs)
    (hskip : ∀ a xs, (∀ x ∈ xs, S.bound a < dist_fn x q) → R a a xs)
    (hd : GroupMetric.IsMetric dist_fn) (t : VPNode α D) (ht : t.Ordered dist_fn) (a b : σ)
    (h : S.visit dist_fn q t a = .ok b) : R a b t.items := by
  induction t generalizing a b with
  | pointlist xs => exact hlist a b xs h
  | branch v r left right ihl ihr =>
    obtain ⟨hl, hr, hol, hor⟩ := ht
    obtain ⟨c, hc, hrest⟩ := (except_bind_eq_ok _ _ _).mp h
    -- A child that fails its test is a set of points beyond the bound.
    have hleft (hn : ¬ dist_fn v q-S.bound c ≤ r) : ∀ x ∈ left.items, S.bound c < dist_fn x q :=
      fun x hx => hd.lt_of_inside (hl x hx) hn
    have hright (hn : ¬ dist_fn v q+S.bound c ≥ r) : ∀ x ∈ right.items, S.bound c < dist_fn x q :=
      fun x hx => hd.lt_of_outside (hr x hx) hn
    -- Inside the ball the right child comes first, so its points stand first.
    have hchildren : R c b (left.items ++ right.items) := by
      dsimp only at hrest
      by_cases hlt : dist_fn v q < r
      · rw [if_pos hlt] at hrest
        exact hperm _ _ _ _ List.perm_append_comm
          (visit_children_rule S dist_fn q hperm htrans hskip right left _ _ c b
            (fun a b => ihr hor a b) (fun a b => ihl hol a b) hright hleft hrest)
      · rw [if_neg hlt] at hrest
        exact visit_children_rule S dist_fn q hperm htrans hskip left right _ _ c b
          (fun a b => ihl hol a b) (fun a b => ihr hor a b) hleft hright hrest
    exact htrans a c b [v] _ (hbranch a c v hc) hchildren

end Rule

section Simulation

variable [LinearOrder D] [Add D] [Sub D] {τ : Type*} {δ : Type*}

/-- Both computations come back normally, with related results. -/
def BothOk (Rel : σ → τ → Prop) (x : Except ε σ) (y : Except δ τ) : Prop :=
  ∃ a b, x = .ok a ∧ y = .ok b ∧ Rel a b

variable {Rel : σ → τ → Prop}

theorem BothOk.bind {x : Except ε σ} {y : Except δ τ} {f : σ → Except ε σ} {g : τ → Except δ τ}
    (h : BothOk Rel x y) (hfg : ∀ a b, Rel a b → BothOk Rel (f a) (g b)) :
    BothOk Rel (x.bind f) (y.bind g) := by
  obtain ⟨a, b, rfl, rfl, hab⟩ := h
  exact hfg a b hab

theorem bothOk_visitIf (p : Prop) [Decidable p] {f : σ → Except ε σ} {g : τ → Except δ τ} {a : σ}
    {b : τ} (hab : Rel a b) (hfg : ∀ a b, Rel a b → BothOk Rel (f a) (g b)) :
    BothOk Rel (visitIf p f a) (visitIf p g b) := by
  by_cases hp : p
  · simp only [visitIf, hp, ↓reduceIte]
    exact hfg a b hab
  · simp only [visitIf, hp, ↓reduceIte]
    exact ⟨a, b, rfl, rfl, hab⟩

/-- Two searches whose variables stay related and whose bounds are then equal
make the same pushes: they visit the same nodes and end in related states. -/
theorem visit_simulates (S : Search α D σ ε) (T : Search α D τ δ) (dist_fn : α → α → D) (q : α)
    (hbound : ∀ a b, Rel a b → S.bound a = T.bound b) (t : VPNode α D)
    (hbranch : ∀ a b, ∀ v ∈ t.items, Rel a b →
      BothOk Rel (S.onBranch a v (dist_fn v q)) (T.onBranch b v (dist_fn v q)))
    (hlist : ∀ a b xs, xs ⊆ t.items → Rel a b → BothOk Rel (S.onList a xs) (T.onList b xs))
    (a : σ) (b : τ) (hab : Rel a b) :
    BothOk Rel (S.visit dist_fn q t a) (T.visit dist_fn q t b) := by
  induction t generalizing a b with
  | pointlist xs => exact hlist a b xs (fun _ hx => hx) hab
  | branch v r left right ihl ihr =>
    have hleft : left.items ⊆ (VPNode.branch v r left right).items := fun x hx =>
      List.mem_cons_of_mem _ (List.mem_append_left _ hx)
    have hright : right.items ⊆ (VPNode.branch v r left right).items := fun x hx =>
      List.mem_cons_of_mem _ (List.mem_append_right _ hx)
    have hl := ihl (fun a b v hv => hbranch a b v (hleft hv))
      (fun a b xs hxs => hlist a b xs fun x hx => hleft (hxs hx))
    have hr := ihr (fun a b v hv => hbranch a b v (hright hv))
      (fun a b xs hxs => hlist a b xs fun x hx => hright (hxs hx))
    rw [Search.visit, Search.visit]
    apply (hbranch a b v List.mem_cons_self hab).bind
    intro a' b' hab'
    dsimp only
    rw [hbound a' b' hab']
    by_cases hlt : dist_fn v q < r
    · rw [if_pos hlt, if_pos hlt]
      exact (bothOk_visitIf _ hab' hr).bind fun _ _ h => bothOk_visitIf _ h hl
    · rw [if_neg hlt, if_neg hlt]
      exact (bothOk_visitIf _ hab' hl).bind fun _ _ h => bothOk_visitIf _ h hr

end Simulation

end VantagePoint
