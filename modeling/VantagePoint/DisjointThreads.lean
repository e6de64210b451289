import VantagePoint.Segment
import Mathlib.Logic.Function.Iterate
import Mathlib.Data.List.Count

/-! Threads that work on disjoint ranges of one array. A schedule names the thread
that takes the next step. Whatever the schedule, each thread finds in its range
what it would find there if it ran alone. -/
namespace DisjointThreads
open Segment

variable {ι L E : Type*}

/-- Disjoint ranges of an array of `n` elements, one for each thread. -/
structure Ranges (ι : Type*) (n : ℕ) where
  start : ι → ℕ
  size : ι → ℕ
  inside : ∀ i, start i+size i ≤ n
  apart : ∀ i j, i ≠ j → start i+size i ≤ start j ∨ start j+size j ≤ start i

/-- The local variables of the threads, and the array they share. -/
structure Shared (ι L E : Type*) where
  locals : ι → L
  arr : List E

variable {n : ℕ}

/-- What thread `i` sees: its local variables and its range. -/
def Shared.view (r : Ranges ι n) (s : Shared ι L E) (i : ι) : L × List E :=
  (s.locals i, slice (r.start i) (r.size i) s.arr)

/-- One step of thread `i`. -/
def step [DecidableEq ι] (r : Ranges ι n) (next : L × List E → L × List E) (s : Shared ι L E)
    (i : ι) : Shared ι L E :=
  let view := next (s.view r i)
  { locals := Function.update s.locals i view.1
    arr := splice (r.start i) (r.size i) s.arr view.2 }

def run [DecidableEq ι] (r : Ranges ι n) (next : L × List E → L × List E) (s : Shared ι L E)
    (schedule : List ι) : Shared ι L E :=
  schedule.foldl (step r next) s

variable [DecidableEq ι] {r : Ranges ι n} {next : L × List E → L × List E}

theorem length_step (hnext : ∀ v, (next v).2.length = v.2.length) {s : Shared ι L E}
    (hs : s.arr.length = n) (i : ι) : (step r next s i).arr.length = n := by
  have hin : r.start i+r.size i ≤ s.arr.length := by rw [hs]; exact r.inside i
  have hlen : (next (s.view r i)).2.length = r.size i := by
    rw [hnext]
    exact length_slice hin
  exact (length_splice hin hlen).trans hs

/-- A step of thread `i` is a step in its own view and leaves the others' alone. -/
theorem view_step (hnext : ∀ v, (next v).2.length = v.2.length) {s : Shared ι L E}
    (hs : s.arr.length = n) (i j : ι) :
    (step r next s i).view r j = if i = j then next (s.view r j) else s.view r j := by
  have hin : r.start i+r.size i ≤ s.arr.length := by rw [hs]; exact r.inside i
  have hlen : (next (s.view r i)).2.length = r.size i := by
    rw [hnext]
    exact length_slice hin
  by_cases hij : i = j
  · subst hij
    rw [if_pos rfl, Shared.view, step]
    dsimp only
    rw [Function.update_self, slice_splice_self hin hlen]
  · rw [if_neg hij, Shared.view, step]
    dsimp only
    rw [Function.update_of_ne fun h => hij h.symm]
    -- The range of `j` lies on one side of what thread `i` overwrites.
    rcases r.apart i j hij with hafter | hbefore
    · rw [slice_splice_after hin hlen hafter]
      rfl
    · rw [slice_splice_before hin hbefore]
      rfl

/-- Any interleaving: the view of each thread depends only on how many steps of
its own it has taken. -/
theorem view_run (hnext : ∀ v, (next v).2.length = v.2.length) (schedule : List ι)
    {s : Shared ι L E} (hs : s.arr.length = n) (j : ι) :
    (run r next s schedule).view r j = next^[schedule.count j] (s.view r j) ∧
      (run r next s schedule).arr.length = n := by
  induction schedule generalizing s with
  | nil => exact ⟨rfl, hs⟩
  | cons i schedule ih =>
    have hstep := length_step (r := r) hnext hs i
    obtain ⟨hview, hlen⟩ := ih hstep
    refine ⟨?_, hlen⟩
    rw [run, List.foldl_cons]
    rw [run] at hview
    rw [hview, view_step hnext hs]
    by_cases hij : i = j
    · subst hij
      rw [if_pos rfl, List.count_cons_self, Function.iterate_succ_apply]
    · rw [if_neg hij, List.count_cons_of_ne hij]

end DisjointThreads
