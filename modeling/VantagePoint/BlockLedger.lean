import Mathlib.Data.List.Nodup
import Mathlib.Data.List.Perm.Basic

/-! Accounts of an allocator that numbers the requests made of it: which blocks
were granted, and which of those are held or were given back. -/
namespace BlockLedger

/-- Of the first `requests` requests, those that `ok` grants are the blocks held and
the blocks freed, each of them once. -/
def Settled (ok : ℕ → Bool) (requests : ℕ) (held freed : List ℕ) : Prop :=
  (held ++ freed).Perm ((List.range requests).filter ok)

variable {ok : ℕ → Bool} {requests i : ℕ} {held held' freed : List ℕ}

theorem settled_start : Settled ok 0 [] [] := List.Perm.nil

theorem Settled.perm (h : Settled ok requests held freed) (hp : held'.Perm held) :
    Settled ok requests held' freed :=
  (hp.append_right freed).trans h

theorem Settled.granted (h : Settled ok requests held freed) (hok : ok requests = true) :
    Settled ok (requests+1) (requests :: held) freed := by
  show (requests :: (held ++ freed)).Perm _
  simp only [List.range_succ, List.filter_append, List.filter_singleton, hok]
  calc
    (requests :: (held ++ freed)).Perm (held ++ freed ++ [requests]) :=
      (List.perm_append_singleton requests _).symm
    (_ : List ℕ).Perm ((List.range requests).filter ok ++ [requests]) := h.append_right _

theorem Settled.denied (h : Settled ok requests held freed) (hok : ok requests ≠ true) :
    Settled ok (requests+1) held freed := by
  unfold Settled at h ⊢
  simpa [List.range_succ, List.filter_append, hok] using h

/-- A block is given back. -/
theorem Settled.release (h : Settled ok requests (i :: held) freed) :
    Settled ok requests held (i :: freed) :=
  List.perm_middle.trans h

/-- Blocks are given back one after the other. -/
theorem Settled.releaseAll {blocks : List ℕ} (h : Settled ok requests (blocks ++ held) freed) :
    Settled ok requests held (blocks.reverse ++ freed) := by
  refine List.Perm.trans ?_ h
  calc
    (held ++ (blocks.reverse ++ freed)).Perm (held ++ (blocks ++ freed)) :=
      ((List.reverse_perm blocks).append_right freed).append_left held
    (_ : List ℕ).Perm (blocks ++ (held ++ freed)) := List.perm_append_comm_assoc _ _ _
    _ = blocks ++ held ++ freed := (List.append_assoc _ _ _).symm

theorem Settled.nodup (h : Settled ok requests held freed) : (held ++ freed).Nodup :=
  h.nodup_iff.mpr (List.nodup_range.filter ok)

theorem Settled.lt (h : Settled ok requests held freed) (hi : i ∈ held ++ freed) :
    i < requests :=
  List.mem_range.mp (List.mem_filter.mp (h.mem_iff.mp hi)).1

/-- A block that is held was not given back. -/
theorem Settled.live (h : Settled ok requests held freed) (hi : i ∈ held) : i ∉ freed :=
  fun hfreed => (List.nodup_append.mp h.nodup).2.2 i hi i hfreed rfl

end BlockLedger
