import Mathlib.Data.Nat.Notation

/-! Read-write locks as explicit state. -/
namespace RwLock

/-- How many read holds there are, and whether there is a write hold. -/
structure Lock where
  readers : ℕ
  writer : Bool
deriving DecidableEq, Repr

inductive Mode where
  | read
  | write
deriving DecidableEq, Repr

def Lock.free : Lock := ⟨0, false⟩

/-- `none` when the caller has to wait. -/
def Lock.acquire (l : Lock) : Mode → Option Lock
  | .read => if l.writer then none else some { l with readers := l.readers+1 }
  | .write => if l.writer ∨ l.readers ≠ 0 then none else some { l with writer := true }

/-- `none` when there is no such hold. -/
def Lock.release (l : Lock) : Mode → Option Lock
  | .read => if l.readers = 0 then none else some { l with readers := l.readers-1 }
  | .write => if l.writer then some { l with writer := false } else none

theorem acquire_free (m : Mode) : ∃ l, Lock.free.acquire m = some l := by
  cases m with
  | read => exact ⟨_, rfl⟩
  | write => exact ⟨_, rfl⟩

section Cases

variable {l l' : Lock}

theorem acquire_read (h : l.acquire .read = some l') :
    l.writer = false ∧ l' = { l with readers := l.readers+1 } := by
  obtain ⟨readers, writer⟩ := l
  cases writer with
  | true => cases h
  | false => exact ⟨rfl, (Option.some.inj h).symm⟩

theorem acquire_write (h : l.acquire .write = some l') :
    l.writer = false ∧ l.readers = 0 ∧ l' = { l with writer := true } := by
  obtain ⟨readers, writer⟩ := l
  cases writer with
  | true => cases h
  | false =>
    cases readers with
    | zero => exact ⟨rfl, rfl, (Option.some.inj h).symm⟩
    | succ readers => cases h

theorem release_read (h : l.release .read = some l') :
    l.readers ≠ 0 ∧ l' = { l with readers := l.readers-1 } := by
  obtain ⟨readers, writer⟩ := l
  cases readers with
  | zero => cases h
  | succ readers => exact ⟨Nat.succ_ne_zero _, (Option.some.inj h).symm⟩

theorem release_write (h : l.release .write = some l') :
    l.writer = true ∧ l' = { l with writer := false } := by
  obtain ⟨readers, writer⟩ := l
  cases writer with
  | true => exact ⟨rfl, (Option.some.inj h).symm⟩
  | false => cases h

/-- A lock that is granted has no writer. -/
theorem writer_of_acquire {mode : Mode} (h : l.acquire mode = some l') : l.writer = false := by
  cases mode with
  | read => exact (acquire_read h).1
  | write => exact (acquire_write h).1

end Cases

/-- A release undoes the acquisition before it. -/
theorem release_of_acquire {l held : Lock} {m : Mode} (h : l.acquire m = some held) :
    held.release m = some l := by
  obtain ⟨readers, writer⟩ := l
  cases m with
  | read =>
    cases writer with
    | true => cases h
    | false =>
      cases h
      rfl
  | write =>
    cases writer with
    | true => cases h
    | false =>
      by_cases hr : readers = 0
      · subst hr
        cases h
        rfl
      · simp only [Lock.acquire, hr, ne_eq, not_false_eq_true, or_true, ↓reduceIte,
          reduceCtorEq] at h

/-- A hold is seen in the state, and keeps writers waiting until it is released. -/
theorem acquire_held {l held : Lock} {m : Mode} (h : l.acquire m = some held) :
    held ≠ l ∧ held.acquire .write = none := by
  constructor
  · rintro rfl
    have hrel := release_of_acquire h
    obtain ⟨readers, writer⟩ := held
    cases m with
    | read =>
      by_cases hr : readers = 0
      · simp only [Lock.release, hr, ↓reduceIte, reduceCtorEq] at hrel
      · simp only [Lock.release, hr, ↓reduceIte, Option.some.injEq, Lock.mk.injEq] at hrel
        omega
    | write =>
      cases writer with
      | true => cases h
      | false => cases hrel
  · obtain ⟨readers, writer⟩ := l
    cases m with
    | read =>
      cases writer with
      | true => cases h
      | false =>
        cases h
        rfl
    | write =>
      by_cases hw : writer = true ∨ readers ≠ 0
      · simp only [Lock.acquire, hw, ↓reduceIte, reduceCtorEq] at h
      · simp only [Lock.acquire, hw, ↓reduceIte, Option.some.injEq] at h
        subst h
        rfl

end RwLock
