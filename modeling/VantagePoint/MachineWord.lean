import Mathlib.Order.Lattice
import Mathlib.Algebra.Order.Group.Int
import Mathlib.Algebra.Ring.Int.Defs
import Mathlib.Tactic.LinearCombination
import Mathlib.Tactic.Ring

/-! The integer types of a machine: words of `w` bits, read with or without a
sign, with arithmetic modulo `2^w`. A sum or difference of values that are not
negative is at most one turn away from the exact one. -/
namespace MachineWord

inductive Signedness where
  | signed
  | unsigned
deriving DecidableEq, Repr

structure Word (g : Signedness) (w : ℕ) where
  bits : BitVec w
deriving DecidableEq, Repr

variable {g : Signedness} {w : ℕ}

/-- The integer a word stands for. -/
def Word.val (a : Word g w) : ℤ :=
  match g with
  | .signed => a.bits.toInt
  | .unsigned => a.bits.toNat

/-- The smallest and the largest value of the type. -/
def least (g : Signedness) (w : ℕ) : ℤ :=
  match g with
  | .signed => -2^(w-1)
  | .unsigned => 0

def greatest (g : Signedness) (w : ℕ) : ℤ := least g w+2^w-1

def largest (g : Signedness) (w : ℕ) : Word g w :=
  match g with
  | .signed => ⟨BitVec.intMax w⟩
  | .unsigned => ⟨BitVec.allOnes w⟩

theorem least_nonpos (g : Signedness) (w : ℕ) : least g w ≤ 0 := by
  cases g with
  | signed => exact Int.neg_nonpos_of_nonneg (Int.pow_nonneg (by decide))
  | unsigned => exact le_rfl

theorem two_pow_double {w : ℕ} (hw : 0 < w) : (2 : ℤ)^w = 2^(w-1)+2^(w-1) := by
  rw [← Int.two_mul, ← Int.pow_succ', Nat.sub_add_cancel hw]

theorem greatest_nonneg (g : Signedness) {w : ℕ} (hw : 0 < w) : 0 ≤ greatest g w := by
  unfold greatest
  have hpow : (0 : ℤ) < 2^(w-1) := Int.pow_pos (by decide)
  have hdouble := two_pow_double hw
  cases g with
  | signed =>
    change 0 ≤ -2^(w-1)+2^w-1
    omega
  | unsigned =>
    change 0 ≤ 0+2^w-1
    omega

theorem val_injective : Function.Injective (Word.val : Word g w → ℤ) := by
  -- A word is determined by its value, so the order of the values is one of the words.
  rintro ⟨a⟩ ⟨b⟩ h
  cases g with
  | signed =>
    have hbits : a.toInt = b.toInt := h
    rw [BitVec.toInt_inj.mp hbits]
  | unsigned =>
    have hbits : a.toNat = b.toNat := Int.ofNat_inj.mp h
    rw [BitVec.toNat_inj.mp hbits]

instance : LinearOrder (Word g w) := LinearOrder.lift' Word.val val_injective

instance : Add (Word g w) := ⟨fun a b => ⟨a.bits+b.bits⟩⟩

instance : Sub (Word g w) := ⟨fun a b => ⟨a.bits-b.bits⟩⟩

theorem le_iff_val {a b : Word g w} : a ≤ b ↔ a.val ≤ b.val := Iff.rfl

theorem lt_iff_val {a b : Word g w} : a < b ↔ a.val < b.val := Iff.rfl

theorem val_range (hw : 0 < w) (a : Word g w) : least g w ≤ a.val ∧ a.val ≤ greatest g w := by
  unfold greatest
  cases g with
  | signed =>
    have hlow : -2^(w-1) ≤ a.bits.toInt := BitVec.le_toInt a.bits
    have hhigh : a.bits.toInt < 2^(w-1) := BitVec.toInt_lt
    have hdouble := two_pow_double hw
    refine ⟨hlow, ?_⟩
    change a.bits.toInt ≤ -2^(w-1)+2^w-1
    omega
  | unsigned =>
    have hhigh : (a.bits.toNat : ℤ) < 2^w := by
      have hlt := a.bits.isLt
      exact_mod_cast hlt
    refine ⟨Int.natCast_nonneg _, ?_⟩
    change (a.bits.toNat : ℤ) ≤ 0+2^w-1
    omega

theorem val_largest (hw : 0 < w) : (largest g w).val = greatest g w := by
  unfold greatest
  cases g with
  | signed =>
    have hdouble := two_pow_double hw
    change (BitVec.intMax w).toInt = -2^(w-1)+2^w-1
    rw [BitVec.toInt_intMax]
    omega
  | unsigned =>
    change ((BitVec.allOnes w).toNat : ℤ) = 0+2^w-1
    have hpos : 1 ≤ 2^w := Nat.one_le_two_pow
    rw [BitVec.toNat_allOnes, Nat.cast_sub hpos]
    push_cast
    ring

/-- Values of the range that differ by whole turns are equal. -/
theorem eq_of_turns {l m x y k : ℤ} (hx : l ≤ x ∧ x < l+m) (hy : l ≤ y ∧ y < l+m)
    (h : y = x+k*m) : y = x := by
  -- A turn, up or down, leads out of a range of length `m`.
  rcases lt_trichotomy k 0 with hk | rfl | hk
  · have hle : k*m ≤ -1*m := Int.mul_le_mul_of_nonneg_right (by omega) (by omega)
    omega
  · omega
  · have hle : 1*m ≤ k*m := Int.mul_le_mul_of_nonneg_right (by omega) (by omega)
    omega

theorem val_add_turns (a b : Word g w) : ∃ k : ℤ, (a+b).val = a.val+b.val+k*2^w := by
  cases g with
  | signed =>
    refine ⟨-Int.bdiv (a.bits.toInt+b.bits.toInt) (2^w), ?_⟩
    change (a.bits+b.bits).toInt = a.bits.toInt+b.bits.toInt+_
    rw [BitVec.toInt_add, Int.bmod_eq_self_sub_bdiv_mul]
    push_cast
    ring
  | unsigned =>
    refine ⟨-(((a.bits.toNat+b.bits.toNat)/2^w : ℕ) : ℤ), ?_⟩
    change ((a.bits+b.bits).toNat : ℤ) = a.bits.toNat+b.bits.toNat+_
    have hdiv := Nat.mod_add_div (a.bits.toNat+b.bits.toNat) (2^w)
    have hcast : (((a.bits.toNat+b.bits.toNat)%2^w : ℕ) : ℤ)+
        2^w*(((a.bits.toNat+b.bits.toNat)/2^w : ℕ) : ℤ) = a.bits.toNat+b.bits.toNat := by
      exact_mod_cast hdiv
    rw [BitVec.toNat_add]
    linear_combination hcast

theorem val_sub_turns (a b : Word g w) : ∃ k : ℤ, (a-b).val = a.val-b.val+k*2^w := by
  cases g with
  | signed =>
    refine ⟨-Int.bdiv (a.bits.toInt-b.bits.toInt) (2^w), ?_⟩
    change (a.bits-b.bits).toInt = a.bits.toInt-b.bits.toInt+_
    rw [BitVec.toInt_sub, Int.bmod_eq_self_sub_bdiv_mul]
    push_cast
    ring
  | unsigned =>
    -- the hardware adds the complement `2^w - b`, which is one turn more
    refine ⟨1-(((2^w-b.bits.toNat+a.bits.toNat)/2^w : ℕ) : ℤ), ?_⟩
    change ((a.bits-b.bits).toNat : ℤ) = a.bits.toNat-b.bits.toNat+_
    have hdiv := Nat.mod_add_div (2^w-b.bits.toNat+a.bits.toNat) (2^w)
    have hcomp : ((2^w-b.bits.toNat+a.bits.toNat : ℕ) : ℤ) =
        2^w-b.bits.toNat+a.bits.toNat := by
      rw [Nat.cast_add, Nat.cast_sub b.bits.isLt.le]
      push_cast
      rfl
    have hcast : (((2^w-b.bits.toNat+a.bits.toNat)%2^w : ℕ) : ℤ)+
        2^w*(((2^w-b.bits.toNat+a.bits.toNat)/2^w : ℕ) : ℤ) =
        ((2^w-b.bits.toNat+a.bits.toNat : ℕ) : ℤ) := by
      exact_mod_cast hdiv
    rw [hcomp] at hcast
    rw [BitVec.toNat_sub]
    linear_combination hcast

/-- A sum with a value that is not negative wraps when it exceeds the largest. -/
theorem val_add (hw : 0 < w) (a b : Word g w) (ha : 0 ≤ a.val) :
    (a+b).val = if a.val+b.val ≤ greatest g w then a.val+b.val else a.val+b.val-2^w := by
  obtain ⟨k, hk⟩ := val_add_turns a b
  obtain ⟨hlow, hhigh⟩ := val_range hw (a+b)
  have hal := val_range hw a
  have hbl := val_range hw b
  have hleast := least_nonpos g w
  unfold greatest at *
  split
  -- The exact sum is in range, and so is the value of the word: no turn at all.
  · exact eq_of_turns (m := 2^w) (l := least g w) (by omega) (by omega) hk
  · apply eq_of_turns (m := 2^w) (l := least g w) (k := k+1) (by omega) (by omega)
    linear_combination hk

/-- Taking away a value that is not negative wraps when it goes below the smallest. -/
theorem val_sub (hw : 0 < w) (a b : Word g w) (hb : 0 ≤ b.val) :
    (a-b).val = if least g w ≤ a.val-b.val then a.val-b.val else a.val-b.val+2^w := by
  obtain ⟨k, hk⟩ := val_sub_turns a b
  obtain ⟨hlow, hhigh⟩ := val_range hw (a-b)
  have hal := val_range hw a
  have hbl := val_range hw b
  have hleast := least_nonpos g w
  unfold greatest at *
  split
  · exact eq_of_turns (m := 2^w) (l := least g w) (by omega) (by omega) hk
  -- One turn up brings the exact difference back into range.
  · apply eq_of_turns (m := 2^w) (l := least g w) (k := k-1) (by omega) (by omega)
    linear_combination hk

end MachineWord
