import Mathlib.Data.BitVec
import Mathlib.Logic.Function.Iterate

/-! # Reflected cyclic redundancy checks

The register `c` of a CRC with the reflected polynomial `P` takes one bit at a time (`bitStep`); data
is added to the register by exclusive or, a byte ahead of its eight steps (`crc`).

`bitStep` is linear, and bits that have not reached the end only move (`steps_low`). So a word can be
added in parts, from the low end on (`steps_split`), and a word that is added as a whole before `w` steps
is one that is added byte by byte. -/

namespace Xstack.Lib.Crc

variable {w : ℕ} (P : BitVec w)

/-- One step of the register. -/
def bitStep (c : BitVec w) : BitVec w := if c.getLsbD 0 then (c >>> 1) ^^^ P else c >>> 1

/-- `n` steps of the register. -/
def steps (n : ℕ) (c : BitVec w) : BitVec w := (bitStep P)^[n] c

def byteStep (c : BitVec w) (d : UInt8) : BitVec w := steps P 8 (c ^^^ d.toBitVec.setWidth w)

/-- **The CRC, bit by bit.** -/
def crc (init final : BitVec w) (data : List UInt8) : BitVec w := data.foldl (byteStep P) init ^^^ final

/-- The last `n` bits. -/
def low (n : ℕ) (c : BitVec w) : BitVec w := (c.setWidth n).setWidth w

theorem steps_zero (c : BitVec w) : steps P 0 c = c := rfl

theorem steps_succ (n : ℕ) (c : BitVec w) : steps P (n + 1) c = bitStep P (steps P n c) :=
  Function.iterate_succ_apply' _ _ _

theorem steps_add (m n : ℕ) (c : BitVec w) : steps P (m + n) c = steps P m (steps P n c) :=
  Function.iterate_add_apply _ _ _ _

/-! ### Linearity -/

theorem bitStep_xor (x y : BitVec w) : bitStep P (x ^^^ y) = bitStep P x ^^^ bitStep P y := by
  have hcancel : ∀ a b : BitVec w, a ^^^ P ^^^ (b ^^^ P) = a ^^^ b := by
    intro a b
    rw [BitVec.xor_comm b P, BitVec.xor_assoc, ← BitVec.xor_assoc P P b, BitVec.xor_self,
      BitVec.zero_xor]
  unfold bitStep
  simp only [BitVec.getLsbD_xor, BitVec.ushiftRight_xor_distrib]
  cases x.getLsbD 0 <;> cases y.getLsbD 0
  · rfl
  · exact BitVec.xor_assoc _ _ _
  · show x >>> 1 ^^^ y >>> 1 ^^^ P = x >>> 1 ^^^ P ^^^ y >>> 1
    rw [BitVec.xor_assoc, BitVec.xor_comm (y >>> 1) P, ← BitVec.xor_assoc]
  · exact (hcancel _ _).symm

theorem steps_xor (n : ℕ) (x y : BitVec w) : steps P n (x ^^^ y) = steps P n x ^^^ steps P n y := by
  induction n with
  | zero => rfl
  | succ n ih => rw [steps_succ, steps_succ, steps_succ, ih, bitStep_xor]

/-- A register whose last bits are clear moves down. -/
theorem steps_clear {c : BitVec w} : ∀ {n : ℕ}, (∀ i < n, c.getLsbD i = false) → steps P n c = c >>> n
  | 0, _ => by rw [steps_zero, BitVec.ushiftRight_zero]
  | n + 1, h => by
    have hbit : (c >>> n).getLsbD 0 = false := by
      rw [BitVec.getLsbD_ushiftRight]
      exact h n (Nat.lt_succ_self n)
    rw [steps_succ, steps_clear fun i hi => h i (by omega)]
    unfold bitStep
    rw [hbit, if_neg Bool.false_ne_true, BitVec.shiftRight_add]

/-! ### Parts of a word -/

theorem getLsbD_low (n : ℕ) (c : BitVec w) (i : ℕ) :
    (low n c).getLsbD i = (decide (i < n) && c.getLsbD i) := by
  unfold low
  rw [BitVec.getLsbD_setWidth, BitVec.getLsbD_setWidth]
  by_cases hi : i < w
  · simp [hi]
  · simp [BitVec.getLsbD_of_ge c i (by omega), hi]

/-- **`n` steps are the steps of the last `n` bits,** and the others moved down. -/
theorem steps_low (n : ℕ) (x : BitVec w) : steps P n x = steps P n (low n x) ^^^ x >>> n := by
  have hclear : ∀ i < n, (x ^^^ low n x).getLsbD i = false := by
    intro i hi
    rw [BitVec.getLsbD_xor, getLsbD_low]
    rw [decide_eq_true hi, Bool.true_and, Bool.xor_self]
  have hshift : (x ^^^ low n x) >>> n = x >>> n := by
    refine BitVec.eq_of_getLsbD_eq fun i _ => ?_
    have hout : ¬ n + i < n := by omega
    rw [BitVec.getLsbD_ushiftRight, BitVec.getLsbD_xor, getLsbD_low, BitVec.getLsbD_ushiftRight,
      decide_eq_false hout, Bool.false_and, Bool.xor_false]
  have hsplit : x = low n x ^^^ (x ^^^ low n x) := by
    rw [BitVec.xor_comm x, ← BitVec.xor_assoc, BitVec.xor_self, BitVec.zero_xor]
  calc steps P n x = steps P n (low n x ^^^ (x ^^^ low n x)) := by rw [← hsplit]
    _ = steps P n (low n x) ^^^ x >>> n := by rw [steps_xor, steps_clear P hclear, hshift]

/-- **A word can be added in two parts:** its last `n` bits before `n` steps, and the others after them. -/
theorem steps_split (n : ℕ) (c v : BitVec w) :
    steps P n (c ^^^ v) = steps P n (c ^^^ low n v) ^^^ v >>> n := by
  rw [steps_xor, steps_low P n v, steps_xor, BitVec.xor_assoc]

end Xstack.Lib.Crc
