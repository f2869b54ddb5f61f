/-
  BpirOram.Lib.BitReverse — reversing the low bits of a number.

  Reversal over `w` bits permutes the numbers below `2 ^ w`, so any `2 ^ w` numbers in a
  row visit each of them once (`count_window`).
-/

import Mathlib.Data.Nat.Bitwise
import Mathlib.Order.Interval.Finset.Nat
import Mathlib.Data.List.Range

namespace BpirOram.Lib

/-- The low `w` bits of `n`, the lowest first. -/
def bitReverse : Nat → Nat → Nat
  | 0, _ => 0
  | w + 1, n => n % 2 * 2 ^ w + bitReverse w (n / 2)

theorem bitReverse_lt (w n : Nat) : bitReverse w n < 2 ^ w := by
  induction w generalizing n with
  | zero => exact Nat.one_pos
  | succ w ih =>
    have hrest := ih (n / 2)
    rw [bitReverse, Nat.pow_succ]
    rcases Nat.mod_two_eq_zero_or_one n with h | h <;> rw [h] <;> omega

theorem testBit_bitReverse (w n j : Nat) : (bitReverse w n).testBit j = (decide (j < w) && n.testBit (w - 1 - j)) := by
  induction w generalizing n j with
  | zero => simp [bitReverse]
  | succ w ih =>
    have hlt := bitReverse_lt w (n / 2)
    rw [bitReverse, Nat.mul_comm, Nat.testBit_two_pow_mul_add _ hlt]
    by_cases hj : j < w
    · rw [if_pos hj, ih, decide_eq_true hj, decide_eq_true (Nat.lt_succ_of_lt hj), Nat.testBit_div_two,
        show w - 1 - j + 1 = w + 1 - 1 - j by omega]
    · rw [if_neg hj]
      by_cases he : j = w
      · subst he
        simp [Nat.testBit_zero]
      · rw [decide_eq_false (by omega), Bool.false_and]
        obtain ⟨i, rfl⟩ : ∃ i, j = w + 1 + i := ⟨j - (w + 1), by omega⟩
        rw [show w + 1 + i - w = i + 1 by omega, Nat.testBit_succ, Nat.div_eq_of_lt (Nat.mod_lt n (by decide)),
          Nat.zero_testBit]

/-- Reversing twice gives the low bits back. -/
theorem bitReverse_bitReverse (w n : Nat) : bitReverse w (bitReverse w n) = n % 2 ^ w := by
  apply Nat.eq_of_testBit_eq
  intro j
  rw [testBit_bitReverse, testBit_bitReverse, Nat.testBit_mod_two_pow]
  by_cases hj : j < w
  · rw [decide_eq_true hj, decide_eq_true (show w - 1 - j < w by omega), Bool.true_and, Bool.true_and,
      Bool.true_and, show w - 1 - (w - 1 - j) = j by omega]
  · rw [decide_eq_false hj, Bool.false_and, Bool.false_and]

/-- Of any `2 ^ w` numbers in a row exactly one has its low bits reversed to `v`. -/
theorem count_window (w start : Nat) {v : Nat} (hv : v < 2 ^ w) :
    ((List.range' start (2 ^ w)).map fun i => bitReverse w (i % 2 ^ w)).count v = 1 := by
  have hinj : ((List.range' start (2 ^ w)).map fun i => bitReverse w (i % 2 ^ w)).Nodup := by
    refine List.Nodup.map_on (fun i hi j hj he => ?_) (List.nodup_range')
    have hmod : i % 2 ^ w = j % 2 ^ w := by
      have := congrArg (bitReverse w) he
      rwa [bitReverse_bitReverse, bitReverse_bitReverse, Nat.mod_mod, Nat.mod_mod] at this
    rw [List.mem_range'_1] at hi hj
    exact Nat.mod_injOn_Ico start (2 ^ w) (by simpa using hi) (by simpa using hj) hmod
  rw [List.count_eq_one_of_mem hinj]
  -- the window meets the residue of the one number that is reversed to `v`
  have hr : bitReverse w v ∈ (Finset.Ico start (start + 2 ^ w)).image (· % 2 ^ w) := by
    rw [Nat.image_Ico_mod]
    exact Finset.mem_range.mpr (bitReverse_lt w v)
  obtain ⟨i, hi, hiv⟩ := Finset.mem_image.mp hr
  refine List.mem_map.mpr ⟨i, List.mem_range'_1.mpr (by simpa using hi), ?_⟩
  rw [show i % 2 ^ w = _ from hiv, bitReverse_bitReverse, Nat.mod_eq_of_lt hv]

end BpirOram.Lib
