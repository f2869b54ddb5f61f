/-
  BpirOram.Lib.Mix — mixing steps on 64-bit words: xor with the word shifted right, and
  multiplication by an odd number. Each is a permutation of the words, and so is what is
  composed of them.
-/

import Mathlib.Data.Fintype.EquivFin
import Mathlib.Tactic.Common

namespace BpirOram.Lib

open Function

theorem finite_uint64 : Finite UInt64 := Finite.of_injective UInt64.toFin fun _ _ h => UInt64.toFin_inj.mp h

theorem surjective_of_injective {f : UInt64 → UInt64} (h : Injective f) : Surjective f := by
  have := finite_uint64
  exact Finite.surjective_of_injective h

/-- A word that equals itself shifted right is zero. -/
theorem eq_zero_of_shiftRight {w k : UInt64} (h0 : 0 < k.toNat % 64) (h : w = w >>> k) : w = 0 := by
  have hn := congrArg UInt64.toNat h
  rw [UInt64.toNat_shiftRight, Nat.shiftRight_eq_div_pow] at hn
  apply UInt64.toNat_inj.mp
  have hp : 2 ≤ 2 ^ (k.toNat % 64) := Nat.pow_le_pow_right (by decide) h0 |>.trans' (by decide)
  by_contra hne
  exact absurd hn.symm (Nat.ne_of_lt (Nat.div_lt_self (Nat.pos_of_ne_zero hne) hp))

theorem xorShift_injective {k : UInt64} (h0 : 0 < k.toNat % 64) : Injective fun x : UInt64 => x ^^^ (x >>> k) := by
  intro x y he
  replace he : x ^^^ (x >>> k) = y ^^^ (y >>> k) := he
  have hw : x ^^^ y = (x ^^^ y) >>> k := by
    calc x ^^^ y = (x ^^^ (x >>> k)) ^^^ (x >>> k) ^^^ y := by rw [UInt64.xor_assoc x, UInt64.xor_self, UInt64.xor_zero]
      _ = (y ^^^ (y >>> k)) ^^^ (x >>> k) ^^^ y := by rw [he]
      _ = (x >>> k) ^^^ (y >>> k) := by
        rw [UInt64.xor_assoc (y ^^^ _), UInt64.xor_comm y, UInt64.xor_assoc, UInt64.xor_comm (x >>> k) y,
          ← UInt64.xor_assoc y, UInt64.xor_self, UInt64.zero_xor, UInt64.xor_comm]
      _ = (x ^^^ y) >>> k := UInt64.shiftRight_xor.symm
  have hz := eq_zero_of_shiftRight h0 hw
  exact UInt64.xor_eq_zero_iff.mp hz

/-- Multiplication by `c` undone by its inverse modulo 2^64. -/
theorem mul_injective {c d : UInt64} (h : c * d = 1) : Injective fun x : UInt64 => x * c := by
  intro x y he
  replace he : x * c = y * c := he
  have := congrArg (· * d) he
  simp only [UInt64.mul_assoc, h, UInt64.mul_one] at this
  exact this

end BpirOram.Lib
