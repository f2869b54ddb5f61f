/-
  BpirOram.Lib.Usize — sums and products of `usize` in a release build: 64 bits, and what
  does not fit is cut off.

  A size that did not wrap is the exact one (`usizeMul_of_lt`, `usizeAdd_of_lt`); a range
  `start..start + len` that is not backwards did not (`usizeAdd_of_le`), and neither did the
  places of pieces that lie one after the other and all end in bounds (`pieces_le`).
-/

import Mathlib.Algebra.Group.Nat.Defs
import Mathlib.Tactic.Common

namespace BpirOram.Lib

/-- `a + b`. -/
def usizeAdd (a b : Nat) : Nat := (a + b) % 2 ^ 64

/-- `a * b`. -/
def usizeMul (a b : Nat) : Nat := a * b % 2 ^ 64

theorem usizeAdd_of_lt {a b : Nat} (h : a + b < 2 ^ 64) : usizeAdd a b = a + b := Nat.mod_eq_of_lt h

theorem usizeMul_of_lt {a b : Nat} (h : a * b < 2 ^ 64) : usizeMul a b = a * b := Nat.mod_eq_of_lt h

theorem usizeAdd_lt (a b : Nat) : usizeAdd a b < 2 ^ 64 := Nat.mod_lt _ (Nat.two_pow_pos 64)

theorem usizeMul_lt (a b : Nat) : usizeMul a b < 2 ^ 64 := Nat.mod_lt _ (Nat.two_pow_pos 64)

theorem usizeMul_le (a b : Nat) : usizeMul a b ≤ a * b := Nat.mod_le _ _

/-- A sum that wraps falls below each of its terms. -/
theorem usizeAdd_of_le {a b : Nat} (hb : b < 2 ^ 64) (h : a ≤ usizeAdd a b) : usizeAdd a b = a + b := by
  have hlt := usizeAdd_lt a b
  apply usizeAdd_of_lt
  by_contra hwrap
  have hback : usizeAdd a b = a + b - 2 ^ 64 := by
    rw [usizeAdd, Nat.mod_eq_sub_mod (by omega), Nat.mod_eq_of_lt (by omega)]
  omega

theorem pieces_le {size bound n : Nat} (hbound : bound < 2 ^ 64) (h : ∀ k < n, usizeMul k size + size ≤ bound) :
    n * size ≤ bound := by
  induction n with
  | zero => rw [Nat.zero_mul]; exact Nat.zero_le _
  | succ n ih =>
    have hbefore := ih fun k hk => h k (Nat.lt_succ_of_lt hk)
    have hlast := h n (Nat.lt_succ_self n)
    rwa [usizeMul_of_lt (Nat.lt_of_le_of_lt hbefore hbound), ← Nat.succ_mul] at hlast

end BpirOram.Lib
