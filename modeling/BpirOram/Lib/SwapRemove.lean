/-
  BpirOram.Lib.SwapRemove — taking an element out of a vector without shifting.

  `swap_remove` puts the last element where the taken one was. What is taken and what is
  left are the vector again, in another order (`swapRemove_perm`).
-/

import Mathlib.Data.List.Perm.Basic
import Mathlib.Tactic.Common

namespace BpirOram.Lib

variable {α : Type}

/-- `Vec::swap_remove`; `none` where it panics. -/
def swapRemove (l : List α) (i : Nat) : Option (α × List α) :=
  match l[i]?, l.getLast? with
  | some a, some last => some (a, (l.set i last).dropLast)
  | _, _ => none

/-- The first element that satisfies `p`, found by `position` and taken by `swap_remove`. -/
def takeFirst (p : α → Bool) (l : List α) : Option (α × List α) := (l.findIdx? p).bind (swapRemove l)

theorem swapRemove_perm {l l' : List α} {i : Nat} {a : α} (h : swapRemove l i = some (a, l')) : l.Perm (a :: l') := by
  rcases List.eq_nil_or_concat l with rfl | ⟨front, last, rfl⟩
  · cases h
  · rw [List.concat_eq_append] at h ⊢
    simp only [swapRemove, List.getLast?_concat] at h
    rcases Nat.lt_trichotomy i front.length with hlt | rfl | hgt
    · simp only [List.getElem?_append_left hlt, List.getElem?_eq_getElem hlt, List.set_append_left _ _ hlt,
        List.dropLast_concat, Option.some.injEq, Prod.mk.injEq] at h
      obtain ⟨rfl, rfl⟩ := h
      -- the last element fills the gap
      have hset := (List.set_perm_cons_eraseIdx hlt last).cons front[i]
      have hfront := (List.getElem_cons_eraseIdx_perm hlt).symm.cons last
      exact (List.perm_append_singleton last front).trans (hfront.trans ((List.Perm.swap _ _ _).trans hset.symm))
    · rw [List.getElem?_concat_length] at h
      simp only [Option.some.injEq, Prod.mk.injEq] at h
      obtain ⟨rfl, rfl⟩ := h
      rw [List.set_append_right _ _ (Nat.le_refl _), Nat.sub_self, List.set_cons_zero, List.dropLast_concat]
      exact List.perm_append_singleton last front
    · rw [List.getElem?_eq_none (by rw [List.length_append, List.length_singleton]; omega)] at h
      cases h

theorem takeFirst_some {p : α → Bool} {l l' : List α} {a : α} (h : takeFirst p l = some (a, l')) :
    p a = true ∧ l.Perm (a :: l') := by
  obtain ⟨i, hi, hs⟩ := Option.bind_eq_some_iff.mp h
  refine ⟨?_, swapRemove_perm hs⟩
  obtain ⟨hlt, hp, -⟩ := List.findIdx?_eq_some_iff_getElem.mp hi
  rw [swapRemove, List.getElem?_eq_getElem hlt] at hs
  split at hs
  · rename_i b last hb hlast
    cases hb
    cases hs
    exact hp
  · cases hs

theorem takeFirst_none {p : α → Bool} {l : List α} (h : takeFirst p l = none) : ∀ a ∈ l, p a = false := by
  rcases hi : l.findIdx? p with _ | i
  · exact List.findIdx?_eq_none_iff.mp hi
  · -- an element that was found can be taken
    obtain ⟨hlt, -⟩ := List.findIdx?_eq_some_iff_getElem.mp hi
    have hne : l ≠ [] := List.ne_nil_of_length_pos (by omega)
    rw [takeFirst, hi, Option.bind_some, swapRemove, List.getElem?_eq_getElem hlt, List.getLast?_eq_some_getLast hne] at h
    cases h

end BpirOram.Lib
