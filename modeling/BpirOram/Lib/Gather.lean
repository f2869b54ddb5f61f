/-
  BpirOram.Lib.Gather — everything a family of multisets holds at its first `n` indices,
  and how that changes when the family changes along a list of indices.
-/

import Mathlib.Algebra.BigOperators.Group.Finset.Basic
import Mathlib.Algebra.Order.Group.Multiset
import Mathlib.Data.Multiset.Basic

namespace BpirOram.Lib

variable {α : Type}

/-- What the first `n` members of the family hold. -/
def gather (n : Nat) (f : Nat → Multiset α) : Multiset α := ∑ i ∈ Finset.range n, f i

theorem mem_gather {n : Nat} {f : Nat → Multiset α} {a : α} : a ∈ gather n f ↔ ∃ i < n, a ∈ f i := by
  simp [gather, Multiset.mem_sum]

theorem gather_congr {n : Nat} {f g : Nat → Multiset α} (h : ∀ i < n, f i = g i) : gather n f = gather n g :=
  Finset.sum_congr rfl fun i hi => h i (Finset.mem_range.mp hi)

/-- The family changes along a list of distinct indices only. -/
theorem gather_along {n : Nat} {f g : Nat → Multiset α} {l : List Nat} (hl : l.Nodup) (hlt : ∀ i ∈ l, i < n)
    (hout : ∀ i ∉ l, g i = f i) : gather n g + (l.map f).sum = gather n f + (l.map g).sum := by
  have hsub : l.toFinset ⊆ Finset.range n := fun i hi => Finset.mem_range.mpr (hlt i (List.mem_toFinset.mp hi))
  have hrest : ∑ i ∈ Finset.range n \ l.toFinset, g i = ∑ i ∈ Finset.range n \ l.toFinset, f i :=
    Finset.sum_congr rfl fun i hi => hout i fun hm => (Finset.mem_sdiff.mp hi).2 (List.mem_toFinset.mpr hm)
  rw [gather, gather, ← Finset.sum_sdiff hsub, ← Finset.sum_sdiff (f := f) hsub, hrest, List.sum_toFinset _ hl,
    List.sum_toFinset _ hl, add_assoc, add_assoc, add_comm (List.map g l).sum]

theorem gather_update {n i : Nat} (hi : i < n) (f : Nat → Multiset α) (m : Multiset α) :
    gather n (Function.update f i m) + f i = gather n f + m := by
  have h := gather_along (g := Function.update f i m) (List.nodup_singleton i) (by simpa using hi) fun j hj =>
    Function.update_of_ne (by simpa using hj) _ f
  simpa using h

end BpirOram.Lib
