/-
  BpirOram.Lib.Packed — equal-size items packed into equal-size blocks.

  `count` items of `size` bytes go `per` to a block; the last block may hold fewer and is
  filled up with zeros. Item `i` is in block `i / per`, at `i % per` items from its start
  (`slice_packedBlock`), and the places of different items do not meet (`places_disjoint`).
-/

import BpirOram.Lib.Bytes
import Mathlib.Data.List.Basic
import Mathlib.Tactic.Common

namespace BpirOram.Lib

/-- `b[start..start + len]`, in range. -/
def slice (b : Bytes) (start len : Nat) : Bytes := (b.drop start).take len

theorem slice_length {b : Bytes} {start len : Nat} (h : start + len ≤ b.length) : (slice b start len).length = len := by
  rw [slice, List.length_take, List.length_drop]
  omega

/-- The items of block `k`. -/
def itemsOf (count per k : Nat) : List Nat := List.range' (k * per) (min (count - k * per) per)

/-- Block `k`: its items, then zeros. -/
def packedBlock (item : Nat → Bytes) (count per size k : Nat) : Bytes :=
  ((itemsOf count per k).map item).flatten ++ List.replicate ((per - (itemsOf count per k).length) * size) 0

/-! ## Cutting out items -/

/-- The `j`-th of pieces of one size. -/
theorem slice_flatten {size : Nat} {ls : List Bytes} (h : ∀ l ∈ ls, l.length = size) {j : Nat} (hj : j < ls.length) :
    slice ls.flatten (j * size) size = ls[j] := by
  induction ls generalizing j with
  | nil => exact absurd hj (by simp)
  | cons l ls ih =>
    have hl := h l (by simp)
    cases j with
    | zero =>
      rw [slice, Nat.zero_mul, List.drop_zero, List.flatten_cons, List.take_append_of_le_length (by omega),
        List.take_of_length_le (by omega)]
      rfl
    | succ j =>
      have hrest := ih (fun x hx => h x (by simp [hx])) (Nat.lt_of_succ_lt_succ hj)
      rw [List.getElem_cons_succ, ← hrest, slice, slice, List.flatten_cons, Nat.succ_mul, Nat.add_comm, ← List.drop_drop,
        ← hl, List.drop_left]

/-- A run of items cut out whole. -/
theorem slice_run (b : Bytes) (base size first count : Nat) (h : base + (first + count) * size ≤ b.length) :
    slice b (base + first * size) (count * size)
      = ((List.range' first count).map fun i => slice b (base + i * size) size).flatten := by
  induction count generalizing first with
  | zero => rw [Nat.zero_mul, slice, List.take_zero]; rfl
  | succ count ih =>
    have hrest := ih (first + 1) (by rwa [show first + 1 + count = first + (count + 1) by omega])
    rw [List.range'_succ, List.map_cons, List.flatten_cons, ← hrest, slice, slice, slice, Nat.succ_mul, Nat.add_comm _ size,
      List.take_add, List.drop_drop, Nat.succ_mul, Nat.add_assoc]

section
variable {item : Nat → Bytes} {count per size k i : Nat}

theorem itemsOf_length : (itemsOf count per k).length = min (count - k * per) per := List.length_range'

theorem mem_itemsOf : i ∈ itemsOf count per k ↔ k * per ≤ i ∧ i < count ∧ i < k * per + per := by
  rw [itemsOf, List.mem_range'_1]
  omega

theorem packedBlock_length (h : ∀ i < count, (item i).length = size) :
    (packedBlock item count per size k).length = per * size := by
  have hitems : ∀ l ∈ (itemsOf count per k).map item, l.length = size := by
    intro l hl
    obtain ⟨i, hi, rfl⟩ := List.mem_map.mp hl
    exact h i (mem_itemsOf.mp hi).2.1
  rw [packedBlock, List.length_append, length_flatten_of_lengths hitems, List.length_map, List.length_replicate, ← Nat.add_mul,
    itemsOf_length]
  congr 1
  omega

theorem packed_div_mod (hper : 0 < per) (i : Nat) : i / per * per + i % per = i ∧ i % per < per :=
  ⟨by rw [Nat.mul_comm]; exact Nat.div_add_mod i per, Nat.mod_lt i hper⟩

/-- The item where its place says, whatever follows the items. -/
theorem slice_items (h : ∀ i < count, (item i).length = size) (hper : 0 < per) (hi : i < count) (rest : Bytes) :
    slice (((itemsOf count per (i / per)).map item).flatten ++ rest) (i % per * size) size = item i := by
  obtain ⟨hsplit, hlt⟩ := packed_div_mod hper i
  have hitems : ∀ l ∈ (itemsOf count per (i / per)).map item, l.length = size := by
    intro l hl
    obtain ⟨j, hj, rfl⟩ := List.mem_map.mp hl
    exact h j (mem_itemsOf.mp hj).2.1
  have hj : i % per < ((itemsOf count per (i / per)).map item).length := by
    rw [List.length_map, itemsOf_length]
    omega
  have hfit : i % per * size + size ≤ ((itemsOf count per (i / per)).map item).flatten.length := by
    rw [length_flatten_of_lengths hitems, ← Nat.succ_mul]
    exact Nat.mul_le_mul_right _ hj
  have hget := slice_flatten hitems hj
  rw [slice, List.drop_append_of_le_length (by omega), List.take_append_of_le_length (by
    rw [List.length_drop]; omega)]
  rw [slice] at hget
  rw [hget, List.getElem_map]
  congr 1
  simp only [itemsOf, List.getElem_range', Nat.one_mul]
  exact hsplit

theorem slice_packedBlock (h : ∀ i < count, (item i).length = size) (hper : 0 < per) (hi : i < count) :
    slice (packedBlock item count per size (i / per)) (i % per * size) size = item i := slice_items h hper hi _

/-- An item's place ends where the items of its block do, or before. -/
theorem place_le_items (hper : 0 < per) (hi : i < count) :
    i % per * size + size ≤ (itemsOf count per (i / per)).length * size := by
  obtain ⟨hsplit, hlt⟩ := packed_div_mod hper i
  rw [← Nat.succ_mul, itemsOf_length]
  exact Nat.mul_le_mul_right _ (by omega)

/-- What no item of the block fills is zero. -/
theorem packedBlock_tail (h : ∀ i < count, (item i).length = size) :
    (packedBlock item count per size k).drop ((itemsOf count per k).length * size)
      = List.replicate ((per - (itemsOf count per k).length) * size) 0 := by
  have hitems : ∀ l ∈ (itemsOf count per k).map item, l.length = size := by
    intro l hl
    obtain ⟨j, hj, rfl⟩ := List.mem_map.mp hl
    exact h j (mem_itemsOf.mp hj).2.1
  rw [packedBlock, ← List.length_map item, ← length_flatten_of_lengths hitems, List.drop_left]

/-- The place of an item lies in its block. -/
theorem place_fits (hper : 0 < per) : i % per * size + size ≤ per * size := by
  rw [← Nat.succ_mul]
  exact Nat.mul_le_mul_right _ (Nat.mod_lt i hper)

/-- Different items of one block lie apart. -/
theorem places_disjoint (hper : 0 < per) {j : Nat} (hblock : i / per = j / per) (hne : i ≠ j) :
    i % per * size + size ≤ j % per * size ∨ j % per * size + size ≤ i % per * size := by
  have hi := (packed_div_mod hper i).1
  have hj := (packed_div_mod hper j).1
  rw [hblock] at hi
  rcases Nat.lt_or_ge (i % per) (j % per) with hlt | hge
  · left
    rw [← Nat.succ_mul]
    exact Nat.mul_le_mul_right _ hlt
  · right
    rw [← Nat.succ_mul]
    exact Nat.mul_le_mul_right _ (by omega)

end
end BpirOram.Lib
