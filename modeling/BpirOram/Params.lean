/-
  BpirOram.Params — `params.rs`: the public sizes of a tree and the path arithmetic.

  The constructors accept a power of two of leaves, between 2 and 2^31, and positive
  sizes; `OramParams` carries what they check. A bucket is a node of the complete binary
  tree kept as a heap: the root is 0, the children of `i` are `2i + 1` and `2i + 2`.
-/

import BpirOram.Basic
import Mathlib.Data.List.Nodup

namespace BpirOram

open Lib

structure OramParams where
  logicalBlocks : Nat
  blockSize : Nat
  bucketSize : Nat
  leaves : Nat
  stashCapacity : Nat
  logicalBlocks_lt : logicalBlocks < 2 ^ 64
  blockSize_pos : 0 < blockSize
  bucketSize_pos : 0 < bucketSize
  leaves_pow : leaves = 2 ^ leaves.log2
  leaves_ge : 2 ≤ leaves
  leaves_lt : leaves < 2 ^ 32
  deriving DecidableEq, Repr

namespace OramParams

/-- Sizes with the default bucket (4 slots) and stash (512 slots). The block count is a
    `usize`: at most 64 bits. -/
def withLeaves (logicalBlocks blockSize leaves : Nat) (hn : logicalBlocks < 2 ^ 64) : Result OramParams :=
  if logicalBlocks = 0 then .error (.invalidParams "logical_blocks must be > 0")
  else if hb : blockSize = 0 then .error (.invalidParams "block_size must be > 0")
  else if hl : ¬ leaves = 2 ^ leaves.log2 ∨ leaves < 2 then
    .error (.invalidParams "leaves must be a power of two >= 2")
  else if hu : leaves > 2 ^ 32 - 1 then .error (.invalidParams "leaves must fit in u32 leaf labels")
  else .ok
    { logicalBlocks, blockSize, bucketSize := 4, leaves, stashCapacity := 512
      logicalBlocks_lt := hn, blockSize_pos := by omega, bucketSize_pos := by omega
      leaves_pow := by tauto, leaves_ge := by omega, leaves_lt := by omega }

def withBucketSize (p : OramParams) (bucketSize : Nat) : Result OramParams :=
  if h : bucketSize = 0 then .error (.invalidParams "bucket_size must be > 0")
  else .ok { p with bucketSize, bucketSize_pos := by omega }

/-- `leaves.trailing_zeros()`: `leaves` is a power of two. -/
def leafBits (p : OramParams) : Nat := p.leaves.log2

def height (p : OramParams) : Nat := p.leafBits + 1

def withStashCapacity (p : OramParams) (stashCapacity : Nat) : Result OramParams :=
  if stashCapacity < p.bucketSize * p.height then
    .error (.invalidParams "stash_capacity should be at least bucket_size * height")
  else .ok { p with stashCapacity }

def bucketCount (p : OramParams) : Nat := p.leaves * 2 - 1

/-- The node of `leaf`'s path at `depth`. -/
def nodeIndex (p : OramParams) (depth : Nat) (leaf : UInt32) : Nat :=
  let levelOffset := (1 <<< depth) - 1
  if depth = 0 then levelOffset
  else levelOffset + ((leaf.toNat >>> (p.leafBits - depth)) &&& ((1 <<< depth) - 1))

/-- The path to `leaf`, from the root. -/
def pathNodes (p : OramParams) (leaf : UInt32) : List Nat :=
  (List.range p.height).map fun depth => p.nodeIndex depth leaf

def nodeContainsLeaf (p : OramParams) (depth nodeIdx : Nat) (leaf : UInt32) : Bool :=
  p.nodeIndex depth leaf == nodeIdx

/-! ## Paths -/

variable (p : OramParams)

theorem leaves_eq : p.leaves = 2 ^ p.leafBits := p.leaves_pow

theorem leafBits_pos : 0 < p.leafBits := by
  have h := p.leaves_eq
  have := p.leaves_ge
  rcases Nat.eq_zero_or_pos p.leafBits with h0 | h0
  · rw [h0] at h; omega
  · exact h0

theorem leafBits_lt : p.leafBits < 32 := by
  have h := p.leaves_lt
  rw [p.leaves_eq] at h
  exact (Nat.pow_lt_pow_iff_right (by omega)).mp h

theorem height_pos : 0 < p.height := Nat.succ_pos _

theorem bucketCount_eq : p.bucketCount + 1 = 2 ^ p.height := by
  have := p.leaves_ge
  rw [bucketCount, height, Nat.pow_succ, ← p.leaves_eq]
  omega

/-- The top `depth` bits of a leaf. -/
theorem leaf_div_lt {depth : Nat} {leaf : UInt32} (hd : depth < p.height) (hl : leaf.toNat < p.leaves) :
    leaf.toNat / 2 ^ (p.leafBits - depth) < 2 ^ depth := by
  rw [Nat.div_lt_iff_lt_mul (Nat.two_pow_pos _), ← Nat.pow_add]
  rw [p.leaves_eq] at hl
  rwa [show depth + (p.leafBits - depth) = p.leafBits by simp only [height] at hd; omega]

theorem nodeIndex_eq {depth : Nat} {leaf : UInt32} (hd : depth < p.height) (hl : leaf.toNat < p.leaves) :
    p.nodeIndex depth leaf = 2 ^ depth - 1 + leaf.toNat / 2 ^ (p.leafBits - depth) := by
  have hb := p.leaf_div_lt hd hl
  simp only [nodeIndex, Nat.one_shiftLeft]
  split
  · rename_i h0
    subst h0
    simp only [Nat.pow_zero, Nat.lt_one_iff] at hb
    rw [hb, Nat.add_zero]
  · rw [Nat.shiftRight_eq_div_pow, Nat.and_two_pow_sub_one_eq_mod, Nat.mod_eq_of_lt hb]

@[simp] theorem pathNodes_length (leaf : UInt32) : (p.pathNodes leaf).length = p.height := by
  simp [pathNodes]

theorem pathNodes_getElem {leaf : UInt32} {d : Nat} (h : d < (p.pathNodes leaf).length) :
    (p.pathNodes leaf)[d] = p.nodeIndex d leaf := by
  simp [pathNodes]

theorem mem_pathNodes {leaf : UInt32} {i : Nat} : i ∈ p.pathNodes leaf ↔ ∃ d < p.height, p.nodeIndex d leaf = i := by
  simp [pathNodes]

/-- The node at depth `d` is among the `2^d` nodes of its level. -/
theorem nodeIndex_level {depth : Nat} {leaf : UInt32} (hd : depth < p.height) (hl : leaf.toNat < p.leaves) :
    2 ^ depth ≤ p.nodeIndex depth leaf + 1 ∧ p.nodeIndex depth leaf + 1 < 2 ^ (depth + 1) := by
  have hb := p.leaf_div_lt hd hl
  have hp := Nat.two_pow_pos depth
  rw [p.nodeIndex_eq hd hl, Nat.pow_succ]
  generalize leaf.toNat / 2 ^ (p.leafBits - depth) = q at hb ⊢
  omega

theorem nodeIndex_lt {depth : Nat} {leaf : UInt32} (hd : depth < p.height) (hl : leaf.toNat < p.leaves) :
    p.nodeIndex depth leaf < p.bucketCount := by
  have h1 := (p.nodeIndex_level hd hl).2
  have h2 : 2 ^ (depth + 1) ≤ 2 ^ p.height := Nat.pow_le_pow_right (by omega) hd
  have := p.bucketCount_eq
  omega

/-- Nodes of different depths differ. -/
theorem nodeIndex_depth {d d' : Nat} {leaf leaf' : UInt32} (hd : d < p.height) (hd' : d' < p.height)
    (hl : leaf.toNat < p.leaves) (hl' : leaf'.toNat < p.leaves)
    (h : p.nodeIndex d leaf = p.nodeIndex d' leaf') : d = d' := by
  obtain ⟨h1, h2⟩ := p.nodeIndex_level hd hl
  obtain ⟨h3, h4⟩ := p.nodeIndex_level hd' hl'
  rw [h] at h1 h2
  have a : d < d' + 1 := (Nat.pow_lt_pow_iff_right (a := 2) (by omega)).mp (by omega)
  have b : d' < d + 1 := (Nat.pow_lt_pow_iff_right (a := 2) (by omega)).mp (by omega)
  omega

theorem pathNodes_nodup {leaf : UInt32} (hl : leaf.toNat < p.leaves) : (p.pathNodes leaf).Nodup := by
  refine List.Nodup.map_on (fun d hd d' hd' h => ?_) List.nodup_range
  exact p.nodeIndex_depth (List.mem_range.mp hd) (List.mem_range.mp hd') hl hl h

theorem pathNodes_lt {leaf : UInt32} (hl : leaf.toNat < p.leaves) : ∀ i ∈ p.pathNodes leaf, i < p.bucketCount := by
  intro i hi
  obtain ⟨d, hd, rfl⟩ := p.mem_pathNodes.mp hi
  exact p.nodeIndex_lt hd hl

/-- One step down a path is a step to a child. -/
theorem nodeIndex_succ {d : Nat} {leaf : UInt32} (hd : d + 1 < p.height) (hl : leaf.toNat < p.leaves) :
    p.nodeIndex (d + 1) leaf = 2 * p.nodeIndex d leaf + 1 ∨ p.nodeIndex (d + 1) leaf = 2 * p.nodeIndex d leaf + 2 := by
  rw [p.nodeIndex_eq hd hl, p.nodeIndex_eq (by omega) hl]
  have he : p.leafBits - d = p.leafBits - (d + 1) + 1 := by simp only [height] at hd; omega
  have hq : leaf.toNat / 2 ^ (p.leafBits - d) = leaf.toNat / 2 ^ (p.leafBits - (d + 1)) / 2 := by
    rw [he, Nat.pow_succ, Nat.div_div_eq_div_mul]
  have hp := Nat.two_pow_pos d
  rw [hq, Nat.pow_succ]
  generalize leaf.toNat / 2 ^ (p.leafBits - (d + 1)) = q
  omega

/-- A node that contains a leaf has all its ancestors on the leaf's path. -/
theorem nodeIndex_anti {d d' : Nat} {leaf leaf' : UInt32} (hd : d ≤ d') (hd' : d' < p.height)
    (hl : leaf.toNat < p.leaves) (hl' : leaf'.toNat < p.leaves)
    (h : p.nodeIndex d' leaf = p.nodeIndex d' leaf') : p.nodeIndex d leaf = p.nodeIndex d leaf' := by
  rw [p.nodeIndex_eq hd' hl, p.nodeIndex_eq hd' hl'] at h
  rw [p.nodeIndex_eq (by omega) hl, p.nodeIndex_eq (by omega) hl']
  have he : p.leafBits - d = p.leafBits - d' + (d' - d) := by simp only [height] at hd'; omega
  rw [he, Nat.pow_add, ← Nat.div_div_eq_div_mul, ← Nat.div_div_eq_div_mul]
  rw [Nat.add_left_cancel h]

end OramParams
end BpirOram
