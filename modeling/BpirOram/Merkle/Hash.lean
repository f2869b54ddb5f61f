/-
  BpirOram.Merkle.Hash — what `merkle.rs` hashes and how it sizes its trees.

  SHA-256 comes from a crate of its own and stands as a parameter, a function from
  messages to 32 bytes; the messages are the concatenations the code feeds it. A size of a
  tree comes with the facts the check that computes it establishes. Sizes are natural
  numbers: `leaf_base * 2` is a `usize` for every tree that fits in memory.
-/

import BpirOram.Store
import BpirOram.Lib.HashTree
import Mathlib.Data.Nat.Bitwise

namespace BpirOram

open Lib

abbrev Hash := FixedBytes 32

/-- `Sha256::new()`, `update` by the parts of a message, `finalize`. -/
class Sha256 where
  digest : Bytes → Hash

/-! ## Messages -/

def leafDomain : Bytes := "bpir-oram-page-v1".toUTF8.data.toList
def emptyLeafDomain : Bytes := "bpir-oram-empty-page-v1".toUTF8.data.toList
def nodeDomain : Bytes := "bpir-oram-node-v1".toUTF8.data.toList

def leafMessage (storeId : FixedBytes 16) (pageIdx : Nat) (page : Bytes) : Bytes :=
  leafDomain ++ storeId.val ++ toLe 8 pageIdx ++ toLe 8 page.length ++ page

def emptyLeafMessage (storeId : FixedBytes 16) (pageIdx pageSize : Nat) : Bytes :=
  emptyLeafDomain ++ storeId.val ++ toLe 8 pageIdx ++ toLe 8 pageSize

def nodeMessage (nodeIdx : Nat) (left right : Hash) : Bytes :=
  nodeDomain ++ toLe 8 nodeIdx ++ left.val ++ right.val

theorem leafMessage_inj {storeId : FixedBytes 16} {pageIdx : Nat} {page page' : Bytes}
    (h : leafMessage storeId pageIdx page = leafMessage storeId pageIdx page') : page = page' := by
  unfold leafMessage at h
  have hlen : (toLe 8 page.length).length = (toLe 8 page'.length).length := by
    rw [toLe_length, toLe_length]
  simp only [List.append_assoc, List.append_cancel_left_eq] at h
  exact (List.append_inj h hlen).2

theorem nodeMessage_inj {nodeIdx : Nat} {left left' right right' : Hash}
    (h : nodeMessage nodeIdx left right = nodeMessage nodeIdx left' right') : left = left' ∧ right = right' := by
  unfold nodeMessage at h
  have hlen : left.val.length = left'.val.length := by rw [left.property, left'.property]
  simp only [List.append_assoc, List.append_cancel_left_eq] at h
  obtain ⟨hl, hr⟩ := List.append_inj h hlen
  exact ⟨Subtype.ext hl, Subtype.ext hr⟩

section
variable [Sha256]

def hashLeaf (storeId : FixedBytes 16) (pageIdx : Nat) (page : Bytes) : Hash :=
  Sha256.digest (leafMessage storeId pageIdx page)

def hashEmptyLeaf (storeId : FixedBytes 16) (pageIdx pageSize : Nat) : Hash :=
  Sha256.digest (emptyLeafMessage storeId pageIdx pageSize)

def hashNode (nodeIdx : Nat) (left right : Hash) : Hash := Sha256.digest (nodeMessage nodeIdx left right)

end

/-- `hash_eq`: the bits that differ, gathered over all the bytes. -/
def hashEq (lhs rhs : Hash) : Bool := (List.zipWith (· ^^^ ·) lhs.val rhs.val).foldl (· ||| ·) 0 == 0

theorem hashEq_iff (lhs rhs : Hash) : hashEq lhs rhs = true ↔ lhs = rhs := by
  have hlen : rhs.val.length = lhs.val.length := rhs.property.trans lhs.property.symm
  unfold hashEq
  rw [beq_iff_eq, foldl_or_eq_zero, zipWith_xor_eq_zero (Nat.le_of_eq hlen), hlen, List.take_length, Subtype.ext_iff]
  exact and_iff_right rfl

/-! ## Nodes -/

def siblingNode (nodeIdx : Nat) : Nat := nodeIdx ^^^ 1

def isLeftChild (nodeIdx : Nat) : Bool := nodeIdx &&& 1 == 0

theorem isLeftChild_iff (nodeIdx : Nat) : isLeftChild nodeIdx = true ↔ nodeIdx % 2 = 0 := by
  rw [isLeftChild, beq_iff_eq, Nat.and_one_is_mod]

theorem siblingNode_eq (nodeIdx : Nat) : siblingNode nodeIdx = siblingOf nodeIdx := by
  unfold siblingNode siblingOf
  split
  · rename_i h
    rw [Nat.xor_one_of_even (Nat.even_iff.mpr h)]
  · rename_i h
    rw [Nat.xor_one_of_odd (Nat.odd_iff.mpr (by omega))]

/-- The hash of a node's parent, given the node's and its sibling's. -/
def parentHash [Sha256] (nodeIdx : Nat) (current sibling : Hash) : Hash :=
  if isLeftChild nodeIdx then hashNode (nodeIdx / 2) current sibling else hashNode (nodeIdx / 2) sibling current

theorem parentHash_eq [Sha256] (nodeIdx : Nat) (current sibling : Hash) :
    parentHash nodeIdx current sibling = join hashNode nodeIdx current sibling := by
  unfold parentHash join joined
  by_cases h : nodeIdx % 2 = 0
  · rw [if_pos ((isLeftChild_iff _).mpr h), if_pos h]
  · rw [if_neg (mt (isLeftChild_iff _).mp h), if_neg h]

/-! ## Sizes -/

/-- `next_power_of_two`. -/
def nextPowerOfTwo (n : Nat) : Nat := if n ≤ 1 then 1 else 2 ^ ((n - 1).log2 + 1)

theorem nextPowerOfTwo_pow (n : Nat) : nextPowerOfTwo n = 2 ^ (nextPowerOfTwo n).log2 := by
  unfold nextPowerOfTwo
  split
  · rfl
  · rw [Nat.log2_two_pow]

theorem le_nextPowerOfTwo (n : Nat) : n ≤ nextPowerOfTwo n := by
  unfold nextPowerOfTwo
  split
  · assumption
  · have := Nat.lt_log2_self (n := n - 1)
    omega

/-- `leaf_base`, a `usize`. -/
abbrev LeafBase (pageCount : Nat) := { base : Nat // base = nextPowerOfTwo pageCount ∧ base < 2 ^ 64 }

/-- `checked_next_power_of_two`. -/
def checkedLeafBase (pageCount : Nat) : Result (LeafBase pageCount) :=
  if h : nextPowerOfTwo pageCount < 2 ^ 64 then .ok ⟨nextPowerOfTwo pageCount, rfl, h⟩
  else .error (.invalidInput "page_count is too large")

def leafBaseForPageCount (pageCount : Nat) : Result { _base : LeafBase pageCount // 0 < pageCount } :=
  if h : pageCount = 0 then .error (.invalidInput "page_count must be > 0")
  else do
    let base ← checkedLeafBase pageCount
    .ok ⟨base, Nat.pos_of_ne_zero h⟩

theorem leafBaseForPageCount_ok {n : Nat} (h0 : 0 < n) (h : nextPowerOfTwo n < 2 ^ 64) :
    ∃ base, leafBaseForPageCount n = .ok base := by
  unfold leafBaseForPageCount checkedLeafBase
  rw [dif_neg (by omega), dif_pos h]
  exact ⟨_, rfl⟩

/-- How many of the `log2 leafBase + 1` levels are trusted, and the first node below them. -/
structure TrustedLevels (leafBase levels limit : Nat) : Prop where
  pos : 0 < levels
  le : levels ≤ leafBase.log2 + 1
  lt : levels < 64
  limit_eq : limit = 2 ^ levels

/-- `trailing_zeros` of a power of two is its logarithm. -/
def trustedNodeLimit (leafBase trustedLevels : Nat) : Result { limit : Nat // TrustedLevels leafBase trustedLevels limit } :=
  let treeLevels := leafBase.log2 + 1
  if h : trustedLevels = 0 ∨ trustedLevels > treeLevels then
    .error (.invalidInput s!"trusted_levels {trustedLevels} out of range 1..={treeLevels}")
  else if h64 : trustedLevels ≥ 64 then .error (.invalidInput "trusted_levels is too large")
  else .ok ⟨1 <<< trustedLevels, Nat.pos_of_ne_zero fun h0 => h (.inl h0), Nat.le_of_not_lt fun hgt => h (.inr hgt),
    Nat.lt_of_not_le h64, Nat.one_shiftLeft _⟩

theorem trustedNodeLimit_ok {leafBase levels limit : Nat} (h : TrustedLevels leafBase levels limit) :
    trustedNodeLimit leafBase levels = .ok ⟨limit, h⟩ := by
  obtain ⟨hpos, hle, hlt, rfl⟩ := h
  unfold trustedNodeLimit
  rw [dif_neg (by omega), dif_neg (by omega)]
  simp only [Nat.one_shiftLeft]

def hashesPerPage (pageSize : Nat) : Result { count : Nat // 0 < count ∧ count = pageSize / 32 } :=
  if h : pageSize < 32 then .error (.invalidInput s!"hash store page_size {pageSize} must be at least 32")
  else .ok ⟨pageSize / 32, Nat.div_pos (Nat.le_of_not_lt h) (Nat.succ_pos 31), rfl⟩

theorem hashesPerPage_ok {pageSize : Nat} (h : 0 < pageSize / 32) : ∃ count, hashesPerPage pageSize = .ok count := by
  unfold hashesPerPage
  rw [dif_neg (by omega)]
  exact ⟨_, rfl⟩

def diskHashNodes (leafBase trustedNodeLimit : Nat) : Nat := leafBase * 2 - trustedNodeLimit

def pagesForHashNodes (hashNodes hashesPerPage : Nat) : Nat := divCeil hashNodes hashesPerPage

end BpirOram
