/-
  BpirOram.Embedded.Page — the pages of `embedded_tree.rs`.

  A physical page is a logical page with the subtree hashes of its two children behind it.
  A page is hashed with the store's id, its own index and its children's hashes, so a parent
  page authenticates the next page of a path. The tree is the heap of `OramParams`: page 0 is
  the root, the children of page `i` are `2i + 1` and `2i + 2`.
-/

import BpirOram.Merkle.Hash
import BpirOram.Params

namespace BpirOram

open Lib

def childHashBytes : Nat := 32

def embeddedTreeAuthBytesPerPage : Nat := childHashBytes * 2

def pageDomain : Bytes := "bpir-oram-embedded-page-v1".toUTF8.data.toList

def leftChild (pageIdx : Nat) : Nat := pageIdx * 2 + 1

def rightChild (pageIdx : Nat) : Nat := pageIdx * 2 + 2

structure EmbeddedPage where
  logical : Bytes
  leftHash : Hash
  rightHash : Hash
  deriving DecidableEq

/-- What `hash_embedded_page` feeds the hash. -/
def embeddedMessage (storeId : FixedBytes 16) (pageIdx : Nat) (logical : Bytes) (leftHash rightHash : Hash) : Bytes :=
  pageDomain ++ storeId.val ++ toLe 8 pageIdx ++ toLe 8 logical.length ++ logical ++ leftHash.val ++ rightHash.val

def hashEmbeddedPage [Sha256] (storeId : FixedBytes 16) (pageIdx : Nat) (logical : Bytes) (leftHash rightHash : Hash) :
    Hash :=
  Sha256.digest (embeddedMessage storeId pageIdx logical leftHash rightHash)

namespace EmbeddedPage

def decode (input : Bytes) (logicalPageSize : Nat) : Result EmbeddedPage :=
  if input.length ≠ logicalPageSize + embeddedTreeAuthBytesPerPage then
    .error (.invalidInput
      s!"embedded page len {input.length} != expected {logicalPageSize + embeddedTreeAuthBytesPerPage}")
  else
    let leftStart := logicalPageSize
    let rightStart := leftStart + childHashBytes
    .ok
      { logical := input.take logicalPageSize
        leftHash := FixedBytes.ofSlice 32 input leftStart
        rightHash := FixedBytes.ofSlice 32 input rightStart }

def encode (page : EmbeddedPage) (outLen logicalPageSize : Nat) : Result Bytes :=
  if outLen ≠ logicalPageSize + embeddedTreeAuthBytesPerPage then
    .error (.invalidInput s!"embedded output len {outLen} != expected {logicalPageSize + embeddedTreeAuthBytesPerPage}")
  else if page.logical.length ≠ logicalPageSize then
    .error (.invalidInput s!"logical page len {page.logical.length} != expected {logicalPageSize}")
  else .ok (page.logical ++ page.leftHash.val ++ page.rightHash.val)

def hash [Sha256] (page : EmbeddedPage) (storeId : FixedBytes 16) (pageIdx : Nat) : Hash :=
  hashEmbeddedPage storeId pageIdx page.logical page.leftHash page.rightHash

def childHash (page : EmbeddedPage) (pageIdx childIdx : Nat) : Result Hash :=
  if childIdx = leftChild pageIdx then .ok page.leftHash
  else if childIdx = rightChild pageIdx then .ok page.rightHash
  else .error (.invalidInput s!"page {childIdx} is not a child of page {pageIdx}")

def setChildHash (page : EmbeddedPage) (pageIdx childIdx : Nat) (hash : Hash) : Result EmbeddedPage :=
  if childIdx = leftChild pageIdx then .ok { page with leftHash := hash }
  else if childIdx = rightChild pageIdx then .ok { page with rightHash := hash }
  else .error (.invalidInput s!"page {childIdx} is not a child of page {pageIdx}")

/-- The physical page of a page. -/
def bytes (page : EmbeddedPage) : Bytes := page.logical ++ page.leftHash.val ++ page.rightHash.val

theorem bytes_length (page : EmbeddedPage) : page.bytes.length = page.logical.length + embeddedTreeAuthBytesPerPage := by
  simp only [bytes, List.length_append, page.leftHash.property, page.rightHash.property]
  rw [Nat.add_assoc]
  rfl

/-- A page is decoded from its bytes and from no others. -/
theorem decode_eq_ok {input : Bytes} {n : Nat} {page : EmbeddedPage} :
    decode input n = .ok page ↔ page.logical.length = n ∧ input = page.bytes := by
  unfold decode
  constructor
  · intro h
    split at h
    · cases h
    · rename_i hlen
      cases h
      rw [not_not, embeddedTreeAuthBytesPerPage, childHashBytes] at hlen
      refine ⟨by rw [List.length_take]; omega, ?_⟩
      have hcut : ∀ start, start + 32 ≤ input.length →
          (FixedBytes.ofSlice 32 input start).val = (input.drop start).take 32 := by
        intro start hstart
        exact List.take_append_of_le_length (by rw [List.length_drop]; omega)
      simp only [bytes, childHashBytes]
      rw [hcut n (by omega), hcut (n + 32) (by omega), List.append_assoc, ← List.drop_drop,
        List.take_of_length_le (l := (input.drop n).drop 32) (by rw [List.length_drop, List.length_drop]; omega),
        List.take_append_drop, List.take_append_drop]
  · intro h
    obtain ⟨hn, rfl⟩ := h
    have hleft : FixedBytes.ofSlice 32 page.bytes n = page.leftHash := by
      rw [bytes, ← hn]
      exact FixedBytes.ofSlice_append _ _ _
    have hright : FixedBytes.ofSlice 32 page.bytes (n + childHashBytes) = page.rightHash := by
      have hcut := FixedBytes.ofSlice_append (page.logical ++ page.leftHash.val) page.rightHash []
      rwa [List.append_nil, List.length_append, page.leftHash.property, hn] at hcut
    have hlogical : page.bytes.take n = page.logical := by
      rw [bytes, List.append_assoc, ← hn, List.take_left]
    rw [if_neg (by rw [page.bytes_length, hn]; simp)]
    simp only [hleft, hright, hlogical]

theorem encode_eq_ok {input : Bytes} {n : Nat} {page : EmbeddedPage} :
    page.encode (n + embeddedTreeAuthBytesPerPage) n = .ok input ↔ page.logical.length = n ∧ input = page.bytes := by
  rw [encode, if_neg (by simp)]
  by_cases hn : page.logical.length = n
  · rw [if_neg (by simpa using hn), Except.ok.injEq, eq_comm]
    exact (and_iff_right hn).symm
  · rw [if_pos hn]
    exact ⟨fun h => (nomatch h), fun h => absurd h.1 hn⟩

end EmbeddedPage

/-! ## Paths -/

/-- The pages of a path behind its first one: in range, each a child of the one before. -/
def validateBelow (pageCount parent : Nat) : List Nat → Result Unit
  | [] => .ok ()
  | pageIdx :: path =>
    if pageIdx ≥ pageCount then .error (.invalidInput s!"path page {pageIdx} out of range {pageCount}")
    else if pageIdx ≠ leftChild parent ∧ pageIdx ≠ rightChild parent then
      .error (.invalidInput s!"path page {pageIdx} is not a child of previous page {parent}")
    else validateBelow pageCount pageIdx path

def validatePath (path : List Nat) (pageCount : Nat) : Result Unit :=
  match path with
  | [] => .error (.invalidInput "embedded tree path is empty")
  | root :: path =>
    if root ≠ 0 then .error (.invalidInput "embedded tree path must start at root")
    else if root ≥ pageCount then .error (.invalidInput s!"path page {root} out of range {pageCount}")
    else validateBelow pageCount root path

theorem validateBelow_ok {pageCount parent : Nat} {path : List Nat} :
    validateBelow pageCount parent path = .ok () ↔
      (∀ i ∈ path, i < pageCount) ∧ List.IsChain (fun a b => b = leftChild a ∨ b = rightChild a) (parent :: path) := by
  induction path generalizing parent with
  | nil => exact ⟨fun _ => ⟨fun i hi => absurd hi List.not_mem_nil, .singleton _⟩, fun _ => rfl⟩
  | cons i path ih =>
    rw [validateBelow, List.isChain_cons_cons, List.forall_mem_cons]
    by_cases hi : i ≥ pageCount
    · rw [if_pos hi]
      exact ⟨fun h => (nomatch h), fun h => absurd h.1.1 (Nat.not_lt_of_le hi)⟩
    · rw [if_neg hi]
      have hlt : i < pageCount := Nat.lt_of_not_le hi
      by_cases hchild : i = leftChild parent ∨ i = rightChild parent
      · rw [if_neg (by tauto), ih]
        tauto
      · rw [if_pos (by tauto)]
        exact ⟨fun h => (nomatch h), fun h => absurd h.2.1 hchild⟩

/-- The paths that are accepted: from the root down, child by child, within the tree. -/
theorem validatePath_ok {path : List Nat} {pageCount : Nat} :
    validatePath path pageCount = .ok () ↔
      path.head? = some 0 ∧ (∀ i ∈ path, i < pageCount) ∧
        List.IsChain (fun a b => b = leftChild a ∨ b = rightChild a) path := by
  unfold validatePath
  cases path with
  | nil => exact ⟨fun h => (nomatch h), fun h => (nomatch h.1)⟩
  | cons root path =>
    rw [List.head?_cons, Option.some.injEq, List.forall_mem_cons]
    dsimp only
    by_cases h0 : root = 0
    · rw [if_neg (by simpa using h0)]
      by_cases hlt : root ≥ pageCount
      · rw [if_pos hlt]
        exact ⟨fun h => (nomatch h), fun h => absurd h.2.1.1 (Nat.not_lt_of_le hlt)⟩
      · have hroot : root < pageCount := Nat.lt_of_not_le hlt
        rw [if_neg hlt, validateBelow_ok]
        tauto
    · rw [if_pos h0]
      exact ⟨fun h => (nomatch h), fun h => absurd h.1 h0⟩

/-! ## The paths of `params.rs` -/

namespace OramParams

variable (p : OramParams)

/-- Two leaves share their node at depth `d` when their top `d` bits agree. -/
theorem nodeIndex_eq_iff {d : Nat} (hd : d < p.height) (leaf leaf' : UInt32) :
    p.nodeIndex d leaf = p.nodeIndex d leaf' ↔
      ∀ j < d, leaf.toNat.testBit (p.leafBits - 1 - j) = leaf'.toNat.testBit (p.leafBits - 1 - j) := by
  have hheight : d ≤ p.leafBits := Nat.le_of_lt_succ hd
  -- Bit `d - 1 - j` of the position in the level is bit `leafBits - 1 - j` of the leaf.
  have hbits : p.nodeIndex d leaf = p.nodeIndex d leaf' ↔
      leaf.toNat >>> (p.leafBits - d) &&& (2 ^ d - 1) = leaf'.toNat >>> (p.leafBits - d) &&& (2 ^ d - 1) := by
    simp only [nodeIndex, Nat.one_shiftLeft]
    by_cases h0 : d = 0
    · subst h0
      simp
    · rw [if_neg h0, if_neg h0, Nat.add_left_cancel_iff]
  have hext : ∀ a b : Nat, a = b ↔ ∀ i, a.testBit i = b.testBit i :=
    fun a b => ⟨fun h i => by rw [h], Nat.eq_of_testBit_eq⟩
  rw [hbits, hext]
  simp only [Nat.testBit_and, Nat.testBit_shiftRight, Nat.testBit_two_pow_sub_one]
  constructor
  · intro h j hj
    have hat := h (d - 1 - j)
    rw [show p.leafBits - d + (d - 1 - j) = p.leafBits - 1 - j by omega, decide_eq_true (by omega : d - 1 - j < d),
      Bool.and_true, Bool.and_true] at hat
    exact hat
  · intro h i
    by_cases hi : i < d
    · have hat := h (d - 1 - i) (by omega)
      rw [show p.leafBits - 1 - (d - 1 - i) = p.leafBits - d + i by omega] at hat
      rw [hat]
    · rw [decide_eq_false hi, Bool.and_false, Bool.and_false]

theorem pathNodes_getElem? {leaf : UInt32} {d node : Nat} :
    (p.pathNodes leaf)[d]? = some node ↔ d < p.height ∧ p.nodeIndex d leaf = node := by
  rw [List.getElem?_eq_some_iff]
  simp only [pathNodes_length, pathNodes_getElem, exists_prop]

theorem pathNodes_head (leaf : UInt32) : (p.pathNodes leaf).head? = some 0 := by
  rw [List.head?_eq_getElem?, pathNodes_getElem?]
  exact ⟨p.height_pos, rfl⟩

/-- A path goes down child by child. -/
theorem pathNodes_isChain {leaf : UInt32} (hl : leaf.toNat < p.leaves) :
    List.IsChain (fun a b => b = leftChild a ∨ b = rightChild a) (p.pathNodes leaf) := by
  rw [List.isChain_iff_getElem]
  intro d hd
  rw [pathNodes_length] at hd
  simp only [pathNodes_getElem, leftChild, rightChild, Nat.mul_comm _ 2]
  exact p.nodeIndex_succ hd hl

theorem validatePath_pathNodes {leaf : UInt32} (hl : leaf.toNat < p.leaves) :
    validatePath (p.pathNodes leaf) p.bucketCount = .ok () :=
  validatePath_ok.mpr ⟨p.pathNodes_head leaf, p.pathNodes_lt hl, p.pathNodes_isChain hl⟩

/-- A path ends at its leaf's node, the `leaf`-th of the last level. -/
theorem pathNodes_getLast {leaf : UInt32} (hl : leaf.toNat < p.leaves) :
    (p.pathNodes leaf).getLast? = some (p.leaves - 1 + leaf.toNat) := by
  rw [List.getLast?_eq_getElem?, pathNodes_length, pathNodes_getElem?, height, Nat.add_sub_cancel]
  refine ⟨Nat.lt_succ_self _, ?_⟩
  rw [p.nodeIndex_eq (Nat.lt_succ_self _) hl, Nat.sub_self, Nat.pow_zero, Nat.div_one, ← p.leaves_eq]

theorem nodeContainsLeaf_iff {leaf leaf' : UInt32} {d node : Nat} (h : (p.pathNodes leaf)[d]? = some node) :
    p.nodeContainsLeaf d node leaf' = true ↔
      ∀ j < d, leaf.toNat.testBit (p.leafBits - 1 - j) = leaf'.toNat.testBit (p.leafBits - 1 - j) := by
  obtain ⟨hd, rfl⟩ := p.pathNodes_getElem?.mp h
  rw [nodeContainsLeaf, beq_iff_eq, eq_comm]
  exact p.nodeIndex_eq_iff hd leaf leaf'

end OramParams

/-- The path to a leaf is one node of each level, a root-to-leaf path of the embedded tree that ends
    at the leaf's node; the node at depth `d` contains the leaves that agree with it in their top
    `d` bits, and a leaf contained at one depth is contained above. -/
theorem pathNodes_consistent (p : OramParams) (leaf : UInt32) (hl : leaf.toNat < p.leaves) :
    (p.pathNodes leaf).length = p.height ∧
    (∀ i ∈ p.pathNodes leaf, i < p.bucketCount) ∧
    (p.pathNodes leaf).head? = some 0 ∧
    validatePath (p.pathNodes leaf) p.bucketCount = .ok () ∧
    (p.pathNodes leaf).getLast? = some (p.leaves - 1 + leaf.toNat) ∧
    (∀ d node leaf', (p.pathNodes leaf)[d]? = some node →
      (p.nodeContainsLeaf d node leaf' = true ↔
        ∀ j < d, leaf.toNat.testBit (p.leafBits - 1 - j) = leaf'.toNat.testBit (p.leafBits - 1 - j))) ∧
    (∀ d node below leaf', (p.pathNodes leaf)[d]? = some node → (p.pathNodes leaf)[d + 1]? = some below →
      p.nodeContainsLeaf (d + 1) below leaf' = true → p.nodeContainsLeaf d node leaf' = true) := by
  refine ⟨p.pathNodes_length leaf, p.pathNodes_lt hl, p.pathNodes_head leaf, p.validatePath_pathNodes hl,
    p.pathNodes_getLast hl, fun d node leaf' h => p.nodeContainsLeaf_iff h, ?_⟩
  intro d node below leaf' hnode hbelow hcontains
  rw [p.nodeContainsLeaf_iff hnode]
  intro j hj
  exact (p.nodeContainsLeaf_iff hbelow).mp hcontains j (Nat.lt_succ_of_lt hj)

/-- Eight leaves. -/
def eightLeaves : OramParams := (OramParams.withLeaves 16 8 8 (by decide +kernel)).toOption.get (by decide +kernel)

theorem pathNodes_consistent_eight :
    (5 : UInt32).toNat < eightLeaves.leaves ∧ validatePath (eightLeaves.pathNodes 5) eightLeaves.bucketCount = .ok () ∧
      (eightLeaves.pathNodes 5).getLast? = some 12 :=
  have h : (5 : UInt32).toNat < eightLeaves.leaves := by decide +kernel
  have hpath := pathNodes_consistent eightLeaves 5 h
  ⟨h, hpath.2.2.2.1, hpath.2.2.2.2.1⟩

end BpirOram
