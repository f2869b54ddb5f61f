/-
  BpirOram.Merkle.Store — `merkle.rs`: page stores that check their pages against a hash
  tree. `MerklePageStore` keeps every node in memory; `TieredMerklePageStore` keeps the
  top levels and packs the others into the pages of a second store.

  The nodes are numbered from the root, 1; the leaves start at `leafBase`, one for each
  page and one for each place past the last page. Reading a hash never leaves the arrays
  the constructors set up, so an index is a `getD`.
-/

import BpirOram.Merkle.Hash

namespace BpirOram

open Lib

def noHash : Hash := FixedBytes.zero 32

/-! ## The tree in memory -/

structure MerklePageStore (S : Type) where
  inner : S
  storeId : FixedBytes 16
  pageSize : Nat
  pageCount : Nat
  leafBase : Nat
  hashes : List Hash

/-- `check_page`, of both stores. -/
def checkMerklePage (pageCount pageSize pageIdx len : Nat) : Result Unit :=
  if pageIdx ≥ pageCount then .error (.invalidInput s!"page_idx {pageIdx} out of range {pageCount}")
  else if len ≠ pageSize then .error (.invalidInput s!"page buffer len {len} != page_size {pageSize}")
  else .ok ()

namespace MerklePageStore

variable {S : Type} [Sha256]

/-- `hashes[node_idx] = hash_node(node_idx, …)` of its children. -/
def rehash (hashes : List Hash) (nodeIdx : Nat) : List Hash :=
  hashes.set nodeIdx (hashNode nodeIdx (hashes.getD (nodeIdx * 2) noHash) (hashes.getD (nodeIdx * 2 + 1) noHash))

/-- The leaves of `new`, read in order. -/
def leafHashes [PageStore S] (storeId : FixedBytes 16) (pageCount pageSize leafBase : Nat) : Eff Error S (List Hash) :=
  Eff.forEach (fun pageIdx =>
    if pageIdx < pageCount then do
      let page ← PageStore.readPage pageIdx pageSize
      pure (hashLeaf storeId pageIdx page)
    else pure (hashEmptyLeaf storeId pageIdx pageSize)) (List.range leafBase)

/-- The vector `new` fills: the leaves, then the inner nodes from the last one down. -/
def treeHashes (leafBase : Nat) (leaves : List Hash) : List Hash :=
  (List.range' 1 (leafBase - 1)).reverse.foldl rehash (List.replicate leafBase noHash ++ leaves)

def new [PageStore S] (inner : S) (storeId : FixedBytes 16) : Result (MerklePageStore S) :=
  let pageCount := PageStore.pageCount inner
  let pageSize := PageStore.pageSize inner
  if pageCount = 0 ∨ pageSize = 0 then .error (.invalidInput "page_count and page_size must be > 0")
  else do
    let leafBase ← checkedLeafBase pageCount
    match leafHashes storeId pageCount pageSize leafBase.val inner with
    | (.error e, _) => .error e
    | (.ok leaves, inner) => .ok {
        inner, storeId, pageSize, pageCount
        leafBase := leafBase.val
        hashes := treeHashes leafBase.val leaves }

def root (s : MerklePageStore S) : Hash := s.hashes.getD 1 noHash

/-- The loop of `update_leaf`: each ancestor of `nodeIdx`, from the bottom. -/
def rehashAbove (hashes : List Hash) (nodeIdx : Nat) : List Hash :=
  if 1 < nodeIdx then rehashAbove (rehash hashes (nodeIdx / 2)) (nodeIdx / 2) else hashes
termination_by nodeIdx

def updateLeaf (s : MerklePageStore S) (pageIdx : Nat) (leafHash : Hash) : MerklePageStore S :=
  { s with hashes := rehashAbove (s.hashes.set (s.leafBase + pageIdx) leafHash) (s.leafBase + pageIdx) }

def onInner {α : Type} (m : Eff Error S α) : Eff Error (MerklePageStore S) α :=
  Eff.zoom (·.inner) (fun i s => { s with inner := i }) m

instance [PageStore S] : PageStore (MerklePageStore S) where
  pageSize := MerklePageStore.pageSize
  pageCount := MerklePageStore.pageCount
  readPage pageIdx len := do
    let s ← Eff.get
    Eff.lift (checkMerklePage s.pageCount s.pageSize pageIdx len)
    let out ← onInner (PageStore.readPage pageIdx len)
    if hashEq (hashLeaf s.storeId pageIdx out) (s.hashes.getD (s.leafBase + pageIdx) noHash) then pure out
    else Eff.fail (.invalidInput s!"Merkle page authentication failed for page {pageIdx}")
  writePage pageIdx input := do
    let s ← Eff.get
    Eff.lift (checkMerklePage s.pageCount s.pageSize pageIdx input.length)
    onInner (PageStore.writePage pageIdx input)
    Eff.modify fun s => s.updateLeaf pageIdx (hashLeaf s.storeId pageIdx input)
  flush := onInner PageStore.flush

end MerklePageStore

/-! ## The tree in two tiers -/

/-- The sizes fixed when a tiered store is opened. -/
@[ext] structure TieredLayout where
  storeId : FixedBytes 16
  pageSize : Nat
  pageCount : Nat
  leafBase : Nat
  trustedLevels : Nat
  trustedNodeLimit : Nat
  hashesPerPage : Nat
  pageCount_pos : 0 < pageCount
  leafBase_eq : leafBase = nextPowerOfTwo pageCount
  leafBase_lt : leafBase < 2 ^ 64
  levels : TrustedLevels leafBase trustedLevels trustedNodeLimit
  hashesPerPage_pos : 0 < hashesPerPage

namespace TieredLayout

/-- Node ids on disk: those from `trustedNodeLimit` on. -/
def diskHashNodes (l : TieredLayout) : Nat := BpirOram.diskHashNodes l.leafBase l.trustedNodeLimit

/-- `leaf_base.trailing_zeros()`. -/
def height (l : TieredLayout) : Nat := l.leafBase.log2

def checkNodeIdx (l : TieredLayout) (nodeIdx : Nat) : Result Unit :=
  if nodeIdx = 0 ∨ nodeIdx ≥ l.leafBase * 2 then .error (.invalidInput s!"Merkle node {nodeIdx} out of range")
  else .ok ()

/-- The hash page a node's hash is on, and where on it. -/
def diskHashPosition (l : TieredLayout) (nodeIdx : Nat) : Result (Nat × Nat) :=
  if nodeIdx < l.trustedNodeLimit then .error (.invalidInput s!"Merkle node {nodeIdx} is trusted, not disk-backed")
  else
    let diskOffset := nodeIdx - l.trustedNodeLimit
    if diskOffset ≥ l.diskHashNodes then
      .error (.invalidInput s!"Merkle disk offset {diskOffset} out of range {l.diskHashNodes}")
    else .ok (diskOffset / l.hashesPerPage, (diskOffset % l.hashesPerPage) * 32)

theorem leafBase_pow (l : TieredLayout) : l.leafBase = 2 ^ l.leafBase.log2 := by
  rw [l.leafBase_eq]
  exact nextPowerOfTwo_pow l.pageCount

theorem pageCount_le (l : TieredLayout) : l.pageCount ≤ l.leafBase := by
  rw [l.leafBase_eq]
  exact le_nextPowerOfTwo l.pageCount

theorem one_lt_limit (l : TieredLayout) : 1 < l.trustedNodeLimit := by
  rw [l.levels.limit_eq]
  exact Nat.one_lt_two_pow (Nat.pos_iff_ne_zero.mp l.levels.pos)

end TieredLayout

structure TieredMerklePageStore (S H : Type) extends TieredLayout where
  inner : S
  hashStore : H
  trustedHashes : List Hash

namespace TieredMerklePageStore

variable {S H α : Type} [PageStore S] [PageStore H]

def onInner (m : Eff Error S α) : Eff Error (TieredMerklePageStore S H) α :=
  Eff.zoom (·.inner) (fun i s => { s with inner := i }) m

def onHashStore (m : Eff Error H α) : Eff Error (TieredMerklePageStore S H) α :=
  Eff.zoom (·.hashStore) (fun h s => { s with hashStore := h }) m

def readDiskHash (nodeIdx : Nat) : Eff Error (TieredMerklePageStore S H) Hash := do
  let s ← Eff.get
  let (pageIdx, offset) ← Eff.lift (s.diskHashPosition nodeIdx)
  let page ← onHashStore (PageStore.readPage pageIdx (PageStore.pageSize s.hashStore))
  pure (FixedBytes.ofSlice 32 page offset)

def writeDiskHash (nodeIdx : Nat) (hash : Hash) : Eff Error (TieredMerklePageStore S H) Unit := do
  let s ← Eff.get
  let (pageIdx, offset) ← Eff.lift (s.diskHashPosition nodeIdx)
  let page ← onHashStore (PageStore.readPage pageIdx (PageStore.pageSize s.hashStore))
  onHashStore (PageStore.writePage pageIdx (splice page offset hash.val))

def readHash (nodeIdx : Nat) : Eff Error (TieredMerklePageStore S H) Hash := do
  let s ← Eff.get
  Eff.lift (s.checkNodeIdx nodeIdx)
  if nodeIdx < s.trustedNodeLimit then pure (s.trustedHashes.getD nodeIdx noHash) else readDiskHash nodeIdx

def writeHash (nodeIdx : Nat) (hash : Hash) : Eff Error (TieredMerklePageStore S H) Unit := do
  let s ← Eff.get
  Eff.lift (s.checkNodeIdx nodeIdx)
  if nodeIdx < s.trustedNodeLimit then Eff.modify fun s => { s with trustedHashes := s.trustedHashes.set nodeIdx hash }
  else writeDiskHash nodeIdx hash

section
variable [Sha256]

/-! ### Building -/

/-- A turn of the first loop of `rebuild_hashes`. -/
def rebuildLeaf (pageIdx : Nat) : Eff Error (TieredMerklePageStore S H) Unit := do
  let s ← Eff.get
  let hash ← if pageIdx < s.pageCount then do
      let page ← onInner (PageStore.readPage pageIdx s.pageSize)
      pure (hashLeaf s.storeId pageIdx page)
    else pure (hashEmptyLeaf s.storeId pageIdx s.pageSize)
  writeHash (s.leafBase + pageIdx) hash

/-- A turn of the second. -/
def rebuildNode (nodeIdx : Nat) : Eff Error (TieredMerklePageStore S H) Unit := do
  let left ← readHash (nodeIdx * 2)
  let right ← readHash (nodeIdx * 2 + 1)
  writeHash nodeIdx (hashNode nodeIdx left right)

def rebuildHashes : Eff Error (TieredMerklePageStore S H) Unit := do
  let s ← Eff.get
  let _ ← Eff.forEach rebuildLeaf (List.range s.leafBase)
  let _ ← Eff.forEach (fun level =>
    Eff.forEach rebuildNode (List.range' (1 <<< level) ((1 <<< (level + 1)) - (1 <<< level)))) (List.range s.height).reverse

def build (inner : S) (hashStore : H) (storeId : FixedBytes 16) (trustedLevels : Nat) :
    Result (TieredMerklePageStore S H) :=
  let pageCount := PageStore.pageCount inner
  let pageSize := PageStore.pageSize inner
  if pageCount = 0 ∨ pageSize = 0 then .error (.invalidInput "page_count and page_size must be > 0")
  else do
    let leafBase ← leafBaseForPageCount pageCount
    let limit ← trustedNodeLimit leafBase.val.val trustedLevels
    let perPage ← BpirOram.hashesPerPage (PageStore.pageSize hashStore)
    let required := pagesForHashNodes (diskHashNodes leafBase.val.val limit.val) perPage.val
    if PageStore.pageCount hashStore < required then
      .error (.invalidInput s!"hash store has {PageStore.pageCount hashStore} pages, need at least {required}")
    else
      let store : TieredMerklePageStore S H :=
        { inner, hashStore, storeId, pageSize, pageCount, trustedLevels
          leafBase := leafBase.val.val
          trustedNodeLimit := limit.val
          hashesPerPage := perPage.val
          trustedHashes := List.replicate limit.val noHash
          pageCount_pos := leafBase.property
          leafBase_eq := leafBase.val.property.1
          leafBase_lt := leafBase.val.property.2
          levels := limit.property
          hashesPerPage_pos := perPage.property.1 }
      match rebuildHashes store with
      | (.error e, _) => .error e
      | (.ok _, store) => .ok store

/-! ### Pages -/

/-- The loop of `verify_page_hash`: the first trusted node on the way up, and the hash computed for it. -/
def climbToTrusted (limit : Nat) (hlimit : 1 < limit) (nodeIdx : Nat) (current : Hash) :
    Eff Error (TieredMerklePageStore S H) (Nat × Hash) :=
  if limit ≤ nodeIdx then do
    let sibling ← readHash (siblingNode nodeIdx)
    climbToTrusted limit hlimit (nodeIdx / 2) (parentHash nodeIdx current sibling)
  else pure (nodeIdx, current)
termination_by nodeIdx

def verifyPageHash (pageIdx : Nat) (leafHash : Hash) : Eff Error (TieredMerklePageStore S H) Unit := do
  let s ← Eff.get
  let (nodeIdx, current) ← climbToTrusted s.trustedNodeLimit s.one_lt_limit (s.leafBase + pageIdx) leafHash
  let s ← Eff.get
  if hashEq current (s.trustedHashes.getD nodeIdx noHash) then pure ()
  else Eff.fail (.invalidInput s!"Merkle page authentication failed for page {pageIdx}")

/-- The loop of `update_page_hash`. -/
def updateAbove (nodeIdx : Nat) (current : Hash) : Eff Error (TieredMerklePageStore S H) Unit :=
  if 1 < nodeIdx then do
    let sibling ← readHash (siblingNode nodeIdx)
    writeHash (nodeIdx / 2) (parentHash nodeIdx current sibling)
    updateAbove (nodeIdx / 2) (parentHash nodeIdx current sibling)
  else pure ()
termination_by nodeIdx

def updatePageHash (pageIdx : Nat) (leafHash : Hash) : Eff Error (TieredMerklePageStore S H) Unit := do
  let s ← Eff.get
  writeHash (s.leafBase + pageIdx) leafHash
  updateAbove (s.leafBase + pageIdx) leafHash

end

/-! ### Reopening -/

def root (s : TieredMerklePageStore S H) : Hash := s.trustedHashes.getD 1 noHash

def trustedState (s : TieredMerklePageStore S H) : TieredMerkleState where
  storeId := s.storeId
  pageCount := s.pageCount
  pageSize := s.pageSize
  trustedLevels := s.trustedLevels
  hashPageSize := PageStore.pageSize s.hashStore
  trustedHashes := s.trustedHashes

def fromTrustedState (inner : S) (hashStore : H) (state : TieredMerkleState) : Result (TieredMerklePageStore S H) :=
  let pageCount := PageStore.pageCount inner
  let pageSize := PageStore.pageSize inner
  if pageCount ≠ state.pageCount then
    .error (.invalidInput s!"data store page_count {pageCount} != trusted Merkle page_count {state.pageCount}")
  else if pageSize ≠ state.pageSize then
    .error (.invalidInput s!"data store page_size {pageSize} != trusted Merkle page_size {state.pageSize}")
  else if PageStore.pageSize hashStore ≠ state.hashPageSize then
    .error (.invalidInput
      s!"hash store page_size {PageStore.pageSize hashStore} != trusted Merkle hash_page_size {state.hashPageSize}")
  else do
    let leafBase ← leafBaseForPageCount pageCount
    let limit ← trustedNodeLimit leafBase.val.val state.trustedLevels
    if state.trustedHashes.length ≠ limit.val then
      .error (.invalidInput s!"trusted hash count {state.trustedHashes.length} != expected {limit.val}")
    else do
      let perPage ← BpirOram.hashesPerPage (PageStore.pageSize hashStore)
      let required := pagesForHashNodes (diskHashNodes leafBase.val.val limit.val) perPage.val
      if PageStore.pageCount hashStore < required then
        .error (.invalidInput s!"hash store has {PageStore.pageCount hashStore} pages, need at least {required}")
      else .ok {
          inner, hashStore, pageSize, pageCount
          storeId := state.storeId
          leafBase := leafBase.val.val
          trustedLevels := state.trustedLevels
          trustedNodeLimit := limit.val
          hashesPerPage := perPage.val
          trustedHashes := state.trustedHashes
          pageCount_pos := leafBase.property
          leafBase_eq := leafBase.val.property.1
          leafBase_lt := leafBase.val.property.2
          levels := limit.property
          hashesPerPage_pos := perPage.property.1 }

/-- `required_hash_pages`. -/
def requiredHashPages (pageCount hashPageSize trustedLevels : Nat) : Result Nat := do
  let leafBase ← leafBaseForPageCount pageCount
  let limit ← trustedNodeLimit leafBase.val.val trustedLevels
  let perPage ← BpirOram.hashesPerPage hashPageSize
  .ok (pagesForHashNodes (diskHashNodes leafBase.val.val limit.val) perPage.val)

instance [Sha256] : PageStore (TieredMerklePageStore S H) where
  pageSize s := s.pageSize
  pageCount s := s.pageCount
  readPage pageIdx len := do
    let s ← Eff.get
    Eff.lift (checkMerklePage s.pageCount s.pageSize pageIdx len)
    let out ← onInner (PageStore.readPage pageIdx len)
    verifyPageHash pageIdx (hashLeaf s.storeId pageIdx out)
    pure out
  writePage pageIdx input := do
    let s ← Eff.get
    Eff.lift (checkMerklePage s.pageCount s.pageSize pageIdx input.length)
    onInner (PageStore.writePage pageIdx input)
    updatePageHash pageIdx (hashLeaf s.storeId pageIdx input)
  flush := do
    onInner PageStore.flush
    onHashStore PageStore.flush
  tieredMerkleState s := some s.trustedState

end TieredMerklePageStore
end BpirOram
