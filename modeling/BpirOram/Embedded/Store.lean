/-
  BpirOram.Embedded.Store — `EmbeddedTreePageStore` (`embedded_tree.rs`): a tree of pages
  read and written by paths, each page authenticated by its parent and the root in memory.

  The pages of a read stay in a cache for the write of the same paths. A write works on an
  overlay of the pages; of what it did before an error only the root stays.
-/

import BpirOram.Embedded.Page
import BpirOram.Merkle.Store
import BpirOram.Schedule
import Std.Data.TreeMap
import Std.Data.TreeSet

namespace BpirOram

open Lib

/-- `BTreeMap<usize, EmbeddedPage>`. -/
abbrev EmbeddedPages := Std.TreeMap Nat EmbeddedPage

structure VerifiedBatchCache where
  rootHash : Hash
  pages : EmbeddedPages

structure EmbeddedLayout where
  storeId : FixedBytes 16
  pageCount : Nat
  logicalPageSize : Nat
  physicalPageSize : Nat
  pageCount_pos : 0 < pageCount
  logicalPageSize_pos : 0 < logicalPageSize
  physicalPageSize_eq : physicalPageSize = logicalPageSize + embeddedTreeAuthBytesPerPage

structure EmbeddedTreePageStore (S : Type) extends EmbeddedLayout where
  inner : S
  rootHash : Hash
  verifiedBatchCache : Option VerifiedBatchCache

def physicalPageSizeFor (logicalPageSize : Nat) : Nat := logicalPageSize + embeddedTreeAuthBytesPerPage

/-- `validate_dimensions`, as the layout it accepts. -/
def validateEmbeddedDimensions {S : Type} [PageStore S] (store : S) (storeId : FixedBytes 16)
    (pageCount logicalPageSize : Nat) : Result EmbeddedLayout :=
  let physicalPageSize := physicalPageSizeFor logicalPageSize
  if h : pageCount = 0 ∨ logicalPageSize = 0 then
    .error (.invalidInput "page_count and logical_page_size must be > 0")
  else if PageStore.pageCount store ≠ pageCount then
    .error (.invalidInput s!"store page_count {PageStore.pageCount store} != expected {pageCount}")
  else if PageStore.pageSize store ≠ physicalPageSize then
    .error (.invalidInput
      s!"store page_size {PageStore.pageSize store} != embedded physical page_size {physicalPageSize}")
  else .ok
    { storeId, pageCount, logicalPageSize, physicalPageSize
      pageCount_pos := by omega, logicalPageSize_pos := by omega, physicalPageSize_eq := rfl }

/-! ## Building -/

/-- `child_hash` of the hashes computed so far. -/
def childHashAt (hashes : List Hash) (childIdx : Nat) : Hash := hashes[childIdx]?.getD noHash

/-- One turn of the loop of `build` from the last page to the root. -/
def buildPage [Sha256] (storeId : FixedBytes 16) (s : List EmbeddedPage × List Hash) (pageIdx : Nat) :
    List EmbeddedPage × List Hash :=
  match s.1[pageIdx]? with
  | some page =>
    let page := { page with leftHash := childHashAt s.2 (leftChild pageIdx), rightHash := childHashAt s.2 (rightChild pageIdx) }
    (s.1.set pageIdx page, s.2.set pageIdx (page.hash storeId pageIdx))
  | none => s

def buildPages [Sha256] (storeId : FixedBytes 16) (pages : List EmbeddedPage) : List EmbeddedPage × List Hash :=
  (List.range pages.length).reverse.foldl (buildPage storeId) (pages, List.replicate pages.length noHash)

namespace EmbeddedTreePageStore

variable {S : Type} [PageStore S]

/-- The pages `build` finds, their trailers still to be replaced. -/
def loadPages (l : EmbeddedLayout) : Eff Error S (List EmbeddedPage) :=
  Eff.forEach (fun pageIdx => do
    let physical ← PageStore.readPage pageIdx l.physicalPageSize
    Eff.lift (EmbeddedPage.decode physical l.logicalPageSize)) (List.range l.pageCount)

def storePages (l : EmbeddedLayout) (pages : List EmbeddedPage) : Eff Error S (List Unit) :=
  Eff.forEach (fun (page, pageIdx) => do
    let physical ← Eff.lift (page.encode l.physicalPageSize l.logicalPageSize)
    PageStore.writePage pageIdx physical) pages.zipIdx

def build [Sha256] (inner : S) (storeId : FixedBytes 16) (logicalPageSize : Nat) : Result (EmbeddedTreePageStore S) := do
  let l ← validateEmbeddedDimensions inner storeId (PageStore.pageCount inner) logicalPageSize
  match loadPages l inner with
  | (.error e, _) => .error e
  | (.ok pages, inner) =>
    let hashed := buildPages storeId pages
    match storePages l hashed.1 inner with
    | (.error e, _) => .error e
    | (.ok _, inner) =>
      .ok { toEmbeddedLayout := l, inner, rootHash := hashed.2.getD 0 noHash, verifiedBatchCache := none }

def fromState (inner : S) (state : EmbeddedTreeState) : Result (EmbeddedTreePageStore S) := do
  let l ← validateEmbeddedDimensions inner state.storeId state.pageCount state.logicalPageSize
  .ok { toEmbeddedLayout := l, inner, rootHash := state.rootHash, verifiedBatchCache := none }

def state (s : EmbeddedTreePageStore S) : EmbeddedTreeState where
  storeId := s.storeId
  pageCount := s.pageCount
  logicalPageSize := s.logicalPageSize
  rootHash := s.rootHash

def onInner {α : Type} (m : Eff Error S α) : Eff Error (EmbeddedTreePageStore S) α :=
  Eff.zoom (·.inner) (fun inner s => { s with inner }) m

end EmbeddedTreePageStore

/-! ## Reading -/

/-- The pages of a path authenticated from `expectedHash` down. -/
def verifyPathFromPages [Sha256] (storeId : FixedBytes 16) (pages : EmbeddedPages) : List Nat → Hash → Result Unit
  | [], _ => .ok ()
  | pageIdx :: path, expectedHash => do
    let page ← okOr pages[pageIdx]? (.panic "verified path pages include every requested page")
    if !hashEq (page.hash storeId pageIdx) expectedHash then
      .error (.invalidInput s!"embedded tree authentication failed for page {pageIdx}")
    else match path.head? with
      | some nextIdx => do
        let expectedHash ← page.childHash pageIdx nextIdx
        verifyPathFromPages storeId pages path expectedHash
      | none => .ok ()

def verifyPaths [Sha256] (storeId : FixedBytes 16) (pages : EmbeddedPages) (rootHash : Hash) : List (List Nat) → Result Unit
  | [] => .ok ()
  | path :: paths => do
    verifyPathFromPages storeId pages path rootHash
    verifyPaths storeId pages rootHash paths

def cacheCoversPaths (pages : EmbeddedPages) (paths : List (List Nat)) : Bool :=
  paths.flatten.all fun pageIdx => pages.contains pageIdx

/-- The pages of all the paths, each path checked. -/
def batchIndices (pageCount : Nat) (paths : List (List Nat)) : Result (Std.TreeSet Nat) :=
  paths.foldlM (fun pageIndices path => do
    validatePath path pageCount
    .ok (path.foldl (·.insert ·) pageIndices)) ∅

def decodePages (logicalPageSize : Nat) (physicalPages : List (Nat × Bytes)) : Result EmbeddedPages :=
  physicalPages.foldlM (fun pages (pageIdx, physical) => do
    let page ← EmbeddedPage.decode physical logicalPageSize
    .ok (pages.insert pageIdx page)) ∅

/-- `pages.get(page_idx).expect(..).logical.clone()`, for every page of every path. -/
def logicalPaths (pages : EmbeddedPages) (paths : List (List Nat)) : Result (List (List Bytes)) :=
  paths.mapM fun path => path.mapM fun pageIdx => do
    let page ← okOr pages[pageIdx]? (.panic "verified path pages include every requested page")
    .ok page.logical

/-! ## Writing -/

/-- A page with the hash of the page below it on its path, if there is one, in its place. -/
def EmbeddedPage.withChild (page : EmbeddedPage) (pageIdx : Nat) : Option (Nat × Hash) → Result EmbeddedPage
  | some (childIdx, hash) => page.setChildHash pageIdx childIdx hash
  | none => .ok page

/-- The overlay of a write: the current pages, the ones to write back and the root they make. -/
structure TreeOverlay where
  pages : EmbeddedPages
  dirtyPages : Std.TreeSet Nat
  rootHash : Hash

namespace TreeOverlay

def getPage (pageIdx : Nat) : Eff Error TreeOverlay EmbeddedPage := do
  let o ← Eff.get
  Eff.lift (okOr o.pages[pageIdx]? (.panic "verified path pages include every requested page"))

def setPage (pageIdx : Nat) (page : EmbeddedPage) : Eff Error TreeOverlay Unit :=
  Eff.modify fun o =>
    { o with pages := o.pages.insert pageIdx page, dirtyPages := o.dirtyPages.insert pageIdx }

/-- The new bytes of one page. -/
def writeLogical (logicalPageSize pageIdx : Nat) (logical : Bytes) : Eff Error TreeOverlay Unit :=
  if logical.length ≠ logicalPageSize then
    Eff.fail (.invalidInput s!"logical page len {logical.length} != expected {logicalPageSize}")
  else do
    let page ← getPage pageIdx
    setPage pageIdx { page with logical }

variable [Sha256]

/-- The pages of a path, last one first, rehashed with the hash of the one before in its place. -/
def rehashPath (storeId : FixedBytes 16) :
    List Nat → Option (Nat × Hash) → Eff Error TreeOverlay (Option (Nat × Hash))
  | [], currentChild => pure currentChild
  | pageIdx :: above, currentChild => do
    let page ← getPage pageIdx
    let page ← Eff.lift (page.withChild pageIdx currentChild)
    setPage pageIdx page
    rehashPath storeId above (some (pageIdx, page.hash storeId pageIdx))

/-- One turn of the loop of `write_paths`. -/
def writePath (l : EmbeddedLayout) (path : List Nat) (logicalPages : List Bytes) : Eff Error TreeOverlay Unit :=
  if path.length ≠ logicalPages.length then
    Eff.fail (.invalidInput s!"path length {path.length} != logical page count {logicalPages.length}")
  else do
    Eff.lift (validatePath path l.pageCount)
    let _ ← Eff.forEach (fun w => writeLogical l.logicalPageSize w.1 w.2) (path.zip logicalPages)
    match ← rehashPath l.storeId path.reverse none with
    | some (_, hash) => Eff.modify fun o => { o with rootHash := hash }
    | none => Eff.fail (.panic "non-empty path")

/-- The physical bytes of the dirty pages, in order. -/
def encodeDirty (l : EmbeddedLayout) (o : TreeOverlay) : Result (List Bytes) :=
  o.dirtyPages.toList.mapM fun pageIdx => do
    let page ← okOr o.pages[pageIdx]? (.panic "dirty page exists in overlay")
    page.encode l.physicalPageSize l.logicalPageSize

end TreeOverlay

namespace EmbeddedTreePageStore

variable {S : Type} [PageStore S] [Sha256]

def readVerifiedPaths (paths : List (List Nat)) : Eff Error (EmbeddedTreePageStore S) EmbeddedPages :=
  if paths.isEmpty then pure ∅
  else do
    let s ← Eff.get
    let pageIndices ← Eff.lift (batchIndices s.pageCount paths)
    let physicalPages ← onInner (PageStore.readPages pageIndices.toList)
    let pages ← Eff.lift (decodePages s.logicalPageSize (pageIndices.toList.zip physicalPages))
    Eff.lift (verifyPaths s.storeId pages s.rootHash paths)
    pure pages

def readPaths (paths : List (List Nat)) : Eff Error (EmbeddedTreePageStore S) (List (List Bytes)) := do
  let pages ← readVerifiedPaths paths
  let logical ← Eff.lift (logicalPaths pages paths)
  Eff.modify fun s => { s with verifiedBatchCache := some { rootHash := s.rootHash, pages } }
  pure logical

def readPath (path : List Nat) : Eff Error (EmbeddedTreePageStore S) (List Bytes) := do
  let paths ← readPaths [path]
  Eff.lift (okOr paths.getLast? (.panic "single requested path yields one path"))

/-- The current pages of the paths: those of the cache, which is used up, or read again. -/
def takePages (paths : List (List Nat)) : Eff Error (EmbeddedTreePageStore S) EmbeddedPages := do
  let s ← Eff.get
  Eff.modify fun s => { s with verifiedBatchCache := none }
  match s.verifiedBatchCache with
  | some cache =>
    if cache.rootHash = s.rootHash ∧ cacheCoversPaths cache.pages paths = true then pure cache.pages
    else readVerifiedPaths paths
  | none => readVerifiedPaths paths

/-- The loop over the paths on their pages; the root it reaches is the store's. -/
def onOverlay {α : Type} (pages : EmbeddedPages) (m : Eff Error TreeOverlay α) :
    Eff Error (EmbeddedTreePageStore S) (α × TreeOverlay) := fun s =>
  let run := m { pages, dirtyPages := ∅, rootHash := s.rootHash }
  (run.1.map fun a => (a, run.2), { s with rootHash := run.2.rootHash })

def writePaths (paths : List (List Nat)) (logicalPaths : List (List Bytes)) : Eff Error (EmbeddedTreePageStore S) Unit :=
  if paths.length ≠ logicalPaths.length then
    Eff.fail (.invalidInput s!"path count {paths.length} != logical path count {logicalPaths.length}")
  else if paths.isEmpty then pure ()
  else do
    let s ← Eff.get
    let pages ← takePages paths
    let (_, overlay) ← onOverlay pages
      (Eff.forEach (fun w => TreeOverlay.writePath s.toEmbeddedLayout w.1 w.2) (paths.zip logicalPaths))
    let physicalPages ← Eff.lift (overlay.encodeDirty s.toEmbeddedLayout)
    onInner (PageStore.writePages overlay.dirtyPages.toList physicalPages)

def writePath (path : List Nat) (logicalPages : List Bytes) : Eff Error (EmbeddedTreePageStore S) Unit :=
  writePaths [path] [logicalPages]

instance : PathPageStore (EmbeddedTreePageStore S) where
  pageSize s := s.logicalPageSize
  pageCount s := s.pageCount
  readPathPages := readPath
  writePathPages := writePath
  readPathsPages := readPaths
  writePathsPages := writePaths
  flush := onInner PageStore.flush
  embeddedTreeState s := some s.state

end EmbeddedTreePageStore
end BpirOram
