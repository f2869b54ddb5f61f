/-
  BpirOram.Circuit.Oram — `CircuitOram` (`circuit.rs`): the controller over its metadata
  and payload stores.

  Every operation reads whole paths of both stores, works on the pages in memory and
  writes the same paths back. A batch works on two overlays, maps from page index to page;
  `Overlaid` is the controller together with them. What a failed step did to the
  controller before it failed stays done.
-/

import BpirOram.Circuit.Controller
import BpirOram.Store
import Std.Data.TreeMap

namespace BpirOram

open Lib

/-- `BTreeMap<usize, Vec<u8>>`. -/
abbrev PageMap := Std.TreeMap Nat Bytes

structure CircuitOram (M P ρ : Type) extends Controller ρ where
  metaStore : M
  payloadStore : P

structure Overlays where
  metaPages : PageMap
  payloadPages : PageMap

structure Overlaid (ρ : Type) extends Controller ρ, Overlays

/-! ## Overlays -/

/-- The pages of one path, entered into the overlay; a page read twice must read the same. -/
def overlayPath (pageSize : Nat) : List (Nat × Bytes) → PageMap → Result PageMap
  | [], overlay => .ok overlay
  | (pageIdx, page) :: rest, overlay =>
    if page.length ≠ pageSize then
      .error (.invalidInput s!"path page len {page.length} != page_size {pageSize}")
    else match overlay[pageIdx]? with
      | some existing =>
        if existing ≠ page then
          .error (.invalidInput s!"batch read returned inconsistent bytes for page {pageIdx}")
        else overlayPath pageSize rest overlay
      | none => overlayPath pageSize rest (overlay.insert pageIdx page)

def overlayPaths (pageSize : Nat) : List (List Nat × List Bytes) → PageMap → Result PageMap
  | [], overlay => .ok overlay
  | (path, pages) :: rest, overlay =>
    if path.length ≠ pages.length then
      .error (.invalidInput s!"path length {path.length} != page count {pages.length}")
    else do
      let overlay ← overlayPath pageSize (path.zip pages) overlay
      overlayPaths pageSize rest overlay

def overlayPathPages (paths : List (List Nat)) (pathPages : List (List Bytes)) (pageSize : Nat) : Result PageMap :=
  if paths.length ≠ pathPages.length then
    .error (.invalidInput s!"path count {paths.length} != page-path count {pathPages.length}")
  else overlayPaths pageSize (paths.zip pathPages) ∅

def collectOverlayPaths (paths : List (List Nat)) (overlay : PageMap) : Result (List (List Bytes)) :=
  paths.mapM fun path => path.mapM fun pageIdx =>
    okOr overlay[pageIdx]? (.invalidInput s!"batch overlay missing requested page {pageIdx}")

/-! ## Removing the target from a path -/

def cmovBlockFromMetaPayload (block : OramBlock) (slot : CircuitMetaSlot) (payload : Bytes) (choice : Ct.Choice) :
    OramBlock :=
  { occupied := Ct.cmov block.occupied slot.occupied choice
    logicalId := Ct.cmov block.logicalId slot.logicalId choice
    leaf := Ct.cmov block.leaf slot.leaf choice
    payload := Ct.cmovBytes block.payload payload choice }

/-- What is carried from slot to slot and from bucket to bucket. -/
structure Removal where
  selected : OramBlock
  removed : Ct.Choice

/-- The slots of one bucket, its metadata slots beside its payload slots. -/
def selectAndRemoveTargetSlots (logicalId : UInt64) :
    List (CircuitMetaSlot × Bytes) → Removal → List (CircuitMetaSlot × Bytes) × Removal
  | [], r => ([], r)
  | (slot, payload) :: rest, r =>
    let matched := slot.logicalIdChoice logicalId && !r.removed
    let tail := selectAndRemoveTargetSlots logicalId rest
      { selected := cmovBlockFromMetaPayload r.selected slot payload matched, removed := r.removed || matched }
    ((slot.clearIf matched, Ct.clearPayloadIf payload matched) :: tail.1, tail.2)

/-- One bucket, from its two pages to its two new pages. -/
def removeFromPages (p : OramParams) (logicalId : UInt64) (metaBuf payloadBuf : Bytes) (r : Removal) :
    Result (Bytes × Bytes × Removal) := do
  let metaBucket ← CircuitMetaBucket.decode metaBuf p.bucketSize
  let payloadBucket ← CircuitPayloadBucket.decode payloadBuf p.bucketSize p.blockSize
  let (slots, r) := selectAndRemoveTargetSlots logicalId (metaBucket.slots.zip payloadBucket.slots) r
  let metaBuf ← CircuitMetaBucket.encode { slots := slots.map (·.1) } p.bucketSize
  let payloadBuf ← CircuitPayloadBucket.encode { slots := slots.map (·.2) } p.bucketSize p.blockSize
  .ok (metaBuf, payloadBuf, r)

/-- The buckets of one path, root first. -/
def removeFromPath (p : OramParams) (logicalId : UInt64) :
    List (Bytes × Bytes) → Removal → Result (List (Bytes × Bytes) × Removal)
  | [], r => .ok ([], r)
  | (metaBuf, payloadBuf) :: rest, r => do
    let (metaBuf, payloadBuf, r) ← removeFromPages p logicalId metaBuf payloadBuf r
    let (rest, r) ← removeFromPath p logicalId rest r
    .ok ((metaBuf, payloadBuf) :: rest, r)

def noRemoval (p : OramParams) : Removal := { selected := .dummy p.blockSize, removed := false }

namespace Overlaid

variable {ρ : Type}

def onController {α : Type} (m : Eff Error (Controller ρ) α) : Eff Error (Overlaid ρ) α :=
  Eff.zoom (·.toController) (fun c s => { s with toController := c }) m

def getMeta (pageIdx : Nat) (msg : String) : Eff Error (Overlaid ρ) Bytes := do
  let s ← Eff.get
  Eff.lift (okOr s.metaPages[pageIdx]? (.panic msg))

def getPayload (pageIdx : Nat) (msg : String) : Eff Error (Overlaid ρ) Bytes := do
  let s ← Eff.get
  Eff.lift (okOr s.payloadPages[pageIdx]? (.panic msg))

def setPages (pageIdx : Nat) (metaBuf payloadBuf : Bytes) : Eff Error (Overlaid ρ) Unit :=
  Eff.modify fun s =>
    { s with
      metaPages := s.metaPages.insert pageIdx metaBuf
      payloadPages := s.payloadPages.insert pageIdx payloadBuf }

/-- The loop of `remove_target_from_overlays` over the path. -/
def removeAlong (logicalId : UInt64) : List Nat → Removal → Eff Error (Overlaid ρ) Removal
  | [], r => pure r
  | pageIdx :: path, r => do
    let metaBuf ← getMeta pageIdx "batch overlay includes every path page"
    let payloadBuf ← getPayload pageIdx "batch overlay includes every path page"
    let s ← Eff.get
    let (metaBuf, payloadBuf, r) ← Eff.lift (removeFromPages s.params logicalId metaBuf payloadBuf r)
    setPages pageIdx metaBuf payloadBuf
    removeAlong logicalId path r

def removeTargetFromOverlays (path : List Nat) (logicalId : UInt64) : Eff Error (Overlaid ρ) Unit := do
  let s ← Eff.get
  let r ← removeAlong logicalId path (noRemoval s.params)
  onController (Controller.insertIntoStash r.selected)

/-! ## Evicting a path -/

def pathMetadataFromOverlay (path : List Nat) : Eff Error (Overlaid ρ) (List CircuitMetaBucket) :=
  Eff.forEach (fun pageIdx => do
    let metaBuf ← getMeta pageIdx "eviction overlay includes every path page"
    let s ← Eff.get
    Eff.lift (CircuitMetaBucket.decode metaBuf s.params.bucketSize)) path

/-- `payloads[idx].copy_from_slice(slot)` for the slots of a bucket. -/
def setPayloads (payloads : List Bytes) (slots : List (Nat × Bytes)) : List Bytes :=
  slots.foldl (fun payloads (candidateIdx, slot) => payloads.set candidateIdx slot) payloads

def loadPathPayloads : List (Nat × List Nat) → List Bytes → Eff Error (Overlaid ρ) (List Bytes)
  | [], payloads => pure payloads
  | (pageIdx, indices) :: rest, payloads => do
    let payloadBuf ← getPayload pageIdx "eviction overlay includes every path page"
    let s ← Eff.get
    let bucket ← Eff.lift (CircuitPayloadBucket.decode payloadBuf s.params.bucketSize s.params.blockSize)
    loadPathPayloads rest (setPayloads payloads (indices.zip bucket.slots))

def loadEvictionPayloadsFromOverlay (path : List Nat) (pathMeta : List CircuitMetaBucket)
    (plan : CircuitEvictionPlan) : Eff Error (Overlaid ρ) (List Bytes) := do
  let s ← Eff.get
  if path.length ≠ pathMeta.length ∨ path.length ≠ plan.pathCandidateIndices.length ∨
      plan.candidates.length ≠ s.params.stashCapacity + s.params.height * s.params.bucketSize then
    Eff.fail (.invalidInput "eviction payload path length mismatch")
  else
    let zeros := List.replicate plan.candidates.length (List.replicate s.params.blockSize 0)
    let ofStash := (s.stash.take s.params.stashCapacity).map (·.payload)
    loadPathPayloads (path.zip plan.pathCandidateIndices) (ofStash ++ zeros.drop ofStash.length)

/-- The slot a placement fills, by a scan over every candidate. -/
def placeSlot (blockSize : Nat) (candidates : List (CircuitEvictionCandidate × Bytes))
    (placement : CircuitEvictionPlacement) : CircuitMetaSlot × Bytes :=
  candidates.zipIdx.foldl (fun (slot, payload) ((candidate, candidatePayload), candidateIdx) =>
    let select := placement.occupied && placement.candidateIdx == candidateIdx
    (slot.cmovFrom candidate.metaSlot select, Ct.cmovBytes payload candidatePayload select))
    (.dummy, List.replicate blockSize 0)

/-- A path candidate goes back into the stash if the plan left it over. -/
def reinsertCandidate (plan : CircuitEvictionPlan) (payloads : List Bytes) (candidateIdx : Nat) :
    Eff Error (Overlaid ρ) Unit :=
  match plan.candidates[candidateIdx]?, payloads[candidateIdx]? with
  | some candidate, some payload =>
    onController (Controller.insertCandidateIntoStash candidate.metaSlot payload (plan.isLeftOver candidateIdx))
  | _, _ => Eff.fail (.panic "index out of bounds")

/-- The new bucket of one depth, written to both overlays. -/
def placeBucketAt (plan : CircuitEvictionPlan) (payloads : List Bytes) (pageIdx : Nat)
    (placements : List CircuitEvictionPlacement) : Eff Error (Overlaid ρ) Unit := do
  let s ← Eff.get
  let slots := placements.map (placeSlot s.params.blockSize (plan.candidates.zip payloads))
  let metaBuf ← Eff.lift (CircuitMetaBucket.encode { slots := slots.map (·.1) } s.params.bucketSize)
  let payloadBuf ← Eff.lift
    (CircuitPayloadBucket.encode { slots := slots.map (·.2) } s.params.bucketSize s.params.blockSize)
  setPages pageIdx metaBuf payloadBuf

def applyEvictionPlanToOverlays (path : List Nat) (pathMeta : List CircuitMetaBucket) (plan : CircuitEvictionPlan) :
    Eff Error (Overlaid ρ) Unit := do
  let payloads ← loadEvictionPayloadsFromOverlay path pathMeta plan
  onController (Controller.ensureEvictionStashCapacity plan)
  onController (Controller.clearSelected plan)
  let _ ← Eff.forEach (reinsertCandidate plan payloads) plan.pathCandidateIndices.flatten
  let _ ← Eff.forEach (fun (pageIdx, placements) => placeBucketAt plan payloads pageIdx placements)
    (path.zip plan.placements)

def evictPathInOverlays (path : List Nat) : Eff Error (Overlaid ρ) Unit := do
  let _deepestMeta ← pathMetadataFromOverlay path
  let targetMeta ← pathMetadataFromOverlay path
  let s ← Eff.get
  let plan ← Eff.lift (planEvictionPlacements s.params s.stash path targetMeta)
  applyEvictionPlanToOverlays path targetMeta plan

end Overlaid

namespace CircuitOram

variable {M P ρ : Type}

def onController {α : Type} (m : Eff Error (Controller ρ) α) : Eff Error (CircuitOram M P ρ) α :=
  Eff.zoom (·.toController) (fun c s => { s with toController := c }) m

def onMeta {α : Type} (m : Eff Error M α) : Eff Error (CircuitOram M P ρ) α :=
  Eff.zoom (·.metaStore) (fun metaStore s => { s with metaStore }) m

def onPayload {α : Type} (m : Eff Error P α) : Eff Error (CircuitOram M P ρ) α :=
  Eff.zoom (·.payloadStore) (fun payloadStore s => { s with payloadStore }) m

/-- The loop of a batch: it works on the controller and the overlays, and its overlays are
    lost when it fails. -/
def withOverlays {α : Type} (overlays : Overlays) (body : Eff Error (Overlaid ρ) α) :
    Eff Error (CircuitOram M P ρ) (α × Overlays) := fun s =>
  let run := body { s.toController, overlays with }
  (run.1.map fun a => (a, run.2.toOverlays), { s with toController := run.2.toController })

variable [PathPageStore M] [PathPageStore P]

/-- The paths of a batch, read from both stores into overlays. -/
def readOverlays (paths : List (List Nat)) : Eff Error (CircuitOram M P ρ) Overlays := do
  let metaPathPages ← onMeta (PathPageStore.readPathsPages paths)
  let payloadPathPages ← onPayload (PathPageStore.readPathsPages paths)
  let s ← Eff.get
  let metaPages ← Eff.lift (overlayPathPages paths metaPathPages (circuitMetaPageBytes s.params.bucketSize))
  let payloadPages ← Eff.lift
    (overlayPathPages paths payloadPathPages (circuitPayloadPageBytes s.params.bucketSize s.params.blockSize))
  pure { metaPages, payloadPages }

/-- The paths of a batch, written from the overlays to both stores, metadata first. -/
def writeOverlays (paths : List (List Nat)) (overlays : Overlays) : Eff Error (CircuitOram M P ρ) Unit := do
  let metaWritePages ← Eff.lift (collectOverlayPaths paths overlays.metaPages)
  let payloadWritePages ← Eff.lift (collectOverlayPaths paths overlays.payloadPages)
  onMeta (PathPageStore.writePathsPages paths metaWritePages)
  onPayload (PathPageStore.writePathsPages paths payloadWritePages)

def readAndRemoveTargetPath (leaf : UInt32) (logicalId : UInt64) : Eff Error (CircuitOram M P ρ) Unit := do
  let s ← Eff.get
  let path := s.params.pathNodes leaf
  let metaPages ← onMeta (PathPageStore.readPathPages path)
  let payloadPages ← onPayload (PathPageStore.readPathPages path)
  let (pages, r) ← Eff.lift (removeFromPath s.params logicalId (metaPages.zip payloadPages) (noRemoval s.params))
  onController (Controller.insertIntoStash r.selected)
  onMeta (PathPageStore.writePathPages path (pages.map (·.1) ++ metaPages.drop pages.length))
  onPayload (PathPageStore.writePathPages path (pages.map (·.2) ++ payloadPages.drop pages.length))

def readAndRewritePath (leaf : UInt32) : Eff Error (CircuitOram M P ρ) Unit := do
  let s ← Eff.get
  let path := s.params.pathNodes leaf
  let metaPages ← onMeta (PathPageStore.readPathPages path)
  let payloadPages ← onPayload (PathPageStore.readPathPages path)
  onMeta (PathPageStore.writePathPages path metaPages)
  onPayload (PathPageStore.writePathPages path payloadPages)

/-! ## Operations -/

section
variable [Rng ρ]

def access (logicalId : UInt64) (update : Update) : Eff Error (CircuitOram M P ρ) Bytes := do
  let s ← Eff.get
  if logicalId.toNat ≥ s.params.logicalBlocks then
    Eff.fail (.invalidInput s!"logical_id {logicalId.toNat} out of range")
  else do
    let oldLeaf := scanPosMapLookup s.posMap logicalId
    readAndRemoveTargetPath oldLeaf logicalId
    onController (Controller.finishAccess logicalId update)

def read (logicalId : UInt64) : Eff Error (CircuitOram M P ρ) Bytes := access logicalId .keep

/-- The id check in front of a batch. -/
def checkLogicalIds (logicalBlocks : Nat) : List UInt64 → Result Unit
  | [] => .ok ()
  | logicalId :: logicalIds =>
    if logicalId.toNat ≥ logicalBlocks then
      .error (.invalidInput s!"logical_id {logicalId.toNat} out of range")
    else checkLogicalIds logicalBlocks logicalIds

/-- One turn of the batch loop. -/
def serveRequest (logicalId : UInt64) (newLeaf : UInt32) (path : List Nat) (update : Update) :
    Eff Error (Overlaid ρ) Bytes := do
  Overlaid.removeTargetFromOverlays path logicalId
  Overlaid.onController (Controller.finishRequest logicalId newLeaf update)

/-- `update k id` is what the `k`-th call of the `FnMut` does, given `id`. -/
def accessBatch (logicalIds : List UInt64) (update : Nat → UInt64 → Update) :
    Eff Error (CircuitOram M P ρ) (List Bytes) :=
  if logicalIds.isEmpty then pure []
  else do
    let s ← Eff.get
    Eff.lift (checkLogicalIds s.params.logicalBlocks logicalIds)
    let oldLeaves := scanPosMapLookupBatch s.posMap logicalIds
    let draw := randomLeaves s.params logicalIds.length s.rng
    let newLeaves := draw.1
    let accessLeaves := batchAccessLeaves logicalIds oldLeaves newLeaves
    let paths := accessLeaves.map s.params.pathNodes
    let overlays ← readOverlays paths
    let (outputs, overlays) ← withOverlays overlays
      (Eff.forEach (fun (((logicalId, newLeaf), path), k) => serveRequest logicalId newLeaf path (update k logicalId))
        ((logicalIds.zip newLeaves).zip paths).zipIdx)
    onController (Eff.modify fun c =>
      { c with posMap := scanPosMapUpdateBatch c.posMap logicalIds newLeaves, rng := draw.2 })
    writeOverlays paths overlays
    onController Controller.checkStash
    pure outputs

def readBatch (logicalIds : List UInt64) : Eff Error (CircuitOram M P ρ) (List Bytes) :=
  accessBatch logicalIds fun _ _ => .keep

def dummyAccess : Eff Error (CircuitOram M P ρ) Unit := do
  let s ← Eff.get
  let draw := randomLeaf s.params s.rng
  onController (Eff.modify fun c => { c with rng := draw.2 })
  readAndRewritePath draw.1
  onController (Controller.onSchedule CircuitEvictionSchedule.recordAccess)
  onController Controller.checkStash

def dummyAccessBatch (count : Nat) : Eff Error (CircuitOram M P ρ) Unit :=
  if count = 0 then pure ()
  else do
    let s ← Eff.get
    let draw := randomLeaves s.params count s.rng
    onController (Eff.modify fun c => { c with rng := draw.2 })
    let paths := draw.1.map s.params.pathNodes
    let overlays ← readOverlays paths
    writeOverlays paths overlays
    let _ ← Eff.forEach (fun _ => onController (Controller.onSchedule CircuitEvictionSchedule.recordAccess))
      (List.range count)
    onController Controller.checkStash

end

/-- The paths of the next `toDrain` evictions. -/
def evictionPaths (c : Controller ρ) (toDrain : UInt64) : List (List Nat) :=
  (List.range toDrain.toNat).map fun offset => c.params.pathNodes
    (CircuitEvictionSchedule.evictionLeafAt c.params (c.schedule.completedEvictions + UInt64.ofNat offset))

def drainEvictions (budget : UInt64) : Eff Error (CircuitOram M P ρ) UInt64 := do
  let s ← Eff.get
  let pending ← Eff.lift s.schedule.pendingEvictions
  let toDrain := min budget pending
  if toDrain = 0 then pure 0
  else do
    let paths := evictionPaths s.toController toDrain
    let overlays ← readOverlays paths
    let (_, overlays) ← withOverlays overlays (Eff.forEach Overlaid.evictPathInOverlays paths)
    writeOverlays paths overlays
    let _ ← Eff.forEach (fun _ => onController (Controller.onSchedule CircuitEvictionSchedule.completeOneEviction)) paths
    onController Controller.checkStash
    pure toDrain

end CircuitOram

theorem checkLogicalIds_ok {n : Nat} {logicalIds : List UInt64} (h : CircuitOram.checkLogicalIds n logicalIds = .ok ()) :
    ∀ id ∈ logicalIds, id.toNat < n := by
  induction logicalIds with
  | nil => intro id hid; cases hid
  | cons a as ih =>
    rw [CircuitOram.checkLogicalIds] at h
    split at h
    · cases h
    · intro id hid
      rcases List.mem_cons.mp hid with rfl | hid
      · omega
      · exact ih h id hid

end BpirOram
