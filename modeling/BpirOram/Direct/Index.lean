/-
  BpirOram.Direct.Index — the direct INDEX table in an ORAM (`direct.rs`): the block source
  that encodes it, and the reader that looks script hashes up in it.

  A bin is `slots_per_bin` slots, each zero or a one byte and a record. A lookup reads every
  candidate bin of its script hash and keeps the first slot that matches.
-/

import BpirOram.Direct.Placement
import BpirOram.Circuit.Reads

namespace BpirOram.Direct

open Lib

/-! ## The block source -/

structure IndexPackedBlockReader where
  info : TableInfo
  metadata : TableMetadata
  placement : List UInt32

namespace IndexPackedBlockReader

def build (fuel : Nat) (info : TableInfo) (itemsPerBlock : Nat) : Run IndexPackedBlockReader :=
  if info.level ≠ .index then
    Run.lift (.error (.invalidInput "DirectIndexPackedBlockReader requires index table info"))
  else do
    let placement ← buildDirectIndexPlacement fuel info
    let metadata ← Run.lift (TableMetadata.fromInfo info itemsPerBlock)
    return { info, metadata, placement }

/-- What is written to slot `slotIdx` of an `out` of `outLen` bytes, for a bin whose slots in
    the placement start at `base`. -/
def encodeSlot (r : IndexPackedBlockReader) (outLen base slotIdx : Nat) : Result Bytes :=
  match r.placement[base + slotIdx]? with
  | none => .error (.panic "index out of bounds")
  | some recordIdx => do
    checkRange outLen (usizeMul slotIdx indexSlotSize) indexSlotSize
    if recordIdx = emptySlot then .ok (List.replicate indexSlotSize 0)
    else do
      let record ← indexRecord r.info.source.bytes recordIdx.toNat
      .ok (1 :: record)

/-- The bytes written to an `out` of `outLen` zeros. The slots lie one after the other: the
    first that would not is out of range. -/
def encodeBin (r : IndexPackedBlockReader) (binId outLen : Nat) : Result Bytes :=
  if outLen ≠ r.metadata.itemSize then
    .error (.invalidInput s!"direct index bin output len {outLen} != expected {r.metadata.itemSize}")
  else
    let base := binId * r.info.slotsPerBin
    if base ≥ 2 ^ 64 then .error (.invalidInput "direct index bin offset overflow")
    else do
      let slots ← (List.range r.info.slotsPerBin).mapM (r.encodeSlot outLen base)
      .ok (slots.flatten ++ List.replicate (outLen - slots.flatten.length) 0)

/-- The bins of a block, one after the other. -/
def readBlock (r : IndexPackedBlockReader) (logicalBlock : Nat) : Result Bytes :=
  if logicalBlock ≥ r.metadata.logicalBlocks then
    .error (.invalidInput s!"logical block {logicalBlock} out of range {r.metadata.logicalBlocks}")
  else do
    let startItem := logicalBlock * r.metadata.itemsPerBlock
    let remaining := r.metadata.totalItems - startItem
    let itemsToEncode := min remaining r.metadata.itemsPerBlock
    let bins ← (List.range' startItem itemsToEncode).mapM fun binId => do
      let itemOffset := binId - startItem
      checkRange r.metadata.blockPayloadBytes (usizeMul itemOffset r.metadata.itemSize) r.metadata.itemSize
      r.encodeBin binId r.metadata.itemSize
    .ok (bins.flatten ++ List.replicate (r.metadata.blockPayloadBytes - bins.flatten.length) 0)

def readBin (r : IndexPackedBlockReader) (binId : Nat) : Result Bytes := do
  let location ← r.metadata.locate binId
  let block ← r.readBlock location.logicalBlock
  byteRange block location.byteOffset location.byteLen

end IndexPackedBlockReader

instance : TrustedBlockSource IndexPackedBlockReader where
  logicalBlocks r := r.metadata.logicalBlocks
  blockSize r := r.metadata.blockPayloadBytes
  readBlock logicalId := do
    let r ← Eff.get
    Eff.lift (r.readBlock logicalId)

/-! ## Selecting a record -/

/-- What a lookup carries from slot to slot. -/
structure Selected where
  found : Ct.Choice
  startChunkId : UInt32
  numChunks : UInt8
  deriving DecidableEq

def nothingSelected : Selected := { found := false, startChunkId := 0, numChunks := 0 }

def selectSlot (scriptHash : ScriptHash) (sel : Selected) (slot : Bytes) : Selected :=
  let occupied := slot.getD 0 0 == 1
  let diff := (List.zipWith (· ^^^ ·) (slot.drop 1) scriptHash.val).foldl (· ||| ·) 0
  let isMatch := occupied && diff == 0
  let select := isMatch && !sel.found
  let candidateStart := UInt32.ofNat (ofLe (slice slot 21 4))
  let candidateChunks := slot.getD 25 0
  { found := sel.found || select
    startChunkId := Ct.cmov sel.startChunkId candidateStart select
    numChunks := Ct.cmov sel.numChunks candidateChunks select }

def selectIndexRecordFromBin (bin : Bytes) (slotsPerBin : Nat) (scriptHash : ScriptHash) (sel : Selected) :
    Result Selected :=
  if bin.length ≠ usizeMul slotsPerBin indexSlotSize then
    .error (.invalidInput s!"direct index bin len {bin.length} != expected {usizeMul slotsPerBin indexSlotSize}")
  else (List.range slotsPerBin).foldlM (fun sel slotIdx => do
    let slot ← byteRange bin (usizeMul slotIdx indexSlotSize) indexSlotSize
    .ok (selectSlot scriptHash sel slot)) sel

/-! ## The reader -/

structure IndexLookup where
  scriptHash : ScriptHash
  found : Bool
  startChunkId : UInt32
  numChunks : UInt8
  candidateBins : List Nat
  logicalBlocks : List Nat
  drainedEvictions : UInt64
  deriving DecidableEq

structure IndexBatchLookup where
  lookups : List IndexLookup
  drainedEvictions : UInt64
  deriving DecidableEq

structure IndexReader (M P ρ : Type) where
  metadata : TableMetadata
  oram : CircuitOram M P ρ

namespace IndexReader

section
variable {M P ρ : Type}

def new (metadata : TableMetadata) (oram : CircuitOram M P ρ) : Result (IndexReader M P ρ) := do
  metadata.validate
  if metadata.level ≠ .index then .error (.invalidInput "CircuitDirectIndexReader requires index metadata")
  else do
    validateOramDimensions metadata oram
    .ok { metadata, oram }

def onOram {α : Type} (m : Eff Error (CircuitOram M P ρ) α) : Eff Error (IndexReader M P ρ) α :=
  Eff.zoom (·.oram) (fun oram r => { r with oram }) m

/-- What the loop over the candidate bins carries. -/
structure Progress where
  selected : Selected
  logicalBlocks : List Nat
  drainedEvictions : UInt64

/-- The bins a script hash may be in. -/
def candidates (fuel : Nat) (metadata : TableMetadata) (scriptHash : ScriptHash) : Run (List Nat) :=
  directIndexCandidateBins fuel scriptHash.val metadata.seed metadata.hashFns metadata.totalItems

/-- The candidate bins of each script hash with their places, in order. -/
def candidateLocations (fuel : Nat) (metadata : TableMetadata) :
    List ScriptHash → Run (List (List Nat × List PackedItemLocation))
  | [] => return []
  | scriptHash :: scriptHashes => do
    let candidateBins ← candidates fuel metadata scriptHash
    let locations ← Run.lift (candidateBins.mapM metadata.locate)
    let rest ← candidateLocations fuel metadata scriptHashes
    return (candidateBins, locations) :: rest

/-- One lookup's blocks are taken from those of the batch. -/
def selectLocations (slotsPerBin : Nat) (scriptHash : ScriptHash) :
    List PackedItemLocation → List Bytes → Selected → Result (Selected × List Bytes)
  | [], blocks, sel => .ok (sel, blocks)
  | _ :: _, [], _ => .error (.panic "flat blocks match candidate locations")
  | location :: locations, block :: blocks, sel => do
    let bin ← byteRange block location.byteOffset location.byteLen
    let sel ← selectIndexRecordFromBin bin slotsPerBin scriptHash sel
    selectLocations slotsPerBin scriptHash locations blocks sel

def resolveLookups (slotsPerBin : Nat) :
    List (ScriptHash × List Nat × List PackedItemLocation) → List Bytes → Result (List IndexLookup)
  | [], _ => .ok []
  | (scriptHash, candidateBins, locations) :: rest, blocks => do
    let (sel, blocks) ← selectLocations slotsPerBin scriptHash locations blocks nothingSelected
    let lookups ← resolveLookups slotsPerBin rest blocks
    .ok ({ scriptHash, found := sel.found, startChunkId := sel.startChunkId, numChunks := sel.numChunks, candidateBins
           logicalBlocks := locations.map (·.logicalBlock), drainedEvictions := 0 } :: lookups)

variable [PathPageStore M] [PathPageStore P] [Rng ρ]

def lookupLoop (scriptHash : ScriptHash) (drainPerRead : UInt64) :
    List Nat → Progress → Eff Error (IndexReader M P ρ) Progress
  | [], done => pure done
  | binId :: bins, done => do
    let r ← Eff.get
    let location ← Eff.lift (r.metadata.locate binId)
    let block ← onOram (CircuitOram.read (UInt64.ofNat location.logicalBlock))
    let bin ← Eff.lift (byteRange block location.byteOffset location.byteLen)
    let selected ← Eff.lift (selectIndexRecordFromBin bin r.metadata.slotsPerBin scriptHash done.selected)
    let drained ← onOram (CircuitOram.drainEvictions drainPerRead)
    lookupLoop scriptHash drainPerRead bins
      { selected, logicalBlocks := done.logicalBlocks ++ [location.logicalBlock]
        drainedEvictions := done.drainedEvictions + drained }

/-- A lookup, once it has its candidate bins. -/
def lookupIn (scriptHash : ScriptHash) (drainPerRead : UInt64) (bins : Result (List Nat)) :
    Eff Error (IndexReader M P ρ) IndexLookup := do
  let candidateBins ← Eff.lift bins
  let done ← lookupLoop scriptHash drainPerRead candidateBins
    { selected := nothingSelected, logicalBlocks := [], drainedEvictions := 0 }
  pure { scriptHash, found := done.selected.found, startChunkId := done.selected.startChunkId
         numChunks := done.selected.numChunks, candidateBins, logicalBlocks := done.logicalBlocks
         drainedEvictions := done.drainedEvictions }

/-- `none` when it runs out of fuel, which it does before it reads. -/
def lookup (fuel : Nat) (scriptHash : ScriptHash) (drainPerRead : UInt64) (r : IndexReader M P ρ) :
    Option (Result IndexLookup × IndexReader M P ρ) :=
  Option.map (fun bins => lookupIn scriptHash drainPerRead bins r) (candidates fuel r.metadata scriptHash)

/-- A batch of lookups, once it has the candidate bins of each and their places. -/
def lookupManyIn (scriptHashes : List ScriptHash) (drainPerRead : UInt64)
    (located : Result (List (List Nat × List PackedItemLocation))) : Eff Error (IndexReader M P ρ) IndexBatchLookup := do
  let byLookup ← Eff.lift located
  let flatLogicalIds := (byLookup.map (·.2)).flatten.map fun location => UInt64.ofNat location.logicalBlock
  let blocks ← onOram (CircuitOram.readBatch flatLogicalIds)
  let r ← Eff.get
  let lookups ← Eff.lift (resolveLookups r.metadata.slotsPerBin (scriptHashes.zip byLookup) blocks)
  let drainedEvictions ← onOram (CircuitOram.drainEvictions (drainPerRead * UInt64.ofNat flatLogicalIds.length))
  pure { lookups, drainedEvictions }

def lookupManyBatched (fuel : Nat) (scriptHashes : List ScriptHash) (drainPerRead : UInt64) (r : IndexReader M P ρ) :
    Option (Result IndexBatchLookup × IndexReader M P ρ) :=
  Option.map (fun located => lookupManyIn scriptHashes drainPerRead located r)
    (candidateLocations fuel r.metadata scriptHashes)

/-- The one lookup of a batch of one. -/
def onlyLookup (batch : IndexBatchLookup) : Result IndexLookup := do
  let lookup ← okOr batch.lookups.getLast? (.panic "single requested lookup yields one result")
  .ok { lookup with drainedEvictions := batch.drainedEvictions }

def lookupBatched (fuel : Nat) (scriptHash : ScriptHash) (drainPerRead : UInt64) (r : IndexReader M P ρ) :
    Option (Result IndexLookup × IndexReader M P ρ) :=
  (lookupManyBatched fuel [scriptHash] drainPerRead r).map fun done => (done.1 >>= onlyLookup, done.2)

end
end IndexReader

end BpirOram.Direct
