/-
  BpirOram.Circuit.Build — the trusted build (`build_trusted` and its streaming form in
  `circuit.rs`).

  Each id draws a leaf and takes the deepest free slot of that leaf's path, or a place in
  the stash; the buckets are planned as metadata and written once, metadata pages first.
-/

import BpirOram.Circuit.State

namespace BpirOram

open Lib

class TrustedBlockSource (S : Type) where
  logicalBlocks : S → Nat
  blockSize : S → Nat
  readBlock (logicalId : Nat) : Eff Error S Bytes

structure VecBlockSource where
  blocks : List Bytes
  blockSize : Nat

instance : TrustedBlockSource VecBlockSource where
  logicalBlocks s := s.blocks.length
  blockSize := VecBlockSource.blockSize
  readBlock logicalId := do
    let s ← Eff.get
    Eff.lift (okOr s.blocks[logicalId]?
      (.invalidInput s!"logical block {logicalId} out of range {s.blocks.length}"))

/-- A method of a store that is thrown away when it fails. -/
def runOwned {σ α : Type} (m : Eff Error σ α) (s : σ) : Result (α × σ) :=
  let run := m s
  run.1.map fun a => (a, run.2)

/-! ## Planning -/

/-- The first free slot of a bucket. -/
def placeInitialSlot (slot : CircuitMetaSlot) : List CircuitMetaSlot → Option (List CircuitMetaSlot)
  | [] => none
  | old :: slots =>
    if !old.occupied then some (slot :: slots) else (placeInitialSlot slot slots).map (old :: ·)

/-- The nodes of a path in the order they are tried. -/
def placeInitialAlong (slot : CircuitMetaSlot) : List Nat → List CircuitMetaBucket → Option (List CircuitMetaBucket)
  | [], _ => none
  | nodeIdx :: path, metaBuckets =>
    match (metaBuckets[nodeIdx]?).bind fun bucket => placeInitialSlot slot bucket.slots with
    | some slots => some (metaBuckets.set nodeIdx { slots })
    | none => placeInitialAlong slot path metaBuckets

/-- `none` where the source returns `false`: no bucket of the path has a free slot. -/
def placeInitialMeta (p : OramParams) (metaBuckets : List CircuitMetaBucket) (logicalId : UInt64) (leaf : UInt32) :
    Option (List CircuitMetaBucket) :=
  placeInitialAlong (.real logicalId leaf) (p.pathNodes leaf).reverse metaBuckets

/-- What the placement loop carries. -/
structure InitialPlacement (ρ : Type) where
  rng : ρ
  posMap : List UInt32
  metaBuckets : List CircuitMetaBucket
  initialStashIds : List (Nat × UInt32)

section
variable {ρ : Type} [Rng ρ]

def placeInitial (p : OramParams) : List Nat → InitialPlacement ρ → Result (InitialPlacement ρ)
  | [], plan => .ok plan
  | logicalId :: ids, plan =>
    let draw := randomLeaf p plan.rng
    let posMap := plan.posMap.set logicalId draw.1
    match placeInitialMeta p plan.metaBuckets (UInt64.ofNat logicalId) draw.1 with
    | some metaBuckets => placeInitial p ids { plan with rng := draw.2, posMap, metaBuckets }
    | none =>
      let initialStashIds := plan.initialStashIds ++ [(logicalId, draw.1)]
      if initialStashIds.length > p.stashCapacity then
        .error (.stashOverflow initialStashIds.length p.stashCapacity)
      else placeInitial p ids { plan with rng := draw.2, posMap, initialStashIds }

def initialPlacement (p : OramParams) (rng : ρ) : InitialPlacement ρ where
  rng := rng
  posMap := List.replicate p.logicalBlocks 0
  metaBuckets := List.replicate p.bucketCount (.dummy p.bucketSize)
  initialStashIds := []

end

/-! ## Writing -/

section
variable {M P S : Type} [PageStore M] [PageStore P] [TrustedBlockSource S]

def validateBlockSource (p : OramParams) (source : S) : Result Unit :=
  if TrustedBlockSource.logicalBlocks source ≠ p.logicalBlocks then
    .error (.invalidInput
      s!"block source has {TrustedBlockSource.logicalBlocks source} logical blocks, expected {p.logicalBlocks}")
  else if TrustedBlockSource.blockSize source ≠ p.blockSize then
    .error (.invalidInput s!"block source block_size {TrustedBlockSource.blockSize source} != expected {p.blockSize}")
  else .ok ()

def readSourceBlock (p : OramParams) (logicalId : Nat) : Eff Error S Bytes := do
  let payload ← TrustedBlockSource.readBlock logicalId
  if payload.length ≠ p.blockSize then
    Eff.fail (.invalidInput
      s!"source payload for logical block {logicalId} has {payload.length} bytes, expected {p.blockSize}")
  else pure payload

def writeInitialMetadata (p : OramParams) (metaBuckets : List CircuitMetaBucket) : Eff Error M Unit :=
  if metaBuckets.length ≠ p.bucketCount then
    Eff.fail (.invalidInput s!"metadata bucket count {metaBuckets.length} != expected {p.bucketCount}")
  else do
    let _ ← Eff.forEach (fun (bucket, nodeIdx) => do
      let encoded ← Eff.lift (CircuitMetaBucket.encodeInto bucket p.bucketSize (circuitMetaPageBytes p.bucketSize))
      PageStore.writePage nodeIdx encoded) metaBuckets.zipIdx

/-- The payload page of a bucket: `block_size` bytes for each of its slots, zero where no
    block was placed. -/
def initialPayloadPage (p : OramParams) (bucket : CircuitMetaBucket) : Eff Error S Bytes := do
  let ranges ← Eff.forEach (fun (slot : CircuitMetaSlot) =>
    if slot.occupied then readSourceBlock p slot.logicalId.toNat else pure (List.replicate p.blockSize 0)) bucket.slots
  pure ranges.flatten

def writeInitialPayloads (p : OramParams) (metaBuckets : List CircuitMetaBucket) : Eff Error (P × S) Unit :=
  if metaBuckets.length ≠ p.bucketCount then
    Eff.fail (.invalidInput s!"metadata bucket count {metaBuckets.length} != expected {p.bucketCount}")
  else do
    let _ ← Eff.forEach (fun (bucket, nodeIdx) => do
      let encoded ← Eff.zoom Prod.snd (fun source s => (s.1, source)) (initialPayloadPage p bucket)
      Eff.zoom Prod.fst (fun payloadStore s => (payloadStore, s.2)) (PageStore.writePage nodeIdx encoded))
      metaBuckets.zipIdx

/-- The stash slots of the ids that found no place in the tree. -/
def initialStash (p : OramParams) (ids : List (Nat × UInt32)) : Eff Error S (List OramBlock) :=
  Eff.forEach (fun (logicalId, leaf) => do
    let payload ← readSourceBlock p logicalId
    Eff.lift (OramBlock.real (UInt64.ofNat logicalId) leaf payload p.blockSize)) ids

namespace CircuitOram

variable {ρ : Type} [Rng ρ]

def buildTrustedFromSource (p : OramParams) (metaStore : M) (payloadStore : P) (source : S) (seed : FixedBytes 32) :
    Result (CircuitOram M P ρ) := do
  validateCircuitStores p metaStore payloadStore
  validateBlockSource p source
  let plan ← placeInitial p (List.range p.logicalBlocks) (initialPlacement p (Rng.fromSeed (ρ := ρ) seed))
  let (_, metaStore) ← runOwned (writeInitialMetadata p plan.metaBuckets) metaStore
  let (_, payloadStore, source) ← runOwned (writeInitialPayloads p plan.metaBuckets) (payloadStore, source)
  let (stash, _) ← runOwned (initialStash p plan.initialStashIds) source
  padAndCheck
    { schedule := .new p, params := p, metaStore, payloadStore, posMap := plan.posMap, stash, rng := plan.rng }

def buildTrusted (p : OramParams) (metaStore : M) (payloadStore : P) (blocks : List Bytes) (seed : FixedBytes 32) :
    Result (CircuitOram M P ρ) :=
  buildTrustedFromSource p metaStore payloadStore (VecBlockSource.mk blocks p.blockSize) seed

end CircuitOram
end
end BpirOram
