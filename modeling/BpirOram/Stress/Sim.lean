/-
  BpirOram.Stress.Sim — the tree of the stress simulators (`stress.rs`, `ring_stress.rs`).

  A simulator knows ids only: its slots are one vector, bucket after bucket, and its stash
  holds blocks and no empty slots. An eviction moves the ids of a path to the end of the
  stash and fills the path again, the deepest bucket first, each slot with the first block
  of the stash that may stand there, which `swap_remove` takes out. Both simulators carry
  the same tree (`SimTree`); this is the one of `stress.rs`.
-/

import BpirOram.Circuit.Controller
import BpirOram.Lib.SwapRemove

namespace BpirOram

open Lib

def emptyBlock : UInt32 := 0xFFFFFFFF

structure SimBlock where
  id : UInt32
  leaf : UInt32
  deriving DecidableEq, Repr

structure SimTree where
  params : OramParams
  slots : List UInt32
  positionMap : List UInt32
  stash : List SimBlock
  deriving DecidableEq, Repr

/-! ## One bucket -/

/-- The ids of a bucket, moved to the end of the stash. -/
def readSlots (positionMap : List UInt32) : List UInt32 → List SimBlock → Result (List UInt32 × List SimBlock)
  | [], stash => .ok ([], stash)
  | slot :: rest, stash =>
    if slot ≠ emptyBlock then do
      let leaf ← okOr positionMap[slot.toNat]? (.panic "index out of bounds")
      let (rest, stash) ← readSlots positionMap rest (stash ++ [{ id := slot, leaf }])
      .ok (emptyBlock :: rest, stash)
    else do
      let (rest, stash) ← readSlots positionMap rest stash
      .ok (slot :: rest, stash)

/-- The free slots of a bucket, filled from the stash. -/
def writeSlots (contains : UInt32 → Bool) : List UInt32 → List SimBlock → List UInt32 × List SimBlock
  | [], stash => ([], stash)
  | slot :: rest, stash =>
    if slot ≠ emptyBlock then
      let tail := writeSlots contains rest stash
      (slot :: tail.1, tail.2)
    else match takeFirst (fun block => contains block.leaf) stash with
      | some (block, stash) =>
        let tail := writeSlots contains rest stash
        (block.id :: tail.1, tail.2)
      | none =>
        let tail := writeSlots contains rest stash
        (slot :: tail.1, tail.2)

/-- The first free slot of a bucket takes the id. -/
def placeId (id : UInt32) : List UInt32 → Option (List UInt32)
  | [] => none
  | slot :: rest => if slot = emptyBlock then some (id :: rest) else (placeId id rest).map (slot :: ·)

/-- The first slot that holds the id, emptied. -/
def clearId (id : UInt32) : List UInt32 → Option (List UInt32)
  | [] => none
  | slot :: rest => if slot = id then some (emptyBlock :: rest) else (clearId id rest).map (slot :: ·)

namespace SimTree

def bucketBase (s : SimTree) (nodeIdx : Nat) : Nat := nodeIdx * s.params.bucketSize

def bucket (s : SimTree) (nodeIdx : Nat) : List UInt32 :=
  (s.slots.drop (s.bucketBase nodeIdx)).take s.params.bucketSize

/-- `slots[base..base + bucket_size]`. -/
def slice (s : SimTree) (nodeIdx : Nat) : Result (List UInt32) :=
  if s.bucketBase nodeIdx + s.params.bucketSize ≤ s.slots.length then .ok (s.bucket nodeIdx)
  else .error (.panic "range end index out of range for slice")

/-- The slice written in its place, and the stash. -/
def withBucket (s : SimTree) (nodeIdx : Nat) (bucket : List UInt32) (stash : List SimBlock) : SimTree :=
  { s with
    slots := s.slots.take (s.bucketBase nodeIdx) ++ bucket ++ s.slots.drop (s.bucketBase nodeIdx + s.params.bucketSize)
    stash }

def readBucketIntoStash (nodeIdx : Nat) : Eff Error SimTree Unit := do
  let s ← Eff.get
  let bucket ← Eff.lift (s.slice nodeIdx)
  let (bucket, stash) ← Eff.lift (readSlots s.positionMap bucket s.stash)
  Eff.modify fun s => s.withBucket nodeIdx bucket stash

def writeBucketFromStash (depth nodeIdx : Nat) : Eff Error SimTree Unit := do
  let s ← Eff.get
  let bucket ← Eff.lift (s.slice nodeIdx)
  let out := writeSlots (s.params.nodeContainsLeaf depth nodeIdx) bucket s.stash
  Eff.modify fun s => s.withBucket nodeIdx out.1 out.2

/-! ## Paths -/

/-- The nodes of a path with their depths, from the root. -/
def path (p : OramParams) (leaf : UInt32) : List (Nat × Nat) :=
  (List.range p.height).map fun depth => (depth, p.nodeIndex depth leaf)

def readPathIntoStash (leaf : UInt32) : Eff Error SimTree Unit := do
  let s ← Eff.get
  let _ ← Eff.forEach (fun node => readBucketIntoStash node.2) (path s.params leaf)

/-- The loop over a path from its end. -/
def writeFromEnd : List (Nat × Nat) → Eff Error SimTree Unit
  | [] => pure ()
  | (depth, nodeIdx) :: path => do
    writeFromEnd path
    writeBucketFromStash depth nodeIdx

def writePathFromStash (leaf : UInt32) : Eff Error SimTree Unit := do
  let s ← Eff.get
  writeFromEnd (path s.params leaf)

/-! ## Placing -/

/-- The nodes in the order they are tried; `false` when none has a free slot. -/
def placeAlong (id : UInt32) : List Nat → Eff Error SimTree Bool
  | [] => pure false
  | nodeIdx :: path => do
    let s ← Eff.get
    let bucket ← Eff.lift (s.slice nodeIdx)
    match placeId id bucket with
    | some bucket => do
      Eff.modify fun s => s.withBucket nodeIdx bucket s.stash
      pure true
    | none => placeAlong id path

def placeDeepest (block : SimBlock) : Eff Error SimTree Bool := do
  let s ← Eff.get
  placeAlong block.id (s.params.pathNodes block.leaf).reverse

def placeOrStash (block : SimBlock) : Eff Error SimTree Unit := do
  let placed ← placeDeepest block
  if placed then pure () else Eff.modify fun s => { s with stash := s.stash ++ [block] }

/-! ## Removing -/

/-- Whether a bucket on the way held the id, which is then cleared. -/
def removeAlong (logicalId : UInt32) : List Nat → Eff Error SimTree Bool
  | [] => pure false
  | nodeIdx :: path => do
    let s ← Eff.get
    let bucket ← Eff.lift (s.slice nodeIdx)
    match clearId logicalId bucket with
    | some bucket => do
      Eff.modify fun s => s.withBucket nodeIdx bucket s.stash
      pure true
    | none => removeAlong logicalId path

def removeFromPath (logicalId leaf : UInt32) : Eff Error SimTree (Option SimBlock) := do
  let s ← Eff.get
  let found ← removeAlong logicalId (s.params.pathNodes leaf)
  pure (if found then some { id := logicalId, leaf } else none)

def removeFromStash (logicalId : UInt32) : Eff Error SimTree (Option SimBlock) := do
  let s ← Eff.get
  match takeFirst (fun block => block.id == logicalId) s.stash with
  | some (block, stash) => do
    Eff.modify fun s => { s with stash }
    pure (some block)
  | none => pure none

/-- `remove_from_path`, or else `remove_from_stash`. -/
def takeBlock (logicalId leaf : UInt32) : Eff Error SimTree (Option SimBlock) := do
  match ← removeFromPath logicalId leaf with
  | some block => pure (some block)
  | none => removeFromStash logicalId

end SimTree

/-! ## The simulator of `stress.rs` -/

/-- `ChaCha20Rng` as the simulators use it: they draw their leaves with `next_u32`. -/
class SimRng (ρ : Type) extends Rng ρ where
  nextU32 : ρ → UInt32 × ρ

structure CircuitStressSim extends SimTree where
  initStash : Nat
  deriving DecidableEq, Repr

namespace CircuitStressSim

variable {ρ : Type} [SimRng ρ]

def randomLeaf (p : OramParams) (rng : ρ) : UInt32 × ρ :=
  let draw := SimRng.nextU32 rng
  (draw.1 &&& (UInt32.ofNat p.leaves - 1), draw.2)

/-- `access` as both simulators begin it; the leaf the block had. -/
def accessBlock (logicalId : UInt32) : Eff Error (SimTree × ρ) UInt32 := do
  let s ← Eff.get
  let oldLeaf ← Eff.lift (okOr s.1.positionMap[logicalId.toNat]? (.panic "index out of bounds"))
  match ← Eff.zoom (·.1) (fun tree s => (tree, s.2)) (SimTree.takeBlock logicalId oldLeaf) with
  | none => Eff.fail (.blockNotFound logicalId.toUInt64)
  | some block => do
    let s ← Eff.get
    let draw := randomLeaf s.1.params s.2
    Eff.modify fun s =>
      ({ s.1 with
          positionMap := s.1.positionMap.set logicalId.toNat draw.1
          stash := s.1.stash ++ [{ block with leaf := draw.1 }] }, draw.2)
    pure oldLeaf

/-- One id of the initial placement. -/
def placeNext (logicalId : Nat) : Eff Error (SimTree × ρ) Unit := do
  let s ← Eff.get
  let draw := randomLeaf s.1.params s.2
  Eff.modify fun s => ({ s.1 with positionMap := s.1.positionMap ++ [draw.1] }, draw.2)
  Eff.zoom (·.1) (fun tree s => (tree, s.2)) (SimTree.placeOrStash { id := UInt32.ofNat logicalId, leaf := draw.1 })

def new (p : OramParams) (seed : FixedBytes 32) : Result CircuitStressSim :=
  if p.bucketCount * p.bucketSize ≥ 2 ^ 64 then .error (.invalidParams "tree slot count overflow")
  else
    let empty : SimTree :=
      { params := p
        slots := List.replicate (p.bucketCount * p.bucketSize) emptyBlock
        positionMap := []
        stash := [] }
    let run := Eff.forEach placeNext (List.range p.logicalBlocks) (empty, (Rng.fromSeed seed : ρ))
    run.1.map fun _ => { run.2.1 with initStash := run.2.1.stash.length }

def access (logicalId : UInt32) : Eff Error (CircuitStressSim × ρ) Unit := do
  let _ ← Eff.zoom (fun s => (s.1.toSimTree, s.2)) (fun t s => ({ s.1 with toSimTree := t.1 }, t.2)) (accessBlock logicalId)

def evictPath (leaf : UInt32) : Eff Error CircuitStressSim Unit :=
  Eff.zoom (·.toSimTree) (fun tree s => { s with toSimTree := tree }) do
    SimTree.readPathIntoStash leaf
    SimTree.writePathFromStash leaf

end CircuitStressSim
end BpirOram
