/-
  BpirOram.Circuit.Blocks — the controller over a tree of blocks.

  This is what the controller is for, without pages: a bucket is a list of slots, a path
  is taken from and given back to the tree as a whole. The operations are those of
  `CircuitOram`; what a store may do to one of them is a `Fault`, the first of its four
  store calls that fails, and `bracket` says what each leaves behind.
-/

import BpirOram.Circuit.Oram
import BpirOram.Contract

namespace BpirOram

open Lib

structure Blocks (ρ : Type) extends Controller ρ where
  tree : Nat → List OramBlock

/-- Which store call of an operation fails, and how. -/
inductive Fault where
  | none
  | metaRead (e : Error)
  | payloadRead (e : Error)
  | metaWrite (e : Error)
  | payloadWrite (e : Error)
  deriving DecidableEq

/-- How an operation ends whose work did not fail. -/
def Fault.result : Fault → Result Unit
  | .none => .ok ()
  | .metaRead e | .payloadRead e | .metaWrite e | .payloadWrite e => .error e

/-! ## Taking a block off a path -/

/-- The first slot that holds the id, taken out, unless one was taken before. -/
def takeSlots (logicalId : UInt64) : List OramBlock → Removal → List OramBlock × Removal
  | [], r => ([], r)
  | b :: rest, r =>
    if b.logicalIdChoice logicalId && !r.removed then
      (.dummy b.payload.length :: rest, { selected := b, removed := true })
    else
      let tail := takeSlots logicalId rest r
      (b :: tail.1, tail.2)

def takeAlong (logicalId : UInt64) : List Nat → Removal → (Nat → List OramBlock) → (Nat → List OramBlock) × Removal
  | [], r, tree => (tree, r)
  | node :: path, r, tree =>
    let step := takeSlots logicalId (tree node) r
    takeAlong logicalId path step.2 (Function.update tree node step.1)

/-! ## Evicting a path -/

/-- The numbered occupied blocks an eviction pools: the stash, then the path's buckets. -/
def pool (stash : List OramBlock) (buckets : List (List OramBlock)) : List (Nat × OramBlock) :=
  unselected ((stash ++ buckets.flatten).map fun b => (b, false)) 0

/-- What each bucket of the path takes, and what is left. -/
def evicted (p : OramParams) (path : List Nat) (stash : List OramBlock) (buckets : List (List OramBlock)) :
    List (List (Nat × OramBlock)) × List (Nat × OramBlock) :=
  fillLevels p.bucketSize (levelFits p 0 path) (pool stash buckets)

def fillBucket (p : OramParams) (taken : List (Nat × OramBlock)) : List OramBlock :=
  taken.map (·.2) ++ List.replicate (p.bucketSize - taken.length) (.dummy p.blockSize)

/-- The stash without the blocks that found a place. -/
def keptStash (left : List (Nat × OramBlock)) (stash : List OramBlock) : List OramBlock :=
  stash.zipIdx.map fun (b, i) => b.clearIf (b.occupied && !left.any (·.1 == i))

/-- The blocks of the path that found no place. -/
def leftOver (stashLen : Nat) (left : List (Nat × OramBlock)) : List OramBlock :=
  (left.filter fun x => stashLen ≤ x.1).map (·.2)

/-- The blocks into the first empty slots, one after the other. -/
def insertAll : List OramBlock → List OramBlock → List OramBlock
  | [], stash => stash
  | b :: bs, stash => insertAll bs ((insertFirst b stash).getD stash)

/-- New metadata over old payloads: what a path is when only its metadata was written. -/
def mixPages (new old : List OramBlock) : List OramBlock :=
  List.zipWith (fun n o => { n with payload := o.payload }) new old

namespace Blocks

variable {ρ : Type}

def onController {α : Type} (m : Eff Error (Controller ρ) α) : Eff Error (Blocks ρ) α :=
  Eff.zoom (·.toController) (fun c b => { b with toController := c }) m

def removeTarget (path : List Nat) (logicalId : UInt64) : Eff Error (Blocks ρ) Unit := do
  let b ← Eff.get
  let run := takeAlong logicalId path (noRemoval b.params) b.tree
  Eff.modify fun b => { b with tree := run.1 }
  onController (Controller.insertIntoStash run.2.selected)

def evict (path : List Nat) : Eff Error (Blocks ρ) Unit := do
  let b ← Eff.get
  let out := evicted b.params path b.stash (path.map b.tree)
  let kept := keptStash out.2 b.stash
  let back := leftOver b.stash.length out.2
  if back.length > b.params.stashCapacity - kept.countP (·.occupied) then
    Eff.fail (.stashOverflow (kept.countP (·.occupied) + back.length) b.params.stashCapacity)
  else Eff.modify fun b =>
    { b with
      stash := insertAll back kept
      tree := overwrite b.tree (path.zip (out.1.map (fillBucket b.params))) }

/-- An operation's work on its paths, between the reads of both stores and the writes, the
    metadata store first each time. -/
def bracket {α : Type} (fault : Fault) (body : Eff Error (Blocks ρ) α) : Eff Error (Blocks ρ) α := fun b =>
  match fault with
  | .metaRead e => (.error e, b)
  | .payloadRead e => (.error e, b)
  | _ => match body b with
    | (.error e, b') => (.error e, { b' with tree := b.tree })
    | (.ok a, b') => match fault with
      | .metaWrite e => (.error e, { b' with tree := b.tree })
      | .payloadWrite e => (.error e, { b' with tree := fun i => mixPages (b'.tree i) (b.tree i) })
      | _ => (.ok a, b')

section
variable [Rng ρ]

def access (logicalId : UInt64) (update : Update) (fault : Fault) : Eff Error (Blocks ρ) Bytes := do
  let b ← Eff.get
  if logicalId.toNat ≥ b.params.logicalBlocks then
    Eff.fail (.invalidInput s!"logical_id {logicalId.toNat} out of range")
  else do
    bracket fault (removeTarget (b.params.pathNodes (scanPosMapLookup b.posMap logicalId)) logicalId)
    onController (Controller.finishAccess logicalId update)

def serveRequest (logicalId : UInt64) (newLeaf : UInt32) (path : List Nat) (update : Update) :
    Eff Error (Blocks ρ) Bytes := do
  removeTarget path logicalId
  onController (Controller.finishRequest logicalId newLeaf update)

/-- The turns of a batch: each request with its fresh leaf, its path and its update. -/
def batchTurns (p : OramParams) (posMap : List UInt32) (logicalIds : List UInt64) (newLeaves : List UInt32) :
    List (((UInt64 × UInt32) × List Nat) × Nat) :=
  ((logicalIds.zip newLeaves).zip
    ((batchAccessLeaves logicalIds (scanPosMapLookupBatch posMap logicalIds) newLeaves).map p.pathNodes)).zipIdx

/-- The batch between its reads and its writes. -/
def batchBody (logicalIds : List UInt64) (update : Nat → UInt64 → Update) (newLeaves : List UInt32) (nextRng : ρ) :
    Eff Error (Blocks ρ) (List Bytes) := do
  let b ← Eff.get
  let outputs ← Eff.forEach
    (fun (((logicalId, newLeaf), path), k) => serveRequest logicalId newLeaf path (update k logicalId))
    (batchTurns b.params b.posMap logicalIds newLeaves)
  onController (Eff.modify fun c =>
    { c with posMap := scanPosMapUpdateBatch c.posMap logicalIds newLeaves, rng := nextRng })
  pure outputs

def accessBatch (logicalIds : List UInt64) (update : Nat → UInt64 → Update) (fault : Fault) :
    Eff Error (Blocks ρ) (List Bytes) :=
  if logicalIds.isEmpty then pure []
  else do
    let b ← Eff.get
    Eff.lift (CircuitOram.checkLogicalIds b.params.logicalBlocks logicalIds)
    let draw := randomLeaves b.params logicalIds.length b.rng
    let outputs ← bracket fault (batchBody logicalIds update draw.1 draw.2)
    onController Controller.checkStash
    pure outputs

def dummyAccess (fault : Fault) : Eff Error (Blocks ρ) Unit := do
  let b ← Eff.get
  onController (Eff.modify fun c => { c with rng := (randomLeaf b.params b.rng).2 })
  bracket fault (pure ())
  onController (Controller.onSchedule CircuitEvictionSchedule.recordAccess)
  onController Controller.checkStash

def dummyAccessBatch (count : Nat) (fault : Fault) : Eff Error (Blocks ρ) Unit :=
  if count = 0 then pure ()
  else do
    let b ← Eff.get
    onController (Eff.modify fun c => { c with rng := (randomLeaves b.params count b.rng).2 })
    bracket fault (pure ())
    let _ ← Eff.forEach (fun _ => onController (Controller.onSchedule CircuitEvictionSchedule.recordAccess))
      (List.range count)
    onController Controller.checkStash

end

def drainEvictions (budget : UInt64) (fault : Fault) : Eff Error (Blocks ρ) UInt64 := do
  let b ← Eff.get
  let pending ← Eff.lift b.schedule.pendingEvictions
  let toDrain := min budget pending
  if toDrain = 0 then pure 0
  else do
    let paths := CircuitOram.evictionPaths b.toController toDrain
    let _ ← bracket fault (Eff.forEach evict paths)
    let _ ← Eff.forEach (fun _ => onController (Controller.onSchedule CircuitEvictionSchedule.completeOneEviction)) paths
    onController Controller.checkStash
    pure toDrain

end Blocks
end BpirOram
