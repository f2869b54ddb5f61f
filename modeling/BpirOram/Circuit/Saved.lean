/-
  BpirOram.Circuit.Saved — the trusted state as it is saved and loaded (`state.rs`).

  `bincode` 1 with its default options writes the fields one after another, numbers in
  little-endian order and fixed width, and leaves what follows a value unread. Neither layout
  has a version: bytes that are not a state of the layout of today are read again in the old
  one, which has no store authentication.
-/

import BpirOram.Circuit.State
import BpirOram.Lib.Codec

namespace BpirOram.Saved

open Lib

/-- `bincode::deserialize`. -/
def deserialize {α : Type} (c : Codec α) (bytes : Bytes) : Result α :=
  match c.decode bytes with
  | some x => .ok x.1
  | none => .error .bincode

/-! ## Fields -/

/-- `usize`. -/
def size : Codec Nat := .le 8

/-- `OramParams` as it is loaded: `with_leaves` has not looked at it. -/
structure OramParams where
  logicalBlocks : Nat
  blockSize : Nat
  bucketSize : Nat
  leaves : Nat
  stashCapacity : Nat
  deriving DecidableEq, Repr

def OramParams.codec : Codec OramParams :=
  (size.pair (size.pair (size.pair (size.pair size)))).record
    (fun p => (p.logicalBlocks, p.blockSize, p.bucketSize, p.leaves, p.stashCapacity))
    (fun x => ⟨x.1, x.2.1, x.2.2.1, x.2.2.2.1, x.2.2.2.2⟩) fun _ => rfl

def oramBlock : Codec OramBlock :=
  (Codec.bool.pair (Codec.u64.pair (Codec.u32.pair (Codec.vec .u8)))).record
    (fun block => (block.occupied, block.logicalId, block.leaf, block.payload))
    (fun x => ⟨x.1, x.2.1, x.2.2.1, x.2.2.2⟩) fun _ => rfl

def circuitEvictionSchedule : Codec CircuitEvictionSchedule :=
  ((Codec.le 4).pair (Codec.u64.pair (Codec.u64.pair .u64))).record
    (fun s => (s.leafBits, s.evictionsPerAccess, s.issuedAccesses, s.completedEvictions))
    (fun x => ⟨x.1, x.2.1, x.2.2.1, x.2.2.2⟩) fun _ => rfl

def tieredMerkleState : Codec TieredMerkleState :=
  ((Codec.fixed 16).pair (size.pair (size.pair (size.pair (size.pair (Codec.vec (.fixed 32))))))).record
    (fun s => (s.storeId, s.pageCount, s.pageSize, s.trustedLevels, s.hashPageSize, s.trustedHashes))
    (fun x => ⟨x.1, x.2.1, x.2.2.1, x.2.2.2.1, x.2.2.2.2.1, x.2.2.2.2.2⟩) fun _ => rfl

def embeddedTreeState : Codec EmbeddedTreeState :=
  ((Codec.fixed 16).pair (size.pair (size.pair (.fixed 32)))).record
    (fun s => (s.storeId, s.pageCount, s.logicalPageSize, s.rootHash))
    (fun x => ⟨x.1, x.2.1, x.2.2.1, x.2.2.2⟩) fun _ => rfl

/-! ## Store authentication -/

/-- The variants are numbered from 0. -/
def circuitStoreAuthLayout : Codec CircuitStoreAuthLayout :=
  (Codec.either 4 (tieredMerkleState.pair tieredMerkleState) (embeddedTreeState.pair embeddedTreeState)).record
    (fun layout => match layout with
      | .tieredMerkle metaState payloadState => .inl (metaState, payloadState)
      | .embeddedTree metaState payloadState => .inr (metaState, payloadState))
    (fun x => x.elim (fun s => .tieredMerkle s.1 s.2) fun s => .embeddedTree s.1 s.2) fun layout => by
      cases layout <;> rfl

def circuitStoreAuthState : Codec CircuitStoreAuthState :=
  ((Codec.array 8).pair circuitStoreAuthLayout).record (fun s => (s.magic, s.layout)) (fun x => ⟨x.1, x.2⟩) fun _ => rfl

structure LegacyCircuitStoreAuthState where
  magic : Bytes
  metaState : TieredMerkleState
  payloadState : TieredMerkleState
  deriving DecidableEq

def legacyCircuitStoreAuthState : Codec LegacyCircuitStoreAuthState :=
  ((Codec.array 8).pair (tieredMerkleState.pair tieredMerkleState)).record
    (fun s => (s.magic, s.metaState, s.payloadState)) (fun x => ⟨x.1, x.2.1, x.2.2⟩) fun _ => rfl

namespace CircuitStoreAuthState

def validateMagic (state : BpirOram.CircuitStoreAuthState) : Result Unit :=
  if state.magic ≠ BpirOram.CircuitStoreAuthState.circuitStoreAuthMagic then
    .error (.invalidInput "invalid Circuit ORAM store-auth magic")
  else .ok ()

def fromBytes (bytes : Bytes) : Result BpirOram.CircuitStoreAuthState :=
  match deserialize circuitStoreAuthState bytes with
  | .ok state => do
    validateMagic state
    .ok state
  | .error newErr => do
    let legacy ← (deserialize legacyCircuitStoreAuthState bytes).mapError fun _ => newErr
    if legacy.magic ≠ BpirOram.CircuitStoreAuthState.circuitStoreAuthMagic then
      .error (.invalidInput "invalid Circuit ORAM store-auth magic")
    else .ok (.new legacy.metaState legacy.payloadState)

end CircuitStoreAuthState

/-! ## The controller -/

structure LegacyCircuitOramState (ρ : Type) where
  magic : Bytes
  params : OramParams
  posMap : List UInt32
  stash : List OramBlock
  rng : ρ
  schedule : CircuitEvictionSchedule

structure CircuitOramState (ρ : Type) extends LegacyCircuitOramState ρ where
  auth : Option CircuitStoreAuthState

/-- The old layout is the layout of today without its last field. -/
def legacyCircuitOramState {ρ : Type} (rng : Codec ρ) : Codec (LegacyCircuitOramState ρ) :=
  ((Codec.array 8).pair (OramParams.codec.pair ((Codec.vec .u32).pair ((Codec.vec oramBlock).pair
    (rng.pair circuitEvictionSchedule))))).record
    (fun s => (s.magic, s.params, s.posMap, s.stash, s.rng, s.schedule))
    (fun x => ⟨x.1, x.2.1, x.2.2.1, x.2.2.2.1, x.2.2.2.2.1, x.2.2.2.2.2⟩) fun _ => rfl

def circuitOramState {ρ : Type} (rng : Codec ρ) : Codec (CircuitOramState ρ) :=
  ((legacyCircuitOramState rng).pair (.option circuitStoreAuthState)).record
    (fun s => (s.toLegacyCircuitOramState, s.auth)) (fun x => ⟨x.1, x.2⟩) fun _ => rfl

namespace CircuitOramState

variable {ρ : Type}

open BpirOram.CircuitOramState (circuitStateMagic)

def new (params : OramParams) (posMap : List UInt32) (stash : List OramBlock) (rng : ρ)
    (schedule : CircuitEvictionSchedule) : CircuitOramState ρ :=
  { magic := circuitStateMagic, params, posMap, stash, rng, schedule, auth := none }

def withAuth (state : CircuitOramState ρ) (auth : Option CircuitStoreAuthState) : CircuitOramState ρ :=
  { state with auth }

/-- A state of accepted sizes. -/
def ofState (state : BpirOram.CircuitOramState ρ) : CircuitOramState ρ where
  magic := state.magic
  params :=
    { logicalBlocks := state.params.logicalBlocks
      blockSize := state.params.blockSize
      bucketSize := state.params.bucketSize
      leaves := state.params.leaves
      stashCapacity := state.params.stashCapacity }
  posMap := state.posMap
  stash := state.stash
  rng := state.rng
  schedule := state.schedule
  auth := state.auth

def validateMagic (state : CircuitOramState ρ) : Result Unit :=
  if state.magic ≠ circuitStateMagic then .error (.invalidInput "invalid Circuit ORAM state magic") else .ok ()

def fromBytes (rng : Codec ρ) (bytes : Bytes) : Result (CircuitOramState ρ) :=
  match deserialize (circuitOramState rng) bytes with
  | .ok state => do
    state.validateMagic
    .ok state
  | .error newErr => do
    let legacy ← (deserialize (legacyCircuitOramState rng) bytes).mapError fun _ => newErr
    if legacy.magic ≠ circuitStateMagic then .error (.invalidInput "invalid Circuit ORAM state magic")
    else .ok { legacy with auth := none }

end CircuitOramState
end BpirOram.Saved
