/-
  BpirOram.Circuit.State — the trusted state (`state.rs`), and reopening a controller from
  it (`from_state`, `snapshot` in `circuit.rs`).
-/

import BpirOram.Circuit.Oram

namespace BpirOram

open Lib

inductive CircuitStoreAuthLayout where
  | tieredMerkle (metaState payloadState : TieredMerkleState)
  | embeddedTree (metaState payloadState : EmbeddedTreeState)
  deriving DecidableEq

structure CircuitStoreAuthState where
  magic : Bytes
  layout : CircuitStoreAuthLayout
  deriving DecidableEq

namespace CircuitStoreAuthState

/-- `BPCSTA01`. -/
def circuitStoreAuthMagic : Bytes := [0x42, 0x50, 0x43, 0x53, 0x54, 0x41, 0x30, 0x31]

def new (metaState payloadState : TieredMerkleState) : CircuitStoreAuthState :=
  { magic := circuitStoreAuthMagic, layout := .tieredMerkle metaState payloadState }

def newEmbedded (metaState payloadState : EmbeddedTreeState) : CircuitStoreAuthState :=
  { magic := circuitStoreAuthMagic, layout := .embeddedTree metaState payloadState }

end CircuitStoreAuthState

structure CircuitOramState (ρ : Type) where
  magic : Bytes
  params : OramParams
  posMap : List UInt32
  stash : List OramBlock
  rng : ρ
  schedule : CircuitEvictionSchedule
  auth : Option CircuitStoreAuthState

namespace CircuitOramState

variable {ρ : Type}

/-- `BPCIRC01`. -/
def circuitStateMagic : Bytes := [0x42, 0x50, 0x43, 0x49, 0x52, 0x43, 0x30, 0x31]

def new (params : OramParams) (posMap : List UInt32) (stash : List OramBlock) (rng : ρ)
    (schedule : CircuitEvictionSchedule) : CircuitOramState ρ :=
  { magic := circuitStateMagic, params, posMap, stash, rng, schedule, auth := none }

def withAuth (state : CircuitOramState ρ) (auth : Option CircuitStoreAuthState) : CircuitOramState ρ :=
  { state with auth }

end CircuitOramState

/-! ## Checks -/

section
variable {M P : Type} [PathPageStore M] [PathPageStore P]

def validateCircuitStores (p : OramParams) (metaStore : M) (payloadStore : P) : Result Unit :=
  if PathPageStore.pageCount metaStore ≠ p.bucketCount then
    .error (.invalidInput s!"metadata store has {PathPageStore.pageCount metaStore} pages, expected {p.bucketCount}")
  else if PathPageStore.pageSize metaStore ≠ circuitMetaPageBytes p.bucketSize then
    .error (.invalidInput
      s!"metadata page_size {PathPageStore.pageSize metaStore} != expected {circuitMetaPageBytes p.bucketSize}")
  else if PathPageStore.pageCount payloadStore ≠ p.bucketCount then
    .error (.invalidInput s!"payload store has {PathPageStore.pageCount payloadStore} pages, expected {p.bucketCount}")
  else if PathPageStore.pageSize payloadStore ≠ circuitPayloadPageBytes p.bucketSize p.blockSize then
    .error (.invalidInput
      s!"payload page_size {PathPageStore.pageSize payloadStore} != expected {circuitPayloadPageBytes p.bucketSize p.blockSize}")
  else .ok ()

def validateLeaves (p : OramParams) : List UInt32 → Result Unit
  | [] => .ok ()
  | leaf :: posMap =>
    if leaf.toNat ≥ p.leaves then .error (.invalidInput s!"leaf {leaf.toNat} out of range") else validateLeaves p posMap

def validateStash (p : OramParams) : List OramBlock → Result Unit
  | [] => .ok ()
  | block :: stash =>
    if block.payload.length ≠ p.blockSize then
      .error (.invalidInput s!"stash payload len {block.payload.length} != block_size {p.blockSize}")
    else if block.occupied && block.leaf.toNat ≥ p.leaves then
      .error (.invalidInput s!"stash leaf {block.leaf.toNat} out of range")
    else validateStash p stash

def validateCircuitState (p : OramParams) (posMap : List UInt32) (stash : List OramBlock)
    (schedule : CircuitEvictionSchedule) : Result Unit := do
  if posMap.length ≠ p.logicalBlocks then
    .error (.invalidInput s!"pos_map len {posMap.length} != logical_blocks {p.logicalBlocks}")
  else do
    validateLeaves p posMap
    validateStash p stash
    schedule.validateForParams p

/-- The sidecar roots if both stores have them, else the embedded roots if both have those. -/
def storeAuthStateFromStores (metaStore : M) (payloadStore : P) : Option CircuitStoreAuthState :=
  match PathPageStore.tieredMerkleState metaStore, PathPageStore.tieredMerkleState payloadStore with
  | some metaState, some payloadState => some (.new metaState payloadState)
  | _, _ => do
    let metaState ← PathPageStore.embeddedTreeState metaStore
    let payloadState ← PathPageStore.embeddedTreeState payloadStore
    some (.newEmbedded metaState payloadState)

def validateBoundAuthState (expected : Option CircuitStoreAuthState) (metaStore : M) (payloadStore : P) : Result Unit :=
  match expected with
  | none => .ok ()
  | some expected => do
    let actual ← okOr (storeAuthStateFromStores metaStore payloadStore)
      (.invalidInput "Circuit ORAM state is bound to auth roots but stores expose no auth state")
    if actual ≠ expected then .error (.invalidInput "Circuit ORAM auth roots do not match controller state")
    else .ok ()

/-! ## Reopening -/

namespace CircuitOram

variable {ρ : Type}

/-- `pad_stash` and `check_stash` on a controller just put together. -/
def padAndCheck (oram : CircuitOram M P ρ) : Result (CircuitOram M P ρ) :=
  let run := (onController Controller.padStash >>= fun _ => onController Controller.checkStash) oram
  run.1.map fun _ => run.2

def fromState (metaStore : M) (payloadStore : P) (state : CircuitOramState ρ) : Result (CircuitOram M P ρ) := do
  validateCircuitStores state.params metaStore payloadStore
  validateCircuitState state.params state.posMap state.stash state.schedule
  validateBoundAuthState state.auth metaStore payloadStore
  padAndCheck
    { params := state.params, metaStore, payloadStore, posMap := state.posMap, stash := state.stash, rng := state.rng
      schedule := state.schedule }

def storeAuthState (oram : CircuitOram M P ρ) : Option CircuitStoreAuthState :=
  storeAuthStateFromStores oram.metaStore oram.payloadStore

def snapshot (oram : CircuitOram M P ρ) : CircuitOramState ρ :=
  (CircuitOramState.new oram.params oram.posMap oram.stash oram.rng oram.schedule).withAuth oram.storeAuthState

end CircuitOram
end

/-! ## What reopening gives -/

theorem validateLeaves_ok {p : OramParams} {posMap : List UInt32} (h : validateLeaves p posMap = .ok ()) :
    ∀ leaf ∈ posMap, leaf.toNat < p.leaves := by
  induction posMap with
  | nil => intro leaf hl; cases hl
  | cons a posMap ih =>
    rw [validateLeaves] at h
    split at h
    · cases h
    · intro leaf hl
      rcases List.mem_cons.mp hl with rfl | hl
      · omega
      · exact ih h leaf hl

section
variable {M P ρ : Type}

/-- Padding and checking succeeds when the stash is not too long, and fills it up. -/
theorem padAndCheck_ok {oram s : CircuitOram M P ρ} (h : oram.padAndCheck = .ok s) :
    oram.stash.length ≤ oram.params.stashCapacity ∧
      s = { oram with
        stash := oram.stash ++ List.replicate (oram.params.stashCapacity - oram.stash.length)
          (.dummy oram.params.blockSize) } := by
  have hpad : CircuitOram.onController Controller.padStash oram
      = (.ok (), { oram with toController :=
          if oram.stash.length > oram.params.stashCapacity then oram.toController
          else { oram.toController with
            stash := oram.stash ++ List.replicate (oram.params.stashCapacity - oram.stash.length)
              (.dummy oram.params.blockSize) } }) := rfl
  simp only [CircuitOram.padAndCheck] at h
  rw [Eff.bind_ok hpad] at h
  by_cases hlen : oram.stash.length > oram.params.stashCapacity
  · -- too long a stash fails one of the two checks
    simp only [if_pos hlen, CircuitOram.onController, Eff.zoom, Controller.checkStash, Eff.get_bind] at h
    rw [Eff.ite_apply, Eff.ite_apply] at h
    split at h
    · cases h
    · rw [if_pos (by omega)] at h
      cases h
  · refine ⟨by omega, ?_⟩
    simp only [if_neg hlen, CircuitOram.onController, Eff.zoom, Controller.checkStash, Eff.get_bind] at h
    rw [Eff.ite_apply, Eff.ite_apply] at h
    split at h
    · cases h
    · split at h
      · cases h
      · cases h
        rfl

variable [PathPageStore M] [PathPageStore P]

/-- A state that reopens was accepted, and the controller is the state's, its stash padded. -/
theorem fromState_ok {metaStore : M} {payloadStore : P} {state : CircuitOramState ρ} {s : CircuitOram M P ρ}
    (h : CircuitOram.fromState metaStore payloadStore state = .ok s) :
    validateCircuitStores state.params metaStore payloadStore = .ok () ∧
      validateCircuitState state.params state.posMap state.stash state.schedule = .ok () ∧
      s = { params := state.params, metaStore, payloadStore, posMap := state.posMap, rng := state.rng
            schedule := state.schedule
            stash := state.stash ++ List.replicate (state.params.stashCapacity - state.stash.length)
              (.dummy state.params.blockSize) } := by
  unfold CircuitOram.fromState at h
  obtain ⟨⟨⟩, hstores, h⟩ := bind_result_ok h
  obtain ⟨⟨⟩, hstate, h⟩ := bind_result_ok h
  obtain ⟨-, -, h⟩ := bind_result_ok h
  exact ⟨hstores, hstate, (padAndCheck_ok h).2⟩

theorem validateCircuitStores_ok {p : OramParams} {metaStore : M} {payloadStore : P}
    (h : validateCircuitStores p metaStore payloadStore = .ok ()) :
    PathPageStore.pageCount metaStore = p.bucketCount ∧
      PathPageStore.pageSize metaStore = circuitMetaPageBytes p.bucketSize ∧
      PathPageStore.pageCount payloadStore = p.bucketCount ∧
      PathPageStore.pageSize payloadStore = circuitPayloadPageBytes p.bucketSize p.blockSize := by
  unfold validateCircuitStores at h
  split at h
  · cases h
  · split at h
    · cases h
    · split at h
      · cases h
      · split at h
        · cases h
        · omega

end
end BpirOram
