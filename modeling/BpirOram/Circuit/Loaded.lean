/-
  BpirOram.Circuit.Loaded — what loading makes of the bytes of a state.

  Bytes of the old layout end where the layout of today goes on with the authentication, so
  they are never taken for it; nor is an old sidecar, which has a store id where the layout
  of today has the number of a variant.
  - `saved_loads`: states and sidecars of both layouts load as what was saved.
  - `CircuitOramState.fromBytes_prefix`: what a cut leaves of a state with authentication.
-/

import BpirOram.Circuit.Saved
import BpirOram.Circuit.Run

namespace BpirOram.Saved

open Lib
open BpirOram.CircuitOramState (circuitStateMagic)
open BpirOram.CircuitStoreAuthState (circuitStoreAuthMagic)

variable {M P S ρ : Type}

theorem deserialize_of {α : Type} {c : Codec α} {bytes rest : Bytes} {a : α} (h : c.decode bytes = some (a, rest)) :
    deserialize c bytes = .ok a := by
  rw [deserialize, h]

theorem deserialize_none {α : Type} {c : Codec α} {bytes : Bytes} (h : c.decode bytes = none) :
    deserialize c bytes = .error .bincode := by
  rw [deserialize, h]

/-! ## What fits -/

def OramParams.InRange (p : OramParams) : Prop :=
  p.logicalBlocks < 2 ^ 64 ∧ p.blockSize < 2 ^ 64 ∧ p.bucketSize < 2 ^ 64 ∧ p.leaves < 2 ^ 64 ∧ p.stashCapacity < 2 ^ 64

instance (p : OramParams) : Decidable p.InRange := inferInstanceAs (Decidable (_ ∧ _))

/-- The ranges of the Rust types: a `usize`, so also a length, is below 2^64. -/
structure LegacyCircuitOramState.InRange (s : LegacyCircuitOramState ρ) : Prop where
  magic : s.magic.length = 8
  params : s.params.InRange
  posMap : s.posMap.length < 2 ^ 64
  stash : s.stash.length < 2 ^ 64
  payloads : ∀ block ∈ s.stash, block.payload.length < 2 ^ 64
  leafBits : s.schedule.leafBits < 2 ^ 32

theorem oramBlock_fits (block : OramBlock) : oramBlock.Fits block ↔ block.payload.length < 2 ^ 64 := by
  constructor
  · rintro ⟨-, -, -, hlen, -⟩
    exact hlen
  · intro h
    exact ⟨Codec.bool_fits _, Codec.u64_fits _, Codec.u32_fits _, h, fun _ _ => Codec.u8_fits _⟩

theorem legacyCircuitOramState_fits (rng : Codec ρ) (s : LegacyCircuitOramState ρ) :
    (legacyCircuitOramState rng).Fits s ↔ s.InRange ∧ rng.Fits s.rng := by
  constructor
  · rintro ⟨hmagic, hparams, ⟨hpos, -⟩, ⟨hstash, hblocks⟩, hrng, hbits, -⟩
    exact ⟨⟨hmagic, hparams, hpos, hstash, fun block hb => (oramBlock_fits block).mp (hblocks block hb), hbits⟩, hrng⟩
  · rintro ⟨h, hrng⟩
    exact ⟨h.magic, h.params, ⟨h.posMap, fun _ _ => Codec.u32_fits _⟩,
      ⟨h.stash, fun block hb => (oramBlock_fits block).mpr (h.payloads block hb)⟩, hrng, h.leafBits,
      Codec.u64_fits _, Codec.u64_fits _, Codec.u64_fits _⟩

theorem tieredMerkleState_fits (s : TieredMerkleState) : tieredMerkleState.Fits s ↔ s.pageCount < 2 ^ 64 ∧
    s.pageSize < 2 ^ 64 ∧ s.trustedLevels < 2 ^ 64 ∧ s.hashPageSize < 2 ^ 64 ∧ s.trustedHashes.length < 2 ^ 64 := by
  constructor
  · rintro ⟨-, hcount, hsize, hlevels, hhash, hlen, -⟩
    exact ⟨hcount, hsize, hlevels, hhash, hlen⟩
  · rintro ⟨hcount, hsize, hlevels, hhash, hlen⟩
    exact ⟨Codec.fixed_fits _, hcount, hsize, hlevels, hhash, hlen, fun _ _ => Codec.fixed_fits _⟩

theorem embeddedTreeState_fits (s : EmbeddedTreeState) :
    embeddedTreeState.Fits s ↔ s.pageCount < 2 ^ 64 ∧ s.logicalPageSize < 2 ^ 64 := by
  constructor
  · rintro ⟨-, hcount, hsize, -⟩
    exact ⟨hcount, hsize⟩
  · rintro ⟨hcount, hsize⟩
    exact ⟨Codec.fixed_fits _, hcount, hsize, Codec.fixed_fits _⟩

theorem newEmbedded_fits (metaState payloadState : EmbeddedTreeState) :
    circuitStoreAuthState.Fits (.newEmbedded metaState payloadState) ↔
      embeddedTreeState.Fits metaState ∧ embeddedTreeState.Fits payloadState := by
  constructor
  · rintro ⟨-, -, hboth⟩
    exact hboth
  · exact fun hboth => ⟨rfl, by decide, hboth⟩

/-! ## Both layouts on the same bytes -/

section
variable (rng : Codec ρ)

/-- The fields of the old layout, then the authentication. -/
theorem circuitOramState_decode {bytes rest : Bytes} {legacy : LegacyCircuitOramState ρ}
    (h : (legacyCircuitOramState rng).decode bytes = some (legacy, rest)) :
    (circuitOramState rng).decode bytes
      = ((Codec.option circuitStoreAuthState).decode rest).map fun x => ({ legacy with auth := x.1 }, x.2) := by
  rw [circuitOramState, Codec.record_decode, Codec.pair_decode h, Option.map_map]
  rfl

theorem circuitOramState_decode_none {bytes : Bytes} (h : (legacyCircuitOramState rng).decode bytes = none) :
    (circuitOramState rng).decode bytes = none := by
  rw [circuitOramState, Codec.record_decode, Codec.pair_none h, Option.map_none]

variable {rng}

/-- Bytes without an authentication load as the old layout. -/
theorem CircuitOramState.fromBytes_legacy {bytes rest : Bytes} {legacy : LegacyCircuitOramState ρ}
    (h : (legacyCircuitOramState rng).decode bytes = some (legacy, rest))
    (hrest : (Codec.option circuitStoreAuthState).decode rest = none) (hmagic : legacy.magic = circuitStateMagic) :
    CircuitOramState.fromBytes rng bytes = .ok { legacy with auth := none } := by
  have hnone : (circuitOramState rng).decode bytes = none := by rw [circuitOramState_decode rng h, hrest, Option.map_none]
  rw [CircuitOramState.fromBytes, deserialize_none hnone, deserialize_of h]
  exact if_neg (not_not_intro hmagic)

theorem CircuitOramState.fromBytes_none {bytes : Bytes} (h : (legacyCircuitOramState rng).decode bytes = none) :
    CircuitOramState.fromBytes rng bytes = .error .bincode := by
  rw [CircuitOramState.fromBytes, deserialize_none (circuitOramState_decode_none rng h), deserialize_none h]
  rfl

end

/-! ## What was saved -/

/-- `bpir`. -/
def bpir : Bytes := [0x62, 0x70, 0x69, 0x72]

theorem CircuitStoreAuthState.fromBytes_saved {state : BpirOram.CircuitStoreAuthState} (h : circuitStoreAuthState.Fits state)
    (hmagic : state.magic = circuitStoreAuthMagic) :
    CircuitStoreAuthState.fromBytes (circuitStoreAuthState.encode state) = .ok state := by
  rw [CircuitStoreAuthState.fromBytes, deserialize_of (circuitStoreAuthState.decode_all h)]
  simp only [CircuitStoreAuthState.validateMagic, if_neg (not_not_intro hmagic)]
  rfl

/-- An old sidecar: where the variant stands there is a store id. -/
theorem CircuitStoreAuthState.fromBytes_legacy {legacy : LegacyCircuitStoreAuthState}
    (h : legacyCircuitStoreAuthState.Fits legacy) (hmagic : legacy.magic = circuitStoreAuthMagic)
    (hid : legacy.metaState.storeId.val.take 4 = bpir) :
    CircuitStoreAuthState.fromBytes (legacyCircuitStoreAuthState.encode legacy)
      = .ok (.new legacy.metaState legacy.payloadState) := by
  obtain ⟨fields, hfields⟩ : ∃ fields, tieredMerkleState.encode legacy.metaState = legacy.metaState.storeId.val ++ fields :=
    ⟨_, rfl⟩
  have hbytes : legacyCircuitStoreAuthState.encode legacy = legacy.magic ++ (bpir ++ (legacy.metaState.storeId.val.drop 4
      ++ fields ++ tieredMerkleState.encode legacy.payloadState)) := by
    rw [← hid, ← List.append_assoc (legacy.metaState.storeId.val.take 4),
      ← List.append_assoc (legacy.metaState.storeId.val.take 4),
      List.take_append_drop, ← hfields]
    rfl
  have hnone : circuitStoreAuthState.decode (legacyCircuitStoreAuthState.encode legacy) = none := by
    have hlen : bpir.length = 4 := rfl
    have hlayout : ∀ rest, circuitStoreAuthLayout.decode (bpir ++ rest) = none := by
      intro rest
      rw [circuitStoreAuthLayout, Codec.record_decode, Codec.either_none hlen (by decide) (by decide), Option.map_none]
    have hfront : ∀ rest, (Codec.array 8).decode (legacy.magic ++ rest) = some (legacy.magic, rest) :=
      (Codec.array 8).decode_encode h.1
    rw [hbytes, circuitStoreAuthState, Codec.record_decode, Codec.pair_decode (hfront _), hlayout]
    rfl
  rw [CircuitStoreAuthState.fromBytes, deserialize_none hnone, deserialize_of (legacyCircuitStoreAuthState.decode_all h)]
  exact if_neg (not_not_intro hmagic)

theorem CircuitOramState.fromBytes_saved {rng : Codec ρ} {state : CircuitOramState ρ} (h : (circuitOramState rng).Fits state)
    (hmagic : state.magic = circuitStateMagic) :
    CircuitOramState.fromBytes rng ((circuitOramState rng).encode state) = .ok state := by
  rw [CircuitOramState.fromBytes, deserialize_of ((circuitOramState rng).decode_all h)]
  simp only [CircuitOramState.validateMagic, if_neg (not_not_intro hmagic)]
  rfl

/-- States and sidecars of both layouts load as what was saved, an old state without
    authentication. -/
theorem saved_loads (rng : Codec ρ) :
    (∀ (params : OramParams) (posMap : List UInt32) (stash : List OramBlock) (r : ρ) (schedule : CircuitEvictionSchedule)
        (auth : Option CircuitStoreAuthState) (state : CircuitOramState ρ),
      state = (CircuitOramState.new params posMap stash r schedule).withAuth auth → (circuitOramState rng).Fits state →
        CircuitOramState.fromBytes rng ((circuitOramState rng).encode state) = .ok state) ∧
    (∀ legacy : LegacyCircuitOramState ρ, (legacyCircuitOramState rng).Fits legacy → legacy.magic = circuitStateMagic →
      CircuitOramState.fromBytes rng ((legacyCircuitOramState rng).encode legacy) = .ok { legacy with auth := none }) ∧
    (∀ state : BpirOram.CircuitStoreAuthState, circuitStoreAuthState.Fits state → state.magic = circuitStoreAuthMagic →
      CircuitStoreAuthState.fromBytes (circuitStoreAuthState.encode state) = .ok state) ∧
    ∀ legacy : LegacyCircuitStoreAuthState, legacyCircuitStoreAuthState.Fits legacy → legacy.magic = circuitStoreAuthMagic →
      legacy.metaState.storeId.val.take 4 = bpir →
        CircuitStoreAuthState.fromBytes (legacyCircuitStoreAuthState.encode legacy)
          = .ok (.new legacy.metaState legacy.payloadState) := by
  refine ⟨fun params posMap stash r schedule auth state hstate hfits => ?_, fun legacy hfits hmagic => ?_,
    fun state hfits hmagic => ?_, fun legacy hfits hmagic hid => ?_⟩
  · have hmagic : state.magic = circuitStateMagic := by rw [hstate]; rfl
    exact CircuitOramState.fromBytes_saved hfits hmagic
  · exact CircuitOramState.fromBytes_legacy ((legacyCircuitOramState rng).decode_all hfits) rfl hmagic
  · exact CircuitStoreAuthState.fromBytes_saved hfits hmagic
  · exact CircuitStoreAuthState.fromBytes_legacy hfits hmagic hid

/-- A controller's snapshot loads as it was taken. -/
theorem snapshot_loads [PageStore M] [PageStore P] [TrustedBlockSource S] [Rng ρ] {p : BpirOram.OramParams}
    {HM : HonestStore M} {HP : HonestStore P} {HS : HonestSource S} {Fails : CircuitOram M P ρ → Op → Prop}
    {s : CircuitOram M P ρ} {v : Memory} (h : Reached p HM HP HS Fails s v) (rng : Codec ρ) (hrng : rng.Fits s.rng)
    (hblock : p.blockSize < 2 ^ 64) (hbucket : p.bucketSize < 2 ^ 64) (hcapacity : p.stashCapacity < 2 ^ 64)
    (hauth : ∀ auth, s.storeAuthState = some auth → circuitStoreAuthState.Fits auth) :
    CircuitOramState.fromBytes rng ((circuitOramState rng).encode (.ofState s.snapshot)) = .ok (.ofState s.snapshot) := by
  obtain ⟨b, hrel, hsound⟩ := h.sound
  have hc := hsound.shape.controller
  rw [← hrel.controller] at hc
  have hfits : (circuitOramState rng).Fits (.ofState s.snapshot) := by
    refine ⟨(legacyCircuitOramState_fits rng _).mpr ⟨?_, hrng⟩, ?_⟩
    · refine { magic := rfl, params := ?_, posMap := ?_, stash := ?_, payloads := fun block hb => ?_, leafBits := ?_ }
      · have hparams : s.params = p := hc.params
        have hleaves : p.leaves < 2 ^ 64 := p.leaves_lt.trans (by decide)
        subst hparams
        exact ⟨s.params.logicalBlocks_lt, hblock, hbucket, hleaves, hcapacity⟩
      · exact hc.posMap ▸ p.logicalBlocks_lt
      · exact hc.stash ▸ hcapacity
      · exact hc.payload block hb ▸ hblock
      · exact hc.leafBits ▸ p.leafBits_lt.trans (by decide)
    · change (Codec.option circuitStoreAuthState).Fits s.storeAuthState
      cases hstate : s.storeAuthState with
      | none => exact Codec.option_fits_none _
      | some auth => exact (Codec.option_fits_some _ _).mpr (hauth auth hstate)
  exact CircuitOramState.fromBytes_saved hfits rfl

/-! ## What a cut leaves -/

section
variable {rng : Codec ρ} {state : CircuitOramState ρ}

/-- A cut before the end of the old fields is in neither layout. -/
theorem CircuitOramState.fromBytes_take_lt (h : (circuitOramState rng).Fits state) {n : Nat}
    (hn : n < ((legacyCircuitOramState rng).encode state.toLegacyCircuitOramState).length) :
    CircuitOramState.fromBytes rng (((circuitOramState rng).encode state).take n) = .error .bincode := by
  have hbytes : ((circuitOramState rng).encode state).take n
      = ((legacyCircuitOramState rng).encode state.toLegacyCircuitOramState).take n :=
    List.take_append_of_le_length (Nat.le_of_lt hn)
  rw [hbytes]
  exact CircuitOramState.fromBytes_none ((legacyCircuitOramState rng).decode_strictPrefix h.1 hn)

/-- A cut at the end of the old fields or in the authentication leaves the old layout, with
    a rest that is not read. -/
theorem CircuitOramState.fromBytes_take_ge (h : (circuitOramState rng).Fits state) (hmagic : state.magic = circuitStateMagic)
    {n : Nat} (hle : ((legacyCircuitOramState rng).encode state.toLegacyCircuitOramState).length ≤ n)
    (hn : n < ((circuitOramState rng).encode state).length) :
    CircuitOramState.fromBytes rng (((circuitOramState rng).encode state).take n) = .ok { state with auth := none } := by
  have happend : (circuitOramState rng).encode state = (legacyCircuitOramState rng).encode state.toLegacyCircuitOramState
      ++ (Codec.option circuitStoreAuthState).encode state.auth := rfl
  have hrest : n - ((legacyCircuitOramState rng).encode state.toLegacyCircuitOramState).length
      < ((Codec.option circuitStoreAuthState).encode state.auth).length := by
    rw [happend, List.length_append] at hn
    omega
  rw [happend, List.take_append, List.take_of_length_le hle]
  exact CircuitOramState.fromBytes_legacy ((legacyCircuitOramState rng).decode_encode h.1 _)
    (Codec.decode_strictPrefix _ h.2 hrest) hmagic

end

/-- A strict prefix of a state, its authentication at the end: too short for the old fields it is
    refused; the old fields alone are a state of the old layout and load as one; and nothing
    else is ever loaded from one, no other field and no other roots. -/
theorem CircuitOramState.fromBytes_prefix (rng : Codec ρ) {state : CircuitOramState ρ} (h : (circuitOramState rng).Fits state)
    (hmagic : state.magic = circuitStateMagic) {n : Nat} (hn : n < ((circuitOramState rng).encode state).length) :
    (n < ((legacyCircuitOramState rng).encode state.toLegacyCircuitOramState).length →
      fromBytes rng (((circuitOramState rng).encode state).take n) = .error .bincode) ∧
    (n = ((legacyCircuitOramState rng).encode state.toLegacyCircuitOramState).length →
      ((circuitOramState rng).encode state).take n = (legacyCircuitOramState rng).encode state.toLegacyCircuitOramState ∧
        fromBytes rng (((circuitOramState rng).encode state).take n) = .ok { state with auth := none }) ∧
    ∀ loaded, fromBytes rng (((circuitOramState rng).encode state).take n) = .ok loaded →
      loaded = { state with auth := none } := by
  refine ⟨fun hlt => CircuitOramState.fromBytes_take_lt h hlt, fun heq => ?_, fun loaded hloaded => ?_⟩
  · exact ⟨heq ▸ List.take_left, CircuitOramState.fromBytes_take_ge h hmagic (Nat.le_of_eq heq.symm) hn⟩
  · rcases Nat.lt_or_ge n ((legacyCircuitOramState rng).encode state.toLegacyCircuitOramState).length with hlt | hge
    · rw [CircuitOramState.fromBytes_take_lt h hlt] at hloaded
      cases hloaded
    · rw [CircuitOramState.fromBytes_take_ge h hmagic hge hn] at hloaded
      exact (Except.ok.inj hloaded).symm

/-! ## A small state -/

/-- How a `ChaCha20Rng` is saved: seed, stream and position. -/
def chaChaState : Codec (FixedBytes 32 × UInt64 × Nat) := (Codec.fixed 32).pair (Codec.u64.pair (.le 16))

/-- `bpir-idx-meta-v1`. -/
def indexMetaId : FixedBytes 16 :=
  ⟨[0x62, 0x70, 0x69, 0x72, 0x2d, 0x69, 0x64, 0x78, 0x2d, 0x6d, 0x65, 0x74, 0x61, 0x2d, 0x76, 0x31], rfl⟩

def sampleRoots : EmbeddedTreeState where
  storeId := indexMetaId
  pageCount := 8
  logicalPageSize := 64
  rootHash := ⟨List.replicate 32 7, List.length_replicate⟩

def sampleTiers : TieredMerkleState where
  storeId := indexMetaId
  pageCount := 8
  pageSize := 64
  trustedLevels := 2
  hashPageSize := 4096
  trustedHashes := [0, 1, 2, 3].map fun byte => ⟨List.replicate 32 byte, List.length_replicate⟩

def sampleCircuitState : CircuitOramState (FixedBytes 32 × UInt64 × Nat) :=
  .new ⟨4, 8, 4, 4, 512⟩ [0, 1, 2, 3] [] (⟨List.replicate 32 4, List.length_replicate⟩, 0, 0) ⟨2, 2, 1, 0⟩

/-- The same state, bound to the roots of its stores. -/
def boundCircuitState : CircuitOramState (FixedBytes 32 × UInt64 × Nat) :=
  sampleCircuitState.withAuth (some (.newEmbedded sampleRoots sampleRoots))

theorem boundCircuitState_fits : (circuitOramState chaChaState).Fits boundCircuitState := by
  have hroots : embeddedTreeState.Fits sampleRoots := (embeddedTreeState_fits _).mpr (by decide)
  refine ⟨(legacyCircuitOramState_fits chaChaState _).mpr ⟨?_, ?_⟩, ?_⟩
  · exact { magic := rfl, params := by decide, posMap := by decide, stash := by decide
            payloads := fun _ hb => absurd hb List.not_mem_nil, leafBits := by decide }
  · exact ⟨Codec.fixed_fits _, Codec.u64_fits _, Nat.pow_pos (by decide)⟩
  · exact (Codec.option_fits_some _ _).mpr ((newEmbedded_fits _ _).mpr ⟨hroots, hroots⟩)

theorem saved_loads_bound :
    CircuitOramState.fromBytes chaChaState ((circuitOramState chaChaState).encode boundCircuitState) = .ok boundCircuitState ∧
    CircuitOramState.fromBytes chaChaState
      ((legacyCircuitOramState chaChaState).encode boundCircuitState.toLegacyCircuitOramState) = .ok sampleCircuitState ∧
    CircuitStoreAuthState.fromBytes (circuitStoreAuthState.encode (.newEmbedded sampleRoots sampleRoots))
      = .ok (.newEmbedded sampleRoots sampleRoots) ∧
    CircuitStoreAuthState.fromBytes (legacyCircuitStoreAuthState.encode ⟨circuitStoreAuthMagic, sampleTiers, sampleTiers⟩)
      = .ok (.new sampleTiers sampleTiers) := by
  obtain ⟨hstate, hlegacy, hsidecar, hold⟩ := saved_loads chaChaState
  have hroots : embeddedTreeState.Fits sampleRoots := (embeddedTreeState_fits _).mpr (by decide)
  have htiers : tieredMerkleState.Fits sampleTiers := (tieredMerkleState_fits _).mpr (by decide)
  exact ⟨hstate _ _ _ _ _ _ _ rfl boundCircuitState_fits, hlegacy _ boundCircuitState_fits.1 rfl,
    hsidecar _ ((newEmbedded_fits _ _).mpr ⟨hroots, hroots⟩) rfl, hold _ ⟨rfl, htiers, htiers⟩ rfl rfl⟩

theorem fromBytes_prefix_bound :
    CircuitOramState.fromBytes chaChaState (((circuitOramState chaChaState).encode boundCircuitState).take 100)
      = .error .bincode ∧
    CircuitOramState.fromBytes chaChaState (((circuitOramState chaChaState).encode boundCircuitState).take 164)
      = .ok sampleCircuitState := by
  have hlen : ((legacyCircuitOramState chaChaState).encode boundCircuitState.toLegacyCircuitOramState).length = 164 := by
    decide +kernel
  have hall : 164 < ((circuitOramState chaChaState).encode boundCircuitState).length := by decide +kernel
  have hfew : 100 < ((circuitOramState chaChaState).encode boundCircuitState).length := Nat.lt_trans (by decide) hall
  have hshort := CircuitOramState.fromBytes_prefix chaChaState boundCircuitState_fits rfl hfew
  have hold := CircuitOramState.fromBytes_prefix chaChaState boundCircuitState_fits rfl hall
  exact ⟨hshort.1 (by rw [hlen]; decide), (hold.2.1 hlen.symm).2⟩

/-- The bound state cut where the old layout ends: it loads, and its roots are gone. -/
theorem bound_state_cut :
    boundCircuitState.auth ≠ none ∧ sampleCircuitState.auth = none ∧
    ((legacyCircuitOramState chaChaState).encode boundCircuitState.toLegacyCircuitOramState).length
      < ((circuitOramState chaChaState).encode boundCircuitState).length ∧
    CircuitOramState.fromBytes chaChaState (((circuitOramState chaChaState).encode boundCircuitState).take
      ((legacyCircuitOramState chaChaState).encode boundCircuitState.toLegacyCircuitOramState).length)
        = .ok sampleCircuitState := by
  have hlt : ((legacyCircuitOramState chaChaState).encode boundCircuitState.toLegacyCircuitOramState).length
      < ((circuitOramState chaChaState).encode boundCircuitState).length := by decide +kernel
  refine ⟨?_, rfl, hlt, CircuitOramState.fromBytes_take_ge boundCircuitState_fits rfl (Nat.le_refl _) hlt⟩
  decide

end BpirOram.Saved
