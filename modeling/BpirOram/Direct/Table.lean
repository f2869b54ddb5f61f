/-
  BpirOram.Direct.Table — source tables of the direct layout and their metadata
  (`direct.rs`), and where a packed item is.

  A source file is its path and its bytes; that a file does not change between its checks
  and its mapping is assumed by the crate. Sizes are natural numbers, and their products are
  those of a release build: a table whose payload size wraps is accepted with what is left of
  it. A load factor is the rational an `f64` stands for (NaN and the infinities are refused
  first of all), and what an `f64` operation does to an exact result is the parameter `round`.
-/

import BpirOram.Direct.Bins
import BpirOram.Circuit.State

namespace BpirOram

open Lib

/-- A file, of a length that a `u64` holds. -/
structure SourceFile where
  path : String
  bytes : Bytes
  bytes_lt : bytes.length < 2 ^ 64 := by decide +kernel

/-- `b[start..start + len]`, which panics out of range. -/
def byteRange (b : Bytes) (start len : Nat) : Result Bytes := do
  checkRange b.length start len
  .ok (slice b start len)

/-- Where a packed item is: `PackedDirectItemLocation` and `PackedCuckooBinLocation`. -/
structure PackedItemLocation where
  logicalBlock : Nat
  byteOffset : Nat
  byteLen : Nat
  deriving DecidableEq

/-- `locate_packed_…`, with the words of its messages. -/
def locatePacked (perBlock size id : String) (totalItems itemsPerBlock itemSize itemId : Nat) : Result PackedItemLocation :=
  if itemsPerBlock = 0 then .error (.invalidInput s!"{perBlock} must be > 0")
  else if itemSize = 0 then .error (.invalidInput s!"{size} must be > 0")
  else if itemId ≥ totalItems then .error (.invalidInput s!"{id} {itemId} out of range {totalItems}")
  else
    let slotInBlock := itemId % itemsPerBlock
    .ok { logicalBlock := itemId / itemsPerBlock, byteOffset := usizeMul slotInBlock itemSize, byteLen := itemSize }

namespace Direct

def indexInputRecordSize : Nat := scriptHashSize + 4 + 1
def indexSlotSize : Nat := 1 + indexInputRecordSize
def chunkRecordSize : Nat := 40
def metadataVersion : Nat := 1

inductive Level where
  | index
  | chunk
  deriving DecidableEq, Repr

def Level.label : Level → String
  | index => "index"
  | chunk => "chunk"

structure TableInfo where
  level : Level
  source : SourceFile
  records : Nat
  slotsPerBin : Nat
  hashFns : Nat
  loadFactor : Rat
  seed : UInt64
  totalItems : Nat
  itemSize : Nat

/-- `as usize` of an `f64`: the integral part, saturated. -/
def asUsize (x : Rat) : Nat := min x.floor.toNat (2 ^ 64 - 1)

def computeDirectIndexBins (round : Rat → Rat) (records slotsPerBin : Nat) (loadFactor : Rat) : Nat :=
  if records = 0 then 0
  else
    let perBin := round (round slotsPerBin * loadFactor)
    let bins := asUsize (round (round records / perBin)).ceil
    max bins 1

def TableInfo.fromIndexFile (round : Rat → Rat) (source : SourceFile) (slotsPerBin hashFns : Nat) (loadFactor : Rat)
    (seed : UInt64) : Result TableInfo :=
  if slotsPerBin = 0 then .error (.invalidInput "slots_per_bin must be > 0")
  else if hashFns = 0 then .error (.invalidInput "hash_fns must be > 0")
  else if ¬ (0 < loadFactor ∧ loadFactor < 1) then
    .error (.invalidInput "load_factor must be greater than 0 and less than 1")
  else if source.bytes.length % indexInputRecordSize ≠ 0 then
    .error (.invalidInput
      s!"direct index file {source.path} has {source.bytes.length} bytes, not a multiple of {indexInputRecordSize}")
  else
    let records := source.bytes.length / indexInputRecordSize
    .ok
      { level := .index, source, records, slotsPerBin, hashFns, loadFactor, seed
        totalItems := computeDirectIndexBins round records slotsPerBin loadFactor
        itemSize := usizeMul slotsPerBin indexSlotSize }

def TableInfo.fromChunksFile (source : SourceFile) : Result TableInfo :=
  if source.bytes.length % chunkRecordSize ≠ 0 then
    .error (.invalidInput
      s!"direct chunks file {source.path} has {source.bytes.length} bytes, not a multiple of {chunkRecordSize}")
  else
    let records := source.bytes.length / chunkRecordSize
    .ok
      { level := .chunk, source, records, slotsPerBin := 1, hashFns := 0, loadFactor := 1, seed := 0
        totalItems := records, itemSize := chunkRecordSize }

structure TableMetadata where
  version : Nat
  level : Level
  totalItems : Nat
  itemSize : Nat
  itemsPerBlock : Nat
  slotsPerBin : Nat
  hashFns : Nat
  seed : UInt64
  logicalBlocks : Nat
  blockPayloadBytes : Nat
  deriving DecidableEq

namespace TableMetadata

def fromInfo (info : TableInfo) (itemsPerBlock : Nat) : Result TableMetadata :=
  if itemsPerBlock = 0 then .error (.invalidInput "items_per_block must be > 0")
  else .ok
    { version := metadataVersion, level := info.level, totalItems := info.totalItems, itemSize := info.itemSize
      itemsPerBlock, slotsPerBin := info.slotsPerBin, hashFns := info.hashFns, seed := info.seed
      logicalBlocks := divCeil info.totalItems itemsPerBlock, blockPayloadBytes := usizeMul info.itemSize itemsPerBlock }

def validate (m : TableMetadata) : Result Unit :=
  if m.version ≠ metadataVersion then .error (.invalidInput s!"unsupported direct metadata version {m.version}")
  else if m.itemsPerBlock = 0 then .error (.invalidInput "direct metadata has items_per_block=0")
  else if m.itemSize = 0 then .error (.invalidInput "direct metadata has item_size=0")
  else if m.logicalBlocks ≠ divCeil m.totalItems m.itemsPerBlock then
    .error (.invalidInput "direct metadata logical_blocks does not match total_items/items_per_block")
  else if m.blockPayloadBytes ≠ usizeMul m.itemSize m.itemsPerBlock then
    .error (.invalidInput "direct metadata block_payload_bytes does not match item_size/items_per_block")
  else match m.level with
    | .index =>
      if m.itemSize ≠ usizeMul m.slotsPerBin indexSlotSize then
        .error (.invalidInput "direct index metadata item_size does not match slots_per_bin")
      else if m.slotsPerBin = 0 ∨ m.hashFns = 0 then
        .error (.invalidInput "direct index metadata requires slots_per_bin and hash_fns")
      else .ok ()
    | .chunk =>
      if m.itemSize ≠ chunkRecordSize then
        .error (.invalidInput "direct chunk metadata item_size does not match chunk size")
      else .ok ()

/-- `locate_packed_direct_item`, at the metadata's sizes. -/
def locate (m : TableMetadata) (itemId : Nat) : Result PackedItemLocation :=
  locatePacked "items_per_block" "item_size" "direct item_id" m.totalItems m.itemsPerBlock m.itemSize itemId

end TableMetadata

section
variable {M P ρ : Type}

def validateOramDimensions (m : TableMetadata) (oram : CircuitOram M P ρ) : Result Unit :=
  if oram.params.logicalBlocks ≠ m.logicalBlocks then
    .error (.invalidInput
      s!"direct {m.level.label} ORAM logical_blocks {oram.params.logicalBlocks} != metadata logical_blocks {m.logicalBlocks}")
  else if oram.params.blockSize ≠ m.blockPayloadBytes then
    .error (.invalidInput
      s!"direct {m.level.label} ORAM block_size {oram.params.blockSize} != metadata block_payload_bytes {m.blockPayloadBytes}")
  else .ok ()

end
end Direct

/-! ## Facts -/

theorem Direct.TableMetadata.fromInfo_ok {info : Direct.TableInfo} {itemsPerBlock : Nat} {m : Direct.TableMetadata}
    (h : Direct.TableMetadata.fromInfo info itemsPerBlock = .ok m) : 0 < itemsPerBlock ∧ m =
      { version := Direct.metadataVersion, level := info.level, totalItems := info.totalItems, itemSize := info.itemSize
        itemsPerBlock, slotsPerBin := info.slotsPerBin, hashFns := info.hashFns, seed := info.seed
        logicalBlocks := divCeil info.totalItems itemsPerBlock, blockPayloadBytes := usizeMul info.itemSize itemsPerBlock } := by
  unfold Direct.TableMetadata.fromInfo at h
  split at h
  · cases h
  · cases h
    exact ⟨by omega, rfl⟩

theorem Direct.TableInfo.fromIndexFile_ok {round : Rat → Rat} {source : SourceFile} {slotsPerBin hashFns : Nat}
    {loadFactor : Rat} {seed : UInt64} {info : Direct.TableInfo}
    (h : Direct.TableInfo.fromIndexFile round source slotsPerBin hashFns loadFactor seed = .ok info) :
    0 < slotsPerBin ∧ 0 < hashFns ∧ info =
      { level := .index, source, records := source.bytes.length / Direct.indexInputRecordSize, slotsPerBin, hashFns
        loadFactor, seed
        totalItems := Direct.computeDirectIndexBins round (source.bytes.length / Direct.indexInputRecordSize) slotsPerBin
          loadFactor
        itemSize := usizeMul slotsPerBin Direct.indexSlotSize } := by
  unfold Direct.TableInfo.fromIndexFile at h
  split at h
  · cases h
  · split at h
    · cases h
    · split at h
      · cases h
      · split at h
        · cases h
        · cases h
          exact ⟨by omega, by omega, rfl⟩

theorem Direct.validateOramDimensions_ok {M P ρ : Type} {m : Direct.TableMetadata} {oram : CircuitOram M P ρ}
    (h : Direct.validateOramDimensions m oram = .ok ()) :
    oram.params.logicalBlocks = m.logicalBlocks ∧ oram.params.blockSize = m.blockPayloadBytes := by
  unfold Direct.validateOramDimensions at h
  split at h
  · cases h
  · split at h
    · cases h
    · exact ⟨by omega, by omega⟩

theorem locatePacked_ok {a b c : String} {n m sz i : Nat} {l : PackedItemLocation} (h : locatePacked a b c n m sz i = .ok l) :
    l = { logicalBlock := i / m, byteOffset := usizeMul (i % m) sz, byteLen := sz } ∧ 0 < m ∧ 0 < sz ∧ i < n := by
  unfold locatePacked at h
  split at h
  · cases h
  · split at h
    · cases h
    · split at h
      · cases h
      · cases h
        exact ⟨rfl, by omega, by omega, by omega⟩

theorem locatePacked_error {a b c : String} {n m sz i : Nat} (h : n ≤ i) : ∃ e, locatePacked a b c n m sz i = .error e := by
  unfold locatePacked
  split
  · exact ⟨_, rfl⟩
  · split
    · exact ⟨_, rfl⟩
    · exact ⟨_, rfl⟩

theorem Direct.TableMetadata.validate_ok {m : Direct.TableMetadata} (h : m.validate = .ok ()) :
    0 < m.itemsPerBlock ∧ 0 < m.itemSize ∧ m.logicalBlocks = divCeil m.totalItems m.itemsPerBlock ∧
    m.blockPayloadBytes = usizeMul m.itemSize m.itemsPerBlock := by
  unfold validate at h
  split at h
  · cases h
  · split at h
    · cases h
    · split at h
      · cases h
      · split at h
        · cases h
        · split at h
          · cases h
          · exact ⟨by omega, by omega, by omega, by omega⟩

theorem Direct.TableMetadata.locate_lt {m : Direct.TableMetadata} (h : m.logicalBlocks = divCeil m.totalItems m.itemsPerBlock)
    {binId : Nat} {location : PackedItemLocation} (hl : m.locate binId = .ok location) :
    location.logicalBlock < m.logicalBlocks := by
  obtain ⟨rfl, -, -, hlt⟩ := locatePacked_ok hl
  rw [h]
  exact lt_divCeil hlt

theorem byteRange_ok {b x : Bytes} {start len : Nat} (hlen : len < 2 ^ 64) (h : byteRange b start len = .ok x) :
    x = slice b start len ∧ start + len ≤ b.length := by
  obtain ⟨⟨⟩, hrange, h⟩ := bind_result_ok h
  cases h
  exact ⟨rfl, checkRange_ok hlen hrange⟩

theorem byteRange_of_le {b : Bytes} {start len : Nat} (hb : b.length < 2 ^ 64) (h : start + len ≤ b.length) :
    byteRange b start len = .ok (slice b start len) := by
  rw [byteRange, checkRange_of_le hb h]
  rfl

end BpirOram
