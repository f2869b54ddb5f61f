/-
  BpirOram.Packed.Cuckoo — DPF/Harmony cuckoo tables (`cuckoo.rs`): the header check, the
  block source over the mapped bins, and the reader over a controller.

  A table is a header, an anchor for some magics, and then `k` group tables of bins, one
  after the other; bins are numbered through. The sizes the header gives are products of a
  release build: a count of bins and the size of one fit 64 bits (`TableInfo.FieldsFit`), the
  length of the file may not.
  - `BinReader.readBin_ok`: a read that ends well returns the bin of the file.
  - `packed_readers_return_source`: this, for chunks and for bins, and where they lie.
-/

import BpirOram.Packed.Chunks

namespace BpirOram.Cuckoo

open Lib

/-! ## The table -/

def indexMagic : UInt64 := 0xBA7C_C000_C000_0004
def chunkMagic : UInt64 := 0xBA7C_C000_C000_0002
def anchorMagicSnapshotXor : UInt64 := 0x0000_0001_0000_0000
def anchorMagicDeltaXor : UInt64 := 0x0000_0002_0000_0000
def chainAnchorBytes : Nat := 36
def deltaAnchorBytes : Nat := 72

inductive Level where
  | index
  | chunk
  deriving DecidableEq, Repr

namespace Level

def label : Level → String
  | index => "index"
  | chunk => "chunk"

def baseMagic : Level → UInt64
  | index => indexMagic
  | chunk => chunkMagic

def baseHeaderSize : Level → Nat
  | index => 40
  | chunk => 32

def slotSize : Level → Nat
  | index => 13
  | chunk => 44

end Level

inductive AnchorKind where
  | legacy
  | snapshot
  | delta
  deriving DecidableEq, Repr

def AnchorKind.extraHeaderBytes : AnchorKind → Nat
  | legacy => 0
  | snapshot => chainAnchorBytes
  | delta => deltaAnchorBytes

/-- `{magic:016x}`. -/
def hex16 (magic : UInt64) : String := String.ofList (List.leftpad 16 '0' (Nat.toDigits 16 magic.toNat))

def parseAnchorKind (level : Level) (magic : UInt64) : Result AnchorKind :=
  let base := level.baseMagic
  if magic = base then .ok .legacy
  else if magic = base ^^^ anchorMagicSnapshotXor then .ok .snapshot
  else if magic = base ^^^ anchorMagicDeltaXor then .ok .delta
  else .error (.invalidInput s!"{level.label} cuckoo table has unknown magic 0x{hex16 magic}")

structure TableInfo where
  level : Level
  source : SourceFile
  fileBytes : Nat
  magic : UInt64
  anchorKind : AnchorKind
  dataOffset : Nat
  k : Nat
  slotsPerBin : Nat
  binsPerTable : Nat
  numHashes : Nat
  masterSeed : UInt64
  tagSeed : Option UInt64
  slotSize : Nat

namespace TableInfo

def binSize (t : TableInfo) : Nat := usizeMul t.slotsPerBin t.slotSize
def totalBins (t : TableInfo) : Nat := usizeMul t.k t.binsPerTable
def tableByteSize (t : TableInfo) : Nat := usizeMul t.binsPerTable t.binSize
def expectedFileBytes (t : TableInfo) : Nat := usizeAdd t.dataOffset (usizeMul t.k t.tableByteSize)

def validate (t : TableInfo) : Result Unit :=
  if t.k = 0 then .error (.invalidInput s!"{t.level.label} cuckoo table has k=0")
  else if t.slotsPerBin = 0 then .error (.invalidInput s!"{t.level.label} cuckoo table has slots_per_bin=0")
  else if t.binsPerTable = 0 then .error (.invalidInput s!"{t.level.label} cuckoo table has bins_per_table=0")
  else if t.numHashes = 0 then .error (.invalidInput s!"{t.level.label} cuckoo table has num_hashes=0")
  else if t.fileBytes ≠ t.expectedFileBytes then
    .error (.invalidInput (s!"{t.level.label} cuckoo file {t.source.path} has {t.fileBytes} bytes, " ++
      s!"expected {t.expectedFileBytes} from header"))
  else .ok ()

def fromFile (level : Level) (source : SourceFile) : Result TableInfo :=
  let header := source.bytes.take level.baseHeaderSize
  if header.length < level.baseHeaderSize then .error .io
  else do
    let magic := UInt64.ofNat (ofLe (slice header 0 8))
    let anchorKind ← parseAnchorKind level magic
    let info : TableInfo :=
      { level, source, fileBytes := source.bytes.length, magic, anchorKind
        dataOffset := level.baseHeaderSize + anchorKind.extraHeaderBytes
        k := ofLe (slice header 8 4)
        slotsPerBin := ofLe (slice header 12 4)
        binsPerTable := ofLe (slice header 16 4)
        numHashes := ofLe (slice header 20 4)
        masterSeed := UInt64.ofNat (ofLe (slice header 24 8))
        tagSeed := if level = .index then some (UInt64.ofNat (ofLe (slice header 32 8))) else none
        slotSize := level.slotSize }
    info.validate
    .ok info

end TableInfo

/-! ## The block source -/

/-- `locate_packed_cuckoo_bin`. -/
def locatePackedCuckooBin (totalBins binsPerBlock binSize binId : Nat) : Result PackedItemLocation :=
  locatePacked "bins_per_block" "bin_size" "bin_id" totalBins binsPerBlock binSize binId

structure PackedBlockReader where
  table : TableInfo
  binsPerBlock : Nat
  logicalBlocks : Nat
  blockPayloadBytes : Nat
  mmap : Bytes

namespace PackedBlockReader

def «open» (table : TableInfo) (binsPerBlock : Nat) : Result PackedBlockReader :=
  if binsPerBlock = 0 then .error (.invalidInput "bins_per_block must be > 0")
  else .ok
    { table, binsPerBlock, logicalBlocks := divCeil table.totalBins binsPerBlock
      blockPayloadBytes := usizeMul table.binSize binsPerBlock, mmap := table.source.bytes }

def packed (r : PackedBlockReader) : PackedTable where
  mmap := r.mmap
  dataOffset := r.table.dataOffset
  totalItems := r.table.totalBins
  itemSize := r.table.binSize
  itemsPerBlock := r.binsPerBlock
  logicalBlocks := r.logicalBlocks
  blockPayloadBytes := r.blockPayloadBytes

def readBlock (r : PackedBlockReader) (logicalBlock : Nat) : Result Bytes :=
  r.packed.readBlock "logical block" logicalBlock

def locate (r : PackedBlockReader) (binId : Nat) : Result PackedItemLocation :=
  locatePackedCuckooBin r.table.totalBins r.binsPerBlock r.table.binSize binId

def readBin (r : PackedBlockReader) (binId : Nat) : Result Bytes :=
  r.packed.readItem "logical block" (r.locate binId)

end PackedBlockReader

instance : TrustedBlockSource PackedBlockReader where
  logicalBlocks r := r.logicalBlocks
  blockSize r := r.blockPayloadBytes
  readBlock logicalId := do
    let r ← Eff.get
    Eff.lift (r.readBlock logicalId)

theorem PackedBlockReader.readBlock_run (r : PackedBlockReader) (k : Nat) :
    TrustedBlockSource.readBlock k r = (r.readBlock k, r) := rfl

/-! ## The reader -/

structure BinRead where
  binId : Nat
  logicalBlock : Nat
  byteOffset : Nat
  payload : Bytes
  drainedEvictions : UInt64
  deriving DecidableEq

structure BinReader (M P ρ : Type) where
  level : Level
  totalBins : Nat
  binsPerBlock : Nat
  binSize : Nat
  oram : CircuitOram M P ρ

namespace BinReader

section
variable {M P ρ : Type}

def new (table : TableInfo) (binsPerBlock : Nat) (oram : CircuitOram M P ρ) : Result (BinReader M P ρ) :=
  if binsPerBlock = 0 then .error (.invalidInput "bins_per_block must be > 0")
  else
    let expectedLogicalBlocks := divCeil table.totalBins binsPerBlock
    let expectedBlockSize := usizeMul table.binSize binsPerBlock
    if oram.params.logicalBlocks ≠ expectedLogicalBlocks then
      .error (.invalidInput (s!"{table.level.label} ORAM logical_blocks {oram.params.logicalBlocks} " ++
        s!"!= packed cuckoo logical_blocks {expectedLogicalBlocks}"))
    else if oram.params.blockSize ≠ expectedBlockSize then
      .error (.invalidInput (s!"{table.level.label} ORAM block_size {oram.params.blockSize} " ++
        s!"!= packed cuckoo block_size {expectedBlockSize}"))
    else .ok { level := table.level, totalBins := table.totalBins, binsPerBlock, binSize := table.binSize, oram }

def onOram {α : Type} (m : Eff Error (CircuitOram M P ρ) α) : Eff Error (BinReader M P ρ) α :=
  Eff.zoom (·.oram) (fun oram r => { r with oram }) m

variable [PathPageStore M] [PathPageStore P] [Rng ρ]

def readBin (binId : Nat) (drainPerAccess : UInt64) : Eff Error (BinReader M P ρ) BinRead := do
  let r ← Eff.get
  let location ← Eff.lift (locatePackedCuckooBin r.totalBins r.binsPerBlock r.binSize binId)
  let done ← onOram (readPackedItem location drainPerAccess)
  pure { binId, logicalBlock := location.logicalBlock, byteOffset := location.byteOffset, payload := done.1
         drainedEvictions := done.2 }

end
end BinReader

/-! ## The file -/

variable {level : Level} {source : SourceFile} {info : TableInfo} {binsPerBlock : Nat} {r : PackedBlockReader}

/-- Bin `i` of a table, counted through its groups. -/
def binAt (info : TableInfo) (i : Nat) : Bytes := slice info.source.bytes (info.dataOffset + i * info.binSize) info.binSize

/-- What the header says of the length of its file, with nothing cut off. -/
def TableInfo.fileLength (t : TableInfo) : Nat := t.dataOffset + t.k * t.binsPerTable * t.slotsPerBin * t.slotSize

theorem ofLe_field_lt (header : Bytes) (start : Nat) : ofLe (slice header start 4) < 2 ^ 32 := by
  apply Nat.lt_of_lt_of_le (ofLe_lt _)
  have hlen : (slice header start 4).length ≤ 4 := by
    rw [slice, List.length_take]
    exact Nat.min_le_left _ _
  exact Nat.pow_le_pow_right (by decide) hlen

theorem Level.slotSize_bounds (level : Level) : 0 < level.slotSize ∧ level.slotSize ≤ 44 := by
  cases level <;> decide

/-- Every field is 32 bits wide and a slot is small: a count of bins and the size of one
    never wrap. -/
structure TableInfo.FieldsFit (t : TableInfo) : Prop where
  k : t.k < 2 ^ 32
  slotsPerBin : t.slotsPerBin < 2 ^ 32
  binsPerTable : t.binsPerTable < 2 ^ 32
  slotSize : 0 < t.slotSize ∧ t.slotSize ≤ 44

theorem TableInfo.FieldsFit.totalBins_eq (h : info.FieldsFit) : info.totalBins = info.k * info.binsPerTable :=
  usizeMul_of_lt <|
    calc info.k * info.binsPerTable
      _ < 2 ^ 32 * 2 ^ 32 := Nat.mul_lt_mul'' h.k h.binsPerTable
      _ = 2 ^ 64 := by decide

theorem TableInfo.FieldsFit.binSize_eq (h : info.FieldsFit) : info.binSize = info.slotsPerBin * info.slotSize :=
  usizeMul_of_lt <|
    calc info.slotsPerBin * info.slotSize
      _ ≤ info.slotsPerBin * 44 := Nat.mul_le_mul_left _ h.slotSize.2
      _ < 2 ^ 64 := by have := h.slotsPerBin; omega

/-- The length that is checked is the exact one, reduced once. -/
theorem TableInfo.expectedFileBytes_eq (t : TableInfo) : t.expectedFileBytes = t.fileLength % 2 ^ 64 := by
  simp only [expectedFileBytes, tableByteSize, binSize, fileLength, usizeAdd, usizeMul, Nat.mul_mod_mod, Nat.add_mod_mod,
    Nat.mul_assoc]

theorem TableInfo.validate_ok (h : info.validate = .ok ()) :
    0 < info.slotsPerBin ∧ info.fileBytes = info.expectedFileBytes := by
  unfold validate at h
  split at h
  · cases h
  · split at h
    · cases h
    · split at h
      · cases h
      · split at h
        · cases h
        · split at h
          · cases h
          · exact ⟨by omega, by omega⟩

/-- What an accepted header promises. -/
structure TableInfo.Accepted (t : TableInfo) : Prop where
  fields : t.FieldsFit
  slots : 0 < t.slotsPerBin
  length : t.source.bytes.length = t.fileLength % 2 ^ 64

theorem TableInfo.fromFile_ok (h : fromFile level source = .ok info) :
    info.source = source ∧ info.slotSize = level.slotSize ∧ info.Accepted := by
  unfold fromFile at h
  simp only at h
  split at h
  · cases h
  · obtain ⟨anchorKind, -, h⟩ := bind_result_ok h
    obtain ⟨⟨⟩, hvalid, h⟩ := bind_result_ok h
    obtain ⟨hslots, hlength⟩ := TableInfo.validate_ok hvalid
    rw [TableInfo.expectedFileBytes_eq] at hlength
    cases h
    exact ⟨rfl, rfl, ⟨ofLe_field_lt _ _, ofLe_field_lt _ _, ofLe_field_lt _ _, level.slotSize_bounds⟩, hslots, hlength⟩

theorem PackedBlockReader.open_ok (hinfo : TableInfo.fromFile level source = .ok info)
    (h : PackedBlockReader.open info binsPerBlock = .ok r) (hfile : info.fileLength < 2 ^ 64)
    (hpayload : info.binSize * binsPerBlock < 2 ^ 64) :
    r.packed.Valid ∧ r.table = info ∧ r.binsPerBlock = binsPerBlock ∧ r.packed.item = binAt info := by
  obtain ⟨rfl, -, haccepted⟩ := TableInfo.fromFile_ok hinfo
  have hlength := haccepted.length
  rw [Nat.mod_eq_of_lt hfile, TableInfo.fileLength] at hlength
  unfold PackedBlockReader.open at h
  split at h
  · cases h
  · cases h
    refine ⟨⟨by simp only [PackedBlockReader.packed]; omega, ?_, rfl, usizeMul_of_lt hpayload, usizeMul_lt _ _, ?_,
      info.source.bytes_lt⟩, rfl, rfl, rfl⟩
    · change 0 < info.binSize
      rw [haccepted.fields.binSize_eq]
      exact Nat.mul_pos haccepted.slots haccepted.fields.slotSize.1
    · change info.dataOffset + info.totalBins * info.binSize ≤ info.source.bytes.length
      rw [haccepted.fields.totalBins_eq, haccepted.fields.binSize_eq, hlength, ← Nat.mul_assoc]

/-! ## Reads through a controller -/

section
variable {M P ρ : Type} {I : CircuitOram M P ρ → Prop} {oram : CircuitOram M P ρ} {q q' : BinReader M P ρ}
  {f : Nat → Bytes}

namespace BinReader

theorem new_ok (h : new info binsPerBlock oram = .ok q) :
    q = { level := info.level, totalBins := info.totalBins, binsPerBlock, binSize := info.binSize, oram } ∧
    oram.params.logicalBlocks = divCeil info.totalBins binsPerBlock := by
  unfold new at h
  split at h
  · cases h
  · simp only at h
    split at h
    · cases h
    · split at h
      · cases h
      · cases h
        exact ⟨rfl, by omega⟩

variable [PathPageStore M] [PathPageStore P] [Rng ρ]

theorem readBin_ok (hvalid : r.packed.Valid) (hf : ∀ k < r.logicalBlocks, r.readBlock k = .ok (f k))
    (hreads : ReadsBack r.logicalBlocks f I) (hs : I oram) (hnew : new r.table r.binsPerBlock oram = .ok q) {binId : Nat}
    {drainPerAccess : UInt64} {out : BinRead} (hrun : readBin binId drainPerAccess q = (.ok out, q')) :
    binId < r.packed.totalItems ∧ out.binId = binId ∧ out.payload = r.packed.item binId := by
  obtain ⟨rfl, hblocks⟩ := new_ok hnew
  have hbounded : r.logicalBlocks < 2 ^ 64 :=
    calc r.logicalBlocks
      _ = divCeil r.table.totalBins r.binsPerBlock := hvalid.blocks
      _ = oram.params.logicalBlocks := hblocks.symm
      _ < 2 ^ 64 := oram.params.logicalBlocks_lt
  rw [readBin, Eff.get_bind] at hrun
  obtain ⟨location, hlocate, hread⟩ := Eff.lift_bind_eq_ok hrun
  obtain ⟨done, q1, hitem, hlast⟩ := Eff.bind_eq_ok hread
  obtain ⟨s, hitem, -⟩ := Eff.zoom_eq_ok hitem
  obtain ⟨hid, hlt, hlen, hslice⟩ := hvalid.located hlocate
  have hpayload := readPackedItem_ok hreads hbounded hs hlt hlen hitem
  rw [hvalid.eq_block hf hlt] at hpayload
  cases hlast
  exact ⟨hid, rfl, hpayload.trans hslice⟩

theorem readBin_rejects {i : Nat} (hout : q.totalBins ≤ i) (drainPerAccess : UInt64) :
    ∃ e, readBin i drainPerAccess q = (.error e, q) := by
  obtain ⟨e, he⟩ : ∃ e, locatePackedCuckooBin q.totalBins q.binsPerBlock q.binSize i = .error e := locatePacked_error hout
  exact ⟨e, by rw [readBin, Eff.get_bind, he]; rfl⟩

/-- The reader serves `count` bins and nothing else. -/
structure Serves (count : Nat) (item : Nat → Bytes) (q : BinReader M P ρ) : Prop where
  readBin : ∀ i drainPerAccess out q', BinReader.readBin i drainPerAccess q = (.ok out, q') →
    i < count ∧ out.binId = i ∧ out.payload = item i
  rejects : ∀ i, count ≤ i → ∀ drainPerAccess, ∃ e, BinReader.readBin i drainPerAccess q = (.error e, q)

theorem serves (hvalid : r.packed.Valid) (hf : ∀ k < r.logicalBlocks, r.readBlock k = .ok (f k))
    (hreads : ReadsBack r.logicalBlocks f I) (hs : I oram) (hnew : new r.table r.binsPerBlock oram = .ok q) :
    Serves r.packed.totalItems r.packed.item q where
  readBin _ _ _ _ hrun := readBin_ok hvalid hf hreads hs hnew hrun
  rejects i hi drainPerAccess := readBin_rejects (by rw [(new_ok hnew).1]; exact hi) drainPerAccess

end BinReader
end

end BpirOram.Cuckoo

/-! ## End to end -/

namespace BpirOram

open Lib

/-- Chunks and bins come back as the source file has them, from the block source and
    through a controller that reads back what was built, where no size wraps. -/
theorem packed_readers_return_source {M P ρ : Type} [PathPageStore M] [PathPageStore P] [Rng ρ]
    {I : CircuitOram M P ρ → Prop} :
    (∀ {source info itemsPerBlock r}, Direct.TableInfo.fromChunksFile source = .ok info →
      Direct.ChunkPackedBlockReader.open info itemsPerBlock = .ok r → info.itemSize * itemsPerBlock < 2 ^ 64 →
      Packs info.totalItems info.itemSize r.metadata.logicalBlocks r.metadata.blockPayloadBytes r.metadata.locate r.readBlock
        (Direct.chunkAt source) ∧
      (∀ i, (i < info.totalItems → r.readChunk i = .ok (Direct.chunkAt source i)) ∧
        (info.totalItems ≤ i → ∃ e, r.readChunk i = .error e)) ∧
      ∀ {f oram q}, (∀ k < r.metadata.logicalBlocks, r.readBlock k = .ok (f k)) →
        ReadsBack r.metadata.logicalBlocks f I → I oram → Direct.ChunkReader.new r.metadata oram = .ok q →
        q.Serves info.totalItems (Direct.chunkAt source)) ∧
    (∀ {level source info binsPerBlock r}, Cuckoo.TableInfo.fromFile level source = .ok info →
      Cuckoo.PackedBlockReader.open info binsPerBlock = .ok r → info.fileLength < 2 ^ 64 →
      info.binSize * binsPerBlock < 2 ^ 64 →
      Packs info.totalBins info.binSize r.logicalBlocks r.blockPayloadBytes r.locate r.readBlock (Cuckoo.binAt info) ∧
      (∀ i, (i < info.totalBins → r.readBin i = .ok (Cuckoo.binAt info i)) ∧
        (info.totalBins ≤ i → ∃ e, r.readBin i = .error e)) ∧
      ∀ {f oram q}, (∀ k < r.logicalBlocks, r.readBlock k = .ok (f k)) → ReadsBack r.logicalBlocks f I → I oram →
        Cuckoo.BinReader.new info binsPerBlock oram = .ok q → q.Serves info.totalBins (Cuckoo.binAt info)) := by
  constructor
  · intro source info itemsPerBlock r hinfo hopen hpayload
    obtain ⟨hvalid, htotal, hsize, hitem⟩ := Direct.ChunkPackedBlockReader.open_ok hinfo hopen hpayload
    rw [← htotal, ← hsize, ← hitem]
    have hpacks := hvalid.packs "direct chunk logical block" "items_per_block" "item_size" "direct item_id"
    refine ⟨hpacks, fun i => ⟨fun hi => ?_, fun hi => ?_⟩, fun hf hreads hs hnew => ?_⟩
    · exact hvalid.readItem_ok _ _ _ _ hi
    · obtain ⟨e, he⟩ := hpacks.rejects i hi
      refine ⟨e, ?_⟩
      rw [Direct.ChunkPackedBlockReader.readChunk, PackedTable.readItem, show r.metadata.locate i = _ from he]
      rfl
    · exact Direct.ChunkReader.serves hvalid hf hreads hs hnew
  · intro level source info binsPerBlock r hinfo hopen hfile hpayload
    obtain ⟨hvalid, rfl, rfl, hitem⟩ := Cuckoo.PackedBlockReader.open_ok hinfo hopen hfile hpayload
    rw [← hitem]
    have hpacks := hvalid.packs "logical block" "bins_per_block" "bin_size" "bin_id"
    refine ⟨hpacks, fun i => ⟨fun hi => ?_, fun hi => ?_⟩, fun hf hreads hs hnew => ?_⟩
    · exact hvalid.readItem_ok _ _ _ _ hi
    · obtain ⟨e, he⟩ := hpacks.rejects i hi
      exact ⟨e, by rw [Cuckoo.PackedBlockReader.readBin, PackedTable.readItem, show r.locate i = _ from he]; rfl⟩
    · exact Cuckoo.BinReader.serves hvalid hf hreads hs hnew

/-! ## Small tables -/

/-- Three chunks, two to a block. -/
def smallChunksFile : SourceFile where
  path := "utxo_chunks_nodust.bin"
  bytes := List.replicate 40 1 ++ List.replicate 40 2 ++ List.replicate 40 3

def smallChunksInfo : Direct.TableInfo := (Direct.TableInfo.fromChunksFile smallChunksFile).toOption.get (by decide +kernel)

def smallChunks : Direct.ChunkPackedBlockReader :=
  (Direct.ChunkPackedBlockReader.open smallChunksInfo 2).toOption.get (by decide +kernel)

def smallChunksParams : OramParams := { smallParams with blockSize := 80, blockSize_pos := by decide }

def smallChunksOram : CircuitOram MemPageStore MemPageStore ZeroSeedRng :=
  (CircuitOram.buildTrustedFromSource smallChunksParams (zeroPages 3 13 smallMetaPage_pos) (zeroPages 3 80 (by decide))
    smallChunks (FixedBytes.zero 32)).toOption.get (by decide +kernel)

def smallChunksReader : Direct.ChunkReader MemPageStore MemPageStore ZeroSeedRng :=
  (Direct.ChunkReader.new smallChunks.metadata smallChunksOram).toOption.get (by decide +kernel)

/-- A CHUNK table of one group of three bins, two to a block. -/
def smallCuckooFile : SourceFile where
  path := "chunk_pir_cuckoo.bin"
  bytes := [2, 0, 0, 0xC0, 0, 0xC0, 0x7C, 0xBA, 1, 0, 0, 0, 1, 0, 0, 0, 3, 0, 0, 0, 2, 0, 0, 0] ++ List.replicate 8 0 ++
    (List.replicate 44 1 ++ List.replicate 44 2 ++ List.replicate 44 3)

def smallCuckooInfo : Cuckoo.TableInfo := (Cuckoo.TableInfo.fromFile .chunk smallCuckooFile).toOption.get (by decide +kernel)

def smallCuckoo : Cuckoo.PackedBlockReader :=
  (Cuckoo.PackedBlockReader.open smallCuckooInfo 2).toOption.get (by decide +kernel)

def smallCuckooParams : OramParams := { smallParams with blockSize := 88, blockSize_pos := by decide }

def smallCuckooOram : CircuitOram MemPageStore MemPageStore ZeroSeedRng :=
  (CircuitOram.buildTrustedFromSource smallCuckooParams (zeroPages 3 13 smallMetaPage_pos) (zeroPages 3 88 (by decide))
    smallCuckoo (FixedBytes.zero 32)).toOption.get (by decide +kernel)

def smallBinReader : Cuckoo.BinReader MemPageStore MemPageStore ZeroSeedRng :=
  (Cuckoo.BinReader.new smallCuckooInfo 2 smallCuckooOram).toOption.get (by decide +kernel)

/-- The last chunk and the last bin, each alone in its block. -/
theorem packed_readers_return_source_small :
    (smallChunksReader.Serves smallChunksInfo.totalItems (Direct.chunkAt smallChunksFile) ∧ smallChunksInfo.totalItems = 3 ∧
      Direct.chunkAt smallChunksFile 2 = List.replicate 40 3) ∧
    (smallBinReader.Serves smallCuckooInfo.totalBins (Cuckoo.binAt smallCuckooInfo) ∧ smallCuckooInfo.totalBins = 3 ∧
      Cuckoo.binAt smallCuckooInfo 2 = List.replicate 44 3) := by
  refine ⟨⟨?_, by decide +kernel, by decide +kernel⟩, ⟨?_, by decide +kernel, by decide +kernel⟩⟩
  · have hinfo : Direct.TableInfo.fromChunksFile smallChunksFile = .ok smallChunksInfo := toOption_get _
    have hopen : Direct.ChunkPackedBlockReader.open smallChunksInfo 2 = .ok smallChunks := toOption_get _
    have hbuild : CircuitOram.buildTrustedFromSource smallChunksParams _ _ _ _ = .ok smallChunksOram := toOption_get _
    have hholds := holdsBlocks_of_build Direct.ChunkPackedBlockReader.readBlock_run hbuild
    have hf : ∀ k < smallChunks.metadata.logicalBlocks,
        smallChunks.readBlock k = .ok ((smallChunks.readBlock k).toOption.getD []) := by decide +kernel
    have hall := @packed_readers_return_source MemPageStore MemPageStore ZeroSeedRng _ _ _
    have hcount : smallChunksParams.logicalBlocks = smallChunks.metadata.logicalBlocks := by decide +kernel
    exact (hall.1 hinfo hopen (by decide +kernel)).2.2 hf (hcount ▸ Reached.readsBack _) hholds (toOption_get _)
  · have hinfo : Cuckoo.TableInfo.fromFile .chunk smallCuckooFile = .ok smallCuckooInfo := toOption_get _
    have hopen : Cuckoo.PackedBlockReader.open smallCuckooInfo 2 = .ok smallCuckoo := toOption_get _
    have hbuild : CircuitOram.buildTrustedFromSource smallCuckooParams _ _ _ _ = .ok smallCuckooOram := toOption_get _
    have hholds := holdsBlocks_of_build Cuckoo.PackedBlockReader.readBlock_run hbuild
    have hf : ∀ k < smallCuckoo.logicalBlocks,
        smallCuckoo.readBlock k = .ok ((smallCuckoo.readBlock k).toOption.getD []) := by decide +kernel
    have hall := @packed_readers_return_source MemPageStore MemPageStore ZeroSeedRng _ _ _
    have hcount : smallCuckooParams.logicalBlocks = smallCuckoo.logicalBlocks := by decide +kernel
    exact (hall.2 hinfo hopen (by decide +kernel) (by decide +kernel)).2.2 hf (hcount ▸ Reached.readsBack _) hholds
      (toOption_get _)

end BpirOram
