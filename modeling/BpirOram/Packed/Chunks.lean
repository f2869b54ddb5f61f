/-
  BpirOram.Packed.Chunks — the direct CHUNK table (`direct.rs`): the block source over the
  mapped file, and the reader over a controller.
  - `ChunkReader.readChunk_ok`, `ChunkReader.readChunks_ok`: reads that end well return the
    chunks of the file.
-/

import BpirOram.Packed.Table

namespace BpirOram.Direct

open Lib

/-! ## The block source -/

structure ChunkPackedBlockReader where
  metadata : TableMetadata
  mmap : Bytes

namespace ChunkPackedBlockReader

def «open» (info : TableInfo) (itemsPerBlock : Nat) : Result ChunkPackedBlockReader :=
  if info.level ≠ .chunk then
    .error (.invalidInput "DirectChunkPackedBlockReader requires chunk table info")
  else do
    let metadata ← TableMetadata.fromInfo info itemsPerBlock
    .ok { metadata, mmap := info.source.bytes }

def table (r : ChunkPackedBlockReader) : PackedTable where
  mmap := r.mmap
  dataOffset := 0
  totalItems := r.metadata.totalItems
  itemSize := r.metadata.itemSize
  itemsPerBlock := r.metadata.itemsPerBlock
  logicalBlocks := r.metadata.logicalBlocks
  blockPayloadBytes := r.metadata.blockPayloadBytes

def readBlock (r : ChunkPackedBlockReader) (logicalBlock : Nat) : Result Bytes :=
  r.table.readBlock "direct chunk logical block" logicalBlock

def readChunk (r : ChunkPackedBlockReader) (chunkId : Nat) : Result Bytes :=
  r.table.readItem "direct chunk logical block" (r.metadata.locate chunkId)

end ChunkPackedBlockReader

instance : TrustedBlockSource ChunkPackedBlockReader where
  logicalBlocks r := r.metadata.logicalBlocks
  blockSize r := r.metadata.blockPayloadBytes
  readBlock logicalId := do
    let r ← Eff.get
    Eff.lift (r.readBlock logicalId)

theorem ChunkPackedBlockReader.readBlock_run (r : ChunkPackedBlockReader) (k : Nat) :
    TrustedBlockSource.readBlock k r = (r.readBlock k, r) := rfl

/-! ## The reader -/

structure ChunkRead where
  chunkId : Nat
  logicalBlock : Nat
  byteOffset : Nat
  payload : Bytes
  drainedEvictions : UInt64
  deriving DecidableEq

structure ChunkBatchRead where
  reads : List ChunkRead
  drainedEvictions : UInt64
  deriving DecidableEq

structure ChunkReader (M P ρ : Type) where
  metadata : TableMetadata
  oram : CircuitOram M P ρ

namespace ChunkReader

section
variable {M P ρ : Type}

def new (metadata : TableMetadata) (oram : CircuitOram M P ρ) : Result (ChunkReader M P ρ) := do
  metadata.validate
  if metadata.level ≠ .chunk then .error (.invalidInput "CircuitDirectChunkReader requires chunk metadata")
  else do
    validateOramDimensions metadata oram
    .ok { metadata, oram }

def onOram {α : Type} (m : Eff Error (CircuitOram M P ρ) α) : Eff Error (ChunkReader M P ρ) α :=
  Eff.zoom (·.oram) (fun oram r => { r with oram }) m

/-- The reads of a batch, once it has its blocks. -/
def collectReads : List Nat → List PackedItemLocation → List Bytes → Result (List ChunkRead)
  | chunkId :: chunkIds, location :: locations, block :: blocks => do
    let payload ← byteRange block location.byteOffset location.byteLen
    let reads ← collectReads chunkIds locations blocks
    .ok ({ chunkId, logicalBlock := location.logicalBlock, byteOffset := location.byteOffset, payload
           drainedEvictions := 0 } :: reads)
  | _, _, _ => .ok []

variable [PathPageStore M] [PathPageStore P] [Rng ρ]

def readChunk (chunkId : Nat) (drainPerAccess : UInt64) : Eff Error (ChunkReader M P ρ) ChunkRead := do
  let r ← Eff.get
  let location ← Eff.lift (r.metadata.locate chunkId)
  let done ← onOram (readPackedItem location drainPerAccess)
  pure { chunkId, logicalBlock := location.logicalBlock, byteOffset := location.byteOffset, payload := done.1
         drainedEvictions := done.2 }

def readChunks (chunkIds : List Nat) (drainPerAccess : UInt64) : Eff Error (ChunkReader M P ρ) ChunkBatchRead := do
  let r ← Eff.get
  let locations ← Eff.lift (chunkIds.mapM r.metadata.locate)
  let blocks ← onOram (CircuitOram.readBatch (locations.map fun location => UInt64.ofNat location.logicalBlock))
  let drained ← onOram (CircuitOram.drainEvictions (drainPerAccess * UInt64.ofNat chunkIds.length))
  let reads ← Eff.lift (collectReads chunkIds locations blocks)
  pure { reads, drainedEvictions := drained }

end
end ChunkReader

/-! ## The file -/

variable {source : SourceFile} {info : TableInfo} {itemsPerBlock : Nat} {r : ChunkPackedBlockReader}

/-- Chunk `i` of a chunk file. -/
def chunkAt (source : SourceFile) (i : Nat) : Bytes := slice source.bytes (i * chunkRecordSize) chunkRecordSize

theorem TableInfo.fromChunksFile_ok (h : TableInfo.fromChunksFile source = .ok info) :
    source.bytes.length % chunkRecordSize = 0 ∧ info =
      { level := .chunk, source, records := source.bytes.length / chunkRecordSize, slotsPerBin := 1, hashFns := 0
        loadFactor := 1, seed := 0, totalItems := source.bytes.length / chunkRecordSize, itemSize := chunkRecordSize } := by
  unfold TableInfo.fromChunksFile at h
  split at h
  · cases h
  · cases h
    exact ⟨by omega, rfl⟩

namespace ChunkPackedBlockReader

theorem open_ok (hinfo : TableInfo.fromChunksFile source = .ok info)
    (h : ChunkPackedBlockReader.open info itemsPerBlock = .ok r) (hpayload : info.itemSize * itemsPerBlock < 2 ^ 64) :
    r.table.Valid ∧ r.metadata.totalItems = info.totalItems ∧ r.metadata.itemSize = info.itemSize ∧
      r.table.item = chunkAt source := by
  obtain ⟨hlen, rfl⟩ := TableInfo.fromChunksFile_ok hinfo
  unfold ChunkPackedBlockReader.open at h
  rw [if_neg (by simp)] at h
  obtain ⟨metadata, hmeta, h⟩ := bind_result_ok h
  obtain ⟨hper, rfl⟩ := TableMetadata.fromInfo_ok hmeta
  cases h
  refine ⟨⟨hper, Nat.succ_pos _, rfl, usizeMul_of_lt hpayload, usizeMul_lt _ _, ?_, source.bytes_lt⟩, rfl, rfl, ?_⟩
  · have := Nat.div_add_mod source.bytes.length chunkRecordSize
    rw [hlen, Nat.mul_comm] at this
    change 0 + source.bytes.length / chunkRecordSize * chunkRecordSize ≤ _
    simp only [table]
    omega
  · funext i
    change slice _ (0 + i * chunkRecordSize) chunkRecordSize = _
    rw [Nat.zero_add]
    rfl

end ChunkPackedBlockReader

/-! ## Reads through a controller -/

namespace ChunkReader

variable {M P ρ : Type} {I : CircuitOram M P ρ → Prop} {oram : CircuitOram M P ρ} {q q' : ChunkReader M P ρ}

theorem new_ok {m : TableMetadata} (h : new m oram = .ok q) :
    q = { metadata := m, oram } ∧ oram.params.logicalBlocks = m.logicalBlocks := by
  obtain ⟨⟨⟩, -, h⟩ := bind_result_ok h
  split at h
  · cases h
  · obtain ⟨⟨⟩, hdims, h⟩ := bind_result_ok h
    cases h
    exact ⟨rfl, (validateOramDimensions_ok hdims).1⟩

theorem collectReads_ok {f : Nat → Bytes} {chunkIds : List Nat} {locations : List PackedItemLocation} {reads : List ChunkRead}
    {item : Nat → Bytes}
    (hl : List.Forall₂ (fun i (l : PackedItemLocation) => l.byteLen < 2 ^ 64 ∧
      slice (f l.logicalBlock) l.byteOffset l.byteLen = item i) chunkIds locations)
    (h : collectReads chunkIds locations (locations.map fun l => f l.logicalBlock) = .ok reads) :
    List.Forall₂ (fun i read => read.chunkId = i ∧ read.payload = item i) chunkIds reads := by
  induction hl generalizing reads with
  | nil =>
    cases h
    exact .nil
  | @cons i l chunkIds locations hone _ ih =>
    rw [List.map_cons, collectReads] at h
    obtain ⟨payload, hpayload, hrest⟩ := bind_result_ok h
    obtain ⟨rest, hreads, hlast⟩ := bind_result_ok hrest
    cases hlast
    exact .cons ⟨rfl, (byteRange_ok hone.1 hpayload).1.trans hone.2⟩ (ih hreads)

variable {f : Nat → Bytes} [PathPageStore M] [PathPageStore P] [Rng ρ] (hvalid : r.table.Valid)
  (hf : ∀ k < r.metadata.logicalBlocks, r.readBlock k = .ok (f k)) (hreads : ReadsBack r.metadata.logicalBlocks f I)
  (hs : I oram) (hnew : new r.metadata oram = .ok q)
include hvalid hf hreads hs hnew

theorem readChunk_ok {chunkId : Nat} {drainPerAccess : UInt64} {out : ChunkRead}
    (hrun : readChunk chunkId drainPerAccess q = (.ok out, q')) :
    chunkId < r.table.totalItems ∧ out.chunkId = chunkId ∧ out.payload = r.table.item chunkId := by
  obtain ⟨rfl, hblocks⟩ := new_ok hnew
  rw [readChunk, Eff.get_bind] at hrun
  obtain ⟨location, hlocate, hread⟩ := Eff.lift_bind_eq_ok hrun
  obtain ⟨done, q1, hitem, hlast⟩ := Eff.bind_eq_ok hread
  obtain ⟨s, hitem, -⟩ := Eff.zoom_eq_ok hitem
  obtain ⟨hid, hlt, hlen, hslice⟩ := hvalid.located hlocate
  have hpayload := readPackedItem_ok hreads (hblocks ▸ oram.params.logicalBlocks_lt) hs hlt hlen hitem
  rw [hvalid.eq_block hf hlt] at hpayload
  cases hlast
  exact ⟨hid, rfl, hpayload.trans hslice⟩

theorem readChunks_ok {chunkIds : List Nat} {drainPerAccess : UInt64} {out : ChunkBatchRead}
    (hrun : readChunks chunkIds drainPerAccess q = (.ok out, q')) :
    (∀ i ∈ chunkIds, i < r.table.totalItems) ∧
    List.Forall₂ (fun i read => read.chunkId = i ∧ read.payload = r.table.item i) chunkIds out.reads := by
  obtain ⟨rfl, hblocks⟩ := new_ok hnew
  rw [readChunks, Eff.get_bind] at hrun
  obtain ⟨locations, hlocate, hread⟩ := Eff.lift_bind_eq_ok hrun
  obtain ⟨blocks, q1, hbatch, hdrain⟩ := Eff.bind_eq_ok hread
  obtain ⟨drained, q2, -, hcollect⟩ := Eff.bind_eq_ok hdrain
  obtain ⟨reads, hreads', hlast⟩ := Eff.lift_bind_eq_ok hcollect
  obtain ⟨s, hbatch, -⟩ := Eff.zoom_eq_ok hbatch
  have hlocated : List.Forall₂ (fun i (l : PackedItemLocation) => i < r.table.totalItems ∧
      l.logicalBlock < r.metadata.logicalBlocks ∧ l.byteLen < 2 ^ 64 ∧
      slice (f l.logicalBlock) l.byteOffset l.byteLen = r.table.item i) chunkIds locations := by
    refine (mapM_eq_ok hlocate).imp fun i l hl => ?_
    obtain ⟨hid, hlt, hlen, hslice⟩ := hvalid.located hl
    exact ⟨hid, hlt, hlen, by rw [hvalid.eq_block hf hlt, hslice]⟩
  have hlt : ∀ l ∈ locations, l.logicalBlock < r.metadata.logicalBlocks := by
    intro l hl
    obtain ⟨k, hk, rfl⟩ := List.mem_iff_getElem.mp hl
    exact (hlocated.get (by rw [hlocated.length_eq]; exact hk) hk).2.1
  have hids : ∀ i ∈ chunkIds, i < r.table.totalItems := by
    intro i hi
    obtain ⟨k, hk, rfl⟩ := List.mem_iff_getElem.mp hi
    exact (hlocated.get hk (by rw [← hlocated.length_eq]; exact hk)).1
  obtain rfl := readBatch_located hreads (hblocks ▸ oram.params.logicalBlocks_lt) hs hlt hbatch
  cases hlast
  exact ⟨hids, collectReads_ok (hlocated.imp fun _ _ h => h.2.2) hreads'⟩

end ChunkReader

section
variable {M P ρ : Type} [PathPageStore M] [PathPageStore P] [Rng ρ] {I : CircuitOram M P ρ → Prop}
  {oram : CircuitOram M P ρ} {q : ChunkReader M P ρ} {f : Nat → Bytes}

namespace ChunkReader

theorem readChunk_rejects {i : Nat} (hout : q.metadata.totalItems ≤ i) (drainPerAccess : UInt64) :
    ∃ e, readChunk i drainPerAccess q = (.error e, q) := by
  obtain ⟨e, he⟩ : ∃ e, q.metadata.locate i = .error e := locatePacked_error hout
  exact ⟨e, by rw [readChunk, Eff.get_bind, he]; rfl⟩

/-- An id that is not a chunk's stops the whole batch before it reads. -/
theorem readChunks_rejects {chunkIds : List Nat} {i : Nat} (hi : i ∈ chunkIds) (hout : q.metadata.totalItems ≤ i)
    (drainPerAccess : UInt64) : ∃ e, readChunks chunkIds drainPerAccess q = (.error e, q) := by
  cases hlocate : chunkIds.mapM q.metadata.locate with
  | error e => exact ⟨e, by rw [readChunks, Eff.get_bind, hlocate]; rfl⟩
  | ok locations =>
    obtain ⟨k, hk, rfl⟩ := List.mem_iff_getElem.mp hi
    have hall := mapM_eq_ok hlocate
    have := (locatePacked_ok (hall.get hk (by rw [← hall.length_eq]; exact hk))).2.2.2
    simp only [List.get_eq_getElem] at this
    omega

/-- The reader serves `count` chunks and nothing else. -/
structure Serves (count : Nat) (item : Nat → Bytes) (q : ChunkReader M P ρ) : Prop where
  readChunk : ∀ i drainPerAccess out q', ChunkReader.readChunk i drainPerAccess q = (.ok out, q') →
    i < count ∧ out.chunkId = i ∧ out.payload = item i
  readChunks : ∀ chunkIds drainPerAccess out q', ChunkReader.readChunks chunkIds drainPerAccess q = (.ok out, q') →
    (∀ i ∈ chunkIds, i < count) ∧
    List.Forall₂ (fun i read => read.chunkId = i ∧ read.payload = item i) chunkIds out.reads
  rejects : ∀ i, count ≤ i → ∀ drainPerAccess, ∃ e, ChunkReader.readChunk i drainPerAccess q = (.error e, q)
  rejectsAny : ∀ chunkIds i, i ∈ chunkIds → count ≤ i → ∀ drainPerAccess,
    ∃ e, ChunkReader.readChunks chunkIds drainPerAccess q = (.error e, q)

theorem serves (hvalid : r.table.Valid) (hf : ∀ k < r.metadata.logicalBlocks, r.readBlock k = .ok (f k))
    (hreads : ReadsBack r.metadata.logicalBlocks f I) (hs : I oram) (hnew : new r.metadata oram = .ok q) :
    Serves r.table.totalItems r.table.item q where
  readChunk _ _ _ _ hrun := readChunk_ok hvalid hf hreads hs hnew hrun
  readChunks _ _ _ _ hrun := readChunks_ok hvalid hf hreads hs hnew hrun
  rejects i hi drainPerAccess := readChunk_rejects (by rw [(new_ok hnew).1]; exact hi) drainPerAccess
  rejectsAny chunkIds i hmem hi drainPerAccess :=
    readChunks_rejects hmem (by rw [(new_ok hnew).1]; exact hi) drainPerAccess

end ChunkReader
end

end BpirOram.Direct
