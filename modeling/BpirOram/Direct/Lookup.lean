/-
  BpirOram.Direct.Lookup — a lookup says of a script hash what the file says of it.

  The slots of a bin are zero or hold a record that has the bin for a candidate, and every
  record is in a slot of one of its candidates (`placement_ok`). So the slots a lookup
  scans hold a record with its script hash if and only if the file does (`mem_scanned_iff`),
  and the scan keeps the first of them (`Selects`).
-/

import BpirOram.Direct.Index
import BpirOram.Direct.Kicks

namespace BpirOram.Direct

open Lib

/-! ## Records of the file -/

def recordAt (source : SourceFile) (i : Nat) : Bytes := slice source.bytes (i * indexInputRecordSize) indexInputRecordSize

def recordHash (source : SourceFile) (i : Nat) : Bytes := (recordAt source i).take scriptHashSize

def recordStart (source : SourceFile) (i : Nat) : UInt32 := UInt32.ofNat (ofLe (slice (recordAt source i) 20 4))

def recordChunks (source : SourceFile) (i : Nat) : UInt8 := (recordAt source i).getD 24 0

/-- What the answer to a lookup owes to the file. -/
structure Answers (source : SourceFile) (scriptHash : ScriptHash) (answer : IndexLookup) : Prop where
  asked : answer.scriptHash = scriptHash
  found : answer.found = true ↔ ∃ i < source.bytes.length / indexInputRecordSize, recordHash source i = scriptHash.val
  record : answer.found = true → ∃ i < source.bytes.length / indexInputRecordSize, recordHash source i = scriptHash.val ∧
    answer.startChunkId = recordStart source i ∧ answer.numChunks = recordChunks source i
  absent : answer.found = false → answer.startChunkId = 0 ∧ answer.numChunks = 0

/-- When the hashes are distinct, the record is the only one with its hash. -/
theorem Answers.unique {source : SourceFile} {scriptHash : ScriptHash} {answer : IndexLookup}
    (h : Answers source scriptHash answer) {i : Nat} (hi : i < source.bytes.length / indexInputRecordSize)
    (hash : recordHash source i = scriptHash.val)
    (hdistinct : ∀ j < source.bytes.length / indexInputRecordSize, recordHash source j = recordHash source i → j = i) :
    answer.found = true ∧ answer.startChunkId = recordStart source i ∧ answer.numChunks = recordChunks source i := by
  have hfound := h.found.mpr ⟨i, hi, hash⟩
  obtain ⟨j, hj, hjash, hstart, hchunks⟩ := h.record hfound
  obtain rfl := hdistinct j hj (hjash.trans hash.symm)
  exact ⟨hfound, hstart, hchunks⟩

/-! ## Scanning slots -/

/-- A slot that holds a record of this script hash. -/
def Matches (scriptHash : ScriptHash) (slot : Bytes) : Prop :=
  slot.getD 0 0 = 1 ∧ (slot.drop 1).take scriptHashSize = scriptHash.val

/-- What is selected after the slots `seen`. -/
structure Selects (scriptHash : ScriptHash) (seen : List Bytes) (sel : Selected) : Prop where
  found : sel.found = true ↔ ∃ slot ∈ seen, Matches scriptHash slot
  record : sel.found = true → ∃ slot ∈ seen, Matches scriptHash slot ∧
    sel.startChunkId = UInt32.ofNat (ofLe (slice slot 21 4)) ∧ sel.numChunks = slot.getD 25 0
  absent : sel.found = false → sel.startChunkId = 0 ∧ sel.numChunks = 0

variable {scriptHash : ScriptHash}

theorem Selects.nil : Selects scriptHash [] nothingSelected :=
  ⟨by simp [nothingSelected], by simp [nothingSelected], fun _ => ⟨rfl, rfl⟩⟩

theorem matches_iff (scriptHash : ScriptHash) {slot : Bytes} (h : slot.length = indexSlotSize) :
    (slot.getD 0 0 == 1 && (List.zipWith (· ^^^ ·) (slot.drop 1) scriptHash.val).foldl (· ||| ·) 0 == 0) = true ↔
      Matches scriptHash slot := by
  have hlen : scriptHash.val.length ≤ (slot.drop 1).length := by
    rw [scriptHash.property, List.length_drop, h]
    decide
  rw [Bool.and_eq_true, beq_iff_eq, beq_iff_eq, foldl_or_eq_zero, zipWith_xor_eq_zero hlen, scriptHash.property]
  simp [Matches]

theorem Selects.slot {seen : List Bytes} {sel : Selected} (h : Selects scriptHash seen sel) {slot : Bytes}
    (hlen : slot.length = indexSlotSize) : Selects scriptHash (seen ++ [slot]) (selectSlot scriptHash sel slot) := by
  have hiff := matches_iff scriptHash hlen
  have hmem : (∃ x ∈ seen ++ [slot], Matches scriptHash x) ↔
      (∃ x ∈ seen, Matches scriptHash x) ∨ Matches scriptHash slot := by
    simp [or_and_right, exists_or]
  by_cases hfound : sel.found = true
  · -- the first match stands
    have hsame : selectSlot scriptHash sel slot = sel := by
      unfold selectSlot
      simp only [hfound, Bool.not_true, Bool.and_false, Bool.or_false, Ct.cmov_false]
      rw [← hfound]
    rw [hsame]
    obtain ⟨x, hx, hrest⟩ := h.record hfound
    refine ⟨⟨fun _ => hmem.mpr (.inl (h.found.mp hfound)), fun _ => hfound⟩,
      fun _ => ⟨x, by simp [hx], hrest⟩, fun hnot => ?_⟩
    rw [hfound] at hnot
    cases hnot
  · have hnone : ¬ ∃ x ∈ seen, Matches scriptHash x := fun hx => hfound (h.found.mpr hx)
    have hfalse : sel.found = false := by simpa using hfound
    by_cases hmatch : Matches scriptHash slot
    · have hsel : selectSlot scriptHash sel slot =
          { found := true, startChunkId := UInt32.ofNat (ofLe (slice slot 21 4)), numChunks := slot.getD 25 0 } := by
        unfold selectSlot
        simp only [hiff.mpr hmatch, hfalse]
        rfl
      rw [hsel]
      exact ⟨⟨fun _ => hmem.mpr (.inr hmatch), fun _ => rfl⟩,
        fun _ => ⟨slot, by simp, hmatch, rfl, rfl⟩, fun hnot => by cases hnot⟩
    · have hsel : selectSlot scriptHash sel slot = sel := by
        unfold selectSlot
        simp only [Bool.eq_false_iff.mpr (mt hiff.mp hmatch), Bool.false_and, Bool.or_false, Ct.cmov_false]
      rw [hsel]
      refine ⟨⟨fun ht => absurd ht hfound, fun hx => ?_⟩, fun ht => absurd ht hfound, h.absent⟩
      exact absurd ((hmem.mp hx).resolve_right hmatch) hnone

theorem Selects.slots {seen slots : List Bytes} {sel : Selected} (h : Selects scriptHash seen sel)
    (hlen : ∀ slot ∈ slots, slot.length = indexSlotSize) :
    Selects scriptHash (seen ++ slots) (slots.foldl (selectSlot scriptHash) sel) := by
  induction slots generalizing seen sel with
  | nil => simpa using h
  | cons slot slots ih =>
    have hrest := ih (h.slot (hlen slot (by simp))) fun x hx => hlen x (by simp [hx])
    rwa [List.append_assoc, List.singleton_append] at hrest

theorem foldlM_eq_ok {α β : Type} {f : β → α → Result β} {g : β → α → β} {l : List α}
    (h : ∀ a ∈ l, ∀ b, f b a = .ok (g b a)) (b : β) : l.foldlM f b = .ok (l.foldl g b) := by
  induction l generalizing b with
  | nil => rfl
  | cons a l ih =>
    rw [List.foldlM_cons, h a (by simp), List.foldl_cons]
    exact ih (fun a ha => h a (by simp [ha])) (g b a)

/-- A bin is scanned slot by slot. -/
theorem Selects.bin {seen slots : List Bytes} {sel sel' : Selected} (h : Selects scriptHash seen sel)
    (hlen : ∀ slot ∈ slots, slot.length = indexSlotSize) {slotsPerBin : Nat} (hcount : slots.length = slotsPerBin)
    (hrun : selectIndexRecordFromBin slots.flatten slotsPerBin scriptHash sel = .ok sel') :
    Selects scriptHash (seen ++ slots) sel' := by
  have hflat : slots.flatten.length = slotsPerBin * indexSlotSize := by
    rw [length_flatten_of_lengths hlen, hcount]
  have hslots : (List.range slotsPerBin).map (fun slotIdx => slice slots.flatten (slotIdx * indexSlotSize) indexSlotSize)
      = slots := by
    apply List.ext_getElem
    · rw [List.length_map, List.length_range, hcount]
    · intro j hj hj'
      rw [List.getElem_map, List.getElem_range, slice_flatten hlen hj']
  rw [selectIndexRecordFromBin] at hrun
  split at hrun
  · cases hrun
  · rename_i hsame
    -- the bin has as many bytes as the product says, so the product did not wrap
    have hbound : slots.flatten.length < 2 ^ 64 := by
      rw [Decidable.not_not.mp hsame]
      exact usizeMul_lt _ _
    rw [foldlM_eq_ok (g := fun sel slotIdx =>
      selectSlot scriptHash sel (slice slots.flatten (slotIdx * indexSlotSize) indexSlotSize))] at hrun
    · cases hrun
      have hfold := h.slots hlen
      rw [← hslots, List.foldl_map, hslots] at hfold
      exact hfold
    · intro slotIdx hidx sel
      have hend : slotIdx * indexSlotSize + indexSlotSize ≤ slots.flatten.length := by
        rw [hflat, ← Nat.succ_mul]
        exact Nat.mul_le_mul_right _ (List.mem_range.mp hidx)
      rw [usizeMul_of_lt (by omega), byteRange_of_le hbound hend]
      rfl

/-! ## What the blocks hold -/

theorem indexRecord_ok {source : SourceFile} {i : Nat} {record : Bytes} (h : indexRecord source.bytes i = .ok record) :
    record = recordAt source i ∧ record.length = indexInputRecordSize := by
  unfold indexRecord at h
  simp only at h
  split at h
  · cases h
  · split at h
    · cases h
    · cases h
      exact ⟨rfl, slice_length (by omega)⟩

namespace IndexPackedBlockReader

variable {r : IndexPackedBlockReader} {f : Nat → Bytes}

theorem encodeSlot_ok {outLen base slotIdx : Nat} {slot : Bytes} (h : r.encodeSlot outLen base slotIdx = .ok slot) :
    slot.length = indexSlotSize ∧ usizeMul slotIdx indexSlotSize + indexSlotSize ≤ outLen ∧
    ∃ recordIdx, r.placement[base + slotIdx]? = some recordIdx ∧
      (recordIdx = emptySlot ∧ slot = List.replicate indexSlotSize 0 ∨
        recordIdx ≠ emptySlot ∧ slot = 1 :: recordAt r.info.source recordIdx.toNat) := by
  unfold encodeSlot at h
  split at h
  · cases h
  · rename_i recordIdx hget
    obtain ⟨⟨⟩, hrange, h⟩ := bind_result_ok h
    have hfits := checkRange_ok (by decide) hrange
    split at h
    · cases h
      exact ⟨List.length_replicate, hfits, recordIdx, hget, .inl ⟨‹_›, rfl⟩⟩
    · obtain ⟨record, hrecord, he⟩ := bind_result_ok h
      cases he
      obtain ⟨rfl, hlen⟩ := indexRecord_ok hrecord
      exact ⟨by rw [List.length_cons, hlen]; rfl, hfits, recordIdx, hget, .inr ⟨‹_›, rfl⟩⟩

/-- Slot `slotIdx` of a bin, as it is written. -/
def binSlot (r : IndexPackedBlockReader) (binId slotIdx : Nat) : Result Bytes :=
  r.encodeSlot r.metadata.itemSize (binId * r.info.slotsPerBin) slotIdx

def binSlots (r : IndexPackedBlockReader) (binId : Nat) : List Bytes :=
  (List.range r.info.slotsPerBin).map fun slotIdx => (r.binSlot binId slotIdx).toOption.getD []

/-- Every slot of the bin could be written. -/
def BinEncoded (r : IndexPackedBlockReader) (binId : Nat) : Prop :=
  ∀ slotIdx < r.info.slotsPerBin, ∃ slot, r.binSlot binId slotIdx = .ok slot

theorem binSlots_length (binId : Nat) : (r.binSlots binId).length = r.info.slotsPerBin := by
  rw [binSlots, List.length_map, List.length_range]

theorem mem_binSlots {binId : Nat} (h : r.BinEncoded binId) {slot : Bytes} :
    slot ∈ r.binSlots binId ↔ ∃ slotIdx < r.info.slotsPerBin, r.binSlot binId slotIdx = .ok slot := by
  rw [binSlots, List.mem_map]
  refine exists_congr fun slotIdx => ?_
  rw [List.mem_range]
  refine and_congr_right fun hidx => ?_
  obtain ⟨x, hx⟩ := h slotIdx hidx
  rw [hx]
  exact ⟨fun he => by rw [← he]; rfl, fun he => by cases he; rfl⟩

theorem binSlots_lengths {binId : Nat} (h : r.BinEncoded binId) : ∀ slot ∈ r.binSlots binId, slot.length = indexSlotSize := by
  intro slot hslot
  obtain ⟨slotIdx, -, he⟩ := (mem_binSlots h).mp hslot
  exact (encodeSlot_ok he).1

theorem encodeBin_ok (hsize : r.metadata.itemSize = usizeMul r.info.slotsPerBin indexSlotSize) {binId : Nat} {bin : Bytes}
    (h : r.encodeBin binId r.metadata.itemSize = .ok bin) :
    r.BinEncoded binId ∧ bin = (r.binSlots binId).flatten ∧ bin.length = r.metadata.itemSize := by
  rw [encodeBin, if_neg (by simp)] at h
  simp only at h
  split at h
  · cases h
  · obtain ⟨slots, hslots, h⟩ := bind_result_ok h
    have hall := mapM_eq_ok hslots
    have henc : r.BinEncoded binId := fun slotIdx hidx => by
      have hget := hall.get (i := slotIdx) (by simpa using hidx) (by rw [← hall.length_eq]; simpa using hidx)
      rw [List.get_eq_getElem, List.getElem_range] at hget
      exact ⟨_, hget⟩
    have he : slots = r.binSlots binId := by
      have hmap : List.Forall₂ (fun slotIdx slot => (r.binSlot binId slotIdx).toOption.getD [] = slot)
          (List.range r.info.slotsPerBin) slots :=
        hall.imp fun slotIdx slot hslot => by rw [binSlot, hslot]; rfl
      rw [binSlots]
      exact (List.forall₂_eq_eq_eq ▸ List.forall₂_map_left_iff.mpr hmap : _ = slots).symm
    subst he
    -- every slot ended inside the bin, so the size of the bin did not wrap
    have hfits : r.info.slotsPerBin * indexSlotSize ≤ r.metadata.itemSize := by
      refine pieces_le (hsize ▸ usizeMul_lt _ _) fun slotIdx hidx => ?_
      obtain ⟨slot, hslot⟩ := henc slotIdx hidx
      exact (encodeSlot_ok hslot).2.1
    have hexact : r.metadata.itemSize = r.info.slotsPerBin * indexSlotSize :=
      Nat.le_antisymm (hsize ▸ usizeMul_le _ _) hfits
    have hlen : (r.binSlots binId).flatten.length = r.metadata.itemSize := by
      rw [length_flatten_of_lengths (binSlots_lengths henc), binSlots_length, hexact]
    rw [hlen, Nat.sub_self, List.replicate_zero, List.append_nil] at h
    cases h
    exact ⟨henc, rfl, hlen⟩

/-- The bins of a block of a payload size that may have wrapped: those there are end inside
    what is left of it. -/
theorem readBlock_ok (hsize : r.metadata.itemSize = usizeMul r.info.slotsPerBin indexSlotSize)
    (hpayload : r.metadata.blockPayloadBytes < 2 ^ 64) {k : Nat} {block : Bytes} (h : r.readBlock k = .ok block) :
    (∀ binId ∈ itemsOf r.metadata.totalItems r.metadata.itemsPerBlock k,
      r.BinEncoded binId ∧ (r.binSlots binId).flatten.length = r.metadata.itemSize) ∧
    (itemsOf r.metadata.totalItems r.metadata.itemsPerBlock k).length * r.metadata.itemSize ≤ r.metadata.blockPayloadBytes ∧
    ∃ rest, block = ((itemsOf r.metadata.totalItems r.metadata.itemsPerBlock k).map
      fun binId => (r.binSlots binId).flatten).flatten ++ rest := by
  unfold readBlock at h
  split at h
  · cases h
  · obtain ⟨bins, hbins, h⟩ := bind_result_ok h
    cases h
    have hall := mapM_eq_ok hbins
    have hone : ∀ j (hj : j < (itemsOf r.metadata.totalItems r.metadata.itemsPerBlock k).length), ∃ bin,
        checkRange r.metadata.blockPayloadBytes (usizeMul j r.metadata.itemSize) r.metadata.itemSize = .ok () ∧
        r.encodeBin (itemsOf r.metadata.totalItems r.metadata.itemsPerBlock k)[j] r.metadata.itemSize = .ok bin := by
      intro j hj
      have hget := hall.get hj (by rw [← hall.length_eq]; exact hj)
      obtain ⟨⟨⟩, hrange, hbin⟩ := bind_result_ok hget
      rw [List.get_eq_getElem, List.getElem_range', Nat.one_mul, Nat.add_sub_cancel_left] at hrange
      exact ⟨_, hrange, hbin⟩
    refine ⟨?_, ?_, List.replicate (r.metadata.blockPayloadBytes - bins.flatten.length) 0, ?_⟩
    · intro binId hbin
      obtain ⟨j, hj, rfl⟩ := List.mem_iff_getElem.mp hbin
      obtain ⟨bin, -, henc⟩ := hone j hj
      obtain ⟨hencoded, rfl, hlen⟩ := encodeBin_ok hsize henc
      exact ⟨hencoded, hlen⟩
    · refine pieces_le hpayload fun j hj => ?_
      obtain ⟨bin, hrange, -⟩ := hone j hj
      exact checkRange_ok (hsize ▸ usizeMul_lt _ _) hrange
    · have hmap : List.Forall₂ (fun binId bin => (r.binSlots binId).flatten = bin)
          (itemsOf r.metadata.totalItems r.metadata.itemsPerBlock k) bins :=
        hall.imp fun binId bin hbin => by
          obtain ⟨⟨⟩, -, hbin⟩ := bind_result_ok hbin
          exact (encodeBin_ok hsize hbin).2.1.symm
      have he : (itemsOf r.metadata.totalItems r.metadata.itemsPerBlock k).map (fun binId => (r.binSlots binId).flatten)
          = bins := List.forall₂_eq_eq_eq ▸ List.forall₂_map_left_iff.mpr hmap
      rw [he]

/-- The bin, cut out of the block it is packed into. -/
theorem slice_block (hsize : r.metadata.itemSize = usizeMul r.info.slotsPerBin indexSlotSize)
    (hpayload : r.metadata.blockPayloadBytes < 2 ^ 64)
    (hblocks : r.metadata.logicalBlocks = divCeil r.metadata.totalItems r.metadata.itemsPerBlock)
    (hper : 0 < r.metadata.itemsPerBlock) (hf : ∀ k < r.metadata.logicalBlocks, r.readBlock k = .ok (f k)) {binId : Nat}
    (hid : binId < r.metadata.totalItems) :
    r.BinEncoded binId ∧ slice (f (binId / r.metadata.itemsPerBlock))
      (usizeMul (binId % r.metadata.itemsPerBlock) r.metadata.itemSize) r.metadata.itemSize = (r.binSlots binId).flatten := by
  have hall : ∀ i < r.metadata.totalItems, r.BinEncoded i ∧ (r.binSlots i).flatten.length = r.metadata.itemSize := by
    intro i hi
    obtain ⟨hbins, -, -⟩ := readBlock_ok hsize hpayload (hf _ (hblocks ▸ lt_divCeil hi))
    obtain ⟨hsplit, hlt⟩ := packed_div_mod hper i
    exact hbins i (mem_itemsOf.mpr ⟨by omega, hi, by omega⟩)
  obtain ⟨-, hfits, rest, hblock⟩ := readBlock_ok hsize hpayload (hf _ (hblocks ▸ lt_divCeil hid))
  have hplace : binId % r.metadata.itemsPerBlock * r.metadata.itemSize + r.metadata.itemSize ≤ _ := place_le_items hper hid
  refine ⟨(hall binId hid).1, ?_⟩
  rw [hblock, usizeMul_of_lt (by omega)]
  exact slice_items (fun i hi => (hall i hi).2) hper hid rest

end IndexPackedBlockReader

/-! ## The table and the file -/

/-- A block source built from an index file. -/
structure Indexed (fuel : Nat) (source : SourceFile) (r : IndexPackedBlockReader) : Prop where
  file : r.info.source = source
  records : r.info.records = source.bytes.length / indexInputRecordSize
  slots : 0 < r.info.slotsPerBin
  placed : Holding fuel r.info r.info.records r.placement
  bounded : r.info.records ≤ 2 ^ 32 - 1
  itemSize : r.metadata.itemSize = usizeMul r.info.slotsPerBin indexSlotSize
  per : 0 < r.metadata.itemsPerBlock
  totalItems : r.metadata.totalItems = r.info.totalItems
  slotsPerBin : r.metadata.slotsPerBin = r.info.slotsPerBin
  hashed : r.metadata.seed = r.info.seed ∧ r.metadata.hashFns = r.info.hashFns
  logicalBlocks : r.metadata.logicalBlocks = divCeil r.metadata.totalItems r.metadata.itemsPerBlock
  payload : r.metadata.blockPayloadBytes = usizeMul r.metadata.itemSize r.metadata.itemsPerBlock

theorem IndexPackedBlockReader.build_ok {round : Rat → Rat} {source : SourceFile} {slotsPerBin hashFns : Nat}
    {loadFactor : Rat} {seed : UInt64} {info : TableInfo} {fuel itemsPerBlock : Nat} {r : IndexPackedBlockReader}
    (hinfo : TableInfo.fromIndexFile round source slotsPerBin hashFns loadFactor seed = .ok info)
    (h : build fuel info itemsPerBlock = some (.ok r)) : Indexed fuel source r := by
  obtain ⟨hslots, -, rfl⟩ := TableInfo.fromIndexFile_ok hinfo
  unfold build at h
  split at h
  · cases h
  · obtain ⟨placement, hplacement, h⟩ := run_bind_ok h
    obtain ⟨metadata, hmetadata, h⟩ := run_bind_ok h
    obtain rfl := run_pure_ok h
    obtain ⟨hper, hm⟩ := TableMetadata.fromInfo_ok (Option.some.inj hmetadata)
    have hbounded : source.bytes.length / indexInputRecordSize ≤ 2 ^ 32 - 1 := by
      unfold buildDirectIndexPlacement at hplacement
      split at hplacement
      · cases hplacement
      · rename_i hle
        have : ¬ source.bytes.length / indexInputRecordSize > 2 ^ 32 - 1 := hle
        omega
    subst hm
    exact
      { file := rfl, records := rfl, slots := hslots, placed := placement_ok hslots hplacement, bounded := hbounded
        itemSize := rfl, per := hper, totalItems := rfl, slotsPerBin := rfl, hashed := ⟨rfl, rfl⟩, logicalBlocks := rfl
        payload := rfl }

variable {fuel : Nat} {source : SourceFile} {r : IndexPackedBlockReader}

/-- A slot that matches holds a record of the file. -/
theorem Indexed.of_matches (h : Indexed fuel source r) {binId : Nat} (henc : r.BinEncoded binId) {slot : Bytes}
    (hslot : slot ∈ r.binSlots binId) (hmatch : Matches scriptHash slot) :
    ∃ i < source.bytes.length / indexInputRecordSize, slot = 1 :: recordAt source i ∧
      recordHash source i = scriptHash.val := by
  obtain ⟨slotIdx, -, he⟩ := (IndexPackedBlockReader.mem_binSlots henc).mp hslot
  obtain ⟨-, -, recordIdx, hget, ⟨-, rfl⟩ | ⟨hne, rfl⟩⟩ := IndexPackedBlockReader.encodeSlot_ok he
  · -- an empty slot matches nothing
    exact absurd hmatch.1 (by decide)
  · obtain ⟨hlt, -⟩ := h.placed.wellPlaced.home _ recordIdx hget hne
    rw [h.file] at hmatch ⊢
    exact ⟨recordIdx.toNat, h.records ▸ hlt, rfl, hmatch.2⟩

/-- Every record of the file with the script hash is in a slot of a candidate bin. -/
theorem Indexed.exists_slot (h : Indexed fuel source r) {fuel' : Nat} {bins : List Nat}
    (hbins : IndexReader.candidates fuel' r.metadata scriptHash = some (.ok bins))
    (henc : ∀ binId ∈ bins, r.BinEncoded binId) {i : Nat} (hi : i < source.bytes.length / indexInputRecordSize)
    (hhash : recordHash source i = scriptHash.val) : ∃ binId ∈ bins, 1 :: recordAt source i ∈ r.binSlots binId := by
  rw [← h.records] at hi
  have hbounded := h.bounded
  have hidx : (UInt32.ofNat i).toNat = i := toNat_record (by omega)
  obtain ⟨pos, hpos, hget⟩ := List.mem_iff_getElem.mp (h.placed.records i hi)
  have hget? : r.placement[pos]? = some (UInt32.ofNat i) := List.getElem?_eq_some_iff.mpr ⟨hpos, hget⟩
  have hnonempty : UInt32.ofNat i ≠ emptySlot := record_ne_empty (by omega)
  obtain ⟨-, homes, hhomes, hhome⟩ := h.placed.wellPlaced.home pos _ hget? hnonempty
  -- its bin is one of those the lookup reads
  obtain ⟨record, hrecord, hcandidates⟩ := run_bind_ok hhomes
  obtain ⟨rfl, -⟩ := indexRecord_ok (Option.some.inj hrecord)
  have hsame : homes = bins := by
    have hscript : scriptHashFromRecord (recordAt r.info.source (UInt32.ofNat i).toNat) = scriptHash.val := by
      rw [hidx, h.file]
      exact hhash
    rw [hscript] at hcandidates
    unfold IndexReader.candidates at hbins
    rw [h.hashed.1, h.hashed.2, h.totalItems] at hbins
    exact Except.ok.inj (candidateBins_fuel hcandidates hbins)
  rw [hsame] at hhome
  obtain ⟨hsplit, hlt⟩ := packed_div_mod h.slots pos
  obtain ⟨slot, hslot⟩ := henc _ hhome (pos % r.info.slotsPerBin) hlt
  refine ⟨_, hhome, (IndexPackedBlockReader.mem_binSlots (henc _ hhome)).mpr ⟨_, hlt, ?_⟩⟩
  obtain ⟨-, -, recordIdx, hrec, hcases⟩ := IndexPackedBlockReader.encodeSlot_ok hslot
  rw [hsplit] at hrec
  obtain rfl := Option.some.inj (hget?.symm.trans hrec)
  obtain ⟨hempty, -⟩ | ⟨-, rfl⟩ := hcases
  · exact absurd hempty hnonempty
  · rw [hslot, hidx, h.file]

/-- The scan over located bins, of blocks `f`. -/
def selectAt (f : Nat → Bytes) (slotsPerBin : Nat) (scriptHash : ScriptHash) :
    List PackedItemLocation → Selected → Result Selected
  | [], sel => .ok sel
  | location :: locations, sel => do
    let bin ← byteRange (f location.logicalBlock) location.byteOffset location.byteLen
    let sel ← selectIndexRecordFromBin bin slotsPerBin scriptHash sel
    selectAt f slotsPerBin scriptHash locations sel

variable {f : Nat → Bytes}

theorem Indexed.selectAt_selects (h : Indexed fuel source r) (hf : ∀ k < r.metadata.logicalBlocks, r.readBlock k = .ok (f k))
    {bins : List Nat} {locations : List PackedItemLocation}
    (hlocate : List.Forall₂ (fun binId location => r.metadata.locate binId = .ok location) bins locations)
    {seen : List Bytes} {sel sel' : Selected} (hsel : Selects scriptHash seen sel)
    (hrun : selectAt f r.metadata.slotsPerBin scriptHash locations sel = .ok sel') :
    (∀ binId ∈ bins, r.BinEncoded binId) ∧ Selects scriptHash (seen ++ (bins.map r.binSlots).flatten) sel' := by
  induction hlocate generalizing seen sel with
  | nil =>
    cases hrun
    exact ⟨by simp, by simpa using hsel⟩
  | @cons binId location bins locations hone _ ih =>
    obtain ⟨bin, hbin, hscan⟩ := bind_result_ok hrun
    obtain ⟨next, hnext, hrest⟩ := bind_result_ok hscan
    clear hrun hscan
    obtain ⟨rfl, -, -, hid⟩ := locatePacked_ok hone
    obtain ⟨henc, hslice⟩ :=
      IndexPackedBlockReader.slice_block h.itemSize (h.payload ▸ usizeMul_lt _ _) h.logicalBlocks h.per
      hf hid
    obtain ⟨rfl, -⟩ := byteRange_ok (h.itemSize ▸ usizeMul_lt _ _) hbin
    rw [hslice] at hnext
    have hstep := hsel.bin (IndexPackedBlockReader.binSlots_lengths henc)
      (by rw [IndexPackedBlockReader.binSlots_length, h.slotsPerBin]) hnext
    obtain ⟨hencs, hselects⟩ := ih hstep hrest
    refine ⟨List.forall_mem_cons.mpr ⟨henc, hencs⟩, ?_⟩
    rwa [List.map_cons, List.flatten_cons, ← List.append_assoc]

/-- A scan of all the candidate bins answers from the file. -/
theorem Indexed.answers (h : Indexed fuel source r) (hf : ∀ k < r.metadata.logicalBlocks, r.readBlock k = .ok (f k))
    {fuel' : Nat} {bins : List Nat} {locations : List PackedItemLocation} {sel : Selected}
    (hbins : IndexReader.candidates fuel' r.metadata scriptHash = some (.ok bins))
    (hlocate : bins.mapM r.metadata.locate = .ok locations)
    (hrun : selectAt f r.metadata.slotsPerBin scriptHash locations nothingSelected = .ok sel) {answer : IndexLookup}
    (hanswer : answer.scriptHash = scriptHash ∧ answer.found = sel.found ∧ answer.startChunkId = sel.startChunkId ∧
      answer.numChunks = sel.numChunks) : Answers source scriptHash answer := by
  obtain ⟨henc, hsel⟩ := h.selectAt_selects hf (mapM_eq_ok hlocate) Selects.nil hrun
  rw [List.nil_append] at hsel
  have hfile : ∀ slot ∈ (bins.map r.binSlots).flatten, Matches scriptHash slot →
      ∃ i < source.bytes.length / indexInputRecordSize, slot = 1 :: recordAt source i ∧
        recordHash source i = scriptHash.val := by
    intro slot hslot hmatch
    obtain ⟨_, hl, hin⟩ := List.mem_flatten.mp hslot
    obtain ⟨binId, hid, rfl⟩ := List.mem_map.mp hl
    exact h.of_matches (henc binId hid) hin hmatch
  obtain ⟨hasked, hfound, hstart, hchunks⟩ := hanswer
  refine ⟨hasked, ?_, ?_, ?_⟩
  · rw [hfound, hsel.found]
    constructor
    · rintro ⟨slot, hslot, hmatch⟩
      obtain ⟨i, hi, -, hhash⟩ := hfile slot hslot hmatch
      exact ⟨i, hi, hhash⟩
    · rintro ⟨i, hi, hhash⟩
      obtain ⟨binId, hid, hslot⟩ := h.exists_slot hbins henc hi hhash
      exact ⟨_, List.mem_flatten.mpr ⟨_, List.mem_map_of_mem hid, hslot⟩, rfl, hhash⟩
  · rw [hfound, hstart, hchunks]
    intro hyes
    obtain ⟨slot, hslot, hmatch, hs, hc⟩ := hsel.record hyes
    obtain ⟨i, hi, rfl, hhash⟩ := hfile slot hslot hmatch
    exact ⟨i, hi, hhash, hs, hc⟩
  · rw [hfound, hstart, hchunks]
    exact hsel.absent

/-! ## The reader -/

section
variable {M P ρ : Type} {n : Nat} {I : CircuitOram M P ρ → Prop}

namespace IndexReader

theorem new_ok {m : TableMetadata} {oram : CircuitOram M P ρ} {q : IndexReader M P ρ} (h : new m oram = .ok q) :
    q = { metadata := m, oram } ∧ m.validate = .ok () ∧ m.level = .index ∧ oram.params.logicalBlocks = m.logicalBlocks := by
  obtain ⟨⟨⟩, hvalid, h⟩ := bind_result_ok h
  split at h
  · cases h
  · rename_i hlevel
    obtain ⟨⟨⟩, hdims, h⟩ := bind_result_ok h
    cases h
    exact ⟨rfl, hvalid, Classical.not_not.mp hlevel, (validateOramDimensions_ok hdims).1⟩

theorem new_oram {m : TableMetadata} {oram : CircuitOram M P ρ} {q : IndexReader M P ρ} (h : new m oram = .ok q) :
    q.oram = oram := by
  rw [(new_ok h).1]

/-- A reader whose controller is in a state of `I`, of `n` blocks. -/
structure Ready (n : Nat) (I : CircuitOram M P ρ → Prop) (q : IndexReader M P ρ) : Prop where
  inRange : ∀ {binId location}, q.metadata.locate binId = .ok location → location.logicalBlock < n
  bounded : n < 2 ^ 64
  state : I q.oram

theorem Ready.step {q q' : IndexReader M P ρ} (h : Ready n I q) (hm : q'.metadata = q.metadata) (hs : I q'.oram) :
    Ready n I q' := ⟨by rw [hm]; exact h.inRange, h.bounded, hs⟩

theorem ready_of_new {m : TableMetadata} {oram : CircuitOram M P ρ} {q : IndexReader M P ρ} (h : new m oram = .ok q)
    (hs : I oram) : Ready m.logicalBlocks I q := by
  obtain ⟨rfl, hvalid, -, hparams⟩ := new_ok h
  refine ⟨TableMetadata.locate_lt (TableMetadata.validate_ok hvalid).2.2.1, ?_, hs⟩
  rw [← hparams]
  exact oram.params.logicalBlocks_lt

theorem onOram_ok {α : Type} {m : Eff Error (CircuitOram M P ρ) α} {q q' : IndexReader M P ρ} {a : α}
    (h : onOram m q = (.ok a, q')) : m q.oram = (.ok a, q'.oram) ∧ q'.metadata = q.metadata := by
  have h1 := congrArg Prod.fst h
  have h2 := congrArg Prod.snd h
  cases h2
  exact ⟨Prod.ext h1 rfl, rfl⟩

/-- The candidate bins of a script hash and their places. -/
def Located (fuel : Nat) (m : TableMetadata) (scriptHash : ScriptHash) (located : List Nat × List PackedItemLocation) : Prop :=
  candidates fuel m scriptHash = some (.ok located.1) ∧ located.1.mapM m.locate = .ok located.2

theorem candidateLocations_ok {fuel : Nat} {m : TableMetadata} {scriptHashes : List ScriptHash}
    {byLookup : List (List Nat × List PackedItemLocation)} (h : candidateLocations fuel m scriptHashes = some (.ok byLookup)) :
    List.Forall₂ (Located fuel m) scriptHashes byLookup := by
  induction scriptHashes generalizing byLookup with
  | nil =>
    obtain rfl := run_pure_ok h
    exact .nil
  | cons scriptHash scriptHashes ih =>
    obtain ⟨bins, hbins, h⟩ := run_bind_ok h
    obtain ⟨locations, hlocations, h⟩ := run_bind_ok h
    obtain ⟨rest, hrest, h⟩ := run_bind_ok h
    obtain rfl := run_pure_ok h
    exact .cons ⟨hbins, Option.some.inj hlocations⟩ (ih hrest)

/-- One lookup takes its blocks off the front of those of the batch. -/
theorem selectLocations_map (slotsPerBin : Nat) (locations : List PackedItemLocation) (rest : List Bytes) (sel : Selected) :
    selectLocations slotsPerBin scriptHash locations (locations.map (fun l => f l.logicalBlock) ++ rest) sel
      = (selectAt f slotsPerBin scriptHash locations sel).map fun sel => (sel, rest) := by
  induction locations generalizing sel with
  | nil => rfl
  | cons location locations ih =>
    rw [List.map_cons, List.cons_append, selectLocations, selectAt]
    rcases hbin : byteRange (f location.logicalBlock) location.byteOffset location.byteLen with e | bin
    · rfl
    · change (selectIndexRecordFromBin bin slotsPerBin scriptHash sel >>= _)
        = Except.map _ (selectIndexRecordFromBin bin slotsPerBin scriptHash sel >>= _)
      rcases hsel : selectIndexRecordFromBin bin slotsPerBin scriptHash sel with e | next
      · rfl
      · exact ih next

/-- What a batch says of one of its script hashes. -/
def Resolved (f : Nat → Bytes) (slotsPerBin : Nat) (item : ScriptHash × List Nat × List PackedItemLocation)
    (answer : IndexLookup) : Prop :=
  ∃ sel, selectAt f slotsPerBin item.1 item.2.2 nothingSelected = .ok sel ∧
    answer = { scriptHash := item.1, found := sel.found, startChunkId := sel.startChunkId, numChunks := sel.numChunks
               candidateBins := item.2.1, logicalBlocks := item.2.2.map (·.logicalBlock), drainedEvictions := 0 }

theorem resolveLookups_ok {slotsPerBin : Nat} {items : List (ScriptHash × List Nat × List PackedItemLocation)}
    {answers : List IndexLookup} (h : resolveLookups slotsPerBin items
      ((items.map (·.2.2)).flatten.map fun l => f l.logicalBlock) = .ok answers) :
    List.Forall₂ (Resolved f slotsPerBin) items answers := by
  induction items generalizing answers with
  | nil =>
    cases h
    exact .nil
  | cons item items ih =>
    obtain ⟨scriptHash, bins, locations⟩ := item
    rw [List.map_cons, List.flatten_cons, List.map_append, resolveLookups, selectLocations_map] at h
    rcases hsel : selectAt f slotsPerBin scriptHash locations nothingSelected with e | sel <;> rw [hsel] at h
    · cases h
    · change (resolveLookups slotsPerBin items _ >>= _) = _ at h
      obtain ⟨rest, hrest, h⟩ := bind_result_ok h
      cases h
      exact .cons ⟨sel, hsel, rfl⟩ (ih hrest)

theorem located_inRange {fuel : Nat} {scriptHashes : List ScriptHash} {q : IndexReader M P ρ} (h : Ready n I q)
    {byLookup : List (List Nat × List PackedItemLocation)}
    (hlocated : List.Forall₂ (Located fuel q.metadata) scriptHashes byLookup) {location : PackedItemLocation}
    (hl : location ∈ (byLookup.map (·.2)).flatten) : location.logicalBlock < n := by
  obtain ⟨locations, hin, hmem⟩ := List.mem_flatten.mp hl
  obtain ⟨located, hlook, rfl⟩ := List.mem_map.mp hin
  obtain ⟨j, hj, rfl⟩ := List.mem_iff_getElem.mp hlook
  have hall := mapM_eq_ok (hlocated.get (by rw [hlocated.length_eq]; exact hj) hj).2
  obtain ⟨k, hk, rfl⟩ := List.mem_iff_getElem.mp hmem
  exact h.inRange (hall.get (by rw [hall.length_eq]; exact hk) hk)

variable [PathPageStore M] [PathPageStore P] [Rng ρ] (hreads : ReadsBack n f I)
include hreads

theorem lookupLoop_ok {drainPerRead : UInt64} {bins : List Nat} {done done' : Progress} {q q' : IndexReader M P ρ}
    (h : Ready n I q) (hrun : lookupLoop scriptHash drainPerRead bins done q = (.ok done', q')) :
    (∃ locations, bins.mapM q.metadata.locate = .ok locations ∧
      selectAt f q.metadata.slotsPerBin scriptHash locations done.selected = .ok done'.selected ∧
      done'.logicalBlocks = done.logicalBlocks ++ locations.map (·.logicalBlock)) ∧
    Ready n I q' ∧ q'.metadata = q.metadata := by
  induction bins generalizing done q with
  | nil =>
    cases hrun
    exact ⟨⟨[], rfl, rfl, by simp⟩, h, rfl⟩
  | cons binId bins ih =>
    rw [lookupLoop, Eff.get_bind] at hrun
    obtain ⟨location, hlocate, hrun⟩ := Eff.lift_bind_eq_ok hrun
    obtain ⟨block, q1, hread, hrun⟩ := Eff.bind_eq_ok hrun
    obtain ⟨bin, hbin, hrun⟩ := Eff.lift_bind_eq_ok hrun
    obtain ⟨selected, hsel, hrun⟩ := Eff.lift_bind_eq_ok hrun
    obtain ⟨drained, q4, hdrain, hrest⟩ := Eff.bind_eq_ok hrun
    obtain ⟨hread, hm1⟩ := onOram_ok hread
    obtain ⟨hdrain, hm4⟩ := onOram_ok hdrain
    have hlt := h.inRange hlocate
    have hid : (UInt64.ofNat location.logicalBlock).toNat = location.logicalBlock := by
      have := h.bounded
      rw [UInt64.toNat_ofNat', Nat.mod_eq_of_lt (by omega)]
    obtain ⟨hblock, hs1⟩ := hreads.read h.state (by rwa [hid]) hread
    rw [hblock, hid] at hbin
    have hs4 := hreads.drainEvictions hs1 hdrain
    obtain ⟨⟨locations, hmap, hselect, hblocks⟩, hready, hm⟩ := ih (h.step (hm4.trans hm1) hs4) hrest
    rw [hm4, hm1] at hmap hselect
    refine ⟨⟨location :: locations, ?_, ?_, ?_⟩, hready, hm.trans (hm4.trans hm1)⟩
    · rw [List.mapM_cons, hlocate, hmap]
      rfl
    · rw [selectAt, hbin]
      change (selectIndexRecordFromBin bin _ _ _ >>= _) = _
      rw [hsel]
      exact hselect
    · rw [hblocks, List.append_assoc]
      rfl

theorem lookupIn_ok {fuel : Nat} {drainPerRead : UInt64} {answer : IndexLookup} {q q' : IndexReader M P ρ}
    (h : Ready n I q) (hrun : lookup fuel scriptHash drainPerRead q = some (.ok answer, q')) :
    ∃ bins locations sel, candidates fuel q.metadata scriptHash = some (.ok bins) ∧
      bins.mapM q.metadata.locate = .ok locations ∧
      selectAt f q.metadata.slotsPerBin scriptHash locations nothingSelected = .ok sel ∧
      answer = { scriptHash, found := sel.found, startChunkId := sel.startChunkId, numChunks := sel.numChunks
                 candidateBins := bins, logicalBlocks := locations.map (·.logicalBlock)
                 drainedEvictions := answer.drainedEvictions } := by
  obtain ⟨found, hcandidates, hrun⟩ := Option.map_eq_some_iff.mp hrun
  obtain ⟨bins, rfl, hbody⟩ := Eff.lift_bind_eq_ok hrun
  obtain ⟨done, q1, hloop, hlast⟩ := Eff.bind_eq_ok hbody
  obtain ⟨⟨locations, hlocate, hsel, hblocks⟩, -, -⟩ := lookupLoop_ok hreads h hloop
  refine ⟨bins, locations, done.selected, hcandidates, hlocate, hsel, ?_⟩
  cases hlast
  rw [hblocks]
  rfl

theorem lookupManyBatched_ok {fuel : Nat} {scriptHashes : List ScriptHash} {drainPerRead : UInt64} {batch : IndexBatchLookup}
    {q q' : IndexReader M P ρ} (h : Ready n I q)
    (hrun : lookupManyBatched fuel scriptHashes drainPerRead q = some (.ok batch, q')) :
    ∃ byLookup, candidateLocations fuel q.metadata scriptHashes = some (.ok byLookup) ∧
      List.Forall₂ (Resolved f q.metadata.slotsPerBin) (scriptHashes.zip byLookup) batch.lookups := by
  obtain ⟨found, hcandidates, hrun⟩ := Option.map_eq_some_iff.mp hrun
  obtain ⟨byLookup, rfl, hbody⟩ := Eff.lift_bind_eq_ok hrun
  obtain ⟨blocks, q1, hread, hrest⟩ := Eff.bind_eq_ok hbody
  rw [Eff.get_bind] at hrest
  obtain ⟨answers, hresolve, hlast⟩ := Eff.lift_bind_eq_ok hrest
  obtain ⟨drained, q2, -, hdone⟩ := Eff.bind_eq_ok hlast
  obtain ⟨hread, hm⟩ := onOram_ok hread
  have hlocated := candidateLocations_ok hcandidates
  have hsnd := List.map_snd_zip (Nat.le_of_eq hlocated.length_eq.symm)
  have hflat : (scriptHashes.zip byLookup).map (·.2.2) = byLookup.map (·.2) :=
    calc (scriptHashes.zip byLookup).map (·.2.2)
      _ = ((scriptHashes.zip byLookup).map Prod.snd).map (·.2) := by rw [List.map_map]; rfl
      _ = byLookup.map (·.2) := by rw [hsnd]
  have hids : ∀ location ∈ (byLookup.map (·.2)).flatten, location.logicalBlock < n ∧
      (UInt64.ofNat location.logicalBlock).toNat = location.logicalBlock := by
    intro location hl
    have hlt := located_inRange h hlocated hl
    have := h.bounded
    exact ⟨hlt, by rw [UInt64.toNat_ofNat', Nat.mod_eq_of_lt (by omega)]⟩
  obtain ⟨hblocks, -⟩ := hreads.readBatch h.state (by
    intro id hid
    obtain ⟨location, hl, rfl⟩ := List.mem_map.mp hid
    rw [(hids location hl).2]
    exact (hids location hl).1) hread
  rw [List.map_map] at hblocks
  have hsame : blocks = (((scriptHashes.zip byLookup).map (·.2.2)).flatten.map fun l => f l.logicalBlock) := by
    rw [hblocks, hflat]
    exact List.map_congr_left fun l hl => congrArg f (hids l hl).2
  rw [hsame, hm] at hresolve
  cases hdone
  exact ⟨byLookup, hcandidates, resolveLookups_ok hresolve⟩

end IndexReader

/-! ## End to end -/

/-- Every lookup that ends well, alone or in a batch, answers from the file. -/
theorem lookups_answer [PathPageStore M] [PathPageStore P] [Rng ρ] {round : Rat → Rat} {slotsPerBin hashFns : Nat}
    {loadFactor : Rat} {seed : UInt64} {info : TableInfo} {itemsPerBlock : Nat} {oram : CircuitOram M P ρ}
    {q : IndexReader M P ρ}
    (hinfo : TableInfo.fromIndexFile round source slotsPerBin hashFns loadFactor seed = .ok info)
    (hbuild : IndexPackedBlockReader.build fuel info itemsPerBlock = some (.ok r))
    (hf : ∀ k < r.metadata.logicalBlocks, r.readBlock k = .ok (f k)) (hreads : ReadsBack r.metadata.logicalBlocks f I)
    (hs : I oram) (hnew : IndexReader.new r.metadata oram = .ok q) :
    (∀ fuel' scriptHash drainPerRead answer q', q.lookup fuel' scriptHash drainPerRead = some (.ok answer, q') →
      Answers source scriptHash answer) ∧
    ∀ fuel' scriptHashes drainPerRead batch q', q.lookupManyBatched fuel' scriptHashes drainPerRead = some (.ok batch, q') →
      List.Forall₂ (Answers source) scriptHashes batch.lookups := by
  have hindexed := IndexPackedBlockReader.build_ok hinfo hbuild
  have hready := IndexReader.ready_of_new hnew hs
  obtain ⟨rfl, -⟩ := IndexReader.new_ok hnew
  constructor
  · intro fuel' scriptHash drainPerRead answer q' hrun
    obtain ⟨bins, locations, sel, hbins, hlocate, hsel, hanswer⟩ := IndexReader.lookupIn_ok hreads hready hrun
    exact hindexed.answers hf hbins hlocate hsel (by rw [hanswer]; exact ⟨rfl, rfl, rfl, rfl⟩)
  · intro fuel' scriptHashes drainPerRead batch q' hrun
    obtain ⟨byLookup, hcandidates, hall⟩ := IndexReader.lookupManyBatched_ok hreads hready hrun
    have hlocated := IndexReader.candidateLocations_ok hcandidates
    clear hrun hcandidates
    generalize batch.lookups = answers at hall
    induction hlocated generalizing answers with
    | nil => cases hall; exact .nil
    | cons hone _ ih =>
      rw [List.zip_cons_cons] at hall
      cases hall with
      | cons hfirst hrest =>
        obtain ⟨sel, hsel, hanswer⟩ := hfirst
        refine .cons ?_ (ih _ hrest)
        exact hindexed.answers hf hone.1 hone.2 hsel (by rw [hanswer]; exact ⟨rfl, rfl, rfl, rfl⟩)

end

/-- Blocks read from the source are the blocks it serves. -/
def IndexPackedBlockReader.honest : HonestSource IndexPackedBlockReader where
  Serves f r := ∀ k block, r.readBlock k = .ok block → block = f k
  readBlock {f s k x t} h hrun := by
    obtain ⟨hx, rfl⟩ := Prod.mk.inj hrun
    exact ⟨h k x hx, h⟩

/-! ## A small index -/

def smallIndexFile : SourceFile where
  path := "utxo_chunks_index_nodust.bin"
  bytes := List.replicate 20 1 ++ [5, 0, 0, 0, 3] ++ (List.replicate 20 2 ++ [9, 0, 0, 0, 1])

def smallIndexInfo : TableInfo :=
  (TableInfo.fromIndexFile id smallIndexFile 1 2 (1 / 2) 7).toOption.get (by decide +kernel)

/-- Four bins of one slot, two to a block. -/
def smallIndexSource : IndexPackedBlockReader :=
  (Option.bind (IndexPackedBlockReader.build 8 smallIndexInfo 2) Except.toOption).get (by decide +kernel)

def smallIndexParams : OramParams := { smallParams with blockSize := 52, blockSize_pos := by decide }

def smallIndexBuild : Result (CircuitOram MemPageStore MemPageStore ZeroSeedRng) :=
  CircuitOram.buildTrustedFromSource smallIndexParams (zeroPages 3 13 smallMetaPage_pos) (zeroPages 3 52 (by decide))
    smallIndexSource (FixedBytes.zero 32)

def smallIndexOram : CircuitOram MemPageStore MemPageStore ZeroSeedRng :=
  smallIndexBuild.toOption.get (by decide +kernel)

def smallIndexReader : IndexReader MemPageStore MemPageStore ZeroSeedRng :=
  (IndexReader.new smallIndexSource.metadata smallIndexOram).toOption.get (by decide +kernel)

def smallIndexBlock (k : Nat) : Bytes := (smallIndexSource.readBlock k).toOption.getD []

theorem smallIndexSource_build : IndexPackedBlockReader.build 8 smallIndexInfo 2 = some (.ok smallIndexSource) := by
  have hsome : some smallIndexSource = Option.bind (IndexPackedBlockReader.build 8 smallIndexInfo 2) Except.toOption :=
    Option.some_get _
  rcases hb : (IndexPackedBlockReader.build 8 smallIndexInfo 2 : Option (Result _)) with _ | _ | r <;> rw [hb] at hsome
  · cases hsome
  · cases hsome
  · rw [Option.some.inj hsome]

theorem smallIndexReader_holds : HoldsBlocks smallIndexParams MemPageStore.honest MemPageStore.honest
    IndexPackedBlockReader.honest smallIndexBlock smallIndexOram := by
  have hbuild : smallIndexBuild = .ok smallIndexOram := toOption_get _
  refine ⟨smallIndexBlock, .build (MemPageStore.holds_self _) (MemPageStore.holds_self _) (fun k block hread => ?_) hbuild,
    fun k _ => rfl⟩
  rw [smallIndexBlock, hread]
  rfl

theorem smallIndexReader_new : IndexReader.new smallIndexSource.metadata smallIndexOram = .ok smallIndexReader :=
  toOption_get _

def smallHash (x : UInt8) : ScriptHash := ⟨List.replicate scriptHashSize x, List.length_replicate⟩

/-- A run of which the result is known. -/
theorem exists_run {α σ : Type} {x : Option (Result α × σ)} {a : α} (h : x.bind (fun y => y.1.toOption) = some a) :
    ∃ s, x = some (.ok a, s) := by
  rcases x with _ | ⟨e | b, s⟩
  · cases h
  · cases h
  · cases h
    exact ⟨s, rfl⟩

def smallLookup : IndexLookup :=
  { scriptHash := smallHash 2, found := true, startChunkId := 9, numChunks := 1, candidateBins := [0, 2]
    logicalBlocks := [0, 1], drainedEvictions := 2 }

def smallBatchLookup : IndexBatchLookup where
  lookups :=
    [{ scriptHash := smallHash 1, found := true, startChunkId := 5, numChunks := 3, candidateBins := [0, 3]
       logicalBlocks := [0, 1], drainedEvictions := 0 },
     { scriptHash := smallHash 3, found := false, startChunkId := 0, numChunks := 0, candidateBins := [1, 0]
       logicalBlocks := [0, 0], drainedEvictions := 0 }]
  drainedEvictions := 4

theorem lookups_answer_smallIndex : Answers smallIndexFile (smallHash 2) smallLookup ∧
    List.Forall₂ (Answers smallIndexFile) [smallHash 1, smallHash 3] smallBatchLookup.lookups := by
  have hblocks : ∀ k < smallIndexSource.metadata.logicalBlocks, smallIndexSource.readBlock k = .ok (smallIndexBlock k) := by
    decide +kernel
  have hcount : smallIndexSource.metadata.logicalBlocks = smallIndexParams.logicalBlocks := by decide +kernel
  have hinfo : TableInfo.fromIndexFile id smallIndexFile 1 2 (1 / 2) 7 = .ok smallIndexInfo := toOption_get _
  obtain ⟨hone, hmany⟩ := lookups_answer hinfo smallIndexSource_build hblocks
    (hcount ▸ Reached.readsBack smallIndexBlock) smallIndexReader_holds smallIndexReader_new
  constructor
  · obtain ⟨q', hrun⟩ := exists_run (x := smallIndexReader.lookup 8 (smallHash 2) 1) (a := smallLookup) (by decide +kernel)
    exact hone _ _ _ _ _ hrun
  · obtain ⟨q', hrun⟩ := exists_run (x := smallIndexReader.lookupManyBatched 8 [smallHash 1, smallHash 3] 1)
      (a := smallBatchLookup) (by decide +kernel)
    exact hmany _ _ _ _ _ hrun

end BpirOram.Direct
