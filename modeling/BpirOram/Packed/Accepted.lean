/-
  BpirOram.Packed.Accepted — what the size checks of a cuckoo header (`cuckoo.rs`) and of
  direct metadata (`direct.rs`) promise, with `usize` products that wrap.

  A header passes when the length of its file is the exact one modulo 2^64, metadata when the
  payload size is.
  - `Cuckoo.accepted_describes_iff`: when an accepted header describes its file.
  - `Direct.accepted_inBounds_iff`: when accepted metadata keeps every item in its block.
-/

import BpirOram.Packed.Cuckoo

namespace BpirOram.Cuckoo

open Lib

/-! ## The header of a cuckoo table -/

/-- Where `read_block` begins to copy, for a block that starts with bin `startBin`. -/
def binOffset (t : TableInfo) (startBin : Nat) : Nat := usizeAdd t.dataOffset (usizeMul startBin t.binSize)

/-- The header describes exactly the file: it accounts for every byte, and every bin id
    has bytes of its own, where `read_block` looks for them. -/
structure DescribesFile (t : TableInfo) : Prop where
  length : t.dataOffset + t.k * t.binsPerTable * t.slotsPerBin * t.slotSize = t.source.bytes.length
  bins : t.totalBins = t.k * t.binsPerTable
  size : t.binSize = t.slotsPerBin * t.slotSize
  offset : ∀ i < t.totalBins, binOffset t i = t.dataOffset + i * (t.slotsPerBin * t.slotSize)
  inside : ∀ i < t.totalBins, binOffset t i + t.binSize ≤ t.source.bytes.length
  apart : ∀ i < t.totalBins, ∀ j < t.totalBins, i ≠ j →
    binOffset t i + t.binSize ≤ binOffset t j ∨ binOffset t j + t.binSize ≤ binOffset t i

section
variable {level : Level} {source : SourceFile} {info : TableInfo}

/-- A bin in range ends before the file does. -/
theorem TableInfo.FieldsFit.bin_end_le (h : info.FieldsFit) {i : Nat} (hi : i < info.totalBins) :
    info.dataOffset + i * info.binSize + info.binSize ≤ info.fileLength := by
  have hmul : (i + 1) * info.binSize ≤ info.totalBins * info.binSize := Nat.mul_le_mul_right _ hi
  rw [Nat.succ_mul, h.totalBins_eq, h.binSize_eq, ← Nat.mul_assoc (info.k * info.binsPerTable)] at hmul
  rw [TableInfo.fileLength, h.binSize_eq]
  omega

theorem TableInfo.Accepted.describesFile (h : info.Accepted) (hfile : info.fileLength < 2 ^ 64) : DescribesFile info := by
  have hlength := h.length
  rw [Nat.mod_eq_of_lt hfile] at hlength
  have hoffset : ∀ i < info.totalBins, binOffset info i = info.dataOffset + i * info.binSize := by
    intro i hi
    have hend := h.fields.bin_end_le hi
    rw [binOffset, usizeMul_of_lt (by omega), usizeAdd_of_lt (by omega)]
  refine ⟨hlength.symm, h.fields.totalBins_eq, h.fields.binSize_eq, ?_, ?_, ?_⟩
  · intro i hi
    rw [hoffset i hi, h.fields.binSize_eq]
  · intro i hi
    rw [hoffset i hi, hlength]
    exact h.fields.bin_end_le hi
  · intro i hi j hj hne
    rw [hoffset i hi, hoffset j hj]
    rcases Nat.lt_or_gt_of_ne hne with hlt | hgt
    · left
      have hmul := Nat.mul_le_mul_right info.binSize (Nat.succ_le_of_lt hlt)
      rw [Nat.succ_mul] at hmul
      omega
    · right
      have hmul := Nat.mul_le_mul_right info.binSize (Nat.succ_le_of_lt hgt)
      rw [Nat.succ_mul] at hmul
      omega

/-- An accepted header describes its file when nothing was reduced. -/
theorem accepted_describes_iff (h : TableInfo.fromFile level source = .ok info) :
    DescribesFile info ↔ info.dataOffset + info.k * info.binsPerTable * info.slotsPerBin * info.slotSize < 2 ^ 64 := by
  obtain ⟨rfl, -, haccepted⟩ := TableInfo.fromFile_ok h
  constructor
  · intro hdescribes
    rw [hdescribes.length]
    exact info.source.bytes_lt
  · exact haccepted.describesFile

theorem accepted_describes_iff_small : DescribesFile smallCuckooInfo :=
  (accepted_describes_iff (toOption_get _)).mpr (by decide +kernel)

/-- 2^31 groups of 2^31 bins of four INDEX slots: 13 * 2^64 bytes after the header. -/
def headerOnlyFile : SourceFile where
  path := "batch_pir_cuckoo.bin"
  bytes := [4, 0, 0, 0xC0, 0, 0xC0, 0x7C, 0xBA, 0, 0, 0, 128, 4, 0, 0, 0, 0, 0, 0, 128, 1, 0, 0, 0] ++ List.replicate 16 0

def headerOnlyInfo : TableInfo := (TableInfo.fromFile .index headerOnlyFile).toOption.get (by decide +kernel)

/-- A file of a header alone is accepted as a table of 2^62 bins. -/
theorem header_alone_accepted : TableInfo.fromFile .index headerOnlyFile = .ok headerOnlyInfo ∧
    headerOnlyFile.bytes.length = 40 ∧ headerOnlyInfo.totalBins = 2 ^ 62 ∧ ¬ DescribesFile headerOnlyInfo := by
  refine ⟨toOption_get _, by decide, by decide +kernel, fun hdescribes => ?_⟩
  have hne : headerOnlyInfo.dataOffset + headerOnlyInfo.k * headerOnlyInfo.binsPerTable * headerOnlyInfo.slotsPerBin *
      headerOnlyInfo.slotSize ≠ headerOnlyInfo.source.bytes.length := by decide +kernel
  exact hne hdescribes.length

end
end BpirOram.Cuckoo

/-! ## Direct metadata -/

namespace BpirOram.Direct

open Lib

section
variable {m : TableMetadata}

/-- Every item has its own place in a block in range, computed without a wrap, and can be
    cut out of a block of the payload size. -/
structure InBounds (m : TableMetadata) : Prop where
  located : ∀ i < m.totalItems, ∃ l, m.locate i = .ok l ∧ l.logicalBlock < m.logicalBlocks ∧
    l.byteOffset = i % m.itemsPerBlock * m.itemSize ∧ usizeAdd l.byteOffset l.byteLen = l.byteOffset + l.byteLen ∧
    l.byteLen = m.itemSize ∧ l.byteOffset + l.byteLen ≤ m.blockPayloadBytes
  apart : ∀ i j li lj, i ≠ j → m.locate i = .ok li → m.locate j = .ok lj → li.logicalBlock ≠ lj.logicalBlock ∨
    li.byteOffset + li.byteLen ≤ lj.byteOffset ∨ lj.byteOffset + lj.byteLen ≤ li.byteOffset
  cuts : ∀ i l block, m.locate i = .ok l → block.length = m.blockPayloadBytes →
    byteRange block l.byteOffset l.byteLen = .ok (slice block l.byteOffset m.itemSize)

/-- The last place that is used ends inside the payload. -/
def LastFits (m : TableMetadata) : Prop := min m.totalItems m.itemsPerBlock * m.itemSize ≤ m.blockPayloadBytes

theorem TableMetadata.locate_eq (hvalid : m.validate = .ok ()) {i : Nat} (hi : i < m.totalItems) : m.locate i = .ok
    { logicalBlock := i / m.itemsPerBlock, byteOffset := usizeMul (i % m.itemsPerBlock) m.itemSize
      byteLen := m.itemSize } := by
  obtain ⟨hper, hsize, -, -⟩ := TableMetadata.validate_ok hvalid
  unfold TableMetadata.locate locatePacked
  rw [if_neg (by omega), if_neg (by omega), if_neg (by omega)]

/-- Where the item's place ends. -/
theorem LastFits.place_le (hlast : LastFits m) (hper : 0 < m.itemsPerBlock) {i : Nat} (hi : i < m.totalItems) :
    i % m.itemsPerBlock * m.itemSize + m.itemSize ≤ m.blockPayloadBytes := by
  have hslot : i % m.itemsPerBlock < min m.totalItems m.itemsPerBlock := by
    have hmod := Nat.mod_lt i hper
    have hle := Nat.mod_le i m.itemsPerBlock
    omega
  have hmul := Nat.mul_le_mul_right m.itemSize (Nat.succ_le_of_lt hslot)
  rw [Nat.succ_mul] at hmul
  exact Nat.le_trans hmul hlast

theorem LastFits.inBounds (hlast : LastFits m) (hvalid : m.validate = .ok ()) : InBounds m := by
  obtain ⟨hper, -, hblocks, hpayload⟩ := TableMetadata.validate_ok hvalid
  have hlt : m.blockPayloadBytes < 2 ^ 64 := hpayload ▸ usizeMul_lt _ _
  have hoffset : ∀ i < m.totalItems, usizeMul (i % m.itemsPerBlock) m.itemSize = i % m.itemsPerBlock * m.itemSize := by
    intro i hi
    have hle := hlast.place_le hper hi
    exact usizeMul_of_lt (by omega)
  refine ⟨fun i hi => ?_, fun i j li lj hne hli hlj => ?_, fun i l block hl hlen => ?_⟩
  · have hle := hlast.place_le hper hi
    have hstop : usizeAdd (i % m.itemsPerBlock * m.itemSize) m.itemSize = i % m.itemsPerBlock * m.itemSize + m.itemSize :=
      usizeAdd_of_lt (Nat.lt_of_le_of_lt hle hlt)
    refine ⟨_, TableMetadata.locate_eq hvalid hi, hblocks ▸ lt_divCeil hi, hoffset i hi, ?_, rfl, ?_⟩
    · rw [hoffset i hi]
      exact hstop
    · rw [hoffset i hi]
      exact hle
  · obtain ⟨rfl, -, -, hi⟩ := locatePacked_ok hli
    obtain ⟨rfl, -, -, hj⟩ := locatePacked_ok hlj
    by_cases hblock : i / m.itemsPerBlock = j / m.itemsPerBlock
    · rw [hoffset i hi, hoffset j hj]
      exact .inr (places_disjoint hper hblock hne)
    · exact .inl hblock
  · obtain ⟨rfl, -, -, hi⟩ := locatePacked_ok hl
    rw [hoffset i hi]
    exact byteRange_of_le (hlen ▸ hlt) (hlen ▸ hlast.place_le hper hi)

/-- The last item of a full block, or of the table, has to fit. -/
theorem InBounds.lastFits (hbounds : InBounds m) : LastFits m := by
  unfold LastFits
  rcases Nat.eq_zero_or_pos (min m.totalItems m.itemsPerBlock) with hzero | hpos
  · rw [hzero, Nat.zero_mul]
    exact Nat.zero_le _
  · obtain ⟨l, -, -, hoffset, -, hlen, hle⟩ := hbounds.located (min m.totalItems m.itemsPerBlock - 1) (by omega)
    rw [Nat.mod_eq_of_lt (by omega)] at hoffset
    rw [hoffset, hlen, ← Nat.succ_mul] at hle
    rwa [Nat.succ_eq_add_one, Nat.sub_add_cancel hpos] at hle

theorem lastFits_iff (hpayload : m.blockPayloadBytes = usizeMul m.itemSize m.itemsPerBlock) : LastFits m ↔
    m.itemSize * m.itemsPerBlock < 2 ^ 64 ∨
      (m.totalItems < m.itemsPerBlock ∧ m.totalItems * m.itemSize ≤ m.itemSize * m.itemsPerBlock % 2 ^ 64) := by
  have hmod : m.itemSize * m.itemsPerBlock % 2 ^ 64 < 2 ^ 64 := Nat.mod_lt _ (Nat.two_pow_pos 64)
  unfold LastFits
  rw [hpayload, usizeMul]
  rcases Nat.lt_or_ge m.totalItems m.itemsPerBlock with hlt | hge
  · rw [Nat.min_eq_left (Nat.le_of_lt hlt)]
    constructor
    · intro hle
      exact .inr ⟨hlt, hle⟩
    · rintro (hfits | ⟨-, hle⟩)
      · rw [Nat.mod_eq_of_lt hfits, Nat.mul_comm m.itemSize]
        exact Nat.mul_le_mul_right _ (Nat.le_of_lt hlt)
      · exact hle
  · rw [Nat.min_eq_right hge, Nat.mul_comm m.itemsPerBlock]
    constructor
    · intro hle
      exact .inl (Nat.lt_of_le_of_lt hle hmod)
    · rintro (hfits | ⟨hlt, -⟩)
      · rw [Nat.mod_eq_of_lt hfits]
      · omega

/-- Accepted metadata keeps its items in bounds when the payload size did not wrap, or when
    a table of less than a block ends inside what the wrap has left. -/
theorem accepted_inBounds_iff (h : m.validate = .ok ()) : InBounds m ↔
    m.itemSize * m.itemsPerBlock < 2 ^ 64 ∨
      (m.totalItems < m.itemsPerBlock ∧ m.totalItems * m.itemSize ≤ m.itemSize * m.itemsPerBlock % 2 ^ 64) := by
  rw [← lastFits_iff (TableMetadata.validate_ok h).2.2.2]
  exact ⟨InBounds.lastFits, fun hlast => hlast.inBounds h⟩

end

/-- Three chunks, two to a block. -/
def smallMetadata : TableMetadata where
  version := 1
  level := .chunk
  totalItems := 3
  itemSize := 40
  itemsPerBlock := 2
  slotsPerBin := 1
  hashFns := 0
  seed := 0
  logicalBlocks := 2
  blockPayloadBytes := 80

theorem accepted_inBounds_iff_small : InBounds smallMetadata := (accepted_inBounds_iff rfl).mpr (by decide)

/-- One chunk, in blocks of so many that eight bytes are left of their size. -/
def wrappedMetadata : TableMetadata where
  version := 1
  level := .chunk
  totalItems := 1
  itemSize := 40
  itemsPerBlock := 922337203685477581
  slotsPerBin := 1
  hashFns := 0
  seed := 0
  logicalBlocks := 1
  blockPayloadBytes := 8

/-- The only chunk of accepted metadata lies in bytes 0 to 40 of an 8-byte block. -/
theorem wrapped_payload_accepted : wrappedMetadata.validate = .ok () ∧
    wrappedMetadata.locate 0 = .ok { logicalBlock := 0, byteOffset := 0, byteLen := 40 } ∧
    (∃ e, byteRange (List.replicate 8 0) 0 40 = .error e) ∧ ¬ InBounds wrappedMetadata := by
  refine ⟨by decide, by decide, ⟨_, rfl⟩, fun hbounds => ?_⟩
  obtain ⟨l, hl, -, -, -, -, hle⟩ := hbounds.located 0 (by decide)
  obtain ⟨rfl, -⟩ := locatePacked_ok hl
  exact absurd hle (by decide)

end BpirOram.Direct
