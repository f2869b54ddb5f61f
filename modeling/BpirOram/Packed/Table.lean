/-
  BpirOram.Packed.Table — tables whose items are packed into ORAM blocks as they lie in the
  source file (`direct.rs` for chunks, `cuckoo.rs` for bins).

  A block reader copies a run of items out of the mapped file and fills the block up with
  zeros. A reader over a controller finds an item by its place in its block.
  - `PackedTable.Valid.packs`: the places are in bounds and apart, the blocks hold the
    items there and zeros after the last.
  - `readPackedItem_ok`, `readBatch_located`: what reads through a controller return.
-/

import BpirOram.Direct.Table
import BpirOram.Circuit.Reads

namespace BpirOram

open Lib

/-- A table in a mapped file, from `dataOffset` on, and how it is packed. -/
structure PackedTable where
  mmap : Bytes
  dataOffset : Nat
  totalItems : Nat
  itemSize : Nat
  itemsPerBlock : Nat
  logicalBlocks : Nat
  blockPayloadBytes : Nat

namespace PackedTable

/-- `read_block`, with what its message calls a block. -/
def readBlock (t : PackedTable) (name : String) (logicalBlock : Nat) : Result Bytes :=
  if logicalBlock ≥ t.logicalBlocks then
    .error (.invalidInput s!"logical block {logicalBlock} out of range {t.logicalBlocks}")
  else
    let startItem := logicalBlock * t.itemsPerBlock
    let remaining := t.totalItems - startItem
    let itemsToRead := min remaining t.itemsPerBlock
    let bytesToRead := usizeMul itemsToRead t.itemSize
    let offset := usizeAdd t.dataOffset (usizeMul startItem t.itemSize)
    let stop := usizeAdd offset bytesToRead
    if stop > t.mmap.length then
      .error (.invalidInput s!"{name} {logicalBlock} reaches byte {stop} past mapped file length {t.mmap.length}")
    else if bytesToRead > t.blockPayloadBytes then .error (.panic "range end index out of range")
    else if offset > stop then .error (.panic "slice index starts after its end")
    else .ok (slice t.mmap offset bytesToRead ++ List.replicate (t.blockPayloadBytes - bytesToRead) 0)

/-- The read of one item from the source, at its place. -/
def readItem (t : PackedTable) (name : String) (located : Result PackedItemLocation) : Result Bytes := do
  let location ← located
  let block ← t.readBlock name location.logicalBlock
  byteRange block location.byteOffset location.byteLen

/-- What a `from_file` check and an `open` give, where no size wraps. -/
structure Valid (t : PackedTable) : Prop where
  per : 0 < t.itemsPerBlock
  size : 0 < t.itemSize
  blocks : t.logicalBlocks = divCeil t.totalItems t.itemsPerBlock
  payload : t.blockPayloadBytes = t.itemSize * t.itemsPerBlock
  payload_lt : t.blockPayloadBytes < 2 ^ 64
  fits : t.dataOffset + t.totalItems * t.itemSize ≤ t.mmap.length
  mmap_lt : t.mmap.length < 2 ^ 64

/-- The bytes of an item in the file. -/
def item (t : PackedTable) (i : Nat) : Bytes := slice t.mmap (t.dataOffset + i * t.itemSize) t.itemSize

def block (t : PackedTable) (k : Nat) : Bytes := packedBlock t.item t.totalItems t.itemsPerBlock t.itemSize k

end PackedTable

/-- Items that are packed where `locate` says: each in bounds of its block, apart from the
    others, and nothing but zeros after the last. -/
structure Packs (count size blocks payload : Nat) (locate : Nat → Result PackedItemLocation)
    (readBlock : Nat → Result Bytes) (item : Nat → Bytes) : Prop where
  inBounds : ∀ i < count, ∃ l, locate i = .ok l ∧ l.logicalBlock < blocks ∧ l.byteLen = size ∧
    l.byteOffset + l.byteLen ≤ payload
  apart : ∀ i j li lj, i ≠ j → locate i = .ok li → locate j = .ok lj → li.logicalBlock ≠ lj.logicalBlock ∨
    li.byteOffset + li.byteLen ≤ lj.byteOffset ∨ lj.byteOffset + lj.byteLen ≤ li.byteOffset
  rejects : ∀ i, count ≤ i → ∃ e, locate i = .error e
  holds : ∀ i l block, locate i = .ok l → readBlock l.logicalBlock = .ok block →
    slice block l.byteOffset l.byteLen = item i
  blocks_ok : ∀ k < blocks, ∃ block, readBlock k = .ok block ∧ block.length = payload ∧
    ∀ pos < payload, count * size ≤ k * payload + pos → block[pos]? = some 0

namespace PackedTable

variable {t : PackedTable}

theorem Valid.item_length (h : t.Valid) : ∀ i < t.totalItems, (t.item i).length = t.itemSize := by
  intro i hi
  apply slice_length
  have hle : (i + 1) * t.itemSize ≤ t.totalItems * t.itemSize := Nat.mul_le_mul_right _ hi
  have := h.fits
  rw [Nat.succ_mul] at hle
  omega

theorem Valid.block_length (h : t.Valid) (k : Nat) : (t.block k).length = t.blockPayloadBytes := by
  rw [h.payload, Nat.mul_comm]
  exact packedBlock_length h.item_length

/-- A place in a block is the exact one. -/
theorem Valid.place_eq (h : t.Valid) (i : Nat) :
    usizeMul (i % t.itemsPerBlock) t.itemSize = i % t.itemsPerBlock * t.itemSize := by
  have hplace : i % t.itemsPerBlock * t.itemSize + t.itemSize ≤ t.itemsPerBlock * t.itemSize := place_fits h.per
  have hlt := h.payload_lt
  rw [h.payload, Nat.mul_comm] at hlt
  exact usizeMul_of_lt (by omega)

theorem Valid.size_lt (h : t.Valid) : t.itemSize < 2 ^ 64 := by
  have hle := Nat.le_mul_of_pos_right t.itemSize h.per
  have hlt := h.payload_lt
  rw [h.payload] at hlt
  omega

/-- Both sides compute the same block: the items one by one, or the run they make. -/
theorem Valid.readBlock_ok (h : t.Valid) (name : String) {k : Nat} (hk : k < t.logicalBlocks) :
    t.readBlock name k = .ok (t.block k) := by
  have hstart : k * t.itemsPerBlock < t.totalItems := mul_lt_of_lt_divCeil h.per (h.blocks ▸ hk)
  have hrun : k * t.itemsPerBlock + min (t.totalItems - k * t.itemsPerBlock) t.itemsPerBlock ≤ t.totalItems := by omega
  have hend : (k * t.itemsPerBlock + min (t.totalItems - k * t.itemsPerBlock) t.itemsPerBlock) * t.itemSize
      ≤ t.totalItems * t.itemSize := Nat.mul_le_mul_right _ hrun
  have hpayload : min (t.totalItems - k * t.itemsPerBlock) t.itemsPerBlock * t.itemSize ≤ t.itemsPerBlock * t.itemSize :=
    Nat.mul_le_mul_right _ (Nat.min_le_right _ _)
  have hfits := h.fits
  have hmap := h.mmap_lt
  rw [Nat.add_mul] at hend
  -- nothing wraps: the run ends inside the file
  have hoffset : usizeAdd t.dataOffset (usizeMul (k * t.itemsPerBlock) t.itemSize)
      = t.dataOffset + k * t.itemsPerBlock * t.itemSize := by
    rw [usizeMul_of_lt (by omega), usizeAdd_of_lt (by omega)]
  unfold readBlock
  rw [if_neg (by omega)]
  simp only
  rw [hoffset, usizeMul_of_lt (by omega), usizeAdd_of_lt (by omega), if_neg (by omega),
    if_neg (by rw [h.payload, Nat.mul_comm t.itemSize]; omega), if_neg (by omega),
    slice_run _ _ _ _ _ (by rw [Nat.add_mul]; omega), block, packedBlock, itemsOf_length, Nat.sub_mul, h.payload,
    Nat.mul_comm t.itemSize]
  rfl

/-- Zeros follow the last item. -/
theorem Valid.block_tail (h : t.Valid) {k pos : Nat} (hk : k < t.logicalBlocks) (hpos : pos < t.blockPayloadBytes)
    (hlast : t.totalItems * t.itemSize ≤ k * t.blockPayloadBytes + pos) : (t.block k)[pos]? = some 0 := by
  have hstart : k * t.itemsPerBlock < t.totalItems := mul_lt_of_lt_divCeil h.per (h.blocks ▸ hk)
  have htail : (t.block k).drop ((itemsOf t.totalItems t.itemsPerBlock k).length * t.itemSize) = _ :=
    packedBlock_tail h.item_length
  rw [itemsOf_length] at htail
  have hused : min (t.totalItems - k * t.itemsPerBlock) t.itemsPerBlock * t.itemSize ≤ pos := by
    rw [h.payload, Nat.mul_comm t.itemSize, ← Nat.mul_assoc] at hlast
    have hle := Nat.mul_le_mul_right t.itemSize (Nat.min_le_left (t.totalItems - k * t.itemsPerBlock) t.itemsPerBlock)
    rw [Nat.sub_mul] at hle
    omega
  have hget := congrArg (·[pos - min (t.totalItems - k * t.itemsPerBlock) t.itemsPerBlock * t.itemSize]?) htail
  simp only [List.getElem?_drop] at hget
  rw [Nat.add_sub_cancel' hused] at hget
  rw [hget, List.getElem?_replicate, if_pos]
  rw [Nat.sub_mul]
  rw [h.payload, Nat.mul_comm] at hpos
  omega

theorem Valid.packs (h : t.Valid) (name perBlock size id : String) :
    Packs t.totalItems t.itemSize t.logicalBlocks t.blockPayloadBytes
      (locatePacked perBlock size id t.totalItems t.itemsPerBlock t.itemSize) (t.readBlock name) t.item where
  inBounds i hi := by
    refine ⟨{ logicalBlock := i / t.itemsPerBlock, byteOffset := usizeMul (i % t.itemsPerBlock) t.itemSize
              byteLen := t.itemSize }, ?_, ?_, rfl, ?_⟩
    · have hper := h.per
      have hsize := h.size
      unfold locatePacked
      rw [if_neg (by omega), if_neg (by omega), if_neg (by omega)]
    · rw [h.blocks]
      exact lt_divCeil hi
    · rw [h.place_eq, h.payload, Nat.mul_comm t.itemSize t.itemsPerBlock]
      exact place_fits h.per
  apart i j li lj hne hi hj := by
    obtain ⟨rfl, -, -, -⟩ := locatePacked_ok hi
    obtain ⟨rfl, -, -, -⟩ := locatePacked_ok hj
    by_cases hblock : i / t.itemsPerBlock = j / t.itemsPerBlock
    · rw [h.place_eq, h.place_eq]
      exact .inr (places_disjoint h.per hblock hne)
    · exact .inl hblock
  rejects i hi := locatePacked_error hi
  holds i l block hl hread := by
    obtain ⟨rfl, -, -, hi⟩ := locatePacked_ok hl
    rw [h.readBlock_ok name (h.blocks ▸ lt_divCeil hi)] at hread
    cases hread
    rw [h.place_eq]
    exact slice_packedBlock h.item_length h.per hi
  blocks_ok k hk := ⟨t.block k, h.readBlock_ok name hk, h.block_length k, fun _ hpos hlast => h.block_tail hk hpos hlast⟩

/-- An item's block, and the item in it. -/
theorem Valid.located (h : t.Valid) {perBlock size id : String} {i : Nat} {l : PackedItemLocation}
    (hl : locatePacked perBlock size id t.totalItems t.itemsPerBlock t.itemSize i = .ok l) :
    i < t.totalItems ∧ l.logicalBlock < t.logicalBlocks ∧ l.byteLen < 2 ^ 64 ∧
      slice (t.block l.logicalBlock) l.byteOffset l.byteLen = t.item i := by
  obtain ⟨rfl, -, -, hi⟩ := locatePacked_ok hl
  rw [h.place_eq]
  exact ⟨hi, h.blocks ▸ lt_divCeil hi, h.size_lt, slice_packedBlock h.item_length h.per hi⟩

/-- The blocks a source yields are the packed ones. -/
theorem Valid.eq_block (h : t.Valid) {name : String} {f : Nat → Bytes}
    (hf : ∀ k < t.logicalBlocks, t.readBlock name k = .ok (f k)) {k : Nat} (hk : k < t.logicalBlocks) : f k = t.block k := by
  have hread := hf k hk
  rw [h.readBlock_ok name hk] at hread
  exact (Except.ok.inj hread).symm

theorem Valid.readItem_ok (h : t.Valid) (name perBlock size id : String) {i : Nat} (hi : i < t.totalItems) :
    t.readItem name (locatePacked perBlock size id t.totalItems t.itemsPerBlock t.itemSize i) = .ok (t.item i) := by
  obtain ⟨l, hl, hlt, -, hfit⟩ := (h.packs name perBlock size id).inBounds i hi
  rw [hl]
  change (t.readBlock name l.logicalBlock >>= fun block => byteRange block l.byteOffset l.byteLen) = _
  rw [h.readBlock_ok name hlt]
  change byteRange _ _ _ = _
  rw [byteRange_of_le (by rw [h.block_length]; exact h.payload_lt) (by rw [h.block_length]; exact hfit),
    (h.located hl).2.2.2]

end PackedTable

/-! ## Through a controller -/

section
variable {M P ρ : Type} [PathPageStore M] [PathPageStore P] [Rng ρ]

/-- The read of one item once it is located, and the drain after it. -/
def readPackedItem (location : PackedItemLocation) (drainPerAccess : UInt64) :
    Eff Error (CircuitOram M P ρ) (Bytes × UInt64) := do
  let block ← CircuitOram.read (UInt64.ofNat location.logicalBlock)
  let payload ← Eff.lift (byteRange block location.byteOffset location.byteLen)
  let drained ← CircuitOram.drainEvictions drainPerAccess
  pure (payload, drained)

variable {n : Nat} {f : Nat → Bytes} {I : CircuitOram M P ρ → Prop} {s s' : CircuitOram M P ρ}

theorem toNat_ofNat_of_lt {k : Nat} (hk : k < n) (hn : n < 2 ^ 64) : (UInt64.ofNat k).toNat = k := by
  rw [UInt64.toNat_ofNat', Nat.mod_eq_of_lt (by omega)]

theorem readPackedItem_ok (hreads : ReadsBack n f I) (hn : n < 2 ^ 64) (hs : I s) {location : PackedItemLocation}
    (hl : location.logicalBlock < n) (hlen : location.byteLen < 2 ^ 64) {drainPerAccess : UInt64} {out : Bytes × UInt64}
    (hrun : readPackedItem location drainPerAccess s = (.ok out, s')) :
    out.1 = slice (f location.logicalBlock) location.byteOffset location.byteLen := by
  obtain ⟨block, s1, hread, hslice⟩ := Eff.bind_eq_ok hrun
  obtain ⟨payload, hpayload, hdrain⟩ := Eff.lift_bind_eq_ok hslice
  obtain ⟨drained, s2, -, hlast⟩ := Eff.bind_eq_ok hdrain
  have hid := toNat_ofNat_of_lt hl hn
  obtain ⟨hblock, -⟩ := hreads.read hs (by rwa [hid]) hread
  cases hlast
  rw [(byteRange_ok hlen hpayload).1, hblock, hid]

theorem readBatch_located (hreads : ReadsBack n f I) (hn : n < 2 ^ 64) (hs : I s) {locations : List PackedItemLocation}
    (hl : ∀ l ∈ locations, l.logicalBlock < n) {blocks : List Bytes}
    (hrun : CircuitOram.readBatch (locations.map fun l => UInt64.ofNat l.logicalBlock) s = (.ok blocks, s')) :
    blocks = locations.map fun l => f l.logicalBlock := by
  obtain ⟨hblocks, -⟩ := hreads.readBatch hs (by
    intro id hid
    obtain ⟨l, hmem, rfl⟩ := List.mem_map.mp hid
    rw [toNat_ofNat_of_lt (hl l hmem) hn]
    exact hl l hmem) hrun
  rw [hblocks, List.map_map]
  exact List.map_congr_left fun l hmem => congrArg f (toNat_ofNat_of_lt (hl l hmem) hn)

end

section
variable {S : Type} [TrustedBlockSource S] {read : S → Nat → Result Bytes}

/-- A source that reads without changing is honest about what it reads. -/
def HonestSource.ofRead (hread : ∀ s k, TrustedBlockSource.readBlock k s = (read s k, s)) : HonestSource S where
  Serves f s := ∀ k block, read s k = .ok block → block = f k
  readBlock {f s k x t} h hrun := by
    rw [hread] at hrun
    obtain ⟨hx, rfl⟩ := Prod.mk.inj hrun
    exact ⟨h k x hx, h⟩

/-- A controller built from `s` holds what `s` reads. -/
theorem holdsBlocks_of_build (hread : ∀ s k, TrustedBlockSource.readBlock k s = (read s k, s)) {s : S} {p : OramParams}
    {metadata payload : MemPageStore} {oram : CircuitOram MemPageStore MemPageStore ZeroSeedRng} {seed : FixedBytes 32}
    (hbuild : CircuitOram.buildTrustedFromSource p metadata payload s seed = .ok oram) :
    HoldsBlocks p MemPageStore.honest MemPageStore.honest (HonestSource.ofRead hread)
      (fun k => (read s k).toOption.getD []) oram := by
  refine ⟨_, .build (MemPageStore.holds_self _) (MemPageStore.holds_self _) (fun k block hblock => ?_) hbuild, fun k _ => rfl⟩
  rw [hblock]
  rfl

end

end BpirOram
