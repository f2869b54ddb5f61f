/-
  BpirOram.Pages.PageBytes — the page codecs with the page sizes of a release build.

  The size of a page is a product or a sum of `usize`. One that wraps is what the decoder
  asks of its input and what the encoder lays its slots out in, so a bucket no longer fits its
  page and a page no longer holds a bucket. Allocation is not modelled: a page that is too
  large for memory is one like any other.
  - `page_codecs_exact`: each of the four formats is exact when the size of its page fits 64
    bits, and only then; there it is the codec the controller uses (`encode_eq`, `decode_eq`).
  - `payload_page_wraps`: two slots of 2^63 bytes, whose page is empty.
-/

import BpirOram.Pages.Codec

namespace BpirOram.Wrapping

open Lib

/-! ## Page sizes -/

def circuitMetaPageBytes (bucketSize : Nat) : Nat := usizeMul bucketSize CircuitMetaSlot.serializedLen

def circuitPayloadPageBytes (bucketSize blockSize : Nat) : Nat := usizeMul bucketSize blockSize

/-- `OramBlock::serialized_len`. -/
def serializedLen (blockSize : Nat) : Nat := usizeAdd (1 + 8 + 4) blockSize

/-- What an embedded page is expected to be long. -/
def embeddedPageBytes (logicalPageSize : Nat) : Nat := usizeAdd logicalPageSize embeddedTreeAuthBytesPerPage

/-- `slots`, each to its `size` bytes of an `out` of `len` zeros. -/
def writeSlots {α : Type} (encode : α → Result Bytes) (size len : Nat) (slots : List α) : Result Bytes := do
  let ranges ← slots.zipIdx.mapM fun slot => do
    let bytes ← encode slot.1
    checkRange len (usizeMul slot.2 size) size
    .ok bytes
  .ok (ranges.flatten ++ List.replicate (len - ranges.flatten.length) 0)

/-! ## The codecs -/

namespace CircuitMetaBucket

def encodeInto (b : BpirOram.CircuitMetaBucket) (bucketSize outLen : Nat) : Result Bytes :=
  if b.slots.length ≠ bucketSize then
    .error (.invalidInput s!"meta bucket has {b.slots.length} slots, expected {bucketSize}")
  else if outLen ≠ circuitMetaPageBytes bucketSize then
    .error (.invalidInput s!"meta output len {outLen} != expected {circuitMetaPageBytes bucketSize}")
  else writeSlots (fun slot => slot.encodeInto CircuitMetaSlot.serializedLen) CircuitMetaSlot.serializedLen outLen b.slots

def encode (b : BpirOram.CircuitMetaBucket) (bucketSize : Nat) : Result Bytes :=
  encodeInto b bucketSize (circuitMetaPageBytes bucketSize)

def decode (input : Bytes) (bucketSize : Nat) : Result BpirOram.CircuitMetaBucket :=
  if input.length ≠ circuitMetaPageBytes bucketSize then
    .error (.invalidInput s!"meta bucket input len {input.length} != expected {circuitMetaPageBytes bucketSize}")
  else do
    let slots ← (chunksExact CircuitMetaSlot.serializedLen input).mapM CircuitMetaSlot.decodeFrom
    .ok { slots }

end CircuitMetaBucket

namespace CircuitPayloadBucket

def encodeSlot (blockSize : Nat) (slot : Bytes) : Result Bytes :=
  if slot.length ≠ blockSize then .error (.invalidInput s!"payload slot len {slot.length} != block_size {blockSize}")
  else .ok slot

def encode (b : BpirOram.CircuitPayloadBucket) (bucketSize blockSize : Nat) : Result Bytes :=
  if b.slots.length ≠ bucketSize then
    .error (.invalidInput s!"payload bucket has {b.slots.length} slots, expected {bucketSize}")
  else writeSlots (encodeSlot blockSize) blockSize (circuitPayloadPageBytes bucketSize blockSize) b.slots

def decode (input : Bytes) (bucketSize blockSize : Nat) : Result BpirOram.CircuitPayloadBucket :=
  if input.length ≠ circuitPayloadPageBytes bucketSize blockSize then
    .error (.invalidInput
      s!"payload bucket input len {input.length} != expected {circuitPayloadPageBytes bucketSize blockSize}")
  else if blockSize = 0 then .error (.panic "chunk size must be non-zero")
  else .ok { slots := chunksExact blockSize input }

end CircuitPayloadBucket

namespace OramBlock

def encodeInto (b : BpirOram.OramBlock) (outLen blockSize : Nat) : Result Bytes :=
  if outLen ≠ serializedLen blockSize then
    .error (.invalidInput s!"block output len {outLen} != expected {serializedLen blockSize}")
  else if b.payload.length ≠ blockSize then
    .error (.invalidInput s!"payload len {b.payload.length} != block_size {blockSize}")
  else if outLen < 13 then .error (.panic "range end index out of range")
  else if outLen - 13 ≠ b.payload.length then .error (.panic "copy_from_slice: source slice length does not match")
  else .ok
    ((if b.occupied then BpirOram.OramBlock.occupiedByte else BpirOram.OramBlock.emptyByte) ::
      toLe 8 b.logicalId.toNat ++ toLe 4 b.leaf.toNat ++ b.payload)

def decodeFrom (input : Bytes) (blockSize : Nat) : Result BpirOram.OramBlock :=
  if input.length ≠ serializedLen blockSize then
    .error (.invalidInput s!"block input len {input.length} != expected {serializedLen blockSize}")
  else if input.isEmpty then .error (.panic "index out of bounds")
  else do
    let occupied ← match input.headD 0 with
      | 0 => .ok false
      | 1 => .ok true
      | other => .error (.invalidInput s!"invalid occupied byte {other.toNat}")
    if input.length < 13 then .error (.panic "range end index out of range")
    else
      .ok
        { occupied
          logicalId := UInt64.ofNat (ofLe ((input.drop 1).take 8))
          leaf := UInt32.ofNat (ofLe ((input.drop 9).take 4))
          payload := input.drop 13 }

end OramBlock

namespace EmbeddedPage

/-- The ranges of a page's two hashes and of its logical page. -/
def checkRanges (len logicalPageSize : Nat) : Result Unit := do
  checkRange len logicalPageSize childHashBytes
  checkRange len (usizeAdd logicalPageSize childHashBytes) childHashBytes
  checkRange len 0 logicalPageSize

def decode (input : Bytes) (logicalPageSize : Nat) : Result BpirOram.EmbeddedPage :=
  if input.length ≠ embeddedPageBytes logicalPageSize then
    .error (.invalidInput s!"embedded page len {input.length} != expected {embeddedPageBytes logicalPageSize}")
  else do
    checkRanges input.length logicalPageSize
    .ok
      { logical := input.take logicalPageSize
        leftHash := FixedBytes.ofSlice 32 input logicalPageSize
        rightHash := FixedBytes.ofSlice 32 input (usizeAdd logicalPageSize childHashBytes) }

def encode (page : BpirOram.EmbeddedPage) (outLen logicalPageSize : Nat) : Result Bytes :=
  if outLen ≠ embeddedPageBytes logicalPageSize then
    .error (.invalidInput s!"embedded output len {outLen} != expected {embeddedPageBytes logicalPageSize}")
  else if page.logical.length ≠ logicalPageSize then
    .error (.invalidInput s!"logical page len {page.logical.length} != expected {logicalPageSize}")
  else do
    checkRanges outLen logicalPageSize
    .ok (page.logical ++ page.leftHash.val ++ page.rightHash.val)

end EmbeddedPage

/-! ## Where nothing wraps -/

theorem writeSlots_eq {α : Type} {encode : α → Result Bytes} {size len : Nat} {slots : List α} (hlen : len < 2 ^ 64)
    (hcount : slots.length * size = len) (hsize : ∀ a b, encode a = .ok b → b.length = size) :
    writeSlots encode size len slots = (do
      let ranges ← slots.mapM encode
      .ok ranges.flatten) := by
  have hranges : ∀ (l : List α) (k : Nat), (k + l.length) * size ≤ len → (l.zipIdx k).mapM (fun slot => do
      let bytes ← encode slot.1
      checkRange len (usizeMul slot.2 size) size
      .ok bytes) = l.mapM encode := by
    intro l
    induction l with
    | nil => intro k _; rfl
    | cons a l ih =>
      intro k hfit
      rw [List.length_cons, ← Nat.add_assoc, Nat.add_right_comm] at hfit
      have hplace : k * size + size ≤ len := by
        rw [← Nat.succ_mul]
        exact Nat.le_trans (Nat.mul_le_mul_right _ (by omega)) hfit
      rw [List.zipIdx_cons, List.mapM_cons, List.mapM_cons, ih (k + 1) hfit]
      simp only [usizeMul_of_lt (show k * size < 2 ^ 64 by omega), checkRange_of_le hlen hplace]
      cases encode a <;> rfl
  rw [writeSlots, hranges slots 0 (by rw [Nat.zero_add, hcount])]
  cases hrun : slots.mapM encode with
  | error e => rfl
  | ok ranges =>
    have hall := mapM_eq_ok hrun
    have hsizes : ∀ r ∈ ranges, r.length = size := by
      intro r hr
      obtain ⟨i, hi, rfl⟩ := List.mem_iff_getElem.mp hr
      exact hsize _ _ (hall.get (by rw [hall.length_eq]; exact hi) hi)
    have hflat : ranges.flatten.length = len := by
      rw [length_flatten_of_lengths hsizes, ← hall.length_eq, hcount]
    change Except.ok (ranges.flatten ++ List.replicate (len - ranges.flatten.length) 0) = Except.ok ranges.flatten
    rw [hflat, Nat.sub_self, List.replicate_zero, List.append_nil]

/-- The encoder writes what the ranges hold, and more if anything. -/
theorem le_of_writeSlots {α : Type} {encode : α → Result Bytes} {size len : Nat} {slots : List α} {out : Bytes}
    (hsize : ∀ a b, encode a = .ok b → b.length = size) (h : writeSlots encode size len slots = .ok out) :
    slots.length * size ≤ out.length := by
  obtain ⟨ranges, hranges, h⟩ := bind_result_ok h
  cases h
  have hall := mapM_eq_ok hranges
  have hsizes : ∀ r ∈ ranges, r.length = size := by
    intro r hr
    obtain ⟨i, hi, rfl⟩ := List.mem_iff_getElem.mp hr
    obtain ⟨bytes, hbytes, hrest⟩ := bind_result_ok (hall.get (by rw [hall.length_eq]; exact hi) hi)
    obtain ⟨⟨⟩, -, hlast⟩ := bind_result_ok hrest
    obtain rfl := Except.ok.inj hlast
    exact hsize _ _ hbytes
  rw [List.length_append, length_flatten_of_lengths hsizes, ← hall.length_eq, List.length_zipIdx]
  exact Nat.le_add_right _ _

namespace CircuitMetaBucket

variable {bucketSize : Nat}

theorem slot_length (slot : CircuitMetaSlot) (b : Bytes) (h : slot.encodeInto CircuitMetaSlot.serializedLen = .ok b) :
    b.length = CircuitMetaSlot.serializedLen := by
  rw [CircuitMetaSlot.encodeInto, if_neg (by simp)] at h
  cases h
  exact slot.bytes_length

theorem encode_eq (h : bucketSize * CircuitMetaSlot.serializedLen < 2 ^ 64) (b : BpirOram.CircuitMetaBucket) :
    encode b bucketSize = b.encode bucketSize := by
  rw [encode, encodeInto, circuitMetaPageBytes, usizeMul_of_lt h, BpirOram.CircuitMetaBucket.encode,
    BpirOram.CircuitMetaBucket.encodeInto]
  by_cases hlen : b.slots.length = bucketSize
  · rw [if_neg (not_not.mpr hlen), if_neg (not_not.mpr hlen), if_neg (by simp), if_neg (by simp [BpirOram.circuitMetaPageBytes]),
      writeSlots_eq h (by rw [hlen]) slot_length]
  · rw [if_pos hlen, if_pos hlen]

theorem decode_eq (h : bucketSize * CircuitMetaSlot.serializedLen < 2 ^ 64) (input : Bytes) :
    decode input bucketSize = BpirOram.CircuitMetaBucket.decode input bucketSize := by
  rw [decode, circuitMetaPageBytes, usizeMul_of_lt h]
  rfl

end CircuitMetaBucket

namespace CircuitPayloadBucket

variable {bucketSize blockSize : Nat}

theorem slot_length (slot b : Bytes) (h : encodeSlot blockSize slot = .ok b) : b.length = blockSize := by
  unfold encodeSlot at h
  split at h
  · cases h
  · cases h
    omega

theorem encode_eq (h : bucketSize * blockSize < 2 ^ 64) (b : BpirOram.CircuitPayloadBucket) :
    encode b bucketSize blockSize = b.encode bucketSize blockSize := by
  rw [encode, circuitPayloadPageBytes, usizeMul_of_lt h, BpirOram.CircuitPayloadBucket.encode]
  by_cases hlen : b.slots.length = bucketSize
  · rw [if_neg (not_not.mpr hlen), if_neg (not_not.mpr hlen), writeSlots_eq h (by rw [hlen]) slot_length]
    rfl
  · rw [if_pos hlen, if_pos hlen]

theorem decode_eq (h : bucketSize * blockSize < 2 ^ 64) (hblock : 0 < blockSize) (input : Bytes) :
    decode input bucketSize blockSize = BpirOram.CircuitPayloadBucket.decode input bucketSize blockSize := by
  rw [decode, circuitPayloadPageBytes, usizeMul_of_lt h, if_neg (show blockSize ≠ 0 by omega)]
  rfl

end CircuitPayloadBucket

namespace OramBlock

variable {blockSize : Nat}

theorem encodeInto_eq (h : 1 + 8 + 4 + blockSize < 2 ^ 64) (b : BpirOram.OramBlock) :
    encodeInto b (serializedLen blockSize) blockSize = b.encodeInto (BpirOram.OramBlock.serializedLen blockSize) blockSize := by
  have hsize : serializedLen blockSize = 1 + 8 + 4 + blockSize := usizeAdd_of_lt h
  rw [encodeInto, if_neg (not_not.mpr rfl), BpirOram.OramBlock.encodeInto,
    if_neg (show ¬ BpirOram.OramBlock.serializedLen blockSize ≠ BpirOram.OramBlock.serializedLen blockSize from
      not_not.mpr rfl)]
  by_cases hlen : b.payload.length = blockSize
  · rw [if_neg (not_not.mpr hlen), if_neg (not_not.mpr hlen), if_neg (show ¬ serializedLen blockSize < 13 by omega),
      if_neg (show ¬ serializedLen blockSize - 13 ≠ b.payload.length by omega)]
  · rw [if_pos hlen, if_pos hlen]

theorem decodeFrom_eq (h : 1 + 8 + 4 + blockSize < 2 ^ 64) (input : Bytes) :
    decodeFrom input blockSize = BpirOram.OramBlock.decodeFrom input blockSize := by
  rw [decodeFrom, serializedLen, usizeAdd_of_lt h]
  by_cases hlen : input.length = 1 + 8 + 4 + blockSize
  · have hne : ¬ input.isEmpty = true := by
      rw [List.isEmpty_iff]
      rintro rfl
      rw [List.length_nil] at hlen
      omega
    have hlong : ¬ input.length < 13 := by omega
    rw [if_neg (not_not.mpr hlen), if_neg hne]
    simp only [if_neg hlong]
    exact (if_neg (not_not.mpr hlen)).symm
  · rw [if_pos hlen]
    exact (if_pos hlen).symm

end OramBlock

namespace EmbeddedPage

variable {logicalPageSize : Nat}

theorem checkRanges_ok (h : logicalPageSize + embeddedTreeAuthBytesPerPage < 2 ^ 64) :
    checkRanges (logicalPageSize + embeddedTreeAuthBytesPerPage) logicalPageSize = .ok () := by
  have hauth : embeddedTreeAuthBytesPerPage = 64 := rfl
  have hchild : childHashBytes = 32 := rfl
  rw [checkRanges, usizeAdd_of_lt (by omega), checkRange_of_le h (by omega), checkRange_of_le h (by omega),
    checkRange_of_le h (by omega)]
  rfl

theorem encode_eq (h : logicalPageSize + embeddedTreeAuthBytesPerPage < 2 ^ 64) (page : BpirOram.EmbeddedPage) :
    encode page (embeddedPageBytes logicalPageSize) logicalPageSize
      = page.encode (logicalPageSize + embeddedTreeAuthBytesPerPage) logicalPageSize := by
  rw [encode, embeddedPageBytes, usizeAdd_of_lt h, checkRanges_ok h]
  rfl

theorem decode_eq (h : logicalPageSize + embeddedTreeAuthBytesPerPage < 2 ^ 64) (input : Bytes) :
    decode input logicalPageSize = BpirOram.EmbeddedPage.decode input logicalPageSize := by
  rw [decode, embeddedPageBytes, usizeAdd_of_lt h, BpirOram.EmbeddedPage.decode]
  by_cases hlen : input.length = logicalPageSize + embeddedTreeAuthBytesPerPage
  · have hchild : logicalPageSize + childHashBytes < 2 ^ 64 := by
      rw [embeddedTreeAuthBytesPerPage] at h
      omega
    rw [if_neg (not_not.mpr hlen), if_neg (not_not.mpr hlen), hlen, checkRanges_ok h, usizeAdd_of_lt hchild]
    rfl
  · rw [if_pos hlen, if_pos hlen]

end EmbeddedPage

/-! ## Exact where nothing wraps, and only there -/

/-- A page that comes back has the length the decoder asks for: one of 64 bits. -/
theorem size_lt {α : Type} {Shaped : α → Prop} {WellFormed : Bytes → Prop} {encode : α → Result Bytes}
    {decode : Bytes → Result α} (h : Exact Shaped WellFormed encode decode) {v : α} (hv : Shaped v) {size : Nat}
    (hencode : ∀ out, encode v = .ok out → size ≤ out.length)
    (hdecode : ∀ input w, decode input = .ok w → input.length < 2 ^ 64) : size < 2 ^ 64 := by
  obtain ⟨page, hpage, hback⟩ := h.decode_encode v hv
  exact Nat.lt_of_le_of_lt (hencode page hpage) (hdecode page v hback)

theorem CircuitMetaBucket.exact_iff (bucketSize : Nat) :
    Exact (fun b : BpirOram.CircuitMetaBucket => b.slots.length = bucketSize)
      (fun input => input.length = bucketSize * CircuitMetaSlot.serializedLen ∧
        ∀ i < bucketSize, OccupancyByte input (i * CircuitMetaSlot.serializedLen))
      (fun b => encode b bucketSize) (fun input => decode input bucketSize)
    ↔ bucketSize * CircuitMetaSlot.serializedLen < 2 ^ 64 := by
  constructor
  · intro h
    refine size_lt h (v := ⟨List.replicate bucketSize ⟨false, 0, 0⟩⟩) List.length_replicate ?_ ?_
    · intro out hout
      unfold encode encodeInto at hout
      rw [if_neg (not_not.mpr List.length_replicate), if_neg (not_not.mpr rfl)] at hout
      simpa only [List.length_replicate] using le_of_writeSlots slot_length hout
    · intro input b hdecode
      unfold decode at hdecode
      split at hdecode
      · cases hdecode
      · rename_i hlen
        rw [not_not.mp hlen]
        exact usizeMul_lt _ _
  · intro h
    simp only [encode_eq h, decode_eq h]
    exact BpirOram.CircuitMetaBucket.exact_metaBucket bucketSize

theorem CircuitPayloadBucket.exact_iff (bucketSize : Nat) {blockSize : Nat} (hblock : 0 < blockSize) :
    Exact (fun b : BpirOram.CircuitPayloadBucket => b.slots.length = bucketSize ∧ ∀ slot ∈ b.slots, slot.length = blockSize)
      (fun input => input.length = bucketSize * blockSize)
      (fun b => encode b bucketSize blockSize) (fun input => decode input bucketSize blockSize)
    ↔ bucketSize * blockSize < 2 ^ 64 := by
  constructor
  · intro h
    refine size_lt h (v := ⟨List.replicate bucketSize (List.replicate blockSize 0)⟩) ⟨List.length_replicate, ?_⟩ ?_ ?_
    · intro slot hslot
      rw [List.eq_of_mem_replicate hslot, List.length_replicate]
    · intro out hout
      unfold encode at hout
      rw [if_neg (not_not.mpr List.length_replicate)] at hout
      simpa only [List.length_replicate] using le_of_writeSlots slot_length hout
    · intro input b hdecode
      unfold decode at hdecode
      split at hdecode
      · cases hdecode
      · rename_i hlen
        rw [not_not.mp hlen]
        exact usizeMul_lt _ _
  · intro h
    simp only [encode_eq h, decode_eq h hblock]
    exact BpirOram.CircuitPayloadBucket.exact_payloadBucket bucketSize hblock

theorem OramBlock.exact_iff (blockSize : Nat) :
    Exact (fun b : BpirOram.OramBlock => b.payload.length = blockSize)
      (fun input => input.length = 1 + 8 + 4 + blockSize ∧ OccupancyByte input 0)
      (fun b => encodeInto b (serializedLen blockSize) blockSize) (fun input => decodeFrom input blockSize)
    ↔ 1 + 8 + 4 + blockSize < 2 ^ 64 := by
  constructor
  · intro h
    refine size_lt h (v := ⟨false, 0, 0, List.replicate blockSize 0⟩) List.length_replicate ?_ ?_
    · intro out hout
      unfold encodeInto at hout
      rw [if_neg (not_not.mpr rfl), if_neg (not_not.mpr List.length_replicate)] at hout
      split at hout
      · cases hout
      split at hout
      · cases hout
      obtain rfl := Except.ok.inj hout
      simp only [List.length_append, List.length_cons, toLe_length, List.length_replicate]
      omega
    · intro input b hdecode
      unfold decodeFrom at hdecode
      split at hdecode
      · cases hdecode
      · rename_i hlen
        rw [not_not.mp hlen]
        exact usizeAdd_lt _ _
  · intro h
    simp only [encodeInto_eq h, decodeFrom_eq h]
    exact BpirOram.OramBlock.exact_block blockSize

theorem EmbeddedPage.exact_iff (logicalPageSize : Nat) :
    Exact (fun page : BpirOram.EmbeddedPage => page.logical.length = logicalPageSize)
      (fun input => input.length = logicalPageSize + embeddedTreeAuthBytesPerPage)
      (fun page => encode page (embeddedPageBytes logicalPageSize) logicalPageSize) (fun input => decode input logicalPageSize)
    ↔ logicalPageSize + embeddedTreeAuthBytesPerPage < 2 ^ 64 := by
  constructor
  · intro h
    refine size_lt h (v := ⟨List.replicate logicalPageSize 0, FixedBytes.zero 32, FixedBytes.zero 32⟩)
      List.length_replicate ?_ ?_
    · intro out hout
      unfold encode at hout
      rw [if_neg (not_not.mpr rfl), if_neg (not_not.mpr List.length_replicate)] at hout
      obtain ⟨⟨⟩, -, hout⟩ := bind_result_ok hout
      obtain rfl := Except.ok.inj hout
      have hlen := BpirOram.EmbeddedPage.bytes_length
        ⟨List.replicate logicalPageSize 0, FixedBytes.zero 32, FixedBytes.zero 32⟩
      rw [List.length_replicate] at hlen
      exact hlen.ge
    · intro input page hdecode
      unfold decode at hdecode
      split at hdecode
      · cases hdecode
      · rename_i hlen
        rw [not_not.mp hlen]
        exact usizeAdd_lt _ _
  · intro h
    simp only [encode_eq h, decode_eq h]
    exact BpirOram.EmbeddedPage.exact_embeddedPage logicalPageSize

/-! ## The formats together -/

/-- Decoding undoes encoding on every value of the right sizes, encoding undoes decoding on every
    byte string that is accepted, and these are the byte strings of a page's length whose
    occupancy bytes, one for each slot, are 0 or 1: so it is for each format whose page is
    smaller than 2^64 bytes, and for no other. -/
theorem page_codecs_exact (bucketSize blockSize logicalPageSize : Nat) (hblock : 0 < blockSize) :
    (Exact (fun b : BpirOram.CircuitMetaBucket => b.slots.length = bucketSize)
      (fun input => input.length = bucketSize * CircuitMetaSlot.serializedLen ∧
        ∀ i < bucketSize, OccupancyByte input (i * CircuitMetaSlot.serializedLen))
      (fun b => CircuitMetaBucket.encode b bucketSize) (fun input => CircuitMetaBucket.decode input bucketSize)
      ↔ bucketSize * CircuitMetaSlot.serializedLen < 2 ^ 64) ∧
    (Exact (fun b : BpirOram.CircuitPayloadBucket => b.slots.length = bucketSize ∧
        ∀ slot ∈ b.slots, slot.length = blockSize)
      (fun input => input.length = bucketSize * blockSize)
      (fun b => CircuitPayloadBucket.encode b bucketSize blockSize)
      (fun input => CircuitPayloadBucket.decode input bucketSize blockSize)
      ↔ bucketSize * blockSize < 2 ^ 64) ∧
    (Exact (fun b : BpirOram.OramBlock => b.payload.length = blockSize)
      (fun input => input.length = 1 + 8 + 4 + blockSize ∧ OccupancyByte input 0)
      (fun b => OramBlock.encodeInto b (serializedLen blockSize) blockSize)
      (fun input => OramBlock.decodeFrom input blockSize)
      ↔ 1 + 8 + 4 + blockSize < 2 ^ 64) ∧
    (Exact (fun page : BpirOram.EmbeddedPage => page.logical.length = logicalPageSize)
      (fun input => input.length = logicalPageSize + embeddedTreeAuthBytesPerPage)
      (fun page => EmbeddedPage.encode page (embeddedPageBytes logicalPageSize) logicalPageSize)
      (fun input => EmbeddedPage.decode input logicalPageSize)
      ↔ logicalPageSize + embeddedTreeAuthBytesPerPage < 2 ^ 64) :=
  ⟨CircuitMetaBucket.exact_iff bucketSize, CircuitPayloadBucket.exact_iff bucketSize hblock,
    OramBlock.exact_iff blockSize, EmbeddedPage.exact_iff logicalPageSize⟩

/-- Four slots of eight bytes come back, and so does a metadata page of four slots. -/
theorem page_codecs_exact_four :
    (∀ b : BpirOram.CircuitPayloadBucket, (b.slots.length = 4 ∧ ∀ slot ∈ b.slots, slot.length = 8) →
      ∃ page, CircuitPayloadBucket.encode b 4 8 = .ok page ∧ CircuitPayloadBucket.decode page 4 8 = .ok b) ∧
    (∃ b, CircuitMetaBucket.decode (List.replicate 52 0) 4 = .ok b) :=
  ⟨((page_codecs_exact 4 8 52 (Nat.succ_pos 7)).2.1.mpr (by decide)).decode_encode,
    (((page_codecs_exact 4 8 52 (Nat.succ_pos 7)).1.mpr (by decide)).accepts _).mpr
      ⟨by decide, by unfold OccupancyByte; decide⟩⟩

/-- A bucket of two slots of 2^63 bytes has an empty page: the decoder takes it for a bucket of no
    slots, which does not encode again. -/
theorem payload_page_wraps :
    CircuitPayloadBucket.decode [] 2 (2 ^ 63) = .ok ⟨[]⟩ ∧
    CircuitPayloadBucket.encode ⟨[]⟩ 2 (2 ^ 63) = .error (.invalidInput "payload bucket has 0 slots, expected 2") ∧
    ¬ Exact
      (fun b : BpirOram.CircuitPayloadBucket => b.slots.length = 2 ∧ ∀ slot ∈ b.slots, slot.length = 2 ^ 63)
      (fun input => input.length = 2 * 2 ^ 63)
      (fun b => CircuitPayloadBucket.encode b 2 (2 ^ 63)) (fun input => CircuitPayloadBucket.decode input 2 (2 ^ 63)) := by
  have hdecode : CircuitPayloadBucket.decode [] 2 (2 ^ 63) = .ok ⟨[]⟩ := rfl
  refine ⟨hdecode, rfl, fun h => ?_⟩
  cases h.encode_decode [] ⟨[]⟩ hdecode

end BpirOram.Wrapping
