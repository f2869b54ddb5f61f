/-
  BpirOram.Pages.Codec — the page codecs are exact inverses (`circuit.rs`, `block.rs`,
  `embedded_tree.rs`).

  A slot is decoded from its 13 bytes and from nothing else, an empty one too: the id and leaf
  fields of an empty slot are kept, so no byte of a page is dropped. A bucket is read slot by
  slot, and the slots cover the page.
  - `exact_metaBucket`, `exact_payloadBucket`, `exact_block`, `exact_embeddedPage`: decoding undoes
    encoding, encoding undoes decoding, and what is accepted is a length and, for the two
    formats that have them, occupancy bytes of 0 or 1.
-/

import BpirOram.Circuit.Bucket
import BpirOram.Embedded.Page
import BpirOram.Lib.Exact

namespace BpirOram

open Lib

/-- An occupancy byte. -/
def OccupancyByte (b : Bytes) (pos : Nat) : Prop := b[pos]? = some 0 ∨ b[pos]? = some 1

/-! ## One slot -/

namespace CircuitMetaSlot

/-- A slot's 13 bytes: the occupancy, the id, the leaf. -/
theorem bytes_eq (occupied : Bool) {rest : Bytes} (hlen : rest.length = 12) :
    bytes ⟨occupied, UInt64.ofNat (ofLe (rest.take 8)), UInt32.ofNat (ofLe ((rest.drop 8).take 4))⟩
      = (if occupied then metaOccupied else metaEmpty) :: rest := by
  have h8 : (rest.take 8).length = 8 := by rw [List.length_take]; omega
  have h4 : ((rest.drop 8).take 4).length = 4 := by rw [List.length_take, List.length_drop]; omega
  have hid : (UInt64.ofNat (ofLe (rest.take 8))).toNat = ofLe (rest.take 8) := by
    have hlt := ofLe_lt (rest.take 8)
    rw [h8] at hlt
    exact UInt64.toNat_ofNat_of_lt' hlt
  have hleaf : (UInt32.ofNat (ofLe ((rest.drop 8).take 4))).toNat = ofLe ((rest.drop 8).take 4) := by
    have hlt := ofLe_lt ((rest.drop 8).take 4)
    rw [h4] at hlt
    exact UInt32.toNat_ofNat_of_lt' hlt
  have hle8 := toLe_ofLe (rest.take 8)
  have hle4 := toLe_ofLe ((rest.drop 8).take 4)
  rw [h8] at hle8
  rw [h4] at hle4
  have htail : (rest.drop 8).take 4 = rest.drop 8 := List.take_of_length_le (by rw [List.length_drop]; omega)
  simp only [bytes]
  rw [hid, hleaf, hle8, hle4, htail, List.cons_append, List.take_append_drop]

/-- A slot is decoded from its bytes and from no others. -/
theorem decodeFrom_eq_ok {input : Bytes} {slot : CircuitMetaSlot} : decodeFrom input = .ok slot ↔ input = slot.bytes := by
  constructor
  · intro h
    unfold decodeFrom at h
    split at h
    · cases h
    · rename_i hlen
      rw [not_not] at hlen
      cases input with
      | nil => cases hlen
      | cons x rest =>
        have hrest : rest.length = 12 := Nat.succ.inj hlen
        simp only [List.headD_cons] at h
        split at h
        · cases h
          exact (bytes_eq false hrest).symm
        · cases h
          exact (bytes_eq true hrest).symm
        · cases h
  · rintro rfl
    exact decodeFrom_bytes slot

theorem occupancy_of_bytes (slot : CircuitMetaSlot) : OccupancyByte slot.bytes 0 := by
  rcases slot with ⟨occupied, logicalId, leaf⟩
  cases occupied
  · exact .inl rfl
  · exact .inr rfl

/-- 13 bytes behind an occupancy byte are a slot's. -/
theorem exists_bytes {input : Bytes} (hlen : input.length = serializedLen) (hoccupancy : OccupancyByte input 0) :
    ∃ slot : CircuitMetaSlot, input = slot.bytes := by
  cases input with
  | nil => cases hlen
  | cons x rest =>
    have hrest : rest.length = 12 := Nat.succ.inj hlen
    rcases hoccupancy with h0 | h1
    · cases h0
      exact ⟨_, (bytes_eq false hrest).symm⟩
    · cases h1
      exact ⟨_, (bytes_eq true hrest).symm⟩

theorem exact_slot :
    Exact (fun _ => True) (fun b => b.length = serializedLen ∧ OccupancyByte b 0)
      (fun slot : CircuitMetaSlot => slot.encodeInto serializedLen) decodeFrom := by
  have hencode : ∀ (slot : CircuitMetaSlot) b, slot.encodeInto serializedLen = .ok b ↔ b = slot.bytes := by
    intro slot b
    rw [encodeInto, if_neg (by simp), Except.ok.injEq, eq_comm]
  apply Exact.of_iff
  · intro b slot
    rw [hencode, decodeFrom_eq_ok]
  · intro slot
    exact iff_of_true ⟨slot.bytes, (hencode slot _).mpr rfl⟩ trivial
  · intro b
    constructor
    · intro h
      obtain ⟨slot, h⟩ := h
      rw [decodeFrom_eq_ok.mp h]
      exact ⟨slot.bytes_length, slot.occupancy_of_bytes⟩
    · intro h
      obtain ⟨slot, hslot⟩ := exists_bytes h.1 h.2
      exact ⟨slot, decodeFrom_eq_ok.mpr hslot⟩

end CircuitMetaSlot

/-! ## A stash slot -/

namespace OramBlock

/-- A block's bytes: those of its metadata slot, then the payload. -/
def bytes (b : OramBlock) : Bytes := b.metaSlot.bytes ++ b.payload

theorem encodeInto_eq_ok {blockSize : Nat} {b : OramBlock} {out : Bytes} :
    b.encodeInto (serializedLen blockSize) blockSize = .ok out ↔ b.payload.length = blockSize ∧ out = b.bytes := by
  rw [encodeInto, if_neg (by simp)]
  by_cases hlen : b.payload.length = blockSize
  · rw [if_neg (by simpa using hlen), Except.ok.injEq, eq_comm, and_iff_right hlen]
    rfl
  · rw [if_pos hlen]
    constructor
    · intro h
      cases h
    · intro h
      exact absurd h.1 hlen

/-- The decoder reads a metadata slot and takes the rest as the payload. -/
theorem decodeFrom_of_slot {blockSize : Nat} {input : Bytes} (hlen : input.length = serializedLen blockSize) (b : OramBlock) :
    decodeFrom input blockSize = .ok b ↔
      CircuitMetaSlot.decodeFrom (input.take 13) = .ok b.metaSlot ∧ b.payload = input.drop 13 := by
  have hcut : (input.take 13).length = CircuitMetaSlot.serializedLen := by
    rw [List.length_take, hlen, serializedLen, CircuitMetaSlot.serializedLen]
    omega
  rcases input with _ | ⟨x, rest⟩
  · rw [serializedLen, List.length_nil] at hlen
    omega
  · have hid : ((rest.take 12).take 8) = rest.take 8 := by rw [List.take_take]; rfl
    have hleaf : ((rest.take 12).drop 8).take 4 = (rest.drop 8).take 4 := by
      rw [List.drop_take, List.take_take]; rfl
    rw [decodeFrom, if_neg (not_not.mpr hlen), CircuitMetaSlot.decodeFrom, if_neg (not_not.mpr hcut)]
    simp only [List.take_succ_cons, List.drop_succ_cons, List.drop_zero, List.headD_cons, hid, hleaf]
    rcases b with ⟨occupied, logicalId, leaf, payload⟩
    by_cases h0 : x = 0
    · subst h0
      simp [bind, Except.bind, metaSlot, eq_comm, and_assoc]
    · by_cases h1 : x = 1
      · subst h1
        simp [bind, Except.bind, metaSlot, eq_comm, and_assoc]
      · simp [bind, Except.bind]

theorem bytes_length (b : OramBlock) : b.bytes.length = serializedLen b.payload.length := by
  rw [bytes, List.length_append, CircuitMetaSlot.bytes_length]
  rfl

/-- A block is decoded from its bytes and from no others. -/
theorem decodeFrom_eq_ok {blockSize : Nat} {input : Bytes} {b : OramBlock} :
    decodeFrom input blockSize = .ok b ↔ b.payload.length = blockSize ∧ input = b.bytes := by
  have hslot : b.metaSlot.bytes.length = 13 := b.metaSlot.bytes_length
  constructor
  · intro h
    by_cases hlen : input.length = serializedLen blockSize
    · obtain ⟨hmeta, hpayload⟩ := (decodeFrom_of_slot hlen b).mp h
      have htake := CircuitMetaSlot.decodeFrom_eq_ok.mp hmeta
      refine ⟨by rw [hpayload, List.length_drop, hlen, serializedLen]; omega, ?_⟩
      rw [bytes, ← htake, hpayload, List.take_append_drop]
    · rw [decodeFrom, if_pos hlen] at h
      cases h
  · intro h
    obtain ⟨hlen, rfl⟩ := h
    have hbytes := b.bytes_length
    rw [hlen] at hbytes
    refine (decodeFrom_of_slot hbytes b).mpr ⟨?_, ?_⟩
    · rw [bytes, ← hslot, List.take_left]
      exact CircuitMetaSlot.decodeFrom_bytes _
    · rw [bytes, ← hslot, List.drop_left]

theorem exact_block (blockSize : Nat) :
    Exact (fun b : OramBlock => b.payload.length = blockSize)
      (fun input => input.length = serializedLen blockSize ∧ OccupancyByte input 0)
      (fun b => b.encodeInto (serializedLen blockSize) blockSize) (fun input => decodeFrom input blockSize) := by
  apply Exact.of_iff
  · intro input b
    rw [decodeFrom_eq_ok, encodeInto_eq_ok]
  · intro b
    simp only [encodeInto_eq_ok]
    exact ⟨fun h => h.choose_spec.1, fun h => ⟨b.bytes, h, rfl⟩⟩
  · intro input
    simp only [decodeFrom_eq_ok]
    constructor
    · intro h
      obtain ⟨b, hlen, rfl⟩ := h
      refine ⟨by rw [b.bytes_length, hlen], ?_⟩
      rw [OccupancyByte, bytes, List.getElem?_append_left (by rw [b.metaSlot.bytes_length]; decide)]
      exact b.metaSlot.occupancy_of_bytes
    · intro h
      obtain ⟨hlen, hoccupancy⟩ := h
      rw [serializedLen] at hlen
      have hcut : (input.take 13).length = CircuitMetaSlot.serializedLen := by
        rw [List.length_take, CircuitMetaSlot.serializedLen]
        omega
      have hat : OccupancyByte (input.take 13) 0 := by
        rw [OccupancyByte, List.getElem?_take_of_lt (Nat.succ_pos 12)]
        exact hoccupancy
      obtain ⟨slot, hslot⟩ := CircuitMetaSlot.exists_bytes hcut hat
      refine ⟨⟨slot.occupied, slot.logicalId, slot.leaf, input.drop 13⟩, by simp only [List.length_drop]; omega, ?_⟩
      change input = slot.bytes ++ input.drop 13
      rw [← hslot, List.take_append_drop]

end OramBlock

/-! ## Buckets -/

/-- The occupancy byte of a slot is the first of its range of the page. -/
theorem occupancy_chunk {k n : Nat} (hn : 0 < n) {input : Bytes} (hlen : input.length = k * n) :
    (∀ c ∈ chunksExact n input, c.length = n ∧ OccupancyByte c 0) ↔ ∀ i < k, OccupancyByte input (i * n) := by
  have hchunks : chunksExact n input = chunks n k input := by rw [chunksExact, hlen, Nat.mul_div_cancel _ hn]
  obtain ⟨_, hcount, hsize⟩ := chunksExact_spec hn hlen
  rw [hchunks] at hcount hsize ⊢
  have hat : ∀ i < k, (chunks n k input)[i]? = some ((input.drop (i * n)).take n) := fun i hi => chunks_getElem? input hi
  have hbyte : ∀ i < k, OccupancyByte ((input.drop (i * n)).take n) 0 ↔ OccupancyByte input (i * n) := by
    intro i _
    rw [OccupancyByte, OccupancyByte, List.getElem?_take_of_lt hn, List.getElem?_drop, Nat.add_zero]
  constructor
  · intro h i hi
    exact (hbyte i hi).mp (h _ (List.mem_of_getElem? (hat i hi))).2
  · intro h c hc
    obtain ⟨i, hi⟩ := List.mem_iff_getElem?.mp hc
    have hik : i < k := by
      rw [← hcount]
      exact (List.getElem?_eq_some_iff.mp hi).choose
    refine ⟨hsize c hc, ?_⟩
    rw [hat i hik, Option.some.injEq] at hi
    rw [← hi]
    exact (hbyte i hik).mpr (h i hik)

namespace CircuitMetaBucket

theorem encode_eq_ok {bucketSize : Nat} {b : CircuitMetaBucket} {out : Bytes} :
    b.encode bucketSize = .ok out ↔ b.slots.length = bucketSize ∧
      ∃ ranges, b.slots.mapM (fun slot => slot.encodeInto CircuitMetaSlot.serializedLen) = .ok ranges ∧
        out = ranges.flatten := by
  rw [encode, encodeInto]
  by_cases hlen : b.slots.length = bucketSize
  · rw [if_neg (not_not.mpr hlen), if_neg (by simp), and_iff_right hlen]
    constructor
    · intro h
      obtain ⟨ranges, hranges, h⟩ := bind_result_ok h
      cases h
      exact ⟨ranges, hranges, rfl⟩
    · intro h
      obtain ⟨ranges, hranges, rfl⟩ := h
      rw [hranges]
      rfl
  · rw [if_pos hlen]
    constructor
    · intro h
      cases h
    · intro h
      exact absurd h.1 hlen

theorem decode_eq_ok {bucketSize : Nat} {input : Bytes} {b : CircuitMetaBucket} :
    decode input bucketSize = .ok b ↔ input.length = circuitMetaPageBytes bucketSize ∧
      (chunksExact CircuitMetaSlot.serializedLen input).mapM CircuitMetaSlot.decodeFrom = .ok b.slots := by
  rw [decode]
  by_cases hlen : input.length = circuitMetaPageBytes bucketSize
  · rw [if_neg (not_not.mpr hlen), and_iff_right hlen]
    constructor
    · intro h
      obtain ⟨slots, hslots, h⟩ := bind_result_ok h
      cases h
      exact hslots
    · intro h
      rw [h]
      rfl
  · rw [if_pos hlen]
    constructor
    · intro h
      cases h
    · intro h
      exact absurd h.1 hlen

theorem exact_metaBucket (bucketSize : Nat) :
    Exact (fun b : CircuitMetaBucket => b.slots.length = bucketSize)
      (fun input => input.length = circuitMetaPageBytes bucketSize ∧
        ∀ i < bucketSize, OccupancyByte input (i * CircuitMetaSlot.serializedLen))
      (fun b => b.encode bucketSize) (fun input => decode input bucketSize) := by
  have hn : 0 < CircuitMetaSlot.serializedLen := Nat.succ_pos 12
  have hslots := CircuitMetaSlot.exact_slot.list
  apply Exact.of_iff
  · intro input b
    rw [decode_eq_ok, encode_eq_ok]
    constructor
    · intro h
      obtain ⟨hlen, hdecode⟩ := h
      obtain ⟨hflat, hcount, _⟩ := chunksExact_spec hn hlen
      exact ⟨(Exact.mapM_length hdecode).trans hcount, _, hslots.encode_decode _ _ hdecode, hflat.symm⟩
    · intro h
      obtain ⟨hlen, ranges, hencode, rfl⟩ := h
      have hdecode := (hslots.decode_iff fun _ _ => trivial).mpr hencode
      have hsize : ∀ r ∈ ranges, r.length = CircuitMetaSlot.serializedLen := fun r hr => (hslots.wellFormed hdecode r hr).1
      refine ⟨?_, by rw [chunksExact_flatten hn hsize]; exact hdecode⟩
      rw [length_flatten_of_lengths hsize, Exact.mapM_length hencode, hlen]
      rfl
  · intro b
    simp only [encode_eq_ok]
    constructor
    · intro h
      exact h.choose_spec.1
    · intro hlen
      obtain ⟨ranges, hranges, _⟩ := hslots.decode_encode b.slots fun _ _ => trivial
      exact ⟨ranges.flatten, hlen, ranges, hranges, rfl⟩
  · intro input
    simp only [decode_eq_ok]
    constructor
    · intro h
      obtain ⟨b, hlen, hdecode⟩ := h
      exact ⟨hlen, (occupancy_chunk hn hlen).mp (hslots.wellFormed hdecode)⟩
    · intro h
      obtain ⟨hlen, hoccupancy⟩ := h
      obtain ⟨slots, hdecode⟩ := (hslots.accepts _).mpr ((occupancy_chunk hn hlen).mpr hoccupancy)
      exact ⟨⟨slots⟩, hlen, hdecode⟩

end CircuitMetaBucket

namespace CircuitPayloadBucket

theorem encode_eq_ok {bucketSize blockSize : Nat} {b : CircuitPayloadBucket} {out : Bytes} :
    b.encode bucketSize blockSize = .ok out ↔
      (b.slots.length = bucketSize ∧ ∀ slot ∈ b.slots, slot.length = blockSize) ∧ out = b.slots.flatten := by
  rw [encode]
  by_cases hlen : b.slots.length = bucketSize
  · rw [if_neg (not_not.mpr hlen), and_iff_right hlen]
    constructor
    · intro h
      obtain ⟨ranges, hranges, h⟩ := bind_result_ok h
      cases h
      obtain ⟨hsize, rfl⟩ := Exact.mapM_check.mp hranges
      exact ⟨fun slot hslot => not_not.mp (hsize slot hslot), rfl⟩
    · intro h
      obtain ⟨hsize, rfl⟩ := h
      rw [Exact.mapM_check.mpr ⟨fun slot hslot => not_not.mpr (hsize slot hslot), rfl⟩]
      rfl
  · rw [if_pos hlen]
    constructor
    · intro h
      cases h
    · intro h
      exact absurd h.1.1 hlen

theorem exact_payloadBucket (bucketSize : Nat) {blockSize : Nat} (hb : 0 < blockSize) :
    Exact (fun b : CircuitPayloadBucket => b.slots.length = bucketSize ∧ ∀ slot ∈ b.slots, slot.length = blockSize)
      (fun input => input.length = circuitPayloadPageBytes bucketSize blockSize)
      (fun b => b.encode bucketSize blockSize) (fun input => decode input bucketSize blockSize) := by
  have hdecode : ∀ input (b : CircuitPayloadBucket), decode input bucketSize blockSize = .ok b ↔
      input.length = circuitPayloadPageBytes bucketSize blockSize ∧ chunksExact blockSize input = b.slots := by
    intro input b
    rw [decode]
    by_cases hlen : input.length = circuitPayloadPageBytes bucketSize blockSize
    · rw [if_neg (not_not.mpr hlen), Except.ok.injEq, and_iff_right hlen]
      constructor
      · rintro rfl
        rfl
      · intro h
        rw [h]
    · rw [if_pos hlen]
      constructor
      · intro h
        cases h
      · intro h
        exact absurd h.1 hlen
  apply Exact.of_iff
  · intro input b
    rw [hdecode, encode_eq_ok]
    constructor
    · intro h
      obtain ⟨hlen, hslots⟩ := h
      obtain ⟨hflat, hcount, hsize⟩ := chunksExact_spec hb hlen
      rw [hslots] at hflat hcount hsize
      exact ⟨⟨hcount, hsize⟩, hflat.symm⟩
    · intro h
      obtain ⟨⟨hcount, hsize⟩, rfl⟩ := h
      rw [length_flatten_of_lengths hsize, hcount]
      exact ⟨rfl, chunksExact_flatten hb hsize⟩
  · intro b
    simp only [encode_eq_ok]
    exact ⟨fun h => h.choose_spec.1, fun h => ⟨b.slots.flatten, h, rfl⟩⟩
  · intro input
    simp only [hdecode]
    exact ⟨fun h => h.choose_spec.1, fun h => ⟨⟨chunksExact blockSize input⟩, h, rfl⟩⟩

end CircuitPayloadBucket

/-! ## Authenticated pages -/

namespace EmbeddedPage

theorem exact_embeddedPage (logicalPageSize : Nat) :
    Exact (fun page : EmbeddedPage => page.logical.length = logicalPageSize)
      (fun input => input.length = logicalPageSize + embeddedTreeAuthBytesPerPage)
      (fun page => page.encode (logicalPageSize + embeddedTreeAuthBytesPerPage) logicalPageSize)
      (fun input => decode input logicalPageSize) := by
  apply Exact.of_iff
  · intro input page
    rw [decode_eq_ok, encode_eq_ok]
  · intro page
    simp only [encode_eq_ok]
    exact ⟨fun h => h.choose_spec.1, fun h => ⟨page.bytes, h, rfl⟩⟩
  · intro input
    constructor
    · intro h
      obtain ⟨page, h⟩ := h
      obtain ⟨hlen, rfl⟩ := decode_eq_ok.mp h
      rw [bytes_length, hlen]
    · intro h
      rw [decode, if_neg (not_not.mpr h)]
      exact ⟨_, rfl⟩

end EmbeddedPage

end BpirOram
