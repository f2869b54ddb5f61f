/-
  BpirOram.Circuit.Bucket — the split buckets of `circuit.rs` and their page codecs.

  A bucket is `bucket_size` slots, kept in two pages: 13 metadata bytes a slot in one
  store, `block_size` payload bytes a slot in the other. Put together again, a slot of the
  two pages is an `OramBlock`; `metaPage` and `payloadPage` are the two pages of a bucket
  of blocks.
-/

import BpirOram.Block

namespace BpirOram

open Lib

structure CircuitMetaSlot where
  occupied : Bool
  logicalId : UInt64
  leaf : UInt32
  deriving DecidableEq, Repr

namespace CircuitMetaSlot

def serializedLen : Nat := 1 + 8 + 4

def metaOccupied : UInt8 := 1
def metaEmpty : UInt8 := 0

def dummy : CircuitMetaSlot := { occupied := false, logicalId := 0xFFFFFFFFFFFFFFFF, leaf := 0xFFFFFFFF }

def real (logicalId : UInt64) (leaf : UInt32) : CircuitMetaSlot := { occupied := true, logicalId, leaf }

/-- The bytes of a slot, as they stand in its 13-byte range of the page. -/
def bytes (slot : CircuitMetaSlot) : Bytes :=
  (if slot.occupied then metaOccupied else metaEmpty) :: toLe 8 slot.logicalId.toNat ++ toLe 4 slot.leaf.toNat

def encodeInto (slot : CircuitMetaSlot) (outLen : Nat) : Result Bytes :=
  if outLen ≠ serializedLen then .error (.invalidInput s!"meta output len {outLen} != expected {serializedLen}")
  else .ok slot.bytes

def decodeFrom (input : Bytes) : Result CircuitMetaSlot :=
  if input.length ≠ serializedLen then
    .error (.invalidInput s!"meta input len {input.length} != expected {serializedLen}")
  else do
    let occupied ← match input.headD 0 with
      | 0 => .ok false
      | 1 => .ok true
      | other => .error (.invalidInput s!"invalid meta occupied byte {other.toNat}")
    .ok
      { occupied
        logicalId := UInt64.ofNat (ofLe ((input.drop 1).take 8))
        leaf := UInt32.ofNat (ofLe ((input.drop 9).take 4)) }

def logicalIdChoice (slot : CircuitMetaSlot) (logicalId : UInt64) : Ct.Choice :=
  slot.occupied && slot.logicalId == logicalId

def clearIf (slot : CircuitMetaSlot) (choice : Ct.Choice) : CircuitMetaSlot :=
  { occupied := Ct.cmov slot.occupied false choice
    logicalId := Ct.cmov slot.logicalId (0xFFFFFFFFFFFFFFFF) choice
    leaf := Ct.cmov slot.leaf (0xFFFFFFFF) choice }

def cmovFrom (slot other : CircuitMetaSlot) (choice : Ct.Choice) : CircuitMetaSlot :=
  { occupied := Ct.cmov slot.occupied other.occupied choice
    logicalId := Ct.cmov slot.logicalId other.logicalId choice
    leaf := Ct.cmov slot.leaf other.leaf choice }

@[simp] theorem bytes_length (slot : CircuitMetaSlot) : slot.bytes.length = serializedLen := by
  simp [bytes, serializedLen]

@[simp] theorem clearIf_true (slot : CircuitMetaSlot) : slot.clearIf true = dummy := rfl
@[simp] theorem clearIf_false (slot : CircuitMetaSlot) : slot.clearIf false = slot := rfl
@[simp] theorem cmovFrom_true (slot other : CircuitMetaSlot) : slot.cmovFrom other true = other := rfl
@[simp] theorem cmovFrom_false (slot other : CircuitMetaSlot) : slot.cmovFrom other false = slot := rfl

theorem decodeFrom_bytes (slot : CircuitMetaSlot) : decodeFrom slot.bytes = .ok slot := by
  rcases slot with ⟨occupied, logicalId, leaf⟩
  have hid : ofLe (toLe 8 logicalId.toNat) = logicalId.toNat :=
    ofLe_toLe 8 _ (Nat.lt_of_lt_of_le logicalId.toNat_lt (by decide))
  have hleaf : ofLe (toLe 4 leaf.toNat) = leaf.toNat := ofLe_toLe 4 _ (Nat.lt_of_lt_of_le leaf.toNat_lt (by decide))
  have h9 : ((bytes ⟨occupied, logicalId, leaf⟩).drop 9).take 4 = toLe 4 leaf.toNat := by
    simp only [bytes, List.cons_append, List.drop_succ_cons]
    rw [List.drop_append_of_le_length (by simp), List.drop_of_length_le (by simp), List.nil_append,
      List.take_of_length_le (by simp)]
  have h1 : ((bytes ⟨occupied, logicalId, leaf⟩).drop 1).take 8 = toLe 8 logicalId.toNat := by
    simp only [bytes, List.cons_append, List.drop_succ_cons, List.drop_zero]
    rw [List.take_append_of_le_length (by simp), List.take_of_length_le (by simp)]
  rw [decodeFrom, if_neg (by simp), h1, h9, hid, hleaf]
  cases occupied <;> simp [bytes, metaOccupied, metaEmpty, bind, Except.bind]

end CircuitMetaSlot

/-- Exact, as is the one below: the controller's buckets are in memory, so none has 2^64 bytes.
    `Pages.PageBytes` has the products that wrap. -/
def circuitMetaPageBytes (bucketSize : Nat) : Nat := bucketSize * CircuitMetaSlot.serializedLen

def circuitPayloadPageBytes (bucketSize blockSize : Nat) : Nat := bucketSize * blockSize

structure CircuitMetaBucket where
  slots : List CircuitMetaSlot
  deriving DecidableEq, Repr

namespace CircuitMetaBucket

def dummy (bucketSize : Nat) : CircuitMetaBucket := { slots := List.replicate bucketSize .dummy }

def encodeInto (b : CircuitMetaBucket) (bucketSize outLen : Nat) : Result Bytes :=
  if b.slots.length ≠ bucketSize then
    .error (.invalidInput s!"meta bucket has {b.slots.length} slots, expected {bucketSize}")
  else if outLen ≠ circuitMetaPageBytes bucketSize then
    .error (.invalidInput s!"meta output len {outLen} != expected {circuitMetaPageBytes bucketSize}")
  else do
    let ranges ← b.slots.mapM fun slot => slot.encodeInto CircuitMetaSlot.serializedLen
    .ok ranges.flatten

def encode (b : CircuitMetaBucket) (bucketSize : Nat) : Result Bytes :=
  b.encodeInto bucketSize (circuitMetaPageBytes bucketSize)

def decode (input : Bytes) (bucketSize : Nat) : Result CircuitMetaBucket :=
  if input.length ≠ circuitMetaPageBytes bucketSize then
    .error (.invalidInput s!"meta bucket input len {input.length} != expected {circuitMetaPageBytes bucketSize}")
  else do
    let slots ← (chunksExact CircuitMetaSlot.serializedLen input).mapM CircuitMetaSlot.decodeFrom
    .ok { slots }

end CircuitMetaBucket

structure CircuitPayloadBucket where
  slots : List Bytes
  deriving DecidableEq, Repr

namespace CircuitPayloadBucket

def dummy (bucketSize blockSize : Nat) : CircuitPayloadBucket :=
  { slots := List.replicate bucketSize (List.replicate blockSize 0) }

def encode (b : CircuitPayloadBucket) (bucketSize blockSize : Nat) : Result Bytes :=
  if b.slots.length ≠ bucketSize then
    .error (.invalidInput s!"payload bucket has {b.slots.length} slots, expected {bucketSize}")
  else do
    let ranges ← b.slots.mapM fun slot =>
      if slot.length ≠ blockSize then
        .error (.invalidInput s!"payload slot len {slot.length} != block_size {blockSize}")
      else .ok slot
    .ok ranges.flatten

def decode (input : Bytes) (bucketSize blockSize : Nat) : Result CircuitPayloadBucket :=
  if input.length ≠ circuitPayloadPageBytes bucketSize blockSize then
    .error (.invalidInput
      s!"payload bucket input len {input.length} != expected {circuitPayloadPageBytes bucketSize blockSize}")
  else .ok { slots := chunksExact blockSize input }

end CircuitPayloadBucket

/-! ## Slots as blocks -/

namespace OramBlock

def metaSlot (b : OramBlock) : CircuitMetaSlot := { occupied := b.occupied, logicalId := b.logicalId, leaf := b.leaf }

@[simp] theorem metaSlot_occupied (b : OramBlock) : b.metaSlot.occupied = b.occupied := rfl
@[simp] theorem metaSlot_logicalId (b : OramBlock) : b.metaSlot.logicalId = b.logicalId := rfl
@[simp] theorem metaSlot_leaf (b : OramBlock) : b.metaSlot.leaf = b.leaf := rfl
@[simp] theorem metaSlot_dummy (n : Nat) : (dummy n).metaSlot = .dummy := rfl
@[simp] theorem metaSlot_logicalIdChoice (b : OramBlock) (id : UInt64) :
    b.metaSlot.logicalIdChoice id = b.logicalIdChoice id := rfl

end OramBlock

/-- The metadata page of a bucket. -/
def metaPage (bucket : List OramBlock) : Bytes := (bucket.map fun b => b.metaSlot.bytes).flatten

/-- The payload page of a bucket. -/
def payloadPage (bucket : List OramBlock) : Bytes := (bucket.map (·.payload)).flatten

/-- A bucket of `bucketSize` slots with payloads of `blockSize` bytes. -/
structure BucketShape (bucketSize blockSize : Nat) (bucket : List OramBlock) : Prop where
  slots : bucket.length = bucketSize
  payload : ∀ b ∈ bucket, b.payload.length = blockSize

variable {bucketSize blockSize : Nat} {bucket : List OramBlock}

theorem metaPage_length (h : bucket.length = bucketSize) :
    (metaPage bucket).length = circuitMetaPageBytes bucketSize := by
  rw [metaPage, length_flatten_of_lengths (n := CircuitMetaSlot.serializedLen) (by simp), List.length_map, h]
  rfl

theorem payloadPage_length (h : BucketShape bucketSize blockSize bucket) :
    (payloadPage bucket).length = circuitPayloadPageBytes bucketSize blockSize := by
  rw [payloadPage, length_flatten_of_lengths (n := blockSize) (by simpa using h.payload), List.length_map, h.slots]
  rfl

theorem decode_metaPage (h : bucket.length = bucketSize) :
    CircuitMetaBucket.decode (metaPage bucket) bucketSize = .ok ⟨bucket.map (·.metaSlot)⟩ := by
  have hc : chunksExact CircuitMetaSlot.serializedLen (metaPage bucket) = bucket.map fun b => b.metaSlot.bytes :=
    chunksExact_flatten (by decide) (by simp)
  rw [CircuitMetaBucket.decode, if_neg (by simp [metaPage_length h]), hc, List.mapM_map,
    mapM_ok (g := (·.metaSlot)) fun b _ => CircuitMetaSlot.decodeFrom_bytes b.metaSlot]
  rfl

theorem encode_metaSlots (h : bucket.length = bucketSize) :
    CircuitMetaBucket.encode ⟨bucket.map (·.metaSlot)⟩ bucketSize = .ok (metaPage bucket) := by
  rw [CircuitMetaBucket.encode, CircuitMetaBucket.encodeInto, if_neg (by simpa using h), if_neg (by simp),
    List.mapM_map, mapM_ok (g := fun b : OramBlock => b.metaSlot.bytes)]
  · rfl
  · intro b _
    simp [CircuitMetaSlot.encodeInto]

theorem decode_payloadPage (hb : 0 < blockSize) (h : BucketShape bucketSize blockSize bucket) :
    CircuitPayloadBucket.decode (payloadPage bucket) bucketSize blockSize = .ok ⟨bucket.map (·.payload)⟩ := by
  rw [CircuitPayloadBucket.decode, if_neg (by simp [payloadPage_length h]), payloadPage,
    chunksExact_flatten hb (by simpa using h.payload)]

theorem encode_payloads (h : BucketShape bucketSize blockSize bucket) :
    CircuitPayloadBucket.encode ⟨bucket.map (·.payload)⟩ bucketSize blockSize = .ok (payloadPage bucket) := by
  rw [CircuitPayloadBucket.encode, if_neg (by simpa using h.slots), List.mapM_map,
    mapM_ok (g := (·.payload))]
  · rfl
  · exact fun b hm => if_neg (by simpa using h.payload b hm)

end BpirOram
