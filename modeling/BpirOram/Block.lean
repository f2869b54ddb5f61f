/-
  BpirOram.Block — `block.rs`: one slot of the stash.

  A slot is written and cleared field by field under a choice; the lemmas say that a
  conditional move of a block of the same size takes it whole or leaves the slot as it
  was. `dead` is what clearing leaves: no id, no leaf, a zero payload.
-/

import BpirOram.Basic

namespace BpirOram

open Lib

structure OramBlock where
  occupied : Bool
  logicalId : UInt64
  leaf : UInt32
  payload : Bytes
  deriving DecidableEq, Repr

namespace OramBlock

def dummy (blockSize : Nat) : OramBlock :=
  { occupied := false, logicalId := 0xFFFFFFFFFFFFFFFF, leaf := 0xFFFFFFFF, payload := List.replicate blockSize 0 }

def real (logicalId : UInt64) (leaf : UInt32) (payload : Bytes) (blockSize : Nat) : Result OramBlock :=
  if payload.length ≠ blockSize then
    .error (.invalidInput s!"payload len {payload.length} != block_size {blockSize}")
  else .ok { occupied := true, logicalId, leaf, payload }

def logicalIdChoice (b : OramBlock) (logicalId : UInt64) : Ct.Choice := b.occupied && b.logicalId == logicalId

def cmovFrom (b other : OramBlock) (choice : Ct.Choice) : OramBlock :=
  { occupied := Ct.cmov b.occupied other.occupied choice
    logicalId := Ct.cmov b.logicalId other.logicalId choice
    leaf := Ct.cmov b.leaf other.leaf choice
    payload := Ct.cmovBytes b.payload other.payload choice }

def clearIf (b : OramBlock) (choice : Ct.Choice) : OramBlock :=
  { occupied := Ct.cmov b.occupied false choice
    logicalId := Ct.cmov b.logicalId (0xFFFFFFFFFFFFFFFF) choice
    leaf := Ct.cmov b.leaf (0xFFFFFFFF) choice
    payload := Ct.clearPayloadIf b.payload choice }

def occupiedByte : UInt8 := 1
def emptyByte : UInt8 := 0

def serializedLen (blockSize : Nat) : Nat := 1 + 8 + 4 + blockSize

def encodeInto (b : OramBlock) (outLen blockSize : Nat) : Result Bytes :=
  if outLen ≠ serializedLen blockSize then
    .error (.invalidInput s!"block output len {outLen} != expected {serializedLen blockSize}")
  else if b.payload.length ≠ blockSize then
    .error (.invalidInput s!"payload len {b.payload.length} != block_size {blockSize}")
  else .ok
    ((if b.occupied then occupiedByte else emptyByte) :: toLe 8 b.logicalId.toNat ++ toLe 4 b.leaf.toNat ++ b.payload)

def decodeFrom (input : Bytes) (blockSize : Nat) : Result OramBlock :=
  if input.length ≠ serializedLen blockSize then
    .error (.invalidInput s!"block input len {input.length} != expected {serializedLen blockSize}")
  else do
    let occupied ← match input.headD 0 with
      | 0 => .ok false
      | 1 => .ok true
      | other => .error (.invalidInput s!"invalid occupied byte {other.toNat}")
    .ok
      { occupied
        logicalId := UInt64.ofNat (ofLe ((input.drop 1).take 8))
        leaf := UInt32.ofNat (ofLe ((input.drop 9).take 4))
        payload := input.drop 13 }

@[simp] theorem dummy_occupied (n : Nat) : (dummy n).occupied = false := rfl
@[simp] theorem dummy_payload_length (n : Nat) : (dummy n).payload.length = n := List.length_replicate

@[simp] theorem cmovFrom_false (b other : OramBlock) : b.cmovFrom other false = b := by simp [cmovFrom]

theorem cmovFrom_true {b other : OramBlock} (h : b.payload.length = other.payload.length) :
    b.cmovFrom other true = other := by
  simp [cmovFrom, Ct.cmovBytes_true h]

@[simp] theorem clearIf_false (b : OramBlock) : b.clearIf false = b := by simp [clearIf]

@[simp] theorem clearIf_true (b : OramBlock) : b.clearIf true = dummy b.payload.length := by simp [clearIf, dummy]

theorem logicalIdChoice_iff {b : OramBlock} {id : UInt64} :
    b.logicalIdChoice id = true ↔ b.occupied = true ∧ b.logicalId = id := by
  simp [logicalIdChoice]

end OramBlock
end BpirOram
