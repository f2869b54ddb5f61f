/-
  BpirOram.Circuit.Scan — the constant-shape scans of `circuit.rs` over the position map
  and the stash.

  Every scan visits all entries and moves the wanted one under a choice. Over entries
  numbered below 2^64 a lookup is an index, an update is a `set`, the batched scans are
  the sequential ones, and inserting into the stash fills its first empty slot.
-/

import BpirOram.Block
import Mathlib.Data.List.Basic
import Mathlib.Tactic.Common

namespace BpirOram

open Lib

/-! ## The position map -/

def scanPosMapLookup (posMap : List UInt32) (logicalId : UInt64) : UInt32 :=
  posMap.zipIdx.foldl (fun leaf (candidateLeaf, idx) => Ct.cmov leaf candidateLeaf (UInt64.ofNat idx == logicalId)) 0

def scanPosMapUpdate (posMap : List UInt32) (logicalId : UInt64) (newLeaf : UInt32) : List UInt32 :=
  posMap.zipIdx.map fun (leaf, idx) => Ct.cmov leaf newLeaf (UInt64.ofNat idx == logicalId)

def scanPosMapLookupBatch (posMap : List UInt32) (logicalIds : List UInt64) : List UInt32 :=
  posMap.zipIdx.foldl (fun leaves (candidateLeaf, idx) =>
    List.zipWith (fun logicalId leaf => Ct.cmov leaf candidateLeaf (UInt64.ofNat idx == logicalId)) logicalIds leaves)
    (List.replicate logicalIds.length 0)

def scanPosMapUpdateBatch (posMap : List UInt32) (logicalIds : List UInt64) (newLeaves : List UInt32) : List UInt32 :=
  posMap.zipIdx.map fun (leaf, idx) =>
    (logicalIds.zip newLeaves).foldl (fun leaf (logicalId, newLeaf) =>
      Ct.cmov leaf newLeaf (UInt64.ofNat idx == logicalId)) leaf

/-- Entry `i` is the old leaf of request `i`, or the fresh leaf of the last earlier request
    for the same id. -/
def batchAccessLeaves (logicalIds : List UInt64) (oldLeaves newLeaves : List UInt32) : List UInt32 :=
  (logicalIds.zip oldLeaves).zipIdx.map fun ((logicalId, oldLeaf), i) =>
    ((logicalIds.zip newLeaves).take i).foldl (fun leaf (earlierId, newLeaf) =>
      Ct.cmov leaf newLeaf (logicalId == earlierId)) oldLeaf

theorem ofNat_beq {idx : Nat} {logicalId : UInt64} (h : idx < 2 ^ 64) :
    (UInt64.ofNat idx == logicalId) = decide (idx = logicalId.toNat) := by
  rw [Bool.eq_iff_iff, beq_iff_eq, decide_eq_true_iff, ← UInt64.toNat_inj, UInt64.toNat_ofNat', Nat.mod_eq_of_lt h]

/-- The lookup scan, from entry `k` on. -/
theorem lookup_foldl (posMap : List UInt32) (logicalId : UInt64) (k : Nat) (init : UInt32)
    (h : k + posMap.length ≤ 2 ^ 64) :
    (posMap.zipIdx k).foldl (fun leaf (candidateLeaf, idx) =>
        Ct.cmov leaf candidateLeaf (UInt64.ofNat idx == logicalId)) init
      = if k ≤ logicalId.toNat then posMap.getD (logicalId.toNat - k) init else init := by
  induction posMap generalizing k init with
  | nil => simp
  | cons leaf posMap ih =>
    rw [List.length_cons] at h
    rw [List.zipIdx_cons, List.foldl_cons, ih (k + 1) _ (by omega)]
    simp only [ofNat_beq (show k < 2 ^ 64 by omega)]
    rcases Nat.lt_trichotomy logicalId.toNat k with hlt | heq | hgt
    · rw [if_neg (by omega), if_neg (by omega), decide_eq_false (by omega), Ct.cmov_false]
    · rw [if_neg (by omega), if_pos (by omega), decide_eq_true heq.symm, Ct.cmov_true,
        show logicalId.toNat - k = 0 by omega, List.getD_cons_zero]
    · rw [if_pos (by omega), if_pos (by omega), decide_eq_false (by omega), Ct.cmov_false,
        show logicalId.toNat - k = logicalId.toNat - (k + 1) + 1 by omega, List.getD_cons_succ]

theorem scanPosMapLookup_eq {posMap : List UInt32} (h : posMap.length ≤ 2 ^ 64) (logicalId : UInt64) :
    scanPosMapLookup posMap logicalId = posMap.getD logicalId.toNat 0 := by
  rw [scanPosMapLookup, lookup_foldl _ _ _ _ (by omega), if_pos (Nat.zero_le _), Nat.sub_zero]

@[simp] theorem scanPosMapUpdate_length (posMap : List UInt32) (logicalId : UInt64) (newLeaf : UInt32) :
    (scanPosMapUpdate posMap logicalId newLeaf).length = posMap.length := by
  simp [scanPosMapUpdate]

theorem scanPosMapUpdate_eq {posMap : List UInt32} (h : posMap.length ≤ 2 ^ 64) (logicalId : UInt64)
    (newLeaf : UInt32) : scanPosMapUpdate posMap logicalId newLeaf = posMap.set logicalId.toNat newLeaf := by
  refine List.ext_getElem (by simp) fun i h1 h2 => ?_
  have hi : i < posMap.length := by simpa using h1
  simp only [scanPosMapUpdate, List.getElem_map, List.getElem_zipIdx, Nat.zero_add, List.getElem_set,
    ofNat_beq (show i < 2 ^ 64 by omega)]
  by_cases hid : i = logicalId.toNat
  · simp [hid]
  · rw [decide_eq_false hid, if_neg (Ne.symm hid), Ct.cmov_false]

/-- One step of the loop: what the next lookup sees of an update. -/
theorem lookup_update {posMap : List UInt32} (h : posMap.length ≤ 2 ^ 64) {logicalId earlierId : UInt64}
    (hid : logicalId.toNat < posMap.length) (newLeaf : UInt32) :
    scanPosMapLookup (scanPosMapUpdate posMap earlierId newLeaf) logicalId
      = Ct.cmov (scanPosMapLookup posMap logicalId) newLeaf (logicalId == earlierId) := by
  rw [scanPosMapLookup_eq (by simpa using h), scanPosMapLookup_eq h, scanPosMapUpdate_eq h]
  simp only [List.getD_eq_getElem?_getD]
  by_cases he : logicalId = earlierId
  · subst he
    rw [List.getElem?_set_self hid]
    simp
  · have hne : earlierId.toNat ≠ logicalId.toNat := fun h => he (UInt64.toNat_inj.mp h.symm)
    rw [List.getElem?_set_ne hne, beq_eq_false_iff_ne.mpr he, Ct.cmov_false]

/-- The position map after a list of requests, each giving its id a fresh leaf. -/
def updateAll (posMap : List UInt32) (requests : List (UInt64 × UInt32)) : List UInt32 :=
  requests.foldl (fun posMap r => scanPosMapUpdate posMap r.1 r.2) posMap

@[simp] theorem updateAll_length (posMap : List UInt32) (requests : List (UInt64 × UInt32)) :
    (updateAll posMap requests).length = posMap.length := by
  induction requests generalizing posMap with
  | nil => rfl
  | cons r requests ih =>
    rw [updateAll, List.foldl_cons, ← updateAll, ih]
    simp

theorem lookup_updateAll {posMap : List UInt32} (h : posMap.length ≤ 2 ^ 64) {logicalId : UInt64}
    (hid : logicalId.toNat < posMap.length) (requests : List (UInt64 × UInt32)) :
    scanPosMapLookup (updateAll posMap requests) logicalId
      = requests.foldl (fun leaf r => Ct.cmov leaf r.2 (logicalId == r.1)) (scanPosMapLookup posMap logicalId) := by
  induction requests generalizing posMap with
  | nil => rfl
  | cons r requests ih =>
    rw [updateAll, List.foldl_cons, ← updateAll, ih (by simpa using h) (by simpa using hid), lookup_update h hid,
      List.foldl_cons]

/-- The leaves the sequential loop visits: each request looks up what the ones before it left. -/
def sequentialLeaves : List UInt32 → List (UInt64 × UInt32) → List UInt32
  | _, [] => []
  | posMap, r :: requests => scanPosMapLookup posMap r.1 :: sequentialLeaves (scanPosMapUpdate posMap r.1 r.2) requests

@[simp] theorem sequentialLeaves_length (posMap : List UInt32) (requests : List (UInt64 × UInt32)) :
    (sequentialLeaves posMap requests).length = requests.length := by
  induction requests generalizing posMap with
  | nil => rfl
  | cons r requests ih => simp [sequentialLeaves, ih]

theorem sequentialLeaves_getElem (posMap : List UInt32) (requests : List (UInt64 × UInt32)) {i : Nat}
    (hi : i < (sequentialLeaves posMap requests).length) (hi' : i < requests.length) :
    (sequentialLeaves posMap requests)[i] = scanPosMapLookup (updateAll posMap (requests.take i)) requests[i].1 := by
  induction requests generalizing posMap i with
  | nil => simp at hi'
  | cons r requests ih =>
    cases i with
    | zero => rfl
    | succ i => exact ih _ _ (by simpa using hi')

theorem lookupBatch_foldl (posMap : List UInt32) (logicalIds : List UInt64) (k : Nat) (g : UInt64 → UInt32) :
    (posMap.zipIdx k).foldl (fun leaves (candidateLeaf, idx) =>
        List.zipWith (fun logicalId leaf => Ct.cmov leaf candidateLeaf (UInt64.ofNat idx == logicalId)) logicalIds leaves)
        (logicalIds.map g)
      = logicalIds.map fun logicalId => (posMap.zipIdx k).foldl (fun leaf (candidateLeaf, idx) =>
          Ct.cmov leaf candidateLeaf (UInt64.ofNat idx == logicalId)) (g logicalId) := by
  induction posMap generalizing k g with
  | nil => rfl
  | cons leaf posMap ih =>
    simp only [List.zipIdx_cons, List.foldl_cons, List.zipWith_map_right, List.zipWith_self]
    exact ih (k + 1) _

theorem scanPosMapLookupBatch_eq (posMap : List UInt32) (logicalIds : List UInt64) :
    scanPosMapLookupBatch posMap logicalIds = logicalIds.map (scanPosMapLookup posMap) := by
  have h := lookupBatch_foldl posMap logicalIds 0 fun _ => 0
  rw [List.map_const'] at h
  exact h

/-- The batched scans see the leaves the sequential loop sees. -/
theorem batchAccessLeaves_eq {posMap : List UInt32} (h : posMap.length ≤ 2 ^ 64) {logicalIds : List UInt64}
    {newLeaves : List UInt32} (hlen : logicalIds.length = newLeaves.length)
    (hids : ∀ id ∈ logicalIds, id.toNat < posMap.length) :
    batchAccessLeaves logicalIds (scanPosMapLookupBatch posMap logicalIds) newLeaves
      = sequentialLeaves posMap (logicalIds.zip newLeaves) := by
  refine List.ext_getElem (by simp [batchAccessLeaves, scanPosMapLookupBatch_eq, hlen]) fun i h1 h2 => ?_
  have hi : i < logicalIds.length := by
    simpa [batchAccessLeaves, scanPosMapLookupBatch_eq] using h1
  have hz : i < (logicalIds.zip newLeaves).length := by simpa using h2
  rw [sequentialLeaves_getElem _ _ h2 hz, lookup_updateAll h (by
    rw [List.getElem_zip]; exact hids _ (List.getElem_mem hi))]
  simp [batchAccessLeaves, scanPosMapLookupBatch_eq]

/-- The batched update leaves what the sequential loop leaves. -/
theorem scanPosMapUpdateBatch_eq (posMap : List UInt32) (logicalIds : List UInt64) (newLeaves : List UInt32) :
    scanPosMapUpdateBatch posMap logicalIds newLeaves = updateAll posMap (logicalIds.zip newLeaves) := by
  rw [scanPosMapUpdateBatch]
  generalize logicalIds.zip newLeaves = requests
  induction requests generalizing posMap with
  | nil => simp [updateAll, List.zipIdx_map_fst]
  | cons r requests ih =>
    rw [updateAll, List.foldl_cons, ← updateAll, ← ih]
    refine List.ext_getElem (by simp) fun i h1 h2 => ?_
    simp [scanPosMapUpdate]

/-- One request after another: `scan_pos_map_lookup`, then `scan_pos_map_update`. The leaves
    seen, and the map left. -/
def lookupThenUpdate : List UInt32 → List (UInt64 × UInt32) → List UInt32 × List UInt32
  | posMap, [] => ([], posMap)
  | posMap, r :: requests =>
    let leaf := scanPosMapLookup posMap r.1
    let rest := lookupThenUpdate (scanPosMapUpdate posMap r.1 r.2) requests
    (leaf :: rest.1, rest.2)

theorem lookupThenUpdate_eq (posMap : List UInt32) (requests : List (UInt64 × UInt32)) :
    lookupThenUpdate posMap requests = (sequentialLeaves posMap requests, updateAll posMap requests) := by
  induction requests generalizing posMap with
  | nil => rfl
  | cons r requests ih =>
    rw [lookupThenUpdate, ih]
    rfl

/-- An entry no request is for stays. -/
theorem updateAll_keeps {posMap : List UInt32} (h : posMap.length ≤ 2 ^ 64) {requests : List (UInt64 × UInt32)} {k : Nat}
    (hk : ∀ r ∈ requests, r.1.toNat ≠ k) : (updateAll posMap requests)[k]? = posMap[k]? := by
  induction requests generalizing posMap with
  | nil => rfl
  | cons r requests ih =>
    have hrest : ∀ x ∈ requests, x.1.toNat ≠ k := fun x hx => hk x (List.mem_cons_of_mem _ hx)
    have hlen : (scanPosMapUpdate posMap r.1 r.2).length ≤ 2 ^ 64 := by rwa [scanPosMapUpdate_length]
    rw [updateAll, List.foldl_cons, ← updateAll, ih hlen hrest, scanPosMapUpdate_eq h,
      List.getElem?_set_ne (hk r List.mem_cons_self)]

/-- The last request for an id decides its entry. -/
theorem updateAll_last {posMap : List UInt32} (h : posMap.length ≤ 2 ^ 64) (front : List (UInt64 × UInt32))
    {r : UInt64 × UInt32} {back : List (UInt64 × UInt32)} (hid : r.1.toNat < posMap.length)
    (hlast : ∀ x ∈ back, x.1 ≠ r.1) : (updateAll posMap (front ++ r :: back))[r.1.toNat]? = some r.2 := by
  have hlen : (updateAll posMap front).length = posMap.length := updateAll_length posMap front
  have hafter : (scanPosMapUpdate (updateAll posMap front) r.1 r.2).length ≤ 2 ^ 64 := by
    rwa [scanPosMapUpdate_length, hlen]
  have hback : ∀ x ∈ back, x.1.toNat ≠ r.1.toNat := fun x hx he => hlast x hx (UInt64.toNat_inj.mp he)
  have hsplit : updateAll posMap (front ++ r :: back)
      = updateAll (scanPosMapUpdate (updateAll posMap front) r.1 r.2) back := by
    rw [updateAll, List.foldl_append, List.foldl_cons]
    rfl
  rw [hsplit, updateAll_keeps hafter hback, scanPosMapUpdate_eq (by rwa [hlen]), List.getElem?_set_self (by rwa [hlen])]

/-- The batched scans are the loop over the requests: the leaves it sees and the map it
    leaves, where the last request for an id decides and all other entries stay. -/
theorem batch_scans_are_loop {posMap : List UInt32} (h : posMap.length ≤ 2 ^ 64) {logicalIds : List UInt64}
    {newLeaves : List UInt32} (hlen : logicalIds.length = newLeaves.length)
    (hids : ∀ id ∈ logicalIds, id.toNat < posMap.length) :
    (batchAccessLeaves logicalIds (scanPosMapLookupBatch posMap logicalIds) newLeaves,
        scanPosMapUpdateBatch posMap logicalIds newLeaves) = lookupThenUpdate posMap (logicalIds.zip newLeaves) ∧
      (∀ (i : Nat) (logicalId : UInt64), logicalIds[i]? = some logicalId → (∀ j > i, logicalIds[j]? ≠ some logicalId) →
        (scanPosMapUpdateBatch posMap logicalIds newLeaves)[logicalId.toNat]? = newLeaves[i]?) ∧
      (∀ k : Nat, (∀ logicalId ∈ logicalIds, logicalId.toNat ≠ k) →
        (scanPosMapUpdateBatch posMap logicalIds newLeaves)[k]? = posMap[k]?) := by
  refine ⟨?_, fun i logicalId hi hlast => ?_, fun k hk => ?_⟩
  · rw [lookupThenUpdate_eq, batchAccessLeaves_eq h hlen hids, scanPosMapUpdateBatch_eq]
  · obtain ⟨hlt, rfl⟩ := List.getElem?_eq_some_iff.mp hi
    have hlt' : i < newLeaves.length := hlen ▸ hlt
    have hzip : i < (logicalIds.zip newLeaves).length := by rw [List.length_zip]; omega
    -- the requests before it, it, and those after it
    have hsplit : logicalIds.zip newLeaves = (logicalIds.zip newLeaves).take i ++
        (logicalIds[i], newLeaves[i]) :: (logicalIds.zip newLeaves).drop (i + 1) := by
      rw [← List.getElem_zip (h := hzip), ← List.drop_eq_getElem_cons hzip, List.take_append_drop]
    have hback : ∀ x ∈ (logicalIds.zip newLeaves).drop (i + 1), x.1 ≠ logicalIds[i] := by
      intro x hx he
      obtain ⟨j, hj, rfl⟩ := List.mem_iff_getElem.mp hx
      rw [List.length_drop, List.length_zip] at hj
      rw [List.getElem_drop, List.getElem_zip] at he
      refine hlast (i + 1 + j) (by omega) ?_
      rw [List.getElem?_eq_getElem (by omega)]
      exact congrArg some he
    rw [scanPosMapUpdateBatch_eq, hsplit, updateAll_last h _ (hids _ (List.getElem_mem hlt)) hback,
      List.getElem?_eq_getElem hlt']
  · rw [scanPosMapUpdateBatch_eq]
    exact updateAll_keeps h fun r hr => hk r.1 (List.of_mem_zip hr).1

theorem batch_scans_are_loop_six :
    (batchAccessLeaves [3, 0, 3] (scanPosMapLookupBatch [70, 31, 90, 42, 63, 12] [3, 0, 3]) [420, 700, 421],
        scanPosMapUpdateBatch [70, 31, 90, 42, 63, 12] [3, 0, 3] [420, 700, 421])
      = lookupThenUpdate [70, 31, 90, 42, 63, 12] [(3, 420), (0, 700), (3, 421)] :=
  (batch_scans_are_loop (by simp) rfl (by simp)).1

/-! ## The stash -/

/-- The lookup of `access`: whether a slot holds the id, and the payload moved out. -/
def scanStash (stash : List OramBlock) (logicalId : UInt64) (blockSize : Nat) : Ct.Choice × Bytes :=
  stash.foldl (fun (found, output) block =>
    let matched := block.logicalIdChoice logicalId
    (found || matched, Ct.cmovBytes output block.payload matched)) (false, List.replicate blockSize 0)

/-- The write-back of `access`: the new payload and leaf moved into the slot of the id. -/
def updateStash (stash : List OramBlock) (logicalId : UInt64) (newPayload : Bytes) (newLeaf : UInt32) :
    List OramBlock :=
  stash.map fun block =>
    let matched := block.logicalIdChoice logicalId
    { block with payload := Ct.cmovBytes block.payload newPayload matched, leaf := Ct.cmov block.leaf newLeaf matched }

/-- The insertion loop: the block moves into the first empty slot, unless `inserted`. -/
def insertScan (block : OramBlock) (insertChoice : Ct.Choice) :
    List OramBlock → Ct.Choice → List OramBlock × Ct.Choice
  | [], inserted => ([], inserted)
  | slot :: rest, inserted =>
    let canInsert := insertChoice && !inserted && !slot.occupied
    let tail := insertScan block insertChoice rest (inserted || canInsert)
    (slot.cmovFrom block canInsert :: tail.1, tail.2)

/-- What the insertion loop computes. -/
def insertFirst (block : OramBlock) : List OramBlock → Option (List OramBlock)
  | [] => none
  | slot :: rest => if slot.occupied then (insertFirst block rest).map (slot :: ·) else some (block :: rest)

theorem insertScan_done (block : OramBlock) (choice : Ct.Choice) (stash : List OramBlock) :
    insertScan block choice stash true = (stash, true) := by
  induction stash with
  | nil => rfl
  | cons slot rest ih => simp [insertScan, ih]

theorem insertScan_eq {block : OramBlock} {stash : List OramBlock}
    (h : ∀ slot ∈ stash, slot.payload.length = block.payload.length) :
    insertScan block true stash false = match insertFirst block stash with
      | some stash' => (stash', true)
      | none => (stash, false) := by
  induction stash with
  | nil => rfl
  | cons slot rest ih =>
    rcases ho : slot.occupied with _ | _
    · simp only [insertScan, insertFirst, ho, Bool.not_false, Bool.and_true, Bool.or_true, insertScan_done,
        OramBlock.cmovFrom_true (h slot (by simp))]
      rfl
    · simp only [insertScan, insertFirst, ho, Bool.not_true, Bool.and_false, Bool.or_false, OramBlock.cmovFrom_false,
        ih fun s hs => h s (by simp [hs]), if_true]
      cases insertFirst block rest <;> rfl

end BpirOram
