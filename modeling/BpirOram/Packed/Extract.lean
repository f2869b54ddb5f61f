/-
  BpirOram.Packed.Extract — `extract_direct_chunks` (`bin/oramctl.rs`): the array of chunks a
  CHUNK cuckoo table holds.

  A slot of all zeros counts as empty; any other slot is a chunk's id and its 40 bytes. One
  pass over the slots finds the largest id, a second one copies each chunk the first time its
  id is seen and counts repeats that differ.
  - `extractSlots_spec`: it ends well exactly when the records agree and their ids have no gap.
  - `extract_lossless`: so a table that holds an array gives it back, unless chunk 0 is all zeros;
    then its slot is an empty one, id 0 is missing, and the command fails. The header has to
    give the length of the file without a wrap.
  - `extract_zero_chunk`: such a table.
-/

import BpirOram.Packed.Cuckoo
import BpirOram.Lib.Collect

namespace BpirOram.Cuckoo

open Lib

def chunkIdBytes : Nat := 4
def chunkDataBytes : Nat := 40
def chunkSlotBytes : Nat := chunkIdBytes + chunkDataBytes

def isZeroSlot (slot : Bytes) : Bool := slot.all (· == 0)

/-- The id a slot starts with. -/
def chunkId (slot : Bytes) : Nat := ofLe (slot.take chunkIdBytes)

/-- The first pass: how many slots are not empty, and the largest id. -/
def scanSlot (acc : Nat × Option Nat) (slot : Bytes) : Nat × Option Nat :=
  if isZeroSlot slot then acc
  else (acc.1 + 1, some (acc.2.elim (chunkId slot) fun m => max m (chunkId slot)))

structure Extraction where
  outMap : Bytes
  seen : Bytes
  uniqueChunks : Nat
  duplicateSlots : Nat
  conflictingDuplicates : Nat

/-- The second pass. -/
def placeSlot (s : Extraction) (slot : Bytes) : Result Extraction :=
  if isZeroSlot slot then .ok s
  else
    let chunkId := chunkId slot
    let chunk := slot.drop chunkIdBytes
    if chunkId * chunkDataBytes ≥ 2 ^ 64 then .error (.invalidInput "direct chunk offset overflow")
    else
      let outStart := chunkId * chunkDataBytes
      if bitIsSet s.seen chunkId then .ok
        { s with
          duplicateSlots := s.duplicateSlots + 1
          conflictingDuplicates :=
            if slice s.outMap outStart chunkDataBytes ≠ chunk then s.conflictingDuplicates + 1
            else s.conflictingDuplicates }
      else .ok
        { s with
          seen := setBit s.seen chunkId, uniqueChunks := s.uniqueChunks + 1
          outMap := splice s.outMap outStart chunk }

/-- What the command writes to `out_file` and reports. -/
structure ExtractedChunks where
  output : Bytes
  nonEmptySlots : Nat
  duplicateSlots : Nat
  uniqueChunks : Nat

def extractSlots (source : SourceFile) (slots : List Bytes) : Result ExtractedChunks :=
  let scan := slots.foldl scanSlot (0, none)
  match scan.2 with
  | none => .error (.invalidInput s!"no non-empty CHUNK slots found in {source.path}")
  | some maxChunkId =>
    let chunkCount := maxChunkId + 1
    if chunkCount * chunkDataBytes ≥ 2 ^ 64 then .error (.invalidInput "direct chunk output size overflow")
    else do
      let s ← slots.foldlM placeSlot
        { outMap := List.replicate (chunkCount * chunkDataBytes) 0, seen := List.replicate (divCeil chunkCount 8) 0
          uniqueChunks := 0, duplicateSlots := 0, conflictingDuplicates := 0 }
      if s.conflictingDuplicates > 0 then
        .error (.invalidInput s!"found {s.conflictingDuplicates} conflicting duplicate chunk slots in {source.path}")
      else if s.uniqueChunks ≠ chunkCount then
        .error (.invalidInput (s!"chunk ids are not contiguous: recovered {s.uniqueChunks} unique chunks but " ++
          s!"max_chunk_id={maxChunkId} implies {chunkCount}; first missing ids=" ++
          s!"{((List.range chunkCount).filter fun i => !bitIsSet s.seen i).take 8}"))
      else
        .ok { output := s.outMap, nonEmptySlots := scan.1, duplicateSlots := s.duplicateSlots
              uniqueChunks := s.uniqueChunks }

def extractDirectChunks (source : SourceFile) : Result ExtractedChunks := do
  let info ← TableInfo.fromFile .chunk source
  if info.slotSize ≠ chunkSlotBytes then
    .error (.invalidInput s!"chunk cuckoo slot size {info.slotSize} != expected {chunkSlotBytes}")
  else if info.dataOffset > source.bytes.length then .error (.panic "range start index out of range")
  else
    let table := source.bytes.drop info.dataOffset
    if table.length % chunkSlotBytes ≠ 0 then
      .error (.invalidInput s!"chunk cuckoo payload size {table.length} is not a multiple of {chunkSlotBytes}")
    else extractSlots source (chunksExact chunkSlotBytes table)

/-! ## What the passes compute -/

/-- The chunks in a list of slots. -/
def records (slots : List Bytes) : List (Nat × Bytes) :=
  (slots.filter fun slot => !isZeroSlot slot).map fun slot => (chunkId slot, slot.drop chunkIdBytes)

theorem records_concat (slots : List Bytes) (slot : Bytes) :
    records (slots ++ [slot]) =
      records slots ++ if isZeroSlot slot then [] else [(chunkId slot, slot.drop chunkIdBytes)] := by
  rw [records, List.filter_append, List.map_append, ← records]
  congr 1
  by_cases h : isZeroSlot slot
  · rw [if_pos h, List.filter_cons_of_neg (by simpa using h)]
    rfl
  · rw [if_neg h, List.filter_cons_of_pos (by simpa using h)]
    rfl

theorem mem_records {slots : List Bytes} {r : Nat × Bytes} :
    r ∈ records slots ↔ ∃ slot ∈ slots, isZeroSlot slot = false ∧ r = (chunkId slot, slot.drop chunkIdBytes) := by
  rw [records, List.mem_map]
  constructor
  · intro h
    obtain ⟨slot, hslot, rfl⟩ := h
    rw [List.mem_filter, Bool.not_eq_true'] at hslot
    exact ⟨slot, hslot.1, hslot.2, rfl⟩
  · intro h
    obtain ⟨slot, hslot, hzero, rfl⟩ := h
    exact ⟨slot, List.mem_filter.mpr ⟨hslot, by rw [hzero]; rfl⟩, rfl⟩

/-- The largest id is the largest key. -/
theorem scan_spec (slots : List Bytes) :
    ((slots.foldl scanSlot (0, none)).2 = none → keys (records slots) = ∅) ∧
    (∀ m, (slots.foldl scanSlot (0, none)).2 = some m →
      m ∈ keys (records slots) ∧ ∀ i ∈ keys (records slots), i ≤ m) := by
  induction slots using List.reverseRecOn with
  | nil => exact ⟨fun _ => rfl, fun m h => by cases h⟩
  | append_singleton slots slot ih =>
    obtain ⟨hnone, hsome⟩ := ih
    rw [List.foldl_append, List.foldl_cons, List.foldl_nil, scanSlot, records_concat]
    by_cases h : isZeroSlot slot
    · rw [if_pos h, if_pos h, List.append_nil]
      exact ⟨hnone, hsome⟩
    · rw [if_neg h, if_neg h, keys_concat]
      refine ⟨fun h => (by cases h), fun m hm => ?_⟩
      simp only [Option.some.injEq] at hm
      subst hm
      simp only [Finset.mem_insert]
      cases hold : (slots.foldl scanSlot (0, none)).2 with
      | none =>
        rw [hnone hold]
        simp
      | some m =>
        obtain ⟨hmem, hle⟩ := hsome m hold
        rw [Option.elim_some]
        constructor
        · rcases Nat.le_total m (chunkId slot) with hc | hc
          · exact .inl (Nat.max_eq_right hc)
          · rw [Nat.max_eq_left hc]
            exact .inr hmem
        · intro i hi
          rcases hi with rfl | hi
          · exact Nat.le_max_right _ _
          · exact Nat.le_trans (hle i hi) (Nat.le_max_left _ _)

/-- After the records `l`, with ids below `n`: the first record of each id is in its place. -/
structure Placed (n : Nat) (l : List (Nat × Bytes)) (s : Extraction) : Prop where
  outLength : s.outMap.length = n * chunkDataBytes
  seenLength : n ≤ s.seen.length * 8
  seen : ∀ i < n, (bitIsSet s.seen i = true ↔ i ∈ keys l)
  data : ∀ i < n, ∀ d, first l i = some d → pageAt chunkDataBytes s.outMap i = d
  unique : s.uniqueChunks = (keys l).card
  conflicts : s.conflictingDuplicates = 0 ↔ Consistent l

theorem placed_start (n : Nat) :
    Placed n []
      { outMap := List.replicate (n * chunkDataBytes) 0, seen := List.replicate (divCeil n 8) 0
        uniqueChunks := 0, duplicateSlots := 0, conflictingDuplicates := 0 } where
  outLength := List.length_replicate
  seenLength := by
    rw [List.length_replicate, divCeil]
    split <;> omega
  seen i _ := by
    rw [bitIsSet_zeros]
    simp [keys]
  data i _ d h := by cases h
  unique := rfl
  conflicts := iff_of_true rfl fun r hr => absurd hr List.not_mem_nil

/-- One slot. -/
theorem Placed.step {n : Nat} {slots : List Bytes} {s : Extraction} {slot : Bytes} (h : Placed n (records slots) s)
    (hlen : slot.length = chunkSlotBytes) (hid : isZeroSlot slot = false → chunkId slot < n) :
    ∃ t, placeSlot s slot = .ok t ∧ Placed n (records (slots ++ [slot])) t := by
  rw [records_concat, placeSlot]
  by_cases hzero : isZeroSlot slot
  · rw [if_pos hzero, if_pos hzero, List.append_nil]
    exact ⟨s, rfl, h⟩
  · rw [if_neg hzero, if_neg hzero]
    have hi := hid (by simpa using hzero)
    have hlt : chunkId slot < 256 ^ 4 := by
      have hle := ofLe_lt (slot.take chunkIdBytes)
      rw [List.length_take, hlen] at hle
      exact hle
    have hfits : ¬ chunkId slot * chunkDataBytes ≥ 2 ^ 64 := by
      rw [chunkDataBytes]
      omega
    have hdata : (slot.drop chunkIdBytes).length = chunkDataBytes := by rw [List.length_drop, hlen]; rfl
    simp only [if_neg hfits]
    by_cases hseen : bitIsSet s.seen (chunkId slot) = true
    · -- A repeated id: only the counters move, and they count whether the bytes agree.
      have hkey := (h.seen _ hi).mp hseen
      obtain ⟨d, hd⟩ := Option.isSome_iff_exists.mp (first_isSome.mpr hkey)
      have hpage : slice s.outMap (chunkId slot * chunkDataBytes) chunkDataBytes = d := h.data _ hi d hd
      have hkeys : keys (records slots ++ [(chunkId slot, slot.drop chunkIdBytes)]) = keys (records slots) := by
        rw [keys_concat, Finset.insert_eq_of_mem hkey]
      rw [if_pos hseen]
      refine ⟨_, rfl, h.outLength, h.seenLength, fun i hin => by rw [hkeys]; exact h.seen i hin, ?_, ?_, ?_⟩
      · intro i hin e he
        rw [first_concat] at he
        cases hold : first (records slots) i with
        | some e' =>
          rw [hold, Option.some_or] at he
          cases he
          exact h.data i hin _ hold
        | none =>
          have hne : chunkId slot ≠ i := fun heq => first_eq_none.mp hold (heq ▸ hkey)
          rw [hold, Option.none_or, if_neg hne] at he
          cases he
      · rw [hkeys]
        exact h.unique
      · rw [consistent_concat, ← h.conflicts, hd, hpage]
        simp only [Option.some.injEq]
        by_cases heq : d = slot.drop chunkIdBytes
        · rw [if_neg (not_not.mpr heq)]
          exact ⟨fun h0 => ⟨h0, fun a ha => ha ▸ heq⟩, fun h0 => h0.1⟩
        · rw [if_pos heq]
          exact ⟨fun h0 => absurd h0 (Nat.succ_ne_zero _), fun h0 => absurd (h0.2 d rfl) heq⟩
    · -- A new id: its page is written and its bit set.
      have hkey : chunkId slot ∉ keys (records slots) := fun hmem => hseen ((h.seen _ hi).mpr hmem)
      have hnone := first_eq_none.mpr hkey
      have hpages : pageAt chunkDataBytes (splice s.outMap (chunkId slot * chunkDataBytes) (slot.drop chunkIdBytes))
          = Function.update (pageAt chunkDataBytes s.outMap) (chunkId slot) (slot.drop chunkIdBytes) :=
        pageAt_splice h.outLength hi hdata
      have hroom := page_le chunkDataBytes hi
      have hbit : chunkId slot / 8 < s.seen.length := by
        have := h.seenLength
        omega
      rw [if_neg hseen]
      refine ⟨_, rfl, ?_, by rw [setBit_length]; exact h.seenLength, ?_, ?_, ?_, ?_⟩
      · rw [splice_length (by rw [hdata, h.outLength]; exact hroom)]
        exact h.outLength
      · intro i hin
        rw [bitIsSet_setBit hbit, keys_concat, Finset.mem_insert, Bool.or_eq_true, beq_iff_eq, h.seen i hin, eq_comm]
      · intro i hin e he
        rw [first_concat] at he
        rw [hpages]
        by_cases heq : chunkId slot = i
        · subst heq
          rw [hnone, Option.none_or, if_pos rfl] at he
          cases he
          exact Function.update_self _ _ _
        · rw [if_neg heq, Option.or_none] at he
          rw [Function.update_of_ne (Ne.symm heq)]
          exact h.data i hin e he
      · rw [keys_concat, Finset.card_insert_of_notMem hkey, h.unique]
      · rw [consistent_concat, ← h.conflicts, hnone]
        exact ⟨fun h0 => ⟨h0, fun a ha => by cases ha⟩, fun h0 => h0.1⟩

/-- All of them. -/
theorem placed_run {n : Nat} {slots : List Bytes} {s : Extraction} (hs : Placed n [] s)
    (hlen : ∀ slot ∈ slots, slot.length = chunkSlotBytes) (hid : ∀ i ∈ keys (records slots), i < n) :
    ∃ t, slots.foldlM placeSlot s = .ok t ∧ Placed n (records slots) t := by
  induction slots using List.reverseRecOn with
  | nil => exact ⟨s, rfl, hs⟩
  | append_singleton slots slot ih =>
    have hkeys : ∀ i ∈ keys (records slots), i ∈ keys (records (slots ++ [slot])) := by
      intro i hi
      obtain ⟨a, ha⟩ := mem_keys.mp hi
      rw [records_concat]
      exact mem_keys.mpr ⟨a, List.mem_append_left _ ha⟩
    obtain ⟨t, ht, hplaced⟩ := ih (fun x hx => hlen x (List.mem_append_left _ hx)) fun i hi => hid i (hkeys i hi)
    have hnew : isZeroSlot slot = false → chunkId slot < n := by
      intro hzero
      apply hid
      rw [records_concat, if_neg (by simpa using hzero), keys_concat]
      exact Finset.mem_insert_self _ _
    obtain ⟨u, hu, hplaced⟩ := hplaced.step (hlen slot (List.mem_append_right _ (List.mem_singleton_self slot))) hnew
    refine ⟨u, ?_, hplaced⟩
    rw [List.foldlM_append, ht]
    simp only [bind, Except.bind, List.foldlM_cons, hu, List.foldlM_nil]
    rfl

/-! ## What is extracted -/

/-- The ids of the records are `0, …, n - 1`. -/
def Contiguous (l : List (Nat × Bytes)) (n : Nat) : Prop := keys l = Finset.range n

theorem card_lt_of_gap {l : List (Nat × Bytes)} {n : Nat} (hlt : ∀ i ∈ keys l, i < n) :
    (keys l).card = n ↔ Contiguous l n := by
  have hsub : keys l ⊆ Finset.range n := fun i hi => Finset.mem_range.mpr (hlt i hi)
  constructor
  · intro h
    exact Finset.eq_of_subset_of_card_le hsub (by rw [Finset.card_range, h])
  · intro h
    rw [h, Finset.card_range]

/-- The extraction of slots ends well exactly when the records are consistent and leave no gap, and
    then page `i` of the output is the record of id `i`. -/
theorem extractSlots_spec (source : SourceFile) {slots : List Bytes} (hlen : ∀ slot ∈ slots, slot.length = chunkSlotBytes) :
    (∀ r, extractSlots source slots = .ok r → ∃ n, 0 < n ∧ Contiguous (records slots) n ∧ Consistent (records slots) ∧
      r.output.length = n * chunkDataBytes ∧ ∀ i < n, first (records slots) i = some (pageAt chunkDataBytes r.output i)) ∧
    (∀ n, 0 < n → Contiguous (records slots) n → Consistent (records slots) →
      ∃ r, extractSlots source slots = .ok r) := by
  obtain ⟨hnone, hsome⟩ := scan_spec slots
  have hid : ∀ i ∈ keys (records slots), i < 2 ^ 32 := by
    intro i hi
    obtain ⟨a, ha⟩ := mem_keys.mp hi
    obtain ⟨slot, hslot, _, he⟩ := mem_records.mp ha
    cases he
    have hlt := ofLe_lt (slot.take chunkIdBytes)
    rw [List.length_take, hlen slot hslot] at hlt
    exact hlt
  unfold extractSlots
  cases hscan : (slots.foldl scanSlot (0, none)).2 with
  | none =>
    simp only [hscan]
    refine ⟨fun r h => (by cases h), fun n hn hcontiguous _ => ?_⟩
    have hempty := hnone hscan
    rw [hcontiguous, Finset.range_eq_empty_iff] at hempty
    omega
  | some m =>
    obtain ⟨hmem, hle⟩ := hsome m hscan
    have hlt : ∀ i ∈ keys (records slots), i < m + 1 := fun i hi => Nat.lt_succ_of_le (hle i hi)
    have hfits : ¬ (m + 1) * chunkDataBytes ≥ 2 ^ 64 := by
      have := hid m hmem
      rw [chunkDataBytes]
      omega
    obtain ⟨s, hrun, hplaced⟩ := placed_run (placed_start (m + 1)) hlen hlt
    simp only [hscan, if_neg hfits, hrun, bind, Except.bind]
    constructor
    · intro r h
      split at h
      · cases h
      · rename_i hconflicts
        split at h
        · cases h
        · rename_i hunique
          cases h
          rw [hplaced.unique, not_not, card_lt_of_gap hlt] at hunique
          refine ⟨m + 1, Nat.succ_pos m, hunique, hplaced.conflicts.mp (by omega), hplaced.outLength, fun i hi => ?_⟩
          have hkey : i ∈ keys (records slots) := by rw [hunique]; exact Finset.mem_range.mpr hi
          obtain ⟨d, hd⟩ := Option.isSome_iff_exists.mp (first_isSome.mpr hkey)
          rw [hd, hplaced.data i hi d hd]
    · intro n hn hcontiguous hconsistent
      have hnm : n = m + 1 := by
        rw [hcontiguous, Finset.mem_range] at hmem
        have hlast := hle (n - 1) (by rw [hcontiguous, Finset.mem_range]; omega)
        omega
      subst hnm
      rw [if_neg (by rw [hplaced.conflicts.mpr hconsistent]; omega), hplaced.unique, (card_lt_of_gap hlt).mpr hcontiguous,
        if_neg (by simp)]
      exact ⟨_, rfl⟩

/-! ## Tables that hold an array -/

/-- The slots of a CHUNK table. -/
def tableSlots (info : TableInfo) : List Bytes := chunksExact chunkSlotBytes (info.source.bytes.drop info.dataOffset)

/-- The slot of chunk `i`. -/
def entry (i : Nat) (data : Bytes) : Bytes := toLe chunkIdBytes i ++ data

def entries (array : List Bytes) : List Bytes := array.mapIdx entry

/-- Every chunk is in some slot, and the other slots are empty. -/
structure HoldsArray (array slots : List Bytes) : Prop where
  present : ∀ e ∈ entries array, e ∈ slots
  only : ∀ slot ∈ slots, slot ∉ entries array → ∀ b ∈ slot, b = 0

theorem tableSlots_length {source : SourceFile} {info : TableInfo} (h : TableInfo.fromFile .chunk source = .ok info)
    (hfile : info.fileLength < 2 ^ 64) : info.dataOffset ≤ source.bytes.length ∧
      (source.bytes.drop info.dataOffset).length % chunkSlotBytes = 0 ∧
      ∀ slot ∈ tableSlots info, slot.length = chunkSlotBytes := by
  obtain ⟨rfl, hslot, haccepted⟩ := TableInfo.fromFile_ok h
  have hlength := haccepted.length
  rw [Nat.mod_eq_of_lt hfile, TableInfo.fileLength, hslot] at hlength
  have hlen : (info.source.bytes.drop info.dataOffset).length =
      info.k * info.binsPerTable * info.slotsPerBin * chunkSlotBytes := by
    rw [List.length_drop, hlength, Nat.add_sub_cancel_left]
    rfl
  exact ⟨by omega, by rw [hlen, Nat.mul_mod_left], (chunksExact_spec (Nat.succ_pos 43) hlen).2.2⟩

theorem extractDirectChunks_eq {source : SourceFile} {info : TableInfo} (h : TableInfo.fromFile .chunk source = .ok info)
    (hfile : info.fileLength < 2 ^ 64) : extractDirectChunks source = extractSlots source (tableSlots info) := by
  obtain ⟨hoffset, hmod, _⟩ := tableSlots_length h hfile
  obtain ⟨rfl, hslot, _⟩ := TableInfo.fromFile_ok h
  rw [extractDirectChunks, h]
  simp only [bind, Except.bind]
  rw [if_neg (by rw [hslot]; decide), if_neg (by omega), if_neg (by rw [hmod]; decide)]
  rfl

theorem isZeroSlot_iff {slot : Bytes} : isZeroSlot slot = true ↔ ∀ b ∈ slot, b = 0 := by
  rw [isZeroSlot, List.all_eq_true]
  simp only [beq_iff_eq]

theorem ofLe_eq_zero {b : Bytes} : ofLe b = 0 ↔ ∀ x ∈ b, x = 0 := by
  induction b with
  | nil => exact iff_of_true rfl fun x hx => absurd hx List.not_mem_nil
  | cons x b ih =>
    rw [List.forall_mem_cons, ← ih, ofLe, ← UInt8.toNat_inj]
    simp only [UInt8.toNat_zero]
    omega

section
variable {array slots : List Bytes} {i : Nat} {d : Bytes}

theorem mem_entries {e : Bytes} : e ∈ entries array ↔ ∃ i d, array[i]? = some d ∧ e = entry i d := by
  rw [entries, List.mem_mapIdx]
  constructor
  · intro h
    obtain ⟨i, hi, rfl⟩ := h
    exact ⟨i, array[i], List.getElem?_eq_getElem hi, rfl⟩
  · intro h
    obtain ⟨i, d, hi, rfl⟩ := h
    obtain ⟨hlt, rfl⟩ := List.getElem?_eq_some_iff.mp hi
    exact ⟨i, hlt, rfl⟩

theorem chunkId_entry (hi : i < 2 ^ 32) (d : Bytes) : chunkId (entry i d) = i := by
  rw [chunkId, entry, List.take_left' (toLe_length _ _)]
  exact ofLe_toLe 4 i hi

theorem drop_entry (i : Nat) (d : Bytes) : (entry i d).drop chunkIdBytes = d := List.drop_left' (toLe_length _ _)

/-- Only the slot of chunk 0 may look empty. -/
theorem isZeroSlot_entry (hi : i < 2 ^ 32) : isZeroSlot (entry i d) = true ↔ i = 0 ∧ ∀ b ∈ d, b = 0 := by
  rw [isZeroSlot_iff, entry, List.forall_mem_append, ← ofLe_eq_zero]
  have hid : ofLe (toLe chunkIdBytes i) = i := ofLe_toLe 4 i hi
  rw [hid]

/-- The records of a table that holds an array are the array's chunks, but for an all-zero chunk 0. -/
theorem HoldsArray.mem_records (h : HoldsArray array slots) (hn : array.length ≤ 2 ^ 32) :
    (i, d) ∈ records slots ↔ array[i]? = some d ∧ ¬ (i = 0 ∧ ∀ b ∈ d, b = 0) := by
  have hbound : ∀ {i : Nat} {d : Bytes}, array[i]? = some d → i < 2 ^ 32 := fun hi =>
    Nat.lt_of_lt_of_le (List.getElem?_eq_some_iff.mp hi).choose hn
  rw [Cuckoo.mem_records]
  constructor
  · intro hrecord
    obtain ⟨slot, hslot, hzero, he⟩ := hrecord
    have hentry : slot ∈ entries array := by
      by_contra hnot
      rw [isZeroSlot_iff.mpr (h.only slot hslot hnot)] at hzero
      cases hzero
    obtain ⟨j, c, hj, rfl⟩ := mem_entries.mp hentry
    rw [chunkId_entry (hbound hj), drop_entry, Prod.mk.injEq] at he
    obtain ⟨rfl, rfl⟩ := he
    refine ⟨hj, fun hz => ?_⟩
    rw [(isZeroSlot_entry (hbound hj)).mpr hz] at hzero
    cases hzero
  · intro hchunk
    obtain ⟨hi, hz⟩ := hchunk
    refine ⟨entry i d, h.present _ (mem_entries.mpr ⟨i, d, hi, rfl⟩), ?_, ?_⟩
    · rw [← Bool.not_eq_true, isZeroSlot_entry (hbound hi)]
      exact hz
    · rw [chunkId_entry (hbound hi), drop_entry]

theorem HoldsArray.consistent (h : HoldsArray array slots) (hn : array.length ≤ 2 ^ 32) : Consistent (records slots) := by
  intro r hr r' hr' he
  have hd := ((h.mem_records hn).mp hr).1
  have hd' := ((h.mem_records hn).mp hr').1
  rw [he] at hd
  exact Option.some.inj (hd.symm.trans hd')

end

/-- Pages that are an array's elements are the array. -/
theorem eq_flatten_of_pages {sz n : Nat} {b : Bytes} {array : List Bytes} (hlen : b.length = n * sz) (hn : array.length = n)
    (h : ∀ i < n, array[i]? = some (pageAt sz b i)) : b = array.flatten := by
  obtain ⟨hflat, hcount, _⟩ := chunks_spec hlen
  have hpages : chunks sz n b = array := by
    apply List.ext_getElem?
    intro i
    by_cases hi : i < n
    · rw [chunks_getElem? b hi, h i hi]
      rfl
    · rw [List.getElem?_eq_none (by omega), List.getElem?_eq_none (by omega)]
  rw [← hflat, hpages]

/-! ## Extraction -/

section
variable {source : SourceFile} {info : TableInfo}

/-- A table whose records differ on an id or leave one out is refused. -/
theorem extract_error (hinfo : TableInfo.fromFile .chunk source = .ok info) (hfile : info.fileLength < 2 ^ 64)
    (h : ∀ n, 0 < n → ¬ (Contiguous (records (tableSlots info)) n ∧ Consistent (records (tableSlots info)))) :
    ∃ e, extractDirectChunks source = .error e := by
  rw [extractDirectChunks_eq hinfo hfile]
  cases hrun : extractSlots source (tableSlots info) with
  | error e => exact ⟨e, rfl⟩
  | ok r =>
    obtain ⟨n, hpos, hcontiguous, hconsistent, _⟩ := (extractSlots_spec source (tableSlots_length hinfo hfile).2.2).1 r hrun
    exact absurd ⟨hcontiguous, hconsistent⟩ (h n hpos)

/-- A table that holds an array with a chunk 0 that is not all zeros gives the array back. -/
theorem extract_array (hinfo : TableInfo.fromFile .chunk source = .ok info) (hfile : info.fileLength < 2 ^ 64)
    {array : List Bytes} (hsize : ∀ c ∈ array, c.length = chunkDataBytes) (hpos : 1 ≤ array.length)
    (hn : array.length ≤ 2 ^ 32) (h : HoldsArray array (tableSlots info))
    (hfirst : array[0]? ≠ some (List.replicate chunkDataBytes 0)) :
    ∃ r, extractDirectChunks source = .ok r ∧ r.output = array.flatten := by
  have hmem : ∀ i d, (i, d) ∈ records (tableSlots info) ↔ array[i]? = some d := by
    intro i d
    rw [h.mem_records hn]
    refine and_iff_left_of_imp fun hi hz => ?_
    obtain ⟨rfl, hz⟩ := hz
    have hd : d = List.replicate chunkDataBytes 0 :=
      List.eq_replicate_iff.mpr ⟨hsize d (List.mem_of_getElem? hi), hz⟩
    exact hfirst (hd ▸ hi)
  have hcontiguous : Contiguous (records (tableSlots info)) array.length := by
    ext i
    rw [mem_keys, Finset.mem_range]
    constructor
    · intro hi
      obtain ⟨d, hd⟩ := hi
      exact (List.getElem?_eq_some_iff.mp ((hmem i d).mp hd)).choose
    · intro hi
      exact ⟨array[i], (hmem i _).mpr (List.getElem?_eq_getElem hi)⟩
  obtain ⟨hok, hruns⟩ := extractSlots_spec source (tableSlots_length hinfo hfile).2.2
  obtain ⟨r, hr⟩ := hruns _ hpos hcontiguous (h.consistent hn)
  obtain ⟨n, _, hcontiguous', _, hlen, hpages⟩ := hok r hr
  have hnn : n = array.length := by
    have hcard := congrArg Finset.card (hcontiguous'.symm.trans hcontiguous)
    rwa [Finset.card_range, Finset.card_range] at hcard
  subst hnn
  refine ⟨r, by rw [extractDirectChunks_eq hinfo hfile, hr], ?_⟩
  exact eq_flatten_of_pages hlen rfl fun i hi => (hmem i _).mp (mem_of_first (hpages i hi))

end

/-- A table that holds an array whose chunk 0 is not all zeros gives exactly the array; one whose
    chunk 0 is all zeros is refused; and so is every table whose non-empty slots give one id two
    values, or miss an id below another. All of it for headers whose file length fits a word. -/
theorem extract_lossless {source : SourceFile} {info : TableInfo} (hinfo : TableInfo.fromFile .chunk source = .ok info)
    (hfile : info.dataOffset + info.k * info.binsPerTable * info.slotsPerBin * info.slotSize < 2 ^ 64) :
    (∀ array, (∀ c ∈ array, c.length = chunkDataBytes) → 1 ≤ array.length → array.length ≤ 2 ^ 32 →
      HoldsArray array (tableSlots info) →
      (array[0]? ≠ some (List.replicate chunkDataBytes 0) →
        ∃ r, extractDirectChunks source = .ok r ∧ r.output = array.flatten) ∧
      (array[0]? = some (List.replicate chunkDataBytes 0) → ∃ e, extractDirectChunks source = .error e)) ∧
    (∀ slot ∈ tableSlots info, ∀ slot' ∈ tableSlots info, isZeroSlot slot = false → isZeroSlot slot' = false →
      chunkId slot = chunkId slot' → slot.drop chunkIdBytes ≠ slot'.drop chunkIdBytes →
      ∃ e, extractDirectChunks source = .error e) ∧
    (∀ slot ∈ tableSlots info, isZeroSlot slot = false → ∀ i < chunkId slot,
      (∀ slot' ∈ tableSlots info, isZeroSlot slot' = false → chunkId slot' ≠ i) →
      ∃ e, extractDirectChunks source = .error e) := by
  refine ⟨?_, ?_, ?_⟩
  · intro array hsize hpos hn h
    refine ⟨extract_array hinfo hfile hsize hpos hn h, fun hfirst => ?_⟩
    -- Id 0 has no record, so the ids have a gap or there are none at all.
    apply extract_error hinfo hfile
    intro n hpos' hn'
    have hzero : 0 ∉ keys (records (tableSlots info)) := by
      intro hmem
      obtain ⟨d, hd⟩ := mem_keys.mp hmem
      obtain ⟨hi, hz⟩ := (h.mem_records hn).mp hd
      rw [hfirst, Option.some.injEq] at hi
      exact hz ⟨rfl, fun b hb => List.eq_of_mem_replicate (hi ▸ hb)⟩
    exact hzero (by rw [hn'.1, Finset.mem_range]; exact hpos')
  · intro slot hslot slot' hslot' hne hne' hid hdata
    apply extract_error hinfo hfile
    intro n _ hn
    exact hdata (hn.2 _ (mem_records.mpr ⟨slot, hslot, hne, rfl⟩) _ (mem_records.mpr ⟨slot', hslot', hne', rfl⟩) hid)
  · intro slot hslot hne i hi hmissing
    apply extract_error hinfo hfile
    intro n _ hn
    have hmem : chunkId slot ∈ keys (records (tableSlots info)) :=
      mem_keys.mpr ⟨_, mem_records.mpr ⟨slot, hslot, hne, rfl⟩⟩
    have hgap : i ∈ keys (records (tableSlots info)) := by
      rw [hn.1, Finset.mem_range] at hmem ⊢
      exact Nat.lt_trans hi hmem
    obtain ⟨d, hd⟩ := mem_keys.mp hgap
    obtain ⟨slot', hslot', hne', he⟩ := mem_records.mp hd
    exact hmissing slot' hslot' hne' (congrArg Prod.fst he).symm

/-- The header of a CHUNK table of one group of three bins of one slot. -/
def chunkHeader : Bytes :=
  [2, 0, 0, 0xC0, 0, 0xC0, 0x7C, 0xBA, 1, 0, 0, 0, 1, 0, 0, 0, 3, 0, 0, 0, 2, 0, 0, 0] ++ List.replicate 8 0

/-- Chunks 0 and 1, chunk 1 twice. -/
def extractedArray : List Bytes := [List.replicate 40 7, List.replicate 40 0]

def extractedFile : SourceFile where
  path := "chunk_pir_cuckoo.bin"
  bytes := chunkHeader ++ (entry 1 (List.replicate 40 0) ++ entry 0 (List.replicate 40 7) ++ entry 1 (List.replicate 40 0))

def extractedInfo : TableInfo := (TableInfo.fromFile .chunk extractedFile).toOption.get (by decide +kernel)

theorem extract_lossless_two :
    HoldsArray extractedArray (tableSlots extractedInfo) ∧
      ∃ r, extractDirectChunks extractedFile = .ok r ∧ r.output = extractedArray.flatten :=
  have hinfo : TableInfo.fromFile .chunk extractedFile = .ok extractedInfo := toOption_get _
  have hholds : HoldsArray extractedArray (tableSlots extractedInfo) := ⟨by decide +kernel, by decide +kernel⟩
  ⟨hholds, ((extract_lossless hinfo (by decide +kernel)).1 extractedArray (by decide +kernel) (by decide +kernel)
    (by decide +kernel) hholds).1
    (by decide +kernel)⟩

/-- An array whose chunk 0 is all zeros, and the table that holds it. -/
def zeroFirstArray : List Bytes := [List.replicate 40 0, List.replicate 40 7]

def zeroFirstFile : SourceFile where
  path := "chunk_pir_cuckoo.bin"
  bytes := chunkHeader ++ (entry 1 (List.replicate 40 7) ++ entry 0 (List.replicate 40 0) ++ List.replicate 44 0)

def zeroFirstInfo : TableInfo := (TableInfo.fromFile .chunk zeroFirstFile).toOption.get (by decide +kernel)

/-- Every chunk is in a slot and the rest is empty, and yet the extraction fails. -/
theorem extract_zero_chunk :
    TableInfo.fromFile .chunk zeroFirstFile = .ok zeroFirstInfo ∧ (∀ c ∈ zeroFirstArray, c.length = chunkDataBytes) ∧
      HoldsArray zeroFirstArray (tableSlots zeroFirstInfo) ∧ ∀ r, extractDirectChunks zeroFirstFile ≠ .ok r := by
  refine ⟨toOption_get _, by decide +kernel, ⟨by decide +kernel, by decide +kernel⟩, fun r h => ?_⟩
  have hnone : (extractDirectChunks zeroFirstFile).toOption.isNone := by decide +kernel
  rw [h] at hnone
  cases hnone

end BpirOram.Cuckoo
