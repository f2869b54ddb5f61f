/-
  BpirOram.Direct.Placement — `build_direct_index_placement` (`direct.rs`): which record is
  in which slot of the cuckoo table.

  A record goes to the first empty slot of its candidate bins. If there is none it takes a
  slot of one of them, and the record it put out looks for a place in turn, for at most
  `max_kicks` turns.

  `Run` is a result that may not come: the candidate bins run on fuel.
-/

import BpirOram.Direct.Table

namespace BpirOram.Direct

open Lib

/-- A computation that may run out of fuel. -/
abbrev Run (α : Type) := ExceptT Error Option α

def Run.lift {α : Type} (r : Result α) : Run α := some r

def emptySlot : UInt32 := 0xFFFF_FFFF
def maxKicks : Nat := 10_000

def indexRecord (mmap : Bytes) (recordIdx : Nat) : Result Bytes :=
  let start := recordIdx * indexInputRecordSize
  if start ≥ 2 ^ 64 then .error (.invalidInput "direct index record offset overflow")
  else
    let stop := start + indexInputRecordSize
    if stop > mmap.length then
      .error (.invalidInput
        s!"direct index record {recordIdx} reaches byte {stop} past mapped file length {mmap.length}")
    else .ok (slice mmap start indexInputRecordSize)

def scriptHashFromRecord (record : Bytes) : Bytes := record.take scriptHashSize

section
variable (fuel : Nat) (info : TableInfo)

/-- The candidate bins of a record. -/
def recordBins (recordIdx : Nat) : Run (List Nat) := do
  let record ← Run.lift (indexRecord info.source.bytes recordIdx)
  directIndexCandidateBins fuel (scriptHashFromRecord record) info.seed info.hashFns info.totalItems

/-- The first empty of `slots` slots from `pos` on takes the record. -/
def placeFrom (recordIdx : UInt32) : Nat → Nat → List UInt32 → Option (List UInt32)
  | 0, _, _ => none
  | slots + 1, pos, placement =>
    if placement[pos]? = some emptySlot then some (placement.set pos recordIdx)
    else placeFrom recordIdx slots (pos + 1) placement

def placeInEmptySlot (placement : List UInt32) (bin slotsPerBin : Nat) (recordIdx : UInt32) : Option (List UInt32) :=
  placeFrom recordIdx slotsPerBin (bin * slotsPerBin) placement

def placeInBins (slotsPerBin : Nat) (recordIdx : UInt32) (placement : List UInt32) : List Nat → Option (List UInt32)
  | [] => none
  | bin :: bins => match placeInEmptySlot placement bin slotsPerBin recordIdx with
    | some placed => some placed
    | none => placeInBins slotsPerBin recordIdx placement bins

/-- The new placement, or `none` for `false`. -/
def tryPlaceInAnyCandidate (placement : List UInt32) (recordIdx : UInt32) : Run (Option (List UInt32)) := do
  let bins ← recordBins fuel info recordIdx.toNat
  return placeInBins info.slotsPerBin recordIdx placement bins

def tryPlaceInAnyCandidateExcept (placement : List UInt32) (recordIdx : UInt32) (exceptBin : Nat) :
    Run (Option (List UInt32)) := do
  let bins ← recordBins fuel info recordIdx.toNat
  return placeInBins info.slotsPerBin recordIdx placement (bins.filter (· != exceptBin))

/-- `bins[i]`. -/
def binAt (bins : List Nat) (i : Nat) : Result Nat :=
  match bins[i]? with
  | some bin => .ok bin
  | none => .error (.panic "index out of bounds")

def firstCandidateBin (recordIdx : Nat) : Run Nat := do
  let bins ← recordBins fuel info recordIdx
  Run.lift (binAt bins 0)

def alternateCandidateBin (recordIdx currentBin kick : Nat) : Run Nat := do
  let bins ← recordBins fuel info recordIdx
  match bins.findIdx? (· == currentBin) with
  | some pos => Run.lift (binAt bins ((pos + 1) % bins.length))
  | none => Run.lift (binAt bins (kick % bins.length))

def evictionSlot (seed : UInt64) (recordIdx : UInt32) (kick slotsPerBin : Nat) : Nat :=
  let h := splitmix64 (seed ^^^ (recordIdx.toUInt64 + UInt64.ofNat kick * goldenRatio))
  h.toNat % slotsPerBin

/-- A number with four decimals, as `{:.4}` writes it. -/
def fixed4 (x : Rat) : String :=
  let scaled := x * 10000
  let down := scaled.floor
  let rest := scaled - down
  let n := (if rest < 1 / 2 ∨ (rest = 1 / 2 ∧ down % 2 = 0) then down else down + 1).toNat
  let decimals := toString (n % 10000)
  toString (n / 10000) ++ "." ++ String.ofList (List.replicate (4 - decimals.length) '0') ++ decimals

def insertionFailed : Error :=
  .invalidInput (s!"direct index cuckoo insertion failed after {maxKicks} kicks; records={info.records} " ++
    s!"bins={info.totalItems} slots_per_bin={info.slotsPerBin} hash_fns={info.hashFns} " ++
    s!"load_factor={fixed4 info.loadFactor}")

/-- The kicks, with `turns` to go. -/
def kickLoop : Nat → Nat → UInt32 → Nat → List UInt32 → Run (List UInt32)
  | 0, _, _, _, _ => Run.lift (.error (insertionFailed info))
  | turns + 1, kick, current, currentBin, placement =>
    let slot := evictionSlot info.seed current kick info.slotsPerBin
    let offset := currentBin * info.slotsPerBin + slot
    match placement[offset]? with
    | none => Run.lift (.error (.panic "index out of bounds"))
    | some evicted =>
      let placement := placement.set offset current
      if evicted = emptySlot then return placement
      else do
        match ← tryPlaceInAnyCandidateExcept fuel info placement evicted currentBin with
        | some placed => return placed
        | none =>
          let currentBin ← alternateCandidateBin fuel info evicted.toNat currentBin (kick + 1)
          kickLoop turns (kick + 1) evicted currentBin placement

def insertIndexRecord (placement : List UInt32) (recordIdx : Nat) : Run (List UInt32) := do
  let currentBin ← firstCandidateBin fuel info recordIdx
  match ← tryPlaceInAnyCandidate fuel info placement (UInt32.ofNat recordIdx) with
  | some placed => return placed
  | none => kickLoop fuel info maxKicks 0 (UInt32.ofNat recordIdx) currentBin placement

/-- The loop over the records, from `recordIdx` on. -/
def insertRecords : Nat → Nat → List UInt32 → Run (List UInt32)
  | 0, _, placement => return placement
  | count + 1, recordIdx, placement => do
    let placement ← insertIndexRecord fuel info placement recordIdx
    insertRecords count (recordIdx + 1) placement

def buildDirectIndexPlacement : Run (List UInt32) :=
  if info.records > 2 ^ 32 - 1 then
    Run.lift (.error (.invalidInput s!"direct index records {info.records} exceed u32 placement id range"))
  else
    let slotCount := info.totalItems * info.slotsPerBin
    if slotCount ≥ 2 ^ 64 then Run.lift (.error (.invalidInput "direct index slot count overflow"))
    else insertRecords fuel info info.records 0 (List.replicate slotCount emptySlot)

end

/-! ## Running to an end -/

theorem run_bind_ok {α β : Type} {m : Run α} {f : α → Run β} {b : β} (h : m >>= f = some (.ok b)) :
    ∃ a, m = some (.ok a) ∧ f a = some (.ok b) := by
  rcases m with _ | e | a
  · cases h
  · cases h
  · exact ⟨a, rfl, h⟩

theorem run_pure_ok {α : Type} {a b : α} (h : (pure a : Run α) = some (.ok b)) : a = b := by
  cases h
  rfl

/-! ## Where a record may be -/

variable {fuel : Nat} {info : TableInfo} {placement placed : List UInt32}

/-- A bin is a candidate of a record. -/
def IsCandidate (fuel : Nat) (info : TableInfo) (recordIdx : UInt32) (bin : Nat) : Prop :=
  ∃ bins, recordBins fuel info recordIdx.toNat = some (.ok bins) ∧ bin ∈ bins

theorem IsCandidate.of {recordIdx : UInt32} {bins : List Nat} {bin : Nat}
    (h : recordBins fuel info recordIdx.toNat = some (.ok bins)) (hm : bin ∈ bins) : IsCandidate fuel info recordIdx bin :=
  ⟨bins, h, hm⟩

/-- What stands in the table stands where it may. -/
structure WellPlaced (fuel : Nat) (info : TableInfo) (placement : List UInt32) : Prop where
  length : placement.length = info.totalItems * info.slotsPerBin
  home : ∀ pos recordIdx, placement[pos]? = some recordIdx → recordIdx ≠ emptySlot →
    recordIdx.toNat < info.records ∧ IsCandidate fuel info recordIdx (pos / info.slotsPerBin)

/-- Putting a record into a slot of one of its candidate bins. -/
theorem WellPlaced.set (h : WellPlaced fuel info placement) {pos : Nat} {recordIdx : UInt32}
    (hlt : recordIdx.toNat < info.records) (hc : IsCandidate fuel info recordIdx (pos / info.slotsPerBin)) :
    WellPlaced fuel info (placement.set pos recordIdx) := by
  refine ⟨by rw [List.length_set, h.length], fun q r hq hr => ?_⟩
  rw [List.getElem?_set] at hq
  split at hq
  · rename_i he
    split at hq
    · cases hq
      exact ⟨hlt, he ▸ hc⟩
    · cases hq
  · exact h.home q r hq hr

end BpirOram.Direct
