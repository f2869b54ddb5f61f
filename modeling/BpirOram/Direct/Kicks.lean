/-
  BpirOram.Direct.Kicks — what the cuckoo insertion keeps (`direct.rs`): no record is lost
  or placed twice.

  A build goes from one record to the next, and from kick to kick within one
  (`Building.step`). Through all of it at most one record is in hand; every other record
  inserted so far is in exactly one slot, in a bin of its own (`PlacedOnce`). A record put
  down takes an empty slot; a record put out changes places with the one in hand.
  - `Reaches.sound`: this, in every state that a build goes through.
  - `placement_exact`: a build that ends well has placed every record once.
-/

import BpirOram.Direct.Placement
import Mathlib.Data.List.Basic

namespace BpirOram.Direct

open Lib

variable {fuel : Nat} {info : TableInfo} {placement placed : List UInt32}

/-! ## One record in hand -/

/-- The first `n` records, each in one slot where it may be, but for the one in hand. -/
structure PlacedOnce (fuel : Nat) (info : TableInfo) (n : Nat) (hand : Option UInt32) (placement : List UInt32) : Prop where
  wellPlaced : WellPlaced fuel info placement
  once : ∀ r, r ≠ emptySlot → placement.count r = if r.toNat < n ∧ hand ≠ some r then 1 else 0

/-- A slot given to `new` loses `old`. -/
theorem count_set_of {pos : Nat} {old new : UInt32} (hold : placement[pos]? = some old) (r : UInt32) :
    (placement.set pos new).count r = placement.count r - (if old = r then 1 else 0) + (if new = r then 1 else 0) := by
  obtain ⟨hlt, he⟩ := List.getElem?_eq_some_iff.mp hold
  rw [List.count_set hlt, he]
  simp only [beq_iff_eq]

theorem PlacedOnce.put {n pos : Nat} {current : UInt32} (h : PlacedOnce fuel info n (some current) placement)
    (hempty : placement[pos]? = some emptySlot) (hlt : current.toNat < n) (hn : n ≤ info.records)
    (hc : IsCandidate fuel info current (pos / info.slotsPerBin)) :
    PlacedOnce fuel info n none (placement.set pos current) := by
  refine ⟨h.wellPlaced.set (by omega) hc, fun r hr => ?_⟩
  rw [count_set_of hempty, h.once r hr, if_neg (Ne.symm hr)]
  by_cases he : current = r
  · subst he
    rw [if_neg (fun hand => hand.2 rfl), if_pos rfl, if_pos ⟨hlt, by simp⟩]
  · rw [if_neg he]
    simp [he]

theorem PlacedOnce.swap {n pos : Nat} {current old : UInt32} (h : PlacedOnce fuel info n (some current) placement)
    (hold : placement[pos]? = some old) (hne : old ≠ emptySlot) (hlt : current.toNat < n) (hn : n ≤ info.records)
    (hc : IsCandidate fuel info current (pos / info.slotsPerBin)) :
    PlacedOnce fuel info n (some old) (placement.set pos current) ∧ old.toNat < n := by
  have hmem : 0 < placement.count old := List.count_pos_iff.mpr (List.mem_of_getElem? hold)
  rw [h.once old hne] at hmem
  have hin : old.toNat < n ∧ some current ≠ some old := by
    by_contra hnot
    rw [if_neg hnot] at hmem
    exact absurd hmem (Nat.lt_irrefl 0)
  refine ⟨⟨h.wellPlaced.set (by omega) hc, fun r hr => ?_⟩, hin.1⟩
  rw [count_set_of hold, h.once r hr]
  by_cases he : current = r
  · -- the record in hand comes in
    subst he
    have hother : old ≠ current := fun hoc => hin.2 (by rw [hoc])
    rw [if_neg (fun hand => hand.2 rfl), if_neg hother, if_pos rfl, if_pos ⟨hlt, fun hoc => hother (Option.some.inj hoc)⟩]
  · by_cases ho : old = r
    · -- the one put out leaves its only slot
      subst ho
      rw [if_pos hin, if_pos rfl, if_neg he, if_neg fun hand => hand.2 rfl]
    · rw [if_neg ho, if_neg he]
      simp [he, ho]

theorem toNat_record {i : Nat} (h : i < 2 ^ 32) : (UInt32.ofNat i).toNat = i := by
  rw [UInt32.toNat_ofNat', Nat.mod_eq_of_lt h]

/-- The next record is taken in hand. -/
theorem PlacedOnce.pick {k : Nat} (h : PlacedOnce fuel info k none placement) (hk : k < 2 ^ 32) :
    PlacedOnce fuel info (k + 1) (some (UInt32.ofNat k)) placement := by
  refine ⟨h.wellPlaced, fun r hr => ?_⟩
  have hrec : UInt32.ofNat k = r ↔ r.toNat = k := by
    rw [← UInt32.toNat_inj, toNat_record hk]
    exact eq_comm
  rw [h.once r hr]
  by_cases he : r.toNat = k
  · rw [if_neg (by omega), if_neg fun hand => hand.2 (congrArg some (hrec.mpr he))]
  · have hne : UInt32.ofNat k ≠ r := fun hc => he (hrec.mp hc)
    simp only [ne_eq, Option.some.injEq, hne, reduceCtorEq, not_false_eq_true, and_true]
    exact if_congr (by omega) rfl rfl

/-! ## Empty slots -/

theorem placeFrom_some {recordIdx : UInt32} {slots pos : Nat} (hrun : placeFrom recordIdx slots pos placement = some placed) :
    ∃ q, pos ≤ q ∧ q < pos + slots ∧ placement[q]? = some emptySlot ∧ placed = placement.set q recordIdx := by
  induction slots generalizing pos with
  | zero => cases hrun
  | succ slots ih =>
    rw [placeFrom] at hrun
    split at hrun
    · cases hrun
      exact ⟨pos, Nat.le_refl _, by omega, ‹_›, rfl⟩
    · obtain ⟨q, hge, hlt, hq⟩ := ih hrun
      exact ⟨q, by omega, by omega, hq⟩

theorem placeInBins_some {slotsPerBin : Nat} {recordIdx : UInt32} {bins : List Nat}
    (hrun : placeInBins slotsPerBin recordIdx placement bins = some placed) :
    ∃ q, q / slotsPerBin ∈ bins ∧ placement[q]? = some emptySlot ∧ placed = placement.set q recordIdx := by
  induction bins with
  | nil => cases hrun
  | cons bin bins ih =>
    rw [placeInBins] at hrun
    split at hrun
    · rename_i hone
      cases hrun
      obtain ⟨q, hge, hlt, hq⟩ := placeFrom_some hone
      have hbin : q / slotsPerBin = bin := Nat.div_eq_of_lt_le hge (by rw [Nat.succ_mul]; exact hlt)
      exact ⟨q, hbin ▸ List.mem_cons_self, hq⟩
    · obtain ⟨q, hin, hq⟩ := ih hrun
      exact ⟨q, List.mem_cons_of_mem _ hin, hq⟩

/-- A record in hand that found an empty slot. -/
theorem PlacedOnce.place {n : Nat} {current : UInt32} (h : PlacedOnce fuel info n (some current) placement)
    (hlt : current.toNat < n) (hn : n ≤ info.records) {bins : List Nat}
    (hc : ∀ bin ∈ bins, IsCandidate fuel info current bin)
    (hrun : placeInBins info.slotsPerBin current placement bins = some placed) : PlacedOnce fuel info n none placed := by
  obtain ⟨q, hbin, hempty, rfl⟩ := placeInBins_some hrun
  exact h.put hempty hlt hn (hc _ hbin)

theorem binAt_ok {bins : List Nat} {i bin : Nat} (h : binAt bins i = .ok bin) : bin ∈ bins := by
  unfold binAt at h
  split at h
  · cases h
    exact List.mem_of_getElem? ‹_›
  · cases h

theorem alternateCandidateBin_ok {recordIdx : UInt32} {currentBin kick bin : Nat}
    (h : alternateCandidateBin fuel info recordIdx.toNat currentBin kick = some (.ok bin)) :
    IsCandidate fuel info recordIdx bin := by
  obtain ⟨bins, hbins, hrest⟩ := run_bind_ok h
  refine .of hbins ?_
  split at hrest <;> exact binAt_ok (Option.some.inj hrest)

/-! ## One kick -/

/-- How a kick ends: the record in hand is placed, or another one is in hand. -/
inductive Kicked where
  | placed (placement : List UInt32)
  | out (current : UInt32) (currentBin : Nat) (placement : List UInt32)

/-- The body of the kick loop. -/
def kickStep (fuel : Nat) (info : TableInfo) (kick : Nat) (current : UInt32) (currentBin : Nat) (placement : List UInt32) :
    Run Kicked :=
  let slot := evictionSlot info.seed current kick info.slotsPerBin
  let offset := currentBin * info.slotsPerBin + slot
  match placement[offset]? with
  | none => Run.lift (.error (.panic "index out of bounds"))
  | some evicted =>
    let placement := placement.set offset current
    if evicted = emptySlot then return .placed placement
    else do
      match ← tryPlaceInAnyCandidateExcept fuel info placement evicted currentBin with
      | some placed => return .placed placed
      | none =>
        let currentBin ← alternateCandidateBin fuel info evicted.toNat currentBin (kick + 1)
        return .out evicted currentBin placement

/-- What follows a kick, with `turns` to go. -/
def afterKick (fuel : Nat) (info : TableInfo) (turns kick : Nat) : Kicked → Run (List UInt32)
  | .placed placement => return placement
  | .out current currentBin placement => kickLoop fuel info turns (kick + 1) current currentBin placement

theorem kickLoop_succ (turns kick : Nat) (current : UInt32) (currentBin : Nat) (placement : List UInt32) :
    kickLoop fuel info (turns + 1) kick current currentBin placement =
      kickStep fuel info kick current currentBin placement >>= afterKick fuel info turns kick := by
  rw [kickLoop, kickStep]
  simp only
  generalize placement[currentBin * info.slotsPerBin + evictionSlot info.seed current kick info.slotsPerBin]? = found
  cases found with
  | none => rfl
  | some evicted =>
    by_cases hempty : evicted = emptySlot
    · simp only [hempty, if_true]
      rfl
    · simp only [if_neg hempty]
      rw [bind_assoc]
      congr 1
      funext res
      cases res with
      | some placed => rfl
      | none => rw [bind_assoc]; rfl

/-- A record in hand may go into the bin it is at. -/
structure InHand (fuel : Nat) (info : TableInfo) (n : Nat) (current : UInt32) (bin : Nat) (placement : List UInt32) : Prop where
  placedOnce : PlacedOnce fuel info n (some current) placement
  lt : current.toNat < n
  candidate : IsCandidate fuel info current bin

/-- What a kick leaves, of the first `n` records. -/
def Kicked.Sound (fuel : Nat) (info : TableInfo) (n : Nat) : Kicked → Prop
  | .placed placement => PlacedOnce fuel info n none placement
  | .out current bin placement => InHand fuel info n current bin placement

theorem InHand.kick (hs : 0 < info.slotsPerBin) {n kick : Nat} (hn : n ≤ info.records) {current : UInt32} {bin : Nat}
    (h : InHand fuel info n current bin placement) {after : Kicked}
    (hrun : kickStep fuel info kick current bin placement = some (.ok after)) : after.Sound fuel info n := by
  unfold kickStep at hrun
  have hslot : evictionSlot info.seed current kick info.slotsPerBin < info.slotsPerBin := Nat.mod_lt _ hs
  generalize evictionSlot info.seed current kick info.slotsPerBin = slot at hrun hslot
  simp only at hrun
  have hbin : (bin * info.slotsPerBin + slot) / info.slotsPerBin = bin :=
    Nat.div_eq_of_lt_le (by omega) (by rw [Nat.succ_mul]; omega)
  have hc : IsCandidate fuel info current ((bin * info.slotsPerBin + slot) / info.slotsPerBin) := hbin.symm ▸ h.candidate
  split at hrun
  · cases hrun
  · rename_i evicted hold
    split at hrun
    · rename_i hempty
      obtain rfl := run_pure_ok hrun
      exact h.placedOnce.put (hempty ▸ hold) h.lt hn hc
    · rename_i hfull
      obtain ⟨hswap, hlt⟩ := h.placedOnce.swap hold hfull h.lt hn hc
      obtain ⟨res, htry, hrest⟩ := run_bind_ok hrun
      obtain ⟨bins, hbins, hplace⟩ := run_bind_ok htry
      have hplace := run_pure_ok hplace
      cases res with
      | some placed =>
        obtain rfl := run_pure_ok hrest
        exact hswap.place hlt hn (fun b hb => .of hbins (List.mem_of_mem_filter hb)) hplace
      | none =>
        obtain ⟨next, halt, hlast⟩ := run_bind_ok hrest
        obtain rfl := run_pure_ok hlast
        exact ⟨hswap, hlt, alternateCandidateBin_ok halt⟩

/-! ## A build, state by state -/

/-- A build after so many records, or at a kick while it inserts one. -/
inductive Building where
  | inserted (records : Nat) (placement : List UInt32)
  | kicking (recordIdx kick : Nat) (current : UInt32) (currentBin : Nat) (placement : List UInt32)

/-- One turn of the loop over the records up to its kicks, or one kick. -/
def Building.step (fuel : Nat) (info : TableInfo) : Building → Run Building
  | .inserted recordIdx placement => do
    let currentBin ← firstCandidateBin fuel info recordIdx
    match ← tryPlaceInAnyCandidate fuel info placement (UInt32.ofNat recordIdx) with
    | some placed => return .inserted (recordIdx + 1) placed
    | none => return .kicking recordIdx 0 (UInt32.ofNat recordIdx) currentBin placement
  | .kicking recordIdx kick current currentBin placement =>
    if kick = maxKicks then Run.lift (.error (insertionFailed info))
    else do
      match ← kickStep fuel info kick current currentBin placement with
      | .placed placement => return .inserted (recordIdx + 1) placement
      | .out current currentBin placement => return .kicking recordIdx (kick + 1) current currentBin placement

/-- There is a record to insert, or one in hand. -/
def Building.Running (info : TableInfo) : Building → Prop
  | .inserted recordIdx _ => recordIdx < info.records
  | .kicking .. => True

/-- The states that a build goes through, whether it ends well or not. -/
inductive Reaches (fuel : Nat) (info : TableInfo) : Building → Prop
  | start : info.records ≤ 2 ^ 32 - 1 → info.totalItems * info.slotsPerBin < 2 ^ 64 →
      Reaches fuel info (.inserted 0 (List.replicate (info.totalItems * info.slotsPerBin) emptySlot))
  | step {b next : Building} : Reaches fuel info b → b.Running info → b.step fuel info = some (.ok next) →
      Reaches fuel info next

theorem kickLoop_reaches {turns recordIdx kick : Nat} {current : UInt32} {bin : Nat} (hturns : kick + turns = maxKicks)
    (h : Reaches fuel info (.kicking recordIdx kick current bin placement))
    (hrun : kickLoop fuel info turns kick current bin placement = some (.ok placed)) :
    Reaches fuel info (.inserted (recordIdx + 1) placed) := by
  induction turns generalizing kick current bin placement with
  | zero => cases hrun
  | succ turns ih =>
    rw [kickLoop_succ] at hrun
    obtain ⟨after, hkick, hafter⟩ := run_bind_ok hrun
    have hstep : Building.step fuel info (.kicking recordIdx kick current bin placement) = _ := if_neg (by omega)
    rw [hkick] at hstep
    cases after with
    | placed placement' =>
      obtain rfl := run_pure_ok hafter
      exact h.step trivial hstep
    | out current' bin' placement' => exact ih (by omega) (h.step trivial hstep) hafter

theorem insertIndexRecord_reaches {recordIdx : Nat} (hlt : recordIdx < info.records)
    (h : Reaches fuel info (.inserted recordIdx placement))
    (hrun : insertIndexRecord fuel info placement recordIdx = some (.ok placed)) :
    Reaches fuel info (.inserted (recordIdx + 1) placed) := by
  obtain ⟨bin, hfirst, hrest⟩ := run_bind_ok hrun
  obtain ⟨res, htry, hlast⟩ := run_bind_ok hrest
  have hstep : Building.step fuel info (.inserted recordIdx placement) = (firstCandidateBin fuel info recordIdx >>= _) := rfl
  rw [hfirst] at hstep
  change _ = (tryPlaceInAnyCandidate fuel info placement (UInt32.ofNat recordIdx) >>= _) at hstep
  rw [htry] at hstep
  cases res with
  | some placed' =>
    obtain rfl := run_pure_ok hlast
    exact h.step hlt hstep
  | none => exact kickLoop_reaches (Nat.zero_add _) (h.step hlt hstep) hlast

theorem insertRecords_reaches {count recordIdx : Nat} (hcount : recordIdx + count = info.records)
    (h : Reaches fuel info (.inserted recordIdx placement))
    (hrun : insertRecords fuel info count recordIdx placement = some (.ok placed)) :
    Reaches fuel info (.inserted info.records placed) := by
  induction count generalizing recordIdx placement with
  | zero =>
    obtain rfl := run_pure_ok hrun
    rwa [← hcount, Nat.add_zero]
  | succ count ih =>
    obtain ⟨next, hone, hrest⟩ := run_bind_ok hrun
    exact ih (by omega) (insertIndexRecord_reaches (by omega) h hone) hrest

/-- A build that ends well ends where the steps do. -/
theorem build_reaches (hrun : buildDirectIndexPlacement fuel info = some (.ok placed)) :
    Reaches fuel info (.inserted info.records placed) := by
  unfold buildDirectIndexPlacement at hrun
  split at hrun
  · cases hrun
  · simp only at hrun
    split at hrun
    · cases hrun
    · exact insertRecords_reaches (Nat.zero_add _) (.start (by omega) (by omega)) hrun

/-! ## What every state keeps -/

/-- The records inserted so far are placed once each, but for the one in hand, which is at
    a bin of its own. -/
def Building.Sound (fuel : Nat) (info : TableInfo) : Building → Prop
  | .inserted records placement => records ≤ info.records ∧ PlacedOnce fuel info records none placement
  | .kicking recordIdx _ current bin placement => recordIdx < info.records ∧
      InHand fuel info (recordIdx + 1) current bin placement

theorem Reaches.records_le {b : Building} (h : Reaches fuel info b) : info.records ≤ 2 ^ 32 - 1 := by
  induction h with
  | start hrec hslots => exact hrec
  | step h hrunning hstep ih => exact ih

theorem placedOnce_empty :
    PlacedOnce fuel info 0 none (List.replicate (info.totalItems * info.slotsPerBin) emptySlot) := by
  refine ⟨⟨List.length_replicate, fun pos r hr hne => ?_⟩, fun r hr => ?_⟩
  · obtain ⟨hlt, he⟩ := List.getElem?_eq_some_iff.mp hr
    rw [List.getElem_replicate] at he
    exact absurd he.symm hne
  · rw [List.count_replicate, if_neg (by simpa using Ne.symm hr), if_neg (by omega)]

/-- The first step for a record: it finds an empty slot, or its first bin is to be kicked. -/
theorem Building.Sound.insert {recordIdx : Nat} (hrec : info.records ≤ 2 ^ 32 - 1) (hlt : recordIdx < info.records)
    (h : PlacedOnce fuel info recordIdx none placement) {next : Building}
    (hstep : Building.step fuel info (.inserted recordIdx placement) = some (.ok next)) : next.Sound fuel info := by
  have hidx : (UInt32.ofNat recordIdx).toNat = recordIdx := toNat_record (by omega)
  have hpick := h.pick (by omega)
  obtain ⟨bin, hfirst, hrest⟩ := run_bind_ok hstep
  obtain ⟨bins, hbins, hbin⟩ := run_bind_ok hfirst
  rw [← hidx] at hbins
  obtain ⟨res, htry, hlast⟩ := run_bind_ok hrest
  obtain ⟨bins', hbins', hplace⟩ := run_bind_ok htry
  have hplace := run_pure_ok hplace
  cases res with
  | some placed =>
    obtain rfl := run_pure_ok hlast
    exact ⟨hlt, hpick.place (by omega) hlt (fun b hb => .of hbins' hb) hplace⟩
  | none =>
    obtain rfl := run_pure_ok hlast
    exact ⟨hlt, hpick, by omega, .of hbins (binAt_ok (Option.some.inj hbin))⟩

theorem Building.Sound.kick (hs : 0 < info.slotsPerBin) {recordIdx kick : Nat} {current : UInt32} {bin : Nat}
    (hlt : recordIdx < info.records) (h : InHand fuel info (recordIdx + 1) current bin placement) {next : Building}
    (hstep : Building.step fuel info (.kicking recordIdx kick current bin placement) = some (.ok next)) :
    next.Sound fuel info := by
  rw [Building.step] at hstep
  split at hstep
  · cases hstep
  · obtain ⟨after, hkick, hlast⟩ := run_bind_ok hstep
    have hafter := h.kick hs hlt hkick
    cases after with
    | placed placement' =>
      obtain rfl := run_pure_ok hlast
      exact ⟨hlt, hafter⟩
    | out current' bin' placement' =>
      obtain rfl := run_pure_ok hlast
      exact ⟨hlt, hafter⟩

theorem Reaches.sound (hs : 0 < info.slotsPerBin) {b : Building} (h : Reaches fuel info b) : b.Sound fuel info := by
  induction h with
  | start hrec hslots => exact ⟨Nat.zero_le _, placedOnce_empty⟩
  | @step b next h hrunning hstep ih =>
    cases b with
    | inserted recordIdx placement => exact .insert h.records_le hrunning ih.2 hstep
    | kicking recordIdx kick current bin placement => exact .kick hs ih.1 ih.2 hstep

/-! ## The whole table -/

/-- The table holds the records before `k`. -/
structure Holding (fuel : Nat) (info : TableInfo) (k : Nat) (placement : List UInt32) : Prop where
  wellPlaced : WellPlaced fuel info placement
  records : ∀ i < k, UInt32.ofNat i ∈ placement

theorem record_ne_empty {i : Nat} (h : i < 2 ^ 32 - 1) : UInt32.ofNat i ≠ emptySlot := by
  intro he
  have hn := congrArg UInt32.toNat he
  rw [toNat_record (by omega)] at hn
  have : emptySlot.toNat = 2 ^ 32 - 1 := rfl
  omega

/-- A table that was built holds every record, each slot of it in a candidate bin of its
    record. -/
theorem placement_ok (hs : 0 < info.slotsPerBin) (hrun : buildDirectIndexPlacement fuel info = some (.ok placed)) :
    Holding fuel info info.records placed := by
  have hreaches := build_reaches hrun
  have hrec := hreaches.records_le
  obtain ⟨-, hplaced⟩ := hreaches.sound hs
  refine ⟨hplaced.wellPlaced, fun i hi => ?_⟩
  have honce := hplaced.once (UInt32.ofNat i) (record_ne_empty (by omega))
  rw [toNat_record (by omega), if_pos ⟨hi, by simp⟩] at honce
  exact List.count_pos_iff.mp (by omega)

theorem run_of_toOption {α : Type} {m : Run α} {a : α} (h : Option.bind m Except.toOption = some a) : m = some (.ok a) := by
  rcases m with _ | e | b
  · cases h
  · cases h
  · cases h
    rfl

/-- A build that ends well has every record once, each in a slot of one of its candidate
    bins, and has kept the records it had inserted through every kick. -/
theorem placement_exact {round : Rat → Rat} {source : SourceFile} {slotsPerBin hashFns : Nat} {loadFactor : Rat}
    {seed : UInt64} (hinfo : TableInfo.fromIndexFile round source slotsPerBin hashFns loadFactor seed = .ok info)
    (hrun : buildDirectIndexPlacement fuel info = some (.ok placed)) :
    ((∀ r, r ≠ emptySlot → placed.count r = if r.toNat < info.records then 1 else 0) ∧
      ∀ pos r, placed[pos]? = some r → r ≠ emptySlot → IsCandidate fuel info r (pos / info.slotsPerBin)) ∧
    Reaches fuel info (.inserted info.records placed) ∧ ∀ b, Reaches fuel info b → b.Sound fuel info := by
  obtain ⟨hs, -, rfl⟩ := TableInfo.fromIndexFile_ok hinfo
  have hreaches := build_reaches hrun
  obtain ⟨-, hplaced⟩ := hreaches.sound hs
  refine ⟨⟨fun r hr => ?_, fun pos r hpos hr => (hplaced.wellPlaced.home pos r hpos hr).2⟩, hreaches,
    fun b hb => hb.sound hs⟩
  rw [hplaced.once r hr]
  simp

/-- Three records for four bins of one slot: the last one has to kick. -/
def tightIndexFile : SourceFile where
  path := "utxo_chunks_index_nodust.bin"
  bytes := List.replicate 20 1 ++ [0, 0, 0, 0, 1] ++ (List.replicate 20 2 ++ [1, 0, 0, 0, 1]) ++
    (List.replicate 20 3 ++ [2, 0, 0, 0, 1])

def tightIndexInfo : TableInfo :=
  (TableInfo.fromIndexFile id tightIndexFile 1 2 (9 / 10) 1).toOption.get (by decide +kernel)

theorem placement_exact_tight : (∀ r, r ≠ emptySlot → [emptySlot, 0, 1, 2].count r = if r.toNat < tightIndexInfo.records
      then 1 else 0) ∧ Building.Sound 8 tightIndexInfo (.inserted tightIndexInfo.records [emptySlot, 0, 1, 2]) := by
  have hrun : Option.bind (buildDirectIndexPlacement 8 tightIndexInfo) Except.toOption = some [emptySlot, 0, 1, 2] := by
    decide +kernel
  obtain ⟨⟨honce, -⟩, hreaches, hsound⟩ := placement_exact (toOption_get _) (run_of_toOption hrun)
  exact ⟨honce, hsound _ hreaches⟩

end BpirOram.Direct
