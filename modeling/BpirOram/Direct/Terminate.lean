/-
  BpirOram.Direct.Terminate — which accepted index configurations terminate.

  `direct_index_candidate_bins` looks for `hash_fns` different bins, and the number of bins
  comes from the record count, the slots and the load factor: nothing compares the two. So
  a configuration that `from_index_file` accepts builds and answers exactly when there are
  as many bins as hash functions (`index_terminates_iff`).
-/

import BpirOram.Direct.Lookup

namespace BpirOram.Direct

open Lib

/-! ## Ending -/

/-- The computation ends, with a result or an error. -/
def Ends {α : Type} (m : Run α) : Prop := ∃ r : Result α, m = some r

section
variable {α β : Type}

theorem Ends.lift (r : Result α) : Ends (Run.lift r) := ⟨r, rfl⟩

theorem Ends.pure (a : α) : Ends (pure a : Run α) := ⟨.ok a, rfl⟩

theorem Ends.bind {m : Run α} {f : α → Run β} (hm : Ends m) (hf : ∀ a, Ends (f a)) : Ends (m >>= f) := by
  obtain ⟨_ | a, rfl⟩ := hm
  · exact ⟨_, rfl⟩
  · exact hf a

end

/-- Enough turns for every bin to be drawn. -/
def enoughFuel : Nat := 2 ^ 64

theorem candidateBins_ends {scriptHash : Bytes} {seed : UInt64} {hashFns bins : Nat} (hlt : bins < 2 ^ 64)
    (hle : hashFns ≤ bins) : Ends (directIndexCandidateBins enoughFuel scriptHash seed hashFns bins) := by
  unfold directIndexCandidateBins
  by_cases hl : scriptHash.length ≠ scriptHashSize
  · exact ⟨_, if_pos hl⟩
  · rw [if_neg hl]
    by_cases hf : hashFns = 0
    · exact ⟨_, if_pos hf⟩
    · rw [if_neg hf]
      by_cases hb : bins = 0
      · exact ⟨_, if_pos hb⟩
      · rw [if_neg hb]
        cases hrun : candidateLoop scriptHash seed hashFns bins enoughFuel 0 [] with
        | some res => exact ⟨.ok res, rfl⟩
        | none =>
          -- Every bin was drawn, and there are enough of them.
          obtain ⟨res, hcol, hshort⟩ := candidateLoop_none Collected.nil hrun
          rw [Nat.zero_add] at hcol
          have := hcol.length_eq hlt
          omega

variable {info : TableInfo}

/-! ## The build -/

section
variable (hlt : info.totalItems < 2 ^ 64) (hle : info.hashFns ≤ info.totalItems)
include hlt hle

theorem recordBins_ends (recordIdx : Nat) : Ends (recordBins enoughFuel info recordIdx) :=
  (Ends.lift _).bind fun _ => candidateBins_ends hlt hle

theorem kickLoop_ends (turns kick : Nat) (current : UInt32) (bin : Nat) (placement : List UInt32) :
    Ends (kickLoop enoughFuel info turns kick current bin placement) := by
  induction turns generalizing kick current bin placement with
  | zero => exact .lift _
  | succ turns ih =>
    rw [kickLoop]
    simp only
    split
    · exact .lift _
    · split
      · exact .pure _
      · refine Ends.bind ((recordBins_ends hlt hle _).bind fun _ => .pure _) fun placed => ?_
        cases placed with
        | some placed => exact .pure _
        | none =>
          refine Ends.bind ((recordBins_ends hlt hle _).bind fun bins => ?_) fun next => ih _ _ _ _
          split <;> exact .lift _

theorem insertIndexRecord_ends (placement : List UInt32) (recordIdx : Nat) :
    Ends (insertIndexRecord enoughFuel info placement recordIdx) := by
  refine Ends.bind ((recordBins_ends hlt hle _).bind fun _ => .lift _) fun bin => ?_
  refine Ends.bind ((recordBins_ends hlt hle _).bind fun _ => .pure _) fun placed => ?_
  cases placed with
  | some placed => exact .pure _
  | none => exact kickLoop_ends hlt hle _ _ _ _ _

theorem insertRecords_ends (count recordIdx : Nat) (placement : List UInt32) :
    Ends (insertRecords enoughFuel info count recordIdx placement) := by
  induction count generalizing recordIdx placement with
  | zero => exact .pure _
  | succ count ih => exact (insertIndexRecord_ends hlt hle _ _).bind fun _ => ih _ _

theorem build_ends (itemsPerBlock : Nat) : Ends (IndexPackedBlockReader.build enoughFuel info itemsPerBlock) := by
  unfold IndexPackedBlockReader.build
  split
  · exact .lift _
  · refine Ends.bind ?_ fun placement => (Ends.lift _).bind fun metadata => .pure _
    unfold buildDirectIndexPlacement
    split
    · exact .lift _
    · simp only
      split
      · exact .lift _
      · exact insertRecords_ends hlt hle _ _ _

end

/-! ## The lookups -/

section
variable {metadata : TableMetadata} (hlt : metadata.totalItems < 2 ^ 64) (hle : metadata.hashFns ≤ metadata.totalItems)
include hlt hle

theorem candidateLocations_ends (scriptHashes : List ScriptHash) :
    Ends (IndexReader.candidateLocations enoughFuel metadata scriptHashes) := by
  induction scriptHashes with
  | nil => exact .pure _
  | cons scriptHash scriptHashes ih =>
    refine Ends.bind (candidateBins_ends hlt hle) fun _ => ?_
    exact (Ends.lift _).bind fun _ => ih.bind fun _ => .pure _

end

/-- Every computation of candidate bins and every lookup ends, given fuel. -/
structure LookupsEnd {M P ρ : Type} [PathPageStore M] [PathPageStore P] [Rng ρ] (q : IndexReader M P ρ) : Prop where
  lookup : ∀ scriptHash drainPerRead, ∃ fuel, (q.lookup fuel scriptHash drainPerRead).isSome
  lookupManyBatched : ∀ scriptHashes drainPerRead, ∃ fuel, (q.lookupManyBatched fuel scriptHashes drainPerRead).isSome
  lookupBatched : ∀ scriptHash drainPerRead, ∃ fuel, (q.lookupBatched fuel scriptHash drainPerRead).isSome

theorem lookupsEnd {M P ρ : Type} [PathPageStore M] [PathPageStore P] [Rng ρ] {q : IndexReader M P ρ}
    (hlt : q.metadata.totalItems < 2 ^ 64) (hle : q.metadata.hashFns ≤ q.metadata.totalItems) : LookupsEnd q := by
  have hmany : ∀ scriptHashes drainPerRead, (q.lookupManyBatched enoughFuel scriptHashes drainPerRead).isSome := by
    intro scriptHashes drainPerRead
    obtain ⟨r, hr⟩ := candidateLocations_ends hlt hle scriptHashes
    rw [IndexReader.lookupManyBatched, hr]
    rfl
  refine ⟨fun scriptHash drainPerRead => ⟨enoughFuel, ?_⟩, fun scriptHashes drainPerRead => ⟨enoughFuel, hmany _ _⟩,
    fun scriptHash drainPerRead => ⟨enoughFuel, ?_⟩⟩
  · rw [IndexReader.lookup, Option.isSome_map]
    exact Option.isSome_iff_exists.mpr (candidateBins_ends hlt hle)
  · rw [IndexReader.lookupBatched, Option.isSome_map]
    exact hmany _ _

/-! ## Accepted configurations -/

theorem computeDirectIndexBins_bounds (round : Rat → Rat) {records : Nat} (slotsPerBin : Nat) (loadFactor : Rat)
    (h : 0 < records) : 0 < computeDirectIndexBins round records slotsPerBin loadFactor ∧
      computeDirectIndexBins round records slotsPerBin loadFactor < 2 ^ 64 := by
  rw [computeDirectIndexBins, if_neg (by omega)]
  simp only [asUsize]
  omega

/-- An accepted index configuration builds and answers, for every script hash, exactly when
    there are as many bins as hash functions. -/
theorem index_terminates_iff {M P ρ : Type} [PathPageStore M] [PathPageStore P] [Rng ρ] {round : Rat → Rat}
    {source : SourceFile} {slotsPerBin hashFns : Nat} {loadFactor : Rat} {seed : UInt64} {info : TableInfo}
    (hinfo : TableInfo.fromIndexFile round source slotsPerBin hashFns loadFactor seed = .ok info)
    (hrecords : 0 < info.records) :
    ((∀ scriptHash : ScriptHash, ∃ fuel,
        (directIndexCandidateBins fuel scriptHash.val seed hashFns info.totalItems).isSome) ∧
      (∀ itemsPerBlock, ∃ fuel, (IndexPackedBlockReader.build fuel info itemsPerBlock).isSome) ∧
      (∀ itemsPerBlock metadata, TableMetadata.fromInfo info itemsPerBlock = .ok metadata →
        ∀ q : IndexReader M P ρ, q.metadata = metadata → LookupsEnd q)) ↔
    hashFns ≤ computeDirectIndexBins round info.records slotsPerBin loadFactor := by
  obtain ⟨-, hhash, rfl⟩ := TableInfo.fromIndexFile_ok hinfo
  obtain ⟨hpos, hlt⟩ := computeDirectIndexBins_bounds round slotsPerBin loadFactor hrecords
  constructor
  · rintro ⟨hbins, -, -⟩
    exact (candidateBins_terminates_iff (FixedBytes.zero scriptHashSize).property hhash hpos hlt).mp
      (hbins (FixedBytes.zero scriptHashSize))
  · intro hle
    refine ⟨fun scriptHash => ?_, fun itemsPerBlock => ⟨enoughFuel, ?_⟩, ?_⟩
    · exact (candidateBins_terminates_iff scriptHash.property hhash hpos hlt).mpr hle
    · exact Option.isSome_iff_exists.mpr (build_ends hlt hle itemsPerBlock)
    · rintro itemsPerBlock metadata hmeta q rfl
      obtain ⟨-, hm⟩ := TableMetadata.fromInfo_ok hmeta
      apply lookupsEnd
      · rw [hm]
        exact hlt
      · rw [hm]
        exact hle

theorem index_terminates_iff_smallIndex : LookupsEnd smallIndexReader := by
  have hinfo : TableInfo.fromIndexFile id smallIndexFile 1 2 (1 / 2) 7 = .ok smallIndexInfo := toOption_get _
  obtain ⟨-, -, hends⟩ := (index_terminates_iff (M := MemPageStore) (P := MemPageStore) (ρ := ZeroSeedRng) hinfo
    (by decide +kernel)).mpr (by decide +kernel)
  exact hends 2 _ rfl _ (by decide +kernel)

/-- One record in slots of four, with the default two hash functions: the table has one bin. -/
def oneRecordFile : SourceFile where
  path := "index.bin"
  bytes := List.replicate indexInputRecordSize 0

def oneRecordInfo : TableInfo :=
  { level := .index, source := oneRecordFile, records := 1, slotsPerBin := 4, hashFns := 2, loadFactor := 1 / 2, seed := 0
    totalItems := 1, itemSize := 4 * indexSlotSize }

theorem oneRecord_never_ends : TableInfo.fromIndexFile id oneRecordFile 4 2 (1 / 2) 0 = .ok oneRecordInfo ∧
    (∀ fuel, directIndexCandidateBins fuel (FixedBytes.zero scriptHashSize).val 0 2 oneRecordInfo.totalItems = none) ∧
    ∀ fuel, IndexPackedBlockReader.build fuel oneRecordInfo 1 = none := by
  have hnone : ∀ fuel, directIndexCandidateBins fuel (FixedBytes.zero scriptHashSize).val 0 2 1 = none := by
    intro fuel
    rw [← Option.not_isSome_iff_eq_none]
    intro hsome
    have := (candidateBins_terminates_iff (FixedBytes.zero scriptHashSize).property (by decide) (by decide)
      (by decide)).mp ⟨fuel, hsome⟩
    omega
  have htotal : computeDirectIndexBins id 1 4 (1 / 2) = 1 := by decide +kernel
  refine ⟨?_, hnone, fun fuel => ?_⟩
  · unfold TableInfo.fromIndexFile
    rw [if_neg (by decide), if_neg (by decide), if_neg (by decide +kernel), if_neg (by decide)]
    exact congrArg (fun n => Except.ok { oneRecordInfo with totalItems := n }) htotal
  have hbins : recordBins fuel oneRecordInfo 0 = none := hnone fuel
  unfold IndexPackedBlockReader.build
  rw [if_neg (by decide)]
  unfold buildDirectIndexPlacement
  rw [if_neg (by decide)]
  simp only
  rw [if_neg (by decide)]
  have hinsert : ∀ placement, insertRecords fuel oneRecordInfo 1 0 placement = none := by
    intro placement
    rw [insertRecords, insertIndexRecord, firstCandidateBin, hbins]
    rfl
  exact congrArg (fun placed : Run (List UInt32) => (do
    let placement ← placed
    let metadata ← Run.lift (TableMetadata.fromInfo oneRecordInfo 1)
    pure { info := oneRecordInfo, metadata, placement } : Run IndexPackedBlockReader)) (hinsert _)

end BpirOram.Direct
