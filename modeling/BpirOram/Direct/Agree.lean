/-
  BpirOram.Direct.Agree — when `lookup` and `lookup_batched` answer alike.

  Both read the same bins, so what they say of the script hash is the same. What they drain
  is not always: `lookup` drains up to `drain_per_read` after each read, `lookup_batched`
  up to their product once, and the product is taken modulo 2^64
  (`lookup_eq_lookupBatched_iff`).
-/

import BpirOram.Direct.Lookup
import BpirOram.Circuit.Debt

namespace BpirOram.Direct

open Lib

variable {M P S ρ : Type} {p : OramParams} {scriptHash : ScriptHash}

namespace IndexReader

section
variable [PathPageStore M] [PathPageStore P] [Rng ρ]

/-- The loop drains what one drain of the whole budget would, if the budget did not wrap. -/
theorem lookupLoop_drained {drainPerRead : UInt64} {bins : List Nat} {done done' : Progress} {q q' : IndexReader M P ρ}
    (ho : q.oram.schedule.Owed) (hrun : lookupLoop scriptHash drainPerRead bins done q = (.ok done', q')) :
    ∃ k : Nat, done'.drainedEvictions = done.drainedEvictions + UInt64.ofNat k ∧
      k = min (bins.length * drainPerRead.toNat) (q.oram.schedule.owedAfter bins.length) ∧
      q.oram.schedule.completedEvictions.toNat + k < 2 ^ 64 := by
  induction bins generalizing done q with
  | nil =>
    cases hrun
    refine ⟨0, ?_, ?_, UInt64.toNat_lt _⟩
    · rw [show UInt64.ofNat 0 = 0 from rfl, UInt64.add_zero]
    · rw [List.length_nil, Nat.zero_mul, Nat.zero_min]
  | cons binId bins ih =>
    rw [lookupLoop, Eff.get_bind] at hrun
    obtain ⟨location, -, hrun⟩ := Eff.lift_bind_eq_ok hrun
    obtain ⟨block, q1, hread, hrun⟩ := Eff.bind_eq_ok hrun
    obtain ⟨bin, -, hrun⟩ := Eff.lift_bind_eq_ok hrun
    obtain ⟨selected, -, hrun⟩ := Eff.lift_bind_eq_ok hrun
    obtain ⟨drained, q4, hdrain, hrest⟩ := Eff.bind_eq_ok hrun
    obtain ⟨hread, -⟩ := onOram_ok hread
    obtain ⟨hdrain, -⟩ := onOram_ok hdrain
    have haccess := (access_effect hread).2.counters
    obtain ⟨hk, hroom, hdrained⟩ := drainEvictions_counters hdrain
    simp only [CircuitEvictionSchedule.counters, Prod.mk.injEq] at haccess hdrained
    obtain ⟨hissued1, hrate1, hcompleted1⟩ := haccess
    obtain ⟨hissued4, hrate4, hcompleted4⟩ := hdrained
    have ho4 := (drainEvictions_steady CircuitEvictionSchedule.owed_steady drainPerRead).ok
      ((access_steady CircuitEvictionSchedule.owed_steady _ _).ok ho hread) hdrain
    obtain ⟨k, hsum, hk4, hroom4⟩ := ih ho4 hrest
    refine ⟨drained.toNat + k, ?_, ?_, by omega⟩
    · rw [hsum, UInt64.ofNat_add, UInt64.ofNat_toNat, UInt64.add_assoc]
    · simp only [CircuitEvictionSchedule.owedAfter, hissued4, hissued1, hrate4, hrate1, hcompleted4, hcompleted1,
        Nat.add_zero] at hk hk4 ⊢
      rw [List.length_cons, ← drained_each bins.length ho, hk4, hk]

/-- The batch drains the wrapped product of the budget and the number of reads. -/
theorem lookupManyBatched_drained {fuel : Nat} {scriptHashes : List ScriptHash} {drainPerRead : UInt64}
    {batch : IndexBatchLookup} {q q' : IndexReader M P ρ}
    (hrun : lookupManyBatched fuel scriptHashes drainPerRead q = some (.ok batch, q')) :
    ∃ byLookup, candidateLocations fuel q.metadata scriptHashes = some (.ok byLookup) ∧
      batch.drainedEvictions.toNat
        = min (drainPerRead.toNat * (byLookup.map (·.2)).flatten.length % 2 ^ 64)
          (q.oram.schedule.owedAfter (byLookup.map (·.2)).flatten.length) := by
  obtain ⟨found, hcandidates, hrun⟩ := Option.map_eq_some_iff.mp hrun
  obtain ⟨byLookup, rfl, hbody⟩ := Eff.lift_bind_eq_ok hrun
  obtain ⟨blocks, q1, hread, hrest⟩ := Eff.bind_eq_ok hbody
  rw [Eff.get_bind] at hrest
  obtain ⟨answers, -, hlast⟩ := Eff.lift_bind_eq_ok hrest
  obtain ⟨drained, q2, hdrain, hdone⟩ := Eff.bind_eq_ok hlast
  cases hdone
  have haccess := (accessBatch_effect (onOram_ok hread).1).2.counters
  obtain ⟨hk, -, -⟩ := drainEvictions_counters (onOram_ok hdrain).1
  simp only [CircuitEvictionSchedule.counters, Prod.mk.injEq] at haccess
  obtain ⟨hissued, hrate, hcompleted⟩ := haccess
  refine ⟨byLookup, hcandidates, ?_⟩
  simp only [CircuitEvictionSchedule.owedAfter, hissued, hrate, hcompleted, Nat.add_zero, List.length_map] at hk ⊢
  rw [hk, UInt64.toNat_mul, UInt64.toNat_ofNat', Nat.mul_mod_mod]

theorem lookup_drained {fuel : Nat} {drainPerRead : UInt64} {answer : IndexLookup} {q q' : IndexReader M P ρ}
    (ho : q.oram.schedule.Owed) (hrun : lookup fuel scriptHash drainPerRead q = some (.ok answer, q')) :
    ∃ bins, candidates fuel q.metadata scriptHash = some (.ok bins) ∧ answer.drainedEvictions.toNat
      = min (bins.length * drainPerRead.toNat) (q.oram.schedule.owedAfter bins.length) := by
  obtain ⟨found, hcandidates, hrun⟩ := Option.map_eq_some_iff.mp hrun
  obtain ⟨bins, rfl, hbody⟩ := Eff.lift_bind_eq_ok hrun
  obtain ⟨done, q1, hloop, hlast⟩ := Eff.bind_eq_ok hbody
  obtain ⟨k, hsum, hk, hroom⟩ := lookupLoop_drained ho hloop
  cases hlast
  refine ⟨bins, hcandidates, ?_⟩
  rw [hsum, UInt64.zero_add, UInt64.toNat_ofNat', Nat.mod_eq_of_lt (by omega), hk]

/-- A batch of one script hash. -/
theorem lookupBatched_ok {fuel : Nat} {drainPerRead : UInt64} {answer : IndexLookup} {q q' : IndexReader M P ρ}
    (hrun : lookupBatched fuel scriptHash drainPerRead q = some (.ok answer, q')) :
    ∃ batch bins locations, lookupManyBatched fuel [scriptHash] drainPerRead q = some (.ok batch, q') ∧
      Located fuel q.metadata scriptHash (bins, locations) ∧
      candidateLocations fuel q.metadata [scriptHash] = some (.ok [(bins, locations)]) ∧
      ∃ first, batch.lookups.getLast? = some first ∧ answer = { first with drainedEvictions := batch.drainedEvictions } := by
  obtain ⟨⟨r, q₁⟩, hmany, he⟩ := Option.map_eq_some_iff.mp hrun
  obtain ⟨hr, rfl⟩ := Prod.mk.inj he
  obtain ⟨batch, rfl, honly⟩ := bind_result_ok hr
  obtain ⟨byLookup, hlocations, -⟩ := lookupManyBatched_drained hmany
  have hall := candidateLocations_ok hlocations
  obtain ⟨first, hfirst, hlast⟩ := bind_result_ok honly
  cases hall with | @cons _ located _ _ hlocated hnil => ?_
  cases hnil
  refine ⟨batch, located.1, located.2, hmany, hlocated, hlocations, first, ?_, by cases hlast; rfl⟩
  unfold okOr at hfirst
  split at hfirst
  · rename_i x hx
    cases hfirst
    exact hx
  · cases hfirst

end
end IndexReader

section
variable [PageStore M] [PageStore P] [TrustedBlockSource S] [Rng ρ] {HM : HonestStore M} {HP : HonestStore P}
  {HS : HonestSource S} {oram : CircuitOram M P ρ} {v : Memory}

theorem reached_params (h : Reached p HM HP HS AtomicBatches oram v) : oram.params = p := by
  obtain ⟨b, hr, -⟩ := h.sound
  rw [show oram.params = b.params from congrArg Controller.params hr.controller]
  exact hr.shape.controller.params

/-- In every state reached, the two lookups give the same answer but for what they drained,
    and that too exactly when the product of `drain_per_read` and `hash_fns` does not wrap,
    or wraps to no less than is owed. -/
theorem lookup_eq_lookupBatched_iff (h : Reached p HM HP HS AtomicBatches oram v) {m : TableMetadata}
    {q q₁ q₂ : IndexReader M P ρ} (hnew : IndexReader.new m oram = .ok q) {fuel fuel' : Nat} {drainPerRead : UInt64}
    {answer batched : IndexLookup} (hplain : q.lookup fuel scriptHash drainPerRead = some (.ok answer, q₁))
    (hbatch : q.lookupBatched fuel' scriptHash drainPerRead = some (.ok batched, q₂)) :
    { answer with drainedEvictions := batched.drainedEvictions } = batched ∧
    (answer = batched ↔ drainPerRead.toNat * m.hashFns < 2 ^ 64 ∨
      oram.schedule.owedAfter m.hashFns ≤ drainPerRead.toNat * m.hashFns % 2 ^ 64) := by
  have hready : IndexReader.Ready p.logicalBlocks (HoldsBlocks p HM HP HS v) q := by
    have hr := IndexReader.ready_of_new (I := HoldsBlocks p HM HP HS v) hnew ⟨v, h, fun _ _ => rfl⟩
    rwa [← (IndexReader.new_ok hnew).2.2.2, reached_params h] at hr
  have hreads : ReadsBack p.logicalBlocks v (HoldsBlocks (ρ := ρ) p HM HP HS v) := Reached.readsBack v
  obtain ⟨rfl, -⟩ := IndexReader.new_ok hnew
  obtain ⟨bins, locations, sel, hbins, hlocate, hsel, hanswer⟩ := IndexReader.lookupIn_ok hreads hready hplain
  obtain ⟨bins₁, hbins₁, hdrained⟩ := IndexReader.lookup_drained h.owed hplain
  obtain rfl := Except.ok.inj (Option.some.inj (hbins₁.symm.trans hbins))
  obtain ⟨batch, bins₂, locations₂, hmany, hlocated, hcandidates, first, hfirst, hbatched⟩ :=
    IndexReader.lookupBatched_ok hbatch
  -- the same bins, at the same places
  obtain rfl := Except.ok.inj (candidateBins_fuel hbins hlocated.1)
  obtain rfl := Except.ok.inj (hlocate.symm.trans hlocated.2)
  have hsame : { answer with drainedEvictions := batched.drainedEvictions } = batched := by
    obtain ⟨byLookup, hby, hresolved⟩ := IndexReader.lookupManyBatched_ok hreads hready hmany
    obtain rfl := Except.ok.inj (Option.some.inj (hcandidates.symm.trans hby))
    generalize batch.lookups = answers at hresolved hfirst
    cases hresolved with | cons hone hnil => ?_
    cases hnil
    obtain ⟨sel', hsel', rfl⟩ := hone
    obtain rfl := Except.ok.inj (hsel.symm.trans hsel')
    cases hfirst
    have hfields := congrArg (fun a : IndexLookup => { a with drainedEvictions := batched.drainedEvictions }) hanswer
    refine hfields.trans ?_
    rw [hbatched]
    rfl
  have hlen : bins₁.length = m.hashFns := (candidateBins_ok hbins).1
  obtain ⟨byLookup, hby, hdrained₂⟩ := IndexReader.lookupManyBatched_drained hmany
  obtain rfl := Except.ok.inj (Option.some.inj (hcandidates.symm.trans hby))
  refine ⟨hsame, ?_⟩
  have hlocs : ([(bins₁, locations)].map (·.2)).flatten.length = m.hashFns := by
    rw [List.map_singleton, List.flatten_singleton, ← (mapM_eq_ok hlocate).length_eq, hlen]
  rw [hlocs] at hdrained₂
  rw [hlen, Nat.mul_comm] at hdrained
  have hiff : answer = batched ↔ answer.drainedEvictions.toNat = batched.drainedEvictions.toNat := by
    constructor
    · intro he
      rw [he]
    · intro he
      rw [← hsame, ← UInt64.toNat_inj.mp he]
  rw [hiff, hdrained, hbatched, hdrained₂]
  have hmod := Nat.mod_le (drainPerRead.toNat * m.hashFns) (2 ^ 64)
  change min _ (oram.schedule.owedAfter m.hashFns) = min _ (oram.schedule.owedAfter m.hashFns) ↔ _
  rcases Nat.lt_or_ge (drainPerRead.toNat * m.hashFns) (2 ^ 64) with hlt | hge
  · rw [Nat.mod_eq_of_lt hlt]
    exact ⟨fun _ => .inl hlt, fun _ => rfl⟩
  · have hwrap := Nat.mod_lt (drainPerRead.toNat * m.hashFns) (show 0 < 2 ^ 64 by decide)
    omega

end

theorem lookup_eq_lookupBatched_smallIndex :
    { smallLookup with drainedEvictions := 2 } = smallLookup ∧
    (smallLookup = smallLookup ↔ (1 : UInt64).toNat * smallIndexSource.metadata.hashFns < 2 ^ 64 ∨
      smallIndexOram.schedule.owedAfter smallIndexSource.metadata.hashFns
        ≤ (1 : UInt64).toNat * smallIndexSource.metadata.hashFns % 2 ^ 64) := by
  obtain ⟨v, hreached, -⟩ := smallIndexReader_holds
  obtain ⟨q₁, hplain⟩ := exists_run (x := smallIndexReader.lookup 8 (smallHash 2) 1) (a := smallLookup) (by decide +kernel)
  obtain ⟨q₂, hbatch⟩ := exists_run (x := smallIndexReader.lookupBatched 8 (smallHash 2) 1) (a := smallLookup)
    (by decide +kernel)
  exact lookup_eq_lookupBatched_iff hreached smallIndexReader_new hplain hbatch

/-- With a budget of 2^63 a read, the batched lookup drains nothing. -/
theorem lookup_ne_lookupBatched : ∃ v answer batched q₁ q₂,
    Reached smallIndexParams MemPageStore.honest MemPageStore.honest IndexPackedBlockReader.honest AtomicBatches
      smallIndexReader.oram v ∧
    smallIndexReader.lookup 8 (smallHash 2) 0x8000_0000_0000_0000 = some (.ok answer, q₁) ∧
    smallIndexReader.lookupBatched 8 (smallHash 2) 0x8000_0000_0000_0000 = some (.ok batched, q₂) ∧
    answer.drainedEvictions = 4 ∧ batched.drainedEvictions = 0 := by
  obtain ⟨v, hreached, -⟩ := smallIndexReader_holds
  rw [← IndexReader.new_oram smallIndexReader_new] at hreached
  obtain ⟨q₁, hplain⟩ := exists_run (x := smallIndexReader.lookup 8 (smallHash 2) 0x8000_0000_0000_0000)
    (a := { smallLookup with drainedEvictions := 4 }) (by decide +kernel)
  obtain ⟨q₂, hbatch⟩ := exists_run (x := smallIndexReader.lookupBatched 8 (smallHash 2) 0x8000_0000_0000_0000)
    (a := { smallLookup with drainedEvictions := 0 }) (by decide +kernel)
  exact ⟨v, _, _, q₁, q₂, hreached, hplain, hbatch, rfl, rfl⟩

end BpirOram.Direct
