/-
  BpirOram.Direct.Session — the calls of the direct readers, and the dummies that stand in
  for them (`direct.rs`).

  A reader has a dummy for each of its calls: as many online paths, as much drained, and
  nothing looked up. A session may mix both.
  - `IndexCall.Ends.rounds`, `ChunkCall.Ends.rounds`: a call that ends well goes through the
    rounds of its dummies, and what it asks of the controller is known from the table
    (`Asks`).
  - `IndexReader.lookups_oblivious`, `ChunkReader.reads_oblivious`: so what the stores see of
    a session is what they see of its dummies, each online path at a draw of its own.
  - `IndexCall.views_equally_likely`: and calls with the same dummies cannot be told apart, when
    the words of the generator are random.
-/

import BpirOram.Direct.Lookup
import BpirOram.Circuit.Rounds
import BpirOram.Packed.Cuckoo

namespace BpirOram

open Lib

variable {M P M₀ P₀ S ρ : Type}

/-! ## Dummies -/

section
variable [PathPageStore M] [PathPageStore P] [Rng ρ]

/-- A dummy read and its drain, as both readers do it. -/
def CircuitOram.spendDummy (drainPerRead : UInt64) : Eff Error (CircuitOram M P ρ) UInt64 := do
  dummyAccess
  drainEvictions drainPerRead

/-- Several at once. -/
def CircuitOram.spendDummies (count : Nat) (drainPerRead : UInt64) : Eff Error (CircuitOram M P ρ) UInt64 := do
  dummyAccessBatch count
  drainEvictions (drainPerRead * UInt64.ofNat count)

variable {s t : CircuitOram M P ρ} {drainPerRead drained : UInt64}

theorem CircuitOram.spendDummy_rounds (h : spendDummy drainPerRead s = (.ok drained, t)) :
    ∃ leaves, Rounds s [⟨1, drainPerRead⟩] [.dummyAccess, .drainEvictions drainPerRead] leaves t := by
  obtain ⟨⟨⟩, s₁, hdummy, hdrain⟩ := Eff.bind_eq_ok h
  exact Rounds.dummyAccess hdummy hdrain

theorem CircuitOram.spendDummies_rounds {count : Nat} (h : spendDummies count drainPerRead s = (.ok drained, t)) :
    ∃ leaves, Rounds s [⟨count, drainPerRead * UInt64.ofNat count⟩]
      [.dummyAccessBatch count, .drainEvictions (drainPerRead * UInt64.ofNat count)] leaves t := by
  obtain ⟨⟨⟩, s₁, hdummy, hdrain⟩ := Eff.bind_eq_ok h
  exact Rounds.dummyAccessBatch hdummy hdrain

end

namespace Direct

/-- The round that serves `count` reads at once. -/
def batchRound (count : Nat) (drainPerRead : UInt64) : Round := ⟨count, drainPerRead * UInt64.ofNat count⟩

/-! ## What is asked of the controller -/

/-- The block that an item of a table is packed into. -/
def BlockOf (m : TableMetadata) (item : Nat) (logicalId : UInt64) : Prop :=
  ∃ location, m.locate item = .ok location ∧ logicalId = UInt64.ofNat location.logicalBlock

theorem BlockOf.unique {m : TableMetadata} : Relator.RightUnique (BlockOf m) := by
  rintro item id id' ⟨location, hlocate, rfl⟩ ⟨location', hlocate', rfl⟩
  rw [hlocate] at hlocate'
  cases hlocate'
  rfl

theorem BlockOf.lt {p : OramParams} {m : TableMetadata} (hvalid : m.validate = .ok ())
    (hblocks : p.logicalBlocks = m.logicalBlocks)
    {item : Nat} {logicalId : UInt64} (h : BlockOf m item logicalId) : logicalId.toNat < p.logicalBlocks := by
  obtain ⟨location, hlocate, rfl⟩ := h
  have hlt := TableMetadata.locate_lt (TableMetadata.validate_ok hvalid).2.2.1 hlocate
  have hbound := p.logicalBlocks_lt
  rw [UInt64.toNat_ofNat', Nat.mod_eq_of_lt (by omega)]
  omega

theorem blockOf_of_mapM {m : TableMetadata} {items : List Nat} {locations : List PackedItemLocation}
    (h : items.mapM m.locate = .ok locations) :
    List.Forall₂ (BlockOf m) items (locations.map fun location => UInt64.ofNat location.logicalBlock) := by
  rw [List.forall₂_map_right_iff]
  exact (mapM_eq_ok h).imp fun item location hlocate => ⟨location, hlocate, rfl⟩

/-- Reads one after the other, each with its drain. -/
def readOps (logicalIds : List UInt64) (drainPerRead : UInt64) : List Op :=
  logicalIds.flatMap fun logicalId => [.access logicalId .keep, .drainEvictions drainPerRead]

/-- Reads at once, and one drain for them. -/
def batchOps (logicalIds : List UInt64) (drainPerRead : UInt64) : List Op :=
  [.accessBatch logicalIds fun _ _ => .keep, .drainEvictions (drainPerRead * UInt64.ofNat logicalIds.length)]

/-- A dummy for `count` reads at once. -/
def dummyOps (count : Nat) (drainPerRead : UInt64) : List Op :=
  [.dummyAccessBatch count, .drainEvictions (drainPerRead * UInt64.ofNat count)]

theorem forall₂_mem_right {α β : Type} {R : α → β → Prop} {as : List α} {bs : List β} (h : List.Forall₂ R as bs)
    {b : β} (hb : b ∈ bs) : ∃ a ∈ as, R a b := by
  induction h with
  | nil => cases hb
  | @cons a b' as bs hab _ ih =>
    rcases List.mem_cons.mp hb with rfl | hb
    · exact ⟨a, by simp, hab⟩
    · obtain ⟨a', ha', hr⟩ := ih hb
      exact ⟨a', by simp [ha'], hr⟩

theorem readOps_paths (logicalIds : List UInt64) (drainPerRead : UInt64) :
    ((readOps logicalIds drainPerRead).map Op.paths).sum = logicalIds.length := by
  induction logicalIds with
  | nil => rfl
  | cons id ids ih =>
    rw [readOps, List.flatMap_cons, List.map_append, List.sum_append, ← readOps, ih, List.length_cons, Nat.add_comm]
    rfl

theorem batchOps_idsIn {n : Nat} {logicalIds : List UInt64} {drainPerRead : UInt64} (h : ∀ id ∈ logicalIds, id.toNat < n) :
    ∀ op ∈ batchOps logicalIds drainPerRead, op.IdsIn n := by
  simpa [batchOps, Op.IdsIn] using h

theorem dummyOps_idsIn {n count : Nat} {drainPerRead : UInt64} : ∀ op ∈ dummyOps count drainPerRead, op.IdsIn n := by
  simp [dummyOps, Op.IdsIn]

/-! ## INDEX calls -/

namespace IndexReader

variable [PathPageStore M] [PathPageStore P] [Rng ρ]

def readDummyCandidate (drainPerRead : UInt64) : Eff Error (IndexReader M P ρ) UInt64 :=
  onOram (CircuitOram.spendDummy drainPerRead)

def readDummyCandidates (count : Nat) (drainPerRead : UInt64) : Eff Error (IndexReader M P ρ) UInt64 :=
  onOram (CircuitOram.spendDummies count drainPerRead)

def lookupDummy (drainPerRead : UInt64) : Eff Error (IndexReader M P ρ) UInt64 := do
  let r ← Eff.get
  readDummyCandidates r.metadata.hashFns drainPerRead

def lookupDummyMany (lookups : Nat) (drainPerRead : UInt64) : Eff Error (IndexReader M P ρ) UInt64 := do
  let r ← Eff.get
  readDummyCandidates (usizeMul r.metadata.hashFns lookups) drainPerRead

end IndexReader

inductive IndexCall where
  | lookup (scriptHash : ScriptHash) (drainPerRead : UInt64)
  | lookupBatched (scriptHash : ScriptHash) (drainPerRead : UInt64)
  | lookupManyBatched (scriptHashes : List ScriptHash) (drainPerRead : UInt64)
  | readDummyCandidate (drainPerRead : UInt64)
  | readDummyCandidates (count : Nat) (drainPerRead : UInt64)
  | lookupDummy (drainPerRead : UInt64)
  | lookupDummyMany (lookups : Nat) (drainPerRead : UInt64)

namespace IndexCall

/-- The dummies that stand in for a call. -/
def dummies (hashFns : Nat) : IndexCall → List IndexCall
  | lookup _ drainPerRead => List.replicate hashFns (readDummyCandidate drainPerRead)
  | lookupBatched _ drainPerRead => [lookupDummy drainPerRead]
  | lookupManyBatched scriptHashes drainPerRead => [lookupDummyMany scriptHashes.length drainPerRead]
  | call => [call]

/-- The rounds of a call. A batch of lookups reads `hash_fns` blocks for each; its dummy takes
    their number from a `usize` product, which is the same for every batch that ends well. -/
def rounds (hashFns : Nat) : IndexCall → List Round
  | lookup _ drainPerRead => List.replicate hashFns ⟨1, drainPerRead⟩
  | lookupBatched _ drainPerRead => [batchRound hashFns drainPerRead]
  | lookupManyBatched scriptHashes drainPerRead => [batchRound (usizeMul hashFns scriptHashes.length) drainPerRead]
  | readDummyCandidate drainPerRead => [⟨1, drainPerRead⟩]
  | readDummyCandidates count drainPerRead => [batchRound count drainPerRead]
  | lookupDummy drainPerRead => [batchRound hashFns drainPerRead]
  | lookupDummyMany lookups drainPerRead => [batchRound (usizeMul hashFns lookups) drainPerRead]

theorem rounds_dummies (hashFns : Nat) (call : IndexCall) :
    (call.dummies hashFns).flatMap (rounds hashFns) = call.rounds hashFns := by
  cases call with
  | lookup scriptHash drainPerRead =>
    rw [dummies, List.flatMap_replicate]
    exact List.flatten_replicate_singleton
  | _ => rfl

/-- `lookup_dummy` is one batch, so it stands in for `lookup_batched` and not for `lookup`. -/
theorem rounds_lookup_eq_dummy_iff {hashFns : Nat} {scriptHash : ScriptHash} {drainPerRead : UInt64} :
    (lookup scriptHash drainPerRead).rounds hashFns = (lookupDummy drainPerRead).rounds hashFns ↔ hashFns = 1 := by
  constructor
  · intro h
    have hlen := congrArg List.length h
    rwa [rounds, List.length_replicate] at hlen
  · rintro rfl
    rw [rounds, rounds, batchRound, List.replicate_one, show UInt64.ofNat 1 = 1 from rfl, UInt64.mul_one]

/-- The blocks of the candidate bins of a script hash. -/
def Reads (m : TableMetadata) (scriptHash : ScriptHash) (logicalIds : List UInt64) : Prop :=
  ∃ fuel bins, IndexReader.candidates fuel m scriptHash = some (.ok bins) ∧ List.Forall₂ (BlockOf m) bins logicalIds

theorem Reads.unique {m : TableMetadata} : Relator.RightUnique (Reads m) := by
  rintro scriptHash ids ids' ⟨fuel, bins, hbins, hids⟩ ⟨fuel', bins', hbins', hids'⟩
  obtain rfl := Except.ok.inj (candidateBins_fuel hbins hbins')
  exact BlockOf.unique.forall₂ hids hids'

theorem Reads.length_one {m : TableMetadata} {scriptHash : ScriptHash} {ids : List UInt64} (h : Reads m scriptHash ids) :
    ids.length = m.hashFns := by
  obtain ⟨fuel, bins, hbins, hids⟩ := h
  rw [← hids.length_eq, (candidateBins_ok hbins).1]

/-- A batch of lookups reads `hash_fns` blocks for each. -/
theorem Reads.length {m : TableMetadata} {scriptHashes : List ScriptHash} {idss : List (List UInt64)}
    (h : List.Forall₂ (Reads m) scriptHashes idss) : idss.flatten.length = m.hashFns * scriptHashes.length := by
  induction h with
  | nil => rfl
  | cons hone _ ih =>
    rw [List.flatten_cons, List.length_append, ih, hone.length_one, List.length_cons, Nat.mul_succ, Nat.add_comm]

theorem Reads.lt {p : OramParams} {m : TableMetadata} (hvalid : m.validate = .ok ()) (hblocks : p.logicalBlocks = m.logicalBlocks)
    {scriptHash : ScriptHash} {ids : List UInt64} (h : Reads m scriptHash ids) : ∀ id ∈ ids, id.toNat < p.logicalBlocks := by
  obtain ⟨fuel, bins, -, hids⟩ := h
  intro id hid
  obtain ⟨bin, -, hblock⟩ := forall₂_mem_right hids hid
  exact hblock.lt hvalid hblocks

/-- What a call asks of the controller. A batch counts its accesses in a `u64`. -/
def Asks (m : TableMetadata) : IndexCall → List Op → Prop
  | lookup scriptHash drainPerRead, ops => ∃ ids, Reads m scriptHash ids ∧ ops = readOps ids drainPerRead
  | lookupBatched scriptHash drainPerRead, ops => ∃ ids, Reads m scriptHash ids ∧ ops = batchOps ids drainPerRead
  | lookupManyBatched scriptHashes drainPerRead, ops =>
    ∃ idss, List.Forall₂ (Reads m) scriptHashes idss ∧ idss.flatten.length < 2 ^ 64 ∧
      ops = batchOps idss.flatten drainPerRead
  | readDummyCandidate drainPerRead, ops => ops = [.dummyAccess, .drainEvictions drainPerRead]
  | readDummyCandidates count drainPerRead, ops => ops = dummyOps count drainPerRead
  | lookupDummy drainPerRead, ops => ops = dummyOps m.hashFns drainPerRead
  | lookupDummyMany lookups drainPerRead, ops => ops = dummyOps (usizeMul m.hashFns lookups) drainPerRead

/-- Which is a function of the call and the table. -/
theorem Asks.unique {m : TableMetadata} : Relator.RightUnique (Asks m) := by
  intro call ops ops' h h'
  cases call with
  | lookup scriptHash drainPerRead =>
    obtain ⟨ids, hids, rfl⟩ := h
    obtain ⟨ids', hids', rfl⟩ := h'
    rw [Reads.unique hids hids']
  | lookupBatched scriptHash drainPerRead =>
    obtain ⟨ids, hids, rfl⟩ := h
    obtain ⟨ids', hids', rfl⟩ := h'
    rw [Reads.unique hids hids']
  | lookupManyBatched scriptHashes drainPerRead =>
    obtain ⟨idss, hids, -, rfl⟩ := h
    obtain ⟨idss', hids', -, rfl⟩ := h'
    rw [Reads.unique.forall₂ hids hids']
  | _ => exact Eq.trans h (Eq.symm h')

/-- What is asked for goes through the paths of the rounds. -/
theorem Asks.paths {m : TableMetadata} {call : IndexCall} {ops : List Op} (h : call.Asks m ops) :
    (ops.map Op.paths).sum = pathsOf (call.rounds m.hashFns) := by
  cases call with
  | lookup scriptHash drainPerRead =>
    obtain ⟨ids, hids, rfl⟩ := h
    rw [rounds, ← hids.length_one, readOps_paths, pathsOf, List.map_replicate, List.sum_replicate_nat, Nat.mul_one]
  | lookupBatched scriptHash drainPerRead =>
    obtain ⟨ids, hids, rfl⟩ := h
    exact hids.length_one
  | lookupManyBatched scriptHashes drainPerRead =>
    obtain ⟨idss, hidss, hfit, rfl⟩ := h
    rw [rounds, usizeMul_of_lt (Reads.length hidss ▸ hfit)]
    exact Reads.length hidss
  | _ => subst h; rfl

/-- And for blocks there are. -/
theorem Asks.idsIn {p : OramParams} {m : TableMetadata} (hvalid : m.validate = .ok ())
    (hblocks : p.logicalBlocks = m.logicalBlocks) {call : IndexCall} {ops : List Op} (h : call.Asks m ops) :
    ∀ op ∈ ops, op.IdsIn p.logicalBlocks := by
  cases call with
  | lookup scriptHash drainPerRead =>
    obtain ⟨ids, hids, rfl⟩ := h
    intro op hop
    obtain ⟨id, hid, hop⟩ := List.mem_flatMap.mp hop
    rcases List.mem_cons.mp hop with rfl | hop
    · exact hids.lt hvalid hblocks id hid
    · rw [List.mem_singleton.mp hop]
      trivial
  | lookupBatched scriptHash drainPerRead =>
    obtain ⟨ids, hids, rfl⟩ := h
    exact batchOps_idsIn (hids.lt hvalid hblocks)
  | lookupManyBatched scriptHashes drainPerRead =>
    obtain ⟨idss, hidss, -, rfl⟩ := h
    refine batchOps_idsIn fun id hid => ?_
    obtain ⟨ids, hids, hid⟩ := List.mem_flatten.mp hid
    obtain ⟨scriptHash, -, hreads⟩ := forall₂_mem_right hidss hids
    exact hreads.lt hvalid hblocks id hid
  | readDummyCandidate drainPerRead =>
    subst h
    simp [Op.IdsIn]
  | _ =>
    subst h
    exact dummyOps_idsIn

section
variable [PathPageStore M] [PathPageStore P] [Rng ρ]

/-- The call ends well, and leaves the reader so. -/
def Ends (q : IndexReader M P ρ) (call : IndexCall) (q' : IndexReader M P ρ) : Prop :=
  match call with
  | lookup scriptHash drainPerRead => ∃ fuel answer, q.lookup fuel scriptHash drainPerRead = some (.ok answer, q')
  | lookupBatched scriptHash drainPerRead => ∃ fuel answer, q.lookupBatched fuel scriptHash drainPerRead = some (.ok answer, q')
  | lookupManyBatched scriptHashes drainPerRead =>
    ∃ fuel batch, q.lookupManyBatched fuel scriptHashes drainPerRead = some (.ok batch, q')
  | readDummyCandidate drainPerRead => ∃ drained, IndexReader.readDummyCandidate drainPerRead q = (.ok drained, q')
  | readDummyCandidates count drainPerRead =>
    ∃ drained, IndexReader.readDummyCandidates count drainPerRead q = (.ok drained, q')
  | lookupDummy drainPerRead => ∃ drained, IndexReader.lookupDummy drainPerRead q = (.ok drained, q')
  | lookupDummyMany lookups drainPerRead => ∃ drained, IndexReader.lookupDummyMany lookups drainPerRead q = (.ok drained, q')

variable {q q' : IndexReader M P ρ}

/-- The loop over the candidate bins is a round for each. -/
theorem lookupLoop_rounds {scriptHash : ScriptHash} {drainPerRead : UInt64} {bins : List Nat}
    {done done' : IndexReader.Progress} (hrun : IndexReader.lookupLoop scriptHash drainPerRead bins done q = (.ok done', q')) :
    q'.metadata = q.metadata ∧ ∃ ids leaves, List.Forall₂ (BlockOf q.metadata) bins ids ∧
      Rounds q.oram (List.replicate bins.length ⟨1, drainPerRead⟩) (readOps ids drainPerRead) leaves q'.oram := by
  induction bins generalizing done q with
  | nil =>
    cases hrun
    exact ⟨rfl, [], [], .nil, .nil _⟩
  | cons binId bins ih =>
    rw [IndexReader.lookupLoop, Eff.get_bind] at hrun
    obtain ⟨location, hlocate, hrun⟩ := Eff.lift_bind_eq_ok hrun
    obtain ⟨block, q₁, hread, hrun⟩ := Eff.bind_eq_ok hrun
    obtain ⟨bin, -, hrun⟩ := Eff.lift_bind_eq_ok hrun
    obtain ⟨selected, -, hrun⟩ := Eff.lift_bind_eq_ok hrun
    obtain ⟨drained, q₂, hdrain, hrest⟩ := Eff.bind_eq_ok hrun
    obtain ⟨hread, hm₁⟩ := IndexReader.onOram_ok hread
    obtain ⟨hdrain, hm₂⟩ := IndexReader.onOram_ok hdrain
    obtain ⟨leaves, hfirst⟩ := Rounds.read hread hdrain
    obtain ⟨hm, ids, rest, hids, hrounds⟩ := ih hrest
    rw [hm₂.trans hm₁] at hids
    refine ⟨hm.trans (hm₂.trans hm₁), _, leaves ++ rest, .cons ⟨location, hlocate, rfl⟩ hids, ?_⟩
    rw [List.length_cons, List.replicate_succ, readOps, List.flatMap_cons]
    exact hfirst.append hrounds

theorem lookupManyBatched_rounds {fuel : Nat} {scriptHashes : List ScriptHash} {drainPerRead : UInt64} {batch : IndexBatchLookup}
    (hrun : q.lookupManyBatched fuel scriptHashes drainPerRead = some (.ok batch, q')) :
    q'.metadata = q.metadata ∧ ∃ idss leaves, List.Forall₂ (Reads q.metadata) scriptHashes idss ∧
      idss.flatten.length < 2 ^ 64 ∧ Rounds q.oram [batchRound idss.flatten.length drainPerRead]
        (batchOps idss.flatten drainPerRead) leaves q'.oram := by
  obtain ⟨located, hlocated, hrun⟩ := Option.map_eq_some_iff.mp hrun
  obtain ⟨byLookup, rfl, hbody⟩ := Eff.lift_bind_eq_ok hrun
  obtain ⟨blocks, q₁, hread, hrest⟩ := Eff.bind_eq_ok hbody
  rw [Eff.get_bind] at hrest
  obtain ⟨answers, -, hlast⟩ := Eff.lift_bind_eq_ok hrest
  obtain ⟨drained, q₂, hdrain, hdone⟩ := Eff.bind_eq_ok hlast
  cases hdone
  obtain ⟨hread, hm₁⟩ := IndexReader.onOram_ok hread
  obtain ⟨hdrain, hm₂⟩ := IndexReader.onOram_ok hdrain
  obtain ⟨leaves, hrounds⟩ := Rounds.readBatch hread hdrain
  have hreads : List.Forall₂ (Reads q.metadata) scriptHashes
      (byLookup.map fun located => located.2.map fun location => UInt64.ofNat location.logicalBlock) := by
    rw [List.forall₂_map_right_iff]
    exact (IndexReader.candidateLocations_ok hlocated).imp fun scriptHash located hone =>
      ⟨fuel, located.1, hone.1, blockOf_of_mapM hone.2⟩
  have hflat : ((byLookup.map (·.2)).flatten.map fun location => UInt64.ofNat location.logicalBlock)
      = (byLookup.map fun located => located.2.map fun location => UInt64.ofNat location.logicalBlock).flatten := by
    rw [List.map_flatten, List.map_map]
    rfl
  have hfit := (accessBatch_effect hread).2.accesses_lt
  rw [hflat] at hrounds hfit
  exact ⟨hm₂.trans hm₁, _, leaves, hreads, hfit, hrounds⟩

theorem readDummyCandidates_rounds {count : Nat} {drainPerRead drained : UInt64}
    (hrun : IndexReader.readDummyCandidates count drainPerRead q = (.ok drained, q')) :
    q'.metadata = q.metadata ∧
      ∃ leaves, Rounds q.oram [batchRound count drainPerRead] (dummyOps count drainPerRead) leaves q'.oram := by
  obtain ⟨hspend, hm⟩ := IndexReader.onOram_ok hrun
  exact ⟨hm, CircuitOram.spendDummies_rounds hspend⟩

/-- One case per call. -/
theorem Ends.rounds {call : IndexCall} (h : call.Ends q q') : q'.metadata = q.metadata ∧ ∃ ops leaves,
    call.Asks q.metadata ops ∧ Rounds q.oram (call.rounds q.metadata.hashFns) ops leaves q'.oram := by
  cases call with
  | lookup scriptHash drainPerRead =>
    obtain ⟨fuel, answer, hrun⟩ := h
    obtain ⟨found, hcandidates, hrun⟩ := Option.map_eq_some_iff.mp hrun
    obtain ⟨bins, rfl, hbody⟩ := Eff.lift_bind_eq_ok hrun
    obtain ⟨done, q₁, hloop, hlast⟩ := Eff.bind_eq_ok hbody
    cases hlast
    obtain ⟨hm, ids, leaves, hids, hrounds⟩ := lookupLoop_rounds hloop
    rw [(candidateBins_ok hcandidates).1] at hrounds
    exact ⟨hm, _, leaves, ⟨ids, ⟨fuel, bins, hcandidates, hids⟩, rfl⟩, hrounds⟩
  | lookupBatched scriptHash drainPerRead =>
    obtain ⟨fuel, answer, hrun⟩ := h
    obtain ⟨⟨r, q₁⟩, hmany, he⟩ := Option.map_eq_some_iff.mp hrun
    obtain ⟨hr, rfl⟩ := Prod.mk.inj he
    obtain ⟨batch, rfl, -⟩ := bind_result_ok hr
    obtain ⟨hm, idss, leaves, hidss, -, hrounds⟩ := lookupManyBatched_rounds hmany
    cases hidss with | @cons _ ids _ _ hids hnil => ?_
    cases hnil
    rw [List.flatten_singleton, hids.length_one] at hrounds
    exact ⟨hm, _, leaves, ⟨ids, hids, rfl⟩, hrounds⟩
  | lookupManyBatched scriptHashes drainPerRead =>
    obtain ⟨fuel, batch, hrun⟩ := h
    obtain ⟨hm, idss, leaves, hidss, hfit, hrounds⟩ := lookupManyBatched_rounds hrun
    have hlen := Reads.length hidss
    rw [hlen, ← usizeMul_of_lt (hlen ▸ hfit)] at hrounds
    exact ⟨hm, _, leaves, ⟨idss, hidss, hfit, rfl⟩, hrounds⟩
  | readDummyCandidate drainPerRead =>
    obtain ⟨drained, hrun⟩ := h
    obtain ⟨hspend, hm⟩ := IndexReader.onOram_ok hrun
    obtain ⟨leaves, hrounds⟩ := CircuitOram.spendDummy_rounds hspend
    exact ⟨hm, _, leaves, rfl, hrounds⟩
  | readDummyCandidates count drainPerRead =>
    obtain ⟨drained, hrun⟩ := h
    obtain ⟨hm, leaves, hrounds⟩ := readDummyCandidates_rounds hrun
    exact ⟨hm, _, leaves, rfl, hrounds⟩
  | lookupDummy drainPerRead =>
    obtain ⟨drained, hrun⟩ := h
    rw [IndexReader.lookupDummy, Eff.get_bind] at hrun
    obtain ⟨hm, leaves, hrounds⟩ := readDummyCandidates_rounds hrun
    exact ⟨hm, _, leaves, rfl, hrounds⟩
  | lookupDummyMany lookups drainPerRead =>
    obtain ⟨drained, hrun⟩ := h
    rw [IndexReader.lookupDummyMany, Eff.get_bind] at hrun
    obtain ⟨hm, leaves, hrounds⟩ := readDummyCandidates_rounds hrun
    exact ⟨hm, _, leaves, rfl, hrounds⟩

end

/-- The rounds of the dummies of a session. -/
def dummyRounds (hashFns : Nat) (calls : List IndexCall) : List Round :=
  (calls.flatMap (·.dummies hashFns)).flatMap (·.rounds hashFns)

theorem dummyRounds_eq (hashFns : Nat) (calls : List IndexCall) :
    dummyRounds hashFns calls = calls.flatMap (·.rounds hashFns) := by
  rw [dummyRounds, List.flatMap_assoc]
  exact List.flatMap_congr fun call _ => call.rounds_dummies hashFns

end IndexCall

namespace IndexCall

/-- The draws of what some calls ask. -/
theorem asked_draws {p : OramParams} {m : TableMetadata} (hvalid : m.validate = .ok ())
    (hblocks : p.logicalBlocks = m.logicalBlocks)
    {calls : List IndexCall} {opss : List (List Op)} (hasks : List.Forall₂ (Asks m) calls opss) :
    (drawsOf p.logicalBlocks opss.flatten).Nodup ∧
    (drawsOf p.logicalBlocks opss.flatten).length = pathsOf (dummyRounds m.hashFns calls) ∧
    ∀ d ∈ drawsOf p.logicalBlocks opss.flatten, d < p.logicalBlocks + pathsOf (dummyRounds m.hashFns calls) := by
  have hids : ∀ op ∈ opss.flatten, op.IdsIn p.logicalBlocks := by
    intro op hop
    obtain ⟨ops, hops, hop⟩ := List.mem_flatten.mp hop
    obtain ⟨call, -, hask⟩ := forall₂_mem_right hasks hops
    exact hask.idsIn hvalid hblocks op hop
  have hpaths : (opss.flatten.map Op.paths).sum = pathsOf (dummyRounds m.hashFns calls) := by
    rw [dummyRounds_eq]
    clear hids
    induction hasks with
    | nil => rfl
    | cons hask _ ih =>
      rw [List.flatten_cons, List.map_append, List.sum_append, hask.paths, ih, List.flatMap_cons, pathsOf_append]
  rw [← hpaths]
  exact drawsOf_spec hids

/-- Calls with the same dummies cannot be told apart: any one view is what the stores see of
    them for equally many streams of random words. The view of a generator is that of the
    words it draws. -/
theorem views_equally_likely [Rng ρ] {p : OramParams} {m m' : TableMetadata} (hvalid : m.validate = .ok ())
    (hvalid' : m'.validate = .ok ()) (hblocks : p.logicalBlocks = m.logicalBlocks) (hblocks' : p.logicalBlocks = m'.logicalBlocks)
    {calls calls' : List IndexCall} {opss opss' : List (List Op)} (hasks : List.Forall₂ (Asks m) calls opss)
    (hasks' : List.Forall₂ (Asks m') calls' opss') {rounds : List Round} (hrounds : dummyRounds m.hashFns calls = rounds)
    (hrounds' : dummyRounds m'.hashFns calls' = rounds) {n : Nat} (hn : p.logicalBlocks + pathsOf rounds ≤ n) :
    (∀ view, Nat.card {words : Fin n → UInt64 // viewOf p rounds (drawsOf p.logicalBlocks opss.flatten) words = view}
      = Nat.card {words : Fin n → UInt64 // viewOf p rounds (drawsOf p.logicalBlocks opss'.flatten) words = view}) ∧
    ∀ rng : ρ, viewOf p rounds (drawsOf p.logicalBlocks opss.flatten) (wordsOf rng n)
      = roundsRequests p rounds (.new p) ((drawsOf p.logicalBlocks opss.flatten).map (drawLeaf p rng)) := by
  obtain ⟨hnodup, hlen, hlt⟩ := asked_draws hvalid hblocks hasks
  obtain ⟨hnodup', hlen', hlt'⟩ := asked_draws hvalid' hblocks' hasks'
  rw [hrounds] at hlen hlt
  rw [hrounds'] at hlen' hlt'
  have hbound : ∀ d ∈ drawsOf p.logicalBlocks opss.flatten, d < n := fun d hd => (hlt d hd).trans_le hn
  refine ⟨card_viewOf hnodup hnodup' (hlen.trans hlen'.symm) hbound fun d hd => (hlt' d hd).trans_le hn, ?_⟩
  exact viewOf_wordsOf hbound

/-! ### A small INDEX table -/

theorem run_eq_ok {α : Type} {x : Option (Result α)} {a : α} (h : x.bind Except.toOption = some a) : x = some (.ok a) := by
  rcases x with _ | e | b
  · cases h
  · cases h
  · cases h
    rfl

/-- The candidate bins of the script hash are 0 and 2. -/
theorem smallIndex_reads : Reads smallIndexSource.metadata (smallHash 2) [0, 1] := by
  have hfirst : BlockOf smallIndexSource.metadata 0 0 :=
    ⟨(smallIndexSource.metadata.locate 0).toOption.get (by decide +kernel), toOption_get _, by decide +kernel⟩
  have hsecond : BlockOf smallIndexSource.metadata 2 1 :=
    ⟨(smallIndexSource.metadata.locate 2).toOption.get (by decide +kernel), toOption_get _, by decide +kernel⟩
  exact ⟨8, [0, 2], run_eq_ok (by decide +kernel), .cons hfirst (.cons hsecond .nil)⟩

theorem smallIndex_hashFns : smallIndexSource.metadata.hashFns = 2 := by decide +kernel

theorem smallIndex_asksDummy : Asks smallIndexSource.metadata (.lookupDummy 1) (dummyOps 2 1) :=
  show dummyOps 2 1 = dummyOps smallIndexSource.metadata.hashFns 1 by rw [smallIndex_hashFns]

/-- The lookup goes through the leaves of its blocks, its dummy through new ones. -/
theorem views_equally_likely_smallIndex : drawsOf smallIndexParams.logicalBlocks (batchOps [0, 1] 1) = [0, 1] ∧
    drawsOf smallIndexParams.logicalBlocks (dummyOps 2 1) = [2, 3] ∧ ∀ view,
      Nat.card {words : Fin 4 → UInt64 // viewOf smallIndexParams [⟨2, 2⟩] [0, 1] words = view}
        = Nat.card {words : Fin 4 → UInt64 // viewOf smallIndexParams [⟨2, 2⟩] [2, 3] words = view} := by
  have hvalid : smallIndexSource.metadata.validate = .ok () := by decide +kernel
  have hblocks : smallIndexParams.logicalBlocks = smallIndexSource.metadata.logicalBlocks := by decide +kernel
  have hasks : List.Forall₂ (Asks smallIndexSource.metadata) [.lookupBatched (smallHash 2) 1] [batchOps [0, 1] 1] :=
    .cons ⟨[0, 1], smallIndex_reads, rfl⟩ .nil
  have hasks' : List.Forall₂ (Asks smallIndexSource.metadata) [.lookupDummy 1] [dummyOps 2 1] :=
    .cons smallIndex_asksDummy .nil
  have hrounds : dummyRounds smallIndexSource.metadata.hashFns [.lookupBatched (smallHash 2) 1] = [⟨2, 2⟩] := by
    rw [smallIndex_hashFns]
    rfl
  have hrounds' : dummyRounds smallIndexSource.metadata.hashFns [.lookupDummy 1] = [⟨2, 2⟩] := by
    rw [smallIndex_hashFns]
    rfl
  have hall := (views_equally_likely (ρ := ZeroSeedRng) hvalid hvalid hblocks hblocks hasks hasks' hrounds hrounds'
    (show smallIndexParams.logicalBlocks + pathsOf [⟨2, 2⟩] ≤ 4 by decide +kernel)).1
  have hdraws : drawsOf smallIndexParams.logicalBlocks (batchOps [0, 1] 1) = [0, 1] := by decide +kernel
  have hdraws' : drawsOf smallIndexParams.logicalBlocks (dummyOps 2 1) = [2, 3] := by decide +kernel
  rw [List.flatten_singleton, List.flatten_singleton, hdraws, hdraws'] at hall
  exact ⟨hdraws, hdraws', hall⟩

end IndexCall

/-- A session on a reader of a controller that was built. What it asks of the controller is
    known from the table, and so are the draws its online paths spend, each of them once.
    With these draws for leaves, the stores see what they see of the dummies. -/
theorem IndexReader.lookups_oblivious [PageStore M] [PageStore P] [PageStore M₀] [PageStore P₀] [TrustedBlockSource S]
    [Rng ρ] {p : OramParams} {metaStore : M₀} {payloadStore : P₀} {source : S} {seed : FixedBytes 32}
    {s₀ : CircuitOram M₀ P₀ ρ}
    (hbuild : CircuitOram.buildTrustedFromSource p metaStore payloadStore source seed = .ok s₀)
    {s : CircuitOram (TracingStore M) (TracingStore P) ρ} (hsame : s.toController = s₀.toController) {m : TableMetadata}
    {q q' : IndexReader (TracingStore M) (TracingStore P) ρ} (hnew : IndexReader.new m s = .ok q) {calls : List IndexCall}
    (hrun : Session IndexCall.Ends q calls q') : (∃ opss, List.Forall₂ (IndexCall.Asks m) calls opss) ∧
      ∀ opss draws, List.Forall₂ (IndexCall.Asks m) calls opss → drawsOf p.logicalBlocks opss.flatten = draws →
        draws.Nodup ∧ draws.length = pathsOf (IndexCall.dummyRounds m.hashFns calls) ∧
        Received CircuitOram.seen s (roundsRequests p (IndexCall.dummyRounds m.hashFns calls) (.new p)
          (draws.map (drawLeaf p (Rng.fromSeed seed : ρ)))) q'.oram := by
  obtain ⟨rfl, -⟩ := IndexReader.new_ok hnew
  rw [IndexCall.dummyRounds_eq]
  refine hrun.oblivious hbuild (fun r => r.metadata = m) (·.oram) (·.rounds m.hashFns) IndexCall.Asks.unique ?_ rfl hsame
  intro r call r' hr hends
  obtain ⟨hm, hround⟩ := hends.rounds
  rw [hr] at hm hround
  exact ⟨hm, hround⟩

/-- The small INDEX reader, its stores traced. -/
def smallIndexTraced : IndexReader (TracingStore MemPageStore) (TracingStore MemPageStore) ZeroSeedRng :=
  (IndexReader.new smallIndexSource.metadata smallIndexOram.traced).toOption.get (by decide +kernel)

/-- After a lookup. -/
def smallIndexLooked : IndexReader (TracingStore MemPageStore) (TracingStore MemPageStore) ZeroSeedRng :=
  ((smallIndexTraced.lookupBatched 8 (smallHash 2) 1).get (by decide +kernel)).2

theorem smallIndexLooked_run : smallIndexTraced.lookupBatched 8 (smallHash 2) 1 = some (.ok smallLookup, smallIndexLooked) := by
  obtain ⟨q, hrun⟩ := exists_run (x := smallIndexTraced.lookupBatched 8 (smallHash 2) 1) (a := smallLookup)
    (by decide +kernel)
  have hq : smallIndexLooked = q := congrArg Prod.snd (Option.get_of_eq_some _ hrun)
  rw [hq]
  exact hrun

/-- The lookup reads blocks 0 and 1 at their first leaves, and its dummy goes through new ones. -/
theorem IndexReader.lookups_oblivious_smallIndex :
    ∃ q', Session IndexCall.Ends smallIndexTraced [.lookupBatched (smallHash 2) 1, .lookupDummy 1] q' ∧
      Received CircuitOram.seen smallIndexOram.traced
        (roundsRequests smallIndexParams [⟨2, 2⟩, ⟨2, 2⟩] (.new smallIndexParams)
        ([0, 1, 4, 5].map (drawLeaf smallIndexParams (Rng.fromSeed (FixedBytes.zero 32) : ZeroSeedRng)))) q'.oram := by
  have hbuild : smallIndexBuild = .ok smallIndexOram := toOption_get _
  obtain ⟨q', hdummy⟩ := Eff.run_of_result (show (IndexReader.lookupDummy 1 smallIndexLooked).1 = .ok 2 by decide +kernel)
  have hrun : Session IndexCall.Ends smallIndexTraced [.lookupBatched (smallHash 2) 1, .lookupDummy 1] q' :=
    .call ⟨8, smallLookup, smallIndexLooked_run⟩ (.call ⟨2, hdummy⟩ (.nil q'))
  have hnew : IndexReader.new smallIndexSource.metadata smallIndexOram.traced = .ok smallIndexTraced := toOption_get _
  obtain ⟨-, hall⟩ := IndexReader.lookups_oblivious hbuild (CircuitOram.traced_toController _) hnew hrun
  obtain ⟨-, -, hreceived⟩ := hall [batchOps [0, 1] 1, dummyOps 2 1] [0, 1, 4, 5]
    (.cons ⟨[0, 1], IndexCall.smallIndex_reads, rfl⟩ (.cons IndexCall.smallIndex_asksDummy .nil)) (by decide +kernel)
  rw [IndexCall.smallIndex_hashFns] at hreceived
  exact ⟨q', hrun, hreceived⟩

/-! ## CHUNK calls -/

namespace ChunkReader

variable [PathPageStore M] [PathPageStore P] [Rng ρ]

def readDummy (drainPerAccess : UInt64) : Eff Error (ChunkReader M P ρ) UInt64 :=
  onOram (CircuitOram.spendDummy drainPerAccess)

def readDummyMany (count : Nat) (drainPerAccess : UInt64) : Eff Error (ChunkReader M P ρ) UInt64 :=
  onOram (CircuitOram.spendDummies count drainPerAccess)

omit [PathPageStore M] [PathPageStore P] [Rng ρ] in
theorem onOram_ok {α : Type} {m : Eff Error (CircuitOram M P ρ) α} {q q' : ChunkReader M P ρ} {a : α}
    (h : onOram m q = (.ok a, q')) : m q.oram = (.ok a, q'.oram) ∧ q'.metadata = q.metadata := by
  obtain ⟨s, hrun, rfl⟩ := Eff.zoom_eq_ok h
  exact ⟨hrun, rfl⟩

end ChunkReader

inductive ChunkCall where
  | readChunk (chunkId : Nat) (drainPerAccess : UInt64)
  | readChunks (chunkIds : List Nat) (drainPerAccess : UInt64)
  | readDummy (drainPerAccess : UInt64)
  | readDummyMany (count : Nat) (drainPerAccess : UInt64)

namespace ChunkCall

/-- The dummy that stands in for a call. -/
def dummy : ChunkCall → ChunkCall
  | readChunk _ drainPerAccess => readDummy drainPerAccess
  | readChunks chunkIds drainPerAccess => readDummyMany chunkIds.length drainPerAccess
  | call => call

/-- The round of a call. -/
def round : ChunkCall → Round
  | readChunk _ drainPerAccess => ⟨1, drainPerAccess⟩
  | readChunks chunkIds drainPerAccess => batchRound chunkIds.length drainPerAccess
  | readDummy drainPerAccess => ⟨1, drainPerAccess⟩
  | readDummyMany count drainPerAccess => batchRound count drainPerAccess

theorem round_dummy (call : ChunkCall) : call.dummy.round = call.round := by cases call <;> rfl

/-- What a call asks of the controller. -/
def Asks (m : TableMetadata) : ChunkCall → List Op → Prop
  | readChunk chunkId drainPerAccess, ops => ∃ id, BlockOf m chunkId id ∧ ops = readOps [id] drainPerAccess
  | readChunks chunkIds drainPerAccess, ops =>
    ∃ ids, List.Forall₂ (BlockOf m) chunkIds ids ∧ ops = batchOps ids drainPerAccess
  | readDummy drainPerAccess, ops => ops = [.dummyAccess, .drainEvictions drainPerAccess]
  | readDummyMany count drainPerAccess, ops => ops = dummyOps count drainPerAccess

/-- Which is a function of the call and the table. -/
theorem Asks.unique {m : TableMetadata} : Relator.RightUnique (Asks m) := by
  intro call ops ops' h h'
  cases call with
  | readChunk chunkId drainPerAccess =>
    obtain ⟨id, hid, rfl⟩ := h
    obtain ⟨id', hid', rfl⟩ := h'
    rw [BlockOf.unique hid hid']
  | readChunks chunkIds drainPerAccess =>
    obtain ⟨ids, hids, rfl⟩ := h
    obtain ⟨ids', hids', rfl⟩ := h'
    rw [BlockOf.unique.forall₂ hids hids']
  | _ => exact Eq.trans h (Eq.symm h')

section
variable [PathPageStore M] [PathPageStore P] [Rng ρ]

/-- The call ends well, and leaves the reader so. -/
def Ends (q : ChunkReader M P ρ) (call : ChunkCall) (q' : ChunkReader M P ρ) : Prop :=
  match call with
  | readChunk chunkId drainPerAccess => ∃ read, ChunkReader.readChunk chunkId drainPerAccess q = (.ok read, q')
  | readChunks chunkIds drainPerAccess => ∃ batch, ChunkReader.readChunks chunkIds drainPerAccess q = (.ok batch, q')
  | readDummy drainPerAccess => ∃ drained, ChunkReader.readDummy drainPerAccess q = (.ok drained, q')
  | readDummyMany count drainPerAccess => ∃ drained, ChunkReader.readDummyMany count drainPerAccess q = (.ok drained, q')

variable {q q' : ChunkReader M P ρ}

/-- One case per call. -/
theorem Ends.rounds {call : ChunkCall} (h : call.Ends q q') : q'.metadata = q.metadata ∧
    ∃ ops leaves, call.Asks q.metadata ops ∧ Rounds q.oram [call.round] ops leaves q'.oram := by
  cases call with
  | readChunk chunkId drainPerAccess =>
    obtain ⟨read, hrun⟩ := h
    rw [ChunkReader.readChunk, Eff.get_bind] at hrun
    obtain ⟨location, hlocate, hrun⟩ := Eff.lift_bind_eq_ok hrun
    obtain ⟨done, q₁, hitem, hlast⟩ := Eff.bind_eq_ok hrun
    cases hlast
    obtain ⟨hitem, hm⟩ := ChunkReader.onOram_ok hitem
    obtain ⟨block, s₁, hread, hrest⟩ := Eff.bind_eq_ok hitem
    obtain ⟨payload, -, hrest⟩ := Eff.lift_bind_eq_ok hrest
    obtain ⟨drained, s₂, hdrain, hlast⟩ := Eff.bind_eq_ok hrest
    obtain ⟨-, rfl⟩ := Prod.mk.inj hlast
    obtain ⟨leaves, hrounds⟩ := Rounds.read hread hdrain
    exact ⟨hm, _, leaves, ⟨_, ⟨location, hlocate, rfl⟩, rfl⟩, hrounds⟩
  | readChunks chunkIds drainPerAccess =>
    obtain ⟨batch, hrun⟩ := h
    rw [ChunkReader.readChunks, Eff.get_bind] at hrun
    obtain ⟨locations, hlocate, hrun⟩ := Eff.lift_bind_eq_ok hrun
    obtain ⟨blocks, q₁, hread, hrun⟩ := Eff.bind_eq_ok hrun
    obtain ⟨drained, q₂, hdrain, hrun⟩ := Eff.bind_eq_ok hrun
    obtain ⟨reads, -, hlast⟩ := Eff.lift_bind_eq_ok hrun
    cases hlast
    obtain ⟨hread, hm₁⟩ := ChunkReader.onOram_ok hread
    obtain ⟨hdrain, hm₂⟩ := ChunkReader.onOram_ok hdrain
    have hids := blockOf_of_mapM hlocate
    rw [hids.length_eq] at hdrain
    obtain ⟨leaves, hrounds⟩ := Rounds.readBatch hread hdrain
    rw [← hids.length_eq] at hrounds
    exact ⟨hm₂.trans hm₁, _, leaves, ⟨_, hids, by rw [batchOps, ← hids.length_eq]⟩, hrounds⟩
  | readDummy drainPerAccess =>
    obtain ⟨drained, hrun⟩ := h
    obtain ⟨hspend, hm⟩ := ChunkReader.onOram_ok hrun
    obtain ⟨leaves, hrounds⟩ := CircuitOram.spendDummy_rounds hspend
    exact ⟨hm, _, leaves, rfl, hrounds⟩
  | readDummyMany count drainPerAccess =>
    obtain ⟨drained, hrun⟩ := h
    obtain ⟨hspend, hm⟩ := ChunkReader.onOram_ok hrun
    obtain ⟨leaves, hrounds⟩ := CircuitOram.spendDummies_rounds hspend
    exact ⟨hm, _, leaves, rfl, hrounds⟩

end

/-- The rounds of the dummies of a session. -/
def dummyRounds (calls : List ChunkCall) : List Round := calls.map (·.dummy.round)

theorem dummyRounds_eq (calls : List ChunkCall) : dummyRounds calls = calls.flatMap fun call => [call.round] := by
  rw [← List.map_eq_flatMap, dummyRounds]
  exact List.map_congr_left fun call _ => call.round_dummy

end ChunkCall

/-- The same of sessions on a CHUNK reader. -/
theorem ChunkReader.reads_oblivious [PageStore M] [PageStore P] [PageStore M₀] [PageStore P₀] [TrustedBlockSource S] [Rng ρ]
    {p : OramParams} {metaStore : M₀} {payloadStore : P₀} {source : S} {seed : FixedBytes 32}
    {s₀ : CircuitOram M₀ P₀ ρ}
    (hbuild : CircuitOram.buildTrustedFromSource p metaStore payloadStore source seed = .ok s₀)
    {s : CircuitOram (TracingStore M) (TracingStore P) ρ} (hsame : s.toController = s₀.toController) {m : TableMetadata}
    {q q' : ChunkReader (TracingStore M) (TracingStore P) ρ} (hnew : ChunkReader.new m s = .ok q) {calls : List ChunkCall}
    (hrun : Session ChunkCall.Ends q calls q') : (∃ opss, List.Forall₂ (ChunkCall.Asks m) calls opss) ∧
      ∀ opss draws, List.Forall₂ (ChunkCall.Asks m) calls opss → drawsOf p.logicalBlocks opss.flatten = draws →
        draws.Nodup ∧ draws.length = pathsOf (ChunkCall.dummyRounds calls) ∧
        Received CircuitOram.seen s (roundsRequests p (ChunkCall.dummyRounds calls) (.new p)
          (draws.map (drawLeaf p (Rng.fromSeed seed : ρ)))) q'.oram := by
  obtain ⟨rfl, -⟩ := ChunkReader.new_ok hnew
  rw [ChunkCall.dummyRounds_eq]
  refine hrun.oblivious hbuild (fun r => r.metadata = m) (·.oram) (fun call => [call.round]) ChunkCall.Asks.unique ?_ rfl hsame
  intro r call r' hr hends
  obtain ⟨hm, hround⟩ := hends.rounds
  rw [hr] at hm hround
  exact ⟨hm, hround⟩

/-- The small CHUNK reader, its stores traced. -/
def smallChunksTraced : ChunkReader (TracingStore MemPageStore) (TracingStore MemPageStore) ZeroSeedRng :=
  (ChunkReader.new smallChunks.metadata smallChunksOram.traced).toOption.get (by decide +kernel)

def smallChunkBatch : ChunkBatchRead where
  reads :=
    [{ chunkId := 0, logicalBlock := 0, byteOffset := 0, payload := List.replicate 40 1, drainedEvictions := 0 },
     { chunkId := 2, logicalBlock := 1, byteOffset := 0, payload := List.replicate 40 3, drainedEvictions := 0 }]
  drainedEvictions := 2

theorem ChunkReader.reads_oblivious_smallChunks :
    ∃ q', Session ChunkCall.Ends smallChunksTraced [.readChunks [0, 2] 1, .readDummyMany 2 1] q' ∧
      Received CircuitOram.seen smallChunksOram.traced
        (roundsRequests smallChunksParams [⟨2, 2⟩, ⟨2, 2⟩] (.new smallChunksParams)
        ([0, 1, 4, 5].map (drawLeaf smallChunksParams (Rng.fromSeed (FixedBytes.zero 32) : ZeroSeedRng)))) q'.oram := by
  have hbuild : CircuitOram.buildTrustedFromSource smallChunksParams _ _ _ _ = .ok smallChunksOram := toOption_get _
  have hnew : ChunkReader.new smallChunks.metadata smallChunksOram.traced = .ok smallChunksTraced := toOption_get _
  have hread : ChunkReader.readChunks [0, 2] 1 smallChunksTraced
      = (.ok smallChunkBatch, (ChunkReader.readChunks [0, 2] 1 smallChunksTraced).2) := Eff.run_eq (by decide +kernel)
  obtain ⟨q', hdummy⟩ := Eff.run_of_result
    (show (ChunkReader.readDummyMany 2 1 (ChunkReader.readChunks [0, 2] 1 smallChunksTraced).2).1 = .ok 2 by decide +kernel)
  have hrun : Session ChunkCall.Ends smallChunksTraced [.readChunks [0, 2] 1, .readDummyMany 2 1] q' :=
    .call ⟨smallChunkBatch, hread⟩ (.call ⟨2, hdummy⟩ (.nil q'))
  obtain ⟨-, hall⟩ := ChunkReader.reads_oblivious hbuild (CircuitOram.traced_toController _) hnew hrun
  have hfirst : BlockOf smallChunks.metadata 0 0 :=
    ⟨(smallChunks.metadata.locate 0).toOption.get (by decide +kernel), toOption_get _, by decide +kernel⟩
  have hsecond : BlockOf smallChunks.metadata 2 1 :=
    ⟨(smallChunks.metadata.locate 2).toOption.get (by decide +kernel), toOption_get _, by decide +kernel⟩
  obtain ⟨-, -, hreceived⟩ := hall [batchOps [0, 1] 1, dummyOps 2 1] [0, 1, 4, 5]
    (.cons ⟨[0, 1], .cons hfirst (.cons hsecond .nil), rfl⟩ (.cons rfl .nil)) (by decide +kernel)
  exact ⟨q', hrun, hreceived⟩

end Direct
end BpirOram
