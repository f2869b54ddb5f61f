/-
  BpirOram.Circuit.Run — runs of the controller over honest stores.

  A run starts from a build and goes on by calls and by reopening from a snapshot. The
  array it stands for is that of the calls that ended well (`Reached`); which calls may
  fail on the way is a parameter.
  - `Reached.array`: without failures the tree and the stash hold each id once, as the
    position map says, every call returns what the array holds, and none misses a block.
  - `Reached.accessBatch_refines`: a batch is its accesses in order, whatever failed before.
  - `Reached.drainEvictions_ok`: draining always succeeds, whatever failed before.
-/

import BpirOram.Circuit.Op
import BpirOram.Circuit.BuildSpec

namespace BpirOram

open Lib

variable {M P S ρ : Type} {p : OramParams}

section
variable [PageStore M] [PageStore P] (HM : HonestStore M) (HP : HonestStore P)

abbrev HonestStore.metaContract (p : OramParams) : MetaContract M p :=
  HM.contract p.bucketCount (circuitMetaPageBytes p.bucketSize)

abbrev HonestStore.payloadContract (p : OramParams) : PayloadContract P p :=
  HP.contract p.bucketCount (circuitPayloadPageBytes p.bucketSize p.blockSize)

/-- Both stores hold the pages of `tree`, each its half: slot by slot the metadata page of a
    bucket decodes to its labels and the payload page to its payloads. -/
structure StoredTree (p : OramParams) (s : CircuitOram M P ρ) (tree : Nat → List OramBlock) : Prop where
  metaPages : ∃ c, HM.Holds p.bucketCount (circuitMetaPageBytes p.bucketSize) c s.metaStore ∧
    ∀ i < p.bucketCount, CircuitMetaBucket.decode (c i) p.bucketSize = .ok { slots := (tree i).map (·.metaSlot) }
  payloadPages : ∃ c, HP.Holds p.bucketCount (circuitPayloadPageBytes p.bucketSize p.blockSize) c s.payloadStore ∧
    ∀ i < p.bucketCount, CircuitPayloadBucket.decode (c i) p.bucketSize p.blockSize = .ok { slots := (tree i).map (·.payload) }

/-- Tree and stash hold the array `v`: the block of each id once and no other, under the
    position map's leaf, on its path when it is in the tree. -/
structure HoldsArray (p : OramParams) (s : CircuitOram M P ρ) (tree : Nat → List OramBlock) (v : Memory) : Prop where
  stored : StoredTree HM HP p s tree
  blocks : treeBlocks p tree + occ s.stash = allBlocks p s.posMap v
  leaves : s.posMap.length = p.logicalBlocks ∧ ∀ leaf ∈ s.posMap, leaf.toNat < p.leaves
  onPath : OnPath p tree
  stash : s.stash.length = p.stashCapacity

/-- Both stores of two controllers hold the same pages. -/
def SamePages (p : OramParams) (s t : CircuitOram M P ρ) : Prop :=
  (∃ c d, HM.Holds p.bucketCount (circuitMetaPageBytes p.bucketSize) c s.metaStore ∧
    HM.Holds p.bucketCount (circuitMetaPageBytes p.bucketSize) d t.metaStore ∧ ∀ i < p.bucketCount, c i = d i) ∧
  ∃ c d, HP.Holds p.bucketCount (circuitPayloadPageBytes p.bucketSize p.blockSize) c s.payloadStore ∧
    HP.Holds p.bucketCount (circuitPayloadPageBytes p.bucketSize p.blockSize) d t.payloadStore ∧
      ∀ i < p.bucketCount, c i = d i

variable {HM HP} {s t : CircuitOram M P ρ} {b : Blocks ρ} {v : Memory}

theorem Rel.stored (h : Rel (HM.metaContract p) (HP.payloadContract p) s b) : StoredTree HM HP p s b.tree where
  metaPages := by
    obtain ⟨c, hc, heq⟩ := h.metaRep
    exact ⟨c, hc, fun i hi => by rw [heq i hi]; exact decode_metaPage (h.shape.tree i hi).slots⟩
  payloadPages := by
    obtain ⟨c, hc, heq⟩ := h.payloadRep
    exact ⟨c, hc, fun i hi => by rw [heq i hi]; exact decode_payloadPage p.blockSize_pos (h.shape.tree i hi)⟩

theorem Rel.holdsArray (h : Rel (HM.metaContract p) (HP.payloadContract p) s b) (hi : Inv p b v) :
    HoldsArray HM HP p s b.tree v := by
  have hc := h.controller
  have hs : s.stash = b.stash := congrArg Controller.stash hc
  have hp : s.posMap = b.posMap := congrArg Controller.posMap hc
  exact
    { stored := h.stored
      blocks := by rw [hs, hp]; exact hi.blocks
      leaves := by rw [hp]; exact ⟨h.shape.controller.posMap, h.shape.controller.leaves⟩
      onPath := hi.onPath
      stash := by rw [hs]; exact h.shape.controller.stash }

theorem Rel.samePages (h : Rel (HM.metaContract p) (HP.payloadContract p) s b)
    (h' : Rel (HM.metaContract p) (HP.payloadContract p) t b) : SamePages HM HP p s t := by
  obtain ⟨c, hc, hce⟩ := h.metaRep
  obtain ⟨d, hd, hde⟩ := h'.metaRep
  obtain ⟨c', hc', hce'⟩ := h.payloadRep
  obtain ⟨d', hd', hde'⟩ := h'.payloadRep
  exact ⟨⟨c, d, hc, hd, fun i hi => (hce i hi).trans (hde i hi).symm⟩,
    ⟨c', d', hc', hd', fun i hi => (hce' i hi).trans (hde' i hi).symm⟩⟩

/-- Over honest stores an operation is the block operation. -/
theorem Outcome.honest {α : Type} {r : Result α × CircuitOram M P ρ} {n : Fault → Result α × Blocks ρ}
    (h : Outcome (HM.metaContract p) (HP.payloadContract p) r n) :
    r.1 = (n .none).1 ∧ Rel (HM.metaContract p) (HP.payloadContract p) r.2 (n .none).2 := by
  rcases h with ⟨e, -, hd | hd⟩ | ⟨fault, ha, h1, h2⟩
  · exact hd.elim
  · exact hd.elim
  · cases fault
    · exact ⟨h1, h2⟩
    all_goals exact (ha : False).elim

/-- The stores of a controller opened again on the same pages. -/
theorem Rel.reopen {m : M} {q : P} (h : Rel (HM.metaContract p) (HP.payloadContract p) s b)
    (hm : ∀ n sz c, HM.Holds n sz c s.metaStore → HM.Holds n sz c m)
    (hq : ∀ n sz c, HP.Holds n sz c s.payloadStore → HP.Holds n sz c q)
    (ht : CircuitOram.fromState m q s.snapshot = .ok t) : Rel (HM.metaContract p) (HP.payloadContract p) t b := by
  obtain ⟨-, -, rfl⟩ := fromState_ok ht
  have hc := h.controller
  have hstash : s.stash.length = s.params.stashCapacity := by
    rw [h.params, congrArg Controller.stash hc]
    exact h.shape.controller.stash
  obtain ⟨c, hc', hce⟩ := h.metaRep
  obtain ⟨d, hd', hde⟩ := h.payloadRep
  refine { controller := ?_, shape := h.shape, metaRep := ⟨c, hm _ _ _ hc', hce⟩, payloadRep := ⟨d, hq _ _ _ hd', hde⟩ }
  rw [← hc]
  simp only [CircuitOram.snapshot, CircuitOramState.withAuth, CircuitOramState.new, hstash, Nat.sub_self,
    List.replicate_zero, List.append_nil]

end

/-! ## Runs -/

section
variable [PageStore M] [PageStore P] [TrustedBlockSource S] [Rng ρ]

/-- The controller reached, and the array of the calls that ended well. Calls that fail are
    part of the run when `Fails` says so. -/
inductive Reached (p : OramParams) (HM : HonestStore M) (HP : HonestStore P) (HS : HonestSource S)
    (Fails : CircuitOram M P ρ → Op → Prop) : CircuitOram M P ρ → Memory → Prop
  | build {metaStore : M} {payloadStore : P} {source : S} {seed : FixedBytes 32} {s f nm szm cm np szp cp} :
      HM.Holds nm szm cm metaStore → HP.Holds np szp cp payloadStore → HS.Serves f source →
      CircuitOram.buildTrustedFromSource p metaStore payloadStore source seed = .ok s →
      Reached p HM HP HS Fails s f
  | ok {s v outs s'} (op : Op) : Reached p HM HP HS Fails s v → op.run s = (.ok outs, s') →
      Reached p HM HP HS Fails s' (v.serveAll op.requests).2
  | failed {s v e s'} (op : Op) : Reached p HM HP HS Fails s v → op.run s = (.error e, s') → Fails s op →
      Reached p HM HP HS Fails s' v
  | reopen {s v s'} {m : M} {q : P} : Reached p HM HP HS Fails s v →
      (∀ n sz c, HM.Holds n sz c s.metaStore → HM.Holds n sz c m) →
      (∀ n sz c, HP.Holds n sz c s.payloadStore → HP.Holds n sz c q) →
      CircuitOram.fromState m q s.snapshot = .ok s' → Reached p HM HP HS Fails s' v

variable {HM : HonestStore M} {HP : HonestStore P} {HS : HonestSource S} {Fails : CircuitOram M P ρ → Op → Prop}
  {s : CircuitOram M P ρ} {v : Memory}

/-- `build_trusted` starts a run too. -/
theorem Reached.buildTrusted {HS : HonestSource VecBlockSource} {metaStore : M} {payloadStore : P} (blocks : List Bytes)
    (seed : FixedBytes 32) {f : Memory} {nm szm cm np szp cp} (hm : HM.Holds nm szm cm metaStore)
    (hp : HP.Holds np szp cp payloadStore) (hs : HS.Serves f (VecBlockSource.mk blocks p.blockSize))
    (h : CircuitOram.buildTrusted p metaStore payloadStore blocks seed = .ok s) : Reached p HM HP HS Fails s f :=
  .build hm hp hs h

theorem run_honest {b : Blocks ρ} (h : Rel (HM.metaContract p) (HP.payloadContract p) s b) (op : Op) :
    (op.run s).1 = (op.runBlocks .none b).1 ∧
      Rel (HM.metaContract p) (HP.payloadContract p) (op.run s).2 (op.runBlocks .none b).2 :=
  (Op.run_outcome h op).honest

/-- Whatever failed on the way, the stores hold a tree whose labels are right. -/
theorem Reached.sound (h : Reached p HM HP HS Fails s v) :
    ∃ b, Rel (HM.metaContract p) (HP.payloadContract p) s b ∧ Sound p b := by
  induction h with
  | build hm hp hs hbuild =>
    obtain ⟨b, hr, hi⟩ := buildTrustedFromSource_ok HM HP HS hm hp hs hbuild
    exact ⟨b, hr, hi.sound⟩
  | ok op _ hrun ih =>
    obtain ⟨b, hr, hs⟩ := ih
    exact ⟨_, by have := (run_honest hr op).2; rwa [hrun] at this, op.runBlocks_sound .none b hs⟩
  | failed op _ hrun _ ih =>
    obtain ⟨b, hr, hs⟩ := ih
    exact ⟨_, by have := (run_honest hr op).2; rwa [hrun] at this, op.runBlocks_sound .none b hs⟩
  | reopen _ hm hq ht ih =>
    obtain ⟨b, hr, hs⟩ := ih
    exact ⟨b, hr.reopen hm hq ht, hs⟩

/-- Without failures the array stands. -/
theorem Reached.inv (h : Reached p HM HP HS (fun _ _ => False) s v) :
    ∃ b, Rel (HM.metaContract p) (HP.payloadContract p) s b ∧ Inv p b v := by
  induction h with
  | build hm hp hs hbuild => exact buildTrustedFromSource_ok HM HP HS hm hp hs hbuild
  | ok op _ hrun ih =>
    obtain ⟨b, hr, hi⟩ := ih
    obtain ⟨h1, h2⟩ := run_honest hr op
    rw [hrun] at h1 h2
    have hstep := hi.step op
    generalize op.runBlocks .none b = r at h1 h2 hstep
    cases hstep with
    | ok hinv _ _ => exact ⟨_, h2, hinv⟩
    | _ => cases h1
  | failed _ _ _ hf => exact hf.elim
  | reopen _ hm hq ht ih =>
    obtain ⟨b, hr, hi⟩ := ih
    exact ⟨b, hr.reopen hm hq ht, hi⟩

/-! ## A small controller -/

/-- The first draws of the generator seeded with zeros. -/
structure ZeroSeedRng where
  draws : List UInt64
  deriving DecidableEq

instance : Rng ZeroSeedRng where
  fromSeed _ := { draws := [0x903df1a0ade0b876, 0x28bd8653e56a5d40, 0x1aed8da0b819d2bd, 0xc70d778bccef36a8,
    0x8d4857517c5941da, 0x374ad8b83fe02477, 0x1ca11815f4b8436a, 0x8665eeb269b687c3] }
  nextU64 rng := (rng.draws.headD 0, { draws := rng.draws.tail })

/-- Metadata pages of one slot are 13 bytes. -/
theorem smallMetaPage_pos : 0 < 13 := by decide

/-- Two blocks of one byte in a tree of three buckets of one slot. -/
def smallParams : OramParams where
  logicalBlocks := 2
  blockSize := 1
  bucketSize := 1
  leaves := 2
  stashCapacity := 2
  logicalBlocks_lt := by decide
  blockSize_pos := by decide
  bucketSize_pos := by decide
  leaves_pow := by decide
  leaves_ge := by decide
  leaves_lt := by decide

def smallBuild : Result (CircuitOram MemPageStore MemPageStore ZeroSeedRng) :=
  CircuitOram.buildTrusted smallParams (zeroPages 3 13 (by decide)) (zeroPages 3 1 (by decide)) [[7], [8]]
    (FixedBytes.zero 32)

def smallOram : CircuitOram MemPageStore MemPageStore ZeroSeedRng := smallBuild.toOption.get (by decide +kernel)

def smallMemory : Memory := fun k => [[7], [8]].getD k []

theorem smallOram_reached (Fails : CircuitOram MemPageStore MemPageStore ZeroSeedRng → Op → Prop) :
    Reached smallParams MemPageStore.honest MemPageStore.honest VecBlockSource.honest Fails smallOram smallMemory := by
  refine .buildTrusted [[7], [8]] (FixedBytes.zero 32) (MemPageStore.holds_self _)
    (MemPageStore.holds_self _) (fun k x hx => ?_) (toOption_get _)
  simp only [smallMemory, List.getD_eq_getElem?_getD]
  rw [show ([[7], [8]] : List Bytes)[k]? = some x from hx]
  rfl

/-- The small controller after it read block 1, which left it a debt of two evictions. -/
def smallRead : CircuitOram MemPageStore MemPageStore ZeroSeedRng := ((Op.access 1 .keep).run smallOram).2

theorem smallRead_reached (Fails : CircuitOram MemPageStore MemPageStore ZeroSeedRng → Op → Prop) :
    Reached smallParams MemPageStore.honest MemPageStore.honest VecBlockSource.honest Fails smallRead
      (smallMemory.serveAll (Op.access 1 .keep).requests).2 :=
  .ok (.access 1 .keep) (smallOram_reached Fails)
    (Prod.ext (show ((Op.access 1 .keep).run smallOram).1 = .ok [[8]] by decide +kernel) rfl)

/-! ## What holds in every run -/

/-- The stores and the stash hold the array, calls return what it holds, and no request
    misses its block. -/
theorem Reached.array (h : Reached p HM HP HS (fun _ _ => False) s v) :
    (∃ tree, HoldsArray HM HP p s tree v) ∧
      (∀ (op : Op) outs s', op.run s = (.ok outs, s') → outs = (v.serveAll op.requests).1) ∧
      ∀ (op : Op) e s', op.run s = (.error e, s') → ∀ id, e ≠ .blockNotFound id := by
  obtain ⟨b, hr, hi⟩ := h.inv
  refine ⟨⟨b.tree, hr.holdsArray hi⟩, fun op outs s' hrun => ?_, fun op e s' hrun => ?_⟩
  · have h1 := (run_honest hr op).1
    rw [hrun] at h1
    exact (hi.serving.step_ok (Prod.ext h1.symm rfl)).1
  · have h1 := (run_honest hr op).1
    rw [hrun] at h1
    exact (hi.serving.step_error (Prod.ext h1.symm rfl)).1

theorem array_smallRead :
    (∃ tree, HoldsArray MemPageStore.honest MemPageStore.honest smallParams smallRead tree
        (smallMemory.serveAll (Op.access 1 .keep).requests).2) ∧
      (∀ (op : Op) outs s', op.run smallRead = (.ok outs, s') →
        outs = ((smallMemory.serveAll (Op.access 1 .keep).requests).2.serveAll op.requests).1) ∧
      ∀ (op : Op) e s', op.run smallRead = (.error e, s') → ∀ id, e ≠ .blockNotFound id :=
  Reached.array (smallRead_reached _)

theorem access_sim (HM : HonestStore M) (HP : HonestStore P) (logicalId : UInt64) (update : Update) :
    Eff.Sim (Rel (ρ := ρ) (HM.metaContract p) (HP.payloadContract p)) (CircuitOram.access logicalId update)
      (Blocks.access logicalId update .none) :=
  fun _ _ h => (access_outcome h logicalId update).honest

/-- A batch and the accesses it stands for, in order: one succeeds when the other does, with
    the same outputs, the same controller and the same pages. -/
theorem Reached.accessBatch_refines (h : Reached p HM HP HS Fails s v) {logicalIds : List UInt64}
    (hids : ∀ id ∈ logicalIds, id.toNat < p.logicalBlocks) (update : Nat → UInt64 → Update) :
    let one := CircuitOram.accessBatch logicalIds update s
    let each := Eff.forEach (fun r => CircuitOram.access r.1 r.2) (batchRequests update 0 logicalIds) s
    ((∃ outs s₁, one = (.ok outs, s₁)) ↔ ∃ outs s₂, each = (.ok outs, s₂)) ∧
      ∀ outs₁ s₁ outs₂ s₂, one = (.ok outs₁, s₁) → each = (.ok outs₂, s₂) →
        outs₁ = outs₂ ∧ s₁.toController = s₂.toController ∧ SamePages HM HP p s₁ s₂ := by
  intro one each
  obtain ⟨b, hr, hs⟩ := h.sound
  obtain ⟨hone, hone'⟩ := (accessBatch_outcome hr logicalIds update).honest
  obtain ⟨heach, heach'⟩ := Eff.Sim.forEach (l := batchRequests update 0 logicalIds)
    (fun r _ => access_sim HM HP r.1 r.2) s b hr
  change one.1 = _ at hone
  change Rel _ _ one.2 _ at hone'
  change each.1 = (Blocks.accessAll (batchRequests update 0 logicalIds) b).1 at heach
  change Rel _ _ each.2 (Blocks.accessAll (batchRequests update 0 logicalIds) b).2 at heach'
  rcases hs.accessBatch_eq_accessAll update hids with ⟨outs, b', hb, hall⟩ | ⟨e, e', hb, hall⟩
  · rw [hb] at hone hone'
    rw [hall] at heach heach'
    refine ⟨⟨fun _ => ⟨outs, each.2, Prod.ext heach rfl⟩, fun _ => ⟨outs, one.2, Prod.ext hone rfl⟩⟩, ?_⟩
    intro outs₁ s₁ outs₂ s₂ h₁ h₂
    rw [h₁] at hone hone'
    rw [h₂] at heach heach'
    cases hone
    cases heach
    exact ⟨rfl, hone'.controller.trans heach'.controller.symm, hone'.samePages heach'⟩
  · rw [hb] at hone
    rw [hall] at heach
    refine ⟨⟨fun ⟨outs, s₁, h₁⟩ => ?_, fun ⟨outs, s₂, h₂⟩ => ?_⟩, fun outs₁ s₁ _ _ h₁ _ => ?_⟩
    · rw [h₁] at hone; cases hone
    · rw [h₂] at heach; cases heach
    · rw [h₁] at hone; cases hone

theorem accessBatch_refines_smallRead :
    let one := CircuitOram.accessBatch [1, 0, 1] (fun _ _ => .copyFrom [9]) smallRead
    let each := Eff.forEach (fun r => CircuitOram.access r.1 r.2) (batchRequests (fun _ _ => .copyFrom [9]) 0 [1, 0, 1]) smallRead
    ((∃ outs s₁, one = (.ok outs, s₁)) ↔ ∃ outs s₂, each = (.ok outs, s₂)) ∧
      ∀ outs₁ s₁ outs₂ s₂, one = (.ok outs₁, s₁) → each = (.ok outs₂, s₂) →
        outs₁ = outs₂ ∧ s₁.toController = s₂.toController ∧
          SamePages MemPageStore.honest MemPageStore.honest smallParams s₁ s₂ :=
  Reached.accessBatch_refines (smallRead_reached fun _ _ => True) (by simp [smallParams]) _

theorem Reached.drainEvictions_run (h : Reached p HM HP HS Fails s v) {n : UInt64}
    (hn : s.schedule.pendingEvictions = .ok n) (budget : UInt64) :
    ∃ b b' s', CircuitOram.drainEvictions budget s = (.ok (min budget n), s') ∧
      Rel (HM.metaContract p) (HP.payloadContract p) s b ∧ Rel (HM.metaContract p) (HP.payloadContract p) s' b' ∧
      Drained p b b' := by
  obtain ⟨b, hr, hs⟩ := h.sound
  have hn' : b.schedule.pendingEvictions = .ok n := by rw [← hn, congrArg Controller.schedule hr.controller]
  obtain ⟨b', hrun, hd⟩ := hs.drainEvictions hn' budget
  obtain ⟨h1, h2⟩ := (drainEvictions_outcome hr budget).honest
  rw [hrun] at h1 h2
  exact ⟨b, b', _, Prod.ext h1 rfl, hr, h2, hd⟩

/-- Draining a debt of `n` paths always succeeds: it takes what it may, moves blocks without
    losing any, and leaves the stash no fuller. -/
theorem Reached.drainEvictions_ok (h : Reached p HM HP HS Fails s v) {n : UInt64}
    (hn : s.schedule.pendingEvictions = .ok n) (budget : UInt64) :
    ∃ s' tree tree', CircuitOram.drainEvictions budget s = (.ok (min budget n), s') ∧
      StoredTree HM HP p s tree ∧ StoredTree HM HP p s' tree' ∧
      treeBlocks p tree' + occ s'.stash = treeBlocks p tree + occ s.stash ∧
      s'.stash.countP (·.occupied) ≤ s.stash.countP (·.occupied) := by
  obtain ⟨b, b', s', hrun, hr, hr', hd⟩ := h.drainEvictions_run hn budget
  have hstash : s.stash = b.stash := congrArg Controller.stash hr.controller
  have hstash' : s'.stash = b'.stash := congrArg Controller.stash hr'.controller
  refine ⟨s', b.tree, b'.tree, hrun, hr.stored, hr'.stored, ?_, ?_⟩
  · rw [hstash, hstash']
    exact hd.blocks
  · rw [hstash, hstash']
    exact hd.occupied

theorem drainEvictions_smallRead :
    ∃ s' tree tree', CircuitOram.drainEvictions 1 smallRead = (.ok (min 1 2), s') ∧
      StoredTree MemPageStore.honest MemPageStore.honest smallParams smallRead tree ∧
      StoredTree MemPageStore.honest MemPageStore.honest smallParams s' tree' ∧
      treeBlocks smallParams tree' + occ s'.stash = treeBlocks smallParams tree + occ smallRead.stash ∧
      s'.stash.countP (·.occupied) ≤ smallRead.stash.countP (·.occupied) :=
  Reached.drainEvictions_ok (smallRead_reached fun _ _ => True) (by decide +kernel) 1

end
end BpirOram
