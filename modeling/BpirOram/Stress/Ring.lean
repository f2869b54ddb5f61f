/-
  BpirOram.Stress.Ring — the simulator of `ring_stress.rs` and its runs.

  Every bucket has `dummy_slots` dummies and counts its reads since it was last shuffled. An
  access reads the path of the leaf its block had; a path is evicted every `eviction_period`
  accesses; then the buckets of the path that have no dummy left are shuffled, the deepest
  first. The tree is the one of `stress.rs`.
  - `RingStressSim.Worn`: the counters, with the buckets that may have no dummy left: none
    between two steps, those of the path just read within one.
  - `RingStressConfig.ring_invariant`: what a run of any length leaves, and each call in it.
-/

import BpirOram.Merkle.Planner
import BpirOram.Stress.CircuitRun

namespace BpirOram

open Lib

structure RingStressSim extends SimTree where
  readCounters : List UInt32
  initStash : Nat
  maxReadCounter : UInt32
  deriving DecidableEq, Repr

/-- `saturating_add(1)`. -/
def saturatingSucc (n : UInt32) : UInt32 := if n.toNat + 1 < 2 ^ 32 then n + 1 else n

namespace RingStressSim

def onTree {α : Type} : Eff Error SimTree α → Eff Error RingStressSim α :=
  Eff.zoom (·.toSimTree) fun tree s => { s with toSimTree := tree }

def countRead (nodeIdx : Nat) : Eff Error RingStressSim Unit := do
  let s ← Eff.get
  let counter ← Eff.lift (okOr s.readCounters[nodeIdx]? (.panic "index out of bounds"))
  Eff.modify fun s =>
    { s with
      readCounters := s.readCounters.set nodeIdx (saturatingSucc counter)
      maxReadCounter := max s.maxReadCounter (saturatingSucc counter) }

def clearCounter (nodeIdx : Nat) : Eff Error RingStressSim Unit := do
  let s ← Eff.get
  Eff.ensure (nodeIdx < s.readCounters.length) (.panic "index out of bounds")
  Eff.modify fun s => { s with readCounters := s.readCounters.set nodeIdx 0 }

variable {ρ : Type} [SimRng ρ]

def new (p : OramParams) (seed : FixedBytes 32) : Result RingStressSim :=
  if p.bucketCount * p.bucketSize ≥ 2 ^ 64 then .error (.invalidParams "tree slot count overflow")
  else
    let empty : SimTree :=
      { params := p
        slots := List.replicate (p.bucketCount * p.bucketSize) emptyBlock
        positionMap := []
        stash := [] }
    let run := Eff.forEach CircuitStressSim.placeNext (List.range p.logicalBlocks) (empty, (Rng.fromSeed seed : ρ))
    run.1.map fun _ =>
      { run.2.1 with
        readCounters := List.replicate p.bucketCount 0, initStash := run.2.1.stash.length, maxReadCounter := 0 }

/-- The path that was read. -/
def access (logicalId : UInt32) : Eff Error (RingStressSim × ρ) (List (Nat × Nat)) := do
  let oldLeaf ← Eff.zoom (fun s => (s.1.toSimTree, s.2)) (fun t s => ({ s.1 with toSimTree := t.1 }, t.2))
    (CircuitStressSim.accessBlock logicalId)
  let s ← Eff.get
  let path := SimTree.path s.1.params oldLeaf
  let _ ← Eff.zoom (·.1) (fun sim s => (sim, s.2)) (Eff.forEach (fun node : Nat × Nat => countRead node.2) path)
  pure path

/-- A bucket moved to the stash, with all its dummies back. -/
def readAndClear (nodeIdx : Nat) : Eff Error RingStressSim Unit := do
  onTree (SimTree.readBucketIntoStash nodeIdx)
  clearCounter nodeIdx

def evictPath (leaf : UInt32) : Eff Error RingStressSim Unit := do
  let s ← Eff.get
  let path := SimTree.path s.params leaf
  let _ ← Eff.forEach (fun node : Nat × Nat => readAndClear node.2) path
  onTree (SimTree.writeFromEnd path)

def reshuffleBucket (depth nodeIdx : Nat) : Eff Error RingStressSim Unit := do
  readAndClear nodeIdx
  onTree (SimTree.writeBucketFromStash depth nodeIdx)

end RingStressSim

structure RingStressConfig where
  params : OramParams
  dummySlots : Nat
  ops : Nat
  warmupOps : Nat
  pattern : CircuitStressPattern
  seed : FixedBytes 32
  evictionPeriod : Nat
  cacheLevels : Nat
  authStore : Bool
  authTrustedLevels : Nat
  authHashPageSize : Nat

/-- What `stress_ring` keeps while it runs. -/
structure RingStress (ρ : Type) where
  sim : RingStressSim
  rng : ρ
  samples : List Nat
  overflowSamples : Nat
  completedEvictions : Nat
  measuredEvictions : Nat
  earlyReshuffleBuckets : Nat
  measuredEarlyReshuffleBuckets : Nat
  measuredUncachedEarlyReshuffleBuckets : Nat

namespace RingStress

variable {ρ : Type}

def onSim {α : Type} : Eff Error RingStressSim α → Eff Error (RingStress ρ) α :=
  Eff.zoom (·.sim) fun sim s => { s with sim }

def onRng {α : Type} : Eff Error ρ α → Eff Error (RingStress ρ) α := Eff.zoom (·.rng) fun rng s => { s with rng }

def access [SimRng ρ] (logicalId : UInt32) : Eff Error (RingStress ρ) (List (Nat × Nat)) :=
  Eff.zoom (fun s => (s.sim, s.rng)) (fun t s => { s with sim := t.1, rng := t.2 }) (RingStressSim.access logicalId)

def addSample (stashCapacity : Nat) : Eff Error (RingStress ρ) Unit :=
  Eff.modify fun s =>
    { s with
      samples := s.samples ++ [s.sim.stash.length]
      overflowSamples := s.overflowSamples + if s.sim.stash.length > stashCapacity then 1 else 0 }

def countEviction (measured : Bool) : Eff Error (RingStress ρ) Unit :=
  Eff.modify fun s =>
    { s with
      completedEvictions := s.completedEvictions + 1
      measuredEvictions := s.measuredEvictions + if measured then 1 else 0 }

def countReshuffle (measured uncached : Bool) : Eff Error (RingStress ρ) Unit :=
  Eff.modify fun s =>
    { s with
      earlyReshuffleBuckets := s.earlyReshuffleBuckets + 1
      measuredEarlyReshuffleBuckets := s.measuredEarlyReshuffleBuckets + if measured then 1 else 0
      measuredUncachedEarlyReshuffleBuckets :=
        s.measuredUncachedEarlyReshuffleBuckets + if measured && uncached then 1 else 0 }

end RingStress

namespace RingStressConfig

open RingStress

def validateConfig (config : RingStressConfig) : Result Unit :=
  let treeSlots := config.params.bucketCount * config.params.bucketSize
  if config.params.logicalBlocks > 2 ^ 32 - 1 then
    .error (.invalidParams "Ring stress simulator supports at most u32::MAX logical blocks")
  else if config.dummySlots = 0 then .error (.invalidParams "dummy_slots must be > 0")
  else if config.dummySlots > 2 ^ 32 - 1 then .error (.invalidParams "dummy_slots must fit in u32 read counters")
  else if config.evictionPeriod = 0 then .error (.invalidParams "eviction_period must be > 0")
  else if config.authHashPageSize < 32 then .error (.invalidParams "auth_hash_page_size must be at least 32")
  else if treeSlots ≥ 2 ^ 64 then .error (.invalidParams "tree slot count overflow")
  else if config.params.logicalBlocks > treeSlots then
    .error (.invalidParams s!"logical blocks {config.params.logicalBlocks} exceed Ring real tree slots {treeSlots}")
  else if config.authStore then
    (merkleHashTouchCost config.params.bucketCount config.authTrustedLevels).map fun _ => ()
  else .ok ()

/-- A simulator before the first step. -/
def start (ρ : Type) [SimRng ρ] (config : RingStressConfig) : Result (RingStress ρ) := do
  config.validateConfig
  let sim ← RingStressSim.new (ρ := ρ) config.params config.seed
  .ok
    { sim, rng := Rng.fromSeed config.seed, samples := [], overflowSamples := 0, completedEvictions := 0
      measuredEvictions := 0, earlyReshuffleBuckets := 0, measuredEarlyReshuffleBuckets := 0
      measuredUncachedEarlyReshuffleBuckets := 0 }

variable {ρ : Type} [SimRng ρ]

/-- `eviction_leaf_at`, which is `reverse_bits_mod` of `circuit.rs`. -/
def evictionLeafAt (p : OramParams) (evictionIndex : UInt64) : UInt32 := reverseBitsMod evictionIndex p.leafBits

/-- The eviction that falls due every `eviction_period` steps. -/
def evictIfDue (config : RingStressConfig) (step : Nat) (measured : Bool) : Eff Error (RingStress ρ) Unit :=
  if (step + 1) % config.evictionPeriod = 0 then do
    let s ← Eff.get
    onSim (RingStressSim.evictPath (evictionLeafAt config.params (UInt64.ofNat s.completedEvictions)))
    countEviction measured
  else pure ()

/-- One turn of the loop over the path that was read. -/
def reshuffleIfWorn (config : RingStressConfig) (measured : Bool) (node : Nat × Nat) : Eff Error (RingStress ρ) Unit := do
  let s ← Eff.get
  let counter ← Eff.lift (okOr s.sim.readCounters[node.2]? (.panic "index out of bounds"))
  if counter < UInt32.ofNat config.dummySlots then pure ()
  else do
    onSim (RingStressSim.reshuffleBucket node.1 node.2)
    countReshuffle measured (decide (node.1 ≥ min config.cacheLevels config.params.height))

/-- The body of the loop. -/
def step (config : RingStressConfig) (step : Nat) : Eff Error (RingStress ρ) Unit := do
  let measuredStep := decide (step ≥ config.warmupOps)
  let logicalId ← onRng (nextLogicalId config.pattern step config.params.logicalBlocks)
  let readPath ← access logicalId
  config.evictIfDue step measuredStep
  let _ ← Eff.forEach (config.reshuffleIfWorn measuredStep) readPath.reverse
  if measuredStep then addSample config.params.stashCapacity else pure ()

/-- The first `steps` turns of the loop. -/
def run (config : RingStressConfig) (steps : Nat) : Eff Error (RingStress ρ) (List Unit) :=
  Eff.forEach config.step (List.range steps)

/-- Up to the report and its estimates. -/
def stressRing (ρ : Type) [SimRng ρ] (config : RingStressConfig) : Result (RingStress ρ) := do
  let s ← config.start ρ
  let out := config.run (config.warmupOps + config.ops) s
  let _ ← out.1
  .ok out.2

end RingStressConfig

/-! ## Counters -/

namespace RingStressSim

variable {ρ : Type} [SimRng ρ] {p : OramParams} {dummySlots : Nat} {hot hot' : Nat → Prop} {sim : RingStressSim}

/-- Every bucket was read at most `dummySlots` times since it was shuffled, and fewer times
    outside of `hot`. -/
structure Worn (p : OramParams) (dummySlots : Nat) (hot : Nat → Prop) (sim : RingStressSim) : Prop where
  length : sim.readCounters.length = p.bucketCount
  le : ∀ (i : Nat) (c : UInt32), sim.readCounters[i]? = some c → c.toNat ≤ dummySlots
  hot : ∀ (i : Nat) (c : UInt32), sim.readCounters[i]? = some c → ¬ c.toNat < dummySlots → hot i
  max_le : sim.maxReadCounter.toNat ≤ dummySlots

theorem Worn.mono (h : sim.Worn p dummySlots hot) (hsub : ∀ i, hot i → hot' i) : sim.Worn p dummySlots hot' :=
  ⟨h.length, h.le, fun i c hi hc => hsub i (h.hot i c hi hc), h.max_le⟩

/-- The counters do not look at the tree. -/
theorem Worn.onTree (h : sim.Worn p dummySlots hot) (tree : SimTree) : Worn p dummySlots hot { sim with toSimTree := tree } :=
  ⟨h.length, h.le, h.hot, h.max_le⟩

theorem saturatingSucc_le {c : UInt32} (h : c.toNat < dummySlots) : (saturatingSucc c).toNat ≤ dummySlots := by
  rw [saturatingSucc]
  by_cases hroom : c.toNat + 1 < 2 ^ 32
  · rw [if_pos hroom, UInt32.toNat_add, UInt32.toNat_one, Nat.mod_eq_of_lt hroom]
    exact h
  · rw [if_neg hroom]
    exact Nat.le_of_lt h

/-- A bucket with a dummy left is read once more. -/
theorem countRead_worn (h : sim.Worn p dummySlots hot) {nodeIdx : Nat} (hlt : nodeIdx < p.bucketCount) (hcool : ¬ hot nodeIdx) :
    ∃ sim', countRead nodeIdx sim = (.ok (), sim') ∧ sim'.toSimTree = sim.toSimTree ∧
      sim'.Worn p dummySlots fun i => hot i ∨ i = nodeIdx := by
  have hlt' : nodeIdx < sim.readCounters.length := h.length.symm ▸ hlt
  obtain ⟨c, hc⟩ : ∃ c, sim.readCounters[nodeIdx]? = some c := ⟨_, List.getElem?_eq_getElem hlt'⟩
  have hle : (saturatingSucc c).toNat ≤ dummySlots := by
    refine saturatingSucc_le (Classical.not_not.mp fun hge => hcool (h.hot nodeIdx c hc hge))
  have hrun : countRead nodeIdx sim = (.ok (),
      { sim with
        readCounters := sim.readCounters.set nodeIdx (saturatingSucc c)
        maxReadCounter := max sim.maxReadCounter (saturatingSucc c) }) := by
    rw [countRead, Eff.get_bind, hc]
    rfl
  refine ⟨_, hrun, rfl, List.length_set.trans h.length, fun i d hd => ?_, fun i d hd hge => ?_, ?_⟩
  · by_cases hi : i = nodeIdx
    · subst hi
      rw [List.getElem?_set_self hlt'] at hd
      cases hd
      exact hle
    · rw [List.getElem?_set_ne (Ne.symm hi)] at hd
      exact h.le i d hd
  · by_cases hi : i = nodeIdx
    · exact .inr hi
    · rw [List.getElem?_set_ne (Ne.symm hi)] at hd
      exact .inl (h.hot i d hd hge)
  · change (if sim.maxReadCounter ≤ saturatingSucc c then saturatingSucc c else sim.maxReadCounter).toNat ≤ dummySlots
    by_cases hmax : sim.maxReadCounter ≤ saturatingSucc c
    · rw [if_pos hmax]
      exact hle
    · rw [if_neg hmax]
      exact h.max_le

/-- A bucket that was shuffled has all its dummies. -/
theorem clearCounter_worn (hpos : 0 < dummySlots) (h : sim.Worn p dummySlots hot) {nodeIdx : Nat}
    (hlt : nodeIdx < p.bucketCount) :
    ∃ sim', clearCounter nodeIdx sim = (.ok (), sim') ∧ sim'.toSimTree = sim.toSimTree ∧
      sim'.Worn p dummySlots fun i => hot i ∧ i ≠ nodeIdx := by
  have hlt' : nodeIdx < sim.readCounters.length := h.length.symm ▸ hlt
  have hrun : clearCounter nodeIdx sim = (.ok (), { sim with readCounters := sim.readCounters.set nodeIdx 0 }) := by
    rw [clearCounter, Eff.get_bind, Eff.ensure_of hlt']
    rfl
  refine ⟨_, hrun, rfl, List.length_set.trans h.length, fun i c hc => ?_, fun i c hc hge => ?_, h.max_le⟩
  · by_cases hi : i = nodeIdx
    · subst hi
      rw [List.getElem?_set_self hlt'] at hc
      cases hc
      exact Nat.zero_le _
    · rw [List.getElem?_set_ne (Ne.symm hi)] at hc
      exact h.le i c hc
  · by_cases hi : i = nodeIdx
    · subst hi
      rw [List.getElem?_set_self hlt'] at hc
      cases hc
      exact absurd hpos hge
    · rw [List.getElem?_set_ne (Ne.symm hi)] at hc
      exact ⟨h.hot i c hc hge, hi⟩

/-! ## Calls -/

/-- The tree, with the counters. -/
structure Ready (p : OramParams) (dummySlots : Nat) (hot : Nat → Prop) (sim : RingStressSim) : Prop where
  full : sim.toSimTree.Full p
  worn : sim.Worn p dummySlots hot

/-- Every bucket has a dummy left. -/
def Rested (dummySlots : Nat) (sim : RingStressSim) : Prop := ∀ counter ∈ sim.readCounters, counter.toNat < dummySlots

theorem Ready.rested (h : sim.Ready p dummySlots fun _ => False) : sim.Rested dummySlots := by
  intro c hc
  obtain ⟨i, hi⟩ := List.mem_iff_getElem?.mp hc
  exact Classical.not_not.mp fun hge => h.worn.hot i c hi hge

theorem Ready.rest (h : sim.Ready p dummySlots hot) (hrested : sim.Rested dummySlots) : sim.Ready p dummySlots fun _ => False :=
  ⟨h.full, h.worn.length, h.worn.le, fun _ c hi hge => hge (hrested c (List.mem_of_getElem? hi)), h.worn.max_le⟩

theorem new_ready (hsmall : p.logicalBlocks ≤ emptyBlock.toNat) (hslots : p.bucketCount * p.bucketSize < 2 ^ 64)
    (hpos : 0 < dummySlots) (seed : FixedBytes 32) :
    ∃ sim, RingStressSim.new (ρ := ρ) p seed = .ok sim ∧ sim.Ready p dummySlots fun _ => False := by
  obtain ⟨us, t, rng, hrun, ht, hlen⟩ := SimTree.Placed.placeAll (p := p) hsmall (Rng.fromSeed seed : ρ)
  refine ⟨{ t with readCounters := List.replicate p.bucketCount 0, initStash := t.stash.length, maxReadCounter := 0 }, ?_,
    { ht with all := hlen }, List.length_replicate, fun i c hc => ?_, fun i c hc hge => ?_, Nat.zero_le _⟩
  · rw [RingStressSim.new, if_neg (by omega)]
    simp only [hrun]
    rfl
  · rw [List.eq_of_mem_replicate (List.mem_of_getElem? hc)]
    exact Nat.zero_le _
  · rw [List.eq_of_mem_replicate (List.mem_of_getElem? hc)] at hge
    exact hge hpos

/-- The reads of nodes with a dummy left. -/
theorem countPath_worn {l : List (Nat × Nat)} (hlt : ∀ x ∈ l, x.2 < p.bucketCount) (hn : (l.map (·.2)).Nodup)
    (hcool : ∀ x ∈ l, ¬ hot x.2) (h : sim.Worn p dummySlots hot) : ∃ us sim',
    Eff.forEach (fun node : Nat × Nat => countRead node.2) l sim = (.ok us, sim') ∧ sim'.toSimTree = sim.toSimTree ∧
      sim'.Worn p dummySlots fun i => hot i ∨ i ∈ l.map (·.2) := by
  induction l generalizing sim hot with
  | nil => exact ⟨[], sim, rfl, rfl, h.mono fun i hi => .inl hi⟩
  | cons x l ih =>
    obtain ⟨hx, hn⟩ := List.nodup_cons.mp hn
    obtain ⟨sim₁, hone, htree, h₁⟩ := countRead_worn h (hlt x List.mem_cons_self) (hcool x List.mem_cons_self)
    have hcool₁ : ∀ y ∈ l, ¬ (hot y.2 ∨ y.2 = x.2) := by
      intro y hy hhot
      rcases hhot with hhot | he
      · exact hcool y (List.mem_cons_of_mem _ hy) hhot
      · exact hx (List.mem_map.mpr ⟨y, hy, he⟩)
    obtain ⟨us, sim₂, hrest, htree', h₂⟩ := ih (fun y hy => hlt y (List.mem_cons_of_mem _ hy)) hn hcool₁ h₁
    refine ⟨() :: us, sim₂, Eff.forEach_ok (f := fun node : Nat × Nat => countRead node.2) hone hrest, htree'.trans htree,
      h₂.mono fun i hi => ?_⟩
    rcases hi with (hi | hi) | hi
    · exact .inl hi
    · exact .inr (hi ▸ List.mem_cons_self)
    · exact .inr (List.mem_cons_of_mem _ hi)

theorem access_ready (h : sim.Ready p dummySlots fun _ => False) {logicalId : UInt32}
    (hid : logicalId.toNat < p.logicalBlocks) (rng : ρ) : ∃ leaf sim' rng', leaf.toNat < p.leaves ∧
      access logicalId (sim, rng) = (.ok (SimTree.path p leaf), (sim', rng')) ∧
      sim'.Ready p dummySlots fun i => i ∈ p.pathNodes leaf := by
  obtain ⟨leaf, hleaf⟩ : ∃ leaf, sim.positionMap.getD logicalId.toNat 0 = leaf := ⟨_, rfl⟩
  have hlt : logicalId.toNat < sim.positionMap.length := h.full.all ▸ hid
  have hleafLt : leaf.toNat < p.leaves := by
    refine h.full.leaves leaf ?_
    rw [← hleaf, List.getD_eq_getElem?_getD, List.getElem?_eq_getElem hlt]
    exact List.getElem_mem hlt
  obtain ⟨t, rng', hrun, ht, htlen⟩ := h.full.toPlaced.access hlt hleaf rng
  have hfull : t.Full p := { ht with all := htlen.trans h.full.all }
  have hn : ((SimTree.path p leaf).map (·.2)).Nodup := by
    rw [SimTree.path_nodes]
    exact p.pathNodes_nodup hleafLt
  obtain ⟨us, sim', hcount, htree, hworn⟩ := countPath_worn (SimTree.path_lt hleafLt) hn (fun _ _ hhot => hhot)
    (h.worn.onTree t)
  refine ⟨leaf, sim', rng', hleafLt, ?_, htree ▸ hfull, hworn.mono fun i hi => ?_⟩
  · have hzoom : Eff.zoom (fun s : RingStressSim × ρ => (s.1.toSimTree, s.2))
        (fun t s => ({ s.1 with toSimTree := t.1 }, t.2)) (CircuitStressSim.accessBlock logicalId) (sim, rng)
        = (.ok leaf, ({ sim with toSimTree := t }, rng')) := by simp only [Eff.zoom, hrun]
    have hloop : Eff.zoom (fun s : RingStressSim × ρ => s.1) (fun sim s => (sim, s.2))
        (Eff.forEach (fun node : Nat × Nat => countRead node.2) (SimTree.path p leaf)) ({ sim with toSimTree := t }, rng')
        = (.ok us, (sim', rng')) := Eff.zoom_of hcount
    rw [access, Eff.bind_ok hzoom, Eff.get_bind]
    simp only [ht.shape.params]
    rw [Eff.bind_ok hloop]
    rfl
  · rw [← SimTree.path_nodes]
    exact hi.resolve_left fun hf => hf

/-- Reading nodes and clearing their counters is the reading of the tree. -/
theorem readAndClear_run (hpos : 0 < dummySlots) {l : List (Nat × Nat)} (hlt : ∀ x ∈ l, x.2 < p.bucketCount) {us : List Unit}
    {t : SimTree} (h : sim.Worn p dummySlots hot)
    (hread : Eff.forEach (fun node : Nat × Nat => SimTree.readBucketIntoStash node.2) l sim.toSimTree = (.ok us, t)) :
    ∃ sim', Eff.forEach (fun node : Nat × Nat => readAndClear node.2) l sim = (.ok us, sim') ∧ sim'.toSimTree = t ∧
      sim'.Worn p dummySlots fun i => hot i ∧ i ∉ l.map (·.2) := by
  induction l generalizing sim hot us with
  | nil =>
    cases hread
    exact ⟨sim, rfl, rfl, h.mono fun i hi => ⟨hi, List.not_mem_nil⟩⟩
  | cons x l ih =>
    obtain ⟨u, t₁, hone, hread⟩ := Eff.bind_eq_ok hread
    obtain ⟨us', t₂, hread, hlast⟩ := Eff.bind_eq_ok hread
    cases hlast
    have hzoom : onTree (SimTree.readBucketIntoStash x.2) sim = (.ok u, { sim with toSimTree := t₁ }) := Eff.zoom_of hone
    obtain ⟨sim₁, hclear, htree, h₁⟩ := clearCounter_worn hpos (h.onTree t₁) (hlt x List.mem_cons_self)
    have hfirst : readAndClear x.2 sim = (.ok (), sim₁) := by rw [readAndClear, Eff.bind_ok hzoom, hclear]
    obtain ⟨sim₂, hrest, htree', h₂⟩ := ih (fun y hy => hlt y (List.mem_cons_of_mem _ hy)) h₁
      (by rw [htree]; exact hread)
    refine ⟨sim₂, Eff.forEach_ok (f := fun node : Nat × Nat => readAndClear node.2) hfirst hrest, htree',
      h₂.mono fun i hi => ?_⟩
    rw [List.map_cons, List.mem_cons, not_or]
    exact ⟨hi.1.1, hi.1.2, hi.2⟩

/-- A path is emptied and filled: the same blocks, no more of them in the stash, and its
    buckets have all their dummies. -/
theorem evictPath_ready (hpos : 0 < dummySlots) (h : sim.Ready p dummySlots hot) {leaf : UInt32} (hleaf : leaf.toNat < p.leaves) :
    ∃ sim', evictPath leaf sim = (.ok (), sim') ∧ sim'.Ready p dummySlots hot ∧ sim'.held p = sim.held p ∧
      sim'.stash.length ≤ sim.stash.length := by
  obtain ⟨us, t, u, hread, hwrite, -, hu, hsame, hpm, hle⟩ := h.full.toPlaced.refill hleaf (List.Sublist.refl _)
  obtain ⟨sim₁, hrun, htree, hworn⟩ := readAndClear_run hpos (SimTree.path_lt hleaf) h.worn hread
  have hfull : u.Full p := { hu with all := (congrArg List.length hpm).trans h.full.all }
  have hput : onTree (SimTree.writeFromEnd (SimTree.path p leaf)) sim₁ = (.ok (), { sim₁ with toSimTree := u }) := by
    rw [← htree] at hwrite
    exact Eff.zoom_of hwrite
  refine ⟨{ sim₁ with toSimTree := u }, ?_, ⟨hfull, (hworn.mono fun _ hi => hi.1).onTree u⟩, hsame, hle⟩
  rw [evictPath, Eff.get_bind]
  simp only [h.full.shape.params]
  rw [Eff.bind_ok hrun, hput]

/-- So is one bucket. -/
theorem reshuffleBucket_ready (hpos : 0 < dummySlots) (h : sim.Ready p dummySlots hot) {leaf : UInt32}
    (hleaf : leaf.toNat < p.leaves) {x : Nat × Nat} (hx : x ∈ SimTree.path p leaf) :
    ∃ sim', reshuffleBucket x.1 x.2 sim = (.ok (), sim') ∧ sim'.Ready p dummySlots (fun i => hot i ∧ i ≠ x.2) ∧
      sim'.held p = sim.held p ∧ sim'.stash.length ≤ sim.stash.length := by
  obtain ⟨us, t, u, hread, hwrite, -, hu, hsame, hpm, hle⟩ := h.full.toPlaced.refill hleaf (List.singleton_sublist.mpr hx)
  have hlt : ∀ y ∈ [x], y.2 < p.bucketCount := by
    intro y hy
    rw [List.mem_singleton.mp hy]
    exact SimTree.path_lt hleaf x hx
  obtain ⟨sim₁, hrun, htree, hworn⟩ := readAndClear_run hpos hlt h.worn hread
  obtain ⟨_, _, hone, hnil⟩ := Eff.bind_eq_ok hrun
  cases hnil
  have hfull : u.Full p := { hu with all := (congrArg List.length hpm).trans h.full.all }
  have hput : onTree (SimTree.writeBucketFromStash x.1 x.2) sim₁ = (.ok (), { sim₁ with toSimTree := u }) := by
    rw [← htree] at hwrite
    exact Eff.zoom_of hwrite
  refine ⟨{ sim₁ with toSimTree := u }, ?_, ⟨hfull, (hworn.mono fun i hi => ⟨hi.1, ?_⟩).onTree u⟩, hsame, hle⟩
  · rw [reshuffleBucket, Eff.bind_ok hone, hput]
  · exact fun he => hi.2 (he ▸ List.mem_cons_self)

/-- The simulators that calls make of a new one, in any order, when no access starts before
    every bucket has a dummy left. -/
inductive Reached (ρ : Type) [SimRng ρ] (p : OramParams) (dummySlots : Nat) : RingStressSim → Prop
  | new {seed : FixedBytes 32} {sim : RingStressSim} : RingStressSim.new (ρ := ρ) p seed = .ok sim →
    Reached ρ p dummySlots sim
  | access {sim sim' : RingStressSim} {logicalId : UInt32} {rng rng' : ρ} {path : List (Nat × Nat)} :
      Reached ρ p dummySlots sim → sim.Rested dummySlots → logicalId.toNat < p.logicalBlocks →
      access logicalId (sim, rng) = (.ok path, (sim', rng')) → Reached ρ p dummySlots sim'
  | evictPath {sim sim' : RingStressSim} {leaf : UInt32} : Reached ρ p dummySlots sim → leaf.toNat < p.leaves →
      evictPath leaf sim = (.ok (), sim') → Reached ρ p dummySlots sim'
  | reshuffleBucket {sim sim' : RingStressSim} {leaf : UInt32} {x : Nat × Nat} : Reached ρ p dummySlots sim →
      leaf.toNat < p.leaves → x ∈ SimTree.path p leaf → reshuffleBucket x.1 x.2 sim = (.ok (), sim') →
      Reached ρ p dummySlots sim'

theorem Reached.ready (h : Reached ρ p dummySlots sim) (hsmall : p.logicalBlocks ≤ emptyBlock.toNat)
    (hslots : p.bucketCount * p.bucketSize < 2 ^ 64) (hpos : 0 < dummySlots) : sim.Ready p dummySlots fun _ => True := by
  have hall : ∀ {s : RingStressSim} {hot : Nat → Prop}, s.Ready p dummySlots hot → s.Ready p dummySlots fun _ => True :=
    fun hs => ⟨hs.full, hs.worn.mono fun _ _ => trivial⟩
  induction h with
  | @new seed sim hnew =>
    obtain ⟨sim', hrun, hready⟩ := new_ready (ρ := ρ) hsmall hslots hpos seed
    rw [hnew] at hrun
    cases hrun
    exact hall hready
  | @access sim sim' logicalId rng rng' path _ hrested hid hrun ih =>
    obtain ⟨leaf, t, rng'', -, hrun', hready⟩ := access_ready (ih.rest hrested) hid rng
    rw [hrun] at hrun'
    cases hrun'
    exact hall hready
  | @evictPath sim sim' leaf _ hleaf hrun ih =>
    obtain ⟨t, hrun', hready, -⟩ := evictPath_ready hpos ih hleaf
    rw [hrun] at hrun'
    cases hrun'
    exact hready
  | @reshuffleBucket sim sim' leaf x _ hleaf hx hrun ih =>
    obtain ⟨t, hrun', hready, -⟩ := reshuffleBucket_ready hpos ih hleaf hx
    rw [hrun] at hrun'
    cases hrun'
    exact hall hready

end RingStressSim

/-! ## One step -/

namespace RingStressConfig

open RingStress

variable {ρ : Type} [SimRng ρ] {config : RingStressConfig} {hot : Nat → Prop}

/-- Within a step, with the buckets that may have no dummy left. -/
structure Within (config : RingStressConfig) (hot : Nat → Prop) (s : RingStress ρ) : Prop where
  reached : RingStressSim.Reached ρ config.params config.dummySlots s.sim
  ready : s.sim.Ready config.params config.dummySlots hot

def Between (config : RingStressConfig) (s : RingStress ρ) : Prop := config.Within (fun _ => False) s

/-- Only an empty tree stops a run. -/
def Stopped (config : RingStressConfig) (e : Error) (s : RingStress ρ) : Prop :=
  RingStressSim.Reached ρ config.params config.dummySlots s.sim ∧ config.params.logicalBlocks = 0 ∧
    e = .panic "attempt to calculate the remainder with a divisor of zero"

structure Accepted (config : RingStressConfig) : Prop where
  small : config.params.logicalBlocks ≤ emptyBlock.toNat
  slots : config.params.bucketCount * config.params.bucketSize < 2 ^ 64
  dummies : 0 < config.dummySlots
  counters : config.dummySlots < 2 ^ 32

theorem validateConfig_ok (h : config.validateConfig = .ok ()) : config.Accepted := by
  unfold validateConfig at h
  simp only at h
  split at h
  · cases h
  · rename_i hsmall
    split at h
    · cases h
    · rename_i hdummies
      split at h
      · cases h
      · rename_i hcounters
        split at h
        · cases h
        · split at h
          · cases h
          · split at h
            · cases h
            · rename_i hslots
              exact ⟨Nat.le_of_not_lt hsmall, by omega, Nat.pos_of_ne_zero hdummies, by omega⟩

theorem evictIfDue_triple (h : config.Accepted) (step : Nat) (measured : Bool) : Eff.Triple (config.Within hot)
    (config.evictIfDue step measured : Eff Error (RingStress ρ) Unit) (fun _ => config.Within hot) config.Stopped := by
  refine .ite (fun _ => .get_bind fun s hs => ?_) fun _ => .pure _ fun _ hs => hs
  have hleaf : (evictionLeafAt config.params (UInt64.ofNat s.completedEvictions)).toNat < config.params.leaves :=
    CircuitEvictionSchedule.evictionLeafAt_lt config.params _
  have hevict : Eff.Triple (fun t => t = s) (onSim (RingStressSim.evictPath
      (evictionLeafAt config.params (UInt64.ofNat s.completedEvictions))) : Eff Error (RingStress ρ) Unit)
      (fun _ => config.Within hot) config.Stopped := by
    refine .zoom fun t ht => ?_
    subst ht
    obtain ⟨sim', hrun, hready, -⟩ := RingStressSim.evictPath_ready h.dummies hs.ready hleaf
    exact .inl ⟨(), sim', hrun, hs.reached.evictPath hleaf hrun, hready⟩
  exact hevict.bind fun _ => .modify fun t ht => ⟨ht.reached, ht.ready⟩

/-- A turn of the loop leaves its bucket with a dummy. -/
theorem reshuffleIfWorn_triple (h : config.Accepted) (measured : Bool) {leaf : UInt32} (hleaf : leaf.toNat < config.params.leaves)
    {x : Nat × Nat} (hx : x ∈ SimTree.path config.params leaf) : Eff.Triple (config.Within hot)
    (config.reshuffleIfWorn measured x : Eff Error (RingStress ρ) Unit)
    (fun _ => config.Within fun i => hot i ∧ i ≠ x.2) config.Stopped := by
  refine .get_bind fun s hs => ?_
  have hlt : x.2 < s.sim.readCounters.length := hs.ready.worn.length.symm ▸ SimTree.path_lt hleaf x hx
  obtain ⟨c, hc⟩ : ∃ c, s.sim.readCounters[x.2]? = some c := ⟨_, List.getElem?_eq_getElem hlt⟩
  have hdummies : (UInt32.ofNat config.dummySlots).toNat = config.dummySlots := by
    rw [UInt32.toNat_ofNat', Nat.mod_eq_of_lt h.counters]
  intro t ht
  subst ht
  rw [hc]
  simp only [okOr, Eff.lift_ok_bind, Eff.ite_apply]
  by_cases hcool : c < UInt32.ofNat config.dummySlots
  · rw [if_pos hcool]
    refine .inl ⟨(), t, rfl, hs.reached, hs.ready.full, hs.ready.worn.length, hs.ready.worn.le, fun i d hd hge => ?_,
      hs.ready.worn.max_le⟩
    refine ⟨hs.ready.worn.hot i d hd hge, fun hi => hge ?_⟩
    rw [hi, hc] at hd
    cases hd
    exact hdummies ▸ UInt32.lt_iff_toNat_lt.mp hcool
  · rw [if_neg hcool]
    obtain ⟨sim', hrun, hready, -⟩ := RingStressSim.reshuffleBucket_ready h.dummies hs.ready hleaf hx
    have hsim : onSim (RingStressSim.reshuffleBucket x.1 x.2) t = (.ok (), { t with sim := sim' }) := Eff.zoom_of hrun
    rw [Eff.bind_ok hsim]
    exact .inl ⟨(), _, rfl, hs.reached.reshuffleBucket hleaf hx hrun, hready⟩

/-- Going through the path that was read leaves no bucket without a dummy. -/
theorem reshuffles_triple (h : config.Accepted) (measured : Bool) {leaf : UInt32} (hleaf : leaf.toNat < config.params.leaves) :
    Eff.Triple (config.Within fun i => i ∈ config.params.pathNodes leaf)
      (Eff.forEach (config.reshuffleIfWorn measured) (SimTree.path config.params leaf).reverse :
        Eff Error (RingStress ρ) (List Unit))
      (fun _ => config.Between) config.Stopped := by
  have hloop : Eff.Triple (config.Within fun i => i ∈ (SimTree.path config.params leaf).reverse.map (·.2))
      (Eff.forEach (config.reshuffleIfWorn measured) (SimTree.path config.params leaf).reverse :
        Eff Error (RingStress ρ) (List Unit))
      (fun _ => config.Within fun i => i ∈ ([] : List (Nat × Nat)).map (·.2)) config.Stopped := by
    refine Eff.Triple.forEach_rest (I := fun rest : List (Nat × Nat) => config.Within (ρ := ρ) fun i => i ∈ rest.map (·.2))
      fun x rest hsuffix => ?_
    have hx : x ∈ SimTree.path config.params leaf := List.mem_reverse.mp (hsuffix.subset List.mem_cons_self)
    refine (reshuffleIfWorn_triple h measured hleaf hx).conseq (fun _ hs => hs) (fun _ s hs => ?_) fun _ _ he => he
    refine ⟨hs.reached, hs.ready.full, hs.ready.worn.mono fun i hi => ?_⟩
    exact (List.mem_cons.mp hi.1).resolve_left hi.2
  refine hloop.conseq (fun s hs => ⟨hs.reached, hs.ready.full, hs.ready.worn.mono fun i hi => ?_⟩)
    (fun _ s hs => ⟨hs.reached, hs.ready.full, hs.ready.worn.mono fun i hi => by cases hi⟩) fun _ _ he => he
  rwa [List.map_reverse, List.mem_reverse, SimTree.path_nodes]

/-- A step keeps what holds between steps. -/
theorem step_triple (h : config.Accepted) (step : Nat) : Eff.Triple config.Between
    (config.step step : Eff Error (RingStress ρ) Unit) (fun _ => config.Between) config.Stopped := by
  have hid : Eff.Triple config.Between (onRng (nextLogicalId config.pattern step config.params.logicalBlocks) :
      Eff Error (RingStress ρ) UInt32)
      (fun id s => config.Between s ∧ id.toNat < config.params.logicalBlocks) config.Stopped := by
    refine .zoom fun s hs => ?_
    rcases nextLogicalId_run config.pattern step h.small s.rng with ⟨id, rng', hrun, hlt⟩ | ⟨hzero, rng', hrun⟩
    · exact .inl ⟨id, rng', hrun, ⟨hs.reached, hs.ready⟩, hlt⟩
    · exact .inr ⟨_, rng', hrun, hs.reached, hzero, rfl⟩
  refine hid.bind fun id => ?_
  have haccess : Eff.Triple (fun s => config.Between s ∧ id.toNat < config.params.logicalBlocks)
      (access id : Eff Error (RingStress ρ) (List (Nat × Nat)))
      (fun path s => ∃ leaf, leaf.toNat < config.params.leaves ∧ path = SimTree.path config.params leaf ∧
        config.Within (fun i => i ∈ config.params.pathNodes leaf) s) config.Stopped := by
    refine .zoom fun s hs => ?_
    obtain ⟨hs, hlt⟩ := hs
    obtain ⟨leaf, sim', rng', hleaf, hrun, hready⟩ := RingStressSim.access_ready hs.ready hlt s.rng
    exact .inl ⟨_, (sim', rng'), hrun, leaf, hleaf, rfl, hs.reached.access hs.ready.rested hlt hrun, hready⟩
  refine haccess.bind fun path => ?_
  intro s hs
  obtain ⟨leaf, hleaf, rfl, hs⟩ := hs
  refine ((evictIfDue_triple h step (decide (step ≥ config.warmupOps))).bind fun _ =>
    (reshuffles_triple h (decide (step ≥ config.warmupOps)) hleaf).bind fun _ => ?_) s hs
  exact .ite (fun _ => .modify fun t ht => ⟨ht.reached, ht.ready⟩) fun _ => .pure _ fun _ ht => ht

/-! ## Runs -/

theorem start_ok (h : config.validateConfig = .ok ()) : ∃ s, config.start ρ = .ok s ∧ config.Between s := by
  have haccepted := validateConfig_ok h
  obtain ⟨sim, hnew, hready⟩ :=
    RingStressSim.new_ready (ρ := ρ) haccepted.small haccepted.slots haccepted.dummies config.seed
  let s : RingStress ρ :=
    { sim, rng := Rng.fromSeed config.seed, samples := [], overflowSamples := 0, completedEvictions := 0
      measuredEvictions := 0, earlyReshuffleBuckets := 0, measuredEarlyReshuffleBuckets := 0
      measuredUncachedEarlyReshuffleBuckets := 0 }
  have hrun : config.start ρ = .ok s := by
    rw [start, h]
    simp only [bind, Except.bind, hnew]
    rfl
  exact ⟨s, hrun, .new hnew, hready⟩

theorem run_triple (h : config.Accepted) (n : Nat) : Eff.Triple config.Between
    (config.run n : Eff Error (RingStress ρ) (List Unit)) (fun _ => config.Between) config.Stopped :=
  Eff.Triple.forEach_range (I := fun _ => config.Between) fun k _ => step_triple h k

variable (config) in
/-- What an accepted configuration and any number of steps leave: every id stands once, on the
    path of its leaf, and every bucket has a dummy left. Within a step no counter passes
    `dummy_slots`, in whatever order evictions and reshuffles follow an access; each of them
    keeps the blocks and leaves no more of them in the stash. -/
theorem ring_invariant (h : config.validateConfig = .ok ()) :
    (∀ t, config.stressRing ρ = .ok t → t.sim.OnceOnPath config.params ∧ t.sim.Rested config.dummySlots) ∧
    (∃ s, config.start ρ = .ok s ∧ ∀ n r t, config.run n s = (r, t) →
      RingStressSim.Reached ρ config.params config.dummySlots t.sim ∧ t.sim.OnceOnPath config.params ∧
      t.sim.maxReadCounter.toNat ≤ config.dummySlots ∧ (∀ us, r = .ok us → t.sim.Rested config.dummySlots) ∧
      ∀ e, r = .error e → config.params.logicalBlocks = 0 ∧
        e = .panic "attempt to calculate the remainder with a divisor of zero") ∧
    ∀ sim, RingStressSim.Reached ρ config.params config.dummySlots sim → sim.OnceOnPath config.params ∧
      (∀ counter ∈ sim.readCounters, counter.toNat ≤ config.dummySlots) ∧
      sim.maxReadCounter.toNat ≤ config.dummySlots ∧
      (sim.Rested config.dummySlots → ∀ (logicalId : UInt32) (rng : ρ), logicalId.toNat < config.params.logicalBlocks →
        ∃ path sim' rng', RingStressSim.access logicalId (sim, rng) = (.ok path, (sim', rng'))) ∧
      ∀ leaf : UInt32, leaf.toNat < config.params.leaves →
        (∃ sim', sim.evictPath leaf = (.ok (), sim') ∧ sim'.held config.params = sim.held config.params ∧
          sim'.stash.length ≤ sim.stash.length) ∧
        ∀ depth < config.params.height,
          ∃ sim', sim.reshuffleBucket depth (config.params.nodeIndex depth leaf) = (.ok (), sim') ∧
            sim'.held config.params = sim.held config.params ∧ sim'.stash.length ≤ sim.stash.length := by
  have haccepted := validateConfig_ok h
  obtain ⟨s, hstart, hbetween⟩ := start_ok (ρ := ρ) h
  refine ⟨fun t ht => ?_, ⟨s, hstart, fun n r t hrun => ?_⟩, fun sim hsim => ?_⟩
  · obtain ⟨s', hs', hrest⟩ := bind_result_ok ht
    rw [hstart] at hs'
    cases hs'
    obtain ⟨us, hus, hrest⟩ := bind_result_ok hrest
    cases hrest
    have hdone := (run_triple haccepted _).ok hbetween (Prod.ext hus rfl)
    exact ⟨hdone.ready.full.onceOnPath, hdone.ready.rested⟩
  · have htriple := run_triple (ρ := ρ) haccepted n
    cases r with
    | ok us =>
      have ht := htriple.ok hbetween hrun
      exact ⟨ht.reached, ht.ready.full.onceOnPath, ht.ready.worn.max_le, fun _ _ => ht.ready.rested, fun e he => by cases he⟩
    | error e =>
      obtain ⟨hreached, hwhy⟩ := htriple.error hbetween hrun
      have hready := hreached.ready haccepted.small haccepted.slots haccepted.dummies
      refine ⟨hreached, hready.full.onceOnPath, hready.worn.max_le, fun _ hr => (by cases hr), fun e' he => ?_⟩
      cases he
      exact hwhy
  · have hready := hsim.ready haccepted.small haccepted.slots haccepted.dummies
    refine ⟨hready.full.onceOnPath, fun c hc => ?_, hready.worn.max_le,
      fun hrested logicalId rng hid => ?_, fun leaf hleaf => ⟨?_, ?_⟩⟩
    · obtain ⟨i, hi⟩ := List.mem_iff_getElem?.mp hc
      exact hready.worn.le i c hi
    · obtain ⟨leaf, sim', rng', -, hrun, -⟩ := RingStressSim.access_ready (hready.rest hrested) hid rng
      exact ⟨_, sim', rng', hrun⟩
    · obtain ⟨sim', hrun, -, hsame, hle⟩ := RingStressSim.evictPath_ready haccepted.dummies hready hleaf
      exact ⟨sim', hrun, hsame, hle⟩
    · intro depth hdepth
      obtain ⟨sim', hrun, -, hsame, hle⟩ := RingStressSim.reshuffleBucket_ready haccepted.dummies hready hleaf
        (x := (depth, config.params.nodeIndex depth leaf)) (SimTree.mem_path.mpr ⟨hdepth, rfl⟩)
      exact ⟨sim', hrun, hsame, hle⟩

end RingStressConfig

/-- Two accesses, and a path evicted after the second. -/
def smallRing : RingStressConfig where
  params := smallParams
  dummySlots := 1
  ops := 2
  warmupOps := 0
  pattern := .roundRobin
  seed := FixedBytes.zero 32
  evictionPeriod := 2
  cacheLevels := 0
  authStore := false
  authTrustedLevels := 1
  authHashPageSize := 32

theorem ring_invariant_small : ∃ us s t, smallRing.start ZeroSeedWords = .ok s ∧ smallRing.run 2 s = (.ok us, t) ∧
    t.sim.OnceOnPath smallParams ∧ t.sim.Rested 1 := by
  obtain ⟨-, ⟨s, hstart, hruns⟩, -⟩ := RingStressConfig.ring_invariant (ρ := ZeroSeedWords) smallRing rfl
  obtain ⟨t, hrun⟩ : ∃ t, smallRing.run 2 s = ((smallRing.run 2 s).1, t) := ⟨_, rfl⟩
  obtain ⟨-, honce, -, hrested, hstops⟩ := hruns 2 _ t hrun
  cases hr : (smallRing.run 2 s).1 with
  | error e =>
    obtain ⟨hzero, -⟩ := hstops e hr
    cases hzero
  | ok us =>
    rw [hr] at hrun
    exact ⟨us, s, t, hstart, hrun, honce, hrested us hr⟩

end BpirOram
