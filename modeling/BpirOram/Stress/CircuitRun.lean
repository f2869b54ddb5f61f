/-
  BpirOram.Stress.CircuitRun — `stress_circuit`: a run of accesses and drains.

  A step accesses one block and then drains public evictions up to three times: the paths of
  every access, a burst when the interval comes round, and one path after another while the
  debt is above the cap. The last loop has no bound of its own; each turn of it completes an
  eviction, so what is pending goes down (`forcedDrain`).
  - `CircuitStressSim.Reached`: the simulators that accesses and evictions can make, in any
    order; all of them are `Placed`.
  - `CircuitStressConfig.run_invariant`: what a run of any length leaves, and where it stops.
-/

import BpirOram.Circuit.Debt
import BpirOram.Lib.Triple
import BpirOram.Stress.Initial
import BpirOram.Stress.Placed

namespace BpirOram

open Lib

inductive CircuitStressPattern where
  | random
  | roundRobin
  deriving DecidableEq, Repr

structure CircuitStressConfig where
  params : OramParams
  ops : Nat
  warmupOps : Nat
  pattern : CircuitStressPattern
  seed : FixedBytes 32
  drainPerAccess : UInt64
  burstInterval : Nat
  burstBudget : UInt64
  maxDebt : Option UInt64

/-- What `stress_circuit` keeps while it runs. -/
structure CircuitStress (ρ : Type) where
  sim : CircuitStressSim
  schedule : CircuitEvictionSchedule
  rng : ρ
  samples : List Nat
  overflowSamples : Nat
  maxDebt : UInt64
  metadataPathScans : Nat
  payloadPathScans : Nat

variable {ρ : Type}

def nextLogicalId [Rng ρ] (pattern : CircuitStressPattern) (step logicalBlocks : Nat) : Eff Error ρ UInt32 :=
  match pattern with
  | .random => do
    let rng ← Eff.get
    let draw := Rng.nextU64 rng
    Eff.modify fun _ => draw.2
    Eff.ensure (logicalBlocks ≠ 0) (.panic "attempt to calculate the remainder with a divisor of zero")
    pure (UInt32.ofNat (draw.1.toNat % logicalBlocks))
  | .roundRobin => do
    Eff.ensure (logicalBlocks ≠ 0) (.panic "attempt to calculate the remainder with a divisor of zero")
    pure (UInt32.ofNat (step % logicalBlocks))

namespace CircuitStress

def onRng {α : Type} : Eff Error ρ α → Eff Error (CircuitStress ρ) α := Eff.zoom (·.rng) fun rng s => { s with rng }

def onSchedule {α : Type} : Eff Error CircuitEvictionSchedule α → Eff Error (CircuitStress ρ) α :=
  Eff.zoom (·.schedule) fun schedule s => { s with schedule }

def onSim {α : Type} : Eff Error CircuitStressSim α → Eff Error (CircuitStress ρ) α :=
  Eff.zoom (·.sim) fun sim s => { s with sim }

def access [SimRng ρ] (logicalId : UInt32) : Eff Error (CircuitStress ρ) Unit :=
  Eff.zoom (fun s => (s.sim, s.rng)) (fun t s => { s with sim := t.1, rng := t.2 }) (CircuitStressSim.access logicalId)

/-- The path scans of a measured step. -/
def addScans (measured : Bool) (metadata payload : Nat) : Eff Error (CircuitStress ρ) Unit :=
  if measured then
    Eff.modify fun s =>
      { s with metadataPathScans := s.metadataPathScans + metadata, payloadPathScans := s.payloadPathScans + payload }
  else pure ()

/-- The loop of `drain_public_evictions`, with `turns` turns to go. -/
def drainTurns : Nat → Nat → Eff Error (CircuitStress ρ) Nat
  | 0, drained => pure drained
  | turns + 1, drained => do
    match ← onSchedule CircuitEvictionSchedule.completeOneEviction with
    | some leaf => do
      onSim (CircuitStressSim.evictPath leaf)
      drainTurns turns (drained + 1)
    | none => pure drained

def drainPublicEvictions (budget : UInt64) : Eff Error (CircuitStress ρ) Nat := drainTurns budget.toNat 0

/-- One drain, counted. -/
def drainAndCount (measured : Bool) (budget : UInt64) : Eff Error (CircuitStress ρ) Unit := do
  let drained ← drainPublicEvictions budget
  addScans measured (drained * 2) drained

/-! ## The forced drain -/

theorem addScans_schedule (measured : Bool) (metadata payload : Nat) (s : CircuitStress ρ) :
    ∃ t, addScans measured metadata payload s = (.ok (), t) ∧ t.schedule = s.schedule ∧ t.sim = s.sim := by
  cases measured
  · exact ⟨s, rfl, rfl, rfl⟩
  · exact ⟨_, rfl, rfl, rfl⟩

/-- A turn of the loop takes one path off what is pending. -/
theorem drainOne_schedule {s t : CircuitStress ρ} {measured : Bool} {u : Unit} {n : UInt64}
    (hn : s.schedule.pendingEvictions = .ok n) (hpos : 0 < n.toNat) (h : drainAndCount measured 1 s = (.ok u, t)) :
    t.schedule = s.schedule.advance 1 := by
  obtain ⟨drained, s₁, hdrain, hcount⟩ := Eff.bind_eq_ok h
  obtain ⟨t', hrun, hschedule, -⟩ := addScans_schedule measured (drained * 2) drained s₁
  rw [hrun] at hcount
  cases hcount
  rw [hschedule]
  rw [drainPublicEvictions, show (1 : UInt64).toNat = 0 + 1 from rfl, drainTurns] at hdrain
  obtain ⟨hone, -⟩ := CircuitEvictionSchedule.completeOneEviction_advance hn hpos
  have hstep : onSchedule CircuitEvictionSchedule.completeOneEviction s
      = (.ok (some s.schedule.nextEvictionLeaf), { s with schedule := s.schedule.advance 1 }) := Eff.zoom_of hone
  rw [Eff.bind_ok hstep] at hdrain
  obtain ⟨_, s₂, hevict, hdone⟩ := Eff.bind_eq_ok hdrain
  obtain ⟨sim, -, rfl⟩ := Eff.zoom_eq_ok hevict
  cases hdone
  rfl

/-- What is pending, 0 where the counters do not say. -/
def owed (s : CircuitStress ρ) : Nat :=
  match s.schedule.pendingEvictions with
  | .ok n => n.toNat
  | .error _ => 0

/-- The loop `while schedule.pending_evictions()? > max_debt_cap`, from a state. -/
def drainToCap (cap : UInt64) (measured : Bool) (s : CircuitStress ρ) : Result Unit × CircuitStress ρ :=
  match _hp : s.schedule.pendingEvictions with
  | .error e => (.error e, s)
  | .ok pending =>
    if _hcap : pending > cap then
      match _hd : drainAndCount measured 1 s with
      | (.error e, t) => (.error e, t)
      | (.ok (), t) => drainToCap cap measured t
    else (.ok (), s)
termination_by s.owed
decreasing_by
  have hpos : 0 < pending.toNat := Nat.lt_of_le_of_lt (Nat.zero_le _) (UInt64.lt_iff_toNat_lt.mp _hcap)
  obtain ⟨-, m, hm, hmn⟩ := CircuitEvictionSchedule.completeOneEviction_advance _hp hpos
  have ht := drainOne_schedule _hp hpos _hd
  simp only [owed, _hp, ht, hm]
  omega

def forcedDrain (cap : UInt64) (measured : Bool) : Eff Error (CircuitStress ρ) Unit := drainToCap cap measured

/-- The end of a measured step. -/
def addSample (stashCapacity : Nat) : Eff Error (CircuitStress ρ) Unit :=
  Eff.modify fun s =>
    { s with
      samples := s.samples ++ [s.sim.stash.length]
      overflowSamples := s.overflowSamples + if s.sim.stash.length > stashCapacity then 1 else 0 }

def noteDebt : Eff Error (CircuitStress ρ) Unit := do
  let s ← Eff.get
  let pending ← Eff.lift s.schedule.pendingEvictions
  Eff.modify fun s => { s with maxDebt := max s.maxDebt pending }

end CircuitStress

namespace CircuitStressConfig

open CircuitStress

def validateConfig (config : CircuitStressConfig) : Result Unit :=
  let treeSlots := config.params.bucketCount * config.params.bucketSize
  if config.params.logicalBlocks > 2 ^ 32 - 1 then
    .error (.invalidParams "stress simulator supports at most u32::MAX logical blocks")
  else if treeSlots ≥ 2 ^ 64 then .error (.invalidParams "tree slot count overflow")
  else if config.params.logicalBlocks > treeSlots then
    .error (.invalidParams s!"logical blocks {config.params.logicalBlocks} exceed physical tree slots {treeSlots}")
  else if config.burstInterval = 0 ∧ config.burstBudget ≠ 0 then
    .error (.invalidParams "burst_budget requires burst_interval > 0")
  else .ok ()

/-- A simulator and a schedule before the first step. -/
def start (ρ : Type) [SimRng ρ] (config : CircuitStressConfig) : Result (CircuitStress ρ) := do
  config.validateConfig
  let sim ← CircuitStressSim.new (ρ := ρ) config.params config.seed
  let schedule := CircuitEvictionSchedule.new config.params
  let maxDebt ← schedule.pendingEvictions
  .ok
    { sim, schedule, rng := Rng.fromSeed config.seed, samples := [], overflowSamples := 0, maxDebt
      metadataPathScans := 0, payloadPathScans := 0 }

variable {ρ : Type} [SimRng ρ]

def drainBurst (config : CircuitStressConfig) (step : Nat) (measured : Bool) : Eff Error (CircuitStress ρ) Unit :=
  if config.burstInterval ≠ 0 ∧ (step + 1) % config.burstInterval = 0 then drainAndCount measured config.burstBudget
  else pure ()

/-- The three drains of a step. -/
def drainAll (config : CircuitStressConfig) (step : Nat) (measured : Bool) : Eff Error (CircuitStress ρ) Unit := do
  drainAndCount measured config.drainPerAccess
  config.drainBurst step measured
  match config.maxDebt with
  | some maxDebtCap => forcedDrain maxDebtCap measured
  | none => pure ()

/-- The body of the loop. -/
def step (config : CircuitStressConfig) (step : Nat) : Eff Error (CircuitStress ρ) Unit := do
  let measuredStep := decide (step ≥ config.warmupOps)
  let logicalId ← onRng (nextLogicalId config.pattern step config.params.logicalBlocks)
  access logicalId
  onSchedule CircuitEvictionSchedule.recordAccess
  addScans measuredStep 1 1
  config.drainAll step measuredStep
  noteDebt
  if measuredStep then addSample config.params.stashCapacity else pure ()

/-- The first `steps` turns of the loop. -/
def run (config : CircuitStressConfig) (steps : Nat) : Eff Error (CircuitStress ρ) (List Unit) :=
  Eff.forEach config.step (List.range steps)

/-- Up to the report, which only divides and sorts. -/
def stressCircuit (ρ : Type) [SimRng ρ] (config : CircuitStressConfig) : Result (CircuitStress ρ) := do
  let s ← config.start ρ
  let out := config.run (config.warmupOps + config.ops) s
  let _ ← out.1
  let _ ← out.2.schedule.pendingEvictions
  let _ ← okOr (checkedMul out.2.schedule.issuedAccesses out.2.schedule.evictionsPerAccess)
    (.invalidInput "eviction counter overflow")
  .ok out.2

end CircuitStressConfig

/-! ## The simulators of a run -/

namespace CircuitStressSim

/-- The simulators that any accesses and evictions make of a new one. -/
inductive Reached (ρ : Type) [SimRng ρ] (p : OramParams) : CircuitStressSim → Prop
  | new {seed : FixedBytes 32} {sim : CircuitStressSim} : CircuitStressSim.new (ρ := ρ) p seed = .ok sim → Reached ρ p sim
  | access {sim sim' : CircuitStressSim} {logicalId : UInt32} {rng rng' : ρ} : Reached ρ p sim →
      logicalId.toNat < p.logicalBlocks → access logicalId (sim, rng) = (.ok (), (sim', rng')) → Reached ρ p sim'
  | evictPath {sim sim' : CircuitStressSim} {leaf : UInt32} : Reached ρ p sim → leaf.toNat < p.leaves →
      evictPath leaf sim = (.ok (), sim') → Reached ρ p sim'

variable {ρ : Type} [SimRng ρ] {p : OramParams} {sim : CircuitStressSim}

theorem new_full (hsmall : p.logicalBlocks ≤ emptyBlock.toNat) (hslots : p.bucketCount * p.bucketSize < 2 ^ 64)
    (seed : FixedBytes 32) : ∃ sim, CircuitStressSim.new (ρ := ρ) p seed = .ok sim ∧ sim.Full p := by
  obtain ⟨us, t, rng, hrun, ht, hlen⟩ := SimTree.Placed.placeAll (p := p) hsmall (Rng.fromSeed seed : ρ)
  refine ⟨{ t with initStash := t.stash.length }, ?_, { ht with all := hlen }⟩
  rw [CircuitStressSim.new, if_neg (by omega)]
  simp only [hrun]
  rfl

theorem access_full (h : sim.Full p) {logicalId : UInt32} (hid : logicalId.toNat < p.logicalBlocks) (rng : ρ) :
    ∃ sim' rng', access logicalId (sim, rng) = (.ok (), (sim', rng')) ∧ sim'.Full p := by
  obtain ⟨t, rng', hrun, ht, htlen⟩ := h.toPlaced.access (h.all ▸ hid) rfl rng
  refine ⟨{ sim with toSimTree := t }, rng', ?_, { ht with all := htlen.trans h.all }⟩
  have hzoom : Eff.zoom (fun s : CircuitStressSim × ρ => (s.1.toSimTree, s.2))
      (fun t s => ({ s.1 with toSimTree := t.1 }, t.2)) (accessBlock logicalId) (sim, rng)
      = (.ok (sim.positionMap.getD logicalId.toNat 0), ({ sim with toSimTree := t }, rng')) := by simp only [Eff.zoom, hrun]
  rw [access, Eff.bind_ok hzoom]
  rfl

theorem evictPath_full (h : sim.Full p) {leaf : UInt32} (hleaf : leaf.toNat < p.leaves) :
    ∃ sim', evictPath leaf sim = (.ok (), sim') ∧ sim'.Full p ∧ sim'.stash.length ≤ sim.stash.length := by
  obtain ⟨us, t, u, hread, hwrite, hparams, hu, -, hpm, hle⟩ := h.toPlaced.refill hleaf (List.Sublist.refl _)
  have hread' : SimTree.readPathIntoStash leaf sim.toSimTree = (.ok (), t) := by
    rw [SimTree.readPathIntoStash, Eff.get_bind, h.shape.params, Eff.bind_ok hread]
    rfl
  have hrun : (SimTree.readPathIntoStash leaf >>= fun _ => SimTree.writePathFromStash leaf) sim.toSimTree = (.ok (), u) := by
    rw [Eff.bind_ok hread', SimTree.writePathFromStash, Eff.get_bind, hparams, hwrite]
  exact ⟨{ sim with toSimTree := u }, Eff.zoom_of hrun, { hu with all := (congrArg List.length hpm).trans h.all }, hle⟩

theorem Reached.full (h : Reached ρ p sim) (hsmall : p.logicalBlocks ≤ emptyBlock.toNat)
    (hslots : p.bucketCount * p.bucketSize < 2 ^ 64) : sim.Full p := by
  induction h with
  | @new seed sim hnew =>
    obtain ⟨sim', hrun, hfull⟩ := new_full (ρ := ρ) hsmall hslots seed
    rw [hnew] at hrun
    cases hrun
    exact hfull
  | @access sim sim' logicalId rng rng' _ hid hrun ih =>
    obtain ⟨t, rng'', hrun', hfull⟩ := access_full ih hid rng
    rw [hrun] at hrun'
    cases hrun'
    exact hfull
  | @evictPath sim sim' leaf _ hleaf hrun ih =>
    obtain ⟨t, hrun', hfull, -⟩ := evictPath_full ih hleaf
    rw [hrun] at hrun'
    cases hrun'
    exact hfull

end CircuitStressSim

/-! ## The schedule of a run -/

namespace CircuitEvictionSchedule

variable {s : CircuitEvictionSchedule}

theorem Owed.pendingEvictions_ok (h : s.Owed) (hlt : s.issuedAccesses.toNat * s.evictionsPerAccess.toNat < 2 ^ 64) :
    ∃ n, s.pendingEvictions = .ok n := by
  have hmul : (s.issuedAccesses * s.evictionsPerAccess).toNat = s.issuedAccesses.toNat * s.evictionsPerAccess.toNat := by
    rw [UInt64.toNat_mul, Nat.mod_eq_of_lt hlt]
  refine ⟨s.issuedAccesses * s.evictionsPerAccess - s.completedEvictions, ?_⟩
  rw [pendingEvictions, checkedMul, if_pos hlt]
  have hle : s.completedEvictions.toNat ≤ (s.issuedAccesses * s.evictionsPerAccess).toNat := by rwa [hmul]
  simp only [okOr, bind, Except.bind, checkedSub, if_pos hle]

theorem pendingEvictions_overflow (hge : 2 ^ 64 ≤ s.issuedAccesses.toNat * s.evictionsPerAccess.toNat) :
    s.pendingEvictions = .error (.invalidInput "eviction counter overflow") := by
  rw [pendingEvictions, checkedMul, if_neg (by omega)]
  rfl

end CircuitEvictionSchedule

namespace CircuitStress

variable {ρ : Type} [SimRng ρ] {p : OramParams} {k b : Nat}

/-- A run of `k` accesses: each owes two evictions, and no more than are owed were completed. -/
structure At (p : OramParams) (k : Nat) (s : CircuitStress ρ) : Prop where
  reached : CircuitStressSim.Reached ρ p s.sim
  leafBits : s.schedule.leafBits = p.leafBits
  rate : s.schedule.evictionsPerAccess = 2
  owed : s.schedule.Owed
  issued : s.schedule.issuedAccesses.toNat = k

/-- A run that `2^63` accesses or more have stopped: what they owe fits no counter. -/
def Overflows (p : OramParams) (k : Nat) (e : Error) (s : CircuitStress ρ) : Prop :=
  CircuitStressSim.Reached ρ p s.sim ∧ 2 ^ 63 ≤ k ∧ e = .invalidInput "eviction counter overflow"

def DebtAtMost (cap : UInt64) (s : CircuitStress ρ) : Prop := ∃ n, s.schedule.pendingEvictions = .ok n ∧ n ≤ cap

/-- A run of `k` accesses, with a bound on the stash. -/
def Within (p : OramParams) (k b : Nat) (s : CircuitStress ρ) : Prop := s.At p k ∧ s.sim.stash.length ≤ b

section
variable {s t : CircuitStress ρ}

theorem At.same (h : s.At p k) (hsim : t.sim = s.sim) (hschedule : t.schedule = s.schedule) : t.At p k where
  reached := hsim ▸ h.reached
  leafBits := hschedule ▸ h.leafBits
  rate := hschedule ▸ h.rate
  owed := hschedule ▸ h.owed
  issued := hschedule ▸ h.issued

theorem At.pendingEvictions_ok (h : s.At p k) (hk : k < 2 ^ 63) : ∃ n, s.schedule.pendingEvictions = .ok n := by
  refine h.owed.pendingEvictions_ok ?_
  rw [h.issued, h.rate, show (2 : UInt64).toNat = 2 from rfl]
  omega

theorem At.pendingEvictions_overflow (h : s.At p k) (hk : ¬ k < 2 ^ 63) :
    s.schedule.pendingEvictions = .error (.invalidInput "eviction counter overflow") := by
  refine CircuitEvictionSchedule.pendingEvictions_overflow ?_
  rw [h.issued, h.rate, show (2 : UInt64).toNat = 2 from rfl]
  omega

theorem At.nextEvictionLeaf_lt (h : s.At p k) : s.schedule.nextEvictionLeaf.toNat < p.leaves := by
  rw [CircuitEvictionSchedule.nextEvictionLeaf, h.leafBits]
  exact CircuitEvictionSchedule.evictionLeafAt_lt p _

end

/-! ## Draining -/

theorem completeOneEviction_triple : Eff.Triple (Within p k b)
    (onSchedule CircuitEvictionSchedule.completeOneEviction : Eff Error (CircuitStress ρ) (Option UInt32))
    (fun leaf s => s.Within p k b ∧ ∀ x ∈ leaf, x.toNat < p.leaves) (Overflows p k) := by
  refine Eff.Triple.zoom fun s hs => ?_
  obtain ⟨hat, hb⟩ := hs
  have howed := CircuitEvictionSchedule.completeOneEviction_owed s.schedule hat.owed
  by_cases hk : k < 2 ^ 63
  · obtain ⟨n, hn⟩ := hat.pendingEvictions_ok hk
    by_cases h0 : n.toNat = 0
    · have hstop : CircuitEvictionSchedule.completeOneEviction s.schedule = (.ok none, s.schedule) := by
        rw [CircuitEvictionSchedule.completeOneEviction, Eff.get_bind, hn, Eff.lift_ok_bind,
          if_pos (show n = 0 from UInt64.toNat_inj.mp h0)]
        rfl
      exact .inl ⟨none, s.schedule, hstop, ⟨hat, hb⟩, by simp⟩
    · obtain ⟨hrun, -⟩ := CircuitEvictionSchedule.completeOneEviction_advance hn (by omega)
      rw [hrun] at howed
      refine .inl ⟨_, _, hrun, ⟨⟨hat.reached, hat.leafBits, hat.rate, howed, hat.issued⟩, hb⟩, fun x hx => ?_⟩
      cases Option.mem_some_iff.mp hx
      exact hat.nextEvictionLeaf_lt
  · have hstop : CircuitEvictionSchedule.completeOneEviction s.schedule
        = (.error (.invalidInput "eviction counter overflow"), s.schedule) := by
      rw [CircuitEvictionSchedule.completeOneEviction, Eff.get_bind, hat.pendingEvictions_overflow hk]
      rfl
    exact .inr ⟨_, _, hstop, hat.reached, Nat.le_of_not_lt hk, rfl⟩

section
variable (hsmall : p.logicalBlocks ≤ emptyBlock.toNat) (hslots : p.bucketCount * p.bucketSize < 2 ^ 64)
include hsmall hslots

theorem evictPath_triple {leaf : UInt32} (hleaf : leaf.toNat < p.leaves) : Eff.Triple (Within p k b)
    (onSim (CircuitStressSim.evictPath leaf) : Eff Error (CircuitStress ρ) Unit) (fun _ => Within p k b) (Overflows p k) := by
  refine Eff.Triple.zoom fun s hs => ?_
  obtain ⟨hat, hb⟩ := hs
  obtain ⟨sim', hrun, -, hle⟩ := CircuitStressSim.evictPath_full (hat.reached.full hsmall hslots) hleaf
  exact .inl ⟨(), sim', hrun, ⟨hat.reached.evictPath hleaf hrun, hat.leafBits, hat.rate, hat.owed, hat.issued⟩,
    hle.trans hb⟩

theorem drainTurns_triple (turns drained : Nat) : Eff.Triple (Within p k b)
    (drainTurns turns drained : Eff Error (CircuitStress ρ) Nat) (fun _ => Within p k b) (Overflows p k) := by
  induction turns generalizing drained with
  | zero => exact .pure _ fun _ hs => hs
  | succ turns ih =>
    rw [drainTurns]
    refine completeOneEviction_triple.bind fun r => ?_
    cases r with
    | none => exact .pure _ fun _ hs => hs.1
    | some leaf =>
      intro s hs
      exact ((evictPath_triple hsmall hslots (hs.2 leaf rfl)).bind fun _ => ih (drained + 1)) s hs.1

omit hsmall hslots in
theorem addScans_triple (measured : Bool) (metadata payload : Nat) : Eff.Triple (Within p k b)
    (addScans measured metadata payload : Eff Error (CircuitStress ρ) Unit) (fun _ => Within p k b) (Overflows p k) := by
  intro s hs
  obtain ⟨t, hrun, hschedule, hsim⟩ := addScans_schedule measured metadata payload s
  exact .inl ⟨(), t, hrun, hs.1.same hsim hschedule, by rw [hsim]; exact hs.2⟩

theorem drainAndCount_triple (measured : Bool) (budget : UInt64) : Eff.Triple (Within p k b)
    (drainAndCount measured budget : Eff Error (CircuitStress ρ) Unit) (fun _ => Within p k b) (Overflows p k) :=
  (drainTurns_triple hsmall hslots budget.toNat 0).bind fun drained => addScans_triple measured (drained * 2) drained

omit [SimRng ρ] hsmall hslots in
/-- The loop, one turn unrolled. -/
theorem forcedDrain_eq (cap : UInt64) (measured : Bool) (s : CircuitStress ρ) : forcedDrain cap measured s = (do
    let pending ← Eff.lift s.schedule.pendingEvictions
    if pending > cap then do
      drainAndCount measured 1
      forcedDrain cap measured
    else pure ()) s := by
  change drainToCap cap measured s = _
  rw [drainToCap]
  split
  · rename_i e hp
    rw [hp]
    rfl
  · rename_i pending hp
    rw [hp, Eff.lift_ok_bind, Eff.ite_apply]
    by_cases hcap : pending > cap
    · rw [dif_pos hcap, if_pos hcap]
      split
      · rename_i e t hd
        rw [Eff.bind_error hd]
      · rename_i t hd
        rw [Eff.bind_ok hd]
        rfl
    · rw [dif_neg hcap, if_neg hcap]
      rfl

/-- The loop ends, with no more pending than the cap. By induction on what is pending. -/
theorem forcedDrain_triple (cap : UInt64) (measured : Bool) : Eff.Triple (Within p k b)
    (forcedDrain cap measured : Eff Error (CircuitStress ρ) Unit) (fun _ s => s.Within p k b ∧ s.DebtAtMost cap)
    (Overflows p k) := by
  intro s hs
  induction hn : s.owed using Nat.strong_induction_on generalizing s with
  | _ n ih =>
    rw [forcedDrain_eq]
    by_cases hk : k < 2 ^ 63
    · obtain ⟨pending, hp⟩ := hs.1.pendingEvictions_ok hk
      rw [hp, Eff.lift_ok_bind]
      by_cases hcap : pending > cap
      · rw [if_pos hcap]
        have hpos : 0 < pending.toNat := Nat.lt_of_le_of_lt (Nat.zero_le _) (UInt64.lt_iff_toNat_lt.mp hcap)
        rcases drainAndCount_triple hsmall hslots measured 1 s hs with ⟨u, t, hrun, ht⟩ | ⟨e, t, hrun, he⟩
        · rw [Eff.bind_ok hrun]
          obtain ⟨-, m, hm, hmn⟩ := CircuitEvictionSchedule.completeOneEviction_advance hp hpos
          refine ih t.owed ?_ t ht rfl
          rw [← hn]
          simp only [owed, hp, drainOne_schedule hp hpos hrun, hm]
          omega
        · exact .inr ⟨e, t, Eff.bind_error hrun, he⟩
      · rw [if_neg hcap]
        exact .inl ⟨(), s, rfl, hs, pending, hp, UInt64.not_lt.mp hcap⟩
    · rw [hs.1.pendingEvictions_overflow hk]
      exact .inr ⟨_, s, rfl, hs.1.reached, Nat.le_of_not_lt hk, rfl⟩

end

end CircuitStress

/-! ## One step -/

theorem nextLogicalId_run {ρ : Type} [Rng ρ] (pattern : CircuitStressPattern) (step : Nat) {n : Nat}
    (hsmall : n ≤ emptyBlock.toNat) (rng : ρ) :
    (∃ id rng', nextLogicalId pattern step n rng = (.ok id, rng') ∧ id.toNat < n) ∨
    n = 0 ∧ ∃ rng', nextLogicalId pattern step n rng
      = (.error (.panic "attempt to calculate the remainder with a divisor of zero"), rng') := by
  have hmax : emptyBlock.toNat < 2 ^ 32 := UInt32.toNat_lt _
  by_cases hn : n = 0
  · subst hn
    refine .inr ⟨rfl, ?_⟩
    cases pattern <;> exact ⟨_, rfl⟩
  · have hid : ∀ i, (UInt32.ofNat (i % n)).toNat < n := by
      intro i
      have hlt := Nat.mod_lt i (Nat.pos_of_ne_zero hn)
      rwa [UInt32.toNat_ofNat', Nat.mod_eq_of_lt (by omega)]
    refine .inl ?_
    cases pattern with
    | random =>
      refine ⟨_, (Rng.nextU64 rng).2, ?_, hid (Rng.nextU64 rng).1.toNat⟩
      rw [nextLogicalId, Eff.get_bind, Eff.modify_bind, Eff.ensure_of hn]
      rfl
    | roundRobin =>
      refine ⟨_, rng, ?_, hid step⟩
      rw [nextLogicalId, Eff.ensure_of hn]
      rfl

namespace CircuitStressConfig

open CircuitStress

variable {ρ : Type} [SimRng ρ] {config : CircuitStressConfig} {k n : Nat}

/-- With a cap, no more is pending than the cap. -/
def Capped (config : CircuitStressConfig) (s : CircuitStress ρ) : Prop := ∀ cap, config.maxDebt = some cap → s.DebtAtMost cap

/-- Between two steps, `k` of them done. -/
structure Between (config : CircuitStressConfig) (k : Nat) (s : CircuitStress ρ) : Prop where
  at_ : s.At config.params k
  count_lt : k < 2 ^ 63
  capped : config.Capped s

/-- How a run of `n` steps may stop before its end. -/
def Stopped (config : CircuitStressConfig) (n : Nat) (e : Error) (s : CircuitStress ρ) : Prop :=
  CircuitStressSim.Reached ρ config.params s.sim ∧
    (config.params.logicalBlocks = 0 ∧ e = .panic "attempt to calculate the remainder with a divisor of zero" ∨
      2 ^ 63 ≤ n ∧ e = .invalidInput "eviction counter overflow")

theorem stopped_of_overflows (hk : k ≤ n) (e : Error) (s : CircuitStress ρ) (h : Overflows config.params k e s) :
    config.Stopped n e s := ⟨h.1, .inr ⟨h.2.1.trans hk, h.2.2⟩⟩

variable (config) in
theorem noteDebt_triple : Eff.Triple (fun s => s.At config.params k ∧ config.Capped s)
    (noteDebt : Eff Error (CircuitStress ρ) Unit) (fun _ => config.Between k) (Overflows config.params k) := by
  refine Eff.Triple.get_bind fun s hs => ?_
  obtain ⟨hat, hcapped⟩ := hs
  intro t ht
  subst ht
  by_cases hk : k < 2 ^ 63
  · obtain ⟨n, hn⟩ := hat.pendingEvictions_ok hk
    rw [hn, Eff.lift_ok_bind]
    exact .inl ⟨(), _, rfl, hat.same rfl rfl, hk, hcapped⟩
  · rw [hat.pendingEvictions_overflow hk]
    exact .inr ⟨_, t, rfl, hat.reached, Nat.le_of_not_lt hk, rfl⟩

variable (config) in
theorem recordAccess_triple (hk : k < 2 ^ 63) : Eff.Triple (At config.params k)
    (onSchedule CircuitEvictionSchedule.recordAccess : Eff Error (CircuitStress ρ) Unit)
    (fun _ => At config.params (k + 1)) (Overflows config.params (k + 1)) := by
  refine Eff.Triple.zoom fun s hat => ?_
  have hroom : s.schedule.issuedAccesses.toNat + 1 < 2 ^ 64 := by
    rw [hat.issued]
    omega
  have hnext : (s.schedule.issuedAccesses + 1).toNat = s.schedule.issuedAccesses.toNat + 1 := by
    rw [UInt64.toNat_add, UInt64.toNat_one, Nat.mod_eq_of_lt hroom]
  refine .inl ⟨(), _, CircuitEvictionSchedule.recordAccess_ok hroom, hat.reached, hat.leafBits, hat.rate, ?_, ?_⟩
  · have howed := hat.owed
    unfold CircuitEvictionSchedule.Owed at howed ⊢
    change s.schedule.completedEvictions.toNat
      ≤ (s.schedule.issuedAccesses + 1).toNat * s.schedule.evictionsPerAccess.toNat
    rw [hnext, Nat.add_mul]
    omega
  · rw [← hat.issued, ← hnext]

section
variable (hsmall : config.params.logicalBlocks ≤ emptyBlock.toNat)
  (hslots : config.params.bucketCount * config.params.bucketSize < 2 ^ 64)
include hsmall hslots

theorem drainAll_triple (step : Nat) (measured : Bool) : Eff.Triple (At config.params k)
    (config.drainAll step measured : Eff Error (CircuitStress ρ) Unit) (fun _ s => s.At config.params k ∧ config.Capped s)
    (Overflows config.params k) := by
  intro s hs
  have hdrain : ∀ budget, Eff.Triple (Within config.params k s.sim.stash.length)
      (drainAndCount measured budget : Eff Error (CircuitStress ρ) Unit)
      (fun _ => Within config.params k s.sim.stash.length) (Overflows config.params k) :=
    drainAndCount_triple hsmall hslots measured
  have hburst : Eff.Triple (Within config.params k s.sim.stash.length)
      (config.drainBurst step measured : Eff Error (CircuitStress ρ) Unit)
      (fun _ => Within config.params k s.sim.stash.length) (Overflows config.params k) :=
    .ite (fun _ => hdrain _) fun _ => .pure _ fun _ ht => ht
  have hall : Eff.Triple (Within config.params k s.sim.stash.length)
      (config.drainAll step measured : Eff Error (CircuitStress ρ) Unit)
      (fun _ s => s.At config.params k ∧ config.Capped s) (Overflows config.params k) := by
    refine (hdrain _).bind fun _ => hburst.bind fun _ => ?_
    · cases hcap : config.maxDebt with
      | none => exact .pure _ fun t ht => ⟨ht.1, fun cap h => by rw [hcap] at h; cases h⟩
      | some cap =>
        refine (forcedDrain_triple hsmall hslots cap measured).conseq (fun _ ht => ht) (fun _ t ht => ?_) fun _ _ he => he
        refine ⟨ht.1.1, fun cap' h => ?_⟩
        rw [hcap] at h
        cases h
        exact ht.2
  exact hall s ⟨hs, Nat.le_refl _⟩

theorem access_triple {logicalId : UInt32} (hid : logicalId.toNat < config.params.logicalBlocks) :
    Eff.Triple (At config.params k) (access logicalId : Eff Error (CircuitStress ρ) Unit) (fun _ => At config.params k)
      (config.Stopped n) := by
  refine Eff.Triple.zoom fun s hat => ?_
  obtain ⟨sim', rng', hrun, -⟩ := CircuitStressSim.access_full (hat.reached.full hsmall hslots) hid s.rng
  exact .inl ⟨(), (sim', rng'), hrun, hat.reached.access hid hrun, hat.leafBits, hat.rate, hat.owed, hat.issued⟩

/-- A step keeps what holds between steps, or the run stops there. -/
theorem step_triple (hk : k < n) : Eff.Triple (config.Between k) (config.step k : Eff Error (CircuitStress ρ) Unit)
    (fun _ => config.Between (k + 1)) (config.Stopped n) := by
  have hstop : ∀ e (s : CircuitStress ρ), Overflows config.params (k + 1) e s → config.Stopped n e s :=
    stopped_of_overflows (Nat.succ_le_of_lt hk)
  intro s hs
  refine Eff.Triple.bind (P := fun t => t = s) (Q := fun id t => t.At config.params k ∧ id.toNat < config.params.logicalBlocks)
    ?_ (fun id => ?_) s rfl
  · refine Eff.Triple.zoom fun t ht => ?_
    subst ht
    rcases nextLogicalId_run config.pattern k hsmall t.rng with ⟨id, rng', hrun, hid⟩ | ⟨hzero, rng', hrun⟩
    · exact .inl ⟨id, rng', hrun, ⟨hs.at_.reached, hs.at_.leafBits, hs.at_.rate, hs.at_.owed, hs.at_.issued⟩, hid⟩
    · exact .inr ⟨_, rng', hrun, hs.at_.reached, .inl ⟨hzero, rfl⟩⟩
  · intro t ht
    refine ((access_triple hsmall hslots ht.2).bind fun _ => ?_) t ht.1
    have hrecord := (recordAccess_triple (ρ := ρ) config hs.count_lt).conseq (fun _ h => h) (fun _ _ h => h) hstop
    refine hrecord.bind fun _ => ?_
    have hcount : Eff.Triple (At config.params (k + 1))
        (addScans (decide (k ≥ config.warmupOps)) 1 1 : Eff Error (CircuitStress ρ) Unit)
        (fun _ => At config.params (k + 1)) (config.Stopped n) := by
      intro u hu
      obtain ⟨v, hrun, hschedule, hsim⟩ := addScans_schedule (decide (k ≥ config.warmupOps)) 1 1 u
      exact .inl ⟨(), v, hrun, hu.same hsim hschedule⟩
    have hdrain := (drainAll_triple (k := k + 1) hsmall hslots k (decide (k ≥ config.warmupOps))).conseq (fun _ h => h)
      (fun _ _ h => h) hstop
    have hdebt := (noteDebt_triple (ρ := ρ) (k := k + 1) config).conseq (fun _ h => h) (fun _ _ h => h) hstop
    refine hcount.bind fun _ => hdrain.bind fun _ => hdebt.bind fun _ => ?_
    refine .ite (fun _ => .modify fun u hu => ?_) fun _ => .pure _ fun _ hu => hu
    exact ⟨hu.at_.same rfl rfl, hu.count_lt, hu.capped⟩

end

/-! ## Runs -/

theorem validateConfig_ok (h : config.validateConfig = .ok ()) : config.params.logicalBlocks ≤ emptyBlock.toNat ∧
    config.params.bucketCount * config.params.bucketSize < 2 ^ 64 := by
  unfold validateConfig at h
  simp only at h
  split at h
  · cases h
  · rename_i hsmall
    split at h
    · cases h
    · rename_i hslots
      exact ⟨Nat.le_of_not_lt hsmall, by omega⟩

/-- An accepted configuration starts a run. -/
theorem start_ok (h : config.validateConfig = .ok ()) : ∃ s, config.start ρ = .ok s ∧ config.Between 0 s := by
  obtain ⟨hsmall, hslots⟩ := validateConfig_ok h
  obtain ⟨sim, hnew, -⟩ := CircuitStressSim.new_full (ρ := ρ) hsmall hslots config.seed
  have hpending : (CircuitEvictionSchedule.new config.params).pendingEvictions = .ok 0 := by
    simp [CircuitEvictionSchedule.new, CircuitEvictionSchedule.pendingEvictions, CircuitEvictionSchedule.withRate, checkedMul,
      checkedSub, okOr, bind, Except.bind]
  let s : CircuitStress ρ :=
    { sim, schedule := CircuitEvictionSchedule.new config.params, rng := Rng.fromSeed config.seed, samples := []
      overflowSamples := 0, maxDebt := 0, metadataPathScans := 0, payloadPathScans := 0 }
  have hrun : config.start ρ = .ok s := by
    rw [start, h]
    simp only [bind, Except.bind, hnew, hpending]
    rfl
  have hat : s.At config.params 0 := ⟨.new hnew, rfl, rfl, Nat.zero_le _, rfl⟩
  exact ⟨s, hrun, hat, by decide, fun cap _ => ⟨0, hpending, UInt64.zero_le⟩⟩

theorem run_triple (h : config.validateConfig = .ok ()) (n : Nat) : Eff.Triple (config.Between 0)
    (config.run n : Eff Error (CircuitStress ρ) (List Unit)) (fun _ => config.Between n) (config.Stopped n) := by
  obtain ⟨hsmall, hslots⟩ := validateConfig_ok h
  exact Eff.Triple.forEach_range fun k hk => step_triple hsmall hslots hk

variable (config) in
/-- What an accepted configuration and any number of steps leave: every id stands once, on the
    path of its leaf, and with a cap no more evictions are pending. No access misses its block:
    a run is stopped by an empty tree or by the counters only. From any state of a run, the
    drains leave no more in the stash, and the loop over the cap ends with the cap kept. -/
theorem run_invariant (h : config.validateConfig = .ok ()) :
    (∀ t, config.stressCircuit ρ = .ok t → t.sim.OnceOnPath config.params ∧ config.Capped t) ∧
    (∃ s, config.start ρ = .ok s ∧ ∀ n r t, config.run n s = (r, t) →
      t.sim.Reached ρ config.params ∧ t.sim.OnceOnPath config.params ∧ (∀ us, r = .ok us → config.Capped t) ∧
      ∀ e, r = .error e →
        config.params.logicalBlocks = 0 ∧ e = .panic "attempt to calculate the remainder with a divisor of zero" ∨
        2 ^ 63 ≤ n ∧ e = .invalidInput "eviction counter overflow") ∧
    (∀ sim, CircuitStressSim.Reached ρ config.params sim → sim.OnceOnPath config.params ∧
      (∀ (logicalId : UInt32) (rng : ρ), logicalId.toNat < config.params.logicalBlocks →
        ∃ sim' rng', CircuitStressSim.access logicalId (sim, rng) = (.ok (), (sim', rng'))) ∧
      ∀ leaf : UInt32, leaf.toNat < config.params.leaves →
        ∃ sim', sim.evictPath leaf = (.ok (), sim') ∧ sim'.stash.length ≤ sim.stash.length) ∧
    ∀ k (s : CircuitStress ρ) pending, s.At config.params k → s.schedule.pendingEvictions = .ok pending →
      (∀ budget, ∃ drained t, s.drainPublicEvictions budget = (.ok drained, t) ∧
        t.sim.stash.length ≤ s.sim.stash.length) ∧
      ∀ cap measured, ∃ t, s.forcedDrain cap measured = (.ok (), t) ∧ t.DebtAtMost cap ∧
        t.sim.stash.length ≤ s.sim.stash.length := by
  obtain ⟨hsmall, hslots⟩ := validateConfig_ok h
  obtain ⟨s, hstart, hbetween⟩ := start_ok (ρ := ρ) h
  refine ⟨fun t ht => ?_, ⟨s, hstart, fun n r t hrun => ?_⟩, fun sim hsim => ?_, fun k s pending hat hpending => ?_⟩
  · obtain ⟨s', hs', hrest⟩ := bind_result_ok ht
    rw [hstart] at hs'
    cases hs'
    simp only at hrest
    obtain ⟨us, hus, hrest⟩ := bind_result_ok hrest
    obtain ⟨_, _, hrest⟩ := bind_result_ok hrest
    obtain ⟨_, _, hrest⟩ := bind_result_ok hrest
    cases hrest
    have ht := (run_triple h _).ok hbetween (Prod.ext hus rfl)
    exact ⟨(ht.at_.reached.full hsmall hslots).onceOnPath, ht.capped⟩
  · have htriple := run_triple (ρ := ρ) h n
    cases r with
    | ok us =>
      have ht := htriple.ok hbetween hrun
      exact ⟨ht.at_.reached, (ht.at_.reached.full hsmall hslots).onceOnPath, fun _ _ => ht.capped, fun e he => by cases he⟩
    | error e =>
      obtain ⟨hreached, hwhy⟩ := htriple.error hbetween hrun
      refine ⟨hreached, (hreached.full hsmall hslots).onceOnPath, fun _ hr => (by cases hr), fun e' he => ?_⟩
      cases he
      exact hwhy
  · have hfull := hsim.full hsmall hslots
    refine ⟨hfull.onceOnPath, fun logicalId rng hid => ?_, fun leaf hleaf => ?_⟩
    · obtain ⟨sim', rng', hrun, -⟩ := CircuitStressSim.access_full hfull hid rng
      exact ⟨sim', rng', hrun⟩
    · obtain ⟨sim', hrun, -, hle⟩ := CircuitStressSim.evictPath_full hfull hleaf
      exact ⟨sim', hrun, hle⟩
  · have hk : k < 2 ^ 63 := by
      by_contra hge
      rw [hat.pendingEvictions_overflow hge] at hpending
      cases hpending
    refine ⟨fun budget => ?_, fun cap measured => ?_⟩
    · rcases drainTurns_triple hsmall hslots budget.toNat 0 s ⟨hat, Nat.le_refl _⟩ with
        ⟨drained, t, hrun, ht⟩ | ⟨e, t, -, he⟩
      · exact ⟨drained, t, hrun, ht.2⟩
      · exact absurd he.2.1 (Nat.not_le_of_lt hk)
    · rcases forcedDrain_triple hsmall hslots cap measured s ⟨hat, Nat.le_refl _⟩ with
        ⟨_, t, hrun, ht⟩ | ⟨e, t, -, he⟩
      · exact ⟨t, hrun, ht.2, ht.1.2⟩
      · exact absurd he.2.1 (Nat.not_le_of_lt hk)

end CircuitStressConfig

/-- Two accesses, each followed by drains down to one eviction. -/
def smallStress : CircuitStressConfig where
  params := smallParams
  ops := 2
  warmupOps := 0
  pattern := .roundRobin
  seed := FixedBytes.zero 32
  drainPerAccess := 0
  burstInterval := 0
  burstBudget := 0
  maxDebt := some 1

theorem run_invariant_small : ∃ us s t, smallStress.start ZeroSeedWords = .ok s ∧ smallStress.run 2 s = (.ok us, t) ∧
    t.sim.OnceOnPath smallParams ∧ t.DebtAtMost 1 := by
  obtain ⟨-, ⟨s, hstart, hruns⟩, -⟩ := CircuitStressConfig.run_invariant (ρ := ZeroSeedWords) smallStress rfl
  obtain ⟨t, hrun⟩ : ∃ t, smallStress.run 2 s = ((smallStress.run 2 s).1, t) := ⟨_, rfl⟩
  obtain ⟨-, honce, hcapped, hstops⟩ := hruns 2 _ t hrun
  cases hr : (smallStress.run 2 s).1 with
  | error e =>
    rcases hstops e hr with ⟨hzero, -⟩ | ⟨hmany, -⟩
    · cases hzero
    · omega
  | ok us =>
    rw [hr] at hrun
    exact ⟨us, s, t, hstart, hrun, honce, hcapped us hr 1 rfl⟩

end BpirOram
