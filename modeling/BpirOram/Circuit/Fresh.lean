/-
  BpirOram.Circuit.Fresh — the leaves of online paths are draws of the generator, each used
  once.

  The generator is a stream. A build draws one leaf for every block, an access or each
  request of a batch goes through the leaf its id holds and draws it a new one, a dummy
  goes through a new one itself, and nothing else draws. Which draw is the leaf of which
  path so depends on the ids requested only (`spendAll`).
  - `OnlineRun.follows`: the paths of a run go through these draws.
  - `traces_oblivious_leaves_fresh`: what the stores see of a call is a function of its
    leaves, or of the public schedule, and no draw is the leaf of two paths.
-/

import BpirOram.Circuit.Trace
import BpirOram.Circuit.Run
import BpirOram.Lib.Ledger

namespace BpirOram

open Lib

variable {M P M₀ P₀ S ρ : Type} [Rng ρ] {p : OramParams}

/-! ## The stream -/

/-- The generator after some draws. -/
def rngAfter (rng : ρ) : Nat → ρ
  | 0 => rng
  | k + 1 => (Rng.nextU64 (rngAfter rng k)).2

/-- The leaf that draw `k` of the stream stands for. -/
def drawLeaf (p : OramParams) (rng : ρ) (k : Nat) : UInt32 := (randomLeaf p (rngAfter rng k)).1

theorem randomLeaf_rngAfter (p : OramParams) (rng : ρ) (k : Nat) :
    randomLeaf p (rngAfter rng k) = (drawLeaf p rng k, rngAfter rng (k + 1)) := rfl

theorem randomLeaves_rngAfter (p : OramParams) (rng : ρ) (count k : Nat) :
    randomLeaves p count (rngAfter rng k) = ((List.range' k count).map (drawLeaf p rng), rngAfter rng (k + count)) := by
  induction count generalizing k with
  | zero => rfl
  | succ count ih =>
    rw [randomLeaves, randomLeaf_rngAfter]
    simp only [ih, List.range'_succ, List.map_cons]
    rw [Nat.add_assoc, Nat.add_comm 1]

/-! ## The ledger -/

/-- The draws that the paths of a call go through, and the ledger after. -/
def Op.spend : Op → Ledger Nat → List Nat × Ledger Nat
  | access logicalId _, l => l.serveAll [logicalId.toNat]
  | accessBatch logicalIds _, l => l.serveAll (logicalIds.map (·.toNat))
  | dummyAccess, l => l.skip 1
  | dummyAccessBatch count, l => l.skip count
  | drainEvictions _, l => ([], l)

def spendAll : List Op → Ledger Nat → List Nat × Ledger Nat
  | [], l => ([], l)
  | op :: ops, l => ((op.spend l).1 ++ (spendAll ops (op.spend l).2).1, (spendAll ops (op.spend l).2).2)

/-- The entries of the position map are the draws that the ledger says. -/
structure Drawn (p : OramParams) (rng₀ : ρ) (l : Ledger Nat) (posMap : List UInt32) : Prop where
  length : posMap.length = p.logicalBlocks
  entry : ∀ k < p.logicalBlocks, posMap[k]? = some (drawLeaf p rng₀ (l.current k))

variable {rng₀ : ρ} {l : Ledger Nat} {posMap : List UInt32}

theorem Drawn.lookup (h : Drawn p rng₀ l posMap) {logicalId : UInt64} (hid : logicalId.toNat < p.logicalBlocks) :
    scanPosMapLookup posMap logicalId = drawLeaf p rng₀ (l.current logicalId.toNat) := by
  have hlt := p.logicalBlocks_lt
  rw [scanPosMapLookup_eq (by rw [h.length]; omega), List.getD_eq_getElem?_getD, h.entry _ hid]
  rfl

theorem Drawn.serve (h : Drawn p rng₀ l posMap) (logicalId : UInt64) :
    Drawn p rng₀ (l.serve logicalId.toNat) (scanPosMapUpdate posMap logicalId (drawLeaf p rng₀ l.next)) where
  length := by rw [scanPosMapUpdate_length, h.length]
  entry k hk := by
    have hlt := p.logicalBlocks_lt
    rw [scanPosMapUpdate_eq (by rw [h.length]; omega)]
    by_cases he : k = logicalId.toNat
    · subst he
      rw [List.getElem?_set_self (by rw [h.length]; exact hk), Ledger.serve_current_self]
    · rw [List.getElem?_set_ne (Ne.symm he), Ledger.serve_current_of_ne he, h.entry k hk]

/-- The requests of a batch, one after the other. -/
theorem Drawn.serveAll (h : Drawn p rng₀ l posMap) {logicalIds : List UInt64}
    (hids : ∀ id ∈ logicalIds, id.toNat < p.logicalBlocks) :
    sequentialLeaves posMap (logicalIds.zip ((List.range' l.next logicalIds.length).map (drawLeaf p rng₀)))
      = (l.serveAll (logicalIds.map (·.toNat))).1.map (drawLeaf p rng₀) ∧
    Drawn p rng₀ (l.serveAll (logicalIds.map (·.toNat))).2
      (updateAll posMap (logicalIds.zip ((List.range' l.next logicalIds.length).map (drawLeaf p rng₀)))) := by
  induction logicalIds generalizing l posMap with
  | nil => exact ⟨rfl, h⟩
  | cons id ids ih =>
    obtain ⟨hleaves, hdrawn⟩ := ih (h.serve id) fun x hx => hids x (by simp [hx])
    rw [Ledger.serve_next] at hleaves hdrawn
    rw [List.length_cons, List.range'_succ, List.map_cons, List.zip_cons_cons, List.map_cons, Ledger.serveAll]
    refine ⟨?_, hdrawn⟩
    rw [sequentialLeaves, hleaves, h.lookup (hids id (by simp)), List.map_cons]

/-- A controller whose generator and position map are where the ledger says. -/
structure Follows (p : OramParams) (rng₀ : ρ) (l : Ledger Nat) (c : Controller ρ) : Prop where
  params : c.params = p
  rng : c.rng = rngAfter rng₀ l.next
  posMap : Drawn p rng₀ l c.posMap

theorem Follows.effect {c c' : Controller ρ} (h : Follows p rng₀ l c) {l' : Ledger Nat} {posMap' : List UInt32} {rng' : ρ}
    {n : Nat} (he : Effect c posMap' rng' n c') (hrng : rng' = rngAfter rng₀ l'.next) (hmap : Drawn p rng₀ l' posMap') :
    Follows p rng₀ l' c' := by
  obtain ⟨⟨stash, rfl⟩, -⟩ := he
  exact ⟨h.params, hrng, hmap⟩

section
variable [PathPageStore M] [PathPageStore P] {s s' : CircuitOram M P ρ} {outs : List Bytes}

/-- One call goes through the draws it spends and leaves the controller where the ledger is. -/
theorem Follows.step (h : Follows p rng₀ l s.toController) {op : Op} (hrun : op.run s = (.ok outs, s')) :
    op.onlineLeaves s.toController = (op.spend l).1.map (drawLeaf p rng₀) ∧
    Follows p rng₀ (op.spend l).2 s'.toController := by
  cases op with
  | access logicalId update =>
    obtain ⟨out, t, haccess, hlast⟩ := Eff.bind_eq_ok hrun
    cases hlast
    obtain ⟨hid, heffect⟩ := access_effect haccess
    rw [h.params] at hid heffect
    rw [h.rng, randomLeaf_rngAfter] at heffect
    refine ⟨?_, h.effect heffect rfl (h.posMap.serve logicalId)⟩
    rw [Op.onlineLeaves, h.posMap.lookup hid]
    rfl
  | accessBatch logicalIds update =>
    obtain ⟨hids, heffect⟩ := accessBatch_effect hrun
    rw [h.params] at hids heffect
    rw [h.rng, randomLeaves_rngAfter, scanPosMapUpdateBatch_eq] at heffect
    obtain ⟨hleaves, hdrawn⟩ := h.posMap.serveAll hids
    refine ⟨?_, h.effect heffect ?_ hdrawn⟩
    · have hlt := p.logicalBlocks_lt
      rw [Op.onlineLeaves, h.params, h.rng, randomLeaves_rngAfter, batchAccessLeaves_eq (by rw [h.posMap.length]; omega)
        (by simp) (by rw [h.posMap.length]; exact hids)]
      exact hleaves
    · rw [Op.spend, Ledger.serveAll_next, List.length_map]
  | dummyAccess =>
    obtain ⟨⟨⟩, t, hdummy, hlast⟩ := Eff.bind_eq_ok hrun
    cases hlast
    have heffect := dummyAccess_effect hdummy
    rw [h.params, h.rng, randomLeaf_rngAfter] at heffect
    refine ⟨?_, h.effect heffect rfl ⟨h.posMap.length, h.posMap.entry⟩⟩
    rw [Op.onlineLeaves, h.params, h.rng, randomLeaf_rngAfter]
    rfl
  | dummyAccessBatch count =>
    obtain ⟨⟨⟩, t, hdummy, hlast⟩ := Eff.bind_eq_ok hrun
    cases hlast
    have heffect := dummyAccessBatch_effect hdummy
    rw [h.params, h.rng, randomLeaves_rngAfter] at heffect
    refine ⟨?_, h.effect heffect rfl ⟨h.posMap.length, h.posMap.entry⟩⟩
    rw [Op.onlineLeaves, h.params, h.rng, randomLeaves_rngAfter]
    rfl
  | drainEvictions budget =>
    obtain ⟨k, t, hdrain, hlast⟩ := Eff.bind_eq_ok hrun
    cases hlast
    obtain ⟨-, -, -, stash, hstate⟩ := drainEvictions_effect hdrain
    refine ⟨rfl, ?_⟩
    rw [hstate]
    exact ⟨h.params, h.rng, h.posMap⟩

/-- A call that ends well asked for blocks there are. -/
theorem Op.ids_lt {op : Op} (hrun : op.run s = (.ok outs, s')) {spent : List Nat}
    (h : l.Sound (· < s.params.logicalBlocks) spent) :
    (op.spend l).2.Sound (· < s.params.logicalBlocks) (spent ++ (op.spend l).1) := by
  cases op with
  | access logicalId update =>
    obtain ⟨out, t, haccess, -⟩ := Eff.bind_eq_ok hrun
    refine h.serveAll fun k hk => ?_
    rw [List.mem_singleton.mp hk]
    exact (access_effect haccess).1
  | accessBatch logicalIds update =>
    refine h.serveAll fun k hk => ?_
    obtain ⟨id, hid, rfl⟩ := List.mem_map.mp hk
    exact (accessBatch_effect hrun).1 id hid
  | dummyAccess => exact h.skip 1
  | dummyAccessBatch count => exact h.skip count
  | drainEvictions budget => rwa [Op.spend, List.append_nil]

/-! ## Runs -/

/-- Calls that all end well, between them reopenings, and the leaves of their online paths. -/
inductive OnlineRun : CircuitOram M P ρ → List Op → List UInt32 → CircuitOram M P ρ → Prop
  | nil (s : CircuitOram M P ρ) : OnlineRun s [] [] s
  | call {s s' t : CircuitOram M P ρ} {op : Op} {outs : List Bytes} {ops : List Op} {leaves : List UInt32} :
      op.run s = (.ok outs, s') → OnlineRun s' ops leaves t →
      OnlineRun s (op :: ops) (op.onlineLeaves s.toController ++ leaves) t
  | reopen {s s' t : CircuitOram M P ρ} {m : M} {q : P} {ops : List Op} {leaves : List UInt32} :
      CircuitOram.fromState m q s.snapshot = .ok s' → OnlineRun s' ops leaves t → OnlineRun s ops leaves t

/-- A run goes through the draws it spends, none of them twice. -/
theorem OnlineRun.follows {t : CircuitOram M P ρ} {ops : List Op} {leaves : List UInt32} (hrun : OnlineRun s ops leaves t)
    (h : Follows p rng₀ l s.toController) {spent : List Nat} (hsound : l.Sound (· < p.logicalBlocks) spent) :
    leaves = (spendAll ops l).1.map (drawLeaf p rng₀) ∧ Follows p rng₀ (spendAll ops l).2 t.toController ∧
    (spendAll ops l).2.Sound (· < p.logicalBlocks) (spent ++ (spendAll ops l).1) := by
  induction hrun generalizing l spent with
  | nil s => exact ⟨rfl, h, by rwa [spendAll, List.append_nil]⟩
  | call hcall _ ih =>
    obtain ⟨hleaves, hnext⟩ := h.step hcall
    have hkeys := Op.ids_lt hcall (h.params.symm ▸ hsound)
    rw [h.params] at hkeys
    obtain ⟨hrest, hlast, hdone⟩ := ih hnext hkeys
    refine ⟨?_, hlast, ?_⟩
    · rw [spendAll, List.map_append, hleaves, hrest]
    · rwa [spendAll, ← List.append_assoc]
  | reopen hopen _ ih =>
    obtain ⟨-, -, rfl⟩ := fromState_ok hopen
    exact ih ⟨h.params, h.rng, h.posMap⟩ hsound

end

/-! ## The build -/

/-- The placement draws a leaf for each block in turn. -/
theorem placeInitial_drawn {count k : Nat} {plan plan' : InitialPlacement ρ} (hk : k + count ≤ p.logicalBlocks)
    (hrng : plan.rng = rngAfter rng₀ k) (hlen : plan.posMap.length = p.logicalBlocks)
    (hmap : ∀ i < k, plan.posMap[i]? = some (drawLeaf p rng₀ i))
    (h : placeInitial p (List.range' k count) plan = .ok plan') :
    plan'.rng = rngAfter rng₀ (k + count) ∧ plan'.posMap.length = p.logicalBlocks ∧
    ∀ i < k + count, plan'.posMap[i]? = some (drawLeaf p rng₀ i) := by
  induction count generalizing k plan with
  | zero =>
    cases h
    exact ⟨hrng, hlen, hmap⟩
  | succ count ih =>
    have hset : ∀ i < k + 1, (plan.posMap.set k (drawLeaf p rng₀ k))[i]? = some (drawLeaf p rng₀ i) := by
      intro i hi
      by_cases he : i = k
      · subst he
        exact List.getElem?_set_self (by omega)
      · rw [List.getElem?_set_ne (Ne.symm he)]
        exact hmap i (by omega)
    rw [List.range'_succ, placeInitial, hrng, randomLeaf_rngAfter] at h
    simp only at h
    rw [← Nat.add_assoc, Nat.add_right_comm]
    split at h
    · exact ih (by omega) rfl (by rw [List.length_set, hlen]) hset h
    · split at h
      · cases h
      · exact ih (by omega) rfl (by rw [List.length_set, hlen]) hset h

theorem buildTrustedFromSource_follows [PageStore M] [PageStore P] [TrustedBlockSource S] {metaStore : M} {payloadStore : P}
    {source : S} {seed : FixedBytes 32} {s : CircuitOram M P ρ}
    (h : CircuitOram.buildTrustedFromSource p metaStore payloadStore source seed = .ok s) :
    Follows p (Rng.fromSeed seed) (Ledger.start p.logicalBlocks) s.toController := by
  obtain ⟨plan, stash, metaStore', payloadStore', hplan, rfl⟩ := buildTrustedFromSource_state h
  rw [List.range_eq_range'] at hplan
  obtain ⟨hrng, hlen, hmap⟩ := placeInitial_drawn (Nat.le_of_eq (Nat.zero_add _)) rfl List.length_replicate
    (fun i hi => absurd hi (Nat.not_lt_zero i)) hplan
  rw [Nat.zero_add] at hrng hmap
  exact ⟨rfl, hrng, hlen, hmap⟩

/-! ## Both together -/

/-- What the stores see of an online call is a function of its leaves, and of a drain, of
    the schedule and the budget. The leaves of a run's online paths are draws, each used
    once, and which draw is used when depends on the calls only. -/
theorem traces_oblivious_leaves_fresh [PageStore M] [PageStore P] [PageStore M₀] [PageStore P₀] [TrustedBlockSource S]
    (p : OramParams) :
    (∀ k nodes, sentTo k (exchange nodes) = nodes.map .read ++ nodes.map .write) ∧
    (∀ leaves (op : Op) (s : CircuitOram (TracingStore M) (TracingStore P) ρ), s.params = p → op.Online →
      op.onlineLeaves s.toController = leaves →
      Eff.Issues CircuitOram.seen (exchange (leaves.flatMap p.pathNodes)) op.run s) ∧
    (∀ schedule budget (s : CircuitOram (TracingStore M) (TracingStore P) ρ), s.params = p → s.schedule = schedule →
      Eff.Issues CircuitOram.seen (exchange (CircuitOram.drainNodes p schedule budget)) (Op.drainEvictions budget).run s) ∧
    ∀ (metaStore : M₀) (payloadStore : P₀) (source : S) seed (s₀ : CircuitOram M₀ P₀ ρ) (s t : CircuitOram M P ρ) ops
      leaves,
      CircuitOram.buildTrustedFromSource p metaStore payloadStore source seed = .ok s₀ →
      s.toController = s₀.toController → OnlineRun s ops leaves t →
      leaves = (spendAll ops (.start p.logicalBlocks)).1.map (drawLeaf p (Rng.fromSeed seed : ρ)) ∧
      (spendAll ops (.start p.logicalBlocks)).1.Nodup ∧
      (∀ d ∈ (spendAll ops (.start p.logicalBlocks)).1, d < (spendAll ops (.start p.logicalBlocks)).2.next) ∧
      t.rng = rngAfter (Rng.fromSeed seed) (spendAll ops (.start p.logicalBlocks)).2.next := by
  refine ⟨sentTo_exchange, ?_, ?_, ?_⟩
  · rintro _ op s rfl hop rfl
    exact Op.run_issues hop s
  · rintro _ budget s rfl rfl
    exact issues_return (CircuitOram.drainEvictions_issues budget s)
  · intro metaStore payloadStore source seed s₀ s t ops leaves hbuild hsame hrun
    have hstart := buildTrustedFromSource_follows hbuild
    rw [← hsame] at hstart
    obtain ⟨hleaves, hend, hsound⟩ := hrun.follows hstart (Ledger.start_sound _)
    rw [List.nil_append] at hsound
    exact ⟨hleaves, hsound.nodup, hsound.spent_lt, hend.rng⟩

/-- The small controller, its stores traced. -/
def smallTraced : CircuitOram (TracingStore MemPageStore) (TracingStore MemPageStore) ZeroSeedRng :=
  { smallOram.toController with
    metaStore := { inner := smallOram.metaStore, trace := [] }
    payloadStore := { inner := smallOram.payloadStore, trace := [] } }

theorem traces_oblivious_leaves_fresh_smallOram :
    Eff.Issues CircuitOram.seen (exchange (smallParams.pathNodes (scanPosMapLookup smallOram.posMap 1)))
      (Op.access 1 .keep).run smallTraced ∧
    ∃ leaves t, OnlineRun smallOram [.access 1 .keep, .accessBatch [1, 1] fun _ _ => .keep] leaves t ∧
      leaves = [1, 2, 3].map (drawLeaf smallParams (Rng.fromSeed (FixedBytes.zero 32) : ZeroSeedRng)) := by
  have hparams : smallOram.params = smallParams := by decide +kernel
  obtain ⟨-, htrace, -, hleaves⟩ := @traces_oblivious_leaves_fresh MemPageStore MemPageStore MemPageStore MemPageStore
    VecBlockSource ZeroSeedRng _ _ _ _ _ _ smallParams
  constructor
  · have h := htrace _ (.access 1 .keep) smallTraced hparams trivial rfl
    rwa [Op.onlineLeaves, List.flatMap_singleton] at h
  · have h₁ : (Op.access 1 .keep).run smallOram = (.ok [[8]], smallRead) :=
      Prod.ext (show ((Op.access 1 .keep).run smallOram).1 = .ok [[8]] by decide +kernel) rfl
    obtain ⟨s₂, h₂⟩ := Eff.run_of_result
      (show ((Op.accessBatch [1, 1] fun _ _ => .keep).run smallRead).1 = .ok [[8], [8]] by
      decide +kernel)
    have hrun := OnlineRun.call h₁ (.call h₂ (.nil _))
    have hbuild : smallBuild = .ok smallOram := toOption_get _
    have hspent : (spendAll [.access 1 .keep, .accessBatch [1, 1] fun _ _ => .keep]
        (.start smallParams.logicalBlocks)).1 = [1, 2, 3] := by decide +kernel
    refine ⟨_, _, hrun, ?_⟩
    rw [← hspent]
    exact (hleaves _ _ _ _ smallOram smallOram _ _ _ hbuild rfl hrun).1

end BpirOram
