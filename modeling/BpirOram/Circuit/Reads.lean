/-
  BpirOram.Circuit.Reads — what a reader of fixed contents relies on of the controller.

  `ReadsBack n f I`: in the states `I`, which reads and drains do not leave, a read of id
  `k < n` that ends well returns `f k`. The states of runs over honest stores that hold
  `f` are such (`Reached.readsBack`).
-/

import BpirOram.Circuit.Atomic

namespace BpirOram

open Lib

variable {M P S ρ : Type} {p : OramParams}

section
variable [PathPageStore M] [PathPageStore P] [Rng ρ]

structure ReadsBack (n : Nat) (f : Nat → Bytes) (I : CircuitOram M P ρ → Prop) : Prop where
  read : ∀ {s s' logicalId out}, I s → UInt64.toNat logicalId < n → CircuitOram.read logicalId s = (.ok out, s') →
    out = f logicalId.toNat ∧ I s'
  readBatch : ∀ {s s' logicalIds outs}, I s → (∀ id ∈ logicalIds, UInt64.toNat id < n) →
    CircuitOram.readBatch logicalIds s = (.ok outs, s') → outs = logicalIds.map (fun id => f id.toNat) ∧ I s'
  drainEvictions : ∀ {s s' budget k}, I s → CircuitOram.drainEvictions budget s = (.ok k, s') → I s'

end

/-- Reads that keep what they find. -/
theorem serveAll_keep (v : Memory) (logicalIds : List UInt64) (k : Nat) :
    v.serveAll (batchRequests (fun _ _ => .keep) k logicalIds) = (logicalIds.map fun id => v id.toNat, v) := by
  induction logicalIds generalizing k with
  | nil => rfl
  | cons id ids ih =>
    have hcons : batchRequests (fun _ _ => .keep) k (id :: ids) =
        (id, .keep) :: batchRequests (fun _ _ => .keep) (k + 1) ids := rfl
    rw [hcons, Memory.serveAll, Memory.serve_keep, ih]
    rfl

section
variable [PageStore M] [PageStore P] [TrustedBlockSource S] [Rng ρ] {HM : HonestStore M} {HP : HonestStore P}
  {HS : HonestSource S}

/-- The states of a run whose array is `f`, on the ids of the array. -/
def HoldsBlocks (p : OramParams) (HM : HonestStore M) (HP : HonestStore P) (HS : HonestSource S) (f : Nat → Bytes)
    (s : CircuitOram M P ρ) : Prop :=
  ∃ v, Reached p HM HP HS AtomicBatches s v ∧ ∀ k < p.logicalBlocks, v k = f k

theorem Reached.readsBack (f : Nat → Bytes) :
    ReadsBack p.logicalBlocks f (HoldsBlocks (ρ := ρ) p HM HP HS f) where
  read := by
    rintro s s' logicalId out ⟨v, h, hv⟩ hid hrun
    have hop : (Op.access logicalId .keep).run s = (.ok [out], s') := Eff.bind_ok hrun
    have hout := h.served hop
    have hnext := Reached.ok _ h hop
    have hserve := serveAll_keep v [logicalId] 0
    change v.serveAll (Op.access logicalId .keep).requests = _ at hserve
    rw [hserve] at hout hnext
    cases hout
    exact ⟨hv _ hid, v, hnext, hv⟩
  readBatch := by
    rintro s s' logicalIds outs ⟨v, h, hv⟩ hids hrun
    have hop : (Op.accessBatch logicalIds fun _ _ => .keep).run s = (.ok outs, s') := hrun
    have hout := h.served hop
    have hnext := Reached.ok _ h hop
    have hserve := serveAll_keep v logicalIds 0
    change v.serveAll (Op.accessBatch logicalIds fun _ _ => .keep).requests = _ at hserve
    rw [hserve] at hout hnext
    refine ⟨hout.trans (List.map_congr_left fun id hm => hv _ (hids id hm)), v, hnext, hv⟩
  drainEvictions := by
    rintro s s' budget k ⟨v, h, hv⟩ hrun
    have hop : (Op.drainEvictions budget).run s = (.ok [], s') := Eff.bind_ok hrun
    exact ⟨v, Reached.ok _ h hop, hv⟩

end
end BpirOram
