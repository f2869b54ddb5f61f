/-
  BpirOram.Circuit.Op — the operations of the controller, as one alphabet, and what one of
  them does to a controller that holds an array.

  `Op.requests` are the reads and writes of the array a call stands for; the other calls
  stand for none. A call that ends well served its requests in order (`Inv.step`). A call
  that fails before its writes, other than a batch, leaves the array; an access that
  fails on the counter leaves it with its request done, and then no request is ever
  served again (`Serving`).
-/

import BpirOram.Circuit.Sound

namespace BpirOram

open Lib

variable {M P ρ : Type} {p : OramParams}

inductive Op where
  | access (logicalId : UInt64) (update : Update)
  | accessBatch (logicalIds : List UInt64) (update : Nat → UInt64 → Update)
  | dummyAccess
  | dummyAccessBatch (count : Nat)
  | drainEvictions (budget : UInt64)

namespace Op

def requests : Op → List (UInt64 × Update)
  | access logicalId update => [(logicalId, update)]
  | accessBatch logicalIds update => batchRequests update 0 logicalIds
  | _ => []

section
variable [Rng ρ]

/-- The call on the controller over its stores, with the payloads it returns. -/
def run [PathPageStore M] [PathPageStore P] : Op → Eff Error (CircuitOram M P ρ) (List Bytes)
  | access logicalId update => do return [← CircuitOram.access logicalId update]
  | accessBatch logicalIds update => CircuitOram.accessBatch logicalIds update
  | dummyAccess => do CircuitOram.dummyAccess; return []
  | dummyAccessBatch count => do CircuitOram.dummyAccessBatch count; return []
  | drainEvictions budget => do let _ ← CircuitOram.drainEvictions budget; return []

/-- The call on the blocks, under a fault. -/
def runBlocks (fault : Fault) : Op → Eff Error (Blocks ρ) (List Bytes)
  | access logicalId update => do return [← Blocks.access logicalId update fault]
  | accessBatch logicalIds update => Blocks.accessBatch logicalIds update fault
  | dummyAccess => do Blocks.dummyAccess fault; return []
  | dummyAccessBatch count => do Blocks.dummyAccessBatch count fault; return []
  | drainEvictions budget => do let _ ← Blocks.drainEvictions budget fault; return []

theorem run_outcome [PathPageStore M] [PathPageStore P] {LM : MetaContract M p} {LP : PayloadContract P p}
    {s : CircuitOram M P ρ} {b : Blocks ρ} (h : Rel LM LP s b) (op : Op) :
    Outcome LM LP (op.run s) fun fault => op.runBlocks fault b := by
  cases op with
  | access logicalId update => exact (access_outcome h logicalId update).bind fun x => Eff.Sim.pure [x]
  | accessBatch logicalIds update => exact accessBatch_outcome h logicalIds update
  | dummyAccess => exact (dummyAccess_outcome h).bind fun _ => Eff.Sim.pure []
  | dummyAccessBatch count => exact (dummyAccessBatch_outcome h count).bind fun _ => Eff.Sim.pure []
  | drainEvictions budget => exact (drainEvictions_outcome h budget).bind fun _ => Eff.Sim.pure []

theorem runBlocks_sound (fault : Fault) (op : Op) :
    Eff.Keeps (Sound p) (op.runBlocks fault : Eff Error (Blocks ρ) (List Bytes)) := by
  cases op with
  | access logicalId update => exact (access_sound logicalId update fault).bind fun _ => Eff.Keeps.pure _
  | accessBatch logicalIds update => exact accessBatch_sound logicalIds update fault
  | dummyAccess =>
    refine Eff.Keeps.bind (fun b h => ?_) fun _ => Eff.Keeps.pure _
    obtain ⟨r, rng, schedule, hrun, hbits, -⟩ := dummyAccess_eq h.shape fault
    rw [hrun]
    exact h.frame rng hbits
  | dummyAccessBatch count =>
    refine Eff.Keeps.bind (fun b h => ?_) fun _ => Eff.Keeps.pure _
    obtain ⟨r, rng, schedule, hrun, hbits, -⟩ := dummyAccessBatch_eq h.shape count fault
    rw [hrun]
    exact h.frame rng hbits
  | drainEvictions budget => exact (drainEvictions_sound budget fault).bind fun _ => Eff.Keeps.pure _

end
end Op

/-! ## What a call does to the array -/

/-- The controller serves the array `v`: it holds `v`, unless its counter is full, so that it
    serves no request any more. -/
def Serving (p : OramParams) (b : Blocks ρ) (v : Memory) : Prop := ∃ w, Inv p b w ∧ (w = v ∨ ¬ b.Countable)

theorem Inv.serving {b : Blocks ρ} {v : Memory} (h : Inv p b v) : Serving p b v := ⟨v, h, .inl rfl⟩

theorem Serving.sound {b : Blocks ρ} {v : Memory} (h : Serving p b v) : Sound p b := by
  obtain ⟨w, hw, -⟩ := h
  exact hw.sound

/-- The errors a call ends in that no store call failed. -/
inductive CallError (p : OramParams) : Error → Prop
  | range (logicalId : UInt64) : CallError p (.invalidInput s!"logical_id {logicalId.toNat} out of range")
  | schedule {s : CircuitEvictionSchedule} {e} : s.pendingEvictions = .error e → CallError p e
  | serve {e} : ServeError p e → CallError p e

/-- How a call ends that no store call failed. -/
inductive Stepped (p : OramParams) (b : Blocks ρ) (v : Memory) (op : Op) : Result (List Bytes) × Blocks ρ → Prop
  | ok {b'} : Inv p b' (v.serveAll op.requests).2 → (op.requests = [] ∨ b.Countable) →
      (¬ b.Countable → ¬ b'.Countable) →
      Stepped p b v op (.ok (v.serveAll op.requests).1, b')
  /-- Refused, or the stash is full, or a dummy access overflowed the counter. -/
  | failed {e b'} : Inv p b' v → (¬ b.Countable → ¬ b'.Countable) → CallError p e → Stepped p b v op (.error e, b')
  | uncounted {e b'} : Inv p b' (v.serveAll op.requests).2 → ¬ b'.Countable → CallError p e →
      Stepped p b v op (.error e, b')
  /-- A batch fails on the way and leaves its work on the stash. -/
  | batch {logicalIds update e b'} : op = .accessBatch logicalIds update → ¬ b.HasRoom logicalIds → ServeError p e →
      Stepped p b v op (.error e, b')

theorem not_countable_of_le {b b' : Blocks ρ} (h : b.schedule.issuedAccesses.toNat ≤ b'.schedule.issuedAccesses.toNat) :
    ¬ b.Countable → ¬ b'.Countable := by
  unfold Controller.Countable
  omega

theorem CallError.ne_blockNotFound {e : Error} (h : CallError p e) (id : UInt64) : e ≠ .blockNotFound id := by
  cases h with
  | range logicalId => simp
  | schedule hpending => rcases CircuitEvictionSchedule.pendingEvictions_error hpending with rfl | rfl <;> simp
  | serve hserve => cases hserve <;> simp

theorem checkLogicalIds_error {n : Nat} {logicalIds : List UInt64} {e : Error}
    (h : CircuitOram.checkLogicalIds n logicalIds = .error e) : CallError p e := by
  induction logicalIds with
  | nil => cases h
  | cons a as ih =>
    rw [CircuitOram.checkLogicalIds] at h
    split at h
    · cases h
      exact .range a
    · exact ih h

/-- Every way a call fails names its error. -/
theorem Stepped.callError {b b' : Blocks ρ} {v : Memory} {op : Op} {e : Error} (h : Stepped p b v op (.error e, b')) :
    CallError p e := by
  cases h with
  | failed _ _ he => exact he
  | uncounted _ _ he => exact he
  | batch _ _ he => exact .serve he

/-- A call that only moves the generator and the schedule. -/
theorem Inv.step_dummy {b : Blocks ρ} {v : Memory} (h : Inv p b v) {op : Op} (hop : op.requests = [])
    {m : Eff Error (Blocks ρ) Unit}
    (hm : ∃ r rng schedule, m b = (r, { b with rng, schedule }) ∧ schedule.leafBits = p.leafBits ∧
      b.schedule.issuedAccesses.toNat ≤ schedule.issuedAccesses.toNat ∧
      ∀ e, r = .error e → Fault.none.result = .error e ∨ e = .invalidInput "access counter overflow") :
    Stepped p b v op ((m >>= fun _ => pure []) b) := by
  obtain ⟨r, rng, schedule, hrun, hbits, hle, he⟩ := hm
  rcases r with e | ⟨⟩
  · rw [Eff.bind_error hrun]
    rcases he e rfl with he | rfl
    · cases he
    · exact .failed (h.frame rng hbits) (not_countable_of_le hle) (.serve .uncounted)
  · rw [Eff.bind_ok hrun]
    have hserve : v.serveAll op.requests = ([], v) := by rw [hop]; rfl
    have hinv : Inv p { b with rng, schedule } (v.serveAll op.requests).2 := by rw [hserve]; exact h.frame rng hbits
    have := Stepped.ok hinv (.inl hop) (not_countable_of_le (b := b) hle)
    rwa [hserve] at this

section
variable [Rng ρ] {b : Blocks ρ} {v : Memory}

theorem Inv.step_access (h : Inv p b v) (logicalId : UInt64) (update : Update) :
    Stepped p b v (.access logicalId update) ((Op.access logicalId update).runBlocks .none b) := by
  by_cases hid : logicalId.toNat < p.logicalBlocks
  · have hacc := h.access hid update
    rcases hrun : Blocks.access logicalId update .none b with ⟨r, b'⟩
    rw [hrun] at hacc
    simp only [Op.runBlocks]
    cases hacc with
    | ok hroom hcount hs =>
      rw [Eff.bind_ok hrun]
      exact .ok hs.inv (.inr hcount) fun hn => absurd hcount hn
    | full hin hfull =>
      rw [Eff.bind_error hrun]
      exact .failed h id (.serve .full)
    | uncounted hroom hcount hinv hcount' =>
      rw [Eff.bind_error hrun]
      exact .uncounted hinv hcount' (.serve .uncounted)
  · have hrun : Blocks.access logicalId update .none b
        = (.error (.invalidInput s!"logical_id {logicalId.toNat} out of range"), b) := by
      simp only [Blocks.access, Eff.get_bind, h.shape.controller.params]
      rw [if_pos (by omega)]
      rfl
    simp only [Op.runBlocks]
    rw [Eff.bind_error hrun]
    exact .failed h id (.range logicalId)

theorem Inv.step_batch (h : Inv p b v) (logicalIds : List UInt64) (update : Nat → UInt64 → Update) :
    Stepped p b v (.accessBatch logicalIds update) ((Op.accessBatch logicalIds update).runBlocks .none b) := by
  simp only [Op.runBlocks, Blocks.accessBatch]
  by_cases he : logicalIds.isEmpty
  · rw [if_pos he]
    obtain rfl := List.isEmpty_iff.mp he
    exact .ok h (.inl rfl) id
  rw [if_neg he, Eff.get_bind, h.shape.controller.params]
  rcases hcheck : CircuitOram.checkLogicalIds p.logicalBlocks logicalIds with e | ⟨⟩
  · exact .failed h id (checkLogicalIds_error hcheck)
  rw [Eff.lift_ok_bind]
  have hbody := h.batchBody update (checkLogicalIds_ok hcheck)
  rcases hrun : Blocks.batchBody logicalIds update (randomLeaves p logicalIds.length b.rng).1
    (randomLeaves p logicalIds.length b.rng).2 b with ⟨r, b'⟩
  simp only [hrun] at hbody
  split at hbody
  · rename_i hroom
    obtain ⟨rfl, hs⟩ := hbody
    have hbr : Blocks.bracket .none (Blocks.batchBody logicalIds update (randomLeaves p logicalIds.length b.rng).1
        (randomLeaves p logicalIds.length b.rng).2) b = (.ok (v.serveAll (batchRequests update 0 logicalIds)).1, b') := by
      simp only [Blocks.bracket, hrun]
    have hpos : 0 < logicalIds.length := List.length_pos_of_ne_nil (by simpa using he)
    have hcount : b.Countable := by
      have := hroom.2
      unfold Controller.Countable
      omega
    rw [Eff.bind_ok hbr, Eff.bind_ok (checkStash_run hs.inv.shape)]
    exact .ok hs.inv (.inr hcount) fun hn => absurd hcount hn
  · rename_i hroom
    obtain ⟨e, rfl, hs, -⟩ := hbody
    have hbr : Blocks.bracket .none (Blocks.batchBody logicalIds update (randomLeaves p logicalIds.length b.rng).1
        (randomLeaves p logicalIds.length b.rng).2) b = (.error e, { b' with tree := b.tree }) := by
      simp only [Blocks.bracket, hrun]
    rw [Eff.bind_error hbr]
    exact .batch rfl hroom hs

theorem Inv.step_drain (h : Inv p b v) (budget : UInt64) :
    Stepped p b v (.drainEvictions budget) ((Op.drainEvictions budget).runBlocks .none b) := by
  simp only [Op.runBlocks]
  cases hn : b.schedule.pendingEvictions with
  | ok n =>
    obtain ⟨b', hrun, hd⟩ := h.sound.drainEvictions hn budget
    rw [Eff.bind_ok hrun]
    exact .ok (hd.inv h) (.inl rfl) (not_countable_of_le (by rw [hd.issued]))
  | error e =>
    have hrun : Blocks.drainEvictions budget .none b = (.error e, b) := by
      simp only [Blocks.drainEvictions, Eff.get_bind, hn]
      rfl
    rw [Eff.bind_error hrun]
    exact .failed h id (.schedule hn)

/-- One call, by cases on which. -/
theorem Inv.step (h : Inv p b v) (op : Op) : Stepped p b v op (op.runBlocks .none b) := by
  cases op with
  | access logicalId update => exact h.step_access logicalId update
  | accessBatch logicalIds update => exact h.step_batch logicalIds update
  | dummyAccess => exact h.step_dummy rfl (dummyAccess_eq h.shape .none)
  | dummyAccessBatch count => exact h.step_dummy rfl (dummyAccessBatch_eq h.shape count .none)
  | drainEvictions budget => exact h.step_drain budget

/-- A call that ends well served its requests. -/
theorem Serving.step_ok (h : Serving p b v) {op : Op} {outs : List Bytes} {b' : Blocks ρ}
    (hrun : op.runBlocks .none b = (.ok outs, b')) :
    outs = (v.serveAll op.requests).1 ∧ Serving p b' (v.serveAll op.requests).2 := by
  obtain ⟨w, hw, hv⟩ := h
  have hstep := hw.step op
  rw [hrun] at hstep
  cases hstep with
  | ok hinv hserved hfull =>
    rcases hv with rfl | hn
    · exact ⟨rfl, hinv.serving⟩
    · have hnone := hserved.resolve_right hn
      rw [hnone] at hinv ⊢
      exact ⟨rfl, w, hinv, .inr (hfull hn)⟩

/-- A call that fails, unless it is a batch, leaves what is served as it was. -/
theorem Serving.step_error (h : Serving p b v) {op : Op} {e : Error} {b' : Blocks ρ}
    (hrun : op.runBlocks .none b = (.error e, b')) :
    (∀ id, e ≠ .blockNotFound id) ∧ (Serving p b' v ∨
      ∃ logicalIds update, op = .accessBatch logicalIds update ∧ ¬ b.HasRoom logicalIds ∧ ServeError p e) := by
  obtain ⟨w, hw, hv⟩ := h
  have hstep := hw.step op
  rw [hrun] at hstep
  refine ⟨hstep.callError.ne_blockNotFound, ?_⟩
  cases hstep with
  | failed hinv hfull _ => exact .inl ⟨w, hinv, hv.imp_right hfull⟩
  | uncounted hinv hfull _ => exact .inl ⟨_, hinv, .inr hfull⟩
  | batch hop hroom he => exact .inr ⟨_, _, hop, hroom, he⟩

end
end BpirOram
