/-
  BpirOram.Circuit.Debt — no state has drained more than it owed.

  An access adds `evictions_per_access` to what is owed and a drained path takes one off,
  when there is one, so the evictions completed never pass those issued, in any run and
  after any failure (`Reached.owed`). What is drained little by little after each of some
  accesses is then what one drain of the same budget takes (`drained_each`).
-/

import BpirOram.Circuit.Atomic
import BpirOram.Circuit.Effects

namespace BpirOram

open Lib

variable {M P S ρ : Type} {p : OramParams}

namespace CircuitEvictionSchedule

def Owed (s : CircuitEvictionSchedule) : Prop :=
  s.completedEvictions.toNat ≤ s.issuedAccesses.toNat * s.evictionsPerAccess.toNat

/-- What is owed after `k` more accesses. -/
def owedAfter (s : CircuitEvictionSchedule) (k : Nat) : Nat :=
  (s.issuedAccesses.toNat + k) * s.evictionsPerAccess.toNat - s.completedEvictions.toNat

theorem Owed.record {s : CircuitEvictionSchedule} (h : s.Owed) {k : Nat}
    (hroom : k = 0 ∨ s.issuedAccesses.toNat + k < 2 ^ 64) : (s.record k).Owed := by
  rcases hroom with rfl | hroom
  · rwa [record_zero]
  · unfold Owed at h ⊢
    rw [record_issued hroom]
    change s.completedEvictions.toNat ≤ (s.issuedAccesses.toNat + k) * s.evictionsPerAccess.toNat
    rw [Nat.add_mul]
    omega

theorem completeOneEviction_owed : Eff.Keeps Owed completeOneEviction := by
  intro s h
  rcases hp : s.pendingEvictions with e | n
  · simp only [completeOneEviction, Eff.get_bind, hp]
    exact h
  · by_cases hn : n = 0
    · simp only [completeOneEviction, Eff.get_bind, hp, Eff.lift_ok_bind, if_pos hn]
      exact h
    · have hpos : 0 < n.toNat := Nat.pos_iff_ne_zero.mpr fun h0 => hn (UInt64.toNat_inj.mp h0)
      rw [(completeOneEviction_ok hp hpos).1]
      obtain ⟨hsum, hlt⟩ := pendingEvictions_ok hp
      change (s.completedEvictions + 1).toNat ≤ s.issuedAccesses.toNat * s.evictionsPerAccess.toNat
      rw [UInt64.toNat_add, UInt64.toNat_one, Nat.mod_eq_of_lt (by omega)]
      omega

end CircuitEvictionSchedule

/-- What counting an access and completing an eviction keep of the schedule; no other step
    touches it. -/
structure CircuitEvictionSchedule.Steady (Q : CircuitEvictionSchedule → Prop) : Prop where
  record : ∀ {s : CircuitEvictionSchedule} {k : Nat}, Q s → (k = 0 ∨ s.issuedAccesses.toNat + k < 2 ^ 64) → Q (s.record k)
  completeOneEviction : Eff.Keeps Q CircuitEvictionSchedule.completeOneEviction

namespace CircuitEvictionSchedule

theorem owed_steady : Steady Owed := ⟨fun h hroom => h.record hroom, completeOneEviction_owed⟩

/-- The number of evictions an access owes is set when the schedule is made. -/
theorem rate_steady (rate : UInt64) : Steady (·.evictionsPerAccess = rate) :=
  ⟨fun h _ => h, Controller.completeOneEviction_keeps fun _ _ h => h⟩

end CircuitEvictionSchedule

/-- A controller whose schedule is as `Q` says. -/
def CircuitOram.Scheduled (Q : CircuitEvictionSchedule → Prop) (s : CircuitOram M P ρ) : Prop := Q s.schedule

section
variable {Q : CircuitEvictionSchedule → Prop} (hQ : CircuitEvictionSchedule.Steady Q)
include hQ

theorem Worked.steady {n : Nat} {c c' : Controller ρ} (h : Worked n c c') (hc : Q c.schedule) : Q c'.schedule := by
  obtain ⟨⟨stash, rfl⟩, hroom⟩ := h
  exact hQ.record hc hroom

theorem Works.steady {σ α : Type} {ctl : σ → Controller ρ} {n : Nat} {m : Eff Error σ α} (h : Works ctl n m) :
    Eff.Keeps (fun s => Q (ctl s).schedule) m := fun s hs => by
  obtain ⟨k, -, hw⟩ := h.early s
  exact hw.steady hQ hs

omit hQ in
theorem onController_steady {α : Type} {m : Eff Error (Controller ρ) α} (h : Eff.Keeps (fun c => Q c.schedule) m) :
    Eff.Keeps (CircuitOram.Scheduled Q) (CircuitOram.onController m : Eff Error (CircuitOram M P ρ) α) :=
  h.zoom (fun _ hs => hs) fun _ _ _ hc => hc

omit hQ in
/-- A step that leaves the schedule. -/
theorem modify_steady {g : Controller ρ → Controller ρ} (hg : ∀ c, (g c).schedule = c.schedule) :
    Eff.Keeps (CircuitOram.Scheduled Q) (CircuitOram.onController (Eff.modify g) : Eff Error (CircuitOram M P ρ) Unit) :=
  onController_steady (Eff.Keeps.modify fun c hc => by rwa [hg])

theorem completeOneEviction_steady : Eff.Keeps (fun c => Q c.schedule)
    (Controller.onSchedule CircuitEvictionSchedule.completeOneEviction : Eff Error (Controller ρ) (Option UInt32)) :=
  hQ.completeOneEviction.zoom (fun _ hc => hc) fun _ _ _ hs => hs

theorem finishAccess_steady [Rng ρ] (logicalId : UInt64) (update : Update) :
    Eff.Keeps (fun c => Q c.schedule) (Controller.finishAccess logicalId update : Eff Error (Controller ρ) Bytes) := by
  refine Eff.Keeps.get_bind fun c h => ?_
  simp only
  split
  · exact h
  · have hrest : Works id 1 (do
        Controller.onSchedule CircuitEvictionSchedule.recordAccess
        Controller.checkStash
        pure (scanStash c.stash logicalId c.params.blockSize).2 : Eff Error (Controller ρ) Bytes) :=
      Controller.recordAccess_works.bind (k := 0) fun _ => Controller.checkStash_works.after fun _ => .pure _
    rw [Eff.modify_bind]
    exact hrest.steady hQ _ h

section
variable [PathPageStore M] [PathPageStore P]

theorem drainEvictions_steady (budget : UInt64) :
    Eff.Keeps (CircuitOram.Scheduled Q) (CircuitOram.drainEvictions budget : Eff Error (CircuitOram M P ρ) UInt64) := by
  refine Eff.Keeps.get_bind fun s h => ?_
  refine Eff.Keeps.apply (Eff.Keeps.bind (Eff.Keeps.lift _) fun pending s h => ?_) h
  simp only [Eff.ite_apply]
  split
  · exact h
  · refine Eff.Keeps.apply (((CircuitOram.readOverlays_works _).steady hQ).bind fun _ => Eff.Keeps.bind ?_ fun _ => ?_) h
    · exact (CircuitOram.withOverlays_works (Works.forEach fun path _ => Overlaid.evictPathInOverlays_works path)).steady hQ
    · refine ((CircuitOram.writeOverlays_works _ _).steady hQ).bind fun _ => ?_
      refine (Eff.Keeps.forEach fun _ _ => onController_steady (completeOneEviction_steady hQ)).bind fun _ => ?_
      exact ((CircuitOram.onController_works Controller.checkStash_works).steady hQ).bind fun _ => Eff.Keeps.pure _

variable [Rng ρ]

theorem access_steady (logicalId : UInt64) (update : Update) :
    Eff.Keeps (CircuitOram.Scheduled Q) (CircuitOram.access logicalId update : Eff Error (CircuitOram M P ρ) Bytes) := by
  refine Eff.Keeps.get_bind fun s h => ?_
  rw [Eff.ite_apply]
  split
  · exact h
  · refine Eff.Keeps.apply (Eff.Keeps.bind ?_ fun _ => ?_) h
    · exact (CircuitOram.readAndRemoveTargetPath_works _ _).steady hQ
    · exact onController_steady (finishAccess_steady hQ _ _)

theorem accessBatch_steady (logicalIds : List UInt64) (update : Nat → UInt64 → Update) :
    Eff.Keeps (CircuitOram.Scheduled Q)
      (CircuitOram.accessBatch logicalIds update : Eff Error (CircuitOram M P ρ) (List Bytes)) := by
  intro s h
  rw [CircuitOram.accessBatch, Eff.ite_apply]
  split
  · exact h
  · rw [Eff.get_bind]
    refine Eff.Keeps.apply (Eff.Keeps.bind (Eff.Keeps.lift _) fun _ => ?_) h
    refine ((CircuitOram.readOverlays_works _).steady hQ).bind fun overlays => Eff.Keeps.bind ?_ fun served => ?_
    · exact (CircuitOram.withOverlays_works (Works.forEach fun turn _ =>
        (Overlaid.removeTargetFromOverlays_works _ _).bind fun _ =>
          Overlaid.onController_works (Controller.finishRequest_works _ _ _))).steady hQ
    · refine Eff.Keeps.bind (modify_steady fun _ => rfl) fun _ => ?_
      refine ((CircuitOram.writeOverlays_works _ _).steady hQ).bind fun _ => ?_
      exact ((CircuitOram.onController_works Controller.checkStash_works).steady hQ).bind fun _ => Eff.Keeps.pure _

theorem dummyAccess_steady :
    Eff.Keeps (CircuitOram.Scheduled Q) (CircuitOram.dummyAccess : Eff Error (CircuitOram M P ρ) Unit) := by
  refine Eff.Keeps.get_bind fun s h => ?_
  refine Eff.Keeps.apply (Eff.Keeps.bind ?_ fun _ => ?_) h
  · exact modify_steady fun _ => rfl
  · refine ((CircuitOram.readAndRewritePath_works _).steady hQ).bind fun _ => ?_
    refine ((CircuitOram.onController_works Controller.recordAccess_works).steady hQ).bind fun _ => ?_
    exact (CircuitOram.onController_works Controller.checkStash_works).steady hQ

theorem dummyAccessBatch_steady (count : Nat) :
    Eff.Keeps (CircuitOram.Scheduled Q) (CircuitOram.dummyAccessBatch count : Eff Error (CircuitOram M P ρ) Unit) := by
  intro s h
  rw [CircuitOram.dummyAccessBatch, Eff.ite_apply]
  split
  · exact h
  · rw [Eff.get_bind]
    refine Eff.Keeps.apply (Eff.Keeps.bind ?_ fun _ => ?_) h
    · exact modify_steady fun _ => rfl
    · refine ((CircuitOram.readOverlays_works _).steady hQ).bind fun _ => ?_
      refine ((CircuitOram.writeOverlays_works _ _).steady hQ).bind fun _ => ((recordAll_works _).steady hQ).bind fun _ => ?_
      exact (CircuitOram.onController_works Controller.checkStash_works).steady hQ

/-- Whichever way a call ends, it only counted accesses and completed evictions. -/
theorem Op.run_steady (op : Op) :
    Eff.Keeps (CircuitOram.Scheduled Q) (op.run : Eff Error (CircuitOram M P ρ) (List Bytes)) := by
  cases op with
  | access logicalId update => exact (access_steady hQ logicalId update).bind fun _ => Eff.Keeps.pure _
  | accessBatch logicalIds update => exact accessBatch_steady hQ logicalIds update
  | dummyAccess => exact (dummyAccess_steady hQ).bind fun _ => Eff.Keeps.pure _
  | dummyAccessBatch count => exact (dummyAccessBatch_steady hQ count).bind fun _ => Eff.Keeps.pure _
  | drainEvictions budget => exact (drainEvictions_steady hQ budget).bind fun _ => Eff.Keeps.pure _

end

section
variable [PageStore M] [PageStore P] [TrustedBlockSource S] [Rng ρ] {HM : HonestStore M} {HP : HonestStore P}
  {HS : HonestSource S} {Fails : CircuitOram M P ρ → Op → Prop} {s : CircuitOram M P ρ} {v : Memory}

theorem Reached.steady (h : Reached p HM HP HS Fails s v) (hnew : Q (CircuitEvictionSchedule.new p)) : Q s.schedule := by
  induction h with
  | build hm hp hs hbuild =>
    obtain ⟨plan, stash, m, q, -, rfl⟩ := buildTrustedFromSource_state hbuild
    exact hnew
  | ok op _ hrun ih =>
    have hkeeps := op.run_steady hQ _ ih
    rwa [hrun] at hkeeps
  | failed op _ hrun _ ih =>
    have hkeeps := op.run_steady hQ _ ih
    rwa [hrun] at hkeeps
  | reopen _ _ _ ht ih =>
    obtain ⟨-, -, rfl⟩ := fromState_ok ht
    exact ih

omit hQ in
theorem Reached.owed (h : Reached p HM HP HS Fails s v) : s.schedule.Owed :=
  h.steady CircuitEvictionSchedule.owed_steady (Nat.zero_le _)

omit hQ in
theorem Reached.evictionsPerAccess (h : Reached p HM HP HS Fails s v) :
    s.schedule.evictionsPerAccess = CircuitEvictionSchedule.defaultEvictionsPerAccess :=
  h.steady (CircuitEvictionSchedule.rate_steady _) rfl

end
end

/-! ## What is drained -/

/-- The schedule's counters: accesses issued, evictions an access, evictions completed. -/
def CircuitEvictionSchedule.counters (s : CircuitEvictionSchedule) : Nat × Nat × Nat :=
  (s.issuedAccesses.toNat, s.evictionsPerAccess.toNat, s.completedEvictions.toNat)

theorem Effect.counters {c c' : Controller ρ} {posMap : List UInt32} {rng : ρ} {n : Nat} (h : Effect c posMap rng n c') :
    c'.schedule.counters
      = (c.schedule.issuedAccesses.toNat + n, c.schedule.evictionsPerAccess.toNat, c.schedule.completedEvictions.toNat) := by
  obtain ⟨⟨stash, rfl⟩, hroom⟩ := h
  rcases hroom with rfl | hroom
  · rw [CircuitEvictionSchedule.record_zero]
    rfl
  · simp only [CircuitEvictionSchedule.counters, CircuitEvictionSchedule.record_issued hroom]
    rfl

theorem drainEvictions_counters [PathPageStore M] [PathPageStore P] {s s' : CircuitOram M P ρ} {budget k : UInt64}
    (h : CircuitOram.drainEvictions budget s = (.ok k, s')) : k.toNat = min budget.toNat (s.schedule.owedAfter 0) ∧
    s.schedule.completedEvictions.toNat + s.schedule.owedAfter 0 < 2 ^ 64 ∧ s'.schedule.counters
      = (s.schedule.issuedAccesses.toNat, s.schedule.evictionsPerAccess.toNat,
        s.schedule.completedEvictions.toNat + k.toNat) := by
  obtain ⟨n, hn, rfl, stash, hctl⟩ := drainEvictions_effect h
  obtain ⟨hsum, hlt⟩ := CircuitEvictionSchedule.pendingEvictions_ok hn
  have hmin : (min budget n).toNat = min budget.toNat n.toNat := by
    change (if budget ≤ n then budget else n).toNat = _
    split
    · rename_i hle
      rw [Nat.min_eq_left (UInt64.le_iff_toNat_le.mp hle)]
    · rename_i hle
      rw [Nat.min_eq_right (Nat.le_of_not_le fun h => hle (UInt64.le_iff_toNat_le.mpr h))]
  have howed : s.schedule.owedAfter 0 = n.toNat := by
    rw [CircuitEvictionSchedule.owedAfter, Nat.add_zero]
    omega
  rw [howed, hctl]
  refine ⟨hmin, by omega, ?_⟩
  simp only [CircuitEvictionSchedule.counters, CircuitEvictionSchedule.advance, UInt64.ofNat_toNat]
  rw [UInt64.toNat_add, Nat.mod_eq_of_lt (by omega)]

/-- One drain after an access, and `n` more accesses with a drain after each: when the debt
    does not last, every access pays for itself. -/
theorem drained_each {issued rate completed budget : Nat} (n : Nat) (h : completed ≤ issued * rate) :
    min budget ((issued + 1) * rate - completed)
        + min (n * budget) ((issued + 1 + n) * rate - (completed + min budget ((issued + 1) * rate - completed)))
      = min ((n + 1) * budget) ((issued + (n + 1)) * rate - completed) := by
  have h1 : (issued + 1) * rate = issued * rate + rate := Nat.succ_mul _ _
  have h2 : (issued + 1 + n) * rate = issued * rate + rate + n * rate := by rw [Nat.add_mul, h1]
  have h3 : (issued + (n + 1)) * rate = issued * rate + rate + n * rate := by rw [← h2]; congr 1; omega
  have h4 : (n + 1) * budget = n * budget + budget := Nat.succ_mul _ _
  rw [h1, h2, h3, h4]
  rcases Nat.le_total budget (issued * rate + rate - completed) with hle | hle
  · rw [Nat.min_eq_left hle]
    omega
  · have hrate : n * rate ≤ n * budget := Nat.mul_le_mul_left n (by omega)
    rw [Nat.min_eq_right hle]
    omega

end BpirOram
