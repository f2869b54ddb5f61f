/-
  BpirOram.Circuit.Drain — the operations that serve no request: draining evictions and
  dummy accesses. They keep every block and every payload.
-/

import BpirOram.Circuit.Conserve

namespace BpirOram

open Lib

variable {ρ : Type} {p : OramParams}

/-! ## The schedule -/

theorem Blocks.forEach_onController {α β : Type} (f : α → Eff Error (Controller ρ) β) (l : List α) :
    Eff.forEach (fun a => Blocks.onController (f a)) l
      = (Blocks.onController (Eff.forEach f l) : Eff Error (Blocks ρ) (List β)) := by
  apply Eff.forEach_zoom <;> intros <;> rfl

/-- A debt of `n` paths lets `n` paths through. -/
theorem completeAll_ok {α : Type} {b : Blocks ρ} {n : UInt64} (h : b.schedule.pendingEvictions = .ok n) {l : List α}
    (hl : l.length ≤ n.toNat) :
    Eff.forEach (fun _ : α => Blocks.onController (Controller.onSchedule CircuitEvictionSchedule.completeOneEviction)) l b
      = (.ok ((List.range l.length).map fun i => some (b.schedule.advance i).nextEvictionLeaf),
        { b with schedule := b.schedule.advance l.length }) := by
  have hloop := CircuitEvictionSchedule.completeAll_ok h hl
  rw [Blocks.forEach_onController, Controller.forEach_onSchedule]
  simp only [Blocks.onController, Controller.onSchedule, Eff.zoom, hloop]

theorem checkStash_run {b : Blocks ρ} (h : b.Shape p) : Blocks.onController Controller.checkStash b = (.ok (), b) := by
  simp only [Blocks.onController, Eff.zoom, Controller.checkStash_ok h.controller]

/-- Counting accesses: it stops when the counter is full. -/
theorem recordAll {α : Type} (b : Blocks ρ) (l : List α) :
    ∃ r schedule, Eff.forEach (fun _ : α =>
        Blocks.onController (Controller.onSchedule CircuitEvictionSchedule.recordAccess)) l b
          = (r, { b with schedule }) ∧ schedule.leafBits = b.schedule.leafBits ∧
        b.schedule.issuedAccesses.toNat ≤ schedule.issuedAccesses.toNat ∧
        ∀ e, r = .error e → e = .invalidInput "access counter overflow" := by
  induction l generalizing b with
  | nil => exact ⟨_, b.schedule, rfl, rfl, Nat.le_refl _, fun e he => by cases he⟩
  | cons a l ih =>
    have hrec : Blocks.onController (Controller.onSchedule CircuitEvictionSchedule.recordAccess) b
        = (if b.Countable then (.ok (), { b with toController := b.counted })
            else (.error (.invalidInput "access counter overflow"), b)) := by
      simp only [Blocks.onController, Eff.zoom, Controller.recordAccess_eq]
      split <;> rfl
    by_cases hcount : b.Countable
    · rw [if_pos hcount] at hrec
      obtain ⟨r, schedule, hrest, hbits, hle, he⟩ := ih { b with toController := b.counted }
      change b.counted.schedule.issuedAccesses.toNat ≤ _ at hle
      rw [Controller.counted_issued hcount] at hle
      replace hle := Nat.le_of_succ_le hle
      cases r with
      | error e => exact ⟨.error e, schedule, Eff.forEach_error_tail hrec hrest, hbits, hle, he⟩
      | ok outs => exact ⟨.ok (() :: outs), schedule, Eff.forEach_ok hrec hrest, hbits, hle, fun e he => by cases he⟩
    · rw [if_neg hcount] at hrec
      exact ⟨.error _, b.schedule, Eff.forEach_error_head hrec, rfl, Nat.le_refl _, fun e he => by cases he; rfl⟩

/-! ## Evicting several paths -/

theorem Evicted.trans {b b₁ b₂ : Blocks ρ} (h : Evicted p b b₁) (h' : Evicted p b₁ b₂) : Evicted p b b₂ where
  sound := h'.sound
  controller := by
    obtain ⟨s₁, h₁⟩ := h.controller
    obtain ⟨s₂, h₂⟩ := h'.controller
    exact ⟨s₂, by rw [h₂, h₁]⟩
  blocks := h'.blocks.trans h.blocks
  occupied := h'.occupied.trans h.occupied

theorem Sound.evictAll {b : Blocks ρ} (h : Sound p b) {leaves : List UInt32}
    (hl : ∀ leaf ∈ leaves, leaf.toNat < p.leaves) :
    ∃ outs b', Eff.forEach Blocks.evict (leaves.map p.pathNodes) b = (.ok outs, b') ∧ Evicted p b b' := by
  induction leaves generalizing b with
  | nil => exact ⟨[], b, rfl, h, ⟨b.stash, rfl⟩, rfl, Nat.le_refl _⟩
  | cons leaf leaves ih =>
    obtain ⟨b₁, hrun, he⟩ := h.evict (hl leaf (by simp))
    obtain ⟨outs, b₂, hrest, he'⟩ := ih he.sound fun x hx => hl x (by simp [hx])
    exact ⟨() :: outs, b₂, Eff.forEach_ok hrun hrest, he.trans he'⟩

/-- The leaves of the next evictions. -/
def evictionLeaves (p : OramParams) (schedule : CircuitEvictionSchedule) (toDrain : UInt64) : List UInt32 :=
  (List.range toDrain.toNat).map fun offset =>
    CircuitEvictionSchedule.evictionLeafAt p (schedule.completedEvictions + UInt64.ofNat offset)

theorem evictionPaths_eq {c : Controller ρ} (hc : c.Shape p) (toDrain : UInt64) :
    CircuitOram.evictionPaths c toDrain = (evictionLeaves p c.schedule toDrain).map p.pathNodes := by
  rw [CircuitOram.evictionPaths, evictionLeaves, hc.params, List.map_map]
  rfl

theorem evictionLeaves_lt (p : OramParams) (schedule : CircuitEvictionSchedule) (toDrain : UInt64) :
    ∀ leaf ∈ evictionLeaves p schedule toDrain, leaf.toNat < p.leaves := by
  intro leaf h
  obtain ⟨offset, -, rfl⟩ := List.mem_map.mp h
  exact CircuitEvictionSchedule.evictionLeafAt_lt p _

/-! ## Draining -/

/-- What draining leaves. -/
structure Drained (p : OramParams) (b b' : Blocks ρ) : Prop where
  sound : Sound p b'
  posMap : b'.posMap = b.posMap
  issued : b'.schedule.issuedAccesses = b.schedule.issuedAccesses
  blocks : b'.blocks p = b.blocks p
  occupied : b'.stash.countP (·.occupied) ≤ b.stash.countP (·.occupied)

theorem Drained.inv {b b' : Blocks ρ} {v : Memory} (h : Drained p b b') (hi : Inv p b v) : Inv p b' v :=
  ⟨h.sound.shape, by rw [h.blocks, hi.blocks, h.posMap], h.sound.onPath⟩

/-- The work of a drain: it never overflows the stash. -/
theorem Sound.drainBody {b : Blocks ρ} (h : Sound p b) (toDrain : UInt64) :
    ∃ outs b', Eff.forEach Blocks.evict (CircuitOram.evictionPaths b.toController toDrain) b = (.ok outs, b') ∧
      Evicted p b b' := by
  rw [evictionPaths_eq h.shape.controller]
  exact h.evictAll (evictionLeaves_lt p _ _)

theorem evictionPaths_length (c : Controller ρ) (toDrain : UInt64) :
    (CircuitOram.evictionPaths c toDrain).length = toDrain.toNat := by
  rw [CircuitOram.evictionPaths, List.length_map, List.length_range]

/-- A drain evicts the next paths in order, and counts them. -/
theorem Sound.drainEvictions_eq {b : Blocks ρ} (h : Sound p b) {n : UInt64}
    (hn : b.schedule.pendingEvictions = .ok n) (budget : UInt64) :
    ∃ outs b', Eff.forEach Blocks.evict (CircuitOram.evictionPaths b.toController (min budget n)) b = (.ok outs, b') ∧
      Evicted p b b' ∧ Blocks.drainEvictions budget .none b
        = (.ok (min budget n), { b' with schedule := b.schedule.advance (min budget n).toNat }) := by
  obtain ⟨outs, b₁, hrun, he⟩ := h.drainBody (min budget n)
  obtain ⟨stash, hctl⟩ := he.controller
  have hsched : b₁.schedule = b.schedule := by rw [hctl]
  refine ⟨outs, b₁, hrun, he, ?_⟩
  simp only [Blocks.drainEvictions, Eff.get_bind, hn, Eff.lift_ok_bind]
  by_cases hz : min budget n = 0
  · rw [hz] at hrun
    cases hrun
    rw [if_pos hz, hz, UInt64.toNat_zero, CircuitEvictionSchedule.advance_zero]
    rfl
  · rw [if_neg hz]
    have hbr : Blocks.bracket .none (Eff.forEach Blocks.evict (CircuitOram.evictionPaths b.toController (min budget n))) b
        = (.ok outs, b₁) := by
      simp only [Blocks.bracket, hrun]
    have hcomp := completeAll_ok (hsched ▸ hn) (l := CircuitOram.evictionPaths b.toController (min budget n)) (by
      rw [evictionPaths_length]
      exact UInt64.le_iff_toNat_le.mp (min_le budget n))
    rw [evictionPaths_length, hsched] at hcomp
    have hsound : Sound p { b₁ with schedule := b.schedule.advance (min budget n).toNat } :=
      he.sound.frame b₁.rng h.shape.controller.leafBits
    rw [Eff.bind_ok hbr, Eff.bind_ok hcomp, Eff.bind_ok (checkStash_run hsound.shape)]
    rfl

theorem Sound.drainEvictions {b : Blocks ρ} (h : Sound p b) {n : UInt64}
    (hn : b.schedule.pendingEvictions = .ok n) (budget : UInt64) :
    ∃ b', Blocks.drainEvictions budget .none b = (.ok (min budget n), b') ∧ Drained p b b' := by
  obtain ⟨outs, b₁, -, he, hrun⟩ := h.drainEvictions_eq hn budget
  obtain ⟨stash, hctl⟩ := he.controller
  refine ⟨_, hrun, he.sound.frame b₁.rng ?_, by rw [hctl], rfl, he.blocks, he.occupied⟩
  exact h.shape.controller.leafBits

/-! ## Dummy accesses -/

theorem mixPages_self (slots : List OramBlock) : mixPages slots slots = slots := by
  induction slots with
  | nil => rfl
  | cons x slots ih => rw [mixPages, List.zipWith_cons_cons, ← mixPages, ih]

/-- Writing back what was read changes nothing, whichever call fails. -/
theorem bracket_pure (fault : Fault) (b : Blocks ρ) :
    Blocks.bracket fault (pure ()) b = (fault.result, b) := by
  cases fault
  case payloadWrite e => simp only [Blocks.bracket, Eff.pure_apply, mixPages_self, Fault.result]
  all_goals rfl

section
variable {b : Blocks ρ}

/-- What follows the writes of a dummy access: only the schedule moves. -/
theorem afterDummy {α : Type} (h : b.Shape p) (fault : Fault) (l : List α) :
    ∃ r schedule, (Blocks.bracket fault (pure ()) >>= fun _ =>
      Eff.forEach (fun _ : α => Blocks.onController (Controller.onSchedule CircuitEvictionSchedule.recordAccess)) l >>= fun _ =>
      Blocks.onController Controller.checkStash) b = (r, { b with schedule }) ∧
      schedule.leafBits = p.leafBits ∧ b.schedule.issuedAccesses.toNat ≤ schedule.issuedAccesses.toNat ∧
      ∀ e, r = .error e → fault.result = .error e ∨ e = .invalidInput "access counter overflow" := by
  have hbr := bracket_pure fault b
  have hb := h.controller.leafBits
  rcases hf : fault.result with e | u <;> rw [hf] at hbr
  · exact ⟨_, b.schedule, Eff.bind_error hbr, hb, Nat.le_refl _, fun e he => .inl he⟩
  · rw [Eff.bind_ok hbr]
    obtain ⟨r, schedule, hrec, hbits, hle, he⟩ := recordAll b l
    have hshape : Blocks.Shape p { b with schedule } :=
      ⟨{ h.controller with leafBits := hbits.trans hb }, h.tree⟩
    cases r with
    | error e =>
      rw [Eff.bind_error hrec]
      exact ⟨_, schedule, rfl, hbits.trans hb, hle, fun e' he' => .inr (by cases he'; exact he e rfl)⟩
    | ok outs =>
      rw [Eff.bind_ok hrec, checkStash_run hshape]
      exact ⟨_, schedule, rfl, hbits.trans hb, hle, fun e he => by cases he⟩

variable [Rng ρ]

theorem dummyAccess_eq (h : b.Shape p) (fault : Fault) :
    ∃ r rng schedule, Blocks.dummyAccess fault b = (r, { b with rng, schedule }) ∧
      schedule.leafBits = p.leafBits ∧ b.schedule.issuedAccesses.toNat ≤ schedule.issuedAccesses.toNat ∧
      ∀ e, r = .error e → fault.result = .error e ∨ e = .invalidInput "access counter overflow" := by
  simp only [Blocks.dummyAccess, Eff.get_bind]
  have hone : (Eff.forEach (fun _ : Unit =>
      Blocks.onController (Controller.onSchedule CircuitEvictionSchedule.recordAccess)) [()] >>= fun _ =>
      Blocks.onController Controller.checkStash)
      = (Blocks.onController (Controller.onSchedule CircuitEvictionSchedule.recordAccess) >>= fun _ =>
        Blocks.onController Controller.checkStash : Eff Error (Blocks ρ) Unit) := by
    simp only [Eff.forEach, Eff.bind_assoc, Eff.pure_bind]
  obtain ⟨r, schedule, hrun, hrest⟩ := afterDummy (b := { b with rng := (randomLeaf b.params b.rng).2 })
    ⟨{ h.controller with }, h.tree⟩ fault [()]
  rw [hone] at hrun
  exact ⟨r, _, schedule, hrun, hrest⟩

theorem dummyAccessBatch_eq (h : b.Shape p) (count : Nat) (fault : Fault) :
    ∃ r rng schedule, Blocks.dummyAccessBatch count fault b = (r, { b with rng, schedule }) ∧
      schedule.leafBits = p.leafBits ∧ b.schedule.issuedAccesses.toNat ≤ schedule.issuedAccesses.toNat ∧
      ∀ e, r = .error e → fault.result = .error e ∨ e = .invalidInput "access counter overflow" := by
  rw [Blocks.dummyAccessBatch]
  split
  · exact ⟨_, b.rng, b.schedule, rfl, h.controller.leafBits, Nat.le_refl _, fun e he => by cases he⟩
  · obtain ⟨r, schedule, hrun, hrest⟩ := afterDummy (b := { b with rng := (randomLeaves b.params count b.rng).2 })
      ⟨{ h.controller with }, h.tree⟩ fault (List.range count)
    exact ⟨r, _, schedule, hrun, hrest⟩

end
end BpirOram
