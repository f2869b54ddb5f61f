/-
  BpirOram.Circuit.Effects — what a call that ended well did to the position map, the
  generator and the schedule, whatever its stores answered.

  The steps between the draws move blocks in and out of the stash and count accesses,
  nothing else (`Worked`). So a call that ends well has moved the controller as its request
  alone says (`access_effect` … `drainEvictions_effect`).
-/

import BpirOram.Circuit.Build

namespace BpirOram

open Lib

variable {M P ρ σ τ α β : Type}

/-- A schedule after `k` more accesses. -/
def CircuitEvictionSchedule.record (s : CircuitEvictionSchedule) (k : Nat) : CircuitEvictionSchedule :=
  { s with issuedAccesses := s.issuedAccesses + UInt64.ofNat k }

theorem CircuitEvictionSchedule.record_zero (s : CircuitEvictionSchedule) : s.record 0 = s := by
  rw [record, show UInt64.ofNat 0 = 0 from rfl, UInt64.add_zero]

theorem CircuitEvictionSchedule.record_record (s : CircuitEvictionSchedule) (j k : Nat) :
    (s.record j).record k = s.record (j + k) := by
  simp only [record, UInt64.ofNat_add, UInt64.add_assoc]

theorem CircuitEvictionSchedule.record_issued {s : CircuitEvictionSchedule} {k : Nat}
    (h : s.issuedAccesses.toNat + k < 2 ^ 64) : (s.record k).issuedAccesses.toNat = s.issuedAccesses.toNat + k := by
  rw [record, UInt64.toNat_add, UInt64.toNat_ofNat', Nat.mod_eq_of_lt (show k < 2 ^ 64 by omega), Nat.mod_eq_of_lt h]

/-- The controller after some work on its stash and `n` accesses counted. -/
structure Worked (n : Nat) (c c' : Controller ρ) : Prop where
  eq : ∃ stash, c' = { c with stash, schedule := c.schedule.record n }
  room : n = 0 ∨ c.schedule.issuedAccesses.toNat + n < 2 ^ 64

theorem Worked.stash (c : Controller ρ) (stash : List OramBlock) : Worked 0 c { c with stash } :=
  ⟨⟨stash, by rw [CircuitEvictionSchedule.record_zero]⟩, .inl rfl⟩

theorem Worked.refl (c : Controller ρ) : Worked 0 c c := .stash c c.stash

theorem Worked.trans {n m : Nat} {c c' c'' : Controller ρ} (h : Worked n c c') (h' : Worked m c' c'') :
    Worked (n + m) c c'' := by
  obtain ⟨⟨stash, rfl⟩, hroom⟩ := h
  obtain ⟨⟨stash', rfl⟩, hroom'⟩ := h'
  refine ⟨⟨stash', by simp only [CircuitEvictionSchedule.record_record]⟩, ?_⟩
  rcases hroom with rfl | hroom
  · rw [CircuitEvictionSchedule.record_zero] at hroom'
    rwa [Nat.zero_add]
  · rw [CircuitEvictionSchedule.record_issued hroom] at hroom'
    omega

theorem Worked.params {n : Nat} {c c' : Controller ρ} (h : Worked n c c') : c'.params = c.params := by
  obtain ⟨⟨stash, rfl⟩, -⟩ := h
  rfl

theorem Worked.posMap {n : Nat} {c c' : Controller ρ} (h : Worked n c c') : c'.posMap = c.posMap := by
  obtain ⟨⟨stash, rfl⟩, -⟩ := h
  rfl

theorem Worked.rng {n : Nat} {c c' : Controller ρ} (h : Worked n c c') : c'.rng = c.rng := by
  obtain ⟨⟨stash, rfl⟩, -⟩ := h
  rfl

theorem Worked.schedule {c c' : Controller ρ} (h : Worked 0 c c') : c'.schedule = c.schedule := by
  obtain ⟨⟨stash, rfl⟩, -⟩ := h
  exact CircuitEvictionSchedule.record_zero _

/-! ## Steps that work on the stash -/

/-- `m` worked on the stash and counted `n` accesses; when it ended early, at most `n`. -/
structure Works (ctl : σ → Controller ρ) (n : Nat) (m : Eff Error σ α) : Prop where
  early : ∀ s, ∃ k ≤ n, Worked k (ctl s) (ctl (m s).2)
  all : ∀ s a t, m s = (.ok a, t) → Worked n (ctl s) (ctl t)

section
variable {ctl : σ → Controller ρ} {n k : Nat}

/-- A step that counts no access. -/
theorem Works.of_worked {m : Eff Error σ α} (h : ∀ s, Worked 0 (ctl s) (ctl (m s).2)) : Works ctl 0 m where
  early s := ⟨0, Nat.le_refl _, h s⟩
  all s a t hm := by
    have hs := h s
    rwa [hm] at hs

theorem Works.of_state {m : Eff Error σ α} (h : ∀ s, ctl (m s).2 = ctl s) : Works ctl 0 m := by
  refine .of_worked fun s => ?_
  rw [h s]
  exact .refl _

theorem Works.pure (a : α) : Works ctl 0 (pure a : Eff Error σ α) := .of_state fun _ => rfl

theorem Works.lift (r : Result α) : Works ctl 0 (Eff.lift r : Eff Error σ α) := .of_state fun _ => rfl

theorem Works.fail (e : Error) : Works ctl n (Eff.fail e : Eff Error σ α) where
  early s := ⟨0, Nat.zero_le _, .refl _⟩
  all s a t hm := by cases hm

theorem Works.bind {m : Eff Error σ α} {f : α → Eff Error σ β} (hm : Works ctl n m) (hf : ∀ a, Works ctl k (f a)) :
    Works ctl (n + k) (m >>= f) where
  early s := by
    rcases hms : m s with ⟨e | a, t⟩
    · obtain ⟨j, hj, hw⟩ := hm.early s
      rw [hms] at hw
      rw [Eff.bind_error hms]
      exact ⟨j, by omega, hw⟩
    · obtain ⟨j, hj, hw⟩ := (hf a).early t
      rw [Eff.bind_ok hms]
      exact ⟨n + j, by omega, (hm.all s a t hms).trans hw⟩
  all s b u h := by
    obtain ⟨a, t, h1, h2⟩ := Eff.bind_eq_ok h
    exact (hm.all s a t h1).trans ((hf a).all t b u h2)

/-- What follows a step that counts no access. -/
theorem Works.after {m : Eff Error σ α} {f : α → Eff Error σ β} (hm : Works ctl 0 m) (hf : ∀ a, Works ctl k (f a)) :
    Works ctl k (m >>= f) := by
  have h := hm.bind hf
  rwa [Nat.zero_add] at h

theorem Works.get_bind {f : σ → Eff Error σ β} (hf : ∀ s, Works ctl n (f s)) : Works ctl n (Eff.get >>= f) where
  early s := (hf s).early s
  all s b t h := (hf s).all s b t h

theorem Works.forEach {f : α → Eff Error σ β} {l : List α} (h : ∀ a ∈ l, Works ctl n (f a)) :
    Works ctl (n * l.length) (Eff.forEach f l) := by
  induction l with
  | nil => exact .pure _
  | cons a l ih =>
    rw [List.length_cons, Nat.mul_succ, Nat.add_comm, Eff.forEach]
    exact (h a (by simp)).bind fun b => (ih fun x hx => h x (by simp [hx])).bind fun bs => .pure _

theorem Works.zoom {ctl' : τ → Controller ρ} {proj : τ → σ} {put : σ → τ → τ} {m : Eff Error σ α}
    (hm : Works ctl n m)
    (hproj : ∀ w, ctl (proj w) = ctl' w) (hput : ∀ s w, ctl' (put s w) = ctl s) : Works ctl' n (Eff.zoom proj put m) where
  early w := by
    obtain ⟨k, hk, hw⟩ := hm.early (proj w)
    rw [hproj] at hw
    exact ⟨k, hk, by rw [Eff.zoom, hput]; exact hw⟩
  all w a w' h := by
    have h1 := congrArg Prod.fst h
    have h2 := congrArg Prod.snd h
    cases h2
    rw [hput, ← hproj]
    exact hm.all _ a _ (Prod.ext h1 rfl)

end

namespace Controller

theorem checkStash_works : Works id 0 (checkStash : Eff Error (Controller ρ) Unit) := by
  refine .get_bind fun c => ?_
  split
  · exact .fail _
  · split
    · exact .fail _
    · exact .pure _

theorem insertBlock_works (block : OramBlock) (choice : Ct.Choice) :
    Works id 0 (insertBlock block choice : Eff Error (Controller ρ) Unit) := by
  refine .of_worked fun c => ?_
  rw [insertBlock, Eff.get_bind, Eff.modify_bind]
  split <;> exact .stash _ _

theorem insertIntoStash_works (block : OramBlock) : Works id 0 (insertIntoStash block : Eff Error (Controller ρ) Unit) :=
  insertBlock_works block _

theorem insertCandidateIntoStash_works (slot : CircuitMetaSlot) (payload : Bytes) (choice : Ct.Choice) :
    Works id 0 (insertCandidateIntoStash slot payload choice : Eff Error (Controller ρ) Unit) := by
  refine .get_bind fun c => ?_
  split
  · exact .fail _
  · exact insertBlock_works _ _

theorem ensureEvictionStashCapacity_works (plan : CircuitEvictionPlan) :
    Works id 0 (ensureEvictionStashCapacity plan : Eff Error (Controller ρ) Unit) := by
  refine .get_bind fun c => ?_
  simp only
  split
  · exact .fail _
  · exact .pure _

theorem clearSelected_works (plan : CircuitEvictionPlan) :
    Works id 0 (clearSelected plan : Eff Error (Controller ρ) Unit) :=
  .of_worked fun _ => .stash _ _

theorem recordAccess_works :
    Works id 1 (onSchedule CircuitEvictionSchedule.recordAccess : Eff Error (Controller ρ) Unit) := by
  have hrun : ∀ c : Controller ρ, (∃ k ≤ 1, Worked k c (onSchedule CircuitEvictionSchedule.recordAccess c).2) ∧
      ∀ a t, onSchedule CircuitEvictionSchedule.recordAccess c = (.ok a, t) → Worked 1 c t := by
    intro c
    by_cases hroom : c.schedule.issuedAccesses.toNat + 1 < 2 ^ 64
    · have hworked : Worked 1 c (onSchedule CircuitEvictionSchedule.recordAccess c).2 := by
        refine ⟨⟨c.stash, ?_⟩, .inr hroom⟩
        simp only [onSchedule, Eff.zoom, CircuitEvictionSchedule.recordAccess_ok hroom]
        rfl
      exact ⟨⟨1, Nat.le_refl _, hworked⟩, fun a t h => by rwa [h] at hworked⟩
    · have herr : onSchedule CircuitEvictionSchedule.recordAccess c = (.error (.invalidInput "access counter overflow"), c) := by
        simp only [onSchedule, Eff.zoom, CircuitEvictionSchedule.recordAccess_error hroom]
      rw [herr]
      exact ⟨⟨0, Nat.zero_le _, .refl c⟩, fun a t h => by cases h⟩
  exact ⟨fun c => (hrun c).1, fun c => (hrun c).2⟩

theorem finishRequest_works (logicalId : UInt64) (newLeaf : UInt32) (update : Update) :
    Works id 1 (finishRequest logicalId newLeaf update : Eff Error (Controller ρ) Bytes) := by
  refine .get_bind fun c => ?_
  simp only
  split
  · exact .fail _
  · exact (Works.of_worked fun _ => .stash _ _).after fun _ => recordAccess_works.bind (k := 0) fun _ => .pure _

end Controller

namespace Overlaid

theorem onController_works {n : Nat} {m : Eff Error (Controller ρ) α} (h : Works id n m) :
    Works (·.toController) n (onController m : Eff Error (Overlaid ρ) α) :=
  h.zoom (fun _ => rfl) fun _ _ => rfl

theorem getMeta_works (pageIdx : Nat) (msg : String) :
    Works (·.toController) 0 (getMeta pageIdx msg : Eff Error (Overlaid ρ) Bytes) :=
  .get_bind fun _ => .lift _

theorem getPayload_works (pageIdx : Nat) (msg : String) :
    Works (·.toController) 0 (getPayload pageIdx msg : Eff Error (Overlaid ρ) Bytes) :=
  .get_bind fun _ => .lift _

theorem setPages_works (pageIdx : Nat) (metaBuf payloadBuf : Bytes) :
    Works (·.toController) 0 (setPages pageIdx metaBuf payloadBuf : Eff Error (Overlaid ρ) Unit) :=
  .of_state fun _ => rfl

theorem removeAlong_works (logicalId : UInt64) (path : List Nat) (r : Removal) :
    Works (·.toController) 0 (removeAlong logicalId path r : Eff Error (Overlaid ρ) Removal) := by
  induction path generalizing r with
  | nil => exact .pure _
  | cons pageIdx path ih =>
    refine (getMeta_works _ _).after fun metaBuf => (getPayload_works _ _).after fun payloadBuf => ?_
    refine .get_bind fun s => (Works.lift _).after fun pages => ?_
    exact (setPages_works _ _ _).after fun _ => ih _

theorem removeTargetFromOverlays_works (path : List Nat) (logicalId : UInt64) :
    Works (·.toController) 0 (removeTargetFromOverlays path logicalId : Eff Error (Overlaid ρ) Unit) :=
  .get_bind fun _ => (removeAlong_works _ _ _).after fun _ =>
    onController_works (Controller.insertIntoStash_works _)

theorem pathMetadataFromOverlay_works (path : List Nat) :
    Works (·.toController) 0 (pathMetadataFromOverlay path : Eff Error (Overlaid ρ) (List CircuitMetaBucket)) := by
  rw [← Nat.zero_mul path.length]
  exact .forEach fun pageIdx _ => (getMeta_works _ _).after fun _ => .get_bind fun _ => .lift _

theorem loadPathPayloads_works (l : List (Nat × List Nat)) (payloads : List Bytes) :
    Works (·.toController) 0 (loadPathPayloads l payloads : Eff Error (Overlaid ρ) (List Bytes)) := by
  induction l generalizing payloads with
  | nil => exact .pure _
  | cons x l ih =>
    exact (getPayload_works _ _).after fun _ => .get_bind fun _ => (Works.lift _).after fun _ => ih _

theorem loadEvictionPayloadsFromOverlay_works (path : List Nat) (pathMeta : List CircuitMetaBucket)
    (plan : CircuitEvictionPlan) :
    Works (·.toController) 0 (loadEvictionPayloadsFromOverlay path pathMeta plan : Eff Error (Overlaid ρ) (List Bytes)) := by
  refine .get_bind fun s => ?_
  split
  · exact .fail _
  · exact loadPathPayloads_works _ _

theorem reinsertCandidate_works (plan : CircuitEvictionPlan) (payloads : List Bytes) (candidateIdx : Nat) :
    Works (·.toController) 0 (reinsertCandidate plan payloads candidateIdx : Eff Error (Overlaid ρ) Unit) := by
  unfold reinsertCandidate
  split
  · exact onController_works (Controller.insertCandidateIntoStash_works _ _ _)
  · exact .fail _

theorem placeBucketAt_works (plan : CircuitEvictionPlan) (payloads : List Bytes) (pageIdx : Nat)
    (placements : List CircuitEvictionPlacement) :
    Works (·.toController) 0 (placeBucketAt plan payloads pageIdx placements : Eff Error (Overlaid ρ) Unit) :=
  .get_bind fun _ => (Works.lift _).after fun _ => (Works.lift _).after fun _ => setPages_works _ _ _

theorem applyEvictionPlanToOverlays_works (path : List Nat) (pathMeta : List CircuitMetaBucket)
    (plan : CircuitEvictionPlan) :
    Works (·.toController) 0 (applyEvictionPlanToOverlays path pathMeta plan : Eff Error (Overlaid ρ) Unit) := by
  refine (loadEvictionPayloadsFromOverlay_works _ _ _).after fun payloads => ?_
  refine (onController_works (Controller.ensureEvictionStashCapacity_works _)).after fun _ => ?_
  refine (onController_works (Controller.clearSelected_works _)).after fun _ => ?_
  refine Works.after ?_ fun _ => Works.after ?_ fun _ => .pure _
  · rw [← Nat.zero_mul plan.pathCandidateIndices.flatten.length]
    exact .forEach fun _ _ => reinsertCandidate_works _ _ _
  · rw [← Nat.zero_mul (path.zip plan.placements).length]
    exact .forEach fun _ _ => placeBucketAt_works _ _ _ _

theorem evictPathInOverlays_works (path : List Nat) :
    Works (·.toController) 0 (evictPathInOverlays path : Eff Error (Overlaid ρ) Unit) := by
  refine (pathMetadataFromOverlay_works _).after fun _ => (pathMetadataFromOverlay_works _).after fun _ => ?_
  exact .get_bind fun _ => (Works.lift _).after fun _ => applyEvictionPlanToOverlays_works _ _ _

end Overlaid

namespace CircuitOram

theorem onController_works {n : Nat} {m : Eff Error (Controller ρ) α} (h : Works id n m) :
    Works (·.toController) n (onController m : Eff Error (CircuitOram M P ρ) α) :=
  h.zoom (fun _ => rfl) fun _ _ => rfl

theorem onController_ok {m : Eff Error (Controller ρ) α} {s s' : CircuitOram M P ρ} {a : α}
    (h : onController m s = (.ok a, s')) : m s.toController = (.ok a, s'.toController) := by
  have h1 := congrArg Prod.fst h
  have h2 := congrArg Prod.snd h
  cases h2
  exact Prod.ext h1 rfl

theorem forEach_onController (f : α → Eff Error (Controller ρ) β) (l : List α) :
    Eff.forEach (fun a => onController (f a)) l =
      (onController (Eff.forEach f l) : Eff Error (CircuitOram M P ρ) (List β)) := by
  apply Eff.forEach_zoom <;> intros <;> rfl

theorem onMeta_works (m : Eff Error M α) : Works (·.toController) 0 (onMeta m : Eff Error (CircuitOram M P ρ) α) :=
  .of_state fun _ => rfl

theorem onPayload_works (m : Eff Error P α) : Works (·.toController) 0 (onPayload m : Eff Error (CircuitOram M P ρ) α) :=
  .of_state fun _ => rfl

theorem withOverlays_works {n : Nat} {overlays : Overlays} {body : Eff Error (Overlaid ρ) α}
    (h : Works (·.toController) n body) :
    Works (·.toController) n (withOverlays overlays body : Eff Error (CircuitOram M P ρ) (α × Overlays)) where
  early s := h.early { s.toController, overlays with }
  all s a t hm := by
    have h1 := congrArg Prod.fst hm
    have h2 := congrArg Prod.snd hm
    cases h2
    rcases hbody : body { s.toController, overlays with } with ⟨e | b, o⟩
    · simp only [withOverlays, hbody] at h1
      cases h1
    · exact h.all _ b o hbody

variable [PathPageStore M] [PathPageStore P]

theorem readOverlays_works (paths : List (List Nat)) :
    Works (·.toController) 0 (readOverlays paths : Eff Error (CircuitOram M P ρ) Overlays) :=
  (onMeta_works _).after fun _ => (onPayload_works _).after fun _ => .get_bind fun _ =>
    (Works.lift _).after fun _ => (Works.lift _).after fun _ => .pure _

theorem writeOverlays_works (paths : List (List Nat)) (overlays : Overlays) :
    Works (·.toController) 0 (writeOverlays paths overlays : Eff Error (CircuitOram M P ρ) Unit) :=
  (Works.lift _).after fun _ => (Works.lift _).after fun _ => (onMeta_works _).after fun _ => onPayload_works _

theorem readAndRemoveTargetPath_works (leaf : UInt32) (logicalId : UInt64) :
    Works (·.toController) 0 (readAndRemoveTargetPath leaf logicalId : Eff Error (CircuitOram M P ρ) Unit) := by
  refine .get_bind fun s => (onMeta_works _).after fun _ => (onPayload_works _).after fun _ => ?_
  refine (Works.lift _).after fun _ => (onController_works (Controller.insertIntoStash_works _)).after fun _ => ?_
  exact (onMeta_works _).after fun _ => onPayload_works _

theorem readAndRewritePath_works (leaf : UInt32) :
    Works (·.toController) 0 (readAndRewritePath leaf : Eff Error (CircuitOram M P ρ) Unit) :=
  .get_bind fun _ => (onMeta_works _).after fun _ => (onPayload_works _).after fun _ =>
    (onMeta_works _).after fun _ => onPayload_works _

end CircuitOram

/-! ## Calls -/

/-- The controller after a call that left this position map and this generator, and counted
    this many accesses. -/
structure Effect (c : Controller ρ) (posMap : List UInt32) (rng : ρ) (accesses : Nat) (c' : Controller ρ) : Prop where
  eq : ∃ stash, c' = { c with posMap, rng, stash, schedule := c.schedule.record accesses }
  room : accesses = 0 ∨ c.schedule.issuedAccesses.toNat + accesses < 2 ^ 64

/-- A call counts fewer accesses than a word holds. -/
theorem Effect.accesses_lt {c c' : Controller ρ} {posMap : List UInt32} {rng : ρ} {n : Nat} (h : Effect c posMap rng n c') :
    n < 2 ^ 64 := by
  rcases h.room with rfl | hroom
  · decide
  · omega

theorem Worked.effect {n : Nat} {c c' : Controller ρ} (h : Worked n c c') : Effect c c.posMap c.rng n c' := ⟨h.eq, h.room⟩

/-- Work before a call that sets the map and the generator. -/
theorem Effect.after {n k : Nat} {c c₁ c' : Controller ρ} {posMap : List UInt32} {rng : ρ} (h : Worked n c c₁)
    (h' : Effect c₁ posMap rng k c') : Effect c posMap rng (n + k) c' := by
  obtain ⟨⟨s₁, rfl⟩, hroom⟩ := h
  obtain ⟨⟨s₂, rfl⟩, hroom'⟩ := h'
  refine ⟨⟨s₂, by simp only [CircuitEvictionSchedule.record_record]⟩, ?_⟩
  rcases hroom with rfl | hroom
  · simp only [CircuitEvictionSchedule.record_zero] at hroom'
    rwa [Nat.zero_add]
  · simp only [CircuitEvictionSchedule.record_issued hroom] at hroom'
    omega

/-- Work after the map and the generator were set. -/
theorem Worked.effect_of_set {n : Nat} {c c₁ c' : Controller ρ} {posMap : List UInt32} {rng : ρ}
    (hset : ∃ stash, c₁ = { c with posMap, rng, stash }) (h : Worked n c₁ c') : Effect c posMap rng n c' := by
  obtain ⟨s₁, rfl⟩ := hset
  obtain ⟨⟨s₂, rfl⟩, hroom⟩ := h
  exact ⟨⟨s₂, rfl⟩, hroom⟩

section
variable {s s' : CircuitOram M P ρ}

theorem recordAll_works (l : List α) : Works (·.toController) l.length (Eff.forEach (fun _ =>
    CircuitOram.onController (Controller.onSchedule CircuitEvictionSchedule.recordAccess)) l :
      Eff Error (CircuitOram M P ρ) (List Unit)) := by
  have h := Works.forEach (l := l) (f := fun _ => CircuitOram.onController (M := M) (P := P) (ρ := ρ)
    (Controller.onSchedule CircuitEvictionSchedule.recordAccess))
    fun _ _ => CircuitOram.onController_works Controller.recordAccess_works
  rwa [Nat.one_mul] at h

variable [PathPageStore M] [PathPageStore P]

/-- A drain moves the schedule on by what it returns. -/
theorem drainEvictions_effect {budget k : UInt64} (h : CircuitOram.drainEvictions budget s = (.ok k, s')) :
    ∃ n, s.schedule.pendingEvictions = .ok n ∧ k = min budget n ∧
      ∃ stash, s'.toController = { s.toController with stash, schedule := s.schedule.advance k.toNat } := by
  rw [CircuitOram.drainEvictions, Eff.get_bind] at h
  obtain ⟨n, hn, h⟩ := Eff.lift_bind_eq_ok h
  refine ⟨n, hn, ?_⟩
  simp only [Eff.ite_apply] at h
  split at h
  · rename_i hzero
    cases h
    refine ⟨hzero.symm, s.stash, ?_⟩
    rw [show (0 : UInt64).toNat = 0 from rfl, CircuitEvictionSchedule.advance_zero]
  · obtain ⟨overlays, s₁, hread, h⟩ := Eff.bind_eq_ok h
    obtain ⟨⟨outs, overlays'⟩, s₂, hevict, h⟩ := Eff.bind_eq_ok h
    obtain ⟨⟨⟩, s₃, hwrite, h⟩ := Eff.bind_eq_ok h
    obtain ⟨completed, s₄, hcomplete, h⟩ := Eff.bind_eq_ok h
    obtain ⟨⟨⟩, s₅, hcheck, hlast⟩ := Eff.bind_eq_ok h
    cases hlast
    have h1 := (CircuitOram.readOverlays_works _).all _ _ _ hread
    have h2 := (CircuitOram.withOverlays_works (Works.forEach fun path _ =>
      Overlaid.evictPathInOverlays_works path)).all _ _ _ hevict
    have h3 := (CircuitOram.writeOverlays_works _ _).all _ _ _ hwrite
    have h5 := (CircuitOram.onController_works Controller.checkStash_works).all _ _ _ hcheck
    rw [Nat.zero_mul] at h2
    have hbefore := (h1.trans h2).trans h3
    have hmin : (min budget n).toNat ≤ n.toNat := UInt64.le_iff_toNat_le.mp (min_le budget n)
    have hloop := CircuitEvictionSchedule.completeAll_ok (s := s₃.schedule) (n := n)
      (l := CircuitOram.evictionPaths s.toController (min budget n)) (by rw [hbefore.schedule]; exact hn)
      (by rw [CircuitOram.evictionPaths, List.length_map, List.length_range]; exact hmin)
    rw [CircuitOram.forEach_onController, Controller.forEach_onSchedule] at hcomplete
    have hdone := CircuitOram.onController_ok hcomplete
    simp only [Controller.onSchedule, Eff.zoom, hloop] at hdone
    obtain ⟨-, hdone⟩ := Prod.mk.inj hdone
    rw [CircuitOram.evictionPaths, List.length_map, List.length_range, hbefore.schedule] at hdone
    obtain ⟨⟨stash₃, h₃⟩, -⟩ := hbefore
    obtain ⟨⟨stash₅, h₅⟩, -⟩ := h5
    refine ⟨rfl, stash₅, ?_⟩
    change s'.toController = { s₄.toController with stash := stash₅, schedule := s₄.schedule.record 0 } at h₅
    change s₃.toController = { s.toController with stash := stash₃, schedule := s.schedule.record 0 } at h₃
    rw [h₅, CircuitEvictionSchedule.record_zero, ← hdone, h₃]

variable [Rng ρ]

theorem finishAccess_effect {logicalId : UInt64} {update : Update} {c c' : Controller ρ} {out : Bytes}
    (h : Controller.finishAccess logicalId update c = (.ok out, c')) :
    Effect c (scanPosMapUpdate c.posMap logicalId (randomLeaf c.params c.rng).1) (randomLeaf c.params c.rng).2 1 c' := by
  rw [Controller.finishAccess, Eff.get_bind] at h
  simp only at h
  split at h
  · cases h
  · rw [Eff.modify_bind] at h
    have hrest : Works id 1 (do
        Controller.onSchedule CircuitEvictionSchedule.recordAccess
        Controller.checkStash
        pure (scanStash c.stash logicalId c.params.blockSize).2 : Eff Error (Controller ρ) Bytes) :=
      Controller.recordAccess_works.bind (k := 0) fun _ => Controller.checkStash_works.after fun _ => .pure _
    exact (hrest.all _ _ _ h).effect_of_set ⟨_, rfl⟩

theorem access_effect {logicalId : UInt64} {update : Update} {out : Bytes}
    (h : CircuitOram.access logicalId update s = (.ok out, s')) : logicalId.toNat < s.params.logicalBlocks ∧
    Effect s.toController (scanPosMapUpdate s.posMap logicalId (randomLeaf s.params s.rng).1)
      (randomLeaf s.params s.rng).2 1 s'.toController := by
  rw [CircuitOram.access, Eff.get_bind, Eff.ite_apply] at h
  split at h
  · cases h
  · refine ⟨by omega, ?_⟩
    obtain ⟨⟨⟩, t, hremove, hfinish⟩ := Eff.bind_eq_ok h
    have hworked := (CircuitOram.readAndRemoveTargetPath_works _ _).all _ _ _ hremove
    have heffect := finishAccess_effect (CircuitOram.onController_ok hfinish)
    rw [hworked.params, hworked.posMap, hworked.rng] at heffect
    exact .after hworked heffect

theorem accessBatch_effect {logicalIds : List UInt64} {update : Nat → UInt64 → Update} {outs : List Bytes}
    (h : CircuitOram.accessBatch logicalIds update s = (.ok outs, s')) :
    (∀ id ∈ logicalIds, id.toNat < s.params.logicalBlocks) ∧
    Effect s.toController
      (scanPosMapUpdateBatch s.posMap logicalIds (randomLeaves s.params logicalIds.length s.rng).1)
      (randomLeaves s.params logicalIds.length s.rng).2 logicalIds.length s'.toController := by
  rw [CircuitOram.accessBatch, Eff.ite_apply] at h
  split at h
  · rename_i hnil
    obtain rfl := List.isEmpty_iff.mp hnil
    cases h
    refine ⟨by simp, ?_⟩
    rw [scanPosMapUpdateBatch_eq]
    exact (Worked.refl _).effect
  · rw [Eff.get_bind] at h
    obtain ⟨⟨⟩, hids, h⟩ := Eff.lift_bind_eq_ok h
    refine ⟨checkLogicalIds_ok hids, ?_⟩
    obtain ⟨overlays, s₁, hread, h⟩ := Eff.bind_eq_ok h
    obtain ⟨⟨outputs, overlays'⟩, s₂, hserve, h⟩ := Eff.bind_eq_ok h
    obtain ⟨⟨⟩, s₃, hset, h⟩ := Eff.bind_eq_ok h
    obtain ⟨⟨⟩, s₄, hwrite, h⟩ := Eff.bind_eq_ok h
    obtain ⟨⟨⟩, s₅, hcheck, hlast⟩ := Eff.bind_eq_ok h
    cases hlast
    have h1 := (CircuitOram.readOverlays_works _).all _ _ _ hread
    have h2 := (CircuitOram.withOverlays_works (Works.forEach fun turn _ =>
      (Overlaid.removeTargetFromOverlays_works _ _).bind fun _ =>
        Overlaid.onController_works (Controller.finishRequest_works _ _ _))).all _ _ _ hserve
    have h4 := (CircuitOram.writeOverlays_works _ _).all _ _ _ hwrite
    have h5 := (CircuitOram.onController_works Controller.checkStash_works).all _ _ _ hcheck
    have hcount : ((logicalIds.zip (randomLeaves s.params logicalIds.length s.rng).1).zip
        ((batchAccessLeaves logicalIds (scanPosMapLookupBatch s.posMap logicalIds)
          (randomLeaves s.params logicalIds.length s.rng).1).map s.params.pathNodes)).zipIdx.length = logicalIds.length := by
      simp [batchAccessLeaves, scanPosMapLookupBatch_eq]
    have hworked := h1.trans h2
    rw [Nat.zero_add, Nat.zero_add, Nat.one_mul, hcount] at hworked
    cases hset
    have heffect := (h4.trans h5).effect_of_set ⟨s₂.stash, rfl⟩
    rw [hworked.posMap] at heffect
    exact .after hworked heffect

theorem dummyAccess_effect (h : CircuitOram.dummyAccess s = (.ok (), s')) :
    Effect s.toController s.posMap (randomLeaf s.params s.rng).2 1 s'.toController := by
  rw [CircuitOram.dummyAccess, Eff.get_bind] at h
  obtain ⟨⟨⟩, s₁, hset, h⟩ := Eff.bind_eq_ok h
  have hrest := ((CircuitOram.readAndRewritePath_works (M := M) (P := P) (ρ := ρ) _).after fun _ =>
    (CircuitOram.onController_works Controller.recordAccess_works).bind (k := 0) fun _ =>
      CircuitOram.onController_works Controller.checkStash_works).all _ _ _ h
  cases hset
  exact hrest.effect_of_set ⟨s.stash, rfl⟩

theorem dummyAccessBatch_effect {count : Nat} (h : CircuitOram.dummyAccessBatch count s = (.ok (), s')) :
    Effect s.toController s.posMap (randomLeaves s.params count s.rng).2 count s'.toController := by
  rw [CircuitOram.dummyAccessBatch, Eff.ite_apply] at h
  split at h
  · rename_i hzero
    subst hzero
    cases h
    exact (Worked.refl _).effect
  · rw [Eff.get_bind] at h
    obtain ⟨⟨⟩, s₁, hset, h⟩ := Eff.bind_eq_ok h
    have hall := recordAll_works (M := M) (P := P) (ρ := ρ) (List.range count)
    rw [List.length_range] at hall
    have hrest := ((CircuitOram.readOverlays_works (M := M) (P := P) (ρ := ρ) _).after fun _ =>
      (CircuitOram.writeOverlays_works _ _).after fun _ => hall.bind (k := 0) fun _ =>
        CircuitOram.onController_works Controller.checkStash_works).all _ _ _ h
    cases hset
    exact hrest.effect_of_set ⟨s.stash, rfl⟩

end

/-! ## The build -/

theorem buildTrustedFromSource_state {S : Type} [PageStore M] [PageStore P] [TrustedBlockSource S] [Rng ρ] {p : OramParams}
    {metaStore : M} {payloadStore : P} {source : S} {seed : FixedBytes 32} {s : CircuitOram M P ρ}
    (h : CircuitOram.buildTrustedFromSource p metaStore payloadStore source seed = .ok s) :
    ∃ plan stash metaStore' payloadStore',
      placeInitial p (List.range p.logicalBlocks) (initialPlacement p (Rng.fromSeed seed : ρ)) = .ok plan ∧
      s = { params := p, posMap := plan.posMap, stash, rng := plan.rng, schedule := .new p, metaStore := metaStore'
            payloadStore := payloadStore' } := by
  unfold CircuitOram.buildTrustedFromSource at h
  obtain ⟨⟨⟩, -, h⟩ := bind_result_ok h
  obtain ⟨⟨⟩, -, h⟩ := bind_result_ok h
  obtain ⟨plan, hplan, h⟩ := bind_result_ok h
  obtain ⟨⟨⟨⟩, metaStore'⟩, -, h⟩ := bind_result_ok h
  obtain ⟨⟨⟨⟩, payloadStore', source'⟩, -, h⟩ := bind_result_ok h
  obtain ⟨⟨stash, source''⟩, -, h⟩ := bind_result_ok h
  obtain ⟨-, rfl⟩ := padAndCheck_ok h
  exact ⟨plan, _, metaStore', payloadStore', hplan, rfl⟩

end BpirOram
