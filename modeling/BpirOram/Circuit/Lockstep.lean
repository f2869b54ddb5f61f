/-
  BpirOram.Circuit.Lockstep — the controller over one pair of stores beside the controller
  over another.

  The controller looks at its stores only through their calls, so what the calls agree on, up
  to a store going bad, the operations agree on (`run_upTo`).
-/

import BpirOram.Circuit.Op
import BpirOram.Lib.UpTo

namespace BpirOram

open Lib

/-- The path calls of two stores agree until the first goes bad. -/
structure StoreUpTo {M M' : Type} [PathPageStore M] [PathPageStore M'] (R : M → M' → Prop) (Bad : M → Prop) : Prop where
  readPath (path : List Nat) : Eff.UpTo R Bad (PathPageStore.readPathPages path) (PathPageStore.readPathPages path)
  writePath (path : List Nat) (pages : List Bytes) :
    Eff.UpTo R Bad (PathPageStore.writePathPages path pages) (PathPageStore.writePathPages path pages)
  readPaths (paths : List (List Nat)) : Eff.UpTo R Bad (PathPageStore.readPathsPages paths) (PathPageStore.readPathsPages paths)
  writePaths (paths : List (List Nat)) (pages : List (List Bytes)) :
    Eff.UpTo R Bad (PathPageStore.writePathsPages paths pages) (PathPageStore.writePathsPages paths pages)

namespace CircuitOram

variable {M P M' P' ρ α β : Type} {RM : M → M' → Prop} {RP : P → P' → Prop} {BadM : M → Prop} {BadP : P → Prop}

/-- The same controller, over stores that are related. -/
structure Beside (RM : M → M' → Prop) (RP : P → P' → Prop) (s : CircuitOram M P ρ) (t : CircuitOram M' P' ρ) :
    Prop where
  controller : s.toController = t.toController
  metaStore : RM s.metaStore t.metaStore
  payloadStore : RP s.payloadStore t.payloadStore

/-- One of the stores is bad. -/
def Spoiled (BadM : M → Prop) (BadP : P → Prop) (s : CircuitOram M P ρ) : Prop := BadM s.metaStore ∨ BadP s.payloadStore

variable (RM RP BadM BadP) in
/-- Two computations over the stores that agree until one of the stores goes bad. -/
abbrev UpTo (m : Eff Error (CircuitOram M P ρ) α) (n : Eff Error (CircuitOram M' P' ρ) α) : Prop :=
  Eff.UpTo (Beside RM RP) (Spoiled BadM BadP) m n

/-! ## Steps -/

theorem onController_upTo (m : Eff Error (Controller ρ) α) : UpTo RM RP BadM BadP (onController m) (onController m) where
  stays _ h := h
  agree s t h := by
    refine .inl ?_
    show (m s.toController).1 = (m t.toController).1 ∧ _
    rw [h.controller]
    exact ⟨rfl, congrArg (fun c => (m c).2) h.controller, h.metaStore, h.payloadStore⟩

theorem onMeta_upTo {m : Eff Error M α} {n : Eff Error M' α} (h : Eff.UpTo RM BadM m n) :
    UpTo RM RP BadM BadP (onMeta (ρ := ρ) m) (onMeta n) :=
  h.zoom (fun _ _ h => h.metaStore) (fun _ _ _ _ h ha => ⟨h.controller, ha, h.payloadStore⟩) (fun _ _ ha => .inl ha)
    fun _ _ h ha => h.imp ha id

theorem onPayload_upTo {m : Eff Error P α} {n : Eff Error P' α} (h : Eff.UpTo RP BadP m n) :
    UpTo RM RP BadM BadP (onPayload (ρ := ρ) m) (onPayload n) :=
  h.zoom (fun _ _ h => h.payloadStore) (fun _ _ _ _ h ha => ⟨h.controller, h.metaStore, ha⟩) (fun _ _ ha => .inr ha)
    fun _ _ h ha => h.imp id ha

theorem withOverlays_upTo (overlays : Overlays) (body : Eff Error (Overlaid ρ) α) :
    UpTo RM RP BadM BadP (withOverlays overlays body) (withOverlays overlays body) where
  stays _ h := h
  agree s t h := by
    refine .inl ?_
    simp only [withOverlays, h.controller, true_and]
    exact ⟨rfl, h.metaStore, h.payloadStore⟩

/-- What a computation does with the state it looks at, when that is the controller's. -/
theorem get_upTo [Nonempty M'] [Nonempty P'] {f : CircuitOram M P ρ → Eff Error (CircuitOram M P ρ) β}
    {g : CircuitOram M' P' ρ → Eff Error (CircuitOram M' P' ρ) β}
    (h : ∀ s t, s.toController = t.toController → UpTo RM RP BadM BadP (f s) (g t)) :
    UpTo RM RP BadM BadP (Eff.get >>= f) (Eff.get >>= g) := by
  refine Eff.UpTo.get_bind (fun _ _ hr => hr.controller) (fun s => ?_) h
  exact ⟨{ toController := s.toController, metaStore := Classical.arbitrary M', payloadStore := Classical.arbitrary P' }, rfl⟩

variable [PathPageStore M] [PathPageStore P] [PathPageStore M'] [PathPageStore P'] [Nonempty M'] [Nonempty P']

theorem readOverlays_upTo (hM : StoreUpTo RM BadM) (hP : StoreUpTo RP BadP) (paths : List (List Nat)) :
    UpTo (ρ := ρ) RM RP BadM BadP (readOverlays paths) (readOverlays paths) := by
  refine (onMeta_upTo (hM.readPaths paths)).bind fun metaPathPages =>
    (onPayload_upTo (hP.readPaths paths)).bind fun payloadPathPages => ?_
  refine get_upTo fun s t hc => ?_
  rw [hc]
  exact (Eff.UpTo.lift _).bind fun metaPages => (Eff.UpTo.lift _).bind fun payloadPages => .pure _

omit [Nonempty M'] [Nonempty P'] in
theorem writeOverlays_upTo (hM : StoreUpTo RM BadM) (hP : StoreUpTo RP BadP) (paths : List (List Nat)) (overlays : Overlays) :
    UpTo (ρ := ρ) RM RP BadM BadP (writeOverlays paths overlays) (writeOverlays paths overlays) :=
  (Eff.UpTo.lift _).bind fun metaPages => (Eff.UpTo.lift _).bind fun payloadPages =>
    (onMeta_upTo (hM.writePaths paths metaPages)).bind fun _ => onPayload_upTo (hP.writePaths paths payloadPages)

theorem readAndRemoveTargetPath_upTo (hM : StoreUpTo RM BadM) (hP : StoreUpTo RP BadP) (leaf : UInt32) (logicalId : UInt64) :
    UpTo (ρ := ρ) RM RP BadM BadP (readAndRemoveTargetPath leaf logicalId) (readAndRemoveTargetPath leaf logicalId) := by
  refine get_upTo fun s t hc => ?_
  rw [hc]
  refine (onMeta_upTo (hM.readPath _)).bind fun metaPages => (onPayload_upTo (hP.readPath _)).bind fun payloadPages => ?_
  refine (Eff.UpTo.lift _).bind fun r => (onController_upTo _).bind fun _ => ?_
  exact (onMeta_upTo (hM.writePath _ _)).bind fun _ => onPayload_upTo (hP.writePath _ _)

theorem readAndRewritePath_upTo (hM : StoreUpTo RM BadM) (hP : StoreUpTo RP BadP) (leaf : UInt32) :
    UpTo (ρ := ρ) RM RP BadM BadP (readAndRewritePath leaf) (readAndRewritePath leaf) := by
  refine get_upTo fun s t hc => ?_
  rw [hc]
  refine (onMeta_upTo (hM.readPath _)).bind fun metaPages => (onPayload_upTo (hP.readPath _)).bind fun payloadPages => ?_
  exact (onMeta_upTo (hM.writePath _ metaPages)).bind fun _ => onPayload_upTo (hP.writePath _ payloadPages)

/-! ## Operations -/

variable [Rng ρ]

theorem access_upTo (hM : StoreUpTo RM BadM) (hP : StoreUpTo RP BadP) (logicalId : UInt64) (update : Update) :
    UpTo (ρ := ρ) RM RP BadM BadP (access logicalId update) (access logicalId update) := by
  refine get_upTo fun s t hc => ?_
  rw [hc]
  split
  · exact .fail _
  · exact (readAndRemoveTargetPath_upTo hM hP _ logicalId).bind fun _ => onController_upTo _

theorem accessBatch_upTo (hM : StoreUpTo RM BadM) (hP : StoreUpTo RP BadP) (logicalIds : List UInt64)
    (update : Nat → UInt64 → Update) :
    UpTo (ρ := ρ) RM RP BadM BadP (accessBatch logicalIds update) (accessBatch logicalIds update) := by
  unfold accessBatch
  split
  · exact .pure []
  · refine get_upTo fun s t hc => ?_
    rw [hc]
    refine (Eff.UpTo.lift _).bind fun _ => (readOverlays_upTo hM hP _).bind fun overlays => ?_
    refine (withOverlays_upTo overlays _).bind fun r => (onController_upTo _).bind fun _ => ?_
    exact (writeOverlays_upTo hM hP _ r.2).bind fun _ => (onController_upTo _).bind fun _ => .pure r.1

theorem dummyAccess_upTo (hM : StoreUpTo RM BadM) (hP : StoreUpTo RP BadP) :
    UpTo (ρ := ρ) RM RP BadM BadP dummyAccess dummyAccess := by
  refine get_upTo fun s t hc => ?_
  rw [hc]
  exact (onController_upTo _).bind fun _ => (readAndRewritePath_upTo hM hP _).bind fun _ =>
    (onController_upTo _).bind fun _ => onController_upTo _

theorem dummyAccessBatch_upTo (hM : StoreUpTo RM BadM) (hP : StoreUpTo RP BadP) (count : Nat) :
    UpTo (ρ := ρ) RM RP BadM BadP (dummyAccessBatch count) (dummyAccessBatch count) := by
  unfold dummyAccessBatch
  split
  · exact .pure ()
  · refine get_upTo fun s t hc => ?_
    rw [hc]
    refine (onController_upTo _).bind fun _ => (readOverlays_upTo hM hP _).bind fun overlays => ?_
    exact (writeOverlays_upTo hM hP _ overlays).bind fun _ => (Eff.UpTo.forEach fun _ _ => onController_upTo _).bind fun _ =>
      onController_upTo _

omit [Rng ρ] in
theorem drainEvictions_upTo (hM : StoreUpTo RM BadM) (hP : StoreUpTo RP BadP) (budget : UInt64) :
    UpTo (ρ := ρ) RM RP BadM BadP (drainEvictions budget) (drainEvictions budget) := by
  refine get_upTo fun s t hc => ?_
  rw [hc]
  refine (Eff.UpTo.lift _).bind fun pending => ?_
  dsimp only
  split
  · exact .pure 0
  · refine (readOverlays_upTo hM hP _).bind fun overlays => (withOverlays_upTo overlays _).bind fun r => ?_
    refine (writeOverlays_upTo hM hP _ r.2).bind fun _ => (Eff.UpTo.forEach fun _ _ => onController_upTo _).bind fun _ => ?_
    exact (onController_upTo _).bind fun _ => .pure _

/-- What the calls of the stores agree on, a call of the controller agrees on. -/
theorem run_upTo (hM : StoreUpTo RM BadM) (hP : StoreUpTo RP BadP) (op : Op) :
    UpTo (ρ := ρ) RM RP BadM BadP op.run op.run := by
  cases op with
  | access logicalId update => exact (access_upTo hM hP logicalId update).bind fun x => .pure [x]
  | accessBatch logicalIds update => exact accessBatch_upTo hM hP logicalIds update
  | dummyAccess => exact (dummyAccess_upTo hM hP).bind fun _ => .pure []
  | dummyAccessBatch count => exact (dummyAccessBatch_upTo hM hP count).bind fun _ => .pure []
  | drainEvictions budget => exact (drainEvictions_upTo hM hP budget).bind fun _ => .pure []

end CircuitOram
end BpirOram
