/-
  BpirOram.Circuit.Removal — taking a block off a path of pages is taking it off a path
  of blocks.

  Once for the pages of a single path (`removeFromPath`) and once for the overlays of a
  batch (`removeTargetFromOverlays`). `Tracks` is the relation the batch loop keeps: same
  controller, each overlay page the page of the tree's bucket, and a tree that differs
  from the one the batch started with only on the batch's nodes.
-/

import BpirOram.Circuit.Shape

namespace BpirOram

open Lib

variable {ρ : Type} {p : OramParams}

/-! ## Slots -/

theorem takeSlots_removed (logicalId : UInt64) (bucket : List OramBlock) (selected : OramBlock) :
    takeSlots logicalId bucket ⟨selected, true⟩ = (bucket, ⟨selected, true⟩) := by
  induction bucket with
  | nil => rfl
  | cons b rest ih => simp [takeSlots, ih]

theorem cmovBlock_true {r block : OramBlock} (h : r.payload.length = block.payload.length) :
    cmovBlockFromMetaPayload r block.metaSlot block.payload true = block := by
  simp [cmovBlockFromMetaPayload, Ct.cmovBytes_true h]

theorem cmovBlock_false (r : OramBlock) (slot : CircuitMetaSlot) (payload : Bytes) :
    cmovBlockFromMetaPayload r slot payload false = r := by
  simp [cmovBlockFromMetaPayload]

theorem selectAndRemoveTargetSlots_eq (logicalId : UInt64) {bucket : List OramBlock} {r : Removal} {n : Nat}
    (hb : ∀ b ∈ bucket, b.payload.length = n) (hr : r.selected.payload.length = n) :
    selectAndRemoveTargetSlots logicalId (bucket.map fun b => (b.metaSlot, b.payload)) r
      = ((takeSlots logicalId bucket r).1.map fun b => (b.metaSlot, b.payload), (takeSlots logicalId bucket r).2) := by
  induction bucket generalizing r with
  | nil => rfl
  | cons b rest ih =>
    have hbl := hb b (by simp)
    have hrest := fun x hx => hb x (List.mem_cons_of_mem b hx)
    simp only [List.map_cons, selectAndRemoveTargetSlots, OramBlock.metaSlot_logicalIdChoice, takeSlots]
    cases hm : b.logicalIdChoice logicalId && !r.removed
    · simp only [cmovBlock_false, Bool.or_false, CircuitMetaSlot.clearIf_false, Ct.clearPayloadIf_false,
        Bool.false_eq_true, if_false, ih hrest hr, List.map_cons]
    · simp only [cmovBlock_true (hr.trans hbl.symm), Bool.or_true, CircuitMetaSlot.clearIf_true,
        Ct.clearPayloadIf_true, if_true, List.map_cons, ih hrest (r := ⟨b, true⟩) hbl, takeSlots_removed]
      rfl

/-- The two pages of a bucket. -/
def bucketPages (bucket : List OramBlock) : Bytes × Bytes := (metaPage bucket, payloadPage bucket)

theorem removeFromPages_eq (logicalId : UInt64) {bucket : List OramBlock} {r : Removal}
    (hb : BucketShape p.bucketSize p.blockSize bucket) (hr : r.selected.payload.length = p.blockSize) :
    removeFromPages p logicalId (metaPage bucket) (payloadPage bucket) r
      = .ok (metaPage (takeSlots logicalId bucket r).1, payloadPage (takeSlots logicalId bucket r).1,
          (takeSlots logicalId bucket r).2) := by
  have hs := (takeSlots_shape logicalId hb hr).1
  simp only [removeFromPages, decode_metaPage hb.slots, decode_payloadPage p.blockSize_pos hb, bind, Except.bind,
    List.zip_map', selectAndRemoveTargetSlots_eq logicalId hb.payload hr, List.map_map]
  rw [show ((fun x : CircuitMetaSlot × Bytes => x.1) ∘ fun b : OramBlock => (b.metaSlot, b.payload)) = (·.metaSlot)
    from rfl, encode_metaSlots hs.slots]
  simp only
  rw [show ((fun x : CircuitMetaSlot × Bytes => x.2) ∘ fun b : OramBlock => (b.metaSlot, b.payload)) = (·.payload)
    from rfl, encode_payloads hs]

/-- The pages of a single path: each bucket is on it once. -/
theorem removeFromPath_eq (logicalId : UInt64) {path : List Nat} (hp : path.Nodup) (hlt : ∀ i ∈ path, i < p.bucketCount)
    {r : Removal} {tree : Nat → List OramBlock} (hr : r.selected.payload.length = p.blockSize)
    (ht : ∀ i < p.bucketCount, BucketShape p.bucketSize p.blockSize (tree i)) :
    removeFromPath p logicalId (path.map fun i => bucketPages (tree i)) r
      = .ok (path.map fun i => bucketPages ((takeAlong logicalId path r tree).1 i),
          (takeAlong logicalId path r tree).2) := by
  induction path generalizing r tree with
  | nil => rfl
  | cons node path ih =>
    rw [List.nodup_cons] at hp
    have hb := ht node (hlt node (by simp))
    obtain ⟨hs, hsel⟩ := takeSlots_shape logicalId hb hr
    have hlt' := fun i hi => hlt i (List.mem_cons_of_mem node hi)
    have ht' : ∀ i < p.bucketCount, BucketShape p.bucketSize p.blockSize
        (Function.update tree node (takeSlots logicalId (tree node) r).1 i) := by
      intro i hi
      by_cases hin : i = node
      · subst hin; rwa [Function.update_self]
      · rw [Function.update_of_ne hin]; exact ht i hi
    have hpages : path.map (fun i => bucketPages (tree i))
        = path.map fun i => bucketPages (Function.update tree node (takeSlots logicalId (tree node) r).1 i) :=
      List.map_congr_left fun i hi => by rw [Function.update_of_ne (show i ≠ node from fun h => hp.1 (h ▸ hi))]
    simp only [List.map_cons, bucketPages, removeFromPath, removeFromPages_eq logicalId hb hr, bind, Except.bind]
    simp only [bucketPages] at hpages ih
    rw [hpages, ih hp.2 hlt' hsel ht']
    simp only [takeAlong]
    rw [takeAlong_frame hp.1, Function.update_self]

/-! ## Overlays -/

/-- An overlay that holds the page `c i` of every node `i` of a batch. -/
def Covers (overlay : PageMap) (nodes : List Nat) (c : Nat → Bytes) : Prop := ∀ i ∈ nodes, overlay[i]? = some (c i)

theorem Covers.insert {overlay : PageMap} {nodes : List Nat} {c : Nat → Bytes} (h : Covers overlay nodes c)
    (node : Nat) (page : Bytes) : Covers (overlay.insert node page) nodes (Function.update c node page) := by
  intro i hi
  rw [Std.TreeMap.getElem?_insert]
  by_cases hin : i = node
  · subst hin
    simp
  · rw [if_neg (by simpa using Ne.symm hin), h i hi, Function.update_of_ne hin]

/-- The batch loop on overlays and the same loop on blocks. -/
structure Tracks (p : OramParams) (nodes : List Nat) (tree₀ : Nat → List OramBlock) (o : Overlaid ρ) (b : Blocks ρ) :
    Prop where
  controller : o.toController = b.toController
  shape : b.Shape p
  metaPages : Covers o.metaPages nodes fun i => metaPage (b.tree i)
  payloadPages : Covers o.payloadPages nodes fun i => payloadPage (b.tree i)
  outside : ∀ i ∉ nodes, b.tree i = tree₀ i

namespace Tracks

variable {nodes : List Nat} {tree₀ : Nat → List OramBlock} {o : Overlaid ρ} {b : Blocks ρ}

theorem params (h : Tracks p nodes tree₀ o b) : o.params = p :=
  (congrArg Controller.params h.controller).trans h.shape.controller.params

/-- A controller step does to both what it does to the controller. -/
theorem onController {α : Type} {m : Eff Error (Controller ρ) α} (hm : Eff.Keeps (Controller.Shape p) m) :
    Eff.Sim (Tracks p nodes tree₀) (Overlaid.onController m) (Blocks.onController m) := by
  intro o b h
  have hc := h.controller
  have hkeep := hm _ h.shape.controller
  refine ⟨by simp only [Overlaid.onController, Blocks.onController, Eff.zoom, hc], ?_⟩
  simp only [Overlaid.onController, Blocks.onController, Eff.zoom]
  exact
    { controller := by rw [hc]
      shape := ⟨hkeep, h.shape.tree⟩
      metaPages := h.metaPages
      payloadPages := h.payloadPages
      outside := h.outside }

theorem getMeta (h : Tracks p nodes tree₀ o b) {i : Nat} (hi : i ∈ nodes) (msg : String) :
    Overlaid.getMeta i msg o = (.ok (metaPage (b.tree i)), o) := by
  simp only [Overlaid.getMeta, Eff.get_bind, h.metaPages i hi, okOr, Eff.lift_apply]

theorem getPayload (h : Tracks p nodes tree₀ o b) {i : Nat} (hi : i ∈ nodes) (msg : String) :
    Overlaid.getPayload i msg o = (.ok (payloadPage (b.tree i)), o) := by
  simp only [Overlaid.getPayload, Eff.get_bind, h.payloadPages i hi, okOr, Eff.lift_apply]

/-- Both machines get a new bucket at a node of the batch. -/
theorem setBucket (h : Tracks p nodes tree₀ o b) {node : Nat} (hn : node ∈ nodes) {bucket : List OramBlock}
    (hb : BucketShape p.bucketSize p.blockSize bucket) :
    Tracks p nodes tree₀
      { o with
        metaPages := o.metaPages.insert node (metaPage bucket)
        payloadPages := o.payloadPages.insert node (payloadPage bucket) }
      { b with tree := Function.update b.tree node bucket } where
  controller := h.controller
  shape := ⟨h.shape.controller, fun i hi => by
    by_cases hin : i = node
    · subst hin; simpa using hb
    · simpa [Function.update_of_ne hin] using h.shape.tree i hi⟩
  metaPages := by
    have := h.metaPages.insert node (metaPage bucket)
    refine fun i hi => (this i hi).trans (congrArg some ?_)
    by_cases hin : i = node
    · subst hin; simp
    · simp [Function.update_of_ne hin]
  payloadPages := by
    have := h.payloadPages.insert node (payloadPage bucket)
    refine fun i hi => (this i hi).trans (congrArg some ?_)
    by_cases hin : i = node
    · subst hin; simp
    · simp [Function.update_of_ne hin]
  outside := fun i hi => by
    have hin : i ≠ node := fun h => hi (h ▸ hn)
    simpa [Function.update_of_ne hin] using h.outside i hi

/-- The loop over the path, by induction on it: each bucket taken from the overlay and
    put back is the tree's bucket taken and put back. -/
theorem removeAlong (logicalId : UInt64) {path : List Nat} (hp : ∀ i ∈ path, i ∈ nodes)
    (hlt : ∀ i ∈ path, i < p.bucketCount) {r : Removal} (hr : r.selected.payload.length = p.blockSize)
    (h : Tracks p nodes tree₀ o b) :
    ∃ o', Overlaid.removeAlong logicalId path r o = (.ok (takeAlong logicalId path r b.tree).2, o') ∧
      Tracks p nodes tree₀ o' { b with tree := (takeAlong logicalId path r b.tree).1 } := by
  induction path generalizing r o b with
  | nil => exact ⟨o, rfl, h⟩
  | cons node path ih =>
    have hn := hp node (by simp)
    have hb := h.shape.tree node (hlt node (by simp))
    obtain ⟨hs, hsel⟩ := takeSlots_shape logicalId hb hr
    obtain ⟨o', h1, h2⟩ := ih (fun i hi => hp i (List.mem_cons_of_mem node hi))
      (fun i hi => hlt i (List.mem_cons_of_mem node hi)) hsel (h.setBucket hn hs)
    refine ⟨o', ?_, h2⟩
    rw [Overlaid.removeAlong, Eff.bind_ok (h.getMeta hn _), Eff.bind_ok (h.getPayload hn _), Eff.get_bind, h.params,
      removeFromPages_eq logicalId hb hr, Eff.lift_ok_bind]
    exact h1

/-- `remove_target_from_overlays` is `removeTarget`. -/
theorem removeTarget {path : List Nat} (hp : ∀ i ∈ path, i ∈ nodes) (hlt : ∀ i ∈ path, i < p.bucketCount)
    (logicalId : UInt64) :
    Eff.Sim (Tracks p nodes tree₀) (Overlaid.removeTargetFromOverlays path logicalId : Eff Error (Overlaid ρ) Unit)
      (Blocks.removeTarget path logicalId) := by
  intro o b h
  have hr : (noRemoval p).selected.payload.length = p.blockSize := OramBlock.dummy_payload_length _
  obtain ⟨o', h1, h2⟩ := h.removeAlong logicalId hp hlt hr
  have hsel := (takeAlong_shape logicalId hlt hr h.shape.tree).2
  have hc := onController
    (Controller.insertBlock_keeps hsel (takeAlong logicalId path (noRemoval p) b.tree).2.selected.occupied) _ _ h2
  simp only [Overlaid.removeTargetFromOverlays, Blocks.removeTarget, Eff.get_bind, Eff.modify_bind, h.params,
    h.shape.controller.params]
  rw [Eff.bind_ok h1]
  exact hc

end Tracks
end BpirOram
