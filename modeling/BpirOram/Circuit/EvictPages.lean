/-
  BpirOram.Circuit.EvictPages — `evict_path_in_overlays` is `Blocks.evict`.

  The plan is followed through the code in its order: payloads loaded by candidate number,
  the stash cleared and refilled, each bucket of the path written from the placements.
-/

import BpirOram.Circuit.Eviction

namespace BpirOram

open Lib

variable {ρ : Type} {p : OramParams}

/-! ## Payloads by candidate number -/

theorem setPayloads_eq (front old back xs : List Bytes) (h : old.length = xs.length) :
    Overlaid.setPayloads (front ++ old ++ back) ((List.range' front.length xs.length).zip xs) = front ++ xs ++ back := by
  induction xs generalizing front old with
  | nil =>
    rw [List.length_eq_zero_iff.mp h]
    rfl
  | cons x xs ih =>
    obtain ⟨y, old, rfl⟩ := List.exists_cons_of_length_eq_add_one h
    have hset : (front ++ y :: old ++ back).set front.length x = front ++ [x] ++ old ++ back := by
      simp
    have hrec := ih (front ++ [x]) old (by simpa using h)
    rw [List.length_append, List.length_singleton] at hrec
    rw [List.length_cons, List.range'_succ, List.zip_cons_cons]
    show Overlaid.setPayloads ((front ++ y :: old ++ back).set front.length x) _ = _
    rw [hset, hrec]
    simp

/-- The candidates with their payloads, block by block. -/
theorem zip_candidates (blocks : List OramBlock) :
    (blocks.map stashCandidate).zip (blocks.map (·.payload)) = blocks.map fun b => (stashCandidate b, b.payload) :=
  List.zip_map'

/-- A scan over all candidates finds the one that is named. -/
theorem placeSlot_foldl {n : Nat} (blocks : List OramBlock) (hb : ∀ b ∈ blocks, b.payload.length = n) (i k : Nat)
    (slot : CircuitMetaSlot) (payload : Bytes) (hp : payload.length = n) :
    ((blocks.map fun b => (stashCandidate b, b.payload)).zipIdx k).foldl
        (fun (slot, payload) ((candidate, candidatePayload), candidateIdx) =>
          let select := true && i == candidateIdx
          (slot.cmovFrom candidate.metaSlot select, Ct.cmovBytes payload candidatePayload select)) (slot, payload)
      = if k ≤ i then (blocks[i - k]?.map fun b => (b.metaSlot, b.payload)).getD (slot, payload) else (slot, payload) := by
  induction blocks generalizing k slot payload with
  | nil => simp
  | cons b blocks ih =>
    have hbl := hb b (by simp)
    have hrest := fun x hx => hb x (List.mem_cons_of_mem b hx)
    simp only [List.map_cons, List.zipIdx_cons, List.foldl_cons, Bool.true_and] at ih ⊢
    rcases Nat.lt_trichotomy i k with hlt | heq | hgt
    · rw [show (i == k) = false by simp; omega, CircuitMetaSlot.cmovFrom_false, Ct.cmovBytes_false, ih hrest _ _ _ hp,
        if_neg (by omega), if_neg (by omega)]
    · subst heq
      rw [beq_self_eq_true, CircuitMetaSlot.cmovFrom_true, Ct.cmovBytes_true (hp.trans hbl.symm), ih hrest _ _ _ hbl,
        if_neg (by omega), if_pos (Nat.le_refl _), Nat.sub_self]
      rfl
    · rw [show (i == k) = false by simp; omega, CircuitMetaSlot.cmovFrom_false, Ct.cmovBytes_false, ih hrest _ _ _ hp,
        if_pos (by omega), if_pos (by omega), show i - k = i - (k + 1) + 1 by omega, List.getElem?_cons_succ]

theorem placeSlot_none (blocks : List (CircuitEvictionCandidate × Bytes)) (n : Nat) :
    Overlaid.placeSlot n blocks .dummy = (.dummy, List.replicate n 0) := by
  have h : ∀ (l : List ((CircuitEvictionCandidate × Bytes) × Nat)) (init : CircuitMetaSlot × Bytes),
      l.foldl (fun (slot, payload) ((candidate, candidatePayload), candidateIdx) =>
        let select := CircuitEvictionPlacement.dummy.occupied &&
          CircuitEvictionPlacement.dummy.candidateIdx == candidateIdx
        (slot.cmovFrom candidate.metaSlot select, Ct.cmovBytes payload candidatePayload select)) init = init := by
    intro l
    induction l with
    | nil => intro init; rfl
    | cons x l ih =>
      intro init
      rw [List.foldl_cons, ih]
      simp [CircuitEvictionPlacement.dummy]
  exact h _ _

theorem placeSlot_some {n : Nat} {blocks : List OramBlock} (hb : ∀ b ∈ blocks, b.payload.length = n) {i : Nat}
    {b : OramBlock} (hi : blocks[i]? = some b) :
    Overlaid.placeSlot n (blocks.map fun b => (stashCandidate b, b.payload)) { candidateIdx := i, occupied := true }
      = (b.metaSlot, b.payload) := by
  have h := placeSlot_foldl blocks hb i 0 .dummy (List.replicate n 0) List.length_replicate
  rw [if_pos (Nat.zero_le _), Nat.sub_zero, hi] at h
  exact h

/-- The slots the placements of a bucket fill. -/
theorem placeSlots_eq {blocks : List OramBlock} (hb : ∀ b ∈ blocks, b.payload.length = p.blockSize)
    {taken : List (Nat × OramBlock)} (ht : ∀ x ∈ taken, blocks[x.1]? = some x.2) :
    (toPlacements p.bucketSize taken).map (Overlaid.placeSlot p.blockSize
        (blocks.map fun b => (stashCandidate b, b.payload)))
      = (fillBucket p taken).map fun b => (b.metaSlot, b.payload) := by
  rw [toPlacements, fillBucket, List.map_append, List.map_append, List.map_map, List.map_map, List.map_replicate,
    List.map_replicate, placeSlot_none]
  refine congrArg₂ _ (List.map_congr_left fun x hx => ?_) rfl
  exact placeSlot_some hb (ht x hx)

theorem fillBucket_shape {blocks : List OramBlock} (hb : ∀ b ∈ blocks, b.payload.length = p.blockSize)
    {taken : List (Nat × OramBlock)} (ht : ∀ x ∈ taken, blocks[x.1]? = some x.2) (hl : taken.length ≤ p.bucketSize) :
    BucketShape p.bucketSize p.blockSize (fillBucket p taken) := by
  constructor
  · simp only [fillBucket, List.length_append, List.length_map, List.length_replicate]; omega
  · intro b hm
    rcases List.mem_append.mp hm with hm | hm
    · obtain ⟨x, hx, rfl⟩ := List.mem_map.mp hm
      exact hb _ (List.mem_of_getElem? (ht x hx))
    · rw [(List.mem_replicate.mp hm).2]
      exact OramBlock.dummy_payload_length _

/-! ## Following the plan -/

namespace Tracks

variable {nodes : List Nat} {tree₀ : Nat → List OramBlock} {o : Overlaid ρ} {b : Blocks ρ} {path : List Nat}

theorem bucket_slots (h : Tracks p nodes tree₀ o b) (hlt : ∀ i ∈ path, i < p.bucketCount) :
    ∀ bucket ∈ path.map b.tree, bucket.length = p.bucketSize := by
  intro bucket hm
  obtain ⟨i, hi, rfl⟩ := List.mem_map.mp hm
  exact (h.shape.tree i (hlt i hi)).slots

theorem pathMetadata (h : Tracks p nodes tree₀ o b) (hp : ∀ i ∈ path, i ∈ nodes)
    (hlt : ∀ i ∈ path, i < p.bucketCount) :
    Overlaid.pathMetadataFromOverlay path o
      = (.ok ((path.map b.tree).map fun bucket => { slots := bucket.map (·.metaSlot) }), o) := by
  obtain ⟨t, h1, rfl⟩ := Eff.forEach_map (P := fun s => s = o)
    (f := fun pageIdx => do
      let metaBuf ← Overlaid.getMeta pageIdx "eviction overlay includes every path page"
      let s ← Eff.get
      Eff.lift (CircuitMetaBucket.decode metaBuf s.params.bucketSize))
    (g := fun i => CircuitMetaBucket.mk ((b.tree i).map (·.metaSlot))) (l := path) (s := o) (by
      rintro i hi s rfl
      refine ⟨s, ?_, rfl⟩
      rw [Eff.bind_ok (h.getMeta (hp i hi) _), Eff.get_bind, h.params,
        decode_metaPage (h.shape.tree i (hlt i hi)).slots]
      rfl) rfl
  rw [List.map_map]
  exact h1

theorem loadPathPayloads (h : Tracks p nodes tree₀ o b) (hp : ∀ i ∈ path, i ∈ nodes)
    (hlt : ∀ i ∈ path, i < p.bucketCount) (front old back : List Bytes)
    (hold : old.length = path.length * p.bucketSize) :
    Overlaid.loadPathPayloads (path.zip (pathIndices p.bucketSize front.length path.length)) (front ++ old ++ back) o
      = (.ok (front ++ (path.map b.tree).flatten.map (·.payload) ++ back), o) := by
  induction path generalizing front old with
  | nil =>
    obtain rfl : old = [] := List.length_eq_zero_iff.mp (by simpa using hold)
    simp [Overlaid.loadPathPayloads]
  | cons node path ih =>
    have hb := h.shape.tree node (hlt node (by simp))
    have hz : ((b.tree node).map (·.payload)).length = p.bucketSize := by rw [List.length_map, hb.slots]
    rw [List.length_cons, Nat.succ_mul, Nat.add_comm] at hold
    have hsplit : old = old.take p.bucketSize ++ old.drop p.bucketSize := (List.take_append_drop _ _).symm
    have hset := setPayloads_eq front (old.take p.bucketSize) (old.drop p.bucketSize ++ back)
      ((b.tree node).map (·.payload)) (by rw [hz, List.length_take]; omega)
    have hrec := ih (fun i hi => hp i (List.mem_cons_of_mem node hi)) (fun i hi => hlt i (List.mem_cons_of_mem node hi))
      (front ++ (b.tree node).map (·.payload)) (old.drop p.bucketSize) (by rw [List.length_drop]; omega)
    rw [List.length_append, hz] at hrec
    rw [hz] at hset
    rw [List.length_cons, pathIndices, List.zip_cons_cons, Overlaid.loadPathPayloads,
      Eff.bind_ok (h.getPayload (hp node (by simp)) _), Eff.get_bind, h.params,
      decode_payloadPage p.blockSize_pos hb, Eff.lift_ok_bind,
      show front ++ old ++ back = front ++ old.take p.bucketSize ++ (old.drop p.bucketSize ++ back) by
        conv => lhs; rw [hsplit]
        simp only [List.append_assoc],
      hset, ← List.append_assoc, hrec]
    simp only [List.map_cons, List.flatten_cons, List.map_append, List.append_assoc]

/-- All payloads, in the order of the candidates. -/
theorem loadPayloads (h : Tracks p nodes tree₀ o b) (hp : ∀ i ∈ path, i ∈ nodes) (hlt : ∀ i ∈ path, i < p.bucketCount)
    (hlen : path.length = p.height) {pathMeta : List CircuitMetaBucket} (hm : pathMeta.length = p.height)
    {plan : CircuitEvictionPlan} (hplan : PlanOf p path b.stash (path.map b.tree) plan) :
    Overlaid.loadEvictionPayloadsFromOverlay path pathMeta plan o
      = (.ok ((b.stash ++ (path.map b.tree).flatten).map (·.payload)), o) := by
  have hstash : o.stash = b.stash := congrArg Controller.stash h.controller
  have hcap := h.shape.controller.stash
  have hcount : plan.candidates.length = p.stashCapacity + p.height * p.bucketSize := by
    rw [hplan.candidates, List.length_map, List.length_append, hcap, flatten_length (h.bucket_slots hlt),
      List.length_map, hlen]
  have hfront : ((b.stash.take p.stashCapacity).map (·.payload)) = b.stash.map (·.payload) := by
    rw [List.take_of_length_le (by omega)]
  have hpayloads : ∀ zeros : List Bytes, zeros.length = plan.candidates.length →
      b.stash.map (·.payload) ++ zeros.drop (b.stash.map (·.payload)).length
        = b.stash.map (·.payload) ++ zeros.drop p.stashCapacity ++ [] := by
    intro zeros _
    rw [List.length_map, hcap, List.append_nil]
  have hload := h.loadPathPayloads hp hlt (b.stash.map (·.payload))
    ((List.replicate plan.candidates.length (List.replicate p.blockSize 0)).drop p.stashCapacity) [] (by
      rw [List.length_drop, List.length_replicate, hcount, hlen]; omega)
  rw [List.length_map] at hload
  simp only [Overlaid.loadEvictionPayloadsFromOverlay, Eff.get_bind, h.params, hstash, hfront]
  rw [if_neg (by rw [hplan.indices, pathIndices_length, List.length_map, hlen, hm, hcount]; simp), hplan.indices,
    List.length_map, hpayloads _ List.length_replicate, hload, List.append_nil, List.map_append]

/-- Both machines get a new stash. -/
theorem setStash (h : Tracks p nodes tree₀ o b) {stash : List OramBlock} (hl : stash.length = p.stashCapacity)
    (hpl : ∀ x ∈ stash, x.payload.length = p.blockSize) :
    Tracks p nodes tree₀ { o with stash } { b with stash } where
  controller := by rw [show o.toController = b.toController from h.controller]
  shape := ⟨{ h.shape.controller with stash := hl, payload := hpl }, h.shape.tree⟩
  metaPages := h.metaPages
  payloadPages := h.payloadPages
  outside := h.outside

/-- The loop that puts the unplaced blocks of the path back into the stash: it has room
    for all of them, so it never fails. -/
theorem insertLoop {l : List (OramBlock × Ct.Choice)} (hs : ∀ s ∈ l, s.1.payload.length = p.blockSize)
    (h : Tracks p nodes tree₀ o b) (hfree : (l.filter fun s => s.1.occupied && !s.2).length ≤ freeSlots b.stash) :
    ∃ us o', Eff.forEach (fun s : OramBlock × Ct.Choice => Overlaid.onController
        (Controller.insertCandidateIntoStash s.1.metaSlot s.1.payload (s.1.occupied && !s.2))) l o = (.ok us, o') ∧
      Tracks p nodes tree₀ o'
        { b with stash := insertAll ((l.filter fun s => s.1.occupied && !s.2).map (·.1)) b.stash } := by
  induction l generalizing o b with
  | nil => exact ⟨[], o, rfl, h⟩
  | cons s l ih =>
    have hsl := hs s (by simp)
    have hrest := fun x hx => hs x (List.mem_cons_of_mem s hx)
    have hcand : ∀ c : Controller ρ, c.Shape p →
        Controller.insertCandidateIntoStash s.1.metaSlot s.1.payload (s.1.occupied && !s.2) c
          = Controller.insertBlock { s.1 with occupied := true } (s.1.occupied && !s.2) c := by
      intro c hc
      simp only [Controller.insertCandidateIntoStash, Eff.get_bind, hc.params]
      rw [if_neg (by simpa using hsl)]
      rfl
    have hsim := onController (Controller.insertBlock_keeps
      (show ({ s.1 with occupied := true } : OramBlock).payload.length = _ from hsl)
      (s.1.occupied && !s.2)) o b h
    have hstep : Overlaid.onController (Controller.insertCandidateIntoStash s.1.metaSlot s.1.payload
        (s.1.occupied && !s.2)) o = Overlaid.onController (Controller.insertBlock { s.1 with occupied := true }
        (s.1.occupied && !s.2)) o := by
      simp only [Overlaid.onController, Eff.zoom]
      rw [hcand _ (h.controller ▸ h.shape.controller)]
    have hblocks : ∀ r, Controller.insertBlock { s.1 with occupied := true } (s.1.occupied && !s.2) b.toController = r →
        Blocks.onController (Controller.insertBlock { s.1 with occupied := true } (s.1.occupied && !s.2)) b
          = (r.1, { b with toController := r.2 }) := by
      rintro r rfl
      rfl
    have hins := Controller.insertBlock_eq h.shape.controller
      (show ({ s.1 with occupied := true } : OramBlock).payload.length = _ from hsl)
      (s.1.occupied && !s.2)
    cases hc : s.1.occupied && !s.2
    · rw [hc] at hins hsim hstep hblocks
      rw [hblocks _ hins] at hsim
      simp only [List.filter_cons, hc, Bool.false_eq_true, if_false] at hfree ⊢
      obtain ⟨us, o', h1, h2⟩ := ih hrest hsim.2 hfree
      refine ⟨() :: us, o', Eff.forEach_ok (t := (Overlaid.onController (Controller.insertBlock
        { s.1 with occupied := true } false) o).2) ?_ h1, h2⟩
      rw [hc, hstep]
      exact Prod.ext hsim.1 rfl
    · rw [hc] at hins hsim hstep hblocks
      have hocc : s.1.occupied = true := (Bool.and_eq_true _ _ ▸ hc).1
      have hself : { s.1 with occupied := true } = s.1 := by rw [← hocc]
      simp only [List.filter_cons, hc, if_true, List.length_cons] at hfree ⊢
      obtain ⟨stash', hf, hn⟩ := insertFirst_some hocc (by omega : 0 < freeSlots b.stash)
      rw [hself] at hins hsim hstep hblocks
      rw [hf] at hins
      rw [hblocks _ hins] at hsim
      obtain ⟨us, o', h1, h2⟩ := ih (b := { b with stash := stash' }) hrest hsim.2 (by
        show _ ≤ freeSlots stash'
        omega)
      refine ⟨() :: us, o', Eff.forEach_ok (t := (Overlaid.onController (Controller.insertBlock s.1 true) o).2) ?_ h1,
        ?_⟩
      · rw [hc, hstep]
        exact Prod.ext hsim.1 rfl
      · simpa [insertAll, hf] using h2

/-- The loop that writes the path's buckets from the placements. -/
theorem placeLoop {plan : CircuitEvictionPlan} {blocks : List OramBlock}
    (hcand : plan.candidates = blocks.map stashCandidate) (hb : ∀ x ∈ blocks, x.payload.length = p.blockSize)
    {levels : List (List (Nat × OramBlock))} (hlv : ∀ taken ∈ levels, taken.length ≤ p.bucketSize)
    (ht : ∀ taken ∈ levels, ∀ x ∈ taken, blocks[x.1]? = some x.2)
    (hp : ∀ i ∈ path, i ∈ nodes) (h : Tracks p nodes tree₀ o b) :
    ∃ us o', Eff.forEach (fun (x : Nat × List CircuitEvictionPlacement) =>
        Overlaid.placeBucketAt plan (blocks.map (·.payload)) x.1 x.2)
          (path.zip (levels.map (toPlacements p.bucketSize))) o = (.ok us, o') ∧
      Tracks p nodes tree₀ o' { b with tree := overwrite b.tree (path.zip (levels.map (fillBucket p))) } := by
  induction path generalizing levels o b with
  | nil => exact ⟨[], o, rfl, h⟩
  | cons node path ih =>
    cases levels with
    | nil => exact ⟨[], o, rfl, h⟩
    | cons taken levels =>
      have hshape := fillBucket_shape hb (ht taken (by simp)) (hlv taken (by simp))
      have hset := h.setBucket (hp node (by simp)) hshape
      obtain ⟨us, o', h1, h2⟩ := ih (fun t hm => hlv t (List.mem_cons_of_mem _ hm))
        (fun t hm => ht t (List.mem_cons_of_mem _ hm)) (fun i hi => hp i (List.mem_cons_of_mem _ hi)) hset
      refine ⟨() :: us, o', Eff.forEach_ok ?_ h1, h2⟩
      simp only [Overlaid.placeBucketAt, Eff.get_bind, h.params, hcand, zip_candidates]
      rw [placeSlots_eq hb (ht taken (by simp)), List.map_map, List.map_map,
        show ((fun x : CircuitMetaSlot × Bytes => x.1) ∘ fun b : OramBlock => (b.metaSlot, b.payload)) = (·.metaSlot)
          from rfl,
        show ((fun x : CircuitMetaSlot × Bytes => x.2) ∘ fun b : OramBlock => (b.metaSlot, b.payload)) = (·.payload)
          from rfl,
        encode_metaSlots hshape.slots, Eff.lift_ok_bind, encode_payloads hshape, Eff.lift_ok_bind]
      rfl

/-- The reinsertions of the plan, by candidate number, are the loop over the path's slots. -/
theorem reinsert_eq {plan : CircuitEvictionPlan} {stash : List OramBlock} {buckets : List (List OramBlock)}
    (hplan : PlanOf p path stash buckets plan) (hz : ∀ bucket ∈ buckets, bucket.length = p.bucketSize) :
    (Eff.forEach (Overlaid.reinsertCandidate plan ((stash ++ buckets.flatten).map (·.payload)))
        plan.pathCandidateIndices.flatten : Eff Error (Overlaid ρ) (List Unit))
      = Eff.forEach (fun s : OramBlock × Ct.Choice => Overlaid.onController
          (Controller.insertCandidateIntoStash s.1.metaSlot s.1.payload (s.1.occupied && !s.2)))
          (buckets.flatten.zip (plan.selected.drop stash.length)) := by
  have hl := hplan.selected_length
  rw [List.length_append] at hl
  have hzl : (buckets.flatten.zip (plan.selected.drop stash.length)).length = buckets.length * p.bucketSize := by
    rw [List.length_zip, List.length_drop, ← flatten_length hz]; omega
  rw [hplan.indices, pathIndices_flatten, ← hzl]
  refine Eff.forEach_range' fun j hj => ?_
  rw [hzl, ← flatten_length hz] at hj
  have hblock : (stash ++ buckets.flatten)[stash.length + j]? = some buckets.flatten[j] := by
    rw [List.getElem?_append_right (by omega), Nat.add_sub_cancel_left, List.getElem?_eq_getElem hj]
  have hsel : plan.selected.getD (stash.length + j) false = plan.selected[stash.length + j] := by
    rw [List.getD_eq_getElem?_getD, List.getElem?_eq_getElem (by omega)]
    rfl
  simp only [Overlaid.reinsertCandidate, CircuitEvictionPlan.isLeftOver, hplan.candidates, List.getElem?_map, hblock, hsel,
    Option.map_some,
    Option.any_some, List.getElem_zip, List.getElem_drop, stashCandidate]
  rfl

/-- `evict_path_in_overlays` is `evict`. -/
theorem evict (hp : ∀ i ∈ path, i ∈ nodes) (hlt : ∀ i ∈ path, i < p.bucketCount) (hlen : path.length = p.height) :
    Eff.Sim (Tracks p nodes tree₀) (Overlaid.evictPathInOverlays path : Eff Error (Overlaid ρ) Unit)
      (Blocks.evict path) := by
  intro o b h
  have hstash : o.stash = b.stash := congrArg Controller.stash h.controller
  have hc := h.shape.controller
  have hz := h.bucket_slots hlt
  obtain ⟨plan, hok, hplan⟩ := plan_eq hlen (by simpa using hlen) hc.stash hz
  have hblocks : ∀ x ∈ b.stash ++ (path.map b.tree).flatten, x.payload.length = p.blockSize := by
    intro x hx
    rcases List.mem_append.mp hx with hx | hx
    · exact hc.payload x hx
    · obtain ⟨bucket, hm, hx⟩ := List.mem_flatten.mp hx
      obtain ⟨i, hi, rfl⟩ := List.mem_map.mp hm
      exact (h.shape.tree i (hlt i hi)).payload x hx
  have hensure := hplan.ensure_eq hc hz
  -- what both do before the capacity check
  have hrun : Overlaid.evictPathInOverlays path o
      = (Overlaid.onController (Controller.ensureEvictionStashCapacity plan) >>= fun _ =>
          Overlaid.onController (Controller.clearSelected plan) >>= fun _ =>
          (Eff.forEach (fun s : OramBlock × Ct.Choice => Overlaid.onController
            (Controller.insertCandidateIntoStash s.1.metaSlot s.1.payload (s.1.occupied && !s.2)))
            ((path.map b.tree).flatten.zip (plan.selected.drop b.stash.length))) >>= fun _ =>
          (Eff.forEach (fun (x : Nat × List CircuitEvictionPlacement) => Overlaid.placeBucketAt plan
            ((b.stash ++ (path.map b.tree).flatten).map (·.payload)) x.1 x.2) (path.zip plan.placements)) >>= fun _ =>
          pure ()) o := by
    rw [Overlaid.evictPathInOverlays, Eff.bind_ok (h.pathMetadata hp hlt), Eff.bind_ok (h.pathMetadata hp hlt),
      Eff.get_bind, h.params, hstash, hok, Eff.lift_ok_bind, Overlaid.applyEvictionPlanToOverlays,
      Eff.bind_ok (h.loadPayloads hp hlt hlen (by simpa using hlen) hplan), reinsert_eq hplan hz]
  have hensure' : Overlaid.onController (Controller.ensureEvictionStashCapacity plan) o
      = ((Controller.ensureEvictionStashCapacity plan b.toController).1, o) := by
    simp only [Overlaid.onController, Eff.zoom, show o.toController = b.toController from h.controller, hensure]
    split <;> rw [← h.controller]
  rw [hrun]
  simp only [Blocks.evict, Eff.get_bind, hc.params, Eff.ite_apply]
  rw [hensure] at hensure'
  dsimp only at hensure'
  by_cases hfit : EvictionFits p (keptStash (evicted p path b.stash (path.map b.tree)).2 b.stash)
      (leftOver b.stash.length (evicted p path b.stash (path.map b.tree)).2)
  · rw [if_pos hfit] at hensure'
    rw [if_neg (by unfold EvictionFits at hfit; omega), Eff.bind_ok hensure']
    -- the stash, cleared
    have hkept : Tracks p nodes tree₀
        { o with stash := keptStash (evicted p path b.stash (path.map b.tree)).2 b.stash }
        { b with stash := keptStash (evicted p path b.stash (path.map b.tree)).2 b.stash } :=
      h.setStash (by simpa using hc.stash) (keptStash_shape hc.payload)
    have hclear : Overlaid.onController (Controller.clearSelected plan) o
        = (.ok (), { o with stash := keptStash (evicted p path b.stash (path.map b.tree)).2 b.stash }) := by
      simp only [Overlaid.onController, Eff.zoom, Controller.clearSelected, Eff.modify_apply, hstash, hplan.keptStash_eq]
    -- the stash, refilled
    obtain ⟨us, o₂, hins, ht₂⟩ := hkept.insertLoop
      (l := (path.map b.tree).flatten.zip (plan.selected.drop b.stash.length))
      (fun s hs => hblocks _ (List.mem_append.mpr (.inr (List.of_mem_zip hs).1))) (by
        have hadd := freeSlots_add (keptStash (evicted p path b.stash (path.map b.tree)).2 b.stash)
        rw [keptStash_length, hc.stash] at hadd
        unfold EvictionFits at hfit
        rw [hplan.leftOver_eq, List.length_map] at hfit
        dsimp only
        omega)
    -- the path, rewritten
    have hst := fillLevels_stands p.bucketSize (levelFits p 0 path) (pool b.stash (path.map b.tree))
    have hsub : ∀ taken ∈ (evicted p path b.stash (path.map b.tree)).1, ∀ x ∈ taken,
        (b.stash ++ (path.map b.tree).flatten)[x.1]? = some x.2 := by
      intro taken hm x hx
      refine (mem_pool ?_).1
      refine (fillLevels_perm p.bucketSize (levelFits p 0 path) (pool b.stash (path.map b.tree))).mem_iff.mpr ?_
      exact List.mem_append.mpr (.inl (List.mem_flatten.mpr ⟨taken, hm, hx⟩))
    have hlv : ∀ taken ∈ (evicted p path b.stash (path.map b.tree)).1, taken.length ≤ p.bucketSize := by
      intro taken hm
      exact (Stands.level_length hst hm)
    obtain ⟨vs, o₃, hpl, ht₃⟩ := ht₂.placeLoop hplan.candidates hblocks hlv hsub hp
    rw [Eff.bind_ok hclear, Eff.bind_ok hins, hplan.placements, Eff.bind_ok hpl]
    refine ⟨rfl, ?_⟩
    rw [Eff.modify_apply, hplan.leftOver_eq, show fillBucket b.params = fillBucket p by rw [hc.params]]
    exact ht₃
  · rw [if_neg hfit] at hensure'
    rw [if_pos (by unfold EvictionFits at hfit; omega), Eff.bind_error hensure']
    exact ⟨rfl, h⟩

end Tracks
end BpirOram
