/-
  BpirOram.Circuit.Shape — what every state of the controller looks like: lengths, leaf
  labels in range, the schedule's leaf bits. Every step keeps it, failing or not.
-/

import BpirOram.Circuit.Blocks

namespace BpirOram

open Lib

variable {ρ : Type} {p : OramParams}

structure Controller.Shape (p : OramParams) (c : Controller ρ) : Prop where
  params : c.params = p
  posMap : c.posMap.length = p.logicalBlocks
  leaves : ∀ leaf ∈ c.posMap, leaf.toNat < p.leaves
  stash : c.stash.length = p.stashCapacity
  payload : ∀ b ∈ c.stash, b.payload.length = p.blockSize
  leafBits : c.schedule.leafBits = p.leafBits

structure Blocks.Shape (p : OramParams) (b : Blocks ρ) : Prop where
  controller : b.toController.Shape p
  tree : ∀ i < p.bucketCount, BucketShape p.bucketSize p.blockSize (b.tree i)

/-! ## The stash -/

theorem insertFirst_length {block : OramBlock} {stash stash' : List OramBlock} (h : insertFirst block stash = some stash') :
    stash'.length = stash.length := by
  induction stash generalizing stash' with
  | nil => cases h
  | cons slot rest ih =>
    rw [insertFirst] at h
    split at h
    · obtain ⟨rest', hr, rfl⟩ := Option.map_eq_some_iff.mp h
      simp [ih hr]
    · cases h
      simp

theorem insertFirst_mem {block : OramBlock} {stash stash' : List OramBlock} (h : insertFirst block stash = some stash')
    {x : OramBlock} (hx : x ∈ stash') : x = block ∨ x ∈ stash := by
  induction stash generalizing stash' with
  | nil => cases h
  | cons slot rest ih =>
    rw [insertFirst] at h
    split at h
    · obtain ⟨rest', hr, rfl⟩ := Option.map_eq_some_iff.mp h
      rcases List.mem_cons.mp hx with rfl | hx
      · exact .inr (by simp)
      · exact (ih hr hx).imp_right fun h => by simp [h]
    · cases h
      rcases List.mem_cons.mp hx with rfl | hx
      · exact .inl rfl
      · exact .inr (by simp [hx])

theorem updateStash_payload {stash : List OramBlock} {logicalId : UInt64} {newPayload : Bytes} {newLeaf : UInt32}
    {n : Nat} (hs : ∀ b ∈ stash, b.payload.length = n) (hn : newPayload.length = n) :
    ∀ b ∈ updateStash stash logicalId newPayload newLeaf, b.payload.length = n := by
  intro b hb
  obtain ⟨b, hm, rfl⟩ := List.mem_map.mp hb
  have hl := hs b hm
  dsimp only
  cases b.logicalIdChoice logicalId
  · rw [Ct.cmovBytes_false, hl]
  · rw [Ct.cmovBytes_true (hl.trans hn.symm), hn]

theorem scanLoop_length {logicalId : UInt64} {n : Nat} {l : List OramBlock} (hl : ∀ b ∈ l, b.payload.length = n)
    (found : Ct.Choice) {output : Bytes} (ho : output.length = n) :
    (l.foldl (fun (found, output) block =>
      let matched := block.logicalIdChoice logicalId
      (found || matched, Ct.cmovBytes output block.payload matched)) (found, output)).2.length = n := by
  induction l generalizing found output with
  | nil => exact ho
  | cons b l ih =>
    refine ih (fun x hx => hl x (by simp [hx])) _ ?_
    cases b.logicalIdChoice logicalId
    · rw [Ct.cmovBytes_false, ho]
    · rw [Ct.cmovBytes_true (ho.trans (hl b (by simp)).symm), hl b (by simp)]

theorem scanStash_length {stash : List OramBlock} {logicalId : UInt64} {n : Nat}
    (hs : ∀ b ∈ stash, b.payload.length = n) : (scanStash stash logicalId n).2.length = n :=
  scanLoop_length hs _ (by simp)

/-! ## Controller steps -/

namespace Controller

variable {c : Controller ρ}

theorem Shape.logicalBlocks_lt (h : c.Shape p) : c.posMap.length ≤ 2 ^ 64 := by
  rw [h.posMap]; exact Nat.le_of_lt p.logicalBlocks_lt

theorem checkStash_ok (h : c.Shape p) : checkStash c = (.ok (), c) := by
  have hle : c.occupiedStashLen ≤ c.stash.length := List.countP_le_length
  have hs := h.stash
  have hp := h.params
  simp only [checkStash, Eff.get_bind]
  rw [if_neg (by rw [hp]; omega), if_neg (by rw [hp]; omega)]
  rfl

theorem checkStash_keeps : Eff.Keeps (Shape p) (checkStash : Eff Error (Controller ρ) Unit) := by
  intro c h
  rw [checkStash_ok h]
  exact h

/-- Inserting fails exactly when the block is real and every slot is taken. -/
theorem insertBlock_eq (h : c.Shape p) {block : OramBlock} (hb : block.payload.length = p.blockSize) (choice : Ct.Choice) :
    insertBlock block choice c =
      if choice then match insertFirst block c.stash with
        | some stash => (.ok (), { c with stash })
        | none => (.error (.stashOverflow (p.stashCapacity + 1) p.stashCapacity), c)
      else (.ok (), c) := by
  obtain rfl := h.params
  simp only [insertBlock, Eff.get_bind]
  cases choice
  · simp only [Bool.not_false, insertScan_done, Bool.false_eq_true, if_false, if_true]
    rfl
  · simp only [Bool.not_true, insertScan_eq fun slot hs => (h.payload slot hs).trans hb.symm, if_true]
    cases insertFirst block c.stash <;> rfl

theorem insertBlock_keeps {block : OramBlock} (hb : block.payload.length = p.blockSize) (choice : Ct.Choice) :
    Eff.Keeps (Shape p) (insertBlock block choice : Eff Error (Controller ρ) Unit) := by
  intro c h
  rw [insertBlock_eq h hb]
  split
  · split
    · rename_i stash hi
      refine { h with stash := ?_, payload := ?_ }
      · exact (insertFirst_length hi).trans h.stash
      · intro x hx
        rcases insertFirst_mem hi hx with rfl | hx
        · exact hb
        · exact h.payload x hx
    · exact h
  · exact h

theorem recordAccess_keeps : Eff.Keeps (fun s : CircuitEvictionSchedule => s.leafBits = p.leafBits)
    CircuitEvictionSchedule.recordAccess := by
  intro s h
  by_cases hi : s.issuedAccesses.toNat + 1 < 2 ^ 64
  · rw [CircuitEvictionSchedule.recordAccess_ok hi]; exact h
  · rw [CircuitEvictionSchedule.recordAccess_error hi]; exact h

/-- Completing an eviction moves one counter. -/
theorem completeOneEviction_keeps {Q : CircuitEvictionSchedule → Prop}
    (hQ : ∀ s completedEvictions, Q s → Q { s with completedEvictions }) :
    Eff.Keeps Q CircuitEvictionSchedule.completeOneEviction := by
  refine Eff.Keeps.get_bind fun s h => ?_
  refine Eff.Keeps.bind (P := Q) (Eff.Keeps.lift _) (fun pending => ?_) s h
  split
  · exact Eff.Keeps.pure _
  · refine (Eff.Keeps.lift _).bind fun completed => ?_
    refine Eff.Keeps.bind ?_ fun _ => Eff.Keeps.pure _
    exact Eff.Keeps.modify fun s h => hQ s completed h

theorem onSchedule_keeps {α : Type} {m : Eff Error CircuitEvictionSchedule α}
    (hm : Eff.Keeps (fun s : CircuitEvictionSchedule => s.leafBits = p.leafBits) m) :
    Eff.Keeps (Shape p) (onSchedule m : Eff Error (Controller ρ) α) :=
  hm.zoom (fun _ h => h.leafBits) fun _ _ h hs => { h with leafBits := hs }

theorem shape_updateStash (h : c.Shape p) (logicalId : UInt64) (newPayload : Bytes) (newLeaf : UInt32)
    (hn : newPayload.length = p.blockSize) :
    Shape p { c with stash := updateStash c.stash logicalId newPayload newLeaf } :=
  { h with
    stash := by simpa [updateStash] using h.stash
    payload := updateStash_payload h.payload hn }

theorem scanPosMapUpdate_leaves {posMap : List UInt32} {logicalId : UInt64} {newLeaf : UInt32} {n : Nat}
    (h : ∀ leaf ∈ posMap, leaf.toNat < n) (hn : newLeaf.toNat < n) :
    ∀ leaf ∈ scanPosMapUpdate posMap logicalId newLeaf, leaf.toNat < n := by
  intro leaf hl
  obtain ⟨⟨old, idx⟩, hm, rfl⟩ := List.mem_map.mp hl
  dsimp only
  cases UInt64.ofNat idx == logicalId
  · exact h old (List.fst_mem_of_mem_zipIdx hm)
  · exact hn

theorem updateAll_leaves {posMap : List UInt32} {requests : List (UInt64 × UInt32)} {n : Nat}
    (h : ∀ leaf ∈ posMap, leaf.toNat < n) (hr : ∀ r ∈ requests, r.2.toNat < n) :
    ∀ leaf ∈ updateAll posMap requests, leaf.toNat < n := by
  induction requests generalizing posMap with
  | nil => exact h
  | cons r requests ih =>
    exact ih (scanPosMapUpdate_leaves h (hr r (by simp))) fun x hx => hr x (by simp [hx])

/-- The label of an id in range is a leaf of the tree. -/
theorem Shape.lookup_lt (h : c.Shape p) {logicalId : UInt64} (hid : logicalId.toNat < p.logicalBlocks) :
    (scanPosMapLookup c.posMap logicalId).toNat < p.leaves := by
  have hlt : logicalId.toNat < c.posMap.length := by rw [h.posMap]; exact hid
  rw [scanPosMapLookup_eq h.logicalBlocks_lt, List.getD_eq_getElem?_getD, List.getElem?_eq_getElem hlt]
  exact h.leaves _ (List.getElem_mem hlt)

theorem finishRequest_keeps (logicalId : UInt64) (newLeaf : UInt32) (update : Update) :
    Eff.Keeps (Shape p) (finishRequest logicalId newLeaf update : Eff Error (Controller ρ) Bytes) := by
  refine Eff.Keeps.get_bind fun c h => ?_
  rw [Eff.ite_apply]
  split
  · exact h
  · refine Eff.Keeps.bind (onSchedule_keeps recordAccess_keeps) (fun _ => Eff.Keeps.pure _) _ ?_
    refine shape_updateStash h logicalId _ newLeaf ?_
    rw [update.length_apply, h.params, scanStash_length h.payload]

theorem finishAccess_keeps [Rng ρ] (logicalId : UInt64) (update : Update) :
    Eff.Keeps (Shape p) (finishAccess logicalId update : Eff Error (Controller ρ) Bytes) := by
  refine Eff.Keeps.get_bind fun c h => ?_
  rw [Eff.ite_apply]
  split
  · exact h
  · refine Eff.Keeps.bind (onSchedule_keeps recordAccess_keeps)
      (fun _ => checkStash_keeps.bind fun _ => Eff.Keeps.pure _) _ ?_
    have hs := shape_updateStash h logicalId (update.apply (scanStash c.stash logicalId c.params.blockSize).2)
      (randomLeaf c.params c.rng).1 (by
        rw [update.length_apply, h.params, scanStash_length h.payload])
    exact { hs with
      posMap := by simpa using h.posMap
      leaves := scanPosMapUpdate_leaves h.leaves (h.params ▸ randomLeaf_lt c.params c.rng) }

end Controller

/-! ## Slots and paths -/

theorem takeSlots_shape (logicalId : UInt64) {bucket : List OramBlock} {r : Removal} {z n : Nat}
    (hb : BucketShape z n bucket) (hr : r.selected.payload.length = n) :
    BucketShape z n (takeSlots logicalId bucket r).1 ∧ (takeSlots logicalId bucket r).2.selected.payload.length = n := by
  obtain ⟨hz, hn⟩ := hb
  induction bucket generalizing z r with
  | nil => exact ⟨⟨hz, hn⟩, hr⟩
  | cons b rest ih =>
    have hbl := hn b (by simp)
    rw [takeSlots]
    split
    · refine ⟨⟨by simpa using hz, ?_⟩, hbl⟩
      intro x hx
      rcases List.mem_cons.mp hx with rfl | hx
      · simpa using hbl
      · exact hn x (by simp [hx])
    · obtain ⟨⟨i1, i2⟩, i3⟩ := ih (z := rest.length) hr rfl fun x hx => hn x (by simp [hx])
      refine ⟨⟨by simpa [i1] using hz, ?_⟩, i3⟩
      intro x hx
      rcases List.mem_cons.mp hx with rfl | hx
      · exact hbl
      · exact i2 x hx

theorem takeAlong_frame {logicalId : UInt64} {path : List Nat} {r : Removal} {tree : Nat → List OramBlock} {i : Nat}
    (hi : i ∉ path) : (takeAlong logicalId path r tree).1 i = tree i := by
  induction path generalizing r tree with
  | nil => rfl
  | cons node path ih =>
    rw [List.mem_cons, not_or] at hi
    rw [takeAlong, ih hi.2, Function.update_of_ne hi.1]

theorem takeAlong_shape (logicalId : UInt64) {path : List Nat} {r : Removal} {tree : Nat → List OramBlock}
    (hp : ∀ i ∈ path, i < p.bucketCount) (hr : r.selected.payload.length = p.blockSize)
    (ht : ∀ i < p.bucketCount, BucketShape p.bucketSize p.blockSize (tree i)) :
    (∀ i < p.bucketCount, BucketShape p.bucketSize p.blockSize ((takeAlong logicalId path r tree).1 i)) ∧
      (takeAlong logicalId path r tree).2.selected.payload.length = p.blockSize := by
  induction path generalizing r tree with
  | nil => exact ⟨ht, hr⟩
  | cons node path ih =>
    obtain ⟨h1, h2⟩ := takeSlots_shape logicalId (ht node (hp node (by simp))) hr
    refine ih (fun i hi => hp i (by simp [hi])) h2 fun i hi => ?_
    by_cases hin : i = node
    · subst hin; rwa [Function.update_self]
    · rw [Function.update_of_ne hin]; exact ht i hi

end BpirOram
