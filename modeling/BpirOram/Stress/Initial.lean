/-
  BpirOram.Stress.Initial — the two initial placements, and the simulator beside the controller.

  Both builds put each id into the first free slot of its leaf's path, from the end, or into
  the stash. With the same leaves they go alongside, slot for slot (`Alongside`).
  - `CircuitStressSim.tracks_oram`: a build and a simulator that drew the same leaves hold
    the same placement; from the same placement, evictions of one path leave the same counts.
-/

import BpirOram.Stress.Agree

namespace BpirOram

open Lib

variable {M P S ρ σ : Type} {p : OramParams}

/-! ## One id -/

/-- What the simulator keeps of a slot. -/
def slotId (slot : CircuitMetaSlot) : UInt32 :=
  if slot.occupied then UInt32.ofNat slot.logicalId.toNat else emptyBlock

theorem placeId_slots {slot : CircuitMetaSlot} {slots : List CircuitMetaSlot}
    (hne : ∀ x ∈ slots, x.occupied = true → slotId x ≠ emptyBlock) :
    placeId (slotId slot) (slots.map slotId) = (placeInitialSlot slot slots).map (·.map slotId) := by
  induction slots with
  | nil => rfl
  | cons x slots ih =>
    rw [List.map_cons, placeId, placeInitialSlot]
    cases hx : x.occupied with
    | false =>
      rw [if_pos (by rw [slotId, hx]; rfl), Bool.not_false, if_pos rfl]
      rfl
    | true =>
      rw [if_neg (hne x List.mem_cons_self hx), if_neg (by simp), ih fun y hy => hne y (List.mem_cons_of_mem _ hy)]
      cases placeInitialSlot slot slots with
      | none => rfl
      | some slots' => rfl

/-- The plan and the simulator after `k` ids: bucket by bucket the same ids, their leaves in
    the position map, the same stash. -/
structure Alongside (p : OramParams) (k : Nat) (metaBuckets : List CircuitMetaBucket) (stashIds : List (Nat × UInt32))
    (t : SimTree) : Prop where
  shape : t.Shape p
  positionMap : t.positionMap.length = k
  nodes : ∀ i bucket, metaBuckets[i]? = some bucket → t.bucket i = bucket.slots.map slotId
  leaves : ∀ bucket ∈ metaBuckets, ∀ slot ∈ bucket.slots, slot.occupied = true →
    slot.logicalId.toNat < k ∧ t.positionMap.getD slot.logicalId.toNat 0 = slot.leaf
  stash : stashIds = t.stash.map SimBlock.label

namespace Alongside

variable {k : Nat} {metaBuckets metaBuckets' : List CircuitMetaBucket} {stashIds : List (Nat × UInt32)} {t : SimTree}

theorem slotId_ne (h : Alongside p k metaBuckets stashIds t) {bucket : CircuitMetaBucket} (hb : bucket ∈ metaBuckets) :
    ∀ slot ∈ bucket.slots, slot.occupied = true → slotId slot ≠ emptyBlock := by
  intro slot hs ho he
  have hlt := (h.leaves bucket hb slot hs ho).1
  have hle := h.positionMap ▸ h.shape.positionMap
  have hmax : emptyBlock.toNat < 2 ^ 32 := UInt32.toNat_lt _
  rw [slotId, if_pos ho] at he
  have hnat := congrArg UInt32.toNat he
  rw [UInt32.toNat_ofNat', Nat.mod_eq_of_lt (by omega)] at hnat
  omega

/-- No bucket of the path has a free slot, for both or for neither. -/
theorem placeAlong_none (h : Alongside p k metaBuckets stashIds t) (hlen : metaBuckets.length = p.bucketCount)
    {slot : CircuitMetaSlot} {path : List Nat} (hlt : ∀ i ∈ path, i < p.bucketCount)
    (hnone : placeInitialAlong slot path metaBuckets = none) :
    SimTree.placeAlong (slotId slot) path t = (.ok false, t) := by
  induction path with
  | nil => rfl
  | cons node path ih =>
    have hnode := hlt node List.mem_cons_self
    have hb : metaBuckets[node]? = some metaBuckets[node] := List.getElem?_eq_getElem (hlen ▸ hnode)
    have hplace := @placeId_slots slot _ (h.slotId_ne (List.mem_of_getElem? hb))
    rw [placeInitialAlong, hb, Option.bind_some] at hnone
    cases hs : placeInitialSlot slot metaBuckets[node].slots with
    | some slots => rw [hs] at hnone; cases hnone
    | none =>
      rw [hs] at hnone hplace
      rw [SimTree.placeAlong, Eff.get_bind, SimTree.slice_eq h.shape hnode, Eff.lift_ok_bind, h.nodes node _ hb, hplace]
      exact ih (fun i hi => hlt i (List.mem_cons_of_mem _ hi)) hnone

theorem placeAlong_some (h : Alongside p k metaBuckets stashIds t) (hlen : metaBuckets.length = p.bucketCount)
    {slot : CircuitMetaSlot} {path : List Nat} (hlt : ∀ i ∈ path, i < p.bucketCount)
    (hsome : placeInitialAlong slot path metaBuckets = some metaBuckets') :
    ∃ node slots, node < p.bucketCount ∧
      (∃ bucket, metaBuckets[node]? = some bucket ∧ placeInitialSlot slot bucket.slots = some slots) ∧
      metaBuckets' = metaBuckets.set node { slots } ∧
      SimTree.placeAlong (slotId slot) path t = (.ok true, t.withBucket node (slots.map slotId) t.stash) := by
  induction path with
  | nil => cases hsome
  | cons node path ih =>
    have hnode := hlt node List.mem_cons_self
    have hb : metaBuckets[node]? = some metaBuckets[node] := List.getElem?_eq_getElem (hlen ▸ hnode)
    have hplace := @placeId_slots slot _ (h.slotId_ne (List.mem_of_getElem? hb))
    rw [SimTree.placeAlong, Eff.get_bind, SimTree.slice_eq h.shape hnode, Eff.lift_ok_bind, h.nodes node _ hb, hplace]
    rw [placeInitialAlong, hb, Option.bind_some] at hsome
    cases hs : placeInitialSlot slot metaBuckets[node].slots with
    | some slots =>
      rw [hs] at hsome
      cases hsome
      exact ⟨node, slots, hnode, ⟨_, hb, hs⟩, rfl, rfl⟩
    | none =>
      rw [hs] at hsome
      exact ih (fun i hi => hlt i (List.mem_cons_of_mem _ hi)) hsome

/-- The next leaf, entered into the position map. -/
theorem push (h : Alongside p k metaBuckets stashIds t) (hk : k < emptyBlock.toNat) (leaf : UInt32) :
    Alongside p (k + 1) metaBuckets stashIds { t with positionMap := t.positionMap ++ [leaf] } where
  shape := h.shape.push (h.positionMap.symm ▸ hk) leaf
  positionMap := by rw [List.length_append, h.positionMap]; rfl
  nodes := h.nodes
  leaves := fun bucket hb slot hs ho => by
    obtain ⟨hlt, hleaf⟩ := h.leaves bucket hb slot hs ho
    refine ⟨Nat.lt_succ_of_lt hlt, ?_⟩
    rw [← hleaf, List.getD_append _ _ _ _ (by rw [h.positionMap]; exact hlt)]
  stash := h.stash

/-- The id in its bucket. -/
theorem place (h : Alongside p (k + 1) metaBuckets stashIds t)
    (hz : ∀ bucket ∈ metaBuckets, bucket.slots.length = p.bucketSize)
    {slot : CircuitMetaSlot} (hk : slot.logicalId.toNat = k) (hleaf : t.positionMap.getD k 0 = slot.leaf)
    {node : Nat} (hnode : node < p.bucketCount) {bucket : CircuitMetaBucket} (hb : metaBuckets[node]? = some bucket)
    {slots : List CircuitMetaSlot} (hs : placeInitialSlot slot bucket.slots = some slots) :
    Alongside p (k + 1) (metaBuckets.set node { slots }) stashIds (t.withBucket node (slots.map slotId) t.stash) := by
  obtain ⟨-, hlen, hmem⟩ := placeInitialSlot_eq (fun _ => []) 0 hs
  have hbucket := List.mem_of_getElem? hb
  have hslots : (slots.map slotId).length = p.bucketSize := by rw [List.length_map, hlen, hz bucket hbucket]
  have hleaves : ∀ x ∈ slots, x.occupied = true →
      x.logicalId.toNat < k + 1 ∧ t.positionMap.getD x.logicalId.toNat 0 = x.leaf := by
    intro x hx hox
    rcases hmem x hx with rfl | hx
    · exact ⟨by omega, by rw [hk, hleaf]⟩
    · exact h.leaves bucket hbucket x hx hox
  refine { shape := ?_, positionMap := h.positionMap, nodes := fun i b hi => ?_, leaves := fun b hmb => ?_, stash := h.stash }
  · refine SimTree.withBucket_shape h.shape hnode hslots (fun id hid hne => ?_) h.shape.stash
    obtain ⟨x, hx, rfl⟩ := List.mem_map.mp hid
    by_cases hox : x.occupied = true
    · have hlt := (hleaves x hx hox).1
      rw [slotId, if_pos hox, UInt32.toNat_ofNat', h.positionMap]
      exact Nat.lt_of_le_of_lt (Nat.mod_le _ _) hlt
    · rw [slotId, if_neg hox] at hne
      exact absurd rfl hne
  · rw [SimTree.withBucket_bucket _ h.shape hnode hslots]
    by_cases hin : i = node
    · subst hin
      rw [List.getElem?_set_self (List.getElem?_eq_some_iff.mp hb).1] at hi
      cases hi
      rw [Function.update_self]
    · rw [List.getElem?_set_ne (Ne.symm hin)] at hi
      rw [Function.update_of_ne hin]
      exact h.nodes i b hi
  · rcases List.mem_or_eq_of_mem_set hmb with hmb | rfl
    · exact h.leaves b hmb
    · exact hleaves

/-- The id in the stash. -/
theorem toStash (h : Alongside p (k + 1) metaBuckets stashIds t) (leaf : UInt32) :
    Alongside p (k + 1) metaBuckets (stashIds ++ [(k, leaf)])
      { t with stash := t.stash ++ [{ id := UInt32.ofNat k, leaf }] } := by
  have hk : k < 2 ^ 32 := by
    have hle := h.shape.positionMap
    have hmax : emptyBlock.toNat < 2 ^ 32 := UInt32.toNat_lt _
    rw [h.positionMap] at hle
    omega
  have hid : (UInt32.ofNat k).toNat = k := by rw [UInt32.toNat_ofNat', Nat.mod_eq_of_lt hk]
  refine { shape := { h.shape with stash := fun block hb => ?_ }, positionMap := h.positionMap, nodes := h.nodes
           leaves := h.leaves, stash := ?_ }
  · rcases List.mem_append.mp hb with hb | hb
    · exact h.shape.stash block hb
    · rw [List.mem_singleton.mp hb, hid, h.positionMap]
      exact Nat.lt_succ_self k
  · rw [h.stash, List.map_append, List.map_singleton, SimBlock.label, hid]

end Alongside

/-! ## The loop -/

section
variable [SimRng σ]

theorem placeAlong_positionMap (positionMap : List UInt32) (id : UInt32) (path : List Nat) :
    Eff.Keeps (fun t : SimTree => t.positionMap = positionMap) (SimTree.placeAlong id path) := by
  induction path with
  | nil => exact Eff.Keeps.pure _
  | cons node path ih =>
    refine Eff.Keeps.get_bind fun t h => ?_
    refine Eff.Keeps.bind (P := fun t : SimTree => t.positionMap = positionMap) (Eff.Keeps.lift _) (fun bucket => ?_) t h
    split
    · refine Eff.Keeps.bind ?_ fun _ => Eff.Keeps.pure _
      exact Eff.Keeps.modify fun _ ht => ht
    · exact ih

theorem placeOrStash_positionMap (positionMap : List UInt32) (block : SimBlock) :
    Eff.Keeps (fun t : SimTree => t.positionMap = positionMap) (SimTree.placeOrStash block) := by
  refine Eff.Keeps.bind (P := fun t : SimTree => t.positionMap = positionMap) ?_ fun placed => ?_
  · exact Eff.Keeps.get_bind fun t h => placeAlong_positionMap positionMap _ _ t h
  · split
    · exact Eff.Keeps.pure _
    · exact Eff.Keeps.modify fun _ ht => ht

/-- One id adds its leaf to the position map. -/
theorem placeNext_positionMap (logicalId : Nat) (s : SimTree × σ) :
    (CircuitStressSim.placeNext logicalId s).2.1.positionMap
      = s.1.positionMap ++ [(CircuitStressSim.randomLeaf s.1.params s.2).1] :=
  placeOrStash_positionMap _ _ _ rfl

theorem placeNext_run {logicalId : Nat} {t t' : SimTree} {rng : σ}
    (h : SimTree.placeOrStash { id := UInt32.ofNat logicalId, leaf := (CircuitStressSim.randomLeaf t.params rng).1 }
      { t with positionMap := t.positionMap ++ [(CircuitStressSim.randomLeaf t.params rng).1] } = (.ok (), t')) :
    CircuitStressSim.placeNext logicalId (t, rng) = (.ok (), (t', (CircuitStressSim.randomLeaf t.params rng).2)) := by
  rw [CircuitStressSim.placeNext, Eff.get_bind, Eff.modify_bind]
  exact Eff.zoom_of h

theorem placeNexts_positionMap (l : List Nat) (s : SimTree × σ) :
    s.1.positionMap <+: (Eff.forEach CircuitStressSim.placeNext l s).2.1.positionMap :=
  Eff.Keeps.forEach (P := fun s' : SimTree × σ => s.1.positionMap <+: s'.1.positionMap) (fun logicalId _ s' h => by
    have hnext : s'.1.positionMap <+: (CircuitStressSim.placeNext logicalId s').2.1.positionMap := by
      rw [placeNext_positionMap]
      exact List.prefix_append _ _
    exact h.trans hnext) s List.prefix_rfl

/-- The controller's loop keeps the leaves of the ids it has placed. -/
theorem placeInitial_posMap [Rng ρ] {n k j : Nat} (hj : j < k) {plan plan' : InitialPlacement ρ}
    (hrun : placeInitial p (List.range' k n) plan = .ok plan') : plan'.posMap[j]? = plan.posMap[j]? := by
  induction n generalizing k plan with
  | zero =>
    cases hrun
    rfl
  | succ n ih =>
    have hset : ∀ leaf, (plan.posMap.set k leaf)[j]? = plan.posMap[j]? := fun leaf => List.getElem?_set_ne (by omega)
    rw [List.range'_succ, placeInitial] at hrun
    simp only at hrun
    split at hrun
    · rw [ih (Nat.lt_succ_of_lt hj) hrun, hset]
    · split at hrun
      · cases hrun
      · rw [ih (Nat.lt_succ_of_lt hj) hrun, hset]

/-- Placing the next id, once its leaf is in the position map. -/
theorem Alongside.placeOrStash {k : Nat} {metaBuckets : List CircuitMetaBucket} {stashIds : List (Nat × UInt32)} {t : SimTree}
    (h : Alongside p (k + 1) metaBuckets stashIds t) (hlen : metaBuckets.length = p.bucketCount)
    (hz : ∀ bucket ∈ metaBuckets, bucket.slots.length = p.bucketSize) {leaf : UInt32} (hleaf : t.positionMap.getD k 0 = leaf)
    (hlt : leaf.toNat < p.leaves) :
    (∀ metaBuckets', placeInitialMeta p metaBuckets (UInt64.ofNat k) leaf = some metaBuckets' →
      ∃ t', SimTree.placeOrStash { id := UInt32.ofNat k, leaf } t = (.ok (), t') ∧
        Alongside p (k + 1) metaBuckets' stashIds t') ∧
    (placeInitialMeta p metaBuckets (UInt64.ofNat k) leaf = none →
      ∃ t', SimTree.placeOrStash { id := UInt32.ofNat k, leaf } t = (.ok (), t') ∧
        Alongside p (k + 1) metaBuckets (stashIds ++ [(k, leaf)]) t') := by
  have hk : (UInt64.ofNat k).toNat = k := by
    have hle := h.shape.positionMap
    have hmax : emptyBlock.toNat < 2 ^ 32 := UInt32.toNat_lt _
    rw [h.positionMap] at hle
    exact toNat_ofNat (by omega)
  have hid : slotId (.real (UInt64.ofNat k) leaf) = UInt32.ofNat k := by
    rw [slotId, CircuitMetaSlot.real, if_pos rfl, hk]
  have hpath : ∀ i ∈ (p.pathNodes leaf).reverse, i < p.bucketCount := fun i hi =>
    p.pathNodes_lt hlt i (List.mem_reverse.mp hi)
  have hdeep (id : UInt32) : SimTree.placeDeepest { id, leaf } t = SimTree.placeAlong id (p.pathNodes leaf).reverse t := by
    rw [SimTree.placeDeepest, Eff.get_bind, h.shape.params]
  constructor
  · intro metaBuckets' hsome
    obtain ⟨node, slots, hnode, ⟨bucket, hb, hs⟩, rfl, hrun⟩ := h.placeAlong_some hlen hpath hsome
    rw [hid] at hrun
    refine ⟨_, ?_, h.place hz hk hleaf hnode hb hs⟩
    rw [SimTree.placeOrStash, Eff.bind_ok ((hdeep _).trans hrun)]
    rfl
  · intro hnone
    have hrun := h.placeAlong_none hlen hpath hnone
    rw [hid] at hrun
    refine ⟨_, ?_, h.toStash leaf⟩
    rw [SimTree.placeOrStash, Eff.bind_ok ((hdeep _).trans hrun)]
    rfl

/-- Two loops that gave out the same leaves placed the same ids. By induction on the ids
    left: the position maps at the end say that the next leaf is the same. -/
theorem Alongside.loop [Rng ρ] {f : Nat → Bytes} {n k : Nat} {plan plan' : InitialPlacement ρ} {t : SimTree} {rng : σ}
    {us : List Unit} {s' : SimTree × σ} (h : Alongside p k plan.metaBuckets plan.initialStashIds t)
    (hpl : Planned p f k plan) (hsmall : p.logicalBlocks ≤ emptyBlock.toNat) (hn : k + n = p.logicalBlocks)
    (hctl : placeInitial p (List.range' k n) plan = .ok plan')
    (hsim : Eff.forEach CircuitStressSim.placeNext (List.range' k n) (t, rng) = (.ok us, s'))
    (hmaps : s'.1.positionMap = plan'.posMap) :
    Alongside p p.logicalBlocks plan'.metaBuckets plan'.initialStashIds s'.1 := by
  induction n generalizing k plan t rng us with
  | zero =>
    cases hctl
    cases hsim
    obtain rfl : k = p.logicalBlocks := by omega
    exact h
  | succ n ih =>
    rw [List.range'_succ, Eff.forEach] at hsim
    obtain ⟨⟨⟩, s₁, hfirst, hsim⟩ := Eff.bind_eq_ok hsim
    obtain ⟨us', s₂, hrest, hlast⟩ := Eff.bind_eq_ok hsim
    cases hlast
    have hk : k < plan.posMap.length := by rw [hpl.posMap]; omega
    have hlt := randomLeaf_lt p plan.rng
    -- the leaf the simulator drew stands in its map to the end, the controller's in the plan
    have hsimLeaf : plan'.posMap[k]? = some (CircuitStressSim.randomLeaf t.params rng).1 := by
      have hmap := placeNext_positionMap k (t, rng)
      have hprefix := placeNexts_positionMap (List.range' (k + 1) n) s₁
      rw [hfirst] at hmap
      rw [hrest, hmaps, hmap] at hprefix
      obtain ⟨tail, htail⟩ := hprefix
      have hlen : k = t.positionMap.length := h.positionMap.symm
      rw [← htail, hlen, List.append_assoc, List.getElem?_append_right (Nat.le_refl _), Nat.sub_self]
      rfl
    have hafter : ∀ plan₁ : InitialPlacement ρ, plan₁.posMap = plan.posMap.set k (randomLeaf p plan.rng).1 →
        placeInitial p (List.range' (k + 1) n) plan₁ = .ok plan' →
        (CircuitStressSim.randomLeaf t.params rng).1 = (randomLeaf p plan.rng).1 := by
      intro plan₁ hmap hrun
      rw [placeInitial_posMap (Nat.lt_succ_self k) hrun, hmap, List.getElem?_set_self hk] at hsimLeaf
      exact (Option.some.inj hsimLeaf).symm
    have hpush := h.push (by omega) (randomLeaf p plan.rng).1
    have hpushed : (t.positionMap ++ [(randomLeaf p plan.rng).1]).getD k 0 = (randomLeaf p plan.rng).1 := by
      rw [← h.positionMap]
      simp
    have hnext := hpush.placeOrStash hpl.buckets (fun bucket hb => (hpl.bucket bucket hb).slots) hpushed hlt
    rw [List.range'_succ, placeInitial] at hctl
    simp only at hctl
    split at hctl
    · rename_i metaBuckets hp
      have hdrawn := hafter _ rfl hctl
      obtain ⟨t', hplace, halong⟩ := hnext.1 _ hp
      rw [← hdrawn] at hplace
      rw [placeNext_run hplace] at hfirst
      cases hfirst
      exact ih halong (hpl.place (by omega) hlt _ hp) (by omega) hctl hrest
    · rename_i hp
      split at hctl
      · cases hctl
      · have hdrawn := hafter _ rfl hctl
        obtain ⟨t', hplace, halong⟩ := hnext.2 hp
        rw [← hdrawn] at hplace
        rw [placeNext_run hplace] at hfirst
        cases hfirst
        exact ih halong (hpl.toStash (by omega) hlt _) (by omega) hctl hrest

end

/-! ## The two builds -/

/-- Before the first id: no bucket holds any. -/
theorem alongside_start (p : OramParams) (rng : ρ) :
    Alongside p 0 (initialPlacement p rng).metaBuckets (initialPlacement p rng).initialStashIds
      { params := p, slots := List.replicate (p.bucketCount * p.bucketSize) emptyBlock, positionMap := [], stash := [] } := by
  have hslots : ∀ i, ∀ id ∈ (List.replicate (p.bucketCount * p.bucketSize) emptyBlock).drop i |>.take p.bucketSize,
      id = emptyBlock := fun i id hid => (List.mem_replicate.mp (List.mem_of_mem_drop (List.mem_of_mem_take hid))).2
  have hshape : SimTree.Shape p
      { params := p, slots := List.replicate (p.bucketCount * p.bucketSize) emptyBlock, positionMap := [], stash := [] } :=
    { params := rfl
      slots := List.length_replicate
      positionMap := Nat.zero_le _
      held := fun i id hid hne => absurd (hslots _ id hid) hne
      stash := fun block hb => absurd hb List.not_mem_nil }
  refine { shape := hshape, positionMap := rfl, nodes := fun i bucket hb => ?_, leaves := fun bucket hb slot hs ho => ?_,
           stash := rfl }
  · have hi := (List.getElem?_eq_some_iff.mp hb).1
    obtain rfl := (List.mem_replicate.mp (List.mem_of_getElem? hb)).2
    rw [initialPlacement, List.length_replicate] at hi
    refine (List.eq_replicate_iff.mpr ⟨SimTree.bucket_length hshape hi, hslots _⟩).trans ?_
    rw [CircuitMetaBucket.dummy, List.map_replicate]
    rfl
  · obtain rfl := (List.mem_replicate.mp hb).2
    obtain rfl := (List.mem_replicate.mp hs).2
    cases ho

/-- The ids of a bucket, as the controller's blocks. -/
theorem labelled_label (f : Nat → Bytes) (n : Nat) {positionMap : List UInt32} (hmap : positionMap.length ≤ emptyBlock.toNat)
    {slots : List CircuitMetaSlot} (hslots : ∀ slot ∈ slots, slot.occupied = true →
      slot.logicalId.toNat < positionMap.length ∧ positionMap.getD slot.logicalId.toNat 0 = slot.leaf) :
    (SimTree.labelled positionMap (slots.map slotId)).map SimBlock.label
      = ((slots.map (blockOfSlot f n)).filter (·.occupied)).map OramBlock.label := by
  induction slots with
  | nil => rfl
  | cons slot slots ih =>
    have ih := ih fun x hx => hslots x (List.mem_cons_of_mem _ hx)
    rw [SimTree.labelled] at ih ⊢
    cases ho : slot.occupied with
    | false =>
      have hfree : slotId slot = emptyBlock := by rw [slotId, ho]; rfl
      rw [List.map_cons, List.map_cons, List.filter_cons_of_neg (by simp [hfree]), ih,
        List.filter_cons_of_neg (by simp [ho])]
    | true =>
      obtain ⟨hlt, hleaf⟩ := hslots slot List.mem_cons_self ho
      have hid : (slotId slot).toNat = slot.logicalId.toNat := by
        have hmax : emptyBlock.toNat < 2 ^ 32 := UInt32.toNat_lt _
        rw [slotId, if_pos ho, UInt32.toNat_ofNat', Nat.mod_eq_of_lt (by omega)]
      have hne : slotId slot ≠ emptyBlock := fun he => by
        rw [he] at hid
        omega
      rw [List.map_cons, List.map_cons, List.filter_cons_of_pos (by simp [hne]), List.filter_cons_of_pos (by simp [ho]),
        List.map_cons, List.map_cons, List.map_cons, ih, SimBlock.label, OramBlock.label, blockOfSlot, if_pos ho, hid, hleaf]

theorem Alongside.samePlacement {f : Nat → Bytes} {metaBuckets : List CircuitMetaBucket} {stashIds : List (Nat × UInt32)}
    {t : SimTree} {stash : List OramBlock} {k : Nat} (h : Alongside p k metaBuckets stashIds t)
    (hlen : metaBuckets.length = p.bucketCount) (hstash : occ stash = ↑(stashIds.map (stashBlock f))) :
    SamePlacement p t (planTree p f metaBuckets) stash where
  nodes i hi := by
    have hb : metaBuckets[i]? = some metaBuckets[i] := List.getElem?_eq_getElem (hlen ▸ hi)
    have hlabels := labelled_label f p.blockSize h.shape.positionMap fun slot hs ho =>
      h.positionMap ▸ h.leaves _ (List.mem_of_getElem? hb) slot hs ho
    rw [SimTree.blocksAt, h.nodes i _ hb, hlabels, planTree, hb]
    rfl
  stash := by
    have hback : ∀ block : SimBlock, OramBlock.label (stashBlock f block.label) = block.label := by
      intro block
      have hid : block.id.toNat < 2 ^ 64 := (UInt32.toNat_lt block.id).trans (by decide)
      rw [OramBlock.label, stashBlock, SimBlock.label, toNat_ofNat hid]
    rw [hstash, h.stash, Multiset.map_coe, List.map_map, List.map_map]
    exact congrArg _ (List.map_congr_left fun block _ => (hback block).symm)

/-- A simulator and a controller whose builds gave out the same leaves. `validate_config`
    bounds the ids before the simulator is made. -/
theorem initial_agrees [PageStore M] [PageStore P] [TrustedBlockSource S] [Rng ρ] [SimRng σ] (HM : HonestStore M)
    (HP : HonestStore P) (HS : HonestSource S) {f : Nat → Bytes} {metaStore : M} {payloadStore : P} {source : S}
    {nm szm np szp : Nat} {cm cp : Nat → Bytes} (hm : HM.Holds nm szm cm metaStore)
    (hp : HP.Holds np szp cp payloadStore) (hsrc : HS.Serves f source) (hsmall : p.logicalBlocks ≤ emptyBlock.toNat)
    {seed simSeed : FixedBytes 32} {s : CircuitOram M P ρ} {sim : CircuitStressSim}
    (hbuild : CircuitOram.buildTrustedFromSource p metaStore payloadStore source seed = .ok s)
    (hnew : CircuitStressSim.new (ρ := σ) p simSeed = .ok sim) (hmaps : sim.positionMap = s.posMap) :
    ∃ b, Rel (HM.metaContract p) (HP.payloadContract p) s b ∧ Inv p b f ∧ sim.Shape p ∧
      SamePlacement p sim.toSimTree b.tree b.stash := by
  obtain ⟨plan, b, hctl, hpl, hpos, htree, hstash, hrel⟩ := buildTrustedFromSource_plan HM HP HS hm hp hsrc hbuild
  rw [List.range_eq_range'] at hctl
  rw [CircuitStressSim.new, List.range_eq_range'] at hnew
  split at hnew
  · cases hnew
  · simp only at hnew
    cases hrun : (Eff.forEach (CircuitStressSim.placeNext (ρ := σ)) (List.range' 0 p.logicalBlocks)
        ({ params := p, slots := List.replicate (p.bucketCount * p.bucketSize) emptyBlock, positionMap := [], stash := [] },
          Rng.fromSeed simSeed)).1 with
    | error e => rw [hrun] at hnew; cases hnew
    | ok us =>
      rw [hrun] at hnew
      cases hnew
      have halong := (alongside_start p (Rng.fromSeed seed : ρ)).loop (planned_start p f _) hsmall (Nat.zero_add _) hctl
        (Prod.ext hrun rfl) (hmaps.trans ((congrArg Controller.posMap hrel.controller).trans hpos))
      refine ⟨b, hrel, hpl.inv hrel.shape hpos htree hstash, halong.shape, ?_⟩
      rw [htree]
      exact halong.samePlacement hpl.buckets hstash

/-- The same placement on both sides: after the two builds, when they gave out the same
    leaves, and then, on any tree, evicting one path leaves each of its buckets and the stash
    as full in the simulator as in the controller. A stash that the simulator would grow past
    the capacity is the overflow the controller reports; with every block on the path of its
    leaf it does not grow. -/
theorem CircuitStressSim.tracks_oram [PageStore M] [PageStore P] [TrustedBlockSource S] [Rng ρ] [SimRng σ]
    (HM : HonestStore M) (HP : HonestStore P) (HS : HonestSource S) (p : OramParams) :
    (∀ {f : Nat → Bytes} {metaStore : M} {payloadStore : P} {source : S} {nm szm np szp : Nat} {cm cp : Nat → Bytes}
        {seed simSeed : FixedBytes 32} {s : CircuitOram M P ρ} {sim : CircuitStressSim},
      HM.Holds nm szm cm metaStore → HP.Holds np szp cp payloadStore → HS.Serves f source →
      p.logicalBlocks ≤ emptyBlock.toNat →
      CircuitOram.buildTrustedFromSource p metaStore payloadStore source seed = .ok s →
      CircuitStressSim.new (ρ := σ) p simSeed = .ok sim → sim.positionMap = s.posMap →
      sim.Shape p ∧ ∃ tree, StoredTree HM HP p s tree ∧ OnPath p tree ∧ SamePlacement p sim.toSimTree tree s.stash) ∧
    ∀ {nodes : List Nat} {tree₀ : Nat → List OramBlock} {o : Overlaid ρ} {b : Blocks ρ} {sim : CircuitStressSim}
        {leaf : UInt32}, Tracks p nodes tree₀ o b → sim.Shape p → SamePlacement p sim.toSimTree b.tree b.stash →
      leaf.toNat < p.leaves → (∀ i ∈ p.pathNodes leaf, i ∈ nodes) →
      ∃ sim', sim.evictPath leaf = (.ok (), sim') ∧
        (sim'.stash.length ≤ p.stashCapacity → ∃ o' b',
          Overlaid.evictPathInOverlays (p.pathNodes leaf) o = (.ok (), o') ∧ Tracks p nodes tree₀ o' b' ∧
          (p.pathNodes leaf).map (fun i => (b'.tree i).countP (·.occupied))
            = (p.pathNodes leaf).map (fun i => (sim'.bucket i).countP (· ≠ emptyBlock)) ∧
          b'.stash.countP (·.occupied) = sim'.stash.length) ∧
        (p.stashCapacity < sim'.stash.length → (Overlaid.evictPathInOverlays (p.pathNodes leaf) o).1
          = .error (.stashOverflow sim'.stash.length p.stashCapacity)) ∧
        (Sound p b → sim'.stash.length ≤ p.stashCapacity) := by
  constructor
  · intro f metaStore payloadStore source nm szm np szp cm cp seed simSeed s sim hm hp hsrc hsmall hbuild hnew hmaps
    obtain ⟨b, hrel, hinv, hshape, hsame⟩ := initial_agrees HM HP HS hm hp hsrc hsmall hbuild hnew hmaps
    have hstash : s.stash = b.stash := congrArg Controller.stash hrel.controller
    exact ⟨hshape, b.tree, hrel.stored, hinv.onPath, hstash ▸ hsame⟩
  · intro nodes tree₀ o b sim leaf ht hshape hsame hleaf hnodes
    obtain ⟨sim', hrun, hok, hover, hsound⟩ := evictPath_agrees hshape ht.shape hsame hleaf
    obtain ⟨hresult, hafter⟩ := Tracks.evict hnodes (p.pathNodes_lt hleaf) (p.pathNodes_length leaf) o b ht
    refine ⟨sim', hrun, fun hle => ?_, fun hgt => ?_, fun hb => ?_⟩
    · obtain ⟨b', hevict, hcounts, hstash⟩ := hok hle
      rw [hevict] at hresult hafter
      exact ⟨_, b', Prod.ext hresult rfl, hafter, hcounts, hstash⟩
    · rw [hresult, hover hgt]
    · calc sim'.stash.length ≤ b.stash.countP (·.occupied) := hsound hb
        _ ≤ b.stash.length := List.countP_le_length
        _ = p.stashCapacity := ht.shape.controller.stash

/-! ## A small simulator -/

/-- The first words of the same generator, seeded with zeros. -/
structure ZeroSeedWords where
  words : List UInt32
  deriving DecidableEq

instance : SimRng ZeroSeedWords where
  fromSeed _ := { words := [0xade0b876, 0x903df1a0, 0xe56a5d40, 0x28bd8653] }
  nextU64 rng :=
    (UInt64.ofNat ((rng.words.drop 1).headD 0).toNat <<< 32 ||| UInt64.ofNat (rng.words.headD 0).toNat,
      { words := rng.words.drop 2 })
  nextU32 rng := (rng.words.headD 0, { words := rng.words.tail })

def smallSim : CircuitStressSim :=
  (CircuitStressSim.new (ρ := ZeroSeedWords) smallParams (FixedBytes.zero 32)).toOption.get (by decide +kernel)

theorem tracks_oram_small :
    (∃ tree, StoredTree MemPageStore.honest MemPageStore.honest smallParams smallOram tree ∧
      SamePlacement smallParams smallSim.toSimTree tree smallOram.stash) ∧
    ∃ o o' b b' sim', Tracks (ρ := ZeroSeedRng) smallParams (smallParams.pathNodes 1) b.tree o b ∧
      SamePlacement smallParams smallSim.toSimTree b.tree b.stash ∧ smallSim.evictPath 1 = (.ok (), sim') ∧
      Overlaid.evictPathInOverlays (smallParams.pathNodes 1) o = (.ok (), o') ∧
      Tracks smallParams (smallParams.pathNodes 1) b.tree o' b' ∧
      (smallParams.pathNodes 1).map (fun i => (b'.tree i).countP (·.occupied))
        = (smallParams.pathNodes 1).map (fun i => (sim'.bucket i).countP (· ≠ emptyBlock)) ∧
      b'.stash.countP (·.occupied) = sim'.stash.length := by
  have hbuild : CircuitOram.buildTrustedFromSource smallParams (zeroPages 3 13 (by decide)) (zeroPages 3 1 (by decide))
      (VecBlockSource.mk [[7], [8]] 1) (FixedBytes.zero 32) = .ok smallOram := toOption_get _
  have hnew : CircuitStressSim.new (ρ := ZeroSeedWords) smallParams (FixedBytes.zero 32) = .ok smallSim := toOption_get _
  have hmaps : smallSim.positionMap = smallOram.posMap := by decide +kernel
  have hserves : VecBlockSource.honest.Serves smallMemory (VecBlockSource.mk [[7], [8]] 1) := by
    intro k x hx
    rw [smallMemory, List.getD_eq_getElem?_getD, hx]
    rfl
  have hall := @CircuitStressSim.tracks_oram MemPageStore MemPageStore VecBlockSource ZeroSeedRng ZeroSeedWords _ _ _ _ _
    MemPageStore.honest MemPageStore.honest VecBlockSource.honest smallParams
  obtain ⟨hshape, tree, hstored, -, hsame⟩ := hall.1 (MemPageStore.holds_self _) (MemPageStore.holds_self _) hserves
    (by decide) hbuild hnew hmaps
  refine ⟨⟨tree, hstored, hsame⟩, ?_⟩
  obtain ⟨b, -, hinv, -, hb⟩ := initial_agrees MemPageStore.honest MemPageStore.honest VecBlockSource.honest
    (MemPageStore.holds_self _) (MemPageStore.holds_self _) hserves (by decide) hbuild hnew hmaps
  have hleaf : (1 : UInt32).toNat < smallParams.leaves := by decide
  obtain ⟨overlays, ht⟩ := hinv.shape.tracked (smallParams.pathNodes_lt hleaf)
  rw [List.flatten_singleton] at ht
  obtain ⟨sim', hrun, hok, -, hfits⟩ := hall.2 ht hshape hb hleaf fun i hi => hi
  obtain ⟨o', b', hevict, ht', hcounts, hstash⟩ := hok (hfits hinv.sound)
  exact ⟨_, o', b, b', sim', ht, hb, hrun, hevict, ht', hcounts, hstash⟩

end BpirOram
