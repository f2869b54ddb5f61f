/-
  BpirOram.Circuit.BuildSpec — a build that succeeds holds every block of its source once.
-/

import BpirOram.Circuit.Build
import BpirOram.Circuit.Invariant
import BpirOram.Circuit.Refine

namespace BpirOram

open Lib

variable {p : OramParams}

/-- A source that, when it answers, answers with the blocks `f`. -/
structure HonestSource (S : Type) [TrustedBlockSource S] where
  Serves : (Nat → Bytes) → S → Prop
  readBlock {f s k x t} : Serves f s → TrustedBlockSource.readBlock k s = (.ok x, t) → x = f k ∧ Serves f t

def VecBlockSource.honest : HonestSource VecBlockSource where
  Serves f s := ∀ k x, s.blocks[k]? = some x → x = f k
  readBlock {f s k x t} h hrun := by
    simp only [TrustedBlockSource.readBlock, Eff.get_bind, Eff.lift_apply, Prod.mk.injEq] at hrun
    obtain ⟨hx, rfl⟩ := hrun
    cases hb : s.blocks[k]? with
    | none => rw [hb] at hx; cases hx
    | some y =>
      rw [hb] at hx
      cases hx
      exact ⟨h k _ hb, h⟩

/-! ## The plan as a tree of blocks -/

/-- The block a planned slot stands for. -/
def blockOfSlot (f : Nat → Bytes) (blockSize : Nat) (slot : CircuitMetaSlot) : OramBlock :=
  if slot.occupied then
    { occupied := true, logicalId := slot.logicalId, leaf := slot.leaf, payload := f slot.logicalId.toNat }
  else .dummy blockSize

@[simp] theorem blockOfSlot_occupied (f : Nat → Bytes) (n : Nat) (slot : CircuitMetaSlot) :
    (blockOfSlot f n slot).occupied = slot.occupied := by
  unfold blockOfSlot
  split
  · exact (by assumption : slot.occupied = true).symm
  · simp only [OramBlock.dummy_occupied]
    exact (Bool.eq_false_iff.mpr (by assumption)).symm

def planTree (p : OramParams) (f : Nat → Bytes) (metaBuckets : List CircuitMetaBucket) : Nat → List OramBlock :=
  fun i => ((metaBuckets[i]?).elim [] CircuitMetaBucket.slots).map (blockOfSlot f p.blockSize)

/-- A planned bucket: all its slots, the free ones dummies. -/
structure PlannedBucket (p : OramParams) (bucket : CircuitMetaBucket) : Prop where
  slots : bucket.slots.length = p.bucketSize
  free : ∀ slot ∈ bucket.slots, slot.occupied = false → slot = .dummy

def stashBlock (f : Nat → Bytes) (x : Nat × UInt32) : OramBlock :=
  { occupied := true, logicalId := UInt64.ofNat x.1, leaf := x.2, payload := f x.1 }

/-- What the placement loop keeps, `k` ids in. -/
structure Planned {ρ : Type} (p : OramParams) (f : Nat → Bytes) (k : Nat) (plan : InitialPlacement ρ) : Prop where
  buckets : plan.metaBuckets.length = p.bucketCount
  bucket : ∀ bucket ∈ plan.metaBuckets, PlannedBucket p bucket
  posMap : plan.posMap.length = p.logicalBlocks
  leaves : ∀ leaf ∈ plan.posMap, leaf.toNat < p.leaves
  blocks : treeBlocks p (planTree p f plan.metaBuckets) + ↑(plan.initialStashIds.map (stashBlock f))
    = (Multiset.range k).map (blockOf plan.posMap f)
  onPath : OnPath p (planTree p f plan.metaBuckets)

theorem placeInitialSlot_eq (f : Nat → Bytes) (n : Nat) {slot : CircuitMetaSlot} {slots slots' : List CircuitMetaSlot}
    (h : placeInitialSlot slot slots = some slots') :
    insertFirst (blockOfSlot f n slot) (slots.map (blockOfSlot f n)) = some (slots'.map (blockOfSlot f n)) ∧
      slots'.length = slots.length ∧ ∀ x ∈ slots', x = slot ∨ x ∈ slots := by
  induction slots generalizing slots' with
  | nil => cases h
  | cons old slots ih =>
    rw [placeInitialSlot] at h
    rw [List.map_cons, insertFirst, blockOfSlot_occupied]
    cases ho : old.occupied
    · rw [ho] at h
      cases h
      exact ⟨rfl, rfl, fun x hx => by
        rcases List.mem_cons.mp hx with rfl | hx
        · exact .inl rfl
        · exact .inr (by simp [hx])⟩
    · rw [ho] at h
      obtain ⟨rest, hr, rfl⟩ := Option.map_eq_some_iff.mp h
      obtain ⟨h1, h2, h3⟩ := ih hr
      refine ⟨by rw [if_pos rfl, h1]; rfl, by simp [h2], fun x hx => ?_⟩
      rcases List.mem_cons.mp hx with rfl | hx
      · exact .inr (by simp)
      · exact (h3 x hx).imp_right fun h => by simp [h]

theorem placeInitialAlong_some {slot : CircuitMetaSlot} {path : List Nat} {metaBuckets metaBuckets' : List CircuitMetaBucket}
    (h : placeInitialAlong slot path metaBuckets = some metaBuckets') :
    ∃ node ∈ path, ∃ bucket slots, metaBuckets[node]? = some bucket ∧ placeInitialSlot slot bucket.slots = some slots ∧
      metaBuckets' = metaBuckets.set node { slots } := by
  induction path with
  | nil => cases h
  | cons node path ih =>
    rw [placeInitialAlong] at h
    split at h
    · rename_i slots hs
      cases h
      obtain ⟨bucket, hb, hs⟩ := Option.bind_eq_some_iff.mp hs
      exact ⟨node, by simp, bucket, slots, hb, hs, rfl⟩
    · obtain ⟨node', hm, hrest⟩ := ih h
      exact ⟨node', by simp [hm], hrest⟩

theorem planTree_set (f : Nat → Bytes) {metaBuckets : List CircuitMetaBucket} {node : Nat} (hn : node < metaBuckets.length)
    (slots : List CircuitMetaSlot) :
    planTree p f (metaBuckets.set node { slots })
      = Function.update (planTree p f metaBuckets) node (slots.map (blockOfSlot f p.blockSize)) := by
  funext i
  by_cases hi : i = node
  · subst hi
    simp [planTree, hn]
  · rw [Function.update_of_ne hi, planTree, planTree, List.getElem?_set_ne (Ne.symm hi)]

theorem blockOf_set (posMap : List UInt32) (f : Nat → Bytes) {k : Nat} (hk : k < posMap.length) (leaf : UInt32) :
    (Multiset.range (k + 1)).map (blockOf (posMap.set k leaf) f)
      = (Multiset.range k).map (blockOf posMap f) + {stashBlock f (k, leaf)} := by
  rw [Multiset.range_succ, Multiset.map_cons, ← Multiset.singleton_add, add_comm]
  congr 1
  · refine Multiset.map_congr rfl fun j hj => ?_
    have := Multiset.mem_range.mp hj
    simp only [blockOf, List.getD_eq_getElem?_getD, List.getElem?_set_ne (show k ≠ j by omega)]
  · simp only [blockOf, stashBlock, List.getD_eq_getElem?_getD, List.getElem?_set_self hk, Option.getD_some]

section
variable {ρ : Type}

theorem Planned.place {f : Nat → Bytes} {k : Nat} {plan : InitialPlacement ρ} (h : Planned p f k plan)
    (hk : k < p.logicalBlocks) {leaf : UInt32} (hleaf : leaf.toNat < p.leaves) (rng : ρ)
    {metaBuckets : List CircuitMetaBucket}
    (hp : placeInitialMeta p plan.metaBuckets (UInt64.ofNat k) leaf = some metaBuckets) :
    Planned p f (k + 1) { plan with rng, posMap := plan.posMap.set k leaf, metaBuckets } := by
  obtain ⟨node, hm, bucket, slots, hb, hs, rfl⟩ := placeInitialAlong_some hp
  have hm := List.mem_reverse.mp hm
  obtain ⟨hn, hbe⟩ := List.getElem?_eq_some_iff.mp hb
  have hbm : bucket ∈ plan.metaBuckets := List.mem_of_getElem? hb
  obtain ⟨hins, hlen, hmem⟩ := placeInitialSlot_eq f p.blockSize hs
  have hslot : blockOfSlot f p.blockSize (.real (UInt64.ofNat k) leaf) = stashBlock f (k, leaf) := by
    simp only [blockOfSlot, CircuitMetaSlot.real, stashBlock, toNat_ofNat (hk.trans p.logicalBlocks_lt), if_pos]
  rw [hslot] at hins
  have hlt : node < p.bucketCount := by rw [← h.buckets]; exact hn
  have htree : planTree p f plan.metaBuckets node = bucket.slots.map (blockOfSlot f p.blockSize) := by
    simp only [planTree, hb, Option.elim_some]
  refine
    { buckets := by simpa using h.buckets
      bucket := ?_
      posMap := by simpa using h.posMap
      leaves := ?_
      blocks := ?_
      onPath := ?_ }
  · intro b' hb'
    rcases List.mem_or_eq_of_mem_set hb' with hb' | rfl
    · exact h.bucket b' hb'
    · refine ⟨by rw [hlen]; exact (h.bucket _ hbm).slots, fun slot hx ho => ?_⟩
      rcases hmem slot hx with rfl | hx
      · cases ho
      · exact (h.bucket _ hbm).free slot hx ho
  · intro l hl
    rcases List.mem_or_eq_of_mem_set hl with hl | rfl
    · exact h.leaves l hl
    · exact hleaf
  · have hg := gather_update hlt (fun i => occ (planTree p f plan.metaBuckets i)) (occ (slots.map (blockOfSlot f p.blockSize)))
    rw [occ_insertFirst rfl hins, htree, add_comm (occ _) {_}, ← add_assoc, add_left_inj] at hg
    have hupd : (fun i => occ (planTree p f (plan.metaBuckets.set node { slots }) i))
        = Function.update (fun i => occ (planTree p f plan.metaBuckets i)) node ({stashBlock f (k, leaf)}
          + occ (bucket.slots.map (blockOfSlot f p.blockSize))) := by
      funext i
      rw [planTree_set f hn]
      by_cases hi : i = node
      · subst hi
        rw [Function.update_self, Function.update_self, occ_insertFirst rfl hins, add_comm]
      · rw [Function.update_of_ne hi, Function.update_of_ne hi]
    rw [treeBlocks, hupd, hg, blockOf_set _ _ (by rw [h.posMap]; exact hk), ← h.blocks, treeBlocks, add_right_comm]
  · intro i hi x hx ho
    simp only [planTree_set f hn] at hx
    by_cases hin : i = node
    · subst hin
      rw [Function.update_self] at hx
      rcases insertFirst_mem hins hx with rfl | hx
      · exact hm
      · exact h.onPath i hi x (htree ▸ hx) ho
    · rw [Function.update_of_ne hin] at hx
      exact h.onPath i hi x hx ho

theorem Planned.toStash {f : Nat → Bytes} {k : Nat} {plan : InitialPlacement ρ} (h : Planned p f k plan)
    (hk : k < p.logicalBlocks) {leaf : UInt32} (hleaf : leaf.toNat < p.leaves) (rng : ρ) :
    Planned p f (k + 1)
      { plan with rng, posMap := plan.posMap.set k leaf, initialStashIds := plan.initialStashIds ++ [(k, leaf)] } :=
  { h with
    posMap := by simpa using h.posMap
    leaves := by
      intro l hl
      rcases List.mem_or_eq_of_mem_set hl with hl | rfl
      · exact h.leaves l hl
      · exact hleaf
    blocks := by
      rw [blockOf_set _ _ (by rw [h.posMap]; exact hk), ← h.blocks, List.map_append, ← Multiset.coe_add, ← add_assoc]
      rfl }

theorem planned_start (p : OramParams) (f : Nat → Bytes) (rng : ρ) : Planned p f 0 (initialPlacement p rng) := by
  have hempty : ∀ i, occ (planTree p f (initialPlacement p rng).metaBuckets i) = 0 := by
    intro i
    have hd : ∀ n, occ (List.map (blockOfSlot f p.blockSize) (List.replicate n CircuitMetaSlot.dummy)) = 0 := by
      intro n
      rw [List.map_replicate, occ, List.filter_replicate]
      simp [blockOfSlot, CircuitMetaSlot.dummy]
    simp only [planTree, initialPlacement, List.getElem?_replicate]
    split
    · exact hd p.bucketSize
    · rfl
  refine
    { buckets := by simp [initialPlacement]
      bucket := ?_
      posMap := by simp [initialPlacement]
      leaves := ?_
      blocks := ?_
      onPath := ?_ }
  · intro bucket hb
    obtain rfl := (List.mem_replicate.mp hb).2
    exact ⟨by simp [CircuitMetaBucket.dummy], fun slot hs _ => (List.mem_replicate.mp hs).2⟩
  · intro leaf hl
    obtain rfl := (List.mem_replicate.mp hl).2
    have := p.leaves_ge
    simp only [UInt32.toNat_zero]
    omega
  · rw [treeBlocks, gather_congr (g := fun _ => 0) fun i _ => hempty i]
    simp [gather, initialPlacement]
  · intro i hi x hx ho
    have hm : x ∈ occ (planTree p f (initialPlacement p rng).metaBuckets i) := mem_occ.mpr ⟨hx, ho⟩
    rw [hempty] at hm
    simp at hm

end

/-- The placement loop. -/
theorem placeInitial_ok {ρ : Type} [Rng ρ] {f : Nat → Bytes} {n k : Nat} {plan plan' : InitialPlacement ρ}
    (h : Planned p f k plan) (hn : k + n = p.logicalBlocks) (hrun : placeInitial p (List.range' k n) plan = .ok plan') :
    Planned p f p.logicalBlocks plan' := by
  induction n generalizing k plan with
  | zero =>
    cases hrun
    obtain rfl : k = p.logicalBlocks := by omega
    exact h
  | succ n ih =>
    have hleaf := randomLeaf_lt p plan.rng
    rw [List.range'_succ, placeInitial] at hrun
    simp only at hrun
    split at hrun
    · rename_i metaBuckets hp
      exact ih (h.place (by omega) hleaf (randomLeaf p plan.rng).2 hp) (by omega) hrun
    · split at hrun
      · cases hrun
      · exact ih (h.toStash (by omega) hleaf (randomLeaf p plan.rng).2) (by omega) hrun

/-! ## The pages written -/

section
variable {M P S : Type} [PageStore M] [PageStore P] [TrustedBlockSource S] {f : Nat → Bytes}

theorem planTree_bucket {metaBuckets : List CircuitMetaBucket} {i : Nat} {bucket : CircuitMetaBucket}
    (h : metaBuckets[i]? = some bucket) : planTree p f metaBuckets i = bucket.slots.map (blockOfSlot f p.blockSize) := by
  simp only [planTree, h, Option.elim_some]

/-- A planned bucket and the blocks of its slots have the same metadata page. -/
theorem encode_planned {bucket : CircuitMetaBucket} (h : PlannedBucket p bucket) :
    CircuitMetaBucket.encodeInto bucket p.bucketSize (circuitMetaPageBytes p.bucketSize)
      = .ok (metaPage (bucket.slots.map (blockOfSlot f p.blockSize))) := by
  have hs : (bucket.slots.map (blockOfSlot f p.blockSize)).map (·.metaSlot) = bucket.slots := by
    rw [List.map_map]
    refine (List.map_congr_left fun slot hs => ?_).trans (List.map_id _)
    simp only [Function.comp_apply, blockOfSlot, id]
    cases ho : slot.occupied
    · rw [if_neg (by simp), OramBlock.metaSlot_dummy, h.free slot hs ho]
    · rw [if_pos rfl, OramBlock.metaSlot, ← ho]
  have he := encode_metaSlots (show (bucket.slots.map (blockOfSlot f p.blockSize)).length = p.bucketSize by
    rw [List.length_map, h.slots])
  rw [hs] at he
  exact he

/-- Writing page after page, from index `k` on. -/
theorem writeMetadataLoop_ok (HM : HonestStore M) {n sz : Nat} (hsz : sz = circuitMetaPageBytes p.bucketSize)
    {l : List CircuitMetaBucket} (hb : ∀ bucket ∈ l, PlannedBucket p bucket) {k : Nat} (hk : k + l.length ≤ n)
    {c : Nat → Bytes} {s : M} (hs : HM.Holds n sz c s) :
    ∃ us t, Eff.forEach (fun ((bucket : CircuitMetaBucket), nodeIdx) =>
        Eff.lift (CircuitMetaBucket.encodeInto bucket p.bucketSize (circuitMetaPageBytes p.bucketSize)) >>= fun encoded =>
        PageStore.writePage nodeIdx encoded) (l.zipIdx k) s = (.ok us, t) ∧
      ∃ d, HM.Holds n sz d t ∧ (∀ i < k, d i = c i) ∧
        ∀ j bucket, l[j]? = some bucket → d (k + j) = metaPage (bucket.slots.map (blockOfSlot f p.blockSize)) := by
  induction l generalizing k c s with
  | nil => exact ⟨[], s, rfl, c, hs, fun i _ => rfl, fun j b hj => by simp at hj⟩
  | cons bucket l ih =>
    rw [List.length_cons] at hk
    have hbk := hb bucket (by simp)
    have hbl : (bucket.slots.map (blockOfSlot f p.blockSize)).length = p.bucketSize := by rw [List.length_map, hbk.slots]
    obtain ⟨t, ht, hh⟩ := HM.writePage hs (show k < n by omega) ((metaPage_length hbl).trans hsz.symm)
    obtain ⟨us, u, hu, d, hd, hlow, hhigh⟩ := ih (fun x hx => hb x (by simp [hx])) (k := k + 1) (by omega) hh
    refine ⟨() :: us, u, ?_, d, hd, fun i hi => ?_, fun j b hj => ?_⟩
    · rw [List.zipIdx_cons]
      refine Eff.forEach_ok ?_ hu
      simp only [encode_planned (f := f) hbk, Eff.lift_ok_bind]
      exact ht
    · rw [hlow i (by omega), Function.update_of_ne (by omega)]
    · cases j with
      | zero =>
        cases hj
        rw [Nat.add_zero, hlow k (by omega), Function.update_self]
      | succ j =>
        rw [show k + (j + 1) = k + 1 + j by omega]
        exact hhigh j b hj

theorem writeInitialMetadata_ok (HM : HonestStore M) {n sz : Nat} {c : Nat → Bytes} {s t : M} (hs : HM.Holds n sz c s)
    (hn : n = p.bucketCount) (hsz : sz = circuitMetaPageBytes p.bucketSize) {metaBuckets : List CircuitMetaBucket}
    (hb : ∀ bucket ∈ metaBuckets, PlannedBucket p bucket)
    (hrun : writeInitialMetadata p metaBuckets s = (.ok (), t)) :
    ∃ d, HM.Holds n sz d t ∧ ∀ i < n, d i = metaPage (planTree p f metaBuckets i) := by
  rw [writeInitialMetadata] at hrun
  by_cases hlen : metaBuckets.length = p.bucketCount
  · rw [if_neg (by simpa using hlen)] at hrun
    obtain ⟨us, t', hok, d, hd, -, hpages⟩ := writeMetadataLoop_ok (f := f) HM hsz hb (k := 0) (by omega) hs
    rw [Eff.bind_ok hok] at hrun
    cases hrun
    refine ⟨d, hd, fun i hi => ?_⟩
    have hi' : i < metaBuckets.length := by omega
    have hp := hpages i _ (List.getElem?_eq_getElem hi')
    rw [Nat.zero_add] at hp
    rw [hp, planTree_bucket (List.getElem?_eq_getElem hi')]
  · rw [if_pos (by simpa using hlen)] at hrun
    cases hrun

theorem readSourceBlock_ok (HS : HonestSource S) {s t : S} (hs : HS.Serves f s) {k : Nat} {x : Bytes}
    (hrun : readSourceBlock p k s = (.ok x, t)) : x = f k ∧ (f k).length = p.blockSize ∧ HS.Serves f t := by
  obtain ⟨y, u, h1, h2⟩ := Eff.bind_eq_ok hrun
  obtain ⟨rfl, hu⟩ := HS.readBlock hs h1
  rw [Eff.ite_apply] at h2
  split at h2
  · cases h2
  · rename_i hlen
    cases h2
    exact ⟨rfl, by simpa using hlen, hu⟩

/-- The payloads the source owes a bucket have the right length. -/
def Sized (p : OramParams) (f : Nat → Bytes) (bucket : CircuitMetaBucket) : Prop :=
  ∀ slot ∈ bucket.slots, slot.occupied = true → (f slot.logicalId.toNat).length = p.blockSize

theorem initialPayloadPage_ok (HS : HonestSource S) {s t : S} (hs : HS.Serves f s) {bucket : CircuitMetaBucket} {page : Bytes}
    (hrun : initialPayloadPage p bucket s = (.ok page, t)) :
    page = payloadPage (bucket.slots.map (blockOfSlot f p.blockSize)) ∧ Sized p f bucket ∧ HS.Serves f t := by
  obtain ⟨ranges, u, hloop, hlast⟩ := Eff.bind_eq_ok hrun
  cases hlast
  obtain ⟨hall, ht⟩ := Eff.forEach_eq_ok (P := HS.Serves f)
    (Q := fun (slot : CircuitMetaSlot) range => range = (blockOfSlot f p.blockSize slot).payload ∧
      (slot.occupied = true → (f slot.logicalId.toNat).length = p.blockSize))
    (fun slot _ s b t hs hb => by
      rw [Eff.ite_apply] at hb
      split at hb
      · rename_i ho
        obtain ⟨h1, h2, h3⟩ := readSourceBlock_ok HS hs hb
        exact ⟨⟨by rw [blockOfSlot, if_pos ho, h1], fun _ => h2⟩, h3⟩
      · rename_i ho
        cases hb
        exact ⟨⟨by rw [blockOfSlot, if_neg ho, OramBlock.dummy], fun h => absurd h ho⟩, hs⟩) hs hloop
  refine ⟨?_, fun slot hm ho => ?_, ht⟩
  · rw [payloadPage, List.map_map]
    congr 1
    clear * - hall
    generalize bucket.slots = slots at hall
    induction hall with
    | nil => rfl
    | cons hq _ ih => rw [hq.1, ih]; rfl
  · obtain ⟨i, hi, rfl⟩ := List.getElem_of_mem hm
    have hg := List.forall₂_iff_get.mp hall
    exact (hg.2 i hi (hg.1 ▸ hi)).2 ho

theorem writePayloadsLoop_ok (HP : HonestStore P) (HS : HonestSource S) {n sz : Nat}
    (hsz : sz = circuitPayloadPageBytes p.bucketSize p.blockSize) {l : List CircuitMetaBucket}
    (hb : ∀ bucket ∈ l, PlannedBucket p bucket) {k : Nat} (hk : k + l.length ≤ n) {c : Nat → Bytes} {s t : P × S}
    {us : List Unit} (hs : HP.Holds n sz c s.1) (hsrc : HS.Serves f s.2)
    (hrun : Eff.forEach (fun ((bucket : CircuitMetaBucket), nodeIdx) =>
        Eff.zoom Prod.snd (fun source s => (s.1, source)) (initialPayloadPage p bucket) >>= fun encoded =>
        Eff.zoom Prod.fst (fun payloadStore s => (payloadStore, s.2)) (PageStore.writePage nodeIdx encoded))
      (l.zipIdx k) s = (.ok us, t)) :
    HS.Serves f t.2 ∧ (∀ bucket ∈ l, Sized p f bucket) ∧
      ∃ d, HP.Holds n sz d t.1 ∧ (∀ i < k, d i = c i) ∧
        ∀ j bucket, l[j]? = some bucket → d (k + j) = payloadPage (bucket.slots.map (blockOfSlot f p.blockSize)) := by
  induction l generalizing k c s us with
  | nil =>
    cases hrun
    exact ⟨hsrc, (fun b hb => by cases hb), c, hs, (fun i _ => rfl), (fun j b hj => by simp at hj)⟩
  | cons bucket l ih =>
    rw [List.length_cons] at hk
    rw [List.zipIdx_cons] at hrun
    obtain ⟨u, s₂, h1, hrest⟩ := Eff.bind_eq_ok hrun
    obtain ⟨us', t', h2, hlast⟩ := Eff.bind_eq_ok hrest
    cases hlast
    obtain ⟨page, s₁, hpage, hwrite⟩ := Eff.bind_eq_ok h1
    simp only [Eff.zoom, Prod.mk.injEq] at hpage hwrite
    obtain ⟨hpage, rfl⟩ := hpage
    obtain ⟨rfl, hsized, hsrc₁⟩ := initialPayloadPage_ok HS hsrc (Prod.ext hpage rfl)
    have hshape : BucketShape p.bucketSize p.blockSize (bucket.slots.map (blockOfSlot f p.blockSize)) := by
      refine ⟨by rw [List.length_map, (hb bucket (by simp)).slots], fun x hx => ?_⟩
      obtain ⟨slot, hm, rfl⟩ := List.mem_map.mp hx
      unfold blockOfSlot
      split
      · exact hsized slot hm (by assumption)
      · exact OramBlock.dummy_payload_length _
    obtain ⟨t₁, ht₁, hh⟩ := HP.writePage hs (show k < n by omega) ((payloadPage_length hshape).trans hsz.symm)
    rw [ht₁] at hwrite
    obtain ⟨-, rfl⟩ := hwrite
    obtain ⟨hsrc', hall, d, hd, hlow, hhigh⟩ := ih (fun x hx => hb x (by simp [hx])) (k := k + 1) (by omega) hh hsrc₁ h2
    refine ⟨hsrc', fun x hx => ?_, d, hd, fun i hi => ?_, fun j b hj => ?_⟩
    · rcases List.mem_cons.mp hx with rfl | hx
      · exact hsized
      · exact hall x hx
    · rw [hlow i (by omega), Function.update_of_ne (by omega)]
    · cases j with
      | zero =>
        cases hj
        rw [Nat.add_zero, hlow k (by omega), Function.update_self]
      | succ j =>
        rw [show k + (j + 1) = k + 1 + j by omega]
        exact hhigh j b hj

theorem writeInitialPayloads_ok (HP : HonestStore P) (HS : HonestSource S) {n sz : Nat} {c : Nat → Bytes} {s : P × S}
    {t : P × S} (hs : HP.Holds n sz c s.1) (hsrc : HS.Serves f s.2) (hn : n = p.bucketCount)
    (hsz : sz = circuitPayloadPageBytes p.bucketSize p.blockSize) {metaBuckets : List CircuitMetaBucket}
    (hb : ∀ bucket ∈ metaBuckets, PlannedBucket p bucket)
    (hrun : writeInitialPayloads p metaBuckets s = (.ok (), t)) :
    HS.Serves f t.2 ∧ (∀ bucket ∈ metaBuckets, Sized p f bucket) ∧
      ∃ d, HP.Holds n sz d t.1 ∧ ∀ i < n, d i = payloadPage (planTree p f metaBuckets i) := by
  rw [writeInitialPayloads] at hrun
  by_cases hlen : metaBuckets.length = p.bucketCount
  · rw [if_neg (by simpa using hlen)] at hrun
    obtain ⟨us, t', hok, hlast⟩ := Eff.bind_eq_ok hrun
    cases hlast
    obtain ⟨h1, h2, d, hd, -, hpages⟩ := writePayloadsLoop_ok HP HS hsz hb (k := 0) (by omega) hs hsrc hok
    refine ⟨h1, h2, d, hd, fun i hi => ?_⟩
    have hi' : i < metaBuckets.length := by omega
    have hp := hpages i _ (List.getElem?_eq_getElem hi')
    rw [Nat.zero_add] at hp
    rw [hp, planTree_bucket (List.getElem?_eq_getElem hi')]
  · rw [if_pos (by simpa using hlen)] at hrun
    cases hrun

theorem initialStash_ok (HS : HonestSource S) {s t : S} (hs : HS.Serves f s) {ids : List (Nat × UInt32)}
    {stash : List OramBlock} (hrun : initialStash p ids s = (.ok stash, t)) :
    stash = ids.map (stashBlock f) ∧ ∀ x ∈ stash, x.payload.length = p.blockSize := by
  obtain ⟨hall, -⟩ := Eff.forEach_eq_ok (P := HS.Serves f)
    (Q := fun (x : Nat × UInt32) b => b = stashBlock f x ∧ b.payload.length = p.blockSize)
    (fun x _ s b t hs hb => by
      obtain ⟨payload, u, h1, h2⟩ := Eff.bind_eq_ok hb
      obtain ⟨rfl, hlen, hu⟩ := readSourceBlock_ok HS hs h1
      simp only [Eff.lift_apply, OramBlock.real, hlen, ne_eq, not_true_eq_false, if_false, Prod.mk.injEq, Except.ok.injEq] at h2
      obtain ⟨rfl, rfl⟩ := h2
      exact ⟨⟨rfl, hlen⟩, hu⟩) hs hrun
  clear hrun hs
  induction hall with
  | nil => exact ⟨rfl, fun x hx => by cases hx⟩
  | cons hq _ ih =>
    obtain ⟨ih1, ih2⟩ := ih
    refine ⟨by rw [List.map_cons, hq.1, ← ih1], fun x hx => ?_⟩
    rcases List.mem_cons.mp hx with rfl | hx
    · exact hq.2
    · exact ih2 x hx

theorem runOwned_ok {σ α : Type} {m : Eff Error σ α} {s : σ} {r : α × σ} (h : runOwned m s = .ok r) :
    m s = (.ok r.1, r.2) := by
  rcases hm : m s with ⟨_ | a, t⟩
  · simp only [runOwned, hm] at h
    cases h
  · simp only [runOwned, hm] at h
    cases h
    rfl

/-! ## The build -/

/-- A build that succeeds, over honest stores and from a source that serves the blocks `f`:
    the stores hold the planned tree, the stash the blocks that found no place in it. -/
theorem buildTrustedFromSource_plan {ρ : Type} [Rng ρ] (HM : HonestStore M) (HP : HonestStore P) (HS : HonestSource S)
    {metaStore : M} {payloadStore : P} {source : S} {nm szm np szp : Nat} {cm cp : Nat → Bytes}
    (hm : HM.Holds nm szm cm metaStore) (hp : HP.Holds np szp cp payloadStore) (hsrc : HS.Serves f source)
    {seed : FixedBytes 32} {s : CircuitOram M P ρ}
    (h : CircuitOram.buildTrustedFromSource p metaStore payloadStore source seed = .ok s) :
    ∃ (plan : InitialPlacement ρ) (b : Blocks ρ),
      placeInitial p (List.range p.logicalBlocks) (initialPlacement p (Rng.fromSeed seed)) = .ok plan ∧
      Planned p f p.logicalBlocks plan ∧ b.posMap = plan.posMap ∧ b.tree = planTree p f plan.metaBuckets ∧
      occ b.stash = ↑(plan.initialStashIds.map (stashBlock f)) ∧
      Rel (HM.contract p.bucketCount (circuitMetaPageBytes p.bucketSize))
        (HP.contract p.bucketCount (circuitPayloadPageBytes p.bucketSize p.blockSize)) s b := by
  unfold CircuitOram.buildTrustedFromSource at h
  obtain ⟨⟨⟩, hstores, h⟩ := bind_result_ok h
  obtain ⟨⟨⟩, -, h⟩ := bind_result_ok h
  obtain ⟨plan, hplace, h⟩ := bind_result_ok h
  obtain ⟨⟨⟨⟩, metaStore'⟩, hmeta, h⟩ := bind_result_ok h
  obtain ⟨⟨⟨⟩, payloadStore', source'⟩, hpay, h⟩ := bind_result_ok h
  obtain ⟨⟨stash, source''⟩, hstash, h⟩ := bind_result_ok h
  obtain ⟨hnm, hszm, hnp, hszp⟩ := validateCircuitStores_ok hstores
  have hnm := (HM.pageCount_eq hm).symm.trans hnm
  have hszm := (HM.pageSize_eq hm).symm.trans hszm
  have hnp := (HP.pageCount_eq hp).symm.trans hnp
  have hszp := (HP.pageSize_eq hp).symm.trans hszp
  have hpl := placeInitial_ok (planned_start p f _) (by omega) (List.range_eq_range' ▸ hplace)
  obtain ⟨dm, hdm, hdmp⟩ := writeInitialMetadata_ok HM (f := f) hm hnm hszm hpl.bucket (runOwned_ok hmeta)
  obtain ⟨hsrc', hsized, dp, hdp, hdpp⟩ :=
    writeInitialPayloads_ok HP HS hp hsrc hnp hszp hpl.bucket (runOwned_ok hpay)
  obtain ⟨rfl, hlens⟩ := initialStash_ok HS hsrc' (runOwned_ok hstash)
  obtain ⟨hlen, rfl⟩ := padAndCheck_ok h
  subst hnm hszm hnp hszp
  have hshape : Blocks.Shape p
      { params := p, posMap := plan.posMap, rng := plan.rng, schedule := CircuitEvictionSchedule.new p,
        stash := plan.initialStashIds.map (stashBlock f) ++ List.replicate (p.stashCapacity
          - (plan.initialStashIds.map (stashBlock f)).length) (.dummy p.blockSize),
        tree := planTree p f plan.metaBuckets : Blocks ρ } := by
    refine ⟨⟨rfl, hpl.posMap, hpl.leaves, ?_, ?_, rfl⟩, fun i hi => ?_⟩
    · simp only [List.length_append, List.length_replicate] at hlen ⊢
      omega
    · intro x hx
      rcases List.mem_append.mp hx with hx | hx
      · exact hlens x hx
      · rw [(List.mem_replicate.mp hx).2]
        exact OramBlock.dummy_payload_length _
    · have hi' : i < plan.metaBuckets.length := by rw [hpl.buckets]; exact hi
      change BucketShape _ _ (planTree p f plan.metaBuckets i)
      rw [planTree_bucket (List.getElem?_eq_getElem hi')]
      refine ⟨by rw [List.length_map, (hpl.bucket _ (List.getElem_mem hi')).slots], fun x hx => ?_⟩
      obtain ⟨slot, hs, rfl⟩ := List.mem_map.mp hx
      unfold blockOfSlot
      split
      · exact hsized _ (List.getElem_mem hi') slot hs (by assumption)
      · exact OramBlock.dummy_payload_length _
  have hdum : occ (List.replicate (p.stashCapacity - (plan.initialStashIds.map (stashBlock f)).length)
      (OramBlock.dummy p.blockSize)) = 0 := by
    rw [occ, List.filter_replicate]
    simp
  have hocc : occ (plan.initialStashIds.map (stashBlock f)) = ↑(plan.initialStashIds.map (stashBlock f)) := by
    rw [occ, List.filter_eq_self.mpr]
    intro x hx
    obtain ⟨y, -, rfl⟩ := List.mem_map.mp hx
    rfl
  refine ⟨plan, _, hplace, hpl, rfl, rfl, ?_,
    { controller := rfl, shape := hshape, metaRep := ⟨dm, hdm, hdmp⟩, payloadRep := ⟨dp, hdp, hdpp⟩ }⟩
  rw [occ_append, hdum, add_zero, hocc]

/-- The planned tree and stash hold the block `f k` once for every id `k`. -/
theorem Planned.inv {ρ : Type} {plan : InitialPlacement ρ} (h : Planned p f p.logicalBlocks plan) {b : Blocks ρ}
    (hb : b.Shape p) (hpos : b.posMap = plan.posMap) (htree : b.tree = planTree p f plan.metaBuckets)
    (hstash : occ b.stash = ↑(plan.initialStashIds.map (stashBlock f))) : Inv p b f where
  shape := hb
  blocks := by rw [Blocks.blocks, htree, hstash, h.blocks, allBlocks, hpos]
  onPath := htree ▸ h.onPath

/-- It holds the block `f k` once for every id `k`. -/
theorem buildTrustedFromSource_ok {ρ : Type} [Rng ρ] (HM : HonestStore M) (HP : HonestStore P) (HS : HonestSource S)
    {metaStore : M} {payloadStore : P} {source : S} {nm szm np szp : Nat} {cm cp : Nat → Bytes}
    (hm : HM.Holds nm szm cm metaStore) (hp : HP.Holds np szp cp payloadStore) (hsrc : HS.Serves f source)
    {seed : FixedBytes 32} {s : CircuitOram M P ρ}
    (h : CircuitOram.buildTrustedFromSource p metaStore payloadStore source seed = .ok s) :
    ∃ b : Blocks ρ, Rel (HM.contract p.bucketCount (circuitMetaPageBytes p.bucketSize))
      (HP.contract p.bucketCount (circuitPayloadPageBytes p.bucketSize p.blockSize)) s b ∧ Inv p b f := by
  obtain ⟨plan, b, -, hpl, hpos, htree, hstash, hr⟩ := buildTrustedFromSource_plan HM HP HS hm hp hsrc h
  exact ⟨b, hr, hpl.inv hr.shape hpos htree hstash⟩

end
end BpirOram
