/-
  BpirOram.Stress.Placed — where the blocks of a simulated tree are.

  What the buckets and the stash hold, each id under the leaf of the position map, is one
  block for each id placed so far (`Placed`), and a block in a bucket is on the path of its
  leaf. The calls of both simulators keep this:
  - `Placed.placeNext`, `Placed.access`, `Placed.refill`: an id placed, a block moved to the
    stash under a new leaf, the buckets of a part of a path emptied and filled again; the
    last leaves no more blocks in the stash than there were.
  - `Full.onceOnPath`: once every id is placed, read off the slots, the stash and the position map.
-/

import BpirOram.Lib.Gather
import BpirOram.Stress.Agree

namespace BpirOram

open Lib

variable {ρ : Type} {p : OramParams}

/-! ## One block for each id -/

/-- The blocks of a position map. -/
def expected (positionMap : List UInt32) : List SimBlock :=
  positionMap.zipIdx.map fun x => { id := UInt32.ofNat x.2, leaf := x.1 }

section
variable {pm : List UInt32} {block : SimBlock}

theorem expected_length (pm : List UInt32) : (expected pm).length = pm.length := by
  rw [expected, List.length_map, List.length_zipIdx]

theorem expected_getElem {i : Nat} (hi : i < (expected pm).length) :
    (expected pm)[i] = { id := UInt32.ofNat i, leaf := pm.getD i 0 } := by
  have hlt : i < pm.length := expected_length pm ▸ hi
  simp [expected, List.getD_eq_getElem?_getD, List.getElem?_eq_getElem hlt]

theorem ofNat_toNat {i : Nat} (h : pm.length ≤ emptyBlock.toNat) (hi : i < pm.length) : (UInt32.ofNat i).toNat = i := by
  have hmax : emptyBlock.toNat < 2 ^ 32 := UInt32.toNat_lt _
  rw [UInt32.toNat_ofNat', Nat.mod_eq_of_lt (by omega)]

theorem mem_expected (h : pm.length ≤ emptyBlock.toNat) :
    block ∈ expected pm ↔ block.id.toNat < pm.length ∧ block.leaf = pm.getD block.id.toNat 0 := by
  constructor
  · intro hb
    obtain ⟨i, hi, rfl⟩ := List.mem_iff_getElem.mp hb
    have hlt : i < pm.length := expected_length pm ▸ hi
    rw [expected_getElem hi, ofNat_toNat h hlt]
    exact ⟨hlt, rfl⟩
  · intro hb
    obtain ⟨hlt, hleaf⟩ := hb
    refine List.mem_iff_getElem.mpr ⟨block.id.toNat, by rw [expected_length]; exact hlt, ?_⟩
    rw [expected_getElem, ← hleaf]
    cases block
    simp

theorem expected_ids (pm : List UInt32) : (expected pm).map (·.id) = (List.range pm.length).map UInt32.ofNat := by
  refine List.ext_getElem (by simp [expected]) fun i hi _ => ?_
  rw [List.length_map] at hi
  simp [expected_getElem hi]

theorem expected_ids_nodup (h : pm.length ≤ emptyBlock.toNat) : ((expected pm).map (·.id)).Nodup := by
  rw [expected_ids]
  refine List.Nodup.map_on (fun i hi j hj he => ?_) List.nodup_range
  rw [← ofNat_toNat h (List.mem_range.mp hi), he, ofNat_toNat h (List.mem_range.mp hj)]

theorem expected_concat (pm : List UInt32) (leaf : UInt32) :
    expected (pm ++ [leaf]) = expected pm ++ [{ id := UInt32.ofNat pm.length, leaf }] := by
  simp [expected, List.zipIdx_append]

/-- One entry changed: one block under another leaf. -/
theorem expected_set {k : Nat} (hk : k < pm.length) (leaf : UInt32) :
    ({ id := UInt32.ofNat k, leaf := pm.getD k 0 } :: expected (pm.set k leaf)).Perm
      ({ id := UInt32.ofNat k, leaf } :: expected pm) := by
  have hset : expected (pm.set k leaf) = (expected pm).set k { id := UInt32.ofNat k, leaf } := by
    refine List.ext_getElem (by simp [expected_length]) fun i hi _ => ?_
    have hi' : i < pm.length := by rwa [expected_length, List.length_set] at hi
    rw [expected_getElem hi, List.getElem_set]
    by_cases hik : k = i
    · subst hik
      simp [hk]
    · rw [if_neg hik, expected_getElem (by rw [expected_length]; exact hi')]
      simp [List.getD_eq_getElem?_getD, List.getElem?_set_ne hik]
  have hk' : k < (expected pm).length := by rwa [expected_length]
  have hold := List.getElem_cons_eraseIdx_perm hk'
  rw [expected_getElem hk'] at hold
  rw [hset]
  refine ((List.set_perm_cons_eraseIdx hk' _).cons _).trans ((List.Perm.swap _ _ _).trans ?_)
  exact hold.cons _

end

/-! ## Ids in a bucket -/

theorem placeId_some {id : UInt32} (hid : id ≠ emptyBlock) {bucket bucket' : List UInt32}
    (h : placeId id bucket = some bucket') :
    bucket'.length = bucket.length ∧ (bucket'.filter (· ≠ emptyBlock)).Perm (id :: bucket.filter (· ≠ emptyBlock)) := by
  induction bucket generalizing bucket' with
  | nil => cases h
  | cons slot rest ih =>
    rw [placeId] at h
    by_cases hslot : slot = emptyBlock
    · rw [if_pos hslot] at h
      cases h
      rw [List.filter_cons_of_pos (by simpa using hid), List.filter_cons_of_neg (by simpa using hslot)]
      exact ⟨rfl, .refl _⟩
    · rw [if_neg hslot] at h
      obtain ⟨rest', hrest, rfl⟩ := Option.map_eq_some_iff.mp h
      obtain ⟨hlen, hperm⟩ := ih hrest
      rw [List.filter_cons_of_pos (by simpa using hslot), List.filter_cons_of_pos (by simpa using hslot)]
      exact ⟨congrArg (· + 1) hlen, (hperm.cons slot).trans (List.Perm.swap _ _ _)⟩

theorem clearId_some {id : UInt32} (hid : id ≠ emptyBlock) {bucket bucket' : List UInt32}
    (h : clearId id bucket = some bucket') :
    bucket'.length = bucket.length ∧ (bucket.filter (· ≠ emptyBlock)).Perm (id :: bucket'.filter (· ≠ emptyBlock)) := by
  induction bucket generalizing bucket' with
  | nil => cases h
  | cons slot rest ih =>
    rw [clearId] at h
    by_cases hslot : slot = id
    · rw [if_pos hslot] at h
      cases h
      rw [hslot, List.filter_cons_of_pos (by simpa using hid), List.filter_cons_of_neg (by simp)]
      exact ⟨rfl, .refl _⟩
    · rw [if_neg hslot] at h
      obtain ⟨rest', hrest, rfl⟩ := Option.map_eq_some_iff.mp h
      obtain ⟨hlen, hperm⟩ := ih hrest
      refine ⟨congrArg (· + 1) hlen, ?_⟩
      by_cases hempty : slot = emptyBlock
      · rw [List.filter_cons_of_neg (by simpa using hempty), List.filter_cons_of_neg (by simpa using hempty)]
        exact hperm
      · rw [List.filter_cons_of_pos (by simpa using hempty), List.filter_cons_of_pos (by simpa using hempty)]
        exact (hperm.cons slot).trans (List.Perm.swap _ _ _)

theorem clearId_none {id : UInt32} {bucket : List UInt32} (h : clearId id bucket = none) : id ∉ bucket := by
  induction bucket with
  | nil => simp
  | cons slot rest ih =>
    rw [clearId] at h
    by_cases hslot : slot = id
    · rw [if_pos hslot] at h
      cases h
    · rw [if_neg hslot] at h
      rw [List.mem_cons, not_or]
      exact ⟨Ne.symm hslot, ih (Option.map_eq_none_iff.mp h)⟩

namespace SimTree

/-! ## All blocks of a tree -/

/-- The blocks of the buckets and of the stash. -/
def held (p : OramParams) (s : SimTree) : Multiset SimBlock :=
  gather p.bucketCount (fun i => (↑(s.blocksAt i) : Multiset SimBlock)) + (↑s.stash : Multiset SimBlock)

structure Placed (p : OramParams) (s : SimTree) : Prop where
  shape : s.Shape p
  leaves : ∀ leaf ∈ s.positionMap, leaf.toNat < p.leaves
  held : s.held p = ↑(expected s.positionMap)
  onPath : ∀ i < p.bucketCount, ∀ block ∈ s.blocksAt i, i ∈ p.pathNodes block.leaf

theorem labelled_perm (positionMap : List UInt32) {bucket bucket' : List UInt32} {id : UInt32}
    (h : (bucket'.filter (· ≠ emptyBlock)).Perm (id :: bucket.filter (· ≠ emptyBlock))) :
    (labelled positionMap bucket').Perm ({ id, leaf := positionMap.getD id.toNat 0 } :: labelled positionMap bucket) :=
  h.map fun id : UInt32 => ({ id, leaf := positionMap.getD id.toNat 0 } : SimBlock)

/-- A bucket with another leaf map that agrees on what it holds. -/
theorem labelled_congr {pm pm' bucket : List UInt32}
    (h : ∀ id ∈ bucket, id ≠ emptyBlock → pm'.getD id.toNat 0 = pm.getD id.toNat 0) :
    labelled pm' bucket = labelled pm bucket := by
  refine List.map_congr_left fun id hid => ?_
  obtain ⟨hid, hne⟩ := List.mem_filter.mp hid
  rw [h id hid (by simpa using hne)]

section
variable {s : SimTree} {nodeIdx : Nat} {bucket : List UInt32} {stash : List SimBlock}

theorem withBucket_blocksAt (h : s.Shape p) (hn : nodeIdx < p.bucketCount) (hb : bucket.length = p.bucketSize) :
    (s.withBucket nodeIdx bucket stash).blocksAt = Function.update s.blocksAt nodeIdx (labelled s.positionMap bucket) := by
  funext i
  rw [blocksAt, withBucket_bucket stash h hn hb]
  by_cases hi : i = nodeIdx
  · subst hi
    rw [Function.update_self, Function.update_self]
    rfl
  · rw [Function.update_of_ne hi, Function.update_of_ne hi]
    rfl

theorem withBucket_held (h : s.Shape p) (hn : nodeIdx < p.bucketCount) (hb : bucket.length = p.bucketSize) :
    (s.withBucket nodeIdx bucket s.stash).held p + ↑(s.blocksAt nodeIdx) = s.held p + ↑(labelled s.positionMap bucket) := by
  have hupdate := gather_update hn (fun i => (↑(s.blocksAt i) : Multiset SimBlock)) ↑(labelled s.positionMap bucket)
  have hsame : (fun i => (↑((s.withBucket nodeIdx bucket s.stash).blocksAt i) : Multiset SimBlock))
      = Function.update (fun i => (↑(s.blocksAt i) : Multiset SimBlock)) nodeIdx ↑(labelled s.positionMap bucket) := by
    funext i
    rw [withBucket_blocksAt h hn hb]
    by_cases hi : i = nodeIdx
    · subst hi
      rw [Function.update_self, Function.update_self]
    · rw [Function.update_of_ne hi, Function.update_of_ne hi]
  rw [held, hsame, held, add_right_comm, hupdate, add_right_comm]
  rfl

end

theorem stands_iff {l : List (Nat × Nat)} {f : Nat × Nat → List SimBlock} : Stands p.bucketSize (pathFits p l) (l.map f)
    ↔ ∀ x ∈ l, (f x).length ≤ p.bucketSize ∧ ∀ block ∈ f x, p.nodeContainsLeaf x.1 x.2 block.leaf = true := by
  rw [Stands, pathFits, List.forall₂_map_left_iff, List.forall₂_map_right_iff, List.forall₂_same]

theorem labelled_fillIds {pm : List UInt32} {z : Nat} {taken : List SimBlock}
    (h : ∀ block ∈ taken, block.id ≠ emptyBlock ∧ block.leaf = pm.getD block.id.toNat 0) :
    labelled pm (fillIds z taken) = taken := by
  have hfree : (List.replicate (z - taken.length) emptyBlock).filter (· ≠ emptyBlock) = [] :=
    List.filter_eq_nil_iff.mpr fun id hid => by simp [List.eq_of_mem_replicate hid]
  have hall : (taken.map (·.id)).filter (· ≠ emptyBlock) = taken.map (·.id) := by
    refine List.filter_eq_self.mpr fun id hid => ?_
    obtain ⟨block, hb, rfl⟩ := List.mem_map.mp hid
    exact decide_eq_true (h block hb).1
  rw [labelled, fillIds, List.filter_append, hfree, hall, List.append_nil, List.map_map]
  refine (List.map_congr_left fun block hb => ?_).trans (List.map_id taken)
  rw [Function.comp_apply, ← (h block hb).2]
  rfl

/-- The blocks of some nodes, one node after the other. -/
theorem flatMap_blocksAt (s : SimTree) (l : List (Nat × Nat)) :
    ((l.map (·.2)).map fun i => (↑(s.blocksAt i) : Multiset SimBlock)).sum = ↑(l.flatMap fun x => s.blocksAt x.2) := by
  induction l with
  | nil => rfl
  | cons x l ih => rw [List.map_cons, List.map_cons, List.sum_cons, ih, List.flatMap_cons, Multiset.coe_add]

/-! ## The first bucket on a path -/

/-- The first bucket that `f` changes, changed. -/
def firstFit (f : List UInt32 → Option (List UInt32)) : List Nat → Eff Error SimTree Bool
  | [] => pure false
  | nodeIdx :: path => do
    let s ← Eff.get
    let bucket ← Eff.lift (s.slice nodeIdx)
    match f bucket with
    | some bucket => do
      Eff.modify fun s => s.withBucket nodeIdx bucket s.stash
      pure true
    | none => firstFit f path

theorem placeAlong_eq (id : UInt32) (path : List Nat) : placeAlong id path = firstFit (placeId id) path := by
  induction path with
  | nil => rfl
  | cons nodeIdx path ih =>
    rw [placeAlong, ih]
    rfl

theorem removeAlong_eq (id : UInt32) (path : List Nat) : removeAlong id path = firstFit (clearId id) path := by
  induction path with
  | nil => rfl
  | cons nodeIdx path ih =>
    rw [removeAlong, ih]
    rfl

theorem firstFit_run {s : SimTree} (h : s.Shape p) (f : List UInt32 → Option (List UInt32)) {path : List Nat}
    (hlt : ∀ i ∈ path, i < p.bucketCount) :
    (∃ node ∈ path, ∃ bucket, f (s.bucket node) = some bucket ∧
      firstFit f path s = (.ok true, s.withBucket node bucket s.stash)) ∨
    (∀ node ∈ path, f (s.bucket node) = none) ∧ firstFit f path s = (.ok false, s) := by
  induction path with
  | nil => exact .inr ⟨by simp, rfl⟩
  | cons node path ih =>
    have hslice := slice_eq h (hlt node List.mem_cons_self)
    rw [firstFit, Eff.get_bind, hslice, Eff.lift_ok_bind]
    cases hf : f (s.bucket node) with
    | some bucket => exact .inl ⟨node, List.mem_cons_self, bucket, hf, rfl⟩
    | none =>
      rcases ih fun i hi => hlt i (List.mem_cons_of_mem _ hi) with ⟨i, hi, bucket, hbucket, hrun⟩ | ⟨hnone, hrun⟩
      · exact .inl ⟨i, List.mem_cons_of_mem _ hi, bucket, hbucket, hrun⟩
      · refine .inr ⟨fun i hi => ?_, hrun⟩
        rcases List.mem_cons.mp hi with rfl | hi
        · exact hf
        · exact hnone i hi

/-! ## Leaves -/

theorem randomLeaf_lt {ρ : Type} [SimRng ρ] (p : OramParams) (rng : ρ) :
    (CircuitStressSim.randomLeaf p rng).1.toNat < p.leaves := by
  have hlt := p.leaves_lt
  have hge := p.leaves_ge
  have hmask : (UInt32.ofNat p.leaves - 1).toNat = p.leaves - 1 := by
    have hself : (UInt32.ofNat p.leaves).toNat = p.leaves := by rw [UInt32.toNat_ofNat', Nat.mod_eq_of_lt hlt]
    rw [UInt32.toNat_sub_of_le _ _ (UInt32.le_iff_toNat_le.mpr (by rw [hself, UInt32.toNat_one]; omega)), hself,
      UInt32.toNat_one]
  rw [CircuitStressSim.randomLeaf, UInt32.toNat_and, hmask]
  exact Nat.lt_of_le_of_lt Nat.and_le_right (by omega)

namespace Placed

variable {s : SimTree} {block : SimBlock}

theorem ids_le (h : s.Placed p) : s.positionMap.length ≤ emptyBlock.toNat := h.shape.positionMap

theorem mem_held (h : s.Placed p) : block ∈ s.held p ↔
    block.id.toNat < s.positionMap.length ∧ block.leaf = s.positionMap.getD block.id.toNat 0 := by
  rw [h.held, Multiset.mem_coe, mem_expected h.ids_le]

theorem ne_emptyBlock (h : s.Placed p) (hb : block ∈ s.held p) : block.id ≠ emptyBlock := by
  intro he
  have hlt := (h.mem_held.mp hb).1
  have hle := h.ids_le
  rw [he] at hlt
  omega

theorem leaf_lt (h : s.Placed p) (hb : block ∈ s.held p) : block.leaf.toNat < p.leaves := by
  obtain ⟨hlt, hleaf⟩ := h.mem_held.mp hb
  rw [hleaf, List.getD_eq_getElem?_getD, List.getElem?_eq_getElem hlt]
  exact h.leaves _ (List.getElem_mem hlt)

theorem mem_held_bucket {i : Nat} (hi : i < p.bucketCount) (hb : block ∈ s.blocksAt i) : block ∈ s.held p := by
  rw [SimTree.held, Multiset.mem_add, mem_gather]
  exact .inl ⟨i, hi, hb⟩

theorem mem_held_stash (hb : block ∈ s.stash) : block ∈ s.held p := by
  rw [SimTree.held, Multiset.mem_add]
  exact .inr hb

/-! ## Placing an id -/

theorem placeOrStash_run {s : SimTree} (hs : s.Shape p) (block : SimBlock) (hne : block.id ≠ emptyBlock)
    (hlt : block.id.toNat < s.positionMap.length) (hleaf : block.leaf = s.positionMap.getD block.id.toNat 0)
    (hleafLt : block.leaf.toNat < p.leaves)
    (honPath : ∀ i < p.bucketCount, ∀ x ∈ s.blocksAt i, i ∈ p.pathNodes x.leaf) :
    ∃ t, placeOrStash block s = (.ok (), t) ∧ t.Shape p ∧ t.positionMap = s.positionMap ∧
      t.held p = s.held p + {block} ∧ ∀ i < p.bucketCount, ∀ x ∈ t.blocksAt i, i ∈ p.pathNodes x.leaf := by
  have hpath : ∀ i ∈ (s.params.pathNodes block.leaf).reverse, i < p.bucketCount := by
    intro i hi
    rw [hs.params, List.mem_reverse] at hi
    exact p.pathNodes_lt hleafLt i hi
  have hplace : ∀ r t, firstFit (placeId block.id) (s.params.pathNodes block.leaf).reverse s = (.ok r, t) →
      placeDeepest block s = (.ok r, t) := by
    intro r t hrun
    rw [placeDeepest, Eff.get_bind, placeAlong_eq, hrun]
  rcases firstFit_run hs (placeId block.id) hpath with ⟨node, hnode, bucket, hbucket, hrun⟩ | ⟨-, hrun⟩
  · have hn := hpath node hnode
    obtain ⟨hlen, hperm⟩ := placeId_some hne hbucket
    have hb : bucket.length = p.bucketSize := hlen.trans (bucket_length hs hn)
    have hlabelled := labelled_perm s.positionMap hperm
    rw [← hleaf] at hlabelled
    refine ⟨s.withBucket node bucket s.stash, ?_, ?_, rfl, ?_, ?_⟩
    · rw [placeOrStash, Eff.bind_ok (hplace _ _ hrun)]
      rfl
    · refine withBucket_shape hs hn hb (fun id hid hne => ?_) hs.stash
      have hmem := hperm.mem_iff.mp (List.mem_filter.mpr ⟨hid, by simpa using hne⟩)
      rcases List.mem_cons.mp hmem with rfl | hmem
      · exact hlt
      · exact hs.held node id (List.mem_filter.mp hmem).1 hne
    · have hheld := withBucket_held hs hn hb
      have hmore : (↑(labelled s.positionMap bucket) : Multiset SimBlock) = ↑(s.blocksAt node) + {block} :=
        calc (↑(labelled s.positionMap bucket) : Multiset SimBlock)
            = ↑(block :: s.blocksAt node) := Multiset.coe_eq_coe.mpr hlabelled
          _ = {block} + ↑(s.blocksAt node) := by rw [← Multiset.cons_coe, Multiset.singleton_add]
          _ = ↑(s.blocksAt node) + {block} := add_comm _ _
      rw [hmore, ← add_assoc, add_right_comm] at hheld
      exact add_right_cancel hheld
    · intro i hi x hx
      rw [withBucket_blocksAt hs hn hb] at hx
      by_cases hin : i = node
      · subst hin
        rw [Function.update_self] at hx
        rcases List.mem_cons.mp (hlabelled.mem_iff.mp hx) with rfl | hx
        · rw [hs.params, List.mem_reverse] at hnode
          exact hnode
        · exact honPath i hi x hx
      · rw [Function.update_of_ne hin] at hx
        exact honPath i hi x hx
  · refine ⟨{ s with stash := s.stash ++ [block] }, ?_, ?_, rfl, ?_, honPath⟩
    · rw [placeOrStash, Eff.bind_ok (hplace _ _ hrun)]
      rfl
    · refine ⟨hs.params, hs.slots, hs.positionMap, hs.held, fun x hx => ?_⟩
      rcases List.mem_append.mp hx with hx | hx
      · exact hs.stash x hx
      · rw [List.mem_singleton.mp hx]
        exact hlt
    · rw [SimTree.held, SimTree.held, add_assoc]
      rfl

theorem placeNext [SimRng ρ] {s : SimTree} (h : s.Placed p) (hroom : s.positionMap.length < emptyBlock.toNat) (rng : ρ) :
    ∃ t rng', CircuitStressSim.placeNext s.positionMap.length (s, rng) = (.ok (), (t, rng')) ∧ t.Placed p ∧
      t.positionMap.length = s.positionMap.length + 1 := by
  have hleaf := randomLeaf_lt p rng
  have hself : (UInt32.ofNat s.positionMap.length).toNat = s.positionMap.length := by
    have hmax : emptyBlock.toNat < 2 ^ 32 := UInt32.toNat_lt _
    rw [UInt32.toNat_ofNat', Nat.mod_eq_of_lt (by omega)]
  have hne : UInt32.ofNat s.positionMap.length ≠ emptyBlock := by
    intro he
    rw [he] at hself
    omega
  generalize hdraw : CircuitStressSim.randomLeaf p rng = draw at hleaf
  -- the leaf is entered first; the blocks there are keep theirs
  let s₁ : SimTree := { s with positionMap := s.positionMap ++ [draw.1] }
  have hshape : s₁.Shape p := h.shape.push hroom draw.1
  have hblocks : ∀ i, s₁.blocksAt i = s.blocksAt i := by
    intro i
    refine labelled_congr fun id hid hne => ?_
    exact List.getD_append _ _ _ _ (h.shape.held i id hid hne)
  have hheld : s₁.held p = ↑(expected s.positionMap) := by
    rw [← h.held, SimTree.held, SimTree.held, gather_congr fun i _ => congrArg _ (hblocks i)]
  obtain ⟨t, hrun, ht, hpm, hmore, honPath⟩ := placeOrStash_run hshape
    { id := UInt32.ofNat s.positionMap.length, leaf := draw.1 } hne
    (by rw [hself, List.length_append, List.length_singleton]; omega)
    (by rw [hself, List.getD_append_right _ _ _ _ (Nat.le_refl _), Nat.sub_self]; rfl) hleaf
    (fun i hi x hx => h.onPath i hi x (hblocks i ▸ hx))
  refine ⟨t, draw.2, ?_, ⟨ht, ?_, ?_, honPath⟩, by rw [hpm, List.length_append, List.length_singleton]⟩
  · rw [CircuitStressSim.placeNext, Eff.get_bind, h.shape.params, hdraw]
    show Eff.zoom (·.1) (fun tree s => (tree, s.2)) _ (s₁, draw.2) = _
    exact Eff.zoom_of hrun
  · intro leaf hmem
    rw [hpm] at hmem
    rcases List.mem_append.mp hmem with hmem | hmem
    · exact h.leaves leaf hmem
    · rw [List.mem_singleton.mp hmem]
      exact hleaf
  · rw [hmore, hheld, hpm, expected_concat]
    rfl

/-- A tree with no ids. -/
theorem start (p : OramParams) : Placed p
    { params := p, slots := List.replicate (p.bucketCount * p.bucketSize) emptyBlock, positionMap := [], stash := [] } := by
  have hempty : ∀ i, SimTree.blocksAt
      { params := p, slots := List.replicate (p.bucketCount * p.bucketSize) emptyBlock, positionMap := [],
        stash := [] } i = [] := by
    intro i
    rw [SimTree.blocksAt, labelled, List.map_eq_nil_iff, List.filter_eq_nil_iff]
    intro id hid
    have hmem := List.mem_of_mem_drop (List.mem_of_mem_take hid)
    simp [List.eq_of_mem_replicate hmem]
  refine ⟨⟨rfl, List.length_replicate, Nat.zero_le _, fun i id hid hne => ?_, fun block hb => by cases hb⟩, ?_, ?_, ?_⟩
  · have hmem := List.mem_of_mem_drop (List.mem_of_mem_take hid)
    exact absurd (List.eq_of_mem_replicate hmem) hne
  · intro leaf hmem
    cases hmem
  · rw [SimTree.held, gather_congr fun i _ => congrArg _ (hempty i)]
    simp [gather, expected]
  · intro i _ x hx
    rw [hempty i] at hx
    cases hx

/-- The initial placement. -/
theorem placeAll [SimRng ρ] {n : Nat} (hn : n ≤ emptyBlock.toNat) (rng : ρ) : ∃ us t rng',
    Eff.forEach (CircuitStressSim.placeNext (ρ := ρ)) (List.range n)
      ({ params := p, slots := List.replicate (p.bucketCount * p.bucketSize) emptyBlock, positionMap := [], stash := [] }, rng)
      = (.ok us, (t, rng')) ∧ t.Placed p ∧ t.positionMap.length = n := by
  have hturn : ∀ k, 0 ≤ k → k < 0 + n → ∀ s : SimTree × ρ, (s.1.Placed p ∧ s.1.positionMap.length = k) →
      ∃ b t, CircuitStressSim.placeNext k s = (.ok b, t) ∧ t.1.Placed p ∧ t.1.positionMap.length = k + 1 := by
    intro k _ hk s hs
    obtain ⟨hs, rfl⟩ := hs
    obtain ⟨t, rng', hrun, ht, hlen⟩ := hs.placeNext (by omega) s.2
    exact ⟨(), (t, rng'), hrun, ht, hlen⟩
  obtain ⟨us, ⟨t, rng'⟩, hrun, ht, hlen⟩ := Eff.forEach_upTo hturn (s := (_, rng)) ⟨start p, rfl⟩
  rw [List.range_eq_range']
  exact ⟨us, t, rng', hrun, ht, by rw [hlen, Nat.zero_add]⟩

/-! ## Moving a block to the stash -/

/-- The block of an id is taken out. -/
theorem takeBlock {s : SimTree} (h : s.Placed p) {id leaf : UInt32} (hid : id.toNat < s.positionMap.length)
    (hleaf : s.positionMap.getD id.toNat 0 = leaf) :
    ∃ t, SimTree.takeBlock id leaf s = (.ok (some { id, leaf }), t) ∧ t.Shape p ∧ t.positionMap = s.positionMap ∧
      t.held p + {{ id, leaf }} = s.held p ∧ ∀ i < p.bucketCount, ∀ x ∈ t.blocksAt i, i ∈ p.pathNodes x.leaf := by
  have hmem : { id, leaf } ∈ s.held p := h.mem_held.mpr ⟨hid, hleaf.symm⟩
  have hne : id ≠ emptyBlock := h.ne_emptyBlock hmem
  have hpath : ∀ i ∈ p.pathNodes leaf, i < p.bucketCount := p.pathNodes_lt (h.leaf_lt hmem)
  have hremove : ∀ r t, firstFit (clearId id) (p.pathNodes leaf) s = (.ok r, t) →
      removeFromPath id leaf s = (.ok (if r then some { id, leaf } else none), t) := by
    intro r t hrun
    rw [removeFromPath, Eff.get_bind, h.shape.params, removeAlong_eq, Eff.bind_ok hrun]
    rfl
  rcases firstFit_run h.shape (clearId id) hpath with ⟨node, hnode, bucket, hbucket, hrun⟩ | ⟨hnone, hrun⟩
  · have hn := hpath node hnode
    obtain ⟨hlen, hperm⟩ := clearId_some hne hbucket
    have hb : bucket.length = p.bucketSize := hlen.trans (bucket_length h.shape hn)
    have hlabelled := labelled_perm s.positionMap hperm
    rw [hleaf] at hlabelled
    refine ⟨s.withBucket node bucket s.stash, ?_, ?_, rfl, ?_, ?_⟩
    · rw [SimTree.takeBlock, Eff.bind_ok (hremove _ _ hrun)]
      rfl
    · refine withBucket_shape h.shape hn hb (fun x hx hxne => ?_) h.shape.stash
      have hfilter := hperm.mem_iff.mpr (List.mem_cons_of_mem _ (List.mem_filter.mpr ⟨hx, by simpa using hxne⟩))
      exact h.shape.held node x (List.mem_filter.mp hfilter).1 hxne
    · have hheld := withBucket_held h.shape hn hb
      have hless : (↑(s.blocksAt node) : Multiset SimBlock) = ↑(labelled s.positionMap bucket) + {{ id, leaf }} :=
        calc (↑(s.blocksAt node) : Multiset SimBlock)
            = ↑(({ id, leaf } : SimBlock) :: labelled s.positionMap bucket) := Multiset.coe_eq_coe.mpr hlabelled
          _ = {{ id, leaf }} + ↑(labelled s.positionMap bucket) := by rw [← Multiset.cons_coe, Multiset.singleton_add]
          _ = ↑(labelled s.positionMap bucket) + {{ id, leaf }} := add_comm _ _
      rw [hless, ← add_assoc, add_right_comm] at hheld
      exact add_right_cancel hheld
    · intro i hi x hx
      rw [withBucket_blocksAt h.shape hn hb] at hx
      by_cases hin : i = node
      · subst hin
        rw [Function.update_self] at hx
        exact h.onPath i hi x (hlabelled.mem_iff.mpr (List.mem_cons_of_mem _ hx))
      · rw [Function.update_of_ne hin] at hx
        exact h.onPath i hi x hx
  · -- no bucket of its path holds it, and no other bucket may
    have hstash : { id, leaf } ∈ s.stash := by
      rw [SimTree.held, Multiset.mem_add, mem_gather] at hmem
      rcases hmem with ⟨i, hi, hb⟩ | hb
      · have hnode := h.onPath i hi _ hb
        obtain ⟨x, hx, he⟩ := List.mem_map.mp (Multiset.mem_coe.mp hb)
        have hxid : x = id := congrArg SimBlock.id he
        subst hxid
        exact absurd (List.mem_filter.mp hx).1 (clearId_none (hnone i hnode))
      · exact hb
    rcases htake : takeFirst (fun block : SimBlock => block.id == id) s.stash with _ | ⟨block, stash⟩
    · have hno := takeFirst_none htake _ hstash
      simp at hno
    · obtain ⟨hblock, hperm⟩ := takeFirst_some htake
      have hblockMem := h.mem_held.mp (mem_held_stash (p := p) (hperm.mem_iff.mpr List.mem_cons_self))
      have hblockEq : block = { id, leaf } := by
        obtain ⟨bid, bleaf⟩ := block
        simp only [beq_iff_eq] at hblock
        subst hblock
        rw [SimBlock.mk.injEq]
        exact ⟨rfl, hblockMem.2.trans hleaf⟩
      subst hblockEq
      refine ⟨{ s with stash }, ?_, ?_, rfl, ?_, h.onPath⟩
      · rw [SimTree.takeBlock, Eff.bind_ok (hremove _ _ hrun)]
        show removeFromStash id s = _
        rw [removeFromStash, Eff.get_bind, htake]
        rfl
      · exact ⟨h.shape.params, h.shape.slots, h.shape.positionMap, h.shape.held, fun x hx =>
          h.shape.stash x (hperm.mem_iff.mpr (List.mem_cons_of_mem _ hx))⟩
      · have hless : (↑s.stash : Multiset SimBlock) = ↑stash + {{ id, leaf }} :=
          calc (↑s.stash : Multiset SimBlock) = ↑(({ id, leaf } : SimBlock) :: stash) := Multiset.coe_eq_coe.mpr hperm
            _ = {{ id, leaf }} + ↑stash := by rw [← Multiset.cons_coe, Multiset.singleton_add]
            _ = ↑stash + {{ id, leaf }} := add_comm _ _
        rw [SimTree.held, SimTree.held, hless, add_assoc]
        rfl

/-- A block that was taken out is nowhere else. -/
theorem not_held {s t : SimTree} (h : s.Placed p) (hheld : t.held p + {block} = s.held p) :
    ∀ x ∈ t.held p, x.id ≠ block.id := by
  have hids : ((t.held p + {block}).map (·.id)).Nodup := by
    rw [hheld, h.held, Multiset.map_coe, Multiset.coe_nodup]
    exact expected_ids_nodup h.ids_le
  rw [add_comm, Multiset.singleton_add, Multiset.map_cons, Multiset.nodup_cons] at hids
  intro x hx he
  exact hids.1 (Multiset.mem_map.mpr ⟨x, hx, he⟩)

/-- The block of an id moves to the stash, under a new leaf. -/
theorem access [SimRng ρ] {s : SimTree} (h : s.Placed p) {id leaf : UInt32} (hid : id.toNat < s.positionMap.length)
    (hleaf : s.positionMap.getD id.toNat 0 = leaf) (rng : ρ) :
    ∃ t rng', CircuitStressSim.accessBlock id (s, rng) = (.ok leaf, (t, rng')) ∧ t.Placed p ∧
      t.positionMap.length = s.positionMap.length := by
  obtain ⟨u, htake, hu, hpm, hheld, honPath⟩ := h.takeBlock hid hleaf
  have hold : s.positionMap[id.toNat]? = some leaf := by
    rw [List.getElem?_eq_getElem hid, ← hleaf, List.getD_eq_getElem?_getD, List.getElem?_eq_getElem hid]
    rfl
  have hnew := randomLeaf_lt p rng
  generalize hdraw : CircuitStressSim.randomLeaf p rng = draw at hnew
  let t : SimTree :=
    { u with
      positionMap := u.positionMap.set id.toNat draw.1
      stash := u.stash ++ [{ id, leaf := draw.1 }] }
  have hmap : t.positionMap = s.positionMap.set id.toNat draw.1 := by rw [← hpm]
  have hlen : t.positionMap.length = s.positionMap.length := by rw [hmap, List.length_set]
  -- the buckets hold other ids only, whose leaves stay
  have hblocks : ∀ i < p.bucketCount, t.blocksAt i = u.blocksAt i := by
    intro i hi
    refine labelled_congr fun x hx hne => ?_
    have hmem : { id := x, leaf := u.positionMap.getD x.toNat 0 } ∈ u.held p := by
      rw [SimTree.held, Multiset.mem_add, mem_gather]
      exact .inl ⟨i, hi, List.mem_map.mpr ⟨x, List.mem_filter.mpr ⟨hx, by simpa using hne⟩, rfl⟩⟩
    have hother : id.toNat ≠ x.toNat := fun he => h.not_held hheld _ hmem (UInt32.toNat_inj.mp he).symm
    rw [List.getD_eq_getElem?_getD, List.getD_eq_getElem?_getD, List.getElem?_set_ne hother]
  have hmore : t.held p = u.held p + {{ id, leaf := draw.1 }} := by
    rw [SimTree.held, gather_congr fun i hi => congrArg _ (hblocks i hi), SimTree.held, add_assoc]
    rfl
  refine ⟨t, draw.2, ?_, ⟨?_, ?_, ?_, ?_⟩, hlen⟩
  · have htake' : Eff.zoom (·.1) (fun tree s => (tree, s.2)) (SimTree.takeBlock id leaf) (s, rng)
        = (.ok (some { id, leaf }), (u, rng)) := Eff.zoom_of htake
    rw [CircuitStressSim.accessBlock, Eff.get_bind]
    simp only [hold, okOr, Eff.lift_ok_bind]
    rw [Eff.bind_ok htake']
    simp only [Eff.get_bind, hu.params, hdraw]
    rfl
  · refine ⟨hu.params, hu.slots, ?_, fun i x hx hne => ?_, fun x hx => ?_⟩
    · rw [hlen]
      exact h.ids_le
    · rw [hlen, ← hpm]
      exact hu.held i x hx hne
    · rw [hlen]
      rcases List.mem_append.mp hx with hx | hx
      · rw [← hpm]
        exact hu.stash x hx
      · rw [List.mem_singleton.mp hx]
        exact hid
  · intro l hl
    rw [hmap] at hl
    rcases List.mem_or_eq_of_mem_set hl with hl | rfl
    · exact h.leaves l hl
    · exact hnew
  · have hset := expected_set hid draw.1
    rw [UInt32.ofNat_toNat, hleaf, ← hmap] at hset
    have hswap : (↑(expected t.positionMap) : Multiset SimBlock) + {{ id, leaf }} =
        ↑(expected s.positionMap) + {{ id, leaf := draw.1 }} :=
      calc (↑(expected t.positionMap) : Multiset SimBlock) + {{ id, leaf }}
          = ↑(({ id, leaf } : SimBlock) :: expected t.positionMap) := by
            rw [add_comm, Multiset.singleton_add, Multiset.cons_coe]
        _ = ↑(({ id, leaf := draw.1 } : SimBlock) :: expected s.positionMap) := Multiset.coe_eq_coe.mpr hset
        _ = ↑(expected s.positionMap) + {{ id, leaf := draw.1 }} := by rw [add_comm, Multiset.singleton_add, Multiset.cons_coe]
    refine add_right_cancel (b := {{ id, leaf }}) ?_
    rw [hswap, hmore, add_right_comm, hheld, h.held]
  · intro i hi x hx
    rw [hblocks i hi] at hx
    exact honPath i hi x hx

/-! ## Emptying and filling again -/

/-- What a bucket on a path holds may stand there. -/
theorem contains_of_onPath {s : SimTree} (h : s.Placed p) {leaf : UInt32} (hleaf : leaf.toNat < p.leaves) {x : Nat × Nat}
    (hx : x ∈ path p leaf) {block : SimBlock} (hb : block ∈ s.blocksAt x.2) :
    p.nodeContainsLeaf x.1 x.2 block.leaf = true := by
  obtain ⟨hd, hnode⟩ := mem_path.mp hx
  have hlt := path_lt hleaf x hx
  obtain ⟨d, hd', he⟩ := p.mem_pathNodes.mp (h.onPath x.2 hlt block hb)
  obtain rfl := p.nodeIndex_depth hd' hd (h.leaf_lt (mem_held_bucket hlt hb)) hleaf (he.trans hnode)
  exact beq_iff_eq.mpr he

/-- The buckets of a part of a path emptied into the stash and filled again, the deepest first:
    the blocks are those there were, and the stash is left with no more of them. -/
theorem refill {s : SimTree} (h : s.Placed p) {leaf : UInt32} (hleaf : leaf.toNat < p.leaves) {l : List (Nat × Nat)}
    (hl : l.Sublist (path p leaf)) :
    ∃ us t u, Eff.forEach (fun node : Nat × Nat => readBucketIntoStash node.2) l s = (.ok us, t) ∧
      writeFromEnd l t = (.ok (), u) ∧ t.params = p ∧ u.Placed p ∧ u.held p = s.held p ∧ u.positionMap = s.positionMap ∧
      u.stash.length ≤ s.stash.length := by
  have hlt : ∀ x ∈ l, x.2 < p.bucketCount := fun x hx => path_lt hleaf x (hl.subset hx)
  have hn : (l.map (·.2)).Nodup := by
    refine List.Nodup.sublist (hl.map _) ?_
    rw [path_nodes]
    exact p.pathNodes_nodup hleaf
  obtain ⟨us, t, hread, ht, hpos, hstash, hempty, hout⟩ := readBuckets_run h.shape hlt hn
  obtain ⟨levels, u, hwrite, hu, hpos', hchosen, hbuckets, hout'⟩ := writeFromEnd_run ht hlt hn hempty
  have hpm : u.positionMap = s.positionMap := hpos'.trans hpos
  rw [hstash] at hchosen
  have hpool : ∀ block ∈ s.stash ++ l.flatMap (fun x => s.blocksAt x.2), block ∈ s.held p := by
    intro block hb
    rcases List.mem_append.mp hb with hb | hb
    · exact mem_held_stash hb
    · obtain ⟨x, hx, hb⟩ := List.mem_flatMap.mp hb
      exact mem_held_bucket (hlt x hx) hb
  -- what a bucket took it now holds
  have hlevels : l.map (fun x => u.blocksAt x.2) = levels := by
    have hback : ∀ taken ∈ levels, labelled s.positionMap (fillIds p.bucketSize taken) = taken := by
      intro taken htaken
      refine labelled_fillIds fun block hb => ?_
      have hmem := hpool block (hchosen.perm.mem_iff.mpr (List.mem_append_left _ (List.mem_flatten.mpr ⟨taken, htaken, hb⟩)))
      exact ⟨h.ne_emptyBlock hmem, (h.mem_held.mp hmem).2⟩
    calc l.map (fun x => u.blocksAt x.2)
        = (l.map fun x => u.bucket x.2).map (labelled s.positionMap) := by
          rw [List.map_map, ← hpm]
          rfl
      _ = levels.map (fun taken => labelled s.positionMap (fillIds p.bucketSize taken)) := by
          rw [hbuckets, List.map_map]
          rfl
      _ = levels := (List.map_congr_left hback).trans (List.map_id _)
  have hother : ∀ i ∉ l.map (·.2), u.blocksAt i = s.blocksAt i := by
    intro i hi
    rw [blocksAt, blocksAt, hpm, hout' i hi, hout i hi]
  have hbefore : ∀ x ∈ l, (s.blocksAt x.2).length ≤ p.bucketSize ∧
      ∀ block ∈ s.blocksAt x.2, p.nodeContainsLeaf x.1 x.2 block.leaf = true := by
    intro x hx
    refine ⟨?_, fun block hb => h.contains_of_onPath hleaf (hl.subset hx) hb⟩
    rw [blocksAt, labelled, List.length_map]
    exact (List.length_filter_le _ _).trans (Nat.le_of_eq (bucket_length h.shape (hlt x hx)))
  have hafter : ∀ x ∈ l, (u.blocksAt x.2).length ≤ p.bucketSize ∧
      ∀ block ∈ u.blocksAt x.2, p.nodeContainsLeaf x.1 x.2 block.leaf = true := by
    have hstands := hchosen.stands
    rw [← hlevels] at hstands
    exact stands_iff.mp hstands
  have hnested : (pathFits p l).Pairwise fun f g => ∀ block, g block = true → f block = true :=
    (pathFits_nested hleaf).sublist (hl.map _)
  have hsame : u.held p = s.held p := by
    -- the pool is what the buckets and the stash held, and what they hold now
    have halong := gather_along (f := fun i => (↑(s.blocksAt i) : Multiset SimBlock))
      (g := fun i => (↑(u.blocksAt i) : Multiset SimBlock)) hn (fun i hi => by
        obtain ⟨x, hx, rfl⟩ := List.mem_map.mp hi
        exact hlt x hx) fun i hi => congrArg _ (hother i hi)
    rw [flatMap_blocksAt, flatMap_blocksAt] at halong
    have hflat : l.flatMap (fun x => u.blocksAt x.2) = levels.flatten := by rw [List.flatMap_def, hlevels]
    have hperm : (↑s.stash : Multiset SimBlock) + ↑(l.flatMap fun x => s.blocksAt x.2) = ↑levels.flatten + ↑u.stash := by
      rw [Multiset.coe_add, Multiset.coe_add]
      exact Multiset.coe_eq_coe.mpr hchosen.perm
    rw [SimTree.held, SimTree.held]
    refine add_right_cancel (b := (↑(l.flatMap fun x => s.blocksAt x.2) : Multiset SimBlock)) ?_
    rw [add_right_comm, halong, hflat, add_assoc, add_assoc, hperm]
  refine ⟨us, t, u, hread, hwrite, ht.params, ⟨hu, ?_, ?_, ?_⟩, hsame, hpm, ?_⟩
  · rw [hpm]
    exact h.leaves
  · rw [hpm, hsame, h.held]
  · intro i hi block hb
    by_cases hmem : i ∈ l.map (·.2)
    · obtain ⟨x, hx, rfl⟩ := List.mem_map.mp hmem
      have hcontains := (hafter x hx).2 block hb
      exact p.mem_pathNodes.mpr ⟨x.1, (mem_path.mp (hl.subset hx)).1, beq_iff_eq.mp hcontains⟩
    · rw [hother i hmem] at hb
      exact h.onPath i hi block hb
  · refine hchosen.rest_le hnested (stands_iff.mpr hbefore) ?_
    rw [← List.flatMap_def]

end Placed

/-! ## Slots, stash and position map -/

theorem slots_eq {s : SimTree} (h : s.Shape p) : (List.range p.bucketCount).flatMap s.bucket = s.slots := by
  obtain ⟨hflat, hcount, -⟩ := chunks_spec h.slots
  rw [List.flatMap_def]
  refine (congrArg List.flatten (List.ext_getElem? fun i => ?_)).trans hflat
  by_cases hi : i < p.bucketCount
  · rw [chunks_getElem? _ hi, List.getElem?_map, List.getElem?_range hi, Option.map_some, SimTree.bucket, bucketBase, h.params]
  · rw [List.getElem?_eq_none (by rw [List.length_map, List.length_range]; omega), List.getElem?_eq_none (by omega)]

/-- The ids of the blocks stand in the slots and in the stash. -/
theorem held_ids {s : SimTree} (h : s.Shape p) :
    (s.held p).map (·.id) = ↑(s.slots.filter (· ≠ emptyBlock)) + ↑(s.stash.map (·.id)) := by
  have hbuckets : ∀ n, (gather n fun i => (↑(s.blocksAt i) : Multiset SimBlock)).map (·.id)
      = ↑(((List.range n).flatMap s.bucket).filter (· ≠ emptyBlock)) := by
    intro n
    induction n with
    | zero => rfl
    | succ n ih =>
      have hlast : (s.blocksAt n).map (·.id) = (s.bucket n).filter (· ≠ emptyBlock) := by
        rw [blocksAt, labelled, List.map_map]
        exact List.map_id _
      rw [gather, Finset.sum_range_succ, Multiset.map_add, Multiset.map_coe, hlast]
      rw [gather] at ih
      rw [ih, List.range_succ, List.flatMap_append, List.flatMap_singleton, List.filter_append, Multiset.coe_add]
  rw [SimTree.held, Multiset.map_add, hbuckets, slots_eq h, Multiset.map_coe]

/-- Every id stands in one slot or in one block of the stash, on the path of its leaf. -/
def OnceOnPath (p : OramParams) (s : SimTree) : Prop :=
  ∀ id : UInt32, id.toNat < p.logicalBlocks → ∃ leaf, s.positionMap[id.toNat]? = some leaf ∧
    s.slots.count id + (s.stash.map (·.id)).count id = 1 ∧
    (∀ j, s.slots[j]? = some id → j / p.bucketSize ∈ p.pathNodes leaf) ∧
    ∀ block ∈ s.stash, block.id = id → block.leaf = leaf

/-- All ids are placed. -/
structure Full (p : OramParams) (s : SimTree) : Prop extends Placed p s where
  all : s.positionMap.length = p.logicalBlocks

theorem Full.onceOnPath {s : SimTree} (h : s.Full p) : s.OnceOnPath p := by
  intro id hid
  rw [← h.all] at hid
  have hleaf : s.positionMap.getD id.toNat 0 = s.positionMap[id.toNat] := by
    rw [List.getD_eq_getElem?_getD, List.getElem?_eq_getElem hid]
    rfl
  have hmem : { id, leaf := s.positionMap.getD id.toNat 0 } ∈ s.held p := h.mem_held.mpr ⟨hid, rfl⟩
  have hne : id ≠ emptyBlock := h.ne_emptyBlock hmem
  refine ⟨s.positionMap[id.toNat], List.getElem?_eq_getElem hid, ?_, fun j hj => ?_, fun block hb he => ?_⟩
  · have hids : ((s.held p).map (·.id)).Nodup := by
      rw [h.held, Multiset.map_coe, Multiset.coe_nodup]
      exact expected_ids_nodup h.ids_le
    have hone := Multiset.count_eq_one_of_mem hids (Multiset.mem_map_of_mem (·.id) hmem)
    rw [held_ids h.shape, Multiset.count_add, Multiset.coe_count, Multiset.coe_count,
      List.count_filter (by simpa using hne)] at hone
    exact hone
  · have hslots := h.shape.slots
    obtain ⟨hlt, hget⟩ := List.getElem?_eq_some_iff.mp hj
    have hz := p.bucketSize_pos
    have hi : j / p.bucketSize < p.bucketCount := by
      rw [Nat.div_lt_iff_lt_mul hz, ← hslots]
      exact hlt
    have hbucket : id ∈ s.bucket (j / p.bucketSize) := by
      refine List.mem_of_getElem? (i := j % p.bucketSize) ?_
      rw [SimTree.bucket, bucketBase, h.shape.params, List.getElem?_take_of_lt (Nat.mod_lt _ hz), List.getElem?_drop,
        Nat.div_add_mod', hj]
    rw [← hleaf]
    exact h.onPath _ hi _ (List.mem_map.mpr ⟨id, List.mem_filter.mpr ⟨hbucket, by simpa using hne⟩, rfl⟩)
  · rw [← hleaf, ← he]
    exact (h.mem_held.mp (Placed.mem_held_stash hb)).2

end SimTree

end BpirOram
