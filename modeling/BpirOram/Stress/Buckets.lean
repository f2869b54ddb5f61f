/-
  BpirOram.Stress.Buckets — what an eviction of the simulator does to its buckets and stash.

  A bucket is a slice of the slot vector, and two buckets do not overlap, so the slots are a
  function from nodes to buckets (`withBucket_bucket`). Reading a path empties its buckets
  into the stash (`readBuckets_run`); writing it back fills each, the deepest first, until it
  is full or no block that is left may stand there (`writeFromEnd_run`).
-/

import BpirOram.Stress.Sim
import BpirOram.Lib.Greedy

namespace BpirOram

open Lib

variable {p : OramParams}

namespace SimTree

/-- The sizes of a simulated tree, and every id it holds in the position map: with at most
    `u32::MAX` blocks none of them is `emptyBlock`. -/
structure Shape (p : OramParams) (s : SimTree) : Prop where
  params : s.params = p
  slots : s.slots.length = p.bucketCount * p.bucketSize
  positionMap : s.positionMap.length ≤ emptyBlock.toNat
  held : ∀ i, ∀ id ∈ s.bucket i, id ≠ emptyBlock → id.toNat < s.positionMap.length
  stash : ∀ block ∈ s.stash, block.id.toNat < s.positionMap.length

/-- Room for one more id. -/
theorem Shape.push {s : SimTree} (h : s.Shape p) (hroom : s.positionMap.length < emptyBlock.toNat) (leaf : UInt32) :
    Shape p { s with positionMap := s.positionMap ++ [leaf] } where
  params := h.params
  slots := h.slots
  positionMap := by
    rw [List.length_append]
    exact hroom
  held i id hid hne := by
    rw [List.length_append]
    exact Nat.lt_of_lt_of_le (h.held i id hid hne) (Nat.le_add_right _ _)
  stash block hb := by
    rw [List.length_append]
    exact Nat.lt_of_lt_of_le (h.stash block hb) (Nat.le_add_right _ _)

/-- The blocks of the ids in a bucket. -/
def labelled (positionMap : List UInt32) (bucket : List UInt32) : List SimBlock :=
  (bucket.filter (· ≠ emptyBlock)).map fun id => { id, leaf := positionMap.getD id.toNat 0 }

def blocksAt (s : SimTree) (nodeIdx : Nat) : List SimBlock := labelled s.positionMap (s.bucket nodeIdx)

/-! ## Slices -/

section
variable {s : SimTree} {nodeIdx : Nat} {bucket : List UInt32}

theorem base_le (hn : nodeIdx < p.bucketCount) : (nodeIdx + 1) * p.bucketSize ≤ p.bucketCount * p.bucketSize :=
  Nat.mul_le_mul_right _ hn

theorem slice_eq (h : s.Shape p) (hn : nodeIdx < p.bucketCount) : s.slice nodeIdx = .ok (s.bucket nodeIdx) := by
  have hle := base_le hn
  rw [Nat.succ_mul] at hle
  rw [slice, if_pos]
  rw [bucketBase, h.params, h.slots]
  exact hle

theorem bucket_length (h : s.Shape p) (hn : nodeIdx < p.bucketCount) : (s.bucket nodeIdx).length = p.bucketSize := by
  have hle := base_le hn
  rw [Nat.succ_mul] at hle
  rw [bucket, bucketBase, h.params, List.length_take, List.length_drop, h.slots]
  omega

/-- Writing one slice leaves every other bucket. -/
theorem withBucket_bucket (stash : List SimBlock) (h : s.Shape p) (hn : nodeIdx < p.bucketCount)
    (hb : bucket.length = p.bucketSize) :
    (s.withBucket nodeIdx bucket stash).bucket = Function.update s.bucket nodeIdx bucket := by
  have hle := base_le hn
  have hlen : (s.slots.take (nodeIdx * p.bucketSize)).length = nodeIdx * p.bucketSize := by
    rw [List.length_take, h.slots, Nat.succ_mul] at *
    omega
  rw [Nat.succ_mul] at hle
  have hslots := h.slots
  funext i
  simp only [SimTree.bucket, withBucket, bucketBase, h.params]
  by_cases hi : i = nodeIdx
  · subst hi
    rw [Function.update_self, List.append_assoc, List.drop_append_of_le_length (by omega), List.drop_of_length_le (by omega),
      List.nil_append, ← hb, List.take_left]
  · rw [Function.update_of_ne hi, SimTree.bucket, bucketBase, h.params]
    refine List.ext_getElem? fun j => ?_
    rw [List.getElem?_take, List.getElem?_take]
    by_cases hj : j < p.bucketSize
    · rw [if_pos hj, if_pos hj, List.getElem?_drop, List.getElem?_drop]
      rcases Nat.lt_or_gt_of_ne hi with hlt | hgt
      · have hbefore : (i + 1) * p.bucketSize ≤ nodeIdx * p.bucketSize := Nat.mul_le_mul_right _ hlt
        rw [Nat.succ_mul] at hbefore
        rw [List.append_assoc, List.getElem?_append_left (by omega), List.getElem?_take, if_pos (by omega)]
      · have hafter : (nodeIdx + 1) * p.bucketSize ≤ i * p.bucketSize := Nat.mul_le_mul_right _ hgt
        rw [Nat.succ_mul] at hafter
        rw [List.getElem?_append_right (by rw [List.length_append]; omega), List.getElem?_drop, List.length_append]
        congr 1
        omega
    · rw [if_neg hj, if_neg hj]

theorem withBucket_shape {stash : List SimBlock} (h : s.Shape p) (hn : nodeIdx < p.bucketCount)
    (hb : bucket.length = p.bucketSize) (hheld : ∀ id ∈ bucket, id ≠ emptyBlock → id.toNat < s.positionMap.length)
    (hstash : ∀ block ∈ stash, block.id.toNat < s.positionMap.length) : (s.withBucket nodeIdx bucket stash).Shape p where
  params := h.params
  slots := by
    have hle := base_le hn
    rw [Nat.succ_mul] at hle
    simp only [withBucket, bucketBase, h.params, List.length_append, List.length_take, List.length_drop, hb, h.slots]
    omega
  positionMap := h.positionMap
  held i id hid hne := by
    rw [withBucket_bucket stash h hn hb] at hid
    by_cases hi : i = nodeIdx
    · subst hi
      rw [Function.update_self] at hid
      exact hheld id hid hne
    · rw [Function.update_of_ne hi] at hid
      exact h.held i id hid hne
  stash := hstash

end

/-! ## Reading -/

theorem readSlots_eq {positionMap bucket : List UInt32}
    (hheld : ∀ id ∈ bucket, id ≠ emptyBlock → id.toNat < positionMap.length)
    (stash : List SimBlock) : readSlots positionMap bucket stash
      = .ok (List.replicate bucket.length emptyBlock, stash ++ labelled positionMap bucket) := by
  induction bucket generalizing stash with
  | nil => simp [readSlots, labelled]
  | cons slot rest ih =>
    have hrest := ih fun id hid => hheld id (List.mem_cons_of_mem _ hid)
    by_cases hslot : slot = emptyBlock
    · subst hslot
      rw [readSlots, if_neg (by simp), hrest]
      rfl
    · have hlt := hheld slot List.mem_cons_self hslot
      simp only [readSlots, if_pos hslot, okOr, bind, Except.bind, hrest, labelled, List.filter_cons, decide_eq_true hslot,
        if_true, List.map_cons, List.getD_eq_getElem?_getD,
        List.getElem?_eq_getElem hlt, Option.getD_some, List.length_cons, List.replicate_succ, List.append_assoc,
        List.singleton_append]

theorem readBucketIntoStash_eq {s : SimTree} (h : s.Shape p) {nodeIdx : Nat} (hn : nodeIdx < p.bucketCount) :
    readBucketIntoStash nodeIdx s
      = (.ok (), s.withBucket nodeIdx (List.replicate p.bucketSize emptyBlock) (s.stash ++ s.blocksAt nodeIdx)) := by
  simp only [readBucketIntoStash, Eff.get_bind, slice_eq h hn, Eff.lift_ok_bind, readSlots_eq (h.held nodeIdx),
    bucket_length h hn]
  rfl

theorem labelled_lt {s : SimTree} (h : s.Shape p) (i : Nat) :
    ∀ block ∈ s.blocksAt i, block.id.toNat < s.positionMap.length := by
  intro block hb
  obtain ⟨id, hid, rfl⟩ := List.mem_map.mp hb
  obtain ⟨hid, hne⟩ := List.mem_filter.mp hid
  exact h.held i id hid (by simpa using hne)

/-- Reading the buckets of distinct nodes empties them into the stash, in order. -/
theorem readBuckets_run {s : SimTree} (h : s.Shape p) {l : List (Nat × Nat)} (hlt : ∀ x ∈ l, x.2 < p.bucketCount)
    (hn : (l.map (·.2)).Nodup) :
    ∃ us s', Eff.forEach (fun node : Nat × Nat => readBucketIntoStash node.2) l s = (.ok us, s') ∧ s'.Shape p ∧
      s'.positionMap = s.positionMap ∧ s'.stash = s.stash ++ l.flatMap (fun x => s.blocksAt x.2) ∧
      (∀ x ∈ l, s'.bucket x.2 = List.replicate p.bucketSize emptyBlock) ∧ ∀ i ∉ l.map (·.2),
        s'.bucket i = s.bucket i := by
  induction l generalizing s with
  | nil => exact ⟨[], s, rfl, h, rfl, by simp, by simp, fun _ _ => rfl⟩
  | cons x l ih =>
    obtain ⟨hx, hn⟩ := List.nodup_cons.mp hn
    have hxlt := hlt x List.mem_cons_self
    have hb : (List.replicate p.bucketSize emptyBlock).length = p.bucketSize := List.length_replicate
    have hs₁ : (s.withBucket x.2 (List.replicate p.bucketSize emptyBlock) (s.stash ++ s.blocksAt x.2)).Shape p :=
      withBucket_shape h hxlt hb (fun id hid hne => absurd (List.eq_of_mem_replicate hid) hne) fun block hblock => by
        rcases List.mem_append.mp hblock with hblock | hblock
        · exact h.stash block hblock
        · exact labelled_lt h x.2 block hblock
    have hbucket := withBucket_bucket (s.stash ++ s.blocksAt x.2) h hxlt hb
    obtain ⟨us, s', hrun, hs', hpos, hstash, hempty, hout⟩ := ih hs₁ (fun y hy => hlt y (List.mem_cons_of_mem _ hy)) hn
    refine ⟨() :: us, s', Eff.forEach_ok (readBucketIntoStash_eq h hxlt) hrun, hs', hpos, ?_, ?_, fun i hi => ?_⟩
    · -- the other buckets are still as they were
      have hsame : ∀ y ∈ l, (s.withBucket x.2 (List.replicate p.bucketSize emptyBlock)
          (s.stash ++ s.blocksAt x.2)).blocksAt y.2 = s.blocksAt y.2 := by
        intro y hy
        have hne : y.2 ≠ x.2 := fun he => hx (List.mem_map.mpr ⟨y, hy, he⟩)
        rw [blocksAt, hbucket, Function.update_of_ne hne]
        rfl
      rw [hstash, List.flatMap_cons, List.flatMap_congr hsame]
      exact List.append_assoc _ _ _
    · intro y hy
      rcases List.mem_cons.mp hy with rfl | hy
      · rw [hout y.2 hx, hbucket, Function.update_self]
      · exact hempty y hy
    · rw [List.map_cons, List.mem_cons, not_or] at hi
      rw [hout i hi.2, hbucket, Function.update_of_ne hi.1]

/-! ## Writing -/

/-- A bucket that took `taken`. -/
def fillIds (z : Nat) (taken : List SimBlock) : List UInt32 :=
  taken.map (·.id) ++ List.replicate (z - taken.length) emptyBlock

theorem writeSlots_none {contains : UInt32 → Bool} {stash : List SimBlock}
    (h : ∀ block ∈ stash, contains block.leaf = false)
    (z : Nat) : writeSlots contains (List.replicate z emptyBlock) stash = (List.replicate z emptyBlock, stash) := by
  have hnone : takeFirst (fun block => contains block.leaf) stash = none := by
    rw [takeFirst, List.findIdx?_eq_none_iff.mpr h]
    rfl
  induction z with
  | zero => rfl
  | succ z ih => simp only [List.replicate_succ, writeSlots, ne_eq, not_true_eq_false, if_false, hnone, ih]

/-- Filling an empty bucket. -/
theorem writeSlots_exhausts (contains : UInt32 → Bool) (z : Nat) (stash : List SimBlock) :
    ∃ taken rest, writeSlots contains (List.replicate z emptyBlock) stash = (fillIds z taken, rest) ∧
      Exhausts z (fun block : SimBlock => contains block.leaf) stash taken rest := by
  induction z generalizing stash with
  | zero => exact ⟨[], stash, rfl, .refl _, by simp, Nat.le_refl _, .inl rfl⟩
  | succ z ih =>
    rcases htake : takeFirst (fun block : SimBlock => contains block.leaf) stash with _ | ⟨block, stash₁⟩
    · have hnone := takeFirst_none htake
      refine ⟨[], stash, ?_, .refl _, by simp, Nat.zero_le _, .inr hnone⟩
      exact writeSlots_none hnone (z + 1)
    · obtain ⟨hfit, hperm⟩ := takeFirst_some htake
      obtain ⟨taken, rest, hrun, hex⟩ := ih stash₁
      refine ⟨block :: taken, rest, ?_, ?_⟩
      · simp only [List.replicate_succ, writeSlots, ne_eq, not_true_eq_false, if_false, htake, hrun, fillIds, List.map_cons,
          List.length_cons, Nat.add_sub_add_right, List.cons_append]
      · exact
          { perm := hperm.trans (hex.perm.cons block)
            fits := fun a ha => by
              rcases List.mem_cons.mp ha with rfl | ha
              · exact hfit
              · exact hex.fits a ha
            length_le := Nat.succ_le_succ hex.length_le
            full := hex.full.imp_left fun hfull => by rw [List.length_cons, hfull] }

/-- The predicates of the levels of a path, root first. -/
def pathFits (p : OramParams) (l : List (Nat × Nat)) : List (SimBlock → Bool) :=
  l.map fun x block => p.nodeContainsLeaf x.1 x.2 block.leaf

/-- Writing to the empty buckets of distinct nodes, from the last one: each takes what may
    stand in it until it is full or nothing is left for it. -/
theorem writeFromEnd_run {s : SimTree} (h : s.Shape p) {l : List (Nat × Nat)} (hlt : ∀ x ∈ l, x.2 < p.bucketCount)
    (hn : (l.map (·.2)).Nodup) (hempty : ∀ x ∈ l, s.bucket x.2 = List.replicate p.bucketSize emptyBlock) :
    ∃ levels s', writeFromEnd l s = (.ok (), s') ∧ s'.Shape p ∧ s'.positionMap = s.positionMap ∧
      ExhaustsAll p.bucketSize (pathFits p l) s.stash levels s'.stash ∧
      (l.map fun x => s'.bucket x.2) = levels.map (fillIds p.bucketSize) ∧
      ∀ i ∉ l.map (·.2), s'.bucket i = s.bucket i := by
  induction l with
  | nil => exact ⟨[], s, rfl, h, rfl, .nil _, rfl, fun _ _ => rfl⟩
  | cons x l ih =>
    obtain ⟨hx, hn⟩ := List.nodup_cons.mp hn
    have hxlt := hlt x List.mem_cons_self
    obtain ⟨levels, s₁, hrun, hs₁, hpos, hdeep, hbuckets, hout⟩ :=
      ih (fun y hy => hlt y (List.mem_cons_of_mem _ hy)) hn fun y hy => hempty y (List.mem_cons_of_mem _ hy)
    obtain ⟨taken, rest, hfill, htop⟩ := writeSlots_exhausts (p.nodeContainsLeaf x.1 x.2) p.bucketSize s₁.stash
    have hxempty : s₁.bucket x.2 = List.replicate p.bucketSize emptyBlock :=
      (hout x.2 hx).trans (hempty x List.mem_cons_self)
    have hlen : (fillIds p.bucketSize taken).length = p.bucketSize := by
      have hle := htop.length_le
      rw [fillIds, List.length_append, List.length_map, List.length_replicate]
      omega
    have hwrite : writeFromEnd (x :: l) s = (.ok (), s₁.withBucket x.2 (fillIds p.bucketSize taken) rest) := by
      rw [writeFromEnd, Eff.bind_ok hrun]
      simp only [writeBucketFromStash, Eff.get_bind, slice_eq hs₁ hxlt, Eff.lift_ok_bind, hs₁.params, hxempty, hfill]
      rfl
    have hmem : ∀ block ∈ taken ++ rest, block.id.toNat < s₁.positionMap.length :=
      fun block hblock => hs₁.stash block (htop.perm.mem_iff.mpr hblock)
    have hs' : (s₁.withBucket x.2 (fillIds p.bucketSize taken) rest).Shape p := by
      refine withBucket_shape hs₁ hxlt hlen (fun id hid hne => ?_) fun block hblock =>
        hmem block (List.mem_append_right _ hblock)
      rcases List.mem_append.mp hid with hid | hid
      · obtain ⟨block, hblock, rfl⟩ := List.mem_map.mp hid
        exact hmem block (List.mem_append_left _ hblock)
      · exact absurd (List.eq_of_mem_replicate hid) hne
    have hbucket := withBucket_bucket rest hs₁ hxlt hlen
    refine ⟨taken :: levels, _, hwrite, hs', hpos, .cons hdeep htop, ?_, fun i hi => ?_⟩
    · rw [List.map_cons, List.map_cons, hbucket, Function.update_self, ← hbuckets]
      refine congrArg _ (List.map_congr_left fun y hy => ?_)
      exact Function.update_of_ne (fun he => hx (List.mem_map.mpr ⟨y, hy, he⟩)) _ _
    · rw [List.map_cons, List.mem_cons, not_or] at hi
      rw [hbucket, Function.update_of_ne hi.1, hout i hi.2]

end SimTree
end BpirOram
