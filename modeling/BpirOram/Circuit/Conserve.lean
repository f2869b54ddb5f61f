/-
  BpirOram.Circuit.Conserve — evicting a path moves blocks and loses none.

  The blocks pooled from the stash and the path are those placed and those left over
  (`fillLevels_perm`), and the greedy choice places at least as many as the path held
  before (`fillLevels_max`), so what is left over fits the stash again.
-/

import BpirOram.Circuit.RefineOps
import BpirOram.Circuit.Access

namespace BpirOram

open Lib

variable {ρ : Type} {p : OramParams}

/-! ## Numbers -/

theorem unselected_pairwise (l : List (OramBlock × Ct.Choice)) (k : Nat) :
    (unselected l k).Pairwise fun x y => x.1 < y.1 := by
  induction l generalizing k with
  | nil => exact .nil
  | cons s l ih =>
    rw [unselected]
    split
    · exact List.pairwise_cons.mpr ⟨fun x hx => (mem_unselected hx).1, ih (k + 1)⟩
    · exact ih (k + 1)

/-- A sublist of numbered elements is picked out by its numbers. -/
theorem sublist_eq_filter {α : Type} {l left : List (Nat × α)} (h : left.Sublist l)
    (hl : l.Pairwise fun x y => x.1 < y.1) : left = l.filter fun x => left.any (·.1 == x.1) := by
  induction h with
  | slnil => rfl
  | @cons left l a hs ih =>
    obtain ⟨ha, hl⟩ := List.pairwise_cons.mp hl
    rw [List.filter_cons_of_neg, ← ih hl]
    rw [Bool.not_eq_true, List.any_eq_false]
    intro x hx
    have := ha x (hs.subset hx)
    simp only [beq_iff_eq]
    omega
  | @cons_cons left l a hs ih =>
    obtain ⟨ha, hl⟩ := List.pairwise_cons.mp hl
    rw [List.filter_cons_of_pos (by simp)]
    congr 1
    refine (ih hl).trans (List.filter_congr fun x hx => ?_)
    have hne : (a.1 == x.1) = false := by
      have := ha x hx
      simp only [beq_eq_false_iff_ne]
      omega
    rw [List.any_cons, hne, Bool.false_or]

/-- The pool: the stash's blocks, then the path's. -/
theorem pool_split (stash : List OramBlock) (buckets : List (List OramBlock)) :
    pool stash buckets = unselected (stash.map fun b => (b, false)) 0
      ++ unselected (buckets.flatten.map fun b => (b, false)) stash.length := by
  rw [pool, List.map_append, unselected_append, Nat.zero_add, List.length_map]

theorem map_snd_unmarked (l : List OramBlock) (k : Nat) :
    (unselected (l.map fun b => (b, false)) k).map (·.2) = l.filter (·.occupied) := by
  rw [map_snd_unselected, List.filter_map, List.map_map]
  simp [Function.comp_def]

theorem map_snd_pool (stash : List OramBlock) (buckets : List (List OramBlock)) :
    (↑((pool stash buckets).map (·.2)) : Multiset OramBlock) = occ stash + occ buckets.flatten := by
  rw [pool_split, List.map_append, map_snd_unmarked, map_snd_unmarked, ← Multiset.coe_add]
  rfl

/-! ## What an eviction leaves -/

section
variable {stash : List OramBlock} {buckets : List (List OramBlock)} {left : List (Nat × OramBlock)}

theorem filter_clearLoop (left : List (Nat × OramBlock)) (stash : List OramBlock) (k : Nat) :
    ((stash.zipIdx k).map fun (b, i) => b.clearIf (b.occupied && !left.any (·.1 == i))).filter (·.occupied)
      = ((unselected (stash.map fun b => (b, false)) k).filter fun x => left.any (·.1 == x.1)).map (·.2) := by
  induction stash generalizing k with
  | nil => rfl
  | cons b stash ih =>
    rw [List.zipIdx_cons, List.map_cons, List.map_cons, unselected]
    simp only [Bool.not_false, Bool.and_true]
    cases hb : b.occupied
    · rw [List.filter_cons_of_neg (by simp [hb]), if_neg (by simp), ih]
    · cases hl : left.any (·.1 == k)
      · rw [List.filter_cons_of_neg (by simp), if_pos rfl, List.filter_cons_of_neg (by simp [hl]), ih]
      · rw [List.filter_cons_of_pos (by simp [hb]), if_pos rfl, List.filter_cons_of_pos (by simp [hl]), ih]
        simp

theorem filter_keptStash (left : List (Nat × OramBlock)) (stash : List OramBlock) :
    (keptStash left stash).filter (·.occupied)
      = ((unselected (stash.map fun b => (b, false)) 0).filter fun x => left.any (·.1 == x.1)).map (·.2) :=
  filter_clearLoop left stash 0

/-- What stays in the stash and what comes back to it is what was left over. -/
theorem occ_kept_add_leftOver (h : left.Sublist (pool stash buckets)) :
    occ (keptStash left stash) + ↑(leftOver stash.length left) = (↑(left.map (·.2)) : Multiset OramBlock) := by
  have hp : (pool stash buckets).Pairwise fun x y => x.1 < y.1 := unselected_pairwise _ _
  have hleft := sublist_eq_filter h hp
  have hsplit : left = (unselected (stash.map fun b => (b, false)) 0).filter (fun x => left.any (·.1 == x.1))
      ++ (unselected (buckets.flatten.map fun b => (b, false)) stash.length).filter (fun x => left.any (·.1 == x.1)) := by
    conv => lhs; rw [hleft, pool_split, List.filter_append]
  have hback : leftOver stash.length left
      = ((unselected (buckets.flatten.map fun b => (b, false)) stash.length).filter
          fun x => left.any (·.1 == x.1)).map (·.2) := by
    rw [leftOver]
    conv => lhs; rw [hsplit, List.filter_append]
    rw [List.filter_eq_nil_iff.mpr, List.filter_eq_self.mpr, List.nil_append]
    · intro x hx
      exact decide_eq_true (mem_unselected (List.mem_of_mem_filter hx)).1
    · intro x hx
      have hm := (mem_unselected (List.mem_of_mem_filter hx)).2.1
      have := (List.getElem?_eq_some_iff.mp hm).1
      rw [List.length_map] at this
      simp only [decide_eq_true_eq]
      omega
  rw [occ, filter_keptStash, hback, Multiset.coe_add, ← List.map_append, ← hsplit]

theorem occ_of_all {l : List OramBlock} (h : ∀ x ∈ l, x.occupied = true) : occ l = ↑l := by
  rw [occ, List.filter_eq_self.mpr h]

theorem occ_insertAll {back : List OramBlock} (hb : ∀ x ∈ back, x.occupied = true) {stash : List OramBlock}
    (hfit : back.length ≤ freeSlots stash) : occ (insertAll back stash) = occ stash + ↑back := by
  induction back generalizing stash with
  | nil => simp [insertAll]
  | cons x back ih =>
    rw [List.length_cons] at hfit
    obtain ⟨stash', hs, hf⟩ := insertFirst_some (hb x (by simp)) (show 0 < freeSlots stash by omega)
    rw [insertAll, hs, Option.getD_some, ih (fun y hy => hb y (by simp [hy])) (by omega),
      occ_insertFirst (hb x (by simp)) hs, ← Multiset.cons_coe, ← Multiset.singleton_add, add_assoc]

theorem occ_fillBucket {taken : List (Nat × OramBlock)} (h : ∀ x ∈ taken, x.2.occupied = true) :
    occ (fillBucket p taken) = ↑(taken.map (·.2)) := by
  have hd : ∀ n, occ (List.replicate n (OramBlock.dummy p.blockSize)) = 0 := by
    intro n
    rw [occ, List.filter_replicate]
    simp
  rw [fillBucket, occ_append, hd, add_zero, occ_of_all fun x hx => by
    obtain ⟨y, hy, rfl⟩ := List.mem_map.mp hx
    exact h y hy]

theorem occ_flatten (buckets : List (List OramBlock)) : occ buckets.flatten = (buckets.map occ).sum := by
  induction buckets with
  | nil => rfl
  | cons bucket buckets ih => rw [List.flatten_cons, occ_append, ih, List.map_cons, List.sum_cons]

end
/-! ## The levels of a path -/

theorem safeLeaf_lt (p : OramParams) (leaf : UInt32) : (UInt32.ofNat (leaf.toNat &&& (p.leaves - 1))).toNat < p.leaves := by
  have hle : leaf.toNat &&& (p.leaves - 1) ≤ p.leaves - 1 := Nat.and_le_right
  have := p.leaves_ge
  have := p.leaves_lt
  rw [UInt32.toNat_ofNat', Nat.mod_eq_of_lt (by omega)]
  omega

theorem nodeContainsLeafChoice_eq {leaf : UInt32} (h : leaf.toNat < p.leaves) (depth nodeIdx : Nat) :
    nodeContainsLeafChoice p depth nodeIdx leaf = (p.nodeIndex depth leaf == nodeIdx) := by
  have hmask : leaf.toNat &&& (p.leaves - 1) = leaf.toNat := by
    rw [p.leaves_eq] at h ⊢
    rw [Nat.and_two_pow_sub_one_eq_mod, Nat.mod_eq_of_lt h]
  rw [nodeContainsLeafChoice, hmask, UInt32.ofNat_toNat]

@[simp] theorem levelFits_length (p : OramParams) (depth : Nat) (path : List Nat) :
    (levelFits p depth path).length = path.length := by
  induction path generalizing depth with
  | nil => rfl
  | cons node path ih => simp [levelFits, ih]

theorem levelFits_getElem (p : OramParams) (depth : Nat) (path : List Nat) {i : Nat}
    (hi : i < (levelFits p depth path).length) (hi' : i < path.length) :
    (levelFits p depth path)[i] = fitsBlock (nodeContainsLeafChoice p (depth + i) path[i]) := by
  induction path generalizing depth i with
  | nil => simp at hi'
  | cons node path ih =>
    cases i with
    | zero => rfl
    | succ i =>
      simp only [levelFits, List.getElem_cons_succ]
      rw [ih (depth + 1) _ (by simpa using hi'), show depth + 1 + i = depth + (i + 1) by omega]

/-- What fits a bucket of the path fits every bucket above it. -/
theorem levelFits_nested {leaf : UInt32} (hleaf : leaf.toNat < p.leaves) :
    (levelFits p 0 (p.pathNodes leaf)).Pairwise fun f g => ∀ x, g x = true → f x = true := by
  rw [List.pairwise_iff_getElem]
  intro i j hi hj hij x hx
  rw [levelFits_length] at hi hj
  have hj' : j < p.height := by simpa using hj
  rw [levelFits_getElem p 0 _ _ hj, p.pathNodes_getElem, Nat.zero_add] at hx
  rw [levelFits_getElem p 0 _ _ hi, p.pathNodes_getElem, Nat.zero_add]
  simp only [fitsBlock, nodeContainsLeafChoice, beq_iff_eq] at hx ⊢
  exact p.nodeIndex_anti (Nat.le_of_lt hij) hj' (safeLeaf_lt p _) hleaf hx

/-- The numbered blocks each bucket of the path holds. -/
def held : Nat → List (List OramBlock) → List (List (Nat × OramBlock))
  | _, [] => []
  | k, bucket :: buckets => unselected (bucket.map fun b => (b, false)) k :: held (k + bucket.length) buckets

theorem held_flatten (k : Nat) (buckets : List (List OramBlock)) :
    (held k buckets).flatten = unselected (buckets.flatten.map fun b => (b, false)) k := by
  induction buckets generalizing k with
  | nil => rfl
  | cons bucket buckets ih =>
    rw [held, List.flatten_cons, ih, List.flatten_cons, List.map_append, unselected_append, List.length_map]

/-- A path whose blocks are where they may be stands in the levels of the path. -/
theorem held_stands {tree : Nat → List OramBlock} {depth k : Nat} {path : List Nat}
    (hz : ∀ i ∈ path, (tree i).length = p.bucketSize)
    (hfit : ∀ i (hi : i < path.length), ∀ x ∈ tree path[i], x.occupied = true →
      nodeContainsLeafChoice p (depth + i) path[i] x.leaf = true) :
    Stands p.bucketSize (levelFits p depth path) (held k (path.map tree)) := by
  induction path generalizing depth k with
  | nil => exact .nil
  | cons node path ih =>
    refine .cons ⟨?_, fun x hx => ?_⟩ (ih (fun i hi => hz i (by simp [hi])) fun i hi x hx ho => ?_)
    · have hl : (unselected ((tree node).map fun b => (b, false)) k).length
          = ((unselected ((tree node).map fun b => (b, false)) k).map (·.2)).length := (List.length_map _).symm
      rw [hl, map_snd_unmarked, ← hz node (by simp)]
      exact List.length_filter_le _ _
    · obtain ⟨-, hm, ho⟩ := mem_unselected hx
      rw [List.getElem?_map, Option.map_eq_some_iff] at hm
      obtain ⟨y, hy, he⟩ := hm
      cases he
      exact hfit 0 (by simp) _ (List.mem_of_getElem? hy) ho
    · have := hfit (i + 1) (by simpa using hi) x hx ho
      rwa [show depth + (i + 1) = depth + 1 + i by omega] at this

/-! ## Evicting -/

/-- The tree with the buckets of a path replaced. -/
theorem overwrite_zip_path {α : Type} (c : Nat → α) {path : List Nat} (hn : path.Nodup) {vals : List α}
    (hl : path.length = vals.length) :
    path.map (overwrite c (path.zip vals)) = vals ∧ ∀ i ∉ path, overwrite c (path.zip vals) i = c i := by
  induction path generalizing c vals with
  | nil => exact ⟨by rw [List.length_eq_zero_iff.mp hl.symm]; rfl, fun i _ => rfl⟩
  | cons node path ih =>
    cases vals with
    | nil => cases hl
    | cons a vals =>
      obtain ⟨hnode, hn⟩ := List.nodup_cons.mp hn
      obtain ⟨h1, h2⟩ := ih (Function.update c node a) hn (by simpa using hl)
      have hstep : overwrite c ((node :: path).zip (a :: vals)) = overwrite (Function.update c node a) (path.zip vals) := rfl
      rw [hstep, List.map_cons, h1, h2 node hnode, Function.update_self]
      refine ⟨rfl, fun i hi => ?_⟩
      rw [List.mem_cons, not_or] at hi
      rw [h2 i hi.2, Function.update_of_ne hi.1]

/-- Any placement has overlays of a path that hold it. -/
theorem Blocks.Shape.tracked {b : Blocks ρ} (h : b.Shape p) {path : List Nat} (hlt : ∀ i ∈ path, i < p.bucketCount) :
    ∃ overlays, Tracks p [path].flatten b.tree ⟨b.toController, overlays⟩ b := by
  have hl : ∀ i ∈ [path].flatten, i < p.bucketCount := by simpa using hlt
  obtain ⟨mo, -, hm⟩ := overlayPathPages_eq [path] fun i hi => metaPages_length h i (hl i hi)
  obtain ⟨po, -, hp⟩ := overlayPathPages_eq [path] fun i hi => payloadPages_length h i (hl i hi)
  exact ⟨⟨mo, po⟩, { controller := rfl, shape := h, metaPages := hm, payloadPages := hp, outside := fun i _ => rfl }⟩

/-- Shape is kept by any eviction along a path of the tree. -/
theorem evict_keeps {path : List Nat} (hlt : ∀ i ∈ path, i < p.bucketCount) (hlen : path.length = p.height) :
    Eff.Keeps (Blocks.Shape p) (Blocks.evict path : Eff Error (Blocks ρ) Unit) := by
  intro b h
  obtain ⟨overlays, ht⟩ := h.tracked hlt
  exact (Tracks.evict (by simp) hlt hlen _ _ ht).2.shape

/-- What evicting one path leaves. -/
structure Evicted (p : OramParams) (b b' : Blocks ρ) : Prop where
  sound : Sound p b'
  controller : ∃ stash, b'.toController = { b.toController with stash }
  blocks : b'.blocks p = b.blocks p
  occupied : b'.stash.countP (·.occupied) ≤ b.stash.countP (·.occupied)

theorem Evicted.inv {b b' : Blocks ρ} {v : Memory} (h : Evicted p b b') (hi : Inv p b v) : Inv p b' v where
  shape := h.sound.shape
  blocks := by
    obtain ⟨stash, hs⟩ := h.controller
    have hp : b'.posMap = b.posMap := by rw [hs]
    rw [h.blocks, hi.blocks, hp]
  onPath := h.sound.onPath

section
variable {b : Blocks ρ} {leaf : UInt32}

/-- A block pooled for an eviction is one of the controller's. -/
theorem mem_blocks_of_pool {path : List Nat} (hlt : ∀ i ∈ path, i < p.bucketCount) {x : Nat × OramBlock}
    (h : x ∈ pool b.stash (path.map b.tree)) : x.2 ∈ b.blocks p ∧ x.2.occupied = true := by
  obtain ⟨hm, ho⟩ := mem_pool h
  refine ⟨?_, ho⟩
  rcases List.mem_append.mp (List.mem_of_getElem? hm) with hm | hm
  · exact Multiset.mem_add.mpr (.inr (mem_occ.mpr ⟨hm, ho⟩))
  · obtain ⟨bucket, hb, hx⟩ := List.mem_flatten.mp hm
    obtain ⟨i, hi, rfl⟩ := List.mem_map.mp hb
    exact Multiset.mem_add.mpr (.inl (mem_treeBlocks.mpr ⟨i, hlt i hi, hx, ho⟩))

/-- No more is left over than the stash held: the greedy choice places at least as many
    blocks as the path held. -/
theorem Sound.left_le (h : Sound p b) (hleaf : leaf.toNat < p.leaves) :
    (evicted p (p.pathNodes leaf) b.stash ((p.pathNodes leaf).map b.tree)).2.length ≤ b.stash.countP (·.occupied) := by
  have hlt := p.pathNodes_lt hleaf
  have hst : Stands p.bucketSize (levelFits p 0 (p.pathNodes leaf)) (held b.stash.length ((p.pathNodes leaf).map b.tree)) := by
    refine held_stands (fun i hi => (h.shape.tree i (hlt i hi)).slots) fun i hi x hx ho => ?_
    have hmem := hlt _ (List.getElem_mem hi)
    have hxl := h.leaf_lt _ (Multiset.mem_add.mpr (.inl (mem_treeBlocks.mpr ⟨_, hmem, hx, ho⟩)))
    have hon := h.onPath _ hmem x hx ho
    rw [p.pathNodes_getElem hi] at hon ⊢
    obtain ⟨d, hd, he⟩ := p.mem_pathNodes.mp hon
    rw [Nat.zero_add, nodeContainsLeafChoice_eq hxl, ← he,
      p.nodeIndex_depth (by simpa using hi) hd hleaf hxl he.symm, beq_self_eq_true]
  have hpool : (pool b.stash ((p.pathNodes leaf).map b.tree)).length
      = b.stash.countP (·.occupied) + (held b.stash.length ((p.pathNodes leaf).map b.tree)).flatten.length := by
    rw [pool_split, List.length_append, held_flatten]
    congr 1
    rw [← List.length_map (f := (·.2)), map_snd_unmarked, List.countP_eq_length_filter]
  have hmax := fillLevels_max (l := pool b.stash ((p.pathNodes leaf).map b.tree)) (levelFits_nested hleaf) hst (by
    rw [held_flatten, pool_split]
    exact (List.sublist_append_right _ _).subperm)
  have hperm := (fillLevels_perm p.bucketSize (levelFits p 0 (p.pathNodes leaf))
    (pool b.stash ((p.pathNodes leaf).map b.tree))).length_eq
  rw [List.length_append] at hperm
  rw [evicted]
  omega

/-- What the greedy choice puts into a bucket of the path may be there. -/
theorem evicted_onPath (hleaves : ∀ x ∈ b.blocks p, x.leaf.toNat < p.leaves) (hleaf : leaf.toNat < p.leaves) {d : Nat}
    (hd : d < (p.pathNodes leaf).length)
    (hd' : d < (evicted p (p.pathNodes leaf) b.stash ((p.pathNodes leaf).map b.tree)).1.length) :
    ∀ x ∈ (evicted p (p.pathNodes leaf) b.stash ((p.pathNodes leaf).map b.tree)).1[d],
      (p.pathNodes leaf)[d] ∈ p.pathNodes x.2.leaf := by
  intro x hx
  have hst := fillLevels_stands p.bucketSize (levelFits p 0 (p.pathNodes leaf)) (pool b.stash ((p.pathNodes leaf).map b.tree))
  have hfit := (List.forall₂_iff_get.mp hst).2 d (by simpa using hd) hd'
  have hf := hfit.2 x hx
  rw [List.get_eq_getElem, levelFits_getElem p 0 _ _ hd, Nat.zero_add] at hf
  have hmem : x ∈ pool b.stash ((p.pathNodes leaf).map b.tree) :=
    (fillLevels_perm p.bucketSize (levelFits p 0 (p.pathNodes leaf)) _).mem_iff.mpr
      (List.mem_append.mpr (.inl (List.mem_flatten.mpr ⟨_, List.getElem_mem hd', hx⟩)))
  have hxl := hleaves _ (mem_blocks_of_pool (p.pathNodes_lt hleaf) hmem).1
  rw [fitsBlock, nodeContainsLeafChoice_eq hxl, beq_iff_eq] at hf
  exact p.mem_pathNodes.mpr ⟨d, by simpa using hd, hf⟩

end

/-- What is used of the greedy choice along the path of `leaf`. -/
structure Placing (p : OramParams) (b : Blocks ρ) (leaf : UInt32) (placed : List (List (Nat × OramBlock)))
    (left : List (Nat × OramBlock)) : Prop where
  perm : (pool b.stash ((p.pathNodes leaf).map b.tree)).Perm (placed.flatten ++ left)
  sublist : left.Sublist (pool b.stash ((p.pathNodes leaf).map b.tree))
  length : placed.length = p.height
  onPath : ∀ d (hd : d < placed.length), ∀ x ∈ placed[d], p.nodeIndex d leaf ∈ p.pathNodes x.2.leaf
  left_le : left.length ≤ b.stash.countP (·.occupied)
  occupied : ∀ x ∈ pool b.stash ((p.pathNodes leaf).map b.tree), x.2.occupied = true

theorem Sound.placing {b : Blocks ρ} (h : Sound p b) {leaf : UInt32} (hleaf : leaf.toNat < p.leaves) :
    Placing p b leaf (evicted p (p.pathNodes leaf) b.stash ((p.pathNodes leaf).map b.tree)).1
      (evicted p (p.pathNodes leaf) b.stash ((p.pathNodes leaf).map b.tree)).2 where
  perm := fillLevels_perm p.bucketSize (levelFits p 0 (p.pathNodes leaf)) _
  sublist := fillLevels_sublist p.bucketSize (levelFits p 0 (p.pathNodes leaf)) _
  length := by rw [evicted, fillLevels_length, levelFits_length, p.pathNodes_length]
  onPath d hd x hx := by
    have hd' : d < (p.pathNodes leaf).length := by simpa [evicted] using hd
    have := evicted_onPath (b := b) h.leaf_lt hleaf hd' hd x hx
    rwa [p.pathNodes_getElem hd'] at this
  left_le := h.left_le hleaf
  occupied x hx := (mem_blocks_of_pool (p.pathNodes_lt hleaf) hx).2

namespace Placing

variable {b : Blocks ρ} {leaf : UInt32} {placed : List (List (Nat × OramBlock))} {left : List (Nat × OramBlock)}

/-- The tree with what was placed. -/
def tree (p : OramParams) (b : Blocks ρ) (leaf : UInt32) (placed : List (List (Nat × OramBlock))) : Nat → List OramBlock :=
  overwrite b.tree ((p.pathNodes leaf).zip (placed.map (fillBucket p)))

theorem placed_occupied (h : Placing p b leaf placed left) : ∀ taken ∈ placed, ∀ x ∈ taken, x.2.occupied = true :=
  fun taken ht x hx => h.occupied x (h.perm.mem_iff.mpr
    (List.mem_append.mpr (.inl (List.mem_flatten.mpr ⟨taken, ht, hx⟩))))

/-- What comes back from the path fits the free slots. -/
theorem fits (h : Placing p b leaf placed left) :
    (keptStash left b.stash).countP (·.occupied) + (leftOver b.stash.length left).length = left.length ∧
      (leftOver b.stash.length left).length ≤ freeSlots (keptStash left b.stash) := by
  have hcard := congrArg Multiset.card (occ_kept_add_leftOver h.sublist)
  rw [Multiset.card_add, card_occ, Multiset.coe_card, Multiset.coe_card, List.length_map] at hcard
  have hcap : b.stash.countP (·.occupied) ≤ b.stash.length := List.countP_le_length
  have hfree := freeSlots_add (keptStash left b.stash)
  rw [keptStash_length] at hfree
  have := h.left_le
  omega

theorem occ_stash (h : Placing p b leaf placed left) :
    occ (insertAll (leftOver b.stash.length left) (keptStash left b.stash)) = ↑(left.map (·.2)) := by
  rw [occ_insertAll (fun x hx => ?_) h.fits.2, occ_kept_add_leftOver h.sublist]
  obtain ⟨y, hy, rfl⟩ := List.mem_map.mp hx
  exact h.occupied y (h.sublist.subset (List.mem_of_mem_filter hy))

theorem tree_path (h : Placing p b leaf placed left) (hleaf : leaf.toNat < p.leaves) :
    (p.pathNodes leaf).map (tree p b leaf placed) = placed.map (fillBucket p) ∧
      ∀ i ∉ p.pathNodes leaf, tree p b leaf placed i = b.tree i :=
  overwrite_zip_path b.tree (p.pathNodes_nodup hleaf) (by rw [List.length_map, h.length, p.pathNodes_length])

theorem occ_placed {placed : List (List (Nat × OramBlock))} (h : ∀ taken ∈ placed, ∀ x ∈ taken, x.2.occupied = true) :
    ((placed.map (fillBucket p)).map occ).sum = ↑(placed.flatten.map (·.2)) := by
  induction placed with
  | nil => rfl
  | cons taken placed ih =>
    rw [List.map_cons, List.map_cons, List.sum_cons, ih fun t ht => h t (by simp [ht]), List.flatten_cons, List.map_append,
      ← Multiset.coe_add, occ_fillBucket (h taken (by simp))]

/-- The path gives up what it held and takes what was placed. -/
theorem treeBlocks_eq (h : Placing p b leaf placed left) (hleaf : leaf.toNat < p.leaves) :
    treeBlocks p (tree p b leaf placed) + occ ((p.pathNodes leaf).map b.tree).flatten
      = treeBlocks p b.tree + ↑(placed.flatten.map (·.2)) := by
  obtain ⟨hmap, hout⟩ := h.tree_path hleaf
  have hgather := gather_along (f := fun i => occ (b.tree i)) (g := fun i => occ (tree p b leaf placed i))
    (p.pathNodes_nodup hleaf) (p.pathNodes_lt hleaf) fun i hi => by rw [hout i hi]
  rwa [show ((p.pathNodes leaf).map fun i => occ (b.tree i)) = ((p.pathNodes leaf).map b.tree).map occ by
      rw [List.map_map]; rfl, ← occ_flatten,
    show ((p.pathNodes leaf).map fun i => occ (tree p b leaf placed i)) =
      ((p.pathNodes leaf).map (tree p b leaf placed)).map occ by
      rw [List.map_map]; rfl, hmap, occ_placed h.placed_occupied] at hgather

theorem blocks_eq (h : Placing p b leaf placed left) (hleaf : leaf.toNat < p.leaves) :
    treeBlocks p (tree p b leaf placed) + ↑(left.map (·.2)) = b.blocks p := by
  have hall : occ b.stash + occ ((p.pathNodes leaf).map b.tree).flatten
      = ↑(placed.flatten.map (·.2)) + ↑(left.map (·.2)) := by
    rw [← map_snd_pool, Multiset.coe_add, ← List.map_append]
    exact Multiset.coe_eq_coe.mpr (h.perm.map _)
  refine add_right_cancel (b := occ ((p.pathNodes leaf).map b.tree).flatten) ?_
  calc treeBlocks p (tree p b leaf placed) + ↑(left.map (·.2)) + occ ((p.pathNodes leaf).map b.tree).flatten
      = treeBlocks p (tree p b leaf placed) + occ ((p.pathNodes leaf).map b.tree).flatten + ↑(left.map (·.2)) :=
        add_right_comm _ _ _
    _ = treeBlocks p b.tree + ↑(placed.flatten.map (·.2)) + ↑(left.map (·.2)) := by rw [h.treeBlocks_eq hleaf]
    _ = b.blocks p + occ ((p.pathNodes leaf).map b.tree).flatten := by rw [add_assoc, ← hall, Blocks.blocks, add_assoc]

/-- A block is placed on the path of its leaf. -/
theorem onPath_tree (h : Placing p b leaf placed left) (hleaf : leaf.toNat < p.leaves) (hon : OnPath p b.tree) :
    OnPath p (tree p b leaf placed) := by
  obtain ⟨hmap, hout⟩ := h.tree_path hleaf
  intro i hi x hx ho
  by_cases hin : i ∈ p.pathNodes leaf
  · obtain ⟨d, hd, rfl⟩ := List.getElem_of_mem hin
    have hd' : d < placed.length := by rw [h.length, ← p.pathNodes_length leaf]; exact hd
    have hbucket := congrArg (·[d]?) hmap
    simp only [List.getElem?_map, List.getElem?_eq_getElem hd, List.getElem?_eq_getElem hd', Option.map_some,
      Option.some.injEq] at hbucket
    have hx' : x ∈ occ (fillBucket p placed[d]) := mem_occ.mpr ⟨hbucket ▸ hx, ho⟩
    rw [occ_fillBucket (h.placed_occupied _ (List.getElem_mem hd')), Multiset.mem_coe] at hx'
    obtain ⟨y, hy, rfl⟩ := List.mem_map.mp hx'
    rw [p.pathNodes_getElem hd]
    exact h.onPath d hd' y hy
  · rw [hout i hin] at hx
    exact hon i hi x hx ho

end Placing

theorem Sound.evict {b : Blocks ρ} (h : Sound p b) {leaf : UInt32} (hleaf : leaf.toNat < p.leaves) :
    ∃ b', Blocks.evict (p.pathNodes leaf) b = (.ok (), b') ∧ Evicted p b b' := by
  have hc := h.shape.controller
  have hpl := h.placing hleaf
  have hkeep := evict_keeps (ρ := ρ) (p.pathNodes_lt hleaf) (p.pathNodes_length leaf) b h.shape
  simp only [Blocks.evict, Eff.get_bind, hc.params, Eff.ite_apply] at hkeep ⊢
  generalize evicted p (p.pathNodes leaf) b.stash ((p.pathNodes leaf).map b.tree) = out at hpl hkeep ⊢
  obtain ⟨hcount, hfits⟩ := hpl.fits
  have hfree := freeSlots_add (keptStash out.2 b.stash)
  rw [keptStash_length, hc.stash] at hfree
  rw [if_neg (by omega)] at hkeep ⊢
  have hblocks := hpl.blocks_eq hleaf
  rw [← hpl.occ_stash] at hblocks
  have hpar : b.params = p := hc.params
  simp only [Eff.modify_apply, hpar] at hkeep ⊢
  refine ⟨_, rfl, ⟨⟨hkeep, fun x hx => h.leaf_lt x (hblocks ▸ hx), hpl.onPath_tree hleaf h.onPath⟩,
    ⟨insertAll (leftOver b.stash.length out.2) (keptStash out.2 b.stash), by simp only [hpar]⟩, hblocks, ?_⟩⟩
  · have hcard := congrArg Multiset.card hpl.occ_stash
    rw [card_occ, Multiset.coe_card, List.length_map] at hcard
    exact hcard.trans_le hpl.left_le

end BpirOram
