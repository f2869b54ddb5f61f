/-
  BpirOram.Stress.Agree — the stress simulator and the controller.

  The two evictions pick different blocks: the controller numbers its candidates and takes
  the first, the simulator's stash is shuffled by `swap_remove`. But the buckets of a path
  are nested, so how many blocks each bucket takes does not depend on which are picked
  (`ExhaustsAll.counts`), and the two agree on every count, on an overflow of the stash too.
-/

import BpirOram.Stress.Buckets
import BpirOram.Circuit.Run

namespace BpirOram

open Lib

variable {M P S ρ σ : Type} {p : OramParams}

/-! ## Leaves and nodes -/

/-- A node looks at the low bits of a label only. -/
theorem nodeIndex_safeLeaf (p : OramParams) {depth : Nat} (hd : depth < p.height) (leaf : UInt32) :
    p.nodeIndex depth (UInt32.ofNat (leaf.toNat &&& (p.leaves - 1))) = p.nodeIndex depth leaf := by
  have hbits : p.leafBits - depth + depth = p.leafBits := Nat.sub_add_cancel (Nat.le_of_lt_succ hd)
  have hsafe : (UInt32.ofNat (leaf.toNat &&& (p.leaves - 1))).toNat = leaf.toNat % 2 ^ p.leafBits := by
    have hlt := p.leaves_lt
    have hpos := Nat.two_pow_pos p.leafBits
    rw [p.leaves_eq] at hlt
    rw [UInt32.toNat_ofNat', p.leaves_eq, Nat.and_two_pow_sub_one_eq_mod,
      Nat.mod_eq_of_lt ((Nat.mod_lt _ hpos).trans hlt)]
  simp only [OramParams.nodeIndex, hsafe, Nat.one_shiftLeft, Nat.shiftRight_eq_div_pow, Nat.and_two_pow_sub_one_eq_mod]
  rw [show 2 ^ p.leafBits = 2 ^ (p.leafBits - depth) * 2 ^ depth by rw [← Nat.pow_add, hbits], Nat.mod_mul_right_div_self,
    Nat.mod_mod]

theorem nodeContainsLeaf_eq_choice {depth : Nat} (hd : depth < p.height) (nodeIdx : Nat) (leaf : UInt32) :
    p.nodeContainsLeaf depth nodeIdx leaf = nodeContainsLeafChoice p depth nodeIdx leaf := by
  rw [OramParams.nodeContainsLeaf, nodeContainsLeafChoice, nodeIndex_safeLeaf p hd]

namespace SimTree

theorem path_nodes (p : OramParams) (leaf : UInt32) : (path p leaf).map (·.2) = p.pathNodes leaf := by
  rw [path, List.map_map]
  rfl

theorem mem_path {leaf : UInt32} {x : Nat × Nat} : x ∈ path p leaf ↔ x.1 < p.height ∧ x.2 = p.nodeIndex x.1 leaf := by
  simp only [path, List.mem_map, List.mem_range]
  constructor
  · rintro ⟨d, hd, rfl⟩
    exact ⟨hd, rfl⟩
  · rintro ⟨hd, he⟩
    exact ⟨x.1, hd, Prod.ext rfl he.symm⟩

theorem path_lt {leaf : UInt32} (hleaf : leaf.toNat < p.leaves) : ∀ x ∈ path p leaf, x.2 < p.bucketCount := by
  intro x hx
  obtain ⟨hd, he⟩ := mem_path.mp hx
  rw [he]
  exact p.nodeIndex_lt hd hleaf

theorem pathFits_eq (p : OramParams) (leaf : UInt32) : pathFits p (path p leaf)
    = (List.range p.height).map fun d block => p.nodeContainsLeaf d (p.nodeIndex d leaf) block.leaf := by
  rw [pathFits, path, List.map_map]
  rfl

/-- What may stand in a bucket of the path may stand in every bucket above it. -/
theorem pathFits_nested {leaf : UInt32} (hleaf : leaf.toNat < p.leaves) :
    (pathFits p (path p leaf)).Pairwise fun f g => ∀ block, g block = true → f block = true := by
  rw [pathFits_eq, List.pairwise_map]
  refine List.pairwise_lt_range.imp_of_mem fun hi hj hij block hfit => ?_
  rw [List.mem_range] at hi hj
  simp only [nodeContainsLeaf_eq_choice hi, nodeContainsLeaf_eq_choice hj, nodeContainsLeafChoice, beq_iff_eq] at hfit ⊢
  exact p.nodeIndex_anti (Nat.le_of_lt hij) hj (safeLeaf_lt p _) hleaf hfit

end SimTree

/-! ## An eviction of each -/

/-- The simulator's eviction pools the stash and the path, and fills the path again. -/
structure CircuitStressSim.Evicts (p : OramParams) (sim : CircuitStressSim) (leaf : UInt32) (levels : List (List SimBlock))
    (sim' : CircuitStressSim) : Prop where
  shape : sim'.Shape p
  positionMap : sim'.positionMap = sim.positionMap
  chosen : ExhaustsAll p.bucketSize (SimTree.pathFits p (SimTree.path p leaf))
    (sim.stash ++ (SimTree.path p leaf).flatMap fun x => sim.blocksAt x.2) levels sim'.stash
  buckets : (p.pathNodes leaf).map sim'.bucket = levels.map (SimTree.fillIds p.bucketSize)
  outside : ∀ i ∉ p.pathNodes leaf, sim'.bucket i = sim.bucket i

theorem CircuitStressSim.evictPath_run {sim : CircuitStressSim} (h : sim.Shape p) {leaf : UInt32}
    (hleaf : leaf.toNat < p.leaves) :
    ∃ sim' levels, sim.evictPath leaf = (.ok (), sim') ∧ sim.Evicts p leaf levels sim' := by
  have hlt := SimTree.path_lt hleaf
  have hn : ((SimTree.path p leaf).map (·.2)).Nodup := by
    rw [SimTree.path_nodes]
    exact p.pathNodes_nodup hleaf
  obtain ⟨us, t₁, hread, ht₁, hpos₁, hstash₁, hempty, hout₁⟩ := SimTree.readBuckets_run h hlt hn
  obtain ⟨levels, t₂, hwrite, ht₂, hpos₂, hchosen, hbuckets, hout₂⟩ := SimTree.writeFromEnd_run ht₁ hlt hn hempty
  have hrun : (SimTree.readPathIntoStash leaf >>= fun _ => SimTree.writePathFromStash leaf) sim.toSimTree = (.ok (), t₂) := by
    have hread' : SimTree.readPathIntoStash leaf sim.toSimTree = (.ok (), t₁) := by
      rw [SimTree.readPathIntoStash, Eff.get_bind, h.params, Eff.bind_ok hread]
      rfl
    rw [Eff.bind_ok hread', SimTree.writePathFromStash, Eff.get_bind, ht₁.params, hwrite]
  refine ⟨{ sim with toSimTree := t₂ }, levels, Eff.zoom_of hrun, ?_⟩
  exact
    { shape := ht₂
      positionMap := hpos₂.trans hpos₁
      chosen := hstash₁ ▸ hchosen
      buckets := by
        rw [← hbuckets, ← SimTree.path_nodes p leaf, List.map_map]
        rfl
      outside := fun i hi => by
        rw [← SimTree.path_nodes p leaf] at hi
        exact (hout₂ i hi).trans (hout₁ i hi) }

/-- A bucket the simulator filled holds as many ids as it took. -/
theorem CircuitStressSim.Evicts.counts {sim sim' : CircuitStressSim} {leaf : UInt32} {levels : List (List SimBlock)}
    (h : sim.Evicts p leaf levels sim') (hs : sim.Shape p) :
    (p.pathNodes leaf).map (fun i => (sim'.bucket i).countP (· ≠ emptyBlock)) = levels.map List.length := by
  have hid : ∀ taken ∈ levels, ∀ block ∈ taken, block.id ≠ emptyBlock := by
    intro taken ht block hb he
    have hmem := h.chosen.perm.mem_iff.mpr (List.mem_append_left _ (List.mem_flatten.mpr ⟨taken, ht, hb⟩))
    have hlt : block.id.toNat < sim.positionMap.length := by
      rcases List.mem_append.mp hmem with hmem | hmem
      · exact hs.stash block hmem
      · obtain ⟨x, -, hx⟩ := List.mem_flatMap.mp hmem
        exact SimTree.labelled_lt hs x.2 block hx
    have := hs.positionMap
    rw [he] at hlt
    omega
  have hcount : ∀ taken ∈ levels, (SimTree.fillIds p.bucketSize taken).countP (· ≠ emptyBlock) = taken.length := by
    intro taken ht
    have hzero : (List.replicate (p.bucketSize - taken.length) emptyBlock).countP (· ≠ emptyBlock) = 0 :=
      List.countP_eq_zero.mpr fun id hmem => by simp [List.eq_of_mem_replicate hmem]
    have hall : (taken.map (·.id)).countP (· ≠ emptyBlock) = (taken.map (·.id)).length :=
      List.countP_eq_length.mpr fun id hmem => by
        obtain ⟨block, hb, rfl⟩ := List.mem_map.mp hmem
        exact decide_eq_true (hid taken ht block hb)
    rw [SimTree.fillIds, List.countP_append, hzero, hall, List.length_map, Nat.add_zero]
  calc (p.pathNodes leaf).map (fun i => (sim'.bucket i).countP (· ≠ emptyBlock))
      = ((p.pathNodes leaf).map sim'.bucket).map (·.countP (· ≠ emptyBlock)) := by rw [List.map_map]; rfl
    _ = levels.map fun taken => (SimTree.fillIds p.bucketSize taken).countP (· ≠ emptyBlock) := by
        rw [h.buckets, List.map_map]
        rfl
    _ = levels.map List.length := List.map_congr_left hcount

/-- The controller's eviction, on any placement: it succeeds when what is left fits the stash. -/
theorem evict_counts {b : Blocks ρ} (h : b.Shape p) {leaf : UInt32} (hleaf : leaf.toNat < p.leaves) :
    let out := evicted p (p.pathNodes leaf) b.stash ((p.pathNodes leaf).map b.tree)
    (out.2.length ≤ p.stashCapacity → ∃ b', Blocks.evict (p.pathNodes leaf) b = (.ok (), b') ∧
      (p.pathNodes leaf).map (fun i => (b'.tree i).countP (·.occupied)) = out.1.map List.length ∧
      b'.stash.countP (·.occupied) = out.2.length) ∧
    (p.stashCapacity < out.2.length →
      Blocks.evict (p.pathNodes leaf) b = (.error (.stashOverflow out.2.length p.stashCapacity), b)) := by
  have hc := h.controller
  have hocc : ∀ x ∈ pool b.stash ((p.pathNodes leaf).map b.tree), x.2.occupied = true := fun x hx => (mem_pool hx).2
  have hperm : (pool b.stash ((p.pathNodes leaf).map b.tree)).Perm
      ((evicted p (p.pathNodes leaf) b.stash ((p.pathNodes leaf).map b.tree)).1.flatten
        ++ (evicted p (p.pathNodes leaf) b.stash ((p.pathNodes leaf).map b.tree)).2) := fillLevels_perm _ _ _
  have hsub : (evicted p (p.pathNodes leaf) b.stash ((p.pathNodes leaf).map b.tree)).2.Sublist
      (pool b.stash ((p.pathNodes leaf).map b.tree)) := fillLevels_sublist _ _ _
  have hlen : (evicted p (p.pathNodes leaf) b.stash ((p.pathNodes leaf).map b.tree)).1.length = p.height := by
    rw [evicted, fillLevels_length, levelFits_length, p.pathNodes_length]
  simp only [Blocks.evict, Eff.get_bind, hc.params, Eff.ite_apply]
  generalize evicted p (p.pathNodes leaf) b.stash ((p.pathNodes leaf).map b.tree) = out at hperm hsub hlen ⊢
  have hsum := congrArg Multiset.card (occ_kept_add_leftOver hsub)
  rw [Multiset.card_add, card_occ, Multiset.coe_card, Multiset.coe_card, List.length_map] at hsum
  have hfree := freeSlots_add (keptStash out.2 b.stash)
  rw [keptStash_length, hc.stash] at hfree
  constructor
  · intro hle
    rw [if_neg (by omega)]
    refine ⟨_, rfl, ?_, ?_⟩
    · have htaken : ∀ taken ∈ out.1, (fillBucket p taken).countP (·.occupied) = taken.length := by
        intro taken ht
        have hall : ∀ x ∈ taken, x.2.occupied = true := fun x hx =>
          hocc x (hperm.mem_iff.mpr (List.mem_append_left _ (List.mem_flatten.mpr ⟨taken, ht, hx⟩)))
        rw [← card_occ, occ_fillBucket hall, Multiset.coe_card, List.length_map]
      have hpath := (overwrite_zip_path b.tree (p.pathNodes_nodup hleaf)
        (show (p.pathNodes leaf).length = (out.1.map (fillBucket p)).length by rw [List.length_map, hlen, p.pathNodes_length])).1
      have hcounts := congrArg (List.map (List.countP (·.occupied))) hpath
      rw [List.map_map, List.map_map] at hcounts
      simp only [hc.params]
      exact hcounts.trans (List.map_congr_left htaken)
    · have hback : ∀ x ∈ leftOver b.stash.length out.2, x.occupied = true := by
        intro x hx
        obtain ⟨y, hy, rfl⟩ := List.mem_map.mp hx
        exact hocc y (hsub.subset (List.mem_of_mem_filter hy))
      rw [← card_occ, occ_insertAll hback (by omega), occ_kept_add_leftOver hsub, Multiset.coe_card, List.length_map]
  · intro hgt
    rw [if_pos (by omega), hsum]
    rfl

/-! ## Side by side -/

/-- A block as both know it: its id and its leaf. -/
def OramBlock.label (block : OramBlock) : Nat × UInt32 := (block.logicalId.toNat, block.leaf)

def SimBlock.label (block : SimBlock) : Nat × UInt32 := (block.id.toNat, block.leaf)

/-- The same ids under the same leaves, node by node and in the stash. -/
structure SamePlacement (p : OramParams) (t : SimTree) (tree : Nat → List OramBlock) (stash : List OramBlock) : Prop where
  nodes : ∀ i < p.bucketCount,
    (↑((t.blocksAt i).map SimBlock.label) : Multiset (Nat × UInt32)) = (occ (tree i)).map OramBlock.label
  stash : (↑(t.stash.map SimBlock.label) : Multiset (Nat × UInt32)) = (occ stash).map OramBlock.label

namespace SamePlacement

variable {t : SimTree} {tree : Nat → List OramBlock} {stash : List OramBlock} {leaf : UInt32}

theorem along (h : SamePlacement p t tree stash) {l : List (Nat × Nat)} (hlt : ∀ x ∈ l, x.2 < p.bucketCount) :
    (↑((l.flatMap fun x => t.blocksAt x.2).map SimBlock.label) : Multiset (Nat × UInt32))
      = (occ ((l.map (·.2)).map tree).flatten).map OramBlock.label := by
  induction l with
  | nil => rfl
  | cons x l ih =>
    rw [List.flatMap_cons, List.map_append, ← Multiset.coe_add, ih fun y hy => hlt y (List.mem_cons_of_mem _ hy),
      h.nodes x.2 (hlt x List.mem_cons_self), List.map_cons, List.map_cons, List.flatten_cons, occ_append, Multiset.map_add]

/-- What the two evictions choose from carries the same labels. -/
theorem pool_perm (h : SamePlacement p t tree stash) (hleaf : leaf.toNat < p.leaves) :
    ((pool stash ((p.pathNodes leaf).map tree)).map fun x => x.2.label).Perm
      ((t.stash ++ (SimTree.path p leaf).flatMap fun x => t.blocksAt x.2).map SimBlock.label) := by
  refine Multiset.coe_eq_coe.mp ?_
  have hpath := h.along (SimTree.path_lt hleaf)
  rw [SimTree.path_nodes] at hpath
  rw [List.map_append, ← Multiset.coe_add, hpath, h.stash, ← Multiset.map_add, ← map_snd_pool, Multiset.map_coe,
    List.map_map]
  rfl

/-- So each level may take as many of them. -/
theorem countP_levels (h : SamePlacement p t tree stash) (hleaf : leaf.toNat < p.leaves) :
    List.Forall₂ (fun f g => (pool stash ((p.pathNodes leaf).map tree)).countP f
        = (t.stash ++ (SimTree.path p leaf).flatMap fun x => t.blocksAt x.2).countP g)
      (levelFits p 0 (p.pathNodes leaf)) (SimTree.pathFits p (SimTree.path p leaf)) := by
  have hcount : ∀ contains : UInt32 → Bool, (pool stash ((p.pathNodes leaf).map tree)).countP (fitsBlock contains)
      = (t.stash ++ (SimTree.path p leaf).flatMap fun x => t.blocksAt x.2).countP (fun block => contains block.leaf) := by
    intro contains
    have hperm := (h.pool_perm hleaf).countP_eq fun label => contains label.2
    rwa [List.countP_map, List.countP_map] at hperm
  have hlen : (levelFits p 0 (p.pathNodes leaf)).length = (SimTree.pathFits p (SimTree.path p leaf)).length := by
    rw [levelFits_length, p.pathNodes_length, SimTree.pathFits_eq, List.length_map, List.length_range]
  refine List.forall₂_iff_get.mpr ⟨hlen, fun d hd hd' => ?_⟩
  have hd₀ : d < (p.pathNodes leaf).length := by rwa [levelFits_length] at hd
  have hheight : d < p.height := by rwa [p.pathNodes_length] at hd₀
  simp only [List.get_eq_getElem, levelFits_getElem p 0 _ hd hd₀, p.pathNodes_getElem, Nat.zero_add, hcount,
    SimTree.pathFits_eq, List.getElem_map, List.getElem_range, nodeContainsLeaf_eq_choice hheight]

end SamePlacement

/-- From the same placement the two evictions leave the same counts, or the controller
    reports the stash that the simulator is left with. -/
theorem evictPath_agrees {sim : CircuitStressSim} (hs : sim.Shape p) {b : Blocks ρ} (hb : b.Shape p)
    (hsame : SamePlacement p sim.toSimTree b.tree b.stash) {leaf : UInt32} (hleaf : leaf.toNat < p.leaves) :
    ∃ sim', sim.evictPath leaf = (.ok (), sim') ∧
      (sim'.stash.length ≤ p.stashCapacity → ∃ b', Blocks.evict (p.pathNodes leaf) b = (.ok (), b') ∧
        (p.pathNodes leaf).map (fun i => (b'.tree i).countP (·.occupied))
          = (p.pathNodes leaf).map (fun i => (sim'.bucket i).countP (· ≠ emptyBlock)) ∧
        b'.stash.countP (·.occupied) = sim'.stash.length) ∧
      (p.stashCapacity < sim'.stash.length →
        Blocks.evict (p.pathNodes leaf) b = (.error (.stashOverflow sim'.stash.length p.stashCapacity), b)) ∧
      (Sound p b → sim'.stash.length ≤ b.stash.countP (·.occupied)) := by
  obtain ⟨sim', levels, hrun, hev⟩ := CircuitStressSim.evictPath_run hs hleaf
  obtain ⟨hlevels, hrest⟩ := (fillLevels_exhausts p.bucketSize (levelFits p 0 (p.pathNodes leaf))
    (pool b.stash ((p.pathNodes leaf).map b.tree))).counts (levelFits_nested hleaf) (SimTree.pathFits_nested hleaf)
      hev.chosen (hsame.countP_levels hleaf)
  have hleft : (evicted p (p.pathNodes leaf) b.stash ((p.pathNodes leaf).map b.tree)).2.length = sim'.stash.length := by
    have hall := hrest (fun _ => true) (fun _ => true) (fun _ _ _ _ => rfl) (fun _ _ _ _ => rfl) (by
      rw [List.countP_true, List.countP_true]
      have hlen := (hsame.pool_perm hleaf).length_eq
      rwa [List.length_map, List.length_map] at hlen)
    rwa [List.countP_true, List.countP_true] at hall
  obtain ⟨hok, hover⟩ := evict_counts hb hleaf
  rw [hleft] at hok hover
  refine ⟨sim', hrun, fun hle => ?_, hover, fun hsound => hleft ▸ hsound.left_le hleaf⟩
  obtain ⟨b', hevict, hcounts, hstash⟩ := hok hle
  exact ⟨b', hevict, hcounts.trans (hlevels.trans (hev.counts hs).symm), hstash⟩

end BpirOram
