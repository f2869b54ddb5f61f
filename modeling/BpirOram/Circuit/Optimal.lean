/-
  BpirOram.Circuit.Optimal — what an eviction plan is worth (`plan_eviction_placements`).

  A plan names candidates, stash slots first and then the path's slots; an assignment is any
  other choice of active candidates for the path's slots, each in a bucket that contains
  its leaf. The planner is the greedy choice over the numbered occupied blocks (`PlanOf`),
  and the buckets of a path are nested, so no assignment holds more (`fillLevels_max`).
  - `planEvictionPlacements_optimal`: the plan marks what it names, names each candidate at
    most once and where it may stand, and places as many as any assignment.
-/

import BpirOram.Circuit.Run

namespace BpirOram

open Lib

variable {p : OramParams}

/-! ## Marks -/

/-- One mark a candidate, and only active ones are marked. -/
structure Marked (candidates : List CircuitEvictionCandidate) (selected : List Ct.Choice) : Prop where
  length : selected.length = candidates.length
  active : ∀ x ∈ candidates.zip selected, x.2 = true → x.1.active = true

theorem Marked.active_of_getElem? {candidates : List CircuitEvictionCandidate} {selected : List Ct.Choice}
    (h : Marked candidates selected) {i : Nat} {candidate : CircuitEvictionCandidate} (hc : candidates[i]? = some candidate)
    (hs : selected[i]? = some true) : candidate.active = true :=
  h.active (candidate, true) (List.mem_of_getElem? (List.getElem?_zip_eq_some.mpr ⟨hc, hs⟩)) rfl

theorem scanCandidates_marks (fits : UInt32 → Ct.Choice) {l : List (CircuitEvictionCandidate × Ct.Choice)} (idx : Nat)
    (placed : Ct.Choice) (k : Nat) (h : ∀ x ∈ l, x.2 = true → x.1.active = true) :
    Marked (l.map (·.1)) (scanCandidates fits l idx placed k).1 := by
  induction l generalizing idx placed k with
  | nil => exact ⟨rfl, by intro x hx; cases hx⟩
  | cons c l ih =>
    obtain ⟨candidate, selected⟩ := c
    have htail := ih (idx + 1) (placed || (candidate.active && !selected) && (!placed && fits candidate.metaSlot.leaf))
      (Ct.cmov k idx ((candidate.active && !selected) && (!placed && fits candidate.metaSlot.leaf)))
      fun x hx => h x (List.mem_cons_of_mem _ hx)
    refine ⟨congrArg (· + 1) htail.length, fun x hx hmark => ?_⟩
    rcases List.mem_cons.mp hx with rfl | hx
    · rcases Bool.or_eq_true_iff.mp hmark with hold | hnew
      · exact h (candidate, selected) List.mem_cons_self hold
      · simp only [Bool.and_eq_true] at hnew
        exact hnew.1.1
    · exact htail.active x hx hmark

theorem Marked.placeBucket (fits : UInt32 → Ct.Choice) {candidates : List CircuitEvictionCandidate} {selected : List Ct.Choice}
    (z : Nat) (h : Marked candidates selected) : Marked candidates (placeBucket fits candidates z selected).2 := by
  induction z generalizing selected with
  | zero => exact h
  | succ z ih =>
    have hscan := scanCandidates_marks fits (l := candidates.zip selected) 0 false 0 h.active
    rw [List.map_fst_zip (by rw [h.length])] at hscan
    exact ih hscan

theorem Marked.placeLevels {candidates : List CircuitEvictionCandidate} {selected : List Ct.Choice} (depth : Nat)
    (path : List Nat) (h : Marked candidates selected) : Marked candidates (placeLevels p candidates depth path selected).2 := by
  induction path generalizing depth with
  | nil => exact h
  | cons node path ih => exact (ih (depth + 1)).placeBucket _ _

theorem marked_none (candidates : List CircuitEvictionCandidate) :
    Marked candidates (List.replicate candidates.length false) := by
  refine ⟨List.length_replicate, fun x hx hmark => ?_⟩
  have hfalse := List.eq_of_mem_replicate (List.of_mem_zip hx).2
  rw [hfalse] at hmark
  cases hmark

/-! ## Plans and assignments -/

/-- The candidates a plan names, slot by slot. -/
def CircuitEvictionPlan.named (plan : CircuitEvictionPlan) : List Nat :=
  (plan.placements.flatten.filter (·.occupied)).map (·.candidateIdx)

/-- The candidate is active, and the path's node at `depth` contains its leaf. -/
def MayStand (p : OramParams) (leaf : UInt32) (candidates : List CircuitEvictionCandidate) (depth idx : Nat) : Prop :=
  ∃ candidate node, candidates[idx]? = some candidate ∧ candidate.active = true ∧
    (p.pathNodes leaf)[depth]? = some node ∧ p.nodeContainsLeaf depth node candidate.metaSlot.leaf = true

/-- Distinct active candidates for the slots of the path, bucket by bucket. -/
structure Assignment (p : OramParams) (leaf : UInt32) (candidates : List CircuitEvictionCandidate)
    (assigned : List (List Nat)) : Prop where
  buckets : assigned.length = p.height
  slots : ∀ bucket ∈ assigned, bucket.length ≤ p.bucketSize
  distinct : assigned.flatten.Nodup
  mayStand : ∀ depth bucket, assigned[depth]? = some bucket → ∀ idx ∈ bucket, MayStand p leaf candidates depth idx

/-- What a plan owes: it marks what it names, once each; each where it may stand; and no
    assignment holds more, nor has a free slot a candidate left for it. -/
structure OptimalPlan (p : OramParams) (leaf : UInt32) (plan : CircuitEvictionPlan) : Prop where
  buckets : plan.placements.length = p.height ∧ ∀ bucket ∈ plan.placements, bucket.length = p.bucketSize
  mayStand : ∀ depth bucket, plan.placements[depth]? = some bucket → ∀ placement ∈ bucket, placement.occupied = true →
    MayStand p leaf plan.candidates depth placement.candidateIdx
  selected : ∀ idx < plan.candidates.length, (plan.selected[idx]? = some true ∧ plan.named.count idx = 1) ∨
    (plan.selected[idx]? = some false ∧ plan.named.count idx = 0)
  most : ∀ assigned, Assignment p leaf plan.candidates assigned → assigned.flatten.length ≤ plan.named.length
  full : ∀ depth bucket, plan.placements[depth]? = some bucket → (∃ placement ∈ bucket, placement.occupied = false) →
    ∀ idx, plan.selected[idx]? = some false → ¬ MayStand p leaf plan.candidates depth idx

/-! ## The greedy choice by its numbers -/

theorem named_toPlacements (z : Nat) (placed : List (List (Nat × OramBlock))) :
    ((placed.map (toPlacements z)).flatten.filter (·.occupied)).map (·.candidateIdx) = placed.flatten.map (·.1) := by
  induction placed with
  | nil => rfl
  | cons taken placed ih =>
    have htaken : ((toPlacements z taken).filter (·.occupied)).map (·.candidateIdx) = taken.map (·.1) := by
      rw [toPlacements, List.filter_append, List.filter_replicate, if_neg (by simp [CircuitEvictionPlacement.dummy]),
        List.append_nil, List.filter_eq_self.mpr, List.map_map]
      · rfl
      · intro x hx
        obtain ⟨y, -, rfl⟩ := List.mem_map.mp hx
        rfl
    rw [List.map_cons, List.flatten_cons, List.filter_append, List.map_append, htaken, ih, List.flatten_cons, List.map_append]

section
variable {stash : List OramBlock} {buckets : List (List OramBlock)}

theorem mem_pool_iff {i : Nat} {b : OramBlock} :
    (i, b) ∈ pool stash buckets ↔ (stash ++ buckets.flatten)[i]? = some b ∧ b.occupied = true := by
  refine ⟨fun h => mem_pool h, fun ⟨hb, ho⟩ => ?_⟩
  have hany := any_unselected ((stash ++ buckets.flatten).map fun b => (b, false)) 0 i
  rw [Nat.zero_add, List.getElem?_map, hb] at hany
  obtain ⟨x, hx, hxi⟩ := List.any_eq_true.mp (hany.trans (by simp [ho]))
  have hxi : x.1 = i := by simpa using hxi
  have hxb := (mem_pool hx).1
  rw [hxi, hb] at hxb
  rw [show (i, b) = x from Prod.ext hxi.symm (Option.some.inj hxb)]
  exact hx

theorem pool_nodup (stash : List OramBlock) (buckets : List (List OramBlock)) :
    ((pool stash buckets).map (·.1)).Nodup := by
  have hlt : (pool stash buckets).Pairwise fun x y => x.1 < y.1 := unselected_pairwise _ _
  exact List.pairwise_map.mpr (hlt.imp fun h => Nat.ne_of_lt h)

/-- A numbered block fits a level if and only if its candidate may stand there. -/
theorem mayStand_iff {leaf : UInt32} (hleaves : ∀ x ∈ stash ++ buckets.flatten, x.occupied = true → x.leaf.toNat < p.leaves)
    {depth idx : Nat} :
    MayStand p leaf ((stash ++ buckets.flatten).map stashCandidate) depth idx ↔
      ∃ b f, (idx, b) ∈ pool stash buckets ∧ (levelFits p 0 (p.pathNodes leaf))[depth]? = some f ∧ f (idx, b) = true := by
  have hlevel : ∀ node, (p.pathNodes leaf)[depth]? = some node →
      (levelFits p 0 (p.pathNodes leaf))[depth]? = some (fitsBlock (nodeContainsLeafChoice p depth node)) := by
    intro node hnode
    obtain ⟨hd, rfl⟩ := List.getElem?_eq_some_iff.mp hnode
    rw [List.getElem?_eq_getElem (by rwa [levelFits_length]), levelFits_getElem p 0 _ _ hd, Nat.zero_add]
  constructor
  · rintro ⟨candidate, node, hc, ho, hnode, hin⟩
    rw [List.getElem?_map, Option.map_eq_some_iff] at hc
    obtain ⟨b, hb, rfl⟩ := hc
    refine ⟨b, _, mem_pool_iff.mpr ⟨hb, ho⟩, hlevel node hnode, ?_⟩
    rw [fitsBlock, nodeContainsLeafChoice_eq (hleaves b (List.mem_of_getElem? hb) ho)]
    exact hin
  · rintro ⟨b, f, hb, hf, hfit⟩
    obtain ⟨hb, ho⟩ := mem_pool_iff.mp hb
    have hd : depth < (p.pathNodes leaf).length := by
      rw [← levelFits_length p 0]
      exact (List.getElem?_eq_some_iff.mp hf).1
    have hnode := List.getElem?_eq_getElem hd
    rw [hlevel _ hnode] at hf
    rw [← Option.some.inj hf, fitsBlock, nodeContainsLeafChoice_eq (hleaves b (List.mem_of_getElem? hb) ho)] at hfit
    exact ⟨stashCandidate b, _, by rw [List.getElem?_map, hb]; rfl, ho, hnode, hfit⟩

end

namespace PlanOf

variable {leaf : UInt32} {stash : List OramBlock} {buckets : List (List OramBlock)} {plan : CircuitEvictionPlan}

theorem named_eq (h : PlanOf p (p.pathNodes leaf) stash buckets plan) :
    plan.named = (evicted p (p.pathNodes leaf) stash buckets).1.flatten.map (·.1) := by
  rw [CircuitEvictionPlan.named, h.placements, named_toPlacements]

/-- The pool is what is named and what is left. -/
theorem pool_perm (h : PlanOf p (p.pathNodes leaf) stash buckets plan) :
    ((pool stash buckets).map (·.1)).Perm (plan.named ++ (evicted p (p.pathNodes leaf) stash buckets).2.map (·.1)) := by
  rw [h.named_eq, ← List.map_append]
  exact (fillLevels_perm p.bucketSize (levelFits p 0 (p.pathNodes leaf)) _).map _

/-- Every number is named once, left once, or stands for no block. -/
theorem count_named (h : PlanOf p (p.pathNodes leaf) stash buckets plan) (idx : Nat) :
    plan.named.count idx + ((evicted p (p.pathNodes leaf) stash buckets).2.map (·.1)).count idx
      = if idx ∈ (pool stash buckets).map (·.1) then 1 else 0 := by
  rw [← List.count_append, ← h.pool_perm.count_eq]
  by_cases hin : idx ∈ (pool stash buckets).map (·.1)
  · rw [if_pos hin, List.count_eq_one_of_mem (pool_nodup stash buckets) hin]
  · rw [if_neg hin, List.count_eq_zero.mpr hin]

theorem exists_mark (h : PlanOf p (p.pathNodes leaf) stash buckets plan) {idx : Nat}
    (hidx : idx < (stash ++ buckets.flatten).length) : ∃ mark, plan.selected[idx]? = some mark :=
  ⟨_, List.getElem?_eq_getElem (h.selected_length ▸ hidx)⟩

/-- What is left is what is active and not marked. -/
theorem mem_left_iff (h : PlanOf p (p.pathNodes leaf) stash buckets plan) {idx : Nat} {b : OramBlock}
    (hb : (stash ++ buckets.flatten)[idx]? = some b) (ho : b.occupied = true) :
    idx ∈ (evicted p (p.pathNodes leaf) stash buckets).2.map (·.1) ↔ plan.selected[idx]? = some false := by
  have hany := any_unselected ((stash ++ buckets.flatten).zip plan.selected) 0 idx
  obtain ⟨mark, hs⟩ := h.exists_mark (List.getElem?_eq_some_iff.mp hb).1
  have hzip : ((stash ++ buckets.flatten).zip plan.selected)[idx]? = some (b, mark) :=
    List.getElem?_zip_eq_some.mpr ⟨hb, hs⟩
  rw [h.left, Nat.zero_add, hzip, Option.any_some, ho, Bool.true_and] at hany
  rw [hs]
  constructor
  · intro hin
    obtain ⟨x, hx, rfl⟩ := List.mem_map.mp hin
    rw [List.any_eq_true.mpr ⟨x, hx, by simp⟩] at hany
    cases mark with
    | false => rfl
    | true => cases hany
  · intro hfalse
    rw [Option.some.inj hfalse] at hany
    obtain ⟨x, hx, hxi⟩ := List.any_eq_true.mp hany
    exact List.mem_map.mpr ⟨x, hx, by simpa using hxi⟩

theorem selected_iff (h : PlanOf p (p.pathNodes leaf) stash buckets plan) (hmarks : Marked plan.candidates plan.selected)
    {idx : Nat} (hidx : idx < plan.candidates.length) :
    (plan.selected[idx]? = some true ∧ plan.named.count idx = 1) ∨
      (plan.selected[idx]? = some false ∧ plan.named.count idx = 0) := by
  have hcount := h.count_named idx
  have hblocks : idx < (stash ++ buckets.flatten).length := by rwa [h.candidates, List.length_map] at hidx
  have hb := List.getElem?_eq_getElem hblocks
  obtain ⟨mark, hs⟩ := h.exists_mark hblocks
  have hc : plan.candidates[idx]? = some (stashCandidate (stash ++ buckets.flatten)[idx]) := by
    rw [h.candidates, List.getElem?_map, hb]
    rfl
  cases ho : (stash ++ buckets.flatten)[idx].occupied with
  | false =>
    -- no block: nothing marks it and nothing names it
    have hnot : idx ∉ (pool stash buckets).map (·.1) := by
      intro hin
      obtain ⟨x, hx, rfl⟩ := List.mem_map.mp hin
      obtain ⟨hxb, hxo⟩ := mem_pool hx
      rw [hb] at hxb
      rw [← Option.some.inj hxb, ho] at hxo
      cases hxo
    rw [if_neg hnot] at hcount
    cases mark with
    | false => exact .inr ⟨hs, by omega⟩
    | true =>
      have hactive := hmarks.active_of_getElem? hc hs
      rw [show (stashCandidate _).active = _ from ho] at hactive
      cases hactive
  | true =>
    have hin : idx ∈ (pool stash buckets).map (·.1) :=
      List.mem_map.mpr ⟨(idx, (stash ++ buckets.flatten)[idx]), mem_pool_iff.mpr ⟨hb, ho⟩, rfl⟩
    have hleft := h.mem_left_iff hb ho
    rw [if_pos hin] at hcount
    cases mark with
    | false =>
      have hpos := List.count_pos_iff.mpr (hleft.mpr hs)
      exact .inr ⟨hs, by omega⟩
    | true =>
      have hzero := List.count_eq_zero.mpr fun hmem => absurd (hleft.mp hmem) (by rw [hs]; simp)
      exact .inl ⟨hs, by omega⟩

/-- A bucket of the plan, and the level that the greedy choice made of it. -/
theorem bucket_eq (h : PlanOf p (p.pathNodes leaf) stash buckets plan) {depth : Nat} {bucket : List CircuitEvictionPlacement}
    (hbucket : plan.placements[depth]? = some bucket) : ∃ taken f,
      (evicted p (p.pathNodes leaf) stash buckets).1[depth]? = some taken ∧ bucket = toPlacements p.bucketSize taken ∧
      (levelFits p 0 (p.pathNodes leaf))[depth]? = some f ∧ taken.length ≤ p.bucketSize ∧ ∀ x ∈ taken, f x = true := by
  rw [h.placements, List.getElem?_map, Option.map_eq_some_iff] at hbucket
  obtain ⟨taken, htaken, rfl⟩ := hbucket
  have hstands := fillLevels_stands p.bucketSize (levelFits p 0 (p.pathNodes leaf)) (pool stash buckets)
  obtain ⟨hd, he⟩ := List.getElem?_eq_some_iff.mp htaken
  have hd' : depth < (levelFits p 0 (p.pathNodes leaf)).length := hstands.length_eq ▸ hd
  have hlevel := List.forall₂_iff_get.mp hstands |>.2 depth hd' hd
  refine ⟨taken, _, htaken, rfl, List.getElem?_eq_getElem hd', ?_, ?_⟩
  · exact he ▸ hlevel.1
  · exact he ▸ hlevel.2

/-! ### Against any assignment -/

/-- The numbered blocks of an assignment. -/
def numbered (blocks : List OramBlock) (assigned : List (List Nat)) : List (List (Nat × OramBlock)) :=
  assigned.map fun bucket => bucket.map fun idx => (idx, blocks[idx]?.getD (.dummy 0))

theorem numbered_flatten (blocks : List OramBlock) (assigned : List (List Nat)) :
    (numbered blocks assigned).flatten.map (·.1) = assigned.flatten := by
  induction assigned with
  | nil => rfl
  | cons bucket assigned ih =>
    have hbucket : (bucket.map fun idx => (idx, blocks[idx]?.getD (.dummy 0))).map (·.1) = bucket := by
      rw [List.map_map]
      exact List.map_id' bucket
    rw [numbered, List.map_cons, List.flatten_cons, List.map_append, hbucket, List.flatten_cons]
    exact congrArg (bucket ++ ·) ih

/-- What an assignment puts into a bucket is pooled and fits the level. -/
theorem numbered_fits (h : PlanOf p (p.pathNodes leaf) stash buckets plan)
    (hleaves : ∀ x ∈ stash ++ buckets.flatten, x.occupied = true → x.leaf.toNat < p.leaves) {assigned : List (List Nat)}
    (ha : Assignment p leaf plan.candidates assigned) {depth : Nat} {bucket : List Nat}
    (hbucket : assigned[depth]? = some bucket) {idx : Nat} (hidx : idx ∈ bucket) :
    (idx, (stash ++ buckets.flatten)[idx]?.getD (.dummy 0)) ∈ pool stash buckets ∧
      ∃ f, (levelFits p 0 (p.pathNodes leaf))[depth]? = some f ∧
        f (idx, (stash ++ buckets.flatten)[idx]?.getD (.dummy 0)) = true := by
  have hstand := ha.mayStand depth bucket hbucket idx hidx
  rw [h.candidates] at hstand
  obtain ⟨b, f, hb, hf, hfit⟩ := (mayStand_iff hleaves).mp hstand
  rw [(mem_pool hb).1, Option.getD_some]
  exact ⟨hb, f, hf, hfit⟩

theorem length_le_named (h : PlanOf p (p.pathNodes leaf) stash buckets plan) (hleaf : leaf.toNat < p.leaves)
    (hleaves : ∀ x ∈ stash ++ buckets.flatten, x.occupied = true → x.leaf.toNat < p.leaves) {assigned : List (List Nat)}
    (ha : Assignment p leaf plan.candidates assigned) : assigned.flatten.length ≤ plan.named.length := by
  have hlen : (levelFits p 0 (p.pathNodes leaf)).length = (numbered (stash ++ buckets.flatten) assigned).length := by
    rw [levelFits_length, p.pathNodes_length, numbered, List.length_map, ha.buckets]
  have hstands : Stands p.bucketSize (levelFits p 0 (p.pathNodes leaf)) (numbered (stash ++ buckets.flatten) assigned) := by
    refine List.forall₂_iff_get.mpr ⟨hlen, fun depth hd hd' => ?_⟩
    have hdepth : depth < assigned.length := by rwa [numbered, List.length_map] at hd'
    have hbucket : assigned[depth]? = some assigned[depth] := List.getElem?_eq_getElem hdepth
    simp only [numbered, List.get_eq_getElem, List.getElem_map, List.length_map]
    refine ⟨ha.slots _ (List.mem_of_getElem? hbucket), fun x hx => ?_⟩
    obtain ⟨idx, hidx, rfl⟩ := List.mem_map.mp hx
    obtain ⟨-, f, hf, hfit⟩ := h.numbered_fits hleaves ha hbucket hidx
    rw [List.getElem?_eq_getElem hd] at hf
    rwa [Option.some.inj hf]
  have hflat := numbered_flatten (stash ++ buckets.flatten) assigned
  have hsub : (numbered (stash ++ buckets.flatten) assigned).flatten.Subperm (pool stash buckets) := by
    refine List.subperm_of_subset (List.Nodup.of_map (·.1) (hflat ▸ ha.distinct)) fun x hx => ?_
    obtain ⟨numberedBucket, hmem, hx⟩ := List.mem_flatten.mp hx
    obtain ⟨bucket, hbucket, rfl⟩ := List.mem_map.mp hmem
    obtain ⟨idx, hidx, rfl⟩ := List.mem_map.mp hx
    obtain ⟨depth, hdepth⟩ := List.mem_iff_getElem?.mp hbucket
    exact (h.numbered_fits hleaves ha hdepth hidx).1
  calc assigned.flatten.length
    _ = (numbered (stash ++ buckets.flatten) assigned).flatten.length := by rw [← hflat, List.length_map]
    _ ≤ (evicted p (p.pathNodes leaf) stash buckets).1.flatten.length :=
      fillLevels_max (levelFits_nested hleaf) hstands hsub
    _ = plan.named.length := by rw [h.named_eq, List.length_map]

theorem optimal (h : PlanOf p (p.pathNodes leaf) stash buckets plan) (hleaf : leaf.toNat < p.leaves)
    (hleaves : ∀ x ∈ stash ++ buckets.flatten, x.occupied = true → x.leaf.toNat < p.leaves)
    (hmarks : Marked plan.candidates plan.selected) : OptimalPlan p leaf plan where
  buckets := by
    refine ⟨?_, fun bucket hbucket => ?_⟩
    · rw [h.placements, List.length_map, evicted, fillLevels_length, levelFits_length, p.pathNodes_length]
    · obtain ⟨depth, hdepth⟩ := List.mem_iff_getElem?.mp hbucket
      obtain ⟨taken, -, -, rfl, -, hle, -⟩ := h.bucket_eq hdepth
      rw [toPlacements, List.length_append, List.length_map, List.length_replicate]
      omega
  mayStand depth bucket hbucket placement hplacement ho := by
    obtain ⟨taken, f, htaken, rfl, hf, -, hfits⟩ := h.bucket_eq hbucket
    rw [h.candidates, mayStand_iff hleaves]
    rcases List.mem_append.mp hplacement with hin | hdummy
    · obtain ⟨x, hx, rfl⟩ := List.mem_map.mp hin
      have hpool : x ∈ pool stash buckets :=
        (fillLevels_perm p.bucketSize (levelFits p 0 (p.pathNodes leaf)) _).mem_iff.mpr
          (List.mem_append_left _ (List.mem_flatten_of_mem (List.mem_of_getElem? htaken) hx))
      exact ⟨x.2, f, hpool, hf, hfits x hx⟩
    · rw [List.eq_of_mem_replicate hdummy] at ho
      cases ho
  selected idx hidx := h.selected_iff hmarks hidx
  most assigned ha := h.length_le_named hleaf hleaves ha
  full depth bucket hbucket hfree idx hidx := by
    obtain ⟨taken, f, htaken, rfl, hf, hle, -⟩ := h.bucket_eq hbucket
    rw [h.candidates, mayStand_iff hleaves]
    rintro ⟨b, g, hb, hg, hfit⟩
    rw [hf] at hg
    cases hg
    obtain ⟨hblock, ho⟩ := mem_pool hb
    obtain ⟨x, hx, rfl⟩ := List.mem_map.mp ((h.mem_left_iff hblock ho).mpr hidx)
    have hxb := (mem_pool ((fillLevels_sublist p.bucketSize (levelFits p 0 (p.pathNodes leaf)) _).subset hx)).1
    have hxeq : x = (x.1, b) := Prod.ext rfl (Option.some.inj (hxb.symm.trans hblock))
    rcases fillLevels_full hf htaken with hfull | hnone
    · obtain ⟨placement, hmem, hempty⟩ := hfree
      rw [toPlacements, hfull, Nat.sub_self, List.replicate_zero, List.append_nil] at hmem
      obtain ⟨y, -, rfl⟩ := List.mem_map.mp hmem
      cases hempty
    · have hno := hnone x hx
      rw [hxeq, hfit] at hno
      cases hno

end PlanOf

/-! ## The planner -/

/-- A slot of metadata as a block, to be pooled with the stash. -/
def CircuitMetaSlot.asBlock (slot : CircuitMetaSlot) : OramBlock :=
  { occupied := slot.occupied, logicalId := slot.logicalId, leaf := slot.leaf, payload := [] }

theorem planEvictionPlacements_marked {stash : List OramBlock} {path : List Nat} {pathMeta : List CircuitMetaBucket}
    {plan : CircuitEvictionPlan} (h : planEvictionPlacements p stash path pathMeta = .ok plan) :
    Marked plan.candidates plan.selected := by
  unfold planEvictionPlacements at h
  split at h
  · cases h
  · split at h
    · cases h
    · obtain ⟨⟨ofPath, indices⟩, -, h⟩ := bind_result_ok h
      cases h
      exact (marked_none _).placeLevels 0 path

/-- For every path, path metadata of the path's shape and full stash array, the planner
    ends well, and its plan is optimal for the stash and the path. -/
theorem planEvictionPlacements_optimal {leaf : UInt32} (hleaf : leaf.toNat < p.leaves) {stash : List OramBlock}
    (hstash : stash.length = p.stashCapacity) {pathMeta : List CircuitMetaBucket} (hpath : pathMeta.length = p.height)
    (hslots : ∀ bucket ∈ pathMeta, bucket.slots.length = p.bucketSize)
    (hstashLeaves : ∀ x ∈ stash, x.occupied = true → x.leaf.toNat < p.leaves)
    (hpathLeaves : ∀ bucket ∈ pathMeta, ∀ slot ∈ bucket.slots, slot.occupied = true → slot.leaf.toNat < p.leaves) :
    ∃ plan, planEvictionPlacements p stash (p.pathNodes leaf) pathMeta = .ok plan ∧
      plan.candidates = stash.map stashCandidate ++
        (pathMeta.flatMap (·.slots)).map (fun slot => { metaSlot := slot, active := slot.occupied }) ∧
      OptimalPlan p leaf plan := by
  have hmeta : pathMeta = (pathMeta.map fun bucket => bucket.slots.map (·.asBlock)).map
      fun bucket => { slots := bucket.map (·.metaSlot) } := by
    rw [List.map_map]
    refine (List.map_id' pathMeta).symm.trans (List.map_congr_left fun bucket _ => ?_)
    simp only [Function.comp_apply, List.map_map]
    exact congrArg CircuitMetaBucket.mk (List.map_id' bucket.slots).symm
  have hflatten : (pathMeta.map fun bucket => bucket.slots.map (·.asBlock)).flatten
      = (pathMeta.flatMap (·.slots)).map (·.asBlock) := by
    rw [List.flatMap, List.map_flatten, List.map_map]
    rfl
  have hbuckets : ∀ bucket ∈ pathMeta.map (fun bucket => bucket.slots.map (·.asBlock)), bucket.length = p.bucketSize := by
    intro bucket hbucket
    obtain ⟨metaBucket, hin, rfl⟩ := List.mem_map.mp hbucket
    rw [List.length_map, hslots metaBucket hin]
  obtain ⟨plan, hplan, hof⟩ := plan_eq (p.pathNodes_length leaf) (by rw [List.length_map, hpath]) hstash hbuckets
  rw [← hmeta] at hplan
  refine ⟨plan, hplan, ?_, hof.optimal hleaf (fun x hx ho => ?_) ?_⟩
  · rw [hof.candidates, List.map_append, hflatten, List.map_map]
    rfl
  · rcases List.mem_append.mp hx with hin | hin
    · exact hstashLeaves x hin ho
    · rw [hflatten] at hin
      obtain ⟨slot, hslot, rfl⟩ := List.mem_map.mp hin
      obtain ⟨bucket, hbucket, hin⟩ := List.mem_flatMap.mp hslot
      exact hpathLeaves bucket hbucket slot hin ho
  · exact planEvictionPlacements_marked hplan

/-- A block of the stash for the other leaf, one in the root for this leaf, which goes down. -/
theorem planEvictionPlacements_optimal_small : ∃ plan,
    planEvictionPlacements smallParams [⟨true, 0, 1, [7]⟩, .dummy 1] (smallParams.pathNodes 0)
      [⟨[.real 1 0]⟩, ⟨[.dummy]⟩] = .ok plan ∧
    plan.candidates = [⟨.real 0 1, true⟩, ⟨.dummy, false⟩, ⟨.real 1 0, true⟩, ⟨.dummy, false⟩] ∧
    OptimalPlan smallParams 0 plan :=
  planEvictionPlacements_optimal (by decide) (by decide) (by decide) (by decide) (by decide) (by decide)

end BpirOram
