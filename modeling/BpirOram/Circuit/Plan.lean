/-
  BpirOram.Circuit.Plan — the eviction planner of `circuit.rs`.

  An eviction pools the stash and the buckets of one path and places the pool again, the
  deepest bucket first, each slot taking the first candidate that may stand there. The
  planner scans every candidate for every slot; `placeLevels_eq` says that what it finds
  is the greedy filling of nested levels (`Lib.Greedy`) by the numbered occupied blocks.
-/

import BpirOram.Circuit.Bucket
import BpirOram.Params
import BpirOram.Lib.Greedy

namespace BpirOram

open Lib

structure CircuitEvictionCandidate where
  metaSlot : CircuitMetaSlot
  active : Ct.Choice
  deriving DecidableEq, Repr

structure CircuitEvictionPlacement where
  candidateIdx : Nat
  occupied : Ct.Choice
  deriving DecidableEq, Repr

def CircuitEvictionPlacement.dummy : CircuitEvictionPlacement := { candidateIdx := 0, occupied := false }

structure CircuitEvictionPlan where
  candidates : List CircuitEvictionCandidate
  placements : List (List CircuitEvictionPlacement)
  selected : List Ct.Choice
  pathCandidateIndices : List (List Nat)
  deriving DecidableEq, Repr

def nodeContainsLeafChoice (p : OramParams) (depth nodeIdx : Nat) (leaf : UInt32) : Ct.Choice :=
  let safeLeaf := UInt32.ofNat (leaf.toNat &&& (p.leaves - 1))
  p.nodeIndex depth safeLeaf == nodeIdx

/-- One slot: the first candidate that is active, not yet selected and fits is named and
    marked; every candidate is visited. -/
def scanCandidates (fits : UInt32 → Ct.Choice) :
    List (CircuitEvictionCandidate × Ct.Choice) → Nat → Ct.Choice → Nat → List Ct.Choice × Ct.Choice × Nat
  | [], _, placed, placementIdx => ([], placed, placementIdx)
  | (candidate, selected) :: rest, candidateIdx, placed, placementIdx =>
    let canPlace := (candidate.active && !selected) && (!placed && fits candidate.metaSlot.leaf)
    let tail := scanCandidates fits rest (candidateIdx + 1) (placed || canPlace)
      (Ct.cmov placementIdx candidateIdx canPlace)
    ((selected || canPlace) :: tail.1, tail.2)

/-- The slots of one bucket. -/
def placeBucket (fits : UInt32 → Ct.Choice) (candidates : List CircuitEvictionCandidate) :
    Nat → List Ct.Choice → List CircuitEvictionPlacement × List Ct.Choice
  | 0, selected => ([], selected)
  | z + 1, selected =>
    let scan := scanCandidates fits (candidates.zip selected) 0 false 0
    let tail := placeBucket fits candidates z scan.1
    ({ candidateIdx := scan.2.2, occupied := scan.2.1 } :: tail.1, tail.2)

/-- The buckets from `depth` down, the last one first. -/
def placeLevels (p : OramParams) (candidates : List CircuitEvictionCandidate) :
    Nat → List Nat → List Ct.Choice → List (List CircuitEvictionPlacement) × List Ct.Choice
  | _, [], selected => ([], selected)
  | depth, nodeIdx :: path, selected =>
    let deeper := placeLevels p candidates (depth + 1) path selected
    let bucket := placeBucket (nodeContainsLeafChoice p depth nodeIdx) candidates p.bucketSize deeper.2
    (bucket.1 :: deeper.1, bucket.2)

def stashCandidate (block : OramBlock) : CircuitEvictionCandidate :=
  { metaSlot := { occupied := block.occupied, logicalId := block.logicalId, leaf := block.leaf }
    active := block.occupied }

/-- The candidates of the path's buckets and their numbers, from `candidateIdx` on. -/
def pathCandidates (bucketSize : Nat) :
    Nat → Nat → List CircuitMetaBucket → Result (List CircuitEvictionCandidate × List (List Nat))
  | _, _, [] => .ok ([], [])
  | depth, candidateIdx, bucket :: pathMeta =>
    if bucket.slots.length ≠ bucketSize then
      .error (.invalidInput
        s!"metadata bucket at depth {depth} has {bucket.slots.length} slots, expected {bucketSize}")
    else do
      let (candidates, indices) ← pathCandidates bucketSize (depth + 1) (candidateIdx + bucket.slots.length) pathMeta
      .ok (bucket.slots.map (fun slot => { metaSlot := slot, active := slot.occupied }) ++ candidates,
        List.range' candidateIdx bucket.slots.length :: indices)

def planEvictionPlacements (p : OramParams) (stash : List OramBlock) (path : List Nat)
    (pathMeta : List CircuitMetaBucket) : Result CircuitEvictionPlan := do
  if path.length ≠ p.height ∨ pathMeta.length ≠ p.height then
    .error (.invalidInput "eviction path metadata length does not match tree height")
  else if stash.length ≠ p.stashCapacity then
    .error (.invalidInput s!"stash slots {stash.length} != stash_capacity {p.stashCapacity}")
  else
    let (ofPath, pathCandidateIndices) ← pathCandidates p.bucketSize 0 stash.length pathMeta
    let candidates := stash.map stashCandidate ++ ofPath
    let levels := placeLevels p candidates 0 path (List.replicate candidates.length false)
    .ok { candidates, placements := levels.1, selected := levels.2, pathCandidateIndices }

namespace CircuitEvictionPlan

/-- `active and selected`. -/
def isSelected (plan : CircuitEvictionPlan) (idx : Nat) : Ct.Choice :=
  (plan.candidates[idx]?.any (·.active)) && plan.selected.getD idx false

/-- `active and not selected`: a path candidate to be put back into the stash. -/
def isLeftOver (plan : CircuitEvictionPlan) (idx : Nat) : Ct.Choice :=
  (plan.candidates[idx]?.any (·.active)) && !plan.selected.getD idx false

end CircuitEvictionPlan

/-! ## The scan is a greedy choice -/

/-- The numbered blocks that are occupied and not selected. -/
def unselected : List (OramBlock × Ct.Choice) → Nat → List (Nat × OramBlock)
  | [], _ => []
  | (block, selected) :: rest, idx =>
    if block.occupied && !selected then (idx, block) :: unselected rest (idx + 1) else unselected rest (idx + 1)

/-- Does a numbered block fit? -/
def fitsBlock (fits : UInt32 → Ct.Choice) (x : Nat × OramBlock) : Bool := fits x.2.leaf

/-- The candidates that stand for the blocks. -/
def candidatesOf (slots : List (OramBlock × Ct.Choice)) : List (CircuitEvictionCandidate × Ct.Choice) :=
  slots.map fun s => (stashCandidate s.1, s.2)

theorem scanCandidates_placed (fits : UInt32 → Ct.Choice) (slots : List (OramBlock × Ct.Choice)) (idx k : Nat) :
    scanCandidates fits (candidatesOf slots) idx true k = (slots.map (·.2), true, k) := by
  induction slots generalizing idx with
  | nil => rfl
  | cons s slots ih =>
    simp only [candidatesOf, List.map_cons, scanCandidates] at ih ⊢
    simp [ih]

/-- One scan: it finds what `find?` finds among the unselected blocks, and takes it out. -/
theorem scanCandidates_eq (fits : UInt32 → Ct.Choice) (slots : List (OramBlock × Ct.Choice)) (idx k : Nat) :
    match (unselected slots idx).find? (fitsBlock fits) with
    | none => scanCandidates fits (candidatesOf slots) idx false k = (slots.map (·.2), false, k)
    | some x => ∃ sel, scanCandidates fits (candidatesOf slots) idx false k = (sel, true, x.1) ∧
        sel.length = slots.length ∧
        unselected ((slots.map (·.1)).zip sel) idx = (unselected slots idx).eraseP (fitsBlock fits) := by
  induction slots generalizing idx with
  | nil => rfl
  | cons s slots ih =>
    obtain ⟨block, selected⟩ := s
    have hrec := ih (idx + 1)
    have hscan : scanCandidates fits (candidatesOf ((block, selected) :: slots)) idx false k
        = let canPlace := (block.occupied && !selected) && fits block.leaf
          let tail := scanCandidates fits (candidatesOf slots) (idx + 1) canPlace (Ct.cmov k idx canPlace)
          ((selected || canPlace) :: tail.1, tail.2) := by
      simp [candidatesOf, scanCandidates, stashCandidate]
    rw [hscan]
    by_cases hopen : (block.occupied && !selected) = true
    · simp only [unselected, hopen, if_true, Bool.true_and]
      by_cases hfit : fits block.leaf = true
      · -- this block is the first that fits
        rw [List.find?_cons_of_pos (show fitsBlock fits (idx, block) = true from hfit)]
        simp only [hfit, Bool.or_true, Ct.cmov_true, scanCandidates_placed]
        refine ⟨_, rfl, by simp, ?_⟩
        rw [List.eraseP_cons_of_pos (show fitsBlock fits (idx, block) = true from hfit), List.map_cons,
          List.zip_cons_cons, List.zip_map', unselected]
        simp
      · rw [List.find?_cons_of_neg (show ¬ fitsBlock fits (idx, block) = true from hfit)]
        simp only [Bool.not_eq_true] at hfit
        simp only [hfit, Bool.or_false, Ct.cmov_false]
        split at hrec
        · simp [hrec]
        · rename_i x hx
          obtain ⟨sel, h1, h2, h3⟩ := hrec
          refine ⟨selected :: sel, by rw [h1], by simp [h2], ?_⟩
          rw [List.eraseP_cons_of_neg (show ¬ fitsBlock fits (idx, block) = true by simp [fitsBlock, hfit]),
            List.map_cons, List.zip_cons_cons, unselected, if_pos hopen, h3]
    · simp only [unselected, hopen, Bool.false_and, Bool.or_false, Ct.cmov_false]
      simp only [Bool.false_eq_true, if_false]
      split at hrec
      · simp [hrec]
      · rename_i x hx
        obtain ⟨sel, h1, h2, h3⟩ := hrec
        refine ⟨selected :: sel, by rw [h1], by simp [h2], ?_⟩
        rw [List.map_cons, List.zip_cons_cons, unselected, if_neg hopen, h3]

/-- What a bucket's placements are when the greedy choice takes `taken`. -/
def toPlacements (z : Nat) (taken : List (Nat × OramBlock)) : List CircuitEvictionPlacement :=
  taken.map (fun x => { candidateIdx := x.1, occupied := true }) ++ List.replicate (z - taken.length) .dummy

theorem candidatesOf_zip {blocks : List OramBlock} {sel : List Ct.Choice} :
    candidatesOf (blocks.zip sel) = (blocks.map stashCandidate).zip sel := by
  rw [candidatesOf, List.zip_map_left]
  rfl

theorem placeBucket_eq (fits : UInt32 → Ct.Choice) (blocks : List OramBlock) (z : Nat) {sel : List Ct.Choice}
    (hs : sel.length = blocks.length) :
    (placeBucket fits (blocks.map stashCandidate) z sel).1
        = toPlacements z (fillLevel (fitsBlock fits) z (unselected (blocks.zip sel) 0)).1 ∧
      (placeBucket fits (blocks.map stashCandidate) z sel).2.length = blocks.length ∧
      unselected (blocks.zip (placeBucket fits (blocks.map stashCandidate) z sel).2) 0
        = (fillLevel (fitsBlock fits) z (unselected (blocks.zip sel) 0)).2 := by
  induction z generalizing sel with
  | zero => exact ⟨rfl, hs, rfl⟩
  | succ z ih =>
    have hscan := scanCandidates_eq fits (blocks.zip sel) 0 0
    have hmap1 : (blocks.zip sel).map (·.1) = blocks := List.map_fst_zip (by omega)
    have hmap2 : (blocks.zip sel).map (·.2) = sel := List.map_snd_zip (by omega)
    rw [candidatesOf_zip, hmap1, hmap2] at hscan
    simp only [placeBucket, fillLevel]
    split at hscan
    · rename_i hnone
      obtain ⟨h1, h2, h3⟩ := ih hs
      rw [hscan, hnone]
      refine ⟨?_, h2, ?_⟩
      · rw [h1]
        cases z with
        | zero => rfl
        | succ z => simp [fillLevel, hnone, toPlacements, List.replicate_succ, CircuitEvictionPlacement.dummy]
      · rw [h3]
        cases z with
        | zero => rfl
        | succ z => simp [fillLevel, hnone]
    · rename_i x hx
      obtain ⟨sel', h1, h2, h3⟩ := hscan
      have hl : sel'.length = blocks.length := by rw [h2, List.length_zip]; omega
      obtain ⟨i1, i2, i3⟩ := ih hl
      rw [h1, hx]
      refine ⟨?_, i2, ?_⟩
      · rw [i1, h3]
        simp [toPlacements]
      · rw [i3, h3]

/-- The predicates of the levels of a path from `depth` down. -/
def levelFits (p : OramParams) : Nat → List Nat → List (Nat × OramBlock → Bool)
  | _, [] => []
  | depth, nodeIdx :: path => fitsBlock (nodeContainsLeafChoice p depth nodeIdx) :: levelFits p (depth + 1) path

/-- The planner's placements are the greedy filling, and what it leaves unselected is what
    the greedy filling leaves. -/
theorem placeLevels_eq (p : OramParams) (blocks : List OramBlock) (depth : Nat) (path : List Nat)
    {sel : List Ct.Choice} (hs : sel.length = blocks.length) :
    (placeLevels p (blocks.map stashCandidate) depth path sel).1
        = (fillLevels p.bucketSize (levelFits p depth path) (unselected (blocks.zip sel) 0)).1.map
            (toPlacements p.bucketSize) ∧
      (placeLevels p (blocks.map stashCandidate) depth path sel).2.length = blocks.length ∧
      unselected (blocks.zip (placeLevels p (blocks.map stashCandidate) depth path sel).2) 0
        = (fillLevels p.bucketSize (levelFits p depth path) (unselected (blocks.zip sel) 0)).2 := by
  induction path generalizing depth with
  | nil => exact ⟨rfl, hs, rfl⟩
  | cons nodeIdx path ih =>
    obtain ⟨h1, h2, h3⟩ := ih (depth + 1)
    obtain ⟨b1, b2, b3⟩ := placeBucket_eq (nodeContainsLeafChoice p depth nodeIdx) blocks p.bucketSize h2
    simp only [placeLevels, levelFits, fillLevels, List.map_cons]
    rw [h3] at b1 b3
    exact ⟨by rw [b1, h1], b2, b3⟩

end BpirOram
