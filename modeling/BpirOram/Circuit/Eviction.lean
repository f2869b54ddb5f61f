/-
  BpirOram.Circuit.Eviction — evicting a path of pages is evicting a path of blocks.

  The planner works with candidate numbers: the stash slots first, then the path's slots
  bucket by bucket. `plan_eq` reads its plan back as the greedy choice over numbered
  blocks; the rest follows the plan through the stash and the overlays and ends in
  `Tracks.evict`.
-/

import BpirOram.Circuit.Removal

namespace BpirOram

open Lib

variable {ρ : Type} {p : OramParams}

/-! ## Numbered blocks -/

theorem unselected_append (l₁ l₂ : List (OramBlock × Ct.Choice)) (k : Nat) :
    unselected (l₁ ++ l₂) k = unselected l₁ k ++ unselected l₂ (k + l₁.length) := by
  induction l₁ generalizing k with
  | nil => rfl
  | cons s l₁ ih =>
    simp only [List.cons_append, unselected, ih, List.length_cons, show k + 1 + l₁.length = k + (l₁.length + 1) by omega]
    split <;> rfl

theorem mem_unselected {l : List (OramBlock × Ct.Choice)} {k : Nat} {x : Nat × OramBlock} (h : x ∈ unselected l k) :
    k ≤ x.1 ∧ l[x.1 - k]? = some (x.2, false) ∧ x.2.occupied = true := by
  induction l generalizing k with
  | nil => cases h
  | cons s l ih =>
    obtain ⟨b, sel⟩ := s
    have hrec : x ∈ unselected l (k + 1) →
        k ≤ x.1 ∧ ((b, sel) :: l)[x.1 - k]? = some (x.2, false) ∧ x.2.occupied = true := by
      intro h
      obtain ⟨h1, h2, h3⟩ := ih h
      refine ⟨by omega, ?_, h3⟩
      rw [show x.1 - k = x.1 - (k + 1) + 1 by omega, List.getElem?_cons_succ, h2]
    rw [unselected] at h
    split at h
    · rename_i hc
      rcases List.mem_cons.mp h with rfl | h
      · simp only [Bool.and_eq_true, Bool.not_eq_true'] at hc
        simp [hc]
      · exact hrec h
    · exact hrec h

theorem map_snd_unselected (l : List (OramBlock × Ct.Choice)) (k : Nat) :
    (unselected l k).map (·.2) = (l.filter fun s => s.1.occupied && !s.2).map (·.1) := by
  induction l generalizing k with
  | nil => rfl
  | cons s l ih =>
    rw [unselected, List.filter_cons]
    split <;> simp [ih]

theorem any_unselected (l : List (OramBlock × Ct.Choice)) (k j : Nat) :
    (unselected l k).any (·.1 == k + j) = l[j]?.any fun s => s.1.occupied && !s.2 := by
  induction l generalizing k j with
  | nil => rfl
  | cons s l ih =>
    have hsmall : (unselected l (k + 1)).any (·.1 == k) = false := by
      rw [List.any_eq_false]
      intro x hx
      have := (mem_unselected hx).1
      simp only [beq_iff_eq]
      omega
    cases j with
    | zero =>
      simp only [unselected, List.getElem?_cons_zero, Nat.add_zero, Option.any_some]
      by_cases hc : (s.1.occupied && !s.2) = true
      · rw [if_pos hc, List.any_cons, hc]
        simp
      · rw [if_neg hc, hsmall]
        simpa using hc
    | succ j =>
      have hne : (k == k + (j + 1)) = false := by simp
      rw [unselected, List.getElem?_cons_succ, ← ih (k + 1) j, show k + 1 + j = k + (j + 1) by omega]
      split
      · rw [List.any_cons, hne, Bool.false_or]
      · rfl

theorem pool_eq (stash : List OramBlock) (buckets : List (List OramBlock)) {sel : List Ct.Choice}
    (h : sel = List.replicate (stash ++ buckets.flatten).length false) :
    unselected ((stash ++ buckets.flatten).zip sel) 0 = pool stash buckets := by
  rw [pool, h, ← List.map_const', ← List.zip_map', List.map_id']

/-- What the eviction pools is in the stash or in a bucket. -/
theorem mem_pool {stash : List OramBlock} {buckets : List (List OramBlock)} {x : Nat × OramBlock}
    (h : x ∈ pool stash buckets) : (stash ++ buckets.flatten)[x.1]? = some x.2 ∧ x.2.occupied = true := by
  obtain ⟨-, h2, h3⟩ := mem_unselected h
  rw [Nat.sub_zero, List.getElem?_map, Option.map_eq_some_iff] at h2
  obtain ⟨b, hb, he⟩ := h2
  cases he
  exact ⟨hb, h3⟩

/-! ## The plan -/

/-- The numbers of the slots of `n` buckets of `z` slots, from `k` on. -/
def pathIndices (z : Nat) : Nat → Nat → List (List Nat)
  | _, 0 => []
  | k, n + 1 => List.range' k z :: pathIndices z (k + z) n

@[simp] theorem pathIndices_length (z k n : Nat) : (pathIndices z k n).length = n := by
  induction n generalizing k with
  | zero => rfl
  | succ n ih => simp [pathIndices, ih]

theorem pathIndices_flatten (z k n : Nat) : (pathIndices z k n).flatten = List.range' k (n * z) := by
  induction n generalizing k with
  | zero => simp [pathIndices]
  | succ n ih =>
    rw [pathIndices, List.flatten_cons, ih, Nat.succ_mul, Nat.add_comm (n * z) z, List.range'_append_1]

theorem flatten_length {z : Nat} {buckets : List (List OramBlock)} (h : ∀ b ∈ buckets, b.length = z) :
    buckets.flatten.length = buckets.length * z :=
  length_flatten_of_lengths h

theorem pathCandidates_eq {z : Nat} {buckets : List (List OramBlock)} (h : ∀ b ∈ buckets, b.length = z) (depth k : Nat) :
    pathCandidates z depth k (buckets.map fun bucket => { slots := bucket.map (·.metaSlot) })
      = .ok (buckets.flatten.map stashCandidate, pathIndices z k buckets.length) := by
  induction buckets generalizing depth k with
  | nil => rfl
  | cons bucket buckets ih =>
    have hz := h bucket (by simp)
    simp only [List.map_cons, pathCandidates, List.length_map, hz, ne_eq, not_true_eq_false, if_false]
    rw [ih (fun b hb => h b (by simp [hb]))]
    simp only [bind, Except.bind, List.map_map, List.flatten_cons, List.map_append, List.length_cons, pathIndices]
    rfl

/-- A plan, read as a greedy choice over the numbered blocks. -/
structure PlanOf (p : OramParams) (path : List Nat) (stash : List OramBlock) (buckets : List (List OramBlock))
    (plan : CircuitEvictionPlan) : Prop where
  candidates : plan.candidates = (stash ++ buckets.flatten).map stashCandidate
  placements : plan.placements = (evicted p path stash buckets).1.map (toPlacements p.bucketSize)
  indices : plan.pathCandidateIndices = pathIndices p.bucketSize stash.length buckets.length
  selected_length : plan.selected.length = (stash ++ buckets.flatten).length
  left : unselected ((stash ++ buckets.flatten).zip plan.selected) 0 = (evicted p path stash buckets).2

theorem plan_eq {path : List Nat} {stash : List OramBlock} {buckets : List (List OramBlock)}
    (hpath : path.length = p.height) (hbuckets : buckets.length = p.height) (hstash : stash.length = p.stashCapacity)
    (hz : ∀ b ∈ buckets, b.length = p.bucketSize) :
    ∃ plan, planEvictionPlacements p stash path (buckets.map fun bucket => { slots := bucket.map (·.metaSlot) })
        = .ok plan ∧ PlanOf p path stash buckets plan := by
  have hcand : stash.map stashCandidate ++ buckets.flatten.map stashCandidate
      = (stash ++ buckets.flatten).map stashCandidate := List.map_append.symm
  obtain ⟨h1, h2, h3⟩ := placeLevels_eq p (stash ++ buckets.flatten) 0 path
    (List.length_replicate (n := (stash ++ buckets.flatten).length) (a := false))
  rw [pool_eq _ _ rfl] at h1 h3
  refine ⟨⟨(stash ++ buckets.flatten).map stashCandidate, _, _, pathIndices p.bucketSize stash.length buckets.length⟩,
    ?_, { candidates := rfl, placements := h1, indices := rfl, selected_length := h2, left := h3 }⟩
  simp only [planEvictionPlacements]
  rw [if_neg (by simp [hpath, hbuckets]), if_neg (by simp [hstash]), pathCandidates_eq hz]
  simp only [bind, Except.bind, hcand, List.length_map]

namespace PlanOf

variable {path : List Nat} {stash : List OramBlock} {buckets : List (List OramBlock)} {plan : CircuitEvictionPlan}

theorem isLeftOver_eq (h : PlanOf p path stash buckets plan) (i : Nat) :
    plan.isLeftOver i = (evicted p path stash buckets).2.any (·.1 == i) := by
  have hany := any_unselected ((stash ++ buckets.flatten).zip plan.selected) 0 i
  rw [h.left, Nat.zero_add] at hany
  rw [hany, CircuitEvictionPlan.isLeftOver, h.candidates]
  have hl := h.selected_length
  generalize stash ++ buckets.flatten = blocks at hl ⊢
  by_cases hi : i < blocks.length
  · rw [List.getElem?_eq_getElem (by simpa using hi), List.getElem?_eq_getElem (by simp [hl, hi]),
      List.getD_eq_getElem?_getD, List.getElem?_eq_getElem (by omega)]
    simp [stashCandidate]
  · rw [List.getElem?_eq_none (by simpa using hi), List.getElem?_eq_none (by simp [hl]; omega)]
    rfl

theorem isSelected_eq (h : PlanOf p path stash buckets plan) {i : Nat} {b : OramBlock}
    (hb : (stash ++ buckets.flatten)[i]? = some b) :
    plan.isSelected i = (b.occupied && !(evicted p path stash buckets).2.any (·.1 == i)) := by
  rw [← h.isLeftOver_eq, CircuitEvictionPlan.isSelected, CircuitEvictionPlan.isLeftOver, h.candidates,
    List.getElem?_map, hb]
  simp only [Option.map_some, Option.any_some, stashCandidate]
  cases b.occupied <;> cases plan.selected.getD i false <;> rfl

/-- What the plan clears out of the stash. -/
theorem keptStash_eq (h : PlanOf p path stash buckets plan) :
    (stash.zipIdx.map fun (block, slot) => block.clearIf (plan.isSelected slot))
      = keptStash (evicted p path stash buckets).2 stash := by
  refine List.map_congr_left fun x hx => ?_
  obtain ⟨block, i⟩ := x
  obtain ⟨hi, hb⟩ := List.mem_zipIdx' hx
  simp only at hb hi ⊢
  rw [h.isSelected_eq (b := block)]
  rw [List.getElem?_append_left hi, List.getElem?_eq_getElem hi, hb]

/-- The slots of the path with their marks. -/
theorem leftOver_eq (h : PlanOf p path stash buckets plan) :
    leftOver stash.length (evicted p path stash buckets).2
      = ((buckets.flatten.zip (plan.selected.drop stash.length)).filter fun s => s.1.occupied && !s.2).map (·.1) := by
  have hl := h.selected_length
  rw [List.length_append] at hl
  have hsplit : (stash ++ buckets.flatten).zip plan.selected
      = stash.zip (plan.selected.take stash.length) ++ buckets.flatten.zip (plan.selected.drop stash.length) := by
    conv => lhs; rw [← List.take_append_drop stash.length plan.selected]
    rw [List.zip_append (by rw [List.length_take]; omega)]
  have hlen : (stash.zip (plan.selected.take stash.length)).length = stash.length := by
    rw [List.length_zip, List.length_take]; omega
  rw [leftOver, ← h.left, hsplit, unselected_append, hlen, Nat.zero_add, List.filter_append,
    List.filter_eq_nil_iff.mpr, List.filter_eq_self.mpr, List.nil_append, map_snd_unselected]
  · intro x hx
    simpa using (mem_unselected hx).1
  · intro x hx
    have hm := (mem_unselected hx).2.1
    have := (List.getElem?_eq_some_iff.mp hm).1
    rw [hlen] at this
    simp only [decide_eq_true_eq]
    omega

end PlanOf

/-! ## The stash of an eviction -/

theorem countP_range' {α : Type} {f : Nat → Bool} {g : α → Bool} {l : List α} {k : Nat}
    (h : ∀ j (hj : j < l.length), f (k + j) = g l[j]) : (List.range' k l.length).countP f = l.countP g := by
  induction l generalizing k with
  | nil => rfl
  | cons a as ih =>
    have h0 : f k = g a := h 0 (by simp)
    have hs : (List.range' (k + 1) as.length).countP f = as.countP g := ih fun j hj => by
      have := h (j + 1) (by simpa using hj)
      rwa [show k + (j + 1) = k + 1 + j by omega] at this
    rw [List.length_cons, List.range'_succ, List.countP_cons, List.countP_cons, h0, hs]

/-- Free slots of a stash. -/
def freeSlots (stash : List OramBlock) : Nat := stash.countP fun b => !b.occupied

theorem freeSlots_add (stash : List OramBlock) : freeSlots stash + stash.countP (·.occupied) = stash.length := by
  induction stash with
  | nil => rfl
  | cons b stash ih =>
    simp only [freeSlots, List.countP_cons, List.length_cons] at ih ⊢
    cases b.occupied <;> simp <;> omega

theorem insertFirst_some {block : OramBlock} {stash : List OramBlock} (hb : block.occupied = true)
    (h : 0 < freeSlots stash) :
    ∃ stash', insertFirst block stash = some stash' ∧ freeSlots stash' + 1 = freeSlots stash := by
  induction stash with
  | nil => exact absurd h (by simp [freeSlots])
  | cons slot rest ih =>
    simp only [freeSlots, List.countP_cons, insertFirst] at ih h ⊢
    cases ho : slot.occupied
    · exact ⟨block :: rest, rfl, by simp [hb]⟩
    · obtain ⟨rest', h1, h2⟩ := ih (by simpa [ho] using h)
      exact ⟨slot :: rest', by simp [h1], by simpa [ho] using h2⟩

theorem insertFirst_none {block : OramBlock} {stash : List OramBlock} :
    insertFirst block stash = none ↔ freeSlots stash = 0 := by
  induction stash with
  | nil => simp [insertFirst, freeSlots]
  | cons slot rest ih =>
    simp only [freeSlots, insertFirst, List.countP_cons] at ih ⊢
    cases slot.occupied <;> simp [ih]

/-- Clearing some occupied slots: each is counted once, cleared or kept. -/
theorem countP_clearIf {l : List (OramBlock × Nat)} {f : Nat → Bool} (h : ∀ x ∈ l, f x.2 = true → x.1.occupied = true) :
    l.countP (fun x => f x.2) + (l.map fun x => x.1.clearIf (f x.2)).countP (·.occupied)
      = l.countP fun x => x.1.occupied := by
  induction l with
  | nil => rfl
  | cons x l ih =>
    have hx := h x (by simp)
    have := ih fun y hy => h y (by simp [hy])
    simp only [List.countP_cons, List.map_cons]
    cases hf : f x.2
    · simp only [OramBlock.clearIf_false, Bool.false_eq_true, if_false]
      omega
    · simp only [hx hf, OramBlock.clearIf_true, OramBlock.dummy_occupied, Bool.false_eq_true, if_false, if_true]
      omega

theorem countP_zipIdx (stash : List OramBlock) (k : Nat) :
    (stash.zipIdx k).countP (fun x => x.1.occupied) = stash.countP (·.occupied) := by
  rw [show (fun x : OramBlock × Nat => x.1.occupied) = (·.occupied) ∘ Prod.fst from rfl, ← List.countP_map,
    List.zipIdx_map_fst]

/-- What is left fits the free slots of the stash. -/
def EvictionFits (p : OramParams) (kept back : List OramBlock) : Prop :=
  back.length ≤ p.stashCapacity - kept.countP (·.occupied)

instance (p : OramParams) (kept back : List OramBlock) : Decidable (EvictionFits p kept back) :=
  inferInstanceAs (Decidable (_ ≤ _))

namespace PlanOf

variable {path : List Nat} {buckets : List (List OramBlock)} {plan : CircuitEvictionPlan} {c : Controller ρ}

theorem countP_isLeftOver (h : PlanOf p path c.stash buckets plan) (hz : ∀ b ∈ buckets, b.length = p.bucketSize) :
    plan.pathCandidateIndices.flatten.countP plan.isLeftOver
      = (leftOver c.stash.length (evicted p path c.stash buckets).2).length := by
  have hl := h.selected_length
  rw [List.length_append] at hl
  have hzl : (buckets.flatten.zip (plan.selected.drop c.stash.length)).length = buckets.length * p.bucketSize := by
    rw [List.length_zip, List.length_drop, ← flatten_length hz]; omega
  rw [h.leftOver_eq, h.indices, pathIndices_flatten, List.length_map, ← List.countP_eq_length_filter, ← hzl]
  refine countP_range' fun j hj => ?_
  rw [hzl, ← flatten_length hz] at hj
  rw [CircuitEvictionPlan.isLeftOver, h.candidates, List.getElem?_map, List.getElem?_append_right (by omega),
    Nat.add_sub_cancel_left, List.getElem?_eq_getElem hj, List.getD_eq_getElem?_getD,
    List.getElem?_eq_getElem (by omega), List.getElem_zip, List.getElem_drop]
  rfl

theorem countP_isSelected (h : PlanOf p path c.stash buckets plan) :
    (List.range c.stash.length).countP plan.isSelected
        + (keptStash (evicted p path c.stash buckets).2 c.stash).countP (·.occupied)
      = c.stash.countP (·.occupied) := by
  have hrange : (List.range c.stash.length).countP plan.isSelected
      = c.stash.zipIdx.countP fun x => plan.isSelected x.2 := by
    rw [List.range_eq_range', ← List.length_zipIdx (l := c.stash) (i := 0)]
    exact countP_range' fun j hj => by simp
  rw [hrange, ← h.keptStash_eq, countP_clearIf, countP_zipIdx]
  intro x hx hs
  obtain ⟨hi, hb⟩ := List.mem_zipIdx' hx
  rw [h.isSelected_eq (b := x.1) (by rw [List.getElem?_append_left hi, List.getElem?_eq_getElem hi, hb])] at hs
  exact (Bool.and_eq_true _ _ ▸ hs).1

theorem ensure_eq (h : PlanOf p path c.stash buckets plan) (hc : c.Shape p)
    (hz : ∀ b ∈ buckets, b.length = p.bucketSize) :
    Controller.ensureEvictionStashCapacity plan c =
      let kept := keptStash (evicted p path c.stash buckets).2 c.stash
      let back := leftOver c.stash.length (evicted p path c.stash buckets).2
      if EvictionFits p kept back then (.ok (), c)
      else (.error (.stashOverflow (kept.countP (·.occupied) + back.length) p.stashCapacity), c) := by
  have h1 := h.countP_isLeftOver hz
  have h2 := h.countP_isSelected
  have h3 : c.stash.countP (·.occupied) ≤ c.stash.length := List.countP_le_length
  have hs := hc.stash
  rw [hs] at h2
  simp only [Controller.ensureEvictionStashCapacity, Eff.get_bind, hc.params, Controller.occupiedStashLen, h1]
  rw [Eff.ite_apply]
  generalize (List.range p.stashCapacity).countP plan.isSelected = sel at h2 ⊢
  by_cases hfit : EvictionFits p (keptStash (evicted p path c.stash buckets).2 c.stash)
      (leftOver c.stash.length (evicted p path c.stash buckets).2)
  · rw [if_pos hfit, if_neg (by unfold EvictionFits at hfit; omega)]
    rfl
  · rw [if_neg hfit, if_pos (by unfold EvictionFits at hfit; omega), Eff.fail_apply]
    congr 3
    omega

end PlanOf

theorem keptStash_shape {left : List (Nat × OramBlock)} {stash : List OramBlock} {n : Nat}
    (h : ∀ b ∈ stash, b.payload.length = n) : ∀ b ∈ keptStash left stash, b.payload.length = n := by
  intro b hb
  obtain ⟨⟨b, i⟩, hm, rfl⟩ := List.mem_map.mp hb
  have hl := h b (List.fst_mem_of_mem_zipIdx hm)
  dsimp only
  cases b.occupied && !left.any (·.1 == i)
  · simpa using hl
  · simpa using hl

@[simp] theorem keptStash_length (left : List (Nat × OramBlock)) (stash : List OramBlock) :
    (keptStash left stash).length = stash.length := by
  simp [keptStash]

end BpirOram
