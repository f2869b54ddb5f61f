/-
  BpirOram.Lib.Opening — two climbs in one hash tree (see `BpirOram.Lib.HashTree`).

  - `climb_inj`: climbs of one length from one node to one label began on one label, unless
    two of their combinations collide.
  - `climb_beside`: where a climb from `k` used the tree's own label at the node above `j`,
    it ends where a climb from the tree's label of `j` ends.
  - `raise`: the labels after all the nodes above `k` were combined anew from what stood
    there; `raise_off` and `raise_on` say which label is at which node then.
-/

import BpirOram.Lib.HashTree

namespace BpirOram.Lib

variable {α : Type} {size : Nat} {combine : Nat → α → α → α} {leaf : Nat → α}

theorem joined_fst (k : Nat) (a b sib sib' : α) : (joined k a sib).1 = (joined k b sib').1 := by
  unfold joined
  split <;> rfl

theorem climb_inj {k : Nat} {a b : α} {sibs sibs' : List α} (hlen : sibs.length = sibs'.length)
    (hinj : ∀ x ∈ climbed combine k a sibs, ∀ y ∈ climbed combine k b sibs', x.1 = y.1 →
      combine x.1 x.2.1 x.2.2 = combine y.1 y.2.1 y.2.2 → x = y)
    (h : climb combine k a sibs = climb combine k b sibs') : a = b := by
  induction sibs generalizing k a b sibs' with
  | nil =>
    rw [List.eq_nil_of_length_eq_zero hlen.symm] at h
    exact h
  | cons sib sibs ih =>
    cases sibs' with
    | nil => simp at hlen
    | cons sib' sibs' =>
      have hparent : join combine k a sib = join combine k b sib' := by
        refine ih (by simpa using hlen) (fun x hx y hy => ?_) h
        exact hinj x (List.mem_cons_of_mem _ hx) y (List.mem_cons_of_mem _ hy)
      exact joined_current (hinj _ List.mem_cons_self _ List.mem_cons_self (joined_fst k a b sib sib') hparent)

/-- A climb along the tree combines what the tree combines. -/
theorem climbed_hashTree {limit k : Nat} (h1 : 1 < limit) (hsize : k < 2 * size) :
    ∀ x ∈ climbed combine k (hashTree size combine leaf k) ((siblings limit k).map (hashTree size combine leaf)),
      x ∈ treeJoins size (hashTree size combine leaf) := by
  induction k using climbEnd.induct limit with
  | case1 k h ih =>
    intro x hx
    rw [siblings_of_le h.1 h.2, List.map_cons, climbed, join_hashTree (by omega) hsize] at hx
    rcases List.mem_cons.mp hx with rfl | hx
    · exact ⟨k / 2, by omega, by omega, joined_pair (by omega)⟩
    · exact ih (by omega) x hx
  | case2 k h =>
    rw [siblings, if_neg h]
    intro x hx
    simp [climbed] at hx

/-! ## Nodes of one level -/

theorem Covers.half_of_ne {a k : Nat} (h : Covers a k) (hne : a ≠ k) : Covers a (k / 2) := h.cases.resolve_left hne

/-- No node covers another of its level. -/
theorem Covers.eq_of_level {a k d : Nat} (h : Covers a k) (ha : 2 ^ d ≤ a) (hk : k < 2 ^ (d + 1)) : a = k := by
  rcases h.cases with h | h
  · exact h
  · have := h.le
    have := Nat.pow_succ' (m := 2) (n := d)
    omega

theorem siblings_level {limit k d v : Nat} (hk : k < 2 ^ (d + 1)) (hv : v ∈ siblings limit k) : v < 2 ^ (d + 1) := by
  induction k using climbEnd.induct limit generalizing d with
  | case1 k h ih =>
    rw [siblings_of_le h.1 h.2] at hv
    rcases List.mem_cons.mp hv with rfl | hv
    · unfold siblingOf
      have := Nat.pow_succ' (m := 2) (n := d)
      split <;> omega
    · exact ih (by omega) hv
  | case2 k h =>
    rw [siblings, if_neg h] at hv
    simp at hv

/-- The siblings on the way up do not cover the node. -/
theorem siblings_off {limit k v : Nat} (h1 : 1 < limit) (hv : v ∈ siblings limit k) : ¬ Covers v k := by
  induction k using climbEnd.induct limit with
  | case1 k h ih =>
    have hhalf := siblingOf_half k
    rw [siblings_of_le h.1 h.2] at hv
    intro hcov
    rcases List.mem_cons.mp hv with rfl | hv
    · have := (hcov.half_of_ne (siblingOf_ne k)).le
      omega
    · rcases hcov.cases with rfl | hcov
      · -- a sibling further up is below the node
        have hle : ∀ m, v ∈ siblings limit m → v ≤ m + 1 := by
          intro m
          induction m using climbEnd.induct limit with
          | case1 m hm ihm =>
            intro hmem
            rw [siblings_of_le hm.1 hm.2] at hmem
            rcases List.mem_cons.mp hmem with rfl | hmem
            · unfold siblingOf
              split <;> omega
            · have := ihm hmem
              omega
          | case2 m hm =>
            intro hmem
            rw [siblings, if_neg hm] at hmem
            simp at hmem
        have := hle _ hv
        have hlim : limit ≤ v / 2 := by
          by_contra hlt
          rw [siblings_of_lt (by omega)] at hv
          simp at hv
        omega
      · exact ih hv hcov
  | case2 k h =>
    rw [siblings, if_neg h] at hv
    simp at hv

theorem climbEnd_covers {limit k : Nat} : Covers (climbEnd limit k) k := by
  induction k using climbEnd.induct limit with
  | case1 k h ih => rw [climbEnd_of_le h.1 h.2]; exact ih.half
  | case2 k h => rw [climbEnd, if_neg h]; exact .refl k

theorem climbEnd_of_covers {a k : Nat} (h : Covers a k) : climbEnd (a + 1) k = a := by
  induction k using climbEnd.induct (a + 1) with
  | case1 k hle ih => rw [climbEnd_of_le hle.1 hle.2]; exact ih (h.half_of_ne (by omega))
  | case2 k hlt =>
    have := h.le
    rw [climbEnd, if_neg hlt]
    omega

/-- The siblings of a climb to an even limit are not below it. -/
theorem limit_le_siblings {limit k v : Nat} (heven : limit % 2 = 0) (hv : v ∈ siblings limit k) : limit ≤ v := by
  induction k using climbEnd.induct limit with
  | case1 k h ih =>
    rw [siblings_of_le h.1 h.2] at hv
    rcases List.mem_cons.mp hv with rfl | hv
    · unfold siblingOf
      split <;> omega
    · exact ih hv
  | case2 k h =>
    rw [siblings, if_neg h] at hv
    simp at hv

/-- The siblings of a climb to `a` are below `a`. -/
theorem le_siblings {a k v : Nat} (h : Covers a k) (hv : v ∈ siblings (a + 1) k) : 2 * a ≤ v := by
  induction k using climbEnd.induct (a + 1) with
  | case1 k hle ih =>
    have hup := h.half_of_ne (by omega)
    rw [siblings_of_le hle.1 hle.2] at hv
    rcases List.mem_cons.mp hv with rfl | hv
    · have := hup.le
      have := siblingOf_half k
      omega
    · exact ih hup hv
  | case2 k hlt =>
    rw [siblings, if_neg hlt] at hv
    simp at hv

/-- A climb stops on the last level below an even limit. -/
theorem le_two_climbEnd {limit k : Nat} (heven : limit % 2 = 0) (h : limit ≤ 2 * k) : limit ≤ 2 * climbEnd limit k := by
  induction k using climbEnd.induct limit with
  | case1 k hle ih => rw [climbEnd_of_le hle.1 hle.2]; exact ih (by omega)
  | case2 k hlt => rwa [climbEnd, if_neg hlt]

/-- Siblings are joined alike from either side. -/
theorem joined_siblingOf {k : Nat} (h : 0 < k) (a b : α) : joined (siblingOf k) b a = joined k a b := by
  unfold joined siblingOf
  split <;> split <;> simp only [Prod.mk.injEq, and_true] <;> omega

/-- A climb that met a label of the tree beside its way can be made from below that label. -/
theorem climb_beside {t d k j v : Nat} {sibs : List α} (current : α) (ht : 0 < t) (hkd : 2 ^ d ≤ k) (hk : k < 2 ^ (d + 1))
    (hjd : 2 ^ d ≤ j) (hj : j < 2 ^ (d + 1)) (hsize : j < 2 * size) (hne : k ≠ j)
    (hend : climbEnd (2 ^ t) k = climbEnd (2 ^ t) j) (hlen : sibs.length = (siblings (2 ^ t) k).length)
    (hv : (v, hashTree size combine leaf v) ∈ (siblings (2 ^ t) k).zip sibs) (hcov : Covers v j) :
    ∃ sibs', sibs'.length = (siblings (2 ^ t) j).length ∧
      climb combine j (hashTree size combine leaf j) sibs' = climb combine k current sibs ∧
      ∀ x ∈ climbed combine j (hashTree size combine leaf j) sibs',
        x ∈ treeJoins size (hashTree size combine leaf) ∨ x ∈ climbed combine k current sibs := by
  have hpos := Nat.two_pow_pos t
  have htwo : 2 ≤ 2 ^ t := Nat.le_self_pow (by omega) 2
  induction d generalizing k j current sibs with
  | zero => omega
  | succ d ih =>
    have hdouble : 2 ^ (d + 1 + 1) = 2 * 2 ^ (d + 1) := Nat.pow_succ'
    have hdouble' : 2 ^ (d + 1) = 2 * 2 ^ d := Nat.pow_succ'
    -- the limit is the first node of a level
    have hlimit : ∀ m, 2 ^ (d + 1) ≤ m → m < 2 ^ (d + 1 + 1) → (2 ^ t ≤ m ↔ t ≤ d + 1) := by
      intro m hm hlt
      refine ⟨fun h => ?_, fun h => (Nat.pow_le_pow_right (by omega) h).trans hm⟩
      have := (Nat.pow_lt_pow_iff_right (show 1 < 2 by omega)).mp (Nat.lt_of_le_of_lt h hlt)
      omega
    by_cases htd : t ≤ d + 1
    · have hkt := (hlimit k hkd hk).mpr htd
      have hjt := (hlimit j hjd hj).mpr htd
      have hhalf := siblingOf_half k
      rw [siblings_of_le hpos hkt] at hlen hv
      rw [climbEnd_of_le hpos hkt, climbEnd_of_le hpos hjt] at hend
      cases sibs with
      | nil => simp at hlen
      | cons sib sibs =>
        rw [List.zip_cons_cons, List.mem_cons, Prod.mk.injEq] at hv
        rw [List.length_cons, List.length_cons, Nat.add_right_cancel_iff] at hlen
        have hsib : 2 ^ (d + 1) ≤ siblingOf k := by
          unfold siblingOf
          split <;> omega
        by_cases hside : siblingOf k = j
        · -- the ways meet in the next node: `j` takes the label of `k` as its sibling's
          have hv : hashTree size combine leaf j = sib := by
            rcases hv with ⟨rfl, hv⟩ | hv
            · rw [← hside]
              exact hv
            · have hup := siblings_level (d := d) (by omega) (List.of_mem_zip hv).1
              rcases hcov.cases with rfl | hcov
              · omega
              · exact absurd (show Covers v (k / 2) by rw [← hhalf, hside]; exact hcov)
                  (siblings_off (by omega) (List.of_mem_zip hv).1)
          have hj2 : j / 2 = k / 2 := by rw [← hside, hhalf]
          have hjoined : joined j (hashTree size combine leaf j) current = joined k current sib := by
            rw [hv, ← hside]
            exact joined_siblingOf (by omega) current sib
          refine ⟨current :: sibs, ?_, ?_, ?_⟩
          · rw [siblings_of_le hpos hjt, List.length_cons, List.length_cons, hj2, hlen]
          · rw [climb, climb, join, hjoined, hj2]
            rfl
          · intro x hx
            rw [climbed, join, hjoined, hj2] at hx
            exact .inr hx
        · have hparent : join combine j (hashTree size combine leaf j) (hashTree size combine leaf (siblingOf j))
              = hashTree size combine leaf (j / 2) := join_hashTree (by omega) hsize
          have hcov' : Covers v (j / 2) ∧ (v, hashTree size combine leaf v) ∈ (siblings (2 ^ t) (k / 2)).zip sibs := by
            rcases hv with ⟨rfl, -⟩ | hv
            · exact absurd (hcov.eq_of_level hsib hj) hside
            · refine ⟨hcov.half_of_ne fun hself => ?_, hv⟩
              have := siblings_level (d := d) (by omega) (List.of_mem_zip hv).1
              omega
          have hne' : k / 2 ≠ j / 2 := by
            intro heq
            apply hside
            unfold siblingOf
            split <;> omega
          obtain ⟨sibs', hlen', hclimb, hclimbed⟩ := ih (k := k / 2) (j := j / 2) (join combine k current sib)
            (by omega) (by omega) (by omega) (by omega) (by omega) hne' hend hlen hcov'.2 hcov'.1
          refine ⟨hashTree size combine leaf (siblingOf j) :: sibs', ?_, ?_, ?_⟩
          · rw [siblings_of_le hpos hjt, List.length_cons, List.length_cons, hlen']
          · rw [climb, hparent, hclimb]
            rfl
          · intro x hx
            rw [climbed, hparent] at hx
            rcases List.mem_cons.mp hx with rfl | hx
            · exact .inl ⟨j / 2, by omega, by omega, joined_pair (by omega)⟩
            · exact (hclimbed x hx).imp_right fun h => List.mem_cons_of_mem _ h
    · have hkt := mt (hlimit k hkd hk).mp htd
      have hjt := mt (hlimit j hjd hj).mp htd
      rw [climbEnd_of_lt (by omega), climbEnd_of_lt (by omega)] at hend
      exact absurd hend hne

/-! ## Combining anew -/

/-- The labels once every node above `k` is combined from the labels of its children. -/
def raise (combine : Nat → α → α → α) (L : Nat → α) (k : Nat) : Nat → α :=
  if 1 < k then raise combine (Function.update L (k / 2) (join combine k (L k) (L (siblingOf k)))) (k / 2) else L
termination_by k

theorem raise_of_lt {L : Nat → α} {k : Nat} (h : 1 < k) :
    raise combine L k = raise combine (Function.update L (k / 2) (join combine k (L k) (L (siblingOf k)))) (k / 2) := by
  rw [raise, if_pos h]

theorem raise_one {L : Nat → α} {k : Nat} (h : ¬ 1 < k) : raise combine L k = L := by rw [raise, if_neg h]

theorem raise_off {L : Nat → α} {a k : Nat} (h : Covers a k → a = k) : raise combine L k a = L a := by
  induction k using Nat.strong_induction_on generalizing L with
  | h k ih =>
    by_cases hk : 1 < k
    · have hne : a ≠ k / 2 := by
        rintro rfl
        have := h (Covers.refl _).half
        omega
      rw [raise_of_lt hk, ih (k / 2) (by omega) fun hc => ?_, Function.update_of_ne hne]
      have := h hc.half
      have := hc.le
      omega
    · rw [raise_one hk]

theorem raise_on {L : Nat → α} {a k : Nat} (h0 : 0 < a) (h : Covers a k) :
    raise combine L k a = climb combine k (L k) ((siblings (a + 1) k).map L) := by
  induction k using Nat.strong_induction_on generalizing L with
  | h k ih =>
    rcases h.cases with rfl | hup
    · rw [raise_off fun _ => rfl, siblings_of_lt (by omega)]
      rfl
    · have hle := hup.le
      have hk : 1 < k := by omega
      have hmap : (siblings (a + 1) (k / 2)).map
          (Function.update L (k / 2) (join combine k (L k) (L (siblingOf k)))) = (siblings (a + 1) (k / 2)).map L := by
        refine List.map_congr_left fun v hv => Function.update_of_ne ?_ _ _
        rintro rfl
        exact siblings_off (by omega) hv (.refl _)
      rw [raise_of_lt hk, ih (k / 2) (by omega) hup, hmap, Function.update_self,
        siblings_of_le (k := k) (by omega) (by omega), List.map_cons, climb]

/-- A label of the tree depends on the leaves its node covers only. -/
theorem hashTree_leaf_congr {leaf' : Nat → α} {a k : Nat} (h0 : 0 < a) (h : ¬ Covers a k)
    (hleaf : ∀ b, size ≤ b → b ≠ k → leaf b = leaf' b) :
    hashTree size combine leaf a = hashTree size combine leaf' a := by
  refine hashTree_congr h0 (fun _ _ _ => rfl) fun b hb hcov => hleaf b hb ?_
  rintro rfl
  exact h hcov

/-- Where the siblings on the way up are the tree's, so is every node combined anew. -/
theorem raise_hashTree {L : Nat → α} {a k : Nat} (h0 : 0 < a) (h : Covers a k) (hsize : k < 2 * size)
    (hself : L k = hashTree size combine leaf k) (hsibs : ∀ v ∈ siblings (a + 1) k, L v = hashTree size combine leaf v) :
    raise combine L k a = hashTree size combine leaf a := by
  rw [raise_on h0 h, hself, List.map_congr_left hsibs, climb_hashTree (by omega) hsize, climbEnd_of_covers h]

end BpirOram.Lib
