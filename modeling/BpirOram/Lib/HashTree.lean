/-
  BpirOram.Lib.HashTree — hash trees kept as an array: the root is node 1, the children of
  `k` are `2k` and `2k + 1`; the nodes below `size` combine their children, the others are
  leaves.

  - `Pending.step`, `Pending.done`: relabelling the nodes above a changed one, from it up,
    gives the tree of the change.
  - `climb_hashTree`: climbing with the tree's own siblings stays on the tree's labels.
-/

import Mathlib.Algebra.Group.Nat.Defs
import Mathlib.Data.Set.Function
import Mathlib.Logic.Function.Basic
import Mathlib.Tactic.Common

namespace BpirOram.Lib

variable {α : Type}

/-- The label of every node. -/
def hashTree (size : Nat) (combine : Nat → α → α → α) (leaf : Nat → α) (k : Nat) : α :=
  if 0 < k ∧ k < size then
    combine k (hashTree size combine leaf (2 * k)) (hashTree size combine leaf (2 * k + 1))
  else leaf k
termination_by size - k

section
variable {size : Nat} {combine combine' : Nat → α → α → α} {leaf leaf' : Nat → α}

theorem hashTree_node {k : Nat} (h0 : 0 < k) (h : k < size) :
    hashTree size combine leaf k
      = combine k (hashTree size combine leaf (2 * k)) (hashTree size combine leaf (2 * k + 1)) := by
  rw [hashTree, if_pos ⟨h0, h⟩]

theorem hashTree_leaf {k : Nat} (h : size ≤ k) : hashTree size combine leaf k = leaf k := by
  rw [hashTree, if_neg (by omega)]

/-! ## Nodes above nodes -/

/-- `a` is `k` or a node above it. -/
def Covers (a k : Nat) : Prop := ∃ j, k / 2 ^ j = a

theorem Covers.refl (k : Nat) : Covers k k := ⟨0, by simp⟩

theorem Covers.half {a k : Nat} (h : Covers a (k / 2)) : Covers a k := by
  obtain ⟨j, h⟩ := h
  exact ⟨j + 1, by rw [← h, Nat.pow_succ', Nat.div_div_eq_div_mul]⟩

theorem Covers.cases {a k : Nat} (h : Covers a k) : a = k ∨ Covers a (k / 2) := by
  obtain ⟨j, rfl⟩ := h
  cases j with
  | zero => left; simp
  | succ j => right; exact ⟨j, by rw [Nat.pow_succ', Nat.div_div_eq_div_mul]⟩

theorem Covers.of_child {a b k : Nat} (h : Covers b k) (hb : b / 2 = a) : Covers a k := by
  obtain ⟨j, rfl⟩ := h
  exact ⟨j + 1, by rw [← hb, Nat.pow_succ, Nat.div_div_eq_div_mul]⟩

theorem Covers.le {a k : Nat} (h : Covers a k) : a ≤ k := by
  obtain ⟨j, rfl⟩ := h
  exact Nat.div_le_self _ _

/-- A node's label depends on the nodes under it only. -/
theorem hashTree_congr {a : Nat} (h0 : 0 < a) (hcombine : ∀ k, k < size → Covers a k → combine k = combine' k)
    (hleaf : ∀ k, size ≤ k → Covers a k → leaf k = leaf' k) :
    hashTree size combine leaf a = hashTree size combine' leaf' a := by
  induction a using hashTree.induct size with
  | case1 a h ih₁ ih₂ =>
    have hleft : ∀ k, Covers (2 * a) k → Covers a k := fun k hk => hk.of_child (by omega)
    have hright : ∀ k, Covers (2 * a + 1) k → Covers a k := fun k hk => hk.of_child (by omega)
    rw [hashTree_node h.1 h.2, hashTree_node h.1 h.2, hcombine a h.2 (.refl a),
      ih₁ (by omega) (fun k hlt hk => hcombine k hlt (hleft k hk)) (fun k hle hk => hleaf k hle (hleft k hk)),
      ih₂ (by omega) (fun k hlt hk => hcombine k hlt (hright k hk)) (fun k hle hk => hleaf k hle (hright k hk))]
  | case2 a h =>
    have hsize : size ≤ a := by omega
    rw [hashTree_leaf hsize, hashTree_leaf hsize, hleaf a hsize (.refl a)]

/-! ## Relabelling upwards -/

/-- The labels are those of the tree, except perhaps above `n`. -/
def Pending (T : Nat → α) (bound n : Nat) (L : Nat → α) : Prop :=
  ∀ a, 0 < a → a < bound → (Covers a n → a = n) → L a = T a

theorem Pending.step {L : Nat → α} {bound n : Nat}
    (h : Pending (hashTree size combine leaf) bound n L) (hn : 1 < n) (hsize : n < 2 * size) (hbound : 2 * size ≤ bound) :
    Pending (hashTree size combine leaf) bound (n / 2)
      (Function.update L (n / 2) (combine (n / 2) (L (2 * (n / 2))) (L (2 * (n / 2) + 1)))) := by
  intro a h0 ha hcov
  -- the children of `n / 2` are not above `n`
  have hchild : ∀ b, b / 2 = n / 2 → L b = hashTree size combine leaf b := by
    intro b hb
    refine h b (by omega) (by omega) fun hc => ?_
    rcases hc.cases with rfl | hc
    · rfl
    · have := hc.le
      omega
  by_cases hself : a = n / 2
  · subst hself
    rw [Function.update_self, hchild _ (by omega), hchild _ (by omega)]
    exact (hashTree_node (by omega) (by omega)).symm
  · rw [Function.update_of_ne hself]
    refine h a h0 ha fun hc => ?_
    rcases hc.cases with rfl | hc
    · rfl
    · exact absurd (hcov hc) hself

theorem Pending.done {T L : Nat → α} {bound : Nat} (h : Pending T bound 1 L) {a : Nat} (h0 : 0 < a) (ha : a < bound) :
    L a = T a := by
  refine h a h0 ha fun hc => ?_
  have := hc.le
  omega

/-- Where a node is relabelled, only the nodes above it wait. -/
theorem Pending.start {L : Nat → α} {bound n : Nat} {v : α}
    (h : ∀ a, 0 < a → a < bound → L a = hashTree size combine leaf a)
    (hcombine : ∀ k, k < size → k ≠ n → combine k = combine' k)
    (hleaf : ∀ k, size ≤ k → k ≠ n → leaf k = leaf' k)
    (hv : v = hashTree size combine' leaf' n) :
    Pending (hashTree size combine' leaf') bound n (Function.update L n v) := by
  intro a h0 ha hcov
  by_cases hself : a = n
  · rw [hself, Function.update_self, hv]
  · have hoff : ∀ k, Covers a k → k ≠ n := by
      rintro k hk rfl
      exact hself (hcov hk)
    rw [Function.update_of_ne hself, h a h0 ha]
    exact hashTree_congr h0 (fun k hlt hk => hcombine k hlt (hoff k hk)) (fun k hle hk => hleaf k hle (hoff k hk))

/-! ## Climbing -/

/-- The other child of a node's parent. -/
def siblingOf (k : Nat) : Nat := if k % 2 = 0 then k + 1 else k - 1

theorem siblingOf_half (k : Nat) : siblingOf k / 2 = k / 2 := by
  unfold siblingOf
  split <;> omega

theorem siblingOf_ne (k : Nat) : siblingOf k ≠ k := by
  unfold siblingOf
  split <;> omega

/-- What is combined at a node's parent, given the node's label and its sibling's. -/
def joined (k : Nat) (current sib : α) : Nat × α × α :=
  if k % 2 = 0 then (k / 2, current, sib) else (k / 2, sib, current)

def join (combine : Nat → α → α → α) (k : Nat) (current sib : α) : α :=
  combine (joined k current sib).1 (joined k current sib).2.1 (joined k current sib).2.2

theorem joined_pair {T : Nat → α} {k : Nat} (h : 0 < k) :
    joined k (T k) (T (siblingOf k)) = (k / 2, T (2 * (k / 2)), T (2 * (k / 2) + 1)) := by
  unfold joined siblingOf
  by_cases heven : k % 2 = 0
  · rw [if_pos heven, if_pos heven, show 2 * (k / 2) = k by omega]
  · rw [if_neg heven, if_neg heven, show 2 * (k / 2) = k - 1 by omega, show k - 1 + 1 = k by omega]

theorem joined_current {k : Nat} {a b sib sib' : α} (h : joined k a sib = joined k b sib') : a = b := by
  unfold joined at h
  split at h
  · exact (Prod.mk.inj (Prod.mk.inj h).2).1
  · exact (Prod.mk.inj (Prod.mk.inj h).2).2

/-- Joining a node's label with its sibling's gives the label of their parent. -/
theorem join_hashTree {k : Nat} (h : 1 < k) (hsize : k < 2 * size) :
    join combine k (hashTree size combine leaf k) (hashTree size combine leaf (siblingOf k))
      = hashTree size combine leaf (k / 2) := by
  rw [join, joined_pair (by omega)]
  exact (hashTree_node (by omega) (by omega)).symm

/-- The label reached from a node's with the siblings on the way up. -/
def climb (combine : Nat → α → α → α) : Nat → α → List α → α
  | _, current, [] => current
  | k, current, sib :: sibs => climb combine (k / 2) (join combine k current sib) sibs

/-- What a climb combines. -/
def climbed (combine : Nat → α → α → α) : Nat → α → List α → List (Nat × α × α)
  | _, _, [] => []
  | k, current, sib :: sibs => joined k current sib :: climbed combine (k / 2) (join combine k current sib) sibs

/-- The siblings on the way from `k` up to the first node below `limit`. -/
def siblings (limit k : Nat) : List Nat :=
  if 0 < limit ∧ limit ≤ k then siblingOf k :: siblings limit (k / 2) else []
termination_by k

/-- The first node below `limit` on the way up from `k`. -/
def climbEnd (limit k : Nat) : Nat :=
  if 0 < limit ∧ limit ≤ k then climbEnd limit (k / 2) else k
termination_by k

theorem siblings_of_le {limit k : Nat} (h0 : 0 < limit) (h : limit ≤ k) :
    siblings limit k = siblingOf k :: siblings limit (k / 2) := by
  rw [siblings, if_pos ⟨h0, h⟩]

theorem siblings_of_lt {limit k : Nat} (h : k < limit) : siblings limit k = [] := by
  rw [siblings, if_neg (by omega)]

theorem climbEnd_of_le {limit k : Nat} (h0 : 0 < limit) (h : limit ≤ k) : climbEnd limit k = climbEnd limit (k / 2) := by
  rw [climbEnd, if_pos ⟨h0, h⟩]

theorem climbEnd_of_lt {limit k : Nat} (h : k < limit) : climbEnd limit k = k := by
  rw [climbEnd, if_neg (by omega)]

theorem climbEnd_lt {limit : Nat} (h0 : 0 < limit) (k : Nat) : climbEnd limit k < limit := by
  induction k using climbEnd.induct limit with
  | case1 k h ih => rwa [climbEnd_of_le h.1 h.2]
  | case2 k h => rw [climbEnd, if_neg h]; omega

theorem climbEnd_pos {limit k : Nat} (h1 : 1 < limit) (hk : 0 < k) : 0 < climbEnd limit k := by
  induction k using climbEnd.induct limit with
  | case1 k h ih => rw [climbEnd_of_le h.1 h.2]; exact ih (by omega)
  | case2 k h => rwa [climbEnd, if_neg h]

theorem climb_hashTree {limit k : Nat} (h1 : 1 < limit) (hsize : k < 2 * size) :
    climb combine k (hashTree size combine leaf k) ((siblings limit k).map (hashTree size combine leaf))
      = hashTree size combine leaf (climbEnd limit k) := by
  induction k using climbEnd.induct limit with
  | case1 k h ih =>
    rw [siblings_of_le h.1 h.2, climbEnd_of_le h.1 h.2, List.map_cons, climb, join_hashTree (by omega) hsize]
    exact ih (by omega)
  | case2 k h => rw [siblings, climbEnd, if_neg h, if_neg h]; rfl

/-- What is combined at the nodes of a tree. -/
def treeJoins (size : Nat) (T : Nat → α) : Set (Nat × α × α) :=
  { x | ∃ k, 0 < k ∧ k < size ∧ x = (k, T (2 * k), T (2 * k + 1)) }

end
end BpirOram.Lib
