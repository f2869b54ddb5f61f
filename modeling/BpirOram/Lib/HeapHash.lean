/-
  BpirOram.Lib.HeapHash — labels hashed up a heap (see `BpirOram.Lib.Heap`): the hash of a
  node is made of the node's label and its children's hashes.

  - `heapHash_congr`: a hash depends on the labels of the nodes below it only.
  - `RootPath.heapHash_off`: relabelling the nodes of a root path leaves the hash of every
    node off the path.
-/

import BpirOram.Lib.Heap

namespace BpirOram.Lib

variable {α η : Type}

theorem IsChild.lt {i j : Nat} (h : IsChild i j) : i < j := by
  rcases h with rfl | rfl <;> omega

theorem IsChild.parent_unique {i i' j : Nat} (h : IsChild i j) (h' : IsChild i' j) : i = i' := by
  rcases h with h | h <;> rcases h' with h' | h' <;> omega

/-- A child on a root path is the node that comes next. -/
theorem RootPath.next {n : Nat} {front back : List Nat} {i j : Nat} (hp : RootPath n (front ++ i :: back)) (hij : IsChild i j)
    (hj : j ∈ front ++ i :: back) : back.head? = some j := by
  obtain ⟨-, hback, hfront⟩ := List.pairwise_append.mp (isChain_lt hp.chain)
  have hlt := hij.lt
  have hmem : j ∈ back := by
    rcases List.mem_append.mp hj with hj | hj
    · have := hfront j hj i List.mem_cons_self
      omega
    · exact (List.mem_cons.mp hj).resolve_left (by omega)
  have hchain : (i :: back).IsChain IsChild := hp.chain.right_of_append
  by_contra hne
  -- its parent would be further down the path
  obtain ⟨k, hk, hkj⟩ := isChain_parent hchain.tail hmem hne
  have hbelow := (List.pairwise_cons.mp hback).1 k hk
  have := hkj.parent_unique hij
  omega

/-- The hash of a node; the nodes from `n` on are not there, and all have one hash. -/
def heapHash (n : Nat) (node : Nat → α → η → η → η) (none : η) (label : Nat → α) (i : Nat) : η :=
  if i < n then
    node i (label i) (heapHash n node none label (2 * i + 1)) (heapHash n node none label (2 * i + 2))
  else none
termination_by n - i

section
variable {n : Nat} {node : Nat → α → η → η → η} {none : η} {label label' : Nat → α}

theorem heapHash_node {i : Nat} (h : i < n) :
    heapHash n node none label i
      = node i (label i) (heapHash n node none label (2 * i + 1)) (heapHash n node none label (2 * i + 2)) := by
  rw [heapHash, if_pos h]

theorem heapHash_none {i : Nat} (h : n ≤ i) : heapHash n node none label i = none := by
  rw [heapHash, if_neg (Nat.not_lt.mpr h)]

/-- Two labellings that agree on a set of nodes closed under children agree there in their hashes. -/
theorem heapHash_congr {P : Nat → Prop} (hchild : ∀ i j, P i → IsChild i j → P j)
    (h : ∀ i < n, P i → label i = label' i)
    {i : Nat} (hi : P i) : heapHash n node none label i = heapHash n node none label' i := by
  induction i using heapHash.induct n with
  | case1 i hlt ihl ihr =>
    rw [heapHash_node hlt, heapHash_node hlt, h i hlt hi, ihl (hchild i _ hi (.inl rfl)), ihr (hchild i _ hi (.inr rfl))]
  | case2 i hge => rw [heapHash_none (Nat.le_of_not_lt hge), heapHash_none (Nat.le_of_not_lt hge)]

/-- What is below a node off a root path is off the path. -/
theorem RootPath.heapHash_off {path : List Nat} (hp : RootPath n path) (h : ∀ i < n, i ∉ path → label i = label' i)
    {i : Nat} (hi : i ∉ path) : heapHash n node none label i = heapHash n node none label' i :=
  heapHash_congr (P := (· ∉ path)) (fun _ _ hoff hij hj => hoff (hp.parent hij hj)) h hi

end
end BpirOram.Lib
