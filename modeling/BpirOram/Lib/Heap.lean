/-
  BpirOram.Lib.Heap — paths in a complete binary tree kept as an array: the root is 0, the
  children of `i` are `2i + 1` and `2i + 2`.
-/

import Mathlib.Data.List.Chain
import Mathlib.Tactic.Common

namespace BpirOram.Lib

def IsChild (i j : Nat) : Prop := j = 2 * i + 1 ∨ j = 2 * i + 2

instance (i j : Nat) : Decidable (IsChild i j) := inferInstanceAs (Decidable (_ ∨ _))

/-- A path of nodes below `n` that starts at the root and steps from parent to child. -/
structure RootPath (n : Nat) (path : List Nat) : Prop where
  head : path.head? = some 0
  chain : path.IsChain IsChild
  lt : ∀ i ∈ path, i < n

theorem RootPath.ne_nil {n : Nat} {path : List Nat} (h : RootPath n path) : path ≠ [] := by
  rintro rfl
  exact absurd h.head (by simp)

theorem isChain_parent {path : List Nat} (h : path.IsChain IsChild) {j : Nat} (hj : j ∈ path)
    (h0 : path.head? ≠ some j) : ∃ i ∈ path, IsChild i j := by
  induction h with
  | nil => simp at hj
  | singleton a => simp at hj h0; omega
  | cons_cons hr h ih =>
    rename_i a b l
    rcases List.mem_cons.mp hj with rfl | hj
    · simp at h0
    · by_cases hb : b = j
      · exact ⟨a, by simp, hb ▸ hr⟩
      · obtain ⟨i, hi, hij⟩ := ih hj (by simpa using hb)
        exact ⟨i, by simp [hi], hij⟩

/-- A node on a root path is the root or has its parent on the path. -/
theorem RootPath.parent {n : Nat} {path : List Nat} (h : RootPath n path) {i j : Nat} (hij : IsChild i j)
    (hj : j ∈ path) : i ∈ path := by
  obtain ⟨k, hk, hkj⟩ := isChain_parent h.chain hj (by
    rw [h.head]; rintro ⟨⟩; rcases hij with h | h <;> omega)
  have : i = k := by rcases hij with h | h <;> rcases hkj with h' | h' <;> omega
  exact this ▸ hk

/-- Along a path from parent to child the indices grow. -/
theorem isChain_lt {path : List Nat} (h : path.IsChain IsChild) : path.Pairwise (· < ·) := by
  rw [← List.isChain_iff_pairwise]
  exact h.imp fun {i j} hij => by rcases hij with h | h <;> omega

end BpirOram.Lib
