/-
  BpirOram.Lib.Collect — records collected by key, the first of each key kept, and a bitmap of
  the keys seen.

  `first l i` is what a loop that ignores repeated keys has for key `i` after the records `l`.
  Nothing is lost when the records are `Consistent`: records of one key carry one value.
-/

import BpirOram.Lib.Bytes
import Mathlib.Data.Finset.Card
import Mathlib.Data.Fintype.Basic

namespace BpirOram.Lib

variable {α : Type}

/-! ## The first record of a key -/

def first (l : List (Nat × α)) (i : Nat) : Option α := (l.find? fun r => r.1 == i).map (·.2)

/-- The keys of the records. -/
def keys (l : List (Nat × α)) : Finset Nat := (l.map (·.1)).toFinset

def Consistent (l : List (Nat × α)) : Prop := ∀ r ∈ l, ∀ r' ∈ l, r.1 = r'.1 → r.2 = r'.2

@[simp] theorem first_nil (i : Nat) : first ([] : List (Nat × α)) i = none := rfl

theorem first_concat (l : List (Nat × α)) (r : Nat × α) (i : Nat) :
    first (l ++ [r]) i = (first l i).or (if r.1 = i then some r.2 else none) := by
  rw [first, List.find?_append, Option.map_or]
  congr 1
  by_cases h : r.1 = i
  · rw [if_pos h, List.find?_cons_of_pos (by simpa using h)]
    rfl
  · rw [if_neg h, List.find?_cons_of_neg (by simpa using h)]
    rfl

theorem mem_of_first {l : List (Nat × α)} {i : Nat} {a : α} (h : first l i = some a) : (i, a) ∈ l := by
  obtain ⟨r, hr, rfl⟩ := Option.map_eq_some_iff.mp h
  have hkey := List.find?_some hr
  rw [beq_iff_eq] at hkey
  rw [← hkey]
  exact List.mem_of_find?_eq_some hr

theorem mem_keys {l : List (Nat × α)} {i : Nat} : i ∈ keys l ↔ ∃ a, (i, a) ∈ l := by
  rw [keys, List.mem_toFinset, List.mem_map]
  exact ⟨fun ⟨r, hr, he⟩ => ⟨r.2, he ▸ hr⟩, fun ⟨a, ha⟩ => ⟨(i, a), ha, rfl⟩⟩

theorem first_isSome {l : List (Nat × α)} {i : Nat} : (first l i).isSome ↔ i ∈ keys l := by
  rw [mem_keys, first, Option.isSome_map, List.find?_isSome]
  constructor
  · intro h
    obtain ⟨r, hr, he⟩ := h
    rw [beq_iff_eq] at he
    exact ⟨r.2, he ▸ hr⟩
  · intro h
    obtain ⟨a, ha⟩ := h
    exact ⟨(i, a), ha, by simp⟩

theorem first_eq_none {l : List (Nat × α)} {i : Nat} : first l i = none ↔ i ∉ keys l := by
  rw [← first_isSome, Option.not_isSome_iff_eq_none]

theorem keys_concat (l : List (Nat × α)) (r : Nat × α) : keys (l ++ [r]) = insert r.1 (keys l) := by
  ext i
  simp only [keys, List.map_append, List.map_cons, List.map_nil, List.toFinset_append, Finset.mem_union, List.mem_toFinset,
    List.mem_singleton, Finset.mem_insert]
  exact or_comm

/-- In consistent records a key's first record is any of them. -/
theorem Consistent.first_eq {l : List (Nat × α)} (h : Consistent l) {i : Nat} {a : α} (hmem : (i, a) ∈ l) :
    first l i = some a := by
  obtain ⟨a', ha'⟩ := Option.isSome_iff_exists.mp (first_isSome.mpr (mem_keys.mpr ⟨a, hmem⟩))
  have hsame : a' = a := h _ (mem_of_first ha') _ hmem rfl
  rw [ha', hsame]

theorem consistent_concat {l : List (Nat × α)} {r : Nat × α} :
    Consistent (l ++ [r]) ↔ Consistent l ∧ ∀ a, first l r.1 = some a → a = r.2 := by
  constructor
  · intro h
    refine ⟨fun x hx y hy => h x (List.mem_append_left _ hx) y (List.mem_append_left _ hy), fun a ha => ?_⟩
    exact h (r.1, a) (List.mem_append_left _ (mem_of_first ha)) r (List.mem_append_right _ (List.mem_singleton_self r)) rfl
  · intro h x hx y hy he
    obtain ⟨hl, hlast⟩ := h
    have hnew : ∀ z ∈ l, z.1 = r.1 → z.2 = r.2 := fun z hz hzr => hlast z.2 (by rw [← hzr]; exact hl.first_eq hz)
    rcases List.mem_append.mp hx with hx | hx
    · rcases List.mem_append.mp hy with hy | hy
      · exact hl x hx y hy he
      · cases List.mem_singleton.mp hy
        exact hnew x hx he
    · cases List.mem_singleton.mp hx
      rcases List.mem_append.mp hy with hy | hy
      · exact (hnew y hy he.symm).symm
      · cases List.mem_singleton.mp hy
        rfl

/-! ## A bitmap -/

def bitIsSet (bits : Bytes) (idx : Nat) : Bool := bits.getD (idx / 8) 0 &&& (1 <<< UInt8.ofNat (idx % 8)) != 0

def setBit (bits : Bytes) (idx : Nat) : Bytes :=
  bits.modify (idx / 8) fun byte => byte ||| (1 <<< UInt8.ofNat (idx % 8))

theorem bit_and_bit : ∀ i j : Fin 8, ((1 <<< UInt8.ofNat i.val) &&& (1 <<< UInt8.ofNat j.val) = (0 : UInt8)) ↔ i ≠ j := by
  decide

theorem byte_or_bit (b : UInt8) (i j : Fin 8) :
    ((b ||| (1 <<< UInt8.ofNat i.val)) &&& (1 <<< UInt8.ofNat j.val) != 0) =
      (i == j || b &&& (1 <<< UInt8.ofNat j.val) != 0) := by
  have hdist : ∀ x y : UInt8, (b ||| x) &&& y = (b &&& y) ||| (x &&& y) := by
    intro x y
    apply UInt8.toBitVec_inj.mp
    simp only [UInt8.toBitVec_and, UInt8.toBitVec_or, BitVec.and_or_distrib_right]
  rw [hdist, Bool.eq_iff_iff, Bool.or_eq_true, bne_iff_ne, bne_iff_ne, beq_iff_eq, ne_eq,
    UInt8.or_eq_zero_iff, bit_and_bit]
  tauto

@[simp] theorem setBit_length (bits : Bytes) (idx : Nat) : (setBit bits idx).length = bits.length := List.length_modify _ _ _

theorem bitIsSet_setBit {bits : Bytes} {i : Nat} (hi : i / 8 < bits.length) (j : Nat) :
    bitIsSet (setBit bits i) j = (i == j || bitIsSet bits j) := by
  unfold bitIsSet setBit
  rw [List.getD_eq_getElem?_getD, List.getD_eq_getElem?_getD, List.getElem?_modify]
  by_cases hword : i / 8 = j / 8
  · simp only [if_pos hword]
    rw [← hword, List.getElem?_eq_getElem hi]
    have hbit := byte_or_bit bits[i / 8] ⟨i % 8, Nat.mod_lt _ (by decide)⟩ ⟨j % 8, Nat.mod_lt _ (by decide)⟩
    have hsame : ((⟨i % 8, Nat.mod_lt _ (by decide)⟩ : Fin 8) == ⟨j % 8, Nat.mod_lt _ (by decide)⟩) = (i == j) := by
      rw [Bool.eq_iff_iff, beq_iff_eq, beq_iff_eq, Fin.mk.injEq]
      omega
    rw [hsame] at hbit
    exact hbit
  · have hne : (i == j) = false := beq_false_of_ne fun h => hword (by rw [h])
    simp only [if_neg hword]
    rw [hne, Bool.false_or]
    cases bits[j / 8]? <;> rfl

theorem bitIsSet_zeros (n j : Nat) : bitIsSet (List.replicate n 0) j = false := by
  unfold bitIsSet
  rw [List.getD_eq_getElem?_getD, List.getElem?_replicate]
  split <;> simp

end BpirOram.Lib
