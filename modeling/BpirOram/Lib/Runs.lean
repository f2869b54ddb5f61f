/-
  BpirOram.Lib.Runs — numbered items, sorted and cut into runs of consecutive numbers.
-/

import Mathlib.Data.List.Basic
import Mathlib.Data.List.Sort
import Mathlib.Tactic.Common

namespace BpirOram.Lib

variable {α : Type}

/-- A stable sort by the number of an item. -/
def sortByNumber (items : List (Nat × α)) : List (Nat × α) := items.mergeSort fun x y => decide (x.1 ≤ y.1)

theorem sortByNumber_perm (items : List (Nat × α)) : (sortByNumber items).Perm items := List.mergeSort_perm _ _

theorem sortByNumber_sorted (items : List (Nat × α)) : (sortByNumber items).Pairwise fun x y => x.1 ≤ y.1 := by
  have hsorted : (sortByNumber items).Pairwise fun x y => decide (x.1 ≤ y.1) = true := List.pairwise_mergeSort
    (fun x y z hxy hyz => by simp only [decide_eq_true_eq] at *; omega)
    (fun x y => by simp only [Bool.or_eq_true, decide_eq_true_eq]; omega) items
  exact hsorted.imp fun h => of_decide_eq_true h

theorem sortByNumber_of_sorted {items : List (Nat × α)} (h : items.Pairwise fun x y => x.1 ≤ y.1) :
    sortByNumber items = items := List.mergeSort_of_pairwise (h.imp fun hle => decide_eq_true hle)

/-- Two neighbours of the same number. -/
def hasRepeat : List (Nat × α) → Bool
  | x :: y :: items => x.1 == y.1 || hasRepeat (y :: items)
  | _ => false

/-- Sorted and without equal neighbours: no number twice. -/
theorem nodup_of_not_hasRepeat {items : List (Nat × α)} (hsorted : items.Pairwise fun x y => x.1 ≤ y.1)
    (h : hasRepeat items = false) : (items.map (·.1)).Nodup := by
  induction items with
  | nil => exact List.nodup_nil
  | cons x items ih =>
    obtain ⟨hle, hsorted⟩ := List.pairwise_cons.mp hsorted
    cases items with
    | nil => exact List.nodup_singleton _
    | cons y items =>
      rw [hasRepeat, Bool.or_eq_false_iff] at h
      have hne : x.1 ≠ y.1 := by simpa using h.1
      have hlt : x.1 < y.1 := Nat.lt_of_le_of_ne (hle y List.mem_cons_self) hne
      refine List.nodup_cons.mpr ⟨fun hmem => ?_, ih hsorted h.2⟩
      obtain ⟨z, hz, he⟩ : ∃ z ∈ y :: items, z.1 = x.1 := List.mem_map.mp hmem
      -- `y` comes first of the rest, and its number is larger already
      have hyz : y.1 ≤ z.1 := by
        rcases List.mem_cons.mp hz with rfl | hz
        · exact Nat.le_refl _
        · exact (List.pairwise_cons.mp hsorted).1 z hz
      omega

/-- The longest runs of consecutive numbers, in order. -/
def runs : List (Nat × α) → List (List (Nat × α))
  | [] => []
  | item :: items => match runs items with
    | (next :: run) :: more =>
      if next.1 = item.1 + 1 then (item :: next :: run) :: more else [item] :: (next :: run) :: more
    | more => [item] :: more

theorem runs_flatten (items : List (Nat × α)) : (runs items).flatten = items := by
  induction items with
  | nil => rfl
  | cons item items ih =>
    rw [runs]
    split
    · rename_i hruns
      rw [hruns] at ih
      split
      · exact congrArg (item :: ·) ih
      · exact congrArg (item :: ·) ih
    · exact congrArg (item :: ·) ih

/-- The numbers of a run go on by one. -/
theorem runs_consecutive {items : List (Nat × α)} {run : List (Nat × α)} (h : run ∈ runs items) :
    ∃ first rest, run = first :: rest ∧ run.map (·.1) = List.range' first.1 run.length := by
  induction items generalizing run with
  | nil => cases h
  | cons item items ih =>
    rw [runs] at h
    split at h
    · rename_i next rest more hruns
      have hnext : ∀ run ∈ (next :: rest) :: more,
          ∃ first tail, run = first :: tail ∧ run.map (·.1) = List.range' first.1 run.length := by
        intro run hrun
        exact ih (hruns ▸ hrun)
      split at h
      · rename_i hsucc
        rcases List.mem_cons.mp h with rfl | h
        · obtain ⟨first, tail, he, hnumbers⟩ := hnext _ List.mem_cons_self
          cases he
          refine ⟨item, _, rfl, ?_⟩
          rw [List.map_cons, hnumbers, hsucc, ← List.range'_succ]
          rfl
        · exact hnext run (List.mem_cons_of_mem _ h)
      · rcases List.mem_cons.mp h with rfl | h
        · exact ⟨item, [], rfl, rfl⟩
        · exact hnext run h
    · rcases List.mem_cons.mp h with rfl | h
      · exact ⟨item, [], rfl, rfl⟩
      · exact ih h

/-- Items that all follow one another are one run. -/
theorem runs_of_consecutive {item : Nat × α} {items : List (Nat × α)}
    (h : (item :: items).map (·.1) = List.range' item.1 (items.length + 1)) : runs (item :: items) = [item :: items] := by
  induction items generalizing item with
  | nil => rfl
  | cons next items ih =>
    rw [List.map_cons, List.range'_succ] at h
    obtain ⟨-, hrest⟩ := List.cons.inj h
    have hnext : next.1 = item.1 + 1 := by
      rw [List.map_cons, List.length_cons, List.range'_succ] at hrest
      exact (List.cons.inj hrest).1
    rw [runs, ih (hnext ▸ hrest)]
    exact if_pos hnext

/-- All numbers below `n`, each with its place, are one run from 0 on. -/
theorem runs_range {n : Nat} (hn : 0 < n) : ∃ first rest, runs (sortByNumber (List.range n).zipIdx) = [first :: rest] ∧
    first.1 = 0 ∧ (first :: rest).length = n ∧ ∀ item ∈ first :: rest, item.1 < n := by
  have hnumbers : (List.range n).zipIdx.map (·.1) = List.range' 0 n := by rw [List.zipIdx_map_fst, List.range_eq_range']
  have hlength : (List.range n).zipIdx.length = n := by rw [List.length_zipIdx, List.length_range]
  have hsorted : sortByNumber (List.range n).zipIdx = (List.range n).zipIdx := by
    refine sortByNumber_of_sorted (List.pairwise_map.mp (hnumbers ▸ ?_))
    exact List.pairwise_le_range'
  rw [hsorted]
  cases hitems : (List.range n).zipIdx with
  | nil =>
    rw [hitems, List.length_nil] at hlength
    omega
  | cons first rest =>
    rw [hitems] at hnumbers hlength
    have hfirst : first.1 = 0 := by
      rw [List.map_cons, ← hlength, List.length_cons, List.range'_succ] at hnumbers
      exact (List.cons.inj hnumbers).1
    refine ⟨first, rest, runs_of_consecutive ?_, hfirst, hlength, fun item hitem => ?_⟩
    · rw [hnumbers, hfirst, ← hlength]
      rfl
    · have hmem := List.mem_map_of_mem (f := (·.1)) hitem
      rw [hnumbers, List.mem_range'_1] at hmem
      omega

/-! ## Scattering -/

/-- Values set at numbered places of a list, each the value `g` of its place. -/
theorem foldl_set_getElem? {g : Nat → α} {writes : List (Nat × α)} (hg : ∀ w ∈ writes, w.2 = g w.1) (l : List α)
    (k : Nat) :
    (writes.foldl (fun l w => l.set w.1 w.2) l)[k]? = if k ∈ writes.map (·.1) ∧ k < l.length then some (g k) else l[k]? := by
  induction writes generalizing l with
  | nil => simp
  | cons w writes ih =>
    rw [List.foldl_cons, ih fun x hx => hg x (List.mem_cons_of_mem _ hx), List.length_set, List.map_cons]
    have hw := hg w List.mem_cons_self
    by_cases hk : k = w.1
    · subst hk
      by_cases hlt : w.1 < l.length
      · simp [hlt, hw]
      · simp [hlt]
    · rw [List.getElem?_set_ne (Ne.symm hk)]
      simp only [List.mem_cons, hk, false_or]

/-- The value `c i` set at every place that asks for `i`, or there already. -/
theorem scatter_eq_map {c : Nat → α} {asked : List Nat} {items : List (Nat × Nat)} {l : List α}
    (hitems : ∀ item ∈ items, asked[item.2]? = some item.1) (hlen : l.length = asked.length)
    (hrest : ∀ i k, asked[k]? = some i → (i, k) ∉ items → l[k]? = some (c i)) :
    (items.map fun item => (item.2, c item.1)).foldl (fun l w => l.set w.1 w.2) l = asked.map c := by
  let value : Nat → α := fun k => c (asked[k]?.getD 0)
  have hvalue : ∀ w ∈ items.map fun item => (item.2, c item.1), w.2 = value w.1 := by
    intro w hw
    obtain ⟨item, hitem, rfl⟩ := List.mem_map.mp hw
    show c item.1 = c (asked[item.2]?.getD 0)
    rw [hitems item hitem]
    rfl
  apply List.ext_getElem?
  intro k
  rw [foldl_set_getElem? hvalue, List.getElem?_map, hlen]
  by_cases hk : k < asked.length
  · have hat : asked[k]? = some asked[k] := List.getElem?_eq_getElem hk
    by_cases hmem : (asked[k], k) ∈ items
    · have hplace : k ∈ (items.map fun item => (item.2, c item.1)).map (·.1) :=
        List.mem_map.mpr ⟨_, List.mem_map.mpr ⟨_, hmem, rfl⟩, rfl⟩
      rw [if_pos ⟨hplace, hk⟩, hat]
      show some (c (asked[k]?.getD 0)) = _
      rw [hat]
      rfl
    · have hplace : k ∉ (items.map fun item => (item.2, c item.1)).map (·.1) := by
        intro hk'
        obtain ⟨w, hw, hwk⟩ := List.mem_map.mp hk'
        obtain ⟨item, hitem, rfl⟩ := List.mem_map.mp hw
        have hsame : asked[k]? = some item.1 := hwk ▸ hitems item hitem
        have heq : (asked[k], k) = item := Prod.ext (Option.some.inj (hat.symm.trans hsame)) hwk.symm
        exact hmem (heq ▸ hitem)
      rw [if_neg fun hboth => hplace hboth.1, hrest _ _ hat hmem, hat]
      rfl
  · rw [if_neg fun hboth => hk hboth.2, List.getElem?_eq_none (by omega), List.getElem?_eq_none (by omega)]
    rfl

end BpirOram.Lib
