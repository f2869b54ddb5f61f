/-
  BpirOram.Lib.Ledger — a stream of draws of which each is spent at most once.

  Every key holds one draw. Serving a key spends the draw it holds and gives it the next one
  of the stream; skipping spends the next ones at once. What is spent and what is held
  never meet (`Ledger.Sound`), so no draw is spent twice (`Ledger.Sound.serveAll`,
  `Ledger.Sound.skip`).
-/

import Mathlib.Data.List.Nodup
import Mathlib.Data.List.Range
import Mathlib.Logic.Function.Basic
import Mathlib.Tactic.Common

namespace BpirOram.Lib

variable {κ : Type} [DecidableEq κ]

structure Ledger (κ : Type) where
  next : Nat
  current : κ → Nat

namespace Ledger

/-- The ledger after one key was served. -/
def serve (k : κ) (l : Ledger κ) : Ledger κ where
  next := l.next + 1
  current := Function.update l.current k l.next

/-- The draws spent, and the ledger after. -/
def serveAll : List κ → Ledger κ → List Nat × Ledger κ
  | [], l => ([], l)
  | k :: ks, l => (l.current k :: (serveAll ks (l.serve k)).1, (serveAll ks (l.serve k)).2)

def skip (count : Nat) (l : Ledger κ) : List Nat × Ledger κ :=
  (List.range' l.next count, { l with next := l.next + count })

@[simp] theorem serve_next (k : κ) (l : Ledger κ) : (l.serve k).next = l.next + 1 := rfl

@[simp] theorem serve_current_self (k : κ) (l : Ledger κ) : (l.serve k).current k = l.next := Function.update_self _ _ _

theorem serve_current_of_ne {j k : κ} (h : j ≠ k) (l : Ledger κ) : (l.serve k).current j = l.current j :=
  Function.update_of_ne h _ _

theorem serveAll_next (ks : List κ) (l : Ledger κ) : (l.serveAll ks).2.next = l.next + ks.length := by
  induction ks generalizing l with
  | nil => rfl
  | cons k ks ih =>
    rw [serveAll, List.length_cons, ih, serve_next]
    omega

theorem serveAll_length (ks : List κ) (l : Ledger κ) : (l.serveAll ks).1.length = ks.length := by
  induction ks generalizing l with
  | nil => rfl
  | cons k ks ih => rw [serveAll, List.length_cons, ih, List.length_cons]

/-- Every draw of the stream so far is spent, held by one key, or neither; `K` are the keys
    that hold one. -/
structure Sound (K : κ → Prop) (spent : List Nat) (l : Ledger κ) : Prop where
  nodup : spent.Nodup
  spent_lt : ∀ d ∈ spent, d < l.next
  current_lt : ∀ k, K k → l.current k < l.next
  current_inj : ∀ j k, K j → K k → l.current j = l.current k → j = k
  apart : ∀ k, K k → l.current k ∉ spent

variable {K : κ → Prop} {spent : List Nat} {l : Ledger κ}

theorem Sound.serve (h : Sound K spent l) {k : κ} (hk : K k) : Sound K (spent ++ [l.current k]) (l.serve k) where
  nodup := by
    refine List.nodup_append.mpr ⟨h.nodup, List.nodup_singleton _, ?_⟩
    rintro a ha b hb rfl
    rw [List.mem_singleton] at hb
    subst hb
    exact h.apart k hk ha
  spent_lt d hd := by
    rcases List.mem_append.mp hd with hd | hd
    · exact Nat.lt_succ_of_lt (h.spent_lt d hd)
    · rw [List.mem_singleton.mp hd]
      exact Nat.lt_succ_of_lt (h.current_lt k hk)
  current_lt j hj := by
    by_cases he : j = k
    · subst he
      simp
    · rw [serve_current_of_ne he]
      exact Nat.lt_succ_of_lt (h.current_lt j hj)
  current_inj i j hi hj he := by
    -- The key that was served holds a draw newer than all the others.
    by_cases hik : i = k <;> by_cases hjk : j = k
    · rw [hik, hjk]
    · subst hik
      rw [serve_current_self, serve_current_of_ne hjk] at he
      exact absurd (h.current_lt j hj) (by omega)
    · subst hjk
      rw [serve_current_self, serve_current_of_ne hik] at he
      exact absurd (h.current_lt i hi) (by omega)
    · rw [serve_current_of_ne hik, serve_current_of_ne hjk] at he
      exact h.current_inj i j hi hj he
  apart j hj hmem := by
    by_cases he : j = k
    · subst he
      rw [serve_current_self] at hmem
      rcases List.mem_append.mp hmem with hmem | hmem
      · exact Nat.lt_irrefl _ (h.spent_lt _ hmem)
      · exact absurd (h.current_lt j hj) (by rw [← List.mem_singleton.mp hmem]; omega)
    · rw [serve_current_of_ne he] at hmem
      rcases List.mem_append.mp hmem with hmem | hmem
      · exact h.apart j hj hmem
      · exact he (h.current_inj j k hj hk (List.mem_singleton.mp hmem))

theorem Sound.serveAll (h : Sound K spent l) {ks : List κ} (hks : ∀ k ∈ ks, K k) :
    Sound K (spent ++ (l.serveAll ks).1) (l.serveAll ks).2 := by
  induction ks generalizing spent l with
  | nil => rwa [Ledger.serveAll, List.append_nil]
  | cons k ks ih =>
    have hrest := ih (h.serve (hks k (by simp))) fun j hj => hks j (by simp [hj])
    rwa [List.append_assoc] at hrest

omit [DecidableEq κ] in
theorem Sound.skip (h : Sound K spent l) (count : Nat) : Sound K (spent ++ (l.skip count).1) (l.skip count).2 where
  nodup := by
    refine List.nodup_append.mpr ⟨h.nodup, List.nodup_range', ?_⟩
    rintro a ha b hb rfl
    have := h.spent_lt a ha
    have := (List.mem_range'_1.mp hb).1
    omega
  spent_lt d hd := by
    simp only [Ledger.skip] at hd ⊢
    rcases List.mem_append.mp hd with hd | hd
    · have := h.spent_lt d hd
      omega
    · exact (List.mem_range'_1.mp hd).2
  current_lt k hk := Nat.lt_of_lt_of_le (h.current_lt k hk) (Nat.le_add_right _ _)
  current_inj := h.current_inj
  apart k hk hmem := by
    rcases List.mem_append.mp hmem with hmem | hmem
    · exact h.apart k hk hmem
    · exact absurd (h.current_lt k hk) (Nat.not_lt.mpr (List.mem_range'_1.mp hmem).1)

/-- The first `n` draws are held by the first `n` keys. -/
def start (n : Nat) : Ledger Nat where
  next := n
  current := id

theorem start_sound (n : Nat) : Sound (· < n) [] (start n) where
  nodup := List.nodup_nil
  spent_lt d hd := absurd hd (by simp)
  current_lt k hk := hk
  current_inj j k _ _ h := h
  apart k _ h := absurd h (by simp)

end Ledger
end BpirOram.Lib
