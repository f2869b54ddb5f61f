/-
  BpirOram.Lib.Streams — which words of a stream are read does not show.

  A stream is `n` words. Whatever is computed from the words at some positions, no position
  twice, comes out the same for as many streams as it does with any other such positions:
  a permutation of the streams takes the one to the other (`card_words_at`).
-/

import Mathlib.Logic.Equiv.Fintype
import Mathlib.SetTheory.Cardinal.Finite

namespace BpirOram.Lib

variable {α β : Type} {n : Nat} {ps qs : List Nat}

/-- The word at a position, and a default one past the end. -/
def wordAt [Inhabited α] (stream : Fin n → α) (k : Nat) : α := if h : k < n then stream ⟨k, h⟩ else default

/-- Position `i` of a list of positions. -/
def position (ps : List Nat) (hps : ∀ k ∈ ps, k < n) (i : Fin ps.length) : Fin n := ⟨ps.get i, hps _ (ps.get_mem i)⟩

theorem position_injective (hps : ∀ k ∈ ps, k < n) (h : ps.Nodup) : Function.Injective (position ps hps) := by
  intro i j he
  exact List.nodup_iff_injective_get.mp h (congrArg Fin.val he)

theorem wordAt_position [Inhabited α] (stream : Fin n → α) (hps : ∀ k ∈ ps, k < n) (i : Fin ps.length) :
    wordAt stream (ps.get i) = stream (position ps hps i) := dif_pos (hps _ (ps.get_mem i))

/-- Any positions can be moved to any others. -/
theorem exists_perm_positions (hp : ps.Nodup) (hq : qs.Nodup) (hlen : ps.length = qs.length) (hps : ∀ k ∈ ps, k < n)
    (hqs : ∀ k ∈ qs, k < n) :
    ∃ σ : Equiv.Perm (Fin n), ∀ i, σ (position ps hps i) = position qs hqs (Fin.cast hlen i) := by
  classical
  have hf := position_injective hps hp
  have hg := (position_injective hqs hq).comp (Fin.cast_injective hlen)
  refine ⟨((Equiv.ofInjective _ hf).symm.trans (Equiv.ofInjective _ hg)).extendSubtype, fun i => ?_⟩
  rw [Equiv.extendSubtype_apply_of_mem _ _ ⟨i, rfl⟩, Equiv.trans_apply,
    show (⟨position ps hps i, ⟨i, rfl⟩⟩ : Set.range (position ps hps)) = Equiv.ofInjective _ hf i from rfl,
      Equiv.symm_apply_apply]
  rfl

theorem card_words_at [Inhabited α] (f : List α → β) (hp : ps.Nodup) (hq : qs.Nodup) (hlen : ps.length = qs.length)
    (hps : ∀ k ∈ ps, k < n) (hqs : ∀ k ∈ qs, k < n) (b : β) :
    Nat.card {stream : Fin n → α // f (ps.map (wordAt stream)) = b}
      = Nat.card {stream : Fin n → α // f (qs.map (wordAt stream)) = b} := by
  obtain ⟨σ, hσ⟩ := exists_perm_positions hp hq hlen hps hqs
  have hread : ∀ stream : Fin n → α, qs.map (wordAt stream) = ps.map (wordAt (stream ∘ σ)) := by
    intro stream
    refine List.ext_get (by rw [List.length_map, List.length_map, hlen]) fun i hi hi' => ?_
    rw [List.length_map] at hi hi'
    rw [List.get_eq_getElem, List.get_eq_getElem, List.getElem_map, List.getElem_map]
    calc wordAt stream (qs.get ⟨i, hi⟩) = stream (position qs hqs ⟨i, hi⟩) := wordAt_position stream hqs ⟨i, hi⟩
      _ = (stream ∘ σ) (position ps hps ⟨i, hi'⟩) := by rw [Function.comp_apply, hσ]; rfl
      _ = wordAt (stream ∘ σ) (ps.get ⟨i, hi'⟩) := (wordAt_position _ hps ⟨i, hi'⟩).symm
  refine Nat.card_congr ((Equiv.arrowCongr σ (Equiv.refl α)).subtypeEquiv fun stream => ?_)
  have hback : Equiv.arrowCongr σ (Equiv.refl α) stream ∘ σ = stream := by
    funext k
    simp [Equiv.arrowCongr]
  rw [hread, hback]

end BpirOram.Lib
