/-
  BpirOram.Lib.Triple — pre- and postconditions of computations on a state.

  `Triple P m Q E`: from a state with `P`, `m` ends with a value, and then it and the state
  reached are as `Q` says, or with an error, as `E` says. Where `E` holds of no error, `m`
  succeeds. There is one rule for each way `Eff` puts computations together; a loop over the
  numbers below `n` has an invariant for each of them (`Triple.forEach_range`).
-/

import BpirOram.Lib.Eff

namespace BpirOram.Lib.Eff

variable {ε σ τ α β : Type}

def Triple (P : σ → Prop) (m : Eff ε σ α) (Q : α → σ → Prop) (E : ε → σ → Prop) : Prop :=
  ∀ s, P s → (∃ a t, m s = (.ok a, t) ∧ Q a t) ∨ ∃ e t, m s = (.error e, t) ∧ E e t

variable {P P' : σ → Prop} {Q Q' : α → σ → Prop} {E E' : ε → σ → Prop} {m : Eff ε σ α}

namespace Triple

/-- What a triple says of one run. -/
theorem ok (h : Triple P m Q E) {s t : σ} {a : α} (hs : P s) (hrun : m s = (.ok a, t)) : Q a t := by
  rcases h s hs with ⟨b, u, hb, hq⟩ | ⟨e, u, he, -⟩
  · rw [hrun] at hb
    cases hb
    exact hq
  · rw [hrun] at he
    cases he

theorem error (h : Triple P m Q E) {s t : σ} {e : ε} (hs : P s) (hrun : m s = (.error e, t)) : E e t := by
  rcases h s hs with ⟨b, u, hb, -⟩ | ⟨f, u, hf, he⟩
  · rw [hrun] at hb
    cases hb
  · rw [hrun] at hf
    cases hf
    exact he

/-! ## Rules -/

theorem conseq (h : Triple P m Q E) (hP : ∀ s, P' s → P s) (hQ : ∀ a s, Q a s → Q' a s) (hE : ∀ e s, E e s → E' e s) :
    Triple P' m Q' E' := by
  intro s hs
  rcases h s (hP s hs) with ⟨a, t, hrun, hq⟩ | ⟨e, t, hrun, he⟩
  · exact .inl ⟨a, t, hrun, hQ a t hq⟩
  · exact .inr ⟨e, t, hrun, hE e t he⟩

theorem pure (a : α) (h : ∀ s, P s → Q a s) : Triple P (pure a : Eff ε σ α) Q E :=
  fun s hs => .inl ⟨a, s, rfl, h s hs⟩

theorem modify {Q : Unit → σ → Prop} {f : σ → σ} (h : ∀ s, P s → Q () (f s)) :
    Triple P (modify f : Eff ε σ Unit) Q E :=
  fun s hs => .inl ⟨(), f s, rfl, h s hs⟩

theorem bind {R : β → σ → Prop} {f : α → Eff ε σ β} (hm : Triple P m Q E) (hf : ∀ a, Triple (Q a) (f a) R E) :
    Triple P (m >>= f) R E := by
  intro s hs
  rcases hm s hs with ⟨a, t, hrun, hq⟩ | ⟨e, t, hrun, he⟩
  · rw [bind_ok hrun]
    exact hf a t hq
  · exact .inr ⟨e, t, bind_error hrun, he⟩

/-- The state read first is known in what follows. -/
theorem get_bind {f : σ → Eff ε σ α} (h : ∀ s, P s → Triple (· = s) (f s) Q E) : Triple P (get >>= f) Q E :=
  fun s hs => h s hs s rfl

theorem ite {c : Prop} [Decidable c] {n : Eff ε σ α} (hm : c → Triple P m Q E) (hn : ¬ c → Triple P n Q E) :
    Triple P (if c then m else n) Q E := by
  by_cases hc : c
  · rw [if_pos hc]
    exact hm hc
  · rw [if_neg hc]
    exact hn hc

theorem zoom {proj : τ → σ} {put : σ → τ → τ} {P₁ : τ → Prop} {Q₁ : α → τ → Prop} {E₁ : ε → τ → Prop}
    (h : ∀ t, P₁ t → (∃ a s, m (proj t) = (.ok a, s) ∧ Q₁ a (put s t)) ∨
      ∃ e s, m (proj t) = (.error e, s) ∧ E₁ e (put s t)) :
    Triple P₁ (Eff.zoom proj put m) Q₁ E₁ := by
  intro t ht
  rcases h t ht with ⟨a, s, hrun, hq⟩ | ⟨e, s, hrun, he⟩
  · exact .inl ⟨a, put s t, zoom_of hrun, hq⟩
  · exact .inr ⟨e, put s t, zoom_of hrun, he⟩

/-- A loop with an invariant for what is still to come. -/
theorem forEach_rest {I : List τ → σ → Prop} {f : τ → Eff ε σ β} {l : List τ}
    (h : ∀ a rest, a :: rest <:+ l → Triple (I (a :: rest)) (f a) (fun _ => I rest) E) :
    Triple (I l) (Eff.forEach f l) (fun _ => I []) E := by
  induction l with
  | nil => exact pure _ fun _ hs => hs
  | cons a l ih =>
    refine (h a l (List.suffix_refl _)).bind fun b => ?_
    exact (ih fun x rest hx => h x rest (hx.trans (List.suffix_cons a l))).bind fun bs => pure _ fun _ hs => hs

/-- A loop over the numbers below `n`. -/
theorem forEach_range {I : Nat → σ → Prop} {f : Nat → Eff ε σ β} {n : Nat}
    (h : ∀ k < n, Triple (I k) (f k) (fun _ => I (k + 1)) E) :
    Triple (I 0) (Eff.forEach f (List.range n)) (fun _ => I n) E := by
  suffices hfrom : ∀ m k, k + m = n → Triple (I k) (Eff.forEach f (List.range' k m)) (fun _ => I n) E by
    rw [List.range_eq_range']
    exact hfrom n 0 (Nat.zero_add n)
  intro m
  induction m with
  | zero =>
    intro k hk
    rw [Nat.add_zero] at hk
    subst hk
    exact pure _ fun _ hs => hs
  | succ m ih =>
    intro k hk
    rw [List.range'_succ]
    refine (h k (by omega)).bind fun b => ?_
    exact (ih (k + 1) (by omega)).bind fun bs => pure _ fun _ hs => hs

end Triple

end BpirOram.Lib.Eff
