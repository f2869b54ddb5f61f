/-
  BpirOram.Lib.UpTo — two computations that agree until the first one goes bad.

  A state that is bad stays bad, so the agreement of two programs of the same shape is proved
  piece by piece, as a simulation is (`Eff.Sim`): after a piece either the two still agree, or
  whatever the rest does the run as a whole is bad.
-/

import BpirOram.Lib.Eff

namespace BpirOram.Lib.Eff

variable {ε σ τ σ' τ' α β : Type}

/-- From related states `m` and `n` end the same way in related states, or `m` ends bad; and
    `m` does not make good what is bad. -/
structure UpTo (R : σ → τ → Prop) (Bad : σ → Prop) (m : Eff ε σ α) (n : Eff ε τ α) : Prop where
  stays : Keeps Bad m
  agree : ∀ s t, R s t → ((m s).1 = (n t).1 ∧ R (m s).2 (n t).2) ∨ Bad (m s).2

namespace UpTo

variable {R : σ → τ → Prop} {Bad : σ → Prop}

theorem pure (a : α) : UpTo R Bad (pure a : Eff ε σ α) (pure a) := ⟨.pure a, fun _ _ h => .inl ⟨rfl, h⟩⟩

theorem fail (e : ε) : UpTo R Bad (fail e : Eff ε σ α) (fail e) := ⟨.fail e, fun _ _ h => .inl ⟨rfl, h⟩⟩

theorem lift (r : Except ε α) : UpTo R Bad (lift r) (lift r) := ⟨.lift r, fun _ _ h => .inl ⟨rfl, h⟩⟩

/-- A computation that the good and the bad agree on is a simulation. -/
theorem of_sim {m : Eff ε σ α} {n : Eff ε τ α} (h : Sim R m n) (hbad : Keeps Bad m) : UpTo R Bad m n :=
  ⟨hbad, fun s t hr => .inl (h s t hr)⟩

/-- Where nothing is bad the two agree. -/
theorem sim {m : Eff ε σ α} {n : Eff ε τ α} (h : UpTo R (fun _ => False) m n) : Sim R m n :=
  fun s t hr => (h.agree s t hr).resolve_right id

theorem bind {m : Eff ε σ α} {n : Eff ε τ α} {f : α → Eff ε σ β} {g : α → Eff ε τ β} (hm : UpTo R Bad m n)
    (hf : ∀ a, UpTo R Bad (f a) (g a)) : UpTo R Bad (m >>= f) (n >>= g) where
  stays := hm.stays.bind fun a => (hf a).stays
  agree s t hr := by
    have h := hm.agree s t hr
    rcases hms : m s with ⟨e | a, s'⟩ <;> rcases hnt : n t with ⟨e' | b, t'⟩ <;> rw [hms, hnt] at h
    · rw [bind_error hms, bind_error hnt]
      exact h.imp (fun h => ⟨congrArg Except.error (Except.error.inj h.1), h.2⟩) id
    · rw [bind_error hms]
      exact .inr (h.resolve_left fun h => by cases h.1)
    · rw [bind_ok hms]
      exact .inr ((hf a).stays _ (h.resolve_left fun h => by cases h.1))
    · rw [bind_ok hms, bind_ok hnt]
      rcases h with ⟨h1, h2⟩ | hbad
      · cases h1
        exact (hf a).agree _ _ h2
      · exact .inr ((hf a).stays _ hbad)

theorem forEach {γ : Type} {f : γ → Eff ε σ β} {g : γ → Eff ε τ β} {l : List γ}
    (h : ∀ a ∈ l, UpTo R Bad (f a) (g a)) :
    UpTo R Bad (Eff.forEach f l) (Eff.forEach g l) := by
  induction l with
  | nil => exact .pure []
  | cons a as ih =>
    exact (h a List.mem_cons_self).bind fun b => (ih fun x hx => h x (List.mem_cons_of_mem _ hx)).bind fun bs => .pure (b :: bs)

/-- A computation that looks at the state first goes on by what related states share. -/
theorem get_bind {C : σ → τ → Prop} (hC : ∀ s t, R s t → C s t) (htotal : ∀ s, ∃ t, C s t) {f : σ → Eff ε σ β}
    {g : τ → Eff ε τ β} (h : ∀ s t, C s t → UpTo R Bad (f s) (g t)) : UpTo R Bad (get >>= f) (get >>= g) where
  stays := Keeps.get_bind fun s hs => by
    obtain ⟨t, hst⟩ := htotal s
    exact (h s t hst).stays s hs
  agree s t hr := (h s t (hC s t hr)).agree s t hr

/-- A method of a part. -/
theorem zoom {Q : σ' → τ' → Prop} {Spoiled : σ' → Prop} {proj : σ' → σ} {proj' : τ' → τ} {put : σ → σ' → σ'}
    {put' : τ → τ' → τ'} {m : Eff ε σ α} {n : Eff ε τ α} (h : UpTo R Bad m n)
    (hR : ∀ s t, Q s t → R (proj s) (proj' t))
    (hput : ∀ s t a b, Q s t → R a b → Q (put a s) (put' b t)) (hbad : ∀ s a, Bad a → Spoiled (put a s))
    (hstays : ∀ s a, Spoiled s → (Bad (proj s) → Bad a) → Spoiled (put a s)) :
    UpTo Q Spoiled (Eff.zoom proj put m) (Eff.zoom proj' put' n) where
  stays s hs := hstays s _ hs fun hb => h.stays _ hb
  agree s t hq := (h.agree _ _ (hR s t hq)).imp (fun hr => ⟨hr.1, hput s t _ _ hq hr.2⟩) fun hb => hbad s _ hb

end UpTo
end BpirOram.Lib.Eff
