/-
  BpirOram.Lib.Eff — computations on a state that survives a failure.

  `Eff ε σ α` is a method on `&mut self` returning a `Result`: it ends with a value or
  an error and keeps, either way, the state it reached. `Sim` relates two such
  computations run on related states; it composes through binds, projections and loops,
  so a refinement between two programs of the same shape is proved piece by piece.
-/

import Mathlib.Algebra.Group.Nat.Defs
import Mathlib.Data.List.Forall2

namespace BpirOram.Lib

/-- A computation that ends with a value or an error, in the state it reached. -/
def Eff (ε σ α : Type) : Type := σ → Except ε α × σ

namespace Eff

variable {ε σ τ α β γ : Type}

instance : Monad (Eff ε σ) where
  pure a := fun s => (.ok a, s)
  bind m f := fun s => match m s with
    | (.ok a, t) => f a t
    | (.error e, t) => (.error e, t)

def fail (e : ε) : Eff ε σ α := fun s => (.error e, s)

def get : Eff ε σ σ := fun s => (.ok s, s)

def modify (f : σ → σ) : Eff ε σ Unit := fun s => (.ok (), f s)

/-- A step that reads no state: Rust's `?` on a plain `Result`. -/
def lift (r : Except ε α) : Eff ε σ α := fun s => (r, s)

/-- `if !c { return Err(e) }`. -/
def ensure (c : Prop) [Decidable c] (e : ε) : Eff ε σ Unit :=
  if c then pure () else fail e

/-- A method of one field, run on the whole. -/
def zoom (proj : τ → σ) (put : σ → τ → τ) (m : Eff ε σ α) : Eff ε τ α := fun t =>
  ((m (proj t)).1, put (m (proj t)).2 t)

/-- A `for` loop with `?` in its body, collecting what each turn yields. -/
def forEach (f : α → Eff ε σ β) : List α → Eff ε σ (List β)
  | [] => pure []
  | a :: as => do
    let b ← f a
    let bs ← forEach f as
    pure (b :: bs)

/-- A call whose result, whichever it is, is handed back to the caller. -/
def attempt (m : Eff ε σ α) : Eff ε σ (Except ε α) := fun s => (.ok (m s).1, (m s).2)

/-! ## Symbolic execution -/

@[simp] theorem pure_apply (a : α) (s : σ) : (pure a : Eff ε σ α) s = (.ok a, s) := rfl
@[simp] theorem fail_apply (e : ε) (s : σ) : (fail e : Eff ε σ α) s = (.error e, s) := rfl
@[simp] theorem get_apply (s : σ) : (get : Eff ε σ σ) s = (.ok s, s) := rfl
@[simp] theorem modify_apply (f : σ → σ) (s : σ) : (modify f : Eff ε σ Unit) s = (.ok (), f s) := rfl
@[simp] theorem lift_apply (r : Except ε α) (s : σ) : (lift r : Eff ε σ α) s = (r, s) := rfl

theorem run_of_result {m : Eff ε σ α} {s : σ} {r : Except ε α} (h : (m s).1 = r) : ∃ t, m s = (r, t) :=
  ⟨_, Prod.ext h rfl⟩

theorem run_eq {m : Eff ε σ α} {s : σ} {r : Except ε α} (h : (m s).1 = r) : m s = (r, (m s).2) := Prod.ext h rfl

theorem bind_ok {m : Eff ε σ α} {f : α → Eff ε σ β} {s t : σ} {a : α} (h : m s = (.ok a, t)) :
    (m >>= f) s = f a t := by
  simp only [bind, h]

theorem bind_error {m : Eff ε σ α} {f : α → Eff ε σ β} {s t : σ} {e : ε} (h : m s = (.error e, t)) :
    (m >>= f) s = (.error e, t) := by
  simp only [bind, h]

theorem bind_congr {m m' : Eff ε σ α} {f : α → Eff ε σ β} {s : σ} (h : m s = m' s) : (m >>= f) s = (m' >>= f) s := by
  simp only [bind, h]

@[simp] theorem pure_bind (a : α) (f : α → Eff ε σ β) : (pure a : Eff ε σ α) >>= f = f a := rfl

@[simp] theorem get_bind (f : σ → Eff ε σ β) (s : σ) : (get >>= f) s = f s s := rfl

@[simp] theorem lift_ok_bind (a : α) (f : α → Eff ε σ β) : (lift (.ok a) : Eff ε σ α) >>= f = f a := rfl

@[simp] theorem lift_error_bind (e : ε) (f : α → Eff ε σ β) : (lift (.error e) : Eff ε σ α) >>= f = fail e := rfl

@[simp] theorem fail_bind (e : ε) (f : α → Eff ε σ β) : (fail e : Eff ε σ α) >>= f = fail e := rfl

@[simp] theorem modify_bind (g : σ → σ) (f : Unit → Eff ε σ β) (s : σ) : (modify g >>= f) s = f () (g s) := rfl

theorem ite_apply (c : Prop) [Decidable c] (m n : Eff ε σ α) (s : σ) :
    (if c then m else n) s = if c then m s else n s := by
  split <;> rfl

theorem ensure_of {c : Prop} [Decidable c] (h : c) (e : ε) : (ensure c e : Eff ε σ Unit) = pure () := if_pos h

theorem ensure_not {c : Prop} [Decidable c] (h : ¬ c) (e : ε) : (ensure c e : Eff ε σ Unit) = fail e := if_neg h

theorem bind_assoc (m : Eff ε σ α) (f : α → Eff ε σ β) (g : β → Eff ε σ γ) :
    m >>= f >>= g = m >>= fun a => f a >>= g := by
  funext s
  rcases h : m s with ⟨_ | a, t⟩
  · rw [bind_error (bind_error h), bind_error h]
  · rcases hf : f a t with ⟨_ | b, u⟩
    · rw [bind_error ((bind_ok h).trans hf), bind_ok h, bind_error hf]
    · rw [bind_ok ((bind_ok h).trans hf), bind_ok h, bind_ok hf]

theorem bind_pure_unit (m : Eff ε σ Unit) : (m >>= fun _ => pure ()) = m := by
  funext s
  rcases h : m s with ⟨_ | ⟨⟩, t⟩
  · rw [bind_error h]
  · rw [bind_ok h]; rfl

/-- What a successful sequence says of its two halves. -/
theorem bind_eq_ok {m : Eff ε σ α} {f : α → Eff ε σ β} {s u : σ} {b : β} (h : (m >>= f) s = (.ok b, u)) :
    ∃ a t, m s = (.ok a, t) ∧ f a t = (.ok b, u) := by
  simp only [bind] at h
  split at h
  · exact ⟨_, _, ‹_›, h⟩
  · cases h

theorem lift_bind_eq_ok {r : Except ε α} {f : α → Eff ε σ β} {s u : σ} {b : β} (h : (lift r >>= f) s = (.ok b, u)) :
    ∃ a, r = .ok a ∧ f a s = (.ok b, u) := by
  cases r with
  | error e => cases h
  | ok a => exact ⟨a, rfl, h⟩

theorem zoom_of {proj : τ → σ} {put : σ → τ → τ} {m : Eff ε σ α} {t : τ} {s : σ} {r : Except ε α}
    (h : m (proj t) = (r, s)) : zoom proj put m t = (r, put s t) := by
  rw [zoom, h]

theorem zoom_eq_ok {proj : τ → σ} {put : σ → τ → τ} {m : Eff ε σ α} {t u : τ} {a : α}
    (h : zoom proj put m t = (.ok a, u)) :
    ∃ s, m (proj t) = (.ok a, s) ∧ u = put s t := by
  obtain ⟨hr, rfl⟩ := Prod.mk.inj h
  exact ⟨_, Prod.ext hr rfl, rfl⟩

@[simp] theorem forEach_nil (f : α → Eff ε σ β) (s : σ) : forEach f [] s = (.ok [], s) := rfl

theorem forEach_ok {f : α → Eff ε σ β} {a : α} {as : List α} {s t u : σ} {b : β} {bs : List β}
    (h : f a s = (.ok b, t)) (hs : forEach f as t = (.ok bs, u)) :
    forEach f (a :: as) s = (.ok (b :: bs), u) := by
  rw [forEach, bind_ok h, bind_ok hs]; rfl

theorem forEach_error_head {f : α → Eff ε σ β} {a : α} {as : List α} {s t : σ} {e : ε}
    (h : f a s = (.error e, t)) : forEach f (a :: as) s = (.error e, t) := by
  rw [forEach, bind_error h]

theorem forEach_error_tail {f : α → Eff ε σ β} {a : α} {as : List α} {s t u : σ} {b : β} {e : ε}
    (h : f a s = (.ok b, t)) (hs : forEach f as t = (.error e, u)) :
    forEach f (a :: as) s = (.error e, u) := by
  rw [forEach, bind_ok h, bind_error hs]

/-- A loop that fails at `a`. -/
theorem forEach_error_at {f : α → Eff ε σ β} {as as' : List α} {a : α} {s t u : σ} {bs : List β} {e : ε}
    (hs : forEach f as s = (.ok bs, t)) (h : f a t = (.error e, u)) : forEach f (as ++ a :: as') s = (.error e, u) := by
  induction as generalizing s bs with
  | nil =>
    cases hs
    exact forEach_error_head h
  | cons x as ih =>
    obtain ⟨b, s', hx, hrest⟩ := bind_eq_ok hs
    obtain ⟨bs', t', has, hlast⟩ := bind_eq_ok hrest
    cases hlast
    exact forEach_error_tail hx (ih has)

/-- A loop whose turns keep `P` and each yield `g a` yields them all. -/
theorem forEach_map {f : α → Eff ε σ β} {g : α → β} {P : σ → Prop} {l : List α} {s : σ}
    (h : ∀ a ∈ l, ∀ s, P s → ∃ t, f a s = (.ok (g a), t) ∧ P t) (hs : P s) :
    ∃ t, forEach f l s = (.ok (l.map g), t) ∧ P t := by
  induction l generalizing s with
  | nil => exact ⟨s, rfl, hs⟩
  | cons a as ih =>
    obtain ⟨t, h1, ht⟩ := h a (by simp) s hs
    obtain ⟨u, h2, hu⟩ := ih (fun x hx => h x (by simp [hx])) ht
    exact ⟨u, forEach_ok h1 h2, hu⟩

/-- A loop whose turns step an abstract state `c` by `g` folds `g`. -/
theorem forEach_foldl {f : α → Eff ε σ β} {g : γ → α → γ} {P : γ → σ → Prop} {l : List α} {c : γ} {s : σ}
    (h : ∀ a ∈ l, ∀ c s, P c s → ∃ b t, f a s = (.ok b, t) ∧ P (g c a) t) (hs : P c s) :
    ∃ bs t, forEach f l s = (.ok bs, t) ∧ P (l.foldl g c) t := by
  induction l generalizing c s with
  | nil => exact ⟨[], s, rfl, hs⟩
  | cons a as ih =>
    obtain ⟨b, t, h1, ht⟩ := h a (by simp) c s hs
    obtain ⟨bs, u, h2, hu⟩ := ih (fun x hx => h x (by simp [hx])) ht
    exact ⟨b :: bs, u, forEach_ok h1 h2, hu⟩

/-- A loop over consecutive numbers, with an invariant for each of them. -/
theorem forEach_upTo {f : Nat → Eff ε σ β} {P : Nat → σ → Prop} {n k : Nat} {s : σ}
    (h : ∀ i, k ≤ i → i < k + n → ∀ s, P i s → ∃ b t, f i s = (.ok b, t) ∧ P (i + 1) t) (hs : P k s) :
    ∃ bs t, forEach f (List.range' k n) s = (.ok bs, t) ∧ P (k + n) t := by
  induction n generalizing k s with
  | zero => exact ⟨[], s, rfl, hs⟩
  | succ n ih =>
    obtain ⟨b, t, h1, ht⟩ := h k (by omega) (by omega) s hs
    obtain ⟨bs, u, h2, hu⟩ := ih (fun i hi hin => h i (by omega) (by omega)) ht
    rw [List.range'_succ]
    exact ⟨b :: bs, u, forEach_ok h1 h2, by rwa [show k + (n + 1) = k + 1 + n by omega]⟩

/-- A loop that counts down to 0. -/
theorem forEach_downTo {f : Nat → Eff ε σ β} {P : Nat → σ → Prop} {n : Nat} {s : σ}
    (h : ∀ i < n, ∀ s, P (i + 1) s → ∃ b t, f i s = (.ok b, t) ∧ P i t) (hs : P n s) :
    ∃ bs t, forEach f (List.range n).reverse s = (.ok bs, t) ∧ P 0 t := by
  induction n generalizing s with
  | zero => exact ⟨[], s, rfl, hs⟩
  | succ n ih =>
    obtain ⟨b, t, h1, ht⟩ := h n (by omega) s hs
    obtain ⟨bs, u, h2, hu⟩ := ih (fun i hi => h i (by omega)) ht
    rw [List.range_succ, List.reverse_append, List.reverse_singleton, List.singleton_append]
    exact ⟨b :: bs, u, forEach_ok h1 h2, hu⟩

/-- What a loop that ended well says of each of its turns. -/
theorem forEach_eq_ok {f : α → Eff ε σ β} {P : σ → Prop} {Q : α → β → Prop} {l : List α} {s u : σ} {bs : List β}
    (h : ∀ a ∈ l, ∀ s b t, P s → f a s = (.ok b, t) → Q a b ∧ P t) (hs : P s) (hrun : forEach f l s = (.ok bs, u)) :
    List.Forall₂ Q l bs ∧ P u := by
  induction l generalizing s bs with
  | nil => cases hrun; exact ⟨.nil, hs⟩
  | cons a as ih =>
    obtain ⟨b, t, h1, hrest⟩ := bind_eq_ok hrun
    obtain ⟨bs', u', h2, hlast⟩ := bind_eq_ok hrest
    cases hlast
    obtain ⟨hq, ht⟩ := h a (by simp) s b t hs h1
    obtain ⟨hqs, hu⟩ := ih (fun x hx => h x (by simp [hx])) ht h2
    exact ⟨.cons hq hqs, hu⟩

/-- A loop over consecutive numbers is the loop over what they number. -/
theorem forEach_range' {f : Nat → Eff ε σ β} {g : α → Eff ε σ β} {l : List α} {k : Nat}
    (h : ∀ j (hj : j < l.length), f (k + j) = g l[j]) : forEach f (List.range' k l.length) = forEach g l := by
  induction l generalizing k with
  | nil => rfl
  | cons a as ih =>
    have h0 : f k = g a := h 0 (by simp)
    have hs : forEach f (List.range' (k + 1) as.length) = forEach g as := ih fun j hj => by
      have := h (j + 1) (by simpa using hj)
      rwa [show k + (j + 1) = k + 1 + j by omega] at this
    rw [List.length_cons, List.range'_succ, forEach, forEach, h0, hs]

/-- A loop over a field is a loop on the whole. -/
theorem forEach_zoom {proj : τ → σ} {put : σ → τ → τ} (hput : ∀ s t, proj (put s t) = s)
    (hself : ∀ t, put (proj t) t = t) (htwice : ∀ s s' t, put s (put s' t) = put s t) (f : α → Eff ε σ β) (l : List α) :
    forEach (fun a => zoom proj put (f a)) l = zoom proj put (forEach f l) := by
  induction l with
  | nil =>
    funext t
    rw [forEach_nil, zoom, forEach_nil, hself]
  | cons a as ih =>
    funext t
    rw [forEach, ih, zoom, forEach]
    rcases h1 : f a (proj t) with ⟨e | b, s₁⟩
    · have hz : zoom proj put (f a) t = (.error e, put s₁ t) := by rw [zoom, h1]
      rw [bind_error hz, bind_error h1]
    · have hz : zoom proj put (f a) t = (.ok b, put s₁ t) := by rw [zoom, h1]
      rw [bind_ok hz, bind_ok h1]
      rcases h2 : forEach f as s₁ with ⟨e | bs, s₂⟩
      · have hz2 : zoom proj put (forEach f as) (put s₁ t) = (.error e, put s₂ t) := by rw [zoom, hput, h2, htwice]
        rw [bind_error hz2, bind_error h2]
      · have hz2 : zoom proj put (forEach f as) (put s₁ t) = (.ok bs, put s₂ t) := by rw [zoom, hput, h2, htwice]
        rw [bind_ok hz2, bind_ok h2]
        rfl

/-! ## Preservation -/

/-- `m` preserves `P`, whichever way it ends. -/
def Keeps (P : σ → Prop) (m : Eff ε σ α) : Prop := ∀ s, P s → P (m s).2

variable {P : σ → Prop}

theorem Keeps.apply {m : Eff ε σ α} (hm : Keeps P m) {s : σ} (h : P s) : P (m s).2 := hm s h

theorem Keeps.ok {m : Eff ε σ α} (hm : Keeps P m) {s t : σ} {a : α} (h : P s) (hrun : m s = (.ok a, t)) : P t := by
  have ht := hm s h
  rwa [hrun] at ht

theorem Keeps.pure (a : α) : Keeps P (pure a : Eff ε σ α) := fun _ h => h

theorem Keeps.fail (e : ε) : Keeps P (fail e : Eff ε σ α) := fun _ h => h

theorem Keeps.lift (r : Except ε α) : Keeps P (lift r : Eff ε σ α) := fun _ h => h

theorem Keeps.modify {f : σ → σ} (h : ∀ s, P s → P (f s)) : Keeps P (modify f : Eff ε σ Unit) := h

theorem Keeps.bind {m : Eff ε σ α} {f : α → Eff ε σ β} (hm : Keeps P m) (hf : ∀ a, Keeps P (f a)) :
    Keeps P (m >>= f) := by
  intro s h
  have hs := hm s h
  rcases hms : m s with ⟨_ | a, t⟩ <;> rw [hms] at hs
  · rw [bind_error hms]; exact hs
  · rw [bind_ok hms]; exact hf a t hs

/-- A computation that looks at the state first may be judged at each state apart. -/
theorem Keeps.get_bind {f : σ → Eff ε σ β} (h : ∀ s, P s → P (f s s).2) : Keeps P (get >>= f) := h

theorem Keeps.forEach {f : α → Eff ε σ β} {l : List α} (h : ∀ a ∈ l, Keeps P (f a)) : Keeps P (forEach f l) := by
  induction l with
  | nil => exact Keeps.pure _
  | cons a as ih =>
    exact (h a (by simp)).bind fun b => (ih fun x hx => h x (by simp [hx])).bind fun bs => Keeps.pure _

theorem Keeps.zoom {Q : τ → Prop} {proj : τ → σ} {put : σ → τ → τ} {m : Eff ε σ α} (hm : Keeps P m)
    (hproj : ∀ t, Q t → P (proj t)) (hput : ∀ s t, Q t → P s → Q (put s t)) : Keeps Q (Eff.zoom proj put m) :=
  fun t h => hput _ _ h (hm _ (hproj t h))

/-! ## Simulation -/

/-- `m` and `n`, started in related states, end the same way, in related states. -/
def Sim (R : σ → τ → Prop) (m : Eff ε σ α) (n : Eff ε τ α) : Prop :=
  ∀ s t, R s t → (m s).1 = (n t).1 ∧ R (m s).2 (n t).2

variable {R : σ → τ → Prop}

theorem Sim.pure (a : α) : Sim R (pure a : Eff ε σ α) (pure a) := fun _ _ h => ⟨rfl, h⟩

theorem Sim.bind {m : Eff ε σ α} {n : Eff ε τ α} {f : α → Eff ε σ β} {g : α → Eff ε τ β} (hm : Sim R m n)
    (hf : ∀ a, Sim R (f a) (g a)) : Sim R (m >>= f) (n >>= g) := by
  intro s t h
  obtain ⟨h1, h2⟩ := hm s t h
  rcases hms : m s with ⟨_ | a, s'⟩ <;> rcases hnt : n t with ⟨_ | b, t'⟩ <;> rw [hms, hnt] at h1 h2
  · cases h1
    rw [bind_error hms, bind_error hnt]; exact ⟨rfl, h2⟩
  · cases h1
  · cases h1
  · cases h1
    rw [bind_ok hms, bind_ok hnt]; exact hf _ _ _ h2

theorem Sim.attempt {m : Eff ε σ α} {n : Eff ε τ α} (h : Sim R m n) : Sim R (attempt m) (attempt n) := by
  intro s t hst
  obtain ⟨h1, h2⟩ := h s t hst
  exact ⟨congrArg Except.ok h1, h2⟩

theorem Sim.forEach {f : α → Eff ε σ β} {g : α → Eff ε τ β} {l : List α} (h : ∀ a ∈ l, Sim R (f a) (g a)) :
    Sim R (Eff.forEach f l) (Eff.forEach g l) := by
  induction l with
  | nil => exact Sim.pure _
  | cons a as ih =>
    exact (h a (by simp)).bind fun b => (ih fun x hx => h x (by simp [hx])).bind fun bs => Sim.pure _

end Eff
end BpirOram.Lib
