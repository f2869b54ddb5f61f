/-
  BpirOram.Lib.Exact — formats in which every value has one encoding and nothing else is
  accepted.

  An encoder and a decoder that may both fail are `Exact` when each undoes the other on
  whatever it succeeds on, the encoder succeeds on the values of a shape, and the decoder on
  the well-formed inputs and no others. `of_iff` reduces this to one equivalence, "decodes to
  `v`" against "is what `v` encodes to"; `list` carries it over element by element.
-/

import BpirOram.Lib.Bytes

namespace BpirOram.Lib

/-- `encode` and `decode` are inverse to each other between the values of a shape and the
    well-formed inputs. -/
structure Exact {ε α β : Type} (Shaped : α → Prop) (WellFormed : β → Prop) (encode : α → Except ε β)
    (decode : β → Except ε α) : Prop where
  decode_encode : ∀ v, Shaped v → ∃ b, encode v = .ok b ∧ decode b = .ok v
  encode_decode : ∀ b v, decode b = .ok v → encode v = .ok b
  accepts : ∀ b, (∃ v, decode b = .ok v) ↔ WellFormed b
  shaped : ∀ b v, decode b = .ok v → Shaped v

namespace Exact

variable {ε α β : Type} {Shaped : α → Prop} {WellFormed : β → Prop} {encode : α → Except ε β}
  {decode : β → Except ε α}

/-- It is enough that the decoder returns exactly what encodes to its input. -/
theorem of_iff (hiff : ∀ b v, decode b = .ok v ↔ encode v = .ok b) (hencode : ∀ v, (∃ b, encode v = .ok b) ↔ Shaped v)
    (haccepts : ∀ b, (∃ v, decode b = .ok v) ↔ WellFormed b) : Exact Shaped WellFormed encode decode where
  decode_encode v hv := by
    obtain ⟨b, hb⟩ := (hencode v).mpr hv
    exact ⟨b, hb, (hiff b v).mpr hb⟩
  encode_decode b v := (hiff b v).mp
  accepts := haccepts
  shaped b v h := (hencode v).mp ⟨b, (hiff b v).mp h⟩

/-- What encodes to `b` is what `b` decodes to. -/
theorem decode_iff (h : Exact Shaped WellFormed encode decode) {b : β} {v : α} (hv : Shaped v) :
    decode b = .ok v ↔ encode v = .ok b := by
  refine ⟨h.encode_decode b v, fun hb => ?_⟩
  obtain ⟨b', hb', hd⟩ := h.decode_encode v hv
  rw [hb] at hb'
  cases hb'
  exact hd

/-- What decodes is well formed. -/
theorem wellFormed (h : Exact Shaped WellFormed encode decode) {b : β} {v : α} (hd : decode b = .ok v) : WellFormed b :=
  (h.accepts b).mp ⟨v, hd⟩

/-! ## Element by element -/

theorem mapM_cons_ok {f : α → Except ε β} {a : α} {as : List α} {b : β} {bs : List β} (h : f a = .ok b)
    (hs : as.mapM f = .ok bs) : (a :: as).mapM f = .ok (b :: bs) := by
  rw [List.mapM_cons, h]
  simp only [bind, Except.bind, hs]
  rfl

theorem mapM_cons_eq_ok {f : α → Except ε β} {a : α} {as : List α} {l : List β} (h : (a :: as).mapM f = .ok l) :
    ∃ b bs, l = b :: bs ∧ f a = .ok b ∧ as.mapM f = .ok bs := by
  rw [List.mapM_cons] at h
  cases hb : f a with
  | error e =>
    rw [hb] at h
    cases h
  | ok b =>
    cases hbs : as.mapM f with
    | error e =>
      rw [hb] at h
      simp only [bind, Except.bind, hbs] at h
      cases h
    | ok bs =>
      rw [hb] at h
      simp only [bind, Except.bind, hbs] at h
      cases h
      exact ⟨b, bs, rfl, rfl, rfl⟩

theorem list (h : Exact Shaped WellFormed encode decode) :
    Exact (fun vs => ∀ v ∈ vs, Shaped v) (fun bs => ∀ b ∈ bs, WellFormed b) (List.mapM encode) (List.mapM decode) where
  decode_encode vs hvs := by
    induction vs with
    | nil => exact ⟨[], rfl, rfl⟩
    | cons v vs ih =>
      obtain ⟨b, hb, hd⟩ := h.decode_encode v (hvs v List.mem_cons_self)
      obtain ⟨bs, hbs, hds⟩ := ih fun x hx => hvs x (List.mem_cons_of_mem _ hx)
      exact ⟨b :: bs, mapM_cons_ok hb hbs, mapM_cons_ok hd hds⟩
  encode_decode bs vs hd := by
    induction bs generalizing vs with
    | nil => cases hd; rfl
    | cons b bs ih =>
      obtain ⟨v, vs', rfl, hv, hvs⟩ := mapM_cons_eq_ok hd
      exact mapM_cons_ok (h.encode_decode b v hv) (ih vs' hvs)
  accepts bs := by
    induction bs with
    | nil => exact ⟨fun _ b hb => absurd hb List.not_mem_nil, fun _ => ⟨[], rfl⟩⟩
    | cons b bs ih =>
      rw [List.forall_mem_cons, ← h.accepts b, ← ih]
      constructor
      · intro hd
        obtain ⟨l, hl⟩ := hd
        obtain ⟨v, vs, _, hv, hvs⟩ := mapM_cons_eq_ok hl
        exact ⟨⟨v, hv⟩, vs, hvs⟩
      · intro hd
        obtain ⟨⟨v, hv⟩, vs, hvs⟩ := hd
        exact ⟨v :: vs, mapM_cons_ok hv hvs⟩
  shaped bs vs hd := by
    induction bs generalizing vs with
    | nil =>
      cases hd
      exact fun v hv => absurd hv List.not_mem_nil
    | cons b bs ih =>
      obtain ⟨v, vs', rfl, hv, hvs⟩ := mapM_cons_eq_ok hd
      exact List.forall_mem_cons.mpr ⟨h.shaped b v hv, ih vs' hvs⟩

theorem mapM_length {f : α → Except ε β} {as : List α} {bs : List β} (h : as.mapM f = .ok bs) : bs.length = as.length := by
  induction as generalizing bs with
  | nil => cases h; rfl
  | cons a as ih =>
    obtain ⟨b, bs', rfl, _, hbs⟩ := mapM_cons_eq_ok h
    rw [List.length_cons, List.length_cons, ih hbs]

/-- A loop that only checks its elements. -/
theorem mapM_check {c : α → Prop} [DecidablePred c] {e : α → ε} {l r : List α} :
    l.mapM (fun a => if c a then .error (e a) else (.ok a : Except ε α)) = .ok r ↔ (∀ a ∈ l, ¬ c a) ∧ r = l := by
  induction l generalizing r with
  | nil => exact ⟨fun h => by cases h; exact ⟨fun a ha => absurd ha List.not_mem_nil, rfl⟩, fun h => by rw [h.2]; rfl⟩
  | cons a l ih =>
    constructor
    · intro h
      obtain ⟨b, bs, rfl, ha, hl⟩ := mapM_cons_eq_ok h
      obtain ⟨hall, rfl⟩ := ih.mp hl
      split at ha
      · cases ha
      · rename_i hc
        cases ha
        exact ⟨List.forall_mem_cons.mpr ⟨hc, hall⟩, rfl⟩
    · intro h
      obtain ⟨hall, rfl⟩ := h
      obtain ⟨hc, hall⟩ := List.forall_mem_cons.mp hall
      exact mapM_cons_ok (if_neg hc) (ih.mpr ⟨hall, rfl⟩)

end Exact
end BpirOram.Lib
