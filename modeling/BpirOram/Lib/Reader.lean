/-
  BpirOram.Lib.Reader — readers of a byte string and the grammars they accept.

  A reader is an `Eff` on the bytes still to come. It `Reads` a grammar, a relation between
  values and texts, when it returns a value exactly for the inputs that start with a text of it,
  and leaves what follows the text. Then no text is a proper prefix of another
  (`Reads.prefixFree`), and a reader that also asks for the end accepts the texts themselves
  (`Reads.whole`).
-/

import BpirOram.Lib.Eff
import BpirOram.Lib.Bytes

namespace BpirOram.Lib

variable {ε α β : Type}

/-- `m` returns `a` and leaves `rest` exactly on a text of `a` followed by `rest`. -/
def Reads (m : Eff ε Bytes α) (grammar : α → Bytes → Prop) : Prop :=
  ∀ b a rest, m b = (.ok a, rest) ↔ ∃ w, grammar a w ∧ b = w ++ rest

namespace Reads

variable {m : Eff ε Bytes α} {grammar : α → Bytes → Prop}

theorem text (h : Reads m grammar) {a : α} {w : Bytes} (hw : grammar a w) (rest : Bytes) : m (w ++ rest) = (.ok a, rest) :=
  (h _ _ _).mpr ⟨w, hw, rfl⟩

theorem bind_iff (h : Reads m grammar) {f : α → Eff ε Bytes β} {b rest : Bytes} {c : β} :
    (m >>= f) b = (.ok c, rest) ↔ ∃ a w t, grammar a w ∧ b = w ++ t ∧ f a t = (.ok c, rest) := by
  constructor
  · intro hrun
    obtain ⟨a, t, hm, hf⟩ := Eff.bind_eq_ok hrun
    obtain ⟨w, hw, hb⟩ := (h b a t).mp hm
    exact ⟨a, w, t, hw, hb, hf⟩
  · intro hrun
    obtain ⟨a, w, t, hw, rfl, hf⟩ := hrun
    rw [Eff.bind_ok (h.text hw t), hf]

/-- What follows a text has no part in how it is read. -/
theorem prefixFree (h : Reads m grammar) {a a' : α} {w more : Bytes} (hw : grammar a w) (hmore : grammar a' (w ++ more)) :
    more = [] := by
  have hlong := h.text hmore []
  rw [List.append_nil, h.text hw more] at hlong
  exact congrArg Prod.snd hlong

/-- Two values never share a text. -/
theorem unique (h : Reads m grammar) {a a' : α} {w : Bytes} (hw : grammar a w) (hw' : grammar a' w) : a = a' := by
  have hsame := (h.text hw []).symm.trans (h.text hw' [])
  cases hsame
  rfl

theorem map (h : Reads m grammar) {g : α → β} (back : β → α) (hback : ∀ a, back (g a) = a)
    (hg : ∀ c, g (back c) = c) :
    Reads (m >>= fun a => pure (g a)) fun c w => grammar (back c) w := by
  intro b c rest
  rw [h.bind_iff]
  constructor
  · intro hrun
    obtain ⟨a, w, t, hw, rfl, hpure⟩ := hrun
    cases hpure
    exact ⟨w, by simpa only [hback] using hw, rfl⟩
  · intro hrun
    obtain ⟨w, hw, rfl⟩ := hrun
    exact ⟨back c, w, rest, hw, rfl, by rw [hg]; rfl⟩

end Reads

/-! ## Steps that read nothing -/

theorem ensure_bind_iff {c : Prop} [Decidable c] {e : ε} {f : Unit → Eff ε Bytes β} {b rest : Bytes} {v : β} :
    (Eff.ensure c e >>= f) b = (.ok v, rest) ↔ c ∧ f () b = (.ok v, rest) := by
  by_cases hc : c
  · rw [Eff.ensure_of hc, Eff.pure_bind, and_iff_right hc]
  · rw [Eff.ensure_not hc, Eff.fail_bind]
    exact ⟨fun h => (nomatch h), fun h => absurd h.1 hc⟩

theorem lift_bind_iff {r : Except ε α} {f : α → Eff ε Bytes β} {b rest : Bytes} {v : β} :
    (Eff.lift r >>= f) b = (.ok v, rest) ↔ ∃ a, r = .ok a ∧ f a b = (.ok v, rest) := by
  refine ⟨Eff.lift_bind_eq_ok, fun h => ?_⟩
  obtain ⟨a, rfl, hf⟩ := h
  rw [Eff.lift_ok_bind, hf]

theorem pure_iff {a c : β} {b rest : Bytes} : (pure a : Eff ε Bytes β) b = (.ok c, rest) ↔ a = c ∧ b = rest := by
  rw [Eff.pure_apply, Prod.mk.injEq, Except.ok.injEq]

/-! ## Reading to the end -/

/-- `if !cur.is_empty() { return Err(e) }` behind a reader. -/
def whole (m : Eff ε Bytes α) (e : ε) : Eff ε Bytes α := do
  let a ← m
  let cur ← Eff.get
  Eff.ensure (cur = []) e
  pure a

theorem Reads.whole {m : Eff ε Bytes α} {grammar : α → Bytes → Prop} (h : Reads m grammar) (e : ε) (b : Bytes) (a : α) :
    (Lib.whole m e b).1 = .ok a ↔ grammar a b := by
  rw [Lib.whole]
  constructor
  · intro hrun
    obtain ⟨a', w, t, hw, rfl, hend⟩ := h.bind_iff.mp (Prod.ext hrun rfl : _ = (Except.ok a, _))
    rw [Eff.get_bind, ensure_bind_iff, pure_iff] at hend
    obtain ⟨rfl, rfl, _⟩ := hend
    rwa [List.append_nil]
  · intro hw
    have hread := h.text hw []
    rw [List.append_nil] at hread
    rw [Eff.bind_ok hread, Eff.get_bind, Eff.ensure_of rfl]
    rfl

end BpirOram.Lib
