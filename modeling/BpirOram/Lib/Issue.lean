/-
  BpirOram.Lib.Issue — the requests a computation issues, in their order.

  A state shows, for each of several parties `κ`, the requests that party has received
  (`seen`). `Issues seen l m s`: started in `s`, `m` issues the requests `l` in their order;
  when it ends early it has issued some first part of them. So `l` says in which order
  requests go out to different parties, which what each has received does not.
-/

import BpirOram.Lib.Eff

namespace BpirOram.Lib

variable {ε σ τ α β κ ω : Type} [DecidableEq κ]

/-- What party `k` is sent by `l`. -/
def sentTo (k : κ) (l : List (κ × ω)) : List ω := (l.filter fun e => e.1 = k).map (·.2)

theorem sentTo_append (k : κ) (l l' : List (κ × ω)) : sentTo k (l ++ l') = sentTo k l ++ sentTo k l' := by
  rw [sentTo, List.filter_append, List.map_append, sentTo, sentTo]

/-- From `s` to `t` the requests `l` were received. -/
def Received (seen : σ → κ → List ω) (s : σ) (l : List (κ × ω)) (t : σ) : Prop :=
  ∀ k, seen t k = seen s k ++ sentTo k l

variable {seen : σ → κ → List ω} {s t u : σ} {l l' : List (κ × ω)}

theorem Received.nil (h : seen t = seen s) : Received seen s [] t := fun k => by
  rw [h, sentTo, List.filter_nil, List.map_nil, List.append_nil]

theorem Received.append (h : Received seen s l t) (h' : Received seen t l' u) : Received seen s (l ++ l') u := fun k => by
  rw [h' k, h k, sentTo_append, List.append_assoc]

namespace Eff

structure Issues (seen : σ → κ → List ω) (l : List (κ × ω)) (m : Eff ε σ α) (s : σ) : Prop where
  early : ∃ l', l' <+: l ∧ Received seen s l' (m s).2
  all : ∀ a t, m s = (.ok a, t) → Received seen s l t

/-- A step that no party sees. -/
theorem Issues.silent {m : Eff ε σ α} (h : seen (m s).2 = seen s) : Issues seen [] m s where
  early := ⟨[], List.nil_prefix, .nil h⟩
  all a t hm := by rw [hm] at h; exact .nil h

/-- One request, or none. -/
theorem Issues.one {m : Eff ε σ α} {e : κ × ω} (h : Received seen s [e] (m s).2) : Issues seen [e] m s where
  early := ⟨[e], List.prefix_refl _, h⟩
  all a t hm := by rw [hm] at h; exact h

theorem Issues.failed {m : Eff ε σ α} {e : ε} (h : m s = (.error e, t)) (hseen : seen t = seen s) : Issues seen l m s where
  early := ⟨[], List.nil_prefix, .nil (by rw [h]; exact hseen)⟩
  all a u hm := by rw [h] at hm; cases hm

theorem Issues.bind {m : Eff ε σ α} {f : α → Eff ε σ β} (hm : Issues seen l m s)
    (hf : ∀ a t, m s = (.ok a, t) → Issues seen l' (f a) t) : Issues seen (l ++ l') (m >>= f) s := by
  rcases hms : m s with ⟨e | a, t⟩
  · obtain ⟨l₀, hpre, hrec⟩ := hm.early
    rw [hms] at hrec
    refine ⟨⟨l₀, hpre.trans (List.prefix_append l l'), ?_⟩, fun b u hb => ?_⟩
    · rw [bind_error hms]
      exact hrec
    · rw [bind_error hms] at hb
      cases hb
  · have hrec := hm.all a t hms
    have hrest := hf a t hms
    obtain ⟨l₀, hpre, hrec₀⟩ := hrest.early
    refine ⟨⟨l ++ l₀, (List.prefix_append_right_inj l).mpr hpre, ?_⟩, fun b u hb => ?_⟩
    · rw [bind_ok hms]
      exact hrec.append hrec₀
    · rw [bind_ok hms] at hb
      exact hrec.append (hrest.all b u hb)

/-- What follows a silent step. -/
theorem Issues.after {m : Eff ε σ α} {f : α → Eff ε σ β} (hm : Issues seen [] m s)
    (hf : ∀ a t, m s = (.ok a, t) → Issues seen l (f a) t) : Issues seen l (m >>= f) s := by
  have h := hm.bind hf
  rwa [List.nil_append] at h

/-- What comes before a silent end. -/
theorem Issues.before {m : Eff ε σ α} {f : α → Eff ε σ β} (hm : Issues seen l m s)
    (hf : ∀ a t, m s = (.ok a, t) → Issues seen [] (f a) t) : Issues seen l (m >>= f) s := by
  have h := hm.bind hf
  rwa [List.append_nil] at h

theorem Issues.get_bind {f : σ → Eff ε σ β} (h : Issues seen l (f s) s) : Issues seen l (get >>= f) s :=
  ⟨h.early, h.all⟩

theorem Issues.forEach {f : α → Eff ε σ β} {g : α → List (κ × ω)} {as : List α}
    (h : ∀ a ∈ as, ∀ s, Issues seen (g a) (f a) s) (s : σ) : Issues seen (as.flatMap g) (forEach f as) s := by
  induction as generalizing s with
  | nil => exact .silent rfl
  | cons a as ih =>
    rw [List.flatMap_cons, Eff.forEach]
    refine (h a (by simp) s).bind fun b t _ => ?_
    exact (ih (fun x hx => h x (by simp [hx])) t).before fun bs u _ => .silent rfl

/-- A method of one party, run on the whole. -/
theorem Issues.zoom {seen' : τ → κ → List ω} {proj : τ → σ} {put : σ → τ → τ} {m : Eff ε σ α} {w : τ}
    (h : Issues seen l m (proj w)) (hseen : ∀ l t, Received seen (proj w) l t → Received seen' w l (put t w)) :
    Issues seen' l (Eff.zoom proj put m) w where
  early := by
    obtain ⟨l₀, hpre, hrec⟩ := h.early
    exact ⟨l₀, hpre, hseen _ _ hrec⟩
  all a t hm := by
    have h1 := congrArg Prod.fst hm
    have h2 := congrArg Prod.snd hm
    cases h2
    exact hseen _ _ (h.all a _ (Prod.ext h1 rfl))

end Eff
end BpirOram.Lib
