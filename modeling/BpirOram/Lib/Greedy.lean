/-
  BpirOram.Lib.Greedy — filling nested levels greedily, the deepest level first.

  Each level has `z` places and a predicate of what may stand in it; a level takes, in
  order, the first elements that may. When the levels are nested (what fits deeper fits
  above) the greedy choice places as many elements as any other assignment does, and each
  level holds as many under any order of choosing (`ExhaustsAll.counts`).
-/

import Mathlib.Data.List.Perm.Subperm
import Mathlib.Tactic.Common

namespace BpirOram.Lib

variable {α : Type}

/-- Up to `z` elements of `l` that satisfy `p`, the first ones, and what is left. -/
def fillLevel (p : α → Bool) : Nat → List α → List α × List α
  | 0, l => ([], l)
  | z + 1, l => match l.find? p with
    | none => ([], l)
    | some a => ((a :: (fillLevel p z (l.eraseP p)).1), (fillLevel p z (l.eraseP p)).2)

/-- The levels are listed from the top; the deepest is filled first. -/
def fillLevels (z : Nat) : List (α → Bool) → List α → List (List α) × List α
  | [], l => ([], l)
  | p :: ps, l =>
    let deeper := fillLevels z ps l
    let level := fillLevel p z deeper.2
    (level.1 :: deeper.1, level.2)

/-! ## One level -/

theorem perm_find_eraseP {p : α → Bool} {l : List α} {a : α} (h : l.find? p = some a) :
    l.Perm (a :: l.eraseP p) := by
  induction l with
  | nil => simp at h
  | cons b l ih =>
    by_cases hb : p b = true
    · rw [List.find?_cons_of_pos hb] at h
      cases h
      rw [List.eraseP_cons_of_pos hb]
    · rw [List.find?_cons_of_neg hb] at h
      rw [List.eraseP_cons_of_neg hb]
      exact ((ih h).cons b).trans (List.Perm.swap a b _)

theorem fillLevel_perm (p : α → Bool) (z : Nat) (l : List α) :
    l.Perm ((fillLevel p z l).1 ++ (fillLevel p z l).2) := by
  induction z generalizing l with
  | zero => exact .refl _
  | succ z ih =>
    unfold fillLevel
    split
    · exact .refl _
    · rename_i a h
      exact (perm_find_eraseP h).trans ((ih _).cons a)

theorem fillLevel_sublist (p : α → Bool) (z : Nat) (l : List α) : (fillLevel p z l).2.Sublist l := by
  induction z generalizing l with
  | zero => exact .refl _
  | succ z ih =>
    unfold fillLevel
    split
    · exact .refl _
    · exact (ih _).trans List.eraseP_sublist

theorem fillLevel_length_le (p : α → Bool) (z : Nat) (l : List α) : (fillLevel p z l).1.length ≤ z := by
  induction z generalizing l with
  | zero => exact Nat.le_refl _
  | succ z ih =>
    unfold fillLevel
    split
    · exact Nat.zero_le _
    · exact Nat.succ_le_succ (ih _)

theorem fillLevel_fits (p : α → Bool) (z : Nat) (l : List α) : ∀ a ∈ (fillLevel p z l).1, p a = true := by
  induction z generalizing l with
  | zero => intro a ha; cases ha
  | succ z ih =>
    unfold fillLevel
    split
    · intro a ha; cases ha
    · rename_i b h
      intro a ha
      rcases List.mem_cons.mp ha with rfl | ha
      · exact List.find?_some h
      · exact ih _ a ha

/-- A level is full, or nothing that is left could stand in it. -/
theorem fillLevel_full (p : α → Bool) (z : Nat) (l : List α) :
    (fillLevel p z l).1.length = z ∨ ∀ a ∈ (fillLevel p z l).2, p a = false := by
  induction z generalizing l with
  | zero => exact .inl rfl
  | succ z ih =>
    unfold fillLevel
    split
    · rename_i h
      exact .inr fun a ha => by simpa using List.find?_eq_none.mp h a ha
    · rcases ih (l.eraseP p) with h | h
      · exact .inl (by simp [h])
      · exact .inr h

/-! ## All levels -/

theorem fillLevels_perm (z : Nat) (ps : List (α → Bool)) (l : List α) :
    l.Perm ((fillLevels z ps l).1.flatten ++ (fillLevels z ps l).2) := by
  induction ps with
  | nil => exact .refl _
  | cons p ps ih =>
    have h := fillLevel_perm p z (fillLevels z ps l).2
    simp only [fillLevels, List.flatten_cons]
    refine ih.trans ((List.Perm.append_left _ h).trans ?_)
    rw [← List.append_assoc]
    exact List.perm_append_comm.append_right _

theorem fillLevels_sublist (z : Nat) (ps : List (α → Bool)) (l : List α) : (fillLevels z ps l).2.Sublist l := by
  induction ps with
  | nil => exact .refl _
  | cons p ps ih => exact (fillLevel_sublist p z _).trans ih

@[simp] theorem fillLevels_length (z : Nat) (ps : List (α → Bool)) (l : List α) :
    (fillLevels z ps l).1.length = ps.length := by
  induction ps with
  | nil => rfl
  | cons p ps ih => simp [fillLevels, ih]

/-- `held` stands in the levels `ps`: at most `z` elements each, of those that may. -/
def Stands (z : Nat) (ps : List (α → Bool)) (held : List (List α)) : Prop :=
  List.Forall₂ (fun p h => h.length ≤ z ∧ ∀ a ∈ h, p a = true) ps held

theorem fillLevels_stands (z : Nat) (ps : List (α → Bool)) (l : List α) : Stands z ps (fillLevels z ps l).1 := by
  induction ps with
  | nil => exact .nil
  | cons p ps ih => exact .cons ⟨fillLevel_length_le p z _, fillLevel_fits p z _⟩ ih

theorem Stands.level_length {z : Nat} {ps : List (α → Bool)} {held : List (List α)} (hs : Stands z ps held)
    {h : List α} (hm : h ∈ held) : h.length ≤ z := by
  induction hs with
  | nil => cases hm
  | cons hp hs ih =>
    rcases List.mem_cons.mp hm with rfl | hm
    · exact hp.1
    · exact ih hm

/-- An element of a standing assignment satisfies the predicate of some level. -/
theorem Stands.exists_level {z : Nat} {ps : List (α → Bool)} {held : List (List α)} (hs : Stands z ps held)
    {a : α} (ha : a ∈ held.flatten) : ∃ p ∈ ps, p a = true := by
  induction hs with
  | nil => simp at ha
  | cons hp hs ih =>
    rename_i p h ps held
    rcases List.mem_append.mp (List.flatten_cons ▸ ha) with ha | ha
    · exact ⟨p, by simp, hp.2 a ha⟩
    · obtain ⟨q, hq, hqa⟩ := ih ha
      exact ⟨q, by simp [hq], hqa⟩

/-- No element that is left over fits a level with a place to spare. -/
theorem fillLevels_full {z : Nat} {ps : List (α → Bool)} {l : List α} {i : Nat} {p : α → Bool} {level : List α}
    (hp : ps[i]? = some p) (hlevel : (fillLevels z ps l).1[i]? = some level) :
    level.length = z ∨ ∀ a ∈ (fillLevels z ps l).2, p a = false := by
  induction ps generalizing i with
  | nil => cases hp
  | cons q ps ih =>
    cases i with
    | zero =>
      cases hp
      cases hlevel
      exact fillLevel_full _ z _
    | succ i =>
      rcases ih hp hlevel with hfull | hnone
      · exact .inl hfull
      · exact .inr fun a ha => hnone a ((fillLevel_sublist q z _).subset ha)

/-- The greedy choice places at least as many elements of `l` as any assignment that
    stands. By induction from the top: a full level holds as many as any, and one that is
    not full has left out nothing that could stand in it or, the levels being nested, in
    any deeper one. -/
theorem fillLevels_max {z : Nat} {ps : List (α → Bool)} {l : List α} {held : List (List α)}
    (hps : ps.Pairwise fun p q => ∀ a, q a = true → p a = true) (hs : Stands z ps held)
    (hl : held.flatten.Subperm l) :
    held.flatten.length ≤ (fillLevels z ps l).1.flatten.length := by
  induction hs with
  | nil => simp
  | cons hp hs ih =>
    rename_i p h ps held
    rw [List.pairwise_cons] at hps
    rw [List.flatten_cons] at hl
    have hrec := ih hps.2 ((List.sublist_append_right h held.flatten).subperm.trans hl)
    simp only [fillLevels, List.flatten_cons, List.length_append]
    rcases fillLevel_full p z (fillLevels z ps l).2 with hfull | hnone
    · have := hp.1
      omega
    · have hall : ∀ a ∈ h ++ held.flatten, p a = true := by
        intro a ha
        rcases List.mem_append.mp ha with ha | ha
        · exact hp.2 a ha
        · obtain ⟨q, hq, hqa⟩ := Stands.exists_level hs ha
          exact hps.1 q hq a hqa
      have hcount : (h ++ held.flatten).length ≤ l.countP p := by
        rw [← List.countP_eq_length.mpr hall]
        exact hl.countP_le p
      have hperm := (fillLevels_perm z (p :: ps) l).countP_eq p
      simp only [fillLevels, List.flatten_cons, List.countP_append] at hperm
      have hrest : (fillLevel p z (fillLevels z ps l).2).2.countP p = 0 :=
        List.countP_eq_zero.mpr fun a ha => by simp [hnone a ha]
      have h1 := List.countP_le_length (p := p) (l := (fillLevel p z (fillLevels z ps l).2).1)
      have h2 := List.countP_le_length (p := p) (l := (fillLevels z ps l).1.flatten)
      rw [List.length_append] at hcount
      omega

/-! ## Any order of choosing -/

/-- One level filled from `l` in some order: it takes elements that may stand in it, and stops
    when it is full or none is left. -/
structure Exhausts (z : Nat) (p : α → Bool) (l taken rest : List α) : Prop where
  perm : l.Perm (taken ++ rest)
  fits : ∀ a ∈ taken, p a = true
  length_le : taken.length ≤ z
  full : taken.length = z ∨ ∀ a ∈ rest, p a = false

/-- All levels, listed from the top, the deepest filled first. -/
inductive ExhaustsAll (z : Nat) : List (α → Bool) → List α → List (List α) → List α → Prop
  | nil (l : List α) : ExhaustsAll z [] l [] l
  | cons {p ps l levels mid taken rest} : ExhaustsAll z ps l levels mid → Exhausts z p mid taken rest →
      ExhaustsAll z (p :: ps) l (taken :: levels) rest

theorem fillLevels_exhausts (z : Nat) (ps : List (α → Bool)) (l : List α) :
    ExhaustsAll z ps l (fillLevels z ps l).1 (fillLevels z ps l).2 := by
  induction ps with
  | nil => exact .nil l
  | cons p ps ih =>
    exact .cons ih ⟨fillLevel_perm p z _, fillLevel_fits p z _, fillLevel_length_le p z _, fillLevel_full p z _⟩

namespace Exhausts

variable {z : Nat} {p : α → Bool} {l taken rest : List α}

/-- What is taken counts for every weaker predicate. -/
theorem countP_rest (h : Exhausts z p l taken rest) {q : α → Bool} (hq : ∀ a, p a = true → q a = true) :
    taken.length + rest.countP q = l.countP q := by
  rw [h.perm.countP_eq, List.countP_append, List.countP_eq_length.mpr fun a ha => hq a (h.fits a ha)]

theorem length_eq (h : Exhausts z p l taken rest) : taken.length = min z (l.countP p) := by
  have hcount := h.countP_rest fun _ ha => ha
  have hle := h.length_le
  rcases h.full with hfull | hnone
  · omega
  · have hrest : rest.countP p = 0 := List.countP_eq_zero.mpr fun a ha => by simp [hnone a ha]
    omega

end Exhausts

theorem ExhaustsAll.perm {z : Nat} {ps : List (α → Bool)} {l rest : List α} {levels : List (List α)}
    (h : ExhaustsAll z ps l levels rest) : l.Perm (levels.flatten ++ rest) := by
  induction h with
  | nil l => exact .refl l
  | cons hdeep htop ih =>
    rw [List.flatten_cons]
    refine ih.trans ((htop.perm.append_left _).trans ?_)
    rw [← List.append_assoc]
    exact List.perm_append_comm.append_right _

/-- Elements and levels of two kinds that count alike: however they are chosen, nested levels
    hold the same numbers, and what is left counts alike for what every level implies. By
    induction from the top: what the deeper levels took could have stood in any higher one. -/
theorem ExhaustsAll.counts {β : Type} {z : Nat} {ps : List (α → Bool)} {qs : List (β → Bool)} {l rest : List α}
    {l' rest' : List β} {levels : List (List α)} {levels' : List (List β)}
    (hps : ps.Pairwise fun p q => ∀ a, q a = true → p a = true)
    (hqs : qs.Pairwise fun p q => ∀ b, q b = true → p b = true)
    (h : ExhaustsAll z ps l levels rest) (h' : ExhaustsAll z qs l' levels' rest')
    (hc : List.Forall₂ (fun p q => l.countP p = l'.countP q) ps qs) :
    levels.map List.length = levels'.map List.length ∧
      ∀ (p : α → Bool) (q : β → Bool), (∀ p' ∈ ps, ∀ a, p' a = true → p a = true) →
        (∀ q' ∈ qs, ∀ b, q' b = true → q b = true) → l.countP p = l'.countP q → rest.countP p = rest'.countP q := by
  induction h generalizing qs levels' rest' with
  | nil l =>
    cases hc
    cases h'
    exact ⟨rfl, fun _ _ _ _ hcount => hcount⟩
  | @cons p ps l levels mid taken rest hdeep htop ih =>
    cases hc with
    | @cons _ q _ qs hpq hc =>
      cases h' with
      | @cons _ _ _ levels' mid' taken' _ hdeep' htop' =>
        rw [List.pairwise_cons] at hps hqs
        obtain ⟨hlevels, hmid⟩ := ih hps.2 hqs.2 hdeep' hc
        have htaken : taken.length = taken'.length := by
          rw [htop.length_eq, htop'.length_eq, hmid p q hps.1 hqs.1 hpq]
        refine ⟨by rw [List.map_cons, List.map_cons, htaken, hlevels], fun P Q hP hQ hcount => ?_⟩
        have hrest := htop.countP_rest (hP p List.mem_cons_self)
        have hrest' := htop'.countP_rest (hQ q List.mem_cons_self)
        have hmidPQ := hmid P Q (fun p' hp' => hP p' (List.mem_cons_of_mem _ hp'))
          (fun q' hq' => hQ q' (List.mem_cons_of_mem _ hq')) hcount
        omega

namespace ExhaustsAll

variable {z : Nat} {ps : List (α → Bool)} {l rest : List α} {levels : List (List α)}

theorem stands (h : ExhaustsAll z ps l levels rest) : Stands z ps levels := by
  induction h with
  | nil l => exact .nil
  | cons _ htop ih => exact .cons ⟨htop.length_le, htop.fits⟩ ih

/-- However they are chosen, nested levels hold as many elements as any assignment that stands,
    so no more are left over than that one leaves. -/
theorem rest_le (hps : ps.Pairwise fun p q => ∀ a, q a = true → p a = true) (h : ExhaustsAll z ps l levels rest)
    {held : List (List α)} {left : List α} (hs : Stands z ps held) (hl : l.Perm (left ++ held.flatten)) :
    rest.length ≤ left.length := by
  have hsame : List.Forall₂ (fun p q => l.countP p = l.countP q) ps ps := List.forall₂_same.mpr fun _ _ => rfl
  obtain ⟨hlevels, -⟩ := h.counts hps hps (fillLevels_exhausts z ps l) hsame
  have hmax := fillLevels_max hps hs (l := l)
    ((List.sublist_append_right left held.flatten).subperm.trans hl.symm.subperm)
  have hplaced : levels.flatten.length = (fillLevels z ps l).1.flatten.length := by
    rw [List.length_flatten, List.length_flatten, hlevels]
  have htotal := h.perm.length_eq
  have hbefore := hl.length_eq
  rw [List.length_append] at htotal hbefore
  omega

end ExhaustsAll

end BpirOram.Lib
