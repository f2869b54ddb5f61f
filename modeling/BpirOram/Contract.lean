/-
  BpirOram.Contract — what the controller may rely on of a store.

  `HonestStore` is an array of pages that never fails. `PathContract` is what any store
  used by paths owes: what a read returns, what a write leaves, and which errors either
  may end in with the contents kept. An error in `Dead` ends the contract: after it
  nothing is promised. Every honest page store meets a contract with no errors at all.
-/

import BpirOram.Store
import BpirOram.Params
import BpirOram.Lib.Heap

namespace BpirOram

open Lib

/-! ## Overwriting contents -/

section
variable {α : Type}

/-- The contents after writing the pairs of a list in order. -/
def overwrite (c : Nat → α) (l : List (Nat × α)) : Nat → α :=
  l.foldl (fun c w => Function.update c w.1 w.2) c

theorem overwrite_zip (c c' : Nat → α) (idxs : List Nat) :
    overwrite c (idxs.zip (idxs.map c')) = fun i => if i ∈ idxs then c' i else c i := by
  induction idxs generalizing c with
  | nil => simp [overwrite]
  | cons j js ih =>
    funext i
    have h := congrFun (ih (Function.update c j (c' j))) i
    simp only [overwrite, List.map_cons, List.zip_cons_cons, List.foldl_cons] at h ⊢
    rw [h]
    by_cases hj : i ∈ js
    · simp [hj]
    · by_cases hij : i = j
      · subst hij; simp
      · simp [hj, hij]

theorem overwrite_cons (c : Nat → α) (w : Nat × α) (l : List (Nat × α)) :
    overwrite c (w :: l) = overwrite (Function.update c w.1 w.2) l := rfl

theorem overwrite_append (c : Nat → α) (l l' : List (Nat × α)) : overwrite c (l ++ l') = overwrite (overwrite c l) l' :=
  List.foldl_append

theorem overwrite_flatten (c : Nat → α) (ls : List (List (Nat × α))) : overwrite c ls.flatten = ls.foldl overwrite c := by
  induction ls generalizing c with
  | nil => rfl
  | cons l ls ih => rw [List.flatten_cons, overwrite_append, ih, List.foldl_cons]

/-- Overwriting through a function of the contents. -/
theorem overwrite_map {β : Type} (f : α → β) {c : Nat → α} {v : Nat → β} {i : Nat} (h : v i = f (c i))
    (l : List (Nat × α)) :
    overwrite v (l.map (Prod.map id f)) i = f (overwrite c l i) := by
  induction l generalizing c v with
  | nil => exact h
  | cons w l ih =>
    rw [List.map_cons, overwrite_cons, overwrite_cons]
    refine ih ?_
    by_cases hi : i = w.1
    · subst hi
      rw [Function.update_self]
      exact Function.update_self _ _ _
    · rw [Function.update_of_ne hi]
      exact (Function.update_of_ne hi _ _).trans h

/-- A value is an old one or one that was written. -/
theorem overwrite_cases (c : Nat → α) (l : List (Nat × α)) (i : Nat) :
    overwrite c l i = c i ∨ (i, overwrite c l i) ∈ l := by
  induction l generalizing c with
  | nil => exact .inl rfl
  | cons w l ih =>
    rw [overwrite_cons]
    rcases ih (Function.update c w.1 w.2) with hold | hwritten
    · by_cases hi : i = w.1
      · subst hi
        rw [hold, Function.update_self]
        exact .inr List.mem_cons_self
      · rw [hold, Function.update_of_ne hi]
        exact .inl rfl
    · exact .inr (List.mem_cons_of_mem _ hwritten)

/-- A write elsewhere plays no part. -/
theorem overwrite_filter (c : Nat → α) {p : Nat × α → Bool} {l : List (Nat × α)} {i : Nat}
    (h : ∀ w ∈ l, w.1 = i → p w = true) :
    overwrite c (l.filter p) i = overwrite c l i := by
  induction l generalizing c with
  | nil => rfl
  | cons w l ih =>
    have hl : ∀ w ∈ l, w.1 = i → p w = true := fun x hx => h x (List.mem_cons_of_mem _ hx)
    rw [overwrite_cons]
    cases hp : p w with
    | true => rw [List.filter_cons_of_pos hp, overwrite_cons, ih _ hl]
    | false =>
      have hne : i ≠ w.1 := by
        rintro rfl
        rw [h w List.mem_cons_self rfl] at hp
        cases hp
      rw [List.filter_cons_of_neg (by rw [hp]; exact Bool.false_ne_true), ← ih _ hl]
      have hsame := overwrite_map id (v := c) (c := Function.update c w.1 w.2) (i := i)
        (Function.update_of_ne hne _ _).symm (l.filter p)
      rwa [Prod.map_id, List.map_id] at hsame

/-- Written once, or not at all. -/
theorem overwrite_nodup (c : Nat → α) {l : List (Nat × α)} (h : (l.map (·.1)).Nodup) (i : Nat) :
    (∀ x, (i, x) ∈ l → overwrite c l i = x) ∧ (i ∉ l.map (·.1) → overwrite c l i = c i) := by
  induction l generalizing c with
  | nil => exact ⟨fun x hx => absurd hx List.not_mem_nil, fun _ => rfl⟩
  | cons w l ih =>
    obtain ⟨hw, hl⟩ := List.nodup_cons.mp h
    obtain ⟨hin, hout⟩ := ih (Function.update c w.1 w.2) hl
    rw [overwrite_cons, List.map_cons]
    refine ⟨fun x hx => ?_, fun hi => ?_⟩
    · rcases List.mem_cons.mp hx with rfl | hx
      · rw [hout hw, Function.update_self]
      · exact hin x hx
    · rw [List.mem_cons, not_or] at hi
      rw [hout hi.2, Function.update_of_ne hi.1]

theorem overwrite_perm (c : Nat → α) {l l' : List (Nat × α)} (hperm : l.Perm l') (h : (l.map (·.1)).Nodup) :
    overwrite c l = overwrite c l' := by
  have h' : (l'.map (·.1)).Nodup := (hperm.map _).nodup_iff.mp h
  funext i
  by_cases hi : i ∈ l.map (·.1)
  · obtain ⟨w, hw, rfl⟩ := List.mem_map.mp hi
    rw [(overwrite_nodup c h w.1).1 w.2 hw, (overwrite_nodup c h' w.1).1 w.2 (hperm.mem_iff.mp hw)]
  · have hi' : i ∉ l'.map (·.1) := fun hm => hi ((hperm.map _).mem_iff.mpr hm)
    rw [(overwrite_nodup c h i).2 hi, (overwrite_nodup c h' i).2 hi']

end

/-! ## Honest page stores -/

/-- `Holds n sz c s`: the store is in state `s` an array of `n` pages of `sz` bytes whose
    contents are `c`. -/
structure HonestStore (S : Type) [PageStore S] where
  Holds : Nat → Nat → (Nat → Bytes) → S → Prop
  pageCount_eq {n sz c s} : Holds n sz c s → PageStore.pageCount s = n
  pageSize_eq {n sz c s} : Holds n sz c s → PageStore.pageSize s = sz
  page_length {n sz c s} : Holds n sz c s → ∀ i < n, (c i).length = sz
  readPage {n sz c s i} : Holds n sz c s → i < n →
    ∃ t, PageStore.readPage i sz s = (.ok (c i), t) ∧ Holds n sz c t
  writePage {n sz c s i page} : Holds n sz c s → i < n → page.length = sz →
    ∃ t, PageStore.writePage i page s = (.ok (), t) ∧ Holds n sz (Function.update c i page) t
  readPages {n sz c s idxs} : Holds n sz c s → (∀ i ∈ idxs, i < n) →
    ∃ t, PageStore.readPages idxs s = (.ok (idxs.map c), t) ∧ Holds n sz c t
  writePages {n sz c s idxs pages} : Holds n sz c s → (∀ i ∈ idxs, i < n) → idxs.length = pages.length →
    (∀ page ∈ pages, page.length = sz) →
    ∃ t, PageStore.writePages idxs pages s = (.ok (), t) ∧ Holds n sz (overwrite c (idxs.zip pages)) t

namespace MemPageStore

structure Holds (n sz : Nat) (c : Nat → Bytes) (s : MemPageStore) : Prop where
  pageSize : s.pageSize = sz
  pageCount : s.pageCount = n
  page : ∀ i < n, s.page i = c i

variable {n sz : Nat} {c : Nat → Bytes} {s : MemPageStore}

theorem pages_length (s : MemPageStore) : s.pages.length = s.pageCount * s.pageSize :=
  (Nat.div_mul_cancel s.pages_dvd).symm

theorem page_fits (s : MemPageStore) {i : Nat} (hi : i < s.pageCount) :
    i * s.pageSize + s.pageSize ≤ s.pages.length := by
  rw [s.pages_length, ← Nat.succ_mul]
  exact Nat.mul_le_mul_right _ hi

theorem page_length (s : MemPageStore) {i : Nat} (hi : i < s.pageCount) : (s.page i).length = s.pageSize := by
  have := s.page_fits hi
  simp only [page, List.length_take, List.length_drop]
  omega

/-- The store's contents as they are. -/
theorem holds_self (s : MemPageStore) : Holds s.pageCount s.pageSize s.page s := ⟨rfl, rfl, fun _ _ => rfl⟩

theorem checkPage_ok (h : Holds n sz c s) {i : Nat} (hi : i < n) : s.checkPage i sz = .ok () := by
  have h1 := h.pageCount
  have h2 := h.pageSize
  rw [checkPage, if_neg (by omega), if_neg (by omega)]

theorem setPage_pages {i : Nat} {input : Bytes} (hi : i < s.pageCount) (hl : input.length = s.pageSize) :
    (s.setPage i input).pages
      = s.pages.take (i * s.pageSize) ++ input ++ s.pages.drop (i * s.pageSize + s.pageSize) ∧
      (s.setPage i input).pageSize = s.pageSize := by
  have := s.page_fits hi
  simp only [setPage, dif_pos (show input.length = s.pageSize ∧ i * s.pageSize + s.pageSize ≤ s.pages.length by
    exact ⟨hl, this⟩), and_self]

theorem setPage_holds (h : Holds n sz c s) {i : Nat} {input : Bytes} (hi : i < n) (hl : input.length = sz) :
    Holds n sz (Function.update c i input) (s.setPage i input) := by
  obtain ⟨rfl, rfl, hp⟩ := h
  obtain ⟨hpages, hsize⟩ := setPage_pages hi hl
  have hfit := s.page_fits hi
  have hlen : (s.setPage i input).pages.length = s.pages.length := by
    rw [hpages]
    simp only [List.length_append, List.length_take, List.length_drop]
    omega
  refine ⟨hsize, by simp only [pageCount, hlen, hsize], fun j hj => ?_⟩
  have hjfit := s.page_fits hj
  have htake : (s.pages.take (i * s.pageSize)).length = i * s.pageSize := by
    rw [List.length_take]; omega
  simp only [page, hpages, hsize]
  by_cases hji : j = i
  · subst hji
    rw [Function.update_self, List.append_assoc, List.drop_append_of_le_length (by omega),
      List.drop_of_length_le (by omega), List.nil_append, List.take_append_of_le_length (by omega),
      List.take_of_length_le (by omega)]
  · rw [Function.update_of_ne hji, ← hp j hj, page]
    rcases Nat.lt_or_gt_of_ne hji with hlt | hlt
    · have : j * s.pageSize + s.pageSize ≤ i * s.pageSize := by
        rw [← Nat.succ_mul]; exact Nat.mul_le_mul_right _ hlt
      rw [List.append_assoc, List.drop_append_of_le_length (by omega), List.take_append_of_le_length (by
        rw [List.length_drop]; omega), List.drop_take, List.take_take, Nat.min_eq_left (by omega)]
    · have : i * s.pageSize + s.pageSize ≤ j * s.pageSize := by
        rw [← Nat.succ_mul]; exact Nat.mul_le_mul_right _ hlt
      rw [List.drop_append, List.drop_of_length_le (by rw [List.length_append]; omega), List.nil_append,
        List.drop_drop, List.length_append, htake, hl]
      congr 2
      omega

theorem readPage_spec (h : Holds n sz c s) {i : Nat} (hi : i < n) :
    ∃ t, PageStore.readPage i sz s = (.ok (c i), t) ∧ Holds n sz c t :=
  ⟨s, by simp only [PageStore.readPage, Eff.get_bind, checkPage_ok h hi, Eff.lift_ok_bind, h.page i hi]; rfl, h⟩

theorem writePage_spec (h : Holds n sz c s) {i : Nat} {page : Bytes} (hi : i < n) (hl : page.length = sz) :
    ∃ t, PageStore.writePage i page s = (.ok (), t) ∧ Holds n sz (Function.update c i page) t :=
  ⟨s.setPage i page, by simp only [PageStore.writePage, Eff.get_bind, hl, checkPage_ok h hi, Eff.lift_ok_bind]; rfl,
    setPage_holds h hi hl⟩

/-- The in-memory store is honest. -/
def honest : HonestStore MemPageStore where
  Holds := Holds
  pageCount_eq h := h.pageCount
  pageSize_eq h := h.pageSize
  page_length h i hi := by rw [← h.page i hi, page_length _ (by rw [h.pageCount]; exact hi), h.pageSize]
  readPage h := readPage_spec h
  writePage h := writePage_spec h
  readPages {n sz c s idxs} h hi := by
    refine Eff.forEach_map (P := Holds n sz c) (fun i hm s hs => ?_) h
    show ∃ t, PageStore.readPage i _ s = _ ∧ _
    rw [h.pageSize]
    exact readPage_spec hs (hi i hm)
  writePages {n sz c s idxs pages} h hi hlen hl := by
    have hstep : ∀ w ∈ idxs.zip pages, ∀ c s, Holds n sz c s → ∃ b t, (if w.2.length ≠ sz then
        Eff.fail (.invalidInput s!"page len {w.2.length} != page_size {sz}") else PageStore.writePage w.1 w.2) s
          = (.ok b, t) ∧ Holds n sz (Function.update c w.1 w.2) t := by
      intro w hw c s hs
      have hwl := hl w.2 (List.of_mem_zip hw).2
      obtain ⟨t, ht, hh⟩ := writePage_spec hs (hi w.1 (List.of_mem_zip hw).1) hwl
      exact ⟨(), t, by rw [if_neg (by simpa using hwl)]; exact ht, hh⟩
    obtain ⟨bs, t, hrun, ht⟩ := Eff.forEach_foldl (P := Holds n sz)
      (g := fun c (w : Nat × Bytes) => Function.update c w.1 w.2) hstep h
    refine ⟨t, ?_, ht⟩
    show (if idxs.length ≠ pages.length then _ else _ : Eff Error MemPageStore Unit) s = _
    rw [if_neg (by simpa using hlen), Eff.get_bind, h.pageSize]
    exact Eff.bind_ok hrun

end MemPageStore

/-- A store of zeros. -/
def zeroPages (pageCount pageSize : Nat) (h : 0 < pageSize) : MemPageStore :=
  { pageSize, pages := List.replicate (pageCount * pageSize) 0, pageSize_pos := h, pages_dvd := zeros_dvd pageCount pageSize }

theorem zeroPages_holds (pageCount pageSize : Nat) (h : 0 < pageSize) :
    MemPageStore.honest.Holds pageCount pageSize (zeroPages pageCount pageSize h).page (zeroPages pageCount pageSize h) := by
  refine ⟨rfl, ?_, fun _ _ => rfl⟩
  rw [MemPageStore.pageCount, zeroPages, List.length_replicate, Nat.mul_div_cancel _ h]

/-! ## Stores read and written by paths -/

/-- What a contract speaks of. `Ready paths` is what a read of `paths` leaves for the write
    of the same paths; `ReadFails` and `WriteFails` are the errors a call may end in with
    the contents kept. -/
structure PathSpec (S : Type) where
  Rep : (Nat → Bytes) → S → Prop
  Ready : List (List Nat) → S → Prop
  ReadFails : Error → Prop
  WriteFails : Error → Prop
  Dead : Error → Prop

namespace PathSpec

variable {S : Type} {α : Type}

inductive ReadOutcome (L : PathSpec S) (c : Nat → Bytes) (paths : List (List Nat)) (val : α) : Result α × S → Prop
  | ok {t} : L.Rep c t → L.Ready paths t → ReadOutcome L c paths val (.ok val, t)
  | failed {e t} : L.ReadFails e → L.Rep c t → ReadOutcome L c paths val (.error e, t)

inductive WriteOutcome (L : PathSpec S) (c c' : Nat → Bytes) : Result Unit × S → Prop
  | ok {t} : L.Rep c' t → WriteOutcome L c c' (.ok (), t)
  | failed {e t} : L.WriteFails e → L.Rep c t → WriteOutcome L c c' (.error e, t)
  | dead {e t} : L.Dead e → WriteOutcome L c c' (.error e, t)

end PathSpec

/-- The contents with the pages of some nodes replaced. -/
def patch {α : Type} (nodes : List Nat) (c' c : Nat → α) : Nat → α := fun i => if i ∈ nodes then c' i else c i

/-- The contract of a store of `n` pages of `sz` bytes, used by root paths. -/
structure PathContract (S : Type) [PathPageStore S] (n sz : Nat) extends PathSpec S where
  shape {c s} : Rep c s → PathPageStore.pageCount s = n ∧ PathPageStore.pageSize s = sz
  congr {c c' s} : Rep c s → (∀ i < n, c i = c' i) → Rep c' s
  readPath {c s path} : Rep c s → RootPath n path →
    toPathSpec.ReadOutcome c [path] (path.map c) (PathPageStore.readPathPages path s)
  readPaths {c s paths} : Rep c s → paths ≠ [] → (∀ path ∈ paths, RootPath n path) →
    toPathSpec.ReadOutcome c paths (paths.map (·.map c)) (PathPageStore.readPathsPages paths s)
  writePath {c c' s path} : Rep c s → Ready [path] s → RootPath n path → (∀ i ∈ path, (c' i).length = sz) →
    toPathSpec.WriteOutcome c (patch path c' c) (PathPageStore.writePathPages path (path.map c') s)
  writePaths {c c' s paths} : Rep c s → Ready paths s → paths ≠ [] → (∀ path ∈ paths, RootPath n path) →
    (∀ i ∈ paths.flatten, (c' i).length = sz) →
    toPathSpec.WriteOutcome c (patch paths.flatten c' c)
      (PathPageStore.writePathsPages paths (paths.map (·.map c')) s)

theorem unflatten_map (c : Nat → Bytes) (paths : List (List Nat)) :
    unflatten paths (paths.flatten.map c) = .ok (paths.map (·.map c)) := by
  induction paths with
  | nil => rfl
  | cons path paths ih =>
    simp only [unflatten, List.flatten_cons, List.map_append, List.length_append, List.length_map]
    rw [if_neg (by omega), ← (List.length_map c : (path.map c).length = path.length), List.drop_left, List.take_left, ih]
    rfl

theorem checkPathLengths_map (c : Nat → Bytes) (paths : List (List Nat)) :
    checkPathLengths (paths.zip (paths.map (·.map c))) = .ok () := by
  induction paths with
  | nil => rfl
  | cons path paths ih => simp [checkPathLengths, ih]

theorem RootPath.flatten_lt {n : Nat} {paths : List (List Nat)} (h : ∀ path ∈ paths, RootPath n path) :
    ∀ i ∈ paths.flatten, i < n := by
  intro i hi
  obtain ⟨path, hm, hi⟩ := List.mem_flatten.mp hi
  exact (h path hm).lt i hi

/-- An honest page store, used by paths, never fails. -/
def HonestStore.contract {S : Type} [PageStore S] (H : HonestStore S) (n sz : Nat) : PathContract S n sz where
  Rep c s := ∃ d, H.Holds n sz d s ∧ ∀ i < n, d i = c i
  Ready _ _ := True
  ReadFails _ := False
  WriteFails _ := False
  Dead _ := False
  shape := by
    rintro c s ⟨d, h, -⟩
    exact ⟨H.pageCount_eq h, H.pageSize_eq h⟩
  congr := by
    rintro c c' s ⟨d, h, hd⟩ hc
    exact ⟨d, h, fun i hi => (hd i hi).trans (hc i hi)⟩
  readPath := by
    rintro c s path ⟨d, h, hd⟩ hp
    obtain ⟨t, ht, hh⟩ := H.readPages h hp.lt
    rw [List.map_congr_left fun i hi => hd i (hp.lt i hi)] at ht
    show PathSpec.ReadOutcome _ _ _ _ (PageStore.readPages path s)
    rw [ht]
    exact .ok ⟨d, hh, hd⟩ trivial
  readPaths := by
    rintro c s paths ⟨d, h, hd⟩ - hp
    have hlt := RootPath.flatten_lt hp
    obtain ⟨t, ht, hh⟩ := H.readPages h hlt
    rw [List.map_congr_left fun i hi => hd i (hlt i hi)] at ht
    show PathSpec.ReadOutcome _ _ _ _
      ((PageStore.readPages paths.flatten >>= fun flat => Eff.lift (unflatten paths flat)) s)
    rw [Eff.bind_ok ht, unflatten_map]
    exact .ok ⟨d, hh, hd⟩ trivial
  writePath := by
    rintro c c' s path ⟨d, h, hd⟩ - hp hl
    obtain ⟨t, ht, hh⟩ := H.writePages h hp.lt (show path.length = (path.map c').length by simp) (by simpa using hl)
    rw [overwrite_zip] at hh
    show PathSpec.WriteOutcome _ _ _ (PageStore.writePages path (path.map c') s)
    rw [ht]
    exact .ok ⟨_, hh, fun i hi => by simp only [patch, hd i hi]⟩
  writePaths := by
    rintro c c' s paths ⟨d, h, hd⟩ - - hp hl
    obtain ⟨t, ht, hh⟩ := H.writePages h (RootPath.flatten_lt hp)
      (show paths.flatten.length = (paths.flatten.map c').length from (List.length_map _).symm) (by
        intro page hm
        obtain ⟨i, hi, rfl⟩ := List.mem_map.mp hm
        exact hl i hi)
    rw [overwrite_zip] at hh
    have hrun : PathPageStore.writePathsPages paths (paths.map (·.map c')) s = (.ok (), t) := by
      show (if paths.length ≠ (paths.map (·.map c')).length then _ else _ : Eff Error S Unit) s = _
      rw [if_neg (by simp), checkPathLengths_map, Eff.lift_ok_bind, ← List.map_flatten]
      exact ht
    rw [hrun]
    exact .ok ⟨_, hh, fun i hi => by simp only [patch, hd i hi]⟩

end BpirOram
