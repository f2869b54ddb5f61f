/-
  BpirOram.Pages.Prefix — the store a sealed image is built through (`oramctl.rs`).

  An image that is to carry an embedded tree has room for the tree's hashes behind every page.
  Until the tree is built the controller uses the pages without that room:
  `LogicalPrefixPageStore` reads the front of a page and writes zeros behind what it writes.
  - `LogicalPrefixPageStore.honest`: over an honest store it is an array of the fronts.
-/

import BpirOram.Contract

namespace BpirOram

open Lib

/-! ## Stores that call page after page -/

/-- A store whose bulk calls are the loops over its pages is honest when its pages are. -/
def HonestStore.ofLoops {S : Type} [PageStore S] (Holds : Nat → Nat → (Nat → Bytes) → S → Prop)
    (pageCount_eq : ∀ {n sz c s}, Holds n sz c s → PageStore.pageCount s = n)
    (pageSize_eq : ∀ {n sz c s}, Holds n sz c s → PageStore.pageSize s = sz)
    (page_length : ∀ {n sz c s}, Holds n sz c s → ∀ i < n, (c i).length = sz)
    (readPage : ∀ {n sz c s i}, Holds n sz c s → i < n → ∃ t, PageStore.readPage i sz s = (.ok (c i), t) ∧
      Holds n sz c t)
    (writePage : ∀ {n sz c s i page}, Holds n sz c s → i < n → page.length = sz →
      ∃ t, PageStore.writePage i page s = (.ok (), t) ∧ Holds n sz (Function.update c i page) t)
    (readPages : ∀ (idxs : List Nat) (s : S), PageStore.readPages idxs s
      = Eff.forEach (fun i => PageStore.readPage i (PageStore.pageSize s)) idxs s)
    (writePages : ∀ (idxs : List Nat) (pages : List Bytes) (s : S), idxs.length = pages.length →
      PageStore.writePages idxs pages s = (Eff.forEach (fun w => if w.2.length ≠ PageStore.pageSize s then
        Eff.fail (.invalidInput s!"page len {w.2.length} != page_size {PageStore.pageSize s}")
          else PageStore.writePage w.1 w.2) (idxs.zip pages) >>= fun _ => pure ()) s) : HonestStore S where
  Holds := Holds
  pageCount_eq := pageCount_eq
  pageSize_eq := pageSize_eq
  page_length := page_length
  readPage := readPage
  writePage := writePage
  readPages {n sz c s idxs} h hi := by
    rw [readPages, pageSize_eq h]
    exact Eff.forEach_map (P := Holds n sz c) (fun i hm s hs => readPage hs (hi i hm)) h
  writePages {n sz c s idxs pages} h hi hlen hl := by
    have hstep : ∀ w ∈ idxs.zip pages, ∀ c s, Holds n sz c s → ∃ b t, (if w.2.length ≠ sz then
        Eff.fail (.invalidInput s!"page len {w.2.length} != page_size {sz}") else PageStore.writePage w.1 w.2) s
          = (.ok b, t) ∧ Holds n sz (Function.update c w.1 w.2) t := by
      intro w hw c s hs
      have hwl := hl w.2 (List.of_mem_zip hw).2
      obtain ⟨t, ht, hh⟩ := writePage hs (hi w.1 (List.of_mem_zip hw).1) hwl
      exact ⟨(), t, by rw [if_neg (not_not_intro hwl)]; exact ht, hh⟩
    obtain ⟨bs, t, hrun, ht⟩ := Eff.forEach_foldl (P := Holds n sz)
      (g := fun c (w : Nat × Bytes) => Function.update c w.1 w.2) hstep h
    refine ⟨t, ?_, ht⟩
    rw [writePages idxs pages s hlen, pageSize_eq h, Eff.bind_ok hrun]
    rfl

/-! ## The fronts of pages -/

structure LogicalPrefixPageStore (S : Type) where
  inner : S
  logicalPageSize : Nat
  physicalPageSize : Nat

namespace LogicalPrefixPageStore

variable {S : Type} [PageStore S]

def new (inner : S) (logicalPageSize : Nat) : Result (LogicalPrefixPageStore S) :=
  let physicalPageSize := PageStore.pageSize inner
  if logicalPageSize = 0 ∨ logicalPageSize > physicalPageSize then
    .error (.invalidInput s!"logical page size {logicalPageSize} is not in 1..={physicalPageSize}")
  else .ok { inner, logicalPageSize, physicalPageSize }

def onInner {α : Type} (m : Eff Error S α) : Eff Error (LogicalPrefixPageStore S) α :=
  Eff.zoom (·.inner) (fun inner s => { s with inner }) m

omit [PageStore S] in
theorem onInner_run {α : Type} {m : Eff Error S α} {s : LogicalPrefixPageStore S} {r : Result α} {inner : S}
    (h : m s.inner = (r, inner)) : onInner m s = (r, { s with inner }) := Eff.zoom_of h

instance : PageStore (LogicalPrefixPageStore S) where
  pageSize s := s.logicalPageSize
  pageCount s := PageStore.pageCount s.inner
  readPage pageIdx len := do
    let s ← Eff.get
    if len ≠ s.logicalPageSize then
      Eff.fail (.invalidInput s!"logical prefix read len {len} != page_size {s.logicalPageSize}")
    else do
      let physical ← onInner (PageStore.readPage pageIdx s.physicalPageSize)
      pure (physical.take s.logicalPageSize)
  writePage pageIdx input := do
    let s ← Eff.get
    if input.length ≠ s.logicalPageSize then
      Eff.fail (.invalidInput s!"logical prefix write len {input.length} != page_size {s.logicalPageSize}")
    else onInner (PageStore.writePage pageIdx (input ++ List.replicate (s.physicalPageSize - s.logicalPageSize) 0))
  flush := onInner PageStore.flush

/-- The pages are the fronts of those of the store within. -/
structure Holds (HS : HonestStore S) (n sz : Nat) (c : Nat → Bytes) (s : LogicalPrefixPageStore S) : Prop where
  logicalPageSize : s.logicalPageSize = sz
  le : sz ≤ s.physicalPageSize
  inner : ∃ d, HS.Holds n s.physicalPageSize d s.inner ∧ ∀ i < n, (d i).take sz = c i

variable {HS : HonestStore S} {n sz : Nat} {c : Nat → Bytes} {s : LogicalPrefixPageStore S} {i : Nat}

theorem Holds.page_length (h : Holds HS n sz c s) (hi : i < n) : (c i).length = sz := by
  obtain ⟨d, hd, hpage⟩ := h.inner
  rw [← hpage i hi, List.length_take, HS.page_length hd i hi, Nat.min_eq_left h.le]

theorem Holds.readPage (h : Holds HS n sz c s) (hi : i < n) :
    ∃ t, PageStore.readPage i sz s = (.ok (c i), t) ∧ Holds HS n sz c t := by
  obtain ⟨d, hd, hpage⟩ := h.inner
  obtain ⟨inner, hread, hd'⟩ := HS.readPage hd hi
  refine ⟨{ s with inner }, ?_, h.logicalPageSize, h.le, d, hd', hpage⟩
  show (if sz ≠ s.logicalPageSize then _ else _ : Eff Error (LogicalPrefixPageStore S) Bytes) s = _
  rw [if_neg (not_not_intro h.logicalPageSize.symm)]
  refine (Eff.bind_ok (onInner_run hread)).trans ?_
  rw [h.logicalPageSize, hpage i hi]
  rfl

theorem Holds.writePage (h : Holds HS n sz c s) (hi : i < n) {page : Bytes} (hl : page.length = sz) :
    ∃ t, PageStore.writePage i page s = (.ok (), t) ∧ Holds HS n sz (Function.update c i page) t := by
  obtain ⟨d, hd, hpage⟩ := h.inner
  have hlen : (page ++ List.replicate (s.physicalPageSize - s.logicalPageSize) 0).length = s.physicalPageSize := by
    rw [List.length_append, List.length_replicate, hl, h.logicalPageSize]
    exact Nat.add_sub_of_le h.le
  obtain ⟨inner, hwrite, hd'⟩ := HS.writePage hd hi hlen
  refine ⟨{ s with inner }, ?_, h.logicalPageSize, h.le, _, hd', fun j hj => ?_⟩
  · show (if page.length ≠ s.logicalPageSize then _ else _ : Eff Error (LogicalPrefixPageStore S) Unit) s = _
    rw [if_neg (not_not_intro (hl.trans h.logicalPageSize.symm))]
    exact onInner_run hwrite
  · by_cases hji : j = i
    · subst hji
      rw [Function.update_self, Function.update_self, List.take_left' hl]
    · rw [Function.update_of_ne hji, Function.update_of_ne hji, hpage j hj]

variable (HS) in
def honest : HonestStore (LogicalPrefixPageStore S) :=
  .ofLoops (Holds HS)
    (fun h => by
      obtain ⟨d, hd, -⟩ := h.inner
      exact HS.pageCount_eq hd)
    (fun h => h.logicalPageSize) (fun h _ hi => h.page_length hi) (fun h hi => h.readPage hi) (fun h hi hl => h.writePage hi hl)
    (fun _ _ => rfl) fun idxs pages s hlen => by
      show (if idxs.length ≠ pages.length then _ else _ : Eff Error (LogicalPrefixPageStore S) Unit) s = _
      rw [if_neg (not_not_intro hlen)]
      rfl

/-- A store of pages seen by their fronts. -/
theorem new_holds {d : Nat → Bytes} {sz' : Nat} {m : S} (hm : HS.Holds n sz' d m) (h : new m sz = .ok s) :
    (honest HS).Holds n sz (fun i => (d i).take sz) s ∧ s.inner = m := by
  unfold new at h
  simp only at h
  split at h
  · cases h
  · rename_i hsz
    cases h
    have hsize := HS.pageSize_eq hm
    exact ⟨⟨rfl, by simp only; omega, d, by simp only [hsize]; exact hm, fun _ _ => rfl⟩, rfl⟩

end LogicalPrefixPageStore
end BpirOram
