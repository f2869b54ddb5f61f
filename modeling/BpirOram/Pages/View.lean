/-
  BpirOram.Pages.View — what a page store shows.

  A store shows in each state an array of pages: what `read_page` would return, an error
  where the page cannot be read. A view of a store says that its calls, bulk calls included,
  are those of the array it shows. So bulk calls and the loops over single pages agree:
  - `PageView.reads_agree`, `PageView.writes_agree`, and for paths `PageView.pathReads_agree`,
    `PageView.pathWrites_agree`.
-/

import BpirOram.Contract

namespace BpirOram

open Lib

variable {S : Type}

/-- The pages of a list of indices, up to the first that cannot be read. -/
def readAll (v : Nat → Result Bytes) : List Nat → Result (List Bytes)
  | [] => .ok []
  | i :: idxs => do
    let page ← v i
    let pages ← readAll v idxs
    .ok (page :: pages)

/-- `Shows n sz v s`: in state `s` the store shows `v`, `n` pages of `sz` bytes. -/
structure PageView (S : Type) [PageStore S] where
  Shows : Nat → Nat → (Nat → Result Bytes) → S → Prop
  pageCount_eq {n sz v s} : Shows n sz v s → PageStore.pageCount s = n
  pageSize_eq {n sz v s} : Shows n sz v s → PageStore.pageSize s = sz
  page_length {n sz v s} : Shows n sz v s → ∀ i < n, ∀ page, v i = .ok page → page.length = sz
  page_error {n sz v s} : Shows n sz v s → ∀ i < n, ∀ e, v i = .error e → e = .aead
  readPage {n sz v s i} : Shows n sz v s → i < n → ∃ t, PageStore.readPage i sz s = (v i, t) ∧ Shows n sz v t
  writePage {n sz v s i page} : Shows n sz v s → i < n → page.length = sz →
    ∃ t, PageStore.writePage i page s = (.ok (), t) ∧ Shows n sz (Function.update v i (.ok page)) t
  readPages {n sz v s idxs} : Shows n sz v s → (∀ i ∈ idxs, i < n) →
    ∃ t, PageStore.readPages idxs s = (readAll v idxs, t) ∧ Shows n sz v t
  writePages {n sz v s idxs pages} : Shows n sz v s → (∀ i ∈ idxs, i < n) → idxs.length = pages.length →
    (∀ page ∈ pages, page.length = sz) →
    ∃ t, PageStore.writePages idxs pages s = (.ok (), t) ∧ Shows n sz (overwrite v (idxs.zip (pages.map .ok))) t

/-- `read_page` on each index in order. -/
def readEach [PageStore S] (sz : Nat) (idxs : List Nat) : Eff Error S (List Bytes) :=
  Eff.forEach (fun i => PageStore.readPage i sz) idxs

/-- No page read alone ends in a panic. -/
def ReadPageNeverPanics (S : Type) [PageStore S] : Prop :=
  ∀ i len msg (s : S), (PageStore.readPage i len s).1 ≠ .error (.panic msg)

theorem ReadPageNeverPanics.readEach {S : Type} [PageStore S] (h : ReadPageNeverPanics S) {len : Nat} {idxs : List Nat}
    {msg : String} {s : S} : (readEach len idxs s).1 ≠ .error (.panic msg) := by
  induction idxs generalizing s with
  | nil =>
    intro hrun
    cases hrun
  | cons i idxs ih =>
    intro hrun
    cases hone : PageStore.readPage i len s with
    | mk r t =>
      cases r with
      | error e =>
        have hall : BpirOram.readEach len (i :: idxs) s = (.error e, t) := Eff.forEach_error_head hone
        rw [hall] at hrun
        cases hrun
        exact h i len msg s (congrArg Prod.fst hone)
      | ok page =>
        cases hrest : BpirOram.readEach len idxs t with
        | mk r u =>
          cases r with
          | error e =>
            have hall : BpirOram.readEach len (i :: idxs) s = (.error e, u) := Eff.forEach_error_tail hone hrest
            rw [hall] at hrun
            cases hrun
            exact ih (congrArg Prod.fst hrest)
          | ok pages =>
            have hall : BpirOram.readEach len (i :: idxs) s = (.ok (page :: pages), u) := Eff.forEach_ok hone hrest
            rw [hall] at hrun
            cases hrun

/-- `write_page` on each index in order. -/
def writeEach [PageStore S] (writes : List (Nat × Bytes)) : Eff Error S Unit := do
  let _ ← Eff.forEach (fun w => PageStore.writePage w.1 w.2) writes

theorem readAll_ok {v : Nat → Result Bytes} {c : Nat → Bytes} {idxs : List Nat} (h : ∀ i ∈ idxs, v i = .ok (c i)) :
    readAll v idxs = .ok (idxs.map c) := by
  induction idxs with
  | nil => rfl
  | cons i idxs ih =>
    rw [readAll, h i List.mem_cons_self, ih fun j hj => h j (List.mem_cons_of_mem _ hj)]
    rfl

theorem readAll_append (v : Nat → Result Bytes) (idxs idxs' : List Nat) :
    readAll v (idxs ++ idxs') = readAll v idxs >>= fun pages => (readAll v idxs').map (pages ++ ·) := by
  induction idxs with
  | nil =>
    rw [List.nil_append, readAll]
    cases readAll v idxs' <;> rfl
  | cons i idxs ih =>
    rw [List.cons_append, readAll, readAll, ih]
    cases v i with
    | error e => rfl
    | ok page =>
      cases readAll v idxs with
      | error e => rfl
      | ok pages => cases readAll v idxs' <;> rfl

/-- A page that cannot be read. -/
theorem readAll_error {v : Nat → Result Bytes} {idxs : List Nat} {e : Error} (h : readAll v idxs = .error e) :
    ∃ i ∈ idxs, v i = .error e := by
  induction idxs with
  | nil => cases h
  | cons i idxs ih =>
    rw [readAll] at h
    cases hi : v i with
    | error e' =>
      rw [hi] at h
      cases h
      exact ⟨i, List.mem_cons_self, hi⟩
    | ok page =>
      rw [hi] at h
      cases hrest : readAll v idxs with
      | error e' =>
        rw [hrest] at h
        cases h
        obtain ⟨j, hj, he⟩ := ih hrest
        exact ⟨j, List.mem_cons_of_mem _ hj, he⟩
      | ok pages =>
        rw [hrest] at h
        cases h

/-- Where pages fail with one error alone, reading a page that fails gives that error. -/
theorem readAll_error_of {v : Nat → Result Bytes} {idxs : List Nat} {e : Error}
    (hone : ∀ j ∈ idxs, ∀ e', v j = .error e' → e' = e) {i : Nat} (hi : i ∈ idxs) (h : v i = .error e) :
    readAll v idxs = .error e := by
  cases hall : readAll v idxs with
  | error e' =>
    obtain ⟨j, hj, he⟩ := readAll_error hall
    rw [hone j hj e' he]
  | ok pages =>
    induction idxs generalizing pages with
    | nil => cases hi
    | cons k idxs ih =>
      obtain ⟨page, hpage, hall⟩ := bind_result_ok hall
      obtain ⟨rest, hrest, -⟩ := bind_result_ok hall
      rcases List.mem_cons.mp hi with rfl | hi
      · rw [h] at hpage
        cases hpage
      · cases ih (fun j hj => hone j (List.mem_cons_of_mem _ hj)) hi rest hrest

theorem readAll_forall₂ {v : Nat → Result Bytes} {idxs : List Nat} {pages : List Bytes} (h : readAll v idxs = .ok pages) :
    List.Forall₂ (fun i page => v i = .ok page) idxs pages := by
  induction idxs generalizing pages with
  | nil => cases h; exact .nil
  | cons i idxs ih =>
    obtain ⟨page, hpage, h⟩ := bind_result_ok h
    obtain ⟨rest, hrest, hlast⟩ := bind_result_ok h
    cases hlast
    exact .cons hpage (ih hrest)

theorem readAll_length {v : Nat → Result Bytes} {idxs : List Nat} {pages : List Bytes} (h : readAll v idxs = .ok pages) :
    pages.length = idxs.length := (readAll_forall₂ h).length_eq.symm

/-- An honest store shows its contents, and every page can be read. -/
def HonestStore.view [PageStore S] (H : HonestStore S) : PageView S where
  Shows n sz v s := ∃ c, H.Holds n sz c s ∧ ∀ i < n, v i = .ok (c i)
  pageCount_eq := by
    rintro n sz v s ⟨c, h, -⟩
    exact H.pageCount_eq h
  pageSize_eq := by
    rintro n sz v s ⟨c, h, -⟩
    exact H.pageSize_eq h
  page_length := by
    rintro n sz v s ⟨c, h, hv⟩ i hi page hpage
    rw [hv i hi] at hpage
    cases hpage
    exact H.page_length h i hi
  page_error := by
    rintro n sz v s ⟨c, h, hv⟩ i hi e he
    rw [hv i hi] at he
    cases he
  readPage := by
    rintro n sz v s i ⟨c, h, hv⟩ hi
    obtain ⟨t, hrun, ht⟩ := H.readPage h hi
    exact ⟨t, by rw [hrun, hv i hi], c, ht, hv⟩
  writePage := by
    rintro n sz v s i page ⟨c, h, hv⟩ hi hl
    obtain ⟨t, hrun, ht⟩ := H.writePage h hi hl
    exact ⟨t, hrun, _, ht, fun j hj => overwrite_map Except.ok (hv j hj) [(i, page)]⟩
  readPages := by
    rintro n sz v s idxs ⟨c, h, hv⟩ hi
    obtain ⟨t, hrun, ht⟩ := H.readPages h hi
    exact ⟨t, by rw [hrun, readAll_ok fun i hm => hv i (hi i hm)], c, ht, hv⟩
  writePages := by
    rintro n sz v s idxs pages ⟨c, h, hv⟩ hi hlen hl
    obtain ⟨t, hrun, ht⟩ := H.writePages h hi hlen hl
    refine ⟨t, hrun, _, ht, fun j hj => ?_⟩
    rw [List.zip_map_right]
    exact overwrite_map Except.ok (hv j hj) _

namespace PageView

variable [PageStore S] (V : PageView S) {n sz : Nat} {v : Nat → Result Bytes} {s : S} {idxs : List Nat} {pages : List Bytes}

/-! ## One page after another -/

theorem readEach_shows (h : V.Shows n sz v s) (hi : ∀ i ∈ idxs, i < n) :
    ∃ t, readEach sz idxs s = (readAll v idxs, t) ∧ V.Shows n sz v t := by
  induction idxs generalizing s with
  | nil => exact ⟨s, rfl, h⟩
  | cons i idxs ih =>
    obtain ⟨t, hread, ht⟩ := V.readPage h (hi i List.mem_cons_self)
    rw [readEach, readAll]
    cases hv : v i with
    | error e => exact ⟨t, Eff.forEach_error_head (hread.trans (by rw [hv])), ht⟩
    | ok page =>
      rw [hv] at hread
      obtain ⟨u, hrest, hu⟩ := ih ht fun j hj => hi j (List.mem_cons_of_mem _ hj)
      refine ⟨u, ?_, hu⟩
      cases hall : readAll v idxs with
      | error e => exact Eff.forEach_error_tail hread (hrest.trans (by rw [hall]))
      | ok pages => exact Eff.forEach_ok hread (hrest.trans (by rw [hall]))

theorem writeEach_shows (h : V.Shows n sz v s) (hi : ∀ i ∈ idxs, i < n) (hl : ∀ page ∈ pages, page.length = sz) :
    ∃ t, writeEach (idxs.zip pages) s = (.ok (), t) ∧ V.Shows n sz (overwrite v (idxs.zip (pages.map .ok))) t := by
  have hstep : ∀ w ∈ idxs.zip pages, ∀ v s, V.Shows n sz v s →
      ∃ b t, PageStore.writePage w.1 w.2 s = (.ok b, t) ∧ V.Shows n sz (Function.update v w.1 (.ok w.2)) t := by
    intro w hw v s hs
    obtain ⟨t, hrun, ht⟩ := V.writePage hs (hi w.1 (List.of_mem_zip hw).1) (hl w.2 (List.of_mem_zip hw).2)
    exact ⟨(), t, hrun, ht⟩
  obtain ⟨us, t, hrun, ht⟩ := Eff.forEach_foldl hstep h
  refine ⟨t, ?_, ?_⟩
  · rw [writeEach, Eff.bind_ok hrun]
    rfl
  · have hsame : overwrite v (idxs.zip (pages.map .ok))
        = (idxs.zip pages).foldl (fun v w => Function.update v w.1 (.ok w.2)) v := by
      rw [overwrite, List.zip_map_right, List.foldl_map]
      rfl
    rw [hsame]
    exact ht

/-! ## Bulk calls -/

/-- Read in bulk or one by one: the same result, and the same pages after. -/
theorem reads_agree (h : V.Shows n sz v s) (hi : ∀ i ∈ idxs, i < n) :
    (PageStore.readPages idxs s).1 = (readEach sz idxs s).1 ∧
      V.Shows n sz v (PageStore.readPages idxs s).2 ∧ V.Shows n sz v (readEach sz idxs s).2 := by
  obtain ⟨t, hbulk, ht⟩ := V.readPages h hi
  obtain ⟨u, heach, hu⟩ := V.readEach_shows h hi
  rw [hbulk, heach]
  exact ⟨rfl, ht, hu⟩

/-- Written in bulk or one by one: both succeed, and show the same pages after. -/
theorem writes_agree (h : V.Shows n sz v s) (hi : ∀ i ∈ idxs, i < n) (hlen : idxs.length = pages.length)
    (hl : ∀ page ∈ pages, page.length = sz) :
    (PageStore.writePages idxs pages s).1 = .ok () ∧ (writeEach (idxs.zip pages) s).1 = .ok () ∧
      V.Shows n sz (overwrite v (idxs.zip (pages.map .ok))) (PageStore.writePages idxs pages s).2 ∧
      V.Shows n sz (overwrite v (idxs.zip (pages.map .ok))) (writeEach (idxs.zip pages) s).2 := by
  obtain ⟨t, hbulk, ht⟩ := V.writePages h hi hlen hl
  obtain ⟨u, heach, hu⟩ := V.writeEach_shows h hi hl
  rw [hbulk, heach]
  exact ⟨rfl, rfl, ht, hu⟩

/-! ## Paths -/

theorem unflatten_append {path : List Nat} {pages : List Bytes} (h : pages.length = path.length) (paths : List (List Nat))
    (rest : List Bytes) : unflatten (path :: paths) (pages ++ rest) = (unflatten paths rest).map (pages :: ·) := by
  rw [unflatten, if_neg (by rw [List.length_append]; omega), ← h, List.drop_left, List.take_left]
  cases unflatten paths rest <;> rfl

/-- `read_page` on each node of each path in order. -/
def readEachPath (sz : Nat) (paths : List (List Nat)) : Eff Error S (List (List Bytes)) := Eff.forEach (readEach sz) paths

theorem readEachPath_shows {paths : List (List Nat)} (h : V.Shows n sz v s) (hi : ∀ i ∈ paths.flatten, i < n) :
    ∃ t, readEachPath sz paths s = (readAll v paths.flatten >>= unflatten paths, t) ∧ V.Shows n sz v t := by
  induction paths generalizing s with
  | nil => exact ⟨s, rfl, h⟩
  | cons path paths ih =>
    rw [List.flatten_cons] at hi
    obtain ⟨t, hpath, ht⟩ := V.readEach_shows h fun i hm => hi i (List.mem_append_left _ hm)
    obtain ⟨u, hrest, hu⟩ := ih ht fun i hm => hi i (List.mem_append_right _ hm)
    rw [readEachPath, List.flatten_cons, readAll_append]
    cases hv : readAll v path with
    | error e => exact ⟨t, Eff.forEach_error_head (hpath.trans (by rw [hv])), ht⟩
    | ok pages =>
      rw [hv] at hpath
      refine ⟨u, ?_, hu⟩
      cases hall : readAll v paths.flatten with
      | error e => exact Eff.forEach_error_tail hpath (hrest.trans (by rw [hall]; rfl))
      | ok rest =>
        have hsplit : (unflatten (path :: paths) (pages ++ rest)) = (unflatten paths rest).map (pages :: ·) :=
          unflatten_append (readAll_length hv) paths rest
        show Eff.forEach (readEach sz) (path :: paths) s = (unflatten (path :: paths) (pages ++ rest), u)
        rw [hsplit]
        cases hun : unflatten paths rest with
        | error e => exact Eff.forEach_error_tail hpath (hrest.trans (by rw [hall]; exact congrArg (·, u) hun))
        | ok out => exact Eff.forEach_ok hpath (hrest.trans (by rw [hall]; exact congrArg (·, u) hun))

/-- Paths read at once or page by page. -/
theorem pathReads_agree {paths : List (List Nat)} (h : V.Shows n sz v s) (hi : ∀ i ∈ paths.flatten, i < n) :
    (PathPageStore.readPathsPages paths s).1 = (readEachPath sz paths s).1 ∧
      V.Shows n sz v (PathPageStore.readPathsPages paths s).2 ∧ V.Shows n sz v (readEachPath sz paths s).2 := by
  obtain ⟨t, hbulk, ht⟩ := V.readPages h hi
  obtain ⟨u, heach, hu⟩ := V.readEachPath_shows h hi
  have hpaths : PathPageStore.readPathsPages paths s = (readAll v paths.flatten >>= unflatten paths, t) := by
    show (PageStore.readPages paths.flatten >>= fun flatPages => Eff.lift (unflatten paths flatPages)) s = _
    cases hall : readAll v paths.flatten with
    | error e => exact Eff.bind_error (hbulk.trans (by rw [hall]))
    | ok pages => exact Eff.bind_ok (hbulk.trans (by rw [hall]))
  rw [hpaths, heach]
  exact ⟨rfl, ht, hu⟩

/-- A page for each node of each path. -/
theorem flatten_matched {paths : List (List Nat)} {pages : List (List Bytes)}
    (h : List.Forall₂ (fun path pages => path.length = pages.length) paths pages) :
    paths.flatten.length = pages.flatten.length ∧ checkPathLengths (paths.zip pages) = .ok () := by
  induction h with
  | nil => exact ⟨rfl, rfl⟩
  | cons hpath _ ih =>
    refine ⟨?_, ?_⟩
    · rw [List.flatten_cons, List.flatten_cons, List.length_append, List.length_append, hpath, ih.1]
    · rw [List.zip_cons_cons, checkPathLengths, if_neg (not_not_intro hpath), ih.2]

/-- Paths written at once or page by page. -/
theorem pathWrites_agree {paths : List (List Nat)} {pages : List (List Bytes)} (h : V.Shows n sz v s)
    (hi : ∀ i ∈ paths.flatten, i < n) (hlen : List.Forall₂ (fun path pages => path.length = pages.length) paths pages)
    (hl : ∀ page ∈ pages.flatten, page.length = sz) :
    (PathPageStore.writePathsPages paths pages s).1 = .ok () ∧ (writeEach (paths.flatten.zip pages.flatten) s).1 = .ok () ∧
      V.Shows n sz (overwrite v (paths.flatten.zip (pages.flatten.map .ok))) (PathPageStore.writePathsPages paths pages s).2 ∧
      V.Shows n sz (overwrite v (paths.flatten.zip (pages.flatten.map .ok)))
        (writeEach (paths.flatten.zip pages.flatten) s).2 := by
  obtain ⟨hflat, hcheck⟩ := flatten_matched hlen
  have hrun : PathPageStore.writePathsPages paths pages s = PageStore.writePages paths.flatten pages.flatten s := by
    show (if paths.length ≠ pages.length then _ else _ : Eff Error S Unit) s = _
    rw [if_neg (by simpa using hlen.length_eq), hcheck, Eff.lift_ok_bind]
  rw [hrun]
  exact V.writes_agree h hi hflat hl

end PageView
end BpirOram
