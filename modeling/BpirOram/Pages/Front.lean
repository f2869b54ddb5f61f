/-
  BpirOram.Pages.Front — a front cache beside a plain array of pages.

  Only a flush writes a front page of the store below; a front page not marked dirty is the
  page below (`Synced`). A call that is refused changes nothing, but for `write_pages`: the
  loop over the pages has then written those front pages that came before the refused one.
  - `FrontCachedPageStore.transparent`: every run of calls on a new cache ends call by call as
    on an array of pages with that rule; after a flush the store below holds the array, and
    another flush is the flush of the store below.
  - `FrontCachedPageStore.refused_writes`: no rule that treats all pages alike would do.
-/

import BpirOram.Pages.Cached

namespace BpirOram

open Lib

/-! ## Calls -/

inductive PageOp where
  | readPage (pageIdx len : Nat)
  | writePage (pageIdx : Nat) (input : Bytes)
  | readPages (pageIndices : List Nat)
  | writePages (pageIndices : List Nat) (pages : List Bytes)
  | flush

namespace PageOp

/-- The pages a call returns. -/
def run {S : Type} [PageStore S] : PageOp → Eff Error S (List Bytes)
  | .readPage pageIdx len => do
    let page ← PageStore.readPage pageIdx len
    pure [page]
  | .writePage pageIdx input => do
    PageStore.writePage pageIdx input
    pure []
  | .readPages pageIndices => PageStore.readPages pageIndices
  | .writePages pageIndices pages => do
    PageStore.writePages pageIndices pages
    pure []
  | .flush => do
    PageStore.flush
    pure []

end PageOp

/-- The results of some calls, those that fail included. -/
def calls {S : Type} [PageStore S] (ops : List PageOp) : Eff Error S (List (Result (List Bytes))) :=
  Eff.forEach (fun op => Eff.attempt op.run) ops

/-! ## The array

  `n` pages of `sz` bytes, a page possibly unreadable. -/

section
variable (n sz : Nat)

def plainCheck (pageIdx len : Nat) : Result Unit :=
  if pageIdx ≥ n then .error (.invalidInput s!"page_idx {pageIdx} out of range {n}")
  else if len ≠ sz then .error (.invalidInput s!"page buffer len {len} != page_size {sz}")
  else .ok ()

def plainCheckRange : List Nat → Result Unit
  | [] => .ok ()
  | pageIdx :: pageIndices =>
    if pageIdx ≥ n then .error (.invalidInput s!"page_idx {pageIdx} out of range {n}") else plainCheckRange pageIndices

def plainCheckWrite (w : Nat × Bytes) : Result Unit :=
  if w.1 ≥ n then .error (.invalidInput s!"page_idx {w.1} out of range {n}")
  else if w.2.length ≠ sz then .error (.invalidInput s!"page len {w.2.length} != page_size {sz}")
  else .ok ()

/-- The writes before the first that is refused, and why it is. -/
def acceptedWrites : List (Nat × Bytes) → List (Nat × Bytes) × Result Unit
  | [] => ([], .ok ())
  | w :: writes => match plainCheckWrite n sz w with
    | .error e => ([], .error e)
    | .ok () => (w :: (acceptedWrites writes).1, (acceptedWrites writes).2)

/-- Writes in order. -/
def put (v : Nat → Result Bytes) (writes : List (Nat × Bytes)) : Nat → Result Bytes :=
  overwrite v (writes.map (Prod.map id .ok))

/-- A call on the array. Of a refused bulk write, the writes before the refused one are made to
    the pages in front of `front`. -/
def PageOp.plain (front : Nat) : PageOp → Eff Error (Nat → Result Bytes) (List Bytes)
  | .readPage pageIdx len => do
    Eff.lift (plainCheck n sz pageIdx len)
    let v ← Eff.get
    let page ← Eff.lift (v pageIdx)
    pure [page]
  | .writePage pageIdx input => do
    Eff.lift (plainCheck n sz pageIdx input.length)
    Eff.modify fun v => put v [(pageIdx, input)]
    pure []
  | .readPages pageIndices => do
    Eff.lift (plainCheckRange n pageIndices)
    let v ← Eff.get
    Eff.lift (readAll v pageIndices)
  | .writePages pageIndices pages =>
    if pageIndices.length ≠ pages.length then
      Eff.fail (.invalidInput s!"page index count {pageIndices.length} != page count {pages.length}")
    else
      let accepted := acceptedWrites n sz (pageIndices.zip pages)
      match accepted.2 with
      | .ok () => do
        Eff.modify fun v => put v accepted.1
        pure []
      | .error e => do
        Eff.modify fun v => put v (accepted.1.filter fun w => w.1 < front)
        Eff.fail e
  | .flush => pure []

def plainCalls (front : Nat) (ops : List PageOp) : Eff Error (Nat → Result Bytes) (List (Result (List Bytes))) :=
  Eff.forEach (fun op => Eff.attempt (op.plain n sz front)) ops

end

section
variable {n sz : Nat}

theorem plainCheck_ok {i len : Nat} (h : plainCheck n sz i len = .ok ()) : i < n ∧ len = sz := by
  unfold plainCheck at h
  split at h
  · cases h
  · split at h
    · cases h
    · omega

theorem plainCheckRange_ok {idxs : List Nat} (h : plainCheckRange n idxs = .ok ()) : ∀ i ∈ idxs, i < n := by
  induction idxs with
  | nil => simp
  | cons i idxs ih =>
    unfold plainCheckRange at h
    split at h
    · cases h
    · intro j hj
      rcases List.mem_cons.mp hj with rfl | hj
      · omega
      · exact ih h j hj

theorem plainCheckWrite_ok {x : Nat × Bytes} (h : plainCheckWrite n sz x = .ok ()) : x.1 < n ∧ x.2.length = sz := by
  unfold plainCheckWrite at h
  split at h
  · cases h
  · split at h
    · cases h
    · omega

/-- All writes are accepted, or the accepted ones are followed by one that is not. -/
theorem acceptedWrites_cases (n sz : Nat) (writes : List (Nat × Bytes)) :
    (∀ x ∈ (acceptedWrites n sz writes).1, plainCheckWrite n sz x = .ok ()) ∧
      ((acceptedWrites n sz writes).2 = .ok () ∧ (acceptedWrites n sz writes).1 = writes ∨
        ∃ e x rest, (acceptedWrites n sz writes).2 = .error e ∧ plainCheckWrite n sz x = .error e ∧
          writes = (acceptedWrites n sz writes).1 ++ x :: rest) := by
  induction writes with
  | nil => exact ⟨by simp [acceptedWrites], .inl ⟨rfl, rfl⟩⟩
  | cons x writes ih =>
    obtain ⟨hall, hrest⟩ := ih
    unfold acceptedWrites
    cases hx : plainCheckWrite n sz x with
    | error e => exact ⟨by simp, .inr ⟨e, x, writes, rfl, hx, rfl⟩⟩
    | ok u =>
      refine ⟨?_, ?_⟩
      · intro y hy
        rcases List.mem_cons.mp hy with rfl | hy
        · exact hx
        · exact hall y hy
      · rcases hrest with ⟨hok, hsame⟩ | ⟨e, y, rest, he, hy, hsplit⟩
        · exact .inl ⟨hok, congrArg (x :: ·) hsame⟩
        · exact .inr ⟨e, y, rest, he, hy, congrArg (x :: ·) hsplit⟩

end

namespace FrontCachedPageStore

variable {S : Type}

/-! ## What is marked dirty -/

/-- From `s` to `t`: a front page that is clean now was clean and is the same. -/
structure Marks (s t : FrontCachedPageStore S) : Prop where
  cachedPages : t.cachedPages = s.cachedPages
  clean : ∀ i < s.cachedPages, t.dirty.val[i]? = some false → s.dirty.val[i]? = some false ∧ t.front i = s.front i

theorem Marks.refl (s : FrontCachedPageStore S) : Marks s s := ⟨rfl, fun _ _ h => ⟨h, rfl⟩⟩

theorem Marks.setFront {s t : FrontCachedPageStore S} (h : Marks s t) (i : Nat) (page : Bytes) : Marks s (t.setFront i page) := by
  unfold FrontCachedPageStore.setFront
  split
  · rename_i hset
    refine ⟨h.cachedPages, fun j hj hclean => ?_⟩
    have hjt : j < t.cachedPages := h.cachedPages.symm ▸ hj
    by_cases hji : j = i
    · subst hji
      have hflag : (t.dirty.val.set j true)[j]? = some true := List.getElem?_set_self (t.dirty.property.symm ▸ hjt)
      rw [hflag] at hclean
      cases hclean
    · have hflag : (t.dirty.val.set i true)[j]? = t.dirty.val[j]? := List.getElem?_set_ne (Ne.symm hji)
      obtain ⟨hwas, hsame⟩ := h.clean j hj (hflag ▸ hclean)
      refine ⟨hwas, Eq.trans ?_ hsame⟩
      show pageAt t.pageSize (splice t.cached.val (i * t.pageSize) page) j = t.front j
      rw [pageAt_splice t.cached.property hset.1 hset.2, Function.update_of_ne hji]
      rfl
  · exact h

section
variable [PageStore S] {s : FrontCachedPageStore S}

omit [PageStore S] in
theorem keeps_onInner {α : Type} (m : Eff Error S α) :
    Eff.Keeps (Marks s) (onInner m : Eff Error (FrontCachedPageStore S) α) :=
  fun _ h => ⟨h.cachedPages, h.clean⟩

theorem keeps_readPage (i len : Nat) : Eff.Keeps (Marks s) (readPage i len : Eff Error (FrontCachedPageStore S) Bytes) := by
  apply Eff.Keeps.get_bind
  intro t ht
  refine (Eff.Keeps.lift _).bind (fun _ => ?_) t ht
  split
  · exact .pure _
  · exact keeps_onInner _

theorem keeps_writePage (i : Nat) (page : Bytes) :
    Eff.Keeps (Marks s) (writePage i page : Eff Error (FrontCachedPageStore S) Unit) := by
  apply Eff.Keeps.get_bind
  intro t ht
  refine (Eff.Keeps.lift _).bind (fun _ => ?_) t ht
  split
  · exact .modify fun u hu => hu.setFront i page
  · exact keeps_onInner _

theorem keeps_readPages (idxs : List Nat) :
    Eff.Keeps (Marks s) (readPages idxs : Eff Error (FrontCachedPageStore S) (List Bytes)) := by
  apply Eff.Keeps.get_bind
  intro t ht
  refine (Eff.Keeps.lift _).bind (fun _ => ?_) t ht
  simp only
  split
  · exact .pure _
  · exact (keeps_onInner _).bind fun _ => .pure _

theorem keeps_stageWrite (x : Nat × Bytes) :
    Eff.Keeps (Marks s) (stageWrite x : Eff Error (FrontCachedPageStore S) (List (Nat × Bytes))) := by
  apply Eff.Keeps.get_bind
  intro t ht
  split
  · exact ht
  · split
    · exact ht
    · split
      · exact ht.setFront x.1 x.2
      · exact ht

theorem keeps_writePages (idxs : List Nat) (pages : List Bytes) :
    Eff.Keeps (Marks s) (writePages idxs pages : Eff Error (FrontCachedPageStore S) Unit) := by
  unfold writePages
  split
  · exact .fail _
  · refine (Eff.Keeps.forEach fun x _ => keeps_stageWrite x).bind fun staged => ?_
    simp only
    split
    · exact .pure _
    · exact keeps_onInner _

end

/-! ## Clean pages are those below -/

theorem marks_of {α : Type} {m : Eff Error (FrontCachedPageStore S) α} {s t : FrontCachedPageStore S} {r : Result α}
    (hm : Eff.Keeps (Marks s) m) (hrun : m s = (r, t)) : Marks s t := by
  have hend := hm s (.refl s)
  rwa [hrun] at hend

/-- The cache shows `v` over a store that shows `w`, and its clean pages are `w`'s. -/
structure Synced [PageStore S] (V : PageView S) (n sz front : Nat) (w v : Nat → Result Bytes) (s : FrontCachedPageStore S) :
    Prop where
  fronts : Fronts V n sz w v s
  cachedPages : s.cachedPages = front
  clean : ∀ i < front, s.dirty.val[i]? = some false → w i = .ok (s.front i)

namespace Synced

section
variable [PageStore S] {V : PageView S} {n sz front : Nat} {v w : Nat → Result Bytes} {s : FrontCachedPageStore S}

/-- A call that leaves the front pages below as they are. -/
theorem advance (h : Synced V n sz front w v s) {t : FrontCachedPageStore S} {w' v' : Nat → Result Bytes} (hm : Marks s t)
    (ht : Fronts V n sz w' v' t) (hw : ∀ i < s.cachedPages, w' i = w i) : Synced V n sz front w' v' t := by
  have hcount := h.cachedPages
  subst hcount
  refine ⟨ht, hm.cachedPages, fun i hi hclean => ?_⟩
  obtain ⟨hwas, hsame⟩ := hm.clean i hi hclean
  rw [hw i hi, hsame]
  exact h.clean i hi hwas

theorem checkPage_eq (h : Synced V n sz front w v s) (i len : Nat) : s.checkPage i len = plainCheck n sz i len := by
  rw [checkPage, plainCheck, h.fronts.pageCount, h.fronts.pageSize]

theorem checkRange_eq (h : Synced V n sz front w v s) (idxs : List Nat) : s.checkRange idxs = plainCheckRange n idxs := by
  induction idxs with
  | nil => rfl
  | cons i idxs ih => rw [checkRange, plainCheckRange, h.fronts.pageCount, ih]

/-! ### One call -/

/-- Two runs that end the same way, the cache over the array. -/
abbrev Mirrors (V : PageView S) (n sz front : Nat) (s : FrontCachedPageStore S) (v : Nat → Result Bytes) : Prop :=
  ∃ w, Synced V n sz front w v s

theorem mirrors_of {op : PageOp} {r : Result (List Bytes)} {t : FrontCachedPageStore S} {w' v' : Nat → Result Bytes}
    (hrun : op.run s = (r, t)) (hplain : op.plain n sz front v = (r, v')) (ht : Synced V n sz front w' v' t) :
    (op.run s).1 = (op.plain n sz front v).1 ∧ Mirrors V n sz front (op.run s).2 (op.plain n sz front v).2 := by
  rw [hrun, hplain]
  exact ⟨rfl, w', ht⟩

theorem sim_readPage (i len : Nat) :
    Eff.Sim (Mirrors V n sz front) (PageOp.readPage i len).run (PageOp.plain n sz front (.readPage i len)) := by
  intro s v hs
  obtain ⟨w, h⟩ := hs
  cases hcheck : plainCheck n sz i len with
  | error e =>
    have hrun : FrontCachedPageStore.readPage i len s = (.error e, s) := by
      rw [FrontCachedPageStore.readPage, Eff.get_bind, h.checkPage_eq, hcheck]
      rfl
    have hplain : PageOp.plain n sz front (.readPage i len) v = (.error e, v) := by
      rw [PageOp.plain, hcheck]
      rfl
    exact mirrors_of (Eff.bind_error hrun) hplain h
  | ok u =>
    obtain ⟨hi, rfl⟩ := plainCheck_ok hcheck
    obtain ⟨t, hrun, ht⟩ := h.fronts.readPage hi
    have hsynced := h.advance (marks_of (keeps_readPage i len) hrun) ht fun _ _ => rfl
    have hplain : PageOp.plain n len front (.readPage i len) v = (Eff.lift (v i) >>= fun page => pure [page]) v := by
      rw [PageOp.plain, hcheck]
      rfl
    cases hv : v i with
    | error e => exact mirrors_of (Eff.bind_error (hrun.trans (by rw [hv]))) (hplain.trans (by rw [hv]; rfl)) hsynced
    | ok page => exact mirrors_of (Eff.bind_ok (hrun.trans (by rw [hv]))) (hplain.trans (by rw [hv]; rfl)) hsynced

theorem sim_writePage (i : Nat) (page : Bytes) :
    Eff.Sim (Mirrors V n sz front) (PageOp.writePage i page).run (PageOp.plain n sz front (.writePage i page)) := by
  intro s v hs
  obtain ⟨w, h⟩ := hs
  cases hcheck : plainCheck n sz i page.length with
  | error e =>
    have hrun : FrontCachedPageStore.writePage i page s = (.error e, s) := by
      rw [FrontCachedPageStore.writePage, Eff.get_bind, h.checkPage_eq, hcheck]
      rfl
    have hplain : PageOp.plain n sz front (.writePage i page) v = (.error e, v) := by
      rw [PageOp.plain, hcheck]
      rfl
    exact mirrors_of (Eff.bind_error hrun) hplain h
  | ok u =>
    obtain ⟨hi, hl⟩ := plainCheck_ok hcheck
    obtain ⟨t, w', hrun, ht, hw⟩ := h.fronts.writePage hi hl
    have hplain : PageOp.plain n sz front (.writePage i page) v = (.ok [], Function.update v i (.ok page)) := by
      rw [PageOp.plain, hcheck]
      rfl
    exact mirrors_of (Eff.bind_ok hrun) hplain (h.advance (marks_of (keeps_writePage i page) hrun) ht hw)

theorem sim_readPages (idxs : List Nat) :
    Eff.Sim (Mirrors V n sz front) (PageOp.readPages idxs).run (PageOp.plain n sz front (.readPages idxs)) := by
  intro s v hs
  obtain ⟨w, h⟩ := hs
  cases hcheck : plainCheckRange n idxs with
  | error e =>
    have hrun : FrontCachedPageStore.readPages idxs s = (.error e, s) := by
      rw [FrontCachedPageStore.readPages, Eff.get_bind, h.checkRange_eq, hcheck]
      rfl
    have hplain : PageOp.plain n sz front (.readPages idxs) v = (.error e, v) := by
      rw [PageOp.plain, hcheck]
      rfl
    exact mirrors_of hrun hplain h
  | ok u =>
    obtain ⟨t, hrun, ht⟩ := h.fronts.readPages (plainCheckRange_ok hcheck)
    have hplain : PageOp.plain n sz front (.readPages idxs) v = (readAll v idxs, v) := by
      rw [PageOp.plain, hcheck]
      rfl
    exact mirrors_of hrun hplain (h.advance (marks_of (keeps_readPages idxs) hrun) ht fun _ _ => rfl)

/-! ### Bulk writes -/

theorem stageWrite_error (h : Synced V n sz front w v s) {x : Nat × Bytes} {e : Error} (hx : plainCheckWrite n sz x = .error e) :
    stageWrite x s = (.error e, s) := by
  unfold plainCheckWrite at hx
  rw [stageWrite, Eff.get_bind, h.fronts.pageCount, h.fronts.pageSize]
  by_cases hi : x.1 ≥ n
  · rw [if_pos hi] at hx ⊢
    cases hx
    rfl
  · rw [if_neg hi] at hx ⊢
    by_cases hl : x.2.length ≠ sz
    · rw [if_pos hl] at hx ⊢
      cases hx
      rfl
    · rw [if_neg hl] at hx
      cases hx

theorem writePages_all (h : Synced V n sz front w v s) {idxs : List Nat} {pages : List Bytes} (hlen : idxs.length = pages.length)
    (hall : ∀ x ∈ idxs.zip pages, plainCheckWrite n sz x = .ok ()) :
    ∃ t w', FrontCachedPageStore.writePages idxs pages s = (.ok (), t) ∧
      Synced V n sz front w' (put v (idxs.zip pages)) t := by
  have hi : ∀ i ∈ idxs, i < n := by
    intro i hi
    obtain ⟨k, hk, rfl⟩ := List.mem_iff_getElem.mp hi
    have hx := List.getElem_mem (l := idxs.zip pages) (n := k) (by rw [List.length_zip]; omega)
    have := (plainCheckWrite_ok (hall _ hx)).1
    rwa [List.getElem_zip] at this
  have hl : ∀ page ∈ pages, page.length = sz := by
    intro page hpage
    obtain ⟨k, hk, rfl⟩ := List.mem_iff_getElem.mp hpage
    have hx := List.getElem_mem (l := idxs.zip pages) (n := k) (by rw [List.length_zip]; omega)
    have := (plainCheckWrite_ok (hall _ hx)).2
    rwa [List.getElem_zip] at this
  obtain ⟨t, w', hrun, ht, hw⟩ := h.fronts.writePages hi hlen hl
  refine ⟨t, w', hrun, ?_⟩
  rw [List.zip_map_right] at ht
  exact h.advance (marks_of (keeps_writePages idxs pages) hrun) ht hw

/-- The loop stops at the refused write, and the store below has been asked for nothing. -/
theorem writePages_refused (h : Synced V n sz front w v s) {idxs : List Nat} {pages : List Bytes}
    (hlen : idxs.length = pages.length)
    {writes rest : List (Nat × Bytes)} {x : Nat × Bytes} {e : Error} (hsplit : idxs.zip pages = writes ++ x :: rest)
    (hall : ∀ y ∈ writes, plainCheckWrite n sz y = .ok ()) (hx : plainCheckWrite n sz x = .error e) :
    ∃ t, FrontCachedPageStore.writePages idxs pages s = (.error e, t) ∧
      Synced V n sz front w (put v (writes.filter fun y => y.1 < front)) t := by
  obtain ⟨staged, t, hrun, -, hcount, ht⟩ := h.fronts.stageWrites fun y hy => plainCheckWrite_ok (hall y hy)
  have hmarks : Marks s t := marks_of (.forEach fun y _ => keeps_stageWrite y) hrun
  rw [h.cachedPages] at ht
  have hsynced : Synced V n sz front w (put v (writes.filter fun y => y.1 < front)) t := h.advance hmarks ht fun _ _ => rfl
  refine ⟨t, ?_, hsynced⟩
  rw [FrontCachedPageStore.writePages, if_neg (not_not_intro hlen), hsplit]
  exact Eff.bind_error (Eff.forEach_error_at hrun (hsynced.stageWrite_error hx))

theorem sim_writePages (idxs : List Nat) (pages : List Bytes) :
    Eff.Sim (Mirrors V n sz front) (PageOp.writePages idxs pages).run (PageOp.plain n sz front (.writePages idxs pages)) := by
  intro s v hs
  obtain ⟨w, h⟩ := hs
  by_cases hlen : idxs.length = pages.length
  · obtain ⟨hall, hcase⟩ := acceptedWrites_cases n sz (idxs.zip pages)
    rcases hcase with ⟨hok, hsame⟩ | ⟨e, x, rest, he, hx, hsplit⟩
    · rw [hsame] at hall
      obtain ⟨t, w', hrun, ht⟩ := h.writePages_all hlen hall
      have hplain : PageOp.plain n sz front (.writePages idxs pages) v = (.ok [], put v (idxs.zip pages)) := by
        rw [PageOp.plain, if_neg (not_not_intro hlen)]
        simp only [hok, hsame]
        rfl
      exact mirrors_of (Eff.bind_ok hrun) hplain ht
    · obtain ⟨t, hrun, ht⟩ := h.writePages_refused hlen hsplit hall hx
      have hplain : PageOp.plain n sz front (.writePages idxs pages) v
          = (.error e, put v ((acceptedWrites n sz (idxs.zip pages)).1.filter fun y => y.1 < front)) := by
        rw [PageOp.plain, if_neg (not_not_intro hlen)]
        simp only [he]
        rfl
      exact mirrors_of (Eff.bind_error hrun) hplain ht
  · have hrun : FrontCachedPageStore.writePages idxs pages s = (.error (.invalidInput
        s!"page index count {idxs.length} != page count {pages.length}"), s) := by
      rw [FrontCachedPageStore.writePages, if_pos hlen]
      rfl
    have hplain : PageOp.plain n sz front (.writePages idxs pages) v = (.error (.invalidInput
        s!"page index count {idxs.length} != page count {pages.length}"), v) := by
      rw [PageOp.plain, if_pos hlen]
      rfl
    exact mirrors_of (Eff.bind_error hrun) hplain h

/-! ### Flushing -/

theorem flushPage (h : Synced V n sz front w v s) {i : Nat} (hi : i < front) :
    ∃ t w', FrontCachedPageStore.flushPage i s = (.ok (), t) ∧ Synced V n sz front w' v t ∧
      t.dirty.val = s.dirty.val.set i false := by
  obtain ⟨hfronts, rfl, hclean⟩ := h
  have hlt : i < s.dirty.val.length := s.dirty.property.symm ▸ hi
  rw [FrontCachedPageStore.flushPage, Eff.get_bind]
  by_cases hdirty : s.dirty.val[i]? = some true
  · have hl : (s.front i).length = sz := (front_length s hi).trans hfronts.pageSize
    obtain ⟨u, hwrite, hu⟩ := V.writePage hfronts.inner (Nat.lt_of_lt_of_le hi hfronts.cachedPages) hl
    have hinner : onInner (PageStore.writePage i (s.front i)) s = (.ok (), { s with inner := u }) := Eff.zoom_of hwrite
    rw [if_pos hdirty, Eff.bind_ok hinner]
    refine ⟨_, _, rfl, ⟨⟨hu, hfronts.pageSize, hfronts.cachedPages, hfronts.front, fun j hj hle => ?_⟩, rfl,
      fun j hj hflag => ?_⟩, rfl⟩
    · rw [Function.update_of_ne (Nat.ne_of_gt (Nat.lt_of_lt_of_le hi hle))]
      exact hfronts.tail j hj hle
    · by_cases hji : j = i
      · subst hji
        exact Function.update_self _ _ _
      · rw [Function.update_of_ne hji]
        have hsame : (s.dirty.val.set i false)[j]? = s.dirty.val[j]? := List.getElem?_set_ne (Ne.symm hji)
        exact hclean j hj (hsame ▸ hflag)
  · rw [if_neg hdirty]
    refine ⟨s, w, rfl, ⟨hfronts, rfl, hclean⟩, ?_⟩
    have hfalse : s.dirty.val[i] = false := by
      rw [List.getElem?_eq_getElem hlt] at hdirty
      exact Bool.eq_false_iff.mpr fun he => hdirty (congrArg some he)
    rw [← hfalse, List.set_getElem_self]

/-- The loop of `flush` leaves every page clean. -/
theorem flushPages (h : Synced V n sz front w v s) : ∃ us t w',
    Eff.forEach FrontCachedPageStore.flushPage (List.range front) s = (.ok us, t) ∧ Synced V n sz front w' v t ∧
      ∀ i < front, t.dirty.val[i]? = some false := by
  have hturn : ∀ k, 0 ≤ k → k < 0 + front → ∀ s,
      (∃ w, Synced V n sz front w v s ∧ ∀ i < k, s.dirty.val[i]? = some false) →
      ∃ b t, FrontCachedPageStore.flushPage k s = (.ok b, t) ∧
        ∃ w, Synced V n sz front w v t ∧ ∀ i < k + 1, t.dirty.val[i]? = some false := by
    intro k _ hk s hs
    obtain ⟨w, h, hbefore⟩ := hs
    obtain ⟨t, w', hrun, ht, hflags⟩ := h.flushPage (show k < front by omega)
    refine ⟨(), t, hrun, w', ht, fun i hi => ?_⟩
    have hlt : k < s.dirty.val.length := by
      rw [s.dirty.property, h.cachedPages]
      omega
    rw [hflags]
    by_cases hik : i = k
    · subst hik
      exact List.getElem?_set_self hlt
    · rw [List.getElem?_set_ne (Ne.symm hik)]
      exact hbefore i (by omega)
  obtain ⟨us, t, hrun, w', ht, hclean⟩ := Eff.forEach_upTo hturn ⟨w, h, fun i hi => absurd hi (Nat.not_lt_zero i)⟩
  rw [Nat.zero_add] at hclean
  rw [List.range_eq_range']
  exact ⟨us, t, w', hrun, ht, hclean⟩

/-- A clean page is not written. -/
theorem flush_clean (hcount : s.cachedPages = front) (hclean : ∀ i < front, s.dirty.val[i]? = some false) :
    FrontCachedPageStore.flush s = onInner PageStore.flush s := by
  subst hcount
  have hturn : ∀ i ∈ List.range s.cachedPages, ∀ t, t = s →
      ∃ u, FrontCachedPageStore.flushPage i t = (.ok (), u) ∧ u = s := by
    intro i hi t ht
    subst ht
    refine ⟨t, ?_, rfl⟩
    rw [FrontCachedPageStore.flushPage, Eff.get_bind, hclean i (List.mem_range.mp hi), if_neg (by simp)]
    rfl
  obtain ⟨t, hrun, rfl⟩ := Eff.forEach_map hturn rfl
  rw [FrontCachedPageStore.flush, Eff.get_bind, Eff.bind_ok hrun]

end

end Synced

/-! ## Every run -/

/-- A flush of the store below succeeds and leaves its pages. -/
def Flushes [PageStore S] (V : PageView S) : Prop :=
  ∀ n sz v s, V.Shows n sz v s → ∃ t, PageStore.flush s = (.ok (), t) ∧ V.Shows n sz v t

section
variable [PageStore S] {V : PageView S} {n sz front : Nat} {v w : Nat → Result Bytes} {s : FrontCachedPageStore S}

/-- After a flush all front pages are clean. -/
theorem Synced.flush (hV : Flushes V) (h : Synced V n sz front w v s) : ∃ t w',
    FrontCachedPageStore.flush s = (.ok (), t) ∧ Synced V n sz front w' v t ∧
      ∀ i < front, t.dirty.val[i]? = some false := by
  obtain ⟨us, t, w', hrun, ht, hclean⟩ := h.flushPages
  obtain ⟨u, hflush, hu⟩ := hV _ _ _ _ ht.fronts.inner
  refine ⟨{ t with inner := u }, w', ?_, ⟨ht.fronts.withInner hu, ht.cachedPages, ht.clean⟩, hclean⟩
  rw [FrontCachedPageStore.flush, Eff.get_bind, h.cachedPages, Eff.bind_ok hrun]
  exact Eff.zoom_of hflush

theorem sim_flush (hV : Flushes V) : Eff.Sim (Synced.Mirrors V n sz front) PageOp.flush.run (PageOp.plain n sz front .flush) := by
  intro s v hs
  obtain ⟨w, h⟩ := hs
  obtain ⟨t, w', hrun, ht, -⟩ := h.flush hV
  exact Synced.mirrors_of (Eff.bind_ok hrun) rfl ht

theorem sim_op (hV : Flushes V) (op : PageOp) : Eff.Sim (Synced.Mirrors V n sz front) op.run (op.plain n sz front) := by
  cases op with
  | readPage i len => exact Synced.sim_readPage i len
  | writePage i page => exact Synced.sim_writePage i page
  | readPages idxs => exact Synced.sim_readPages idxs
  | writePages idxs pages => exact Synced.sim_writePages idxs pages
  | flush => exact sim_flush hV

/-- A new cache has no dirty page. -/
theorem new_synced {inner : S} {cachedPages : Nat} (h : V.Shows n sz w inner) (hnew : new inner cachedPages = .ok s) :
    Synced V n sz cachedPages w w s := by
  have hfronts := new_shows h hnew
  have hcount : s.cachedPages = cachedPages := by
    obtain ⟨_, _, hlast⟩ := bind_result_ok hnew
    obtain ⟨pages, _, hlast⟩ := bind_result_ok hlast
    cases hlast
    rfl
  exact ⟨hfronts, hcount, fun i hi _ => hfronts.front i (hcount.symm ▸ hi)⟩

/-- Every run of calls on a new cache: the results are the array's, a page not marked dirty is
    the store's below, and a flush brings the store below to the array and leaves nothing to
    write for the next. -/
theorem transparent (hV : Flushes V) {inner : S} {cachedPages : Nat} (h : V.Shows n sz v inner)
    (hnew : new inner cachedPages = .ok s) (ops : List PageOp) :
    (calls ops s).1 = (plainCalls n sz cachedPages ops v).1 ∧
      (∃ w, V.Shows n sz w (calls ops s).2.inner ∧
        ∀ i < cachedPages, (calls ops s).2.dirty.val[i]? = some false → w i = .ok ((calls ops s).2.front i)) ∧
      ∃ t, PageStore.flush (calls ops s).2 = (.ok (), t) ∧
        (∃ w, V.Shows n sz w t.inner ∧ ∀ i < n, w i = (plainCalls n sz cachedPages ops v).2 i) ∧
        PageStore.flush t = onInner PageStore.flush t := by
  have hsim : Eff.Sim (Synced.Mirrors V n sz cachedPages) (calls ops) (plainCalls n sz cachedPages ops) :=
    .forEach fun op _ => (sim_op hV op).attempt
  obtain ⟨hresults, w, hend⟩ := hsim s v ⟨v, new_synced h hnew⟩
  refine ⟨hresults, ⟨w, hend.fronts.inner, hend.clean⟩, ?_⟩
  obtain ⟨t, w', hflush, ht, hclean⟩ := hend.flush hV
  refine ⟨t, hflush, ⟨w', ht.fronts.inner, fun i hi => ?_⟩, Synced.flush_clean ht.cachedPages hclean⟩
  by_cases hfront : i < cachedPages
  · rw [ht.clean i hfront (hclean i hfront)]
    exact (ht.fronts.front i (ht.cachedPages.symm ▸ hfront)).symm
  · exact (ht.fronts.tail i hi (by rw [ht.cachedPages]; omega)).symm

end

/-! ### A small cache -/

theorem memory_flushes : Flushes MemPageStore.honest.view := fun _ _ _ s h => ⟨s, rfl, h⟩

/-- Two pages of one byte, the first of them cached. -/
def smallFront : FrontCachedPageStore MemPageStore := (new (zeroPages 2 1 Nat.one_pos) 1).toOption.get (by decide +kernel)

/-- A refused bulk write changes a cached page that comes before the refused one and no other
    page, where the store itself changes any: a plain array changes both pages or neither. -/
theorem refused_writes :
    (calls [.writePages [0, 2] [[7], [7]], .readPage 0 1] smallFront).1
        = .ok [.error (.invalidInput "page_idx 2 out of range 2"), .ok [[7]]] ∧
      (calls [.writePages [1, 2] [[7], [7]], .readPage 1 1] smallFront).1
        = .ok [.error (.invalidInput "page_idx 2 out of range 2"), .ok [[0]]] ∧
      (calls [.writePages [1, 2] [[7], [7]], .readPage 1 1] (zeroPages 2 1 Nat.one_pos)).1
        = .ok [.error (.invalidInput "page_idx 2 out of range 2"), .ok [[7]]] := by decide +kernel

theorem transparent_small :
    (calls [.writePages [1, 0] [[7], [8]], .flush, .readPages [0, 1]] smallFront).1 = .ok [.ok [], .ok [], .ok [[8], [7]]] ∧
      ∃ t, PageStore.flush (calls [.writePages [1, 0] [[7], [8]]] smallFront).2 = (.ok (), t) ∧
        PageStore.flush t = onInner PageStore.flush t := by
  have hnew : new (zeroPages 2 1 Nat.one_pos) 1 = .ok smallFront := toOption_get _
  have hshows : MemPageStore.honest.view.Shows 2 1 _ (zeroPages 2 1 Nat.one_pos) :=
    ⟨_, zeroPages_holds 2 1 Nat.one_pos, fun _ _ => rfl⟩
  obtain ⟨hresults, -, -⟩ := transparent memory_flushes hshows hnew [.writePages [1, 0] [[7], [8]], .flush, .readPages [0, 1]]
  obtain ⟨-, -, t, hflush, -, hagain⟩ := transparent memory_flushes hshows hnew [.writePages [1, 0] [[7], [8]]]
  exact ⟨hresults.trans (by rfl), t, hflush, hagain⟩

end FrontCachedPageStore
end BpirOram
