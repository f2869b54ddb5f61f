/-
  BpirOram.Pages.Cached — `FrontCachedPageStore` of `store.rs`: the first pages of a store
  held in memory and written back by `flush`.

  Calls on several pages are split between the cached front and the store below; what the
  store below returns is put back at the places it was asked for. The sizes of the front are
  exact: over a store whose pages fit 64 bits none of them wraps.
  - `FrontCachedPageStore.view`: over a store that shows its pages, the cache shows the front
    pages it holds and the others of the store below.
-/

import BpirOram.Lib.Runs
import BpirOram.Pages.View

namespace BpirOram

open Lib

structure FrontCachedPageStore (S : Type) where
  inner : S
  cachedPages : Nat
  pageSize : Nat
  cached : FixedBytes (cachedPages * pageSize)
  dirty : { flags : List Bool // flags.length = cachedPages }

namespace FrontCachedPageStore

variable {S : Type}

/-! ## The source -/

section
variable [PageStore S]

/-- `cached_pages > page_count`. -/
def checkCachedPages (inner : S) (cachedPages : Nat) : Result Unit :=
  if cachedPages > PageStore.pageCount inner then
    .error (.invalidInput s!"cached_pages {cachedPages} > page_count {PageStore.pageCount inner}")
  else .ok ()

def ofCached (inner : S) (cachedPages pageSize : Nat) (cached : FixedBytes (cachedPages * pageSize)) :
    FrontCachedPageStore S :=
  { inner, cachedPages, pageSize, cached, dirty := ⟨List.replicate cachedPages false, List.length_replicate⟩ }

def new (inner : S) (cachedPages : Nat) : Result (FrontCachedPageStore S) := do
  checkCachedPages inner cachedPages
  let pageSize := PageStore.pageSize inner
  let read := Eff.forEach (fun pageIdx => PageStore.readPage pageIdx pageSize) (List.range cachedPages) inner
  let pages ← read.1
  .ok (ofCached read.2 cachedPages pageSize (.ofSlice _ pages.flatten 0))

def newZeroed (inner : S) (cachedPages : Nat) : Result (FrontCachedPageStore S) := do
  checkCachedPages inner cachedPages
  .ok (ofCached inner cachedPages (PageStore.pageSize inner) (.zero _))

def pageCount (s : FrontCachedPageStore S) : Nat := PageStore.pageCount s.inner

/-- A cached page. -/
def front (s : FrontCachedPageStore S) (pageIdx : Nat) : Bytes := pageAt s.pageSize s.cached.val pageIdx

/-- A cached page replaced and marked dirty. Outside the front, or with a page of another
    length, the slicing panics, which the checks before it rule out. -/
def setFront (s : FrontCachedPageStore S) (pageIdx : Nat) (input : Bytes) : FrontCachedPageStore S :=
  if h : pageIdx < s.cachedPages ∧ input.length = s.pageSize then
    { s with
      cached := ⟨splice s.cached.val (pageIdx * s.pageSize) input, by
        rw [splice_length (by rw [h.2, s.cached.property]; exact page_le _ h.1), s.cached.property]⟩
      dirty := ⟨s.dirty.val.set pageIdx true, by rw [List.length_set, s.dirty.property]⟩ }
  else s

def setClean (s : FrontCachedPageStore S) (pageIdx : Nat) : FrontCachedPageStore S :=
  { s with dirty := ⟨s.dirty.val.set pageIdx false, by rw [List.length_set, s.dirty.property]⟩ }

def onInner {α : Type} (m : Eff Error S α) : Eff Error (FrontCachedPageStore S) α :=
  Eff.zoom FrontCachedPageStore.inner (fun inner s => { s with inner }) m

/-- `check_page`. -/
def checkPage (s : FrontCachedPageStore S) (pageIdx len : Nat) : Result Unit :=
  if pageIdx ≥ s.pageCount then .error (.invalidInput s!"page_idx {pageIdx} out of range {s.pageCount}")
  else if len ≠ s.pageSize then .error (.invalidInput s!"page buffer len {len} != page_size {s.pageSize}")
  else .ok ()

def readPage (pageIdx len : Nat) : Eff Error (FrontCachedPageStore S) Bytes := do
  let s ← Eff.get
  Eff.lift (s.checkPage pageIdx len)
  if pageIdx < s.cachedPages then pure (s.front pageIdx) else onInner (PageStore.readPage pageIdx len)

def writePage (pageIdx : Nat) (input : Bytes) : Eff Error (FrontCachedPageStore S) Unit := do
  let s ← Eff.get
  Eff.lift (s.checkPage pageIdx input.length)
  if pageIdx < s.cachedPages then Eff.modify fun s => s.setFront pageIdx input
  else onInner (PageStore.writePage pageIdx input)

def checkRange (s : FrontCachedPageStore S) : List Nat → Result Unit
  | [] => .ok ()
  | pageIdx :: pageIndices =>
    if pageIdx ≥ s.pageCount then .error (.invalidInput s!"page_idx {pageIdx} out of range {s.pageCount}")
    else s.checkRange pageIndices

def readPages (pageIndices : List Nat) : Eff Error (FrontCachedPageStore S) (List Bytes) := do
  let s ← Eff.get
  Eff.lift (s.checkRange pageIndices)
  let pages := pageIndices.map fun pageIdx =>
    if pageIdx < s.cachedPages then s.front pageIdx else List.replicate s.pageSize 0
  -- the others, each with the place it was asked for at
  let tail := pageIndices.zipIdx.filter fun item => ¬ item.1 < s.cachedPages
  if tail = [] then pure pages
  else do
    let innerPages ← onInner (PageStore.readPages (tail.map (·.1)))
    pure (((tail.map (·.2)).zip innerPages).foldl (fun pages w => pages.set w.1 w.2) pages)

/-- One turn of the loop of `write_pages`: a cached page is written, another is left over. -/
def stageWrite (w : Nat × Bytes) : Eff Error (FrontCachedPageStore S) (List (Nat × Bytes)) := do
  let s ← Eff.get
  if w.1 ≥ s.pageCount then Eff.fail (.invalidInput s!"page_idx {w.1} out of range {s.pageCount}")
  else if w.2.length ≠ s.pageSize then
    Eff.fail (.invalidInput s!"page len {w.2.length} != page_size {s.pageSize}")
  else if w.1 < s.cachedPages then do
    Eff.modify fun s => s.setFront w.1 w.2
    pure []
  else pure [w]

def writePages (pageIndices : List Nat) (pages : List Bytes) : Eff Error (FrontCachedPageStore S) Unit :=
  if pageIndices.length ≠ pages.length then
    Eff.fail (.invalidInput s!"page index count {pageIndices.length} != page count {pages.length}")
  else do
    let staged ← Eff.forEach stageWrite (pageIndices.zip pages)
    let tail := staged.flatten
    if tail = [] then pure () else onInner (PageStore.writePages (tail.map (·.1)) (tail.map (·.2)))

/-- One turn of the loop of `flush`. -/
def flushPage (pageIdx : Nat) : Eff Error (FrontCachedPageStore S) Unit := do
  let s ← Eff.get
  if s.dirty.val[pageIdx]? = some true then do
    onInner (PageStore.writePage pageIdx (s.front pageIdx))
    Eff.modify fun s => s.setClean pageIdx
  else pure ()

def flush : Eff Error (FrontCachedPageStore S) Unit := do
  let s ← Eff.get
  let _ ← Eff.forEach flushPage (List.range s.cachedPages)
  onInner PageStore.flush

instance : PageStore (FrontCachedPageStore S) where
  pageSize := FrontCachedPageStore.pageSize
  pageCount := FrontCachedPageStore.pageCount
  readPage := readPage
  writePage := writePage
  readPages := readPages
  writePages := writePages
  flush := flush

/-! ## What the cache shows -/

/-- The store below shows `w`; the cache shows its own front pages and `w` behind them. -/
structure Fronts (V : PageView S) (n sz : Nat) (w v : Nat → Result Bytes) (s : FrontCachedPageStore S) : Prop where
  inner : V.Shows n sz w s.inner
  pageSize : s.pageSize = sz
  cachedPages : s.cachedPages ≤ n
  front : ∀ i < s.cachedPages, v i = .ok (s.front i)
  tail : ∀ i < n, s.cachedPages ≤ i → v i = w i

variable {V : PageView S} {n sz : Nat} {v w : Nat → Result Bytes} {s : FrontCachedPageStore S}

/-- The cache has the page size of the store below, and no more pages than that. -/
def WellSized (s : FrontCachedPageStore S) : Prop :=
  s.pageSize = PageStore.pageSize s.inner ∧ s.cachedPages ≤ PageStore.pageCount s.inner

omit [PageStore S] in
/-- The front pages, and `w` behind them. -/
def page (s : FrontCachedPageStore S) (w : Nat → Result Bytes) (i : Nat) : Result Bytes :=
  if i < s.cachedPages then .ok (s.front i) else w i

omit [PageStore S] in
theorem page_congr (s : FrontCachedPageStore S) {w w' : Nat → Result Bytes} {i : Nat} (h : w i = w' i) :
    s.page w i = s.page w' i := by
  rw [page, page, h]

omit [PageStore S] in
theorem front_length (s : FrontCachedPageStore S) {i : Nat} (hi : i < s.cachedPages) : (s.front i).length = s.pageSize :=
  pageAt_length s.cached.property hi

namespace Fronts

theorem pageCount (h : Fronts V n sz w v s) : s.pageCount = n := V.pageCount_eq h.inner

theorem checkPage_ok (h : Fronts V n sz w v s) {i : Nat} (hi : i < n) : s.checkPage i sz = .ok () := by
  rw [checkPage, if_neg (by rw [h.pageCount]; omega), if_neg (not_not_intro h.pageSize.symm)]

theorem checkRange_ok (h : Fronts V n sz w v s) {idxs : List Nat} (hi : ∀ i ∈ idxs, i < n) : s.checkRange idxs = .ok () := by
  induction idxs with
  | nil => rfl
  | cons i idxs ih =>
    have hlt := hi i List.mem_cons_self
    rw [checkRange, if_neg (by rw [h.pageCount]; omega)]
    exact ih fun j hj => hi j (List.mem_cons_of_mem _ hj)

theorem withInner (h : Fronts V n sz w v s) {t : S} (ht : V.Shows n sz w t) : Fronts V n sz w v { s with inner := t } :=
  ⟨ht, h.pageSize, h.cachedPages, h.front, h.tail⟩

/-! ## One page -/

theorem readPage (h : Fronts V n sz w v s) {i : Nat} (hi : i < n) :
    ∃ t, FrontCachedPageStore.readPage i sz s = (v i, t) ∧ Fronts V n sz w v t := by
  rw [FrontCachedPageStore.readPage, Eff.get_bind, h.checkPage_ok hi, Eff.lift_ok_bind]
  by_cases hcached : i < s.cachedPages
  · rw [if_pos hcached, h.front i hcached]
    exact ⟨s, rfl, h⟩
  · obtain ⟨t, hrun, ht⟩ := V.readPage h.inner hi
    rw [if_neg hcached, h.tail i hi (by omega)]
    exact ⟨_, Eff.zoom_of hrun, h.withInner ht⟩

/-- A page of the front is replaced. -/
theorem setFront (h : Fronts V n sz w v s) {i : Nat} {page : Bytes} (hi : i < s.cachedPages) (hl : page.length = sz) :
    Fronts V n sz w (Function.update v i (.ok page)) (s.setFront i page) ∧ (s.setFront i page).cachedPages = s.cachedPages := by
  have hl' : page.length = s.pageSize := hl.trans h.pageSize.symm
  have hset : s.setFront i page = { s with
      cached := ⟨splice s.cached.val (i * s.pageSize) page, by
        rw [splice_length (by rw [hl', s.cached.property]; exact page_le _ hi), s.cached.property]⟩
      dirty := ⟨s.dirty.val.set i true, by rw [List.length_set, s.dirty.property]⟩ } := dif_pos ⟨hi, hl'⟩
  rw [hset]
  refine ⟨⟨h.inner, h.pageSize, h.cachedPages, fun j hj => ?_, fun j hj hle => ?_⟩, rfl⟩
  · show _ = Except.ok (pageAt s.pageSize (splice s.cached.val (i * s.pageSize) page) j)
    rw [pageAt_splice s.cached.property hi hl']
    by_cases hji : j = i
    · subst hji
      rw [Function.update_self, Function.update_self]
    · rw [Function.update_of_ne hji, Function.update_of_ne hji]
      exact h.front j hj
  · have hne : j ≠ i := Nat.ne_of_gt (Nat.lt_of_lt_of_le hi hle)
    rw [Function.update_of_ne hne]
    exact h.tail j hj hle

theorem writePage (h : Fronts V n sz w v s) {i : Nat} {page : Bytes} (hi : i < n) (hl : page.length = sz) :
    ∃ t w', FrontCachedPageStore.writePage i page s = (.ok (), t) ∧
      Fronts V n sz w' (Function.update v i (.ok page)) t ∧ ∀ j < s.cachedPages, w' j = w j := by
  rw [FrontCachedPageStore.writePage, Eff.get_bind, hl, h.checkPage_ok hi, Eff.lift_ok_bind]
  by_cases hcached : i < s.cachedPages
  · rw [if_pos hcached]
    exact ⟨_, w, rfl, (h.setFront hcached hl).1, fun _ _ => rfl⟩
  · obtain ⟨t, hrun, ht⟩ := V.writePage h.inner hi hl
    have hne : ∀ j < s.cachedPages, j ≠ i := fun j hj he => hcached (he ▸ hj)
    rw [if_neg hcached]
    refine ⟨_, _, Eff.zoom_of hrun, ⟨ht, h.pageSize, h.cachedPages, fun j hj => ?_, fun j hj hle => ?_⟩, fun j hj => ?_⟩
    · rw [Function.update_of_ne (hne j hj)]
      exact h.front j hj
    · exact overwrite_map id (h.tail j hj hle) [(i, .ok page)]
    · exact Function.update_of_ne (hne j hj) _ _

/-! ## Several pages -/

omit [PageStore S] in
theorem filter_ok (p : Nat → Bool) (writes : List (Nat × Bytes)) :
    (writes.filter fun x => p x.1).map (Prod.map id (Except.ok (ε := Error)))
      = (writes.map (Prod.map id .ok)).filter fun x => p x.1 := by
  rw [List.filter_map]
  rfl

/-- Whether all pages can be read depends on those behind the front alone. -/
theorem readAll_tail (h : Fronts V n sz w v s) {idxs : List Nat} (hi : ∀ i ∈ idxs, i < n) :
    (∀ e, readAll w (idxs.filter fun i => ¬ i < s.cachedPages) = .error e → readAll v idxs = .error e) ∧
    (∀ pages, readAll w (idxs.filter fun i => ¬ i < s.cachedPages) = .ok pages → ∀ i ∈ idxs, ∃ page, v i
      = .ok page) := by
  induction idxs with
  | nil =>
    refine ⟨fun e he => ?_, fun pages _ i hi => absurd hi List.not_mem_nil⟩
    cases he
  | cons i idxs ih =>
    obtain ⟨ihError, ihOk⟩ := ih fun j hj => hi j (List.mem_cons_of_mem _ hj)
    by_cases hcached : i < s.cachedPages
    · have hfilter : (i :: idxs).filter (fun i => ¬ i < s.cachedPages) = idxs.filter fun i => ¬ i < s.cachedPages :=
        List.filter_cons_of_neg (by simpa using hcached)
      rw [hfilter]
      refine ⟨fun e he => ?_, fun pages hpages j hj => ?_⟩
      · rw [readAll, h.front i hcached, ihError e he]
        rfl
      · rcases List.mem_cons.mp hj with rfl | hj
        · exact ⟨_, h.front j hcached⟩
        · exact ihOk pages hpages j hj
    · have hfilter : (i :: idxs).filter (fun i => ¬ i < s.cachedPages) = i :: idxs.filter fun i => ¬ i < s.cachedPages :=
        List.filter_cons_of_pos (by simpa using hcached)
      have hv : v i = w i := h.tail i (hi i List.mem_cons_self) (by omega)
      rw [hfilter, readAll, readAll, hv]
      cases hw : w i with
      | error e =>
        refine ⟨fun e' he => he, fun pages hpages => ?_⟩
        cases hpages
      | ok page =>
        refine ⟨fun e he => ?_, fun pages hpages j hj => ?_⟩
        · cases hrest : readAll w (idxs.filter fun i => ¬ i < s.cachedPages) with
          | error e' =>
            rw [hrest] at he
            rw [ihError e' hrest]
            exact he
          | ok rest =>
            rw [hrest] at he
            cases he
        · obtain ⟨rest, hrest⟩ : ∃ rest, readAll w (idxs.filter fun i => ¬ i < s.cachedPages) = .ok rest := by
            obtain ⟨first, hfirst, hpages⟩ := bind_result_ok hpages
            obtain ⟨rest, hrest, -⟩ := bind_result_ok hpages
            exact ⟨rest, hrest⟩
          rcases List.mem_cons.mp hj with rfl | hj
          · exact ⟨page, hv.trans hw⟩
          · exact ihOk rest hrest j hj

omit [PageStore S] in
/-- The pages behind the front are put back at the places they were asked for. -/
theorem merge_pages {idxs : List Nat} {c : Nat → Bytes} (hfront : ∀ i < s.cachedPages, s.front i = c i) :
    (((idxs.zipIdx.filter fun item => ¬ item.1 < s.cachedPages).map fun item => (item.2, c item.1)).foldl
      (fun pages w => pages.set w.1 w.2)
      (idxs.map fun i => if i < s.cachedPages then s.front i else List.replicate s.pageSize 0)) = idxs.map c := by
  refine scatter_eq_map (fun item hitem => ?_) (List.length_map _) fun i k hk hnot => ?_
  · exact List.mem_zipIdx_iff_getElem?.mp (List.mem_filter.mp hitem).1
  · have hcached : i < s.cachedPages := by
      by_contra hbehind
      exact hnot (List.mem_filter.mpr ⟨List.mem_zipIdx_iff_getElem?.mpr hk, decide_eq_true hbehind⟩)
    rw [List.getElem?_map, hk, Option.map_some, if_pos hcached, hfront i hcached]

theorem readPages (h : Fronts V n sz w v s) {idxs : List Nat} (hi : ∀ i ∈ idxs, i < n) :
    ∃ t, FrontCachedPageStore.readPages idxs s = (readAll v idxs, t) ∧ Fronts V n sz w v t := by
  obtain ⟨htailError, htailOk⟩ := h.readAll_tail hi
  have htailIdxs : (idxs.zipIdx.filter fun item => ¬ item.1 < s.cachedPages).map (·.1)
      = idxs.filter fun i => ¬ i < s.cachedPages := by
    conv_rhs => rw [← List.zipIdx_map_fst 0 idxs, List.filter_map]
    rfl
  have hmerge : ∀ pages, readAll w (idxs.filter fun i => ¬ i < s.cachedPages) = .ok pages →
      readAll v idxs = .ok (((idxs.zipIdx.filter fun item => ¬ item.1 < s.cachedPages).map (·.2)).zip pages |>.foldl
        (fun pages w => pages.set w.1 w.2)
        (idxs.map fun i => if i < s.cachedPages then s.front i else List.replicate s.pageSize 0)) := by
    intro pages hpages
    let c : Nat → Bytes := fun i => (v i).toOption.getD []
    have hc : ∀ i ∈ idxs, v i = .ok (c i) := by
      intro i hmem
      obtain ⟨page, hpage⟩ := htailOk pages hpages i hmem
      show v i = .ok ((v i).toOption.getD [])
      rw [hpage]
      rfl
    have hinner : ∀ i ∈ idxs.filter (fun i => ¬ i < s.cachedPages), w i = .ok (c i) := by
      intro i hmem
      obtain ⟨hmem, hbehind⟩ := List.mem_filter.mp hmem
      rw [← h.tail i (hi i hmem) (Nat.not_lt.mp (of_decide_eq_true hbehind)), hc i hmem]
    have hfront : ∀ i < s.cachedPages, s.front i = c i := by
      intro i hcached
      show s.front i = (v i).toOption.getD []
      rw [h.front i hcached]
      rfl
    rw [readAll_ok hinner] at hpages
    cases hpages
    rw [← htailIdxs, List.map_map, List.zip_map', readAll_ok hc]
    exact congrArg Except.ok (merge_pages hfront).symm
  rw [FrontCachedPageStore.readPages, Eff.get_bind, h.checkRange_ok hi, Eff.lift_ok_bind]
  by_cases hempty : idxs.zipIdx.filter (fun item => ¬ item.1 < s.cachedPages) = []
  · refine ⟨s, ?_, h⟩
    have hnone : readAll w (idxs.filter fun i => ¬ i < s.cachedPages) = .ok [] := by
      rw [← htailIdxs, hempty]
      rfl
    rw [hmerge [] hnone, if_pos hempty, hempty]
    rfl
  · have hinnerLt : ∀ i ∈ idxs.filter (fun i => ¬ i < s.cachedPages),
      i < n := fun i hmem => hi i (List.mem_filter.mp hmem).1
    obtain ⟨t, hrun, ht⟩ := V.readPages h.inner hinnerLt
    refine ⟨{ s with inner := t }, ?_, h.withInner ht⟩
    rw [if_neg hempty, htailIdxs]
    cases hread : readAll w (idxs.filter fun i => ¬ i < s.cachedPages) with
    | error e =>
      rw [hread] at hrun
      rw [htailError e hread]
      exact Eff.bind_error (Eff.zoom_of hrun)
    | ok pages =>
      rw [hread] at hrun
      rw [hmerge pages hread]
      exact Eff.bind_ok (Eff.zoom_of hrun)

/-- The loop of `write_pages`: the front is written, the rest is left over. -/
theorem stageWrites (h : Fronts V n sz w v s) {writes : List (Nat × Bytes)}
    (hw : ∀ x ∈ writes, x.1 < n ∧ x.2.length = sz) :
    ∃ staged t, Eff.forEach stageWrite writes s = (.ok staged, t) ∧
      staged.flatten = writes.filter (fun x => ¬ x.1 < s.cachedPages) ∧ t.cachedPages = s.cachedPages ∧
      Fronts V n sz w (overwrite v ((writes.filter fun x => x.1 < s.cachedPages).map (Prod.map id .ok))) t := by
  induction writes generalizing s v with
  | nil => exact ⟨[], s, rfl, rfl, rfl, h⟩
  | cons x writes ih =>
    have hrest : ∀ y ∈ writes, y.1 < n ∧ y.2.length = sz := fun y hy => hw y (List.mem_cons_of_mem _ hy)
    obtain ⟨hlt, hl⟩ := hw x List.mem_cons_self
    have hturn : stageWrite x s = (if x.1 < s.cachedPages then do
        Eff.modify fun s => s.setFront x.1 x.2
        pure []
      else pure [x] : Eff Error (FrontCachedPageStore S) (List (Nat × Bytes))) s := by
      rw [stageWrite, Eff.get_bind, if_neg (by rw [h.pageCount]; omega),
        if_neg (not_not_intro (hl.trans h.pageSize.symm))]
    by_cases hcached : x.1 < s.cachedPages
    · obtain ⟨hfront, hsize⟩ := h.setFront hcached hl
      obtain ⟨staged, t, hrun, hflat, hcount, ht⟩ := ih hfront hrest
      rw [hsize] at hflat hcount ht
      have hone : stageWrite x s = (.ok [], s.setFront x.1 x.2) := by
        rw [hturn, if_pos hcached]
        rfl
      refine ⟨[] :: staged, t, Eff.forEach_ok hone hrun, ?_, hcount, ?_⟩
      · rw [List.flatten_cons, List.nil_append, hflat, List.filter_cons_of_neg (by simpa using hcached)]
      · rw [List.filter_cons_of_pos (by simpa using hcached), List.map_cons, overwrite_cons]
        exact ht
    · obtain ⟨staged, t, hrun, hflat, hcount, ht⟩ := ih h hrest
      have hone : stageWrite x s = (.ok [x], s) := by
        rw [hturn, if_neg hcached]
        rfl
      refine ⟨[x] :: staged, t, Eff.forEach_ok hone hrun, ?_, hcount, ?_⟩
      · rw [List.flatten_cons, hflat, List.filter_cons_of_pos (by simpa using hcached), List.singleton_append]
      · rwa [List.filter_cons_of_neg (by simpa using hcached)]

theorem writePages (h : Fronts V n sz w v s) {idxs : List Nat} {pages : List Bytes} (hi : ∀ i ∈ idxs, i < n)
    (hlen : idxs.length = pages.length) (hl : ∀ page ∈ pages, page.length = sz) :
    ∃ t w', FrontCachedPageStore.writePages idxs pages s = (.ok (), t) ∧
      Fronts V n sz w' (overwrite v (idxs.zip (pages.map .ok))) t ∧ ∀ i < s.cachedPages, w' i = w i := by
  have hwrites : ∀ x ∈ idxs.zip pages, x.1 < n ∧ x.2.length = sz := by
    intro x hx
    exact ⟨hi x.1 (List.of_mem_zip hx).1, hl x.2 (List.of_mem_zip hx).2⟩
  obtain ⟨staged, t, hrun, hflat, hcount, ht⟩ := h.stageWrites hwrites
  rw [FrontCachedPageStore.writePages, if_neg (not_not_intro hlen), Eff.bind_ok hrun, hflat, List.zip_map_right]
  let tail := (idxs.zip pages).filter fun x => ¬ x.1 < s.cachedPages
  let w' := overwrite w (tail.map (Prod.map id .ok))
  have hfrontPages : ∀ i < s.cachedPages, w' i = w i := by
    intro i hi
    refine (overwrite_cases w _ i).resolve_right fun hx => ?_
    obtain ⟨y, hy, he⟩ := List.mem_map.mp hx
    have hbehind := of_decide_eq_true (List.mem_filter.mp hy).2
    exact hbehind (show y.1 < s.cachedPages from congrArg Prod.fst he ▸ hi)
  -- the front shows what the loop wrote, the rest what the store below is given
  have hshows : ∀ u, V.Shows n sz w' u →
      Fronts V n sz w' (overwrite v ((idxs.zip pages).map (Prod.map id .ok))) { t with inner := u } := by
    intro u hu
    refine ⟨hu, ht.pageSize, ht.cachedPages, fun i hcached => ?_, fun i hi hbehind => ?_⟩
    · have hfront := ht.front i hcached
      rw [filter_ok fun i => i < s.cachedPages, overwrite_filter v fun x _ hx => ?_] at hfront
      · exact hfront
      · rw [hcount] at hcached
        exact decide_eq_true (hx ▸ hcached)
    · have hbehind' : s.cachedPages ≤ i := hcount ▸ hbehind
      show _ = overwrite w (((idxs.zip pages).filter fun x => ¬ x.1 < s.cachedPages).map (Prod.map id .ok)) i
      rw [filter_ok fun i => ¬ i < s.cachedPages, overwrite_filter w fun x _ hx => ?_]
      · have hsame := overwrite_map id (h.tail i hi hbehind') ((idxs.zip pages).map (Prod.map id .ok))
        rwa [Prod.map_id, List.map_id] at hsame
      · exact decide_eq_true (Nat.not_lt.mpr (hx ▸ hbehind'))
  by_cases hempty : (idxs.zip pages).filter (fun x => ¬ x.1 < s.cachedPages) = []
  · rw [if_pos hempty]
    refine ⟨t, w', rfl, hshows t.inner ?_, hfrontPages⟩
    show V.Shows n sz (overwrite w (((idxs.zip pages).filter fun x => ¬ x.1 < s.cachedPages).map (Prod.map id .ok))) _
    rw [hempty]
    exact ht.inner
  · rw [if_neg hempty]
    have hlt : ∀ i ∈ tail.map (·.1), i < n := by
      intro i hmem
      obtain ⟨x, hx, rfl⟩ := List.mem_map.mp hmem
      exact (hwrites x (List.mem_filter.mp hx).1).1
    have hsizes : ∀ page ∈ tail.map (·.2), page.length = sz := by
      intro page hmem
      obtain ⟨x, hx, rfl⟩ := List.mem_map.mp hmem
      exact (hwrites x (List.mem_filter.mp hx).1).2
    obtain ⟨u, hwrite, hu⟩ := V.writePages ht.inner hlt (by rw [List.length_map, List.length_map]) hsizes
    rw [List.map_map, List.zip_map'] at hu
    exact ⟨_, w', Eff.zoom_of hwrite, hshows u hu, hfrontPages⟩

/-- A page shown is one of the front or one of the store below. -/
theorem page (h : Fronts V n sz w v s) {i : Nat} (hi : i < n) :
    (v i = .ok (s.front i) ∧ (s.front i).length = sz) ∨ v i = w i := by
  by_cases hcached : i < s.cachedPages
  · exact .inl ⟨h.front i hcached, (front_length s hcached).trans h.pageSize⟩
  · exact .inr (h.tail i hi (Nat.not_lt.mp hcached))

end Fronts

/-- A front cache over a store that shows its pages shows its pages. -/
def view (V : PageView S) : PageView (FrontCachedPageStore S) where
  Shows n sz v s := ∃ w, Fronts V n sz w v s
  pageCount_eq := by
    rintro n sz v s ⟨w, h⟩
    exact h.pageCount
  pageSize_eq := by
    rintro n sz v s ⟨w, h⟩
    exact h.pageSize
  page_length := by
    rintro n sz v s ⟨w, h⟩ i hi page hpage
    rcases h.page hi with ⟨hfront, hl⟩ | htail
    · rw [hfront] at hpage
      exact Except.ok.inj hpage ▸ hl
    · exact V.page_length h.inner i hi page (htail.symm.trans hpage)
  page_error := by
    rintro n sz v s ⟨w, h⟩ i hi e he
    rcases h.page hi with ⟨hfront, -⟩ | htail
    · rw [hfront] at he
      cases he
    · exact V.page_error h.inner i hi e (htail.symm.trans he)
  readPage := by
    rintro n sz v s i ⟨w, h⟩ hi
    obtain ⟨t, hrun, ht⟩ := h.readPage hi
    exact ⟨t, hrun, w, ht⟩
  writePage := by
    rintro n sz v s i page ⟨w, h⟩ hi hl
    obtain ⟨t, w', hrun, ht, -⟩ := h.writePage hi hl
    exact ⟨t, hrun, w', ht⟩
  readPages := by
    rintro n sz v s idxs ⟨w, h⟩ hi
    obtain ⟨t, hrun, ht⟩ := h.readPages hi
    exact ⟨t, hrun, w, ht⟩
  writePages := by
    rintro n sz v s idxs pages ⟨w, h⟩ hi hlen hl
    obtain ⟨t, w', hrun, ht, -⟩ := h.writePages hi hlen hl
    exact ⟨t, hrun, w', ht⟩

theorem shows_iff :
    (view V).Shows n sz v s ↔ ∃ w, V.Shows n sz w s.inner ∧ s.WellSized ∧ ∀ i < n, v i = s.page w i := by
  refine ⟨?_, ?_⟩
  · rintro ⟨w, h⟩
    refine ⟨w, h.inner, ⟨h.pageSize.trans (V.pageSize_eq h.inner).symm, ?_⟩, fun i hi => ?_⟩
    · rw [V.pageCount_eq h.inner]
      exact h.cachedPages
    · rw [page]
      by_cases hcached : i < s.cachedPages
      · rw [if_pos hcached, h.front i hcached]
      · rw [if_neg hcached, h.tail i hi (Nat.not_lt.mp hcached)]
  · rintro ⟨w, h, ⟨hsize, hcount⟩, hv⟩
    rw [V.pageCount_eq h] at hcount
    refine ⟨w, h, hsize.trans (V.pageSize_eq h), hcount, fun i hi => ?_, fun i hi hle => ?_⟩
    · rw [hv i (Nat.lt_of_lt_of_le hi hcount), page, if_pos hi]
    · rw [hv i hi, page, if_neg (Nat.not_lt.mpr hle)]

/-! ## New caches -/

theorem checkCachedPages_ok {inner : S} {cachedPages : Nat} (h : V.Shows n sz w inner)
    (hcheck : checkCachedPages inner cachedPages = .ok ()) : cachedPages ≤ n := by
  unfold checkCachedPages at hcheck
  split at hcheck
  · cases hcheck
  · have hcount := V.pageCount_eq h
    omega

/-- A new cache shows what the store below shows. -/
theorem new_shows {inner : S} {cachedPages : Nat} (h : V.Shows n sz w inner) (hnew : new inner cachedPages = .ok s) :
    Fronts V n sz w w s := by
  obtain ⟨_, hcheck, hnew⟩ := bind_result_ok hnew
  obtain ⟨pages, hpages, hlast⟩ := bind_result_ok hnew
  cases hlast
  have hle := checkCachedPages_ok h hcheck
  have hlt : ∀ i ∈ List.range cachedPages, i < n := fun i hi => Nat.lt_of_lt_of_le (List.mem_range.mp hi) hle
  have hsize := V.pageSize_eq h
  subst hsize
  obtain ⟨t, hrun, ht⟩ := V.readEach_shows h hlt
  have hread : Eff.forEach (fun pageIdx => PageStore.readPage pageIdx (PageStore.pageSize inner)) (List.range cachedPages) inner
      = (readAll w (List.range cachedPages), t) := hrun
  rw [hread] at hpages ⊢
  have hall := readAll_forall₂ hpages
  have hlen : pages.length = cachedPages := hall.length_eq.symm.trans List.length_range
  have hat : ∀ i (hi : i < pages.length), w i = .ok pages[i] := by
    intro i hi
    have hget := hall.get (by rw [List.length_range]; omega) hi
    rwa [List.get_eq_getElem, List.getElem_range] at hget
  have hsizes : ∀ page ∈ pages, page.length = PageStore.pageSize inner := by
    intro page hmem
    obtain ⟨i, hi, rfl⟩ := List.mem_iff_getElem.mp hmem
    exact V.page_length h i (by omega) _ (hat i hi)
  have hbytes : pages.flatten.length = cachedPages * PageStore.pageSize inner := by
    rw [length_flatten_of_lengths hsizes, hlen]
  have hcached : FixedBytes.ofSlice (cachedPages * PageStore.pageSize inner) pages.flatten 0 = ⟨pages.flatten, hbytes⟩ := by
    have hself := FixedBytes.ofSlice_append [] ⟨pages.flatten, hbytes⟩ []
    rwa [List.nil_append, List.append_nil] at hself
  refine ⟨ht, rfl, hle, fun i hi => ?_, fun i _ _ => rfl⟩
  have hi' : i < pages.length := hlen.symm ▸ hi
  show w i = .ok (pageAt (PageStore.pageSize inner)
    (FixedBytes.ofSlice (cachedPages * PageStore.pageSize inner) pages.flatten 0).val i)
  rw [hcached, pageAt_flatten hsizes (List.getElem?_eq_getElem hi'), hat i hi']

/-- A cache that read nothing shows zeros in front. -/
theorem newZeroed_shows {inner : S} {cachedPages : Nat} (h : V.Shows n sz w inner)
    (hnew : newZeroed inner cachedPages = .ok s) :
    Fronts V n sz w (fun i => if i < cachedPages then .ok (s.front i) else w i) s := by
  obtain ⟨_, hcheck, hlast⟩ := bind_result_ok hnew
  cases hlast
  refine ⟨h, V.pageSize_eq h, checkCachedPages_ok h hcheck, fun i hi => if_pos hi, fun i _ hle => ?_⟩
  exact if_neg (Nat.not_lt.mpr hle)

end

end FrontCachedPageStore
end BpirOram
