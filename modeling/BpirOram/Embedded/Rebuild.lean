/-
  BpirOram.Embedded.Rebuild — the embedded tree over a disk that keeps its pages.

  Over an atomic store the disk has the pages of the tree of the contents (`OnDisk`), and the
  store stands when the root in memory is that tree's (`Stands`).
  - `Stands.read`: a read returns the contents of its paths, unless the disk fails it or
    a path is refused.
  - `Stands.write`: a write that ends well stands for the new contents; any other leaves
    the disk as it was.
  - `Reached.rebuild`: in every run whose writes end well, building anew over pages with the
    contents of the store makes its root and its physical pages.
  - `Reached.write_builds`: so after a write, over the pages written over in the order given.
-/

import BpirOram.Embedded.Fresh
import BpirOram.Faults

namespace BpirOram

open Lib

/-! ## Pages of a tree, read and written -/

theorem batchIndices_valid {pageCount : Nat} {paths : List (List Nat)} (h : ∀ path ∈ paths, RootPath pageCount path)
    (start : Std.TreeSet Nat) : ∃ pageIndices, paths.foldlM (fun pageIndices path => do
      validatePath path pageCount
      .ok (path.foldl (·.insert ·) pageIndices)) start = (.ok pageIndices : Result (Std.TreeSet Nat)) := by
  induction paths generalizing start with
  | nil => exact ⟨start, rfl⟩
  | cons path paths ih =>
    obtain ⟨pageIndices, hrun⟩ := ih (fun q hq => h q (List.mem_cons_of_mem _ hq)) (path.foldl (·.insert ·) start)
    refine ⟨pageIndices, ?_⟩
    rw [List.foldlM_cons, validatePath_rootPath.mpr (h path List.mem_cons_self)]
    exact hrun

theorem decodePages_bytes {sz : Nat} {f : Nat → EmbeddedPage} {idxs : List Nat}
    (hsz : ∀ i ∈ idxs, (f i).logical.length = sz)
    (start : EmbeddedPages) : ∃ pages, (idxs.zip (idxs.map fun i => (f i).bytes)).foldlM (fun pages (pageIdx, physical) => do
      let page ← EmbeddedPage.decode physical sz
      .ok (pages.insert pageIdx page)) start = (.ok pages : Result EmbeddedPages) ∧
        (∀ i ∈ idxs, pages[i]? = some (f i)) ∧ ∀ i ∉ idxs, pages[i]? = start[i]? := by
  induction idxs generalizing start with
  | nil => exact ⟨start, rfl, by simp, fun _ _ => rfl⟩
  | cons j idxs ih =>
    obtain ⟨pages, hrun, hin, hout⟩ := ih (fun i hi => hsz i (List.mem_cons_of_mem _ hi)) (start.insert j (f j))
    refine ⟨pages, ?_, fun i hi => ?_, fun i hi => ?_⟩
    · rw [List.map_cons, List.zip_cons_cons, List.foldlM_cons]
      simp only [EmbeddedPage.decode_eq_ok.mpr ⟨hsz j List.mem_cons_self, rfl⟩]
      exact hrun
    · by_cases hmem : i ∈ idxs
      · exact hin i hmem
      · obtain rfl : i = j := (List.mem_cons.mp hi).resolve_right hmem
        rw [hout i hmem, Std.TreeMap.getElem?_insert_self]
    · rw [List.mem_cons, not_or] at hi
      rw [hout i hi.2, Std.TreeMap.getElem?_insert, if_neg (by simpa using Ne.symm hi.1)]

theorem TreeOverlay.On.encodeDirty {D written : List Nat} {f : Nat → EmbeddedPage} {r : Hash} {o : TreeOverlay}
    {l : EmbeddedLayout} (h : On D f r written o) (hsz : ∀ i ∈ D, (f i).logical.length = l.logicalPageSize) :
    o.encodeDirty l = .ok (o.dirtyPages.toList.map fun i => (f i).bytes) := by
  refine mapM_ok fun i hi => ?_
  have hD := h.dirty i (Std.TreeSet.mem_toList.mp hi)
  simp only [h.pages i hD]
  show (f i).encode l.physicalPageSize l.logicalPageSize = _
  rw [l.physicalPageSize_eq]
  exact EmbeddedPage.encode_eq_ok.mpr ⟨hsz i hD, rfl⟩

section
variable [Sha256] {storeId : FixedBytes 16} {n : Nat} {c : Nat → Bytes}

/-- The turns of a batch leave the pages off its paths. -/
theorem treePage_turns {l : EmbeddedLayout} {turns : List (List Nat × List Bytes)}
    (ha : ∀ w ∈ turns, TreeOverlay.Accepts l w.1 w.2) {i : Nat} (hi : ∀ w ∈ turns, i ∉ w.1) :
    treePage l.storeId l.pageCount c i = treePage l.storeId l.pageCount (overwrite c (TreeOverlay.turnWrites turns)) i := by
  induction turns generalizing c with
  | nil => rfl
  | cons w turns ih =>
    rw [TreeOverlay.turnWrites_cons,
      ← ih (fun x hx => ha x (List.mem_cons_of_mem _ hx)) fun x hx => hi x (List.mem_cons_of_mem _ hx)]
    refine treePage_off (ha w List.mem_cons_self).path (fun j hj => ?_) (hi w List.mem_cons_self)
    rcases overwrite_cases c (w.1.zip w.2) j with hold | hwritten
    · exact hold.symm
    · exact absurd (List.of_mem_zip hwritten).1 hj

omit [Sha256] in
/-- The bytes of a page are old or were given to a turn. -/
theorem turnWrites_length {l : EmbeddedLayout} {turns : List (List Nat × List Bytes)}
    (ha : ∀ w ∈ turns, TreeOverlay.Accepts l w.1 w.2) {i : Nat} (hi : (c i).length = l.logicalPageSize) :
    (overwrite c (TreeOverlay.turnWrites turns) i).length = l.logicalPageSize := by
  rcases overwrite_cases c (TreeOverlay.turnWrites turns) i with hold | hwritten
  · rw [hold]
    exact hi
  · obtain ⟨writes, hwrites, hmem⟩ := List.mem_flatten.mp hwritten
    obtain ⟨w, hw, rfl⟩ := List.mem_map.mp hwrites
    exact (ha w hw).pages _ (List.of_mem_zip hmem).2

end

namespace EmbeddedTreePageStore

section
variable {S : Type} [PageStore S] [Sha256]

omit [PageStore S] [Sha256] in
theorem onInner_run {α : Type} {m : Eff Error S α} {s : EmbeddedTreePageStore S} {r : Result α} {inner : S}
    (h : m s.inner = (r, inner)) :
    onInner m s = (r, { s with inner }) := Eff.zoom_of h

/-- The disk has the pages of the tree of `c`. -/
def OnDisk (A : AtomicStore S) (l : EmbeddedLayout) (c : Nat → Bytes) (inner : S) : Prop :=
  ∃ d, A.Holds l.pageCount l.physicalPageSize d inner ∧ ∀ i < l.pageCount, d i = (treePage l.storeId l.pageCount c i).bytes

structure Stands (A : AtomicStore S) (c : Nat → Bytes) (s : EmbeddedTreePageStore S) : Prop extends Rooted c s where
  disk : OnDisk A s.toEmbeddedLayout c s.inner

variable {A : AtomicStore S} {c : Nat → Bytes} {s t : EmbeddedTreePageStore S} {paths : List (List Nat)} {l : EmbeddedLayout}

theorem OnDisk.length {inner : S} (h : OnDisk A l c inner) {i : Nat} (hi : i < l.pageCount) :
    (c i).length = l.logicalPageSize := by
  obtain ⟨d, hd, hpage⟩ := h
  have hlen := A.page_length hd i hi
  rw [hpage i hi, EmbeddedPage.bytes_length, l.physicalPageSize_eq] at hlen
  exact Nat.add_right_cancel hlen

/-! ## Reading -/

/-- How the reading of some pages ends, up to their authentication. -/
inductive Fetched (A : AtomicStore S) (c : Nat → Bytes) (paths : List (List Nat)) (s : EmbeddedTreePageStore S) :
    Result EmbeddedPages × EmbeddedTreePageStore S → Prop
  | refused {e} : ¬ (∀ path ∈ paths, RootPath s.pageCount path) → Fetched A c paths s (.error e, s)
  | failed {e inner} : (∀ path ∈ paths, RootPath s.pageCount path) → A.Fails e → OnDisk A s.toEmbeddedLayout c inner →
      Fetched A c paths s (.error e, { s with inner })
  | pages {pages : EmbeddedPages} {inner} : (∀ path ∈ paths, RootPath s.pageCount path) →
      OnDisk A s.toEmbeddedLayout c inner →
      (∀ i ∈ paths.flatten, pages[i]? = some (treePage s.storeId s.pageCount c i)) →
      (∀ (i : Nat) (page : EmbeddedPage), pages[i]? = some page → page = treePage s.storeId s.pageCount c i) →
      Fetched A c paths s ((verifyPaths s.storeId pages s.rootHash paths).map fun _ => pages, { s with inner })

theorem OnDisk.fetched (h : OnDisk A s.toEmbeddedLayout c s.inner) (hne : paths ≠ []) :
    Fetched A c paths s (readVerifiedPaths paths s) := by
  unfold readVerifiedPaths
  rw [if_neg (by simpa using hne), Eff.get_bind]
  by_cases hvalid : ∀ path ∈ paths, RootPath s.pageCount path
  · obtain ⟨pageIndices, hrun⟩ := batchIndices_valid hvalid ∅
    obtain ⟨-, hmem⟩ := batchIndices_ok hrun
    have hmem : ∀ i, i ∈ pageIndices ↔ i ∈ paths.flatten :=
      fun i => (hmem i).trans (or_iff_right Std.TreeSet.not_mem_emptyc)
    have hlt : ∀ i ∈ pageIndices.toList, i < s.pageCount := fun i hi =>
      RootPath.flatten_lt hvalid i ((hmem i).mp (Std.TreeSet.mem_toList.mp hi))
    rw [show batchIndices s.pageCount paths = .ok pageIndices from hrun, Eff.lift_ok_bind]
    obtain ⟨d, hd, hpage⟩ := id h
    have hread := A.readPages hd hlt
    rcases hout : PageStore.readPages pageIndices.toList s.inner with ⟨e | physical, inner⟩ <;> rw [hout] at hread
    · cases hread with
      | failed he hd' =>
        rw [Eff.bind_error (onInner_run hout)]
        exact .failed hvalid (.inl he) ⟨d, hd', hpage⟩
    · cases hread with
      | ok hd' =>
        have hlengths : ∀ i ∈ pageIndices.toList, (treePage s.storeId s.pageCount c i).logical.length = s.logicalPageSize :=
          fun i hi => h.length (hlt i hi)
        obtain ⟨pages, hdecode, hin, hnone⟩ := decodePages_bytes hlengths ∅
        rw [Eff.bind_ok (onInner_run hout), List.map_congr_left fun i hi => hpage i (hlt i hi),
          show decodePages s.logicalPageSize (pageIndices.toList.zip (pageIndices.toList.map fun i =>
            (treePage s.storeId s.pageCount c i).bytes)) = .ok pages from hdecode, Eff.lift_ok_bind]
        have hdisk : OnDisk A s.toEmbeddedLayout c inner := ⟨d, hd', hpage⟩
        have hstep := Fetched.pages hvalid hdisk
          (fun i hi => hin i (Std.TreeSet.mem_toList.mpr ((hmem i).mpr hi))) fun i page hi => by
            by_cases hidx : i ∈ pageIndices.toList
            · rw [hin i hidx] at hi
              cases hi
              rfl
            · rw [hnone i hidx] at hi
              simp at hi
        cases hverify : verifyPaths s.storeId pages s.rootHash paths with
        | error e =>
          rw [hverify] at hstep
          exact hstep
        | ok u =>
          rw [hverify] at hstep
          exact hstep
  · rcases hrun : batchIndices s.pageCount paths with e | pageIndices
    · exact .refused hvalid
    · exact absurd (batchIndices_ok hrun).1 hvalid

omit [PageStore S] in
/-- The tree's own pages are authenticated from its root. -/
theorem Rooted.verifyPaths (h : Rooted c s) {pages : EmbeddedPages} (hvalid : ∀ path ∈ paths, RootPath s.pageCount path)
    (hin : ∀ i ∈ paths.flatten, pages[i]? = some (treePage s.storeId s.pageCount c i)) :
    verifyPaths s.storeId pages s.rootHash paths = .ok () := by
  refine verifyPaths_iff.mpr fun path hpath => ?_
  have hp := hvalid path hpath
  rw [h.root]
  exact verifyPathFromPages_tree hp.chain hp.lt (fun i hi => hin i (List.mem_flatten.mpr ⟨path, hpath, hi⟩)) hp.head

/-- A call that did nothing but read the disk, and failed. -/
def Declined (A : AtomicStore S) (c : Nat → Bytes) (paths : List (List Nat)) (s : EmbeddedTreePageStore S) (e : Error)
    (inner : S) : Prop :=
  OnDisk A s.toEmbeddedLayout c inner ∧ (A.Fails e ∨ ¬ ∀ path ∈ paths, RootPath s.pageCount path)

/-- The pages of the tree on the paths. -/
structure TreePages (c : Nat → Bytes) (paths : List (List Nat)) (l : EmbeddedLayout) (pages : EmbeddedPages) : Prop where
  valid : ∀ path ∈ paths, RootPath l.pageCount path
  on : ∀ i ∈ paths.flatten, pages[i]? = some (treePage l.storeId l.pageCount c i)
  page : ∀ (i : Nat) (page : EmbeddedPage), pages[i]? = some page → page = treePage l.storeId l.pageCount c i

theorem Stands.fetch (h : Stands A c s) (paths : List (List Nat)) :
    (∃ e inner, readVerifiedPaths paths s = (.error e, { s with inner }) ∧ Declined A c paths s e inner) ∨
      ∃ pages inner, readVerifiedPaths paths s = (.ok pages, { s with inner }) ∧ OnDisk A s.toEmbeddedLayout c inner ∧
        TreePages c paths s.toEmbeddedLayout pages := by
  by_cases hne : paths = []
  · subst hne
    exact .inr ⟨∅, s.inner, rfl, h.disk, by simp, by simp, by simp⟩
  · have hfetch := h.disk.fetched hne
    generalize readVerifiedPaths paths s = r at hfetch ⊢
    cases hfetch with
    | refused hvalid => exact .inl ⟨_, s.inner, rfl, h.disk, .inr hvalid⟩
    | failed hvalid he hdisk => exact .inl ⟨_, _, rfl, hdisk, .inl he⟩
    | pages hvalid hdisk hin hpage =>
      rw [h.verifyPaths hvalid hin]
      exact .inr ⟨_, _, rfl, hdisk, hvalid, hin, hpage⟩

/-- A read returns the contents, or the disk failed it or a path is not of the tree. -/
theorem Stands.read (h : Stands A c s) (paths : List (List Nat)) :
    (∃ t, readPaths paths s = (.ok (paths.map (·.map c)), t) ∧ Stands A c t ∧ t.toEmbeddedLayout = s.toEmbeddedLayout) ∨
      ∃ e inner, readPaths paths s = (.error e, { s with inner }) ∧ Declined A c paths s e inner := by
  rcases h.fetch paths with ⟨e, inner, hrun, hdeclined⟩ | ⟨pages, inner, hrun, hdisk, hpages⟩
  · exact .inr ⟨e, inner, Eff.bind_error hrun, hdeclined⟩
  · refine .inl ⟨{ s with inner, verifiedBatchCache := some { rootHash := s.rootHash, pages } }, ?_,
      ⟨⟨h.root, ?_⟩, hdisk⟩, rfl⟩
    · unfold readPaths
      rw [Eff.bind_ok hrun, logicalPaths_ok fun i hi => ⟨_, hpages.on i hi, rfl⟩]
      rfl
    · rintro cache ⟨⟩
      exact hpages.page

/-! ## Writing -/

theorem Stands.take (h : Stands A c s) (paths : List (List Nat)) :
    (∃ e inner, takePages paths s = (.error e, { s with inner, verifiedBatchCache := none }) ∧
      Declined A c paths s e inner) ∨
      ∃ pages inner, takePages paths s = (.ok pages, { s with inner, verifiedBatchCache := none }) ∧
        OnDisk A s.toEmbeddedLayout c inner ∧
        ∀ i ∈ paths.flatten, pages[i]? = some (treePage s.storeId s.pageCount c i) := by
  have hcold : (∃ e inner, readVerifiedPaths paths { s with verifiedBatchCache := none }
        = (.error e, { s with inner, verifiedBatchCache := none }) ∧ Declined A c paths s e inner) ∨
      ∃ pages inner, readVerifiedPaths paths { s with verifiedBatchCache := none }
          = (.ok pages, { s with inner, verifiedBatchCache := none }) ∧
        OnDisk A s.toEmbeddedLayout c inner ∧
        ∀ i ∈ paths.flatten, pages[i]? = some (treePage s.storeId s.pageCount c i) := by
    have hnone : Stands A c { s with verifiedBatchCache := none } := ⟨⟨h.root, fun cache hc => by cases hc⟩, h.disk⟩
    rcases hnone.fetch paths with ⟨e, inner, hrun, hdeclined⟩ | ⟨pages, inner, hrun, hdisk, hpages⟩
    · exact .inl ⟨e, inner, hrun, hdeclined⟩
    · exact .inr ⟨pages, inner, hrun, hdisk, hpages.on⟩
  unfold takePages
  rw [Eff.get_bind, Eff.modify_bind]
  cases hcache : s.verifiedBatchCache with
  | none => exact hcold
  | some cache =>
    simp only
    split
    · rename_i hwarm
      refine .inr ⟨cache.pages, s.inner, rfl, h.disk, fun i hi => ?_⟩
      obtain ⟨page, hpage⟩ := cacheCoversPaths_iff.mp hwarm.2 i hi
      rw [hpage, h.cache cache hcache i page hpage]
    · exact hcold

/-- How a write ends: done, declined before it began or stopped with the root of some turns
    and the disk as it was. -/
inductive Wrote (A : AtomicStore S) (c : Nat → Bytes) (paths : List (List Nat)) (logical : List (List Bytes))
    (s : EmbeddedTreePageStore S) : Result Unit × EmbeddedTreePageStore S → Prop
  | done {u} : (∀ w ∈ paths.zip logical, TreeOverlay.Accepts s.toEmbeddedLayout w.1 w.2) →
      Stands A (overwrite c (TreeOverlay.turnWrites (paths.zip logical))) u → u.toEmbeddedLayout = s.toEmbeddedLayout →
      Wrote A c paths logical s (.ok (), u)
  | declined {e u} : paths.length ≠ logical.length ∨ A.Fails e ∨ (¬ ∀ path ∈ paths, RootPath s.pageCount path) →
      Stands A c u → u.toEmbeddedLayout = s.toEmbeddedLayout → turnsDone paths logical s = [] →
      Wrote A c paths logical s (.error e, u)
  | stopped {e inner} : A.Fails e ∨ (¬ ∀ w ∈ paths.zip logical, TreeOverlay.Accepts s.toEmbeddedLayout w.1 w.2) →
      OnDisk A s.toEmbeddedLayout c inner → Wrote A c paths logical s (.error e, { s with
        inner, verifiedBatchCache := none
        rootHash := treeHash s.storeId s.pageCount (overwrite c (TreeOverlay.turnWrites (turnsDone paths logical s))) 0 })

/-- The new pages of a tree over the old ones make the new tree's disk. -/
theorem OnDisk.write {c' : Nat → Bytes} {inner : S} (h : OnDisk A l c inner) {dirty : List Nat}
    (hlt : ∀ i ∈ dirty, i < l.pageCount) (hlen : ∀ i ∈ dirty, (c' i).length = l.logicalPageSize)
    (hoff : ∀ i, i ∉ dirty → treePage l.storeId l.pageCount c i = treePage l.storeId l.pageCount c' i) :
    (∃ inner', PageStore.writePages dirty (dirty.map fun i => (treePage l.storeId l.pageCount c' i).bytes) inner
        = (.ok (), inner') ∧ OnDisk A l c' inner') ∨
      ∃ e inner', PageStore.writePages dirty (dirty.map fun i => (treePage l.storeId l.pageCount c' i).bytes) inner
        = (.error e, inner') ∧ A.Fails e ∧ OnDisk A l c inner' := by
  obtain ⟨d, hd, hpage⟩ := id h
  have hbytes : ∀ page ∈ dirty.map fun i => (treePage l.storeId l.pageCount c' i).bytes,
    page.length = l.physicalPageSize := by
    intro page hpage
    obtain ⟨i, hi, rfl⟩ := List.mem_map.mp hpage
    rw [EmbeddedPage.bytes_length, l.physicalPageSize_eq]
    exact congrArg (· + embeddedTreeAuthBytesPerPage) (hlen i hi)
  have hwrite := A.writePages hd hlt (List.length_map _).symm hbytes
  rw [overwrite_zip] at hwrite
  generalize PageStore.writePages dirty _ inner = r at hwrite ⊢
  cases hwrite with
  | failed he hd' => exact .inr ⟨_, _, rfl, .inr he, d, hd', hpage⟩
  | ok hd' =>
    refine .inl ⟨_, rfl, _, hd', fun i hi => ?_⟩
    by_cases hmem : i ∈ dirty
    · simp only [if_pos hmem]
    · simp only [if_neg hmem]
      rw [hpage i hi, hoff i hmem]

omit [PageStore S] [Sha256] in
theorem accepts_paths {logical : List (List Bytes)} (hlen : paths.length = logical.length)
    (ha : ∀ w ∈ paths.zip logical, TreeOverlay.Accepts l w.1 w.2) : ∀ path ∈ paths, RootPath l.pageCount path := by
  intro path hpath
  obtain ⟨k, hk, rfl⟩ := List.getElem_of_mem hpath
  have hzip : k < (paths.zip logical).length := by rw [List.length_zip]; omega
  have hacc := (ha _ (List.getElem_mem hzip)).path
  rwa [List.getElem_zip] at hacc

theorem Stands.write (h : Stands A c s) (paths : List (List Nat)) (logical : List (List Bytes)) :
    Wrote A c paths logical s (writePaths paths logical s) := by
  by_cases hlen : paths.length = logical.length
  swap
  · have hrun : writePaths paths logical s
        = (.error (.invalidInput s!"path count {paths.length} != logical path count {logical.length}"), s) := by
      unfold writePaths
      rw [if_pos hlen]
      rfl
    rw [hrun]
    exact .declined (.inl hlen) h rfl (by unfold turnsDone; rw [if_neg fun h => hlen h.1])
  by_cases hne : paths = []
  · subst hne
    have hrun : writePaths [] logical s = (.ok (), s) := by
      unfold writePaths
      rw [if_neg (not_not_intro hlen)]
      rfl
    rw [hrun]
    exact .done (by simp) h rfl
  rcases h.take paths with ⟨e, inner, htake, hdisk, he⟩ | ⟨pages, inner, htake, hdisk, hon⟩
  · have hrun : writePaths paths logical s = (.error e, { s with inner, verifiedBatchCache := none }) := by
      unfold writePaths
      rw [if_neg (not_not_intro hlen), if_neg (by simpa using hne), Eff.get_bind, Eff.bind_error htake]
    rw [hrun]
    refine .declined (.inr he) ⟨⟨h.root, fun cache hc => by cases hc⟩, hdisk⟩ rfl ?_
    unfold turnsDone
    rw [htake, if_neg fun h => Bool.false_ne_true h.2]
  have hstart : TreeOverlay.On paths.flatten (treePage s.storeId s.pageCount c) (treeHash s.storeId s.pageCount c 0) []
      { pages, dirtyPages := ∅, rootHash := s.rootHash } := h.root ▸ TreeOverlay.on_start hon
  have hdone : turnsDone paths logical s = (paths.zip logical).takeWhile (TreeOverlay.accepts s.toEmbeddedLayout) := by
    unfold turnsDone
    rw [htake, if_pos ⟨hlen, rfl⟩]
  have hover := onOverlay_run pages (Eff.forEach (fun w => TreeOverlay.writePath s.toEmbeddedLayout w.1 w.2) (paths.zip logical))
    { s with inner, verifiedBatchCache := none }
  have hwrites : writePaths paths logical s = (onOverlay pages
      (Eff.forEach (fun w => TreeOverlay.writePath s.toEmbeddedLayout w.1 w.2) (paths.zip logical)) >>= fun x =>
        Eff.lift (x.2.encodeDirty s.toEmbeddedLayout) >>= fun physical =>
          onInner (PageStore.writePages x.2.dirtyPages.toList physical)) { s with inner, verifiedBatchCache := none } := by
    unfold writePaths
    rw [if_neg (not_not_intro hlen), if_neg (by simpa using hne), Eff.get_bind, Eff.bind_ok htake]
  rcases hloop : Eff.forEach (fun w => TreeOverlay.writePath s.toEmbeddedLayout w.1 w.2) (paths.zip logical)
    { pages, dirtyPages := ∅, rootHash := s.rootHash } with ⟨e | us, o⟩ <;> rw [hloop] at hover
  · have hroot := TreeOverlay.writeEach_root (fun w hw i hi => mem_turn hw hi) hstart hloop
    rw [hwrites, Eff.bind_error hover]
    have hrefused : ¬ ∀ w ∈ paths.zip logical, TreeOverlay.Accepts s.toEmbeddedLayout w.1 w.2 := by
      intro ha
      obtain ⟨us, o', hrun, -⟩ := TreeOverlay.writeEach_ok ha (fun w hw i hi => mem_turn hw hi) hstart
      rw [hrun] at hloop
      cases hloop
    have hstop : Wrote A c paths logical s (.error e, _) := .stopped (.inr hrefused) hdisk
    rw [hdone, ← hroot] at hstop
    exact hstop
  · have ha := TreeOverlay.writeEach_accepts hloop
    obtain ⟨us', o', hrun, ho⟩ := TreeOverlay.writeEach_ok ha (fun w hw i hi => mem_turn hw hi) hstart
    rw [hrun] at hloop
    cases hloop
    have hall : turnsDone paths logical s = paths.zip logical := by
      rw [hdone, List.takeWhile_eq_self_iff]
      exact fun w hw => TreeOverlay.accepts_iff.mpr (ha w hw)
    have hlt : ∀ i ∈ paths.flatten, i < s.pageCount := RootPath.flatten_lt (accepts_paths hlen ha)
    have hsz : ∀ i ∈ paths.flatten, (overwrite c (TreeOverlay.turnWrites (paths.zip logical)) i).length = s.logicalPageSize :=
      fun i hi => turnWrites_length ha (hdisk.length (hlt i hi))
    have hdirty : ∀ i ∈ o.dirtyPages.toList, i ∈ paths.flatten := fun i hi => ho.dirty i (Std.TreeSet.mem_toList.mp hi)
    have hoff : ∀ i, i ∉ o.dirtyPages.toList → treePage s.storeId s.pageCount c i
        = treePage s.storeId s.pageCount (overwrite c (TreeOverlay.turnWrites (paths.zip logical))) i := by
      intro i hi
      refine treePage_turns ha fun w hw hiw => hi (Std.TreeSet.mem_toList.mpr (ho.written i ?_))
      exact List.mem_append_left _ (List.mem_flatten.mpr ⟨w.1, List.mem_map_of_mem hw, hiw⟩)
    rw [hwrites, Eff.bind_ok hover, ho.encodeDirty hsz, Eff.lift_ok_bind]
    rcases hdisk.write (fun i hi => hlt i (hdirty i hi)) (fun i hi => hsz i (hdirty i hi)) hoff with
      ⟨inner', hwrite, hdisk'⟩ | ⟨e, inner', hwrite, he, hdisk'⟩
    · rw [onInner_run hwrite]
      refine .done ha ⟨⟨ho.rootHash, fun cache hc => by cases hc⟩, hdisk'⟩ rfl
    · rw [onInner_run hwrite]
      have hstop : Wrote A c paths logical s (.error e, _) := .stopped (.inl he) hdisk'
      rw [hall, ← ho.rootHash] at hstop
      exact hstop

/-- Only the arguments or the disk fail a write. -/
theorem Stands.write_error (h : Stands A c s) (paths : List (List Nat)) (logical : List (List Bytes)) (e : Error)
    (hrun : (writePaths paths logical s).1 = .error e) : A.Fails e ∨ paths.length ≠ logical.length ∨
      ¬ ∀ w ∈ paths.zip logical, TreeOverlay.Accepts s.toEmbeddedLayout w.1 w.2 := by
  have hwrote := h.write paths logical
  generalize writePaths paths logical s = r at hrun hwrote
  cases hwrote with
  | done => cases hrun
  | declined he =>
    cases hrun
    rcases he with hlen | he | hvalid
    · exact .inr (.inl hlen)
    · exact .inl he
    · exact .inr (not_and_or.mp fun h => hvalid (accepts_paths h.1 h.2))
  | stopped he =>
    cases hrun
    exact he.imp_right .inr

theorem writePaths_length {logical : List (List Bytes)} (h : writePaths paths logical s = (.ok (), t)) :
    paths.length = logical.length := by
  unfold writePaths at h
  split at h
  · cases h
  · rename_i hlen
    exact not_not.mp hlen

/-! ## Building -/

omit [Sha256] in
theorem OnDisk.validate {d : Nat → Bytes} {m : S} (h : A.Holds l.pageCount l.physicalPageSize d m) :
    validateEmbeddedDimensions m l.storeId (PageStore.pageCount m) l.logicalPageSize = .ok l := by
  have hphysical : physicalPageSizeFor l.logicalPageSize = l.physicalPageSize := l.physicalPageSize_eq.symm
  have hpos := l.pageCount_pos
  have hsz := l.logicalPageSize_pos
  unfold validateEmbeddedDimensions
  rw [A.pageCount_eq h, A.pageSize_eq h]
  simp only [hphysical]
  rw [dif_neg (by omega), if_neg (by simp), if_neg (by simp)]

omit [PageStore S] [Sha256] in
/-- The page that physical bytes of the right length decode to. -/
def pageOf (logicalPageSize : Nat) (input : Bytes) : EmbeddedPage where
  logical := input.take logicalPageSize
  leftHash := FixedBytes.ofSlice 32 input logicalPageSize
  rightHash := FixedBytes.ofSlice 32 input (logicalPageSize + childHashBytes)

omit [Sha256] in
theorem loadPages_answer {d : Nat → Bytes} {m : S} (h : A.Holds l.pageCount l.physicalPageSize d m) :
    ∃ pages, pages.length = l.pageCount ∧ (∀ i < l.pageCount, contents pages i = (d i).take l.logicalPageSize) ∧
      Answer (A.Holds l.pageCount l.physicalPageSize) A.ReadFails d d pages (loadPages l m) := by
  refine ⟨(List.range l.pageCount).map fun i => pageOf l.logicalPageSize (d i), by simp, fun i hi => ?_,
    Answer.forEach (fun i hi s hs => ?_) h⟩
  · have hpage : ((List.range l.pageCount).map fun i => pageOf l.logicalPageSize (d i))[i]?
        = some (pageOf l.logicalPageSize (d i)) := by
      rw [List.getElem?_map, List.getElem?_range hi]
      rfl
    exact contents_of hpage
  · have hi := List.mem_range.mp hi
    refine (A.readPage hs hi).bind_lift (f := fun physical => EmbeddedPage.decode physical l.logicalPageSize) ?_
    unfold EmbeddedPage.decode
    rw [if_neg (by rw [A.page_length hs i hi, l.physicalPageSize_eq]; simp)]
    rfl

omit [Sha256] in
theorem storePages_each {d : Nat → Bytes} {m : S} {writes : List (EmbeddedPage × Nat)}
    (hw : ∀ w ∈ writes, w.2 < l.pageCount ∧ w.1.logical.length = l.logicalPageSize)
    (h : A.Holds l.pageCount l.physicalPageSize d m) :
    (∃ e m', Eff.forEach (fun (page, pageIdx) => do
      let physical ← Eff.lift (EmbeddedPage.encode page l.physicalPageSize l.logicalPageSize)
      PageStore.writePage pageIdx physical) writes m = (.error e, m') ∧ A.Fails e) ∨
    ∃ us m', Eff.forEach (fun (page, pageIdx) => do
      let physical ← Eff.lift (EmbeddedPage.encode page l.physicalPageSize l.logicalPageSize)
      PageStore.writePage pageIdx physical) writes m = (.ok us, m') ∧
        A.Holds l.pageCount l.physicalPageSize (overwrite d (writes.map fun w => (w.2, w.1.bytes))) m' := by
  induction writes generalizing d m with
  | nil => exact .inr ⟨[], m, rfl, h⟩
  | cons w writes ih =>
    obtain ⟨page, pageIdx⟩ := w
    obtain ⟨hlt, hsz⟩ := hw _ List.mem_cons_self
    have hbytes : page.bytes.length = l.physicalPageSize := by rw [EmbeddedPage.bytes_length, hsz, l.physicalPageSize_eq]
    have hwrite := A.writePage h hlt hbytes
    have hpage : (Eff.lift (page.encode l.physicalPageSize l.logicalPageSize) >>= fun physical =>
        PageStore.writePage pageIdx physical) m = PageStore.writePage pageIdx page.bytes m := by
      rw [l.physicalPageSize_eq, EmbeddedPage.encode_eq_ok.mpr ⟨hsz, rfl⟩, Eff.lift_ok_bind]
    generalize hrun : PageStore.writePage pageIdx page.bytes m = r at hwrite hpage
    cases hwrite with
    | failed he _ => exact .inl ⟨_, _, Eff.forEach_error_head hpage, .inr he⟩
    | ok ht =>
      rcases ih (fun x hx => hw x (List.mem_cons_of_mem _ hx)) ht with ⟨e, m', hrest, he⟩ | ⟨us, m', hrest, hm'⟩
      · exact .inl ⟨e, m', Eff.forEach_error_tail hpage hrest, he⟩
      · exact .inr ⟨() :: us, m', Eff.forEach_ok hpage hrest, hm'⟩

/-- A build over any pages stands for their logical bytes, unless the disk fails it. -/
theorem build_stands {d : Nat → Bytes} {m : S} (h : A.Holds l.pageCount l.physicalPageSize d m) :
    (∃ e, build m l.storeId l.logicalPageSize = .error e ∧ A.Fails e) ∨
      ∃ t, build m l.storeId l.logicalPageSize = .ok t ∧ t.toEmbeddedLayout = l ∧
        Stands A (fun i => (d i).take l.logicalPageSize) t := by
  obtain ⟨pages, hlen, hcontents, hload⟩ := loadPages_answer h
  have hbuilt := buildPages_built l.storeId pages
  rw [hlen] at hbuilt
  unfold build
  rw [OnDisk.validate h]
  simp only [bind, Except.bind]
  generalize loadPages l m = r at hload ⊢
  cases hload with
  | failed he _ => exact .inl ⟨_, rfl, .inl he⟩
  | @ok m₁ hm₁ =>
    simp only [hbuilt.pages_eq]
    have hwrites : ∀ w ∈ ((List.range l.pageCount).map (treePage l.storeId l.pageCount (contents pages))).zipIdx,
        w.2 < l.pageCount ∧ w.1.logical.length = l.logicalPageSize := by
      intro w hw
      obtain ⟨k, hk, rfl⟩ := List.getElem_of_mem hw
      have hk : k < l.pageCount := by simpa using hk
      rw [List.getElem_zipIdx]
      refine ⟨by simpa using hk, ?_⟩
      simp only [List.getElem_map, List.getElem_range, treePage, hcontents k hk, List.length_take, A.page_length h k hk]
      rw [l.physicalPageSize_eq, Nat.min_eq_left (Nat.le_add_right _ _)]
    rcases storePages_each hwrites hm₁ with ⟨e, m₂, hstore, he⟩ | ⟨us, m₂, hstore, hm₂⟩
    · rw [show storePages l ((List.range l.pageCount).map (treePage l.storeId l.pageCount (contents pages))) m₁
        = (.error e, m₂) from hstore]
      exact .inl ⟨e, rfl, he⟩
    · rw [show storePages l ((List.range l.pageCount).map (treePage l.storeId l.pageCount (contents pages))) m₁
        = (.ok us, m₂) from hstore]
      refine .inr ⟨_, rfl, rfl, ⟨⟨?_, fun cache hc => by cases hc⟩, _, hm₂, fun i hi => ?_⟩⟩
      · show (buildPages l.storeId pages).2.getD 0 noHash = _
        rw [List.getD_eq_getElem?_getD, hbuilt.hash 0 (Nat.le_refl 0) l.pageCount_pos]
        exact treeHash_congr hcontents 0
      · have hlist : (((List.range l.pageCount).map (treePage l.storeId l.pageCount (contents pages))).zipIdx.map
            fun w => (w.2, w.1.bytes)) = (List.range l.pageCount).zip ((List.range l.pageCount).map fun i =>
              (treePage l.storeId l.pageCount (contents pages) i).bytes) := by
          refine List.ext_getElem (by simp) fun k hk _ => ?_
          simp
        rw [hlist, overwrite_zip]
        simp only [List.mem_range, if_pos hi]
        rw [treePage_congr hcontents hi]

/-! ## Runs -/

/-- A run over an atomic disk whose writes end well, and the contents it has. -/
inductive Reached (A : AtomicStore S) : EmbeddedTreePageStore S → (Nat → Bytes) → Prop
  | build {m : S} {l : EmbeddedLayout} {d : Nat → Bytes} {s : EmbeddedTreePageStore S} :
      A.Holds l.pageCount l.physicalPageSize d m → build m l.storeId l.logicalPageSize = .ok s →
      Reached A s fun i => (d i).take l.logicalPageSize
  | read {s : EmbeddedTreePageStore S} {c : Nat → Bytes} (paths : List (List Nat)) :
      Reached A s c → Reached A (readPaths paths s).2 c
  | write {s t : EmbeddedTreePageStore S} {c : Nat → Bytes} (paths : List (List Nat)) (logical : List (List Bytes)) :
      Reached A s c → writePaths paths logical s = (.ok (), t) →
      Reached A t (overwrite c (TreeOverlay.turnWrites (paths.zip logical)))
  | reopen {s t : EmbeddedTreePageStore S} {c : Nat → Bytes} {inner : S} : Reached A s c →
      (∀ n sz d, A.Holds n sz d s.inner → A.Holds n sz d inner) → fromState inner s.state = .ok t → Reached A t c

omit [PageStore S] [Sha256] in
theorem EmbeddedLayout.ext_fields {l l' : EmbeddedLayout} (hid : l.storeId = l'.storeId) (hn : l.pageCount = l'.pageCount)
    (hsz : l.logicalPageSize = l'.logicalPageSize) : l = l' := by
  have hphysical : l.physicalPageSize = l'.physicalPageSize := by rw [l.physicalPageSize_eq, l'.physicalPageSize_eq, hsz]
  cases l
  cases l'
  cases hid
  cases hn
  cases hsz
  cases hphysical
  rfl

theorem Stands.after_read (h : Stands A c s) (paths : List (List Nat)) : Stands A c (readPaths paths s).2 := by
  rcases h.read paths with ⟨t, hrun, ht, -⟩ | ⟨e, inner, hrun, hdisk, -⟩
  · rw [hrun]
    exact ht
  · rw [hrun]
    exact ⟨h.toRooted.onDisk inner, hdisk⟩

theorem Stands.after_write (h : Stands A c s) {logical : List (List Bytes)} (hrun : writePaths paths logical s = (.ok (), t)) :
    Stands A (overwrite c (TreeOverlay.turnWrites (paths.zip logical))) t := by
  have hwrote := h.write paths logical
  rw [hrun] at hwrote
  cases hwrote with
  | done _ ht _ => exact ht

theorem Stands.reopened {inner : S} (h : Stands A c s) (hdisk : OnDisk A s.toEmbeddedLayout c inner)
    (hopen : fromState inner s.state = .ok t) : Stands A c t := by
  obtain ⟨l, hl, ht⟩ := bind_result_ok hopen
  obtain ⟨hid, hcount, hsz, -⟩ := validateEmbeddedDimensions_ok hl
  obtain rfl : l = s.toEmbeddedLayout := EmbeddedLayout.ext_fields hid hcount hsz
  cases ht
  exact ⟨⟨h.root, fun cache hc => by cases hc⟩, hdisk⟩

theorem Reached.stands (h : Reached A s c) : Stands A c s := by
  induction h with
  | build hm hbuild =>
    rcases build_stands hm with ⟨e, hrun, -⟩ | ⟨t, hrun, -, ht⟩
    · rw [hrun] at hbuild
      cases hbuild
    · rw [hrun] at hbuild
      cases hbuild
      exact ht
  | read paths _ ih => exact ih.after_read paths
  | write paths logical _ hrun ih => exact ih.after_write hrun
  | reopen _ hcopy hopen ih =>
    obtain ⟨d, hd, hpage⟩ := ih.disk
    exact ih.reopened ⟨d, hcopy _ _ _ hd, hpage⟩ hopen

/-- The store has the root and the physical pages of `t`. -/
def SameTree (A : AtomicStore S) (s t : EmbeddedTreePageStore S) : Prop :=
  s.toEmbeddedLayout = t.toEmbeddedLayout ∧ s.rootHash = t.rootHash ∧
    ∃ x y, A.Holds s.pageCount s.physicalPageSize x s.inner ∧ A.Holds s.pageCount s.physicalPageSize y t.inner ∧
      ∀ i < s.pageCount, x i = y i

theorem Stands.sameTree {c' : Nat → Bytes} (h : Stands A c s) (h' : Stands A c' t)
    (hl : s.toEmbeddedLayout = t.toEmbeddedLayout) (hc : ∀ i < s.pageCount, c i = c' i) : SameTree A s t := by
  obtain ⟨x, hx, hpx⟩ := h.disk
  obtain ⟨y, hy, hpy⟩ := h'.disk
  have hroot := h'.root
  rw [← hl] at hy hpy hroot
  refine ⟨hl, ?_, x, y, hx, hy, fun i hi => ?_⟩
  · rw [h.root, hroot]
    exact treeHash_congr hc 0
  · rw [hpx i hi, hpy i hi, treePage_congr hc hi]

/-- A build over any pages with the contents that a store stands for makes its tree. -/
theorem Stands.builds (h : Stands A c s) {m : S} {d : Nat → Bytes} (hm : A.Holds s.pageCount s.physicalPageSize d m)
    (hd : ∀ i < s.pageCount, (d i).take s.logicalPageSize = c i) :
    (∃ e, EmbeddedTreePageStore.build m s.storeId s.logicalPageSize = .error e ∧ A.Fails e) ∨
      ∃ t, EmbeddedTreePageStore.build m s.storeId s.logicalPageSize = .ok t ∧ SameTree A s t := by
  rcases build_stands hm with ⟨e, hrun, he⟩ | ⟨t, hrun, hl, ht⟩
  · exact .inl ⟨e, hrun, he⟩
  · exact .inr ⟨t, hrun, h.sameTree ht hl.symm fun i hi => (hd i hi).symm⟩

theorem Stands.reads (h : Stands A c s) (hvalid : ∀ path ∈ paths, RootPath s.pageCount path) :
    (readPaths paths s).1 = .ok (paths.map (·.map c)) ∨ ∃ e, (readPaths paths s).1 = .error e ∧ A.Fails e := by
  rcases h.read paths with ⟨t, hrun, -⟩ | ⟨e, inner, hrun, -, he⟩
  · exact .inl (by rw [hrun])
  · exact .inr ⟨e, by rw [hrun], he.resolve_right (not_not_intro hvalid)⟩

/-- A write that ends well ends in the same tree with no pages kept, unless the disk fails it. -/
theorem Stands.write_cold (h : Stands A c s) {logical : List (List Bytes)} (hwarm : writePaths paths logical s = (.ok (), t)) :
    (∃ e, (writePaths paths logical { s with verifiedBatchCache := none }).1 = .error e ∧ A.Fails e) ∨
      ∃ t', writePaths paths logical { s with verifiedBatchCache := none } = (.ok (), t') ∧ SameTree A t t' := by
  have hnone : Stands A c { s with verifiedBatchCache := none } := ⟨⟨h.root, fun cache hc => by cases hc⟩, h.disk⟩
  have hwarm' := h.write paths logical
  have hcold := hnone.write_error paths logical
  rw [hwarm] at hwarm'
  have hlen := writePaths_length hwarm
  cases hwarm' with
  | done ha ht hl =>
    rcases hrun : writePaths paths logical { s with verifiedBatchCache := none } with ⟨e | ⟨⟩, t'⟩
    · exact .inl ⟨e, rfl, (hcold e (by rw [hrun])).resolve_right (not_or_intro (not_not_intro hlen) (not_not_intro ha))⟩
    · have hcold' := hnone.write paths logical
      rw [hrun] at hcold'
      cases hcold' with
      | done _ ht' hl' => exact .inr ⟨t', rfl, ht.sameTree ht' (hl.trans hl'.symm) fun _ _ => rfl⟩

/-- Builds, reads and writes that end well, in any order: what the store has is what building
    over any pages with its contents makes, a read returns the contents, a write goes the same
    way whether or not pages were kept for it, and only its arguments or the disk fail it. -/
theorem Reached.rebuild (h : Reached A s c) :
    (∀ m d, A.Holds s.pageCount s.physicalPageSize d m → (∀ i < s.pageCount, (d i).take s.logicalPageSize = c i) →
      (∃ e, EmbeddedTreePageStore.build m s.storeId s.logicalPageSize = .error e ∧ A.Fails e) ∨
        ∃ t, EmbeddedTreePageStore.build m s.storeId s.logicalPageSize = .ok t ∧ SameTree A s t) ∧
    (∀ paths, (∀ path ∈ paths, RootPath s.pageCount path) → (readPaths paths s).1 = .ok (paths.map (·.map c)) ∨
      ∃ e, (readPaths paths s).1 = .error e ∧ A.Fails e) ∧
    (∀ paths logical t, writePaths paths logical s = (.ok (), t) →
      (∃ e, (writePaths paths logical { s with verifiedBatchCache := none }).1 = .error e ∧ A.Fails e) ∨
        ∃ t', writePaths paths logical { s with verifiedBatchCache := none } = (.ok (), t') ∧ SameTree A t t') ∧
    ∀ paths logical e, (writePaths paths logical s).1 = .error e → A.Fails e ∨ paths.length ≠ logical.length ∨
      ¬ ∀ w ∈ paths.zip logical, TreeOverlay.Accepts s.toEmbeddedLayout w.1 w.2 := by
  have hs := h.stands
  exact ⟨fun m d hm hd => hs.builds hm hd, fun paths hvalid => hs.reads hvalid,
    fun paths logical t hwarm => hs.write_cold hwarm, hs.write_error⟩

/-- The tree after a write is the one that building makes of the pages written over; whether its
    pages were kept or read again; and its paths can be read. -/
theorem Reached.write_builds (h : Reached A s c) {logical : List (List Bytes)} (hrun : writePaths paths logical s = (.ok (), t)) :
    (∀ m d, A.Holds t.pageCount t.physicalPageSize d m →
      (∀ i < t.pageCount, (d i).take t.logicalPageSize = overwrite c (TreeOverlay.turnWrites (paths.zip logical)) i) →
      (∃ e, EmbeddedTreePageStore.build m t.storeId t.logicalPageSize = .error e ∧ A.Fails e) ∨
        ∃ u, EmbeddedTreePageStore.build m t.storeId t.logicalPageSize = .ok u ∧ SameTree A t u) ∧
    ((∃ e, (writePaths paths logical { s with verifiedBatchCache := none }).1 = .error e ∧ A.Fails e) ∨
      ∃ t', writePaths paths logical { s with verifiedBatchCache := none } = (.ok (), t') ∧ SameTree A t t') ∧
    ∀ reads, (∀ path ∈ reads, RootPath t.pageCount path) →
      (readPaths reads t).1 = .ok (reads.map (·.map (overwrite c (TreeOverlay.turnWrites (paths.zip logical))))) ∨
        ∃ e, (readPaths reads t).1 = .error e ∧ A.Fails e :=
  have ht := (h.write paths logical hrun).stands
  ⟨fun _ _ hm hd => ht.builds hm hd, h.stands.write_cold hrun, fun _ hvalid => ht.reads hvalid⟩

end

section
local instance : Sha256 := smallSha256

/-- Pages with the bytes of the small tree after a write, behind them anything. -/
def smallTreeCopyPages : Bytes := [5, 6, 0].flatMap fun b => b :: List.replicate 64 9

theorem smallTreeCopyPages_pos : 0 < 65 := Nat.succ_pos 64

theorem smallTreeCopyPages_dvd : 65 ∣ smallTreeCopyPages.length := ⟨3, by decide +kernel⟩

def smallTreeCopy : MemPageStore where
  pageSize := 65
  pages := smallTreeCopyPages
  pageSize_pos := smallTreeCopyPages_pos
  pages_dvd := smallTreeCopyPages_dvd

/-- What the small tree starts from. -/
def smallTreeContents (i : Nat) : Bytes := (smallTreeDisk.page i).take smallTree.logicalPageSize

theorem smallTree_reached : Reached MemPageStore.honest.atomic smallTree smallTreeContents := by
  have hid : smallTree.storeId = FixedBytes.zero 16 ∧ smallTree.pageCount = 3 ∧ smallTree.logicalPageSize = 1 ∧
      smallTree.physicalPageSize = 65 := by decide +kernel
  refine .build (m := smallTreeDisk) (l := smallTree.toEmbeddedLayout) (d := smallTreeDisk.page) ?_ ?_
  · rw [hid.2.1, hid.2.2.2]
    exact zeroPages_holds 3 65 (Nat.succ_pos 64)
  · rw [hid.1, hid.2.2.1]
    exact toOption_get _

theorem Reached.rebuild_smallTree : ∃ t, EmbeddedTreePageStore.build smallTreeCopy (FixedBytes.zero 16) 1 = .ok t ∧
    SameTree MemPageStore.honest.atomic smallTreeWritten t := by
  have hid : smallTreeWritten.storeId = FixedBytes.zero 16 ∧ smallTreeWritten.pageCount = 3 ∧
      smallTreeWritten.logicalPageSize = 1 ∧ smallTreeWritten.physicalPageSize = 65 := by decide +kernel
  have hok : (writePaths [[0, 1]] [[[5], [6]]] smallTree).1 = .ok () := by decide +kernel
  have hwrite := smallTree_reached.write [[0, 1]] [[[5], [6]]] (Eff.run_eq hok)
  rw [← smallTreeWritten] at hwrite
  have hcopy : MemPageStore.honest.atomic.Holds smallTreeWritten.pageCount smallTreeWritten.physicalPageSize smallTreeCopy.page
      smallTreeCopy := by
    have hsize : smallTreeCopy.pageCount = 3 ∧ smallTreeCopy.pageSize = 65 := by decide +kernel
    have hself := smallTreeCopy.holds_self
    rw [hsize.1, hsize.2] at hself
    rw [hid.2.1, hid.2.2.2]
    exact hself
  rcases hwrite.rebuild.1 smallTreeCopy smallTreeCopy.page hcopy (by rw [hid.2.1, hid.2.2.1]; decide +kernel)
    with ⟨e, -, he⟩ | ht
  · exact he.elim False.elim False.elim
  · rwa [hid.1, hid.2.2.1] at ht

/-- The small tree with all its pages kept. -/
def smallTreeWarm : EmbeddedTreePageStore MemPageStore := (readPaths [[0, 1], [0, 2]] smallTree).2

/-- Two paths written with their pages kept, the root page last as the second has it. -/
theorem Reached.write_builds_smallTree :
    ∃ t t', writePaths [[0, 1], [0, 2]] [[[5], [6]], [[8], [7]]] smallTreeWarm = (.ok (), t) ∧
      writePaths [[0, 1], [0, 2]] [[[5], [6]], [[8], [7]]] { smallTreeWarm with verifiedBatchCache := none } = (.ok (), t') ∧
      SameTree MemPageStore.honest.atomic t t' ∧ (readPaths [[0, 2]] t).1 = .ok [[[8], [7]]] := by
  obtain ⟨t, hrun⟩ := Eff.run_of_result
    (show (writePaths [[0, 1], [0, 2]] [[[5], [6]], [[8], [7]]] smallTreeWarm).1 = .ok () by decide +kernel)
  have hwarm : Reached MemPageStore.honest.atomic smallTreeWarm smallTreeContents :=
    smallTree_reached.read [[0, 1], [0, 2]]
  obtain ⟨-, hcold, hreads⟩ := hwarm.write_builds hrun
  rcases hcold with ⟨e, -, he⟩ | ⟨t', hrun', hsame⟩
  · exact he.elim False.elim False.elim
  have hcount : t.pageCount = 3 := by
    have hall : (writePaths [[0, 1], [0, 2]] [[[5], [6]], [[8], [7]]] smallTreeWarm).2.pageCount = 3 := by decide +kernel
    rwa [hrun] at hall
  have hvalid : ∀ path ∈ [[0, 2]], RootPath t.pageCount path := by
    rw [hcount]
    intro path hpath
    obtain rfl := List.mem_singleton.mp hpath
    exact ⟨rfl, by decide, by decide⟩
  rcases hreads [[0, 2]] hvalid with hread | ⟨e, -, he⟩
  · exact ⟨t, t', hrun, hrun', hsame, hread.trans (congrArg Except.ok (by decide +kernel))⟩
  · exact he.elim False.elim False.elim

end
end EmbeddedTreePageStore
end BpirOram
