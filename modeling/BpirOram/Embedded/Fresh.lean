/-
  BpirOram.Embedded.Fresh — the embedded tree against a disk in an adversary's hands.

  Nothing is assumed of the inner store: its calls return what they like, and between the
  calls of the tree it may be exchanged for another. What keeps the tree is the root in
  memory (`Rooted`): it is the hash of the tree of the contents, and the pages of the cache
  are pages of that tree.
  - `Verified.sound`: the pages a read accepts are the tree's.
  - `readPaths_rooted`, `writePaths_rooted`: a read returns the contents; a write, also one
    that fails, leaves the root of the turns that were done.
  - `Run.fresh`: in every run of builds, reads, writes and reopenings, with the disk rewritten
    between any two calls, a read that succeeds returns the bytes last written, as long as no
    two of the messages hashed collide.
  - `Written.last_given`: where no write fails, these are the bytes last given to a write.
-/

import BpirOram.Embedded.Tree
import BpirOram.Circuit.Bucket
import BpirOram.Merkle.Beside
import Mathlib.Data.List.TakeWhile

namespace BpirOram

open Lib

/-! ## The pages of a batch -/

theorem batchIndices_ok {pageCount : Nat} {paths : List (List Nat)} {start pageIndices : Std.TreeSet Nat}
    (h : paths.foldlM (fun pageIndices path => do
      validatePath path pageCount
      .ok (path.foldl (·.insert ·) pageIndices)) start = (.ok pageIndices : Result (Std.TreeSet Nat))) :
    (∀ path ∈ paths, RootPath pageCount path) ∧ ∀ i, i ∈ pageIndices ↔ i ∈ start ∨ i ∈ paths.flatten := by
  induction paths generalizing start with
  | nil =>
    cases h
    simp
  | cons path paths ih =>
    rw [List.foldlM_cons] at h
    obtain ⟨start', hstep, h⟩ := bind_result_ok h
    obtain ⟨u, hvalid, hstart⟩ := bind_result_ok hstep
    cases hstart
    obtain ⟨hpaths, hmem⟩ := ih h
    have hinsert : ∀ (l : List Nat) (t : Std.TreeSet Nat) (i : Nat),
        i ∈ l.foldl (·.insert ·) t ↔ i ∈ t ∨ i ∈ l := by
      intro l
      induction l with
      | nil => simp
      | cons j l ih =>
        intro t i
        rw [List.foldl_cons, ih, Std.TreeSet.mem_insert, List.mem_cons]
        have : compare j i = .eq ↔ i = j := by rw [Nat.compare_eq_eq, eq_comm]
        tauto
    refine ⟨fun q hq => ?_, fun i => ?_⟩
    · rcases List.mem_cons.mp hq with rfl | hq
      · exact validatePath_rootPath.mp hvalid
      · exact hpaths q hq
    · rw [hmem, hinsert, List.flatten_cons, List.mem_append, or_assoc]

theorem decodePages_mem {sz : Nat} {physicalPages : List (Nat × Bytes)} {start pages : EmbeddedPages}
    (h : physicalPages.foldlM (fun pages (pageIdx, physical) => do
      let page ← EmbeddedPage.decode physical sz
      .ok (pages.insert pageIdx page)) start = (.ok pages : Result EmbeddedPages)) {i : Nat} {page : EmbeddedPage}
    (hi : pages[i]? = some page) : start[i]? = some page ∨ ∃ physical, (i, physical) ∈ physicalPages := by
  induction physicalPages generalizing start with
  | nil =>
    cases h
    exact .inl hi
  | cons w physicalPages ih =>
    rw [List.foldlM_cons] at h
    obtain ⟨start', hstep, h⟩ := bind_result_ok h
    obtain ⟨page', -, hstart⟩ := bind_result_ok hstep
    cases hstart
    rcases ih h with hstart | ⟨physical, hphysical⟩
    · rw [Std.TreeMap.getElem?_insert] at hstart
      split at hstart
      · rename_i heq
        obtain rfl : w.1 = i := by simpa using heq
        exact .inr ⟨w.2, List.mem_cons_self⟩
      · exact .inl hstart
    · exact .inr ⟨physical, List.mem_cons_of_mem _ hphysical⟩

theorem logicalPaths_ok {pages : EmbeddedPages} {paths : List (List Nat)} {c : Nat → Bytes}
    (h : ∀ i ∈ paths.flatten, ∃ page, pages[i]? = some page ∧ page.logical = c i) :
    logicalPaths pages paths = .ok (paths.map (·.map c)) := by
  refine mapM_ok fun path hpath => mapM_ok fun i hi => ?_
  obtain ⟨page, hpage, hlogical⟩ := h i (List.mem_flatten.mpr ⟨path, hpath, hi⟩)
  rw [hpage, ← hlogical]
  rfl

theorem verifyPaths_iff [Sha256] {storeId : FixedBytes 16} {pages : EmbeddedPages} {rootHash : Hash} {paths : List (List Nat)} :
    verifyPaths storeId pages rootHash paths = .ok () ↔
      ∀ path ∈ paths, verifyPathFromPages storeId pages path rootHash = .ok () := by
  induction paths with
  | nil => simp [verifyPaths]
  | cons path paths ih =>
    rw [verifyPaths, List.forall_mem_cons, ← ih]
    cases verifyPathFromPages storeId pages path rootHash with
    | error e => exact iff_of_false (fun h => by cases h) fun h => by cases h.1
    | ok u => exact (and_iff_right rfl).symm

theorem cacheCoversPaths_iff {pages : EmbeddedPages} {paths : List (List Nat)} : cacheCoversPaths pages paths = true ↔
    ∀ i ∈ paths.flatten, ∃ page, pages[i]? = some page := by
  unfold cacheCoversPaths
  rw [List.all_eq_true]
  simp only [Std.TreeMap.contains_eq_isSome_getElem?, Option.isSome_iff_exists]

theorem mem_turn {paths : List (List Nat)} {logical : List (List Bytes)} {w : List Nat × List Bytes}
    (hw : w ∈ paths.zip logical) {i : Nat} (hi : i ∈ w.1) :
    i ∈ paths.flatten :=
  List.mem_flatten.mpr ⟨w.1, (List.of_mem_zip hw).1, hi⟩

/-- The overlay a write starts from. -/
theorem TreeOverlay.on_start {pages : EmbeddedPages} {D : List Nat} {f : Nat → EmbeddedPage} {rootHash : Hash}
    (h : ∀ i ∈ D, pages[i]? = some (f i)) : TreeOverlay.On D f rootHash [] { pages, dirtyPages := ∅, rootHash } where
  pages := h
  rootHash := rfl
  written _ hi := absurd hi List.not_mem_nil
  dirty _ hi := absurd hi Std.TreeSet.not_mem_emptyc

namespace EmbeddedTreePageStore

section
variable {S : Type} [PageStore S] [Sha256]

/-! ## Reading -/

/-- What a read of the pages of some paths checked, whatever the disk returned. -/
structure Verified (s : EmbeddedTreePageStore S) (paths : List (List Nat)) (pages : EmbeddedPages) : Prop where
  path : ∀ path ∈ paths, RootPath s.pageCount path
  mem : ∀ (i : Nat) (page : EmbeddedPage), pages[i]? = some page → i ∈ paths.flatten
  verify : ∀ path ∈ paths, verifyPathFromPages s.storeId pages path s.rootHash = .ok ()

variable {s t : EmbeddedTreePageStore S} {paths : List (List Nat)}

/-- Only the disk is touched. -/
theorem readVerifiedPaths_inner (paths : List (List Nat)) (s : EmbeddedTreePageStore S) :
    ∃ inner, (readVerifiedPaths paths s).2 = { s with inner } := by
  have hkeeps : Eff.Keeps (fun t : EmbeddedTreePageStore S => ∃ inner, t = { s with inner }) (readVerifiedPaths paths) := by
    unfold readVerifiedPaths
    split
    · exact Eff.Keeps.pure _
    · have hread : ∀ idxs, Eff.Keeps (fun t : EmbeddedTreePageStore S => ∃ inner, t = { s with inner })
          (onInner (PageStore.readPages idxs)) := by
        rintro idxs t ⟨inner, rfl⟩
        exact ⟨_, rfl⟩
      exact Eff.Keeps.get_bind fun t ht => ((Eff.Keeps.lift _).bind fun indices => (hread _).bind fun physical =>
        (Eff.Keeps.lift _).bind fun pages => (Eff.Keeps.lift _).bind fun _ => Eff.Keeps.pure _) t ht
  exact hkeeps s ⟨s.inner, rfl⟩

theorem readVerifiedPaths_ok {pages : EmbeddedPages} (h : readVerifiedPaths paths s = (.ok pages, t)) :
    Verified s paths pages := by
  unfold readVerifiedPaths at h
  split at h
  · rename_i hempty
    cases h
    rw [List.isEmpty_iff] at hempty
    subst hempty
    exact ⟨by simp, by simp, by simp⟩
  · rw [Eff.get_bind] at h
    obtain ⟨indices, hindices, h⟩ := Eff.lift_bind_eq_ok h
    obtain ⟨physical, s₁, hread, h⟩ := Eff.bind_eq_ok h
    obtain ⟨pages', hdecode, h⟩ := Eff.lift_bind_eq_ok h
    obtain ⟨u, hverify, h⟩ := Eff.lift_bind_eq_ok h
    cases h
    obtain ⟨hpath, hmem⟩ := batchIndices_ok hindices
    refine ⟨hpath, fun i page hi => ?_, verifyPaths_iff.mp hverify⟩
    rcases decodePages_mem hdecode hi with h | ⟨x, hx⟩
    · simp at h
    · have hi := (hmem i).mp (Std.TreeSet.mem_toList.mp (List.of_mem_zip hx).1)
      exact hi.resolve_left (by simp)

/-! ## The root in memory -/

/-- The root is that of the tree of `c`, and the cache keeps pages of that tree. -/
structure Rooted (c : Nat → Bytes) (s : EmbeddedTreePageStore S) : Prop where
  root : s.rootHash = treeHash s.storeId s.pageCount c 0
  cache : ∀ cache ∈ s.verifiedBatchCache, ∀ (i : Nat) (page : EmbeddedPage), cache.pages[i]? = some page →
    page = treePage s.storeId s.pageCount c i

variable {c : Nat → Bytes} {M : Set Bytes} {pages : EmbeddedPages}

omit [PageStore S] in
/-- The root and the cache do not depend on the disk. -/
theorem Rooted.onDisk (h : Rooted c s) (inner : S) : Rooted c { s with inner } := ⟨h.root, h.cache⟩

omit [PageStore S] in
/-- Pages that were verified against the root are the tree's. -/
theorem Verified.sound (h : Verified s paths pages) (hr : Rooted c s) (hM : Set.InjOn Sha256.digest M)
    (htree : treeMessages s.storeId s.pageCount c ⊆ M) (hpages : pageMessages s.storeId pages ⊆ M) :
    ∀ i ∈ paths.flatten, pages[i]? = some (treePage s.storeId s.pageCount c i) := by
  intro i hi
  obtain ⟨path, hpath, hi⟩ := List.mem_flatten.mp hi
  have hp := h.path path hpath
  have hverify := h.verify path hpath
  rw [hr.root] at hverify
  exact verifyPathFromPages_sound hM htree hpages hp.chain hp.lt hp.head hverify i hi

/-- The messages of the pages that a call goes by. -/
def Hashed (M : Set Bytes) (m : Eff Error (EmbeddedTreePageStore S) EmbeddedPages) (s : EmbeddedTreePageStore S) : Prop :=
  ∀ pages t, m s = (.ok pages, t) → pageMessages s.storeId pages ⊆ M

theorem readPaths_rooted (hr : Rooted c s) (hM : Set.InjOn Sha256.digest M) (htree : treeMessages s.storeId s.pageCount c ⊆ M)
    (hpages : Hashed M (readVerifiedPaths paths) s) {outs : List (List Bytes)} (h : readPaths paths s = (.ok outs, t)) :
    outs = paths.map (·.map c) ∧ Rooted c t ∧ t.toEmbeddedLayout = s.toEmbeddedLayout := by
  obtain ⟨pages, s₁, hread, h⟩ := Eff.bind_eq_ok h
  obtain ⟨logical, hlogical, h⟩ := Eff.lift_bind_eq_ok h
  obtain ⟨inner, hs₁⟩ := readVerifiedPaths_inner paths s
  rw [hread] at hs₁
  subst hs₁
  have hver := readVerifiedPaths_ok hread
  have hsound := hver.sound hr hM htree (hpages pages _ hread)
  rw [logicalPaths_ok fun i hi => ⟨_, hsound i hi, rfl⟩] at hlogical
  cases hlogical
  cases h
  refine ⟨rfl, ⟨hr.root, ?_⟩, rfl⟩
  rintro cache ⟨⟩ i page hi
  have hin := hsound i (hver.mem i page hi)
  rw [show pages[i]? = some page from hi] at hin
  cases hin
  rfl

/-- A read that fails leaves the root and the cache. -/
theorem readPaths_failed (hr : Rooted c s) {e : Error} (h : readPaths paths s = (.error e, t)) :
    Rooted c t ∧ t.toEmbeddedLayout = s.toEmbeddedLayout := by
  obtain ⟨inner, hs₁⟩ := readVerifiedPaths_inner paths s
  rcases hread : readVerifiedPaths paths s with ⟨e' | pages, s₁⟩ <;> rw [hread] at hs₁ <;> subst hs₁
  · rw [readPaths, Eff.bind_error hread] at h
    cases h
    exact ⟨hr.onDisk inner, rfl⟩
  · rw [readPaths, Eff.bind_ok hread] at h
    cases hlogical : logicalPaths pages paths with
    | error e' =>
      rw [hlogical] at h
      cases h
      exact ⟨hr.onDisk inner, rfl⟩
    | ok logical =>
      rw [hlogical] at h
      cases h

theorem readPaths_kept (hr : Rooted c s) (hM : Set.InjOn Sha256.digest M) (htree : treeMessages s.storeId s.pageCount c ⊆ M)
    (hpages : Hashed M (readVerifiedPaths paths) s) :
    Rooted c (readPaths paths s).2 ∧ (readPaths paths s).2.toEmbeddedLayout = s.toEmbeddedLayout := by
  rcases hread : readPaths paths s with ⟨e | outs, t⟩
  · exact readPaths_failed hr hread
  · exact (readPaths_rooted hr hM htree hpages hread).2

/-- The pages a write starts from are the tree's, from the cache or from the disk. -/
theorem takePages_rooted (hr : Rooted c s) (hM : Set.InjOn Sha256.digest M) (htree : treeMessages s.storeId s.pageCount c ⊆ M)
    (hpages : Hashed M (takePages paths) s) (h : takePages paths s = (.ok pages, t)) :
    (∃ inner, t = { s with inner, verifiedBatchCache := none }) ∧
      ∀ i ∈ paths.flatten, pages[i]? = some (treePage s.storeId s.pageCount c i) := by
  have hcold : readVerifiedPaths paths { s with verifiedBatchCache := none } = (.ok pages, t) →
      (∃ inner, t = { s with inner, verifiedBatchCache := none }) ∧
        ∀ i ∈ paths.flatten, pages[i]? = some (treePage s.storeId s.pageCount c i) := by
    intro hread
    obtain ⟨inner, ht⟩ := readVerifiedPaths_inner paths { s with verifiedBatchCache := none }
    rw [hread] at ht
    refine ⟨⟨inner, ht⟩, (readVerifiedPaths_ok hread).sound ⟨hr.root, ?_⟩ hM htree (hpages pages t h)⟩
    rintro cache ⟨⟩
  unfold takePages at h
  rw [Eff.get_bind, Eff.modify_bind] at h
  cases hcache : s.verifiedBatchCache with
  | none =>
    rw [hcache] at h
    exact hcold h
  | some cache =>
    rw [hcache] at h
    simp only at h
    split at h
    · rename_i hwarm
      cases h
      refine ⟨⟨s.inner, rfl⟩, fun i hi => ?_⟩
      obtain ⟨page, hpage⟩ := cacheCoversPaths_iff.mp hwarm.2 i hi
      rw [hpage, hr.cache cache hcache i page hpage]
    · exact hcold h

omit [PageStore S] [Sha256] in
theorem onOverlay_run {α : Type} (pages : EmbeddedPages) (m : Eff Error TreeOverlay α) (s : EmbeddedTreePageStore S) :
    onOverlay pages m s = ((m { pages, dirtyPages := ∅, rootHash := s.rootHash }).1.map
      fun a => (a, (m { pages, dirtyPages := ∅, rootHash := s.rootHash }).2),
      { s with rootHash := (m { pages, dirtyPages := ∅, rootHash := s.rootHash }).2.rootHash }) := rfl

omit [PageStore S] [Sha256] in
theorem onOverlay_ok {α : Type} {m : Eff Error TreeOverlay α} {a : α} {o : TreeOverlay}
    (h : onOverlay pages m s = (.ok (a, o), t)) :
    m { pages, dirtyPages := ∅, rootHash := s.rootHash } = (.ok a, o) ∧ t = { s with rootHash := o.rootHash } := by
  unfold onOverlay at h
  simp only at h
  generalize m { pages, dirtyPages := ∅, rootHash := s.rootHash } = run at h ⊢
  obtain ⟨e | a', o'⟩ := run
  · cases h
  · cases h
    exact ⟨rfl, rfl⟩

/-- What a write that ends well went through. -/
theorem writePaths_ok {logical : List (List Bytes)} (hne : paths ≠ []) (h : writePaths paths logical s = (.ok (), t)) :
    ∃ pages s₁ us o physical, takePages paths s = (.ok pages, s₁) ∧
      Eff.forEach (fun w => TreeOverlay.writePath s.toEmbeddedLayout w.1 w.2) (paths.zip logical)
        { pages, dirtyPages := ∅, rootHash := s₁.rootHash } = (.ok us, o) ∧
      o.encodeDirty s.toEmbeddedLayout = .ok physical ∧
      onInner (PageStore.writePages o.dirtyPages.toList physical) { s₁ with rootHash := o.rootHash } = (.ok (), t) ∧
      paths.length = logical.length := by
  unfold writePaths at h
  split at h
  · cases h
  · rename_i hlen
    rw [if_neg (by simpa using hne), Eff.get_bind] at h
    obtain ⟨pages, s₁, htake, h⟩ := Eff.bind_eq_ok h
    obtain ⟨⟨us, o⟩, s₂, hover, h⟩ := Eff.bind_eq_ok h
    obtain ⟨physical, hencode, h⟩ := Eff.lift_bind_eq_ok h
    obtain ⟨hrun, rfl⟩ := onOverlay_ok hover
    exact ⟨pages, s₁, us, o, physical, htake, hrun, hencode, h, not_not.mp hlen⟩

theorem takePages_inner (paths : List (List Nat)) (s : EmbeddedTreePageStore S) :
    ∃ inner, (takePages paths s).2 = { s with inner, verifiedBatchCache := none } := by
  obtain ⟨inner, hread⟩ := readVerifiedPaths_inner paths { s with verifiedBatchCache := none }
  unfold takePages
  rw [Eff.get_bind, Eff.modify_bind]
  cases s.verifiedBatchCache with
  | none => exact ⟨inner, hread⟩
  | some cache =>
    simp only
    split
    · exact ⟨s.inner, rfl⟩
    · exact ⟨inner, hread⟩

/-- The turns of a write that are done: those before the first refused one, if it comes to the loop. -/
def turnsDone (paths : List (List Nat)) (logical : List (List Bytes)) (s : EmbeddedTreePageStore S) :
    List (List Nat × List Bytes) :=
  if paths.length = logical.length ∧ (takePages paths s).1.toOption.isSome then
    (paths.zip logical).takeWhile (TreeOverlay.accepts s.toEmbeddedLayout)
  else []

/-- A write with pages to start from leaves the disk aside the root its loop reached. -/
theorem writePaths_loop {logical : List (List Bytes)} (hlen : paths.length = logical.length) (hne : paths ≠ [])
    (htake : (takePages paths s).1 = .ok pages) :
    ∃ inner, (writePaths paths logical s).2 = { s with
      inner, verifiedBatchCache := none
      rootHash := (Eff.forEach (fun w => TreeOverlay.writePath s.toEmbeddedLayout w.1 w.2) (paths.zip logical)
        { pages, dirtyPages := ∅, rootHash := s.rootHash }).2.rootHash } := by
  obtain ⟨inner, hs₁⟩ := takePages_inner paths s
  obtain ⟨s₁, hrun⟩ := Eff.run_of_result htake
  rw [hrun] at hs₁
  subst hs₁
  unfold writePaths
  rw [if_neg (not_not_intro hlen), if_neg (by simpa using hne), Eff.get_bind, Eff.bind_ok hrun]
  have hover := onOverlay_run pages (Eff.forEach (fun w => TreeOverlay.writePath s.toEmbeddedLayout w.1 w.2) (paths.zip logical))
    { s with inner, verifiedBatchCache := none }
  rcases hloop : Eff.forEach (fun w => TreeOverlay.writePath s.toEmbeddedLayout w.1 w.2) (paths.zip logical)
    { pages, dirtyPages := ∅, rootHash := s.rootHash } with ⟨e | us, o⟩ <;> rw [hloop] at hover ⊢
  · exact ⟨inner, by rw [Eff.bind_error hover]⟩
  · rw [Eff.bind_ok hover]
    cases hencode : o.encodeDirty s.toEmbeddedLayout with
    | error e => exact ⟨inner, by simp only [hencode]; rfl⟩
    | ok physical => exact ⟨_, by simp only [hencode]; rfl⟩

/-- However a write ends, the root is that of the turns that were done. -/
theorem writePaths_rooted (hr : Rooted c s) (hM : Set.InjOn Sha256.digest M) (htree : treeMessages s.storeId s.pageCount c ⊆ M)
    (hpages : Hashed M (takePages paths) s) (logical : List (List Bytes)) :
    Rooted (overwrite c (TreeOverlay.turnWrites (turnsDone paths logical s))) (writePaths paths logical s).2 ∧
      (writePaths paths logical s).2.toEmbeddedLayout = s.toEmbeddedLayout := by
  unfold turnsDone
  by_cases hlen : paths.length = logical.length
  · by_cases hne : paths = []
    · subst hne
      have hsame : (writePaths [] logical s).2 = s := by
        unfold writePaths
        rw [if_neg (not_not_intro hlen)]
        rfl
      rw [hsame, List.zip_nil_left, List.takeWhile_nil, ite_self]
      exact ⟨hr, rfl⟩
    · rcases htake : takePages paths s with ⟨e | pages, s₁⟩
      · obtain ⟨inner, hs₁⟩ := takePages_inner paths s
        rw [htake] at hs₁
        subst hs₁
        have hsame : (writePaths paths logical s).2 = { s with inner, verifiedBatchCache := none } := by
          unfold writePaths
          rw [if_neg (not_not_intro hlen), if_neg (by simpa using hne), Eff.get_bind, Eff.bind_error htake]
        rw [hsame, if_neg (fun h => Bool.false_ne_true h.2)]
        refine ⟨⟨hr.root, ?_⟩, rfl⟩
        rintro cache ⟨⟩
      · obtain ⟨inner, hlast⟩ := writePaths_loop (s := s) hlen hne (by rw [htake])
        obtain ⟨-, hon⟩ := takePages_rooted hr hM htree hpages htake
        have hstart : TreeOverlay.On paths.flatten (treePage s.storeId s.pageCount c) (treeHash s.storeId s.pageCount c 0) []
            { pages, dirtyPages := ∅, rootHash := s.rootHash } := hr.root ▸ TreeOverlay.on_start hon
        have hturns : ∀ w ∈ paths.zip logical, ∀ i ∈ w.1, i ∈ paths.flatten := fun w hw i hi => mem_turn hw hi
        have hroot := TreeOverlay.writeEach_root hturns hstart rfl
        rw [hlast, if_pos ⟨hlen, rfl⟩]
        refine ⟨⟨hroot, ?_⟩, rfl⟩
        rintro cache ⟨⟩
  · have hsame : (writePaths paths logical s).2 = s := by
      unfold writePaths
      rw [if_pos hlen]
      rfl
    rw [hsame, if_neg fun h => hlen h.1]
    exact ⟨hr, rfl⟩

/-- All the turns of a write that ends well are done. -/
theorem turnsDone_ok {logical : List (List Bytes)} (h : writePaths paths logical s = (.ok (), t)) :
    turnsDone paths logical s = paths.zip logical := by
  unfold turnsDone
  by_cases hne : paths = []
  · subst hne
    rw [List.zip_nil_left, List.takeWhile_nil, ite_self]
  · obtain ⟨pages, s₁, us, o, physical, htake, hrun, -, -, hlen⟩ := writePaths_ok hne h
    rw [if_pos ⟨hlen, by rw [htake]; rfl⟩, List.takeWhile_eq_self_iff]
    exact fun w hw => TreeOverlay.accepts_iff.mpr (TreeOverlay.writeEach_accepts hrun w hw)

/-! ## Runs -/

omit [Sha256] in
theorem validateEmbeddedDimensions_ok {store : S} {storeId : FixedBytes 16} {n sz : Nat} {l : EmbeddedLayout}
    (h : validateEmbeddedDimensions store storeId n sz = .ok l) :
    l.storeId = storeId ∧ l.pageCount = n ∧ l.logicalPageSize = sz ∧ l.physicalPageSize = physicalPageSizeFor sz ∧
      PageStore.pageCount store = n ∧ PageStore.pageSize store = physicalPageSizeFor sz := by
  unfold validateEmbeddedDimensions at h
  simp only at h
  split at h
  · cases h
  · split at h
    · cases h
    · rename_i hcount
      split at h
      · cases h
      · rename_i hsize
        cases h
        exact ⟨rfl, rfl, rfl, rfl, not_not.mp hcount, not_not.mp hsize⟩

theorem build_ok {inner : S} {storeId : FixedBytes 16} {sz : Nat} (h : build inner storeId sz = .ok s)
    {pages : List EmbeddedPage} {inner' : S} (hload : loadPages s.toEmbeddedLayout inner = (.ok pages, inner')) :
    ∃ us, storePages s.toEmbeddedLayout (buildPages s.storeId pages).1 inner' = (.ok us, s.inner) ∧
      s.rootHash = (buildPages s.storeId pages).2.getD 0 noHash ∧ s.verifiedBatchCache = none ∧
      validateEmbeddedDimensions inner storeId (PageStore.pageCount inner) sz = .ok s.toEmbeddedLayout := by
  unfold build at h
  obtain ⟨l, hl, h⟩ := bind_result_ok h
  rcases hload' : loadPages l inner with ⟨e | pages', inner₁⟩ <;> rw [hload'] at h
  · cases h
  · simp only at h
    rcases hstore : storePages l (buildPages storeId pages').1 inner₁ with ⟨e | us, inner₂⟩ <;> rw [hstore] at h
    · cases h
    · cases h
      rw [hload'] at hload
      cases hload
      have hid : l.storeId = storeId := (validateEmbeddedDimensions_ok hl).1
      rw [hid]
      exact ⟨us, hstore, rfl, rfl, hl⟩

omit [Sha256] in
theorem loadPages_length {l : EmbeddedLayout} {inner inner' : S} {pages : List EmbeddedPage}
    (h : loadPages l inner = (.ok pages, inner')) : pages.length = l.pageCount := by
  obtain ⟨hall, -⟩ := Eff.forEach_eq_ok (P := fun _ => True) (Q := fun _ _ => True)
    (fun _ _ _ _ _ _ _ => ⟨trivial, trivial⟩) trivial h
  rw [← hall.length_eq, List.length_range]

/-- A tree that was built is rooted in the pages found on disk. -/
theorem build_rooted {inner inner' : S} {storeId : FixedBytes 16} {sz : Nat} {pages : List EmbeddedPage}
    (h : build inner storeId sz = .ok s)
    (hload : loadPages s.toEmbeddedLayout inner = (.ok pages, inner')) : Rooted (contents pages) s := by
  obtain ⟨us, -, hroot, hcache, -⟩ := build_ok h hload
  have hbuilt := buildPages_built s.storeId pages
  rw [loadPages_length hload] at hbuilt
  refine ⟨?_, fun cache hc => ?_⟩
  · rw [hroot, List.getD_eq_getElem?_getD, hbuilt.hash 0 (Nat.le_refl 0) s.pageCount_pos]
    rfl
  · rw [hcache] at hc
    cases hc

/-- A run of the tree, and the contents it has. The calls may end in errors; between any two of
    them the disk may be exchanged for another. `M` has the messages of every tree of the run
    and of every page that a read or a write accepted. -/
inductive Run (M : Set Bytes) : EmbeddedTreePageStore S → (Nat → Bytes) → Prop
  | build {inner inner' : S} {storeId : FixedBytes 16} {sz : Nat} {s : EmbeddedTreePageStore S} {pages : List EmbeddedPage} :
      build inner storeId sz = .ok s → loadPages s.toEmbeddedLayout inner = (.ok pages, inner') →
      treeMessages s.storeId s.pageCount (contents pages) ⊆ M → Run M s (contents pages)
  | disk {s : EmbeddedTreePageStore S} {c : Nat → Bytes} (inner : S) : Run M s c → Run M { s with inner } c
  | read {s : EmbeddedTreePageStore S} {c : Nat → Bytes} (paths : List (List Nat)) :
      Run M s c → Hashed M (readVerifiedPaths paths) s → Run M (readPaths paths s).2 c
  | write {s : EmbeddedTreePageStore S} {c : Nat → Bytes} (paths : List (List Nat)) (logical : List (List Bytes)) :
      Run M s c → Hashed M (takePages paths) s →
      treeMessages s.storeId s.pageCount (overwrite c (TreeOverlay.turnWrites (turnsDone paths logical s))) ⊆ M →
      Run M (writePaths paths logical s).2 (overwrite c (TreeOverlay.turnWrites (turnsDone paths logical s)))
  | reopen {s t : EmbeddedTreePageStore S} {c : Nat → Bytes} (inner : S) :
      Run M s c → fromState inner s.state = .ok t → Run M t c

/-- In every run the root is the contents'. -/
theorem Run.rooted (hM : Set.InjOn Sha256.digest M) (h : Run M s c) :
    Rooted c s ∧ treeMessages s.storeId s.pageCount c ⊆ M := by
  induction h with
  | build hbuild hload htree => exact ⟨build_rooted hbuild hload, htree⟩
  | disk inner _ ih => exact ⟨ih.1.onDisk inner, ih.2⟩
  | read paths _ hpages ih =>
    obtain ⟨hr, hl⟩ := readPaths_kept ih.1 hM ih.2 hpages
    exact ⟨hr, by rw [hl]; exact ih.2⟩
  | write paths logical _ hpages htree ih =>
    obtain ⟨hr, hl⟩ := writePaths_rooted ih.1 hM ih.2 hpages logical
    exact ⟨hr, by rw [hl]; exact htree⟩
  | @reopen s t c inner _ hopen ih =>
    obtain ⟨l, hl, ht⟩ := bind_result_ok hopen
    obtain ⟨hid, hcount, -⟩ := validateEmbeddedDimensions_ok hl
    cases ht
    have hid : l.storeId = s.storeId := hid
    have hcount : l.pageCount = s.pageCount := hcount
    refine ⟨⟨?_, fun cache hc => by cases hc⟩, ?_⟩
    · show s.rootHash = treeHash l.storeId l.pageCount c 0
      rw [hid, hcount]
      exact ih.1.root
    · show treeMessages l.storeId l.pageCount c ⊆ M
      rw [hid, hcount]
      exact ih.2

/-- Whatever became of the disk, a read that succeeds returns for every node of its paths the
    bytes last written there, or those of the build. -/
theorem Run.fresh (hM : Set.InjOn Sha256.digest M) (h : Run M s c) {outs : List (List Bytes)}
    (hpages : Hashed M (readVerifiedPaths paths) s) (hrun : readPaths paths s = (.ok outs, t)) : outs = paths.map (·.map c) := by
  obtain ⟨hr, htree⟩ := h.rooted hM
  exact (readPaths_rooted hr hM htree hpages hrun).1

/-- A run whose writes all ended well, and for every page the bytes last given for it. -/
inductive Written (M : Set Bytes) : EmbeddedTreePageStore S → (Nat → Bytes) → Prop
  | build {inner inner' : S} {storeId : FixedBytes 16} {sz : Nat} {s : EmbeddedTreePageStore S} {pages : List EmbeddedPage} :
      build inner storeId sz = .ok s → loadPages s.toEmbeddedLayout inner = (.ok pages, inner') →
      treeMessages s.storeId s.pageCount (contents pages) ⊆ M → Written M s (contents pages)
  | disk {s : EmbeddedTreePageStore S} {c : Nat → Bytes} (inner : S) : Written M s c → Written M { s with inner } c
  | read {s : EmbeddedTreePageStore S} {c : Nat → Bytes} (paths : List (List Nat)) :
      Written M s c → Hashed M (readVerifiedPaths paths) s → Written M (readPaths paths s).2 c
  | write {s t : EmbeddedTreePageStore S} {c : Nat → Bytes} {paths : List (List Nat)} {logical : List (List Bytes)} :
      Written M s c → Hashed M (takePages paths) s → writePaths paths logical s = (.ok (), t) →
      treeMessages s.storeId s.pageCount (overwrite c (TreeOverlay.turnWrites (paths.zip logical))) ⊆ M →
      Written M t (overwrite c (TreeOverlay.turnWrites (paths.zip logical)))
  | reopen {s t : EmbeddedTreePageStore S} {c : Nat → Bytes} (inner : S) :
      Written M s c → fromState inner s.state = .ok t → Written M t c

theorem Written.run (h : Written M s c) : Run M s c := by
  induction h with
  | build hbuild hload htree => exact .build hbuild hload htree
  | disk inner _ ih => exact ih.disk inner
  | read paths _ hpages ih => exact ih.read paths hpages
  | @write s t c paths logical _ hpages hrun htree ih =>
    have hdone := turnsDone_ok hrun
    have hnext := ih.write paths logical hpages (by rwa [hdone])
    rwa [hdone, hrun] at hnext
  | reopen inner _ hopen ih => exact ih.reopen inner hopen

/-- A read that ends well returns what was last given. -/
theorem Written.last_given (hM : Set.InjOn Sha256.digest M) (h : Written M s c) (hpages : Hashed M (readVerifiedPaths paths) s)
    {outs : List (List Bytes)} (hrun : readPaths paths s = (.ok outs, t)) : outs = paths.map (·.map c) := by
  obtain ⟨hr, htree⟩ := h.run.rooted hM
  exact (readPaths_rooted hr hM htree hpages hrun).1

omit [PageStore S] [Sha256] in
theorem Hashed.of_all {msgs : List Bytes} {m : Eff Error (EmbeddedTreePageStore S) EmbeddedPages}
    (h : ∀ pages ∈ (m s).1.toOption, ∀ w ∈ pages.toList, w.2.message s.storeId w.1 ∈ msgs) :
    Hashed { b | b ∈ msgs } m s := by
  rintro pages t hrun _ ⟨i, page, hpage, rfl⟩
  exact h pages (by rw [hrun]; rfl) (i, page) (Std.TreeMap.mem_toList_iff_getElem?_eq_some.mpr hpage)

end

section
local instance : Sha256 := smallSha256

/-- A tree of three pages of one byte. -/
def smallTreeDisk : MemPageStore := zeroPages 3 65 (Nat.succ_pos 64)

def smallTreeBuild : Result (EmbeddedTreePageStore MemPageStore) := build smallTreeDisk (FixedBytes.zero 16) 1

def smallTree : EmbeddedTreePageStore MemPageStore := smallTreeBuild.toOption.get (by decide +kernel)

def smallTreePages : List EmbeddedPage := (loadPages smallTree.toEmbeddedLayout smallTreeDisk).1.toOption.get (by decide +kernel)

/-- The tree with two pages written. -/
def smallTreeWritten : EmbeddedTreePageStore MemPageStore := (writePaths [[0, 1]] [[[5], [6]]] smallTree).2

/-- Rolled back to what it was on disk before the write. -/
def smallTreeRolled : EmbeddedTreePageStore MemPageStore := { smallTreeWritten with inner := smallTree.inner }

def smallTreeRead : EmbeddedTreePageStore MemPageStore := (readPaths [[0, 1]] smallTreeRolled).2

/-- The disk is put right again after a read. -/
def smallTreeBack : EmbeddedTreePageStore MemPageStore := { smallTreeRead with inner := smallTreeWritten.inner }

def smallTreeMessages : List Bytes :=
  [contents smallTreePages, overwrite (contents smallTreePages) [(0, [5]), (1, [6])]].flatMap fun c =>
    (List.range 3).map fun i => (treePage (FixedBytes.zero 16) 3 c i).message (FixedBytes.zero 16) i

theorem smallTreeMessages_inj : Set.InjOn Sha256.digest { b | b ∈ smallTreeMessages } := fun a ha b hb =>
  (by decide +kernel :
    ∀ a ∈ smallTreeMessages, ∀ b ∈ smallTreeMessages, Sha256.digest a = Sha256.digest b → a = b) a ha b hb

theorem smallTreeMessages_tree {c : Nat → Bytes}
    (hc : c ∈ [contents smallTreePages, overwrite (contents smallTreePages) [(0, [5]), (1, [6])]]) :
    treeMessages smallTree.storeId smallTree.pageCount c ⊆ { b | b ∈ smallTreeMessages } := by
  have hid : smallTree.storeId = FixedBytes.zero 16 ∧ smallTree.pageCount = 3 := by decide +kernel
  rw [hid.1, hid.2]
  rintro _ ⟨i, hi, rfl⟩
  exact List.mem_flatMap.mpr ⟨c, hc, List.mem_map_of_mem (List.mem_range.mpr hi)⟩

theorem smallTree_loaded : ∃ inner, loadPages smallTree.toEmbeddedLayout smallTreeDisk = (.ok smallTreePages, inner) :=
  Eff.run_of_result (toOption_get (r := (loadPages smallTree.toEmbeddedLayout smallTreeDisk).1) (by decide +kernel))

theorem Run.fresh_smallTree : (readPaths [[0, 1]] smallTreeRolled).1.toOption = none ∧
    ∃ t, readPaths [[0, 1]] smallTreeBack = (.ok [[[5], [6]]], t) ∧
      [[[5], [6]]] = [[0, 1]].map (·.map (overwrite (contents smallTreePages) [(0, [5]), (1, [6])])) := by
  obtain ⟨inner, hload⟩ := smallTree_loaded
  have hbuild : Run { b | b ∈ smallTreeMessages } smallTree (contents smallTreePages) :=
    .build (toOption_get _) hload (smallTreeMessages_tree List.mem_cons_self)
  have hdone : turnsDone [[0, 1]] [[[5], [6]]] smallTree = [([0, 1], [[5], [6]])] := by decide +kernel
  have hwrite := Run.write [[0, 1]] [[[5], [6]]] hbuild (.of_all (by decide +kernel))
    (by rw [hdone]; exact smallTreeMessages_tree (List.mem_cons_of_mem _ List.mem_cons_self))
  rw [hdone, ← smallTreeWritten] at hwrite
  have hrolled := hwrite.disk smallTree.inner
  rw [← smallTreeRolled] at hrolled
  have hread := hrolled.read [[0, 1]] (.of_all (by decide +kernel))
  rw [← smallTreeRead] at hread
  have hback := hread.disk smallTreeWritten.inner
  rw [← smallTreeBack] at hback
  have hpages : Hashed { b | b ∈ smallTreeMessages } (readVerifiedPaths [[0, 1]]) smallTreeBack := .of_all (by decide +kernel)
  obtain ⟨t, hrun⟩ := Eff.run_of_result
    (show (readPaths [[0, 1]] smallTreeBack).1 = .ok [[[5], [6]]] by decide +kernel)
  exact ⟨by decide +kernel, t, hrun, hback.fresh smallTreeMessages_inj hpages hrun⟩

/-- A path read, and then the disk put back to what it was before the build. -/
def smallTreeStale : EmbeddedTreePageStore MemPageStore := { (readPaths [[0, 1]] smallTree).2 with inner := smallTreeDisk }

/-- The path is written from the pages kept, and read. -/
theorem Written.last_given_smallTree : ∃ t, writePaths [[0, 1]] [[[5], [6]]] smallTreeStale = (.ok (), t) ∧
    ∃ u, readPaths [[0, 1]] t = (.ok [[[5], [6]]], u) ∧
      [[[5], [6]]] = [[0, 1]].map (·.map (overwrite (contents smallTreePages) [(0, [5]), (1, [6])])) := by
  obtain ⟨inner, hload⟩ := smallTree_loaded
  have hbuild : Written { b | b ∈ smallTreeMessages } smallTree (contents smallTreePages) :=
    .build (toOption_get _) hload (smallTreeMessages_tree List.mem_cons_self)
  have hstale := (hbuild.read [[0, 1]] (.of_all (by decide +kernel))).disk smallTreeDisk
  rw [← smallTreeStale] at hstale
  obtain ⟨t, hrun⟩ := Eff.run_of_result
    (show (writePaths [[0, 1]] [[[5], [6]]] smallTreeStale).1 = .ok () by decide +kernel)
  have hsame : smallTreeStale.storeId = smallTree.storeId ∧ smallTreeStale.pageCount = smallTree.pageCount := by decide +kernel
  have hturns : TreeOverlay.turnWrites ([[0, 1]].zip [[[5], [6]]]) = [(0, [5]), (1, [6])] := by decide +kernel
  have htree := smallTreeMessages_tree (List.mem_cons_of_mem _ List.mem_cons_self)
  rw [← hsame.1, ← hsame.2, ← hturns] at htree
  have hwritten := hstale.write (.of_all (by decide +kernel)) hrun htree
  rw [hturns] at hwritten
  have ht : t = (writePaths [[0, 1]] [[[5], [6]]] smallTreeStale).2 := by rw [hrun]
  obtain ⟨u, hread⟩ := Eff.run_of_result (show (readPaths [[0, 1]] t).1 = .ok [[[5], [6]]] by rw [ht]; decide +kernel)
  refine ⟨t, hrun, u, hread, hwritten.last_given smallTreeMessages_inj (.of_all ?_) hread⟩
  rw [ht]
  decide +kernel

end
end EmbeddedTreePageStore
end BpirOram
