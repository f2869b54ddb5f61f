/-
  BpirOram.Embedded.Noted — a tree that notes the messages it hashes.

  What a read or a write goes by is pages whose hashes it has checked, or computed. `NotedTree`
  lists their messages and is otherwise the tree; `GuardedTree M` is the tree that stops before
  a call that would go by a message outside `M`. On messages that do not collide the latter
  keeps the contract of a path store, whatever its disk does (`GuardedTree.contract`): a write
  of the paths that were just read fails only with a write of the disk. Until it stops the two
  are the same.
-/

import BpirOram.Embedded.Contract
import BpirOram.Embedded.Fresh
import BpirOram.Circuit.Lockstep

namespace BpirOram

open Lib

/-- The messages of some pages. -/
def pageNotes (storeId : FixedBytes 16) (pages : EmbeddedPages) : List Bytes :=
  pages.toList.map fun w => w.2.message storeId w.1

theorem pageNotes_subset {storeId : FixedBytes 16} {pages : EmbeddedPages} {M : Set Bytes} :
    (∀ b ∈ pageNotes storeId pages, b ∈ M) ↔ pageMessages storeId pages ⊆ M := by
  constructor
  · rintro h _ ⟨i, page, hpage, rfl⟩
    exact h _ (List.mem_map.mpr ⟨(i, page), Std.TreeMap.mem_toList_iff_getElem?_eq_some.mpr hpage, rfl⟩)
  · intro h b hb
    obtain ⟨⟨i, page⟩, hpage, rfl⟩ := List.mem_map.mp hb
    exact h ⟨i, page, Std.TreeMap.mem_toList_iff_getElem?_eq_some.mp hpage, rfl⟩

theorem treeMessages_congr {storeId : FixedBytes 16} {n : Nat} {c c' : Nat → Bytes} [Sha256] (h : ∀ i < n, c i = c' i) :
    treeMessages storeId n c = treeMessages storeId n c' := by
  ext b
  refine exists_congr fun i => and_congr_right fun hi => ?_
  rw [treePage_congr h hi]

namespace EmbeddedTreePageStore

variable {S : Type} [PageStore S] [Sha256]

/-! ## Messages -/

/-- The messages of the pages that a read accepts. -/
def readNotes (paths : List (List Nat)) (s : EmbeddedTreePageStore S) : List Bytes :=
  match (readVerifiedPaths paths s).1 with
  | .ok pages => pageNotes s.storeId pages
  | .error _ => []

/-- The pages that the loop of a write leaves. -/
def writtenPages (paths : List (List Nat)) (logical : List (List Bytes)) (pages : EmbeddedPages) (s : EmbeddedTreePageStore S) :
    EmbeddedPages :=
  (Eff.forEach (fun w => TreeOverlay.writePath s.toEmbeddedLayout w.1 w.2) (paths.zip logical)
    { pages, dirtyPages := ∅, rootHash := s.rootHash }).2.pages

/-- The messages of the pages that a write starts from, and of those it leaves. -/
def writeNotes (paths : List (List Nat)) (logical : List (List Bytes)) (s : EmbeddedTreePageStore S) : List Bytes :=
  match (takePages paths s).1 with
  | .ok pages => pageNotes s.storeId pages ++ pageNotes s.storeId (writtenPages paths logical pages s)
  | .error _ => []

variable {M : Set Bytes} {id : FixedBytes 16} {n sz : Nat} {c : Nat → Bytes} {s t : EmbeddedTreePageStore S}
  {paths : List (List Nat)} {logical : List (List Bytes)} {pages : EmbeddedPages}

theorem hashed_of_readNotes (h : ∀ b ∈ readNotes paths s, b ∈ M) : Hashed M (readVerifiedPaths paths) s := by
  intro pages t hrun
  unfold readNotes at h
  rw [hrun] at h
  exact pageNotes_subset.mp h

theorem hashed_of_writeNotes (h : ∀ b ∈ writeNotes paths logical s, b ∈ M) : Hashed M (takePages paths) s := by
  intro pages t hrun
  unfold writeNotes at h
  rw [hrun] at h
  exact pageNotes_subset.mp fun b hb => h b (List.mem_append_left _ hb)

theorem written_of_writeNotes (h : ∀ b ∈ writeNotes paths logical s, b ∈ M) (htake : takePages paths s = (.ok pages, t)) :
    pageMessages s.storeId (writtenPages paths logical pages s) ⊆ M := by
  unfold writeNotes at h
  rw [htake] at h
  exact pageNotes_subset.mp fun b hb => h b (List.mem_append_right _ hb)

/-! ## What a read leaves for a write -/

/-- The cache has the pages of the paths, under the root of now. -/
def CacheCovers (paths : List (List Nat)) (s : EmbeddedTreePageStore S) : Prop :=
  ∃ cache ∈ s.verifiedBatchCache, cache.rootHash = s.rootHash ∧ cacheCoversPaths cache.pages paths = true

theorem Rooted.cacheCovers (hr : Rooted c s) (hM : Set.InjOn Sha256.digest M) (htree : treeMessages s.storeId s.pageCount c ⊆ M)
    (hpages : Hashed M (readVerifiedPaths paths) s) {outs : List (List Bytes)} (hrun : readPaths paths s = (.ok outs, t)) :
    CacheCovers paths t := by
  obtain ⟨pages, s₁, hread, hlast⟩ := Eff.bind_eq_ok hrun
  obtain ⟨logical, -, hlast⟩ := Eff.lift_bind_eq_ok hlast
  cases hlast
  have hsound := (readVerifiedPaths_ok hread).sound hr hM htree (hpages pages _ hread)
  exact ⟨_, rfl, rfl, cacheCoversPaths_iff.mpr fun i hi => ⟨_, hsound i hi⟩⟩

/-- A write of covered paths reads nothing again. -/
theorem CacheCovers.takePages (h : CacheCovers paths s) (hr : Rooted c s) :
    ∃ pages, EmbeddedTreePageStore.takePages paths s = (.ok pages, { s with verifiedBatchCache := none }) ∧
      ∀ i ∈ paths.flatten, pages[i]? = some (treePage s.storeId s.pageCount c i) := by
  obtain ⟨cache, hcache, hroot, hcovers⟩ := h
  refine ⟨cache.pages, ?_, fun i hi => ?_⟩
  · unfold EmbeddedTreePageStore.takePages
    rw [Eff.get_bind, Eff.modify_bind, hcache]
    simp only
    rw [if_pos ⟨hroot, hcovers⟩]
    rfl
  · obtain ⟨page, hpage⟩ := cacheCoversPaths_iff.mp hcovers i hi
    rw [hpage, hr.cache cache hcache i page hpage]

/-- Once its paths were read, a write fails only with the disk. -/
theorem CacheCovers.writePaths_error (h : CacheCovers paths s) (hr : Rooted c s) (hp : ∀ path ∈ paths, RootPath s.pageCount path)
    {c' : Nat → Bytes} (hl : ∀ i ∈ paths.flatten, (c' i).length = s.logicalPageSize) {e : Error}
    (hrun : writePaths paths (paths.map (·.map c')) s = (.error e, t)) :
    ∃ idxs pages inner inner', PageStore.writePages idxs pages (inner : S) = (.error e, inner') := by
  have hlen : paths.length = (paths.map (·.map c')).length := (List.length_map _).symm
  by_cases hne : paths = []
  · subst hne
    cases hrun
  obtain ⟨pages, htake, hon⟩ := h.takePages hr
  have hstart : TreeOverlay.On paths.flatten (treePage s.storeId s.pageCount c) (treeHash s.storeId s.pageCount c 0) []
      { pages, dirtyPages := ∅, rootHash := s.rootHash } := hr.root ▸ TreeOverlay.on_start hon
  obtain ⟨us, o, hloop, ho⟩ :=
    TreeOverlay.writeEach_ok (TreeOverlay.accepts_map hp hl) (fun w hw i hi => mem_turn hw hi) hstart
  have hover := onOverlay_run pages (Eff.forEach (fun w => TreeOverlay.writePath s.toEmbeddedLayout w.1 w.2)
    (paths.zip (paths.map (·.map c')))) { s with verifiedBatchCache := none }
  rw [hloop] at hover
  have hsz : ∀ i ∈ paths.flatten, (treePage s.storeId s.pageCount
      (overwrite c (TreeOverlay.turnWrites (paths.zip (paths.map (·.map c'))))) i).logical.length = s.logicalPageSize := by
    intro i hi
    rw [TreeOverlay.turnWrites_map, overwrite_zip]
    exact (congrArg List.length (if_pos hi)).trans (hl i hi)
  unfold writePaths at hrun
  rw [if_neg (not_not_intro hlen), if_neg (by simpa using hne), Eff.get_bind, Eff.bind_ok htake, Eff.bind_ok hover] at hrun
  simp only [ho.encodeDirty hsz, Eff.lift_ok_bind] at hrun
  obtain ⟨herror, -⟩ := Prod.mk.inj hrun
  exact ⟨_, _, _, _, Prod.ext herror rfl⟩

/-! ## A tree that is held by its root -/

variable (M) in
/-- The pages of the cache were verified against the root. -/
def CacheVerified (s : EmbeddedTreePageStore S) : Prop :=
  ∀ cache ∈ s.verifiedBatchCache, ∃ paths, Verified s paths cache.pages ∧ pageMessages s.storeId cache.pages ⊆ M

variable (M id n sz) in
/-- The root is that of the tree of `c`, whose messages are of `M`, and the cache was verified
    against it. -/
structure Held (c : Nat → Bytes) (s : EmbeddedTreePageStore S) : Prop where
  storeId : s.storeId = id
  pageCount : s.pageCount = n
  logicalPageSize : s.logicalPageSize = sz
  root : s.rootHash = treeHash id n c 0
  messages : treeMessages id n c ⊆ M
  cache : CacheVerified M s

omit [PageStore S] in
theorem Held.congr {c' : Nat → Bytes} (h : Held M id n sz c s) (hc : ∀ i < n, c i = c' i) : Held M id n sz c' s :=
  { h with
    root := h.root.trans (treeHash_congr hc 0)
    messages := (treeMessages_congr hc).symm.subset.trans h.messages }

omit [PageStore S] in
/-- The disk may be exchanged for any other. -/
theorem Held.onDisk (h : Held M id n sz c s) (inner : S) : Held M id n sz c { s with inner } :=
  { h with
    cache := fun cache hcache => by
      obtain ⟨paths, hver, hpages⟩ := h.cache cache hcache
      exact ⟨paths, ⟨hver.path, hver.mem, hver.verify⟩, hpages⟩ }

omit [PageStore S] in
theorem Held.tree_subset (h : Held M id n sz c s) : treeMessages s.storeId s.pageCount c ⊆ M := by
  rw [h.storeId, h.pageCount]
  exact h.messages

omit [PageStore S] in
/-- On messages that do not collide the pages of the cache are the tree's. -/
theorem Held.rooted (h : Held M id n sz c s) (hM : Set.InjOn Sha256.digest M) : Rooted c s := by
  have hroot : s.rootHash = treeHash s.storeId s.pageCount c 0 := by
    rw [h.storeId, h.pageCount]
    exact h.root
  refine ⟨hroot, fun cache hcache i page hi => ?_⟩
  obtain ⟨paths, hver, hpages⟩ := h.cache cache hcache
  have hbare : Rooted c { s with verifiedBatchCache := none } := ⟨hroot, fun cache hc => by cases hc⟩
  have hver' : Verified { s with verifiedBatchCache := none } paths cache.pages := ⟨hver.path, hver.mem, hver.verify⟩
  have hpage := hver'.sound hbare hM h.tree_subset hpages i (hver.mem i page hi)
  rw [hi] at hpage
  cases hpage
  rfl

omit [PageStore S] in
theorem Held.of_layout (h : Held M id n sz c s) (hl : t.toEmbeddedLayout = s.toEmbeddedLayout) {c' : Nat → Bytes}
    (hroot : t.rootHash = treeHash t.storeId t.pageCount c' 0) (hmessages : treeMessages t.storeId t.pageCount c' ⊆ M)
    (hcache : CacheVerified M t) : Held M id n sz c' t := by
  have hid : t.storeId = id := (congrArg EmbeddedLayout.storeId hl).trans h.storeId
  have hcount : t.pageCount = n := (congrArg EmbeddedLayout.pageCount hl).trans h.pageCount
  rw [hid, hcount] at hroot hmessages
  exact ⟨hid, hcount, (congrArg EmbeddedLayout.logicalPageSize hl).trans h.logicalPageSize, hroot, hmessages, hcache⟩

omit [PageStore S] in
/-- The same layout and the same root, and a cache verified against it. -/
theorem Held.of_root (h : Held M id n sz c s) (hl : t.toEmbeddedLayout = s.toEmbeddedLayout) (hroot : t.rootHash = s.rootHash)
    (hcache : CacheVerified M t) : Held M id n sz c t where
  storeId := (congrArg EmbeddedLayout.storeId hl).trans h.storeId
  pageCount := (congrArg EmbeddedLayout.pageCount hl).trans h.pageCount
  logicalPageSize := (congrArg EmbeddedLayout.logicalPageSize hl).trans h.logicalPageSize
  root := hroot.trans h.root
  messages := h.messages
  cache := hcache

omit [PageStore S] in
/-- A tree with the state of `c` and no cache. -/
theorem Held.of_state (hs : s.state = ⟨id, n, sz, treeHash id n c 0⟩) (hcache : s.verifiedBatchCache = none)
    (hM : treeMessages id n c ⊆ M) : Held M id n sz c s where
  storeId := congrArg EmbeddedTreeState.storeId hs
  pageCount := congrArg EmbeddedTreeState.pageCount hs
  logicalPageSize := congrArg EmbeddedTreeState.logicalPageSize hs
  root := congrArg EmbeddedTreeState.rootHash hs
  messages := hM
  cache cache hc := by
    rw [hcache] at hc
    cases hc

omit [PageStore S] in
theorem Held.state_eq (h : Held M id n sz c s) : s.state = ⟨id, n, sz, treeHash id n c 0⟩ := by
  unfold EmbeddedTreePageStore.state
  rw [h.storeId, h.pageCount, h.logicalPageSize, h.root]

omit [Sha256] in
/-- A tree that was opened has read nothing yet. -/
theorem fromState_cache {inner : S} {state : EmbeddedTreeState} (h : fromState inner state = .ok s) :
    s.verifiedBatchCache = none := by
  obtain ⟨l, -, hs⟩ := bind_result_ok h
  cases hs
  rfl

/-! ## The cache after a call -/

omit [PageStore S] in
theorem CacheVerified.mono {M' : Set Bytes} (h : CacheVerified M s) (hsub : M ⊆ M') : CacheVerified M' s := by
  intro cache hcache
  obtain ⟨paths, hver, hpages⟩ := h cache hcache
  exact ⟨paths, hver, hpages.trans hsub⟩

/-- A read touches the disk, and the cache when it ends well. -/
theorem readPaths_error {e : Error} (hrun : readPaths paths s = (.error e, t)) : ∃ inner, t = { s with inner } := by
  obtain ⟨inner, hs₁⟩ := readVerifiedPaths_inner paths s
  rcases hread : readVerifiedPaths paths s with ⟨e' | pages, s₁⟩ <;> rw [hread] at hs₁ <;> subst hs₁
  · rw [EmbeddedTreePageStore.readPaths, Eff.bind_error hread] at hrun
    cases hrun
    exact ⟨inner, rfl⟩
  · rw [EmbeddedTreePageStore.readPaths, Eff.bind_ok hread] at hrun
    cases hlogical : logicalPaths pages paths with
    | error e' =>
      rw [hlogical] at hrun
      cases hrun
      exact ⟨inner, rfl⟩
    | ok logical =>
      rw [hlogical] at hrun
      cases hrun

theorem writePaths_layout (paths : List (List Nat)) (logical : List (List Bytes)) (s : EmbeddedTreePageStore S) :
    (writePaths paths logical s).2.toEmbeddedLayout = s.toEmbeddedLayout ∧
      ((writePaths paths logical s).2.verifiedBatchCache = none ∨ (writePaths paths logical s).2 = s) := by
  by_cases hlen : paths.length = logical.length
  · by_cases hne : paths = []
    · have hsame : writePaths paths logical s = (.ok (), s) := by
        unfold writePaths
        rw [if_neg (not_not_intro hlen), if_pos (by simpa using hne)]
        rfl
      rw [hsame]
      exact ⟨rfl, .inr rfl⟩
    · rcases htake : takePages paths s with ⟨e | pages, s₁⟩
      · obtain ⟨inner, hs₁⟩ := takePages_inner paths s
        rw [htake] at hs₁
        subst hs₁
        have hsame : writePaths paths logical s = (.error e, { s with inner, verifiedBatchCache := none }) := by
          unfold writePaths
          rw [if_neg (not_not_intro hlen), if_neg (by simpa using hne), Eff.get_bind, Eff.bind_error htake]
        rw [hsame]
        exact ⟨rfl, .inl rfl⟩
      · obtain ⟨inner, hlast⟩ := writePaths_loop (s := s) hlen hne (by rw [htake])
        rw [hlast]
        exact ⟨rfl, .inl rfl⟩
  · have hsame : (writePaths paths logical s).2 = s := by
      unfold writePaths
      rw [if_pos hlen]
      rfl
    rw [hsame]
    exact ⟨rfl, .inr rfl⟩

/-- However a read ends, the cache was verified. -/
theorem readPaths_cache (h : CacheVerified M s) (hnotes : ∀ b ∈ readNotes paths s, b ∈ M) :
    (readPaths paths s).2.toEmbeddedLayout = s.toEmbeddedLayout ∧ CacheVerified M (readPaths paths s).2 := by
  rcases hrun : readPaths paths s with ⟨e | outs, t⟩
  · obtain ⟨inner, rfl⟩ := readPaths_error hrun
    refine ⟨rfl, fun cache hcache => ?_⟩
    obtain ⟨paths, hver, hpages⟩ := h cache hcache
    exact ⟨paths, ⟨hver.path, hver.mem, hver.verify⟩, hpages⟩
  · obtain ⟨pages, s₁, hread, hlast⟩ := Eff.bind_eq_ok hrun
    obtain ⟨logical, -, hlast⟩ := Eff.lift_bind_eq_ok hlast
    obtain ⟨inner, hs₁⟩ := readVerifiedPaths_inner paths s
    rw [hread] at hs₁
    subst hs₁
    cases hlast
    have hver := readVerifiedPaths_ok hread
    refine ⟨rfl, ?_⟩
    rintro cache ⟨⟩
    exact ⟨paths, ⟨hver.path, hver.mem, hver.verify⟩, hashed_of_readNotes hnotes pages _ hread⟩

theorem readPath_state (path : List Nat) (s : EmbeddedTreePageStore S) : (readPath path s).2 = (readPaths [path] s).2 := by
  unfold readPath
  rcases hrun : readPaths [path] s with ⟨e | outs, t⟩
  · rw [Eff.bind_error hrun]
  · rw [Eff.bind_ok hrun]
    rfl

/-- However a write ends, the cache was verified. -/
theorem writePaths_cache (h : CacheVerified M s) (paths : List (List Nat)) (logical : List (List Bytes)) :
    (writePaths paths logical s).2.toEmbeddedLayout = s.toEmbeddedLayout ∧ CacheVerified M (writePaths paths logical s).2 := by
  obtain ⟨hl, hnone | hsame⟩ := writePaths_layout paths logical s
  · refine ⟨hl, fun cache hcache => ?_⟩
    rw [hnone] at hcache
    cases hcache
  · exact ⟨hl, by rwa [hsame]⟩

/-! ## Calls -/

/-- A read that ends well returns the contents. -/
theorem Held.readPaths (h : Held M id n sz c s) (hM : Set.InjOn Sha256.digest M) (hnotes : ∀ b ∈ readNotes paths s, b ∈ M)
    {outs : List (List Bytes)} (hrun : readPaths paths s = (.ok outs, t)) :
    outs = paths.map (·.map c) ∧ Held M id n sz c t ∧ CacheCovers paths t := by
  have hhashed := hashed_of_readNotes hnotes
  have hcovers := (h.rooted hM).cacheCovers hM h.tree_subset hhashed hrun
  obtain ⟨rfl, hr, hl⟩ := readPaths_rooted (h.rooted hM) hM h.tree_subset hhashed hrun
  have hcache := (readPaths_cache h.cache hnotes).2
  rw [hrun] at hcache
  refine ⟨rfl, h.of_layout hl hr.root ?_ hcache, hcovers⟩
  rw [congrArg EmbeddedLayout.storeId hl, congrArg EmbeddedLayout.pageCount hl]
  exact h.tree_subset

/-- A write that ends well leaves the tree of what it wrote. -/
theorem Held.writePaths (h : Held M id n sz c s) (hM : Set.InjOn Sha256.digest M)
    (hnotes : ∀ b ∈ writeNotes paths logical s, b ∈ M) (hrun : writePaths paths logical s = (.ok (), t)) :
    Held M id n sz (overwrite c (TreeOverlay.turnWrites (paths.zip logical))) t := by
  have hhashed := hashed_of_writeNotes hnotes
  have hrooted := writePaths_rooted (h.rooted hM) hM h.tree_subset hhashed logical
  rw [turnsDone_ok hrun, hrun] at hrooted
  obtain ⟨hr, hl⟩ := hrooted
  by_cases hne : paths = []
  · subst hne
    unfold EmbeddedTreePageStore.writePaths at hrun
    split at hrun
    · cases hrun
    · cases hrun
      exact h
  · obtain ⟨pages, s₁, us, o, physical, htake, hloop, -, hdisk, -⟩ := writePaths_ok hne hrun
    obtain ⟨⟨inner, rfl⟩, hon⟩ := takePages_rooted (h.rooted hM) hM h.tree_subset hhashed htake
    obtain ⟨inner', -, rfl⟩ := Eff.zoom_eq_ok hdisk
    refine h.of_layout hl hr.root ?_ fun cache hcache => by cases hcache
    have hstart : TreeOverlay.On paths.flatten (treePage s.storeId s.pageCount c) (treeHash s.storeId s.pageCount c 0) []
        { pages, dirtyPages := ∅, rootHash := s.rootHash } := (h.rooted hM).root ▸ TreeOverlay.on_start hon
    have hturns : ∀ w ∈ paths.zip logical, ∀ i ∈ w.1, i ∈ paths.flatten := fun w hw i hi => mem_turn hw hi
    have haccepts := TreeOverlay.writeEach_accepts hloop
    obtain ⟨us', o', hloop', ho'⟩ := TreeOverlay.writeEach_ok haccepts hturns hstart
    have hsame := hloop.symm.trans hloop'
    cases hsame
    have hwritten := written_of_writeNotes hnotes htake
    unfold writtenPages at hwritten
    rw [hloop'] at hwritten
    rintro _ ⟨i, hi, rfl⟩
    -- a page of the new tree was written, or it is the old one
    by_cases hmem : i ∈ paths.flatten
    · exact hwritten ⟨i, _, ho'.pages i hmem, rfl⟩
    · have hold := treePage_turns (c := c) haccepts (i := i) fun w hw hiw => hmem (mem_turn hw hiw)
      exact h.tree_subset ⟨i, hi, congrArg (·.message s.storeId i) hold.symm⟩

end EmbeddedTreePageStore

/-! ## The tree that notes -/

open EmbeddedTreePageStore

/-- A tree, and the messages its calls went by so far. -/
structure NotedTree (S : Type) where
  tree : EmbeddedTreePageStore S
  noted : List Bytes

namespace NotedTree

variable {S α : Type}

/-- A call of the tree that notes its messages. -/
def noting (notes : EmbeddedTreePageStore S → List Bytes) (m : Eff Error (EmbeddedTreePageStore S) α) :
    Eff Error (NotedTree S) α :=
  fun x => ((m x.tree).1, { tree := (m x.tree).2, noted := notes x.tree ++ x.noted })

instance [PageStore S] [Sha256] : PathPageStore (NotedTree S) where
  pageSize x := PathPageStore.pageSize x.tree
  pageCount x := PathPageStore.pageCount x.tree
  readPathPages path := noting (readNotes [path]) (readPath path)
  writePathPages path pages := noting (writeNotes [path] [pages]) (writePath path pages)
  readPathsPages paths := noting (readNotes paths) (readPaths paths)
  writePathsPages paths pages := noting (writeNotes paths pages) (writePaths paths pages)
  embeddedTreeState x := some x.tree.state

end NotedTree

/-- A tree that goes by messages of `M` only. -/
structure GuardedTree (M : Set Bytes) (S : Type) where
  tree : EmbeddedTreePageStore S

namespace GuardedTree

variable {M : Set Bytes} {S α : Type}

open Classical in
/-- A call of the tree, unless it goes by a message outside `M`. -/
noncomputable def guarding (notes : EmbeddedTreePageStore S → List Bytes) (m : Eff Error (EmbeddedTreePageStore S) α) :
    Eff Error (GuardedTree M S) α := fun x =>
  if ∀ b ∈ notes x.tree, b ∈ M then ((m x.tree).1, { tree := (m x.tree).2 })
  else (.error (.panic "message outside the guard"), x)

noncomputable instance [PageStore S] [Sha256] : PathPageStore (GuardedTree M S) where
  pageSize x := PathPageStore.pageSize x.tree
  pageCount x := PathPageStore.pageCount x.tree
  readPathPages path := guarding (readNotes [path]) (readPath path)
  writePathPages path pages := guarding (writeNotes [path] [pages]) (writePath path pages)
  readPathsPages paths := guarding (readNotes paths) (readPaths paths)
  writePathsPages paths pages := guarding (writeNotes paths pages) (writePaths paths pages)
  embeddedTreeState x := some x.tree.state

theorem guarding_of {x : GuardedTree M S} {notes : EmbeddedTreePageStore S → List Bytes}
    {m : Eff Error (EmbeddedTreePageStore S) α}
    (h : ∀ b ∈ notes x.tree, b ∈ M) : guarding notes m x = ((m x.tree).1, { tree := (m x.tree).2 }) := if_pos h

theorem guarding_stops {x : GuardedTree M S} {notes : EmbeddedTreePageStore S → List Bytes}
    {m : Eff Error (EmbeddedTreePageStore S) α}
    (h : ¬ ∀ b ∈ notes x.tree, b ∈ M) : guarding notes m x = (.error (.panic "message outside the guard"), x) := if_neg h

/-! ## The contract -/

variable [PageStore S] [Sha256] {id : FixedBytes 16} {n sz : Nat} {c : Nat → Bytes} {x : GuardedTree M S}
  {paths : List (List Nat)}

variable (M S id n sz) in
/-- A read that fails leaves the contents; nothing is promised after a write that fails, which
    it does in an error of `Dead`. -/
def spec (Dead : Error → Prop) : PathSpec (GuardedTree M S) where
  Rep c x := Held M id n sz c x.tree
  Ready paths x := CacheCovers paths x.tree
  ReadFails _ := True
  WriteFails _ := False
  Dead := Dead

/-- The errors that end a write: the guard's, and those of the writes of the disk. -/
structure WriteErrors (S : Type) [PageStore S] (Dead : Error → Prop) : Prop where
  guard : Dead (.panic "message outside the guard")
  disk {idxs : List Nat} {pages : List Bytes} {inner inner' : S} {e : Error} :
    PageStore.writePages idxs pages inner = (.error e, inner') → Dead e

variable {Dead : Error → Prop}

theorem readPaths_outcome (hM : Set.InjOn Sha256.digest M) (h : Held M id n sz c x.tree) (paths : List (List Nat)) :
    (spec M S id n sz Dead).ReadOutcome c paths (paths.map (·.map c)) (guarding (readNotes paths) (readPaths paths) x) := by
  by_cases hnotes : ∀ b ∈ readNotes paths x.tree, b ∈ M
  · rw [guarding_of hnotes]
    rcases hrun : readPaths paths x.tree with ⟨e | outs, t⟩
    · obtain ⟨inner, rfl⟩ := readPaths_error hrun
      exact .failed trivial (h.onDisk inner)
    · obtain ⟨rfl, ht, hcovers⟩ := h.readPaths hM hnotes hrun
      exact .ok ht hcovers
  · rw [guarding_stops hnotes]
    exact .failed trivial h

theorem readPath_outcome (hM : Set.InjOn Sha256.digest M) (h : Held M id n sz c x.tree) (path : List Nat) :
    (spec M S id n sz Dead).ReadOutcome c [path] (path.map c) (guarding (readNotes [path]) (readPath path) x) := by
  have hpaths : (spec M S id n sz Dead).ReadOutcome c [path] [path.map c] _ := readPaths_outcome hM h [path]
  by_cases hnotes : ∀ b ∈ readNotes [path] x.tree, b ∈ M
  · rw [guarding_of hnotes] at hpaths ⊢
    unfold readPath
    rcases hrun : readPaths [path] x.tree with ⟨e | outs, t⟩ <;> rw [hrun] at hpaths
    · rw [Eff.bind_error hrun]
      cases hpaths with
      | failed he ht => exact .failed he ht
    · rw [Eff.bind_ok hrun]
      cases hpaths with
      | ok ht hready => exact .ok ht hready
  · rw [guarding_stops hnotes]
    exact .failed trivial h

theorem writePaths_outcome (hM : Set.InjOn Sha256.digest M) (hD : WriteErrors S Dead) (h : Held M id n sz c x.tree)
    (hcovers : CacheCovers paths x.tree) (hp : ∀ path ∈ paths, RootPath n path) {c' : Nat → Bytes}
    (hl : ∀ i ∈ paths.flatten, (c' i).length = sz) : (spec M S id n sz Dead).WriteOutcome c (patch paths.flatten c' c)
      (guarding (writeNotes paths (paths.map (·.map c'))) (writePaths paths (paths.map (·.map c'))) x) := by
  by_cases hnotes : ∀ b ∈ writeNotes paths (paths.map (·.map c')) x.tree, b ∈ M
  · rw [guarding_of hnotes]
    rcases hrun : writePaths paths (paths.map (·.map c')) x.tree with ⟨e | u, t⟩ <;> simp only [hrun]
    · rw [← h.pageCount] at hp
      rw [← h.logicalPageSize] at hl
      obtain ⟨_, _, _, _, hdisk⟩ := hcovers.writePaths_error (h.rooted hM) hp hl hrun
      exact .dead (hD.disk hdisk)
    · refine .ok ?_
      have ht := h.writePaths hM hnotes hrun
      rw [TreeOverlay.turnWrites_map, overwrite_zip] at ht
      exact ht
  · rw [guarding_stops hnotes]
    exact .dead hD.guard

variable (id n sz) in
/-- Guarded by messages that do not collide, a tree on any disk keeps the contract. -/
def contract (hM : Set.InjOn Sha256.digest M) (hD : WriteErrors S Dead) : PathContract (GuardedTree M S) n sz where
  toPathSpec := spec M S id n sz Dead
  shape h := ⟨h.pageCount, h.logicalPageSize⟩
  congr h hc := h.congr hc
  readPath h _ := readPath_outcome hM h _
  readPaths h _ _ := readPaths_outcome hM h _
  writePath := by
    intro c c' x path h hready hp hl
    have hone : [path].flatten = path := List.flatten_singleton
    have hone' : ∀ i ∈ [path].flatten, (c' i).length = sz := by rwa [hone]
    have hwrite := writePaths_outcome hM hD h hready (List.forall_mem_singleton.mpr hp) hone'
    rw [hone] at hwrite
    exact hwrite
  writePaths h hready _ hp hl := writePaths_outcome hM hD h hready hp hl

end GuardedTree

/-! ## The trees beside each other -/

namespace NotedTree

variable {S α : Type} {M : Set Bytes}

/-- Noted and not. -/
def Notes (s : EmbeddedTreePageStore S) (x : NotedTree S) : Prop := x.tree = s

/-- Noted and guarded, with all notes of `M`. -/
structure Within (x : NotedTree S) (y : GuardedTree M S) : Prop where
  tree : y.tree = x.tree
  noted : ∀ b ∈ x.noted, b ∈ M

variable (M) in
/-- A message outside `M` was noted. -/
def Outside (x : NotedTree S) : Prop := ∃ b ∈ x.noted, b ∉ M

theorem noting_notes (notes : EmbeddedTreePageStore S → List Bytes) (m : Eff Error (EmbeddedTreePageStore S) α) :
    Eff.UpTo Notes (fun _ => False) m (noting notes m) := by
  refine .of_sim (fun s x h => ?_) fun _ h => h
  rw [← show x.tree = s from h]
  exact ⟨rfl, rfl⟩

/-- A call that is noted goes as the guarded one goes, until a message outside is noted. -/
theorem noting_guarding (notes : EmbeddedTreePageStore S → List Bytes) (m : Eff Error (EmbeddedTreePageStore S) α) :
    Eff.UpTo (Within (M := M)) (Outside M) (noting notes m) (GuardedTree.guarding notes m) where
  stays := by
    rintro x ⟨b, hb, hout⟩
    exact ⟨b, List.mem_append_right _ hb, hout⟩
  agree x y h := by
    by_cases hnotes : ∀ b ∈ notes x.tree, b ∈ M
    · refine .inl ?_
      have hy : GuardedTree.guarding notes m y = ((m x.tree).1, { tree := (m x.tree).2 }) := by
        rw [← h.tree]
        exact if_pos (by rwa [h.tree])
      rw [hy]
      exact ⟨rfl, rfl, fun b hb => (List.mem_append.mp hb).elim (hnotes b) (h.noted b)⟩
    · refine .inr ?_
      push Not at hnotes
      obtain ⟨b, hb, hout⟩ := hnotes
      exact ⟨b, List.mem_append_left _ hb, hout⟩

variable [PageStore S] [Sha256]

theorem storeUpTo_notes : StoreUpTo (Notes (S := S)) fun _ => False where
  readPath _ := noting_notes _ _
  writePath _ _ := noting_notes _ _
  readPaths _ := noting_notes _ _
  writePaths _ _ := noting_notes _ _

theorem storeUpTo_guarded : StoreUpTo (Within (M := M) (S := S)) (Outside M) where
  readPath _ := noting_guarding _ _
  writePath _ _ := noting_guarding _ _
  readPaths _ := noting_guarding _ _
  writePaths _ _ := noting_guarding _ _

/-! ## What any call keeps -/

variable (M) in
/-- A tree of the layout `l` whose cache was verified, by messages of `M` or noted. -/
structure Sealed (l : EmbeddedLayout) (x : NotedTree S) : Prop where
  layout : x.tree.toEmbeddedLayout = l
  cache : CacheVerified (M ∪ { b | b ∈ x.noted }) x.tree

omit [PageStore S] in
theorem Sealed.noting {l : EmbeddedLayout} {notes : EmbeddedTreePageStore S → List Bytes}
    {m : Eff Error (EmbeddedTreePageStore S) α}
    (h : ∀ (N : Set Bytes) s, CacheVerified N s → (∀ b ∈ notes s, b ∈ N) →
      (m s).2.toEmbeddedLayout = s.toEmbeddedLayout ∧ CacheVerified N (m s).2) :
    Eff.Keeps (Sealed M l) (NotedTree.noting notes m) := by
  intro x hx
  have hsub : M ∪ { b | b ∈ x.noted } ⊆ M ∪ { b | b ∈ notes x.tree ++ x.noted } :=
    Set.union_subset_union_right M fun b hb => List.mem_append_right _ hb
  obtain ⟨hl, hcache⟩ := h _ x.tree (hx.cache.mono hsub) fun b hb => .inr (List.mem_append_left _ hb)
  exact ⟨hl.trans hx.layout, hcache⟩

/-- Beside nothing, and nothing is bad. -/
theorem storeUpTo_kept : StoreUpTo (fun (_ : NotedTree S) (_ : NotedTree S) => False) fun _ => False where
  readPath _ := ⟨fun _ h => h, fun _ _ h => h.elim⟩
  writePath _ _ := ⟨fun _ h => h, fun _ _ h => h.elim⟩
  readPaths _ := ⟨fun _ h => h, fun _ _ h => h.elim⟩
  writePaths _ _ := ⟨fun _ h => h, fun _ _ h => h.elim⟩

/-- Beside nothing: what is left is that a tree stays sealed. -/
theorem storeUpTo_sealed (l : EmbeddedLayout) : StoreUpTo (fun (_ : NotedTree S) (_ : NotedTree S) => False) (Sealed M l) where
  readPath path :=
    ⟨Sealed.noting fun N s h hnotes => by rw [readPath_state]; exact readPaths_cache h hnotes, fun _ _ h => h.elim⟩
  writePath path pages := ⟨Sealed.noting fun N s h _ => writePaths_cache h [path] [pages], fun _ _ h => h.elim⟩
  readPaths paths := ⟨Sealed.noting fun N s h hnotes => readPaths_cache h hnotes, fun _ _ h => h.elim⟩
  writePaths paths pages := ⟨Sealed.noting fun N s h _ => writePaths_cache h paths pages, fun _ _ h => h.elim⟩

end NotedTree
end BpirOram
