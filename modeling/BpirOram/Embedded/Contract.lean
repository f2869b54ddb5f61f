/-
  BpirOram.Embedded.Contract — an embedded tree as a store of paths.

  Over a disk that is atomic the tree keeps the contract of a path store. A read fails with the
  disk and leaves everything; a write that fails with the disk may have moved the root, and
  then nothing is promised.
-/

import BpirOram.Embedded.Rebuild
import BpirOram.Faults

namespace BpirOram

open Lib

theorem TreeOverlay.turnWrites_map (paths : List (List Nat)) (c' : Nat → Bytes) :
    turnWrites (paths.zip (paths.map (·.map c'))) = paths.flatten.zip (paths.flatten.map c') := by
  induction paths with
  | nil => rfl
  | cons path paths ih =>
    unfold turnWrites at ih
    rw [turnWrites, List.map_cons, List.zip_cons_cons, List.map_cons, List.flatten_cons, ih, List.flatten_cons, List.map_append,
      List.zip_append (List.length_map _).symm]

theorem TreeOverlay.accepts_map {l : EmbeddedLayout} {paths : List (List Nat)} {c' : Nat → Bytes}
    (hp : ∀ path ∈ paths, RootPath l.pageCount path) (hl : ∀ i ∈ paths.flatten, (c' i).length = l.logicalPageSize) :
    ∀ w ∈ paths.zip (paths.map (·.map c')), TreeOverlay.Accepts l w.1 w.2 := by
  intro w hw
  obtain ⟨hpath, hpages⟩ := List.of_mem_zip hw
  obtain ⟨k, hk, rfl⟩ := List.getElem_of_mem hw
  rw [List.getElem_zip] at hpath ⊢
  rw [List.getElem_map]
  refine ⟨(List.length_map _).symm, hp _ hpath, fun page hpage => ?_⟩
  obtain ⟨i, hi, rfl⟩ := List.mem_map.mp hpage
  exact hl i (List.mem_flatten.mpr ⟨_, hpath, hi⟩)

namespace EmbeddedTreePageStore

variable {S : Type} [PageStore S] [Sha256] {A : AtomicStore S} {storeId : FixedBytes 16} {n sz : Nat} {c c' : Nat → Bytes}
  {s : EmbeddedTreePageStore S} {paths : List (List Nat)}

/-- A tree of `n` pages of `sz` bytes that stands for `c` up to its last page. -/
structure Represents (A : AtomicStore S) (storeId : FixedBytes 16) (n sz : Nat) (c : Nat → Bytes)
    (s : EmbeddedTreePageStore S) : Prop where
  storeId : s.storeId = storeId
  pageCount : s.pageCount = n
  logicalPageSize : s.logicalPageSize = sz
  stands : ∃ d, Stands A d s ∧ ∀ i < n, d i = c i

theorem Represents.congr (h : Represents A storeId n sz c s) (hc : ∀ i < n, c i = c' i) : Represents A storeId n sz c' s := by
  obtain ⟨d, hd, hdc⟩ := h.stands
  exact { h with stands := ⟨d, hd, fun i hi => (hdc i hi).trans (hc i hi)⟩ }

/-- The trusted root is that of the pages. -/
theorem Represents.rootHash (h : Represents A storeId n sz c s) : s.rootHash = treeHash storeId n c 0 := by
  obtain ⟨d, hd, hdc⟩ := h.stands
  rw [hd.root, h.storeId, h.pageCount]
  exact treeHash_congr hdc 0

theorem Represents.state_eq (h : Represents A storeId n sz c s) : s.state = ⟨storeId, n, sz, treeHash storeId n c 0⟩ := by
  unfold EmbeddedTreePageStore.state
  rw [h.storeId, h.pageCount, h.logicalPageSize, h.rootHash]

/-- The same layout, and other pages. -/
theorem Represents.of_stands (h : Represents A storeId n sz c s) {t : EmbeddedTreePageStore S}
    (hl : t.toEmbeddedLayout = s.toEmbeddedLayout)
    {d : Nat → Bytes} (hd : Stands A d t) (hdc : ∀ i < n, d i = c' i) : Represents A storeId n sz c' t where
  storeId := (congrArg EmbeddedLayout.storeId hl).trans h.storeId
  pageCount := (congrArg EmbeddedLayout.pageCount hl).trans h.pageCount
  logicalPageSize := (congrArg EmbeddedLayout.logicalPageSize hl).trans h.logicalPageSize
  stands := ⟨d, hd, hdc⟩

/-- A read of paths of the tree. -/
theorem Represents.readPaths (h : Represents A storeId n sz c s) (hp : ∀ path ∈ paths, RootPath n path) :
    Answer (Represents A storeId n sz) A.Fails c c (paths.map (·.map c)) (EmbeddedTreePageStore.readPaths paths s) := by
  obtain ⟨d, hd, hdc⟩ := h.stands
  have hpages : paths.map (·.map d) = paths.map (·.map c) :=
    List.map_congr_left fun path hpath => List.map_congr_left fun i hi => hdc i ((hp path hpath).lt i hi)
  rcases hd.read paths with ⟨t, hrun, ht, hl⟩ | ⟨e, inner, hrun, hdisk, he⟩
  · rw [hrun, hpages]
    exact .ok (h.of_stands hl ht hdc)
  · rw [hrun]
    refine .failed (he.resolve_right (not_not_intro ?_)) (h.of_stands rfl ⟨⟨hd.root, hd.cache⟩, hdisk⟩ hdc)
    rwa [h.pageCount]

/-- A write of paths of the tree: done, or stopped with the disk. -/
theorem Represents.writePaths (h : Represents A storeId n sz c s) (hp : ∀ path ∈ paths, RootPath n path)
    (hl : ∀ i ∈ paths.flatten, (c' i).length = sz) :
    (∃ e, (EmbeddedTreePageStore.writePaths paths (paths.map (·.map c')) s).1 = .error e ∧ A.Fails e) ∨
      ∃ t, EmbeddedTreePageStore.writePaths paths (paths.map (·.map c')) s = (.ok (), t) ∧
        Represents A storeId n sz (patch paths.flatten c' c) t := by
  obtain ⟨d, hd, hdc⟩ := h.stands
  have hp' : ∀ path ∈ paths, RootPath s.pageCount path := by rwa [h.pageCount]
  have ha : ∀ w ∈ paths.zip (paths.map (·.map c')), TreeOverlay.Accepts s.toEmbeddedLayout w.1 w.2 :=
    TreeOverlay.accepts_map hp' (by rwa [h.logicalPageSize])
  have hwrote := hd.write paths (paths.map (·.map c'))
  generalize EmbeddedTreePageStore.writePaths paths (paths.map (·.map c')) s = r at hwrote
  cases hwrote with
  | done _ ht hlayout =>
    refine .inr ⟨_, rfl, h.of_stands hlayout ht fun i hi => ?_⟩
    rw [TreeOverlay.turnWrites_map, overwrite_zip]
    simp only [patch, hdc i hi]
  | @declined e _ he =>
    refine .inl ⟨e, rfl, ?_⟩
    rcases he with hlen | he | hinvalid
    · exact absurd (List.length_map _).symm hlen
    · exact he
    · exact absurd hp' hinvalid
  | @stopped e _ he => exact .inl ⟨e, rfl, he.resolve_right (not_not_intro ha)⟩

theorem Represents.readPath (h : Represents A storeId n sz c s) {path : List Nat} (hp : RootPath n path) :
    Answer (Represents A storeId n sz) A.Fails c c (path.map c) (EmbeddedTreePageStore.readPath path s) :=
  (h.readPaths (List.forall_mem_singleton.mpr hp : ∀ q ∈ [path], RootPath n q)).bind_lift rfl

variable (A storeId n sz) in
/-- Nothing is promised after a write that the disk failed. -/
def spec : PathSpec (EmbeddedTreePageStore S) where
  Rep := Represents A storeId n sz
  Ready _ _ := True
  ReadFails := A.Fails
  WriteFails := A.Fails
  Dead := A.Fails

theorem Represents.writeOutcome (h : Represents A storeId n sz c s) (hp : ∀ path ∈ paths, RootPath n path)
    (hl : ∀ i ∈ paths.flatten, (c' i).length = sz) : (spec A storeId n sz).WriteOutcome c (patch paths.flatten c' c)
      (EmbeddedTreePageStore.writePaths paths (paths.map (·.map c')) s) := by
  rcases h.writePaths hp hl with ⟨e, hrun, he⟩ | ⟨t, hrun, ht⟩
  · rw [Eff.run_eq hrun]
    exact .dead he
  · rw [hrun]
    exact .ok ht

variable (A storeId n sz) in
def contract : PathContract (EmbeddedTreePageStore S) n sz where
  toPathSpec := spec A storeId n sz
  shape h := ⟨h.pageCount, h.logicalPageSize⟩
  congr h hc := h.congr hc
  readPath h hp := (h.readPath hp).readOutcome (fun _ ht => ⟨ht, trivial⟩) fun _ he => he
  readPaths h _ hp := (h.readPaths hp).readOutcome (fun _ ht => ⟨ht, trivial⟩) fun _ he => he
  writePath := by
    intro c c' s path h _ hp hl
    have hone : [path].flatten = path := List.flatten_singleton
    have hone' : ∀ i ∈ [path].flatten, (c' i).length = sz := by rwa [hone]
    have hwrite := Represents.writeOutcome h (List.forall_mem_singleton.mpr hp) hone'
    rw [hone] at hwrite
    exact hwrite
  writePaths h _ _ hp hl := h.writeOutcome hp hl

end EmbeddedTreePageStore
end BpirOram
