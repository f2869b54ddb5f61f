/-
  BpirOram.Embedded.Refused — a write of the embedded tree that fails.

  `write_paths` moves the root path by path and writes the disk at its end. So a write that
  stops on the way keeps the root of the paths it had done, over a disk without their pages.
  - `Reached.write_failed`: the disk is as it was; the store stands exactly when the paths done
    rewrote what was there, and otherwise no page can be read again, whatever calls follow,
    until it is reopened with the root of before.
  - `Steady.write_atomic_iff`: also after failed writes of that first kind, a write that fails
    is atomic exactly when it is of that kind.
-/

import BpirOram.Embedded.Rebuild

namespace BpirOram

open Lib

/-- Trees with one root hash are of the same contents, unless two of their messages collide. -/
theorem treeHash_inj [Sha256] {storeId : FixedBytes 16} {n : Nat} {c c' : Nat → Bytes} {M : Set Bytes}
    (hM : Set.InjOn Sha256.digest M) (htree : treeMessages storeId n c ⊆ M) (htree' : treeMessages storeId n c' ⊆ M)
    (h : treeHash storeId n c 0 = treeHash storeId n c' 0) : ∀ i < n, c i = c' i := by
  have hpage : ∀ i < n, treeHash storeId n c i = treeHash storeId n c' i → treePage storeId n c i = treePage storeId n c' i :=
    fun i hi heq => treePage_of_hash hM htree' hi (htree ⟨i, hi, rfl⟩) ((treeHash_page hi).symm.trans heq)
  have hhash : ∀ i < n, treeHash storeId n c i = treeHash storeId n c' i := by
    intro i
    induction i using Nat.strong_induction_on with
    | _ i ih =>
      intro hi
      by_cases h0 : i = 0
      · rw [h0]
        exact h
      · have hchild : IsChild ((i - 1) / 2) i := by
          unfold IsChild
          omega
        have hparent : (i - 1) / 2 < n := by omega
        have hsame := hpage _ hparent (ih _ (by omega) hparent)
        have hleft : (treePage storeId n c ((i - 1) / 2)).childHash ((i - 1) / 2) i = .ok (treeHash storeId n c i) :=
          treePage_childHash hchild
        rw [hsame, treePage_childHash hchild, Except.ok.injEq] at hleft
        exact hleft.symm
  exact fun i hi => congrArg EmbeddedPage.logical (hpage i hi (hhash i hi))

namespace EmbeddedTreePageStore

section
variable {S : Type} [PageStore S] [Sha256] {A : AtomicStore S} {c : Nat → Bytes} {s t : EmbeddedTreePageStore S}
  {paths : List (List Nat)}

/-! ## A root ahead of its disk -/

/-- The disk has the tree of `c`, the root is another one and no pages are kept. -/
structure Ahead (A : AtomicStore S) (c : Nat → Bytes) (s : EmbeddedTreePageStore S) : Prop where
  disk : OnDisk A s.toEmbeddedLayout c s.inner
  root : s.rootHash ≠ treeHash s.storeId s.pageCount c 0
  cache : ∀ cache ∈ s.verifiedBatchCache, ∀ i : Nat, cache.pages[i]? = none

/-- No path is authenticated from a root that is not the tree's. -/
theorem Ahead.fetch (h : Ahead A c s) (hne : paths ≠ []) :
    ∃ e inner, readVerifiedPaths paths s = (.error e, { s with inner }) ∧ OnDisk A s.toEmbeddedLayout c inner := by
  have hfetch := h.disk.fetched hne
  generalize readVerifiedPaths paths s = r at hfetch ⊢
  cases hfetch with
  | refused _ => exact ⟨_, s.inner, rfl, h.disk⟩
  | failed _ _ hdisk => exact ⟨_, _, rfl, hdisk⟩
  | @pages pages inner hvalid hdisk hin _ =>
    cases hverify : verifyPaths s.storeId pages s.rootHash paths with
    | error e => exact ⟨e, inner, rfl, hdisk⟩
    | ok u =>
      exfalso
      obtain ⟨path, hpath⟩ := List.exists_mem_of_ne_nil paths hne
      obtain ⟨rest, rfl⟩ := RootPath.eq_cons (hvalid path hpath)
      obtain ⟨page, hpage, hhash, -⟩ := verifyPathFromPages_cons.mp (verifyPaths_iff.mp hverify _ hpath)
      rw [hin 0 (List.mem_flatten.mpr ⟨_, hpath, List.mem_cons_self⟩)] at hpage
      cases hpage
      exact h.root (hhash.symm.trans (treeHash_page s.pageCount_pos).symm)

theorem Ahead.read (h : Ahead A c s) (paths : List (List Nat)) :
    Ahead A c (readPaths paths s).2 ∧ (paths ≠ [] → ∃ e, (readPaths paths s).1 = .error e) := by
  by_cases hne : paths = []
  · subst hne
    refine ⟨⟨h.disk, h.root, ?_⟩, fun h => absurd rfl h⟩
    rintro cache ⟨⟩ i
    exact Std.TreeMap.getElem?_emptyc
  · obtain ⟨e, inner, hrun, hdisk⟩ := h.fetch hne
    have hread : readPaths paths s = (.error e, { s with inner }) := Eff.bind_error hrun
    rw [hread]
    exact ⟨⟨hdisk, h.root, h.cache⟩, fun _ => ⟨e, rfl⟩⟩

theorem Ahead.take (h : Ahead A c s) (hne : paths ≠ []) :
    (∃ e inner, takePages paths s = (.error e, { s with inner, verifiedBatchCache := none }) ∧
      OnDisk A s.toEmbeddedLayout c inner) ∨
      paths.flatten = [] ∧ ∃ pages, takePages paths s = (.ok pages, { s with verifiedBatchCache := none }) := by
  have hnone : Ahead A c { s with verifiedBatchCache := none } := ⟨h.disk, h.root, fun cache hc => by cases hc⟩
  obtain ⟨e, inner, hcold, hdisk⟩ := hnone.fetch hne
  unfold takePages
  rw [Eff.get_bind, Eff.modify_bind]
  cases hcache : s.verifiedBatchCache with
  | none => exact .inl ⟨e, inner, hcold, hdisk⟩
  | some cache =>
    simp only
    split
    · rename_i hwarm
      refine .inr ⟨List.eq_nil_iff_forall_not_mem.mpr fun i hi => ?_, cache.pages, rfl⟩
      obtain ⟨page, hpage⟩ := cacheCoversPaths_iff.mp hwarm.2 i hi
      rw [h.cache cache hcache i] at hpage
      cases hpage
    · exact .inl ⟨e, inner, hcold, hdisk⟩

theorem Ahead.write (h : Ahead A c s) (paths : List (List Nat)) (logical : List (List Bytes)) :
    Ahead A c (writePaths paths logical s).2 ∧ (paths ≠ [] → ∃ e, (writePaths paths logical s).1 = .error e) := by
  by_cases hlen : paths.length = logical.length
  swap
  · have hrun : writePaths paths logical s
        = (.error (.invalidInput s!"path count {paths.length} != logical path count {logical.length}"), s) := by
      unfold writePaths
      rw [if_pos hlen]
      rfl
    rw [hrun]
    exact ⟨h, fun _ => ⟨_, rfl⟩⟩
  by_cases hne : paths = []
  · subst hne
    have hrun : writePaths [] logical s = (.ok (), s) := by
      unfold writePaths
      rw [if_neg (not_not_intro hlen)]
      rfl
    rw [hrun]
    exact ⟨h, fun h => absurd rfl h⟩
  rcases h.take hne with ⟨e, inner, htake, hdisk⟩ | ⟨hnil, pages, htake⟩
  · have hrun : writePaths paths logical s = (.error e, { s with inner, verifiedBatchCache := none }) := by
      unfold writePaths
      rw [if_neg (not_not_intro hlen), if_neg (by simpa using hne), Eff.get_bind, Eff.bind_error htake]
    rw [hrun]
    exact ⟨⟨hdisk, h.root, fun cache hc => by cases hc⟩, fun _ => ⟨e, rfl⟩⟩
  · -- the paths are all empty, and the first is refused
    obtain ⟨e, o, hloop, hroot⟩ : ∃ e o,
      Eff.forEach (fun w => TreeOverlay.writePath s.toEmbeddedLayout w.1 w.2) (paths.zip logical)
        { pages, dirtyPages := ∅, rootHash := s.rootHash } = (.error e, o) ∧ o.rootHash = s.rootHash := by
      obtain ⟨path, paths', rfl⟩ := List.exists_cons_of_ne_nil hne
      obtain ⟨l, logical', rfl⟩ := List.exists_cons_of_length_eq_add_one hlen.symm
      rcases hturn : TreeOverlay.writePath s.toEmbeddedLayout path l { pages, dirtyPages := ∅, rootHash := s.rootHash }
        with ⟨e | ⟨⟩, o⟩
      · exact ⟨e, o, Eff.forEach_error_head hturn, TreeOverlay.writePath_error hturn⟩
      · refine absurd (List.append_eq_nil_iff.mp hnil).1 (RootPath.ne_nil (TreeOverlay.writePath_accepts hturn).path)
    have hover := onOverlay_run pages
      (Eff.forEach (fun w => TreeOverlay.writePath s.toEmbeddedLayout w.1 w.2) (paths.zip logical))
      { s with verifiedBatchCache := none }
    rw [hloop, hroot] at hover
    have hrun : writePaths paths logical s = (.error e, { s with verifiedBatchCache := none }) := by
      unfold writePaths
      rw [if_neg (not_not_intro hlen), if_neg (by simpa using hne), Eff.get_bind, Eff.bind_ok htake, Eff.bind_error hover]
    rw [hrun]
    exact ⟨⟨h.disk, h.root, fun cache hc => by cases hc⟩, fun _ => ⟨e, rfl⟩⟩

/-- The calls that may follow. -/
inductive Later : EmbeddedTreePageStore S → EmbeddedTreePageStore S → Prop
  | refl {s : EmbeddedTreePageStore S} : Later s s
  | read {s t : EmbeddedTreePageStore S} (paths : List (List Nat)) : Later s t → Later s (readPaths paths t).2
  | write {s t : EmbeddedTreePageStore S} (paths : List (List Nat)) (logical : List (List Bytes)) :
      Later s t → Later s (writePaths paths logical t).2

theorem Ahead.later (h : Ahead A c s) (hl : Later s t) : Ahead A c t := by
  induction hl with
  | refl => exact h
  | read paths _ ih => exact (ih.read paths).1
  | write paths logical _ ih => exact (ih.write paths logical).1

/-! ## A write that fails -/

/-- What a write that failed leaves: every page on disk, and the root of the turns done. If they
    changed a page, no later call but a reopening reads one. -/
theorem Reached.write_failed (h : Reached A s c) {M : Set Bytes} (hM : Set.InjOn Sha256.digest M)
    (htree : treeMessages s.storeId s.pageCount c ⊆ M) {logical : List (List Bytes)}
    (htree' : treeMessages s.storeId s.pageCount (overwrite c (TreeOverlay.turnWrites (turnsDone paths logical s))) ⊆ M)
    {e : Error}
    (hrun : writePaths paths logical s = (.error e, t)) :
    OnDisk A s.toEmbeddedLayout c t.inner ∧
    t.rootHash = treeHash s.storeId s.pageCount (overwrite c (TreeOverlay.turnWrites (turnsDone paths logical s))) 0 ∧
    (Stands A c t ↔ ∀ i < s.pageCount, overwrite c (TreeOverlay.turnWrites (turnsDone paths logical s)) i = c i) ∧
    (¬ Stands A c t → ∀ u, Later t u → ∀ reads, reads ≠ [] → ∃ e, (readPaths reads u).1 = .error e) ∧
    ∀ u, fromState t.inner s.state = .ok u → Stands A c u := by
  replace h := h.stands
  have hwrote := h.write paths logical
  rw [hrun] at hwrote
  have hback : ∀ inner, OnDisk A s.toEmbeddedLayout c inner → ∀ u, fromState inner s.state = .ok u → Stands A c u :=
    fun inner hdisk u hu => h.reopened hdisk hu
  cases hwrote with
  | declined _ ht hl hdone =>
    have hstay : overwrite c (TreeOverlay.turnWrites (turnsDone paths logical s)) = c := by rw [hdone]; rfl
    have hdisk := ht.disk
    have hroot := ht.root
    rw [hl] at hdisk hroot
    rw [hstay]
    exact ⟨hdisk, hroot, iff_of_true ht fun _ _ => rfl, fun hn => absurd ht hn, hback _ hdisk⟩
  | @stopped _ inner _ hdisk =>
    refine ⟨hdisk, rfl, ⟨fun ht => treeHash_inj hM htree' htree ht.root, fun hsame => ?_⟩, fun hn u hu reads hne => ?_,
      hback _ hdisk⟩
    · exact ⟨⟨treeHash_congr hsame 0, fun cache hc => by cases hc⟩, hdisk⟩
    · have hahead : Ahead A c { s with
          inner, verifiedBatchCache := none
          rootHash := treeHash s.storeId s.pageCount (overwrite c (TreeOverlay.turnWrites (turnsDone paths logical s))) 0 } :=
        ⟨hdisk, fun hroot => hn ⟨⟨hroot, fun cache hc => by cases hc⟩, hdisk⟩, fun cache hc => by cases hc⟩
      exact ((hahead.later hu).read reads).2 hne

/-! ## Writes that fail and change nothing -/

/-- The turns that a write does write what the pages hold. -/
def WritesNothing (c : Nat → Bytes) (paths : List (List Nat)) (logical : List (List Bytes)) (s : EmbeddedTreePageStore S) :
    Prop :=
  ∀ i < s.pageCount, overwrite c (TreeOverlay.turnWrites (turnsDone paths logical s)) i = c i

/-- A run over an atomic disk in which a write that fails has done no turn that changes a page. -/
inductive Steady (A : AtomicStore S) : EmbeddedTreePageStore S → (Nat → Bytes) → Prop
  | reached {s : EmbeddedTreePageStore S} {c : Nat → Bytes} : Reached A s c → Steady A s c
  | read {s : EmbeddedTreePageStore S} {c : Nat → Bytes} (paths : List (List Nat)) :
      Steady A s c → Steady A (readPaths paths s).2 c
  | write {s t : EmbeddedTreePageStore S} {c : Nat → Bytes} (paths : List (List Nat)) (logical : List (List Bytes)) :
      Steady A s c → writePaths paths logical s = (.ok (), t) →
      Steady A t (overwrite c (TreeOverlay.turnWrites (paths.zip logical)))
  | failed {s t : EmbeddedTreePageStore S} {c : Nat → Bytes} {e : Error} (paths : List (List Nat))
      (logical : List (List Bytes)) : Steady A s c → writePaths paths logical s = (.error e, t) →
      WritesNothing c paths logical s → Steady A t c
  | reopen {s t : EmbeddedTreePageStore S} {c : Nat → Bytes} {inner : S} : Steady A s c →
      (∀ n sz d, A.Holds n sz d s.inner → A.Holds n sz d inner) → fromState inner s.state = .ok t → Steady A t c

/-- A failed write keeps the tree when its turns wrote what was there. -/
theorem Stands.after_failed (h : Stands A c s) {logical : List (List Bytes)} {e : Error}
    (hrun : writePaths paths logical s = (.error e, t)) (hsame : WritesNothing c paths logical s) :
    Stands A c t ∧ t.toEmbeddedLayout = s.toEmbeddedLayout := by
  have hwrote := h.write paths logical
  rw [hrun] at hwrote
  cases hwrote with
  | declined _ ht hl _ => exact ⟨ht, hl⟩
  | stopped _ hdisk => exact ⟨⟨⟨treeHash_congr hsame 0, fun cache hc => by cases hc⟩, hdisk⟩, rfl⟩

theorem Steady.stands (h : Steady A s c) : Stands A c s := by
  induction h with
  | reached h => exact h.stands
  | read paths _ ih => exact ih.after_read paths
  | write paths logical _ hrun ih => exact ih.after_write hrun
  | failed paths logical _ hrun hsame ih => exact (ih.after_failed hrun hsame).1
  | reopen _ hcopy hopen ih =>
    obtain ⟨d, hd, hpage⟩ := ih.disk
    exact ih.reopened ⟨d, hcopy _ _ _ hd, hpage⟩ hopen

/-- A failed write whose turns wrote what was there leaves root and pages, and every path as
    readable as before; any other moves the root. -/
theorem Steady.write_atomic_iff (h : Steady A s c) {logical : List (List Bytes)} {e : Error}
    (hrun : writePaths paths logical s = (.error e, t)) :
    (WritesNothing c paths logical s → SameTree A s t ∧ ∀ reads, (∀ path ∈ reads, RootPath t.pageCount path) →
      (readPaths reads t).1 = .ok (reads.map (·.map c)) ∨ ∃ e, (readPaths reads t).1 = .error e ∧ A.Fails e) ∧
    ∀ M, Set.InjOn Sha256.digest M → treeMessages s.storeId s.pageCount c ⊆ M →
      treeMessages s.storeId s.pageCount (overwrite c (TreeOverlay.turnWrites (turnsDone paths logical s))) ⊆ M →
      (SameTree A s t ↔ WritesNothing c paths logical s) := by
  have hs := h.stands
  have hkept : WritesNothing c paths logical s → SameTree A s t := fun hsame =>
    have ⟨ht, hl⟩ := hs.after_failed hrun hsame
    hs.sameTree ht hl.symm fun _ _ => rfl
  refine ⟨fun hsame => ⟨hkept hsame, fun reads hvalid => (hs.after_failed hrun hsame).1.reads hvalid⟩,
    fun M hM htree htree' => ⟨fun ht => ?_, hkept⟩⟩
  have hwrote := hs.write paths logical
  rw [hrun] at hwrote
  cases hwrote with
  | declined _ _ _ hdone =>
    intro i _
    rw [hdone]
    rfl
  | stopped _ _ => exact treeHash_inj hM htree' htree (ht.2.1.symm.trans hs.root)

end

section
local instance : Sha256 := smallSha256

/-- The second of two paths is refused, its page is too long. -/
def smallTreeStopped : EmbeddedTreePageStore MemPageStore := (writePaths [[0], [0, 1]] [[[5]], [[6], [7, 7]]] smallTree).2

def stoppedMessages : List Bytes := [smallTreeContents, overwrite smallTreeContents [(0, [5])]].flatMap fun c =>
  (List.range 3).map fun i => (treePage (FixedBytes.zero 16) 3 c i).message (FixedBytes.zero 16) i

theorem Reached.write_failed_smallTree : ¬ Stands MemPageStore.honest.atomic smallTreeContents smallTreeStopped ∧
    ∀ u, Later smallTreeStopped u → ∀ reads, reads ≠ [] → ∃ e, (readPaths reads u).1 = .error e := by
  have hid : smallTree.storeId = FixedBytes.zero 16 ∧ smallTree.pageCount = 3 := by decide +kernel
  have hinj : Set.InjOn Sha256.digest { b | b ∈ stoppedMessages } := fun a ha b hb =>
    (by decide +kernel :
      ∀ a ∈ stoppedMessages, ∀ b ∈ stoppedMessages, Sha256.digest a = Sha256.digest b → a = b) a ha b hb
  have htree : ∀ c ∈ [smallTreeContents, overwrite smallTreeContents [(0, [5])]],
      treeMessages smallTree.storeId smallTree.pageCount c ⊆ { b | b ∈ stoppedMessages } := by
    rw [hid.1, hid.2]
    rintro c hc _ ⟨i, hi, rfl⟩
    exact List.mem_flatMap.mpr ⟨c, hc, List.mem_map_of_mem (List.mem_range.mpr hi)⟩
  have hdone : TreeOverlay.turnWrites (turnsDone [[0], [0, 1]] [[[5]], [[6], [7, 7]]] smallTree) = [(0, [5])] := by decide +kernel
  have hok : (writePaths [[0], [0, 1]] [[[5]], [[6], [7, 7]]] smallTree).1
      = .error (.invalidInput "logical page len 2 != expected 1") := by decide +kernel
  have htree' := htree _ (List.mem_cons_of_mem _ List.mem_cons_self)
  rw [← hdone] at htree'
  have hrun : writePaths [[0], [0, 1]] [[[5]], [[6], [7, 7]]] smallTree
      = (.error (.invalidInput "logical page len 2 != expected 1"), smallTreeStopped) := by
    rw [smallTreeStopped]
    exact Eff.run_eq hok
  obtain ⟨-, -, hstands, hlocked, -⟩ :=
    Reached.write_failed smallTree_reached hinj (htree _ List.mem_cons_self) htree' hrun
  have hnot : ¬ Stands MemPageStore.honest.atomic smallTreeContents smallTreeStopped := fun hs => by
    have hsame := hstands.mp hs 0 (by rw [hid.2]; decide)
    rw [hdone] at hsame
    exact absurd hsame (by decide +kernel)
  exact ⟨hnot, hlocked hnot⟩

/-- The second of two paths is refused; the first wrote the byte that was there. -/
theorem Steady.write_atomic_iff_smallTree :
    ∃ t, writePaths [[0], [0, 1]] [[[0]], [[6], [7, 7]]] smallTree
        = (.error (.invalidInput "logical page len 2 != expected 1"), t) ∧
      SameTree MemPageStore.honest.atomic smallTree t := by
  obtain ⟨t, hrun⟩ := Eff.run_of_result (show (writePaths [[0], [0, 1]] [[[0]], [[6], [7, 7]]] smallTree).1
    = .error (.invalidInput "logical page len 2 != expected 1") by decide +kernel)
  have hcount : smallTree.pageCount = 3 := by decide +kernel
  have hnothing : WritesNothing smallTreeContents [[0], [0, 1]] [[[0]], [[6], [7, 7]]] smallTree := by
    unfold WritesNothing
    rw [hcount]
    decide +kernel
  exact ⟨t, hrun, ((Steady.reached smallTree_reached).write_atomic_iff hrun).1 hnothing |>.1⟩

/-- The second of two paths is refused after the root has moved for the first: no path can be read. -/
theorem write_paths_not_atomic :
    (readPaths [[0, 1], [0, 2]] smallTree).1.toOption = some [[[0], [0]], [[0], [0]]] ∧
    (writePaths [[0], [0, 1]] [[[5]], [[6], [7, 7]]] smallTree).1
      = .error (.invalidInput "logical page len 2 != expected 1") ∧
    (writePaths [[0], [0, 1]] [[[5]], [[6], [7, 7]]] smallTree).2.rootHash ≠ smallTree.rootHash ∧
    (readPaths [[0, 1], [0, 2]] (writePaths [[0], [0, 1]] [[[5]], [[6], [7, 7]]] smallTree).2).1.toOption = none := by
  decide +kernel

end
end EmbeddedTreePageStore
end BpirOram
