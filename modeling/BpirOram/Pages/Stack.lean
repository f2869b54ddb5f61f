/-
  BpirOram.Pages.Stack — page stores on top of one another, down to a file.

  A stack is a list of layers, each a front cache or a sealing. Its pages are computed from
  its state (`Stack.page`), and what it shows is these (`Stack.shows_iff`).
  - `Stack.bulk_is_loop`: where the pages of the file fit 64 bits, then whatever the layers,
    calls on several pages are the loops over calls on one, in result and in the pages they
    leave; a file whose pages do not fit is opened too, and there, without a cache, they are not.
  - `Stack.bulk_write_wraps`: a file of two bytes for 2^63 + 1 pages of two bytes.
-/

import BpirOram.Pages.Cached
import BpirOram.Pages.File
import BpirOram.Pages.Sealed

namespace BpirOram

open Lib

inductive Layer where
  | frontCached
  | aead
  deriving DecidableEq, Repr

/-- A stack of layers over a file, the uppermost first. -/
def Stack : List Layer → Type
  | [] => FilePageStore
  | .frontCached :: layers => FrontCachedPageStore (Stack layers)
  | .aead :: layers => AeadPageStore (Stack layers)

namespace Stack

instance pageStore : (layers : List Layer) → PageStore (Stack layers)
  | [] => inferInstanceAs (PageStore FilePageStore)
  | .frontCached :: layers =>
    have := pageStore layers
    inferInstanceAs (PageStore (FrontCachedPageStore (Stack layers)))
  | .aead :: layers =>
    have := pageStore layers
    inferInstanceAs (PageStore (AeadPageStore (Stack layers)))

/-- What opening the stack sets up: the file has the bytes of its pages, a cache the sizes of
    the store below, a sealed page the room for nonce and tag. -/
def WellFormed : (layers : List Layer) → Stack layers → Prop
  | [], s => FilePageStore.WellSized s
  | .frontCached :: layers, s => FrontCachedPageStore.WellSized s ∧ WellFormed layers (FrontCachedPageStore.inner s)
  | .aead :: layers, s => AeadPageStore.WellSized s ∧ WellFormed layers (AeadPageStore.inner s)

/-- The file at the bottom. -/
def bottom : (layers : List Layer) → Stack layers → FilePageStore
  | [], s => s
  | .frontCached :: layers, s => bottom layers (FrontCachedPageStore.inner s)
  | .aead :: layers, s => bottom layers (AeadPageStore.inner s)

/-- The pages of a stack. -/
def page : (layers : List Layer) → Stack layers → Nat → Result Bytes
  | [], s => fun i => .ok (FilePageStore.page s i)
  | .frontCached :: layers, s => FrontCachedPageStore.page s (page layers (FrontCachedPageStore.inner s))
  | .aead :: layers, s => AeadPageStore.page s (page layers (AeadPageStore.inner s))

/-- A well-formed stack of `n` pages of `sz` bytes, over a file that fits, whose pages are `v`. -/
structure Holds (layers : List Layer) (n sz : Nat) (v : Nat → Result Bytes) (s : Stack layers) : Prop where
  wellFormed : WellFormed layers s
  fits : (bottom layers s).Fits
  pageCount : PageStore.pageCount s = n
  pageSize : PageStore.pageSize s = sz
  page : ∀ i < n, v i = page layers s i

/-! ## What a stack shows -/

def view : (layers : List Layer) → PageView (Stack layers)
  | [] => FilePageStore.view
  | .frontCached :: layers => FrontCachedPageStore.view (view layers)
  | .aead :: layers => AeadPageStore.view (view layers)

variable {layers : List Layer} {n sz : Nat} {v : Nat → Result Bytes}

theorem shows_iff (layers : List Layer) {n sz : Nat} {v : Nat → Result Bytes} {s : Stack layers} :
    (view layers).Shows n sz v s ↔ Holds layers n sz v s := by
  induction layers generalizing n sz v with
  | nil =>
    refine FilePageStore.shows_iff.trans ⟨?_, ?_⟩
    · rintro ⟨hsized, hfits, hcount, hsize, hpage⟩
      exact ⟨hsized, hfits, hcount, hsize, hpage⟩
    · intro h
      exact ⟨h.wellFormed, h.fits, h.pageCount, h.pageSize, h.page⟩
  | cons layer layers ih =>
    cases layer with
    | frontCached =>
      refine FrontCachedPageStore.shows_iff.trans ⟨?_, ?_⟩
      · rintro ⟨w, hw, hsized, hpage⟩
        have hinner := ih.mp hw
        refine ⟨⟨hsized, hinner.wellFormed⟩, hinner.fits, hinner.pageCount,
          hsized.1.trans hinner.pageSize, fun i hi => ?_⟩
        exact (hpage i hi).trans (FrontCachedPageStore.page_congr s (hinner.page i hi))
      · rintro ⟨⟨hsized, hinner⟩, hfits, hcount, hsize, hpage⟩
        refine ⟨page layers (FrontCachedPageStore.inner s),
          ih.mpr ⟨hinner, hfits, hcount, ?_, fun _ _ => rfl⟩, hsized, hpage⟩
        exact hsized.1.symm.trans hsize
    | aead =>
      refine AeadPageStore.shows_iff.trans ⟨?_, ?_⟩
      · rintro ⟨w, hw, hsize, hsized, hpage⟩
        have hinner := ih.mp hw
        refine ⟨⟨hsized, hinner.wellFormed⟩, hinner.fits, hinner.pageCount, hsize, fun i hi => ?_⟩
        exact (hpage i hi).trans (AeadPageStore.page_congr s (hinner.page i hi))
      · rintro ⟨⟨hsized, hinner⟩, hfits, hcount, hsize, hpage⟩
        refine ⟨page layers (AeadPageStore.inner s),
          ih.mpr ⟨hinner, hfits, hcount, ?_, fun _ _ => rfl⟩, hsize, hsized, hpage⟩
        exact hsized.1.trans (congrArg (· + aeadOverhead) hsize)

/-- A well-formed stack over a file that fits shows its own pages. -/
theorem shows_self {s : Stack layers} (h : WellFormed layers s) (hfits : (bottom layers s).Fits) :
    (view layers).Shows (PageStore.pageCount s) (PageStore.pageSize s) (page layers s) s :=
  (shows_iff layers).mpr ⟨h, hfits, rfl, rfl, fun _ _ => rfl⟩

/-! ## Opened stacks -/

/-- A stack as it is opened: a cache over a file whose pages fit, a sealed page whose size does. -/
inductive Opened (chaCha20Poly1305 : FixedBytes 32 → Cipher) : (layers : List Layer) → Stack layers → Prop
  | file {file : File} {n sz s} : FilePageStore.«open» file n sz = .ok s → Opened _ [] s
  | cached {layers inner cachedPages s} : Opened _ layers inner → (bottom layers inner).Fits →
    FrontCachedPageStore.new inner cachedPages = .ok s → Opened _ (.frontCached :: layers) s
  | zeroed {layers inner cachedPages s} : Opened _ layers inner → (bottom layers inner).Fits →
    FrontCachedPageStore.newZeroed inner cachedPages = .ok s → Opened _ (.frontCached :: layers) s
  | aead {layers inner osRng key sz s} : Opened _ layers inner → (chaCha20Poly1305 key).Undoes sz →
    sz + aeadOverhead < 2 ^ 64 → AeadPageStore.new chaCha20Poly1305 osRng inner key sz = .ok s → Opened _ (.aead :: layers) s

theorem Opened.wellFormed {chaCha20Poly1305 : FixedBytes 32 → Cipher} {s : Stack layers}
    (h : Opened chaCha20Poly1305 layers s) : WellFormed layers s := by
  induction h with
  | file hopen => exact (FilePageStore.open_wellSized hopen).1
  | @cached layers _ _ _ _ hfits hnew ih =>
    have hshows := FrontCachedPageStore.new_shows (shows_self ih hfits) hnew
    exact ((shows_iff (.frontCached :: layers)).mp ⟨_, hshows⟩).wellFormed
  | @zeroed layers _ _ _ _ hfits hnew ih =>
    have hshows := FrontCachedPageStore.newZeroed_shows (shows_self ih hfits) hnew
    exact ((shows_iff (.frontCached :: layers)).mp ⟨_, hshows⟩).wellFormed
  | aead _ hundoes hfits hnew ih =>
    obtain ⟨hsized, rfl⟩ := AeadPageStore.new_wellSized hundoes hfits hnew
    exact ⟨hsized, ih⟩

/-! ## Bulk calls -/

/-- Reads in bulk, and one page after another: the same result, and the pages as they were.
    Writes in bulk, and one page after another: both succeed, and leave the pages written
    over in order. Paths, read and written at once, are their nodes one after another. -/
def BulkIsLoop (layers : List Layer) (s : Stack layers) : Prop :=
  (∀ idxs, (∀ i ∈ idxs, i < PageStore.pageCount s) →
    (PageStore.readPages idxs s).1 = (readEach (PageStore.pageSize s) idxs s).1 ∧
    Holds layers (PageStore.pageCount s) (PageStore.pageSize s) (page layers s) (PageStore.readPages idxs s).2 ∧
    Holds layers (PageStore.pageCount s) (PageStore.pageSize s) (page layers s)
      (readEach (PageStore.pageSize s) idxs s).2) ∧
  (∀ idxs pages, (∀ i ∈ idxs, i < PageStore.pageCount s) → idxs.length = pages.length →
    (∀ page ∈ pages, page.length = PageStore.pageSize s) →
    (PageStore.writePages idxs pages s).1 = .ok () ∧ (writeEach (idxs.zip pages) s).1 = .ok () ∧
    Holds layers (PageStore.pageCount s) (PageStore.pageSize s)
      (overwrite (page layers s) (idxs.zip (pages.map .ok))) (PageStore.writePages idxs pages s).2 ∧
    Holds layers (PageStore.pageCount s) (PageStore.pageSize s)
      (overwrite (page layers s) (idxs.zip (pages.map .ok))) (writeEach (idxs.zip pages) s).2) ∧
  (∀ paths : List (List Nat), (∀ i ∈ paths.flatten, i < PageStore.pageCount s) →
    (PathPageStore.readPathsPages paths s).1 = (PageView.readEachPath (PageStore.pageSize s) paths s).1 ∧
    Holds layers (PageStore.pageCount s) (PageStore.pageSize s) (page layers s)
      (PathPageStore.readPathsPages paths s).2 ∧
    Holds layers (PageStore.pageCount s) (PageStore.pageSize s) (page layers s)
      (PageView.readEachPath (PageStore.pageSize s) paths s).2) ∧
  (∀ (paths : List (List Nat)) (pages : List (List Bytes)), (∀ i ∈ paths.flatten, i < PageStore.pageCount s) →
    List.Forall₂ (fun path pages => path.length = pages.length) paths pages →
    (∀ page ∈ pages.flatten, page.length = PageStore.pageSize s) →
    (PathPageStore.writePathsPages paths pages s).1 = .ok () ∧
    (writeEach (paths.flatten.zip pages.flatten) s).1 = .ok () ∧
    Holds layers (PageStore.pageCount s) (PageStore.pageSize s)
      (overwrite (page layers s) (paths.flatten.zip (pages.flatten.map .ok)))
      (PathPageStore.writePathsPages paths pages s).2 ∧
    Holds layers (PageStore.pageCount s) (PageStore.pageSize s)
      (overwrite (page layers s) (paths.flatten.zip (pages.flatten.map .ok)))
      (writeEach (paths.flatten.zip pages.flatten) s).2)

theorem bulkIsLoop_of_fits {s : Stack layers} (h : WellFormed layers s) (hfits : (bottom layers s).Fits) :
    BulkIsLoop layers s := by
  have hself := shows_self h hfits
  refine ⟨fun idxs hi => ?_, fun idxs pages hi hlen hl => ?_, fun paths hi => ?_, fun paths pages hi hlen hl => ?_⟩
  · obtain ⟨hresult, hbulk, heach⟩ := (view layers).reads_agree hself hi
    exact ⟨hresult, (shows_iff layers).mp hbulk, (shows_iff layers).mp heach⟩
  · obtain ⟨hok, hok', hbulk, heach⟩ := (view layers).writes_agree hself hi hlen hl
    exact ⟨hok, hok', (shows_iff layers).mp hbulk, (shows_iff layers).mp heach⟩
  · obtain ⟨hresult, hbulk, heach⟩ := (view layers).pathReads_agree hself hi
    exact ⟨hresult, (shows_iff layers).mp hbulk, (shows_iff layers).mp heach⟩
  · obtain ⟨hok, hok', hbulk, heach⟩ := (view layers).pathWrites_agree hself hi hlen hl
    exact ⟨hok, hok', (shows_iff layers).mp hbulk, (shows_iff layers).mp heach⟩

/-- Sealed any number of times, with no cache between. -/
def Uncached (layers : List Layer) : Prop := ∀ layer ∈ layers, layer = .aead

theorem Uncached.readPage_neverPanics (h : Uncached layers) : ReadPageNeverPanics (Stack layers) := by
  induction layers with
  | nil => exact FilePageStore.readPage_neverPanics
  | cons layer layers ih =>
    obtain rfl := h layer List.mem_cons_self
    exact AeadPageStore.readPage_neverPanics (ih fun other hmem => h other (List.mem_cons_of_mem _ hmem))

/-- All pages at once, where they do not fit: the panic of the file comes through the sealings. -/
theorem Uncached.readPages_wraps (h : Uncached layers) {s : Stack layers} (hs : WellFormed layers s)
    (hsz : (bottom layers s).pageSize < 2 ^ 64) (hwraps : ¬ (bottom layers s).Fits) :
    ∃ msg t, PageStore.readPages (List.range (PageStore.pageCount s)) s = (.error (.panic msg), t) := by
  induction layers with
  | nil => exact FilePageStore.readPages_wraps hsz hs hwraps
  | cons layer layers ih =>
    obtain rfl := h layer List.mem_cons_self
    obtain ⟨msg, t, hread⟩ := ih (fun other hmem => h other (List.mem_cons_of_mem _ hmem)) hs.2 hsz hwraps
    exact ⟨msg, _, AeadPageStore.readPages_error hread⟩

/-- A stack over a file whose pages fit 64 bits meets this in every state; without a cache, only
    then. -/
theorem bulk_is_loop {s : Stack layers} (h : WellFormed layers s) (hsz : (bottom layers s).pageSize < 2 ^ 64) :
    ((bottom layers s).Fits → BulkIsLoop layers s) ∧
    (Uncached layers → (BulkIsLoop layers s ↔ (bottom layers s).Fits)) := by
  refine ⟨bulkIsLoop_of_fits h, fun huncached => ⟨fun hloop => ?_, bulkIsLoop_of_fits h⟩⟩
  by_contra hwraps
  obtain ⟨msg, t, hbulk⟩ := huncached.readPages_wraps h hsz hwraps
  have hreads := (hloop.1 (List.range (PageStore.pageCount s)) fun i hi => List.mem_range.mp hi).1
  exact huncached.readPage_neverPanics.readEach (hreads.symm.trans (congrArg Prod.fst hbulk))

/-- Three pages of 32 bytes, in a file whose first calls are cut short. -/
def smallFile : FilePageStore := (FilePageStore.«open» ⟨[], [0, 7]⟩ 3 32).toOption.get (by decide +kernel)

def smallCache : Stack [.frontCached] := (FrontCachedPageStore.newZeroed smallFile 1).toOption.get (by decide +kernel)

/-- Sealed pages of 4 bytes over a cache of one page over a file of three. -/
def smallStack : Stack [.aead, .frontCached] :=
  (AeadPageStore.new (fun _ => labelCipher) (fun _ => .zero 12) smallCache (.zero 32) 4).toOption.get (by decide +kernel)

/-- The same pages with no cache between. -/
def smallSealed : Stack [.aead] :=
  (AeadPageStore.new (fun _ => labelCipher) (fun _ => .zero 12) smallFile (.zero 32) 4).toOption.get (by decide +kernel)

theorem smallStack_opened : Opened (fun _ => labelCipher) [.aead, .frontCached] smallStack :=
  .aead (.zeroed (.file (toOption_get _)) (by decide +kernel) (toOption_get _)) (labelCipher_undoes 4) (by decide)
    (toOption_get _)

theorem smallSealed_opened : Opened (fun _ => labelCipher) [.aead] smallSealed :=
  .aead (.file (toOption_get _)) (labelCipher_undoes 4) (by decide) (toOption_get _)

theorem bulk_is_loop_small :
    (PageStore.writePages [2, 0, 2] [[1, 2, 3, 4], [5, 6, 7, 8], [9, 10, 11, 12]] smallStack).1 = .ok () ∧
      Holds _ 3 4 (overwrite (page _ smallStack) [(2, .ok [1, 2, 3, 4]), (0, .ok [5, 6, 7, 8]), (2, .ok [9, 10, 11, 12])])
        (PageStore.writePages [2, 0, 2] [[1, 2, 3, 4], [5, 6, 7, 8], [9, 10, 11, 12]] smallStack).2 ∧
      (BulkIsLoop _ smallSealed ↔ (bottom _ smallSealed).Fits) := by
  have huncached : Uncached [.aead] := fun layer hmem => List.mem_singleton.mp hmem
  obtain ⟨-, hwrites, -, -⟩ := (bulk_is_loop smallStack_opened.wellFormed (by decide +kernel)).1 (by decide +kernel)
  obtain ⟨hok, -, hpages, -⟩ := hwrites [2, 0, 2] [[1, 2, 3, 4], [5, 6, 7, 8], [9, 10, 11, 12]]
    (by decide +kernel) rfl (by decide +kernel)
  exact ⟨hok, hpages, (bulk_is_loop smallSealed_opened.wellFormed (by decide +kernel)).2 huncached⟩

/-- 2^63 + 1 pages of two bytes, in a file of two. -/
def wrappedFile : FilePageStore := (FilePageStore.«open» ⟨[], []⟩ (2 ^ 63 + 1) 2).toOption.get (by decide +kernel)

/-- The first page and the last have the same place. Written at once, the last is written last;
    written in the order given, the first is. -/
theorem bulk_write_wraps :
    FilePageStore.«open» ⟨[], []⟩ (2 ^ 63 + 1) 2 = .ok wrappedFile ∧
    (PageStore.writePages [2 ^ 63, 0] [[1, 1], [2, 2]] wrappedFile).2.file.bytes = [1, 1] ∧
    (writeEach [(2 ^ 63, [1, 1]), (0, [2, 2])] wrappedFile).2.file.bytes = [2, 2] ∧ ¬ BulkIsLoop [] wrappedFile := by
  have hsorted : sortByNumber [(2 ^ 63, ([1, 1] : Bytes)), (0, [2, 2])] = [(0, [2, 2]), (2 ^ 63, [1, 1])] := by
    simp [sortByNumber, List.mergeSort]
  have hbulk : (PageStore.writePages [2 ^ 63, 0] [[1, 1], [2, 2]] wrappedFile).2.file.bytes = [1, 1] := by
    show (FilePageStore.writePages _ _ wrappedFile).2.file.bytes = _
    unfold FilePageStore.writePages
    simp only [List.zip_cons_cons, List.zip_nil_right, hsorted]
    decide +kernel
  -- the second write would have to be seen
  have hseen : ∀ t : FilePageStore, Holds [] (2 ^ 63 + 1) 2
      (overwrite (page [] wrappedFile) [(2 ^ 63, .ok [1, 1]), (0, .ok [2, 2])]) t → t.file.bytes ≠ [1, 1] := by
    intro t ht hbytes
    have hpage : Except.ok [2, 2] = Except.ok (ε := Error) (pageAt t.pageSize t.file.bytes 0) := ht.page 0 (by decide)
    have hsize : t.pageSize = 2 := ht.pageSize
    rw [hsize, hbytes] at hpage
    revert hpage
    decide
  refine ⟨toOption_get _, hbulk, by decide +kernel, fun h => ?_⟩
  obtain ⟨-, -, hholds, -⟩ := h.2.1 [2 ^ 63, 0] [[1, 1], [2, 2]] (by decide +kernel) rfl (by decide +kernel)
  exact hseen _ hholds hbulk

end Stack
end BpirOram
