/-
  BpirOram.Pages.File — `FilePageStore` of `store.rs`.

  The system may move fewer bytes than a call asks for (`File.limits` says how many), so
  pages are read and written in a loop. Bulk calls sort the pages they are given and move
  each run of neighbours at once; a bulk write with a page named twice goes page by page.
  The length of the file, the offsets and the length of a run are products of `usize`; lengths
  and offsets that the system refuses are not modelled.
  - `FilePageStore.view`: a store whose pages fit 64 bits shows the pages of its file.
  - `FilePageStore.readPages_wraps`: read at once, the pages of any other end in a panic.
-/

import BpirOram.Lib.Runs
import BpirOram.Pages.View

namespace BpirOram

open Lib

/-! ## Files -/

/-- A file: its bytes, and how many more than one the next calls move at most. -/
structure File where
  bytes : Bytes
  limits : List Nat
  deriving DecidableEq, Repr

namespace File

/-- How many of `len` bytes a call moves. -/
def moved (f : File) (len : Nat) : Nat := f.limits.head?.elim len fun more => min len (more + 1)

def served (f : File) : File := { f with limits := f.limits.tail }

def readAt (f : File) (len offset : Nat) : Bytes := (f.bytes.drop offset).take (f.moved len)

/-- Bytes before `offset` that the file does not have yet are zero. -/
def writeAt (f : File) (input : Bytes) (offset : Nat) : File :=
  { f.served with
    bytes := splice (f.bytes ++ List.replicate (offset - f.bytes.length) 0) offset (input.take (f.moved input.length)) }

theorem moved_le (f : File) (len : Nat) : f.moved len ≤ len := by
  unfold moved
  cases f.limits.head? with
  | none => exact Nat.le_refl _
  | some more => exact Nat.min_le_left _ _

theorem moved_pos (f : File) {len : Nat} (h : 0 < len) : 0 < f.moved len := by
  unfold moved
  cases f.limits.head? with
  | none => exact h
  | some more => exact Nat.lt_min.mpr ⟨h, Nat.succ_pos _⟩

def readExactAt (len offset : Nat) (f : File) : Result Bytes × File :=
  if _hlen : len = 0 then (.ok [], f)
  else if _hout : (f.readAt len offset).length = 0 then (.error .io, f.served)
  else
    let rest := readExactAt (len - (f.readAt len offset).length) (offset + (f.readAt len offset).length) f.served
    (rest.1.map (f.readAt len offset ++ ·), rest.2)
termination_by len
decreasing_by omega

def writeAllAt (input : Bytes) (offset : Nat) (f : File) : Result Unit × File :=
  if _hinput : input.length = 0 then (.ok (), f)
  else if _hmoved : f.moved input.length = 0 then (.error .io, f.writeAt input offset)
  else writeAllAt (input.drop (f.moved input.length)) (offset + f.moved input.length) (f.writeAt input offset)
termination_by input.length
decreasing_by
  rw [List.length_drop]
  omega

/-- However the system cuts it up, a read inside the file gives the bytes asked for. -/
theorem readExactAt_eq {f : File} {len offset : Nat} (h : offset + len ≤ f.bytes.length) :
    ∃ limits, readExactAt len offset f = (.ok ((f.bytes.drop offset).take len), { f with limits }) := by
  induction len using Nat.strongRecOn generalizing offset f with
  | ind len ih =>
    rw [readExactAt]
    by_cases hzero : len = 0
    · subst hzero
      exact ⟨f.limits, by rw [dif_pos rfl, List.take_zero]⟩
    · have hmoved := f.moved_le len
      have hpos := f.moved_pos (Nat.pos_of_ne_zero hzero)
      have hout : (f.readAt len offset).length = f.moved len := by
        rw [readAt, List.length_take, List.length_drop]
        omega
      have hfits : offset + f.moved len + (len - f.moved len) ≤ f.served.bytes.length := by
        show _ ≤ f.bytes.length
        omega
      obtain ⟨limits, hrest⟩ := ih (len - f.moved len) (by omega) hfits
      refine ⟨limits, ?_⟩
      rw [dif_neg hzero, dif_neg (by omega), hout, hrest]
      have hjoin : f.readAt len offset ++ (f.bytes.drop (offset + f.moved len)).take (len - f.moved len)
          = (f.bytes.drop offset).take len := by
        rw [readAt, ← List.drop_drop, ← List.take_add, Nat.add_sub_cancel' hmoved]
      exact congrArg (fun out => (Except.ok out, File.mk f.bytes limits)) hjoin

/-- However the system cuts it up, a write inside the file replaces the bytes at its place. -/
theorem writeAllAt_eq {f : File} {input : Bytes} {offset : Nat} (h : offset + input.length ≤ f.bytes.length) :
    ∃ limits, writeAllAt input offset f = (.ok (), { bytes := splice f.bytes offset input, limits }) := by
  induction hn : input.length using Nat.strongRecOn generalizing offset f input with
  | ind len ih =>
    subst hn
    rw [writeAllAt]
    by_cases hzero : input.length = 0
    · have hnil : input = [] := List.length_eq_zero_iff.mp hzero
      subst hnil
      refine ⟨f.limits, ?_⟩
      rw [dif_pos List.length_nil, splice, List.append_nil, List.length_nil, Nat.add_zero, List.take_append_drop]
    · have hmoved := f.moved_le input.length
      have hpos := f.moved_pos (Nat.pos_of_ne_zero hzero)
      have hfront : (input.take (f.moved input.length)).length = f.moved input.length := by
        rw [List.length_take, Nat.min_eq_left hmoved]
      have hwrite : f.writeAt input offset
          = { bytes := splice f.bytes offset (input.take (f.moved input.length)), limits := f.limits.tail } := by
        rw [writeAt, Nat.sub_eq_zero_of_le (by omega), List.replicate_zero, List.append_nil]
        rfl
      have hfits : offset + (input.take (f.moved input.length)).length ≤ f.bytes.length := by omega
      have hless : (input.drop (f.moved input.length)).length < input.length := by
        rw [List.length_drop]
        omega
      have hrestFits : offset + f.moved input.length + (input.drop (f.moved input.length)).length
          ≤ (f.writeAt input offset).bytes.length := by
        rw [hwrite, splice_length hfits, List.length_drop]
        omega
      obtain ⟨limits, hrest⟩ := ih _ hless hrestFits rfl
      refine ⟨limits, ?_⟩
      rw [dif_neg hzero, dif_neg (by omega), hrest, hwrite]
      have hjoin := splice_append (input.take (f.moved input.length)) (input.drop (f.moved input.length)) hfits
      rw [List.take_append_drop, hfront] at hjoin
      rw [hjoin]

end File

/-! ## The store -/

structure FilePageStore where
  pageSize : Nat
  pageCount : Nat
  file : File
  deriving DecidableEq, Repr

namespace FilePageStore

/-- `open` on a file with these bytes: `set_len` cuts it or fills it up with zeros. -/
def «open» (file : File) (pageCount pageSize : Nat) : Result FilePageStore :=
  if pageCount = 0 ∨ pageSize = 0 then .error (.invalidInput "page_count and page_size must be > 0")
  else
    let len := usizeMul pageCount pageSize
    .ok
      { pageSize, pageCount
        file := { file with bytes := (file.bytes ++ List.replicate (len - file.bytes.length) 0).take len } }

def offset (s : FilePageStore) (pageIdx : Nat) : Result Nat :=
  if pageIdx ≥ s.pageCount then .error (.invalidInput s!"page_idx {pageIdx} out of range {s.pageCount}")
  else .ok (usizeMul pageIdx s.pageSize)

/-- `check_page`. -/
def checkPage (s : FilePageStore) (pageIdx len : Nat) : Result Unit :=
  if pageIdx ≥ s.pageCount then .error (.invalidInput s!"page_idx {pageIdx} out of range {s.pageCount}")
  else if len ≠ s.pageSize then .error (.invalidInput s!"page buffer len {len} != page_size {s.pageSize}")
  else .ok ()

def onFile {α : Type} (m : Eff Error File α) : Eff Error FilePageStore α :=
  Eff.zoom FilePageStore.file (fun file s => { s with file }) m

def readPage (pageIdx len : Nat) : Eff Error FilePageStore Bytes := do
  let s ← Eff.get
  Eff.lift (s.checkPage pageIdx len)
  let start ← Eff.lift (s.offset pageIdx)
  onFile (File.readExactAt len start)

def writePage (pageIdx : Nat) (input : Bytes) : Eff Error FilePageStore Unit := do
  let s ← Eff.get
  Eff.lift (s.checkPage pageIdx input.length)
  let start ← Eff.lift (s.offset pageIdx)
  onFile (File.writeAllAt input start)

/-- The offset of a run, every page of it checked. -/
def runOffset {α : Type} (s : FilePageStore) : List (Nat × α) → Result Nat
  | [] => .error (.panic "index out of bounds")
  | first :: run => do
    let start ← s.offset first.1
    let _ ← run.mapM fun next => s.offset next.1
    .ok start

/-- The page at `runPos` of a run: `run_buf[start..start + page_size]`. -/
def runPage (s : FilePageStore) (runBuf : Bytes) (runPos : Nat) : Result Bytes := do
  let start := usizeMul runPos s.pageSize
  checkRange runBuf.length start s.pageSize
  .ok ((runBuf.drop start).take s.pageSize)

/-- A run of pages, each with the place it was asked for at. -/
def readRun (run : List (Nat × Nat)) : Eff Error FilePageStore (List (Nat × Bytes)) := do
  let s ← Eff.get
  let start ← Eff.lift (s.runOffset run)
  let runBuf ← onFile (File.readExactAt (usizeMul run.length s.pageSize) start)
  let pages ← Eff.lift ((List.range run.length).mapM (s.runPage runBuf))
  pure ((run.map (·.2)).zip pages)

def readPages (pageIndices : List Nat) : Eff Error FilePageStore (List Bytes) := do
  let s ← Eff.get
  let filled ← Eff.forEach readRun (runs (sortByNumber pageIndices.zipIdx))
  pure (filled.flatten.foldl (fun pages w => pages.set w.1 w.2)
    (List.replicate pageIndices.length (List.replicate s.pageSize 0)))

def writeRun (run : List (Nat × Bytes)) : Eff Error FilePageStore Unit := do
  let s ← Eff.get
  let start ← Eff.lift (s.runOffset run)
  onFile (File.writeAllAt (run.map (·.2)).flatten start)

def checkPageLens (s : FilePageStore) : List Bytes → Result Unit
  | [] => .ok ()
  | page :: pages =>
    if page.length ≠ s.pageSize then .error (.invalidInput s!"page len {page.length} != page_size {s.pageSize}")
    else s.checkPageLens pages

def writePages (pageIndices : List Nat) (pages : List Bytes) : Eff Error FilePageStore Unit :=
  if pageIndices.length ≠ pages.length then
    Eff.fail (.invalidInput s!"page index count {pageIndices.length} != page count {pages.length}")
  else do
    let s ← Eff.get
    Eff.lift (s.checkPageLens pages)
    let order := sortByNumber (pageIndices.zip pages)
    if hasRepeat order then do
      let _ ← Eff.forEach (fun w => writePage w.1 w.2) (pageIndices.zip pages)
    else do
      let _ ← Eff.forEach writeRun (runs order)

instance : PageStore FilePageStore where
  pageSize := FilePageStore.pageSize
  pageCount := FilePageStore.pageCount
  readPage := readPage
  writePage := writePage
  readPages := readPages
  writePages := writePages

/-! ## The pages of the file -/

/-- The file has the length it is opened with. -/
def WellSized (s : FilePageStore) : Prop := s.file.bytes.length = usizeMul s.pageCount s.pageSize

/-- The bytes of the pages can be counted. -/
def Fits (s : FilePageStore) : Prop := s.pageCount * s.pageSize < 2 ^ 64

instance (s : FilePageStore) : Decidable s.Fits := inferInstanceAs (Decidable (_ < _))

def page (s : FilePageStore) (i : Nat) : Bytes := pageAt s.pageSize s.file.bytes i

structure Holds (n sz : Nat) (c : Nat → Bytes) (s : FilePageStore) : Prop where
  pageSize : s.pageSize = sz
  pageCount : s.pageCount = n
  fits : n * sz < 2 ^ 64
  length : s.file.bytes.length = n * sz
  pages : pageAt sz s.file.bytes = c

variable {n sz : Nat} {c : Nat → Bytes} {s : FilePageStore}

theorem offset_ok (h : Holds n sz c s) {i : Nat} (hi : i < n) : s.offset i = .ok (i * sz) := by
  have hle := page_le sz hi
  have hfits := h.fits
  rw [offset, if_neg (by rw [h.pageCount]; omega), h.pageSize, usizeMul_of_lt (by omega)]

theorem checkPage_ok (h : Holds n sz c s) {i : Nat} (hi : i < n) : s.checkPage i sz = .ok () := by
  rw [checkPage, if_neg (by rw [h.pageCount]; omega), if_neg (not_not_intro h.pageSize.symm)]

/-- Reading the file where it has bytes. -/
theorem onFile_read (h : Holds n sz c s) {start len : Nat} (hfits : start + len ≤ n * sz) :
    ∃ t, onFile (File.readExactAt len start) s = (.ok ((s.file.bytes.drop start).take len), t) ∧ Holds n sz c t := by
  obtain ⟨limits, hread⟩ := File.readExactAt_eq (f := s.file) (h.length.symm ▸ hfits)
  exact ⟨_, Eff.zoom_of hread, ⟨h.pageSize, h.pageCount, h.fits, h.length, h.pages⟩⟩

/-- Writing the file where it has bytes. -/
theorem onFile_write (h : Holds n sz c s) {start : Nat} {input : Bytes} (hfits : start + input.length ≤ n * sz) :
    ∃ t, onFile (File.writeAllAt input start) s = (.ok (), t) ∧
      Holds n sz (pageAt sz (splice s.file.bytes start input)) t := by
  have hbytes : start + input.length ≤ s.file.bytes.length := h.length.symm ▸ hfits
  obtain ⟨limits, hwrite⟩ := File.writeAllAt_eq hbytes
  exact ⟨_, Eff.zoom_of hwrite, ⟨h.pageSize, h.pageCount, h.fits, (splice_length hbytes).trans h.length, rfl⟩⟩

theorem readPage_spec (h : Holds n sz c s) {i : Nat} (hi : i < n) :
    ∃ t, PageStore.readPage i sz s = (.ok (c i), t) ∧ Holds n sz c t := by
  obtain ⟨t, hrun, ht⟩ := onFile_read h (page_le _ hi)
  refine ⟨t, ?_, ht⟩
  show readPage i sz s = _
  rw [readPage, Eff.get_bind, checkPage_ok h hi, offset_ok h hi, Eff.lift_ok_bind, Eff.lift_ok_bind, hrun, ← h.pages]
  rfl

theorem writePage_spec (h : Holds n sz c s) {i : Nat} {page : Bytes} (hi : i < n) (hl : page.length = sz) :
    ∃ t, PageStore.writePage i page s = (.ok (), t) ∧ Holds n sz (Function.update c i page) t := by
  have hfits : i * sz + page.length ≤ n * sz := hl.symm ▸ page_le _ hi
  obtain ⟨t, hrun, ht⟩ := onFile_write h hfits
  refine ⟨t, ?_, ?_⟩
  · show writePage i page s = _
    rw [writePage, Eff.get_bind, hl, checkPage_ok h hi, offset_ok h hi, Eff.lift_ok_bind, Eff.lift_ok_bind, hrun]
  · rwa [pageAt_splice h.length hi hl, h.pages] at ht

/-! ## Runs -/

section
variable {α : Type} {run : List (Nat × α)} {first : Nat}

/-- A run inside the store. -/
theorem run_le (hrun : run.map (·.1) = List.range' first run.length) (hi : ∀ item ∈ run, item.1 < n) (hne : 0 < run.length) :
    first + run.length ≤ n := by
  have hlast : first + (run.length - 1) ∈ run.map (·.1) := by
    rw [hrun, List.mem_range'_1]
    omega
  obtain ⟨item, hitem, he⟩ := List.mem_map.mp hlast
  have hlt := hi item hitem
  omega

theorem runOffset_eq (s : FilePageStore) (first : Nat × α) {rest : List (Nat × α)}
    (hi : ∀ item ∈ first :: rest, item.1 < s.pageCount) :
    s.runOffset (first :: rest) = .ok (usizeMul first.1 s.pageSize) := by
  have hoffset : ∀ item ∈ first :: rest, s.offset item.1 = .ok (usizeMul item.1 s.pageSize) := by
    intro item hitem
    exact if_neg (Nat.not_le.mpr (hi item hitem))
  rw [runOffset, hoffset first List.mem_cons_self, mapM_ok fun item hitem => hoffset item (List.mem_cons_of_mem _ hitem)]
  rfl

theorem runOffset_ok (h : Holds n sz c s) (first : Nat × α) {rest : List (Nat × α)}
    (hi : ∀ item ∈ first :: rest, item.1 < n) :
    s.runOffset (first :: rest) = .ok (first.1 * sz) := by
  have hle := page_le sz (hi first List.mem_cons_self)
  have hfits := h.fits
  rw [runOffset_eq s first (h.pageCount.symm ▸ hi), h.pageSize, usizeMul_of_lt (by omega)]

end

theorem runPages_ok {runBuf : Bytes} {m : Nat} (hsize : s.pageSize = sz) (hlt : m * sz < 2 ^ 64)
    (hbuf : runBuf.length = m * sz) :
    (List.range m).mapM (s.runPage runBuf) = .ok ((List.range m).map (pageAt sz runBuf)) := by
  refine mapM_ok fun k hk => ?_
  have hle := page_le sz (List.mem_range.mp hk)
  rw [runPage, hsize, usizeMul_of_lt (by omega), checkRange_of_le (by omega) (by omega)]
  rfl

/-- A run read at once gives every page of it. -/
theorem readRun_spec (h : Holds n sz c s) {items run : List (Nat × Nat)} (hmem : run ∈ runs items)
    (hi : ∀ item ∈ run, item.1 < n) :
    ∃ t, readRun run s = (.ok (run.map fun item => (item.2, c item.1)), t) ∧ Holds n sz c t := by
  obtain ⟨first, rest, rfl, hnumbers⟩ := runs_consecutive hmem
  have hle := run_le hnumbers hi (Nat.succ_pos _)
  have hfits : first.1 * sz + (first :: rest).length * sz ≤ n * sz := by
    rw [← Nat.add_mul]
    exact Nat.mul_le_mul_right _ hle
  obtain ⟨t, hread, ht⟩ := onFile_read h hfits
  refine ⟨t, ?_, ht⟩
  have hlt : (first :: rest).length * sz < 2 ^ 64 := Nat.lt_of_le_of_lt ((Nat.le_add_left _ _).trans hfits) h.fits
  have hbuf : ((s.file.bytes.drop (first.1 * sz)).take ((first :: rest).length * sz)).length = (first :: rest).length * sz := by
    rw [List.length_take, List.length_drop, h.length]
    omega
  rw [readRun, Eff.get_bind, runOffset_ok h first hi, Eff.lift_ok_bind, h.pageSize, usizeMul_of_lt hlt, Eff.bind_ok hread,
    runPages_ok h.pageSize hlt hbuf, Eff.lift_ok_bind]
  -- the pages of the buffer are those from the first one on
  have hpages : (List.range (first :: rest).length).map
      (pageAt sz ((s.file.bytes.drop (first.1 * sz)).take ((first :: rest).length * sz)))
        = (first :: rest).map fun item => c item.1 := by
    calc _ = (List.range (first :: rest).length).map fun k => c (first.1 + k) := by
          refine List.map_congr_left fun k hk => ?_
          rw [pageAt_window _ _ _ (List.mem_range.mp hk), h.pages]
      _ = (List.range' first.1 (first :: rest).length).map c := by
          rw [List.range'_eq_map_range, List.map_map]
          rfl
      _ = _ := by
          rw [← hnumbers, List.map_map]
          rfl
  rw [hpages, List.zip_map']
  rfl

/-- Pages written behind one another are the pages of the run. -/
theorem pageAt_splice_run {run : List (Nat × Bytes)} {first : Nat} {b : Bytes} (hb : b.length = n * sz)
    (hrun : run.map (·.1) = List.range' first run.length) (hle : first + run.length ≤ n)
    (hl : ∀ w ∈ run, w.2.length = sz) :
    pageAt sz (splice b (first * sz) (run.map (·.2)).flatten) = overwrite (pageAt sz b) run := by
  induction run generalizing first b with
  | nil =>
    rw [List.map_nil, List.flatten_nil, splice, List.append_nil, List.length_nil, Nat.add_zero, List.take_append_drop]
    rfl
  | cons w run ih =>
    rw [List.map_cons, List.length_cons, List.range'_succ] at hrun
    obtain ⟨hw, hrest⟩ := List.cons.inj hrun
    have hlw := hl w List.mem_cons_self
    rw [List.length_cons] at hle
    have hfirst : first < n := by omega
    have hfits : first * sz + w.2.length ≤ b.length := by
      rw [hlw, hb]
      exact page_le _ hfirst
    rw [List.map_cons, List.flatten_cons, splice_append _ _ hfits, hlw, ← Nat.succ_mul,
      ih ((splice_length hfits).trans hb) hrest (by omega) fun x hx => hl x (List.mem_cons_of_mem _ hx),
      pageAt_splice hb hfirst hlw, overwrite_cons, hw]

theorem writeRun_spec (h : Holds n sz c s) {items run : List (Nat × Bytes)} (hmem : run ∈ runs items)
    (hi : ∀ w ∈ run, w.1 < n) (hl : ∀ w ∈ run, w.2.length = sz) :
    ∃ t, writeRun run s = (.ok (), t) ∧ Holds n sz (overwrite c run) t := by
  obtain ⟨first, rest, rfl, hnumbers⟩ := runs_consecutive hmem
  have hle := run_le hnumbers hi (Nat.succ_pos _)
  have hbuf : ((first :: rest).map (·.2)).flatten.length = (first :: rest).length * sz := by
    rw [length_flatten_of_lengths (List.forall_mem_map.mpr hl), List.length_map]
  have hfits : first.1 * sz + ((first :: rest).map (·.2)).flatten.length ≤ n * sz := by
    rw [hbuf, ← Nat.add_mul]
    exact Nat.mul_le_mul_right _ hle
  obtain ⟨t, hwrite, ht⟩ := onFile_write h hfits
  refine ⟨t, ?_, ?_⟩
  · rw [writeRun, Eff.get_bind, runOffset_ok h first hi, Eff.lift_ok_bind, hwrite]
  · rwa [pageAt_splice_run h.length hnumbers hle hl, h.pages] at ht

/-! ## Bulk calls -/

theorem readPages_spec (h : Holds n sz c s) {idxs : List Nat} (hi : ∀ i ∈ idxs, i < n) :
    ∃ t, PageStore.readPages idxs s = (.ok (idxs.map c), t) ∧ Holds n sz c t := by
  have hperm := sortByNumber_perm idxs.zipIdx
  have hat : ∀ item ∈ sortByNumber idxs.zipIdx, idxs[item.2]? = some item.1 := by
    intro item hitem
    exact List.mem_zipIdx_iff_getElem?.mp (hperm.mem_iff.mp hitem)
  have hrun : ∀ run ∈ runs (sortByNumber idxs.zipIdx), ∀ s, Holds n sz c s →
      ∃ t, readRun run s = (.ok (run.map fun item => (item.2, c item.1)), t) ∧ Holds n sz c t := by
    intro run hmem s hs
    refine readRun_spec hs hmem fun item hitem => hi item.1 ?_
    have hflat : item ∈ sortByNumber idxs.zipIdx := by
      rw [← runs_flatten (sortByNumber idxs.zipIdx)]
      exact List.mem_flatten.mpr ⟨run, hmem, hitem⟩
    exact List.mem_of_getElem? (hat item hflat)
  obtain ⟨t, hall, ht⟩ := Eff.forEach_map hrun h
  refine ⟨t, ?_, ht⟩
  show readPages idxs s = _
  rw [readPages, Eff.get_bind, Eff.bind_ok hall, ← List.map_flatten, runs_flatten]
  -- every place of the result is set, to the page asked for there
  have hpages : ((sortByNumber idxs.zipIdx).map fun item => (item.2, c item.1)).foldl (fun pages w => pages.set w.1 w.2)
      (List.replicate idxs.length (List.replicate s.pageSize 0)) = idxs.map c := by
    refine scatter_eq_map hat List.length_replicate fun i k hk hnot => ?_
    exact absurd (hperm.mem_iff.mpr (List.mem_zipIdx_iff_getElem?.mpr hk)) hnot
  rw [hpages]
  rfl

theorem checkPageLens_ok (h : Holds n sz c s) {pages : List Bytes} (hl : ∀ page ∈ pages, page.length = sz) :
    s.checkPageLens pages = .ok () := by
  induction pages with
  | nil => rfl
  | cons page pages ih =>
    rw [checkPageLens, if_neg (not_not_intro ((hl page List.mem_cons_self).trans h.pageSize.symm))]
    exact ih fun x hx => hl x (List.mem_cons_of_mem _ hx)

theorem writePages_spec (h : Holds n sz c s) {idxs : List Nat} {pages : List Bytes} (hi : ∀ i ∈ idxs, i < n)
    (hlen : idxs.length = pages.length) (hl : ∀ page ∈ pages, page.length = sz) :
    ∃ t, PageStore.writePages idxs pages s = (.ok (), t) ∧ Holds n sz (overwrite c (idxs.zip pages)) t := by
  have hperm := sortByNumber_perm (idxs.zip pages)
  have hwrites : ∀ w ∈ idxs.zip pages, w.1 < n ∧ w.2.length = sz := by
    intro w hw
    exact ⟨hi w.1 (List.of_mem_zip hw).1, hl w.2 (List.of_mem_zip hw).2⟩
  have hdef : PageStore.writePages idxs pages s = (if hasRepeat (sortByNumber (idxs.zip pages)) then do
        let _ ← Eff.forEach (fun w => writePage w.1 w.2) (idxs.zip pages)
      else do
        let _ ← Eff.forEach writeRun (runs (sortByNumber (idxs.zip pages))) : Eff Error FilePageStore Unit) s := by
    show writePages idxs pages s = _
    rw [writePages, if_neg (not_not_intro hlen), Eff.get_bind, checkPageLens_ok h hl, Eff.lift_ok_bind]
  rw [hdef]
  cases hrepeat : hasRepeat (sortByNumber (idxs.zip pages)) with
  | true =>
    have hstep : ∀ w ∈ idxs.zip pages, ∀ c s, Holds n sz c s →
        ∃ b t, writePage w.1 w.2 s = (.ok b, t) ∧ Holds n sz (Function.update c w.1 w.2) t := by
      intro w hw c s hs
      obtain ⟨t, hrun, ht⟩ := writePage_spec hs (hwrites w hw).1 (hwrites w hw).2
      exact ⟨(), t, hrun, ht⟩
    obtain ⟨bs, t, hrun, ht⟩ := Eff.forEach_foldl hstep h
    exact ⟨t, Eff.bind_ok hrun, ht⟩
  | false =>
    have hstep : ∀ run ∈ runs (sortByNumber (idxs.zip pages)), ∀ c s, Holds n sz c s →
        ∃ b t, writeRun run s = (.ok b, t) ∧ Holds n sz (overwrite c run) t := by
      intro run hmem c s hs
      have hin : ∀ w ∈ run, w.1 < n ∧ w.2.length = sz := by
        intro w hw
        refine hwrites w (hperm.mem_iff.mp ?_)
        rw [← runs_flatten (sortByNumber (idxs.zip pages))]
        exact List.mem_flatten.mpr ⟨run, hmem, hw⟩
      obtain ⟨t, hrun, ht⟩ := writeRun_spec hs hmem (fun w hw => (hin w hw).1) fun w hw => (hin w hw).2
      exact ⟨(), t, hrun, ht⟩
    obtain ⟨bs, t, hrun, ht⟩ := Eff.forEach_foldl hstep h
    refine ⟨t, Eff.bind_ok hrun, ?_⟩
    -- no page is named twice, so the order does not matter
    have hnodup := nodup_of_not_hasRepeat (sortByNumber_sorted (idxs.zip pages)) hrepeat
    rwa [← overwrite_flatten, runs_flatten, overwrite_perm c hperm hnodup] at ht

/-- The file store is honest. -/
def honest : HonestStore FilePageStore where
  Holds := Holds
  pageCount_eq h := h.pageCount
  pageSize_eq h := h.pageSize
  page_length h i hi := by
    rw [← h.pages]
    exact pageAt_length h.length hi
  readPage h := readPage_spec h
  writePage h := writePage_spec h
  readPages h := readPages_spec h
  writePages h := writePages_spec h

def view : PageView FilePageStore := honest.view

theorem shows_iff {v : Nat → Result Bytes} :
    view.Shows n sz v s ↔ s.WellSized ∧ s.Fits ∧ s.pageCount = n ∧ s.pageSize = sz ∧
    ∀ i < n, v i = .ok (s.page i) := by
  refine ⟨?_, ?_⟩
  · rintro ⟨c, ⟨rfl, rfl, hfits, hlen, rfl⟩, hv⟩
    exact ⟨hlen.trans (usizeMul_of_lt hfits).symm, hfits, rfl, rfl, hv⟩
  · rintro ⟨hlen, hfits, rfl, rfl, hv⟩
    exact ⟨s.page, ⟨rfl, rfl, hfits, hlen.trans (usizeMul_of_lt hfits), rfl⟩, hv⟩

theorem open_wellSized {file : File} (h : «open» file n sz = .ok s) : s.WellSized ∧ s.pageCount = n ∧ s.pageSize = sz := by
  unfold «open» at h
  split at h
  · cases h
  · cases h
    refine ⟨?_, rfl, rfl⟩
    show (List.take (usizeMul n sz) _).length = usizeMul n sz
    rw [List.length_take, List.length_append, List.length_replicate]
    omega

/-! ## Where the length wraps -/

/-- The pages of a run cannot all be cut out of a buffer whose length wrapped. -/
theorem runPages_wraps {runBuf : Bytes} (hsz : s.pageSize < 2 ^ 64) (hbuf : runBuf.length < 2 ^ 64)
    (hwraps : 2 ^ 64 ≤ n * s.pageSize) : ∃ msg, (List.range n).mapM (s.runPage runBuf) = .error (.panic msg) := by
  have hpanic : ∀ (l : List Nat) e, l.mapM (s.runPage runBuf) = .error e → ∃ msg, e = .panic msg := by
    intro l
    induction l with
    | nil =>
      intro e he
      cases he
    | cons k l ih =>
      intro e he
      rw [List.mapM_cons] at he
      cases hk : s.runPage runBuf k with
      | error e' =>
        rw [hk] at he
        cases he
        unfold runPage checkRange at hk
        simp only at hk
        split at hk
        · cases hk
          exact ⟨_, rfl⟩
        · split at hk
          · cases hk
            exact ⟨_, rfl⟩
          · cases hk
      | ok page =>
        rw [hk] at he
        cases hl : l.mapM (s.runPage runBuf) with
        | error e' =>
          rw [hl] at he
          cases he
          exact ih e hl
        | ok pages =>
          rw [hl] at he
          cases he
  cases hall : (List.range n).mapM (s.runPage runBuf) with
  | error e =>
    obtain ⟨msg, rfl⟩ := hpanic _ e hall
    exact ⟨msg, rfl⟩
  | ok pages =>
    have hturns := mapM_eq_ok hall
    have hpieces : n * s.pageSize ≤ runBuf.length := by
      refine pieces_le hbuf fun k hk => ?_
      have hk' : k < (List.range n).length := List.length_range.symm ▸ hk
      have hturn := hturns.get hk' (hturns.length_eq ▸ hk')
      rw [List.get_eq_getElem, List.getElem_range] at hturn
      obtain ⟨⟨⟩, hrange, -⟩ := bind_result_ok hturn
      exact checkRange_ok hsz hrange
    omega

/-- A file whose length wrapped, read at once: the run of all pages ends in a panic. -/
theorem readPages_wraps (hsz : s.pageSize < 2 ^ 64) (hsized : s.WellSized) (hwraps : ¬ s.Fits) :
    ∃ msg t, readPages (List.range s.pageCount) s = (.error (.panic msg), t) := by
  have hle : 2 ^ 64 ≤ s.pageCount * s.pageSize := Nat.not_lt.mp hwraps
  have hcount : 0 < s.pageCount := by
    by_contra hzero
    rw [Nat.eq_zero_of_not_pos hzero, Nat.zero_mul] at hle
    omega
  obtain ⟨first, rest, hruns, hfirst, hlength, hlt⟩ := runs_range hcount
  have hstart : usizeMul first.1 s.pageSize = 0 := by rw [hfirst, usizeMul, Nat.zero_mul, Nat.zero_mod]
  obtain ⟨limits, hread⟩ := @File.readExactAt_eq s.file (usizeMul s.pageCount s.pageSize) 0
    (by rw [Nat.zero_add]; exact hsized.ge)
  have hbuf : ((s.file.bytes.drop 0).take (usizeMul s.pageCount s.pageSize)).length < 2 ^ 64 := by
    rw [List.length_take]
    exact Nat.lt_of_le_of_lt (Nat.min_le_left _ _) (usizeMul_lt _ _)
  obtain ⟨msg, hpages⟩ := runPages_wraps hsz hbuf hle
  have hfile : onFile (File.readExactAt (usizeMul s.pageCount s.pageSize) 0) s = (.ok _, _) := Eff.zoom_of hread
  have hrun : readRun (first :: rest) s = (.error (.panic msg), { s with file := { s.file with limits } }) := by
    rw [readRun, Eff.get_bind, runOffset_eq s first hlt, Eff.lift_ok_bind, hstart, hlength, Eff.bind_ok hfile,
      hpages]
    rfl
  refine ⟨msg, { s with file := { s.file with limits } }, ?_⟩
  rw [readPages, Eff.get_bind, hruns]
  exact Eff.bind_error (Eff.forEach_error_head hrun)

theorem readExactAt_not_panic {len offset : Nat} {f : File} {msg : String} :
    (File.readExactAt len offset f).1 ≠ .error (.panic msg) := by
  induction len using Nat.strongRecOn generalizing offset f with
  | ind len ih =>
    rw [File.readExactAt]
    split
    · intro h
      cases h
    · split
      · intro h
        cases h
      · rename_i hlen hout
        have hless : len - (f.readAt len offset).length < len := by omega
        intro h
        cases hrest : (File.readExactAt (len - (f.readAt len offset).length) (offset + (f.readAt len offset).length)
            f.served).1 with
        | error e =>
          change Except.map _ _ = _ at h
          rw [hrest] at h
          cases h
          exact ih _ hless hrest
        | ok bytes =>
          change Except.map _ _ = _ at h
          rw [hrest] at h
          cases h

theorem readPage_neverPanics : ReadPageNeverPanics FilePageStore := by
  intro i len msg s
  show (readPage i len s).1 ≠ .error (.panic msg)
  rw [readPage, Eff.get_bind]
  unfold checkPage offset
  split
  · intro h
    cases h
  · split
    · intro h
      cases h
    · exact readExactAt_not_panic

end FilePageStore
end BpirOram
