/-
  BpirOram.Deploy.Stores — `CircuitReopenPageStore` (`oramctl.rs`): the store a saved
  controller is opened on, one of three kinds.

  A plain image is read page by page, a tiered tree is a page store beside its hash image, and
  an embedded tree is used by paths.
  - `CircuitReopenPageStore.contract`: over honest images each kind keeps the contract of a
    store that never fails, with the pages it stands for.
-/

import BpirOram.Embedded.Contract
import BpirOram.Merkle.Honest
import BpirOram.Pages.Prefix

namespace BpirOram

open Lib

/-! ## Plain images -/

section
variable {S : Type} [PageStore S]

def readPlainPathPages (path : List Nat) : Eff Error S (List Bytes) := do
  let s ← Eff.get
  Eff.forEach (fun pageIdx => PageStore.readPage pageIdx (PageStore.pageSize s)) path

def writePlainPathPages (path : List Nat) (pages : List Bytes) : Eff Error S Unit :=
  if path.length ≠ pages.length then
    Eff.fail (.invalidInput s!"path length {path.length} != page count {pages.length}")
  else do
    let s ← Eff.get
    let _ ← Eff.forEach (fun w => if w.2.length ≠ PageStore.pageSize s then
        Eff.fail (.invalidInput s!"path page len {w.2.length} != page_size {PageStore.pageSize s}")
      else PageStore.writePage w.1 w.2) (path.zip pages)

def readPlainPathsPages (paths : List (List Nat)) : Eff Error S (List (List Bytes)) := do
  let flatPages ← PageStore.readPages paths.flatten
  Eff.lift (unflatten paths flatPages)

def writePlainPathsPages (paths : List (List Nat)) (pages : List (List Bytes)) : Eff Error S Unit :=
  if paths.length ≠ pages.length then
    Eff.fail (.invalidInput s!"path count {paths.length} != page-path count {pages.length}")
  else do
    Eff.lift (checkPathLengths (paths.zip pages))
    PageStore.writePages paths.flatten pages.flatten

end

/-! ## The three kinds -/

inductive CircuitReopenPageStore (S H : Type) where
  | plain (store : S)
  | sidecar (store : TieredMerklePageStore S H)
  | embedded (store : EmbeddedTreePageStore S)

namespace CircuitReopenPageStore

variable {S H α : Type}

/-- The call of the kind that the store is of. -/
def onStore (plain : Eff Error S α) (sidecar : Eff Error (TieredMerklePageStore S H) α)
    (embedded : Eff Error (EmbeddedTreePageStore S) α) : Eff Error (CircuitReopenPageStore S H) α
  | .plain store => ((plain store).1, .plain (plain store).2)
  | .sidecar store => ((sidecar store).1, .sidecar (sidecar store).2)
  | .embedded store => ((embedded store).1, .embedded (embedded store).2)

variable [PageStore S] [PageStore H] [Sha256]

instance : PathPageStore (CircuitReopenPageStore S H) where
  pageSize
    | .plain store => PageStore.pageSize store
    | .sidecar store => PageStore.pageSize store
    | .embedded store => PathPageStore.pageSize store
  pageCount
    | .plain store => PageStore.pageCount store
    | .sidecar store => PageStore.pageCount store
    | .embedded store => PathPageStore.pageCount store
  readPathPages path := onStore (readPlainPathPages path) (PathPageStore.readPathPages path) (PathPageStore.readPathPages path)
  writePathPages path pages := onStore (writePlainPathPages path pages) (PathPageStore.writePathPages path pages)
    (PathPageStore.writePathPages path pages)
  readPathsPages paths := onStore (readPlainPathsPages paths) (PathPageStore.readPathsPages paths)
    (PathPageStore.readPathsPages paths)
  writePathsPages paths pages := onStore (writePlainPathsPages paths pages) (PathPageStore.writePathsPages paths pages)
    (PathPageStore.writePathsPages paths pages)
  flush := onStore PageStore.flush PageStore.flush PathPageStore.flush
  tieredMerkleState
    | .plain store => PageStore.tieredMerkleState store
    | .sidecar store => some store.trustedState
    | .embedded _ => none
  embeddedTreeState
    | .plain _ => none
    | .sidecar _ => none
    | .embedded store => some store.state

end CircuitReopenPageStore

/-! ## Contracts -/

section
variable {S : Type} [PageStore S] {HS : HonestStore S} {n sz : Nat} {c : Nat → Bytes}

/-- Page by page, a plain image is read and written as in bulk. -/
theorem readPlainPathPages_holds {path : List Nat} {s : S} (h : HS.Holds n sz c s) (hi : ∀ i ∈ path, i < n) :
    ∃ t, readPlainPathPages path s = (.ok (path.map c), t) ∧ HS.Holds n sz c t := by
  unfold readPlainPathPages
  rw [Eff.get_bind, HS.pageSize_eq h]
  exact Eff.forEach_map (P := HS.Holds n sz c) (fun i hm s hs => HS.readPage hs (hi i hm)) h

theorem writePlainPathPages_holds {path : List Nat} {pages : List Bytes} {s : S} (h : HS.Holds n sz c s)
    (hi : ∀ i ∈ path, i < n) (hlen : path.length = pages.length) (hl : ∀ page ∈ pages, page.length = sz) :
    ∃ t, writePlainPathPages path pages s = (.ok (), t) ∧ HS.Holds n sz (overwrite c (path.zip pages)) t := by
  have hstep : ∀ w ∈ path.zip pages, ∀ c s, HS.Holds n sz c s → ∃ b t, (if w.2.length ≠ sz then
      Eff.fail (.invalidInput s!"path page len {w.2.length} != page_size {sz}") else PageStore.writePage w.1 w.2) s
        = (.ok b, t) ∧ HS.Holds n sz (Function.update c w.1 w.2) t := by
    intro w hw c s hs
    have hwl := hl w.2 (List.of_mem_zip hw).2
    obtain ⟨t, ht, hh⟩ := HS.writePage hs (hi w.1 (List.of_mem_zip hw).1) hwl
    exact ⟨(), t, by rw [if_neg (not_not_intro hwl)]; exact ht, hh⟩
  obtain ⟨bs, t, hrun, ht⟩ := Eff.forEach_foldl (P := HS.Holds n sz)
    (g := fun c (w : Nat × Bytes) => Function.update c w.1 w.2) hstep h
  refine ⟨t, ?_, ht⟩
  unfold writePlainPathPages
  rw [if_neg (not_not_intro hlen), Eff.get_bind, HS.pageSize_eq h]
  exact Eff.bind_ok hrun

/-- A call on a part of a store keeps the contract of the part. -/
theorem PathSpec.ReadOutcome.part {T U α : Type} {L : PathSpec T} {L' : PathSpec U} {paths : List (List Nat)} {val : α}
    {r : Result α × T} {f : T → U} (h : L.ReadOutcome c paths val r) (hrep : ∀ t, L.Rep c t → L'.Rep c (f t))
    (hready : ∀ t, L.Ready paths t → L'.Ready paths (f t)) (hfails : ∀ e, L.ReadFails e → L'.ReadFails e) :
    L'.ReadOutcome c paths val (r.1, f r.2) := by
  cases h with
  | ok ht hr => exact .ok (hrep _ ht) (hready _ hr)
  | failed he ht => exact .failed (hfails _ he) (hrep _ ht)

theorem PathSpec.WriteOutcome.part {T U : Type} {L : PathSpec T} {L' : PathSpec U} {c' : Nat → Bytes}
    {r : Result Unit × T} {f : T → U} (h : L.WriteOutcome c c' r) (hrep : ∀ c t, L.Rep c t → L'.Rep c (f t))
    (hfails : ∀ e, L.WriteFails e → L'.WriteFails e) (hdead : ∀ e, L.Dead e → L'.Dead e) :
    L'.WriteOutcome c c' (r.1, f r.2) := by
  cases h with
  | ok ht => exact .ok (hrep _ _ ht)
  | failed he ht => exact .failed (hfails _ he) (hrep _ _ ht)
  | dead he => exact .dead (hdead _ he)

end

namespace TieredMerklePageStore

variable {S H : Type} [PageStore S] [PageStore H] [Sha256]

/-- A tiered tree of `n` pages of `sz` bytes, its hashes those of the pages. -/
structure Represents (HS : HonestStore S) (HH : HonestStore H) (storeId : FixedBytes 16) (n sz : Nat) (c : Nat → Bytes)
    (s : TieredMerklePageStore S H) : Prop where
  storeId : s.storeId = storeId
  pageCount : s.pageCount = n
  pageSize : s.pageSize = sz
  stands : Stands HS HH s.toTieredLayout c (tree s.toTieredLayout c) s

variable {HS : HonestStore S} {HH : HonestStore H} {storeId : FixedBytes 16} {n sz : Nat} {c : Nat → Bytes}
  {s t : TieredMerklePageStore S H}

theorem Represents.of_stands (h : Represents HS HH storeId n sz c s) {c' : Nat → Bytes}
    (ht : Stands HS HH s.toTieredLayout c' (tree s.toTieredLayout c') t) : Represents HS HH storeId n sz c' t := by
  have hl := ht.layout
  refine ⟨?_, ?_, ?_, ?_⟩
  · rw [hl]
    exact h.storeId
  · rw [hl]
    exact h.pageCount
  · rw [hl]
    exact h.pageSize
  · rwa [hl]

variable (HS HH storeId) in
def honest : HonestStore (TieredMerklePageStore S H) :=
  .ofLoops (Represents HS HH storeId) (fun h => h.pageCount) (fun h => h.pageSize)
    (fun h i hi => by
      rw [HS.page_length h.stands.data i (by rw [h.pageCount]; exact hi)]
      exact h.pageSize)
    (fun h hi => by
      obtain ⟨t, hrun, ht⟩ := readPage_stands h.stands (by rw [h.pageCount]; exact hi)
      exact ⟨t, by rw [← h.pageSize]; exact hrun, h.of_stands ht⟩)
    (fun h hi hl => by
      obtain ⟨t, hrun, ht⟩ := writePage_stands h.stands (by rw [h.pageCount]; exact hi) (hl.trans h.pageSize.symm)
      exact ⟨t, hrun, h.of_stands ht⟩)
    (fun _ _ => rfl) fun idxs pages s hlen => by
      show (if idxs.length ≠ pages.length then _ else _ : Eff Error (TieredMerklePageStore S H) Unit) s = _
      rw [if_neg (not_not_intro hlen)]
      rfl

end TieredMerklePageStore

inductive StoreKind where
  | plain
  | sidecar
  | embedded
  deriving DecidableEq, Repr

namespace CircuitReopenPageStore

variable {S H : Type} [PageStore S] [PageStore H] [Sha256] (HS : HonestStore S) (HH : HonestStore H) (storeId : FixedBytes 16)
  (kind : StoreKind) {n sz : Nat} {c c' : Nat → Bytes}

/-- A store of a kind, and the pages it stands for. -/
def Represents (n sz : Nat) (c : Nat → Bytes) : CircuitReopenPageStore S H → Prop
  | .plain store => kind = .plain ∧ (HS.contract n sz).Rep c store
  | .sidecar store => kind = .sidecar ∧ ((TieredMerklePageStore.honest HS HH storeId).contract n sz).Rep c store
  | .embedded store => kind = .embedded ∧ (EmbeddedTreePageStore.contract HS.atomic storeId n sz).Rep c store

/-- Nothing fails. -/
def spec (n sz : Nat) : PathSpec (CircuitReopenPageStore S H) where
  Rep := Represents HS HH storeId kind n sz
  Ready _ _ := True
  ReadFails _ := False
  WriteFails _ := False
  Dead _ := False

variable {HS HH storeId kind}

omit [Sha256] in
theorem plain_readPath {path : List Nat} {s : S} (h : (HS.contract n sz).Rep c s) (hp : RootPath n path) :
    (HS.contract n sz).ReadOutcome c [path] (path.map c) (readPlainPathPages path s) := by
  obtain ⟨d, hd, hdc⟩ := h
  obtain ⟨t, hrun, ht⟩ := readPlainPathPages_holds hd hp.lt
  rw [hrun, List.map_congr_left fun i hi => hdc i (hp.lt i hi)]
  exact .ok ⟨d, ht, hdc⟩ trivial

omit [Sha256] in
theorem plain_writePath {path : List Nat} {s : S} (h : (HS.contract n sz).Rep c s) (hp : RootPath n path)
    (hl : ∀ i ∈ path, (c' i).length = sz) :
    (HS.contract n sz).WriteOutcome c (patch path c' c) (writePlainPathPages path (path.map c') s) := by
  obtain ⟨d, hd, hdc⟩ := h
  have hlen : path.length = (path.map c').length := (List.length_map _).symm
  obtain ⟨t, hrun, ht⟩ := writePlainPathPages_holds hd hp.lt hlen (List.forall_mem_map.mpr hl)
  rw [overwrite_zip] at ht
  rw [hrun]
  exact .ok ⟨_, ht, fun i hi => by simp only [patch, hdc i hi]⟩

omit [Sha256] in
theorem no_fault {e : Error} : ¬ (HS.atomic).Fails e := fun h => h.elim False.elim False.elim

variable (HS HH storeId kind n sz) in
/-- Each kind of store keeps the contract of its own. -/
def contract : PathContract (CircuitReopenPageStore S H) n sz where
  toPathSpec := spec HS HH storeId kind n sz
  shape := by
    rintro c (s | s | s) ⟨-, h⟩
    · exact (HS.contract n sz).shape h
    · exact ((TieredMerklePageStore.honest HS HH storeId).contract n sz).shape h
    · exact (EmbeddedTreePageStore.contract HS.atomic storeId n sz).shape h
  congr := by
    rintro c c' (s | s | s) ⟨hk, h⟩ hc
    · exact ⟨hk, (HS.contract n sz).congr h hc⟩
    · exact ⟨hk, ((TieredMerklePageStore.honest HS HH storeId).contract n sz).congr h hc⟩
    · exact ⟨hk, (EmbeddedTreePageStore.contract HS.atomic storeId n sz).congr h hc⟩
  readPath := by
    rintro c (s | s | s) path ⟨hk, h⟩ hp
    · exact (plain_readPath h hp).part (fun _ ht => ⟨hk, ht⟩) (fun _ _ => trivial) fun _ he => he
    · exact (((TieredMerklePageStore.honest HS HH storeId).contract n sz).readPath h hp).part
        (fun _ ht => ⟨hk, ht⟩) (fun _ _ => trivial) fun _ he => he
    · exact ((EmbeddedTreePageStore.contract HS.atomic storeId n sz).readPath h hp).part
        (fun _ ht => ⟨hk, ht⟩) (fun _ _ => trivial) fun _ he => no_fault he
  readPaths := by
    rintro c (s | s | s) paths ⟨hk, h⟩ hne hp
    · exact ((HS.contract n sz).readPaths h hne hp).part (fun _ ht => ⟨hk, ht⟩) (fun _ _ => trivial) fun _ he => he
    · exact (((TieredMerklePageStore.honest HS HH storeId).contract n sz).readPaths h hne hp).part
        (fun _ ht => ⟨hk, ht⟩) (fun _ _ => trivial) fun _ he => he
    · exact ((EmbeddedTreePageStore.contract HS.atomic storeId n sz).readPaths h hne hp).part
        (fun _ ht => ⟨hk, ht⟩) (fun _ _ => trivial) fun _ he => no_fault he
  writePath := by
    rintro c c' (s | s | s) path ⟨hk, h⟩ hready hp hl
    · exact (plain_writePath h hp hl).part (fun _ _ ht => ⟨hk, ht⟩) (fun _ he => he) fun _ he => he
    · exact (((TieredMerklePageStore.honest HS HH storeId).contract n sz).writePath h hready hp hl).part
        (fun _ _ ht => ⟨hk, ht⟩) (fun _ he => he) fun _ he => he
    · exact ((EmbeddedTreePageStore.contract HS.atomic storeId n sz).writePath h hready hp hl).part
        (fun _ _ ht => ⟨hk, ht⟩) (fun _ he => no_fault he) fun _ he => no_fault he
  writePaths := by
    rintro c c' (s | s | s) paths ⟨hk, h⟩ hready hne hp hl
    · exact ((HS.contract n sz).writePaths h hready hne hp hl).part (fun _ _ ht => ⟨hk, ht⟩) (fun _ he => he) fun _ he => he
    · exact (((TieredMerklePageStore.honest HS HH storeId).contract n sz).writePaths h hready hne hp hl).part
        (fun _ _ ht => ⟨hk, ht⟩) (fun _ he => he) fun _ he => he
    · exact ((EmbeddedTreePageStore.contract HS.atomic storeId n sz).writePaths h hready hne hp hl).part
        (fun _ _ ht => ⟨hk, ht⟩) (fun _ he => no_fault he) fun _ he => no_fault he

end CircuitReopenPageStore
end BpirOram
