/-
  BpirOram.Store — `store.rs`: fixed-size page stores and the path-level view the ORAM
  controller uses of them.

  A method on `&mut self` is an `Eff`: it may fail, and leaves a state either way. A
  store of pages is a store of paths by flattening the paths (the blanket impl); the
  authenticated tree has an implementation of its own.
-/

import BpirOram.Basic
import Mathlib.Logic.Function.Basic
import Mathlib.Data.List.Basic
import Mathlib.Tactic.Common

namespace BpirOram

open Lib

/-- `merkle.rs`: the trusted top of a tiered tree. -/
structure TieredMerkleState where
  storeId : FixedBytes 16
  pageCount : Nat
  pageSize : Nat
  trustedLevels : Nat
  hashPageSize : Nat
  trustedHashes : List (FixedBytes 32)
  deriving DecidableEq

/-- `embedded_tree.rs`: the trusted root of an embedded tree. -/
structure EmbeddedTreeState where
  storeId : FixedBytes 16
  pageCount : Nat
  logicalPageSize : Nat
  rootHash : FixedBytes 32
  deriving DecidableEq

/-- `read_page` is given the length of the caller's buffer and returns what it holds then. -/
class PageStore (S : Type) where
  pageSize : S → Nat
  pageCount : S → Nat
  readPage (pageIdx len : Nat) : Eff Error S Bytes
  writePage (pageIdx : Nat) (input : Bytes) : Eff Error S Unit
  readPages (pageIndices : List Nat) : Eff Error S (List Bytes) := do
    let s ← Eff.get
    Eff.forEach (fun pageIdx => readPage pageIdx (pageSize s)) pageIndices
  writePages (pageIndices : List Nat) (pages : List Bytes) : Eff Error S Unit := do
    if pageIndices.length ≠ pages.length then
      Eff.fail (.invalidInput s!"page index count {pageIndices.length} != page count {pages.length}")
    else do
      let s ← Eff.get
      let _ ← Eff.forEach (fun (pageIdx, page) =>
        if page.length ≠ pageSize s then
          Eff.fail (.invalidInput s!"page len {page.length} != page_size {pageSize s}")
        else writePage pageIdx page) (pageIndices.zip pages)
  flush : Eff Error S Unit := pure ()
  tieredMerkleState : S → Option TieredMerkleState := fun _ => none

class PathPageStore (S : Type) where
  pageSize : S → Nat
  pageCount : S → Nat
  readPathPages (path : List Nat) : Eff Error S (List Bytes)
  writePathPages (path : List Nat) (pages : List Bytes) : Eff Error S Unit
  readPathsPages (paths : List (List Nat)) : Eff Error S (List (List Bytes)) :=
    Eff.forEach readPathPages paths
  writePathsPages (paths : List (List Nat)) (pages : List (List Bytes)) : Eff Error S Unit := do
    if paths.length ≠ pages.length then
      Eff.fail (.invalidInput s!"path count {paths.length} != page-path count {pages.length}")
    else do
      let _ ← Eff.forEach (fun (path, pathPages) => writePathPages path pathPages) (paths.zip pages)
  flush : Eff Error S Unit := pure ()
  tieredMerkleState : S → Option TieredMerkleState := fun _ => none
  embeddedTreeState : S → Option EmbeddedTreeState := fun _ => none

/-! ## Pages as paths -/

/-- The flat pages handed back to their paths: each path takes as many as it has nodes. -/
def unflatten : List (List Nat) → List Bytes → Result (List (List Bytes))
  | [], _ => .ok []
  | path :: paths, pages =>
    if pages.length < path.length then .error (.panic "flat page count matches path lengths")
    else do
      let rest ← unflatten paths (pages.drop path.length)
      .ok (pages.take path.length :: rest)

/-- Every path has a page for each of its nodes. -/
def checkPathLengths : List (List Nat × List Bytes) → Result Unit
  | [] => .ok ()
  | (path, pathPages) :: rest =>
    if path.length ≠ pathPages.length then
      .error (.invalidInput s!"path length {path.length} != page count {pathPages.length}")
    else checkPathLengths rest

instance {T : Type} [PageStore T] : PathPageStore T where
  pageSize := PageStore.pageSize
  pageCount := PageStore.pageCount
  readPathPages := PageStore.readPages
  writePathPages := PageStore.writePages
  readPathsPages paths := do
    let flatPages ← PageStore.readPages paths.flatten
    Eff.lift (unflatten paths flatPages)
  writePathsPages paths pages :=
    if paths.length ≠ pages.length then
      Eff.fail (.invalidInput s!"path count {paths.length} != page-path count {pages.length}")
    else do
      Eff.lift (checkPathLengths (paths.zip pages))
      PageStore.writePages paths.flatten pages.flatten
  flush := PageStore.flush
  tieredMerkleState := PageStore.tieredMerkleState
  embeddedTreeState := fun _ => none

/-! ## The in-memory store -/

structure MemPageStore where
  pageSize : Nat
  pages : Bytes
  pageSize_pos : 0 < pageSize
  pages_dvd : pageSize ∣ pages.length

theorem zeros_dvd (pageCount pageSize : Nat) : pageSize ∣ (List.replicate (pageCount * pageSize) (0 : UInt8)).length :=
  ⟨pageCount, by rw [List.length_replicate, Nat.mul_comm]⟩

namespace MemPageStore

def new (pageCount pageSize : Nat) : Result MemPageStore :=
  if h : pageCount = 0 ∨ pageSize = 0 then .error (.invalidInput "page_count and page_size must be > 0")
  else .ok
    { pageSize, pages := List.replicate (pageCount * pageSize) 0
      pageSize_pos := by omega, pages_dvd := zeros_dvd pageCount pageSize }

def pageCount (s : MemPageStore) : Nat := s.pages.length / s.pageSize

/-- `check_page`. -/
def checkPage (s : MemPageStore) (pageIdx len : Nat) : Result Unit :=
  if pageIdx ≥ s.pageCount then .error (.invalidInput s!"page_idx {pageIdx} out of range {s.pageCount}")
  else if len ≠ s.pageSize then .error (.invalidInput s!"page buffer len {len} != page_size {s.pageSize}")
  else .ok ()

def page (s : MemPageStore) (pageIdx : Nat) : Bytes := (s.pages.drop (pageIdx * s.pageSize)).take s.pageSize

/-- `pages[start..start + page_size].copy_from_slice(input)`, for `input` of a page's length
    and a page in range; otherwise the slicing panics, which `check_page` rules out. -/
def setPage (s : MemPageStore) (pageIdx : Nat) (input : Bytes) : MemPageStore :=
  let start := pageIdx * s.pageSize
  if h : input.length = s.pageSize ∧ start + s.pageSize ≤ s.pages.length then
    { s with
      pages := s.pages.take start ++ input ++ s.pages.drop (start + s.pageSize)
      pages_dvd := by
        have : (s.pages.take start ++ input ++ s.pages.drop (start + s.pageSize)).length = s.pages.length := by
          simp only [List.length_append, List.length_take, List.length_drop]; omega
        rw [this]; exact s.pages_dvd }
  else s

instance : PageStore MemPageStore where
  pageSize := MemPageStore.pageSize
  pageCount := MemPageStore.pageCount
  readPage pageIdx len := do
    let s ← Eff.get
    Eff.lift (s.checkPage pageIdx len)
    pure (s.page pageIdx)
  writePage pageIdx input := do
    let s ← Eff.get
    Eff.lift (s.checkPage pageIdx input.length)
    Eff.modify fun s => s.setPage pageIdx input

end MemPageStore
end BpirOram
