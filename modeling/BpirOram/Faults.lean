/-
  BpirOram.Faults — stores whose calls may fail.

  `AtomicStore` is an array of pages as `HonestStore` is, but a read may end in an error of
  `ReadFails` and a write in one of `WriteFails`, and then it did nothing. A `FaultyStore`
  fails each call of a kind while it has an error set for that kind.
  - `FaultyStore.atomic`: over an honest store it is atomic, failing as it is set to.
  - `AtomicStore.contract`: used by paths, an atomic store keeps a contract whose reads and
    writes may fail.
-/

import BpirOram.Contract

namespace BpirOram

open Lib

/-! ## Atomic stores -/

/-- How a call ends that is to return `val` and to turn what `H` holds from `c` into `c'`. -/
inductive Answer {S α : Type} (H : (Nat → Bytes) → S → Prop) (Fails : Error → Prop) (c c' : Nat → Bytes) (val : α) :
    Result α × S → Prop
  | ok {t} : H c' t → Answer H Fails c c' val (.ok val, t)
  | failed {e t} : Fails e → H c t → Answer H Fails c c' val (.error e, t)

structure AtomicStore (S : Type) [PageStore S] where
  Holds : Nat → Nat → (Nat → Bytes) → S → Prop
  ReadFails : Error → Prop
  WriteFails : Error → Prop
  pageCount_eq {n sz c s} : Holds n sz c s → PageStore.pageCount s = n
  pageSize_eq {n sz c s} : Holds n sz c s → PageStore.pageSize s = sz
  page_length {n sz c s} : Holds n sz c s → ∀ i < n, (c i).length = sz
  readPage {n sz c s i} : Holds n sz c s → i < n → Answer (Holds n sz) ReadFails c c (c i) (PageStore.readPage i sz s)
  writePage {n sz c s i page} : Holds n sz c s → i < n → page.length = sz →
    Answer (Holds n sz) WriteFails c (Function.update c i page) () (PageStore.writePage i page s)
  readPages {n sz c s idxs} : Holds n sz c s → (∀ i ∈ idxs, i < n) →
    Answer (Holds n sz) ReadFails c c (idxs.map c) (PageStore.readPages idxs s)
  writePages {n sz c s idxs pages} : Holds n sz c s → (∀ i ∈ idxs, i < n) → idxs.length = pages.length →
    (∀ page ∈ pages, page.length = sz) →
    Answer (Holds n sz) WriteFails c (overwrite c (idxs.zip pages)) () (PageStore.writePages idxs pages s)

/-- The errors a call may end in. -/
def AtomicStore.Fails {S : Type} [PageStore S] (A : AtomicStore S) (e : Error) : Prop := A.ReadFails e ∨ A.WriteFails e

theorem Answer.of_run {S α : Type} {H : (Nat → Bytes) → S → Prop} {Fails : Error → Prop} {c c' : Nat → Bytes}
    {val : α} {r : Result α × S} (h : ∃ t, r = (.ok val, t) ∧ H c' t) : Answer H Fails c c' val r := by
  obtain ⟨t, rfl, ht⟩ := h
  exact .ok ht

/-- An honest store is one whose calls do not fail. -/
def HonestStore.atomic {S : Type} [PageStore S] (HS : HonestStore S) : AtomicStore S where
  Holds := HS.Holds
  ReadFails _ := False
  WriteFails _ := False
  pageCount_eq := HS.pageCount_eq
  pageSize_eq := HS.pageSize_eq
  page_length := HS.page_length
  readPage h hi := .of_run (HS.readPage h hi)
  writePage h hi hl := .of_run (HS.writePage h hi hl)
  readPages h hi := .of_run (HS.readPages h hi)
  writePages h hi hlen hl := .of_run (HS.writePages h hi hlen hl)

/-! ## Faulty stores -/

/-- The errors that the reads and the writes of a store end in, if any. -/
structure FaultyStore (S : Type) where
  inner : S
  readFault : Option Error
  writeFault : Option Error

namespace FaultyStore

variable {S α : Type}

/-- A call on the store within, unless it is to fail. -/
def call (fault : FaultyStore S → Option Error) (m : Eff Error S α) : Eff Error (FaultyStore S) α := fun s =>
  match fault s with
  | some e => (.error e, s)
  | none => ((m s.inner).1, { s with inner := (m s.inner).2 })

instance [PageStore S] : PageStore (FaultyStore S) where
  pageSize s := PageStore.pageSize s.inner
  pageCount s := PageStore.pageCount s.inner
  readPage pageIdx len := call (·.readFault) (PageStore.readPage pageIdx len)
  writePage pageIdx input := call (·.writeFault) (PageStore.writePage pageIdx input)
  readPages pageIndices := call (·.readFault) (PageStore.readPages pageIndices)
  writePages pageIndices pages := call (·.writeFault) (PageStore.writePages pageIndices pages)
  flush := call (·.writeFault) PageStore.flush
  tieredMerkleState s := PageStore.tieredMerkleState s.inner

/-- A store over `HS` that fails reads with `readFault` and writes with `writeFault`. -/
structure Holds [PageStore S] (HS : HonestStore S) (readFault writeFault : Option Error) (n sz : Nat) (c : Nat → Bytes)
    (s : FaultyStore S) : Prop where
  inner : HS.Holds n sz c s.inner
  readFault : s.readFault = readFault
  writeFault : s.writeFault = writeFault

variable [PageStore S] {HS : HonestStore S} {readFault writeFault : Option Error} {n sz : Nat}

theorem Holds.call {c c' : Nat → Bytes} {val : α} {m : Eff Error S α} {s : FaultyStore S}
    {fault : FaultyStore S → Option Error}
    {err : Option Error} (hs : Holds HS readFault writeFault n sz c s) (hfault : fault s = err)
    (h : ∃ t, m s.inner = (.ok val, t) ∧ HS.Holds n sz c' t) :
    Answer (Holds HS readFault writeFault n sz) (err = some ·) c c' val (call fault m s) := by
  obtain ⟨t, hrun, ht⟩ := h
  unfold FaultyStore.call
  cases err with
  | none =>
    rw [hfault, hrun]
    exact .ok ⟨ht, hs.readFault, hs.writeFault⟩
  | some e =>
    rw [hfault]
    exact .failed rfl hs

variable (HS readFault writeFault) in
def atomic : AtomicStore (FaultyStore S) where
  Holds := Holds HS readFault writeFault
  ReadFails := (readFault = some ·)
  WriteFails := (writeFault = some ·)
  pageCount_eq h := HS.pageCount_eq h.inner
  pageSize_eq h := HS.pageSize_eq h.inner
  page_length h := HS.page_length h.inner
  readPage h hi := h.call h.readFault (HS.readPage h.inner hi)
  writePage h hi hl := h.call h.writeFault (HS.writePage h.inner hi hl)
  readPages h hi := h.call h.readFault (HS.readPages h.inner hi)
  writePages h hi hlen hl := h.call h.writeFault (HS.writePages h.inner hi hlen hl)

end FaultyStore

/-! ## Read and written by paths -/

section
variable {S α β : Type} {L : PathSpec S} {H : (Nat → Bytes) → S → Prop} {Fails : Error → Prop}
    {c c' d d' : Nat → Bytes}

theorem Answer.bind_lift {val : α} {val' : β} {m : Eff Error S α} {f : α → Result β} {s : S}
    (h : Answer H Fails c c' val (m s)) (hf : f val = .ok val') :
    Answer H Fails c c' val' ((m >>= fun a => Eff.lift (f a)) s) := by
  generalize hrun : m s = r at h
  cases h with
  | ok ht =>
    rw [Eff.bind_ok hrun, hf]
    exact .ok ht
  | failed he ht =>
    rw [Eff.bind_error hrun]
    exact .failed he ht

theorem Answer.forEach {f : α → Eff Error S β} {g : α → β} {l : List α} {s : S}
    (h : ∀ a ∈ l, ∀ s, H c s → Answer H Fails c c (g a) (f a s)) (hs : H c s) :
    Answer H Fails c c (l.map g) (Eff.forEach f l s) := by
  induction l generalizing s with
  | nil => exact .ok hs
  | cons a l ih =>
    have hhead := h a List.mem_cons_self s hs
    generalize hrun : f a s = r at hhead
    cases hhead with
    | failed he ht =>
      rw [Eff.forEach_error_head hrun]
      exact .failed he ht
    | @ok t ht =>
      have htail := ih (fun x hx => h x (List.mem_cons_of_mem _ hx)) ht
      generalize hrest : Eff.forEach f l t = r at htail
      cases htail with
      | failed he hu =>
        rw [Eff.forEach_error_tail hrun hrest]
        exact .failed he hu
      | ok hu =>
        rw [Eff.forEach_ok hrun hrest]
        exact .ok hu

theorem Answer.readOutcome {paths : List (List Nat)} {val : α} {r : Result α × S} (h : Answer H Fails d d val r)
    (hrep : ∀ t, H d t → L.Rep c t ∧ L.Ready paths t) (hfails : ∀ e, Fails e → L.ReadFails e) :
    L.ReadOutcome c paths val r := by
  cases h with
  | ok ht => exact .ok (hrep _ ht).1 (hrep _ ht).2
  | failed he ht => exact .failed (hfails _ he) (hrep _ ht).1

theorem Answer.writeOutcome {r : Result Unit × S} (h : Answer H Fails d d' () r) (hrep : ∀ t, H d t → L.Rep c t)
    (hrep' : ∀ t, H d' t → L.Rep c' t) (hfails : ∀ e, Fails e → L.WriteFails e) : L.WriteOutcome c c' r := by
  cases h with
  | ok ht => exact .ok (hrep' _ ht)
  | failed he ht => exact .failed (hfails _ he) (hrep _ ht)

variable [PageStore S]

/-- An atomic store, used by paths, may fail and then keeps its contents. -/
def AtomicStore.contract (A : AtomicStore S) (n sz : Nat) : PathContract S n sz where
  Rep c s := ∃ d, A.Holds n sz d s ∧ ∀ i < n, d i = c i
  Ready _ _ := True
  ReadFails := A.ReadFails
  WriteFails := A.WriteFails
  Dead _ := False
  shape := by
    rintro c s ⟨d, h, -⟩
    exact ⟨A.pageCount_eq h, A.pageSize_eq h⟩
  congr := by
    rintro c c' s ⟨d, h, hd⟩ hc
    exact ⟨d, h, fun i hi => (hd i hi).trans (hc i hi)⟩
  readPath := by
    rintro c s path ⟨d, h, hd⟩ hp
    have hread := A.readPages h hp.lt
    rw [List.map_congr_left fun i hi => hd i (hp.lt i hi)] at hread
    exact hread.readOutcome (fun t ht => ⟨⟨d, ht, hd⟩, trivial⟩) fun _ he => he
  readPaths := by
    rintro c s paths ⟨d, h, hd⟩ - hp
    have hlt := RootPath.flatten_lt hp
    have hread := A.readPages h hlt
    rw [List.map_congr_left fun i hi => hd i (hlt i hi)] at hread
    exact (hread.bind_lift (unflatten_map c paths)).readOutcome (fun t ht => ⟨⟨d, ht, hd⟩, trivial⟩) fun _ he => he
  writePath := by
    rintro c c' s path ⟨d, h, hd⟩ - hp hl
    have hwrite := A.writePages h hp.lt (show path.length = (path.map c').length by simp) (by simpa using hl)
    rw [overwrite_zip] at hwrite
    exact hwrite.writeOutcome (fun t ht => ⟨d, ht, hd⟩) (fun t ht => ⟨_, ht, fun i hi => by simp only [patch, hd i hi]⟩)
      fun _ he => he
  writePaths := by
    rintro c c' s paths ⟨d, h, hd⟩ - - hp hl
    have hwrite := A.writePages h (RootPath.flatten_lt hp)
      (show paths.flatten.length = (paths.flatten.map c').length from (List.length_map _).symm) (by
        intro page hm
        obtain ⟨i, hi, rfl⟩ := List.mem_map.mp hm
        exact hl i hi)
    rw [overwrite_zip] at hwrite
    have hrun : (PathPageStore.writePathsPages paths (paths.map (·.map c')) : Eff Error S Unit)
        = PageStore.writePages paths.flatten (paths.flatten.map c') := by
      show (if paths.length ≠ (paths.map (·.map c')).length then _ else _ : Eff Error S Unit) = _
      rw [if_neg (by simp), checkPathLengths_map, Eff.lift_ok_bind, ← List.map_flatten]
    rw [hrun]
    exact hwrite.writeOutcome (fun t ht => ⟨d, ht, hd⟩) (fun t ht => ⟨_, ht, fun i hi => by simp only [patch, hd i hi]⟩)
      fun _ he => he

end
end BpirOram
