/-
  BpirOram.Merkle.Beside — a tiered store and an in-memory store given the same calls.

  The two are built over honest stores with the same pages; reads and writes, in range or
  not, go to both, and the tiered store is at any time reopened from its trusted state.
  `c` is what was last written to each page.

  - `Beside.agree`: the same root, the full tree's hash at every node of either, the same
    outcome of every call, and the bytes last written from every read in range.
-/

import BpirOram.Merkle.Honest

namespace BpirOram

open Lib

section
variable {S H M : Type} [PageStore S] [PageStore H] [PageStore M] [Sha256]

inductive Beside (HS : HonestStore S) (HH : HonestStore H) (HM : HonestStore M) (storeId : FixedBytes 16) (n sz : Nat) :
    (Nat → Bytes) → TieredMerklePageStore S H → MerklePageStore M → Prop
  | start {c d m hsz levels inner hashStore inner' t u} : HS.Holds n sz c inner → HH.Holds m hsz d hashStore →
      HM.Holds n sz c inner' → TieredMerklePageStore.build inner hashStore storeId levels = .ok t →
      MerklePageStore.new inner' storeId = .ok u → Beside HS HH HM storeId n sz c t u
  | read {c t u} (pageIdx len : Nat) : Beside HS HH HM storeId n sz c t u →
      Beside HS HH HM storeId n sz c (PageStore.readPage pageIdx len t).2 (PageStore.readPage pageIdx len u).2
  | write {c t u} (pageIdx : Nat) (input : Bytes) : Beside HS HH HM storeId n sz c t u →
      Beside HS HH HM storeId n sz (written n sz c pageIdx input) (PageStore.writePage pageIdx input t).2
        (PageStore.writePage pageIdx input u).2
  | reopen {c t u t'} : Beside HS HH HM storeId n sz c t u →
      TieredMerklePageStore.fromTrustedState t.inner t.hashStore t.trustedState = .ok t' →
      Beside HS HH HM storeId n sz c t' u

variable {HS : HonestStore S} {HH : HonestStore H} {HM : HonestStore M} {storeId : FixedBytes 16} {n sz : Nat}
variable {c : Nat → Bytes} {t : TieredMerklePageStore S H} {u : MerklePageStore M}

/-- What a run keeps: both stores hold the pages and their tree, at the same sizes. -/
structure SideBySide (HS : HonestStore S) (HH : HonestStore H) (HM : HonestStore M) (storeId : FixedBytes 16) (n sz : Nat)
    (c : Nat → Bytes) (t : TieredMerklePageStore S H) (u : MerklePageStore M) : Prop where
  layout : t.storeId = storeId ∧ t.pageCount = n ∧ t.pageSize = sz
  tiered : t.Stands HS HH t.toTieredLayout c (TieredMerklePageStore.tree t.toTieredLayout c)
  shape : u.shape = (storeId, n, sz, t.leafBase)
  inMemory : u.Stands HM c

theorem SideBySide.sizes (h : SideBySide HS HH HM storeId n sz c t u) :
    u.storeId = storeId ∧ u.pageCount = n ∧ u.pageSize = sz ∧ u.leafBase = t.leafBase := by
  simpa only [MerklePageStore.shape, Prod.mk.injEq] using h.shape

/-- A tiered store that keeps its layout still stands beside. -/
theorem SideBySide.advance {c' : Nat → Bytes} {t' : TieredMerklePageStore S H} {u' : MerklePageStore M}
    (h : SideBySide HS HH HM storeId n sz c t u)
    (ht : t'.Stands HS HH t.toTieredLayout c' (TieredMerklePageStore.tree t.toTieredLayout c')) (hu : u'.Stands HM c')
    (hshape : u'.shape = u.shape) : SideBySide HS HH HM storeId n sz c' t' u' := by
  have hlayout := ht.layout
  have hbase := congrArg TieredLayout.leafBase hlayout
  obtain ⟨⟨rfl, rfl, rfl⟩, -, hsame, -⟩ := h
  exact ⟨⟨congrArg TieredLayout.storeId hlayout, congrArg TieredLayout.pageCount hlayout,
      congrArg TieredLayout.pageSize hlayout⟩,
    by rw [hlayout]; exact ht, by rw [hshape, hsame, hbase], hu⟩

theorem SideBySide.read_ok (h : SideBySide HS HH HM storeId n sz c t u) {i : Nat} (hi : i < n) :
    ((PageStore.readPage i sz t).1 = .ok (c i) ∧ (PageStore.readPage i sz u).1 = .ok (c i)) ∧
      SideBySide HS HH HM storeId n sz c (PageStore.readPage i sz t).2 (PageStore.readPage i sz u).2 := by
  obtain ⟨-, hn, hsz, -⟩ := h.sizes
  obtain ⟨t', hread, ht'⟩ := TieredMerklePageStore.readPage_stands h.tiered (i := i) (by rw [h.layout.2.1]; exact hi)
  obtain ⟨u', hread', hu', hshape⟩ := MerklePageStore.readPage_stands h.inMemory (i := i) (by rw [hn]; exact hi)
  rw [h.layout.2.2] at hread
  rw [hsz] at hread'
  rw [hread, hread']
  exact ⟨⟨rfl, rfl⟩, h.advance ht' hu' hshape⟩

theorem SideBySide.write_ok (h : SideBySide HS HH HM storeId n sz c t u) {i : Nat} {page : Bytes} (hi : i < n)
    (hlen : page.length = sz) :
    ((PageStore.writePage i page t).1 = .ok () ∧ (PageStore.writePage i page u).1 = .ok ()) ∧
      SideBySide HS HH HM storeId n sz (Function.update c i page) (PageStore.writePage i page t).2
        (PageStore.writePage i page u).2 := by
  obtain ⟨-, hn, hsz, -⟩ := h.sizes
  obtain ⟨t', hwrite, ht'⟩ := TieredMerklePageStore.writePage_stands h.tiered (show i < _ by rw [h.layout.2.1]; exact hi)
    (show page.length = _ by rw [h.layout.2.2]; exact hlen)
  obtain ⟨u', hwrite', hu', hshape⟩ := MerklePageStore.writePage_stands h.inMemory (show i < _ by rw [hn]; exact hi)
    (show page.length = _ by rw [hsz]; exact hlen)
  rw [hwrite, hwrite']
  exact ⟨⟨rfl, rfl⟩, h.advance ht' hu' hshape⟩

/-- A call that is not of a page of the store is refused by both alike, and changes neither. -/
theorem SideBySide.refused (h : SideBySide HS HH HM storeId n sz c t u) {i len : Nat} (hbad : ¬ (i < n ∧ len = sz)) :
    ∃ e, PageStore.readPage i len t = (.error e, t) ∧ PageStore.readPage i len u = (.error e, u) ∧
      ∀ input : Bytes, input.length = len →
        PageStore.writePage i input t = (.error e, t) ∧ PageStore.writePage i input u = (.error e, u) := by
  obtain ⟨-, hn, hsz, -⟩ := h.sizes
  obtain ⟨⟨-, rfl, rfl⟩, -⟩ := h
  obtain ⟨e, he⟩ := checkMerklePage_error hbad
  have he' : checkMerklePage u.pageCount u.pageSize i len = .error e := by rw [hn, hsz, he]
  refine ⟨e, ?_, ?_, ?_⟩
  · show (Eff.get >>= _) t = _
    rw [Eff.get_bind, he]
    rfl
  · show (Eff.get >>= _) u = _
    rw [Eff.get_bind, he']
    rfl
  · rintro input rfl
    constructor
    · show (Eff.get >>= _) t = _
      rw [Eff.get_bind, he]
      rfl
    · show (Eff.get >>= _) u = _
      rw [Eff.get_bind, he']
      rfl

theorem new_of_build {m hsz levels : Nat} {d : Nat → Bytes} {inner : S} {hashStore : H} {inner' : M}
    (hdata : HS.Holds n sz c inner) (hdisk : HH.Holds m hsz d hashStore) (hmemory : HM.Holds n sz c inner')
    (hbuild : TieredMerklePageStore.build inner hashStore storeId levels = .ok t) :
    ∃ u, MerklePageStore.new inner' storeId = .ok u ∧ SideBySide HS HH HM storeId n sz c t u := by
  obtain ⟨ht, hid, hn, hsz⟩ := TieredMerklePageStore.build_stands hdata hdisk hbuild
  have hpos : 0 < sz := by
    rcases Nat.eq_zero_or_pos sz with h0 | hpos
    · unfold TieredMerklePageStore.build at hbuild
      rw [HS.pageSize_eq hdata, if_pos (.inr h0)] at hbuild
      cases hbuild
    · exact hpos
  obtain ⟨u, hnew, hu, hshape⟩ := MerklePageStore.new_stands storeId hmemory (hn ▸ t.pageCount_pos)
    hpos (by rw [← hn, ← t.leafBase_eq]; exact t.leafBase_lt)
  exact ⟨u, hnew, ⟨hid, hn, hsz⟩, ht, by rw [hshape, t.leafBase_eq, hn], hu⟩

theorem Beside.sideBySide (h : Beside HS HH HM storeId n sz c t u) : SideBySide HS HH HM storeId n sz c t u := by
  induction h with
  | start hdata hdisk hmemory hbuild hnew =>
    obtain ⟨u, hnew', hside⟩ := new_of_build hdata hdisk hmemory hbuild
    rw [hnew] at hnew'
    cases hnew'
    exact hside
  | @read c t u i len _ ih =>
    by_cases hok : i < n ∧ len = sz
    · obtain ⟨hi, rfl⟩ := hok
      exact (ih.read_ok hi).2
    · obtain ⟨e, ht, hu, -⟩ := ih.refused hok
      rw [ht, hu]
      exact ih
  | @write c t u i input _ ih =>
    unfold written
    by_cases hok : i < n ∧ input.length = sz
    · rw [if_pos hok]
      exact (ih.write_ok hok.1 hok.2).2
    · obtain ⟨e, -, -, hwrite⟩ := ih.refused hok
      obtain ⟨ht, hu⟩ := hwrite input rfl
      rw [if_neg hok, ht, hu]
      exact ih
  | @reopen c t u t' _ hopen ih =>
    obtain ⟨t'', hopen', ht''⟩ := TieredMerklePageStore.fromTrustedState_stands ih.tiered
    rw [hopen] at hopen'
    cases hopen'
    exact ih.advance ht'' ih.inMemory rfl

/-- The tiered store is the in-memory store, whatever the calls and however often it is
    reopened. What the first accepts at building the second accepts. -/
theorem Beside.agree :
    (∀ m hsz levels c d (inner : S) (hashStore : H) (inner' : M) t, HS.Holds n sz c inner → HH.Holds m hsz d hashStore →
      HM.Holds n sz c inner' → TieredMerklePageStore.build inner hashStore storeId levels = .ok t →
      ∃ u, MerklePageStore.new inner' storeId = .ok u) ∧
    ∀ c t u, Beside HS HH HM storeId n sz c t u →
      t.root = u.root ∧
      (∀ k, 0 < k → k < t.leafBase * 2 →
        (TieredMerklePageStore.readHash k t).1 = .ok (pageTree storeId n sz t.leafBase c k) ∧
        u.hashes[k]? = some (pageTree storeId n sz t.leafBase c k)) ∧
      (∀ i < n, (PageStore.readPage i sz t).1 = .ok (c i) ∧ (PageStore.readPage i sz u).1 = .ok (c i)) ∧
      (∀ i < n, ∀ page, page.length = sz → (PageStore.writePage i page t).1 = .ok ()) ∧
      (∀ i len, (PageStore.readPage i len t).1 = (PageStore.readPage i len u).1) ∧
      (∀ i input, (PageStore.writePage i input t).1 = (PageStore.writePage i input u).1) ∧
      ∃ t', TieredMerklePageStore.fromTrustedState t.inner t.hashStore t.trustedState = .ok t' := by
  refine ⟨?_, ?_⟩
  · intro m hsz levels c d inner hashStore inner' t hdata hdisk hmemory hbuild
    obtain ⟨u, hnew, -⟩ := new_of_build hdata hdisk hmemory hbuild
    exact ⟨u, hnew⟩
  intro c t u hrun
  have h := hrun.sideBySide
  have hbase := t.pageCount_le
  have hpos := t.pageCount_pos
  have htree : pageTree storeId n sz t.leafBase c = TieredMerklePageStore.tree t.toTieredLayout c := by
    unfold TieredMerklePageStore.tree
    rw [h.layout.1, h.layout.2.1, h.layout.2.2]
  obtain ⟨hid, hn, hsz, hleaves⟩ := h.sizes
  have hnode : ∀ k, 0 < k → k < t.leafBase * 2 → u.hashes.getD k noHash = pageTree storeId n sz t.leafBase c k := by
    intro k h0 hk
    rw [h.inMemory.hashes k h0 (by rw [hleaves]; exact hk), hid, hn, hsz, hleaves]
  refine ⟨?_, ?_, fun i hi => (h.read_ok hi).1, fun i hi page hlen => (h.write_ok hi hlen).1.1, ?_, ?_, ?_⟩
  · rw [TieredMerklePageStore.root_stands h.tiered, MerklePageStore.root, hnode 1 (by omega) (by omega), htree]
  · intro k h0 hk
    obtain ⟨t', hread, -⟩ := TieredMerklePageStore.readHash_stands h.tiered h0 hk
    have hlen : k < u.hashes.length := by rw [h.inMemory.length, hleaves]; exact hk
    have hget := hnode k h0 hk
    rw [List.getD_eq_getElem?_getD, List.getElem?_eq_getElem hlen, Option.getD_some] at hget
    exact ⟨by rw [hread, htree], by rw [List.getElem?_eq_getElem hlen, hget]⟩
  · intro i len
    by_cases hok : i < n ∧ len = sz
    · obtain ⟨hi, rfl⟩ := hok
      obtain ⟨⟨ht, hu⟩, -⟩ := h.read_ok hi
      rw [ht, hu]
    · obtain ⟨e, ht, hu, -⟩ := h.refused hok
      rw [ht, hu]
  · intro i input
    by_cases hok : i < n ∧ input.length = sz
    · obtain ⟨⟨ht, hu⟩, -⟩ := h.write_ok hok.1 hok.2
      rw [ht, hu]
    · obtain ⟨e, -, -, hwrite⟩ := h.refused hok
      obtain ⟨ht, hu⟩ := hwrite input rfl
      rw [ht, hu]
  · obtain ⟨t', hopen, -⟩ := TieredMerklePageStore.fromTrustedState_stands h.tiered
    exact ⟨t', hopen⟩

end

/-! ## A small store -/

/-- A stand-in for SHA-256 that evaluates: the message as a number in base 257, cut to 32 bytes. -/
@[reducible] def smallSha256 : Sha256 where
  digest m := ⟨toLe 32 (m.foldl (fun acc b => (acc * 257 + b.toNat + 1) % 2 ^ 256) 0), toLe_length _ _⟩

section
local instance : Sha256 := smallSha256

/-- Three pages of one byte under two trusted levels, the other hashes two to a page. -/
def smallTieredBuild : Result (TieredMerklePageStore MemPageStore MemPageStore) :=
  TieredMerklePageStore.build (zeroPages 3 1 Nat.one_pos) (zeroPages 2 64 (Nat.succ_pos 63)) (FixedBytes.zero 16) 2

def smallTiered : TieredMerklePageStore MemPageStore MemPageStore := smallTieredBuild.toOption.get (by decide +kernel)

theorem Beside.agree_smallTiered :
    ∃ u : MerklePageStore MemPageStore, (PageStore.writePage 1 [7] smallTiered).2.root = u.root ∧
      (PageStore.readPage 1 1 u).1 = .ok [7] ∧
      (PageStore.readPage 1 1 (PageStore.writePage 1 [7] smallTiered).2).1 = .ok [7] := by
  have hdata := zeroPages_holds 3 1 Nat.one_pos
  have hdisk := zeroPages_holds 2 64 (Nat.succ_pos 63)
  have hbuild : smallTieredBuild = .ok smallTiered := toOption_get _
  obtain ⟨u, hnew⟩ := Beside.agree.1 2 64 2 _ _ _ _ _ _ hdata hdisk hdata hbuild
  have hrun := Beside.write 1 [7] (.start hdata hdisk hdata hbuild hnew)
  obtain ⟨hroot, -, hread, -⟩ := Beside.agree.2 _ _ _ hrun
  exact ⟨_, hroot, (hread 1 (by decide)).2, (hread 1 (by decide)).1⟩

end
end BpirOram
