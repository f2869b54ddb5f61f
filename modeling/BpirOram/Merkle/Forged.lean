/-
  BpirOram.Merkle.Forged — when the tiered store is fresh on a disk in an adversary's hands.

  A read is checked against the hashes in memory, but a write renews them from sibling hashes
  that nobody checked. So the store is as good as the siblings its writes were handed.
  - `GenuineRun.read_last`: where each write that ended well got, over every other page under its
    trusted node, the hash of the tree of the contents, every read that ends well returns what
    was written last, whatever became of the disk.
  - `read_forged`: one write by a forged sibling, and a page nobody wrote reads as the forger
    had it.
-/

import BpirOram.Merkle.Hostile

namespace BpirOram

open Lib

namespace TieredMerklePageStore

section
variable {S H : Type} [PageStore S] [PageStore H] [Sha256]

/-- Over each other page under the trusted node of page `i`, one of the sibling hashes handed to a
    write is that of the tree of the contents. A sibling over no page may be anything. -/
def Genuine (l : TieredLayout) (c : Nat → Bytes) (i : Nat) (sibs : List (Nat × Hash)) : Prop :=
  ∀ j < l.pageCount, j ≠ i → l.trustedNode j = l.trustedNode i →
    ∃ v, Lib.Covers v (l.leafBase + j) ∧ (v, tree l c v) ∈ sibs

/-- A run of the store whose writes that ended well were handed genuine siblings, and what they
    wrote last. The disk may be exchanged between any two calls, and may fail. -/
inductive GenuineRun (HS : HonestStore S) (HH : HonestStore H) (M : Set Bytes) :
    TieredMerklePageStore S H → (Nat → Bytes) → Prop
  | build {n sz m hsz levels : Nat} {c d : Nat → Bytes} {inner : S} {hashStore : H} {storeId : FixedBytes 16}
      {s : TieredMerklePageStore S H} : HS.Holds n sz c inner → HH.Holds m hsz d hashStore →
      build inner hashStore storeId levels = .ok s → contentMessages s.toTieredLayout c ⊆ M → GenuineRun HS HH M s c
  | disk {s : TieredMerklePageStore S H} {c : Nat → Bytes} (inner : S) (hashStore : H) :
      GenuineRun HS HH M s c → GenuineRun HS HH M { s with inner, hashStore } c
  | read {s : TieredMerklePageStore S H} {c : Nat → Bytes} (i len : Nat) :
      GenuineRun HS HH M s c → GenuineRun HS HH M (PageStore.readPage i len s).2 c
  | write {s : TieredMerklePageStore S H} {c : Nat → Bytes} {i : Nat} {page : Bytes} {sibs : List (Nat × Hash)} :
      GenuineRun HS HH M s c → (writeUsing i page s).1 = .ok sibs → Genuine s.toTieredLayout c i sibs →
      (∀ m ∈ pathMessages s.toTieredLayout i page (sibs.map Prod.snd), m ∈ M) →
      contentMessages s.toTieredLayout (Function.update c i page) ⊆ M →
      GenuineRun HS HH M (PageStore.writePage i page s).2 (Function.update c i page)
  | refused {s : TieredMerklePageStore S H} {c : Nat → Bytes} {i : Nat} {page : Bytes} {e : Error} :
      GenuineRun HS HH M s c → (PageStore.writePage i page s).1 = .error e → GenuineRun HS HH M (PageStore.writePage i page s).2 c
  | reopen {s t : TieredMerklePageStore S H} {c : Nat → Bytes} (inner : S) (hashStore : H) :
      GenuineRun HS HH M s c → fromTrustedState inner hashStore s.trustedState = .ok t → GenuineRun HS HH M t c

variable {HS : HonestStore S} {HH : HonestStore H} {M : Set Bytes} {s t : TieredMerklePageStore S H} {c : Nat → Bytes}

/-- Genuine writes keep every page that was kept. -/
theorem Genuine.keptBy {l : TieredLayout} {kept : Nat → Prop} {i : Nat} {sibs : List (Nat × Hash)} (h : Genuine l c i sibs)
    (hkept : ∀ j < l.pageCount, kept j) : ∀ j < l.pageCount, KeptBy l c kept i sibs j := by
  intro j hj
  by_cases hself : j = i
  · exact .inl hself
  · refine .inr ?_
    split
    · rename_i hnode
      exact h j hj hself hnode
    · exact hkept j hj

/-- It is a run that keeps every page. -/
theorem GenuineRun.run (h : GenuineRun HS HH M s c) : ∃ kept, Run HS HH M s c kept ∧ ∀ i < s.pageCount, kept i := by
  induction h with
  | build hdata hdisk hbuild hc => exact ⟨_, .build hdata hdisk hbuild hc, fun _ _ => trivial⟩
  | disk inner hashStore _ ih =>
    obtain ⟨kept, hrun, hkept⟩ := ih
    exact ⟨kept, hrun.disk inner hashStore, hkept⟩
  | @read s c i len _ ih =>
    obtain ⟨kept, hrun, hkept⟩ := ih
    obtain ⟨inner, hashStore, heq⟩ := readPage_onDisk i len s
    refine ⟨kept, hrun.read i len, ?_⟩
    rw [heq]
    exact hkept
  | write _ hwrite hgenuine hin hc ih =>
    obtain ⟨kept, hrun, hkept⟩ := ih
    have hlayout := (writePage_wrote hrun.committed.length hwrite).but.layout
    refine ⟨_, hrun.write hwrite hin hc, ?_⟩
    rw [hlayout]
    exact hgenuine.keptBy hkept
  | refused _ hwrite ih =>
    obtain ⟨kept, hrun, hkept⟩ := ih
    obtain ⟨inner, hashStore, heq⟩ := writePage_onDisk hrun.committed.length hwrite
    refine ⟨kept, hrun.refused hwrite, ?_⟩
    rw [heq]
    exact hkept
  | reopen inner hashStore _ hopen ih =>
    obtain ⟨kept, hrun, hkept⟩ := ih
    obtain ⟨-, -, hcount, -⟩ := fromTrustedState_trusted hopen
    refine ⟨kept, hrun.reopen inner hashStore hopen, ?_⟩
    rw [hcount]
    exact hkept

/-- Whatever became of the disk, a page is read as it was last written, or not at all. -/
theorem GenuineRun.read_last (hM : Set.InjOn Sha256.digest M) (h : GenuineRun HS HH M s c) {i len : Nat} {page : Bytes}
    (hread : ReadHashed M i len s) (hrun : PageStore.readPage i len s = (.ok page, t)) : page = c i := by
  obtain ⟨kept, hkept, hall⟩ := h.run
  exact hkept.committed.read hM (hall i (readPage_using hrun).1) hread hrun

end

/-! ## A small store -/

section
attribute [local instance] smallTieredSha256

theorem genuineRun_smallTiered : GenuineRun MemPageStore.honest MemPageStore.honest { b | b ∈ smallTieredMessages }
    smallTiered (zeroPages 3 1 Nat.one_pos).page :=
  .build (zeroPages_holds 3 1 Nat.one_pos) (zeroPages_holds 2 64 (Nat.succ_pos 63)) (toOption_get _)
    (contentMessages_smallTiered List.mem_cons_self)

theorem genuine_smallTiered : Genuine smallTiered.toTieredLayout (zeroPages 3 1 Nat.one_pos).page 0 smallTieredSibs := by
  have hpages : smallTiered.pageCount = 3 := by decide +kernel
  intro j hj hne hnode
  rw [hpages] at hj
  -- page 2 is under the other trusted node
  have hj1 : j = 1 := by
    have hother : smallTiered.trustedNode 2 ≠ smallTiered.trustedNode 0 := by decide +kernel
    by_contra hj1
    obtain rfl : j = 2 := by omega
    exact hother hnode
  subst hj1
  exact ⟨smallTiered.leafBase + 1, .refl _, by decide +kernel⟩

theorem GenuineRun.read_last_smallTiered : ∃ t, PageStore.readPage 1 1 smallTieredBack = (.ok [0], t) ∧
    [0] = Function.update (zeroPages 3 1 Nat.one_pos).page 0 [7] 1 := by
  have hinj : Set.InjOn Sha256.digest { b | b ∈ smallTieredMessages } := fun a ha b hb =>
    (by decide +kernel :
      ∀ a ∈ smallTieredMessages, ∀ b ∈ smallTieredMessages, Sha256.digest a = Sha256.digest b → a = b) a ha b hb
  have hwrite := GenuineRun.write genuineRun_smallTiered
    (show (writeUsing 0 [7] smallTiered).1 = .ok smallTieredSibs by decide +kernel) genuine_smallTiered
    (by decide +kernel) (contentMessages_smallTiered (List.mem_cons_of_mem _ List.mem_cons_self))
  rw [← smallTieredWritten] at hwrite
  have hrolled := (hwrite.disk smallTiered.inner smallTiered.hashStore).read 0 1
  rw [← smallTieredRolled] at hrolled
  have hback := hrolled.disk smallTieredWritten.inner smallTieredWritten.hashStore
  rw [← smallTieredBack] at hback
  have hhashed : ReadHashed { b | b ∈ smallTieredMessages } 1 1 smallTieredBack := .of_all (by decide +kernel)
  obtain ⟨t, hrun⟩ := Eff.run_of_result (show (PageStore.readPage 1 1 smallTieredBack).1 = .ok [0] by decide +kernel)
  exact ⟨t, hrun, hback.read_last hinj hhashed hrun⟩

/-! ## A forged sibling -/

/-- The store after a write to page 0 over a disk with another page 1. -/
def smallTieredAdopted : TieredMerklePageStore MemPageStore MemPageStore := (PageStore.writePage 0 [7] smallTieredForged).2

def forgedSibs : List (Nat × Hash) := (writeUsing 0 [7] smallTieredForged).1.toOption.getD []

/-- The messages of the store's trees, of the write and of the read of page 1 that follows. -/
def forgedMessages : List Bytes :=
  smallTieredMessages ++ pathMessages smallTieredForged.toTieredLayout 0 [7] (forgedSibs.map Prod.snd) ++
    ((readUsing 1 1 smallTieredAdopted).1.toOption.toList.flatMap fun r =>
      pathMessages smallTieredAdopted.toTieredLayout 1 r.1 r.2)

/-- Nothing collides, page 1 was never written, and it is read as the forger had it. -/
theorem read_forged : Set.InjOn Sha256.digest { b | b ∈ forgedMessages } ∧
    (∃ kept, Run MemPageStore.honest MemPageStore.honest { b | b ∈ forgedMessages } smallTieredAdopted
      (Function.update (zeroPages 3 1 Nat.one_pos).page 0 [7]) kept) ∧
    ReadHashed { b | b ∈ forgedMessages } 1 1 smallTieredAdopted ∧
    (PageStore.readPage 1 1 smallTieredAdopted).1 = .ok [9] ∧
    Function.update (zeroPages 3 1 Nat.one_pos).page 0 [7] 1 = [0] := by
  have hinj : ∀ a ∈ forgedMessages, ∀ b ∈ forgedMessages, Sha256.digest a = Sha256.digest b → a = b := by decide +kernel
  have hsub : { b | b ∈ smallTieredMessages } ⊆ { b | b ∈ forgedMessages } :=
    fun b hb => List.mem_append_left _ (List.mem_append_left _ hb)
  refine ⟨fun a ha b hb => hinj a ha b hb, ?_, .of_all (by decide +kernel), by decide +kernel, by decide +kernel⟩
  have hbuild : Run MemPageStore.honest MemPageStore.honest { b | b ∈ forgedMessages } smallTiered
      (zeroPages 3 1 Nat.one_pos).page fun _ => True :=
    .build (zeroPages_holds 3 1 Nat.one_pos) (zeroPages_holds 2 64 (Nat.succ_pos 63)) (toOption_get _)
      ((contentMessages_smallTiered List.mem_cons_self).trans hsub)
  have hforged := hbuild.disk smallForged.inner smallForged.hashStore
  rw [← smallTieredForged] at hforged
  have hlayout : smallTieredForged.toTieredLayout = smallTiered.toTieredLayout := by rw [smallTieredForged]
  have hcontents : contentMessages smallTieredForged.toTieredLayout (Function.update (zeroPages 3 1 Nat.one_pos).page 0 [7])
      ⊆ { b | b ∈ forgedMessages } := by
    rw [hlayout]
    exact (contentMessages_smallTiered (List.mem_cons_of_mem _ List.mem_cons_self)).trans hsub
  have hwrite := hforged.write (show (writeUsing 0 [7] smallTieredForged).1 = .ok forgedSibs by decide +kernel)
    (fun m hm => List.mem_append_left _ (List.mem_append_right _ hm)) hcontents
  rw [← smallTieredAdopted] at hwrite
  exact ⟨_, hwrite⟩

end

end TieredMerklePageStore
end BpirOram
