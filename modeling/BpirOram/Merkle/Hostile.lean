/-
  BpirOram.Merkle.Hostile — the tiered store against a disk in an adversary's hands.

  Nothing is assumed of the two stores once the tree is built: their calls return what they
  like, and between the calls of the tree both may be exchanged for others. What is left is
  the hashes in memory. A page `Opens` when the trusted node above it is what its hash and
  some siblings combine to; it opens to one page only (`Opens.unique`).

  A read combines siblings from the disk and compares; a write combines siblings from the
  disk and believes them. So a write to a page fixes anew what every other page under the
  same trusted node opens to.
  - `Run.read_written`: a page under whose trusted node every write since went by the right
    sibling, and any page when all the levels are trusted, is read as last written or not
    at all.
  - `writePage_adopts`: a write moves its trusted node to that of the disk it finds, and then
    all the other pages under it are read as whoever laid out the disk had them.
-/

import BpirOram.Merkle.Beside
import BpirOram.Lib.Opening

namespace BpirOram

open Lib

namespace TieredLayout

variable (l : TieredLayout)

/-- The node in memory that a page is verified against. -/
def trustedNode (pageIdx : Nat) : Nat := climbEnd l.trustedNodeLimit (l.leafBase + pageIdx)

theorem limit_even : l.trustedNodeLimit % 2 = 0 := by
  rw [l.levels.limit_eq, ← Nat.succ_pred_eq_of_pos l.levels.pos, Nat.pow_succ]
  exact Nat.mul_mod_left _ _

theorem trustedNode_lt (pageIdx : Nat) : l.trustedNode pageIdx < l.trustedNodeLimit :=
  climbEnd_lt (Nat.lt_of_succ_lt l.one_lt_limit) _

/-- It is on the last level in memory. -/
theorem limit_le_trustedNode (pageIdx : Nat) : l.trustedNodeLimit ≤ 2 * l.trustedNode pageIdx := by
  have := limit_le (l := l)
  exact le_two_climbEnd l.limit_even (by omega)

/-- With all the levels in memory every page has a node of its own. -/
theorem trustedNode_leaf (h : l.diskHashNodes = 0) {pageIdx : Nat} (hi : pageIdx < l.pageCount) :
    l.trustedNode pageIdx = l.leafBase + pageIdx := by
  have hle := l.pageCount_le
  unfold diskHashNodes BpirOram.diskHashNodes at h
  exact climbEnd_of_lt (by omega)

end TieredLayout

namespace TieredMerklePageStore

variable {S H : Type} [PageStore S] [PageStore H]

/-! ## What a call leaves of the hashes in memory -/

variable {s t : TieredMerklePageStore S H}

/-- Only the disk is touched. -/
def OnDisk (s t : TieredMerklePageStore S H) : Prop := ∃ inner hashStore, t = { s with inner, hashStore }

omit [PageStore S] [PageStore H] in
theorem OnDisk.refl (s : TieredMerklePageStore S H) : OnDisk s s := ⟨s.inner, s.hashStore, rfl⟩

omit [PageStore S] [PageStore H] in
theorem OnDisk.trans {u : TieredMerklePageStore S H} (h : OnDisk s t) (h' : OnDisk t u) : OnDisk s u := by
  obtain ⟨inner, hashStore, rfl⟩ := h
  obtain ⟨inner', hashStore', rfl⟩ := h'
  exact ⟨inner', hashStore', rfl⟩

omit [PageStore S] in
theorem readHash_onDisk (k : Nat) (s : TieredMerklePageStore S H) : OnDisk s (readHash k s).2 := by
  have hkeeps : Eff.Keeps (OnDisk s) (readHash k) := by
    unfold readHash
    refine Eff.Keeps.get_bind fun t ht => Eff.Keeps.apply ((Eff.Keeps.lift _).bind fun _ => ?_) ht
    split
    · exact Eff.Keeps.pure _
    · unfold readDiskHash
      refine Eff.Keeps.get_bind fun u hu => Eff.Keeps.apply ((Eff.Keeps.lift _).bind fun _ => ?_) hu
      refine Eff.Keeps.bind (fun v hv => ?_) fun _ => Eff.Keeps.pure _
      exact hv.trans ⟨v.inner, _, rfl⟩
  exact hkeeps s (.refl s)

omit [PageStore S] in
theorem writeHash_onDisk {k : Nat} (hk : s.trustedNodeLimit ≤ k) (hash : Hash) : OnDisk s (writeHash k hash s).2 := by
  have hkeeps : Eff.Keeps (OnDisk s) (writeHash k hash) := by
    unfold writeHash
    refine Eff.Keeps.get_bind fun t ht => Eff.Keeps.apply ((Eff.Keeps.lift _).bind fun _ => ?_) ht
    have hlimit : t.trustedNodeLimit = s.trustedNodeLimit := by
      obtain ⟨inner, hashStore, rfl⟩ := ht
      rfl
    rw [hlimit, if_neg (by omega)]
    unfold writeDiskHash
    refine Eff.Keeps.get_bind fun u hu => Eff.Keeps.apply ((Eff.Keeps.lift _).bind fun _ => ?_) hu
    exact Eff.Keeps.bind (fun v hv => hv.trans ⟨v.inner, _, rfl⟩) fun _ v hv => hv.trans ⟨v.inner, _, rfl⟩
  exact hkeeps s (.refl s)

omit [PageStore S] in
theorem readHash_trusted {k : Nat} (h0 : 0 < k) (hk : k < s.trustedNodeLimit) :
    readHash k s = (.ok (s.trustedHashes.getD k noHash), s) := by
  have := TieredLayout.limit_le (l := s.toTieredLayout)
  unfold readHash
  rw [Eff.get_bind, TieredLayout.checkNodeIdx_ok h0 (by omega), Eff.lift_ok_bind, if_pos hk]
  rfl

omit [PageStore S] in
theorem writeHash_trusted {k : Nat} (h0 : 0 < k) (hk : k < s.trustedNodeLimit) (hash : Hash) :
    writeHash k hash s = (.ok (), { s with trustedHashes := s.trustedHashes.set k hash }) := by
  have := TieredLayout.limit_le (l := s.toTieredLayout)
  unfold writeHash
  rw [Eff.get_bind, TieredLayout.checkNodeIdx_ok h0 (by omega), Eff.lift_ok_bind, if_pos hk]
  rfl

/-- The hashes in memory kept their number, and off `a` those of the last level are the same. -/
structure TrustedBut (a : Nat) (s t : TieredMerklePageStore S H) : Prop where
  layout : t.toTieredLayout = s.toTieredLayout
  length : t.trustedHashes.length = s.trustedHashes.length
  off : ∀ b, s.trustedNodeLimit ≤ 2 * b → b ≠ a → t.trustedHashes.getD b noHash = s.trustedHashes.getD b noHash

section
variable [Sha256]

/-- The loop of `update_page_hash` with the hashes listed that it takes from the disk. -/
def updateUsing (limit nodeIdx : Nat) (current : Hash) : Eff Error (TieredMerklePageStore S H) (List (Nat × Hash)) :=
  if 1 < nodeIdx then do
    let sibling ← readHash (siblingNode nodeIdx)
    writeHash (nodeIdx / 2) (parentHash nodeIdx current sibling)
    let above ← updateUsing limit (nodeIdx / 2) (parentHash nodeIdx current sibling)
    pure (if limit ≤ nodeIdx then (siblingNode nodeIdx, sibling) :: above else above)
  else pure []
termination_by nodeIdx

/-- `write_page`, with the sibling hashes listed that it takes from the disk. -/
def writeUsing (pageIdx : Nat) (input : Bytes) : Eff Error (TieredMerklePageStore S H) (List (Nat × Hash)) := do
  let s ← Eff.get
  Eff.lift (checkMerklePage s.pageCount s.pageSize pageIdx input.length)
  onInner (PageStore.writePage pageIdx input)
  let s' ← Eff.get
  writeHash (s'.leafBase + pageIdx) (hashLeaf s.storeId pageIdx input)
  updateUsing s.trustedNodeLimit (s'.leafBase + pageIdx) (hashLeaf s.storeId pageIdx input)

omit [PageStore S] in
theorem updateAbove_using (limit k : Nat) (current : Hash) :
    updateAbove (S := S) (H := H) k current = updateUsing limit k current >>= fun _ => pure () := by
  induction k using Nat.strong_induction_on generalizing current with
  | h k ih =>
    rw [updateAbove, updateUsing]
    split
    · simp only [Eff.bind_assoc, Eff.pure_bind]
      congr 1
      funext sibling
      congr 1
      funext _
      exact ih (k / 2) (by omega) _
    · rfl

theorem writePage_using (i : Nat) (page : Bytes) (s : TieredMerklePageStore S H) :
    PageStore.writePage i page s = (writeUsing i page >>= fun _ => pure ()) s := by
  show (Eff.get >>= fun s => _) s = _
  unfold writeUsing updatePageHash
  simp only [Eff.bind_assoc, updateAbove_using s.trustedNodeLimit]
  rfl

/-- What a write that ended well did to the hashes in memory: the node above the page is what the
    page's hash and the siblings from the disk combine to. -/
structure Wrote (s : TieredMerklePageStore S H) (i : Nat) (page : Bytes) (sibs : List (Nat × Hash))
    (t : TieredMerklePageStore S H) : Prop where
  page_lt : i < s.pageCount
  length : page.length = s.pageSize
  nodes : sibs.map Prod.fst = siblings s.trustedNodeLimit (s.leafBase + i)
  but : TrustedBut (s.trustedNode i) s t
  node : t.trustedHashes.getD (s.trustedNode i) noHash
    = climb hashNode (s.leafBase + i) (hashLeaf s.storeId i page) (sibs.map Prod.snd)

omit [PageStore S] in
/-- In memory the loop cannot fail, and it does not come back to the last level. -/
theorem updateUsing_trusted {k : Nat} (h0 : 0 < k) (hk : k < s.trustedNodeLimit) (current : Hash) :
    ∃ t, updateUsing s.trustedNodeLimit k current s = (.ok [], t) ∧ TrustedBut 0 s t := by
  induction k using Nat.strong_induction_on generalizing s current with
  | h k ih =>
    rw [updateUsing]
    by_cases h1 : 1 < k
    · have hhalf := siblingOf_half k
      have heven := s.limit_even
      have hread := readHash_trusted (s := s) (k := siblingNode k) (by rw [siblingNode_eq]; omega)
        (by rw [siblingNode_eq]; unfold siblingOf; split <;> omega)
      generalize s.trustedHashes.getD (siblingNode k) noHash = sib at hread
      obtain ⟨t, hrun, ht⟩ := ih (k / 2) (by omega)
        (s := { s with trustedHashes := s.trustedHashes.set (k / 2) (parentHash k current sib) })
        (by omega) (show _ < s.trustedNodeLimit by omega) (parentHash k current sib)
      refine ⟨t, ?_, ht.layout, ht.length.trans List.length_set, fun b hb hb0 => (ht.off b hb hb0).trans ?_⟩
      · rw [if_pos h1, Eff.bind_ok hread, Eff.bind_ok (writeHash_trusted (by omega) (by omega) _)]
        refine (Eff.bind_ok hrun).trans ?_
        rw [if_neg (by omega)]
        rfl
      · rw [List.getD_eq_getElem?_getD, List.getElem?_set_ne (by omega), ← List.getD_eq_getElem?_getD]
    · rw [if_neg h1]
      exact ⟨s, rfl, rfl, rfl, fun _ _ _ => rfl⟩

omit [PageStore S] in
/-- A turn over a node on the disk either fails with the memory as it was or goes on. -/
theorem updateUsing_disk {k : Nat} (hk : s.trustedNodeLimit ≤ k) (hlen : s.trustedHashes.length = s.trustedNodeLimit)
    (current : Hash) : (∃ e t, updateUsing s.trustedNodeLimit k current s = (.error e, t) ∧ OnDisk s t) ∨
      ∃ sibs t, updateUsing s.trustedNodeLimit k current s = (.ok sibs, t) ∧
        sibs.map Prod.fst = siblings s.trustedNodeLimit k ∧ TrustedBut (climbEnd s.trustedNodeLimit k) s t ∧
        t.trustedHashes.getD (climbEnd s.trustedNodeLimit k) noHash = climb hashNode k current (sibs.map Prod.snd) := by
  have hlimit := s.one_lt_limit
  have heven := s.limit_even
  induction k using Nat.strong_induction_on generalizing s current with
  | h k ih =>
    rw [updateUsing, if_pos (show 1 < k by omega), siblings_of_le (by omega) hk, climbEnd_of_le (by omega) hk]
    have hs₁ := readHash_onDisk (siblingNode k) s
    rcases hread : readHash (siblingNode k) s with ⟨e | sib, s₁⟩ <;> rw [hread] at hs₁ <;>
      obtain ⟨inner, hashStore, rfl⟩ := hs₁
    · exact .inl ⟨e, _, Eff.bind_error hread, inner, hashStore, rfl⟩
    · rw [Eff.bind_ok hread]
      simp only [if_pos hk, siblingNode_eq]
      by_cases hup : k / 2 < s.trustedNodeLimit
      · -- the parent is in memory: from here on nothing fails
        have hwrite := writeHash_trusted (s := { s with inner, hashStore }) (k := k / 2) (by omega) hup
          (parentHash k current sib)
        obtain ⟨t, hrun, ht⟩ := updateUsing_trusted (k := k / 2)
          (s := { s with inner, hashStore, trustedHashes := s.trustedHashes.set (k / 2) (parentHash k current sib) })
          (by omega) hup (parentHash k current sib)
        refine .inr ⟨[(siblingOf k, sib)], t, ?_, ?_, ?_, ?_⟩
        · rw [Eff.bind_ok hwrite]
          exact (Eff.bind_ok hrun)
        · rw [siblings_of_lt hup]
          rfl
        · refine ⟨ht.layout, ht.length.trans List.length_set, fun b hb hbk => (ht.off b hb (by omega)).trans ?_⟩
          rw [climbEnd_of_lt hup] at hbk
          rw [List.getD_eq_getElem?_getD, List.getElem?_set_ne (Ne.symm hbk), ← List.getD_eq_getElem?_getD]
        · rw [climbEnd_of_lt hup, ht.off _ (show s.trustedNodeLimit ≤ _ by omega) (by omega), List.getD_eq_getElem?_getD,
            List.getElem?_set_self (by rw [hlen]; exact hup), Option.getD_some, parentHash_eq]
          rfl
      · have hs₂ := writeHash_onDisk (s := { s with inner, hashStore }) (Nat.le_of_not_lt hup) (parentHash k current sib)
        rcases hwrite : writeHash (k / 2) (parentHash k current sib) { s with inner, hashStore } with ⟨e | u, s₂⟩ <;>
          rw [hwrite] at hs₂ <;> obtain ⟨inner', hashStore', rfl⟩ := hs₂
        · exact .inl ⟨e, _, Eff.bind_error hwrite, inner', hashStore', rfl⟩
        · rw [Eff.bind_ok hwrite]
          rcases ih (k / 2) (by omega) (s := { s with inner := inner', hashStore := hashStore' }) (Nat.le_of_not_lt hup) hlen
            (parentHash k current sib) hlimit heven with ⟨e, t, hrun, ht⟩ | ⟨sibs, t, hrun, hnodes, ht, hnode⟩
          · exact .inl ⟨e, t, Eff.bind_error hrun, OnDisk.trans ⟨inner', hashStore', rfl⟩ ht⟩
          · refine .inr ⟨(siblingOf k, sib) :: sibs, t, Eff.bind_ok hrun, ?_, ⟨ht.layout, ht.length, ht.off⟩, ?_⟩
            · rw [List.map_cons, hnodes]
            · rw [hnode, parentHash_eq]
              rfl

/-- A write ends well, or in an error with the memory as it was. -/
theorem writeUsing_cases (hlen : s.trustedHashes.length = s.trustedNodeLimit) (i : Nat) (page : Bytes) :
    (∃ e t, writeUsing i page s = (.error e, t) ∧ OnDisk s t) ∨
      ∃ sibs t, writeUsing i page s = (.ok sibs, t) ∧ Wrote s i page sibs t := by
  unfold writeUsing
  rw [Eff.get_bind]
  by_cases hok : i < s.pageCount ∧ page.length = s.pageSize
  · obtain ⟨hi, hpage⟩ := hok
    have hle := s.pageCount_le
    rw [checkMerklePage_ok hi hpage, Eff.lift_ok_bind]
    rcases hdata : PageStore.writePage i page s.inner with ⟨e | u, inner⟩
    · exact .inl ⟨e, _, Eff.bind_error (Eff.zoom_of hdata), inner, s.hashStore, rfl⟩
    · have hinner : onInner (H := H) (PageStore.writePage i page) s = (.ok u, { s with inner }) := Eff.zoom_of hdata
      rw [Eff.bind_ok hinner, Eff.get_bind]
      by_cases hleaf : s.leafBase + i < s.trustedNodeLimit
      · -- the leaf itself is in memory
        have hwrite := writeHash_trusted (s := { s with inner }) (k := s.leafBase + i) (by omega) hleaf
          (hashLeaf s.storeId i page)
        obtain ⟨t, hrun, ht⟩ := updateUsing_trusted (k := s.leafBase + i)
          (s := { s with inner, trustedHashes := s.trustedHashes.set (s.leafBase + i) (hashLeaf s.storeId i page) })
          (by omega) hleaf (hashLeaf s.storeId i page)
        have hnode : s.trustedNode i = s.leafBase + i := climbEnd_of_lt hleaf
        have hlast := s.limit_le_trustedNode i
        refine .inr ⟨[], t, (Eff.bind_ok hwrite).trans hrun, hi, hpage, by rw [siblings_of_lt hleaf]; rfl, ?_, ?_⟩
        · refine ⟨ht.layout, ht.length.trans List.length_set, fun b hb hbi => (ht.off b hb ?_).trans ?_⟩
          · have := s.one_lt_limit
            omega
          · rw [hnode] at hbi
            rw [List.getD_eq_getElem?_getD, List.getElem?_set_ne (Ne.symm hbi), ← List.getD_eq_getElem?_getD]
        · rw [hnode] at hlast ⊢
          rw [ht.off _ hlast (by omega), List.getD_eq_getElem?_getD, List.getElem?_set_self (by rw [hlen]; exact hleaf)]
          rfl
      · have hs₁ := writeHash_onDisk (s := { s with inner }) (Nat.le_of_not_lt hleaf) (hashLeaf s.storeId i page)
        rcases hwrite : writeHash (s.leafBase + i) (hashLeaf s.storeId i page) { s with inner } with ⟨e | u, s₁⟩ <;>
          rw [hwrite] at hs₁ <;> obtain ⟨inner', hashStore', rfl⟩ := hs₁
        · exact .inl ⟨e, _, Eff.bind_error hwrite, inner', hashStore', rfl⟩
        · rcases updateUsing_disk (s := { s with inner := inner', hashStore := hashStore' }) (Nat.le_of_not_lt hleaf) hlen
            (hashLeaf s.storeId i page) with ⟨e, t, hrun, ht⟩ | ⟨sibs, t, hrun, hnodes, ht, hnode⟩
          · exact .inl ⟨e, t, (Eff.bind_ok hwrite).trans hrun, OnDisk.trans ⟨inner', hashStore', rfl⟩ ht⟩
          · exact .inr ⟨sibs, t, (Eff.bind_ok hwrite).trans hrun, hi, hpage, hnodes,
              ⟨ht.layout, ht.length, ht.off⟩, hnode⟩
  · obtain ⟨e, he⟩ := checkMerklePage_error hok
    rw [he]
    exact .inl ⟨e, s, rfl, .refl s⟩

/-! ## What a trusted node commits to -/

def joinMessage (x : Nat × Hash × Hash) : Bytes := nodeMessage x.1 x.2.1 x.2.2

/-- The messages hashed on the way from a page to its trusted node. -/
def pathMessages (l : TieredLayout) (i : Nat) (page : Bytes) (sibs : List Hash) : List Bytes :=
  leafMessage l.storeId i page :: (climbed hashNode (l.leafBase + i) (hashLeaf l.storeId i page) sibs).map joinMessage

/-- The messages of the whole tree of some contents. -/
def contentMessages (l : TieredLayout) (c : Nat → Bytes) : Set Bytes :=
  { m | (∃ i < l.pageCount, m = leafMessage l.storeId i (c i)) ∨
    ∃ x ∈ treeJoins l.leafBase (tree l c), m = joinMessage x }

/-- The page's hash and some siblings combine to the trusted node, by messages of `M`. -/
def Opens (M : Set Bytes) (s : TieredMerklePageStore S H) (i : Nat) (page : Bytes) : Prop :=
  ∃ sibs, sibs.length = (siblings s.trustedNodeLimit (s.leafBase + i)).length ∧
    climb hashNode (s.leafBase + i) (hashLeaf s.storeId i page) sibs = s.trustedHashes.getD (s.trustedNode i) noHash ∧
    ∀ m ∈ pathMessages s.toTieredLayout i page sibs, m ∈ M

variable {M : Set Bytes} {i j : Nat} {page : Bytes} {c : Nat → Bytes}

omit [PageStore S] [PageStore H] in
/-- A trusted node opens at a page to one content. -/
theorem Opens.unique {page' : Bytes} (h : Opens M s i page) (h' : Opens M s i page') (hM : Set.InjOn Sha256.digest M) :
    page = page' := by
  obtain ⟨sibs, hlen, hnode, hin⟩ := h
  obtain ⟨sibs', hlen', hnode', hin'⟩ := h'
  have hleaf : hashLeaf s.storeId i page = hashLeaf s.storeId i page' := by
    refine climb_inj (hlen.trans hlen'.symm) (fun x hx y hy hxy heq => ?_) (hnode.trans hnode'.symm)
    have hmsg : joinMessage x = joinMessage y :=
      hM (hin _ (List.mem_cons_of_mem _ (List.mem_map_of_mem hx))) (hin' _ (List.mem_cons_of_mem _ (List.mem_map_of_mem hy))) heq
    unfold joinMessage at hmsg
    rw [hxy] at hmsg
    obtain ⟨hl, hr⟩ := nodeMessage_inj hmsg
    exact Prod.ext hxy (Prod.ext hl hr)
  exact leafMessage_inj (hM (hin _ List.mem_cons_self) (hin' _ List.mem_cons_self) hleaf)

omit [PageStore S] [PageStore H] in
theorem tree_leaf {l : TieredLayout} (hi : i < l.pageCount) : tree l c (l.leafBase + i) = hashLeaf l.storeId i (c i) := by
  unfold tree pageTree
  rw [hashTree_leaf (by omega), leafLabel, Nat.add_sub_cancel_left, if_pos hi]

omit [PageStore S] [PageStore H] in
/-- A trusted node that is the tree's opens to the contents. -/
theorem opens_tree (hi : i < s.pageCount) (hc : contentMessages s.toTieredLayout c ⊆ M)
    (hnode : s.trustedHashes.getD (s.trustedNode i) noHash = tree s.toTieredLayout c (s.trustedNode i)) :
    Opens M s i (c i) := by
  have hle := s.pageCount_le
  have hleaf := tree_leaf (c := c) hi
  refine ⟨(siblings s.trustedNodeLimit (s.leafBase + i)).map (tree s.toTieredLayout c), List.length_map _, ?_, ?_⟩
  · rw [hnode, ← hleaf]
    exact climb_hashTree s.one_lt_limit (by omega)
  · intro m hm
    rcases List.mem_cons.mp hm with rfl | hm
    · exact hc (.inl ⟨i, hi, rfl⟩)
    · obtain ⟨x, hx, rfl⟩ := List.mem_map.mp hm
      rw [← hleaf] at hx
      exact hc (.inr ⟨x, climbed_hashTree s.one_lt_limit (by omega) x hx, rfl⟩)

omit [PageStore S] [PageStore H] in
/-- What a page opens to depends on its trusted node only. -/
theorem Opens.congr (h : Opens M s i page) (hl : t.toTieredLayout = s.toTieredLayout)
    (hnode : t.trustedHashes.getD (s.trustedNode i) noHash = s.trustedHashes.getD (s.trustedNode i) noHash) :
    Opens M t i page := by
  unfold Opens at h ⊢
  rwa [hl, hnode]

/-! ## Writing -/

variable {sibs : List (Nat × Hash)}

omit [PageStore S] [PageStore H] in
theorem Wrote.zip (h : Wrote s i page sibs t) :
    (siblings s.trustedNodeLimit (s.leafBase + i)).zip (sibs.map Prod.snd) = sibs := by
  rw [← h.nodes]
  exact (List.zip_of_prod rfl rfl).symm

omit [PageStore S] [PageStore H] in
theorem Wrote.sibs_length (h : Wrote s i page sibs t) :
    (sibs.map Prod.snd).length = (siblings s.trustedNodeLimit (s.leafBase + i)).length := by
  rw [← h.nodes, List.length_map, List.length_map]

omit [PageStore S] [PageStore H] in
theorem Wrote.opens_self (h : Wrote s i page sibs t)
    (hin : ∀ m ∈ pathMessages s.toTieredLayout i page (sibs.map Prod.snd), m ∈ M) : Opens M t i page := by
  unfold Opens
  rw [h.but.layout]
  exact ⟨sibs.map Prod.snd, h.sibs_length, h.node.symm, hin⟩

omit [PageStore S] [PageStore H] in
/-- Under the same trusted node a page opens to its content if the sibling above it was right. -/
theorem Wrote.opens_beside (h : Wrote s i page sibs t) (hj : j < s.pageCount) (hne : j ≠ i)
    (hnode : s.trustedNode j = s.trustedNode i) (hc : contentMessages s.toTieredLayout c ⊆ M)
    (hin : ∀ m ∈ pathMessages s.toTieredLayout i page (sibs.map Prod.snd), m ∈ M) {v : Nat}
    (hcov : Lib.Covers v (s.leafBase + j)) (hv : (v, tree s.toTieredLayout c v) ∈ sibs) : Opens M t j (c j) := by
  have hle := s.pageCount_le
  have hi := h.page_lt
  have hbase := s.leafBase_pow
  have hdouble : 2 ^ (s.leafBase.log2 + 1) = 2 * 2 ^ s.leafBase.log2 := Nat.pow_succ'
  have hleaf := tree_leaf (c := c) hj
  rw [← h.zip, s.levels.limit_eq] at hv
  have hend : climbEnd (2 ^ s.trustedLevels) (s.leafBase + i) = climbEnd (2 ^ s.trustedLevels) (s.leafBase + j) := by
    rw [← s.levels.limit_eq]
    exact hnode.symm
  obtain ⟨sibs', hlen, hclimb, hclimbed⟩ := climb_beside (d := s.leafBase.log2) (hashLeaf s.storeId i page)
    s.levels.pos (by omega) (by omega) (by omega) (by omega) (show _ < 2 * s.leafBase by omega) (by omega) hend
    (by rw [h.sibs_length, s.levels.limit_eq]) hv hcov
  change climb hashNode _ (tree s.toTieredLayout c _) sibs' = _ at hclimb
  change ∀ x ∈ climbed hashNode _ (tree s.toTieredLayout c _) sibs', _ at hclimbed
  rw [hleaf] at hclimb hclimbed
  unfold Opens
  rw [h.but.layout]
  refine ⟨sibs', by rw [hlen, s.levels.limit_eq], ?_, ?_⟩
  · rw [hclimb, hnode, h.node]
  · intro m hm
    rcases List.mem_cons.mp hm with rfl | hm
    · exact hc (.inl ⟨j, hj, rfl⟩)
    · obtain ⟨x, hx, rfl⟩ := List.mem_map.mp hm
      rcases hclimbed x hx with hx | hx
      · exact hc (.inr ⟨x, hx, rfl⟩)
      · exact hin _ (List.mem_cons_of_mem _ (List.mem_map_of_mem hx))

omit [PageStore S] [PageStore H] in
theorem Wrote.opens_off {page' : Bytes} (h : Wrote s i page sibs t) (hnode : s.trustedNode j ≠ s.trustedNode i)
    (hopens : Opens M s j page') : Opens M t j page' :=
  hopens.congr h.but.layout (h.but.off _ (s.limit_le_trustedNode j) hnode)

/-! ## Reading -/

/-- `read_page` without its comparison, with the sibling hashes listed that it takes from the disk. -/
def readUsing (pageIdx len : Nat) : Eff Error (TieredMerklePageStore S H) (Bytes × List Hash) := do
  let s ← Eff.get
  Eff.lift (checkMerklePage s.pageCount s.pageSize pageIdx len)
  let out ← onInner (PageStore.readPage pageIdx len)
  let sibs ← Eff.forEach readHash (siblings s.trustedNodeLimit (s.leafBase + pageIdx))
  pure (out, sibs)

omit [PageStore S] in
theorem climbToTrusted_eq {limit : Nat} (hlimit : 1 < limit) (k : Nat) (current : Hash) :
    climbToTrusted (S := S) (H := H) limit hlimit k current = Eff.forEach readHash (siblings limit k) >>= fun sibs =>
      pure (climbEnd limit k, climb hashNode k current sibs) := by
  induction k using climbEnd.induct limit generalizing current with
  | case1 k h ih =>
    rw [climbToTrusted, if_pos h.2, siblings_of_le h.1 h.2, climbEnd_of_le h.1 h.2, siblingNode_eq]
    simp only [Eff.forEach, Eff.bind_assoc, Eff.pure_bind, climb]
    congr 1
    funext sib
    rw [ih, parentHash_eq]
  | case2 k h =>
    rw [climbToTrusted, if_neg (by omega), siblings, climbEnd, if_neg h, if_neg h]
    rfl

omit [PageStore S] [Sha256] in
theorem readHashes_onDisk (ks : List Nat) (s : TieredMerklePageStore S H) : OnDisk s (Eff.forEach readHash ks s).2 :=
  Eff.Keeps.forEach (P := OnDisk s) (fun k _ t ht => ht.trans (readHash_onDisk k t)) s (.refl s)

omit [PageStore S] [Sha256] in
theorem readHashes_length {ks : List Nat} {hs : List Hash} (h : Eff.forEach readHash ks s = (.ok hs, t)) :
    hs.length = ks.length := by
  induction ks generalizing s hs with
  | nil =>
    cases h
    rfl
  | cons k ks ih =>
    obtain ⟨x, s₁, -, h⟩ := Eff.bind_eq_ok h
    obtain ⟨xs, s₂, hrest, h⟩ := Eff.bind_eq_ok h
    cases h
    rw [List.length_cons, List.length_cons, ih hrest]

/-- A read that ends well went by a page and siblings that combine to the trusted node. -/
theorem readPage_using {len : Nat} (h : PageStore.readPage i len s = (.ok page, t)) :
    i < s.pageCount ∧ ∃ sibs, readUsing i len s = (.ok (page, sibs), t) ∧
      sibs.length = (siblings s.trustedNodeLimit (s.leafBase + i)).length ∧
      climb hashNode (s.leafBase + i) (hashLeaf s.storeId i page) sibs = s.trustedHashes.getD (s.trustedNode i) noHash := by
  change (Eff.get >>= _) s = _ at h
  rw [Eff.get_bind] at h
  obtain ⟨u, hcheck, h⟩ := Eff.lift_bind_eq_ok h
  obtain ⟨out, s₁, hdata, h⟩ := Eff.bind_eq_ok h
  obtain ⟨u', s₂, hverify, h⟩ := Eff.bind_eq_ok h
  cases h
  have hok : i < s.pageCount := by
    by_contra hge
    obtain ⟨e, he⟩ := checkMerklePage_error (fun hboth : i < s.pageCount ∧ len = s.pageSize => hge hboth.1)
    rw [he] at hcheck
    cases hcheck
  obtain ⟨inner, -, rfl⟩ := Eff.zoom_eq_ok hdata
  unfold verifyPageHash at hverify
  rw [Eff.get_bind, climbToTrusted_eq] at hverify
  obtain ⟨⟨node, current⟩, s₃, hclimb, hverify⟩ := Eff.bind_eq_ok hverify
  obtain ⟨sibs, s₄, hsibs, hclimb⟩ := Eff.bind_eq_ok hclimb
  cases hclimb
  have hdisk := readHashes_onDisk (siblings s.trustedNodeLimit (s.leafBase + i)) { s with inner }
  rw [hsibs] at hdisk
  obtain ⟨inner', hashStore, rfl⟩ := hdisk
  simp only [Eff.get_bind, Eff.ite_apply] at hverify
  split at hverify
  · rename_i heq
    cases hverify
    refine ⟨hok, sibs, ?_, readHashes_length hsibs, (hashEq_iff _ _).mp heq⟩
    unfold readUsing
    rw [Eff.get_bind, hcheck, Eff.lift_ok_bind, Eff.bind_ok hdata]
    exact Eff.bind_ok hsibs
  · cases hverify

theorem readPage_onDisk (i len : Nat) (s : TieredMerklePageStore S H) : OnDisk s (PageStore.readPage i len s).2 := by
  have hkeeps : Eff.Keeps (OnDisk s) (PageStore.readPage (S := TieredMerklePageStore S H) i len) := by
    refine Eff.Keeps.get_bind fun t ht => Eff.Keeps.apply ((Eff.Keeps.lift _).bind fun _ => ?_) ht
    refine Eff.Keeps.bind (fun u hu => hu.trans ⟨_, u.hashStore, rfl⟩) fun page => Eff.Keeps.bind ?_ fun _ => Eff.Keeps.pure _
    unfold verifyPageHash
    refine Eff.Keeps.get_bind fun u hu => Eff.Keeps.apply ?_ hu
    rw [climbToTrusted_eq]
    refine Eff.Keeps.bind (Eff.Keeps.bind (fun v hv => hv.trans (readHashes_onDisk _ v)) fun _ => Eff.Keeps.pure _) ?_
    rintro ⟨node, current⟩
    refine Eff.Keeps.get_bind fun v hv => Eff.Keeps.apply ?_ hv
    split
    · exact Eff.Keeps.pure _
    · exact Eff.Keeps.fail _
  exact hkeeps s (.refl s)

/-! ## Runs -/

/-- The pages kept by a write to `i`: `i` itself; under its trusted node those whose sibling above
    them, taken from the disk, was the contents' hash; elsewhere those kept before. -/
def KeptBy (l : TieredLayout) (c : Nat → Bytes) (kept : Nat → Prop) (i : Nat) (sibs : List (Nat × Hash)) (j : Nat) : Prop :=
  j = i ∨
    if l.trustedNode j = l.trustedNode i then ∃ v, Lib.Covers v (l.leafBase + j) ∧ (v, tree l c v) ∈ sibs else kept j

/-- A run of the store, what was last written by the writes that ended well, and the pages kept.
    The tree is built over stores that work; after that the disk may be exchanged for another
    between any two calls, and may fail. `M` has the messages of the trees of the run and of
    every write. -/
inductive Run (HS : HonestStore S) (HH : HonestStore H) (M : Set Bytes) :
    TieredMerklePageStore S H → (Nat → Bytes) → (Nat → Prop) → Prop
  | build {n sz m hsz levels : Nat} {c d : Nat → Bytes} {inner : S} {hashStore : H} {storeId : FixedBytes 16}
      {s : TieredMerklePageStore S H} : HS.Holds n sz c inner → HH.Holds m hsz d hashStore →
      build inner hashStore storeId levels = .ok s → contentMessages s.toTieredLayout c ⊆ M → Run HS HH M s c fun _ => True
  | disk {s : TieredMerklePageStore S H} {c : Nat → Bytes} {kept : Nat → Prop} (inner : S) (hashStore : H) :
      Run HS HH M s c kept → Run HS HH M { s with inner, hashStore } c kept
  | read {s : TieredMerklePageStore S H} {c : Nat → Bytes} {kept : Nat → Prop} (i len : Nat) :
      Run HS HH M s c kept → Run HS HH M (PageStore.readPage i len s).2 c kept
  | write {s : TieredMerklePageStore S H} {c : Nat → Bytes} {kept : Nat → Prop} {i : Nat} {page : Bytes}
      {sibs : List (Nat × Hash)} : Run HS HH M s c kept → (writeUsing i page s).1 = .ok sibs →
      (∀ m ∈ pathMessages s.toTieredLayout i page (sibs.map Prod.snd), m ∈ M) →
      contentMessages s.toTieredLayout (Function.update c i page) ⊆ M →
      Run HS HH M (PageStore.writePage i page s).2 (Function.update c i page) (KeptBy s.toTieredLayout c kept i sibs)
  | refused {s : TieredMerklePageStore S H} {c : Nat → Bytes} {kept : Nat → Prop} {i : Nat} {page : Bytes} {e : Error} :
      Run HS HH M s c kept → (PageStore.writePage i page s).1 = .error e → Run HS HH M (PageStore.writePage i page s).2 c kept
  | reopen {s t : TieredMerklePageStore S H} {c : Nat → Bytes} {kept : Nat → Prop} (inner : S) (hashStore : H) :
      Run HS HH M s c kept → fromTrustedState inner hashStore s.trustedState = .ok t → Run HS HH M t c kept

/-- What a run keeps: the kept pages open to what was last written. -/
structure Committed (M : Set Bytes) (s : TieredMerklePageStore S H) (c : Nat → Bytes) (kept : Nat → Prop) : Prop where
  length : s.trustedHashes.length = s.trustedNodeLimit
  messages : contentMessages s.toTieredLayout c ⊆ M
  opens : ∀ i < s.pageCount, kept i → Opens M s i (c i)
  all : s.diskHashNodes = 0 → ∀ i < s.pageCount, kept i

variable {kept : Nat → Prop}

omit [PageStore S] [PageStore H] in
theorem Committed.onDisk (h : Committed M s c kept) (ht : OnDisk s t) : Committed M t c kept := by
  obtain ⟨inner, hashStore, rfl⟩ := ht
  exact ⟨h.length, h.messages, fun i hi hkept => (h.opens i hi hkept).congr rfl rfl, h.all⟩

omit [PageStore S] [PageStore H] in
theorem Committed.wrote (h : Committed M s c kept) (hw : Wrote s i page sibs t)
    (hin : ∀ m ∈ pathMessages s.toTieredLayout i page (sibs.map Prod.snd), m ∈ M)
    (hc : contentMessages s.toTieredLayout (Function.update c i page) ⊆ M) :
    Committed M t (Function.update c i page) (KeptBy s.toTieredLayout c kept i sibs) := by
  have hlayout := hw.but.layout
  refine ⟨by rw [hw.but.length, h.length, hlayout], by rw [hlayout]; exact hc, fun j hj hkept => ?_, fun hdisk j hj => ?_⟩
  · rw [hlayout] at hj
    by_cases hself : j = i
    · subst hself
      rw [Function.update_self]
      exact hw.opens_self hin
    · rw [Function.update_of_ne hself]
      have hkept := hkept.resolve_left hself
      by_cases hnode : s.trustedNode j = s.trustedNode i
      · rw [if_pos hnode] at hkept
        obtain ⟨v, hcov, hv⟩ := hkept
        exact hw.opens_beside hj hself hnode h.messages hin hcov hv
      · rw [if_neg hnode] at hkept
        exact hw.opens_off hnode (h.opens j hj hkept)
  · rw [hlayout] at hdisk hj
    by_cases hself : j = i
    · exact .inl hself
    · -- every page has a trusted node of its own
      have hj' := TieredLayout.trustedNode_leaf s.toTieredLayout hdisk hj
      have hi' := TieredLayout.trustedNode_leaf s.toTieredLayout hdisk hw.page_lt
      refine .inr ?_
      rw [if_neg (by omega)]
      exact h.all hdisk j hj

theorem writePage_onDisk {e : Error} (hlen : s.trustedHashes.length = s.trustedNodeLimit)
    (h : (PageStore.writePage i page s).1 = .error e) : OnDisk s (PageStore.writePage i page s).2 := by
  rw [writePage_using] at h ⊢
  rcases writeUsing_cases hlen i page with ⟨e', t, hrun, ht⟩ | ⟨sibs, t, hrun, -⟩
  · rw [Eff.bind_error hrun]
    exact ht
  · rw [Eff.bind_ok hrun] at h
    cases h

theorem writePage_wrote (hlen : s.trustedHashes.length = s.trustedNodeLimit) (h : (writeUsing i page s).1 = .ok sibs) :
    Wrote s i page sibs (PageStore.writePage i page s).2 := by
  rw [writePage_using]
  rcases writeUsing_cases hlen i page with ⟨e', t, hrun, -⟩ | ⟨sibs', t, hrun, hw⟩
  · rw [hrun] at h
    cases h
  · rw [hrun] at h
    cases h
    rw [Eff.bind_ok hrun]
    exact hw

omit [Sha256] in
/-- A store reopened from its trusted state has the hashes in memory of the store. -/
theorem fromTrustedState_trusted {inner : S} {hashStore : H} (h : fromTrustedState inner hashStore s.trustedState = .ok t) :
    t.trustedHashes = s.trustedHashes ∧ t.storeId = s.storeId ∧ t.pageCount = s.pageCount ∧ t.pageSize = s.pageSize ∧
      t.leafBase = s.leafBase ∧ t.trustedNodeLimit = s.trustedNodeLimit := by
  unfold fromTrustedState at h
  simp only at h
  split at h
  · cases h
  · rename_i hcount
    split at h
    · cases h
    · rename_i hsize
      split at h
      · cases h
      · obtain ⟨base, -, h⟩ := bind_result_ok h
        obtain ⟨limit, -, h⟩ := bind_result_ok h
        split at h
        · cases h
        · obtain ⟨perPage, -, h⟩ := bind_result_ok h
          split at h
          · cases h
          · cases h
            have hcount : PageStore.pageCount inner = s.pageCount := not_not.mp hcount
            have hbase : base.val.val = s.leafBase := by rw [base.val.property.1, hcount, s.leafBase_eq]
            refine ⟨rfl, rfl, hcount, not_not.mp hsize, hbase, ?_⟩
            show limit.val = s.trustedNodeLimit
            rw [limit.property.limit_eq, s.levels.limit_eq]
            rfl

omit [PageStore S] [PageStore H] in
/-- What is kept does not depend on how the hashes lie on the disk. -/
theorem Committed.reopened (h : Committed M s c kept) (htrusted : t.trustedHashes = s.trustedHashes)
    (hid : t.storeId = s.storeId) (hcount : t.pageCount = s.pageCount) (hsize : t.pageSize = s.pageSize)
    (hbase : t.leafBase = s.leafBase) (hlimit : t.trustedNodeLimit = s.trustedNodeLimit) : Committed M t c kept := by
  have hmessages : contentMessages t.toTieredLayout c = contentMessages s.toTieredLayout c := by
    unfold contentMessages tree
    rw [hid, hcount, hsize, hbase]
  refine ⟨by rw [htrusted, hlimit, h.length], hmessages ▸ h.messages, fun i hi hkept => ?_, fun hdisk i hi => ?_⟩
  · have := h.opens i (hcount ▸ hi) hkept
    unfold Opens pathMessages TieredLayout.trustedNode at this ⊢
    rwa [htrusted, hid, hbase, hlimit]
  · refine h.all ?_ i (hcount ▸ hi)
    unfold TieredLayout.diskHashNodes at hdisk ⊢
    rwa [← hbase, ← hlimit]

variable {HS : HonestStore S} {HH : HonestStore H}

theorem Run.committed (h : Run HS HH M s c kept) : Committed M s c kept := by
  induction h with
  | @build n sz m hsz levels c d inner hashStore storeId s hdata hdisk hbuild hc =>
    obtain ⟨hs, -⟩ := build_stands hdata hdisk hbuild
    refine ⟨hs.trusted, hc, fun i hi _ => opens_tree hi hc ?_, fun _ _ _ => trivial⟩
    have hle := s.pageCount_le
    exact trusted_stands hs (climbEnd_pos s.one_lt_limit (by omega)) (s.trustedNode_lt i)
  | disk inner hashStore _ ih => exact ih.onDisk ⟨inner, hashStore, rfl⟩
  | read i len _ ih => exact ih.onDisk (readPage_onDisk i len _)
  | write _ hrun hin hc ih => exact ih.wrote (writePage_wrote ih.length hrun) hin hc
  | refused _ hrun ih => exact ih.onDisk (writePage_onDisk ih.length hrun)
  | reopen inner hashStore _ hopen ih =>
    obtain ⟨htrusted, hid, hcount, hsize, hbase, hlimit⟩ := fromTrustedState_trusted hopen
    exact ih.reopened htrusted hid hcount hsize hbase hlimit

/-- The messages of what a read goes by. -/
def ReadHashed (M : Set Bytes) (i len : Nat) (s : TieredMerklePageStore S H) : Prop :=
  ∀ page sibs t, readUsing i len s = (.ok (page, sibs), t) → ∀ m ∈ pathMessages s.toTieredLayout i page sibs, m ∈ M

theorem Committed.read {len : Nat} (h : Committed M s c kept) (hM : Set.InjOn Sha256.digest M) (hkept : kept i)
    (hread : ReadHashed M i len s) (hrun : PageStore.readPage i len s = (.ok page, t)) : page = c i := by
  obtain ⟨hi, sibs, husing, hlen, hnode⟩ := readPage_using hrun
  exact Opens.unique ⟨sibs, hlen, hnode, hread page sibs t husing⟩ (h.opens i hi hkept) hM

/-- Whatever became of the disk, a page that is kept is read as it was last written, or not at
    all; and with every level in memory all the pages are kept. -/
theorem Run.read_written (hM : Set.InjOn Sha256.digest M) (h : Run HS HH M s c kept) :
    (∀ i len page t, kept i → ReadHashed M i len s → PageStore.readPage i len s = (.ok page, t) → page = c i) ∧
      (s.diskHashNodes = 0 → ∀ i < s.pageCount, kept i) := by
  have hs := h.committed
  exact ⟨fun i len page t hkept hread hrun => hs.read hM hkept hread hrun, hs.all⟩

/-! ## What a write adopts -/

variable {l : TieredLayout} {L : Nat → Hash}

theorem updateAbove_raise (h : Stands HS HH l c L s) {k : Nat} (h0 : 0 < k) (hk : k < l.leafBase * 2) :
    ∃ t, updateAbove k (L k) s = (.ok (), t) ∧ Stands HS HH l c (raise hashNode L k) t := by
  induction k using Nat.strong_induction_on generalizing L s with
  | h k ih =>
    by_cases h1 : 1 < k
    · have hhalf := siblingOf_half k
      obtain ⟨t, hread, ht⟩ := readHash_stands h (k := siblingNode k) (by rw [siblingNode_eq]; omega)
        (by rw [siblingNode_eq]; omega)
      obtain ⟨u, hwrite, hu⟩ := writeHash_stands ht (k := k / 2) (by omega) (by omega)
        (parentHash k (L k) (L (siblingNode k)))
      obtain ⟨v, hrun, hv⟩ := ih (k / 2) (by omega) hu (by omega) (by omega)
      rw [Function.update_self] at hrun
      rw [parentHash_eq, siblingNode_eq, ← raise_of_lt h1] at hv
      refine ⟨v, ?_, hv⟩
      rw [updateAbove, if_pos h1]
      exact (Eff.bind_ok hread).trans ((Eff.bind_ok hwrite).trans hrun)
    · rw [updateAbove, if_neg h1, raise_one h1]
      exact ⟨s, rfl, h⟩

/-- A write over any hashes relabels the nodes above its page from what is there. -/
theorem writePage_raise (h : Stands HS HH l c L s) (hi : i < l.pageCount) (hlen : page.length = l.pageSize) :
    ∃ t, PageStore.writePage i page s = (.ok (), t) ∧ Stands HS HH l (Function.update c i page)
      (raise hashNode (Function.update L (l.leafBase + i) (hashLeaf l.storeId i page)) (l.leafBase + i)) t := by
  have hbase := l.pageCount_le
  obtain ⟨t, hwrite, ht⟩ := writeData_stands h hi hlen
  obtain ⟨u, hset, hu⟩ := writeHash_stands ht (show 0 < l.leafBase + i by omega) (by omega) (hashLeaf l.storeId i page)
  obtain ⟨v, hrun, hv⟩ := updateAbove_raise hu (show 0 < l.leafBase + i by omega) (by omega)
  rw [Function.update_self] at hrun
  refine ⟨v, ?_, hv⟩
  have hupdate : updatePageHash i (hashLeaf l.storeId i page) t = (.ok (), v) := by
    obtain rfl := ht.layout
    unfold updatePageHash
    rw [Eff.get_bind]
    exact (Eff.bind_ok hset).trans hrun
  obtain rfl := h.layout
  show (Eff.get >>= _) s = _
  rw [Eff.get_bind, checkMerklePage_ok hi hlen, Eff.lift_ok_bind]
  exact (Eff.bind_ok hwrite).trans hupdate

/-- A read over any hashes succeeds where those on the way combine to the trusted node. -/
theorem readPage_combines (h : Stands HS HH l c L s) (hi : i < l.pageCount)
    (hnode : climb hashNode (l.leafBase + i) (hashLeaf l.storeId i (c i))
      ((siblings l.trustedNodeLimit (l.leafBase + i)).map L) = L (l.trustedNode i)) :
    (PageStore.readPage i l.pageSize s).1 = .ok (c i) := by
  have hbase := l.pageCount_le
  have hlimit := l.one_lt_limit
  have hlevel : l.leafBase + i < 2 ^ (l.leafBase.log2 + 1) := by
    rw [Nat.pow_succ, ← l.leafBase_pow]
    omega
  have hstep : ∀ v ∈ siblings l.trustedNodeLimit (l.leafBase + i), ∀ s, Stands HS HH l c L s →
      ∃ t, readHash v s = (.ok (L v), t) ∧ Stands HS HH l c L t := by
    intro v hv s hs
    have hlow := limit_le_siblings l.limit_even hv
    have hhigh := siblings_level hlevel hv
    rw [Nat.pow_succ, ← l.leafBase_pow] at hhigh
    exact readHash_stands hs (by omega) hhigh
  obtain ⟨t, hread, ht⟩ := readData_stands h hi
  obtain ⟨u, hsibs, hu⟩ := Eff.forEach_map hstep ht
  have htrusted := trusted_stands hu (climbEnd_pos hlimit (show 0 < l.leafBase + i by omega)) (l.trustedNode_lt i)
  have hverify : verifyPageHash i (hashLeaf l.storeId i (c i)) t = (.ok (), u) := by
    obtain rfl := ht.layout
    unfold verifyPageHash
    rw [Eff.get_bind, climbToTrusted_eq, Eff.bind_assoc, Eff.bind_ok hsibs]
    simp only [Eff.pure_bind, Eff.get_bind, Eff.ite_apply, hnode]
    exact if_pos ((hashEq_iff _ _).mpr htrusted.symm)
  obtain rfl := h.layout
  show ((Eff.get >>= _ : Eff Error (TieredMerklePageStore S H) Bytes) s).1 = _
  rw [Eff.get_bind, checkMerklePage_ok hi rfl, Eff.lift_ok_bind, Eff.bind_ok hread, Eff.bind_ok hverify]
  rfl

/-- The nodes on the disk and the trusted node above the page, once a write has relabelled what is above
    the page, are those of the tree of the contents on the disk. -/
theorem raise_tree (hi : i < l.pageCount) (hL : ∀ k, l.trustedNodeLimit ≤ k → k < l.leafBase * 2 → L k = tree l c k)
    {a : Nat} (ha : l.trustedNodeLimit ≤ a ∨ a = l.trustedNode i) (hlt : a < l.leafBase * 2) :
    raise hashNode (Function.update L (l.leafBase + i) (hashLeaf l.storeId i page)) (l.leafBase + i) a
      = tree l (Function.update c i page) a := by
  have hbase := l.pageCount_le
  have hlimit := l.one_lt_limit
  have hlast := l.limit_le_trustedNode i
  have hlevel : l.leafBase + i < 2 ^ (l.leafBase.log2 + 1) := by
    rw [Nat.pow_succ, ← l.leafBase_pow]
    omega
  -- off the way up nothing changes
  have hoff : ∀ v, l.trustedNodeLimit ≤ v → v < l.leafBase * 2 → ¬ Lib.Covers v (l.leafBase + i) →
      Function.update L (l.leafBase + i) (hashLeaf l.storeId i page) v = tree l (Function.update c i page) v := by
    intro v hv hvlt hcov
    rw [Function.update_of_ne (by rintro rfl; exact hcov (.refl _)), hL v hv hvlt]
    exact hashTree_leaf_congr (by omega) hcov fun b hb hne => leafLabel_update_of_ne page hb hne
  by_cases hcov : Lib.Covers a (l.leafBase + i)
  · refine raise_hashTree (by omega) hcov (by omega) ?_ fun v hv => ?_
    · rw [Function.update_self, hashTree_leaf (by omega), leafLabel_update hi]
    · have hlow := le_siblings hcov hv
      have hhigh := siblings_level hlevel hv
      rw [Nat.pow_succ, ← l.leafBase_pow] at hhigh
      exact hoff v (by omega) hhigh (siblings_off (by omega) hv)
  · rw [raise_off fun h => absurd h hcov]
    refine hoff a (ha.resolve_right ?_) hlt hcov
    rintro rfl
    exact hcov climbEnd_covers

/-- One write through a trusted node, and every page under the node is read as it is on a disk that
    anyone laid out: the siblings a write takes from the disk are not verified. -/
theorem Run.writePage_adopts (h : Run HS HH M s c kept) {n sz m hsz levels : Nat} {c' d : Nat → Bytes} {inner : S}
    {hashStore : H} {storeId : FixedBytes 16} {forged : TieredMerklePageStore S H} (hdata : HS.Holds n sz c' inner)
    (hdisk : HH.Holds m hsz d hashStore) (hbuild : TieredMerklePageStore.build inner hashStore storeId levels = .ok forged)
    (hlayout : forged.toTieredLayout = s.toTieredLayout) (hi : i < s.pageCount) (hlen : page.length = s.pageSize) :
    ∃ t, PageStore.writePage i page { s with inner := forged.inner, hashStore := forged.hashStore } = (.ok (), t) ∧
      t.trustedHashes.getD (s.trustedNode i) noHash = tree s.toTieredLayout (Function.update c' i page) (s.trustedNode i) ∧
      ∀ j < s.pageCount, s.trustedNode j = s.trustedNode i →
        (PageStore.readPage j s.pageSize t).1 = .ok (Function.update c' i page j) := by
  obtain ⟨-, hpages, -, m', hsz', d', hd, hper, hm, hlabel⟩ := (build_stands hdata hdisk hbuild).1
  rw [hlayout] at hpages hper hm hlabel
  -- the forged disk under the memory of the store
  have hs : Stands HS HH s.toTieredLayout c' (s.label s.trustedHashes d')
      { s with inner := forged.inner, hashStore := forged.hashStore } :=
    ⟨rfl, hpages, h.committed.length, m', hsz', d', hd, hper, hm, fun _ _ _ => rfl⟩
  have hL : ∀ k, s.trustedNodeLimit ≤ k → k < s.leafBase * 2 →
      s.label s.trustedHashes d' k = tree s.toTieredLayout c' k := by
    intro k hk hlt
    have hlimit := s.one_lt_limit
    rw [hlabel k (by omega) hlt, TieredLayout.label, TieredLayout.label, if_neg (by omega), if_neg (by omega)]
  obtain ⟨t, hwrite, ht⟩ := writePage_raise hs hi hlen
  have hbase := s.pageCount_le
  have hlimit := s.one_lt_limit
  have hle := TieredLayout.limit_le (l := s.toTieredLayout)
  have hlow := s.trustedNode_lt i
  -- the trusted node over the page
  have hnode : raise hashNode (Function.update (s.label s.trustedHashes d') (s.leafBase + i) (hashLeaf s.storeId i page))
      (s.leafBase + i) (s.trustedNode i) = tree s.toTieredLayout (Function.update c' i page) (s.trustedNode i) :=
    raise_tree hi hL (.inr rfl) (by omega)
  have htrusted := trusted_stands ht (climbEnd_pos hlimit (show 0 < s.leafBase + i by omega)) hlow
  refine ⟨t, hwrite, htrusted.trans hnode, fun j hj hsame => readPage_combines ht hj ?_⟩
  have hlevel : s.leafBase + j < 2 ^ (s.leafBase.log2 + 1) := by
    rw [Nat.pow_succ, ← s.leafBase_pow]
    omega
  have hsibs : (siblings s.trustedNodeLimit (s.leafBase + j)).map (raise hashNode (Function.update (s.label s.trustedHashes d')
      (s.leafBase + i) (hashLeaf s.storeId i page)) (s.leafBase + i))
      = (siblings s.trustedNodeLimit (s.leafBase + j)).map (tree s.toTieredLayout (Function.update c' i page)) := by
    refine List.map_congr_left fun v hv => raise_tree hi hL (.inl (limit_le_siblings s.limit_even hv)) ?_
    have hhigh := siblings_level hlevel hv
    rwa [Nat.pow_succ, ← s.leafBase_pow] at hhigh
  rw [hsibs, hsame, hnode, ← tree_leaf hj, ← hsame]
  exact climb_hashTree hlimit (by omega)

end

/-! ## A small store -/

section
local instance smallTieredSha256 : Sha256 := smallSha256

/-- The contents of `smallTiered`, and with a page written. -/
def smallTieredPages : List (Nat → Bytes) :=
  [(zeroPages 3 1 Nat.one_pos).page, Function.update (zeroPages 3 1 Nat.one_pos).page 0 [7]]

def smallTieredMessages : List Bytes :=
  smallTieredPages.flatMap fun c =>
    (List.range 3).map (fun j => leafMessage (FixedBytes.zero 16) j (c j)) ++
      [1, 2, 3].map fun k =>
        nodeMessage k (pageTree (FixedBytes.zero 16) 3 1 4 c (2 * k)) (pageTree (FixedBytes.zero 16) 3 1 4 c (2 * k + 1))

theorem contentMessages_smallTiered {c : Nat → Bytes} (hc : c ∈ smallTieredPages) :
    contentMessages smallTiered.toTieredLayout c ⊆ { b | b ∈ smallTieredMessages } := by
  have hsizes : smallTiered.storeId = FixedBytes.zero 16 ∧ smallTiered.pageCount = 3 ∧ smallTiered.pageSize = 1 ∧
      smallTiered.leafBase = 4 := by decide +kernel
  unfold contentMessages tree
  rw [hsizes.1, hsizes.2.1, hsizes.2.2.1, hsizes.2.2.2]
  rintro m (⟨j, hj, rfl⟩ | ⟨x, ⟨k, h0, hk, rfl⟩, rfl⟩)
  · exact List.mem_flatMap.mpr ⟨c, hc, List.mem_append_left _ (List.mem_map_of_mem (List.mem_range.mpr hj))⟩
  · refine List.mem_flatMap.mpr ⟨c, hc, List.mem_append_right _ (List.mem_map.mpr ⟨k, ?_, rfl⟩)⟩
    rw [List.mem_cons, List.mem_cons, List.mem_singleton]
    omega

/-- The store with a page written, its disk rolled back to before the write. -/
def smallTieredWritten : TieredMerklePageStore MemPageStore MemPageStore := (PageStore.writePage 0 [7] smallTiered).2

def smallTieredRolled : TieredMerklePageStore MemPageStore MemPageStore :=
  { smallTieredWritten with inner := smallTiered.inner, hashStore := smallTiered.hashStore }

def smallTieredSibs : List (Nat × Hash) := (writeUsing 0 [7] smallTiered).1.toOption.getD []

/-- The disk is put right again after a read. -/
def smallTieredBack : TieredMerklePageStore MemPageStore MemPageStore :=
  { (PageStore.readPage 0 1 smallTieredRolled).2 with
    inner := smallTieredWritten.inner, hashStore := smallTieredWritten.hashStore }

theorem ReadHashed.of_all {msgs : List Bytes} {i len : Nat} {s : TieredMerklePageStore MemPageStore MemPageStore}
    (h : ∀ r ∈ (readUsing i len s).1.toOption, ∀ m ∈ pathMessages s.toTieredLayout i r.1 r.2, m ∈ msgs) :
    ReadHashed { b | b ∈ msgs } i len s := by
  intro page sibs t hrun
  exact h (page, sibs) (by rw [hrun]; rfl)

theorem run_smallTiered : Run MemPageStore.honest MemPageStore.honest { b | b ∈ smallTieredMessages } smallTiered
    (zeroPages 3 1 Nat.one_pos).page fun _ => True :=
  .build (zeroPages_holds 3 1 Nat.one_pos) (zeroPages_holds 2 64 (Nat.succ_pos 63)) (toOption_get _)
    (contentMessages_smallTiered List.mem_cons_self)

theorem Run.read_written_smallTiered : (PageStore.readPage 0 1 smallTieredRolled).1.toOption = none ∧
    ∃ t, PageStore.readPage 0 1 smallTieredBack = (.ok [7], t) ∧
      [7] = Function.update (zeroPages 3 1 Nat.one_pos).page 0 [7] 0 := by
  have hinj : Set.InjOn Sha256.digest { b | b ∈ smallTieredMessages } := fun a ha b hb =>
    (by decide +kernel :
      ∀ a ∈ smallTieredMessages, ∀ b ∈ smallTieredMessages, Sha256.digest a = Sha256.digest b → a = b) a ha b hb
  have hwrite := Run.write run_smallTiered (show (writeUsing 0 [7] smallTiered).1 = .ok smallTieredSibs by decide +kernel)
    (by decide +kernel) (contentMessages_smallTiered (List.mem_cons_of_mem _ List.mem_cons_self))
  rw [← smallTieredWritten] at hwrite
  have hrolled := (hwrite.disk smallTiered.inner smallTiered.hashStore).read 0 1
  rw [← smallTieredRolled] at hrolled
  have hback := hrolled.disk smallTieredWritten.inner smallTieredWritten.hashStore
  rw [← smallTieredBack] at hback
  have hhashed : ReadHashed { b | b ∈ smallTieredMessages } 0 1 smallTieredBack := .of_all (by decide +kernel)
  obtain ⟨t, hrun⟩ := Eff.run_of_result (show (PageStore.readPage 0 1 smallTieredBack).1 = .ok [7] by decide +kernel)
  exact ⟨by decide +kernel, t, hrun, (hback.read_written hinj).1 0 1 _ t (.inl rfl) hhashed hrun⟩

/-- A disk with another page 1, laid out by whoever writes to it. -/
def forgedPages : MemPageStore := (PageStore.writePage 1 [9] (zeroPages 3 1 Nat.one_pos)).2

theorem forgedHashPage_pos : 0 < 64 := Nat.succ_pos 63

def smallForgedBuild : Result (TieredMerklePageStore MemPageStore MemPageStore) :=
  build forgedPages (zeroPages 2 64 forgedHashPage_pos) (FixedBytes.zero 16) 2

def smallForged : TieredMerklePageStore MemPageStore MemPageStore := smallForgedBuild.toOption.get (by decide +kernel)

/-- That disk under the hashes in memory of `smallTiered`. -/
def smallTieredForged : TieredMerklePageStore MemPageStore MemPageStore :=
  { smallTiered with inner := smallForged.inner, hashStore := smallForged.hashStore }

theorem Run.writePage_adopts_smallTiered : ∃ t, PageStore.writePage 0 [7] smallTieredForged = (.ok (), t) ∧
    (PageStore.readPage 1 1 t).1 = .ok [9] := by
  obtain ⟨forged, hforged, hdata⟩ := MemPageStore.honest.writePage (zeroPages_holds 3 1 Nat.one_pos)
    (show 1 < 3 by decide) (show [9].length = 1 from rfl)
  have hbuild : smallForgedBuild = .ok smallForged := toOption_get _
  have hpages : forgedPages = forged := congrArg Prod.snd hforged
  rw [← hpages] at hdata
  have hsizes : smallTiered.pageCount = 3 ∧ smallTiered.pageSize = 1 ∧
      smallTiered.trustedNode 1 = smallTiered.trustedNode 0 := by
    decide +kernel
  obtain ⟨t, hwrite, -, hread⟩ := run_smallTiered.writePage_adopts (i := 0) hdata
    (zeroPages_holds 2 64 forgedHashPage_pos) hbuild (TieredLayout.ext (by decide +kernel) (by decide +kernel) (by decide +kernel)
      (by decide +kernel) (by decide +kernel) (by decide +kernel) (by decide +kernel))
    (by rw [hsizes.1]; decide) (show ([7] : Bytes).length = smallTiered.pageSize by rw [hsizes.2.1]; rfl)
  have h1 := hread 1 (by rw [hsizes.1]; decide) hsizes.2.2
  rw [hsizes.2.1, Function.update_of_ne (by decide), Function.update_self] at h1
  rw [← smallTieredForged] at hwrite
  exact ⟨t, hwrite, h1⟩

end
end TieredMerklePageStore
end BpirOram
