/-
  BpirOram.Merkle.Honest — the tiered store over untampered stores is the in-memory store.

  `pageTree` is the full hash tree over the pages. `Stands l c L s` says that a tiered
  store over honest stores holds the pages `c` and, node by node, the hashes `L`, each in
  memory or at its position on disk; reading and writing a hash are reading and writing
  `L` (`readHash_stands`, `writeHash_stands`), so building and every call keep `L` at the
  tree of the pages. `Merkle.Beside` sets such a store beside the in-memory one.
-/

import BpirOram.Merkle.Store
import BpirOram.Contract

namespace BpirOram

open Lib

/-- The hashes of all the nodes of a tree of `leafBase` leaves over the pages `c`. -/
def leafLabel [Sha256] (storeId : FixedBytes 16) (pageCount pageSize leafBase : Nat) (c : Nat → Bytes) (k : Nat) : Hash :=
  if k - leafBase < pageCount then hashLeaf storeId (k - leafBase) (c (k - leafBase))
  else hashEmptyLeaf storeId (k - leafBase) pageSize

def pageTree [Sha256] (storeId : FixedBytes 16) (pageCount pageSize leafBase : Nat) (c : Nat → Bytes) : Nat → Hash :=
  hashTree leafBase hashNode (leafLabel storeId pageCount pageSize leafBase c)

/-- The contents after a call to write a page, which is refused out of range or at another length. -/
def written (pageCount pageSize : Nat) (c : Nat → Bytes) (pageIdx : Nat) (input : Bytes) : Nat → Bytes :=
  if pageIdx < pageCount ∧ input.length = pageSize then Function.update c pageIdx input else c

section
variable [Sha256] {storeId : FixedBytes 16} {pageCount pageSize leafBase : Nat} {c : Nat → Bytes}

theorem leafLabel_update {i : Nat} (hi : i < pageCount) (page : Bytes) :
    leafLabel storeId pageCount pageSize leafBase (Function.update c i page) (leafBase + i) = hashLeaf storeId i page := by
  unfold leafLabel
  rw [show leafBase + i - leafBase = i by omega, if_pos hi, Function.update_self]

theorem leafLabel_update_of_ne {i k : Nat} (page : Bytes) (hk : leafBase ≤ k) (h : k ≠ leafBase + i) :
    leafLabel storeId pageCount pageSize leafBase c k
      = leafLabel storeId pageCount pageSize leafBase (Function.update c i page) k := by
  unfold leafLabel
  rw [Function.update_of_ne (by omega)]

end

theorem checkMerklePage_ok {pageCount pageSize pageIdx len : Nat} (hi : pageIdx < pageCount) (hlen : len = pageSize) :
    checkMerklePage pageCount pageSize pageIdx len = .ok () := by
  rw [checkMerklePage, if_neg (by omega), if_neg (by omega)]

theorem checkMerklePage_error {pageCount pageSize pageIdx len : Nat} (h : ¬ (pageIdx < pageCount ∧ len = pageSize)) :
    ∃ e, checkMerklePage pageCount pageSize pageIdx len = .error e := by
  unfold checkMerklePage
  split
  · exact ⟨_, rfl⟩
  · rw [if_pos (by omega)]
    exact ⟨_, rfl⟩

theorem getD_set {hashes : List Hash} {k : Nat} (h : k < hashes.length) (hash : Hash) :
    (fun a => (hashes.set k hash).getD a noHash) = Function.update (fun a => hashes.getD a noHash) k hash := by
  funext a
  by_cases ha : a = k
  · subst ha
    rw [Function.update_self, List.getD_eq_getElem?_getD, List.getElem?_set_self h]
    rfl
  · rw [Function.update_of_ne ha, List.getD_eq_getElem?_getD, List.getElem?_set_ne (Ne.symm ha), ← List.getD_eq_getElem?_getD]

/-! ## Positions on disk -/

namespace TieredLayout

variable (l : TieredLayout)

/-- The hash a node has: in memory, or where it is in the hash pages `d`. -/
def label (trusted : List Hash) (d : Nat → Bytes) (k : Nat) : Hash :=
  if k < l.trustedNodeLimit then trusted.getD k noHash
  else FixedBytes.ofSlice 32 (d ((k - l.trustedNodeLimit) / l.hashesPerPage))
    ((k - l.trustedNodeLimit) % l.hashesPerPage * 32)

variable {l} {k : Nat}

theorem checkNodeIdx_ok (h0 : 0 < k) (h : k < l.leafBase * 2) : l.checkNodeIdx k = .ok () := by
  rw [checkNodeIdx, if_neg (by omega)]

theorem diskHashPosition_ok (h : k < l.leafBase * 2) (hlimit : l.trustedNodeLimit ≤ k) :
    l.diskHashPosition k = .ok ((k - l.trustedNodeLimit) / l.hashesPerPage,
      (k - l.trustedNodeLimit) % l.hashesPerPage * 32) := by
  have hdisk : k - l.trustedNodeLimit < l.diskHashNodes := by
    unfold diskHashNodes BpirOram.diskHashNodes
    omega
  unfold diskHashPosition
  rw [if_neg (by omega), if_neg (by omega)]

theorem limit_le : l.trustedNodeLimit ≤ l.leafBase * 2 := by
  rw [l.levels.limit_eq, l.leafBase_pow, ← Nat.pow_succ]
  exact Nat.pow_le_pow_right (by omega) l.levels.le

theorem page_lt {m : Nat} (hm : pagesForHashNodes l.diskHashNodes l.hashesPerPage ≤ m) (h : k < l.leafBase * 2)
    (hlimit : l.trustedNodeLimit ≤ k) : (k - l.trustedNodeLimit) / l.hashesPerPage < m := by
  refine Nat.lt_of_lt_of_le (lt_divCeil ?_) hm
  unfold diskHashNodes BpirOram.diskHashNodes
  omega

theorem offset_le {hsz : Nat} (hper : l.hashesPerPage = hsz / 32) (j : Nat) : j % l.hashesPerPage * 32 + 32 ≤ hsz := by
  have hmod := Nat.mod_lt j l.hashesPerPage_pos
  omega

/-- Two nodes on one hash page are 32 bytes apart. -/
theorem offset_apart {i j : Nat} (hne : i ≠ j) (hpage : i / l.hashesPerPage = j / l.hashesPerPage) :
    i % l.hashesPerPage * 32 + 32 ≤ j % l.hashesPerPage * 32 ∨
    j % l.hashesPerPage * 32 + 32 ≤ i % l.hashesPerPage * 32 := by
  have hi := Nat.div_add_mod i l.hashesPerPage
  have hj := Nat.div_add_mod j l.hashesPerPage
  rw [hpage] at hi
  omega

theorem label_set_trusted {trusted : List Hash} {d : Nat → Bytes} {hash : Hash} (hlen : trusted.length = l.trustedNodeLimit)
    (hk : k < l.trustedNodeLimit) : l.label (trusted.set k hash) d = Function.update (l.label trusted d) k hash := by
  have hset := getD_set (hlen ▸ hk) hash
  funext a
  have ha := congrFun hset a
  by_cases hak : a = k
  · subst hak
    rw [Function.update_self] at ha ⊢
    rw [label, if_pos hk, ha]
  · rw [Function.update_of_ne hak] at ha ⊢
    rw [label, label, ha]

/-- Overwriting a node's slice of its hash page relabels that node and no other. -/
theorem label_splice {trusted : List Hash} {d : Nat → Bytes} {hash : Hash} {hsz m : Nat}
    (hper : l.hashesPerPage = hsz / 32) (hm : pagesForHashNodes l.diskHashNodes l.hashesPerPage ≤ m)
    (hd : ∀ i < m, (d i).length = hsz) (hk : k < l.leafBase * 2) (hlimit : l.trustedNodeLimit ≤ k) {a : Nat} :
    l.label trusted (Function.update d ((k - l.trustedNodeLimit) / l.hashesPerPage)
      (splice (d ((k - l.trustedNodeLimit) / l.hashesPerPage)) ((k - l.trustedNodeLimit) % l.hashesPerPage * 32) hash.val)) a
      = Function.update (l.label trusted d) k hash a := by
  have hlen := hd _ (page_lt hm hk hlimit)
  have hfit := offset_le hper (k - l.trustedNodeLimit)
  unfold label
  by_cases ha : a = k
  · subst ha
    rw [Function.update_self, if_neg (by omega), Function.update_self, FixedBytes.ofSlice_splice_self hash (by omega)]
  · rw [Function.update_of_ne ha]
    by_cases htrusted : a < l.trustedNodeLimit
    · rw [if_pos htrusted, if_pos htrusted]
    · rw [if_neg htrusted, if_neg htrusted]
      by_cases hpage : (a - l.trustedNodeLimit) / l.hashesPerPage = (k - l.trustedNodeLimit) / l.hashesPerPage
      · have hfit' := offset_le hper (a - l.trustedNodeLimit)
        have hapart := offset_apart (l := l) (show a - l.trustedNodeLimit ≠ k - l.trustedNodeLimit by omega) hpage
        rw [hpage, Function.update_self, FixedBytes.ofSlice_splice hash (by omega) (by omega) hapart]
      · rw [Function.update_of_ne hpage]

end TieredLayout

namespace TieredMerklePageStore

variable {S H : Type} [PageStore S] [PageStore H]

/-! ## Hashes as cells -/

/-- The store holds the pages `c` and the hashes `L` over honest stores. -/
structure Stands (HS : HonestStore S) (HH : HonestStore H) (l : TieredLayout) (c : Nat → Bytes) (L : Nat → Hash)
    (s : TieredMerklePageStore S H) : Prop where
  layout : s.toTieredLayout = l
  data : HS.Holds l.pageCount l.pageSize c s.inner
  trusted : s.trustedHashes.length = l.trustedNodeLimit
  disk : ∃ m hsz d, HH.Holds m hsz d s.hashStore ∧ l.hashesPerPage = hsz / 32 ∧
    pagesForHashNodes l.diskHashNodes l.hashesPerPage ≤ m ∧
    ∀ k, 0 < k → k < l.leafBase * 2 → L k = l.label s.trustedHashes d k

variable {HS : HonestStore S} {HH : HonestStore H} {l : TieredLayout} {c : Nat → Bytes} {L : Nat → Hash}
variable {s : TieredMerklePageStore S H}

theorem readHash_stands (h : Stands HS HH l c L s) {k : Nat} (h0 : 0 < k) (hk : k < l.leafBase * 2) :
    ∃ t, readHash k s = (.ok (L k), t) ∧ Stands HS HH l c L t := by
  obtain ⟨rfl, hdata, htrusted, m, hsz, d, hd, hper, hm, hL⟩ := h
  unfold readHash
  rw [Eff.get_bind, TieredLayout.checkNodeIdx_ok h0 hk, Eff.lift_ok_bind, Eff.ite_apply, hL k h0 hk, TieredLayout.label]
  by_cases hlimit : k < s.trustedNodeLimit
  · rw [if_pos hlimit, if_pos hlimit]
    exact ⟨s, rfl, rfl, hdata, htrusted, m, hsz, d, hd, hper, hm, hL⟩
  · have hpage := TieredLayout.page_lt hm hk (Nat.le_of_not_lt hlimit)
    obtain ⟨h', hread, hd'⟩ := HH.readPage hd hpage
    rw [if_neg hlimit, if_neg hlimit]
    refine ⟨{ s with hashStore := h' }, ?_, rfl, hdata, htrusted, m, hsz, d, hd', hper, hm, hL⟩
    unfold readDiskHash
    rw [Eff.get_bind, TieredLayout.diskHashPosition_ok hk (Nat.le_of_not_lt hlimit), Eff.lift_ok_bind, HH.pageSize_eq hd]
    exact Eff.bind_ok (Eff.zoom_of hread)

theorem writeHash_stands (h : Stands HS HH l c L s) {k : Nat} (h0 : 0 < k) (hk : k < l.leafBase * 2) (hash : Hash) :
    ∃ t, writeHash k hash s = (.ok (), t) ∧ Stands HS HH l c (Function.update L k hash) t := by
  obtain ⟨rfl, hdata, htrusted, m, hsz, d, hd, hper, hm, hL⟩ := h
  have hupdate : ∀ a, 0 < a → a < s.leafBase * 2 →
      Function.update L k hash a = Function.update (s.label s.trustedHashes d) k hash a := by
    intro a ha0 ha
    by_cases hak : a = k
    · rw [hak, Function.update_self, Function.update_self]
    · rw [Function.update_of_ne hak, Function.update_of_ne hak, hL a ha0 ha]
  unfold writeHash
  rw [Eff.get_bind, TieredLayout.checkNodeIdx_ok h0 hk, Eff.lift_ok_bind, Eff.ite_apply]
  by_cases hlimit : k < s.trustedNodeLimit
  · rw [if_pos hlimit]
    refine ⟨_, rfl, rfl, hdata, by rw [List.length_set]; exact htrusted, m, hsz, d, hd, hper, hm, fun a ha0 ha => ?_⟩
    rw [hupdate a ha0 ha, TieredLayout.label_set_trusted htrusted hlimit]
  · have hle := Nat.le_of_not_lt hlimit
    have hpage := TieredLayout.page_lt hm hk hle
    have hlen := HH.page_length hd _ hpage
    have hfit := TieredLayout.offset_le hper (k - s.trustedNodeLimit)
    obtain ⟨h₁, hread, hd₁⟩ := HH.readPage hd hpage
    have hsplice : (splice (d ((k - s.trustedNodeLimit) / s.hashesPerPage))
        ((k - s.trustedNodeLimit) % s.hashesPerPage * 32) hash.val).length = hsz := by
      rw [splice_length (by rw [hash.property]; omega), hlen]
    obtain ⟨h₂, hwrite, hd₂⟩ := HH.writePage hd₁ hpage hsplice
    rw [if_neg hlimit]
    refine ⟨{ s with hashStore := h₂ }, ?_, rfl, hdata, htrusted, m, hsz, _, hd₂, hper, hm, fun a ha0 ha => ?_⟩
    · unfold writeDiskHash
      rw [Eff.get_bind, TieredLayout.diskHashPosition_ok hk hle, Eff.lift_ok_bind, HH.pageSize_eq hd]
      exact (Eff.bind_ok (Eff.zoom_of hread)).trans (Eff.zoom_of hwrite)
    · rw [hupdate a ha0 ha, TieredLayout.label_splice hper hm (HH.page_length hd) hk hle]

theorem root_stands (h : Stands HS HH l c L s) : s.root = L 1 := by
  obtain ⟨rfl, -, -, m, hsz, d, -, -, -, hL⟩ := h
  have hlimit := s.one_lt_limit
  have hle := TieredLayout.limit_le (l := s.toTieredLayout)
  rw [root, hL 1 (by omega) (by omega), TieredLayout.label, if_pos hlimit]

theorem trusted_stands (h : Stands HS HH l c L s) {k : Nat} (h0 : 0 < k) (hk : k < l.trustedNodeLimit) :
    s.trustedHashes.getD k noHash = L k := by
  obtain ⟨rfl, -, -, m, hsz, d, -, -, -, hL⟩ := h
  have hle := TieredLayout.limit_le (l := s.toTieredLayout)
  rw [hL k h0 (by omega), TieredLayout.label, if_pos hk]

theorem Stands.congr (h : Stands HS HH l c L s) {L' : Nat → Hash} (hL : ∀ k, 0 < k → k < l.leafBase * 2 → L k = L' k) :
    Stands HS HH l c L' s := by
  obtain ⟨hlayout, hdata, htrusted, m, hsz, d, hd, hper, hm, hlabel⟩ := h
  exact ⟨hlayout, hdata, htrusted, m, hsz, d, hd, hper, hm, fun k h0 hk => (hL k h0 hk).symm.trans (hlabel k h0 hk)⟩

theorem readData_stands (h : Stands HS HH l c L s) {i : Nat} (hi : i < l.pageCount) :
    ∃ t, onInner (H := H) (PageStore.readPage i l.pageSize) s = (.ok (c i), t) ∧ Stands HS HH l c L t := by
  obtain ⟨inner, hread, hinner⟩ := HS.readPage h.data hi
  exact ⟨_, Eff.zoom_of hread, h.layout, hinner, h.trusted, h.disk⟩

theorem writeData_stands (h : Stands HS HH l c L s) {i : Nat} {page : Bytes} (hi : i < l.pageCount)
    (hlen : page.length = l.pageSize) :
    ∃ t, onInner (H := H) (PageStore.writePage i page) s = (.ok (), t) ∧ Stands HS HH l (Function.update c i page) L t := by
  obtain ⟨inner, hwrite, hinner⟩ := HS.writePage h.data hi hlen
  exact ⟨_, Eff.zoom_of hwrite, h.layout, hinner, h.trusted, h.disk⟩

/-! ## Building -/

section
variable [Sha256]

/-- The full tree of a layout. -/
def tree (l : TieredLayout) (c : Nat → Bytes) : Nat → Hash := pageTree l.storeId l.pageCount l.pageSize l.leafBase c

theorem rebuildLeaf_stands (h : Stands HS HH l c L s) {i : Nat} (hi : i < l.leafBase) :
    ∃ t, rebuildLeaf i s = (.ok (), t) ∧
      Stands HS HH l c (Function.update L (l.leafBase + i) (tree l c (l.leafBase + i))) t := by
  have hleaf : tree l c (l.leafBase + i)
      = if i < l.pageCount then hashLeaf l.storeId i (c i) else hashEmptyLeaf l.storeId i l.pageSize := by
    unfold tree pageTree
    rw [hashTree_leaf (by omega), leafLabel, Nat.add_sub_cancel_left]
  obtain rfl := h.layout
  unfold rebuildLeaf
  rw [Eff.get_bind, hleaf]
  by_cases hpage : i < s.pageCount
  · obtain ⟨t, hread, ht⟩ := readData_stands h hpage
    obtain ⟨u, hwrite, hu⟩ := writeHash_stands ht (show 0 < s.leafBase + i by omega) (by omega) (hashLeaf s.storeId i (c i))
    rw [if_pos hpage, if_pos hpage]
    exact ⟨u, (Eff.bind_ok hread).trans hwrite, hu⟩
  · rw [if_neg hpage, if_neg hpage]
    exact writeHash_stands h (by omega) (by omega) _

/-- A node is rehashed from its children. -/
theorem rebuildNode_stands (h : Stands HS HH l c L s) {k : Nat} (h0 : 0 < k) (hk : k < l.leafBase)
    (hleft : L (2 * k) = tree l c (2 * k)) (hright : L (2 * k + 1) = tree l c (2 * k + 1)) :
    ∃ t, rebuildNode k s = (.ok (), t) ∧ Stands HS HH l c (Function.update L k (tree l c k)) t := by
  obtain ⟨t, hread₁, ht⟩ := readHash_stands h (k := k * 2) (by omega) (by omega)
  obtain ⟨u, hread₂, hu⟩ := readHash_stands ht (k := k * 2 + 1) (by omega) (by omega)
  obtain ⟨v, hwrite, hv⟩ := writeHash_stands hu h0 (by omega) (hashNode k (L (k * 2)) (L (k * 2 + 1)))
  have hnode : tree l c k = hashNode k (L (k * 2)) (L (k * 2 + 1)) := by
    rw [Nat.mul_comm, hleft, hright]
    exact hashTree_node h0 hk
  exact ⟨v, (Eff.bind_ok hread₁).trans ((Eff.bind_ok hread₂).trans hwrite), hnode ▸ hv⟩

/-- The nodes from `k` on have the tree's hashes. -/
def BuiltFrom (HS : HonestStore S) (HH : HonestStore H) (l : TieredLayout) (c : Nat → Bytes) (k : Nat)
    (s : TieredMerklePageStore S H) : Prop :=
  ∃ L, Stands HS HH l c L s ∧ ∀ a, k ≤ a → a < l.leafBase * 2 → L a = tree l c a

theorem rebuildLeaves_stands (h : Stands HS HH l c L s) :
    ∃ us t, Eff.forEach rebuildLeaf (List.range l.leafBase) s = (.ok us, t) ∧ BuiltFrom HS HH l c l.leafBase t := by
  have hstep : ∀ i, 0 ≤ i → i < 0 + l.leafBase → ∀ s,
      (∃ L, Stands HS HH l c L s ∧ ∀ a, l.leafBase ≤ a → a < l.leafBase + i → L a = tree l c a) →
      ∃ b t, rebuildLeaf i s = (.ok b, t) ∧
        ∃ L, Stands HS HH l c L t ∧ ∀ a, l.leafBase ≤ a → a < l.leafBase + (i + 1) → L a = tree l c a := by
    rintro i - hi s ⟨L, hs, hL⟩
    obtain ⟨t, hrun, ht⟩ := rebuildLeaf_stands hs (show i < l.leafBase by omega)
    refine ⟨(), t, hrun, _, ht, fun a ha hlt => ?_⟩
    by_cases hself : a = l.leafBase + i
    · rw [hself, Function.update_self]
    · rw [Function.update_of_ne hself, hL a ha (by omega)]
  obtain ⟨us, t, hrun, L', ht, hL'⟩ := Eff.forEach_upTo hstep ⟨L, h, fun a _ _ => by omega⟩
  rw [List.range_eq_range']
  exact ⟨us, t, hrun, L', ht, fun a ha hlt => hL' a ha (by omega)⟩

/-- A turn of the loop over the levels, from the lowest inner one up. -/
theorem rebuildLevel_stands {level : Nat} (hlevel : level < l.height) (h : BuiltFrom HS HH l c (2 ^ (level + 1)) s) :
    ∃ us t, Eff.forEach rebuildNode (List.range' (1 <<< level) ((1 <<< (level + 1)) - (1 <<< level))) s = (.ok us, t) ∧
      BuiltFrom HS HH l c (2 ^ level) t := by
  have hpos : 0 < 2 ^ level := Nat.two_pow_pos level
  have htwice : 2 ^ (level + 1) = 2 * 2 ^ level := Nat.pow_succ'
  have hbase : 2 ^ (level + 1) ≤ l.leafBase := by
    rw [l.leafBase_pow]
    exact Nat.pow_le_pow_right (by omega) hlevel
  have hstep : ∀ i, 2 ^ level ≤ i → i < 2 ^ level + (2 ^ (level + 1) - 2 ^ level) → ∀ s,
      (∃ L, Stands HS HH l c L s ∧ ∀ a, (2 ^ level ≤ a ∧ a < i) ∨ 2 ^ (level + 1) ≤ a → a < l.leafBase * 2 →
        L a = tree l c a) →
      ∃ b t, rebuildNode i s = (.ok b, t) ∧ ∃ L, Stands HS HH l c L t ∧
        ∀ a, (2 ^ level ≤ a ∧ a < i + 1) ∨ 2 ^ (level + 1) ≤ a → a < l.leafBase * 2 → L a = tree l c a := by
    rintro i hi hlt s ⟨L, hs, hL⟩
    obtain ⟨t, hrun, ht⟩ := rebuildNode_stands hs (show 0 < i by omega) (by omega) (hL _ (.inr (by omega)) (by omega))
      (hL _ (.inr (by omega)) (by omega))
    refine ⟨(), t, hrun, _, ht, fun a ha hlt => ?_⟩
    by_cases hself : a = i
    · rw [hself, Function.update_self]
    · rw [Function.update_of_ne hself, hL a (by omega) hlt]
  obtain ⟨L, hs, hL⟩ := h
  obtain ⟨us, t, hrun, L', ht, hL'⟩ := Eff.forEach_upTo hstep ⟨L, hs, fun a ha => hL a (by omega)⟩
  rw [Nat.one_shiftLeft, Nat.one_shiftLeft]
  exact ⟨us, t, hrun, L', ht, fun a ha => hL' a (by omega)⟩

theorem rebuildHashes_stands (h : Stands HS HH l c L s) :
    ∃ t, rebuildHashes s = (.ok (), t) ∧ Stands HS HH l c (tree l c) t := by
  obtain ⟨us, t, hleaves, ht⟩ := rebuildLeaves_stands h
  rw [l.leafBase_pow] at ht
  obtain ⟨vs, u, hlevels, L', hu, hL'⟩ := Eff.forEach_downTo (n := l.height)
    (P := fun level => BuiltFrom HS HH l c (2 ^ level)) (fun level hlevel s hs => rebuildLevel_stands hlevel hs) ht
  refine ⟨u, ?_, hu.congr fun k h0 hk => hL' k h0 hk⟩
  obtain rfl := h.layout
  unfold rebuildHashes
  rw [Eff.get_bind]
  exact (Eff.bind_ok hleaves).trans (Eff.bind_ok hlevels)

theorem rebuildHashes_built {us : Unit} {t : TieredMerklePageStore S H} (hrun : rebuildHashes s = (.ok us, t))
    (h : Stands HS HH l c L s) : Stands HS HH l c (tree l c) t := by
  obtain ⟨u, hrebuild, hu⟩ := rebuildHashes_stands h
  rw [hrebuild] at hrun
  cases hrun
  exact hu

/-! ## Calls -/

theorem climbToTrusted_stands (h : Stands HS HH l c (tree l c) s) {k : Nat} (h0 : 0 < k) (hk : k < l.leafBase * 2) :
    ∃ t, climbToTrusted l.trustedNodeLimit l.one_lt_limit k (tree l c k) s
        = (.ok (climbEnd l.trustedNodeLimit k, tree l c (climbEnd l.trustedNodeLimit k)), t) ∧
      Stands HS HH l c (tree l c) t := by
  have hlimit := l.one_lt_limit
  induction k using climbEnd.induct l.trustedNodeLimit generalizing s with
  | case1 k hle ih =>
    have hhalf := siblingOf_half k
    obtain ⟨t, hread, ht⟩ := readHash_stands h (k := siblingNode k) (by rw [siblingNode_eq]; omega)
      (by rw [siblingNode_eq]; omega)
    have hparent : parentHash k (tree l c k) (tree l c (siblingNode k)) = tree l c (k / 2) := by
      rw [parentHash_eq, siblingNode_eq]
      exact join_hashTree (by omega) (by omega)
    obtain ⟨u, hrun, hu⟩ := ih ht (by omega) (by omega)
    refine ⟨u, ?_, hu⟩
    rw [climbToTrusted, if_pos hle.2, Eff.bind_ok hread, hparent, climbEnd_of_le hle.1 hle.2]
    exact hrun
  | case2 k hlt =>
    rw [climbToTrusted, if_neg (by omega), climbEnd, if_neg hlt]
    exact ⟨s, rfl, h⟩

theorem updateAbove_stands (h : Stands HS HH l c L s) {k : Nat} (h0 : 0 < k) (hk : k < l.leafBase * 2)
    (hpending : Pending (tree l c) (l.leafBase * 2) k L) :
    ∃ t, updateAbove k (L k) s = (.ok (), t) ∧ Stands HS HH l c (tree l c) t := by
  induction k using Nat.strong_induction_on generalizing L s with
  | h k ih =>
    by_cases h1 : 1 < k
    · have hhalf := siblingOf_half k
      obtain ⟨t, hread, ht⟩ := readHash_stands h (k := siblingNode k) (by rw [siblingNode_eq]; omega)
        (by rw [siblingNode_eq]; omega)
      have hparent : parentHash k (L k) (L (siblingNode k)) = hashNode (k / 2) (L (2 * (k / 2))) (L (2 * (k / 2) + 1)) := by
        rw [parentHash_eq, siblingNode_eq, join, joined_pair h0]
      obtain ⟨u, hwrite, hu⟩ := writeHash_stands ht (k := k / 2) (by omega) (by omega)
        (parentHash k (L k) (L (siblingNode k)))
      have hstep := hpending.step h1 (by omega) (by omega)
      rw [← hparent] at hstep
      obtain ⟨v, hrun, hv⟩ := ih (k / 2) (by omega) hu (by omega) (by omega) hstep
      rw [Function.update_self] at hrun
      refine ⟨v, ?_, hv⟩
      rw [updateAbove, if_pos h1]
      exact (Eff.bind_ok hread).trans ((Eff.bind_ok hwrite).trans hrun)
    · obtain rfl : k = 1 := by omega
      rw [updateAbove, if_neg h1]
      exact ⟨s, rfl, h.congr fun a ha hlt => hpending.done ha hlt⟩

theorem readPage_stands (h : Stands HS HH l c (tree l c) s) {i : Nat} (hi : i < l.pageCount) :
    ∃ t, PageStore.readPage i l.pageSize s = (.ok (c i), t) ∧ Stands HS HH l c (tree l c) t := by
  have hlimit := l.one_lt_limit
  have hbase := l.pageCount_le
  obtain ⟨t, hread, ht⟩ := readData_stands h hi
  have hleaf : tree l c (l.leafBase + i) = hashLeaf l.storeId i (c i) := by
    unfold tree pageTree
    rw [hashTree_leaf (by omega), leafLabel, Nat.add_sub_cancel_left, if_pos hi]
  obtain ⟨u, hclimb, hu⟩ := climbToTrusted_stands ht (k := l.leafBase + i) (by omega) (by omega)
  have htrusted := trusted_stands hu (climbEnd_pos hlimit (show 0 < l.leafBase + i by omega)) (climbEnd_lt (by omega) _)
  refine ⟨u, ?_, hu⟩
  have hverify : verifyPageHash i (hashLeaf l.storeId i (c i)) t = (.ok (), u) := by
    obtain rfl := ht.layout
    unfold verifyPageHash
    rw [← hleaf, Eff.get_bind]
    refine (Eff.bind_ok hclimb).trans ?_
    show (if hashEq _ (u.trustedHashes.getD _ noHash) then pure () else _ : Eff Error (TieredMerklePageStore S H) Unit) u = _
    rw [if_pos ((hashEq_iff _ _).mpr htrusted.symm)]
    rfl
  obtain rfl := h.layout
  show (Eff.get >>= _) s = _
  rw [Eff.get_bind, checkMerklePage_ok hi rfl, Eff.lift_ok_bind]
  exact (Eff.bind_ok hread).trans (Eff.bind_ok hverify)

theorem writePage_stands (h : Stands HS HH l c (tree l c) s) {i : Nat} {page : Bytes} (hi : i < l.pageCount)
    (hlen : page.length = l.pageSize) :
    ∃ t, PageStore.writePage i page s = (.ok (), t) ∧
      Stands HS HH l (Function.update c i page) (tree l (Function.update c i page)) t := by
  have hbase := l.pageCount_le
  obtain ⟨t, hwrite, ht⟩ := writeData_stands h hi hlen
  have hleaf : hashLeaf l.storeId i page = tree l (Function.update c i page) (l.leafBase + i) := by
    unfold tree pageTree
    rw [hashTree_leaf (by omega), leafLabel_update hi]
  obtain ⟨u, hset, hu⟩ := writeHash_stands ht (show 0 < l.leafBase + i by omega) (by omega) (hashLeaf l.storeId i page)
  have hpending : Pending (tree l (Function.update c i page)) (l.leafBase * 2) (l.leafBase + i)
      (Function.update (tree l c) (l.leafBase + i) (hashLeaf l.storeId i page)) := by
    exact Pending.start (fun a _ _ => rfl) (fun _ _ _ => rfl) (fun k hle hne => leafLabel_update_of_ne page hle hne) hleaf
  obtain ⟨v, hrun, hv⟩ := updateAbove_stands hu (by omega) (by omega) hpending
  rw [Function.update_self] at hrun
  refine ⟨v, ?_, hv⟩
  have hupdate : updatePageHash i (hashLeaf l.storeId i page) t = (.ok (), v) := by
    obtain rfl := ht.layout
    unfold updatePageHash
    rw [Eff.get_bind]
    exact (Eff.bind_ok hset).trans hrun
  obtain rfl := h.layout
  show (Eff.get >>= _) s = _
  rw [Eff.get_bind, checkMerklePage_ok hi hlen, Eff.lift_ok_bind]
  exact (Eff.bind_ok hwrite).trans hupdate

/-! ## Opening -/

/-- What an accepted build stands for. -/
theorem build_stands {n sz m hsz levels : Nat} {d : Nat → Bytes} {inner : S} {hashStore : H} {storeId : FixedBytes 16}
    (hdata : HS.Holds n sz c inner) (hdisk : HH.Holds m hsz d hashStore) (h : build inner hashStore storeId levels = .ok s) :
    Stands HS HH s.toTieredLayout c (tree s.toTieredLayout c) s ∧
      s.storeId = storeId ∧ s.pageCount = n ∧ s.pageSize = sz := by
  have hn := HS.pageCount_eq hdata
  have hsz := HS.pageSize_eq hdata
  have hm := HH.pageCount_eq hdisk
  have hhsz := HH.pageSize_eq hdisk
  subst hn hsz hm hhsz
  unfold build at h
  simp only at h
  split at h
  · cases h
  · obtain ⟨leafBase, hbase, h⟩ := bind_result_ok h
    obtain ⟨limit, -, h⟩ := bind_result_ok h
    obtain ⟨perPage, -, h⟩ := bind_result_ok h
    split at h
    · cases h
    · rename_i hpages
      split at h
      · cases h
      · rename_i us t hrun
        cases h
        have hu := rebuildHashes_built hrun ⟨rfl, hdata, List.length_replicate, _, _, d, hdisk, perPage.property.2,
          Nat.le_of_not_lt hpages, fun _ _ _ => rfl⟩
        have hlayout := hu.layout
        exact ⟨hlayout ▸ hu, congrArg TieredLayout.storeId hlayout, congrArg TieredLayout.pageCount hlayout,
          congrArg TieredLayout.pageSize hlayout⟩

end

/-- A store reopened from its trusted state is the store. -/
theorem fromTrustedState_stands (h : Stands HS HH l c L s) :
    ∃ t, fromTrustedState s.inner s.hashStore s.trustedState = .ok t ∧ Stands HS HH l c L t := by
  obtain ⟨rfl, hdata, htrusted, m, hsz, d, hd, hper, hm, hL⟩ := h
  have hcount := HS.pageCount_eq hdata
  have hsize := HS.pageSize_eq hdata
  have hpages := HH.pageCount_eq hd
  have hpageSize := HH.pageSize_eq hd
  obtain ⟨base, hbase⟩ : ∃ base, leafBaseForPageCount (PageStore.pageCount s.inner) = .ok base := by
    rw [hcount]
    exact leafBaseForPageCount_ok s.pageCount_pos (s.leafBase_eq ▸ s.leafBase_lt)
  have hleafBase : base.val.val = s.leafBase := by
    rw [s.leafBase_eq, ← hcount]
    exact base.val.property.1
  have hlevels : TrustedLevels base.val.val s.trustedLevels s.trustedNodeLimit := hleafBase ▸ s.levels
  obtain ⟨count, hcountOk⟩ : ∃ count, BpirOram.hashesPerPage (PageStore.pageSize s.hashStore) = .ok count := by
    rw [hpageSize]
    exact hashesPerPage_ok (hper ▸ s.hashesPerPage_pos)
  have hcountEq : count.val = s.hashesPerPage := by rw [hper, ← hpageSize]; exact count.property.2
  unfold fromTrustedState trustedState
  simp only
  rw [if_neg (not_not_intro hcount), if_neg (not_not_intro hsize), if_neg (not_not_intro rfl), hbase]
  simp only [bind, Except.bind]
  rw [trustedNodeLimit_ok hlevels]
  simp only
  rw [if_neg (not_not_intro htrusted), hcountOk]
  simp only
  rw [if_neg (by rw [hpages, hleafBase, hcountEq]; exact Nat.not_lt.mpr hm)]
  refine ⟨_, rfl, ?_, hdata, htrusted, m, hsz, d, hd, hper, hm, hL⟩
  exact TieredLayout.ext rfl hsize hcount hleafBase rfl rfl hcountEq

end TieredMerklePageStore

/-! ## The in-memory store -/

namespace MerklePageStore

variable {M : Type} [PageStore M] [Sha256]

/-- The sizes a store keeps. -/
def shape (s : MerklePageStore M) : FixedBytes 16 × Nat × Nat × Nat := (s.storeId, s.pageCount, s.pageSize, s.leafBase)

/-- The store holds the pages `c` and their tree, over an honest store. -/
structure Stands (HM : HonestStore M) (c : Nat → Bytes) (s : MerklePageStore M) : Prop where
  data : HM.Holds s.pageCount s.pageSize c s.inner
  pageCount_le : s.pageCount ≤ s.leafBase
  pos : 0 < s.pageCount
  length : s.hashes.length = s.leafBase * 2
  hashes : ∀ k, 0 < k → k < s.leafBase * 2 →
    s.hashes.getD k noHash = pageTree s.storeId s.pageCount s.pageSize s.leafBase c k

theorem rehash_length (hashes : List Hash) (k : Nat) : (rehash hashes k).length = hashes.length := List.length_set

section
variable {base : Nat} {leaf : Nat → Hash} {hashes : List Hash}

theorem rehashAbove_tree {k : Nat} (hlen : hashes.length = base * 2) (h0 : 0 < k) (hk : k < base * 2)
    (hpending : Pending (hashTree base hashNode leaf) (base * 2) k (fun a => hashes.getD a noHash)) :
    (rehashAbove hashes k).length = base * 2 ∧
      ∀ a, 0 < a → a < base * 2 → (rehashAbove hashes k).getD a noHash = hashTree base hashNode leaf a := by
  induction hashes, k using rehashAbove.induct with
  | case1 hashes k h1 ih =>
    rw [rehashAbove, if_pos h1]
    refine ih (by rw [rehash_length, hlen]) (by omega) (by omega) ?_
    have hstep := hpending.step h1 (by omega) (by omega)
    unfold rehash
    rw [getD_set (by omega), Nat.mul_comm (k / 2) 2]
    exact hstep
  | case2 hashes k h1 =>
    obtain rfl : k = 1 := by omega
    rw [rehashAbove, if_neg h1]
    exact ⟨hlen, fun a ha hlt => hpending.done ha hlt⟩

/-- The loop of `new` over the inner nodes, from the last one down. -/
theorem rehash_all {m : Nat} (hm : m < base) (hlen : hashes.length = base * 2)
    (h : ∀ a, m < a → a < base * 2 → hashes.getD a noHash = hashTree base hashNode leaf a) :
    ((List.range' 1 m).reverse.foldl rehash hashes).length = base * 2 ∧
      ∀ a, 0 < a → a < base * 2 →
        ((List.range' 1 m).reverse.foldl rehash hashes).getD a noHash = hashTree base hashNode leaf a := by
  induction m generalizing hashes with
  | zero => exact ⟨hlen, h⟩
  | succ m ih =>
    rw [List.range'_1_concat, List.reverse_append, List.reverse_singleton, List.singleton_append, List.foldl_cons,
      Nat.add_comm 1 m]
    have hnode : rehash hashes (m + 1) = hashes.set (m + 1) (hashTree base hashNode leaf (m + 1)) := by
      unfold rehash
      rw [h _ (by omega) (by omega), h _ (by omega) (by omega), hashTree_node (by omega) hm, Nat.mul_comm 2]
    refine ih (by omega) (by rw [rehash_length, hlen]) fun a ha hlt => ?_
    have hset := congrFun (getD_set (show m + 1 < hashes.length by omega) (hashTree base hashNode leaf (m + 1))) a
    rw [hnode]
    by_cases hself : a = m + 1
    · subst hself
      rwa [Function.update_self] at hset
    · rw [Function.update_of_ne hself] at hset
      exact hset.trans (h a (by omega) hlt)

end

variable {HM : HonestStore M} {c : Nat → Bytes} {s : MerklePageStore M}

theorem leafHashes_ok {n sz : Nat} (storeId : FixedBytes 16) {inner : M} (h : HM.Holds n sz c inner) (base : Nat) :
    ∃ t, leafHashes storeId n sz base inner
        = (.ok ((List.range base).map fun i => leafLabel storeId n sz base c (base + i)), t) ∧ HM.Holds n sz c t := by
  refine Eff.forEach_map (P := HM.Holds n sz c) (fun i _ inner hinner => ?_) h
  rw [leafLabel, Nat.add_sub_cancel_left]
  by_cases hi : i < n
  · obtain ⟨t, hread, ht⟩ := HM.readPage hinner hi
    rw [if_pos hi, if_pos hi]
    exact ⟨t, Eff.bind_ok hread, ht⟩
  · rw [if_neg hi, if_neg hi]
    exact ⟨inner, rfl, hinner⟩

/-- The vector of a list of leaves is their tree. -/
theorem treeHashes_tree {base : Nat} (hbase : 0 < base) (leaf : Nat → Hash) :
    (treeHashes base ((List.range base).map fun i => leaf (base + i))).length = base * 2 ∧
      ∀ a, 0 < a → a < base * 2 →
        (treeHashes base ((List.range base).map fun i => leaf (base + i))).getD a noHash = hashTree base hashNode leaf a := by
  refine rehash_all (by omega) ?_ fun a ha hlt => ?_
  · rw [List.length_append, List.length_replicate, List.length_map, List.length_range, Nat.mul_two]
  · rw [hashTree_leaf (by omega), List.getD_eq_getElem?_getD,
      List.getElem?_append_right (by rw [List.length_replicate]; omega), List.length_replicate, List.getElem?_map,
      List.getElem?_range (by omega), Option.map_some, Option.getD_some, Nat.add_sub_of_le (by omega)]

theorem new_stands {n sz : Nat} (storeId : FixedBytes 16) {inner : M} (hdata : HM.Holds n sz c inner) (hn : 0 < n)
    (hsz : 0 < sz) (hbase : nextPowerOfTwo n < 2 ^ 64) :
    ∃ s, new inner storeId = .ok s ∧ Stands HM c s ∧ s.shape = (storeId, n, sz, nextPowerOfTwo n) := by
  have hcount := HM.pageCount_eq hdata
  have hsize := HM.pageSize_eq hdata
  subst hcount hsize
  have hle := le_nextPowerOfTwo (PageStore.pageCount inner)
  obtain ⟨t, hleaves, ht⟩ := leafHashes_ok storeId hdata (nextPowerOfTwo (PageStore.pageCount inner))
  obtain ⟨hlength, hhashes⟩ := treeHashes_tree (show 0 < nextPowerOfTwo (PageStore.pageCount inner) by omega)
    (leafLabel storeId (PageStore.pageCount inner) (PageStore.pageSize inner) (nextPowerOfTwo (PageStore.pageCount inner)) c)
  refine ⟨⟨t, storeId, _, _, nextPowerOfTwo (PageStore.pageCount inner), treeHashes _ _⟩, ?_,
    ⟨ht, hle, hn, hlength, hhashes⟩, rfl⟩
  unfold new checkedLeafBase
  simp only
  rw [if_neg (by omega), dif_pos hbase]
  simp only [bind, Except.bind]
  rw [hleaves]

theorem Stands.leaf (h : Stands HM c s) {i : Nat} (hi : i < s.pageCount) :
    s.hashes.getD (s.leafBase + i) noHash = hashLeaf s.storeId i (c i) := by
  have hle := h.pageCount_le
  have hpos := h.pos
  rw [h.hashes _ (by omega) (by omega), pageTree, hashTree_leaf (by omega), leafLabel, Nat.add_sub_cancel_left, if_pos hi]

theorem readPage_stands (h : Stands HM c s) {i : Nat} (hi : i < s.pageCount) :
    ∃ t, PageStore.readPage i s.pageSize s = (.ok (c i), t) ∧ Stands HM c t ∧ t.shape = s.shape := by
  obtain ⟨inner, hread, hinner⟩ := HM.readPage h.data hi
  refine ⟨{ s with inner }, ?_, ⟨hinner, h.pageCount_le, h.pos, h.length, h.hashes⟩, rfl⟩
  show (Eff.get >>= _) s = _
  rw [Eff.get_bind, checkMerklePage_ok hi rfl, Eff.lift_ok_bind]
  refine (Eff.bind_ok (Eff.zoom_of hread)).trans ?_
  rw [Eff.ite_apply, if_pos ((hashEq_iff _ _).mpr (h.leaf hi).symm)]
  rfl

theorem writePage_stands (h : Stands HM c s) {i : Nat} {page : Bytes} (hi : i < s.pageCount) (hlen : page.length = s.pageSize) :
    ∃ t, PageStore.writePage i page s = (.ok (), t) ∧ Stands HM (Function.update c i page) t ∧ t.shape = s.shape := by
  have hle := h.pageCount_le
  have hpos := h.pos
  obtain ⟨inner, hwrite, hinner⟩ := HM.writePage h.data hi hlen
  have hpending : Pending (pageTree s.storeId s.pageCount s.pageSize s.leafBase (Function.update c i page)) (s.leafBase * 2)
      (s.leafBase + i) (fun a => (s.hashes.set (s.leafBase + i) (hashLeaf s.storeId i page)).getD a noHash) := by
    rw [getD_set (by rw [h.length]; omega)]
    refine Pending.start h.hashes (fun _ _ _ => rfl) (fun k hk hne => leafLabel_update_of_ne page hk hne) ?_
    rw [hashTree_leaf (by omega), leafLabel_update hi]
  obtain ⟨hlength, hhashes⟩ := rehashAbove_tree (by rw [List.length_set, h.length]) (by omega) (by omega) hpending
  refine ⟨({ s with inner } : MerklePageStore M).updateLeaf i (hashLeaf s.storeId i page), ?_,
    ⟨hinner, hle, hpos, hlength, hhashes⟩, rfl⟩
  show (Eff.get >>= _) s = _
  rw [Eff.get_bind, checkMerklePage_ok hi hlen, Eff.lift_ok_bind]
  exact Eff.bind_ok (Eff.zoom_of hwrite)

end MerklePageStore
end BpirOram
