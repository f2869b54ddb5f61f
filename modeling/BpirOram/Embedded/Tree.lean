/-
  BpirOram.Embedded.Tree — the tree that logical pages make, and what the store's calls do
  to it, whatever is on disk.

  `treePage` is the page a tree over the contents `c` has at an index: its logical bytes and
  the hashes of its children's subtrees; `treeHash` is the hash of a subtree.
  - `verifyPathFromPages_sound`: pages authenticated from the tree's root are the tree's,
    unless two of the messages hashed collide.
  - `verifyPathFromPages_tree`: the tree's own pages are authenticated.
  - `TreeOverlay.writePath_ok`: new bytes for the pages of a path make the pages of the new
    contents' tree of those of the old one's, on and off the path.
-/

import BpirOram.Embedded.Store
import BpirOram.Lib.HeapHash
import BpirOram.Contract

namespace BpirOram

open Lib

/-! ## Pages and paths -/

theorem isChild_iff {i j : Nat} : IsChild i j ↔ j = leftChild i ∨ j = rightChild i := by
  unfold IsChild leftChild rightChild
  rw [Nat.mul_comm 2 i]

theorem leftChild_isChild (i : Nat) : IsChild i (leftChild i) := isChild_iff.mpr (.inl rfl)

theorem rightChild_isChild (i : Nat) : IsChild i (rightChild i) := isChild_iff.mpr (.inr rfl)

theorem leftChild_ne_rightChild (i : Nat) : leftChild i ≠ rightChild i := by
  unfold leftChild rightChild
  omega

/-- The paths accepted are the root paths. -/
theorem validatePath_rootPath {path : List Nat} {pageCount : Nat} :
    validatePath path pageCount = .ok () ↔ RootPath pageCount path := by
  have hrel : (fun a b => b = leftChild a ∨ b = rightChild a) = IsChild := by
    funext a b
    exact propext isChild_iff.symm
  rw [validatePath_ok, hrel]
  exact ⟨fun ⟨h1, h2, h3⟩ => ⟨h1, h3, h2⟩, fun h => ⟨h.head, h.lt, h.chain⟩⟩

theorem RootPath.eq_cons {n : Nat} {path : List Nat} (hp : RootPath n path) : ∃ rest, path = 0 :: rest := by
  cases path with
  | nil => exact absurd rfl hp.ne_nil
  | cons i rest =>
    have h0 : i = 0 := by simpa using hp.head
    exact ⟨rest, by rw [h0]⟩

namespace EmbeddedPage

def message (page : EmbeddedPage) (storeId : FixedBytes 16) (pageIdx : Nat) : Bytes :=
  embeddedMessage storeId pageIdx page.logical page.leftHash page.rightHash

theorem hash_eq [Sha256] (page : EmbeddedPage) (storeId : FixedBytes 16) (pageIdx : Nat) :
    page.hash storeId pageIdx = Sha256.digest (page.message storeId pageIdx) := rfl

/-- At one index a message has one page. -/
theorem message_inj {storeId : FixedBytes 16} {pageIdx : Nat} {page page' : EmbeddedPage}
    (h : page.message storeId pageIdx = page'.message storeId pageIdx) : page = page' := by
  unfold message embeddedMessage at h
  have hlogical : page.logical.length = page'.logical.length := by
    have hlen := congrArg List.length h
    simp only [List.length_append, toLe_length, page.leftHash.property, page.rightHash.property,
      page'.leftHash.property, page'.rightHash.property] at hlen
    omega
  rw [hlogical] at h
  simp only [List.append_assoc, List.append_cancel_left_eq] at h
  obtain ⟨hl, hrest⟩ := List.append_inj h hlogical
  obtain ⟨hleft, hright⟩ := List.append_inj hrest (page.leftHash.property.trans page'.leftHash.property.symm)
  cases page
  cases page'
  cases hl
  cases Subtype.ext hleft
  cases Subtype.ext hright
  rfl

end EmbeddedPage

/-! ## Overlays -/

/-- Pages with the logical bytes of `c`. -/
def relabel (f : Nat → EmbeddedPage) (c : Nat → Bytes) (i : Nat) : EmbeddedPage := { f i with logical := c i }

namespace TreeOverlay

/-- The overlay has the pages `f` at the nodes `D`, has written none but of `D`, and those of
    `written` for sure. -/
structure On (D : List Nat) (f : Nat → EmbeddedPage) (rootHash : Hash) (written : List Nat) (o : TreeOverlay) : Prop where
  pages : ∀ i ∈ D, o.pages[i]? = some (f i)
  rootHash : o.rootHash = rootHash
  written : ∀ i ∈ written, i ∈ o.dirtyPages
  dirty : ∀ i ∈ o.dirtyPages, i ∈ D

variable {D written : List Nat} {f : Nat → EmbeddedPage} {r : Hash} {o : TreeOverlay}

theorem On.getPage (h : On D f r written o) {i : Nat} (hi : i ∈ D) : getPage i o = (.ok (f i), o) := by
  unfold TreeOverlay.getPage
  rw [Eff.get_bind, h.pages i hi]
  rfl

theorem On.setPage (h : On D f r written o) {i : Nat} (hi : i ∈ D) (page : EmbeddedPage) :
    ∃ o', setPage i page o = (.ok (), o') ∧ On D (Function.update f i page) r (i :: written) o' := by
  refine ⟨_, rfl, ?_, h.rootHash, ?_, ?_⟩
  · intro j hj
    rw [Std.TreeMap.getElem?_insert]
    by_cases hij : i = j
    · subst hij
      rw [Function.update_self, if_pos (by simp)]
    · rw [Function.update_of_ne (Ne.symm hij), if_neg (by simpa using hij), h.pages j hj]
  · intro j hj
    rw [Std.TreeSet.mem_insert]
    rcases List.mem_cons.mp hj with rfl | hj
    · exact .inl (by simp)
    · exact .inr (h.written j hj)
  · intro j hj
    rcases Std.TreeSet.mem_insert.mp hj with hij | hj
    · obtain rfl : i = j := by simpa using hij
      exact hi
    · exact h.dirty j hj

theorem On.congr {f' : Nat → EmbeddedPage} (h : On D f r written o) (hf : ∀ i ∈ D, f i = f' i) : On D f' r written o :=
  { h with pages := fun i hi => (h.pages i hi).trans (congrArg some (hf i hi)) }

theorem On.mono {written' : List Nat} (h : On D f r written o) (hw : ∀ i ∈ written', i ∈ written) : On D f r written' o :=
  { h with written := fun i hi => h.written i (hw i hi) }

/-- New bytes for some of the pages. -/
theorem On.writeLogicals {base : Nat → EmbeddedPage} {d : Nat → Bytes} {sz : Nat} {writes : List (Nat × Bytes)}
    (h : On D (relabel base d) r written o) (hD : ∀ w ∈ writes, w.1 ∈ D) (hsz : ∀ w ∈ writes, w.2.length = sz) :
    ∃ us o', Eff.forEach (fun w => writeLogical sz w.1 w.2) writes o = (.ok us, o') ∧
      On D (relabel base (overwrite d writes)) r written o' := by
  have hstep : ∀ w ∈ writes, ∀ d o, On D (relabel base d) r written o →
      ∃ u o', writeLogical sz w.1 w.2 o = (.ok u, o') ∧ On D (relabel base (Function.update d w.1 w.2)) r written o' := by
    intro w hw d o ho
    obtain ⟨o', hset, ho'⟩ := ho.setPage (hD w hw) { relabel base d w.1 with logical := w.2 }
    refine ⟨(), o', ?_, (ho'.congr fun i _ => ?_).mono fun i hi => List.mem_cons_of_mem _ hi⟩
    · unfold writeLogical
      rw [if_neg (by simpa using hsz w hw), Eff.bind_ok (ho.getPage (hD w hw))]
      exact hset
    · unfold relabel
      by_cases hi : i = w.1
      · subst hi
        rw [Function.update_self, Function.update_self]
      · rw [Function.update_of_ne hi, Function.update_of_ne hi]
  exact Eff.forEach_foldl hstep h

theorem setPage_keeps (i : Nat) (page : EmbeddedPage) : Eff.Keeps (fun o => o.rootHash = r) (setPage i page) := fun _ h => h

theorem getPage_keeps (i : Nat) : Eff.Keeps (fun o => o.rootHash = r) (getPage i) :=
  Eff.Keeps.get_bind fun _ h => h

theorem writeLogical_keeps (sz i : Nat) (logical : Bytes) :
    Eff.Keeps (fun o => o.rootHash = r) (writeLogical sz i logical) := by
  unfold writeLogical
  split
  · exact Eff.Keeps.fail _
  · exact (getPage_keeps i).bind fun page => setPage_keeps i _

theorem writeLogicals_keeps (sz : Nat) (writes : List (Nat × Bytes)) :
    Eff.Keeps (fun o => o.rootHash = r) (Eff.forEach (fun w => writeLogical sz w.1 w.2) writes) :=
  Eff.Keeps.forEach fun w _ => writeLogical_keeps sz w.1 w.2

theorem writeLogicals_length {sz : Nat} {writes : List (Nat × Bytes)} {us : List Unit} {o' : TreeOverlay}
    (h : Eff.forEach (fun w => writeLogical sz w.1 w.2) writes o = (.ok us, o')) :
    ∀ w ∈ writes, w.2.length = sz := by
  induction writes generalizing o us with
  | nil => simp
  | cons w writes ih =>
    obtain ⟨u, o₁, hw, hrest⟩ := Eff.bind_eq_ok h
    obtain ⟨us', o₂, hwrites, hlast⟩ := Eff.bind_eq_ok hrest
    cases hlast
    have hsz : w.2.length = sz := by
      by_contra hne
      change writeLogical sz w.1 w.2 o = _ at hw
      unfold writeLogical at hw
      rw [if_pos hne] at hw
      cases hw
    intro x hx
    rcases List.mem_cons.mp hx with rfl | hx
    · exact hsz
    · exact ih hwrites x hx

end TreeOverlay

/-! ## The tree of the contents -/

section
variable [Sha256] (storeId : FixedBytes 16) (n : Nat)

/-- The hash of the subtree at a page; a page that is not there has the hash of zeros. -/
def treeHash (c : Nat → Bytes) : Nat → Hash := heapHash n (hashEmbeddedPage storeId) noHash c

def treePage (c : Nat → Bytes) (i : Nat) : EmbeddedPage where
  logical := c i
  leftHash := treeHash storeId n c (leftChild i)
  rightHash := treeHash storeId n c (rightChild i)

variable {storeId n} {c c' : Nat → Bytes}

theorem treeHash_page {i : Nat} (hi : i < n) : treeHash storeId n c i = (treePage storeId n c i).hash storeId i := by
  unfold treeHash
  rw [heapHash_node hi, Nat.mul_comm 2 i]
  rfl

theorem treeHash_none {i : Nat} (hi : n ≤ i) : treeHash storeId n c i = noHash := heapHash_none hi

/-- The hash a page of the tree keeps for a child. -/
theorem treePage_childHash {i j : Nat} (hij : IsChild i j) :
    (treePage storeId n c i).childHash i j = .ok (treeHash storeId n c j) := by
  unfold EmbeddedPage.childHash
  rcases isChild_iff.mp hij with rfl | rfl
  · rw [if_pos rfl]
    rfl
  · rw [if_neg (leftChild_ne_rightChild i).symm, if_pos rfl]
    rfl

theorem treeHash_congr (h : ∀ i < n, c i = c' i) (i : Nat) : treeHash storeId n c i = treeHash storeId n c' i :=
  heapHash_congr (P := fun _ => True) (fun _ _ _ _ => trivial) (fun i hi _ => h i hi) trivial

theorem treePage_congr (h : ∀ i < n, c i = c' i) {i : Nat} (hi : i < n) : treePage storeId n c i = treePage storeId n c' i := by
  unfold treePage
  rw [h i hi, treeHash_congr h, treeHash_congr h]

/-- Relabelling a path leaves the pages off it as they were. -/
theorem treePage_off {path : List Nat} (hp : RootPath n path) (h : ∀ i, i ∉ path → c i = c' i) {i : Nat} (hi : i ∉ path) :
    treePage storeId n c i = treePage storeId n c' i := by
  have hoff : ∀ j, IsChild i j → treeHash storeId n c j = treeHash storeId n c' j := fun j hij =>
    hp.heapHash_off (fun k _ hk => h k hk) fun hj => hi (hp.parent hij hj)
  unfold treePage
  rw [h i hi, hoff _ (leftChild_isChild i), hoff _ (rightChild_isChild i)]

/-! ## Authenticating a path -/

variable (storeId n) in
/-- What hashing the pages of a tree takes. -/
def treeMessages (c : Nat → Bytes) : Set Bytes := { m | ∃ i < n, m = (treePage storeId n c i).message storeId i }

variable (storeId) in
/-- What hashing pages at their indices takes. -/
def pageMessages (pages : EmbeddedPages) : Set Bytes :=
  { m | ∃ (i : Nat) (page : EmbeddedPage), pages[i]? = some page ∧ m = page.message storeId i }

/-- A page with the hash of the tree's is the tree's, unless their messages collide. -/
theorem treePage_of_hash {M : Set Bytes} (hM : Set.InjOn Sha256.digest M) (htree : treeMessages storeId n c ⊆ M)
    {i : Nat} (hi : i < n) {page : EmbeddedPage} (hpage : page.message storeId i ∈ M)
    (h : page.hash storeId i = treeHash storeId n c i) : page = treePage storeId n c i := by
  rw [treeHash_page hi, EmbeddedPage.hash_eq, EmbeddedPage.hash_eq] at h
  exact EmbeddedPage.message_inj (hM hpage (htree ⟨i, hi, rfl⟩) h)

theorem verifyPathFromPages_cons {pages : EmbeddedPages} {i : Nat} {path : List Nat} {expectedHash : Hash} :
    verifyPathFromPages storeId pages (i :: path) expectedHash = .ok () ↔
      ∃ page, pages[i]? = some page ∧ page.hash storeId i = expectedHash ∧
        ∀ j ∈ path.head?, ∃ hash, page.childHash i j = .ok hash ∧
          verifyPathFromPages storeId pages path hash = .ok () := by
  rw [verifyPathFromPages]
  cases hpage : pages[i]? with
  | none =>
    refine iff_of_false (fun h => ?_) fun h => ?_
    · cases h
    · obtain ⟨_, h, -⟩ := h
      cases h
  | some page =>
    have hpages : ∀ q, some page = some q ↔ q = page := fun q => by rw [Option.some.injEq, eq_comm]
    simp only [okOr, bind, Except.bind, hpages, exists_eq_left]
    by_cases hhash : page.hash storeId i = expectedHash
    · rw [if_neg (by simpa using (hashEq_iff _ _).mpr hhash)]
      cases hnext : path.head? with
      | none => simp [hhash]
      | some j =>
        simp only [hhash, true_and, Option.mem_def, Option.some.injEq, forall_eq']
        cases hchild : page.childHash i j with
        | error e =>
          refine iff_of_false (fun h => ?_) fun h => ?_
          · cases h
          · obtain ⟨_, h, -⟩ := h
            cases h
        | ok hash => simp
    · have hne : hashEq (page.hash storeId i) expectedHash = false := by
        rw [Bool.eq_false_iff, ne_eq, hashEq_iff]
        exact hhash
      rw [hne]
      refine iff_of_false (fun h => ?_) fun h => hhash h.1
      cases h

/-- Down a path whose first page has the tree's hash, every page is the tree's. -/
theorem verifyPathFromPages_sound {M : Set Bytes} (hM : Set.InjOn Sha256.digest M) {pages : EmbeddedPages}
    (htree : treeMessages storeId n c ⊆ M) (hpages : pageMessages storeId pages ⊆ M) {path : List Nat}
    (hchain : path.IsChain IsChild) (hlt : ∀ i ∈ path, i < n) {i : Nat} (hhead : path.head? = some i)
    (h : verifyPathFromPages storeId pages path (treeHash storeId n c i) = .ok ()) :
    ∀ j ∈ path, pages[j]? = some (treePage storeId n c j) := by
  induction path generalizing i with
  | nil => cases hhead
  | cons i' path ih =>
    obtain rfl : i' = i := by simpa using hhead
    obtain ⟨page, hpage, hhash, hrest⟩ := verifyPathFromPages_cons.mp h
    obtain rfl := treePage_of_hash hM htree (hlt i' List.mem_cons_self) (hpages ⟨i', page, hpage, rfl⟩) hhash
    intro j hj
    rcases List.mem_cons.mp hj with rfl | hj
    · exact hpage
    · cases path with
      | nil => cases hj
      | cons next path =>
        obtain ⟨hash, hchild, hverify⟩ := hrest next rfl
        obtain ⟨hstep, hchain⟩ := List.isChain_cons_cons.mp hchain
        rw [treePage_childHash hstep] at hchild
        cases hchild
        exact ih hchain (fun k hk => hlt k (List.mem_cons_of_mem _ hk)) rfl hverify j hj

/-- The tree's own pages are authenticated. -/
theorem verifyPathFromPages_tree {pages : EmbeddedPages} {path : List Nat} (hchain : path.IsChain IsChild)
    (hlt : ∀ i ∈ path, i < n) (hpages : ∀ j ∈ path, pages[j]? = some (treePage storeId n c j)) {i : Nat}
    (hhead : path.head? = some i) : verifyPathFromPages storeId pages path (treeHash storeId n c i) = .ok () := by
  induction path generalizing i with
  | nil => rfl
  | cons i' path ih =>
    obtain rfl : i' = i := by simpa using hhead
    refine verifyPathFromPages_cons.mpr
      ⟨_, hpages i' List.mem_cons_self, (treeHash_page (hlt i' List.mem_cons_self)).symm, ?_⟩
    intro j hj
    cases path with
    | nil => cases hj
    | cons next path =>
      cases hj
      obtain ⟨hstep, hchain⟩ := List.isChain_cons_cons.mp hchain
      exact ⟨_, treePage_childHash hstep, ih hchain (fun k hk => hlt k (List.mem_cons_of_mem _ hk))
        (fun k hk => hpages k (List.mem_cons_of_mem _ hk)) rfl⟩

/-! ## Rehashing a path -/

/-- A page of a path whose bytes are replaced becomes a page of the new tree with the hash of
    the next page of the path. -/
theorem treePage_rehash {front back : List Nat} {i : Nat} (hp : RootPath n (front ++ i :: back))
    (hc : ∀ j, j ∉ front ++ i :: back → c j = c' j) :
    (relabel (treePage storeId n c) c' i).withChild i (back.head?.map fun j => (j, treeHash storeId n c' j))
      = .ok (treePage storeId n c' i) := by
  have hoff : ∀ k, IsChild i k → back.head? ≠ some k → treeHash storeId n c k = treeHash storeId n c' k :=
    fun k hik hne =>
    hp.heapHash_off (fun j _ hj => hc j hj) fun hk => hne (hp.next hik hk)
  cases back with
  | nil =>
    unfold relabel treePage
    rw [hoff _ (leftChild_isChild i) (by simp), hoff _ (rightChild_isChild i) (by simp)]
    rfl
  | cons j rest =>
    have hij : IsChild i j := (List.isChain_cons_cons.mp hp.chain.right_of_append).1
    show EmbeddedPage.setChildHash _ i j (treeHash storeId n c' j) = _
    unfold EmbeddedPage.setChildHash relabel treePage
    rcases isChild_iff.mp hij with rfl | rfl
    · rw [if_pos rfl, hoff _ (rightChild_isChild i) (by simpa using leftChild_ne_rightChild i)]
    · rw [if_neg (leftChild_ne_rightChild i).symm, if_pos rfl,
        hoff _ (leftChild_isChild i) (by simpa using (leftChild_ne_rightChild i).symm)]

namespace TreeOverlay

variable {D written : List Nat} {r : Hash} {o : TreeOverlay}

/-- The pages of a path under way: those from `done` down are the new tree's. -/
def partTree (storeId : FixedBytes 16) (n : Nat) (c c' : Nat → Bytes) (done : List Nat) (i : Nat) : EmbeddedPage :=
  if i ∈ done then treePage storeId n c' i else relabel (treePage storeId n c) c' i

theorem rehashPath_ok {path : List Nat} (hp : RootPath n path) (hD : ∀ i ∈ path, i ∈ D)
    (hc : ∀ j, j ∉ path → c j = c' j)
    {above done : List Nat} (hpath : above.reverse ++ done = path) (h : On D (partTree storeId n c c' done) r written o) :
    ∃ o', rehashPath storeId above (done.head?.map fun j => (j, treeHash storeId n c' j)) o
        = (.ok (path.head?.map fun j => (j, treeHash storeId n c' j)), o') ∧
      On D (partTree storeId n c c' path) r (above ++ written) o' := by
  induction above generalizing done o written with
  | nil =>
    obtain rfl : done = path := hpath
    exact ⟨o, rfl, h⟩
  | cons i above ih =>
    rw [List.reverse_cons, List.append_assoc, List.singleton_append] at hpath
    subst hpath
    have hmem : i ∈ above.reverse ++ i :: done := List.mem_append_right _ List.mem_cons_self
    have hi : i ∉ done := by
      obtain ⟨-, hback, -⟩ := List.pairwise_append.mp (isChain_lt hp.chain)
      intro hi
      exact Nat.lt_irrefl i ((List.pairwise_cons.mp hback).1 i hi)
    have hget := h.getPage (hD i hmem)
    rw [partTree, if_neg hi] at hget
    obtain ⟨o₁, hset, ho₁⟩ := h.setPage (hD i hmem) (treePage storeId n c' i)
    have hpart : ∀ j ∈ D, Function.update (partTree storeId n c c' done) i (treePage storeId n c' i) j
        = partTree storeId n c c' (i :: done) j := by
      intro j _
      unfold partTree
      by_cases hj : j = i
      · subst hj
        rw [Function.update_self, if_pos List.mem_cons_self]
      · rw [Function.update_of_ne hj]
        simp only [List.mem_cons, hj, false_or]
    obtain ⟨o₂, hrun, ho₂⟩ := ih rfl (ho₁.congr hpart)
    refine ⟨o₂, ?_, ho₂.mono fun j hj => ?_⟩
    · unfold rehashPath
      rw [Eff.bind_ok hget, treePage_rehash hp hc, Eff.lift_ok_bind, Eff.bind_ok hset, ← treeHash_page (hp.lt i hmem)]
      exact hrun
    · simp only [List.cons_append, List.mem_append, List.mem_cons] at hj ⊢
      tauto

/-- The arguments of a turn that is not refused. -/
structure Accepts (l : EmbeddedLayout) (path : List Nat) (logicalPages : List Bytes) : Prop where
  length : path.length = logicalPages.length
  path : RootPath l.pageCount path
  pages : ∀ page ∈ logicalPages, page.length = l.logicalPageSize

/-- On the pages of a tree an accepted turn makes the pages and the root of the new contents'. -/
theorem writePath_ok {l : EmbeddedLayout} {path : List Nat} {logicalPages : List Bytes} (ha : Accepts l path logicalPages)
    (hD : ∀ i ∈ path, i ∈ D) (h : On D (treePage l.storeId l.pageCount c) r written o) :
    ∃ o', writePath l path logicalPages o = (.ok (), o') ∧
      On D (treePage l.storeId l.pageCount (overwrite c (path.zip logicalPages)))
        (treeHash l.storeId l.pageCount (overwrite c (path.zip logicalPages)) 0) (path ++ written) o' := by
  have hp := ha.path
  have hoff : ∀ j, j ∉ path → c j = overwrite c (path.zip logicalPages) j := by
    intro j hj
    rcases overwrite_cases c (path.zip logicalPages) j with hold | hwritten
    · exact hold.symm
    · exact absurd (List.of_mem_zip hwritten).1 hj
  have hnow : On D (relabel (treePage l.storeId l.pageCount c) c) r written o := h
  have hsz : ∀ w ∈ path.zip logicalPages, w.2.length = l.logicalPageSize := fun w hw => ha.pages w.2 (List.of_mem_zip hw).2
  obtain ⟨us, o₁, hwrite, ho₁⟩ := hnow.writeLogicals (fun w hw => hD w.1 (List.of_mem_zip hw).1) hsz
  generalize overwrite c (path.zip logicalPages) = c' at hoff ho₁ ⊢
  have hstart : On D (partTree l.storeId l.pageCount c c' []) r written o₁ :=
    ho₁.congr fun i _ => by rw [partTree, if_neg List.not_mem_nil]
  obtain ⟨o₂, hrun, ho₂⟩ := rehashPath_ok hp hD hoff (show path.reverse.reverse ++ [] = path by simp) hstart
  have hdone : ∀ i ∈ D, partTree l.storeId l.pageCount c c' path i = treePage l.storeId l.pageCount c' i := by
    intro i _
    by_cases hi : i ∈ path
    · rw [partTree, if_pos hi]
    · rw [partTree, if_neg hi, ← treePage_off hp hoff hi, relabel, ← hoff i hi]
      rfl
  obtain ⟨rest, hroot⟩ := RootPath.eq_cons hp
  refine ⟨{ o₂ with rootHash := treeHash l.storeId l.pageCount c' 0 }, ?_,
    { (ho₂.congr hdone).mono fun i hi => ?_ with rootHash := rfl }⟩
  · unfold writePath
    rw [if_neg (not_not_intro ha.length), validatePath_rootPath.mpr hp, Eff.lift_ok_bind, Eff.bind_ok hwrite]
    refine (Eff.bind_ok hrun).trans ?_
    rw [hroot]
    rfl
  · rcases List.mem_append.mp hi with hi | hi
    · exact List.mem_append_left _ (List.mem_reverse.mpr hi)
    · exact List.mem_append_right _ hi

/-! ## Turns that are refused -/

theorem writePath_accepts {l : EmbeddedLayout} {path : List Nat} {logicalPages : List Bytes} {o' : TreeOverlay}
    (h : writePath l path logicalPages o = (.ok (), o')) : Accepts l path logicalPages := by
  unfold writePath at h
  split at h
  · cases h
  · rename_i hlen
    rw [not_not] at hlen
    obtain ⟨u, hvalid, h⟩ := Eff.lift_bind_eq_ok h
    obtain ⟨us, o₁, hwrite, -⟩ := Eff.bind_eq_ok h
    refine ⟨hlen, validatePath_rootPath.mp hvalid, fun page hpage => ?_⟩
    obtain ⟨k, hk, rfl⟩ := List.getElem_of_mem hpage
    have hlt : k < (path.zip logicalPages).length := by rw [List.length_zip]; omega
    have hsz := writeLogicals_length hwrite _ (List.getElem_mem hlt)
    rwa [List.getElem_zip] at hsz

theorem rehashPath_keeps (storeId : FixedBytes 16) (above : List Nat) (child : Option (Nat × Hash)) :
    Eff.Keeps (fun o => o.rootHash = r) (rehashPath storeId above child) := by
  induction above generalizing child with
  | nil => exact Eff.Keeps.pure _
  | cons i above ih =>
    exact (getPage_keeps i).bind fun page => (Eff.Keeps.lift _).bind fun page => (setPage_keeps i page).bind fun _ => ih _

/-- A turn that is refused leaves the root. -/
theorem writePath_error {l : EmbeddedLayout} {path : List Nat} {logicalPages : List Bytes} {e : Error} {o' : TreeOverlay}
    (h : writePath l path logicalPages o = (.error e, o')) : o'.rootHash = o.rootHash := by
  unfold writePath at h
  split at h
  · cases h
    rfl
  · cases hvalid : validatePath path l.pageCount with
    | error e' =>
      rw [hvalid, Eff.lift_error_bind] at h
      cases h
      rfl
    | ok u =>
      rw [hvalid, Eff.lift_ok_bind] at h
      have hkeeps := (writeLogicals_keeps l.logicalPageSize (path.zip logicalPages)).apply (show o.rootHash = o.rootHash from rfl)
      rcases hwrite : Eff.forEach (fun w => writeLogical l.logicalPageSize w.1 w.2) (path.zip logicalPages) o
        with ⟨_ | us, o₁⟩ <;> rw [hwrite] at hkeeps
      · rw [Eff.bind_error hwrite] at h
        cases h
        exact hkeeps
      rw [Eff.bind_ok hwrite] at h
      replace hkeeps := (rehashPath_keeps l.storeId path.reverse none).apply hkeeps
      rcases hrun : rehashPath l.storeId path.reverse none o₁ with ⟨_ | child, o₂⟩ <;> rw [hrun] at hkeeps
      · replace h := (Eff.bind_error hrun).symm.trans h
        cases h
        exact hkeeps
      replace h := (Eff.bind_ok hrun).symm.trans h
      cases child with
      | none =>
        cases h
        exact hkeeps
      | some child => cases h

/-! ## A batch of turns -/

/-- What the turns of a batch write, in order. -/
def turnWrites (turns : List (List Nat × List Bytes)) : List (Nat × Bytes) := (turns.map fun w => w.1.zip w.2).flatten

omit [Sha256] in
theorem turnWrites_cons (w : List Nat × List Bytes) (turns : List (List Nat × List Bytes)) :
    overwrite c (turnWrites (w :: turns)) = overwrite (overwrite c (w.1.zip w.2)) (turnWrites turns) := by
  rw [turnWrites, List.map_cons, List.flatten_cons, overwrite_append]
  rfl

theorem writeEach_ok {l : EmbeddedLayout} {turns : List (List Nat × List Bytes)} (ha : ∀ w ∈ turns, Accepts l w.1 w.2)
    (hD : ∀ w ∈ turns, ∀ i ∈ w.1, i ∈ D)
    (h : On D (treePage l.storeId l.pageCount c) (treeHash l.storeId l.pageCount c 0) written o) :
    ∃ us o', Eff.forEach (fun w => writePath l w.1 w.2) turns o = (.ok us, o') ∧
      On D (treePage l.storeId l.pageCount (overwrite c (turnWrites turns)))
        (treeHash l.storeId l.pageCount (overwrite c (turnWrites turns)) 0) ((turns.map (·.1)).flatten ++ written) o' := by
  induction turns generalizing c written o with
  | nil => exact ⟨[], o, rfl, h⟩
  | cons w turns ih =>
    obtain ⟨o₁, hrun, ho₁⟩ := writePath_ok (ha w List.mem_cons_self) (hD w List.mem_cons_self) h
    obtain ⟨us, o₂, hrest, ho₂⟩ := ih (fun x hx => ha x (List.mem_cons_of_mem _ hx))
      (fun x hx => hD x (List.mem_cons_of_mem _ hx)) ho₁
    rw [turnWrites_cons]
    refine ⟨() :: us, o₂, Eff.forEach_ok hrun hrest, ho₂.mono fun i hi => ?_⟩
    simp only [List.map_cons, List.flatten_cons, List.mem_append] at hi ⊢
    tauto

/-- The check of a turn. -/
def accepts (l : EmbeddedLayout) (w : List Nat × List Bytes) : Bool :=
  w.1.length == w.2.length && (validatePath w.1 l.pageCount).toOption.isSome && w.2.all (·.length == l.logicalPageSize)

omit [Sha256] in
theorem accepts_iff {l : EmbeddedLayout} {w : List Nat × List Bytes} : accepts l w = true ↔ Accepts l w.1 w.2 := by
  have hvalid : (validatePath w.1 l.pageCount).toOption.isSome = true ↔ RootPath l.pageCount w.1 := by
    rw [← validatePath_rootPath]
    cases validatePath w.1 l.pageCount with
    | error e => exact iff_of_false Bool.false_ne_true (fun h => by cases h)
    | ok u => exact iff_of_true rfl rfl
  unfold accepts
  rw [Bool.and_eq_true, Bool.and_eq_true, hvalid, beq_iff_eq, List.all_eq_true]
  simp only [beq_iff_eq]
  exact ⟨fun h => ⟨h.1.1, h.1.2, h.2⟩, fun h => ⟨⟨h.length, h.path⟩, h.pages⟩⟩

/-- However a batch ends, the root is that of the turns before the first refused one. -/
theorem writeEach_root {l : EmbeddedLayout} {turns : List (List Nat × List Bytes)} (hD : ∀ w ∈ turns, ∀ i ∈ w.1, i ∈ D)
    (h : On D (treePage l.storeId l.pageCount c) (treeHash l.storeId l.pageCount c 0) written o)
    {x : Result (List Unit)} {o' : TreeOverlay} (hrun : Eff.forEach (fun w => writePath l w.1 w.2) turns o = (x, o')) :
    o'.rootHash = treeHash l.storeId l.pageCount (overwrite c (turnWrites (turns.takeWhile (accepts l)))) 0 := by
  induction turns generalizing c written o x with
  | nil =>
    cases hrun
    exact h.rootHash
  | cons w turns ih =>
    by_cases ha : accepts l w = true
    · obtain ⟨o₁, hw, ho₁⟩ := writePath_ok (accepts_iff.mp ha) (hD w List.mem_cons_self) h
      rw [List.takeWhile_cons_of_pos ha, turnWrites_cons]
      rw [Eff.forEach, Eff.bind_ok hw] at hrun
      rcases hrest : Eff.forEach (fun w => writePath l w.1 w.2) turns o₁ with ⟨e | us, o₂⟩
      · rw [Eff.bind_error hrest] at hrun
        cases hrun
        exact ih (fun x hx => hD x (List.mem_cons_of_mem _ hx)) ho₁ hrest
      · rw [Eff.bind_ok hrest] at hrun
        cases hrun
        exact ih (fun x hx => hD x (List.mem_cons_of_mem _ hx)) ho₁ hrest
    · rw [List.takeWhile_cons_of_neg ha]
      rcases hw : writePath l w.1 w.2 o with ⟨e | u, o₁⟩
      · rw [Eff.forEach, Eff.bind_error hw] at hrun
        cases hrun
        exact (writePath_error hw).trans h.rootHash
      · exact absurd (accepts_iff.mpr (writePath_accepts hw)) ha

/-- A batch that ends well had no turn to refuse. -/
theorem writeEach_accepts {l : EmbeddedLayout} {turns : List (List Nat × List Bytes)} {us : List Unit} {o' : TreeOverlay}
    (hrun : Eff.forEach (fun w => writePath l w.1 w.2) turns o = (.ok us, o')) : ∀ w ∈ turns, Accepts l w.1 w.2 := by
  induction turns generalizing o us with
  | nil => simp
  | cons w turns ih =>
    obtain ⟨u, o₁, hw, hrest⟩ := Eff.bind_eq_ok hrun
    obtain ⟨us', o₂, hturns, hlast⟩ := Eff.bind_eq_ok hrest
    cases hlast
    intro x hx
    rcases List.mem_cons.mp hx with rfl | hx
    · exact writePath_accepts hw
    · exact ih hturns x hx

end TreeOverlay

/-! ## Building -/

omit [Sha256] in
/-- The logical bytes of some pages. -/
def contents (pages : List EmbeddedPage) (i : Nat) : Bytes := (pages[i]?.map (·.logical)).getD []

omit [Sha256] in
theorem contents_of {pages : List EmbeddedPage} {i : Nat} {page : EmbeddedPage} (h : pages[i]? = some page) :
    contents pages i = page.logical := by
  rw [contents, h]
  rfl

/-- The loop of `build`, done from page `k` on: there are pages of the tree and their hashes. -/
structure BuiltFrom (storeId : FixedBytes 16) (n : Nat) (c : Nat → Bytes) (k : Nat) (s : List EmbeddedPage × List Hash) :
    Prop where
  pages : s.1.length = n
  hashes : s.2.length = n
  logical : ∀ i page, s.1[i]? = some page → page.logical = c i
  page : ∀ i, k ≤ i → i < n → s.1[i]? = some (treePage storeId n c i)
  hash : ∀ i, k ≤ i → i < n → s.2[i]? = some (treeHash storeId n c i)

theorem BuiltFrom.childHashAt {k : Nat} {s : List EmbeddedPage × List Hash} (h : BuiltFrom storeId n c (k + 1) s) {j : Nat}
    (hj : IsChild k j) : childHashAt s.2 j = treeHash storeId n c j := by
  have hlt := hj.lt
  unfold BpirOram.childHashAt
  by_cases hn : j < n
  · rw [h.hash j hlt hn]
    rfl
  · rw [List.getElem?_eq_none (by rw [h.hashes]; omega), treeHash_none (Nat.le_of_not_lt hn)]
    rfl

theorem BuiltFrom.step {k : Nat} (hk : k < n) {s : List EmbeddedPage × List Hash} (h : BuiltFrom storeId n c (k + 1) s) :
    BuiltFrom storeId n c k (buildPage storeId s k) := by
  have hlt : k < s.1.length := h.pages ▸ hk
  have hget : s.1[k]? = some s.1[k] := List.getElem?_eq_getElem hlt
  have hbuild : buildPage storeId s k = (s.1.set k (treePage storeId n c k), s.2.set k (treeHash storeId n c k)) := by
    unfold buildPage
    rw [hget, treeHash_page hk, treePage, ← h.logical k _ hget, ← h.childHashAt (leftChild_isChild k),
      ← h.childHashAt (rightChild_isChild k)]
  rw [hbuild]
  refine ⟨by rw [List.length_set, h.pages], by rw [List.length_set, h.hashes], ?_, ?_, ?_⟩
  · intro i page hi
    by_cases hki : k = i
    · subst hki
      rw [List.getElem?_set_self hlt] at hi
      cases hi
      rfl
    · rw [List.getElem?_set_ne hki] at hi
      exact h.logical i page hi
  · intro i hle hi
    by_cases hki : k = i
    · subst hki
      exact List.getElem?_set_self hlt
    · rw [List.getElem?_set_ne hki]
      exact h.page i (by omega) hi
  · intro i hle hi
    by_cases hki : k = i
    · subst hki
      exact List.getElem?_set_self (by rw [h.hashes]; exact hi)
    · rw [List.getElem?_set_ne hki]
      exact h.hash i (by omega) hi

theorem buildPages_built (storeId : FixedBytes 16) (pages : List EmbeddedPage) :
    BuiltFrom storeId pages.length (contents pages) 0 (buildPages storeId pages) := by
  have hloop : ∀ m ≤ pages.length, ∀ s, BuiltFrom storeId pages.length (contents pages) m s →
      BuiltFrom storeId pages.length (contents pages) 0 ((List.range m).reverse.foldl (buildPage storeId) s) := by
    intro m
    induction m with
    | zero => exact fun _ s h => h
    | succ m ih =>
      intro hm s h
      rw [List.range_succ, List.reverse_append, List.reverse_singleton, List.singleton_append, List.foldl_cons]
      exact ih (by omega) _ (h.step (by omega))
  refine hloop pages.length (Nat.le_refl _) _ ⟨rfl, List.length_replicate, fun i page hi => ?_, ?_, ?_⟩
  · exact (contents_of hi).symm
  · intro i hle hi
    omega
  · intro i hle hi
    omega

theorem BuiltFrom.pages_eq {s : List EmbeddedPage × List Hash} (h : BuiltFrom storeId n c 0 s) :
    s.1 = (List.range n).map (treePage storeId n c) := by
  refine List.ext_getElem? fun i => ?_
  by_cases hi : i < n
  · rw [h.page i (Nat.zero_le i) hi, List.getElem?_map, List.getElem?_range hi]
    rfl
  · rw [List.getElem?_eq_none (by rw [h.pages]; omega), List.getElem?_eq_none (by simp; omega)]

end
end BpirOram
