/-
  BpirOram.Pages.Sealed — `aead.rs`: pages sealed by an authenticated cipher.

  A page goes to the store below as `nonce || ciphertext || tag`, its number as associated
  data. The cipher and the nonces the system's generator is to give are parameters; what is
  used of the cipher here is that it opens what it sealed (`Cipher.Undoes`).
  - `AeadPageStore.view`: over a store that shows its pages, the sealed store shows what they
    open to.
-/

import BpirOram.Pages.View

namespace BpirOram

open Lib

/-- `ChaCha20Poly1305` with its key; `none` is the cipher's error. -/
structure Cipher where
  encrypt (nonce : FixedBytes 12) (aad msg : Bytes) : Option Bytes
  decrypt (nonce : FixedBytes 12) (aad msg : Bytes) : Option Bytes

/-- Messages of `len` bytes are sealed with a tag of 16 bytes, and open to themselves. -/
def Cipher.Undoes (cipher : Cipher) (len : Nat) : Prop :=
  ∀ nonce aad msg, msg.length = len → ∃ ciphertext, cipher.encrypt nonce aad msg = some ciphertext ∧
    ciphertext.length = len + 16 ∧ cipher.decrypt nonce aad ciphertext = some msg

def aeadOverhead : Nat := 12 + 16

structure AeadPageStore (S : Type) where
  inner : S
  cipher : Cipher
  plaintextPageSize : Nat
  /-- The nonces still to come of `OsRng`. -/
  osRng : Nat → FixedBytes 12

namespace AeadPageStore

variable {S : Type}

/-! ## The source -/

section
variable [PageStore S]

def new (chaCha20Poly1305 : FixedBytes 32 → Cipher) (osRng : Nat → FixedBytes 12) (inner : S) (key : FixedBytes 32)
    (plaintextPageSize : Nat) : Result (AeadPageStore S) :=
  if PageStore.pageSize inner ≠ usizeAdd plaintextPageSize aeadOverhead then
    .error (.invalidInput
      s!"encrypted store page size {PageStore.pageSize inner} != plaintext {plaintextPageSize} + overhead {aeadOverhead}")
  else .ok { inner, cipher := chaCha20Poly1305 key, plaintextPageSize, osRng }

def onInner {α : Type} (m : Eff Error S α) : Eff Error (AeadPageStore S) α :=
  Eff.zoom AeadPageStore.inner (fun inner s => { s with inner }) m

/-- A sealed page opened as page `pageIdx`. -/
def openSealed (cipher : Cipher) (plaintextPageSize pageIdx : Nat) (page : Bytes) : Result Bytes := do
  let plaintext ← (cipher.decrypt (.ofSlice 12 page 0) (toLe 8 pageIdx) (page.drop 12)).elim (.error .aead) .ok
  if plaintext.length ≠ plaintextPageSize then .error .aead else .ok plaintext

def decryptPage (s : AeadPageStore S) (pageIdx : Nat) (page : Bytes) : Result Bytes :=
  if page.length ≠ PageStore.pageSize s.inner then
    .error (.invalidInput s!"sealed page len {page.length} != inner page_size {PageStore.pageSize s.inner}")
  else openSealed s.cipher s.plaintextPageSize pageIdx page

def encryptPage (pageIdx : Nat) (input : Bytes) : Eff Error (AeadPageStore S) Bytes := do
  let s ← Eff.get
  if input.length ≠ s.plaintextPageSize then
    Eff.fail (.invalidInput s!"plaintext input len {input.length} != page_size {s.plaintextPageSize}")
  else do
    let nonce := s.osRng 0
    Eff.modify fun s => { s with osRng := fun k => s.osRng (k + 1) }
    let ciphertext ← Eff.lift ((s.cipher.encrypt nonce (toLe 8 pageIdx) input).elim (.error .aead) .ok)
    pure (nonce.val ++ ciphertext)

def readPage (pageIdx len : Nat) : Eff Error (AeadPageStore S) Bytes := do
  let s ← Eff.get
  if len ≠ s.plaintextPageSize then
    Eff.fail (.invalidInput s!"plaintext output len {len} != page_size {s.plaintextPageSize}")
  else do
    let page ← onInner (PageStore.readPage pageIdx (PageStore.pageSize s.inner))
    let s ← Eff.get
    Eff.lift (s.decryptPage pageIdx page)

def writePage (pageIdx : Nat) (input : Bytes) : Eff Error (AeadPageStore S) Unit := do
  let page ← encryptPage pageIdx input
  onInner (PageStore.writePage pageIdx page)

def readPages (pageIndices : List Nat) : Eff Error (AeadPageStore S) (List Bytes) := do
  let sealedPages ← onInner (PageStore.readPages pageIndices)
  let s ← Eff.get
  Eff.forEach (fun x => Eff.lift (s.decryptPage x.1 x.2)) (pageIndices.zip sealedPages)

def writePages (pageIndices : List Nat) (pages : List Bytes) : Eff Error (AeadPageStore S) Unit :=
  if pageIndices.length ≠ pages.length then
    Eff.fail (.invalidInput s!"page index count {pageIndices.length} != page count {pages.length}")
  else do
    let sealedPages ← Eff.forEach (fun x => encryptPage x.1 x.2) (pageIndices.zip pages)
    onInner (PageStore.writePages pageIndices sealedPages)

instance : PageStore (AeadPageStore S) where
  pageSize := AeadPageStore.plaintextPageSize
  pageCount s := PageStore.pageCount s.inner
  readPage := readPage
  writePage := writePage
  readPages := readPages
  writePages := writePages
  flush := onInner PageStore.flush

/-! ## What the sealed store shows -/

/-- The store below shows `w`; the sealed store shows what its pages open to. -/
structure Seals (V : PageView S) (n sz : Nat) (cipher : Cipher) (w v : Nat → Result Bytes) (s : AeadPageStore S) : Prop where
  inner : V.Shows n (sz + aeadOverhead) w s.inner
  pageSize : s.plaintextPageSize = sz
  cipher_eq : s.cipher = cipher
  undoes : cipher.Undoes sz
  page : ∀ i < n, v i = w i >>= openSealed cipher sz i

variable {V : PageView S} {n sz : Nat} {cipher : Cipher} {v w : Nat → Result Bytes} {s : AeadPageStore S}

/-- A page below has room for the nonce and the tag, and the cipher opens what it sealed. -/
def WellSized (s : AeadPageStore S) : Prop :=
  PageStore.pageSize s.inner = s.plaintextPageSize + aeadOverhead ∧ s.cipher.Undoes s.plaintextPageSize

omit [PageStore S] in
/-- What the pages `w` below open to. -/
def page (s : AeadPageStore S) (w : Nat → Result Bytes) (i : Nat) : Result Bytes :=
  w i >>= openSealed s.cipher s.plaintextPageSize i

omit [PageStore S] in
theorem page_congr (s : AeadPageStore S) {w w' : Nat → Result Bytes} {i : Nat} (h : w i = w' i) :
    s.page w i = s.page w' i := by
  rw [page, page, h]

omit [PageStore S] in
theorem onInner_of {α : Type} {m : Eff Error S α} {t : S} {r : Result α} (h : m s.inner = (r, t)) :
    onInner m s = (r, { s with inner := t }) := Eff.zoom_of h

omit [PageStore S] in
theorem openSealed_error {i : Nat} {page : Bytes} {e : Error} (h : openSealed cipher sz i page = .error e) :
    e = .aead := by
  unfold openSealed at h
  cases hopen : cipher.decrypt (.ofSlice 12 page 0) (toLe 8 i) (page.drop 12) with
  | none =>
    rw [hopen] at h
    cases h
    rfl
  | some plaintext =>
    rw [hopen] at h
    change (if plaintext.length ≠ sz then _ else _) = _ at h
    split at h
    · cases h
      rfl
    · cases h

omit [PageStore S] in
theorem openSealed_length {i : Nat} {page plaintext : Bytes} (h : openSealed cipher sz i page = .ok plaintext) :
    plaintext.length = sz := by
  obtain ⟨p, -, h⟩ := bind_result_ok h
  split at h
  · cases h
  · cases h
    rename_i hl
    exact not_not.mp hl

theorem decryptPage_not_panic {i : Nat} {page : Bytes} {msg : String} : s.decryptPage i page ≠ .error (.panic msg) := by
  unfold decryptPage
  split
  · intro h
    cases h
  · intro h
    cases openSealed_error h

/-- What fails below fails the pages read at once. -/
theorem readPages_error {idxs : List Nat} {e : Error} {t : S} (h : PageStore.readPages idxs s.inner = (.error e, t)) :
    readPages idxs s = (.error e, { s with inner := t }) :=
  Eff.bind_error (onInner_of h)

theorem readPage_neverPanics (h : ReadPageNeverPanics S) : ReadPageNeverPanics (AeadPageStore S) := by
  intro i len msg s
  show (readPage i len s).1 ≠ .error (.panic msg)
  rw [readPage, Eff.get_bind]
  split
  · intro hrun
    cases hrun
  · cases hinner : PageStore.readPage i (PageStore.pageSize s.inner) s.inner with
    | mk r t =>
      cases r with
      | error e =>
        rw [Eff.bind_error (onInner_of hinner)]
        rintro ⟨⟩
        exact h i _ msg s.inner (congrArg Prod.fst hinner)
      | ok page =>
        rw [Eff.bind_ok (onInner_of hinner), Eff.get_bind]
        exact decryptPage_not_panic

/-- The sealed pages that sealing `page` as page `i` may give. -/
def SealedAs (cipher : Cipher) (sz i : Nat) (page sealedPage : Bytes) : Prop :=
  ∃ nonce ciphertext, cipher.encrypt nonce (toLe 8 i) page = some ciphertext ∧ ciphertext.length = sz + 16 ∧
    sealedPage = nonce.val ++ ciphertext

omit [PageStore S] in
theorem SealedAs.length {i : Nat} {page sealedPage : Bytes} (h : SealedAs cipher sz i page sealedPage) :
    sealedPage.length = sz + aeadOverhead := by
  obtain ⟨nonce, ciphertext, -, hlen, rfl⟩ := h
  rw [List.length_append, nonce.property, hlen, aeadOverhead]
  omega

omit [PageStore S] in
/-- Opening splits a sealed page into its nonce and the rest. -/
theorem openSealed_append (nonce : FixedBytes 12) (ciphertext : Bytes) (i : Nat) :
    openSealed cipher sz i (nonce.val ++ ciphertext)
      = ((cipher.decrypt nonce (toLe 8 i) ciphertext).elim (.error .aead) .ok >>= fun plaintext =>
          if plaintext.length ≠ sz then .error .aead else .ok plaintext) := by
  have hnonce : FixedBytes.ofSlice 12 (nonce.val ++ ciphertext) 0 = nonce := by
    have hfront := FixedBytes.ofSlice_append [] nonce ciphertext
    rwa [List.nil_append] at hfront
  rw [openSealed, hnonce, List.drop_left' nonce.property]

omit [PageStore S] in
/-- What was sealed opens to itself. -/
theorem SealedAs.opens (hundoes : cipher.Undoes sz) {i : Nat} {page sealedPage : Bytes}
    (h : SealedAs cipher sz i page sealedPage) (hl : page.length = sz) : openSealed cipher sz i sealedPage = .ok page := by
  obtain ⟨nonce, ciphertext, hsealed, -, rfl⟩ := h
  obtain ⟨ciphertext', hsealed', -, hopen⟩ := hundoes nonce (toLe 8 i) page hl
  cases hsealed.symm.trans hsealed'
  rw [openSealed_append, hopen]
  exact if_neg (not_not_intro hl)

namespace Seals

theorem decryptPage_eq (h : Seals V n sz cipher w v s) {page : Bytes} (hl : page.length = sz + aeadOverhead) (i : Nat) :
    s.decryptPage i page = openSealed cipher sz i page := by
  rw [decryptPage, if_neg (not_not_intro (hl.trans (V.pageSize_eq h.inner).symm)), h.pageSize, h.cipher_eq]

theorem withInner (h : Seals V n sz cipher w v s) {t : S} (ht : V.Shows n (sz + aeadOverhead) w t) :
    Seals V n sz cipher w v { s with inner := t } := ⟨ht, h.pageSize, h.cipher_eq, h.undoes, h.page⟩

theorem page_error (h : Seals V n sz cipher w v s) {i : Nat} (hi : i < n) {e : Error} (he : v i = .error e) : e = .aead := by
  rw [h.page i hi] at he
  cases hw : w i with
  | error e' =>
    rw [hw] at he
    cases he
    exact V.page_error h.inner i hi e hw
  | ok page =>
    rw [hw] at he
    exact openSealed_error he

/-- A page below opened is the page shown. -/
theorem decrypt_shown (h : Seals V n sz cipher w v s) {i : Nat} (hi : i < n) {page : Bytes} (hw : w i = .ok page) :
    s.decryptPage i page = v i := by
  rw [h.decryptPage_eq (V.page_length h.inner i hi page hw), h.page i hi, hw]
  rfl

/-! ## One page -/

theorem readPage (h : Seals V n sz cipher w v s) {i : Nat} (hi : i < n) :
    ∃ t, AeadPageStore.readPage i sz s = (v i, t) ∧ Seals V n sz cipher w v t := by
  obtain ⟨t, hrun, ht⟩ := V.readPage h.inner hi
  refine ⟨{ s with inner := t }, ?_, h.withInner ht⟩
  rw [AeadPageStore.readPage, Eff.get_bind, if_neg (not_not_intro h.pageSize.symm), V.pageSize_eq h.inner]
  cases hw : w i with
  | error e =>
    rw [hw] at hrun
    rw [h.page i hi, hw]
    exact Eff.bind_error (onInner_of hrun)
  | ok page =>
    rw [hw] at hrun
    rw [Eff.bind_ok (onInner_of hrun), Eff.get_bind, Eff.lift_apply, (h.withInner ht).decrypt_shown hi hw]

/-- Sealing takes a nonce. -/
theorem encryptPage (h : Seals V n sz cipher w v s) {i : Nat} {page : Bytes} (hl : page.length = sz) :
    ∃ sealedPage osRng, AeadPageStore.encryptPage i page s = (.ok sealedPage, { s with osRng }) ∧
      SealedAs cipher sz i page sealedPage := by
  obtain ⟨ciphertext, hsealed, hlen, -⟩ := h.undoes (s.osRng 0) (toLe 8 i) page hl
  refine ⟨_, fun k => s.osRng (k + 1), ?_, s.osRng 0, ciphertext, hsealed, hlen, rfl⟩
  rw [AeadPageStore.encryptPage, Eff.get_bind, if_neg (not_not_intro (hl.trans h.pageSize.symm)), Eff.modify_bind,
    h.cipher_eq, hsealed]
  rfl

theorem writePage (h : Seals V n sz cipher w v s) {i : Nat} {page : Bytes} (hi : i < n) (hl : page.length = sz) :
    ∃ t sealedPage, AeadPageStore.writePage i page s = (.ok (), t) ∧ SealedAs cipher sz i page sealedPage ∧
      Seals V n sz cipher (Function.update w i (.ok sealedPage)) (Function.update v i (.ok page)) t := by
  obtain ⟨sealedPage, osRng, hseal, hsealed⟩ := h.encryptPage (i := i) hl
  obtain ⟨t, hrun, ht⟩ := V.writePage h.inner hi hsealed.length
  refine ⟨{ s with inner := t, osRng }, sealedPage, ?_, hsealed, ht, h.pageSize, h.cipher_eq, h.undoes, fun j hj => ?_⟩
  · rw [AeadPageStore.writePage, Eff.bind_ok hseal]
    exact onInner_of hrun
  · by_cases hji : j = i
    · subst hji
      rw [Function.update_self, Function.update_self]
      exact (hsealed.opens h.undoes hl).symm
    · rw [Function.update_of_ne hji, Function.update_of_ne hji]
      exact h.page j hj

/-! ## Several pages -/

/-- The loop of `read_pages` opens the pages in order. -/
theorem decryptPages (h : Seals V n sz cipher w v s) {idxs : List Nat} {sealedPages : List Bytes}
    (hw : List.Forall₂ (fun i page => w i = .ok page) idxs sealedPages) (hi : ∀ i ∈ idxs, i < n) (t : AeadPageStore S) :
    Eff.forEach (fun x => Eff.lift (s.decryptPage x.1 x.2)) (idxs.zip sealedPages) t = (readAll v idxs, t) := by
  induction hw with
  | nil => rfl
  | @cons i page idxs sealedPages hpage _ ih =>
    have hrest := ih fun j hj => hi j (List.mem_cons_of_mem _ hj)
    have hone := h.decrypt_shown (hi i List.mem_cons_self) hpage
    rw [List.zip_cons_cons, readAll]
    cases hv : v i with
    | error e => exact Eff.forEach_error_head (by rw [Eff.lift_apply, hone, hv])
    | ok plain =>
      have hturn : (Eff.lift (s.decryptPage i page) : Eff Error (AeadPageStore S) Bytes) t = (.ok plain, t) := by
        rw [Eff.lift_apply, hone, hv]
      cases hall : readAll v idxs with
      | error e => exact Eff.forEach_error_tail hturn (hrest.trans (by rw [hall]))
      | ok pages => exact Eff.forEach_ok hturn (hrest.trans (by rw [hall]))

theorem readPages (h : Seals V n sz cipher w v s) {idxs : List Nat} (hi : ∀ i ∈ idxs, i < n) :
    ∃ t, AeadPageStore.readPages idxs s = (readAll v idxs, t) ∧ Seals V n sz cipher w v t := by
  obtain ⟨t, hrun, ht⟩ := V.readPages h.inner hi
  refine ⟨{ s with inner := t }, ?_, h.withInner ht⟩
  rw [AeadPageStore.readPages]
  cases hread : readAll w idxs with
  | error e =>
    rw [hread] at hrun
    obtain ⟨i, hmem, hw⟩ := readAll_error hread
    have hbelow : e = .aead := V.page_error h.inner i (hi i hmem) e hw
    have hshown : v i = .error e := by
      rw [h.page i (hi i hmem), hw]
      rfl
    rw [readAll_error_of (fun j hj e' he' => (h.page_error (hi j hj) he').trans hbelow.symm) hmem hshown]
    exact Eff.bind_error (onInner_of hrun)
  | ok sealedPages =>
    rw [hread] at hrun
    rw [Eff.bind_ok (onInner_of hrun), Eff.get_bind]
    exact (h.withInner ht).decryptPages (readAll_forall₂ hread) hi _

/-- The loop of `write_pages` takes a nonce for each page and seals it. -/
theorem encryptPages (h : Seals V n sz cipher w v s) {writes : List (Nat × Bytes)} (hl : ∀ x ∈ writes, x.2.length = sz) :
    ∃ sealedPages osRng, Eff.forEach (fun x => AeadPageStore.encryptPage x.1 x.2) writes s
        = (.ok sealedPages, { s with osRng }) ∧
      List.Forall₂ (fun x page => SealedAs cipher sz x.1 x.2 page) writes sealedPages := by
  induction writes generalizing s with
  | nil => exact ⟨[], s.osRng, rfl, .nil⟩
  | cons x writes ih =>
    obtain ⟨page, osRng, hseal, hpage⟩ := h.encryptPage (i := x.1) (hl x List.mem_cons_self)
    have hnext : Seals V n sz cipher w v { s with osRng } := ⟨h.inner, h.pageSize, h.cipher_eq, h.undoes, h.page⟩
    obtain ⟨sealedPages, osRng', hrest, hpages⟩ := ih hnext fun y hy => hl y (List.mem_cons_of_mem _ hy)
    exact ⟨page :: sealedPages, osRng', Eff.forEach_ok hseal hrest, .cons hpage hpages⟩

omit [PageStore S] in
/-- Writing sealed pages below is writing, above, what they open to. -/
theorem overwrite_sealed (hundoes : cipher.Undoes sz) {idxs : List Nat} {pages sealedPages : List Bytes}
    (hlen : idxs.length = pages.length) (hl : ∀ page ∈ pages, page.length = sz)
    (hsealed : List.Forall₂ (fun x page => SealedAs cipher sz x.1 x.2 page) (idxs.zip pages) sealedPages)
    {i : Nat} (h : v i = w i >>= openSealed cipher sz i) :
    overwrite v (idxs.zip (pages.map .ok)) i
      = overwrite w (idxs.zip (sealedPages.map .ok)) i >>= openSealed cipher sz i := by
  induction idxs generalizing pages sealedPages v w with
  | nil => exact h
  | cons j idxs ih =>
    cases pages with
    | nil => cases hlen
    | cons page pages =>
      rw [List.zip_cons_cons] at hsealed
      cases hsealed with
      | cons hpage hrest =>
        rename_i sealedPage sealedPages
        rw [List.map_cons, List.map_cons, List.zip_cons_cons, List.zip_cons_cons, overwrite_cons, overwrite_cons]
        refine ih (Nat.succ.inj hlen) (fun p hp => hl p (List.mem_cons_of_mem _ hp)) hrest ?_
        by_cases hij : i = j
        · subst hij
          rw [Function.update_self, Function.update_self]
          exact (hpage.opens hundoes (hl page List.mem_cons_self)).symm
        · rw [Function.update_of_ne hij, Function.update_of_ne hij]
          exact h

theorem writePages (h : Seals V n sz cipher w v s) {idxs : List Nat} {pages : List Bytes} (hi : ∀ i ∈ idxs, i < n)
    (hlen : idxs.length = pages.length) (hl : ∀ page ∈ pages, page.length = sz) :
    ∃ t sealedPages, AeadPageStore.writePages idxs pages s = (.ok (), t) ∧
      List.Forall₂ (fun x page => SealedAs cipher sz x.1 x.2 page) (idxs.zip pages) sealedPages ∧
      Seals V n sz cipher (overwrite w (idxs.zip (sealedPages.map .ok))) (overwrite v (idxs.zip (pages.map .ok))) t := by
  obtain ⟨sealedPages, osRng, hseal, hsealed⟩ := h.encryptPages fun x hx => hl x.2 (List.of_mem_zip hx).2
  have hsealedLen : idxs.length = sealedPages.length := by
    rw [← hsealed.length_eq, List.length_zip, ← hlen, Nat.min_self]
  have hsealedSize : ∀ page ∈ sealedPages, page.length = sz + aeadOverhead := by
    intro page hmem
    obtain ⟨k, hk, rfl⟩ := List.mem_iff_getElem.mp hmem
    exact (hsealed.get (hsealed.length_eq ▸ hk) hk).length
  obtain ⟨t, hrun, ht⟩ := V.writePages h.inner hi hsealedLen hsealedSize
  refine ⟨{ s with inner := t, osRng }, sealedPages, ?_, hsealed, ht, h.pageSize, h.cipher_eq, h.undoes, fun i hlt => ?_⟩
  · rw [AeadPageStore.writePages, if_neg (not_not_intro hlen), Eff.bind_ok hseal]
    exact onInner_of hrun
  · exact overwrite_sealed h.undoes hlen hl hsealed (h.page i hlt)

end Seals

/-- A sealed store over a store that shows its pages shows what they open to. -/
def view (V : PageView S) : PageView (AeadPageStore S) where
  Shows n sz v s := ∃ cipher w, Seals V n sz cipher w v s
  pageCount_eq := by
    rintro n sz v s ⟨cipher, w, h⟩
    exact V.pageCount_eq h.inner
  pageSize_eq := by
    rintro n sz v s ⟨cipher, w, h⟩
    exact h.pageSize
  page_length := by
    rintro n sz v s ⟨cipher, w, h⟩ i hi page hpage
    rw [h.page i hi] at hpage
    obtain ⟨_, -, hopen⟩ := bind_result_ok hpage
    exact openSealed_length hopen
  page_error := by
    rintro n sz v s ⟨cipher, w, h⟩ i hi e he
    exact h.page_error hi he
  readPage := by
    rintro n sz v s i ⟨cipher, w, h⟩ hi
    obtain ⟨t, hrun, ht⟩ := h.readPage hi
    exact ⟨t, hrun, cipher, w, ht⟩
  writePage := by
    rintro n sz v s i page ⟨cipher, w, h⟩ hi hl
    obtain ⟨t, sealedPage, hrun, -, ht⟩ := h.writePage hi hl
    exact ⟨t, hrun, cipher, _, ht⟩
  readPages := by
    rintro n sz v s idxs ⟨cipher, w, h⟩ hi
    obtain ⟨t, hrun, ht⟩ := h.readPages hi
    exact ⟨t, hrun, cipher, w, ht⟩
  writePages := by
    rintro n sz v s idxs pages ⟨cipher, w, h⟩ hi hlen hl
    obtain ⟨t, sealedPages, hrun, -, ht⟩ := h.writePages hi hlen hl
    exact ⟨t, hrun, cipher, _, ht⟩

theorem shows_iff :
    (view V).Shows n sz v s ↔
      ∃ w, V.Shows n (sz + aeadOverhead) w s.inner ∧ s.plaintextPageSize = sz ∧ s.WellSized ∧
        ∀ i < n, v i = s.page w i := by
  refine ⟨?_, ?_⟩
  · rintro ⟨cipher, w, h⟩
    obtain ⟨hinner, rfl, rfl, hundoes, hpage⟩ := h
    exact ⟨w, hinner, rfl, ⟨V.pageSize_eq hinner, hundoes⟩, hpage⟩
  · rintro ⟨w, hinner, rfl, ⟨-, hundoes⟩, hpage⟩
    exact ⟨s.cipher, w, hinner, rfl, rfl, hundoes, hpage⟩

/-- What wrapping a store sets up. -/
theorem new_wellSized {chaCha20Poly1305 : FixedBytes 32 → Cipher} {osRng : Nat → FixedBytes 12} {inner : S}
    {key : FixedBytes 32} (hundoes : (chaCha20Poly1305 key).Undoes sz) (hfits : sz + aeadOverhead < 2 ^ 64)
    (hnew : new chaCha20Poly1305 osRng inner key sz = .ok s) :
    s.WellSized ∧ s = { inner, cipher := chaCha20Poly1305 key, plaintextPageSize := sz, osRng } := by
  unfold new at hnew
  split at hnew
  · cases hnew
  · rename_i hsize
    cases hnew
    exact ⟨⟨(not_not.mp hsize).trans (usizeAdd_of_lt hfits), hundoes⟩, rfl⟩

/-- A store that was wrapped shows what the pages below open to. -/
theorem new_shows {chaCha20Poly1305 : FixedBytes 32 → Cipher} {osRng : Nat → FixedBytes 12} {inner : S} {key : FixedBytes 32}
    {sz' : Nat} (h : V.Shows n sz' w inner) (hundoes : (chaCha20Poly1305 key).Undoes sz) (hfits : sz + aeadOverhead < 2 ^ 64)
    (hnew : new chaCha20Poly1305 osRng inner key sz = .ok s) :
    Seals V n sz (chaCha20Poly1305 key) w (fun i => w i >>= openSealed (chaCha20Poly1305 key) sz i) s := by
  obtain ⟨hsized, rfl⟩ := new_wellSized hundoes hfits hnew
  obtain rfl : sz' = sz + aeadOverhead := (V.pageSize_eq h).symm.trans hsized.1
  exact ⟨h, rfl, rfl, hundoes, fun i _ => rfl⟩

end

end AeadPageStore

/-! ## A small cipher -/

/-- A tag that says the associated data. -/
def label (aad : Bytes) : FixedBytes 16 := .ofSlice 16 (1 :: aad) 0

/-- A cipher that only labels, for runs on small stores. -/
def labelCipher : Cipher where
  encrypt _ aad msg := some (msg ++ (label aad).val)
  decrypt _ aad msg := if msg.drop (msg.length - 16) = (label aad).val then some (msg.take (msg.length - 16)) else none

theorem labelCipher_undoes (len : Nat) : labelCipher.Undoes len := by
  intro nonce aad msg hl
  have htag := (label aad).property
  refine ⟨_, rfl, ?_, ?_⟩
  · rw [List.length_append, hl, htag]
  · have hlen : (msg ++ (label aad).val).length - 16 = msg.length := by
      rw [List.length_append, htag, Nat.add_sub_cancel]
    show (if (msg ++ (label aad).val).drop _ = _ then some _ else none) = _
    rw [hlen, List.drop_left, List.take_left, if_pos rfl]

end BpirOram
