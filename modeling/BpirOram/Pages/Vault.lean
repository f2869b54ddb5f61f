/-
  BpirOram.Pages.Vault — several sealed stores under one key, and an adversary who moves
  sealed pages between them.

  A sealed page carries its number as associated data and nothing of the store it is for.
  The adversary takes copies of the pages the disks hold, and puts any copy anywhere, of
  any age and in any store. The cipher is ideal: a page opens under no other associated
  data than it was sealed with, and the pages of the fresh disks do not open.
  - `Vault.opens_to_written`: what a store opens as page `i` was written to page `i`, of one
    of the stores.
  - `Vault.opens_across_stores`: that store may be another one.
-/

import BpirOram.Pages.Sealed
import BpirOram.Pages.File

namespace BpirOram

open Lib

/-- An ideal cipher for pages of `len` bytes under 8 bytes of associated data. -/
structure Cipher.Ideal (cipher : Cipher) (len : Nat) : Prop where
  undoes : cipher.Undoes len
  binds (nonce aad aad' msg ciphertext msg') : aad.length = 8 → aad'.length = 8 → msg.length = len →
    cipher.encrypt nonce aad msg = some ciphertext → cipher.decrypt nonce aad' ciphertext = some msg' → aad' = aad

variable {ι S : Type}

/-- The stores, and what has happened to them. -/
structure Vault (ι S : Type) where
  stores : ι → AeadPageStore S
  /-- The copies the adversary took. -/
  copies : List Bytes
  /-- Every page written: the store, its number, its bytes. -/
  written : List (ι × Nat × Bytes)

namespace Vault

inductive Event (ι : Type) where
  | writePage (a : ι) (i : Nat) (page : Bytes)
  | writePages (a : ι) (idxs : List Nat) (pages : List Bytes)
  | readPage (a : ι) (i : Nat)
  | readPages (a : ι) (idxs : List Nat)
  /-- The adversary copies a sealed page. -/
  | copy (a : ι) (i : Nat)
  /-- The adversary puts one of the copies somewhere. -/
  | plant (a : ι) (i k : Nat)

/-- Calls inside the stores. Runs leave out the others: a bulk write refused on the way may have
    written some of its pages. -/
def Event.Fits (n : ι → Nat) (sz : Nat) : Event ι → Prop
  | .writePage a i page => i < n a ∧ page.length = sz
  | .writePages a idxs pages => (∀ i ∈ idxs, i < n a) ∧ idxs.length = pages.length ∧ ∀ page ∈ pages, page.length = sz
  | .readPage a i => i < n a
  | .readPages a idxs => ∀ i ∈ idxs, i < n a
  | .copy a i => i < n a
  | .plant a i _ => i < n a

section
variable [DecidableEq ι] [PageStore S]

def put (v : Vault ι S) (a : ι) (s : AeadPageStore S) : Vault ι S := { v with stores := Function.update v.stores a s }

/-- Writes that succeeded. -/
def record (a : ι) (r : Result Unit) (writes : List (Nat × Bytes)) : List (ι × Nat × Bytes) :=
  if r.toOption.isSome then writes.map fun x => (a, x) else []

def step (v : Vault ι S) : Event ι → Vault ι S
  | .writePage a i page =>
    let run := PageStore.writePage i page (v.stores a)
    { v.put a run.2 with written := record a run.1 [(i, page)] ++ v.written }
  | .writePages a idxs pages =>
    let run := PageStore.writePages idxs pages (v.stores a)
    { v.put a run.2 with written := record a run.1 (idxs.zip pages) ++ v.written }
  | .readPage a i => v.put a (PageStore.readPage i (PageStore.pageSize (v.stores a)) (v.stores a)).2
  | .readPages a idxs => v.put a (PageStore.readPages idxs (v.stores a)).2
  | .copy a i =>
    let disk := (v.stores a).inner
    { v with copies := v.copies ++ (PageStore.readPage i (PageStore.pageSize disk) disk).1.toOption.toList }
  | .plant a i k =>
    (v.copies[k]?).elim v fun page =>
      v.put a { v.stores a with inner := (PageStore.writePage i page (v.stores a).inner).2 }

/-- Stores of one key and page size that were never written to. -/
structure Fresh (V : PageView S) (cipher : Cipher) (n : ι → Nat) (sz : Nat) (v : Vault ι S) : Prop where
  store (a) : ∃ w shown, AeadPageStore.Seals V (n a) sz cipher w shown (v.stores a) ∧
    ∀ i < n a, ∀ page, w i = .ok page → ∀ j plaintext, AeadPageStore.openSealed cipher sz j page ≠ .ok plaintext
  copies : v.copies = []
  written : v.written = []

inductive Reachable (V : PageView S) (cipher : Cipher) (n : ι → Nat) (sz : Nat) : Vault ι S → Prop
  | fresh {v} : Fresh V cipher n sz v → Reachable V cipher n sz v
  | step {v e} : Reachable V cipher n sz v → Event.Fits n sz e → Reachable V cipher n sz (v.step e)

/-! ## Sealed pages and where they come from -/

variable {V : PageView S} {cipher : Cipher} {n : ι → Nat} {sz : Nat} {v : Vault ι S}

omit [DecidableEq ι] [PageStore S] in
/-- A sealed page opens under its own number alone. -/
theorem opens_as_sealed (hideal : cipher.Ideal sz) {i j : Nat} {page sealedPage plaintext : Bytes} (hi : i < 2 ^ 64)
    (hj : j < 2 ^ 64) (hl : page.length = sz) (hsealed : AeadPageStore.SealedAs cipher sz i page sealedPage)
    (hopen : AeadPageStore.openSealed cipher sz j sealedPage = .ok plaintext) : j = i ∧ plaintext = page := by
  have hself := hsealed.opens hideal.undoes hl
  obtain ⟨nonce, ciphertext, hencrypt, -, rfl⟩ := hsealed
  have hj' : toLe 8 j = toLe 8 i := by
    rw [AeadPageStore.openSealed_append] at hopen
    cases hdecrypt : cipher.decrypt nonce (toLe 8 j) ciphertext with
    | none =>
      rw [hdecrypt] at hopen
      cases hopen
    | some msg =>
      exact hideal.binds nonce _ _ page ciphertext msg (toLe_length 8 i) (toLe_length 8 j) hl hencrypt hdecrypt
  have heq : j = i := by
    rw [← ofLe_toLe 8 j hj, hj', ofLe_toLe 8 i hi]
  subst heq
  exact ⟨rfl, Except.ok.inj (hopen.symm.trans hself)⟩

/-- Whatever a sealed page opens to was written, under the number it opens under. -/
def Genuine (cipher : Cipher) (sz : Nat) (written : List (ι × Nat × Bytes)) (page : Bytes) : Prop :=
  ∀ i < 2 ^ 64, ∀ plaintext, AeadPageStore.openSealed cipher sz i page = .ok plaintext →
    ∃ b, (b, i, plaintext) ∈ written

omit [DecidableEq ι] in
theorem Genuine.mono {written written' : List (ι × Nat × Bytes)} {page : Bytes} (h : Genuine cipher sz written page)
    (hsub : written ⊆ written') : Genuine cipher sz written' page := by
  intro i hi plaintext hopen
  obtain ⟨b, hb⟩ := h i hi plaintext hopen
  exact ⟨b, hsub hb⟩

omit [DecidableEq ι] in
theorem genuine_of_sealed (hideal : cipher.Ideal sz) {written : List (ι × Nat × Bytes)} {a : ι} {i : Nat}
    {page sealedPage : Bytes} (hi : i < 2 ^ 64) (hl : page.length = sz)
    (hsealed : AeadPageStore.SealedAs cipher sz i page sealedPage) (hwritten : (a, i, page) ∈ written) :
    Genuine cipher sz written sealedPage := by
  intro j hj plaintext hopen
  obtain ⟨rfl, rfl⟩ := opens_as_sealed hideal hi hj hl hsealed hopen
  exact ⟨a, hwritten⟩

/-- A store whose disk holds genuine pages alone. -/
def StoreOk (V : PageView S) (cipher : Cipher) (n sz : Nat) (written : List (ι × Nat × Bytes)) (s : AeadPageStore S) : Prop :=
  ∃ w shown, AeadPageStore.Seals V n sz cipher w shown s ∧ ∀ i < n, ∀ page, w i = .ok page →
    Genuine cipher sz written page

omit [DecidableEq ι] [PageStore S] in
/-- A sealed page of a bulk write is that of a page written there. -/
theorem sealed_of_mem {idxs : List Nat} {pages sealedPages : List Bytes} (hlen : idxs.length = pages.length)
    (hsealed : List.Forall₂ (fun x page => AeadPageStore.SealedAs cipher sz x.1 x.2 page) (idxs.zip pages) sealedPages)
    {i : Nat} {sealedPage : Bytes} (h : (i, Except.ok (ε := Error) sealedPage) ∈ idxs.zip (sealedPages.map .ok)) :
    ∃ page, (i, page) ∈ idxs.zip pages ∧ AeadPageStore.SealedAs cipher sz i page sealedPage := by
  induction idxs generalizing pages sealedPages with
  | nil => cases h
  | cons j idxs ih =>
    cases pages with
    | nil => cases hlen
    | cons page pages =>
      cases hsealed with
      | @cons _ first _ rest hpage hrest =>
        rcases List.mem_cons.mp h with heq | h
        · cases heq
          exact ⟨page, List.mem_cons_self, hpage⟩
        · obtain ⟨p, hp, hps⟩ := ih (Nat.succ.inj hlen) hrest h
          exact ⟨p, List.mem_cons_of_mem _ hp, hps⟩

structure Inv (V : PageView S) (cipher : Cipher) (n : ι → Nat) (sz : Nat) (v : Vault ι S) : Prop where
  store (a) : StoreOk V cipher (n a) sz v.written (v.stores a)
  copies : ∀ page ∈ v.copies, page.length = sz + aeadOverhead ∧ Genuine cipher sz v.written page

theorem Inv.put (h : Inv V cipher n sz v) {a : ι} {s : AeadPageStore S} (writes : List (ι × Nat × Bytes))
    (hs : StoreOk V cipher (n a) sz (writes ++ v.written) s) :
    Inv V cipher n sz { v.put a s with written := writes ++ v.written } := by
  have hsub : v.written ⊆ writes ++ v.written := List.subset_append_right _ _
  refine ⟨fun b => ?_, fun page hpage => ⟨(h.copies page hpage).1, (h.copies page hpage).2.mono hsub⟩⟩
  show StoreOk V cipher (n b) sz (writes ++ v.written) (Function.update v.stores a s b)
  by_cases hb : b = a
  · subst hb
    rwa [Function.update_self]
  · rw [Function.update_of_ne hb]
    obtain ⟨w, shown, hseals, hgenuine⟩ := h.store b
    exact ⟨w, shown, hseals, fun i hi page hpage => (hgenuine i hi page hpage).mono hsub⟩

/-! ## What one event keeps -/

theorem step_inv (hideal : cipher.Ideal sz) (hn : ∀ a, n a ≤ 2 ^ 64) {e : Event ι} (h : Inv V cipher n sz v)
    (hfits : e.Fits n sz) : Inv V cipher n sz (v.step e) := by
  cases e with
  | writePage a i page =>
    obtain ⟨hi, hl⟩ := hfits
    obtain ⟨w, shown, hseals, hgenuine⟩ := h.store a
    obtain ⟨t, sealedPage, hrun, hsealed, ht⟩ := hseals.writePage hi hl
    have hpage : PageStore.writePage i page (v.stores a) = (.ok (), t) := hrun
    show Inv V cipher n sz { v.put a (PageStore.writePage i page (v.stores a)).2 with
      written := record a (PageStore.writePage i page (v.stores a)).1 [(i, page)] ++ v.written }
    rw [hpage]
    refine h.put _ ⟨_, _, ht, fun j hj p hp => ?_⟩
    by_cases hji : j = i
    · subst hji
      rw [Function.update_self] at hp
      cases hp
      exact genuine_of_sealed hideal (Nat.lt_of_lt_of_le hj (hn a)) hl hsealed List.mem_cons_self
    · rw [Function.update_of_ne hji] at hp
      exact (hgenuine j hj p hp).mono (List.subset_append_right _ _)
  | writePages a idxs pages =>
    obtain ⟨hi, hlen, hl⟩ := hfits
    obtain ⟨w, shown, hseals, hgenuine⟩ := h.store a
    obtain ⟨t, sealedPages, hrun, hsealed, ht⟩ := hseals.writePages hi hlen hl
    have hpages : PageStore.writePages idxs pages (v.stores a) = (.ok (), t) := hrun
    show Inv V cipher n sz { v.put a (PageStore.writePages idxs pages (v.stores a)).2 with
      written := record a (PageStore.writePages idxs pages (v.stores a)).1 (idxs.zip pages) ++ v.written }
    rw [hpages]
    refine h.put _ ⟨_, _, ht, fun j hj p hp => ?_⟩
    rcases overwrite_cases w (idxs.zip (sealedPages.map .ok)) j with hold | hwritten
    · rw [hold] at hp
      exact (hgenuine j hj p hp).mono (List.subset_append_right _ _)
    · rw [hp] at hwritten
      obtain ⟨page, hmem, hpage⟩ := sealed_of_mem hlen hsealed hwritten
      have hnew : (a, j, page) ∈ record a (.ok ()) (idxs.zip pages) ++ v.written :=
        List.mem_append_left _ (List.mem_map.mpr ⟨(j, page), hmem, rfl⟩)
      exact genuine_of_sealed hideal (Nat.lt_of_lt_of_le hj (hn a)) (hl page (List.of_mem_zip hmem).2) hpage hnew
  | readPage a i =>
    obtain ⟨w, shown, hseals, hgenuine⟩ := h.store a
    obtain ⟨t, hrun, ht⟩ := hseals.readPage hfits
    have hpage : PageStore.readPage i (PageStore.pageSize (v.stores a)) (v.stores a) = (shown i, t) := by
      rw [show PageStore.pageSize (v.stores a) = sz from hseals.pageSize]
      exact hrun
    show Inv V cipher n sz (v.put a (PageStore.readPage i (PageStore.pageSize (v.stores a)) (v.stores a)).2)
    rw [hpage]
    exact h.put [] ⟨w, shown, ht, hgenuine⟩
  | readPages a idxs =>
    obtain ⟨w, shown, hseals, hgenuine⟩ := h.store a
    obtain ⟨t, hrun, ht⟩ := hseals.readPages hfits
    have hpages : PageStore.readPages idxs (v.stores a) = (readAll shown idxs, t) := hrun
    show Inv V cipher n sz (v.put a (PageStore.readPages idxs (v.stores a)).2)
    rw [hpages]
    exact h.put [] ⟨w, shown, ht, hgenuine⟩
  | copy a i =>
    obtain ⟨w, shown, hseals, hgenuine⟩ := h.store a
    obtain ⟨t, hrun, -⟩ := V.readPage hseals.inner hfits
    refine ⟨h.store, fun page hpage => ?_⟩
    rcases List.mem_append.mp hpage with hold | hnew
    · exact h.copies page hold
    · rw [V.pageSize_eq hseals.inner, hrun, Option.mem_toList] at hnew
      cases hw : w i with
      | error e =>
        rw [hw] at hnew
        cases hnew
      | ok p =>
        rw [hw] at hnew
        obtain rfl : p = page := Option.some.inj hnew
        exact ⟨V.page_length hseals.inner i hfits p hw, hgenuine i hfits p hw⟩
  | plant a i k =>
    show Inv V cipher n sz ((v.copies[k]?).elim v fun page =>
      v.put a { v.stores a with inner := (PageStore.writePage i page (v.stores a).inner).2 })
    cases hk : v.copies[k]? with
    | none => exact h
    | some page =>
      obtain ⟨hlen, hcopy⟩ := h.copies page (List.mem_of_getElem? hk)
      obtain ⟨w, shown, hseals, hgenuine⟩ := h.store a
      obtain ⟨t, hrun, ht⟩ := V.writePage hseals.inner hfits hlen
      rw [Option.elim_some, hrun]
      refine h.put [] ⟨Function.update w i (.ok page), _,
        ⟨ht, hseals.pageSize, hseals.cipher_eq, hideal.undoes, fun _ _ => rfl⟩, fun j hj p hp => ?_⟩
      by_cases hji : j = i
      · subst hji
        rw [Function.update_self] at hp
        cases hp
        exact hcopy
      · rw [Function.update_of_ne hji] at hp
        exact hgenuine j hj p hp

/-! ## Every run -/

theorem Reachable.inv (hideal : cipher.Ideal sz) (hn : ∀ a, n a ≤ 2 ^ 64) (h : Reachable V cipher n sz v) :
    Inv V cipher n sz v := by
  induction h with
  | fresh hfresh =>
    refine ⟨fun a => ?_, fun page hpage => ?_⟩
    · obtain ⟨w, shown, hseals, hclosed⟩ := hfresh.store a
      refine ⟨w, shown, hseals, fun i hi page hpage j _ plaintext hopen => ?_⟩
      exact absurd hopen (hclosed i hi page hpage j plaintext)
    · rw [hfresh.copies] at hpage
      cases hpage
  | step _ hfits ih => exact step_inv hideal hn ih hfits

/-- A page that is read was written under its number, to one of the stores of the key. -/
theorem opens_to_written (hideal : cipher.Ideal sz) (hn : ∀ a, n a ≤ 2 ^ 64) (h : Reachable V cipher n sz v) {a : ι}
    {i : Nat} (hi : i < n a) {page : Bytes} (hread : (PageStore.readPage i sz (v.stores a)).1 = .ok page) :
    ∃ b, (b, i, page) ∈ v.written := by
  obtain ⟨w, shown, hseals, hgenuine⟩ := (h.inv hideal hn).store a
  obtain ⟨t, hrun, -⟩ := hseals.readPage hi
  have hshown : shown i = .ok page := (congrArg Prod.fst hrun).symm.trans hread
  rw [hseals.page i hi] at hshown
  obtain ⟨sealedPage, hw, hopen⟩ := bind_result_ok hshown
  exact hgenuine i hi sealedPage hw i (Nat.lt_of_lt_of_le hi (hn a)) page hopen

end

/-! ## A page moved between two stores -/

theorem labelCipher_ideal (len : Nat) : labelCipher.Ideal len := by
  refine ⟨labelCipher_undoes len, ?_⟩
  intro nonce aad aad' msg ciphertext msg' haad haad' _ hencrypt hdecrypt
  cases hencrypt
  have hlabel : (label aad).val = (label aad').val := by
    change (if (msg ++ (label aad).val).drop _ = _ then some _ else none) = _ at hdecrypt
    split at hdecrypt
    · rename_i heq
      rwa [List.length_append, (label aad).property, Nat.add_sub_cancel, List.drop_left] at heq
    · cases hdecrypt
  -- the associated data are the bytes behind the first
  have hback : ∀ bytes : Bytes, bytes.length = 8 → ((label bytes).val.drop 1).take 8 = bytes := by
    intro bytes hlen
    show ((((1 :: bytes) ++ List.replicate 16 0).take 16).drop 1).take 8 = bytes
    rw [List.drop_take, List.take_take]
    show ((bytes ++ List.replicate 16 0).take 8) = bytes
    rw [← hlen, List.take_left]
  rw [← hback aad haad, hlabel, hback aad' haad']

/-- A page of zeros has no label. -/
theorem zeros_closed (j : Nat) (plaintext : Bytes) :
    AeadPageStore.openSealed labelCipher 4 j (List.replicate 32 0) ≠ .ok plaintext := by
  intro hopen
  have hlabel : (label (toLe 8 j)).val[0]? = some 1 := rfl
  have hnone : labelCipher.decrypt (.ofSlice 12 (List.replicate 32 0) 0) (toLe 8 j) ((List.replicate 32 0).drop 12) = none := by
    show (if List.replicate 16 0 = (label (toLe 8 j)).val then some (List.replicate 4 0) else none) = none
    rw [if_neg]
    intro heq
    rw [← heq] at hlabel
    cases hlabel
  rw [AeadPageStore.openSealed, hnone] at hopen
  cases hopen

/-- A new file for one sealed page of 4 bytes. -/
def freshFile : FilePageStore := (FilePageStore.«open» ⟨[], []⟩ 1 32).toOption.get (by decide +kernel)

def freshImage : AeadPageStore FilePageStore :=
  (AeadPageStore.new (fun _ => labelCipher) (fun _ => .zero 12) freshFile (.zero 32) 4).toOption.get (by decide +kernel)

/-- Two images under one key. -/
def twoImages : Vault Bool FilePageStore := { stores := fun _ => freshImage, copies := [], written := [] }

theorem twoImages_fresh : Fresh FilePageStore.view labelCipher (fun _ => 1) 4 twoImages := by
  refine ⟨fun a => ?_, rfl, rfl⟩
  obtain ⟨hsized, hcount, hsize⟩ := FilePageStore.open_wellSized (s := freshFile) (toOption_get (by decide +kernel))
  have hfits : freshFile.Fits := by
    rw [FilePageStore.Fits, hcount, hsize]
    decide
  have hshows : FilePageStore.view.Shows 1 32 (fun i => .ok (freshFile.page i)) freshFile :=
    FilePageStore.shows_iff.mpr ⟨hsized, hfits, hcount, hsize, fun _ _ => rfl⟩
  have hnew : AeadPageStore.new (fun _ => labelCipher) (fun _ => .zero 12) freshFile (.zero 32) 4 = .ok freshImage :=
    toOption_get _
  refine ⟨_, _, AeadPageStore.new_shows hshows (labelCipher_undoes 4) (by decide) hnew, fun i hi page hpage => ?_⟩
  obtain rfl : i = 0 := Nat.lt_one_iff.mp hi
  have hzeros : freshFile.page 0 = List.replicate 32 0 := by decide +kernel
  rw [hzeros] at hpage
  cases hpage
  exact zeros_closed

/-- The page of one image is put in the other. -/
def movedPage : Vault Bool FilePageStore :=
  ((twoImages.step (.writePage true 0 [1, 2, 3, 4])).step (.copy true 0)).step (.plant false 0 0)

theorem movedPage_reachable : Reachable FilePageStore.view labelCipher (fun _ => 1) 4 movedPage :=
  .step (.step (.step (.fresh twoImages_fresh) ⟨Nat.one_pos, rfl⟩) Nat.one_pos) Nat.one_pos

theorem opens_to_written_moved : ∃ b, (b, 0, [1, 2, 3, 4]) ∈ movedPage.written :=
  opens_to_written (labelCipher_ideal 4) (fun _ => by decide) movedPage_reachable (a := false) Nat.one_pos
    (by decide +kernel)

/-- The cipher is ideal and the run is one of moves alone, but the store that opens the page
    is not the one it was written to. -/
theorem opens_across_stores :
    labelCipher.Ideal 4 ∧ Reachable FilePageStore.view labelCipher (fun _ => 1) 4 movedPage ∧
      (PageStore.readPage 0 4 (movedPage.stores false)).1 = .ok [1, 2, 3, 4] ∧
      (false, 0, [1, 2, 3, 4]) ∉ movedPage.written :=
  ⟨labelCipher_ideal 4, movedPage_reachable, by decide +kernel, by decide +kernel⟩

end Vault
end BpirOram
