/-
  BpirOram.Deploy.Alike — a controller in service beside the one that was built.

  After the build the images get their authentication, if any, and the saved controller is
  opened on them; from then on it serves, is saved and is opened again.
  - `reopens`: files with what two stores left open again, as the same pages under the same roots.
  - `Alike.serves_alike`: whatever the layout, however often it is opened again, every call on the
    controller in service returns what it would on the plain images, and the files always open.
-/

import BpirOram.Deploy.Open
import BpirOram.Circuit.Reopen

namespace BpirOram

open Lib

def StoreKind.authStore : StoreKind → Bool
  | .plain => false
  | .sidecar => true
  | .embedded => true

/-! ## Opening again -/

section
variable {S H : Type} [PageStore S] [PageStore H] (HS : HonestStore S) (HH : HonestStore H)

/-- The files of a store have what it left. -/
inductive Kept (n sz : Nat) (image : Nat → Nat → Result S) (hashImage : Nat → Nat → Result H) :
    CircuitReopenPageStore S H → Prop
  | plain {store s' : S} : image n (authPlaintextPageBytes sz .sidecar) = .ok s' → Copies HS store s' →
      Kept n sz image hashImage (.plain store)
  | sidecar {store : TieredMerklePageStore S H} {s' : S} {h' : H} : image n (authPlaintextPageBytes sz .sidecar) = .ok s' →
      Copies HS store.inner s' → openHashStoreForAuth hashImage store.trustedState = .ok h' → Copies HH store.hashStore h' →
      Kept n sz image hashImage (.sidecar store)
  | embedded {store : EmbeddedTreePageStore S} {s' : S} : image n (authPlaintextPageBytes sz .embeddedTree) = .ok s' →
      Copies HS store.inner s' → Kept n sz image hashImage (.embedded store)

/-- The files of a controller have what its stores left. -/
structure KeptBoth (p : OramParams) (files : CircuitFiles S H) (m q : CircuitReopenPageStore S H) : Prop where
  metaStore : Kept HS HH p.bucketCount (circuitMetaPageBytes p.bucketSize) files.metaImage files.metaHashImage m
  payloadStore : Kept HS HH p.bucketCount (circuitPayloadPageBytes p.bucketSize p.blockSize) files.payloadImage
    files.payloadHashImage q

variable {HS HH} [Sha256] {storeId : CircuitAuthStoreKind → FixedBytes 16} {p : OramParams} {kind : StoreKind}
  {c d : Nat → Bytes} {m q : CircuitReopenPageStore S H} {files : CircuitFiles S H}

variable (HS HH storeId p kind c d) in
/-- Both stores of a controller, of one kind, and their pages. -/
structure Stored (m q : CircuitReopenPageStore S H) : Prop where
  metaStore : (CircuitReopenPageStore.contract HS HH (storeId .metaStore) kind p.bucketCount
    (circuitMetaPageBytes p.bucketSize)).Rep c m
  payloadStore : (CircuitReopenPageStore.contract HS HH (storeId .payloadStore) kind p.bucketCount
    (circuitPayloadPageBytes p.bucketSize p.blockSize)).Rep d q

omit [PageStore S] [PageStore H] [Sha256] in
theorem openCircuitPhysicalFileStores_ok {authLayout : AuthLayoutArg} {s t : S}
    (hs : files.metaImage p.bucketCount (authPlaintextPageBytes (circuitMetaPageBytes p.bucketSize) authLayout) = .ok s)
    (ht : files.payloadImage p.bucketCount
      (authPlaintextPageBytes (circuitPayloadPageBytes p.bucketSize p.blockSize) authLayout) = .ok t) :
    openCircuitPhysicalFileStores p authLayout files = .ok (s, t) := by
  unfold openCircuitPhysicalFileStores
  rw [hs]
  simp only [bind, Except.bind, ht]

/-- Files with what two stores left open as stores with their pages and their roots. -/
theorem reopens (label : String) (hS : ∀ s : S, PageStore.tieredMerkleState s = none) (h : Stored HS HH storeId p kind c d m q)
    (hk : KeptBoth HS HH p files m q) :
    ∃ m' q', openFileStoresForReopen storeId label p kind.authStore (storeAuthStateFromStores m q) files = .ok (m', q') ∧
      Stored HS HH storeId p kind c d m' q' ∧ storeAuthStateFromStores m' q' = storeAuthStateFromStores m q := by
  obtain ⟨hm, hq⟩ := h
  obtain ⟨hkm, hkq⟩ := hk
  cases hkm with
  | plain hopen hcopy =>
    obtain ⟨rfl, d₁, hd₁, hdc₁⟩ := hm
    cases hkq with
    | plain hopen' hcopy' =>
      obtain ⟨-, d₂, hd₂, hdc₂⟩ := hq
      refine ⟨.plain _, .plain _, ?_,
        ⟨⟨rfl, d₁, hcopy _ _ _ hd₁, hdc₁⟩, rfl, d₂, hcopy' _ _ _ hd₂, hdc₂⟩, ?_⟩
      · unfold openFileStoresForReopen
        rw [if_neg (by decide), openCircuitPhysicalFileStores_ok hopen hopen']
        rfl
      · unfold storeAuthStateFromStores
        simp only [PathPageStore.tieredMerkleState, hS]
        rfl
    | sidecar => cases hq.1
    | embedded => cases hq.1
  | sidecar hopen hcopy hhash hcopyHash =>
    obtain ⟨rfl, d₁, hd₁, hdc₁⟩ := hm
    cases hkq with
    | plain => cases hq.1
    | sidecar hopen' hcopy' hhash' hcopyHash' =>
      obtain ⟨-, d₂, hd₂, hdc₂⟩ := hq
      obtain ⟨m', hm', hrep, hstate⟩ := hd₁.reopen hcopy hcopyHash
      obtain ⟨q', hq', hrep', hstate'⟩ := hd₂.reopen hcopy' hcopyHash'
      refine ⟨.sidecar m', .sidecar q', ?_, ⟨⟨rfl, d₁, hrep, hdc₁⟩, rfl, d₂, hrep', hdc₂⟩, ?_⟩
      · show openSidecarFileStores storeId label p _ _ files = _
        unfold openSidecarFileStores
        rw [openCircuitPhysicalFileStores_ok hopen hopen']
        simp only [bind, Except.bind, hhash, hhash', hm', hq']
        rw [if_neg (by rw [hrep.storeId, hrep'.storeId]; simp)]
      · show some (CircuitStoreAuthState.new m'.trustedState q'.trustedState) = some (.new _ _)
        rw [hstate, hstate']
    | embedded => cases hq.1
  | embedded hopen hcopy =>
    obtain ⟨rfl, hm⟩ := hm
    cases hkq with
    | plain => cases hq.1
    | sidecar => cases hq.1
    | embedded hopen' hcopy' =>
      obtain ⟨-, hq⟩ := hq
      obtain ⟨m', hm', hrep, hstate⟩ := EmbeddedTreePageStore.Represents.reopen hm hcopy
      obtain ⟨q', hq', hrep', hstate'⟩ := EmbeddedTreePageStore.Represents.reopen hq hcopy'
      refine ⟨.embedded m', .embedded q', ?_, ⟨⟨rfl, hrep⟩, rfl, hrep'⟩, ?_⟩
      · show openEmbeddedFileStores storeId label p _ _ files = _
        unfold openEmbeddedFileStores
        rw [openCircuitPhysicalFileStores_ok hopen hopen']
        simp only [bind, Except.bind, hm', hq']
        rw [if_neg]
        have hid : _ = storeId .metaStore := hm.storeId
        have hid' : _ = storeId .payloadStore := hq.storeId
        simp [EmbeddedTreePageStore.state, hid, hid']
      · show some (CircuitStoreAuthState.newEmbedded m'.state q'.state) = some (.newEmbedded _ _)
        rw [hstate, hstate']

/-! ## Authenticating new images -/

variable (HS HH p c d) in
/-- The images have the pages of a controller that was just built, and its hash files open. -/
structure Imaged (authLayout : AuthLayoutArg) (files : CircuitFiles S H) : Prop where
  metaImage : ∃ s,
    files.metaImage p.bucketCount (authPlaintextPageBytes (circuitMetaPageBytes p.bucketSize) authLayout) = .ok s ∧
    Image HS authLayout p.bucketCount (circuitMetaPageBytes p.bucketSize) c s
  payloadImage : ∃ s, files.payloadImage p.bucketCount
      (authPlaintextPageBytes (circuitPayloadPageBytes p.bucketSize p.blockSize) authLayout) = .ok s ∧
    Image HS authLayout p.bucketCount (circuitPayloadPageBytes p.bucketSize p.blockSize) d s
  metaHashImage : ∀ n sz h, files.metaHashImage n sz = .ok h → ∃ d', HH.Holds n sz d' h
  payloadHashImage : ∀ n sz h, files.payloadHashImage n sz = .ok h → ∃ d', HH.Holds n sz d' h

/-- One half of a sidecar build. -/
theorem sidecar_built {id : FixedBytes 16} {n sz k hsz levels : Nat} {s : S} {hash zeroed : H} {t t' : TieredMerklePageStore S H}
    {u w : Unit} (hi : Image HS .sidecar n sz c s) (hh : ∃ d', HH.Holds k hsz d' hash) (hfs : HS.KeptByFlush)
    (hfh : HH.KeptByFlush)
    (hzero : runOwned zeroPageStore hash = .ok (u, zeroed)) (hbuild : TieredMerklePageStore.build s zeroed id levels = .ok t)
    (hflush : runOwned PageStore.flush t = .ok (w, t')) :
    ((TieredMerklePageStore.honest HS HH id).contract n sz).Rep c t' := by
  obtain ⟨d', hd'⟩ := (zeroPageStore_keeps hfh).ok hh (runOwned_ok hzero)
  obtain ⟨c', hrep, hc'⟩ := TieredMerklePageStore.build_represents hi hd' hbuild
  exact ⟨c', (TieredMerklePageStore.Represents.flush hfs hfh).ok hrep (runOwned_ok hflush), hc'⟩

variable {trustedLevels hashPageSize : Nat} {auth : CircuitStoreAuthState}

theorem buildCircuitSidecarStoreAuth_stored (hi : Imaged HS HH p c d .sidecar files) (hfs : HS.KeptByFlush) (hfh : HH.KeptByFlush)
    (h : buildCircuitSidecarStoreAuth storeId p trustedLevels hashPageSize files = .ok (m, q, auth)) :
    Stored HS HH storeId p .sidecar c d m q ∧ storeAuthStateFromStores m q = some auth := by
  obtain ⟨s, hs, himage⟩ := hi.metaImage
  obtain ⟨s', hs', himage'⟩ := hi.payloadImage
  unfold buildCircuitSidecarStoreAuth at h
  rw [openCircuitPhysicalFileStores_ok hs hs'] at h
  simp only [bind, Except.bind] at h
  obtain ⟨pages, -, h⟩ := bind_result_ok h
  obtain ⟨pages', -, h⟩ := bind_result_ok h
  obtain ⟨hash, hhash, h⟩ := bind_result_ok h
  obtain ⟨hash', hhash', h⟩ := bind_result_ok h
  obtain ⟨⟨u, zeroed⟩, hzero, h⟩ := bind_result_ok h
  obtain ⟨⟨u', zeroed'⟩, hzero', h⟩ := bind_result_ok h
  obtain ⟨t, ht, h⟩ := bind_result_ok h
  obtain ⟨t', ht', h⟩ := bind_result_ok h
  obtain ⟨⟨w, flushed⟩, hflush, h⟩ := bind_result_ok h
  obtain ⟨⟨w', flushed'⟩, hflush', h⟩ := bind_result_ok h
  cases h
  exact ⟨⟨⟨rfl, sidecar_built himage (hi.metaHashImage _ _ _ hhash) hfs hfh hzero ht hflush⟩,
    rfl, sidecar_built himage' (hi.payloadHashImage _ _ _ hhash') hfs hfh hzero' ht' hflush'⟩, rfl⟩

theorem buildCircuitEmbeddedStoreAuth_stored (hi : Imaged HS HH p c d .embeddedTree files) (hfs : HS.KeptByFlush)
    (h : buildCircuitEmbeddedStoreAuth storeId p files = .ok (m, q, auth)) :
    Stored HS HH storeId p .embedded c d m q ∧ storeAuthStateFromStores m q = some auth := by
  obtain ⟨s, hs, himage⟩ := hi.metaImage
  obtain ⟨s', hs', himage'⟩ := hi.payloadImage
  unfold buildCircuitEmbeddedStoreAuth at h
  rw [openCircuitPhysicalFileStores_ok hs hs'] at h
  simp only [bind, Except.bind] at h
  obtain ⟨t, ht, h⟩ := bind_result_ok h
  obtain ⟨t', ht', h⟩ := bind_result_ok h
  obtain ⟨⟨w, flushed⟩, hflush, h⟩ := bind_result_ok h
  obtain ⟨⟨w', flushed'⟩, hflush', h⟩ := bind_result_ok h
  cases h
  have hmeta := (EmbeddedTreePageStore.Represents.flush hfs).ok (EmbeddedTreePageStore.build_represents himage ht)
    (runOwned_ok hflush)
  have hpayload := (EmbeddedTreePageStore.Represents.flush hfs).ok (EmbeddedTreePageStore.build_represents himage' ht')
    (runOwned_ok hflush')
  exact ⟨⟨⟨rfl, hmeta⟩, rfl, hpayload⟩, rfl⟩

def StoreKind.ofLayout : AuthLayoutArg → StoreKind
  | .sidecar => .sidecar
  | .embeddedTree => .embedded

/-- Authentication that was built has the pages of the images, and the state is that of the stores. -/
theorem buildCircuitStoreAuth_stored {authLayout : AuthLayoutArg} (hi : Imaged HS HH p c d authLayout files)
    (hfs : HS.KeptByFlush) (hfh : HH.KeptByFlush)
    (h : buildCircuitStoreAuth storeId p authLayout trustedLevels hashPageSize files = .ok (m, q, auth)) :
    Stored HS HH storeId p (.ofLayout authLayout) c d m q ∧ storeAuthStateFromStores m q = some auth := by
  cases authLayout with
  | sidecar => exact buildCircuitSidecarStoreAuth_stored hi hfs hfh h
  | embeddedTree => exact buildCircuitEmbeddedStoreAuth_stored hi hfs h

/-- Plain images opened on the pages of a new controller. -/
theorem openPlain_stored (hi : Imaged HS HH p c d .sidecar files)
    {label : String} {boundAuth : Option CircuitStoreAuthState}
    (h : openFileStoresForReopen storeId label p false boundAuth files = .ok (m, q)) :
    Stored HS HH storeId p .plain c d m q := by
  obtain ⟨s, hs, himage⟩ := hi.metaImage
  obtain ⟨s', hs', himage'⟩ := hi.payloadImage
  unfold openFileStoresForReopen at h
  rw [if_neg (by decide), openCircuitPhysicalFileStores_ok hs hs'] at h
  cases h
  exact ⟨⟨rfl, himage.pages⟩, rfl, himage'.pages⟩

end

/-! ## In service -/

section
variable {M P B S H ρ : Type} [PageStore M] [PageStore P] [TrustedBlockSource B] [PageStore S] [PageStore H] [Sha256] [Rng ρ]

/-- A controller as it was built, and the one that is in service for it. Between its calls the
    latter may be flushed, and opened again from what it left. -/
inductive Alike (p : OramParams) (HM : HonestStore M) (HP : HonestStore P) (HB : HonestSource B) (HS : HonestStore S)
    (HH : HonestStore H) (storeId : CircuitAuthStoreKind → FixedBytes 16) (label : String) :
    Bool → CircuitOram M P ρ → CircuitOram (CircuitReopenPageStore S H) (CircuitReopenPageStore S H) ρ → Prop
  | plain {built s t v m q} {files : CircuitFiles S H} : Reached p HM HP HB (fun _ _ => True) built v →
      CircuitOram.flush built = (.ok (), s) →
      (∀ c d, (HM.metaContract p).Rep c s.metaStore → (HP.payloadContract p).Rep d s.payloadStore →
        Imaged HS HH p c d .sidecar files) →
      openFileStoresForReopen storeId label p false s.snapshot.auth files = .ok (m, q) →
      CircuitOram.fromState m q s.snapshot = .ok t → Alike p HM HP HB HS HH storeId label false s t
  | authenticated {built s t v m q m' q' auth trustedLevels hashPageSize} {authLayout : AuthLayoutArg}
      {files files' : CircuitFiles S H} :
      Reached p HM HP HB (fun _ _ => True) built v → CircuitOram.flush built = (.ok (), s) →
      (∀ c d, (HM.metaContract p).Rep c s.metaStore → (HP.payloadContract p).Rep d s.payloadStore →
        Imaged HS HH p c d authLayout files) →
      buildCircuitStoreAuth storeId p authLayout trustedLevels hashPageSize files = .ok (m, q, auth) →
      KeptBoth HS HH p files' m q →
      openFileStoresForReopen storeId label p true (some auth) files' = .ok (m', q') →
      CircuitOram.fromState m' q' (s.snapshot.withAuth (some auth)) = .ok t → Alike p HM HP HB HS HH storeId label true s t
  | call {authStore s t} (op : Op) : Alike p HM HP HB HS HH storeId label authStore s t →
      Alike p HM HP HB HS HH storeId label authStore (op.run s).2 (op.run t).2
  | flush {authStore s t} : Alike p HM HP HB HS HH storeId label authStore s t →
      Alike p HM HP HB HS HH storeId label authStore s (CircuitOram.flush t).2
  | reopen {authStore s t t' m q} {files : CircuitFiles S H} : Alike p HM HP HB HS HH storeId label authStore s t →
      KeptBoth HS HH p files t.metaStore t.payloadStore →
      openFileStoresForReopen storeId label p authStore t.snapshot.auth files = .ok (m, q) →
      CircuitOram.fromState m q t.snapshot = .ok t' → Alike p HM HP HB HS HH storeId label authStore s t'

variable {p : OramParams} {HM : HonestStore M} {HP : HonestStore P} {HB : HonestSource B} {HS : HonestStore S}
  {HH : HonestStore H} {storeId : CircuitAuthStoreKind → FixedBytes 16} {label : String} {authStore : Bool}
  {kind : StoreKind} {s : CircuitOram M P ρ}
  {t : CircuitOram (CircuitReopenPageStore S H) (CircuitReopenPageStore S H) ρ} {b : Blocks ρ}

variable (p HS HH storeId kind) in
/-- In service, a controller is the controller over the blocks. -/
abbrev Serves (t : CircuitOram (CircuitReopenPageStore S H) (CircuitReopenPageStore S H) ρ) (b : Blocks ρ) : Prop :=
  Rel (CircuitReopenPageStore.contract HS HH (storeId .metaStore) kind p.bucketCount (circuitMetaPageBytes p.bucketSize))
    (CircuitReopenPageStore.contract HS HH (storeId .payloadStore) kind p.bucketCount
      (circuitPayloadPageBytes p.bucketSize p.blockSize)) t b

theorem Serves.run (h : Serves p HS HH storeId kind t b) (op : Op) :
    (op.run t).1 = (op.runBlocks .none b).1 ∧ Serves p HS HH storeId kind (op.run t).2 (op.runBlocks .none b).2 := by
  rcases Op.run_outcome h op with ⟨e, -, hd | hd⟩ | ⟨fault, ha, h1, h2⟩
  · exact hd.elim
  · exact hd.elim
  · cases fault
    · exact ⟨h1, h2⟩
    all_goals exact (ha : False).elim

omit [Rng ρ] in
/-- The controller of some blocks, over other stores with their pages. -/
theorem Serves.of_stored (hr : Rel (HM.metaContract p) (HP.payloadContract p) s b) {m q : CircuitReopenPageStore S H}
    (hstored : Stored HS HH storeId p kind (metaPages b.tree) (payloadPages b.tree) m q) {auth : Option CircuitStoreAuthState}
    (ht : CircuitOram.fromState m q (s.snapshot.withAuth auth) = .ok t) : Serves p HS HH storeId kind t b := by
  rw [fromState_withAuth hr.stash_length ht]
  exact { controller := hr.controller, shape := hr.shape, metaRep := hstored.metaStore, payloadRep := hstored.payloadStore }

omit [Rng ρ] in
theorem Serves.stored (h : Serves p HS HH storeId kind t b) :
    Stored HS HH storeId p kind (metaPages b.tree) (payloadPages b.tree) t.metaStore t.payloadStore :=
    ⟨h.metaRep, h.payloadRep⟩

omit [Rng ρ] in
theorem Serves.flush (hfs : HS.KeptByFlush) (hfh : HH.KeptByFlush) (h : Serves p HS HH storeId kind t b) :
    Serves p HS HH storeId kind (CircuitOram.flush t).2 b :=
  CircuitOram.flush_keeps (fun _ => CircuitReopenPageStore.flush_keeps hfs hfh)
    (fun _ => CircuitReopenPageStore.flush_keeps hfs hfh) t h

omit [Sha256] in
/-- A controller that was flushed is, but for the flush, one a run reached. -/
theorem Reached.flushed {built s : CircuitOram M P ρ} {v : Memory} (h : Reached p HM HP HB (fun _ _ => True) built v)
    (hfm : HM.KeptByFlush) (hfp : HP.KeptByFlush) (hflush : CircuitOram.flush built = (.ok (), s)) :
    ∃ b, Rel (HM.metaContract p) (HP.payloadContract p) built b ∧ Rel (HM.metaContract p) (HP.payloadContract p) s b ∧
      Sound p b := by
  obtain ⟨b, hr, hsound⟩ := h.sound
  exact ⟨b, hr, (CircuitOram.flush_keeps (fun _ => hfm.contract) fun _ => hfp.contract).ok hr hflush, hsound⟩

/-- Both go through the same blocks, those of a run. -/
theorem Alike.blocks (hS : ∀ s : S, PageStore.tieredMerkleState s = none) (hfm : HM.KeptByFlush) (hfp : HP.KeptByFlush)
    (hfs : HS.KeptByFlush) (hfh : HH.KeptByFlush) (h : Alike p HM HP HB HS HH storeId label authStore s t) :
    ∃ kind b built v, kind.authStore = authStore ∧ Reached p HM HP HB (fun _ _ => True) built v ∧
      Rel (HM.metaContract p) (HP.payloadContract p) built b ∧ Rel (HM.metaContract p) (HP.payloadContract p) s b ∧
        Serves p HS HH storeId kind t b ∧ Sound p b := by
  induction h with
  | @plain built s t v m q files hbuilt hflush himaged hopen ht =>
    obtain ⟨b, hr, hr', hsound⟩ := hbuilt.flushed hfm hfp hflush
    refine ⟨.plain, b, built, v, rfl, hbuilt, hr, hr', Serves.of_stored hr' ?_
      (show CircuitOram.fromState m q (s.snapshot.withAuth s.storeAuthState) = .ok t from ht), hsound⟩
    exact openPlain_stored (himaged _ _ hr'.metaRep hr'.payloadRep) hopen
  | @authenticated built s t v m q m' q' auth _ _ authLayout files files' hbuilt hflush himaged hbuild hkept hopen ht =>
    obtain ⟨b, hr, hr', hsound⟩ := hbuilt.flushed hfm hfp hflush
    obtain ⟨hstored, hauth⟩ := buildCircuitStoreAuth_stored (himaged _ _ hr'.metaRep hr'.payloadRep) hfs hfh hbuild
    obtain ⟨m₁, q₁, hopen₁, hstored₁, -⟩ := reopens label hS hstored hkept
    have hkind : (StoreKind.ofLayout authLayout).authStore = true := by cases authLayout <;> rfl
    rw [hauth, hkind, hopen] at hopen₁
    cases hopen₁
    exact ⟨_, b, built, v, hkind, hbuilt, hr, hr', Serves.of_stored hr' hstored₁ ht, hsound⟩
  | @call authStore s t op _ ih =>
    obtain ⟨kind, b, built, v, hkind, hbuilt, hr, hr', ht, hsound⟩ := ih
    have hsound' := op.runBlocks_sound .none b hsound
    have hrun := (run_honest hr op).2
    refine ⟨kind, (op.runBlocks .none b).2, (op.run built).2, ?_⟩
    rcases h : op.run built with ⟨e | outs, built'⟩
    · exact ⟨v, hkind, hbuilt.failed op h trivial, by rw [h] at hrun; exact hrun,
        (run_honest hr' op).2, (ht.run op).2, hsound'⟩
    · exact ⟨_, hkind, hbuilt.ok op h, by rw [h] at hrun; exact hrun, (run_honest hr' op).2, (ht.run op).2, hsound'⟩
  | flush _ ih =>
    obtain ⟨kind, b, built, v, hkind, hbuilt, hr, hr', ht, hsound⟩ := ih
    exact ⟨kind, b, built, v, hkind, hbuilt, hr, hr', ht.flush hfs hfh, hsound⟩
  | @reopen authStore s t t' m q files _ hkept hopen ht' ih =>
    obtain ⟨kind, b, built, v, hkind, hbuilt, hr, hr', ht, hsound⟩ := ih
    obtain ⟨m₁, q₁, hopen₁, hstored₁, -⟩ := reopens label hS ht.stored hkept
    rw [hkind, show storeAuthStateFromStores t.metaStore t.payloadStore = t.snapshot.auth from rfl, hopen] at hopen₁
    cases hopen₁
    refine ⟨kind, b, built, v, hkind, hbuilt, hr, hr', ?_, hsound⟩
    rw [fromState_snapshot ht.stash_length ht']
    exact { controller := ht.controller, shape := ht.shape, metaRep := hstored₁.metaStore,
            payloadRep := hstored₁.payloadStore }

/-- Whatever the layout and however often it was opened again, a controller in service has the
    state of the one that was built and returns what that returns; and its files open, the
    controller with them as long as the evictions of its accesses fit the counter. -/
theorem Alike.serves_alike (hS : ∀ s : S, PageStore.tieredMerkleState s = none) (hfm : HM.KeptByFlush) (hfp : HP.KeptByFlush)
    (hfs : HS.KeptByFlush) (hfh : HH.KeptByFlush) (h : Alike p HM HP HB HS HH storeId label authStore s t) :
    t.toController = s.toController ∧ (∀ op : Op, (op.run t).1 = (op.run s).1) ∧
      ∀ files, KeptBoth HS HH p files t.metaStore t.payloadStore → ∃ m q,
        openFileStoresForReopen storeId label p authStore t.snapshot.auth files = .ok (m, q) ∧
        ((∃ t', CircuitOram.fromState m q t.snapshot = .ok t') ↔ t.schedule.issuedAccesses.toNat * 2 < 2 ^ 64) := by
  obtain ⟨kind, b, built, v, hkind, hbuilt, hr, hr', ht, hsound⟩ := h.blocks hS hfm hfp hfs hfh
  have hc : t.toController = s.toController := ht.controller.trans hr'.controller.symm
  refine ⟨hc, fun op => (ht.run op).1.trans (run_honest hr' op).1.symm, fun files hkept => ?_⟩
  obtain ⟨m, q, hopen, hstored, hauth⟩ := reopens label hS ht.stored hkept
  rw [hkind] at hopen
  refine ⟨m, q, hopen, ?_⟩
  obtain ⟨hm, hms⟩ := PathContract.shape _ hstored.metaStore
  obtain ⟨hq, hqs⟩ := PathContract.shape _ hstored.payloadStore
  obtain ⟨hm₀, hms₀⟩ := PathContract.shape _ ht.metaRep
  obtain ⟨hq₀, hqs₀⟩ := PathContract.shape _ ht.payloadRep
  rw [fromState_iff, ht.snapshot_iff hsound ⟨hm.trans hm₀.symm, hms.trans hms₀.symm⟩
    ⟨hq.trans hq₀.symm, hqs.trans hqs₀.symm⟩ hauth,
    CircuitEvictionSchedule.pendingEvictions_iff]
  have hbuilt' : t.schedule = built.schedule := congrArg Controller.schedule (ht.controller.trans hr.controller.symm)
  have hrate : t.schedule.evictionsPerAccess.toNat = 2 := by
    rw [hbuilt', hbuilt.evictionsPerAccess]
    rfl
  have howed : t.schedule.completedEvictions.toNat ≤ t.schedule.issuedAccesses.toNat * t.schedule.evictionsPerAccess.toNat := by
    rw [hbuilt']
    exact hbuilt.owed
  rw [hrate] at howed ⊢
  exact and_iff_left howed

end

/-- A controller built through the fronts of its images leaves them imaged. -/
theorem Imaged.of_fronts {S H ρ : Type} [PageStore S] [PageStore H] {HS : HonestStore S} {HH : HonestStore H} {p : OramParams}
    {s : CircuitOram (LogicalPrefixPageStore S) (LogicalPrefixPageStore S) ρ} {files : CircuitFiles S H} {c d : Nat → Bytes}
    (hm : ((LogicalPrefixPageStore.honest HS).metaContract p).Rep c s.metaStore)
    (hq : ((LogicalPrefixPageStore.honest HS).payloadContract p).Rep d s.payloadStore)
    (hmImage : files.metaImage p.bucketCount s.metaStore.physicalPageSize = .ok s.metaStore.inner)
    (hqImage : files.payloadImage p.bucketCount s.payloadStore.physicalPageSize = .ok s.payloadStore.inner)
    (hmSize : s.metaStore.physicalPageSize = authPlaintextPageBytes (circuitMetaPageBytes p.bucketSize) .embeddedTree)
    (hqSize : s.payloadStore.physicalPageSize =
      authPlaintextPageBytes (circuitPayloadPageBytes p.bucketSize p.blockSize) .embeddedTree)
    (hmHash : ∀ n sz h, files.metaHashImage n sz = .ok h → ∃ d', HH.Holds n sz d' h)
    (hqHash : ∀ n sz h, files.payloadHashImage n sz = .ok h → ∃ d', HH.Holds n sz d' h) :
    Imaged HS HH p c d .embeddedTree files := by
  obtain ⟨c', ⟨-, -, e, he, hec⟩, hcc⟩ := hm
  obtain ⟨d', ⟨-, -, f, hf, hfd⟩, hdd⟩ := hq
  rw [hmSize] at hmImage he
  rw [hqSize] at hqImage hf
  exact
    { metaImage := ⟨_, hmImage, e, he, fun i hi => (hec i hi).trans (hcc i hi)⟩
      payloadImage := ⟨_, hqImage, f, hf, fun i hi => (hfd i hi).trans (hdd i hi)⟩
      metaHashImage := hmHash
      payloadHashImage := hqHash }

/-- The image within a store. -/
def CircuitReopenPageStore.image {S H : Type} : CircuitReopenPageStore S H → S
  | .plain store => store
  | .sidecar store => store.inner
  | .embedded store => store.inner

section
variable {S H : Type} [PageStore S] [PageStore H] [Sha256] {HS : HonestStore S} {HH : HonestStore H}
  {storeId : CircuitAuthStoreKind → FixedBytes 16}

/-- The file of an embedded tree that has the image within. -/
theorem Kept.of_image {id : FixedBytes 16} {n sz : Nat} {c : Nat → Bytes} {store : CircuitReopenPageStore S H}
    {image : Nat → Nat → Result S} {hashImage : Nat → Nat → Result H}
    (h : (CircuitReopenPageStore.contract HS HH id .embedded n sz).Rep c store)
    (hopen : image n (authPlaintextPageBytes sz .embeddedTree) = .ok store.image) : Kept HS HH n sz image hashImage store := by
  rcases store with store | store | store
  · cases h.1
  · cases h.1
  · exact .embedded hopen fun _ _ _ hc => hc

theorem KeptBoth.of_images {p : OramParams} {c d : Nat → Bytes} {m q : CircuitReopenPageStore S H}
    {auth : CircuitStoreAuthState}
    {files files' : CircuitFiles S H} (hi : Imaged HS HH p c d .embeddedTree files) (hfs : HS.KeptByFlush)
    (h : buildCircuitEmbeddedStoreAuth storeId p files = .ok (m, q, auth))
    (hm : files'.metaImage p.bucketCount (authPlaintextPageBytes (circuitMetaPageBytes p.bucketSize) .embeddedTree) = .ok m.image)
    (hq : files'.payloadImage p.bucketCount
      (authPlaintextPageBytes (circuitPayloadPageBytes p.bucketSize p.blockSize) .embeddedTree)
      = .ok q.image) : KeptBoth HS HH p files' m q := by
  obtain ⟨⟨hmr, hqr⟩, -⟩ := buildCircuitEmbeddedStoreAuth_stored hi hfs h
  exact ⟨Kept.of_image hmr hm, Kept.of_image hqr hq⟩

end

/-! ## A small table in service -/

/-- Files that open as these stores, when asked for their pages. -/
def MemPageStore.asFiles (metaStore payloadStore : MemPageStore) : CircuitFiles MemPageStore MemPageStore where
  metaImage n sz := if metaStore.pageCount = n ∧ metaStore.pageSize = sz then .ok metaStore else .error .io
  payloadImage n sz := if payloadStore.pageCount = n ∧ payloadStore.pageSize = sz then .ok payloadStore else .error .io
  metaHashImage _ _ := .error .io
  payloadHashImage _ _ := .error .io
  authState := .error .io

namespace MemPageStore

variable {metaStore payloadStore : MemPageStore} {n sz : Nat}

theorem asFiles_metaImage (hn : metaStore.pageCount = n) (hsz : metaStore.pageSize = sz) :
    (metaStore.asFiles payloadStore).metaImage n sz = .ok metaStore := if_pos ⟨hn, hsz⟩

theorem asFiles_payloadImage (hn : payloadStore.pageCount = n) (hsz : payloadStore.pageSize = sz) :
    (metaStore.asFiles payloadStore).payloadImage n sz = .ok payloadStore := if_pos ⟨hn, hsz⟩

theorem keptByFlush : honest.KeptByFlush := fun _ _ _ _ h => h

theorem fronts_keptByFlush : (LogicalPrefixPageStore.honest honest).KeptByFlush := fun _ _ _ _ h => h

/-- The pages are in memory, so a flush does nothing. -/
theorem flush_fronts {ρ : Type}
    (s : CircuitOram (LogicalPrefixPageStore MemPageStore) (LogicalPrefixPageStore MemPageStore) ρ) :
    CircuitOram.flush s = (.ok (), s) := rfl

end MemPageStore

section
local instance smallTableSha256 : Sha256 := smallSha256

theorem smallMetaImage_pos : 0 < 77 := by decide

theorem smallPayloadImage_pos : 0 < 65 := by decide

/-- Pages of 13 bytes and of one byte, each with room for two hashes. -/
def smallFiles : CircuitFiles MemPageStore MemPageStore :=
  (zeroPages 3 77 smallMetaImage_pos).asFiles (zeroPages 3 65 smallPayloadImage_pos)

def smallTableBuild :
    Result (CircuitOram (LogicalPrefixPageStore MemPageStore) (LogicalPrefixPageStore MemPageStore) ZeroSeedRng) := do
  let (metaStore, payloadStore) ← openCircuitFrontFileStores smallParams smallFiles
  CircuitOram.buildTrusted smallParams metaStore payloadStore [[7], [8]] (FixedBytes.zero 32)

def smallTable : CircuitOram (LogicalPrefixPageStore MemPageStore) (LogicalPrefixPageStore MemPageStore) ZeroSeedRng :=
  smallTableBuild.toOption.get (by decide +kernel)

def smallAuthBuild : Result
    (CircuitReopenPageStore MemPageStore MemPageStore × CircuitReopenPageStore MemPageStore MemPageStore ×
    CircuitStoreAuthState) :=
  buildCircuitStoreAuth (circuitAuthStoreId .index) smallParams .embeddedTree 0 0
    (smallTable.metaStore.inner.asFiles smallTable.payloadStore.inner)

def smallAuth : CircuitReopenPageStore MemPageStore MemPageStore × CircuitReopenPageStore MemPageStore MemPageStore ×
    CircuitStoreAuthState := smallAuthBuild.toOption.get (by decide +kernel)

def smallAuthFiles : CircuitFiles MemPageStore MemPageStore := smallAuth.1.image.asFiles smallAuth.2.1.image

def smallServedOpen : Result (CircuitOram (CircuitReopenPageStore MemPageStore MemPageStore)
    (CircuitReopenPageStore MemPageStore MemPageStore) ZeroSeedRng) := do
  let (metaStore, payloadStore) ← openFileStoresForReopen (circuitAuthStoreId .index) "index" smallParams true
    (some smallAuth.2.2) smallAuthFiles
  CircuitOram.fromState metaStore payloadStore (smallTable.snapshot.withAuth (some smallAuth.2.2))

/-- The small table behind embedded trees, as it was opened. -/
def smallServed : CircuitOram (CircuitReopenPageStore MemPageStore MemPageStore)
    (CircuitReopenPageStore MemPageStore MemPageStore)
    ZeroSeedRng := smallServedOpen.toOption.get (by decide +kernel)

theorem smallTable_reached (Fails : CircuitOram (LogicalPrefixPageStore MemPageStore) (LogicalPrefixPageStore MemPageStore)
    ZeroSeedRng → Op → Prop) : Reached smallParams (LogicalPrefixPageStore.honest MemPageStore.honest)
      (LogicalPrefixPageStore.honest MemPageStore.honest) VecBlockSource.honest Fails smallTable smallMemory := by
  obtain ⟨⟨m, q⟩, hopen, hbuild⟩ := bind_result_ok (show smallTableBuild = .ok smallTable from toOption_get _)
  obtain ⟨⟨image, image'⟩, -, hopen⟩ := bind_result_ok hopen
  obtain ⟨m, hm, hopen⟩ := bind_result_ok hopen
  obtain ⟨q, hq, hopen⟩ := bind_result_ok hopen
  cases hopen
  refine .buildTrusted [[7], [8]] (FixedBytes.zero 32) (LogicalPrefixPageStore.new_holds (MemPageStore.holds_self _) hm).1
    (LogicalPrefixPageStore.new_holds (MemPageStore.holds_self _) hq).1 (fun k x hx => ?_) hbuild
  simp only [smallMemory, List.getD_eq_getElem?_getD]
  rw [show ([[7], [8]] : List Bytes)[k]? = some x from hx]
  rfl

theorem smallTable_imaged (c d : Nat → Bytes)
    (hm : ((LogicalPrefixPageStore.honest MemPageStore.honest).metaContract smallParams).Rep c smallTable.metaStore)
    (hq : ((LogicalPrefixPageStore.honest MemPageStore.honest).payloadContract smallParams).Rep d smallTable.payloadStore) :
    Imaged MemPageStore.honest MemPageStore.honest smallParams c d .embeddedTree
      (smallTable.metaStore.inner.asFiles smallTable.payloadStore.inner) :=
  Imaged.of_fronts hm hq
    (MemPageStore.asFiles_metaImage (by decide +kernel) (by decide +kernel))
    (MemPageStore.asFiles_payloadImage (by decide +kernel) (by decide +kernel))
    (by decide +kernel) (by decide +kernel) (fun _ _ _ h => by cases h) fun _ _ _ h => by cases h

theorem smallAuth_built : smallAuthBuild = .ok (smallAuth.1, smallAuth.2.1, smallAuth.2.2) := by
  have heta (x : CircuitReopenPageStore MemPageStore MemPageStore × CircuitReopenPageStore MemPageStore MemPageStore ×
    CircuitStoreAuthState) : (x.1, x.2.1, x.2.2) = x := rfl
  rw [heta]
  exact toOption_get _

theorem smallAuth_kept :
    KeptBoth MemPageStore.honest MemPageStore.honest smallParams smallAuthFiles smallAuth.1 smallAuth.2.1 := by
  obtain ⟨b, hr, -⟩ := (smallTable_reached fun _ _ => False).sound
  exact KeptBoth.of_images (smallTable_imaged _ _ hr.metaRep hr.payloadRep) MemPageStore.keptByFlush smallAuth_built
    (MemPageStore.asFiles_metaImage (by decide +kernel) (by decide +kernel))
    (MemPageStore.asFiles_payloadImage (by decide +kernel) (by decide +kernel))

theorem smallServed_alike : Alike smallParams (LogicalPrefixPageStore.honest MemPageStore.honest)
    (LogicalPrefixPageStore.honest MemPageStore.honest) VecBlockSource.honest MemPageStore.honest MemPageStore.honest
    (circuitAuthStoreId .index) "index" true smallTable smallServed := by
  obtain ⟨⟨m, q⟩, hopen, hserved⟩ := bind_result_ok (show smallServedOpen = .ok smallServed from toOption_get _)
  exact .authenticated (smallTable_reached _) (MemPageStore.flush_fronts _) smallTable_imaged smallAuth_built
    smallAuth_kept hopen hserved

theorem smallServed_called : Alike smallParams (LogicalPrefixPageStore.honest MemPageStore.honest)
    (LogicalPrefixPageStore.honest MemPageStore.honest) VecBlockSource.honest MemPageStore.honest MemPageStore.honest
    (circuitAuthStoreId .index) "index" true ((Op.access 1 .keep).run smallTable).2 ((Op.access 1 .keep).run smallServed).2 :=
  Alike.call (.access 1 .keep) smallServed_alike

theorem serves_alike_smallServed :
    ((Op.access 1 .keep).run smallServed).2.toController = ((Op.access 1 .keep).run smallTable).2.toController ∧
      (∀ op : Op, (op.run ((Op.access 1 .keep).run smallServed).2).1 = (op.run ((Op.access 1 .keep).run smallTable).2).1) ∧
      ∀ files, KeptBoth MemPageStore.honest MemPageStore.honest smallParams files
          ((Op.access 1 .keep).run smallServed).2.metaStore ((Op.access 1 .keep).run smallServed).2.payloadStore → ∃ m q,
        openFileStoresForReopen (circuitAuthStoreId .index) "index" smallParams true
            ((Op.access 1 .keep).run smallServed).2.snapshot.auth files = .ok (m, q) ∧
          ((∃ t', CircuitOram.fromState m q ((Op.access 1 .keep).run smallServed).2.snapshot = .ok t') ↔
            ((Op.access 1 .keep).run smallServed).2.schedule.issuedAccesses.toNat * 2 < 2 ^ 64) :=
  Alike.serves_alike (fun _ => rfl) MemPageStore.fronts_keptByFlush MemPageStore.fronts_keptByFlush MemPageStore.keptByFlush
    MemPageStore.keptByFlush smallServed_called

end
end BpirOram
