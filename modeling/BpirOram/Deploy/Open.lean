/-
  BpirOram.Deploy.Open — opening the files of a controller (`oramctl.rs`).

  `build_circuit_store_auth` puts authentication on the images of a controller that was just
  built, and `open_circuit_file_stores_for_reopen` opens the images again, as plain pages or
  against the trusted state. The direct tables do the same under store ids of their own.
  - `Represents.reopen`: images that have what a store left open again, as the same pages under
    the same roots.
  - `Represents.flush`: a store that is flushed has the pages it had.
-/

import BpirOram.Deploy.Stores
import BpirOram.Circuit.Build
import BpirOram.Packed.Cuckoo
import BpirOram.Direct.Table

namespace BpirOram

open Lib

/-! ## Files -/

inductive AuthLayoutArg where
  | sidecar
  | embeddedTree
  deriving DecidableEq, Repr

inductive CircuitAuthStoreKind where
  | metaStore
  | payloadStore
  deriving DecidableEq, Repr

/-- The files of a controller: a sized file opens with the count and the size of its pages. -/
structure CircuitFiles (S H : Type) where
  metaImage (pageCount pageSize : Nat) : Result S
  payloadImage (pageCount pageSize : Nat) : Result S
  metaHashImage (pageCount pageSize : Nat) : Result H
  payloadHashImage (pageCount pageSize : Nat) : Result H
  authState : Result CircuitStoreAuthState

def authPlaintextPageBytes (logicalPageBytes : Nat) : AuthLayoutArg → Nat
  | .sidecar => logicalPageBytes
  | .embeddedTree => logicalPageBytes + embeddedTreeAuthBytesPerPage

/-- The bytes of the store ids of a level. -/
def circuitAuthStoreIdBytes : Cuckoo.Level → CircuitAuthStoreKind → Bytes
  | .index, .metaStore =>
    [0x62, 0x70, 0x69, 0x72, 0x2d, 0x69, 0x64, 0x78, 0x2d, 0x6d, 0x65, 0x74, 0x61, 0x2d, 0x76, 0x31]
  | .index, .payloadStore =>
    [0x62, 0x70, 0x69, 0x72, 0x2d, 0x69, 0x64, 0x78, 0x2d, 0x64, 0x61, 0x74, 0x61, 0x2d, 0x76, 0x31]
  | .chunk, .metaStore =>
    [0x62, 0x70, 0x69, 0x72, 0x2d, 0x63, 0x68, 0x6b, 0x2d, 0x6d, 0x65, 0x74, 0x61, 0x2d, 0x76, 0x31]
  | .chunk, .payloadStore =>
    [0x62, 0x70, 0x69, 0x72, 0x2d, 0x63, 0x68, 0x6b, 0x2d, 0x64, 0x61, 0x74, 0x61, 0x2d, 0x76, 0x31]

theorem circuitAuthStoreIdBytes_length (level : Cuckoo.Level) (kind : CircuitAuthStoreKind) :
    (circuitAuthStoreIdBytes level kind).length = 16 := by
  cases level <;> cases kind <;> rfl

def circuitAuthStoreId (level : Cuckoo.Level) (kind : CircuitAuthStoreKind) : FixedBytes 16 :=
  ⟨circuitAuthStoreIdBytes level kind, circuitAuthStoreIdBytes_length level kind⟩

def directAuthStoreIdBytes : Direct.Level → CircuitAuthStoreKind → Bytes
  | .index, .metaStore =>
    [0x62, 0x70, 0x69, 0x72, 0x2d, 0x64, 0x69, 0x72, 0x69, 0x64, 0x78, 0x2d, 0x6d, 0x65, 0x74, 0x61]
  | .index, .payloadStore =>
    [0x62, 0x70, 0x69, 0x72, 0x2d, 0x64, 0x69, 0x72, 0x69, 0x64, 0x78, 0x2d, 0x64, 0x61, 0x74, 0x61]
  | .chunk, .metaStore =>
    [0x62, 0x70, 0x69, 0x72, 0x2d, 0x64, 0x69, 0x72, 0x63, 0x68, 0x6b, 0x2d, 0x6d, 0x65, 0x74, 0x61]
  | .chunk, .payloadStore =>
    [0x62, 0x70, 0x69, 0x72, 0x2d, 0x64, 0x69, 0x72, 0x63, 0x68, 0x6b, 0x2d, 0x64, 0x61, 0x74, 0x61]

theorem directAuthStoreIdBytes_length (level : Direct.Level) (kind : CircuitAuthStoreKind) :
    (directAuthStoreIdBytes level kind).length = 16 := by
  cases level <;> cases kind <;> rfl

def directAuthStoreId (level : Direct.Level) (kind : CircuitAuthStoreKind) : FixedBytes 16 :=
  ⟨directAuthStoreIdBytes level kind, directAuthStoreIdBytes_length level kind⟩

section
variable {S H : Type}

/-- With the sidecar layout this is `open_circuit_file_stores` as well. -/
def openCircuitPhysicalFileStores (p : OramParams) (authLayout : AuthLayoutArg) (files : CircuitFiles S H) : Result (S × S) := do
  let metaStore ← files.metaImage p.bucketCount (authPlaintextPageBytes (circuitMetaPageBytes p.bucketSize) authLayout)
  let payloadStore ← files.payloadImage p.bucketCount
    (authPlaintextPageBytes (circuitPayloadPageBytes p.bucketSize p.blockSize) authLayout)
  .ok (metaStore, payloadStore)

/-- `open_circuit_file_stores` with room for an embedded tree. -/
def openCircuitFrontFileStores [PageStore S] (p : OramParams) (files : CircuitFiles S H) :
    Result (LogicalPrefixPageStore S × LogicalPrefixPageStore S) := do
  let (metaStore, payloadStore) ← openCircuitPhysicalFileStores p .embeddedTree files
  let metaStore ← LogicalPrefixPageStore.new metaStore (circuitMetaPageBytes p.bucketSize)
  let payloadStore ← LogicalPrefixPageStore.new payloadStore (circuitPayloadPageBytes p.bucketSize p.blockSize)
  .ok (metaStore, payloadStore)

def openHashStoreForAuth (image : Nat → Nat → Result H) (auth : TieredMerkleState) : Result H := do
  let hashPages ← TieredMerklePageStore.requiredHashPages auth.pageCount auth.hashPageSize auth.trustedLevels
  image hashPages auth.hashPageSize

def zeroPageStore [PageStore H] : Eff Error H Unit := do
  let s ← Eff.get
  let _ ← Eff.forEach (fun pageIdx => PageStore.writePage pageIdx (List.replicate (PageStore.pageSize s) 0))
    (List.range (PageStore.pageCount s))
  PageStore.flush

/-! ## Authentication for new images -/

variable [PageStore S] [PageStore H] [Sha256]

def buildCircuitSidecarStoreAuth (storeId : CircuitAuthStoreKind → FixedBytes 16) (p : OramParams)
    (trustedLevels hashPageSize : Nat) (files : CircuitFiles S H) :
    Result (CircuitReopenPageStore S H × CircuitReopenPageStore S H × CircuitStoreAuthState) := do
  let (metaStore, payloadStore) ← openCircuitPhysicalFileStores p .sidecar files
  let metaHashPages ← TieredMerklePageStore.requiredHashPages p.bucketCount hashPageSize trustedLevels
  let payloadHashPages ← TieredMerklePageStore.requiredHashPages p.bucketCount hashPageSize trustedLevels
  let metaHashStore ← files.metaHashImage metaHashPages hashPageSize
  let payloadHashStore ← files.payloadHashImage payloadHashPages hashPageSize
  let (_, metaHashStore) ← runOwned zeroPageStore metaHashStore
  let (_, payloadHashStore) ← runOwned zeroPageStore payloadHashStore
  let metaStore ← TieredMerklePageStore.build metaStore metaHashStore (storeId .metaStore) trustedLevels
  let payloadStore ← TieredMerklePageStore.build payloadStore payloadHashStore (storeId .payloadStore) trustedLevels
  let (_, metaStore) ← runOwned PageStore.flush metaStore
  let (_, payloadStore) ← runOwned PageStore.flush payloadStore
  .ok (.sidecar metaStore, .sidecar payloadStore, .new metaStore.trustedState payloadStore.trustedState)

def buildCircuitEmbeddedStoreAuth (storeId : CircuitAuthStoreKind → FixedBytes 16) (p : OramParams) (files : CircuitFiles S H) :
    Result (CircuitReopenPageStore S H × CircuitReopenPageStore S H × CircuitStoreAuthState) := do
  let (metaStore, payloadStore) ← openCircuitPhysicalFileStores p .embeddedTree files
  let metaStore ← EmbeddedTreePageStore.build metaStore (storeId .metaStore) (circuitMetaPageBytes p.bucketSize)
  let payloadStore ← EmbeddedTreePageStore.build payloadStore (storeId .payloadStore)
    (circuitPayloadPageBytes p.bucketSize p.blockSize)
  let (_, metaStore) ← runOwned PathPageStore.flush metaStore
  let (_, payloadStore) ← runOwned PathPageStore.flush payloadStore
  .ok (.embedded metaStore, .embedded payloadStore, .newEmbedded metaStore.state payloadStore.state)

def buildCircuitStoreAuth (storeId : CircuitAuthStoreKind → FixedBytes 16) (p : OramParams) (authLayout : AuthLayoutArg)
    (trustedLevels hashPageSize : Nat) (files : CircuitFiles S H) :
    Result (CircuitReopenPageStore S H × CircuitReopenPageStore S H × CircuitStoreAuthState) :=
  match authLayout with
  | .sidecar => buildCircuitSidecarStoreAuth storeId p trustedLevels hashPageSize files
  | .embeddedTree => buildCircuitEmbeddedStoreAuth storeId p files

/-! ## Opening again -/

/-- The branch of a sidecar layout. -/
def openSidecarFileStores (storeId : CircuitAuthStoreKind → FixedBytes 16) (label : String) (p : OramParams)
    (metaState payloadState : TieredMerkleState) (files : CircuitFiles S H) :
    Result (CircuitReopenPageStore S H × CircuitReopenPageStore S H) := do
  let (metaStore, payloadStore) ← openCircuitPhysicalFileStores p .sidecar files
  let metaHashStore ← openHashStoreForAuth files.metaHashImage metaState
  let payloadHashStore ← openHashStoreForAuth files.payloadHashImage payloadState
  let metaStore ← TieredMerklePageStore.fromTrustedState metaStore metaHashStore metaState
  let payloadStore ← TieredMerklePageStore.fromTrustedState payloadStore payloadHashStore payloadState
  if metaStore.storeId ≠ storeId .metaStore ∨ payloadStore.storeId ≠ storeId .payloadStore then
    .error (.invalidInput s!"{label} auth sidecar store_id does not match expected level/store domains")
  else .ok (.sidecar metaStore, .sidecar payloadStore)

/-- The branch of an embedded layout. -/
def openEmbeddedFileStores (storeId : CircuitAuthStoreKind → FixedBytes 16) (label : String) (p : OramParams)
    (metaState payloadState : EmbeddedTreeState) (files : CircuitFiles S H) :
    Result (CircuitReopenPageStore S H × CircuitReopenPageStore S H) := do
  let (metaStore, payloadStore) ← openCircuitPhysicalFileStores p .embeddedTree files
  if metaState.storeId ≠ storeId .metaStore ∨ payloadState.storeId ≠ storeId .payloadStore then
    .error (.invalidInput s!"{label} embedded auth store_id does not match expected level/store domains")
  else do
    let metaStore ← EmbeddedTreePageStore.fromState metaStore metaState
    let payloadStore ← EmbeddedTreePageStore.fromState payloadStore payloadState
    .ok (.embedded metaStore, .embedded payloadStore)

/-- What the circuit tables and the direct tables have in common. -/
def openFileStoresForReopen (storeId : CircuitAuthStoreKind → FixedBytes 16) (label : String) (p : OramParams)
    (authStore : Bool) (boundAuth : Option CircuitStoreAuthState) (files : CircuitFiles S H) :
    Result (CircuitReopenPageStore S H × CircuitReopenPageStore S H) :=
  if authStore then do
    let auth ← boundAuth.elim files.authState .ok
    match auth.layout with
    | .tieredMerkle metaState payloadState => openSidecarFileStores storeId label p metaState payloadState files
    | .embeddedTree metaState payloadState => openEmbeddedFileStores storeId label p metaState payloadState files
  else do
    let (metaStore, payloadStore) ← openCircuitPhysicalFileStores p .sidecar files
    .ok (.plain metaStore, .plain payloadStore)

def openCircuitFileStoresForReopen (level : Cuckoo.Level) (p : OramParams) (authStore : Bool)
    (boundAuth : Option CircuitStoreAuthState) (files : CircuitFiles S H) :
    Result (CircuitReopenPageStore S H × CircuitReopenPageStore S H) :=
  openFileStoresForReopen (circuitAuthStoreId level) level.label p authStore boundAuth files

def openDirectFileStoresForReopen (level : Direct.Level) (p : OramParams) (authStore : Bool)
    (boundAuth : Option CircuitStoreAuthState) (files : CircuitFiles S H) :
    Result (CircuitReopenPageStore S H × CircuitReopenPageStore S H) :=
  openFileStoresForReopen (directAuthStoreId level) (level.label ++ " direct") p authStore boundAuth files

end

/-! ## The same pages again -/

/-- A store with the pages of another. -/
def Copies {S : Type} [PageStore S] (HS : HonestStore S) (s s' : S) : Prop := ∀ n sz c, HS.Holds n sz c s → HS.Holds n sz c s'

section
variable {S H : Type} [PageStore S] [PageStore H] {HS : HonestStore S} {HH : HonestStore H} {storeId : FixedBytes 16}
  {n sz : Nat} {c : Nat → Bytes}

theorem TieredMerklePageStore.fromTrustedState_ok {inner : S} {hashStore : H} {state : TieredMerkleState}
    {t : TieredMerklePageStore S H} (h : fromTrustedState inner hashStore state = .ok t) :
    t.inner = inner ∧ t.hashStore = hashStore ∧ t.trustedState = state := by
  unfold fromTrustedState at h
  simp only at h
  split at h
  · cases h
  · rename_i hcount
    split at h
    · cases h
    · rename_i hsize
      split at h
      · cases h
      · rename_i hhash
        obtain ⟨leafBase, -, h⟩ := bind_result_ok h
        obtain ⟨limit, -, h⟩ := bind_result_ok h
        split at h
        · cases h
        · obtain ⟨perPage, -, h⟩ := bind_result_ok h
          split at h
          · cases h
          · cases h
            refine ⟨rfl, rfl, ?_⟩
            unfold trustedState
            simp only [not_not.mp hcount, not_not.mp hsize, not_not.mp hhash]

variable [Sha256]

/-- A tiered tree over copies of its files. -/
theorem TieredMerklePageStore.Represents.copy {t : TieredMerklePageStore S H} (h : Represents HS HH storeId n sz c t) {s' : S}
    {h' : H} (hs : Copies HS t.inner s') (hh : Copies HH t.hashStore h') :
    Represents HS HH storeId n sz c { t with inner := s', hashStore := h' } := by
  obtain ⟨-, hdata, htrusted, m, hsz, d, hd, hdisk⟩ := h.stands
  exact ⟨h.storeId, h.pageCount, h.pageSize, rfl, hs _ _ _ hdata, htrusted, m, hsz, d, hh _ _ _ hd, hdisk⟩

/-- A tiered tree opened from its trusted hashes on copies of its files. -/
theorem TieredMerklePageStore.Represents.reopen {t : TieredMerklePageStore S H} (h : Represents HS HH storeId n sz c t) {s' : S}
    {h' : H} (hs : Copies HS t.inner s') (hh : Copies HH t.hashStore h') :
    ∃ t', fromTrustedState s' h' t.trustedState = .ok t' ∧ Represents HS HH storeId n sz c t' ∧
      t'.trustedState = t.trustedState := by
  obtain ⟨-, -, -, m, hsz, d, hd, -⟩ := h.stands
  have hstate : trustedState { t with inner := s', hashStore := h' } = t.trustedState := by
    unfold trustedState
    simp only [HH.pageSize_eq hd, HH.pageSize_eq (hh _ _ _ hd)]
  obtain ⟨t', hopen, ht'⟩ := fromTrustedState_stands (h.copy hs hh).stands
  rw [hstate] at hopen
  exact ⟨t', hopen, h.of_stands ht', (fromTrustedState_ok hopen).2.2⟩

/-- An embedded tree over a copy of its image. -/
theorem EmbeddedTreePageStore.Represents.copy {t : EmbeddedTreePageStore S} (h : Represents HS.atomic storeId n sz c t) {s' : S}
    (hs : Copies HS t.inner s') : Represents HS.atomic storeId n sz c { t with inner := s' } := by
  obtain ⟨d, hd, hdc⟩ := h.stands
  obtain ⟨d', hinner, hpage⟩ := hd.disk
  exact h.of_stands rfl ⟨⟨hd.root, hd.cache⟩, d', hs _ _ _ hinner, hpage⟩ hdc

/-- An embedded tree opened from its root on a copy of its image. -/
theorem EmbeddedTreePageStore.Represents.reopen {t : EmbeddedTreePageStore S} (h : Represents HS.atomic storeId n sz c t) {s' : S}
    (hs : Copies HS t.inner s') :
    ∃ t', fromState s' t.state = .ok t' ∧ Represents HS.atomic storeId n sz c t' ∧ t'.state = t.state := by
  obtain ⟨d, hd, hdc⟩ := h.stands
  obtain ⟨d', hinner, hpage⟩ := hd.disk
  have hcopy : HS.atomic.Holds t.pageCount t.physicalPageSize d' s' := hs _ _ _ hinner
  have hopen : fromState s' t.state = .ok { t with inner := s', verifiedBatchCache := none } := by
    have hvalid := OnDisk.validate hcopy
    rw [HS.atomic.pageCount_eq hcopy] at hvalid
    unfold fromState state
    rw [hvalid]
    rfl
  refine ⟨_, hopen, h.of_stands rfl ⟨⟨hd.root, fun cache hc => by cases hc⟩, d', hcopy, hpage⟩ hdc, rfl⟩

end

/-! ## What a build leaves -/

/-- Flushing writes no page. -/
def HonestStore.KeptByFlush {S : Type} [PageStore S] (HS : HonestStore S) : Prop :=
  ∀ n sz c, Eff.Keeps (HS.Holds n sz c) PageStore.flush

/-- An image with room for the tree of a layout behind the pages `c`. -/
def Image {S : Type} [PageStore S] (HS : HonestStore S) (authLayout : AuthLayoutArg) (n sz : Nat) (c : Nat → Bytes) (s : S) :
    Prop :=
  ∃ d, HS.Holds n (authPlaintextPageBytes sz authLayout) d s ∧ ∀ i < n, (d i).take sz = c i

section
variable {S H : Type} [PageStore S] [PageStore H] {HS : HonestStore S} {HH : HonestStore H} {storeId : FixedBytes 16}
  {n sz : Nat} {c : Nat → Bytes} {s : S}

/-- Without a tree in the image the pages are the image's. -/
theorem Image.pages (h : Image HS .sidecar n sz c s) : (HS.contract n sz).Rep c s := by
  obtain ⟨d, hd, hdc⟩ := h
  refine ⟨d, hd, fun i hi => ?_⟩
  have hlen : (d i).length ≤ sz := (HS.page_length hd i hi).le
  rw [← hdc i hi, List.take_of_length_le hlen]

/-- A zeroed file still has its pages. -/
theorem zeroPageStore_keeps (hflush : HH.KeptByFlush) : Eff.Keeps (fun s => ∃ d, HH.Holds n sz d s) zeroPageStore := by
  unfold zeroPageStore
  refine Eff.Keeps.get_bind fun s hs => ?_
  obtain ⟨d, hd⟩ := id hs
  have hwrite : ∀ i ∈ List.range (PageStore.pageCount s), Eff.Keeps (fun s => ∃ d, HH.Holds n sz d s)
      (PageStore.writePage i (List.replicate (PageStore.pageSize s) 0)) := by
    rintro i hi t ⟨d', hd'⟩
    rw [HH.pageCount_eq hd, List.mem_range] at hi
    obtain ⟨u, hrun, hu⟩ := HH.writePage hd' hi (show (List.replicate (PageStore.pageSize s) 0).length = sz by
      rw [List.length_replicate, HH.pageSize_eq hd])
    rw [hrun]
    exact ⟨_, hu⟩
  refine ((Eff.Keeps.forEach hwrite).bind fun _ => ?_) s hs
  rintro t ⟨d', hd'⟩
  exact ⟨d', hflush _ _ _ _ hd'⟩

/-- The meta store is flushed before the payload store. -/
def CircuitOram.flush {M P ρ : Type} [PathPageStore M] [PathPageStore P] : Eff Error (CircuitOram M P ρ) Unit := do
  onMeta PathPageStore.flush
  onPayload PathPageStore.flush

/-- A controller that is flushed is the controller of the same blocks. -/
theorem CircuitOram.flush_keeps {M P ρ : Type} [PathPageStore M] [PathPageStore P] {p : OramParams} {LM : MetaContract M p}
    {LP : PayloadContract P p} {b : Blocks ρ} (hm : ∀ c, Eff.Keeps (LM.Rep c) PathPageStore.flush)
    (hq : ∀ c, Eff.Keeps (LP.Rep c) PathPageStore.flush) : Eff.Keeps (fun s => Rel LM LP s b) CircuitOram.flush := by
  refine Eff.Keeps.bind (fun s h => ?_) fun _ s h => ?_
  · exact { controller := h.controller, shape := h.shape, metaRep := hm _ _ h.metaRep, payloadRep := h.payloadRep }
  · exact { controller := h.controller, shape := h.shape, metaRep := h.metaRep, payloadRep := hq _ _ h.payloadRep }

theorem HonestStore.KeptByFlush.contract (h : HS.KeptByFlush) : Eff.Keeps ((HS.contract n sz).Rep c) PathPageStore.flush := by
  rintro s ⟨d, hd, hdc⟩
  exact ⟨d, h _ _ _ _ hd, hdc⟩

variable [Sha256]

/-- An embedded tree built in an image stands for its pages. -/
theorem EmbeddedTreePageStore.build_represents (hs : Image HS .embeddedTree n sz c s) {t : EmbeddedTreePageStore S}
    (h : build s storeId sz = .ok t) : Represents HS.atomic storeId n sz c t := by
  obtain ⟨d, hd, hdc⟩ := hs
  obtain ⟨l, hl, -⟩ := bind_result_ok h
  obtain ⟨hid, hcount, hsz, hphysical, -, -⟩ := validateEmbeddedDimensions_ok hl
  rw [HS.pageCount_eq hd] at hcount
  have hholds : HS.atomic.Holds l.pageCount l.physicalPageSize d s := by
    rw [hcount, hphysical]
    exact hd
  rcases build_stands hholds with ⟨e, -, he⟩ | ⟨t', hbuild, hlayout, ht'⟩
  · exact absurd he CircuitReopenPageStore.no_fault
  · rw [hid, hsz, h] at hbuild
    cases hbuild
    refine ⟨?_, ?_, ?_, _, ht', fun i hi => ?_⟩
    · rw [hlayout, hid]
    · rw [hlayout, hcount]
    · rw [hlayout, hsz]
    · rw [hsz]
      exact hdc i hi

/-- A tiered tree built beside an image stands for its pages. -/
theorem TieredMerklePageStore.build_represents (hs : Image HS .sidecar n sz c s) {hashStore : H} {m hsz levels : Nat}
    {d' : Nat → Bytes}
    (hdisk : HH.Holds m hsz d' hashStore) {t : TieredMerklePageStore S H} (h : build s hashStore storeId levels = .ok t) :
    ((honest HS HH storeId).contract n sz).Rep c t := by
  obtain ⟨d, hd, hdc⟩ := hs.pages
  obtain ⟨hstands, hid, hcount, hsize⟩ := build_stands hd hdisk h
  exact ⟨d, ⟨hid, hcount, hsize, hstands⟩, hdc⟩

/-- The flush of a tiered tree is that of its files. -/
theorem TieredMerklePageStore.Represents.flush (hfs : HS.KeptByFlush) (hfh : HH.KeptByFlush) :
    Eff.Keeps (Represents HS HH storeId n sz c) PageStore.flush :=
  Eff.Keeps.bind (fun _ h => h.copy (fun _ _ _ hc => hfs _ _ _ _ hc) fun _ _ _ hc => hc)
    fun _ _ h => h.copy (fun _ _ _ hc => hc) fun _ _ _ hc => hfh _ _ _ _ hc

theorem EmbeddedTreePageStore.Represents.flush (hfs : HS.KeptByFlush) :
    Eff.Keeps (Represents HS.atomic storeId n sz c) PathPageStore.flush :=
  fun _ h => h.copy fun _ _ _ hc => hfs _ _ _ _ hc

theorem CircuitReopenPageStore.flush_keeps (hfs : HS.KeptByFlush) (hfh : HH.KeptByFlush) {kind : StoreKind} :
    Eff.Keeps ((contract HS HH storeId kind n sz).Rep c) PathPageStore.flush := by
  rintro (s | s | s) ⟨hk, h⟩
  · exact ⟨hk, hfs.contract _ h⟩
  · obtain ⟨d, hd, hdc⟩ := h
    exact ⟨hk, d, TieredMerklePageStore.Represents.flush hfs hfh _ hd, hdc⟩
  · exact ⟨hk, EmbeddedTreePageStore.Represents.flush hfs _ h⟩

end
end BpirOram
