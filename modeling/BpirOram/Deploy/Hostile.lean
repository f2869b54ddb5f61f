/-
  BpirOram.Deploy.Hostile — a controller whose disks are in an adversary's hands.

  The controller is built and authenticated on honest files. From then on its trees are on
  stores of which nothing is assumed, that may be exchanged for others between any two calls;
  it may be opened again from any state it was saved in, on any files. Each call goes by the
  messages it notes (`Op.notes`).
  - `run_guarded`: a call that notes messages of `M` only goes as over guarded trees.
  - `Hostile.integrity`: as long as the messages noted do not collide, every call that ends
    well returns what the array holds, and the roots in memory are those of trees that hold it.
-/

import BpirOram.Deploy.Alike
import BpirOram.Embedded.Noted
import BpirOram.Circuit.Faults

namespace BpirOram

open Lib EmbeddedTreePageStore

/-! ## What a call goes by -/

namespace CircuitOram

variable {S T ρ : Type}

/-- The controller over trees that note. -/
def noting (s : CircuitOram (EmbeddedTreePageStore S) (EmbeddedTreePageStore T) ρ) :
    CircuitOram (NotedTree S) (NotedTree T) ρ :=
  { toController := s.toController, metaStore := ⟨s.metaStore, []⟩, payloadStore := ⟨s.payloadStore, []⟩ }

/-- The controller over guarded trees. -/
def guarding (M : Set Bytes) (s : CircuitOram (EmbeddedTreePageStore S) (EmbeddedTreePageStore T) ρ) :
    CircuitOram (GuardedTree M S) (GuardedTree M T) ρ :=
  { toController := s.toController, metaStore := ⟨s.metaStore⟩, payloadStore := ⟨s.payloadStore⟩ }

/-- The controller with other disks below its trees. -/
def onDisks (s : CircuitOram (EmbeddedTreePageStore S) (EmbeddedTreePageStore T) ρ) (inner : S) (inner' : T) :
    CircuitOram (EmbeddedTreePageStore S) (EmbeddedTreePageStore T) ρ :=
  { s with metaStore := { s.metaStore with inner }, payloadStore := { s.payloadStore with inner := inner' } }

theorem eq_guarding {M : Set Bytes} {t : CircuitOram (GuardedTree M S) (GuardedTree M T) ρ}
    {s : CircuitOram (EmbeddedTreePageStore S) (EmbeddedTreePageStore T) ρ} (hc : t.toController = s.toController)
    (hm : t.metaStore.tree = s.metaStore) (hq : t.payloadStore.tree = s.payloadStore) : t = s.guarding M := by
  obtain ⟨c, ⟨m⟩, ⟨q⟩⟩ := t
  cases hc
  cases hm
  cases hq
  rfl

end CircuitOram

section
variable {S T ρ : Type} [PageStore S] [PageStore T] [Sha256] [Rng ρ] {M : Set Bytes}
  {s s' : CircuitOram (EmbeddedTreePageStore S) (EmbeddedTreePageStore T) ρ} {op : Op}

/-- The messages of the pages that a call accepts from its stores, and of those it writes. -/
def Op.notes (op : Op) (s : CircuitOram (EmbeddedTreePageStore S) (EmbeddedTreePageStore T) ρ) : List Bytes :=
  (op.run s.noting).2.metaStore.noted ++ (op.run s.noting).2.payloadStore.noted

/-- Noting changes nothing. -/
theorem run_noting (op : Op) (s : CircuitOram (EmbeddedTreePageStore S) (EmbeddedTreePageStore T) ρ) :
    (op.run s).1 = (op.run s.noting).1 ∧
      CircuitOram.Beside NotedTree.Notes NotedTree.Notes (op.run s).2 (op.run s.noting).2 := by
  have : Nonempty (NotedTree S) := ⟨⟨s.metaStore, []⟩⟩
  have : Nonempty (NotedTree T) := ⟨⟨s.payloadStore, []⟩⟩
  refine ((CircuitOram.run_upTo NotedTree.storeUpTo_notes NotedTree.storeUpTo_notes op).agree s s.noting
    ⟨rfl, rfl, rfl⟩).resolve_right ?_
  rintro (h | h) <;> exact h

/-- A call that notes messages of `M` only goes as over guarded trees. -/
theorem run_guarded (hnotes : ∀ b ∈ op.notes s, b ∈ M) :
    (op.run s).1 = (op.run (s.guarding M)).1 ∧ (op.run (s.guarding M)).2 = (op.run s).2.guarding M := by
  have : Nonempty (GuardedTree M S) := ⟨⟨s.metaStore⟩⟩
  have : Nonempty (GuardedTree M T) := ⟨⟨s.payloadStore⟩⟩
  obtain ⟨hrun, hbeside⟩ := run_noting op s
  have hupTo := CircuitOram.run_upTo (ρ := ρ) (NotedTree.storeUpTo_guarded (S := S) (M := M))
    (NotedTree.storeUpTo_guarded (S := T) (M := M)) op
  obtain ⟨hrun', hbeside'⟩ := (hupTo.agree s.noting (s.guarding M)
    ⟨rfl, ⟨rfl, by simp [CircuitOram.noting]⟩, rfl, by simp [CircuitOram.noting]⟩).resolve_right (by
      rintro (⟨b, hb, hout⟩ | ⟨b, hb, hout⟩)
      · exact hout (hnotes b (List.mem_append_left _ hb))
      · exact hout (hnotes b (List.mem_append_right _ hb)))
  exact ⟨hrun.trans hrun', CircuitOram.eq_guarding (hbeside.controller.trans hbeside'.controller).symm
    (hbeside'.metaStore.tree.trans hbeside.metaStore) (hbeside'.payloadStore.tree.trans hbeside.payloadStore)⟩

/-- However a call ends, the trees keep their layouts and their caches are verified. -/
theorem run_sealed (op : Op) (hm : CacheVerified M s.metaStore) (hq : CacheVerified M s.payloadStore)
    (hnotes : ∀ b ∈ op.notes s, b ∈ M) :
    ((op.run s).2.metaStore.toEmbeddedLayout = s.metaStore.toEmbeddedLayout ∧ CacheVerified M (op.run s).2.metaStore) ∧
      (op.run s).2.payloadStore.toEmbeddedLayout = s.payloadStore.toEmbeddedLayout ∧
        CacheVerified M (op.run s).2.payloadStore := by
  have : Nonempty (NotedTree S) := ⟨⟨s.metaStore, []⟩⟩
  have : Nonempty (NotedTree T) := ⟨⟨s.payloadStore, []⟩⟩
  obtain ⟨-, -, hbm, hbq⟩ := run_noting op s
  have hkeep := (CircuitOram.run_upTo (NotedTree.storeUpTo_sealed (M := M) s.metaStore.toEmbeddedLayout)
    (NotedTree.storeUpTo_kept (S := T)) op).stays s.noting (.inl ⟨rfl, hm.mono Set.subset_union_left⟩)
  have hkeep' := (CircuitOram.run_upTo (NotedTree.storeUpTo_kept (S := S))
    (NotedTree.storeUpTo_sealed (M := M) s.payloadStore.toEmbeddedLayout) op).stays s.noting
      (.inr ⟨rfl, hq.mono Set.subset_union_left⟩)
  obtain ⟨hl, hc⟩ := hkeep.resolve_right id
  obtain ⟨hl', hc'⟩ := hkeep'.resolve_left id
  rw [show (op.run s.noting).2.metaStore.tree = (op.run s).2.metaStore from hbm] at hl hc
  rw [show (op.run s.noting).2.payloadStore.tree = (op.run s).2.payloadStore from hbq] at hl' hc'
  exact ⟨⟨hl, hc.mono (Set.union_subset le_rfl fun b hb => hnotes b (List.mem_append_left _ hb))⟩,
    hl', hc'.mono (Set.union_subset le_rfl fun b hb => hnotes b (List.mem_append_right _ hb))⟩

end

/-! ## Runs -/

section
variable {S T M P B S₀ H₀ ρ : Type} [PageStore S] [PageStore T] [PageStore M] [PageStore P] [TrustedBlockSource B]
  [PageStore S₀] [PageStore H₀] [Sha256] [Rng ρ]

/-- A controller over trees on any disks, and the array it was given. `N` has the messages of
    the trees that were built and of the pages its calls went by. -/
inductive Hostile (N : Set Bytes) (p : OramParams) (HM : HonestStore M) (HP : HonestStore P) (HB : HonestSource B)
    (HS : HonestStore S₀) (HH : HonestStore H₀) (storeId : CircuitAuthStoreKind → FixedBytes 16) :
    CircuitOram (EmbeddedTreePageStore S) (EmbeddedTreePageStore T) ρ → Memory → Prop
  /-- Built and authenticated on honest files, then opened on any. -/
  | deploy {built s v m q auth inner inner' state state' m' q' t} {files : CircuitFiles S₀ H₀} :
      Reached p HM HP HB (fun _ _ => False) built v → CircuitOram.flush built = (.ok (), s) →
      (∀ c d, (HM.metaContract p).Rep c s.metaStore → (HP.payloadContract p).Rep d s.payloadStore →
        Imaged HS HH p c d .embeddedTree files ∧ treeMessages (storeId .metaStore) p.bucketCount c ⊆ N ∧
          treeMessages (storeId .payloadStore) p.bucketCount d ⊆ N) →
      buildCircuitEmbeddedStoreAuth storeId p files = .ok (m, q, auth) →
      EmbeddedTreePageStore.fromState inner state = .ok m' → EmbeddedTreePageStore.fromState inner' state' = .ok q' →
      CircuitOram.fromState m' q' (s.snapshot.withAuth (some auth)) = .ok t → Hostile N p HM HP HB HS HH storeId t v
  | disks {s v} (inner : S) (inner' : T) : Hostile N p HM HP HB HS HH storeId s v →
      Hostile N p HM HP HB HS HH storeId (s.onDisks inner inner') v
  | ok {s v outs s'} (op : Op) : Hostile N p HM HP HB HS HH storeId s v → op.run s = (.ok outs, s') →
      (∀ b ∈ op.notes s, b ∈ N) → Hostile N p HM HP HB HS HH storeId s' (v.serveAll op.requests).2
  /-- A call that failed before it moved anything but the generator. -/
  | failed {s v e s'} (op : Op) : Hostile N p HM HP HB HS HH storeId s v → op.run s = (.error e, s') →
      (∀ b ∈ op.notes s, b ∈ N) → s'.toController = { s.toController with rng := s'.rng } →
      s'.metaStore.rootHash = s.metaStore.rootHash → s'.payloadStore.rootHash = s.payloadStore.rootHash →
      Hostile N p HM HP HB HS HH storeId s' v
  /-- Opened from a state it was saved in, with any roots beside that state. -/
  | reopen {s v inner inner' state state' m q t} : Hostile N p HM HP HB HS HH storeId s v →
      EmbeddedTreePageStore.fromState inner state = .ok m → EmbeddedTreePageStore.fromState inner' state' = .ok q →
      CircuitOram.fromState m q s.snapshot = .ok t → Hostile N p HM HP HB HS HH storeId t v

variable {N : Set Bytes} {p : OramParams} {HM : HonestStore M} {HP : HonestStore P} {HB : HonestSource B} {HS : HonestStore S₀}
  {HH : HonestStore H₀} {storeId : CircuitAuthStoreKind → FixedBytes 16} {v : Memory}
  {s t : CircuitOram (EmbeddedTreePageStore S) (EmbeddedTreePageStore T) ρ} {b : Blocks ρ}

variable (N p storeId) in
/-- The controller is that of some blocks and its trees are held by the roots of their pages. -/
structure HoldsRoots (s : CircuitOram (EmbeddedTreePageStore S) (EmbeddedTreePageStore T) ρ) (b : Blocks ρ) : Prop where
  controller : s.toController = b.toController
  shape : b.Shape p
  metaStore : Held N (storeId .metaStore) p.bucketCount (circuitMetaPageBytes p.bucketSize) (metaPages b.tree) s.metaStore
  payloadStore : Held N (storeId .payloadStore) p.bucketCount (circuitPayloadPageBytes p.bucketSize p.blockSize)
    (payloadPages b.tree) s.payloadStore

omit [Rng ρ] in
/-- Over guarded trees the controller meets its contract with those blocks. -/
theorem HoldsRoots.rel (h : HoldsRoots N p storeId s b) (hN : Set.InjOn Sha256.digest N) {Dead : Error → Prop}
    (hS : GuardedTree.WriteErrors S Dead) (hT : GuardedTree.WriteErrors T Dead) :
    Rel (GuardedTree.contract (storeId .metaStore) p.bucketCount (circuitMetaPageBytes p.bucketSize) hN hS)
      (GuardedTree.contract (storeId .payloadStore) p.bucketCount (circuitPayloadPageBytes p.bucketSize p.blockSize) hN hT)
      (s.guarding N) b := ⟨h.controller, h.shape, h.metaStore, h.payloadStore⟩

/-- A call that ends well is the call on the blocks. -/
theorem HoldsRoots.run (h : HoldsRoots N p storeId s b) (hN : Set.InjOn Sha256.digest N) {op : Op} {outs : List Bytes}
    {s' : CircuitOram (EmbeddedTreePageStore S) (EmbeddedTreePageStore T) ρ} (hrun : op.run s = (.ok outs, s'))
    (hnotes : ∀ b ∈ op.notes s, b ∈ N) (hi : Inv p b v) :
    ∃ b', op.runBlocks .none b = (.ok outs, b') ∧ HoldsRoots N p storeId s' b' := by
  obtain ⟨hguarded, hstate⟩ := run_guarded hnotes
  rw [hrun] at hguarded hstate
  have hS : GuardedTree.WriteErrors S fun _ => True := ⟨trivial, fun _ => trivial⟩
  have hT : GuardedTree.WriteErrors T fun _ => True := ⟨trivial, fun _ => trivial⟩
  rcases Op.run_outcome (h.rel hN hS hT) op with ⟨e, he, -⟩ | ⟨fault, -, hresult, hrel'⟩
  · rw [← hguarded] at he
    cases he
  · rw [← hguarded] at hresult
    rw [hstate] at hrel'
    have hblocks := hi.serving.unstruck (Prod.ext hresult.symm rfl)
    exact ⟨_, hblocks, hrel'.controller, hrel'.shape, hrel'.metaRep, hrel'.payloadRep⟩

/-- A call that fails and moves nothing but the generator and the caches. -/
theorem HoldsRoots.failed (h : HoldsRoots N p storeId s b) {op : Op} {e : Error}
    {s' : CircuitOram (EmbeddedTreePageStore S) (EmbeddedTreePageStore T) ρ} (hrun : op.run s = (.error e, s'))
    (hnotes : ∀ b ∈ op.notes s, b ∈ N) (hc : s'.toController = { s.toController with rng := s'.rng })
    (hm : s'.metaStore.rootHash = s.metaStore.rootHash) (hq : s'.payloadStore.rootHash = s.payloadStore.rootHash)
    (hi : Inv p b v) :
    ∃ b', HoldsRoots N p storeId s' b' ∧ Inv p b' v := by
  obtain ⟨⟨hl, hcache⟩, hl', hcache'⟩ := run_sealed op h.metaStore.cache h.payloadStore.cache hnotes
  rw [hrun] at hl hcache hl' hcache'
  refine ⟨{ b with rng := s'.rng }, ⟨?_, ?_, h.metaStore.of_root hl hm hcache, h.payloadStore.of_root hl' hq hcache'⟩,
    hi.frame s'.rng hi.shape.controller.leafBits⟩
  · rw [hc, h.controller]
  · exact (hi.frame s'.rng hi.shape.controller.leafBits).shape

omit [Sha256] in
/-- A call that ends well serves its requests from the array. -/
theorem Inv.step_ok (hi : Inv p b v) {op : Op} {outs : List Bytes} {b' : Blocks ρ}
    (hrun : op.runBlocks .none b = (.ok outs, b')) :
    outs = (v.serveAll op.requests).1 ∧ Inv p b' (v.serveAll op.requests).2 := by
  have hstep := hi.step op
  rw [hrun] at hstep
  cases hstep with
  | ok hinv _ _ => exact ⟨rfl, hinv⟩

omit [Rng ρ] in
/-- The state of authentication that was built is that of the trees of the pages. -/
theorem Stored.auth_eq {c d : Nat → Bytes} {m q : CircuitReopenPageStore S₀ H₀} {auth : CircuitStoreAuthState}
    (h : Stored HS HH storeId p .embedded c d m q) (hauth : storeAuthStateFromStores m q = some auth) : auth = .newEmbedded
      ⟨storeId .metaStore, p.bucketCount, circuitMetaPageBytes p.bucketSize, treeHash (storeId .metaStore) p.bucketCount c 0⟩
      ⟨storeId .payloadStore, p.bucketCount, circuitPayloadPageBytes p.bucketSize p.blockSize,
        treeHash (storeId .payloadStore) p.bucketCount d 0⟩ := by
  obtain ⟨hm, hq⟩ := h
  rcases m with m | m | m
  · cases hm.1
  · cases hm.1
  rcases q with q | q | q
  · cases hq.1
  · cases hq.1
  rw [← Represents.state_eq hm.2, ← Represents.state_eq hq.2]
  exact (Option.some.inj hauth).symm

omit [Rng ρ] in
/-- Opened from a state that is bound to the roots, on whatever disks. -/
theorem HoldsRoots.opened {K L : Type} [PathPageStore K] [PathPageStore L] {k : CircuitOram K L ρ}
    (hc : k.toController = b.toController)
    (hshape : b.Shape p) {inner : S} {inner' : T} {state state' : EmbeddedTreeState} {m : EmbeddedTreePageStore S}
    {q : EmbeddedTreePageStore T} {auth : CircuitStoreAuthState} (hm : EmbeddedTreePageStore.fromState inner state = .ok m)
    (hq : EmbeddedTreePageStore.fromState inner' state' = .ok q)
    (ht : CircuitOram.fromState m q (k.snapshot.withAuth (some auth)) = .ok t)
    (hauth : auth = .newEmbedded
      ⟨storeId .metaStore, p.bucketCount, circuitMetaPageBytes p.bucketSize,
        treeHash (storeId .metaStore) p.bucketCount (metaPages b.tree) 0⟩
      ⟨storeId .payloadStore, p.bucketCount, circuitPayloadPageBytes p.bucketSize p.blockSize,
        treeHash (storeId .payloadStore) p.bucketCount (payloadPages b.tree) 0⟩)
    (hN : treeMessages (storeId .metaStore) p.bucketCount (metaPages b.tree) ⊆ N)
    (hN' : treeMessages (storeId .payloadStore) p.bucketCount (payloadPages b.tree) ⊆ N) : HoldsRoots N p storeId t b := by
  have hlen : k.stash.length = k.params.stashCapacity := by
    rw [congrArg Controller.stash hc, congrArg Controller.params hc, hshape.controller.params]
    exact hshape.controller.stash
  have hbound : storeAuthStateFromStores m q = some auth := (fromState_iff.mp ⟨t, ht⟩).bound auth rfl
  rw [fromState_withAuth hlen ht]
  have hstates : CircuitStoreAuthState.newEmbedded m.state q.state = auth := Option.some.inj hbound
  rw [hauth] at hstates
  obtain ⟨hms, hqs⟩ : m.state = _ ∧ q.state = _ := by
    simpa [CircuitStoreAuthState.newEmbedded] using hstates
  exact ⟨hc, hshape, Held.of_state hms (fromState_cache hm) hN, Held.of_state hqs (fromState_cache hq) hN'⟩

/-- In every run the controller goes through blocks that hold the array. -/
theorem Hostile.inv (hN : Set.InjOn Sha256.digest N) (hfm : HM.KeptByFlush) (hfp : HP.KeptByFlush) (hfs : HS.KeptByFlush)
    (h : Hostile N p HM HP HB HS HH storeId s v) : ∃ b, HoldsRoots N p storeId s b ∧ Inv p b v := by
  induction h with
  | deploy hbuilt hflush hfiles hbuild hm hq ht =>
    obtain ⟨b, hr, hi⟩ := hbuilt.inv
    have hr' := (CircuitOram.flush_keeps (fun _ => hfm.contract) fun _ => hfp.contract).ok hr hflush
    obtain ⟨himaged, hmeta, hpayload⟩ := hfiles _ _ hr'.metaRep hr'.payloadRep
    obtain ⟨hstored, hauth⟩ := buildCircuitEmbeddedStoreAuth_stored himaged hfs hbuild
    exact ⟨b, HoldsRoots.opened hr'.controller hr'.shape hm hq ht (hstored.auth_eq hauth) hmeta hpayload, hi⟩
  | disks inner inner' _ ih =>
    obtain ⟨b, hb, hi⟩ := ih
    exact ⟨b, ⟨hb.controller, hb.shape, hb.metaStore.onDisk inner, hb.payloadStore.onDisk inner'⟩, hi⟩
  | ok op _ hrun hnotes ih =>
    obtain ⟨b, hb, hi⟩ := ih
    obtain ⟨b', hblocks, hb'⟩ := hb.run hN hrun hnotes hi
    exact ⟨b', hb', (hi.step_ok hblocks).2⟩
  | failed op _ hrun hnotes hc hm hq ih =>
    obtain ⟨b, hb, hi⟩ := ih
    exact hb.failed hrun hnotes hc hm hq hi
  | @reopen s v _ _ _ _ _ _ _ _ hm hq ht ih =>
    obtain ⟨b, hb, hi⟩ := ih
    have hauth := congrArg₂ CircuitStoreAuthState.newEmbedded hb.metaStore.state_eq hb.payloadStore.state_eq
    have ht' : CircuitOram.fromState _ _
        (s.snapshot.withAuth (some (.newEmbedded s.metaStore.state s.payloadStore.state))) = _ := ht
    exact ⟨b, HoldsRoots.opened hb.controller hb.shape hm hq ht' hauth hb.metaStore.messages hb.payloadStore.messages, hi⟩

variable (p storeId) in
/-- The roots in memory are those of trees that hold the array, with the stash. -/
structure RootsOf (s : CircuitOram (EmbeddedTreePageStore S) (EmbeddedTreePageStore T) ρ) (tree : Nat → List OramBlock)
    (v : Memory) : Prop where
  metaRoot : s.metaStore.rootHash = treeHash (storeId .metaStore) p.bucketCount (metaPages tree) 0
  payloadRoot : s.payloadStore.rootHash = treeHash (storeId .payloadStore) p.bucketCount (payloadPages tree) 0
  blocks : treeBlocks p tree + occ s.stash = allBlocks p s.posMap v
  onPath : OnPath p tree

/-- Whatever became of the disks, every call that ends well returns what the array holds, and
    the roots are those of trees that hold it. -/
theorem Hostile.integrity (hN : Set.InjOn Sha256.digest N) (hfm : HM.KeptByFlush) (hfp : HP.KeptByFlush) (hfs : HS.KeptByFlush)
    (h : Hostile N p HM HP HB HS HH storeId s v) :
    (∃ tree, RootsOf p storeId s tree v) ∧
      ∀ (op : Op) outs s', op.run s = (.ok outs, s') → (∀ b ∈ op.notes s, b ∈ N) →
        outs = (v.serveAll op.requests).1 := by
  obtain ⟨b, hb, hi⟩ := h.inv hN hfm hfp hfs
  refine ⟨⟨b.tree, hb.metaStore.root, hb.payloadStore.root, ?_, hi.onPath⟩, fun op outs s' hrun hnotes => ?_⟩
  · have hblocks : treeBlocks p b.tree + occ b.stash = allBlocks p b.posMap v := hi.blocks
    rwa [← congrArg Controller.stash hb.controller, ← congrArg Controller.posMap hb.controller] at hblocks
  · obtain ⟨b', hblocks, -⟩ := hb.run hN hrun hnotes hi
    exact (hi.step_ok hblocks).1

end
/-! ## A small table on a disk that is rolled back -/

/-- A saved controller, opened on trees with the roots it is bound to. -/
def openTrees {S T ρ : Type} [PageStore S] [PageStore T] [Sha256] (snapshot : CircuitOramState ρ) (auth : CircuitStoreAuthState)
    (inner : S) (inner' : T) : Result (CircuitOram (EmbeddedTreePageStore S) (EmbeddedTreePageStore T) ρ) :=
  match auth.layout with
  | .embeddedTree metaState payloadState => do
    let metaStore ← EmbeddedTreePageStore.fromState inner metaState
    let payloadStore ← EmbeddedTreePageStore.fromState inner' payloadState
    CircuitOram.fromState metaStore payloadStore (snapshot.withAuth (some auth))
  | .tieredMerkle _ _ => .error .io

theorem openTrees_ok {S T ρ : Type} [PageStore S] [PageStore T] [Sha256] {snapshot : CircuitOramState ρ}
    {auth : CircuitStoreAuthState}
    {inner : S} {inner' : T} {t : CircuitOram (EmbeddedTreePageStore S) (EmbeddedTreePageStore T) ρ}
    (h : openTrees snapshot auth inner inner' = .ok t) :
    ∃ state state' m q, EmbeddedTreePageStore.fromState inner state = .ok m ∧
      EmbeddedTreePageStore.fromState inner' state' = .ok q ∧
      CircuitOram.fromState m q (snapshot.withAuth (some auth)) = .ok t := by
  unfold openTrees at h
  split at h
  · obtain ⟨m, hm, h⟩ := bind_result_ok h
    obtain ⟨q, hq, h⟩ := bind_result_ok h
    exact ⟨_, _, m, q, hm, hq, h⟩
  · cases h

theorem error_of_toOption {α : Type} {r : Result α} (h : r.toOption = none) : ∃ e, r = .error e := by
  cases r with
  | error e => exact ⟨e, rfl⟩
  | ok a => cases h

theorem Controller.eq_of_rng {ρ : Type} {c c' : Controller ρ} (hp : c'.params = c.params) (hpos : c'.posMap = c.posMap)
    (hstash : c'.stash = c.stash) (hschedule : c'.schedule = c.schedule) : c' = { c with rng := c'.rng } := by
  cases c
  cases c'
  cases hp
  cases hpos
  cases hstash
  cases hschedule
  rfl

/-- The messages of a tree of `n` pages, listed. -/
def treeNotes [Sha256] (id : FixedBytes 16) (n : Nat) (c : Nat → Bytes) : List Bytes :=
  (List.range n).map fun i => (treePage id n c i).message id i

theorem treeMessages_subset [Sha256] {id : FixedBytes 16} {n : Nat} {c c' : Nat → Bytes} {l : List Bytes}
    (hc : ∀ i < n, c' i = c i) (h : ∀ b ∈ treeNotes id n c', b ∈ l) : treeMessages id n c ⊆ { b | b ∈ l } := by
  rw [← treeMessages_congr hc]
  rintro _ ⟨i, hi, rfl⟩
  exact h _ (List.mem_map_of_mem (List.mem_range.mpr hi))

section
local instance smallTreesSha256 : Sha256 := smallSha256

/-- The small table opened on the trees that were built for it. -/
def smallTreesOpen : Result (CircuitOram (EmbeddedTreePageStore MemPageStore) (EmbeddedTreePageStore MemPageStore) ZeroSeedRng) :=
  openTrees smallTable.snapshot smallAuth.2.2 smallAuth.1.image smallAuth.2.1.image

def smallTrees : CircuitOram (EmbeddedTreePageStore MemPageStore) (EmbeddedTreePageStore MemPageStore) ZeroSeedRng :=
  smallTreesOpen.toOption.get (by decide +kernel)

/-- Block 1 is written. -/
def smallWrite : Op := .access 1 (.copyFrom [9])

def smallWritten : CircuitOram (EmbeddedTreePageStore MemPageStore) (EmbeddedTreePageStore MemPageStore) ZeroSeedRng :=
  (smallWrite.run smallTrees).2

/-- Both disks are rolled back to what they were before the write. -/
def smallRolled : CircuitOram (EmbeddedTreePageStore MemPageStore) (EmbeddedTreePageStore MemPageStore) ZeroSeedRng :=
  smallWritten.onDisks smallTrees.metaStore.inner smallTrees.payloadStore.inner

def smallAgain : Op := .access 1 .keep

def smallRefused : CircuitOram (EmbeddedTreePageStore MemPageStore) (EmbeddedTreePageStore MemPageStore) ZeroSeedRng :=
  (smallAgain.run smallRolled).2

/-- Both disks are put right again. -/
def smallRestored : CircuitOram (EmbeddedTreePageStore MemPageStore) (EmbeddedTreePageStore MemPageStore) ZeroSeedRng :=
  smallRefused.onDisks smallWritten.metaStore.inner smallWritten.payloadStore.inner

/-- The pages of the images. -/
def smallMetaPages (i : Nat) : Bytes := (smallTable.metaStore.inner.page i).take 13

def smallPayloadPages (i : Nat) : Bytes := (smallTable.payloadStore.inner.page i).take 1

/-- The messages of the trees that were built and of the three calls. -/
def smallTreesNotes : List Bytes :=
  treeNotes (circuitAuthStoreId .index .metaStore) 3 smallMetaPages ++
    treeNotes (circuitAuthStoreId .index .payloadStore) 3 smallPayloadPages ++
    (smallWrite.notes smallTrees ++ smallAgain.notes smallRolled ++ smallAgain.notes smallRestored)

theorem smallTreesNotes_inj : Set.InjOn Sha256.digest { b | b ∈ smallTreesNotes } := by
  have hnodup : (smallTreesNotes.dedup.map Sha256.digest).Nodup := by decide +kernel
  exact fun a ha b hb => List.inj_on_of_nodup_map hnodup (List.mem_dedup.mpr ha) (List.mem_dedup.mpr hb)

/-- A run over the trees of the small table. -/
abbrev SmallHostile :
    CircuitOram (EmbeddedTreePageStore MemPageStore) (EmbeddedTreePageStore MemPageStore) ZeroSeedRng → Memory → Prop :=
  Hostile { b | b ∈ smallTreesNotes } smallParams (LogicalPrefixPageStore.honest MemPageStore.honest)
    (LogicalPrefixPageStore.honest MemPageStore.honest) VecBlockSource.honest MemPageStore.honest MemPageStore.honest
    (circuitAuthStoreId .index)

theorem smallTable_pages {sz : Nat} {c : Nat → Bytes} {s : LogicalPrefixPageStore MemPageStore}
    (h : ((LogicalPrefixPageStore.honest MemPageStore.honest).contract 3 sz).Rep c s) :
    ∀ i < 3, (s.inner.page i).take sz = c i := by
  obtain ⟨c', ⟨-, -, d, hd, hdc⟩, hc⟩ := h
  intro i hi
  rw [hd.page i hi, hdc i hi, hc i hi]

theorem smallTrees_hostile : SmallHostile smallTrees smallMemory := by
  obtain ⟨state, state', m, q, hm, hq, ht⟩ := openTrees_ok (show smallTreesOpen = .ok smallTrees from toOption_get _)
  refine .deploy (smallTable_reached _) (MemPageStore.flush_fronts _) (fun c d hc hd => ?_) smallAuth_built hm hq ht
  refine ⟨smallTable_imaged c d hc hd, treeMessages_subset (smallTable_pages hc) fun b hb => ?_,
    treeMessages_subset (smallTable_pages hd) fun b hb => ?_⟩
  · exact List.mem_append_left _ (List.mem_append_left _ hb)
  · exact List.mem_append_left _ (List.mem_append_right _ hb)

theorem smallWritten_hostile : SmallHostile smallWritten (smallMemory.serveAll smallWrite.requests).2 := by
  have hrun := Eff.run_eq (show (smallWrite.run smallTrees).1 = .ok [[8]] by decide +kernel)
  exact Hostile.ok smallWrite smallTrees_hostile hrun
    fun b hb => List.mem_append_right _ (List.mem_append_left _ (List.mem_append_left _ hb))

theorem smallRestored_hostile : SmallHostile smallRestored (smallMemory.serveAll smallWrite.requests).2 := by
  have hrolled := smallWritten_hostile.disks smallTrees.metaStore.inner smallTrees.payloadStore.inner
  rw [← smallRolled] at hrolled
  obtain ⟨e, hfailed⟩ := error_of_toOption (show (smallAgain.run smallRolled).1.toOption = none by decide +kernel)
  have hsame : (smallAgain.run smallRolled).2.toController =
      { smallRolled.toController with rng := (smallAgain.run smallRolled).2.rng } :=
    Controller.eq_of_rng (by decide +kernel) (by decide +kernel) (by decide +kernel) (by decide +kernel)
  have hrefused := Hostile.failed smallAgain hrolled (Eff.run_eq hfailed)
    (fun b hb => List.mem_append_right _ (List.mem_append_left _ (List.mem_append_right _ hb))) hsame (by decide +kernel)
      (by decide +kernel)
  rw [← smallRefused] at hrefused
  exact hrefused.disks smallWritten.metaStore.inner smallWritten.payloadStore.inner

theorem integrity_smallRestored : (smallAgain.run smallRolled).1.toOption = none ∧
    (∃ tree, RootsOf smallParams (circuitAuthStoreId .index) smallRestored tree
      (smallMemory.serveAll smallWrite.requests).2) ∧
      ∃ s', smallAgain.run smallRestored = (.ok [[9]], s') ∧
        [[9]] = ((smallMemory.serveAll smallWrite.requests).2.serveAll smallAgain.requests).1 := by
  obtain ⟨hroots, hcalls⟩ :=
    Hostile.integrity smallTreesNotes_inj MemPageStore.fronts_keptByFlush MemPageStore.fronts_keptByFlush
    MemPageStore.keptByFlush smallRestored_hostile
  obtain ⟨s', hrun⟩ := Eff.run_of_result (show (smallAgain.run smallRestored).1 = .ok [[9]] by decide +kernel)
  exact ⟨by decide +kernel, hroots, s', hrun,
    hcalls smallAgain _ s' hrun fun b hb => List.mem_append_right _ (List.mem_append_right _ hb)⟩

end
end BpirOram
