/-
  BpirOram.Circuit.Atomic — what a batch that fails leaves behind.

  A batch keeps the position map and the generator for its last step, and its overlays
  are lost when it fails, but each of its requests works on the stash and the schedule
  directly. So a batch that fails after its first request leaves targets in the stash
  that are still in the tree, under leaves the position map never learns of.
  - `Reached.batch_atomic_iff`: a batch over honest stores leaves no trace of a failure
    exactly when it has room for all of its requests or fails at the first one
    (`Controller.BatchAtomic`); in runs whose batches are so the array stands.
  - `batch_not_atomic`: a batch that overflows the stash at its third request.
-/

import BpirOram.Circuit.Run

namespace BpirOram

open Lib

variable {M P S ρ : Type} {p : OramParams}

/-- The batch has room for its requests, or fails at the first before it changed anything:
    the stash is full of other blocks, or the counter is full and the request is a read
    that draws the leaf its block already has. -/
def Controller.BatchAtomic [Rng ρ] (c : Controller ρ) (logicalIds : List UInt64) (update : Nat → UInt64 → Update) : Prop :=
  c.HasRoom logicalIds ∨ ∃ logicalId ∈ logicalIds.head?,
    (freeSlots c.stash = 0 ∧ c.inStash logicalId = false) ∨
    (¬ c.Countable ∧ c.inStash logicalId = true ∧ c.nextLeaf = scanPosMapLookup c.posMap logicalId ∧
      (update 0 logicalId).apply (scanStash c.stash logicalId c.params.blockSize).2
        = (scanStash c.stash logicalId c.params.blockSize).2)

/-! ## The first request -/

/-- Rewriting a block in the stash changes nothing exactly when it is rewritten as it was. -/
theorem Inv.updateStash_eq_self {b : Blocks ρ} {v : Memory} (h : Inv p b v) {logicalId : UInt64}
    (hid : logicalId.toNat < p.logicalBlocks) (hin : b.inStash logicalId = true) (newLeaf : UInt32)
    {newPayload : Bytes} (hn : newPayload.length = p.blockSize) :
    updateStash b.stash logicalId newPayload newLeaf = b.stash ↔
      newLeaf = scanPosMapLookup b.posMap logicalId ∧ newPayload = v logicalId.toNat := by
  rw [updateStash_eq h.shape.controller.payload hn, h.lookup_eq (v := v)]
  have hblock : ∀ x ∈ b.stash, x.logicalIdChoice logicalId = true → x = blockOf b.posMap v logicalId.toNat := by
    intro x hx hm
    obtain ⟨ho, hxid⟩ := OramBlock.logicalIdChoice_iff.mp hm
    exact h.eq_blockOf hid (Multiset.mem_add.mpr (.inr (mem_occ.mpr ⟨hx, ho⟩))) hxid
  constructor
  · intro heq
    obtain ⟨x, hx, hm⟩ := List.any_eq_true.mp hin
    have hself : rewriteSlot logicalId newPayload newLeaf x = x :=
      List.map_inj_left.mp (heq.trans (List.map_id b.stash).symm) x hx
    rw [rewriteSlot, if_pos hm, hblock x hx hm] at hself
    exact ⟨congrArg OramBlock.leaf hself, congrArg OramBlock.payload hself⟩
  · rintro ⟨rfl, rfl⟩
    conv_rhs => rw [← List.map_id b.stash]
    refine List.map_congr_left fun x hx => ?_
    by_cases hm : x.logicalIdChoice logicalId = true
    · rw [rewriteSlot, if_pos hm, hblock x hx hm]
      rfl
    · rw [rewriteSlot, if_neg hm]
      rfl

/-! ## A failed batch -/

/-- A batch without room is the failure of its loop, with the tree put back. -/
theorem Inv.accessBatch_failed [Rng ρ] {b : Blocks ρ} {v : Memory} (h : Inv p b v) {logicalIds : List UInt64}
    (hids : ∀ id ∈ logicalIds, id.toNat < p.logicalBlocks) (update : Nat → UInt64 → Update)
    (hroom : ¬ b.HasRoom logicalIds) :
    ∃ e b', Eff.forEach (serveTurn update) (turnsFrom p 0 b.posMap
          (logicalIds.zip (randomLeaves p logicalIds.length b.rng).1)) b = (.error e, b') ∧
      Blocks.accessBatch logicalIds update .none b = (.error e, { b' with tree := b.tree }) := by
  have hbody := h.batchBody update hids
  rw [if_neg hroom] at hbody
  obtain ⟨e, he, -, -⟩ := hbody
  rcases batchBody_eq_accessAll h.shape update hids with ⟨outs, b', hrun, -⟩ | ⟨e', b', b'', hrun, hloop, -⟩
  · rw [hrun] at he
    cases he
  · refine ⟨e', b', hloop, ?_⟩
    have hne : logicalIds ≠ [] := by
      rintro rfl
      cases hrun
    have hbr : Blocks.bracket .none (Blocks.batchBody logicalIds update (randomLeaves p logicalIds.length b.rng).1
        (randomLeaves p logicalIds.length b.rng).2) b = (.error e', { b' with tree := b.tree }) := by
      simp only [Blocks.bracket, hrun]
    simp only [Blocks.accessBatch]
    rw [if_neg (by simpa using hne), Eff.get_bind, h.shape.controller.params, checkLogicalIds_of hids, Eff.lift_ok_bind,
      Eff.bind_error hbr]

/-- A loop that served its first request counted it. -/
theorem counted_of_first {update : Nat → UInt64 → Update} {l : List (((UInt64 × UInt32) × List Nat) × Nat)}
    {turn : ((UInt64 × UInt32) × List Nat) × Nat} {out : Bytes} {b b₁ b' : Blocks ρ} {r : Result (List Bytes)}
    (h₁ : serveTurn update turn b = (.ok out, b₁))
    (hissued : b₁.schedule.issuedAccesses.toNat = b.schedule.issuedAccesses.toNat + 1)
    (hrun : Eff.forEach (serveTurn update) (turn :: l) b = (r, b')) : b'.schedule ≠ b.schedule := by
  have hrest : (Eff.forEach (serveTurn update) l b₁).2 = b' := by
    rw [Eff.forEach, Eff.bind_ok h₁] at hrun
    rcases hl : Eff.forEach (serveTurn update) l b₁ with ⟨_ | outs, b₂⟩
    · rw [Eff.bind_error hl] at hrun
      exact (congrArg Prod.snd hrun)
    · rw [Eff.bind_ok hl] at hrun
      exact (congrArg Prod.snd hrun)
  have hfrozen := (Eff.Keeps.forEach (fun turn _ => serveTurn_frozen b₁ update turn) b₁ ⟨rfl, rfl, Nat.le_refl _⟩
    (l := l)).issued
  rw [hrest] at hfrozen
  intro he
  rw [he] at hfrozen
  omega

/-- The rest of a request of a batch, once its target is in the stash. -/
theorem Inv.finishRequest {b : Blocks ρ} {v : Memory} {logicalId : UInt64} (h : Inv p b v)
    (hid : logicalId.toNat < p.logicalBlocks) (hin : b.inStash logicalId = true) (newLeaf : UInt32) (update : Update) :
    Blocks.onController (Controller.finishRequest logicalId newLeaf update) b =
      if b.Countable then
        (.ok (v logicalId.toNat), { b with toController := (b.written logicalId update newLeaf).counted })
      else (.error (.invalidInput "access counter overflow"),
        { b with toController := b.written logicalId update newLeaf }) := by
  simp only [Blocks.onController, Eff.zoom, Controller.finishRequest_eq, h.shape.controller.params, h.scan hid hin,
    Bool.not_true, Bool.false_eq_true, if_false]
  split <;> rfl

section
variable [Rng ρ] {b : Blocks ρ} {v : Memory} {logicalId : UInt64} {update : Nat → UInt64 → Update}

/-- What the loop of a batch that fails leaves, by what happened to its first request. -/
theorem Inv.first_unchanged_iff (h : Inv p b v) (hid : logicalId.toNat < p.logicalBlocks)
    {l : List (((UInt64 × UInt32) × List Nat) × Nat)} {e : Error} {b' : Blocks ρ}
    (hloop : Eff.forEach (serveTurn update)
      ((((logicalId, b.nextLeaf), p.pathNodes (scanPosMapLookup b.posMap logicalId)), 0) :: l) b = (.error e, b')) :
    (b'.stash = b.stash ∧ b'.schedule = b.schedule) ↔
      (freeSlots b.stash = 0 ∧ b.inStash logicalId = false) ∨
      (¬ b.Countable ∧ b.inStash logicalId = true ∧ b.nextLeaf = scanPosMapLookup b.posMap logicalId ∧
        (update 0 logicalId).apply (v logicalId.toNat) = v logicalId.toNat) := by
  have hrem := h.removeTarget hid
  generalize hrun : Blocks.removeTarget (p.pathNodes (scanPosMapLookup b.posMap logicalId)) logicalId b = r at hrem
  have hturn : ∀ b₁ : Blocks ρ, r = (.ok (), b₁) →
      serveTurn update (((logicalId, b.nextLeaf), p.pathNodes (scanPosMapLookup b.posMap logicalId)), 0) b
        = Blocks.onController (Controller.finishRequest logicalId b.nextLeaf (update 0 logicalId)) b₁ := by
    rintro b₁ rfl
    exact Eff.bind_ok hrun
  cases hrem with
  | inStash hin =>
    have hfin := (hturn b rfl).trans (h.finishRequest hid hin _ _)
    by_cases hcount : b.Countable
    · rw [if_pos hcount] at hfin
      have hne := counted_of_first hfin (Controller.counted_issued (c := b.written logicalId _ _) hcount) hloop
      constructor
      · exact fun hu => absurd hu.2 hne
      · rintro (⟨-, hout⟩ | ⟨hfull, -⟩)
        · rw [hin] at hout
          cases hout
        · exact absurd hcount hfull
    · rw [if_neg hcount] at hfin
      rw [Eff.forEach_error_head hfin] at hloop
      cases hloop
      have hself := h.updateStash_eq_self hid hin b.nextLeaf
        (show ((update 0 logicalId).apply (v logicalId.toNat)).length = p.blockSize by
          rw [Update.length_apply, h.payload_length hid])
      change (updateStash b.stash logicalId ((update 0 logicalId).apply (scanStash b.stash logicalId b.params.blockSize).2)
        b.nextLeaf = b.stash ∧ b.schedule = b.schedule) ↔ _
      rw [h.shape.controller.params, h.scan hid hin, hself]
      simp [hin, hcount]
  | full hin hfull =>
    have hfirst : serveTurn update (((logicalId, b.nextLeaf), p.pathNodes (scanPosMapLookup b.posMap logicalId)), 0) b
        = _ := Eff.bind_error hrun
    rw [Eff.forEach_error_head hfirst] at hloop
    cases hloop
    exact ⟨fun _ => .inl ⟨hfull, hin⟩, fun _ => ⟨rfl, rfl⟩⟩
  | @moved tree stash hin hfree hinv hcl hocc =>
    -- a slot was filled, and no later step empties one
    have hno : ¬ ((freeSlots b.stash = 0 ∧ b.inStash logicalId = false) ∨
        (¬ b.Countable ∧ b.inStash logicalId = true ∧ b.nextLeaf = scanPosMapLookup b.posMap logicalId ∧
          (update 0 logicalId).apply (v logicalId.toNat) = v logicalId.toNat)) := by
      rintro (⟨hfull, -⟩ | ⟨-, hin', -⟩)
      · omega
      · rw [hin] at hin'
        cases hin'
    refine iff_of_false (fun hu => ?_) hno
    have hin₁ : Controller.inStash { b.toController with stash } logicalId = true := by
      rw [Controller.inStash_iff, hocc]
      exact ⟨_, Multiset.mem_add.mpr (.inr (Multiset.mem_singleton_self _)), by rw [blockOf, UInt64.ofNat_toNat]⟩
    have hfin := (hturn _ rfl).trans (hinv.finishRequest hid hin₁ _ _)
    by_cases hcount : ({ b with tree, stash } : Blocks ρ).Countable
    · rw [if_pos hcount] at hfin
      exact counted_of_first hfin (Controller.counted_issued (c := Controller.written _ _ _ _) hcount) hloop hu.2
    · rw [if_neg hcount] at hfin
      rw [Eff.forEach_error_head hfin] at hloop
      cases hloop
      have hslots : freeSlots stash = freeSlots b.stash := freeSlots_updateStash.symm.trans (congrArg freeSlots hu.1)
      omega

/-- A batch of valid ids over an array leaves the controller as it was when it fails, exactly
    when it is atomic. -/
theorem Inv.accessBatch_unchanged_iff (h : Inv p b v) {logicalIds : List UInt64}
    (hids : ∀ id ∈ logicalIds, id.toNat < p.logicalBlocks) (update : Nat → UInt64 → Update)
    (hroom : ¬ b.HasRoom logicalIds) :
    ∃ e b', Blocks.accessBatch logicalIds update .none b = (.error e, b') ∧ b'.tree = b.tree ∧
      b'.posMap = b.posMap ∧ b'.rng = b.rng ∧ b'.params = b.params ∧
      ((b'.stash = b.stash ∧ b'.schedule = b.schedule) ↔ b.BatchAtomic logicalIds update) := by
  obtain ⟨e, b', hloop, hbatch⟩ := h.accessBatch_failed hids update hroom
  have hfrozen := Eff.Keeps.forEach (fun turn _ => serveTurn_frozen b update turn) b ⟨rfl, rfl, Nat.le_refl _⟩
    (l := turnsFrom p 0 b.posMap (logicalIds.zip (randomLeaves p logicalIds.length b.rng).1))
  rw [hloop] at hfrozen
  have hparams : b'.params = b.params := by
    have hsound := accessBatch_sound logicalIds update .none b h.sound
    rw [hbatch] at hsound
    exact hsound.shape.controller.params.trans h.shape.controller.params.symm
  refine ⟨e, _, hbatch, rfl, hfrozen.posMap, hfrozen.rng, hparams, ?_⟩
  rcases logicalIds with _ | ⟨logicalId, logicalIds⟩
  · exact absurd ⟨by simp [Controller.missing], UInt64.toNat_lt _⟩ hroom
  have hid := hids logicalId (by simp)
  have hnext : b.nextLeaf = (randomLeaf p b.rng).1 := by rw [Controller.nextLeaf, h.shape.controller.params]
  have hturns : turnsFrom p 0 b.posMap ((logicalId :: logicalIds).zip (randomLeaves p (logicalId :: logicalIds).length b.rng).1)
      = (((logicalId, b.nextLeaf), p.pathNodes (scanPosMapLookup b.posMap logicalId)), 0)
        :: turnsFrom p 1 (scanPosMapUpdate b.posMap logicalId (randomLeaf p b.rng).1)
            (logicalIds.zip (randomLeaves p logicalIds.length (randomLeaf p b.rng).2).1) := by
    rw [hnext]
    rfl
  rw [hturns] at hloop
  have hiff := h.first_unchanged_iff hid hloop
  refine hiff.trans ?_
  simp only [Controller.BatchAtomic, hroom, false_or, List.head?_cons, Option.mem_def, Option.some.injEq, exists_eq_left']
  by_cases hin : b.inStash logicalId = true
  · rw [h.shape.controller.params, h.scan hid hin]
  · simp [hin]

/-- A batch that is atomic leaves everything when it fails. -/
theorem Inv.accessBatch_atomic (h : Inv p b v) {logicalIds : List UInt64} {e : Error} {b' : Blocks ρ}
    (hrun : Blocks.accessBatch logicalIds update .none b = (.error e, b'))
    (hatomic : (∀ id ∈ logicalIds, id.toNat < p.logicalBlocks) → b.BatchAtomic logicalIds update) : b' = b := by
  by_cases hids : ∀ id ∈ logicalIds, id.toNat < p.logicalBlocks
  · by_cases hroom : b.HasRoom logicalIds
    · -- with room for its requests it does not fail
      obtain ⟨b₁, hall, -⟩ : ∃ b₁, Blocks.accessAll (batchRequests update 0 logicalIds) b = (_, b₁) ∧ _ := by
        have hall := h.accessAll (l := batchRequests update 0 logicalIds) fun r hr =>
          hids r.1 (by rw [← batchRequests_map_fst update 0 logicalIds]; exact List.mem_map_of_mem hr)
        rwa [batchRequests_map_fst, if_pos hroom] at hall
      rcases h.sound.accessBatch_eq_accessAll update hids with ⟨outs, b₂, hb, -⟩ | ⟨e', e'', -, hacc⟩
      · rw [hrun] at hb
        cases hb
      · rw [hall] at hacc
        cases hacc
    · obtain ⟨e', b₁, hrun', htree, hpos, hrng, hparams, hiff⟩ := h.accessBatch_unchanged_iff hids update hroom
      rw [hrun] at hrun'
      cases hrun'
      obtain ⟨hstash, hsched⟩ := hiff.mpr (hatomic hids)
      rcases b with ⟨⟨_, _, _, _, _⟩, _⟩
      rcases b' with ⟨⟨_, _, _, _, _⟩, _⟩
      cases htree; cases hpos; cases hrng; cases hparams; cases hstash; cases hsched
      rfl
  · -- refused before it looked at anything
    obtain ⟨e', hcheck⟩ : ∃ e', CircuitOram.checkLogicalIds p.logicalBlocks logicalIds = .error e' := by
      rcases hcheck : CircuitOram.checkLogicalIds p.logicalBlocks logicalIds with e' | ⟨⟩
      · exact ⟨e', rfl⟩
      · exact absurd (checkLogicalIds_ok hcheck) hids
    have hne : ¬ logicalIds.isEmpty := by
      intro he
      rw [List.isEmpty_iff.mp he] at hids
      exact hids (by simp)
    simp only [Blocks.accessBatch] at hrun
    rw [if_neg hne, Eff.get_bind, h.shape.controller.params, hcheck] at hrun
    exact (congrArg Prod.snd hrun).symm

end

/-! ## Runs whose batches are atomic -/

section
variable [PageStore M] [PageStore P] [TrustedBlockSource S] [Rng ρ] {HM : HonestStore M} {HP : HonestStore P}
  {HS : HonestSource S} {s : CircuitOram M P ρ} {v : Memory}

/-- Of the calls that may fail, the batches of valid ids are atomic. -/
def AtomicBatches (s : CircuitOram M P ρ) (op : Op) : Prop :=
  ∀ logicalIds update, op = .accessBatch logicalIds update →
    (∀ id ∈ logicalIds, id.toNat < s.params.logicalBlocks) → s.BatchAtomic logicalIds update

/-- One call that fails, under the condition on batches, leaves what is served. -/
theorem Serving.step_failed {b : Blocks ρ} (h : Serving p b v) {op : Op} {e : Error} {b' : Blocks ρ}
    (hrun : op.runBlocks .none b = (.error e, b'))
    (hatomic : ∀ logicalIds update, op = .accessBatch logicalIds update →
      (∀ id ∈ logicalIds, id.toNat < p.logicalBlocks) → b.BatchAtomic logicalIds update) : Serving p b' v := by
  rcases (h.step_error hrun).2 with hs | ⟨logicalIds, update, rfl, -, -⟩
  · exact hs
  · obtain ⟨w, hw, -⟩ := id h
    rwa [hw.accessBatch_atomic hrun (hatomic logicalIds update rfl)]

theorem Rel.serving_ok {b : Blocks ρ} (h : Rel (HM.metaContract p) (HP.payloadContract p) s b) (hs : Serving p b v)
    {op : Op} {outs : List Bytes} {s' : CircuitOram M P ρ} (hrun : op.run s = (.ok outs, s')) :
    outs = (v.serveAll op.requests).1 ∧
      ∃ b', Rel (HM.metaContract p) (HP.payloadContract p) s' b' ∧ Serving p b' (v.serveAll op.requests).2 := by
  obtain ⟨h1, h2⟩ := run_honest h op
  rw [hrun] at h1 h2
  obtain ⟨houts, hs'⟩ := hs.step_ok (Prod.ext h1.symm rfl)
  exact ⟨houts, _, h2, hs'⟩

theorem Rel.serving_failed {b : Blocks ρ} (h : Rel (HM.metaContract p) (HP.payloadContract p) s b) (hs : Serving p b v)
    {op : Op} {e : Error} {s' : CircuitOram M P ρ} (hrun : op.run s = (.error e, s')) (hf : AtomicBatches s op) :
    ∃ b', Rel (HM.metaContract p) (HP.payloadContract p) s' b' ∧ Serving p b' v := by
  obtain ⟨h1, h2⟩ := run_honest h op
  rw [hrun] at h1 h2
  refine ⟨_, h2, hs.step_failed (Prod.ext h1.symm rfl) fun logicalIds update hop hids => ?_⟩
  rw [← h.controller]
  exact hf logicalIds update hop (by rwa [h.params])

theorem Reached.serving (h : Reached p HM HP HS AtomicBatches s v) :
    ∃ b, Rel (HM.metaContract p) (HP.payloadContract p) s b ∧ Serving p b v := by
  induction h with
  | build hm hp hs hbuild =>
    obtain ⟨b, hr, hi⟩ := buildTrustedFromSource_ok HM HP HS hm hp hs hbuild
    exact ⟨b, hr, hi.serving⟩
  | ok op _ hrun ih =>
    obtain ⟨b, hr, hs⟩ := ih
    exact (hr.serving_ok hs hrun).2
  | failed op _ hrun hf ih =>
    obtain ⟨b, hr, hs⟩ := ih
    exact hr.serving_failed hs hrun hf
  | reopen _ hm hq ht ih =>
    obtain ⟨b, hr, hs⟩ := ih
    exact ⟨b, hr.reopen hm hq ht, hs⟩

/-- A call that ends well returns what the array holds. -/
theorem Reached.served (h : Reached p HM HP HS AtomicBatches s v) {op : Op} {outs : List Bytes} {s' : CircuitOram M P ρ}
    (hrun : op.run s = (.ok outs, s')) : outs = (v.serveAll op.requests).1 := by
  obtain ⟨b, hr, hs⟩ := h.serving
  exact (hr.serving_ok hs hrun).1

/-- Runs whose failed batches are atomic: the stores and the stash hold every block once and
    the calls return what was written by those that ended well; and a batch leaves the
    controller and the stores as they were when it fails exactly when it is atomic. -/
theorem Reached.batch_atomic_iff (h : Reached p HM HP HS AtomicBatches s v) :
    (∃ tree w, HoldsArray HM HP p s tree w ∧ (w = v ∨ ¬ s.Countable)) ∧
      (∀ (op : Op) outs s', op.run s = (.ok outs, s') → outs = (v.serveAll op.requests).1) ∧
      ∀ logicalIds, (∀ id ∈ logicalIds, id.toNat < p.logicalBlocks) → ∀ update,
        (∀ e s', CircuitOram.accessBatch logicalIds update s = (.error e, s') →
          s'.posMap = s.posMap ∧ s'.stash = s.stash ∧ s'.schedule = s.schedule ∧ SamePages HM HP p s s') ↔
        s.BatchAtomic logicalIds update := by
  obtain ⟨b, hr, hs⟩ := h.serving
  obtain ⟨w, hw, hv⟩ := id hs
  have hc := hr.controller
  refine ⟨⟨b.tree, w, hr.holdsArray hw, hv.imp_right fun hn => by rwa [hc]⟩, fun op outs s' hrun => h.served hrun,
    fun logicalIds hids update => ?_⟩
  · obtain ⟨h1, h2⟩ := (accessBatch_outcome hr logicalIds update).honest
    constructor
    · intro hunchanged
      by_cases hroom : b.HasRoom logicalIds
      · exact .inl (by rwa [hc])
      · obtain ⟨e, b', hrun, -, -, -, -, hiff⟩ := hw.accessBatch_unchanged_iff hids update hroom
        rw [hrun] at h1 h2
        obtain ⟨-, hstash, hsched, -⟩ := hunchanged e _ (Prod.ext h1 rfl)
        have hc' := h2.controller
        rw [hc]
        refine hiff.mp ⟨?_, ?_⟩
        · rw [← congrArg Controller.stash hc', hstash, congrArg Controller.stash hc]
        · rw [← congrArg Controller.schedule hc', hsched, congrArg Controller.schedule hc]
    · intro hatomic e s' hrun
      rw [hrun] at h1
      have hsame : Blocks.accessBatch logicalIds update .none b = (.error e, b) :=
        Prod.ext h1.symm (hw.accessBatch_atomic (Prod.ext h1.symm rfl) fun _ => by rwa [hc] at hatomic)
      rw [hrun, hsame] at h2
      have hc' := h2.controller.trans hc.symm
      exact ⟨congrArg Controller.posMap hc', congrArg Controller.stash hc', congrArg Controller.schedule hc',
        hr.samePages h2⟩

theorem batch_atomic_iff_smallRead :
    (∃ tree w, HoldsArray MemPageStore.honest MemPageStore.honest smallParams smallRead tree w ∧
        (w = (smallMemory.serveAll (Op.access 1 .keep).requests).2 ∨ ¬ smallRead.Countable)) ∧
      (∀ (op : Op) outs s', op.run smallRead = (.ok outs, s') →
        outs = ((smallMemory.serveAll (Op.access 1 .keep).requests).2.serveAll op.requests).1) ∧
      ∀ logicalIds, (∀ id ∈ logicalIds, id.toNat < smallParams.logicalBlocks) → ∀ update,
        (∀ e s', CircuitOram.accessBatch logicalIds update smallRead = (.error e, s') →
          s'.posMap = smallRead.posMap ∧ s'.stash = smallRead.stash ∧ s'.schedule = smallRead.schedule ∧
            SamePages MemPageStore.honest MemPageStore.honest smallParams smallRead s') ↔
        smallRead.BatchAtomic logicalIds update :=
  Reached.batch_atomic_iff (smallRead_reached _)

/-! ## A batch that overflows the stash -/

/-- Three blocks on the stores of the small controller, whose stash has two slots. -/
def fullParams : OramParams := { smallParams with logicalBlocks := 3, logicalBlocks_lt := by decide }

def fullBuild : Result (CircuitOram MemPageStore MemPageStore ZeroSeedRng) :=
  CircuitOram.buildTrusted fullParams smallOram.metaStore smallOram.payloadStore [[7], [8], [9]] (FixedBytes.zero 32)

def fullOram : CircuitOram MemPageStore MemPageStore ZeroSeedRng := fullBuild.toOption.get (by decide +kernel)

def fullMemory : Memory := fun k => [[7], [8], [9]].getD k []

theorem fullOram_reached (Fails : CircuitOram MemPageStore MemPageStore ZeroSeedRng → Op → Prop) :
    Reached fullParams MemPageStore.honest MemPageStore.honest VecBlockSource.honest Fails fullOram fullMemory := by
  refine .buildTrusted [[7], [8], [9]] (FixedBytes.zero 32) (MemPageStore.holds_self _)
    (MemPageStore.holds_self _) (fun k x hx => ?_) (toOption_get _)
  simp only [fullMemory, List.getD_eq_getElem?_getD]
  rw [show ([[7], [8], [9]] : List Bytes)[k]? = some x from hx]
  rfl

/-- Reading all three blocks in one batch fails at the third, and leaves the first two in
    the stash as well as in the tree. -/
theorem batch_not_atomic :
    Reached fullParams MemPageStore.honest MemPageStore.honest VecBlockSource.honest (fun _ _ => False) fullOram fullMemory ∧
      (∀ id ∈ [(0 : UInt64), 1, 2], id.toNat < fullParams.logicalBlocks) ∧
      let run := CircuitOram.accessBatch [0, 1, 2] (fun _ _ => .keep) fullOram
      run.1 = .error (.stashOverflow 3 2) ∧ run.2.stash.map (·.occupied) = [true, true] ∧
        fullOram.stash.map (·.occupied) = [false, false] ∧ run.2.schedule.issuedAccesses = 2 ∧
        fullOram.schedule.issuedAccesses = 0 ∧ run.2.metaStore.pages = fullOram.metaStore.pages := by
  refine ⟨fullOram_reached _, by simp [fullParams], ?_⟩
  decide +kernel

end
end BpirOram
