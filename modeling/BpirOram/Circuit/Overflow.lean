/-
  BpirOram.Circuit.Overflow — an access that finds the stash full.

  The target is cleared in the pages the access fetched, and they are written only after the
  stash took it: an access that overflows leaves no trace, whatever failed before it
  (`Reached.overflow_unchanged`). What the same access returns once evictions made room is
  another matter, for a batch that failed earlier may have left a second copy of the block.
  - `Reached.overflow_retry`: in runs whose failed batches are atomic, the access then
    succeeds and returns what was written last.
  - `overflow_retry_stale`: after a batch that overflowed, it returns what was never written.
-/

import BpirOram.Circuit.Debt

namespace BpirOram

open Lib

variable {M P S ρ : Type} {p : OramParams}

/-! ## The access that overflows -/

theorem removeTarget_error {b b' : Blocks ρ} (h : b.Shape p) {path : List Nat} (hlt : ∀ i ∈ path, i < p.bucketCount)
    {logicalId : UInt64} {e : Error} (hrun : Blocks.removeTarget path logicalId b = (.error e, b')) :
    b'.toController = b.toController := by
  have hdummy : (noRemoval p).selected.payload.length = p.blockSize := OramBlock.dummy_payload_length _
  have hsel := (takeAlong_shape logicalId hlt hdummy h.tree).2
  have hins := Controller.insertBlock_eq h.controller hsel (takeAlong logicalId path (noRemoval p) b.tree).2.selected.occupied
  simp only [Blocks.removeTarget, Eff.get_bind, Eff.modify_bind, h.controller.params, Blocks.onController, Eff.zoom,
    Controller.insertIntoStash] at hrun
  rw [hins] at hrun
  split at hrun
  · cases hf : insertFirst (takeAlong logicalId path (noRemoval p) b.tree).2.selected b.stash with
    | none =>
      simp only [hf] at hrun
      cases hrun
      rfl
    | some stash =>
      simp only [hf] at hrun
      cases hrun
  · cases hrun

theorem access_overflow [Rng ρ] {b b' : Blocks ρ} (h : b.Shape p) {logicalId : UInt64} {update : Update}
    {len cap : Nat} (hrun : Blocks.access logicalId update .none b = (.error (.stashOverflow len cap), b')) : b' = b := by
  simp only [Blocks.access, Eff.get_bind, h.controller.params] at hrun
  by_cases hid : logicalId.toNat ≥ p.logicalBlocks
  · rw [if_pos hid] at hrun
    cases hrun
  · rw [if_neg hid] at hrun
    have hlt := p.pathNodes_lt (h.controller.lookup_lt (Nat.lt_of_not_le hid))
    rcases hrem : Blocks.removeTarget (p.pathNodes (scanPosMapLookup b.posMap logicalId)) logicalId b with ⟨e | ⟨⟩, b₁⟩
    · have hbr : Blocks.bracket .none (Blocks.removeTarget (p.pathNodes (scanPosMapLookup b.posMap logicalId)) logicalId) b
          = (.error e, { b₁ with tree := b.tree }) := by
        simp only [Blocks.bracket, hrem]
      rw [Eff.bind_error hbr] at hrun
      cases hrun
      rw [removeTarget_error h hlt hrem]
    · -- the block is in the stash, and no later step overflows it
      have hbr : Blocks.bracket .none (Blocks.removeTarget (p.pathNodes (scanPosMapLookup b.posMap logicalId)) logicalId) b
          = (.ok (), b₁) := by
        simp only [Blocks.bracket, hrem]
      have hshape := removeTarget_keeps hlt logicalId b h
      rw [hrem] at hshape
      rw [Eff.bind_ok hbr, Blocks.onController, Eff.zoom, Controller.finishAccess_eq hshape.controller] at hrun
      split at hrun
      · cases hrun
      · split at hrun <;> cases hrun

section
variable [PageStore M] [PageStore P] [TrustedBlockSource S] [Rng ρ] {HM : HonestStore M} {HP : HonestStore P}
  {HS : HonestSource S} {Fails : CircuitOram M P ρ → Op → Prop} {s s' : CircuitOram M P ρ} {v : Memory}

/-- An access that overflows changes neither the controller nor a page, in any run. -/
theorem Reached.overflow_unchanged (h : Reached p HM HP HS Fails s v) {logicalId : UInt64} {update : Update}
    {len cap : Nat} (hrun : CircuitOram.access logicalId update s = (.error (.stashOverflow len cap), s')) :
    s'.toController = s.toController ∧ SamePages HM HP p s s' := by
  obtain ⟨b, hr, hs⟩ := h.sound
  obtain ⟨h1, h2⟩ := (access_outcome hr logicalId update).honest
  rw [hrun] at h1
  have hsame : Blocks.access logicalId update .none b = (.error (.stashOverflow len cap), b) :=
    Prod.ext h1.symm (access_overflow hs.shape (Prod.ext h1.symm rfl))
  rw [hrun, hsame] at h2
  exact ⟨h2.controller.trans hr.controller.symm, hr.samePages h2⟩

/-! ## Drains in between -/

/-- Drains one after the other, whatever each returns. -/
def CircuitOram.drainAll (budgets : List UInt64) (s : CircuitOram M P ρ) : CircuitOram M P ρ :=
  budgets.foldl (fun s budget => (CircuitOram.drainEvictions budget s).2) s

theorem Reached.drained (h : Reached p HM HP HS AtomicBatches s v) (budget : UInt64) :
    Reached p HM HP HS AtomicBatches (CircuitOram.drainEvictions budget s).2 v := by
  rcases hrun : CircuitOram.drainEvictions budget s with ⟨e | k, s'⟩
  · exact .failed (.drainEvictions budget) h (Eff.bind_error hrun) fun _ _ hop => by cases hop
  · exact .ok (.drainEvictions budget) h (Eff.bind_ok hrun)

/-- A drain counts no access, and takes nothing out of the stash of a controller whose debt
    cannot be computed: one that has counted 2^63 accesses. -/
theorem Reached.drained_stash (h : Reached p HM HP HS Fails s v) (budget : UInt64) :
    (CircuitOram.drainEvictions budget s).2.schedule.issuedAccesses = s.schedule.issuedAccesses ∧
      ((CircuitOram.drainEvictions budget s).2.stash = s.stash ∨ s.Countable) := by
  rcases hp : s.schedule.pendingEvictions with e | n
  · have hrun : CircuitOram.drainEvictions budget s = (.error e, s) := by
      simp only [CircuitOram.drainEvictions, Eff.get_bind, hp]
      rfl
    rw [hrun]
    exact ⟨rfl, .inl rfl⟩
  · obtain ⟨-, -, s₁, hrun, -⟩ := h.drainEvictions_run hp budget
    have hcounters := (drainEvictions_counters hrun).2.2
    obtain ⟨-, hlt⟩ := CircuitEvictionSchedule.pendingEvictions_ok hp
    rw [h.evictionsPerAccess, show CircuitEvictionSchedule.defaultEvictionsPerAccess.toNat = 2 from rfl] at hlt
    rw [hrun]
    refine ⟨UInt64.toNat_inj.mp (congrArg Prod.fst hcounters), .inr ?_⟩
    unfold Controller.Countable
    omega

theorem Reached.drainAll (h : Reached p HM HP HS AtomicBatches s v) (budgets : List UInt64) :
    Reached p HM HP HS AtomicBatches (CircuitOram.drainAll budgets s) v ∧
      (CircuitOram.drainAll budgets s).schedule.issuedAccesses = s.schedule.issuedAccesses ∧
      ((CircuitOram.drainAll budgets s).stash = s.stash ∨ s.Countable) := by
  induction budgets generalizing s with
  | nil => exact ⟨h, rfl, .inl rfl⟩
  | cons budget budgets ih =>
    obtain ⟨hissued, hstash⟩ := h.drained_stash budget
    obtain ⟨hreached, hissued', hstash'⟩ := ih (h.drained budget)
    refine ⟨hreached, hissued'.trans hissued, ?_⟩
    rcases hstash with hstash | hcount
    · rcases hstash' with hstash' | hcount
      · exact .inl (hstash'.trans hstash)
      · unfold Controller.Countable at hcount ⊢
        rw [hissued] at hcount
        exact .inr hcount
    · exact .inr hcount

/-! ## The access again -/

/-- In runs whose failed batches are atomic: an access that overflows leaves the controller,
    the pages and the array, and when drains freed a slot it succeeds and returns what was
    written last. -/
theorem Reached.overflow_retry (h : Reached p HM HP HS AtomicBatches s v) {logicalId : UInt64}
    (hid : logicalId.toNat < p.logicalBlocks) {update : Update} {len cap : Nat}
    (hrun : CircuitOram.access logicalId update s = (.error (.stashOverflow len cap), s')) :
    s'.toController = s.toController ∧ SamePages HM HP p s s' ∧
      (∃ tree w, HoldsArray HM HP p s' tree w ∧ (w = v ∨ ¬ s'.Countable)) ∧
      ∀ budgets, 0 < freeSlots (CircuitOram.drainAll budgets s').stash →
        ∃ s'', CircuitOram.access logicalId update (CircuitOram.drainAll budgets s') = (.ok (v logicalId.toNat), s'') := by
  obtain ⟨hctl, hsame⟩ := h.overflow_unchanged hrun
  have hfailed : Reached p HM HP HS AtomicBatches s' v :=
    .failed (.access logicalId update) h (Eff.bind_error hrun) fun _ _ hop => by cases hop
  obtain ⟨b, hr, w, hw, hv⟩ := hfailed.serving
  have hc := hr.controller
  refine ⟨hctl, hsame, ⟨b.tree, w, hr.holdsArray hw, hv.imp_right fun hn => by rwa [hc]⟩, fun budgets hfree => ?_⟩
  obtain ⟨hreached, hissued, hstash⟩ := hfailed.drainAll budgets
  obtain ⟨b₂, hr₂, w₂, hw₂, hv₂⟩ := hreached.serving
  have hc₂ := hr₂.controller
  -- a stash that lost a block was drained, so the counter is far from full
  have hfull : freeSlots s'.stash = 0 := by
    obtain ⟨b₀, hr₀, w₀, hw₀, -⟩ := h.serving
    have haccess := hw₀.access hid update
    have h1 := (access_outcome hr₀ logicalId update).honest.1
    rw [hrun] at h1
    rw [show s'.stash = b₀.stash from congrArg Controller.stash (hctl.trans hr₀.controller)]
    generalize Blocks.access logicalId update .none b₀ = r at haccess h1
    cases haccess with
    | ok _ _ _ => cases h1
    | full _ hfull => exact hfull
    | uncounted _ _ _ _ => cases h1
  have hcount : b₂.Countable := by
    rcases hstash with hstash | hcount
    · rw [hstash] at hfree
      omega
    · unfold Controller.Countable at hcount ⊢
      rwa [← hc₂, hissued]
  obtain rfl : w₂ = v := hv₂.resolve_right fun hn => hn hcount
  have haccess := hw₂.access hid update
  have h1 := (access_outcome hr₂ logicalId update).honest.1
  rw [show (CircuitOram.drainAll budgets s').stash = b₂.stash from congrArg Controller.stash hc₂] at hfree
  generalize Blocks.access logicalId update .none b₂ = r at haccess h1
  cases haccess with
  | ok _ _ _ => exact ⟨_, Prod.ext h1 rfl⟩
  | full _ hfull => omega
  | uncounted _ hn _ _ => exact absurd hcount hn

/-! ## A stash of three slots -/

/-- Four blocks of one byte in a tree of seven buckets of one slot. -/
def wideParams : OramParams where
  logicalBlocks := 4
  blockSize := 1
  bucketSize := 1
  leaves := 4
  stashCapacity := 3
  logicalBlocks_lt := by decide
  blockSize_pos := Nat.one_pos
  bucketSize_pos := Nat.one_pos
  leaves_pow := by decide
  leaves_ge := by decide
  leaves_lt := by decide

def wideBuild : Result (CircuitOram MemPageStore MemPageStore ZeroSeedRng) :=
  CircuitOram.buildTrusted wideParams (zeroPages 7 13 smallMetaPage_pos) (zeroPages 7 1 Nat.one_pos) [[5], [6], [7], [8]]
    (FixedBytes.zero 32)

def wideOram : CircuitOram MemPageStore MemPageStore ZeroSeedRng := wideBuild.toOption.get (by decide +kernel)

def wideMemory : Memory := fun k => [[5], [6], [7], [8]].getD k []

theorem wideOram_reached (Fails : CircuitOram MemPageStore MemPageStore ZeroSeedRng → Op → Prop) :
    Reached wideParams MemPageStore.honest MemPageStore.honest VecBlockSource.honest Fails wideOram wideMemory := by
  refine .buildTrusted [[5], [6], [7], [8]] (FixedBytes.zero 32) (MemPageStore.holds_self _)
    (MemPageStore.holds_self _) (fun k x hx => ?_) (toOption_get _)
  simp only [wideMemory, List.getD_eq_getElem?_getD]
  rw [show ([[5], [6], [7], [8]] : List Bytes)[k]? = some x from hx]
  rfl

/-- Three reads that fill the stash. -/
def wideReads : Op := .accessBatch [3, 2, 0] fun _ _ => .keep

def wideRead : CircuitOram MemPageStore MemPageStore ZeroSeedRng := (wideReads.run wideOram).2

theorem wideRead_eq : wideReads.run wideOram = (.ok [[8], [7], [5]], wideRead) :=
  Prod.ext (by decide +kernel) (by rw [wideRead])

theorem wideRead_reached : Reached wideParams MemPageStore.honest MemPageStore.honest VecBlockSource.honest AtomicBatches
    wideRead (wideMemory.serveAll wideReads.requests).2 :=
  .ok wideReads (wideOram_reached _) wideRead_eq

/-- What the read of the fourth block leaves. -/
def wideFull : CircuitOram MemPageStore MemPageStore ZeroSeedRng := (CircuitOram.access 1 .keep wideRead).2

theorem wideFull_eq : CircuitOram.access 1 .keep wideRead = (.error (.stashOverflow 4 3), wideFull) :=
  Prod.ext (by decide +kernel) (by rw [wideFull])

theorem overflow_retry_wide :
    let v := (wideMemory.serveAll wideReads.requests).2
    wideFull.toController = wideRead.toController ∧
      SamePages MemPageStore.honest MemPageStore.honest wideParams wideRead wideFull ∧
      (∃ tree w, HoldsArray MemPageStore.honest MemPageStore.honest wideParams wideFull tree w ∧
        (w = v ∨ ¬ wideFull.Countable)) ∧
      ∀ budgets, 0 < freeSlots (CircuitOram.drainAll budgets wideFull).stash →
        ∃ s'', CircuitOram.access 1 .keep (CircuitOram.drainAll budgets wideFull) = (.ok (v (1 : UInt64).toNat), s'') :=
  Reached.overflow_retry wideRead_reached (by decide) wideFull_eq

/-- The four writes of this batch fail at the fourth, after block 0 was rewritten. -/
def wideBatch : Op := .accessBatch [3, 2, 0, 1] fun _ _ => .copyFrom [99]

def wideFailed : CircuitOram MemPageStore MemPageStore ZeroSeedRng := (wideBatch.run wideOram).2

theorem wideFailed_eq : wideBatch.run wideOram = (.error (.stashOverflow 4 3), wideFailed) :=
  Prod.ext (by decide +kernel) (by rw [wideFailed])

theorem wideFailed_reached :
    Reached wideParams MemPageStore.honest MemPageStore.honest VecBlockSource.honest (fun _ _ => True) wideFailed wideMemory :=
  .failed wideBatch (wideOram_reached _) wideFailed_eq trivial

/-- Block 0 was found in the tree by the batch that failed, and its copy in the stash is what
    the retry finds. -/
theorem overflow_retry_stale :
    Reached wideParams MemPageStore.honest MemPageStore.honest VecBlockSource.honest (fun _ _ => True) wideFailed wideMemory ∧
      let run := CircuitOram.access 0 .keep wideFailed
      let s := CircuitOram.drainAll [1] run.2
      run.1 = .error (.stashOverflow 4 3) ∧ 0 < freeSlots s.stash ∧ (CircuitOram.access 0 .keep s).1 = .ok [99] ∧
        wideMemory 0 = [5] := by
  refine ⟨wideFailed_reached, ?_⟩
  decide +kernel

end
end BpirOram
