/-
  BpirOram.Circuit.Access — an access reads and writes one entry of the array.

  `Inv.removeTarget` leaves the target in the stash; here it is read, rewritten and given
  a fresh leaf there. `Served` collects what one access without a store failure does; a
  sequence of them serves its requests in order.
-/

import BpirOram.Circuit.Invariant

namespace BpirOram

open Lib

variable {ρ : Type} {p : OramParams}

/-! ## The array -/

abbrev Memory := Nat → Bytes

namespace Memory

def serve (v : Memory) (logicalId : UInt64) (update : Update) : Memory :=
  Function.update v logicalId.toNat (update.apply (v logicalId.toNat))

/-- The payloads a list of requests reads, in order, and the array they leave. -/
def serveAll : Memory → List (UInt64 × Update) → List Bytes × Memory
  | v, [] => ([], v)
  | v, r :: requests =>
    let rest := serveAll (v.serve r.1 r.2) requests
    (v r.1.toNat :: rest.1, rest.2)

theorem serve_keep (v : Memory) (logicalId : UInt64) : v.serve logicalId .keep = v :=
  Function.update_eq_self _ _

end Memory

/-! ## The target in the stash -/

/-- The scan from any point on: it has found the id once a slot held it, and then has `w`. -/
theorem scanLoop_eq {logicalId : UInt64} {n : Nat} {w : Bytes} {l : List OramBlock}
    (hl : ∀ x ∈ l, x.payload.length = n) (hw : ∀ x ∈ l, x.logicalIdChoice logicalId = true → x.payload = w)
    {found : Ct.Choice} {output : Bytes} (ho : output.length = n) (hf : found = true → output = w) :
    (l.foldl (fun (found, output) block =>
      let matched := block.logicalIdChoice logicalId
      (found || matched, Ct.cmovBytes output block.payload matched)) (found, output))
      = (found || l.any (·.logicalIdChoice logicalId),
          if found || l.any (·.logicalIdChoice logicalId) then w else output) := by
  induction l generalizing found output with
  | nil =>
    cases found
    · rfl
    · simp [hf rfl]
  | cons x l ih =>
    have hx := hl x (by simp)
    rw [List.foldl_cons, ih (fun y hy => hl y (by simp [hy])) (fun y hy => hw y (by simp [hy]))]
    · cases hm : x.logicalIdChoice logicalId
      · simp only [Ct.cmovBytes_false, Bool.or_false, List.any_cons, hm, Bool.false_or]
      · simp only [Bool.or_true, Bool.true_or, if_true, List.any_cons, hm]
    · cases x.logicalIdChoice logicalId
      · rw [Ct.cmovBytes_false, ho]
      · rw [Ct.cmovBytes_true (ho.trans hx.symm), hx]
    · intro hor
      cases hm : x.logicalIdChoice logicalId
      · rw [Ct.cmovBytes_false]
        exact hf (by simpa [hm] using hor)
      · rw [Ct.cmovBytes_true (ho.trans hx.symm)]
        exact hw x (by simp) hm

theorem scanStash_eq {stash : List OramBlock} {logicalId : UInt64} {n : Nat} {w : Bytes}
    (hl : ∀ x ∈ stash, x.payload.length = n) (hw : ∀ x ∈ stash, x.logicalIdChoice logicalId = true → x.payload = w)
    (hin : stash.any (·.logicalIdChoice logicalId) = true) : scanStash stash logicalId n = (true, w) := by
  rw [scanStash, scanLoop_eq hl hw (by simp) (by simp), hin]
  rfl

/-- The write-back, slot by slot. -/
def rewriteSlot (logicalId : UInt64) (newPayload : Bytes) (newLeaf : UInt32) (x : OramBlock) : OramBlock :=
  if x.logicalIdChoice logicalId then { x with payload := newPayload, leaf := newLeaf } else x

theorem updateStash_eq {stash : List OramBlock} {logicalId : UInt64} {newPayload : Bytes} {newLeaf : UInt32} {n : Nat}
    (hl : ∀ x ∈ stash, x.payload.length = n) (hn : newPayload.length = n) :
    updateStash stash logicalId newPayload newLeaf = stash.map (rewriteSlot logicalId newPayload newLeaf) := by
  refine List.map_congr_left fun x hx => ?_
  simp only [rewriteSlot]
  cases x.logicalIdChoice logicalId
  · simp
  · simp [Ct.cmovBytes_true ((hl x hx).trans hn.symm)]

@[simp] theorem rewriteSlot_occupied (logicalId : UInt64) (newPayload : Bytes) (newLeaf : UInt32) (x : OramBlock) :
    (rewriteSlot logicalId newPayload newLeaf x).occupied = x.occupied := by
  unfold rewriteSlot
  split <;> rfl

@[simp] theorem rewriteSlot_logicalId (logicalId : UInt64) (newPayload : Bytes) (newLeaf : UInt32) (x : OramBlock) :
    (rewriteSlot logicalId newPayload newLeaf x).logicalId = x.logicalId := by
  unfold rewriteSlot
  split <;> rfl

theorem occ_rewriteSlot (stash : List OramBlock) (logicalId : UInt64) (newPayload : Bytes) (newLeaf : UInt32) :
    occ (stash.map (rewriteSlot logicalId newPayload newLeaf))
      = (occ stash).map (rewriteSlot logicalId newPayload newLeaf) := by
  induction stash with
  | nil => rfl
  | cons x stash ih =>
    rw [List.map_cons, occ_cons, occ_cons, ih, rewriteSlot_occupied, Multiset.map_add]
    cases x.occupied <;> simp

/-- A rewritten block is the block of the rewritten array. -/
theorem rewriteSlot_blockOf {posMap : List UInt32} (hp : posMap.length ≤ 2 ^ 64) (v : Memory) {logicalId : UInt64}
    (hid : logicalId.toNat < posMap.length) (newPayload : Bytes) (newLeaf : UInt32) {k : Nat} (hk : k < 2 ^ 64) :
    rewriteSlot logicalId newPayload newLeaf (blockOf posMap v k)
      = blockOf (scanPosMapUpdate posMap logicalId newLeaf) (Function.update v logicalId.toNat newPayload) k := by
  rw [scanPosMapUpdate_eq hp, rewriteSlot]
  by_cases hkid : k = logicalId.toNat
  · subst hkid
    have hm : (blockOf posMap v logicalId.toNat).logicalIdChoice logicalId = true :=
      OramBlock.logicalIdChoice_iff.mpr ⟨rfl, by rw [blockOf, UInt64.ofNat_toNat]⟩
    rw [if_pos hm]
    simp only [blockOf, Function.update_self, List.getD_eq_getElem?_getD, List.getElem?_set_self hid, Option.getD_some]
  · have hm : (blockOf posMap v k).logicalIdChoice logicalId = false := by
      rw [Bool.eq_false_iff]
      intro h
      have he := congrArg UInt64.toNat (OramBlock.logicalIdChoice_iff.mp h).2
      rw [blockOf, toNat_ofNat hk] at he
      exact hkid he
    rw [if_neg (by simp [hm])]
    simp only [blockOf, Function.update_of_ne hkid, List.getD_eq_getElem?_getD, List.getElem?_set_ne (Ne.symm hkid)]

namespace Inv

variable {b : Blocks ρ} {v : Memory} {logicalId : UInt64}

/-- The scan of the stash finds the target and moves its payload out. -/
theorem scan (h : Inv p b v) (hid : logicalId.toNat < p.logicalBlocks) (hin : b.inStash logicalId = true) :
    scanStash b.stash logicalId p.blockSize = (true, v logicalId.toNat) := by
  refine scanStash_eq h.shape.controller.payload (fun x hx hm => ?_) hin
  obtain ⟨ho, hxid⟩ := OramBlock.logicalIdChoice_iff.mp hm
  rw [h.eq_blockOf hid (Multiset.mem_add.mpr (.inr (mem_occ.mpr ⟨hx, ho⟩))) hxid, blockOf]

/-- Rewriting the target where it is, in the stash. -/
theorem rewrite (h : Inv p b v) (hid : logicalId.toNat < p.logicalBlocks) (hin : b.inStash logicalId = true)
    {newLeaf : UInt32} (hleaf : newLeaf.toNat < p.leaves) {newPayload : Bytes} (hn : newPayload.length = p.blockSize)
    (rng : ρ) (schedule : CircuitEvictionSchedule) (hs : schedule.leafBits = p.leafBits) :
    Inv p
      { b with
        posMap := scanPosMapUpdate b.posMap logicalId newLeaf
        stash := updateStash b.stash logicalId newPayload newLeaf
        rng, schedule }
      (Function.update v logicalId.toNat newPayload) := by
  have hc := h.shape.controller
  have hlt := hc.logicalBlocks_lt
  refine { shape := ⟨?_, h.shape.tree⟩, blocks := ?_, onPath := h.onPath }
  · exact { Controller.shape_updateStash hc logicalId _ newLeaf hn with
      posMap := by simpa using hc.posMap
      leaves := Controller.scanPosMapUpdate_leaves hc.leaves hleaf
      leafBits := hs }
  · -- every block of the controller is rewritten: those of the tree have other ids
    obtain ⟨y, hy, hyid⟩ := Controller.inStash_iff.mp hin
    have htree : treeBlocks p b.tree = (treeBlocks p b.tree).map (rewriteSlot logicalId newPayload newLeaf) := by
      refine Eq.trans (Multiset.map_id' _).symm (Multiset.map_congr rfl fun x hx => ?_)
      rw [rewriteSlot, if_neg]
      intro hm
      exact h.apart hx hy ((OramBlock.logicalIdChoice_iff.mp hm).2.trans hyid.symm)
    rw [Blocks.blocks, updateStash_eq hc.payload hn, occ_rewriteSlot, htree, ← Multiset.map_add, ← Blocks.blocks, h.blocks,
      allBlocks, allBlocks, Multiset.map_map]
    refine Multiset.map_congr rfl fun k hk => ?_
    exact rewriteSlot_blockOf hlt v (by rw [hc.posMap]; exact hid) newPayload newLeaf
      ((Multiset.mem_range.mp hk).trans p.logicalBlocks_lt)

end Inv
/-! ## Finishing an access -/

namespace Controller

variable {c : Controller ρ}

def counted (c : Controller ρ) : Controller ρ :=
  { c with schedule := { c.schedule with issuedAccesses := c.schedule.issuedAccesses + 1 } }

/-- The access counter has room for one more. -/
def Countable (c : Controller ρ) : Prop := c.schedule.issuedAccesses.toNat + 1 < 2 ^ 64

instance (c : Controller ρ) : Decidable c.Countable := inferInstanceAs (Decidable (_ < _))

theorem recordAccess_eq (c : Controller ρ) :
    onSchedule CircuitEvictionSchedule.recordAccess c =
      if c.Countable then (.ok (), c.counted) else (.error (.invalidInput "access counter overflow"), c) := by
  simp only [onSchedule, Eff.zoom]
  by_cases h : c.Countable
  · rw [if_pos h, CircuitEvictionSchedule.recordAccess_ok h]
    rfl
  · rw [if_neg h, CircuitEvictionSchedule.recordAccess_error h]

theorem counted_issued (h : c.Countable) :
    c.counted.schedule.issuedAccesses.toNat = c.schedule.issuedAccesses.toNat + 1 := by
  unfold Countable at h
  rw [counted, UInt64.toNat_add, UInt64.toNat_one, Nat.mod_eq_of_lt h]

theorem counted_shape (h : c.Shape p) : c.counted.Shape p := { h with }

/-- The target's slot in the stash after its request. -/
def written (c : Controller ρ) (logicalId : UInt64) (update : Update) (newLeaf : UInt32) : Controller ρ :=
  { c with stash := updateStash c.stash logicalId (update.apply (scanStash c.stash logicalId c.params.blockSize).2) newLeaf }

theorem finishRequest_eq (c : Controller ρ) (logicalId : UInt64) (newLeaf : UInt32) (update : Update) :
    finishRequest logicalId newLeaf update c =
      if !(scanStash c.stash logicalId c.params.blockSize).1 then (.error (.blockNotFound logicalId), c)
      else if c.Countable then
        (.ok (scanStash c.stash logicalId c.params.blockSize).2, (c.written logicalId update newLeaf).counted)
      else (.error (.invalidInput "access counter overflow"), c.written logicalId update newLeaf) := by
  simp only [finishRequest, Eff.get_bind]
  rw [Eff.ite_apply]
  split
  · rfl
  · have hrec := recordAccess_eq (c.written logicalId update newLeaf)
    change (onSchedule CircuitEvictionSchedule.recordAccess >>= fun _ => pure _) (c.written logicalId update newLeaf) = _
    by_cases hcount : c.Countable
    · rw [if_pos (show (c.written logicalId update newLeaf).Countable from hcount)] at hrec
      rw [if_pos hcount, Eff.bind_ok hrec]
      rfl
    · rw [if_neg (show ¬ (c.written logicalId update newLeaf).Countable from hcount)] at hrec
      rw [if_neg hcount, Eff.bind_error hrec]

section
variable [Rng ρ]

/-- The leaf the next access draws. -/
def nextLeaf (c : Controller ρ) : UInt32 := (randomLeaf c.params c.rng).1

/-- The controller after an access drew its leaf, apart from the count. -/
def remapped (c : Controller ρ) (logicalId : UInt64) (update : Update) : Controller ρ :=
  { c.written logicalId update c.nextLeaf with
    rng := (randomLeaf c.params c.rng).2
    posMap := scanPosMapUpdate c.posMap logicalId c.nextLeaf }

theorem finishAccess_eq (h : c.Shape p) (logicalId : UInt64) (update : Update) :
    finishAccess logicalId update c =
      if !(scanStash c.stash logicalId c.params.blockSize).1 then (.error (.blockNotFound logicalId), c)
      else if c.Countable then
        (.ok (scanStash c.stash logicalId c.params.blockSize).2, (c.remapped logicalId update).counted)
      else (.error (.invalidInput "access counter overflow"), c.remapped logicalId update) := by
  have hshape : (c.remapped logicalId update).Shape p := by
    have hs := shape_updateStash h logicalId (update.apply (scanStash c.stash logicalId c.params.blockSize).2) c.nextLeaf (by
        rw [update.length_apply, h.params, scanStash_length h.payload])
    exact { hs with
      posMap := by simpa [remapped] using h.posMap
      leaves := scanPosMapUpdate_leaves h.leaves (h.params ▸ randomLeaf_lt c.params c.rng) }
  simp only [finishAccess, Eff.get_bind]
  rw [Eff.ite_apply]
  split
  · rfl
  · have hrec := recordAccess_eq (c.remapped logicalId update)
    change (onSchedule CircuitEvictionSchedule.recordAccess >>= fun _ => checkStash >>= fun _ => pure _)
      (c.remapped logicalId update) = _
    by_cases hcount : c.Countable
    · rw [if_pos (show (c.remapped logicalId update).Countable from hcount)] at hrec
      rw [if_pos hcount, Eff.bind_ok hrec, Eff.bind_ok (checkStash_ok (counted_shape hshape))]
      rfl
    · rw [if_neg (show ¬ (c.remapped logicalId update).Countable from hcount)] at hrec
      rw [if_neg hcount, Eff.bind_error hrec]

end
end Controller

/-! ## One access -/

theorem freeSlots_updateStash {stash : List OramBlock} {logicalId : UInt64} {newPayload : Bytes} {newLeaf : UInt32} :
    freeSlots (updateStash stash logicalId newPayload newLeaf) = freeSlots stash := by
  rw [freeSlots, freeSlots, updateStash, List.countP_map]
  rfl

theorem any_updateStash {stash : List OramBlock} {logicalId other : UInt64} {newPayload : Bytes} {newLeaf : UInt32} :
    (updateStash stash logicalId newPayload newLeaf).any (·.logicalIdChoice other)
      = stash.any (·.logicalIdChoice other) := by
  rw [updateStash, List.any_map]
  rfl

theorem Cleared.trans {new mid old : List OramBlock} (h : Cleared new mid) (h' : Cleared mid old) : Cleared new old := by
  induction h generalizing old with
  | nil => exact h'
  | cons hab _ ih =>
    cases h' with
    | cons hbc hrest => exact .cons (fun ho => by rw [hab ho, hbc (hab ho ▸ ho)]) (ih hrest)

/-- What an access that no store call failed leaves. -/
structure Served (p : OramParams) (b : Blocks ρ) (v : Memory) (logicalId : UInt64) (update : Update) (b' : Blocks ρ) :
    Prop where
  inv : Inv p b' (v.serve logicalId update)
  cleared : ∀ i, Cleared (b'.tree i) (b.tree i)
  free : freeSlots b'.stash + (if b.inStash logicalId then 0 else 1) = freeSlots b.stash
  inStash : ∀ other, b'.inStash other = (b.inStash other || other == logicalId)
  issued : b'.schedule.issuedAccesses.toNat = b.schedule.issuedAccesses.toNat + 1
  tree : b.inStash logicalId = true → b'.tree = b.tree

/-- The ways an access ends when no store call fails. -/
inductive Accessed (p : OramParams) (b : Blocks ρ) (v : Memory) (logicalId : UInt64) (update : Update) :
    Result Bytes × Blocks ρ → Prop
  | ok {b'} : (b.inStash logicalId = true ∨ 0 < freeSlots b.stash) → b.Countable → Served p b v logicalId update b' →
      Accessed p b v logicalId update (.ok (v logicalId.toNat), b')
  | full : b.inStash logicalId = false → freeSlots b.stash = 0 →
      Accessed p b v logicalId update (.error (.stashOverflow (p.stashCapacity + 1) p.stashCapacity), b)
  | uncounted {b'} : (b.inStash logicalId = true ∨ 0 < freeSlots b.stash) → ¬ b.Countable →
      Inv p b' (v.serve logicalId update) → ¬ b'.Countable →
      Accessed p b v logicalId update (.error (.invalidInput "access counter overflow"), b')

section
variable [Rng ρ] {b : Blocks ρ} {v : Memory} {logicalId : UInt64}

/-- The rest of an access, once the target is in the stash. -/
theorem Inv.finishAccess (h : Inv p b v) (hid : logicalId.toNat < p.logicalBlocks) (hin : b.inStash logicalId = true)
    (update : Update) :
    Blocks.onController (Controller.finishAccess logicalId update) b =
        (if b.Countable then (.ok (v logicalId.toNat), { b with toController := (b.remapped logicalId update).counted })
          else (.error (.invalidInput "access counter overflow"), { b with toController := b.remapped logicalId update })) ∧
      Inv p { b with toController := b.remapped logicalId update } (v.serve logicalId update) := by
  have hc := h.shape.controller
  have hscan := h.scan hid hin
  constructor
  · simp only [Blocks.onController, Eff.zoom, Controller.finishAccess_eq hc, hc.params, hscan, Bool.not_true,
      Bool.false_eq_true, if_false]
    split <;> rfl
  · have hlen : (update.apply (v logicalId.toNat)).length = p.blockSize := by
      rw [update.length_apply, h.payload_length hid]
    have hw := h.rewrite hid hin (show b.nextLeaf.toNat < _ from hc.params ▸ randomLeaf_lt b.params b.rng) hlen
      (randomLeaf b.params b.rng).2 b.schedule hc.leafBits
    simpa only [Controller.remapped, Controller.written, Memory.serve, hc.params, hscan] using hw

/-- The access, once the target was moved from `b` to the stash of `b₁`. -/
theorem Inv.finish {b₁ : Blocks ρ} (h₁ : Inv p b₁ v) (hid : logicalId.toNat < p.logicalBlocks)
    (hin : b₁.inStash logicalId = true) (update : Update) (hroom : b.inStash logicalId = true ∨ 0 < freeSlots b.stash)
    (hcl : ∀ i, Cleared (b₁.tree i) (b.tree i))
    (hfree : freeSlots b₁.stash + (if b.inStash logicalId then 0 else 1) = freeSlots b.stash)
    (hother : ∀ other, b₁.inStash other = (b.inStash other || other == logicalId)) (hsched : b₁.schedule = b.schedule)
    (htree : b.inStash logicalId = true → b₁.tree = b.tree) :
    Accessed p b v logicalId update (Blocks.onController (Controller.finishAccess logicalId update) b₁) := by
  obtain ⟨hrun, hinv⟩ := h₁.finishAccess hid hin update
  rw [hrun]
  by_cases hcount : b₁.Countable
  · rw [if_pos hcount]
    have hcount' : b.Countable := by unfold Controller.Countable at hcount ⊢; rwa [hsched] at hcount
    refine .ok hroom hcount'
      { inv := hinv.frame _ hinv.shape.controller.leafBits
        cleared := hcl
        free := ?_
        inStash := fun other => ?_
        issued := ?_
        tree := htree }
    · rw [← hfree]
      exact congrArg (· + _) freeSlots_updateStash
    · rw [← hother]
      exact any_updateStash
    · rw [← hsched]
      exact Controller.counted_issued (c := b₁.remapped logicalId update) hcount
  · rw [if_neg hcount]
    exact .uncounted hroom (by unfold Controller.Countable at hcount ⊢; rwa [hsched] at hcount) hinv hcount

theorem Inv.access (h : Inv p b v) (hid : logicalId.toNat < p.logicalBlocks) (update : Update) :
    Accessed p b v logicalId update (Blocks.access logicalId update .none b) := by
  have hc := h.shape.controller
  have hrem := h.removeTarget hid
  simp only [Blocks.access, Eff.get_bind, hc.params]
  rw [if_neg (by omega)]
  generalize hrun : Blocks.removeTarget (p.pathNodes (scanPosMapLookup b.posMap logicalId)) logicalId b = r at hrem
  cases hrem with
  | inStash hin =>
    have hbr : Blocks.bracket .none (Blocks.removeTarget (p.pathNodes (scanPosMapLookup b.posMap logicalId)) logicalId) b
        = (.ok (), b) := by
      simp only [Blocks.bracket, hrun]
    rw [Eff.bind_ok hbr]
    refine h.finish hid hin update (.inl hin) (fun i => Cleared.refl _) (by rw [if_pos hin]; rfl) (fun other => ?_) rfl
      fun _ => rfl
    cases ho : other == logicalId
    · rw [Bool.or_false]
    · rw [beq_iff_eq.mp ho, hin]
      rfl
  | full hin hfull =>
    have hbr : Blocks.bracket .none (Blocks.removeTarget (p.pathNodes (scanPosMapLookup b.posMap logicalId)) logicalId) b
        = (.error (.stashOverflow (p.stashCapacity + 1) p.stashCapacity), b) := by
      simp only [Blocks.bracket, hrun]
    rw [Eff.bind_error hbr]
    exact .full hin hfull
  | @moved tree stash hin hfree hinv hcl hocc =>
    have hbr : Blocks.bracket .none (Blocks.removeTarget (p.pathNodes (scanPosMapLookup b.posMap logicalId)) logicalId) b
        = (.ok (), { b with tree, stash }) := by
      simp only [Blocks.bracket, hrun]
    have hother : ∀ other,
        Controller.inStash { b.toController with stash } other = (b.inStash other || other == logicalId) := by
      intro other
      rw [Bool.eq_iff_iff, Bool.or_eq_true, Controller.inStash_iff, Controller.inStash_iff, beq_iff_eq, hocc]
      simp only [Multiset.mem_add, Multiset.mem_singleton, or_and_right, exists_or, exists_eq_left, blockOf,
        UInt64.ofNat_toNat, eq_comm (a := logicalId)]
    rw [Eff.bind_ok hbr]
    refine hinv.finish hid ?_ update (.inr (by omega)) hcl (by rw [if_neg (by simp [hin])]; exact hfree) hother rfl
      fun hin' => by rw [hin] at hin'; cases hin'
    rw [hother]
    simp

end

end BpirOram
