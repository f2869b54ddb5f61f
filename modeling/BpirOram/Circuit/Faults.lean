/-
  BpirOram.Circuit.Faults — the controller when its stores fail.

  Events. Between two calls either store may begin or cease to fail its reads or its
  writes. A call reads the metadata store, then the payload store, works on the stash, and
  writes the two in the same order; the first store call that fails ends it, and only the
  pages that were not written go back.
  - `Inv.struck_iff`: when a failed write leaves the array. A metadata write may fail when
    every target was in the stash, or the evictions moved nothing out of or into the tree; a
    payload write may fail under any access, under a batch that changes nothing (the batch is
    done by then) and under evictions that move no payload.
  - `FaultyRun.array_survives`: in runs whose calls fail at a read, or at such a write, or are
    refused whole, the array stands, and calls return what it holds.
-/

import BpirOram.Circuit.Atomic
import BpirOram.Circuit.Reopen
import BpirOram.Faults
import Mathlib.Algebra.Order.BigOperators.Group.Finset

namespace BpirOram

open Lib

variable {M P S ρ : Type} {p : OramParams}

/-! ## A placement whose tree was not written -/

/-- New metadata over old payloads, bucket by bucket. -/
def mixTree (new old : Nat → List OramBlock) : Nat → List OramBlock := fun i => mixPages (new i) (old i)

theorem Cleared.occ_le {new old : List OramBlock} (h : Cleared new old) : occ new ≤ occ old := by
  induction h with
  | nil => exact le_rfl
  | @cons n o new old hno _ ih =>
    rw [occ_cons, occ_cons]
    refine add_le_add ?_ ih
    cases hn : n.occupied
    · exact Multiset.zero_le _
    · rw [← hno hn, hn]

theorem treeBlocks_mono {new old : Nat → List OramBlock} (h : ∀ i, Cleared (new i) (old i)) :
    treeBlocks p new ≤ treeBlocks p old := by
  unfold treeBlocks gather
  exact Finset.sum_le_sum fun i _ => (h i).occ_le

theorem treeBlocks_mixTree {new old : Nat → List OramBlock} (h : ∀ i, Cleared (new i) (old i)) :
    treeBlocks p (mixTree new old) = treeBlocks p new :=
  gather_congr fun i _ => (h i).occ_mixPages

theorem mixTree_shape {z n count : Nat} {new old : Nat → List OramBlock} (hn : ∀ i < count, BucketShape z n (new i))
    (ho : ∀ i < count, BucketShape z n (old i)) : ∀ i < count, BucketShape z n (mixTree new old i) :=
  fun i hi => mixPages_shape (hn i hi) (ho i hi)

theorem onPath_mixTree {new : Nat → List OramBlock} (h : OnPath p new) (old : Nat → List OramBlock) :
    OnPath p (mixTree new old) := by
  intro i hi x hx ho
  obtain ⟨y, hy, hocc, hleaf⟩ := mem_mixPages hx
  rw [← hleaf]
  exact h i hi y hy (hocc.trans ho)

namespace Inv

variable {b b₁ : Blocks ρ} {v w : Memory}

/-- A placement holds one array only. -/
theorem same_iff (h : Inv p b v) : Inv p b w ↔ ∀ k < p.logicalBlocks, v k = w k := by
  constructor
  · intro hw k hk
    have hid : (UInt64.ofNat k).toNat = k := toNat_ofNat (hk.trans p.logicalBlocks_lt)
    have hlt : (UInt64.ofNat k).toNat < p.logicalBlocks := by rwa [hid]
    have heq := hw.eq_blockOf hlt (h.block_mem hk) rfl
    rw [hid] at heq
    exact congrArg OramBlock.payload heq
  · intro hvw
    refine { h with blocks := h.blocks.trans (Multiset.map_congr rfl fun k hk => ?_) }
    rw [blockOf, blockOf, hvw k (Multiset.mem_range.mp hk)]

theorem card_blocks (h : Inv p b v) : (b.blocks p).card = p.logicalBlocks := by
  rw [h.blocks, allBlocks, Multiset.card_map, Multiset.card_range]

/-- Another tree under the same stash, with no block more than there was. -/
theorem retree_iff (h : Inv p b v) {tree : Nat → List OramBlock}
    (hshape : ∀ i < p.bucketCount, BucketShape p.bucketSize p.blockSize (tree i)) (hon : OnPath p tree)
    (hle : treeBlocks p b.tree ≤ treeBlocks p tree) :
    Inv p { b with tree } w ↔ treeBlocks p tree = treeBlocks p b.tree ∧ ∀ k < p.logicalBlocks, v k = w k := by
  constructor
  · intro hw
    have hcard := hw.card_blocks.trans h.card_blocks.symm
    rw [Blocks.blocks, Blocks.blocks, Multiset.card_add, Multiset.card_add, Nat.add_right_cancel_iff] at hcard
    have htree : treeBlocks p tree = treeBlocks p b.tree := (Multiset.eq_of_le_of_card_le hle hcard.le).symm
    refine ⟨htree, h.same_iff.mp { shape := h.shape, blocks := ?_, onPath := h.onPath }⟩
    rw [Blocks.blocks, ← htree]
    exact hw.blocks
  · rintro ⟨htree, hvw⟩
    have hw := h.same_iff.mpr hvw
    refine { shape := ⟨h.shape.controller, hshape⟩, blocks := ?_, onPath := hon }
    rw [Blocks.blocks, htree]
    exact hw.blocks

/-- The same when the array is the one there was. -/
theorem retree_self_iff (h : Inv p b v) {tree : Nat → List OramBlock}
    (hshape : ∀ i < p.bucketCount, BucketShape p.bucketSize p.blockSize (tree i)) (hon : OnPath p tree) :
    Inv p { b with tree } v ↔ treeBlocks p tree = treeBlocks p b.tree := by
  constructor
  · intro hw
    exact add_right_cancel (hw.blocks.trans h.blocks.symm)
  · intro htree
    refine { shape := ⟨h.shape.controller, hshape⟩, blocks := ?_, onPath := hon }
    rw [Blocks.blocks, htree]
    exact h.blocks

end Inv

/-! ## What a call leaves when a write fails -/

namespace Op

/-- The call comes to its reads. -/
def Reads (b : Blocks ρ) : Op → Prop
  | access logicalId _ => logicalId.toNat < b.params.logicalBlocks
  | accessBatch logicalIds _ => logicalIds ≠ [] ∧ ∀ id ∈ logicalIds, id.toNat < b.params.logicalBlocks
  | dummyAccess => True
  | dummyAccessBatch count => count ≠ 0
  | drainEvictions budget => ∃ n, b.schedule.pendingEvictions = .ok n ∧ min budget n ≠ 0

/-- The call comes to its writes, if no store call failed before. -/
def Writes (p : OramParams) (b : Blocks ρ) : Op → Prop
  | access logicalId _ => logicalId.toNat < p.logicalBlocks ∧ (b.inStash logicalId = true ∨ 0 < freeSlots b.stash)
  | accessBatch logicalIds _ => logicalIds ≠ [] ∧ (∀ id ∈ logicalIds, id.toNat < p.logicalBlocks) ∧ b.HasRoom logicalIds
  | dummyAccess => True
  | dummyAccessBatch count => count ≠ 0
  | drainEvictions budget => ∃ n, b.schedule.pendingEvictions = .ok n ∧ min budget n ≠ 0

/-- The placement a drain is about to write. -/
def drained (budget : UInt64) (b : Blocks ρ) : Blocks ρ :=
  match b.schedule.pendingEvictions with
  | .ok n => (Eff.forEach Blocks.evict (CircuitOram.evictionPaths b.toController (min budget n)) b).2
  | .error _ => b

/-- The writes of the call that may fail without harm to the array `v`. -/
def Harmless (p : OramParams) (b : Blocks ρ) (v : Memory) : Op → Fault → Prop
  | access logicalId _, .metaWrite _ => b.inStash logicalId = true
  | accessBatch logicalIds update, .metaWrite _ => (∀ id ∈ logicalIds, b.inStash id = true) ∧
      ∀ k < p.logicalBlocks, (v.serveAll (batchRequests update 0 logicalIds)).2 k = v k
  | accessBatch logicalIds update, .payloadWrite _ =>
      ∀ k < p.logicalBlocks, (v.serveAll (batchRequests update 0 logicalIds)).2 k = v k
  | drainEvictions budget, .metaWrite _ => treeBlocks p b.tree = treeBlocks p (drained budget b).tree
  | drainEvictions budget, .payloadWrite _ =>
      treeBlocks p (mixTree (drained budget b).tree b.tree) = treeBlocks p (drained budget b).tree
  | _, _ => True

end Op

/-- The call that fails at a write leaves the stash of `b₁` over the tree it found or over a
    tree of new metadata and old payloads. -/
structure Struck [Rng ρ] (op : Op) (b b₁ : Blocks ρ) : Prop where
  metaWrite (e : Error) : op.runBlocks (.metaWrite e) b = (.error e, { b₁ with tree := b.tree })
  payloadWrite (e : Error) : op.runBlocks (.payloadWrite e) b = (.error e, { b₁ with tree := mixTree b₁.tree b.tree })

section
variable {α : Type} {body : Eff Error (Blocks ρ) α} {a : α} {b b₁ : Blocks ρ}

theorem bracket_metaWrite (h : body b = (.ok a, b₁)) (e : Error) :
    Blocks.bracket (.metaWrite e) body b = (.error e, { b₁ with tree := b.tree }) := by
  simp only [Blocks.bracket, h]

theorem bracket_payloadWrite (h : body b = (.ok a, b₁)) (e : Error) :
    Blocks.bracket (.payloadWrite e) body b = (.error e, { b₁ with tree := mixTree b₁.tree b.tree }) := by
  simp only [Blocks.bracket, h]
  rfl

theorem bracket_unwritten {e : Error} (h : body b = (.error e, b₁)) {fault : Fault} {err : Error}
    (hfault : fault = .metaWrite err ∨ fault = .payloadWrite err) :
    Blocks.bracket fault body b = Blocks.bracket .none body b := by
  rcases hfault with rfl | rfl <;> simp only [Blocks.bracket, h]

end

section
variable [Rng ρ] {b b₁ : Blocks ρ} {v : Memory}

theorem Struck.access {logicalId : UInt64} (hs : b.Shape p) (hid : logicalId.toNat < p.logicalBlocks) (update : Update)
    (h : Blocks.removeTarget (p.pathNodes (scanPosMapLookup b.posMap logicalId)) logicalId b = (.ok (), b₁)) :
    Struck (.access logicalId update) b b₁ := by
  constructor <;> intro e <;> simp only [Op.runBlocks, Blocks.access]
  · refine Eff.bind_error ?_
    rw [Eff.get_bind, hs.controller.params, if_neg (by omega), Eff.bind_error (bracket_metaWrite h e)]
  · refine Eff.bind_error ?_
    rw [Eff.get_bind, hs.controller.params, if_neg (by omega), Eff.bind_error (bracket_payloadWrite h e)]

theorem Struck.accessBatch {logicalIds : List UInt64} (hs : b.Shape p) (hne : logicalIds ≠ [])
    (hids : ∀ id ∈ logicalIds, id.toNat < p.logicalBlocks) (update : Nat → UInt64 → Update) {outs : List Bytes}
    (h : Blocks.batchBody logicalIds update (randomLeaves p logicalIds.length b.rng).1
      (randomLeaves p logicalIds.length b.rng).2 b = (.ok outs, b₁)) :
    Struck (.accessBatch logicalIds update) b b₁ := by
  constructor <;> intro e <;> simp only [Op.runBlocks, Blocks.accessBatch]
  · rw [if_neg (by simpa using hne), Eff.get_bind, hs.controller.params, checkLogicalIds_of hids, Eff.lift_ok_bind,
      Eff.bind_error (bracket_metaWrite h e)]
  · rw [if_neg (by simpa using hne), Eff.get_bind, hs.controller.params, checkLogicalIds_of hids, Eff.lift_ok_bind,
      Eff.bind_error (bracket_payloadWrite h e)]

theorem Struck.drainEvictions {budget n : UInt64} (hn : b.schedule.pendingEvictions = .ok n) (hz : min budget n ≠ 0)
    {outs : List Unit}
    (h : Eff.forEach Blocks.evict (CircuitOram.evictionPaths b.toController (min budget n)) b = (.ok outs, b₁)) :
    Struck (.drainEvictions budget) b b₁ := by
  constructor <;> intro e <;> simp only [Op.runBlocks, Blocks.drainEvictions]
  · refine Eff.bind_error ?_
    rw [Eff.get_bind, hn, Eff.lift_ok_bind, if_neg hz, Eff.bind_error (bracket_metaWrite h e)]
  · refine Eff.bind_error ?_
    rw [Eff.get_bind, hn, Eff.lift_ok_bind, if_neg hz, Eff.bind_error (bracket_payloadWrite h e)]

theorem mixTree_self (tree : Nat → List OramBlock) : mixTree tree tree = tree :=
  funext fun i => mixPages_self (tree i)

theorem Struck.dummyAccess (b : Blocks ρ) : Struck .dummyAccess b { b with rng := (randomLeaf b.params b.rng).2 } := by
  have hbr := fun fault => bracket_pure fault { b with rng := (randomLeaf b.params b.rng).2 }
  have hrun : ∀ fault e, fault.result = .error e →
      Op.dummyAccess.runBlocks fault b = (.error e, { b with rng := (randomLeaf b.params b.rng).2 }) := by
    intro fault e he
    have hfail := hbr fault
    rw [he] at hfail
    refine Eff.bind_error (m := Blocks.dummyAccess fault) ?_
    rw [Blocks.dummyAccess, Eff.get_bind]
    exact (Eff.bind_ok rfl).trans (Eff.bind_error hfail)
  exact ⟨fun e => hrun (.metaWrite e) e rfl, fun e => by rw [mixTree_self]; exact hrun (.payloadWrite e) e rfl⟩

theorem Struck.dummyAccessBatch (b : Blocks ρ) {count : Nat} (hcount : count ≠ 0) :
    Struck (.dummyAccessBatch count) b { b with rng := (randomLeaves b.params count b.rng).2 } := by
  have hbr := fun fault => bracket_pure fault { b with rng := (randomLeaves b.params count b.rng).2 }
  have hrun : ∀ fault e, fault.result = .error e →
      (Op.dummyAccessBatch count).runBlocks fault b = (.error e, { b with rng := (randomLeaves b.params count b.rng).2 }) := by
    intro fault e he
    have hfail := hbr fault
    rw [he] at hfail
    refine Eff.bind_error (m := Blocks.dummyAccessBatch count fault) ?_
    rw [Blocks.dummyAccessBatch, if_neg hcount, Eff.get_bind]
    exact (Eff.bind_ok rfl).trans (Eff.bind_error hfail)
  exact ⟨fun e => hrun (.metaWrite e) e rfl, fun e => by rw [mixTree_self]; exact hrun (.payloadWrite e) e rfl⟩

end

/-! ## Whether the array stands -/

section
variable {b b₁ : Blocks ρ} {v : Memory}

/-- A batch with room has a count for its first request. -/
theorem Op.Writes.countable {logicalIds : List UInt64} {update : Nat → UInt64 → Update}
    (hw : (Op.accessBatch logicalIds update).Writes p b) : b.Countable := by
  obtain ⟨hne, -, -, hcount⟩ := hw
  have hpos : 0 < logicalIds.length := List.length_pos_of_ne_nil hne
  unfold Controller.Countable
  omega

/-- With the counter full no call that comes to its writes looks at the array. -/
theorem Op.Harmless.uncounted {op : Op} {fault : Fault} {w : Memory} (h : op.Harmless p b v fault) (hw : op.Writes p b)
    (hfull : ¬ b.Countable) : op.Harmless p b w fault := by
  cases op with
  | accessBatch logicalIds update => exact absurd hw.countable hfull
  | _ => cases fault <;> exact h

/-- Requests moved their targets out of the tree, unless all were in the stash before. -/
structure Moved (p : OramParams) (b b₁ : Blocks ρ) (v : Memory) (logicalIds : List UInt64) : Prop where
  inv : Inv p b₁ v
  cleared : ∀ i, Cleared (b₁.tree i) (b.tree i)
  inStash : ∀ id ∈ logicalIds, b₁.inStash id = true
  tree : (∀ id ∈ logicalIds, b.inStash id = true) → b₁.tree = b.tree

namespace Moved

variable {v₁ : Memory} {logicalIds : List UInt64}

/-- A target that was in the tree is still there when the tree was not written. -/
theorem treeBlocks_iff (h : Moved p b b₁ v₁ logicalIds) (hb : Inv p b v)
    (hids : ∀ id ∈ logicalIds, id.toNat < p.logicalBlocks) :
    treeBlocks p b.tree = treeBlocks p b₁.tree ↔ ∀ id ∈ logicalIds, b.inStash id = true := by
  constructor
  · intro htree id hid
    have hof : UInt64.ofNat id.toNat = id := UInt64.ofNat_toNat
    obtain ⟨y, hy, hyid⟩ := Controller.inStash_iff.mp (h.inStash id hid)
    rcases Multiset.mem_add.mp (hb.block_mem (hids id hid)) with hm | hm
    · rw [htree] at hm
      exact absurd (hof.trans hyid.symm) (h.inv.apart hm hy)
    · exact Controller.inStash_iff.mpr ⟨_, hm, hof⟩
  · intro hall
    rw [h.tree hall]

theorem metaWrite_iff (h : Moved p b b₁ v₁ logicalIds) (hb : Inv p b v)
    (hids : ∀ id ∈ logicalIds, id.toNat < p.logicalBlocks) :
    Inv p { b₁ with tree := b.tree } v ↔
      (∀ id ∈ logicalIds, b.inStash id = true) ∧ ∀ k < p.logicalBlocks, v₁ k = v k := by
  rw [h.inv.retree_iff hb.shape.tree hb.onPath (treeBlocks_mono h.cleared), h.treeBlocks_iff hb hids]

/-- The labels of a taken slot are cleared, so its old payload does not count. -/
theorem payloadWrite_iff (h : Moved p b b₁ v₁ logicalIds) (hb : b.Shape p) :
    Inv p { b₁ with tree := mixTree b₁.tree b.tree } v ↔ ∀ k < p.logicalBlocks, v₁ k = v k := by
  have hmix : treeBlocks p (mixTree b₁.tree b.tree) = treeBlocks p b₁.tree := treeBlocks_mixTree h.cleared
  rw [h.inv.retree_iff (mixTree_shape h.inv.shape.tree hb.tree) (onPath_mixTree h.inv.onPath _) hmix.ge]
  exact and_iff_right hmix

end Moved

theorem Inv.moved (h : Inv p b v) {logicalId : UInt64} (hid : logicalId.toNat < p.logicalBlocks)
    (hroom : b.inStash logicalId = true ∨ 0 < freeSlots b.stash) :
    ∃ b₁, Blocks.removeTarget (p.pathNodes (scanPosMapLookup b.posMap logicalId)) logicalId b = (.ok (), b₁) ∧
      Moved p b b₁ v [logicalId] ∧ b₁.schedule = b.schedule := by
  have hrem := h.removeTarget hid
  generalize Blocks.removeTarget (p.pathNodes (scanPosMapLookup b.posMap logicalId)) logicalId b = r at hrem
  cases hrem with
  | inStash hin => exact ⟨b, rfl, ⟨h, fun i => Cleared.refl _, by simpa using hin, fun _ => rfl⟩, rfl⟩
  | full hin hfull =>
    rcases hroom with hin' | hfree
    · rw [hin] at hin'
      cases hin'
    · omega
  | @moved tree stash hin _ hinv hcl hocc =>
    refine ⟨_, rfl, ⟨hinv, hcl, ?_, fun hall => ?_⟩, rfl⟩
    · simp only [List.mem_singleton, forall_eq]
      rw [Controller.inStash_iff]
      refine ⟨blockOf b.posMap v logicalId.toNat, ?_, by rw [blockOf, UInt64.ofNat_toNat]⟩
      change _ ∈ occ stash
      rw [hocc]
      exact Multiset.mem_add.mpr (.inr (Multiset.mem_singleton_self _))
    · rw [hall logicalId (List.mem_singleton_self _)] at hin
      cases hin

end

section
variable [Rng ρ] {b b₁ : Blocks ρ} {v : Memory}

/-- What was requested is in the stash, with what was there before. -/
theorem Inv.accessAll_inStash (h : Inv p b v) {l : List (UInt64 × Update)} (hids : ∀ r ∈ l, r.1.toNat < p.logicalBlocks)
    {outs : List Bytes} (hrun : Blocks.accessAll l b = (.ok outs, b₁)) :
    (∀ r ∈ l, b₁.inStash r.1 = true) ∧ ∀ other, b.inStash other = true → b₁.inStash other = true := by
  induction l generalizing b v outs with
  | nil =>
    cases hrun
    exact ⟨fun r hr => absurd hr List.not_mem_nil, fun _ hin => hin⟩
  | cons r l ih =>
    have hacc := h.access (hids r List.mem_cons_self) r.2
    generalize hfirst : Blocks.access r.1 r.2 .none b = res at hacc
    cases hacc with
    | @ok b' _ _ hs =>
      rcases hrest : Blocks.accessAll l b' with ⟨e | outs', b''⟩
      · cases hrun.symm.trans (Eff.forEach_error_tail hfirst hrest)
      · cases hrun.symm.trans (Eff.forEach_ok hfirst hrest)
        obtain ⟨hall, hkeep⟩ := ih hs.inv (fun x hx => hids x (List.mem_cons_of_mem r hx)) hrest
        have hin : ∀ other, b.inStash other = true ∨ other = r.1 → b₁.inStash other = true := by
          intro other ho
          refine hkeep other ?_
          rw [hs.inStash, Bool.or_eq_true, beq_iff_eq]
          exact ho
        refine ⟨fun x hx => ?_, fun other ho => hin other (.inl ho)⟩
        rcases List.mem_cons.mp hx with rfl | hx
        · exact hin x.1 (.inr rfl)
        · exact hall x hx
    | full hin hfull => cases hrun.symm.trans (Eff.forEach_error_head hfirst)
    | uncounted _ _ _ _ => cases hrun.symm.trans (Eff.forEach_error_head hfirst)

theorem Inv.moved_batch (h : Inv p b v) (update : Nat → UInt64 → Update) {logicalIds : List UInt64}
    (hids : ∀ id ∈ logicalIds, id.toNat < p.logicalBlocks) (hroom : b.HasRoom logicalIds) :
    ∃ outs b₁, Blocks.batchBody logicalIds update (randomLeaves p logicalIds.length b.rng).1
        (randomLeaves p logicalIds.length b.rng).2 b = (.ok outs, b₁) ∧
      Moved p b b₁ (v.serveAll (batchRequests update 0 logicalIds)).2 logicalIds := by
  have hfst := batchRequests_map_fst update 0 logicalIds
  have hmem : ∀ id ∈ logicalIds, ∃ r ∈ batchRequests update 0 logicalIds, r.1 = id := by
    intro id hid
    rw [← hfst] at hid
    exact List.mem_map.mp hid
  have hreq : ∀ r ∈ batchRequests update 0 logicalIds, r.1 ∈ logicalIds := fun r hr => by
    rw [← hfst]
    exact List.mem_map_of_mem hr
  have hbody := h.batchBody update hids
  rw [if_pos hroom] at hbody
  obtain ⟨hok, hs⟩ := hbody
  rcases batchBody_eq_accessAll h.shape update hids with ⟨outs, b₁, hrun, hall⟩ | ⟨e, b', b'', hrun, -, -⟩
  · rw [hrun] at hs
    have hin := (h.accessAll_inStash (fun r hr => hids r.1 (hreq r hr)) hall).1
    refine ⟨outs, b₁, hrun, hs.inv, hs.cleared, fun id hid => ?_, fun hall => hs.tree fun r hr => hall r.1 (hreq r hr)⟩
    obtain ⟨r, hr, rfl⟩ := hmem id hid
    exact hin r hr
  · rw [hrun] at hok
    cases hok

/-- The placement a call is about to write, and which of its writes may fail without harm. -/
theorem Inv.struck (h : Inv p b v) {op : Op} (hw : op.Writes p b) (e : Error) :
    ∃ b₁, Struck op b b₁ ∧ (¬ b.Countable → b₁.schedule = b.schedule) ∧
      (Inv p { b₁ with tree := b.tree } v ↔ op.Harmless p b v (.metaWrite e)) ∧
      (Inv p { b₁ with tree := mixTree b₁.tree b.tree } v ↔ op.Harmless p b v (.payloadWrite e)) := by
  cases op with
  | access logicalId update =>
    obtain ⟨hid, hroom⟩ := hw
    obtain ⟨b₁, hrun, hm, hsched⟩ := h.moved hid hroom
    refine ⟨b₁, Struck.access h.shape hid update hrun, fun _ => hsched, ?_, ?_⟩
    · rw [hm.metaWrite_iff h (by simpa using hid)]
      simp [Op.Harmless]
    · rw [hm.payloadWrite_iff h.shape]
      simp [Op.Harmless]
  | accessBatch logicalIds update =>
    have hcount := hw.countable
    obtain ⟨hne, hids, hroom⟩ := hw
    obtain ⟨outs, b₁, hrun, hm⟩ := h.moved_batch update hids hroom
    exact ⟨b₁, Struck.accessBatch h.shape hne hids update hrun, fun hfull => absurd hcount hfull,
      hm.metaWrite_iff h hids, hm.payloadWrite_iff h.shape⟩
  | dummyAccess =>
    have hinv := h.frame (randomLeaf b.params b.rng).2 h.shape.controller.leafBits
    refine ⟨_, Struck.dummyAccess b, fun _ => rfl, iff_of_true hinv trivial, ?_⟩
    rw [mixTree_self]
    exact iff_of_true hinv trivial
  | dummyAccessBatch count =>
    have hinv := h.frame (randomLeaves b.params count b.rng).2 h.shape.controller.leafBits
    refine ⟨_, Struck.dummyAccessBatch b hw, fun _ => rfl, iff_of_true hinv trivial, ?_⟩
    rw [mixTree_self]
    exact iff_of_true hinv trivial
  | drainEvictions budget =>
    obtain ⟨n, hn, hz⟩ := hw
    obtain ⟨outs, b₁, hrun, he⟩ := h.sound.drainBody (min budget n)
    obtain ⟨stash, hctl⟩ := he.controller
    have hinv := he.inv h
    have hdrained : Op.drained budget b = b₁ := by
      simp only [Op.drained, hn, hrun]
    refine ⟨b₁, Struck.drainEvictions hn hz hrun, fun _ => by rw [hctl], ?_, ?_⟩
    · rw [hinv.retree_self_iff h.shape.tree h.onPath, Op.Harmless, hdrained]
    · rw [hinv.retree_self_iff (mixTree_shape hinv.shape.tree h.shape.tree) (onPath_mixTree hinv.onPath _), Op.Harmless,
        hdrained]

/-- How a call ends whose write failed; a full counter stays full. -/
theorem Inv.struck_ends (h : Inv p b v) {op : Op} (hw : op.Writes p b) {fault : Fault} {e : Error}
    (hfault : fault = .metaWrite e ∨ fault = .payloadWrite e) :
    ∃ b', op.runBlocks fault b = (.error e, b') ∧ (Inv p b' v ↔ op.Harmless p b v fault) ∧
      (¬ b.Countable → ¬ b'.Countable) := by
  obtain ⟨b₁, hs, hsched, hmeta, hpayload⟩ := h.struck hw e
  have hfull : ¬ b.Countable → ¬ b₁.Countable := fun hfull => not_countable_of_le (by rw [hsched hfull]) hfull
  rcases hfault with rfl | rfl
  · exact ⟨_, hs.metaWrite e, hmeta, hfull⟩
  · exact ⟨_, hs.payloadWrite e, hpayload, hfull⟩

/-- A call that comes to its writes and fails there keeps the array exactly when the write may
    fail without harm. -/
theorem Inv.struck_iff (h : Inv p b v) {op : Op} (hw : op.Writes p b) {fault : Fault} {e : Error}
    (hfault : fault = .metaWrite e ∨ fault = .payloadWrite e) :
    (op.runBlocks fault b).1 = .error e ∧ (Inv p (op.runBlocks fault b).2 v ↔ op.Harmless p b v fault) := by
  obtain ⟨b', hrun, hkeeps, -⟩ := h.struck_ends hw hfault
  rw [hrun]
  exact ⟨rfl, hkeeps⟩

/-! ## Failures before the writes -/

/-- A read fails. -/
def Fault.IsRead (fault : Fault) : Prop := ∃ e, fault = .metaRead e ∨ fault = .payloadRead e

/-- A call that does not come to its writes ends as it does when they succeed. -/
theorem Inv.unwritten (h : Inv p b v) {op : Op} (hw : ¬ op.Writes p b) {fault : Fault} {err : Error}
    (hfault : fault = .metaWrite err ∨ fault = .payloadWrite err) : op.runBlocks fault b = op.runBlocks .none b := by
  have hc := h.shape.controller
  cases op with
  | access logicalId update =>
    simp only [Op.runBlocks, Blocks.access]
    by_cases hid : logicalId.toNat < p.logicalBlocks
    · have hrem := h.removeTarget hid
      generalize hrun : Blocks.removeTarget (p.pathNodes (scanPosMapLookup b.posMap logicalId)) logicalId b = r at hrem
      cases hrem with
      | inStash hin => exact absurd ⟨hid, .inl hin⟩ hw
      | moved hin hfree _ _ _ => exact absurd ⟨hid, .inr (by omega)⟩ hw
      | full hin hfull =>
        refine Eff.bind_congr ?_
        rw [Eff.get_bind, Eff.get_bind, hc.params, if_neg (by omega), if_neg (by omega)]
        exact Eff.bind_congr (bracket_unwritten hrun hfault)
    · refine Eff.bind_congr ?_
      rw [Eff.get_bind, Eff.get_bind, hc.params, if_pos (by omega), if_pos (by omega)]
  | accessBatch logicalIds update =>
    simp only [Op.runBlocks, Blocks.accessBatch]
    by_cases hne : logicalIds = []
    · rw [if_pos (by simpa using hne), if_pos (by simpa using hne)]
    rw [if_neg (by simpa using hne), if_neg (by simpa using hne), Eff.get_bind, Eff.get_bind, hc.params]
    rcases hcheck : CircuitOram.checkLogicalIds p.logicalBlocks logicalIds with e | ⟨⟩
    · rfl
    have hids := checkLogicalIds_ok hcheck
    have hbody := h.batchBody update hids
    rw [if_neg fun hroom => hw ⟨hne, hids, hroom⟩] at hbody
    obtain ⟨e, he, -, -⟩ := hbody
    rw [Eff.lift_ok_bind, Eff.lift_ok_bind]
    exact Eff.bind_congr (bracket_unwritten (Prod.ext he rfl) hfault)
  | dummyAccess => exact absurd trivial hw
  | dummyAccessBatch count =>
    obtain rfl : count = 0 := not_not.mp hw
    rfl
  | drainEvictions budget =>
    simp only [Op.runBlocks, Blocks.drainEvictions]
    refine Eff.bind_congr ?_
    rw [Eff.get_bind, Eff.get_bind]
    rcases hn : b.schedule.pendingEvictions with e | n
    · rfl
    · have hz : min budget n = 0 := not_not.mp fun hz => hw ⟨n, hn, hz⟩
      rw [Eff.lift_ok_bind, Eff.lift_ok_bind, if_pos hz, if_pos hz]

/-- Before it reads, a call may end with an answer or a refusal. -/
theorem Op.runBlocks_unread {op : Op} {b : Blocks ρ} (h : ¬ op.Reads b) (fault : Fault) :
    op.runBlocks fault b = op.runBlocks .none b := by
  cases op with
  | access logicalId update =>
    have hid : logicalId.toNat ≥ b.params.logicalBlocks := Nat.le_of_not_lt h
    simp only [Op.runBlocks, Blocks.access]
    refine Eff.bind_congr ?_
    rw [Eff.get_bind, Eff.get_bind, if_pos hid, if_pos hid]
  | accessBatch logicalIds update =>
    simp only [Op.runBlocks, Blocks.accessBatch]
    by_cases hempty : logicalIds.isEmpty = true
    · rw [if_pos hempty, if_pos hempty]
    rw [if_neg hempty, if_neg hempty, Eff.get_bind, Eff.get_bind]
    rcases hcheck : CircuitOram.checkLogicalIds b.params.logicalBlocks logicalIds with e | ⟨⟩
    · rfl
    · exact absurd ⟨fun hnil => hempty (List.isEmpty_iff.mpr hnil), checkLogicalIds_ok hcheck⟩ h
  | dummyAccess => exact absurd trivial h
  | dummyAccessBatch count =>
    obtain rfl : count = 0 := not_not.mp h
    rfl
  | drainEvictions budget =>
    simp only [Op.runBlocks, Blocks.drainEvictions]
    refine Eff.bind_congr ?_
    rw [Eff.get_bind, Eff.get_bind]
    rcases hn : b.schedule.pendingEvictions with e | n
    · rfl
    · have hz : min budget n = 0 := not_not.mp fun hz => h ⟨n, hn, hz⟩
      rw [Eff.lift_ok_bind, Eff.lift_ok_bind, if_pos hz, if_pos hz]

/-- A call that fails to read changes nothing but the generator. -/
theorem Op.runBlocks_reads {op : Op} {b : Blocks ρ} (h : op.Reads b) {fault : Fault} {e : Error}
    (hfault : fault = .metaRead e ∨ fault = .payloadRead e) : ∃ rng, op.runBlocks fault b = (.error e, { b with rng }) := by
  have hbr : ∀ {α : Type} (body : Eff Error (Blocks ρ) α) (b : Blocks ρ), Blocks.bracket fault body b = (.error e, b) := by
    intro α body b
    rcases hfault with rfl | rfl <;> rfl
  cases op with
  | access logicalId update =>
    refine ⟨b.rng, Eff.bind_error (m := Blocks.access logicalId update fault) ?_⟩
    rw [Blocks.access, Eff.get_bind, if_neg (Nat.not_le_of_lt h)]
    exact Eff.bind_error (hbr _ b)
  | accessBatch logicalIds update =>
    obtain ⟨hne, hids⟩ := h
    simp only [Op.runBlocks, Blocks.accessBatch]
    refine ⟨b.rng, ?_⟩
    rw [if_neg (by simpa using hne), Eff.get_bind, checkLogicalIds_of hids, Eff.lift_ok_bind]
    exact Eff.bind_error (hbr _ b)
  | dummyAccess =>
    refine ⟨(randomLeaf b.params b.rng).2, Eff.bind_error (m := Blocks.dummyAccess fault) ?_⟩
    rw [Blocks.dummyAccess, Eff.get_bind]
    exact (Eff.bind_ok rfl).trans (Eff.bind_error (hbr _ _))
  | dummyAccessBatch count =>
    refine ⟨(randomLeaves b.params count b.rng).2, Eff.bind_error (m := Blocks.dummyAccessBatch count fault) ?_⟩
    rw [Blocks.dummyAccessBatch, if_neg h, Eff.get_bind]
    exact (Eff.bind_ok rfl).trans (Eff.bind_error (hbr _ _))
  | drainEvictions budget =>
    obtain ⟨n, hn, hz⟩ := h
    refine ⟨b.rng, Eff.bind_error (m := Blocks.drainEvictions budget fault) ?_⟩
    rw [Blocks.drainEvictions, Eff.get_bind, hn, Eff.lift_ok_bind, if_neg hz]
    exact Eff.bind_error (hbr _ b)

/-- A call under a fault of a read is refused before it reads, and a batch of valid ids is not, or
    it changes nothing but the generator. -/
theorem Op.runBlocks_read {fault : Fault} (hread : fault.IsRead) (op : Op) (b : Blocks ρ) :
    (op.runBlocks fault b = op.runBlocks .none b ∧ ∀ logicalIds update, op = .accessBatch logicalIds update →
      (∀ id ∈ logicalIds, id.toNat < b.params.logicalBlocks) → logicalIds = []) ∨
    ∃ e rng, op.runBlocks fault b = (.error e, { b with rng }) := by
  obtain ⟨e, hfault⟩ := hread
  by_cases h : op.Reads b
  · exact .inr ⟨e, op.runBlocks_reads h hfault⟩
  · refine .inl ⟨op.runBlocks_unread h fault, ?_⟩
    rintro logicalIds update rfl hids
    by_contra hne
    exact h ⟨hne, hids⟩

/-! ## A call that a store failed -/

/-- A call that meets `fault` leaves the array `v`: a batch that was read for is atomic, and a
    write that failed is harmless. -/
structure Op.Spared (p : OramParams) (b : Blocks ρ) (v : Memory) (op : Op) (fault : Fault) : Prop where
  batch : ¬ fault.IsRead → ∀ logicalIds update, op = .accessBatch logicalIds update →
    (∀ id ∈ logicalIds, id.toNat < p.logicalBlocks) → b.BatchAtomic logicalIds update
  write : op.Writes p b → op.Harmless p b v fault

/-- A fault plays no part, or it ends the call before anything but the generator moved, or it
    is at the writes. -/
theorem Inv.by_fault (h : Inv p b v) (op : Op) (fault : Fault) :
    op.runBlocks fault b = op.runBlocks .none b ∨ (∃ e rng, op.runBlocks fault b = (.error e, { b with rng })) ∨
      op.Writes p b ∧ ∃ e, fault = .metaWrite e ∨ fault = .payloadWrite e := by
  have hread : fault.IsRead →
      op.runBlocks fault b = op.runBlocks .none b ∨ ∃ e rng, op.runBlocks fault b = (.error e, { b with rng }) :=
    fun hread => (op.runBlocks_read hread b).imp_left And.left
  have hwrite : ∀ {e}, fault = .metaWrite e ∨ fault = .payloadWrite e →
      op.runBlocks fault b = op.runBlocks .none b ∨
        op.Writes p b ∧ ∃ e, fault = .metaWrite e ∨ fault = .payloadWrite e := by
    intro e hfault
    by_cases hw : op.Writes p b
    · exact .inr ⟨hw, e, hfault⟩
    · exact .inl (h.unwritten hw hfault)
  cases fault with
  | none => exact .inl rfl
  | metaRead e => exact (hread ⟨e, .inl rfl⟩).imp_right .inl
  | payloadRead e => exact (hread ⟨e, .inr rfl⟩).imp_right .inl
  | metaWrite e => exact (hwrite (.inl rfl)).imp_right .inr
  | payloadWrite e => exact (hwrite (.inr rfl)).imp_right .inr

theorem Serving.struck (h : Serving p b v) {op : Op} {fault : Fault} {e : Error} {b' : Blocks ρ}
    (hspared : op.Spared p b v fault) (hrun : op.runBlocks fault b = (.error e, b')) : Serving p b' v := by
  obtain ⟨w, hw, hv⟩ := id h
  by_cases hread : fault.IsRead
  · rcases op.runBlocks_read hread b with ⟨hnone, hempty⟩ | ⟨e', rng, hmoved⟩
    · refine h.step_failed (hnone ▸ hrun) fun logicalIds update hop hids => .inl ?_
      obtain rfl := hempty logicalIds update hop (by rwa [hw.shape.controller.params])
      exact ⟨by simp [Controller.missing], UInt64.toNat_lt _⟩
    · cases hrun.symm.trans hmoved
      exact ⟨w, hw.frame rng hw.shape.controller.leafBits, hv⟩
  rcases hw.by_fault op fault with hnone | ⟨e', rng, hmoved⟩ | ⟨hcomes, err, hfault⟩
  · exact h.step_failed (hnone ▸ hrun) (hspared.batch hread)
  · cases hrun.symm.trans hmoved
    exact ⟨w, hw.frame rng hw.shape.controller.leafBits, hv⟩
  · obtain ⟨b₁, hstruck, hkeeps, hcount⟩ := hw.struck_ends hcomes hfault
    cases hrun.symm.trans hstruck
    have hharm := hspared.write hcomes
    rcases hv with rfl | hfull
    · exact (hkeeps.mpr hharm).serving
    · exact ⟨w, hkeeps.mpr (hharm.uncounted hcomes hfull), .inr (hcount hfull)⟩

/-- A call that ends well met no fault. -/
theorem Serving.unstruck (h : Serving p b v) {op : Op} {fault : Fault} {outs : List Bytes} {b' : Blocks ρ}
    (hrun : op.runBlocks fault b = (.ok outs, b')) : op.runBlocks .none b = (.ok outs, b') := by
  obtain ⟨w, hw, -⟩ := h
  rcases hw.by_fault op fault with hnone | ⟨e, rng, hread⟩ | ⟨hcomes, err, hfault⟩
  · exact hnone ▸ hrun
  · cases hrun.symm.trans hread
  · obtain ⟨b₁, hstruck, -⟩ := hw.struck_ends hcomes hfault
    cases hrun.symm.trans hstruck

end

/-! ## Stores that fail -/

/-- Which store calls fail, and how. -/
structure Faults where
  metaRead : Option Error
  payloadRead : Option Error
  metaWrite : Option Error
  payloadWrite : Option Error

/-- No call fails. -/
def Faults.clear : Faults := ⟨none, none, none, none⟩

/-- What the store calls of an operation may meet. -/
def Faults.allow (f : Faults) : Fault → Prop
  | .none => True
  | .metaRead e => f.metaRead = some e
  | .payloadRead e => f.payloadRead = some e
  | .metaWrite e => f.metaWrite = some e
  | .payloadWrite e => f.payloadWrite = some e

namespace CircuitOram

/-- The controller over its stores, which fail as `f` says. -/
def failing (s : CircuitOram M P ρ) (f : Faults) : CircuitOram (FaultyStore M) (FaultyStore P) ρ :=
  { toController := s.toController
    metaStore := ⟨s.metaStore, f.metaRead, f.metaWrite⟩
    payloadStore := ⟨s.payloadStore, f.payloadRead, f.payloadWrite⟩ }

def inner (s : CircuitOram (FaultyStore M) (FaultyStore P) ρ) : CircuitOram M P ρ :=
  { toController := s.toController, metaStore := s.metaStore.inner, payloadStore := s.payloadStore.inner }

def faults (s : CircuitOram (FaultyStore M) (FaultyStore P) ρ) : Faults :=
  ⟨s.metaStore.readFault, s.payloadStore.readFault, s.metaStore.writeFault, s.payloadStore.writeFault⟩

end CircuitOram

section
variable [PageStore M] [PageStore P] {HM : HonestStore M} {HP : HonestStore P}
  {s : CircuitOram (FaultyStore M) (FaultyStore P) ρ} {b : Blocks ρ} {v : Memory}

abbrev Faults.metaContract (f : Faults) (HM : HonestStore M) (p : OramParams) : MetaContract (FaultyStore M) p :=
  (FaultyStore.atomic HM f.metaRead f.metaWrite).contract p.bucketCount (circuitMetaPageBytes p.bucketSize)

abbrev Faults.payloadContract (f : Faults) (HP : HonestStore P) (p : OramParams) : PayloadContract (FaultyStore P) p :=
  (FaultyStore.atomic HP f.payloadRead f.payloadWrite).contract p.bucketCount (circuitPayloadPageBytes p.bucketSize p.blockSize)

/-- Stores that may fail hold what the stores behind them hold. -/
theorem rel_failing_iff : Rel (s.faults.metaContract HM p) (s.faults.payloadContract HP p) s b ↔
    Rel (HM.metaContract p) (HP.payloadContract p) s.inner b := by
  constructor
  · rintro ⟨hc, hs, ⟨c, hm, hce⟩, ⟨d, hp, hde⟩⟩
    exact ⟨hc, hs, ⟨c, hm.inner, hce⟩, ⟨d, hp.inner, hde⟩⟩
  · rintro ⟨hc, hs, ⟨c, hm, hce⟩, ⟨d, hp, hde⟩⟩
    exact ⟨hc, hs, ⟨c, ⟨hm, rfl, rfl⟩, hce⟩, ⟨d, ⟨hp, rfl, rfl⟩, hde⟩⟩

/-- An operation over stores that may fail is the block operation under a fault they are set
    to. -/
theorem Outcome.failing {α : Type} {f : Faults} {r : Result α × CircuitOram (FaultyStore M) (FaultyStore P) ρ}
    {n : Fault → Result α × Blocks ρ} (h : Outcome (f.metaContract HM p) (f.payloadContract HP p) r n) :
    ∃ fault, f.allow fault ∧ r.1 = (n fault).1 ∧ Rel (HM.metaContract p) (HP.payloadContract p) r.2.inner (n fault).2 := by
  rcases h with ⟨e, -, hd | hd⟩ | ⟨fault, ha, h1, h2⟩
  · exact hd.elim
  · exact hd.elim
  · refine ⟨fault, ?_, h1, ?_⟩
    · cases fault <;> exact ha
    · obtain ⟨hc, hs, ⟨c, hm, hce⟩, ⟨d, hp, hde⟩⟩ := h2
      exact ⟨hc, hs, ⟨c, hm.inner, hce⟩, ⟨d, hp.inner, hde⟩⟩

variable (p HM HP) in
/-- A call over stores that may fail met `fault`: it ended as over the blocks `b` it ends under it. -/
structure Op.Met [Rng ρ] (s : CircuitOram (FaultyStore M) (FaultyStore P) ρ) (b : Blocks ρ) (op : Op) (fault : Fault) :
    Prop where
  allowed : s.faults.allow fault
  result : (op.run s).1 = (op.runBlocks fault b).1
  rel : Rel (HM.metaContract p) (HP.payloadContract p) (op.run s).2.inner (op.runBlocks fault b).2

theorem run_failing [Rng ρ] (h : Rel (HM.metaContract p) (HP.payloadContract p) s.inner b) (op : Op) :
    ∃ fault, op.Met p HM HP s b fault := by
  obtain ⟨fault, hallowed, hresult, hrel⟩ := (Op.run_outcome (rel_failing_iff.mpr h) op).failing
  exact ⟨fault, hallowed, hresult, hrel⟩

theorem Rel.reopen_failing {m : FaultyStore M} {q : FaultyStore P} {t : CircuitOram (FaultyStore M) (FaultyStore P) ρ}
    (h : Rel (HM.metaContract p) (HP.payloadContract p) s.inner b)
    (hm : ∀ n sz c, HM.Holds n sz c s.metaStore.inner → HM.Holds n sz c m.inner)
    (hq : ∀ n sz c, HP.Holds n sz c s.payloadStore.inner → HP.Holds n sz c q.inner)
    (ht : CircuitOram.fromState m q s.snapshot = .ok t) : Rel (HM.metaContract p) (HP.payloadContract p) t.inner b := by
  have hlen : s.stash.length = s.params.stashCapacity := h.stash_length
  rw [fromState_snapshot hlen ht]
  obtain ⟨hc, hs, ⟨c, hm', hce⟩, ⟨d, hq', hde⟩⟩ := h
  exact ⟨hc, hs, ⟨c, hm _ _ _ hm', hce⟩, ⟨d, hq _ _ _ hq', hde⟩⟩

end

/-! ## Runs over stores that fail -/

section
variable [PageStore M] [PageStore P] [TrustedBlockSource S] [Rng ρ]

/-- The controller reached over stores that fail as they were last set to, and the array of the
    calls that ended well. -/
inductive FaultyRun (p : OramParams) (HM : HonestStore M) (HP : HonestStore P) (HS : HonestSource S)
    (Fails : CircuitOram (FaultyStore M) (FaultyStore P) ρ → Memory → Op → Prop) :
    CircuitOram (FaultyStore M) (FaultyStore P) ρ → Memory → Prop
  | start {s v} (f : Faults) : Reached p HM HP HS (fun _ _ => False) s v → FaultyRun p HM HP HS Fails (s.failing f) v
  | switch {s v} (f : Faults) : FaultyRun p HM HP HS Fails s v → FaultyRun p HM HP HS Fails (s.inner.failing f) v
  | ok {s v outs s'} (op : Op) : FaultyRun p HM HP HS Fails s v → op.run s = (.ok outs, s') →
      FaultyRun p HM HP HS Fails s' (v.serveAll op.requests).2
  | failed {s v e s'} (op : Op) : FaultyRun p HM HP HS Fails s v → op.run s = (.error e, s') → Fails s v op →
      FaultyRun p HM HP HS Fails s' v
  | reopen {s v s'} {m : FaultyStore M} {q : FaultyStore P} : FaultyRun p HM HP HS Fails s v →
      (∀ n sz c, HM.Holds n sz c s.metaStore.inner → HM.Holds n sz c m.inner) →
      (∀ n sz c, HP.Holds n sz c s.payloadStore.inner → HP.Holds n sz c q.inner) →
      CircuitOram.fromState m q s.snapshot = .ok s' → FaultyRun p HM HP HS Fails s' v

variable {HM : HonestStore M} {HP : HonestStore P} {HS : HonestSource S}
  {Fails : CircuitOram (FaultyStore M) (FaultyStore P) ρ → Memory → Op → Prop}
  {s : CircuitOram (FaultyStore M) (FaultyStore P) ρ} {v : Memory}

variable (p HM HP) in
/-- What the call met leaves the array `v`. -/
def Survives (s : CircuitOram (FaultyStore M) (FaultyStore P) ρ) (v : Memory) (op : Op) : Prop :=
  ∀ b, Rel (HM.metaContract p) (HP.payloadContract p) s.inner b →
    ∃ fault, op.Met p HM HP s b fault ∧ op.Spared p b v fault

/-- Whatever fails, the labels of the blocks in the tree are right. -/
theorem FaultyRun.sound (h : FaultyRun p HM HP HS Fails s v) :
    ∃ b, Rel (HM.metaContract p) (HP.payloadContract p) s.inner b ∧ Sound p b := by
  induction h with
  | start f h => exact h.sound
  | switch f _ ih => exact ih
  | ok op _ hrun ih =>
    obtain ⟨b, hr, hs⟩ := ih
    obtain ⟨fault, hmet⟩ := run_failing hr op
    have hr' := hmet.rel
    rw [hrun] at hr'
    exact ⟨_, hr', op.runBlocks_sound fault b hs⟩
  | failed op _ hrun _ ih =>
    obtain ⟨b, hr, hs⟩ := ih
    obtain ⟨fault, hmet⟩ := run_failing hr op
    have hr' := hmet.rel
    rw [hrun] at hr'
    exact ⟨_, hr', op.runBlocks_sound fault b hs⟩
  | reopen _ hm hq ht ih =>
    obtain ⟨b, hr, hs⟩ := ih
    exact ⟨b, hr.reopen_failing hm hq ht, hs⟩

theorem FaultyRun.serving (h : FaultyRun p HM HP HS (Survives p HM HP) s v) :
    ∃ b, Rel (HM.metaContract p) (HP.payloadContract p) s.inner b ∧ Serving p b v := by
  induction h with
  | start f h =>
    obtain ⟨b, hr, hi⟩ := h.inv
    exact ⟨b, hr, hi.serving⟩
  | switch f _ ih => exact ih
  | ok op _ hrun ih =>
    obtain ⟨b, hr, hs⟩ := ih
    obtain ⟨fault, -, h1, hr'⟩ := run_failing hr op
    rw [hrun] at h1 hr'
    exact ⟨_, hr', (hs.step_ok (hs.unstruck (Prod.ext h1.symm rfl))).2⟩
  | failed op _ hrun hf ih =>
    obtain ⟨b, hr, hs⟩ := ih
    obtain ⟨fault, ⟨-, h1, hr'⟩, hspared⟩ := hf b hr
    rw [hrun] at h1 hr'
    exact ⟨_, hr', hs.struck hspared (Prod.ext h1.symm rfl)⟩
  | reopen _ hm hq ht ih =>
    obtain ⟨b, hr, hs⟩ := ih
    exact ⟨b, hr.reopen_failing hm hq ht, hs⟩

/-- In runs whose failures are harmless tree and stash hold the array, unless the counter is
    full, and a call that ends well returns what it holds. -/
theorem FaultyRun.array_survives (h : FaultyRun p HM HP HS (Survives p HM HP) s v) :
    (∃ tree w, HoldsArray HM HP p s.inner tree w ∧ (w = v ∨ ¬ s.Countable)) ∧
      ∀ (op : Op) outs s', op.run s = (.ok outs, s') → outs = (v.serveAll op.requests).1 := by
  obtain ⟨b, hr, hs⟩ := h.serving
  obtain ⟨w, hw, hv⟩ := id hs
  have hc : s.toController = b.toController := hr.controller
  refine ⟨⟨b.tree, w, hr.holdsArray hw, hv.imp_right fun hn => by rwa [hc]⟩, fun op outs s' hrun => ?_⟩
  obtain ⟨fault, -, h1, -⟩ := run_failing hr op
  rw [hrun] at h1
  exact (hs.step_ok (hs.unstruck (Prod.ext h1.symm rfl))).1

/-- Whatever failed before: every block is under a leaf of the tree and on its path, and once
    the stores work again a debt of `n` paths drains, losing no block. -/
theorem FaultyRun.drains (h : FaultyRun p HM HP HS Fails s v) {n : UInt64} (hn : s.schedule.pendingEvictions = .ok n)
    (budget : UInt64) :
    ∃ s' tree tree', CircuitOram.drainEvictions budget (s.inner.failing .clear) = (.ok (min budget n), s') ∧
      StoredTree HM HP p s.inner tree ∧ StoredTree HM HP p s'.inner tree' ∧
      (∀ x ∈ treeBlocks p tree + occ s.stash, x.leaf.toNat < p.leaves) ∧ OnPath p tree ∧
      treeBlocks p tree' + occ s'.stash = treeBlocks p tree + occ s.stash ∧ OnPath p tree' ∧
      s'.stash.countP (·.occupied) ≤ s.stash.countP (·.occupied) := by
  obtain ⟨b, hr, hs⟩ := h.sound
  have hc : s.toController = b.toController := hr.controller
  obtain ⟨b', hrun, hd⟩ := hs.drainEvictions (n := n) (by rw [← hn, hc]) budget
  have hstash : s.stash = b.stash := congrArg Controller.stash hc
  have hclear : Rel (Faults.clear.metaContract HM p) (Faults.clear.payloadContract HP p) (s.inner.failing .clear) b :=
    (rel_failing_iff (s := s.inner.failing .clear)).mpr hr
  obtain ⟨fault, ha, h1, hr'⟩ := (drainEvictions_outcome hclear budget).failing
  have hnone : fault = .none := by
    cases fault with
    | none => rfl
    | _ e => cases ha
  subst hnone
  rw [hrun] at h1 hr'
  have hstash' : (CircuitOram.drainEvictions budget (s.inner.failing .clear)).2.stash = b'.stash :=
    congrArg Controller.stash hr'.controller
  refine ⟨_, b.tree, b'.tree, Prod.ext h1 rfl, hr.stored, hr'.stored, ?_, hs.onPath, ?_, hd.sound.onPath, ?_⟩
  · rw [hstash]
    exact hs.leaf_lt
  · rw [hstash, hstash']
    exact hd.blocks
  · rw [hstash, hstash']
    exact hd.occupied

end

/-! ## The small controller over stores that fail -/

/-- Payload writes fail. -/
def payloadsFail : Faults := { Faults.clear with payloadWrite := some (.io) }

/-- Metadata writes fail. -/
def metaFail : Faults := { Faults.clear with metaWrite := some (.io) }

/-- The small controller after it failed to read block 0. -/
def smallStruck : CircuitOram (FaultyStore MemPageStore) (FaultyStore MemPageStore) ZeroSeedRng :=
  ((Op.access 0 .keep).run (smallRead.failing payloadsFail)).2

theorem smallStruck_run :
    FaultyRun smallParams MemPageStore.honest MemPageStore.honest VecBlockSource.honest
      (Survives smallParams MemPageStore.honest MemPageStore.honest) smallStruck
      (smallMemory.serveAll (Op.access 1 .keep).requests).2 := by
  refine .failed (.access 0 .keep) (.start payloadsFail (smallRead_reached _))
    (Prod.ext (show ((Op.access 0 .keep).run (smallRead.failing payloadsFail)).1 = .error (.io) by decide +kernel) rfl)
    fun b hr => ?_
  obtain ⟨fault, hmet⟩ := run_failing hr (.access 0 .keep)
  refine ⟨fault, hmet, nofun, fun _ => ?_⟩
  cases fault with
  | metaWrite e => cases hmet.allowed
  | _ => trivial

theorem array_survives_smallStruck :
    (∃ tree w, HoldsArray MemPageStore.honest MemPageStore.honest smallParams smallStruck.inner tree w ∧
        (w = (smallMemory.serveAll (Op.access 1 .keep).requests).2 ∨ ¬ smallStruck.Countable)) ∧
      ∀ (op : Op) outs s', op.run smallStruck = (.ok outs, s') →
        outs = ((smallMemory.serveAll (Op.access 1 .keep).requests).2.serveAll op.requests).1 :=
  FaultyRun.array_survives smallStruck_run

/-- The small controller after an eviction failed to write its metadata. -/
def smallHalted : CircuitOram (FaultyStore MemPageStore) (FaultyStore MemPageStore) ZeroSeedRng :=
  ((Op.drainEvictions 2).run (smallRead.failing metaFail)).2

theorem smallHalted_run :
    FaultyRun smallParams MemPageStore.honest MemPageStore.honest VecBlockSource.honest (fun _ _ _ => True) smallHalted
      (smallMemory.serveAll (Op.access 1 .keep).requests).2 := by
  have hfail : ((Op.drainEvictions 2).run (smallRead.failing metaFail)).1 = .error .io := by decide +kernel
  rw [smallHalted]
  exact .failed (.drainEvictions 2) (.start metaFail (smallRead_reached _)) (Eff.run_eq hfail) trivial

theorem drains_smallHalted :
    ∃ s' tree tree', CircuitOram.drainEvictions 1 (smallHalted.inner.failing .clear) = (.ok (min 1 2), s') ∧
      StoredTree MemPageStore.honest MemPageStore.honest smallParams smallHalted.inner tree ∧
      StoredTree MemPageStore.honest MemPageStore.honest smallParams s'.inner tree' ∧
      (∀ x ∈ treeBlocks smallParams tree + occ smallHalted.stash, x.leaf.toNat < smallParams.leaves) ∧
      OnPath smallParams tree ∧
      treeBlocks smallParams tree' + occ s'.stash = treeBlocks smallParams tree + occ smallHalted.stash ∧
      OnPath smallParams tree' ∧ s'.stash.countP (·.occupied) ≤ smallHalted.stash.countP (·.occupied) :=
  FaultyRun.drains smallHalted_run (by decide +kernel) 1

/-- Reading block 0 of the small controller moves it out of the tree, so its metadata write may
    not fail; reading block 1, which is in the stash, may. -/
theorem struck_iff_smallRead :
    ∃ b : Blocks ZeroSeedRng, b.toController = smallRead.toController ∧ ∀ id : UInt64, id.toNat < 2 →
      ((Op.access id .keep).runBlocks (.metaWrite .io) b).1 = .error .io ∧
        (Inv smallParams ((Op.access id .keep).runBlocks (.metaWrite .io) b).2
            (smallMemory.serveAll (Op.access 1 .keep).requests).2 ↔ b.inStash id = true) := by
  obtain ⟨b, hr, hi⟩ := (smallRead_reached fun _ _ => False).inv
  have hc : smallRead.toController = b.toController := hr.controller
  have hfree : 0 < freeSlots b.stash := by
    rw [← show smallRead.stash = b.stash from congrArg Controller.stash hc]
    decide +kernel
  exact ⟨b, hc.symm, fun id hid =>
    Inv.struck_iff hi (show (Op.access id .keep).Writes smallParams b from ⟨hid, .inr hfree⟩) (.inl rfl)⟩

end BpirOram
