/-
  BpirOram.Circuit.Invariant — what the controller is for: an array of blocks.

  `Inv p b v` says the tree and the stash together hold, for each logical id `k`, exactly
  one block: its payload is `v k`, its leaf is the position map's, and if it is in the
  tree it is on that leaf's path. Everything an operation does moves blocks about
  (`Blocks.blocks` stays) or rewrites the one block of an id that is in the stash.
-/

import BpirOram.Circuit.Shape
import BpirOram.Circuit.Eviction
import BpirOram.Lib.Gather
import Mathlib.Data.Multiset.MapFold

namespace BpirOram

open Lib

variable {ρ : Type} {p : OramParams}

/-- The real blocks of a bucket or of the stash. -/
def occ (slots : List OramBlock) : Multiset OramBlock := ↑(slots.filter (·.occupied))

def treeBlocks (p : OramParams) (tree : Nat → List OramBlock) : Multiset OramBlock :=
  gather p.bucketCount fun i => occ (tree i)

/-- Every real block of the controller. -/
def Blocks.blocks (p : OramParams) (b : Blocks ρ) : Multiset OramBlock := treeBlocks p b.tree + occ b.stash

/-- The block of id `k`. -/
def blockOf (posMap : List UInt32) (v : Nat → Bytes) (k : Nat) : OramBlock :=
  { occupied := true, logicalId := UInt64.ofNat k, leaf := posMap.getD k 0, payload := v k }

def allBlocks (p : OramParams) (posMap : List UInt32) (v : Nat → Bytes) : Multiset OramBlock :=
  (Multiset.range p.logicalBlocks).map (blockOf posMap v)

/-- A real block of the tree is on the path of its leaf. -/
def OnPath (p : OramParams) (tree : Nat → List OramBlock) : Prop :=
  ∀ i < p.bucketCount, ∀ x ∈ tree i, x.occupied = true → i ∈ p.pathNodes x.leaf

/-- The labels are right, whichever blocks there are: this outlives every failure. -/
structure Sound (p : OramParams) (b : Blocks ρ) : Prop where
  shape : b.Shape p
  leaf_lt : ∀ x ∈ b.blocks p, x.leaf.toNat < p.leaves
  onPath : OnPath p b.tree

structure Inv (p : OramParams) (b : Blocks ρ) (v : Nat → Bytes) : Prop where
  shape : b.Shape p
  blocks : b.blocks p = allBlocks p b.posMap v
  onPath : OnPath p b.tree

/-! ## Real blocks -/

theorem mem_occ {slots : List OramBlock} {x : OramBlock} : x ∈ occ slots ↔ x ∈ slots ∧ x.occupied = true := by
  simp [occ]

theorem occ_cons (x : OramBlock) (slots : List OramBlock) :
    occ (x :: slots) = (if x.occupied then {x} else 0) + occ slots := by
  cases hx : x.occupied <;> simp [occ, hx]

theorem occ_append (l l' : List OramBlock) : occ (l ++ l') = occ l + occ l' := by
  simp [occ, ← Multiset.coe_add]

theorem card_occ (slots : List OramBlock) : (occ slots).card = slots.countP (·.occupied) := by
  rw [occ, Multiset.coe_card, List.countP_eq_length_filter]

theorem mem_treeBlocks {tree : Nat → List OramBlock} {x : OramBlock} :
    x ∈ treeBlocks p tree ↔ ∃ i < p.bucketCount, x ∈ tree i ∧ x.occupied = true := by
  simp only [treeBlocks, mem_gather, mem_occ]

theorem occ_insertFirst {block : OramBlock} (hb : block.occupied = true) {stash stash' : List OramBlock}
    (h : insertFirst block stash = some stash') : occ stash' = occ stash + {block} := by
  induction stash generalizing stash' with
  | nil => cases h
  | cons slot rest ih =>
    rw [insertFirst] at h
    split at h
    · obtain ⟨rest', hr, rfl⟩ := Option.map_eq_some_iff.mp h
      rw [occ_cons, occ_cons, ih hr, add_assoc]
    · rename_i ho
      cases h
      rw [occ_cons, occ_cons, hb, if_pos rfl, if_neg ho, zero_add, add_comm]

/-! ## Taking a block -/

/-- What is left of a bucket or of a tree after some slots were cleared. -/
def Cleared (new old : List OramBlock) : Prop := List.Forall₂ (fun n o => n.occupied = true → n = o) new old

theorem Cleared.refl (slots : List OramBlock) : Cleared slots slots := List.forall₂_same.mpr fun _ _ _ => rfl

theorem Cleared.mem {new old : List OramBlock} (h : Cleared new old) {x : OramBlock} (hx : x ∈ new)
    (ho : x.occupied = true) : x ∈ old := by
  induction h with
  | nil => cases hx
  | cons hno _ ih =>
    rcases List.mem_cons.mp hx with rfl | hx
    · exact hno ho ▸ List.mem_cons_self
    · exact List.mem_cons_of_mem _ (ih hx)

/-- Payloads of empty slots do not count. -/
theorem Cleared.occ_mixPages {new old : List OramBlock} (h : Cleared new old) : occ (mixPages new old) = occ new := by
  induction h with
  | nil => rfl
  | @cons n o new old hno _ ih =>
    rw [mixPages, List.zipWith_cons_cons, ← mixPages, occ_cons, occ_cons, ih]
    cases hn : n.occupied
    · rfl
    · rw [if_pos rfl, if_pos rfl, ← hno hn, ← hn]

section
variable {logicalId : UInt64}

theorem takeSlots_none {bucket : List OramBlock} (h : ∀ x ∈ bucket, x.logicalIdChoice logicalId = false) (r : Removal) :
    takeSlots logicalId bucket r = (bucket, r) := by
  induction bucket with
  | nil => rfl
  | cons b rest ih => simp [takeSlots, h b (by simp), ih fun x hx => h x (by simp [hx])]

theorem takeSlots_some {bucket : List OramBlock} {r : Removal} (hr : r.removed = false)
    (h : ∃ x ∈ bucket, x.logicalIdChoice logicalId = true) :
    ∃ x, x.logicalIdChoice logicalId = true ∧ (takeSlots logicalId bucket r).2 = ⟨x, true⟩ ∧
      occ bucket = occ (takeSlots logicalId bucket r).1 + {x} ∧ Cleared (takeSlots logicalId bucket r).1 bucket := by
  induction bucket with
  | nil => simp at h
  | cons b rest ih =>
    by_cases hb : b.logicalIdChoice logicalId = true
    · have hocc := (OramBlock.logicalIdChoice_iff.mp hb).1
      rw [takeSlots, if_pos (by simp [hb, hr])]
      refine ⟨b, hb, rfl, ?_, .cons (by simp) (Cleared.refl rest)⟩
      rw [occ_cons, occ_cons, if_pos hocc, if_neg (by simp), zero_add, add_comm]
    · rw [takeSlots, if_neg (by simp [hb])]
      obtain ⟨x, h1, h2, h3, h4⟩ := ih (by
        obtain ⟨x, hx, hm⟩ := h
        rcases List.mem_cons.mp hx with rfl | hx
        · exact absurd hm hb
        · exact ⟨x, hx, hm⟩)
      refine ⟨x, h1, h2, ?_, .cons (fun _ => rfl) h4⟩
      rw [occ_cons, occ_cons, h3, add_assoc]

theorem takeAlong_removed (path : List Nat) (selected : OramBlock) (tree : Nat → List OramBlock) :
    takeAlong logicalId path ⟨selected, true⟩ tree = (tree, ⟨selected, true⟩) := by
  induction path with
  | nil => rfl
  | cons node path ih => rw [takeAlong, takeSlots_removed, Function.update_eq_self, ih]

theorem takeAlong_none {path : List Nat} {tree : Nat → List OramBlock}
    (h : ∀ i ∈ path, ∀ x ∈ tree i, x.logicalIdChoice logicalId = false) (r : Removal) :
    takeAlong logicalId path r tree = (tree, r) := by
  induction path with
  | nil => rfl
  | cons node path ih =>
    rw [takeAlong, takeSlots_none (h node (by simp)), Function.update_eq_self, ih fun i hi => h i (by simp [hi])]

/-- A block of the path is taken, and it is the only change. -/
theorem takeAlong_some (logicalId : UInt64) {path : List Nat} (hlt : ∀ i ∈ path, i < p.bucketCount)
    {tree : Nat → List OramBlock} {r : Removal}
    (hr : r.removed = false) (h : ∃ i ∈ path, ∃ x ∈ tree i, x.logicalIdChoice logicalId = true) :
    ∃ x, x.logicalIdChoice logicalId = true ∧ (takeAlong logicalId path r tree).2 = ⟨x, true⟩ ∧
      treeBlocks p tree = treeBlocks p (takeAlong logicalId path r tree).1 + {x} ∧
      ∀ i, Cleared ((takeAlong logicalId path r tree).1 i) (tree i) := by
  induction path with
  | nil => simp at h
  | cons node path ih =>
    rw [takeAlong]
    by_cases hn : ∃ x ∈ tree node, x.logicalIdChoice logicalId = true
    · obtain ⟨x, h1, h2, h3, h4⟩ := takeSlots_some hr hn
      rw [h2, takeAlong_removed]
      refine ⟨x, h1, rfl, ?_, fun i => ?_⟩
      · have hg := gather_update (hlt node (by simp)) (fun i => occ (tree i)) (occ (takeSlots logicalId (tree node) r).1)
        rw [h3, add_comm (occ _), ← add_assoc, add_left_inj] at hg
        rw [treeBlocks, ← hg, treeBlocks]
        congr 2
        funext i
        by_cases hi : i = node
        · subst hi; simp
        · simp [Function.update_of_ne hi]
      · by_cases hi : i = node
        · subst hi; simpa using h4
        · simpa [Function.update_of_ne hi] using Cleared.refl (tree i)
    · have hnone : ∀ x ∈ tree node, x.logicalIdChoice logicalId = false := by simpa using hn
      rw [takeSlots_none hnone, Function.update_eq_self]
      refine ih (fun i hi => hlt i (by simp [hi])) ?_
      obtain ⟨i, hi, hx⟩ := h
      rcases List.mem_cons.mp hi with rfl | hi
      · exact absurd hx hn
      · exact ⟨i, hi, hx⟩

end

theorem OnPath.cleared {tree tree' : Nat → List OramBlock} (h : OnPath p tree) (hc : ∀ i, Cleared (tree' i) (tree i)) :
    OnPath p tree' :=
  fun i hi x hx ho => h i hi x ((hc i).mem hx ho) ho

/-! ## One block for each id -/

def Controller.inStash (c : Controller ρ) (logicalId : UInt64) : Bool := c.stash.any (·.logicalIdChoice logicalId)

theorem Controller.inStash_iff {c : Controller ρ} {logicalId : UInt64} :
    c.inStash logicalId = true ↔ ∃ x ∈ occ c.stash, x.logicalId = logicalId := by
  simp only [inStash, List.any_eq_true, OramBlock.logicalIdChoice_iff, mem_occ, and_assoc]

theorem mem_allBlocks {posMap : List UInt32} {v : Nat → Bytes} {x : OramBlock} :
    x ∈ allBlocks p posMap v ↔ ∃ k < p.logicalBlocks, blockOf posMap v k = x := by
  simp [allBlocks]

theorem toNat_ofNat {k : Nat} (h : k < 2 ^ 64) : (UInt64.ofNat k).toNat = k := by
  rw [UInt64.toNat_ofNat', Nat.mod_eq_of_lt h]

theorem allBlocks_nodup (p : OramParams) (posMap : List UInt32) (v : Nat → Bytes) :
    ((allBlocks p posMap v).map (·.logicalId)).Nodup := by
  rw [allBlocks, Multiset.map_map]
  refine Multiset.Nodup.map_on (fun k hk k' hk' he => ?_) (Multiset.nodup_range _)
  have hlt := p.logicalBlocks_lt
  have hk := Multiset.mem_range.mp hk
  have hk' := Multiset.mem_range.mp hk'
  have hn := congrArg UInt64.toNat he
  simp only [Function.comp_apply, blockOf] at hn
  rwa [toNat_ofNat (by omega), toNat_ofNat (by omega)] at hn

namespace Inv

variable {b : Blocks ρ} {v : Nat → Bytes} {logicalId : UInt64}

theorem unique (h : Inv p b v) {x y : OramBlock} (hx : x ∈ b.blocks p) (hy : y ∈ b.blocks p)
    (he : x.logicalId = y.logicalId) : x = y := by
  rw [h.blocks] at hx hy
  exact Multiset.inj_on_of_nodup_map (allBlocks_nodup p b.posMap v) x hx y hy he

/-- No id is both in the tree and in the stash. -/
theorem apart (h : Inv p b v) {x y : OramBlock} (hx : x ∈ treeBlocks p b.tree) (hy : y ∈ occ b.stash) :
    x.logicalId ≠ y.logicalId := by
  have hn := allBlocks_nodup p b.posMap v
  rw [← h.blocks, Blocks.blocks, Multiset.map_add] at hn
  have hd := Multiset.disjoint_of_nodup_add hn
  intro he
  exact Multiset.disjoint_left.mp hd (Multiset.mem_map_of_mem _ hx) (he ▸ Multiset.mem_map_of_mem _ hy)

theorem block_mem (h : Inv p b v) {k : Nat} (hk : k < p.logicalBlocks) : blockOf b.posMap v k ∈ b.blocks p := by
  rw [h.blocks, mem_allBlocks]
  exact ⟨k, hk, rfl⟩

theorem eq_blockOf (h : Inv p b v) (hid : logicalId.toNat < p.logicalBlocks) {x : OramBlock} (hx : x ∈ b.blocks p)
    (he : x.logicalId = logicalId) : x = blockOf b.posMap v logicalId.toNat :=
  h.unique hx (h.block_mem hid) (by rw [he, blockOf, UInt64.ofNat_toNat])

/-- The label of the block of an id is what the position map scan finds. -/
theorem lookup_eq (h : Inv p b v) : scanPosMapLookup b.posMap logicalId = (blockOf b.posMap v logicalId.toNat).leaf :=
  scanPosMapLookup_eq h.shape.controller.logicalBlocks_lt logicalId

theorem payload_length (h : Inv p b v) {k : Nat} (hk : k < p.logicalBlocks) : (v k).length = p.blockSize := by
  rcases Multiset.mem_add.mp (h.block_mem hk) with hm | hm
  · obtain ⟨i, hi, hx, -⟩ := mem_treeBlocks.mp hm
    exact (h.shape.tree i hi).payload _ hx
  · exact h.shape.controller.payload _ (mem_occ.mp hm).1

/-- Every real block of the tree is labelled with a leaf of the tree. -/
theorem leaf_lt (h : Inv p b v) {x : OramBlock} (hx : x ∈ b.blocks p) : x.leaf.toNat < p.leaves := by
  rw [h.blocks, mem_allBlocks] at hx
  obtain ⟨k, hk, rfl⟩ := hx
  have hlen : k < b.posMap.length := by rw [h.shape.controller.posMap]; exact hk
  rw [blockOf, List.getD_eq_getElem?_getD, List.getElem?_eq_getElem hlen]
  exact h.shape.controller.leaves _ (List.getElem_mem hlen)

theorem sound (h : Inv p b v) : Sound p b := ⟨h.shape, fun _ hx => h.leaf_lt hx, h.onPath⟩

end Inv

/-! ## The generator and the schedule -/

theorem Sound.frame {b : Blocks ρ} (h : Sound p b) (rng : ρ) {schedule : CircuitEvictionSchedule}
    (hs : schedule.leafBits = p.leafBits) : Sound p { b with rng, schedule } :=
  { shape := ⟨{ h.shape.controller with leafBits := hs }, h.shape.tree⟩, leaf_lt := h.leaf_lt, onPath := h.onPath }

theorem Inv.frame {b : Blocks ρ} {v : Nat → Bytes} (h : Inv p b v) (rng : ρ) {schedule : CircuitEvictionSchedule}
    (hs : schedule.leafBits = p.leafBits) : Inv p { b with rng, schedule } v :=
  { shape := ⟨{ h.shape.controller with leafBits := hs }, h.shape.tree⟩, blocks := h.blocks, onPath := h.onPath }

/-! ## Moving the target into the stash -/

/-- What `remove_target_path` does to a state that holds every block once. -/
inductive Removed (p : OramParams) (b : Blocks ρ) (v : Nat → Bytes) (logicalId : UInt64) : Result Unit × Blocks ρ → Prop
  | inStash : b.inStash logicalId = true → Removed p b v logicalId (.ok (), b)
  | full {tree} : b.inStash logicalId = false → freeSlots b.stash = 0 →
      Removed p b v logicalId (.error (.stashOverflow (p.stashCapacity + 1) p.stashCapacity), { b with tree })
  | moved {tree stash} : b.inStash logicalId = false → freeSlots stash + 1 = freeSlots b.stash →
      Inv p { b with tree, stash } v → (∀ i, Cleared (tree i) (b.tree i)) →
      occ stash = occ b.stash + {blockOf b.posMap v logicalId.toNat} →
      Removed p b v logicalId (.ok (), { b with tree, stash })

theorem Inv.removeTarget {b : Blocks ρ} {v : Nat → Bytes} (h : Inv p b v) {logicalId : UInt64}
    (hid : logicalId.toNat < p.logicalBlocks) :
    Removed p b v logicalId
      (Blocks.removeTarget (p.pathNodes (scanPosMapLookup b.posMap logicalId)) logicalId b) := by
  have hc := h.shape.controller
  have hlt := p.pathNodes_lt (hc.lookup_lt hid)
  have hdummy : (noRemoval p).selected.payload.length = p.blockSize := OramBlock.dummy_payload_length _
  have hrun : ∀ tree sel r, takeAlong logicalId (p.pathNodes (scanPosMapLookup b.posMap logicalId)) (noRemoval p) b.tree
      = (tree, ⟨sel, r⟩) → Blocks.removeTarget (p.pathNodes (scanPosMapLookup b.posMap logicalId)) logicalId b
        = Blocks.onController (Controller.insertBlock sel sel.occupied) { b with tree } := by
    intro tree sel r ht
    simp only [Blocks.removeTarget, Eff.get_bind, Eff.modify_bind, hc.params, ht]
    rfl
  by_cases hin : b.inStash logicalId = true
  · -- it is not in the tree, so nothing is taken and a dummy is inserted
    obtain ⟨y, hy, hyid⟩ := Controller.inStash_iff.mp hin
    have hnone : ∀ i ∈ p.pathNodes (scanPosMapLookup b.posMap logicalId), ∀ x ∈ b.tree i,
        x.logicalIdChoice logicalId = false := by
      intro i hi x hx
      rw [Bool.eq_false_iff]
      intro hm
      obtain ⟨ho, hxid⟩ := OramBlock.logicalIdChoice_iff.mp hm
      exact h.apart (mem_treeBlocks.mpr ⟨i, hlt i hi, hx, ho⟩) hy (hxid.trans hyid.symm)
    rw [hrun _ _ _ (takeAlong_none hnone (noRemoval p))]
    have hins := Controller.insertBlock_eq hc (OramBlock.dummy_payload_length p.blockSize) false
    simp only [Bool.false_eq_true, if_false] at hins
    simp only [OramBlock.dummy_occupied, Blocks.onController, Eff.zoom, hins]
    exact .inStash hin
  · have hin' := Bool.eq_false_iff.mpr hin
    have hx := h.block_mem hid
    have htree : blockOf b.posMap v logicalId.toNat ∈ treeBlocks p b.tree :=
      (Multiset.mem_add.mp hx).resolve_right fun hm => hin (Controller.inStash_iff.mpr ⟨_, hm, by
        rw [blockOf, UInt64.ofNat_toNat]⟩)
    obtain ⟨i, hi, hxi, ho⟩ := mem_treeBlocks.mp htree
    obtain ⟨y, hm, ht, hblocks, hcl⟩ := takeAlong_some logicalId hlt (r := noRemoval p) rfl
      ⟨i, h.lookup_eq (v := v) ▸ h.onPath i hi _ hxi ho, _, hxi, OramBlock.logicalIdChoice_iff.mpr
        ⟨rfl, by rw [blockOf, UInt64.ofNat_toNat]⟩⟩
    obtain ⟨hshape, hsel⟩ := takeAlong_shape logicalId hlt hdummy h.shape.tree
    rcases hrec : takeAlong logicalId (p.pathNodes (scanPosMapLookup b.posMap logicalId)) (noRemoval p) b.tree with ⟨tree, r⟩
    rw [hrec] at ht hblocks hcl hshape hsel
    simp only at ht hblocks hcl hshape hsel
    subst ht
    obtain ⟨hyo, hyid⟩ := OramBlock.logicalIdChoice_iff.mp hm
    have hymem : y ∈ treeBlocks p b.tree := by rw [hblocks]; simp
    obtain rfl : y = blockOf b.posMap v logicalId.toNat :=
      h.eq_blockOf hid (Multiset.mem_add.mpr (.inl hymem)) hyid
    rw [hrun _ _ _ hrec, hyo]
    have hins := Controller.insertBlock_eq hc hsel true
    have hkeep := Controller.insertBlock_keeps hsel true _ hc
    rw [if_pos rfl] at hins
    cases hf : insertFirst (blockOf b.posMap v logicalId.toNat) b.stash with
    | none =>
      rw [hf] at hins
      simp only [Blocks.onController, Eff.zoom, hins]
      exact .full hin' (insertFirst_none.mp hf)
    | some stash =>
      rw [hf] at hins
      rw [hins] at hkeep
      simp only [Blocks.onController, Eff.zoom, hins]
      have hpos : 0 < freeSlots b.stash := by
        rw [Nat.pos_iff_ne_zero]
        intro h0
        rw [insertFirst_none.mpr h0] at hf
        cases hf
      obtain ⟨stash', hs', hfree⟩ := insertFirst_some hyo hpos
      rw [hf] at hs'
      cases hs'
      have hocc := occ_insertFirst hyo hf
      refine .moved hin' hfree { shape := ⟨hkeep, hshape⟩, blocks := ?_, onPath := h.onPath.cleared hcl } hcl hocc
      rw [← h.blocks, Blocks.blocks, Blocks.blocks, hocc, hblocks, add_assoc, add_comm {_}]

end BpirOram
