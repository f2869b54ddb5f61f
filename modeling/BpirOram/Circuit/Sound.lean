/-
  BpirOram.Circuit.Sound — the labels stay right, whatever fails.

  A call that fails may leave a block twice, lose one or give it another's payload, but
  each occupied slot it leaves was read from the tree, was in the stash or was relabelled
  with a leaf of the tree. So every real block keeps a leaf of the tree and the tree's
  are on their paths, after any operation and any fault. Draining needs no more.
-/

import BpirOram.Circuit.Batch
import BpirOram.Circuit.Drain

namespace BpirOram

open Lib

variable {ρ : Type} {p : OramParams}

namespace Sound

variable {b : Blocks ρ}

theorem mem_tree (h : Sound p b) {i : Nat} (hi : i < p.bucketCount) {x : OramBlock} (hx : x ∈ b.tree i)
    (ho : x.occupied = true) : x.leaf.toNat < p.leaves ∧ i ∈ p.pathNodes x.leaf :=
  ⟨h.leaf_lt x (Multiset.mem_add.mpr (.inl (mem_treeBlocks.mpr ⟨i, hi, hx, ho⟩))), h.onPath i hi x hx ho⟩

theorem mem_stash (h : Sound p b) {x : OramBlock} (hx : x ∈ occ b.stash) : x.leaf.toNat < p.leaves :=
  h.leaf_lt x (Multiset.mem_add.mpr (.inr hx))

/-- Soundness, slot by slot. -/
theorem of (hshape : b.Shape p) (hstash : ∀ x ∈ occ b.stash, x.leaf.toNat < p.leaves)
    (htree : ∀ i < p.bucketCount, ∀ x ∈ b.tree i, x.occupied = true →
      x.leaf.toNat < p.leaves ∧ i ∈ p.pathNodes x.leaf) :
    Sound p b where
  shape := hshape
  leaf_lt x hx := by
    rcases Multiset.mem_add.mp hx with hx | hx
    · obtain ⟨i, hi, hm, ho⟩ := mem_treeBlocks.mp hx
      exact (htree i hi x hm ho).1
    · exact hstash x hx
  onPath i hi x hx ho := (htree i hi x hx ho).2

end Sound

/-! ## Taking a block -/

theorem takeSlots_cleared (logicalId : UInt64) (bucket : List OramBlock) (r : Removal) :
    Cleared (takeSlots logicalId bucket r).1 bucket ∧
      ((takeSlots logicalId bucket r).2.selected = r.selected ∨ (takeSlots logicalId bucket r).2.selected ∈ occ bucket) := by
  induction bucket with
  | nil => exact ⟨.nil, .inl rfl⟩
  | cons x rest ih =>
    rw [takeSlots]
    split
    · rename_i hm
      rw [Bool.and_eq_true] at hm
      exact ⟨.cons (by simp) (Cleared.refl rest),
        .inr (mem_occ.mpr ⟨List.mem_cons_self, (OramBlock.logicalIdChoice_iff.mp hm.1).1⟩)⟩
    · refine ⟨.cons (fun _ => rfl) ih.1, ih.2.imp_right fun h => ?_⟩
      obtain ⟨hx, ho⟩ := mem_occ.mp h
      exact mem_occ.mpr ⟨List.mem_cons_of_mem x hx, ho⟩

theorem takeAlong_cleared (logicalId : UInt64) (path : List Nat) (r : Removal) (tree : Nat → List OramBlock) :
    (∀ i, Cleared ((takeAlong logicalId path r tree).1 i) (tree i)) ∧
      ((takeAlong logicalId path r tree).2.selected = r.selected ∨
        ∃ i ∈ path, (takeAlong logicalId path r tree).2.selected ∈ occ (tree i)) := by
  induction path generalizing r tree with
  | nil => exact ⟨fun i => Cleared.refl _, .inl rfl⟩
  | cons node path ih =>
    obtain ⟨hcl, hsel⟩ := takeSlots_cleared logicalId (tree node) r
    obtain ⟨ih1, ih2⟩ := ih (takeSlots logicalId (tree node) r).2
      (Function.update tree node (takeSlots logicalId (tree node) r).1)
    have hstep : ∀ i, Cleared (Function.update tree node (takeSlots logicalId (tree node) r).1 i) (tree i) := by
      intro i
      by_cases hi : i = node
      · subst hi; rw [Function.update_self]; exact hcl
      · rw [Function.update_of_ne hi]; exact Cleared.refl _
    refine ⟨fun i => (ih1 i).trans (hstep i), ?_⟩
    rcases ih2 with h | ⟨i, hi, h⟩
    · rcases hsel with hs | hs
      · exact .inl (h.trans hs)
      · exact .inr ⟨node, by simp, by rw [takeAlong, h]; exact hs⟩
    · obtain ⟨hx, ho⟩ := mem_occ.mp h
      exact .inr ⟨i, by simp [hi], mem_occ.mpr ⟨(hstep i).mem hx ho, ho⟩⟩

section
variable {logicalId : UInt64}

theorem removeTarget_sound {path : List Nat} (hlt : ∀ i ∈ path, i < p.bucketCount) (logicalId : UInt64) :
    Eff.Keeps (Sound p) (Blocks.removeTarget path logicalId : Eff Error (Blocks ρ) Unit) := by
  intro b h
  have hshape := removeTarget_keeps (ρ := ρ) hlt logicalId b h.shape
  have hc := h.shape.controller
  have hdummy : (noRemoval p).selected.payload.length = p.blockSize := OramBlock.dummy_payload_length _
  obtain ⟨hcl, hsel⟩ := takeAlong_cleared logicalId path (noRemoval p) b.tree
  have hlen := (takeAlong_shape logicalId hlt hdummy h.shape.tree).2
  simp only [Blocks.removeTarget, Eff.get_bind, Eff.modify_bind, Blocks.onController, Eff.zoom, hc.params,
    Controller.insertIntoStash] at hshape ⊢
  generalize takeAlong logicalId path (noRemoval p) b.tree = run at hcl hsel hlen hshape ⊢
  rw [Controller.insertBlock_eq hc hlen] at hshape ⊢
  have htree : ∀ i < p.bucketCount, ∀ x ∈ run.1 i, x.occupied = true →
      x.leaf.toNat < p.leaves ∧ i ∈ p.pathNodes x.leaf :=
    fun i hi x hx ho => h.mem_tree hi ((hcl i).mem hx ho) ho
  refine Sound.of hshape (fun x hx => ?_) htree
  split at hx
  · rename_i hocc
    split at hx
    · rename_i stash hins
      rw [occ_insertFirst hocc hins, Multiset.mem_add, Multiset.mem_singleton] at hx
      rcases hx with hx | rfl
      · exact h.mem_stash hx
      · rcases hsel with hs | ⟨i, hi, hs⟩
        · rw [hs] at hocc
          cases hocc
        · obtain ⟨hx, ho⟩ := mem_occ.mp hs
          exact (h.mem_tree (hlt i hi) hx ho).1
    · exact h.mem_stash hx
  · exact h.mem_stash hx

theorem mem_occ_updateStash {stash : List OramBlock} {newPayload : Bytes} {newLeaf : UInt32} {x : OramBlock}
    (hx : x ∈ occ (updateStash stash logicalId newPayload newLeaf)) :
    x.leaf = newLeaf ∨ ∃ y ∈ occ stash, y.leaf = x.leaf := by
  obtain ⟨hm, ho⟩ := mem_occ.mp hx
  obtain ⟨y, hy, rfl⟩ := List.mem_map.mp hm
  cases hid : y.logicalIdChoice logicalId
  · exact .inr ⟨y, mem_occ.mpr ⟨hy, ho⟩, by simp⟩
  · exact .inl (by simp)

theorem Sound.written {b : Blocks ρ} (h : Sound p b) {c : Controller ρ} (hc : c.Shape p) {newPayload : Bytes}
    {newLeaf : UInt32} (hleaf : newLeaf.toNat < p.leaves) (hs : c.stash = updateStash b.stash logicalId newPayload newLeaf) :
    Sound p { b with toController := c } := by
  refine Sound.of ⟨hc, h.shape.tree⟩ (fun x hx => ?_) fun i hi x hx ho => h.mem_tree hi hx ho
  replace hx : x ∈ occ c.stash := hx
  rw [hs] at hx
  rcases mem_occ_updateStash hx with he | ⟨y, hy, he⟩
  · rw [he]; exact hleaf
  · rw [← he]; exact h.mem_stash hy

theorem finishRequest_sound (logicalId : UInt64) {newLeaf : UInt32} (hleaf : newLeaf.toNat < p.leaves) (update : Update) :
    Eff.Keeps (Sound p)
      (Blocks.onController (Controller.finishRequest logicalId newLeaf update) : Eff Error (Blocks ρ) Bytes) := by
  intro b h
  have hkeep := Controller.finishRequest_keeps logicalId newLeaf update _ h.shape.controller
  simp only [Blocks.onController, Eff.zoom]
  rw [Controller.finishRequest_eq] at hkeep ⊢
  split
  · exact h
  · rename_i hfound
    rw [if_neg hfound] at hkeep
    split <;> rename_i hcount
    · rw [if_pos hcount] at hkeep; exact h.written hkeep hleaf rfl
    · rw [if_neg hcount] at hkeep; exact h.written hkeep hleaf rfl

end

/-! ## Faults -/

theorem mem_mixPages {new old : List OramBlock} {x : OramBlock} (hx : x ∈ mixPages new old) :
    ∃ y ∈ new, y.occupied = x.occupied ∧ y.leaf = x.leaf := by
  induction new generalizing old with
  | nil => simp [mixPages] at hx
  | cons n new ih =>
    cases old with
    | nil => simp [mixPages] at hx
    | cons o old =>
      rw [mixPages, List.zipWith_cons_cons, ← mixPages] at hx
      rcases List.mem_cons.mp hx with rfl | hx
      · exact ⟨n, by simp, rfl, rfl⟩
      · obtain ⟨y, hy, hl⟩ := ih hx
        exact ⟨y, by simp [hy], hl⟩

/-- A fault mixes a sound state with the tree it came from. -/
theorem bracket_sound {α : Type} (fault : Fault) {m : Eff Error (Blocks ρ) α} {b : Blocks ρ} (h : Sound p b)
    (hb : Sound p (m b).2) : Sound p (Blocks.bracket fault m b).2 := by
  have hold : Sound p { (m b).2 with tree := b.tree } :=
    .of ⟨hb.shape.controller, h.shape.tree⟩ (fun x hx => hb.mem_stash hx) fun i hi x hx ho => h.mem_tree hi hx ho
  have hmix : Sound p { (m b).2 with tree := fun i => mixPages ((m b).2.tree i) (b.tree i) } := by
    refine .of ⟨hb.shape.controller, fun i hi => mixPages_shape (hb.shape.tree i hi) (h.shape.tree i hi)⟩
      (fun x hx => hb.mem_stash hx) fun i hi x hx ho => ?_
    obtain ⟨y, hy, hocc, hleaf⟩ := mem_mixPages hx
    rw [← hleaf]
    exact hb.mem_tree hi hy (hocc.trans ho)
  rcases hrun : m b with ⟨_ | a, b'⟩ <;> rw [hrun] at hb hold hmix <;> cases fault <;>
    simp only [Blocks.bracket, hrun] <;> assumption

/-! ## Operations -/

theorem checkStash_sound : Eff.Keeps (Sound p) (Blocks.onController Controller.checkStash : Eff Error (Blocks ρ) Unit) := by
  intro b h
  rw [checkStash_run h.shape]
  exact h

theorem onSchedule_sound {α : Type} {m : Eff Error CircuitEvictionSchedule α}
    (hm : Eff.Keeps (fun s : CircuitEvictionSchedule => s.leafBits = p.leafBits) m) :
    Eff.Keeps (Sound p) (Blocks.onController (Controller.onSchedule m) : Eff Error (Blocks ρ) α) :=
  fun b h => h.frame b.rng (hm _ h.shape.controller.leafBits)

theorem drainEvictions_sound (budget : UInt64) (fault : Fault) :
    Eff.Keeps (Sound p) (Blocks.drainEvictions budget fault : Eff Error (Blocks ρ) UInt64) := by
  refine Eff.Keeps.get_bind fun b h => ?_
  rcases b.schedule.pendingEvictions with e | n
  · exact h
  rw [Eff.lift_ok_bind]
  split
  · exact h
  obtain ⟨outs, b', hrun, he⟩ := h.drainBody (min budget n)
  have hbr := bracket_sound fault h (m := Eff.forEach Blocks.evict (CircuitOram.evictionPaths b.toController (min budget n)))
    (by rw [hrun]; exact he.sound)
  rcases hres : Blocks.bracket fault (Eff.forEach Blocks.evict (CircuitOram.evictionPaths b.toController (min budget n))) b
    with ⟨_ | outs', b''⟩ <;> rw [hres] at hbr
  · rw [Eff.bind_error hres]
    exact hbr
  · rw [Eff.bind_ok hres]
    exact ((Eff.Keeps.forEach fun _ _ => onSchedule_sound (Controller.completeOneEviction_keeps fun _ _ h => h)).bind fun _ =>
      checkStash_sound.bind fun _ => Eff.Keeps.pure _) b'' hbr

/-- The work of a batch. -/
theorem batchBody_sound {b : Blocks ρ} (h : Sound p b) (update : Nat → UInt64 → Update) {logicalIds : List UInt64}
    (hids : ∀ id ∈ logicalIds, id.toNat < p.logicalBlocks) (newLeaves : List UInt32)
    (hlen : logicalIds.length = newLeaves.length) (hl : ∀ leaf ∈ newLeaves, leaf.toNat < p.leaves) (rng : ρ) :
    Sound p (Blocks.batchBody logicalIds update newLeaves rng b).2 := by
  have hroot := batchPaths_rootPath h.shape.controller hlen hids hl
  simp only [Blocks.batchBody, Eff.get_bind, h.shape.controller.params]
  refine Eff.Keeps.bind (Eff.Keeps.forEach fun turn ht => ?_)
    (fun outs => Eff.Keeps.bind (fun b h => ?_) fun _ => Eff.Keeps.pure outs) b h
  · obtain ⟨⟨⟨logicalId, newLeaf⟩, path⟩, k⟩ := turn
    have hm := List.of_mem_zip (List.fst_mem_of_mem_zipIdx ht)
    exact (removeTarget_sound (hroot path hm.2).lt logicalId).bind fun _ =>
      finishRequest_sound logicalId (hl newLeaf (List.of_mem_zip hm.1).2) _
  · exact .of ⟨batch_keeps h.shape.controller logicalIds hl rng, h.shape.tree⟩ (fun x hx => h.mem_stash hx)
      fun i hi x hx ho => h.mem_tree hi hx ho

section
variable [Rng ρ]

theorem finishAccess_sound (logicalId : UInt64) (update : Update) :
    Eff.Keeps (Sound p) (Blocks.onController (Controller.finishAccess logicalId update) : Eff Error (Blocks ρ) Bytes) := by
  intro b h
  have hkeep := Controller.finishAccess_keeps logicalId update _ h.shape.controller
  have hleaf : b.nextLeaf.toNat < p.leaves := h.shape.controller.params ▸ randomLeaf_lt b.params b.rng
  simp only [Blocks.onController, Eff.zoom]
  rw [Controller.finishAccess_eq h.shape.controller] at hkeep ⊢
  split
  · exact h
  · rename_i hfound
    rw [if_neg hfound] at hkeep
    split <;> rename_i hcount
    · rw [if_pos hcount] at hkeep; exact h.written hkeep hleaf rfl
    · rw [if_neg hcount] at hkeep; exact h.written hkeep hleaf rfl

theorem access_sound (logicalId : UInt64) (update : Update) (fault : Fault) :
    Eff.Keeps (Sound p) (Blocks.access logicalId update fault : Eff Error (Blocks ρ) Bytes) := by
  refine Eff.Keeps.get_bind fun b h => ?_
  rw [h.shape.controller.params]
  split
  · exact h
  · have hrem := removeTarget_sound (ρ := ρ)
      (p.pathNodes_lt (h.shape.controller.lookup_lt (show logicalId.toNat < _ by omega))) logicalId
    exact (Eff.Keeps.bind (fun b h => bracket_sound fault h (hrem b h)) fun _ => finishAccess_sound logicalId update) b h

theorem accessBatch_sound (logicalIds : List UInt64) (update : Nat → UInt64 → Update) (fault : Fault) :
    Eff.Keeps (Sound p) (Blocks.accessBatch logicalIds update fault : Eff Error (Blocks ρ) (List Bytes)) := by
  rw [Blocks.accessBatch]
  split
  · exact Eff.Keeps.pure _
  refine Eff.Keeps.get_bind fun b h => ?_
  rw [h.shape.controller.params]
  rcases hcheck : CircuitOram.checkLogicalIds p.logicalBlocks logicalIds with e | ⟨⟩
  · exact h
  have hb := batchBody_sound h update (checkLogicalIds_ok hcheck) (randomLeaves p logicalIds.length b.rng).1
    (by simp) (randomLeaves_lt p _ _) (randomLeaves p logicalIds.length b.rng).2
  have hbr := bracket_sound fault h hb
  rw [Eff.lift_ok_bind]
  rcases hrun : Blocks.bracket fault (Blocks.batchBody logicalIds update (randomLeaves p logicalIds.length b.rng).1
    (randomLeaves p logicalIds.length b.rng).2) b with ⟨_ | outs, b'⟩ <;> rw [hrun] at hbr
  · rw [Eff.bind_error hrun]
    exact hbr
  · rw [Eff.bind_ok hrun]
    exact (checkStash_sound.bind fun _ => Eff.Keeps.pure outs) b' hbr

/-- A batch succeeds when its accesses in order do, with the same outputs in the same state. -/
theorem Sound.accessBatch_eq_accessAll {b : Blocks ρ} (h : Sound p b) (update : Nat → UInt64 → Update)
    {logicalIds : List UInt64} (hids : ∀ id ∈ logicalIds, id.toNat < p.logicalBlocks) :
    (∃ outs b', Blocks.accessBatch logicalIds update .none b = (.ok outs, b') ∧
        Blocks.accessAll (batchRequests update 0 logicalIds) b = (.ok outs, b')) ∨
      ∃ e e', (Blocks.accessBatch logicalIds update .none b).1 = .error e ∧
        (Blocks.accessAll (batchRequests update 0 logicalIds) b).1 = .error e' := by
  by_cases he : logicalIds = []
  · subst he
    exact .inl ⟨[], b, rfl, rfl⟩
  have hb := batchBody_sound h update hids (randomLeaves p logicalIds.length b.rng).1 (by simp)
    (randomLeaves_lt p _ _) (randomLeaves p logicalIds.length b.rng).2
  simp only [Blocks.accessBatch]
  rw [if_neg (by simpa using he), Eff.get_bind, h.shape.controller.params, checkLogicalIds_of hids, Eff.lift_ok_bind]
  rcases batchBody_eq_accessAll h.shape update hids with ⟨outs, b', hrun, hacc⟩ | ⟨e, b', b'', hrun, -, hacc⟩
  · rw [hrun] at hb
    have hbr : Blocks.bracket .none (Blocks.batchBody logicalIds update (randomLeaves p logicalIds.length b.rng).1
        (randomLeaves p logicalIds.length b.rng).2) b = (.ok outs, b') := by
      simp only [Blocks.bracket, hrun]
    rw [Eff.bind_ok hbr, Eff.bind_ok (checkStash_run hb.shape)]
    exact .inl ⟨outs, b', rfl, hacc⟩
  · have hbr : Blocks.bracket .none (Blocks.batchBody logicalIds update (randomLeaves p logicalIds.length b.rng).1
        (randomLeaves p logicalIds.length b.rng).2) b = (.error e, { b' with tree := b.tree }) := by
      simp only [Blocks.bracket, hrun]
    rw [Eff.bind_error hbr, hacc]
    exact .inr ⟨e, e, rfl, rfl⟩

end
end BpirOram
