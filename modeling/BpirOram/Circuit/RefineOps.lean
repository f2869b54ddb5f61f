/-
  BpirOram.Circuit.RefineOps — the operations, one by one (see `BpirOram.Circuit.Refine`).
-/

import BpirOram.Circuit.Refine

namespace BpirOram

open Lib

variable {M P ρ α : Type} {p : OramParams}

/-! ## Overlays of what was read -/

/-- An overlay whose pages are all from `c`. -/
def Agrees (overlay : PageMap) (c : Nat → Bytes) : Prop := ∀ i x, overlay[i]? = some x → x = c i

theorem overlayPath_eq {sz : Nat} {c : Nat → Bytes} {path : List Nat} (hl : ∀ i ∈ path, (c i).length = sz)
    {overlay : PageMap} (ha : Agrees overlay c) :
    ∃ overlay', overlayPath sz (path.zip (path.map c)) overlay = .ok overlay' ∧ Agrees overlay' c ∧
      ∀ i, i ∈ path ∨ overlay[i]? = some (c i) → overlay'[i]? = some (c i) := by
  induction path generalizing overlay with
  | nil => exact ⟨overlay, rfl, ha, fun i hi => hi.resolve_left (by simp)⟩
  | cons node path ih =>
    have hn := hl node (by simp)
    have hrest := fun i hi => hl i (List.mem_cons_of_mem node hi)
    rw [List.map_cons, List.zip_cons_cons, overlayPath, if_neg (by simpa using hn)]
    cases ho : overlay[node]? with
    | some existing =>
      have he := ha node existing ho
      dsimp only
      rw [if_neg (by simpa using he)]
      obtain ⟨overlay', h1, h2, h3⟩ := ih hrest ha
      refine ⟨overlay', h1, h2, fun i hi => h3 i ?_⟩
      rcases hi with hi | hi
      · rcases List.mem_cons.mp hi with rfl | hi
        · exact .inr (by rw [ho, he])
        · exact .inl hi
      · exact .inr hi
    | none =>
      have hins : ∀ i, (overlay.insert node (c node))[i]? = if node = i then some (c node) else overlay[i]? := by
        intro i
        rw [Std.TreeMap.getElem?_insert]
        simp
      obtain ⟨overlay', h1, h2, h3⟩ := ih hrest (show Agrees (overlay.insert node (c node)) c by
        intro i x hx
        rw [hins] at hx
        split at hx
        · rename_i heq
          cases hx
          rw [heq]
        · exact ha i x hx)
      refine ⟨overlay', h1, h2, fun i hi => h3 i ?_⟩
      rw [hins]
      rcases hi with hi | hi
      · rcases List.mem_cons.mp hi with rfl | hi
        · exact .inr (if_pos rfl)
        · exact .inl hi
      · right
        split
        · rename_i heq
          rw [heq]
        · exact hi

theorem overlayPaths_eq {sz : Nat} {c : Nat → Bytes} {paths : List (List Nat)}
    (hl : ∀ i ∈ paths.flatten, (c i).length = sz) {overlay : PageMap} (ha : Agrees overlay c) :
    ∃ overlay', overlayPaths sz (paths.zip (paths.map (·.map c))) overlay = .ok overlay' ∧ Agrees overlay' c ∧
      ∀ i, i ∈ paths.flatten ∨ overlay[i]? = some (c i) → overlay'[i]? = some (c i) := by
  induction paths generalizing overlay with
  | nil => exact ⟨overlay, rfl, ha, fun i hi => hi.resolve_left (by simp)⟩
  | cons path paths ih =>
    rw [List.flatten_cons] at hl
    obtain ⟨o₁, h1, h2, h3⟩ := overlayPath_eq (fun i hi => hl i (List.mem_append_left _ hi)) ha
    obtain ⟨o₂, h4, h5, h6⟩ := ih (fun i hi => hl i (List.mem_append_right _ hi)) h2
    refine ⟨o₂, ?_, h5, fun i hi => h6 i ?_⟩
    · rw [List.map_cons, List.zip_cons_cons, overlayPaths, if_neg (by simp), h1]
      exact h4
    · rw [List.flatten_cons, List.mem_append] at hi
      rcases hi with (hi | hi) | hi
      · exact .inr (h3 i (.inl hi))
      · exact .inl hi
      · exact .inr (h3 i (.inr hi))

theorem overlayPathPages_eq {sz : Nat} {c : Nat → Bytes} (paths : List (List Nat))
    (hl : ∀ i ∈ paths.flatten, (c i).length = sz) :
    ∃ overlay, overlayPathPages paths (paths.map (·.map c)) sz = .ok overlay ∧ Covers overlay paths.flatten c := by
  obtain ⟨overlay, h1, -, h3⟩ := overlayPaths_eq hl (show Agrees ∅ c by intro i x hx; simp at hx)
  exact ⟨overlay, by rw [overlayPathPages, if_neg (by simp), h1], fun i hi => h3 i (.inl hi)⟩

theorem collectOverlayPaths_eq {c : Nat → Bytes} {paths : List (List Nat)} {overlay : PageMap}
    (h : Covers overlay paths.flatten c) : collectOverlayPaths paths overlay = .ok (paths.map (·.map c)) :=
  mapM_ok fun path hp => mapM_ok fun i hi => by
    rw [h i (List.mem_flatten.mpr ⟨path, hp, hi⟩)]
    rfl

section
variable [PathPageStore M] [PathPageStore P] {LM : MetaContract M p} {LP : PayloadContract P p}
  {s : CircuitOram M P ρ} {b : Blocks ρ}

theorem metaPages_length (h : b.Shape p) :
    ∀ i < p.bucketCount, (metaPages b.tree i).length = circuitMetaPageBytes p.bucketSize :=
  fun i hi => metaPage_length (h.tree i hi).slots

theorem payloadPages_length (h : b.Shape p) :
    ∀ i < p.bucketCount, (payloadPages b.tree i).length = circuitPayloadPageBytes p.bucketSize p.blockSize :=
  fun i hi => payloadPage_length (h.tree i hi)

/-! ## One path -/

theorem readAndRewritePath_outcome (h : Rel LM LP s b) {leaf : UInt32} (hleaf : leaf.toNat < p.leaves) :
    Outcome LM LP (CircuitOram.readAndRewritePath leaf s) fun fault => Blocks.bracket fault (pure ()) b := by
  have hroot := pathNodes_rootPath p hleaf
  simp only [CircuitOram.readAndRewritePath, Eff.get_bind, h.params]
  refine read_outcome h (LM.readPath h.metaRep hroot) (LP.readPath h.payloadRep hroot) fun t ht hrm hrp => ?_
  rw [← Eff.bind_pure_unit (CircuitOram.onPayload _)]
  exact write_outcome (p.pathNodes leaf) (b := b) rfl ht.controller h.shape h.shape.tree (fun i _ => rfl)
    ht.payloadRep
    (LM.writePath ht.metaRep hrm hroot fun i hi => metaPages_length h.shape i (hroot.lt i hi))
    (LP.writePath ht.payloadRep hrp hroot fun i hi => payloadPages_length h.shape i (hroot.lt i hi))

theorem readAndRemoveTargetPath_outcome (h : Rel LM LP s b) {leaf : UInt32} (hleaf : leaf.toNat < p.leaves)
    (logicalId : UInt64) :
    Outcome LM LP (CircuitOram.readAndRemoveTargetPath leaf logicalId s)
      fun fault => Blocks.bracket fault (Blocks.removeTarget (p.pathNodes leaf) logicalId) b := by
  have hroot := pathNodes_rootPath p hleaf
  have hb := h.shape.controller
  have hdummy : (noRemoval p).selected.payload.length = p.blockSize := OramBlock.dummy_payload_length _
  obtain ⟨htree, hsel⟩ := takeAlong_shape logicalId hroot.lt hdummy h.shape.tree
  simp only [CircuitOram.readAndRemoveTargetPath, Eff.get_bind, h.params]
  refine read_outcome h (LM.readPath h.metaRep hroot) (LP.readPath h.payloadRep hroot) fun t ht hrm hrp => ?_
  have hzip : ((p.pathNodes leaf).map (metaPages b.tree)).zip ((p.pathNodes leaf).map (payloadPages b.tree))
      = (p.pathNodes leaf).map fun i => bucketPages (b.tree i) := List.zip_map'
  rw [hzip, removeFromPath_eq logicalId (p.pathNodes_nodup hleaf) hroot.lt hdummy h.shape.tree, Eff.lift_ok_bind]
  simp only [List.length_map, List.map_map]
  rw [List.drop_of_length_le (by simp), List.drop_of_length_le (by simp), List.append_nil, List.append_nil]
  -- the insertion into the stash, the same on both sides
  have hins : ∀ r, Controller.insertIntoStash (takeAlong logicalId (p.pathNodes leaf) (noRemoval p) b.tree).2.selected
      b.toController = r →
        CircuitOram.onController (Controller.insertIntoStash
          (takeAlong logicalId (p.pathNodes leaf) (noRemoval p) b.tree).2.selected) t
            = (r.1, { t with toController := r.2 }) ∧
        Blocks.removeTarget (p.pathNodes leaf) logicalId b
          = (r.1, { toController := r.2, tree := (takeAlong logicalId (p.pathNodes leaf) (noRemoval p) b.tree).1 }) := by
    rintro r rfl
    refine ⟨by simp only [CircuitOram.onController, Eff.zoom, ht.controller], ?_⟩
    simp only [Blocks.removeTarget, Eff.get_bind, Eff.modify_bind, hb.params, Blocks.onController, Eff.zoom]
  have hkeep := Controller.insertBlock_keeps hsel
    (takeAlong logicalId (p.pathNodes leaf) (noRemoval p) b.tree).2.selected.occupied _ hb
  rcases hr : Controller.insertIntoStash (takeAlong logicalId (p.pathNodes leaf) (noRemoval p) b.tree).2.selected
    b.toController with ⟨_ | ⟨⟩, c⟩
  all_goals
    obtain ⟨hrun, hbody⟩ := hins _ hr
    change Controller.Shape p (Controller.insertIntoStash _ _).2 at hkeep
    rw [hr] at hkeep
  · rw [Eff.bind_error hrun]
    exact failed_outcome hbody { ht with controller := rfl, shape := ⟨hkeep, h.shape.tree⟩ }
  · rw [Eff.bind_ok hrun, ← Eff.bind_pure_unit (CircuitOram.onPayload _)]
    have hshape : Blocks.Shape p { toController := c, tree := (takeAlong logicalId (p.pathNodes leaf) (noRemoval p) b.tree).1 } :=
      ⟨hkeep, htree⟩
    exact write_outcome (p.pathNodes leaf) hbody rfl hshape h.shape.tree (fun i hi => takeAlong_frame hi)
      ht.payloadRep
      (LM.writePath ht.metaRep hrm hroot fun i hi => metaPages_length hshape i (hroot.lt i hi))
      (LP.writePath ht.payloadRep hrp hroot fun i hi => payloadPages_length hshape i (hroot.lt i hi))

/-! ## A batch of paths -/

/-- A batch between its reads and its writes, and a controller step before the writes. -/
theorem batch_outcome (h : Rel LM LP s b) {paths : List (List Nat)} (hne : paths ≠ [])
    (hroot : ∀ path ∈ paths, RootPath p.bucketCount path) (body : Eff Error (Overlaid ρ) α)
    (bodyB : Eff Error (Blocks ρ) α) (hsim : Eff.Sim (Tracks p paths.flatten b.tree) body bodyB)
    {g : Controller ρ → Controller ρ} (hg : ∀ c, Controller.Shape p c → (g c).Shape p) :
    Outcome LM LP ((CircuitOram.readOverlays paths >>= fun overlays =>
        CircuitOram.withOverlays overlays body >>= fun r => CircuitOram.onController (Eff.modify g) >>= fun _ =>
        CircuitOram.writeOverlays paths r.2 >>= fun _ => pure r.1) s)
      fun fault => Blocks.bracket fault
        (bodyB >>= fun a => Blocks.onController (Eff.modify g) >>= fun _ => pure a) b := by
  have hlt := RootPath.flatten_lt hroot
  simp only [CircuitOram.readOverlays, Eff.bind_assoc]
  refine read_outcome h (LM.readPaths h.metaRep hne hroot) (LP.readPaths h.payloadRep hne hroot) fun t ht hrm hrp => ?_
  obtain ⟨mo, hmo, hmc⟩ := overlayPathPages_eq paths fun i hi => metaPages_length h.shape i (hlt i hi)
  obtain ⟨po, hpo, hpc⟩ := overlayPathPages_eq paths fun i hi => payloadPages_length h.shape i (hlt i hi)
  rw [Eff.get_bind, ht.params, hmo, hpo, Eff.lift_ok_bind, Eff.lift_ok_bind, Eff.pure_bind]
  have htr : Tracks p paths.flatten b.tree ⟨t.toController, ⟨mo, po⟩⟩ b :=
    { controller := ht.controller, shape := h.shape, metaPages := hmc, payloadPages := hpc, outside := fun i _ => rfl }
  obtain ⟨h1, h2⟩ := hsim _ _ htr
  have hover : CircuitOram.withOverlays ⟨mo, po⟩ body t
      = ((body ⟨t.toController, ⟨mo, po⟩⟩).1.map fun a => (a, (body ⟨t.toController, ⟨mo, po⟩⟩).2.toOverlays),
          { t with toController := (body ⟨t.toController, ⟨mo, po⟩⟩).2.toController }) := rfl
  rcases hr : body ⟨t.toController, ⟨mo, po⟩⟩ with ⟨_ | a, o'⟩ <;> rcases hrb : bodyB b with ⟨_ | a', b'⟩ <;>
    rw [hr] at h1 h2 hover <;> rw [hrb] at h1 h2 <;> cases h1
  · rw [Eff.bind_error hover]
    exact failed_outcome (Eff.bind_error hrb)
      { ht with controller := h2.controller, shape := ⟨h2.shape.controller, h.shape.tree⟩ }
  · have hshape : Blocks.Shape p { b' with toController := g b'.toController } :=
      ⟨hg _ h2.shape.controller, h2.shape.tree⟩
    have hbody : (bodyB >>= fun a => Blocks.onController (Eff.modify g) >>= fun _ => pure a) b
        = (.ok a, { b' with toController := g b'.toController }) := by
      rw [Eff.bind_ok hrb]
      rfl
    rw [Eff.bind_ok hover]
    change Outcome LM LP ((CircuitOram.writeOverlays paths o'.toOverlays >>= fun _ => pure a)
      { t with toController := g o'.toController }) _
    have hc : g o'.toController = g b'.toController := by rw [h2.controller]
    simp only [CircuitOram.writeOverlays, collectOverlayPaths_eq h2.metaPages, collectOverlayPaths_eq h2.payloadPages,
      Eff.lift_ok_bind, Eff.bind_assoc]
    exact write_outcome paths.flatten hbody hc hshape h.shape.tree (fun i hi => h2.outside i hi) ht.payloadRep
      (LM.writePaths ht.metaRep hrm hne hroot fun i hi => metaPages_length hshape i (hlt i hi))
      (LP.writePaths ht.payloadRep hrp hne hroot fun i hi => payloadPages_length hshape i (hlt i hi))

theorem bracket_congr {m m' : Eff Error (Blocks ρ) α} (h : m b = m' b) (fault : Fault) :
    Blocks.bracket fault m b = Blocks.bracket fault m' b := by
  simp only [Blocks.bracket, h]

/-! ## Operations -/

theorem recordAccess_sim : Eff.Sim (Rel (ρ := ρ) LM LP)
    (CircuitOram.onController (Controller.onSchedule CircuitEvictionSchedule.recordAccess))
    (Blocks.onController (Controller.onSchedule CircuitEvictionSchedule.recordAccess)) :=
  Rel.onController (Controller.onSchedule_keeps Controller.recordAccess_keeps)

theorem checkStash_sim : Eff.Sim (Rel (ρ := ρ) LM LP) (CircuitOram.onController Controller.checkStash)
    (Blocks.onController Controller.checkStash) :=
  Rel.onController Controller.checkStash_keeps

theorem evictionPaths_rootPath (c : Controller ρ) (hc : c.Shape p) (n : UInt64) :
    ∀ path ∈ CircuitOram.evictionPaths c n, RootPath p.bucketCount path ∧ path.length = p.height := by
  intro path hp
  obtain ⟨offset, -, rfl⟩ := List.mem_map.mp hp
  rw [hc.params]
  exact ⟨pathNodes_rootPath p (CircuitEvictionSchedule.evictionLeafAt_lt p _), p.pathNodes_length _⟩

theorem evictionPaths_ne_nil (c : Controller ρ) {n : UInt64} (hn : n ≠ 0) : CircuitOram.evictionPaths c n ≠ [] := by
  intro h
  rw [CircuitOram.evictionPaths, List.map_eq_nil_iff, List.range_eq_nil] at h
  exact hn (UInt64.toNat_inj.mp h)

theorem drainEvictions_outcome (h : Rel LM LP s b) (budget : UInt64) :
    Outcome LM LP (CircuitOram.drainEvictions budget s) fun fault => Blocks.drainEvictions budget fault b := by
  have hc := h.controller
  simp only [CircuitOram.drainEvictions, Blocks.drainEvictions, Eff.get_bind, hc]
  rcases b.schedule.pendingEvictions with e | pending
  · exact Outcome.of_eq h rfl
  simp only [Eff.lift_ok_bind]
  by_cases hz : min budget pending = 0
  · simp only [if_pos hz]
    exact Outcome.of_eq h rfl
  simp only [if_neg hz]
  have hpaths := evictionPaths_rootPath b.toController h.shape.controller (min budget pending)
  have hne := evictionPaths_ne_nil b.toController hz
  generalize CircuitOram.evictionPaths b.toController (min budget pending) = paths at hpaths hne
  have hroot := fun path hp => (hpaths path hp).1
  have hcore := batch_outcome h hne hroot (Eff.forEach Overlaid.evictPathInOverlays paths)
    (Eff.forEach Blocks.evict paths) (Eff.Sim.forEach fun path hp =>
      Tracks.evict (fun i hi => List.mem_flatten.mpr ⟨path, hp, hi⟩) (hroot path hp).lt (hpaths path hp).2)
    (g := id) fun c hc => hc
  have hpost := hcore.bind (f := fun _ => Eff.forEach (fun _ => CircuitOram.onController
      (Controller.onSchedule CircuitEvictionSchedule.completeOneEviction)) paths >>= fun _ =>
      CircuitOram.onController Controller.checkStash >>= fun _ => pure (min budget pending))
    (g := fun _ => Eff.forEach (fun _ => Blocks.onController
      (Controller.onSchedule CircuitEvictionSchedule.completeOneEviction)) paths >>= fun _ =>
      Blocks.onController Controller.checkStash >>= fun _ => pure (min budget pending))
    (fun _ => (Eff.Sim.forEach fun _ _ => Rel.onController
      (Controller.onSchedule_keeps (Controller.completeOneEviction_keeps fun _ _ h => h))).bind fun _ =>
        checkStash_sim.bind fun _ => Eff.Sim.pure _)
  simp only [Eff.bind_assoc, Eff.pure_bind] at hpost
  have hbody : (Eff.forEach Blocks.evict paths >>= fun a => Blocks.onController (Eff.modify id) >>= fun _ => pure a)
      = (Eff.forEach Blocks.evict paths : Eff Error (Blocks ρ) _) := by
    funext b
    rcases hb : Eff.forEach Blocks.evict paths b with ⟨_ | _, _⟩
    · rw [Eff.bind_error hb]
    · rw [Eff.bind_ok hb]; rfl
  rw [hbody] at hpost
  exact hpost

/-! ## The paths of a batch -/

theorem sequentialLeaves_lt {c : Controller ρ} (hc : c.Shape p) {requests : List (UInt64 × UInt32)}
    (hids : ∀ r ∈ requests, r.1.toNat < p.logicalBlocks) (hl : ∀ r ∈ requests, r.2.toNat < p.leaves) :
    ∀ leaf ∈ sequentialLeaves c.posMap requests, leaf.toNat < p.leaves := by
  induction requests generalizing c with
  | nil => intro leaf h; cases h
  | cons r requests ih =>
    intro leaf h
    rcases List.mem_cons.mp h with rfl | h
    · exact hc.lookup_lt (hids r (by simp))
    · refine ih (c := { c with posMap := scanPosMapUpdate c.posMap r.1 r.2 }) ?_ (fun x hx => hids x (by simp [hx]))
        (fun x hx => hl x (by simp [hx])) leaf h
      exact { hc with
        posMap := by simpa using hc.posMap
        leaves := Controller.scanPosMapUpdate_leaves hc.leaves (hl r (by simp)) }

theorem checkLogicalIds_of {n : Nat} {logicalIds : List UInt64} (h : ∀ id ∈ logicalIds, id.toNat < n) :
    CircuitOram.checkLogicalIds n logicalIds = .ok () := by
  induction logicalIds with
  | nil => rfl
  | cons a as ih =>
    rw [CircuitOram.checkLogicalIds, if_neg (by have := h a (by simp); omega)]
    exact ih fun id hid => h id (by simp [hid])

/-- The paths of a batch. -/
def batchPaths (p : OramParams) (posMap : List UInt32) (logicalIds : List UInt64) (newLeaves : List UInt32) :
    List (List Nat) :=
  (batchAccessLeaves logicalIds (scanPosMapLookupBatch posMap logicalIds) newLeaves).map p.pathNodes

theorem batchPaths_rootPath {c : Controller ρ} (hc : c.Shape p) {logicalIds : List UInt64} {newLeaves : List UInt32}
    (hlen : logicalIds.length = newLeaves.length) (hids : ∀ id ∈ logicalIds, id.toNat < p.logicalBlocks)
    (hl : ∀ leaf ∈ newLeaves, leaf.toNat < p.leaves) :
    ∀ path ∈ batchPaths p c.posMap logicalIds newLeaves, RootPath p.bucketCount path := by
  intro path hp
  obtain ⟨leaf, hm, rfl⟩ := List.mem_map.mp hp
  rw [batchAccessLeaves_eq hc.logicalBlocks_lt hlen (by rw [hc.posMap]; exact hids)] at hm
  exact pathNodes_rootPath p (sequentialLeaves_lt hc (fun r hr => hids _ (List.of_mem_zip hr).1)
    (fun r hr => hl _ (List.of_mem_zip hr).2) leaf hm)

theorem batchPaths_ne_nil {posMap : List UInt32} {logicalIds : List UInt64} {newLeaves : List UInt32}
    (hne : logicalIds ≠ []) : batchPaths p posMap logicalIds newLeaves ≠ [] := by
  intro h
  have hlen := congrArg List.length h
  simp [batchPaths, batchAccessLeaves, scanPosMapLookupBatch_eq] at hlen
  exact hne hlen

theorem batch_keeps {c : Controller ρ} (hc : c.Shape p) (logicalIds : List UInt64) {newLeaves : List UInt32}
    (hl : ∀ leaf ∈ newLeaves, leaf.toNat < p.leaves) (rng : ρ) :
    Controller.Shape p { c with posMap := scanPosMapUpdateBatch c.posMap logicalIds newLeaves, rng } :=
  { hc with
    posMap := by simpa [scanPosMapUpdateBatch_eq] using hc.posMap
    leaves := by
      rw [scanPosMapUpdateBatch_eq]
      exact Controller.updateAll_leaves hc.leaves fun r hr => hl _ (List.of_mem_zip hr).2 }

/-- The loops of a batch, over overlays and over blocks. -/
theorem serveTurns_sim {nodes : List Nat} {tree₀ : Nat → List OramBlock} (update : Nat → UInt64 → Update)
    {turns : List (((UInt64 × UInt32) × List Nat) × Nat)}
    (hp : ∀ turn ∈ turns, (∀ i ∈ turn.1.2, i ∈ nodes) ∧ ∀ i ∈ turn.1.2, i < p.bucketCount) :
    Eff.Sim (Tracks (ρ := ρ) p nodes tree₀)
      (Eff.forEach (fun (((logicalId, newLeaf), path), k) =>
        CircuitOram.serveRequest logicalId newLeaf path (update k logicalId)) turns)
      (Eff.forEach (fun (((logicalId, newLeaf), path), k) =>
        Blocks.serveRequest logicalId newLeaf path (update k logicalId)) turns) :=
  Eff.Sim.forEach fun turn ht =>
    (Tracks.removeTarget (hp turn ht).1 (hp turn ht).2 turn.1.1.1).bind fun _ =>
      Tracks.onController (Controller.finishRequest_keeps turn.1.1.1 turn.1.1.2 _)

theorem batchBody_eq (h : b.params = p) (logicalIds : List UInt64) (update : Nat → UInt64 → Update)
    (newLeaves : List UInt32) (rng : ρ) :
    Blocks.batchBody logicalIds update newLeaves rng b
      = (Eff.forEach (fun (((logicalId, newLeaf), path), k) =>
          Blocks.serveRequest logicalId newLeaf path (update k logicalId))
          (Blocks.batchTurns p b.posMap logicalIds newLeaves) >>= fun outputs => Blocks.onController (Eff.modify fun c =>
            { c with posMap := scanPosMapUpdateBatch c.posMap logicalIds newLeaves, rng }) >>= fun _ => pure outputs) b := by
  simp only [Blocks.batchBody, Eff.get_bind, h]

/-! ## Operations that draw leaves -/

section
variable [Rng ρ]

theorem access_outcome (h : Rel LM LP s b) (logicalId : UInt64) (update : Update) :
    Outcome LM LP (CircuitOram.access logicalId update s) fun fault => Blocks.access logicalId update fault b := by
  have hpos : s.posMap = b.posMap := congrArg Controller.posMap h.controller
  simp only [CircuitOram.access, Blocks.access, Eff.get_bind, h.params, h.shape.controller.params, hpos]
  by_cases hid : logicalId.toNat ≥ p.logicalBlocks
  · simp only [if_pos hid]
    exact Outcome.of_eq h rfl
  · simp only [if_neg hid]
    exact (readAndRemoveTargetPath_outcome h (h.shape.controller.lookup_lt (by omega)) logicalId).bind fun _ =>
      Rel.onController (Controller.finishAccess_keeps logicalId update)

theorem accessBatch_outcome (h : Rel LM LP s b) (logicalIds : List UInt64) (update : Nat → UInt64 → Update) :
    Outcome LM LP (CircuitOram.accessBatch logicalIds update s)
      fun fault => Blocks.accessBatch logicalIds update fault b := by
  have hc := h.controller
  have hb := h.shape.controller
  have hpos : s.posMap = b.posMap := congrArg Controller.posMap hc
  have hrng : s.rng = b.rng := congrArg Controller.rng hc
  rw [CircuitOram.accessBatch]
  simp only [Blocks.accessBatch]
  by_cases he : logicalIds.isEmpty
  · simp only [if_pos he]
    exact Outcome.of_eq h rfl
  simp only [if_neg he, Eff.get_bind, h.params, hb.params, hpos, hrng]
  rcases hcheck : CircuitOram.checkLogicalIds p.logicalBlocks logicalIds with e | ⟨⟩
  · exact Outcome.of_eq h rfl
  simp only [Eff.lift_ok_bind]
  have hids := checkLogicalIds_ok hcheck
  have hlen : logicalIds.length = (randomLeaves p logicalIds.length b.rng).1.length := by simp
  have hl := randomLeaves_lt p logicalIds.length b.rng
  generalize randomLeaves p logicalIds.length b.rng = draw at hlen hl
  have hroot := batchPaths_rootPath hb hlen hids hl
  have hcore := batch_outcome h (batchPaths_ne_nil (by simpa using he)) hroot _ _
    (serveTurns_sim update fun turn ht => by
      have hp : turn.1.2 ∈ batchPaths p b.posMap logicalIds draw.1 :=
        (List.of_mem_zip (List.fst_mem_of_mem_zipIdx (show turn ∈ Blocks.batchTurns p b.posMap logicalIds draw.1 from ht))).2
      exact ⟨fun i hi => List.mem_flatten.mpr ⟨turn.1.2, hp, hi⟩, (hroot turn.1.2 hp).lt⟩)
    (g := fun c => { c with posMap := scanPosMapUpdateBatch c.posMap logicalIds draw.1, rng := draw.2 })
    fun c hc => batch_keeps hc logicalIds hl draw.2
  have hpost := hcore.bind (f := fun outputs => CircuitOram.onController Controller.checkStash >>= fun _ => pure outputs)
    (g := fun outputs => Blocks.onController Controller.checkStash >>= fun _ => pure outputs)
    fun _ => checkStash_sim.bind fun _ => Eff.Sim.pure _
  simp only [Eff.bind_assoc, Eff.pure_bind] at hpost
  exact hpost.congr fun fault => Eff.bind_congr (bracket_congr (batchBody_eq hb.params logicalIds update _ _).symm fault)

theorem dummyAccess_outcome (h : Rel LM LP s b) :
    Outcome LM LP (CircuitOram.dummyAccess s) fun fault => Blocks.dummyAccess fault b := by
  have hrng : s.rng = b.rng := congrArg Controller.rng h.controller
  simp only [CircuitOram.dummyAccess, Blocks.dummyAccess, Eff.get_bind, h.params, h.shape.controller.params, hrng]
  have hlt := randomLeaf_lt p b.rng
  generalize randomLeaf p b.rng = draw at hlt
  obtain ⟨-, hd⟩ := Rel.onController (m := Eff.modify fun c : Controller ρ => { c with rng := draw.2 })
    (Eff.Keeps.modify fun c hc => { hc with }) s b h
  exact (readAndRewritePath_outcome hd hlt).bind fun _ => recordAccess_sim.bind fun _ => checkStash_sim

theorem dummyAccessBatch_outcome (h : Rel LM LP s b) (count : Nat) :
    Outcome LM LP (CircuitOram.dummyAccessBatch count s) fun fault => Blocks.dummyAccessBatch count fault b := by
  have hrng : s.rng = b.rng := congrArg Controller.rng h.controller
  rw [CircuitOram.dummyAccessBatch]
  simp only [Blocks.dummyAccessBatch]
  by_cases hz : count = 0
  · simp only [if_pos hz]
    exact Outcome.of_eq h rfl
  simp only [if_neg hz, Eff.get_bind, h.params, h.shape.controller.params, hrng]
  have hlen := randomLeaves_length p count b.rng
  have hlt := randomLeaves_lt p count b.rng
  generalize randomLeaves p count b.rng = draw at hlen hlt
  obtain ⟨-, hd⟩ := Rel.onController (m := Eff.modify fun c : Controller ρ => { c with rng := draw.2 })
    (Eff.Keeps.modify fun c hc => { hc with }) s b h
  have hne : draw.1.map p.pathNodes ≠ [] := by
    intro h
    rw [List.map_eq_nil_iff.mp h] at hlen
    exact hz hlen.symm
  have hcore := batch_outcome hd hne (fun path hp => by
      obtain ⟨leaf, hm, rfl⟩ := List.mem_map.mp hp
      exact pathNodes_rootPath p (hlt leaf hm)) (pure ()) (pure ()) (Eff.Sim.pure ()) (g := id)
    fun c hc => hc
  -- nothing happens between the reads and the writes
  have hcode : (CircuitOram.readOverlays (draw.1.map p.pathNodes) >>= fun overlays =>
      CircuitOram.withOverlays overlays (pure ()) >>= fun r => CircuitOram.onController (Eff.modify id) >>= fun _ =>
      CircuitOram.writeOverlays (draw.1.map p.pathNodes) r.2 >>= fun _ => pure r.1)
      = (CircuitOram.readOverlays (draw.1.map p.pathNodes) >>= fun overlays =>
        CircuitOram.writeOverlays (draw.1.map p.pathNodes) overlays : Eff Error (CircuitOram M P ρ) Unit) := by
    congr 1
    funext overlays
    exact Eff.bind_pure_unit (CircuitOram.writeOverlays (draw.1.map p.pathNodes) overlays)
  have hbody : (pure () >>= fun a => Blocks.onController (Eff.modify id) >>= fun _ => pure a)
      = (pure () : Eff Error (Blocks ρ) Unit) := rfl
  rw [hcode, hbody] at hcore
  have hpost := hcore.bind (f := fun _ => Eff.forEach (fun _ => CircuitOram.onController
      (Controller.onSchedule CircuitEvictionSchedule.recordAccess)) (List.range count) >>= fun _ =>
      CircuitOram.onController Controller.checkStash)
    (g := fun _ => Eff.forEach (fun _ => Blocks.onController
      (Controller.onSchedule CircuitEvictionSchedule.recordAccess)) (List.range count) >>= fun _ =>
      Blocks.onController Controller.checkStash)
    fun _ => (Eff.Sim.forEach fun _ _ => recordAccess_sim).bind fun _ => checkStash_sim
  simp only [Eff.bind_assoc] at hpost
  exact hpost

end
end
end BpirOram
