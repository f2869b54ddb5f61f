/-
  BpirOram.Circuit.Batch — a batch is its requests, one after the other.

  The batch keeps the position map and the generator of its start until its last step and
  visits leaves computed up front; the sequence of accesses updates both as it goes. They
  run in step: after each request the batch is the sequence with its position map and its
  generator put back (`Blocks.lag`).
-/

import BpirOram.Circuit.Access
import BpirOram.Circuit.RefineOps

namespace BpirOram

open Lib

variable {ρ : Type} {p : OramParams}

/-- What the calls of the `FnMut` of a batch do, from call `k` on. -/
def batchRequests (update : Nat → UInt64 → Update) (k : Nat) (logicalIds : List UInt64) : List (UInt64 × Update) :=
  (logicalIds.zipIdx k).map fun x => (x.1, update x.2 x.1)

/-- A state with another position map and generator. -/
def Blocks.lag (b : Blocks ρ) (posMap : List UInt32) (rng : ρ) : Blocks ρ := { b with posMap, rng }

theorem removeTarget_keeps {path : List Nat} (hlt : ∀ i ∈ path, i < p.bucketCount) (logicalId : UInt64) :
    Eff.Keeps (Blocks.Shape p) (Blocks.removeTarget path logicalId : Eff Error (Blocks ρ) Unit) := by
  refine Eff.Keeps.get_bind fun b h => ?_
  have hdummy : (noRemoval b.params).selected.payload.length = p.blockSize := by
    rw [h.controller.params]
    exact OramBlock.dummy_payload_length _
  obtain ⟨htree, hsel⟩ := takeAlong_shape logicalId hlt hdummy h.tree
  exact ⟨Controller.insertBlock_keeps hsel _ _ h.controller, htree⟩

/-- Moving a target into the stash does not look at the position map or the generator. -/
theorem removeTarget_lag (path : List Nat) (logicalId : UInt64) (b : Blocks ρ) (posMap : List UInt32) (rng : ρ) :
    Blocks.removeTarget path logicalId (b.lag posMap rng)
      = ((Blocks.removeTarget path logicalId b).1, (Blocks.removeTarget path logicalId b).2.lag posMap rng) := by
  simp only [Blocks.removeTarget, Eff.get_bind, Eff.modify_bind, Blocks.onController, Eff.zoom, Blocks.lag,
    Controller.insertIntoStash, Controller.insertBlock]
  split <;> rfl

/-- The turns of a batch from call `k` on, with the leaves the sequence visits. -/
def turnsFrom (p : OramParams) (k : Nat) (posMap : List UInt32) (requests : List (UInt64 × UInt32)) :
    List (((UInt64 × UInt32) × List Nat) × Nat) :=
  (requests.zip ((sequentialLeaves posMap requests).map p.pathNodes)).zipIdx k

def serveTurn (update : Nat → UInt64 → Update) (turn : ((UInt64 × UInt32) × List Nat) × Nat) :
    Eff Error (Blocks ρ) Bytes :=
  Blocks.serveRequest turn.1.1.1 turn.1.1.2 turn.1.2 (update turn.2 turn.1.1.1)

theorem batchTurns_eq {c : Controller ρ} (hc : c.Shape p) {logicalIds : List UInt64} {newLeaves : List UInt32}
    (hlen : logicalIds.length = newLeaves.length) (hids : ∀ id ∈ logicalIds, id.toNat < p.logicalBlocks) :
    Blocks.batchTurns p c.posMap logicalIds newLeaves = turnsFrom p 0 c.posMap (logicalIds.zip newLeaves) := by
  rw [Blocks.batchTurns, batchAccessLeaves_eq hc.logicalBlocks_lt hlen (by rw [hc.posMap]; exact hids)]
  rfl

/-- What a batch loop never touches, and the counter it only moves up. -/
structure Frozen (b₀ b : Blocks ρ) : Prop where
  posMap : b.posMap = b₀.posMap
  rng : b.rng = b₀.rng
  issued : b₀.schedule.issuedAccesses.toNat ≤ b.schedule.issuedAccesses.toNat

theorem serveTurn_frozen (b₀ : Blocks ρ) (update : Nat → UInt64 → Update)
    (turn : ((UInt64 × UInt32) × List Nat) × Nat) : Eff.Keeps (Frozen b₀) (serveTurn update turn) := by
  refine Eff.Keeps.bind (fun b h => ?_) fun _ b h => ?_
  · simp only [Blocks.removeTarget, Eff.get_bind, Eff.modify_bind, Blocks.onController, Eff.zoom,
      Controller.insertIntoStash, Controller.insertBlock]
    split <;> exact { h with }
  · simp only [Blocks.onController, Eff.zoom, Controller.finishRequest_eq]
    split
    · exact h
    · split
      · rename_i hcount
        exact { h with issued := h.issued.trans (by
          rw [Controller.counted_issued (c := Controller.written _ _ _ _) hcount]; exact Nat.le_succ _) }
      · exact { h with }

section
variable [Rng ρ]

def Blocks.accessAll (requests : List (UInt64 × Update)) : Eff Error (Blocks ρ) (List Bytes) :=
  Eff.forEach (fun r => Blocks.access r.1 r.2 .none) requests

/-- One request of the batch and the access of the sequence. -/
theorem serveRequest_lag {b : Blocks ρ} {posMap : List UInt32} {rng : ρ} (h : (b.lag posMap rng).Shape p)
    {logicalId : UInt64} (hid : logicalId.toNat < p.logicalBlocks) (update : Update) :
    (∃ out b', Blocks.serveRequest logicalId (randomLeaf p rng).1 (p.pathNodes (scanPosMapLookup posMap logicalId))
          update b = (.ok out, b') ∧
        Blocks.access logicalId update .none (b.lag posMap rng)
          = (.ok out, b'.lag (scanPosMapUpdate posMap logicalId (randomLeaf p rng).1) (randomLeaf p rng).2) ∧
        (b'.lag (scanPosMapUpdate posMap logicalId (randomLeaf p rng).1) (randomLeaf p rng).2).Shape p) ∨
      ∃ e b' b'', Blocks.serveRequest logicalId (randomLeaf p rng).1
          (p.pathNodes (scanPosMapLookup posMap logicalId)) update b = (.error e, b') ∧
        Blocks.access logicalId update .none (b.lag posMap rng) = (.error e, b'') := by
  have hparams : b.params = p := h.controller.params
  have hlt : ∀ i ∈ p.pathNodes (scanPosMapLookup posMap logicalId), i < p.bucketCount :=
    p.pathNodes_lt (h.controller.lookup_lt hid)
  have hacc : Blocks.access logicalId update .none (b.lag posMap rng)
      = (Blocks.bracket .none (Blocks.removeTarget (p.pathNodes (scanPosMapLookup posMap logicalId)) logicalId) >>=
          fun _ => Blocks.onController (Controller.finishAccess logicalId update)) (b.lag posMap rng) := by
    simp only [Blocks.access, Eff.get_bind]
    rw [if_neg (by rw [h.controller.params]; omega), h.controller.params]
    rfl
  have hlag := removeTarget_lag (p.pathNodes (scanPosMapLookup posMap logicalId)) logicalId b posMap rng
  have hshape := removeTarget_keeps (ρ := ρ) hlt logicalId _ h
  rw [hacc]
  rcases hrem : Blocks.removeTarget (p.pathNodes (scanPosMapLookup posMap logicalId)) logicalId b with ⟨e | ⟨⟩, b₁⟩
  · right
    rw [hrem] at hlag
    have hbr : Blocks.bracket .none (Blocks.removeTarget (p.pathNodes (scanPosMapLookup posMap logicalId)) logicalId)
        (b.lag posMap rng) = (.error e, { b₁.lag posMap rng with tree := (b.lag posMap rng).tree }) := by
      simp only [Blocks.bracket, hlag]
    exact ⟨e, _, _, Eff.bind_error hrem, Eff.bind_error hbr⟩
  · rw [hrem] at hlag
    rw [hlag] at hshape
    replace hshape : (b₁.lag posMap rng).Shape p := hshape
    have hbr : Blocks.bracket .none (Blocks.removeTarget (p.pathNodes (scanPosMapLookup posMap logicalId)) logicalId)
        (b.lag posMap rng) = (.ok (), b₁.lag posMap rng) := by
      simp only [Blocks.bracket, hlag]
    rw [Blocks.serveRequest, Eff.bind_ok hrem, Eff.bind_ok hbr]
    have hp₁ : b₁.params = p := hshape.controller.params
    have hreq := Controller.finishRequest_eq b₁.toController logicalId (randomLeaf p rng).1 update
    have hfin := Controller.finishAccess_eq hshape.controller logicalId update
    have hkeep := Controller.finishAccess_keeps logicalId update _ hshape.controller
    have hzoom : ∀ {α : Type} {m : Eff Error (Controller ρ) α} {s : Blocks ρ} {r c}, m s.toController = (r, c) →
        Blocks.onController m s = (r, { s with toController := c }) := by
      intro α m s r c hm
      simp only [Blocks.onController, Eff.zoom, hm]
    by_cases hfound : (!(scanStash b₁.stash logicalId p.blockSize).1) = true
    · rw [if_pos (by rw [hp₁]; exact hfound)] at hreq
      rw [if_pos (by rw [hshape.controller.params]; exact hfound)] at hfin
      exact .inr ⟨_, _, _, hzoom hreq, hzoom hfin⟩
    · rw [if_neg (by rw [hp₁]; exact hfound)] at hreq
      rw [if_neg (by rw [hshape.controller.params]; exact hfound)] at hfin
      by_cases hcount : b₁.Countable
      · rw [if_pos hcount] at hreq
        rw [if_pos (show (b₁.lag posMap rng).Countable from hcount)] at hfin
        rw [hfin] at hkeep
        have heq : { b₁.lag posMap rng with toController := ((b₁.lag posMap rng).remapped logicalId update).counted }
            = Blocks.lag { b₁ with toController := (b₁.written logicalId update (randomLeaf p rng).1).counted }
              (scanPosMapUpdate posMap logicalId (randomLeaf p rng).1) (randomLeaf p rng).2 := by
          simp only [Controller.counted, Controller.remapped, Controller.written, Controller.nextLeaf, Blocks.lag, hp₁]
        refine .inl ⟨_, _, hzoom hreq, (hzoom hfin).trans (by rw [heq]; rfl), ?_⟩
        rw [← heq]
        exact ⟨hkeep, hshape.tree⟩
      · rw [if_neg hcount] at hreq
        rw [if_neg (show ¬ (b₁.lag posMap rng).Countable from hcount)] at hfin
        exact .inr ⟨_, _, _, hzoom hreq, hzoom hfin⟩

/-- The batch loop and the sequence, in step. By induction on the ids: the position map the
    sequence has reached is what `sequentialLeaves` looks the next leaf up in. -/
theorem turns_lag (update : Nat → UInt64 → Update) {logicalIds : List UInt64}
    (hids : ∀ id ∈ logicalIds, id.toNat < p.logicalBlocks) (k : Nat) {b : Blocks ρ} {posMap : List UInt32} {rng : ρ}
    (h : (b.lag posMap rng).Shape p) :
    let draw := randomLeaves p logicalIds.length rng
    let requests := logicalIds.zip draw.1
    (∃ outs b', Eff.forEach (serveTurn update) (turnsFrom p k posMap requests) b = (.ok outs, b') ∧
        Blocks.accessAll (batchRequests update k logicalIds) (b.lag posMap rng)
          = (.ok outs, b'.lag (updateAll posMap requests) draw.2)) ∨
      ∃ e b' b'', Eff.forEach (serveTurn update) (turnsFrom p k posMap requests) b = (.error e, b') ∧
        Blocks.accessAll (batchRequests update k logicalIds) (b.lag posMap rng) = (.error e, b'') := by
  induction logicalIds generalizing k b posMap rng with
  | nil => exact .inl ⟨[], b, rfl, rfl⟩
  | cons logicalId logicalIds ih =>
    intro draw requests
    have hid := hids logicalId (by simp)
    have hturns : turnsFrom p k posMap requests
        = (((logicalId, (randomLeaf p rng).1), p.pathNodes (scanPosMapLookup posMap logicalId)), k)
          :: turnsFrom p (k + 1) (scanPosMapUpdate posMap logicalId (randomLeaf p rng).1)
              (logicalIds.zip (randomLeaves p logicalIds.length (randomLeaf p rng).2).1) := rfl
    have hreqs : batchRequests update k (logicalId :: logicalIds)
        = (logicalId, update k logicalId) :: batchRequests update (k + 1) logicalIds := rfl
    rw [hturns, hreqs]
    rcases serveRequest_lag h hid (update k logicalId) with ⟨out, b₁, hrun, hacc, hshape⟩ | ⟨e, b₁, b₂, hrun, hacc⟩
    · rcases ih (fun id hm => hids id (by simp [hm])) (k + 1) hshape with
        ⟨outs, b', h1, h2⟩ | ⟨e, b', b'', h1, h2⟩
      · exact .inl ⟨out :: outs, b', Eff.forEach_ok hrun h1, Eff.forEach_ok hacc h2⟩
      · exact .inr ⟨e, b', b'', Eff.forEach_error_tail hrun h1, Eff.forEach_error_tail hacc h2⟩
    · exact .inr ⟨e, b₁, b₂, Eff.forEach_error_head hrun, Eff.forEach_error_head hacc⟩

/-- The work of a batch is the sequence of its accesses: it fails when that does, and else
    yields the same outputs in the same state. -/
theorem batchBody_eq_accessAll {b : Blocks ρ} (h : b.Shape p) (update : Nat → UInt64 → Update) {logicalIds : List UInt64}
    (hids : ∀ id ∈ logicalIds, id.toNat < p.logicalBlocks) :
    let draw := randomLeaves p logicalIds.length b.rng
    (∃ outs b', Blocks.batchBody logicalIds update draw.1 draw.2 b = (.ok outs, b') ∧
        Blocks.accessAll (batchRequests update 0 logicalIds) b = (.ok outs, b')) ∨
      ∃ e b' b'', Blocks.batchBody logicalIds update draw.1 draw.2 b = (.error e, b') ∧
        Eff.forEach (serveTurn update) (turnsFrom p 0 b.posMap (logicalIds.zip draw.1)) b = (.error e, b') ∧
        Blocks.accessAll (batchRequests update 0 logicalIds) b = (.error e, b'') := by
  intro draw
  have hbody : Blocks.batchBody logicalIds update draw.1 draw.2 b
      = (Eff.forEach (serveTurn update) (turnsFrom p 0 b.posMap (logicalIds.zip draw.1)) >>= fun outputs =>
          Blocks.onController (Eff.modify fun c =>
            { c with posMap := scanPosMapUpdateBatch c.posMap logicalIds draw.1, rng := draw.2 }) >>= fun _ =>
          pure outputs) b := by
    simp only [Blocks.batchBody, Eff.get_bind, h.controller.params]
    rw [batchTurns_eq h.controller (by simp [draw]) hids]
    rfl
  rw [hbody]
  -- the posMap is the one of the start throughout, so the batched update finds it
  have hframe : ∀ b', (Eff.forEach (serveTurn update) (turnsFrom p 0 b.posMap (logicalIds.zip draw.1)) b).2 = b' →
      b'.posMap = b.posMap := by
    rintro b' rfl
    exact (Eff.Keeps.forEach (fun turn _ => serveTurn_frozen b update turn) b ⟨rfl, rfl, Nat.le_refl _⟩).posMap
  rcases turns_lag update hids 0 (show (b.lag b.posMap b.rng).Shape p from h) with
    ⟨outs, b', hrun, hacc⟩ | ⟨e, b', b'', hrun, hacc⟩
  · have hpos := hframe b' (by rw [hrun])
    refine .inl ⟨outs, _, ?_, hacc⟩
    rw [Eff.bind_ok hrun]
    change (Except.ok outs, { b' with posMap := scanPosMapUpdateBatch b'.posMap logicalIds draw.1, rng := draw.2 }) = _
    rw [scanPosMapUpdateBatch_eq, hpos]
    rfl
  · exact .inr ⟨e, b', b'', Eff.bind_error hrun, hrun, hacc⟩

end

/-! ## When a sequence of accesses succeeds -/

/-- How many of the ids are not in the stash yet. -/
def Controller.missing (c : Controller ρ) (logicalIds : List UInt64) : Nat :=
  (logicalIds.toFinset.filter fun id => c.inStash id = false).card

/-- There is room in the stash for what the requests move there, and in the access counter. -/
def Controller.HasRoom (c : Controller ρ) (logicalIds : List UInt64) : Prop :=
  c.missing logicalIds ≤ freeSlots c.stash ∧ c.schedule.issuedAccesses.toNat + logicalIds.length < 2 ^ 64

instance (c : Controller ρ) (logicalIds : List UInt64) : Decidable (c.HasRoom logicalIds) :=
  inferInstanceAs (Decidable (_ ∧ _))

/-- After the first id was served, it is missing no more. -/
theorem Controller.missing_cons {c c' : Controller ρ} {logicalId : UInt64}
    (h : ∀ other, c'.inStash other = (c.inStash other || other == logicalId)) (logicalIds : List UInt64) :
    c.missing (logicalId :: logicalIds) = (if c.inStash logicalId then 0 else 1) + c'.missing logicalIds := by
  have hrest : (logicalIds.toFinset.filter fun id => c'.inStash id = false)
      = (logicalIds.toFinset.filter fun id => c.inStash id = false).erase logicalId := by
    ext id
    simp only [Finset.mem_filter, Finset.mem_erase, h, Bool.or_eq_false_iff, beq_eq_false_iff_ne]
    tauto
  rw [missing, missing, hrest, List.toFinset_cons, Finset.filter_insert]
  cases hin : c.inStash logicalId
  · have hins : ∀ F : Finset UInt64, insert logicalId F = insert logicalId (F.erase logicalId) := by
      intro F
      ext id
      simp only [Finset.mem_insert, Finset.mem_erase]
      tauto
    rw [if_pos rfl, if_neg (by simp), hins, Finset.card_insert_of_notMem (Finset.notMem_erase _ _), Nat.add_comm]
  · rw [if_neg (by simp), if_pos rfl, Finset.erase_eq_of_notMem (by simp [hin]), Nat.zero_add]

structure ServedAll (p : OramParams) (b : Blocks ρ) (v : Memory) (requests : List (UInt64 × Update)) (b' : Blocks ρ) :
    Prop where
  inv : Inv p b' (v.serveAll requests).2
  cleared : ∀ i, Cleared (b'.tree i) (b.tree i)
  tree : (∀ r ∈ requests, b.inStash r.1 = true) → b'.tree = b.tree

/-- What ends a request that no store call failed. -/
inductive ServeError (p : OramParams) : Error → Prop
  | full : ServeError p (.stashOverflow (p.stashCapacity + 1) p.stashCapacity)
  | uncounted : ServeError p (.invalidInput "access counter overflow")

/-- By induction on the requests: each that is served leaves an array to serve the next. -/
theorem Inv.accessAll [Rng ρ] {b : Blocks ρ} {v : Memory} (h : Inv p b v) {l : List (UInt64 × Update)}
    (hids : ∀ r ∈ l, r.1.toNat < p.logicalBlocks) :
    if b.HasRoom (l.map (·.1)) then
      ∃ b', Blocks.accessAll l b = (.ok (v.serveAll l).1, b') ∧ ServedAll p b v l b'
    else ∃ e b', Blocks.accessAll l b = (.error e, b') ∧ ServeError p e := by
  induction l generalizing b v with
  | nil =>
    have hlt : b.schedule.issuedAccesses.toNat < 2 ^ 64 := UInt64.toNat_lt _
    rw [if_pos ⟨by simp [Controller.missing], by simpa using hlt⟩]
    exact ⟨b, rfl, h, fun i => Cleared.refl _, fun _ => rfl⟩
  | cons r l ih =>
    have hacc := h.access (hids r (by simp)) r.2
    generalize hrun : Blocks.access r.1 r.2 .none b = res at hacc
    cases hacc with
    | @ok b₁ hroom hcount hs =>
      have hmiss := Controller.missing_cons hs.inStash (l.map (·.1))
      have hrest := ih hs.inv fun x hx => hids x (by simp [hx])
      have hiff : b.HasRoom ((r :: l).map (·.1)) ↔ b₁.HasRoom (l.map (·.1)) := by
        have hf := hs.free
        have hi := hs.issued
        simp only [Controller.HasRoom, List.map_cons, List.length_cons, hmiss, hi]
        split at hf <;> rename_i hin
        · rw [if_pos hin]; omega
        · rw [if_neg hin]; omega
      by_cases hok : b₁.HasRoom (l.map (·.1))
      · rw [if_pos hok] at hrest
        obtain ⟨b', h1, h2⟩ := hrest
        rw [if_pos (hiff.mpr hok)]
        refine ⟨b', Eff.forEach_ok hrun h1, h2.inv, fun i => (h2.cleared i).trans (hs.cleared i), fun hall => ?_⟩
        rw [h2.tree fun x hx => by rw [hs.inStash, hall x (by simp [hx])]; rfl, hs.tree (hall r (by simp))]
      · rw [if_neg hok] at hrest
        obtain ⟨e, b', h1, he⟩ := hrest
        rw [if_neg (mt hiff.mp hok)]
        exact ⟨e, b', Eff.forEach_error_tail hrun h1, he⟩
    | full hin hfull =>
      have hmiss : ¬ b.HasRoom ((r :: l).map (·.1)) := by
        rintro ⟨hle, -⟩
        rw [hfull, Nat.le_zero, Controller.missing, Finset.card_eq_zero] at hle
        have : r.1 ∈ (((r :: l).map (·.1)).toFinset.filter fun id => b.inStash id = false) := by simp [hin]
        rw [hle] at this
        simp at this
      rw [if_neg hmiss]
      exact ⟨_, _, Eff.forEach_error_head hrun, .full⟩
    | @uncounted b₁ hroom hcount _ _ =>
      rw [if_neg (by
        rintro ⟨-, hlt⟩
        rw [List.map_cons, List.length_cons] at hlt
        exact hcount (by unfold Controller.Countable; omega))]
      exact ⟨_, _, Eff.forEach_error_head hrun, .uncounted⟩

/-! ## A whole batch -/

theorem batchRequests_map_fst (update : Nat → UInt64 → Update) (k : Nat) (logicalIds : List UInt64) :
    (batchRequests update k logicalIds).map (·.1) = logicalIds := by
  rw [batchRequests, List.map_map]
  exact List.zipIdx_map_fst k logicalIds

/-- The work of a batch over an array. -/
theorem Inv.batchBody [Rng ρ] {b : Blocks ρ} {v : Memory} (h : Inv p b v) (update : Nat → UInt64 → Update)
    {logicalIds : List UInt64} (hids : ∀ id ∈ logicalIds, id.toNat < p.logicalBlocks) :
    let run := Blocks.batchBody logicalIds update (randomLeaves p logicalIds.length b.rng).1
      (randomLeaves p logicalIds.length b.rng).2 b
    if b.HasRoom logicalIds then
      run.1 = .ok (v.serveAll (batchRequests update 0 logicalIds)).1 ∧
        ServedAll p b v (batchRequests update 0 logicalIds) run.2
    else ∃ e, run.1 = .error e ∧ ServeError p e ∧ Frozen b run.2 := by
  intro run
  have hall := h.accessAll (l := batchRequests update 0 logicalIds) fun r hr =>
    hids r.1 (by rw [← batchRequests_map_fst update 0 logicalIds]; exact List.mem_map_of_mem hr)
  rw [batchRequests_map_fst] at hall
  rcases batchBody_eq_accessAll h.shape update hids with ⟨outs, b', hrun, hacc⟩ | ⟨e, b', b'', hrun, hloop, hacc⟩
  · rw [hacc] at hall
    split at hall
    · rename_i hroom
      obtain ⟨b₁, he, hs⟩ := hall
      cases he
      rw [if_pos hroom]
      exact ⟨congrArg Prod.fst hrun, by rw [show run = _ from hrun]; exact hs⟩
    · obtain ⟨e, b₁, he, -⟩ := hall
      cases he
  · have hfrozen := Eff.Keeps.forEach (fun turn _ => serveTurn_frozen b update turn) b ⟨rfl, rfl, Nat.le_refl _⟩
      (l := turnsFrom p 0 b.posMap (logicalIds.zip (randomLeaves p logicalIds.length b.rng).1))
    rw [hloop] at hfrozen
    rw [hacc] at hall
    split at hall
    · obtain ⟨b₁, he, -⟩ := hall
      cases he
    · rename_i hroom
      obtain ⟨e', b₁, he, hs⟩ := hall
      cases he
      rw [if_neg hroom]
      exact ⟨e, congrArg Prod.fst hrun, hs, by rw [show run = _ from hrun]; exact hfrozen⟩

end BpirOram
