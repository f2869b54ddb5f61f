/-
  BpirOram.Circuit.Trace — the page requests of a call.

  A `TracingStore` (`store.rs`) notes each page request before it passes it on, whatever the
  store behind it does. A call exchanges the nodes of its paths with both stores: it reads
  them all, metadata first, and then writes them all (`exchange`).
  - `Op.run_issues`: which nodes these are, by the leaves of the call's online paths and,
    for a drain, by the schedule.
-/

import BpirOram.Circuit.Effects
import BpirOram.Circuit.Op
import BpirOram.Lib.Issue

namespace BpirOram

open Lib

/-! ## Tracing stores -/

inductive TraceEvent where
  | read (pageIdx : Nat)
  | write (pageIdx : Nat)
  deriving DecidableEq, Repr

structure TracingStore (S : Type) where
  inner : S
  trace : List TraceEvent

inductive StoreId where
  | metadata
  | payload
  deriving DecidableEq, Repr

abbrev PageRequest := StoreId × TraceEvent

def readsOf (k : StoreId) (nodes : List Nat) : List PageRequest := nodes.map fun i => (k, .read i)

def writesOf (k : StoreId) (nodes : List Nat) : List PageRequest := nodes.map fun i => (k, .write i)

/-- The nodes of some paths, read from both stores and then written back. -/
def exchange (nodes : List Nat) : List PageRequest :=
  readsOf .metadata nodes ++ readsOf .payload nodes ++ (writesOf .metadata nodes ++ writesOf .payload nodes)

namespace TracingStore

variable {S α : Type}

def record (e : TraceEvent) : Eff Error (TracingStore S) Unit :=
  Eff.modify fun s => { s with trace := s.trace ++ [e] }

def onInner (m : Eff Error S α) : Eff Error (TracingStore S) α := Eff.zoom (·.inner) (fun inner s => { s with inner }) m

instance [PageStore S] : PageStore (TracingStore S) where
  pageSize s := PageStore.pageSize s.inner
  pageCount s := PageStore.pageCount s.inner
  readPage pageIdx len := do
    record (.read pageIdx)
    onInner (PageStore.readPage pageIdx len)
  writePage pageIdx input := do
    record (.write pageIdx)
    onInner (PageStore.writePage pageIdx input)
  flush := onInner PageStore.flush

/-- What the store has seen, as the one that `k` names. -/
def seenBy (k : StoreId) (s : TracingStore S) (j : StoreId) : List TraceEvent := if j = k then s.trace else []

variable {k : StoreId} {s : TracingStore S}

theorem received_one (e : TraceEvent) (inner : S) :
    Received (seenBy k) s [(k, e)] { inner, trace := s.trace ++ [e] } := by
  intro j
  unfold seenBy sentTo
  by_cases hj : j = k
  · subst hj
    simp
  · simp [hj, Ne.symm hj]

variable [PageStore S]

theorem readPages_issues (k : StoreId) (nodes : List Nat) (s : TracingStore S) :
    Eff.Issues (seenBy k) (readsOf k nodes) (PageStore.readPages nodes) s := by
  rw [readsOf, List.map_eq_flatMap]
  exact .get_bind (.forEach (fun i _ t => .one (received_one (.read i) _)) s)

theorem writePages_issues (k : StoreId) (nodes : List Nat) (pages : List Bytes) (s : TracingStore S) :
    Eff.Issues (seenBy k) (writesOf k nodes) (PageStore.writePages nodes pages) s := by
  by_cases hlen : nodes.length = pages.length
  · have hnodes : writesOf k nodes = (nodes.zip pages).flatMap fun x => [(k, .write x.1)] := by
      conv => lhs; rw [← List.map_fst_zip (Nat.le_of_eq hlen)]
      rw [writesOf, List.map_map, List.map_eq_flatMap]
      rfl
    rw [hnodes]
    have hrun : (PageStore.writePages nodes pages : Eff Error (TracingStore S) Unit) = (do
        let s ← Eff.get
        let _ ← Eff.forEach (fun x => if x.2.length ≠ PageStore.pageSize s then
            Eff.fail (.invalidInput s!"page len {x.2.length} != page_size {PageStore.pageSize s}")
          else PageStore.writePage x.1 x.2) (nodes.zip pages)) := if_neg (fun h => h hlen)
    rw [hrun]
    refine .get_bind (.before (.forEach (fun x _ t => ?_) s) fun _ _ _ => .silent rfl)
    split
    · exact .failed rfl rfl
    · exact .one (received_one (.write x.1) _)
  · have hrun : PageStore.writePages nodes pages s = (.error (.invalidInput
        s!"page index count {nodes.length} != page count {pages.length}"), s) := congrFun (if_pos hlen) s
    exact .failed hrun rfl

theorem readPathsPages_issues (k : StoreId) (paths : List (List Nat)) (s : TracingStore S) :
    Eff.Issues (seenBy k) (readsOf k paths.flatten) (PathPageStore.readPathsPages paths) s :=
  (readPages_issues k paths.flatten s).before fun _ _ _ => .silent rfl

theorem writePathsPages_issues (k : StoreId) (paths : List (List Nat)) (pages : List (List Bytes)) (s : TracingStore S) :
    Eff.Issues (seenBy k) (writesOf k paths.flatten) (PathPageStore.writePathsPages paths pages) s := by
  by_cases hlen : paths.length = pages.length
  · have hrun : (PathPageStore.writePathsPages paths pages : Eff Error (TracingStore S) Unit) = (do
        Eff.lift (checkPathLengths (paths.zip pages))
        PageStore.writePages paths.flatten pages.flatten) := if_neg (fun h => h hlen)
    rw [hrun]
    refine Eff.Issues.after (.silent rfl) fun _ t ht => ?_
    exact writePages_issues k _ _ t
  · have hrun : PathPageStore.writePathsPages paths pages s = (.error (.invalidInput
        s!"path count {paths.length} != page-path count {pages.length}"), s) := congrFun (if_pos hlen) s
    exact .failed hrun rfl

end TracingStore

/-! ## The controller over two tracing stores -/

variable {M P ρ α β : Type}

namespace CircuitOram

/-- What each store of a controller has seen. -/
def seen (s : CircuitOram (TracingStore M) (TracingStore P) ρ) : StoreId → List TraceEvent
  | .metadata => s.metaStore.trace
  | .payload => s.payloadStore.trace

variable {s : CircuitOram (TracingStore M) (TracingStore P) ρ} {l : List PageRequest}

theorem onMeta_issues {m : Eff Error (TracingStore M) α} (h : Eff.Issues (TracingStore.seenBy .metadata) l m s.metaStore) :
    Eff.Issues seen l (onMeta m) s := by
  refine h.zoom fun l t hrec k => ?_
  cases k with
  | metadata => exact hrec .metadata
  | payload =>
    have hnone : [] = [] ++ sentTo .payload l := hrec .payload
    change s.payloadStore.trace = s.payloadStore.trace ++ _
    rw [← List.nil_append (sentTo _ l), ← hnone, List.append_nil]

theorem onPayload_issues {m : Eff Error (TracingStore P) α}
    (h : Eff.Issues (TracingStore.seenBy .payload) l m s.payloadStore) : Eff.Issues seen l (onPayload m) s := by
  refine h.zoom fun l t hrec k => ?_
  cases k with
  | payload => exact hrec .payload
  | metadata =>
    have hnone : [] = [] ++ sentTo .metadata l := hrec .metadata
    change s.metaStore.trace = s.metaStore.trace ++ _
    rw [← List.nil_append (sentTo _ l), ← hnone, List.append_nil]

/-- The controller's own work is not seen. -/
theorem onController_silent (m : Eff Error (Controller ρ) α) : Eff.Issues seen [] (onController m) s := .silent rfl

theorem withOverlays_silent (overlays : Overlays) (body : Eff Error (Overlaid ρ) α) :
    Eff.Issues seen [] (withOverlays overlays body) s := .silent rfl

variable [PageStore M] [PageStore P]

theorem readOverlays_issues (paths : List (List Nat)) (s : CircuitOram (TracingStore M) (TracingStore P) ρ) :
    Eff.Issues seen (readsOf .metadata paths.flatten ++ readsOf .payload paths.flatten) (readOverlays paths) s := by
  refine (onMeta_issues (TracingStore.readPathsPages_issues _ _ _)).bind fun metaPages t _ => ?_
  refine (onPayload_issues (TracingStore.readPathsPages_issues _ _ _)).before fun payloadPages u _ => ?_
  exact .get_bind (Eff.Issues.after (.silent rfl) fun _ _ _ => Eff.Issues.after (.silent rfl) fun _ _ _ => .silent rfl)

theorem writeOverlays_issues (paths : List (List Nat)) (overlays : Overlays)
    (s : CircuitOram (TracingStore M) (TracingStore P) ρ) :
    Eff.Issues seen (writesOf .metadata paths.flatten ++ writesOf .payload paths.flatten) (writeOverlays paths overlays) s := by
  refine Eff.Issues.after (.silent rfl) fun metaPages t _ => Eff.Issues.after (.silent rfl) fun payloadPages u _ => ?_
  exact (onMeta_issues (TracingStore.writePathsPages_issues _ _ _ _)).bind fun _ _ _ =>
    onPayload_issues (TracingStore.writePathsPages_issues _ _ _ _)

theorem readAndRemoveTargetPath_issues (leaf : UInt32) (logicalId : UInt64)
    (s : CircuitOram (TracingStore M) (TracingStore P) ρ) :
    Eff.Issues seen (exchange (s.params.pathNodes leaf)) (readAndRemoveTargetPath leaf logicalId) s := by
  refine .get_bind ?_
  rw [exchange, List.append_assoc]
  refine (onMeta_issues (TracingStore.readPages_issues _ _ _)).bind fun metaPages _ _ => ?_
  refine (onPayload_issues (TracingStore.readPages_issues _ _ _)).bind fun payloadPages _ _ => ?_
  refine Eff.Issues.after (.silent rfl) fun removed _ _ => (onController_silent _).after fun _ _ _ => ?_
  exact (onMeta_issues (TracingStore.writePages_issues _ _ _ _)).bind fun _ _ _ =>
    onPayload_issues (TracingStore.writePages_issues _ _ _ _)

theorem readAndRewritePath_issues (leaf : UInt32) {p : OramParams} (hp : s.params = p) :
    Eff.Issues seen (exchange (p.pathNodes leaf)) (readAndRewritePath leaf) s := by
  subst hp
  refine .get_bind ?_
  rw [exchange, List.append_assoc]
  refine (onMeta_issues (TracingStore.readPages_issues _ _ _)).bind fun metaPages _ _ => ?_
  refine (onPayload_issues (TracingStore.readPages_issues _ _ _)).bind fun payloadPages _ _ => ?_
  exact (onMeta_issues (TracingStore.writePages_issues _ _ _ _)).bind fun _ _ _ =>
    onPayload_issues (TracingStore.writePages_issues _ _ _ _)

/-- The nodes of the paths that a drain evicts. -/
def drainNodes (p : OramParams) (schedule : CircuitEvictionSchedule) (budget : UInt64) : List Nat :=
  match schedule.pendingEvictions with
  | .ok pending => (List.range (min budget pending).toNat).flatMap fun offset => p.pathNodes
      (CircuitEvictionSchedule.evictionLeafAt p (schedule.completedEvictions + UInt64.ofNat offset))
  | .error _ => []

theorem drainEvictions_issues (budget : UInt64) (s : CircuitOram (TracingStore M) (TracingStore P) ρ) :
    Eff.Issues seen (exchange (drainNodes s.params s.schedule budget)) (drainEvictions budget) s := by
  unfold drainEvictions drainNodes
  refine .get_bind ?_
  cases hpending : s.schedule.pendingEvictions with
  | error e => exact .failed rfl rfl
  | ok pending =>
    rw [Eff.lift_ok_bind]
    simp only
    split
    · rename_i hzero
      rw [hzero]
      exact .silent rfl
    · rw [List.flatMap_def]
      refine (readOverlays_issues _ _).bind fun overlays _ _ => ?_
      refine (withOverlays_silent _ _).after fun evicted _ _ => ?_
      refine (writeOverlays_issues _ _ _).before fun _ _ _ => ?_
      rw [forEach_onController]
      exact (onController_silent _).before fun _ _ _ => (onController_silent _).before fun _ _ _ => .silent rfl

variable [Rng ρ]

theorem access_issues (logicalId : UInt64) (update : Update) (s : CircuitOram (TracingStore M) (TracingStore P) ρ) :
    Eff.Issues seen (exchange (s.params.pathNodes (scanPosMapLookup s.posMap logicalId))) (access logicalId update) s := by
  refine .get_bind ?_
  split
  · exact .failed rfl rfl
  · exact (readAndRemoveTargetPath_issues _ _ _).before fun _ _ _ => onController_silent _

theorem accessBatch_issues (logicalIds : List UInt64) (update : Nat → UInt64 → Update)
    (s : CircuitOram (TracingStore M) (TracingStore P) ρ) : Eff.Issues seen
      (exchange ((batchAccessLeaves logicalIds (scanPosMapLookupBatch s.posMap logicalIds)
        (randomLeaves s.params logicalIds.length s.rng).1).map s.params.pathNodes).flatten)
      (accessBatch logicalIds update) s := by
  unfold accessBatch
  split
  · rename_i hnil
    obtain rfl := List.isEmpty_iff.mp hnil
    exact .silent rfl
  · refine .get_bind (Eff.Issues.after (.silent rfl) fun _ t ht => ?_)
    obtain ⟨-, rfl⟩ := Prod.mk.inj ht
    refine (readOverlays_issues _ _).bind fun overlays _ _ => ?_
    refine (withOverlays_silent _ _).after fun served _ _ => (onController_silent _).after fun _ _ _ => ?_
    exact (writeOverlays_issues _ _ _).before fun _ _ _ => (onController_silent _).before fun _ _ _ => .silent rfl

theorem dummyAccess_issues (s : CircuitOram (TracingStore M) (TracingStore P) ρ) :
    Eff.Issues seen (exchange (s.params.pathNodes (randomLeaf s.params s.rng).1)) dummyAccess s := by
  refine .get_bind ((onController_silent _).after fun _ t ht => ?_)
  have hparams : t.params = s.params := by
    obtain ⟨-, rfl⟩ := Prod.mk.inj ht
    rfl
  refine (readAndRewritePath_issues _ hparams).before fun _ _ _ => ?_
  exact (onController_silent _).before fun _ _ _ => onController_silent _

theorem dummyAccessBatch_issues (count : Nat) (s : CircuitOram (TracingStore M) (TracingStore P) ρ) : Eff.Issues seen
    (exchange ((randomLeaves s.params count s.rng).1.map s.params.pathNodes).flatten) (dummyAccessBatch count) s := by
  unfold dummyAccessBatch
  split
  · rename_i hzero
    subst hzero
    exact .silent rfl
  · refine .get_bind ((onController_silent _).after fun _ t _ => ?_)
    refine (readOverlays_issues _ _).bind fun overlays _ _ => (writeOverlays_issues _ _ _).before fun _ _ _ => ?_
    rw [forEach_onController]
    exact (onController_silent _).before fun _ _ _ => onController_silent _

end CircuitOram

/-! ## Calls -/

theorem sentTo_exchange (k : StoreId) (nodes : List Nat) :
    sentTo k (exchange nodes) = nodes.map .read ++ nodes.map .write := by
  have hsame : ∀ (e : Nat → TraceEvent), sentTo k (nodes.map fun i => (k, e i)) = nodes.map e := by
    intro e
    simp [sentTo, List.filter_map, Function.comp_def]
  have hother : ∀ (j : StoreId) (e : Nat → TraceEvent), j ≠ k → sentTo k (nodes.map fun i => (j, e i)) = [] := by
    intro j e hj
    simp [sentTo, List.filter_map, Function.comp_def, hj]
  unfold exchange readsOf writesOf
  simp only [sentTo_append]
  cases k with
  | metadata => rw [hsame, hsame, hother .payload _ (by decide), hother .payload _ (by decide), List.append_nil, List.append_nil]
  | payload => rw [hsame, hsame, hother .metadata _ (by decide), hother .metadata _ (by decide), List.nil_append, List.nil_append]

/-- What follows a call to return its outputs is not seen. -/
theorem issues_return {l : List PageRequest} {m : Eff Error (CircuitOram (TracingStore M) (TracingStore P) ρ) α}
    {s : CircuitOram (TracingStore M) (TracingStore P) ρ} {f : α → List Bytes} (h : Eff.Issues CircuitOram.seen l m s) :
    Eff.Issues CircuitOram.seen l (m >>= fun a => pure (f a)) s := h.before fun _ _ _ => .silent rfl

namespace Op

/-- Every call but a drain. -/
def Online : Op → Prop
  | drainEvictions _ => False
  | _ => True

variable [Rng ρ]

/-- The leaves of the paths that a call goes through online. -/
def onlineLeaves (c : Controller ρ) : Op → List UInt32
  | access logicalId _ => [scanPosMapLookup c.posMap logicalId]
  | accessBatch logicalIds _ => batchAccessLeaves logicalIds (scanPosMapLookupBatch c.posMap logicalIds)
      (randomLeaves c.params logicalIds.length c.rng).1
  | dummyAccess => [(randomLeaf c.params c.rng).1]
  | dummyAccessBatch count => (randomLeaves c.params count c.rng).1
  | drainEvictions _ => []

variable [PageStore M] [PageStore P]

/-- An online call exchanges the paths of its leaves, whatever it serves. -/
theorem run_issues {op : Op} (hop : op.Online) (s : CircuitOram (TracingStore M) (TracingStore P) ρ) :
    Eff.Issues CircuitOram.seen (exchange ((op.onlineLeaves s.toController).flatMap s.params.pathNodes)) op.run s := by
  cases op with
  | access logicalId update =>
    rw [onlineLeaves, List.flatMap_singleton]
    exact issues_return (CircuitOram.access_issues logicalId update s)
  | accessBatch logicalIds update => exact CircuitOram.accessBatch_issues logicalIds update s
  | dummyAccess =>
    rw [onlineLeaves, List.flatMap_singleton]
    exact issues_return (CircuitOram.dummyAccess_issues s)
  | dummyAccessBatch count => exact issues_return (CircuitOram.dummyAccessBatch_issues count s)
  | drainEvictions budget => exact hop.elim

end Op

end BpirOram
