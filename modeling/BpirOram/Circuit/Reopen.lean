/-
  BpirOram.Circuit.Reopen — which states reopen.

  `from_state` checks the stores against the parameters, the position map, the stash and the
  schedule against them too, and the roots the stores expose against those the state is bound
  to.
  - `fromState_iff`: it accepts exactly the states that are in order (`Reopens`), and puts the
    controller together again as it was.
  - `Reached.reopens_iff`: the snapshot of a controller reached by any run, whatever calls
    failed, reopens on stores with its pages and roots exactly when what its accesses owe
    still fits the counter.
-/

import BpirOram.Circuit.Debt

namespace BpirOram

open Lib

/-- A state and the stores it is opened on are in order. -/
structure Reopens {M P ρ : Type} [PathPageStore M] [PathPageStore P] (m : M) (q : P) (state : CircuitOramState ρ) : Prop where
  metaStore : PathPageStore.pageCount m = state.params.bucketCount ∧
    PathPageStore.pageSize m = circuitMetaPageBytes state.params.bucketSize
  payloadStore : PathPageStore.pageCount q = state.params.bucketCount ∧
    PathPageStore.pageSize q = circuitPayloadPageBytes state.params.bucketSize state.params.blockSize
  posMap : state.posMap.length = state.params.logicalBlocks ∧ ∀ leaf ∈ state.posMap, leaf.toNat < state.params.leaves
  stash : ∀ x ∈ state.stash, x.payload.length = state.params.blockSize ∧
    (x.occupied = true → x.leaf.toNat < state.params.leaves)
  room : state.stash.length ≤ state.params.stashCapacity
  leafBits : state.schedule.leafBits = state.params.leafBits
  pending : ∃ n, state.schedule.pendingEvictions = .ok n
  bound : ∀ auth ∈ state.auth, storeAuthStateFromStores m q = some auth

theorem validateLeaves_iff {p : OramParams} {posMap : List UInt32} :
    validateLeaves p posMap = .ok () ↔ ∀ leaf ∈ posMap, leaf.toNat < p.leaves := by
  refine ⟨validateLeaves_ok, fun h => ?_⟩
  induction posMap with
  | nil => rfl
  | cons leaf posMap ih =>
    have hleaf := h leaf List.mem_cons_self
    rw [validateLeaves, if_neg (by omega)]
    exact ih fun x hx => h x (List.mem_cons_of_mem _ hx)

theorem validateStash_iff {p : OramParams} {stash : List OramBlock} : validateStash p stash = .ok () ↔
    ∀ x ∈ stash, x.payload.length = p.blockSize ∧ (x.occupied = true → x.leaf.toNat < p.leaves) := by
  induction stash with
  | nil => simp [validateStash]
  | cons x stash ih =>
    rw [validateStash, List.forall_mem_cons, ← ih]
    by_cases hlen : x.payload.length = p.blockSize
    · rw [if_neg (not_not_intro hlen)]
      cases ho : x.occupied with
      | false => simp [hlen]
      | true =>
        by_cases hleaf : x.leaf.toNat < p.leaves
        · rw [if_neg (by simpa using hleaf)]
          exact (and_iff_right ⟨hlen, fun _ => hleaf⟩).symm
        · rw [if_pos (by simpa using hleaf)]
          exact iff_of_false (fun h => by cases h) fun h => hleaf (h.1.2 rfl)
    · rw [if_pos hlen]
      exact iff_of_false (fun h => by cases h) fun h => hlen h.1.1

section
variable {M P ρ : Type} [PathPageStore M] [PathPageStore P] {m : M} {q : P}

theorem validateCircuitStores_iff {p : OramParams} : validateCircuitStores p m q = .ok () ↔
    (PathPageStore.pageCount m = p.bucketCount ∧ PathPageStore.pageSize m = circuitMetaPageBytes p.bucketSize) ∧
      PathPageStore.pageCount q = p.bucketCount ∧
        PathPageStore.pageSize q = circuitPayloadPageBytes p.bucketSize p.blockSize := by
  constructor
  · intro h
    obtain ⟨h1, h2, h3, h4⟩ := validateCircuitStores_ok h
    exact ⟨⟨h1, h2⟩, h3, h4⟩
  · rintro ⟨⟨h1, h2⟩, h3, h4⟩
    unfold validateCircuitStores
    rw [if_neg (not_not_intro h1), if_neg (not_not_intro h2), if_neg (not_not_intro h3), if_neg (not_not_intro h4)]

theorem validateCircuitState_iff {p : OramParams} {posMap : List UInt32} {stash : List OramBlock}
    {schedule : CircuitEvictionSchedule} : validateCircuitState p posMap stash schedule = .ok () ↔
      (posMap.length = p.logicalBlocks ∧ ∀ leaf ∈ posMap, leaf.toNat < p.leaves) ∧
        (∀ x ∈ stash, x.payload.length = p.blockSize ∧ (x.occupied = true → x.leaf.toNat < p.leaves)) ∧
          schedule.leafBits = p.leafBits ∧ ∃ n, schedule.pendingEvictions = .ok n := by
  rw [← validateLeaves_iff, ← validateStash_iff, ← CircuitEvictionSchedule.validateForParams_iff]
  unfold validateCircuitState
  by_cases hlen : posMap.length = p.logicalBlocks
  · rw [if_neg (not_not_intro hlen)]
    constructor
    · intro h
      obtain ⟨⟨⟩, hleaves, h⟩ := bind_result_ok h
      obtain ⟨⟨⟩, hstash, h⟩ := bind_result_ok h
      exact ⟨⟨hlen, hleaves⟩, hstash, h⟩
    · rintro ⟨⟨-, hleaves⟩, hstash, hschedule⟩
      rw [hleaves]
      show (validateStash p stash >>= fun _ => schedule.validateForParams p) = _
      rw [hstash]
      exact hschedule
  · rw [if_pos hlen]
    exact iff_of_false (fun h => by cases h) fun h => hlen h.1.1

theorem validateBoundAuthState_iff {expected : Option CircuitStoreAuthState} :
    validateBoundAuthState expected m q = .ok () ↔ ∀ auth ∈ expected, storeAuthStateFromStores m q = some auth := by
  cases expected with
  | none => exact iff_of_true rfl fun auth h => by cases h
  | some expected =>
    simp only [validateBoundAuthState, Option.mem_def, Option.some.injEq, forall_eq']
    cases storeAuthStateFromStores m q with
    | none => exact iff_of_false (fun h => by cases h) fun h => by cases h
    | some actual =>
      by_cases heq : actual = expected
      · subst heq
        simp [okOr, bind, Except.bind]
      · simp [okOr, bind, Except.bind, heq]

omit [PathPageStore M] [PathPageStore P] in
theorem padAndCheck_iff {oram : CircuitOram M P ρ} :
    (∃ t, oram.padAndCheck = .ok t) ↔ oram.stash.length ≤ oram.params.stashCapacity := by
  refine ⟨fun ⟨t, h⟩ => (padAndCheck_ok h).1, fun hlen => ?_⟩
  obtain ⟨stash, hstash⟩ : ∃ stash, stash = oram.stash ++ List.replicate (oram.params.stashCapacity - oram.stash.length)
      (OramBlock.dummy oram.params.blockSize) := ⟨_, rfl⟩
  have hpad : CircuitOram.onController Controller.padStash oram = (.ok (), { oram with stash }) := by
    simp only [CircuitOram.onController, Eff.zoom, Controller.padStash, Eff.modify_apply]
    rw [if_neg (by omega), hstash]
  have hfull : stash.length = oram.params.stashCapacity := by
    rw [hstash, List.length_append, List.length_replicate]
    omega
  have hcount : stash.countP (·.occupied) ≤ oram.params.stashCapacity := hfull ▸ List.countP_le_length
  have hcheck : Controller.checkStash { oram.toController with stash } = (.ok (), { oram.toController with stash }) := by
    simp only [Controller.checkStash, Eff.get_bind]
    rw [if_neg (show ¬ Controller.occupiedStashLen { oram.toController with stash } > _ from Nat.not_lt.mpr hcount),
      if_neg (not_not_intro hfull)]
    rfl
  refine ⟨{ oram with stash }, ?_⟩
  simp only [CircuitOram.padAndCheck]
  rw [Eff.bind_ok hpad]
  simp only [CircuitOram.onController, Eff.zoom, hcheck]
  rfl

/-- What `from_state` accepts, and what it makes of it. -/
theorem fromState_iff {state : CircuitOramState ρ} : (∃ t, CircuitOram.fromState m q state = .ok t) ↔ Reopens m q state := by
  unfold CircuitOram.fromState
  constructor
  · rintro ⟨t, h⟩
    obtain ⟨⟨⟩, hstores, h⟩ := bind_result_ok h
    obtain ⟨⟨⟩, hstate, h⟩ := bind_result_ok h
    obtain ⟨⟨⟩, hbound, h⟩ := bind_result_ok h
    obtain ⟨hm, hq⟩ := validateCircuitStores_iff.mp hstores
    obtain ⟨hpos, hstash, hbits, hpending⟩ := validateCircuitState_iff.mp hstate
    exact ⟨hm, hq, hpos, hstash, (padAndCheck_ok h).1, hbits, hpending, validateBoundAuthState_iff.mp hbound⟩
  · rintro ⟨hm, hq, hpos, hstash, hroom, hbits, hpending, hbound⟩
    rw [validateCircuitStores_iff.mpr ⟨hm, hq⟩, validateCircuitState_iff.mpr ⟨hpos, hstash, hbits, hpending⟩,
      validateBoundAuthState_iff.mpr hbound]
    exact padAndCheck_iff.mpr hroom

/-- A full stash is not padded. -/
theorem fromState_withAuth {M' P' : Type} [PathPageStore M'] [PathPageStore P'] {s : CircuitOram M' P' ρ}
    (hlen : s.stash.length = s.params.stashCapacity) {auth : Option CircuitStoreAuthState} {t : CircuitOram M P ρ}
    (ht : CircuitOram.fromState m q (s.snapshot.withAuth auth) = .ok t) :
    t = { toController := s.toController, metaStore := m, payloadStore := q } := by
  obtain ⟨-, -, rfl⟩ := fromState_ok ht
  simp only [CircuitOram.snapshot, CircuitOramState.withAuth, CircuitOramState.new, hlen, Nat.sub_self,
    List.replicate_zero, List.append_nil]

theorem fromState_snapshot {s t : CircuitOram M P ρ} (hlen : s.stash.length = s.params.stashCapacity)
    (ht : CircuitOram.fromState m q s.snapshot = .ok t) :
    t = { toController := s.toController, metaStore := m, payloadStore := q } :=
  fromState_withAuth hlen (show CircuitOram.fromState m q (s.snapshot.withAuth s.storeAuthState) = .ok t from ht)

end

/-! ## The snapshot of a run -/

section
variable {M P ρ : Type} [PathPageStore M] [PathPageStore P] {p : OramParams} {LM : MetaContract M p} {LP : PayloadContract P p}
  {s : CircuitOram M P ρ} {b : Blocks ρ}

theorem Rel.stash_length (h : Rel LM LP s b) : s.stash.length = s.params.stashCapacity := by
  rw [h.params, congrArg Controller.stash h.controller]
  exact h.shape.controller.stash

/-- The snapshot of a sound controller is in order, but for what it owes. -/
theorem Rel.snapshot_iff (h : Rel LM LP s b) (hs : Sound p b) {m : M} {q : P}
    (hm : PathPageStore.pageCount m = PathPageStore.pageCount s.metaStore ∧
      PathPageStore.pageSize m = PathPageStore.pageSize s.metaStore)
    (hq : PathPageStore.pageCount q = PathPageStore.pageCount s.payloadStore ∧
      PathPageStore.pageSize q = PathPageStore.pageSize s.payloadStore)
    (hauth : storeAuthStateFromStores m q = s.storeAuthState) :
    Reopens m q s.snapshot ↔ ∃ n, s.schedule.pendingEvictions = .ok n := by
  refine ⟨Reopens.pending, fun hpending => ?_⟩
  have hc := h.controller
  have hp : s.params = p := h.params
  have hshape := h.shape.controller
  obtain ⟨hmc, hms⟩ := LM.shape h.metaRep
  obtain ⟨hqc, hqs⟩ := LP.shape h.payloadRep
  exact
    { metaStore := by
        show _ = s.params.bucketCount ∧ _ = circuitMetaPageBytes s.params.bucketSize
        rw [hp, hm.1, hm.2]
        exact ⟨hmc, hms⟩
      payloadStore := by
        show _ = s.params.bucketCount ∧ _ = circuitPayloadPageBytes s.params.bucketSize s.params.blockSize
        rw [hp, hq.1, hq.2]
        exact ⟨hqc, hqs⟩
      posMap := by
        show s.posMap.length = s.params.logicalBlocks ∧ ∀ leaf ∈ s.posMap, leaf.toNat < s.params.leaves
        rw [hp, congrArg Controller.posMap hc]
        exact ⟨hshape.posMap, hshape.leaves⟩
      stash := by
        show ∀ x ∈ s.stash, x.payload.length = s.params.blockSize ∧ (x.occupied = true → x.leaf.toNat < s.params.leaves)
        rw [hp, congrArg Controller.stash hc]
        exact fun x hx => ⟨hshape.payload x hx, fun ho => hs.mem_stash (mem_occ.mpr ⟨hx, ho⟩)⟩
      room := h.stash_length.le
      leafBits := by
        show s.schedule.leafBits = s.params.leafBits
        rw [hp, congrArg Controller.schedule hc]
        exact hshape.leafBits
      pending := hpending
      bound := fun auth ha => hauth.trans ha }

end

section
variable {M P S ρ : Type} [PageStore M] [PageStore P] [TrustedBlockSource S] [Rng ρ] {p : OramParams} {HM : HonestStore M}
  {HP : HonestStore P} {HS : HonestSource S} {Fails : CircuitOram M P ρ → Op → Prop} {s : CircuitOram M P ρ} {v : Memory}

/-- Opened again on stores with its pages and its roots, a controller is accepted as long as
    the evictions of its accesses fit the counter, and is then as it was. -/
theorem Reached.reopens_iff (h : Reached p HM HP HS Fails s v) {m : M} {q : P}
    (hm : ∀ n sz c, HM.Holds n sz c s.metaStore → HM.Holds n sz c m)
    (hq : ∀ n sz c, HP.Holds n sz c s.payloadStore → HP.Holds n sz c q)
    (hauth : storeAuthStateFromStores m q = s.storeAuthState) :
    ((∃ t, CircuitOram.fromState m q s.snapshot = .ok t) ↔ s.schedule.issuedAccesses.toNat * 2 < 2 ^ 64) ∧
      ∀ t, CircuitOram.fromState m q s.snapshot = .ok t →
        t = { toController := s.toController, metaStore := m, payloadStore := q } := by
  obtain ⟨b, hr, hs⟩ := h.sound
  obtain ⟨c, hc, -⟩ := hr.metaRep
  obtain ⟨d, hd, -⟩ := hr.payloadRep
  refine ⟨?_, fun t ht => fromState_snapshot hr.stash_length ht⟩
  rw [fromState_iff, hr.snapshot_iff hs
    ⟨(HM.pageCount_eq (hm _ _ _ hc)).trans (HM.pageCount_eq hc).symm,
      (HM.pageSize_eq (hm _ _ _ hc)).trans (HM.pageSize_eq hc).symm⟩
    ⟨(HP.pageCount_eq (hq _ _ _ hd)).trans (HP.pageCount_eq hd).symm,
      (HP.pageSize_eq (hq _ _ _ hd)).trans (HP.pageSize_eq hd).symm⟩
    hauth, CircuitEvictionSchedule.pendingEvictions_iff]
  have hrate : s.schedule.evictionsPerAccess.toNat = 2 := by
    rw [h.evictionsPerAccess]
    rfl
  have howed : s.schedule.completedEvictions.toNat ≤
      s.schedule.issuedAccesses.toNat * s.schedule.evictionsPerAccess.toNat := h.owed
  rw [hrate] at howed ⊢
  exact and_iff_left howed

theorem reopens_iff_smallRead :
    ((∃ t, CircuitOram.fromState smallRead.metaStore smallRead.payloadStore smallRead.snapshot = .ok t) ↔
        smallRead.schedule.issuedAccesses.toNat * 2 < 2 ^ 64) ∧
      ∀ t, CircuitOram.fromState smallRead.metaStore smallRead.payloadStore smallRead.snapshot = .ok t →
        t = { toController := smallRead.toController, metaStore := smallRead.metaStore,
              payloadStore := smallRead.payloadStore } :=
  Reached.reopens_iff (smallRead_reached fun _ _ => True) (fun _ _ _ h => h) (fun _ _ _ h => h) rfl

end
end BpirOram
