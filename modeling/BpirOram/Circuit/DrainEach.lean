/-
  BpirOram.Circuit.DrainEach — the order in which evictions are drained.

  A drain reads all its paths at once and writes them at its end; over the blocks it is
  the evictions of these paths, one after the other, and an eviction does not look at the
  schedule. So it does not matter how a debt is cut into drains.
  - `Reached.drainEvictions_each`: a drain is as many drains of one path.
  - `eviction_order`: whenever drains happen, the leaves evicted are the sequence of bit
    reversals, each index once; any `leaves` indices in a row visit each leaf once.
-/

import BpirOram.Circuit.Run

namespace BpirOram

open Lib

variable {M P S ρ : Type} {p : OramParams}

/-! ## The next paths -/

/-- The paths of the next `k` evictions. -/
def nextPaths (p : OramParams) (schedule : CircuitEvictionSchedule) (k : Nat) : List (List Nat) :=
  (List.range k).map fun i => p.pathNodes (schedule.advance i).nextEvictionLeaf

theorem nextPaths_succ (p : OramParams) (schedule : CircuitEvictionSchedule) (k : Nat) :
    nextPaths p schedule (k + 1) = p.pathNodes schedule.nextEvictionLeaf :: nextPaths p (schedule.advance 1) k := by
  simp only [nextPaths, List.range_succ_eq_map, List.map_cons, List.map_map, CircuitEvictionSchedule.advance_zero,
    CircuitEvictionSchedule.advance_advance, Nat.add_comm 1]
  rfl

theorem evictionPaths_nextPaths {c : Controller ρ} (hc : c.Shape p) (toDrain : UInt64) :
    CircuitOram.evictionPaths c toDrain = nextPaths p c.schedule toDrain.toNat := by
  simp only [CircuitOram.evictionPaths, nextPaths, hc.params, CircuitEvictionSchedule.evictionLeafAt,
    CircuitEvictionSchedule.nextEvictionLeaf, CircuitEvictionSchedule.advance, hc.leafBits]

/-! ## One at a time -/

/-- An eviction does not look at the schedule. -/
theorem evict_schedule (path : List Nat) (b : Blocks ρ) (schedule : CircuitEvictionSchedule) :
    Blocks.evict path { b with schedule }
      = ((Blocks.evict path b).1, { (Blocks.evict path b).2 with schedule }) := by
  simp only [Blocks.evict, Eff.get_bind, Eff.ite_apply]
  split <;> rfl

theorem evictAll_schedule (paths : List (List Nat)) (b : Blocks ρ) (schedule : CircuitEvictionSchedule) :
    Eff.forEach Blocks.evict paths { b with schedule }
      = ((Eff.forEach Blocks.evict paths b).1, { (Eff.forEach Blocks.evict paths b).2 with schedule }) := by
  induction paths generalizing b with
  | nil => rfl
  | cons path paths ih =>
    have hone := evict_schedule path b schedule
    rcases hrun : Blocks.evict path b with ⟨e | u, b₁⟩ <;> rw [hrun] at hone
    · rw [Eff.forEach_error_head hone, Eff.forEach_error_head hrun]
    · have hrest := ih b₁
      rcases hrec : Eff.forEach Blocks.evict paths b₁ with ⟨e | us, b₂⟩ <;> rw [hrec] at hrest
      · rw [Eff.forEach_error_tail hone hrest, Eff.forEach_error_tail hrun hrec]
      · rw [Eff.forEach_ok hone hrest, Eff.forEach_ok hrun hrec]

/-- Draining one path at a time: by induction on how many, each drain leaving the rest of
    the debt. -/
theorem Sound.drainEach {α : Type} {b : Blocks ρ} (h : Sound p b) {n : UInt64} (hn : b.schedule.pendingEvictions = .ok n)
    {l : List α} (hl : l.length ≤ n.toNat) :
    ∃ outs b', Eff.forEach Blocks.evict (nextPaths p b.schedule l.length) b = (.ok outs, b') ∧
      Eff.forEach (fun _ : α => Blocks.drainEvictions 1 .none) l b
        = (.ok (List.replicate l.length 1), { b' with schedule := b.schedule.advance l.length }) := by
  induction l generalizing b n with
  | nil =>
    refine ⟨[], b, rfl, ?_⟩
    rw [List.length_nil, CircuitEvictionSchedule.advance_zero]
    rfl
  | cons a l ih =>
    rw [List.length_cons] at hl ⊢
    have hmin : min 1 n = 1 := by
      change (if (1 : UInt64) ≤ n then 1 else n) = 1
      rw [if_pos (UInt64.le_iff_toNat_le.mpr (by rw [UInt64.toNat_one]; omega))]
    obtain ⟨outs, b₁, hevict, he, hdrain⟩ := h.drainEvictions_eq hn 1
    rw [hmin] at hevict hdrain
    rw [evictionPaths_nextPaths h.shape.controller, UInt64.toNat_one, nextPaths_succ] at hevict
    obtain ⟨u, b₂, hone, hrest⟩ := Eff.bind_eq_ok hevict
    cases hrest
    rw [UInt64.toNat_one] at hdrain
    obtain ⟨-, m, hm, hmn⟩ := CircuitEvictionSchedule.completeOneEviction_advance hn (by omega)
    have hsound : Sound p { b₁ with schedule := b.schedule.advance 1 } :=
      he.sound.frame b₁.rng h.shape.controller.leafBits
    obtain ⟨outs', b₃, hall, heach⟩ := ih hsound hm (by omega)
    -- the rest of the paths, evicted under the old schedule
    have hframe := evictAll_schedule (nextPaths p (b.schedule.advance 1) l.length)
      { b₁ with schedule := b.schedule.advance 1 } b.schedule
    obtain ⟨stash, hctl⟩ := he.controller
    have hsame : { b₁ with schedule := b.schedule } = b₁ := by
      rw [show b.schedule = b₁.schedule by rw [hctl]]
    change Eff.forEach Blocks.evict _ { b₁ with schedule := b.schedule } = _ at hframe
    rw [hall, hsame] at hframe
    refine ⟨u :: outs', _, by rw [nextPaths_succ]; exact Eff.forEach_ok hone hframe, ?_⟩
    refine (Eff.forEach_ok (f := fun _ : α => Blocks.drainEvictions 1 .none) hdrain heach).trans ?_
    rw [CircuitEvictionSchedule.advance_advance, Nat.add_comm 1]
    rfl

section
variable [PageStore M] [PageStore P]

theorem drainEvictions_sim (HM : HonestStore M) (HP : HonestStore P) (budget : UInt64) :
    Eff.Sim (Rel (ρ := ρ) (HM.metaContract p) (HP.payloadContract p)) (CircuitOram.drainEvictions budget)
      (Blocks.drainEvictions budget .none) :=
  fun _ _ h => (drainEvictions_outcome h budget).honest

variable [TrustedBlockSource S] [Rng ρ] {HM : HonestStore M} {HP : HonestStore P} {HS : HonestSource S}
  {Fails : CircuitOram M P ρ → Op → Prop} {s : CircuitOram M P ρ} {v : Memory}

/-- A drain and as many drains of one path: the same controller and the same pages. Where
    the debt itself overflows, both are refused. -/
theorem Reached.drainEvictions_each (h : Reached p HM HP HS Fails s v) (budget : UInt64) :
    (∀ n, s.schedule.pendingEvictions = .ok n → ∃ s₁ s₂,
      CircuitOram.drainEvictions budget s = (.ok (min budget n), s₁) ∧
      Eff.forEach (fun _ => CircuitOram.drainEvictions 1) (List.range (min budget n).toNat) s
        = (.ok (List.replicate (min budget n).toNat 1), s₂) ∧
      s₁.toController = s₂.toController ∧ SamePages HM HP p s₁ s₂) ∧
    ∀ e, s.schedule.pendingEvictions = .error e →
      CircuitOram.drainEvictions budget s = (.error e, s) ∧ CircuitOram.drainEvictions 1 s = (.error e, s) := by
  refine ⟨fun n hn => ?_, fun e he => ?_⟩
  · obtain ⟨b, hr, hs⟩ := h.sound
    have hn' : b.schedule.pendingEvictions = .ok n := by rw [← hn, congrArg Controller.schedule hr.controller]
    obtain ⟨outs, b₁, hall, -, hdrain⟩ := hs.drainEvictions_eq hn' budget
    rw [evictionPaths_nextPaths hs.shape.controller] at hall
    have hlen : (List.range (min budget n).toNat).length ≤ n.toNat := by
      rw [List.length_range]
      exact UInt64.le_iff_toNat_le.mp (min_le budget n)
    obtain ⟨outs', b₂, hall', heach⟩ := hs.drainEach hn' hlen
    rw [List.length_range] at hall' heach
    rw [hall] at hall'
    cases hall'
    obtain ⟨h1, h1'⟩ := drainEvictions_sim HM HP budget s b hr
    obtain ⟨h2, h2'⟩ := Eff.Sim.forEach (l := List.range (min budget n).toNat)
      (fun _ _ => drainEvictions_sim HM HP 1) s b hr
    rw [hdrain] at h1 h1'
    rw [heach] at h2 h2'
    exact ⟨_, _, Prod.ext h1 rfl, Prod.ext h2 rfl, h1'.controller.trans h2'.controller.symm, h1'.samePages h2'⟩
  · have hrefused : ∀ k : UInt64, CircuitOram.drainEvictions k s = (.error e, s) := by
      intro k
      simp only [CircuitOram.drainEvictions, Eff.get_bind, he]
      rfl
    exact ⟨hrefused budget, hrefused 1⟩

theorem drainEvictions_each_smallRead :
    (∀ n, smallRead.schedule.pendingEvictions = .ok n → ∃ s₁ s₂,
      CircuitOram.drainEvictions 7 smallRead = (.ok (min 7 n), s₁) ∧
      Eff.forEach (fun _ => CircuitOram.drainEvictions 1) (List.range (min 7 n).toNat) smallRead
        = (.ok (List.replicate (min 7 n).toNat 1), s₂) ∧
      s₁.toController = s₂.toController ∧ SamePages MemPageStore.honest MemPageStore.honest smallParams s₁ s₂) ∧
    ∀ e, smallRead.schedule.pendingEvictions = .error e →
      CircuitOram.drainEvictions 7 smallRead = (.error e, smallRead) ∧
        CircuitOram.drainEvictions 1 smallRead = (.error e, smallRead) :=
  Reached.drainEvictions_each (smallRead_reached fun _ _ => True) 7

/-! ## The order of the leaves -/

open CircuitEvictionSchedule in
theorem fromCounters_ok {rate issued completed : UInt64} {s₀ : CircuitEvictionSchedule}
    (h : fromCounters p rate issued completed = .ok s₀) :
    s₀ = { leafBits := p.leafBits, evictionsPerAccess := rate, issuedAccesses := issued, completedEvictions := completed } ∧
      completed.toNat ≤ issued.toNat * rate.toNat := by
  obtain ⟨n, hn, hrest⟩ := bind_result_ok h
  cases hrest
  exact ⟨rfl, by have := (pendingEvictions_ok hn).1; simp only at this; omega⟩

/-- A drain of the controller evicts, in order, the paths of the leaves its schedule gives
    up, and leaves the schedule where these leave it. -/
theorem Reached.drainEvictions_leaves (h : Reached p HM HP HS Fails s v) {n : UInt64}
    (hn : s.schedule.pendingEvictions = .ok n) (budget : UInt64) :
    ∃ leaves t s' tree tree' outs, CircuitEvictionSchedule.drainEvictions budget s.schedule = (.ok leaves, t) ∧
      CircuitOram.drainEvictions budget s = (.ok (min budget n), s') ∧ s'.schedule = t ∧
      CircuitOram.evictionPaths s.toController (min budget n) = leaves.map p.pathNodes ∧
      StoredTree HM HP p s tree ∧ StoredTree HM HP p s' tree' ∧
      Eff.forEach Blocks.evict (leaves.map p.pathNodes) { s.toController with tree }
        = (.ok outs, { s'.toController with tree := tree', schedule := s.schedule }) := by
  obtain ⟨b, hr, hs⟩ := h.sound
  have hc := hr.controller
  have hn' : b.schedule.pendingEvictions = .ok n := by rw [← hn, congrArg Controller.schedule hc]
  obtain ⟨outs, b₁, hall, he, hdrain⟩ := hs.drainEvictions_eq hn' budget
  obtain ⟨h1, h1'⟩ := drainEvictions_sim HM HP budget s b hr
  rw [hdrain] at h1 h1'
  have hmin : min budget.toNat n.toNat = (min budget n).toNat := by
    change _ = (if budget ≤ n then budget else n).toNat
    split <;> rename_i hle <;> rw [UInt64.le_iff_toNat_le] at hle <;> omega
  have hleaves := CircuitEvictionSchedule.drainLoop_ok hn' budget.toNat []
  rw [hmin, List.nil_append, ← congrArg Controller.schedule hc] at hleaves
  have hpaths := evictionPaths_nextPaths hs.shape.controller (min budget n)
  have hmap : nextPaths p b.schedule (min budget n).toNat
      = ((List.range (min budget n).toNat).map fun i => (b.schedule.advance i).nextEvictionLeaf).map p.pathNodes := by
    rw [nextPaths, List.map_map]
    rfl
  have hsched : b₁.schedule = b.schedule := by
    obtain ⟨stash, hctl⟩ := he.controller
    rw [hctl]
  rw [hpaths, hmap] at hall
  refine ⟨_, _, _, b.tree, b₁.tree, outs, hleaves, Prod.ext h1 rfl, ?_, by rw [hc, hpaths, hmap], hr.stored,
    h1'.stored, ?_⟩
  · rw [congrArg Controller.schedule h1'.controller, congrArg Controller.schedule hc]
  rw [hc, h1'.controller]
  change Eff.forEach Blocks.evict _ b = (.ok outs, { b₁ with schedule := b.schedule })
  rw [hall, ← hsched]

/-- The leaves drained from given counters on, however calls and drains are interleaved, are
    those of the bit-reversal sequence from the completed counter on, none skipped or
    repeated, and no more than are owed; a schedule with the counters reached goes on the
    same; `leaves` indices in a row visit each leaf once; and the controller's drains evict
    the paths of these leaves. -/
theorem eviction_order (p : OramParams) (HM : HonestStore M) (HP : HonestStore P) (HS : HonestSource S)
    (Fails : CircuitOram M P ρ → Op → Prop) :
    (∀ rate issued completed s₀, CircuitEvictionSchedule.fromCounters p rate issued completed = .ok s₀ →
      ∀ calls leaves t, Eff.forEach CircuitEvictionSchedule.Call.run calls s₀ = (.ok leaves, t) →
        leaves.flatten = (List.range' completed.toNat leaves.flatten.length).map
          (CircuitEvictionSchedule.scheduledLeaf p.leafBits) ∧
        t.completedEvictions.toNat = completed.toNat + leaves.flatten.length ∧
        t.issuedAccesses.toNat = issued.toNat + (calls.map CircuitEvictionSchedule.Call.accesses).sum ∧
        t.completedEvictions.toNat ≤ t.issuedAccesses.toNat * rate.toNat ∧
        ∀ n, t.pendingEvictions = .ok n →
          CircuitEvictionSchedule.fromCounters p rate t.issuedAccesses t.completedEvictions = .ok t) ∧
    (∀ rate, CircuitEvictionSchedule.fromCounters p rate 0 0 = .ok (CircuitEvictionSchedule.withRate p rate)) ∧
    (∀ i, (CircuitEvictionSchedule.scheduledLeaf p.leafBits i).toNat = bitReverse p.leafBits (i % p.leaves)) ∧
    (∀ start leaf, leaf < p.leaves → ((List.range' start p.leaves).map fun i =>
      (CircuitEvictionSchedule.scheduledLeaf p.leafBits i).toNat).count leaf = 1) ∧
    ∀ s v, Reached p HM HP HS Fails s v → ∀ n, s.schedule.pendingEvictions = .ok n → ∀ budget,
      ∃ leaves t s' tree tree' outs, CircuitEvictionSchedule.drainEvictions budget s.schedule = (.ok leaves, t) ∧
        leaves = (List.range' s.schedule.completedEvictions.toNat leaves.length).map
          (CircuitEvictionSchedule.scheduledLeaf p.leafBits) ∧
        CircuitOram.drainEvictions budget s = (.ok (min budget n), s') ∧ s'.schedule = t ∧
        CircuitOram.evictionPaths s.toController (min budget n) = leaves.map p.pathNodes ∧
        StoredTree HM HP p s tree ∧ StoredTree HM HP p s' tree' ∧
        Eff.forEach Blocks.evict (leaves.map p.pathNodes) { s.toController with tree }
          = (.ok outs, { s'.toController with tree := tree', schedule := s.schedule }) := by
  have hbits : ∀ s₀ : CircuitEvictionSchedule, s₀.leafBits = p.leafBits → 0 < s₀.leafBits ∧ s₀.leafBits < 32 := by
    intro s₀ he
    rw [he]
    exact ⟨p.leafBits_pos, p.leafBits_lt⟩
  have hleaf : ∀ i, (CircuitEvictionSchedule.scheduledLeaf p.leafBits i).toNat = bitReverse p.leafBits (i % p.leaves) := by
    intro i
    have hlt : bitReverse p.leafBits (i % 2 ^ p.leafBits) < 2 ^ 32 :=
      (bitReverse_lt _ _).trans (Nat.pow_lt_pow_right (by decide) p.leafBits_lt)
    rw [CircuitEvictionSchedule.scheduledLeaf, UInt32.toNat_ofNat', Nat.mod_eq_of_lt hlt, p.leaves_eq]
  refine ⟨fun rate issued completed s₀ hs₀ calls leaves t hrun => ?_, fun rate => ?_, hleaf, fun start leaf hl => ?_,
    fun s v h n hn budget => ?_⟩
  · obtain ⟨rfl, howed⟩ := fromCounters_ok hs₀
    have hadv := CircuitEvictionSchedule.run_advanced (hbits _ rfl) hrun
    refine ⟨hadv.leaves, hadv.completed, hadv.issued, ?_, fun n hn => ?_⟩
    · have hle := hadv.owed howed
      rwa [hadv.rate] at hle
    · rcases t with ⟨leafBits, rate', issued', completed'⟩
      have h1 : leafBits = p.leafBits := hadv.leafBits
      have h2 : rate' = rate := hadv.rate
      subst h1 h2
      simp only [CircuitEvictionSchedule.fromCounters, hn]
      rfl
  · have hnone : (CircuitEvictionSchedule.withRate p rate).pendingEvictions = .ok 0 := by
      simp [CircuitEvictionSchedule.pendingEvictions, CircuitEvictionSchedule.withRate, checkedMul, checkedSub, okOr, bind,
        Except.bind]
    change (CircuitEvictionSchedule.withRate p rate).pendingEvictions >>= (fun _ => _) = _
    rw [hnone]
    rfl
  · have hfun : (fun i => (CircuitEvictionSchedule.scheduledLeaf p.leafBits i).toNat)
        = fun i => bitReverse p.leafBits (i % 2 ^ p.leafBits) := by
      funext i
      rw [hleaf, p.leaves_eq]
    rw [hfun, p.leaves_eq]
    exact count_window p.leafBits start (p.leaves_eq ▸ hl)
  · obtain ⟨leaves, t, s', tree, tree', outs, hdrain, hrest⟩ := h.drainEvictions_leaves hn budget
    obtain ⟨b, hr, hs⟩ := h.sound
    have hlb : s.schedule.leafBits = p.leafBits := by
      rw [congrArg Controller.schedule hr.controller, hs.shape.controller.leafBits]
    have hleaves := (CircuitEvictionSchedule.drainEvictions_advanced (hbits _ hlb) hdrain).leaves
    rw [hlb] at hleaves
    exact ⟨leaves, t, s', tree, tree', outs, hdrain, hleaves, hrest⟩

end

end BpirOram
