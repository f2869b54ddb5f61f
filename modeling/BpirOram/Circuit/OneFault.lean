/-
  BpirOram.Circuit.OneFault — one store call fails, and then the stores work again.

  A call that fails at a read left everything as it was but the generator. One that fails at a
  write has moved blocks already: an access and a batch into the stash, a drain out of it.
  - `Reached.one_call_fails`: the failed call leaves every block once and with its last value
    exactly when the write may fail without harm (`Op.Harmless`); then it may be made again, and
    it and all the later calls return what was written last.
  - `drain_struck_smallRead`: a drain that cannot write its payloads, and a block that reads as
    zeros from then on.
-/

import BpirOram.Circuit.Faults

namespace BpirOram

open Lib

variable {M P S ρ : Type} {p : OramParams}

/-! ## What the stores hold -/

section
variable [PageStore M] [PageStore P] {HM : HonestStore M} {HP : HonestStore P} {s : CircuitOram M P ρ} {b : Blocks ρ}
  {v : Memory}

/-- An honest store holds one array of pages. -/
theorem HonestStore.Holds.page_eq {n sz : Nat} {c d : Nat → Bytes} {m : M} (h : HM.Holds n sz c m) (h' : HM.Holds n sz d m)
    {i : Nat} (hi : i < n) : c i = d i := by
  obtain ⟨t, hc, -⟩ := HM.readPage h hi
  obtain ⟨t', hd, -⟩ := HM.readPage h' hi
  have := hc.symm.trans hd
  injection this with hpage _
  injection hpage

theorem OramBlock.eq_of_halves {l l' : List OramBlock} (hslots : l.map (·.metaSlot) = l'.map (·.metaSlot))
    (hpayloads : l.map (·.payload) = l'.map (·.payload)) : l = l' := by
  induction l generalizing l' with
  | nil =>
    rw [List.map_nil] at hslots
    exact (List.map_eq_nil_iff.mp hslots.symm).symm
  | cons x l ih =>
    cases l' with
    | nil => cases hslots
    | cons y l' =>
      simp only [List.map_cons, List.cons.injEq] at hslots hpayloads
      rw [ih hslots.2 hpayloads.2]
      obtain ⟨o, id, leaf, payload⟩ := x
      obtain ⟨o', id', leaf', payload'⟩ := y
      have hslot := hslots.1
      have hpayload := hpayloads.1
      simp only [OramBlock.metaSlot, CircuitMetaSlot.mk.injEq] at hslot
      obtain ⟨rfl, rfl, rfl⟩ := hslot
      cases hpayload
      rfl

/-- The stores hold one tree. -/
theorem StoredTree.tree_eq {tree tree' : Nat → List OramBlock} (h : StoredTree HM HP p s tree)
    (h' : StoredTree HM HP p s tree') {i : Nat} (hi : i < p.bucketCount) : tree i = tree' i := by
  obtain ⟨c, hc, hslots⟩ := h.metaPages
  obtain ⟨c', hc', hslots'⟩ := h'.metaPages
  obtain ⟨d, hd, hpayloads⟩ := h.payloadPages
  obtain ⟨d', hd', hpayloads'⟩ := h'.payloadPages
  have hmeta := (hslots i hi).symm.trans ((congrArg (CircuitMetaBucket.decode · p.bucketSize)
    (hc.page_eq hc' hi)).trans (hslots' i hi))
  have hpayload := (hpayloads i hi).symm.trans ((congrArg (CircuitPayloadBucket.decode · p.bucketSize p.blockSize)
    (hd.page_eq hd' hi)).trans (hpayloads' i hi))
  injection hmeta with hmeta
  injection hpayload with hpayload
  exact OramBlock.eq_of_halves (congrArg CircuitMetaBucket.slots hmeta) (congrArg CircuitPayloadBucket.slots hpayload)

/-- The array the stores and the stash hold is that of the placement they hold. -/
theorem Rel.holdsArray_iff (h : Rel (HM.metaContract p) (HP.payloadContract p) s b) :
    (∃ tree, HoldsArray HM HP p s tree v) ↔ Inv p b v := by
  constructor
  · rintro ⟨tree, ht⟩
    have htree : ∀ i < p.bucketCount, tree i = b.tree i := fun i hi => ht.stored.tree_eq h.stored hi
    have hstash : s.stash = b.stash := congrArg Controller.stash h.controller
    have hpos : s.posMap = b.posMap := congrArg Controller.posMap h.controller
    refine ⟨h.shape, ?_, fun i hi => ?_⟩
    · rw [Blocks.blocks, ← hstash, ← hpos, ← ht.blocks]
      exact congrArg (· + occ s.stash) (gather_congr fun i hi => by rw [htree i hi])
    · rw [← htree i hi]
      exact ht.onPath i hi
  · exact fun hi => ⟨b.tree, h.holdsArray hi⟩

end

/-! ## The call that fails -/

/-- The call comes to the store call that the fault is in. -/
def Op.ComesTo (p : OramParams) (b : Blocks ρ) (op : Op) : Fault → Prop
  | .none => False
  | .metaRead _ | .payloadRead _ => op.Reads b
  | .metaWrite _ | .payloadWrite _ => op.Writes p b

section
variable [Rng ρ] {b : Blocks ρ} {v : Memory}

/-- How a call ends that a store failed; a full counter stays full. -/
theorem Inv.fault_ends (h : Inv p b v) {op : Op} {fault : Fault} (hcomes : op.ComesTo p b fault) :
    ∃ e b', fault.result = .error e ∧ op.runBlocks fault b = (.error e, b') ∧
      (Inv p b' v ↔ op.Harmless p b v fault) ∧ (¬ b.Countable → ¬ b'.Countable) := by
  have hread : ∀ {e}, op.Reads b → fault = .metaRead e ∨ fault = .payloadRead e →
      ∃ b', op.runBlocks fault b = (.error e, b') ∧ Inv p b' v ∧ (¬ b.Countable → ¬ b'.Countable) := by
    intro e hreads hfault
    obtain ⟨rng, hrun⟩ := op.runBlocks_reads hreads hfault
    exact ⟨_, hrun, h.frame rng h.shape.controller.leafBits, id⟩
  cases fault with
  | none => exact hcomes.elim
  | metaRead e =>
    obtain ⟨b', hrun, hinv, hfull⟩ := hread hcomes (.inl rfl)
    exact ⟨e, b', rfl, hrun, iff_of_true hinv (by cases op <;> trivial), hfull⟩
  | payloadRead e =>
    obtain ⟨b', hrun, hinv, hfull⟩ := hread hcomes (.inr rfl)
    exact ⟨e, b', rfl, hrun, iff_of_true hinv (by cases op <;> trivial), hfull⟩
  | metaWrite e =>
    obtain ⟨b', hrun, hkeeps, hfull⟩ := h.struck_ends hcomes (.inl rfl)
    exact ⟨e, b', rfl, hrun, hkeeps, hfull⟩
  | payloadWrite e =>
    obtain ⟨b', hrun, hkeeps, hfull⟩ := h.struck_ends hcomes (.inr rfl)
    exact ⟨e, b', rfl, hrun, hkeeps, hfull⟩

/-- A fault the call does not come to plays no part. -/
theorem Inv.fault_unmet (h : Inv p b v) {op : Op} {fault : Fault} (hcomes : ¬ op.ComesTo p b fault) :
    op.runBlocks fault b = op.runBlocks .none b := by
  cases fault with
  | none => rfl
  | metaRead e => exact op.runBlocks_unread hcomes _
  | payloadRead e => exact op.runBlocks_unread hcomes _
  | metaWrite e => exact h.unwritten hcomes (.inl rfl)
  | payloadWrite e => exact h.unwritten hcomes (.inr rfl)

end

/-! ## The calls that follow -/

section
variable [PageStore M] [PageStore P] [TrustedBlockSource S] [Rng ρ]

/-- The calls from a state on that served `v`, and the array of those that ended well. The batches
    that fail are atomic. -/
inductive Onward (s : CircuitOram M P ρ) (v : Memory) : CircuitOram M P ρ → Memory → Prop
  | refl : Onward s v s v
  | ok {t u outs t'} (op : Op) : Onward s v t u → op.run t = (.ok outs, t') → Onward s v t' (u.serveAll op.requests).2
  | failed {t u e t'} (op : Op) : Onward s v t u → op.run t = (.error e, t') → AtomicBatches t op → Onward s v t' u

variable {HM : HonestStore M} {HP : HonestStore P} {HS : HonestSource S} {s t : CircuitOram M P ρ} {b : Blocks ρ}
  {v u : Memory}

theorem Onward.serving (h : Onward s v t u) (hr : Rel (HM.metaContract p) (HP.payloadContract p) s b)
    (hs : Serving p b v) : ∃ b', Rel (HM.metaContract p) (HP.payloadContract p) t b' ∧ Serving p b' u := by
  induction h with
  | refl => exact ⟨b, hr, hs⟩
  | ok op _ hrun ih =>
    obtain ⟨b', hr', hs'⟩ := ih
    exact (hr'.serving_ok hs' hrun).2
  | failed op _ hrun hatomic ih =>
    obtain ⟨b', hr', hs'⟩ := ih
    exact hr'.serving_failed hs' hrun hatomic

/-- In any run whose failed batches are atomic: a call over stores that are set to fail ends as it
    does over stores that work, or in the error of a store call it came to. Then what it leaves holds
    the same array exactly when that failure is harmless, and if it is, all that is called afterwards
    over stores that work returns what the calls that ended well wrote. -/
theorem Reached.one_call_fails (h : Reached p HM HP HS AtomicBatches s v) :
    ∃ (b : Blocks ρ) (w : Memory), b.toController = s.toController ∧ HoldsArray HM HP p s b.tree w ∧
      (w = v ∨ ¬ s.Countable) ∧ ∀ (f : Faults) (op : Op),
        ((op.run (s.failing f)).1 = (op.run s).1 ∧ (op.run (s.failing f)).2.toController = (op.run s).2.toController ∧
          SamePages HM HP p (op.run (s.failing f)).2.inner (op.run s).2) ∨
        ∃ fault e, f.allow fault ∧ op.ComesTo p b fault ∧ fault.result = .error e ∧ (op.run (s.failing f)).1 = .error e ∧
          ((∃ tree, HoldsArray HM HP p (op.run (s.failing f)).2.inner tree w) ↔ op.Harmless p b w fault) ∧
          (op.Harmless p b w fault → ∀ t u, Onward (op.run (s.failing f)).2.inner v t u →
            ∀ (next : Op) outs t', next.run t = (.ok outs, t') → outs = (u.serveAll next.requests).1) := by
  obtain ⟨b, hr, hs⟩ := h.serving
  obtain ⟨w, hw, hv⟩ := id hs
  have hc : s.toController = b.toController := hr.controller
  refine ⟨b, w, hc.symm, hr.holdsArray hw, hv.imp_right fun hn => by rwa [hc], fun f op => ?_⟩
  obtain ⟨fault, hallowed, h1, h2⟩ := run_failing (s := s.failing f) hr op
  by_cases hcomes : op.ComesTo p b fault
  · obtain ⟨e, b', hresult, hrun, hkeeps, hfull⟩ := hw.fault_ends hcomes
    rw [hrun] at h1 h2
    refine .inr ⟨fault, e, hallowed, hcomes, hresult, h1, h2.holdsArray_iff.trans hkeeps, fun hharm t u honward => ?_⟩
    intro next outs t' hnext
    have hserving : Serving p b' v := ⟨w, hkeeps.mpr hharm, hv.imp_right hfull⟩
    obtain ⟨b'', hr'', hs''⟩ := honward.serving h2 hserving
    exact (hr''.serving_ok hs'' hnext).1
  · obtain ⟨h1', h2'⟩ := run_honest hr op
    rw [hw.fault_unmet hcomes] at h1 h2
    exact .inl ⟨h1.trans h1'.symm, h2.controller.trans h2'.controller.symm, h2.samePages h2'⟩

end

/-! ## The small controller -/

theorem one_call_fails_smallRead :
    ∃ (b : Blocks ZeroSeedRng) (w : Memory), b.toController = smallRead.toController ∧
      HoldsArray MemPageStore.honest MemPageStore.honest smallParams smallRead b.tree w ∧
      (w = (smallMemory.serveAll (Op.access 1 .keep).requests).2 ∨ ¬ smallRead.Countable) ∧ ∀ (f : Faults) (op : Op),
        ((op.run (smallRead.failing f)).1 = (op.run smallRead).1 ∧
          (op.run (smallRead.failing f)).2.toController = (op.run smallRead).2.toController ∧
          SamePages MemPageStore.honest MemPageStore.honest smallParams (op.run (smallRead.failing f)).2.inner
            (op.run smallRead).2) ∨
        ∃ fault e, f.allow fault ∧ op.ComesTo smallParams b fault ∧ fault.result = .error e ∧
          (op.run (smallRead.failing f)).1 = .error e ∧
          ((∃ tree, HoldsArray MemPageStore.honest MemPageStore.honest smallParams
            (op.run (smallRead.failing f)).2.inner tree w) ↔ op.Harmless smallParams b w fault) ∧
          (op.Harmless smallParams b w fault → ∀ t u,
            Onward (op.run (smallRead.failing f)).2.inner (smallMemory.serveAll (Op.access 1 .keep).requests).2 t u →
            ∀ (next : Op) outs t', next.run t = (.ok outs, t') → outs = (u.serveAll next.requests).1) :=
  Reached.one_call_fails (smallRead_reached AtomicBatches)

/-- A drain whose payload write fails, and nothing else: its metadata says that block 1 is in the
    tree, the payload there is none, and the next access to it ends well. -/
theorem drain_struck_smallRead :
    Reached smallParams MemPageStore.honest MemPageStore.honest VecBlockSource.honest (fun _ _ => False) smallRead
        (smallMemory.serveAll (Op.access 1 .keep).requests).2 ∧
      let halted := (Op.drainEvictions 2).run (smallRead.failing payloadsFail)
      halted.1 = .error .io ∧ ((Op.access 1 .keep).run halted.2.inner).1 = .ok [[0]] ∧
        (smallMemory.serveAll (Op.access 1 .keep).requests).2 1 = [8] := by
  refine ⟨smallRead_reached _, ?_⟩
  decide +kernel

end BpirOram
