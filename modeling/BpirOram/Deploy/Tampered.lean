/-
  BpirOram.Deploy.Tampered — calls that end well or in an error of authentication.

  The disks of both trees are the adversary's: what a call of theirs returns, and what is on
  them afterwards, is as the adversary likes, inside a call of the controller too. All that is
  asked of them is that no write of theirs fails in an error of authentication (`DiskErrors`).
  A call of the controller reads both stores before it moves anything, and it writes the paths
  it has just read, so that the trees have their pages and read nothing again. So
  - `HoldsRoots.unauthentic`: a call that ends in an error of authentication, of either store,
    moved nothing but the generator.
  - `Tampered.end_to_end`: after calls each of which ended well or in such an error, every call
    that ends well returns what was last written by those that ended well.
-/

import BpirOram.Deploy.Hostile
import BpirOram.Lib.Triple

namespace BpirOram

open Lib EmbeddedTreePageStore

/-! ## Errors -/

/-- The error of a page that is not the one its parent, or the root, has the hash of. -/
def Authentication (e : Error) : Prop :=
  ∃ pageIdx : Nat, e = .invalidInput s!"embedded tree authentication failed for page {pageIdx}"

theorem Authentication.text {msg : String} (h : Authentication (.invalidInput msg)) : msg.toList.take 2 = ['e', 'm'] := by
  obtain ⟨pageIdx, heq⟩ := h
  cases heq
  simp [toString]

/-- No error of the controller's own is one. -/
theorem CallError.not_authentication {p : OramParams} {e : Error} (h : CallError p e) : ¬ Authentication e := by
  intro hauth
  cases h with
  | range logicalId =>
    have htext := hauth.text
    simp [toString] at htext
  | schedule hpending =>
    rcases CircuitEvictionSchedule.pendingEvictions_error hpending with rfl | rfl
    · exact absurd hauth.text (by decide)
    · exact absurd hauth.text (by decide)
  | serve hserve =>
    cases hserve with
    | full =>
      obtain ⟨_, heq⟩ := hauth
      cases heq
    | uncounted => exact absurd hauth.text (by decide)

/-- No write of the disk fails in an error of authentication. -/
def DiskErrors (S : Type) [PageStore S] : Prop :=
  ∀ {idxs : List Nat} {pages : List Bytes} {inner inner' : S} {e : Error},
    PageStore.writePages idxs pages inner = (.error e, inner') → ¬ Authentication e

theorem DiskErrors.writeErrors {S : Type} [PageStore S] (h : DiskErrors S) :
    GuardedTree.WriteErrors S fun e => ¬ Authentication e where
  guard := by
    rintro ⟨_, heq⟩
    cases heq
  disk := h

/-! ## A call that ends in an error of authentication -/

section
variable {S T ρ : Type} [PageStore S] [PageStore T] [Sha256] [Rng ρ] {N : Set Bytes} {p : OramParams}
  {storeId : CircuitAuthStoreKind → FixedBytes 16} {v : Memory}
  {s s' : CircuitOram (EmbeddedTreePageStore S) (EmbeddedTreePageStore T) ρ} {b : Blocks ρ} {op : Op} {e : Error}

/-- It failed to read, and moved nothing but the generator. -/
theorem HoldsRoots.unauthentic (h : HoldsRoots N p storeId s b) (hN : Set.InjOn Sha256.digest N) (hS : DiskErrors S)
    (hT : DiskErrors T) (hi : Inv p b v) (hrun : op.run s = (.error e, s')) (hnotes : ∀ b ∈ op.notes s, b ∈ N)
    (he : Authentication e) :
    s'.toController = { s.toController with rng := s'.rng } ∧ s'.metaStore.rootHash = s.metaStore.rootHash ∧
      s'.payloadStore.rootHash = s.payloadStore.rootHash := by
  obtain ⟨hguarded, hstate⟩ := run_guarded hnotes
  rw [hrun] at hguarded hstate
  rcases Op.run_outcome (h.rel hN hS.writeErrors hT.writeErrors) op with ⟨e', he', hdead⟩ | ⟨fault, hallowed, hresult, hrel⟩
  · rw [← hguarded] at he'
    cases he'
    exact absurd he (hdead.elim id id)
  rw [← hguarded] at hresult
  rw [hstate] at hrel
  have hworks : op.runBlocks fault b ≠ op.runBlocks .none b := by
    intro hnone
    have hstep := hi.step op
    rw [← hnone, show op.runBlocks fault b = (.error e, _) from Prod.ext hresult.symm rfl] at hstep
    exact hstep.callError.not_authentication he
  have hread : fault.IsRead := by
    cases fault with
    | none => exact absurd rfl hworks
    | metaRead e' => exact ⟨e', .inl rfl⟩
    | payloadRead e' => exact ⟨e', .inr rfl⟩
    | metaWrite e' => exact hallowed.elim
    | payloadWrite e' => exact hallowed.elim
  obtain ⟨e', rng, hblocks⟩ := (op.runBlocks_read hread b).resolve_left fun hnone => hworks hnone.1
  simp only [hblocks] at hrel
  have hc : s'.toController = { b.toController with rng } := hrel.controller
  refine ⟨?_, hrel.metaRep.root.trans h.metaStore.root.symm, hrel.payloadRep.root.trans h.payloadStore.root.symm⟩
  rw [hc, h.controller]

end

/-! ## Runs -/

section
variable {S T M P B S₀ H₀ ρ : Type} [PageStore S] [PageStore T] [PageStore M] [PageStore P] [TrustedBlockSource B]
  [PageStore S₀] [PageStore H₀] [Sha256] [Rng ρ]

/-- The calls from a state on that served `v`, each of which ended well or in an error of
    authentication, and the array of those that ended well. Between two calls the disks are
    exchanged for any others. -/
inductive Tampered (N : Set Bytes) (s : CircuitOram (EmbeddedTreePageStore S) (EmbeddedTreePageStore T) ρ) (v : Memory) :
    CircuitOram (EmbeddedTreePageStore S) (EmbeddedTreePageStore T) ρ → Memory → Prop
  | refl : Tampered N s v s v
  | disks {t u} (inner : S) (inner' : T) : Tampered N s v t u → Tampered N s v (t.onDisks inner inner') u
  | ok {t u outs t'} (op : Op) : Tampered N s v t u → op.run t = (.ok outs, t') → (∀ b ∈ op.notes t, b ∈ N) →
      Tampered N s v t' (u.serveAll op.requests).2
  | unauthentic {t u e t'} (op : Op) : Tampered N s v t u → op.run t = (.error e, t') → (∀ b ∈ op.notes t, b ∈ N) →
      Authentication e → Tampered N s v t' u

variable {N : Set Bytes} {p : OramParams} {HM : HonestStore M} {HP : HonestStore P} {HB : HonestSource B} {HS : HonestStore S₀}
  {HH : HonestStore H₀} {storeId : CircuitAuthStoreKind → FixedBytes 16} {v u : Memory}
  {s t : CircuitOram (EmbeddedTreePageStore S) (EmbeddedTreePageStore T) ρ}

/-- Calls that moved nothing may be left out. -/
theorem Tampered.hostile (hN : Set.InjOn Sha256.digest N) (hfm : HM.KeptByFlush) (hfp : HP.KeptByFlush) (hfs : HS.KeptByFlush)
    (hS : DiskErrors S) (hT : DiskErrors T) (hstart : Hostile N p HM HP HB HS HH storeId s v) (h : Tampered N s v t u) :
    Hostile N p HM HP HB HS HH storeId t u := by
  induction h with
  | refl => exact hstart
  | disks inner inner' _ ih => exact ih.disks inner inner'
  | ok op _ hrun hnotes ih => exact ih.ok op hrun hnotes
  | unauthentic op _ hrun hnotes he ih =>
    obtain ⟨b, hb, hi⟩ := ih.inv hN hfm hfp hfs
    obtain ⟨hc, hm, hq⟩ := hb.unauthentic hN hS hT hi hrun hnotes he
    exact ih.failed op hrun hnotes hc hm hq

/-- Whatever the adversary does to the disks, a call that ends well returns what was last written
    by calls that ended well, and one that ends in an error of authentication leaves the position
    map, the stash, the schedule and both roots. -/
theorem Tampered.end_to_end (hN : Set.InjOn Sha256.digest N) (hfm : HM.KeptByFlush) (hfp : HP.KeptByFlush)
    (hfs : HS.KeptByFlush) (hS : DiskErrors S) (hT : DiskErrors T) (hstart : Hostile N p HM HP HB HS HH storeId s v)
    (h : Tampered N s v t u) (op : Op) (hnotes : ∀ b ∈ op.notes t, b ∈ N) :
    (∀ outs t', op.run t = (.ok outs, t') → outs = (u.serveAll op.requests).1) ∧
      ∀ e t', op.run t = (.error e, t') → Authentication e →
        t'.posMap = t.posMap ∧ t'.stash = t.stash ∧ t'.schedule = t.schedule ∧
          t'.metaStore.rootHash = t.metaStore.rootHash ∧ t'.payloadStore.rootHash = t.payloadStore.rootHash := by
  obtain ⟨b, hb, hi⟩ := (h.hostile hN hfm hfp hfs hS hT hstart).inv hN hfm hfp hfs
  refine ⟨fun outs t' hrun => ?_, fun e t' hrun he => ?_⟩
  · obtain ⟨b', hblocks, -⟩ := hb.run hN hrun hnotes hi
    exact (hi.step_ok hblocks).1
  · obtain ⟨hc, hm, hq⟩ := hb.unauthentic hN hS hT hi hrun hnotes he
    exact ⟨(congrArg Controller.posMap hc).trans rfl, (congrArg Controller.stash hc).trans rfl,
      (congrArg Controller.schedule hc).trans rfl, hm, hq⟩

end

/-! ## The small table, its payloads rolled back -/

/-- The errors of writes in memory begin alike. -/
theorem MemPageStore.writePages_errors (idxs : List Nat) (pages : List Bytes) :
    Eff.Triple (fun _ : MemPageStore => True) (PageStore.writePages idxs pages) (fun _ _ => True) fun e _ =>
      ∃ msg, e = .invalidInput msg ∧ msg.toList.head? = some 'p' := by
  have hfail : ∀ {α : Type} {msg : String} {P : MemPageStore → Prop}, msg.toList.head? = some 'p' →
      Eff.Triple P (Eff.lift (.error (.invalidInput msg)) : Eff Error MemPageStore α) (fun _ _ => True) fun e _ =>
        ∃ msg, e = .invalidInput msg ∧ msg.toList.head? = some 'p' := fun h s _ => .inr ⟨_, s, rfl, _, rfl, h⟩
  refine .ite (fun _ => hfail (by simp [toString])) fun _ => .get_bind fun s _ => ?_
  refine .bind (Q := fun _ _ => True) ?_ fun _ => .pure _ fun _ _ => trivial
  refine .conseq (Eff.Triple.forEach_rest (I := fun _ _ => True) fun w rest _ => ?_) (fun _ _ => trivial) (fun _ _ h => h)
    fun _ _ h => h
  refine .ite (fun _ => hfail (by simp [toString])) fun _ => .get_bind fun s _ => ?_
  refine .bind (Q := fun _ _ => True) ?_ fun _ => .modify fun _ _ => trivial
  unfold checkPage
  split
  · exact hfail (by simp [toString])
  split
  · exact hfail (by simp [toString])
  · exact .pure () fun _ _ => trivial

theorem MemPageStore.diskErrors : DiskErrors MemPageStore := by
  intro idxs pages inner inner' e hrun hauth
  obtain ⟨msg, rfl, hhead⟩ := (writePages_errors idxs pages).error trivial hrun
  have htext := hauth.text
  generalize msg.toList = text at hhead htext
  cases text with
  | nil => cases hhead
  | cons c rest =>
    cases hhead
    simp at htext

section
local instance smallTamperedSha256 : Sha256 := smallSha256

/-- The payloads are rolled back, and the metadata is not. -/
def smallHalf : CircuitOram (EmbeddedTreePageStore MemPageStore) (EmbeddedTreePageStore MemPageStore) ZeroSeedRng :=
  smallWritten.onDisks smallWritten.metaStore.inner smallTrees.payloadStore.inner

def smallDenied : CircuitOram (EmbeddedTreePageStore MemPageStore) (EmbeddedTreePageStore MemPageStore) ZeroSeedRng :=
  (smallAgain.run smallHalf).2

/-- The payloads are put right again. -/
def smallResumed : CircuitOram (EmbeddedTreePageStore MemPageStore) (EmbeddedTreePageStore MemPageStore) ZeroSeedRng :=
  smallDenied.onDisks smallWritten.metaStore.inner smallWritten.payloadStore.inner

/-- A run from the small table on. -/
abbrev SmallTampered :
    CircuitOram (EmbeddedTreePageStore MemPageStore) (EmbeddedTreePageStore MemPageStore) ZeroSeedRng → Memory → Prop :=
  Tampered { b | b ∈ smallTreesNotes } smallTrees smallMemory

theorem smallHalf_tampered : SmallTampered smallHalf (smallMemory.serveAll smallWrite.requests).2 := by
  have hrun := Eff.run_eq (show (smallWrite.run smallTrees).1 = .ok [[8]] by decide +kernel)
  have hwritten := Tampered.ok (N := { b | b ∈ smallTreesNotes }) (v := smallMemory) smallWrite .refl hrun
    fun b hb => List.mem_append_right _ (List.mem_append_left _ (List.mem_append_left _ hb))
  exact hwritten.disks _ _

theorem smallHalf_notes : ∀ b ∈ smallAgain.notes smallHalf, b ∈ smallTreesNotes := by decide +kernel

theorem smallHalf_unauthentic :
    (smallAgain.run smallHalf).1 = .error (.invalidInput "embedded tree authentication failed for page 0") := by
  decide +kernel

theorem smallResumed_tampered : SmallTampered smallResumed (smallMemory.serveAll smallWrite.requests).2 := by
  have hrefused := Tampered.unauthentic smallAgain smallHalf_tampered (Eff.run_eq smallHalf_unauthentic) smallHalf_notes
    ⟨0, by decide +kernel⟩
  exact hrefused.disks _ _

/-- The metadata was read and stays in the cache of its tree, and the access is made again. -/
theorem end_to_end_smallResumed : (smallAgain.run smallHalf).1 =
      .error (.invalidInput "embedded tree authentication failed for page 0") ∧
    smallDenied.metaStore.verifiedBatchCache.isSome = true ∧ smallDenied.stash = smallHalf.stash ∧
    smallDenied.payloadStore.rootHash = smallHalf.payloadStore.rootHash ∧
    ∃ s', smallAgain.run smallResumed = (.ok [[9]], s') ∧
      [[9]] = ((smallMemory.serveAll smallWrite.requests).2.serveAll smallAgain.requests).1 := by
  obtain ⟨-, hrefused⟩ := Tampered.end_to_end smallTreesNotes_inj MemPageStore.fronts_keptByFlush
    MemPageStore.fronts_keptByFlush MemPageStore.keptByFlush MemPageStore.diskErrors MemPageStore.diskErrors
    smallTrees_hostile smallHalf_tampered smallAgain smallHalf_notes
  have hhalf := Eff.run_eq smallHalf_unauthentic
  rw [← smallDenied] at hhalf
  obtain ⟨-, hstash, -, -, hroot⟩ := hrefused _ _ hhalf ⟨0, by decide +kernel⟩
  obtain ⟨hserved, -⟩ := Tampered.end_to_end smallTreesNotes_inj MemPageStore.fronts_keptByFlush
    MemPageStore.fronts_keptByFlush MemPageStore.keptByFlush MemPageStore.diskErrors MemPageStore.diskErrors
    smallTrees_hostile smallResumed_tampered smallAgain (by decide +kernel)
  obtain ⟨s', hrun⟩ := Eff.run_of_result (show (smallAgain.run smallResumed).1 = .ok [[9]] by decide +kernel)
  exact ⟨smallHalf_unauthentic, by decide +kernel, hstash, hroot, s', hrun, hserved _ s' hrun⟩

end
end BpirOram
