/-
  BpirOram.Circuit.Rounds — online calls with a drain after each.

  The readers over a controller serve all they are asked for in rounds: an online call, then
  a drain (`Round`). How many paths the call takes and what the drain may spend is public.
  - `Rounds.oblivious`: what the stores see of some rounds is a function of these numbers
    and of the leaves of the online paths, and the leaves are draws, none used twice.
  - `card_viewOf`: which draws these are does not show: any others would show any one view for
    as many streams of random words.
-/

import BpirOram.Circuit.Fresh
import BpirOram.Lib.Streams

namespace BpirOram

open Lib

variable {M P M₀ P₀ S ρ : Type} {p : OramParams}

/-! ## Rounds -/

/-- How many paths the online call of a round goes through, and the budget of its drain. -/
structure Round where
  paths : Nat
  budget : UInt64
  deriving DecidableEq, Repr

namespace Round

/-- The schedule after a round. -/
def after (r : Round) (schedule : CircuitEvictionSchedule) : CircuitEvictionSchedule :=
  match (schedule.record r.paths).pendingEvictions with
  | .ok pending => (schedule.record r.paths).advance (min r.budget pending).toNat
  | .error _ => schedule.record r.paths

/-- The requests of a round whose online call goes through these leaves. -/
def requests (p : OramParams) (schedule : CircuitEvictionSchedule) (leaves : List UInt32) (r : Round) : List PageRequest :=
  exchange (leaves.flatMap p.pathNodes) ++ exchange (CircuitOram.drainNodes p (schedule.record r.paths) r.budget)

end Round

/-- The requests of some rounds, given the leaves of all their online paths. -/
def roundsRequests (p : OramParams) : List Round → CircuitEvictionSchedule → List UInt32 → List PageRequest
  | [], _, _ => []
  | r :: rounds, schedule, leaves =>
    r.requests p schedule (leaves.take r.paths) ++ roundsRequests p rounds (r.after schedule) (leaves.drop r.paths)

/-- The paths of some rounds, together. -/
def pathsOf (rounds : List Round) : Nat := (rounds.map (·.paths)).sum

theorem pathsOf_cons (r : Round) (rounds : List Round) : pathsOf (r :: rounds) = r.paths + pathsOf rounds := by
  rw [pathsOf, List.map_cons, List.sum_cons, pathsOf]

theorem pathsOf_append (rounds rounds' : List Round) : pathsOf (rounds ++ rounds') = pathsOf rounds + pathsOf rounds' := by
  rw [pathsOf, List.map_append, List.sum_append, pathsOf, pathsOf]

section
variable [Rng ρ]

/-- The paths that a call goes through online. -/
def Op.paths : Op → Nat
  | access _ _ => 1
  | accessBatch logicalIds _ => logicalIds.length
  | dummyAccess => 1
  | dummyAccessBatch count => count
  | drainEvictions _ => 0

theorem Op.onlineLeaves_length (op : Op) (c : Controller ρ) : (op.onlineLeaves c).length = op.paths := by
  cases op with
  | access logicalId update => rfl
  | accessBatch logicalIds update => simp [onlineLeaves, paths, batchAccessLeaves, scanPosMapLookupBatch_eq]
  | dummyAccess => rfl
  | dummyAccessBatch count => exact randomLeaves_length _ _ _
  | drainEvictions budget => rfl

omit [Rng ρ] in
theorem Effect.frame {c c' : Controller ρ} {posMap : List UInt32} {rng : ρ} {n : Nat} (h : Effect c posMap rng n c') :
    c'.params = c.params ∧ c'.schedule = c.schedule.record n := by
  obtain ⟨⟨stash, rfl⟩, -⟩ := h
  exact ⟨rfl, rfl⟩

variable [PathPageStore M] [PathPageStore P] {s s₁ s₂ t u : CircuitOram M P ρ} {op : Op} {outs : List Bytes}

/-- An online call counts its paths. -/
theorem Op.Online.frame (hop : op.Online) (hrun : op.run s = (.ok outs, s₁)) :
    s₁.params = s.params ∧ s₁.schedule = s.schedule.record op.paths := by
  cases op with
  | access logicalId update =>
    obtain ⟨out, t, haccess, hlast⟩ := Eff.bind_eq_ok hrun
    cases hlast
    exact (access_effect haccess).2.frame
  | accessBatch logicalIds update => exact (accessBatch_effect hrun).2.frame
  | dummyAccess =>
    obtain ⟨⟨⟩, t, hdummy, hlast⟩ := Eff.bind_eq_ok hrun
    cases hlast
    exact (dummyAccess_effect hdummy).frame
  | dummyAccessBatch count =>
    obtain ⟨⟨⟩, t, hdummy, hlast⟩ := Eff.bind_eq_ok hrun
    cases hlast
    exact (dummyAccessBatch_effect hdummy).frame
  | drainEvictions budget => exact hop.elim

/-- Rounds whose calls end well: the calls, and the leaves of their online paths. -/
inductive Rounds : CircuitOram M P ρ → List Round → List Op → List UInt32 → CircuitOram M P ρ → Prop
  | nil (s : CircuitOram M P ρ) : Rounds s [] [] [] s
  | round {s s₁ s₂ t : CircuitOram M P ρ} {op : Op} {outs : List Bytes} {budget drained : UInt64} {rounds : List Round}
      {ops : List Op} {leaves : List UInt32} : op.Online → op.run s = (.ok outs, s₁) →
      CircuitOram.drainEvictions budget s₁ = (.ok drained, s₂) → Rounds s₂ rounds ops leaves t →
      Rounds s (⟨op.paths, budget⟩ :: rounds) (op :: .drainEvictions budget :: ops)
        (op.onlineLeaves s.toController ++ leaves) t

variable {rounds rounds' : List Round} {ops ops' : List Op} {leaves leaves' : List UInt32} {budget drained : UInt64}

theorem Rounds.append (h : Rounds s rounds ops leaves t) (h' : Rounds t rounds' ops' leaves' u) :
    Rounds s (rounds ++ rounds') (ops ++ ops') (leaves ++ leaves') u := by
  induction h with
  | nil s => exact h'
  | round hop hrun hdrain _ ih =>
    rw [List.append_assoc]
    exact .round hop hrun hdrain (ih h')

theorem Rounds.leaves_length (h : Rounds s rounds ops leaves t) : leaves.length = pathsOf rounds := by
  induction h with
  | nil s => rfl
  | round _ _ _ _ ih => rw [List.length_append, Op.onlineLeaves_length, ih, pathsOf_cons]

theorem Rounds.onlineRun (h : Rounds s rounds ops leaves t) : OnlineRun s ops leaves t := by
  induction h with
  | nil s => exact .nil s
  | @round s s₁ s₂ t op outs budget drained rounds ops leaves _ hrun hdrain _ ih =>
    have hlast : (Op.drainEvictions budget).run s₁ = (.ok [], s₂) := Eff.bind_ok hdrain
    exact .call hrun (.call hlast ih)

/-! ## One round -/

theorem Rounds.one (hrun : op.run s = (.ok outs, s₁)) (hop : op.Online)
    (hdrain : CircuitOram.drainEvictions budget s₁ = (.ok drained, s₂)) :
    ∃ leaves, Rounds s [⟨op.paths, budget⟩] [op, .drainEvictions budget] leaves s₂ :=
  ⟨_, .round hop hrun hdrain (.nil s₂)⟩

theorem Rounds.read {logicalId : UInt64} {out : Bytes} (hread : CircuitOram.read logicalId s = (.ok out, s₁))
    (hdrain : CircuitOram.drainEvictions budget s₁ = (.ok drained, s₂)) :
    ∃ leaves, Rounds s [⟨1, budget⟩] [.access logicalId .keep, .drainEvictions budget] leaves s₂ :=
  have hrun : (Op.access logicalId .keep).run s = (.ok [out], s₁) := Eff.bind_ok hread
  Rounds.one hrun trivial hdrain

theorem Rounds.readBatch {logicalIds : List UInt64} (hread : CircuitOram.readBatch logicalIds s = (.ok outs, s₁))
    (hdrain : CircuitOram.drainEvictions budget s₁ = (.ok drained, s₂)) :
    ∃ leaves, Rounds s [⟨logicalIds.length, budget⟩]
      [.accessBatch logicalIds fun _ _ => .keep, .drainEvictions budget] leaves s₂ :=
  have hrun : (Op.accessBatch logicalIds fun _ _ => .keep).run s = (.ok outs, s₁) := hread
  Rounds.one hrun trivial hdrain

theorem Rounds.dummyAccess (hdummy : CircuitOram.dummyAccess s = (.ok (), s₁))
    (hdrain : CircuitOram.drainEvictions budget s₁ = (.ok drained, s₂)) :
    ∃ leaves, Rounds s [⟨1, budget⟩] [.dummyAccess, .drainEvictions budget] leaves s₂ :=
  have hrun : Op.dummyAccess.run s = (.ok [], s₁) := Eff.bind_ok hdummy
  Rounds.one hrun trivial hdrain

theorem Rounds.dummyAccessBatch {count : Nat} (hdummy : CircuitOram.dummyAccessBatch count s = (.ok (), s₁))
    (hdrain : CircuitOram.drainEvictions budget s₁ = (.ok drained, s₂)) :
    ∃ leaves, Rounds s [⟨count, budget⟩] [.dummyAccessBatch count, .drainEvictions budget] leaves s₂ :=
  have hrun : (Op.dummyAccessBatch count).run s = (.ok [], s₁) := Eff.bind_ok hdummy
  Rounds.one hrun trivial hdrain

/-! ## Sessions -/

/-- Calls on a reader, one after the other, that all end well. -/
inductive Session {Q C : Type} (Ends : Q → C → Q → Prop) : Q → List C → Q → Prop
  | nil (q : Q) : Session Ends q [] q
  | call {q q₁ q' : Q} {c : C} {calls : List C} : Ends q c q₁ → Session Ends q₁ calls q' →
      Session Ends q (c :: calls) q'

/-- A session goes through the rounds of its calls, and asks what they ask. -/
theorem Session.inRounds {Q C : Type} {Ends : Q → C → Q → Prop} (I : Q → Prop) (oram : Q → CircuitOram M P ρ)
    (roundsOf : C → List Round) (Asks : C → List Op → Prop) (hstep : ∀ {q c q'}, I q → Ends q c q' →
      I q' ∧ ∃ ops leaves, Asks c ops ∧ Rounds (oram q) (roundsOf c) ops leaves (oram q'))
    {q q' : Q} {calls : List C} (h : Session Ends q calls q') (hq : I q) :
    ∃ opss leaves, List.Forall₂ Asks calls opss ∧
      Rounds (oram q) (calls.flatMap roundsOf) opss.flatten leaves (oram q') := by
  induction h with
  | nil q => exact ⟨[], [], .nil, .nil _⟩
  | call hends _ ih =>
    obtain ⟨hq₁, ops, leaves, hasks, hfirst⟩ := hstep hq hends
    obtain ⟨opss, rest, hall, hrest⟩ := ih hq₁
    exact ⟨ops :: opss, leaves ++ rest, .cons hasks hall, hfirst.append hrest⟩

end

/-! ## The draws of some calls -/

/-- The ids a call asks for are ids of blocks. -/
def Op.IdsIn (n : Nat) : Op → Prop
  | access logicalId _ => logicalId.toNat < n
  | accessBatch logicalIds _ => ∀ id ∈ logicalIds, id.toNat < n
  | _ => True

theorem Op.spend_length (op : Op) (l : Ledger Nat) : (op.spend l).1.length = op.paths := by
  cases op with
  | access logicalId update => rfl
  | accessBatch logicalIds update => exact (Ledger.serveAll_length _ _).trans (List.length_map _)
  | dummyAccess => rfl
  | dummyAccessBatch count => exact List.length_range'
  | drainEvictions budget => rfl

theorem Op.spend_next (op : Op) (l : Ledger Nat) : (op.spend l).2.next = l.next + op.paths := by
  cases op with
  | access logicalId update => rfl
  | accessBatch logicalIds update =>
    rw [spend, Ledger.serveAll_next, List.length_map]
    rfl
  | dummyAccess => rfl
  | dummyAccessBatch count => rfl
  | drainEvictions budget => rfl

theorem Op.IdsIn.sound {n : Nat} {op : Op} (hop : op.IdsIn n) {l : Ledger Nat} {spent : List Nat} (h : l.Sound (· < n) spent) :
    (op.spend l).2.Sound (· < n) (spent ++ (op.spend l).1) := by
  cases op with
  | access logicalId update => exact h.serveAll fun k hk => by rw [List.mem_singleton.mp hk]; exact hop
  | accessBatch logicalIds update =>
    refine h.serveAll fun k hk => ?_
    obtain ⟨id, hid, rfl⟩ := List.mem_map.mp hk
    exact hop id hid
  | dummyAccess => exact h.skip 1
  | dummyAccessBatch count => exact h.skip count
  | drainEvictions budget => rwa [Op.spend, List.append_nil]

theorem spendAll_sound {n : Nat} {ops : List Op} (hops : ∀ op ∈ ops, op.IdsIn n) {l : Ledger Nat} {spent : List Nat}
    (h : l.Sound (· < n) spent) : (spendAll ops l).2.Sound (· < n) (spent ++ (spendAll ops l).1) ∧
      (spendAll ops l).1.length = (ops.map Op.paths).sum ∧ (spendAll ops l).2.next = l.next + (ops.map Op.paths).sum := by
  induction ops generalizing l spent with
  | nil => exact ⟨by rwa [spendAll, List.append_nil], rfl, rfl⟩
  | cons op ops ih =>
    have hfirst := (hops op (by simp)).sound h
    obtain ⟨hrest, hlen, hnext⟩ := ih (fun x hx => hops x (by simp [hx])) hfirst
    rw [spendAll, List.map_cons, List.sum_cons, List.length_append, op.spend_length, hlen, hnext, op.spend_next, Nat.add_assoc]
    exact ⟨by rwa [List.append_assoc] at hrest, rfl, rfl⟩

/-- The draws that some calls spend on a controller that was built. -/
def drawsOf (n : Nat) (ops : List Op) : List Nat := (spendAll ops (.start n)).1

theorem drawsOf_spec {n : Nat} {ops : List Op} (hops : ∀ op ∈ ops, op.IdsIn n) : (drawsOf n ops).Nodup ∧
    (drawsOf n ops).length = (ops.map Op.paths).sum ∧ ∀ d ∈ drawsOf n ops, d < n + (ops.map Op.paths).sum := by
  obtain ⟨hsound, hlen, hnext⟩ := spendAll_sound hops (Ledger.start_sound n)
  rw [List.nil_append] at hsound
  refine ⟨hsound.nodup, hlen, fun d hd => ?_⟩
  have hlt := hsound.spent_lt d hd
  rwa [hnext] at hlt

/-- The leaf that a word of the generator stands for. -/
def leafOfWord (p : OramParams) (word : UInt64) : UInt32 := UInt32.ofNat (word.toNat &&& (p.leaves - 1))

/-- What the stores see of some rounds at these draws of a stream. -/
def viewOf {n : Nat} (p : OramParams) (rounds : List Round) (draws : List Nat) (words : Fin n → UInt64) : List PageRequest :=
  roundsRequests p rounds (.new p) ((draws.map (wordAt words)).map (leafOfWord p))

/-- The first words of a generator. -/
def wordsOf [Rng ρ] (rng : ρ) (n : Nat) (k : Fin n) : UInt64 := (Rng.nextU64 (rngAfter rng k)).1

theorem viewOf_wordsOf [Rng ρ] {n : Nat} {rounds : List Round} {draws : List Nat} (hdraws : ∀ d ∈ draws, d < n) (rng : ρ) :
    viewOf p rounds draws (wordsOf rng n) = roundsRequests p rounds (.new p) (draws.map (drawLeaf p rng)) := by
  rw [viewOf, List.map_map]
  refine congrArg _ (List.map_congr_left fun d hd => ?_)
  rw [Function.comp_apply, wordAt, dif_pos (hdraws d hd)]
  rfl

theorem card_viewOf {n : Nat} {rounds : List Round} {draws draws' : List Nat} (h : draws.Nodup) (h' : draws'.Nodup)
    (hlen : draws.length = draws'.length) (hlt : ∀ d ∈ draws, d < n) (hlt' : ∀ d ∈ draws', d < n)
    (view : List PageRequest) :
    Nat.card {words : Fin n → UInt64 // viewOf p rounds draws words = view}
      = Nat.card {words : Fin n → UInt64 // viewOf p rounds draws' words = view} :=
  card_words_at (fun words => roundsRequests p rounds (.new p) (words.map (leafOfWord p))) h h' hlen hlt hlt' view

/-! ## What the stores see -/

section
variable [Rng ρ] [PageStore M] [PageStore P] {s t : CircuitOram (TracingStore M) (TracingStore P) ρ} {rounds : List Round}
  {ops : List Op} {leaves : List UInt32}

theorem Rounds.received (h : Rounds s rounds ops leaves t) :
    Received CircuitOram.seen s (roundsRequests s.params rounds s.schedule leaves) t := by
  induction h with
  | nil s => exact .nil rfl
  | @round s s₁ s₂ t op outs budget drained rounds ops leaves hop hrun hdrain _ ih =>
    have honline := (op.run_issues hop s).all _ _ hrun
    have hpaths := (CircuitOram.drainEvictions_issues budget s₁).all _ _ hdrain
    obtain ⟨hparams, hschedule⟩ := hop.frame hrun
    obtain ⟨pending, hpending, rfl, stash, hstate⟩ := drainEvictions_effect hdrain
    have hparams₂ : s₂.params = s.params := (congrArg Controller.params hstate).trans hparams
    have hschedule₂ : s₂.schedule = Round.after ⟨op.paths, budget⟩ s.schedule := by
      rw [hschedule] at hpending
      rw [Round.after, hpending]
      exact (congrArg Controller.schedule hstate).trans (by rw [hschedule])
    have hlen := op.onlineLeaves_length s.toController
    rw [roundsRequests, Round.requests, List.take_left' hlen, List.drop_left' hlen, ← hschedule₂, ← hparams₂]
    rw [hparams, hschedule, ← hparams₂] at hpaths
    rw [← hparams₂] at honline
    exact (honline.append hpaths).append ih

/-- Rounds on a controller that was built: the draws that their calls spend are the leaves of
    the online paths, and with these leaves the rounds say what the stores see. -/
theorem Rounds.oblivious [PageStore M₀] [PageStore P₀] [TrustedBlockSource S] {metaStore : M₀} {payloadStore : P₀}
    {source : S} {seed : FixedBytes 32} {s₀ : CircuitOram M₀ P₀ ρ}
    (hbuild : CircuitOram.buildTrustedFromSource p metaStore payloadStore source seed = .ok s₀)
    (hsame : s.toController = s₀.toController) (h : Rounds s rounds ops leaves t) :
    (drawsOf p.logicalBlocks ops).Nodup ∧ (drawsOf p.logicalBlocks ops).length = pathsOf rounds ∧
    Received CircuitOram.seen s (roundsRequests p rounds (.new p)
      ((drawsOf p.logicalBlocks ops).map (drawLeaf p (Rng.fromSeed seed : ρ)))) t := by
  have hstart := buildTrustedFromSource_follows hbuild
  rw [← hsame] at hstart
  have hschedule : s.schedule = .new p := by
    obtain ⟨plan, stash, metaStore', payloadStore', -, rfl⟩ := buildTrustedFromSource_state hbuild
    exact congrArg Controller.schedule hsame
  obtain ⟨hleaves, -, hsound⟩ := h.onlineRun.follows hstart (Ledger.start_sound _)
  rw [List.nil_append] at hsound
  have hreceived := h.received
  have hlength := h.leaves_length
  rw [hleaves, List.length_map] at hlength
  rw [hstart.params, hschedule, hleaves] at hreceived
  exact ⟨hsound.nodup, hlength, hreceived⟩

/-- What a session asks of the controller says which draws its online paths spend, each of
    them once; with these for leaves, its rounds say what the stores see. -/
theorem Session.oblivious [PageStore M₀] [PageStore P₀] [TrustedBlockSource S] {metaStore : M₀} {payloadStore : P₀}
    {source : S} {seed : FixedBytes 32} {s₀ : CircuitOram M₀ P₀ ρ}
    (hbuild : CircuitOram.buildTrustedFromSource p metaStore payloadStore source seed = .ok s₀) {Q C : Type}
    {Ends : Q → C → Q → Prop} (I : Q → Prop) (oram : Q → CircuitOram (TracingStore M) (TracingStore P) ρ)
    (roundsOf : C → List Round) {Asks : C → List Op → Prop} (hunique : Relator.RightUnique Asks)
    (hstep : ∀ {q c q'}, I q → Ends q c q' → I q' ∧ ∃ ops leaves, Asks c ops ∧
      Rounds (oram q) (roundsOf c) ops leaves (oram q'))
    {q q' : Q} {calls : List C} (h : Session Ends q calls q') (hq : I q) (hsame : (oram q).toController = s₀.toController) :
    (∃ opss, List.Forall₂ Asks calls opss) ∧
      ∀ opss draws, List.Forall₂ Asks calls opss → drawsOf p.logicalBlocks opss.flatten = draws →
        draws.Nodup ∧ draws.length = pathsOf (calls.flatMap roundsOf) ∧
        Received CircuitOram.seen (oram q) (roundsRequests p (calls.flatMap roundsOf) (.new p)
          (draws.map (drawLeaf p (Rng.fromSeed seed : ρ)))) (oram q') := by
  obtain ⟨opss, leaves, hasks, hrounds⟩ := h.inRounds I oram roundsOf Asks hstep hq
  refine ⟨⟨opss, hasks⟩, ?_⟩
  rintro opss' _ hasks' rfl
  obtain rfl := hunique.forall₂ hasks hasks'
  exact hrounds.oblivious hbuild hsame

end

/-- A controller whose stores are traced from here on. -/
def CircuitOram.traced (s : CircuitOram M P ρ) : CircuitOram (TracingStore M) (TracingStore P) ρ :=
  { s.toController with
    metaStore := { inner := s.metaStore, trace := [] }
    payloadStore := { inner := s.payloadStore, trace := [] } }

theorem CircuitOram.traced_toController (s : CircuitOram M P ρ) : s.traced.toController = s.toController := rfl

end BpirOram
