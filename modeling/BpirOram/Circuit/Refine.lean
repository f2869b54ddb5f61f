/-
  BpirOram.Circuit.Refine — every operation of `CircuitOram` over two stores that keep
  their contracts is the operation of `Blocks`, under some fault the contracts allow.

  `Rel` relates the states: same controller, and each store represents its half of the
  tree's buckets. An operation ends in an error after which a contract promises nothing,
  or as the block operation does, in related states.
-/

import BpirOram.Circuit.EvictPages

namespace BpirOram

open Lib

variable {M P ρ α β : Type} {p : OramParams}

/-- A path from the root to a leaf is a root path of the tree. -/
theorem pathNodes_rootPath (p : OramParams) {leaf : UInt32} (h : leaf.toNat < p.leaves) :
    RootPath p.bucketCount (p.pathNodes leaf) where
  head := by
    rw [OramParams.pathNodes, OramParams.height, List.range_succ_eq_map, List.map_cons, List.head?_cons]
    rfl
  chain := by
    rw [List.isChain_iff_getElem]
    intro d hd
    rw [p.pathNodes_length] at hd
    rw [p.pathNodes_getElem, p.pathNodes_getElem]
    exact p.nodeIndex_succ hd h
  lt := p.pathNodes_lt h

abbrev MetaContract (M : Type) [PathPageStore M] (p : OramParams) :=
  PathContract M p.bucketCount (circuitMetaPageBytes p.bucketSize)

abbrev PayloadContract (P : Type) [PathPageStore P] (p : OramParams) :=
  PathContract P p.bucketCount (circuitPayloadPageBytes p.bucketSize p.blockSize)

/-- The pages of a tree. -/
def metaPages (tree : Nat → List OramBlock) : Nat → Bytes := fun i => metaPage (tree i)

def payloadPages (tree : Nat → List OramBlock) : Nat → Bytes := fun i => payloadPage (tree i)

section
variable [PathPageStore M] [PathPageStore P] (LM : MetaContract M p) (LP : PayloadContract P p)

structure Rel (s : CircuitOram M P ρ) (b : Blocks ρ) : Prop where
  controller : s.toController = b.toController
  shape : b.Shape p
  metaRep : LM.Rep (metaPages b.tree) s.metaStore
  payloadRep : LP.Rep (payloadPages b.tree) s.payloadStore

/-- The faults the two contracts allow. -/
def Allowed : Fault → Prop
  | .none => True
  | .metaRead e => LM.ReadFails e
  | .payloadRead e => LP.ReadFails e
  | .metaWrite e => LM.WriteFails e
  | .payloadWrite e => LP.WriteFails e

/-- How a run over stores stands to the runs over blocks. -/
def Outcome (r : Result α × CircuitOram M P ρ) (n : Fault → Result α × Blocks ρ) : Prop :=
  (∃ e, r.1 = .error e ∧ (LM.Dead e ∨ LP.Dead e)) ∨
    ∃ fault, Allowed LM LP fault ∧ r.1 = (n fault).1 ∧ Rel LM LP r.2 (n fault).2

end

section
variable [PathPageStore M] [PathPageStore P] {LM : MetaContract M p} {LP : PayloadContract P p}
  {s : CircuitOram M P ρ} {b : Blocks ρ}

theorem Rel.params (h : Rel LM LP s b) : s.params = p :=
  (congrArg Controller.params h.controller).trans h.shape.controller.params

/-! ## Composing -/

theorem Rel.onController {m : Eff Error (Controller ρ) α} (hm : Eff.Keeps (Controller.Shape p) m) :
    Eff.Sim (Rel LM LP) (CircuitOram.onController m) (Blocks.onController m) := by
  intro s b h
  have hc := h.controller
  refine ⟨by simp only [CircuitOram.onController, Blocks.onController, Eff.zoom, hc], ?_⟩
  simp only [CircuitOram.onController, Blocks.onController, Eff.zoom]
  exact
    { controller := by rw [hc]
      shape := ⟨hm _ h.shape.controller, h.shape.tree⟩
      metaRep := h.metaRep
      payloadRep := h.payloadRep }

/-- A run without a store call. -/
theorem Outcome.of_eq {x : Result α} {n : Fault → Result α × Blocks ρ} (h : Rel LM LP s b) (hn : n .none = (x, b)) :
    Outcome LM LP (x, s) n :=
  .inr ⟨.none, trivial, by rw [hn], by rw [hn]; exact h⟩

theorem Outcome.congr {r : Result α × CircuitOram M P ρ} {n n' : Fault → Result α × Blocks ρ} (h : Outcome LM LP r n)
    (hn : ∀ fault, n fault = n' fault) : Outcome LM LP r n' := by
  rwa [← funext hn]

theorem Outcome.of_sim {m : Eff Error (CircuitOram M P ρ) α} {n : Eff Error (Blocks ρ) α} (h : Rel LM LP s b)
    (hs : Eff.Sim (Rel LM LP) m n) : Outcome LM LP (m s) fun _ => n b :=
  .inr ⟨.none, trivial, hs s b h⟩

/-- What follows a store operation touches no store. -/
theorem Outcome.bind {m : Eff Error (CircuitOram M P ρ) α} {n : Fault → Eff Error (Blocks ρ) α}
    {f : α → Eff Error (CircuitOram M P ρ) β} {g : α → Eff Error (Blocks ρ) β}
    (h : Outcome LM LP (m s) fun fault => n fault b) (hf : ∀ a, Eff.Sim (Rel LM LP) (f a) (g a)) :
    Outcome LM LP ((m >>= f) s) fun fault => (n fault >>= g) b := by
  rcases h with ⟨e, he, hd⟩ | ⟨fault, ha, h1, h2⟩
  · exact .inl ⟨e, by rw [Eff.bind_error (Prod.ext he rfl)], hd⟩
  · refine .inr ⟨fault, ha, ?_⟩
    change (m s).1 = (n fault b).1 at h1
    change Rel LM LP (m s).2 (n fault b).2 at h2
    change ((m >>= f) s).1 = ((n fault >>= g) b).1 ∧ Rel LM LP ((m >>= f) s).2 ((n fault >>= g) b).2
    rcases hm : m s with ⟨_ | a, t⟩ <;> rw [hm] at h1 h2 <;> rcases hn : n fault b with ⟨_ | a', u⟩ <;>
      rw [hn] at h1 h2 <;> cases h1
    · rw [Eff.bind_error hm, Eff.bind_error hn]
      exact ⟨rfl, h2⟩
    · rw [Eff.bind_ok hm, Eff.bind_ok hn]
      exact hf a t u h2

/-! ## The store calls of an operation -/

/-- Both reads: the first that fails ends the operation with everything as it was. -/
theorem read_outcome {δ ε : Type} {rm : Eff Error M δ} {rp : Eff Error P ε} {vm : δ} {vp : ε} {paths : List (List Nat)}
    {k : δ → ε → Eff Error (CircuitOram M P ρ) α} {body : Eff Error (Blocks ρ) α} (h : Rel LM LP s b)
    (hm : LM.ReadOutcome (metaPages b.tree) paths vm (rm s.metaStore))
    (hp : LP.ReadOutcome (payloadPages b.tree) paths vp (rp s.payloadStore))
    (hk : ∀ t : CircuitOram M P ρ, Rel LM LP t b → LM.Ready paths t.metaStore → LP.Ready paths t.payloadStore →
      Outcome LM LP (k vm vp t) fun fault => Blocks.bracket fault body b) :
    Outcome LM LP ((CircuitOram.onMeta rm >>= fun x => CircuitOram.onPayload rp >>= fun y => k x y) s)
      fun fault => Blocks.bracket fault body b := by
  generalize hrm : rm s.metaStore = r at hm
  cases hm with
  | @failed e t hf hrep =>
    have hrun : CircuitOram.onMeta rm s = (.error e, { s with metaStore := t }) := by
      simp only [CircuitOram.onMeta, Eff.zoom, hrm]
    rw [Eff.bind_error hrun]
    exact .inr ⟨.metaRead e, hf, rfl, { h with metaRep := hrep }⟩
  | @ok t hrep hready =>
    have hrun : CircuitOram.onMeta rm s = (.ok vm, { s with metaStore := t }) := by
      simp only [CircuitOram.onMeta, Eff.zoom, hrm]
    rw [Eff.bind_ok hrun]
    generalize hrp : rp s.payloadStore = r at hp
    cases hp with
    | @failed e u hf hrep' =>
      have hrun' : CircuitOram.onPayload rp { s with metaStore := t }
          = (.error e, { s with metaStore := t, payloadStore := u }) := by
        simp only [CircuitOram.onPayload, Eff.zoom, hrp]
      rw [Eff.bind_error hrun']
      exact .inr ⟨.payloadRead e, hf, rfl, { h with metaRep := hrep, payloadRep := hrep' }⟩
    | @ok u hrep' hready' =>
      have hrun' : CircuitOram.onPayload rp { s with metaStore := t }
          = (.ok vp, { s with metaStore := t, payloadStore := u }) := by
        simp only [CircuitOram.onPayload, Eff.zoom, hrp]
      rw [Eff.bind_ok hrun']
      exact hk _ { h with metaRep := hrep, payloadRep := hrep' } hready hready'

theorem map_metaSlot_mixPages {new old : List OramBlock} (h : new.length = old.length) :
    (mixPages new old).map (·.metaSlot) = new.map (·.metaSlot) := by
  induction new generalizing old with
  | nil => rfl
  | cons a new ih =>
    cases old with
    | nil => cases h
    | cons c old => exact congrArg (a.metaSlot :: ·) (ih (by simpa using h))

theorem map_payload_mixPages {new old : List OramBlock} (h : new.length = old.length) :
    (mixPages new old).map (·.payload) = old.map (·.payload) := by
  induction new generalizing old with
  | nil => cases old <;> first | rfl | cases h
  | cons a new ih =>
    cases old with
    | nil => cases h
    | cons c old => exact congrArg (c.payload :: ·) (ih (by simpa using h))

theorem mixPages_shape {z n : Nat} {new old : List OramBlock} (hn : BucketShape z n new) (ho : BucketShape z n old) :
    BucketShape z n (mixPages new old) where
  slots := by rw [mixPages, List.length_zipWith, hn.slots, ho.slots, Nat.min_self]
  payload := by
    intro x hx
    have hm := List.mem_map_of_mem (f := (·.payload)) hx
    rw [map_payload_mixPages (hn.slots.trans ho.slots.symm)] at hm
    obtain ⟨c, hc, he⟩ := List.mem_map.mp hm
    rw [← he]
    exact ho.payload c hc

theorem metaPage_mixPages {new old : List OramBlock} (h : new.length = old.length) :
    metaPage (mixPages new old) = metaPage new := by
  have hm := congrArg (List.map CircuitMetaSlot.bytes) (map_metaSlot_mixPages h)
  rw [List.map_map, List.map_map] at hm
  exact congrArg List.flatten hm

theorem payloadPage_mixPages {new old : List OramBlock} (h : new.length = old.length) :
    payloadPage (mixPages new old) = payloadPage old :=
  congrArg List.flatten (map_payload_mixPages h)

/-- Both writes, after the operation's work `body` took `b₀` to `b`: what each failure
    leaves is what `bracket` says. -/
theorem write_outcome {b₀ : Blocks ρ} (nodes : List Nat) {a : α} {body : Eff Error (Blocks ρ) α}
    {wm : Eff Error M Unit} {wp : Eff Error P Unit} (hbody : body b₀ = (.ok a, b))
    (hc : s.toController = b.toController) (hshape : b.Shape p)
    (hold : ∀ i < p.bucketCount, BucketShape p.bucketSize p.blockSize (b₀.tree i))
    (hout : ∀ i ∉ nodes, b.tree i = b₀.tree i) (hp₀ : LP.Rep (payloadPages b₀.tree) s.payloadStore)
    (hm : LM.WriteOutcome (metaPages b₀.tree) (patch nodes (metaPages b.tree) (metaPages b₀.tree)) (wm s.metaStore))
    (hp : LP.WriteOutcome (payloadPages b₀.tree) (patch nodes (payloadPages b.tree) (payloadPages b₀.tree))
      (wp s.payloadStore)) :
    Outcome LM LP ((CircuitOram.onMeta wm >>= fun _ => CircuitOram.onPayload wp >>= fun _ => pure a) s)
      fun fault => Blocks.bracket fault body b₀ := by
  have hpatch : ∀ f : List OramBlock → Bytes, patch nodes (fun i => f (b.tree i)) (fun i => f (b₀.tree i))
      = fun i => f (b.tree i) := by
    intro f
    funext i
    by_cases hi : i ∈ nodes
    · simp [patch, hi]
    · simp [patch, hi, hout i hi]
  rw [show patch nodes (metaPages b.tree) (metaPages b₀.tree) = metaPages b.tree from hpatch metaPage] at hm
  rw [show patch nodes (payloadPages b.tree) (payloadPages b₀.tree) = payloadPages b.tree from hpatch payloadPage] at hp
  generalize hwm : wm s.metaStore = r at hm
  cases hm with
  | @dead e t hd =>
    have hrun : CircuitOram.onMeta wm s = (.error e, { s with metaStore := t }) := by
      simp only [CircuitOram.onMeta, Eff.zoom, hwm]
    rw [Eff.bind_error hrun]
    exact .inl ⟨e, rfl, .inl hd⟩
  | @failed e t hf hrep =>
    have hrun : CircuitOram.onMeta wm s = (.error e, { s with metaStore := t }) := by
      simp only [CircuitOram.onMeta, Eff.zoom, hwm]
    rw [Eff.bind_error hrun]
    refine .inr ⟨.metaWrite e, hf, by simp only [Blocks.bracket, hbody], ?_⟩
    simp only [Blocks.bracket, hbody]
    exact { controller := hc, shape := ⟨hshape.controller, hold⟩, metaRep := hrep, payloadRep := hp₀ }
  | @ok t hrep =>
    have hrun : CircuitOram.onMeta wm s = (.ok (), { s with metaStore := t }) := by
      simp only [CircuitOram.onMeta, Eff.zoom, hwm]
    rw [Eff.bind_ok hrun]
    generalize hwp : wp s.payloadStore = r at hp
    have hrun' : CircuitOram.onPayload wp { s with metaStore := t } = (r.1, { s with metaStore := t, payloadStore := r.2 }) := by
      simp only [CircuitOram.onPayload, Eff.zoom, hwp]
    cases hp with
    | @dead e u hd =>
      rw [Eff.bind_error hrun']
      exact .inl ⟨e, rfl, .inr hd⟩
    | @failed e u hf hrep' =>
      rw [Eff.bind_error hrun']
      have hlen : ∀ i < p.bucketCount, (b.tree i).length = (b₀.tree i).length := fun i hi => by
        rw [(hshape.tree i hi).slots, (hold i hi).slots]
      refine .inr ⟨.payloadWrite e, hf, by simp only [Blocks.bracket, hbody], ?_⟩
      simp only [Blocks.bracket, hbody]
      exact
        { controller := hc
          shape := ⟨hshape.controller, fun i hi => mixPages_shape (hshape.tree i hi) (hold i hi)⟩
          metaRep := LM.congr hrep fun i hi => (metaPage_mixPages (hlen i hi)).symm
          payloadRep := LP.congr hrep' fun i hi => (payloadPage_mixPages (hlen i hi)).symm }
    | @ok u hrep' =>
      rw [Eff.bind_ok hrun']
      refine .inr ⟨.none, trivial, by simp only [Blocks.bracket, hbody]; rfl, ?_⟩
      simp only [Blocks.bracket, hbody]
      exact { controller := hc, shape := hshape, metaRep := hrep, payloadRep := hrep' }

/-- Work that fails before the writes: the tree is as it was. -/
theorem failed_outcome {b₀ b' : Blocks ρ} {e : Error} {body : Eff Error (Blocks ρ) α}
    (hbody : body b₀ = (.error e, b')) (h : Rel LM LP s { b' with tree := b₀.tree }) :
    Outcome LM LP (.error e, s) fun fault => Blocks.bracket fault body b₀ :=
  .inr ⟨.none, trivial, by simp only [Blocks.bracket, hbody], by simpa only [Blocks.bracket, hbody] using h⟩

end
end BpirOram
