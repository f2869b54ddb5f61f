/-
  BpirOram.Circuit.Controller — the trusted half of `CircuitOram` (`circuit.rs`): the
  position map, the stash, the generator and the schedule, and the steps that touch
  nothing else.

  The generator is a parameter: all that is used of it is `from_seed` and `next_u64`.
-/

import BpirOram.Circuit.Plan
import BpirOram.Circuit.Scan
import BpirOram.Schedule

namespace BpirOram

open Lib

/-- `ChaCha20Rng`, as far as the crate uses it. -/
class Rng (ρ : Type) where
  fromSeed : FixedBytes 32 → ρ
  nextU64 : ρ → UInt64 × ρ

/-- `FnOnce(&mut [u8])`: rewrites a payload in place, so keeps its length. -/
structure Update where
  apply : Bytes → Bytes
  length_apply : ∀ payload, (apply payload).length = payload.length

namespace Update

def keep : Update := ⟨id, fun _ => rfl⟩

/-- `copy_from_slice` of a payload of the right length. -/
def copyFrom (input : Bytes) : Update :=
  ⟨fun payload => if input.length = payload.length then input else payload, fun payload => by
    split
    · assumption
    · rfl⟩

end Update

structure Controller (ρ : Type) where
  params : OramParams
  posMap : List UInt32
  stash : List OramBlock
  rng : ρ
  schedule : CircuitEvictionSchedule

section
variable {ρ : Type} [Rng ρ]

def randomLeaf (p : OramParams) (rng : ρ) : UInt32 × ρ :=
  let draw := Rng.nextU64 rng
  (UInt32.ofNat (draw.1.toNat &&& (p.leaves - 1)), draw.2)

/-- `count` leaves in a row. -/
def randomLeaves (p : OramParams) : Nat → ρ → List UInt32 × ρ
  | 0, rng => ([], rng)
  | count + 1, rng =>
    let draw := randomLeaf p rng
    let rest := randomLeaves p count draw.2
    (draw.1 :: rest.1, rest.2)

theorem randomLeaf_lt (p : OramParams) (rng : ρ) : (randomLeaf p rng).1.toNat < p.leaves := by
  have hle : (Rng.nextU64 rng).1.toNat &&& (p.leaves - 1) ≤ p.leaves - 1 := Nat.and_le_right
  have := p.leaves_ge
  have := p.leaves_lt
  rw [randomLeaf, UInt32.toNat_ofNat', Nat.mod_eq_of_lt (by omega)]
  omega

@[simp] theorem randomLeaves_length (p : OramParams) (count : Nat) (rng : ρ) :
    (randomLeaves p count rng).1.length = count := by
  induction count generalizing rng with
  | zero => rfl
  | succ n ih => simp [randomLeaves, ih]

theorem randomLeaves_lt (p : OramParams) (count : Nat) (rng : ρ) :
    ∀ leaf ∈ (randomLeaves p count rng).1, leaf.toNat < p.leaves := by
  induction count generalizing rng with
  | zero => intro leaf h; cases h
  | succ n ih =>
    intro leaf h
    rcases List.mem_cons.mp h with rfl | h
    · exact randomLeaf_lt p rng
    · exact ih _ leaf h

end

namespace Controller

variable {ρ : Type}

def onSchedule {α : Type} (m : Eff Error CircuitEvictionSchedule α) : Eff Error (Controller ρ) α :=
  Eff.zoom (·.schedule) (fun schedule c => { c with schedule }) m

theorem forEach_onSchedule {α β : Type} (f : α → Eff Error CircuitEvictionSchedule β) (l : List α) :
    Eff.forEach (fun a => onSchedule (f a)) l = (onSchedule (Eff.forEach f l) : Eff Error (Controller ρ) (List β)) := by
  apply Eff.forEach_zoom <;> intros <;> rfl

def occupiedStashLen (c : Controller ρ) : Nat := c.stash.countP (·.occupied)

def checkStash : Eff Error (Controller ρ) Unit := do
  let c ← Eff.get
  if c.occupiedStashLen > c.params.stashCapacity then
    Eff.fail (.stashOverflow c.occupiedStashLen c.params.stashCapacity)
  else if c.stash.length ≠ c.params.stashCapacity then
    Eff.fail (.invalidInput s!"stash slots {c.stash.length} != stash_capacity {c.params.stashCapacity}")
  else pure ()

def padStash : Eff Error (Controller ρ) Unit :=
  Eff.modify fun c =>
    if c.stash.length > c.params.stashCapacity then c
    else { c with
      stash := c.stash ++ List.replicate (c.params.stashCapacity - c.stash.length) (.dummy c.params.blockSize) }

/-- The insertion loop on the stash; it fails when no slot took the block. -/
def insertBlock (block : OramBlock) (insertChoice : Ct.Choice) : Eff Error (Controller ρ) Unit := do
  let c ← Eff.get
  let scan := insertScan block insertChoice c.stash (!insertChoice)
  Eff.modify fun c => { c with stash := scan.1 }
  if scan.2 then pure () else Eff.fail (.stashOverflow (c.params.stashCapacity + 1) c.params.stashCapacity)

def insertIntoStash (block : OramBlock) : Eff Error (Controller ρ) Unit := insertBlock block block.occupied

def insertCandidateIntoStash (slot : CircuitMetaSlot) (payload : Bytes) (insertChoice : Ct.Choice) :
    Eff Error (Controller ρ) Unit := do
  let c ← Eff.get
  if payload.length ≠ c.params.blockSize then
    Eff.fail (.invalidInput s!"payload len {payload.length} != block_size {c.params.blockSize}")
  else insertBlock { occupied := true, logicalId := slot.logicalId, leaf := slot.leaf, payload } insertChoice

def ensureEvictionStashCapacity (plan : CircuitEvictionPlan) : Eff Error (Controller ρ) Unit := do
  let c ← Eff.get
  let selectedStash := (List.range c.params.stashCapacity).countP plan.isSelected
  let unselectedPath := plan.pathCandidateIndices.flatten.countP plan.isLeftOver
  let occupied := c.occupiedStashLen
  let freeAfterSelectedStash := c.params.stashCapacity - occupied + selectedStash
  if unselectedPath > freeAfterSelectedStash then
    Eff.fail (.stashOverflow (occupied - selectedStash + unselectedPath) c.params.stashCapacity)
  else pure ()

/-- The slots the plan took out of the stash are cleared. -/
def clearSelected (plan : CircuitEvictionPlan) : Eff Error (Controller ρ) Unit :=
  Eff.modify fun c => { c with stash := c.stash.zipIdx.map fun (block, slot) => block.clearIf (plan.isSelected slot) }

/-- `access` after the target was moved into the stash: the payload out, a fresh leaf and
    the new payload in, and the access on the schedule. -/
def finishAccess [Rng ρ] (logicalId : UInt64) (update : Update) : Eff Error (Controller ρ) Bytes := do
  let c ← Eff.get
  let scan := scanStash c.stash logicalId c.params.blockSize
  if !scan.1 then Eff.fail (.blockNotFound logicalId)
  else do
    let draw := randomLeaf c.params c.rng
    Eff.modify fun c =>
      { c with
        rng := draw.2
        posMap := scanPosMapUpdate c.posMap logicalId draw.1
        stash := updateStash c.stash logicalId (update.apply scan.2) draw.1 }
    onSchedule CircuitEvictionSchedule.recordAccess
    checkStash
    pure scan.2

/-- One request of `access_batch` after its target was moved into the stash. -/
def finishRequest (logicalId : UInt64) (newLeaf : UInt32) (update : Update) : Eff Error (Controller ρ) Bytes := do
  let c ← Eff.get
  let scan := scanStash c.stash logicalId c.params.blockSize
  if !scan.1 then Eff.fail (.blockNotFound logicalId)
  else do
    Eff.modify fun c => { c with stash := updateStash c.stash logicalId (update.apply scan.2) newLeaf }
    onSchedule CircuitEvictionSchedule.recordAccess
    pure scan.2

end Controller
end BpirOram
