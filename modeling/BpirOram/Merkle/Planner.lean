/-
  BpirOram.Merkle.Planner — the Merkle I/O planner (`bin/oramctl.rs`), the hash-page requests of
  a tiered store, and the closed form of their number (`ring_stress.rs`).

  The planner walks the levels of a tree it does not have and adds the hash pages it would touch
  to its statistics. What it adds is a sequence of touches (`readTouches`, `writeTouches`), the
  same whatever the statistics are.
  - `addRead_run`, `addWrite_run`: the planner adds that sequence.
  - `readPage_issues`, `writePage_issues`: a call on a store sends its hash store that sequence, a
    failing one some first part of it.
  - `planner_predicts_store`: so the two agree, and the number of touches is the closed form.
-/

import BpirOram.Circuit.Trace
import BpirOram.Merkle.Beside
import Mathlib.Data.Finset.Insert

namespace BpirOram

open Lib

/-! ## The statistics -/

structure PageTouchStats where
  touches : Nat
  pages : Finset Nat

def PageTouchStats.add (s : PageTouchStats) (pageIdx : Nat) : PageTouchStats :=
  { touches := s.touches + 1, pages := insert pageIdx s.pages }

/-- `hash_reads` and `hash_writes`, as the planner sees them. -/
class HashTouches (τ : Type) where
  addRead : Nat → τ → τ
  addWrite : Nat → τ → τ

instance : HashTouches (PageTouchStats × PageTouchStats) where
  addRead pageIdx s := (s.1.add pageIdx, s.2)
  addWrite pageIdx s := (s.1, s.2.add pageIdx)

/-- The calls of `add` themselves, in their order. -/
instance : HashTouches (List TraceEvent) where
  addRead pageIdx s := s ++ [.read pageIdx]
  addWrite pageIdx s := s ++ [.write pageIdx]

/-! ## The planner -/

structure MerkleIoPlanner where
  leafBase : Nat
  trustedNodeLimit : Nat
  diskHashNodes : Nat
  hashesPerPage : Nat
  hashPageSize : Nat
  one_lt_limit : 1 < trustedNodeLimit

namespace MerkleIoPlanner

/-- The size checks are those of `merkle.rs`, with the same texts. -/
def new (pageCount trustedLevels hashPageSize : Nat) : Result MerkleIoPlanner :=
  if pageCount = 0 then .error (.invalidInput "page_count must be > 0")
  else if hashPageSize < 32 then .error (.invalidInput "hash page size must be at least 32")
  else do
    let leafBase ← checkedLeafBase pageCount
    let limit ← BpirOram.trustedNodeLimit leafBase.val trustedLevels
    .ok
      { leafBase := leafBase.val
        trustedNodeLimit := limit.val
        diskHashNodes := BpirOram.diskHashNodes leafBase.val limit.val
        hashesPerPage := hashPageSize / 32
        hashPageSize
        one_lt_limit := by
          rw [limit.property.limit_eq]
          exact Nat.one_lt_two_pow (Nat.pos_iff_ne_zero.mp limit.property.pos) }

def diskHashPage (p : MerkleIoPlanner) (nodeIdx : Nat) : Result (Option Nat) :=
  if nodeIdx < p.trustedNodeLimit then .ok none
  else
    let diskOffset := nodeIdx - p.trustedNodeLimit
    if diskOffset ≥ p.diskHashNodes then
      .error (.invalidInput s!"Merkle disk offset {diskOffset} out of range {p.diskHashNodes}")
    else .ok (some (diskOffset / p.hashesPerPage))

variable {τ : Type} [HashTouches τ]

def addHashRead (p : MerkleIoPlanner) (nodeIdx : Nat) : Eff Error τ Unit := do
  let page ← Eff.lift (p.diskHashPage nodeIdx)
  match page with
  | some pageIdx => Eff.modify (HashTouches.addRead pageIdx)
  | none => pure ()

/-- The page is read, changed in one place and written back whole. -/
def addHashWrite (p : MerkleIoPlanner) (nodeIdx : Nat) : Eff Error τ Unit := do
  let page ← Eff.lift (p.diskHashPage nodeIdx)
  match page with
  | some pageIdx => Eff.modify fun s => HashTouches.addWrite pageIdx (HashTouches.addRead pageIdx s)
  | none => pure ()

/-- The loop of `add_read`. -/
def addReadAbove (p : MerkleIoPlanner) (nodeIdx : Nat) : Eff Error τ Unit :=
  if p.trustedNodeLimit ≤ nodeIdx then do
    p.addHashRead (nodeIdx ^^^ 1)
    p.addReadAbove (nodeIdx / 2)
  else pure ()
termination_by nodeIdx
decreasing_by
  have := p.one_lt_limit
  omega

def addRead (p : MerkleIoPlanner) (pageIdx : Nat) : Eff Error τ Unit := p.addReadAbove (p.leafBase + pageIdx)

/-- The loop of `add_write`. -/
def addWriteAbove (p : MerkleIoPlanner) (nodeIdx : Nat) : Eff Error τ Unit :=
  if nodeIdx > 1 then do
    p.addHashRead (nodeIdx ^^^ 1)
    p.addHashWrite (nodeIdx / 2)
    p.addWriteAbove (nodeIdx / 2)
  else pure ()
termination_by nodeIdx

def addWrite (p : MerkleIoPlanner) (pageIdx : Nat) : Eff Error τ Unit := do
  p.addHashWrite (p.leafBase + pageIdx)
  p.addWriteAbove (p.leafBase + pageIdx)

end MerkleIoPlanner

/-! ## The closed form -/

structure MerkleHashTouchCost where
  readHashPageTouches : Nat
  writeHashPageTouches : Nat
  deriving DecidableEq, Repr

def merkleHashTouchCost (pageCount trustedLevels : Nat) : Result MerkleHashTouchCost :=
  if nextPowerOfTwo pageCount ≥ 2 ^ 64 then .error (.invalidParams "auth page_count is too large")
  else
    let merkleLevels := (nextPowerOfTwo pageCount).log2 + 1
    if trustedLevels = 0 ∨ trustedLevels > merkleLevels then
      .error (.invalidParams s!"auth_trusted_levels {trustedLevels} out of range 1..={merkleLevels}")
    else
      let diskLevelsTouched := merkleLevels - trustedLevels
      .ok { readHashPageTouches := diskLevelsTouched, writeHashPageTouches := diskLevelsTouched * 3 }

/-! ## The touches of a walk -/

section
variable (limit perPage : Nat)

/-- The hash page of a node that is on disk. -/
def hashPage (nodeIdx : Nat) : List Nat := if nodeIdx < limit then [] else [(nodeIdx - limit) / perPage]

def touchRead (nodeIdx : Nat) : List TraceEvent := (hashPage limit perPage nodeIdx).map .read

def touchWrite (nodeIdx : Nat) : List TraceEvent := (hashPage limit perPage nodeIdx).flatMap fun i => [.read i, .write i]

/-- The siblings on the way up to the trusted levels. -/
def readTouches (hlimit : 1 < limit) (nodeIdx : Nat) : List TraceEvent :=
  if limit ≤ nodeIdx then touchRead limit perPage (siblingNode nodeIdx) ++ readTouches hlimit (nodeIdx / 2) else []
termination_by nodeIdx

/-- The siblings and the nodes above, up to the root. -/
def aboveTouches (nodeIdx : Nat) : List TraceEvent :=
  if 1 < nodeIdx then
    touchRead limit perPage (siblingNode nodeIdx) ++ (touchWrite limit perPage (nodeIdx / 2) ++ aboveTouches (nodeIdx / 2))
  else []
termination_by nodeIdx

def writeTouches (nodeIdx : Nat) : List TraceEvent := touchWrite limit perPage nodeIdx ++ aboveTouches limit perPage nodeIdx

end

/-- The touches, one by one. -/
def note {τ : Type} [HashTouches τ] (s : τ) : TraceEvent → τ
  | .read pageIdx => HashTouches.addRead pageIdx s
  | .write pageIdx => HashTouches.addWrite pageIdx s

theorem note_list (l s : List TraceEvent) : l.foldl note s = s ++ l := by
  induction l generalizing s with
  | nil => exact (List.append_nil s).symm
  | cons e l ih =>
    rw [List.foldl_cons, ih]
    cases e <;> exact List.append_assoc _ _ _

/-! ### How many there are -/

theorem sibling_limit {limit levels k : Nat} (hlimit : limit = 2 ^ levels) (hpos : 0 < levels) :
    siblingNode k < limit ↔ k < limit := by
  obtain ⟨m, rfl⟩ := Nat.exists_eq_add_of_le' hpos
  rw [Nat.pow_succ] at hlimit
  rw [siblingNode_eq, siblingOf]
  split <;> omega

section
variable {limit perPage levels k : Nat}

theorem touchRead_length (k : Nat) : (touchRead limit perPage k).length = if limit ≤ k then 1 else 0 := by
  rw [touchRead, hashPage, List.length_map]
  by_cases h : limit ≤ k
  · rw [if_neg (Nat.not_lt_of_le h), if_pos h]
    rfl
  · rw [if_pos (Nat.lt_of_not_le h), if_neg h]
    rfl

theorem touchWrite_length (k : Nat) : (touchWrite limit perPage k).length = if limit ≤ k then 2 else 0 := by
  rw [touchWrite, hashPage]
  by_cases h : limit ≤ k
  · rw [if_neg (Nat.not_lt_of_le h), if_pos h]
    rfl
  · rw [if_pos (Nat.lt_of_not_le h), if_neg h]
    rfl

/-- The level of a node's parent. -/
theorem log2_half (h : 1 < k) : k.log2 = (k / 2).log2 + 1 := by
  rw [Nat.log2_def k, if_pos (by omega)]

theorem sibling_touch_length (hpow : limit = 2 ^ levels) (hpos : 0 < levels) (hk : 0 < k) :
    (touchRead limit perPage (siblingNode k)).length = if levels ≤ k.log2 then 1 else 0 := by
  have hlog : limit ≤ siblingNode k ↔ levels ≤ k.log2 := by
    rw [← Nat.not_lt, sibling_limit hpow hpos, Nat.not_lt, hpow, Nat.le_log2 (Nat.ne_of_gt hk)]
  simp only [touchRead_length, hlog]

/-- One touch for each level below the trusted ones. -/
theorem readTouches_length (hlimit : 1 < limit) (hpow : limit = 2 ^ levels) (hpos : 0 < levels) (hk : 0 < k) :
    (readTouches limit perPage hlimit k).length = k.log2 + 1 - levels := by
  induction k using Nat.strongRecOn with
  | ind k ih =>
    rw [readTouches]
    have hlog : limit ≤ k ↔ levels ≤ k.log2 := by rw [hpow, Nat.le_log2 (Nat.ne_of_gt hk)]
    by_cases h : limit ≤ k
    · have hlevels := hlog.mp h
      have hk1 : 1 < k := Nat.lt_of_lt_of_le hlimit h
      have hup := log2_half hk1
      rw [if_pos h, List.length_append, ih (k / 2) (by omega) (by omega), sibling_touch_length hpow hpos hk, if_pos hlevels]
      omega
    · have hlevels := mt hlog.mpr h
      rw [if_neg h, List.length_nil]
      omega

/-- Three touches for each level below the trusted ones. -/
theorem writeTouches_length (hpow : limit = 2 ^ levels) (hpos : 0 < levels) (hk : 0 < k) :
    (writeTouches limit perPage k).length = (k.log2 + 1 - levels) * 3 := by
  have hlog : ∀ k, 0 < k → (limit ≤ k ↔ levels ≤ k.log2) := fun k hk => by rw [hpow, Nat.le_log2 (Nat.ne_of_gt hk)]
  induction k using Nat.strongRecOn with
  | ind k ih =>
    rw [writeTouches, aboveTouches, List.length_append, touchWrite_length]
    by_cases h : 1 < k
    · have habove := ih (k / 2) (by omega) (by omega)
      rw [writeTouches, List.length_append] at habove
      rw [if_pos h, List.length_append, List.length_append, habove, sibling_touch_length hpow hpos hk]
      simp only [hlog k hk, log2_half h]
      split <;> omega
    · have hone : k = 1 := by omega
      subst hone
      have hlog0 : Nat.log2 1 = 0 := by decide
      have hlog1 : ¬ limit ≤ 1 := by
        rw [hlog 1 Nat.one_pos, hlog0]
        omega
      rw [if_neg hlog1, if_neg h, hlog0]
      simp only [List.length_nil]
      omega

end

/-! ## What the planner adds -/

namespace MerkleIoPlanner

variable {τ : Type} [HashTouches τ] {p : MerkleIoPlanner} {k : Nat}

/-- The planner's sizes are those of one tree. -/
structure Sized (p : MerkleIoPlanner) : Prop where
  limit_dvd : 2 ∣ p.trustedNodeLimit
  limit_le : p.trustedNodeLimit ≤ p.leafBase * 2
  nodes : p.diskHashNodes = p.leafBase * 2 - p.trustedNodeLimit

theorem diskHashPage_ok (hp : p.Sized) (hk : k < p.leafBase * 2) :
    p.diskHashPage k = .ok (hashPage p.trustedNodeLimit p.hashesPerPage k).head? := by
  rw [diskHashPage, hashPage]
  by_cases h : k < p.trustedNodeLimit
  · rw [if_pos h, if_pos h]
    rfl
  · have hnodes : ¬ k - p.trustedNodeLimit ≥ p.diskHashNodes := by
      rw [hp.nodes]
      omega
    rw [if_neg h, if_neg h]
    simp only [if_neg hnodes]
    rfl

theorem addHashRead_run (hp : p.Sized) (hk : k < p.leafBase * 2) (s : τ) :
    p.addHashRead k s = (.ok (), (touchRead p.trustedNodeLimit p.hashesPerPage k).foldl note s) := by
  rw [addHashRead, diskHashPage_ok hp hk, Eff.lift_ok_bind, touchRead, hashPage]
  split <;> rfl

theorem addHashWrite_run (hp : p.Sized) (hk : k < p.leafBase * 2) (s : τ) :
    p.addHashWrite k s = (.ok (), (touchWrite p.trustedNodeLimit p.hashesPerPage k).foldl note s) := by
  rw [addHashWrite, diskHashPage_ok hp hk, Eff.lift_ok_bind, touchWrite, hashPage]
  split <;> rfl

/-- A node's sibling is in the tree. -/
theorem sibling_lt {base : Nat} (hk : k < base * 2) : siblingNode k < base * 2 := by
  rw [siblingNode_eq, siblingOf]
  split <;> omega

theorem addReadAbove_run (hp : p.Sized) (hk : k < p.leafBase * 2) (s : τ) :
    p.addReadAbove k s = (.ok (), (readTouches p.trustedNodeLimit p.hashesPerPage p.one_lt_limit k).foldl note s) := by
  induction k using Nat.strongRecOn generalizing s with
  | ind k ih =>
    have hlimit := p.one_lt_limit
    rw [addReadAbove, readTouches]
    by_cases h : p.trustedNodeLimit ≤ k
    · rw [if_pos h, if_pos h, ← siblingNode, Eff.bind_ok (addHashRead_run hp (sibling_lt hk) s),
        ih (k / 2) (by omega) (by omega),
        List.foldl_append]
    · rw [if_neg h, if_neg h]
      rfl

theorem addWriteAbove_run (hp : p.Sized) (hk : k < p.leafBase * 2) (s : τ) :
    p.addWriteAbove k s = (.ok (), (aboveTouches p.trustedNodeLimit p.hashesPerPage k).foldl note s) := by
  induction k using Nat.strongRecOn generalizing s with
  | ind k ih =>
    rw [addWriteAbove, aboveTouches]
    by_cases h : 1 < k
    · rw [if_pos h, if_pos h, ← siblingNode, Eff.bind_ok (addHashRead_run hp (sibling_lt hk) s),
        Eff.bind_ok (addHashWrite_run hp (by omega) _), ih (k / 2) (by omega) (by omega), List.foldl_append,
        List.foldl_append]
    · rw [if_neg h, if_neg h]
      rfl

theorem addRead_run (hp : p.Sized) {i : Nat} (hi : i < p.leafBase) (s : τ) : p.addRead i s =
    (.ok (), (readTouches p.trustedNodeLimit p.hashesPerPage p.one_lt_limit (p.leafBase + i)).foldl note s) :=
  addReadAbove_run hp (by omega) s

theorem addWrite_run (hp : p.Sized) {i : Nat} (hi : i < p.leafBase) (s : τ) :
    p.addWrite i s = (.ok (), (writeTouches p.trustedNodeLimit p.hashesPerPage (p.leafBase + i)).foldl note s) := by
  rw [addWrite, Eff.bind_ok (addHashWrite_run hp (by omega) s), addWriteAbove_run hp (by omega), writeTouches,
    List.foldl_append]

/-- What an accepted planner is. -/
theorem new_ok {n levels hashPageSize : Nat} (h : new n levels hashPageSize = .ok p) : p.Sized ∧
    p.leafBase = nextPowerOfTwo n ∧ nextPowerOfTwo n < 2 ^ 64 ∧
    TrustedLevels (nextPowerOfTwo n) levels p.trustedNodeLimit ∧ p.hashesPerPage = hashPageSize / 32 := by
  unfold new at h
  split at h
  · cases h
  · split at h
    · cases h
    · obtain ⟨leafBase, _, h⟩ := bind_result_ok h
      obtain ⟨limit, _, h⟩ := bind_result_ok h
      cases h
      obtain ⟨base, hbase, hlt⟩ := leafBase
      subst hbase
      have hlevels := limit.property
      obtain ⟨m, hm⟩ := Nat.exists_eq_add_of_le' hlevels.pos
      refine ⟨⟨?_, ?_, rfl⟩, rfl, hlt, hlevels, rfl⟩
      · change 2 ∣ limit.val
        rw [hlevels.limit_eq, hm, Nat.pow_succ]
        exact Nat.dvd_mul_left 2 _
      · change limit.val ≤ nextPowerOfTwo n * 2
        rw [hlevels.limit_eq, nextPowerOfTwo_pow n, ← Nat.pow_succ]
        exact Nat.pow_le_pow_right (by omega) hlevels.le

end MerkleIoPlanner

/-! ## What the store asks for -/

namespace TieredMerklePageStore

section
variable {S H : Type} [PageStore S] [PageStore H] {l : TieredLayout}

/-- No call changes the sizes. -/
abbrev Laid (l : TieredLayout) (s : TieredMerklePageStore S H) : Prop := s.toTieredLayout = l

omit [PageStore S] [PageStore H] in
theorem keeps_onInner {α : Type} (m : Eff Error S α) :
    Eff.Keeps (Laid l) (onInner m : Eff Error (TieredMerklePageStore S H) α) :=
  fun _ h => h

omit [PageStore S] [PageStore H] in
theorem keeps_onHashStore {α : Type} (m : Eff Error H α) :
    Eff.Keeps (Laid l) (onHashStore m : Eff Error (TieredMerklePageStore S H) α) :=
  fun _ h => h

omit [PageStore S] in
theorem keeps_readHash (k : Nat) : Eff.Keeps (Laid l) (readHash k : Eff Error (TieredMerklePageStore S H) Hash) := by
  refine .get_bind fun s hs => (Eff.Keeps.lift _).bind (fun _ => ?_) s hs
  split
  · exact .pure _
  · refine .get_bind fun t ht => (Eff.Keeps.lift _).bind (fun x => ?_) t ht
    exact (keeps_onHashStore _).bind fun _ => .pure _

omit [PageStore S] in
theorem keeps_writeHash (k : Nat) (hash : Hash) :
    Eff.Keeps (Laid l) (writeHash k hash : Eff Error (TieredMerklePageStore S H) Unit) := by
  refine .get_bind fun s hs => (Eff.Keeps.lift _).bind (fun _ => ?_) s hs
  split
  · exact .modify fun _ h => h
  · refine .get_bind fun t ht => (Eff.Keeps.lift _).bind (fun x => ?_) t ht
    exact (keeps_onHashStore _).bind fun _ => keeps_onHashStore _

section
variable [Sha256]

omit [PageStore S] in
theorem keeps_climbToTrusted {limit : Nat} (hlimit : 1 < limit) (k : Nat) (current : Hash) :
    Eff.Keeps (Laid l) (climbToTrusted limit hlimit k current : Eff Error (TieredMerklePageStore S H) (Nat × Hash)) := by
  induction k using Nat.strongRecOn generalizing current with
  | ind k ih =>
    rw [climbToTrusted]
    split
    · exact (keeps_readHash _).bind fun _ => ih (k / 2) (by omega) _
    · exact .pure _

omit [PageStore S] in
theorem keeps_updateAbove (k : Nat) (current : Hash) :
    Eff.Keeps (Laid l) (updateAbove k current : Eff Error (TieredMerklePageStore S H) Unit) := by
  induction k using Nat.strongRecOn generalizing current with
  | ind k ih =>
    rw [updateAbove]
    split
    · exact (keeps_readHash _).bind fun _ => (keeps_writeHash _ _).bind fun _ => ih (k / 2) (by omega) _
    · exact .pure _

theorem keeps_readPage (pageIdx len : Nat) :
    Eff.Keeps (Laid l) (PageStore.readPage pageIdx len : Eff Error (TieredMerklePageStore S H) Bytes) := by
  refine .get_bind fun s hs => (Eff.Keeps.lift _).bind (fun _ => ?_) s hs
  refine (keeps_onInner _).bind fun out => Eff.Keeps.bind ?_ fun _ => .pure _
  refine .get_bind fun t ht => (keeps_climbToTrusted _ _ _).bind (fun x => ?_) t ht
  refine .get_bind fun u hu => ?_
  split
  · exact hu
  · exact hu

theorem keeps_writePage (pageIdx : Nat) (input : Bytes) :
    Eff.Keeps (Laid l) (PageStore.writePage pageIdx input : Eff Error (TieredMerklePageStore S H) Unit) := by
  refine .get_bind fun s hs => (Eff.Keeps.lift _).bind (fun _ => ?_) s hs
  refine (keeps_onInner _).bind fun _ => ?_
  exact .get_bind fun t ht => (keeps_writeHash _ _).bind (fun _ => keeps_updateAbove _ _) t ht

theorem keeps_rebuildHashes : Eff.Keeps (Laid l) (rebuildHashes : Eff Error (TieredMerklePageStore S H) Unit) := by
  refine .get_bind fun s hs => Eff.Keeps.bind (.forEach fun i _ => ?_) (fun _ => Eff.Keeps.bind (.forEach fun _ _ =>
    .forEach fun k _ => ?_) fun _ => .pure _) s hs
  · refine .get_bind fun t ht => ?_
    split
    · exact (keeps_onInner _).bind (fun _ => keeps_writeHash _ _) t ht
    · exact keeps_writeHash _ _ t ht
  · exact (keeps_readHash _).bind fun _ => (keeps_readHash _).bind fun _ => keeps_writeHash _ _

end
end

/-! ### The requests of a call -/

section
variable {S H : Type} [PageStore S] [PageStore H]

/-- What the hash store has been asked for. -/
def heard (s : TieredMerklePageStore S (TracingStore H)) (_ : Unit) : List TraceEvent := s.hashStore.trace

/-- Requests to the hash store. -/
def asked (events : List TraceEvent) : List (Unit × TraceEvent) := events.map fun e => ((), e)

theorem asked_append (events more : List TraceEvent) : asked (events ++ more) = asked events ++ asked more := List.map_append

theorem sentTo_asked (events : List TraceEvent) : sentTo () (asked events) = events := by
  induction events with
  | nil => rfl
  | cons e events ih => exact congrArg (e :: ·) ih

omit [PageStore S] [PageStore H] in
theorem issues_onInner {α : Type} (m : Eff Error S α) (s : TieredMerklePageStore S (TracingStore H)) :
    Eff.Issues heard [] (onInner m) s := .silent rfl

omit [PageStore S] in
theorem issues_read (pageIdx len : Nat) (s : TieredMerklePageStore S (TracingStore H)) :
    Eff.Issues heard (asked [.read pageIdx]) (onHashStore (PageStore.readPage pageIdx len)) s :=
  .one fun _ => rfl

omit [PageStore S] in
theorem issues_write (pageIdx : Nat) (page : Bytes) (s : TieredMerklePageStore S (TracingStore H)) :
    Eff.Issues heard (asked [.write pageIdx]) (onHashStore (PageStore.writePage pageIdx page)) s :=
  .one fun _ => rfl

variable {l : TieredLayout} {s : TieredMerklePageStore S (TracingStore H)} {k : Nat}

omit [PageStore S] in
theorem issues_readHash (hs : Laid l s) (h0 : 0 < k) (hk : k < l.leafBase * 2) :
    Eff.Issues heard (asked (touchRead l.trustedNodeLimit l.hashesPerPage k)) (readHash k) s := by
  subst hs
  refine .get_bind ?_
  rw [TieredLayout.checkNodeIdx_ok h0 hk, Eff.lift_ok_bind, touchRead, hashPage]
  by_cases h : k < s.trustedNodeLimit
  · rw [if_pos h, if_pos h]
    exact .silent rfl
  · rw [if_neg h, if_neg h]
    refine .get_bind ?_
    rw [TieredLayout.diskHashPosition_ok hk (Nat.le_of_not_lt h), Eff.lift_ok_bind]
    exact (issues_read _ _ s).before fun _ _ _ => .silent rfl

omit [PageStore S] in
theorem issues_writeHash (hs : Laid l s) (h0 : 0 < k) (hk : k < l.leafBase * 2) (hash : Hash) :
    Eff.Issues heard (asked (touchWrite l.trustedNodeLimit l.hashesPerPage k)) (writeHash k hash) s := by
  subst hs
  refine .get_bind ?_
  rw [TieredLayout.checkNodeIdx_ok h0 hk, Eff.lift_ok_bind, touchWrite, hashPage]
  by_cases h : k < s.trustedNodeLimit
  · rw [if_pos h, if_pos h]
    exact .silent rfl
  · rw [if_neg h, if_neg h]
    refine .get_bind ?_
    rw [TieredLayout.diskHashPosition_ok hk (Nat.le_of_not_lt h), Eff.lift_ok_bind]
    exact (issues_read _ _ s).bind fun page t _ => issues_write _ _ t

variable [Sha256]

omit [PageStore S] in
theorem issues_climbToTrusted (hs : Laid l s) (hk : k < l.leafBase * 2) (current : Hash) :
    Eff.Issues heard (asked (readTouches l.trustedNodeLimit l.hashesPerPage l.one_lt_limit k))
      (climbToTrusted l.trustedNodeLimit l.one_lt_limit k current) s := by
  induction k using Nat.strongRecOn generalizing s current with
  | ind k ih =>
    have hlimit := l.one_lt_limit
    rw [climbToTrusted, readTouches]
    by_cases h : l.trustedNodeLimit ≤ k
    · have hsibling : 0 < siblingNode k := by
        rw [siblingNode_eq, siblingOf]
        split <;> omega
      rw [if_pos h, if_pos h, asked_append]
      refine (issues_readHash hs hsibling (MerkleIoPlanner.sibling_lt hk)).bind fun sibling t ht => ?_
      exact ih (k / 2) (by omega) ((keeps_readHash _).ok hs ht) (by omega) _
    · rw [if_neg h, if_neg h]
      exact .silent rfl

omit [PageStore S] in
theorem issues_updateAbove (hs : Laid l s) (hk : k < l.leafBase * 2) (current : Hash) :
    Eff.Issues heard (asked (aboveTouches l.trustedNodeLimit l.hashesPerPage k)) (updateAbove k current) s := by
  induction k using Nat.strongRecOn generalizing s current with
  | ind k ih =>
    rw [updateAbove, aboveTouches]
    by_cases h : 1 < k
    · have hsibling : 0 < siblingNode k := by
        rw [siblingNode_eq, siblingOf]
        split <;> omega
      rw [if_pos h, if_pos h, asked_append, asked_append]
      refine (issues_readHash hs hsibling (MerkleIoPlanner.sibling_lt hk)).bind fun sibling t ht => ?_
      have hlaid := (keeps_readHash _).ok hs ht
      refine (issues_writeHash hlaid (by omega) (by omega) _).bind fun _ u hu => ?_
      exact ih (k / 2) (by omega) ((keeps_writeHash _ _).ok hlaid hu) (by omega) _
    · rw [if_neg h, if_neg h]
      exact .silent rfl

/-- A page read asks the hash store for the siblings of the page's leaf and of the nodes above it,
    up to the trusted ones. -/
theorem readPage_issues (hs : Laid l s) {i : Nat} (hi : i < l.pageCount) (len : Nat) :
    Eff.Issues heard (asked (readTouches l.trustedNodeLimit l.hashesPerPage l.one_lt_limit (l.leafBase + i)))
      (PageStore.readPage i len) s := by
  have hle := l.pageCount_le
  refine .get_bind (Eff.Issues.after (.silent rfl) fun _ t ht => ?_)
  have ht' : Laid l t := (Eff.Keeps.lift _).ok hs ht
  refine Eff.Issues.after (issues_onInner _ t) fun out u hu => ?_
  have hu' : Laid l u := (keeps_onInner _).ok ht' hu
  refine Eff.Issues.before ?_ fun _ _ _ => .silent rfl
  refine .get_bind ?_
  obtain rfl := hu'
  refine Eff.Issues.before (issues_climbToTrusted rfl (by omega) _) fun x v _ => .get_bind ?_
  split
  · exact .silent rfl
  · exact .silent rfl

/-- A page write reads and writes the hash pages of the leaf and of the nodes above it, and reads
    those of their siblings. -/
theorem writePage_issues (hs : Laid l s) {i : Nat} (hi : i < l.pageCount) (input : Bytes) :
    Eff.Issues heard (asked (writeTouches l.trustedNodeLimit l.hashesPerPage (l.leafBase + i))) (PageStore.writePage i input)
      s := by
  have hle := l.pageCount_le
  refine .get_bind (Eff.Issues.after (.silent rfl) fun _ t ht => ?_)
  have ht' : Laid l t := (Eff.Keeps.lift _).ok hs ht
  refine Eff.Issues.after (issues_onInner _ t) fun _ u hu => ?_
  have hu' : Laid l u := (keeps_onInner _).ok ht' hu
  refine .get_bind ?_
  obtain rfl := hu'
  rw [writeTouches, asked_append]
  have hpos : 0 < u.leafBase + i := by
    have := u.pageCount_pos
    omega
  refine (issues_writeHash rfl hpos (by omega) _).bind fun _ v hv => ?_
  exact issues_updateAbove ((keeps_writeHash _ _).ok rfl hv) (by omega) _

/-! ### Stores in use -/

/-- A store built or reopened over hash pages of `z` bytes, and then called in any way. -/
inductive Opened (z : Nat) : TieredMerklePageStore S H → Prop
  | build {inner hashStore storeId levels t} : PageStore.pageSize hashStore = z →
      build inner hashStore storeId levels = .ok t → Opened z t
  | reopen {inner hashStore state t} : PageStore.pageSize hashStore = z →
      fromTrustedState inner hashStore state = .ok t → Opened z t
  | read {t} (pageIdx len : Nat) : Opened z t → Opened z (PageStore.readPage pageIdx len t).2
  | write {t} (pageIdx : Nat) (input : Bytes) : Opened z t → Opened z (PageStore.writePage pageIdx input t).2
  | flush {t} : Opened z t → Opened z (PageStore.flush t).2

theorem keeps_flush : Eff.Keeps (Laid l) (PageStore.flush : Eff Error (TieredMerklePageStore S H) Unit) :=
  (keeps_onInner _).bind fun _ => keeps_onHashStore _

theorem build_perPage {inner : S} {hashStore : H} {storeId : FixedBytes 16} {levels : Nat} {s : TieredMerklePageStore S H}
    (h : build inner hashStore storeId levels = .ok s) : s.hashesPerPage = PageStore.pageSize hashStore / 32 := by
  unfold build at h
  simp only at h
  split at h
  · cases h
  · obtain ⟨leafBase, _, h⟩ := bind_result_ok h
    obtain ⟨limit, _, h⟩ := bind_result_ok h
    obtain ⟨perPage, _, h⟩ := bind_result_ok h
    split at h
    · cases h
    · split at h
      · cases h
      · rename_i hrun
        cases h
        have hkept := keeps_rebuildHashes.ok rfl hrun
        rw [show s.hashesPerPage = perPage.val from congrArg TieredLayout.hashesPerPage hkept]
        exact perPage.property.2

omit [Sha256] in
theorem reopen_perPage {inner : S} {hashStore : H} {state : TieredMerkleState} {s : TieredMerklePageStore S H}
    (h : fromTrustedState inner hashStore state = .ok s) : s.hashesPerPage = PageStore.pageSize hashStore / 32 := by
  unfold fromTrustedState at h
  simp only at h
  split at h
  · cases h
  · split at h
    · cases h
    · split at h
      · cases h
      · obtain ⟨leafBase, _, h⟩ := bind_result_ok h
        obtain ⟨limit, _, h⟩ := bind_result_ok h
        split at h
        · cases h
        · obtain ⟨perPage, _, h⟩ := bind_result_ok h
          split at h
          · cases h
          · cases h
            exact perPage.property.2

theorem Opened.perPage {z : Nat} {s : TieredMerklePageStore S H} (h : Opened z s) : s.hashesPerPage = z / 32 := by
  induction h with
  | build hz hbuild => rw [build_perPage hbuild, hz]
  | reopen hz hopen => rw [reopen_perPage hopen, hz]
  | read pageIdx len _ ih => exact (congrArg TieredLayout.hashesPerPage (keeps_readPage pageIdx len _ rfl)).trans ih
  | write pageIdx input _ ih => exact (congrArg TieredLayout.hashesPerPage (keeps_writePage pageIdx input _ rfl)).trans ih
  | flush _ ih => exact (congrArg TieredLayout.hashesPerPage (keeps_flush _ rfl)).trans ih

end

end TieredMerklePageStore

/-! ## Planner, store and closed form -/

theorem merkleHashTouchCost_ok {n levels limit : Nat} (hlt : nextPowerOfTwo n < 2 ^ 64)
    (hlevels : TrustedLevels (nextPowerOfTwo n) levels limit) : merkleHashTouchCost n levels =
      .ok { readHashPageTouches := (nextPowerOfTwo n).log2 + 1 - levels,
            writeHashPageTouches := ((nextPowerOfTwo n).log2 + 1 - levels) * 3 } := by
  have hpos := hlevels.pos
  have hle := hlevels.le
  unfold merkleHashTouchCost
  simp only
  rw [if_neg (Nat.not_le.mpr hlt), if_neg (by omega)]

/-- The leaves are all on the last level. -/
theorem log2_leaf {n i : Nat} (hi : i < nextPowerOfTwo n) : (nextPowerOfTwo n + i).log2 = (nextPowerOfTwo n).log2 := by
  have hpow := nextPowerOfTwo_pow n
  have hne : nextPowerOfTwo n + i ≠ 0 := by omega
  refine Nat.le_antisymm (Nat.le_of_lt_succ ?_) ?_
  · rw [Nat.log2_lt hne, Nat.pow_succ, ← hpow]
    omega
  · rw [Nat.le_log2 hne, ← hpow]
    exact Nat.le_add_right _ _

open MerkleIoPlanner TieredMerklePageStore in
/-- A planner and a store of the same shape: a page read or write that succeeds asks the hash
    store for exactly the pages the planner adds, in its order, and for as many as the closed
    form says. -/
theorem planner_predicts_store {S H : Type} [PageStore S] [PageStore H] [Sha256] {n levels z : Nat} {p : MerkleIoPlanner}
    (hp : MerkleIoPlanner.new n levels z = .ok p) : ∃ cost, merkleHashTouchCost n levels = .ok cost ∧
      ∀ s : TieredMerklePageStore S (TracingStore H), Opened z s → s.pageCount = n → s.trustedLevels = levels → ∀ i,
        (∀ len page t, PageStore.readPage i len s = (.ok page, t) → ∃ events,
          t.hashStore.trace = s.hashStore.trace ++ events ∧ p.addRead i [] = (.ok (), events) ∧
          (∀ stats : PageTouchStats × PageTouchStats, p.addRead i stats = (.ok (), events.foldl note stats)) ∧
          events.length = cost.readHashPageTouches) ∧
        (∀ input t, PageStore.writePage i input s = (.ok (), t) → ∃ events,
          t.hashStore.trace = s.hashStore.trace ++ events ∧ p.addWrite i [] = (.ok (), events) ∧
          (∀ stats : PageTouchStats × PageTouchStats, p.addWrite i stats = (.ok (), events.foldl note stats)) ∧
          events.length = cost.writeHashPageTouches) := by
  obtain ⟨hsized, hbase, hlt, hlevels, hper⟩ := new_ok hp
  refine ⟨_, merkleHashTouchCost_ok hlt hlevels, ?_⟩
  intro s hs hn hl i
  have hsbase : s.leafBase = p.leafBase := by rw [s.leafBase_eq, hn, hbase]
  have hslimit : s.trustedNodeLimit = p.trustedNodeLimit := by rw [s.levels.limit_eq, hl, hlevels.limit_eq]
  have hsper : s.hashesPerPage = p.hashesPerPage := by rw [hs.perPage, hper]
  have hin : ∀ len, checkMerklePage s.pageCount s.pageSize i len = .ok () → i < s.pageCount := by
    intro len hok
    by_contra hge
    obtain ⟨e, he⟩ := checkMerklePage_error (fun h : i < s.pageCount ∧ len = s.pageSize => hge h.1)
    rw [hok] at he
    cases he
  have hleaf : i < s.pageCount → i < p.leafBase := by
    intro hi
    have := s.pageCount_le
    omega
  have hlog : i < s.pageCount → (p.leafBase + i).log2 = (nextPowerOfTwo n).log2 := by
    intro hi
    have := hleaf hi
    rw [hbase] at this ⊢
    exact log2_leaf this
  constructor
  · intro len page t hrun
    have hi : i < s.pageCount := by
      obtain ⟨_, hok, -⟩ := Eff.lift_bind_eq_ok hrun
      exact hin len hok
    refine ⟨readTouches p.trustedNodeLimit p.hashesPerPage p.one_lt_limit (p.leafBase + i), ?_, ?_, ?_, ?_⟩
    · have hsent := (readPage_issues (l := s.toTieredLayout) rfl hi len).all page t hrun ()
      rw [sentTo_asked] at hsent
      simp only [hsbase, hslimit, hsper] at hsent
      exact hsent
    · rw [addRead_run hsized (hleaf hi), note_list]
      rfl
    · exact addRead_run hsized (hleaf hi)
    · rw [readTouches_length _ hlevels.limit_eq hlevels.pos (by have := hleaf hi; omega), hlog hi]
  · intro input t hrun
    have hi : i < s.pageCount := by
      obtain ⟨_, hok, -⟩ := Eff.lift_bind_eq_ok hrun
      exact hin input.length hok
    refine ⟨writeTouches p.trustedNodeLimit p.hashesPerPage (p.leafBase + i), ?_, ?_, ?_, ?_⟩
    · have hsent := (writePage_issues (l := s.toTieredLayout) rfl hi input).all () t hrun ()
      rw [sentTo_asked] at hsent
      simp only [hsbase, hslimit, hsper] at hsent
      exact hsent
    · rw [addWrite_run hsized (hleaf hi), note_list]
      rfl
    · exact addWrite_run hsized (hleaf hi)
    · rw [writeTouches_length hlevels.limit_eq hlevels.pos (by have := hleaf hi; omega), hlog hi]

/-! ## A small store -/

section
local instance : Sha256 := smallSha256

def smallPlanner : MerkleIoPlanner := (MerkleIoPlanner.new 3 2 64).toOption.get (by decide +kernel)

/-- `smallTiered`, its hash pages traced. -/
def smallTieredTracedBuild : Result (TieredMerklePageStore MemPageStore (TracingStore MemPageStore)) :=
  TieredMerklePageStore.build (zeroPages 3 1 Nat.one_pos) { inner := smallTiered.hashStore, trace := [] }
    (FixedBytes.zero 16) 2

def smallTieredTraced : TieredMerklePageStore MemPageStore (TracingStore MemPageStore) :=
  smallTieredTracedBuild.toOption.get (by decide +kernel)

/-- A read of page 1 touches one hash page, and a write reads and writes it and reads the sibling's. -/
theorem planner_predicts_store_small :
    (∃ events t, smallPlanner.addRead 1 [] = (.ok (), events) ∧ events.length = 1 ∧
      PageStore.readPage 1 1 smallTieredTraced = (.ok [0], t) ∧
        t.hashStore.trace = smallTieredTraced.hashStore.trace ++ events) ∧
    ∃ events t, smallPlanner.addWrite 1 [] = (.ok (), events) ∧ events.length = 3 ∧
      PageStore.writePage 1 [7] smallTieredTraced = (.ok (), t) ∧
        t.hashStore.trace = smallTieredTraced.hashStore.trace ++ events := by
  have hp : MerkleIoPlanner.new 3 2 64 = .ok smallPlanner := toOption_get _
  have hbuild : smallTieredTracedBuild = .ok smallTieredTraced := toOption_get _
  have hsize : PageStore.pageSize ({ inner := smallTiered.hashStore, trace := [] } : TracingStore MemPageStore) = 64 := by
    decide +kernel
  obtain ⟨t, hread⟩ := Eff.run_of_result (show (PageStore.readPage 1 1 smallTieredTraced).1 = .ok [0] by decide +kernel)
  obtain ⟨u, hwrite⟩ := Eff.run_of_result (show (PageStore.writePage 1 [7] smallTieredTraced).1 = .ok () by decide +kernel)
  obtain ⟨cost, hcost, hpredicts⟩ := planner_predicts_store (S := MemPageStore) (H := MemPageStore) hp
  obtain ⟨hreads, hwrites⟩ := hpredicts smallTieredTraced (.build hsize hbuild) (by decide +kernel)
    (by decide +kernel) 1
  have hcount : merkleHashTouchCost 3 2 = .ok { readHashPageTouches := 1, writeHashPageTouches := 3 } := by decide +kernel
  rw [hcost] at hcount
  cases hcount
  obtain ⟨events, htrace, hplan, -, hlen⟩ := hreads 1 [0] t hread
  obtain ⟨events', htrace', hplan', -, hlen'⟩ := hwrites [7] u hwrite
  exact ⟨⟨events, t, hplan, hlen, hread, htrace⟩, events', u, hplan', hlen', hwrite, htrace'⟩

end
end BpirOram
