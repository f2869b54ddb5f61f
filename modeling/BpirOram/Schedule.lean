/-
  BpirOram.Schedule — `CircuitEvictionSchedule` (`circuit.rs`): the public eviction debt.

  A recorded access adds `evictions_per_access` paths of debt; the `i`-th path drained is
  the one whose leaf is `i` with its low `leaf_bits` bits reversed. The counters are u64
  with checked arithmetic: `checkedAdd`, `checkedMul` and `checkedSub` give `none` where
  the exact value does not fit. `scheduledLeaf` is the sequence the counters walk along:
  whatever records and drains come in between, the next leaf is the one at the index of
  the completed counter (`Advanced`).
-/

import BpirOram.Params
import BpirOram.Lib.BitReverse

namespace BpirOram

open Lib

def checkedAdd (a b : UInt64) : Option UInt64 := if a.toNat + b.toNat < 2 ^ 64 then some (a + b) else none

def checkedMul (a b : UInt64) : Option UInt64 := if a.toNat * b.toNat < 2 ^ 64 then some (a * b) else none

def checkedSub (a b : UInt64) : Option UInt64 := if b.toNat ≤ a.toNat then some (a - b) else none

/-- `ok_or_else`. -/
def okOr {α : Type} (o : Option α) (e : Error) : Result α :=
  match o with
  | some a => .ok a
  | none => .error e

theorem min_le (a b : UInt64) : min a b ≤ b := by
  change (if a ≤ b then a else b) ≤ b
  split
  · assumption
  · exact UInt64.le_refl b

structure CircuitEvictionSchedule where
  leafBits : Nat
  evictionsPerAccess : UInt64
  issuedAccesses : UInt64
  completedEvictions : UInt64
  deriving DecidableEq, Repr

/-- `leaf_bits` is between 1 and 31 for every accepted tree. -/
def reverseBitsMod (index : UInt64) (leafBits : Nat) : UInt32 :=
  let mask : UInt32 := if leafBits = 32 then 0xFFFFFFFF else (1 <<< UInt32.ofNat leafBits) - 1
  let low := index.toUInt32 &&& mask
  (UInt32.ofBitVec low.toBitVec.reverse) >>> UInt32.ofNat (32 - leafBits)

namespace CircuitEvictionSchedule

def defaultEvictionsPerAccess : UInt64 := 2

def withRate (p : OramParams) (evictionsPerAccess : UInt64) : CircuitEvictionSchedule :=
  { leafBits := p.leafBits, evictionsPerAccess, issuedAccesses := 0, completedEvictions := 0 }

def new (p : OramParams) : CircuitEvictionSchedule := withRate p defaultEvictionsPerAccess

def pendingEvictions (s : CircuitEvictionSchedule) : Result UInt64 := do
  let scheduled ← okOr (checkedMul s.issuedAccesses s.evictionsPerAccess) (.invalidInput "eviction counter overflow")
  okOr (checkedSub scheduled s.completedEvictions) (.invalidInput "completed evictions exceed schedule")

/-- A schedule from checkpointed counters. -/
def fromCounters (p : OramParams) (evictionsPerAccess issuedAccesses completedEvictions : UInt64) :
    Result CircuitEvictionSchedule := do
  let schedule := { leafBits := p.leafBits, evictionsPerAccess, issuedAccesses, completedEvictions }
  let _ ← schedule.pendingEvictions
  .ok schedule

def validateForParams (s : CircuitEvictionSchedule) (p : OramParams) : Result Unit := do
  if s.leafBits ≠ p.leafBits then
    .error (.invalidInput s!"schedule leaf_bits {s.leafBits} != params leaf_bits {p.leafBits}")
  else
    let _ ← s.pendingEvictions
    .ok ()

def nextEvictionLeaf (s : CircuitEvictionSchedule) : UInt32 := reverseBitsMod s.completedEvictions s.leafBits

/-- Leaf of the `evictionIndex`-th path of the global sequence. -/
def evictionLeafAt (p : OramParams) (evictionIndex : UInt64) : UInt32 := reverseBitsMod evictionIndex p.leafBits

def recordAccess : Eff Error CircuitEvictionSchedule Unit := do
  let s ← Eff.get
  let issued ← Eff.lift (okOr (checkedAdd s.issuedAccesses 1) (.invalidInput "access counter overflow"))
  Eff.modify fun s => { s with issuedAccesses := issued }

def completeOneEviction : Eff Error CircuitEvictionSchedule (Option UInt32) := do
  let s ← Eff.get
  let pending ← Eff.lift s.pendingEvictions
  if pending = 0 then pure none
  else do
    let completed ← Eff.lift (okOr (checkedAdd s.completedEvictions 1) (.invalidInput "eviction counter overflow"))
    Eff.modify fun s => { s with completedEvictions := completed }
    pure (some s.nextEvictionLeaf)

/-- The loop of `drain_evictions`, with `turns` turns to go. -/
def drainLoop : Nat → List UInt32 → Eff Error CircuitEvictionSchedule (List UInt32)
  | 0, leaves => pure leaves
  | turns + 1, leaves => do
    match ← completeOneEviction with
    | some leaf => drainLoop turns (leaves ++ [leaf])
    | none => pure leaves

def drainEvictions (budget : UInt64) : Eff Error CircuitEvictionSchedule (List UInt32) := drainLoop budget.toNat []

/-! ## Facts -/

theorem recordAccess_ok {s : CircuitEvictionSchedule} (h : s.issuedAccesses.toNat + 1 < 2 ^ 64) :
    recordAccess s = (.ok (), { s with issuedAccesses := s.issuedAccesses + 1 }) := by
  have : checkedAdd s.issuedAccesses 1 = some (s.issuedAccesses + 1) := if_pos h
  simp only [recordAccess, Eff.get_bind, this, okOr]
  rfl

theorem recordAccess_error {s : CircuitEvictionSchedule} (h : ¬ s.issuedAccesses.toNat + 1 < 2 ^ 64) :
    recordAccess s = (.error (.invalidInput "access counter overflow"), s) := by
  have : checkedAdd s.issuedAccesses 1 = none := if_neg h
  simp only [recordAccess, Eff.get_bind, this, okOr]
  rfl

/-- What an accepted schedule owes. -/
theorem pendingEvictions_ok {s : CircuitEvictionSchedule} {n : UInt64} (h : s.pendingEvictions = .ok n) :
    s.completedEvictions.toNat + n.toNat = s.issuedAccesses.toNat * s.evictionsPerAccess.toNat ∧
      s.issuedAccesses.toNat * s.evictionsPerAccess.toNat < 2 ^ 64 := by
  unfold pendingEvictions checkedMul checkedSub okOr at h
  split at h
  · rename_i x hx
    split at hx
    · rename_i hm
      cases hx
      have hmul : (s.issuedAccesses * s.evictionsPerAccess).toNat
          = s.issuedAccesses.toNat * s.evictionsPerAccess.toNat := by
        rw [UInt64.toNat_mul, Nat.mod_eq_of_lt hm]
      simp only [bind, Except.bind] at h
      split at h
      · rename_i y hy
        split at hy
        · rename_i hle
          cases hy; cases h
          rw [UInt64.toNat_sub_of_le _ _ (UInt64.le_iff_toNat_le.mpr hle), hmul]
          omega
        · cases hy
      · cases h
    · cases hx
  · cases h

theorem pendingEvictions_error {s : CircuitEvictionSchedule} {e : Error} (h : s.pendingEvictions = .error e) :
    e = .invalidInput "eviction counter overflow" ∨ e = .invalidInput "completed evictions exceed schedule" := by
  unfold pendingEvictions okOr at h
  cases hm : checkedMul s.issuedAccesses s.evictionsPerAccess with
  | none =>
    rw [hm] at h
    cases h
    exact .inl rfl
  | some n =>
    simp only [hm, bind, Except.bind] at h
    split at h <;> cases h
    exact .inr rfl

/-- A debt of `n > 0` paths lets one more path through, and then stands at `n - 1`. -/
theorem completeOneEviction_ok {s : CircuitEvictionSchedule} {n : UInt64} (h : s.pendingEvictions = .ok n)
    (hn : 0 < n.toNat) :
    completeOneEviction s = (.ok (some s.nextEvictionLeaf), { s with completedEvictions := s.completedEvictions + 1 }) ∧
      { s with completedEvictions := s.completedEvictions + 1 }.pendingEvictions = .ok (n - 1) := by
  obtain ⟨h1, h2⟩ := pendingEvictions_ok h
  have hne : n ≠ 0 := by rintro rfl; simp at hn
  have hadd : checkedAdd s.completedEvictions 1 = some (s.completedEvictions + 1) := if_pos (by simp; omega)
  constructor
  · simp only [completeOneEviction, Eff.get_bind, h, Eff.lift_ok_bind, if_neg hne, hadd, okOr]
    rfl
  · have hc : (s.completedEvictions + 1).toNat = s.completedEvictions.toNat + 1 := by
      rw [UInt64.toNat_add, UInt64.toNat_one, Nat.mod_eq_of_lt (by omega)]
    have hm : (s.issuedAccesses * s.evictionsPerAccess).toNat
        = s.issuedAccesses.toNat * s.evictionsPerAccess.toNat := by
      rw [UInt64.toNat_mul, Nat.mod_eq_of_lt h2]
    have hle : (s.completedEvictions + 1).toNat ≤ (s.issuedAccesses * s.evictionsPerAccess).toNat := by omega
    simp only [pendingEvictions, checkedMul, if_pos h2, okOr, checkedSub, bind, Except.bind, if_pos hle]
    congr 1
    apply UInt64.toNat_inj.mp
    rw [UInt64.toNat_sub_of_le _ _ (UInt64.le_iff_toNat_le.mpr hle),
      UInt64.toNat_sub_of_le _ _ (UInt64.le_iff_toNat_le.mpr (by rw [UInt64.toNat_one]; exact hn)), hm, hc, UInt64.toNat_one]
    omega

theorem reverseBitsMod_lt {index : UInt64} {leafBits : Nat} (h0 : 0 < leafBits) (h : leafBits < 32) :
    (reverseBitsMod index leafBits).toNat < 2 ^ leafBits := by
  unfold reverseBitsMod
  simp only [UInt32.toNat_shiftRight, UInt32.toNat_ofNat']
  rw [Nat.mod_eq_of_lt (a := 32 - leafBits) (by omega), Nat.mod_eq_of_lt (a := 32 - leafBits) (by omega),
    Nat.shiftRight_eq_div_pow, Nat.div_lt_iff_lt_mul (Nat.two_pow_pos _), ← Nat.pow_add,
    show leafBits + (32 - leafBits) = 32 by omega]
  exact UInt32.toNat_lt _

theorem evictionLeafAt_lt (p : OramParams) (i : UInt64) : (evictionLeafAt p i).toNat < p.leaves := by
  rw [p.leaves_eq]
  exact reverseBitsMod_lt p.leafBits_pos p.leafBits_lt

/-! ## The sequence of leaves -/

/-- The `i`-th leaf of the global sequence. -/
def scheduledLeaf (leafBits i : Nat) : UInt32 := UInt32.ofNat (bitReverse leafBits (i % 2 ^ leafBits))

theorem reverseBitsMod_eq {index : UInt64} {leafBits : Nat} (h0 : 0 < leafBits) (h : leafBits < 32) :
    reverseBitsMod index leafBits = scheduledLeaf leafBits index.toNat := by
  have hshift : (32 - leafBits) % 2 ^ 32 % 32 = 32 - leafBits := by omega
  have hbits : (UInt32.ofNat leafBits).toNat % 32 = leafBits := by
    rw [UInt32.toNat_ofNat', Nat.mod_eq_of_lt (a := leafBits) (by omega), Nat.mod_eq_of_lt h]
  have hpow : 2 ^ leafBits < 2 ^ 32 := Nat.pow_lt_pow_right (by decide) h
  have hmask : ((1 <<< UInt32.ofNat leafBits) - 1 : UInt32).toNat = 2 ^ leafBits - 1 := by
    have hone : (1 <<< UInt32.ofNat leafBits : UInt32).toNat = 2 ^ leafBits := by
      rw [UInt32.toNat_shiftLeft, hbits, UInt32.toNat_one, Nat.one_shiftLeft, Nat.mod_eq_of_lt hpow]
    rw [UInt32.toNat_sub_of_le _ _ (UInt32.le_iff_toNat_le.mpr (by
      rw [hone, UInt32.toNat_one]; exact Nat.one_le_two_pow)), hone, UInt32.toNat_one]
  apply UInt32.toNat_inj.mp
  rw [scheduledLeaf, UInt32.toNat_ofNat', Nat.mod_eq_of_lt ((bitReverse_lt _ _).trans hpow)]
  apply Nat.eq_of_testBit_eq
  intro j
  have hlow : ∀ i, (index.toUInt32 &&& ((1 <<< UInt32.ofNat leafBits) - 1)).toNat.testBit i
      = (decide (i < leafBits) && index.toNat.testBit i) := by
    intro i
    rw [UInt32.toNat_and, hmask, Nat.testBit_and, Nat.testBit_two_pow_sub_one, UInt64.toNat_toUInt32,
      Nat.testBit_mod_two_pow]
    by_cases hi : i < leafBits
    · rw [decide_eq_true hi, decide_eq_true (show i < 32 by omega), Bool.true_and, Bool.and_true]
    · rw [decide_eq_false hi, Bool.and_false, Bool.false_and]
  simp only [reverseBitsMod, if_neg (show ¬ leafBits = 32 by omega)]
  rw [UInt32.toNat_shiftRight, UInt32.toNat_ofNat', hshift, Nat.testBit_shiftRight, testBit_bitReverse,
    Nat.testBit_mod_two_pow]
  change ((index.toUInt32 &&& ((1 <<< UInt32.ofNat leafBits) - 1)).toBitVec.reverse.getLsbD (32 - leafBits + j)) = _
  rw [BitVec.getLsbD_reverse, BitVec.getMsbD]
  by_cases hj : j < leafBits
  · rw [decide_eq_true hj, decide_eq_true (show 32 - leafBits + j < 32 by omega), Bool.true_and, Bool.true_and]
    rw [show 32 - 1 - (32 - leafBits + j) = leafBits - 1 - j by omega]
    exact hlow _
  · rw [decide_eq_false hj, decide_eq_false (show ¬ 32 - leafBits + j < 32 by omega), Bool.false_and, Bool.false_and]

/-! ## Draining -/

variable {s t u : CircuitEvictionSchedule}

/-- `accesses` were recorded and `leaves` drained on the way from `s` to `t`. -/
structure Advanced (s : CircuitEvictionSchedule) (accesses : Nat) (leaves : List UInt32) (t : CircuitEvictionSchedule) :
    Prop where
  leafBits : t.leafBits = s.leafBits
  rate : t.evictionsPerAccess = s.evictionsPerAccess
  issued : t.issuedAccesses.toNat = s.issuedAccesses.toNat + accesses
  completed : t.completedEvictions.toNat = s.completedEvictions.toNat + leaves.length
  leaves : leaves = (List.range' s.completedEvictions.toNat leaves.length).map (scheduledLeaf s.leafBits)
  /-- No more is drained than is owed. -/
  owed : s.completedEvictions.toNat ≤ s.issuedAccesses.toNat * s.evictionsPerAccess.toNat →
    t.completedEvictions.toNat ≤ t.issuedAccesses.toNat * t.evictionsPerAccess.toNat

theorem Advanced.refl (s : CircuitEvictionSchedule) : Advanced s 0 [] s := ⟨rfl, rfl, rfl, rfl, rfl, id⟩

theorem Advanced.trans {n m : Nat} {l k : List UInt32} (h : Advanced s n l t) (h' : Advanced t m k u) :
    Advanced s (n + m) (l ++ k) u where
  leafBits := h'.leafBits.trans h.leafBits
  rate := h'.rate.trans h.rate
  issued := by rw [h'.issued, h.issued, Nat.add_assoc]
  completed := by rw [h'.completed, h.completed, List.length_append, Nat.add_assoc]
  leaves := by
    rw [List.length_append, ← List.range'_append_1, List.map_append, ← h.leaves, ← h.completed, ← h.leafBits,
      ← h'.leaves]
  owed := h'.owed ∘ h.owed

theorem recordAccess_advanced {r : Unit} (h : recordAccess s = (.ok r, t)) : Advanced s 1 [] t := by
  by_cases hroom : s.issuedAccesses.toNat + 1 < 2 ^ 64
  · rw [recordAccess_ok hroom] at h
    cases h
    have hnext : (s.issuedAccesses + 1).toNat = s.issuedAccesses.toNat + 1 := by
      rw [UInt64.toNat_add, UInt64.toNat_one, Nat.mod_eq_of_lt hroom]
    refine ⟨rfl, rfl, hnext, rfl, rfl, fun howed => ?_⟩
    change s.completedEvictions.toNat ≤ (s.issuedAccesses + 1).toNat * s.evictionsPerAccess.toNat
    rw [hnext, Nat.add_mul]
    omega
  · rw [recordAccess_error hroom] at h
    cases h

theorem completeOneEviction_advanced (hbits : 0 < s.leafBits ∧ s.leafBits < 32) {r : Option UInt32}
    (h : completeOneEviction s = (.ok r, t)) : Advanced s 0 r.toList t := by
  cases hp : s.pendingEvictions with
  | error e =>
    simp only [completeOneEviction, Eff.get_bind, hp] at h
    cases h
  | ok n =>
    by_cases hn : n = 0
    · simp only [completeOneEviction, Eff.get_bind, hp, Eff.lift_ok_bind, if_pos hn] at h
      cases h
      exact .refl s
    · have hpos : 0 < n.toNat := by
        rw [Nat.pos_iff_ne_zero]
        exact fun h0 => hn (UInt64.toNat_inj.mp h0)
      rw [(completeOneEviction_ok hp hpos).1] at h
      cases h
      obtain ⟨hsum, hlt⟩ := pendingEvictions_ok hp
      have hnext : (s.completedEvictions + 1).toNat = s.completedEvictions.toNat + 1 := by
        rw [UInt64.toNat_add, UInt64.toNat_one, Nat.mod_eq_of_lt (by omega)]
      refine ⟨rfl, rfl, rfl, hnext, ?_, fun _ => ?_⟩
      · change [s.nextEvictionLeaf] = [scheduledLeaf s.leafBits s.completedEvictions.toNat]
        rw [nextEvictionLeaf, reverseBitsMod_eq hbits.1 hbits.2]
      · change (s.completedEvictions + 1).toNat ≤ _
        rw [hnext]
        change _ ≤ s.issuedAccesses.toNat * s.evictionsPerAccess.toNat
        omega

/-- The loop adds to the leaves it was given. -/
theorem drainLoop_advanced (hbits : 0 < s.leafBits ∧ s.leafBits < 32) {turns : Nat} {before leaves : List UInt32}
    (h : drainLoop turns before s = (.ok leaves, t)) : ∃ new, leaves = before ++ new ∧ Advanced s 0 new t := by
  induction turns generalizing s before with
  | zero =>
    cases h
    exact ⟨[], (List.append_nil _).symm, .refl _⟩
  | succ turns ih =>
    obtain ⟨r, s₁, hone, hrest⟩ := Eff.bind_eq_ok h
    have hadv := completeOneEviction_advanced hbits hone
    cases r with
    | none =>
      cases hrest
      exact ⟨[], (List.append_nil _).symm, hadv⟩
    | some leaf =>
      obtain ⟨new, rfl, hnew⟩ := ih (by rwa [hadv.leafBits]) hrest
      exact ⟨leaf :: new, by rw [List.append_assoc, List.singleton_append], hadv.trans hnew⟩

theorem drainEvictions_advanced (hbits : 0 < s.leafBits ∧ s.leafBits < 32) {budget : UInt64} {leaves : List UInt32}
    (h : drainEvictions budget s = (.ok leaves, t)) : Advanced s 0 leaves t := by
  obtain ⟨new, rfl, hnew⟩ := drainLoop_advanced hbits h
  exact hnew

/-- A schedule after `k` more evictions. -/
def advance (s : CircuitEvictionSchedule) (k : Nat) : CircuitEvictionSchedule :=
  { s with completedEvictions := s.completedEvictions + UInt64.ofNat k }

theorem advance_zero (s : CircuitEvictionSchedule) : s.advance 0 = s := by
  rw [advance, show UInt64.ofNat 0 = 0 from rfl, UInt64.add_zero]

theorem advance_advance (s : CircuitEvictionSchedule) (j k : Nat) : (s.advance j).advance k = s.advance (j + k) := by
  simp only [advance, UInt64.ofNat_add, UInt64.add_assoc]

/-- What one eviction leaves owed, and how it moves the sequence. -/
theorem completeOneEviction_advance {n : UInt64} (h : s.pendingEvictions = .ok n) (hn : 0 < n.toNat) :
    completeOneEviction s = (.ok (some s.nextEvictionLeaf), s.advance 1) ∧
      ∃ m, (s.advance 1).pendingEvictions = .ok m ∧ m.toNat + 1 = n.toNat := by
  obtain ⟨hrun, hpend⟩ := completeOneEviction_ok h hn
  refine ⟨hrun, n - 1, hpend, ?_⟩
  rw [UInt64.toNat_sub_of_le _ _ (UInt64.le_iff_toNat_le.mpr (by rw [UInt64.toNat_one]; exact hn)), UInt64.toNat_one]
  omega

/-- A debt of `n` paths lets `n` paths through. -/
theorem completeAll_ok {α : Type} {n : UInt64} (h : s.pendingEvictions = .ok n) {l : List α} (hl : l.length ≤ n.toNat) :
    Eff.forEach (fun _ : α => completeOneEviction) l s
      = (.ok ((List.range l.length).map fun i => some (s.advance i).nextEvictionLeaf), s.advance l.length) := by
  induction l generalizing s n with
  | nil => rw [List.length_nil, advance_zero]; rfl
  | cons a l ih =>
    rw [List.length_cons] at hl
    obtain ⟨hone, m, hm, hmn⟩ := completeOneEviction_advance h (by omega)
    refine (Eff.forEach_ok (f := fun _ : α => completeOneEviction) hone (ih hm (by omega))).trans ?_
    simp only [advance_advance, Nat.add_comm 1, List.length_cons, List.range_succ_eq_map, List.map_cons, List.map_map,
      advance_zero]
    rfl

/-- The loop of a drain stops at its budget or with the debt. -/
theorem drainLoop_ok {n : UInt64} (h : s.pendingEvictions = .ok n) (turns : Nat) (before : List UInt32) :
    drainLoop turns before s = (.ok (before ++ (List.range (min turns n.toNat)).map fun i => (s.advance i).nextEvictionLeaf),
      s.advance (min turns n.toNat)) := by
  induction turns generalizing s n before with
  | zero => rw [Nat.zero_min, List.range_zero, List.map_nil, List.append_nil, advance_zero]; rfl
  | succ turns ih =>
    by_cases hn : n.toNat = 0
    · have hstop : completeOneEviction s = (.ok none, s) := by
        simp only [completeOneEviction, Eff.get_bind, h, Eff.lift_ok_bind, if_pos (show n = 0 from UInt64.toNat_inj.mp hn)]
        rfl
      rw [drainLoop, Eff.bind_ok hstop, hn, Nat.min_zero, List.range_zero, List.map_nil, List.append_nil, advance_zero]
      rfl
    · obtain ⟨hone, m, hm, hmn⟩ := completeOneEviction_advance h (by omega)
      have hmin : min (turns + 1) n.toNat = min turns m.toNat + 1 := by omega
      rw [drainLoop, Eff.bind_ok hone]
      change drainLoop turns (before ++ [s.nextEvictionLeaf]) (s.advance 1) = _
      rw [ih hm, hmin, List.range_succ_eq_map, List.map_cons, List.map_map, List.append_assoc, List.singleton_append,
        advance_advance, Nat.add_comm 1, advance_zero]
      congr 5
      funext i
      rw [Function.comp_apply, advance_advance, Nat.add_comm]

/-! ## Runs -/

/-- A call on the schedule. -/
inductive Call where
  | recordAccess
  | completeOneEviction
  | drainEvictions (budget : UInt64)
  deriving DecidableEq

def Call.accesses : Call → Nat
  | recordAccess => 1
  | _ => 0

/-- The call, with the leaves it drains. -/
def Call.run : Call → Eff Error CircuitEvictionSchedule (List UInt32)
  | recordAccess => do CircuitEvictionSchedule.recordAccess; return []
  | completeOneEviction => do return (← CircuitEvictionSchedule.completeOneEviction).toList
  | drainEvictions budget => CircuitEvictionSchedule.drainEvictions budget

theorem Call.run_advanced (hbits : 0 < s.leafBits ∧ s.leafBits < 32) {call : Call} {leaves : List UInt32}
    (h : call.run s = (.ok leaves, t)) : Advanced s call.accesses leaves t := by
  cases call with
  | recordAccess =>
    obtain ⟨r, s₁, hone, hrest⟩ := Eff.bind_eq_ok h
    cases hrest
    exact recordAccess_advanced hone
  | completeOneEviction =>
    obtain ⟨r, s₁, hone, hrest⟩ := Eff.bind_eq_ok h
    cases hrest
    exact completeOneEviction_advanced hbits hone
  | drainEvictions budget => exact drainEvictions_advanced hbits h

/-- A run in which no counter overflows. -/
theorem run_advanced (hbits : 0 < s.leafBits ∧ s.leafBits < 32) {calls : List Call} {leaves : List (List UInt32)}
    (h : Eff.forEach Call.run calls s = (.ok leaves, t)) : Advanced s (calls.map Call.accesses).sum leaves.flatten t := by
  induction calls generalizing s leaves with
  | nil =>
    cases h
    exact .refl _
  | cons call calls ih =>
    obtain ⟨l, s₁, hone, hrest⟩ := Eff.bind_eq_ok h
    obtain ⟨ls, s₂, hrun, hlast⟩ := Eff.bind_eq_ok hrest
    cases hlast
    have hadv := Call.run_advanced hbits hone
    exact hadv.trans (ih (by rwa [hadv.leafBits]) hrun)

/-! ## Staying accepted -/

/-- A schedule is in order when what it owes fits and nothing was drained ahead of it. -/
theorem pendingEvictions_iff (s : CircuitEvictionSchedule) : (∃ n, s.pendingEvictions = .ok n) ↔
    s.issuedAccesses.toNat * s.evictionsPerAccess.toNat < 2 ^ 64 ∧
      s.completedEvictions.toNat ≤ s.issuedAccesses.toNat * s.evictionsPerAccess.toNat := by
  constructor
  · rintro ⟨n, hn⟩
    obtain ⟨hsum, hlt⟩ := pendingEvictions_ok hn
    exact ⟨hlt, by omega⟩
  · rintro ⟨hlt, hle⟩
    have hmul : (s.issuedAccesses * s.evictionsPerAccess).toNat = s.issuedAccesses.toNat * s.evictionsPerAccess.toNat := by
      rw [UInt64.toNat_mul, Nat.mod_eq_of_lt hlt]
    refine ⟨s.issuedAccesses * s.evictionsPerAccess - s.completedEvictions, ?_⟩
    unfold pendingEvictions checkedMul checkedSub
    rw [if_pos hlt]
    simp only [okOr, bind, Except.bind]
    rw [if_pos (by rw [hmul]; exact hle)]

theorem validateForParams_iff (s : CircuitEvictionSchedule) (p : OramParams) : s.validateForParams p = .ok () ↔
    s.leafBits = p.leafBits ∧ ∃ n, s.pendingEvictions = .ok n := by
  unfold validateForParams
  by_cases hbits : s.leafBits = p.leafBits
  · rw [if_neg (not_not_intro hbits)]
    cases hp : s.pendingEvictions with
    | error e => simp [bind, Except.bind]
    | ok n => exact ⟨fun _ => ⟨hbits, n, rfl⟩, fun _ => rfl⟩
  · rw [if_pos hbits]
    constructor
    · intro h
      cases h
    · rintro ⟨h, -⟩
      exact absurd h hbits

theorem fromCounters_accepted {p : OramParams} {rate issued completed : UInt64}
    (h : fromCounters p rate issued completed = .ok s) : s.validateForParams p = .ok () := by
  unfold fromCounters at h
  obtain ⟨n, hn, hs⟩ := bind_result_ok h
  cases hs
  exact (validateForParams_iff _ _).mpr ⟨rfl, n, hn⟩

/-- A run from an accepted schedule ends on an accepted one if and only if what all its
    accesses owe fits: `record_access` checks its own counter only. -/
theorem run_accepted_iff {p : OramParams} {calls : List Call} {leaves : List (List UInt32)}
    (hs : (∃ rate issued completed, fromCounters p rate issued completed = .ok s) ∨ s.validateForParams p = .ok ())
    (h : Eff.forEach Call.run calls s = (.ok leaves, t)) :
    (t.validateForParams p = .ok () ∧ ∃ n, t.pendingEvictions = .ok n) ↔
      (s.issuedAccesses.toNat + (calls.map Call.accesses).sum) * s.evictionsPerAccess.toNat < 2 ^ 64 := by
  have haccepted : s.validateForParams p = .ok () := by
    rcases hs with ⟨rate, issued, completed, hfrom⟩ | hvalid
    · exact fromCounters_accepted hfrom
    · exact hvalid
  obtain ⟨hbits, hpending⟩ := (validateForParams_iff s p).mp haccepted
  obtain ⟨-, howed⟩ := (pendingEvictions_iff s).mp hpending
  have hadv := run_advanced (by rw [hbits]; exact ⟨p.leafBits_pos, p.leafBits_lt⟩) h
  have hproduct : t.issuedAccesses.toNat * t.evictionsPerAccess.toNat
      = (s.issuedAccesses.toNat + (calls.map Call.accesses).sum) * s.evictionsPerAccess.toNat := by
    rw [hadv.issued, hadv.rate]
  have hend : (∃ n, t.pendingEvictions = .ok n) ↔
      (s.issuedAccesses.toNat + (calls.map Call.accesses).sum) * s.evictionsPerAccess.toNat < 2 ^ 64 := by
    rw [pendingEvictions_iff, hproduct]
    exact and_iff_left (by rw [← hproduct]; exact hadv.owed howed)
  rw [validateForParams_iff, hend, hadv.leafBits, hbits]
  exact ⟨fun hboth => hboth.2, fun hfits => ⟨⟨rfl, hfits⟩, hfits⟩⟩

/-- Two leaves, one block of one byte. -/
def twoLeaves : OramParams := (OramParams.withLeaves 1 1 2 (by decide)).toOption.get (by decide +kernel)

theorem run_accepted_iff_twoLeaves :
    (withRate twoLeaves 2).validateForParams twoLeaves = .ok () ∧
      ((recordAccess (withRate twoLeaves 2)).2.validateForParams twoLeaves = .ok () ∧
        ∃ n, (recordAccess (withRate twoLeaves 2)).2.pendingEvictions = .ok n) := by
  have hstart : (withRate twoLeaves 2).validateForParams twoLeaves = .ok () := by decide +kernel
  have hrun : Eff.forEach Call.run [.recordAccess] (withRate twoLeaves 2)
      = (.ok [[]], (recordAccess (withRate twoLeaves 2)).2) := rfl
  exact ⟨hstart, (run_accepted_iff (.inr hstart) hrun).mpr (by decide)⟩

/-- At two paths an access, the access after 2^63 - 1 of them owes 2^64 paths. -/
theorem record_outruns_schedule : ∃ s t, fromCounters twoLeaves 2 9223372036854775807 0 = .ok s ∧
    recordAccess s = (.ok (), t) ∧ t.validateForParams twoLeaves = .error (.invalidInput "eviction counter overflow") ∧
    t.pendingEvictions = .error (.invalidInput "eviction counter overflow") := by
  refine ⟨⟨1, 2, 9223372036854775807, 0⟩, ⟨1, 2, 9223372036854775808, 0⟩, ?_, rfl, ?_, ?_⟩
  all_goals decide +kernel

end CircuitEvictionSchedule
end BpirOram
