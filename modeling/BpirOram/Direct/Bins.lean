/-
  BpirOram.Direct.Bins — `direct_index_candidate_bins` (`direct.rs`): the bins a script
  hash may be in.

  The loop draws a bin for each nonce and keeps the new ones, until it has `hash_fns` of
  them. It may never get there, so it runs on fuel here and `none` is running out of it.
  As the nonce goes round, every 64-bit word is drawn, so every bin is: the loop ends
  exactly when there are `hash_fns` bins (`candidateBins_terminates_iff`), within 2^64
  nonces (`candidateBins_complete`).
-/

import BpirOram.Basic
import BpirOram.Lib.Mix
import BpirOram.Lib.Packed
import Mathlib.Data.Finset.Card
import Mathlib.Data.Finset.Range
import Mathlib.Data.Finset.Image

namespace BpirOram.Direct

open Lib

def scriptHashSize : Nat := 20

abbrev ScriptHash := FixedBytes scriptHashSize

def cuckooKeyMix : UInt64 := 0x517c_c1b7_2722_0a95
def goldenRatio : UInt64 := 0x9e37_79b9_7f4a_7c15

def splitmix64 (x : UInt64) : UInt64 :=
  let x := x ^^^ (x >>> 30)
  let x := x * 0xbf58_476d_1ce4_e5b9
  let x := x ^^^ (x >>> 27)
  let x := x * 0x94d0_49bb_1331_11eb
  x ^^^ (x >>> 31)

def shA (scriptHash : Bytes) : UInt64 := UInt64.ofNat (ofLe (slice scriptHash 0 8))
def shB (scriptHash : Bytes) : UInt64 := UInt64.ofNat (ofLe (slice scriptHash 8 8))
def shC (scriptHash : Bytes) : UInt64 := UInt64.ofNat (ofLe (slice scriptHash 16 4))

def deriveDirectCuckooKey (seed : UInt64) (hashFn : Nat) : UInt64 :=
  splitmix64 (seed + UInt64.ofNat hashFn * cuckooKeyMix)

def directCuckooHash (scriptHash : Bytes) (key : UInt64) (bins : Nat) : Nat :=
  let h := shA scriptHash ^^^ key
  let h := h ^^^ shB scriptHash
  let h := splitmix64 (h ^^^ shC scriptHash)
  h.toNat % bins

/-- The loop, with `fuel` turns to go. -/
def candidateLoop (scriptHash : Bytes) (seed : UInt64) (hashFns bins : Nat) : Nat → Nat → List Nat → Option (List Nat)
  | 0, _, out => if out.length < hashFns then none else some out
  | fuel + 1, nonce, out =>
    if out.length < hashFns then
      let key := deriveDirectCuckooKey seed nonce
      let bin := directCuckooHash scriptHash key bins
      candidateLoop scriptHash seed hashFns bins fuel (nonce + 1) (if out.contains bin then out else out ++ [bin])
    else some out

def directIndexCandidateBins (fuel : Nat) (scriptHash : Bytes) (seed : UInt64) (hashFns bins : Nat) :
    Option (Result (List Nat)) :=
  if scriptHash.length ≠ scriptHashSize then
    some (.error (.invalidInput s!"script_hash len {scriptHash.length} != {scriptHashSize}"))
  else if hashFns = 0 then some (.error (.invalidInput "hash_fns must be > 0"))
  else if bins = 0 then some (.error (.invalidInput "bins must be > 0"))
  else (candidateLoop scriptHash seed hashFns bins fuel 0 []).map .ok

/-! ## Every bin is drawn -/

theorem splitmix64_injective : Function.Injective splitmix64 := by
  have h1 := xorShift_injective (k := 30) (by decide)
  have h2 := mul_injective (c := 0xbf58_476d_1ce4_e5b9) (d := 0x96de_1b17_3f11_9089) (by decide)
  have h3 := xorShift_injective (k := 27) (by decide)
  have h4 := mul_injective (c := 0x94d0_49bb_1331_11eb) (d := 0x3196_42b2_d24d_8ec3) (by decide)
  have h5 := xorShift_injective (k := 31) (by decide)
  exact h5.comp (h4.comp (h3.comp (h2.comp h1)))

variable {scriptHash : Bytes} {seed : UInt64} {hashFns bins : Nat}

/-- The bin drawn for a nonce. -/
def drawnBin (scriptHash : Bytes) (seed : UInt64) (bins nonce : Nat) : Nat :=
  directCuckooHash scriptHash (deriveDirectCuckooKey seed nonce) bins

/-- Within 2^64 nonces the hash takes every value. -/
theorem exists_nonce (scriptHash : Bytes) (seed word : UInt64) : ∃ nonce < 2 ^ 64,
    splitmix64 (shA scriptHash ^^^ deriveDirectCuckooKey seed nonce ^^^ shB scriptHash ^^^ shC scriptHash) = word := by
  have hsurj := surjective_of_injective splitmix64_injective
  obtain ⟨a, ha⟩ := hsurj word
  obtain ⟨k, hk⟩ := hsurj (shA scriptHash ^^^ (a ^^^ shC scriptHash ^^^ shB scriptHash))
  have hinv : (0x2040_003d_7809_70bd : UInt64) * cuckooKeyMix = 1 := by decide
  refine ⟨((k - seed) * 0x2040_003d_7809_70bd).toNat, UInt64.toNat_lt _, ?_⟩
  rw [deriveDirectCuckooKey, UInt64.ofNat_toNat, UInt64.mul_assoc, hinv, UInt64.mul_one, UInt64.add_comm,
    UInt64.sub_add_cancel, hk, ← ha]
  congr 1
  rw [← UInt64.xor_assoc (shA scriptHash), UInt64.xor_self, UInt64.zero_xor, UInt64.xor_assoc (a ^^^ _),
    UInt64.xor_self, UInt64.xor_zero, UInt64.xor_assoc, UInt64.xor_self, UInt64.xor_zero]

theorem drawnBin_lt (hb : 0 < bins) (nonce : Nat) : drawnBin scriptHash seed bins nonce < bins := Nat.mod_lt _ hb

theorem exists_drawnBin (hlt : bins < 2 ^ 64) {bin : Nat} (h : bin < bins) :
    ∃ nonce < 2 ^ 64, drawnBin scriptHash seed bins nonce = bin := by
  obtain ⟨nonce, hn, hw⟩ := exists_nonce scriptHash seed (UInt64.ofNat bin)
  refine ⟨nonce, hn, ?_⟩
  simp only [drawnBin, directCuckooHash, hw]
  rw [UInt64.toNat_ofNat', Nat.mod_eq_of_lt (show bin < 2 ^ 64 by omega), Nat.mod_eq_of_lt h]

/-! ## The loop -/

/-- What the loop has collected before `nonce`: the bins drawn so far, each once. -/
structure Collected (scriptHash : Bytes) (seed : UInt64) (bins nonce : Nat) (out : List Nat) : Prop where
  nodup : out.Nodup
  mem : ∀ bin, bin ∈ out ↔ ∃ k < nonce, drawnBin scriptHash seed bins k = bin

theorem Collected.nil : Collected scriptHash seed bins 0 [] := ⟨List.nodup_nil, by simp⟩

theorem Collected.step {nonce : Nat} {out : List Nat} (h : Collected scriptHash seed bins nonce out) :
    Collected scriptHash seed bins (nonce + 1)
      (if out.contains (drawnBin scriptHash seed bins nonce) then out else out ++ [drawnBin scriptHash seed bins nonce]) := by
  have hstep : ∀ bin, (∃ k < nonce + 1, drawnBin scriptHash seed bins k = bin) ↔
      bin ∈ out ∨ bin = drawnBin scriptHash seed bins nonce := by
    intro bin
    rw [h.mem]
    constructor
    · rintro ⟨k, hk, rfl⟩
      rcases Nat.lt_succ_iff_lt_or_eq.mp hk with hlt | rfl
      · exact .inl ⟨k, hlt, rfl⟩
      · exact .inr rfl
    · rintro (⟨k, hk, rfl⟩ | rfl)
      · exact ⟨k, Nat.lt_succ_of_lt hk, rfl⟩
      · exact ⟨nonce, Nat.lt_succ_self _, rfl⟩
  by_cases hin : out.contains (drawnBin scriptHash seed bins nonce) = true
  · rw [if_pos hin]
    refine ⟨h.nodup, fun bin => ?_⟩
    rw [hstep]
    exact ⟨.inl, fun hor => hor.elim id fun he => he ▸ List.contains_iff_mem.mp hin⟩
  · rw [if_neg hin]
    have hnot : drawnBin scriptHash seed bins nonce ∉ out := fun hm => hin (List.contains_iff_mem.mpr hm)
    refine ⟨List.nodup_append.mpr ⟨h.nodup, List.nodup_singleton _, ?_⟩, fun bin => ?_⟩
    · rintro a ha b hb rfl
      exact hnot (List.mem_singleton.mp hb ▸ ha)
    · rw [hstep, List.mem_append, List.mem_singleton]

/-- A loop that ended well: it has `hash_fns` bins, and drew each of them. -/
theorem candidateLoop_some {fuel nonce : Nat} {out res : List Nat} (h : Collected scriptHash seed bins nonce out)
    (hle : out.length ≤ hashFns) (hrun : candidateLoop scriptHash seed hashFns bins fuel nonce out = some res) :
    res.length = hashFns ∧ ∃ last, Collected scriptHash seed bins last res := by
  induction fuel generalizing nonce out with
  | zero =>
    rw [candidateLoop] at hrun
    split at hrun
    · cases hrun
    · cases hrun
      exact ⟨by omega, nonce, h⟩
  | succ fuel ih =>
    rw [candidateLoop] at hrun
    split at hrun
    · rename_i hlt
      refine ih h.step ?_ hrun
      split
      · exact hle
      · rw [List.length_append]
        exact hlt
    · cases hrun
      exact ⟨by omega, nonce, h⟩

/-- More fuel does not change the result. -/
theorem candidateLoop_fuel {fuel fuel' nonce : Nat} {out res res' : List Nat}
    (h : candidateLoop scriptHash seed hashFns bins fuel nonce out = some res)
    (h' : candidateLoop scriptHash seed hashFns bins fuel' nonce out = some res') : res = res' := by
  induction fuel generalizing fuel' nonce out with
  | zero =>
    rw [candidateLoop] at h
    split at h
    · cases h
    · rename_i hge
      cases h
      cases fuel' <;> rw [candidateLoop, if_neg hge] at h' <;> cases h' <;> rfl
  | succ fuel ih =>
    rw [candidateLoop] at h
    split at h
    · rename_i hlt
      cases fuel' with
      | zero => rw [candidateLoop, if_pos hlt] at h'; cases h'
      | succ fuel' => rw [candidateLoop, if_pos hlt] at h'; exact ih h h'
    · rename_i hge
      cases h
      cases fuel' <;> rw [candidateLoop, if_neg hge] at h' <;> cases h' <;> rfl

/-- A loop that ran out of fuel has drawn that many bins and is still short. -/
theorem candidateLoop_none {fuel nonce : Nat} {out : List Nat} (h : Collected scriptHash seed bins nonce out)
    (hrun : candidateLoop scriptHash seed hashFns bins fuel nonce out = none) :
    ∃ res : List Nat, Collected scriptHash seed bins (nonce + fuel) res ∧ res.length < hashFns := by
  induction fuel generalizing nonce out with
  | zero =>
    rw [candidateLoop] at hrun
    split at hrun
    · exact ⟨out, h, ‹_›⟩
    · cases hrun
  | succ fuel ih =>
    rw [candidateLoop] at hrun
    split at hrun
    · obtain ⟨res, hres, hlt⟩ := ih h.step hrun
      exact ⟨res, by rwa [Nat.add_assoc, Nat.add_comm 1] at hres, hlt⟩
    · cases hrun

theorem Collected.length_le {nonce : Nat} {out : List Nat} (hb : 0 < bins) (h : Collected scriptHash seed bins nonce out) :
    out.length ≤ bins := by
  rw [← List.toFinset_card_of_nodup h.nodup, ← Finset.card_range bins]
  refine Finset.card_le_card fun bin hm => ?_
  obtain ⟨k, -, rfl⟩ := (h.mem bin).mp (List.mem_toFinset.mp hm)
  exact Finset.mem_range.mpr (drawnBin_lt hb k)

/-- After 2^64 turns every bin was drawn. -/
theorem Collected.length_eq {out : List Nat} (hlt : bins < 2 ^ 64) (h : Collected scriptHash seed bins (2 ^ 64) out) :
    bins ≤ out.length := by
  rw [← List.toFinset_card_of_nodup h.nodup, ← Finset.card_range bins]
  refine Finset.card_le_card fun bin hm => ?_
  exact List.mem_toFinset.mpr ((h.mem bin).mpr (exists_drawnBin hlt (Finset.mem_range.mp hm)))

theorem candidateBins_eq_loop {fuel : Nat} (hl : scriptHash.length = scriptHashSize) (hf : 0 < hashFns) (hb : 0 < bins) :
    directIndexCandidateBins fuel scriptHash seed hashFns bins
      = (candidateLoop scriptHash seed hashFns bins fuel 0 []).map .ok := by
  rw [directIndexCandidateBins, if_neg (by simp [hl]), if_neg (by omega), if_neg (by omega)]

/-- The loop ends when there are enough bins, and only then. -/
theorem candidateBins_terminates_iff (hl : scriptHash.length = scriptHashSize) (hf : 0 < hashFns) (hb : 0 < bins)
    (hlt : bins < 2 ^ 64) :
    (∃ fuel, (directIndexCandidateBins fuel scriptHash seed hashFns bins).isSome) ↔ hashFns ≤ bins := by
  have hrun : ∀ fuel, directIndexCandidateBins fuel scriptHash seed hashFns bins
      = (candidateLoop scriptHash seed hashFns bins fuel 0 []).map .ok := fun fuel => candidateBins_eq_loop hl hf hb
  constructor
  · rintro ⟨fuel, h⟩
    rw [hrun, Option.isSome_map] at h
    obtain ⟨res, hres⟩ := Option.isSome_iff_exists.mp h
    obtain ⟨hlen, last, hcol⟩ := candidateLoop_some Collected.nil (Nat.zero_le _) hres
    rw [← hlen]
    exact hcol.length_le hb
  · intro hle
    refine ⟨2 ^ 64, ?_⟩
    rw [hrun, Option.isSome_map]
    by_contra hnone
    obtain ⟨res, hcol, hshort⟩ := candidateLoop_none Collected.nil (Option.not_isSome_iff_eq_none.mp hnone)
    rw [Nat.zero_add] at hcol
    have := hcol.length_eq hlt
    omega

/-- What candidate bins are: `hash_fns` bins of the table, all different, whatever the fuel. -/
theorem candidateBins_ok {fuel : Nat} {res : List Nat}
    (h : directIndexCandidateBins fuel scriptHash seed hashFns bins = some (.ok res)) :
    res.length = hashFns ∧ res.Nodup ∧ (∀ bin ∈ res, bin < bins) ∧ 0 < hashFns := by
  unfold directIndexCandidateBins at h
  split at h
  · cases h
  · split at h
    · cases h
    · split at h
      · cases h
      · obtain ⟨res', hres, he⟩ := Option.map_eq_some_iff.mp h
        cases he
        obtain ⟨hlen, last, hcol⟩ := candidateLoop_some Collected.nil (Nat.zero_le _) hres
        refine ⟨hlen, hcol.nodup, fun bin hm => ?_, by omega⟩
        obtain ⟨k, -, rfl⟩ := (hcol.mem bin).mp hm
        exact drawnBin_lt (by omega) k

theorem candidateBins_fuel {fuel fuel' : Nat} {r r' : Result (List Nat)}
    (h : directIndexCandidateBins fuel scriptHash seed hashFns bins = some r)
    (h' : directIndexCandidateBins fuel' scriptHash seed hashFns bins = some r') : r = r' := by
  unfold directIndexCandidateBins at h h'
  by_cases h1 : scriptHash.length ≠ scriptHashSize
  · rw [if_pos h1] at h h'
    exact Option.some.inj (h.symm.trans h')
  · rw [if_neg h1] at h h'
    by_cases h2 : hashFns = 0
    · rw [if_pos h2] at h h'
      exact Option.some.inj (h.symm.trans h')
    · rw [if_neg h2] at h h'
      by_cases h3 : bins = 0
      · rw [if_pos h3] at h h'
        exact Option.some.inj (h.symm.trans h')
      · rw [if_neg h3] at h h'
        obtain ⟨res, hres, rfl⟩ := Option.map_eq_some_iff.mp h
        obtain ⟨res', hres', rfl⟩ := Option.map_eq_some_iff.mp h'
        rw [candidateLoop_fuel hres hres']

/-- Within 2^64 nonces the loop has its bins: `hash_fns` of them, all different, all in the
    table. -/
theorem candidateBins_complete (scriptHash : ScriptHash) (seed : UInt64) (h1 : 1 ≤ hashFns) (hle : hashFns ≤ bins)
    (hlt : bins < 2 ^ 64) : ∃ res, directIndexCandidateBins (2 ^ 64) scriptHash.val seed hashFns bins = some (.ok res) ∧
      res.length = hashFns ∧ res.Nodup ∧ ∀ bin ∈ res, bin < bins := by
  have hrun : ∀ fuel, directIndexCandidateBins fuel scriptHash.val seed hashFns bins
      = (candidateLoop scriptHash.val seed hashFns bins fuel 0 []).map .ok :=
    fun fuel => candidateBins_eq_loop scriptHash.property h1 (by omega)
  cases hloop : candidateLoop scriptHash.val seed hashFns bins (2 ^ 64) 0 [] with
  | none =>
    obtain ⟨res, hcol, hshort⟩ := candidateLoop_none Collected.nil hloop
    rw [Nat.zero_add] at hcol
    have hall := hcol.length_eq hlt
    omega
  | some res =>
    have hres : directIndexCandidateBins (2 ^ 64) scriptHash.val seed hashFns bins = some (.ok res) := by
      rw [hrun, hloop]
      rfl
    obtain ⟨hlen, hnodup, hin, -⟩ := candidateBins_ok hres
    exact ⟨res, hres, hlen, hnodup, hin⟩

/-- As many hash functions as bins: every bin is drawn. -/
theorem candidateBins_complete_full :
    ∃ res, directIndexCandidateBins (2 ^ 64) (FixedBytes.zero 20).val 0 7 7 = some (.ok res) ∧
    res.length = 7 ∧ res.Nodup ∧ ∀ bin ∈ res, bin < 7 :=
  candidateBins_complete (FixedBytes.zero 20) 0 (by decide) (by decide) (by decide)

end BpirOram.Direct
