/-
  BpirOram.Basic — the crate's error type (`error.rs`) and its constant-shape selection
  helpers (`ct.rs`).

  A `Choice` is a bit held in an optimizer barrier; here it is a `Bool`, and a
  `conditional_assign` is a choice between two values. What the barrier is for (no
  branch in the compiled code) is not modelled.
-/

import BpirOram.Lib.Eff
import BpirOram.Lib.Bytes
import BpirOram.Lib.Usize

namespace BpirOram

open Lib

inductive Error where
  | invalidParams (msg : String)
  | invalidInput (msg : String)
  | stashOverflow (len capacity : Nat)
  | blockNotFound (logicalId : UInt64)
  | io
  | bincode
  | hex
  | aead
  /-- Not an `Error` of the crate: an `expect` that fails. -/
  | panic (msg : String)
  deriving DecidableEq, Repr

abbrev Result (α : Type) := Except Error α

theorem bind_result_ok {α β : Type} {m : Result α} {f : α → Result β} {x : β} (h : m >>= f = .ok x) :
    ∃ a, m = .ok a ∧ f a = .ok x := by
  cases m with
  | error e => cases h
  | ok a => exact ⟨a, rfl, h⟩

theorem toOption_get {α : Type} {r : Result α} (h : r.toOption.isSome) : r = .ok (r.toOption.get h) := by
  cases r
  · cases h
  · rfl

theorem mapM_ok {ε α β : Type} {f : α → Except ε β} {g : α → β} {l : List α} (h : ∀ a ∈ l, f a = .ok (g a)) :
    l.mapM f = .ok (l.map g) := by
  induction l with
  | nil => rfl
  | cons a as ih =>
    rw [List.mapM_cons, h a (by simp), ih fun x hx => h x (by simp [hx])]
    rfl

/-- What a loop that ended well says of each of its turns. -/
theorem mapM_eq_ok {α β : Type} {f : α → Result β} {l : List α} {bs : List β} (h : l.mapM f = .ok bs) :
    List.Forall₂ (fun a b => f a = .ok b) l bs := by
  induction l generalizing bs with
  | nil => cases h; exact .nil
  | cons a l ih =>
    rw [List.mapM_cons] at h
    obtain ⟨b, hb, h⟩ := bind_result_ok h
    obtain ⟨rest, hrest, h⟩ := bind_result_ok h
    cases h
    exact .cons hb (ih hrest)

/-! ## Rounding up -/

/-- `div_ceil`. -/
def divCeil (n m : Nat) : Nat := n / m + (if n % m = 0 then 0 else 1)

theorem lt_divCeil {n m i : Nat} (hi : i < n) : i / m < divCeil n m := by
  rw [divCeil]
  have hle := Nat.div_le_div_right (c := m) (Nat.le_of_lt hi)
  split
  · rename_i h0
    rcases Nat.eq_zero_or_pos m with rfl | hm
    · simp at h0
      omega
    · rw [Nat.add_zero, Nat.div_lt_iff_lt_mul hm]
      have := Nat.div_add_mod n m
      rw [h0, Nat.mul_comm] at this
      omega
  · omega

/-- A block in range starts at an item. -/
theorem mul_lt_of_lt_divCeil {n m k : Nat} (hm : 0 < m) (h : k < divCeil n m) : k * m < n := by
  rw [divCeil] at h
  have := Nat.div_add_mod n m
  have hk : k ≤ n / m := by split at h <;> omega
  have hmul := Nat.mul_le_mul_right m hk
  rw [Nat.mul_comm m] at this
  split at h
  · have hlt : (k + 1) * m ≤ n / m * m := Nat.mul_le_mul_right m (by omega)
    rw [Nat.succ_mul] at hlt
    omega
  · omega

/-! ## Ranges -/

/-- `start..start + len` of a slice of `bound` bytes, which panics out of range. -/
def checkRange (bound start len : Nat) : Result Unit :=
  let stop := usizeAdd start len
  if start > stop then .error (.panic "slice index starts after its end")
  else if stop > bound then .error (.panic "range end index out of range")
  else .ok ()

/-- A range in bounds did not wrap. -/
theorem checkRange_ok {bound start len : Nat} (hlen : len < 2 ^ 64) (h : checkRange bound start len = .ok ()) :
    start + len ≤ bound := by
  unfold checkRange at h
  simp only at h
  split at h
  · cases h
  · rename_i horder
    have hstop := usizeAdd_of_le hlen (Nat.not_lt.mp horder)
    split at h
    · cases h
    · omega

theorem checkRange_of_le {bound start len : Nat} (hbound : bound < 2 ^ 64) (h : start + len ≤ bound) :
    checkRange bound start len = .ok () := by
  rw [checkRange, usizeAdd_of_lt (by omega), if_neg (by omega), if_neg (by omega)]

/-! ## `ct.rs` -/

namespace Ct

abbrev Choice := Bool

def mask8 (choice : Choice) : UInt8 := 0 - (if choice then 1 else 0)

/-- `conditional_assign`, for every scalar the crate moves (`cmov_u8` … `cmov_usize`). -/
def cmov {α : Type} (dst src : α) (choice : Choice) : α := if choice then src else dst

/-- `cmov_bytes`: byte by byte over the shorter of the two. -/
def cmovBytes (dst src : Bytes) (choice : Choice) : Bytes :=
  List.zipWith (fun d s => cmov d s choice) dst src ++ dst.drop src.length

/-- `clear_payload_if` (and `clear_payload_volatile_if`, its copy in `block.rs`). -/
def clearPayloadIf (payload : Bytes) (choice : Choice) : Bytes :=
  payload.map fun byte => byte &&& ~~~ mask8 choice

@[simp] theorem cmov_true {α : Type} (dst src : α) : cmov dst src true = src := rfl
@[simp] theorem cmov_false {α : Type} (dst src : α) : cmov dst src false = dst := rfl

@[simp] theorem cmovBytes_false (dst src : Bytes) : cmovBytes dst src false = dst := by
  have h : ∀ dst src : Bytes, List.zipWith (fun d _ => d) dst src = dst.take src.length := by
    intro dst
    induction dst with
    | nil => simp
    | cons d ds ih => intro src; cases src <;> simp [ih]
  simp only [cmovBytes, cmov_false, h, List.take_append_drop]

theorem cmovBytes_true {dst src : Bytes} (h : dst.length = src.length) : cmovBytes dst src true = src := by
  have hz : ∀ dst src : Bytes, dst.length = src.length → List.zipWith (fun _ s => s) dst src = src := by
    intro dst
    induction dst with
    | nil => intro src h; cases src <;> simp_all
    | cons d ds ih => intro src h; cases src <;> simp_all
  simp only [cmovBytes, cmov_true, hz dst src h]
  rw [List.drop_of_length_le (by omega), List.append_nil]

@[simp] theorem clearPayloadIf_false (payload : Bytes) : clearPayloadIf payload false = payload := by
  simp [clearPayloadIf, mask8]

@[simp] theorem clearPayloadIf_true (payload : Bytes) :
    clearPayloadIf payload true = List.replicate payload.length 0 := by
  simp [clearPayloadIf, mask8, List.map_const']

end Ct
end BpirOram
