/-
  BpirOram.Lib.Codec — formats that are read from the front.

  A `Codec` reads back what it wrote, whatever follows, and what it has read does not depend
  on what follows: two laws that every construction keeps (numbers, arrays, pairs, vectors,
  tagged alternatives, records). From them:
  - `decode_strictPrefix`: nothing is read from a strict prefix of what was written.
-/

import BpirOram.Lib.Bytes

namespace BpirOram.Lib

/-- A format for the values that fit it. Decoding ends with the bytes it left unread. -/
structure Codec (α : Type) where
  Fits : α → Prop
  encode : α → Bytes
  decode : Bytes → Option (α × Bytes)
  decode_encode : ∀ {a : α}, Fits a → ∀ rest, decode (encode a ++ rest) = some (a, rest)
  decode_append : ∀ {b rest : Bytes} {a : α}, decode b = some (a, rest) →
    ∀ more, decode (b ++ more) = some (a, rest ++ more)

namespace Codec

variable {α β : Type}

theorem decode_all (c : Codec α) {a : α} (h : c.Fits a) : c.decode (c.encode a) = some (a, []) := by
  have hrest := c.decode_encode h []
  rwa [List.append_nil] at hrest

/-- Nothing is read from a strict prefix: what followed would be left unread of the whole. -/
theorem decode_strictPrefix (c : Codec α) {a : α} (h : c.Fits a) {n : Nat} (hn : n < (c.encode a).length) :
    c.decode ((c.encode a).take n) = none := by
  cases hd : c.decode ((c.encode a).take n) with
  | none => rfl
  | some x =>
    have hwhole : c.decode ((c.encode a).take n ++ (c.encode a).drop n) = some (x.1, x.2 ++ (c.encode a).drop n) :=
      c.decode_append hd _
    rw [List.take_append_drop, c.decode_all h] at hwhole
    have hnone : x.2 ++ (c.encode a).drop n = [] := (congrArg Prod.snd (Option.some.inj hwhole)).symm
    have hlen := congrArg List.length hnone
    rw [List.length_append, List.length_drop, List.length_nil] at hlen
    omega

/-! ## Numbers and arrays -/

/-- The next `n` bytes. -/
def takeBytes (n : Nat) (b : Bytes) : Option (Bytes × Bytes) :=
  if n ≤ b.length then some (b.take n, b.drop n) else none

theorem takeBytes_append {n : Nat} {x : Bytes} (h : x.length = n) (rest : Bytes) :
    takeBytes n (x ++ rest) = some (x, rest) := by
  subst h
  rw [takeBytes, if_pos (by simp), List.take_left, List.drop_left]

theorem takeBytes_more {n : Nat} {b x rest : Bytes} (h : takeBytes n b = some (x, rest)) (more : Bytes) :
    takeBytes n (b ++ more) = some (x, rest ++ more) := by
  unfold takeBytes at h ⊢
  split at h
  · rename_i hle
    cases h
    rw [if_pos (by rw [List.length_append]; omega), List.take_append_of_le_length hle, List.drop_append_of_le_length hle]
  · cases h

/-- `n` bytes as they are. -/
def array (n : Nat) : Codec Bytes where
  Fits b := b.length = n
  encode b := b
  decode := takeBytes n
  decode_encode h := takeBytes_append h
  decode_append := takeBytes_more

/-- A number in `w` bytes, least significant first. -/
def le (w : Nat) : Codec Nat where
  Fits n := n < 256 ^ w
  encode := toLe w
  decode b := (takeBytes w b).map fun x => (ofLe x.1, x.2)
  decode_encode h rest := by rw [takeBytes_append (toLe_length _ _), Option.map_some, ofLe_toLe _ _ h]
  decode_append h more := by
    obtain ⟨x, hx, he⟩ := Option.map_eq_some_iff.mp h
    cases he
    rw [takeBytes_more hx, Option.map_some]

theorem le_decode {w : Nat} {x : Bytes} (h : x.length = w) (rest : Bytes) : (le w).decode (x ++ rest) = some (ofLe x, rest) := by
  simp only [le, takeBytes_append h, Option.map_some]

/-! ## Records -/

/-- Nothing at all. -/
def unit : Codec Unit where
  Fits _ := True
  encode _ := []
  decode b := some ((), b)
  decode_encode _ _ := rfl
  decode_append h more := by cases h; rfl

/-- One value, then another. -/
def pair (c : Codec α) (d : Codec β) : Codec (α × β) where
  Fits x := c.Fits x.1 ∧ d.Fits x.2
  encode x := c.encode x.1 ++ d.encode x.2
  decode b := (c.decode b).bind fun x => (d.decode x.2).map fun y => ((x.1, y.1), y.2)
  decode_encode h rest := by
    rw [List.append_assoc, c.decode_encode h.1, Option.bind_some, d.decode_encode h.2, Option.map_some]
  decode_append h more := by
    obtain ⟨x, hx, h⟩ := Option.bind_eq_some_iff.mp h
    obtain ⟨y, hy, he⟩ := Option.map_eq_some_iff.mp h
    cases he
    rw [c.decode_append hx, Option.bind_some, d.decode_append hy, Option.map_some]

/-- A value sent as another one; `back` may refuse what none is sent as. -/
def through (c : Codec β) (sent : α → β) (back : β → Option α) (h : ∀ a, back (sent a) = some a) : Codec α where
  Fits a := c.Fits (sent a)
  encode a := c.encode (sent a)
  decode b := (c.decode b).bind fun x => (back x.1).map fun a => (a, x.2)
  decode_encode hf rest := by rw [c.decode_encode hf, Option.bind_some, h, Option.map_some]
  decode_append hd more := by
    obtain ⟨x, hx, hd⟩ := Option.bind_eq_some_iff.mp hd
    obtain ⟨a, ha, he⟩ := Option.map_eq_some_iff.mp hd
    cases he
    rw [c.decode_append hx, Option.bind_some, ha, Option.map_some]

/-- The values of a structure with these fields. -/
def record (c : Codec β) (fields : α → β) (mk : β → α) (h : ∀ a, mk (fields a) = a) : Codec α :=
  c.through fields (fun b => some (mk b)) fun a => congrArg some (h a)

/-- What follows a value that was read is read as the next one. -/
theorem pair_decode {c : Codec α} {d : Codec β} {b rest : Bytes} {a : α} (h : c.decode b = some (a, rest)) :
    (c.pair d).decode b = (d.decode rest).map fun y => ((a, y.1), y.2) := by
  simp only [pair, h, Option.bind_some]

theorem pair_none {c : Codec α} {d : Codec β} {b : Bytes} (h : c.decode b = none) : (c.pair d).decode b = none := by
  simp only [pair, h, Option.bind_none]

theorem record_decode {c : Codec β} {fields : α → β} {mk : β → α} {h : ∀ a, mk (fields a) = a} {b : Bytes} :
    (c.record fields mk h).decode b = (c.decode b).map fun x => (mk x.1, x.2) := by
  simp only [record, through, Option.map_some]
  cases c.decode b <;> rfl

/-! ## Words -/

def u8 : Codec UInt8 := (le 1).record UInt8.toNat UInt8.ofNat fun _ => UInt8.ofNat_toNat

def u32 : Codec UInt32 := (le 4).record UInt32.toNat UInt32.ofNat fun _ => UInt32.ofNat_toNat

def u64 : Codec UInt64 := (le 8).record UInt64.toNat UInt64.ofNat fun _ => UInt64.ofNat_toNat

@[simp] theorem u8_fits (x : UInt8) : u8.Fits x := x.toNat_lt

@[simp] theorem u32_fits (x : UInt32) : u32.Fits x := x.toNat_lt

@[simp] theorem u64_fits (x : UInt64) : u64.Fits x := x.toNat_lt

/-- One byte, 0 or 1. -/
def bool : Codec Bool :=
  (le 1).through Bool.toNat (fun n => if n = 0 then some false else if n = 1 then some true else none) fun b => by
    cases b <;> rfl

@[simp] theorem bool_fits (b : Bool) : bool.Fits b := Nat.lt_trans b.toNat_lt (by decide)

/-- `[u8; n]` as a type. -/
def fixed (n : Nat) : Codec (FixedBytes n) :=
  (array n).through Subtype.val (fun b => if h : b.length = n then some ⟨b, h⟩ else none) fun b => dif_pos b.property

@[simp] theorem fixed_fits {n : Nat} (b : FixedBytes n) : (fixed n).Fits b := b.property

/-! ## Alternatives -/

/-- A tag of `w` bytes, 0 or 1, and the value it stands for. -/
def either (w : Nat) (c : Codec α) (d : Codec β) : Codec (α ⊕ β) where
  Fits x := 0 < w ∧ x.elim c.Fits d.Fits
  encode x := x.elim (fun a => toLe w 0 ++ c.encode a) fun b => toLe w 1 ++ d.encode b
  decode b := ((le w).decode b).bind fun x =>
    if x.1 = 0 then (c.decode x.2).map fun y => (.inl y.1, y.2)
    else if x.1 = 1 then (d.decode x.2).map fun y => (.inr y.1, y.2)
    else none
  decode_encode {x} h rest := by
    have hw : 1 < 256 ^ w := Nat.one_lt_pow (Nat.ne_of_gt h.1) (by decide)
    cases x with
    | inl a =>
      have htag := (le w).decode_encode (a := 0) (Nat.lt_trans Nat.one_pos hw) (c.encode a ++ rest)
      rw [Sum.elim_inl, List.append_assoc]
      rw [le] at htag ⊢
      rw [htag, Option.bind_some, if_pos rfl, c.decode_encode h.2, Option.map_some]
    | inr b =>
      have htag := (le w).decode_encode (a := 1) hw (d.encode b ++ rest)
      rw [Sum.elim_inr, List.append_assoc]
      rw [le] at htag ⊢
      rw [htag, Option.bind_some, if_neg Nat.one_ne_zero, if_pos rfl, d.decode_encode h.2, Option.map_some]
  decode_append h more := by
    obtain ⟨x, hx, h⟩ := Option.bind_eq_some_iff.mp h
    rw [(le w).decode_append hx, Option.bind_some]
    split at h
    · rename_i h0
      obtain ⟨y, hy, he⟩ := Option.map_eq_some_iff.mp h
      cases he
      rw [if_pos h0, c.decode_append hy, Option.map_some]
    · rename_i h0
      split at h
      · rename_i h1
        obtain ⟨y, hy, he⟩ := Option.map_eq_some_iff.mp h
        cases he
        rw [if_neg h0, if_pos h1, d.decode_append hy, Option.map_some]
      · cases h

/-- Any other tag is refused. -/
theorem either_none {w : Nat} {c : Codec α} {d : Codec β} {tag : Bytes} (hlen : tag.length = w) (h0 : ofLe tag ≠ 0)
    (h1 : ofLe tag ≠ 1) (rest : Bytes) : (either w c d).decode (tag ++ rest) = none := by
  simp only [either, le_decode hlen, Option.bind_some, if_neg h0, if_neg h1]

/-- A byte 0 for no value; a byte 1 and the value. -/
def option (c : Codec α) : Codec (Option α) :=
  (either 1 unit c).record (fun o => o.elim (.inl ()) .inr) (fun s => s.elim (fun _ => none) some) fun o => by
    cases o <;> rfl

@[simp] theorem option_fits_none (c : Codec α) : (option c).Fits none := ⟨Nat.one_pos, trivial⟩

@[simp] theorem option_fits_some (c : Codec α) (a : α) : (option c).Fits (some a) ↔ c.Fits a :=
  and_iff_right Nat.one_pos

@[simp] theorem option_decode_nil (c : Codec α) : (option c).decode [] = none := rfl

/-! ## Vectors -/

def decodeMany (c : Codec α) : Nat → Bytes → Option (List α × Bytes)
  | 0, b => some ([], b)
  | n + 1, b => (c.decode b).bind fun x => (c.decodeMany n x.2).map fun y => (x.1 :: y.1, y.2)

theorem decodeMany_encode (c : Codec α) {l : List α} (h : ∀ a ∈ l, c.Fits a) (rest : Bytes) :
    c.decodeMany l.length (l.flatMap c.encode ++ rest) = some (l, rest) := by
  induction l with
  | nil => rfl
  | cons a l ih =>
    rw [List.length_cons, decodeMany, List.flatMap_cons, List.append_assoc, c.decode_encode (h a List.mem_cons_self),
      Option.bind_some, ih fun x hx => h x (List.mem_cons_of_mem _ hx), Option.map_some]

theorem decodeMany_append (c : Codec α) {n : Nat} {b rest : Bytes} {l : List α} (h : c.decodeMany n b = some (l, rest))
    (more : Bytes) : c.decodeMany n (b ++ more) = some (l, rest ++ more) := by
  induction n generalizing b l with
  | zero => cases h; rfl
  | succ n ih =>
    obtain ⟨x, hx, h⟩ := Option.bind_eq_some_iff.mp h
    obtain ⟨y, hy, he⟩ := Option.map_eq_some_iff.mp h
    cases he
    rw [decodeMany, c.decode_append hx, Option.bind_some, ih hy, Option.map_some]

/-- The number of items in 8 bytes, then the items. -/
def vec (c : Codec α) : Codec (List α) where
  Fits l := l.length < 256 ^ 8 ∧ ∀ a ∈ l, c.Fits a
  encode l := toLe 8 l.length ++ l.flatMap c.encode
  decode b := ((le 8).decode b).bind fun x => c.decodeMany x.1 x.2
  decode_encode {l} h rest := by
    have hlen := (le 8).decode_encode h.1 (l.flatMap c.encode ++ rest)
    rw [List.append_assoc]
    rw [le] at hlen ⊢
    rw [hlen, Option.bind_some, c.decodeMany_encode h.2]
  decode_append h more := by
    obtain ⟨x, hx, h⟩ := Option.bind_eq_some_iff.mp h
    rw [(le 8).decode_append hx, Option.bind_some, c.decodeMany_append h]

end Codec
end BpirOram.Lib
