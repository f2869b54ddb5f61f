/-
  BpirOram.Lib.Bytes — byte strings: fixed-width little-endian numbers and equal-size
  chunks, with the round trips both ways.
-/

import Mathlib.Algebra.Group.Nat.Defs
import Mathlib.Data.List.Basic
import Mathlib.Logic.Function.Basic
import Mathlib.Tactic.Common

namespace BpirOram.Lib

abbrev Bytes := List UInt8

/-- `[u8; n]`. -/
abbrev FixedBytes (n : Nat) := { b : Bytes // b.length = n }

namespace FixedBytes

def zero (n : Nat) : FixedBytes n := ⟨List.replicate n 0, List.length_replicate⟩

/-- `copy_from_slice` of the `n` bytes at `start`; short input is padded with zeros. -/
def ofSlice (n : Nat) (input : Bytes) (start : Nat) : FixedBytes n :=
  ⟨(input.drop start ++ List.replicate n 0).take n, by simp⟩

theorem ofSlice_append {n : Nat} (front : Bytes) (b : FixedBytes n) (rest : Bytes) :
    ofSlice n (front ++ b.val ++ rest) front.length = b := by
  apply Subtype.ext
  have hb : (b.val ++ (rest ++ List.replicate n 0)).take n = b.val := by
    conv => lhs; arg 1; rw [← b.property]
    exact List.take_left
  simpa [ofSlice, List.append_assoc] using hb

end FixedBytes

/-! ## Overwriting a slice -/

/-- `b[start..start + v.len()].copy_from_slice(v)`, for a range inside `b`. -/
def splice (b : Bytes) (start : Nat) (v : Bytes) : Bytes := b.take start ++ v ++ b.drop (start + v.length)

theorem splice_length {b v : Bytes} {start : Nat} (h : start + v.length ≤ b.length) :
    (splice b start v).length = b.length := by
  simp only [splice, List.length_append, List.length_take, List.length_drop]
  omega

theorem drop_splice_of_le {b v : Bytes} {start pos : Nat} (h : start + v.length ≤ b.length) (hle : start + v.length ≤ pos) :
    (splice b start v).drop pos = b.drop pos := by
  have hfront : (b.take start ++ v).length = start + v.length := by
    rw [List.length_append, List.length_take]
    omega
  rw [splice, List.drop_append, List.drop_of_length_le (by omega), List.nil_append, List.drop_drop, hfront]
  congr 1
  omega

theorem take_splice {b v : Bytes} {start upTo : Nat} (h : start + v.length ≤ b.length) (hle : upTo ≤ start) :
    (splice b start v).take upTo = b.take upTo := by
  rw [splice, List.append_assoc, List.take_append_of_le_length (by rw [List.length_take]; omega), List.take_take,
    Nat.min_eq_left hle]

namespace FixedBytes

theorem ofSlice_splice_self {n : Nat} {b : Bytes} {start : Nat} (v : FixedBytes n) (h : start + n ≤ b.length) :
    ofSlice n (splice b start v.val) start = v := by
  have hlen : (b.take start).length = start := by
    rw [List.length_take]
    omega
  have h := ofSlice_append (b.take start) v (b.drop (start + v.val.length))
  rwa [hlen] at h

/-- A slice apart from the overwritten one is as it was. -/
theorem ofSlice_splice {n : Nat} {b : Bytes} {start pos : Nat} (v : FixedBytes n) (h : start + n ≤ b.length)
    (hat : pos + n ≤ b.length) (hapart : pos + n ≤ start ∨ start + n ≤ pos) :
    ofSlice n (splice b start v.val) pos = ofSlice n b pos := by
  have hv : start + v.val.length ≤ b.length := by rw [v.property]; exact h
  have hsplice := splice_length hv
  apply Subtype.ext
  simp only [ofSlice]
  rw [List.take_append_of_le_length (by rw [List.length_drop]; omega),
    List.take_append_of_le_length (by rw [List.length_drop]; omega)]
  rcases hapart with hbefore | hafter
  · rw [List.take_drop, List.take_drop, take_splice hv hbefore]
  · rw [drop_splice_of_le hv (by rw [v.property]; exact hafter)]

end FixedBytes

/-- Two slices written one behind the other. -/
theorem splice_append {b : Bytes} {start : Nat} (v w : Bytes) (h : start + v.length ≤ b.length) :
    splice b start (v ++ w) = splice (splice b start v) (start + v.length) w := by
  have hfront : (b.take start ++ v).length = start + v.length := by
    rw [List.length_append, List.length_take]
    omega
  have htake : (splice b start v).take (start + v.length) = b.take start ++ v := by
    rw [splice, ← hfront, List.take_left]
  have hdrop : (splice b start v).drop (start + v.length + w.length) = b.drop (start + v.length + w.length) :=
    drop_splice_of_le h (Nat.le_add_right _ _)
  rw [splice, splice, htake, hdrop, List.length_append, List.append_assoc (b.take start) v w, Nat.add_assoc]

/-! ## Pages -/

/-- The `i`-th of the pages of `sz` bytes. -/
def pageAt (sz : Nat) (b : Bytes) (i : Nat) : Bytes := (b.drop (i * sz)).take sz

theorem page_le (sz : Nat) {n i : Nat} (hi : i < n) : i * sz + sz ≤ n * sz := by
  rw [← Nat.succ_mul]
  exact Nat.mul_le_mul_right _ hi

theorem pageAt_length {sz n : Nat} {b : Bytes} (hb : b.length = n * sz) {i : Nat} (hi : i < n) :
    (pageAt sz b i).length = sz := by
  have hle := page_le sz hi
  rw [pageAt, List.length_take, List.length_drop]
  omega

/-- The pages of a stretch of pages. -/
theorem pageAt_window (sz : Nat) (b : Bytes) (first : Nat) {m k : Nat} (hk : k < m) :
    pageAt sz ((b.drop (first * sz)).take (m * sz)) k = pageAt sz b (first + k) := by
  have hle := page_le sz hk
  rw [pageAt, pageAt, List.drop_take, List.take_take, Nat.min_eq_left (by omega), List.drop_drop, Nat.add_mul]

/-- The pages of a concatenation of pages. -/
theorem pageAt_flatten {sz : Nat} {pages : List Bytes} (h : ∀ page ∈ pages, page.length = sz) {i : Nat} {page : Bytes}
    (hi : pages[i]? = some page) : pageAt sz pages.flatten i = page := by
  induction pages generalizing i with
  | nil => cases hi
  | cons first pages ih =>
    have hfirst := h first List.mem_cons_self
    rw [List.flatten_cons, pageAt]
    cases i with
    | zero =>
      cases hi
      rw [Nat.zero_mul, List.drop_zero, ← hfirst, List.take_left]
    | succ i =>
      rw [Nat.succ_mul, Nat.add_comm, ← List.drop_drop, ← hfirst, List.drop_left, hfirst]
      exact ih (fun p hp => h p (List.mem_cons_of_mem _ hp)) hi

/-- Overwriting one page leaves the others. -/
theorem pageAt_splice {sz n : Nat} {b x : Bytes} (hb : b.length = n * sz) {i : Nat} (hi : i < n) (hx : x.length = sz) :
    pageAt sz (splice b (i * sz) x) = Function.update (pageAt sz b) i x := by
  have hle := page_le sz hi
  have hfits : i * sz + x.length ≤ b.length := by omega
  funext j
  rcases Nat.lt_trichotomy j i with hlt | rfl | hgt
  · have hj := page_le sz hlt
    rw [Function.update_of_ne (Nat.ne_of_lt hlt), pageAt, pageAt, List.take_drop, List.take_drop,
      take_splice hfits (by omega)]
  · have hfront : (b.take (j * sz)).length = j * sz := by
      rw [List.length_take]
      omega
    rw [Function.update_self, pageAt, splice, List.append_assoc, List.drop_append, List.drop_of_length_le (by omega),
      List.nil_append, hfront, Nat.sub_self, List.drop_zero, ← hx, List.take_left]
  · have hj := page_le sz hgt
    rw [Function.update_of_ne (Nat.ne_of_gt hgt), pageAt, pageAt, drop_splice_of_le hfits (by omega)]

/-! ## Little-endian numbers -/

/-- The low `w` bytes of `n`, least significant first. -/
def toLe : Nat → Nat → Bytes
  | 0, _ => []
  | w + 1, n => UInt8.ofNat (n % 256) :: toLe w (n / 256)

def ofLe : Bytes → Nat
  | [] => 0
  | b :: bs => b.toNat + 256 * ofLe bs

@[simp] theorem toLe_length (w n : Nat) : (toLe w n).length = w := by
  induction w generalizing n with
  | zero => rfl
  | succ w ih => simp [toLe, ih]

theorem ofLe_lt (b : Bytes) : ofLe b < 256 ^ b.length := by
  induction b with
  | nil => decide
  | cons x b ih =>
    have := x.toNat_lt
    rw [ofLe, List.length_cons, Nat.pow_succ]
    omega

theorem ofLe_toLe (w n : Nat) (h : n < 256 ^ w) : ofLe (toLe w n) = n := by
  induction w generalizing n with
  | zero => simp at h; simp [toLe, ofLe, h]
  | succ w ih =>
    have hn : n / 256 < 256 ^ w := by
      rw [Nat.div_lt_iff_lt_mul (by omega)]; rw [Nat.pow_succ] at h; exact h
    simp only [toLe, ofLe, ih _ hn, UInt8.toNat_ofNat']
    omega

theorem toLe_ofLe (b : Bytes) : toLe b.length (ofLe b) = b := by
  induction b with
  | nil => rfl
  | cons x b ih =>
    have hx := x.toNat_lt
    have hmod : (x.toNat + 256 * ofLe b) % 256 = x.toNat := by omega
    have hdiv : (x.toNat + 256 * ofLe b) / 256 = ofLe b := by omega
    rw [List.length_cons, ofLe, toLe, hmod, hdiv, ih, UInt8.ofNat_toNat]

/-! ## Chunks -/

variable {α : Type}

/-- The first `k` chunks of `n` elements. -/
def chunks (n : Nat) : Nat → List α → List (List α)
  | 0, _ => []
  | k + 1, l => l.take n :: chunks n k (l.drop n)

/-- `chunks_exact(n)`: the whole chunks; a shorter remainder is left out. -/
def chunksExact (n : Nat) (l : List α) : List (List α) := chunks n (l.length / n) l

theorem length_flatten_of_lengths {n : Nat} {ls : List (List α)} (h : ∀ l ∈ ls, l.length = n) :
    ls.flatten.length = ls.length * n := by
  induction ls with
  | nil => simp
  | cons l ls ih =>
    rw [List.flatten_cons, List.length_append, ih fun x hx => h x (by simp [hx]), h l (by simp), List.length_cons,
      Nat.add_mul, Nat.one_mul, Nat.add_comm]

theorem chunks_flatten {n : Nat} {ls : List (List α)} (h : ∀ l ∈ ls, l.length = n) :
    chunks n ls.length ls.flatten = ls := by
  induction ls with
  | nil => rfl
  | cons l ls ih =>
    have hl := h l (by simp)
    simp only [List.length_cons, chunks, List.flatten_cons]
    rw [← hl, List.take_left, List.drop_left, hl, ih fun x hx => h x (by simp [hx])]

theorem chunks_spec {n k : Nat} {l : List α} (h : l.length = k * n) :
    (chunks n k l).flatten = l ∧ (chunks n k l).length = k ∧ (∀ c ∈ chunks n k l, c.length = n) := by
  induction k generalizing l with
  | zero =>
    have hnil : l = [] := List.length_eq_zero_iff.mp (by omega)
    subst hnil
    exact ⟨rfl, rfl, fun c hc => absurd hc List.not_mem_nil⟩
  | succ k ih =>
    rw [Nat.succ_mul] at h
    obtain ⟨hflat, hlen, hsize⟩ := ih (l := l.drop n) (by rw [List.length_drop]; omega)
    refine ⟨?_, by rw [chunks, List.length_cons, hlen], fun c hc => ?_⟩
    · rw [chunks, List.flatten_cons, hflat, List.take_append_drop]
    · rcases List.mem_cons.mp hc with rfl | hc
      · rw [List.length_take]
        omega
      · exact hsize c hc

/-- The whole chunks of a list without remainder. -/
theorem chunksExact_spec {n k : Nat} (hn : 0 < n) {l : List α} (h : l.length = k * n) :
    (chunksExact n l).flatten = l ∧ (chunksExact n l).length = k ∧ (∀ c ∈ chunksExact n l, c.length = n) := by
  rw [chunksExact, h, Nat.mul_div_cancel _ hn]
  exact chunks_spec h

/-- The `i`-th chunk. -/
theorem chunks_getElem? {n k : Nat} (l : List α) {i : Nat} (hi : i < k) :
    (chunks n k l)[i]? = some ((l.drop (i * n)).take n) := by
  induction k generalizing l i with
  | zero => omega
  | succ k ih =>
    rw [chunks]
    cases i with
    | zero => rw [List.getElem?_cons_zero, Nat.zero_mul, List.drop_zero]
    | succ i => rw [List.getElem?_cons_succ, ih _ (by omega), List.drop_drop, Nat.succ_mul, Nat.add_comm n]

/-- Cutting up a concatenation of `n`-element pieces gives the pieces back. -/
theorem chunksExact_flatten {n : Nat} (hn : 0 < n) {ls : List (List α)} (h : ∀ l ∈ ls, l.length = n) :
    chunksExact n ls.flatten = ls := by
  rw [chunksExact, length_flatten_of_lengths h, Nat.mul_div_cancel _ hn, chunks_flatten h]

/-! ## Differences, gathered bit by bit -/

theorem foldl_or_eq_zero (l : Bytes) (acc : UInt8) : l.foldl (· ||| ·) acc = 0 ↔ acc = 0 ∧ ∀ b ∈ l, b = 0 := by
  induction l generalizing acc with
  | nil => simp
  | cons b bs ih =>
    rw [List.foldl_cons, ih, UInt8.or_eq_zero_iff, List.forall_mem_cons, and_assoc]

theorem zipWith_xor_eq_zero {xs ys : Bytes} (h : ys.length ≤ xs.length) :
    (∀ x ∈ List.zipWith (· ^^^ ·) xs ys, x = 0) ↔ xs.take ys.length = ys := by
  induction ys generalizing xs with
  | nil => simp
  | cons y ys ih =>
    cases xs with
    | nil => simp at h
    | cons x xs =>
      have hrest : (∀ x ∈ List.zipWith (· ^^^ ·) xs ys, x = 0) ↔ xs.take ys.length = ys := ih (by simpa using h)
      rw [List.zipWith_cons_cons, List.forall_mem_cons, hrest, UInt8.xor_eq_zero_iff, List.length_cons, List.take_succ_cons,
        List.cons.injEq]

end BpirOram.Lib
