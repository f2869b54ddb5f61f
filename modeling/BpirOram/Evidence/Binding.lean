/-
  BpirOram.Evidence.Binding — what a build is bound to: the decoders of the root-bundle payload
  and of the DB build evidence (`bin/oramctl.rs`).

  A decoder walks a cursor over the bytes, field by field, and keeps the six fields of a
  `CertifiedDbBinding`. The grammars are stated on their own: a payload is a record whose
  types and fields are the format's conditions, and its text is the concatenation of its
  fields.
  - `payload_decoders_exact`: each decoder accepts the texts of its records and nothing else,
    returns the fields written there, and accepts no two texts of which one starts the other.
-/

import BpirOram.Basic
import BpirOram.Lib.Reader

namespace BpirOram

open Lib

/-! ## The cursor -/

/-- `String::from_utf8` succeeds. -/
def ValidUtf8 (b : Bytes) : Prop := (ByteArray.mk b.toArray).IsValidUTF8

instance (b : Bytes) : Decidable (ValidUtf8 b) := inferInstanceAs (Decidable (ByteArray.IsValidUTF8 _))

namespace Cursor

def take (n : Nat) (what : String) : Eff Error Bytes (FixedBytes n) := do
  let cur ← Eff.get
  if h : n ≤ cur.length then do
    Eff.modify fun cur => cur.drop n
    pure ⟨cur.take n, by rw [List.length_take]; omega⟩
  else Eff.fail (.invalidInput s!"truncated {what}")

/-- `take_arr::<N>`: the slice has the array's length. -/
abbrev takeArr (n : Nat) (what : String) : Eff Error Bytes (FixedBytes n) := take n what

def takeU8 (what : String) : Eff Error Bytes UInt8 := do
  let b ← takeArr 1 what
  pure (b.val.headD 0)

def takeU16 (what : String) : Eff Error Bytes UInt16 := do
  let b ← takeArr 2 what
  pure (UInt16.ofNat (ofLe b.val))

def takeU32 (what : String) : Eff Error Bytes UInt32 := do
  let b ← takeArr 4 what
  pure (UInt32.ofNat (ofLe b.val))

def takeU64 (what : String) : Eff Error Bytes UInt64 := do
  let b ← takeArr 8 what
  pure (UInt64.ofNat (ofLe b.val))

def takeI64 (what : String) : Eff Error Bytes Int64 := do
  let b ← takeArr 8 what
  pure (UInt64.ofNat (ofLe b.val)).toInt64

def takeLenBytes (what : String) : Eff Error Bytes Bytes := do
  let len ← takeU16 what
  let b ← take len.toNat what
  pure b.val

/-- A `String` is its bytes. -/
def takeString (what : String) : Eff Error Bytes Bytes := do
  let b ← takeLenBytes what
  Eff.ensure (ValidUtf8 b) (.invalidInput s!"{what} is not UTF-8")
  pure b

/-! ### What each of them reads -/

theorem reads_take (n : Nat) (what : String) : Reads (take n what) fun a w => w = a.val := by
  intro b a rest
  rw [take, Eff.get_bind]
  constructor
  · intro h
    split at h
    · cases h
      exact ⟨_, rfl, (List.take_append_drop n b).symm⟩
    · cases h
  · intro h
    obtain ⟨w, rfl, rfl⟩ := h
    have hle : n ≤ (a.val ++ rest).length := by rw [List.length_append, a.property]; omega
    have htake : (a.val ++ rest).take n = a.val := List.take_left' a.property
    have hdrop : (a.val ++ rest).drop n = rest := List.drop_left' a.property
    rw [dif_pos hle, Eff.modify_bind, hdrop]
    exact congrArg (fun x => (Except.ok x, rest)) (Subtype.ext htake)

/-- The `w` little-endian bytes of a number. -/
def leBytes (w n : Nat) : FixedBytes w := ⟨toLe w n, toLe_length w n⟩

theorem leBytes_ofLe {w : Nat} (b : FixedBytes w) : leBytes w (ofLe b.val) = b := by
  apply Subtype.ext
  have h := toLe_ofLe b.val
  rwa [b.property] at h

theorem ofLe_fixed_lt {w : Nat} (b : FixedBytes w) : ofLe b.val < 256 ^ w := by
  have h := ofLe_lt b.val
  rwa [b.property] at h

theorem reads_takeU8 (what : String) : Reads (takeU8 what) fun x w => w = [x] := by
  refine (reads_take 1 what).map (fun x => ⟨[x], rfl⟩) ?_ fun _ => rfl
  intro b
  apply Subtype.ext
  obtain ⟨x, hx⟩ := List.length_eq_one_iff.mp b.property
  rw [hx]
  rfl

theorem reads_takeU16 (what : String) : Reads (takeU16 what) fun x w => w = toLe 2 x.toNat := by
  refine (reads_take 2 what).map (fun x : UInt16 => leBytes 2 x.toNat) ?_ ?_
  · intro b
    rw [UInt16.toNat_ofNat_of_lt' (ofLe_fixed_lt b), leBytes_ofLe]
  · intro x
    rw [leBytes, ofLe_toLe 2 _ x.toNat_lt, UInt16.ofNat_toNat]

theorem reads_takeU32 (what : String) : Reads (takeU32 what) fun x w => w = toLe 4 x.toNat := by
  refine (reads_take 4 what).map (fun x : UInt32 => leBytes 4 x.toNat) ?_ ?_
  · intro b
    rw [UInt32.toNat_ofNat_of_lt' (ofLe_fixed_lt b), leBytes_ofLe]
  · intro x
    rw [leBytes, ofLe_toLe 4 _ x.toNat_lt, UInt32.ofNat_toNat]

theorem reads_takeU64 (what : String) : Reads (takeU64 what) fun x w => w = toLe 8 x.toNat := by
  refine (reads_take 8 what).map (fun x : UInt64 => leBytes 8 x.toNat) ?_ ?_
  · intro b
    rw [UInt64.toNat_ofNat_of_lt' (ofLe_fixed_lt b), leBytes_ofLe]
  · intro x
    rw [leBytes, ofLe_toLe 8 _ x.toNat_lt, UInt64.ofNat_toNat]

theorem reads_takeI64 (what : String) : Reads (takeI64 what) fun x w => w = toLe 8 x.toUInt64.toNat := by
  refine (reads_take 8 what).map (fun x : Int64 => leBytes 8 x.toUInt64.toNat) ?_ ?_
  · intro b
    rw [UInt64.toUInt64_toInt64, UInt64.toNat_ofNat_of_lt' (ofLe_fixed_lt b), leBytes_ofLe]
  · intro x
    rw [leBytes, ofLe_toLe 8 _ (UInt64.toNat_lt _), UInt64.ofNat_toNat, Int64.toInt64_toUInt64]

/-- The text of a byte string behind its length. -/
def lenText (b : Bytes) : Bytes := toLe 2 b.length ++ b

theorem reads_takeLenBytes (what : String) : Reads (takeLenBytes what) fun x w => x.length < 2 ^ 16 ∧ w = lenText x := by
  intro b x rest
  rw [takeLenBytes, (reads_takeU16 what).bind_iff]
  simp only [(reads_take _ what).bind_iff, pure_iff]
  constructor
  · intro h
    obtain ⟨len, _, _, rfl, rfl, a, _, _, rfl, rfl, rfl, rfl⟩ := h
    refine ⟨lenText a.val, ⟨by rw [a.property]; exact len.toNat_lt, rfl⟩, ?_⟩
    rw [lenText, a.property, List.append_assoc]
  · intro h
    obtain ⟨w, ⟨hlt, rfl⟩, rfl⟩ := h
    have hlen : (UInt16.ofNat x.length).toNat = x.length := UInt16.toNat_ofNat_of_lt' hlt
    refine ⟨UInt16.ofNat x.length, _, x ++ rest, rfl, ?_, ⟨x, hlen.symm⟩, x, rest, rfl, rfl, rfl, rfl⟩
    rw [hlen, lenText, List.append_assoc]

theorem reads_takeString (what : String) :
    Reads (takeString what) fun x w => (x.length < 2 ^ 16 ∧ ValidUtf8 x) ∧ w = lenText x := by
  intro b x rest
  rw [takeString, (reads_takeLenBytes what).bind_iff]
  simp only [ensure_bind_iff, pure_iff]
  constructor
  · intro h
    obtain ⟨x, w, t, ⟨hlt, hw⟩, rfl, hutf, rfl, rfl⟩ := h
    exact ⟨w, ⟨⟨hlt, hutf⟩, hw⟩, rfl⟩
  · intro h
    obtain ⟨w, ⟨⟨hlt, hutf⟩, hw⟩, rfl⟩ := h
    exact ⟨x, w, rest, ⟨hlt, hw⟩, rfl, hutf, rfl, rfl⟩

end Cursor

/-! ## What is bound -/

inductive CertifiedBuildKind where
  | snapshot
  | delta
  deriving DecidableEq, Repr

structure CertifiedAnchor where
  blockHash : FixedBytes 32
  height : UInt32
  deriving DecidableEq

structure CertifiedDbBinding where
  buildKind : CertifiedBuildKind
  networkMagic : FixedBytes 4
  fromAnchor : CertifiedAnchor
  anchor : CertifiedAnchor
  toMuhash : FixedBytes 32
  rootBundlePayloadSha256 : Option (FixedBytes 32)
  deriving DecidableEq

def certifiedBuildKindFromByte (byte : UInt8) : Result CertifiedBuildKind :=
  match byte with
  | 0 => .ok .snapshot
  | 1 => .ok .delta
  | other => .error (.invalidInput s!"unknown build kind {other.toNat}")

def takeCertifiedAnchor (what : String) : Eff Error Bytes CertifiedAnchor := do
  let blockHash ← Cursor.takeArr 32 what
  let height ← Cursor.takeU32 what
  pure { blockHash, height }

def CertifiedBuildKind.byte : CertifiedBuildKind → UInt8
  | .snapshot => 0
  | .delta => 1

def CertifiedAnchor.text (a : CertifiedAnchor) : Bytes := a.blockHash.val ++ toLe 4 a.height.toNat

theorem certifiedBuildKindFromByte_ok {byte : UInt8} {kind : CertifiedBuildKind} :
    certifiedBuildKindFromByte byte = .ok kind ↔ byte = kind.byte := by
  unfold certifiedBuildKindFromByte
  split
  · cases kind <;> simp [CertifiedBuildKind.byte]
  · cases kind <;> simp [CertifiedBuildKind.byte]
  · rename_i h0 h1
    refine ⟨fun h => (nomatch h), fun h => ?_⟩
    cases kind
    · exact absurd h h0
    · exact absurd h h1

theorem reads_takeCertifiedAnchor (what : String) : Reads (takeCertifiedAnchor what) fun a w => w = a.text := by
  intro b a rest
  rw [takeCertifiedAnchor, (Cursor.reads_take 32 what).bind_iff]
  simp only [(Cursor.reads_takeU32 what).bind_iff, pure_iff]
  constructor
  · intro h
    obtain ⟨blockHash, _, _, rfl, rfl, height, _, _, rfl, rfl, rfl, rfl⟩ := h
    exact ⟨_, rfl, (List.append_assoc _ _ _).symm⟩
  · intro h
    obtain ⟨w, rfl, rfl⟩ := h
    exact ⟨a.blockHash, _, _, rfl, List.append_assoc _ _ _, a.height, _, rest, rfl, rfl, rfl, rfl⟩

/-! ## The root-bundle payload -/

def rootBundlePayloadVersion : UInt16 := 1

/-- The body of the loop over the roots, `n` roots from the end; `previous` is the label before. -/
def takeRoots : Nat → Option Bytes → Eff Error Bytes Unit
  | 0, _ => pure ()
  | n + 1, previous => do
    let labelLen ← Cursor.takeU8 "root label len"
    let label ← Cursor.take labelLen.toNat "root label"
    Eff.ensure (ValidUtf8 label.val) (.invalidInput "root label is not UTF-8")
    Eff.ensure (¬ (label.val = [] ∨ label.val.length > 64 ∨ ¬ label.val.all fun b => 0x21 ≤ b ∧ b ≤ 0x7e))
      (.invalidInput "root label is not canonical")
    Eff.ensure (∀ p ∈ previous, ¬ label.val ≤ p) (.invalidInput "root labels are not strictly sorted")
    let _root ← Cursor.takeArr 32 "root"
    takeRoots n (some label.val)

/-- `decode_root_bundle_payload_binding` up to its check that nothing follows. -/
def rootBundlePayloadBinding : Eff Error Bytes CertifiedDbBinding := do
  let version ← Cursor.takeU16 "root payload version"
  Eff.ensure (version = rootBundlePayloadVersion)
    (.invalidInput s!"unsupported root bundle payload version {version.toNat}")
  let networkMagic ← Cursor.takeArr 4 "network_magic"
  let kindByte ← Cursor.takeU8 "build_kind"
  let buildKind ← Eff.lift (certifiedBuildKindFromByte kindByte)
  let fromAnchor ← takeCertifiedAnchor "from_anchor"
  let anchor ← takeCertifiedAnchor "anchor"
  let toMuhash ← Cursor.takeArr 32 "utxo_muhash"
  let _dustThresholdSats ← Cursor.takeU64 "dust_threshold_sats"
  let _maxUtxosPerSpk ← Cursor.takeU32 "max_utxos_per_spk"
  let _paramsHash ← Cursor.takeArr 32 "params_hash"
  let _issuedAt ← Cursor.takeI64 "issued_at"
  let nRoots ← Cursor.takeU16 "root_count"
  Eff.ensure (¬ (nRoots.toNat = 0 ∨ nRoots.toNat > 1024)) (.invalidInput "root count is outside canonical bounds")
  takeRoots nRoots.toNat none
  pure { buildKind, networkMagic, fromAnchor, anchor, toMuhash, rootBundlePayloadSha256 := none }

def decodeRootBundlePayloadBinding (bytes : Bytes) : Result CertifiedDbBinding :=
  (whole rootBundlePayloadBinding (.invalidInput "root bundle payload has trailing bytes") bytes).1

/-- 1 to 64 printable ASCII characters other than the space. -/
abbrev RootLabel := { b : Bytes // (1 ≤ b.length ∧ b.length ≤ 64) ∧ ∀ x ∈ b, 0x21 ≤ x ∧ x ≤ 0x7e }

structure RootEntry where
  label : RootLabel
  root : FixedBytes 32

def RootEntry.text (e : RootEntry) : Bytes := [UInt8.ofNat e.label.val.length] ++ e.label.val ++ e.root.val

/-- A root-bundle payload: everything its text holds. -/
structure RootBundlePayload where
  networkMagic : FixedBytes 4
  buildKind : CertifiedBuildKind
  fromAnchor : CertifiedAnchor
  anchor : CertifiedAnchor
  utxoMuhash : FixedBytes 32
  dustThresholdSats : UInt64
  maxUtxosPerSpk : UInt32
  paramsHash : FixedBytes 32
  issuedAt : Int64
  roots : List RootEntry
  count : 1 ≤ roots.length ∧ roots.length ≤ 1024
  sorted : (roots.map fun e => e.label.val).Pairwise (· < ·)

namespace RootBundlePayload

def text (p : RootBundlePayload) : Bytes :=
  [toLe 2 rootBundlePayloadVersion.toNat, p.networkMagic.val, [p.buildKind.byte], p.fromAnchor.text, p.anchor.text,
    p.utxoMuhash.val, toLe 8 p.dustThresholdSats.toNat, toLe 4 p.maxUtxosPerSpk.toNat, p.paramsHash.val,
    toLe 8 p.issuedAt.toUInt64.toNat, toLe 2 p.roots.length, p.roots.flatMap RootEntry.text].flatten

def binding (p : RootBundlePayload) : CertifiedDbBinding :=
  { buildKind := p.buildKind, networkMagic := p.networkMagic, fromAnchor := p.fromAnchor, anchor := p.anchor
    toMuhash := p.utxoMuhash, rootBundlePayloadSha256 := none }

end RootBundlePayload

/-! ### Labels -/

theorem validUtf8_of_ascii {b : Bytes} (h : ∀ x ∈ b, x ≤ 0x7e) : ValidUtf8 b := by
  induction b with
  | nil => exact ByteArray.isValidUTF8_empty
  | cons x b ih =>
    obtain ⟨hx, hb⟩ := List.forall_mem_cons.mp h
    have hlt : ¬ 127 < x.toNat := Nat.not_lt_of_le (Nat.le_trans (UInt8.le_iff_toNat_le.mp hx) (by decide))
    have hval : (Char.ofUInt8 x).val.toNat = x.toNat := UInt8.toNat_toUInt32 x
    have hchar : String.utf8EncodeChar (Char.ofUInt8 x) = [x] := by
      simp [String.utf8EncodeChar, hval, hlt]
    have hone : ByteArray.IsValidUTF8 (ByteArray.mk #[x]) := by
      have henc := Char.isValidUTF8_toByteArray_utf8EncodeChar (c := Char.ofUInt8 x)
      rw [hchar] at henc
      exact henc
    have happ := hone.append (ih hb)
    have hcat : ByteArray.mk #[x] ++ ByteArray.mk b.toArray = ByteArray.mk (x :: b).toArray := by
      apply ByteArray.ext
      simp
    rwa [hcat] at happ

/-- Labels below each other, the first of them above `previous`. -/
def Increasing (previous : Option Bytes) (roots : List RootEntry) : Prop :=
  List.IsChain (· < ·) (previous.toList ++ roots.map fun e => e.label.val)

theorem increasing_cons {previous : Option Bytes} {e : RootEntry} {roots : List RootEntry} :
    Increasing previous (e :: roots) ↔ (∀ p ∈ previous, ¬ e.label.val ≤ p) ∧ Increasing (some e.label.val) roots := by
  cases previous with
  | none => simp [Increasing]
  | some p => simp [Increasing, List.isChain_cons_cons]

/-- An entry is read when its label is canonical and above the one before. -/
theorem rootLabel_canonical {label : Bytes} :
    ¬ (label = [] ∨ label.length > 64 ∨ ¬ label.all fun b => 0x21 ≤ b ∧ b ≤ 0x7e) ↔
      (1 ≤ label.length ∧ label.length ≤ 64) ∧ ∀ x ∈ label, 0x21 ≤ x ∧ x ≤ 0x7e := by
  rw [← List.length_eq_zero_iff]
  simp only [not_or, not_not, ← and_assoc, List.all_eq_true, decide_eq_true_eq]
  exact and_congr_left fun _ => by omega

theorem reads_takeRoots (n : Nat) (previous : Option Bytes) :
    Reads (takeRoots n previous) fun _ w => ∃ roots : List RootEntry, roots.length = n ∧ Increasing previous roots ∧
      w = roots.flatMap RootEntry.text := by
  induction n generalizing previous with
  | zero =>
    intro b _ rest
    rw [takeRoots, pure_iff]
    constructor
    · intro h
      refine ⟨[], ⟨[], rfl, ?_, rfl⟩, h.2⟩
      cases previous <;> simp [Increasing]
    · intro h
      obtain ⟨w, ⟨roots, hlen, _, rfl⟩, rfl⟩ := h
      rw [List.length_eq_zero_iff.mp hlen]
      exact ⟨rfl, rfl⟩
  | succ n ih =>
    intro b _ rest
    rw [takeRoots, (Cursor.reads_takeU8 _).bind_iff]
    simp only [(Cursor.reads_take _ _).bind_iff, ensure_bind_iff, rootLabel_canonical]
    constructor
    · intro h
      obtain ⟨labelLen, _, _, rfl, rfl, label, _, _, rfl, rfl, _, hlabel, habove, root, _, _, rfl, rfl, hrun⟩ := h
      obtain ⟨w, ⟨roots, rfl, hsorted, rfl⟩, rfl⟩ := (ih (some label.val) _ _ _).mp hrun
      have hentry : RootEntry.text ⟨⟨label.val, hlabel⟩, root⟩ = labelLen :: (label.val ++ root.val) := by
        rw [RootEntry.text, label.property, UInt8.ofNat_toNat]
        rfl
      refine ⟨_, ⟨⟨⟨label.val, hlabel⟩, root⟩ :: roots, rfl, increasing_cons.mpr ⟨habove, hsorted⟩, rfl⟩, ?_⟩
      rw [List.flatMap_cons, hentry]
      simp only [List.cons_append, List.append_assoc, List.nil_append]
    · intro h
      obtain ⟨w, ⟨roots, hlen, hsorted, rfl⟩, rfl⟩ := h
      cases roots with
      | nil => cases hlen
      | cons e roots =>
        obtain ⟨habove, hrest⟩ := increasing_cons.mp hsorted
        have hsize : (UInt8.ofNat e.label.val.length).toNat = e.label.val.length :=
          UInt8.toNat_ofNat_of_lt' (Nat.lt_of_le_of_lt e.label.property.1.2 (by decide))
        refine ⟨UInt8.ofNat e.label.val.length, _, _, rfl, ?_, ⟨e.label.val, hsize.symm⟩, _,
          e.root.val ++ (roots.flatMap RootEntry.text ++ rest), rfl, rfl,
          validUtf8_of_ascii fun x hx => (e.label.property.2 x hx).2, e.label.property, habove, e.root, _, _, rfl, rfl,
          (ih (some e.label.val) _ _ _).mpr ⟨_, ⟨roots, Nat.succ.inj hlen, hrest, rfl⟩, rfl⟩⟩
        rw [List.flatMap_cons, RootEntry.text]
        simp only [List.cons_append, List.append_assoc, List.nil_append]

theorem increasing_none {roots : List RootEntry} :
    Increasing none roots ↔ (roots.map fun e => e.label.val).Pairwise (· < ·) := by
  rw [Increasing, Option.toList_none, List.nil_append]
  exact List.isChain_iff_pairwise

/-! ### Payloads -/

theorem reads_rootBundlePayload :
    Reads rootBundlePayloadBinding fun binding w => ∃ p : RootBundlePayload, w = p.text ∧ binding = p.binding := by
  intro b binding rest
  constructor
  · intro h
    unfold rootBundlePayloadBinding at h
    obtain ⟨version, _, _, rfl, rfl, h1⟩ := (Cursor.reads_takeU16 _).bind_iff.mp h
    obtain ⟨rfl, h2⟩ := ensure_bind_iff.mp h1
    obtain ⟨networkMagic, _, _, rfl, rfl, h3⟩ := (Cursor.reads_take _ _).bind_iff.mp h2
    obtain ⟨kindByte, _, _, rfl, rfl, h4⟩ := (Cursor.reads_takeU8 _).bind_iff.mp h3
    obtain ⟨buildKind, hkind, h5⟩ := lift_bind_iff.mp h4
    obtain ⟨fromAnchor, _, _, rfl, rfl, h6⟩ := (reads_takeCertifiedAnchor _).bind_iff.mp h5
    obtain ⟨anchor, _, _, rfl, rfl, h7⟩ := (reads_takeCertifiedAnchor _).bind_iff.mp h6
    obtain ⟨toMuhash, _, _, rfl, rfl, h8⟩ := (Cursor.reads_take _ _).bind_iff.mp h7
    obtain ⟨dust, _, _, rfl, rfl, h9⟩ := (Cursor.reads_takeU64 _).bind_iff.mp h8
    obtain ⟨maxUtxos, _, _, rfl, rfl, h10⟩ := (Cursor.reads_takeU32 _).bind_iff.mp h9
    obtain ⟨paramsHash, _, _, rfl, rfl, h11⟩ := (Cursor.reads_take _ _).bind_iff.mp h10
    obtain ⟨issuedAt, _, _, rfl, rfl, h12⟩ := (Cursor.reads_takeI64 _).bind_iff.mp h11
    obtain ⟨nRoots, _, _, rfl, rfl, h13⟩ := (Cursor.reads_takeU16 _).bind_iff.mp h12
    obtain ⟨hcount, h14⟩ := ensure_bind_iff.mp h13
    obtain ⟨_, _, _, ⟨roots, hlen, hsorted, rfl⟩, rfl, h15⟩ := (reads_takeRoots _ _).bind_iff.mp h14
    obtain ⟨rfl, rfl⟩ := pure_iff.mp h15
    obtain rfl := certifiedBuildKindFromByte_ok.mp hkind
    have hbounds : 1 ≤ roots.length ∧ roots.length ≤ 1024 := by omega
    refine ⟨_, ⟨{ networkMagic, buildKind, fromAnchor, anchor, utxoMuhash := toMuhash, dustThresholdSats := dust,
                  maxUtxosPerSpk := maxUtxos, paramsHash, issuedAt, roots, count := hbounds
                  sorted := increasing_none.mp hsorted }, rfl, rfl⟩, ?_⟩
    simp only [RootBundlePayload.text, List.flatten_cons, List.flatten_nil, List.append_assoc, List.nil_append, hlen]
  · intro h
    obtain ⟨w, ⟨p, rfl, rfl⟩, rfl⟩ := h
    have hlen : (UInt16.ofNat p.roots.length).toNat = p.roots.length :=
      UInt16.toNat_ofNat_of_lt' (Nat.lt_of_le_of_lt p.count.2 (by decide))
    have hbounds : ¬ ((UInt16.ofNat p.roots.length).toNat = 0 ∨ (UInt16.ofNat p.roots.length).toNat > 1024) := by
      have := p.count
      omega
    rw [rootBundlePayloadBinding, (Cursor.reads_takeU16 _).bind_iff]
    simp only [ensure_bind_iff, lift_bind_iff, certifiedBuildKindFromByte_ok, pure_iff, (Cursor.reads_take _ _).bind_iff,
      (Cursor.reads_takeU8 _).bind_iff, (Cursor.reads_takeU16 _).bind_iff, (Cursor.reads_takeU32 _).bind_iff,
      (Cursor.reads_takeU64 _).bind_iff, (Cursor.reads_takeI64 _).bind_iff, (reads_takeCertifiedAnchor _).bind_iff,
      (reads_takeRoots _ _).bind_iff, RootBundlePayload.text, List.flatten_cons, List.flatten_nil, List.append_assoc,
      List.nil_append]
    exact ⟨_, _, _, rfl, rfl, rfl, p.networkMagic, _, _, rfl, rfl, _, _, _, rfl, rfl, p.buildKind, rfl, p.fromAnchor, _, _,
      rfl, rfl, p.anchor, _, _, rfl, rfl, p.utxoMuhash, _, _, rfl, rfl, p.dustThresholdSats, _, _, rfl, rfl,
      p.maxUtxosPerSpk, _, _, rfl, rfl, p.paramsHash, _, _, rfl, rfl, p.issuedAt, _, _, rfl, rfl,
      UInt16.ofNat p.roots.length, _, _, rfl, by rw [hlen], hbounds, (), _, _,
      ⟨p.roots, hlen.symm, increasing_none.mpr p.sorted, rfl⟩, rfl, rfl, rfl⟩

/-! ## The build evidence -/

def dbBuildEvidenceVersion : UInt16 := 1

/-- The match on the `has_signed_root_bundle` tag. -/
def takeSignedRootBundle : Eff Error Bytes Unit := do
  let tag ← Cursor.takeU8 "has_signed_root_bundle"
  if tag = 0 then pure ()
  else if tag = 1 then do
    let _signedRootBundleSha256 ← Cursor.takeArr 32 "signed_root_bundle_sha256"
    pure ()
  else Eff.fail (.invalidInput "bad signed root bundle option tag")

/-- `decode_db_build_evidence_binding` up to its check that nothing follows. -/
def dbBuildEvidenceBinding : Eff Error Bytes CertifiedDbBinding := do
  let version ← Cursor.takeU16 "db evidence version"
  Eff.ensure (version = dbBuildEvidenceVersion)
    (.invalidInput s!"unsupported DB build evidence version {version.toNat}")
  let _builderGitCommit ← Cursor.takeString "builder_git_commit"
  let _builderBinarySha256 ← Cursor.takeArr 32 "builder_binary_sha256"
  let _teePlatform ← Cursor.takeString "tee_platform"
  let _teeImageMeasurement ← Cursor.takeLenBytes "tee_image_measurement"
  let _coreVersion ← Cursor.takeString "core_version"
  let _snapshotSha256 ← Cursor.takeArr 32 "snapshot_sha256"
  let _snapshotBytes ← Cursor.takeU64 "snapshot_bytes"
  let networkMagic ← Cursor.takeArr 4 "network_magic"
  let kindByte ← Cursor.takeU8 "build_kind"
  let buildKind ← Eff.lift (certifiedBuildKindFromByte kindByte)
  let fromAnchor ← takeCertifiedAnchor "from_anchor"
  let anchor ← takeCertifiedAnchor "anchor"
  let toMuhash ← Cursor.takeArr 32 "utxo_muhash"
  let _dustThresholdSats ← Cursor.takeU64 "dust_threshold_sats"
  let _maxUtxosPerSpk ← Cursor.takeU32 "max_utxos_per_spk"
  let _paramsHash ← Cursor.takeArr 32 "params_hash"
  let _indexBinsPerTable ← Cursor.takeU32 "index_bins_per_table"
  let _chunkBinsPerTable ← Cursor.takeU32 "chunk_bins_per_table"
  let _onionEntrySize ← Cursor.takeU32 "onion_entry_size"
  let _bucketSuperRoot ← Cursor.takeArr 32 "bucket_super_root"
  let _onionSuperRoot ← Cursor.takeArr 32 "onion_super_root"
  let rootBundlePayloadSha256 ← Cursor.takeArr 32 "root_bundle_payload_sha256"
  takeSignedRootBundle
  let _databaseManifestSha256 ← Cursor.takeArr 32 "database_manifest_sha256"
  let _allArtifactsManifestSha256 ← Cursor.takeArr 32 "all_artifacts_manifest_sha256"
  let _serverDbManifestSha256 ← Cursor.takeArr 32 "server_db_manifest_sha256"
  pure { buildKind, networkMagic, fromAnchor, anchor, toMuhash, rootBundlePayloadSha256 := some rootBundlePayloadSha256 }

def decodeDbBuildEvidenceBinding (bytes : Bytes) : Result CertifiedDbBinding :=
  (whole dbBuildEvidenceBinding (.invalidInput "DB build evidence has trailing bytes") bytes).1

/-- A byte string whose length fits in 16 bits. -/
abbrev ShortBytes := { b : Bytes // b.length < 2 ^ 16 }

/-- A string whose length in bytes fits in 16 bits. -/
abbrev ShortString := { b : Bytes // b.length < 2 ^ 16 ∧ ValidUtf8 b }

/-- An option: a byte 0, or a byte 1 and the hash. -/
def optionText : Option (FixedBytes 32) → Bytes
  | none => [0]
  | some h => 1 :: h.val

/-- A DB build evidence: everything its text holds. -/
structure DbBuildEvidence where
  builderGitCommit : ShortString
  builderBinarySha256 : FixedBytes 32
  teePlatform : ShortString
  teeImageMeasurement : ShortBytes
  coreVersion : ShortString
  snapshotSha256 : FixedBytes 32
  snapshotBytes : UInt64
  networkMagic : FixedBytes 4
  buildKind : CertifiedBuildKind
  fromAnchor : CertifiedAnchor
  anchor : CertifiedAnchor
  utxoMuhash : FixedBytes 32
  dustThresholdSats : UInt64
  maxUtxosPerSpk : UInt32
  paramsHash : FixedBytes 32
  indexBinsPerTable : UInt32
  chunkBinsPerTable : UInt32
  onionEntrySize : UInt32
  bucketSuperRoot : FixedBytes 32
  onionSuperRoot : FixedBytes 32
  rootBundlePayloadSha256 : FixedBytes 32
  signedRootBundleSha256 : Option (FixedBytes 32)
  databaseManifestSha256 : FixedBytes 32
  allArtifactsManifestSha256 : FixedBytes 32
  serverDbManifestSha256 : FixedBytes 32

namespace DbBuildEvidence

def text (e : DbBuildEvidence) : Bytes :=
  [toLe 2 dbBuildEvidenceVersion.toNat, Cursor.lenText e.builderGitCommit.val, e.builderBinarySha256.val,
    Cursor.lenText e.teePlatform.val, Cursor.lenText e.teeImageMeasurement.val, Cursor.lenText e.coreVersion.val,
    e.snapshotSha256.val, toLe 8 e.snapshotBytes.toNat, e.networkMagic.val, [e.buildKind.byte], e.fromAnchor.text,
    e.anchor.text, e.utxoMuhash.val, toLe 8 e.dustThresholdSats.toNat, toLe 4 e.maxUtxosPerSpk.toNat, e.paramsHash.val,
    toLe 4 e.indexBinsPerTable.toNat, toLe 4 e.chunkBinsPerTable.toNat, toLe 4 e.onionEntrySize.toNat,
    e.bucketSuperRoot.val, e.onionSuperRoot.val, e.rootBundlePayloadSha256.val, optionText e.signedRootBundleSha256,
    e.databaseManifestSha256.val, e.allArtifactsManifestSha256.val, e.serverDbManifestSha256.val].flatten

def binding (e : DbBuildEvidence) : CertifiedDbBinding :=
  { buildKind := e.buildKind, networkMagic := e.networkMagic, fromAnchor := e.fromAnchor, anchor := e.anchor
    toMuhash := e.utxoMuhash, rootBundlePayloadSha256 := some e.rootBundlePayloadSha256 }

end DbBuildEvidence

theorem reads_takeSignedRootBundle : Reads takeSignedRootBundle fun _ w => ∃ o, w = optionText o := by
  intro b _ rest
  rw [takeSignedRootBundle, (Cursor.reads_takeU8 _).bind_iff]
  constructor
  · intro h
    obtain ⟨tag, _, t, rfl, rfl, h⟩ := h
    split at h
    · rename_i h0
      obtain ⟨_, rfl⟩ := pure_iff.mp h
      exact ⟨[tag], ⟨none, by rw [h0]; rfl⟩, rfl⟩
    · split at h
      · rename_i h1
        obtain ⟨hash, _, _, rfl, rfl, hend⟩ := (Cursor.reads_take _ _).bind_iff.mp h
        obtain ⟨_, rfl⟩ := pure_iff.mp hend
        exact ⟨tag :: hash.val, ⟨some hash, by rw [h1]; rfl⟩, rfl⟩
      · cases h
  · intro h
    obtain ⟨w, ⟨o, rfl⟩, rfl⟩ := h
    cases o with
    | none => exact ⟨0, _, rest, rfl, rfl, rfl⟩
    | some hash =>
      refine ⟨1, _, hash.val ++ rest, rfl, rfl, ?_⟩
      rw [if_neg (by decide), if_pos rfl]
      exact (Cursor.reads_take _ _).bind_iff.mpr ⟨hash, _, rest, rfl, rfl, rfl⟩

theorem reads_dbBuildEvidence :
    Reads dbBuildEvidenceBinding fun binding w => ∃ e : DbBuildEvidence, w = e.text ∧ binding = e.binding := by
  intro b binding rest
  constructor
  · intro h
    unfold dbBuildEvidenceBinding at h
    obtain ⟨version, _, _, rfl, rfl, h1⟩ := (Cursor.reads_takeU16 _).bind_iff.mp h
    obtain ⟨rfl, h2⟩ := ensure_bind_iff.mp h1
    obtain ⟨gitCommit, _, _, ⟨hgit, rfl⟩, rfl, h3⟩ := (Cursor.reads_takeString _).bind_iff.mp h2
    obtain ⟨binarySha, _, _, rfl, rfl, h4⟩ := (Cursor.reads_take _ _).bind_iff.mp h3
    obtain ⟨teePlatform, _, _, ⟨hplatform, rfl⟩, rfl, h5⟩ := (Cursor.reads_takeString _).bind_iff.mp h4
    obtain ⟨teeImage, _, _, ⟨himage, rfl⟩, rfl, h6⟩ := (Cursor.reads_takeLenBytes _).bind_iff.mp h5
    obtain ⟨coreVersion, _, _, ⟨hcore, rfl⟩, rfl, h7⟩ := (Cursor.reads_takeString _).bind_iff.mp h6
    obtain ⟨snapshotSha, _, _, rfl, rfl, h8⟩ := (Cursor.reads_take _ _).bind_iff.mp h7
    obtain ⟨snapshotBytes, _, _, rfl, rfl, h9⟩ := (Cursor.reads_takeU64 _).bind_iff.mp h8
    obtain ⟨networkMagic, _, _, rfl, rfl, h10⟩ := (Cursor.reads_take _ _).bind_iff.mp h9
    obtain ⟨kindByte, _, _, rfl, rfl, h11⟩ := (Cursor.reads_takeU8 _).bind_iff.mp h10
    obtain ⟨buildKind, hkind, h12⟩ := lift_bind_iff.mp h11
    obtain ⟨fromAnchor, _, _, rfl, rfl, h13⟩ := (reads_takeCertifiedAnchor _).bind_iff.mp h12
    obtain ⟨anchor, _, _, rfl, rfl, h14⟩ := (reads_takeCertifiedAnchor _).bind_iff.mp h13
    obtain ⟨toMuhash, _, _, rfl, rfl, h15⟩ := (Cursor.reads_take _ _).bind_iff.mp h14
    obtain ⟨dust, _, _, rfl, rfl, h16⟩ := (Cursor.reads_takeU64 _).bind_iff.mp h15
    obtain ⟨maxUtxos, _, _, rfl, rfl, h17⟩ := (Cursor.reads_takeU32 _).bind_iff.mp h16
    obtain ⟨paramsHash, _, _, rfl, rfl, h18⟩ := (Cursor.reads_take _ _).bind_iff.mp h17
    obtain ⟨indexBins, _, _, rfl, rfl, h19⟩ := (Cursor.reads_takeU32 _).bind_iff.mp h18
    obtain ⟨chunkBins, _, _, rfl, rfl, h20⟩ := (Cursor.reads_takeU32 _).bind_iff.mp h19
    obtain ⟨onionEntry, _, _, rfl, rfl, h21⟩ := (Cursor.reads_takeU32 _).bind_iff.mp h20
    obtain ⟨bucketRoot, _, _, rfl, rfl, h22⟩ := (Cursor.reads_take _ _).bind_iff.mp h21
    obtain ⟨onionRoot, _, _, rfl, rfl, h23⟩ := (Cursor.reads_take _ _).bind_iff.mp h22
    obtain ⟨payloadSha, _, _, rfl, rfl, h24⟩ := (Cursor.reads_take _ _).bind_iff.mp h23
    obtain ⟨_, _, _, ⟨signed, rfl⟩, rfl, h25⟩ := reads_takeSignedRootBundle.bind_iff.mp h24
    obtain ⟨database, _, _, rfl, rfl, h26⟩ := (Cursor.reads_take _ _).bind_iff.mp h25
    obtain ⟨artifacts, _, _, rfl, rfl, h27⟩ := (Cursor.reads_take _ _).bind_iff.mp h26
    obtain ⟨server, _, _, rfl, rfl, h28⟩ := (Cursor.reads_take _ _).bind_iff.mp h27
    obtain ⟨rfl, rfl⟩ := pure_iff.mp h28
    obtain rfl := certifiedBuildKindFromByte_ok.mp hkind
    refine ⟨_, ⟨{ builderGitCommit := ⟨gitCommit, hgit⟩, builderBinarySha256 := binarySha
                  teePlatform := ⟨teePlatform, hplatform⟩, teeImageMeasurement := ⟨teeImage, himage⟩
                  coreVersion := ⟨coreVersion, hcore⟩, snapshotSha256 := snapshotSha, snapshotBytes, networkMagic
                  buildKind, fromAnchor, anchor, utxoMuhash := toMuhash, dustThresholdSats := dust
                  maxUtxosPerSpk := maxUtxos, paramsHash, indexBinsPerTable := indexBins
                  chunkBinsPerTable := chunkBins, onionEntrySize := onionEntry, bucketSuperRoot := bucketRoot
                  onionSuperRoot := onionRoot, rootBundlePayloadSha256 := payloadSha
                  signedRootBundleSha256 := signed, databaseManifestSha256 := database
                  allArtifactsManifestSha256 := artifacts, serverDbManifestSha256 := server }, rfl, rfl⟩, ?_⟩
    simp only [DbBuildEvidence.text, List.flatten_cons, List.flatten_nil, List.append_assoc, List.nil_append]
  · intro h
    obtain ⟨w, ⟨e, rfl, rfl⟩, rfl⟩ := h
    rw [dbBuildEvidenceBinding, (Cursor.reads_takeU16 _).bind_iff]
    simp only [ensure_bind_iff, lift_bind_iff, certifiedBuildKindFromByte_ok, pure_iff, (Cursor.reads_take _ _).bind_iff,
      (Cursor.reads_takeU8 _).bind_iff, (Cursor.reads_takeU32 _).bind_iff, (Cursor.reads_takeU64 _).bind_iff,
      (Cursor.reads_takeLenBytes _).bind_iff, (Cursor.reads_takeString _).bind_iff, (reads_takeCertifiedAnchor _).bind_iff,
      reads_takeSignedRootBundle.bind_iff, DbBuildEvidence.text, List.flatten_cons, List.flatten_nil, List.append_assoc,
      List.nil_append]
    exact ⟨_, _, _, rfl, rfl, rfl, e.builderGitCommit.val, _, _, ⟨e.builderGitCommit.property, rfl⟩, rfl,
      e.builderBinarySha256, _, _, rfl, rfl, e.teePlatform.val, _, _, ⟨e.teePlatform.property, rfl⟩, rfl,
      e.teeImageMeasurement.val, _, _, ⟨e.teeImageMeasurement.property, rfl⟩, rfl, e.coreVersion.val, _, _,
      ⟨e.coreVersion.property, rfl⟩, rfl, e.snapshotSha256, _, _, rfl, rfl, e.snapshotBytes, _, _, rfl, rfl,
      e.networkMagic, _, _, rfl, rfl, _, _, _, rfl, rfl, e.buildKind, rfl, e.fromAnchor, _, _, rfl, rfl, e.anchor, _, _,
      rfl, rfl, e.utxoMuhash, _, _, rfl, rfl, e.dustThresholdSats, _, _, rfl, rfl, e.maxUtxosPerSpk, _, _, rfl, rfl,
      e.paramsHash, _, _, rfl, rfl, e.indexBinsPerTable, _, _, rfl, rfl, e.chunkBinsPerTable, _, _, rfl, rfl,
      e.onionEntrySize, _, _, rfl, rfl, e.bucketSuperRoot, _, _, rfl, rfl, e.onionSuperRoot, _, _, rfl, rfl,
      e.rootBundlePayloadSha256, _, _, rfl, rfl, (), _, _, ⟨e.signedRootBundleSha256, rfl⟩, rfl,
      e.databaseManifestSha256, _, _, rfl, rfl, e.allArtifactsManifestSha256, _, _, rfl, rfl, e.serverDbManifestSha256,
      _, _, rfl, rfl, rfl, rfl⟩

/-! ## The two decoders -/

theorem decodeRootBundlePayloadBinding_ok {bytes : Bytes} {binding : CertifiedDbBinding} :
    decodeRootBundlePayloadBinding bytes = .ok binding ↔
      ∃ p : RootBundlePayload, bytes = p.text ∧ binding = p.binding :=
  reads_rootBundlePayload.whole _ bytes binding

theorem decodeDbBuildEvidenceBinding_ok {bytes : Bytes} {binding : CertifiedDbBinding} :
    decodeDbBuildEvidenceBinding bytes = .ok binding ↔ ∃ e : DbBuildEvidence, bytes = e.text ∧ binding = e.binding :=
  reads_dbBuildEvidence.whole _ bytes binding

/-- Each decoder returns `binding` exactly on the texts of the records that hold it, and of two byte
    strings it accepts none is a strict prefix of the other. -/
theorem payload_decoders_exact :
    (∀ bytes binding, decodeRootBundlePayloadBinding bytes = .ok binding ↔
      ∃ p : RootBundlePayload, bytes = p.text ∧ binding = p.binding) ∧
    (∀ bytes binding, decodeDbBuildEvidenceBinding bytes = .ok binding ↔
      ∃ e : DbBuildEvidence, bytes = e.text ∧ binding = e.binding) ∧
    (∀ bytes more b b', decodeRootBundlePayloadBinding bytes = .ok b →
      decodeRootBundlePayloadBinding (bytes ++ more) = .ok b' → more = []) ∧
    (∀ bytes more b b', decodeDbBuildEvidenceBinding bytes = .ok b →
      decodeDbBuildEvidenceBinding (bytes ++ more) = .ok b' → more = []) := by
  refine ⟨fun _ _ => decodeRootBundlePayloadBinding_ok, fun _ _ => decodeDbBuildEvidenceBinding_ok, ?_, ?_⟩
  · intro bytes more b b' h hmore
    exact reads_rootBundlePayload.prefixFree (decodeRootBundlePayloadBinding_ok.mp h)
      (decodeRootBundlePayloadBinding_ok.mp hmore)
  · intro bytes more b b' h hmore
    exact reads_dbBuildEvidence.prefixFree (decodeDbBuildEvidenceBinding_ok.mp h)
      (decodeDbBuildEvidenceBinding_ok.mp hmore)

/-- A label of one printable byte. -/
def shortLabel (b : UInt8) (h : 0x21 ≤ b ∧ b ≤ 0x7e) : RootLabel := ⟨[b], by simp [h]⟩

/-- The roots `a` and `b`. -/
def rootsAB : List RootEntry := [⟨shortLabel 0x61 ⟨Nat.le_of_ble_eq_true rfl, Nat.le_of_ble_eq_true rfl⟩, .zero 32⟩,
  ⟨shortLabel 0x62 ⟨Nat.le_of_ble_eq_true rfl, Nat.le_of_ble_eq_true rfl⟩, .zero 32⟩]

theorem rootsAB_sorted : (rootsAB.map fun e => e.label.val).Pairwise (· < ·) :=
  List.pairwise_pair.mpr (List.Lex.rel (Nat.le_of_ble_eq_true rfl))

theorem rootsAB_count : 1 ≤ rootsAB.length ∧ rootsAB.length ≤ 1024 :=
  ⟨Nat.le_of_ble_eq_true rfl, Nat.le_of_ble_eq_true rfl⟩

/-- A snapshot with two roots. -/
def twoRoots : RootBundlePayload :=
  { networkMagic := ⟨[0xf9, 0xbe, 0xb4, 0xd9], rfl⟩, buildKind := .snapshot
    fromAnchor := ⟨.zero 32, 0⟩, anchor := ⟨.zero 32, 950000⟩, utxoMuhash := .zero 32
    dustThresholdSats := 576, maxUtxosPerSpk := 100, paramsHash := .zero 32, issuedAt := 1780000000
    roots := rootsAB, count := rootsAB_count, sorted := rootsAB_sorted }

theorem payload_decoders_exact_two :
    decodeRootBundlePayloadBinding twoRoots.text = .ok twoRoots.binding ∧
      ∀ b, decodeRootBundlePayloadBinding (twoRoots.text ++ [0]) ≠ .ok b :=
  have h := payload_decoders_exact
  have htext := (h.1 _ _).mpr ⟨twoRoots, rfl, rfl⟩
  ⟨htext, fun _ hb => (List.cons_ne_nil _ _) (h.2.2.1 _ _ _ _ htext hb)⟩

end BpirOram
