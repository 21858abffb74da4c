import Minnal.Library.ByteReads
import Minnal.Library.Decimal

/-!
# Typed keys

A document store has keys of one **type** (uuids, integers or texts) and so has a typed key-value
store (texts or signed integers). The engine below sees their bytes only and orders them as byte
strings. Here are the encodings of both, and that they are **order embeddings**: a key is read back
from its bytes, and the bytes of two keys of a type compare as the keys do.

An `int` key is written with its sign bit flipped, since the bytes of a negative number would come
after those of a positive one.
-/

namespace Minnal

namespace TypedKeys

open ByteCodec ByteReads

/-! ### Keys of documents -/

/-- The longest text key, in bytes. -/
def MAX_STR_KEY_LEN : ℕ := 50

/-- A text key: valid UTF-8 of `1` to `MAX_STR_KEY_LEN` bytes. -/
structure StrKey where
  as_bytes : List UInt8
  nonempty : as_bytes ≠ []
  length_le : as_bytes.length ≤ MAX_STR_KEY_LEN
  valid : (fromUtf8 as_bytes).isSome = true

/-- Why a key is refused. -/
inductive KeyError where
  | EmptyStrKey
  | StrKeyTooLong (max len : ℕ)
  | StrKeyNotUtf8
  /-- `InvalidId`: how many bytes a key of the type has, and how many there are. -/
  | InvalidId (expected found : ℕ)
  /-- `KvKeyTypeMismatch`: what the key is not. -/
  | KvKeyTypeMismatch (expected : String)
  | KvValueCorrupt
  deriving DecidableEq, Repr

def StrKey.from_bytes (bytes : List UInt8) : Except KeyError StrKey :=
  if hempty : bytes = [] then .error .EmptyStrKey
  else if hlong : bytes.length > MAX_STR_KEY_LEN then
    .error (.StrKeyTooLong MAX_STR_KEY_LEN bytes.length)
  else if hvalid : (fromUtf8 bytes).isSome = true then
    .ok ⟨bytes, hempty, not_lt.mp hlong, hvalid⟩
  else .error .StrKeyNotUtf8

def StrKey.new (s : String) : Except KeyError StrKey := StrKey.from_bytes (utf8 s)

inductive KeyType where
  | Uuid
  | U64
  | U128
  | Str
  deriving DecidableEq, Repr

inductive DocId where
  | Uuid (v : BitVec 128)
  | U64 (v : UInt64)
  | U128 (v : BitVec 128)
  | Str (k : StrKey)

namespace DocId

/-- The bytes of the database key. -/
def to_bytes : DocId → List UInt8
  | .Uuid v | .U128 v => beBytes 16 v.toNat
  | .U64 v => beBytes 8 v.toNat
  | .Str k => k.as_bytes

def key_type : DocId → KeyType
  | .Uuid _ => .Uuid
  | .U64 _ => .U64
  | .U128 _ => .U128
  | .Str _ => .Str

/-- The bytes as an array of the length the type asks for. -/
def expectBytes (n : ℕ) (bytes : List UInt8) : Except KeyError (List UInt8) :=
  if bytes.length = n then .ok bytes else .error (.InvalidId n bytes.length)

def from_bytes (bytes : List UInt8) : KeyType → Except KeyError DocId
  | .Str => (StrKey.from_bytes bytes).map .Str
  | .Uuid => (expectBytes 16 bytes).map fun arr => .Uuid (BitVec.ofNat 128 (beNat arr))
  | .U64 => (expectBytes 8 bytes).map fun arr => .U64 (UInt64.ofNat (beNat arr))
  | .U128 => (expectBytes 16 bytes).map fun arr => .U128 (BitVec.ofNat 128 (beNat arr))

/-- The order of the type's variants. -/
def rank : DocId → ℕ
  | .Uuid _ => 0
  | .U64 _ => 1
  | .U128 _ => 2
  | .Str _ => 3

/-- The derived order: by variant, then by value; texts compare by their bytes. -/
def Before : DocId → DocId → Prop
  | .Uuid a, .Uuid b => a < b
  | .U64 a, .U64 b => a < b
  | .U128 a, .U128 b => a < b
  | .Str a, .Str b => a.as_bytes < b.as_bytes
  | a, b => a.rank < b.rank

end DocId

/-! ### Keys of a typed key-value store -/

/-- A JSON value, as far as a key can be one: the rest is `other`. -/
inductive JsonValue where
  | string (s : String)
  /-- A number without a fraction, of either sign. -/
  | integer (n : ℤ)
  | other
  deriving DecidableEq, Repr

def JsonValue.as_str : JsonValue → Option String
  | .string s => some s
  | _ => none

/-- The number, if it is one of 64 signed bits. -/
def JsonValue.as_i64 : JsonValue → Option Int64
  | .integer n => if -2 ^ 63 ≤ n ∧ n < 2 ^ 63 then some (Int64.ofInt n) else none
  | _ => none

inductive KvKeyType where
  | Str
  | Int
  deriving DecidableEq, Repr

def signBit : UInt64 := (1 : UInt64) <<< 63

/-- Big-endian with the sign bit flipped. -/
def encode_int_key (n : Int64) : List UInt8 := beBytes 8 (n.toUInt64 ^^^ signBit).toNat

def decode_int_key (bytes : List UInt8) : Int64 := (UInt64.ofNat (beNat bytes) ^^^ signBit).toInt64

namespace KvKeyType

def serialize_key (key_type : KvKeyType) (key : JsonValue) : Except KeyError (List UInt8) :=
  match key_type with
  | .Str =>
    match key.as_str with
    | none => .error (.KvKeyTypeMismatch "string")
    | some s => (StrKey.new s).map StrKey.as_bytes
  | .Int =>
    match key.as_i64 with
    | none => .error (.KvKeyTypeMismatch "integer")
    | some n => .ok (encode_int_key n)

def serialize_key_from_str (key_type : KvKeyType) (raw : String) : Except KeyError (List UInt8) :=
  match key_type with
  | .Str => (StrKey.new raw).map StrKey.as_bytes
  | .Int =>
    match Decimal.parseI64 (utf8 raw) with
    | none => .error (.KvKeyTypeMismatch "integer")
    | some n => .ok (encode_int_key n)

def deserialize_key (key_type : KvKeyType) (bytes : List UInt8) : Except KeyError JsonValue :=
  match key_type with
  | .Str =>
    match fromUtf8 bytes with
    | none => .error .KvValueCorrupt
    | some s => .ok (.string s)
  | .Int =>
    if bytes.length = 8 then .ok (.integer (decode_int_key bytes).toInt) else .error .KvValueCorrupt

end KvKeyType

/-! ### Document keys are read back, in order -/

@[ext] theorem StrKey.ext {a b : StrKey} (h : a.as_bytes = b.as_bytes) : a = b := by
  cases a
  cases b
  cases h
  rfl

variable {bytes : List UInt8}

theorem StrKey.from_bytes_eq_ok {k : StrKey} :
    StrKey.from_bytes bytes = .ok k ↔ k.as_bytes = bytes := by
  rw [StrKey.from_bytes]
  split_ifs with hempty hlong hvalid
  · exact iff_of_false nofun fun h => k.nonempty (h.trans hempty)
  · exact iff_of_false nofun fun h => hlong.not_ge (h ▸ k.length_le)
  · rw [Except.ok.injEq]
    exact ⟨fun h => h ▸ rfl, fun h => StrKey.ext h.symm⟩
  · exact iff_of_false nofun fun h => hvalid (h ▸ k.valid)

namespace DocId

/-- The fixed-width forms are read back from the bytes of that width. -/
theorem beBytes_eq_iff {w m : ℕ} (hm : m < 256 ^ w) :
    beBytes w m = bytes ↔ bytes.length = w ∧ beNat bytes = m := by
  constructor
  · rintro rfl
    exact ⟨length_beBytes w m, beNat_beBytes_of_lt hm⟩
  · rintro ⟨rfl, rfl⟩
    exact beBytes_beNat bytes

theorem expectBytes_map_eq_ok {α : Type} {n : ℕ} {f : List UInt8 → α} {a : α} :
    (expectBytes n bytes).map f = .ok a ↔ bytes.length = n ∧ f bytes = a := by
  rw [expectBytes]
  split_ifs with h
  · simp [Except.map, h]
  · exact iff_of_false nofun fun hn => h hn.1

/-- **A key is read back from its bytes, and from no others.** -/
theorem from_bytes_eq_ok {key_type : KeyType} {id : DocId} :
    from_bytes bytes key_type = .ok id ↔ id.key_type = key_type ∧ id.to_bytes = bytes := by
  have h128 : (256 : ℕ) ^ 16 = 2 ^ 128 := by decide
  have h64 : (256 : ℕ) ^ 8 = 2 ^ 64 := by decide
  have hword : ∀ v : BitVec 128, bytes.length = 16 →
      (BitVec.ofNat 128 (beNat bytes) = v ↔ beNat bytes = v.toNat) := by
    intro v hlen
    have hlt := beNat_lt bytes
    rw [hlen, h128] at hlt
    rw [← BitVec.toNat_inj, BitVec.toNat_ofNat, Nat.mod_eq_of_lt hlt]
  cases key_type with
  | Str =>
    rw [from_bytes]
    cases id with
    | Str k =>
      rw [to_bytes, ← StrKey.from_bytes_eq_ok]
      cases StrKey.from_bytes bytes with
      | error e => exact iff_of_false nofun fun h => nomatch h.2
      | ok k' => simp [Except.map, DocId.key_type]
    | _ =>
      refine iff_of_false (fun h => ?_) fun h => nomatch h.1
      cases hk : StrKey.from_bytes bytes with
      | error e | ok k' => rw [hk] at h; cases h
  | Uuid =>
    rw [from_bytes, expectBytes_map_eq_ok]
    cases id with
    | Uuid v =>
      rw [to_bytes, beBytes_eq_iff (h128 ▸ v.isLt), DocId.Uuid.injEq]
      simpa [DocId.key_type] using hword v
    | _ => exact iff_of_false (fun h => nomatch h.2) fun h => nomatch h.1
  | U64 =>
    rw [from_bytes, expectBytes_map_eq_ok]
    cases id with
    | U64 v =>
      rw [to_bytes, beBytes_eq_iff (h64 ▸ v.toNat_lt), DocId.U64.injEq]
      simp only [DocId.key_type, true_and]
      refine and_congr_right fun hlen => ?_
      have hlt := beNat_lt bytes
      rw [hlen, h64] at hlt
      rw [← UInt64.toNat_inj, UInt64.toNat_ofNat', Nat.mod_eq_of_lt hlt]
    | _ => exact iff_of_false (fun h => nomatch h.2) fun h => nomatch h.1
  | U128 =>
    rw [from_bytes, expectBytes_map_eq_ok]
    cases id with
    | U128 v =>
      rw [to_bytes, beBytes_eq_iff (h128 ▸ v.isLt), DocId.U128.injEq]
      simpa [DocId.key_type] using hword v
    | _ => exact iff_of_false (fun h => nomatch h.2) fun h => nomatch h.1

theorem from_bytes_to_bytes (id : DocId) : from_bytes id.to_bytes id.key_type = .ok id :=
  from_bytes_eq_ok.mpr ⟨rfl, rfl⟩

/-- **Injective** among the keys of a type. -/
theorem to_bytes_inj {a b : DocId} (htype : a.key_type = b.key_type)
    (h : a.to_bytes = b.to_bytes) : a = b := by
  have ha : from_bytes b.to_bytes b.key_type = .ok a := from_bytes_eq_ok.mpr ⟨htype, h⟩
  exact Except.ok.inj (ha.symm.trans b.from_bytes_to_bytes)

/-- Fixed-width forms compare as the numbers. -/
theorem beBytes_lt_iff {w m n : ℕ} (hm : m < 256 ^ w) (hn : n < 256 ^ w) :
    beBytes w m < beBytes w n ↔ m < n := by
  rw [← beNat_lt_beNat_iff (by rw [length_beBytes, length_beBytes]), beNat_beBytes_of_lt hm,
    beNat_beBytes_of_lt hn]

/-- **The bytes compare as the keys do**, among the keys of a type. -/
theorem to_bytes_lt_iff {a b : DocId} (htype : a.key_type = b.key_type) :
    a.to_bytes < b.to_bytes ↔ a.Before b := by
  have h128 : (256 : ℕ) ^ 16 = 2 ^ 128 := by decide
  have h64 : (256 : ℕ) ^ 8 = 2 ^ 64 := by decide
  cases a with
  | Uuid v =>
    cases b with
    | Uuid w => exact beBytes_lt_iff (h128 ▸ v.isLt) (h128 ▸ w.isLt)
    | _ => cases htype
  | U64 v =>
    cases b with
    | U64 w =>
      exact (beBytes_lt_iff (h64 ▸ v.toNat_lt) (h64 ▸ w.toNat_lt)).trans UInt64.lt_iff_toNat_lt.symm
    | _ => cases htype
  | U128 v =>
    cases b with
    | U128 w => exact beBytes_lt_iff (h128 ▸ v.isLt) (h128 ▸ w.isLt)
    | _ => cases htype
  | Str k =>
    cases b with
    | Str k' => exact Iff.rfl
    | _ => cases htype

end DocId

/-! ### Keys of key-value stores are read back, in order -/

/-- Flipping the highest of 64 bits. -/
theorem xor_two_pow_63 {n : ℕ} (h : n < 2 ^ 64) :
    n ^^^ 2 ^ 63 = if n < 2 ^ 63 then n + 2 ^ 63 else n - 2 ^ 63 := by
  have hdiv : (n ^^^ 2 ^ 63) / 2 ^ 63 = n / 2 ^ 63 ^^^ 1 := by
    rw [Nat.xor_div_two_pow, Nat.div_self (by decide)]
  have hmod : (n ^^^ 2 ^ 63) % 2 ^ 63 = n % 2 ^ 63 := by
    rw [Nat.xor_mod_two_pow, Nat.mod_self, Nat.xor_zero]
  have hsplit := Nat.div_add_mod (n ^^^ 2 ^ 63) (2 ^ 63)
  rw [hdiv, hmod] at hsplit
  split_ifs with hlow
  · rw [Nat.div_eq_of_lt hlow, Nat.mod_eq_of_lt hlow, Nat.zero_xor] at hsplit
    omega
  · have hhigh : n / 2 ^ 63 = 1 := by omega
    rw [hhigh, Nat.xor_self] at hsplit
    omega

/-- **The encoding shifts the integers**: the smallest one to zero. -/
theorem flipped_eq (n : Int64) : ((n.toUInt64 ^^^ signBit).toNat : ℤ) = n.toInt + 2 ^ 63 := by
  have hlt := n.toUInt64.toNat_lt
  have hsign : signBit.toNat = 2 ^ 63 := by decide
  have hint : n.toInt = if 2 * n.toUInt64.toNat < 2 ^ 64 then (n.toUInt64.toNat : ℤ)
      else (n.toUInt64.toNat : ℤ) - 2 ^ 64 := BitVec.toInt_eq_toNat_cond n.toBitVec
  rw [UInt64.toNat_xor, hsign, xor_two_pow_63 hlt, hint]
  split_ifs <;> omega

/-- An integer is read back from its bytes, and from no others of that length. -/
theorem encode_int_key_eq_iff {n : Int64} :
    encode_int_key n = bytes ↔ bytes.length = 8 ∧ decode_int_key bytes = n := by
  have hflip : ∀ x y : UInt64, x ^^^ signBit = y ↔ x = y ^^^ signBit := by
    intro x y
    constructor
    · rintro rfl
      rw [UInt64.xor_assoc, UInt64.xor_self, UInt64.xor_zero]
    · rintro rfl
      rw [UInt64.xor_assoc, UInt64.xor_self, UInt64.xor_zero]
  rw [encode_int_key, DocId.beBytes_eq_iff (UInt64.toNat_lt _)]
  refine and_congr_right fun hlen => ?_
  have hlt := beNat_lt bytes
  rw [hlen, (by decide : (256 : ℕ) ^ 8 = 2 ^ 64)] at hlt
  have hword : beNat bytes = (n.toUInt64 ^^^ signBit).toNat ↔
      UInt64.ofNat (beNat bytes) = n.toUInt64 ^^^ signBit := by
    rw [← UInt64.toNat_inj, UInt64.toNat_ofNat', Nat.mod_eq_of_lt hlt]
  rw [hword, ← hflip, decode_int_key]
  constructor
  · intro h
    rw [h, Int64.toInt64_toUInt64]
  · rintro rfl
    rw [UInt64.toUInt64_toInt64]

/-- **Integer keys compare as the integers do**, the negative ones first. -/
theorem encode_int_key_lt_iff {m n : Int64} : encode_int_key m < encode_int_key n ↔ m < n := by
  have hm := flipped_eq m
  have hn := flipped_eq n
  rw [encode_int_key, encode_int_key, DocId.beBytes_lt_iff (UInt64.toNat_lt _) (UInt64.toNat_lt _),
    Int64.lt_iff_toInt_lt]
  omega

namespace JsonValue

/-- The order of keys of one type. -/
def Before : JsonValue → JsonValue → Prop
  | .integer m, .integer n => m < n
  | .string a, .string b => utf8 a < utf8 b
  | _, _ => False

theorem as_i64_eq_some {key : JsonValue} {n : Int64} :
    key.as_i64 = some n ↔ key = .integer n.toInt := by
  cases key with
  | integer m =>
    rw [as_i64]
    constructor
    · intro h
      split_ifs at h with hm
      obtain rfl := Option.some.inj h
      rw [Int64.toInt_ofInt_of_le hm.1 hm.2]
    · intro h
      obtain rfl := JsonValue.integer.inj h
      rw [if_pos ⟨n.le_toInt, n.toInt_lt⟩, Int64.ofInt_toInt]
  | string s | other => exact iff_of_false nofun nofun

end JsonValue

namespace KvKeyType

/-- What a key is, once it was encoded. -/
theorem serialize_key_eq_ok {key_type : KvKeyType} {key : JsonValue}
    (h : key_type.serialize_key key = .ok bytes) :
    match key_type with
    | .Str => ∃ s, key = .string s ∧ utf8 s = bytes
    | .Int => ∃ n : Int64, key = .integer n.toInt ∧ encode_int_key n = bytes := by
  cases key_type with
  | Str =>
    cases key with
    | string s =>
      refine ⟨s, rfl, ?_⟩
      simp only [serialize_key, JsonValue.as_str, StrKey.new] at h
      cases hk : StrKey.from_bytes (utf8 s) with
      | error e => rw [hk] at h; cases h
      | ok k =>
        rw [hk] at h
        exact (StrKey.from_bytes_eq_ok.mp hk).symm.trans (Except.ok.inj h)
    | integer n => cases h
    | other => cases h
  | Int =>
    simp only [serialize_key] at h
    split at h
    · cases h
    · rename_i n hn
      exact ⟨n, JsonValue.as_i64_eq_some.mp hn, Except.ok.inj h⟩

/-- **A key is read back.** -/
theorem deserialize_serialize {key_type : KvKeyType} {key : JsonValue}
    (h : key_type.serialize_key key = .ok bytes) : key_type.deserialize_key bytes = .ok key := by
  have hkey := serialize_key_eq_ok h
  cases key_type with
  | Str =>
    obtain ⟨s, rfl, rfl⟩ := hkey
    rw [deserialize_key, fromUtf8_utf8]
  | Int =>
    obtain ⟨n, rfl, hn⟩ := hkey
    obtain ⟨hlen, hdecode⟩ := encode_int_key_eq_iff.mp hn
    rw [deserialize_key, if_pos hlen, hdecode]

/-- **Injective.** -/
theorem serialize_key_inj {key_type : KvKeyType} {a b : JsonValue}
    (ha : key_type.serialize_key a = .ok bytes) (hb : key_type.serialize_key b = .ok bytes) :
    a = b :=
  Except.ok.inj ((deserialize_serialize ha).symm.trans (deserialize_serialize hb))

/-- **The bytes compare as the keys do.** -/
theorem serialize_key_lt_iff {key_type : KvKeyType} {a b : JsonValue} {x y : List UInt8}
    (ha : key_type.serialize_key a = .ok x) (hb : key_type.serialize_key b = .ok y) :
    x < y ↔ a.Before b := by
  have hx := serialize_key_eq_ok ha
  have hy := serialize_key_eq_ok hb
  cases key_type with
  | Str =>
    obtain ⟨s, rfl, rfl⟩ := hx
    obtain ⟨t, rfl, rfl⟩ := hy
    exact Iff.rfl
  | Int =>
    obtain ⟨m, rfl, rfl⟩ := hx
    obtain ⟨n, rfl, rfl⟩ := hy
    exact encode_int_key_lt_iff.trans Int64.lt_iff_toInt_lt

end KvKeyType

end TypedKeys

end Minnal
