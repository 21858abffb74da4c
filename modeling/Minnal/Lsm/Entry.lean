import Minnal.Library.Bytes
import Minnal.Library.LastWrite
import Minnal.Library.SortedMap

/-!
# Keys, records and the crates the store calls

The LSM tree maps byte-string keys to value-log pointers (a `u128`, here a natural number).
A memtable holds `KeyValueRecord`s, an SSTable file holds `SStableEntry`s; both carry the
write sequence that decides which copy of a key wins, and a tombstone flag for deletes. What
a reader sees of either is a `Copy`: the pointer, or none for a tombstone, with the sequence.

Three third-party crates enter as data, in `Crates`: the Murmur3 hash (bucket choice, Bloom
filter), CRC32 (frame checksum) and the rkyv codec of an SSTable entry. Of the hash and the
checksum nothing is assumed. Of the codec the store relies on two documented facts, which
are fields: reading an archive gives back what was serialised, and an archive, whose
relative pointers are 32 bits wide, is short enough for the `u32` length of a frame.
-/

namespace Minnal

open ByteCodec

/-- A byte string: a key, or the contents of a file. -/
abbrev Bytes := List UInt8

/-- Keys are byte strings in lexicographic order. -/
abbrev Key := Bytes

/-- A materialised memtable entry. -/
structure KeyValueRecord where
  key : Key
  value : ℕ
  tombstone : Bool
  seq : ℕ
  deriving DecidableEq, Repr

/-- A single entry in an SSTable file. -/
structure SStableEntry where
  key : Key
  /-- The key's first 8 bytes as a big-endian integer, zero-padded. -/
  keyPrefix : ℕ
  value : ℕ
  tombstone : Bool
  seq : ℕ
  deriving DecidableEq, Repr, Inhabited

/-- One layer's copy of a key: its pointer, or `none` for a tombstone, and its sequence. -/
abbrev Copy := Option ℕ × ℕ

/-- A key's running winner during cross-layer resolution. -/
abbrev Candidate := Option Copy

/-- The copy a record is, a tombstone's value bits being meaningless. -/
def KeyValueRecord.copy (r : KeyValueRecord) : Copy :=
  (if r.tombstone then none else some r.value, r.seq)

/-- The copy an SSTable entry is. -/
def SStableEntry.copy (e : SStableEntry) : Copy :=
  (if e.tombstone then none else some e.value, e.seq)

/-- How an IO call of the store fails. -/
inductive IoKind where
  | unexpectedEof
  | notFound
  | other
  deriving DecidableEq, Repr

/-- What a reader found wrong with an SSTable file. -/
inductive Corruption where
  /-- The file is too short to hold a header. -/
  | unreadableHeader
  /-- The first four bytes are not the SSTable magic. -/
  | badMagic (found : Bytes)
  /-- The header names a format this build does not read. -/
  | formatVersion (version : ℕ)
  /-- A frame declares an empty payload, or one longer than the file. -/
  | frameLength (size fileLen : ℕ)
  /-- A frame's payload is too short to hold its checksum. -/
  | payloadTooSmall (len : ℕ)
  /-- A frame's payload does not have the stored checksum. -/
  | crcMismatch (stored computed : ℕ)
  deriving DecidableEq, Repr

/-- The errors of the LSM tree. -/
inductive LSMError where
  | io (kind : IoKind)
  | serialization
  | capacityExceeded
  | corruption (what : Corruption)
  deriving DecidableEq, Repr

/-- The third-party crates the store calls. -/
structure Crates where
  /-- `Murmur3Hasher::new_with_seed(seed)`, one `write`, `finish`. -/
  murmur3 : ℕ → Bytes → ℕ
  /-- `crc32fast::hash`. -/
  crc32 : Bytes → UInt32
  /-- `rkyv::to_bytes` of an entry, `none` when it fails. -/
  toBytes : SStableEntry → Option Bytes
  /-- `rkyv::access_unchecked` of an entry's archive. -/
  access : Bytes → SStableEntry
  access_toBytes : ∀ {e : SStableEntry} {b : Bytes}, toBytes e = some b → access b = e
  length_toBytes : ∀ {e : SStableEntry} {b : Bytes}, toBytes e = some b → 4 + b.length < 2 ^ 32

/-! ### Key prefixes and buckets -/

/-- The first 8 bytes of a key as a big-endian integer, zero-padded. -/
def keyPrefixOf (bytes : Bytes) : ℕ :=
  beNat (bytes.take 8 ++ List.replicate (8 - bytes.length) 0)

/-- Seed of the bucket hash. -/
def bucketSeed : ℕ := 0xFEACBE01

/-- The bucket a key belongs to: the hash of its prefix, modulo the number of buckets. -/
def getBucketForKey (c : Crates) (key : Key) (numBuckets : ℕ) : ℕ :=
  c.murmur3 bucketSeed (leBytes 8 (keyPrefixOf key)) % numBuckets

theorem getBucketForKey_lt (c : Crates) (key : Key) {n : ℕ} (hn : 0 < n) :
    getBucketForKey c key n < n :=
  Nat.mod_lt _ hn

/-- The smallest key above every key that starts with `pre`: increment the last byte that is
not `0xFF` and drop the tail of `0xFF` bytes. `none` when there is no such key. -/
def prefixUpperBound (pre : Bytes) : Option Bytes :=
  match pre.reverse.dropWhile (· == 0xFF) with
  | [] => none
  | last :: front => some (front.reverse ++ [last + 1])

theorem prefixUpperBound_cons (x : UInt8) (pre : Bytes) :
    prefixUpperBound (x :: pre) = match prefixUpperBound pre with
      | some u => some (x :: u)
      | none => if x = 0xFF then none else some [x + 1] := by
  unfold prefixUpperBound
  rw [List.reverse_cons, List.dropWhile_append]
  cases hdrop : pre.reverse.dropWhile (· == 0xFF) with
  | nil => by_cases hx : x = 0xFF <;> simp [hx]
  | cons last front => simp

/-- The keys that start with a prefix are those from it up to its upper bound. -/
theorem isPrefix_iff_range (pre k : Bytes) :
    pre <+: k ↔ pre ≤ k ∧ ∀ u ∈ prefixUpperBound pre, k < u := by
  induction pre generalizing k with
  | nil => simp [nil_le, prefixUpperBound]
  | cons x pre ih =>
    rcases k with _ | ⟨y, k⟩
    · have hnot : ¬ x :: pre ≤ [] := not_le.mpr (List.nil_lt_cons x pre)
      simp [hnot]
    have hge : x :: pre ≤ y :: k ↔ x < y ∨ x = y ∧ pre ≤ k := by
      rw [← not_lt, List.cons_lt_cons_iff, ← not_lt (a := k)]
      rcases lt_trichotomy x y with h | rfl | h
      · simp [h, h.not_gt, h.ne']
      · simp
      · simp [h, h.not_gt, h.ne']
    rw [List.cons_prefix_cons, ih, hge, prefixUpperBound_cons]
    rcases hub : prefixUpperBound pre with _ | u
    · by_cases hx : x = 0xFF
      · -- nothing is above the largest byte
        have hmax : ¬ x < y := by
          rw [hx, UInt8.lt_iff_toNat_lt]
          have hy := y.toNat_lt
          simp
          omega
        simp [hx]
        simp [← hx, hmax]
      · have hsucc : (x + 1).toNat = x.toNat + 1 := by
          have hlt := x.toNat_lt
          have hne : x.toNat ≠ 255 := fun h => hx (UInt8.toNat_inj.mp h)
          rw [UInt8.toNat_add]
          simp
          omega
        have hup : y :: k < [x + 1] ↔ y ≤ x := by
          rw [List.cons_lt_cons_iff, UInt8.lt_iff_toNat_lt, hsucc, UInt8.le_iff_toNat_le]
          simp
        simp only [hx, if_false, Option.mem_def, Option.some.injEq, forall_eq', hup, reduceCtorEq,
          false_imp_iff, implies_true, and_true]
        constructor
        · rintro ⟨rfl, hle⟩
          exact ⟨.inr ⟨rfl, hle⟩, le_rfl⟩
        · rintro ⟨hlt | ⟨rfl, hle⟩, hyx⟩
          · exact absurd hlt hyx.not_gt
          · exact ⟨rfl, hle⟩
    · simp only [Option.mem_def, Option.some.injEq, forall_eq', List.cons_lt_cons_iff]
      constructor
      · rintro ⟨rfl, hle, hlt⟩
        exact ⟨.inr ⟨rfl, hle⟩, .inr ⟨rfl, hlt⟩⟩
      · rintro ⟨hlt | ⟨hxy, hle⟩, hyx | ⟨heq, hku⟩⟩
        · exact absurd hlt hyx.not_gt
        · exact absurd heq hlt.ne'
        · exact absurd hxy hyx.ne'
        · exact ⟨hxy, hle, hku⟩

/-- Reading a prefix of at most 8 bytes off the stored integer, for a key that is not
shorter. -/
theorem take_beBytes_keyPrefixOf {pre key : Bytes} (hpre : pre.length ≤ 8)
    (hkey : pre.length ≤ key.length) :
    (beBytes 8 (keyPrefixOf key)).take pre.length = pre ↔ pre <+: key := by
  have hbytes : beBytes 8 (keyPrefixOf key) = padTake 8 key := by
    have h := beBytes_beNat (padTake 8 key)
    rwa [length_padTake] at h
  rw [hbytes, take_padTake hpre hkey]

/-! ### Sequences -/

/-- Whether `a` is a strictly newer write sequence than `b`. -/
def seqNewer (a b : ℕ) : Bool := decide (b < a)

/-- Whether `a` is newer than or equal to `b`. -/
def seqNewerOrEq (a b : ℕ) : Bool := decide (b ≤ a)

/-- Fold a candidate into the running best, keeping the newest sequence; callers feed
candidates newest layer first, so a tie stays with the newer copy. -/
def mergeCandidate (best : Candidate) (value : Option ℕ) (seq : ℕ) : Candidate :=
  match best with
  | none => some (value, seq)
  | some b => if seqNewer seq b.2 then some (value, seq) else some b

/-- Folding a candidate in is the left-biased maximum with the running best. -/
theorem mergeCandidate_eq (best : Candidate) (value : Option ℕ) (seq : ℕ) :
    mergeCandidate best value seq = LastWrite.newer best (some (value, seq)) := by
  rcases best with _ | b
  · rfl
  · simp [mergeCandidate, seqNewer, LastWrite.newer_some_some]

end Minnal
