import Minnal.Lsm.Entry

/-!
# The crates, concretely

The development never looks inside `Crates`. To run the store on a concrete input one needs
an instance, and this is the one the store is built with: the reflected CRC-32, Murmur3 in its
128-bit form cut to the low 64 bits, and an rkyv archive of an entry, that is the key's bytes,
padding to the alignment of the root, and the root with the relative pointer of the key and
the fixed-width fields, all little-endian.

Serialisation fails on an entry that the source's types cannot hold, so the archive of every
entry it accepts reads back (`accessArchive_archive`).
-/

namespace Minnal

open ByteCodec

/-! ### Checksum and hash -/

/-- Some bits of the reflected CRC-32. -/
def crcBits : ℕ → UInt32 → UInt32
  | 0, crc => crc
  | n + 1, crc =>
    if crc &&& 1 = 0 then crcBits n (crc >>> 1) else crcBits n ((crc >>> 1) ^^^ 0xEDB88320)

def crcByte (crc : UInt32) (b : UInt8) : UInt32 := crcBits 8 (crc ^^^ b.toUInt32)

/-- `crc32fast::hash`. -/
def crc32fast (bytes : Bytes) : UInt32 := ~~~(bytes.foldl crcByte 0xFFFFFFFF)

def rotl (x : UInt64) (n : UInt64) : UInt64 := (x <<< n) ||| (x >>> (64 - n))

/-- The finaliser of Murmur3. -/
def fmix (k : UInt64) : UInt64 :=
  let k := (k ^^^ (k >>> 33)) * 0xff51afd7ed558ccd
  let k := (k ^^^ (k >>> 33)) * 0xc4ceb9fe1a85ec53
  k ^^^ (k >>> 33)

def mixLow (k : UInt64) : UInt64 := rotl (k * 0x87c37b91114253d5) 31 * 0x4cf5ad432745937f

def mixHigh (k : UInt64) : UInt64 := rotl (k * 0x4cf5ad432745937f) 33 * 0x87c37b91114253d5

/-- The body of Murmur3: whole 16-byte blocks, then the tail. -/
def murmurBlocks : ℕ → Bytes → UInt64 × UInt64 → UInt64 × UInt64
  | 0, _, h => h
  | fuel + 1, bytes, (h1, h2) =>
    let k1 := UInt64.ofNat (leNat (bytes.take 8))
    let k2 := UInt64.ofNat (leNat ((bytes.drop 8).take 8))
    if bytes.length < 16 then (h1 ^^^ mixLow k1, h2 ^^^ mixHigh k2)
    else
      let h1 := (rotl (h1 ^^^ mixLow k1) 27 + h2) * 5 + 0x52dce729
      let h2 := (rotl (h2 ^^^ mixHigh k2) 31 + h1) * 5 + 0x38495ab5
      murmurBlocks fuel (bytes.drop 16) (h1, h2)

/-- `Murmur3Hasher::new_with_seed(seed)`, one `write`, `finish`. -/
def murmur3Hasher (seed : ℕ) (bytes : Bytes) : ℕ :=
  let (h1, h2) := murmurBlocks (bytes.length / 16 + 1) bytes (UInt64.ofNat seed, UInt64.ofNat seed)
  let h1 := h1 ^^^ UInt64.ofNat bytes.length
  let h2 := h2 ^^^ UInt64.ofNat bytes.length
  let h1 := h1 + h2
  let h2 := h2 + h1
  (fmix h1 + fmix h2).toNat

/-! ### Archives -/

/-- Alignment of the root, that of its `u128`. -/
def rootAlign : ℕ := 16

/-- The bytes before the root: the key, padded. -/
def paddedLen (len : ℕ) : ℕ := (len + 15) / rootAlign * rootAlign

/-- What the root's machine types can hold. -/
def Archivable (e : SStableEntry) : Prop :=
  e.key.length < 2 ^ 31 - 16 ∧ e.keyPrefix < 2 ^ 64 ∧ e.value < 2 ^ 128 ∧ e.seq < 2 ^ 64

instance (e : SStableEntry) : Decidable (Archivable e) :=
  inferInstanceAs (Decidable (_ ∧ _ ∧ _ ∧ _))

/-- The 48 bytes of the root. The relative pointer leads back from the root to the key. -/
def rootBytes (e : SStableEntry) : Bytes :=
  leBytes 4 (2 ^ 32 - paddedLen e.key.length) ++ leBytes 4 e.key.length ++ leBytes 8 e.keyPrefix ++
    leBytes 16 e.value ++ (e.tombstone.toUInt8 :: List.replicate 7 0) ++ leBytes 8 e.seq

/-- `rkyv::to_bytes` of an entry. -/
def archive (e : SStableEntry) : Option Bytes :=
  if Archivable e then
    some (e.key ++ List.replicate (paddedLen e.key.length - e.key.length) 0 ++ rootBytes e)
  else none

/-- `rkyv::access_unchecked` of an entry: the root is at the end. -/
def accessArchive (b : Bytes) : SStableEntry :=
  let pos := b.length - 48
  let root := b.drop pos
  { key := readAt b ((pos + leNat (readAt root 0 4)) % 2 ^ 32) (leNat (readAt root 4 4))
    keyPrefix := leNat (readAt root 8 8)
    value := leNat (readAt root 16 16)
    tombstone := readAt root 32 1 != [0]
    seq := leNat (readAt root 40 8) }

theorem length_rootBytes (e : SStableEntry) : (rootBytes e).length = 48 := by
  simp [rootBytes]

/-- A field of the root, given what stands before and after it. -/
private theorem readAt_field {root field : Bytes} (pre rest : Bytes) {off n : ℕ}
    (hroot : root = pre ++ (field ++ rest)) (hoff : pre.length = off) (hn : field.length = n) :
    readAt root off n = field := by
  rw [hroot, ← hoff, ← hn]
  exact readAt_append pre field rest

private theorem readAt_rootBytes (e : SStableEntry) :
    readAt (rootBytes e) 0 4 = leBytes 4 (2 ^ 32 - paddedLen e.key.length) ∧
    readAt (rootBytes e) 4 4 = leBytes 4 e.key.length ∧
    readAt (rootBytes e) 8 8 = leBytes 8 e.keyPrefix ∧
    readAt (rootBytes e) 16 16 = leBytes 16 e.value ∧
    readAt (rootBytes e) 32 1 = [e.tombstone.toUInt8] ∧
    readAt (rootBytes e) 40 8 = leBytes 8 e.seq := by
  have hrel := length_leBytes 4 (2 ^ 32 - paddedLen e.key.length)
  have hlen := length_leBytes 4 e.key.length
  have hpre := length_leBytes 8 e.keyPrefix
  have hvalue := length_leBytes 16 e.value
  have hseq := length_leBytes 8 e.seq
  have hroot := rootBytes.eq_1 e
  generalize leBytes 4 (2 ^ 32 - paddedLen e.key.length) = rel at *
  generalize leBytes 4 e.key.length = len at *
  generalize leBytes 8 e.keyPrefix = pre at *
  generalize leBytes 16 e.value = value at *
  generalize leBytes 8 e.seq = seq at *
  simp only [List.append_assoc] at hroot
  -- the root from each field on
  have h1 := List.append_assoc rel len (pre ++ (value ++
    (e.tombstone.toUInt8 :: List.replicate 7 0 ++ seq)))
  have h2 := List.append_assoc (rel ++ len) pre (value ++
    (e.tombstone.toUInt8 :: List.replicate 7 0 ++ seq))
  have h3 := List.append_assoc (rel ++ len ++ pre) value
    (e.tombstone.toUInt8 :: List.replicate 7 0 ++ seq)
  have h4 := List.append_assoc (rel ++ len ++ pre ++ value)
    (e.tombstone.toUInt8 :: List.replicate 7 0) seq
  refine ⟨readAt_field [] _ hroot rfl hrel, readAt_field rel _ hroot hrel hlen, ?_, ?_, ?_, ?_⟩
  · refine readAt_field (rel ++ len) _ (hroot.trans h1.symm) ?_ hpre
    simp only [List.length_append, hrel, hlen]
  · refine readAt_field (rel ++ len ++ pre) _ (hroot.trans (h1.symm.trans h2.symm)) ?_ hvalue
    simp only [List.length_append, hrel, hlen, hpre]
  · refine readAt_field (rel ++ len ++ pre ++ value) (List.replicate 7 0 ++ seq)
      (hroot.trans (h1.symm.trans (h2.symm.trans h3.symm))) ?_ rfl
    simp only [List.length_append, hrel, hlen, hpre, hvalue]
  · refine readAt_field
      (rel ++ len ++ pre ++ value ++ (e.tombstone.toUInt8 :: List.replicate 7 0)) []
      (hroot.trans (h1.symm.trans (h2.symm.trans (h3.symm.trans ?_)))) ?_ hseq
    · rw [List.append_nil, h4]
    · simp only [List.length_append, List.length_cons, List.length_replicate, hrel, hlen, hpre,
        hvalue]

theorem length_archive {e : SStableEntry} {b : Bytes} (h : archive e = some b) :
    b.length = paddedLen e.key.length + 48 ∧ b.length < 2 ^ 32 - 4 := by
  unfold archive at h
  split_ifs at h with he
  have hlen : e.key.length < 2 ^ 31 - 16 := he.1
  have hpad : e.key.length ≤ paddedLen e.key.length ∧ paddedLen e.key.length < 2 ^ 31 := by
    unfold paddedLen rootAlign
    omega
  obtain rfl := Option.some.inj h
  simp only [List.length_append, List.length_replicate, length_rootBytes]
  omega

/-- An archive reads back as the entry it was made of. -/
theorem accessArchive_archive {e : SStableEntry} {b : Bytes} (h : archive e = some b) :
    accessArchive b = e := by
  obtain ⟨hlen, -⟩ := length_archive h
  unfold archive at h
  split_ifs at h with he
  obtain ⟨hkey, hpre, hvalue, hseq⟩ := he
  have hpad : e.key.length ≤ paddedLen e.key.length ∧ paddedLen e.key.length < 2 ^ 31 := by
    unfold paddedLen rootAlign
    omega
  have hb := (Option.some.inj h).symm
  have hroot : b.drop (b.length - 48) = rootBytes e := by
    rw [hlen, hb]
    refine List.drop_left' ?_
    simp only [List.length_append, List.length_replicate]
    omega
  obtain ⟨hrel, hkeyLen, hpre', hvalue', htomb, hseq'⟩ := readAt_rootBytes e
  -- the relative pointer leads from the root back to the start of the archive
  have hstart : (b.length - 48 + (2 ^ 32 - paddedLen e.key.length) % 256 ^ 4) % 2 ^ 32 = 0 := by
    omega
  have hkeyBytes : readAt b 0 e.key.length = e.key := by
    rw [hb, List.append_assoc]
    exact readAt_append [] e.key _
  have hkeyLen' : leNat (leBytes 4 e.key.length) = e.key.length :=
    leNat_leBytes_of_lt (by omega)
  have htomb' : ([e.tombstone.toUInt8] != [0]) = e.tombstone := by
    cases e.tombstone <;> rfl
  unfold accessArchive
  simp only [hroot, hrel, hkeyLen, hpre', hvalue', hseq', htomb, hkeyLen', htomb',
    leNat_leBytes_of_lt (show e.keyPrefix < 256 ^ 8 by omega),
    leNat_leBytes_of_lt (show e.value < 256 ^ 16 by omega),
    leNat_leBytes_of_lt (show e.seq < 256 ^ 8 by omega), leNat_leBytes]
  rw [hstart, hkeyBytes]

/-- The crates the store is built with. -/
def Crates.real : Crates where
  murmur3 := murmur3Hasher
  crc32 := crc32fast
  toBytes := archive
  access := accessArchive
  access_toBytes := accessArchive_archive
  length_toBytes := by
    intro e b h
    have hlen := (length_archive h).2
    omega

end Minnal
