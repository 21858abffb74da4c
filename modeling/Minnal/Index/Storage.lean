import Minnal.Lsm.Archive

/-!
# Directories of containers

A bitmap is stored one container at a time. Its **directory** lists the containers, sorted by
key, with the place of each container's blob in the value region; a checksum at the end tells a
directory that a crash has torn from a whole one. What `encodeDir` writes, `decodeDir` reads
back (`decodeDir_encodeDir`).
-/

set_option linter.dupNamespace false

namespace Minnal

open ByteCodec

/-- Where a container's blob lies in the value region. -/
structure DirEntry where
  key : ℕ
  offset : ℕ
  len : ℕ
  deriving DecidableEq, Repr

/-- The entry fits the fields of the format. -/
def DirEntry.Fits (e : DirEntry) : Prop := e.key < 2 ^ 128 ∧ e.offset < 2 ^ 64 ∧ e.len < 2 ^ 32

variable {entries : List DirEntry}

namespace Storage

def dirMagic : List UInt8 := [0x4D, 0x42, 0x44, 0x31]

def dirHeader : ℕ := 8

def dirEntry : ℕ := 28

def dirCrc : ℕ := 4

/-- Why a directory is refused. -/
inductive StorageError where
  | notADirectory
  | lengthMismatch (len count : ℕ)
  | checksumMismatch
  | outOfOrder
  deriving DecidableEq, Repr

def encodeEntry (e : DirEntry) : List UInt8 :=
  leBytes 16 e.key ++ leBytes 8 e.offset ++ leBytes 4 e.len

/-- Everything before the checksum. -/
def dirBody (entries : List DirEntry) : List UInt8 :=
  dirMagic ++ leBytes 4 entries.length ++ entries.flatMap encodeEntry

/-- Encode a directory; the entries are sorted by key. -/
def encodeDir (entries : List DirEntry) : List UInt8 :=
  dirBody entries ++ leBytes dirCrc (crc32fast (dirBody entries)).toNat

def decodeEntry (bytes : List UInt8) : DirEntry :=
  ⟨leNat (readAt bytes 0 16), leNat (readAt bytes 16 8), leNat (readAt bytes 24 4)⟩

def decodeEntries : ℕ → List UInt8 → List DirEntry
  | 0, _ => []
  | n + 1, bytes => decodeEntry bytes :: decodeEntries n (bytes.drop dirEntry)

/-- Decode a directory, checking its magic, length, checksum and order. -/
def decodeDir (bytes : List UInt8) : Except StorageError (List DirEntry) :=
  if bytes.length < dirHeader + dirCrc ∨ readAt bytes 0 4 ≠ dirMagic then .error .notADirectory
  else
    let count := leNat (readAt bytes 4 4)
    let body := count * dirEntry + dirHeader
    if bytes.length ≠ body + dirCrc then .error (.lengthMismatch bytes.length count)
    else if leNat (readAt bytes body dirCrc) ≠ (crc32fast (bytes.take body)).toNat then
      .error .checksumMismatch
    else
      let entries := decodeEntries count (bytes.drop dirHeader)
      if entries.Pairwise fun a b => a.key < b.key then .ok entries else .error .outOfOrder

theorem length_encodeEntry (e : DirEntry) : (encodeEntry e).length = dirEntry := by
  simp [encodeEntry, dirEntry]

theorem length_flatMap_encodeEntry (entries : List DirEntry) :
    (entries.flatMap encodeEntry).length = entries.length * dirEntry := by
  induction entries with
  | nil => simp
  | cons e entries ih =>
    rw [List.flatMap_cons, List.length_append, length_encodeEntry, ih, List.length_cons]
    ring

theorem length_dirBody (entries : List DirEntry) :
    (dirBody entries).length = entries.length * dirEntry + dirHeader := by
  rw [dirBody, List.length_append, length_flatMap_encodeEntry]
  simp [dirMagic, dirHeader]
  ring

theorem decodeEntry_encodeEntry {e : DirEntry} (h : e.Fits) (rest : List UInt8) :
    decodeEntry (encodeEntry e ++ rest) = e := by
  obtain ⟨hkey, hoffset, hlen⟩ := h
  have h₁ : readAt (encodeEntry e ++ rest) 0 16 = leBytes 16 e.key := by
    have := readAt_append [] (leBytes 16 e.key) (leBytes 8 e.offset ++ (leBytes 4 e.len ++ rest))
    simpa [encodeEntry] using this
  have h₂ : readAt (encodeEntry e ++ rest) 16 8 = leBytes 8 e.offset := by
    have := readAt_append (leBytes 16 e.key) (leBytes 8 e.offset) (leBytes 4 e.len ++ rest)
    simpa [encodeEntry] using this
  have h₃ : readAt (encodeEntry e ++ rest) 24 4 = leBytes 4 e.len := by
    have := readAt_append (leBytes 16 e.key ++ leBytes 8 e.offset) (leBytes 4 e.len) rest
    simpa [encodeEntry] using this
  rw [decodeEntry, h₁, h₂, h₃, leNat_leBytes_of_lt hkey, leNat_leBytes_of_lt hoffset,
    leNat_leBytes_of_lt hlen]

theorem decodeEntries_flatMap (h : ∀ e ∈ entries, e.Fits) (rest : List UInt8) :
    decodeEntries entries.length (entries.flatMap encodeEntry ++ rest) = entries := by
  induction entries with
  | nil => rfl
  | cons e entries ih =>
    obtain ⟨he, hentries⟩ := List.forall_mem_cons.mp h
    rw [List.flatMap_cons, List.append_assoc, List.length_cons, decodeEntries,
      decodeEntry_encodeEntry he, List.drop_left' (length_encodeEntry e), ih hentries]

/-- What stands at the places of a directory's fields. -/
theorem dirBody_reads (hlen : entries.length < 2 ^ 32) (tail : List UInt8) :
    readAt (dirBody entries ++ tail) 0 4 = dirMagic ∧
      leNat (readAt (dirBody entries ++ tail) 4 4) = entries.length ∧
      readAt (dirBody entries ++ tail) (entries.length * dirEntry + dirHeader) tail.length = tail ∧
      (dirBody entries ++ tail).take (entries.length * dirEntry + dirHeader) = dirBody entries ∧
      (dirBody entries ++ tail).drop dirHeader = entries.flatMap encodeEntry ++ tail := by
  rw [← length_dirBody]
  refine ⟨?_, ?_, ?_, List.take_left, ?_⟩
  · have hread := readAt_append [] dirMagic
      (leBytes 4 entries.length ++ (entries.flatMap encodeEntry ++ tail))
    simpa [dirBody, dirMagic] using hread
  · have hcount := readAt_append dirMagic (leBytes 4 entries.length)
      (entries.flatMap encodeEntry ++ tail)
    have hread : readAt (dirBody entries ++ tail) 4 4 = leBytes 4 entries.length := by
      simpa [dirBody, dirMagic] using hcount
    rw [hread, leNat_leBytes_of_lt (by simpa using hlen)]
  · have hread := readAt_append (dirBody entries) tail []
    simpa using hread
  · have hhead : (dirMagic ++ leBytes 4 entries.length).length = dirHeader := by
      simp [dirMagic, dirHeader]
    rw [dirBody, List.append_assoc, List.drop_left' hhead]

/-- **A directory reads back.** -/
theorem decodeDir_encodeDir (hfits : ∀ e ∈ entries, e.Fits) (hlen : entries.length < 2 ^ 32)
    (hsorted : entries.Pairwise fun a b => a.key < b.key) :
    decodeDir (encodeDir entries) = .ok entries := by
  have hcrc : (crc32fast (dirBody entries)).toNat < 256 ^ dirCrc := UInt32.toNat_lt _
  have htotal : (encodeDir entries).length = entries.length * dirEntry + dirHeader + dirCrc := by
    rw [encodeDir, List.length_append, length_dirBody, length_leBytes]
  obtain ⟨hmagic, hcount, htail, htake, hdrop⟩ :=
    dirBody_reads hlen (leBytes dirCrc (crc32fast (dirBody entries)).toNat)
  rw [← encodeDir] at hmagic hcount htail htake hdrop
  rw [length_leBytes] at htail
  rw [decodeDir, if_neg]
  · simp only [hcount]
    rw [if_neg (by rw [htotal]; exact not_not.mpr rfl), htail, htake,
      leNat_leBytes_of_lt hcrc, if_neg (not_not.mpr rfl), hdrop, decodeEntries_flatMap hfits,
      if_pos hsorted]
  · rw [htotal, hmagic]
    push Not
    exact ⟨by omega, rfl⟩

/-- What is decoded is in order and fits the fields. -/
theorem decodeDir_ok {bytes : List UInt8} (h : decodeDir bytes = .ok entries) :
    (entries.Pairwise fun a b => a.key < b.key) ∧ (∀ e ∈ entries, e.Fits) ∧
      entries.length < 2 ^ 32 := by
  have hlt : ∀ (bs : List UInt8) (off w : ℕ), leNat (readAt bs off w) < 256 ^ w := fun bs off w => by
    have hlen : (readAt bs off w).length ≤ w := by
      rw [length_readAt]
      exact Nat.min_le_left _ _
    exact (leNat_lt _).trans_le (Nat.pow_le_pow_right (by norm_num) hlen)
  have hall : ∀ n bs, (∀ e ∈ decodeEntries n bs, e.Fits) ∧ (decodeEntries n bs).length = n := by
    intro n
    induction n with
    | zero => exact fun bs => ⟨by simp [decodeEntries], rfl⟩
    | succ n ih =>
      intro bs
      obtain ⟨hfits, hlen⟩ := ih (bs.drop dirEntry)
      refine ⟨List.forall_mem_cons.mpr ⟨⟨?_, ?_, ?_⟩, hfits⟩, by rw [decodeEntries, List.length_cons, hlen]⟩
      · exact (hlt bs 0 16).trans_eq (by norm_num)
      · exact (hlt bs 16 8).trans_eq (by norm_num)
      · exact (hlt bs 24 4).trans_eq (by norm_num)
  rw [decodeDir] at h
  simp only at h
  split_ifs at h with h₁ h₂ h₃ h₄
  obtain rfl := Except.ok.inj h
  obtain ⟨hfits, hlen⟩ := hall (leNat (readAt bytes 4 4)) (bytes.drop dirHeader)
  refine ⟨h₄, hfits, ?_⟩
  rw [hlen]
  exact (hlt bytes 4 4).trans_eq (by norm_num)

end Storage

end Minnal
