import Minnal.Index.Storage
import Minnal.Library.BinarySearch
import Minnal.Library.Checks

/-!
# Readers of a directory

A directory of containers has two readers. `decodeDir` checks the whole of it and gives the list
of its entries; `lookupDir` searches the bytes for one container and checks neither the checksum
nor the order. Here the readers slice the bytes as the code does: an index out of range and an
arithmetic overflow are **panics**, and the checksum is any function of the bytes.

No reader panics on any byte string (`decodeDir_eq`, `dirCount_eq`, `lookupDir_eq`), what is
decoded is written back byte for byte, and on what is decoded the two readers agree
(`directories_exact`). The store's own functions are the ones here at its checksum
(`decodeDir_crc32fast`).
-/

set_option linter.dupNamespace false

namespace Minnal

open ByteCodec Checks Storage BinarySearch
open List (drop_drop length_drop take_add mem_range mem_map map_map)

variable {n i count : ℕ} {entries : List DirEntry}

namespace Directories

/-- How a reader stops. -/
inductive Halt where
  /-- An index out of range, or an arithmetic overflow. -/
  | panic
  | countOverflows
  | refused (e : StorageError)
  deriving DecidableEq

/-! ### Reads -/

/-- `bytes[lo..hi]`. -/
def slice (bytes : List UInt8) (lo hi : ℕ) : Except Halt (List UInt8) :=
  if lo ≤ hi ∧ hi ≤ bytes.length then .ok (readAt bytes lo (hi - lo)) else .error .panic

/-- The little-endian number in `bytes[lo..hi]`. -/
def number (bytes : List UInt8) (lo hi : ℕ) : Except Halt ℕ := (slice bytes lo hi).map leNat

/-- The value of an unchecked `usize` operation. -/
def usize (n : ℕ) : Except Halt ℕ := if n < 2 ^ 64 then .ok n else .error .panic

def checkedMul (a b : ℕ) : Option ℕ := if a * b < 2 ^ 64 then some (a * b) else none

def checkedAdd (a b : ℕ) : Option ℕ := if a + b < 2 ^ 64 then some (a + b) else none

/-- An entry from its 28 bytes. -/
def entryOf (c : List UInt8) : Except Halt DirEntry := do
  let key ← number c 0 16
  let offset ← number c 16 24
  let len ← number c 24 28
  return ⟨key, offset, len⟩

/-- `as_chunks`: the whole chunks of 28 bytes. -/
def asChunks (bytes : List UInt8) : List (List UInt8) :=
  (List.range (bytes.length / dirEntry)).map fun i => readAt bytes (i * dirEntry) dirEntry

/-- Every window of two entries is in order. -/
def inOrder : List DirEntry → Bool
  | a :: b :: rest => decide (a.key < b.key) && inOrder (b :: rest)
  | _ => true

/-- Too short for a directory, or of another magic. -/
def notADirectory (bytes : List UInt8) : Except Halt Bool :=
  if bytes.length < dirHeader + dirCrc then .ok true
  else (slice bytes 0 4).map fun magic => decide (magic ≠ dirMagic)

/-! ### The readers -/

section Readers

variable (crc : List UInt8 → UInt32)

/-- Encode a directory; the entries are sorted by key. The count is cut to 32 bits. -/
def encodeDir (entries : List DirEntry) : List UInt8 :=
  dirBody entries ++ leBytes dirCrc (crc (dirBody entries)).toNat

/-- Decode a directory, checking its magic, length, checksum and order. -/
def decodeDir (bytes : List UInt8) : Except Halt (List DirEntry) := do
  let other ← notADirectory bytes
  refuse (other = true) (.refused .notADirectory)
  let count ← number bytes 4 8
  let body ← ((checkedMul count dirEntry).bind fun n => checkedAdd n dirHeader).elim
    (.error .countOverflows) .ok
  let total ← usize (body + dirCrc)
  refuse (bytes.length ≠ total) (.refused (.lengthMismatch bytes.length count))
  let stored ← number bytes body (body + dirCrc)
  let covered ← slice bytes 0 body
  refuse (stored ≠ (crc covered).toNat) (.refused .checksumMismatch)
  let packed ← slice bytes dirHeader body
  let entries ← (asChunks packed).mapM entryOf
  refuse (inOrder entries = false) (.refused .outOfOrder)
  return entries

/-- How the key of an entry compares with the one looked for. -/
def compareKeys (entries : List DirEntry) (key i : ℕ) : Ordering :=
  (entries[i]?).elim .gt fun e => compare e.key key

/-- The entry for a container in a sorted directory. -/
def findEntry (entries : List DirEntry) (key : ℕ) : Option DirEntry :=
  (search (compareKeys entries key) entries.length).bind fun i => entries[i]?

/-- The number of entries of an encoded directory; the checksum is not checked. -/
def dirCount (bytes : List UInt8) : Except Halt ℕ := do
  let other ← notADirectory bytes
  refuse (other = true) (.refused .notADirectory)
  let count ← number bytes 4 8
  refuse (((checkedMul count dirEntry).bind fun n => checkedAdd n (dirHeader + dirCrc)) ≠
    some bytes.length) (.refused (.lengthMismatch bytes.length count))
  return count

/-- The entry at an index of an encoded directory. -/
def entryAt (bytes : List UInt8) (i : ℕ) : Except Halt DirEntry := do
  let lo ← usize (dirHeader + i * dirEntry)
  let hi ← usize (dirHeader + (i + 1) * dirEntry)
  let c ← slice bytes lo hi
  entryOf c

/-- The binary search over the bytes, between two indices. -/
def lookupFrom (bytes : List UInt8) (key lo hi : ℕ) : Except Halt (Option DirEntry) :=
  if lo < hi then
    (entryAt bytes (lo + (hi - lo) / 2)).bind fun e =>
      match compare e.key key with
      | .eq => .ok (some e)
      | .lt => lookupFrom bytes key (lo + (hi - lo) / 2 + 1) hi
      | .gt => lookupFrom bytes key lo (lo + (hi - lo) / 2)
  else .ok none
termination_by hi - lo

/-- The entry for a container in an encoded directory. -/
def lookupDir (bytes : List UInt8) (key : ℕ) : Except Halt (Option DirEntry) := do
  let count ← dirCount bytes
  lookupFrom bytes key 0 count

/-! ### Reads in range -/

variable {crc} {bytes : List UInt8} {lo hi : ℕ}

theorem slice_eq (h : lo ≤ hi) (hhi : hi ≤ bytes.length) :
    slice bytes lo hi = .ok (readAt bytes lo (hi - lo)) := if_pos ⟨h, hhi⟩

theorem number_eq (h : lo ≤ hi) (hhi : hi ≤ bytes.length) :
    number bytes lo hi = .ok (leNat (readAt bytes lo (hi - lo))) := by
  rw [number, slice_eq h hhi]
  rfl

theorem notADirectory_eq (bytes : List UInt8) : notADirectory bytes =
    .ok (decide (bytes.length < dirHeader + dirCrc ∨ readAt bytes 0 4 ≠ dirMagic)) := by
  rw [notADirectory]
  split_ifs with hshort
  · rw [decide_eq_true (.inl hshort)]
  · have hlen : 4 ≤ bytes.length := by
      simp only [dirHeader, dirCrc] at hshort
      omega
    rw [slice_eq (Nat.zero_le 4) hlen]
    simp [Except.map, hshort]

theorem leNat_readAt_lt (bytes : List UInt8) (off w : ℕ) : leNat (readAt bytes off w) < 256 ^ w := by
  have hlen : (readAt bytes off w).length ≤ w := by
    rw [length_readAt]
    exact min_le_left _ _
  exact (leNat_lt _).trans_le (Nat.pow_le_pow_right (by norm_num) hlen)

theorem entryOf_eq {c : List UInt8} (h : c.length = dirEntry) : entryOf c = .ok (decodeEntry c) := by
  simp only [dirEntry] at h
  rw [entryOf, number_eq (by omega) (by omega), number_eq (by omega) (by omega),
    number_eq (by omega) (by omega)]
  rfl

theorem decodeEntry_readAt (bytes : List UInt8) :
    decodeEntry (readAt bytes 0 dirEntry) = decodeEntry bytes := by
  rw [decodeEntry, readAt_readAt _ (by simp [dirEntry]), readAt_readAt _ (by simp [dirEntry]),
    readAt_readAt _ (by simp [dirEntry])]
  simp [decodeEntry]

/-- The decoded entries, chunk by chunk. -/
theorem decodeEntries_eq_map (n : ℕ) (bytes : List UInt8) : decodeEntries n bytes =
    (List.range n).map fun i => decodeEntry (readAt bytes (i * dirEntry) dirEntry) := by
  induction n generalizing bytes with
  | zero => rfl
  | succ n ih =>
    rw [decodeEntries, ih, List.range_succ_eq_map, List.map_cons, map_map, Nat.zero_mul,
      decodeEntry_readAt]
    refine congrArg _ (List.map_congr_left fun i _ => ?_)
    simp only [Function.comp_apply, readAt, drop_drop]
    rw [Nat.succ_mul, Nat.add_comm]

theorem length_decodeEntries (n : ℕ) (bytes : List UInt8) : (decodeEntries n bytes).length = n := by
  rw [decodeEntries_eq_map, List.length_map, List.length_range]

theorem mapM_eq_ok {α β : Type} {f : α → Except Halt β} {g : α → β} {l : List α}
    (h : ∀ a ∈ l, f a = .ok (g a)) : l.mapM f = .ok (l.map g) := by
  induction l with
  | nil => rfl
  | cons a l ih =>
    obtain ⟨ha, hl⟩ := List.forall_mem_cons.mp h
    rw [List.mapM_cons, ha, ok_bind, ih hl]
    rfl

theorem length_chunk (hlen : n * dirEntry ≤ bytes.length) (hi : i < n) :
    (readAt bytes (i * dirEntry) dirEntry).length = dirEntry := by
  have hle : (i + 1) * dirEntry ≤ n * dirEntry := Nat.mul_le_mul_right _ hi
  rw [length_readAt]
  simp only [dirEntry] at *
  omega

theorem mapM_entryOf (hlen : bytes.length = n * dirEntry) :
    (asChunks bytes).mapM entryOf = .ok (decodeEntries n bytes) := by
  have hn : bytes.length / dirEntry = n := by
    rw [hlen]
    exact Nat.mul_div_cancel _ (by simp [dirEntry])
  have hall : ∀ c ∈ asChunks bytes, entryOf c = .ok (decodeEntry c) := by
    intro c hc
    rw [asChunks, hn] at hc
    obtain ⟨i, hi, rfl⟩ := mem_map.mp hc
    exact entryOf_eq (length_chunk hlen.ge (mem_range.mp hi))
  rw [mapM_eq_ok hall, decodeEntries_eq_map, asChunks, hn, map_map]
  rfl

theorem inOrder_iff (entries : List DirEntry) :
    inOrder entries = true ↔ entries.Pairwise fun a b => a.key < b.key := by
  rw [← List.isChain_iff_pairwise]
  induction entries with
  | nil => simp [inOrder]
  | cons a entries ih =>
    cases entries with
    | nil => simp [inOrder]
    | cons b entries => rw [inOrder, Bool.and_eq_true, decide_eq_true_eq, ih, List.isChain_cons_cons]

/-! ### The readers do not panic -/

/-- What `decodeDir` comes to. -/
def decoded (crc : List UInt8 → UInt32) (bytes : List UInt8) :
    Except StorageError (List DirEntry) :=
  if bytes.length < dirHeader + dirCrc ∨ readAt bytes 0 4 ≠ dirMagic then .error .notADirectory
  else
    let count := leNat (readAt bytes 4 4)
    let body := count * dirEntry + dirHeader
    if bytes.length ≠ body + dirCrc then .error (.lengthMismatch bytes.length count)
    else if leNat (readAt bytes body dirCrc) ≠ (crc (bytes.take body)).toNat then
      .error .checksumMismatch
    else
      let entries := decodeEntries count (bytes.drop dirHeader)
      if entries.Pairwise fun a b => a.key < b.key then .ok entries else .error .outOfOrder

/-- **Decoding does not panic**: it gives entries or refuses the bytes. -/
theorem decodeDir_eq (crc : List UInt8 → UInt32) (bytes : List UInt8) :
    decodeDir crc bytes = (decoded crc bytes).mapError Halt.refused := by
  rw [decodeDir, notADirectory_eq, ok_bind, decoded]
  by_cases hother : bytes.length < dirHeader + dirCrc ∨ readAt bytes 0 4 ≠ dirMagic
  · rw [decide_eq_true hother, if_pos hother]
    rfl
  rw [decide_eq_false hother, if_neg hother, refuse_neg Bool.false_ne_true, ok_bind]
  have hlen : 8 ≤ bytes.length := by
    simp only [dirHeader, dirCrc, not_or, not_lt] at hother
    omega
  have hcount : leNat (readAt bytes 4 4) < 2 ^ 32 := (leNat_readAt_lt bytes 4 4).trans_eq (by norm_num)
  rw [number_eq (by omega) hlen, ok_bind]
  norm_num only
  generalize leNat (readAt bytes 4 4) = count at hcount ⊢
  have hbody : ((checkedMul count dirEntry).bind fun n => checkedAdd n dirHeader) =
      some (count * dirEntry + dirHeader) := by
    rw [checkedMul, if_pos (by simp only [dirEntry]; omega), Option.bind_some, checkedAdd,
      if_pos (by simp only [dirEntry, dirHeader]; omega)]
  rw [hbody, Option.elim_some, ok_bind, usize,
    if_pos (by simp only [dirEntry, dirHeader, dirCrc]; omega), ok_bind]
  by_cases hmismatch : bytes.length ≠ count * dirEntry + dirHeader + dirCrc
  · rw [if_pos hmismatch, refuse, if_pos hmismatch]
    rfl
  have htotal : bytes.length = count * dirEntry + dirHeader + dirCrc := not_not.mp hmismatch
  have hdrop : readAt bytes dirHeader (count * dirEntry + dirHeader - dirHeader) =
      readAt bytes dirHeader (count * dirEntry) := by rw [Nat.add_sub_cancel]
  have hpacked : (readAt bytes dirHeader (count * dirEntry)).length = count * dirEntry := by
    rw [length_readAt]
    omega
  have hentries : decodeEntries count (readAt bytes dirHeader (count * dirEntry)) =
      decodeEntries count (bytes.drop dirHeader) := by
    rw [decodeEntries_eq_map, decodeEntries_eq_map]
    refine List.map_congr_left fun i hi => congrArg decodeEntry ?_
    have hle : (i + 1) * dirEntry ≤ count * dirEntry :=
      Nat.mul_le_mul_right _ (mem_range.mp hi)
    rw [readAt_readAt _ (by rw [← Nat.succ_mul]; exact hle)]
    simp only [readAt, drop_drop]
  rw [if_neg hmismatch, refuse_neg hmismatch, ok_bind, number_eq (Nat.le_add_right _ _) htotal.ge,
    ok_bind, slice_eq (Nat.zero_le _) (by omega), ok_bind, slice_eq (by omega) (by omega), ok_bind,
    hdrop, mapM_entryOf hpacked, hentries, ok_bind, Nat.add_sub_cancel_left]
  have htake : readAt bytes 0 (count * dirEntry + dirHeader - 0) =
      bytes.take (count * dirEntry + dirHeader) := rfl
  rw [htake]
  split_ifs with hcrc horder
  · rw [refuse, if_pos hcrc]
    rfl
  · rw [refuse_neg hcrc, ok_bind, refuse_neg (by simp [(inOrder_iff _).mpr horder]), ok_bind]
    rfl
  · have hout : inOrder (decodeEntries count (bytes.drop dirHeader)) = false := by
      rw [← Bool.not_eq_true, inOrder_iff]
      exact horder
    rw [refuse_neg hcrc, ok_bind, refuse, if_pos hout]
    rfl

/-- **Counting does not panic.** -/
theorem dirCount_eq (bytes : List UInt8) : dirCount bytes =
    if bytes.length < dirHeader + dirCrc ∨ readAt bytes 0 4 ≠ dirMagic then
      .error (.refused .notADirectory)
    else if bytes.length = leNat (readAt bytes 4 4) * dirEntry + dirHeader + dirCrc then
      .ok (leNat (readAt bytes 4 4))
    else .error (.refused (.lengthMismatch bytes.length (leNat (readAt bytes 4 4)))) := by
  rw [dirCount, notADirectory_eq, ok_bind]
  by_cases hother : bytes.length < dirHeader + dirCrc ∨ readAt bytes 0 4 ≠ dirMagic
  · rw [decide_eq_true hother, if_pos hother]
    rfl
  rw [decide_eq_false hother, if_neg hother, refuse_neg Bool.false_ne_true, ok_bind]
  have hlen : 8 ≤ bytes.length := by
    simp only [dirHeader, dirCrc, not_or, not_lt] at hother
    omega
  have hcount : leNat (readAt bytes 4 4) < 2 ^ 32 := (leNat_readAt_lt bytes 4 4).trans_eq (by norm_num)
  rw [number_eq (by omega) hlen, ok_bind]
  norm_num only
  generalize leNat (readAt bytes 4 4) = count at hcount ⊢
  have hbody : ((checkedMul count dirEntry).bind fun n => checkedAdd n (dirHeader + dirCrc)) =
      some (count * dirEntry + dirHeader + dirCrc) := by
    rw [checkedMul, if_pos (by simp only [dirEntry]; omega), Option.bind_some, checkedAdd,
      if_pos (by simp only [dirEntry, dirHeader, dirCrc]; omega), Nat.add_assoc]
  rw [hbody]
  split_ifs with htotal
  · rw [refuse_neg (by rw [htotal]; exact not_not.mpr rfl), ok_bind]
    rfl
  · rw [refuse, if_pos (by simpa [eq_comm] using htotal)]
    rfl

/-- What counting accepts has the bytes of so many entries. -/
theorem dirCount_ok (h : dirCount bytes = .ok count) :
    count < 2 ^ 32 ∧ bytes.length = count * dirEntry + dirHeader + dirCrc := by
  rw [dirCount_eq] at h
  split_ifs at h with hother htotal
  obtain rfl := Except.ok.inj h
  exact ⟨(leNat_readAt_lt bytes 4 4).trans_eq (by norm_num), htotal⟩

/-- Every entry below the count is read. -/
theorem entryAt_eq (hcount : count < 2 ^ 32)
    (hlen : bytes.length = count * dirEntry + dirHeader + dirCrc) (hi : i < count) :
    entryAt bytes i = .ok (decodeEntry (readAt (bytes.drop dirHeader) (i * dirEntry) dirEntry)) := by
  have hle : (i + 1) * dirEntry ≤ count * dirEntry := Nat.mul_le_mul_right _ hi
  have hsucc : (i + 1) * dirEntry = i * dirEntry + dirEntry := Nat.succ_mul _ _
  have hbound : dirHeader + (i + 1) * dirEntry < 2 ^ 64 := by
    simp only [dirHeader, dirEntry] at *
    omega
  have hchunk : (readAt (bytes.drop dirHeader) (i * dirEntry) dirEntry).length = dirEntry := by
    refine length_chunk (n := count) ?_ hi
    rw [length_drop]
    omega
  have hread : readAt bytes (dirHeader + i * dirEntry)
      (dirHeader + (i + 1) * dirEntry - (dirHeader + i * dirEntry)) =
        readAt (bytes.drop dirHeader) (i * dirEntry) dirEntry := by
    have hsize : dirHeader + (i + 1) * dirEntry - (dirHeader + i * dirEntry) = dirEntry := by omega
    rw [hsize, readAt, readAt, drop_drop]
  rw [entryAt, usize, if_pos (by omega), ok_bind, usize, if_pos hbound, ok_bind,
    slice_eq (by omega) (by omega), ok_bind, hread, entryOf_eq hchunk]

theorem getElem?_decodeEntries (hi : i < n) (bytes : List UInt8) :
    (decodeEntries n bytes)[i]? =
      some (decodeEntry (readAt bytes (i * dirEntry) dirEntry)) := by
  rw [decodeEntries_eq_map, List.getElem?_map, List.getElem?_range hi]
  rfl

/-- **The search over the bytes** reads the entries that decoding lists. -/
theorem lookupFrom_eq {key : ℕ} (hcount : count < 2 ^ 32)
    (hlen : bytes.length = count * dirEntry + dirHeader + dirCrc) (hhi : hi ≤ count) :
    lookupFrom bytes key lo hi =
      .ok ((bisect (compareKeys (decodeEntries count (bytes.drop dirHeader)) key) lo hi).bind
        fun i => (decodeEntries count (bytes.drop dirHeader))[i]?) := by
  have hread : ∀ i < count, ∃ e, entryAt bytes i = .ok e ∧
      (decodeEntries count (bytes.drop dirHeader))[i]? = some e ∧
      compareKeys (decodeEntries count (bytes.drop dirHeader)) key i = compare e.key key := by
    intro i hi
    have hget := getElem?_decodeEntries hi (bytes.drop dirHeader)
    exact ⟨_, entryAt_eq hcount hlen hi, hget, by rw [compareKeys, hget, Option.elim_some]⟩
  generalize decodeEntries count (bytes.drop dirHeader) = entries at hread ⊢
  fun_induction bisect (compareKeys entries key) lo hi with
  | case1 lo hi hlt heq =>
    obtain ⟨e, he, hget, hcmp⟩ := hread (lo + (hi - lo) / 2) (by omega)
    rw [lookupFrom, if_pos hlt, he, Option.bind_some, hget]
    simp only [Except.bind, hcmp.symm.trans heq]
  | case2 lo hi hlt hless ih =>
    obtain ⟨e, he, -, hcmp⟩ := hread (lo + (hi - lo) / 2) (by omega)
    rw [lookupFrom, if_pos hlt, he, ← ih hhi]
    simp only [Except.bind, hcmp.symm.trans hless]
  | case3 lo hi hlt hmore ih =>
    obtain ⟨e, he, -, hcmp⟩ := hread (lo + (hi - lo) / 2) (by omega)
    rw [lookupFrom, if_pos hlt, he, ← ih (by omega)]
    simp only [Except.bind, hcmp.symm.trans hmore]
  | case4 lo hi hlt => rw [lookupFrom, if_neg hlt, Option.bind_none]

/-- **Looking up does not panic**: it searches or refuses the bytes. -/
theorem lookupDir_eq (bytes : List UInt8) (key : ℕ) : lookupDir bytes key =
    (dirCount bytes).map fun count =>
      (bisect (compareKeys (decodeEntries count (bytes.drop dirHeader)) key) 0 count).bind
        fun i => (decodeEntries count (bytes.drop dirHeader))[i]? := by
  rw [lookupDir]
  cases hcount : dirCount bytes with
  | error e => rfl
  | ok count =>
    obtain ⟨hlt, hlen⟩ := dirCount_ok hcount
    rw [ok_bind, lookupFrom_eq hlt hlen le_rfl]
    rfl

theorem dirCount_ne_panic (bytes : List UInt8) : dirCount bytes ≠ .error .panic := by
  rw [dirCount_eq]
  split_ifs <;> simp

theorem decodeDir_ne_panic (crc : List UInt8 → UInt32) (bytes : List UInt8) :
    decodeDir crc bytes ≠ .error .panic := by
  rw [decodeDir_eq]
  cases decoded crc bytes with
  | error e | ok entries => simp [Except.mapError]

theorem lookupDir_ne_panic (bytes : List UInt8) (key : ℕ) : lookupDir bytes key ≠ .error .panic := by
  have hcount := dirCount_ne_panic bytes
  rw [lookupDir_eq]
  cases h : dirCount bytes with
  | error e =>
    rw [h] at hcount
    exact fun hpanic => hcount (congrArg Except.error (Except.error.inj hpanic))
  | ok count => simp [Except.map]

/-! ### What is decoded -/

/-- What a decoded directory's bytes are. -/
theorem decoded_ok (h : decoded crc bytes = .ok entries) :
    readAt bytes 0 4 = dirMagic ∧ leNat (readAt bytes 4 4) = entries.length ∧
      bytes.length = entries.length * dirEntry + dirHeader + dirCrc ∧
      leNat (readAt bytes (entries.length * dirEntry + dirHeader) dirCrc) =
        (crc (bytes.take (entries.length * dirEntry + dirHeader))).toNat ∧
      decodeEntries entries.length (bytes.drop dirHeader) = entries ∧
      entries.Pairwise fun a b => a.key < b.key := by
  rw [decoded] at h
  simp only at h
  split_ifs at h with hother hlen hcrc horder
  have hcount := length_decodeEntries (leNat (readAt bytes 4 4)) (bytes.drop dirHeader)
  obtain rfl := Except.ok.inj h
  rw [hcount]
  exact ⟨not_not.mp (not_or.mp hother).2, rfl, not_not.mp hlen, not_not.mp hcrc, rfl, horder⟩

theorem encodeEntry_decodeEntry {c : List UInt8} (h : dirEntry ≤ c.length) :
    encodeEntry (decodeEntry c) = c.take dirEntry := by
  have hpart : ∀ off w, off + w ≤ dirEntry →
      leBytes w (leNat (readAt c off w)) = readAt c off w := by
    intro off w hle
    have hw : (readAt c off w).length = w := by
      rw [length_readAt]
      omega
    have hback := leBytes_leNat (readAt c off w)
    rwa [hw] at hback
  have hsplit : ∀ off m n, readAt c off (m + n) = readAt c off m ++ readAt c (off + m) n := by
    intro off m n
    rw [readAt, readAt, readAt, take_add, drop_drop]
  have hwhole : c.take dirEntry = readAt c 0 (16 + 8 + 4) := rfl
  rw [encodeEntry, decodeEntry, hpart 0 16 (by simp [dirEntry]), hpart 16 8 (by simp [dirEntry]),
    hpart 24 4 (by simp [dirEntry]), hwhole, hsplit 0 (16 + 8) 4, hsplit 0 16 8]

theorem flatMap_decodeEntries (h : n * dirEntry ≤ bytes.length) :
    (decodeEntries n bytes).flatMap encodeEntry = bytes.take (n * dirEntry) := by
  induction n generalizing bytes with
  | zero => simp [decodeEntries]
  | succ n ih =>
    rw [Nat.succ_mul] at h
    rw [decodeEntries, List.flatMap_cons, encodeEntry_decodeEntry (by omega), ih (by
      rw [length_drop]
      omega), Nat.succ_mul, Nat.add_comm (n * dirEntry), take_add]

/-- **What is decoded is written back.** -/
theorem encodeDir_of_decoded (h : decoded crc bytes = .ok entries) :
    encodeDir crc entries = bytes := by
  obtain ⟨hmagic, hcount, hlen, hcrc, hentries, -⟩ := decoded_ok h
  have hsplit : ∀ off m n, readAt bytes off (m + n) = readAt bytes off m ++ readAt bytes (off + m) n := by
    intro off m n
    rw [readAt, readAt, readAt, take_add, drop_drop]
  have hlast : (readAt bytes (entries.length * dirEntry + dirHeader) dirCrc).length = dirCrc := by
    rw [length_readAt]
    omega
  have hcountBytes : leBytes 4 entries.length = readAt bytes 4 4 := by
    have hw : (readAt bytes 4 4).length = 4 := by
      rw [length_readAt]
      simp only [dirHeader, dirCrc] at hlen
      omega
    have hback := leBytes_leNat (readAt bytes 4 4)
    rwa [hw, hcount] at hback
  have hpacked : entries.flatMap encodeEntry = readAt bytes 8 (entries.length * dirEntry) := by
    conv_lhs => rw [← hentries]
    rw [flatMap_decodeEntries (by rw [length_drop]; omega)]
    rfl
  have hbody : dirBody entries = bytes.take (entries.length * dirEntry + dirHeader) := by
    have hwhole : bytes.take (entries.length * dirEntry + dirHeader) =
        readAt bytes 0 (4 + 4 + entries.length * dirEntry) := by
      rw [Nat.add_comm]
      rfl
    rw [dirBody, hcountBytes, hpacked, ← hmagic, hwhole, hsplit 0 (4 + 4), hsplit 0 4 4]
  have hsum : leBytes dirCrc (crc (dirBody entries)).toNat =
      readAt bytes (entries.length * dirEntry + dirHeader) dirCrc := by
    have hback := leBytes_leNat (readAt bytes (entries.length * dirEntry + dirHeader) dirCrc)
    rwa [hlast, hcrc, ← hbody] at hback
  have hrest : readAt bytes (entries.length * dirEntry + dirHeader) dirCrc =
      bytes.drop (entries.length * dirEntry + dirHeader) := by
    rw [readAt, List.take_of_length_le]
    rw [length_drop]
    omega
  rw [encodeDir, hsum, hrest, hbody, List.take_append_drop]

/-- A directory of fewer than 2^32 entries reads back. -/
theorem decoded_encodeDir (hfits : ∀ e ∈ entries, e.Fits) (hlen : entries.length < 2 ^ 32)
    (hsorted : entries.Pairwise fun a b => a.key < b.key) :
    decoded crc (encodeDir crc entries) = .ok entries := by
  have hcrc : (crc (dirBody entries)).toNat < 256 ^ dirCrc := UInt32.toNat_lt _
  have htotal : (encodeDir crc entries).length =
      entries.length * dirEntry + dirHeader + dirCrc := by
    rw [encodeDir, List.length_append, length_dirBody, length_leBytes]
  obtain ⟨hmagic, hcount, htail, htake, hdrop⟩ :=
    dirBody_reads hlen (leBytes dirCrc (crc (dirBody entries)).toNat)
  rw [← encodeDir] at hmagic hcount htail htake hdrop
  rw [length_leBytes] at htail
  rw [decoded, if_neg]
  · simp only [hcount]
    rw [if_neg (by rw [htotal]; exact not_not.mpr rfl), htail, htake,
      leNat_leBytes_of_lt hcrc, if_neg (not_not.mpr rfl), hdrop, decodeEntries_flatMap hfits,
      if_pos hsorted]
  · rw [htotal, hmagic]
    push Not
    exact ⟨by omega, rfl⟩

/-- A directory of 2^32 entries or more does not read back: its count is cut off. -/
theorem decoded_encodeDir_of_le (hlen : 2 ^ 32 ≤ entries.length) :
    decoded crc (encodeDir crc entries) ≠ .ok entries := by
  intro h
  obtain ⟨-, hcount, -⟩ := decoded_ok h
  have hlt : leNat (readAt (encodeDir crc entries) 4 4) < 256 ^ 4 := leNat_readAt_lt _ 4 4
  rw [hcount] at hlt
  omega

theorem decodeDir_eq_ok : decodeDir crc bytes = .ok entries ↔ decoded crc bytes = .ok entries := by
  rw [decodeDir_eq]
  cases decoded crc bytes with
  | error e | ok found => simp [Except.mapError]

/-- In a sorted directory the search for a key is directed. -/
theorem directed_compareKeys (hsorted : entries.Pairwise fun a b => a.key < b.key) (key : ℕ) :
    Directed (compareKeys entries key) entries.length := by
  intro i j hij hj hle
  have hlt : entries[i].key < entries[j].key := List.pairwise_iff_getElem.mp hsorted i j _ hj hij
  rw [compareKeys, List.getElem?_eq_getElem (hij.trans hj), Option.elim_some, ne_eq,
    compare_lt_iff_lt, not_lt] at hle
  rw [compareKeys, List.getElem?_eq_getElem hj, Option.elim_some, compare_gt_iff_gt]
  exact hle.trans_lt hlt

/-- **The readers agree** on what is decoded. -/
theorem lookupDir_of_decoded (h : decoded crc bytes = .ok entries) :
    dirCount bytes = .ok entries.length ∧
      ∀ key, lookupDir bytes key = .ok (findEntry entries key) := by
  obtain ⟨hmagic, hcount, hlen, -, hentries, hsorted⟩ := decoded_ok h
  have hknown : ¬(bytes.length < dirHeader + dirCrc ∨ readAt bytes 0 4 ≠ dirMagic) := by
    push Not
    exact ⟨by omega, hmagic⟩
  have hdir : dirCount bytes = .ok entries.length := by
    rw [dirCount_eq, if_neg hknown, hcount, if_pos hlen]
  refine ⟨hdir, fun key => ?_⟩
  have hdirected := directed_compareKeys hsorted key
  have hfound : bisect (compareKeys entries key) 0 entries.length =
      search (compareKeys entries key) entries.length := by
    refine Option.ext fun i => ?_
    rw [bisect_eq_some_iff hdirected le_rfl, search_eq_some_iff hdirected]
    exact and_iff_right (Nat.zero_le i)
  rw [lookupDir_eq, hdir, findEntry, ← hfound]
  simp only [Except.map, hentries]

end Readers

/-- **Directories are exact.** A sorted list of entries reads back from its encoding if and only if
its count fits 32 bits; no reader panics on any bytes; and what is decoded encodes to the same
bytes, in which counting and looking up give what the decoded list has. -/
theorem directories_exact (crc : List UInt8 → UInt32) :
    (∀ entries : List DirEntry, (∀ e ∈ entries, e.Fits) →
        (entries.Pairwise fun a b => a.key < b.key) →
          (decodeDir crc (encodeDir crc entries) = .ok entries ↔ entries.length < 2 ^ 32)) ∧
      (∀ bytes, decodeDir crc bytes ≠ .error .panic ∧ dirCount bytes ≠ .error .panic ∧
        ∀ key, lookupDir bytes key ≠ .error .panic) ∧
      ∀ bytes entries, decodeDir crc bytes = .ok entries →
        encodeDir crc entries = bytes ∧ dirCount bytes = .ok entries.length ∧
          ∀ key, lookupDir bytes key = .ok (findEntry entries key) := by
  refine ⟨fun entries hfits hsorted => ?_, fun bytes => ?_, fun bytes entries h => ?_⟩
  · rw [decodeDir_eq_ok]
    exact ⟨fun h => not_le.mp fun hle => decoded_encodeDir_of_le hle h,
      fun hlen => decoded_encodeDir hfits hlen hsorted⟩
  · exact ⟨decodeDir_ne_panic crc bytes, dirCount_ne_panic bytes, lookupDir_ne_panic bytes⟩
  · rw [decodeDir_eq_ok] at h
    obtain ⟨hcount, hlookup⟩ := lookupDir_of_decoded h
    exact ⟨encodeDir_of_decoded h, hcount, hlookup⟩

/-- A directory of two containers. -/
theorem directories_exact_two :
    decodeDir crc32fast (encodeDir crc32fast [⟨0, 16, 40⟩, ⟨7, 64, 8⟩]) =
        .ok [⟨0, 16, 40⟩, ⟨7, 64, 8⟩] ∧
      lookupDir (encodeDir crc32fast [⟨0, 16, 40⟩, ⟨7, 64, 8⟩]) 7 =
        .ok (findEntry [⟨0, 16, 40⟩, ⟨7, 64, 8⟩] 7) := by
  obtain ⟨hround, -, hagree⟩ := directories_exact crc32fast
  have hok := (hround [⟨0, 16, 40⟩, ⟨7, 64, 8⟩] (by simp [DirEntry.Fits]) (by simp)).mpr (by simp)
  exact ⟨hok, (hagree _ _ hok).2.2 7⟩

/-- A directory of 2^32 containers: its count wraps to zero, and it is refused. -/
theorem long_directory_does_not_read_back :
    ∃ entries : List DirEntry, (∀ e ∈ entries, e.Fits) ∧
      (entries.Pairwise fun a b => a.key < b.key) ∧
      decodeDir crc32fast (encodeDir crc32fast entries) ≠ .ok entries := by
  refine ⟨(List.range (2 ^ 32)).map fun i => ⟨i, 0, 0⟩, fun e he => ?_, ?_, fun h => ?_⟩
  · obtain ⟨i, hi, rfl⟩ := mem_map.mp he
    have hlt := mem_range.mp hi
    exact ⟨by dsimp only; omega, by norm_num, by norm_num⟩
  · exact List.pairwise_map.mpr List.pairwise_lt_range
  · refine decoded_encodeDir_of_le ?_ (decodeDir_eq_ok.mp h)
    rw [List.length_map, List.length_range]

/-! ### The store's functions -/

/-- The store encodes with the checksum of its crate. -/
theorem encodeDir_crc32fast (entries : List DirEntry) :
    encodeDir crc32fast entries = Storage.encodeDir entries := rfl

/-- The store decodes as here, at the checksum of its crate. -/
theorem decodeDir_crc32fast (bytes : List UInt8) :
    decodeDir crc32fast bytes = (Storage.decodeDir bytes).mapError Halt.refused :=
  decodeDir_eq crc32fast bytes

end Directories

end Minnal
