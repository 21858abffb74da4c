import Minnal.Library.Bytes
import Minnal.Library.CrashDisk
import Minnal.Library.FrameWalk

/-!
# Records of the value log

A segment file is a 16-byte header and **records**, each a 36-byte header, the value and the
key. The header holds the record's length and its parts, and these bytes are a header only if
the two agree. A scan steps from record to record by these lengths and stops at the first place
where there is no complete record: at the end of the file, or at the **torn** record that a
crash in the middle of an append leaves.

Both scans of the log, the one that finds where a file's records end and the one that hands out
every record, are walks with the same reader `nextRecord`.
-/

set_option linter.dupNamespace false

namespace Minnal

open ByteCodec FrameWalk
open List (length_append append_assoc append_nil drop_append drop_eq_nil_of_le drop_left nil_append)

variable {r : Record} {t : List UInt8} {rs : List Record}

namespace ValueLog

/-- Bytes of a segment's file header. -/
def segmentHeaderSize : ℕ := 16

inductive ValueLogError where
  | corruptedLog
  | invalidLocation
  | segmentMissing (segmentId : ℕ)
  | invalidSegmentSize (segmentSize : ℕ)
  | valueTooLarge (recordLen segmentSize : ℕ)
  deriving DecidableEq, Repr

/-- Where a value lives; segment 0 stands for no value. -/
structure ValueLocation where
  segmentId : ℕ
  recOffset : ℕ
  valueLen : ℕ
  deriving DecidableEq, Repr

/-- Per-record metadata that is not the value itself. -/
structure ValueRecordMeta where
  version : UInt32
  epoch : UInt64
  seq : UInt64
  deriving DecidableEq, Repr

/-- A record header. -/
structure ValueRecordHeader where
  totalLen : ℕ
  version : UInt32
  epoch : UInt64
  seq : UInt64
  keyLen : ℕ
  valueLen : ℕ
  checksum : UInt32
  deriving DecidableEq, Repr

namespace ValueRecordHeader

/-- Bytes of a record header. -/
def size : ℕ := 36

def recordLen (keyLen valueLen : ℕ) : ℕ := size + keyLen + valueLen

def toBytes (h : ValueRecordHeader) : List UInt8 :=
  leBytes 4 h.totalLen ++ leBytes 4 h.version.toNat ++ leBytes 8 h.epoch.toNat ++
    leBytes 8 h.seq.toNat ++ leBytes 4 h.keyLen ++ leBytes 4 h.valueLen ++
    leBytes 4 h.checksum.toNat

/-- Parse a header; none if the length does not agree with its parts. -/
def fromBytes (bytes : List UInt8) : Option ValueRecordHeader :=
  if bytes.length < size then none
  else
    let totalLen := leNat (readAt bytes 0 4)
    let keyLen := leNat (readAt bytes 24 4)
    let valueLen := leNat (readAt bytes 28 4)
    if totalLen ≠ recordLen keyLen valueLen then none
    else some
      { totalLen := totalLen
        version := UInt32.ofNat (leNat (readAt bytes 4 4))
        epoch := UInt64.ofNat (leNat (readAt bytes 8 8))
        seq := UInt64.ofNat (leNat (readAt bytes 16 8))
        keyLen := keyLen
        valueLen := valueLen
        checksum := UInt32.ofNat (leNat (readAt bytes 32 4)) }

def info (h : ValueRecordHeader) : ValueRecordMeta := ⟨h.version, h.epoch, h.seq⟩

end ValueRecordHeader

/-- What is stored for one write. -/
structure Record where
  key : List UInt8
  value : List UInt8
  info : ValueRecordMeta
  deriving DecidableEq

section Encode

variable (crc32 : List UInt8 → UInt32)

namespace Record

/-- Bytes of the record in its segment. -/
def len (r : Record) : ℕ := ValueRecordHeader.recordLen r.key.length r.value.length

def header (r : Record) : ValueRecordHeader :=
  { totalLen := r.len
    version := r.info.version
    epoch := r.info.epoch
    seq := r.info.seq
    keyLen := r.key.length
    valueLen := r.value.length
    checksum := crc32 r.value }

/-- The record as it is stored. -/
def bytes (r : Record) : List UInt8 := (r.header crc32).toBytes ++ r.value ++ r.key

end Record

/-- Several records one after the other. -/
def encode (rs : List Record) : List UInt8 := rs.flatMap (Record.bytes crc32)

end Encode

/-- The records with the offsets they start at. -/
def placedFrom (offset : ℕ) : List Record → List (ℕ × Record)
  | [] => []
  | r :: rs => (offset, r) :: placedFrom (offset + r.len) rs

/-- Bytes of several records. -/
def lenSum (rs : List Record) : ℕ := (rs.map Record.len).sum

/-! ### Scans -/

/-- The complete record at an offset of a file of `len` bytes, and where the next one starts. -/
def nextRecord (file : List UInt8) (len offset : ℕ) :
    Except ValueLogError (Option (ValueRecordHeader × ℕ)) :=
  if len < offset + ValueRecordHeader.size then .ok none
  else
    match ValueRecordHeader.fromBytes (readAt file offset ValueRecordHeader.size) with
    | none => .ok none
    | some header =>
      if len < offset + header.totalLen then .ok none
      else .ok (some (header, offset + header.totalLen))

/-- The offset at which the last complete record ends. -/
def validRecordEnd (file : List UInt8) (len : ℕ) : Except ValueLogError ℕ :=
  walk (nextRecord file len) (fun header offset => .next (offset + header.totalLen)) (len + 1)
    segmentHeaderSize segmentHeaderSize

/-- The record at an offset, with its header known. -/
def recordAt (file : List UInt8) (offset : ℕ) (header : ValueRecordHeader) : Record :=
  let body := readAt file (offset + ValueRecordHeader.size)
    (header.totalLen - ValueRecordHeader.size)
  ⟨body.drop header.valueLen, body.take header.valueLen, header.info⟩

/-- Every record of a segment file in write order, with its location. -/
def forEachRecordIn (file : List UInt8) (segmentId : ℕ) :
    Except ValueLogError (List (Record × ValueLocation)) :=
  walk (located (nextRecord file file.length))
    (fun x acc => .next
      (acc ++ [(recordAt file x.1 x.2, ⟨segmentId, x.1, x.2.valueLen⟩)]))
    (file.length + 1) segmentHeaderSize []

/-! ### Reads -/

section Read

variable (crc32 : List UInt8 → UInt32)

/-- Check a record read into `buf` against the pointer that named it. -/
def checkRecord (verifyChecksums : Bool) (buf : List UInt8) (location : ValueLocation) :
    Except ValueLogError (List UInt8 × ValueRecordMeta) :=
  match ValueRecordHeader.fromBytes buf with
  | none => .error .corruptedLog
  | some header =>
    if header.valueLen ≠ location.valueLen then .error .invalidLocation
    else
      let value := readAt buf ValueRecordHeader.size header.valueLen
      if buf.length < ValueRecordHeader.size + header.valueLen then .error .corruptedLog
      else if verifyChecksums = true ∧ crc32 value ≠ header.checksum then .error .corruptedLog
      else .ok (value, header.info)

/-- Read a value with one read of exactly the header and the value. -/
def readValueFromFile (verifyChecksums : Bool) (file : List UInt8) (location : ValueLocation) :
    Except ValueLogError (List UInt8 × ValueRecordMeta) :=
  if location.segmentId = 0 then .error .invalidLocation
  else
    let buf := readAt file location.recOffset (ValueRecordHeader.size + location.valueLen)
    if buf.length < ValueRecordHeader.size + location.valueLen then .error .corruptedLog
    else checkRecord crc32 verifyChecksums buf location

end Read

/-! ### Round trips -/

variable {file pre : List UInt8} {x : ℕ × Record}

section RoundTrip

variable {crc32 : List UInt8 → UInt32}

/-- The record's length fits its field. -/
def Record.Fits (r : Record) : Prop := r.len < 2 ^ 32

@[simp] theorem ValueRecordHeader.length_toBytes (h : ValueRecordHeader) :
    h.toBytes.length = ValueRecordHeader.size := by
  simp [toBytes, size]

@[simp] theorem Record.length_bytes (r : Record) : (r.bytes crc32).length = r.len := by
  simp only [bytes, length_append, ValueRecordHeader.length_toBytes, len,
    ValueRecordHeader.recordLen]
  omega

@[simp] theorem length_encode (rs : List Record) : (encode crc32 rs).length = lenSum rs := by
  rw [encode, lenSum, List.length_flatMap]
  simp

/-- A header is parsed back. -/
theorem fromBytes_header (h : r.Fits) (rest : List UInt8) :
    ValueRecordHeader.fromBytes ((r.header crc32).toBytes ++ rest) = some (r.header crc32) := by
  have hlen : r.len = 36 + r.key.length + r.value.length := rfl
  have hfits : r.len < 2 ^ 32 := h
  -- the fields one after the other
  have hfields : (r.header crc32).toBytes ++ rest = leBytes 4 r.len ++
      (leBytes 4 r.info.version.toNat ++ (leBytes 8 r.info.epoch.toNat ++
        (leBytes 8 r.info.seq.toNat ++ (leBytes 4 r.key.length ++ (leBytes 4 r.value.length ++
          (leBytes 4 (crc32 r.value).toNat ++ rest)))))) := by
    simp only [ValueRecordHeader.toBytes, Record.header, append_assoc]
  have htotal : readAt ((r.header crc32).toBytes ++ rest) 0 4 = leBytes 4 r.len := by
    rw [hfields]
    simp [readAt]
  have hversion : readAt ((r.header crc32).toBytes ++ rest) 4 4 = leBytes 4 r.info.version.toNat := by
    rw [hfields]
    simp [readAt]
  have hepoch : readAt ((r.header crc32).toBytes ++ rest) 8 8 = leBytes 8 r.info.epoch.toNat := by
    rw [hfields]
    simp [readAt, drop_append, drop_eq_nil_of_le]
  have hseq : readAt ((r.header crc32).toBytes ++ rest) 16 8 = leBytes 8 r.info.seq.toNat := by
    rw [hfields]
    simp [readAt, drop_append, drop_eq_nil_of_le]
  have hkey : readAt ((r.header crc32).toBytes ++ rest) 24 4 = leBytes 4 r.key.length := by
    rw [hfields]
    simp [readAt, drop_append, drop_eq_nil_of_le]
  have hvalue : readAt ((r.header crc32).toBytes ++ rest) 28 4 = leBytes 4 r.value.length := by
    rw [hfields]
    simp [readAt, drop_append, drop_eq_nil_of_le]
  have hcrc : readAt ((r.header crc32).toBytes ++ rest) 32 4 = leBytes 4 (crc32 r.value).toNat := by
    rw [hfields]
    simp [readAt, drop_append, drop_eq_nil_of_le]
  rw [ValueRecordHeader.fromBytes, if_neg (by simp)]
  simp only [htotal, hversion, hepoch, hseq, hkey, hvalue, hcrc]
  rw [leNat_leBytes_of_lt (show r.len < 256 ^ 4 from hfits),
    leNat_leBytes_of_lt (show r.key.length < 256 ^ 4 by omega),
    leNat_leBytes_of_lt (show r.value.length < 256 ^ 4 by omega),
    leNat_leBytes_of_lt (show r.info.version.toNat < 256 ^ 4 from UInt32.toNat_lt _),
    leNat_leBytes_of_lt (show r.info.epoch.toNat < 256 ^ 8 from UInt64.toNat_lt _),
    leNat_leBytes_of_lt (show r.info.seq.toNat < 256 ^ 8 from UInt64.toNat_lt _),
    leNat_leBytes_of_lt (show (crc32 r.value).toNat < 256 ^ 4 from UInt32.toNat_lt _)]
  simp [Record.header, Record.len]

theorem fromBytes_take_header (h : r.Fits) (rest : List UInt8) :
    ValueRecordHeader.fromBytes (((r.header crc32).toBytes ++ rest).take ValueRecordHeader.size) =
      some (r.header crc32) := by
  have htake : ((r.header crc32).toBytes ++ rest).take ValueRecordHeader.size =
      (r.header crc32).toBytes ++ [] := by
    rw [List.take_left' (ValueRecordHeader.length_toBytes _), append_nil]
  rw [htake, fromBytes_header h]

/-! ### What a scan finds -/

/-- What is left of a record whose write was cut off. -/
def Torn (crc32 : List UInt8 → UInt32) (t : List UInt8) : Prop :=
  ∃ r : Record, r.Fits ∧ t <+: r.bytes crc32 ∧ t.length < r.len

/-- The records of a segment with the locations they are found at. -/
def locatedIn (segmentId : ℕ) (rs : List Record) : List (Record × ValueLocation) :=
  (placedFrom segmentHeaderSize rs).map fun x => (x.2, ⟨segmentId, x.1, x.2.value.length⟩)

theorem Record.size_le_len (r : Record) : ValueRecordHeader.size ≤ r.len := by
  rw [Record.len, ValueRecordHeader.recordLen]
  omega

/-- Nothing at all is what is left when no byte was written. -/
theorem torn_nil : Torn crc32 [] :=
  ⟨⟨[], [], ⟨0, 0, 0⟩⟩, by simp [Record.Fits, Record.len, ValueRecordHeader.recordLen,
    ValueRecordHeader.size], List.nil_prefix, by simp [Record.len, ValueRecordHeader.recordLen,
    ValueRecordHeader.size]⟩

@[simp] theorem encode_nil : encode crc32 [] = [] := rfl

@[simp] theorem encode_cons (r : Record) (rs : List Record) :
    encode crc32 (r :: rs) = r.bytes crc32 ++ encode crc32 rs := rfl

@[simp] theorem encode_append (rs rs' : List Record) :
    encode crc32 (rs ++ rs') = encode crc32 rs ++ encode crc32 rs' :=
  List.flatMap_append

@[simp] theorem lenSum_nil : lenSum [] = 0 := rfl

@[simp] theorem lenSum_cons (r : Record) (rs : List Record) :
    lenSum (r :: rs) = r.len + lenSum rs := rfl

@[simp] theorem lenSum_append (rs rs' : List Record) :
    lenSum (rs ++ rs') = lenSum rs + lenSum rs' := by
  simp [lenSum]

/-- A scan moves on by a record header at least. -/
theorem advances_nextRecord (file : List UInt8) (len : ℕ) : Advances (nextRecord file len) len := by
  intro pos pos' header h
  rw [nextRecord] at h
  split_ifs at h with hshort
  · cases h
  split at h
  · cases h
  · rename_i header' hheader
    split_ifs at h with hlen
    · cases h
    simp only [Except.ok.injEq, Option.some.injEq, Prod.mk.injEq] at h
    obtain ⟨rfl, rfl⟩ := h
    rw [ValueRecordHeader.fromBytes] at hheader
    split_ifs at hheader with hsize
    simp only at hheader
    split_ifs at hheader with htotal
    obtain rfl := Option.some.inj hheader
    push Not at htotal
    simp only [ValueRecordHeader.recordLen, ValueRecordHeader.size] at htotal hshort ⊢
    omega

/-- A complete record is found. -/
theorem nextRecord_record (h : r.Fits) (pre rest : List UInt8) {len : ℕ}
    (hlen : pre.length + r.len ≤ len) :
    nextRecord (pre ++ (r.bytes crc32 ++ rest)) len pre.length =
      .ok (some (r.header crc32, pre.length + r.len)) := by
  have hsize := r.size_le_len
  have hread : readAt (pre ++ (r.bytes crc32 ++ rest)) pre.length ValueRecordHeader.size =
      ((r.header crc32).toBytes ++ (r.value ++ r.key ++ rest)).take ValueRecordHeader.size := by
    rw [readAt, drop_left, Record.bytes]
    simp only [append_assoc]
  rw [nextRecord, if_neg (by omega), hread, fromBytes_take_header h]
  exact if_neg (not_lt.mpr hlen)

/-- A record that is not complete ends the scan. -/
theorem nextRecord_torn (h : Torn crc32 t) (pre : List UInt8) :
    nextRecord (pre ++ t) (pre.length + t.length) pre.length = .ok none := by
  obtain ⟨r, hfits, ⟨rest, hrest⟩, hlt⟩ := h
  rw [nextRecord]
  split_ifs with hshort
  · rfl
  -- the header is there, and says that the record is longer than the file
  have hsize : ValueRecordHeader.size ≤ t.length := by omega
  have hread : readAt (pre ++ t) pre.length ValueRecordHeader.size =
      ((r.header crc32).toBytes ++ (r.value ++ r.key)).take ValueRecordHeader.size := by
    rw [readAt, drop_left, ← append_assoc, ← Record.bytes, ← hrest,
      List.take_append_of_le_length hsize]
  rw [hread, fromBytes_take_header hfits]
  refine if_pos ?_
  have htotal : (r.header crc32).totalLen = r.len := rfl
  omega

/-- The record found at an offset. -/
theorem recordAt_record (r : Record) (pre rest : List UInt8) :
    recordAt (pre ++ (r.bytes crc32 ++ rest)) pre.length (r.header crc32) = r := by
  have hbody : readAt (pre ++ (r.bytes crc32 ++ rest)) (pre.length + ValueRecordHeader.size)
      (r.len - ValueRecordHeader.size) = r.value ++ r.key := by
    have hlen : r.len - ValueRecordHeader.size = (r.value ++ r.key).length := by
      rw [Record.len, ValueRecordHeader.recordLen, length_append]
      omega
    have hsize := ValueRecordHeader.length_toBytes (r.header crc32)
    rw [readAt_append_add, Record.bytes, hlen]
    have happ := readAt_append (r.header crc32).toBytes (r.value ++ r.key) rest
    rw [hsize] at happ
    simpa only [append_assoc] using happ
  have htotal : (r.header crc32).totalLen = r.len := rfl
  have hvalue : (r.header crc32).valueLen = r.value.length := rfl
  simp only [recordAt, htotal, hvalue, hbody, drop_left, List.take_left]
  rfl

/-- From the end of `pre` on, a scan finds the records and stops at what is torn. -/
theorem reads_records (hfits : ∀ r ∈ rs, r.Fits) (ht : Torn crc32 t) (pre : List UInt8)
    (hfile : file = pre ++ (encode crc32 rs ++ t)) :
    Reads (located (nextRecord file file.length)) pre.length
      ((placedFrom pre.length rs).map fun x => (x.1, x.2.header crc32)) (.ok ()) := by
  induction rs generalizing pre with
  | nil =>
    rw [encode_nil, nil_append] at hfile
    have hlen : file.length = pre.length + t.length := by rw [hfile, length_append]
    refine .done ?_
    rw [located, hlen, hfile, nextRecord_torn ht]
    rfl
  | cons r rs ih =>
    obtain ⟨hr, hrs⟩ := List.forall_mem_cons.mp hfits
    rw [encode_cons, append_assoc] at hfile
    have hlen : pre.length + r.len ≤ file.length := by
      rw [hfile]
      simp only [length_append, Record.length_bytes]
      omega
    have hnext : nextRecord file file.length pre.length =
        .ok (some (r.header crc32, pre.length + r.len)) := by
      conv_lhs => rw [hfile]
      exact nextRecord_record hr pre _ (hfile ▸ hlen)
    have htail := ih hrs (pre ++ r.bytes crc32) (by rw [hfile, append_assoc])
    rw [length_append, Record.length_bytes] at htail
    refine .item ?_ htail
    rw [located, hnext]
    rfl

/-- The scan of a file with a complete header visits its records in order. -/
theorem walk_records (hfits : ∀ r ∈ rs, r.Fits) (ht : Torn crc32 t)
    (hpre : pre.length = segmentHeaderSize) (hfile : file = pre ++ (encode crc32 rs ++ t))
    {β : Type*} (visit : ℕ × ValueRecordHeader → β → β) (b : β) :
    walk (located (nextRecord file file.length)) (fun x acc => .next (visit x acc))
        (file.length + 1) segmentHeaderSize b =
      .ok ((placedFrom segmentHeaderSize rs).foldl
        (fun acc x => visit (x.1, x.2.header crc32) acc) b) := by
  have hreads := reads_records hfits ht pre hfile
  rw [hpre] at hreads
  have hlen := hreads.length_le (advances_located (advances_nextRecord file file.length))
  have hvisit := visitAll_next (fun acc x => visit x acc)
    ((placedFrom segmentHeaderSize rs).map fun x => (x.1, x.2.header crc32)) b
  rw [walk_eq_ok hreads (by omega), hvisit, Visit.value_next, List.foldl_map]

/-- A placed record is one of the records, and its offset is where those before it end. -/
theorem exists_of_mem_placedFrom {offset : ℕ} (h : x ∈ placedFrom offset rs) :
    ∃ before after, rs = before ++ x.2 :: after ∧ x.1 = offset + lenSum before := by
  induction rs generalizing offset with
  | nil => cases h
  | cons r rs ih =>
    rcases List.mem_cons.mp h with rfl | h
    · exact ⟨[], rs, rfl, rfl⟩
    · obtain ⟨before, after, rfl, hx⟩ := ih h
      exact ⟨r :: before, after, rfl, by rw [hx, lenSum_cons, Nat.add_assoc]⟩

@[simp] theorem placedFrom_append (offset : ℕ) (rs rs' : List Record) :
    placedFrom offset (rs ++ rs') =
      placedFrom offset rs ++ placedFrom (offset + lenSum rs) rs' := by
  induction rs generalizing offset with
  | nil => rfl
  | cons r rs ih => simp [placedFrom, ih, Nat.add_assoc]

/-- One more record is found where the others end. -/
theorem locatedIn_concat (segmentId : ℕ) (rs : List Record) (r : Record) :
    locatedIn segmentId (rs ++ [r]) = locatedIn segmentId rs ++
      [(r, ⟨segmentId, segmentHeaderSize + lenSum rs, r.value.length⟩)] := by
  simp [locatedIn, placedFrom]

end RoundTrip

/-! ### Segment files -/

section Files

variable (crc32 : List UInt8 → UInt32)

/-- **Segment files.** The file holds these records, and after them perhaps a torn one. A crash
may even have taken a part of the file header of a segment without records. -/
def Holds (file : List UInt8) (rs : List Record) : Prop :=
  (∀ r ∈ rs, r.Fits) ∧ ((rs = [] ∧ file.length ≤ segmentHeaderSize) ∨
    ∃ pre t, pre.length = segmentHeaderSize ∧ Torn crc32 t ∧ file = pre ++ (encode crc32 rs ++ t))

/-- The file holds these records and nothing after them. -/
def HoldsOnly (file : List UInt8) (rs : List Record) : Prop :=
  (∀ r ∈ rs, r.Fits) ∧ ((rs = [] ∧ file.length ≤ segmentHeaderSize) ∨
    ∃ pre, pre.length = segmentHeaderSize ∧ file = pre ++ encode crc32 rs)

/-- The records that are complete in the first `n` bytes. -/
def wholeIn : ℕ → List Record → List Record
  | _, [] => []
  | n, r :: rs => if r.len ≤ n then r :: wholeIn (n - r.len) rs else []

variable {crc32} {file : List UInt8} {rs : List Record}

theorem HoldsOnly.holds (h : HoldsOnly crc32 file rs) : Holds crc32 file rs := by
  obtain ⟨hfits, hshort | ⟨pre, hpre, rfl⟩⟩ := h
  · exact ⟨hfits, .inl hshort⟩
  · exact ⟨hfits, .inr ⟨pre, [], hpre, torn_nil, by rw [append_nil]⟩⟩

/-- Where a record of a file stands. -/
theorem exists_split (hpre : pre.length = segmentHeaderSize)
    (hfile : file = pre ++ (encode crc32 rs ++ t)) (hx : x ∈ placedFrom segmentHeaderSize rs) :
    ∃ before after, file = before ++ (x.2.bytes crc32 ++ after) ∧ x.1 = before.length := by
  obtain ⟨before, after, rfl, hoff⟩ := exists_of_mem_placedFrom hx
  refine ⟨pre ++ encode crc32 before, encode crc32 after ++ t, ?_, ?_⟩
  · rw [hfile]
    simp only [encode_append, encode_cons, append_assoc]
  · rw [length_append, hpre, length_encode, hoff]

/-- A scan hands out exactly the records, with their locations. -/
theorem Holds.forEachRecordIn (h : Holds crc32 file rs) (segmentId : ℕ) :
    forEachRecordIn file segmentId = .ok (locatedIn segmentId rs) := by
  obtain ⟨hfits, ⟨rfl, hshort⟩ | ⟨pre, t, hpre, ht, hfile⟩⟩ := h
  · have hstop : located (nextRecord file file.length) segmentHeaderSize = .ok none := by
      rw [located, nextRecord, if_pos (by rw [ValueRecordHeader.size]; omega)]
      rfl
    simp [ValueLog.forEachRecordIn, walk, hstop, locatedIn, placedFrom]
  · let found : ℕ × ValueRecordHeader → Record × ValueLocation :=
      fun x => (recordAt file x.1 x.2, ⟨segmentId, x.1, x.2.valueLen⟩)
    have hwalk := walk_records hfits ht hpre hfile (fun x acc => acc ++ [found x]) []
    have hfound : ∀ x ∈ placedFrom segmentHeaderSize rs, found (x.1, x.2.header crc32) =
        (x.2, ⟨segmentId, x.1, x.2.value.length⟩) := by
      intro x hx
      obtain ⟨before, after, hsplit, hlen⟩ := exists_split hpre hfile hx
      simp only [found, hlen, hsplit, recordAt_record]
      rfl
    refine hwalk.trans (congrArg Except.ok ?_)
    rw [List.foldl_append_eq_append, nil_append, locatedIn, ← List.flatMap_def,
      ← List.map_eq_flatMap]
    exact List.map_congr_left hfound

/-- A scan for the end stops where the last complete record ends. -/
theorem Holds.validRecordEnd (h : Holds crc32 file rs) :
    validRecordEnd file (segmentHeaderSize + (file.length - segmentHeaderSize)) =
      .ok (segmentHeaderSize + lenSum rs) := by
  obtain ⟨hfits, ⟨rfl, hshort⟩ | ⟨pre, t, hpre, ht, hfile⟩⟩ := h
  · have hlen : segmentHeaderSize + (file.length - segmentHeaderSize) = segmentHeaderSize := by
      omega
    have hstop : nextRecord file segmentHeaderSize segmentHeaderSize = .ok none := by
      rw [nextRecord, if_pos (by rw [ValueRecordHeader.size]; omega)]
    rw [hlen, ValueLog.validRecordEnd]
    simp [walk, hstop]
  · have hlen : segmentHeaderSize + (file.length - segmentHeaderSize) = file.length := by
      rw [hfile, length_append]
      omega
    have hwalk := walk_records hfits ht hpre hfile (fun x acc => acc + x.2.totalLen)
      segmentHeaderSize
    have hfold : ∀ (offset : ℕ) (rs : List Record) (b : ℕ), (placedFrom offset rs).foldl
        (fun acc x => acc + (x.2.header crc32).totalLen) b = b + lenSum rs := by
      intro offset rs
      induction rs generalizing offset with
      | nil => exact fun b => rfl
      | cons r rs ih =>
        intro b
        rw [placedFrom, List.foldl_cons, ih, lenSum_cons]
        exact Nat.add_assoc b r.len (lenSum rs)
    rw [hlen, ValueLog.validRecordEnd, ← walk_located]
    exact hwalk.trans (congrArg Except.ok (hfold _ _ _))

/-- Cutting a file where its records end leaves the records. -/
theorem Holds.truncate (h : Holds crc32 file rs) :
    HoldsOnly crc32 (if segmentHeaderSize + lenSum rs <
        segmentHeaderSize + (file.length - segmentHeaderSize)
      then file.take (segmentHeaderSize + lenSum rs) else file) rs := by
  obtain ⟨hfits, ⟨rfl, hshort⟩ | ⟨pre, t, hpre, ht, rfl⟩⟩ := h
  · rw [if_neg (by rw [lenSum_nil]; omega)]
    exact ⟨hfits, .inl ⟨rfl, hshort⟩⟩
  · refine ⟨hfits, .inr ⟨pre, hpre, ?_⟩⟩
    have hlen : segmentHeaderSize + lenSum rs = (pre ++ encode crc32 rs).length := by
      rw [length_append, hpre, length_encode]
    have htake : (pre ++ (encode crc32 rs ++ t)).take (segmentHeaderSize + lenSum rs) =
        pre ++ encode crc32 rs := by
      rw [hlen, ← append_assoc, List.take_left]
    split_ifs with hlt
    · exact htake
    · have hnil : t.length = 0 := by
        simp only [length_append, hpre, length_encode] at hlt
        omega
      rw [List.eq_nil_of_length_eq_zero hnil, append_nil]

/-- What a cut leaves of the records. -/
theorem take_encode (crc32 : List UInt8 → UInt32) (n : ℕ) (hfits : ∀ r ∈ rs, r.Fits) :
    ∃ t, Torn crc32 t ∧ (encode crc32 rs).take n = encode crc32 (wholeIn n rs) ++ t := by
  induction rs generalizing n with
  | nil => exact ⟨[], torn_nil, by simp [wholeIn]⟩
  | cons r rs ih =>
    obtain ⟨hr, hrs⟩ := List.forall_mem_cons.mp hfits
    rw [wholeIn, encode_cons]
    split_ifs with hle
    · obtain ⟨t, ht, htake⟩ := ih (n - r.len) hrs
      refine ⟨t, ht, ?_⟩
      rw [List.take_append, Record.length_bytes, List.take_of_length_le (by simpa using hle), htake,
        encode_cons, append_assoc]
    · refine ⟨(r.bytes crc32).take n, ⟨r, hr, List.take_prefix _ _, ?_⟩, ?_⟩
      · rw [List.length_take, Record.length_bytes]
        omega
      · rw [encode_nil, nil_append, List.take_append_of_le_length]
        rw [Record.length_bytes]
        omega

theorem mem_of_mem_wholeIn {n : ℕ} (h : r ∈ wholeIn n rs) : r ∈ rs := by
  induction rs generalizing n with
  | nil => cases h
  | cons r' rs ih =>
    rw [wholeIn] at h
    split_ifs at h with hle
    · rcases List.mem_cons.mp h with rfl | h
      · exact List.mem_cons_self
      · exact List.mem_cons_of_mem _ (ih h)
    · cases h

/-- A file cut anywhere holds the records that are still complete. -/
theorem HoldsOnly.take (h : HoldsOnly crc32 file rs) (n : ℕ) :
    Holds crc32 (file.take n) (wholeIn (n - segmentHeaderSize) rs) := by
  obtain ⟨hfits, hfile⟩ := h
  refine ⟨fun r hr => hfits r (mem_of_mem_wholeIn hr), ?_⟩
  rcases hfile with ⟨rfl, hshort⟩ | ⟨pre, hpre, rfl⟩
  · exact .inl ⟨rfl, by rw [List.length_take]; omega⟩
  · by_cases hn : n < segmentHeaderSize
    · have hzero : n - segmentHeaderSize = 0 := by omega
      refine .inl ⟨?_, by rw [List.length_take]; omega⟩
      rw [hzero]
      rcases rs with _ | ⟨r, rs⟩
      · rfl
      · have hpos := r.size_le_len
        rw [wholeIn, if_neg (by rw [ValueRecordHeader.size] at hpos; omega)]
    · obtain ⟨t, ht, htake⟩ := take_encode crc32 (n - segmentHeaderSize) hfits
      refine .inr ⟨pre, t, hpre, ht, ?_⟩
      rw [List.take_append, hpre, List.take_of_length_le (by omega), htake]

/-- A record written where the others end is one more record. -/
theorem HoldsOnly.append (h : HoldsOnly crc32 file rs) (hr : r.Fits) :
    HoldsOnly crc32 (CrashDisk.writeAt file (segmentHeaderSize + lenSum rs) (r.bytes crc32))
      (rs ++ [r]) := by
  obtain ⟨hfits, hfile⟩ := h
  refine ⟨fun r' hr' => (List.mem_append.mp hr').elim (hfits r') fun hmem => ?_, .inr ?_⟩
  · rwa [List.mem_singleton.mp hmem]
  rcases hfile with ⟨rfl, hshort⟩ | ⟨pre, hpre, rfl⟩
  · -- the header's missing bytes read as zeros
    refine ⟨file ++ List.replicate (segmentHeaderSize - file.length) 0, by simp; omega, ?_⟩
    simp [CrashDisk.writeAt, List.take_of_length_le hshort]
    omega
  · refine ⟨pre, hpre, ?_⟩
    have hlen : segmentHeaderSize + lenSum rs = (pre ++ encode crc32 rs).length := by
      rw [length_append, hpre, length_encode]
    have hwrite := CrashDisk.writeAt_append (pre ++ encode crc32 rs) [] (r.bytes crc32)
    rw [append_nil] at hwrite
    rw [hlen, hwrite]
    simp

/-- Every record the file holds is read back through its location. -/
theorem Holds.readValueFromFile (h : Holds crc32 file rs) {segmentId : ℕ} (hid : segmentId ≠ 0)
    {x : Record × ValueLocation} (hx : x ∈ locatedIn segmentId rs) (verifyChecksums : Bool) :
    readValueFromFile crc32 verifyChecksums file x.2 = .ok (x.1.value, x.1.info) := by
  obtain ⟨hfits, ⟨rfl, -⟩ | ⟨pre, t, hpre, ht, hfile⟩⟩ := h
  · cases hx
  obtain ⟨⟨offset, r⟩, hplaced, rfl⟩ := List.mem_map.mp hx
  obtain ⟨before, after, hsplit, hlen⟩ := exists_split hpre hfile hplaced
  obtain ⟨before', after', hrs, -⟩ := exists_of_mem_placedFrom hplaced
  have hr : r.Fits := hfits r (by rw [hrs]; simp)
  simp only at hsplit hlen
  -- the read returns the header and the value
  have hsize := ValueRecordHeader.length_toBytes (r.header crc32)
  have hbuf : readAt file offset (ValueRecordHeader.size + r.value.length) =
      (r.header crc32).toBytes ++ r.value := by
    have happ := readAt_append before ((r.header crc32).toBytes ++ r.value) (r.key ++ after)
    rw [length_append, hsize] at happ
    rw [hsplit, hlen, Record.bytes]
    simpa only [append_assoc] using happ
  have hheader : ValueRecordHeader.fromBytes ((r.header crc32).toBytes ++ r.value) =
      some (r.header crc32) := fromBytes_header hr r.value
  have hvalue : readAt ((r.header crc32).toBytes ++ r.value) ValueRecordHeader.size
      r.value.length = r.value := by
    have happ := readAt_append (r.header crc32).toBytes r.value []
    rwa [hsize, append_nil] at happ
  have hlenOf : (r.header crc32).valueLen = r.value.length := rfl
  have hcrc : (r.header crc32).checksum = crc32 r.value := rfl
  rw [ValueLog.readValueFromFile, if_neg hid]
  simp only [hbuf, length_append, hsize, lt_irrefl, if_false]
  rw [checkRecord, hheader]
  simp only [hlenOf, hvalue, hcrc, ne_eq, not_true_eq_false, if_false, length_append, hsize,
    lt_irrefl, and_false]
  rfl

end Files

end ValueLog

end Minnal
