import Minnal.Library.FrameWalk
import Minnal.Lsm.Entry

/-!
# The SSTable file format

A non-empty SSTable is a 16-byte header (magic, format version, reserved) followed by
**frames**, one per entry: a `u32` length, then a payload of that length made of the CRC32
of the body and the body, an rkyv archive of the entry. A file of zero bytes is a valid
SSTable with no entries.

Three ways of reading the next frame are in use and they differ at a damaged tail, so each
has its own definition here.
* `nextPositionalWith`, two `read_exact_at` calls: no byte left is a clean end, a cut length
  is an error, and a frame whose payload is missing **altogether** is not noticed: the buffer
  keeps what it held, zeros or an earlier frame.
* `nextSequential`, the standard library's `read_exact`: a cut length is a clean end.
* `nextBuffered`, the `FrameReader`: a cut length is an error.
On a well-formed file they all deliver the entries the file was written from
(`FramesAt.reads_positional` and its siblings), entry by entry at the offsets `locate` lists.
-/

set_option linter.dupNamespace false

namespace Minnal

open ByteCodec FrameWalk

/-! ### Header -/

/-- The magic `MSST`. -/
def sstableMagic : Bytes := [77, 83, 83, 84]

def sstableFormatVersion : ℕ := 1

/-- Offset at which frames begin. -/
def sstableDataStart : ℕ := 16

/-- The header written at offset 0 of a non-empty SSTable. -/
def sstableHeaderBytes : Bytes :=
  sstableMagic ++ leBytes 4 sstableFormatVersion ++ List.replicate 8 0

@[simp] theorem length_sstableHeaderBytes : sstableHeaderBytes.length = sstableDataStart := by
  decide

/-- Verify that a file begins with a header this build can read. -/
def validateSstableHeader (file : Bytes) : Except LSMError Unit :=
  let header := readAt file 0 sstableDataStart
  if header.length < sstableDataStart then .error (.corruption .unreadableHeader)
  else if header.take 4 ≠ sstableMagic then .error (.corruption (.badMagic (header.take 4)))
  else
    let version := leNat ((header.drop 4).take 4)
    if version ≠ sstableFormatVersion then .error (.corruption (.formatVersion version))
    else .ok ()

theorem validateSstableHeader_append (body : Bytes) :
    validateSstableHeader (sstableHeaderBytes ++ body) = .ok () := by
  have hread : readAt (sstableHeaderBytes ++ body) 0 sstableDataStart = sstableHeaderBytes := by
    simpa using readAt_append [] sstableHeaderBytes body
  rw [validateSstableHeader, hread]
  decide

/-! ### Frames -/

/-- Reject a frame whose declared payload length is zero or exceeds the file. -/
def checkFrameLen (size fileLen : ℕ) : Except LSMError Unit :=
  if size = 0 ∨ fileLen < size then .error (.corruption (.frameLength size fileLen)) else .ok ()

/-- The payload of an entry's frame: checksum, then archive. -/
def encodeSstableEntry (c : Crates) (entry : SStableEntry) : Except LSMError Bytes :=
  match c.toBytes entry with
  | none => .error .serialization
  | some body => .ok (leBytes 4 (c.crc32 body).toNat ++ body)

/-- Check a payload's checksum and return its body. -/
def verifySstablePayload (c : Crates) (framed : Bytes) : Except LSMError Bytes :=
  if framed.length < 4 then .error (.corruption (.payloadTooSmall framed.length))
  else
    let stored := leNat (framed.take 4)
    let body := framed.drop 4
    let actual := (c.crc32 body).toNat
    if actual ≠ stored then .error (.corruption (.crcMismatch stored actual)) else .ok body

/-- Verify a payload and access the entry archived in it. -/
def accessEntry (c : Crates) (framed : Bytes) : Except LSMError SStableEntry :=
  (verifySstablePayload c framed).map c.access

/-- A frame: the payload's length, then the payload. -/
def frameBytes (payload : Bytes) : Bytes := leBytes 4 payload.length ++ payload

/-- The frames of a list of entries, in order. -/
def encodeFrames (c : Crates) : List SStableEntry → Except LSMError Bytes
  | [] => .ok []
  | e :: es =>
    match encodeSstableEntry c e with
    | .error err => .error err
    | .ok payload => (encodeFrames c es).map (frameBytes payload ++ ·)

variable {c : Crates} {e : SStableEntry}

/-- A payload that was encoded is verified and gives the entry back. -/
theorem accessEntry_encode {payload : Bytes} (h : encodeSstableEntry c e = .ok payload) :
    accessEntry c payload = .ok e := by
  unfold encodeSstableEntry at h
  split at h
  · cases h
  · rename_i body hbody
    cases h
    have hcrc : leNat (leBytes 4 (c.crc32 body).toNat) = (c.crc32 body).toNat :=
      leNat_leBytes_of_lt (c.crc32 body).toNat_lt
    simp [accessEntry, verifySstablePayload, hcrc, Except.map, c.access_toBytes hbody]

/-- A payload is never empty, and its length fits the frame's length field. -/
theorem length_encode {payload : Bytes} (h : encodeSstableEntry c e = .ok payload) :
    4 ≤ payload.length ∧ payload.length < 256 ^ 4 := by
  unfold encodeSstableEntry at h
  split at h
  · cases h
  · rename_i body hbody
    cases h
    have hlen := c.length_toBytes hbody
    simp only [List.length_append, length_leBytes]
    omega

theorem length_frameBytes (payload : Bytes) :
    (frameBytes payload).length = 4 + payload.length := by
  simp [frameBytes]

/-- The length of an entry's frame. -/
def frameLen (c : Crates) (e : SStableEntry) : ℕ :=
  match encodeSstableEntry c e with
  | .error _ => 0
  | .ok payload => (frameBytes payload).length

/-- The entries with the offsets of their frames, when the first frame is at `offset`. -/
def locate (c : Crates) : ℕ → List SStableEntry → List (ℕ × SStableEntry)
  | _, [] => []
  | offset, e :: es => (offset, e) :: locate c (offset + frameLen c e) es

theorem map_snd_locate (c : Crates) (offset : ℕ) (es : List SStableEntry) :
    (locate c offset es).map Prod.snd = es := by
  induction es generalizing offset with
  | nil => rfl
  | cons e es ih => rw [locate, List.map_cons, ih]

variable {es : List SStableEntry}

theorem encodeFrames_cons {bytes : Bytes} : encodeFrames c (e :: es) = .ok bytes ↔
      ∃ payload rest, encodeSstableEntry c e = .ok payload ∧ encodeFrames c es = .ok rest ∧
        bytes = frameBytes payload ++ rest := by
  cases h₁ : encodeSstableEntry c e with
  | error err => simp [encodeFrames, h₁]
  | ok payload =>
    cases h₂ : encodeFrames c es with
    | error err => simp [encodeFrames, h₁, h₂, Except.map]
    | ok rest => simp [encodeFrames, h₁, h₂, Except.map, eq_comm]

/-! ### Readers -/

/-- `read_exact_at`: `none` when no byte is left at `offset`. -/
def readExactAt (file : Bytes) (len offset : ℕ) : Except LSMError (Option Bytes) :=
  let got := readAt file offset len
  if got.length = len then .ok (some got)
  else if got = [] then .ok none
  else .error (.io .unexpectedEof)

/-- The standard library's `read_exact` from a cursor at `offset`. -/
def readExact (file : Bytes) (len offset : ℕ) : Except LSMError Bytes :=
  let got := readAt file offset len
  if got.length = len then .ok got else .error (.io .unexpectedEof)

/-- One frame through two `read_exact_at` calls. The second one's "no bytes" answer is
ignored by the caller: `buffer size` stays as it was and the offset does not move. -/
def nextPositionalWith (c : Crates) (file : Bytes) (buffer : ℕ → Bytes) (offset : ℕ) :
    Except LSMError (Option (SStableEntry × ℕ)) :=
  match readExactAt file 4 offset with
  | .error err => .error err
  | .ok none => .ok none
  | .ok (some sizeBuf) =>
    let size := leNat sizeBuf
    match checkFrameLen size file.length with
    | .error err => .error err
    | .ok () =>
      match readExactAt file size (offset + 4) with
      | .error err => .error err
      | .ok none => (accessEntry c (buffer size)).map fun e => some (e, offset + 4)
      | .ok (some framed) => (accessEntry c framed).map fun e => some (e, offset + 4 + size)

/-- The reader of point lookups and of the merge's Level-1 input: a fresh zeroed buffer. -/
def nextPositional (c : Crates) (file : Bytes) (offset : ℕ) :
    Except LSMError (Option (SStableEntry × ℕ)) :=
  nextPositionalWith c file (fun size => List.replicate size 0) offset

/-- The sequential reader: a cut length prefix is the end of the file. -/
def nextSequential (c : Crates) (file : Bytes) (offset : ℕ) :
    Except LSMError (Option (SStableEntry × ℕ)) :=
  match readExact file 4 offset with
  | .error _ => .ok none
  | .ok sizeBuf =>
    let size := leNat sizeBuf
    match checkFrameLen size file.length with
    | .error err => .error err
    | .ok () =>
      match readExact file size (offset + 4) with
      | .error err => .error err
      | .ok framed => (accessEntry c framed).map fun e => some (e, offset + 4 + size)

/-- `FrameReader::next_frame` at the reader's current offset, with the entry accessed. -/
def nextBuffered (c : Crates) (file : Bytes) (offset : ℕ) :
    Except LSMError (Option (SStableEntry × ℕ)) :=
  let head := readAt file offset 4
  if head = [] then .ok none
  else if head.length < 4 then .error (.io .unexpectedEof)
  else
    let size := leNat head
    match checkFrameLen size file.length with
    | .error err => .error err
    | .ok () =>
      let framed := readAt file (offset + 4) size
      if framed.length < size then .error (.io .unexpectedEof)
      else (accessEntry c framed).map fun e => some (e, offset + 4 + size)

/-! ### Reading a well-formed file -/

/-- From `offset` to its end, the file is the frames of `es`. -/
def FramesAt (c : Crates) (file : Bytes) (offset : ℕ) (es : List SStableEntry) : Prop :=
  encodeFrames c es = .ok (file.drop offset)

/-- The file is an SSTable of the entries `es`, its header aside. -/
def HoldsEntries (c : Crates) (file : Bytes) (es : List SStableEntry) : Prop :=
  FramesAt c file sstableDataStart es

variable {file : Bytes} {offset : ℕ}

/-- Every entry a file holds can be encoded: it was. -/
theorem FramesAt.encodable (h : FramesAt c file offset es) :
    ∀ e ∈ es, ∃ payload, encodeSstableEntry c e = .ok payload := by
  have hall : ∀ {es : List SStableEntry} {bytes : Bytes}, encodeFrames c es = .ok bytes →
      ∀ e ∈ es, ∃ payload, encodeSstableEntry c e = .ok payload := by
    intro es
    induction es with
    | nil => simp
    | cons d es ih =>
      intro bytes hd
      obtain ⟨payload, rest, hpay, hrest, -⟩ := encodeFrames_cons.mp hd
      exact List.forall_mem_cons.mpr ⟨⟨payload, hpay⟩, ih hrest⟩
  exact hall h

theorem holdsEntries_empty (c : Crates) : HoldsEntries c [] [] := rfl

theorem holdsEntries_header {body : Bytes} (h : encodeFrames c es = .ok body) :
    HoldsEntries c (sstableHeaderBytes ++ body) es := by
  have hdrop : (sstableHeaderBytes ++ body).drop sstableDataStart = body := by
    rw [← length_sstableHeaderBytes, List.drop_left]
  rw [HoldsEntries, FramesAt, hdrop, h]

theorem FramesAt.drop_eq_nil (h : FramesAt c file offset []) : file.drop offset = [] := by
  have h' : (.ok [] : Except LSMError Bytes) = .ok (file.drop offset) := h
  injection h' with h'
  exact h'.symm

/-- What is known of a frame boundary that is not the end: the payload of the first entry
stands there, complete, and the boundary of the remaining entries follows it. -/
theorem FramesAt.cons (h : FramesAt c file offset (e :: es)) :
    ∃ payload, encodeSstableEntry c e = .ok payload ∧
      readAt file offset 4 = leBytes 4 payload.length ∧
      readAt file (offset + 4) payload.length = payload ∧
      frameLen c e = 4 + payload.length ∧ offset + frameLen c e ≤ file.length ∧
      FramesAt c file (offset + frameLen c e) es := by
  obtain ⟨payload, rest, hpay, hrest, hdrop⟩ := encodeFrames_cons.mp h
  have hframe : frameLen c e = 4 + payload.length := by
    simp [frameLen, hpay, length_frameBytes]
  have hlen := congrArg List.length hdrop
  rw [List.length_drop, List.length_append, length_frameBytes] at hlen
  have hpos : 4 ≤ payload.length := (length_encode hpay).1
  have hbody : file.drop (offset + 4) = payload ++ rest := by
    rw [← List.drop_drop, hdrop, frameBytes, List.append_assoc]
    exact List.drop_left' (length_leBytes 4 _)
  refine ⟨payload, hpay, ?_, ?_, hframe, by omega, ?_⟩
  · rw [readAt, hdrop, frameBytes, List.append_assoc]
    exact List.take_left' (length_leBytes 4 _)
  · rw [readAt, hbody]
    exact List.take_left' rfl
  · have hskip : file.drop (offset + frameLen c e) = rest := by
      rw [hframe, ← Nat.add_assoc, ← List.drop_drop, hbody]
      exact List.drop_left' rfl
    rw [FramesAt, hskip, hrest]

theorem FramesAt.tail (h : FramesAt c file offset (e :: es)) :
    FramesAt c file (offset + frameLen c e) es := by
  obtain ⟨_, -, -, -, -, -, htail⟩ := h.cons
  exact htail

/-- Every entry left takes up a byte of the file, and more. -/
theorem FramesAt.length_le (h : FramesAt c file offset es) : es.length ≤ file.length - offset := by
  induction es generalizing offset with
  | nil => simp
  | cons e es ih =>
    obtain ⟨payload, -, -, -, hlen, hle, htail⟩ := h.cons
    have hrec := ih htail
    rw [List.length_cons]
    omega

/-- A located entry stands at a frame boundary, with the entries after it behind it. -/
theorem FramesAt.of_mem_locate (h : FramesAt c file offset es) {o : ℕ}
    (hmem : (o, e) ∈ locate c offset es) :
    ∃ done rest, es = done ++ e :: rest ∧ FramesAt c file o (e :: rest) := by
  induction es generalizing offset with
  | nil => cases hmem
  | cons d es ih =>
    rw [locate, List.mem_cons] at hmem
    rcases hmem with heq | hmem
    · cases heq
      exact ⟨[], es, rfl, h⟩
    · obtain ⟨done, rest, rfl, hrest⟩ := ih h.tail hmem
      exact ⟨d :: done, rest, rfl, hrest⟩

theorem FramesAt.nextPositionalWith_cons (h : FramesAt c file offset (e :: es)) (buffer : ℕ → Bytes) :
    nextPositionalWith c file buffer offset = .ok (some (e, offset + frameLen c e)) := by
  obtain ⟨payload, hpay, hsize, hbody, hlen, hle, -⟩ := h.cons
  obtain ⟨hpos, hlt⟩ := length_encode hpay
  have hne : payload.length ≠ 0 := by omega
  simp [nextPositionalWith, readExactAt, hsize, leNat_leBytes_of_lt hlt, checkFrameLen, hne,
    show ¬ file.length < payload.length by omega, hbody, accessEntry_encode hpay, Except.map,
    hlen, Nat.add_assoc]

theorem FramesAt.nextSequential_cons (h : FramesAt c file offset (e :: es)) :
    nextSequential c file offset = .ok (some (e, offset + frameLen c e)) := by
  obtain ⟨payload, hpay, hsize, hbody, hlen, hle, -⟩ := h.cons
  obtain ⟨hpos, hlt⟩ := length_encode hpay
  have hne : payload.length ≠ 0 := by omega
  simp [nextSequential, readExact, hsize, leNat_leBytes_of_lt hlt, checkFrameLen, hne,
    show ¬ file.length < payload.length by omega, hbody, accessEntry_encode hpay, Except.map,
    hlen, Nat.add_assoc]

theorem FramesAt.nextBuffered_cons (h : FramesAt c file offset (e :: es)) :
    nextBuffered c file offset = .ok (some (e, offset + frameLen c e)) := by
  obtain ⟨payload, hpay, hsize, hbody, hlen, hle, -⟩ := h.cons
  obtain ⟨hpos, hlt⟩ := length_encode hpay
  have hne : payload.length ≠ 0 := by omega
  have hhead : leBytes 4 payload.length ≠ [] := by
    intro hnil
    simpa using congrArg List.length hnil
  simp [nextBuffered, hsize, hhead, leNat_leBytes_of_lt hlt, checkFrameLen, hne,
    show ¬ file.length < payload.length by omega, hbody, accessEntry_encode hpay, Except.map,
    hlen, Nat.add_assoc]

theorem FramesAt.next_nil (h : FramesAt c file offset []) (buffer : ℕ → Bytes) :
    nextPositionalWith c file buffer offset = .ok none ∧
      nextSequential c file offset = .ok none ∧ nextBuffered c file offset = .ok none := by
  have hread : readAt file offset 4 = [] := by
    rw [readAt, h.drop_eq_nil, List.take_nil]
  simp [nextPositionalWith, nextSequential, nextBuffered, readExactAt, readExact, hread]

/-- The positional readers deliver the entries, whatever their buffer held. -/
theorem FramesAt.reads_positional (h : FramesAt c file offset es) (buffer : ℕ → Bytes) :
    Reads (nextPositionalWith c file buffer) offset es (.ok ()) := by
  induction es generalizing offset with
  | nil => exact .done (h.next_nil buffer).1
  | cons e es ih => exact .item (h.nextPositionalWith_cons buffer) (ih h.tail)

/-- The sequential reader delivers the entries. -/
theorem FramesAt.reads_sequential (h : FramesAt c file offset es) :
    Reads (nextSequential c file) offset es (.ok ()) := by
  induction es generalizing offset with
  | nil => exact .done (h.next_nil fun _ => []).2.1
  | cons e es ih => exact .item h.nextSequential_cons (ih h.tail)

/-- The sequential reader delivers the entries at their offsets. -/
theorem FramesAt.reads_located (h : FramesAt c file offset es) :
    Reads (located (nextSequential c file)) offset (locate c offset es) (.ok ()) := by
  induction es generalizing offset with
  | nil => exact .done (by rw [located, (h.next_nil fun _ => []).2.1]; rfl)
  | cons e es ih => exact .item (by rw [located, h.nextSequential_cons]; rfl) (ih h.tail)

/-- The buffered reader delivers the entries. -/
theorem FramesAt.reads_buffered (h : FramesAt c file offset es) :
    Reads (nextBuffered c file) offset es (.ok ()) := by
  induction es generalizing offset with
  | nil => exact .done (h.next_nil fun _ => []).2.2
  | cons e es ih => exact .item h.nextBuffered_cons (ih h.tail)

end Minnal
