import Minnal.Library.ByteReads

/-!
# What the vector index stores

Beside the codes, the vector index stores the **meta** of a document (which postings hold its
chunks), the entries of the embedding **queue**, the rows of the **postings** and the records of the
maintenance **journal**. Each has a format of its own, and each decoder also reads the formats that
earlier versions wrote.

Decoders read the bytes with explicit bounds: where the code would index out of bounds, the model
panics. A text is a Lean string, and a float is the word of its bits.
-/

set_option linter.dupNamespace false

namespace Minnal

namespace StoredFormats

open ByteCodec Checks ByteReads

/-! ### The meta of a document -/

structure SparseMeta where
  text_hash : UInt64
  /-- The postings that hold the document's chunks, each with how many. -/
  postings : List (UInt32 × UInt32)
  deriving DecidableEq, Repr

/-- `text_hash (8B) ‖ n (2B) ‖ n × (posting_id (4B) ‖ chunks (4B))`, all big-endian. -/
def encode_sparse_meta (text_hash : UInt64) (postings : List (UInt32 × UInt32)) : List UInt8 :=
  beBytes 8 text_hash.toNat ++
    (beBytes 2 (postings.length % 2 ^ 16) ++
      postings.flatMap fun p => beBytes 4 p.1.toNat ++ beBytes 4 p.2.toNat)

/-- The chunk count of the posting at `off`, as wide as the format has it. -/
def readChunks (bytes : List UInt8) (width off : ℕ) : Except Stop ℕ :=
  if width = 8 then readBe bytes (off + 4) (off + 8)
  else if width = 6 then readBe bytes (off + 4) (off + 6)
  else .ok 0

/-- The loop over the postings, each of `width` bytes. -/
def readPostings (bytes : List UInt8) (width : ℕ) : ℕ → ℕ → Except Stop (List (UInt32 × UInt32))
  | 0, _ => .ok []
  | n + 1, off => do
    let id ← readBe bytes off (off + 4)
    let chunks ← readChunks bytes width off
    let rest ← readPostings bytes width n (off + width)
    return (UInt32.ofNat id, UInt32.ofNat chunks) :: rest

/-- The width of a posting, from the length of `n` of them. -/
def postingWidth (length n : ℕ) : Except Stop ℕ :=
  if length = n * 8 then .ok 8
  else if length = n * 6 then .ok 6
  else if length = n * 4 then .ok 4
  else .error .absent

def decode_sparse_meta (bytes : List UInt8) : Except Stop SparseMeta := do
  refuse (bytes.length < 10) .absent
  let text_hash ← readBe bytes 0 8
  let count ← readBe bytes 8 10
  let width ← postingWidth (bytes.length - 10) count
  let postings ← readPostings bytes width count 10
  return ⟨UInt64.ofNat text_hash, postings⟩

/-! ### The embedding queue -/

inductive QueueEntryKind where
  | Embed
  | Clear
  deriving DecidableEq, Repr

structure QueueValue where
  kind : QueueEntryKind
  text : String
  retry_count : UInt32
  last_error : Option String
  deriving DecidableEq, Repr

def QUEUE_VALUE_V1 : UInt8 := 0x01
def QUEUE_VALUE_V2 : UInt8 := 0x02
def QUEUE_VALUE_VERSION : UInt8 := 0x03
def KIND_EMBED : UInt8 := 0
def KIND_CLEAR : UInt8 := 1

def QueueEntryKind.byte : QueueEntryKind → UInt8
  | .Embed => KIND_EMBED
  | .Clear => KIND_CLEAR

def QueueEntryKind.ofByte (b : UInt8) : Option QueueEntryKind :=
  if b = KIND_EMBED then some .Embed else if b = KIND_CLEAR then some .Clear else none

/-- What the second and the third version share:
`retry_count (4B) ‖ error_len (4B) ‖ error ‖ text`. -/
def encodeTail (retry_count : UInt32) (error text : List UInt8) : List UInt8 :=
  beBytes 4 retry_count.toNat ++ (beBytes 4 (error.length % 2 ^ 32) ++ (error ++ text))

def encode_queue_value (kind : QueueEntryKind) (text : String) (retry_count : UInt32)
    (last_error : Option String) : List UInt8 :=
  QUEUE_VALUE_VERSION :: kind.byte ::
    encodeTail retry_count (utf8 (last_error.getD "")) (utf8 text)

def decodeTail (kind : QueueEntryKind) (tail : List UInt8) : Except Stop QueueValue := do
  refuse (tail.length < 8) .absent
  let retry_count ← readBe tail 0 4
  let error_len ← readBe tail 4 8
  refuse (tail.length < 8 + error_len) .absent
  let error ← slice tail 8 (8 + error_len)
  let last_error ← (if 0 < error_len then (orAbsent (fromUtf8 error)).map some else .ok none :
    Except Stop (Option String))
  let rest ← slice tail (8 + error_len) tail.length
  let text ← orAbsent (fromUtf8 rest)
  return ⟨kind, text, UInt32.ofNat retry_count, last_error⟩

/-- The first version: `0x01 ‖ retry_count (4B) ‖ text`. -/
def decodeV1 (value : List UInt8) : Except Stop QueueValue := do
  refuse (value.length < 5) .absent
  let retry_count ← readBe value 1 5
  let rest ← slice value 5 value.length
  let text ← orAbsent (fromUtf8 rest)
  return ⟨.Embed, text, UInt32.ofNat retry_count, none⟩

def decode_queue_value (value : List UInt8) : Except Stop QueueValue := do
  let version ← get value 0
  if version = QUEUE_VALUE_V1 then decodeV1 value
  else if version = QUEUE_VALUE_V2 then do
    let tail ← slice value 1 value.length
    decodeTail .Embed tail
  else if version = QUEUE_VALUE_VERSION then do
    let b ← get value 1
    let kind ← orAbsent (QueueEntryKind.ofByte b)
    let tail ← slice value 2 value.length
    decodeTail kind tail
  else .error .absent

/-- `namespace_len (2B) ‖ namespace ‖ doc_id`. -/
def queue_key (ns : String) (doc_id_bytes : List UInt8) : List UInt8 :=
  beBytes 2 ((utf8 ns).length % 2 ^ 16) ++ (utf8 ns ++ doc_id_bytes)

def decode_queue_key (key : List UInt8) : Except Stop (String × List UInt8) := do
  refuse (key.length < 2) .absent
  let b0 ← index key 0
  let b1 ← index key 1
  let ns_len := beNat [b0, b1]
  refuse (key.length < 2 + ns_len) .absent
  let nsBytes ← slice key 2 (2 + ns_len)
  let ns ← orAbsent (fromUtf8 nsBytes)
  let doc_id ← slice key (2 + ns_len) key.length
  return (ns, doc_id)

/-! ### The rows of the postings -/

inductive PostingState where
  | Active
  | Draining
  | Retired
  deriving DecidableEq, Repr

def PostingState.byte : PostingState → UInt8
  | .Active => 0
  | .Draining => 1
  | .Retired => 2

def PostingState.from_byte (b : UInt8) : Option PostingState :=
  if b = 0 then some .Active else if b = 1 then some .Draining
  else if b = 2 then some .Retired else none

inductive PostingOrigin where
  | Root
  | Seed
  | Split
  | Rebuild
  deriving DecidableEq, Repr

def PostingOrigin.byte : PostingOrigin → UInt8
  | .Root => 0
  | .Seed => 1
  | .Split => 2
  | .Rebuild => 3

def PostingOrigin.from_byte (b : UInt8) : Option PostingOrigin :=
  if b = 0 then some .Root else if b = 1 then some .Seed
  else if b = 2 then some .Split else if b = 3 then some .Rebuild else none

structure Posting where
  posting_id : UInt32
  /-- The bits of the floats. -/
  routing_centroid : List UInt32
  centre_id : UInt32
  state : PostingState
  parent_id : Option UInt32
  origin : PostingOrigin
  deriving DecidableEq, Repr

/-- A posting as seeded from a centroid file. -/
def Posting.seeded (posting_id : UInt32) (routing_centroid : List UInt32) (centre_id : UInt32) :
    Posting :=
  ⟨posting_id, routing_centroid, centre_id, .Active, none, .Seed⟩

def POSTING_ROW_V2 : UInt8 := 0xb2

/-- The parent id that stands for none. -/
def noParent : UInt32 := 0xffffffff

def f32s_to_bytes (v : List UInt32) : List UInt8 := v.flatMap fun x => leBytes 4 x.toNat

def bytes_to_f32s (b : List UInt8) : Option (List UInt32) :=
  if b.length % 4 = 0 then some ((chunksOf4 b).map fun word => UInt32.ofNat (leNat word)) else none

/-- The centroid a row keeps: a retired posting is written without it. -/
def Posting.storedCentroid (p : Posting) : List UInt32 :=
  if p.state = .Retired then [] else p.routing_centroid

/-- `0xB2 ‖ centre_id (4B) ‖ state (1B) ‖ parent_id (4B) ‖ origin (1B) ‖ routing centroid`. -/
def encode_posting (p : Posting) : List UInt8 :=
  POSTING_ROW_V2 ::
    (beBytes 4 p.centre_id.toNat ++
      (p.state.byte ::
        (beBytes 4 (p.parent_id.getD noParent).toNat ++
          (p.origin.byte :: f32s_to_bytes p.storedCentroid))))

/-- The current form of a row. -/
def decodeRow (posting_id : UInt32) (v : List UInt8) : Except Stop Posting := do
  let parent ← readBe v 6 10
  let centre_id ← readBe v 1 5
  let stateByte ← index v 5
  let state ← orAbsent (PostingState.from_byte stateByte)
  let originByte ← index v 10
  let origin ← orAbsent (PostingOrigin.from_byte originByte)
  let floats ← slice v 11 v.length
  let routing_centroid ← orAbsent (bytes_to_f32s floats)
  return ⟨posting_id, routing_centroid, UInt32.ofNat centre_id, state,
    if UInt32.ofNat parent ≠ noParent then some (UInt32.ofNat parent) else none, origin⟩

/-- The form of the rows that were seeded: `centre_id (4B) ‖ state (1B) ‖ centroid`. -/
def decodeSeedRow (posting_id : UInt32) (v : List UInt8) : Except Stop Posting := do
  let floats ← slice v 5 v.length
  let routing_centroid ← orAbsent (bytes_to_f32s floats)
  let centre_id ← readBe v 0 4
  let stateByte ← index v 4
  let state ← orAbsent (PostingState.from_byte stateByte)
  return { Posting.seeded posting_id routing_centroid (UInt32.ofNat centre_id) with state := state }

def decode_posting (posting_id : UInt32) (v : List UInt8) : Except Stop Posting :=
  if 11 ≤ v.length ∧ v[0]? = some POSTING_ROW_V2 ∧ (v.length - 11) % 4 = 0 then
    decodeRow posting_id v
  else if 5 ≤ v.length ∧ (v.length - 5) % 4 = 0 then decodeSeedRow posting_id v
  else .error .absent

/-! ### The journal -/

inductive JournalState where
  | Planned
  | Published
  | Copied
  deriving DecidableEq, Repr

def JournalState.byte : JournalState → UInt8
  | .Planned => 1
  | .Published => 2
  | .Copied => 3

def JournalState.ofByte (b : UInt8) : Option JournalState :=
  if b = 1 then some .Planned else if b = 2 then some .Published
  else if b = 3 then some .Copied else none

/-- A maintenance operation as the journal stores it. -/
inductive Op where
  | Split (posting centre₁ centre₂ child₁ child₂ : UInt32)
  | Merge (posting kept : UInt32)
  | Reassign (parent parent_centre child₁ child₂ : UInt32) (scope : List UInt32)
  | Rebuild (first_centre first_posting postings : UInt32) (drained : List UInt32)
  deriving DecidableEq, Repr

structure Record where
  state : JournalState
  op : Op
  deriving DecidableEq, Repr

def RECORD_VERSION : UInt8 := 1
def KIND_SPLIT : UInt8 := 0
def KIND_MERGE : UInt8 := 1
def KIND_REASSIGN : UInt8 := 2
def KIND_REBUILD : UInt8 := 3

/-- The kind byte of an operation, and its ids. -/
def Op.parts : Op → UInt8 × List UInt32
  | .Split posting centre₁ centre₂ child₁ child₂ =>
    (KIND_SPLIT, [posting, centre₁, centre₂, child₁, child₂])
  | .Merge posting kept => (KIND_MERGE, [posting, kept])
  | .Reassign parent parent_centre child₁ child₂ scope =>
    (KIND_REASSIGN, [parent, parent_centre, child₁, child₂] ++ scope)
  | .Rebuild first_centre first_posting postings drained =>
    (KIND_REBUILD, [first_centre, first_posting, postings] ++ drained)

/-- `version ‖ kind ‖ state ‖ ids`, ids of four bytes. -/
def Record.encode (r : Record) : List UInt8 :=
  RECORD_VERSION :: r.op.parts.1 :: r.state.byte ::
    r.op.parts.2.flatMap fun id => beBytes 4 id.toNat

/-- The operation of a kind over ids. -/
def Op.ofParts (kind : UInt8) (ids : List UInt32) : Option Op :=
  if kind = KIND_SPLIT then
    match ids with
    | [posting, centre₁, centre₂, child₁, child₂] =>
      some (.Split posting centre₁ centre₂ child₁ child₂)
    | _ => none
  else if kind = KIND_MERGE then
    match ids with
    | [posting, kept] => some (.Merge posting kept)
    | _ => none
  else if kind = KIND_REASSIGN then
    match ids with
    | parent :: parent_centre :: child₁ :: child₂ :: scope =>
      some (.Reassign parent parent_centre child₁ child₂ scope)
    | _ => none
  else if kind = KIND_REBUILD then
    match ids with
    | first_centre :: first_posting :: postings :: drained =>
      some (.Rebuild first_centre first_posting postings drained)
    | _ => none
  else none

def Record.decode (v : List UInt8) : Except Stop Record := do
  refuse (v.length < 3) .absent
  let version ← index v 0
  refuse (version ≠ RECORD_VERSION ∨ (v.length - 3) % 4 ≠ 0) .absent
  let stateByte ← index v 2
  let state ← orAbsent (JournalState.ofByte stateByte)
  let words ← slice v 3 v.length
  let ids := (chunksOf4 words).map fun word => UInt32.ofNat (beNat word)
  let kind ← index v 1
  let op ← orAbsent (Op.ofParts kind ids)
  return ⟨state, op⟩

end StoredFormats

end Minnal
