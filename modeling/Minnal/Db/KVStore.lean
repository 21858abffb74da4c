import Minnal.Lsm.Read
import Minnal.Library.StepRun
import Minnal.ValueLog.Segments

/-!
# A namespace's key-value store

A store keeps the keys in an LSM tree and the values in value logs, one log for each **bucket** of
keys. The tree's value for a key is the pointer to the value's record: its bucket, segment,
offset and length, packed into 128 bits.

A write appends its record, inserts the pointer into the tree under the write's sequence, and
accounts for the record that is garbage from then on: the one it displaced, or its own if the
tree already holds a newer copy. Writes carry their sequences from outside, and the recovery
replays logged writes under the sequences they had. Field indices, which the writes also
maintain, are not part of this model.
-/

set_option linter.dupNamespace false

namespace Minnal

open ByteCodec LastWrite ValueLog

/-! ### Pointers -/

/-- A value's full address. -/
structure ShardedValuePointer where
  bucket : ℕ
  location : ValueLocation
  deriving DecidableEq, Repr

namespace ShardedValuePointer

def toU128 (p : ShardedValuePointer) : ℕ :=
  p.bucket * 2 ^ 96 + p.location.segmentId * 2 ^ 64 + p.location.recOffset * 2 ^ 32 +
    p.location.valueLen

def fromU128 (encoded : ℕ) : ShardedValuePointer where
  bucket := encoded / 2 ^ 96 % 2 ^ 32
  location :=
    { segmentId := encoded / 2 ^ 64 % 2 ^ 32
      recOffset := encoded / 2 ^ 32 % 2 ^ 32
      valueLen := encoded % 2 ^ 32 }

/-- Bytes of the record this points at. -/
def recordLen (p : ShardedValuePointer) (keyLen : ℕ) : ℕ :=
  ValueRecordHeader.recordLen keyLen p.location.valueLen

/-- The fields fit their 32 bits. -/
def Fits (p : ShardedValuePointer) : Prop :=
  p.bucket < 2 ^ 32 ∧ p.location.segmentId < 2 ^ 32 ∧ p.location.recOffset < 2 ^ 32 ∧
    p.location.valueLen < 2 ^ 32

/-- A pointer is unpacked as it was packed. -/
theorem fromU128_toU128 {p : ShardedValuePointer} (h : p.Fits) : fromU128 p.toU128 = p := by
  obtain ⟨hbucket, hsegment, hoffset, hlen⟩ := h
  obtain ⟨bucket, segmentId, recOffset, valueLen⟩ := p
  simp only at hbucket hsegment hoffset hlen
  simp only [fromU128, toU128, mk.injEq, ValueLocation.mk.injEq]
  omega

end ShardedValuePointer

/-- The pointer a tree's value stands for; segment 0 is no value. -/
def decodeShardedPointer (offset : ℕ) : Option ShardedValuePointer :=
  let p := ShardedValuePointer.fromU128 offset
  if p.location.segmentId ≠ 0 then some p else none

inductive KVError where
  | lsm (e : LSMError)
  | valueLog (e : ValueLogError)
  | invalidBucket (bucket : ℕ)
  deriving DecidableEq, Repr

/-- The store of a namespace. -/
structure KVStore where
  lsm : LSMTree
  /-- The value log of each bucket. -/
  logs : ℕ → ValueLog

namespace KVStore

variable (c : Crates)

def numBuckets (s : KVStore) : ℕ := s.lsm.config.numBuckets

def bucketForKey (s : KVStore) (key : Key) : ℕ := getBucketForKey c key s.numBuckets

/-! ### The sharded value log -/

/-- Replace one bucket's log. -/
def setLog (s : KVStore) (bucket : ℕ) (log : ValueLog) : KVStore :=
  { s with logs := Function.update s.logs bucket log }

def readRecordMeta (s : KVStore) (p : ShardedValuePointer) : Except KVError ValueRecordMeta :=
  if p.bucket < s.numBuckets then
    match (s.logs p.bucket).readRecordMeta p.location with
    | .ok info => .ok info
    | .error e => .error (.valueLog e)
  else .error (.invalidBucket p.bucket)

def appendToLockedBucket (s : KVStore) (bucket : ℕ) (r : Record) (sync : Bool) :
    Except KVError (KVStore × ShardedValuePointer) :=
  if bucket < s.numBuckets then
    match (s.logs bucket).append c.crc32 r sync with
    | .ok (log, location) => .ok (s.setLog bucket log, ⟨bucket, location⟩)
    | .error e => .error (.valueLog e)
  else .error (.invalidBucket bucket)

/-- A record's bytes become garbage. -/
def noteDisplaced (s : KVStore) (p : ShardedValuePointer) (keyLen : ℕ) : KVStore :=
  if p.bucket < s.numBuckets then
    s.setLog p.bucket ((s.logs p.bucket).noteDisplaced p.location keyLen)
  else s

/-! ### Writes -/

/-- The version of the record that replaces `displaced`. -/
def nextVersion (s : KVStore) (displaced : Option ShardedValuePointer) : UInt32 :=
  match displaced with
  | none => 1
  | some p =>
    match s.readRecordMeta p with
    -- saturating
    | .ok info => if info.version = 0xFFFFFFFF then info.version else info.version + 1
    | .error _ => 1

/-- A put: append the record, insert its pointer, account for what is garbage now. -/
def writeValue (s : KVStore) (key : Key) (value : Bytes) (seq epoch : UInt64) :
    KVStore × Except KVError Unit :=
  let bucket := s.bucketForKey c key
  match s.lsm.currentPointerAndWins c key seq.toNat with
  | .error e => (s, .error (.lsm e))
  | .ok (existing, wins) =>
    let displaced := existing.bind decodeShardedPointer
    let info : ValueRecordMeta := ⟨s.nextVersion displaced, epoch, seq⟩
    match s.appendToLockedBucket c bucket ⟨key, value, info⟩ false with
    | .error e => (s, .error e)
    | .ok (s, pointer) =>
      match s.lsm.insertWithSeq key pointer.toU128 seq.toNat with
      | (lsm, .error e) => ({ s with lsm := lsm }, .error (.lsm e))
      | (lsm, .ok ()) =>
        let s := { s with lsm := lsm }
        if wins then
          match displaced with
          | some old => (s.noteDisplaced old key.length, .ok ())
          | none => (s, .ok ())
        else (s.noteDisplaced pointer key.length, .ok ())

/-- Put a pair under an explicit sequence. -/
def putToStorageSeq (s : KVStore) (key : Key) (value : Bytes) (seq epoch : UInt64) :
    KVStore × Except KVError Unit :=
  s.writeValue c key value seq epoch

/-- Replay a logged put; the same steps. -/
def replayUpsert (s : KVStore) (key : Key) (value : Bytes) (seq epoch : UInt64) :
    KVStore × Except KVError Unit :=
  s.writeValue c key value seq epoch

/-- Tombstone a key and account for the record that is garbage now. -/
def deleteRecord (s : KVStore) (key : Key) (seq : UInt64)
    (displaced : Option ShardedValuePointer) : KVStore × Except KVError Unit :=
  match s.lsm.deleteWithSeq key seq.toNat with
  | (lsm, .error e) => ({ s with lsm := lsm }, .error (.lsm e))
  | (lsm, .ok ()) =>
    let s := { s with lsm := lsm }
    match displaced with
    | some old => (s.noteDisplaced old key.length, .ok ())
    | none => (s, .ok ())

/-- Delete a key under an explicit sequence; a delete that loses displaces nothing. -/
def deleteFromStorageSeq (s : KVStore) (key : Key) (seq : UInt64) :
    KVStore × Except KVError Unit :=
  match s.lsm.currentPointerAndWins c key seq.toNat with
  | .error e => (s, .error (.lsm e))
  | .ok (existing, wins) =>
    s.deleteRecord key seq (if wins then existing.bind decodeShardedPointer else none)

/-- Replay a logged delete; it does not ask whether it wins. -/
def replayDelete (s : KVStore) (key : Key) (seq : UInt64) : KVStore × Except KVError Unit :=
  let existing := match s.lsm.getWithSeq c key with
    | .ok (some x) => some x.1
    | _ => none
  s.deleteRecord key seq (existing.bind decodeShardedPointer)

/-! ### Calls -/

/-- The calls that write to a store. The time of a put is the environment's. -/
inductive Call where
  | putToStorageSeq (key : Key) (value : Bytes) (seq epoch : UInt64)
  | deleteFromStorageSeq (key : Key) (seq : UInt64)
  | replayUpsert (key : Key) (value : Bytes) (seq epoch : UInt64)
  | replayDelete (key : Key) (seq : UInt64)

def call (s : KVStore) : Call → KVStore × Except KVError Unit
  | .putToStorageSeq key value seq epoch => s.putToStorageSeq c key value seq epoch
  | .deleteFromStorageSeq key seq => s.deleteFromStorageSeq c key seq
  | .replayUpsert key value seq epoch => s.replayUpsert c key value seq epoch
  | .replayDelete key seq => s.replayDelete c key seq

/-- A call that returns Ok. -/
def step (s : KVStore) (a : Call) : Option KVStore :=
  match s.call c a with
  | (s', .ok ()) => some s'
  | (_, .error _) => none

end KVStore

end Minnal
