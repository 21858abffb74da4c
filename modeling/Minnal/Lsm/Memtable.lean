import Minnal.Lsm.Lookup

/-!
# The memtables

The active memtable is a skip list over three arenas. What a reader sees of it is the chain
at level 0: one record per key, in ascending key order, which is what `SkipList.records`
holds and its field `ascending` promises. The arenas appear through their lengths, since
these decide when an insert fails and when the memtable is due for a flush; the height of a
new node comes from the list's own xorshift generator, so that they are exact.

A write keeps the record of **highest sequence**: an equal one replaces, a lower one is
dropped (`copy_tryInsertWithSeq`, `copy_insertTombstoneWithSeq`). Sealing the memtable dumps
its records except one under the empty key, which the dump takes for the sentinel
(`collectKeyValueRecords`).
-/

set_option linter.dupNamespace false

namespace Minnal

open SortedMap LastWrite

/-! ### Skip list -/

def maxLevel : ℕ := 32

/-- The largest `u32`. -/
def u32Max : ℕ := 4294967295

inductive InsertError where
  | capacityExceeded
  deriving DecidableEq, Repr

/-- The next state, and output, of the xorshift generator. -/
def xorShift64Next (state : UInt64) : UInt64 :=
  let x := state ^^^ (state <<< 13)
  let x := x ^^^ (x >>> 7)
  x ^^^ (x <<< 17)

/-- Draw a node height: from `lvl` on, one level more for each odd draw. -/
def randomLevelFrom : ℕ → ℕ → UInt64 → ℕ × UInt64
  | 0, lvl, rng => (lvl, rng)
  | left + 1, lvl, rng =>
    let rng := xorShift64Next rng
    if rng &&& 1 = 0 then (lvl, rng) else randomLevelFrom left (lvl + 1) rng

/-- The skip list, as its level-0 chain and the sizes of its arenas. -/
structure SkipList where
  records : List KeyValueRecord
  nodesLen : ℕ
  linksLen : ℕ
  keysLen : ℕ
  noLiveNodes : ℕ
  noTombstoneNodes : ℕ
  rng : UInt64
  maxCapacity : ℕ
  ascending : Ascending KeyValueRecord.key records

namespace SkipList

def withCapacity (maxCapacity : ℕ) : SkipList where
  records := []
  nodesLen := 1
  linksLen := maxLevel
  keysLen := 0
  noLiveNodes := 0
  noTombstoneNodes := 0
  rng := 0x9E3779B97F4A7C15
  maxCapacity := maxCapacity
  ascending := ascending_nil

/-- The record of a key, tombstones included. -/
def entry (sl : SkipList) (key : Key) : Option KeyValueRecord :=
  findBy KeyValueRecord.key key sl.records

/-- The copy of a key the list holds. -/
def copy (sl : SkipList) (key : Key) : Candidate := (sl.entry key).map KeyValueRecord.copy

/-- Put a record at its key. -/
def setRecord (sl : SkipList) (record : KeyValueRecord) : SkipList :=
  { sl with
    records := upsertBy KeyValueRecord.key record.key (fun _ => record) sl.records
    ascending := sl.ascending.upsertBy fun _ _ => rfl }

/-- Allocate a node with a freshly drawn height and link it in. `false` when an arena is
full, after the links arena may already have grown. -/
def spliceNewNode (sl : SkipList) (record : KeyValueRecord) : SkipList × Bool :=
  let (height, rng) := randomLevelFrom (maxLevel - 1) 1 sl.rng
  let sl := { sl with rng := rng }
  if u32Max ≤ sl.linksLen + height then (sl, false)
  else
    let sl := { sl with linksLen := sl.linksLen + height }
    if u32Max ≤ sl.keysLen + record.key.length then (sl, false)
    else
      ({ sl.setRecord record with
        keysLen := sl.keysLen + record.key.length
        nodesLen := sl.nodesLen + 1 }, true)

/-- Insert or update with an explicit sequence; a stale write is dropped. -/
def tryInsertWithSeq (sl : SkipList) (key : Key) (value seq : ℕ) :
    SkipList × Except InsertError (Option ℕ) :=
  let record : KeyValueRecord := ⟨key, value, false, seq⟩
  match sl.entry key with
  | some node =>
    if seqNewerOrEq seq node.seq = false then (sl, .ok none)
    else if node.tombstone then
      ({ sl.setRecord record with
        noTombstoneNodes := sl.noTombstoneNodes - 1
        noLiveNodes := sl.noLiveNodes + 1 }, .ok none)
    else (sl.setRecord record, .ok (some node.value))
  | none =>
    match sl.spliceNewNode record with
    | (sl, false) => (sl, .error .capacityExceeded)
    | (sl, true) => ({ sl with noLiveNodes := sl.noLiveNodes + 1 }, .ok none)

/-- Record a tombstone with an explicit sequence; a stale delete is dropped. -/
def insertTombstoneWithSeq (sl : SkipList) (key : Key) (seq : ℕ) :
    SkipList × Except InsertError Unit :=
  match sl.entry key with
  | some node =>
    if seqNewerOrEq seq node.seq = false then (sl, .ok ())
    else
      let next := sl.setRecord ⟨key, node.value, true, seq⟩
      if node.tombstone then (next, .ok ())
      else
        ({ next with
          noLiveNodes := sl.noLiveNodes - 1
          noTombstoneNodes := sl.noTombstoneNodes + 1 }, .ok ())
  | none =>
    match sl.spliceNewNode ⟨key, 0, true, seq⟩ with
    | (sl, false) => (sl, .error .capacityExceeded)
    | (sl, true) => ({ sl with noTombstoneNodes := sl.noTombstoneNodes + 1 }, .ok ())

/-- All records but the one of the empty key, in key order. -/
def collectKeyValueRecords (sl : SkipList) : List KeyValueRecord :=
  sl.records.filter fun r => r.key.length ≠ 0

def canAllocNodeFor (sl : SkipList) (keyLen height : ℕ) : Bool :=
  decide (sl.nodesLen < u32Max) && decide (sl.linksLen + height < u32Max) &&
    decide (sl.keysLen + keyLen < u32Max)

def canInsertKey (sl : SkipList) (keyLen : ℕ) : Bool := sl.canAllocNodeFor keyLen maxLevel

def arenasHalfFull (sl : SkipList) : Bool :=
  let half := u32Max / 2
  decide (half ≤ sl.nodesLen) || decide (half ≤ sl.linksLen) || decide (half ≤ sl.keysLen)

/-! ### What a write does -/

theorem entry_setRecord (sl : SkipList) (r : KeyValueRecord) (k : Key) :
    (sl.setRecord r).entry k = if k = r.key then some r else sl.entry k :=
  findBy_upsertBy (fun _ _ => rfl) sl.ascending k

theorem copy_setRecord (sl : SkipList) (r : KeyValueRecord) (k : Key) :
    (sl.setRecord r).copy k = if k = r.key then some r.copy else sl.copy k := by
  rw [copy, entry_setRecord]
  split_ifs <;> rfl

/-- A new node either holds its record or, the arenas being full, nothing changed. -/
theorem copy_spliceNewNode (sl : SkipList) (r : KeyValueRecord) (k : Key) :
    ((sl.spliceNewNode r).1.copy k =
      if (sl.spliceNewNode r).2 = true ∧ k = r.key then some r.copy else sl.copy k) := by
  unfold spliceNewNode
  simp only
  by_cases hlinks : u32Max ≤ sl.linksLen + (randomLevelFrom (maxLevel - 1) 1 sl.rng).1
  · simp only [if_pos hlinks, Bool.false_eq_true, false_and, if_false]
    rfl
  by_cases hkeys : u32Max ≤ sl.keysLen + r.key.length
  · simp only [if_neg hlinks, if_pos hkeys, Bool.false_eq_true, false_and, if_false]
    rfl
  · simp only [if_neg hlinks, if_neg hkeys, true_and]
    exact copy_setRecord _ r k

/-- **Insert.** A successful insert keeps, at its key, the copy of highest sequence, an
equal one replacing; elsewhere, and when it fails, nothing changes. -/
theorem copy_tryInsertWithSeq (sl : SkipList) (key : Key) (value seq : ℕ) (k : Key) :
    (sl.tryInsertWithSeq key value seq).1.copy k =
      if k = key ∧ (sl.tryInsertWithSeq key value seq).2.isOk = true then
        newer (some (some value, seq)) (sl.copy key)
      else sl.copy k := by
  have hrecord : (⟨key, value, false, seq⟩ : KeyValueRecord).copy = (some value, seq) := rfl
  unfold tryInsertWithSeq
  cases hentry : sl.entry key with
  | some node =>
    have hcopy : sl.copy key = some node.copy := by rw [copy, hentry]; rfl
    have hseq : node.copy.2 = node.seq := rfl
    by_cases hstale : seq < node.seq
    · simp only [seqNewerOrEq, hstale.not_ge, decide_false, if_true, hcopy, newer_some_some,
        hseq, if_pos hstale]
      split_ifs with hk
      · rw [hk.1, hcopy]
      · rfl
    · have hset := copy_setRecord sl ⟨key, value, false, seq⟩ k
      simp only [seqNewerOrEq, not_lt.mp hstale, decide_true, Bool.true_eq_false, if_false, hcopy,
        newer_some_some, hseq, if_neg hstale]
      cases hdead : node.tombstone with
      | true => simpa [copy, entry, Except.isOk, Except.toBool, hrecord] using hset
      | false => simpa [copy, entry, Except.isOk, Except.toBool, hrecord] using hset
  | none =>
    have hnone : sl.copy key = none := by rw [copy, hentry]; rfl
    have hsplice := copy_spliceNewNode sl ⟨key, value, false, seq⟩ k
    cases hres : sl.spliceNewNode ⟨key, value, false, seq⟩ with
    | mk sl' ok =>
      rw [hres] at hsplice
      cases ok with
      | false => simpa [hres, Except.isOk, Except.toBool] using hsplice
      | true =>
        simp only [hres, hnone, newer_none, hrecord, true_and, Except.isOk, Except.toBool,
          and_true] at hsplice ⊢
        exact hsplice

/-- **Delete.** The same for a tombstone. -/
theorem copy_insertTombstoneWithSeq (sl : SkipList) (key : Key) (seq : ℕ) (k : Key) :
    (sl.insertTombstoneWithSeq key seq).1.copy k =
      if k = key ∧ (sl.insertTombstoneWithSeq key seq).2.isOk = true then
        newer (some (none, seq)) (sl.copy key)
      else sl.copy k := by
  have hrecord : ∀ v, (⟨key, v, true, seq⟩ : KeyValueRecord).copy = (none, seq) := fun _ => rfl
  unfold insertTombstoneWithSeq
  cases hentry : sl.entry key with
  | some node =>
    have hcopy : sl.copy key = some node.copy := by rw [copy, hentry]; rfl
    have hseq : node.copy.2 = node.seq := rfl
    by_cases hstale : seq < node.seq
    · simp only [seqNewerOrEq, hstale.not_ge, decide_false, if_true, hcopy, newer_some_some,
        hseq, if_pos hstale]
      split_ifs with hk
      · rw [hk.1, hcopy]
      · rfl
    · have hset := copy_setRecord sl ⟨key, node.value, true, seq⟩ k
      simp only [seqNewerOrEq, not_lt.mp hstale, decide_true, Bool.true_eq_false, if_false, hcopy,
        newer_some_some, hseq, if_neg hstale]
      cases hdead : node.tombstone with
      | true => simpa [copy, entry, Except.isOk, Except.toBool, hrecord] using hset
      | false => simpa [copy, entry, Except.isOk, Except.toBool, hrecord] using hset
  | none =>
    have hnone : sl.copy key = none := by rw [copy, hentry]; rfl
    have hsplice := copy_spliceNewNode sl ⟨key, 0, true, seq⟩ k
    cases hres : sl.spliceNewNode ⟨key, 0, true, seq⟩ with
    | mk sl' ok =>
      rw [hres] at hsplice
      cases ok with
      | false => simpa [hres, Except.isOk, Except.toBool] using hsplice
      | true =>
        simp only [hnone, newer_none, hrecord, true_and, Except.isOk, Except.toBool,
          and_true] at hsplice ⊢
        exact hsplice

theorem ascending_collectKeyValueRecords (sl : SkipList) :
    Ascending KeyValueRecord.key sl.collectKeyValueRecords :=
  sl.ascending.filter _

end SkipList

/-! ### Memtables -/

/-- Whether the memtable should be flushed: its share of the capacity has reached the
threshold, a 256-byte key no longer fits, or an arena is half full. -/
def SkipList.shouldFlush (sl : SkipList) (thresholdPercent : ℕ) : Bool :=
  let totalNodes := sl.noLiveNodes + sl.noTombstoneNodes
  let usagePercent := totalNodes * 100 / sl.maxCapacity
  decide (thresholdPercent ≤ usagePercent) || !sl.canInsertKey 256 || sl.arenasHalfFull

/-- A sealed memtable waiting for its flush, or kept until the next compaction after it. -/
structure ReadOnlyMemTable where
  records : List KeyValueRecord
  version : ℕ
  readerCount : ℕ
  flushedToLevel0 : Bool
  ascending : Ascending KeyValueRecord.key records

namespace ReadOnlyMemTable

/-- Seal a skip list. -/
def ofSkipList (sl : SkipList) (version : ℕ) : ReadOnlyMemTable where
  records := sl.collectKeyValueRecords
  version := version
  readerCount := 0
  flushedToLevel0 := false
  ascending := sl.ascending_collectKeyValueRecords

/-- The record of a key: a binary search of the sorted dump. -/
def find (ro : ReadOnlyMemTable) (key : Key) : Option KeyValueRecord :=
  findBy KeyValueRecord.key key ro.records

/-- The copy of a key the sealed memtable holds. -/
def copy (ro : ReadOnlyMemTable) (key : Key) : Candidate := (ro.find key).map KeyValueRecord.copy

/-- Sealing keeps the copy of every key but the empty one. -/
theorem copy_ofSkipList (sl : SkipList) (version : ℕ) (key : Key) :
    (ofSkipList sl version).copy key = if key = [] then none else sl.copy key := by
  have hfind : (ofSkipList sl version).find key =
      (sl.entry key).filter fun r => r.key.length ≠ 0 :=
    findBy_filter sl.ascending _ key
  rw [copy, hfind, SkipList.copy]
  cases hentry : sl.entry key with
  | none => simp
  | some r =>
    have hkey : r.key = key := (mem_of_findBy_eq_some hentry).2
    by_cases hnil : key = []
    · simp [Option.filter, hkey, hnil]
    · simp [Option.filter, hkey, hnil]

end ReadOnlyMemTable

end Minnal
