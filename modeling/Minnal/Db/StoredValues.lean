import Minnal.Db.GarbageAccounting

/-!
# Every live key has its record

A read asks the tree for the key's pointer and the value log for the record there. That the two
fit together is one invariant of the store: **whatever the tree answers for a key is the pointer
of a record that was stored, for that key, in the pointer's log** (`Stored`). Then a read of a
live key succeeds (`Stored.get_eq`), and the invariant is kept by every write and replay
(`Stored.step`).
-/

set_option linter.dupNamespace false

namespace Minnal

open ByteCodec LastWrite ValueLog SortedMap StepRun

/-! ### Reading a value -/

/-- The errors a read tries again after: the tree's, and a segment that is gone. -/
def KVError.retryable : KVError → Bool
  | .lsm _ => true
  | .valueLog (.segmentMissing _) => true
  | _ => false

variable {key : Key} {p : ShardedValuePointer}

namespace KVStore

variable (c : Crates)

/-- How often a read re-resolves its key before it takes the bucket's lock. -/
def maxReadAttempts : ℕ := 8

def readValue (s : KVStore) (p : ShardedValuePointer) : Except KVError Bytes :=
  if p.bucket < s.numBuckets then
    match (s.logs p.bucket).readValueAndMeta c.crc32 p.location with
    | .ok x => .ok x.1
    | .error e => .error (.valueLog e)
  else .error (.invalidBucket p.bucket)

/-- Resolve a key and read its value. -/
def resolveAndRead (s : KVStore) (key : Key) : Except KVError (Option Bytes) :=
  match s.lsm.getWithSeq c key with
  | .error e => .error (.lsm e)
  | .ok none => .ok none
  | .ok (some x) =>
    match decodeShardedPointer x.1 with
    | none => .ok none
    | some p => (s.readValue c p).map some

/-- Read a key's value, with so many attempts left before the one under the bucket's lock. -/
def getInner (s : KVStore) (key : Key) : ℕ → Except KVError (Option Bytes)
  | 0 => s.resolveAndRead c key
  | attempts + 1 =>
    match s.resolveAndRead c key with
    | .ok value => .ok value
    | .error e => if e.retryable then s.getInner key attempts else .error e

def get (s : KVStore) (key : Key) : Except KVError (Option Bytes) :=
  s.getInner c key maxReadAttempts

/-! ### The invariant -/

/-- A bucket's log holds a record, for its key, wherever the tree points into the bucket, and the
places of its records fit the fields of a pointer. -/
def Backed (s : KVStore) (bucket : ℕ) : Prop :=
  ∃ contents stored, LogHolds c.crc32 (s.logs bucket) contents stored ∧
    (∀ x ∈ stored, x.2.recOffset < 2 ^ 32 ∧ x.2.valueLen < 2 ^ 32) ∧
    ∀ key p, s.pointer c key = some p → p.bucket = bucket →
      ∃ r : Record, r.key = key ∧ (r, p.location) ∈ stored

/-- **What a store keeps**: whatever the tree answers is the pointer of a stored record. -/
structure Stored (s : KVStore) : Prop where
  sound : s.lsm.Sound c
  /-- Only the active memtable may hold the empty key. -/
  noEmpty : resolve (s.lsm.lowerLayers c []) = none
  buckets : s.numBuckets ≤ 2 ^ 32
  decoded : ∀ key x, live (s.lsm.winner c key) = some x →
    ∃ p, decodeShardedPointer x.1 = some p ∧ p.bucket < s.numBuckets
  backed : ∀ b < s.numBuckets, s.Backed c b

variable {c} {s : KVStore}

theorem getInner_eq (s : KVStore) (key : Key) (attempts : ℕ) :
    s.getInner c key attempts = s.resolveAndRead c key := by
  induction attempts with
  | zero => rfl
  | succ attempts ih =>
    rw [getInner, ih]
    rcases s.resolveAndRead c key with e | value
    · exact ite_self _
    · rfl

/-- A live key is one the tree has a pointer for. -/
theorem Stored.pointer_eq_none (h : s.Stored c) :
    s.pointer c key = none ↔ live (s.lsm.winner c key) = none := by
  rw [pointer]
  rcases hlive : live (s.lsm.winner c key) with _ | x
  · simp
  · obtain ⟨p, hp, -⟩ := h.decoded key x hlive
    simp [hp]

theorem Stored.pointer_bucket (h : s.Stored c) (hp : s.pointer c key = some p) :
    p.bucket < s.numBuckets := by
  obtain ⟨x, hlive, hx⟩ := Option.bind_eq_some_iff.mp hp
  obtain ⟨q, hq, hbucket⟩ := h.decoded key x hlive
  rwa [← Option.some.inj (hq.symm.trans hx)]

/-- The pointer of a live key is readable. -/
theorem Stored.readValue (h : s.Stored c) (hp : s.pointer c key = some p) :
    ∃ v, s.readValue c p = .ok v := by
  have hbucket := h.pointer_bucket hp
  obtain ⟨contents, stored, hholds, -, hbacked⟩ := h.backed p.bucket hbucket
  obtain ⟨r, -, hr⟩ := hbacked key p hp rfl
  refine ⟨r.value, ?_⟩
  rw [KVStore.readValue, if_pos hbucket, hholds.toDirHolds.readValueAndMeta hr]

/-- **Reads.** A key without a pointer is absent, and one with a pointer has the value there. -/
theorem Stored.get_eq (h : s.Stored c) (key : Key) :
    s.get c key = match s.pointer c key with
      | none => .ok none
      | some p => (s.readValue c p).map some := by
  rw [get, getInner_eq, resolveAndRead, LSMTree.getWithSeq_eq h.sound, pointer]
  rcases hlive : live (s.lsm.winner c key) with _ | x
  · rfl
  · obtain ⟨p, hp, -⟩ := h.decoded key x hlive
    simp only [hp, Option.bind_some]

end KVStore

/-! ### What a write changes -/

namespace ValueLog

variable {crc32 : List UInt8 → UInt32} {log : ValueLog} {contents : ℕ → List Record}
  {stored : List (Record × ValueLocation)}

/-- Where an append puts a record: in the tail or the next segment, within the segment's size. -/
theorem LogHolds.append_location (h : LogHolds crc32 log contents stored) {r : Record} {sync : Bool}
    {log' : ValueLog} {location : ValueLocation}
    (happ : log.append crc32 r sync = .ok (log', location)) :
    location.segmentId ≠ 0 ∧ location.segmentId ≤ log.nextSegmentId ∧
      location.recOffset < 2 ^ 32 ∧ location.valueLen < 2 ^ 32 := by
  obtain ⟨file, hfile, -⟩ := h.active
  have hactive := (Dir.file_eq_some_iff h.ascending).mp hfile
  have hpos : 0 < log.activeId := h.pos _ hactive
  have hlt : log.activeId < log.nextSegmentId := h.ids_lt _ hactive
  have hsize := h.size_lt
  have hvalue : r.value.length ≤ r.len := by
    rw [Record.len, ValueRecordHeader.recordLen]
    omega
  rw [ValueLog.append] at happ
  split_ifs at happ with hlarge
  obtain ⟨-, rfl⟩ := Prod.mk.inj (Except.ok.inj happ)
  simp only
  rw [ValueLog.makeRoom]
  split_ifs with hroom
  · have hnext : log.rollActiveSegment.activeId = log.nextSegmentId := rfl
    have hoffset : log.rollActiveSegment.activeOffset = segmentHeaderSize := rfl
    rw [hnext, hoffset]
    have hheader : segmentHeaderSize = 16 := rfl
    exact ⟨by omega, le_rfl, by omega, by omega⟩
  · exact ⟨by omega, by omega, by omega, by omega⟩

/-- Accounting moves no record. -/
theorem LogHolds.noteDisplaced (h : LogHolds crc32 log contents stored) (location : ValueLocation)
    (keyLen : ℕ) : LogHolds crc32 (log.noteDisplaced location keyLen) contents stored := by
  rw [ValueLog.noteDisplaced]
  split_ifs
  · exact h
  · exact { h.toDirHolds with
      size_lt := h.size_lt
      ids_lt := h.ids_lt
      next_pos := h.next_pos
      newest := h.newest
      active := h.active
      offset := h.offset }

end ValueLog

variable {s' : KVStore}

namespace KVStore

variable {c : Crates} {s : KVStore} {t : LSMTree} {k : Key}

/-- A seal answers nothing new. -/
theorem live_winner_flushIfDue (hempty : resolve (t.lowerLayers c []) = none) {x : ℕ × ℕ}
    (h : live (t.flushIfDue.winner c k) = some x) : live (t.winner c k) = some x := by
  rw [LSMTree.flushIfDue] at h
  split_ifs at h
  · rw [LSMTree.winner_flushMemtable] at h
    split_ifs at h with hk
    · rw [hk, hempty] at h
      cases h
    · exact h
  · exact h

/-- What the tree answers after a write it answered before, or it is what was written. -/
theorem live_winner_of_write {t' : LSMTree} (hempty : resolve (t.lowerLayers c []) = none)
    {x : Copy} (hwrite : ∀ k, t'.winner c k =
      if k = key then newer (some x) (t.flushIfDue.winner c key) else t.flushIfDue.winner c k)
    {y : ℕ × ℕ} (h : live (t'.winner c k) = some y) :
    live (t.winner c k) = some y ∨ (k = key ∧ live (some x) = some y) := by
  rw [hwrite] at h
  split_ifs at h with hk
  · rw [live_newer] at h
    split_ifs at h
    · exact .inr ⟨hk, h⟩
    · exact .inl (hk ▸ live_winner_flushIfDue hempty h)
  · exact .inl (live_winner_flushIfDue hempty h)

/-- **One write.** What the tree answers it answered before, or it is the new pointer of the key;
the logs hold what they held, and for the new pointer its record. -/
theorem Stored.of_write (h : s.Stored c) (key : Key) (o : Option ShardedValuePointer)
    (hsound : s'.lsm.Sound c) (hempty : resolve (s'.lsm.lowerLayers c []) = none)
    (hbuckets : s'.numBuckets = s.numBuckets)
    (hanswer : ∀ k x, live (s'.lsm.winner c k) = some x → live (s.lsm.winner c k) = some x ∨
      (k = key ∧ ∃ p, decodeShardedPointer x.1 = some p ∧ o = some p))
    (hbucket : ∀ p, o = some p → p.bucket < s.numBuckets)
    (hlogs : ∀ b contents stored, LogHolds c.crc32 (s.logs b) contents stored →
      ∃ contents' new, LogHolds c.crc32 (s'.logs b) contents' (stored ++ new) ∧
        (∀ x ∈ new, x.2.recOffset < 2 ^ 32 ∧ x.2.valueLen < 2 ^ 32) ∧
        ∀ p, o = some p → p.bucket = b → ∃ r : Record, r.key = key ∧ (r, p.location) ∈ new) :
    s'.Stored c := by
  refine ⟨hsound, hempty, hbuckets ▸ h.buckets, fun k x hx => ?_, fun b hb => ?_⟩
  · rw [hbuckets]
    rcases hanswer k x hx with hold | ⟨-, p, hp, ho⟩
    · exact h.decoded k x hold
    · exact ⟨p, hp, hbucket p ho⟩
  · obtain ⟨contents, stored, hholds, hfits, hbacked⟩ := h.backed b (hbuckets ▸ hb)
    obtain ⟨contents', new, hholds', hfits', hnew⟩ := hlogs b contents stored hholds
    refine ⟨contents', stored ++ new, hholds', fun x hx => ?_, fun k p hp hpb => ?_⟩
    · exact (List.mem_append.mp hx).elim (hfits x) (hfits' x)
    obtain ⟨x, hx, hxp⟩ := Option.bind_eq_some_iff.mp hp
    rcases hanswer k x hx with hold | ⟨hk, q, hq, ho⟩
    · obtain ⟨r, hkey, hr⟩ := hbacked k p (Option.bind_eq_some_iff.mpr ⟨x, hold, hxp⟩) hpb
      exact ⟨r, hkey, List.mem_append_left _ hr⟩
    · obtain rfl := Option.some.inj (hq.symm.trans hxp)
      obtain ⟨r, hkey, hr⟩ := hnew q ho hpb
      exact ⟨r, hkey.trans hk.symm, List.mem_append_right _ hr⟩

/-- An append to a bucket's log: the pointer fits its fields, and the log holds the record. -/
theorem Stored.appendToLockedBucket (h : s.Stored c) {bucket : ℕ} {r : Record} {sync : Bool}
    (hids : (s.logs bucket).nextSegmentId < 2 ^ 32)
    (happ : s.appendToLockedBucket c bucket r sync = .ok (s', p)) :
    s'.lsm = s.lsm ∧ p.bucket = bucket ∧ bucket < s.numBuckets ∧ p.Fits ∧
      p.location.segmentId ≠ 0 ∧
      ∀ b contents stored, LogHolds c.crc32 (s.logs b) contents stored →
        ∃ contents' new, LogHolds c.crc32 (s'.logs b) contents' (stored ++ new) ∧
          (∀ x ∈ new, x.2.recOffset < 2 ^ 32 ∧ x.2.valueLen < 2 ^ 32) ∧
          (p.bucket = b → (r, p.location) ∈ new) := by
  rw [KVStore.appendToLockedBucket] at happ
  split_ifs at happ with hbucket
  obtain ⟨_, _, hholds, -⟩ := h.backed bucket hbucket
  cases hlog : (s.logs bucket).append c.crc32 r sync with
  | error e =>
    rw [hlog] at happ
    cases happ
  | ok x =>
    obtain ⟨log, location⟩ := x
    rw [hlog] at happ
    obtain ⟨rfl, rfl⟩ := Prod.mk.inj (Except.ok.inj happ)
    obtain ⟨hpos, hle, hoffset, hlen⟩ := hholds.append_location hlog
    refine ⟨rfl, rfl, hbucket, ⟨hbucket.trans_le h.buckets, hle.trans_lt hids, hoffset, hlen⟩, hpos,
      fun b contents' stored' hholds' => ?_⟩
    by_cases hb : b = bucket
    · subst hb
      obtain ⟨contents'', happended⟩ := hholds'.append hlog
      refine ⟨contents'', [(r, location)], ?_, fun x hx => ?_, fun _ => List.mem_singleton_self _⟩
      swap
      · rw [List.mem_singleton.mp hx]
        exact ⟨hoffset, hlen⟩
      simpa only [setLog, Function.update_self] using happended
    · refine ⟨contents', [], ?_, by simp, fun hb' => absurd (Eq.symm hb') hb⟩
      simpa only [setLog, Function.update_of_ne hb, List.append_nil] using hholds'

variable {b : ℕ} {contents : ℕ → List Record} {stored : List (Record × ValueLocation)}

/-- Displacing a record moves none. -/
theorem noteDisplaced_logs (h : LogHolds c.crc32 (s.logs b) contents stored)
    (p : ShardedValuePointer) (keyLen : ℕ) :
    LogHolds c.crc32 ((s.noteDisplaced p keyLen).logs b) contents stored := by
  rw [noteDisplaced]
  split_ifs
  · by_cases hb : b = p.bucket
    · subst hb
      simpa only [setLog, Function.update_self] using h.noteDisplaced _ _
    · simpa only [setLog, Function.update_of_ne hb] using h
  · exact h

theorem noteDisplaced_lsm (s : KVStore) (p : ShardedValuePointer) (keyLen : ℕ) :
    (s.noteDisplaced p keyLen).lsm = s.lsm := by
  rw [noteDisplaced]
  split_ifs <;> rfl

theorem elim_noteDisplaced_lsm (s : KVStore) (q : Option ShardedValuePointer) (keyLen : ℕ) :
    (q.elim s fun p => s.noteDisplaced p keyLen).lsm = s.lsm := by
  cases q with
  | none => rfl
  | some p => exact noteDisplaced_lsm s p keyLen

theorem elim_noteDisplaced_logs (h : LogHolds c.crc32 (s.logs b) contents stored)
    (q : Option ShardedValuePointer) (keyLen : ℕ) :
    LogHolds c.crc32 ((q.elim s fun p => s.noteDisplaced p keyLen).logs b) contents stored := by
  cases q with
  | none => exact h
  | some p => exact noteDisplaced_logs h p keyLen

/-! ### Calls -/

variable {seq : UInt64}

theorem Stored.writeValue (h : s.Stored c) {value : Bytes} {epoch : UInt64}
    (hids : (s.logs (s.bucketForKey c key)).nextSegmentId < 2 ^ 32)
    (hcall : s.writeValue c key value seq epoch = (s', .ok ())) : s'.Stored c := by
  obtain ⟨r, s₁, p, lsm, rfl, happ, hins, rfl⟩ := writeValue_cases h.sound hcall
  obtain ⟨hlsm, hpb, hbucket, hfits, hpos, hlogs⟩ := h.appendToLockedBucket hids happ
  rw [hlsm] at hins
  obtain ⟨hsound, hempty, hconfig⟩ := insertWithSeq_sound h.sound h.noEmpty hins
  have hlsm' := elim_noteDisplaced_lsm { s₁ with lsm := lsm }
    (if beats s.lsm c r.key seq.toNat then s.pointer c r.key else some p) r.key.length
  refine h.of_write r.key (some p) (hlsm'.symm ▸ hsound) (hlsm'.symm ▸ hempty) ?_
    (fun k x hx => ?_) (fun q hq => ?_) fun b contents stored hholds => ?_
  · rw [numBuckets, hlsm']
    exact congrArg LSMConfig.numBuckets hconfig
  · rw [hlsm'] at hx
    refine (live_winner_of_write h.noEmpty (LSMTree.winner_insertWithSeq c hins) hx).imp id ?_
    rintro ⟨hk, hy⟩
    obtain rfl := Option.some.inj hy
    exact ⟨hk, p, decode_toU128 hfits hpos, rfl⟩
  · rwa [← Option.some.inj hq, hpb]
  · obtain ⟨contents', new, hnew, hfits', hmem⟩ := hlogs b contents stored hholds
    refine ⟨contents', new, elim_noteDisplaced_logs (s := { s₁ with lsm := lsm }) hnew _ _, hfits',
      fun q hq hqb => ?_⟩
    obtain rfl := Option.some.inj hq
    exact ⟨r, rfl, hmem hqb⟩

theorem Stored.deleteRecord (h : s.Stored c) {displaced : Option ShardedValuePointer}
    (hcall : s.deleteRecord key seq displaced = (s', .ok ())) : s'.Stored c := by
  rw [KVStore.deleteRecord] at hcall
  split at hcall
  · cases hcall
  · rename_i lsm hdel
    have hs' : s' = displaced.elim { s with lsm := lsm }
        fun q => ({ s with lsm := lsm } : KVStore).noteDisplaced q key.length := by
      split at hcall
      · exact (Prod.mk.inj hcall).1.symm
      · exact (Prod.mk.inj hcall).1.symm
    subst hs'
    obtain ⟨hsound, hempty, hconfig⟩ := deleteWithSeq_sound h.sound h.noEmpty hdel
    have hlsm' := elim_noteDisplaced_lsm { s with lsm := lsm } displaced key.length
    refine h.of_write key none (hlsm'.symm ▸ hsound) (hlsm'.symm ▸ hempty) ?_
      (fun k x hx => ?_) (fun q hq => by cases hq) fun b contents stored hholds => ?_
    · rw [numBuckets, hlsm']
      exact congrArg LSMConfig.numBuckets hconfig
    · rw [hlsm'] at hx
      refine (live_winner_of_write h.noEmpty (LSMTree.winner_deleteWithSeq c hdel) hx).imp id ?_
      rintro ⟨-, hy⟩
      cases hy
    · refine ⟨contents, [], ?_, by simp, fun q hq => by cases hq⟩
      rw [List.append_nil]
      exact elim_noteDisplaced_logs (s := { s with lsm := lsm }) hholds _ _

variable (c)

/-- A put finds a segment id left for its bucket. -/
def hasIds (s : KVStore) : Call → Bool
  | .putToStorageSeq key .. | .replayUpsert key .. =>
    decide ((s.logs (s.bucketForKey c key)).nextSegmentId < 2 ^ 32)
  | .deleteFromStorageSeq .. | .replayDelete .. => true

variable {c}

/-- **One call.** Every write and every replay keeps the invariant. -/
theorem Stored.step (h : s.Stored c) {a : Call} (hids : s.hasIds c a = true)
    (hstep : s.step c a = some s') : s'.Stored c := by
  have hcall : s.call c a = (s', .ok ()) := by
    rw [KVStore.step] at hstep
    split at hstep
    · rename_i s₁ hcall
      rw [hcall, Option.some.inj hstep]
    · cases hstep
  cases a with
  | putToStorageSeq key value seq epoch => exact h.writeValue (of_decide_eq_true hids) hcall
  | deleteFromStorageSeq key seq =>
    have hcall : s.deleteFromStorageSeq c key seq = (s', .ok ()) := hcall
    rw [KVStore.deleteFromStorageSeq] at hcall
    split at hcall
    · cases hcall
    · exact h.deleteRecord hcall
  | replayUpsert key value seq epoch => exact h.writeValue (of_decide_eq_true hids) hcall
  | replayDelete key seq => exact h.deleteRecord hcall

/-- A new store has nothing to back. -/
theorem stored_empty {config : LSMConfig} (hbuckets : config.numBuckets ≤ 2 ^ 32)
    {segmentSize : ℕ} {log : ValueLog} (hopen : openLog ⟨[], .absent⟩ segmentSize = .ok log) :
    (empty c config log).Stored c := by
  have hlive : ∀ key, live ((empty c config log).lsm.winner c key) = none := by
    intro key
    have hfile : (Bucket.empty c).level1Copy c key = none := by
      change copyIn (entriesOf c []) key = none
      rw [entriesOf_nil]
      rfl
    change live (resolve ([] ++ ([] ++ [(Bucket.empty c).level1Copy c key]))) = none
    rw [hfile]
    rfl
  obtain ⟨log₀, hopen₀, hholds, -⟩ :=
    (dirHolds_empty c.crc32 .absent).openLog (valid_of_openLog hopen)
  obtain rfl : log = log₀ := Except.ok.inj (hopen.symm.trans hopen₀)
  have haccounted := accounted_empty (c := c) hbuckets hopen
  refine ⟨haccounted.sound, haccounted.noEmpty, hbuckets, fun key x hx => ?_,
    fun b _ => ⟨_, [], hholds, by simp, fun key p hp _ => ?_⟩⟩
  · rw [hlive] at hx
    cases hx
  · rw [pointer, hlive] at hp
    cases hp

/-- **Runs.** Whatever is called on a new store, as long as segment ids are left, every live key
has its record. -/
theorem stored_run {s₀ : KVStore} (h₀ : s₀.Stored c) {calls : List Call}
    (hids : along (KVStore.step c) (hasIds c) s₀ calls = true)
    (hrun : run (KVStore.step c) s₀ calls = some s) : s.Stored c :=
  invariant_along (fun _ _ _ h hids hstep => h.step hids hstep) h₀ hids hrun

end KVStore

end Minnal
