import Minnal.Db.KVStore
import Minnal.Library.FiniteTable
import Minnal.Lsm.MergeReads
import Minnal.ValueLog.TornTail

/-!
# Garbage accounting over writes and replays

In every segment, the live bytes are to be those of the records that the tree points at, and
live and garbage bytes together all bytes. What the tree points at is a finite table of keys
and pointers, and the live bytes of a segment are a **weight** of that table. A write changes
the table at its key, and the accounting must follow: an append adds the new pointer's weight
to its segment, and a displacement takes the old one's away (`Counts`).

The replay of a delete displaces the current record without asking whether the delete wins, so
a delete that loses to a newer copy makes a live record garbage. And the tree drops a copy of
the empty key when its memtable is sealed. These are the two ways in which a call can go wrong
(`accountsFor`), beyond a bucket running out of segment ids.
-/

set_option linter.dupNamespace false

namespace Minnal

open ByteCodec SortedMap LastWrite FiniteTable StepRun ValueLog Function

/-! ### Counts of a log -/

namespace ValueLog

/-- The segment counts say that `w id` bytes of segment `id` are live and the rest garbage. -/
def Counts (log : ValueLog) (w : ℕ → ℕ) : Prop :=
  ∀ s ∈ log.segments, s.liveBytes = w s.id ∧ s.liveBytes + s.garbageBytes = s.totalBytes

/-- What appends and displacements keep of a log. -/
structure Tidy (log : ValueLog) : Prop where
  size_lt : log.segmentSize < 2 ^ 32
  active_pos : 0 < log.activeId
  active_lt : log.activeId < log.nextSegmentId
  ascending : Ascending SegmentStats.id log.segments

variable {log : ValueLog} {w : ℕ → ℕ} {f : SegmentStats → SegmentStats}
  {segments : List SegmentStats}

theorem mem_modifyStats {id : ℕ} {s : SegmentStats} (h : s ∈ modifyStats id f segments) :
    ∃ s₀ ∈ segments, s = if s₀.id = id then f s₀ else s₀ := by
  obtain ⟨s₀, hs₀, rfl⟩ := List.mem_map.mp h
  exact ⟨s₀, hs₀, rfl⟩

theorem ascending_modifyStats (id : ℕ) (hf : ∀ s, (f s).id = s.id)
    (h : Ascending SegmentStats.id segments) :
    Ascending SegmentStats.id (modifyStats id f segments) := by
  refine List.pairwise_map.mpr (List.Pairwise.imp (fun {a b} hab => ?_) h)
  have hkeep : ∀ s : SegmentStats, (if s.id = id then f s else s).id = s.id := by
    intro s
    split_ifs
    · exact hf s
    · rfl
  rwa [hkeep, hkeep]

theorem Tidy.rollActiveSegment (h : log.Tidy) : log.rollActiveSegment.Tidy where
  size_lt := h.size_lt
  active_pos := (Nat.zero_le _).trans_lt h.active_lt
  active_lt := Nat.lt_succ_self _
  ascending := by
    have hkeep : KeepsKey SegmentStats.id log.nextSegmentId
        fun _ => (⟨log.nextSegmentId, 0, 0, 0, false⟩ : SegmentStats) := fun _ _ => rfl
    have hsealed := ascending_modifyStats log.activeId
      (f := fun s => { s with sealed := true }) (fun _ => rfl) h.ascending
    exact hsealed.upsertBy hkeep

theorem Counts.rollActiveSegment (h : log.Counts w) (htidy : log.Tidy)
    (hw : w log.nextSegmentId = 0) : log.rollActiveSegment.Counts w := by
  intro s hs
  have hasc := ascending_modifyStats log.activeId
    (f := fun s => { s with sealed := true }) (fun _ => rfl) htidy.ascending
  rcases (mem_upsertBy hasc).mp hs with ⟨hs, -⟩ | rfl
  · obtain ⟨s₀, hs₀, rfl⟩ := mem_modifyStats hs
    have hkeep := h s₀ hs₀
    split_ifs
    · exact hkeep
    · exact hkeep
  · exact ⟨hw.symm, rfl⟩

variable {location : ValueLocation}

/-- **Appends.** An append counts its record as live in the segment it goes to. -/
theorem append_counts (h : log.Counts w) (htidy : log.Tidy)
    (hw : ∀ id, log.nextSegmentId ≤ id → w id = 0) {crc32 : Bytes → UInt32} {r : Record}
    {sync : Bool} {log' : ValueLog} (happ : log.append crc32 r sync = .ok (log', location)) :
    log'.Tidy ∧ log'.Counts (fun id => w id + if id = location.segmentId then r.len else 0) ∧
      log.nextSegmentId ≤ log'.nextSegmentId ∧ 0 < location.segmentId ∧
      location.segmentId ≤ log.nextSegmentId ∧ location.segmentId < log'.nextSegmentId ∧
      location.recOffset + r.len < 2 ^ 32 ∧ location.valueLen = r.value.length := by
  rw [append] at happ
  split_ifs at happ with hlarge
  simp only [Except.ok.injEq, Prod.mk.injEq] at happ
  obtain ⟨rfl, rfl⟩ := happ
  -- the log with room for the record
  have hroom : (log.makeRoom r.len).Tidy ∧ (log.makeRoom r.len).Counts w ∧
      log.nextSegmentId ≤ (log.makeRoom r.len).nextSegmentId ∧
      (log.makeRoom r.len).activeId ≤ log.nextSegmentId ∧
      (log.makeRoom r.len).activeOffset + r.len < 2 ^ 32 := by
    have hsize := htidy.size_lt
    rw [makeRoom]
    split_ifs with hfull
    · exact ⟨htidy.rollActiveSegment, h.rollActiveSegment htidy (hw _ le_rfl), Nat.le_succ _,
        le_rfl, (not_lt.mp hlarge).trans_lt hsize⟩
    · exact ⟨htidy, h, le_rfl, htidy.active_lt.le, (not_lt.mp hfull).trans_lt hsize⟩
  obtain ⟨htidy', hcounts, hnext, hactive, hoffset⟩ := hroom
  refine ⟨⟨htidy'.size_lt, htidy'.active_pos, htidy'.active_lt, ?_⟩, ?_, hnext,
    htidy'.active_pos, hactive, htidy'.active_lt, hoffset, rfl⟩
  · exact ascending_modifyStats _ (fun _ => rfl) htidy'.ascending
  · intro s hs
    obtain ⟨s₀, hs₀, rfl⟩ := mem_modifyStats hs
    obtain ⟨hlive, htotal⟩ := hcounts s₀ hs₀
    split_ifs with hid
    · simp only [hid, if_true]
      rw [hid] at hlive
      omega
    · simp only [hid, if_false]
      exact ⟨hlive, htotal⟩

/-- **Displacements.** A displaced record's bytes go from live to garbage. -/
theorem noteDisplaced_counts (h : log.Counts w) (htidy : log.Tidy) {keyLen : ℕ}
    (hpos : location.segmentId ≠ 0)
    (hle : ValueRecordHeader.recordLen keyLen location.valueLen ≤ w location.segmentId) :
    (log.noteDisplaced location keyLen).Tidy ∧
      (log.noteDisplaced location keyLen).Counts (fun id => w id -
        if id = location.segmentId then ValueRecordHeader.recordLen keyLen location.valueLen
        else 0) := by
  rw [noteDisplaced, if_neg hpos]
  refine ⟨⟨htidy.size_lt, htidy.active_pos, htidy.active_lt,
    ascending_modifyStats _ (fun _ => rfl) htidy.ascending⟩, ?_⟩
  intro s hs
  obtain ⟨s₀, hs₀, rfl⟩ := mem_modifyStats hs
  obtain ⟨hlive, htotal⟩ := h s₀ hs₀
  split_ifs with hid
  · simp only [hid, if_true]
    rw [hid] at hlive
    omega
  · simp only [hid, if_false]
    exact ⟨hlive, htotal⟩

@[simp] theorem noteDisplaced_nextSegmentId (log : ValueLog) (location : ValueLocation)
    (keyLen : ℕ) : (log.noteDisplaced location keyLen).nextSegmentId = log.nextSegmentId := by
  rw [noteDisplaced]
  split_ifs <;> rfl

end ValueLog

/-! ### Counts of a store -/

variable {s' : KVStore} {p : ShardedValuePointer} {key : Key} {x : Copy} {t t' : LSMTree}
  {seq : UInt64}

namespace KVStore

variable (c : Crates)

/-- What the tree points at. -/
def pointer (s : KVStore) (key : Key) : Option ShardedValuePointer :=
  (live (s.lsm.winner c key)).bind fun x => decodeShardedPointer x.1

/-- The bytes a pointer stands for in a segment. -/
def bytesAt (bucket id : ℕ) (key : Key) (p : ShardedValuePointer) : ℕ :=
  if p.bucket = bucket ∧ p.location.segmentId = id then p.recordLen key.length else 0

/-- Every log counts `w bucket id` bytes of its segments as live. -/
def Counts (s : KVStore) (w : ℕ → ℕ → ℕ) : Prop :=
  ∀ b < s.numBuckets, (s.logs b).Tidy ∧ (s.logs b).Counts (w b)

/-- **Exact accounting.** In every segment the live bytes are those of the records that the tree
points at, and live and garbage bytes are all bytes. -/
def Exact (s : KVStore) : Prop :=
  ∃ table, IsTable table (s.pointer c) ∧ ∀ b < s.numBuckets, ∀ st ∈ (s.logs b).segments,
    st.liveBytes = weight (bytesAt b st.id) table ∧
      st.liveBytes + st.garbageBytes = st.totalBytes

/-- What the calls keep: exact accounting, and what it rests on. -/
structure Accounted (s : KVStore) : Prop where
  sound : s.lsm.Sound c
  /-- Only the active memtable may hold the empty key. -/
  noEmpty : resolve (s.lsm.lowerLayers c []) = none
  buckets : s.numBuckets ≤ 2 ^ 32
  tidy : ∀ b < s.numBuckets, (s.logs b).Tidy
  /-- No pointer is ahead of the segment ids handed out. -/
  issued : ∀ key p, s.pointer c key = some p → p.bucket < s.numBuckets →
    p.location.segmentId < (s.logs p.bucket).nextSegmentId
  exact : s.Exact c

variable {c} {s : KVStore} {w : ℕ → ℕ → ℕ}

theorem Counts.mono {w' : ℕ → ℕ → ℕ} (h : s.Counts w)
    (hw : ∀ b < s.numBuckets, ∀ id, w' b id = w b id) : s.Counts w' := by
  intro b hb
  obtain ⟨htidy, hcounts⟩ := h b hb
  refine ⟨htidy, fun st hst => ?_⟩
  rw [hw b hb]
  exact hcounts st hst

theorem Counts.setLsm (h : s.Counts w) {lsm : LSMTree} (hconfig : lsm.config = s.lsm.config) :
    ({ s with lsm := lsm } : KVStore).Counts w := by
  intro b hb
  have hsame : ({ s with lsm := lsm } : KVStore).numBuckets = s.numBuckets := by
    show lsm.config.numBuckets = _
    rw [hconfig]
    rfl
  exact h b (hsame ▸ hb)

variable {bucket : ℕ}

/-- An append adds the new pointer's bytes. -/
theorem appendToLockedBucket_counts (h : s.Counts w) {r : Record} {sync : Bool}
    (hw : ∀ id, (s.logs bucket).nextSegmentId ≤ id → w bucket id = 0)
    (happ : s.appendToLockedBucket c bucket r sync = .ok (s', p)) :
    s'.lsm = s.lsm ∧ s'.Counts (fun b id => w b id + bytesAt b id r.key p) ∧
      (∀ b, (s.logs b).nextSegmentId ≤ (s'.logs b).nextSegmentId) ∧
      p.bucket = bucket ∧ bucket < s.numBuckets ∧ p.location.segmentId ≠ 0 ∧
      p.location.segmentId ≤ (s.logs bucket).nextSegmentId ∧
      p.location.segmentId < (s'.logs bucket).nextSegmentId ∧
      p.location.recOffset < 2 ^ 32 ∧ p.location.valueLen < 2 ^ 32 := by
  rw [appendToLockedBucket] at happ
  split_ifs at happ with hbucket
  cases hlog : (s.logs bucket).append c.crc32 r sync with
  | error e =>
    rw [hlog] at happ
    cases happ
  | ok x =>
    obtain ⟨log, location⟩ := x
    rw [hlog] at happ
    simp only [Except.ok.injEq, Prod.mk.injEq] at happ
    obtain ⟨rfl, rfl⟩ := happ
    obtain ⟨htidy, hcounts⟩ := h bucket hbucket
    obtain ⟨htidy', hcounts', hnext, hpos, hle, hlt, hoffset, hvalue⟩ :=
      append_counts hcounts htidy hw hlog
    have hlen : r.len = ValueRecordHeader.recordLen r.key.length location.valueLen := by
      rw [hvalue]
      rfl
    have hsize : r.value.length ≤ r.len := by
      rw [Record.len, ValueRecordHeader.recordLen]
      omega
    refine ⟨rfl, fun b hb => ?_, fun b => ?_, rfl, hbucket, hpos.ne', hle, ?_,
      (Nat.le_add_right _ _).trans_lt hoffset, ?_⟩
    · by_cases hbb : b = bucket
      · subst hbb
        simp only [setLog, update_self]
        refine ⟨htidy', fun st hst => ?_⟩
        obtain ⟨hlive, htotal⟩ := hcounts' st hst
        refine ⟨hlive.trans ?_, htotal⟩
        simp only [bytesAt, true_and, eq_comm (a := location.segmentId), hlen]
        rfl
      · simp only [setLog, update_of_ne hbb]
        obtain ⟨htidyb, hcountsb⟩ := h b hb
        refine ⟨htidyb, fun st hst => ?_⟩
        simp only [bytesAt, Ne.symm hbb, false_and, if_false]
        exact hcountsb st hst
    · by_cases hbb : b = bucket
      · subst hbb
        simpa only [setLog, update_self] using hnext
      · simp only [setLog, update_of_ne hbb, le_refl]
    · simpa only [setLog, update_self] using hlt
    · show location.valueLen < 2 ^ 32
      omega

/-- A displacement takes the pointer's bytes away. -/
theorem noteDisplaced_counts (h : s.Counts w) (hpos : p.location.segmentId ≠ 0)
    (hle : ∀ b id, bytesAt b id key p ≤ w b id) :
    (s.noteDisplaced p key.length).lsm = s.lsm ∧
      (s.noteDisplaced p key.length).Counts (fun b id => w b id - bytesAt b id key p) ∧
      ∀ b, ((s.noteDisplaced p key.length).logs b).nextSegmentId = (s.logs b).nextSegmentId := by
  rw [noteDisplaced]
  split_ifs with hbucket
  · obtain ⟨htidy, hcounts⟩ := h p.bucket hbucket
    have hbytes := hle p.bucket p.location.segmentId
    rw [bytesAt, if_pos ⟨rfl, rfl⟩] at hbytes
    obtain ⟨htidy', hcounts'⟩ := ValueLog.noteDisplaced_counts hcounts htidy hpos hbytes
    refine ⟨rfl, fun b hb => ?_, fun b => ?_⟩
    · by_cases hbb : b = p.bucket
      · subst hbb
        simp only [setLog, update_self]
        refine ⟨htidy', fun st hst => ?_⟩
        obtain ⟨hlive, htotal⟩ := hcounts' st hst
        refine ⟨hlive.trans ?_, htotal⟩
        simp only [bytesAt, true_and, eq_comm (a := p.location.segmentId)]
        rfl
      · simp only [setLog, update_of_ne hbb]
        obtain ⟨htidyb, hcountsb⟩ := h b hb
        refine ⟨htidyb, fun st hst => ?_⟩
        simp only [bytesAt, Ne.symm hbb, false_and, if_false, Nat.sub_zero]
        exact hcountsb st hst
    · by_cases hbb : b = p.bucket
      · subst hbb
        simp only [setLog, update_self, noteDisplaced_nextSegmentId]
      · simp only [setLog, update_of_ne hbb]
  · refine ⟨rfl, h.mono fun b hb id => ?_, fun b => rfl⟩
    have hne : p.bucket ≠ b := fun hpb => hbucket (hpb ▸ hb)
    simp only [bytesAt, hne, false_and, if_false, Nat.sub_zero]

/-! ### What a write changes -/

/-- The seal that a write may begin with loses nothing: it drops the copy of the empty key. For a
write of another key that copy must not be live, and a write of the empty key must beat it. -/
def sealSafe (t : LSMTree) (key : Key) (seq : ℕ) (put : Bool) : Bool :=
  !t.memtable.shouldFlush t.config.compactionThresholdPercent ||
    match t.memtable.copy [] with
    | none => true
    | some y => if key = [] then decide (y.2 ≤ seq) || (!put && y.1.isNone) else y.1.isNone

/-- Whether a write of this sequence is the key's newest. -/
def beats (t : LSMTree) (c : Crates) (key : Key) (seq : ℕ) : Bool :=
  (t.winner c key).all fun y => seqNewerOrEq seq y.2

/-- A new copy against the copies of a tree. -/
theorem live_newer {o : Candidate} :
    live (newer (some x) o) =
      if (o.all fun y => seqNewerOrEq x.2 y.2) = true then live (some x) else live o := by
  cases o with
  | none => rfl
  | some y =>
    rw [newer_some_some, Option.all_some, seqNewerOrEq]
    by_cases hlt : x.2 < y.2
    · rw [if_pos hlt, if_neg (by simpa using hlt)]
    · rw [if_neg hlt, if_pos (by simpa using hlt)]

/-- **A write** changes what the tree answers for its key, if it beats the copies there. -/
theorem live_winner_write (hempty : resolve (t.lowerLayers c []) = none)
    (hwrite : ∀ k, t'.winner c k = if k = key then newer (some x) (t.flushIfDue.winner c key)
      else t.flushIfDue.winner c k) (hsafe : sealSafe t key x.2 x.1.isSome = true) (k : Key) :
    live (t'.winner c k) =
      if k = key ∧ beats t c key x.2 = true then live (some x) else live (t.winner c k) := by
  have hnil : t.winner c [] = t.memtable.copy [] := by
    show newer (t.memtable.copy []) (resolve (t.lowerLayers c [])) = _
    rw [hempty, newer_none]
  rw [hwrite]
  by_cases hflush : t.memtable.shouldFlush t.config.compactionThresholdPercent = true
  · -- the memtable is sealed first
    have hsealed : ∀ j, t.flushIfDue.winner c j = if j = [] then none else t.winner c j := by
      intro j
      rw [LSMTree.flushIfDue, if_pos hflush, LSMTree.winner_flushMemtable]
      split_ifs with hj
      · rw [hj, hempty]
      · rfl
    rw [sealSafe, hflush, Bool.not_true, Bool.false_or] at hsafe
    by_cases hk : k = key
    · subst hk
      rw [if_pos rfl, live_newer, hsealed, beats]
      by_cases hkey : k = []
      · subst hkey
        rw [if_pos rfl, hnil]
        cases hcopy : t.memtable.copy [] with
        | none => simp
        | some y =>
          rw [hcopy] at hsafe
          by_cases hbeats : seqNewerOrEq x.2 y.2 = true
          · simp [hbeats]
          · have hnot : ¬ y.2 ≤ x.2 := by simpa [seqNewerOrEq] using hbeats
            have hdead : x.1 = none ∧ y.1 = none := by simpa [hnot] using hsafe
            simp [hbeats, live, hdead.1, hdead.2]
      · simp [hkey]
    · have hneg : ¬ (k = key ∧ beats t c key x.2 = true) := fun hc => hk hc.1
      rw [if_neg hk, if_neg hneg, hsealed]
      by_cases hkey : k = []
      · subst hkey
        rw [if_pos rfl, hnil]
        cases hcopy : t.memtable.copy [] with
        | none => rfl
        | some y =>
          rw [hcopy] at hsafe
          have hdead : y.1 = none := by simpa [Ne.symm hk] using hsafe
          simp [live, hdead]
      · rw [if_neg hkey]
  · have hsame : t.flushIfDue = t := by rw [LSMTree.flushIfDue, if_neg hflush]
    rw [hsame]
    by_cases hk : k = key
    · subst hk
      rw [if_pos rfl, live_newer]
      simp [beats]
    · simp [hk]

/-- What the tree points at after a write. -/
theorem pointer_write (hempty : resolve (s.lsm.lowerLayers c []) = none)
    (hwrite : ∀ k, s'.lsm.winner c k = if k = key then
      newer (some x) (s.lsm.flushIfDue.winner c key) else s.lsm.flushIfDue.winner c k)
    (hsafe : sealSafe s.lsm key x.2 x.1.isSome = true) :
    s'.pointer c = update (s.pointer c) key
      (if beats s.lsm c key x.2 = true then x.1.bind decodeShardedPointer
        else s.pointer c key) := by
  funext k
  rw [pointer, live_winner_write hempty hwrite hsafe]
  by_cases hk : k = key
  · subst hk
    rw [update_self]
    by_cases hbeats : beats s.lsm c k x.2 = true
    · rw [if_pos ⟨rfl, hbeats⟩, if_pos hbeats]
      rcases x with ⟨_ | v, seq⟩ <;> rfl
    · rw [if_neg (fun hc => hbeats hc.2), if_neg hbeats]
      rfl
  · rw [if_neg (fun hc => hk hc.1), update_of_ne hk]
    rfl

/-- A write keeps the tree sound, and the empty key out of its lower layers. -/
theorem sound_write (h : t.Sound c) (hempty : resolve (t.lowerLayers c []) = none) (m : SkipList)
    (ht' : t' = { t.flushIfDue with memtable := m }) :
    t'.Sound c ∧ resolve (t'.lowerLayers c []) = none ∧ t'.config = t.config := by
  subst ht'
  refine ⟨h.flushIfDue.setMemtable m, ?_, ?_⟩
  · have hlower : ({ t.flushIfDue with memtable := m } : LSMTree).lowerLayers c [] =
        t.flushIfDue.lowerLayers c [] := rfl
    rw [hlower, LSMTree.flushIfDue]
    split_ifs
    · have hwin := LSMTree.winner_flushMemtable c t []
      rw [if_pos rfl, hempty] at hwin
      have hsplit : newer (t.flushMemtable.memtable.copy [])
          (resolve (t.flushMemtable.lowerLayers c [])) = none := hwin
      exact (newer_eq_none.mp hsplit).2
    · exact hempty
  · show t.flushIfDue.config = t.config
    rw [LSMTree.flushIfDue]
    split_ifs <;> rfl

theorem insertWithSeq_sound (h : t.Sound c) (hempty : resolve (t.lowerLayers c []) = none)
    {value seq : ℕ} (hins : t.insertWithSeq key value seq = (t', .ok ())) :
    t'.Sound c ∧ resolve (t'.lowerLayers c []) = none ∧ t'.config = t.config :=
  sound_write h hempty _ (Prod.mk.inj hins).1.symm

theorem deleteWithSeq_sound (h : t.Sound c) (hempty : resolve (t.lowerLayers c []) = none) {seq : ℕ}
    (hdel : t.deleteWithSeq key seq = (t', .ok ())) :
    t'.Sound c ∧ resolve (t'.lowerLayers c []) = none ∧ t'.config = t.config :=
  sound_write h hempty _ (Prod.mk.inj hdel).1.symm

/-- What a write is told about its key. -/
theorem currentPointerAndWins_spec (h : s.lsm.Sound c) {seq : ℕ} {existing : Option ℕ} {wins : Bool}
    (hcurrent : s.lsm.currentPointerAndWins c key seq = .ok (existing, wins)) :
    existing.bind decodeShardedPointer = s.pointer c key ∧ wins = beats s.lsm c key seq := by
  rw [LSMTree.currentPointerAndWins_eq h, Except.ok.injEq] at hcurrent
  rw [pointer, beats]
  cases hwinner : s.lsm.winner c key with
  | none =>
    rw [hwinner] at hcurrent
    obtain ⟨rfl, rfl⟩ := Prod.mk.inj hcurrent
    exact ⟨rfl, rfl⟩
  | some y =>
    rw [hwinner] at hcurrent
    obtain ⟨rfl, rfl⟩ := Prod.mk.inj hcurrent
    rcases y with ⟨_ | v, seq'⟩
    · exact ⟨rfl, rfl⟩
    · exact ⟨rfl, rfl⟩

theorem Accounted.counts (h : s.Accounted c) :
    ∃ table, IsTable table (s.pointer c) ∧ s.Counts fun b id => weight (bytesAt b id) table := by
  obtain ⟨table, htable, hexact⟩ := h.exact
  exact ⟨table, htable, fun b hb => ⟨h.tidy b hb, fun st hst => hexact b hb st hst⟩⟩

variable {table : List (Key × ShardedValuePointer)}

/-- Nothing is counted in segments to come. -/
theorem Accounted.weight_eq_zero (h : s.Accounted c) (htable : IsTable table (s.pointer c))
    (hbucket : bucket < s.numBuckets) {id : ℕ} (hid : (s.logs bucket).nextSegmentId ≤ id) :
    weight (bytesAt bucket id) table = 0 := by
  refine List.sum_eq_zero fun n hn => ?_
  obtain ⟨⟨key, p⟩, hmem, rfl⟩ := List.mem_map.mp hn
  refine if_neg fun hp => ?_
  have hissued := h.issued key p ((htable.mem key p).mp hmem) (hp.1 ▸ hbucket)
  rw [hp.1, hp.2] at hissued
  omega

/-- **One write.** A write that changes the table at its key and the counts by the pointers it
put and displaced keeps the accounting. -/
theorem Accounted.of_write (h : s.Accounted c) (htable : IsTable table (s.pointer c))
    {o : Option ShardedValuePointer} (hsound : s'.lsm.Sound c)
    (hempty : resolve (s'.lsm.lowerLayers c []) = none) (hbuckets : s'.numBuckets = s.numBuckets)
    (hpointer : s'.pointer c = update (s.pointer c) key o)
    (hcounts : s'.Counts fun b id => weight (bytesAt b id) table + weightAt (bytesAt b id) key o -
      weightAt (bytesAt b id) key (s.pointer c key))
    (hnext : ∀ b, (s.logs b).nextSegmentId ≤ (s'.logs b).nextSegmentId)
    (hnew : ∀ p, o = some p → p.bucket < s.numBuckets →
      p.location.segmentId < (s'.logs p.bucket).nextSegmentId) : s'.Accounted c := by
  obtain ⟨table', htable', hweight⟩ := htable.update key o
  refine ⟨hsound, hempty, hbuckets ▸ h.buckets, fun b hb => (hcounts b hb).1, ?_, table', ?_, ?_⟩
  · intro k p hp hb
    rw [hbuckets] at hb
    rw [hpointer] at hp
    by_cases hk : k = key
    · subst hk
      rw [update_self] at hp
      exact hnew p hp hb
    · rw [update_of_ne hk] at hp
      exact (h.issued k p hp hb).trans_le (hnext _)
  · rwa [hpointer]
  · intro b hb st hst
    obtain ⟨hlive, htotal⟩ := (hcounts b hb).2 st hst
    refine ⟨hlive.trans ?_, htotal⟩
    have heq := hweight (bytesAt b st.id)
    simp only
    omega

/-- A pointer just handed out is read back from the tree. -/
theorem decode_toU128 (hfits : p.Fits) (hpos : p.location.segmentId ≠ 0) :
    decodeShardedPointer p.toU128 = some p := by
  rw [decodeShardedPointer]
  simp only [ShardedValuePointer.fromU128_toU128 hfits, if_pos hpos]

theorem decode_pos {offset : ℕ} (h : decodeShardedPointer offset = some p) :
    p.location.segmentId ≠ 0 := by
  rw [decodeShardedPointer] at h
  split_ifs at h with hpos
  obtain rfl := Option.some.inj h
  exact hpos

theorem pointer_pos (h : s.pointer c key = some p) : p.location.segmentId ≠ 0 := by
  obtain ⟨x, -, hx⟩ := Option.bind_eq_some_iff.mp h
  exact decode_pos hx

/-- The record that is garbage after a write, if there is one. -/
theorem displace_counts (h : s.Counts w) (q : Option ShardedValuePointer) (key : Key)
    (hpos : ∀ p, q = some p → p.location.segmentId ≠ 0)
    (hle : ∀ b id, weightAt (bytesAt b id) key q ≤ w b id) :
    (q.elim s fun p => s.noteDisplaced p key.length).lsm = s.lsm ∧
      (q.elim s fun p => s.noteDisplaced p key.length).Counts
        (fun b id => w b id - weightAt (bytesAt b id) key q) ∧
      ∀ b, ((q.elim s fun p => s.noteDisplaced p key.length).logs b).nextSegmentId =
        (s.logs b).nextSegmentId := by
  cases q with
  | none => exact ⟨rfl, h, fun _ => rfl⟩
  | some p => exact noteDisplaced_counts h (hpos p rfl) hle

/-! ### Calls -/

variable {value : Bytes} {epoch : UInt64}

/-- A put, step by step: what it is told, what it appends and inserts, what becomes garbage. -/
theorem writeValue_cases (h : s.lsm.Sound c)
    (hcall : s.writeValue c key value seq epoch = (s', .ok ())) :
    ∃ (r : Record) (s₁ : KVStore) (p : ShardedValuePointer) (lsm : LSMTree), r.key = key ∧
      s.appendToLockedBucket c (s.bucketForKey c key) r false = .ok (s₁, p) ∧
      s₁.lsm.insertWithSeq key p.toU128 seq.toNat = (lsm, .ok ()) ∧
      s' = (if beats s.lsm c key seq.toNat then s.pointer c key else some p).elim
        { s₁ with lsm := lsm } fun q => ({ s₁ with lsm := lsm } : KVStore).noteDisplaced q
          key.length := by
  rw [writeValue] at hcall
  cases hcurrent : s.lsm.currentPointerAndWins c key seq.toNat with
  | error e =>
    simp only [hcurrent] at hcall
    cases hcall
  | ok x =>
    obtain ⟨existing, wins⟩ := x
    obtain ⟨hdisplaced, rfl⟩ := currentPointerAndWins_spec h hcurrent
    simp only [hcurrent, hdisplaced] at hcall
    split at hcall
    · cases hcall
    · rename_i s₁ p happ
      split at hcall
      · cases hcall
      · rename_i lsm hins
        refine ⟨_, s₁, p, lsm, rfl, happ, hins, ?_⟩
        split_ifs at hcall ⊢ with hwins
        · split at hcall
          · rename_i old hold
            rw [hold, ← (Prod.mk.inj hcall).1]
            rfl
          · rename_i hold
            rw [hold, ← (Prod.mk.inj hcall).1]
            rfl
        · rw [← (Prod.mk.inj hcall).1]
          rfl

theorem Accounted.writeValue (h : s.Accounted c)
    (hids : (s.logs (s.bucketForKey c key)).nextSegmentId < 2 ^ 32)
    (hsafe : sealSafe s.lsm key seq.toNat true = true)
    (hcall : s.writeValue c key value seq epoch = (s', .ok ())) : s'.Accounted c := by
  obtain ⟨table, htable, hcounts⟩ := h.counts
  obtain ⟨r, s₁, p, lsm, rfl, happ, hins, rfl⟩ := writeValue_cases h.sound hcall
  -- the log took the record
  obtain ⟨hlsm, hcounts₁, hnext, hbucket, hlt, hpos, hle, hissued, hoffset, hvalue⟩ :=
    appendToLockedBucket_counts hcounts (fun id hid => h.weight_eq_zero htable
      (getBucketForKey_lt c r.key s.lsm.config.numBuckets_pos) hid) happ
  have hfits : p.Fits := by
    refine ⟨?_, hle.trans_lt hids, hoffset, hvalue⟩
    rw [hbucket]
    exact hlt.trans_le h.buckets
  -- the tree took the pointer
  rw [hlsm] at hins
  obtain ⟨hsound, hempty, hconfig⟩ := insertWithSeq_sound h.sound h.noEmpty hins
  have hcounts₂ := hcounts₁.setLsm (show lsm.config = s₁.lsm.config by rw [hlsm, hconfig])
  -- and one record is garbage
  obtain ⟨hlsm₃, hcounts₃, hnext₃⟩ := displace_counts hcounts₂
    (if beats s.lsm c r.key seq.toNat then s.pointer c r.key else some p) r.key
    (fun q hq => by
      split_ifs at hq
      · exact pointer_pos hq
      · rwa [← Option.some.inj hq])
    (fun b id => by
      have hone := htable.weightAt_le (bytesAt b id) r.key
      split_ifs
      · omega
      · exact Nat.le_add_left _ _)
  have hpointer := pointer_write (x := (some p.toU128, seq.toNat)) h.noEmpty
    (fun k => (congrArg (LSMTree.winner c · k) hlsm₃).trans
      (LSMTree.winner_insertWithSeq c hins k)) hsafe
  rw [Option.bind_some, decode_toU128 hfits hpos] at hpointer
  refine h.of_write htable ?_ ?_ ?_ hpointer ?_ (fun b => ?_) fun q hq hqb => ?_
  · rw [hlsm₃]
    exact hsound
  · rw [hlsm₃]
    exact hempty
  · rw [numBuckets, hlsm₃]
    exact congrArg LSMConfig.numBuckets hconfig
  · refine hcounts₃.mono fun b _ id => ?_
    simp only
    split_ifs
    · rfl
    · rw [weightAt_some]
      omega
  · rw [hnext₃]
    exact hnext b
  · rw [hnext₃]
    split_ifs at hq
    · obtain rfl := Option.some.inj hq
      rw [hbucket]
      exact hissued
    · exact (h.issued r.key q hq hqb).trans_le (hnext _)

/-- A delete that is told rightly which record it displaces. -/
theorem Accounted.deleteRecord (h : s.Accounted c) {displaced : Option ShardedValuePointer}
    (hdisplaced : displaced = if beats s.lsm c key seq.toNat then s.pointer c key else none)
    (hsafe : sealSafe s.lsm key seq.toNat false = true)
    (hcall : s.deleteRecord key seq displaced = (s', .ok ())) : s'.Accounted c := by
  obtain ⟨table, htable, hcounts⟩ := h.counts
  rw [KVStore.deleteRecord] at hcall
  split at hcall
  · cases hcall
  · rename_i lsm hdel
    have hs' : s' = displaced.elim { s with lsm := lsm }
        fun q => ({ s with lsm := lsm } : KVStore).noteDisplaced q key.length := by
      split at hcall
      · exact (Prod.mk.inj hcall).1.symm
      · exact (Prod.mk.inj hcall).1.symm
    subst hs'
    obtain ⟨hsound, hempty, hconfig⟩ := deleteWithSeq_sound h.sound h.noEmpty hdel
    have hcounts₂ := hcounts.setLsm hconfig
    obtain ⟨hlsm₃, hcounts₃, hnext₃⟩ := displace_counts hcounts₂ displaced key
      (fun q hq => by
        rw [hdisplaced] at hq
        split_ifs at hq
        exact pointer_pos hq)
      (fun b id => by
        have hone := htable.weightAt_le (bytesAt b id) key
        rw [hdisplaced]
        split_ifs
        · exact hone
        · exact Nat.zero_le _)
    have hpointer := pointer_write (x := (none, seq.toNat)) h.noEmpty
      (fun k => (congrArg (LSMTree.winner c · k) hlsm₃).trans
        (LSMTree.winner_deleteWithSeq c hdel k)) hsafe
    rw [Option.bind_none] at hpointer
    refine h.of_write htable ?_ ?_ ?_ hpointer ?_ (fun b => ?_) fun q hq hqb => ?_
    · rw [hlsm₃]
      exact hsound
    · rw [hlsm₃]
      exact hempty
    · rw [numBuckets, hlsm₃]
      exact congrArg LSMConfig.numBuckets hconfig
    · refine hcounts₃.mono fun b _ id => ?_
      simp only [hdisplaced]
      split_ifs
      · rfl
      · rw [weightAt_none]
        omega
    · rw [hnext₃]
    · rw [hnext₃]
      split_ifs at hq
      exact h.issued key q hq hqb

variable (c)

/-- The calls whose accounting is right, by the state they are made in: the bucket has segment
ids left, the seal a call may begin with loses no copy of the empty key, and the replay of a
delete finds nothing to displace or wins. -/
def accountsFor (s : KVStore) : Call → Bool
  | .putToStorageSeq key _ seq _ | .replayUpsert key _ seq _ =>
    decide ((s.logs (s.bucketForKey c key)).nextSegmentId < 2 ^ 32) &&
      sealSafe s.lsm key seq.toNat true
  | .deleteFromStorageSeq key seq => sealSafe s.lsm key seq.toNat false
  | .replayDelete key seq =>
    sealSafe s.lsm key seq.toNat false &&
      match s.lsm.currentPointerAndWins c key seq.toNat with
      | .ok (existing, wins) => (existing.bind decodeShardedPointer).isNone || wins
      | .error _ => true

variable {c}

theorem Accounted.deleteFromStorageSeq (h : s.Accounted c)
    (hsafe : sealSafe s.lsm key seq.toNat false = true)
    (hcall : s.deleteFromStorageSeq c key seq = (s', .ok ())) : s'.Accounted c := by
  rw [KVStore.deleteFromStorageSeq] at hcall
  split at hcall
  · cases hcall
  · rename_i existing wins hcurrent
    obtain ⟨hdisplaced, rfl⟩ := currentPointerAndWins_spec h.sound hcurrent
    rw [hdisplaced] at hcall
    exact h.deleteRecord rfl hsafe hcall

theorem Accounted.replayDelete (h : s.Accounted c)
    (hsafe : sealSafe s.lsm key seq.toNat false = true)
    (hwins : s.pointer c key = none ∨ beats s.lsm c key seq.toNat = true)
    (hcall : s.replayDelete c key seq = (s', .ok ())) : s'.Accounted c := by
  -- what a read answers is what the tree points at
  have hfound : s.replayDelete c key seq = s.deleteRecord key seq (s.pointer c key) := by
    rw [KVStore.replayDelete, LSMTree.getWithSeq_eq h.sound, pointer]
    cases live (s.lsm.winner c key) <;> rfl
  rw [hfound] at hcall
  refine h.deleteRecord ?_ hsafe hcall
  rcases hwins with hnone | hbeats
  · rw [hnone]
    split_ifs <;> rfl
  · rw [if_pos hbeats]

/-- **One call.** A call of the kind described that returns Ok keeps the accounting. -/
theorem Accounted.step (h : s.Accounted c) {a : Call} (hacc : s.accountsFor c a = true)
    (hstep : s.step c a = some s') : s'.Accounted c := by
  have hcall : s.call c a = (s', .ok ()) := by
    rw [KVStore.step] at hstep
    split at hstep
    · rename_i s₁ hcall
      rw [hcall, Option.some.inj hstep]
    · cases hstep
  cases a with
  | putToStorageSeq key value seq epoch =>
    rw [accountsFor, Bool.and_eq_true, decide_eq_true_eq] at hacc
    exact h.writeValue hacc.1 hacc.2 hcall
  | deleteFromStorageSeq key seq => exact h.deleteFromStorageSeq hacc hcall
  | replayUpsert key value seq epoch =>
    rw [accountsFor, Bool.and_eq_true, decide_eq_true_eq] at hacc
    exact h.writeValue hacc.1 hacc.2 hcall
  | replayDelete key seq =>
    rw [accountsFor, Bool.and_eq_true] at hacc
    refine h.replayDelete hacc.1 ?_ hcall
    rcases hcurrent : s.lsm.currentPointerAndWins c key seq.toNat with e | ⟨existing, wins⟩
    · rw [LSMTree.currentPointerAndWins_eq h.sound] at hcurrent
      cases hcurrent
    · obtain ⟨hdisplaced, rfl⟩ := currentPointerAndWins_spec h.sound hcurrent
      rw [hcurrent] at hacc
      simpa only [hdisplaced, Bool.or_eq_true, Option.isNone_iff_eq_none] using hacc.2

/-! ### New stores -/

/-- A store over empty directories; `log` is what a bucket's log is opened as. -/
def empty (c : Crates) (config : LSMConfig) (log : ValueLog) : KVStore :=
  ⟨.empty c config, fun _ => log⟩

variable {segmentSize : ℕ}

theorem openLog_empty (h : validateSegmentSize segmentSize = .ok ()) :
    openLog ⟨[], .absent⟩ segmentSize = .ok { newLog with segmentSize := segmentSize } := by
  rw [openLog, h]
  rfl

theorem accounted_empty {config : LSMConfig} (hbuckets : config.numBuckets ≤ 2 ^ 32)
    {log : ValueLog} (hopen : openLog ⟨[], .absent⟩ segmentSize = .ok log) :
    (empty c config log).Accounted c := by
  have hvalid := valid_of_openLog hopen
  rw [openLog_empty hvalid] at hopen
  obtain rfl := Except.ok.inj hopen
  have hsize : segmentSize < 2 ^ 32 := by
    rw [validateSegmentSize] at hvalid
    split_ifs at hvalid with hbad
    omega
  have hlayers : ∀ key, resolve ((LSMTree.empty c config).lowerLayers c key) = none := by
    intro key
    have hfile : (Bucket.empty c).level1Copy c key = none := by
      change copyIn (entriesOf c []) key = none
      rw [entriesOf_nil]
      rfl
    change resolve ([] ++ ([] ++ [(Bucket.empty c).level1Copy c key])) = none
    rw [hfile]
    rfl
  have hpointer : (empty c config { newLog with segmentSize := segmentSize }).pointer c =
      fun _ => none := by
    funext key
    have hwinner : (LSMTree.empty c config).winner c key = none := hlayers key
    change (live ((LSMTree.empty c config).winner c key)).bind _ = none
    rw [hwinner]
    rfl
  refine ⟨LSMTree.sound_empty c config, hlayers [], hbuckets, fun b _ => ?_, fun key p hp => ?_, [],
    ?_, fun b _ st hst => ?_⟩
  · exact ⟨hsize, Nat.one_pos, Nat.one_lt_two, List.pairwise_singleton _ _⟩
  · rw [hpointer] at hp
    cases hp
  · rw [hpointer]
    exact isTable_nil
  · obtain rfl := List.mem_singleton.mp hst
    exact ⟨rfl, rfl⟩

/-- **Accounting.** A new store's accounting is exact. Calls of the kinds described, with
whatever sequences, keep an exact accounting exact as long as they return Ok. -/
theorem accounting_exact (c : Crates) :
    (∀ config : LSMConfig, config.numBuckets ≤ 2 ^ 32 → ∀ segmentSize log,
      openLog ⟨[], .absent⟩ segmentSize = .ok log → (empty c config log).Accounted c) ∧
    ∀ (s₀ s : KVStore) (calls : List Call), s₀.Accounted c →
      along (step c) (accountsFor c) s₀ calls = true → run (step c) s₀ calls = some s →
        s.Accounted c :=
  ⟨fun _ hbuckets _ _ hopen => accounted_empty hbuckets hopen,
    fun _ _ _ h₀ hcalls hrun => invariant_along (fun _ _ _ h hacc hstep => h.step hacc hstep) h₀
      hcalls hrun⟩

/-- A new store with one bucket. -/
def oneBucket : KVStore := empty .real .oneBucket newLog

/-- A value, a replay that loses to it, an overwrite, a delete and the replay of that delete. -/
def lossyReplay : List Call :=
  [.putToStorageSeq [0x6b] [1, 2] 5 0, .replayUpsert [0x6b] [3] 3 0,
    .putToStorageSeq [0x6b] [4] 7 0, .deleteFromStorageSeq [0x6b] 9, .replayDelete [0x6b] 9]

theorem accounting_exact_lossyReplay :
    ∃ s, oneBucket.Accounted .real ∧
      along (step .real) (accountsFor .real) oneBucket lossyReplay = true ∧
      run (step .real) oneBucket lossyReplay = some s ∧ s.Accounted .real := by
  have hstart : oneBucket.Accounted .real :=
    (accounting_exact .real).1 .oneBucket (by decide) 65536 newLog rfl
  have hcalls : along (step .real) (accountsFor .real) oneBucket lossyReplay = true := by
    decide +kernel
  have hrun : run (step .real) oneBucket lossyReplay =
      some ((run (step .real) oneBucket lossyReplay).get (by decide +kernel)) :=
    (Option.some_get _).symm
  exact ⟨_, hstart, hcalls, hrun, (accounting_exact .real).2 _ _ _ hstart hcalls hrun⟩

/-- A value, and the replay of a delete that is older than it. -/
def staleDelete : List Call :=
  [.putToStorageSeq [0x6b] [1, 2] 5 0, .replayDelete [0x6b] 3]

/-- The tree still points at the value, but its record is counted as garbage. -/
theorem staleDelete_not_exact :
    ∃ s, run (step .real) oneBucket staleDelete = some s ∧
      s.pointer .real [0x6b] = some ⟨0, ⟨1, 16, 2⟩⟩ ∧
      (s.logs 0).segments = [⟨1, 39, 0, 39, false⟩] ∧ ¬ s.Exact .real := by
  have hrun : run (step .real) oneBucket staleDelete =
      some ((run (step .real) oneBucket staleDelete).get (by decide +kernel)) :=
    (Option.some_get _).symm
  have hpointer : ((run (step .real) oneBucket staleDelete).get (by decide +kernel)).pointer .real
      [0x6b] = some ⟨0, ⟨1, 16, 2⟩⟩ := by decide +kernel
  have hsegments : (((run (step .real) oneBucket staleDelete).get (by decide +kernel)).logs
      0).segments = [⟨1, 39, 0, 39, false⟩] := by decide +kernel
  refine ⟨_, hrun, hpointer, hsegments, ?_⟩
  rintro ⟨table, htable, hexact⟩
  have hlive := (hexact 0 (by decide +kernel) ⟨1, 39, 0, 39, false⟩ (by
    rw [hsegments]
    exact List.mem_singleton_self _)).1
  have hweight := htable.weightAt_le (bytesAt 0 1) [0x6b]
  rw [hpointer, ← hlive] at hweight
  exact absurd hweight (by decide)

end KVStore

end Minnal
