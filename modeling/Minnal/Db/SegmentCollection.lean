import Minnal.Db.StoredValues

/-!
# Collecting segments

A value log never rewrites a segment. To get rid of the garbage in one, the collection appends a
copy of each of its records that the tree still points at and re-points the key at the copy,
under the sequence the key has already (`relocate`); then nothing points into the segment any
more and it is removed (`unlinkSegment`). A tail that is mostly garbage is first closed
(`rollTail`).

A pass is a run of such steps (`gcStep`). It keeps every live key's record (`Stored.gcStep`), and
what it changes for readers is said by `Carried`: every key has the value it had, a record whose
segment is not removed is where it was, and a removed segment's file is gone for good. The one
thing a pass can lose is the copy of the empty key that a seal drops (`losesEmptyKey`).
-/

set_option linter.dupNamespace false

namespace Minnal

open ByteCodec LastWrite ValueLog SortedMap StepRun Function

namespace ValueLog

/-- Remove a segment that is not the active one. -/
def unlinkSegment (log : ValueLog) (id : ℕ) : ValueLog :=
  if id = log.activeId then log
  else
    { log with
      dir := { log.dir with files := log.dir.files.filter fun x => decide (x.1 ≠ id) }
      segments := log.segments.filter fun st => decide (st.id ≠ id) }

end ValueLog

namespace KVStore

variable (c : Crates)

/-! ### The steps of a pass -/

/-- Seal a bucket's tail so that it can be collected. -/
def rollTail (s : KVStore) (bucket : ℕ) : KVStore :=
  s.setLog bucket (s.logs bucket).rollActiveSegment

/-- Copy a record to the tail and re-point its key at the copy, under the sequence the key has;
only if the key still points at the record. -/
def relocate (s : KVStore) (bucket : ℕ) (r : Record) (location : ValueLocation) :
    Except KVError KVStore :=
  match s.lsm.getWithSeq c r.key with
  | .error e => .error (.lsm e)
  | .ok none => .ok s
  | .ok (some (current, seq)) =>
    if current ≠ ShardedValuePointer.toU128 ⟨bucket, location⟩ then .ok s
    else
      match s.appendToLockedBucket c bucket r false with
      | .error e => .error e
      | .ok (s, pointer) =>
        match s.lsm.insertWithSeq r.key pointer.toU128 seq with
        | (_, .error e) => .error (.lsm e)
        | (lsm, .ok ()) => .ok { s with lsm := lsm }

/-- Remove a bucket's segment. -/
def unlinkSegment (s : KVStore) (bucket id : ℕ) : KVStore :=
  s.setLog bucket ((s.logs bucket).unlinkSegment id)

/-- What a pass does, one record and one segment at a time. -/
inductive GcAct where
  | rollTail (bucket : ℕ)
  | relocate (bucket id n : ℕ)
  | unlinkSegment (bucket id : ℕ)
  deriving DecidableEq, Repr

/-- One step of a pass: the `n`-th record of a segment is relocated, and a segment is removed once
no key points at a record of it. -/
def gcStep (s : KVStore) : GcAct → Option KVStore
  | .rollTail bucket => if bucket < s.numBuckets then some (s.rollTail bucket) else none
  | .relocate bucket id n =>
    match (s.logs bucket).forEachRecord id with
    | .error _ => none
    | .ok records => records[n]?.bind fun x => (s.relocate c bucket x.1 x.2).toOption
  | .unlinkSegment bucket id =>
    match (s.logs bucket).forEachRecord id with
    | .error _ => none
    | .ok records =>
      if bucket < s.numBuckets ∧ id ≠ (s.logs bucket).activeId ∧
          ∀ x ∈ records, s.pointer c x.1.key ≠ some ⟨bucket, x.2⟩ then
        some (s.unlinkSegment bucket id)
      else none

/-- A write of this key begins with a seal, which drops a live copy of the empty key. -/
def losesEmptyKey (t : LSMTree) (key : Key) : Bool :=
  t.memtable.shouldFlush t.config.compactionThresholdPercent && decide (key ≠ []) &&
    (t.memtable.copy []).any fun x => x.1.isSome

/-- The bucket has segment ids left, and the re-point loses no copy of the empty key. -/
def gcSafe (s : KVStore) : GcAct → Bool
  | .relocate bucket id n =>
    decide ((s.logs bucket).nextSegmentId < 2 ^ 32) &&
      match (s.logs bucket).forEachRecord id with
      | .error _ => true
      | .ok records => records[n]?.all fun x => !losesEmptyKey s.lsm x.1.key
  | _ => true

/-- The segments that the steps remove. -/
def Removes (acts : List GcAct) (bucket id : ℕ) : Prop := .unlinkSegment bucket id ∈ acts

instance (acts : List GcAct) (bucket id : ℕ) : Decidable (Removes acts bucket id) :=
  inferInstanceAs (Decidable (_ ∈ acts))

end KVStore

/-! ### What the steps do to a log -/

variable {id : ℕ}

namespace ValueLog

variable {crc32 : List UInt8 → UInt32} {log : ValueLog} {contents : ℕ → List Record}
  {stored : List (Record × ValueLocation)}

/-- The files after a removal. -/
theorem file_unlinkSegment (h : LogHolds crc32 log contents stored) (hid : id ≠ log.activeId)
    (j : ℕ) : (log.unlinkSegment id).dir.file j = if j = id then none else log.dir.file j := by
  rw [ValueLog.unlinkSegment, if_neg hid, Dir.file, Dir.file, findBy_filter h.ascending]
  rcases hfind : findBy Prod.fst j log.dir.files with _ | x
  · simp
  · have hx : x.1 = j := (mem_of_findBy_eq_some hfind).2
    by_cases hj : j = id
    · simp [Option.filter_some, hx, hj]
    · simp [Option.filter_some, hx, hj]

/-- **Removal.** The other segments hold what they held. -/
theorem LogHolds.unlinkSegment (h : LogHolds crc32 log contents stored) (hid : id ≠ log.activeId) :
    LogHolds crc32 (log.unlinkSegment id) (update contents id [])
      (stored.filter fun x => decide (x.2.segmentId ≠ id)) := by
  have hfile := file_unlinkSegment h hid
  have hlog : log.unlinkSegment id = { log with
      dir := { log.dir with files := log.dir.files.filter fun x => decide (x.1 ≠ id) }
      segments := log.segments.filter fun st => decide (st.id ≠ id) } := by
    rw [ValueLog.unlinkSegment, if_neg hid]
  have hmem : ∀ x ∈ (log.unlinkSegment id).dir.files, x ∈ log.dir.files ∧ x.1 ≠ id := by
    intro x hx
    rw [hlog] at hx
    simpa using hx
  refine
    { ascending := ?_
      pos := fun x hx => h.pos x (hmem x hx).1
      holds := fun x hx => ?_
      missing := fun j hj => ?_
      stored_eq := fun j => ?_
      size_lt := ?_
      ids_lt := fun x hx => ?_
      next_pos := ?_
      newest := fun x hx => ?_
      active := ?_
      offset := ?_ }
  · rw [hlog]
    exact h.ascending.filter _
  · rw [update_of_ne (hmem x hx).2]
    exact h.holds x (hmem x hx).1
  · rw [hfile] at hj
    by_cases hji : j = id
    · rw [hji, update_self]
    · rw [if_neg hji] at hj
      rw [update_of_ne hji, h.missing j hj]
  · rw [storedIn, List.filter_filter]
    by_cases hji : j = id
    · subst hji
      rw [update_self]
      refine List.filter_eq_nil_iff.mpr fun x _ => ?_
      simp
    · rw [update_of_ne hji, ← h.stored_eq j, storedIn]
      refine List.filter_congr fun x _ => ?_
      by_cases hx : x.2.segmentId = j
      · simp [hx, hji]
      · simp [hx]
  · rw [hlog]
    exact h.size_lt
  · rw [hlog]
    exact h.ids_lt x (hmem x hx).1
  · rw [hlog]
    exact h.next_pos
  · rw [hlog]
    exact h.newest x (hmem x hx).1
  · have hactive : (log.unlinkSegment id).activeId = log.activeId := by rw [hlog]
    obtain ⟨file, hfile', honly⟩ := h.active
    refine ⟨file, ?_, ?_⟩
    · rw [hactive, hfile, if_neg (Ne.symm hid), hfile']
    · rw [hactive, update_of_ne (Ne.symm hid)]
      exact honly
  · have hactive : (log.unlinkSegment id).activeId = log.activeId := by rw [hlog]
    have hoffset : (log.unlinkSegment id).activeOffset = log.activeOffset := by rw [hlog]
    rw [hactive, hoffset, update_of_ne (Ne.symm hid)]
    exact h.offset

/-- A segment whose id was handed out and whose file is gone stays gone. -/
def Gone (log : ValueLog) (id : ℕ) : Prop := id < log.nextSegmentId ∧ log.dir.file id = none

theorem LogHolds.gone_rollActiveSegment (h : LogHolds crc32 log contents stored)
    (hgone : log.Gone id) : log.rollActiveSegment.Gone id := by
  refine ⟨hgone.1.trans (Nat.lt_succ_self _), ?_⟩
  change (log.dir.put log.nextSegmentId (segmentHeader log.nextSegmentId)).file id = none
  rw [Dir.file_put h.ascending, if_neg hgone.1.ne]
  exact hgone.2

theorem LogHolds.gone_append (h : LogHolds crc32 log contents stored) {r : Record} {sync : Bool}
    {log' : ValueLog} {location : ValueLocation}
    (happ : log.append crc32 r sync = .ok (log', location)) (hgone : log.Gone id) :
    log'.Gone id := by
  rw [ValueLog.append] at happ
  split_ifs at happ
  obtain ⟨rfl, -⟩ := Prod.mk.inj (Except.ok.inj happ)
  have hroom := h.makeRoom r.len
  have hgone' : (log.makeRoom r.len).Gone id := by
    rw [ValueLog.makeRoom]
    split_ifs
    · exact h.gone_rollActiveSegment hgone
    · exact hgone
  obtain ⟨file, hfile, -⟩ := hroom.active
  have hne : id ≠ (log.makeRoom r.len).activeId := by
    rintro rfl
    cases hfile.symm.trans hgone'.2
  refine ⟨hgone'.1, ?_⟩
  rw [ValueLog.writeRecord, Dir.file_put hroom.ascending, if_neg hne]
  exact hgone'.2

theorem LogHolds.gone_unlinkSegment (h : LogHolds crc32 log contents stored)
    (hid : id ≠ log.activeId) {j : ℕ} (hgone : log.Gone j) : (log.unlinkSegment id).Gone j := by
  refine ⟨?_, ?_⟩
  · rw [ValueLog.unlinkSegment, if_neg hid]
    exact hgone.1
  · rw [file_unlinkSegment h hid, hgone.2, ite_self]

end ValueLog

variable {key : Key} {bucket : ℕ}

namespace KVStore

variable (c : Crates)

/-! ### What a pass changes -/

/-- **What readers see of a pass** that removes some segments: every key keeps its value, a record
outside those segments is where it was, and a segment that is gone stays gone. -/
structure Carried (removed : ℕ → ℕ → Prop) (s s' : KVStore) : Prop where
  buckets : s'.numBuckets = s.numBuckets
  values : ∀ key, s'.get c key = s.get c key
  records : ∀ b < s.numBuckets, ∀ contents stored, LogHolds c.crc32 (s.logs b) contents stored →
    ∃ contents' stored', LogHolds c.crc32 (s'.logs b) contents' stored' ∧
      ∀ x ∈ stored, ¬ removed b x.2.segmentId → x ∈ stored'
  gone : ∀ b < s.numBuckets, ∀ id, removed b id ∨ (s.logs b).Gone id → (s'.logs b).Gone id

variable {c} {s t : KVStore}

theorem Carried.refl (s : KVStore) : Carried c (fun _ _ => False) s s where
  buckets := rfl
  values _ := rfl
  records _ _ contents stored h := ⟨contents, stored, h, fun _ hx _ => hx⟩
  gone _ _ _ h := h.resolve_left not_false

variable {removed removed' : ℕ → ℕ → Prop}

theorem Carried.trans {u : KVStore} (h : Carried c removed s t) (h' : Carried c removed' t u) :
    Carried c (fun b id => removed b id ∨ removed' b id) s u where
  buckets := h'.buckets.trans h.buckets
  values key := (h'.values key).trans (h.values key)
  records b hb contents stored hholds := by
    obtain ⟨contents', stored', hholds', hkept⟩ := h.records b hb contents stored hholds
    obtain ⟨contents'', stored'', hholds'', hkept'⟩ :=
      h'.records b (h.buckets ▸ hb) contents' stored' hholds'
    refine ⟨contents'', stored'', hholds'', fun x hx hnot => ?_⟩
    exact hkept' x (hkept x hx fun hr => hnot (.inl hr)) fun hr => hnot (.inr hr)
  gone b hb id hid := by
    refine h'.gone b (h.buckets ▸ hb) id ?_
    rcases hid with (hid | hid) | hid
    · exact .inr (h.gone b hb id (.inl hid))
    · exact .inl hid
    · exact .inr (h.gone b hb id (.inr hid))

theorem Carried.congr (h : Carried c removed s t) (heq : ∀ b id, removed b id ↔ removed' b id) :
    Carried c removed' s t where
  buckets := h.buckets
  values := h.values
  records b hb contents stored hholds := by
    obtain ⟨contents', stored', hholds', hkept⟩ := h.records b hb contents stored hholds
    exact ⟨contents', stored', hholds', fun x hx hnot => hkept x hx ((heq _ _).not.mpr hnot)⟩
  gone b hb id hid := h.gone b hb id (hid.imp_left (heq b id).mpr)

/-- The value of a key is that of its record. -/
theorem Stored.get_eq_some (h : s.Stored c) {p : ShardedValuePointer}
    (hp : s.pointer c key = some p) {contents : ℕ → List Record}
    {stored : List (Record × ValueLocation)}
    (hholds : LogHolds c.crc32 (s.logs p.bucket) contents stored) {r : Record}
    (hr : (r, p.location) ∈ stored) : s.get c key = .ok (some r.value) := by
  rw [h.get_eq, hp]
  simp only [KVStore.readValue, if_pos (h.pointer_bucket hp),
    hholds.toDirHolds.readValueAndMeta hr, Except.map]

/-- A key that keeps its pointer, to a record that stays, keeps its value. -/
theorem get_eq_of_pointer_eq (h : s.Stored c) (h' : t.Stored c)
    (hpointer : t.pointer c key = s.pointer c key) (removed : ℕ → ℕ → Prop)
    (hkept : ∀ p, s.pointer c key = some p → ¬ removed p.bucket p.location.segmentId)
    (hrecords : ∀ b < s.numBuckets, ∀ contents stored, LogHolds c.crc32 (s.logs b) contents stored →
      ∃ contents' stored', LogHolds c.crc32 (t.logs b) contents' stored' ∧
        ∀ x ∈ stored, ¬ removed b x.2.segmentId → x ∈ stored') : t.get c key = s.get c key := by
  rcases hp : s.pointer c key with _ | p
  · rw [h.get_eq, h'.get_eq, hpointer, hp]
  · have hbucket := h.pointer_bucket hp
    obtain ⟨contents, stored, hholds, -, hbacked⟩ := h.backed p.bucket hbucket
    obtain ⟨r, -, hr⟩ := hbacked key p hp rfl
    obtain ⟨contents', stored', hholds', hmem⟩ := hrecords p.bucket hbucket contents stored hholds
    rw [h.get_eq_some hp hholds hr,
      h'.get_eq_some (hpointer.trans hp) hholds' (hmem _ hr (hkept p hp))]

@[simp] theorem setLog_logs_self (s : KVStore) (bucket : ℕ) (log : ValueLog) :
    (s.setLog bucket log).logs bucket = log :=
  update_self ..

theorem setLog_logs_of_ne (s : KVStore) {b : ℕ} (hb : b ≠ bucket) (log : ValueLog) :
    (s.setLog bucket log).logs b = s.logs b :=
  update_of_ne hb ..

/-- Another log in the place of one bucket's, over the same tree. -/
theorem Stored.setLog (h : s.Stored c) (bucket : ℕ) (log : ValueLog) (removed : ℕ → Prop)
    (hlog : ∀ contents stored, LogHolds c.crc32 (s.logs bucket) contents stored →
      ∃ contents' stored', LogHolds c.crc32 log contents' stored' ∧ (∀ x ∈ stored', x ∈ stored) ∧
        ∀ x ∈ stored, ¬ removed x.2.segmentId → x ∈ stored')
    (hkept : ∀ key p, s.pointer c key = some p → p.bucket = bucket → ¬ removed p.location.segmentId)
    (hgone : ∀ id, removed id ∨ (s.logs bucket).Gone id → log.Gone id) :
    (s.setLog bucket log).Stored c ∧
      Carried c (fun b id => b = bucket ∧ removed id) s (s.setLog bucket log) := by
  have hlogs : ∀ b contents stored, LogHolds c.crc32 (s.logs b) contents stored →
      ∃ contents' stored', LogHolds c.crc32 ((s.setLog bucket log).logs b) contents' stored' ∧
        (∀ x ∈ stored', x ∈ stored) ∧
        ∀ x ∈ stored, ¬ (b = bucket ∧ removed x.2.segmentId) → x ∈ stored' := by
    intro b contents stored hholds
    by_cases hb : b = bucket
    · subst hb
      obtain ⟨contents', stored', hholds', hsub, hmem⟩ := hlog contents stored hholds
      rw [setLog_logs_self]
      exact ⟨contents', stored', hholds', hsub, fun x hx hnot => hmem x hx fun hr => hnot ⟨rfl, hr⟩⟩
    · rw [setLog_logs_of_ne s hb]
      exact ⟨contents, stored, hholds, fun _ hx => hx, fun _ hx _ => hx⟩
  have hstored : (s.setLog bucket log).Stored c := by
    refine ⟨h.sound, h.noEmpty, h.buckets, h.decoded, fun b hb => ?_⟩
    obtain ⟨contents, stored, hholds, hfits, hbacked⟩ := h.backed b hb
    obtain ⟨contents', stored', hholds', hsub, hmem⟩ := hlogs b contents stored hholds
    refine ⟨contents', stored', hholds', fun x hx => hfits x (hsub x hx), fun key p hp hpb => ?_⟩
    obtain ⟨r, hkey, hr⟩ := hbacked key p hp hpb
    have hstays : ¬ (b = bucket ∧ removed p.location.segmentId) := fun hr =>
      hkept key p hp (hpb.trans hr.1) hr.2
    exact ⟨r, hkey, hmem _ hr hstays⟩
  have hrecords : ∀ b < s.numBuckets, ∀ contents stored,
      LogHolds c.crc32 (s.logs b) contents stored → ∃ contents' stored',
        LogHolds c.crc32 ((s.setLog bucket log).logs b) contents' stored' ∧
          ∀ x ∈ stored, ¬ (b = bucket ∧ removed x.2.segmentId) → x ∈ stored' := by
    intro b _ contents stored hholds
    obtain ⟨contents', stored', hholds', -, hmem⟩ := hlogs b contents stored hholds
    exact ⟨contents', stored', hholds', hmem⟩
  refine ⟨hstored, rfl, fun key => ?_, hrecords, fun b _ id hid => ?_⟩
  · have hstays : ∀ p, s.pointer c key = some p →
        ¬ (p.bucket = bucket ∧ removed p.location.segmentId) := fun p hp hr =>
      hkept key p hp hr.1 hr.2
    exact get_eq_of_pointer_eq h hstored rfl (fun b id => b = bucket ∧ removed id) hstays hrecords
  · by_cases hb : b = bucket
    · subst hb
      rw [setLog_logs_self]
      exact hgone id (hid.imp_left And.right)
    · rw [setLog_logs_of_ne s hb]
      exact hid.resolve_left fun hr => hb hr.1

theorem Stored.rollTail (h : s.Stored c) (hbucket : bucket < s.numBuckets) :
    (s.rollTail bucket).Stored c ∧ Carried c (fun _ _ => False) s (s.rollTail bucket) := by
  obtain ⟨_, _, hholds, -⟩ := h.backed bucket hbucket
  obtain ⟨hstored, hcarried⟩ := h.setLog bucket (s.logs bucket).rollActiveSegment (fun _ => False)
    (fun contents stored h => ⟨contents, stored, h.rollActiveSegment, fun _ hx => hx,
      fun _ hx _ => hx⟩)
    (fun _ _ _ _ => not_false) fun id hid =>
      hholds.gone_rollActiveSegment (hid.resolve_left not_false)
  exact ⟨hstored, hcarried.congr (by simp)⟩

variable {records : List (Record × ValueLocation)}

/-- **Removing a segment** into which no key points. -/
theorem Stored.unlinkSegment (h : s.Stored c) (hbucket : bucket < s.numBuckets)
    (hid : id ≠ (s.logs bucket).activeId)
    (hrecords : (s.logs bucket).forEachRecord id = .ok records)
    (hfree : ∀ x ∈ records, s.pointer c x.1.key ≠ some ⟨bucket, x.2⟩) :
    (s.unlinkSegment bucket id).Stored c ∧
      Carried c (fun b j => b = bucket ∧ j = id) s (s.unlinkSegment bucket id) := by
  obtain ⟨contents, stored, hholds, -, hbacked⟩ := h.backed bucket hbucket
  -- the file is there, so the segment holds exactly the records handed out
  obtain ⟨file, hfile⟩ : ∃ file, (s.logs bucket).dir.file id = some file := by
    rcases hfile : (s.logs bucket).dir.file id with _ | file
    · rw [ValueLog.forEachRecord, segmentFile, hfile] at hrecords
      cases hrecords
    · exact ⟨file, rfl⟩
  have hlist : records = storedIn id stored :=
    (Except.ok.inj ((hholds.toDirHolds.forEachRecord hfile).symm.trans hrecords)).symm
  have hlt : id < (s.logs bucket).nextSegmentId :=
    hholds.ids_lt _ ((Dir.file_eq_some_iff hholds.ascending).mp hfile)
  refine h.setLog bucket _ (fun j => j = id) (fun contents stored hholds => ⟨_, _, hholds.unlinkSegment hid,
    fun x hx => (List.mem_filter.mp hx).1, fun x hx hnot => List.mem_filter.mpr ⟨hx, by simpa⟩⟩)
    (fun key p hp hpb hseg => ?_) fun j hj => ?_
  · obtain ⟨r, hkey, hr⟩ := hbacked key p hp hpb
    refine hfree (r, p.location) ?_ ?_
    · rw [hlist]
      exact List.mem_filter.mpr ⟨hr, decide_eq_true hseg⟩
    · rw [hkey, hp, ← hpb]
  · rcases hj with rfl | hj
    · refine ⟨?_, ?_⟩
      · rw [ValueLog.unlinkSegment, if_neg hid]
        exact hlt
      · rw [file_unlinkSegment hholds hid, if_pos rfl]
    · exact hholds.gone_unlinkSegment hid hj

/-- The seal that a re-point may begin with loses nothing. -/
theorem Stored.sealSafe_of (h : s.Stored c) {value seq : ℕ}
    (hlive : live (s.lsm.winner c key) = some (value, seq))
    (hsafe : losesEmptyKey s.lsm key = false) : sealSafe s.lsm key seq true = true := by
  have hnil : s.lsm.winner c [] = s.lsm.memtable.copy [] := by
    show newer (s.lsm.memtable.copy []) (resolve (s.lsm.lowerLayers c [])) = _
    rw [h.noEmpty, newer_none]
  rw [sealSafe]
  rw [losesEmptyKey] at hsafe
  cases hflush : s.lsm.memtable.shouldFlush s.lsm.config.compactionThresholdPercent with
  | false => rfl
  | true =>
    rw [hflush, Bool.true_and] at hsafe
    rcases hcopy : s.lsm.memtable.copy [] with _ | ⟨v, seq'⟩
    · rfl
    · by_cases hkey : key = []
      · subst hkey
        rw [hnil, hcopy, live_eq_some] at hlive
        cases hlive
        simp
      · have hdead : v = none := by simpa [hcopy, hkey] using hsafe
        simp [hkey, hdead]

/-- **Relocating a record** of a segment. -/
theorem Stored.relocate (h : s.Stored c) (hrecords : (s.logs bucket).forEachRecord id = .ok records)
    {x : Record × ValueLocation} (hx : x ∈ records) (hids : (s.logs bucket).nextSegmentId < 2 ^ 32)
    (hsafe : losesEmptyKey s.lsm x.1.key = false) (hrun : s.relocate c bucket x.1 x.2 = .ok t) :
    t.Stored c ∧ Carried c (fun _ _ => False) s t := by
  obtain ⟨r, location⟩ := x
  rw [KVStore.relocate, LSMTree.getWithSeq_eq h.sound] at hrun
  rcases hlive : live (s.lsm.winner c r.key) with _ | ⟨current, seq⟩
  · rw [hlive] at hrun
    obtain rfl := Except.ok.inj hrun
    exact ⟨h, .refl s⟩
  rw [hlive] at hrun
  simp only at hrun
  split_ifs at hrun with hcurrent
  · obtain rfl := Except.ok.inj hrun
    exact ⟨h, .refl s⟩
  have hcurrent : current = ShardedValuePointer.toU128 ⟨bucket, location⟩ := not_ne_iff.mp hcurrent
  rcases happ : s.appendToLockedBucket c bucket r false with e | ⟨s₁, p⟩
  · rw [happ] at hrun
    cases hrun
  rw [happ] at hrun
  rcases hins : s₁.lsm.insertWithSeq r.key p.toU128 seq with ⟨lsm, e | u⟩
  · simp only [hins] at hrun
    cases hrun
  simp only [hins] at hrun
  obtain rfl := Except.ok.inj hrun
  obtain ⟨hlsm, hpb, hbucket, hfits, hpos, hlogs⟩ := h.appendToLockedBucket hids happ
  rw [hlsm] at hins
  obtain ⟨hsound, hempty, hconfig⟩ := insertWithSeq_sound h.sound h.noEmpty hins
  have hbuckets : ({ s₁ with lsm := lsm } : KVStore).numBuckets = s.numBuckets :=
    congrArg LSMConfig.numBuckets hconfig
  have hstored : ({ s₁ with lsm := lsm } : KVStore).Stored c := by
    refine h.of_write r.key (some p) hsound hempty hbuckets (fun k y hy => ?_)
      (fun q hq => ?_) fun b contents stored hholds => ?_
    · refine (live_winner_of_write h.noEmpty (LSMTree.winner_insertWithSeq c hins) hy).imp_right ?_
      rintro ⟨hk, hy⟩
      obtain rfl := Option.some.inj hy
      exact ⟨hk, p, decode_toU128 hfits hpos, rfl⟩
    · rwa [← Option.some.inj hq, hpb]
    · obtain ⟨contents', new, hnew, hfits', hmem⟩ := hlogs b contents stored hholds
      refine ⟨contents', new, hnew, hfits', fun q hq hqb => ⟨r, rfl, ?_⟩⟩
      obtain rfl := Option.some.inj hq
      exact hmem hqb
  -- the record is the one the key points at
  obtain ⟨contents, stored, hholds, hplaces, hbacked⟩ := h.backed bucket hbucket
  obtain ⟨file, hfile⟩ : ∃ file, (s.logs bucket).dir.file id = some file := by
    rcases hfile : (s.logs bucket).dir.file id with _ | file
    · rw [ValueLog.forEachRecord, segmentFile, hfile] at hrecords
      cases hrecords
    · exact ⟨file, rfl⟩
  have hlist : records = storedIn id stored :=
    (Except.ok.inj ((hholds.toDirHolds.forEachRecord hfile).symm.trans hrecords)).symm
  rw [hlist] at hx
  obtain ⟨hmem, hseg⟩ := List.mem_filter.mp hx
  have hseg : location.segmentId = id := of_decide_eq_true hseg
  have hfileMem := (Dir.file_eq_some_iff hholds.ascending).mp hfile
  have hid : 0 < id := hholds.pos _ hfileMem
  have hidlt : id < (s.logs bucket).nextSegmentId := hholds.ids_lt _ hfileMem
  obtain ⟨hoffset, hlen⟩ := hplaces _ hmem
  have hold : s.pointer c r.key = some ⟨bucket, location⟩ := by
    rw [pointer, hlive, Option.bind_some, hcurrent]
    refine decode_toU128 ⟨hbucket.trans_le h.buckets, ?_, hoffset, hlen⟩ ?_
    · exact hseg ▸ hidlt.trans hids
    · exact hseg ▸ hid.ne'
  have hbeats : beats s.lsm c r.key seq = true := by
    rw [beats]
    rw [live_eq_some] at hlive
    rw [hlive]
    simp [seqNewerOrEq]
  have hpointer : ({ s₁ with lsm := lsm } : KVStore).pointer c =
      update (s.pointer c) r.key (some p) := by
    have hwrite := @pointer_write { s₁ with lsm := lsm } r.key (some p.toU128, seq) c s h.noEmpty
      (LSMTree.winner_insertWithSeq c hins) (h.sealSafe_of hlive hsafe)
    rwa [if_pos hbeats, Option.bind_some, decode_toU128 hfits hpos] at hwrite
  have hkept : ∀ b < s.numBuckets, ∀ contents stored,
      LogHolds c.crc32 (s.logs b) contents stored → ∃ contents' stored',
        LogHolds c.crc32 (s₁.logs b) contents' stored' ∧
          ∀ x ∈ stored, ¬ False → x ∈ stored' := by
    intro b _ contents stored hholds
    obtain ⟨contents', new, hnew, -, -⟩ := hlogs b contents stored hholds
    exact ⟨contents', stored ++ new, hnew, fun x hx _ => List.mem_append_left _ hx⟩
  refine ⟨hstored, hbuckets, fun key => ?_, hkept, fun b hb j hj => ?_⟩
  · by_cases hk : key = r.key
    · -- the copy has the value of the record
      obtain ⟨contents', new, hnew, -, hcopy⟩ := hlogs bucket contents stored hholds
      have hp : ({ s₁ with lsm := lsm } : KVStore).pointer c r.key = some p := by
        rw [hpointer, update_self]
      subst hk
      rw [h.get_eq_some hold hholds hmem]
      subst hpb
      exact hstored.get_eq_some hp hnew (List.mem_append_right _ (hcopy rfl))
    · refine get_eq_of_pointer_eq h hstored ?_ (fun _ _ => False) (fun _ _ => not_false) hkept
      rw [hpointer, update_of_ne hk]
  · have hj := hj.resolve_left not_false
    rw [KVStore.appendToLockedBucket] at happ
    split_ifs at happ
    rcases hlog : (s.logs bucket).append c.crc32 r false with e | ⟨log, place⟩
    · rw [hlog] at happ
      cases happ
    · rw [hlog] at happ
      obtain ⟨rfl, -⟩ := Prod.mk.inj (Except.ok.inj happ)
      by_cases hbb : b = bucket
      · subst hbb
        rw [show ({ s.setLog b log with lsm := lsm } : KVStore).logs b = log from
          setLog_logs_self s b log]
        exact hholds.gone_append hlog hj
      · rw [show ({ s.setLog bucket log with lsm := lsm } : KVStore).logs b = s.logs b from
          setLog_logs_of_ne s hbb log]
        exact hj

/-- **One step of a pass** keeps every live key's record, and carries the store over. -/
theorem Stored.gcStep (h : s.Stored c) {a : GcAct} (hsafe : s.gcSafe a = true)
    (hstep : s.gcStep c a = some t) : t.Stored c ∧ Carried c (Removes [a]) s t := by
  cases a with
  | rollTail bucket =>
    rw [KVStore.gcStep, Option.ite_none_right_eq_some] at hstep
    obtain ⟨hbucket, hstep⟩ := hstep
    obtain rfl := Option.some.inj hstep
    obtain ⟨hstored, hcarried⟩ := h.rollTail hbucket
    exact ⟨hstored, hcarried.congr (by simp [Removes])⟩
  | relocate bucket id n =>
    rw [KVStore.gcStep] at hstep
    rw [gcSafe] at hsafe
    rcases hrecords : (s.logs bucket).forEachRecord id with e | records
    · rw [hrecords] at hstep
      cases hstep
    · rw [hrecords] at hstep hsafe
      obtain ⟨x, hx, hstep⟩ := Option.bind_eq_some_iff.mp hstep
      simp only [hx, Option.all_some, Bool.and_eq_true, decide_eq_true_eq, Bool.not_eq_true'] at hsafe
      have hrun : s.relocate c bucket x.1 x.2 = .ok t := by
        rcases hrel : s.relocate c bucket x.1 x.2 with e | u
        · rw [hrel] at hstep
          cases hstep
        · rw [hrel] at hstep
          exact congrArg _ (Option.some.inj hstep)
      obtain ⟨hstored, hcarried⟩ :=
        h.relocate hrecords (List.mem_of_getElem? hx) hsafe.1 hsafe.2 hrun
      exact ⟨hstored, hcarried.congr (by simp [Removes])⟩
  | unlinkSegment bucket id =>
    rw [KVStore.gcStep] at hstep
    rcases hrecords : (s.logs bucket).forEachRecord id with e | records
    · rw [hrecords] at hstep
      cases hstep
    · rw [hrecords] at hstep
      simp only [Option.ite_none_right_eq_some] at hstep
      obtain ⟨⟨hbucket, hid, hfree⟩, hstep⟩ := hstep
      obtain rfl := Option.some.inj hstep
      obtain ⟨hstored, hcarried⟩ := h.unlinkSegment hbucket hid hrecords hfree
      exact ⟨hstored, hcarried.congr (by simp [Removes])⟩

/-- **A pass.** -/
theorem Stored.gcRun (h : s.Stored c) {acts : List GcAct}
    (hsafe : along (KVStore.gcStep c) gcSafe s acts = true)
    (hrun : run (KVStore.gcStep c) s acts = some t) :
    t.Stored c ∧ Carried c (Removes acts) s t := by
  induction acts generalizing s with
  | nil =>
    obtain rfl := Option.some.inj hrun
    exact ⟨h, (Carried.refl s).congr (by simp [Removes])⟩
  | cons a acts ih =>
    obtain ⟨m, hm, hrest⟩ := Option.bind_eq_some_iff.mp hrun
    rw [along, hm, Option.elim_some, Bool.and_eq_true] at hsafe
    obtain ⟨hstored, hcarried⟩ := h.gcStep hsafe.1 hm
    obtain ⟨hstored', hcarried'⟩ := ih hstored hsafe.2 hrest
    exact ⟨hstored', (hcarried.trans hcarried').congr (by simp [Removes])⟩

end KVStore

end Minnal
