import Minnal.ValueLog.Segments

/-!
# Batch reads of a value log

Many values of one bucket are read in one call. `readValuesBatch` groups the entries by segment,
so that each file is opened once. `readValuesBatchInto` goes further: in file order, records that
lie close together form a **run**, a run is read with a single read into one buffer shared by all
values, and each value is handed out as a range of that buffer. A run also reads the gaps between
its records. If the read of a run fails, its records are read one by one.

The order in which a hash map hands out the segments, and the order an unstable sort leaves equal
offsets in, are open (`Grouping`). Whatever they are, the values are those of single reads
(`readValuesBatchInto_eq`): each step extends the buffer and leaves earlier ranges alone
(`ReadsTo`), and the records of a run lie within it because a run is ended by the first record
that starts before the end of the one before.
-/

set_option linter.dupNamespace false

namespace Minnal

open ByteCodec
open List (mem_singleton mem_cons_self flatMap_cons map_congr_left mem_cons_of_mem map_append)

namespace ValueLog

/-- An index of the caller's and the location asked for. -/
abbrev BatchEntry := ℕ × ValueLocation

/-- The caller's index and the value's place in the buffer, if the read succeeded. -/
abbrev BatchRange := ℕ × Option (ℕ × ℕ)

/-- What the standard library leaves open. -/
structure Grouping where
  /-- The order in which a hash map is iterated. -/
  iterate : List (ℕ × List BatchEntry) → List (ℕ × List BatchEntry)
  /-- An unstable sort by offset. -/
  sortByOffset : List BatchEntry → List BatchEntry
  iterate_perm : ∀ groups, (iterate groups).Perm groups
  sortByOffset_perm : ∀ group, (sortByOffset group).Perm group
  sortByOffset_sorted : ∀ group,
    (sortByOffset group).Pairwise fun a b => a.2.recOffset ≤ b.2.recOffset

/-- The segments in the order they were met, and a stable sort. -/
def Grouping.inOrder : Grouping where
  iterate := id
  sortByOffset := fun group => group.insertionSort fun a b => a.2.recOffset ≤ b.2.recOffset
  iterate_perm := fun _ => .refl _
  sortByOffset_perm := fun _ => List.perm_insertionSort _ _
  sortByOffset_sorted := fun _ =>
    haveI : Std.Total fun a b : BatchEntry => a.2.recOffset ≤ b.2.recOffset :=
      ⟨fun _ _ => le_total _ _⟩
    haveI : IsTrans BatchEntry fun a b => a.2.recOffset ≤ b.2.recOffset :=
      ⟨fun _ _ _ => le_trans⟩
    List.pairwise_insertionSort _ _

/-- Largest gap that is read along with the records on both sides. -/
def mergedReadMaxGap : ℕ := 512

/-- Where the header and the value of a record end; the key is not read. -/
def recordEnd (location : ValueLocation) : ℕ :=
  location.recOffset + ValueRecordHeader.size + location.valueLen

/-- Append an entry to its segment's group. -/
def pushEntry (e : BatchEntry) : List (ℕ × List BatchEntry) → List (ℕ × List BatchEntry)
  | [] => [(e.2.segmentId, [e])]
  | g :: groups =>
    if g.1 = e.2.segmentId then (g.1, g.2 ++ [e]) :: groups else g :: pushEntry e groups

/-- The entries with a segment, grouped by it. -/
def bySegment (entries : List BatchEntry) : List (ℕ × List BatchEntry) :=
  (entries.filter fun e => e.2.segmentId ≠ 0).foldl (fun groups e => pushEntry e groups) []

/-- The entries without a segment. -/
def withoutSegment (entries : List BatchEntry) : List BatchEntry :=
  entries.filter fun e => e.2.segmentId = 0

/-! ### Planning -/

/-- Go on with a run that reads up to `stop`: a record joins it unless it overlaps what is read
already or lies too far behind. -/
def planFrom (run : List BatchEntry) (stop : ℕ) :
    List BatchEntry → List (List BatchEntry × ℕ)
  | [] => [(run, stop)]
  | e :: group =>
    if e.2.recOffset < stop ∨ mergedReadMaxGap < e.2.recOffset - stop then
      (run, stop) :: planFrom [e] (recordEnd e.2) group
    else planFrom (run ++ [e]) (recordEnd e.2) group

/-- The runs of a segment's entries, each with the byte it ends at. -/
def planRuns : List BatchEntry → List (List BatchEntry × ℕ)
  | [] => []
  | e :: group => planFrom [e] (recordEnd e.2) group

/-! ### Reading -/

section Read

variable (crc32 : List UInt8 → UInt32)

/-- Check a record read into `buf` against the pointer that named it, and say where its value
lies. -/
def checkRange (verifyChecksums : Bool) (buf : List UInt8) (location : ValueLocation) :
    Except ValueLogError ((ℕ × ℕ) × ValueRecordMeta) :=
  match ValueRecordHeader.fromBytes buf with
  | none => .error .corruptedLog
  | some header =>
    if header.valueLen ≠ location.valueLen then .error .invalidLocation
    else
      let start := ValueRecordHeader.size
      let stop := start + header.valueLen
      if buf.length < stop then .error .corruptedLog
      else if verifyChecksums = true ∧ crc32 (readAt buf start header.valueLen) ≠ header.checksum then
        .error .corruptedLog
      else .ok ((start, stop), header.info)

/-- The range a check found, moved to where the record starts in the buffer. -/
def rangeAt (start : ℕ) (checked : Except ValueLogError ((ℕ × ℕ) × ValueRecordMeta)) :
    Option (ℕ × ℕ) :=
  checked.toOption.map fun x => (start + x.1.1, start + x.1.2)

/-- Read a run with one read; none, and nothing changed, if that fails. -/
def readRunInto (verifyChecksums : Bool) (file : List UInt8) (run : List BatchEntry) (stop : ℕ)
    (out : List UInt8) : Option (List UInt8 × List BatchRange) :=
  match run with
  | [] => none
  | e :: _ =>
    let first := e.2.recOffset
    let read := readAt file first (stop - first)
    if read.length < stop - first then none
    else
      let out' := out ++ read
      some (out', run.map fun e =>
        let start := out.length + (e.2.recOffset - first)
        let len := ValueRecordHeader.size + e.2.valueLen
        (e.1, rangeAt start (checkRange crc32 verifyChecksums (readAt out' start len) e.2)))

/-- Read one record behind what the buffer holds. -/
def readRecordInto (verifyChecksums : Bool) (file : List UInt8) (out : List UInt8)
    (e : BatchEntry) : List UInt8 × BatchRange :=
  let len := ValueRecordHeader.size + e.2.valueLen
  let read := readAt file e.2.recOffset len
  if read.length < len then (out, (e.1, none))
  else
    match checkRange crc32 verifyChecksums read e.2 with
    | .ok x => (out ++ read, (e.1, some (out.length + x.1.1, out.length + x.1.2)))
    | .error _ => (out, (e.1, none))

/-- Read records one by one. -/
def readRecordsInto (verifyChecksums : Bool) (file : List UInt8) :
    List BatchEntry → List UInt8 → List UInt8 × List BatchRange
  | [], out => (out, [])
  | e :: es, out =>
    let r := readRecordInto crc32 verifyChecksums file out e
    let rest := readRecordsInto verifyChecksums file es r.1
    (rest.1, r.2 :: rest.2)

/-- Read the runs of a segment. -/
def readRunsInto (verifyChecksums : Bool) (file : List UInt8) :
    List (List BatchEntry × ℕ) → List UInt8 → List UInt8 × List BatchRange
  | [], out => (out, [])
  | (run, stop) :: runs, out =>
    let whole := if run.length = 1 then none
      else readRunInto crc32 verifyChecksums file run stop out
    let r := whole.getD (readRecordsInto crc32 verifyChecksums file run out)
    let rest := readRunsInto verifyChecksums file runs r.1
    (rest.1, r.2 ++ rest.2)

end Read

end ValueLog

open ValueLog

namespace ValueLog

variable (crc32 : List UInt8 → UInt32)

def readValue (log : ValueLog) (location : ValueLocation) : Except ValueLogError (List UInt8) :=
  (log.readValueAndMeta crc32 location).map Prod.fst

/-- Read the planned segments; a segment that is gone gives nothing. -/
def readSegmentsInto (log : ValueLog) (g : Grouping) :
    List (ℕ × List BatchEntry) → List UInt8 → List UInt8 × List BatchRange
  | [], out => (out, [])
  | (id, group) :: groups, out =>
    let sorted := g.sortByOffset group
    let r := match log.segmentFile id with
      | .ok file => readRunsInto crc32 log.verifyChecksumsOnRead file (planRuns sorted) out
      | .error _ => (out, sorted.map fun e : BatchEntry => (e.1, none))
    let rest := log.readSegmentsInto g groups r.1
    (rest.1, r.2 ++ rest.2)

/-- Read values into one buffer, each entry's value as a range of it. -/
def readValuesBatchInto (log : ValueLog) (g : Grouping) (entries : List BatchEntry)
    (out : List UInt8) : List UInt8 × List BatchRange :=
  let r := log.readSegmentsInto crc32 g (g.iterate (bySegment entries)) out
  (r.1, (withoutSegment entries).map (fun e => (e.1, none)) ++ r.2)

/-- Read values one by one, opening each segment once. -/
def readValuesBatch (log : ValueLog) (g : Grouping) (entries : List BatchEntry) :
    List (ℕ × Option (List UInt8)) :=
  (withoutSegment entries).map (fun e => (e.1, none)) ++
    (g.iterate (bySegment entries)).flatMap fun group =>
      match log.segmentFile group.1 with
      | .ok file => group.2.map fun e : BatchEntry =>
          (e.1, ((readValueFromFile crc32 log.verifyChecksumsOnRead file e.2).map Prod.fst).toOption)
      | .error _ => group.2.map fun e : BatchEntry => (e.1, none)

end ValueLog

variable {out file : List UInt8} {e : BatchEntry}

namespace ValueLog

/-! ### Ranges of a buffer that grows -/

/-- The value at a range of a buffer. -/
def valueIn (out : List UInt8) (r : BatchRange) : ℕ × Option (List UInt8) :=
  (r.1, r.2.map fun x => readAt out x.1 (x.2 - x.1))

/-- A part of a batch read: the buffer was extended, and the new ranges lie in it and stand for
the expected values. -/
structure ReadsTo (out out' : List UInt8) (new : List BatchRange)
    (expected : List (ℕ × Option (List UInt8))) : Prop where
  grows : out <+: out'
  inside : ∀ r ∈ new, ∀ x ∈ r.2, x.1 ≤ x.2 ∧ x.2 ≤ out'.length
  values : new.map (valueIn out') = expected

theorem ReadsTo.nil (out : List UInt8) : ReadsTo out out [] [] :=
  ⟨List.prefix_rfl, by simp, rfl⟩

/-- Entries given up. -/
theorem ReadsTo.nones (out : List UInt8) (es : List BatchEntry) :
    ReadsTo out out (es.map fun e => (e.1, none)) (es.map fun e => (e.1, none)) := by
  refine ⟨List.prefix_rfl, fun r hr x hx => ?_, by simp [valueIn]⟩
  obtain ⟨e, -, rfl⟩ := List.mem_map.mp hr
  cases hx

/-- One part after the other: the later one leaves the ranges of the earlier alone. -/
theorem ReadsTo.append {out' out'' : List UInt8} {new new' : List BatchRange}
    {expected expected' : List (ℕ × Option (List UInt8))} (h : ReadsTo out out' new expected)
    (h' : ReadsTo out' out'' new' expected') :
    ReadsTo out out'' (new ++ new') (expected ++ expected') := by
  refine ⟨h.grows.trans h'.grows, fun r hr x hx => ?_, ?_⟩
  · rcases List.mem_append.mp hr with hr | hr
    · obtain ⟨hle, hlen⟩ := h.inside r hr x hx
      exact ⟨hle, hlen.trans h'.grows.length_le⟩
    · exact h'.inside r hr x hx
  · have hsame : new.map (valueIn out'') = new.map (valueIn out') := by
      refine map_congr_left fun r hr => ?_
      rcases hx : r.2 with _ | x
      · simp [valueIn, hx]
      · obtain ⟨hle, hlen⟩ := h.inside r hr x hx
        simp only [valueIn, hx, Option.map_some]
        rw [readAt_of_grows h'.grows (by omega)]
    rw [map_append, hsame, h.values, h'.values]

/-! ### Single records -/

variable {crc32 : List UInt8 → UInt32} {verifyChecksums : Bool}

/-- What a single read of an entry gives. -/
def singleRead (crc32 : List UInt8 → UInt32) (verifyChecksums : Bool) (file : List UInt8)
    (e : BatchEntry) : ℕ × Option (List UInt8) :=
  (e.1, ((readValueFromFile crc32 verifyChecksums file e.2).map Prod.fst).toOption)

/-- A checked range is the value's, and the check returns the value there. -/
theorem checkRecord_eq_checkRange (buf : List UInt8) (location : ValueLocation) :
    checkRecord crc32 verifyChecksums buf location =
      (checkRange crc32 verifyChecksums buf location).map fun x =>
        (readAt buf x.1.1 (x.1.2 - x.1.1), x.2) := by
  rw [checkRecord, checkRange]
  rcases ValueRecordHeader.fromBytes buf with _ | header
  · rfl
  · simp only
    split_ifs
    · rfl
    · rfl
    · rfl
    · simp [Except.map]

theorem checkRange_eq_ok {buf : List UInt8} {location : ValueLocation}
    {x : (ℕ × ℕ) × ValueRecordMeta} (h : checkRange crc32 verifyChecksums buf location = .ok x) :
    x.1 = (ValueRecordHeader.size, ValueRecordHeader.size + location.valueLen) := by
  rw [checkRange] at h
  rcases hheader : ValueRecordHeader.fromBytes buf with _ | header
  · rw [hheader] at h
    cases h
  · rw [hheader] at h
    simp only at h
    split_ifs at h with hlen
    cases h
    rw [not_ne_iff.mp hlen]

variable (crc32 verifyChecksums) in
/-- **One record.** Wherever its bytes lie in the buffer, checking them there gives what the
single read gives. -/
theorem valueIn_rangeAt (hid : e.2.segmentId ≠ 0) {start : ℕ}
    (hread : readAt out start (ValueRecordHeader.size + e.2.valueLen) =
      readAt file e.2.recOffset (ValueRecordHeader.size + e.2.valueLen))
    (hlen : (readAt file e.2.recOffset (ValueRecordHeader.size + e.2.valueLen)).length =
      ValueRecordHeader.size + e.2.valueLen) :
    valueIn out (e.1, rangeAt start (checkRange crc32 verifyChecksums
      (readAt out start (ValueRecordHeader.size + e.2.valueLen)) e.2)) =
        singleRead crc32 verifyChecksums file e := by
  rw [singleRead, readValueFromFile, if_neg hid]
  simp only [hlen, lt_irrefl, if_false]
  rw [checkRecord_eq_checkRange, ← hread]
  rcases hcheck : checkRange crc32 verifyChecksums
    (readAt out start (ValueRecordHeader.size + e.2.valueLen)) e.2 with err | x
  · rfl
  · have hx := checkRange_eq_ok hcheck
    simp only [valueIn, rangeAt, Except.toOption, Option.map_some, Except.map, hx]
    rw [readAt_readAt _ (by omega)]
    congr 3
    omega

theorem readRecordInto_spec (out : List UInt8) (hid : e.2.segmentId ≠ 0) :
    ReadsTo out (readRecordInto crc32 verifyChecksums file out e).1
      [(readRecordInto crc32 verifyChecksums file out e).2]
      [singleRead crc32 verifyChecksums file e] := by
  have hfail : ∀ {x : Option (List UInt8)}, x = none →
      ReadsTo out out [(e.1, none)] [(e.1, x)] := by
    rintro x rfl
    exact ReadsTo.nones out [e]
  rw [readRecordInto]
  split_ifs with hshort
  · refine hfail ?_
    rw [readValueFromFile, if_neg hid]
    simp only [if_pos hshort]
    rfl
  have hlen : (readAt file e.2.recOffset (ValueRecordHeader.size + e.2.valueLen)).length =
      ValueRecordHeader.size + e.2.valueLen := by
    rw [length_readAt] at hshort ⊢
    omega
  have hread : readAt (out ++ readAt file e.2.recOffset (ValueRecordHeader.size + e.2.valueLen))
      out.length (ValueRecordHeader.size + e.2.valueLen) =
        readAt file e.2.recOffset (ValueRecordHeader.size + e.2.valueLen) := by
    have happ := readAt_append out
      (readAt file e.2.recOffset (ValueRecordHeader.size + e.2.valueLen)) []
    rwa [List.append_nil, hlen] at happ
  have hvalue := valueIn_rangeAt crc32 verifyChecksums hid hread hlen
  rw [hread] at hvalue
  rcases hcheck : checkRange crc32 verifyChecksums
    (readAt file e.2.recOffset (ValueRecordHeader.size + e.2.valueLen)) e.2 with err | x
  · rw [hcheck] at hvalue
    exact hfail (congrArg Prod.snd hvalue).symm
  · rw [hcheck] at hvalue
    refine ⟨List.prefix_append _ _, fun r hr y hy => ?_, congrArg (fun v => [v]) hvalue⟩
    rw [mem_singleton.mp hr] at hy
    cases hy
    rw [checkRange_eq_ok hcheck, List.length_append, hlen]
    exact ⟨by simp only; omega, le_rfl⟩

theorem readRecordsInto_spec {es : List BatchEntry} (hid : ∀ e ∈ es, e.2.segmentId ≠ 0)
    (out : List UInt8) :
    ReadsTo out (readRecordsInto crc32 verifyChecksums file es out).1
      (readRecordsInto crc32 verifyChecksums file es out).2
      (es.map (singleRead crc32 verifyChecksums file)) := by
  induction es generalizing out with
  | nil => exact ReadsTo.nil out
  | cons e es ih =>
    exact (readRecordInto_spec out (hid e mem_cons_self)).append
      (ih (fun d hd => hid d (mem_cons_of_mem _ hd)) _)

/-! ### Runs -/

/-- The records of a run lie between its first byte and its last. -/
def Spans (run : List BatchEntry) (first stop : ℕ) : Prop :=
  ∀ e ∈ run, first ≤ e.2.recOffset ∧ recordEnd e.2 ≤ stop

/-- Where a run starts. -/
def runStart (run : List BatchEntry) : ℕ := (run.head?.map fun e => e.2.recOffset).getD 0

variable {run : List BatchEntry} {stop : ℕ}

theorem planFrom_spec (hne : run ≠ []) (hspans : Spans run (runStart run) stop)
    (group : List BatchEntry) :
    (planFrom run stop group).flatMap Prod.fst = run ++ group ∧
      ∀ r ∈ planFrom run stop group, r.1 ≠ [] ∧ Spans r.1 (runStart r.1) r.2 := by
  have hone : ∀ e : BatchEntry, Spans [e] (runStart [e]) (recordEnd e.2) := by
    intro e d hd
    rw [mem_singleton.mp hd]
    exact ⟨le_rfl, le_rfl⟩
  induction group generalizing run stop with
  | nil =>
    refine ⟨by simp [planFrom], fun r hr => ?_⟩
    rw [mem_singleton.mp hr]
    exact ⟨hne, hspans⟩
  | cons e group ih =>
    rw [planFrom]
    split_ifs with hbreak
    · obtain ⟨hflat, hrest⟩ := ih (List.cons_ne_nil e []) (hone e)
      refine ⟨by rw [flatMap_cons, hflat]; rfl, fun r hr => ?_⟩
      rcases List.mem_cons.mp hr with rfl | hr
      · exact ⟨hne, hspans⟩
      · exact hrest r hr
    · -- the record starts behind everything read so far
      have hle : stop ≤ e.2.recOffset := not_lt.mp fun h => hbreak (.inl h)
      have hend : stop ≤ recordEnd e.2 := by
        rw [recordEnd]
        omega
      obtain ⟨f, fs, rfl⟩ := List.exists_cons_of_ne_nil hne
      have hjoin : Spans (f :: fs ++ [e]) (runStart (f :: fs ++ [e])) (recordEnd e.2) := by
        intro d hd
        rcases List.mem_append.mp hd with hd | hd
        · obtain ⟨hfirst, hstop⟩ := hspans d hd
          exact ⟨hfirst, hstop.trans hend⟩
        · rw [mem_singleton.mp hd]
          have hf := hspans f mem_cons_self
          refine ⟨?_, le_rfl⟩
          change f.2.recOffset ≤ e.2.recOffset
          have hrec : recordEnd f.2 = f.2.recOffset + ValueRecordHeader.size + f.2.valueLen := rfl
          omega
      obtain ⟨hflat, hrest⟩ := ih (by simp) hjoin
      exact ⟨by rw [hflat, List.append_assoc]; rfl, hrest⟩

/-- **The plan.** The runs of a group are the group, none is empty, and each spans its records. -/
theorem planRuns_spec (group : List BatchEntry) :
    (planRuns group).flatMap Prod.fst = group ∧
      ∀ r ∈ planRuns group, r.1 ≠ [] ∧ Spans r.1 (runStart r.1) r.2 := by
  rcases group with _ | ⟨e, group⟩
  · exact ⟨rfl, by simp [planRuns]⟩
  · refine planFrom_spec (List.cons_ne_nil e []) (fun d hd => ?_) group
    rw [mem_singleton.mp hd]
    exact ⟨le_rfl, le_rfl⟩

/-- **One run.** A read of the run that succeeds gives what reads of its records give. -/
theorem readRunInto_spec (hid : ∀ e ∈ run, e.2.segmentId ≠ 0)
    (hspans : Spans run (runStart run) stop) {r : List UInt8 × List BatchRange}
    (hread : readRunInto crc32 verifyChecksums file run stop out = some r) :
    ReadsTo out r.1 r.2 (run.map (singleRead crc32 verifyChecksums file)) := by
  rcases run with _ | ⟨f, fs⟩
  · cases hread
  rw [readRunInto, Option.ite_none_left_eq_some] at hread
  obtain ⟨hlong, hread⟩ := hread
  obtain rfl := Option.some.inj hread
  have hlen : (readAt file f.2.recOffset (stop - f.2.recOffset)).length = stop - f.2.recOffset := by
    rw [length_readAt] at hlong ⊢
    omega
  -- a record's bytes in the buffer are its bytes in the file
  have hbytes : ∀ e ∈ f :: fs, f.2.recOffset ≤ e.2.recOffset ∧
      e.2.recOffset - f.2.recOffset + (ValueRecordHeader.size + e.2.valueLen) ≤
        stop - f.2.recOffset ∧
      readAt (out ++ readAt file f.2.recOffset (stop - f.2.recOffset))
        (out.length + (e.2.recOffset - f.2.recOffset)) (ValueRecordHeader.size + e.2.valueLen) =
          readAt file e.2.recOffset (ValueRecordHeader.size + e.2.valueLen) := by
    intro e he
    obtain ⟨hfirst, hstop⟩ := hspans e he
    change f.2.recOffset ≤ e.2.recOffset at hfirst
    rw [recordEnd] at hstop
    refine ⟨hfirst, by omega, ?_⟩
    rw [readAt_append_add, readAt_readAt _ (by omega)]
    congr 1
    omega
  refine ⟨List.prefix_append _ _, fun r hr x hx => ?_, ?_⟩
  · obtain ⟨e, he, rfl⟩ := List.mem_map.mp hr
    obtain ⟨hfirst, hinside, -⟩ := hbytes e he
    obtain ⟨y, hy, rfl⟩ := Option.map_eq_some_iff.mp hx
    rcases hcheck : checkRange crc32 verifyChecksums (readAt (out ++ readAt file f.2.recOffset
      (stop - f.2.recOffset)) (out.length + (e.2.recOffset - f.2.recOffset))
        (ValueRecordHeader.size + e.2.valueLen)) e.2 with err | z
    · rw [hcheck] at hy
      cases hy
    · rw [hcheck] at hy
      obtain rfl := Option.some.inj hy
      rw [checkRange_eq_ok hcheck, List.length_append, hlen]
      refine ⟨by simp only; omega, ?_⟩
      simp only
      omega
  · rw [List.map_map]
    refine map_congr_left fun e he => ?_
    obtain ⟨hfirst, hinside, heq⟩ := hbytes e he
    refine valueIn_rangeAt crc32 verifyChecksums (hid e he) heq ?_
    rw [length_readAt] at hlen ⊢
    omega

variable (crc32 verifyChecksums) in
theorem readRunsInto_spec (file : List UInt8) {runs : List (List BatchEntry × ℕ)}
    (hid : ∀ r ∈ runs, ∀ e ∈ r.1, e.2.segmentId ≠ 0)
    (hspans : ∀ r ∈ runs, Spans r.1 (runStart r.1) r.2) (out : List UInt8) :
    ReadsTo out (readRunsInto crc32 verifyChecksums file runs out).1
      (readRunsInto crc32 verifyChecksums file runs out).2
      ((runs.flatMap Prod.fst).map (singleRead crc32 verifyChecksums file)) := by
  induction runs generalizing out with
  | nil => exact ReadsTo.nil out
  | cons r runs ih =>
    have hrun : ReadsTo out
        ((if r.1.length = 1 then none else readRunInto crc32 verifyChecksums file r.1 r.2 out).getD
          (readRecordsInto crc32 verifyChecksums file r.1 out)).1
        ((if r.1.length = 1 then none else readRunInto crc32 verifyChecksums file r.1 r.2 out).getD
          (readRecordsInto crc32 verifyChecksums file r.1 out)).2
        (r.1.map (singleRead crc32 verifyChecksums file)) := by
      rcases hwhole : (if r.1.length = 1 then none
        else readRunInto crc32 verifyChecksums file r.1 r.2 out) with _ | x
      · exact readRecordsInto_spec (hid r mem_cons_self) out
      · rw [Option.ite_none_left_eq_some] at hwhole
        exact readRunInto_spec (hid r mem_cons_self) (hspans r mem_cons_self) hwhole.2
    rw [flatMap_cons, map_append]
    exact hrun.append (ih (fun r' hr' => hid r' (mem_cons_of_mem _ hr'))
      (fun r' hr' => hspans r' (mem_cons_of_mem _ hr')) _)

/-! ### Grouping -/

theorem pushEntry_spec (e : BatchEntry) (groups : List (ℕ × List BatchEntry)) :
    ((pushEntry e groups).flatMap Prod.snd).Perm (e :: groups.flatMap Prod.snd) ∧
      ((∀ g ∈ groups, ∀ d ∈ g.2, d.2.segmentId = g.1) →
        ∀ g ∈ pushEntry e groups, ∀ d ∈ g.2, d.2.segmentId = g.1) := by
  induction groups with
  | nil =>
    refine ⟨.refl _, fun _ g hg d hd => ?_⟩
    rw [mem_singleton.mp hg] at hd ⊢
    rw [mem_singleton.mp hd]
  | cons g groups ih =>
    obtain ⟨hperm, hkeep⟩ := ih
    rw [pushEntry]
    split_ifs with hg
    · refine ⟨?_, fun h g' hg' d hd => ?_⟩
      · rw [flatMap_cons, flatMap_cons, List.append_assoc]
        exact List.perm_middle
      · rcases List.mem_cons.mp hg' with rfl | hg'
        · rcases List.mem_append.mp hd with hd | hd
          · exact h g mem_cons_self d hd
          · rw [mem_singleton.mp hd, hg]
        · exact h g' (mem_cons_of_mem _ hg') d hd
    · refine ⟨?_, fun h g' hg' => ?_⟩
      · rw [flatMap_cons, flatMap_cons]
        exact (hperm.append_left g.2).trans List.perm_middle
      · rcases List.mem_cons.mp hg' with rfl | hg'
        · exact h g' mem_cons_self
        · exact hkeep (fun g'' hg'' => h g'' (mem_cons_of_mem _ hg'')) g' hg'

/-- The groups hold the entries that have a segment, each under its own. -/
theorem bySegment_spec (entries : List BatchEntry) :
    ((bySegment entries).flatMap Prod.snd).Perm (entries.filter fun e => e.2.segmentId ≠ 0) ∧
      ∀ g ∈ bySegment entries, ∀ e ∈ g.2, e.2.segmentId = g.1 := by
  have hfold : ∀ (es : List BatchEntry) (groups : List (ℕ × List BatchEntry)),
      (∀ g ∈ groups, ∀ e ∈ g.2, e.2.segmentId = g.1) →
      ((es.foldl (fun groups e => pushEntry e groups) groups).flatMap Prod.snd).Perm
          (es ++ groups.flatMap Prod.snd) ∧
        ∀ g ∈ es.foldl (fun groups e => pushEntry e groups) groups,
          ∀ e ∈ g.2, e.2.segmentId = g.1 := by
    intro es
    induction es with
    | nil => exact fun groups h => ⟨.refl _, h⟩
    | cons e es ih =>
      intro groups h
      obtain ⟨hpush, hkeep⟩ := pushEntry_spec e groups
      obtain ⟨hperm, hall⟩ := ih (pushEntry e groups) (hkeep h)
      exact ⟨(hperm.trans (hpush.append_left es)).trans List.perm_middle, hall⟩
  obtain ⟨hperm, hall⟩ := hfold (entries.filter fun e => e.2.segmentId ≠ 0) [] (by simp)
  rw [List.flatMap_nil, List.append_nil] at hperm
  exact ⟨hperm, hall⟩

/-- In whichever order the groups come, an entry is in its segment's. -/
theorem Grouping.mem_iterate (g : Grouping) (entries : List BatchEntry) :
    ∀ group ∈ g.iterate (bySegment entries), ∀ e ∈ group.2,
      e.2.segmentId ≠ 0 ∧ e.2.segmentId = group.1 := by
  obtain ⟨hperm, hsame⟩ := bySegment_spec entries
  intro group hg e he
  have hg := (g.iterate_perm _).mem_iff.mp hg
  have hin := hperm.mem_iff.mp (List.mem_flatMap.mpr ⟨group, hg, he⟩)
  exact ⟨of_decide_eq_true (List.mem_filter.mp hin).2, hsame group hg e he⟩

/-- What a single read through the log gives an entry. -/
def readOne (log : ValueLog) (crc32 : List UInt8 → UInt32) (e : BatchEntry) :
    ℕ × Option (List UInt8) :=
  (e.1, (log.readValue crc32 e.2).toOption)

variable {log : ValueLog}

theorem readOne_of_missing {err : ValueLogError} (h : log.segmentFile e.2.segmentId = .error err) :
    log.readOne crc32 e = (e.1, none) := by
  rw [readOne, readValue, readValueAndMeta, h]
  split_ifs <;> rfl

theorem readOne_of_file (hid : e.2.segmentId ≠ 0) (h : log.segmentFile e.2.segmentId = .ok file) :
    log.readOne crc32 e = singleRead crc32 log.verifyChecksumsOnRead file e := by
  rw [readOne, readValue, readValueAndMeta, if_neg hid, h]
  rfl

theorem readOne_of_none (h : e.2.segmentId = 0) : log.readOne crc32 e = (e.1, none) := by
  rw [readOne, readValue, readValueAndMeta, if_pos h]
  rfl

variable {groups : List (ℕ × List BatchEntry)}

variable (crc32 log) in
/-- The single reads of the entries, reordered as they are grouped. -/
theorem perm_readOne {entries : List BatchEntry} (h : groups.Perm (bySegment entries)) :
    ((withoutSegment entries).map (fun e : BatchEntry => (e.1, none)) ++
      (groups.flatMap Prod.snd).map (log.readOne crc32)).Perm
        (entries.map (log.readOne crc32)) := by
  have hnone : (withoutSegment entries).map (fun e : BatchEntry => (e.1, none)) =
      (withoutSegment entries).map (log.readOne crc32) :=
    map_congr_left fun e he =>
      (readOne_of_none (of_decide_eq_true (List.mem_filter.mp he).2)).symm
  have hgroups : (groups.flatMap Prod.snd).Perm (entries.filter fun e => e.2.segmentId ≠ 0) :=
    (h.flatMap_right Prod.snd).trans (bySegment_spec entries).1
  rw [hnone, ← map_append]
  refine List.Perm.map _ ((hgroups.append_left _).trans ?_)
  have hsplit := List.filter_append_perm (fun e : BatchEntry => decide (e.2.segmentId = 0)) entries
  simpa [withoutSegment] using hsplit

/-! ### Whole batches -/

variable (crc32 log) in
theorem readSegmentsInto_spec (g : Grouping)
    (hgroups : ∀ group ∈ groups, ∀ e ∈ group.2, e.2.segmentId ≠ 0 ∧ e.2.segmentId = group.1)
    (out : List UInt8) :
    ReadsTo out (log.readSegmentsInto crc32 g groups out).1
      (log.readSegmentsInto crc32 g groups out).2
      ((groups.flatMap fun group => g.sortByOffset group.2).map (log.readOne crc32)) := by
  induction groups generalizing out with
  | nil => exact ReadsTo.nil out
  | cons group groups ih =>
    have hmem : ∀ e ∈ g.sortByOffset group.2,
        e.2.segmentId ≠ 0 ∧ e.2.segmentId = group.1 := fun e he =>
      hgroups group mem_cons_self e ((g.sortByOffset_perm group.2).mem_iff.mp he)
    rw [flatMap_cons, map_append, readSegmentsInto]
    refine ReadsTo.append ?_ (ih (fun group' hg => hgroups group' (mem_cons_of_mem _ hg)) _)
    rcases hfile : log.segmentFile group.1 with err | file
    · have hsame : (g.sortByOffset group.2).map (log.readOne crc32) =
          (g.sortByOffset group.2).map fun e => (e.1, none) :=
        map_congr_left fun e he => readOne_of_missing ((hmem e he).2 ▸ hfile)
      rw [hsame]
      exact ReadsTo.nones out _
    · have hsame : (g.sortByOffset group.2).map (log.readOne crc32) =
          (g.sortByOffset group.2).map (singleRead crc32 log.verifyChecksumsOnRead file) :=
        map_congr_left fun e he => readOne_of_file (hmem e he).1 ((hmem e he).2 ▸ hfile)
      obtain ⟨hflat, hspans⟩ := planRuns_spec (g.sortByOffset group.2)
      have hid : ∀ r ∈ planRuns (g.sortByOffset group.2), ∀ e ∈ r.1, e.2.segmentId ≠ 0 := by
        intro r hr e he
        exact (hmem e (hflat ▸ List.mem_flatMap.mpr ⟨r, hr, he⟩)).1
      have hruns := readRunsInto_spec crc32 log.verifyChecksumsOnRead file hid
        (fun r hr => (hspans r hr).2) out
      rw [hflat] at hruns
      rw [hsame]
      exact hruns

variable (crc32) in
/-- The values of a batch are those of single reads. -/
theorem readValuesBatch_perm (log : ValueLog) (g : Grouping) (entries : List BatchEntry) :
    (log.readValuesBatch crc32 g entries).Perm (entries.map (log.readOne crc32)) := by
  have hgroups := g.mem_iterate entries
  refine List.Perm.trans (.of_eq ?_)
    (perm_readOne crc32 log (g.iterate_perm (bySegment entries)))
  rw [readValuesBatch, List.map_flatMap]
  refine congrArg (_ ++ ·) (List.flatMap_congr fun group hg => ?_)
  rcases hfile : log.segmentFile group.1 with err | file
  · exact map_congr_left fun e he =>
      (readOne_of_missing ((hgroups group hg e he).2 ▸ hfile)).symm
  · exact map_congr_left fun e he =>
      (readOne_of_file (hgroups group hg e he).1 ((hgroups group hg e he).2 ▸ hfile)).symm

/-- **Batch reads are single reads.** For every log, every list of entries and whatever the
library leaves open: the buffer is extended, each range lies in it, and the entries' values at
their ranges are, one for each entry, the values single reads return, none where they fail; and
so are the values of the batch that does not share a buffer. -/
theorem batchReads_eq (crc32 : List UInt8 → UInt32) (log : ValueLog) (g : Grouping)
    (entries : List BatchEntry) :
    (∀ out : List UInt8,
      out <+: (log.readValuesBatchInto crc32 g entries out).1 ∧
      (∀ r ∈ (log.readValuesBatchInto crc32 g entries out).2, ∀ x ∈ r.2,
        x.1 ≤ x.2 ∧ x.2 ≤ (log.readValuesBatchInto crc32 g entries out).1.length) ∧
      ((log.readValuesBatchInto crc32 g entries out).2.map
        (valueIn (log.readValuesBatchInto crc32 g entries out).1)).Perm
          (entries.map fun e => (e.1, (log.readValue crc32 e.2).toOption))) ∧
    (log.readValuesBatch crc32 g entries).Perm
      (entries.map fun e => (e.1, (log.readValue crc32 e.2).toOption)) := by
  have hgroups := g.mem_iterate entries
  refine ⟨fun out => ?_, ?_⟩
  · have hreads := (ReadsTo.nones out (withoutSegment entries)).append
      (readSegmentsInto_spec crc32 log g hgroups out)
    refine ⟨hreads.grows, hreads.inside, ?_⟩
    have hsorted : ((g.iterate (bySegment entries)).flatMap fun group =>
        g.sortByOffset group.2).Perm ((g.iterate (bySegment entries)).flatMap Prod.snd) :=
      List.Perm.flatMap_left _ fun group _ => g.sortByOffset_perm group.2
    rw [readValuesBatchInto, hreads.values]
    exact ((hsorted.map _).append_left _).trans (perm_readOne crc32 log (g.iterate_perm _))
  · exact readValuesBatch_perm crc32 log g entries

end ValueLog

end Minnal
