import Minnal.Lsm.Archive
import Minnal.Lsm.FrameReader
import Minnal.Lsm.Merge

/-!
# What is written is read back

An SSTable is written in two places, by the flush of a memtable (`writeLevel0FileForRecords`)
and by a merge (`writeMergedSstable`), and each computes the offsets of the frames on its own
while it writes. The scan at open computes them again. Every reader starts from one of these
offsets, so all three must agree on where each frame **begins** and on which frames are sampled.

The common ground is the list of located entries, `locate`. The index is every sixteenth element
of it (`SparseIndex.sample`), whoever computes it, and the scan at open finds what the writer
knew (`loadMetadataFromFile_eq`). A file **round-trips** (`RoundTrip`) if each reader delivers the
entries it was written from and every hint of its index leads to the key.
-/

set_option linter.dupNamespace false

namespace Minnal

open ByteCodec FrameWalk SortedMap

/-! ### Sampling -/

/-- Every sixteenth of the located entries, the first of which is entry number `i`. -/
def SparseIndex.sample : ℕ → List (ℕ × SStableEntry) → List (Key × ℕ)
  | _, [] => []
  | i, x :: l =>
    if i % sampleInterval = 0 then (x.2.key, x.1) :: sample (i + 1) l else sample (i + 1) l

/-- The sparse index of a file of entries, none for an empty one. -/
def SparseIndex.ofEntries (c : Crates) (es : List SStableEntry) : Option SparseIndex :=
  match es with
  | [] => none
  | _ :: _ => some ⟨sample 0 (locate c sstableDataStart es)⟩

variable {c : Crates} {es : List SStableEntry} {index : SparseIndex}

/-- The samples a writer takes. -/
theorem writeFrames_samples {i offset : ℕ} {index' : SparseIndex} {body : Bytes}
    (h : writeFrames c es i offset index = .ok (body, index')) :
    index'.samples = index.samples ++ SparseIndex.sample i (locate c offset es) := by
  induction es generalizing i offset index body with
  | nil =>
    cases h
    simp [locate, SparseIndex.sample]
  | cons e es ih =>
    rw [writeFrames] at h
    cases hpay : encodeSstableEntry c e with
    | error err => simp [hpay] at h
    | ok payload =>
      have hlen : offset + 4 + payload.length = offset + frameLen c e := by
        simp [frameLen, hpay, length_frameBytes, Nat.add_assoc]
      simp only [hpay, hlen] at h
      generalize hmid : (if i % SparseIndex.sampleInterval = 0 then index.push e.key offset
        else index) = mid at h
      cases hrest : writeFrames c es (i + 1) (offset + frameLen c e) mid with
      | error err => simp [hrest, Except.map] at h
      | ok r =>
        simp only [hrest, Except.map, Except.ok.injEq, Prod.mk.injEq] at h
        obtain ⟨-, rfl⟩ := h
        rw [ih hrest, ← hmid, locate, SparseIndex.sample]
        split_ifs <;> simp [SparseIndex.push]

/-- The samples the scan at open takes. -/
theorem LoadState.foldl_samples (l : List (ℕ × SStableEntry)) (st : LoadState) :
    (l.foldl (fun st x => st.visit x.1 x.2) st).index.samples =
      st.index.samples ++ SparseIndex.sample st.entryCount l := by
  induction l generalizing st with
  | nil => simp [SparseIndex.sample]
  | cons x l ih =>
    rw [List.foldl_cons, ih, SparseIndex.sample]
    simp only [LoadState.visit]
    split_ifs <;> simp [SparseIndex.push]

/-- The newest sequence the scan at open finds. -/
theorem LoadState.foldl_maxSeq (l : List (ℕ × SStableEntry)) (st : LoadState) :
    (l.foldl (fun st x => st.visit x.1 x.2) st).maxSeq =
      newestSeq (st.maxSeq.toList ++ l.map (·.2.seq)) := by
  induction l generalizing st with
  | nil =>
    rw [List.foldl_nil, List.map_nil, List.append_nil]
    cases hm : st.maxSeq <;> rfl
  | cons x l ih =>
    rw [List.foldl_cons, ih]
    simp only [LoadState.visit]
    cases hm : st.maxSeq with
    | none => rfl
    | some m =>
      simp only [Option.toList, List.map_cons, List.cons_append, List.nil_append, newestSeq,
        List.foldl_cons]
      split_ifs <;> rfl

/-! ### What the scan at open finds -/

/-- What is known of a file of the entries `es`. -/
def LoadedSstable.ofEntries (c : Crates) (es : List SStableEntry) : LoadedSstable where
  metadata :=
    { minKey := (es.head?.map SStableEntry.key).getD []
      maxKey := (es.getLast?.map SStableEntry.key).getD []
      entryCount := es.length
      maxSeq := newestSeq (es.map (·.seq)) }
  bloom := if es.isEmpty then none else some (.build c (es.map (·.key)) es.length)
  index := SparseIndex.ofEntries c es
  maxSeq := newestSeq (es.map (·.seq))

theorem map_locate {β : Type*} (c : Crates) (offset : ℕ) (es : List SStableEntry)
    (f : SStableEntry → β) : (locate c offset es).map (fun x => f x.2) = es.map f :=
  List.map_map.symm.trans (congrArg (List.map f) (map_snd_locate c offset es))

theorem length_locate (c : Crates) (offset : ℕ) (es : List SStableEntry) :
    (locate c offset es).length = es.length := by
  rw [← List.length_map (f := Prod.snd), map_snd_locate]

/-- The first entry is sampled. -/
theorem SparseIndex.ofEntries_eq (c : Crates) (es : List SStableEntry) :
    SparseIndex.ofEntries c es =
      if (⟨sample 0 (locate c sstableDataStart es)⟩ : SparseIndex).isEmpty then none
      else some ⟨sample 0 (locate c sstableDataStart es)⟩ := by
  cases es with
  | nil => rfl
  | cons e es => simp [ofEntries, locate, sample, isEmpty]

variable {file : Bytes}

/-- **The scan at open** of a well-formed file. -/
theorem loadMetadataFromFile_eq (hheader : validateSstableHeader file = .ok ())
    (hfile : HoldsEntries c file es) : loadMetadataFromFile c file = .ok (.ofEntries c es) := by
  have hlen : (locate c sstableDataStart es).length < file.length + 1 := by
    have hle := FramesAt.length_le hfile
    rw [length_locate]
    omega
  have hcovers : ((locate c sstableDataStart es).foldl (fun st x => st.visit x.1 x.2)
      ({} : LoadState)).Covers (locate c sstableDataStart es) := by
    have hnil : ({} : LoadState).Covers [] :=
      ⟨rfl, rfl, rfl, rfl, by simp [SparseIndex.new], by simp⟩
    simpa using hnil.foldl (locate c sstableDataStart es)
  have hsamples := LoadState.foldl_samples (locate c sstableDataStart es) {}
  have hseq := LoadState.foldl_maxSeq (locate c sstableDataStart es) {}
  rw [loadMetadataFromFile, hheader]
  simp only
  rw [walk_eq_ok (FramesAt.reads_located hfile) hlen,
    visitAll_next fun (st : LoadState) (x : ℕ × SStableEntry) => st.visit x.1 x.2]
  simp only [Visit.value_next, Except.map]
  generalize (locate c sstableDataStart es).foldl
    (fun (st : LoadState) x => st.visit x.1 x.2) _ = st at *
  -- each field of the scan's result, read off the located entries
  have hindex : st.index = ⟨SparseIndex.sample 0 (locate c sstableDataStart es)⟩ := by
    cases hst : st.index
    rw [hst] at hsamples
    simpa [SparseIndex.new] using hsamples
  have hkeys : st.keys = es.map (·.key) := by rw [hcovers.keys, map_locate]
  have hcount : st.entryCount = es.length := by rw [hcovers.entryCount, length_locate]
  have hmaxSeq : st.maxSeq = newestSeq (es.map (·.seq)) := by
    rw [hseq, ← map_locate c sstableDataStart es]
    rfl
  have hmin : st.minKey = es.head?.map SStableEntry.key := by
    rw [hcovers.minKey, ← List.head?_map, ← List.head?_map, map_locate]
  have hmax : st.maxKey = es.getLast?.map SStableEntry.key := by
    rw [hcovers.maxKey, ← List.getLast?_map, ← List.getLast?_map, map_locate]
  rw [LoadState.finish, LoadedSstable.ofEntries, SparseIndex.ofEntries_eq]
  simp only [hindex, hkeys, hcount, hmaxSeq, hmin, hmax, List.isEmpty_map, List.length_map]

/-- A writer's index is the one the scan at open finds. -/
theorem writeSstable_index (h : writeSstable c es = .ok (file, index)) :
    (if index.isEmpty then none else some index) = SparseIndex.ofEntries c es := by
  rw [writeSstable] at h
  cases hw : writeFrames c es 0 sstableDataStart .new with
  | error err => simp [hw, Except.map] at h
  | ok r =>
    simp only [hw, Except.map, Except.ok.injEq, Prod.mk.injEq] at h
    obtain ⟨-, rfl⟩ := h
    have hsamples := writeFrames_samples hw
    have hindex : r.2 = ⟨SparseIndex.sample 0 (locate c sstableDataStart es)⟩ := by
      cases hr : r.2
      rw [hr] at hsamples
      simpa [SparseIndex.new] using hsamples
    rw [hindex, SparseIndex.ofEntries_eq]

/-! ### Hints -/

theorem SparseIndex.mem_sample {l : List (ℕ × SStableEntry)} {i : ℕ} {s : Key × ℕ}
    (h : s ∈ sample i l) : ∃ x ∈ l, s = (x.2.key, x.1) := by
  induction l generalizing i with
  | nil => cases h
  | cons x l ih =>
    rw [sample] at h
    split_ifs at h
    · obtain rfl | h := List.mem_cons.mp h
      · exact ⟨x, List.mem_cons_self, rfl⟩
      · obtain ⟨y, hy, rfl⟩ := ih h
        exact ⟨y, List.mem_cons_of_mem _ hy, rfl⟩
    · obtain ⟨y, hy, rfl⟩ := ih h
      exact ⟨y, List.mem_cons_of_mem _ hy, rfl⟩

/-- A start for the scan for `key`: 0, or a frame boundary that passes the validation. Scans and
lookups from it find the key's entry, and nothing else. -/
structure LeadsTo (c : Crates) (file : Bytes) (es : List SStableEntry) (key : Key) (start : ℕ) :
    Prop where
  boundary : start = 0 ∨ (∃ e, (start, e) ∈ locate c sstableDataStart es) ∧
    validScanStart c file start key = true
  scan : ∃ r,
    scanSstableFileFor c file key (if start = 0 then sstableDataStart else start) = .ok r ∧
      r.candidate = copyIn es key
  lookup : ∃ r, lookupInSstableFileFrom c file key start = .ok r ∧ r.candidate = copyIn es key

/-- The index leads to every key. -/
theorem leadsTo_blockStart (hfile : HoldsEntries c file es) (hes : Ascending SStableEntry.key es)
    (key : Key) :
    LeadsTo c file es key (((SparseIndex.ofEntries c es).map (·.blockStart key)).getD 0) := by
  generalize hstart : ((SparseIndex.ofEntries c es).map (·.blockStart key)).getD 0 = start
  have hboundary : start = 0 ∨ ∃ e, (start, e) ∈ locate c sstableDataStart es ∧ e.key ≤ key := by
    by_cases hzero : start = 0
    · exact .inl hzero
    · cases es with
      | nil => exact absurd hstart.symm hzero
      | cons e es =>
        simp only [SparseIndex.ofEntries, Option.map_some, Option.getD_some] at hstart
        subst hstart
        obtain ⟨k, hmem, hle⟩ := SparseIndex.blockStart_mem hzero
        obtain ⟨x, hx, heq⟩ := SparseIndex.mem_sample hmem
        rw [Prod.mk.injEq] at heq
        exact .inr ⟨x.2, heq.2 ▸ hx, heq.1 ▸ hle⟩
  obtain hzero | ⟨e, hmem, hle⟩ := hboundary
  · refine ⟨.inl hzero, ?_, lookupInSstableFileFrom_spec hfile hes (.inl hzero)⟩
    rw [if_pos hzero]
    exact scanSstableFileFor_spec hfile hes key
  · obtain ⟨done, rest, rfl, hframes⟩ := FramesAt.of_mem_locate hfile hmem
    have hvalid : validScanStart c file start key = true := by
      rw [hframes.validScanStart, decide_eq_true hle]
    have hhint : HintFor c file (done ++ e :: rest) key start :=
      .inr ⟨done, e, rest, rfl, hle, hframes⟩
    have hlookup := lookupInSstableFileFrom_spec hfile hes hhint
    refine ⟨.inr ⟨⟨e, hmem⟩, hvalid⟩, ?_, hlookup⟩
    -- a validated hint is where the lookup scans from
    obtain ⟨r, hr, hcand⟩ := hlookup
    refine ⟨r, ?_, hcand⟩
    by_cases hzero : start = 0
    · simpa [lookupInSstableFileFrom, hzero] using hr
    · simpa [lookupInSstableFileFrom, hzero, hvalid] using hr

/-! ### Round trips -/

/-- Every reader of the file delivers the entries it was written from, what is found out about it
at open is what they say, and its index leads to their keys. -/
structure RoundTrip (c : Crates) (es : List SStableEntry) (file : Bytes) : Prop where
  fromPath : readSstableEntriesFromPath c file = .ok es
  fromFile : readSstableEntriesFromFile c file = .ok es
  frames : ∀ short, FrameReader.readFrames file short c (file.length + 1) (.new sstableDataStart) =
    .ok es
  load : loadMetadataFromFile c file = .ok (.ofEntries c es)
  leads : ∀ key, LeadsTo c file es key
    (((SparseIndex.ofEntries c es).map (·.blockStart key)).getD 0)

theorem roundTrip_of_holds (hfile : HoldsEntries c file es)
    (hheader : validateSstableHeader file = .ok ()) (hes : SortedEntries es) :
    RoundTrip c es file := by
  obtain ⟨hpath, hread⟩ := readSstableEntries_spec hfile hes.keyPrefix
  have hlen := FramesAt.length_le hfile
  refine ⟨hpath, hread, fun short => ?_, loadMetadataFromFile_eq hheader hfile,
    leadsTo_blockStart hfile hes.ascending⟩
  exact FrameReader.readFrames_spec short hfile (FrameReader.at_new file _) (by omega)

/-- Summarise a Level-0 file at open; a file that cannot be opened has no summary. -/
def level0FileSummary (c : Crates) (file : Bytes) : Except LSMError (Option L0Summary) :=
  match loadMetadataFromFile c file with
  | .ok l =>
    .ok (match l.bloom, l.maxSeq with
      | some bloom, some maxSeq => some
          { minKey := l.metadata.minKey
            maxKey := l.metadata.maxKey
            maxSeq := maxSeq
            entries := l.metadata.entryCount
            bloom := bloom
            index := l.index }
      | _, _ => none)
  | .error (.io _) => .ok none
  | .error err => .error err

/-- The summary of a Level-0 file of the entries `es`. -/
def L0Summary.ofEntries (c : Crates) (es : List SStableEntry) : Option L0Summary :=
  (L0Summary.ofSorted c (es.map fun e => (e.key, e.seq))).map fun s =>
    { s with index := SparseIndex.ofEntries c es }

private theorem foldl_last (l : List (Key × ℕ)) (x : Key × ℕ) :
    l.foldl (fun acc r => (r.1, if seqNewer r.2 acc.2 then r.2 else acc.2)) x =
      (((x :: l).getLast (List.cons_ne_nil x l)).1,
        (l.map Prod.snd).foldl (fun a b => if seqNewer b a then b else a) x.2) := by
  induction l generalizing x with
  | nil => rfl
  | cons y l ih =>
    rw [List.foldl_cons, ih]
    cases l <;> rfl

/-- The summary made while a file is written is the one made of it at open. -/
theorem level0FileSummary_eq (hload : loadMetadataFromFile c file = .ok (.ofEntries c es)) :
    level0FileSummary c file = .ok (L0Summary.ofEntries c es) := by
  rw [level0FileSummary, hload, L0Summary.ofEntries]
  cases es with
  | nil => rfl
  | cons e es =>
    have hlast : ((e :: es).getLast?.map SStableEntry.key).getD [] =
        (((e.key, e.seq) :: es.map fun e => (e.key, e.seq)).getLast (List.cons_ne_nil _ _)).1 := by
      have hmap : ((e :: es).map fun e => (e.key, e.seq)).getLast (by simp) =
        (((e :: es).getLast (List.cons_ne_nil e es)).key, _) := List.getLast_map _
      rw [List.getLast?_eq_some_getLast (List.cons_ne_nil e es)]
      exact (congrArg Prod.fst hmap).symm
    simp only [LoadedSstable.ofEntries, L0Summary.ofSorted, List.map_cons, foldl_last, hlast,
      newestSeq, List.isEmpty_cons, List.length_cons, List.length_map, List.map_map,
      Function.comp_def, Option.map_some, if_false, Bool.false_eq_true, List.head?_cons,
      Option.getD_some]

/-! ### The two writers -/

theorem writeSstable_round_trip (hes : SortedEntries es) (h : writeSstable c es = .ok (file, index)) :
    RoundTrip c es file := by
  obtain ⟨hholds, hheader, -⟩ := writeSstable_spec h
  exact roundTrip_of_holds hholds hheader hes

/-- The flush of a bucket. -/
theorem writeLevel0FileForRecords_round_trip {numBuckets bucket : ℕ} {records : List KeyValueRecord}
    {timestamp : ℕ} {f : L0FileEntry} (hrec : Ascending KeyValueRecord.key records)
    (h : writeLevel0FileForRecords c numBuckets bucket records timestamp = .ok (some f)) :
    RoundTrip c ((recordsOf c numBuckets bucket records).map .ofRecord) f.file ∧
      f.summary =
        L0Summary.ofEntries c ((recordsOf c numBuckets bucket records).map .ofRecord) := by
  have hasc : Ascending KeyValueRecord.key (recordsOf c numBuckets bucket records) := hrec.filter _
  have hsort : (recordsOf c numBuckets bucket records).insertionSort (fun a b => a.key ≤ b.key) =
      recordsOf c numBuckets bucket records :=
    List.Pairwise.insertionSort_eq (hasc.imp fun hlt => hlt.le)
  have hsorted := sortedEntries_map_ofRecord hasc
  rw [writeLevel0FileForRecords] at h
  simp only at h
  rw [← recordsOf, hsort] at h
  split_ifs at h with hnil
  · simp at h
  · cases hw : writeSstable c ((recordsOf c numBuckets bucket records).map .ofRecord) with
    | error err => simp [hw, Except.map] at h
    | ok w =>
      simp only [hw, Except.map, Except.ok.injEq, Option.some.injEq] at h
      subst h
      refine ⟨writeSstable_round_trip hsorted hw, ?_⟩
      simp only [L0FileEntry.new, writeSstable_index hw, L0Summary.ofEntries, List.map_map]
      rfl

/-- The result of a merge. -/
theorem writeMergedSstable_round_trip (hes : SortedEntries es) (hne : es ≠ []) {m : MergedSstable}
    (h : writeMergedSstable c es = .ok m) :
    RoundTrip c es m.file ∧ m.metadata = some (LoadedSstable.ofEntries c es).metadata ∧
      m.bloom = (LoadedSstable.ofEntries c es).bloom ∧ m.index = SparseIndex.ofEntries c es := by
  obtain _ | ⟨e, es⟩ := es
  · exact absurd rfl hne
  rw [writeMergedSstable] at h
  cases hw : writeSstable c (e :: es) with
  | error err => simp [hw, Except.map] at h
  | ok w =>
    simp only [hw, Except.map, Except.ok.injEq] at h
    subst h
    refine ⟨writeSstable_round_trip hes hw, ?_, rfl, writeSstable_index hw⟩
    simp only [LoadedSstable.ofEntries, List.head?_cons, Option.map_some, Option.getD_some,
      List.getLast?_eq_some_getLast (List.cons_ne_nil e es)]

/-- **Round trip of the written files.** Both writers leave a file that every reader reads back,
with an index that leads to its keys; what each publishes about the file is what the scan at open
finds. -/
theorem sstables_round_trip (c : Crates) :
    (∀ numBuckets bucket records timestamp f, Ascending KeyValueRecord.key records →
      writeLevel0FileForRecords c numBuckets bucket records timestamp = .ok (some f) →
      RoundTrip c ((recordsOf c numBuckets bucket records).map .ofRecord) f.file ∧
        level0FileSummary c f.file = .ok f.summary ∧
        ∀ key, LeadsTo c f.file ((recordsOf c numBuckets bucket records).map .ofRecord) key
          (f.scanStart key)) ∧
    ∀ es m, SortedEntries es → es ≠ [] → writeMergedSstable c es = .ok m →
      RoundTrip c es m.file ∧
        (∃ l, loadMetadataFromFile c m.file = .ok l ∧ m.metadata = some l.metadata ∧
          m.bloom = l.bloom ∧ m.index = l.index) ∧
        ∀ key, LeadsTo c m.file es key ((m.index.map (·.blockStart key)).getD 0) := by
  refine ⟨?_, ?_⟩
  · intro numBuckets bucket records timestamp f hrec h
    obtain ⟨hround, hsummary⟩ := writeLevel0FileForRecords_round_trip hrec h
    have hsame := level0FileSummary_eq hround.load
    refine ⟨hround, hsame.trans (congrArg Except.ok hsummary.symm), fun key => ?_⟩
    have hstart : f.scanStart key = ((SparseIndex.ofEntries c ((recordsOf c numBuckets bucket
        records).map .ofRecord)).map (·.blockStart key)).getD 0 := by
      rw [L0FileEntry.scanStart, hsummary]
      cases recordsOf c numBuckets bucket records <;> rfl
    rw [hstart]
    exact hround.leads key
  · intro es m hes hne h
    obtain ⟨hround, hmeta, hbloom, hindex⟩ := writeMergedSstable_round_trip hes hne h
    refine ⟨hround, ⟨_, hround.load, hmeta, hbloom, hindex⟩, fun key => ?_⟩
    rw [hindex]
    exact hround.leads key

/-- Two records, one of them a tombstone, flushed and merged. -/
theorem sstables_round_trip_real :
    let records : List KeyValueRecord := [⟨[1], 7, false, 3⟩, ⟨[2], 0, true, 4⟩]
    (∃ f, writeLevel0FileForRecords Crates.real 1 0 records 9 = .ok (some f) ∧
      RoundTrip Crates.real ((recordsOf Crates.real 1 0 records).map .ofRecord) f.file) ∧
    ∃ m, writeMergedSstable Crates.real (records.map .ofRecord) = .ok m ∧
      RoundTrip Crates.real (records.map .ofRecord) m.file := by
  intro records
  obtain ⟨hflush, hmerge⟩ := sstables_round_trip Crates.real
  have hrec : Ascending KeyValueRecord.key records :=
    List.pairwise_pair.mpr (by decide)
  refine ⟨?_, ?_⟩
  · have hwritten : (writeLevel0FileForRecords Crates.real 1 0 records 9).toOption.join.isSome := by
      decide +kernel
    cases hw : writeLevel0FileForRecords Crates.real 1 0 records 9 with
    | error err => simp [hw, Except.toOption] at hwritten
    | ok o =>
      cases o with
      | none => simp [hw, Except.toOption] at hwritten
      | some f => exact ⟨f, rfl, (hflush 1 0 records 9 f hrec hw).1⟩
  · have hwritten : (writeMergedSstable Crates.real (records.map .ofRecord)).toOption.isSome := by
      decide +kernel
    cases hw : writeMergedSstable Crates.real (records.map .ofRecord) with
    | error err => simp [hw, Except.toOption] at hwritten
    | ok m =>
      exact ⟨m, rfl, (hmerge _ m (sortedEntries_map_ofRecord hrec) (by decide) hw).1⟩

end Minnal
