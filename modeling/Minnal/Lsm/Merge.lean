import Minnal.Lsm.Tree

/-!
# What flushes and merges write

The contents of a file, as the merge reads it, is `entriesOf`; on the files the tree writes
it is the list they were written from. A flush of a sealed memtable writes, for each bucket,
a file with the bucket's records and a summary that describes it
(`writeLevel0FileForRecords_spec`). A merge collapses its Level-0 inputs to the newest copy
of each key (`collapseLevel0_spec`), merges that with Level 1 and **drops what the winner
deletes**: the copy it leaves for a key is the live part of the winner over its inputs
(`copyIn_twoWayMerge`).
-/

set_option linter.dupNamespace false

namespace Minnal

open ByteCodec FrameWalk SortedMap LastWrite
open List (mem_cons_self mem_cons_of_mem mem_cons subset_cons_self mem_append mem_flatMap mem_map)

/-! ### Contents of a file -/

/-- The entries of a file, as the merge reads them. -/
def entriesOf (c : Crates) (file : Bytes) : List SStableEntry :=
  ((readSstableEntriesFromPath c file).toOption).getD []

variable {es : List SStableEntry}

private theorem foldl_normalise (h : ∀ e ∈ es, e.keyPrefix = keyPrefixOf e.key)
    (acc : List SStableEntry) : es.foldl (fun acc e => acc ++ [.ofArchived e]) acc = acc ++ es := by
  induction es generalizing acc with
  | nil => simp
  | cons e es ih =>
    have he : e.ofArchived = e := by
      rw [SStableEntry.ofArchived, ← h e mem_cons_self]
    rw [List.foldl_cons, ih (fun d hd => h d (mem_cons_of_mem _ hd)), he]
    simp

variable {c : Crates} {file : Bytes}

/-- Both readers of a merge read a well-formed file's entries. -/
theorem readSstableEntries_spec (hfile : HoldsEntries c file es)
    (hpre : ∀ e ∈ es, e.keyPrefix = keyPrefixOf e.key) :
    readSstableEntriesFromPath c file = .ok es ∧ readSstableEntriesFromFile c file = .ok es := by
  have hlen : es.length < file.length + 1 := by
    have hle := FramesAt.length_le hfile
    omega
  have hpos : Reads (nextPositional c file) sstableDataStart es (.ok ()) :=
    FramesAt.reads_positional hfile fun size => List.replicate size 0
  have hfold := foldl_normalise hpre []
  have hvisit : (visitAll (fun (e : SStableEntry) acc => .next (acc ++ [.ofArchived e])) es
      []).value = es := by
    rw [visitAll_next fun (acc : List SStableEntry) (e : SStableEntry) => acc ++ [e.ofArchived]]
    exact hfold
  refine ⟨?_, ?_⟩
  · rw [readSstableEntriesFromPath, walk_eq_ok (FramesAt.reads_sequential hfile) hlen, hvisit]
  · rw [readSstableEntriesFromFile, walk_eq_ok hpos hlen, hvisit]

theorem entriesOf_eq (hfile : HoldsEntries c file es)
    (hpre : ∀ e ∈ es, e.keyPrefix = keyPrefixOf e.key) : entriesOf c file = es := by
  rw [entriesOf, (readSstableEntries_spec hfile hpre).1]
  rfl

@[simp] theorem entriesOf_nil (c : Crates) : entriesOf c [] = [] :=
  entriesOf_eq (holdsEntries_empty c) (by simp)

/-- A file that holds its entries, in order. -/
structure FileSound (c : Crates) (file : Bytes) : Prop where
  holds : HoldsEntries c file (entriesOf c file)
  sorted : SortedEntries (entriesOf c file)

theorem FileSound.of_holds (hfile : HoldsEntries c file es) (hes : SortedEntries es) :
    FileSound c file := by
  have heq := entriesOf_eq hfile hes.keyPrefix
  exact ⟨heq ▸ hfile, heq ▸ hes⟩

theorem fileSound_nil (c : Crates) : FileSound c [] :=
  .of_holds (holdsEntries_empty c) ⟨ascending_nil, by simp⟩

theorem FileSound.read (h : FileSound c file) :
    readSstableEntriesFromPath c file = .ok (entriesOf c file) ∧
      readSstableEntriesFromFile c file = .ok (entriesOf c file) :=
  readSstableEntries_spec h.holds h.sorted.keyPrefix

/-! ### Records as entries -/

/-- The copy of a key among records. -/
def copyInRecords (rs : List KeyValueRecord) (key : Key) : Candidate :=
  (findBy KeyValueRecord.key key rs).map KeyValueRecord.copy

theorem copyInRecords_cons (r : KeyValueRecord) (rs : List KeyValueRecord) (key : Key) :
    copyInRecords (r :: rs) key = if r.key = key then some r.copy else copyInRecords rs key := by
  rw [copyInRecords, findBy_cons]
  split_ifs <;> rfl

variable {rs : List KeyValueRecord}

theorem copyInRecords_eq_none {key : Key} :
    copyInRecords rs key = none ↔ ∀ r ∈ rs, r.key ≠ key := by
  rw [copyInRecords, Option.map_eq_none_iff, findBy_eq_none]

@[simp] theorem copy_ofRecord (r : KeyValueRecord) : (SStableEntry.ofRecord r).copy = r.copy := rfl

@[simp] theorem key_ofRecord (r : KeyValueRecord) : (SStableEntry.ofRecord r).key = r.key := rfl

theorem copyIn_map_ofRecord (rs : List KeyValueRecord) (key : Key) :
    copyIn (rs.map .ofRecord) key = copyInRecords rs key := by
  induction rs with
  | nil => rfl
  | cons r rs ih =>
    rw [List.map_cons, copyIn_cons, copyInRecords_cons, ih]
    rfl

theorem sortedEntries_map_ofRecord (h : Ascending KeyValueRecord.key rs) :
    SortedEntries (rs.map .ofRecord) := by
  refine ⟨List.pairwise_map.mpr h, fun e he => ?_⟩
  obtain ⟨r, -, rfl⟩ := mem_map.mp he
  rfl

/-! ### Flushing -/

/-- What is promised of a written Level-0 file: it has a valid header, holds sorted entries
of its bucket, and its summary describes it. -/
structure L0FileEntry.Sound (c : Crates) (numBuckets bucket : ℕ) (f : L0FileEntry) : Prop where
  header : validateSstableHeader f.file = .ok ()
  sound : FileSound c f.file
  placed : ∀ e ∈ entriesOf c f.file, getBucketForKey c e.key numBuckets = bucket
  described : ∀ s ∈ f.summary, s.Describes c f.file (entriesOf c f.file)

/-- The copy of a key a Level-0 file holds. -/
def L0FileEntry.copy (c : Crates) (f : L0FileEntry) (key : Key) : Candidate :=
  copyIn (entriesOf c f.file) key

/-- The records of a bucket. -/
def recordsOf (c : Crates) (numBuckets bucket : ℕ) (records : List KeyValueRecord) :
    List KeyValueRecord :=
  records.filter fun r => getBucketForKey c r.key numBuckets = bucket

variable {records : List KeyValueRecord}

theorem copyInRecords_recordsOf (c : Crates) (numBuckets bucket : ℕ)
    (h : Ascending KeyValueRecord.key records) (key : Key) :
    copyInRecords (recordsOf c numBuckets bucket records) key =
      if getBucketForKey c key numBuckets = bucket then copyInRecords records key else none := by
  rw [copyInRecords, recordsOf, findBy_filter h]
  cases hfind : findBy KeyValueRecord.key key records with
  | none => simp [copyInRecords, hfind]
  | some r =>
    have hkey : r.key = key := (mem_of_findBy_eq_some hfind).2
    by_cases hb : getBucketForKey c key numBuckets = bucket
    · simp [copyInRecords, hfind, hkey, hb]
    · simp [hkey, hb]

variable {numBuckets timestamp : ℕ}

/-- **Flush of one bucket.** A file is written exactly when the bucket has records; it holds
them and is sound. -/
theorem writeLevel0FileForRecords_spec {bucket : ℕ} {o : Option L0FileEntry}
    (hrec : Ascending KeyValueRecord.key records)
    (h : writeLevel0FileForRecords c numBuckets bucket records timestamp = .ok o) :
    (o = none ∧ recordsOf c numBuckets bucket records = []) ∨
      ∃ f, o = some f ∧ f.createdAtMs = timestamp ∧ f.obsolete = false ∧
        f.Sound c numBuckets bucket ∧
        entriesOf c f.file = (recordsOf c numBuckets bucket records).map .ofRecord := by
  have hasc : Ascending KeyValueRecord.key (recordsOf c numBuckets bucket records) := hrec.filter _
  have hsort : (recordsOf c numBuckets bucket records).insertionSort (fun a b => a.key ≤ b.key) =
      recordsOf c numBuckets bucket records :=
    List.Pairwise.insertionSort_eq (hasc.imp fun hlt => hlt.le)
  rw [writeLevel0FileForRecords] at h
  simp only at h
  rw [← recordsOf, hsort] at h
  by_cases hnil : recordsOf c numBuckets bucket records = []
  · simp only [hnil, List.isEmpty_nil, if_true, Except.ok.injEq] at h
    exact .inl ⟨h.symm, hnil⟩
  · rw [if_neg (by simpa using hnil)] at h
    cases hw : writeSstable c ((recordsOf c numBuckets bucket records).map .ofRecord) with
    | error err => simp [hw, Except.map] at h
    | ok w =>
      obtain ⟨file, index⟩ := w
      obtain ⟨hholds, hheader, hindex⟩ := writeSstable_spec hw
      have hsorted := sortedEntries_map_ofRecord hasc
      have hentries := entriesOf_eq hholds hsorted.keyPrefix
      simp only [hw, Except.map, Except.ok.injEq] at h
      refine .inr ⟨_, h.symm, rfl, rfl, ⟨hheader, .of_holds hholds hsorted, ?_, ?_⟩, hentries⟩
      · intro e he
        rw [L0FileEntry.new, hentries] at he
        obtain ⟨r, hr, rfl⟩ := mem_map.mp he
        simpa [recordsOf] using (List.mem_filter.mp hr).2
      · intro s hs
        simp only [L0FileEntry.new, Option.mem_def, Option.map_eq_some_iff] at hs
        obtain ⟨s₀, hs₀, rfl⟩ := hs
        rw [L0FileEntry.new, hentries]
        refine L0Summary.describes_ofSorted hsorted.ascending ?_ ?_
        · simpa [Function.comp_def, SStableEntry.ofRecord] using hs₀
        · intro i hi
          split_ifs at hi
          · cases hi
          · cases hi
            exact hindex

/-- The files of a whole flush: one for each bucket that has records, and no other. -/
theorem writeLevel0Files_spec {env : FlushEnv} {buckets : List ℕ} {written : List (ℕ × L0FileEntry)}
    (hrec : Ascending KeyValueRecord.key records) (hnodup : buckets.Nodup)
    (h : writeLevel0Files c env numBuckets records timestamp buckets = .ok written) (b : ℕ) :
    match written.lookup b with
    | none => b ∈ buckets → recordsOf c numBuckets b records = []
    | some f => b ∈ buckets ∧ f.createdAtMs = timestamp ∧ f.obsolete = false ∧
        f.Sound c numBuckets b ∧
        entriesOf c f.file = (recordsOf c numBuckets b records).map .ofRecord := by
  induction buckets generalizing written with
  | nil =>
    cases h
    simp
  | cons d rest ih =>
    obtain ⟨hd, hrest⟩ := List.nodup_cons.mp hnodup
    rw [writeLevel0Files] at h
    cases henv : env.writeError d with
    | some kind => simp [henv] at h
    | none =>
      cases hfile : writeLevel0FileForRecords c numBuckets d records timestamp with
      | error err => simp [henv, hfile] at h
      | ok o =>
        cases hrec' : writeLevel0Files c env numBuckets records timestamp rest with
        | error err => simp [henv, hfile, hrec', Except.map] at h
        | ok tail =>
          simp only [henv, hfile, hrec', Except.map, Except.ok.injEq] at h
          subst h
          have htail := ih hrest hrec'
          rcases writeLevel0FileForRecords_spec hrec hfile with ⟨rfl, hnone⟩ | ⟨f, rfl, hf⟩
          · simp only [Option.map_none, Option.toList_none, List.nil_append]
            cases hlook : tail.lookup b with
            | none =>
              simp only [hlook] at htail ⊢
              intro hb
              rcases mem_cons.mp hb with rfl | hb
              · exact hnone
              · exact htail hb
            | some g =>
              simp only [hlook] at htail ⊢
              exact ⟨mem_cons_of_mem _ htail.1, htail.2⟩
          · simp only [Option.map_some, Option.toList_some, List.singleton_append]
            by_cases hbd : b = d
            · subst hbd
              simpa [List.lookup] using hf
            · have hne : (b == d) = false := by simpa using hbd
              simp only [List.lookup, hne]
              cases hlook : tail.lookup b with
              | none =>
                simp only [hlook] at htail ⊢
                intro hb
                exact htail ((mem_cons.mp hb).resolve_left hbd)
              | some g =>
                simp only [hlook] at htail ⊢
                exact ⟨mem_cons_of_mem _ htail.1, htail.2⟩

/-! ### Collapsing Level 0 -/

private theorem keepsKey_newerRecord (record : SStableEntry) :
    KeepsKey SStableEntry.key record.key (newerRecord record) := by
  intro o ho
  cases o with
  | none => rfl
  | some e =>
    rw [newerRecord]
    split_ifs
    · rfl
    · exact ho e rfl

variable {m : List SStableEntry}

/-- One record: at its key the newer or equal one stays, elsewhere nothing changes. -/
theorem foldRecord_spec (hm : SortedEntries m) {r : SStableEntry}
    (hr : r.keyPrefix = keyPrefixOf r.key) :
    SortedEntries (foldRecord m r) ∧ ∀ key, copyIn (foldRecord m r) key =
      newer (if r.key = key then some r.copy else none) (copyIn m key) := by
  have hkeeps := keepsKey_newerRecord r
  have hfind : ∀ e, findBy SStableEntry.key r.key m = some e → e ∈ m :=
    fun e he => (mem_of_findBy_eq_some he).1
  refine ⟨⟨hm.ascending.upsertBy hkeeps, fun e he => ?_⟩, fun key => ?_⟩
  · rcases (mem_upsertBy hm.ascending).mp he with ⟨he, -⟩ | rfl
    · exact hm.keyPrefix e he
    · cases hold : findBy SStableEntry.key r.key m with
      | none => exact hr
      | some e =>
        rw [newerRecord]
        split_ifs
        · exact hr
        · exact hm.keyPrefix e (hfind e hold)
  · rw [copyIn, foldRecord, findBy_upsertBy hkeeps hm.ascending]
    by_cases hkey : key = r.key
    · subst hkey
      rw [if_pos rfl, if_pos rfl, copyIn]
      cases hold : findBy SStableEntry.key r.key m with
      | none => rfl
      | some e =>
        have hseq : r.copy.2 = r.seq ∧ e.copy.2 = e.seq := ⟨rfl, rfl⟩
        simp only [Option.map_some, newer_some_some, hseq, newerRecord, seqNewerOrEq,
          decide_eq_true_eq]
        by_cases hlt : r.seq < e.seq
        · rw [if_pos hlt, if_neg (not_le.mpr hlt)]
        · rw [if_neg hlt, if_pos (not_lt.mp hlt)]
    · rw [if_neg hkey, if_neg (Ne.symm hkey), none_newer, copyIn]

/-- A whole file: each key keeps the newer of the file's copy and the one so far. -/
theorem foldl_foldRecord_spec (hes : SortedEntries es) (hm : SortedEntries m) :
    SortedEntries (es.foldl foldRecord m) ∧ ∀ key, copyIn (es.foldl foldRecord m) key =
      newer (copyIn es key) (copyIn m key) := by
  induction es generalizing m with
  | nil => exact ⟨hm, fun key => by simp⟩
  | cons e es ih =>
    obtain ⟨hlt, hasc⟩ := ascending_cons.mp hes.ascending
    have htail : SortedEntries es := ⟨hasc, fun d hd => hes.keyPrefix d (mem_cons_of_mem _ hd)⟩
    obtain ⟨hm', hcopy'⟩ := foldRecord_spec hm (hes.keyPrefix e mem_cons_self)
    obtain ⟨hsorted, hcopy⟩ := ih htail hm'
    refine ⟨hsorted, fun key => ?_⟩
    rw [List.foldl_cons, hcopy, hcopy', copyIn_cons, ← newer_assoc]
    split_ifs with hkey
    · -- the key is unique in the file
      have hnone : copyIn es key = none :=
        copyIn_eq_none.mpr fun d hd => hkey ▸ (hlt d hd).ne'
      rw [hnone, none_newer]
    · rw [newer_none]

variable {files : List L0FileEntry}

/-- **Collapse.** Over sound files listed oldest first, the collapse keeps for each key the
winner among the non-obsolete files. -/
theorem collapseLevel0_spec (hfiles : ∀ f ∈ files, FileSound c f.file) (hm : SortedEntries m) :
    ∃ byKey, collapseLevel0 c files m = .ok byKey ∧ SortedEntries byKey ∧
      ∀ key, copyIn byKey key =
        newer (resolve ((files.filter fun f => !f.obsolete).map (·.copy c key)).reverse)
          (copyIn m key) := by
  induction files generalizing m with
  | nil => exact ⟨m, rfl, hm, fun key => by simp⟩
  | cons f files ih =>
    have hrest : ∀ g ∈ files, FileSound c g.file := fun g hg => hfiles g (mem_cons_of_mem _ hg)
    rw [collapseLevel0]
    by_cases hobs : f.obsolete = true
    · obtain ⟨byKey, hok, hsorted, hcopy⟩ := ih hrest hm
      refine ⟨byKey, by rw [if_pos hobs, hok], hsorted, fun key => ?_⟩
      rw [hcopy, List.filter_cons_of_neg (by simp [hobs])]
    · have hsound := hfiles f mem_cons_self
      obtain ⟨hm', hcopy'⟩ := foldl_foldRecord_spec hsound.sorted hm
      obtain ⟨byKey, hok, hsorted, hcopy⟩ := ih hrest hm'
      refine ⟨byKey, ?_, hsorted, fun key => ?_⟩
      · simp only [if_neg hobs, hsound.read.1, hok]
      · rw [hcopy, hcopy', List.filter_cons_of_pos (by simp [hobs]), List.map_cons,
          List.reverse_cons, resolve_append, newer_assoc]
        simp [L0FileEntry.copy]

/-- Every collapsed record comes from one of the files. -/
theorem forall_mem_collapseLevel0 {P : SStableEntry → Prop}
    (hfiles : ∀ f ∈ files, FileSound c f.file) (hP : ∀ f ∈ files, ∀ e ∈ entriesOf c f.file, P e)
    {byKey : List SStableEntry} (hm : SortedEntries m) (hmP : ∀ e ∈ m, P e)
    (h : collapseLevel0 c files m = .ok byKey) : ∀ e ∈ byKey, P e := by
  have hfold : ∀ {es m : List SStableEntry}, (∀ e ∈ es, P e) → SortedEntries es →
      (∀ e ∈ m, P e) → SortedEntries m → ∀ e ∈ es.foldl foldRecord m, P e := by
    intro es
    induction es with
    | nil => exact fun _ _ hmP _ => hmP
    | cons r es ih =>
      intro m hes hsorted hmP hm
      have htail : SortedEntries es := ⟨(ascending_cons.mp hsorted.ascending).2,
        fun d hd => hsorted.keyPrefix d (mem_cons_of_mem _ hd)⟩
      refine ih (fun e he => hes e (mem_cons_of_mem _ he)) htail (fun e he => ?_)
        (foldRecord_spec hm (hsorted.keyPrefix r mem_cons_self)).1
      rcases (mem_upsertBy hm.ascending).mp he with ⟨he, -⟩ | rfl
      · exact hmP e he
      · cases hold : findBy SStableEntry.key r.key m with
        | none => exact hes r mem_cons_self
        | some d =>
          rw [newerRecord]
          split_ifs
          · exact hes r mem_cons_self
          · exact hmP d (mem_of_findBy_eq_some hold).1
  induction files generalizing m with
  | nil =>
    cases h
    exact hmP
  | cons f files ih =>
    have hsound := hfiles f mem_cons_self
    have hrest : ∀ g ∈ files, FileSound c g.file := fun g hg => hfiles g (mem_cons_of_mem _ hg)
    have hrestP : ∀ g ∈ files, ∀ e ∈ entriesOf c g.file, P e :=
      fun g hg => hP g (mem_cons_of_mem _ hg)
    rw [collapseLevel0] at h
    by_cases hobs : f.obsolete = true
    · rw [if_pos hobs] at h
      exact ih hrest hrestP hm hmP h
    · simp only [if_neg hobs, hsound.read.1] at h
      exact ih hrest hrestP (foldl_foldRecord_spec hsound.sorted hm).1
        (hfold (hP f mem_cons_self) hsound.sorted hmP hm) h

/-! ### The two-way merge -/

theorem copyIn_keepLive_append (e : SStableEntry) (rest : List SStableEntry) (key : Key) :
    copyIn (keepLive e ++ rest) key =
      if e.key = key ∧ e.tombstone = false then some e.copy else copyIn rest key := by
  unfold keepLive
  cases h : e.tombstone with
  | true => simp
  | false =>
    simp only [Bool.false_eq_true, if_false, List.singleton_append, copyIn_cons, and_true]

private theorem liveCopy_some_copy (e : SStableEntry) :
    liveCopy (some e.copy) = if e.tombstone = false then some e.copy else none := by
  cases h : e.tombstone <;> simp [liveCopy, SStableEntry.copy, h, Option.filter]

variable {e : SStableEntry}

/-- Keeping `e` when it is live, before a merge that has nothing at its key. -/
private theorem copyIn_keepLive_of_none {rest : List SStableEntry}
    (hrest : copyIn rest e.key = none) :
    copyIn (keepLive e ++ rest) e.key = liveCopy (some e.copy) := by
  rw [copyIn_keepLive_append, liveCopy_some_copy, hrest]
  cases e.tombstone <;> simp

theorem copyIn_flatMap_keepLive (hes : Ascending SStableEntry.key es) (key : Key) :
    copyIn (es.flatMap keepLive) key = liveCopy (copyIn es key) := by
  induction es with
  | nil => rfl
  | cons e es ih =>
    obtain ⟨hlt, hes'⟩ := ascending_cons.mp hes
    rw [List.flatMap_cons, copyIn_cons]
    split_ifs with hkey
    · subst hkey
      have hnone : copyIn es e.key = none := copyIn_eq_none.mpr fun d hd => (hlt d hd).ne'
      exact copyIn_keepLive_of_none (by rw [ih hes', hnone, liveCopy_none])
    · rw [copyIn_keepLive_append, if_neg (fun h => hkey h.1), ih hes']

/-- The records alone, as the merge keeps them. -/
private theorem copyIn_flatMap_ofRecord (hrs : Ascending KeyValueRecord.key rs) (key : Key) :
    copyIn (rs.flatMap fun r => keepLive (.ofRecord r)) key = liveCopy (copyInRecords rs key) := by
  have hmap : (rs.flatMap fun r => keepLive (.ofRecord r)) =
      (rs.map SStableEntry.ofRecord).flatMap keepLive := by
    rw [List.flatMap_map]
  rw [hmap, copyIn_flatMap_keepLive (sortedEntries_map_ofRecord hrs).ascending,
    copyIn_map_ofRecord]

/-- **Two-way merge.** Over sorted inputs the merge leaves, for each key, the live part of
the winner, the new record winning a tie. -/
theorem copyIn_twoWayMerge (hes : Ascending SStableEntry.key es)
    (hrs : Ascending KeyValueRecord.key rs) (key : Key) :
    copyIn (twoWayMerge es rs) key = liveCopy (newer (copyInRecords rs key) (copyIn es key)) := by
  -- outer induction on the existing entries, inner one on the new records
  induction es generalizing rs with
  | nil => rw [twoWayMerge, copyIn_flatMap_ofRecord hrs, copyIn_nil, newer_none]
  | cons e es ihes =>
    obtain ⟨helt, hes'⟩ := ascending_cons.mp hes
    rw [twoWayMerge]
    induction rs with
    | nil => rw [mergeEntry, copyIn_flatMap_keepLive hes, copyInRecords, findBy_nil]; rfl
    | cons r rs ihrs =>
      obtain ⟨hrlt, hrs'⟩ := ascending_cons.mp hrs
      rw [mergeEntry]
      rcases lt_trichotomy e.key r.key with hlt | heq | hgt
      · rw [if_pos hlt]
        by_cases hkey : e.key = key
        · subst hkey
          have hrec : copyInRecords (r :: rs) e.key = none := by
            refine copyInRecords_eq_none.mpr fun s hs => ?_
            rcases mem_cons.mp hs with rfl | hs
            · exact hlt.ne'
            · exact (hlt.trans (hrlt s hs)).ne'
          have hold : copyIn es e.key = none := copyIn_eq_none.mpr fun d hd => (helt d hd).ne'
          rw [copyIn_keepLive_of_none (by rw [ihes hes' hrs, hrec, hold]; rfl), hrec, none_newer,
            copyIn_cons, if_pos rfl]
        · rw [copyIn_keepLive_append, if_neg (fun h => hkey h.1), ihes hes' hrs, copyIn_cons,
            if_neg hkey]
      · rw [if_neg heq.not_lt, if_pos heq]
        by_cases hkey : e.key = key
        · subst hkey
          have hrec : copyInRecords rs e.key = none :=
            copyInRecords_eq_none.mpr fun s hs => heq ▸ (hrlt s hs).ne'
          have hold : copyIn es e.key = none := copyIn_eq_none.mpr fun d hd => (helt d hd).ne'
          have hrest : copyIn (twoWayMerge es rs) e.key = none := by
            rw [ihes hes' hrs', hrec, hold]
            rfl
          have hseq : r.copy.2 = r.seq ∧ e.copy.2 = e.seq := ⟨rfl, rfl⟩
          rw [copyInRecords_cons, if_pos heq.symm, copyIn_cons, if_pos rfl, newer_some_some, hseq.1,
            hseq.2]
          by_cases hnew : e.seq ≤ r.seq
          · have hrest' : copyIn (twoWayMerge es rs) (SStableEntry.ofRecord r).key = none := by
              rw [key_ofRecord, ← heq]
              exact hrest
            have hkept := copyIn_keepLive_of_none hrest'
            rw [key_ofRecord, ← heq, copy_ofRecord] at hkept
            rw [if_pos (by simpa [seqNewerOrEq] using hnew), if_neg (not_lt.mpr hnew), hkept]
          · rw [if_neg (by simpa [seqNewerOrEq] using hnew), if_pos (not_le.mp hnew),
              copyIn_keepLive_of_none hrest]
        · have hskip : ∀ l, copyIn ((if seqNewerOrEq r.seq e.seq then keepLive (.ofRecord r)
              else keepLive e) ++ l) key = copyIn l key := by
            intro l
            split_ifs
            · rw [copyIn_keepLive_append, if_neg (fun h => hkey (heq.trans h.1))]
            · rw [copyIn_keepLive_append, if_neg (fun h => hkey h.1)]
          rw [hskip, ihes hes' hrs', copyInRecords_cons, if_neg (fun h => hkey (heq.trans h)),
            copyIn_cons, if_neg hkey]
      · rw [if_neg hgt.not_gt, if_neg hgt.ne']
        by_cases hkey : r.key = key
        · subst hkey
          have hold : copyIn (e :: es) r.key = none := by
            refine copyIn_eq_none.mpr fun d hd => ?_
            rcases mem_cons.mp hd with rfl | hd
            · exact hgt.ne'
            · exact (hgt.trans (helt d hd)).ne'
          have hrec : copyInRecords rs r.key = none :=
            copyInRecords_eq_none.mpr fun s hs => (hrlt s hs).ne'
          have hrest : copyIn (mergeEntry e es (twoWayMerge es) rs)
              (SStableEntry.ofRecord r).key = none := by
            rw [key_ofRecord, ihrs hrs', hrec, hold]
            rfl
          have hkept := copyIn_keepLive_of_none hrest
          rw [key_ofRecord, copy_ofRecord] at hkept
          rw [hkept, copyInRecords_cons, if_pos rfl, hold, newer_none]
        · rw [copyIn_keepLive_append, if_neg (fun h => hkey h.1), ihrs hrs', copyInRecords_cons,
            if_neg hkey]

variable {x : SStableEntry}

theorem mem_keepLive : x ∈ keepLive e ↔ x = e ∧ e.tombstone = false := by
  unfold keepLive
  cases h : e.tombstone <;> simp

/-- What the merge keeps is live and comes from its inputs. -/
theorem mem_twoWayMerge (hx : x ∈ twoWayMerge es rs) :
    x.tombstone = false ∧ (x ∈ es ∨ ∃ r ∈ rs, x = .ofRecord r) := by
  induction es generalizing rs with
  | nil =>
    obtain ⟨r, hr, hmem⟩ := mem_flatMap.mp hx
    obtain ⟨rfl, hlive⟩ := mem_keepLive.mp hmem
    exact ⟨hlive, .inr ⟨r, hr, rfl⟩⟩
  | cons e es ihes =>
    rw [twoWayMerge] at hx
    induction rs with
    | nil =>
      obtain ⟨d, hd, hmem⟩ := mem_flatMap.mp hx
      obtain ⟨rfl, hlive⟩ := mem_keepLive.mp hmem
      exact ⟨hlive, .inl hd⟩
    | cons r rs ihrs =>
      have hentry : x ∈ keepLive e →
          x.tombstone = false ∧ (x ∈ e :: es ∨ ∃ s ∈ r :: rs, x = .ofRecord s) := by
        intro hmem
        obtain ⟨rfl, hlive⟩ := mem_keepLive.mp hmem
        exact ⟨hlive, .inl mem_cons_self⟩
      have hrecord : x ∈ keepLive (.ofRecord r) →
          x.tombstone = false ∧ (x ∈ e :: es ∨ ∃ s ∈ r :: rs, x = .ofRecord s) := by
        intro hmem
        obtain ⟨rfl, hlive⟩ := mem_keepLive.mp hmem
        exact ⟨hlive, .inr ⟨r, mem_cons_self, rfl⟩⟩
      have hlater : ∀ {ds : List SStableEntry} {ss : List KeyValueRecord}, ds ⊆ e :: es →
          ss ⊆ r :: rs → (x.tombstone = false ∧ (x ∈ ds ∨ ∃ s ∈ ss, x = .ofRecord s)) →
          x.tombstone = false ∧ (x ∈ e :: es ∨ ∃ s ∈ r :: rs, x = .ofRecord s) := by
        rintro ds ss hds hss ⟨hlive, hmem | ⟨s, hs, heq⟩⟩
        · exact ⟨hlive, .inl (hds hmem)⟩
        · exact ⟨hlive, .inr ⟨s, hss hs, heq⟩⟩
      rw [mergeEntry] at hx
      split_ifs at hx with hlt heq hnew
      · rcases mem_append.mp hx with hx | hx
        · exact hentry hx
        · exact hlater (subset_cons_self _ _) (List.Subset.refl _) (ihes hx)
      · rcases mem_append.mp hx with hx | hx
        · exact hrecord hx
        · exact hlater (subset_cons_self _ _) (subset_cons_self _ _) (ihes hx)
      · rcases mem_append.mp hx with hx | hx
        · exact hentry hx
        · exact hlater (subset_cons_self _ _) (subset_cons_self _ _) (ihes hx)
      · rcases mem_append.mp hx with hx | hx
        · exact hrecord hx
        · exact hlater (List.Subset.refl _) (subset_cons_self _ _) (ihrs hx)

private theorem ascending_keepLive_append {l : List SStableEntry}
    (hl : Ascending SStableEntry.key l) (h : ∀ d ∈ l, e.key < d.key) :
    Ascending SStableEntry.key (keepLive e ++ l) := by
  unfold keepLive
  split_ifs
  · exact hl
  · exact ascending_cons.mpr ⟨h, hl⟩

/-- The merge of sorted inputs is sorted. -/
theorem ascending_twoWayMerge (hes : Ascending SStableEntry.key es)
    (hrs : Ascending KeyValueRecord.key rs) : Ascending SStableEntry.key (twoWayMerge es rs) := by
  -- a bound on both inputs bounds the merge
  have hbound : ∀ {ds : List SStableEntry} {ss : List KeyValueRecord} {k : Key},
      (∀ d ∈ ds, k < d.key) → (∀ s ∈ ss, k < s.key) → ∀ x ∈ twoWayMerge ds ss, k < x.key := by
    intro ds ss k hds hss x hx
    rcases (mem_twoWayMerge hx).2 with hx | ⟨s, hs, rfl⟩
    · exact hds x hx
    · exact hss s hs
  induction es generalizing rs with
  | nil =>
    rw [twoWayMerge]
    induction rs with
    | nil => exact ascending_nil
    | cons r rs ih =>
      obtain ⟨hlt, hrs'⟩ := ascending_cons.mp hrs
      refine ascending_keepLive_append (ih hrs') fun d hd => ?_
      obtain ⟨s, hs, hmem⟩ := mem_flatMap.mp hd
      obtain ⟨rfl, -⟩ := mem_keepLive.mp hmem
      exact hlt s hs
  | cons e es ihes =>
    obtain ⟨helt, hes'⟩ := ascending_cons.mp hes
    rw [twoWayMerge]
    induction rs with
    | nil =>
      rw [mergeEntry]
      have hflat : (e :: es).flatMap keepLive = (e :: es).filter fun d => !d.tombstone := by
        generalize e :: es = l
        induction l with
        | nil => rfl
        | cons d l ih => cases h : d.tombstone <;> simp [List.flatMap_cons, keepLive, h, ih]
      rw [hflat]
      exact hes.filter _
    | cons r rs ihrs =>
      obtain ⟨hrlt, hrs'⟩ := ascending_cons.mp hrs
      rw [mergeEntry]
      rcases lt_trichotomy e.key r.key with hlt | heq | hgt
      · rw [if_pos hlt]
        refine ascending_keepLive_append (ihes hes' hrs) (hbound helt fun s hs => ?_)
        rcases mem_cons.mp hs with rfl | hs
        · exact hlt
        · exact hlt.trans (hrlt s hs)
      · rw [if_neg heq.not_lt, if_pos heq]
        have hrest := hbound helt fun s hs => heq ▸ hrlt s hs
        split_ifs
        · exact ascending_keepLive_append (ihes hes' hrs') fun d hd => by
            simpa [heq] using hrest d hd
        · exact ascending_keepLive_append (ihes hes' hrs') hrest
      · rw [if_neg hgt.not_gt, if_neg hgt.ne']
        refine ascending_keepLive_append (ihrs hrs') ?_
        have hmerge : mergeEntry e es (twoWayMerge es) rs = twoWayMerge (e :: es) rs := rfl
        rw [hmerge]
        refine hbound (fun d hd => ?_) hrlt
        rcases mem_cons.mp hd with rfl | hd
        · exact hgt
        · exact hgt.trans (helt d hd)

/-! ### What a merge publishes -/

/-- What is known in memory of a Level-1 file describes the file; a file nothing is known of
is empty. -/
structure Level1Sound (c : Crates) (file : Bytes) (metadata : Option SStableMetadata)
    (bloom : Option BloomFilter) (index : Option SparseIndex) : Prop where
  sound : FileSound c file
  header : file = [] ∨ validateSstableHeader file = .ok ()
  described : ∀ m ∈ metadata, m.Describes (entriesOf c file)
  undescribed : metadata = none → entriesOf c file = []
  accepted : ∀ f ∈ bloom, ∀ e ∈ entriesOf c file, f.contains c e.key = true
  indexed : ∀ i ∈ index, i.PointsInto c file (entriesOf c file)

theorem level1Sound_empty (c : Crates) :
    Level1Sound c [] none (some (.build c [] 0)) none where
  sound := fileSound_nil c
  header := .inl rfl
  described := by simp
  undescribed := by simp
  accepted := by simp
  indexed := by simp

/-- A merged file holds the merged entries and is described by what is published with it. -/
theorem writeMergedSstable_spec (hes : SortedEntries es) {m : MergedSstable}
    (h : writeMergedSstable c es = .ok m) :
    Level1Sound c m.file m.metadata m.bloom m.index ∧ entriesOf c m.file = es := by
  cases es with
  | nil =>
    cases h
    exact ⟨level1Sound_empty c, entriesOf_nil c⟩
  | cons first rest =>
    rw [writeMergedSstable] at h
    cases hw : writeSstable c (first :: rest) with
    | error err => simp [hw, Except.map] at h
    | ok w =>
      obtain ⟨hholds, hheader, hindex⟩ := writeSstable_spec hw
      have hentries := entriesOf_eq hholds hes.keyPrefix
      simp only [hw, Except.map, Except.ok.injEq] at h
      subst h
      refine ⟨⟨.of_holds hholds hes, .inr hheader, ?_, by simp, ?_, ?_⟩, hentries⟩
      · intro m hm
        cases hm
        rw [hentries]
        refine ⟨range_of_ascending hes.ascending, rfl, fun s hs e he => ?_⟩
        exact le_of_newestSeq hs (List.mem_map_of_mem (f := fun e : SStableEntry => e.seq) he)
      · intro f hf e he
        cases hf
        rw [hentries] at he
        exact BloomFilter.contains_build c
          (List.mem_map_of_mem (f := fun e : SStableEntry => e.key) he) _
      · intro i hi
        rw [hentries]
        simp only at hi
        split_ifs at hi
        · cases hi
        · cases hi
          exact hindex

end Minnal
