import Minnal.Lsm.Merge

/-!
# The layers of the tree and the invariant its operations keep

`LSMTree.layers t key` lists what each layer holds of a key, newest layer first: the active
memtable, the sealed memtables, the Level-0 files of the key's bucket that are not obsolete,
and Level 1. Resolving that list (`LSMTree.winner`) is the tree's **meaning** of a key: the
copy of highest sequence, a tie going to the newer layer. No shortcut enters this definition.

`LSMTree.Sound` is what every operation keeps: files hold sorted entries of their own bucket,
what is known of a file in memory describes it, Level-0 stamps are distinct and at most the
last one issued, and `maxLowerSeq` bounds the sequence of everything below the active
memtable. `sound_run` says so for every run.
-/

set_option linter.dupNamespace false

namespace Minnal

open ByteCodec FrameWalk SortedMap LastWrite SStableEntry
open List (mem_map mem_filter mem_append mem_singleton pairwise_map map_map perm_insertionSort)

/-! ### Flush order -/

variable {files : List L0FileEntry} {f : L0FileEntry}

theorem mem_newestFirst : f ∈ newestFirst files ↔ f ∈ files :=
  List.mem_insertionSort _

private theorem pairwise_le_newestFirst (files : List L0FileEntry) :
    (newestFirst files).Pairwise fun a b => b.createdAtMs ≤ a.createdAtMs := by
  have htotal : Std.Total fun a b : L0FileEntry => b.createdAtMs ≤ a.createdAtMs :=
    ⟨fun a b => le_total b.createdAtMs a.createdAtMs⟩
  have htrans : IsTrans L0FileEntry fun a b => b.createdAtMs ≤ a.createdAtMs :=
    ⟨fun _ _ _ hab hbc => hbc.trans hab⟩
  exact List.pairwise_insertionSort _ files

private theorem pairwise_le_oldestFirst (files : List L0FileEntry) :
    (oldestFirst files).Pairwise fun a b => a.createdAtMs ≤ b.createdAtMs := by
  have htotal : Std.Total fun a b : L0FileEntry => a.createdAtMs ≤ b.createdAtMs :=
    ⟨fun a b => le_total a.createdAtMs b.createdAtMs⟩
  have htrans : IsTrans L0FileEntry fun a b => a.createdAtMs ≤ b.createdAtMs :=
    ⟨fun _ _ _ hab hbc => hab.trans hbc⟩
  exact List.pairwise_insertionSort _ files

/-- Strictly descending stamps determine the order of a set of files. -/
theorem eq_newestFirst {l : List L0FileEntry} (hperm : l.Perm files)
    (hl : l.Pairwise fun a b => b.createdAtMs < a.createdAtMs) : l = newestFirst files := by
  have hnodup : (l.map (·.createdAtMs)).Nodup :=
    pairwise_map.mpr (hl.imp fun h => h.ne')
  refine List.Perm.eq_of_pairwise ?_ (hl.imp fun h => h.le) (pairwise_le_newestFirst files)
    (hperm.trans (perm_insertionSort _ files).symm)
  intro a b ha hb hab hba
  have hb' : b ∈ l := hperm.symm.subset (mem_newestFirst.mp hb)
  exact List.inj_on_of_nodup_map hnodup ha hb' (le_antisymm hba hab)

theorem pairwise_newestFirst (hnodup : (files.map (·.createdAtMs)).Nodup) :
    (newestFirst files).Pairwise fun a b => b.createdAtMs < a.createdAtMs := by
  have hne : (newestFirst files).Pairwise fun a b => a.createdAtMs ≠ b.createdAtMs :=
    pairwise_map.mp (((perm_insertionSort _ files).map _).nodup_iff.mpr hnodup)
  exact ((pairwise_le_newestFirst files).and hne).imp
    fun ⟨hle, hne⟩ => lt_of_le_of_ne hle (Ne.symm hne)

/-- Reading the flush order backwards. -/
theorem reverse_oldestFirst (hnodup : (files.map (·.createdAtMs)).Nodup) :
    (oldestFirst files).reverse = newestFirst files := by
  have hperm : (oldestFirst files).Perm files := perm_insertionSort _ files
  have hne : (oldestFirst files).Pairwise fun a b => a.createdAtMs ≠ b.createdAtMs :=
    pairwise_map.mp ((hperm.map _).nodup_iff.mpr hnodup)
  refine eq_newestFirst ((List.reverse_perm _).trans hperm) (List.pairwise_reverse.mpr ?_)
  exact ((pairwise_le_oldestFirst files).and hne).imp fun ⟨hle, hne⟩ => lt_of_le_of_ne hle hne

theorem filter_newestFirst (hnodup : (files.map (·.createdAtMs)).Nodup) (p : L0FileEntry → Bool) :
    (newestFirst files).filter p = newestFirst (files.filter p) :=
  eq_newestFirst ((perm_insertionSort _ files).filter p)
    ((pairwise_newestFirst hnodup).sublist List.filter_sublist)

/-- Changing files without touching their stamps does not reorder them. -/
theorem map_newestFirst (files : List L0FileEntry) {f : L0FileEntry → L0FileEntry}
    (hf : ∀ e, (f e).createdAtMs = e.createdAtMs) :
    newestFirst (files.map f) = (newestFirst files).map f := by
  refine (List.map_insertionSort _ _ f files fun a _ b _ => ?_).symm
  rw [hf, hf]

/-- A file with a stamp above all others comes first. -/
theorem newestFirst_append_singleton (hnodup : (files.map (·.createdAtMs)).Nodup)
    (hf : ∀ e ∈ files, e.createdAtMs < f.createdAtMs) :
    newestFirst (files ++ [f]) = f :: newestFirst files := by
  refine (eq_newestFirst ?_ ?_).symm
  · exact ((perm_insertionSort _ files).cons f).trans (List.perm_append_singleton f files).symm
  · exact List.pairwise_cons.mpr
      ⟨fun e he => hf e (mem_newestFirst.mp he), pairwise_newestFirst hnodup⟩

/-! ### Layers -/

variable {b : Bucket} {c : Crates} {n : ℕ}

namespace Bucket

/-- The Level-0 files that count, newest first. -/
def liveFiles (b : Bucket) : List L0FileEntry :=
  (newestFirst b.level0Files).filter fun f => !f.obsolete

/-- The copy of a key in Level 1. -/
def level1Copy (c : Crates) (b : Bucket) (key : Key) : Candidate :=
  copyIn (entriesOf c b.sstableFile) key

/-- The copies of a key in a bucket, newest layer first. -/
def layers (c : Crates) (b : Bucket) (key : Key) : List Candidate :=
  b.liveFiles.map (·.copy c key) ++ [b.level1Copy c key]

/-- What every operation keeps of a bucket. -/
structure Sound (c : Crates) (numBuckets bucket : ℕ) (b : Bucket) : Prop where
  level0 : ∀ f ∈ b.level0Files, f.Sound c numBuckets bucket
  stamps : (b.level0Files.map (·.createdAtMs)).Nodup
  level1 : Level1Sound c b.sstableFile b.sstableMetadata b.sstableBloom b.sstableIndex
  placed : ∀ e ∈ entriesOf c b.sstableFile, getBucketForKey c e.key numBuckets = bucket

/-- Every sequence in the bucket is at most `m`. -/
structure SeqBound (c : Crates) (b : Bucket) (m : ℕ) : Prop where
  level0 : ∀ f ∈ b.level0Files, ∀ e ∈ entriesOf c f.file, e.seq ≤ m
  level1 : ∀ e ∈ entriesOf c b.sstableFile, e.seq ≤ m

theorem mem_liveFiles : f ∈ b.liveFiles ↔ f ∈ b.level0Files ∧ f.obsolete = false := by
  simp [liveFiles, mem_newestFirst]

theorem SeqBound.mono {m : ℕ} (h : b.SeqBound c m) (hmn : m ≤ n) : b.SeqBound c n :=
  ⟨fun f hf e he => (h.level0 f hf e he).trans hmn, fun e he => (h.level1 e he).trans hmn⟩

/-- The bound covers every copy of the bucket. -/
theorem SeqBound.layers {m : ℕ} (h : b.SeqBound c m) (key : Key) :
    ∀ x ∈ b.layers c key, AtMost m x := by
  intro x hx
  rcases mem_append.mp hx with hx | hx
  · obtain ⟨f, hf, rfl⟩ := mem_map.mp hx
    exact atMost_copyIn (h.level0 f (mem_liveFiles.mp hf).1) key
  · obtain rfl := mem_singleton.mp hx
    exact atMost_copyIn h.level1 key

end Bucket

namespace LSMTree

/-- The copies of a key in the tree, newest layer first. -/
def layers (c : Crates) (t : LSMTree) (key : Key) : List Candidate :=
  t.memtable.copy key ::
    (t.readOnlyMemtables.reverse.map (·.copy key) ++ (t.buckets (t.bucketOf c key)).layers c key)

/-- The copy of highest sequence over all layers, a tie going to the newer layer. -/
def winner (c : Crates) (t : LSMTree) (key : Key) : Candidate := resolve (t.layers c key)

/-- What every operation keeps of the tree. -/
structure Sound (c : Crates) (t : LSMTree) : Prop where
  bucket : ∀ b, (t.buckets b).Sound c t.config.numBuckets b
  stamp : ∀ b, ∀ f ∈ (t.buckets b).level0Files, f.createdAtMs ≤ t.lastL0Stamp
  roBound : ∀ ro ∈ t.readOnlyMemtables, ∀ r ∈ ro.records, r.seq ≤ t.maxLowerSeq
  bound : ∀ b, (t.buckets b).SeqBound c t.maxLowerSeq

end LSMTree

theorem atMost_copy_of_records {ro : ReadOnlyMemTable} {m : ℕ} (h : ∀ r ∈ ro.records, r.seq ≤ m)
    (key : Key) : AtMost m (ro.copy key) := by
  intro x hx
  obtain ⟨r, hr, rfl⟩ := Option.map_eq_some_iff.mp hx
  exact h r (mem_of_findBy_eq_some hr).1

/-! ### What a merge does to its bucket -/

variable {m : MergedSstable} {numBuckets bucket : ℕ} {snapshot : List ℕ}

namespace Bucket

/-- The files of a snapshot that count, newest first. -/
def mergedFiles (b : Bucket) (snapshot : List ℕ) : List L0FileEntry :=
  b.liveFiles.filter fun f => f.createdAtMs ∈ snapshot

/-- The files that count and are not in the snapshot, newest first. -/
def unmergedFiles (b : Bucket) (snapshot : List ℕ) : List L0FileEntry :=
  b.liveFiles.filter fun f => f.createdAtMs ∉ snapshot

/-- The winner over what a merge of the snapshot reads. -/
def mergeWinner (c : Crates) (b : Bucket) (snapshot : List ℕ) (key : Key) : Candidate :=
  newer (resolve ((b.mergedFiles snapshot).map (·.copy c key))) (b.level1Copy c key)

/-- What is promised of a prepared merge: a sound file of live entries of this bucket whose
copy of a key is the live part of the winner over the inputs. -/
structure Prepared (c : Crates) (numBuckets bucket : ℕ) (b : Bucket) (snapshot : List ℕ)
    (m : MergedSstable) : Prop where
  level1 : Level1Sound c m.file m.metadata m.bloom m.index
  placed : ∀ e ∈ entriesOf c m.file, getBucketForKey c e.key numBuckets = bucket
  live : ∀ e ∈ entriesOf c m.file, e.tombstone = false
  copy : ∀ key, copyIn (entriesOf c m.file) key = liveCopy (b.mergeWinner c snapshot key)

private theorem map_ofRecord_toRecord {es : List SStableEntry} (hes : SortedEntries es) :
    (es.map toRecord).map .ofRecord = es := by
  rw [map_map]
  refine List.map_congr_left (fun e he => ?_) |>.trans (List.map_id es)
  have hpre := hes.keyPrefix e he
  cases e
  simp_all [toRecord, ofRecord]

/-- The collapse of a snapshot holds the winner over its files that count. -/
private theorem collapse_snapshot (hb : b.Sound c numBuckets bucket) (snapshot : List ℕ) :
    ∃ byKey, collapseLevel0 c (b.snapshotFiles snapshot) [] = .ok byKey ∧ SortedEntries byKey ∧
      ∀ key, copyIn byKey key = resolve ((b.mergedFiles snapshot).map (·.copy c key)) := by
  have hnodup : ((b.level0Files.filter fun e => e.createdAtMs ∈ snapshot).map
      (·.createdAtMs)).Nodup :=
    hb.stamps.sublist (List.filter_sublist.map _)
  have hfiles : ∀ f ∈ b.snapshotFiles snapshot, FileSound c f.file := by
    intro f hf
    have hmem := (mem_filter.mp ((List.mem_insertionSort _).mp hf)).1
    exact (hb.level0 f hmem).sound
  have hempty : SortedEntries [] := ⟨ascending_nil, by simp⟩
  obtain ⟨byKey, hok, hsorted, hcopy⟩ := collapseLevel0_spec hfiles hempty
  refine ⟨byKey, hok, hsorted, fun key => ?_⟩
  -- oldest first backwards is newest first, and the two filters commute
  have horder : ((b.snapshotFiles snapshot).filter fun f => !f.obsolete).reverse =
      b.mergedFiles snapshot := by
    rw [snapshotFiles, ← List.filter_reverse, reverse_oldestFirst hnodup,
      ← filter_newestFirst hb.stamps, mergedFiles, liveFiles, List.filter_filter,
      List.filter_filter]
    refine List.filter_congr fun f _ => ?_
    rw [Bool.and_comm]
  rw [hcopy, copyIn_nil, newer_none, ← List.map_reverse, horder]

/-- **Merge.** A merge of a sound bucket prepares what it promises. -/
theorem prepareMerge_spec (hb : b.Sound c numBuckets bucket)
    (h : b.prepareMerge c snapshot = .ok (some m)) : Prepared c numBuckets bucket b snapshot m := by
  obtain ⟨byKey, hcollapse, hsorted, hcopy⟩ := collapse_snapshot hb snapshot
  rw [prepareMerge, hcollapse] at h
  simp only [hb.level1.sound.read.2] at h
  by_cases hnil : byKey.isEmpty = true
  · simp [hnil] at h
  rw [if_neg hnil] at h
  cases hw : writeMergedSstable c (twoWayMerge (entriesOf c b.sstableFile)
      (byKey.map toRecord)) with
  | error err => simp [hw, Except.map] at h
  | ok out =>
    simp only [hw, Except.map, Except.ok.injEq, Option.some.injEq] at h
    subst h
    have hrsAsc : Ascending KeyValueRecord.key (byKey.map toRecord) :=
      pairwise_map.mpr hsorted.ascending
    have hback := map_ofRecord_toRecord hsorted
    have hmem : ∀ x ∈ twoWayMerge (entriesOf c b.sstableFile) (byKey.map toRecord),
        x.tombstone = false ∧ (x ∈ entriesOf c b.sstableFile ∨ x ∈ byKey) := by
      intro x hx
      obtain ⟨hlive, hx | ⟨r, hr, rfl⟩⟩ := mem_twoWayMerge hx
      · exact ⟨hlive, .inl hx⟩
      · refine ⟨hlive, .inr ?_⟩
        rw [← hback]
        exact List.mem_map_of_mem hr
    have hout : SortedEntries (twoWayMerge (entriesOf c b.sstableFile)
        (byKey.map toRecord)) := by
      refine ⟨ascending_twoWayMerge hb.level1.sound.sorted.ascending hrsAsc, fun x hx => ?_⟩
      rcases (hmem x hx).2 with hx | hx
      · exact hb.level1.sound.sorted.keyPrefix x hx
      · exact hsorted.keyPrefix x hx
    obtain ⟨hlevel1, hentries⟩ := writeMergedSstable_spec hout hw
    refine ⟨hlevel1, fun e he => ?_, fun e he => ?_, fun key => ?_⟩
    · rw [hentries] at he
      rcases (hmem e he).2 with he | he
      · exact hb.placed e he
      · -- a collapsed entry comes from one of the files
        have hfound : copyIn byKey e.key = some e.copy :=
          (copyIn_eq_some hsorted.ascending).mpr ⟨e, he, rfl, rfl⟩
        rw [hcopy] at hfound
        obtain ⟨f, hf, hfe⟩ := mem_map.mp (mem_of_resolve_eq_some hfound)
        obtain ⟨d, hd, hkey, -⟩ := exists_of_copyIn hfe
        have hfile := (mem_liveFiles.mp (mem_filter.mp hf).1).1
        exact hkey ▸ (hb.level0 f hfile).placed d hd
    · rw [hentries] at he
      exact (hmem e he).1
    · rw [hentries, copyIn_twoWayMerge hb.level1.sound.sorted.ascending hrsAsc, mergeWinner,
        ← hcopy, ← copyIn_map_ofRecord, hback]
      rfl

/-- **Merges do not fail.** A merge of a sound bucket finds no record to merge, or succeeds:
whatever it writes was in a file before. -/
theorem prepareMerge_total (hb : b.Sound c numBuckets bucket) (snapshot : List ℕ) :
    (b.prepareMerge c snapshot = .ok none ∧ ∀ f ∈ b.mergedFiles snapshot, entriesOf c f.file = []) ∨
      (∃ m, b.prepareMerge c snapshot = .ok (some m)) ∧
        ¬ ∀ f ∈ b.mergedFiles snapshot, entriesOf c f.file = [] := by
  obtain ⟨byKey, hcollapse, hsorted, hcopy⟩ := collapse_snapshot hb snapshot
  have hfiles : ∀ f ∈ b.snapshotFiles snapshot, FileSound c f.file := by
    intro f hf
    have hmem := (mem_filter.mp ((List.mem_insertionSort _).mp hf)).1
    exact (hb.level0 f hmem).sound
  have hempty : byKey = [] ↔ ∀ f ∈ b.mergedFiles snapshot, entriesOf c f.file = [] := by
    constructor
    · intro hnil f hf
      refine List.eq_nil_iff_forall_not_mem.mpr fun e he => ?_
      have hnone := hcopy e.key
      rw [hnil, copyIn_nil, eq_comm, resolve_eq_none] at hnone
      exact copyIn_eq_none.mp (hnone _ (List.mem_map_of_mem hf)) e he rfl
    · intro hall
      refine List.eq_nil_iff_forall_not_mem.mpr fun e he => ?_
      have hnone : copyIn byKey e.key = none := by
        rw [hcopy, resolve_eq_none]
        intro x hx
        obtain ⟨f, hf, rfl⟩ := mem_map.mp hx
        rw [L0FileEntry.copy, hall f hf, copyIn_nil]
      exact copyIn_eq_none.mp hnone e he rfl
  rw [prepareMerge, hcollapse]
  simp only [hb.level1.sound.read.2]
  by_cases hnil : byKey = []
  · refine .inl ⟨?_, hempty.mp hnil⟩
    rw [hnil]
    rfl
  · refine .inr ⟨?_, fun hall => hnil (hempty.mpr hall)⟩
    have hmerged : ∀ e ∈ twoWayMerge (entriesOf c b.sstableFile)
        (byKey.map toRecord), ∃ payload, encodeSstableEntry c e = .ok payload := by
      intro e he
      obtain ⟨-, he | ⟨r, hr, rfl⟩⟩ := mem_twoWayMerge he
      · exact hb.level1.sound.holds.encodable e he
      · have hmem : ofRecord r ∈ byKey := by
          rw [← map_ofRecord_toRecord hsorted]
          exact List.mem_map_of_mem hr
        refine forall_mem_collapseLevel0 (P := fun e => ∃ payload, encodeSstableEntry c e =
          .ok payload) hfiles (fun f hf => (hfiles f hf).holds.encodable)
          ⟨ascending_nil, by simp⟩ (by simp) hcollapse _ hmem
    have hwrite : ∃ m, writeMergedSstable c (twoWayMerge (entriesOf c b.sstableFile)
        (byKey.map toRecord)) = .ok m := by
      generalize twoWayMerge (entriesOf c b.sstableFile) (byKey.map toRecord) = es
        at hmerged
      cases es with
      | nil => exact ⟨_, rfl⟩
      | cons first rest =>
        obtain ⟨w, hw⟩ := exists_writeSstable hmerged
        rw [writeMergedSstable, hw]
        exact ⟨_, rfl⟩
    obtain ⟨m, hm⟩ := hwrite
    refine ⟨m, ?_⟩
    have hne : byKey.isEmpty = false := by simpa using hnil
    simp only [hne, Bool.false_eq_true, if_false, hm]
    rfl

private theorem filter_markObsolete (l : List L0FileEntry) (snapshot : List ℕ) :
    (l.map fun e => if e.createdAtMs ∈ snapshot then { e with obsolete := true } else e).filter
        (fun f => !f.obsolete) =
      (l.filter fun f => !f.obsolete).filter fun f => f.createdAtMs ∉ snapshot := by
  induction l with
  | nil => rfl
  | cons e l ih =>
    by_cases hmem : e.createdAtMs ∈ snapshot
    · cases hobs : e.obsolete <;> simp [hmem, hobs, ih]
    · cases hobs : e.obsolete <;> simp [hmem, hobs, ih]

/-- Once published, the files that count are those outside the snapshot. -/
theorem liveFiles_publish (b : Bucket) (m : MergedSstable) (snapshot : List ℕ) :
    (b.publish m snapshot).liveFiles = b.unmergedFiles snapshot := by
  have hkeep : ∀ e : L0FileEntry, (if e.createdAtMs ∈ snapshot then { e with obsolete := true }
      else e).createdAtMs = e.createdAtMs := by
    intro e
    split_ifs <;> rfl
  change (newestFirst (b.level0Files.map _)).filter _ = _
  rw [map_newestFirst b.level0Files hkeep, filter_markObsolete]
  rfl

theorem mem_publish (hf : f ∈ (b.publish m snapshot).level0Files) :
    ∃ e ∈ b.level0Files, f.file = e.file ∧ f.summary = e.summary ∧
      f.createdAtMs = e.createdAtMs := by
  obtain ⟨e, he, rfl⟩ := mem_map.mp hf
  refine ⟨e, he, ?_⟩
  split_ifs <;> exact ⟨rfl, rfl, rfl⟩

theorem stamps_publish (b : Bucket) (m : MergedSstable) (snapshot : List ℕ) :
    (b.publish m snapshot).level0Files.map (·.createdAtMs) =
      b.level0Files.map (·.createdAtMs) := by
  change (b.level0Files.map _).map _ = _
  rw [map_map]
  refine List.map_congr_left fun e _ => ?_
  simp only [Function.comp_apply]
  split_ifs <;> rfl

/-- The winner over a merge's inputs is bounded by what bounds the bucket. -/
theorem SeqBound.mergeWinner (h : b.SeqBound c n) (snapshot : List ℕ) (key : Key) :
    AtMost n (b.mergeWinner c snapshot key) := by
  refine AtMost.newer (atMost_resolve fun x hx => ?_) (atMost_copyIn h.level1 key)
  obtain ⟨f, hf, rfl⟩ := mem_map.mp hx
  exact atMost_copyIn (h.level0 f (mem_liveFiles.mp (mem_filter.mp hf).1).1) key

/-- Publishing a prepared merge keeps the bucket sound and its sequences bounded. -/
theorem Prepared.publish (h : Prepared c numBuckets bucket b snapshot m)
    (hb : b.Sound c numBuckets bucket) : (b.publish m snapshot).Sound c numBuckets bucket where
  level0 := by
    intro f hf
    obtain ⟨e, he, hfile, hsum, -⟩ := mem_publish hf
    obtain ⟨hheader, hsound, hplaced, hdesc⟩ := hb.level0 e he
    exact ⟨hfile ▸ hheader, hfile ▸ hsound, hfile ▸ hplaced, hfile ▸ hsum ▸ hdesc⟩
  stamps := by
    rw [stamps_publish]
    exact hb.stamps
  level1 := h.level1
  placed := h.placed

theorem Prepared.seqBound (h : Prepared c numBuckets bucket b snapshot m) (hb : b.SeqBound c n) :
    (b.publish m snapshot).SeqBound c n where
  level0 := by
    intro f hf
    obtain ⟨e, he, hfile, -, -⟩ := mem_publish hf
    rw [hfile]
    exact hb.level0 e he
  level1 := by
    intro e he
    have hcopy := h.copy e.key
    have hfound : copyIn (entriesOf c m.file) e.key = some e.copy :=
      (copyIn_eq_some h.level1.sound.sorted.ascending).mpr ⟨e, he, rfl, rfl⟩
    rw [hfound] at hcopy
    obtain ⟨hwin, -⟩ := liveCopy_eq_some.mp hcopy.symm
    exact hb.mergeWinner snapshot e.key e.copy hwin

/-- A merge leaves its bucket as it is, or publishes what it prepared. -/
theorem mergeSnapshot_cases (hb : b.Sound c numBuckets bucket) (snapshot : List ℕ) :
    (b.mergeSnapshot c snapshot).1 = b ∨
      ∃ m, b.prepareMerge c snapshot = .ok (some m) ∧
        Prepared c numBuckets bucket b snapshot m ∧
        b.mergeSnapshot c snapshot = (b.publish m snapshot, .ok ()) := by
  rw [mergeSnapshot]
  cases h : b.prepareMerge c snapshot with
  | error err => exact .inl rfl
  | ok o =>
    cases o with
    | none => exact .inl rfl
    | some m => exact .inr ⟨m, rfl, prepareMerge_spec hb h, rfl⟩

/-- Any bucket stays sound when files disappear or change their reader counts. -/
theorem Sound.of_level0 (hb : b.Sound c numBuckets bucket)
    (hfiles : ∀ f ∈ files, ∃ e ∈ b.level0Files, f.file = e.file ∧ f.summary = e.summary)
    (hstamps : (files.map (·.createdAtMs)).Nodup) :
    ({ b with level0Files := files } : Bucket).Sound c numBuckets bucket where
  level0 := by
    intro f hf
    obtain ⟨e, he, hfile, hsum⟩ := hfiles f hf
    obtain ⟨hheader, hsound, hplaced, hdesc⟩ := hb.level0 e he
    exact ⟨hfile ▸ hheader, hfile ▸ hsound, hfile ▸ hplaced, hfile ▸ hsum ▸ hdesc⟩
  stamps := hstamps
  level1 := hb.level1
  placed := hb.placed

end Bucket

theorem Bucket.sound_empty (c : Crates) (numBuckets bucket : ℕ) :
    (Bucket.empty c).Sound c numBuckets bucket where
  level0 := by simp [Bucket.empty]
  stamps := by simp [Bucket.empty]
  level1 := level1Sound_empty c
  placed := by simp [Bucket.empty]

/-! ### Steps and runs -/

/-- The steps of the tree. The reader pins, which decide what a clean-up may drop, are set
by the environment. -/
inductive Op where
  | insertWithSeq (key : Key) (value seq : ℕ)
  | deleteWithSeq (key : Key) (seq : ℕ)
  | flushMemtable
  | flushRoMemtableToLevel0 (version : ℕ) (env : FlushEnv)
  | mergeLevel0ToLevel1 (bucket : ℕ)
  | cleanupObsoleteLevel0Files
  | deferOldMemtablesCleanup
  | pinLevel0File (bucket stamp readers : ℕ)
  | pinMemtable (version readers : ℕ)

variable {t : LSMTree}

namespace LSMTree

/-- Set the reader count of a Level-0 file. -/
def pinLevel0File (t : LSMTree) (bucket stamp readers : ℕ) : LSMTree :=
  t.setBucket bucket
    { t.buckets bucket with
      level0Files := (t.buckets bucket).level0Files.map fun e =>
        if e.createdAtMs = stamp then { e with readerCount := readers } else e }

/-- Set the reader count of a sealed memtable. -/
def pinMemtable (t : LSMTree) (version readers : ℕ) : LSMTree :=
  { t with
    readOnlyMemtables := t.readOnlyMemtables.map fun ro =>
      if ro.version = version then { ro with readerCount := readers } else ro }

/-- One step. -/
def apply (c : Crates) (t : LSMTree) : Op → LSMTree × Except LSMError Unit
  | .insertWithSeq key value seq => t.insertWithSeq key value seq
  | .deleteWithSeq key seq => t.deleteWithSeq key seq
  | .flushMemtable => (t.flushMemtable, .ok ())
  | .flushRoMemtableToLevel0 version env => t.flushRoMemtableToLevel0 c version env
  | .mergeLevel0ToLevel1 bucket => t.mergeLevel0ToLevel1 c bucket
  | .cleanupObsoleteLevel0Files => (t.cleanupObsoleteLevel0Files, .ok ())
  | .deferOldMemtablesCleanup => (t.deferOldMemtablesCleanup, .ok ())
  | .pinLevel0File bucket stamp readers => (t.pinLevel0File bucket stamp readers, .ok ())
  | .pinMemtable version readers => (t.pinMemtable version readers, .ok ())

/-- A run: failed steps are part of it. -/
def run (c : Crates) (t : LSMTree) (ops : List Op) : LSMTree :=
  ops.foldl (fun t op => (t.apply c op).1) t

/-! ### The invariant along a run -/

theorem sound_empty (c : Crates) (config : LSMConfig) : (empty c config).Sound c where
  bucket := fun b => Bucket.sound_empty c _ b
  stamp := by simp [empty, Bucket.empty]
  roBound := by simp [empty]
  bound := fun b => ⟨by simp [empty, Bucket.empty], by simp [empty, Bucket.empty]⟩

/-- A change of the active memtable alone. -/
theorem Sound.setMemtable (h : t.Sound c) (m : SkipList) :
    ({ t with memtable := m } : LSMTree).Sound c :=
  ⟨h.bucket, h.stamp, h.roBound, h.bound⟩

/-- The bound after sealing covers the old bound and the sealed records. -/
theorem maxLowerSeq_flushMemtable (t : LSMTree) :
    t.maxLowerSeq ≤ t.flushMemtable.maxLowerSeq ∧
      ∀ r ∈ (ReadOnlyMemTable.ofSkipList t.memtable t.roMemtableVersion).records,
        r.seq ≤ t.flushMemtable.maxLowerSeq := by
  generalize hrecs : (ReadOnlyMemTable.ofSkipList t.memtable t.roMemtableVersion).records = recs
  have hbound : t.flushMemtable.maxLowerSeq =
      (newestSeq (recs.map (·.seq))).elim t.maxLowerSeq (noteLowerSeq t.maxLowerSeq) := by
    rw [← hrecs]
    rfl
  rw [hbound]
  cases hmax : newestSeq (recs.map (·.seq)) with
  | none =>
    refine ⟨le_rfl, fun r hr => ?_⟩
    cases recs with
    | nil => cases hr
    | cons s l => simp [newestSeq] at hmax
  | some m =>
    have hle : t.maxLowerSeq ≤ noteLowerSeq t.maxLowerSeq m ∧
        m ≤ noteLowerSeq t.maxLowerSeq m := by
      by_cases hlt : t.maxLowerSeq < m <;> simp [noteLowerSeq, seqNewer, hlt] <;> omega
    refine ⟨hle.1, fun r hr => le_trans ?_ hle.2⟩
    exact le_of_newestSeq hmax (List.mem_map_of_mem (f := fun r : KeyValueRecord => r.seq) hr)

theorem Sound.flushMemtable (h : t.Sound c) : t.flushMemtable.Sound c := by
  obtain ⟨hle, hrecs⟩ := t.maxLowerSeq_flushMemtable
  refine ⟨h.bucket, h.stamp, fun ro hro r hr => ?_, fun b => (h.bound b).mono hle⟩
  rcases mem_append.mp hro with hro | hro
  · exact (h.roBound ro hro r hr).trans hle
  · rw [mem_singleton.mp hro] at hr
    exact hrecs r hr

theorem Sound.flushIfDue (h : t.Sound c) : t.flushIfDue.Sound c := by
  unfold LSMTree.flushIfDue
  split_ifs
  · exact h.flushMemtable
  · exact h

theorem Sound.setBucket (h : t.Sound c) (hb : b.Sound c t.config.numBuckets bucket)
    (hstamp : ∀ f ∈ b.level0Files, f.createdAtMs ≤ t.lastL0Stamp)
    (hbound : b.SeqBound c t.maxLowerSeq) : (t.setBucket bucket b).Sound c := by
  refine ⟨fun d => ?_, fun d => ?_, h.roBound, fun d => ?_⟩
  all_goals
    by_cases hd : d = bucket
    · subst hd
      simpa [LSMTree.setBucket]
    · simpa [LSMTree.setBucket, hd] using by first
        | exact h.bucket d
        | exact h.stamp d
        | exact h.bound d

/-- What a flush of a sealed memtable can do: nothing, use up a stamp, or register files of
the memtable's records under a new stamp and mark it flushed. -/
theorem flushRoMemtableToLevel0_cases (c : Crates) (t : LSMTree) (version : ℕ) (env : FlushEnv) :
    (t.flushRoMemtableToLevel0 c version env).1 = t ∨
      ∃ stamp, t.lastL0Stamp < stamp ∧
        ((t.flushRoMemtableToLevel0 c version env).1 = { t with lastL0Stamp := stamp } ∨
          ∃ ro written, t.readOnlyMemtables.find? (fun ro => ro.version = version) = some ro ∧
            ro.flushedToLevel0 = false ∧
            writeLevel0Files c env t.config.numBuckets ro.records stamp
              (List.range t.config.numBuckets) = .ok written ∧
            (t.flushRoMemtableToLevel0 c version env).1 =
              (({ t with lastL0Stamp := stamp } : LSMTree).registerLevel0Files
                written).markFlushedToLevel0 version) := by
  have hstamp : t.lastL0Stamp < t.nextL0Stamp (env.nowMs * 1000000 + version) := by
    unfold nextL0Stamp
    omega
  unfold flushRoMemtableToLevel0
  cases hfind : t.readOnlyMemtables.find? fun ro => ro.version = version with
  | none => exact .inl rfl
  | some ro =>
    cases hflushed : ro.flushedToLevel0 with
    | true => exact .inl (by simp [hflushed])
    | false =>
      cases hveto : env.onRoMemtableFlushing with
      | error kind => exact .inl (by simp [hflushed])
      | ok u =>
        refine .inr ⟨_, hstamp, ?_⟩
        cases hwrite : writeLevel0Files c env t.config.numBuckets ro.records
            (t.nextL0Stamp (env.nowMs * 1000000 + version))
            (List.range t.config.numBuckets) with
        | error err => exact .inl (by simp [hflushed, hwrite])
        | ok written =>
          cases hdone : env.onRoMemtableWritten with
          | error kind => exact .inl (by simp [hflushed, hwrite])
          | ok u => exact .inr ⟨ro, written, rfl, hflushed, hwrite, by simp [hflushed, hwrite]⟩

/-- The bucket a flush leaves: its file at the end of the registry, if it has one. -/
theorem level0Files_register {last : ℕ} (hstamp : ∀ e ∈ b.level0Files, e.createdAtMs ≤ last)
    (hf : last < f.createdAtMs) :
    b.registerLevel0File f = { b with level0Files := b.level0Files ++ [f] } := by
  have hnew : b.level0Files.any (fun e => e.createdAtMs = f.createdAtMs) = false := by
    rw [List.any_eq_false]
    intro e he
    have hle := hstamp e he
    simp only [decide_eq_true_eq]
    omega
  simp [Bucket.registerLevel0File, hnew]

/-- What a registered flush has done to a bucket: nothing, its records being none, or a new
sound file of them, under the new stamp, at the end of the registry. -/
theorem registerLevel0Files_spec (h : t.Sound c) {env : FlushEnv} {records : List KeyValueRecord}
    (hrec : Ascending KeyValueRecord.key records) {stamp : ℕ} (hstamp : t.lastL0Stamp < stamp)
    {written : List (ℕ × L0FileEntry)}
    (hw : writeLevel0Files c env t.config.numBuckets records stamp
      (List.range t.config.numBuckets) = .ok written) (b : ℕ) :
    ((t.registerLevel0Files written).buckets b = t.buckets b ∧
        (b < t.config.numBuckets → recordsOf c t.config.numBuckets b records = [])) ∨
      ∃ f : L0FileEntry, f.createdAtMs = stamp ∧ f.obsolete = false ∧
        f.Sound c t.config.numBuckets b ∧
        entriesOf c f.file = (recordsOf c t.config.numBuckets b records).map .ofRecord ∧
        (t.registerLevel0Files written).buckets b =
          { t.buckets b with level0Files := (t.buckets b).level0Files ++ [f] } := by
  have hspec := writeLevel0Files_spec hrec List.nodup_range hw b
  cases hlook : written.lookup b with
  | none =>
    simp only [hlook] at hspec
    refine .inl ⟨by simp [registerLevel0Files, hlook], fun hb => hspec (List.mem_range.mpr hb)⟩
  | some f =>
    simp only [hlook] at hspec
    obtain ⟨-, hcreated, hobs, hsound, hentries⟩ := hspec
    refine .inr ⟨f, hcreated, hobs, hsound, hentries, ?_⟩
    simp only [registerLevel0Files, hlook]
    exact level0Files_register (h.stamp b) (hcreated ▸ hstamp)

theorem Sound.flushRoMemtableToLevel0 (h : t.Sound c) (version : ℕ) (env : FlushEnv) :
    (t.flushRoMemtableToLevel0 c version env).1.Sound c := by
  obtain heq | ⟨stamp, hstamp, heq | ⟨ro, written, hfind, -, hw, heq⟩⟩ :=
    t.flushRoMemtableToLevel0_cases c version env
  · rwa [heq]
  · rw [heq]
    exact ⟨h.bucket, fun b f hf => (h.stamp b f hf).trans hstamp.le, h.roBound, h.bound⟩
  · have hro : ro ∈ t.readOnlyMemtables := List.mem_of_find?_eq_some hfind
    have hspec := registerLevel0Files_spec h ro.ascending hstamp hw
    rw [heq]
    refine ⟨fun b => ?_, fun b f hf => ?_, fun r hr => ?_, fun b => ?_⟩
    · change ((t.registerLevel0Files written).buckets b).Sound c t.config.numBuckets b
      rcases hspec b with ⟨hsame, -⟩ | ⟨f, hcreated, -, hsound, -, hnew⟩
      · rw [hsame]
        exact h.bucket b
      · rw [hnew]
        refine ⟨fun e he => ?_, ?_, (h.bucket b).level1, (h.bucket b).placed⟩
        · rcases mem_append.mp he with he | he
          · exact (h.bucket b).level0 e he
          · exact mem_singleton.mp he ▸ hsound
        · rw [List.map_append, List.map_singleton]
          refine List.nodup_append.mpr ⟨(h.bucket b).stamps, by simp, ?_⟩
          intro s hs s' hs'
          obtain ⟨e, he, rfl⟩ := mem_map.mp hs
          have hle := h.stamp b e he
          rw [mem_singleton.mp hs', hcreated]
          omega
    · change f ∈ ((t.registerLevel0Files written).buckets b).level0Files at hf
      change f.createdAtMs ≤ stamp
      rcases hspec b with ⟨hsame, -⟩ | ⟨g, hcreated, -, -, -, hnew⟩
      · rw [hsame] at hf
        exact (h.stamp b f hf).trans hstamp.le
      · rw [hnew] at hf
        rcases mem_append.mp hf with hf | hf
        · exact (h.stamp b f hf).trans hstamp.le
        · rw [mem_singleton.mp hf, hcreated]
    · obtain ⟨r₀, hr₀, rfl⟩ := mem_map.mp hr
      have hbound := h.roBound r₀ hr₀
      split_ifs <;> exact hbound
    · change ((t.registerLevel0Files written).buckets b).SeqBound c t.maxLowerSeq
      rcases hspec b with ⟨hsame, -⟩ | ⟨f, -, -, -, hentries, hnew⟩
      · rw [hsame]
        exact h.bound b
      · rw [hnew]
        refine ⟨fun e he d hd => ?_, (h.bound b).level1⟩
        rcases mem_append.mp he with he | he
        · exact (h.bound b).level0 e he d hd
        · rw [mem_singleton.mp he, hentries] at hd
          obtain ⟨r, hr, rfl⟩ := mem_map.mp hd
          exact h.roBound ro hro r (mem_filter.mp hr).1

theorem Sound.mergeLevel0ToLevel1From (h : t.Sound c) (bucket : ℕ) (snapshot : List ℕ) :
    (t.mergeLevel0ToLevel1From c bucket snapshot).1.Sound c := by
  have hb := h.bucket bucket
  change (t.setBucket bucket ((t.buckets bucket).mergeSnapshot c snapshot).1).Sound c
  obtain hsame | ⟨m, -, hprep, heq⟩ := Bucket.mergeSnapshot_cases hb snapshot
  · rw [hsame]
    exact h.setBucket hb (h.stamp bucket) (h.bound bucket)
  · rw [heq]
    refine h.setBucket (hprep.publish hb) (fun f hf => ?_) (hprep.seqBound (h.bound bucket))
    obtain ⟨e, he, -, -, hcreated⟩ := Bucket.mem_publish hf
    rw [hcreated]
    exact h.stamp bucket e he

theorem Sound.cleanupObsoleteLevel0Files (h : t.Sound c) :
    t.cleanupObsoleteLevel0Files.Sound c := by
  have hsub : ∀ b, (t.cleanupObsoleteLevel0Files.buckets b).level0Files.Sublist
      (t.buckets b).level0Files := fun b => List.filter_sublist
  refine ⟨fun b => ?_, fun b f hf => h.stamp b f ((hsub b).subset hf), h.roBound, fun b => ?_⟩
  · exact (h.bucket b).of_level0 (fun f hf => ⟨f, (hsub b).subset hf, rfl, rfl⟩)
      ((h.bucket b).stamps.sublist ((hsub b).map _))
  · exact ⟨fun f hf => (h.bound b).level0 f ((hsub b).subset hf), (h.bound b).level1⟩

theorem mem_deferOldMemtablesCleanup {ro : ReadOnlyMemTable}
    (h : ro ∈ t.deferOldMemtablesCleanup.readOnlyMemtables) : ro ∈ t.readOnlyMemtables := by
  rcases mem_append.mp h with h | h
  · exact (mem_filter.mp (mem_filter.mp h).1).1
  · exact (mem_filter.mp h).1

theorem Sound.deferOldMemtablesCleanup (h : t.Sound c) : t.deferOldMemtablesCleanup.Sound c :=
  ⟨h.bucket, h.stamp, fun ro hro => h.roBound ro (mem_deferOldMemtablesCleanup hro), h.bound⟩

theorem Sound.pinLevel0File (h : t.Sound c) (bucket stamp readers : ℕ) :
    (t.pinLevel0File bucket stamp readers).Sound c := by
  have hmem : ∀ f ∈ (t.buckets bucket).level0Files.map (fun e =>
      if e.createdAtMs = stamp then { e with readerCount := readers } else e),
      ∃ e ∈ (t.buckets bucket).level0Files, f.file = e.file ∧ f.summary = e.summary ∧
        f.createdAtMs = e.createdAtMs := by
    intro f hf
    obtain ⟨e, he, rfl⟩ := mem_map.mp hf
    refine ⟨e, he, ?_⟩
    split_ifs <;> exact ⟨rfl, rfl, rfl⟩
  refine h.setBucket ((h.bucket bucket).of_level0 (fun f hf => ?_) ?_) (fun f hf => ?_) ⟨?_, ?_⟩
  · obtain ⟨e, he, hfile, hsum, -⟩ := hmem f hf
    exact ⟨e, he, hfile, hsum⟩
  · have hstamps := (h.bucket bucket).stamps
    rw [map_map]
    refine (List.map_congr_left fun e _ => ?_) ▸ hstamps
    simp only [Function.comp_apply]
    split_ifs <;> rfl
  · obtain ⟨e, he, -, -, hcreated⟩ := hmem f hf
    rw [hcreated]
    exact h.stamp bucket e he
  · intro f hf
    obtain ⟨e, he, hfile, -, -⟩ := hmem f hf
    rw [hfile]
    exact (h.bound bucket).level0 e he
  · exact (h.bound bucket).level1

theorem Sound.pinMemtable (h : t.Sound c) (version readers : ℕ) :
    (t.pinMemtable version readers).Sound c := by
  refine ⟨h.bucket, h.stamp, fun ro hro => ?_, h.bound⟩
  obtain ⟨r, hr, rfl⟩ := mem_map.mp hro
  have hbound := h.roBound r hr
  split_ifs <;> exact hbound

/-- Every step keeps the tree sound. -/
theorem Sound.apply (h : t.Sound c) (op : Op) : (t.apply c op).1.Sound c := by
  cases op with
  | insertWithSeq key value seq => exact h.flushIfDue.setMemtable _
  | deleteWithSeq key seq => exact h.flushIfDue.setMemtable _
  | flushMemtable => exact h.flushMemtable
  | flushRoMemtableToLevel0 version env => exact h.flushRoMemtableToLevel0 version env
  | mergeLevel0ToLevel1 bucket => exact h.mergeLevel0ToLevel1From bucket _
  | cleanupObsoleteLevel0Files => exact h.cleanupObsoleteLevel0Files
  | deferOldMemtablesCleanup => exact h.deferOldMemtablesCleanup
  | pinLevel0File bucket stamp readers => exact h.pinLevel0File bucket stamp readers
  | pinMemtable version readers => exact h.pinMemtable version readers

/-- So does every run. -/
theorem Sound.run (h : t.Sound c) (ops : List Op) : (t.run c ops).Sound c := by
  induction ops generalizing t with
  | nil => exact h
  | cons op ops ih => exact ih (h.apply op)

end LSMTree

end Minnal
