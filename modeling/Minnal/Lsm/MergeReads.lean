import Minnal.Lsm.Read
import Minnal.Lsm.Archive

/-!
# What a merge does to reads

A merge replaces the Level-0 files of its snapshot and the Level-1 file by one Level-1 file
that holds, for each key, the **live part** of the winner over its inputs (`Prepared.copy`). A
winning tombstone leaves nothing, on the ground that nothing lies below Level 1. What lies
*above* the inputs is not looked at: the active memtable, the sealed memtables and the files
registered after the snapshot. A copy there that is older than the tombstone loses to it
before the merge and has nothing to lose to after it.

`mergeLevel0ToLevel1From_reads_iff` makes this exact: a merge keeps every answer if and only
if it resurrects no key, `Resurrects` being the situation just described. The snapshot is the
registry of an earlier state and any steps may lie between it and the publication.
-/

namespace Minnal

open ByteCodec FrameWalk SortedMap LastWrite Function

/-! ### The registry since a snapshot -/

variable {c : Crates} {t : LSMTree}

namespace LSMTree

/-- One step registers files under stamps above those issued before it, and otherwise only
keeps or drops what is registered. -/
theorem level0Files_apply (h : t.Sound c) (op : Op) :
    t.lastL0Stamp ≤ (t.apply c op).1.lastL0Stamp ∧
      ∀ b, ∀ f ∈ ((t.apply c op).1.buckets b).level0Files,
        (∃ e ∈ (t.buckets b).level0Files, e.createdAtMs = f.createdAtMs) ∨
          t.lastL0Stamp < f.createdAtMs := by
  have hsame : ∀ u : LSMTree, u.lastL0Stamp = t.lastL0Stamp →
      (∀ b, ∀ f ∈ (u.buckets b).level0Files,
        ∃ e ∈ (t.buckets b).level0Files, e.createdAtMs = f.createdAtMs) →
      t.lastL0Stamp ≤ u.lastL0Stamp ∧ ∀ b, ∀ f ∈ (u.buckets b).level0Files,
        (∃ e ∈ (t.buckets b).level0Files, e.createdAtMs = f.createdAtMs) ∨
          t.lastL0Stamp < f.createdAtMs :=
    fun u hstamp hfiles => ⟨hstamp.ge, fun b f hf => .inl (hfiles b f hf)⟩
  have hdue : t.flushIfDue.lastL0Stamp = t.lastL0Stamp ∧ t.flushIfDue.buckets = t.buckets := by
    unfold flushIfDue
    split_ifs <;> exact ⟨rfl, rfl⟩
  cases op with
  | insertWithSeq key value seq =>
    exact hsame _ hdue.1 fun b f hf => ⟨f, hdue.2 ▸ hf, rfl⟩
  | deleteWithSeq key seq =>
    exact hsame _ hdue.1 fun b f hf => ⟨f, hdue.2 ▸ hf, rfl⟩
  | flushMemtable => exact hsame _ rfl fun b f hf => ⟨f, hf, rfl⟩
  | flushRoMemtableToLevel0 version env =>
    obtain heq | ⟨stamp, hstamp, heq | ⟨ro, written, hfind, -, hw, heq⟩⟩ :=
      t.flushRoMemtableToLevel0_cases c version env
    · exact hsame _ (by rw [apply, heq]) fun b f hf => ⟨f, by rwa [apply, heq] at hf, rfl⟩
    · rw [apply, heq]
      exact ⟨hstamp.le, fun b f hf => .inl ⟨f, hf, rfl⟩⟩
    · rw [apply, heq]
      refine ⟨hstamp.le, fun b f hf => ?_⟩
      change f ∈ ((t.registerLevel0Files written).buckets b).level0Files at hf
      rcases registerLevel0Files_spec h ro.ascending hstamp hw b with
        ⟨hkeep, -⟩ | ⟨g, hcreated, -, -, -, hnew⟩
      · exact .inl ⟨f, hkeep ▸ hf, rfl⟩
      · rw [hnew] at hf
        rcases List.mem_append.mp hf with hf | hf
        · exact .inl ⟨f, hf, rfl⟩
        · rw [List.mem_singleton.mp hf, hcreated]
          exact .inr hstamp
  | mergeLevel0ToLevel1 bucket =>
    refine hsame _ rfl fun b f hf => ?_
    change f ∈ (update t.buckets bucket _ b).level0Files at hf
    by_cases hb : b = bucket
    · subst hb
      rw [update_self] at hf
      obtain hkeep | ⟨m, -, -, hpub⟩ := Bucket.mergeSnapshot_cases (h.bucket b)
        (t.buckets b).level0EntriesSnapshot
      · exact ⟨f, hkeep ▸ hf, rfl⟩
      · rw [hpub] at hf
        obtain ⟨e, he, -, -, hcreated⟩ := Bucket.mem_publish hf
        exact ⟨e, he, hcreated.symm⟩
    · rw [update_of_ne hb] at hf
      exact ⟨f, hf, rfl⟩
  | cleanupObsoleteLevel0Files =>
    exact hsame _ rfl fun b f hf => ⟨f, (List.mem_filter.mp hf).1, rfl⟩
  | deferOldMemtablesCleanup => exact hsame _ rfl fun b f hf => ⟨f, hf, rfl⟩
  | pinLevel0File bucket stamp readers =>
    refine hsame _ rfl fun b f hf => ?_
    change f ∈ (update t.buckets bucket _ b).level0Files at hf
    by_cases hb : b = bucket
    · subst hb
      rw [update_self] at hf
      obtain ⟨e, he, rfl⟩ := List.mem_map.mp hf
      exact ⟨e, he, by split_ifs <;> rfl⟩
    · rw [update_of_ne hb] at hf
      exact ⟨f, hf, rfl⟩
  | pinMemtable version readers => exact hsame _ rfl fun b f hf => ⟨f, hf, rfl⟩

/-- Over a run: a file is in the snapshot taken at the start, or newer than all of it. -/
theorem level0Files_run (h : t.Sound c) (ops : List Op) :
    t.lastL0Stamp ≤ (t.run c ops).lastL0Stamp ∧
      ∀ b, ∀ f ∈ ((t.run c ops).buckets b).level0Files,
        f.createdAtMs ∈ (t.buckets b).level0EntriesSnapshot ∨ t.lastL0Stamp < f.createdAtMs := by
  induction ops generalizing t with
  | nil => exact ⟨le_rfl, fun b f hf => .inl (List.mem_map_of_mem (f := fun e => e.createdAtMs) hf)⟩
  | cons op ops ih =>
    obtain ⟨hle, hstep⟩ := level0Files_apply h op
    obtain ⟨hle', hrun⟩ := ih (h.apply op)
    refine ⟨hle.trans hle', fun b f hf => ?_⟩
    rcases hrun b f hf with hmem | hlt
    · obtain ⟨g, hg, hgf⟩ := List.mem_map.mp hmem
      rw [← hgf]
      rcases hstep b g hg with ⟨e, he, hcreated⟩ | hlt
      · exact .inl (hcreated ▸ List.mem_map_of_mem (f := fun e => e.createdAtMs) he)
      · exact .inr hlt
    · exact .inr (hle.trans_lt hlt)

end LSMTree

/-! ### Above the inputs of a merge -/

/-- The snapshot is an old registry: what is not in it came later. -/
def Bucket.SnapshotOlder (b : Bucket) (snapshot : List ℕ) : Prop :=
  ∀ f ∈ b.level0Files, f.createdAtMs ∉ snapshot → ∀ s ∈ snapshot, s < f.createdAtMs

variable {bucket : ℕ} {snapshot : List ℕ}

/-- In flush order the files outside an old snapshot come first. -/
theorem Bucket.liveFiles_eq_append {numBuckets : ℕ} {b : Bucket} (hb : b.Sound c numBuckets bucket)
    (hold : b.SnapshotOlder snapshot) :
    b.liveFiles = b.unmergedFiles snapshot ++ b.mergedFiles snapshot := by
  have hdesc : b.liveFiles.Pairwise fun x y => y.createdAtMs < x.createdAtMs :=
    (pairwise_newestFirst hb.stamps).sublist List.filter_sublist
  have hperm : (b.unmergedFiles snapshot ++ b.mergedFiles snapshot).Perm b.liveFiles := by
    have hsplit := List.filter_append_perm (fun f : L0FileEntry => decide (f.createdAtMs ∈ snapshot))
      b.liveFiles
    refine (List.perm_append_comm.trans ?_).trans hsplit
    refine List.Perm.of_eq (congrArg _ (List.filter_congr fun f _ => ?_))
    simp
  have hboth : (b.unmergedFiles snapshot ++ b.mergedFiles snapshot).Pairwise
      fun x y => y.createdAtMs < x.createdAtMs := by
    refine List.pairwise_append.mpr ⟨hdesc.sublist List.filter_sublist,
      hdesc.sublist List.filter_sublist, fun x hx y hy => ?_⟩
    obtain ⟨hx, hnot⟩ := List.mem_filter.mp hx
    obtain ⟨-, hin⟩ := List.mem_filter.mp hy
    exact hold x (mem_liveFiles.mp hx).1 (by simpa using hnot) _ (by simpa using hin)
  exact (eq_newestFirst (List.Perm.refl _) hdesc).trans (eq_newestFirst hperm hboth).symm

variable {key : Key}

namespace LSMTree

/-- What the layers above a merge's inputs hold of a key, newest first. -/
def upperLayers (c : Crates) (t : LSMTree) (bucket : ℕ) (snapshot : List ℕ) (key : Key) :
    List Candidate :=
  t.memtable.copy key :: t.readOnlyMemtables.reverse.map (·.copy key) ++
    ((t.buckets bucket).unmergedFiles snapshot).map (·.copy c key)

/-- A merge of the snapshot would bring the key back: a tombstone wins over the merge's
inputs, and the newest copy above them is a value that is older still. -/
def Resurrects (c : Crates) (t : LSMTree) (bucket : ℕ) (snapshot : List ℕ) (key : Key) : Prop :=
  ∃ ptr old seq, resolve (t.upperLayers c bucket snapshot key) = some (some ptr, old) ∧
    (t.buckets bucket).mergeWinner c snapshot key = some (none, seq) ∧ old < seq

/-- Before a merge, a key is resolved from the layers above its inputs and the inputs. -/
theorem winner_eq_upper (h : t.Sound c) (hold : (t.buckets bucket).SnapshotOlder snapshot)
    (hkey : t.bucketOf c key = bucket) :
    t.winner c key = newer (resolve (t.upperLayers c bucket snapshot key))
      ((t.buckets bucket).mergeWinner c snapshot key) := by
  subst hkey
  have hlive := Bucket.liveFiles_eq_append (h.bucket (t.bucketOf c key)) hold
  change resolve (_ :: _ ++ Bucket.layers c _ key) = _
  rw [Bucket.layers, hlive, List.map_append, Bucket.mergeWinner, upperLayers]
  simp only [List.cons_append, resolve_cons, resolve_append, resolve_nil, newer_none, newer_assoc]

/-- After it, from the layers above and the live part of the inputs' winner. -/
theorem winner_publish {m : MergedSstable}
    (hm : Bucket.Prepared c t.config.numBuckets bucket (t.buckets bucket) snapshot m)
    (hkey : t.bucketOf c key = bucket) :
    (t.setBucket bucket ((t.buckets bucket).publish m snapshot)).winner c key =
      newer (resolve (t.upperLayers c bucket snapshot key))
        (liveCopy ((t.buckets bucket).mergeWinner c snapshot key)) := by
  have hbucket : (t.setBucket bucket ((t.buckets bucket).publish m snapshot)).buckets
      ((t.setBucket bucket ((t.buckets bucket).publish m snapshot)).bucketOf c key) =
        (t.buckets bucket).publish m snapshot := by
    change update t.buckets bucket _ (t.bucketOf c key) = _
    rw [hkey, update_self]
  have hl1 : ((t.buckets bucket).publish m snapshot).level1Copy c key =
      liveCopy ((t.buckets bucket).mergeWinner c snapshot key) := hm.copy key
  change resolve (_ :: _ ++ Bucket.layers c _ key) = _
  rw [hbucket, Bucket.layers, Bucket.liveFiles_publish, hl1, upperLayers]
  simp only [List.cons_append, resolve_cons, resolve_append, resolve_nil, newer_none, newer_assoc]
  rfl

/-- A bucket that is not the key's own does not matter to it. -/
theorem winner_setBucket (hkey : t.bucketOf c key ≠ bucket) (b : Bucket) :
    (t.setBucket bucket b).winner c key = t.winner c key := by
  have hbucket : (t.setBucket bucket b).buckets ((t.setBucket bucket b).bucketOf c key) =
      t.buckets (t.bucketOf c key) := by
    change update t.buckets bucket b (t.bucketOf c key) = _
    rw [update_of_ne hkey]
  change resolve (_ :: _ ++ Bucket.layers c _ key) = _
  rw [hbucket]
  rfl

end LSMTree

namespace LSMTree

/-- **Merges and reads.** Let a merge snapshot its bucket's registry in any sound state and
publish after any further steps. It keeps every answer if and only if it has nothing to
merge or resurrects no key of its bucket. -/
theorem mergeLevel0ToLevel1From_reads_iff {c : Crates} {t₀ : LSMTree} (h : t₀.Sound c)
    (during : List Op) (bucket : ℕ) :
    (∀ key, ((t₀.run c during).mergeLevel0ToLevel1From c bucket
        (t₀.buckets bucket).level0EntriesSnapshot).1.getWithSeq c key =
          (t₀.run c during).getWithSeq c key) ↔
      (∀ f ∈ ((t₀.run c during).buckets bucket).mergedFiles
          (t₀.buckets bucket).level0EntriesSnapshot, entriesOf c f.file = []) ∨
        ∀ key, (t₀.run c during).bucketOf c key = bucket →
          ¬ (t₀.run c during).Resurrects c bucket
            (t₀.buckets bucket).level0EntriesSnapshot key := by
  have ht := h.run during
  have hregistry := (level0Files_run h during).2 bucket
  have hstamps := h.stamp bucket
  generalize hsnap : (t₀.buckets bucket).level0EntriesSnapshot = snapshot at *
  generalize t₀.run c during = t at *
  have hold : (t.buckets bucket).SnapshotOlder snapshot := by
    intro f hf hnot s hs
    rw [← hsnap] at hs
    obtain ⟨e, he, rfl⟩ := List.mem_map.mp hs
    exact (hstamps e he).trans_lt ((hregistry f hf).resolve_left hnot)
  have hafter := ht.mergeLevel0ToLevel1From bucket snapshot
  have hread : ∀ key, (t.mergeLevel0ToLevel1From c bucket snapshot).1.getWithSeq c key =
      t.getWithSeq c key ↔ live ((t.mergeLevel0ToLevel1From c bucket snapshot).1.winner c key) =
        live (t.winner c key) := by
    intro key
    rw [getWithSeq_eq hafter, getWithSeq_eq ht, Except.ok.injEq]
  simp only [hread]
  rcases Bucket.prepareMerge_total (ht.bucket bucket) snapshot with
    ⟨hnone, hempty⟩ | ⟨⟨m, hm⟩, hsome⟩
  · -- nothing to merge: the bucket stays as it is
    have hsame : (t.mergeLevel0ToLevel1From c bucket snapshot).1 = t := by
      simp [mergeLevel0ToLevel1From, Bucket.mergeSnapshot, hnone, setBucket]
    simp only [hsame, true_iff, implies_true]
    exact .inl hempty
  · have hprep := Bucket.prepareMerge_spec (ht.bucket bucket) hm
    have hpub : (t.mergeLevel0ToLevel1From c bucket snapshot).1 =
        t.setBucket bucket ((t.buckets bucket).publish m snapshot) := by
      simp [mergeLevel0ToLevel1From, Bucket.mergeSnapshot, hm]
    rw [hpub, or_iff_right hsome]
    refine forall_congr' fun key => ?_
    by_cases hkey : t.bucketOf c key = bucket
    · rw [winner_publish hprep hkey, winner_eq_upper ht hold hkey, live_newer_liveCopy_iff]
      simp only [hkey, true_imp_iff]
      rfl
    · rw [winner_setBucket hkey]
      simp [hkey]

end LSMTree

/-! ### A tombstone below an older value -/

/-- One bucket and a small memtable. -/
def LSMConfig.oneBucket : LSMConfig where
  compactionThresholdPercent := 80
  numBuckets := 1
  skipListCapacity := 4096
  numBuckets_pos := by decide
  skipListCapacity_pos := by decide

/-- A flush that nothing disturbs. -/
def FlushEnv.quiet (nowMs : ℕ) : FlushEnv where
  nowMs := nowMs
  onRoMemtableFlushing := .ok ()
  writeError := fun _ => none
  onRoMemtableWritten := .ok ()

/-- A deletion at sequence 10 is flushed to Level 0, then a write at sequence 5 arrives. -/
def tombstoneBelow : LSMTree :=
  (LSMTree.empty .real .oneBucket).run .real
    [.deleteWithSeq [0x6b] 10, .flushMemtable, .flushRoMemtableToLevel0 0 (.quiet 1),
      .deferOldMemtablesCleanup, .insertWithSeq [0x6b] 7 5]

/-- The merge brings the deleted key back. -/
theorem mergeLevel0ToLevel1_resurrects :
    tombstoneBelow.getWithSeq .real [0x6b] = .ok none ∧
      (tombstoneBelow.mergeLevel0ToLevel1 .real 0).1.getWithSeq .real [0x6b] =
        .ok (some (7, 5)) := by
  decide +kernel

/-- The criterion at a tree whose one registered file the merge has yet to read. -/
theorem mergeLevel0ToLevel1From_reads_iff_tombstoneBelow :
    tombstoneBelow.Sound .real ∧
      ((∀ key, ((tombstoneBelow.run .real [.flushMemtable]).mergeLevel0ToLevel1From .real 0
          (tombstoneBelow.buckets 0).level0EntriesSnapshot).1.getWithSeq .real key =
            (tombstoneBelow.run .real [.flushMemtable]).getWithSeq .real key) ↔
        (∀ f ∈ ((tombstoneBelow.run .real [.flushMemtable]).buckets 0).mergedFiles
            (tombstoneBelow.buckets 0).level0EntriesSnapshot, entriesOf .real f.file = []) ∨
          ∀ key, (tombstoneBelow.run .real [.flushMemtable]).bucketOf .real key = 0 →
            ¬ (tombstoneBelow.run .real [.flushMemtable]).Resurrects .real 0
              (tombstoneBelow.buckets 0).level0EntriesSnapshot key) := by
  have hsound : tombstoneBelow.Sound .real := (LSMTree.sound_empty _ _).run _
  exact ⟨hsound, LSMTree.mergeLevel0ToLevel1From_reads_iff hsound [.flushMemtable] 0⟩

end Minnal
