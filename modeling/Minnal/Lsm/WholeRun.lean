import Minnal.Lsm.MergeReads

/-!
# Whole runs: the tree answers with the last write

Let every write to a key carry a sequence at least that of every write applied to it before,
and let sealed memtables be flushed in version order. Then, whatever else the tree does in
between, a read answers with the last write (`getWithSeq_run_eq_last`).

The argument gives each sealed memtable an **epoch**, its version. Three stretches of epochs
are kept: the sealed memtables still listed hold `[dropped, sealed)`, a bucket's Level-0 files
hold `[merged, flushed)`, and its Level-1 file holds the live winner over `[0, merged)`. Each
maintenance step moves one of these bounds. A reader sees all epochs through the three
stretches (`LastWrite.live_layered_epochs`), which needs sequences that do not decrease from
epoch to epoch and `dropped`, `merged` at most `flushed`; `Tracks` is that invariant.
-/

set_option linter.dupNamespace false

namespace Minnal

open ByteCodec FrameWalk SortedMap LastWrite Function
open List (mem_map_of_mem mem_range'_1 map_map mem_map map_congr_left filter_congr)

/-! ### Runs with ordered writes -/

/-- The writes applied so far, the latest first. -/
abbrev Writes := List (Key × Copy)

/-- The last write applied to a key. -/
def lastWrite (writes : Writes) (key : Key) : Candidate := writes.lookup key

/-- The write a step asks for. -/
def Op.write? : Op → Option (Key × Copy)
  | .insertWithSeq key value seq => some (key, some value, seq)
  | .deleteWithSeq key seq => some (key, none, seq)
  | _ => none

/-- The sealed memtable a step flushes. -/
def Op.flushes? : Op → Option ℕ
  | .flushRoMemtableToLevel0 version _ => some version
  | _ => none

namespace LSMTree

/-- The writes applied after a step: a step that fails applies nothing. -/
def noteWrite (c : Crates) (t : LSMTree) (writes : Writes) (op : Op) : Writes :=
  match op.write? with
  | some w => if (t.apply c op).2.isOk then w :: writes else writes
  | none => writes

/-- What the callers guarantee of a step: a write carries a sequence at least that of every
write applied to its key, and the sealed memtable flushed is the oldest unflushed one. -/
def Ordered (t : LSMTree) (writes : Writes) (op : Op) : Prop :=
  (∀ w ∈ op.write?, ∀ x ∈ writes, x.1 = w.1 → x.2.2 ≤ w.2.2) ∧
    ∀ version ∈ op.flushes?, ∀ ro ∈ t.readOnlyMemtables, ro.flushedToLevel0 = false →
      version ≤ ro.version

instance (t : LSMTree) (writes : Writes) (op : Op) : Decidable (t.Ordered writes op) :=
  inferInstanceAs (Decidable (_ ∧ _))

/-- Every step of the run is ordered. -/
def OrderedRun (c : Crates) : LSMTree → Writes → List Op → Prop
  | _, _, [] => True
  | t, writes, op :: ops =>
    t.Ordered writes op ∧ OrderedRun c (t.apply c op).1 (t.noteWrite c writes op) ops

instance decidableOrderedRun (c : Crates) : (t : LSMTree) → (writes : Writes) → (ops : List Op) →
    Decidable (OrderedRun c t writes ops)
  | _, _, [] => .isTrue trivial
  | t, writes, op :: ops =>
    have := decidableOrderedRun c (t.apply c op).1 (t.noteWrite c writes op) ops
    inferInstanceAs (Decidable (_ ∧ _))

/-- The writes applied by a run. -/
def writesOf (c : Crates) : LSMTree → Writes → List Op → Writes
  | _, writes, [] => writes
  | t, writes, op :: ops => writesOf c (t.apply c op).1 (t.noteWrite c writes op) ops

end LSMTree

/-! ### The invariant -/

/-- The bounds of the stretches of epochs that the layers hold. -/
structure Stretches where
  dropped : ℕ
  flushed : ℕ
  merged : ℕ → ℕ

/-- The tree holds the writes: `E v` is what the memtable sealed as version `v` held. -/
structure LSMTree.Tracks (c : Crates) (t : LSMTree) (writes : Writes)
    (E : ℕ → Key → Candidate) (s : Stretches) : Prop where
  sound : t.Sound c
  dropped_le : s.dropped ≤ s.flushed
  flushed_le : s.flushed ≤ t.roMemtableVersion
  merged_le : ∀ b, s.merged b ≤ s.flushed
  versions : t.readOnlyMemtables.map (·.version) =
    List.range' s.dropped (t.roMemtableVersion - s.dropped)
  sealed : ∀ ro ∈ t.readOnlyMemtables, ∀ key, ro.copy key = E ro.version key
  flag : ∀ ro ∈ t.readOnlyMemtables, ro.flushedToLevel0 = decide (ro.version < s.flushed)
  level0 : ∀ key, key ≠ [] →
    resolve ((t.buckets (t.bucketOf c key)).liveFiles.map (·.copy c key)) =
      newestIn (E · key) (s.merged (t.bucketOf c key)) s.flushed
  level1 : ∀ key, key ≠ [] → (t.buckets (t.bucketOf c key)).level1Copy c key =
    liveCopy (newestIn (E · key) 0 (s.merged (t.bucketOf c key)))
  rising : ∀ key, key ≠ [] → Rising (E · key) t.roMemtableVersion
  active : ∀ key, key ≠ [] → ∀ v < t.roMemtableVersion, ∀ y ∈ t.memtable.copy key,
    AtMost y.2 (E v key)
  last : ∀ key, key ≠ [] → lastWrite writes key =
    newer (t.memtable.copy key) (newestIn (E · key) 0 t.roMemtableVersion)

namespace LSMTree

variable {c : Crates} {t : LSMTree} {writes : Writes} {E : ℕ → Key → Candidate} {s : Stretches}

/-- The sealed memtables resolve a key over their stretch of epochs. -/
theorem Tracks.resolve_readOnly (h : t.Tracks c writes E s) (key : Key) :
    resolve (t.readOnlyMemtables.reverse.map (·.copy key)) =
      newestIn (E · key) s.dropped t.roMemtableVersion := by
  have hcopies : t.readOnlyMemtables.map (·.copy key) =
      (t.readOnlyMemtables.map (·.version)).map (E · key) := by
    rw [map_map]
    exact map_congr_left fun ro hro => h.sealed ro hro key
  rw [newestIn, ← h.versions, List.map_reverse, List.map_reverse, hcopies]

/-- **Reads.** A tracked tree answers with the last write. -/
theorem Tracks.live_winner (h : t.Tracks c writes E s) {key : Key} (hkey : key ≠ []) :
    live (t.winner c key) = live (lastWrite writes key) := by
  have hwinner : t.winner c key = newer (t.memtable.copy key)
      (newer (newestIn (E · key) s.dropped t.roMemtableVersion)
        (newer (newestIn (E · key) (s.merged (t.bucketOf c key)) s.flushed)
          (liveCopy (newestIn (E · key) 0 (s.merged (t.bucketOf c key)))))) := by
    rw [← h.resolve_readOnly, ← h.level0 key hkey, ← h.level1 key hkey]
    change resolve (_ :: _ ++ (_ ++ _)) = _
    simp only [List.cons_append, resolve_cons, resolve_append, resolve_nil, newer_none]
  rw [hwinner, h.last key hkey]
  exact live_layered_epochs (h.rising key hkey) (h.active key hkey) h.dropped_le (h.merged_le _)
    h.flushed_le

theorem tracks_empty (c : Crates) (config : LSMConfig) :
    (empty c config).Tracks c [] (fun _ _ => none) ⟨0, 0, fun _ => 0⟩ where
  sound := sound_empty c config
  dropped_le := le_rfl
  flushed_le := le_rfl
  merged_le := fun _ => le_rfl
  versions := rfl
  sealed := by simp [empty]
  flag := by simp [empty]
  level0 := fun key _ => rfl
  level1 := fun key _ => by
    change copyIn (entriesOf c []) key = _
    rw [entriesOf_nil, newestIn_of_le le_rfl]
    rfl
  rising := fun key _ u v _ _ x hx => by cases hx
  active := fun key _ v hv => absurd hv (Nat.not_lt_zero v)
  last := fun key _ => rfl

/-! ### Writes and sealing -/

/-- A bound on the writes applied to a key bounds every copy of it. -/
theorem Tracks.atMost (h : t.Tracks c writes E s) {key : Key} (hkey : key ≠ []) {m : ℕ}
    (hm : ∀ x ∈ writes, x.1 = key → x.2.2 ≤ m) :
    AtMost m (t.memtable.copy key) ∧ ∀ v < t.roMemtableVersion, AtMost m (E v key) := by
  have hlast : AtMost m (newer (t.memtable.copy key)
      (newestIn (E · key) 0 t.roMemtableVersion)) := by
    rw [← h.last key hkey]
    intro x hx
    obtain ⟨later, earlier, hsplit, -⟩ := List.lookup_eq_some_iff.mp hx
    refine hm (key, x) ?_ rfl
    rw [hsplit]
    exact List.mem_append_right _ List.mem_cons_self
  rcases hwin : newer (t.memtable.copy key) (newestIn (E · key) 0 t.roMemtableVersion) with _ | x
  · obtain ⟨hact, hepochs⟩ := newer_eq_none.mp hwin
    refine ⟨by simp [hact], fun v hv => ?_⟩
    rw [resolve_eq_none.mp hepochs (E v key)
      (mem_map_of_mem (f := (E · key)) (mem_epochs.mpr ⟨Nat.zero_le v, hv⟩))]
    exact atMost_none m
  · rw [hwin, atMost_some] at hlast
    obtain ⟨hact, hepochs⟩ := atMost_of_newer_eq_some hwin
    refine ⟨hact.mono hlast, fun v hv => ?_⟩
    rcases hn : newestIn (E · key) 0 t.roMemtableVersion with _ | y
    · rw [resolve_eq_none.mp hn (E v key)
        (mem_map_of_mem (f := (E · key)) (mem_epochs.mpr ⟨Nat.zero_le v, hv⟩))]
      exact atMost_none m
    · have hle := atMost_of_resolve_eq_some hn (E v key)
        (mem_map_of_mem (f := (E · key)) (mem_epochs.mpr ⟨Nat.zero_le v, hv⟩))
      exact hle.mono ((hepochs y hn).trans hlast)

/-- A write that goes to the active memtable. -/
theorem Tracks.write (h : t.Tracks c writes E s) {key : Key} {x : Copy} {m : SkipList} {ok : Bool}
    (hcopy : ∀ k, m.copy k = if k = key ∧ ok = true then newer (some x) (t.memtable.copy key)
      else t.memtable.copy k) (hx : ∀ y ∈ writes, y.1 = key → y.2.2 ≤ x.2) :
    ({ t with memtable := m } : LSMTree).Tracks c (if ok then (key, x) :: writes else writes) E s := by
  have hnew : ∀ k, k ≠ [] → m.copy k = if k = key ∧ ok = true then some x
      else t.memtable.copy k := by
    intro k hk
    rw [hcopy]
    split_ifs with hkey
    · rw [newer_eq_left (h.atMost (hkey.1 ▸ hk) hx).1]
    · rfl
  refine ⟨h.sound.setMemtable m, h.dropped_le, h.flushed_le, h.merged_le, h.versions, h.sealed,
    h.flag, h.level0, h.level1, h.rising, fun k hk v hv y hy => ?_, fun k hk => ?_⟩
  · change y ∈ m.copy k at hy
    rw [hnew k hk] at hy
    split_ifs at hy with hkey
    · obtain rfl := Option.some.inj hy
      obtain ⟨rfl, -⟩ := hkey
      exact (h.atMost hk hx).2 v hv
    · exact h.active k hk v hv y hy
  · change _ = newer (m.copy k) _
    rw [hnew k hk]
    by_cases hok : ok = true
    · by_cases hkey : k = key
      · subst hkey
        have hbound : AtMost x.2 (newestIn (E · k) 0 t.roMemtableVersion) :=
          atMost_newestIn fun v _ hv => (h.atMost hk hx).2 v hv
        rw [if_pos hok, if_pos ⟨rfl, hok⟩, newer_eq_left hbound, lastWrite, List.lookup_cons_self]
      · have hne : (k == key) = false := by simpa using hkey
        rw [if_pos hok, if_neg (fun hc => hkey hc.1), lastWrite, List.lookup_cons, hne]
        exact h.last k hk
    · rw [if_neg hok, if_neg (fun hc => hok hc.2)]
      exact h.last k hk

/-- The epochs after sealing: the memtable sealed is the newest one. -/
def sealEpoch (t : LSMTree) (E : ℕ → Key → Candidate) : ℕ → Key → Candidate :=
  Function.update E t.roMemtableVersion
    (ReadOnlyMemTable.ofSkipList t.memtable t.roMemtableVersion).copy

theorem sealEpoch_of_lt (t : LSMTree) (E : ℕ → Key → Candidate) {v : ℕ}
    (hv : v < t.roMemtableVersion) : t.sealEpoch E v = E v :=
  update_of_ne hv.ne _ _

theorem sealEpoch_self (t : LSMTree) (E : ℕ → Key → Candidate) {key : Key} (hkey : key ≠ []) :
    t.sealEpoch E t.roMemtableVersion key = t.memtable.copy key := by
  rw [sealEpoch, update_self, ReadOnlyMemTable.copy_ofSkipList, if_neg hkey]

theorem Tracks.flushMemtable (h : t.Tracks c writes E s) :
    t.flushMemtable.Tracks c writes (t.sealEpoch E) s := by
  have hold : ∀ key lo hi, hi ≤ t.roMemtableVersion →
      newestIn (t.sealEpoch E · key) lo hi = newestIn (E · key) lo hi := by
    intro key lo hi hhi
    refine newestIn_congr fun v _ hv => ?_
    rw [sealEpoch_of_lt t E (hv.trans_le hhi)]
  have hempty : ∀ key, t.flushMemtable.memtable.copy key = none := fun key => rfl
  refine ⟨h.sound.flushMemtable, h.dropped_le, h.flushed_le.trans (Nat.le_succ _), h.merged_le,
    ?_, fun ro hro key => ?_, fun ro hro => ?_, fun key hkey => ?_, fun key hkey => ?_,
    fun key hkey u v huv hv x hx y hy => ?_, fun key _ v _ y hy => ?_, fun key hkey => ?_⟩
  · change (t.readOnlyMemtables ++ [_]).map _ = List.range' s.dropped (t.roMemtableVersion + 1 - _)
    have hle := h.dropped_le.trans h.flushed_le
    rw [List.map_append, h.versions, Nat.succ_sub hle, List.range'_1_concat,
      Nat.add_sub_cancel' hle]
    rfl
  · rcases List.mem_append.mp hro with hro | hro
    · have hlt : ro.version < t.roMemtableVersion := by
        have hmem := mem_map_of_mem (f := fun ro : ReadOnlyMemTable => ro.version) hro
        rw [h.versions, mem_range'_1] at hmem
        omega
      rw [sealEpoch_of_lt t E hlt]
      exact h.sealed ro hro key
    · rw [List.mem_singleton.mp hro]
      exact (congrFun (update_self _ _ _) key).symm
  · rcases List.mem_append.mp hro with hro | hro
    · exact h.flag ro hro
    · rw [List.mem_singleton.mp hro]
      exact (decide_eq_false h.flushed_le.not_gt).symm
  · rw [hold key _ _ h.flushed_le]
    exact h.level0 key hkey
  · rw [hold key _ _ ((h.merged_le _).trans h.flushed_le)]
    exact h.level1 key hkey
  · -- the newest epoch is what the active memtable held, which bounds all others
    change v < t.roMemtableVersion + 1 at hv
    rcases Nat.lt_succ_iff_lt_or_eq.mp hv with hlt | rfl
    · simp only [sealEpoch_of_lt t E hlt, sealEpoch_of_lt t E (huv.trans_lt hlt)] at hx hy
      exact h.rising key hkey u v huv hlt x hx y hy
    · simp only [sealEpoch_self t E hkey] at hy
      rcases huv.lt_or_eq with hlt | rfl
      · simp only [sealEpoch_of_lt t E hlt] at hx
        exact h.active key hkey u hlt y hy x hx
      · simp only [sealEpoch_self t E hkey] at hx
        rw [Option.mem_unique hx hy]
  · rw [hempty] at hy
    cases hy
  · change _ = newer _ (newestIn (t.sealEpoch E · key) 0 (t.roMemtableVersion + 1))
    rw [hempty, none_newer, newestIn_succ (Nat.zero_le _), hold key _ _ le_rfl,
      sealEpoch_self t E hkey]
    exact h.last key hkey

theorem Tracks.flushIfDue (h : t.Tracks c writes E s) :
    ∃ E', t.flushIfDue.Tracks c writes E' s := by
  unfold LSMTree.flushIfDue
  split_ifs
  · exact ⟨_, h.flushMemtable⟩
  · exact ⟨E, h⟩

/-! ### Flushing to Level 0 -/

/-- Of the sealed memtables, the one flushed in order is the epoch after the flushed ones. -/
theorem Tracks.version_eq (h : t.Tracks c writes E s) {ro : ReadOnlyMemTable}
    (hro : ro ∈ t.readOnlyMemtables) (hflag : ro.flushedToLevel0 = false)
    (horder : ∀ r ∈ t.readOnlyMemtables, r.flushedToLevel0 = false → ro.version ≤ r.version) :
    ro.version = s.flushed ∧ s.flushed < t.roMemtableVersion := by
  have hge : s.flushed ≤ ro.version := by
    rw [h.flag ro hro] at hflag
    exact not_lt.mp (of_decide_eq_false hflag)
  have hlt : ro.version < t.roMemtableVersion := by
    have hmem := mem_map_of_mem (f := fun ro : ReadOnlyMemTable => ro.version) hro
    rw [h.versions, mem_range'_1] at hmem
    omega
  have hnext : s.flushed ∈ t.readOnlyMemtables.map (·.version) := by
    have hle := h.dropped_le
    rw [h.versions, mem_range'_1]
    omega
  obtain ⟨r, hr, hrv⟩ := mem_map.mp hnext
  have hrflag : r.flushedToLevel0 = false := by
    rw [h.flag r hr, hrv]
    exact decide_eq_false (lt_irrefl _)
  have hle := horder r hr hrflag
  omega

theorem Tracks.flushRoMemtableToLevel0 (h : t.Tracks c writes E s) {version : ℕ} {env : FlushEnv}
    (horder : ∀ r ∈ t.readOnlyMemtables, r.flushedToLevel0 = false → version ≤ r.version) :
    ∃ s', (t.flushRoMemtableToLevel0 c version env).1.Tracks c writes E s' := by
  have hsound := h.sound.flushRoMemtableToLevel0 version env
  obtain heq | ⟨stamp, hstamp, heq | ⟨ro, written, hfind, hflag, hw, heq⟩⟩ :=
    t.flushRoMemtableToLevel0_cases c version env
  · refine ⟨s, ?_⟩
    rwa [heq]
  · rw [heq] at hsound ⊢
    exact ⟨s, hsound, h.dropped_le, h.flushed_le, h.merged_le, h.versions, h.sealed, h.flag,
      h.level0, h.level1, h.rising, h.active, h.last⟩
  · have hro : ro ∈ t.readOnlyMemtables := List.mem_of_find?_eq_some hfind
    have hversion : ro.version = version := by simpa using List.find?_some hfind
    obtain ⟨hnext, hlt⟩ := h.version_eq hro hflag (hversion ▸ horder)
    have hmark : ∀ r ∈ t.readOnlyMemtables.map (fun ro =>
        if ro.version = version then { ro with flushedToLevel0 := true } else ro),
        ∃ r₀ ∈ t.readOnlyMemtables, r.version = r₀.version ∧ r.copy = r₀.copy ∧
          r.flushedToLevel0 = (decide (r₀.version = version) || r₀.flushedToLevel0) := by
      intro r hr
      obtain ⟨r₀, hr₀, rfl⟩ := mem_map.mp hr
      refine ⟨r₀, hr₀, ?_⟩
      split_ifs with hv
      · exact ⟨rfl, rfl, by simp [hv]⟩
      · exact ⟨rfl, rfl, by simp [hv]⟩
    rw [heq] at hsound ⊢
    refine ⟨{ s with flushed := s.flushed + 1 }, hsound, h.dropped_le.trans (Nat.le_succ _), hlt,
      fun b => (h.merged_le b).trans (Nat.le_succ _), ?_, fun r hr key => ?_, fun r hr => ?_,
      fun key hkey => ?_, ?_, h.rising, h.active, h.last⟩
    · refine Eq.trans ?_ h.versions
      change (t.readOnlyMemtables.map _).map _ = _
      rw [map_map]
      refine map_congr_left fun r _ => ?_
      simp only [comp_apply]
      split_ifs <;> rfl
    · obtain ⟨r₀, hr₀, hv, hcopy, -⟩ := hmark r hr
      rw [hcopy, hv]
      exact h.sealed r₀ hr₀ key
    · obtain ⟨r₀, hr₀, hv, -, hflag₀⟩ := hmark r hr
      rw [hflag₀, hv, h.flag r₀ hr₀, ← hversion, hnext, ← Bool.decide_or]
      exact decide_eq_decide.mpr (by change _ ↔ r₀.version < s.flushed + 1; omega)
    · -- the bucket's new file, if any, holds what the memtable held of the key
      have hcopy : copyInRecords (recordsOf c t.config.numBuckets (t.bucketOf c key) ro.records)
          key = E s.flushed key := by
        rw [copyInRecords_recordsOf c _ _ ro.ascending, ← hnext, ← h.sealed ro hro key]
        exact if_pos rfl
      have hb : t.bucketOf c key < t.config.numBuckets :=
        getBucketForKey_lt c key t.config.numBuckets_pos
      change resolve (((t.registerLevel0Files written).buckets (t.bucketOf c key)).liveFiles.map _)
        = newestIn (E · key) (s.merged (t.bucketOf c key)) (s.flushed + 1)
      rw [newestIn_succ (h.merged_le _), ← h.level0 key hkey, ← hcopy]
      rcases registerLevel0Files_spec h.sound ro.ascending hstamp hw (t.bucketOf c key) with
        ⟨hkeep, hnone⟩ | ⟨f, hcreated, hobs, -, hentries, hnew⟩
      · rw [hkeep, hnone hb]
        rfl
      · have hlive : ({ t.buckets (t.bucketOf c key) with
            level0Files := (t.buckets (t.bucketOf c key)).level0Files ++ [f] } : Bucket).liveFiles =
            f :: (t.buckets (t.bucketOf c key)).liveFiles := by
          rw [Bucket.liveFiles, newestFirst_append_singleton (h.sound.bucket _).stamps
            fun e he => ((h.sound.stamp _ e he).trans_lt hstamp).trans_eq hcreated.symm,
            List.filter_cons_of_pos (by simp [hobs])]
          rfl
        rw [hnew, hlive, List.map_cons, resolve_cons, L0FileEntry.copy, hentries,
          copyIn_map_ofRecord]
    · intro key hkey
      refine Eq.trans ?_ (h.level1 key hkey)
      change ((t.registerLevel0Files written).buckets (t.bucketOf c key)).level1Copy c key = _
      rcases registerLevel0Files_spec h.sound ro.ascending hstamp hw (t.bucketOf c key) with
        ⟨hkeep, -⟩ | ⟨f, -, -, -, -, hnew⟩
      · rw [hkeep]
      · rw [hnew]
        rfl

/-! ### Merging and clean-up -/

theorem Tracks.mergeLevel0ToLevel1 (h : t.Tracks c writes E s) (bucket : ℕ) :
    ∃ s', (t.mergeLevel0ToLevel1 c bucket).1.Tracks c writes E s' := by
  have hsound := h.sound.mergeLevel0ToLevel1From bucket (t.buckets bucket).level0EntriesSnapshot
  have hin : ∀ f ∈ (t.buckets bucket).liveFiles,
      f.createdAtMs ∈ (t.buckets bucket).level0EntriesSnapshot := fun f hf =>
    mem_map_of_mem (f := fun e : L0FileEntry => e.createdAtMs) (Bucket.mem_liveFiles.mp hf).1
  have hmerged : (t.buckets bucket).mergedFiles (t.buckets bucket).level0EntriesSnapshot =
      (t.buckets bucket).liveFiles := by
    refine List.filter_eq_self.mpr fun f hf => ?_
    simpa using hin f hf
  have hunmerged : (t.buckets bucket).unmergedFiles (t.buckets bucket).level0EntriesSnapshot =
      [] := by
    refine List.filter_eq_nil_iff.mpr fun f hf => ?_
    simpa using hin f hf
  rcases Bucket.prepareMerge_total (h.sound.bucket bucket)
    (t.buckets bucket).level0EntriesSnapshot with ⟨hnone, -⟩ | ⟨⟨m, hm⟩, -⟩
  · have hsame : (t.mergeLevel0ToLevel1 c bucket).1 = t := by
      simp [LSMTree.mergeLevel0ToLevel1, mergeLevel0ToLevel1From, Bucket.mergeSnapshot, hnone,
        setBucket]
    refine ⟨s, ?_⟩
    rwa [hsame]
  · have hprep := Bucket.prepareMerge_spec (h.sound.bucket bucket) hm
    have hpub : (t.mergeLevel0ToLevel1 c bucket).1 = t.setBucket bucket
        ((t.buckets bucket).publish m (t.buckets bucket).level0EntriesSnapshot) := by
      simp [LSMTree.mergeLevel0ToLevel1, mergeLevel0ToLevel1From, Bucket.mergeSnapshot, hm]
    refine ⟨{ s with merged := update s.merged bucket s.flushed }, ?_⟩
    change (t.mergeLevel0ToLevel1 c bucket).1.Sound c at hsound
    rw [hpub] at hsound ⊢
    refine ⟨hsound, h.dropped_le, h.flushed_le, fun b => ?_, h.versions, h.sealed, h.flag,
      fun key hkey => ?_, fun key hkey => ?_, h.rising, h.active, h.last⟩
    · change update s.merged bucket s.flushed b ≤ s.flushed
      by_cases hb : b = bucket
      · rw [hb, update_self]
      · rw [update_of_ne hb]
        exact h.merged_le b
    · change resolve ((update t.buckets bucket _ (t.bucketOf c key)).liveFiles.map _) =
        newestIn (E · key) (update s.merged bucket s.flushed (t.bucketOf c key)) s.flushed
      by_cases hb : t.bucketOf c key = bucket
      · rw [hb, update_self, update_self, Bucket.liveFiles_publish, hunmerged,
          newestIn_of_le le_rfl]
        rfl
      · rw [update_of_ne hb, update_of_ne hb]
        exact h.level0 key hkey
    · change (update t.buckets bucket _ (t.bucketOf c key)).level1Copy c key = liveCopy
        (newestIn (E · key) 0 (update s.merged bucket s.flushed (t.bucketOf c key)))
      by_cases hb : t.bucketOf c key = bucket
      · have hwinner : (t.buckets bucket).mergeWinner c
            (t.buckets bucket).level0EntriesSnapshot key =
              newer (newestIn (E · key) (s.merged bucket) s.flushed)
                (liveCopy (newestIn (E · key) 0 (s.merged bucket))) := by
          have hl0 := h.level0 key hkey
          have hl1 := h.level1 key hkey
          rw [hb] at hl0 hl1
          rw [Bucket.mergeWinner, hmerged, hl0, hl1]
        rw [hb, update_self, update_self]
        refine (hprep.copy key).trans ?_
        rw [hwinner]
        exact liveCopy_merge_epochs (h.rising key hkey) (h.merged_le bucket) h.flushed_le
      · rw [update_of_ne hb, update_of_ne hb]
        exact h.level1 key hkey

/-- A step that leaves the memtables alone and, of every bucket, the copies in the files that
count and in Level 1. -/
theorem Tracks.of_buckets (h : t.Tracks c writes E s) {buckets : ℕ → Bucket}
    (hsound : ({ t with buckets := buckets } : LSMTree).Sound c)
    (hlive : ∀ b key, (buckets b).liveFiles.map (·.copy c key) =
      (t.buckets b).liveFiles.map (·.copy c key))
    (hl1 : ∀ b, (buckets b).sstableFile = (t.buckets b).sstableFile) :
    ({ t with buckets := buckets } : LSMTree).Tracks c writes E s := by
  refine ⟨hsound, h.dropped_le, h.flushed_le, h.merged_le, h.versions, h.sealed, h.flag,
    fun key hkey => ?_, fun key hkey => ?_, h.rising, h.active, h.last⟩
  · exact (congrArg resolve (hlive _ key)).trans (h.level0 key hkey)
  · refine Eq.trans ?_ (h.level1 key hkey)
    change copyIn (entriesOf c (buckets _).sstableFile) key = _
    rw [hl1]
    rfl

theorem Tracks.cleanupObsoleteLevel0Files (h : t.Tracks c writes E s) :
    t.cleanupObsoleteLevel0Files.Tracks c writes E s := by
  refine h.of_buckets h.sound.cleanupObsoleteLevel0Files (fun b key => ?_) fun b => rfl
  refine congrArg (List.map _) ?_
  change (newestFirst ((t.buckets b).level0Files.filter _)).filter _ = _
  rw [← filter_newestFirst (h.sound.bucket b).stamps, List.filter_filter]
  refine filter_congr fun f _ => ?_
  cases f.obsolete <;> simp

theorem Tracks.pinLevel0File (h : t.Tracks c writes E s) (bucket stamp readers : ℕ) :
    (t.pinLevel0File bucket stamp readers).Tracks c writes E s := by
  refine h.of_buckets (h.sound.pinLevel0File bucket stamp readers) (fun b key => ?_) fun b => ?_
  · by_cases hb : b = bucket
    · subst hb
      have hkeep : ∀ e : L0FileEntry, (if e.createdAtMs = stamp then
          { e with readerCount := readers } else e).createdAtMs = e.createdAtMs := by
        intro e
        split_ifs <;> rfl
      rw [update_self, Bucket.liveFiles, map_newestFirst _ hkeep, List.filter_map,
        map_map, Bucket.liveFiles]
      have hfilter : ∀ e : L0FileEntry, ((fun f : L0FileEntry => !f.obsolete) ∘ fun e =>
          if e.createdAtMs = stamp then { e with readerCount := readers } else e) e =
            !e.obsolete := by
        intro e
        simp only [comp_apply]
        split_ifs <;> rfl
      rw [filter_congr fun e _ => hfilter e]
      refine map_congr_left fun e _ => ?_
      simp only [comp_apply]
      split_ifs <;> rfl
    · rw [update_of_ne hb]
  · by_cases hb : b = bucket
    · subst hb
      rw [update_self]
    · rw [update_of_ne hb]

theorem Tracks.pinMemtable (h : t.Tracks c writes E s) (version readers : ℕ) :
    (t.pinMemtable version readers).Tracks c writes E s := by
  have hmem : ∀ r ∈ (t.pinMemtable version readers).readOnlyMemtables,
      ∃ r₀ ∈ t.readOnlyMemtables, r.version = r₀.version ∧ r.copy = r₀.copy ∧
        r.flushedToLevel0 = r₀.flushedToLevel0 := by
    intro r hr
    obtain ⟨r₀, hr₀, rfl⟩ := mem_map.mp hr
    refine ⟨r₀, hr₀, ?_⟩
    split_ifs <;> exact ⟨rfl, rfl, rfl⟩
  refine ⟨h.sound.pinMemtable version readers, h.dropped_le, h.flushed_le, h.merged_le, ?_,
    fun r hr key => ?_, fun r hr => ?_, h.level0, h.level1, h.rising, h.active, h.last⟩
  · refine Eq.trans ?_ h.versions
    change (t.readOnlyMemtables.map _).map _ = _
    rw [map_map]
    refine map_congr_left fun r _ => ?_
    simp only [comp_apply]
    split_ifs <;> rfl
  · obtain ⟨r₀, hr₀, hv, hcopy, -⟩ := hmem r hr
    rw [hcopy, hv]
    exact h.sealed r₀ hr₀ key
  · obtain ⟨r₀, hr₀, hv, -, hflag⟩ := hmem r hr
    rw [hflag, hv]
    exact h.flag r₀ hr₀

/-- Dropping the flushed memtables moves the start of their stretch up to the flushed ones. -/
theorem Tracks.deferOldMemtablesCleanup (h : t.Tracks c writes E s) :
    t.deferOldMemtablesCleanup.Tracks c writes E { s with dropped := s.flushed } := by
  have hall : ∀ ro ∈ t.readOnlyMemtables, ro.version < t.roMemtableVersion := by
    intro ro hro
    have hmem := mem_map_of_mem (f := fun ro : ReadOnlyMemTable => ro.version) hro
    rw [h.versions, mem_range'_1] at hmem
    omega
  have hkept : t.deferOldMemtablesCleanup.readOnlyMemtables =
      t.readOnlyMemtables.filter fun ro => decide (s.flushed ≤ ro.version) := by
    change (t.readOnlyMemtables.filter _).filter _ ++ t.readOnlyMemtables.filter _ = _
    have hnew : t.readOnlyMemtables.filter (fun ro => ¬ ro.version < t.roMemtableVersion) = [] := by
      refine List.filter_eq_nil_iff.mpr fun ro hro => ?_
      simpa using hall ro hro
    rw [hnew, List.append_nil, List.filter_filter]
    refine filter_congr fun ro hro => ?_
    rw [h.flag ro hro, decide_eq_true (hall ro hro), Bool.and_true, ← decide_not]
    exact decide_eq_decide.mpr not_lt
  have hversions : t.deferOldMemtablesCleanup.readOnlyMemtables.map (·.version) =
      List.range' s.flushed (t.roMemtableVersion - s.flushed) := by
    have hle := h.dropped_le
    have hle' := h.flushed_le
    have hsplit := List.range'_append_1 (s := s.dropped) (m := s.flushed - s.dropped)
      (n := t.roMemtableVersion - s.flushed)
    rw [show s.dropped + (s.flushed - s.dropped) = s.flushed by omega,
      show s.flushed - s.dropped + (t.roMemtableVersion - s.flushed) =
        t.roMemtableVersion - s.dropped by omega] at hsplit
    have hcomp : (fun ro : ReadOnlyMemTable => decide (s.flushed ≤ ro.version)) =
        (fun v => decide (s.flushed ≤ v)) ∘ fun ro : ReadOnlyMemTable => ro.version := rfl
    rw [hkept, hcomp, ← List.filter_map, h.versions, ← hsplit, List.filter_append]
    have hlow : (List.range' s.dropped (s.flushed - s.dropped)).filter
        (fun v => decide (s.flushed ≤ v)) = [] := by
      refine List.filter_eq_nil_iff.mpr fun v hv => ?_
      rw [mem_range'_1] at hv
      simp only [decide_eq_true_eq]
      omega
    have hhigh : (List.range' s.flushed (t.roMemtableVersion - s.flushed)).filter
        (fun v => decide (s.flushed ≤ v)) =
          List.range' s.flushed (t.roMemtableVersion - s.flushed) := by
      refine List.filter_eq_self.mpr fun v hv => ?_
      rw [mem_range'_1] at hv
      exact decide_eq_true hv.1
    rw [hlow, hhigh, List.nil_append]
  exact ⟨h.sound.deferOldMemtablesCleanup, le_rfl, h.flushed_le, h.merged_le, hversions,
    fun ro hro => h.sealed ro (mem_deferOldMemtablesCleanup hro),
    fun ro hro => h.flag ro (mem_deferOldMemtablesCleanup hro), h.level0, h.level1, h.rising,
    h.active, h.last⟩

/-! ### Whole runs -/

/-- Every ordered step keeps the tree on track. -/
theorem Tracks.apply (h : t.Tracks c writes E s) {op : Op} (horder : t.Ordered writes op) :
    ∃ E' s', (t.apply c op).1.Tracks c (t.noteWrite c writes op) E' s' := by
  obtain ⟨hwrite, hflush⟩ := horder
  cases op with
  | insertWithSeq key value seq =>
    obtain ⟨E', h'⟩ := h.flushIfDue
    have hok : ((t.apply c (.insertWithSeq key value seq)).2).isOk =
        (t.flushIfDue.memtable.tryInsertWithSeq key value seq).2.isOk := by
      rw [LSMTree.apply, insertWithSeq]
      rcases (t.flushIfDue.memtable.tryInsertWithSeq key value seq).2 with ⟨⟨⟩⟩ | _ <;> rfl
    have hnote : t.noteWrite c writes (.insertWithSeq key value seq) =
        if (t.flushIfDue.memtable.tryInsertWithSeq key value seq).2.isOk then
          (key, some value, seq) :: writes else writes := by
      rw [← hok]
      rfl
    rw [hnote]
    exact ⟨E', s, h'.write (x := (some value, seq))
      (SkipList.copy_tryInsertWithSeq _ key value seq) (hwrite _ rfl)⟩
  | deleteWithSeq key seq =>
    obtain ⟨E', h'⟩ := h.flushIfDue
    have hok : ((t.apply c (.deleteWithSeq key seq)).2).isOk =
        (t.flushIfDue.memtable.insertTombstoneWithSeq key seq).2.isOk := by
      rw [LSMTree.apply, deleteWithSeq]
      rcases (t.flushIfDue.memtable.insertTombstoneWithSeq key seq).2 with ⟨⟨⟩⟩ | _ <;> rfl
    have hnote : t.noteWrite c writes (.deleteWithSeq key seq) =
        if (t.flushIfDue.memtable.insertTombstoneWithSeq key seq).2.isOk then
          (key, none, seq) :: writes else writes := by
      rw [← hok]
      rfl
    rw [hnote]
    exact ⟨E', s, h'.write (x := (none, seq))
      (SkipList.copy_insertTombstoneWithSeq _ key seq) (hwrite _ rfl)⟩
  | flushMemtable => exact ⟨_, s, h.flushMemtable⟩
  | flushRoMemtableToLevel0 version env =>
    obtain ⟨s', h'⟩ := h.flushRoMemtableToLevel0 (hflush version rfl)
    exact ⟨E, s', h'⟩
  | mergeLevel0ToLevel1 bucket =>
    obtain ⟨s', h'⟩ := h.mergeLevel0ToLevel1 bucket
    exact ⟨E, s', h'⟩
  | cleanupObsoleteLevel0Files => exact ⟨E, s, h.cleanupObsoleteLevel0Files⟩
  | deferOldMemtablesCleanup => exact ⟨E, _, h.deferOldMemtablesCleanup⟩
  | pinLevel0File bucket stamp readers => exact ⟨E, s, h.pinLevel0File bucket stamp readers⟩
  | pinMemtable version readers => exact ⟨E, s, h.pinMemtable version readers⟩

/-- So does every ordered run. -/
theorem Tracks.run (h : t.Tracks c writes E s) {ops : List Op} (horder : t.OrderedRun c writes ops) :
    ∃ E' s', (t.run c ops).Tracks c (t.writesOf c writes ops) E' s' := by
  induction ops generalizing t writes E s with
  | nil => exact ⟨E, s, h⟩
  | cons op ops ih =>
    obtain ⟨E', s', h'⟩ := h.apply horder.1
    exact ih h' horder.2

/-- **Whole runs.** After every ordered run from an empty tree, a read of a non-empty key
answers with the last write applied to it: its pointer and sequence if that was an insert,
nothing if it was a delete or the key was never written. -/
theorem getWithSeq_run_eq_last (c : Crates) (config : LSMConfig) (ops : List Op)
    (horder : (empty c config).OrderedRun c [] ops) (key : Key) (hkey : key ≠ []) :
    ((empty c config).run c ops).getWithSeq c key =
      .ok (live (lastWrite ((empty c config).writesOf c [] ops) key)) := by
  obtain ⟨E, s, h⟩ := (tracks_empty c config).run horder
  rw [getWithSeq_eq h.sound, h.live_winner hkey]

end LSMTree

/-- A write that is flushed and merged, then deleted, the tombstone flushed and merged in its
turn. -/
def writeAndDelete : List Op :=
  [.insertWithSeq [0x6b] 7 5, .flushMemtable, .flushRoMemtableToLevel0 0 (.quiet 1),
    .mergeLevel0ToLevel1 0, .deleteWithSeq [0x6b] 9, .flushMemtable,
    .flushRoMemtableToLevel0 1 (.quiet 2), .deferOldMemtablesCleanup, .mergeLevel0ToLevel1 0,
    .cleanupObsoleteLevel0Files]

theorem getWithSeq_run_eq_last_writeAndDelete :
    (LSMTree.empty .real .oneBucket).OrderedRun .real [] writeAndDelete ∧
      ((LSMTree.empty .real .oneBucket).run .real writeAndDelete).getWithSeq .real [0x6b] =
        .ok (live (lastWrite ((LSMTree.empty .real .oneBucket).writesOf .real [] writeAndDelete)
          [0x6b])) := by
  have horder : (LSMTree.empty .real .oneBucket).OrderedRun .real [] writeAndDelete := by
    decide +kernel
  exact ⟨horder, LSMTree.getWithSeq_run_eq_last .real .oneBucket writeAndDelete horder [0x6b]
    (List.cons_ne_nil _ _)⟩

end Minnal
