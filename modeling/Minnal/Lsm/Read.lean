import Minnal.Lsm.Layers

/-!
# Point reads

`getWithSeq` resolves one key and `getMultiple` a batch. Both look through the layers newest
first and take a shortcut wherever they can tell that a layer cannot change the answer: an
active entry at or above `maxLowerSeq` settles the key, a Level-0 or Level-1 file is skipped
when the key is outside its range, fails its Bloom filter, or when the file's newest sequence
does not exceed the best copy in hand, and a file that is read is entered at a sparse-index
hint.

The two paths are written separately and both are proved against `LSMTree.winner`, which
takes no shortcut: `getWithSeq_eq` and `getMultiple_eq`. The argument for every skip is the
same. Resolution is a left-biased maximum, so a copy in hand is unchanged by anything whose
sequence it bounds (`LastWrite.newer_eq_left`), and pruning may be stated *relative to the
copy in hand*: what a search returns need not be the winner of what it searched, it only has
to make no difference once merged with that copy.
-/

set_option linter.dupNamespace false

namespace Minnal

open ByteCodec FrameWalk SortedMap LastWrite
open List (map_congr_left map_map map_cons mem_filter map_id mem_map mem_cons_self)

/-! ### Level 0 -/

/-- The higher of two optional sequences. -/
def higherSeq : Option ℕ → Option ℕ → Option ℕ
  | some f, some s => some (if seqNewer s f then s else f)
  | some f, none => some f
  | none, s => s

/-- Keep a hit if it is strictly newer than the best one so far. -/
def SsLookup.takeNewer (best hit : SsLookup) : SsLookup :=
  match hit.seq with
  | none => best
  | some s => if best.seq.all fun b => seqNewer s b then hit else best

/-- Search files in the order given. `floor` is the sequence of the copy the caller holds. -/
def searchFiles (c : Crates) (key : Key) (floor : Option ℕ) :
    List L0FileEntry → SsLookup → Except LSMError SsLookup
  | [], best => .ok best
  | entry :: entries, best =>
    if entry.obsolete then searchFiles c key floor entries best
    else if entry.mayContain c key = false then searchFiles c key floor entries best
    else if (higherSeq floor best.seq).any entry.cannotBeat then
      searchFiles c key floor entries best
    else
      match lookupInSstableFileFrom c entry.file key (entry.scanStart key) with
      | .error err => .error err
      | .ok hit => searchFiles c key floor entries (best.takeNewer hit)

/-- Search a bucket's Level-0 files, newest first. -/
def searchLevel0Files (c : Crates) (b : Bucket) (key : Key) (floor : Option ℕ) :
    Except LSMError SsLookup :=
  searchFiles c key floor (newestFirst b.level0Files) .missing

/-! ### Level 1 and the whole tree -/

/-- Look a key up in a bucket's Level-1 file. -/
def lookupLevel1 (c : Crates) (b : Bucket) (key : Key) (floor : Option ℕ) :
    Except LSMError SsLookup :=
  let outOfRange := b.sstableMetadata.any fun m => decide (key < m.minKey) || decide (m.maxKey < key)
  let cannotWin := b.sstableMetadata.any fun m =>
    floor.any fun f => m.maxSeq.any fun s => seqNewerOrEq f s
  let rejected := b.sstableBloom.any fun f => !f.contains c key
  if outOfRange || cannotWin || rejected then .ok .missing
  else
    let startOffset := (b.sstableIndex.map (·.blockStart key)).getD 0
    lookupInSstableFileFrom c b.sstableFile key startOffset

/-- Look a key up in Level 0, then Level 1; a tie goes to Level 0. -/
def lookupSstable (c : Crates) (b : Bucket) (key : Key) (floor : Option ℕ) :
    Except LSMError SsLookup :=
  match searchLevel0Files c b key floor with
  | .error err => .error err
  | .ok l0 =>
    match lookupLevel1 c b key (higherSeq floor l0.seq) with
    | .error err => .error err
    | .ok l1 =>
      match l0.seq, l1.seq with
      | some s0, some s1 => .ok (if seqNewer s1 s0 then l1 else l0)
      | some _, none => .ok l0
      | none, _ => .ok l1

namespace LSMTree

/-- Fold the sealed memtables, newest first, into the best copy so far. -/
def foldReadOnly (t : LSMTree) (key : Key) (best : Candidate) : Candidate :=
  t.readOnlyMemtables.reverse.foldl
    (fun best ro =>
      match ro.find key with
      | some r => mergeCandidate best r.copy.1 r.seq
      | none => best) best

/-- The winning copy below the active memtable, given the copy found there. -/
def newestCopyFrom (c : Crates) (t : LSMTree) (key : Key) (best : Candidate) :
    Except LSMError Candidate :=
  let best := t.foldReadOnly key best
  match lookupSstable c (t.buckets (t.bucketOf c key)) key (best.map Prod.snd) with
  | .error err => .error err
  | .ok (.found ptr seq) => .ok (mergeCandidate best (some ptr) seq)
  | .ok (.deleted seq) => .ok (mergeCandidate best none seq)
  | .ok .missing => .ok best

/-- The winning copy of a key across every layer. -/
def newestCopy (c : Crates) (t : LSMTree) (key : Key) : Except LSMError Candidate :=
  match t.memtable.entry key with
  | some r =>
    if seqNewerOrEq r.seq t.maxLowerSeq then .ok (some r.copy)
    else t.newestCopyFrom c key (mergeCandidate none r.copy.1 r.seq)
  | none => t.newestCopyFrom c key none

/-- The pointer and sequence of a key's live value. -/
def getWithSeq (c : Crates) (t : LSMTree) (key : Key) : Except LSMError (Option (ℕ × ℕ)) :=
  (t.newestCopy c key).map live

/-- The pointer currently referenced for a key, and whether a write at `newSeq` would win. -/
def currentPointerAndWins (c : Crates) (t : LSMTree) (key : Key) (newSeq : ℕ) :
    Except LSMError (Option ℕ × Bool) :=
  (t.newestCopy c key).map fun
    | some x => (x.1, seqNewerOrEq newSeq x.2)
    | none => (none, true)

end LSMTree

/-! ### Batches -/

/-- One bucket's share of a batch: each distinct pending key and its running winner. -/
abbrev BatchSlots := List (Key × Candidate)

/-- Fold an entry into the slot of its key, if it has one. -/
def foldSlot (pending : BatchSlots) (entry : SStableEntry) : BatchSlots :=
  pending.map fun x =>
    if x.1 = entry.key then (x.1, mergeCandidate x.2 entry.copy.1 entry.seq) else x

/-- Fold files, in the order given, into the slots. -/
def resolveFiles (c : Crates) : List L0FileEntry → BatchSlots → Except LSMError BatchSlots
  | [], pending => .ok pending
  | entry :: entries, pending =>
    let wanted := (pending.filter fun x =>
      entry.mayContain c x.1 && !(x.2.any fun y => entry.cannotBeat y.2)).map Prod.fst
    if wanted.isEmpty then resolveFiles c entries pending
    else
      let candidates := (wanted.insertionSort (· ≤ ·)).map fun k => (k, entry.scanStart k)
      match scanSortedCandidates c entry.file foldSlot candidates pending with
      | .error err => .error err
      | .ok pending => resolveFiles c entries pending

/-- The SSTable half of a batch for one bucket. -/
def resolveBucketBatch (c : Crates) (b : Bucket) (pending : BatchSlots) :
    Except LSMError BatchSlots :=
  match resolveFiles c (newestFirst (b.level0Files.filter fun e => !e.obsolete)) pending with
  | .error err => .error err
  | .ok pending =>
    let metadata := b.sstableMetadata.filter fun m => decide (0 < m.entryCount)
    let mayBeInL1 := (pending.filter fun x =>
      !((metadata.bind (·.maxSeq)).any fun max => x.2.any fun y => seqNewerOrEq y.2 max) &&
      (metadata.all fun m => decide (m.minKey ≤ x.1) && decide (x.1 ≤ m.maxKey)) &&
      (b.sstableBloom.all fun f => f.contains c x.1)).map Prod.fst
    if mayBeInL1.isEmpty then .ok pending
    else if b.sstableFile.length = 0 then .ok pending
    else
      let candidates := (mayBeInL1.insertionSort (· ≤ ·)).map fun k =>
        (k, (b.sstableIndex.map (·.blockStart k)).getD 0)
      scanSortedCandidates c b.sstableFile foldSlot candidates pending

namespace LSMTree

/-- The memtable half of a batch for one key: the best copy, and whether it is settled. -/
def memtableWinner (t : LSMTree) (key : Key) : Candidate × Bool :=
  match t.memtable.entry key with
  | some r =>
    let best := mergeCandidate none r.copy.1 r.seq
    if seqNewerOrEq r.seq t.maxLowerSeq then (best, true) else (t.foldReadOnly key best, false)
  | none => (t.foldReadOnly key none, false)

/-- The unsettled keys of a bucket, one slot for each distinct key. -/
def pendingFor (c : Crates) (t : LSMTree) (keys : List Key) (bucket : ℕ) : BatchSlots :=
  ((keys.filter fun k => !(t.memtableWinner k).2 && t.bucketOf c k == bucket).dedup).map
    fun k => (k, (t.memtableWinner k).1)

/-- Fetch several keys in one pass per bucket. -/
def getMultiple (c : Crates) (t : LSMTree) (keys : List Key) :
    Except LSMError (List (Option (ℕ × ℕ))) :=
  let resolved := (List.range t.config.numBuckets).mapM fun b =>
    let pending := t.pendingFor c keys b
    if pending.isEmpty then .ok [] else resolveBucketBatch c (t.buckets b) pending
  resolved.map fun slots =>
    keys.map fun k =>
      let m := t.memtableWinner k
      live (if m.2 then m.1
        else ((slots.getD (t.bucketOf c k) []).lookup k).join)

end LSMTree

/-! ### Pruning -/

/-- The sequence of the winner of two copies is the higher of their sequences. -/
theorem map_snd_newer (a b : Candidate) :
    (newer a b).map Prod.snd = higherSeq (a.map Prod.snd) (b.map Prod.snd) := by
  rcases a with _ | a
  · rfl
  rcases b with _ | b
  · rfl
  by_cases h : a.2 < b.2 <;> simp [newer_some_some, higherSeq, seqNewer, h]

theorem candidate_takeNewer (best hit : SsLookup) :
    (best.takeNewer hit).candidate = newer best.candidate hit.candidate := by
  rw [SsLookup.takeNewer, hit.seq_eq, best.seq_eq]
  cases hh : hit.candidate with
  | none => simp
  | some y =>
    cases hb : best.candidate with
    | none => simp [hh]
    | some x => by_cases h : x.2 < y.2 <;> simp [newer_some_some, seqNewer, h, hh, hb]

variable {key : Key} {seq : ℕ}

section Files

variable {c : Crates} {numBuckets bucket : ℕ} {f : L0FileEntry}

/-- A file that cannot contain the key does not. -/
theorem L0FileEntry.Sound.copy_eq_none (hf : f.Sound c numBuckets bucket)
    (h : f.mayContain c key = false) : f.copy c key = none := by
  refine copyIn_eq_none.mpr fun e he hkey => ?_
  unfold L0FileEntry.mayContain at h
  cases hs : f.summary with
  | none => simp [hs] at h
  | some s =>
    have hdesc := hf.described s hs
    obtain ⟨hlo, hhi⟩ := hdesc.range e he
    have hbloom := hdesc.bloom e he
    subst hkey
    simp [hs, hlo, hhi, hbloom] at h

/-- A file that cannot beat a sequence holds nothing above it. -/
theorem L0FileEntry.Sound.atMost_copy (hf : f.Sound c numBuckets bucket)
    (h : f.cannotBeat seq = true) (key : Key) : AtMost seq (f.copy c key) := by
  unfold L0FileEntry.cannotBeat at h
  cases hs : f.summary with
  | none => simp [hs] at h
  | some s =>
    have hle : s.maxSeq ≤ seq := by simpa [hs, seqNewerOrEq] using h
    exact atMost_copyIn (fun e he => ((hf.described s hs).maxSeq e he).trans hle) key

/-- A file's scan start is a sound hint. -/
theorem L0FileEntry.Sound.hintFor (hf : f.Sound c numBuckets bucket) (key : Key) :
    HintFor c f.file (entriesOf c f.file) key (f.scanStart key) := by
  unfold L0FileEntry.scanStart
  cases hs : f.summary with
  | none => exact .inl (by simp)
  | some s =>
    cases hi : s.index with
    | none => exact .inl (by simp [hi])
    | some i =>
      have hpoints := (hf.described s hs).index i hi
      simpa [hi] using hpoints.hintFor key

end Files

variable {c : Crates} {numBuckets bucket : ℕ} {files : List L0FileEntry}

/-- **Level 0.** Merged with the copy in hand, the pruned search gives the winner over all
files that count. -/
theorem searchFiles_spec (hfiles : ∀ f ∈ files, f.Sound c numBuckets bucket) (key : Key)
    (best : Candidate) (acc : SsLookup) :
    ∃ r, searchFiles c key (best.map Prod.snd) files acc = .ok r ∧
      newer best r.candidate = newer (newer best acc.candidate)
        (resolve ((files.filter fun f => !f.obsolete).map (·.copy c key))) := by
  induction files generalizing acc with
  | nil => exact ⟨acc, rfl, by simp⟩
  | cons f files ih =>
    have hrest : ∀ g ∈ files, g.Sound c numBuckets bucket :=
      fun g hg => hfiles g (List.mem_cons_of_mem _ hg)
    have hf := hfiles f mem_cons_self
    rw [searchFiles]
    by_cases hobs : f.obsolete = true
    · rw [if_pos hobs, List.filter_cons_of_neg (by simp [hobs])]
      exact ih hrest acc
    rw [if_neg hobs, List.filter_cons_of_pos (by simp [hobs]), map_cons, resolve_cons,
      ← newer_assoc]
    by_cases hmay : f.mayContain c key = false
    · rw [if_pos hmay, hf.copy_eq_none hmay, newer_none]
      exact ih hrest acc
    rw [if_neg hmay]
    by_cases hbeat : (higherSeq (best.map Prod.snd) acc.seq).any f.cannotBeat = true
    · rw [if_pos hbeat]
      -- the copy in hand bounds the file, so merging the file's copy changes nothing
      have hskip : newer (newer best acc.candidate) (f.copy c key) = newer best acc.candidate := by
        rw [acc.seq_eq, ← map_snd_newer] at hbeat
        cases hx : newer best acc.candidate with
        | none => simp [hx] at hbeat
        | some x =>
          have hx2 : f.cannotBeat x.2 = true := by simpa [hx] using hbeat
          exact newer_eq_left (hf.atMost_copy hx2 key)
      rw [hskip]
      exact ih hrest acc
    · rw [if_neg hbeat]
      obtain ⟨hit, hlookup, hcopy⟩ := lookupInSstableFileFrom_spec hf.sound.holds
        hf.sound.sorted.ascending (hf.hintFor key)
      obtain ⟨r, hr, hres⟩ := ih hrest (acc.takeNewer hit)
      refine ⟨r, by simp only [hlookup, hr], ?_⟩
      rw [hres, candidate_takeNewer, hcopy, ← newer_assoc best]
      rfl

variable {b : Bucket}

/-- **Level 1.** The same for the bucket's Level-1 file. -/
theorem lookupLevel1_spec (hb : b.Sound c numBuckets bucket) (key : Key) (best : Candidate) :
    ∃ r, lookupLevel1 c b key (best.map Prod.snd) = .ok r ∧
      newer best r.candidate = newer best (b.level1Copy c key) := by
  have hl1 := hb.level1
  unfold lookupLevel1
  simp only
  split_ifs with hskip
  · refine ⟨.missing, rfl, ?_⟩
    rw [SsLookup.candidate_missing, newer_none]
    simp only [Bool.or_eq_true, Option.any_eq_true] at hskip
    rcases hskip with (⟨m, hm, hrange⟩ | ⟨m, hm, f, hf, s, hs, hle⟩) | ⟨f, hf, hrej⟩
    · -- the key is outside the file's range
      have hnone : b.level1Copy c key = none := by
        refine copyIn_eq_none.mpr fun e he hkey => ?_
        obtain ⟨hlo, hhi⟩ := (hl1.described m hm).range e he
        subst hkey
        simp [hlo.not_gt, hhi.not_gt] at hrange
      rw [hnone, newer_none]
    · -- the copy in hand is at least as new as the file
      obtain ⟨x, rfl, rfl⟩ := Option.map_eq_some_iff.mp hf
      have hle : s ≤ x.2 := by simpa [seqNewerOrEq] using hle
      refine (newer_eq_left ?_).symm
      exact atMost_copyIn (fun e he => ((hl1.described m hm).maxSeq s hs e he).trans hle) key
    · have hnone : b.level1Copy c key = none := by
        refine copyIn_eq_none.mpr fun e he hkey => ?_
        have hacc := hl1.accepted f hf e he
        rw [hkey] at hacc
        simp [hacc] at hrej
      rw [hnone, newer_none]
  · have hhint : HintFor c b.sstableFile (entriesOf c b.sstableFile) key
        ((b.sstableIndex.map (·.blockStart key)).getD 0) := by
      cases hi : b.sstableIndex with
      | none => exact .inl rfl
      | some i => exact (hl1.indexed i hi).hintFor key
    obtain ⟨r, hr, hcopy⟩ :=
      lookupInSstableFileFrom_spec hl1.sound.holds hl1.sound.sorted.ascending hhint
    exact ⟨r, hr, by rw [hcopy]; rfl⟩

/-- Both levels. -/
theorem lookupSstable_spec (hb : b.Sound c numBuckets bucket) (key : Key) (best : Candidate) :
    ∃ r, lookupSstable c b key (best.map Prod.snd) = .ok r ∧
      newer best r.candidate = newer best (resolve (b.layers c key)) := by
  have hfiles : ∀ f ∈ newestFirst b.level0Files, f.Sound c numBuckets bucket :=
    fun f hf => hb.level0 f (mem_newestFirst.mp hf)
  obtain ⟨l0, hl0, hres0⟩ := searchFiles_spec hfiles key best .missing
  rw [SsLookup.candidate_missing, newer_none] at hres0
  obtain ⟨l1, hl1, hres1⟩ := lookupLevel1_spec hb key (newer best l0.candidate)
  rw [map_snd_newer, ← l0.seq_eq] at hl1
  refine ⟨l0.takeNewer l1, ?_, ?_⟩
  · rw [lookupSstable, searchLevel0Files, hl0]
    simp only [hl1, SsLookup.takeNewer]
    cases h0 : l0.seq with
    | none =>
      cases h1 : l1.seq with
      | none => rw [l0.eq_missing h0, l1.eq_missing h1]
      | some s => simp
    | some s0 =>
      cases h1 : l1.seq with
      | none => simp
      | some s1 => simp
  · rw [candidate_takeNewer, ← newer_assoc, hres1, hres0, Bucket.layers, resolve_append,
      ← newer_assoc, Bucket.liveFiles]
    simp

variable {t : LSMTree}

namespace LSMTree

/-- Folding the sealed memtables resolves them. -/
theorem foldReadOnly_eq (t : LSMTree) (key : Key) (best : Candidate) :
    t.foldReadOnly key best =
      newer best (resolve (t.readOnlyMemtables.reverse.map (·.copy key))) := by
  rw [foldReadOnly, ← foldl_newer, List.foldl_map]
  congr 1
  funext best ro
  rw [ReadOnlyMemTable.copy]
  cases ro.find key with
  | none => simp
  | some r => exact mergeCandidate_eq best r.copy.1 r.seq

/-- The layers below the active memtable. -/
def lowerLayers (c : Crates) (t : LSMTree) (key : Key) : List Candidate :=
  t.readOnlyMemtables.reverse.map (·.copy key) ++ (t.buckets (t.bucketOf c key)).layers c key

/-- Everything below the active memtable is bounded. -/
theorem Sound.lower (h : t.Sound c) (key : Key) :
    AtMost t.maxLowerSeq (resolve (t.lowerLayers c key)) := by
  refine atMost_resolve fun x hx => ?_
  rcases List.mem_append.mp hx with hx | hx
  · obtain ⟨ro, hro, rfl⟩ := mem_map.mp hx
    exact atMost_copy_of_records (h.roBound ro (List.mem_reverse.mp hro)) key
  · exact (h.bound _).layers key x hx

theorem newestCopyFrom_eq (h : t.Sound c) (key : Key) (best : Candidate) :
    t.newestCopyFrom c key best = .ok (newer best (resolve (t.lowerLayers c key))) := by
  unfold newestCopyFrom
  obtain ⟨r, hr, hres⟩ := lookupSstable_spec (h.bucket (t.bucketOf c key)) key
    (t.foldReadOnly key best)
  have hmerge : newer (t.foldReadOnly key best) r.candidate =
      newer best (resolve (t.lowerLayers c key)) := by
    rw [hres, foldReadOnly_eq, lowerLayers, resolve_append, newer_assoc]
  simp only [hr, ← hmerge]
  cases r with
  | found ptr seq => simp [SsLookup.candidate, mergeCandidate_eq]
  | deleted seq => simp [SsLookup.candidate, mergeCandidate_eq]
  | missing => simp

/-- **Winning copy.** In a sound tree the pruned lookup finds the winner over all layers. -/
theorem newestCopy_eq (h : t.Sound c) (key : Key) : t.newestCopy c key = .ok (t.winner c key) := by
  have hwinner : t.winner c key = newer (t.memtable.copy key) (resolve (t.lowerLayers c key)) := rfl
  rw [newestCopy, hwinner, SkipList.copy]
  cases hentry : t.memtable.entry key with
  | none => simp [newestCopyFrom_eq h]
  | some r =>
    simp only [Option.map_some]
    split_ifs with hfast
    · -- the fast path: the active copy bounds everything below
      have hle : t.maxLowerSeq ≤ r.seq := by simpa [seqNewerOrEq] using hfast
      have hle : t.maxLowerSeq ≤ r.copy.2 := hle
      rw [newer_eq_left ((h.lower key).mono hle)]
    · rw [newestCopyFrom_eq h, mergeCandidate_eq]
      rfl

theorem getWithSeq_eq (h : t.Sound c) (key : Key) :
    t.getWithSeq c key = .ok (live (t.winner c key)) := by
  rw [getWithSeq, newestCopy_eq h]
  rfl

theorem currentPointerAndWins_eq (h : t.Sound c) (key : Key) (newSeq : ℕ) :
    t.currentPointerAndWins c key newSeq =
      .ok ((t.winner c key).elim (none, true) fun x => (x.1, seqNewerOrEq newSeq x.2)) := by
  rw [currentPointerAndWins, newestCopy_eq h]
  cases t.winner c key <;> rfl

/-! ### Writes -/

/-- Sealing keeps the winner of every key but the empty one, which no sealed memtable holds. -/
theorem winner_flushMemtable (c : Crates) (t : LSMTree) (key : Key) :
    t.flushMemtable.winner c key =
      if key = [] then resolve (t.lowerLayers c key) else t.winner c key := by
  have hlayers : t.flushMemtable.winner c key = newer none
      (newer ((ReadOnlyMemTable.ofSkipList t.memtable t.roMemtableVersion).copy key)
        (resolve (t.lowerLayers c key))) := by
    change resolve (_ :: ((t.readOnlyMemtables ++ [_]).reverse.map _ ++ _)) = _
    rw [List.reverse_append, List.reverse_singleton, List.singleton_append]
    rfl
  rw [hlayers, none_newer, ReadOnlyMemTable.copy_ofSkipList]
  split_ifs
  · rfl
  · rfl

/-- A memtable that took a copy of one key. -/
theorem winner_setMemtable (c : Crates) (t : LSMTree) {m : SkipList} {x : Copy}
    (h : ∀ k, m.copy k = if k = key then newer (some x) (t.memtable.copy key)
      else t.memtable.copy k) (k : Key) :
    ({ t with memtable := m } : LSMTree).winner c k =
      if k = key then newer (some x) (t.winner c key) else t.winner c k := by
  have hwinner : ∀ (u : LSMTree) (k : Key), u.winner c k =
      newer (u.memtable.copy k) (resolve (u.lowerLayers c k)) := fun _ _ => rfl
  have hnew : ({ t with memtable := m } : LSMTree).winner c k =
      newer (m.copy k) (resolve (t.lowerLayers c k)) := rfl
  rw [hnew, h, hwinner t key, hwinner t k]
  split_ifs with hk
  · rw [hk, newer_assoc]
  · rfl

variable {t' : LSMTree}

/-- **Writes.** A write that succeeds joins the copies of its key; a seal may come first. -/
theorem winner_insertWithSeq (c : Crates) {value : ℕ}
    (h : t.insertWithSeq key value seq = (t', .ok ())) (k : Key) :
    t'.winner c k = if k = key then newer (some (some value, seq)) (t.flushIfDue.winner c key)
      else t.flushIfDue.winner c k := by
  rw [insertWithSeq, Prod.mk.injEq] at h
  obtain ⟨rfl, hok⟩ := h
  have hisOk : (t.flushIfDue.memtable.tryInsertWithSeq key value seq).2.isOk = true := by
    revert hok
    rcases (t.flushIfDue.memtable.tryInsertWithSeq key value seq).2 with ⟨_⟩ | _
    · intro hok
      cases hok
    · intro _
      rfl
  refine winner_setMemtable c t.flushIfDue (fun k => ?_) k
  rw [SkipList.copy_tryInsertWithSeq, hisOk]
  simp only [and_true]

theorem winner_deleteWithSeq (c : Crates) (h : t.deleteWithSeq key seq = (t', .ok ())) (k : Key) :
    t'.winner c k = if k = key then newer (some (none, seq)) (t.flushIfDue.winner c key)
      else t.flushIfDue.winner c k := by
  rw [deleteWithSeq, Prod.mk.injEq] at h
  obtain ⟨rfl, hok⟩ := h
  have hisOk : (t.flushIfDue.memtable.insertTombstoneWithSeq key seq).2.isOk = true := by
    revert hok
    rcases (t.flushIfDue.memtable.insertTombstoneWithSeq key seq).2 with ⟨_⟩ | _
    · intro hok
      cases hok
    · intro _
      rfl
  refine winner_setMemtable c t.flushIfDue (fun k => ?_) k
  rw [SkipList.copy_insertTombstoneWithSeq, hisOk]
  simp only [and_true]

end LSMTree

/-! ### Batches agree -/

/-- Folding sorted entries into the slots folds, into each slot, the copy of its key. -/
theorem foldl_foldSlot {es : List SStableEntry} (hes : Ascending SStableEntry.key es)
    (pending : BatchSlots) :
    es.foldl foldSlot pending = pending.map fun x => (x.1, newer x.2 (copyIn es x.1)) := by
  induction es generalizing pending with
  | nil => simp
  | cons e es ih =>
    obtain ⟨hlt, hes'⟩ := ascending_cons.mp hes
    rw [List.foldl_cons, ih hes', foldSlot, map_map]
    refine map_congr_left fun x _ => ?_
    simp only [Function.comp_apply, copyIn_cons]
    by_cases hkey : x.1 = e.key
    · have hnone : copyIn es e.key = none := copyIn_eq_none.mpr fun d hd => (hlt d hd).ne'
      simp only [hkey, if_true, mergeCandidate_eq, hnone, newer_none]
      rfl
    · simp only [if_neg hkey, if_neg (Ne.symm hkey)]

/-- One file: the cursor folds the file's copy into every slot, provided a slot it was not
sent for would not be changed by the file. -/
theorem scanSlots_spec {file : Bytes} (hfile : FileSound c file) {wanted : List Key}
    {hint : Key → ℕ} (hhint : ∀ k, HintFor c file (entriesOf c file) k (hint k))
    {pending : BatchSlots} (hwanted : ∀ x ∈ pending, x.1 ∈ wanted ∨
      newer x.2 (copyIn (entriesOf c file) x.1) = x.2) :
    scanSortedCandidates c file foldSlot
        ((wanted.insertionSort (· ≤ ·)).map fun k => (k, hint k)) pending =
      .ok (pending.map fun x => (x.1, newer x.2 (copyIn (entriesOf c file) x.1))) := by
  have hasc := hfile.sorted.ascending
  have hsorted : ((wanted.insertionSort (· ≤ ·)).map fun k => (k, hint k)).Pairwise
      fun x y => x.1 ≤ y.1 :=
    List.pairwise_map.mpr (List.pairwise_insertionSort (· ≤ ·) wanted)
  obtain ⟨visited, hsub, hall, hok⟩ := scanSortedCandidates_spec foldSlot hfile.holds hasc hsorted
    (by
      intro x hx
      obtain ⟨k, -, rfl⟩ := mem_map.mp hx
      exact hhint k) pending
  rw [hok, foldl_foldSlot (hasc.sublist hsub)]
  refine congrArg Except.ok (map_congr_left fun x hx => ?_)
  refine Prod.ext rfl ?_
  -- a visited copy is the file's copy; an unvisited one was not asked for
  have hvisited : copyIn visited x.1 = copyIn (entriesOf c file) x.1 ∨
      (copyIn visited x.1 = none ∧ x.1 ∉ wanted) ∨
      (copyIn visited x.1 = none ∧ copyIn (entriesOf c file) x.1 = none) := by
    cases hcopy : copyIn (entriesOf c file) x.1 with
    | none =>
      refine .inr (.inr ⟨copyIn_eq_none.mpr fun e he => ?_, rfl⟩)
      exact copyIn_eq_none.mp hcopy e (hsub.subset he)
    | some y =>
      obtain ⟨e, he, hkey, rfl⟩ := exists_of_copyIn hcopy
      by_cases hev : e ∈ visited
      · exact .inl ((copyIn_eq_some (hasc.sublist hsub)).mpr ⟨e, hev, hkey, rfl⟩)
      · refine .inr (.inl ⟨copyIn_eq_none.mpr fun d hd hdk => hev ?_, fun hw => hev ?_⟩)
        · have heq := hasc.eq_of_key_eq he (hsub.subset hd) (hkey.trans hdk.symm)
          exact heq ▸ hd
        · refine hall e he ⟨(x.1, hint x.1), ?_, hkey.symm⟩
          exact List.mem_map_of_mem (f := fun k => (k, hint k))
            ((List.mem_insertionSort _).mpr hw)
  rcases hvisited with h | ⟨h, hnot⟩ | ⟨h, hnone⟩
  · exact congrArg (newer x.2) h
  · rw [h, newer_none, (hwanted x hx).resolve_left hnot]
  · rw [h, hnone]

/-- All Level-0 files of a batch. -/
theorem resolveFiles_spec (hfiles : ∀ f ∈ files, f.Sound c numBuckets bucket) (pending : BatchSlots) :
    resolveFiles c files pending =
      .ok (pending.map fun x => (x.1, newer x.2 (resolve (files.map (·.copy c x.1))))) := by
  induction files generalizing pending with
  | nil => simp [resolveFiles]
  | cons f files ih =>
    have hrest : ∀ g ∈ files, g.Sound c numBuckets bucket :=
      fun g hg => hfiles g (List.mem_cons_of_mem _ hg)
    have hf := hfiles f mem_cons_self
    rw [resolveFiles]
    generalize hw : (pending.filter fun x => f.mayContain c x.1 &&
      !(x.2.any fun y => f.cannotBeat y.2)).map Prod.fst = wanted
    have hsafe : ∀ x ∈ pending, x.1 ∈ wanted ∨ newer x.2 (f.copy c x.1) = x.2 := by
      intro x hx
      by_cases hin : (f.mayContain c x.1 && !(x.2.any fun y => f.cannotBeat y.2)) = true
      · refine .inl (hw ▸ List.mem_map_of_mem (f := Prod.fst) (mem_filter.mpr ⟨hx, hin⟩))
      · refine .inr ?_
        simp only [Bool.and_eq_true, Bool.not_eq_true', not_and_or, Bool.not_eq_true,
          Bool.not_eq_false] at hin
        rcases hin with hmay | hbeat
        · rw [hf.copy_eq_none hmay, newer_none]
        · obtain ⟨y, hy, hcannot⟩ := (Option.any_eq_true ..).mp hbeat
          rw [hy]
          exact newer_eq_left (hf.atMost_copy hcannot x.1)
    have hstep : ∀ p : BatchSlots, p = pending.map (fun x => (x.1, newer x.2 (f.copy c x.1))) →
        resolveFiles c files p = .ok (pending.map fun x =>
          (x.1, newer x.2 (resolve ((f :: files).map (·.copy c x.1))))) := by
      rintro p rfl
      rw [ih hrest, map_map]
      refine congrArg Except.ok (map_congr_left fun x _ => ?_)
      simp only [Function.comp_apply, map_cons, resolve_cons, newer_assoc]
    by_cases hnil : wanted.isEmpty = true
    · rw [if_pos hnil]
      refine hstep pending ?_
      conv_lhs => rw [← map_id pending]
      refine map_congr_left fun x hx => ?_
      have hnot : x.1 ∉ wanted := by
        rw [List.isEmpty_iff.mp hnil]
        exact List.not_mem_nil
      rw [(hsafe x hx).resolve_left hnot]
      rfl
    · rw [if_neg hnil]
      simp only [scanSlots_spec hf.sound hf.hintFor hsafe]
      exact hstep _ rfl

/-- **One bucket of a batch.** Every slot is resolved against all layers of the bucket. -/
theorem resolveBucketBatch_spec (hb : b.Sound c numBuckets bucket) (pending : BatchSlots) :
    resolveBucketBatch c b pending =
      .ok (pending.map fun x => (x.1, newer x.2 (resolve (b.layers c x.1)))) := by
  have hl1 := hb.level1
  have horder : newestFirst (b.level0Files.filter fun e => !e.obsolete) = b.liveFiles :=
    (filter_newestFirst hb.stamps _).symm
  have hfiles : ∀ f ∈ b.liveFiles, f.Sound c numBuckets bucket :=
    fun f hf => hb.level0 f (Bucket.mem_liveFiles.mp hf).1
  rw [resolveBucketBatch, horder, resolveFiles_spec hfiles]
  simp only
  generalize hp : (pending.map fun x =>
    (x.1, newer x.2 (resolve (b.liveFiles.map (·.copy c x.1))))) = slots
  have hgoal : ∀ out : BatchSlots,
      out = slots.map (fun x => (x.1, newer x.2 (b.level1Copy c x.1))) →
      out = pending.map fun x => (x.1, newer x.2 (resolve (b.layers c x.1))) := by
    rintro out rfl
    rw [← hp, map_map]
    refine map_congr_left fun x _ => ?_
    simp only [Function.comp_apply, Bucket.layers, resolve_append, newer_assoc, resolve_cons,
      resolve_nil, newer_none]
  generalize hw : (slots.filter fun x =>
    !(((b.sstableMetadata.filter fun m => decide (0 < m.entryCount)).bind (·.maxSeq)).any
      fun max => x.2.any fun y => seqNewerOrEq y.2 max) &&
    ((b.sstableMetadata.filter fun m => decide (0 < m.entryCount)).all
      fun m => decide (m.minKey ≤ x.1) && decide (x.1 ≤ m.maxKey)) &&
    (b.sstableBloom.all fun f => f.contains c x.1)).map Prod.fst = wanted
  have hsafe : ∀ x ∈ slots, x.1 ∈ wanted ∨ newer x.2 (b.level1Copy c x.1) = x.2 := by
    intro x hx
    by_contra hcon
    obtain ⟨hnot, hne⟩ := not_or.mp hcon
    -- a copy the file could contribute passes every test of the filter
    obtain ⟨y, hy⟩ : ∃ y, b.level1Copy c x.1 = some y := by
      cases hcopy : b.level1Copy c x.1 with
      | none => exact absurd (by rw [hcopy, newer_none]) hne
      | some y => exact ⟨y, rfl⟩
    obtain ⟨e, he, hkey, -⟩ := exists_of_copyIn hy
    refine hnot (hw ▸ List.mem_map_of_mem (f := Prod.fst) (mem_filter.mpr ⟨hx, ?_⟩))
    simp only [Bool.and_eq_true, Bool.not_eq_true']
    refine ⟨⟨?_, ?_⟩, ?_⟩
    · rw [← Bool.not_eq_true, Option.any_eq_true]
      rintro ⟨max, hmax, hany⟩
      obtain ⟨z, hz, hle⟩ := (Option.any_eq_true ..).mp hany
      obtain ⟨m, hm, hseq⟩ := Option.bind_eq_some_iff.mp hmax
      have hm' : b.sstableMetadata = some m := (Option.filter_eq_some_iff.mp hm).1
      have hle : max ≤ z.2 := by simpa [seqNewerOrEq] using hle
      refine hne ?_
      rw [hz]
      exact newer_eq_left (atMost_copyIn
        (fun d hd => ((hl1.described m hm').maxSeq max hseq d hd).trans hle) x.1)
    · rw [Option.all_eq_true]
      intro m hm
      have hm' : b.sstableMetadata = some m := (Option.filter_eq_some_iff.mp hm).1
      obtain ⟨hlo, hhi⟩ := (hl1.described m hm').range e he
      simp [← hkey, hlo, hhi]
    · rw [Option.all_eq_true]
      intro f hf
      exact hkey ▸ hl1.accepted f hf e he
  have hkeep : (∀ x ∈ slots, newer x.2 (b.level1Copy c x.1) = x.2) →
      slots = slots.map (fun x => (x.1, newer x.2 (b.level1Copy c x.1))) := by
    intro hall
    conv_lhs => rw [← map_id slots]
    exact map_congr_left fun x hx => by rw [hall x hx]; rfl
  split_ifs with hnil hlen
  · refine congrArg Except.ok (hgoal _ (hkeep fun x hx => (hsafe x hx).resolve_left ?_))
    rw [List.isEmpty_iff.mp hnil]
    exact List.not_mem_nil
  · refine congrArg Except.ok (hgoal _ (hkeep fun x _ => ?_))
    rw [Bucket.level1Copy, List.length_eq_zero_iff.mp hlen, entriesOf_nil, copyIn_nil, newer_none]
  · have hhint : ∀ k, HintFor c b.sstableFile (entriesOf c b.sstableFile) k
        ((b.sstableIndex.map (·.blockStart k)).getD 0) := by
      intro k
      cases hi : b.sstableIndex with
      | none => exact .inl rfl
      | some i => exact (hl1.indexed i hi).hintFor k
    rw [scanSlots_spec hl1.sound hhint hsafe]
    exact congrArg Except.ok (hgoal _ rfl)

variable {α β : Type}

/-- Running a computation that succeeds everywhere. -/
theorem mapM_ok {ε : Type} {f : α → Except ε β} {g : α → β} {l : List α}
    (h : ∀ a ∈ l, f a = .ok (g a)) : l.mapM f = .ok (l.map g) := by
  induction l with
  | nil => rfl
  | cons a l ih =>
    rw [List.mapM_cons, h a mem_cons_self, ih fun b hb => h b (List.mem_cons_of_mem _ hb)]
    rfl

private theorem lookup_map_self [BEq α] [LawfulBEq α] {l : List α} {k : α} (h : k ∈ l) (f : α → β) :
    (l.map fun a => (a, f a)).lookup k = some (f k) := by
  induction l with
  | nil => cases h
  | cons a l ih =>
    rw [map_cons, List.lookup_cons]
    by_cases hka : k = a
    · simp [hka]
    · have hne : (k == a) = false := by simpa using hka
      rw [hne]
      exact ih ((List.mem_cons.mp h).resolve_left hka)

namespace LSMTree

/-- The memtable half either settles the key or leaves the rest to the SSTables. -/
theorem memtableWinner_spec (h : t.Sound c) (key : Key) :
    if (t.memtableWinner key).2 then (t.memtableWinner key).1 = t.winner c key
    else newer (t.memtableWinner key).1
      (resolve ((t.buckets (t.bucketOf c key)).layers c key)) = t.winner c key := by
  have hwinner : t.winner c key = newer (t.memtable.copy key) (resolve (t.lowerLayers c key)) := rfl
  have hlower : ∀ best, newer (t.foldReadOnly key best)
      (resolve ((t.buckets (t.bucketOf c key)).layers c key)) =
        newer best (resolve (t.lowerLayers c key)) := by
    intro best
    rw [foldReadOnly_eq, lowerLayers, resolve_append, newer_assoc]
  rw [hwinner, SkipList.copy, memtableWinner]
  cases hentry : t.memtable.entry key with
  | none => simp [hlower]
  | some r =>
    simp only [Option.map_some]
    by_cases hfast : seqNewerOrEq r.seq t.maxLowerSeq = true
    · have hle : t.maxLowerSeq ≤ r.seq := by simpa [seqNewerOrEq] using hfast
      have hle : t.maxLowerSeq ≤ r.copy.2 := hle
      simp only [if_pos hfast, if_true, mergeCandidate_eq, none_newer]
      exact (newer_eq_left ((h.lower key).mono hle)).symm
    · simp only [if_neg hfast, Bool.false_eq_true, if_false, hlower, mergeCandidate_eq, none_newer]
      rfl

/-- **Batch.** In a sound tree every position of a batch is the live winner of its key. -/
theorem getMultiple_eq (h : t.Sound c) (keys : List Key) :
    t.getMultiple c keys = .ok (keys.map fun k => live (t.winner c k)) := by
  have hbuckets : ∀ b ∈ List.range t.config.numBuckets,
      (if (t.pendingFor c keys b).isEmpty then .ok []
        else resolveBucketBatch c (t.buckets b) (t.pendingFor c keys b) :
          Except LSMError BatchSlots) =
      .ok ((t.pendingFor c keys b).map fun x =>
        (x.1, newer x.2 (resolve ((t.buckets b).layers c x.1)))) := by
    intro b _
    split_ifs with hnil
    · rw [List.isEmpty_iff.mp hnil]
      rfl
    · exact resolveBucketBatch_spec (h.bucket b) _
  rw [getMultiple]
  simp only [mapM_ok hbuckets, Except.map]
  refine congrArg Except.ok (map_congr_left fun k hk => ?_)
  have hspec := memtableWinner_spec h k
  by_cases hset : (t.memtableWinner k).2 = true
  · rw [if_pos hset] at hspec ⊢
    rw [hspec]
  · rw [if_neg hset] at hspec ⊢
    have hb : t.bucketOf c k < t.config.numBuckets :=
      getBucketForKey_lt c k t.config.numBuckets_pos
    have hmem : k ∈ (keys.filter fun j =>
        !(t.memtableWinner j).2 && t.bucketOf c j == t.bucketOf c k).dedup := by
      rw [List.mem_dedup, mem_filter]
      exact ⟨hk, by simp [hset]⟩
    rw [List.getD_eq_getElem?_getD, List.getElem?_map, List.getElem?_range hb]
    simp only [Option.map_some, Option.getD_some, pendingFor, map_map, Function.comp_def]
    rw [lookup_map_self hmem fun j => newer (t.memtableWinner j).1
      (resolve ((t.buckets (t.bucketOf c k)).layers c j))]
    simp only [Option.join_some, hspec]

/-- **Pruning is invisible.** After any run, with any sequences, a point lookup and every
position of a batch answer what the copy to read over all layers says: the one of highest
sequence, a tie going to the newer layer, a tombstone reading as absent. -/
theorem pointReads_run (c : Crates) (config : LSMConfig) (ops : List Op) (keys : List Key) :
    (∀ key, ∃ r, ((empty c config).run c ops).getWithSeq c key = .ok r ∧
      ReadsAs (((empty c config).run c ops).layers c key) r) ∧
    ∃ rs, ((empty c config).run c ops).getMultiple c keys = .ok rs ∧
      List.Forall₂ (fun key r => ReadsAs (((empty c config).run c ops).layers c key) r)
        keys rs := by
  have hsound : ((empty c config).run c ops).Sound c := (sound_empty c config).run ops
  refine ⟨fun key => ⟨_, getWithSeq_eq hsound key, readsAs_live_resolve _⟩,
    _, getMultiple_eq hsound keys, ?_⟩
  rw [List.forall₂_map_right_iff, List.forall₂_same]
  intro key _
  exact readsAs_live_resolve _

end LSMTree

end Minnal
