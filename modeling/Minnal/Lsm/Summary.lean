import Minnal.Lsm.Format

/-!
# What is kept in memory about an SSTable

For each SSTable the tree keeps derived data that lets a lookup skip the file or start
reading near the key: the smallest and largest key, the newest sequence, a Bloom filter over
the keys and a sparse index of frame offsets. It is computed when a file is written
(`L0Summary.ofSorted`, `writeFrames`) or scanned at open (`loadMetadataFromFile`), never
stored.

Each of the four is a **one-sided** promise, and `Describes` collects them: no entry lies
outside the key range, none is newer than the newest sequence, the filter accepts every key
of the file, and every sample of the index is the offset of a frame of the file. Nothing is
promised of keys that are not in the file, which is why a skipped file can only save work.
-/

set_option linter.dupNamespace false

namespace Minnal

open ByteCodec FrameWalk SortedMap
open List (mem_cons cons_ne_nil mem_append foldl_cons mem_cons_self all_eq_true)

/-! ### Bloom filter -/

/-- A Bloom filter, one `Bool` per addressable bit. -/
structure BloomFilter where
  bits : List Bool
  deriving DecidableEq, Repr

variable {c : Crates} {key : Key}

namespace BloomFilter

def bitsPerKey : ℕ := 10

def numHashes : ℕ := 7

/-- Two 64-bit hashes, combined by double hashing. -/
def baseHashes (c : Crates) (key : Key) : ℕ × ℕ :=
  (c.murmur3 0x9E3779B1 key, c.murmur3 0x85EBCA77 key)

/-- The bits of a key, in wrapping 64-bit arithmetic. -/
def positions (c : Crates) (numBits : ℕ) (key : Key) : List ℕ :=
  let h := baseHashes c key
  (List.range numHashes).map fun i => (h.1 + i * h.2) % 2 ^ 64 % numBits

def insert (c : Crates) (filter : BloomFilter) (key : Key) : BloomFilter :=
  ⟨(positions c filter.bits.length key).foldl (fun bits i => bits.set i true) filter.bits⟩

/-- A filter sized for `expected` keys with every key of `keys` inserted. -/
def build (c : Crates) (keys : List Key) (expected : ℕ) : BloomFilter :=
  let words := max ((max expected 1 * bitsPerKey + 63) / 64) 1
  keys.foldl (insert c) ⟨List.replicate (words * 64) false⟩

/-- `false` only when the key is definitely absent. -/
def contains (c : Crates) (filter : BloomFilter) (key : Key) : Bool :=
  (positions c filter.bits.length key).all fun i => filter.bits.getD i false

private theorem length_setAll (l : List ℕ) (bits : List Bool) :
    (l.foldl (fun bits i => bits.set i true) bits).length = bits.length := by
  induction l generalizing bits with
  | nil => rfl
  | cons i l ih => rw [foldl_cons, ih, List.length_set]

private theorem getD_setAll (l : List ℕ) (bits : List Bool) {j : ℕ} (hj : j < bits.length) :
    (l.foldl (fun bits i => bits.set i true) bits).getD j false =
      (decide (j ∈ l) || bits.getD j false) := by
  induction l generalizing bits with
  | nil => simp
  | cons i l ih =>
    have hset : (bits.set i true).getD j false = (decide (j = i) || bits.getD j false) := by
      by_cases hij : i = j
      · subst hij
        simp [List.getD_eq_getElem?_getD, hj]
      · simp [List.getD_eq_getElem?_getD, List.getElem?_set_ne hij, Ne.symm hij]
    rw [foldl_cons, ih _ (by simpa using hj), hset]
    by_cases hij : j = i <;> simp [hij]

theorem length_insert (c : Crates) (f : BloomFilter) (key : Key) :
    (f.insert c key).bits.length = f.bits.length :=
  length_setAll _ _

private theorem positions_lt {n : ℕ} (hn : 0 < n) {i : ℕ} (hi : i ∈ positions c n key) : i < n := by
  simp only [positions, List.mem_map] at hi
  obtain ⟨_, -, rfl⟩ := hi
  exact Nat.mod_lt _ hn

variable {f : BloomFilter}

theorem contains_insert_self (c : Crates) (hf : 0 < f.bits.length) (key : Key) :
    (f.insert c key).contains c key = true := by
  rw [contains, length_insert, all_eq_true]
  intro i hi
  rw [insert, getD_setAll _ _ (positions_lt hf hi)]
  simp [hi]

theorem contains_insert_of_contains (c : Crates) (hf : 0 < f.bits.length)
    (h : f.contains c key = true) (other : Key) : (f.insert c other).contains c key = true := by
  rw [contains, all_eq_true] at h
  rw [contains, length_insert, all_eq_true]
  intro i hi
  rw [insert, getD_setAll _ _ (positions_lt hf hi), h i hi, Bool.or_true]

/-- **No false negatives.** Every key the filter was built from tests positive. -/
theorem contains_build (c : Crates) {keys : List Key} (h : key ∈ keys) (expected : ℕ) :
    (build c keys expected).contains c key = true := by
  -- along the inserts the filter keeps its size and every key already accepted
  suffices hfold : ∀ (l : List Key) (f : BloomFilter), 0 < f.bits.length →
      (key ∈ l ∨ f.contains c key = true) → (l.foldl (insert c) f).contains c key = true by
    refine hfold keys _ ?_ (.inl h)
    simp
  intro l
  induction l with
  | nil =>
    intro f _ hkey
    simpa using hkey
  | cons k l ih =>
    intro f hf hkey
    refine ih _ (by rw [length_insert]; exact hf) ?_
    rcases hkey with hmem | hcon
    · rcases mem_cons.mp hmem with rfl | hmem
      · exact .inr (contains_insert_self c hf key)
      · exact .inl hmem
    · exact .inr (contains_insert_of_contains c hf hcon k)

end BloomFilter

/-! ### Sparse index -/

/-- The key and frame offset of every sixteenth entry. -/
structure SparseIndex where
  samples : List (Key × ℕ)
  deriving DecidableEq, Repr

variable {index : SparseIndex} {file : Bytes} {es : List SStableEntry}

namespace SparseIndex

/-- Sample one entry per this many. -/
def sampleInterval : ℕ := 16

def new : SparseIndex := ⟨[]⟩

def push (index : SparseIndex) (key : Key) (offset : ℕ) : SparseIndex :=
  ⟨index.samples ++ [(key, offset)]⟩

def isEmpty (index : SparseIndex) : Bool := index.samples.isEmpty

/-- The offset of the last sample whose key is at most `key`, 0 before the first one. -/
def blockStart (index : SparseIndex) (key : Key) : ℕ :=
  ((index.samples.takeWhile fun s => decide (s.1 ≤ key)).getLast?.map Prod.snd).getD 0

/-- A non-zero start is the offset of a sample at or below the key. -/
theorem blockStart_mem (h : index.blockStart key ≠ 0) :
    ∃ k, (k, index.blockStart key) ∈ index.samples ∧ k ≤ key := by
  unfold blockStart at h ⊢
  cases hlast : (index.samples.takeWhile fun s => decide (s.1 ≤ key)).getLast? with
  | none => simp [hlast] at h
  | some s =>
    have hmem := List.mem_of_getLast? hlast
    have hle := List.mem_takeWhile_imp hmem
    refine ⟨s.1, ?_, by simpa using hle⟩
    exact (List.takeWhile_sublist _).subset hmem

/-- Every sample is the key and offset of a frame of the file. -/
def PointsInto (index : SparseIndex) (c : Crates) (file : Bytes) (es : List SStableEntry) : Prop :=
  ∀ s ∈ index.samples, ∃ done e rest, es = done ++ e :: rest ∧ e.key = s.1 ∧
    FramesAt c file s.2 (e :: rest)

theorem PointsInto.of_locate (hfile : HoldsEntries c file es)
    (h : ∀ s ∈ index.samples, ∃ x ∈ locate c sstableDataStart es, s = (x.2.key, x.1)) :
    index.PointsInto c file es := by
  intro s hs
  obtain ⟨x, hx, rfl⟩ := h s hs
  obtain ⟨done, rest, hes, hframes⟩ := FramesAt.of_mem_locate hfile hx
  exact ⟨done, x.2, rest, hes, rfl, hframes⟩

end SparseIndex

/-! ### Newest sequences -/

/-- The newest of a list of sequences. -/
def newestSeq : List ℕ → Option ℕ
  | [] => none
  | s :: l => some (l.foldl (fun a b => if seqNewer b a then b else a) s)

private theorem le_foldl_seqNewer (l : List ℕ) (s : ℕ) :
    s ≤ l.foldl (fun a b => if seqNewer b a then b else a) s ∧
      ∀ t ∈ l, t ≤ l.foldl (fun a b => if seqNewer b a then b else a) s := by
  induction l generalizing s with
  | nil => simp
  | cons t l ih =>
    obtain ⟨hs, hl⟩ := ih (if seqNewer t s then t else s)
    have hst : s ≤ (if seqNewer t s then t else s) ∧ t ≤ (if seqNewer t s then t else s) := by
      by_cases h : s < t <;> simp [seqNewer, h] <;> omega
    exact ⟨hst.1.trans hs, List.forall_mem_cons.mpr ⟨hst.2.trans hs, hl⟩⟩

theorem le_of_newestSeq {l : List ℕ} {m : ℕ} (h : newestSeq l = some m) {s : ℕ} (hs : s ∈ l) :
    s ≤ m := by
  cases l with
  | nil => cases hs
  | cons t l =>
    cases h
    obtain ⟨ht, hl⟩ := le_foldl_seqNewer l t
    rcases mem_cons.mp hs with rfl | hs
    · exact ht
    · exact hl s hs

/-! ### Summaries -/

/-- The tree's view of a bucket's Level-1 file. -/
structure SStableMetadata where
  minKey : Key
  maxKey : Key
  entryCount : ℕ
  maxSeq : Option ℕ
  deriving DecidableEq, Repr

/-- What a point lookup needs to know about a Level-0 file without opening it. -/
structure L0Summary where
  minKey : Key
  maxKey : Key
  maxSeq : ℕ
  entries : ℕ
  bloom : BloomFilter
  index : Option SparseIndex
  deriving DecidableEq, Repr

/-- Summarise a file's key-sorted records, `none` for an empty file. -/
def L0Summary.ofSorted (c : Crates) (records : List (Key × ℕ)) : Option L0Summary :=
  match records with
  | [] => none
  | first :: rest =>
    let last := rest.foldl
      (fun acc r => (r.1, if seqNewer r.2 acc.2 then r.2 else acc.2)) first
    some
      { minKey := first.1
        maxKey := last.1
        maxSeq := last.2
        entries := records.length
        bloom := .build c (records.map Prod.fst) records.length
        index := none }

/-- Entries stand in ascending key order, each with its own key prefix. -/
structure SortedEntries (es : List SStableEntry) : Prop where
  ascending : Ascending SStableEntry.key es
  keyPrefix : ∀ e ∈ es, e.keyPrefix = keyPrefixOf e.key

/-- The one-sided promises of a Level-0 summary about its file. -/
structure L0Summary.Describes (s : L0Summary) (c : Crates) (file : Bytes)
    (es : List SStableEntry) : Prop where
  range : ∀ e ∈ es, s.minKey ≤ e.key ∧ e.key ≤ s.maxKey
  maxSeq : ∀ e ∈ es, e.seq ≤ s.maxSeq
  bloom : ∀ e ∈ es, s.bloom.contains c e.key = true
  index : ∀ i ∈ s.index, i.PointsInto c file es

/-- The one-sided promises of a Level-1 file's metadata. -/
structure SStableMetadata.Describes (m : SStableMetadata) (es : List SStableEntry) : Prop where
  range : ∀ e ∈ es, m.minKey ≤ e.key ∧ e.key ≤ m.maxKey
  entryCount : m.entryCount = es.length
  maxSeq : ∀ s ∈ m.maxSeq, ∀ e ∈ es, e.seq ≤ s

private theorem foldl_ofSorted (l : List (Key × ℕ)) (x : Key × ℕ) :
    (l.foldl (fun acc r => (r.1, if seqNewer r.2 acc.2 then r.2 else acc.2)) x).1 =
        ((x :: l).getLast (cons_ne_nil x l)).1 ∧
      ∀ r ∈ x :: l,
        r.2 ≤ (l.foldl (fun acc r => (r.1, if seqNewer r.2 acc.2 then r.2 else acc.2)) x).2 := by
  induction l generalizing x with
  | nil => simp
  | cons y l ih =>
    obtain ⟨hkey, hseq⟩ := ih (y.1, if seqNewer y.2 x.2 then y.2 else x.2)
    refine ⟨?_, ?_⟩
    · rw [foldl_cons, hkey]
      cases l <;> rfl
    · have hhead := hseq _ mem_cons_self
      have hx : x.2 ≤ (if seqNewer y.2 x.2 then y.2 else x.2) ∧
          y.2 ≤ (if seqNewer y.2 x.2 then y.2 else x.2) := by
        by_cases h : x.2 < y.2 <;> simp [seqNewer, h] <;> omega
      intro r hr
      rw [foldl_cons]
      rcases mem_cons.mp hr with rfl | hr
      · exact hx.1.trans hhead
      · rcases mem_cons.mp hr with rfl | hr
        · exact hx.2.trans hhead
        · exact hseq r (List.mem_cons_of_mem _ hr)

/-- On a sorted list the ends bound every key. -/
theorem range_of_ascending {e : SStableEntry} (h : Ascending SStableEntry.key (e :: es)) :
    ∀ d ∈ e :: es, e.key ≤ d.key ∧
      d.key ≤ ((e :: es).getLast (cons_ne_nil e es)).key := by
  intro d hd
  refine ⟨?_, ?_⟩
  · rcases mem_cons.mp hd with rfl | hd
    · exact le_rfl
    · exact ((ascending_cons.mp h).1 d hd).le
  · have hsplit := List.dropLast_append_getLast (cons_ne_nil e es)
    have hpair : ((e :: es).dropLast ++ [(e :: es).getLast (cons_ne_nil e es)]).Pairwise
        fun a b : SStableEntry => a.key < b.key := by rw [hsplit]; exact h
    rw [← hsplit] at hd
    rcases mem_append.mp hd with hd | hd
    · exact (List.pairwise_append.mp hpair).2.2 d hd _ mem_cons_self |>.le
    · rw [List.mem_singleton.mp hd]

/-- A summary of a sorted file's records, completed by an index into the file, describes it. -/
theorem L0Summary.describes_ofSorted (hes : Ascending SStableEntry.key es) {s : L0Summary}
    (hs : L0Summary.ofSorted c (es.map fun e => (e.key, e.seq)) = some s)
    {index : Option SparseIndex} (hindex : ∀ i ∈ index, i.PointsInto c file es) :
    ({ s with index := index } : L0Summary).Describes c file es := by
  cases es with
  | nil => cases hs
  | cons e es =>
    obtain ⟨hlast, hseq⟩ := foldl_ofSorted (es.map fun e => (e.key, e.seq)) (e.key, e.seq)
    have hlastKey : ((List.map (fun e : SStableEntry => (e.key, e.seq)) (e :: es)).getLast
        (by simp)).1 = ((e :: es).getLast (cons_ne_nil e es)).key := by
      rw [List.getLast_map]
    simp only [ofSorted, List.map_cons, Option.some.injEq] at hs
    subst hs
    refine ⟨fun d hd => ?_, fun d hd => ?_, fun d hd => ?_, hindex⟩
    · obtain ⟨hlo, hhi⟩ := range_of_ascending hes d hd
      refine ⟨hlo, ?_⟩
      simp only at hlastKey ⊢
      rw [hlast]
      exact hhi.trans hlastKey.ge
    · exact hseq _ (List.mem_map_of_mem (f := fun e : SStableEntry => (e.key, e.seq)) hd)
    · refine BloomFilter.contains_build c ?_ _
      simpa [Function.comp_def] using List.mem_map_of_mem (f := SStableEntry.key) hd

/-! ### Writing a file -/

/-- Write the frames of `entries`, the first as number `i` at `offset`, and record every
sixteenth one in the index. -/
def writeFrames (c : Crates) : List SStableEntry → ℕ → ℕ → SparseIndex →
    Except LSMError (Bytes × SparseIndex)
  | [], _, _, index => .ok ([], index)
  | entry :: entries, i, offset, index =>
    let index := if i % SparseIndex.sampleInterval = 0 then index.push entry.key offset else index
    match encodeSstableEntry c entry with
    | .error err => .error err
    | .ok payload =>
      (writeFrames c entries (i + 1) (offset + 4 + payload.length) index).map fun r =>
        (frameBytes payload ++ r.1, r.2)

/-- The contents and the sparse index of a new SSTable with these entries. -/
def writeSstable (c : Crates) (entries : List SStableEntry) :
    Except LSMError (Bytes × SparseIndex) :=
  (writeFrames c entries 0 sstableDataStart .new).map fun r => (sstableHeaderBytes ++ r.1, r.2)

theorem writeFrames_spec {i offset : ℕ} {index' : SparseIndex} {body : Bytes}
    (h : writeFrames c es i offset index = .ok (body, index')) :
    encodeFrames c es = .ok body ∧ ∀ s ∈ index'.samples,
      s ∈ index.samples ∨ ∃ x ∈ locate c offset es, s = (x.2.key, x.1) := by
  induction es generalizing i offset index body with
  | nil =>
    cases h
    exact ⟨rfl, fun s hs => .inl hs⟩
  | cons e es ih =>
    rw [writeFrames] at h
    cases hpay : encodeSstableEntry c e with
    | error err => simp [hpay] at h
    | ok payload =>
      have hlen : frameLen c e = 4 + payload.length := by
        simp [frameLen, hpay, length_frameBytes]
      simp only [hpay] at h
      generalize hidx : (if i % SparseIndex.sampleInterval = 0 then index.push e.key offset
        else index) = mid at h
      cases hrest : writeFrames c es (i + 1) (offset + 4 + payload.length) mid with
      | error err => simp [hrest, Except.map] at h
      | ok r =>
        simp only [hrest, Except.map, Except.ok.injEq, Prod.mk.injEq] at h
        obtain ⟨rfl, rfl⟩ := h
        obtain ⟨hbody, hsamples⟩ := ih hrest
        refine ⟨encodeFrames_cons.mpr ⟨payload, r.1, hpay, hbody, rfl⟩, fun s hs => ?_⟩
        rcases hsamples s hs with hs | ⟨x, hx, rfl⟩
        · subst hidx
          split_ifs at hs with hi
          · rcases mem_append.mp hs with hs | hs
            · exact .inl hs
            · refine .inr ⟨(offset, e), mem_cons_self, ?_⟩
              simpa using hs
          · exact .inl hs
        · refine .inr ⟨x, List.mem_cons_of_mem _ ?_, rfl⟩
          rwa [hlen, ← Nat.add_assoc]

/-- Entries that can be encoded can be written. -/
theorem exists_writeSstable (hes : ∀ e ∈ es, ∃ payload, encodeSstableEntry c e = .ok payload) :
    ∃ w, writeSstable c es = .ok w := by
  have hframes : ∀ (i offset : ℕ) (index : SparseIndex),
      ∃ r, writeFrames c es i offset index = .ok r := by
    induction es with
    | nil => exact fun _ _ index => ⟨([], index), rfl⟩
    | cons e es ih =>
      intro i offset index
      obtain ⟨payload, hpay⟩ := hes e mem_cons_self
      obtain ⟨r, hr⟩ := ih (fun d hd => hes d (List.mem_cons_of_mem _ hd)) (i + 1)
        (offset + 4 + payload.length)
        (if i % SparseIndex.sampleInterval = 0 then index.push e.key offset else index)
      exact ⟨(frameBytes payload ++ r.1, r.2), by simp only [writeFrames, hpay, hr]; rfl⟩
  obtain ⟨r, hr⟩ := hframes 0 sstableDataStart .new
  exact ⟨(sstableHeaderBytes ++ r.1, r.2), by rw [writeSstable, hr]; rfl⟩

/-- A written file holds its entries and its index points into it. -/
theorem writeSstable_spec (h : writeSstable c es = .ok (file, index)) :
    HoldsEntries c file es ∧ validateSstableHeader file = .ok () ∧ index.PointsInto c file es := by
  rw [writeSstable] at h
  cases hw : writeFrames c es 0 sstableDataStart .new with
  | error err => simp [hw, Except.map] at h
  | ok r =>
    simp only [hw, Except.map, Except.ok.injEq, Prod.mk.injEq] at h
    obtain ⟨rfl, rfl⟩ := h
    obtain ⟨hbody, hsamples⟩ := writeFrames_spec hw
    have hfile := holdsEntries_header hbody
    refine ⟨hfile, validateSstableHeader_append r.1, .of_locate hfile fun s hs => ?_⟩
    exact (hsamples s hs).resolve_left (by simp [SparseIndex.new])

/-! ### Scanning a file at open -/

/-- The running state of the metadata scan. -/
structure LoadState where
  minKey : Option Key := none
  maxKey : Option Key := none
  entryCount : ℕ := 0
  keys : List Key := []
  index : SparseIndex := .new
  maxSeq : Option ℕ := none

/-- Fold one frame, found at `frameOffset`, into the scan. -/
def LoadState.visit (st : LoadState) (frameOffset : ℕ) (entry : SStableEntry) : LoadState where
  minKey := st.minKey.or (some entry.key)
  maxKey := some entry.key
  entryCount := st.entryCount + 1
  keys := st.keys ++ [entry.key]
  index :=
    if st.entryCount % SparseIndex.sampleInterval = 0 then st.index.push entry.key frameOffset
    else st.index
  maxSeq :=
    match st.maxSeq with
    | none => some entry.seq
    | some m => if seqNewer entry.seq m then some entry.seq else some m

/-- What scanning a file at open yields. -/
structure LoadedSstable where
  metadata : SStableMetadata
  bloom : Option BloomFilter
  index : Option SparseIndex
  maxSeq : Option ℕ

/-- The scan's result. -/
def LoadState.finish (c : Crates) (st : LoadState) : LoadedSstable where
  metadata :=
    { minKey := st.minKey.getD []
      maxKey := st.maxKey.getD []
      entryCount := st.entryCount
      maxSeq := st.maxSeq }
  bloom := if st.keys.isEmpty then none else some (.build c st.keys st.keys.length)
  index := if st.index.isEmpty then none else some st.index
  maxSeq := st.maxSeq

/-- Load metadata from an existing SSTable by scanning it from its head. -/
def loadMetadataFromFile (c : Crates) (file : Bytes) : Except LSMError LoadedSstable :=
  match validateSstableHeader file with
  | .error err => .error err
  | .ok () =>
    (walk (located (nextSequential c file)) (fun x st => .next (st.visit x.1 x.2))
      (file.length + 1) sstableDataStart ({} : LoadState)).map (LoadState.finish c)

/-- What the scan knows after the frames `done`. -/
structure LoadState.Covers (st : LoadState) (done : List (ℕ × SStableEntry)) : Prop where
  minKey : st.minKey = done.head?.map (·.2.key)
  maxKey : st.maxKey = done.getLast?.map (·.2.key)
  entryCount : st.entryCount = done.length
  keys : st.keys = done.map (·.2.key)
  index : ∀ s ∈ st.index.samples, ∃ x ∈ done, s = (x.2.key, x.1)
  maxSeq : ∀ x ∈ done, ∃ m ∈ st.maxSeq, x.2.seq ≤ m

variable {st : LoadState} {done : List (ℕ × SStableEntry)}

/-- One more frame. -/
theorem LoadState.Covers.visit (h : st.Covers done) (x : ℕ × SStableEntry) :
    (st.visit x.1 x.2).Covers (done ++ [x]) where
  minKey := by
    rw [LoadState.visit, h.minKey]
    cases done <;> simp
  maxKey := by simp [LoadState.visit]
  entryCount := by simp [LoadState.visit, h.entryCount]
  keys := by simp [LoadState.visit, h.keys]
  index := by
    intro s hs
    simp only [LoadState.visit] at hs
    split_ifs at hs
    · rcases mem_append.mp hs with hs | hs
      · obtain ⟨y, hy, rfl⟩ := h.index s hs
        exact ⟨y, List.mem_append_left _ hy, rfl⟩
      · exact ⟨x, by simp, by simpa using hs⟩
    · obtain ⟨y, hy, rfl⟩ := h.index s hs
      exact ⟨y, List.mem_append_left _ hy, rfl⟩
  maxSeq := by
    intro y hy
    rcases mem_append.mp hy with hy | hy
    · obtain ⟨m, hm, hle⟩ := h.maxSeq y hy
      have hm : st.maxSeq = some m := hm
      simp only [LoadState.visit, hm]
      split_ifs with hnew
      · refine ⟨x.2.seq, rfl, ?_⟩
        simp only [seqNewer, decide_eq_true_eq] at hnew
        omega
      · exact ⟨m, rfl, hle⟩
    · obtain rfl : y = x := by simpa using hy
      cases hm : st.maxSeq with
      | none => exact ⟨y.2.seq, by simp [LoadState.visit, hm], le_rfl⟩
      | some m =>
        simp only [LoadState.visit, hm]
        split_ifs with hnew
        · exact ⟨y.2.seq, rfl, le_rfl⟩
        · refine ⟨m, rfl, ?_⟩
          simpa [seqNewer] using hnew

/-- All frames. -/
theorem LoadState.Covers.foldl (h : st.Covers done) (l : List (ℕ × SStableEntry)) :
    (l.foldl (fun st x => st.visit x.1 x.2) st).Covers (done ++ l) := by
  induction l generalizing st done with
  | nil => simpa using h
  | cons x l ih => simpa using ih (h.visit x)

end Minnal
