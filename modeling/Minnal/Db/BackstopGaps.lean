import Minnal.Wal.SegmentFormat

/-!
# Index gaps recorded by WAL garbage collection

A WAL segment below the cut is retired once every **field index** has checkpointed past it. When
the fields hold back more than `maxPinned` segments, `garbageCollectWal` reclaims the oldest
anyway: before it unlinks these **forced** segments it harvests the keys they hold and records,
for each active field that would have replayed them, a **gap** to be repaired: a worklist of
keys, or a full rebuild.

A repair mode stands for the set of rows it will visit (`RepairMode.rows`; a full rebuild visits
all). In these terms a merge keeps both of its records (`RepairMode.rows_merge`). Whether the
record left for a field covers everything the field lost is another matter: a segment that
cannot be harvested is passed over, and what the others hold is taken for the whole.
-/

set_option linter.dupNamespace false

namespace Minnal

open List (mem_map mem_cons mem_filter length_map foldl_cons mem_cons_self map_cons map_take)

variable {d : Disk} {gap : GapRecord} {field : ℕ × ℕ} {more : List HexString}

namespace WalGc

open SegmentedLog (segmentOf position)

abbrev Key := List UInt8

/-- The bytes of a string. -/
abbrev HexString := List UInt8

/-! ### Keys in hexadecimal -/

def hexDigit (n : ℕ) : UInt8 := if n < 10 then UInt8.ofNat (48 + n) else UInt8.ofNat (87 + n)

/-- Lowercase hexadecimal. -/
def bytesToHex (bytes : Key) : HexString :=
  bytes.flatMap fun b => [hexDigit (b.toNat / 16), hexDigit (b.toNat % 16)]

def nibble (c : UInt8) : Option UInt8 :=
  if 48 ≤ c ∧ c ≤ 57 then some (c - 48)
  else if 97 ≤ c ∧ c ≤ 102 then some (c - 97 + 10)
  else if 65 ≤ c ∧ c ≤ 70 then some (c - 65 + 10)
  else none

def hexToBytes : HexString → Option Key
  | [] => some []
  | [_] => none
  | high :: low :: rest =>
    match nibble high, nibble low, hexToBytes rest with
    | some h, some l, some more => some ((h <<< 4 ||| l) :: more)
    | _, _, _ => none

private theorem nibbles_hexDigit : ∀ n < 256,
    nibble (hexDigit (n / 16)) = some (UInt8.ofNat (n / 16)) ∧
      nibble (hexDigit (n % 16)) = some (UInt8.ofNat (n % 16)) ∧
        UInt8.ofNat (n / 16) <<< 4 ||| UInt8.ofNat (n % 16) = UInt8.ofNat n := by
  decide +kernel

/-- **A recorded key can be repaired**: its hexadecimal form decodes to the key. -/
theorem hexToBytes_bytesToHex (key : Key) : hexToBytes (bytesToHex key) = some key := by
  induction key with
  | nil => rfl
  | cons b key ih =>
    obtain ⟨hhigh, hlow, hjoin⟩ := nibbles_hexDigit b.toNat b.toNat_lt
    have hcons : bytesToHex (b :: key) =
        hexDigit (b.toNat / 16) :: hexDigit (b.toNat % 16) :: bytesToHex key := rfl
    rw [hcons, hexToBytes, hhigh, hlow, ih]
    simp only [hjoin, UInt8.ofNat_toNat]

theorem bytesToHex_injective : Function.Injective bytesToHex := by
  intro a b hab
  have h := congrArg hexToBytes hab
  rw [hexToBytes_bytesToHex, hexToBytes_bytesToHex] at h
  exact Option.some.inj h

/-! ### Gap records -/

/-- Sort, then drop repetitions. -/
def sortDedup {α : Type*} [LinearOrder α] (l : List α) : List α :=
  (l.insertionSort (· ≤ ·)).destutter (· ≠ ·)

section SortDedup

variable {α : Type*} [LinearOrder α]

private theorem sortDedup_eq (l : List α) : sortDedup l = (l.insertionSort (· ≤ ·)).dedup :=
  (List.pairwise_insertionSort (· ≤ ·) l).destutter_eq_dedup

@[simp] theorem mem_sortDedup {l : List α} {a : α} : a ∈ sortDedup l ↔ a ∈ l := by
  rw [sortDedup_eq, List.mem_dedup, List.mem_insertionSort]

theorem nodup_sortDedup (l : List α) : (sortDedup l).Nodup := by
  rw [sortDedup_eq]
  exact List.nodup_dedup _

theorem length_sortDedup (l : List α) : (sortDedup l).length = {a | a ∈ l}.ncard := by
  have hset : {a | a ∈ l} = ((sortDedup l).toFinset : Set α) := by
    ext a
    simp
  rw [hset, Set.ncard_coe_finset, List.toFinset_card_of_nodup]
  rw [sortDedup_eq]
  exact List.nodup_dedup _

end SortDedup

/-- How an index with an outstanding gap has to be repaired. -/
inductive RepairMode where
  /-- Repair the listed keys, in hexadecimal. -/
  | rowScoped (keys : List HexString)
  /-- The affected keys could not be captured: rebuild the whole field. -/
  | fullRebuild
  deriving DecidableEq

inductive GapCause where
  | backstopReclaim
  | noWalWrites
  | rejectedUpdate
  | damagedIndexFile
  deriving DecidableEq

/-- A record that a field index is missing updates; `fromOffset` and `toOffset` are the WAL
range that could not be replayed. -/
structure GapRecord where
  namespaceId : ℕ
  fieldId : ℕ
  cause : GapCause
  fromOffset : ℕ
  toOffset : ℕ
  missingSegments : List ℕ
  detectedAtMs : ℕ
  repair : RepairMode
  deriving DecidableEq

/-- Worklists are joined unless they outgrow the cap; a full rebuild absorbs. -/
def RepairMode.merge (keyCap : ℕ) : RepairMode → RepairMode → RepairMode
  | .rowScoped keys, .rowScoped more =>
    let keys := sortDedup (keys ++ more)
    if keyCap < keys.length then .fullRebuild else .rowScoped keys
  | _, _ => .fullRebuild

/-- Merge a newly detected gap into the existing record of the field. -/
def GapRecord.merge (existing other : GapRecord) (keyCap : ℕ) : GapRecord :=
  { existing with
    fromOffset := min existing.fromOffset other.fromOffset
    toOffset := max existing.toOffset other.toOffset
    missingSegments := sortDedup (existing.missingSegments ++ other.missingSegments)
    cause := if other.repair = .fullRebuild then other.cause else existing.cause
    repair := existing.repair.merge keyCap other.repair }

/-- The rows a repair visits, by the hexadecimal form of their keys. -/
def RepairMode.rows : RepairMode → Set HexString
  | .rowScoped keys => {h | h ∈ keys}
  | .fullRebuild => Set.univ

namespace RepairMode

theorem rows_merge_rowScoped (keyCap : ℕ) (keys more : List HexString) :
    ((rowScoped keys).merge keyCap (rowScoped more)).rows =
      {h | keyCap < ({h | h ∈ keys} ∪ {h | h ∈ more}).ncard ∨ h ∈ keys ∨ h ∈ more} := by
  have hlen : (sortDedup (keys ++ more)).length = ({h | h ∈ keys} ∪ {h | h ∈ more}).ncard := by
    rw [length_sortDedup]
    congr 1
    ext h
    simp
  ext h
  simp only [merge, hlen]
  split_ifs with hcap
  · simp [rows, hcap]
  · simp [rows, hcap]

theorem merge_fullRebuild (keyCap : ℕ) (m : RepairMode) : m.merge keyCap .fullRebuild = .fullRebuild := by
  cases m <;> rfl

/-- **A merge keeps both records**: it visits what either of them does. -/
theorem rows_merge (keyCap : ℕ) (m n : RepairMode) : m.rows ∪ n.rows ⊆ (m.merge keyCap n).rows := by
  cases m with
  | fullRebuild => exact Set.subset_univ _
  | rowScoped keys =>
    cases n with
    | fullRebuild => exact Set.subset_univ _
    | rowScoped more =>
      rw [rows_merge_rowScoped]
      exact fun h hmem => Or.inr hmem

end RepairMode

/-! ### Planning a pass -/

/-- An active field index as the WAL observer knows it: its checkpoint's offset, and whether its
index has entries. -/
structure FieldConsumer where
  namespaceId : ℕ
  fieldId : ℕ
  position : Option ℕ
  populated : Bool

/-- Where the field replays from after a crash; a field never checkpointed holds the WAL once
its index has entries. -/
def FieldConsumer.replayOffset (c : FieldConsumer) : Option ℕ :=
  match c.position with
  | some offset => some offset
  | none => if c.populated then some 0 else none

/-- The active fields, each once. -/
structure Consumers where
  list : List FieldConsumer
  nodup : (list.map fun c => (c.namespaceId, c.fieldId)).Nodup

def fieldReplayOffsets (cs : Consumers) : List (FieldConsumer × ℕ) :=
  cs.list.filterMap fun c => c.replayOffset.map fun offset => (c, offset)

/-- The oldest segment an active field still needs. -/
def indexReplayWatermarkSegment (cs : Consumers) : Option ℕ :=
  ((fieldReplayOffsets cs).map fun f => segmentOf f.2).min?

structure WalGcPlan where
  /-- Segments to delete, ascending, the forced ones included. -/
  reclaim : List ℕ
  /-- How many the watermark holds back. -/
  deferred : ℕ
  /-- Segments the watermark wanted to hold. -/
  forced : List ℕ

/-- Decide which retired segments a pass reclaims. -/
def planWalGc (head cut active maxPinned : ℕ) (watermark : Option ℕ) : WalGcPlan :=
  let ready := List.range' (segmentOf head) (min active (segmentOf cut) - segmentOf head)
  match watermark with
  | none => ⟨ready, 0, []⟩
  | some watermark =>
    let pinned := ready.filter fun s => decide (watermark ≤ s)
    let free := ready.filter fun s => !decide (watermark ≤ s)
    let forceCount := if maxPinned = 0 then 0 else pinned.length - maxPinned
    let forced := pinned.take forceCount
    ⟨(free ++ forced).insertionSort (· ≤ ·), pinned.length - forceCount, forced⟩

/-! ### The pass -/

/-- A segment file: namespace and key of every entry written in it, and whether walking its
frames succeeds. -/
structure SegmentFile where
  entries : List (ℕ × Key)
  walks : Bool

/-- What the pass works on: the segment files, oldest first, and the `gap.json` of each field
that has a directory. -/
structure Disk where
  segments : List (ℕ × SegmentFile)
  fieldDirs : ℕ × ℕ → Option (Option GapRecord)

def Disk.segmentFile (d : Disk) (id : ℕ) : Option SegmentFile :=
  (d.segments.find? fun x => decide (x.1 = id)).map Prod.snd

/-- Which calls succeed: reading a field's gap file, replacing it, unlinking a segment. -/
structure Io where
  readsGap : ℕ × ℕ → Bool
  writesGap : ℕ × ℕ → Bool
  unlinks : ℕ → Bool

def scanKeysInEntries (f : SegmentFile) : Option (List (ℕ × Key)) :=
  if f.walks then some f.entries else none

/-- Each item once, in first-seen order. -/
def distinct {α : Type*} [DecidableEq α] (seen : List α) : List α → List α
  | [] => []
  | a :: l => if a ∈ seen then distinct seen l else a :: distinct (a :: seen) l

/-- The distinct keys of a segment, none if it cannot be read; a segment already gone has none. -/
def scanSegmentKeys (d : Disk) (id : ℕ) : Option (List (ℕ × Key)) :=
  match d.segmentFile id with
  | none => some []
  | some f => (scanKeysInEntries f).map (distinct [])

/-- The keys harvested for a namespace; a segment that cannot be read is passed over. -/
def keysByNs (d : Disk) (forced : List ℕ) (ns : ℕ) : List Key :=
  ((forced.flatMap fun id => (scanSegmentKeys d id).getD []).filter
    fun e => decide (e.1 = ns)).map Prod.snd

/-- The cap on a worklist. -/
def gapKeyWorklistCap : ℕ := 100000

/-- An unreadable record reads as none. -/
def readGap (io : Io) (d : Disk) (field : ℕ × ℕ) : Option GapRecord :=
  if io.readsGap field then (d.fieldDirs field).getD none else none

/-- Record a gap for a field, merging into a record already there. -/
def recordGap (io : Io) (keyCap : ℕ) (d : Disk) (gap : GapRecord) : Disk :=
  let field := (gap.namespaceId, gap.fieldId)
  match d.fieldDirs field with
  | none => d
  | some _ =>
    let merged := match readGap io d field with
      | some existing => existing.merge gap keyCap
      | none => gap
    if io.writesGap field then
      { d with fieldDirs := Function.update d.fieldDirs field (some (some merged)) }
    else d

/-- What a pass starts from. The watermark is read from `planned`, the fields that get a gap
from `consumers`: between the two reads checkpoints may have moved. -/
structure GcPass where
  disk : Disk
  io : Io
  head : ℕ
  cut : ℕ
  tail : ℕ
  active : ℕ
  maxPinned : ℕ
  now : ℕ
  planned : Consumers
  consumers : Consumers

namespace GcPass

variable (p : GcPass)

def plan : WalGcPlan :=
  planWalGc p.head p.cut p.active p.maxPinned (indexReplayWatermarkSegment p.planned)

def forced : List ℕ := p.plan.forced

/-- The repair asked for in a namespace. -/
def repairFor (ns : ℕ) : RepairMode :=
  let keys := keysByNs p.disk p.forced ns
  if keys = [] ∨ gapKeyWorklistCap < keys.length then .fullRebuild
  else .rowScoped (keys.map bytesToHex)

/-- The gap of an affected field. -/
def gapFor (f : FieldConsumer × ℕ) : GapRecord where
  namespaceId := f.1.namespaceId
  fieldId := f.1.fieldId
  cause := .backstopReclaim
  fromOffset := f.2
  toOffset := p.tail
  missingSegments := p.forced
  detectedAtMs := p.now
  repair := p.repairFor f.1.namespaceId

/-- The field has not checkpointed past every forced segment. -/
def needs (f : FieldConsumer × ℕ) : Bool := p.forced.any fun s => decide (segmentOf f.2 ≤ s)

/-- The gaps to record, in order. -/
def backstopGaps : List GapRecord :=
  if p.forced = [] then [] else ((fieldReplayOffsets p.consumers).filter p.needs).map p.gapFor

/-- The segments the pass unlinks: oldest first, never the active one, up to the first failure. -/
def unlinked : List ℕ :=
  match p.plan.reclaim.getLast? with
  | none => []
  | some last => ((p.disk.segments.map Prod.fst).filter
      fun id => decide (id < min (last + 1) p.active)).takeWhile p.io.unlinks

/-- One change a pass makes on the disk. -/
inductive Effect where
  | record (gap : GapRecord)
  | unlink (id : ℕ)

def perform (d : Disk) : Effect → Disk
  | .record gap => recordGap p.io gapKeyWorklistCap d gap
  | .unlink id => { d with segments := d.segments.filter fun x => decide (x.1 ≠ id) }

/-- The changes of a pass, in order. -/
def garbageCollectWal : List Effect := p.backstopGaps.map .record ++ p.unlinked.map .unlink

/-- The disk after so many of the changes. -/
def after (n : ℕ) : Disk := (p.garbageCollectWal.take n).foldl p.perform p.disk

end GcPass

/-! ### What is harvested -/

section Distinct

variable {α : Type*} [DecidableEq α]

private theorem mem_distinct {l seen : List α} {a : α} : a ∈ distinct seen l ↔ a ∈ l ∧ a ∉ seen := by
  induction l generalizing seen with
  | nil => simp [distinct]
  | cons b l ih =>
    rw [distinct]
    split_ifs with hb
    · rw [ih, mem_cons]
      refine ⟨fun h => ⟨Or.inr h.1, h.2⟩, fun h => ⟨h.1.resolve_left ?_, h.2⟩⟩
      rintro rfl
      exact h.2 hb
    · rw [mem_cons, ih, mem_cons, mem_cons]
      by_cases hab : a = b
      · simp [hab, hb]
      · simp [hab]

private theorem nodup_distinct (l seen : List α) : (distinct seen l).Nodup := by
  induction l generalizing seen with
  | nil => exact List.nodup_nil
  | cons b l ih =>
    rw [distinct]
    split_ifs with hb
    · exact ih seen
    · refine List.nodup_cons.mpr ⟨fun h => ?_, ih (b :: seen)⟩
      exact (mem_distinct.mp h).2 mem_cons_self

end Distinct

/-- A segment of the directory that can be read holds an entry for this key. -/
def HeldBy (d : Disk) (ns id : ℕ) (k : Key) : Prop :=
  ∃ f, d.segmentFile id = some f ∧ f.walks = true ∧ (ns, k) ∈ f.entries

theorem mem_scanSegmentKeys {ns id : ℕ} {k : Key} :
    (ns, k) ∈ (scanSegmentKeys d id).getD [] ↔ HeldBy d ns id k := by
  cases hfile : d.segmentFile id with
  | none => simp [scanSegmentKeys, HeldBy, hfile]
  | some f =>
    by_cases hwalks : f.walks = true
    · simp [scanSegmentKeys, scanKeysInEntries, HeldBy, hfile, hwalks, mem_distinct]
    · simp [scanSegmentKeys, scanKeysInEntries, HeldBy, hfile, hwalks]

private theorem nodup_scanSegmentKeys (d : Disk) (id : ℕ) : ((scanSegmentKeys d id).getD []).Nodup := by
  cases hfile : d.segmentFile id with
  | none => simp [scanSegmentKeys, hfile]
  | some f =>
    by_cases hwalks : f.walks = true
    · simp [scanSegmentKeys, scanKeysInEntries, hfile, hwalks, nodup_distinct]
    · simp [scanSegmentKeys, scanKeysInEntries, hfile, hwalks]

theorem mem_keysByNs {forced : List ℕ} {ns : ℕ} {k : Key} :
    k ∈ keysByNs d forced ns ↔ ∃ id ∈ forced, HeldBy d ns id k := by
  simp only [keysByNs, mem_map, mem_filter, List.mem_flatMap, decide_eq_true_eq]
  constructor
  · rintro ⟨⟨n, key⟩, ⟨⟨id, hid, hmem⟩, rfl⟩, rfl⟩
    exact ⟨id, hid, mem_scanSegmentKeys.mp hmem⟩
  · rintro ⟨id, hid, hheld⟩
    exact ⟨(ns, k), ⟨⟨id, hid, mem_scanSegmentKeys.mpr hheld⟩, rfl⟩, rfl⟩

/-- How many keys the harvest lists: each once for every segment that holds it. -/
theorem length_keysByNs (d : Disk) (forced : List ℕ) (ns : ℕ) :
    (keysByNs d forced ns).length = (forced.map fun id => {k | HeldBy d ns id k}.ncard).sum := by
  have hone : ∀ id, (((scanSegmentKeys d id).getD []).filter fun e => decide (e.1 = ns)).length =
      {k | HeldBy d ns id k}.ncard := by
    intro id
    set l := ((scanSegmentKeys d id).getD []).filter fun e => decide (e.1 = ns) with hl
    have hnodup : (l.map Prod.snd).Nodup := by
      refine ((nodup_scanSegmentKeys d id).filter _).map_on fun a ha b hb hab => ?_
      have hans := of_decide_eq_true (mem_filter.mp ha).2
      have hbns := of_decide_eq_true (mem_filter.mp hb).2
      exact Prod.ext (hans.trans hbns.symm) hab
    have hset : {k | HeldBy d ns id k} = ((l.map Prod.snd).toFinset : Set Key) := by
      ext k
      simp only [Set.mem_ofPred_eq, ← mem_scanSegmentKeys, List.coe_toFinset, mem_map, hl,
        mem_filter, decide_eq_true_eq]
      refine ⟨fun h => ⟨(ns, k), ⟨h, rfl⟩, rfl⟩, ?_⟩
      rintro ⟨⟨n, key⟩, ⟨hmem, rfl⟩, rfl⟩
      exact hmem
    rw [hset, Set.ncard_coe_finset, List.toFinset_card_of_nodup hnodup, length_map]
  rw [keysByNs, length_map]
  induction forced with
  | nil => rfl
  | cons id forced ih =>
    rw [List.flatMap_cons, List.filter_append, List.length_append, ih, hone, map_cons,
      List.sum_cons]

/-! ### What is recorded -/

/-- The field's gap record on the disk. -/
def Disk.gapOf (d : Disk) (field : ℕ × ℕ) : Option GapRecord := (d.fieldDirs field).getD none

@[simp] theorem recordGap_segments (io : Io) (keyCap : ℕ) (d : Disk) (gap : GapRecord) :
    (recordGap io keyCap d gap).segments = d.segments := by
  rw [recordGap]
  cases d.fieldDirs (gap.namespaceId, gap.fieldId) with
  | none => rfl
  | some dir =>
    dsimp only
    split_ifs <;> rfl

/-- A record changes its own field only. -/
theorem recordGap_other (io : Io) (keyCap : ℕ) (d : Disk)
    (hne : (gap.namespaceId, gap.fieldId) ≠ field) :
    (recordGap io keyCap d gap).fieldDirs field = d.fieldDirs field := by
  rw [recordGap]
  cases d.fieldDirs (gap.namespaceId, gap.fieldId) with
  | none => rfl
  | some dir =>
    dsimp only
    split_ifs with hwrites
    · exact Function.update_of_ne hne.symm _ _
    · rfl

/-- What a record leaves for its own field. -/
theorem recordGap_self (io : Io) (keyCap : ℕ) (d : Disk) (gap : GapRecord)
    (hfield : (gap.namespaceId, gap.fieldId) = field) :
    (recordGap io keyCap d gap).fieldDirs field =
      (d.fieldDirs field).map fun dir =>
        if io.writesGap field = true then
          some (match readGap io d field with
            | some existing => existing.merge gap keyCap
            | none => gap)
        else dir := by
  rw [recordGap, hfield]
  cases hdir : d.fieldDirs field with
  | none => exact hdir
  | some dir =>
    dsimp only [Option.map_some]
    split_ifs with hwrites
    · exact Function.update_self _ _ _
    · exact hdir

/-- What a record leaves for its field depends on that field's directory only. -/
theorem recordGap_congr (io : Io) (keyCap : ℕ) {e : Disk}
    (hfield : (gap.namespaceId, gap.fieldId) = field) (h : d.fieldDirs field = e.fieldDirs field) :
    (recordGap io keyCap d gap).fieldDirs field = (recordGap io keyCap e gap).fieldDirs field := by
  have hread : readGap io d field = readGap io e field := by rw [readGap, readGap, h]
  rw [recordGap_self io keyCap d gap hfield, recordGap_self io keyCap e gap hfield, h, hread]

private theorem foldl_recordGap_other (io : Io) (keyCap : ℕ) {gaps : List GapRecord}
    (hne : ∀ g ∈ gaps, (g.namespaceId, g.fieldId) ≠ field) (d : Disk) :
    (gaps.foldl (recordGap io keyCap) d).fieldDirs field = d.fieldDirs field := by
  induction gaps generalizing d with
  | nil => rfl
  | cons g gaps ih =>
    obtain ⟨hg, hgaps⟩ := List.forall_mem_cons.mp hne
    rw [foldl_cons, ih hgaps, recordGap_other io keyCap d hg]

/-- Gaps of different fields do not meet: each field is left as if its gap were the only one. -/
theorem foldl_recordGap (io : Io) (keyCap : ℕ) {gaps : List GapRecord}
    (hnodup : (gaps.map fun g => (g.namespaceId, g.fieldId)).Nodup) (hgap : gap ∈ gaps) (d : Disk) :
    (gaps.foldl (recordGap io keyCap) d).fieldDirs (gap.namespaceId, gap.fieldId) =
      (recordGap io keyCap d gap).fieldDirs (gap.namespaceId, gap.fieldId) := by
  induction gaps generalizing d with
  | nil => cases hgap
  | cons g gaps ih =>
    rw [map_cons, List.nodup_cons] at hnodup
    obtain ⟨hg, hgaps⟩ := hnodup
    rw [foldl_cons]
    rcases mem_cons.mp hgap with rfl | hmem
    · exact foldl_recordGap_other io keyCap
        (fun g' hg' heq => hg (mem_map.mpr ⟨g', hg', heq⟩)) _
    · rw [ih hgaps hmem]
      refine recordGap_congr io keyCap rfl (recordGap_other io keyCap d fun heq => hg ?_)
      exact mem_map.mpr ⟨gap, hmem, heq.symm⟩

namespace GcPass

variable (p : GcPass)

/-- The directory of a field. -/
def place (f : FieldConsumer × ℕ) : ℕ × ℕ := (f.1.namespaceId, f.1.fieldId)

variable {p} {f : FieldConsumer × ℕ}

private theorem nodup_backstopGaps (p : GcPass) :
    (p.backstopGaps.map fun g => (g.namespaceId, g.fieldId)).Nodup := by
  rw [backstopGaps]
  split_ifs with hforced
  · exact List.nodup_nil
  · rw [List.map_map]
    have hplaces : ((fieldReplayOffsets p.consumers).map place).Nodup := by
      have hsub : ((fieldReplayOffsets p.consumers).map place).Sublist
          (p.consumers.list.map fun c => (c.namespaceId, c.fieldId)) := by
        rw [fieldReplayOffsets]
        induction p.consumers.list with
        | nil => exact List.Sublist.refl _
        | cons c cs ih =>
          cases hoff : c.replayOffset with
          | none =>
            rw [List.filterMap_cons_none (by rw [hoff]; rfl)]
            exact ih.cons _
          | some offset =>
            rw [List.filterMap_cons_some (b := (c, offset)) (by rw [hoff]; rfl)]
            exact ih.cons_cons _
      exact p.consumers.nodup.sublist hsub
    exact hplaces.sublist (List.filter_sublist.map _)

/-- An affected field has a gap recorded. -/
theorem gapFor_mem_backstopGaps (hf : f ∈ fieldReplayOffsets p.consumers) (hneeds : p.needs f = true) :
    p.gapFor f ∈ p.backstopGaps := by
  rw [backstopGaps, if_neg]
  · exact mem_map.mpr ⟨f, mem_filter.mpr ⟨hf, hneeds⟩, rfl⟩
  · intro hforced
    rw [needs, hforced] at hneeds
    cases hneeds

private theorem foldl_record (p : GcPass) (gaps : List GapRecord) (d : Disk) :
    (gaps.map Effect.record).foldl p.perform d = gaps.foldl (recordGap p.io gapKeyWorklistCap) d := by
  rw [List.foldl_map]
  rfl

/-- While gaps are being recorded, every segment is still there. -/
theorem after_segments (p : GcPass) {n : ℕ} (hn : n ≤ p.backstopGaps.length) :
    (p.after n).segments = p.disk.segments := by
  rw [after, garbageCollectWal, List.take_append_of_le_length (by rwa [length_map]),
    ← map_take, foldl_record]
  induction p.backstopGaps.take n using List.reverseRecOn with
  | nil => rfl
  | append_singleton gaps g ih => rw [List.foldl_append, foldl_cons, List.foldl_nil,
      recordGap_segments, ih]

private theorem foldl_unlink_fieldDirs (p : GcPass) (ids : List ℕ) (d : Disk) :
    ((ids.map Effect.unlink).foldl p.perform d).fieldDirs = d.fieldDirs := by
  induction ids generalizing d with
  | nil => rfl
  | cons id ids ih =>
    rw [map_cons, foldl_cons, ih]
    rfl

/-- From the first unlink on, an affected field has what its gap left. -/
theorem after_gapOf (hf : f ∈ fieldReplayOffsets p.consumers) (hneeds : p.needs f = true) {n : ℕ}
    (hn : p.backstopGaps.length ≤ n) :
    (p.after n).gapOf (place f) = (recordGap p.io gapKeyWorklistCap p.disk (p.gapFor f)).gapOf (place f) := by
  have htake : p.garbageCollectWal.take n = p.backstopGaps.map .record ++
      (p.unlinked.take (n - p.backstopGaps.length)).map .unlink := by
    rw [garbageCollectWal, List.take_append, List.take_of_length_le (by rwa [length_map]),
      length_map, map_take]
  rw [Disk.gapOf, Disk.gapOf, after, htake, List.foldl_append, foldl_unlink_fieldDirs, foldl_record]
  exact congrArg (Option.getD · none)
    (foldl_recordGap p.io gapKeyWorklistCap (nodup_backstopGaps p)
      (gapFor_mem_backstopGaps hf hneeds) p.disk)

/-! ### What the record covers -/

variable (p f)

/-- A forced segment the field would have replayed has an entry for this key. -/
def Lost (k : Key) : Prop :=
  ∃ id ∈ p.forced, segmentOf f.2 ≤ id ∧
    ∃ file, p.disk.segmentFile id = some file ∧ (f.1.namespaceId, k) ∈ file.entries

/-- A forced segment that can be read has an entry for this key of the field's namespace. -/
def Harvested (k : Key) : Prop := ∃ id ∈ p.forced, HeldBy p.disk f.1.namespaceId id k

/-- The keys of the field's namespace in the forced segments that can be read, each counted once
for every segment. -/
noncomputable def harvestCount : ℕ :=
  (p.forced.map fun id => {k | HeldBy p.disk f.1.namespaceId id k}.ncard).sum

/-- The field has a gap record that visits every key the field lost, and all that an earlier
record would have visited. -/
def Complete (d : Disk) : Prop :=
  ∃ gap, d.gapOf (place f) = some gap ∧ (∀ k, p.Lost f k → bytesToHex k ∈ gap.repair.rows) ∧
    ∀ old, p.disk.gapOf (place f) = some old → old.repair.rows ⊆ gap.repair.rows

/-- A new record asks for a full rebuild, or a worklist joined with the earlier one outgrows the
cap. -/
def RebuildsAll : Prop :=
  (∀ k, ¬ p.Harvested f k) ∨ gapKeyWorklistCap < p.harvestCount f ∨
    p.io.readsGap (place f) = true ∧ ∃ old keys, p.disk.gapOf (place f) = some old ∧
      old.repair = .rowScoped keys ∧
        gapKeyWorklistCap < ({h | h ∈ keys} ∪ {h | ∃ k, p.Harvested f k ∧ bytesToHex k = h}).ncard

/-- **What a complete record takes**: the field's directory is there and the record can be
replaced; then everything is rebuilt, or each key lost is in a segment that can be read (or in
the earlier worklist) and the earlier record can be read (or asks for nothing more). Where the
record cannot be replaced, the earlier one must do. -/
def Captured : Prop :=
  (p.disk.fieldDirs (place f)).isSome = true ∧
    if p.io.writesGap (place f) = true then
      p.RebuildsAll f ∨
        (∀ k, p.Lost f k → p.Harvested f k ∨ p.io.readsGap (place f) = true ∧
          ∃ old, p.disk.gapOf (place f) = some old ∧ bytesToHex k ∈ old.repair.rows) ∧
        (p.io.readsGap (place f) = true ∨ ∀ old, p.disk.gapOf (place f) = some old →
          ∀ h ∈ old.repair.rows, ∃ k, p.Harvested f k ∧ bytesToHex k = h)
    else
      ∃ old, p.disk.gapOf (place f) = some old ∧ ∀ k, p.Lost f k → bytesToHex k ∈ old.repair.rows

variable {p f}

private theorem keysByNs_eq_nil_iff :
    keysByNs p.disk p.forced f.1.namespaceId = [] ↔ ∀ k, ¬ p.Harvested f k := by
  rw [List.eq_nil_iff_forall_not_mem]
  exact forall_congr' fun k => not_congr mem_keysByNs

/-- What the pass asks to repair in the field's namespace. -/
theorem repairFor_cases (p : GcPass) (f : FieldConsumer × ℕ) :
    (p.repairFor f.1.namespaceId = .fullRebuild ∧
      ((∀ k, ¬ p.Harvested f k) ∨ gapKeyWorklistCap < p.harvestCount f)) ∨
    ∃ more, p.repairFor f.1.namespaceId = .rowScoped more ∧ (¬ ∀ k, ¬ p.Harvested f k) ∧
      ¬ gapKeyWorklistCap < p.harvestCount f ∧
        ∀ h, h ∈ more ↔ ∃ k, p.Harvested f k ∧ bytesToHex k = h := by
  have hcount : (keysByNs p.disk p.forced f.1.namespaceId).length = p.harvestCount f :=
    length_keysByNs _ _ _
  simp only [repairFor]
  split_ifs with hall <;> rw [keysByNs_eq_nil_iff (f := f), hcount] at hall
  · exact Or.inl ⟨rfl, hall⟩
  · obtain ⟨hsome, hcap⟩ := not_or.mp hall
    refine Or.inr ⟨_, rfl, hsome, hcap, fun h => ?_⟩
    exact mem_map.trans (exists_congr fun k => and_congr_left' mem_keysByNs)

private theorem harvested_iff (hmem : ∀ h, h ∈ more ↔ ∃ k, p.Harvested f k ∧ bytesToHex k = h)
    (k : Key) : bytesToHex k ∈ more ↔ p.Harvested f k := by
  rw [hmem]
  refine ⟨?_, fun h => ⟨k, h, rfl⟩⟩
  rintro ⟨k', hk', heq⟩
  rwa [← bytesToHex_injective heq]

/-- The new record alone: complete if it lists everything. -/
private theorem complete_alone_iff {old : Option GapRecord} (hsome : ¬ ∀ k, ¬ p.Harvested f k)
    (hcap : ¬ gapKeyWorklistCap < p.harvestCount f)
    (hmem : ∀ h, h ∈ more ↔ ∃ k, p.Harvested f k ∧ bytesToHex k = h)
    (hold : p.disk.gapOf (place f) = old) (hunread : p.io.readsGap (place f) = true → old = none) :
    ((∀ k, p.Lost f k → bytesToHex k ∈ more) ∧
        ∀ o, old = some o → o.repair.rows ⊆ {h | h ∈ more}) ↔
      p.RebuildsAll f ∨
        (∀ k, p.Lost f k → p.Harvested f k ∨ p.io.readsGap (place f) = true ∧
          ∃ o, old = some o ∧ bytesToHex k ∈ o.repair.rows) ∧
        (p.io.readsGap (place f) = true ∨ ∀ o, old = some o →
          ∀ h ∈ o.repair.rows, ∃ k, p.Harvested f k ∧ bytesToHex k = h) := by
  have hnoOld : ∀ o, p.io.readsGap (place f) = true → ¬ old = some o := by
    intro o hreads heq
    rw [hunread hreads] at heq
    cases heq
  have hnot : ¬ p.RebuildsAll f := by
    rintro (h | h | ⟨hreads, o, -, ho, -⟩)
    · exact hsome h
    · exact hcap h
    · exact hnoOld o hreads (hold ▸ ho)
  rw [or_iff_right hnot]
  refine and_congr (forall₂_congr fun k _ => ?_) ⟨fun h => ?_, fun h o ho x hx => ?_⟩
  · rw [harvested_iff hmem]
    refine (or_iff_left ?_).symm
    rintro ⟨hreads, o, ho, -⟩
    exact hnoOld o hreads ho
  · exact Or.inr fun o ho x hx => (hmem x).mp (h o ho hx)
  · rcases h with hreads | h
    · exact absurd ho (hnoOld o hreads)
    · exact (hmem x).mpr (h o ho x hx)

/-- The new record merged into one that could be read: what either lists is visited. -/
private theorem complete_merged_iff {old : GapRecord} (hsome : ¬ ∀ k, ¬ p.Harvested f k)
    (hcap : ¬ gapKeyWorklistCap < p.harvestCount f)
    (hmem : ∀ h, h ∈ more ↔ ∃ k, p.Harvested f k ∧ bytesToHex k = h)
    (hold : p.disk.gapOf (place f) = some old) (hreads : p.io.readsGap (place f) = true) :
    (∀ k, p.Lost f k → bytesToHex k ∈ (old.repair.merge gapKeyWorklistCap (.rowScoped more)).rows) ↔
      p.RebuildsAll f ∨ ∀ k, p.Lost f k → p.Harvested f k ∨ bytesToHex k ∈ old.repair.rows := by
  cases hkeys : old.repair with
  | fullRebuild =>
    exact iff_of_true (fun _ _ => Set.mem_univ _) (Or.inr fun _ _ => Or.inr (Set.mem_univ _))
  | rowScoped keys =>
    have hset : {h | h ∈ more} = {h | ∃ k, p.Harvested f k ∧ bytesToHex k = h} := Set.ext hmem
    rw [RepairMode.rows_merge_rowScoped, hset]
    by_cases hbig : gapKeyWorklistCap <
        ({h | h ∈ keys} ∪ {h | ∃ k, p.Harvested f k ∧ bytesToHex k = h}).ncard
    · refine iff_of_true (fun _ _ => Or.inl hbig) (Or.inl (Or.inr (Or.inr ?_)))
      exact ⟨hreads, old, keys, hold, hkeys, hbig⟩
    · have hnot : ¬ p.RebuildsAll f := by
        rintro (h | h | ⟨-, o, ks, ho, hks, hlarge⟩)
        · exact hsome h
        · exact hcap h
        · obtain rfl := Option.some.inj (hold.symm.trans ho)
          obtain rfl := RepairMode.rowScoped.inj (hkeys.symm.trans hks)
          exact hbig hlarge
      rw [or_iff_right hnot]
      refine forall₂_congr fun k _ => ?_
      rw [← harvested_iff hmem, or_comm]
      exact or_iff_right hbig

/-- The gap of one field, recorded: complete exactly if what that takes is there. -/
theorem complete_recordGap_iff (p : GcPass) (f : FieldConsumer × ℕ) :
    p.Complete f (recordGap p.io gapKeyWorklistCap p.disk (p.gapFor f)) ↔ p.Captured f := by
  have hplace : ((p.gapFor f).namespaceId, (p.gapFor f).fieldId) = place f := rfl
  have hself := recordGap_self p.io gapKeyWorklistCap p.disk (p.gapFor f) hplace
  cases hdir : p.disk.fieldDirs (place f) with
  | none =>
    have hgone : (recordGap p.io gapKeyWorklistCap p.disk (p.gapFor f)).gapOf (place f) = none := by
      rw [Disk.gapOf, hself, hdir]
      rfl
    refine iff_of_false ?_ fun h => ?_
    · rintro ⟨gap, hgap, -⟩
      rw [hgone] at hgap
      cases hgap
    · have := h.1
      rw [hdir] at this
      cases this
  | some dir =>
    have hold : p.disk.gapOf (place f) = dir := by rw [Disk.gapOf, hdir]; rfl
    have hread : readGap p.io p.disk (place f) = if p.io.readsGap (place f) = true then dir else none := by
      rw [readGap, hdir]
      rfl
    rw [Complete, Disk.gapOf, hself, hdir, Captured, hdir, hold]
    simp only [Option.map_some, Option.getD_some, Option.isSome_some, true_and]
    by_cases hwrites : p.io.writesGap (place f) = true
    · rw [if_pos hwrites, if_pos hwrites, hread]
      simp only [Option.some.injEq, exists_eq_left']
      rcases repairFor_cases p f with ⟨hfull, hwhy⟩ | ⟨more, hmore, hsome, hcap, hmem⟩
      · -- a full rebuild is asked for, and absorbs whatever was there
        refine iff_of_true ?_ (Or.inl (hwhy.imp_right Or.inl))
        split
        · rw [GapRecord.merge, show (p.gapFor f).repair = _ from hfull, RepairMode.merge_fullRebuild]
          exact ⟨fun _ _ => Set.mem_univ _, fun _ _ => Set.subset_univ _⟩
        · rw [show (p.gapFor f).repair = _ from hfull]
          exact ⟨fun _ _ => Set.mem_univ _, fun _ _ => Set.subset_univ _⟩
      · have hrepair : (p.gapFor f).repair = .rowScoped more := hmore
        by_cases hreads : p.io.readsGap (place f) = true
        · rw [if_pos hreads]
          cases dir with
          | none =>
            dsimp only
            rw [hrepair]
            exact complete_alone_iff hsome hcap hmem hold fun _ => rfl
          | some old =>
            have hmerge : (old.merge (p.gapFor f) gapKeyWorklistCap).repair =
                old.repair.merge gapKeyWorklistCap (.rowScoped more) := by
              rw [GapRecord.merge, hrepair]
            have hkept : ∀ o, some old = some o →
                o.repair.rows ⊆ (old.repair.merge gapKeyWorklistCap (.rowScoped more)).rows := by
              rintro o ho
              obtain rfl := Option.some.inj ho
              exact fun h hh => RepairMode.rows_merge _ _ _ (Or.inl hh)
            dsimp only
            rw [hmerge, and_iff_left hkept, and_iff_left (Or.inl hreads),
              complete_merged_iff hsome hcap hmem hold hreads]
            simp only [Option.some.injEq, hreads, true_and, exists_eq_left']
        · rw [if_neg hreads]
          dsimp only
          rw [hrepair]
          exact complete_alone_iff hsome hcap hmem hold fun h => absurd h hreads
    · rw [if_neg hwrites, if_neg hwrites]
      refine exists_congr fun gap => and_congr_right fun hgap => and_iff_left fun old heq => ?_
      rw [hgap, Option.some.injEq] at heq
      rw [heq]

/-- **Gap records.** No segment is unlinked before the gaps are recorded, and from then on an
active field that needed a forced segment has a complete record exactly if what it takes is
there. -/
theorem complete_iff_captured (p : GcPass) {f : FieldConsumer × ℕ}
    (hf : f ∈ fieldReplayOffsets p.consumers) (hneeds : p.needs f = true) :
    (∀ n ≤ p.backstopGaps.length, (p.after n).segments = p.disk.segments) ∧
      ((∀ n, p.backstopGaps.length ≤ n → p.Complete f (p.after n)) ↔ p.Captured f) := by
  refine ⟨fun n hn => after_segments p hn, ?_⟩
  rw [← complete_recordGap_iff]
  have hcongr : ∀ n, p.backstopGaps.length ≤ n → (p.Complete f (p.after n) ↔
      p.Complete f (recordGap p.io gapKeyWorklistCap p.disk (p.gapFor f))) := by
    intro n hn
    rw [Complete, Complete, after_gapOf hf hneeds hn]
  exact ⟨fun h => (hcongr _ le_rfl).mp (h _ le_rfl), fun h n hn => (hcongr n hn).mpr h⟩

/-- The field of the examples, checkpointed at the head of the WAL. -/
def stalledField : FieldConsumer := ⟨1, 7, some 16, true⟩

/-- Three retired segments against a cap of one: the first two are forced. Whether the first can
be read is left open; every other call succeeds. -/
def forcedPair (firstWalks : Bool) : GcPass where
  disk :=
    { segments := [(0, ⟨[(1, [97])], firstWalks⟩), (1, ⟨[(1, [98])], true⟩), (2, ⟨[], true⟩),
        (3, ⟨[], true⟩)]
      fieldDirs := fun field => if field = (1, 7) then some none else none }
  io := ⟨fun _ => true, fun _ => true, fun _ => true⟩
  head := 16
  cut := position 3 16
  tail := position 3 16
  active := 3
  maxPinned := 1
  now := 0
  planned := ⟨[stalledField], List.nodup_singleton _⟩
  consumers := ⟨[stalledField], List.nodup_singleton _⟩

theorem complete_iff_captured_forcedPair :
    (∀ n ≤ 1, ((forcedPair true).after n).segments = (forcedPair true).disk.segments) ∧
      ∀ n, 1 ≤ n → (forcedPair true).Complete (stalledField, 16) ((forcedPair true).after n) := by
  have hwalks : ∀ id file, (forcedPair true).disk.segmentFile id = some file → file.walks = true := by
    intro id file hfile
    obtain ⟨x, hfind, rfl⟩ := Option.map_eq_some_iff.mp hfile
    have hall : ∀ x ∈ (forcedPair true).disk.segments, x.2.walks = true := by decide
    exact hall x (List.mem_of_find?_eq_some hfind)
  obtain ⟨hkept, hiff⟩ := complete_iff_captured (forcedPair true) (f := (stalledField, 16))
    mem_cons_self (by decide +kernel)
  refine ⟨hkept, hiff.mpr ⟨rfl, Or.inr ⟨?_, Or.inl rfl⟩⟩⟩
  rintro k ⟨id, hid, -, file, hfile, hk⟩
  exact Or.inl ⟨id, hid, file, hfile, hwalks id file hfile, hk⟩

/-- One segment cannot be read, the other can: the record lists the keys of the other only, and
nothing is left to say that a key is missing. -/
theorem unread_segment_is_forgotten :
    (stalledField, 16) ∈ fieldReplayOffsets (forcedPair false).consumers ∧
      (forcedPair false).needs (stalledField, 16) = true ∧
        ((forcedPair false).after 1).gapOf (1, 7) = some
          { namespaceId := 1, fieldId := 7, cause := .backstopReclaim, fromOffset := 16,
            toOffset := position 3 16, missingSegments := [0, 1], detectedAtMs := 0,
            repair := .rowScoped [bytesToHex [98]] } ∧
          (forcedPair false).Lost (stalledField, 16) [97] ∧
            ¬ ∀ n, (forcedPair false).backstopGaps.length ≤ n →
              (forcedPair false).Complete (stalledField, 16) ((forcedPair false).after n) := by
  have hgap : ((forcedPair false).after 1).gapOf (1, 7) = some
      { namespaceId := 1, fieldId := 7, cause := .backstopReclaim, fromOffset := 16,
        toOffset := position 3 16, missingSegments := [0, 1], detectedAtMs := 0,
        repair := .rowScoped [bytesToHex [98]] } := by decide +kernel
  have hlost : (forcedPair false).Lost (stalledField, 16) [97] :=
    ⟨0, by decide +kernel, by decide +kernel, ⟨[(1, [97])], false⟩, rfl, mem_cons_self⟩
  refine ⟨mem_cons_self, by decide +kernel, hgap, hlost, fun h => ?_⟩
  obtain ⟨gap, heq, hcovers, -⟩ := h 1 (by decide +kernel)
  obtain rfl := Option.some.inj (hgap.symm.trans heq)
  exact absurd (hcovers [97] hlost) (by decide +kernel : bytesToHex [97] ∉ [bytesToHex [98]])

end GcPass

end WalGc

end Minnal
