import Minnal.Library.Decimal
import Minnal.Library.StepRun
import Minnal.Lsm.Entry

/-!
# The number of buckets

A key is **routed** to a bucket by its hash modulo the number of buckets, and its value and its
index entry are kept in files of that bucket. The number of buckets is written down nowhere: an open
reads it off the names of the **default namespace's** value-log files, the highest bucket named
there and one, and takes the configured number only where there are no such files.

Files of value logs come and go: an open creates the first segment of each bucket, one after the
other; full or wasted segments are followed by new ones, collected segments are unlinked, and the
metadata is written aside and renamed. The process may end between any two of these steps.

Bucket numbers have 32 bits, and so have the loops over the buckets, but no one checks that the
configured number does not exceed them. Where it does not, everything stored is routed by the
number that is read off the names (`every_open_routes_alike`).
-/

set_option linter.dupNamespace false

namespace Minnal

namespace BucketCount

open ByteCodec Decimal Function Option

/-! ### The names of the files -/

/-- `value_log_`. -/
def logPrefix : Bytes := [0x76, 0x61, 0x6c, 0x75, 0x65, 0x5f, 0x6c, 0x6f, 0x67, 0x5f]

def dot : UInt8 := 0x2e

/-- `str::parse::<u32>`: digits behind an optional plus sign. -/
def parseU32 (text : Bytes) : Option ℕ :=
  let digits := if text.head? = some 0x2b then text.tail else text
  (parseNat digits).filter fun n => n < 2 ^ 32

/-- The bucket a file of a value-log directory names. -/
def bucketOfName (name : Bytes) : Option ℕ :=
  if logPrefix <+: name then parseU32 ((name.drop logPrefix.length).takeWhile (· != dot)) else none

/-- `Database::detect_bucket_count`: the highest bucket that is named and one. -/
def detectBucketCount (names : List Bytes) : ℕ :=
  (names.filterMap bucketOfName).max?.elim 0 (· + 1)

/-- The number of buckets `Database::open` goes on with. -/
def numBuckets (names : List Bytes) (configured : ℕ) : ℕ :=
  let existing := detectBucketCount names
  if 0 < existing ∧ existing ≠ configured then existing else configured

/-- A file of a value-log directory. -/
inductive LogFile where
  | segment (bucket id : ℕ)
  | metadata (bucket : ℕ)
  /-- What `write_atomic_durable` writes before it renames it to the metadata. -/
  | temporary (bucket pid seq : ℕ)
  /-- Metadata that could not be read. -/
  | corrupt (bucket : ℕ)
deriving DecidableEq, Repr

namespace LogFile

def bucket : LogFile → ℕ
  | segment b _ => b
  | metadata b => b
  | temporary b _ _ => b
  | corrupt b => b

/-- A number with at least six digits. -/
def sixDigits (n : ℕ) : Bytes := List.replicate (6 - (printNat n).length) 0x30 ++ printNat n

/-- What stands behind the bucket's number and a dot. -/
def suffix : LogFile → Bytes
  | segment _ id => [0x73, 0x65, 0x67] ++ sixDigits id
  | metadata _ => [0x6d, 0x65, 0x74, 0x61, 0x64, 0x61, 0x74, 0x61]
  | temporary _ pid seq => [0x74, 0x6d, 0x70, dot] ++ printNat pid ++ [dot] ++ printNat seq
  | corrupt _ => [0x63, 0x6f, 0x72, 0x72, 0x75, 0x70, 0x74]

def name (f : LogFile) : Bytes := logPrefix ++ printNat f.bucket ++ [dot] ++ f.suffix

end LogFile

example : detectBucketCount [LogFile.name (.segment 2 7), LogFile.name (.temporary 11 4 0)] =
    12 := by
  decide +kernel

variable {n : ℕ}

theorem parseU32_printNat (hn : n < 2 ^ 32) : parseU32 (printNat n) = some n := by
  have hplus : (printNat n).head? ≠ some 0x2b := by
    intro hhead
    have hdigit := all_isDigit_printNat n _ (List.mem_of_head? hhead)
    exact absurd hdigit (by decide)
  rw [parseU32, if_neg hplus, parseNat_printNat, filter_some, if_pos (decide_eq_true hn)]

variable {f : LogFile}

/-- The name of a file tells its bucket. -/
theorem bucketOfName_name (hf : f.bucket < 2 ^ 32) : bucketOfName f.name = some f.bucket := by
  have hdigits : ∀ b ∈ printNat f.bucket, (b != dot) = true := by
    intro b hb
    rw [bne_iff_ne]
    rintro rfl
    exact absurd (all_isDigit_printNat _ _ hb) (by decide)
  have hname : f.name = logPrefix ++ (printNat f.bucket ++ dot :: f.suffix) := by
    simp [LogFile.name]
  rw [bucketOfName, hname, if_pos (List.prefix_append _ _), List.drop_left,
    List.takeWhile_append_of_pos hdigits, List.takeWhile_cons_of_neg (by decide), List.append_nil,
    parseU32_printNat hf]

/-- The count that files give. -/
def detected (files : List LogFile) : ℕ := detectBucketCount (files.map LogFile.name)

section Detected

variable {files files' : List LogFile}

/-- **The count is the least** above all buckets that are named. -/
theorem detected_le_iff (hfiles : ∀ f ∈ files, f.bucket < 2 ^ 32) :
    detected files ≤ n ↔ ∀ f ∈ files, f.bucket < n := by
  have hbuckets : (files.map LogFile.name).filterMap bucketOfName = files.map LogFile.bucket := by
    rw [List.filterMap_map, ← List.filterMap_eq_map]
    exact List.filterMap_congr fun f hf => bucketOfName_name (hfiles f hf)
  rw [detected, detectBucketCount, hbuckets]
  cases hmax : (files.map LogFile.bucket).max? with
  | none =>
    have hnil : files = [] := List.map_eq_nil_iff.mp (List.max?_eq_none_iff.mp hmax)
    simp [hnil]
  | some b =>
    rw [elim_some, Nat.succ_le_iff, ← List.forall_mem_map (P := (· < n))]
    constructor
    · intro hb c hc
      exact ((List.max?_le_iff hmax).mp (le_refl b) c hc).trans_lt hb
    · intro h
      exact h b (List.max?_mem hmax)

theorem bucket_lt_detected (hfiles : ∀ f ∈ files, f.bucket < 2 ^ 32) (hf : f ∈ files) :
    f.bucket < detected files := (detected_le_iff hfiles).mp le_rfl f hf

/-- Files that come or go change nothing as long as the same buckets are named. -/
theorem detected_congr (hfiles : ∀ f ∈ files, f.bucket < 2 ^ 32)
    (hgone : ∀ f ∈ files, ∃ g ∈ files', g.bucket = f.bucket)
    (hcome : ∀ g ∈ files', ∃ f ∈ files, f.bucket = g.bucket) :
    detected files' = detected files := by
  have hfiles' : ∀ g ∈ files', g.bucket < 2 ^ 32 := by
    intro g hg
    obtain ⟨f, hf, hbucket⟩ := hcome g hg
    exact hbucket ▸ hfiles f hf
  refine eq_of_forall_ge_iff fun n => ?_
  rw [detected_le_iff hfiles, detected_le_iff hfiles']
  constructor
  · intro h f hf
    obtain ⟨g, hg, hbucket⟩ := hgone f hf
    exact hbucket ▸ h g hg
  · intro h g hg
    obtain ⟨f, hf, hbucket⟩ := hcome g hg
    exact hbucket ▸ h f hf

/-- All buckets below a number are named and no other. -/
theorem detected_eq (hn : n ≤ 2 ^ 32) (hbelow : ∀ f ∈ files, f.bucket < n)
    (hall : ∀ b < n, ∃ f ∈ files, f.bucket = b) : detected files = n := by
  have hfiles : ∀ f ∈ files, f.bucket < 2 ^ 32 := fun f hf => (hbelow f hf).trans_le hn
  refine le_antisymm ((detected_le_iff hfiles).mpr hbelow) ?_
  by_contra hlt
  obtain ⟨f, hf, hbucket⟩ := hall (detected files) (not_le.mp hlt)
  exact absurd (bucket_lt_detected hfiles hf) (by omega)

end Detected

/-! ### Keys and their buckets -/

/-- `get_bucket_for_key`: the hash of the key's first bytes modulo the number of buckets, cut to 32
bits. A number of zero panics. -/
def getBucketForKey (murmur3 : Bytes → ℕ) (key : Key) (numBuckets : ℕ) : Option ℕ :=
  if numBuckets = 0 then none
  else some (murmur3 (leBytes 8 (keyPrefixOf key)) % numBuckets % 2 ^ 32)

/-- The bound of the loops over the buckets, `0u32..num_buckets as u32`. -/
def loopBound (numBuckets : ℕ) : ℕ := numBuckets % 2 ^ 32

/-- A place in the value log. -/
structure Pointer where
  bucket : ℕ
  segment : ℕ
deriving DecidableEq, Repr

/-- A record of the value log, with the number of buckets its key was routed by. -/
structure Record where
  key : Key
  place : Pointer
  routedBy : ℕ
deriving DecidableEq, Repr

/-- An entry of the index, with a pointer unless it is a tombstone, and the number of buckets its
key was routed by. -/
structure Entry where
  key : Key
  pointer : Option Pointer
  routedBy : ℕ
deriving DecidableEq, Repr

/-- The files of a namespace: its value-log directory with the records in the segments, and the
entries in the index tables of each bucket. -/
structure Files where
  logs : List LogFile
  records : List Record
  tables : List (ℕ × Entry)
deriving DecidableEq, Repr

/-- An open store: the segment each value log appends to, as far as the logs are open, and the
memtable. -/
structure Store where
  active : List ℕ
  memtable : List Entry
deriving DecidableEq, Repr

inductive Namespace where
  | default
  | system
  | user (id : ℕ)
deriving DecidableEq, Repr

/-- A database that is being opened or, when it is ready, open. -/
structure Engine where
  count : ℕ
  stores : Namespace → Option Store
  ready : Bool

/-- The disk, and the database if a process has it open. -/
structure State where
  /-- The namespaces of the registry file; none before it is written. -/
  registry : List Namespace
  disk : Namespace → Files
  engine : Option Engine

def State.init : State := ⟨[], fun _ => ⟨[], [], []⟩, none⟩

/-! ### Steps -/

namespace Files

/-- The newest segment of a bucket. -/
def newest (files : Files) (bucket : ℕ) : Option ℕ :=
  (files.logs.filterMap fun
    | .segment b id => if b = bucket then some id else none
    | _ => none).max?

/-- Segment ids are handed out in ascending order. -/
def isNew (files : Files) (bucket id : ℕ) : Bool := (files.newest bucket).all (· < id)

def addLog (files : Files) (f : LogFile) : Files := { files with logs := files.logs.insert f }

/-- Rename a file. -/
def moveLog (files : Files) (f g : LogFile) : Files :=
  { files with logs := (files.logs.filter (· != f)).insert g }

/-- Remove a file and the records in it. -/
def removeLog (files : Files) (f : LogFile) : Files :=
  { files with
    logs := files.logs.filter (· != f)
    records := files.records.filter fun r => .segment r.place.bucket r.place.segment != f }

def addRecord (files : Files) (r : Record) : Files := { files with records := r :: files.records }

/-- Remove entries of a bucket's tables. -/
def removeEntries (files : Files) (bucket : ℕ) (p : Entry → Bool) : Files :=
  { files with tables := files.tables.filter fun x => !(x.1 == bucket && p x.2) }

end Files

/-- Change the files and the open store of a namespace. -/
def State.change (s : State) (m : Engine) (ns : Namespace) (files : Files) (st : Store) : State :=
  { s with
    disk := Function.update s.disk ns files
    engine := some { m with stores := Function.update m.stores ns (some st) } }

/-- A step of an open store, if the namespace has one. -/
def State.onStore (s : State) (ns : Namespace) (f : Engine → Store → Option State) : Option State :=
  s.engine.bind fun m => (m.stores ns).bind (f m)

/-- What can happen next. -/
inductive Act where
  /-- `Database::open` starts, with the number of buckets configured this time. -/
  | openDb (configured : ℕ)
  /-- The store of a registered namespace starts to open. -/
  | openStore (ns : Namespace)
  /-- Its next value log opens; its newest segment goes on, or one is created. -/
  | openLog (ns : Namespace) (created : Option ℕ)
  /-- `Database::open` returns. -/
  | opened
  | create (ns : Namespace)
  | drop (ns : Namespace)
  /-- Files of a dropped namespace are removed. -/
  | removeLog (ns : Namespace) (f : LogFile)
  | removeTable (ns : Namespace) (bucket : ℕ)
  /-- Metadata that cannot be read is renamed. -/
  | setAside (ns : Namespace) (bucket : ℕ)
  | writeMetadata (ns : Namespace) (bucket pid seq : ℕ)
  | renameMetadata (ns : Namespace) (bucket pid seq : ℕ)
  /-- A write gets as far as its record. -/
  | append (ns : Namespace) (key : Key)
  | put (ns : Namespace) (key : Key)
  | delete (ns : Namespace) (key : Key)
  /-- A record is copied to the tail of its bucket and the key points there. -/
  | relocate (ns : Namespace) (r : Record)
  /-- A new segment follows the tail, because it is full or to be collected. -/
  | roll (ns : Namespace) (bucket id : ℕ)
  | unlink (ns : Namespace) (bucket id : ℕ)
  /-- The memtable is written out as far as the buckets below a bound. -/
  | flush (ns : Namespace) (bound : ℕ)
  /-- The tables of a bucket are merged, and entries are dropped. -/
  | compact (ns : Namespace) (bucket : ℕ) (dropped : List Entry)
  /-- The process ends. -/
  | crash

section Step

variable (murmur3 : Bytes → ℕ)

/-- Every value log of the store is open. -/
def Engine.isFull (m : Engine) (st : Store) : Bool := st.active.length == loopBound m.count

/-- The place a write of the key appends its record to. -/
def Engine.tail (m : Engine) (st : Store) (key : Key) : Option Pointer :=
  (getBucketForKey murmur3 key m.count).bind fun b => st.active[b]?.map fun id => ⟨b, id⟩

def State.openDb (s : State) (configured : ℕ) : Option State :=
  if s.engine.isSome then none
  else
    let names := (s.disk .default).logs.map LogFile.name
    some { s with
      registry := if s.registry.isEmpty then [.default, .system] else s.registry
      engine := some ⟨numBuckets names configured, fun _ => none, false⟩ }

def State.openStore (s : State) (ns : Namespace) : Option State :=
  s.engine.bind fun m =>
    if ns ∈ s.registry ∧ (m.stores ns).isNone then some (s.change m ns (s.disk ns) ⟨[], []⟩)
    else none

def State.openLog (s : State) (ns : Namespace) (created : Option ℕ) : Option State :=
  s.onStore ns fun m st =>
    let bucket := st.active.length
    if loopBound m.count ≤ bucket then none
    else match created with
      | none => ((s.disk ns).newest bucket).map fun id =>
          s.change m ns (s.disk ns) { st with active := st.active ++ [id] }
      | some id =>
        if (s.disk ns).isNew bucket id then
          some (s.change m ns ((s.disk ns).addLog (.segment bucket id))
            { st with active := st.active ++ [id] })
        else none

def State.opened (s : State) : Option State :=
  s.engine.bind fun m =>
    if s.registry.all fun ns => (m.stores ns).any m.isFull then
      some { s with engine := some { m with ready := true } }
    else none

def State.create (s : State) (ns : Namespace) : Option State :=
  s.engine.bind fun m =>
    if m.ready ∧ ns ∉ s.registry then some { s with registry := s.registry ++ [ns] } else none

/-- The default and the system namespace cannot be dropped. -/
def State.drop (s : State) (ns : Namespace) : Option State :=
  s.engine.bind fun m =>
    if m.ready ∧ ns ∈ s.registry ∧ ns ≠ .default ∧ ns ≠ .system then
      some { s with
        registry := s.registry.filter (· != ns)
        engine := some { m with stores := Function.update m.stores ns none } }
    else none

/-- The files of a namespace that was dropped; it may exist again by then. -/
def State.remove (s : State) (ns : Namespace) (files : Files) : Option State :=
  s.engine.bind fun m =>
    if m.ready ∧ ns ≠ .default ∧ ns ≠ .system then
      some { s with disk := Function.update s.disk ns files }
    else none

/-- A log file of an open bucket is written or renamed. -/
def State.touch (s : State) (ns : Namespace) (bucket : ℕ) (old : Option LogFile) (new : LogFile) :
    Option State :=
  s.onStore ns fun m st =>
    -- The metadata is read, and perhaps set aside, before the bucket's log is open.
    if bucket ≤ st.active.length ∧ bucket < loopBound m.count then
      match old with
      | none =>
        if bucket < st.active.length then some (s.change m ns ((s.disk ns).addLog new) st) else none
      | some f =>
        if f ∈ (s.disk ns).logs then some (s.change m ns ((s.disk ns).moveLog f new) st) else none
    else none

/-- A write of a key: a record at the tail of its bucket, or none for a tombstone, and an entry,
unless the write gets no further than its record. -/
def State.write (s : State) (ns : Namespace) (key : Key) (record entry : Bool) : Option State :=
  s.onStore ns fun m st =>
    if m.ready ∧ m.isFull st then
      (m.tail murmur3 st key).map fun p =>
        s.change m ns
          (if record then (s.disk ns).addRecord ⟨key, p, m.count⟩ else s.disk ns)
          (if entry then
            { st with memtable := ⟨key, if record then some p else none, m.count⟩ :: st.memtable }
          else st)
    else none

def State.relocate (s : State) (ns : Namespace) (r : Record) : Option State :=
  s.onStore ns fun m st =>
    if m.ready ∧ m.isFull st ∧ r ∈ (s.disk ns).records then
      st.active[r.place.bucket]?.map fun id =>
        let p : Pointer := ⟨r.place.bucket, id⟩
        s.change m ns ((s.disk ns).addRecord { r with place := p })
          { st with memtable := ⟨r.key, some p, r.routedBy⟩ :: st.memtable }
    else none

def State.roll (s : State) (ns : Namespace) (bucket id : ℕ) : Option State :=
  s.onStore ns fun m st =>
    if m.ready ∧ bucket < st.active.length ∧ (s.disk ns).isNew bucket id then
      some (s.change m ns ((s.disk ns).addLog (.segment bucket id))
        { st with active := st.active.set bucket id })
    else none

/-- The tail is never unlinked. -/
def State.unlink (s : State) (ns : Namespace) (bucket id : ℕ) : Option State :=
  s.onStore ns fun m st =>
    if m.ready ∧ bucket < st.active.length ∧ st.active[bucket]? ≠ some id then
      some (s.change m ns ((s.disk ns).removeLog (.segment bucket id)) st)
    else none

/-- An entry goes to the tables of its key's bucket. When all buckets are written, the memtable is
done with. -/
def State.flush (s : State) (ns : Namespace) (bound : ℕ) : Option State :=
  s.onStore ns fun m st =>
    if m.ready ∧ m.isFull st then
      let written := st.memtable.filterMap fun e =>
        ((getBucketForKey murmur3 e.key m.count).filter (· < bound)).map fun b => (b, e)
      some (s.change m ns { s.disk ns with tables := written ++ (s.disk ns).tables }
        (if loopBound m.count ≤ bound then { st with memtable := [] } else st))
    else none

def State.compact (s : State) (ns : Namespace) (bucket : ℕ) (dropped : List Entry) :
    Option State :=
  s.onStore ns fun m st =>
    if m.ready ∧ m.isFull st then
      some (s.change m ns ((s.disk ns).removeEntries bucket dropped.contains) st)
    else none

def step (s : State) : Act → Option State
  | .openDb configured => s.openDb configured
  | .openStore ns => s.openStore ns
  | .openLog ns created => s.openLog ns created
  | .opened => s.opened
  | .create ns => s.create ns
  | .drop ns => s.drop ns
  | .removeLog ns f => s.remove ns ((s.disk ns).removeLog f)
  | .removeTable ns bucket => s.remove ns ((s.disk ns).removeEntries bucket fun _ => true)
  | .setAside ns bucket => s.touch ns bucket (some (.metadata bucket)) (.corrupt bucket)
  | .writeMetadata ns bucket pid seq => s.touch ns bucket none (.temporary bucket pid seq)
  | .renameMetadata ns bucket pid seq =>
    s.touch ns bucket (some (.temporary bucket pid seq)) (.metadata bucket)
  | .append ns key => s.write murmur3 ns key true false
  | .put ns key => s.write murmur3 ns key true true
  | .delete ns key => s.write murmur3 ns key false true
  | .relocate ns r => s.relocate ns r
  | .roll ns bucket id => s.roll ns bucket id
  | .unlink ns bucket id => s.unlink ns bucket id
  | .flush ns bound => s.flush murmur3 ns bound
  | .compact ns bucket dropped => s.compact ns bucket dropped
  | .crash => some { s with engine := none }

end Step

/-! ### What is stored is routed alike -/

variable {g : LogFile} {id n' : ℕ} {key : Key} {r : Record}

section Routed

variable (murmur3 : Bytes → ℕ)

/-- The key was routed by `n` buckets, these send it to the bucket it is in, and there is one. -/
structure Routed (n : ℕ) (key : Key) (bucket routedBy : ℕ) : Prop where
  routedBy_eq : routedBy = n
  bucket_eq : getBucketForKey murmur3 key n = some bucket
  exists_log : bucket < loopBound n

structure Entry.IsRouted (n : ℕ) (e : Entry) : Prop where
  key : ∃ b, Routed murmur3 n e.key b e.routedBy
  pointer : ∀ p ∈ e.pointer, Routed murmur3 n e.key p.bucket e.routedBy

/-- Everything in the files of a namespace is in the bucket its key is sent to. -/
structure Files.IsRouted (n : ℕ) (files : Files) : Prop where
  records : ∀ r ∈ files.records, Routed murmur3 n r.key r.place.bucket r.routedBy
  tables : ∀ x ∈ files.tables, Routed murmur3 n x.2.key x.1 x.2.routedBy ∧ x.2.IsRouted murmur3 n

/-- So is everything in the memtable. -/
def Store.IsRouted (n : ℕ) (st : Store) : Prop := ∀ e ∈ st.memtable, e.IsRouted murmur3 n

/-- The count that the default namespace's files give. -/
def State.detected (s : State) : ℕ := BucketCount.detected (s.disk .default).logs

/-- Nothing is stored anywhere. -/
structure State.IsBlank (s : State) : Prop where
  records : ∀ ns, (s.disk ns).records = []
  tables : ∀ ns, (s.disk ns).tables = []
  memtables : ∀ m ∈ s.engine, ∀ ns, ∀ st ∈ m.stores ns, st.memtable = []

/-- The logs of the default namespace that a database has open, and the files of all its logs. -/
structure Named (m : Engine) (logs : List LogFile) (st : Store) : Prop where
  length_le : st.active.length ≤ loopBound m.count
  active : ∀ b id, st.active[b]? = some id → .segment b id ∈ logs

/-- What holds of a database that is open or being opened. -/
structure Engine.Sound (s : State) (m : Engine) : Prop where
  registered : .default ∈ s.registry
  count_le : m.count ≤ 2 ^ 32
  below : ∀ f ∈ (s.disk .default).logs, f.bucket < loopBound m.count
  counted : s.detected = loopBound m.count ∨ m.ready = false ∧ s.IsBlank
  named : ∀ st ∈ m.stores .default, Named m (s.disk .default).logs st
  full : m.ready = true → (m.stores .default).any m.isFull = true
  memtables : ∀ ns, ∀ st ∈ m.stores ns, st.IsRouted murmur3 s.detected

/-- **The invariant**: all that is stored is routed by the number of buckets the files' names
give. -/
structure Sound (s : State) : Prop where
  names : ∀ f ∈ (s.disk .default).logs, f.bucket + 1 < 2 ^ 32
  registry : s.registry = [] ∨ .default ∈ s.registry
  disk : ∀ ns, (s.disk ns).IsRouted murmur3 s.detected
  engine : ∀ m ∈ s.engine, m.Sound murmur3 s

variable {murmur3} {s t : State} {m : Engine} {ns : Namespace} {files : Files} {st st' : Store}
  {n : ℕ}

theorem Sound.init : Sound murmur3 State.init where
  names _ hf := absurd hf List.not_mem_nil
  registry := .inl rfl
  disk _ := ⟨nofun, nofun⟩
  engine _ hm := absurd hm (not_mem_none _)

theorem State.IsBlank.disk_isRouted (h : s.IsBlank) (n : ℕ) (ns : Namespace) :
    (s.disk ns).IsRouted murmur3 n := by
  refine ⟨fun r hr => ?_, fun x hx => ?_⟩
  · rw [h.records] at hr
    exact absurd hr List.not_mem_nil
  · rw [h.tables] at hx
    exact absurd hx List.not_mem_nil

theorem Store.isRouted_of_nil (h : st.memtable = []) (n : ℕ) : st.IsRouted murmur3 n := by
  intro e he
  rw [h] at he
  exact absurd he List.not_mem_nil

/-- A number cut to 32 bits is the number itself, unless nothing is left of it. -/
theorem loopBound_eq (hcount : n ≤ 2 ^ 32) (hpos : 0 < loopBound n) : loopBound n = n := by
  rw [loopBound] at hpos ⊢
  rcases hcount.lt_or_eq with hlt | rfl
  · exact Nat.mod_eq_of_lt hlt
  · omega

/-- The number of buckets that takes effect is the one the files give, if they give one. -/
theorem numBuckets_eq {names : List Bytes} (h : 0 < detectBucketCount names) (configured : ℕ) :
    numBuckets names configured = detectBucketCount names := by
  rw [numBuckets]
  split_ifs with hdiffer
  · rfl
  · by_contra hne
    exact hdiffer ⟨h, Ne.symm hne⟩

/-! ### Changes of one store -/

theorem State.change_disk (ns' : Namespace) :
    (s.change m ns files st).disk ns' = if ns' = ns then files else s.disk ns' :=
  update_apply _ _ _ _

theorem State.mem_change_stores {ns' : Namespace} {m' : Engine}
    (hm' : m' ∈ (s.change m ns files st).engine) (hst' : st' ∈ m'.stores ns') :
    (ns' = ns ∧ st' = st) ∨ (ns' ≠ ns ∧ st' ∈ m.stores ns') := by
  obtain rfl := some.inj hm'
  have hupdate : update m.stores ns (some st) ns' = some st' := hst'
  by_cases hns : ns' = ns
  · rw [hns, update_self] at hupdate
    exact .inl ⟨hns, (some.inj hupdate).symm⟩
  · rw [update_of_ne hns] at hupdate
    exact .inr ⟨hns, hupdate⟩

theorem Engine.isFull_iff : m.isFull st = true ↔ st.active.length = loopBound m.count := beq_iff_eq

/-- A store whose logs are all open stays so. -/
theorem State.any_isFull_change (hfull : (m.stores .default).any m.isFull = true)
    (hgrows : ∀ st₀ ∈ m.stores ns, st₀.active.length ≤ st.active.length)
    (hle : ns = .default → st.active.length ≤ loopBound m.count) :
    (update m.stores ns (some st) .default).any m.isFull = true := by
  by_cases hns : ns = .default
  · subst hns
    obtain ⟨st₀, hst₀, hst₀full⟩ := (any_eq_true _ _).mp hfull
    rw [Engine.isFull_iff] at hst₀full
    rw [update_self, any_some, Engine.isFull_iff]
    exact le_antisymm (hle rfl) (hst₀full ▸ hgrows st₀ hst₀)
  · rwa [update_of_ne (Ne.symm hns)]

/-- What a change of a store adds, while nothing is stored, is nothing. -/
structure AddsNothing (s : State) (m : Engine) (ns : Namespace) (files : Files) (st : Store) :
    Prop where
  records : files.records = (s.disk ns).records
  tables : files.tables = (s.disk ns).tables
  memtable : st.memtable = [] ∨ ∃ st₀ ∈ m.stores ns, st.memtable = st₀.memtable

theorem State.IsBlank.change (h : s.IsBlank) (hm : s.engine = some m)
    (hadds : AddsNothing s m ns files st) : (s.change m ns files st).IsBlank where
  records ns' := by
    rw [change_disk]
    split_ifs with hns
    · rw [hadds.records, h.records]
    · exact h.records ns'
  tables ns' := by
    rw [change_disk]
    split_ifs with hns
    · rw [hadds.tables, h.tables]
    · exact h.tables ns'
  memtables m' hm' ns' st' hst' := by
    rcases mem_change_stores hm' hst' with ⟨rfl, rfl⟩ | ⟨-, hst'⟩
    · rcases hadds.memtable with hnil | ⟨st₀, hst₀, heq⟩
      · exact hnil
      · rw [heq, h.memtables m hm _ st₀ hst₀]
    · exact h.memtables m hm ns' st' hst'

theorem Files.IsRouted.of_eq {files' : Files} (h : files.IsRouted murmur3 n)
    (hrecords : files'.records = files.records) (htables : files'.tables = files.tables) :
    files'.IsRouted murmur3 n :=
  ⟨hrecords ▸ h.records, htables ▸ h.tables⟩

theorem AddsNothing.isRouted (h : Sound murmur3 s) (hm : s.engine = some m)
    (hadds : AddsNothing s m ns files st) :
    files.IsRouted murmur3 s.detected ∧ st.IsRouted murmur3 s.detected := by
  refine ⟨(h.disk ns).of_eq hadds.records hadds.tables, ?_⟩
  rcases hadds.memtable with hnil | ⟨st₀, hst₀, heq⟩
  · exact Store.isRouted_of_nil hnil _
  · intro e he
    exact (h.engine m hm).memtables ns st₀ hst₀ e (heq ▸ he)

/-- **A change of one store** that names the same buckets keeps the invariant. As long as nothing is
stored it may name others, and while the database is being opened it stores nothing. -/
theorem Sound.change (h : Sound murmur3 s) (hm : s.engine = some m)
    (hgrows : ∀ st₀ ∈ m.stores ns, st₀.active.length ≤ st.active.length)
    (hbelow : ns = .default → ∀ f ∈ files.logs, f.bucket < loopBound m.count)
    (hdetected : ns = .default →
      detected files.logs = s.detected ∨ m.ready = false ∧ s.IsBlank)
    (hnamed : ns = .default → Named m files.logs st)
    (hopening : m.ready = false → AddsNothing s m ns files st)
    (hrouted : m.ready = true → s.detected = loopBound m.count →
      files.IsRouted murmur3 s.detected ∧ st.IsRouted murmur3 s.detected) :
    Sound murmur3 (s.change m ns files st) := by
  obtain ⟨hregistered, hcount, hbelow₀, hcounted, hnamed₀, hfull, hmemtables⟩ := h.engine m hm
  have hready : m.ready = true → s.detected = loopBound m.count := by
    intro hr
    rcases hcounted with heq | ⟨hnot, -⟩
    · exact heq
    · rw [hr] at hnot
      cases hnot
  have hstored : files.IsRouted murmur3 s.detected ∧ st.IsRouted murmur3 s.detected := by
    cases hr : m.ready with
    | true => exact hrouted hr (hready hr)
    | false => exact (hopening hr).isRouted h hm
  -- The names give the same count as before, or there is nothing to be routed.
  have hsame : (s.change m ns files st).detected = s.detected ∨
      m.ready = false ∧ (s.change m ns files st).IsBlank := by
    by_cases hns : ns = .default
    · subst hns
      rcases hdetected rfl with heq | ⟨hr, hblank⟩
      · left
        rw [State.detected, State.change_disk, if_pos rfl, heq]
      · exact .inr ⟨hr, hblank.change hm (hopening hr)⟩
    · left
      rw [State.detected, State.change_disk, if_neg (Ne.symm hns), State.detected]
  have hdefault : ∀ f ∈ ((s.change m ns files st).disk .default).logs,
      f.bucket < loopBound m.count := by
    rw [State.change_disk]
    split_ifs with hns
    · exact hbelow hns.symm
    · exact hbelow₀
  refine ⟨fun f hf => ?_, h.registry, fun ns' => ?_, fun m' hm' => ?_⟩
  · have hlt := hdefault f hf
    rw [loopBound] at hlt
    omega
  · rcases hsame with heq | ⟨-, hblank⟩
    · rw [heq, State.change_disk]
      split_ifs with hns
      · exact hstored.1
      · exact h.disk ns'
    · exact hblank.disk_isRouted _ ns'
  · have hm'' := hm'
    obtain rfl := some.inj hm'
    refine ⟨hregistered, hcount, hdefault, ?_, fun st' hst' => ?_, fun hr => ?_,
      fun ns' st' hst' => ?_⟩
    · rcases hsame with heq | hblank
      · rw [heq]
        refine hcounted.imp_right fun ⟨hr, hblank⟩ => ⟨hr, hblank.change hm (hopening hr)⟩
      · exact .inr hblank
    · rw [State.change_disk]
      rcases State.mem_change_stores hm'' hst' with ⟨hns, rfl⟩ | ⟨hns, hst'⟩
      · rw [if_pos hns]
        obtain ⟨hlength, hactive⟩ := hnamed hns.symm
        exact ⟨hlength, hactive⟩
      · rw [if_neg hns]
        obtain ⟨hlength, hactive⟩ := hnamed₀ st' hst'
        exact ⟨hlength, hactive⟩
    · exact State.any_isFull_change (hfull hr) hgrows fun hns => (hnamed hns).length_le
    · rcases hsame with heq | ⟨-, hblank⟩
      · rw [heq]
        rcases State.mem_change_stores hm'' hst' with ⟨rfl, rfl⟩ | ⟨-, hst'⟩
        · exact hstored.2
        · exact hmemtables ns' st' hst'
      · exact Store.isRouted_of_nil (hblank.memtables _ hm'' ns' st' hst') _

theorem State.onStore_eq_some {f : Engine → Store → Option State} (h : s.onStore ns f = some t) :
    ∃ m st, s.engine = some m ∧ m.stores ns = some st ∧ f m st = some t := by
  obtain ⟨m, hm, hstore⟩ := bind_eq_some_iff.mp h
  obtain ⟨st, hst, ht⟩ := bind_eq_some_iff.mp hstore
  exact ⟨m, st, hm, hst, ht⟩

theorem le_of_mem_stores (hst : m.stores ns = some st) (h : st.active.length ≤ st'.active.length) :
    ∀ st₀ ∈ m.stores ns, st₀.active.length ≤ st'.active.length := by
  intro st₀ hst₀
  obtain rfl := some.inj (hst.symm.trans hst₀)
  exact h

/-- A change that leaves the logs alone, once the database is open. -/
theorem Sound.change_content (h : Sound murmur3 s) (hm : s.engine = some m)
    (hst : m.stores ns = some st) (hready : m.ready = true) (hlogs : files.logs = (s.disk ns).logs)
    (hactive : st'.active = st.active)
    (hrouted : s.detected = loopBound m.count →
      files.IsRouted murmur3 s.detected ∧ st'.IsRouted murmur3 s.detected) :
    Sound murmur3 (s.change m ns files st') := by
  refine h.change hm (le_of_mem_stores hst (by rw [hactive])) ?_ ?_ ?_
    (fun hopening => absurd (hready.symm.trans hopening) (by decide)) fun _ => hrouted
  · rintro rfl
    rw [hlogs]
    exact (h.engine m hm).below
  · rintro rfl
    left
    rw [hlogs, State.detected]
  · rintro rfl
    obtain ⟨hlength, hnamed⟩ := (h.engine m hm).named st hst
    refine ⟨hactive ▸ hlength, ?_⟩
    rw [hactive, hlogs]
    exact hnamed

/-- A change of the logs that leaves the same buckets named. -/
theorem Sound.change_logs (h : Sound murmur3 s) (hm : s.engine = some m)
    (hst : m.stores ns = some st) (hlength : st'.active.length = st.active.length)
    (hmemtable : st'.memtable = st.memtable)
    (hgone : ns = .default → ∀ f ∈ (s.disk ns).logs, ∃ g ∈ files.logs, g.bucket = f.bucket)
    (hcome : ns = .default → ∀ g ∈ files.logs, ∃ f ∈ (s.disk ns).logs, f.bucket = g.bucket)
    (hnamed : ns = .default → ∀ b id, st'.active[b]? = some id → .segment b id ∈ files.logs)
    (hopening : m.ready = false → files.records = (s.disk ns).records)
    (hrecords : ∀ r ∈ files.records, r ∈ (s.disk ns).records)
    (htables : files.tables = (s.disk ns).tables) :
    Sound murmur3 (s.change m ns files st') := by
  refine h.change hm (le_of_mem_stores hst hlength.ge) ?_ ?_ ?_ (fun hr => ⟨hopening hr, htables,
    .inr ⟨st, hst, hmemtable⟩⟩) fun _ _ => ⟨⟨fun r hr => ?_, ?_⟩, ?_⟩
  · rintro rfl g hg
    obtain ⟨f, hf, hbucket⟩ := hcome rfl g hg
    exact hbucket ▸ (h.engine m hm).below f hf
  · rintro rfl
    exact .inl (detected_congr (fun f hf => Nat.lt_of_succ_lt (h.names f hf)) (hgone rfl)
      (hcome rfl))
  · rintro rfl
    exact ⟨hlength ▸ ((h.engine m hm).named st hst).length_le, hnamed rfl⟩
  · exact (h.disk ns).records r (hrecords r hr)
  · rw [htables]
    exact (h.disk ns).tables
  · intro e he
    rw [hmemtable] at he
    exact (h.engine m hm).memtables ns st hst e he

/-! ### Every step -/

/-- Names are those of 32-bit buckets. -/
theorem Sound.bucket_lt (h : Sound murmur3 s) : ∀ f ∈ (s.disk .default).logs, f.bucket < 2 ^ 32 :=
  fun f hf => Nat.lt_of_succ_lt (h.names f hf)

theorem Sound.detected_lt (h : Sound murmur3 s) : s.detected < 2 ^ 32 := by
  have hle : s.detected ≤ 2 ^ 32 - 1 := by
    refine (detected_le_iff h.bucket_lt).mpr fun f hf => ?_
    have hlt := h.names f hf
    omega
  omega

/-- Where no buckets are named, nothing is stored. -/
theorem Sound.nothing_stored (h : Sound murmur3 s) (hzero : s.detected = 0) (ns : Namespace) :
    (s.disk ns).records = [] ∧ (s.disk ns).tables = [] := by
  have hdisk := h.disk ns
  rw [hzero] at hdisk
  exact ⟨List.eq_nil_iff_forall_not_mem.mpr fun r hr =>
      absurd (hdisk.records r hr).exists_log (Nat.not_lt_zero _),
    List.eq_nil_iff_forall_not_mem.mpr fun x hx =>
      absurd (hdisk.tables x hx).1.exists_log (Nat.not_lt_zero _)⟩

/-- **An open** goes on with the number that the names give; where they give none, nothing is
stored. -/
theorem Sound.openDb {configured : ℕ} (h : Sound murmur3 s)
    (hconfigured : numBuckets ((s.disk .default).logs.map LogFile.name) configured ≤ 2 ^ 32)
    (ht : s.openDb configured = some t) : Sound murmur3 t := by
  obtain ⟨-, heq⟩ := ite_none_left_eq_some.mp ht
  obtain rfl := some.inj heq
  have hregistered : Namespace.default ∈
      (if s.registry.isEmpty then [.default, .system] else s.registry) := by
    split_ifs with hempty
    · exact List.mem_cons_self
    · exact h.registry.resolve_left fun hnil => hempty (by rw [hnil, List.isEmpty_nil])
  have hcount : 0 < s.detected →
      loopBound (numBuckets ((s.disk .default).logs.map LogFile.name) configured) = s.detected := by
    intro hpos
    rw [numBuckets_eq hpos, loopBound]
    exact Nat.mod_eq_of_lt h.detected_lt
  refine ⟨h.names, .inr hregistered, h.disk, fun m hm => ?_⟩
  obtain rfl := some.inj hm
  refine ⟨hregistered, hconfigured, fun f hf => ?_, ?_, fun st hst => (by cases hst),
    fun hr => absurd hr Bool.false_ne_true, fun ns st hst => (by cases hst)⟩
  · have hlt : f.bucket < s.detected := bucket_lt_detected h.bucket_lt hf
    rw [hcount (Nat.zero_lt_of_lt hlt)]
    exact hlt
  · rcases Nat.eq_zero_or_pos s.detected with hzero | hpos
    · refine .inr ⟨rfl, fun ns => (h.nothing_stored hzero ns).1,
        fun ns => (h.nothing_stored hzero ns).2, fun m hm ns st hst => ?_⟩
      obtain rfl := some.inj hm
      cases hst
    · exact .inl (hcount hpos).symm

theorem Sound.openStore (h : Sound murmur3 s) (ht : s.openStore ns = some t) :
    Sound murmur3 t := by
  obtain ⟨m, hm, hstep⟩ := bind_eq_some_iff.mp ht
  obtain ⟨⟨-, hnone⟩, rfl⟩ := ite_some_none_eq_some.mp hstep
  have hnostore : m.stores ns = none := isNone_iff_eq_none.mp hnone
  refine h.change hm (fun st₀ hst₀ => ?_) ?_ ?_ ?_ (fun _ => ⟨rfl, rfl, .inl rfl⟩)
    fun _ _ => ⟨h.disk ns, Store.isRouted_of_nil rfl _⟩
  · rw [hnostore] at hst₀
    cases hst₀
  · rintro rfl
    exact (h.engine m hm).below
  · rintro rfl
    exact .inl rfl
  · rintro rfl
    exact ⟨Nat.zero_le _, fun b id hid => by cases hid⟩

theorem mem_addLog : f ∈ (files.addLog g).logs ↔ f = g ∨ f ∈ files.logs :=
  List.mem_insert_iff

theorem mem_moveLog {g' : LogFile} :
    f ∈ (files.moveLog g g').logs ↔ f = g' ∨ f ∈ files.logs ∧ f ≠ g := by
  rw [Files.moveLog, List.mem_insert_iff, List.mem_filter, bne_iff_ne]

theorem Files.of_newest {bucket : ℕ} (h : files.newest bucket = some id) :
    .segment bucket id ∈ files.logs := by
  obtain ⟨f, hf, hid⟩ := List.mem_filterMap.mp (List.max?_mem h)
  cases f with
  | segment b i =>
    obtain ⟨rfl, rfl⟩ := ite_some_none_eq_some.mp hid
    exact hf
  | metadata | temporary | corrupt => cases hid

/-- A log that opens is the next one, and its segment is there. -/
theorem Named.concat {logs logs' : List LogFile} (h : Named m logs st)
    (hlt : st.active.length < loopBound m.count) (hlogs : ∀ f ∈ logs, f ∈ logs')
    (hid : .segment st.active.length id ∈ logs') :
    Named m logs' { st with active := st.active ++ [id] } := by
  refine ⟨by rw [List.length_append]; exact hlt, fun b i hi => ?_⟩
  rcases lt_trichotomy b st.active.length with hb | rfl | hb
  · rw [List.getElem?_append_left hb] at hi
    exact hlogs _ (h.active b i hi)
  · rw [List.getElem?_concat_length, some.injEq] at hi
    exact hi ▸ hid
  · rw [List.getElem?_eq_none (by rw [List.length_append]; exact hb)] at hi
    cases hi

/-- A file of a bucket below the count does not change it. -/
theorem Sound.detected_addLog (h : Sound murmur3 s) (hf : f.bucket < s.detected) :
    detected ((s.disk .default).addLog f).logs = s.detected := by
  have hall : ∀ g ∈ ((s.disk .default).addLog f).logs, g.bucket < 2 ^ 32 := by
    intro g hg
    rcases mem_addLog.mp hg with rfl | hg
    · exact hf.trans h.detected_lt
    · exact h.bucket_lt g hg
  refine le_antisymm ((detected_le_iff hall).mpr fun g hg => ?_)
    ((detected_le_iff h.bucket_lt).mpr fun g hg => ?_)
  · rcases mem_addLog.mp hg with rfl | hg
    · exact hf
    · exact bucket_lt_detected h.bucket_lt hg
  · exact bucket_lt_detected hall (mem_addLog.mpr (.inr hg))

/-- **A value log opens.** The file created for it adds to the count only before anything is
stored. -/
theorem Sound.openLog {created : Option ℕ} (h : Sound murmur3 s)
    (ht : s.openLog ns created = some t) : Sound murmur3 t := by
  obtain ⟨m, st, hm, hst, hstep⟩ := State.onStore_eq_some ht
  have hmemtable : st.IsRouted murmur3 s.detected := (h.engine m hm).memtables ns st hst
  simp only at hstep
  split_ifs at hstep with hlast
  have hlt : st.active.length < loopBound m.count := not_le.mp hlast
  have hgrows : ∀ id : ℕ, st.active.length ≤ (st.active ++ [id]).length := fun id => by simp
  cases created with
  | none =>
    obtain ⟨id, hid, rfl⟩ := map_eq_some_iff.mp hstep
    refine h.change hm (le_of_mem_stores hst (hgrows id)) ?_ ?_ ?_
      (fun _ => ⟨rfl, rfl, .inr ⟨st, hst, rfl⟩⟩) fun _ _ => ⟨h.disk ns, hmemtable⟩
    · rintro rfl
      exact (h.engine m hm).below
    · rintro rfl
      exact .inl rfl
    · rintro rfl
      exact ((h.engine m hm).named st hst).concat hlt (fun _ hf => hf) (Files.of_newest hid)
  | some id =>
    obtain ⟨-, rfl⟩ := ite_some_none_eq_some.mp hstep
    refine h.change hm (le_of_mem_stores hst (hgrows id)) ?_ ?_ ?_
      (fun _ => ⟨rfl, rfl, .inr ⟨st, hst, rfl⟩⟩)
      fun _ _ => ⟨(h.disk ns).of_eq rfl rfl, hmemtable⟩
    · rintro rfl f hf
      rcases mem_addLog.mp hf with rfl | hf
      · exact hlt
      · exact (h.engine m hm).below f hf
    · rintro rfl
      rcases (h.engine m hm).counted with heq | hblank
      · exact .inl (h.detected_addLog (heq ▸ hlt))
      · exact .inr hblank
    · rintro rfl
      exact ((h.engine m hm).named st hst).concat hlt (fun f hf => mem_addLog.mpr (.inr hf))
        (mem_addLog.mpr (.inl rfl))

/-- **The open returns** once all logs of the default namespace are open: they name all buckets. -/
theorem Sound.opened (h : Sound murmur3 s) (ht : s.opened = some t) : Sound murmur3 t := by
  obtain ⟨m, hm, hstep⟩ := bind_eq_some_iff.mp ht
  obtain ⟨hall, rfl⟩ := ite_some_none_eq_some.mp hstep
  obtain ⟨hregistered, hcount, hbelow, -, hnamed, -, hmemtables⟩ := h.engine m hm
  have hfull : (m.stores .default).any m.isFull = true := List.all_eq_true.mp hall _ hregistered
  obtain ⟨st, hst, hstfull⟩ := (any_eq_true _ _).mp hfull
  have hactive := (hnamed st hst).active
  have hdetected : s.detected = loopBound m.count := by
    refine detected_eq (Nat.mod_lt _ (by decide)).le hbelow fun b hb => ?_
    rw [← Engine.isFull_iff.mp hstfull] at hb
    exact ⟨_, hactive b _ (List.getElem?_eq_getElem hb), rfl⟩
  refine ⟨h.names, h.registry, h.disk, fun m' hm' => ?_⟩
  obtain rfl := some.inj hm'
  exact ⟨hregistered, hcount, hbelow, .inl hdetected,
    fun st hst => ⟨(hnamed st hst).length_le, (hnamed st hst).active⟩, fun _ => hfull, hmemtables⟩

theorem Sound.create (h : Sound murmur3 s) (ht : s.create ns = some t) : Sound murmur3 t := by
  obtain ⟨m, hm, hstep⟩ := bind_eq_some_iff.mp ht
  obtain ⟨-, rfl⟩ := ite_some_none_eq_some.mp hstep
  refine ⟨h.names, ?_, h.disk, fun m' hm' => ?_⟩
  · exact .inr (List.mem_append_left _ (h.engine m hm).registered)
  · obtain ⟨hregistered, hcount, hbelow, hcounted, hnamed, hfull, hmemtables⟩ := h.engine m' hm'
    exact ⟨List.mem_append_left _ hregistered, hcount, hbelow,
      hcounted.imp_right fun ⟨hr, hblank⟩ => ⟨hr, hblank.records, hblank.tables, hblank.memtables⟩,
      hnamed, hfull, hmemtables⟩

/-- The default namespace is never dropped. -/
theorem Sound.drop (h : Sound murmur3 s) (ht : s.drop ns = some t) : Sound murmur3 t := by
  obtain ⟨m, hm, hstep⟩ := bind_eq_some_iff.mp ht
  obtain ⟨⟨hready, -, hdefault, -⟩, rfl⟩ := ite_some_none_eq_some.mp hstep
  obtain ⟨hregistered, hcount, hbelow, hcounted, hnamed, hfull, hmemtables⟩ := h.engine m hm
  have hregistered' : Namespace.default ∈ s.registry.filter (· != ns) :=
    List.mem_filter.mpr ⟨hregistered, bne_iff_ne.mpr (Ne.symm hdefault)⟩
  have hstores : update m.stores ns none .default = m.stores .default :=
    update_of_ne (Ne.symm hdefault) _ _
  refine ⟨h.names, .inr hregistered', h.disk, fun m' hm' => ?_⟩
  obtain rfl := some.inj hm'
  refine ⟨hregistered', hcount, hbelow, ?_, fun st hst => ?_, fun _ => ?_,
    fun ns' st hst => ?_⟩
  · exact hcounted.imp_right fun ⟨hnot, _⟩ => absurd (hready.symm.trans hnot) (by decide)
  · have hst' := hnamed st (hstores ▸ hst)
    exact ⟨hst'.length_le, hst'.active⟩
  · exact (congrArg (fun o : Option Store => o.any m.isFull) hstores).trans (hfull hready)
  · have hupdate : update m.stores ns none ns' = some st := hst
    by_cases hns : ns' = ns
    · rw [hns, update_self] at hupdate
      cases hupdate
    · rw [update_of_ne hns] at hupdate
      exact hmemtables ns' st hupdate

theorem Sound.remove (h : Sound murmur3 s) (hfiles : files.IsRouted murmur3 s.detected)
    (ht : s.remove ns files = some t) : Sound murmur3 t := by
  obtain ⟨m, hm, hstep⟩ := bind_eq_some_iff.mp ht
  obtain ⟨⟨hready, hdefault, -⟩, heq⟩ := ite_none_right_eq_some.mp hstep
  have htarget := some.inj heq
  have hregistry : t.registry = s.registry := by rw [← htarget]
  have hengine : t.engine = s.engine := by rw [← htarget]
  have hdisk : t.disk = update s.disk ns files := by rw [← htarget]
  have hlogs : t.disk .default = s.disk .default := by
    rw [hdisk, update_of_ne (Ne.symm hdefault)]
  have hdetected : t.detected = s.detected := by rw [State.detected, hlogs, State.detected]
  refine ⟨hlogs ▸ h.names, hregistry ▸ h.registry, fun ns' => ?_, fun m' hm' => ?_⟩
  · rw [hdetected, hdisk, update_apply]
    split_ifs
    · exact hfiles
    · exact h.disk ns'
  · rw [hengine] at hm'
    obtain ⟨hregistered, hcount, hbelow, hcounted, hnamed, hfull, hmemtables⟩ := h.engine m' hm'
    obtain rfl := some.inj (hm.symm.trans hm')
    refine ⟨hregistry ▸ hregistered, hcount, hlogs ▸ hbelow, ?_, hlogs ▸ hnamed, hfull,
      hdetected ▸ hmemtables⟩
    rw [hdetected]
    exact hcounted.imp_right fun ⟨hnot, _⟩ => absurd (hready.symm.trans hnot) (by decide)

theorem Files.IsRouted.removeLog (h : files.IsRouted murmur3 n) :
    (files.removeLog f).IsRouted murmur3 n :=
  ⟨fun r hr => h.records r (List.mem_of_mem_filter hr), h.tables⟩

theorem Files.IsRouted.removeEntries {bucket : ℕ} {p : Entry → Bool}
    (h : files.IsRouted murmur3 n) : (files.removeEntries bucket p).IsRouted murmur3 n :=
  ⟨h.records, fun x hx => h.tables x (List.mem_of_mem_filter hx)⟩

/-- **A file written or renamed** names a bucket that its directory names anyway. -/
theorem Sound.touch {bucket : ℕ} {old : Option LogFile} {new : LogFile} (h : Sound murmur3 s)
    (ht : s.touch ns bucket old new = some t) (hnew : new.bucket = bucket)
    (hold : ∀ f ∈ old, f.bucket = bucket ∧ ∀ b id, f ≠ .segment b id) : Sound murmur3 t := by
  obtain ⟨m, st, hm, hst, hstep⟩ := State.onStore_eq_some ht
  obtain ⟨-, hstep⟩ := ite_none_right_eq_some.mp hstep
  have hnamed : ns = .default → ∀ b id, st.active[b]? = some id →
      .segment b id ∈ (s.disk ns).logs := by
    rintro rfl
    exact ((h.engine m hm).named st hst).active
  cases old with
  | none =>
    obtain ⟨hlt, rfl⟩ := ite_some_none_eq_some.mp hstep
    refine h.change_logs hm hst rfl rfl (fun _ f hf => ?_) (fun hns f hf => ?_)
      (fun hns b id hid => ?_) (fun _ => rfl) (fun _ hr => hr) rfl
    · exact ⟨f, mem_addLog.mpr (.inr hf), rfl⟩
    · rcases mem_addLog.mp hf with rfl | hf
      · exact ⟨_, hnamed hns bucket _ (List.getElem?_eq_getElem hlt), hnew.symm⟩
      · exact ⟨f, hf, rfl⟩
    · exact mem_addLog.mpr (.inr (hnamed hns b id hid))
  | some g =>
    obtain ⟨hmem, rfl⟩ := ite_some_none_eq_some.mp hstep
    obtain ⟨hbucket, hother⟩ := hold g rfl
    refine h.change_logs hm hst rfl rfl (fun _ f hf => ?_) (fun _ f hf => ?_)
      (fun hns b id hid => ?_) (fun _ => rfl) (fun _ hr => hr) rfl
    · by_cases hfg : f = g
      · exact ⟨new, mem_moveLog.mpr (.inl rfl), by rw [hnew, hfg, hbucket]⟩
      · exact ⟨f, mem_moveLog.mpr (.inr ⟨hf, hfg⟩), rfl⟩
    · rcases mem_moveLog.mp hf with rfl | ⟨hf, -⟩
      · exact ⟨g, hmem, by rw [hnew, hbucket]⟩
      · exact ⟨f, hf, rfl⟩
    · exact mem_moveLog.mpr (.inr ⟨hnamed hns b id hid, (hother b id).symm⟩)

/-- **A roll** adds a segment to a bucket that has one. -/
theorem Sound.roll {bucket : ℕ} (h : Sound murmur3 s) (ht : s.roll ns bucket id = some t) :
    Sound murmur3 t := by
  obtain ⟨m, st, hm, hst, hstep⟩ := State.onStore_eq_some ht
  obtain ⟨⟨-, hlt, -⟩, rfl⟩ := ite_some_none_eq_some.mp hstep
  have hnamed : ns = .default → ∀ b id, st.active[b]? = some id →
      .segment b id ∈ (s.disk ns).logs := by
    rintro rfl
    exact ((h.engine m hm).named st hst).active
  refine h.change_logs hm hst List.length_set rfl (fun _ f hf => ?_) (fun hns f hf => ?_)
    (fun hns b i hi => ?_) (fun _ => rfl) (fun _ hr => hr) rfl
  · exact ⟨f, mem_addLog.mpr (.inr hf), rfl⟩
  · rcases mem_addLog.mp hf with rfl | hf
    · exact ⟨_, hnamed hns bucket _ (List.getElem?_eq_getElem hlt), rfl⟩
    · exact ⟨f, hf, rfl⟩
  · by_cases hb : bucket = b
    · subst hb
      rw [List.getElem?_set_self hlt, some.injEq] at hi
      exact mem_addLog.mpr (.inl (by rw [hi]))
    · rw [List.getElem?_set_ne hb] at hi
      exact mem_addLog.mpr (.inr (hnamed hns b i hi))

/-- **An unlink** leaves its bucket's tail behind. -/
theorem Sound.unlink {bucket : ℕ} (h : Sound murmur3 s) (ht : s.unlink ns bucket id = some t) :
    Sound murmur3 t := by
  obtain ⟨m, st, hm, hst, hstep⟩ := State.onStore_eq_some ht
  obtain ⟨⟨hready, hlt, hother⟩, rfl⟩ := ite_some_none_eq_some.mp hstep
  have hleft : ∀ f, f ∈ ((s.disk ns).removeLog (.segment bucket id)).logs ↔
      f ∈ (s.disk ns).logs ∧ f ≠ .segment bucket id := by
    intro f
    rw [Files.removeLog, List.mem_filter, bne_iff_ne]
  have htail : ∀ b i, st.active[b]? = some i → LogFile.segment b i ≠ .segment bucket id := by
    rintro b i hi heq
    obtain ⟨rfl, rfl⟩ := LogFile.segment.inj heq
    exact hother hi
  have hnamed : ns = .default → ∀ b i, st.active[b]? = some i →
      .segment b i ∈ ((s.disk ns).removeLog (.segment bucket id)).logs := by
    rintro rfl b i hi
    exact (hleft _).mpr ⟨((h.engine m hm).named st hst).active b i hi, htail b i hi⟩
  refine h.change_logs hm hst rfl rfl (fun hns f hf => ?_) (fun _ f hf => ?_) hnamed
    (fun hopening => absurd (hready.symm.trans hopening) (by decide))
    (fun r hr => List.mem_of_mem_filter hr) rfl
  · by_cases hf' : f = .segment bucket id
    · exact ⟨_, hnamed hns bucket _ (List.getElem?_eq_getElem hlt), by rw [hf']; rfl⟩
    · exact ⟨f, (hleft f).mpr ⟨hf, hf'⟩, rfl⟩
  · exact ⟨f, ((hleft f).mp hf).1, rfl⟩

/-- A number that has a bucket is not cut. -/
theorem Engine.Sound.count_eq (h : m.Sound murmur3 s) (heq : s.detected = loopBound m.count)
    {b : ℕ} (hb : b < loopBound m.count) : m.count = s.detected := by
  rw [heq, loopBound_eq h.count_le (Nat.zero_lt_of_lt hb)]

/-- The tail a key is sent to is in the key's bucket. -/
theorem Engine.routed_of_tail {p : Pointer} (h : m.Sound murmur3 s)
    (hdetected : s.detected = loopBound m.count) (hfull : m.isFull st = true)
    (hp : m.tail murmur3 st key = some p) : Routed murmur3 s.detected key p.bucket m.count := by
  obtain ⟨b, hb, htail⟩ := bind_eq_some_iff.mp hp
  obtain ⟨id, hid, rfl⟩ := map_eq_some_iff.mp htail
  obtain ⟨hlt, -⟩ := List.getElem?_eq_some_iff.mp hid
  rw [Engine.isFull_iff.mp hfull] at hlt
  have hcount := h.count_eq hdetected hlt
  exact ⟨hcount, hcount ▸ hb, by rwa [← hcount]⟩

theorem Files.IsRouted.addRecord (h : files.IsRouted murmur3 n)
    (hr : Routed murmur3 n r.key r.place.bucket r.routedBy) :
    (files.addRecord r).IsRouted murmur3 n :=
  ⟨List.forall_mem_cons.mpr ⟨hr, h.records⟩, h.tables⟩

theorem Store.IsRouted.cons {e : Entry} (h : st.IsRouted murmur3 n) (he : e.IsRouted murmur3 n) :
    Store.IsRouted murmur3 n { st with memtable := e :: st.memtable } :=
  List.forall_mem_cons.mpr ⟨he, h⟩

/-- **A write** goes to the bucket its key is sent to. -/
theorem Sound.write {record entry : Bool} (h : Sound murmur3 s)
    (ht : s.write murmur3 ns key record entry = some t) : Sound murmur3 t := by
  obtain ⟨m, st, hm, hst, hstep⟩ := State.onStore_eq_some ht
  obtain ⟨⟨hready, hfull⟩, hstep⟩ := ite_none_right_eq_some.mp hstep
  obtain ⟨p, hp, rfl⟩ := map_eq_some_iff.mp hstep
  refine h.change_content hm hst hready (by cases record <;> rfl) (by cases entry <;> rfl)
    fun hdetected => ?_
  have hrouted : Routed murmur3 s.detected key p.bucket m.count :=
    Engine.routed_of_tail (h.engine m hm) hdetected hfull hp
  have hmemtable : st.IsRouted murmur3 s.detected := (h.engine m hm).memtables ns st hst
  constructor
  · cases record with
    | false => exact h.disk ns
    | true => exact (h.disk ns).addRecord hrouted
  · cases entry with
    | false => exact hmemtable
    | true =>
      refine hmemtable.cons ⟨⟨_, hrouted⟩, fun p' hp' => ?_⟩
      cases record with
      | false => cases hp'
      | true =>
        obtain rfl := some.inj hp'
        exact hrouted

/-- **A relocation** stays in its record's bucket. -/
theorem Sound.relocate (h : Sound murmur3 s) (ht : s.relocate ns r = some t) : Sound murmur3 t := by
  obtain ⟨m, st, hm, hst, hstep⟩ := State.onStore_eq_some ht
  obtain ⟨⟨hready, -, hmem⟩, hstep⟩ := ite_none_right_eq_some.mp hstep
  obtain ⟨id, -, rfl⟩ := map_eq_some_iff.mp hstep
  refine h.change_content hm hst hready rfl rfl fun _ => ?_
  have hrouted := (h.disk ns).records r hmem
  have hmemtable : st.IsRouted murmur3 s.detected := (h.engine m hm).memtables ns st hst
  refine ⟨(h.disk ns).addRecord hrouted, hmemtable.cons ⟨⟨_, hrouted⟩, fun p hp => ?_⟩⟩
  obtain rfl := some.inj hp
  exact hrouted

/-- **A flush** writes each entry into the tables of its key's bucket. -/
theorem Sound.flush {bound : ℕ} (h : Sound murmur3 s) (ht : s.flush murmur3 ns bound = some t) :
    Sound murmur3 t := by
  obtain ⟨m, st, hm, hst, hstep⟩ := State.onStore_eq_some ht
  obtain ⟨⟨hready, -⟩, rfl⟩ := ite_some_none_eq_some.mp hstep
  have hmemtable : st.IsRouted murmur3 s.detected := (h.engine m hm).memtables ns st hst
  refine h.change_content hm hst hready rfl (by split_ifs <;> rfl) fun hdetected =>
    ⟨⟨(h.disk ns).records, fun x hx => ?_⟩, ?_⟩
  · rcases List.mem_append.mp hx with hx | hx
    · obtain ⟨e, he, hwritten⟩ := List.mem_filterMap.mp hx
      obtain ⟨b, hb, rfl⟩ := map_eq_some_iff.mp hwritten
      obtain ⟨hb, -⟩ := filter_eq_some_iff.mp hb
      obtain ⟨b', hrouted⟩ := (hmemtable e he).key
      have hlt : b' < loopBound m.count := by
        have := hrouted.exists_log
        rw [hdetected, loopBound, loopBound, Nat.mod_mod] at this
        exact this
      rw [(h.engine m hm).count_eq hdetected hlt] at hb
      obtain rfl := some.inj (hrouted.bucket_eq.symm.trans hb)
      exact ⟨hrouted, hmemtable e he⟩
    · exact (h.disk ns).tables x hx
  · split_ifs
    · exact Store.isRouted_of_nil rfl _
    · exact hmemtable

theorem Sound.compact {bucket : ℕ} {dropped : List Entry} (h : Sound murmur3 s)
    (ht : s.compact ns bucket dropped = some t) : Sound murmur3 t := by
  obtain ⟨m, st, hm, hst, hstep⟩ := State.onStore_eq_some ht
  obtain ⟨⟨hready, -⟩, rfl⟩ := ite_some_none_eq_some.mp hstep
  exact h.change_content hm hst hready rfl rfl fun _ =>
    ⟨(h.disk ns).removeEntries, (h.engine m hm).memtables ns st hst⟩

/-- The number that an open takes has at most 32 bits and a carry. -/
def Act.withinLimit (s : State) : Act → Bool
  | .openDb configured =>
    decide (numBuckets ((s.disk .default).logs.map LogFile.name) configured ≤ 2 ^ 32)
  | _ => true

/-- **Every step** keeps the invariant. -/
theorem Sound.step {a : Act} (h : Sound murmur3 s) (ha : a.withinLimit s = true)
    (ht : step murmur3 s a = some t) : Sound murmur3 t := by
  cases a with
  | openDb configured => exact h.openDb (of_decide_eq_true ha) ht
  | openStore ns => exact h.openStore ht
  | openLog ns created => exact h.openLog ht
  | opened => exact h.opened ht
  | create ns => exact h.create ht
  | drop ns => exact h.drop ht
  | removeLog ns f => exact h.remove (h.disk ns).removeLog ht
  | removeTable ns bucket => exact h.remove (h.disk ns).removeEntries ht
  | setAside ns bucket =>
    have ht' : s.touch ns bucket (some (.metadata bucket)) (.corrupt bucket) = some t := ht
    refine h.touch ht' rfl fun f hf => ?_
    obtain rfl := some.inj hf
    exact ⟨rfl, fun b id heq => by cases heq⟩
  | writeMetadata ns bucket pid seq =>
    have ht' : s.touch ns bucket none (.temporary bucket pid seq) = some t := ht
    exact h.touch ht' rfl fun f hf => absurd hf (not_mem_none f)
  | renameMetadata ns bucket pid seq =>
    have ht' : s.touch ns bucket (some (.temporary bucket pid seq)) (.metadata bucket) = some t :=
      ht
    refine h.touch ht' rfl fun f hf => ?_
    obtain rfl := some.inj hf
    exact ⟨rfl, fun b id heq => by cases heq⟩
  | append ns key | put ns key | delete ns key => exact h.write ht
  | relocate ns r => exact h.relocate ht
  | roll ns bucket id => exact h.roll ht
  | unlink ns bucket id => exact h.unlink ht
  | flush ns bound => exact h.flush ht
  | compact ns bucket dropped => exact h.compact ht
  | crash =>
    obtain rfl := some.inj ht
    exact ⟨h.names, h.registry, h.disk, fun m hm => absurd hm (not_mem_none m)⟩

/-! ### Every open -/

variable (murmur3) in
/-- Everything stored, in files and in memory, is routed by `n` buckets. -/
structure State.IsRoutedBy (s : State) (n : ℕ) : Prop where
  disk : ∀ ns, (s.disk ns).IsRouted murmur3 n
  memtables : ∀ m ∈ s.engine, ∀ ns, ∀ st ∈ m.stores ns, st.IsRouted murmur3 n

variable (murmur3) in
/-- **One number of buckets**: the one the default namespace's files give is the one all that is
stored was routed by; a database that is open uses it, and so does every open to come, whatever is
configured then. -/
structure State.RoutesAlike (s : State) : Prop where
  detected : s.IsRoutedBy murmur3 s.detected
  engine : ∀ m ∈ s.engine, s.IsRoutedBy murmur3 m.count
  next : s.engine = none → ∀ configured,
    s.IsRoutedBy murmur3 (numBuckets ((s.disk .default).logs.map LogFile.name) configured)

theorem Files.IsRouted.imp (h : files.IsRouted murmur3 n)
    (himp : ∀ {key bucket routedBy}, Routed murmur3 n key bucket routedBy →
      Routed murmur3 n' key bucket routedBy) : files.IsRouted murmur3 n' :=
  ⟨fun r hr => himp (h.records r hr), fun x hx => ⟨himp (h.tables x hx).1,
    (h.tables x hx).2.key.imp fun _ => himp, fun p hp => himp ((h.tables x hx).2.pointer p hp)⟩⟩

theorem Store.IsRouted.imp (h : st.IsRouted murmur3 n)
    (himp : ∀ {key bucket routedBy}, Routed murmur3 n key bucket routedBy →
      Routed murmur3 n' key bucket routedBy) : st.IsRouted murmur3 n' :=
  fun e he => ⟨(h e he).key.imp fun _ => himp, fun p hp => himp ((h e he).pointer p hp)⟩

/-- What the invariant says of the number of buckets in use. -/
theorem Sound.routesAlike (h : Sound murmur3 s) : s.RoutesAlike murmur3 := by
  have hmemtables : ∀ m ∈ s.engine, ∀ ns, ∀ st ∈ m.stores ns, st.IsRouted murmur3 s.detected :=
    fun m hm => (h.engine m hm).memtables
  refine ⟨⟨h.disk, hmemtables⟩, fun m hm => ?_, fun hclosed configured => ?_⟩
  · obtain heq | ⟨-, hblank⟩ := (h.engine m hm).counted
    · have himp : ∀ {key bucket routedBy}, Routed murmur3 s.detected key bucket routedBy →
          Routed murmur3 m.count key bucket routedBy := by
        intro key bucket routedBy hrouted
        have hpos : 0 < loopBound m.count := by
          have hlog := hrouted.exists_log
          rw [heq, loopBound, loopBound, Nat.mod_mod] at hlog
          exact Nat.zero_lt_of_lt hlog
        rw [(h.engine m hm).count_eq heq hpos]
        exact hrouted
      refine ⟨fun ns => (h.disk ns).imp himp, fun m' hm' ns st hst => ?_⟩
      exact Store.IsRouted.imp (hmemtables m' hm' ns st hst) himp
    · exact ⟨fun ns => hblank.disk_isRouted _ ns,
        fun m' hm' ns st hst => Store.isRouted_of_nil (hblank.memtables m' hm' ns st hst) _⟩
  · refine ⟨fun ns => ?_, fun m hm => ?_⟩
    · rcases Nat.eq_zero_or_pos s.detected with hzero | hpos
      · obtain ⟨hrecords, htables⟩ := h.nothing_stored hzero ns
        refine ⟨fun r hr => ?_, fun x hx => ?_⟩
        · rw [hrecords] at hr
          cases hr
        · rw [htables] at hx
          cases hx
      · rw [numBuckets_eq hpos]
        exact h.disk ns
    · rw [hclosed] at hm
      cases hm

/-- **Every open uses the number of buckets all keys were routed by.** In a run of opens with any
numbers configured, writes, flushes, merges, rolls, unlinks and renames, with the process ending
anywhere, what is stored is always in the bucket that its key is sent to, as long as no open takes
a number beyond 32 bits and a carry. -/
theorem every_open_routes_alike (murmur3 : Bytes → ℕ) {acts : List Act} {s : State}
    (hrun : StepRun.run (BucketCount.step murmur3) State.init acts = some s)
    (hlimit : StepRun.along (BucketCount.step murmur3) (fun s a => a.withinLimit s) State.init
      acts = true) : s.RoutesAlike murmur3 :=
  (StepRun.invariant_along (fun _ _ _ h ha ht => h.step ha ht) Sound.init hlimit hrun).routesAlike

end Routed

/-- A first open that ends when two of four buckets have files; the next one, with eight buckets
configured, goes on with these two, stores a key, and ends. -/
def interruptedOpen : List Act :=
  [.openDb 4, .openStore .default, .openLog .default (some 1), .openLog .default (some 1), .crash,
    .openDb 8, .openStore .system, .openLog .system (some 1), .openLog .system (some 1),
    .openStore .default, .openLog .default none, .openLog .default none, .opened,
    .put .default [0x61], .flush .default 2, .roll .default 1 2, .crash]

theorem every_open_routes_alike_interrupted :
    ∃ s, StepRun.run (step fun _ => 5) State.init interruptedOpen = some s ∧
      s.RoutesAlike fun _ => 5 := by
  have hsome : (StepRun.run (step fun _ => 5) State.init interruptedOpen).isSome = true := by
    decide +kernel
  obtain ⟨s, hs⟩ := Option.isSome_iff_exists.mp hsome
  exact ⟨s, hs, every_open_routes_alike _ hs (by decide +kernel)⟩

/-- A first open with three buckets more than 32 bits can count, and a key stored in it. -/
def wideOpen : List Act :=
  [.openDb (2 ^ 32 + 3), .openStore .default, .openLog .default (some 1),
    .openLog .default (some 1), .openLog .default (some 1), .openStore .system,
    .openLog .system (some 1), .openLog .system (some 1), .openLog .system (some 1), .opened,
    .put .default [0x61], .crash]

/-- **A number beyond 32 bits is not taken up again.** The loops over the buckets cut it, and the
next open goes on with the three buckets that there are. -/
theorem wide_number_forgotten :
    ∃ s, StepRun.run (step fun _ => 0) State.init wideOpen = some s ∧
      (s.disk .default).records.map Record.routedBy = [2 ^ 32 + 3] ∧
      numBuckets ((s.disk .default).logs.map LogFile.name) (2 ^ 32 + 3) = 3 ∧
      ¬s.RoutesAlike fun _ => 0 := by
  have hrun : (StepRun.run (step fun _ => 0) State.init wideOpen).map (fun s =>
      ((s.disk .default).records.map Record.routedBy,
        numBuckets ((s.disk .default).logs.map LogFile.name) (2 ^ 32 + 3), s.detected)) =
      some ([2 ^ 32 + 3], 3, 3) := by
    decide +kernel
  obtain ⟨s, hs, hvalues⟩ := Option.map_eq_some_iff.mp hrun
  obtain ⟨hrecords, hrest⟩ := Prod.mk.inj hvalues
  obtain ⟨hnumber, hdetected⟩ := Prod.mk.inj hrest
  refine ⟨s, hs, hrecords, hnumber, fun halike => ?_⟩
  have hmem : 2 ^ 32 + 3 ∈ (s.disk .default).records.map Record.routedBy := by
    rw [hrecords]
    exact List.mem_cons_self
  obtain ⟨r, hr, hrouted⟩ := List.mem_map.mp hmem
  have hsame := ((halike.detected.disk .default).records r hr).routedBy_eq
  rw [hrouted, hdetected] at hsame
  exact absurd hsame (by decide)

end BucketCount

end Minnal
