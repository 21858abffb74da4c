import Minnal.Index.Storage
import Minnal.Library.CrashDisk
import Minnal.Library.LinearProbe

/-!
# The blob store

A store maps 128-bit keys to byte blobs. The key file is a hash table with linear probing whose
slots name places in the value file; the value file is appended to and never rewritten, but for
compaction. In the **flat** layout a blob is a whole value; in the **directory** layout it lists
containers elsewhere in the value file, and the store reads it to repair and to compact.

A slot is on the disk either whole or torn by a crash, which its checksum detects: `Option Slot`
with `none` for a torn slot. Opening a store replaces torn slots, and those that name bytes
outside the value file, by tombstones, and takes the header's counts and its write position from
the slots. It leaves the other slots where they are.
-/

set_option linter.dupNamespace false

namespace Minnal

open ByteCodec LinearProbe Storage

/-- What a slot's blob is. -/
inductive BlobLayout where
  /-- The whole value. -/
  | flat
  /-- A directory of container blobs. -/
  | directory
  deriving DecidableEq, Repr

/-- Where a blob lies in the value file. -/
structure Place where
  offset : ℕ
  len : ℕ
  deriving DecidableEq, Repr

/-- Where the blob ends. -/
def Place.stop (p : Place) : ℕ := p.offset + p.len

/-- A slot of the key table: empty, live, or a tombstone. -/
abbrev Slot := Cell ℕ Place

namespace BlobStore

def initialCapacity : ℕ := 16

def initialValSize : ℕ := 4096

def valueAlignment : ℕ := 16

/-- Round up to the alignment of blobs. -/
def alignUp (offset : ℕ) : ℕ := (offset + (valueAlignment - 1)) / valueAlignment * valueAlignment

/-- Hash of a 128-bit key. -/
def hashKey (key : ℕ) : ℕ :=
  let lo := UInt64.ofNat key
  let hi := UInt64.ofNat (key / 2 ^ 64)
  ((lo + rotl hi 17) * 0x9e3779b97f4a7c15 + (hi ^^^ rotl lo 51)).toNat

end BlobStore

/-- An open store: the key table with its header, and the value file. The capacity is the
length of the table. -/
structure BlobStore where
  layout : BlobLayout
  slots : List Slot
  count : ℕ
  tombstoneCount : ℕ
  valueWritePos : ℕ
  vals : List UInt8
  /-- Slots dropped at open. -/
  damagedAtOpen : ℕ
  deriving DecidableEq

namespace BlobStore

/-- A new store. -/
def create (layout : BlobLayout) : BlobStore :=
  ⟨layout, List.replicate initialCapacity .empty, 0, 0, 0, List.replicate initialValSize 0, 0⟩

/-! ### Reading -/

variable (s : BlobStore)

/-- The bytes at a place, unless it runs past the value file. -/
def valueSlice (p : Place) : Option (List UInt8) :=
  if p.stop ≤ s.vals.length then some (readAt s.vals p.offset p.len) else none

/-- The directory at a place. -/
def dirEntries (p : Place) : Option (List DirEntry) :=
  match s.layout with
  | .flat => none
  | .directory => (s.valueSlice p).bind fun blob => (Storage.decodeDir blob).toOption

/-- Every live key, from the key table only. -/
def keys : List ℕ := (entries s.slots).map Prod.fst

/-- The place of a key. -/
def find (key : ℕ) : Option Place := LinearProbe.lookup hashKey s.slots key

/-- The blob of a key. -/
def getRef (key : ℕ) : Option (List UInt8) := (s.find key).bind s.valueSlice

/-! ### Writing -/

/-- Grow the value file to hold so many bytes. -/
def ensureCapacity (vals : List UInt8) (needed : ℕ) : List UInt8 :=
  if needed ≤ vals.length then vals
  else CrashDisk.resize vals (max (max vals.length needed).nextPowerOfTwo needed)

/-- Append a blob without pointing any slot at it. -/
def appendValue (blob : List UInt8) : BlobStore × Place :=
  let aligned := alignUp s.valueWritePos
  let newEnd := aligned + blob.length
  ({ s with
      vals := CrashDisk.writeAt (ensureCapacity s.vals newEnd) aligned blob
      valueWritePos := newEnd },
    ⟨aligned, blob.length⟩)

/-- More than 70 % of the slots are used. -/
def needsRehash : Bool := decide (s.slots.length * 7 < (s.count + s.tombstoneCount) * 10)

/-- Rebuild the key table with twice the capacity and no tombstones. -/
def rehash : BlobStore :=
  { s with
    slots := rebuild hashKey (s.slots.length * 2) (entries s.slots)
    count := (entries s.slots).length
    tombstoneCount := 0 }

/-- Rehash if the table is too full. -/
def makeRoom : BlobStore := if s.needsRehash then s.rehash else s

/-- Point a key at a blob that is already in the value file. -/
def setSlot (key : ℕ) (p : Place) : BlobStore :=
  let s := s.makeRoom
  { s with
    slots := insert hashKey s.slots key p
    count := if (probe hashKey s.slots key).2 then s.count else s.count + 1 }

/-- Leave a tombstone for the key. -/
def removeKey (key : ℕ) : BlobStore :=
  if (probe hashKey s.slots key).2 then
    { s with
      slots := erase hashKey s.slots key
      count := s.count - 1
      tombstoneCount := s.tombstoneCount + 1 }
  else s

/-! ### Compaction -/

/-- Append a blob to the compacted values, padded to the alignment. -/
def appendAligned (buf blob : List UInt8) : List UInt8 × Place :=
  (CrashDisk.resize buf (alignUp buf.length) ++ blob, ⟨alignUp buf.length, blob.length⟩)

/-- Copy the containers of a directory. -/
def moveContainers (vals : List UInt8) : List DirEntry → List UInt8 →
    List UInt8 × List DirEntry
  | [], buf => (buf, [])
  | e :: entries, buf =>
    let copied := appendAligned buf (readAt vals e.offset e.len)
    let rest := moveContainers vals entries copied.1
    (rest.1, { e with offset := copied.2.offset } :: rest.2)

/-- Copy what a slot owns: a blob, or a directory and its containers. -/
def moveBlob (p : Place) (buf : List UInt8) : List UInt8 × Place :=
  match s.dirEntries p with
  | some entries =>
    let moved := moveContainers s.vals entries buf
    appendAligned moved.1 (Storage.encodeDir moved.2)
  | none => appendAligned buf (readAt s.vals p.offset p.len)

/-- Copy what the live slots own, in table order. -/
def moveAll : List (ℕ × Place) → List UInt8 → List UInt8 × List (ℕ × Place)
  | [], buf => (buf, [])
  | (key, p) :: rest, buf =>
    let moved := s.moveBlob p buf
    let more := moveAll rest moved.1
    (more.1, (key, moved.2) :: more.2)

/-- **Compaction**: live blobs only, and a key table without tombstones. -/
def compact : BlobStore :=
  let moved := s.moveAll (entries s.slots) []
  { s with
    slots := rebuild hashKey s.slots.length moved.2
    count := moved.2.length
    tombstoneCount := 0
    valueWritePos := moved.1.length
    vals := moved.1 ++ List.replicate (initialValSize - moved.1.length) 0 }

/-! ### Opening -/

/-- Where what a slot owns ends; none if it is not inside the value file, or the directory does
not read. -/
def ownedEnd (layout : BlobLayout) (vals : List UInt8) (p : Place) : Option ℕ :=
  if vals.length < p.stop then none
  else
    match layout with
    | .flat => some p.stop
    | .directory =>
      match Storage.decodeDir (readAt vals p.offset p.len) with
      | .error _ => none
      | .ok entries => entries.foldlM (fun m e =>
          if vals.length < e.offset + e.len then none else some (max m (e.offset + e.len))) p.stop

/-- Drop a slot that is torn or owns bytes outside the value file. -/
def repairSlot (layout : BlobLayout) (vals : List UInt8) : Option Slot → Slot
  | none => .dead
  | some (.live key p) => if (ownedEnd layout vals p).isSome then .live key p else .dead
  | some c => c

/-- Whether opening drops the slot. -/
def isDamaged (layout : BlobLayout) (vals : List UInt8) : Option Slot → Bool
  | none => true
  | some (.live _ p) => (ownedEnd layout vals p).isNone
  | some _ => false

/-- Where the last blob ends that a slot owns. -/
def maxEnd (layout : BlobLayout) (vals : List UInt8) (slots : List Slot) : ℕ :=
  (entries slots).foldl (fun m e => max m ((ownedEnd layout vals e.2).getD 0)) 0

/-- **Opening** a store on what a crash left: the key table, the write position its header
names, and the value file. -/
def openWith (layout : BlobLayout) (table : List (Option Slot)) (writePos : ℕ)
    (vals : List UInt8) : BlobStore :=
  let slots := table.map (repairSlot layout vals)
  { layout := layout
    slots := slots
    count := live slots
    tombstoneCount := slots.countP Cell.isDead
    valueWritePos := max (min writePos vals.length) (maxEnd layout vals slots)
    vals := vals
    damagedAtOpen := table.countP (isDamaged layout vals) }

/-! ### The value file -/

variable {off n limit' m last : ℕ} {entries : List DirEntry}

section Values

variable {s} {layout : BlobLayout} {vals vals' buf : List UInt8} {limit : ℕ} {p : Place}

theorem le_alignUp (n : ℕ) : n ≤ alignUp n := by
  simp only [alignUp, valueAlignment]
  omega

/-- Reads below a limit see only the bytes below it. -/
theorem readAt_congr (h : vals.take limit = vals'.take limit) (hle : off + n ≤ limit) :
    readAt vals off n = readAt vals' off n := by
  have hread : ∀ bytes : List UInt8, readAt bytes off n = readAt (bytes.take limit) off n := by
    intro bytes
    rw [readAt, readAt, List.drop_take, List.take_take, min_eq_left (by omega)]
  rw [hread, h, ← hread]

theorem take_congr_of_le (h : vals.take limit = vals'.take limit) (hle : limit' ≤ limit) :
    vals.take limit' = vals'.take limit' := by
  rw [← min_eq_left hle, ← List.take_take, h, List.take_take]

theorem ensureCapacity_spec (vals : List UInt8) (needed : ℕ) :
    vals <+: ensureCapacity vals needed ∧ needed ≤ (ensureCapacity vals needed).length := by
  rw [ensureCapacity]
  split_ifs with hle
  · exact ⟨List.prefix_rfl, hle⟩
  · have hlen : vals.length ≤ max (max vals.length needed).nextPowerOfTwo needed := by omega
    rw [CrashDisk.resize_of_le hlen, List.length_append, List.length_replicate]
    exact ⟨List.prefix_append _ _, by omega⟩

theorem writeAt_spec {file bytes : List UInt8} {pos : ℕ} (h : pos + bytes.length ≤ file.length) :
    (CrashDisk.writeAt file pos bytes).length = file.length ∧
      (CrashDisk.writeAt file pos bytes).take pos = file.take pos ∧
      readAt (CrashDisk.writeAt file pos bytes) pos bytes.length = bytes := by
  have hlen : (file.take pos).length = pos := by
    rw [List.length_take]
    omega
  have hwrite : CrashDisk.writeAt file pos bytes =
      file.take pos ++ (bytes ++ file.drop (pos + bytes.length)) := by
    rw [CrashDisk.writeAt, Nat.sub_eq_zero_of_le (by omega), List.replicate_zero, List.append_nil,
      List.append_assoc]
  rw [hwrite]
  refine ⟨?_, ?_, ?_⟩
  · simp only [List.length_append, List.length_take, List.length_drop]
    omega
  · rw [List.take_append_of_le_length hlen.ge, List.take_of_length_le hlen.le]
  · have hread := readAt_append (file.take pos) bytes (file.drop (pos + bytes.length))
    rwa [hlen] at hread

/-- **Appending** keeps every byte below the write position, and puts the blob behind it. -/
theorem appendValue_spec (h : s.valueWritePos ≤ s.vals.length) (blob : List UInt8) :
    (s.appendValue blob).1.vals.take s.valueWritePos = s.vals.take s.valueWritePos ∧
      s.valueWritePos ≤ (s.appendValue blob).2.offset ∧
      (s.appendValue blob).2.stop = (s.appendValue blob).1.valueWritePos ∧
      (s.appendValue blob).1.valueWritePos ≤ (s.appendValue blob).1.vals.length ∧
      readAt (s.appendValue blob).1.vals (s.appendValue blob).2.offset blob.length = blob := by
  obtain ⟨hpre, hroom⟩ := ensureCapacity_spec s.vals (alignUp s.valueWritePos + blob.length)
  obtain ⟨hlen, htake, hread⟩ := writeAt_spec hroom
  have hle := le_alignUp s.valueWritePos
  refine ⟨?_, hle, rfl, ?_, hread⟩
  · rw [appendValue]
    simp only
    rw [take_congr_of_le htake hle]
    obtain ⟨more, hmore⟩ := hpre
    rw [← hmore, List.take_append_of_le_length h]
  · rw [appendValue]
    simp only [hlen]
    exact hroom

/-! ### What slots own -/

/-- The blobs a slot owns: the whole value, or the containers of its directory by key. -/
def owned (layout : BlobLayout) (vals : List UInt8) (p : Place) : Option (List (ℕ × List UInt8)) :=
  match layout with
  | .flat => some [(0, readAt vals p.offset p.len)]
  | .directory => (Storage.decodeDir (readAt vals p.offset p.len)).toOption.map fun entries =>
      entries.map fun e => (e.key, readAt vals e.offset e.len)

/-- What the slot owns reads, and lies below a limit. -/
def IntactBelow (layout : BlobLayout) (vals : List UInt8) (limit : ℕ) (p : Place) : Prop :=
  p.stop ≤ limit ∧ (layout = .directory → ∃ entries,
    Storage.decodeDir (readAt vals p.offset p.len) = .ok entries ∧
      ∀ e ∈ entries, e.offset + e.len ≤ limit)

theorem IntactBelow.congr (h : IntactBelow layout vals limit p)
    (heq : vals.take limit = vals'.take limit) :
    IntactBelow layout vals' limit p ∧ owned layout vals' p = owned layout vals p := by
  obtain ⟨hstop, hdir⟩ := h
  have hread := readAt_congr heq hstop
  cases layout with
  | flat => exact ⟨⟨hstop, fun hno => nomatch hno⟩, by rw [owned, owned, hread]⟩
  | directory =>
    obtain ⟨es, hdecode, hes⟩ := hdir rfl
    refine ⟨⟨hstop, fun _ => ⟨es, hread ▸ hdecode, hes⟩⟩, ?_⟩
    simp only [owned]
    rw [← hread, hdecode]
    simp only [Except.toOption, Option.map_some, Option.some.injEq]
    exact List.map_congr_left fun e he => by rw [readAt_congr heq (hes e he)]

theorem IntactBelow.mono (h : IntactBelow layout vals limit p) (hle : limit ≤ limit') :
    IntactBelow layout vals limit' p :=
  ⟨h.1.trans hle, fun hdir => (h.2 hdir).imp fun _ hes => ⟨hes.1, fun e he => (hes.2 e he).trans hle⟩⟩

/-- Containers inside the value file are accepted, and end where the last of them does. -/
private theorem foldlM_end (hlimit : limit ≤ vals.length) (hm : m ≤ limit)
    (h : ∀ e ∈ entries, e.offset + e.len ≤ limit) :
    ∃ last, entries.foldlM (fun m e =>
        if vals.length < e.offset + e.len then none else some (max m (e.offset + e.len))) m =
          some last ∧ last ≤ limit := by
  induction entries generalizing m with
  | nil => exact ⟨m, rfl, hm⟩
  | cons e es ih =>
    obtain ⟨he, hes⟩ := List.forall_mem_cons.mp h
    obtain ⟨last, hlast, hle⟩ := ih (max_le hm he) hes
    refine ⟨last, ?_, hle⟩
    rw [List.foldlM_cons, if_neg (by omega)]
    exact hlast

private theorem of_foldlM_end (h : entries.foldlM (fun m e =>
      if vals.length < e.offset + e.len then none else some (max m (e.offset + e.len))) m =
        some last) (hm : m ≤ vals.length) :
    m ≤ last ∧ last ≤ vals.length ∧ ∀ e ∈ entries, e.offset + e.len ≤ last := by
  induction entries generalizing m with
  | nil =>
    obtain rfl : m = last := by simpa using h
    exact ⟨le_rfl, hm, by simp⟩
  | cons e es ih =>
    rw [List.foldlM_cons] at h
    split_ifs at h with hout
    · cases h
    obtain ⟨hle, hlast, hes⟩ := ih h (by omega)
    exact ⟨by omega, hlast, List.forall_mem_cons.mpr ⟨by omega, hes⟩⟩

theorem IntactBelow.exists_ownedEnd (h : IntactBelow layout vals limit p) (hlimit : limit ≤ vals.length) :
    ∃ last, ownedEnd layout vals p = some last ∧ last ≤ limit := by
  obtain ⟨hstop, hdir⟩ := h
  rw [ownedEnd.eq_def, if_neg (by omega)]
  cases layout with
  | flat => exact ⟨_, rfl, hstop⟩
  | directory =>
    obtain ⟨entries, hdecode, hentries⟩ := hdir rfl
    simp only [hdecode]
    exact foldlM_end hlimit hstop hentries

theorem intactBelow_of_ownedEnd (h : ownedEnd layout vals p = some last) :
    IntactBelow layout vals last p ∧ last ≤ vals.length := by
  rw [ownedEnd.eq_def] at h
  split_ifs at h with hout
  have hstop : p.stop ≤ vals.length := by omega
  cases layout with
  | flat =>
    obtain rfl : p.stop = last := by simpa using h
    exact ⟨⟨le_rfl, fun hno => nomatch hno⟩, hstop⟩
  | directory =>
    cases hdecode : decodeDir (readAt vals p.offset p.len) with
    | error e => simp [hdecode] at h
    | ok entries =>
      simp only [hdecode] at h
      obtain ⟨hle, hlast, hentries⟩ := of_foldlM_end h hstop
      exact ⟨⟨hle, fun _ => ⟨entries, hdecode, hentries⟩⟩, hlast⟩

/-! ### What compaction keeps -/

theorem readAt_of_isPrefix (h : buf <+: vals) (hle : off + n ≤ buf.length) :
    readAt vals off n = readAt buf off n := by
  refine readAt_congr ?_ hle
  rw [List.take_length, ← List.prefix_iff_eq_take.mp h]

theorem IntactBelow.of_isPrefix (h : IntactBelow layout buf buf.length p) (hpre : buf <+: vals) :
    IntactBelow layout vals vals.length p ∧ owned layout vals p = owned layout buf p := by
  have htake : buf.take buf.length = vals.take buf.length := by
    rw [List.take_length, ← List.prefix_iff_eq_take.mp hpre]
  obtain ⟨hintact, howned⟩ := h.congr htake
  exact ⟨hintact.mono hpre.length_le, howned⟩

private theorem appendAligned_spec (buf blob : List UInt8) :
    buf <+: (appendAligned buf blob).1 ∧
      (appendAligned buf blob).2.stop = (appendAligned buf blob).1.length ∧
      readAt (appendAligned buf blob).1 (appendAligned buf blob).2.offset blob.length = blob := by
  have hlen : (CrashDisk.resize buf (alignUp buf.length)).length = alignUp buf.length := by
    have hle := le_alignUp buf.length
    rw [CrashDisk.resize_of_le hle, List.length_append, List.length_replicate]
    omega
  refine ⟨?_, ?_, ?_⟩
  · rw [appendAligned, CrashDisk.resize_of_le (le_alignUp _), List.append_assoc]
    exact List.prefix_append _ _
  · rw [appendAligned, Place.stop, List.length_append, hlen]
  · have hread := readAt_append (CrashDisk.resize buf (alignUp buf.length)) blob []
    rwa [hlen, List.append_nil] at hread

theorem exists_of_mem_right {α β : Type*} {R : α → β → Prop} {as : List α} {bs : List β}
    (h : List.Forall₂ R as bs) {b : β} (hb : b ∈ bs) : ∃ a ∈ as, R a b := by
  induction h with
  | nil => cases hb
  | @cons a c as bs hac _ ih =>
    rcases List.mem_cons.mp hb with rfl | hb
    · exact ⟨a, List.mem_cons_self, hac⟩
    · obtain ⟨x, hx, hxb⟩ := ih hb
      exact ⟨x, List.mem_cons_of_mem _ hx, hxb⟩

private theorem isPrefix_moveContainers (entries : List DirEntry) (buf : List UInt8) :
    buf <+: (moveContainers vals entries buf).1 := by
  induction entries generalizing buf with
  | nil => exact List.prefix_rfl
  | cons e es ih => exact (appendAligned_spec buf _).1.trans (ih _)

private theorem isPrefix_moveBlob (p : Place) (buf : List UInt8) : buf <+: (s.moveBlob p buf).1 := by
  rw [moveBlob]
  split
  · exact (isPrefix_moveContainers _ buf).trans (appendAligned_spec _ _).1
  · exact (appendAligned_spec buf _).1

theorem isPrefix_moveAll (list : List (ℕ × Place)) (buf : List UInt8) :
    buf <+: (s.moveAll list buf).1 := by
  induction list generalizing buf with
  | nil => exact List.prefix_rfl
  | cons e list ih => exact (isPrefix_moveBlob e.2 buf).trans (ih _)

/-- A container and its copy. -/
private def Copied (vals buf : List UInt8) (e m : DirEntry) : Prop :=
  m.key = e.key ∧ m.len = e.len ∧ m.offset + m.len ≤ buf.length ∧
    readAt buf m.offset m.len = readAt vals e.offset e.len

private theorem moveContainers_spec (entries : List DirEntry) (buf : List UInt8)
    (h : ∀ e ∈ entries, e.offset + e.len ≤ vals.length) :
    List.Forall₂ (Copied vals (moveContainers vals entries buf).1) entries
      (moveContainers vals entries buf).2 := by
  induction entries generalizing buf with
  | nil => exact .nil
  | cons e es ih =>
    obtain ⟨he, hes⟩ := List.forall_mem_cons.mp h
    obtain ⟨-, hstop, hread⟩ := appendAligned_spec buf (readAt vals e.offset e.len)
    have hlen : (readAt vals e.offset e.len).length = e.len := by
      rw [length_readAt]
      omega
    have hcopied := ih (appendAligned buf (readAt vals e.offset e.len)).1 hes
    have hrest := @isPrefix_moveContainers vals es
      (appendAligned buf (readAt vals e.offset e.len)).1
    rw [Place.stop] at hstop
    rw [hlen] at hread
    have hinside : (appendAligned buf (readAt vals e.offset e.len)).2.offset + e.len =
        (appendAligned buf (readAt vals e.offset e.len)).1.length := by
      rw [← hstop, appendAligned, hlen]
    refine .cons ⟨rfl, rfl, ?_, ?_⟩ hcopied
    · exact hinside.trans_le hrest.length_le
    · exact (readAt_of_isPrefix hrest hinside.le).trans hread

private theorem Copied.map_eq {moved : List DirEntry}
    (h : List.Forall₂ (Copied vals buf) entries moved) :
    (moved.map fun m => (m.key, readAt buf m.offset m.len)) =
      entries.map fun e => (e.key, readAt vals e.offset e.len) := by
  induction h with
  | nil => rfl
  | cons hcopied _ ih =>
    obtain ⟨hkey, -, -, hread⟩ := hcopied
    rw [List.map_cons, List.map_cons, hkey, hread, ih]

/-- **Moving a directory**: its containers are copied, and a directory of the copies follows. -/
theorem moveBlob_dir (hlayout : s.layout = .directory) (hstop : p.stop ≤ s.vals.length)
    (hdecode : decodeDir (readAt s.vals p.offset p.len) = .ok entries)
    (hentries : ∀ e ∈ entries, e.offset + e.len ≤ s.vals.length) (buf : List UInt8)
    (hfile : (s.moveBlob p buf).1.length ≤ 2 ^ 64) :
    s.moveBlob p buf = appendAligned (moveContainers s.vals entries buf).1
        (encodeDir (moveContainers s.vals entries buf).2) ∧
      decodeDir (readAt (s.moveBlob p buf).1 (s.moveBlob p buf).2.offset
        (s.moveBlob p buf).2.len) = .ok (moveContainers s.vals entries buf).2 := by
  obtain ⟨hsorted, hfits, hcount⟩ := decodeDir_ok hdecode
  have hsome : s.dirEntries p = some entries := by
    rw [dirEntries.eq_def, hlayout]
    simp only
    rw [valueSlice, if_pos hstop, Option.bind_some, hdecode]
    rfl
  have hmove : s.moveBlob p buf = appendAligned (moveContainers s.vals entries buf).1
      (encodeDir (moveContainers s.vals entries buf).2) := by rw [moveBlob, hsome]
  refine ⟨hmove, ?_⟩
  rw [hmove] at hfile ⊢
  have hcopied := moveContainers_spec entries buf hentries
  generalize moveContainers s.vals entries buf = moved at hfile hcopied ⊢
  obtain ⟨hpre, hend, hread⟩ := appendAligned_spec moved.1 (encodeDir moved.2)
  have hkeys : moved.2.map DirEntry.key = entries.map DirEntry.key := by
    have := congrArg (List.map Prod.fst) (Copied.map_eq hcopied)
    simpa [Function.comp_def] using this
  have hinside : ∀ m ∈ moved.2, m.Fits := by
    intro m hm
    obtain ⟨e, he, hkey, hlen, hin, -⟩ := exists_of_mem_right hcopied hm
    obtain ⟨hk, -, hl⟩ := hfits e he
    have hshort := hpre.length_le
    have hdirlen : 0 < (encodeDir moved.2).length := by
      rw [encodeDir, List.length_append, length_dirBody]
      simp [dirHeader]
    have hstrict : moved.1.length < 2 ^ 64 := by
      rw [← hend, Place.stop] at hfile
      have := le_alignUp moved.1.length
      simp only [appendAligned] at hfile
      omega
    exact ⟨by rw [hkey]; exact hk, by omega, by rw [hlen]; exact hl⟩
  have hlen : (appendAligned moved.1 (encodeDir moved.2)).2.len =
      (encodeDir moved.2).length := rfl
  rw [hlen, hread]
  refine decodeDir_encodeDir hinside ?_ ?_
  · have := congrArg List.length hkeys
    simp only [List.length_map] at this
    omega
  · rw [← List.pairwise_map (f := DirEntry.key), hkeys, List.pairwise_map]
    exact hsorted

/-- **Moving a blob** keeps what its slot owns. -/
theorem moveBlob_spec (h : IntactBelow s.layout s.vals limit p) (hlimit : limit ≤ s.vals.length)
    (buf : List UInt8) (hfile : (s.moveBlob p buf).1.length ≤ 2 ^ 64) :
    IntactBelow s.layout (s.moveBlob p buf).1 (s.moveBlob p buf).1.length (s.moveBlob p buf).2 ∧
      owned s.layout (s.moveBlob p buf).1 (s.moveBlob p buf).2 = owned s.layout s.vals p := by
  obtain ⟨hstop, hdir⟩ := h
  cases hlayout : s.layout with
  | flat =>
    have hnone : s.dirEntries p = none := by rw [dirEntries.eq_def, hlayout]
    have hlen : (readAt s.vals p.offset p.len).length = p.len := by
      rw [Place.stop] at hstop
      rw [length_readAt]
      omega
    obtain ⟨-, hend, hread⟩ := appendAligned_spec buf (readAt s.vals p.offset p.len)
    rw [moveBlob, hnone]
    refine ⟨⟨hend.le, fun hno => nomatch hno⟩, ?_⟩
    simp only [owned, Option.some.injEq, List.cons.injEq, Prod.mk.injEq, true_and, and_true]
    exact hread
  | directory =>
    obtain ⟨entries, hdecode, hentries⟩ := hdir hlayout
    have hinfile : ∀ e ∈ entries, e.offset + e.len ≤ s.vals.length := fun e he =>
      (hentries e he).trans hlimit
    obtain ⟨hmove, hdecoded⟩ :=
      moveBlob_dir hlayout (hstop.trans hlimit) hdecode hinfile buf hfile
    have hcopied := moveContainers_spec entries buf hinfile
    rw [hmove] at hdecoded ⊢
    generalize moveContainers s.vals entries buf = moved at hcopied hdecoded ⊢
    obtain ⟨hpre, hend, hread⟩ := appendAligned_spec moved.1 (encodeDir moved.2)
    have hinside : ∀ m ∈ moved.2, m.offset + m.len ≤ moved.1.length := by
      intro m hm
      obtain ⟨e, he, hkey, hlen, hin, -⟩ := exists_of_mem_right hcopied hm
      exact hin
    refine ⟨⟨hend.le, fun _ => ⟨moved.2, hdecoded, fun m hm =>
      (hinside m hm).trans hpre.length_le⟩⟩, ?_⟩
    simp only [owned]
    rw [hdecoded, hdecode]
    simp only [Except.toOption, Option.map_some, Option.some.injEq]
    rw [← Copied.map_eq hcopied]
    exact List.map_congr_left fun m hm => by
      rw [readAt_of_isPrefix hpre (hinside m hm)]

/-- **Moving every blob** keeps what the slots own. -/
theorem moveAll_spec (list : List (ℕ × Place)) (buf : List UInt8) (hlimit : limit ≤ s.vals.length)
    (h : ∀ e ∈ list, IntactBelow s.layout s.vals limit e.2)
    (hfile : (s.moveAll list buf).1.length ≤ 2 ^ 64) :
    List.Forall₂ (fun e m : ℕ × Place => m.1 = e.1 ∧
        IntactBelow s.layout (s.moveAll list buf).1 (s.moveAll list buf).1.length m.2 ∧
        owned s.layout (s.moveAll list buf).1 m.2 = owned s.layout s.vals e.2)
      list (s.moveAll list buf).2 := by
  induction list generalizing buf with
  | nil => exact .nil
  | cons e list ih =>
    obtain ⟨he, hlist⟩ := List.forall_mem_cons.mp h
    have hrest : (s.moveBlob e.2 buf).1 <+: (s.moveAll (e :: list) buf).1 := isPrefix_moveAll list _
    obtain ⟨hintact, howned⟩ := moveBlob_spec he hlimit buf (hrest.length_le.trans hfile)
    obtain ⟨hintact', howned'⟩ := hintact.of_isPrefix hrest
    exact .cons ⟨rfl, hintact', howned'.trans howned⟩ (ih _ hlist hfile)

end Values

end BlobStore

end Minnal
