import Minnal.Index.BlobStore
import Minnal.Index.HeapStore

/-!
# The mapped backing of a bitmap

A persistent bitmap keeps its containers in two mapped files: a hash table of container keys, and
a value file the serialised containers are **appended** to. Changing a container appends a new
blob and points the key's slot at it; removing one leaves a tombstone, and a table that is too
full is rebuilt with twice the slots. The mapped bytes are the file, so opening the files again
finds the table as the last change left it.

`Represents` says which heap store a mapped one stands for. Every operation keeps it
(`Represents.upsert`, `.removeKey`, `.modify`, `.clear`), and reading back gives the containers of
the heap store (`Represents.get`, `.sortedEntries`). Two counters need care: a tombstone whose
place is taken again is **still counted**, so the count of tombstones is only an upper bound,
and the load is tested before a key is put in, so that one more slot than the test allows may be
used.
-/

set_option linter.dupNamespace false

namespace Minnal

open ByteCodec LinearProbe
open BlobStore (hashKey alignUp ensureCapacity)

/-- How containers are written to bytes and read back. -/
structure ContainerCodec where
  serContainer : Container → List UInt8
  deserContainer : List UInt8 → Option Container
  deser_ser : ∀ c, deserContainer (serContainer c) = some c

/-- What a slot names: the blob of a container, and how many values it holds. -/
structure ContainerSlot extends Place where
  card : ℕ
  deriving DecidableEq, Repr

/-- The mapped backing: the key table with the counts of its header, and the value file. -/
structure MappedStore where
  slots : List (Cell ℕ ContainerSlot)
  count : ℕ
  tombstoneCount : ℕ
  cardinality : ℕ
  valueWritePos : ℕ
  vals : List UInt8

namespace MappedStore

def initialCapacity : ℕ := 16

def initialValSize : ℕ := 4096

/-- A new store. -/
def create : MappedStore :=
  ⟨List.replicate initialCapacity .empty, 0, 0, 0, 0, List.replicate initialValSize 0⟩

variable (codec : ContainerCodec) (m : MappedStore)

/-! ### Reading -/

/-- The bytes of a slot's blob; none past the value file, where the source panics. -/
def valueSlice (p : ContainerSlot) : Option (List UInt8) :=
  if p.stop ≤ m.vals.length then some (readAt m.vals p.offset p.len) else none

/-- The container of a slot; none where reading it panics. -/
def containerAt (p : ContainerSlot) : Option Container :=
  (m.valueSlice p).bind codec.deserContainer

/-- The container of a key, if it has one; none where reading it panics. -/
def get (key : ℕ) : Option (Option Container) :=
  match LinearProbe.lookup hashKey m.slots key with
  | some p => (m.containerAt codec p).map some
  | none => some none

/-- The live slots by key. -/
def sortedSlots : List (ℕ × ContainerSlot) :=
  (entries m.slots).insertionSort fun a b => a.1 ≤ b.1

def sortedKeys : List ℕ := m.sortedSlots.map Prod.fst

/-- All keys with their containers, by key; none where reading one panics. -/
def sortedEntries : Option (List (ℕ × Container)) :=
  m.sortedSlots.mapM fun e => (m.containerAt codec e.2).map (e.1, ·)

/-! ### Writing -/

/-- More than 70 % of the slots are used. -/
def needsRehash : Bool := decide (m.slots.length * 7 < (m.count + m.tombstoneCount) * 10)

/-- Rebuild the key table with twice the capacity and no tombstones. -/
def rehash : MappedStore :=
  { m with
    slots := rebuild hashKey (m.slots.length * 2) (entries m.slots)
    count := (entries m.slots).length
    tombstoneCount := 0 }

/-- Rehash if the table is too full. -/
def makeRoom : MappedStore := if m.needsRehash then m.rehash else m

/-- Insert or replace the container of a key: append its blob and point the slot at it. -/
def upsert (key : ℕ) (c : Container) : MappedStore :=
  let m := m.makeRoom
  let blob := codec.serContainer c
  let aligned := alignUp m.valueWritePos
  let newEnd := aligned + blob.length
  let old := LinearProbe.lookup hashKey m.slots key
  { slots := insert hashKey m.slots key ⟨⟨aligned, blob.length⟩, c.cardinality⟩
    count := if (probe hashKey m.slots key).2 then m.count else m.count + 1
    -- a tombstone whose place is taken stays counted
    tombstoneCount := m.tombstoneCount
    cardinality := m.cardinality + c.cardinality - old.elim 0 ContainerSlot.card
    valueWritePos := newEnd
    vals := CrashDisk.writeAt (ensureCapacity m.vals newEnd) aligned blob }

/-- Leave a tombstone for the key. -/
def removeKey (key : ℕ) : MappedStore :=
  if (probe hashKey m.slots key).2 then
    { m with
      slots := erase hashKey m.slots key
      count := m.count - 1
      tombstoneCount := m.tombstoneCount + 1
      cardinality :=
        m.cardinality - (LinearProbe.lookup hashKey m.slots key).elim 0 ContainerSlot.card }
  else m

/-- Empty every slot. The capacity stays, and so do the bytes of the value file. -/
def clear : MappedStore :=
  { m with
    slots := List.replicate m.slots.length .empty
    count := 0
    tombstoneCount := 0
    cardinality := 0
    valueWritePos := 0 }

/-- `ContainerStore::modify` on the mapped backing: read the container of a key, change it, and
write a new copy where `f` says that it changed. -/
def modify (key : ℕ) (create : Bool) (f : Container → Bool × Container) :
    Option (Bool × MappedStore) :=
  (m.get codec key).map fun held =>
    match held.or (if create then some Container.newArray else none) with
    | none => (false, m)
    | some c =>
      let (changed, c) := f c
      (changed,
        if changed then (if c.isEmpty then m.removeKey key else m.upsert codec key c) else m)

/-! ### Opening -/

/-- What opening checks: the capacity is a power of two, the write position lies in the value
file, and every blob ends before it. -/
def validateOpen : Bool :=
  m.slots.length != 0 && m.slots.length == 2 ^ m.slots.length.log2 &&
    decide (m.valueWritePos ≤ m.vals.length) &&
    (entries m.slots).all fun e => decide (e.2.stop ≤ m.valueWritePos)

/-- Open the files a store left. -/
def reopen : Option MappedStore := if m.validateOpen then some m else none

/-! ### What a mapped store stands for -/

section Represents

variable {codec : ContainerCodec} {m : MappedStore} {h : HeapStore} {vals vals' : List UInt8}
  {limit limit' key : ℕ} {p : ContainerSlot} {c : Container}

/-- A slot's blob lies below a limit, reads back as the container, and the slot knows how many
values it holds. -/
structure HoldsBlob (codec : ContainerCodec) (vals : List UInt8) (limit : ℕ) (p : ContainerSlot)
    (c : Container) : Prop where
  stop_le : p.stop ≤ limit
  reads : readAt vals p.offset p.len = codec.serContainer c
  card : p.card = c.cardinality

theorem HoldsBlob.congr (hp : HoldsBlob codec vals limit p c)
    (heq : vals.take limit = vals'.take limit) (hle : limit ≤ limit') : HoldsBlob codec vals' limit' p c :=
  ⟨hp.stop_le.trans hle, BlobStore.readAt_congr heq hp.stop_le ▸ hp.reads, hp.card⟩

/-- **A mapped store stands for a heap store**: what the table has at a key is the blob of what
the heap store has there, and the counts allow one key more before the table is full. -/
structure Represents (codec : ContainerCodec) (m : MappedStore) (h : HeapStore) : Prop where
  sound : Sound hashKey m.slots
  capacity : ∃ k, m.slots.length = 16 * 2 ^ k
  counted : m.count = live m.slots
  used_le : used m.slots ≤ m.count + m.tombstoneCount
  load : (m.count + m.tombstoneCount) * 10 ≤ m.slots.length * 7 + 10
  pos_le : m.valueWritePos ≤ m.vals.length
  blobs : ∀ key, Option.Rel (HoldsBlob codec m.vals m.valueWritePos)
    (LinearProbe.lookup hashKey m.slots key) (h.get key)
  cardinality : m.cardinality = h.cardinality

/-- An empty table stands for the empty store. -/
private theorem represents_empty (k : ℕ) (vals : List UInt8) :
    Represents codec ⟨List.replicate (16 * 2 ^ k) .empty, 0, 0, 0, 0, vals⟩ HeapStore.new := by
  obtain ⟨hsound, hused, hlive, hlen, hhas⟩ : Sound hashKey
      (rebuild hashKey (16 * 2 ^ k) ([] : List (ℕ × ContainerSlot))) ∧ _ :=
    rebuild_spec List.nodup_nil (Nat.zero_le _)
  refine ⟨hsound, ⟨k, hlen⟩, hlive.symm, hused.le, Nat.zero_le _, Nat.zero_le _, fun key => ?_, rfl⟩
  have hnone : LinearProbe.lookup hashKey
      (rebuild hashKey (16 * 2 ^ k) ([] : List (ℕ × ContainerSlot))) key = none := by
    refine Option.eq_none_iff_forall_ne_some.mpr fun p hp => ?_
    cases (hhas key p).mp (hsound.lookup_eq_some_iff.mp hp)
  exact hnone ▸ Option.Rel.none

theorem represents_create : Represents codec create HeapStore.new :=
  represents_empty 0 _

namespace Represents

theorem clear (hm : Represents codec m h) : Represents codec m.clear HeapStore.new := by
  obtain ⟨k, hk⟩ := hm.capacity
  rw [MappedStore.clear, hk]
  exact represents_empty k _

theorem hasRoom (hm : Represents codec m h) : HasRoom m.slots := by
  refine hasRoom_of_live_lt ?_
  obtain ⟨k, hk⟩ := hm.capacity
  have hpos : 0 < 2 ^ k := Nat.two_pow_pos k
  have hlive := live_le_used m.slots
  have hused := hm.used_le
  have hload := hm.load
  omega

/-! ### Reads -/

theorem containerAt (hm : Represents codec m h) (hp : HoldsBlob codec m.vals m.valueWritePos p c) :
    m.containerAt codec p = some c := by
  rw [MappedStore.containerAt, valueSlice, if_pos (hp.stop_le.trans hm.pos_le), Option.bind_some,
    hp.reads, codec.deser_ser]

/-- **Reading** gives the container of the heap store. -/
theorem get (hm : Represents codec m h) (key : ℕ) : m.get codec key = some (h.get key) := by
  have hrel := hm.blobs key
  rw [MappedStore.get]
  generalize LinearProbe.lookup hashKey m.slots key = o at hrel ⊢
  generalize h.get key = held at hrel ⊢
  cases hrel with
  | some hp => simp only [hm.containerAt hp, Option.map_some]
  | none => rfl

theorem mem_sortedSlots : (key, p) ∈ m.sortedSlots ↔ (key, p) ∈ entries m.slots := by
  rw [sortedSlots, List.mem_insertionSort]

theorem ascending_sortedSlots (hm : Represents codec m h) :
    SortedMap.Ascending Prod.fst m.sortedSlots := by
  have hsorted : m.sortedSlots.Pairwise fun a b => a.1 ≤ b.1 :=
    List.pairwise_insertionSort _ _
  have hnodup : m.sortedSlots.Pairwise fun a b => a.1 ≠ b.1 := by
    have hkeys := nodup_keys_iff.mpr hm.sound.unique
    have hperm : (m.sortedSlots.map Prod.fst).Perm ((entries m.slots).map Prod.fst) :=
      (List.perm_insertionSort _ _).map _
    exact List.pairwise_map.mp (hperm.nodup_iff.mpr hkeys)
  exact (hsorted.and hnodup).imp fun hlt => lt_of_le_of_ne hlt.1 hlt.2

/-- **The entries read back** are those of the heap store, in its order. -/
theorem sortedEntries (hm : Represents codec m h) : m.sortedEntries codec = some h.map := by
  have hread : ∀ e ∈ m.sortedSlots, ∃ c, h.get e.1 = some c ∧ m.containerAt codec e.2 = some c := by
    rintro ⟨key, p⟩ he
    have hlookup := hm.sound.lookup_eq_some_iff.mpr (mem_entries.mp (mem_sortedSlots.mp he))
    have hrel := hm.blobs key
    rw [hlookup] at hrel
    generalize h.get key = held at hrel ⊢
    cases hrel with
    | some hp => exact ⟨_, rfl, hm.containerAt hp⟩
  have hmap : m.sortedEntries codec =
      some (m.sortedSlots.map fun e => (e.1, (h.get e.1).getD Container.newArray)) := by
    rw [MappedStore.sortedEntries]
    generalize m.sortedSlots = slots at hread
    induction slots with
    | nil => rfl
    | cons e slots ih =>
      obtain ⟨c, hget, hc⟩ := hread e List.mem_cons_self
      rw [List.mapM_cons, ih fun e he => hread e (List.mem_cons_of_mem _ he), hc, List.map_cons,
        hget]
      rfl
  have hasc : SortedMap.Ascending Prod.fst
      (m.sortedSlots.map fun e => (e.1, (h.get e.1).getD Container.newArray)) :=
    List.pairwise_map.mpr hm.ascending_sortedSlots
  rw [hmap, Option.some.injEq]
  refine hasc.eq_of_mem_iff h.sorted fun e => ?_
  obtain ⟨key, c⟩ := e
  rw [mem_iff_lookup h.sorted, List.mem_map]
  constructor
  · rintro ⟨x, hx, heq⟩
    obtain ⟨d, hget, -⟩ := hread x hx
    rw [hget] at heq
    cases heq
    exact hget
  · intro hget
    have hrel := hm.blobs key
    rw [show h.get key = some c from hget] at hrel
    generalize hlookup : LinearProbe.lookup hashKey m.slots key = o at hrel
    cases hrel with
    | some hp =>
      refine ⟨(key, _), mem_sortedSlots.mpr
        (mem_entries.mpr (hm.sound.lookup_eq_some_iff.mp hlookup)), ?_⟩
      rw [show h.get key = some c from hget, Option.getD_some]

theorem sortedKeys (hm : Represents codec m h) : m.sortedKeys = h.map.map Prod.fst := by
  have hentries := hm.sortedEntries
  rw [MappedStore.sortedEntries] at hentries
  rw [MappedStore.sortedKeys]
  generalize h.map = es at hentries
  generalize m.sortedSlots = slots at hentries
  induction slots generalizing es with
  | nil =>
    obtain rfl := Option.some.inj hentries
    rfl
  | cons e slots ih =>
    rw [List.mapM_cons] at hentries
    obtain ⟨x, hx, hentries⟩ := Option.bind_eq_some_iff.mp hentries
    obtain ⟨xs, hxs, hentries⟩ := Option.bind_eq_some_iff.mp hentries
    obtain ⟨c, -, rfl⟩ := Option.map_eq_some_iff.mp hx
    obtain rfl := Option.some.inj hentries
    rw [List.map_cons, List.map_cons, ih _ hxs]

/-- **Opening** the files of a store that stands for a heap store succeeds. -/
theorem reopen (hm : Represents codec m h) : m.reopen = some m := by
  obtain ⟨k, hk⟩ := hm.capacity
  have hpow : 16 * 2 ^ k = 2 ^ (4 + k) := by rw [pow_add]; norm_num
  have hblobs : ∀ e ∈ entries m.slots, e.2.stop ≤ m.valueWritePos := by
    rintro ⟨key, p⟩ he
    have hrel := hm.blobs key
    rw [hm.sound.lookup_eq_some_iff.mpr (mem_entries.mp he)] at hrel
    generalize h.get key = held at hrel
    cases hrel with
    | some hp => exact hp.stop_le
  have hvalid : m.validateOpen = true := by
    simp only [validateOpen, Bool.and_eq_true, bne_iff_ne, beq_iff_eq, decide_eq_true_eq,
      List.all_eq_true]
    refine ⟨⟨⟨?_, ?_⟩, hm.pos_le⟩, hblobs⟩
    · rw [hk, hpow]
      exact (Nat.two_pow_pos _).ne'
    · rw [hk, hpow, Nat.log2_two_pow]
  rw [MappedStore.reopen, if_pos hvalid]

/-! ### Changes -/

/-- What a blob's append leaves of the value file. -/
private theorem append_spec {pos : ℕ} (hpos : pos ≤ vals.length) (blob : List UInt8)
    {file : List UInt8} (hfile : file =
      CrashDisk.writeAt (ensureCapacity vals (alignUp pos + blob.length)) (alignUp pos) blob) :
    file.take pos = vals.take pos ∧ alignUp pos + blob.length ≤ file.length ∧
      readAt file (alignUp pos) blob.length = blob := by
  obtain ⟨htake, -, -, hlen, hread⟩ :=
    BlobStore.appendValue_spec (s := ⟨.flat, [], 0, 0, pos, vals, 0⟩) hpos blob
  subst hfile
  exact ⟨htake, hlen, hread⟩

/-- What a key holds is part of the count. -/
private theorem cardinality_le (h : HeapStore) {key : ℕ} {c : Container}
    (hget : h.get key = some c) : c.cardinality ≤ h.cardinality := by
  have hle := (isTable_lookup h.sorted).weightAt_le (fun _ c => c.cardinality) key
  rw [h.counted, totalCount]
  rwa [FiniteTable.weightAt, show lookup key h.map = some c from hget] at hle

private theorem rel_mono {R R' : ContainerSlot → Container → Prop} {o : Option ContainerSlot}
    {held : Option Container} (h : Option.Rel R o held) (himp : ∀ {p c}, R p c → R' p c) :
    Option.Rel R' o held := by
  cases h with
  | some hp => exact .some (himp hp)
  | none => exact .none

theorem makeRoom (hm : Represents codec m h) :
    Represents codec m.makeRoom h ∧
      (m.makeRoom.count + m.makeRoom.tombstoneCount) * 10 ≤ m.makeRoom.slots.length * 7 := by
  rw [MappedStore.makeRoom]
  split_ifs with hfull
  · obtain ⟨k, hk⟩ := hm.capacity
    have hpos : 0 < 2 ^ k := Nat.two_pow_pos k
    have hlive := live_le_used m.slots
    have hused := hm.used_le
    have hload := hm.load
    have hentries := length_entries m.slots
    obtain ⟨hsound, hused', hlive', hlen, -⟩ :
        Sound hashKey (rebuild hashKey (m.slots.length * 2) (entries m.slots)) ∧ _ :=
      rebuild_spec (nodup_keys_iff.mpr hm.sound.unique) (by omega)
    refine ⟨⟨hsound, ⟨k + 1, ?_⟩, hlive'.symm, hused'.le, ?_, hm.pos_le, fun key => ?_,
      hm.cardinality⟩, ?_⟩
    · rw [MappedStore.rehash, hlen, hk, pow_succ, mul_assoc]
    · simp only [MappedStore.rehash, hlen]
      omega
    · rw [MappedStore.rehash, hm.sound.lookup_rebuild (by omega)]
      exact hm.blobs key
    · simp only [MappedStore.rehash, hlen]
      omega
  · rw [needsRehash, decide_eq_true_eq] at hfull
    exact ⟨hm, by omega⟩

/-- **Putting a container in** puts it into the heap store. -/
theorem upsert (hm : Represents codec m h) (key : ℕ) (c : Container) :
    Represents codec (m.upsert codec key c) (h.upsert key c) := by
  obtain ⟨hroom, hload⟩ := hm.makeRoom
  rw [MappedStore.upsert]
  generalize m.makeRoom = m at hroom hload
  obtain ⟨htake, hlen, hread⟩ := append_spec hroom.pos_le (codec.serContainer c) rfl
  obtain ⟨hused, hlive⟩ := count_insert hashKey key
    (⟨⟨alignUp m.valueWritePos, (codec.serContainer c).length⟩, c.cardinality⟩ : ContainerSlot)
    hroom.hasRoom
  have hle := BlobStore.le_alignUp m.valueWritePos
  have hslots := hroom.used_le
  have hcount := hroom.counted
  refine ⟨hroom.sound.insert hroom.hasRoom, ?_, ?_, ?_, ?_, hlen, fun k => ?_, ?_⟩
  · rw [LinearProbe.insert, List.length_set]
    exact hroom.capacity
  · simp only [hlive]
    split_ifs <;> omega
  · refine hused.trans ?_
    simp only
    split_ifs <;> omega
  · simp only [LinearProbe.insert, List.length_set]
    split_ifs <;> omega
  · rw [hroom.sound.lookup_insert hroom.hasRoom, HeapStore.get_upsert]
    by_cases hk : k = key
    · rw [if_pos hk, if_pos hk]
      exact .some ⟨le_rfl, hread, rfl⟩
    · rw [if_neg hk, if_neg hk]
      exact rel_mono (hroom.blobs k) fun hp =>
        hp.congr htake.symm (hle.trans (Nat.le_add_right _ _))
  · have hrel := hroom.blobs key
    have hcard : ∀ c, h.get key = some c → c.cardinality ≤ h.cardinality :=
      fun c => cardinality_le h
    simp only [HeapStore.upsert, hroom.cardinality]
    generalize LinearProbe.lookup hashKey m.slots key = o at hrel
    generalize h.get key = held at hrel hcard
    cases hrel with
    | some hp =>
      have := hcard _ rfl
      simp only [Option.elim_some, hp.card]
      omega
    | none => rfl

/-- **Removing a key** removes it from the heap store. -/
theorem removeKey (hm : Represents codec m h) (key : ℕ) :
    Represents codec (m.removeKey key) (h.removeKey key) := by
  obtain ⟨hused, hlive⟩ := count_erase hashKey m.slots key
  have hslots := hm.used_le
  have hcount := hm.counted
  have hload := hm.load
  have hrel := hm.blobs key
  rw [MappedStore.removeKey]
  split_ifs with hfound
  · rw [if_pos hfound] at hlive
    refine ⟨hm.sound.erase, ?_, ?_, ?_, ?_, hm.pos_le, fun k => ?_, ?_⟩
    · rw [LinearProbe.erase, if_pos hfound, List.length_set]
      exact hm.capacity
    · simp only
      omega
    · simp only [hused]
      omega
    · simp only [LinearProbe.erase, if_pos hfound, List.length_set]
      omega
    · rw [hm.sound.lookup_erase, HeapStore.get_removeKey]
      by_cases hk : k = key
      · rw [if_pos hk, if_pos hk]
        exact .none
      · rw [if_neg hk, if_neg hk]
        exact hm.blobs k
    · simp only [HeapStore.removeKey, hm.cardinality]
      generalize LinearProbe.lookup hashKey m.slots key = o at hrel
      generalize h.get key = held at hrel
      cases hrel with
      | some hp => simp only [Option.elim_some, hp.card]
      | none => rfl
  · -- no slot has the key, and neither has the heap store
    have hnone : LinearProbe.lookup hashKey m.slots key = none := by
      rw [LinearProbe.lookup, if_neg hfound]
    rw [hnone] at hrel
    generalize hget : h.get key = held at hrel
    cases hrel with
    | none =>
      refine ⟨hm.sound, hm.capacity, hcount, hslots, hload, hm.pos_le, fun k => ?_, ?_⟩
      · rw [HeapStore.get_removeKey]
        split_ifs with hk
        · rw [hk, hnone]
          exact .none
        · exact hm.blobs k
      · simp only [HeapStore.removeKey, hget]
        exact hm.cardinality

theorem removeKey_absent (hm : Represents codec m h) (hget : h.get key = none) :
    m.removeKey key = m := by
  have hrel := hm.blobs key
  rw [hget] at hrel
  have hnone : (probe hashKey m.slots key).2 = false := by
    refine hm.sound.probe_eq_false_iff.mpr fun i hlive => ?_
    obtain ⟨p, hp⟩ := hlive
    rw [hm.sound.lookup_eq_some_iff.mpr ⟨i, hp⟩] at hrel
    cases hrel
  rw [MappedStore.removeKey, if_neg (by rw [hnone]; exact Bool.false_ne_true)]

/-- **Changing a container** changes it in the heap store, and says the same of the change. -/
theorem modify (hm : Represents codec m h) (key : ℕ) (create : Bool)
    (f : Container → Bool × Container) : ∃ m', m.modify codec key create f =
      some ((h.modify key create f).1, m') ∧ Represents codec m' (h.modify key create f).2 := by
  rw [MappedStore.modify, hm.get key, Option.map_some]
  have hchange : ∀ c : Container, Represents codec
      (if (f c).1 then
        (if (f c).2.isEmpty then m.removeKey key else m.upsert codec key (f c).2) else m)
      (if (f c).1 then
        (if (f c).2.isEmpty then h.removeKey key else h.upsert key (f c).2) else h) := by
    intro c
    split_ifs
    · exact hm.removeKey key
    · exact hm.upsert key _
    · exact hm
  cases hget : h.get key with
  | some c =>
    rw [HeapStore.modify, hget]
    exact ⟨_, rfl, hchange c⟩
  | none =>
    cases create with
    | false =>
      rw [HeapStore.modify, hget]
      exact ⟨m, rfl, hm⟩
    | true =>
      rw [HeapStore.modify, hget]
      refine ⟨_, rfl, ?_⟩
      dsimp only
      cases hempty : (f Container.newArray).2.isEmpty with
      | true =>
        -- nothing stands there, and there is no slot to remove
        simp only [ite_true, Bool.not_true, Bool.and_false, Bool.false_eq_true, ite_false,
          hm.removeKey_absent hget, ite_self]
        exact hm
      | false =>
        simp only [Bool.false_eq_true, ite_false, Bool.not_false, Bool.and_true]
        split_ifs
        · exact hm.upsert key _
        · exact hm

end Represents

end Represents

end MappedStore

end Minnal
