import Minnal.Index.BlobStore
import Minnal.Library.StepRun

/-!
# The blob store across power losses

Both files are memory maps that the kernel writes back when it likes. A power loss therefore
leaves at each **slot** one of the contents it has had since the key table was last synced, or a
torn slot; of the value file it keeps what was synced. No slot is pointed at bytes that are not
synced.

Opening the store drops torn slots, but it leaves every whole slot where it lies. Where a power
loss keeps a slot and loses one on the way to it, or keeps a new copy of a key and loses the
removal of the old one, the table has a **gap** (`hasGap`): a key that is listed and not found,
or listed twice. `findable_iff` says that in every run whose power losses leave no gap each key
listed is found, and once, and that this condition is exact.
-/

set_option linter.dupNamespace false

namespace Minnal

open ByteCodec LinearProbe BlobStore
open List (mem_cons mem_map mem_singleton length_map mem_of_getElem? mem_iff_getElem? getD_map)

/-- A store, the key tables its file has had since the last sync, and how much of the value file
is synced. -/
structure StoredBlobs where
  store : BlobStore
  older : List (List (Option Slot))
  synced : ℕ

variable {key i : ℕ} {p : Place} {table : List (Option Slot)} {vals : List UInt8}
  {layout : BlobLayout} {slots : List Slot}

namespace StoredBlobs

/-- A new store is on the disk. -/
def create (layout : BlobLayout) : StoredBlobs := ⟨.create layout, [], 0⟩

variable (d : StoredBlobs)

/-- The key tables of which a power loss may leave slots. -/
def versions : List (List (Option Slot)) := d.store.slots.map some :: d.older

/-- What is done to a store. -/
inductive Act where
  | append (blob : List UInt8)
  | syncValues
  | setSlot (key : ℕ) (p : Place)
  | removeKey (key : ℕ)
  | syncKeys
  | compact
  /-- A power loss that leaves this table, header position and value file; the store is opened
  again. -/
  | powerLoss (table : List (Option Slot)) (writePos : ℕ) (vals : List UInt8)

/-- Slots may name a place: what is there reads and is synced. -/
def nameable (p : Place) : Bool :=
  (BlobStore.ownedEnd d.store.layout (d.store.vals.take d.synced) p).isSome

/-- The slot a table has at a position. -/
def slotAt (table : List (Option Slot)) (i : ℕ) : Option Slot := table.getD i (some .empty)

/-- Whether a power loss may leave this slot: one it had since the last sync, or a torn one if it
was written since. -/
def mayLeave (i : ℕ) (c : Option Slot) : Bool :=
  (d.versions.any fun t => decide (slotAt t i = c)) ||
    (decide (c = none) && d.versions.any fun t => decide (slotAt t i ≠ slotAt (d.store.slots.map some) i))

/-- Whether a power loss may leave these files. -/
def survives (table : List (Option Slot)) (vals : List UInt8) : Bool :=
  decide (table.length = d.store.slots.length) &&
    ((List.range table.length).all fun i => d.mayLeave i (slotAt table i)) &&
    decide (vals.take d.synced = d.store.vals.take d.synced) && decide (d.synced ≤ vals.length)

/-- One call, or a power loss and an open. -/
def step (d : StoredBlobs) : Act → Option StoredBlobs
  | .append blob =>
    if blob.length < 2 ^ 32 then some { d with store := (d.store.appendValue blob).1 } else none
  | .syncValues => some { d with synced := d.store.valueWritePos }
  | .setSlot key p =>
    if d.nameable p then
      some
        { store := d.store.setSlot key p
          older := d.store.makeRoom.slots.map some :: (if d.store.needsRehash then [] else d.older)
          synced := if d.store.needsRehash then d.store.valueWritePos else d.synced }
    else none
  | .removeKey key =>
    some { d with store := d.store.removeKey key, older := d.versions }
  | .syncKeys => some { d with older := [] }
  | .compact =>
    if d.store.compact.valueWritePos ≤ 2 ^ 64 then
      some ⟨d.store.compact, [], d.store.compact.valueWritePos⟩
    else none
  | .powerLoss table writePos vals =>
    if d.survives table vals then
      let store := BlobStore.openWith d.store.layout table writePos vals
      some ⟨store, [table], store.valueWritePos⟩
    else none

/-! ### Gaps -/

/-- The slots an open keeps of a table all of whose whole slots name bytes in the value file. -/
def keptSlots (table : List (Option Slot)) : List Slot := table.map fun c => c.getD .dead

/-- A live slot that is not reached from its key's home: a slot in between is empty. -/
def hasHole (table : List (Option Slot)) : Bool :=
  let slots := keptSlots table
  (List.range slots.length).any fun i =>
    match slots.getD i .empty with
    | .live key _ =>
      ((walk slots.length (BlobStore.hashKey key % slots.length)).takeWhile fun j => decide (j ≠ i)).any
        fun j => (slots.getD j .empty).isEmpty
    | _ => false

/-- A key that is live in two slots. -/
def hasTwice (table : List (Option Slot)) : Bool :=
  !decide (((entries (keptSlots table)).map Prod.fst).Nodup)

/-- **A gap**: a live slot with an empty one on the way to it, or a key that is live twice. -/
def hasGap (table : List (Option Slot)) : Bool := hasHole table || hasTwice table

/-- The action is no power loss that leaves a gap. -/
def Act.leavesNoGap : Act → Bool
  | .powerLoss table _ _ => !hasGap table
  | _ => true

/-- The action is no power loss. -/
def Act.running : Act → Bool
  | .powerLoss _ _ _ => false
  | _ => true

/-- **Every key that is listed is found**, and listed once. -/
def Findable (s : BlobStore) : Prop :=
  (∀ key ∈ s.keys, (s.getRef key).isSome = true) ∧ s.keys.Nodup

/-! ### The invariant -/

/-- Counts of a table that is not too full. -/
structure Counted (s : BlobStore) : Prop where
  sound : Sound BlobStore.hashKey s.slots
  count : s.count = live s.slots
  used : used s.slots ≤ s.count + s.tombstoneCount
  capacity : 16 ≤ s.slots.length

/-- **The invariant** of a store and its files. -/
structure Good (d : StoredBlobs) : Prop where
  counted : Counted d.store
  load : (d.store.count + d.store.tombstoneCount) * 10 ≤ d.store.slots.length * 7 + 10
  synced_le : d.synced ≤ d.store.valueWritePos
  pos_le : d.store.valueWritePos ≤ d.store.vals.length
  intact : ∀ t ∈ d.versions, ∀ key p, some (.live key p) ∈ t →
    BlobStore.IntactBelow d.store.layout d.store.vals d.synced p
  length : ∀ t ∈ d.older, t.length = d.store.slots.length
  full : ∀ t ∈ d.older, ∀ i, slotAt t i ≠ some .empty → (d.store.slots.getD i .empty).isEmpty = false

/-! ### Table operations -/

section Tables

variable {s : BlobStore}

theorem Counted.hasRoom (h : Counted s) (hload : (s.count + s.tombstoneCount) * 10 ≤ s.slots.length * 7) :
    HasRoom s.slots := by
  refine hasRoom_of_live_lt ?_
  have := h.count
  have := h.capacity
  omega

theorem counted_rehash (h : Counted s)
    (hload : (s.count + s.tombstoneCount) * 10 ≤ s.slots.length * 7 + 10) :
    Counted s.rehash ∧ (s.rehash.count + s.rehash.tombstoneCount) * 10 ≤ s.rehash.slots.length * 7 ∧
      ∀ key p, Has s.rehash.slots key p ↔ Has s.slots key p := by
  have hlive := length_entries s.slots
  have hcount := h.count
  have hcap := h.capacity
  have hfits : (entries s.slots).length ≤ s.slots.length * 2 := by
    have := h.used
    omega
  obtain ⟨hsound, hused, hlive', hlen, hhas⟩ :
      Sound hashKey (rebuild hashKey (s.slots.length * 2) (entries s.slots)) ∧ _ :=
    rebuild_spec (nodup_keys_iff.mpr h.sound.unique) hfits
  refine ⟨⟨hsound, hlive'.symm, hused.le, ?_⟩, ?_, fun key p => ?_⟩
  · rw [rehash, hlen]
    omega
  · rw [rehash]
    simp only [hlen]
    omega
  · rw [rehash, hhas, mem_entries]
    rfl

theorem counted_makeRoom (h : Counted s)
    (hload : (s.count + s.tombstoneCount) * 10 ≤ s.slots.length * 7 + 10) :
    Counted s.makeRoom ∧
      (s.makeRoom.count + s.makeRoom.tombstoneCount) * 10 ≤ s.makeRoom.slots.length * 7 ∧
      ∀ key p, Has s.makeRoom.slots key p ↔ Has s.slots key p := by
  rw [makeRoom]
  split_ifs with hfull
  · exact counted_rehash h hload
  · rw [needsRehash, decide_eq_true_eq] at hfull
    exact ⟨h, by omega, fun key p => Iff.rfl⟩

theorem counted_insert (h : Counted s)
    (hload : (s.count + s.tombstoneCount) * 10 ≤ s.slots.length * 7) (key : ℕ) (p : Place) {t : BlobStore}
    (hslots : t.slots = insert hashKey s.slots key p)
    (hcount : t.count = if (probe hashKey s.slots key).2 then s.count else s.count + 1)
    (htombs : t.tombstoneCount = s.tombstoneCount) :
    Counted t ∧ (t.count + t.tombstoneCount) * 10 ≤ t.slots.length * 7 + 10 := by
  have hroom := h.hasRoom hload
  obtain ⟨hused, hlive⟩ := count_insert hashKey key p hroom
  have hold := h.count
  have husedold := h.used
  have hlen : t.slots.length = s.slots.length := by rw [hslots, length_insert]
  rw [← hslots] at hused hlive
  have hsound : Sound hashKey t.slots := hslots ▸ h.sound.insert hroom
  rw [htombs, hlen]
  cases hfound : (probe hashKey s.slots key).2 with
  | true =>
    simp only [hfound, if_true] at hcount hused hlive
    exact ⟨⟨hsound, by omega, by omega, hlen ▸ h.capacity⟩, by omega⟩
  | false =>
    simp only [hfound, Bool.false_eq_true, if_false] at hcount hused hlive
    exact ⟨⟨hsound, by omega, by omega, hlen ▸ h.capacity⟩, by omega⟩

theorem counted_removeKey (h : Counted s) (key : ℕ) :
    Counted (s.removeKey key) ∧
      (s.removeKey key).count + (s.removeKey key).tombstoneCount = s.count + s.tombstoneCount ∧
      (s.removeKey key).slots = erase hashKey s.slots key := by
  obtain ⟨hused, hlive⟩ := count_erase hashKey s.slots key
  have hcount := h.count
  have husedold := h.used
  have hsound : Sound hashKey (erase hashKey s.slots key) := h.sound.erase
  rw [BlobStore.removeKey]
  split_ifs with hfound
  · rw [if_pos hfound] at hlive
    refine ⟨⟨hsound, ?_, ?_, ?_⟩, ?_, rfl⟩
    · simp only
      omega
    · simp only
      omega
    · rw [length_erase]
      exact h.capacity
    · simp only
      omega
  · exact ⟨h, rfl, by rw [erase, if_neg hfound]⟩

end Tables

/-! ### Steps -/

section Steps

variable {d e : StoredBlobs}

theorem good_create (layout : BlobLayout) : Good (create layout) := by
  have hslots : (create layout).store.slots = rebuild hashKey 16 [] := rfl
  obtain ⟨hsound, hused, hlive, hlen, hhas⟩ :
      Sound hashKey (rebuild hashKey 16 ([] : List (ℕ × Place))) ∧ _ :=
    rebuild_spec List.nodup_nil (Nat.zero_le 16)
  refine ⟨⟨hslots ▸ hsound, ?_, ?_, ?_⟩, ?_, le_rfl, Nat.zero_le _, ?_, by simp [create], by simp [create]⟩
  · rw [hslots, hlive]
    rfl
  · rw [hslots, hused]
    exact Nat.zero_le _
  · rw [hslots, hlen]
  · exact Nat.zero_le _
  · intro t ht key p hmem
    obtain rfl : t = _ := mem_singleton.mp ht
    obtain ⟨c, hc, heq⟩ := mem_map.mp hmem
    have := List.eq_of_mem_replicate hc
    simp [this] at heq

theorem Good.intact_slots (h : Good d) (hmem : Cell.live key p ∈ d.store.slots) :
    IntactBelow d.store.layout d.store.vals d.synced p :=
  h.intact _ List.mem_cons_self key p (List.mem_map_of_mem hmem)

theorem intactBelow_of_nameable (hp : d.nameable p = true) :
    IntactBelow d.store.layout d.store.vals d.synced p := by
  rw [nameable, Option.isSome_iff_exists] at hp
  obtain ⟨last, hlast⟩ := hp
  obtain ⟨hintact, hle⟩ := intactBelow_of_ownedEnd hlast
  rw [List.length_take] at hle
  refine (hintact.mono (show last ≤ d.synced by omega)).congr ?_ |>.1
  rw [List.take_take, min_self]

theorem good_append (h : Good d) (blob : List UInt8) :
    Good { d with store := (d.store.appendValue blob).1 } := by
  obtain ⟨htake, hle, hstop, hpos, -⟩ := appendValue_spec h.pos_le blob
  have hge : d.store.valueWritePos ≤ (d.store.appendValue blob).1.valueWritePos := by
    rw [← hstop, Place.stop]
    omega
  exact
    { counted := ⟨h.counted.sound, h.counted.count, h.counted.used, h.counted.capacity⟩
      load := h.load
      synced_le := h.synced_le.trans hge
      pos_le := hpos
      intact := fun t ht key p hmem => ((h.intact t ht key p hmem).congr
        (take_congr_of_le htake h.synced_le).symm).1
      length := h.length
      full := h.full }

theorem good_syncValues (h : Good d) : Good { d with synced := d.store.valueWritePos } :=
  { h with
    synced_le := le_rfl
    intact := fun t ht key p hmem => (h.intact t ht key p hmem).mono h.synced_le }

theorem good_syncKeys (h : Good d) : Good { d with older := [] } :=
  { h with
    intact := fun t ht key p hmem => h.intact t
      (mem_cons.mpr (.inl (mem_singleton.mp ht))) key p hmem
    length := by simp
    full := by simp }

@[simp] theorem slotAt_map (slots : List Slot) (i : ℕ) :
    slotAt (slots.map some) i = some (slots.getD i .empty) :=
  getD_map slots Cell.empty some

theorem keptSlots_getD (table : List (Option Slot)) (i : ℕ) :
    (keptSlots table).getD i .empty = (slotAt table i).getD .dead :=
  getD_map table (some Cell.empty) fun c : Option Slot => c.getD .dead

theorem mem_keptSlots : .live key p ∈ keptSlots table ↔ some (.live key p) ∈ table := by
  rw [keptSlots, mem_map]
  constructor
  · rintro ⟨c, hc, heq⟩
    cases c with
    | none => cases heq
    | some c => exact (show c = _ from heq) ▸ hc
  · exact fun h => ⟨_, h, rfl⟩

@[simp] theorem removeKey_layout (s : BlobStore) (key : ℕ) : (s.removeKey key).layout = s.layout := by
  rw [BlobStore.removeKey]
  split_ifs <;> rfl

@[simp] theorem removeKey_vals (s : BlobStore) (key : ℕ) : (s.removeKey key).vals = s.vals := by
  rw [BlobStore.removeKey]
  split_ifs <;> rfl

@[simp] theorem removeKey_valueWritePos (s : BlobStore) (key : ℕ) :
    (s.removeKey key).valueWritePos = s.valueWritePos := by
  rw [BlobStore.removeKey]
  split_ifs <;> rfl

theorem good_removeKey (h : Good d) (key : ℕ) :
    Good { d with store := d.store.removeKey key, older := d.versions } := by
  obtain ⟨hcounted, hsum, hslots⟩ := counted_removeKey h.counted key
  have hlen : (d.store.removeKey key).slots.length = d.store.slots.length := by
    rw [hslots, length_erase]
  have hmem : ∀ c ∈ (d.store.removeKey key).slots, c = .dead ∨ c ∈ d.store.slots := by
    intro c hc
    rw [hslots, erase] at hc
    split_ifs at hc
    · exact (List.mem_or_eq_of_mem_set hc).symm
    · exact .inr hc
  have hfull : ∀ i, (d.store.slots.getD i .empty).isEmpty = false →
      ((d.store.removeKey key).slots.getD i .empty).isEmpty = false := by
    intro i hi
    rw [hslots, erase]
    split_ifs
    · exact isEmpty_set rfl hi
    · exact hi
  refine ⟨hcounted, by simpa only [hsum, hlen] using h.load, by simpa using h.synced_le,
    by simpa using h.pos_le, fun t ht k p hkp => ?_, fun t ht => ?_, fun t ht i hi => ?_⟩
  · simp only [removeKey_layout, removeKey_vals]
    rcases mem_cons.mp ht with rfl | ht
    · obtain ⟨c, hc, heq⟩ := mem_map.mp hkp
      obtain rfl := Option.some.inj heq
      exact h.intact_slots ((hmem _ hc).resolve_left (by simp))
    · exact h.intact t ht k p hkp
  · simp only at ht ⊢
    rw [hlen]
    rcases mem_cons.mp ht with rfl | ht
    · rw [length_map]
    · exact h.length t ht
  · simp only at ht ⊢
    refine hfull i ?_
    rcases mem_cons.mp ht with rfl | ht
    · rw [slotAt_map, ne_eq, Option.some.injEq] at hi
      cases hcell : d.store.slots.getD i .empty <;> simp_all
    · exact h.full t ht i hi

/-- A rehash, if there is one, leaves a table that is on the disk. -/
theorem good_makeRoom (h : Good d) :
    Good
      { store := d.store.makeRoom
        older := if d.store.needsRehash then [] else d.older
        synced := if d.store.needsRehash then d.store.valueWritePos else d.synced } := by
  obtain ⟨hcounted, hload, hhas⟩ := counted_makeRoom h.counted h.load
  rw [makeRoom] at hcounted hload hhas ⊢
  split_ifs at hcounted hload hhas ⊢ with hfull
  · refine ⟨hcounted, by simp only; omega, le_rfl, h.pos_le, fun t ht key p hmem => ?_, by simp, by simp⟩
    obtain rfl := mem_singleton.mp ht
    obtain ⟨c, hc, heq⟩ := mem_map.mp hmem
    obtain rfl := Option.some.inj heq
    obtain ⟨i, hi⟩ := (hhas key p).mp (mem_iff_getElem?.mp hc)
    exact (h.intact_slots (mem_of_getElem? hi)).mono h.synced_le
  · exact h

theorem good_setSlot (h : Good d) (key : ℕ) (hp : d.nameable p = true) :
    Good
      { store := d.store.setSlot key p
        older := d.store.makeRoom.slots.map some :: (if d.store.needsRehash then [] else d.older)
        synced := if d.store.needsRehash then d.store.valueWritePos else d.synced } := by
  have hroom := good_makeRoom h
  obtain ⟨hcounted, hload, -⟩ := counted_makeRoom h.counted h.load
  obtain ⟨hcounted', hload'⟩ := counted_insert hcounted hload key p (t := d.store.setSlot key p)
    rfl rfl rfl
  have hplace : IntactBelow d.store.makeRoom.layout d.store.makeRoom.vals
      (if d.store.needsRehash then d.store.valueWritePos else d.synced) p := by
    have hold := intactBelow_of_nameable hp
    rw [makeRoom]
    split_ifs
    · exact hold.mono h.synced_le
    · exact hold
  have hlen : (d.store.setSlot key p).slots.length = d.store.makeRoom.slots.length := length_insert
  have hkept : ∀ i, (d.store.makeRoom.slots.getD i .empty).isEmpty = false →
      ((d.store.setSlot key p).slots.getD i .empty).isEmpty = false := fun i hi => isEmpty_set rfl hi
  refine ⟨hcounted', hload', hroom.synced_le, hroom.pos_le, fun t ht k q hkq => ?_, fun t ht => ?_,
    fun t ht i hi => ?_⟩
  · rcases mem_cons.mp ht with rfl | ht
    · obtain ⟨c, hc, heq⟩ := mem_map.mp hkq
      obtain rfl := Option.some.inj heq
      rcases List.mem_or_eq_of_mem_set hc with hc | heq
      · exact hroom.intact_slots hc
      · obtain ⟨rfl, rfl⟩ := Cell.live.inj heq
        exact hplace
    · exact hroom.intact t ht k q hkq
  · simp only at ht ⊢
    rw [hlen]
    rcases mem_cons.mp ht with rfl | ht
    · rw [length_map]
    · exact hroom.length t ht
  · simp only at ht ⊢
    refine hkept i ?_
    rcases mem_cons.mp ht with rfl | ht
    · rw [slotAt_map, ne_eq, Option.some.injEq] at hi
      cases hcell : d.store.makeRoom.slots.getD i .empty <;> simp_all
    · exact hroom.full t ht i hi

theorem good_compact (h : Good d) (hfile : d.store.compact.valueWritePos ≤ 2 ^ 64) :
    Good ⟨d.store.compact, [], d.store.compact.valueWritePos⟩ := by
  have hlimit : d.synced ≤ d.store.vals.length := h.synced_le.trans h.pos_le
  have hintact : ∀ e ∈ entries d.store.slots,
      IntactBelow d.store.layout d.store.vals d.synced e.2 := fun e he => by
    obtain ⟨i, hi⟩ := mem_entries.mp he
    exact h.intact_slots (mem_of_getElem? hi)
  have hmoved := moveAll_spec (entries d.store.slots) [] hlimit hintact hfile
  have hkeys : (d.store.moveAll (entries d.store.slots) []).2.map Prod.fst =
      (entries d.store.slots).map Prod.fst := by
    rw [eq_comm]
    refine List.forall₂_eq_eq_eq ▸ List.forall₂_map_left_iff.mpr (List.forall₂_map_right_iff.mpr ?_)
    exact hmoved.imp fun e m hem => hem.1.symm
  have hcount : (d.store.moveAll (entries d.store.slots) []).2.length = live d.store.slots := by
    rw [← length_entries, ← length_map (f := Prod.fst), hkeys, length_map]
  have hold := h.counted.count
  have hused := h.counted.used
  have hload := h.load
  have hcap := h.counted.capacity
  have hlive := live_le_used d.store.slots
  obtain ⟨hsound, hused', hlive', hlen, hhas⟩ : Sound hashKey (rebuild hashKey
      d.store.slots.length (d.store.moveAll (entries d.store.slots) []).2) ∧ _ :=
    rebuild_spec (hkeys ▸ nodup_keys_iff.mpr h.counted.sound.unique) (by omega)
  refine ⟨⟨hsound, hlive'.symm, hused'.le, ?_⟩, ?_, le_rfl, ?_, fun t ht key p hmem => ?_, by simp, by simp⟩
  · simp only [BlobStore.compact, hlen]
    exact hcap
  · simp only [BlobStore.compact, hlen]
    omega
  · simp only [BlobStore.compact, List.length_append]
    omega
  · obtain rfl := mem_singleton.mp ht
    obtain ⟨c, hc, heq⟩ := mem_map.mp hmem
    obtain rfl := Option.some.inj heq
    obtain ⟨e, -, -, hplace, -⟩ := exists_of_mem_right hmoved
      ((hhas key p).mp (mem_iff_getElem?.mp hc))
    exact (hplace.congr (by rw [List.take_length]; exact List.take_left.symm)).1

/-! ### Power loss -/

theorem of_mayLeave {c : Option Slot} (h : d.mayLeave i c = true) :
    (∃ t ∈ d.versions, slotAt t i = c) ∨
      (c = none ∧ ∃ t ∈ d.versions, slotAt t i ≠ some (d.store.slots.getD i .empty)) := by
  rw [mayLeave, Bool.or_eq_true, Bool.and_eq_true, List.any_eq_true, List.any_eq_true] at h
  simpa only [decide_eq_true_eq, slotAt_map] using h

theorem of_survives (h : d.survives table vals = true) :
    table.length = d.store.slots.length ∧ (∀ i < table.length, d.mayLeave i (slotAt table i) = true) ∧
      vals.take d.synced = d.store.vals.take d.synced ∧ d.synced ≤ vals.length := by
  simpa only [survives, Bool.and_eq_true, decide_eq_true_eq, List.all_eq_true, List.mem_range,
    and_assoc] using h

/-- A slot that a power loss leaves live names bytes that are synced. -/
theorem Good.intact_left (h : Good d) (hsurv : d.survives table vals = true)
    (hmem : some (.live key p) ∈ table) : IntactBelow d.store.layout vals d.synced p := by
  obtain ⟨-, hleft, hvals, -⟩ := of_survives hsurv
  obtain ⟨i, hi⟩ := mem_iff_getElem?.mp hmem
  have hat : slotAt table i = some (.live key p) := by
    rw [slotAt, List.getD_eq_getElem?_getD, hi, Option.getD_some]
  obtain ⟨t, ht, hti⟩ | ⟨hnone, -⟩ := of_mayLeave (hleft i (List.getElem?_eq_some_iff.mp hi).1)
  · rw [hat] at hti
    have hin : some (.live key p) ∈ t := by
      rw [slotAt, List.getD_eq_getElem?_getD] at hti
      cases hget : t[i]? with
      | none =>
        rw [hget, Option.getD_none] at hti
        cases hti
      | some c =>
        rw [hget, Option.getD_some] at hti
        exact hti ▸ mem_of_getElem? hget
    exact ((h.intact t ht key p hin).congr hvals.symm).1
  · rw [hat] at hnone
    cases hnone

/-- An open drops torn slots only. -/
theorem Good.openWith_slots (h : Good d) (hsurv : d.survives table vals = true) (writePos : ℕ) :
    (openWith d.store.layout table writePos vals).slots = keptSlots table := by
  obtain ⟨-, -, -, hsynced⟩ := of_survives hsurv
  refine List.map_congr_left fun c hc => ?_
  match c, hc with
  | none, _ => rfl
  | some .empty, _ => rfl
  | some .dead, _ => rfl
  | some (.live key p), hc =>
    obtain ⟨last, hlast, -⟩ := (h.intact_left hsurv hc).exists_ownedEnd hsynced
    rw [repairSlot, hlast]
    rfl

/-- The write position is behind everything a live slot owns. -/
theorem ownedEnd_le_maxEnd (hmem : (key, p) ∈ entries slots) {last : ℕ}
    (hlast : ownedEnd layout vals p = some last) :
    last ≤ maxEnd layout vals slots := by
  have hfold : ∀ (es : List (ℕ × Place)) (m : ℕ),
      m ≤ es.foldl (fun m e => max m ((ownedEnd layout vals e.2).getD 0)) m ∧
        ((key, p) ∈ es →
          last ≤ es.foldl (fun m e => max m ((ownedEnd layout vals e.2).getD 0)) m) := by
    intro es
    induction es with
    | nil => exact fun m => ⟨le_rfl, fun hno => nomatch hno⟩
    | cons e es ih =>
      intro m
      obtain ⟨hle, hin⟩ := ih (max m ((ownedEnd layout vals e.2).getD 0))
      refine ⟨(le_max_left _ _).trans hle, fun hmem => ?_⟩
      rcases mem_cons.mp hmem with rfl | hmem
      · refine le_trans ?_ hle
        rw [hlast]
        exact le_max_right _ _
      · exact hin hmem
  exact (hfold _ 0).2 hmem

theorem maxEnd_le : maxEnd layout vals slots ≤ vals.length := by
  have hfold : ∀ (es : List (ℕ × Place)) (m : ℕ), m ≤ vals.length →
      es.foldl (fun m e => max m ((ownedEnd layout vals e.2).getD 0)) m ≤ vals.length := by
    intro es
    induction es with
    | nil => exact fun m hm => hm
    | cons e es ih =>
      intro m hm
      refine ih _ (max_le hm ?_)
      cases hlast : ownedEnd layout vals e.2 with
      | none => exact Nat.zero_le _
      | some last => exact (intactBelow_of_ownedEnd hlast).2
  exact hfold _ 0 (Nat.zero_le _)

/-- A slot that a power loss leaves in use was in use. -/
theorem Good.full_left (h : Good d) (hsurv : d.survives table vals = true)
    (hi : slotAt table i ≠ some .empty) : (d.store.slots.getD i .empty).isEmpty = false := by
  obtain ⟨-, hleft, -⟩ := of_survives hsurv
  have hlt : i < table.length := by
    by_contra hge
    exact hi (by rw [slotAt, List.getD_eq_default _ _ (not_lt.mp hge)])
  obtain ⟨t, ht, hti⟩ | ⟨-, t, ht, hti⟩ := of_mayLeave (hleft i hlt)
  · rcases mem_cons.mp ht with rfl | ht
    · rw [slotAt_map] at hti
      rw [← hti, ne_eq, Option.some.injEq] at hi
      exact Cell.isEmpty_eq_false_iff.mpr hi
    · exact h.full t ht i (hti ▸ hi)
  · rcases mem_cons.mp ht with rfl | ht
    · exact absurd (slotAt_map _ _) hti
    · -- the slot was written since the last sync, so it is in use
      by_contra hempty
      rw [Bool.not_eq_false] at hempty
      refine hempty.symm.trans (h.full t ht i ?_) |> Bool.noConfusion
      cases hcell : d.store.slots.getD i .empty <;> simp_all

/-- **A power loss that leaves no gap.** -/
theorem good_powerLoss (h : Good d) (hsurv : d.survives table vals = true)
    (hsound : Sound hashKey (keptSlots table)) (writePos : ℕ) :
    Good ⟨openWith d.store.layout table writePos vals, [table],
      (openWith d.store.layout table writePos vals).valueWritePos⟩ := by
  obtain ⟨hlen, hleft, hvals, hsynced⟩ := of_survives hsurv
  have hslots := h.openWith_slots hsurv writePos
  have hlen' : (keptSlots table).length = d.store.slots.length := by
    rw [keptSlots, length_map, hlen]
  have hfull : ∀ i, ((keptSlots table).getD i .empty).isEmpty = false →
      (d.store.slots.getD i .empty).isEmpty = false := fun i hi => h.full_left hsurv fun hempty => by
    rw [keptSlots_getD, hempty] at hi
    cases hi
  have hused := used_le hlen' hfull
  have hold := h.counted.used
  have hload := h.load
  have hcount : (openWith d.store.layout table writePos vals).count =
      live (keptSlots table) := congrArg live hslots
  have htombs : (openWith d.store.layout table writePos vals).tombstoneCount =
      (keptSlots table).countP Cell.isDead := congrArg (List.countP Cell.isDead) hslots
  have hsplit := used_eq (keptSlots table)
  refine ⟨⟨hslots ▸ hsound, hcount.trans (by rw [hslots]), ?_, ?_⟩, ?_, le_rfl, ?_,
    fun t ht key p hmem => ?_, fun t ht => ?_, fun t ht i hi => ?_⟩
  · simp only [hslots, hcount, htombs]
    omega
  · simp only [hslots, hlen']
    exact h.counted.capacity
  · simp only [hslots, hlen', hcount, htombs]
    omega
  · exact max_le (min_le_right _ _) maxEnd_le
  · have hmem' : some (.live key p) ∈ table := by
      rcases mem_cons.mp ht with rfl | ht
      · obtain ⟨c, hc, heq⟩ := mem_map.mp hmem
        obtain rfl := Option.some.inj heq
        simp only [hslots] at hc
        exact mem_keptSlots.mp hc
      · exact mem_singleton.mp ht ▸ hmem
    obtain ⟨last, hlast, -⟩ := (h.intact_left hsurv hmem').exists_ownedEnd hsynced
    have hin : (key, p) ∈ entries (openWith d.store.layout table writePos vals).slots := by
      rw [hslots]
      exact mem_entries.mpr (mem_iff_getElem?.mp (mem_keptSlots.mpr hmem'))
    exact (intactBelow_of_ownedEnd hlast).1.mono
      ((ownedEnd_le_maxEnd hin hlast).trans (le_max_right _ _))
  · obtain rfl := mem_singleton.mp ht
    simp only [hslots, hlen', hlen]
  · obtain rfl := mem_singleton.mp ht
    simp only [hslots, keptSlots_getD]
    rw [Cell.isEmpty_eq_false_iff]
    cases hcell : slotAt t i with
    | none => simp
    | some c =>
      rw [hcell, ne_eq, Option.some.injEq] at hi
      exact hi

/-- One call keeps the invariant, and so does a power loss that leaves no gap. -/
theorem good_step {a : Act} (h : Good d) (hstep : step d a = some e)
    (hloss : ∀ table writePos vals, a = .powerLoss table writePos vals →
      Sound hashKey (keptSlots table)) : Good e := by
  cases a with
  | append blob =>
    obtain ⟨-, rfl⟩ := Option.ite_some_none_eq_some.mp hstep
    exact good_append h blob
  | syncValues =>
    obtain rfl := Option.some.inj hstep
    exact good_syncValues h
  | setSlot key p =>
    obtain ⟨hp, rfl⟩ := Option.ite_some_none_eq_some.mp hstep
    exact good_setSlot h key hp
  | removeKey key =>
    obtain rfl := Option.some.inj hstep
    exact good_removeKey h key
  | syncKeys =>
    obtain rfl := Option.some.inj hstep
    exact good_syncKeys h
  | compact =>
    obtain ⟨hfile, rfl⟩ := Option.ite_some_none_eq_some.mp hstep
    exact good_compact h hfile
  | powerLoss table writePos vals =>
    obtain ⟨hsurv, rfl⟩ := Option.ite_some_none_eq_some.mp hstep
    exact good_powerLoss h hsurv (hloss table writePos vals rfl) writePos

end Steps

/-! ### Gaps and soundness -/

/-- A position is met if nothing before its first occurrence is empty. -/
theorem met_iff {path : List ℕ} (hi : i ∈ path) :
    Met slots path i ↔
      ((path.takeWhile fun j => decide (j ≠ i)).any fun j => (slots.getD j .empty).isEmpty) = false := by
  induction path with
  | nil => cases hi
  | cons j path ih =>
    by_cases hj : j = i
    · subst hj
      simp only [ne_eq, not_true_eq_false, decide_false, Bool.false_eq_true, not_false_eq_true,
        List.takeWhile_cons_of_neg, List.any_nil, iff_true]
      exact Met.head slots j path
    · have hi' : i ∈ path := (mem_cons.mp hi).resolve_left (Ne.symm hj)
      rw [List.takeWhile_cons_of_pos (by simpa using hj), List.any_cons, Bool.or_eq_false_iff,
        ← ih hi']
      refine ⟨fun h => (h.of_cons).resolve_left (Ne.symm hj), fun h => h.2.cons h.1⟩

theorem hasHole_eq_false_iff : hasHole table = false ↔
    ∀ i key, LiveAt (keptSlots table) i key → Met (keptSlots table)
      (walk (keptSlots table).length (hashKey key % (keptSlots table).length)) i := by
  simp only [hasHole, List.any_eq_false, List.mem_range]
  constructor
  · intro h i key hlive
    have hlt := hlive.lt
    obtain ⟨p, hp⟩ := hlive.getD
    have hi := h i hlt
    rw [hp] at hi
    exact (met_iff ((mem_walk (Nat.mod_lt _ (by omega))).mpr hlt)).mpr (by simpa using hi)
  · intro h i hlt
    cases hcell : (keptSlots table).getD i .empty with
    | empty => simp
    | dead => simp
    | live key p =>
      have hmet := (met_iff ((mem_walk (Nat.mod_lt _ (by omega))).mpr hlt)).mp
        (h i key (liveAt_of_getD hcell))
      simpa using hmet

/-- **A table has no gap exactly if what is kept of it is sound.** -/
theorem hasGap_eq_false_iff : hasGap table = false ↔ Sound hashKey (keptSlots table) := by
  rw [hasGap, Bool.or_eq_false_iff, hasHole_eq_false_iff, hasTwice, Bool.not_eq_false',
    decide_eq_true_eq, nodup_keys_iff]
  exact ⟨fun h => ⟨h.2, h.1⟩, fun h => ⟨h.met, h.unique⟩⟩

theorem Good.findable {d : StoredBlobs} (h : Good d) : Findable d.store := by
  refine ⟨fun key hkey => ?_, nodup_keys_iff.mpr h.counted.sound.unique⟩
  obtain ⟨e, he, rfl⟩ := mem_map.mp hkey
  obtain ⟨i, hi⟩ := mem_entries.mp he
  have hstop := (h.intact_slots (mem_of_getElem? hi)).1
  rw [getRef, find, h.counted.sound.lookup_eq_some_iff.mpr ⟨i, hi⟩,
    Option.bind_some, valueSlice, if_pos (hstop.trans (h.synced_le.trans h.pos_le))]
  rfl

/-- A store all of whose keys are found, and listed once, has a sound table. -/
theorem Findable.sound {s : BlobStore} (h : Findable s) : Sound hashKey s.slots := by
  refine sound_iff.mpr ⟨nodup_keys_iff.mp h.2, fun i key hlive => ?_⟩
  obtain ⟨p, hp⟩ := hlive
  have hfound := h.1 key (mem_map.mpr ⟨(key, p), mem_entries.mpr ⟨i, hp⟩, rfl⟩)
  rw [getRef, find, LinearProbe.lookup] at hfound
  by_contra hno
  rw [if_neg hno] at hfound
  cases hfound

/-! ### Main result -/

theorem good_run {acts : List Act} {d : StoredBlobs}
    (hrun : StepRun.run step (create layout) acts = some d)
    (hacts : ∀ a ∈ acts, a.leavesNoGap = true) : Good d := by
  refine StepRun.invariant_of_mem ?_ (good_create layout) hacts hrun
  intro d a e hd ha hstep
  refine good_step hd hstep fun table writePos vals hloss => hasGap_eq_false_iff.mp ?_
  subst hloss
  simpa [Act.leavesNoGap] using ha

/-- **Repair at open.** In every run whose power losses leave no gap, every key that is listed is
found, and listed once; and whatever the next power loss leaves, this holds after the open and
after any further calls exactly if it leaves no gap. -/
theorem findable_iff {layout : BlobLayout} {acts : List Act} {d : StoredBlobs}
    (hrun : StepRun.run step (create layout) acts = some d)
    (hacts : ∀ a ∈ acts, a.leavesNoGap = true) :
    Findable d.store ∧ ∀ table writePos vals e,
      step d (.powerLoss table writePos vals) = some e →
        ((∀ more e', StepRun.run step e more = some e' → (∀ a ∈ more, a.running = true) →
          Findable e'.store) ↔ hasGap table = false) := by
  have hgood := good_run hrun hacts
  refine ⟨hgood.findable, fun table writePos vals e hstep => ⟨fun hall => ?_, fun hno => ?_⟩⟩
  · have hfind := (hall [] e rfl (by simp)).sound
    obtain ⟨hsurv, heq⟩ := Option.ite_none_right_eq_some.mp hstep
    obtain rfl := Option.some.inj heq
    rw [hgood.openWith_slots hsurv writePos] at hfind
    exact hasGap_eq_false_iff.mpr hfind
  · intro more e' hmore hrunning
    have hopen : Good e := good_step hgood hstep fun table' writePos' vals' hloss => by
      obtain ⟨rfl, -, -⟩ := Act.powerLoss.inj hloss
      exact hasGap_eq_false_iff.mp hno
    refine (StepRun.invariant_of_mem ?_ hopen hrunning hmore : Good e').findable
    intro d a e hd ha hstep
    refine good_step hd hstep fun table writePos vals hloss => ?_
    subst hloss
    cases ha

/-- Two keys with one home are set; what is lost of the table is the slot of the second. -/
def lostLast : List Act :=
  [.append [7], .append [8], .syncValues, .setSlot 0 ⟨0, 1⟩, .setSlot 16 ⟨16, 1⟩,
    .powerLoss (some (.live 0 ⟨0, 1⟩) :: List.replicate 15 (some .empty)) 17
      ([7] ++ List.replicate 15 0 ++ [8] ++ List.replicate 4079 0)]

theorem findable_iff_lostLast :
    ∃ d, StepRun.run step (create .flat) lostLast = some d ∧ d.store.keys = [0] ∧
      Findable d.store := by
  have hrun : (StepRun.run step (create .flat) lostLast).map (fun d => d.store.keys) = some [0] := by
    decide +kernel
  obtain ⟨d, hrun, hkeys⟩ := Option.map_eq_some_iff.mp hrun
  exact ⟨d, hrun, hkeys, (findable_iff hrun (by decide +kernel)).1⟩

/-- What is lost is the slot of the first. -/
def lostFirst : List Act :=
  [.append [7], .append [8], .syncValues, .setSlot 0 ⟨0, 1⟩, .setSlot 16 ⟨16, 1⟩,
    .powerLoss (some .empty :: some (.live 16 ⟨16, 1⟩) :: List.replicate 14 (some .empty)) 17
      ([7] ++ List.replicate 15 0 ++ [8] ++ List.replicate 4079 0)]

/-- **A lost slot hides a key** that the store lists. -/
theorem lostFirst_hides_key :
    ∃ d, StepRun.run step (create .flat) lostFirst = some d ∧ d.store.keys = [16] ∧
      d.store.getRef 16 = none ∧ ¬ Findable d.store := by
  have hrun : (StepRun.run step (create .flat) lostFirst).map
      (fun d => (d.store.keys, d.store.getRef 16)) = some ([16], none) := by
    decide +kernel
  obtain ⟨d, hrun, heq⟩ := Option.map_eq_some_iff.mp hrun
  obtain ⟨hkeys, hnone⟩ := Prod.mk.inj heq
  refine ⟨d, hrun, hkeys, hnone, fun hfind => ?_⟩
  have hsome := hfind.1 16 (by rw [hkeys]; exact List.mem_singleton_self 16)
  rw [hnone] at hsome
  cases hsome

end StoredBlobs

end Minnal
