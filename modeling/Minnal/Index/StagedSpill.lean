import Mathlib.Data.Nat.Basic
import Mathlib.Data.Option.Basic
import Mathlib.Order.Basic
import Mathlib.Tactic.Common

/-!
# Staged spills of a field index

A field index keeps the bitmaps that changed since the last **spill** in memory, in its overlay.
A spill writes them out in steps between which the index may be used: **stage** appends the
changed bitmaps to the value file, where no slot points at them yet; the values are synced;
**commit** points the slots at them and drops from the overlay what has not changed since the
stage; the key tables are synced. A bitmap that emptied is staged as a removal, and its slot stays
reserved for its value until a commit frees it. The key map names the value of each slot; it is a
store of the same kind, and a freed slot's name is removed by the commit after the one that
freed it.

The index keeps what it holds through every step (`Sound`), and a commit leaves in the stores
what the index held when it was staged (`Staged`, `commit_sound`), unless a value that was
staged as emptied has been given rows in between.
-/

namespace Minnal

namespace FieldSpill

open Function
open Option (map_eq_some_iff bind_some isSome_iff_exists or_eq_some_iff ite_none_left_eq_some)

/-! ### A store of blobs -/

/-- A place in a value file: the file, the batch it was appended with and the slot it is for. -/
structure Place where
  file : ℕ
  batch : ℕ
  slot : ℕ
  deriving DecidableEq

/-- A blob store: a value file and the slots that point into it, in memory and as synced. -/
structure Blobs (α : Type) where
  file : ℕ
  batch : ℕ
  vals : Place → Option α
  slots : ℕ → Option Place
  diskVals : Place → Option α
  diskSlots : ℕ → Option Place

namespace Blobs

variable {α : Type}

def create : Blobs α where
  file := 0
  batch := 0
  vals _ := none
  slots _ := none
  diskVals _ := none
  diskSlots _ := none

variable (b : Blobs α)

/-- The blob of a slot. -/
def read (slot : ℕ) : Option α := (b.slots slot).bind b.vals

/-- The blob of a slot in what has been synced. -/
def onDisk (slot : ℕ) : Option α := (b.diskSlots slot).bind b.diskVals

/-- Where a batch of blobs goes. -/
def placeOf (blobs : ℕ → Option α) (slot : ℕ) : Option Place :=
  (blobs slot).map fun _ => ⟨b.file, b.batch, slot⟩

/-- Append a batch of blobs; no slot points at them. -/
def appendValues (blobs : ℕ → Option α) : Blobs α :=
  { b with
    batch := b.batch + 1
    vals := fun p => if p.file = b.file ∧ p.batch = b.batch then blobs p.slot else b.vals p }

def setSlots (sets : ℕ → Option Place) : Blobs α :=
  { b with slots := fun slot => (sets slot).or (b.slots slot) }

def removeKeys (removed : ℕ → Bool) : Blobs α :=
  { b with slots := fun slot => if removed slot then none else b.slots slot }

def syncValues : Blobs α := { b with diskVals := b.vals }

def syncKeys : Blobs α := { b with diskSlots := b.slots }

/-- Write what the slots hold into a new pair of files and swap them in. -/
def compact : Blobs α :=
  let vals := fun p : Place => if p.file = b.file + 1 ∧ p.batch = 0 then b.read p.slot else none
  let slots := fun slot => (b.slots slot).map fun _ => (⟨b.file + 1, 0, slot⟩ : Place)
  { file := b.file + 1, batch := 1, vals := vals, slots := slots, diskVals := vals,
    diskSlots := slots }

/-- **A store in order.** Every slot points at a synced blob of the value file. -/
structure Ok (b : Blobs α) : Prop where
  fresh : ∀ p x, b.vals p = some x → p.file = b.file ∧ p.batch < b.batch
  synced : ∀ p x, b.diskVals p = some x → b.vals p = some x
  solid : ∀ slot p, b.slots slot = some p → ∃ x, b.diskVals p = some x
  diskSolid : ∀ slot p, b.diskSlots slot = some p → ∃ x, b.diskVals p = some x

theorem ok_create : (create : Blobs α).Ok where
  fresh _ _ h := by cases h
  synced _ _ h := by cases h
  solid _ _ h := by cases h
  diskSolid _ _ h := by cases h

variable {b}

namespace Ok

variable (h : b.Ok)

include h

/-- A slot that is set has a blob. -/
theorem read_isSome {slot : ℕ} {p : Place} (hp : b.slots slot = some p) :
    ∃ x, b.read slot = some x := by
  obtain ⟨x, hx⟩ := h.solid slot p hp
  refine ⟨x, ?_⟩
  rw [read, hp, bind_some]
  exact h.synced p x hx

/-- A batch does not touch the blobs before it. -/
theorem vals_appendValues {blobs : ℕ → Option α} {p : Place} {x : α} (hp : b.vals p = some x) :
    (b.appendValues blobs).vals p = some x := by
  have hbatch := (h.fresh p x hp).2
  change (if p.file = b.file ∧ p.batch = b.batch then blobs p.slot else b.vals p) = some x
  rw [if_neg fun hnew => Nat.lt_irrefl _ (hnew.2 ▸ hbatch)]
  exact hp

theorem appendValues (blobs : ℕ → Option α) : (b.appendValues blobs).Ok where
  fresh p x hp := by
    change (if p.file = b.file ∧ p.batch = b.batch then blobs p.slot else b.vals p) = some x at hp
    split_ifs at hp with hnew
    · exact ⟨hnew.1, hnew.2 ▸ Nat.lt_succ_self _⟩
    · obtain ⟨hfile, hbatch⟩ := h.fresh p x hp
      exact ⟨hfile, Nat.lt_succ_of_lt hbatch⟩
  synced p x hp := h.vals_appendValues (h.synced p x hp)
  solid := h.solid
  diskSolid := h.diskSolid

theorem read_appendValues (blobs : ℕ → Option α) (slot : ℕ) :
    (b.appendValues blobs).read slot = b.read slot := by
  cases hp : b.slots slot with
  | none =>
    rw [read, read, hp]
    exact congrArg (fun o => Option.bind o _) hp
  | some p =>
    obtain ⟨x, hx⟩ := h.solid slot p hp
    have hnew : (b.appendValues blobs).slots slot = some p := hp
    rw [read, read, hp, hnew, bind_some, bind_some, h.synced p x hx]
    exact h.vals_appendValues (h.synced p x hx)

theorem syncValues : b.syncValues.Ok where
  fresh := h.fresh
  synced _ _ hp := hp
  solid slot p hp := (h.solid slot p hp).imp fun x hx => h.synced p x hx
  diskSolid slot p hp := (h.diskSolid slot p hp).imp fun x hx => h.synced p x hx

theorem onDisk_syncValues (slot : ℕ) : b.syncValues.onDisk slot = b.onDisk slot := by
  cases hp : b.diskSlots slot with
  | none =>
    rw [onDisk, onDisk, hp]
    exact congrArg (fun o => Option.bind o _) hp
  | some p =>
    obtain ⟨x, hx⟩ := h.diskSolid slot p hp
    have hsame : b.syncValues.diskSlots slot = some p := hp
    rw [onDisk, onDisk, hp, hsame, bind_some, bind_some, hx]
    exact h.synced p x hx

theorem syncKeys : b.syncKeys.Ok where
  fresh := h.fresh
  synced := h.synced
  solid := h.solid
  diskSolid := h.solid

theorem onDisk_syncKeys (slot : ℕ) : b.syncKeys.onDisk slot = b.read slot := by
  cases hp : b.slots slot with
  | none =>
    rw [onDisk, read, hp]
    exact congrArg (fun o => Option.bind o _) hp
  | some p =>
    obtain ⟨x, hx⟩ := h.solid slot p hp
    have hsame : b.syncKeys.diskSlots slot = some p := hp
    rw [onDisk, read, hp, hsame, bind_some, bind_some, h.synced p x hx]
    exact hx

theorem setSlots {sets : ℕ → Option Place}
    (hsets : ∀ slot p, sets slot = some p → ∃ x, b.diskVals p = some x) : (b.setSlots sets).Ok where
  fresh := h.fresh
  synced := h.synced
  solid slot p hp := by
    change (sets slot).or (b.slots slot) = some p at hp
    rcases or_eq_some_iff.mp hp with hset | ⟨-, hold⟩
    · exact hsets slot p hset
    · exact h.solid slot p hold
  diskSolid := h.diskSolid

theorem removeKeys (removed : ℕ → Bool) : (b.removeKeys removed).Ok where
  fresh := h.fresh
  synced := h.synced
  solid slot p hp := by
    change (if removed slot then none else b.slots slot) = some p at hp
    split_ifs at hp
    exact h.solid slot p hp
  diskSolid := h.diskSolid

theorem compact : b.compact.Ok where
  fresh p x hp := by
    change (if p.file = b.file + 1 ∧ p.batch = 0 then b.read p.slot else none) = some x at hp
    split_ifs at hp with hnew
    exact ⟨hnew.1, hnew.2 ▸ Nat.zero_lt_one⟩
  synced _ _ hp := hp
  solid slot p hp := by
    obtain ⟨q, hq, rfl⟩ := map_eq_some_iff.mp hp
    obtain ⟨x, hx⟩ := h.read_isSome hq
    exact ⟨x, (if_pos ⟨rfl, rfl⟩).trans hx⟩
  diskSolid slot p hp := by
    obtain ⟨q, hq, rfl⟩ := map_eq_some_iff.mp hp
    obtain ⟨x, hx⟩ := h.read_isSome hq
    exact ⟨x, (if_pos ⟨rfl, rfl⟩).trans hx⟩

end Ok

/-- Compaction moves blobs and keeps what is read. -/
theorem read_compact (slot : ℕ) : b.compact.read slot = b.read slot := by
  cases hp : b.slots slot with
  | none =>
    have hnew : b.compact.slots slot = none := by
      change (b.slots slot).map _ = none
      rw [hp]
      rfl
    rw [read, read, hp, hnew]
    rfl
  | some p =>
    have hnew : b.compact.slots slot = some ⟨b.file + 1, 0, slot⟩ := by
      change (b.slots slot).map _ = _
      rw [hp]
      rfl
    rw [read, hnew, bind_some]
    exact if_pos ⟨rfl, rfl⟩

variable {slot : ℕ} {p : Place} {sets : ℕ → Option Place}

/-- A slot is read as it is set. -/
theorem read_setSlots_of_some (hp : sets slot = some p) :
    (b.setSlots sets).read slot = b.vals p := by
  have hnew : (b.setSlots sets).slots slot = some p := by
    change (sets slot).or (b.slots slot) = some p
    rw [hp]
    rfl
  rw [read, hnew]
  rfl

theorem read_setSlots_of_none (hp : sets slot = none) :
    (b.setSlots sets).read slot = b.read slot := by
  have hnew : (b.setSlots sets).slots slot = b.slots slot := by
    change (sets slot).or (b.slots slot) = b.slots slot
    rw [hp]
    rfl
  rw [read, hnew]
  rfl

theorem read_removeKeys (removed : ℕ → Bool) (slot : ℕ) :
    (b.removeKeys removed).read slot = if removed slot then none else b.read slot := by
  rw [read, removeKeys]
  dsimp only
  split_ifs <;> rfl

/-- A batch is where its places say. -/
theorem vals_placeOf {blobs : ℕ → Option α} (hp : b.placeOf blobs slot = some p) :
    (b.appendValues blobs).vals p = blobs slot := by
  obtain ⟨x, -, rfl⟩ := map_eq_some_iff.mp hp
  exact if_pos ⟨rfl, rfl⟩

end Blobs

/-! ### The index -/

/-- What a slot holds now, if that has changed since the last spill: none if it emptied. The
version tells changes apart. -/
structure SlotChanges (β : Type) where
  bitmap : Option β
  ver : ℕ

/-- A field index: the slots of its values, the overlay, the store of the bitmaps and the store
of the slots' names. -/
structure DynFieldIndex (V β : Type) where
  ordering : V → Option ℕ
  /-- Values that emptied, with the slots they keep until a commit frees them. -/
  emptied : List (V × ℕ)
  nextSlot : ℕ
  overlay : ℕ → Option (SlotChanges β)
  nextVer : ℕ
  bitmaps : Blobs β
  keymap : Blobs V
  /-- Names of new slots, not written yet. -/
  keymapPending : ℕ → Option V
  /-- Slots freed by the last commit; the next one removes their names. -/
  keymapFreeNext : ℕ → Bool
  stageInFlight : Bool

/-- What a stage has appended, with the versions it has seen. -/
structure DynSpillStage (V : Type) where
  sets : ℕ → Option (ℕ × Place)
  removals : ℕ → Option ℕ
  keymapSets : ℕ → Option Place
  keymapPending : ℕ → Option V
  keymapRemovals : ℕ → Bool

namespace DynFieldIndex

variable {V β : Type}

def create : DynFieldIndex V β where
  ordering _ := none
  emptied := []
  nextSlot := 0
  overlay _ := none
  nextVer := 0
  bitmaps := Blobs.create
  keymap := Blobs.create
  keymapPending _ := none
  keymapFreeNext _ := false
  stageInFlight := false

variable (i : DynFieldIndex V β)

/-- The bitmap of a slot: the overlay's over the store's. -/
def loadBitmap (slot : ℕ) : Option β :=
  match i.overlay slot with
  | some c => c.bitmap
  | none => i.bitmaps.read slot

/-- What the index answers for a value. -/
def rowsOf (v : V) : Option β := (i.ordering v).bind i.loadBitmap

/-- The slot of a value that gains rows: its own, the one it emptied, or a new one. -/
def slotForInsert [DecidableEq V] (v : V) : ℕ :=
  ((i.ordering v).or ((i.emptied.find? fun e => e.1 = v).map Prod.snd)).getD i.nextSlot

/-- Record a slot's new bitmap in the overlay. -/
def touch (slot : ℕ) (bitmap : Option β) : DynFieldIndex V β :=
  { i with
    overlay := Function.update i.overlay slot (some ⟨bitmap, i.nextVer⟩)
    nextVer := i.nextVer + 1 }

/-- A value gains rows; `bitmap` are all it has then. -/
def insertMany [DecidableEq V] (v : V) (bitmap : β) : DynFieldIndex V β :=
  let slot := i.slotForInsert v
  { i.touch slot (some bitmap) with
    ordering := Function.update i.ordering v (some slot)
    emptied := i.emptied.filter fun e => e.1 ≠ v
    nextSlot := if slot = i.nextSlot then i.nextSlot + 1 else i.nextSlot
    keymapPending :=
      if slot = i.nextSlot then Function.update i.keymapPending slot (some v)
      else i.keymapPending }

/-- A value loses rows; `bitmap` are those it has then. -/
def remove [DecidableEq V] (v : V) (bitmap : Option β) : DynFieldIndex V β :=
  match i.ordering v with
  | none => i
  | some slot =>
    match bitmap with
    | some _ => i.touch slot bitmap
    | none =>
      { i.touch slot none with
        ordering := Function.update i.ordering v none
        emptied := (v, slot) :: i.emptied }

/-- The changed bitmaps. -/
def changed (slot : ℕ) : Option β := (i.overlay slot).bind SlotChanges.bitmap

/-- Append what changed, with no slot pointing at it. -/
def stage : DynFieldIndex V β × DynSpillStage V :=
  ({ i with
      bitmaps := i.bitmaps.appendValues i.changed
      keymap := i.keymap.appendValues i.keymapPending
      keymapPending := fun _ => none
      keymapFreeNext := fun _ => false
      stageInFlight := true },
    { sets := fun slot => (i.overlay slot).bind fun c =>
        (i.bitmaps.placeOf i.changed slot).map fun p => (c.ver, p)
      removals := fun slot => (i.overlay slot).bind fun c =>
        if c.bitmap.isNone then some c.ver else none
      keymapSets := i.keymap.placeOf i.keymapPending
      keymapPending := i.keymapPending
      keymapRemovals := i.keymapFreeNext })

def syncValues : DynFieldIndex V β :=
  { i with bitmaps := i.bitmaps.syncValues, keymap := i.keymap.syncValues }

/-- The overlay's entry has not changed since the stage saw this version. -/
def unchanged (slot : ℕ) (ver : Option ℕ) : Bool :=
  ver.isSome && decide ((i.overlay slot).map SlotChanges.ver = ver)

/-- A staged removal goes through if the slot has not changed since. -/
def removed (st : DynSpillStage V) (slot : ℕ) : Bool := i.unchanged slot (st.removals slot)

/-- Point the slots at what was staged, and drop from the overlay what has not changed since. -/
def commit (st : DynSpillStage V) : DynFieldIndex V β :=
  { i with
    bitmaps := (i.bitmaps.setSlots fun slot => (st.sets slot).map Prod.snd).removeKeys (i.removed st)
    overlay := fun slot =>
      if i.unchanged slot ((st.sets slot).map Prod.fst) || i.removed st slot then none
      else i.overlay slot
    emptied := i.emptied.filter fun e => !i.removed st e.2
    keymap := (i.keymap.setSlots st.keymapSets).removeKeys st.keymapRemovals
    keymapFreeNext := fun slot =>
      i.keymapFreeNext slot || (i.removed st slot && i.emptied.any fun e => e.2 = slot)
    stageInFlight := false }

/-- Give up a stage: the overlay still has every change, the names are queued again. -/
def abort (st : DynSpillStage V) : DynFieldIndex V β :=
  { i with
    keymapPending := fun slot => (st.keymapPending slot).or (i.keymapPending slot)
    keymapFreeNext := fun slot => st.keymapRemovals slot || i.keymapFreeNext slot
    stageInFlight := false }

def syncKeys : DynFieldIndex V β :=
  { i with bitmaps := i.bitmaps.syncKeys, keymap := i.keymap.syncKeys }

/-- A spill at once, unless a stage is in flight; it is given up if the values do not sync. -/
def spill (synced : Bool) : DynFieldIndex V β :=
  if i.stageInFlight then i
  else
    let (staged, st) := i.stage
    if synced then (staged.syncValues.commit st).syncKeys else staged.abort st

/-- Compact the stores that have too much dead space. -/
def maybeCompact (bitmaps keymap : Bool) : DynFieldIndex V β :=
  { i with
    bitmaps := if bitmaps then i.bitmaps.compact else i.bitmaps
    keymap := if keymap then i.keymap.compact else i.keymap }

/-- Spill, then sync both stores. -/
def flush : DynFieldIndex V β := (i.spill true).syncValues.syncKeys

/-! ### What an index holds -/

/-- The slot is the value's: it is in use, or emptied and not freed. -/
def Owns (v : V) (slot : ℕ) : Prop := i.ordering v = some slot ∨ (v, slot) ∈ i.emptied

/-- The stores have this bitmap for the value. -/
def Stored (v : V) (b : β) : Prop := ∃ slot, i.keymap.read slot = some v ∧ i.bitmaps.read slot = some b

/-- The synced part of the stores has this bitmap for the value. -/
def OnDisk (v : V) (b : β) : Prop :=
  ∃ slot, i.keymap.onDisk slot = some v ∧ i.bitmaps.onDisk slot = some b

/-- The name of a slot, written, queued or in the stage. -/
def Named (inStage : ℕ → Option V) (slot : ℕ) (v : V) : Prop :=
  i.keymap.read slot = some v ∨ i.keymapPending slot = some v ∨ inStage slot = some v

/-- The slots and the values they are for. -/
structure Slots (inStage : ℕ → Option V) (freeInStage : ℕ → Bool) (i : DynFieldIndex V β) : Prop where
  owner : ∀ v w slot, i.Owns v slot → i.Owns w slot → v = w
  one : ∀ v slot slot', i.Owns v slot → i.Owns v slot' → slot = slot'
  apart : ∀ v slot slot', i.ordering v = some slot → (v, slot') ∉ i.emptied
  bound : ∀ v slot, i.Owns v slot → slot < i.nextSlot
  named : ∀ v slot, i.Owns v slot → i.Named inStage slot v
  name : ∀ v w slot, i.Owns v slot → i.Named inStage slot w → w = v
  nameBound : ∀ w slot, i.Named inStage slot w → slot < i.nextSlot
  freed : ∀ v slot, i.keymapFreeNext slot = true ∨ freeInStage slot = true → ¬ i.Owns v slot
  freedBound : ∀ slot, i.keymapFreeNext slot = true ∨ freeInStage slot = true → slot < i.nextSlot
  stored : ∀ slot p, i.bitmaps.slots slot = some p → ∃ v, i.Owns v slot

/-- The overlay. -/
structure Overlay (now : V → Option β) (i : DynFieldIndex V β) : Prop where
  live : ∀ v slot, i.ordering v = some slot → i.loadBitmap slot = now v ∧ (now v).isSome = true
  dead : ∀ v, i.ordering v = none → now v = none
  gone : ∀ v slot, (v, slot) ∈ i.emptied → ∃ ver, i.overlay slot = some ⟨none, ver⟩
  owned : ∀ slot c, i.overlay slot = some c → ∃ v, i.Owns v slot ∧ now v = c.bitmap
  versions : ∀ slot c, i.overlay slot = some c → c.ver < i.nextVer

/-- **Sound.** The stores are in order, and the index answers what it should hold `now`. -/
structure Sound (now : V → Option β) (inStage : ℕ → Option V) (freeInStage : ℕ → Bool)
    (i : DynFieldIndex V β) : Prop where
  bitmapsOk : i.bitmaps.Ok
  keymapOk : i.keymap.Ok
  slots : i.Slots inStage freeInStage
  overlay : i.Overlay now

theorem sound_create : Sound (fun _ => none) (fun _ => none) (fun _ => false)
    (create : DynFieldIndex V β) where
  bitmapsOk := Blobs.ok_create
  keymapOk := Blobs.ok_create
  slots :=
    { owner := by rintro v w slot (h | h) <;> cases h
      one := by rintro v slot slot' (h | h) <;> cases h
      apart := fun v slot slot' h => by cases h
      bound := by rintro v slot (h | h) <;> cases h
      named := by rintro v slot (h | h) <;> cases h
      name := by rintro v w slot (h | h) <;> cases h
      nameBound := by rintro w slot (h | h | h) <;> cases h
      freed := by rintro v slot (h | h) <;> cases h
      freedBound := by rintro slot (h | h) <;> cases h
      stored := fun slot p h => by cases h }
  overlay :=
    { live := fun v slot h => by cases h
      dead := fun v _ => rfl
      gone := fun v slot h => by cases h
      owned := fun slot c h => by cases h
      versions := fun slot c h => by cases h }

/-- **Staged.** What a stage in flight knows of the time it was taken, when the index held
`snap`: every slot it sets and every slot it leaves alone has what its value had then. -/
structure Staged (snap : V → Option β) (synced : Bool) (st : DynSpillStage V)
    (i : DynFieldIndex V β) : Prop where
  sets : ∀ slot ver p, st.sets slot = some (ver, p) → ∃ v b, i.Owns v slot ∧ snap v = some b ∧
    i.bitmaps.vals p = some b ∧ (synced = true → i.bitmaps.diskVals p = some b) ∧
      ∃ c, i.overlay slot = some c ∧ ver ≤ c.ver ∧ (c.ver = ver → c.bitmap = some b)
  removals : ∀ slot ver, st.removals slot = some ver → st.sets slot = none ∧
    i.overlay slot = some ⟨none, ver⟩ ∧ ∃ v, (v, slot) ∈ i.emptied ∧ snap v = none
  rest : ∀ v slot, i.Owns v slot → st.sets slot = none → st.removals slot = none →
    i.bitmaps.read slot = snap v
  absent : ∀ v, (∀ slot, ¬ i.Owns v slot) → snap v = none
  names : ∀ slot p, st.keymapSets slot = some p → ∃ v, st.keymapPending slot = some v ∧
    i.keymap.vals p = some v ∧ (synced = true → i.keymap.diskVals p = some v)
  pending : ∀ slot v, st.keymapPending slot = some v → ∃ p, st.keymapSets slot = some p
  named : ∀ v slot b, i.Owns v slot → snap v = some b →
    i.keymap.read slot = some v ∨ st.keymapPending slot = some v

variable {i} {now : V → Option β} {inStage : ℕ → Option V} {freeInStage : ℕ → Bool}

/-- A sound index answers what it holds. -/
theorem Overlay.rowsOf_eq (h : i.Overlay now) (v : V) : i.rowsOf v = now v := by
  rw [rowsOf]
  cases hv : i.ordering v with
  | none => exact (h.dead v hv).symm
  | some slot => exact (h.live v slot hv).1

/-! ### Changes -/

/-- A new bitmap of one slot changes nothing else. -/
theorem loadBitmap_touch (slot : ℕ) (bitmap : Option β) (s : ℕ) :
    (i.touch slot bitmap).loadBitmap s = if s = slot then bitmap else i.loadBitmap s := by
  rw [loadBitmap, loadBitmap, touch]
  dsimp only
  rw [update_apply]
  split_ifs <;> rfl

variable {snap : V → Option β} {synced : Bool} {st : DynSpillStage V} {v : V}

section Changes

variable [DecidableEq V]

theorem slotForInsert_cases (h : i.Slots inStage freeInStage) (v : V) :
    i.Owns v (i.slotForInsert v) ∧ i.slotForInsert v ≠ i.nextSlot ∨
      i.slotForInsert v = i.nextSlot ∧ ∀ slot, ¬ i.Owns v slot := by
  rw [slotForInsert]
  cases hv : i.ordering v with
  | some slot => exact Or.inl ⟨Or.inl hv, (h.bound v slot (Or.inl hv)).ne⟩
  | none =>
    cases hfind : i.emptied.find? fun e => e.1 = v with
    | some e =>
      obtain ⟨w, slot⟩ := e
      have hfst := List.find?_some hfind
      have hw : w = v := of_decide_eq_true hfst
      have hown : i.Owns v slot := Or.inr (hw ▸ List.mem_of_find?_eq_some hfind)
      exact Or.inl ⟨hown, (h.bound v slot hown).ne⟩
    | none =>
      refine Or.inr ⟨rfl, fun slot hown => ?_⟩
      rcases hown with hord | hmem
      · rw [hv] at hord
        cases hord
      · exact List.find?_eq_none.mp hfind _ hmem (decide_eq_true rfl)

theorem owns_insertMany (v w : V) (b : β) (slot : ℕ) : (i.insertMany v b).Owns w slot ↔
    w = v ∧ slot = i.slotForInsert v ∨ w ≠ v ∧ i.Owns w slot := by
  change update i.ordering v (some (i.slotForInsert v)) w = some slot ∨
    (w, slot) ∈ i.emptied.filter (fun e => e.1 ≠ v) ↔ _
  rw [List.mem_filter, update_apply]
  by_cases hw : w = v
  · rw [if_pos hw, decide_eq_false (not_not.mpr hw)]
    simp only [Option.some.injEq, hw, true_and, ne_eq, not_true_eq_false, false_and, or_false,
      Bool.false_eq_true, and_false, eq_comm]
  · rw [if_neg hw, decide_eq_true hw]
    simp only [hw, false_and, ne_eq, not_false_eq_true, true_and, false_or, and_true, Owns]

theorem named_insertMany (h : i.Slots inStage freeInStage) (v : V) (b : β) (slot : ℕ) (w : V) :
    (i.insertMany v b).Named inStage slot w ↔
      slot = i.nextSlot ∧ i.slotForInsert v = i.nextSlot ∧ w = v ∨ i.Named inStage slot w := by
  have hpend : (i.insertMany v b).keymapPending slot =
      if slot = i.nextSlot ∧ i.slotForInsert v = i.nextSlot then some v
      else i.keymapPending slot := by
    change (if i.slotForInsert v = i.nextSlot then
      update i.keymapPending (i.slotForInsert v) (some v) else i.keymapPending) slot = _
    by_cases hnew : i.slotForInsert v = i.nextSlot
    · rw [if_pos hnew, hnew, update_apply]
      simp only [and_true]
    · rw [if_neg hnew, if_neg fun hboth => hnew hboth.2]
  change i.keymap.read slot = some w ∨ (i.insertMany v b).keymapPending slot = some w ∨
    inStage slot = some w ↔ _
  rw [hpend]
  by_cases hnew : slot = i.nextSlot ∧ i.slotForInsert v = i.nextSlot
  · have hnot : ¬ i.Named inStage slot w := fun hold =>
      (h.nameBound w slot hold).ne hnew.1
    rw [if_pos hnew, or_iff_left hnot]
    constructor
    · rintro (hread | hpending | hstage)
      · exact absurd (Or.inl hread) hnot
      · exact ⟨hnew.1, hnew.2, (Option.some.inj hpending).symm⟩
      · exact absurd (Or.inr (Or.inr hstage)) hnot
    · rintro ⟨-, -, rfl⟩
      exact Or.inr (Or.inl rfl)
  · have hnot : ¬ (slot = i.nextSlot ∧ i.slotForInsert v = i.nextSlot ∧ w = v) :=
      fun hall => hnew ⟨hall.1, hall.2.1⟩
    rw [if_neg hnew, or_iff_right (a := slot = i.nextSlot ∧ _) hnot]
    rfl

theorem Slots.insertMany (h : i.Slots inStage freeInStage) (v : V) (b : β) :
    (i.insertMany v b).Slots inStage freeInStage := by
  have hcases := slotForInsert_cases h v
  have hnext : i.nextSlot ≤ (i.insertMany v b).nextSlot := by
    change _ ≤ if i.slotForInsert v = i.nextSlot then i.nextSlot + 1 else i.nextSlot
    split_ifs
    · exact Nat.le_succ _
    · exact Nat.le_refl _
  -- nobody else has the slot
  have hother : ∀ w, i.Owns w (i.slotForInsert v) → w = v := by
    intro w hw
    rcases hcases with ⟨hown, -⟩ | ⟨hfresh, -⟩
    · exact h.owner w v _ hw hown
    · exact absurd hfresh (h.bound w _ hw).ne
  have hbound : i.slotForInsert v < (i.insertMany v b).nextSlot := by
    rcases hcases with ⟨hown, -⟩ | ⟨hfresh, -⟩
    · exact (h.bound v _ hown).trans_le hnext
    · change _ < if i.slotForInsert v = i.nextSlot then i.nextSlot + 1 else i.nextSlot
      rw [if_pos hfresh, hfresh]
      exact Nat.lt_succ_self _
  refine ⟨fun w w' slot hw hw' => ?_, fun w slot slot' hw hw' => ?_, fun w slot slot' hw hmem => ?_,
    fun w slot hw => ?_, fun w slot hw => ?_, fun w w' slot hw hname => ?_, fun w slot hname => ?_,
    fun w slot hfree hw => ?_, fun slot hfree => (h.freedBound slot hfree).trans_le hnext,
    fun slot p hp => ?_⟩
  · rcases (owns_insertMany v w b slot).mp hw with ⟨rfl, rfl⟩ | ⟨hne, hold⟩
    · rcases (owns_insertMany w w' b _).mp hw' with ⟨rfl, -⟩ | ⟨-, hold'⟩
      · rfl
      · exact (hother w' hold').symm
    · rcases (owns_insertMany v w' b slot).mp hw' with ⟨rfl, rfl⟩ | ⟨-, hold'⟩
      · exact hother w hold
      · exact h.owner w w' slot hold hold'
  · rcases (owns_insertMany v w b slot).mp hw with ⟨rfl, rfl⟩ | ⟨hne, hold⟩
    · rcases (owns_insertMany w w b slot').mp hw' with ⟨-, rfl⟩ | ⟨hne, -⟩
      · rfl
      · exact absurd rfl hne
    · rcases (owns_insertMany v w b slot').mp hw' with ⟨rfl, -⟩ | ⟨-, hold'⟩
      · exact absurd rfl hne
      · exact h.one w slot slot' hold hold'
  · obtain ⟨hmem, hne⟩ := List.mem_filter.mp hmem
    have hne : w ≠ v := of_decide_eq_true hne
    have hw : update i.ordering v _ w = some slot := hw
    rw [update_of_ne hne] at hw
    exact h.apart w slot slot' hw hmem
  · rcases (owns_insertMany v w b slot).mp hw with ⟨rfl, rfl⟩ | ⟨-, hold⟩
    · exact hbound
    · exact (h.bound w slot hold).trans_le hnext
  · rw [named_insertMany h]
    rcases (owns_insertMany v w b slot).mp hw with ⟨rfl, rfl⟩ | ⟨-, hold⟩
    · rcases hcases with ⟨hown, -⟩ | ⟨hfresh, -⟩
      · exact Or.inr (h.named w _ hown)
      · exact Or.inl ⟨hfresh, hfresh, rfl⟩
    · exact Or.inr (h.named w slot hold)
  · rcases (owns_insertMany v w b slot).mp hw with ⟨rfl, rfl⟩ | ⟨-, hold⟩
    · rcases (named_insertMany h w b _ w').mp hname with ⟨-, -, rfl⟩ | hname'
      · rfl
      · rcases hcases with ⟨hown, -⟩ | ⟨hfresh, -⟩
        · exact h.name w w' _ hown hname'
        · exact absurd hfresh (h.nameBound w' _ hname').ne
    · rcases (named_insertMany h v b slot w').mp hname with ⟨rfl, -, -⟩ | hname'
      · exact absurd (h.bound w _ hold) (Nat.lt_irrefl _)
      · exact h.name w w' slot hold hname'
  · rcases (named_insertMany h v b slot w).mp hname with ⟨rfl, hfresh, -⟩ | hname'
    · exact hfresh ▸ hbound
    · exact (h.nameBound w slot hname').trans_le hnext
  · rcases (owns_insertMany v w b slot).mp hw with ⟨rfl, rfl⟩ | ⟨-, hold⟩
    · rcases hcases with ⟨hown, -⟩ | ⟨hfresh, -⟩
      · exact h.freed w _ hfree hown
      · exact absurd hfresh (h.freedBound _ hfree).ne
    · exact h.freed w slot hfree hold
  · obtain ⟨w, hw⟩ := h.stored slot p hp
    by_cases hwv : w = v
    · subst hwv
      rcases hcases with ⟨hown, -⟩ | ⟨-, hnone⟩
      · exact ⟨w, (owns_insertMany w w b slot).mpr (Or.inl ⟨rfl, h.one w _ _ hw hown⟩)⟩
      · exact absurd hw (hnone slot)
    · exact ⟨w, (owns_insertMany v w b slot).mpr (Or.inr ⟨hwv, hw⟩)⟩

theorem Overlay.insertMany (h : i.Overlay now) (hslots : i.Slots inStage freeInStage) (v : V) (b : β) :
    (i.insertMany v b).Overlay (update now v (some b)) := by
  have hslots' := hslots.insertMany v b
  have hord : ∀ w, (i.insertMany v b).ordering w =
      if w = v then some (i.slotForInsert v) else i.ordering w := fun w => update_apply _ _ _ _
  have hload : ∀ slot, (i.insertMany v b).loadBitmap slot =
      if slot = i.slotForInsert v then some b else i.loadBitmap slot :=
    fun slot => loadBitmap_touch _ _ _
  have hover : ∀ slot, (i.insertMany v b).overlay slot =
      if slot = i.slotForInsert v then some ⟨some b, i.nextVer⟩ else i.overlay slot :=
    fun slot => update_apply _ _ _ _
  have hself : (i.insertMany v b).Owns v (i.slotForInsert v) :=
    (owns_insertMany v v b _).mpr (Or.inl ⟨rfl, rfl⟩)
  have hne : ∀ w slot, w ≠ v → i.Owns w slot → slot ≠ i.slotForInsert v := by
    rintro w slot hw hown rfl
    exact hw (hslots'.owner w v _ ((owns_insertMany v w b _).mpr (Or.inr ⟨hw, hown⟩)) hself)
  refine ⟨fun w slot hw => ?_, fun w hw => ?_, fun w slot hw => ?_, fun slot c hc => ?_,
    fun slot c hc => ?_⟩
  · rw [hord] at hw
    rw [hload, update_apply]
    split_ifs at hw with hwv
    · rw [if_pos (Option.some.inj hw).symm, if_pos hwv]
      exact ⟨rfl, rfl⟩
    · rw [if_neg (hne w slot hwv (Or.inl hw)), if_neg hwv]
      exact h.live w slot hw
  · rw [hord] at hw
    split_ifs at hw with hwv
    rw [update_of_ne hwv]
    exact h.dead w hw
  · obtain ⟨hmem, hwv⟩ := List.mem_filter.mp hw
    have hwv : w ≠ v := of_decide_eq_true hwv
    rw [hover, if_neg (hne w slot hwv (Or.inr hmem))]
    exact h.gone w slot hmem
  · rw [hover] at hc
    split_ifs at hc with hslot
    · obtain rfl := Option.some.inj hc
      exact ⟨v, hslot ▸ hself, update_self _ _ _⟩
    · obtain ⟨w, hw, hnow⟩ := h.owned slot c hc
      have hwv : w ≠ v := by
        rintro rfl
        rcases slotForInsert_cases hslots w with ⟨hown, -⟩ | ⟨-, hnone⟩
        · exact hslot (hslots.one w _ _ hw hown)
        · exact hnone slot hw
      refine ⟨w, (owns_insertMany v w b slot).mpr (Or.inr ⟨hwv, hw⟩), ?_⟩
      rw [update_of_ne hwv]
      exact hnow
  · rw [hover] at hc
    change c.ver < i.nextVer + 1
    split_ifs at hc
    · obtain rfl := Option.some.inj hc
      exact Nat.lt_succ_self _
    · exact Nat.lt_succ_of_lt (h.versions slot c hc)

/-- **A value gains rows.** -/
theorem Sound.insertMany (h : Sound now inStage freeInStage i) (v : V) (b : β) :
    Sound (update now v (some b)) inStage freeInStage (i.insertMany v b) where
  bitmapsOk := h.bitmapsOk
  keymapOk := h.keymapOk
  slots := h.slots.insertMany v b
  overlay := h.overlay.insertMany h.slots v b

/-- A stage in flight goes on if the value is not one it saw emptied. -/
theorem Staged.insertMany (h : Staged snap synced st i) (hsound : Sound now inStage freeInStage i)
    (hv : ∀ slot, (v, slot) ∈ i.emptied → st.removals slot = none) (b : β) :
    Staged snap synced st (i.insertMany v b) := by
  have hslots := hsound.slots
  have hover : ∀ slot, (i.insertMany v b).overlay slot =
      if slot = i.slotForInsert v then some ⟨some b, i.nextVer⟩ else i.overlay slot :=
    fun slot => update_apply _ _ _ _
  have hkeep : ∀ w slot, i.Owns w slot → (i.insertMany v b).Owns w slot := by
    intro w slot hw
    by_cases hwv : w = v
    · subst hwv
      rcases slotForInsert_cases hslots w with ⟨hown, -⟩ | ⟨-, hnone⟩
      · exact (owns_insertMany w w b slot).mpr (Or.inl ⟨rfl, hslots.one w _ _ hw hown⟩)
      · exact absurd hw (hnone slot)
    · exact (owns_insertMany v w b slot).mpr (Or.inr ⟨hwv, hw⟩)
  have hback : ∀ w slot, (i.insertMany v b).Owns w slot →
      i.Owns w slot ∨ slot = i.nextSlot ∧ ∀ s, ¬ i.Owns w s := by
    intro w slot hw
    rcases (owns_insertMany v w b slot).mp hw with ⟨rfl, rfl⟩ | ⟨-, hold⟩
    · exact (slotForInsert_cases hslots w).imp And.left id
    · exact Or.inl hold
  refine ⟨fun slot ver p hset => ?_, fun slot ver hrem => ?_, fun w slot hw hset hrem => ?_,
    fun w hw => ?_, h.names, h.pending, fun w slot x hw hsnap => ?_⟩
  · obtain ⟨w, x, hw, hsnap, hval, hsync, c, hc, hver, hsame⟩ := h.sets slot ver p hset
    refine ⟨w, x, hkeep w slot hw, hsnap, hval, hsync, ?_⟩
    rw [hover]
    split_ifs with hslot
    · have hlt := hver.trans_lt (hsound.overlay.versions slot c hc)
      exact ⟨_, rfl, hlt.le, fun heq => absurd heq hlt.ne'⟩
    · exact ⟨c, hc, hver, hsame⟩
  · obtain ⟨hset, hgone, w, hmem, hsnap⟩ := h.removals slot ver hrem
    have hwv : w ≠ v := by
      rintro rfl
      rw [hv slot hmem] at hrem
      cases hrem
    refine ⟨hset, ?_, w, List.mem_filter.mpr ⟨hmem, decide_eq_true hwv⟩, hsnap⟩
    rw [hover, if_neg]
    · exact hgone
    · intro hslot
      rcases slotForInsert_cases hslots v with ⟨hown, -⟩ | ⟨hfresh, -⟩
      · exact hwv (hslots.owner w v slot (Or.inr hmem) (hslot ▸ hown))
      · exact absurd (hslot.trans hfresh) (hslots.bound w slot (Or.inr hmem)).ne
  · rcases hback w slot hw with hold | ⟨rfl, hnone⟩
    · exact h.rest w slot hold hset hrem
    · rw [h.absent w hnone]
      change i.bitmaps.read i.nextSlot = none
      rw [Blobs.read]
      cases hp : i.bitmaps.slots i.nextSlot with
      | none => rfl
      | some p =>
        obtain ⟨u, hu⟩ := hslots.stored _ p hp
        exact absurd (hslots.bound u _ hu) (Nat.lt_irrefl _)
  · exact h.absent w fun slot hold => hw slot (hkeep w slot hold)
  · rcases hback w slot hw with hold | ⟨-, hnone⟩
    · exact h.named w slot x hold hsnap
    · rw [h.absent w hnone] at hsnap
      cases hsnap

/-- A value that loses rows keeps its slot. -/
theorem owns_remove (v w : V) (bitmap : Option β) (slot : ℕ) :
    (i.remove v bitmap).Owns w slot ↔ i.Owns w slot := by
  rw [remove]
  cases hv : i.ordering v with
  | none => exact Iff.rfl
  | some s =>
    cases bitmap with
    | some b => exact Iff.rfl
    | none =>
      change update i.ordering v none w = some slot ∨ (w, slot) ∈ (v, s) :: i.emptied ↔ _
      rw [update_apply, List.mem_cons]
      by_cases hw : w = v
      · subst hw
        rw [if_pos rfl, Owns, hv]
        simp only [Prod.mk.injEq, true_and, Option.some.injEq, reduceCtorEq, false_or, eq_comm]
      · rw [if_neg hw, Owns]
        simp only [Prod.mk.injEq, hw, false_and, false_or]

section Remove

variable {v : V} {slot : ℕ}

theorem ordering_remove (hv : i.ordering v = some slot) (bitmap : Option β) (w : V) :
    (i.remove v bitmap).ordering w =
      if w = v then bitmap.map fun _ => slot else i.ordering w := by
  rw [remove, hv]
  cases bitmap with
  | some b =>
    change i.ordering w = _
    split_ifs with hw
    · rw [hw, hv]
      rfl
    · rfl
  | none => exact update_apply _ _ _ _

theorem emptied_remove (hv : i.ordering v = some slot) (bitmap : Option β) (e : V × ℕ) :
    e ∈ (i.remove v bitmap).emptied ↔ bitmap = none ∧ e = (v, slot) ∨ e ∈ i.emptied := by
  rw [remove, hv]
  cases bitmap with
  | some b =>
    change e ∈ i.emptied ↔ _
    simp only [reduceCtorEq, false_and, false_or]
  | none =>
    change e ∈ (v, slot) :: i.emptied ↔ _
    simp only [List.mem_cons, true_and]

theorem overlay_remove (hv : i.ordering v = some slot) (bitmap : Option β) (s : ℕ) :
    (i.remove v bitmap).overlay s =
      if s = slot then some ⟨bitmap, i.nextVer⟩ else i.overlay s := by
  rw [remove, hv]
  cases bitmap <;> exact update_apply _ _ _ _

theorem frame_remove (v : V) (bitmap : Option β) : (i.remove v bitmap).bitmaps = i.bitmaps ∧
    (i.remove v bitmap).keymap = i.keymap ∧ (i.remove v bitmap).nextSlot = i.nextSlot ∧
      (i.remove v bitmap).keymapPending = i.keymapPending ∧
        (i.remove v bitmap).keymapFreeNext = i.keymapFreeNext ∧
          (i.remove v bitmap).stageInFlight = i.stageInFlight := by
  rw [remove]
  cases i.ordering v with
  | none => exact ⟨rfl, rfl, rfl, rfl, rfl, rfl⟩
  | some s => cases bitmap <;> exact ⟨rfl, rfl, rfl, rfl, rfl, rfl⟩

theorem Slots.remove (h : i.Slots inStage freeInStage) (hv : i.ordering v = some slot)
    (bitmap : Option β) : (i.remove v bitmap).Slots inStage freeInStage := by
  obtain ⟨hbitmaps, hkeymap, hnext, hpending, hfree, -⟩ := frame_remove (i := i) v bitmap
  have howns : ∀ w s, (i.remove v bitmap).Owns w s ↔ i.Owns w s :=
    fun w s => owns_remove v w bitmap s
  have hnamed : ∀ s w, (i.remove v bitmap).Named inStage s w ↔ i.Named inStage s w := by
    intro s w
    rw [Named, Named, hkeymap, hpending]
  refine ⟨fun w w' s hw hw' => ?_, fun w s s' hw hw' => ?_, fun w s s' hw hmem => ?_,
    fun w s hw => ?_, fun w s hw => ?_, fun w w' s hw hname => ?_, fun w s hname => ?_,
    fun w s hs hw => ?_, fun s hs => ?_, fun s p hp => ?_⟩
  · exact h.owner w w' s ((howns w s).mp hw) ((howns w' s).mp hw')
  · exact h.one w s s' ((howns w s).mp hw) ((howns w s').mp hw')
  · rw [ordering_remove hv] at hw
    rcases (emptied_remove hv bitmap _).mp hmem with ⟨rfl, heq⟩ | hold
    · obtain ⟨rfl, -⟩ := Prod.mk.inj heq
      rw [if_pos rfl] at hw
      cases hw
    · split_ifs at hw with hwv
      · exact h.apart v slot s' hv (hwv ▸ hold)
      · exact h.apart w s s' hw hold
  · exact hnext ▸ h.bound w s ((howns w s).mp hw)
  · exact (hnamed s w).mpr (h.named w s ((howns w s).mp hw))
  · exact h.name w w' s ((howns w s).mp hw) ((hnamed s w').mp hname)
  · exact hnext ▸ h.nameBound w s ((hnamed s w).mp hname)
  · exact h.freed w s (hfree ▸ hs) ((howns w s).mp hw)
  · exact hnext ▸ h.freedBound s (hfree ▸ hs)
  · obtain ⟨w, hw⟩ := h.stored s p (hbitmaps ▸ hp)
    exact ⟨w, (howns w s).mpr hw⟩

theorem Overlay.remove (h : i.Overlay now) (hslots : i.Slots inStage freeInStage)
    (hv : i.ordering v = some slot) (bitmap : Option β) :
    (i.remove v bitmap).Overlay (update now v bitmap) := by
  obtain ⟨hbitmaps, -⟩ := frame_remove (i := i) v bitmap
  have hord := ordering_remove hv bitmap
  have hover := overlay_remove hv bitmap
  have hver : (i.remove v bitmap).nextVer = i.nextVer + 1 := by
    rw [DynFieldIndex.remove, hv]
    cases bitmap <;> rfl
  have hload : ∀ s, (i.remove v bitmap).loadBitmap s = if s = slot then bitmap else i.loadBitmap s := by
    intro s
    rw [loadBitmap, loadBitmap, hover, hbitmaps]
    split_ifs <;> rfl
  have hne : ∀ w s, w ≠ v → i.Owns w s → s ≠ slot := by
    rintro w s hw hown rfl
    exact hw (hslots.owner w v _ hown (Or.inl hv))
  refine ⟨fun w s hw => ?_, fun w hw => ?_, fun w s hw => ?_, fun s c hc => ?_, fun s c hc => ?_⟩
  · rw [hord] at hw
    rw [hload, update_apply]
    split_ifs at hw with hwv
    · obtain ⟨b, rfl, rfl⟩ := map_eq_some_iff.mp hw
      rw [if_pos rfl, if_pos hwv]
      exact ⟨rfl, rfl⟩
    · rw [if_neg (hne w s hwv (Or.inl hw)), if_neg hwv]
      exact h.live w s hw
  · rw [hord] at hw
    rw [update_apply]
    split_ifs at hw ⊢ with hwv
    · exact Option.map_eq_none_iff.mp hw
    · exact h.dead w hw
  · rw [hover]
    rcases (emptied_remove hv bitmap _).mp hw with ⟨rfl, heq⟩ | hold
    · rw [if_pos (Prod.mk.inj heq).2]
      exact ⟨_, rfl⟩
    · have hwv : w ≠ v := by
        rintro rfl
        exact hslots.apart w slot s hv hold
      rw [if_neg (hne w s hwv (Or.inr hold))]
      exact h.gone w s hold
  · rw [hover] at hc
    split_ifs at hc with hs
    · obtain rfl := Option.some.inj hc
      exact ⟨v, (owns_remove v v bitmap s).mpr (Or.inl (hs ▸ hv)), update_self _ _ _⟩
    · obtain ⟨w, hw, hnow⟩ := h.owned s c hc
      have hwv : w ≠ v := by
        rintro rfl
        exact hs (hslots.one w s slot hw (Or.inl hv))
      refine ⟨w, (owns_remove v w bitmap s).mpr hw, ?_⟩
      rw [update_of_ne hwv]
      exact hnow
  · rw [hover] at hc
    rw [hver]
    split_ifs at hc
    · obtain rfl := Option.some.inj hc
      exact Nat.lt_succ_self _
    · exact Nat.lt_succ_of_lt (h.versions s c hc)

/-- **A value loses rows.** -/
theorem Sound.remove (h : Sound now inStage freeInStage i)
    (hv : i.ordering v = some slot) (bitmap : Option β) :
    Sound (update now v bitmap) inStage freeInStage (i.remove v bitmap) := by
  obtain ⟨hbitmaps, hkeymap, -⟩ := frame_remove (i := i) v bitmap
  exact ⟨hbitmaps ▸ h.bitmapsOk, hkeymap ▸ h.keymapOk, h.slots.remove hv bitmap,
    h.overlay.remove h.slots hv bitmap⟩

theorem Staged.remove (h : Staged snap synced st i) (hsound : Sound now inStage freeInStage i)
    (hv : i.ordering v = some slot) (bitmap : Option β) :
    Staged snap synced st (i.remove v bitmap) := by
  obtain ⟨hbitmaps, hkeymap, -⟩ := frame_remove (i := i) v bitmap
  have howns : ∀ w s, (i.remove v bitmap).Owns w s ↔ i.Owns w s :=
    fun w s => owns_remove v w bitmap s
  refine ⟨fun s ver p hset => ?_, fun s ver hrem => ?_, fun w s hw hset hrem => ?_, fun w hw => ?_,
    fun s p hset => ?_, h.pending, fun w s x hw hsnap => ?_⟩
  · obtain ⟨w, x, hw, hsnap, hval, hsync, c, hc, hver, hsame⟩ := h.sets s ver p hset
    rw [hbitmaps]
    refine ⟨w, x, (howns w s).mpr hw, hsnap, hval, hsync, ?_⟩
    rw [overlay_remove hv]
    split_ifs with hs
    · have hlt := hver.trans_lt (hsound.overlay.versions s c hc)
      exact ⟨_, rfl, hlt.le, fun heq => absurd heq hlt.ne'⟩
    · exact ⟨c, hc, hver, hsame⟩
  · obtain ⟨hset, hgone, w, hmem, hsnap⟩ := h.removals s ver hrem
    refine ⟨hset, ?_, w, (emptied_remove hv bitmap _).mpr (Or.inr hmem), hsnap⟩
    rw [overlay_remove hv, if_neg]
    · exact hgone
    · rintro rfl
      obtain rfl := hsound.slots.owner w v s (Or.inr hmem) (Or.inl hv)
      exact hsound.slots.apart w s s hv hmem
  · rw [hbitmaps]
    exact h.rest w s ((howns w s).mp hw) hset hrem
  · exact h.absent w fun s hold => hw s ((howns w s).mpr hold)
  · rw [hkeymap]
    exact h.names s p hset
  · rw [hkeymap]
    exact h.named w s x ((howns w s).mp hw) hsnap

end Remove

end Changes

/-! ### The steps of a spill -/

/-- **Stage.** Nothing changes but what is appended. -/
theorem Sound.stage (h : Sound now (fun _ => none) (fun _ => false) i) :
    Sound now i.stage.2.keymapPending i.stage.2.keymapRemovals i.stage.1 := by
  have hnamed : ∀ slot w, i.stage.1.Named i.stage.2.keymapPending slot w ↔
      i.Named (fun _ => none) slot w := by
    intro slot w
    change (i.keymap.appendValues _).read slot = some w ∨ none = some w ∨
      i.keymapPending slot = some w ↔ i.keymap.read slot = some w ∨ i.keymapPending slot = some w ∨ _
    rw [h.keymapOk.read_appendValues]
    simp only [reduceCtorEq, false_or, or_false]
  have hfree : ∀ slot, i.stage.1.keymapFreeNext slot = true ∨ i.stage.2.keymapRemovals slot = true ↔
      i.keymapFreeNext slot = true ∨ false = true := by
    intro slot
    change false = true ∨ i.keymapFreeNext slot = true ↔ _
    simp only [Bool.false_eq_true, false_or, or_false]
  have hload : ∀ slot, i.stage.1.loadBitmap slot = i.loadBitmap slot := by
    intro slot
    rw [loadBitmap, loadBitmap]
    change (match i.overlay slot with
      | some c => c.bitmap
      | none => (i.bitmaps.appendValues _).read slot) = _
    rw [h.bitmapsOk.read_appendValues]
  refine ⟨?_, ?_, ?_, ?_⟩
  · exact h.bitmapsOk.appendValues i.changed
  · exact h.keymapOk.appendValues i.keymapPending
  · exact ⟨h.slots.owner, h.slots.one, h.slots.apart, h.slots.bound,
      fun v slot hown => (hnamed slot v).mpr (h.slots.named v slot hown),
      fun v w slot hown hname => h.slots.name v w slot hown ((hnamed slot w).mp hname),
      fun w slot hname => h.slots.nameBound w slot ((hnamed slot w).mp hname),
      fun v slot hs => h.slots.freed v slot ((hfree slot).mp hs),
      fun slot hs => h.slots.freedBound slot ((hfree slot).mp hs), h.slots.stored⟩
  · exact ⟨fun v slot hv => (hload slot).symm ▸ h.overlay.live v slot hv, h.overlay.dead,
      h.overlay.gone, h.overlay.owned, h.overlay.versions⟩

theorem Sound.staged (h : Sound now (fun _ => none) (fun _ => false) i) :
    Staged now false i.stage.2 i.stage.1 := by
  have hsets : ∀ slot, i.stage.2.sets slot = (i.overlay slot).bind fun c =>
      (i.bitmaps.placeOf i.changed slot).map fun p => (c.ver, p) := fun _ => rfl
  have hrems : ∀ slot, i.stage.2.removals slot = (i.overlay slot).bind fun c =>
      if c.bitmap.isNone then some c.ver else none := fun _ => rfl
  refine ⟨fun slot ver p hset => ?_, fun slot ver hrem => ?_, fun v slot hown hset hrem => ?_,
    fun v hv => ?_, fun slot p hp => ?_, fun slot v hv => ?_, fun v slot b hown _ => ?_⟩
  · rw [hsets] at hset
    obtain ⟨c, hc, hset⟩ := Option.bind_eq_some_iff.mp hset
    obtain ⟨q, hq, heq⟩ := map_eq_some_iff.mp hset
    obtain ⟨rfl, rfl⟩ := Prod.mk.inj heq
    obtain ⟨b, hb, -⟩ := map_eq_some_iff.mp hq
    have hb' : c.bitmap = some b := by
      rw [changed, hc] at hb
      exact hb
    obtain ⟨v, hown, hnow⟩ := h.overlay.owned slot c hc
    refine ⟨v, b, hown, hnow.trans hb', (Blobs.vals_placeOf hq).trans hb, ?_, c, hc,
      Nat.le_refl _, fun _ => hb'⟩
    intro hsync
    cases hsync
  · rw [hrems] at hrem
    obtain ⟨c, hc, hrem⟩ := Option.bind_eq_some_iff.mp hrem
    obtain ⟨hnone, rfl⟩ := Option.ite_some_none_eq_some.mp hrem
    have hbitmap : c.bitmap = none := Option.isNone_iff_eq_none.mp hnone
    obtain ⟨v, hown, hnow⟩ := h.overlay.owned slot c hc
    have hset : i.stage.2.sets slot = none := by
      rw [hsets, hc]
      have hchanged : i.changed slot = none := by
        rw [changed, hc]
        exact hbitmap
      change Option.map _ (Option.map _ (i.changed slot)) = none
      rw [hchanged]
      rfl
    refine ⟨hset, ?_, v, ?_, hnow.trans hbitmap⟩
    · change i.overlay slot = _
      rw [hc, ← hbitmap]
    · rcases hown with hord | hmem
      · have hsome := (h.overlay.live v slot hord).2
        rw [hnow, hbitmap] at hsome
        cases hsome
      · exact hmem
  · have hover : i.overlay slot = none := by
      cases hc : i.overlay slot with
      | none => rfl
      | some c =>
        rw [hrems, hc] at hrem
        rw [hsets, hc] at hset
        cases hbitmap : c.bitmap with
        | none =>
          change (if c.bitmap.isNone = true then some c.ver else none) = none at hrem
          rw [hbitmap] at hrem
          cases hrem
        | some b =>
          have hchanged : i.changed slot = some b := by
            rw [changed, hc]
            exact hbitmap
          change Option.map _ (Option.map _ (i.changed slot)) = none at hset
          rw [hchanged] at hset
          cases hset
    have hord : i.ordering v = some slot := by
      rcases hown with hord | hmem
      · exact hord
      · obtain ⟨ver, hgone⟩ := h.overlay.gone v slot hmem
        rw [hover] at hgone
        cases hgone
    have hlive := (h.overlay.live v slot hord).1
    rw [loadBitmap, hover] at hlive
    exact (h.bitmapsOk.read_appendValues _ slot).trans hlive
  · refine h.overlay.dead v ?_
    cases hord : i.ordering v with
    | none => rfl
    | some slot => exact absurd (Or.inl hord) (hv slot)
  · obtain ⟨v, hv, -⟩ := map_eq_some_iff.mp hp
    exact ⟨v, hv, (Blobs.vals_placeOf hp).trans hv, fun hsync => by cases hsync⟩
  · change i.keymapPending slot = some v at hv
    refine ⟨⟨i.keymap.file, i.keymap.batch, slot⟩, ?_⟩
    change (i.keymapPending slot).map _ = _
    rw [hv]
    rfl
  · have hname := h.slots.named v slot hown
    change (i.keymap.appendValues _).read slot = some v ∨ i.keymapPending slot = some v
    rw [h.keymapOk.read_appendValues]
    rcases hname with hread | hpending | hstage
    · exact Or.inl hread
    · exact Or.inr hpending
    · cases hstage

theorem Sound.syncValues (h : Sound now inStage freeInStage i) :
    Sound now inStage freeInStage i.syncValues where
  bitmapsOk := h.bitmapsOk.syncValues
  keymapOk := h.keymapOk.syncValues
  slots := ⟨h.slots.owner, h.slots.one, h.slots.apart, h.slots.bound, h.slots.named, h.slots.name,
    h.slots.nameBound, h.slots.freed, h.slots.freedBound, h.slots.stored⟩
  overlay := ⟨h.overlay.live, h.overlay.dead, h.overlay.gone, h.overlay.owned, h.overlay.versions⟩

theorem Staged.syncValues (h : Staged snap synced st i) (b : Bool) :
    Staged snap b st i.syncValues where
  sets slot ver p hset := by
    obtain ⟨v, x, hown, hsnap, hval, -, hrest⟩ := h.sets slot ver p hset
    exact ⟨v, x, hown, hsnap, hval, fun _ => hval, hrest⟩
  removals := h.removals
  rest := h.rest
  absent := h.absent
  names slot p hp := by
    obtain ⟨v, hpending, hval, -⟩ := h.names slot p hp
    exact ⟨v, hpending, hval, fun _ => hval⟩
  pending := h.pending
  named := h.named

theorem Staged.syncKeys (h : Staged snap synced st i) : Staged snap synced st i.syncKeys :=
  ⟨h.sets, h.removals, h.rest, h.absent, h.names, h.pending, h.named⟩

variable {slot : ℕ}

section Commit

variable {snap : V → Option β} {st : DynSpillStage V}

/-- A staged removal goes through. -/
theorem Staged.removed_iff (h : Staged snap synced st i) (slot : ℕ) :
    i.removed st slot = true ↔ ∃ ver, st.removals slot = some ver := by
  rw [removed, unchanged, Bool.and_eq_true, decide_eq_true_eq, isSome_iff_exists]
  refine ⟨And.left, fun hver => ⟨hver, ?_⟩⟩
  obtain ⟨ver, hrem⟩ := hver
  rw [hrem, (h.removals slot ver hrem).2.1]
  rfl

theorem Staged.owns_commit (h : Staged snap synced st i)
    (hslots : i.Slots st.keymapPending st.keymapRemovals) (v : V) (slot : ℕ) :
    (i.commit st).Owns v slot ↔ i.Owns v slot ∧ st.removals slot = none := by
  have hnot : ∀ b : Bool, (!b) = true ↔ ¬ b = true := by
    intro b
    cases b <;> simp
  change i.ordering v = some slot ∨ (v, slot) ∈ i.emptied.filter (fun e => !i.removed st e.2) ↔ _
  rw [List.mem_filter, hnot, h.removed_iff, ← isSome_iff_exists, Option.not_isSome_iff_eq_none]
  constructor
  · rintro (hord | ⟨hmem, hrem⟩)
    · refine ⟨Or.inl hord, ?_⟩
      cases hrem : st.removals slot with
      | none => rfl
      | some ver =>
        obtain ⟨-, -, w, hmem, -⟩ := h.removals slot ver hrem
        obtain rfl := hslots.owner v w slot (Or.inl hord) (Or.inr hmem)
        exact absurd hmem (hslots.apart v slot slot hord)
    · exact ⟨Or.inr hmem, hrem⟩
  · rintro ⟨hord | hmem, hrem⟩
    · exact Or.inl hord
    · exact Or.inr ⟨hmem, hrem⟩

/-- The bitmap of a slot after the commit. -/
theorem Staged.read_commit (h : Staged snap synced st i) (hown : i.Owns v slot)
    (hslots : i.Slots st.keymapPending st.keymapRemovals) :
    (i.commit st).bitmaps.read slot = snap v := by
  change ((i.bitmaps.setSlots _).removeKeys _).read slot = _
  rw [Blobs.read_removeKeys]
  cases hrem : st.removals slot with
  | some ver =>
    obtain ⟨-, -, w, hmem, hsnap⟩ := h.removals slot ver hrem
    obtain rfl := hslots.owner v w slot hown (Or.inr hmem)
    rw [if_pos ((h.removed_iff slot).mpr ⟨ver, hrem⟩), hsnap]
  | none =>
    have hnot : ¬ i.removed st slot = true := by
      rw [h.removed_iff, hrem]
      rintro ⟨ver, hver⟩
      cases hver
    rw [if_neg hnot]
    cases hset : st.sets slot with
    | none =>
      have hnone : (st.sets slot).map Prod.snd = none := by
        rw [hset]
        rfl
      rw [Blobs.read_setSlots_of_none hnone]
      exact h.rest v slot hown hset hrem
    | some e =>
      obtain ⟨ver, p⟩ := e
      have hsome : (st.sets slot).map Prod.snd = some p := by
        rw [hset]
        rfl
      obtain ⟨w, b, hw, hsnap, hval, -⟩ := h.sets slot ver p hset
      rw [Blobs.read_setSlots_of_some hsome, hval, hslots.owner v w slot hown hw, hsnap]

/-- The names after the commit. -/
theorem Staged.named_commit (h : Staged snap synced st i) {w : V} (hown : i.Owns v slot)
    (hslots : i.Slots st.keymapPending st.keymapRemovals) :
    (i.commit st).keymap.read slot = some w ↔
      w = v ∧ (i.keymap.read slot = some v ∨ st.keymapPending slot = some v) := by
  have hfree : ¬ st.keymapRemovals slot = true := fun hfree => hslots.freed v slot (Or.inr hfree) hown
  change ((i.keymap.setSlots _).removeKeys _).read slot = _ ↔ _
  rw [Blobs.read_removeKeys, if_neg hfree]
  cases hset : st.keymapSets slot with
  | none =>
    have hpending : ¬ st.keymapPending slot = some v := by
      intro hpending
      obtain ⟨p, hp⟩ := h.pending slot v hpending
      rw [hset] at hp
      cases hp
    rw [Blobs.read_setSlots_of_none hset, or_iff_left hpending]
    constructor
    · intro hread
      obtain rfl := hslots.name v w slot hown (Or.inl hread)
      exact ⟨rfl, hread⟩
    · rintro ⟨rfl, hread⟩
      exact hread
  | some p =>
    obtain ⟨u, hpending, hval, -⟩ := h.names slot p hset
    obtain rfl := hslots.name v u slot hown (Or.inr (Or.inr hpending))
    rw [Blobs.read_setSlots_of_some hset, hval, Option.some.injEq]
    exact ⟨fun heq => ⟨heq.symm, Or.inr hpending⟩, fun hw => hw.1.symm⟩

/-- **What a commit leaves.** -/
theorem Staged.stored_commit (h : Staged snap synced st i)
    (hslots : i.Slots st.keymapPending st.keymapRemovals) (v : V) (b : β) :
    (i.commit st).Stored v b ↔ snap v = some b := by
  constructor
  · rintro ⟨slot, hname, hread⟩
    -- a slot with a bitmap has an owner, and its name is the owner's
    obtain ⟨w, hown⟩ : ∃ w, i.Owns w slot := by
      have hsome : ((i.bitmaps.setSlots fun s => (st.sets s).map Prod.snd).removeKeys
          (i.removed st)).read slot = some b := hread
      rw [Blobs.read_removeKeys] at hsome
      obtain ⟨-, hsome⟩ := ite_none_left_eq_some.mp hsome
      cases hset : st.sets slot with
      | some e =>
        obtain ⟨w, x, hw, -⟩ := h.sets slot e.1 e.2 hset
        exact ⟨w, hw⟩
      | none =>
        have hnone : (st.sets slot).map Prod.snd = none := by
          rw [hset]
          rfl
        rw [Blobs.read_setSlots_of_none hnone] at hsome
        obtain ⟨p, hp, -⟩ := Option.bind_eq_some_iff.mp hsome
        exact hslots.stored slot p hp
    obtain ⟨rfl, -⟩ := (h.named_commit hown hslots).mp hname
    rw [← h.read_commit hown hslots]
    exact hread
  · intro hsnap
    have hex : ∃ slot, i.Owns v slot := by
      by_contra hnone
      have habsent := h.absent v fun slot hown => hnone ⟨slot, hown⟩
      rw [habsent] at hsnap
      cases hsnap
    obtain ⟨slot, hown⟩ := hex
    exact ⟨slot, (h.named_commit hown hslots).mpr ⟨rfl, h.named v slot b hown hsnap⟩,
      (h.read_commit hown hslots).trans hsnap⟩

theorem Staged.slots_commit (h : Staged snap synced st i)
    (hslots : i.Slots st.keymapPending st.keymapRemovals) :
    (i.commit st).Slots (fun _ => none) (fun _ => false) := by
  have howns := h.owns_commit hslots
  have hnamed : ∀ v slot w, i.Owns v slot → ((i.commit st).Named (fun _ => none) slot w ↔
      i.Named st.keymapPending slot w) := by
    intro v slot w hown
    change (i.commit st).keymap.read slot = some w ∨ i.keymapPending slot = some w ∨ _ ↔ _
    rw [h.named_commit hown hslots]
    constructor
    · rintro (⟨rfl, hread | hstage⟩ | hpending | hnone)
      · exact Or.inl hread
      · exact Or.inr (Or.inr hstage)
      · exact Or.inr (Or.inl hpending)
      · cases hnone
    · intro hname
      obtain rfl := hslots.name v w slot hown hname
      rcases hname with hread | hpending | hstage
      · exact Or.inl ⟨rfl, Or.inl hread⟩
      · exact Or.inr (Or.inl hpending)
      · exact Or.inl ⟨rfl, Or.inr hstage⟩
  refine ⟨fun v w slot hv hw => ?_, fun v slot slot' hv hv' => ?_, fun v slot slot' hv hmem => ?_,
    fun v slot hv => ?_, fun v slot hv => ?_, fun v w slot hv hname => ?_, fun w slot hname => ?_,
    fun v slot hfree hv => ?_, fun slot hfree => ?_, fun slot p hp => ?_⟩
  · exact hslots.owner v w slot ((howns v slot).mp hv).1 ((howns w slot).mp hw).1
  · exact hslots.one v slot slot' ((howns v slot).mp hv).1 ((howns v slot').mp hv').1
  · exact hslots.apart v slot slot' hv (List.mem_filter.mp hmem).1
  · exact hslots.bound v slot ((howns v slot).mp hv).1
  · have hown := ((howns v slot).mp hv).1
    exact (hnamed v slot v hown).mpr (hslots.named v slot hown)
  · have hown := ((howns v slot).mp hv).1
    exact hslots.name v w slot hown ((hnamed v slot w hown).mp hname)
  · have hread : i.Named st.keymapPending slot w ∨ ∃ u, st.keymapPending slot = some u := by
      rcases hname with hread | hpending | hnone
      · have hread' : ((i.keymap.setSlots st.keymapSets).removeKeys st.keymapRemovals).read slot =
            some w := hread
        rw [Blobs.read_removeKeys] at hread'
        obtain ⟨-, hread'⟩ := ite_none_left_eq_some.mp hread'
        cases hset : st.keymapSets slot with
        | none =>
          rw [Blobs.read_setSlots_of_none hset] at hread'
          exact Or.inl (Or.inl hread')
        | some p =>
          obtain ⟨u, hpending, -⟩ := h.names slot p hset
          exact Or.inr ⟨u, hpending⟩
      · exact Or.inl (Or.inr (Or.inl hpending))
      · cases hnone
    rcases hread with hname | ⟨u, hpending⟩
    · exact hslots.nameBound w slot hname
    · exact hslots.nameBound u slot (Or.inr (Or.inr hpending))
  · obtain ⟨hown, hrem⟩ := (howns v slot).mp hv
    rcases hfree with hfree | hnone
    · change (i.keymapFreeNext slot || (i.removed st slot && i.emptied.any _)) = true at hfree
      rw [Bool.or_eq_true, Bool.and_eq_true, h.removed_iff, hrem] at hfree
      rcases hfree with hfree | ⟨⟨ver, hver⟩, -⟩
      · exact hslots.freed v slot (Or.inl hfree) hown
      · cases hver
    · cases hnone
  · rcases hfree with hfree | hnone
    · change (i.keymapFreeNext slot || (i.removed st slot && i.emptied.any _)) = true at hfree
      rw [Bool.or_eq_true, Bool.and_eq_true, h.removed_iff] at hfree
      rcases hfree with hfree | ⟨⟨ver, hver⟩, -⟩
      · exact hslots.freedBound slot (Or.inl hfree)
      · obtain ⟨-, -, w, hmem, -⟩ := h.removals slot ver hver
        exact hslots.bound w slot (Or.inr hmem)
    · cases hnone
  · have hp' : (if i.removed st slot then none else
        ((st.sets slot).map Prod.snd).or (i.bitmaps.slots slot)) = some p := hp
    obtain ⟨hnot, hp'⟩ := ite_none_left_eq_some.mp hp'
    rw [h.removed_iff, ← isSome_iff_exists, Option.not_isSome_iff_eq_none] at hnot
    rcases or_eq_some_iff.mp hp' with hset | ⟨-, hold⟩
    · obtain ⟨e, he, rfl⟩ := map_eq_some_iff.mp hset
      obtain ⟨w, x, hw, -⟩ := h.sets slot e.1 e.2 he
      exact ⟨w, (howns w slot).mpr ⟨hw, hnot⟩⟩
    · obtain ⟨w, hw⟩ := hslots.stored slot p hold
      exact ⟨w, (howns w slot).mpr ⟨hw, hnot⟩⟩

theorem Staged.overlay_commit (h : Staged snap synced st i)
    (hslots : i.Slots st.keymapPending st.keymapRemovals) (hover : i.Overlay now) :
    (i.commit st).Overlay now := by
  -- what stays in the overlay, and what a dropped entry had
  have hkeep : ∀ slot c, (i.commit st).overlay slot = some c → i.overlay slot = some c ∧
      st.removals slot = none := by
    intro slot c hc
    have hc' : (if (i.unchanged slot ((st.sets slot).map Prod.fst) || i.removed st slot) = true
      then none else i.overlay slot) = some c := hc
    obtain ⟨hnot, hc'⟩ := ite_none_left_eq_some.mp hc'
    refine ⟨hc', ?_⟩
    cases hrem : st.removals slot with
    | none => rfl
    | some ver =>
      refine absurd ?_ hnot
      rw [Bool.or_eq_true]
      exact Or.inr ((h.removed_iff slot).mpr ⟨ver, hrem⟩)
  have hdrop : ∀ slot, st.removals slot = none → (i.commit st).overlay slot = none →
      i.overlay slot = none ∨ ∃ ver p c, st.sets slot = some (ver, p) ∧ i.overlay slot = some c ∧
        c.ver = ver := by
    intro slot hrem hnone
    have hnone' : (if (i.unchanged slot ((st.sets slot).map Prod.fst) || i.removed st slot) = true
      then none else i.overlay slot) = none := hnone
    split_ifs at hnone' with hcond
    · rw [Bool.or_eq_true, h.removed_iff, hrem] at hcond
      rcases hcond with hsame | ⟨ver, hver⟩
      · rw [unchanged, Bool.and_eq_true, decide_eq_true_eq] at hsame
        obtain ⟨hsome, hver⟩ := hsame
        obtain ⟨ver, hver'⟩ := isSome_iff_exists.mp hsome
        obtain ⟨⟨ver', p⟩, hset, rfl⟩ := map_eq_some_iff.mp hver'
        rw [hver'] at hver
        obtain ⟨c, hc, hcver⟩ := map_eq_some_iff.mp hver
        exact Or.inr ⟨_, p, c, hset, hc, hcver⟩
      · cases hver
    · exact Or.inl hnone'
  have hord : (i.commit st).ordering = i.ordering := rfl
  refine ⟨fun v slot hv => ⟨?_, (hover.live v slot hv).2⟩, hover.dead, fun v slot hmem => ?_,
    fun slot c hc => ?_, fun slot c hc => hover.versions slot c (hkeep slot c hc).1⟩
  · have hlive := (hover.live v slot hv).1
    have hown : i.Owns v slot := Or.inl hv
    have hrem : st.removals slot = none := by
      cases hrem : st.removals slot with
      | none => rfl
      | some ver =>
        obtain ⟨-, -, w, hmem, -⟩ := h.removals slot ver hrem
        obtain rfl := hslots.owner v w slot hown (Or.inr hmem)
        exact absurd hmem (hslots.apart v slot slot hv)
    rw [loadBitmap]
    cases hc : (i.commit st).overlay slot with
    | some c =>
      rw [loadBitmap, (hkeep slot c hc).1] at hlive
      exact hlive
    | none =>
      change (i.commit st).bitmaps.read slot = now v
      rw [h.read_commit hown hslots]
      rcases hdrop slot hrem hc with hnone | ⟨ver, p, c, hset, hc', hver⟩
      · have hset : st.sets slot = none := by
          cases hset : st.sets slot with
          | none => rfl
          | some e =>
            obtain ⟨-, -, -, -, -, -, c, hc', -⟩ := h.sets slot e.1 e.2 hset
            rw [hnone] at hc'
            cases hc'
        rw [loadBitmap, hnone] at hlive
        rw [← h.rest v slot hown hset hrem]
        exact hlive
      · obtain ⟨w, b, hw, hsnap, -, -, c', hc'', -, hsame⟩ := h.sets slot ver p hset
        obtain rfl := Option.some.inj (hc'.symm.trans hc'')
        rw [loadBitmap, hc'] at hlive
        rw [hslots.owner v w slot hown hw] at hlive ⊢
        rw [hsnap, ← hsame hver]
        exact hlive
  · obtain ⟨hmem, hnot⟩ := List.mem_filter.mp hmem
    obtain ⟨ver, hgone⟩ := hover.gone v slot hmem
    refine ⟨ver, ?_⟩
    change (if (i.unchanged slot ((st.sets slot).map Prod.fst) || i.removed st slot) = true
      then none else i.overlay slot) = _
    rw [if_neg]
    · exact hgone
    · intro hcond
      rw [Bool.or_eq_true] at hcond
      rcases hcond with hsame | hrem
      · -- a staged slot that is unchanged is not empty
        rw [unchanged, Bool.and_eq_true, decide_eq_true_eq] at hsame
        obtain ⟨hsome, hver⟩ := hsame
        obtain ⟨ver', hver'⟩ := isSome_iff_exists.mp hsome
        obtain ⟨⟨_, p⟩, hset, rfl⟩ := map_eq_some_iff.mp hver'
        obtain ⟨-, b, -, -, -, -, c, hc, -, hempty⟩ := h.sets slot _ p hset
        rw [hgone] at hc
        obtain rfl := Option.some.inj hc
        rw [hgone, hver'] at hver
        have hbitmap := hempty (Option.some.inj hver)
        cases hbitmap
      · change (!i.removed st slot) = true at hnot
        rw [hrem] at hnot
        cases hnot
  · obtain ⟨hc', hrem⟩ := hkeep slot c hc
    obtain ⟨v, hown, hnow⟩ := hover.owned slot c hc'
    exact ⟨v, (h.owns_commit hslots v slot).mpr ⟨hown, hrem⟩, hnow⟩

/-- **Commit.** The index goes on holding what it holds. -/
theorem Sound.commit (hsound : Sound now st.keymapPending st.keymapRemovals i)
    (h : Staged snap true st i) : Sound now (fun _ => none) (fun _ => false) (i.commit st) where
  bitmapsOk := by
    refine Blobs.Ok.removeKeys (hsound.bitmapsOk.setSlots fun slot p hset => ?_) _
    obtain ⟨e, he, rfl⟩ := map_eq_some_iff.mp hset
    obtain ⟨-, b, -, -, -, hsync, -⟩ := h.sets slot e.1 e.2 he
    exact ⟨b, hsync rfl⟩
  keymapOk := by
    refine Blobs.Ok.removeKeys (hsound.keymapOk.setSlots fun slot p hset => ?_) _
    obtain ⟨v, -, -, hsync⟩ := h.names slot p hset
    exact ⟨v, hsync rfl⟩
  slots := h.slots_commit hsound.slots
  overlay := h.overlay_commit hsound.slots hsound.overlay

end Commit

/-- **Abort.** The names of the stage are queued again. -/
theorem Sound.abort (h : Sound now st.keymapPending st.keymapRemovals i) :
    Sound now (fun _ => none) (fun _ => false) (i.abort st) := by
  have hname : ∀ slot w, (i.abort st).Named (fun _ => none) slot w →
      i.Named st.keymapPending slot w := by
    rintro slot w (hread | hpending | hnone)
    · exact Or.inl hread
    · rcases or_eq_some_iff.mp hpending with hstage | ⟨-, hold⟩
      · exact Or.inr (Or.inr hstage)
      · exact Or.inr (Or.inl hold)
    · cases hnone
  have hfree : ∀ slot, (i.abort st).keymapFreeNext slot = true ∨ false = true →
      i.keymapFreeNext slot = true ∨ st.keymapRemovals slot = true := by
    rintro slot (hfree | hnone)
    · exact ((Bool.or_eq_true _ _).mp hfree).symm
    · cases hnone
  refine ⟨h.bitmapsOk, h.keymapOk, ⟨h.slots.owner, h.slots.one, h.slots.apart, h.slots.bound,
      fun v slot hown => ?_,
      fun v w slot hown hw => h.slots.name v w slot hown (hname slot w hw),
      fun w slot hw => h.slots.nameBound w slot (hname slot w hw),
      fun v slot hs => h.slots.freed v slot (hfree slot hs),
      fun slot hs => h.slots.freedBound slot (hfree slot hs), h.slots.stored⟩,
    ⟨h.overlay.live, h.overlay.dead, h.overlay.gone, h.overlay.owned, h.overlay.versions⟩⟩
  change i.keymap.read slot = some v ∨ (st.keymapPending slot).or (i.keymapPending slot) = some v ∨ _
  rcases h.slots.named v slot hown with hread | hpending | hstage
  · exact Or.inl hread
  · refine Or.inr (Or.inl ?_)
    cases hst : st.keymapPending slot with
    | none => exact hpending
    | some u =>
      obtain rfl := h.slots.name v u slot hown (Or.inr (Or.inr hst))
      rfl
  · refine Or.inr (Or.inl ?_)
    rw [hstage]
    rfl

/-- **The key tables are synced.** -/
theorem Sound.syncKeys (h : Sound now inStage freeInStage i) :
    Sound now inStage freeInStage i.syncKeys where
  bitmapsOk := h.bitmapsOk.syncKeys
  keymapOk := h.keymapOk.syncKeys
  slots := ⟨h.slots.owner, h.slots.one, h.slots.apart, h.slots.bound, h.slots.named, h.slots.name,
    h.slots.nameBound, h.slots.freed, h.slots.freedBound, h.slots.stored⟩
  overlay := ⟨h.overlay.live, h.overlay.dead, h.overlay.gone, h.overlay.owned, h.overlay.versions⟩

/-- **Spill.** -/
theorem Sound.spill (h : Sound now (fun _ => none) (fun _ => false) i)
    (hfree : i.stageInFlight = false) (synced : Bool) :
    Sound now (fun _ => none) (fun _ => false) (i.spill synced) := by
  have hnot : ¬ i.stageInFlight = true := by
    rw [hfree]
    exact Bool.false_ne_true
  rw [DynFieldIndex.spill, if_neg hnot]
  cases synced with
  | false => exact h.stage.abort
  | true => exact (h.stage.syncValues.commit (h.staged.syncValues true)).syncKeys

theorem Sound.maybeCompact (h : Sound now (fun _ => none) (fun _ => false) i)
    (bitmaps keymap : Bool) :
    Sound now (fun _ => none) (fun _ => false) (i.maybeCompact bitmaps keymap) := by
  have hbitmaps : ∀ slot, (i.maybeCompact bitmaps keymap).bitmaps.read slot = i.bitmaps.read slot := by
    intro slot
    cases bitmaps
    · rfl
    · exact Blobs.read_compact slot
  have hkeymap : ∀ slot, (i.maybeCompact bitmaps keymap).keymap.read slot = i.keymap.read slot := by
    intro slot
    cases keymap
    · rfl
    · exact Blobs.read_compact slot
  have hnamed : ∀ slot w, (i.maybeCompact bitmaps keymap).Named (fun _ => none) slot w ↔
      i.Named (fun _ => none) slot w := by
    intro slot w
    rw [Named, Named, hkeymap]
    rfl
  have hload : ∀ slot, (i.maybeCompact bitmaps keymap).loadBitmap slot = i.loadBitmap slot := by
    intro slot
    rw [loadBitmap, loadBitmap, hbitmaps]
    rfl
  refine ⟨?_, ?_, ⟨h.slots.owner, h.slots.one, h.slots.apart, h.slots.bound,
      fun v slot hown => (hnamed slot v).mpr (h.slots.named v slot hown),
      fun v w slot hown hname => h.slots.name v w slot hown ((hnamed slot w).mp hname),
      fun w slot hname => h.slots.nameBound w slot ((hnamed slot w).mp hname),
      h.slots.freed, h.slots.freedBound, fun slot p hp => ?_⟩,
    ⟨fun v slot hv => (hload slot).symm ▸ h.overlay.live v slot hv, h.overlay.dead,
      h.overlay.gone, h.overlay.owned, h.overlay.versions⟩⟩
  · cases bitmaps
    · exact h.bitmapsOk
    · exact h.bitmapsOk.compact
  · cases keymap
    · exact h.keymapOk
    · exact h.keymapOk.compact
  · cases bitmaps
    · exact h.slots.stored slot p hp
    · obtain ⟨q, hq, -⟩ := map_eq_some_iff.mp hp
      exact h.slots.stored slot q hq

theorem stageInFlight_spill (synced : Bool) (hfree : i.stageInFlight = false) :
    (i.spill synced).stageInFlight = false := by
  have hnot : ¬ i.stageInFlight = true := by
    rw [hfree]
    exact Bool.false_ne_true
  rw [DynFieldIndex.spill, if_neg hnot]
  cases synced <;> rfl

/-! ### What the stores hold -/

section Contents

theorem Sound.stored_stage (h : Sound now (fun _ => none) (fun _ => false) i) (v : V) (b : β) :
    i.stage.1.Stored v b ↔ i.Stored v b := by
  refine exists_congr fun slot => ?_
  change (i.keymap.appendValues _).read slot = some v ∧
    (i.bitmaps.appendValues _).read slot = some b ↔ _
  rw [h.keymapOk.read_appendValues, h.bitmapsOk.read_appendValues]

theorem Sound.onDisk_syncValues (h : Sound now inStage freeInStage i) (v : V) (b : β) :
    i.syncValues.OnDisk v b ↔ i.OnDisk v b := by
  refine exists_congr fun slot => ?_
  change i.keymap.syncValues.onDisk slot = some v ∧ i.bitmaps.syncValues.onDisk slot = some b ↔ _
  rw [h.keymapOk.onDisk_syncValues, h.bitmapsOk.onDisk_syncValues]

theorem Sound.onDisk_syncKeys (h : Sound now inStage freeInStage i) (v : V) (b : β) :
    i.syncKeys.OnDisk v b ↔ i.Stored v b := by
  refine exists_congr fun slot => ?_
  change i.keymap.syncKeys.onDisk slot = some v ∧ i.bitmaps.syncKeys.onDisk slot = some b ↔ _
  rw [h.keymapOk.onDisk_syncKeys, h.bitmapsOk.onDisk_syncKeys]

/-- A spill writes out all the index holds, or nothing. -/
theorem Sound.stored_spill (h : Sound now (fun _ => none) (fun _ => false) i)
    (hfree : i.stageInFlight = false) (synced : Bool) (v : V) (b : β) :
    ((i.spill synced).Stored v b ↔ if synced then now v = some b else i.Stored v b) ∧
      ((i.spill synced).OnDisk v b ↔ if synced then now v = some b else i.OnDisk v b) := by
  have hnot : ¬ i.stageInFlight = true := by
    rw [hfree]
    exact Bool.false_ne_true
  rw [DynFieldIndex.spill, if_neg hnot]
  cases synced with
  | false => exact ⟨h.stored_stage v b, Iff.rfl⟩
  | true =>
    have hstaged := h.staged.syncValues true
    have hstored := hstaged.stored_commit h.stage.syncValues.slots v b
    exact ⟨hstored, ((h.stage.syncValues.commit hstaged).onDisk_syncKeys v b).trans hstored⟩

/-- Compaction and the flush after it leave all the index holds on disk. -/
theorem Sound.stored_compact (h : Sound now (fun _ => none) (fun _ => false) i)
    (hfree : i.stageInFlight = false) (bitmaps keymap : Bool) (v : V) (b : β) :
    ((i.maybeCompact bitmaps keymap).flush.Stored v b ↔ now v = some b) ∧
      ((i.maybeCompact bitmaps keymap).flush.OnDisk v b ↔ now v = some b) := by
  have hcompact := h.maybeCompact bitmaps keymap
  have hspill := hcompact.spill hfree true
  have hstored := (hcompact.stored_spill hfree true v b).1
  rw [if_pos rfl] at hstored
  exact ⟨hstored, (hspill.syncValues.onDisk_syncKeys v b).trans hstored⟩

end Contents

end DynFieldIndex

end FieldSpill

end Minnal
