import Minnal.Index.BlobRecovery

/-!
# The blob store as a map

What a running blob store does to its key table does not depend on the hash function, nor on the
bytes of the files: the operations here are those of the store for an arbitrary **home** of each
key (`hashKey_ops`). A table in order (`Healthy`) stays so under every operation and under a clean
close and open. So the store is a **map** (`map_refined`): a key's blob is the last one set for
it, no key has two slots, some slot is empty, so that every probe ends, and a blob is appended
behind everything that a live slot owns.

In the directory layout compaction moves the containers and writes the directories anew: the
bytes of a key's blob are then others, and list the same containers.
-/

set_option linter.dupNamespace false

namespace Minnal

open ByteCodec LinearProbe BlobStore Function

namespace BlobTable

/-- No slice of bytes is longer. -/
def isizeMax : ℕ := 2 ^ 63 - 1

/-! ### Operations -/

section Operations

variable (home : ℕ → ℕ) (s : BlobStore)

/-- The place of a key. -/
def find (key : ℕ) : Option Place := LinearProbe.lookup home s.slots key

/-- The blob of a key. -/
def getRef (key : ℕ) : Option (List UInt8) := (find home s key).bind s.valueSlice

/-- Rebuild the key table with twice the capacity and no tombstones. -/
def rehash : BlobStore :=
  { s with
    slots := rebuild home (s.slots.length * 2) (entries s.slots)
    count := (entries s.slots).length
    tombstoneCount := 0 }

/-- Rehash if the table is too full. -/
def makeRoom : BlobStore := if s.needsRehash then rehash home s else s

/-- Point a key at a blob that is already in the value file. -/
def setSlot (key : ℕ) (p : Place) : BlobStore :=
  let s := makeRoom home s
  { s with
    slots := insert home s.slots key p
    count := if (probe home s.slots key).2 then s.count else s.count + 1 }

/-- Leave a tombstone for the key. -/
def removeKey (key : ℕ) : BlobStore :=
  if (probe home s.slots key).2 then
    { s with
      slots := erase home s.slots key
      count := s.count - 1
      tombstoneCount := s.tombstoneCount + 1 }
  else s

/-- Live blobs only, and a key table without tombstones. -/
def compact : BlobStore :=
  let moved := s.moveAll (entries s.slots) []
  { s with
    slots := rebuild home s.slots.length moved.2
    count := moved.2.length
    tombstoneCount := 0
    valueWritePos := moved.1.length
    vals := moved.1 ++ List.replicate (BlobStore.initialValSize - moved.1.length) 0 }

/-- Append a blob; none for the panics on a blob or a file that is too long. -/
def appendValue (blob : List UInt8) : Option (BlobStore × Place) :=
  if blob.length < 2 ^ 32 ∧ (s.appendValue blob).2.stop ≤ isizeMax then some (s.appendValue blob)
  else none

/-- A clean close, and an open of what it leaves. -/
def reopen : BlobStore :=
  BlobStore.openWith s.layout (s.slots.map some) s.valueWritePos s.vals

/-- The operations are those of the store, for its own hash function. -/
theorem hashKey_ops : find hashKey s = s.find ∧ getRef hashKey s = s.getRef ∧
    rehash hashKey s = s.rehash ∧ setSlot hashKey s = s.setSlot ∧
    removeKey hashKey s = s.removeKey ∧ compact hashKey s = s.compact :=
  ⟨rfl, rfl, rfl, rfl, rfl, rfl⟩

end Operations

/-! ### Tables in order -/

variable {home : ℕ → ℕ} {s : BlobStore} {key k : ℕ} {p q : Place}

/-- **A table in order**: it is sound, the header counts its live slots and at least its used
ones, it is not too full, and what its slots own lies below the write position. -/
structure Healthy (home : ℕ → ℕ) (s : BlobStore) : Prop where
  sound : Sound home s.slots
  count : s.count = live s.slots
  used : used s.slots ≤ s.count + s.tombstoneCount
  load : (s.count + s.tombstoneCount) * 10 ≤ s.slots.length * 7 + 10
  capacity : 16 ≤ s.slots.length
  pos_le : s.valueWritePos ≤ s.vals.length
  intact : ∀ key p, Has s.slots key p →
    BlobStore.IntactBelow s.layout s.vals s.valueWritePos p

theorem healthy_create (layout : BlobLayout) : Healthy home (.create layout) := by
  obtain ⟨hsound, hused, hlive, hlen, hhas⟩ :
      Sound home (rebuild home 16 ([] : List (ℕ × Place))) ∧ _ :=
    rebuild_spec List.nodup_nil (Nat.zero_le 16)
  exact
    { sound := hsound
      count := hlive.symm
      used := hused.le
      load := Nat.zero_le _
      capacity := hlen.ge
      pos_le := Nat.zero_le _
      intact := fun key p hp => nomatch (hhas key p).mp hp }

namespace Healthy

variable (h : Healthy home s)

include h

theorem used_lt : LinearProbe.used s.slots < s.slots.length := by
  have := h.used
  have := h.load
  have := h.capacity
  omega

theorem hasRoom : HasRoom s.slots :=
  hasRoom_of_live_lt ((live_le_used _).trans_lt h.used_lt)

theorem find_eq_some_iff : find home s key = some p ↔ Has s.slots key p := h.sound.lookup_eq_some_iff

variable {t : BlobStore}

/-- What a table in order holds is read off its pairs. -/
theorem find_congr (ht : Healthy home t) (hhas : ∀ key p, Has t.slots key p ↔ Has s.slots key p)
    (key : ℕ) : find home t key = find home s key :=
  Option.ext fun p => by rw [ht.find_eq_some_iff, h.find_eq_some_iff, hhas]

theorem getRef_eq (hp : find home s key = some p) :
    getRef home s key = some (readAt s.vals p.offset p.len) := by
  have hstop := (h.intact key p (h.find_eq_some_iff.mp hp)).1
  rw [getRef, hp, Option.bind_some, valueSlice, if_pos (hstop.trans h.pos_le)]

theorem nodup_keys : ((entries s.slots).map Prod.fst).Nodup := nodup_keys_iff.mpr h.sound.unique

theorem mem_keys : key ∈ s.keys ↔ (find home s key).isSome = true := by
  rw [keys, List.mem_map, Option.isSome_iff_exists]
  constructor
  · rintro ⟨e, he, rfl⟩
    exact ⟨e.2, h.find_eq_some_iff.mpr (mem_entries.mp he)⟩
  · rintro ⟨p, hp⟩
    exact ⟨(key, p), mem_entries.mpr (h.find_eq_some_iff.mp hp), rfl⟩

/-! ### What the operations keep -/

theorem rehash : Healthy home (rehash home s) ∧
    ∀ key p, Has (BlobTable.rehash home s).slots key p ↔ Has s.slots key p := by
  have hcount := h.count
  have hlive := length_entries s.slots
  have hlt := (live_le_used s.slots).trans_lt h.used_lt
  have hcap := h.capacity
  obtain ⟨hsound, hused, hlive', hlen, hhas⟩ :
      Sound home (rebuild home (s.slots.length * 2) (entries s.slots)) ∧ _ :=
    rebuild_spec h.nodup_keys (by omega)
  have hsame : ∀ key p, Has (BlobTable.rehash home s).slots key p ↔ Has s.slots key p :=
    fun key p => (hhas key p).trans mem_entries
  refine ⟨?_, hsame⟩
  exact
    { sound := hsound
      count := hlive'.symm
      used := hused.le
      load := by
        rw [BlobTable.rehash]
        simp only [hlen]
        omega
      capacity := by
        rw [BlobTable.rehash]
        simp only [hlen]
        omega
      pos_le := h.pos_le
      intact := fun key p hp => h.intact key p ((hsame key p).mp hp) }

theorem makeRoom : Healthy home (makeRoom home s) ∧
    ((BlobTable.makeRoom home s).count + (BlobTable.makeRoom home s).tombstoneCount) * 10 ≤
      (BlobTable.makeRoom home s).slots.length * 7 ∧
    ∀ key p, Has (BlobTable.makeRoom home s).slots key p ↔ Has s.slots key p := by
  rw [BlobTable.makeRoom]
  split_ifs with hfull
  · obtain ⟨hhealthy, hhas⟩ := h.rehash
    refine ⟨hhealthy, ?_, hhas⟩
    have hlive := length_entries s.slots
    have hlt := (live_le_used s.slots).trans_lt h.used_lt
    have hlen : (BlobTable.rehash home s).slots.length = s.slots.length * 2 := by
      obtain ⟨-, -, -, hlen, -⟩ : Sound home (rebuild home (s.slots.length * 2) (entries s.slots)) ∧ _ :=
        rebuild_spec h.nodup_keys (by omega)
      exact hlen
    have hcap := h.capacity
    rw [hlen, BlobTable.rehash]
    simp only
    -- the live slots were at most 70 % and one more of half the room
    have hcount := h.count
    have hload := h.load
    omega
  · rw [needsRehash, decide_eq_true_eq] at hfull
    exact ⟨h, by omega, fun key p => Iff.rfl⟩

theorem setSlot (hp : IntactBelow s.layout s.vals s.valueWritePos p) (key : ℕ) :
    Healthy home (setSlot home s key p) ∧ ∀ k, find home (BlobTable.setSlot home s key p) k =
      if k = key then some p else find home s k := by
  obtain ⟨hroom, hload, hhas⟩ := h.makeRoom
  have hfiles : (BlobTable.makeRoom home s).layout = s.layout ∧
      (BlobTable.makeRoom home s).vals = s.vals ∧
      (BlobTable.makeRoom home s).valueWritePos = s.valueWritePos := by
    rw [BlobTable.makeRoom]
    split_ifs <;> exact ⟨rfl, rfl, rfl⟩
  have hfind : ∀ k, find home (BlobTable.setSlot home s key p) k =
      if k = key then some p else find home s k := fun k => by
    rw [← h.find_congr hroom hhas k]
    exact hroom.sound.lookup_insert hroom.hasRoom
  have hsound : Sound home (BlobTable.setSlot home s key p).slots := hroom.sound.insert hroom.hasRoom
  obtain ⟨hlayout, hvals, hpos⟩ := hfiles
  obtain ⟨hused, hlive⟩ := count_insert home key p hroom.hasRoom
  have hcount := hroom.count
  have hold := hroom.used
  have hcap := hroom.capacity
  have hlen : (LinearProbe.insert home (BlobTable.makeRoom home s).slots key p).length =
    (BlobTable.makeRoom home s).slots.length := length_insert
  refine ⟨⟨hsound, ?_, ?_, ?_, ?_, hroom.pos_le, fun k q hq => ?_⟩, hfind⟩
  · rw [BlobTable.setSlot]
    simp only
    rw [hlive]
    split_ifs <;> omega
  · rw [BlobTable.setSlot]
    simp only
    split_ifs at hused ⊢ <;> omega
  · rw [BlobTable.setSlot]
    simp only [hlen]
    split_ifs <;> omega
  · rw [BlobTable.setSlot]
    simp only [hlen]
    exact hcap
  · have hq' := hsound.lookup_eq_some_iff.mpr hq
    change find home (BlobTable.setSlot home s key p) k = some q at hq'
    rw [hfind] at hq'
    change IntactBelow (BlobTable.makeRoom home s).layout (BlobTable.makeRoom home s).vals
      (BlobTable.makeRoom home s).valueWritePos q
    rw [hlayout, hvals, hpos]
    split_ifs at hq' with hk
    · exact Option.some.inj hq' ▸ hp
    · exact h.intact k q (h.find_eq_some_iff.mp hq')

theorem removeKey (key : ℕ) : Healthy home (removeKey home s key) ∧
    ∀ k, find home (BlobTable.removeKey home s key) k = if k = key then none else find home s k := by
  obtain ⟨hused, hlive⟩ := count_erase home s.slots key
  have hcount := h.count
  have hold := h.used
  have hload := h.load
  have hlen : (LinearProbe.erase home s.slots key).length = s.slots.length := length_erase
  have hslots : (BlobTable.removeKey home s key).slots = LinearProbe.erase home s.slots key := by
    rw [BlobTable.removeKey]
    split_ifs with hfound
    · rfl
    · rw [LinearProbe.erase, if_neg hfound]
  have hfind : ∀ k, find home (BlobTable.removeKey home s key) k =
      if k = key then none else find home s k := fun k => by
    rw [find, hslots]
    exact h.sound.lookup_erase
  refine ⟨?_, hfind⟩
  by_cases hfound : (probe home s.slots key).2 = true
  · rw [if_pos hfound] at hlive
    rw [BlobTable.removeKey, if_pos hfound]
    exact
      { sound := h.sound.erase
        count := by
          simp only
          omega
        used := by
          simp only
          omega
        load := by
          simp only [hlen]
          omega
        capacity := hlen ▸ h.capacity
        pos_le := h.pos_le
        intact := fun k q hq => by
          have hsound : Sound home (LinearProbe.erase home s.slots key) := h.sound.erase
          have hq' := hsound.lookup_eq_some_iff.mpr hq
          rw [h.sound.lookup_erase] at hq'
          split_ifs at hq'
          exact h.intact k q (h.sound.lookup_eq_some_iff.mp hq') }
  · rw [BlobTable.removeKey, if_neg hfound]
    exact h

theorem appendValue {blob : List UInt8} (happend : appendValue s blob = some (t, q)) :
    Healthy home t ∧ t.slots = s.slots ∧ t.layout = s.layout ∧
      t.vals.take s.valueWritePos = s.vals.take s.valueWritePos ∧
      s.valueWritePos ≤ q.offset ∧ q.stop = t.valueWritePos ∧
      readAt t.vals q.offset q.len = blob := by
  obtain ⟨-, heq⟩ := Option.ite_none_right_eq_some.mp happend
  obtain ⟨rfl, rfl⟩ := Prod.ext_iff.mp (Option.some.inj heq)
  obtain ⟨htake, hle, hstop, hpos, hread⟩ := appendValue_spec h.pos_le blob
  have hge : s.valueWritePos ≤ (s.appendValue blob).1.valueWritePos := by
    rw [← hstop, Place.stop]
    omega
  refine ⟨?_, rfl, rfl, htake, hle, hstop, hread⟩
  exact
    { sound := h.sound
      count := h.count
      used := h.used
      load := h.load
      capacity := h.capacity
      pos_le := hpos
      intact := fun k p hp => ((h.intact k p hp).congr htake.symm).1.mono hge }

/-- A clean close and open leaves the store as it is. -/
theorem reopen : (reopen s).slots = s.slots ∧ (BlobTable.reopen s).valueWritePos = s.valueWritePos ∧
    Healthy home (BlobTable.reopen s) := by
  have hslots : (BlobTable.reopen s).slots = s.slots := by
    rw [BlobTable.reopen, openWith]
    simp only [List.map_map]
    refine (List.map_congr_left fun c hc => ?_).trans (List.map_id _)
    cases c with
    | empty => rfl
    | dead => rfl
    | live key p =>
      obtain ⟨last, hlast, -⟩ :=
        (h.intact key p (List.mem_iff_getElem?.mp hc)).exists_ownedEnd h.pos_le
      rw [comp_apply, repairSlot, hlast]
      rfl
  have hmax : maxEnd s.layout s.vals s.slots ≤ s.valueWritePos := by
    have hfold : ∀ (es : List (ℕ × Place)) (m : ℕ), (∀ e ∈ es, Has s.slots e.1 e.2) →
        m ≤ s.valueWritePos →
        es.foldl (fun m e => max m ((ownedEnd s.layout s.vals e.2).getD 0)) m ≤
          s.valueWritePos := by
      intro es
      induction es with
      | nil => exact fun m _ hm => hm
      | cons e es ih =>
        intro m hes hm
        obtain ⟨he, hes⟩ := List.forall_mem_cons.mp hes
        obtain ⟨last, hlast, hle⟩ := (h.intact e.1 e.2 he).exists_ownedEnd h.pos_le
        refine ih _ hes (max_le hm ?_)
        rw [hlast]
        exact hle
    exact hfold _ 0 (fun e he => mem_entries.mp he) (Nat.zero_le _)
  have hpos : (BlobTable.reopen s).valueWritePos = s.valueWritePos := by
    change max (min s.valueWritePos s.vals.length)
      (maxEnd s.layout s.vals (BlobTable.reopen s).slots) = _
    rw [hslots, min_eq_left h.pos_le, max_eq_left hmax]
  have hcount : (BlobTable.reopen s).count = live s.slots := congrArg live hslots
  have htombs : (BlobTable.reopen s).tombstoneCount = s.slots.countP Cell.isDead :=
    congrArg (List.countP Cell.isDead) hslots
  have hsplit := used_eq s.slots
  have hused := h.used
  have hload := h.load
  refine ⟨hslots, hpos, ?_⟩
  exact
    { sound := hslots ▸ h.sound
      count := by rw [hcount, hslots]
      used := by
        rw [hslots, hcount, htombs]
        omega
      load := by
        rw [hslots, hcount, htombs]
        omega
      capacity := hslots ▸ h.capacity
      pos_le := hpos ▸ h.pos_le
      intact := fun k p hp => by
        rw [hpos]
        exact h.intact k p (hslots ▸ hp) }

theorem moveAll (hfile : (s.moveAll (entries s.slots) []).1.length ≤ isizeMax) :
    List.Forall₂ (fun e m : ℕ × Place => m.1 = e.1 ∧
        IntactBelow s.layout (s.moveAll (entries s.slots) []).1
          (s.moveAll (entries s.slots) []).1.length m.2 ∧
        BlobStore.owned s.layout (s.moveAll (entries s.slots) []).1 m.2 =
          BlobStore.owned s.layout s.vals e.2)
      (entries s.slots) (s.moveAll (entries s.slots) []).2 ∧
    (s.moveAll (entries s.slots) []).2.map Prod.fst = (entries s.slots).map Prod.fst := by
  have hmoved := moveAll_spec (entries s.slots) [] h.pos_le
    (fun e he => h.intact e.1 e.2 (mem_entries.mp he)) (hfile.trans (by decide))
  refine ⟨hmoved, ?_⟩
  rw [eq_comm]
  refine List.forall₂_eq_eq_eq ▸ List.forall₂_map_left_iff.mpr (List.forall₂_map_right_iff.mpr ?_)
  exact hmoved.imp fun e m hem => hem.1.symm

/-- **Compaction** leaves the same keys, and blobs that own the same bytes. -/
theorem compact (hfile : (compact home s).valueWritePos ≤ isizeMax) :
    Healthy home (BlobTable.compact home s) ∧
      ∀ k, Option.Rel (fun q p => BlobStore.owned s.layout (BlobTable.compact home s).vals q =
        BlobStore.owned s.layout s.vals p) (find home (BlobTable.compact home s) k) (find home s k) := by
  obtain ⟨hmoved, hkeys⟩ := h.moveAll hfile
  have hcount : (s.moveAll (entries s.slots) []).2.length = live s.slots := by
    rw [← length_entries, ← List.length_map (f := Prod.fst), hkeys, List.length_map]
  have hlt := (live_le_used s.slots).trans_lt h.used_lt
  have hnodup : ((s.moveAll (entries s.slots) []).2.map Prod.fst).Nodup := hkeys ▸ h.nodup_keys
  obtain ⟨hsound, hused, hlive, hlen, hhas⟩ :
      Sound home (rebuild home s.slots.length (s.moveAll (entries s.slots) []).2) ∧ _ :=
    rebuild_spec hnodup (by omega)
  have hpre : (s.moveAll (entries s.slots) []).1 <+: (BlobTable.compact home s).vals :=
    List.prefix_append _ _
  have htake : (s.moveAll (entries s.slots) []).1.take (s.moveAll (entries s.slots) []).1.length =
      (BlobTable.compact home s).vals.take (s.moveAll (entries s.slots) []).1.length := by
    rw [List.take_length, ← List.prefix_iff_eq_take.mp hpre]
  have hhealthy : Healthy home (BlobTable.compact home s) :=
    { sound := hsound
      count := hlive.symm
      used := hused.le
      load := by
        have := h.count
        have := h.load
        simp only [BlobTable.compact, hlen]
        omega
      capacity := hlen ▸ h.capacity
      pos_le := hpre.length_le
      intact := fun k p hp => by
        obtain ⟨e, -, -, hplace, -⟩ := exists_of_mem_right hmoved ((hhas k p).mp hp)
        exact (hplace.congr htake).1 }
  refine ⟨hhealthy, fun k => ?_⟩
  have hwhole : ∀ e q, e ∈ entries s.slots → (e.1, q) ∈ (s.moveAll (entries s.slots) []).2 →
      find home (BlobTable.compact home s) e.1 = some q := fun e q _ hq =>
    hhealthy.find_eq_some_iff.mpr ((hhas e.1 q).mpr hq)
  cases hp : find home s k with
  | none =>
    cases hq : find home (BlobTable.compact home s) k with
    | none => exact .none
    | some q =>
      obtain ⟨e, he, heq, -⟩ := exists_of_mem_right hmoved
        ((hhas k q).mp (hhealthy.find_eq_some_iff.mp hq))
      have hin := h.find_eq_some_iff.mpr (mem_entries.mp he)
      rw [← heq] at hin
      exact absurd (hp.symm.trans hin) (by simp)
  | some p =>
    have hin : (k, p) ∈ entries s.slots := mem_entries.mpr (h.find_eq_some_iff.mp hp)
    obtain ⟨m, hm, hkey, hplace, howned⟩ := exists_of_mem_right hmoved.flip hin
    obtain rfl : m.1 = k := hkey
    rw [hwhole (m.1, p) m.2 hin hm]
    exact .some ((hplace.congr htake).2.trans howned)

end Healthy

/-! ### Runs -/

/-- The blob that was last set for a key: its bytes, what they hold, and whether compaction has
written them anew since, as it does with directories. -/
structure LastSet where
  bytes : List UInt8
  owned : Option (List (ℕ × List UInt8))
  moved : Bool

/-- A store, and what was last set for each key. -/
structure Traced where
  store : BlobStore
  last : ℕ → Option LastSet

/-- A new store. -/
def create (layout : BlobLayout) : Traced := ⟨.create layout, fun _ => none⟩

/-- One call, or a clean close and an open. -/
inductive Op where
  | append (blob : List UInt8)
  | setSlot (key : ℕ) (p : Place)
  | removeKey (key : ℕ)
  | rehash
  | compact
  | reopen

/-- Slots are pointed at what has been appended: a blob and, where it is a directory, the
containers it lists. -/
def appended (s : BlobStore) (p : Place) : Bool :=
  (BlobStore.ownedEnd s.layout (s.vals.take s.valueWritePos) p).isSome

/-- What a blob is that holds these bytes. -/
def contents (layout : BlobLayout) (vals bytes : List UInt8) : Option (List (ℕ × List UInt8)) :=
  match layout with
  | .flat => some [(0, bytes)]
  | .directory => (Storage.decodeDir bytes).toOption.map fun entries =>
      entries.map fun e => (e.key, readAt vals e.offset e.len)

/-- One step. -/
def step (home : ℕ → ℕ) (t : Traced) : Op → Option Traced
  | .append blob => (appendValue t.store blob).map fun r => { t with store := r.1 }
  | .setSlot key p =>
    if appended t.store p then
      some
        { store := setSlot home t.store key p
          last := Function.update t.last key
            (some ⟨readAt t.store.vals p.offset p.len,
              BlobStore.owned t.store.layout t.store.vals p, false⟩) }
    else none
  | .removeKey key =>
    some { store := removeKey home t.store key, last := Function.update t.last key none }
  | .rehash => some { t with store := rehash home t.store }
  | .compact =>
    if (compact home t.store).valueWritePos ≤ isizeMax then
      some
        { store := compact home t.store
          last := fun k => (t.last k).map fun b =>
            { b with moved := b.moved || decide (t.store.layout = .directory) } }
    else none
  | .reopen => some { t with store := reopen t.store }

/-- What the store has for a key, compared with what was last set. -/
def Holds (s : BlobStore) (p : Place) (b : LastSet) : Prop :=
  BlobStore.owned s.layout s.vals p = b.owned ∧
    (b.moved = false → readAt s.vals p.offset p.len = b.bytes)

/-- **The invariant**: a table in order that has for each key what was last set. -/
structure Inv (home : ℕ → ℕ) (t : Traced) : Prop where
  healthy : Healthy home t.store
  holds : ∀ k, Option.Rel (Holds t.store) (find home t.store k) (t.last k)
  flat : t.store.layout = .flat → ∀ k b, t.last k = some b → b.moved = false

variable {r : BlobStore}

section Steps

variable {t u : Traced}

theorem inv_create (layout : BlobLayout) : Inv home (create layout) := by
  refine ⟨healthy_create layout, fun k => ?_, fun _ _ _ hb => nomatch hb⟩
  have hnone : find home (create layout).store k = none := by
    cases hp : find home (create layout).store k with
    | none => rfl
    | some p =>
      obtain ⟨i, hi⟩ := (healthy_create layout).find_eq_some_iff.mp hp
      exact absurd (List.eq_of_mem_replicate (List.mem_of_getElem? hi)) (by simp)
  rw [hnone]
  exact .none

private theorem rel_imp {α β : Type*} {R R' : α → β → Prop} {a : Option α} {b : Option β}
    (h : Option.Rel R a b) (himp : ∀ x y, a = some x → b = some y → R x y → R' x y) :
    Option.Rel R' a b := by
  cases h with
  | none => exact .none
  | some hxy => exact .some (himp _ _ rfl rfl hxy)

/-- A blob is read as before where the value file is as before. -/
theorem Holds.congr {b : LastSet} (h : Holds s p b)
    (hp : IntactBelow s.layout s.vals s.valueWritePos p) (hlayout : r.layout = s.layout)
    (hvals : r.vals.take s.valueWritePos = s.vals.take s.valueWritePos) : Holds r p b := by
  obtain ⟨howned, hbytes⟩ := h
  refine ⟨?_, fun hb => ?_⟩
  · rw [hlayout, (hp.congr hvals.symm).2, howned]
  · rw [readAt_congr hvals (show p.offset + p.len ≤ s.valueWritePos from hp.1), hbytes hb]

/-- Steps that keep the pairs and the bytes keep what the store holds. -/
theorem Inv.congr (h : Inv home t) (hr : Healthy home r)
    (hfind : ∀ k, find home r k = find home t.store k) (hlayout : r.layout = t.store.layout)
    (hvals : r.vals.take t.store.valueWritePos = t.store.vals.take t.store.valueWritePos) :
    Inv home { t with store := r } := by
  refine ⟨hr, fun k => ?_, fun hflat => h.flat (hlayout ▸ hflat)⟩
  simp only
  rw [hfind]
  refine rel_imp (h.holds k) fun p b hp _ hold => ?_
  exact hold.congr (h.healthy.intact k p (h.healthy.find_eq_some_iff.mp hp)) hlayout hvals

theorem intactBelow_of_appended (hp : appended s p = true) :
    IntactBelow s.layout s.vals s.valueWritePos p := by
  rw [appended, Option.isSome_iff_exists] at hp
  obtain ⟨last, hlast⟩ := hp
  obtain ⟨hintact, hle⟩ := intactBelow_of_ownedEnd hlast
  rw [List.length_take] at hle
  refine ((hintact.mono (show last ≤ s.valueWritePos by omega)).congr ?_).1
  rw [List.take_take, min_self]

theorem inv_setSlot (h : Inv home t) (hp : appended t.store p = true) (key : ℕ) :
    Inv home
      { store := setSlot home t.store key p
        last := update t.last key
          (some ⟨readAt t.store.vals p.offset p.len,
            BlobStore.owned t.store.layout t.store.vals p, false⟩) } := by
  obtain ⟨hhealthy, hfind⟩ := h.healthy.setSlot (intactBelow_of_appended hp) key
  have hfiles : (setSlot home t.store key p).layout = t.store.layout ∧
      (setSlot home t.store key p).vals = t.store.vals := by
    rw [setSlot, makeRoom]
    split_ifs <;> exact ⟨rfl, rfl⟩
  refine ⟨hhealthy, fun k => ?_, fun hflat k b hb => ?_⟩
  rotate_left
  · simp only [update_apply] at hb
    split_ifs at hb
    · exact Option.some.inj hb ▸ rfl
    · exact h.flat (hfiles.1 ▸ hflat) k b hb
  simp only
  rw [hfind]
  by_cases hk : k = key
  · subst hk
    rw [if_pos rfl, update_self]
    refine .some ⟨?_, fun _ => ?_⟩
    · rw [hfiles.1, hfiles.2]
    · rw [hfiles.2]
  · rw [if_neg hk, update_of_ne hk]
    refine rel_imp (h.holds k) fun q b hq _ hold => ?_
    exact hold.congr (h.healthy.intact k q (h.healthy.find_eq_some_iff.mp hq)) hfiles.1
      (by rw [hfiles.2])

theorem inv_removeKey (h : Inv home t) (key : ℕ) :
    Inv home { store := removeKey home t.store key, last := update t.last key none } := by
  obtain ⟨hhealthy, hfind⟩ := h.healthy.removeKey key
  have hfiles : (removeKey home t.store key).layout = t.store.layout ∧
      (removeKey home t.store key).vals = t.store.vals := by
    rw [removeKey]
    split_ifs <;> exact ⟨rfl, rfl⟩
  refine ⟨hhealthy, fun k => ?_, fun hflat k b hb => ?_⟩
  rotate_left
  · simp only [update_apply] at hb
    split_ifs at hb
    exact h.flat (hfiles.1 ▸ hflat) k b hb
  simp only
  rw [hfind]
  by_cases hk : k = key
  · subst hk
    rw [if_pos rfl, update_self]
    exact .none
  · rw [if_neg hk, update_of_ne hk]
    refine rel_imp (h.holds k) fun q b hq _ hold => ?_
    exact hold.congr (h.healthy.intact k q (h.healthy.find_eq_some_iff.mp hq)) hfiles.1
      (by rw [hfiles.2])

/-- Compaction keeps what each key holds; in the flat layout that is its bytes. -/
theorem inv_compact (h : Inv home t) (hfile : (compact home t.store).valueWritePos ≤ isizeMax) :
    Inv home
      { store := compact home t.store
        last := fun k => (t.last k).map fun b =>
          { b with moved := b.moved || decide (t.store.layout = .directory) } } := by
  obtain ⟨hhealthy, hrel⟩ := h.healthy.compact hfile
  refine ⟨hhealthy, fun k => ?_, fun hflat k b hb => ?_⟩
  rotate_left
  · obtain ⟨c, hc, rfl⟩ := Option.map_eq_some_iff.mp hb
    have hflat' : t.store.layout = .flat := hflat
    simp only [h.flat hflat' k c hc, hflat', Bool.false_or, decide_eq_false_iff_not]
    decide
  have hnew := hrel k
  have hold := h.holds k
  simp only
  generalize find home (compact home t.store) k = after at hnew ⊢
  generalize find home t.store k = before at hnew hold
  generalize t.last k = last at hold ⊢
  cases hnew with
  | none =>
    cases hold
    exact .none
  | some howned =>
    cases hold with
    | some hold =>
      obtain ⟨howned', hbytes⟩ := hold
      refine .some ⟨howned.trans howned', fun hmoved => ?_⟩
      obtain ⟨hb, hflat⟩ := Bool.or_eq_false_iff.mp hmoved
      cases hlayout : t.store.layout with
      | flat =>
        rw [hlayout] at howned
        simp only [BlobStore.owned, Option.some.injEq, List.cons.injEq, Prod.mk.injEq, true_and,
          and_true] at howned
        exact howned.trans (hbytes hb)
      | directory =>
        rw [hlayout] at hflat
        cases hflat

/-- **One step** keeps the invariant. -/
theorem inv_step (h : Inv home t) {op : Op} (hs : step home t op = some u) : Inv home u := by
  cases op with
  | append blob =>
    obtain ⟨⟨r, q⟩, happend, rfl⟩ := Option.map_eq_some_iff.mp hs
    obtain ⟨hhealthy, hslots, hlayout, hvals, -⟩ := h.healthy.appendValue happend
    exact h.congr hhealthy (fun k => by rw [find, find, hslots]) hlayout hvals
  | setSlot key p =>
    obtain ⟨hp, rfl⟩ := Option.ite_some_none_eq_some.mp hs
    exact inv_setSlot h hp key
  | removeKey key =>
    obtain rfl := Option.some.inj hs
    exact inv_removeKey h key
  | rehash =>
    obtain rfl := Option.some.inj hs
    obtain ⟨hhealthy, hhas⟩ := h.healthy.rehash
    exact h.congr hhealthy (h.healthy.find_congr hhealthy hhas) rfl rfl
  | compact =>
    obtain ⟨hfile, rfl⟩ := Option.ite_some_none_eq_some.mp hs
    exact inv_compact h hfile
  | reopen =>
    obtain rfl := Option.some.inj hs
    obtain ⟨hslots, -, hhealthy⟩ := h.healthy.reopen
    exact h.congr hhealthy (fun k => by rw [find, find, hslots]) rfl rfl

theorem inv_run {layout : BlobLayout} {ops : List Op}
    (h : StepRun.run (step home) (create layout) ops = some t) : Inv home t :=
  StepRun.invariant (fun _ _ _ hinv hs => inv_step hinv hs) (inv_create layout) h

end Steps

/-! ### Main result -/

/-- The cells of a table being built are empty somewhere, so that placing the next pair ends. -/
def CanPlace (home : ℕ → ℕ) (n : ℕ) (placed : List (ℕ × Place)) : Prop :=
  ∃ i < n, ((rebuild home n placed).getD i .empty).isEmpty = true

/-- **The store is a map** of what was last set. -/
structure MapRefined (home : ℕ → ℕ) (t : Traced) : Prop where
  /-- A key that is set has a blob that holds what was last set for it, and unless compaction has
  moved it, with the same bytes; a key that is not set has none. -/
  read : ∀ k, Option.Rel (fun bytes b =>
    contents t.store.layout t.store.vals bytes = b.owned ∧ (b.moved = false → bytes = b.bytes))
    (getRef home t.store k) (t.last k)
  /-- Only directories are moved. -/
  flat : t.store.layout = .flat → ∀ k b, t.last k = some b → b.moved = false
  keys_nodup : t.store.keys.Nodup
  mem_keys : ∀ k, k ∈ t.store.keys ↔ (t.last k).isSome = true
  once : ∀ i j k, LiveAt t.store.slots i k → LiveAt t.store.slots j k → i = j
  room : ∃ i < t.store.slots.length, (t.store.slots.getD i .empty).isEmpty = true
  /-- Rebuilding for a rehash or a compaction finds room for every live slot. -/
  rebuild_room : ∀ n, t.store.slots.length ≤ n → ∀ placed : List (ℕ × Place),
    placed.map Prod.fst <+: (entries t.store.slots).map Prod.fst → CanPlace home n placed
  /-- A blob is appended behind what the live slots own. -/
  fresh : ∀ blob s q, appendValue t.store blob = some (s, q) → ∀ k p, Has t.store.slots k p →
    p.stop ≤ q.offset ∧ ∀ es, t.store.dirEntries p = some es →
      ∀ e ∈ es, e.offset + e.len ≤ q.offset

/-- What a slot owns is what its bytes hold. -/
theorem owned_eq_contents (layout : BlobLayout) (vals : List UInt8) (p : Place) :
    BlobStore.owned layout vals p = contents layout vals (readAt vals p.offset p.len) := by
  cases layout <;> rfl

namespace Healthy

variable (h : Healthy home s)

include h

theorem canPlace {n : ℕ} (hn : s.slots.length ≤ n) {placed : List (ℕ × Place)}
    (hplaced : placed.map Prod.fst <+: (entries s.slots).map Prod.fst) : CanPlace home n placed := by
  have hlen := hplaced.length_le
  rw [List.length_map, List.length_map, length_entries] at hlen
  have hlt := (live_le_used s.slots).trans_lt h.used_lt
  obtain ⟨-, hused, -, hlength, -⟩ : Sound home (rebuild home n placed) ∧ _ :=
    rebuild_spec (hplaced.sublist.nodup h.nodup_keys) (by omega)
  obtain ⟨i, hi, hempty⟩ := exists_empty (t := rebuild home n placed) (by omega)
  exact ⟨i, hlength ▸ hi, hempty⟩

theorem fresh {blob : List UInt8} (happend : BlobTable.appendValue s blob = some (r, q))
    (hp : Has s.slots k p) : p.stop ≤ q.offset ∧ ∀ es, s.dirEntries p = some es →
      ∀ e ∈ es, e.offset + e.len ≤ q.offset := by
  obtain ⟨-, -, -, -, hle, -⟩ := h.appendValue happend
  obtain ⟨hstop, hdir⟩ := h.intact k p hp
  refine ⟨hstop.trans hle, fun es hes e he => ?_⟩
  rw [dirEntries.eq_def] at hes
  cases hlayout : s.layout with
  | flat =>
    rw [hlayout] at hes
    cases hes
  | directory =>
    obtain ⟨entries, hdecode, hentries⟩ := hdir hlayout
    rw [hlayout] at hes
    simp only [valueSlice, if_pos (hstop.trans h.pos_le), Option.bind_some, hdecode,
      Except.toOption, Option.some.injEq] at hes
    exact (hentries e (hes ▸ he)).trans hle

end Healthy

/-- **The blob store's table is a map.** After any run of appends, sets, removals, rehashes,
compactions and clean reopens, for any hash function: a key's blob is the last one set for it, but
that compaction writes directories anew; no key is listed or held twice; some slot is empty, so
that every search and every rebuild ends; a fresh blob lies behind all that live slots own. -/
theorem map_refined (home : ℕ → ℕ) (layout : BlobLayout) (ops : List Op) (t : Traced)
    (h : StepRun.run (step home) (create layout) ops = some t) : MapRefined home t := by
  have hinv := inv_run h
  have hhealthy := hinv.healthy
  have hread : ∀ k, Option.Rel (fun bytes b =>
      contents t.store.layout t.store.vals bytes = b.owned ∧ (b.moved = false → bytes = b.bytes))
      (getRef home t.store k) (t.last k) := fun k => by
    have hholds := hinv.holds k
    cases hp : find home t.store k with
    | none =>
      rw [hp] at hholds
      rw [getRef, hp]
      generalize t.last k = last at hholds
      cases hholds
      exact .none
    | some p =>
      rw [hp] at hholds
      rw [hhealthy.getRef_eq hp]
      generalize t.last k = last at hholds
      cases hholds with
      | some hholds =>
        exact .some ⟨(owned_eq_contents _ _ _).symm.trans hholds.1, hholds.2⟩
  exact
    { read := hread
      flat := hinv.flat
      keys_nodup := hhealthy.nodup_keys
      mem_keys := fun k => by
        rw [hhealthy.mem_keys]
        have hholds := hinv.holds k
        generalize find home t.store k = a at hholds
        generalize t.last k = b at hholds
        cases hholds <;> rfl
      once := hhealthy.sound.unique
      room := exists_empty hhealthy.used_lt
      rebuild_room := fun n hn placed => hhealthy.canPlace hn
      fresh := fun blob s q happend k p hp => hhealthy.fresh happend hp }

/-- A container, a directory that lists it, a compaction. -/
def directoryRun : List Op :=
  [.append [1], .append [2], .append (Storage.encodeDir [⟨5, 16, 1⟩]), .setSlot 7 ⟨32, 40⟩, .compact]

theorem map_refined_directory :
    MapRefined BlobStore.hashKey ((StepRun.run (step BlobStore.hashKey) (create .directory)
      directoryRun).get (by decide +kernel)) :=
  map_refined BlobStore.hashKey .directory directoryRun _ (Option.some_get _).symm

/-- In the directory layout compaction changes the bytes of a key's blob. -/
theorem compaction_rewrites_directory :
    ∃ t b bytes, StepRun.run (step BlobStore.hashKey) (create .directory) directoryRun = some t ∧
      t.last 7 = some b ∧ getRef BlobStore.hashKey t.store 7 = some bytes ∧ bytes ≠ b.bytes := by
  have hrun : ((StepRun.run (step BlobStore.hashKey) (create .directory) directoryRun).any fun t =>
      (t.last 7).any fun b => (getRef BlobStore.hashKey t.store 7).any fun bytes =>
        decide (bytes ≠ b.bytes)) = true := by decide +kernel
  obtain ⟨t, ht, hb⟩ := (Option.any_eq_true _ _).mp hrun
  obtain ⟨b, hb, hbytes⟩ := (Option.any_eq_true _ _).mp hb
  obtain ⟨bytes, hbytes, hne⟩ := (Option.any_eq_true _ _).mp hbytes
  exact ⟨t, b, bytes, ht, hb, hbytes, of_decide_eq_true hne⟩

end BlobTable

end Minnal
