import Minnal.Index.BlobTable

/-!
# The blob store's accounts

A store keeps three counters beside its table: the live slots and the tombstones in the header,
and in memory the dead bytes of the value file, those no live slot owns. Opening counts all three
anew, compaction resets them; every other call patches them.

The live slots are always counted right. The other two counters can be wrong (`exact_iff`). A new
key that is put into a tombstone's place is counted as live, but the tombstone is not taken off:
the **reused** tombstones stay counted until the table is next rebuilt or opened. And the bytes
that a spill has appended and then **abandoned** are counted dead only at the next open.
-/

set_option linter.dupNamespace false

namespace Minnal

open ByteCodec LinearProbe
open BlobStore (alignUp valueAlignment IntactBelow dirEntries readAt_congr valueSlice
  take_congr_of_le moveContainers le_alignUp appendAligned moveBlob moveBlob_dir readAt_of_isPrefix
  moveAll isPrefix_moveAll hashKey)
open Option (elim_some map_eq_some_iff elim_none bind_eq_some_iff bind_some map_some getD_some)
open List (map_cons length_append forall_mem_cons mem_filter sum_cons any_cons filter_congr)

variable {r : BlobStore × List (ℕ × Place)} {blob : List UInt8} {es : List DirEntry}
  {blobs : List (ℕ × List UInt8)} {op : Op}

namespace BlobAccounting

open BlobTable

/-- An open store with its count of dead bytes. -/
structure Accounted where
  store : BlobStore
  deadBytes : ℕ

/-- A new store. -/
def create (layout : BlobLayout) : Accounted := ⟨.create layout, 0⟩

/-! ### Measures -/

section Measures

variable (s : BlobStore)

/-- Bytes of the value file up to the write position. -/
def logicalBytes : ℕ := BlobStore.alignUp s.valueWritePos

/-- Bytes of containers. -/
def containerBytes (es : List DirEntry) : ℕ := (es.map fun e => BlobStore.alignUp e.len).sum

/-- Bytes a slot owns: its blob, and the containers its directory lists. -/
def ownedBytes (p : Place) : ℕ :=
  BlobStore.alignUp p.len + ((s.dirEntries p).map containerBytes).getD 0

/-- Bytes that live slots own. -/
def liveBytes : ℕ := weight (fun e => ownedBytes s e.2) s.slots

/-- Bytes that die when a slot is pointed elsewhere: its blob, and the containers that the new
directory does not list. -/
def orphaned (old new : Place) : ℕ :=
  BlobStore.alignUp old.len +
    match s.dirEntries old with
    | none => 0
    | some es =>
      let kept := ((s.dirEntries new).getD []).map DirEntry.offset
      containerBytes (es.filter fun e => !kept.contains e.offset)

end Measures

def saturatingAdd (a b : ℕ) : ℕ := min (a + b) (2 ^ 64 - 1)

/-! ### Calls -/

section Calls

variable (home : ℕ → ℕ)

/-- Point a key at a blob; what it owned and owns no more is dead. -/
def setSlot (a : Accounted) (key : ℕ) (p : Place) : Accounted :=
  let s := makeRoom home a.store
  { store := BlobTable.setSlot home a.store key p
    deadBytes :=
      match find home s key with
      | some old => saturatingAdd a.deadBytes (orphaned s old p)
      | none => a.deadBytes }

/-- Remove a key; what it owned is dead. -/
def removeKey (a : Accounted) (key : ℕ) : Accounted :=
  { store := BlobTable.removeKey home a.store key
    deadBytes :=
      match find home a.store key with
      | some old => saturatingAdd a.deadBytes (ownedBytes a.store old)
      | none => a.deadBytes }

/-- A clean close and an open, which counts the dead bytes. -/
def reopen (a : Accounted) : Accounted :=
  let s := BlobTable.reopen a.store
  ⟨s, logicalBytes s - liveBytes s⟩

/-! ### Spills -/

/-- The directory of a slot as stored. -/
def storedDir (s : BlobStore) (slot : ℕ) : List DirEntry :=
  ((find home s slot).bind s.dirEntries).getD []

/-- Append containers and enter them into a directory. -/
def appendContainers : List (ℕ × List UInt8) → BlobStore → List DirEntry →
    Option (BlobStore × List DirEntry)
  | [], s, es => some (s, es)
  | (key, bytes) :: rest, s, es =>
    (appendValue s bytes).bind fun r => appendContainers rest r.1
      (SortedMap.upsertBy DirEntry.key key (fun _ => ⟨key, r.2.offset, r.2.len⟩) es)

/-- What an overlay has for a slot: the containers that changed, in key order, with their new
bytes; none for one that emptied. -/
abbrev SlotChanges := List (ℕ × Option (List UInt8))

/-- A container with this key changed. -/
def SlotChanges.has (changes : SlotChanges) (key : ℕ) : Bool :=
  changes.any fun c => decide (c.1 = key)

/-- Stage a slot: append its changed containers, and a directory of all its containers. -/
def stageDir (s : BlobStore) (slot : ℕ) (changes : SlotChanges) : Option (BlobStore × Place) :=
  let entries := (storedDir home s slot).filter fun e =>
    !(changes.any fun c => decide (c.1 = e.key) && c.2.isNone)
  let blobs := changes.filterMap fun c => c.2.map fun bytes => (c.1, bytes)
  (appendContainers blobs s entries).bind fun r => appendValue r.1 (Storage.encodeDir r.2)

/-- Stage every slot, with no slot pointing at what is appended. -/
def stage {β : Type} (one : BlobStore → ℕ → β → Option (BlobStore × Place)) :
    List (ℕ × β) → BlobStore → Option (BlobStore × List (ℕ × Place))
  | [], s => some (s, [])
  | (slot, x) :: rest, s =>
    (one s slot x).bind fun r => (stage one rest r.1).map fun more => (more.1, (slot, r.2) :: more.2)

/-- Point the slots at what was staged, and remove those that emptied. -/
def commit (a : Accounted) (sets : List (ℕ × Place)) (removals : List ℕ) : Accounted :=
  removals.foldl (removeKey home) (sets.foldl (fun a e => setSlot home a e.1 e.2) a)

/-- What is done to a store. -/
inductive Op where
  /-- A spill of whole values, which is committed or given up. An append and a set are a spill of
  one value. -/
  | spillBlobs (blobs : List (ℕ × List UInt8)) (removals : List ℕ) (committed : Bool)
  /-- A spill of bitmaps. -/
  | spillDirs (changes : List (ℕ × SlotChanges)) (removals : List ℕ) (committed : Bool)
  | removeKey (key : ℕ)
  | rehash
  | compact
  | reopen

/-- The changes are an overlay's: containers have keys of 128 bits, in order, and their encoding
is never empty. -/
def wellFormed (changes : List (ℕ × SlotChanges)) : Bool :=
  decide (changes.map Prod.fst).Nodup && changes.all fun e =>
    decide (e.2.Pairwise fun a b => a.1 < b.1) &&
      e.2.all fun c => decide (c.1 < 2 ^ 128) && c.2 != some []

/-- The store with what a spill has appended, and what its commit sets. -/
def staged (s : BlobStore) : Op → Option (BlobStore × List (ℕ × Place))
  | .spillBlobs blobs _ _ =>
    if s.layout = .flat then stage (fun s _ blob => appendValue s blob) blobs s else none
  | .spillDirs changes _ _ =>
    if s.layout = .directory ∧ wellFormed changes = true then stage (stageDir home) changes s
    else none
  | _ => none

/-- The end of a spill. -/
def settle (a : Accounted) (r : BlobStore × List (ℕ × Place)) (removals : List ℕ)
    (committed : Bool) : Accounted :=
  if committed then commit home ⟨r.1, a.deadBytes⟩ r.2 removals else ⟨r.1, a.deadBytes⟩

/-- One call; none if it panics. -/
def step (a : Accounted) (op : Op) : Option Accounted :=
  match op with
  | .spillBlobs _ removals committed =>
    (staged home a.store op).map fun r => settle home a r removals committed
  | .spillDirs _ removals committed =>
    (staged home a.store op).map fun r => settle home a r removals committed
  | .removeKey key => some (removeKey home a key)
  | .rehash => some { a with store := rehash home a.store }
  | .compact =>
    if (compact home a.store).valueWritePos ≤ isizeMax then some ⟨compact home a.store, 0⟩
    else none
  | .reopen => some (reopen a)

end Calls

/-! ### What the counters miss -/

/-- Tombstones reused since the table was last built, and bytes abandoned since the value file
was. -/
structure Tally where
  reused : ℕ
  abandoned : ℕ
  deriving DecidableEq

section Tallies

variable (home : ℕ → ℕ)

/-- The key would be put into a tombstone's place. -/
def reuses (s : BlobStore) (key : ℕ) : Bool :=
  let s := makeRoom home s
  (s.slots.getD (probe home s.slots key).1 .empty).isDead

/-- Tombstones reused, after setting a slot. -/
def reusedAfterSet (s : BlobStore) (key reused : ℕ) : ℕ :=
  (if s.needsRehash then 0 else reused) + if reuses home s key then 1 else 0

/-- Tombstones reused, after setting slots one after another. -/
def reusedAfterSets : List (ℕ × Place) → BlobStore → ℕ → ℕ
  | [], _, reused => reused
  | e :: rest, s, reused =>
    reusedAfterSets rest (BlobTable.setSlot home s e.1 e.2) (reusedAfterSet home s e.1 reused)

/-- The tally after the end of a spill. -/
def settleTally (a : Accounted) (r : BlobStore × List (ℕ × Place)) (committed : Bool)
    (t : Tally) : Tally :=
  if committed then { t with reused := reusedAfterSets home r.2 r.1 t.reused }
  else { t with abandoned := t.abandoned + (logicalBytes r.1 - logicalBytes a.store) }

/-- The tally after a call. -/
def tallyAfter (a : Accounted) (op : Op) (t : Tally) : Tally :=
  match op with
  | .spillBlobs _ _ committed =>
    (staged home a.store op).elim t fun r => settleTally home a r committed t
  | .spillDirs _ _ committed =>
    (staged home a.store op).elim t fun r => settleTally home a r committed t
  | .removeKey _ => t
  | .rehash => { t with reused := 0 }
  | .compact => ⟨0, 0⟩
  | .reopen => ⟨0, 0⟩

end Tallies

/-! ### The invariant -/

variable {home : ℕ → ℕ} {s t : BlobStore} {a b : Accounted} {slot key n m : ℕ} {p q old : Place}
  {tally : Tally}

/-- The containers a slot's directory lists are in different places. -/
def Separate (s : BlobStore) (p : Place) : Prop :=
  ∀ es, s.dirEntries p = some es →
    (∀ e ∈ es, 0 < e.len) ∧ es.Pairwise fun e f => e.offset ≠ f.offset

/-- A table in order, whose directories list containers in different places. -/
structure Good (home : ℕ → ℕ) (s : BlobStore) : Prop where
  healthy : Healthy home s
  separate : ∀ k p, Has s.slots k p → Separate s p
  small : s.valueWritePos ≤ isizeMax

/-- **The invariant**: the header counts too many tombstones by those that were reused; the dead
bytes, the abandoned ones, those of live slots and `pending` ones, which a spill has staged, make
up the value file. -/
structure Balanced (home : ℕ → ℕ) (a : Accounted) (tally : Tally) (pending : ℕ) : Prop where
  good : Good home a.store
  tombs : a.store.tombstoneCount = a.store.slots.countP Cell.isDead + tally.reused
  bytes : a.deadBytes + tally.abandoned + liveBytes a.store + pending = logicalBytes a.store

theorem balanced_create (layout : BlobLayout) : Balanced home (create layout) ⟨0, 0⟩ 0 := by
  have hnone : ∀ k p, ¬ Has (create layout).store.slots k p := by
    rintro k p ⟨i, hi⟩
    exact absurd (List.eq_of_mem_replicate (List.mem_of_getElem? hi)) (by simp)
  refine ⟨⟨healthy_create layout, fun k p hp => absurd hp (hnone k p), Nat.zero_le _⟩, rfl, ?_⟩
  cases layout <;> rfl

/-! ### Measures of unchanged bytes -/

theorem alignUp_add (m n : ℕ) : alignUp (alignUp m + n) =
    alignUp m + alignUp n := by
  simp only [alignUp, valueAlignment]
  omega

theorem dirEntries_congr (h : Healthy home s) (ht : t.valueWritePos ≤ t.vals.length)
    (hp : IntactBelow s.layout s.vals s.valueWritePos p) (hlayout : t.layout = s.layout)
    (hvals : t.vals.take s.valueWritePos = s.vals.take s.valueWritePos)
    (hpos : s.valueWritePos ≤ t.valueWritePos) : t.dirEntries p = s.dirEntries p := by
  rw [BlobStore.dirEntries.eq_def, BlobStore.dirEntries.eq_def, hlayout]
  cases s.layout with
  | flat => rfl
  | directory =>
    have hstop : p.offset + p.len ≤ s.valueWritePos := hp.1
    have hs : s.valueSlice p = some (readAt s.vals p.offset p.len) :=
      if_pos (hp.1.trans h.pos_le)
    have ht : t.valueSlice p = some (readAt t.vals p.offset p.len) :=
      if_pos ((hp.1.trans hpos).trans ht)
    simp only
    rw [hs, ht, readAt_congr hvals hstop]

/-- A store with the same files measures the same. -/
theorem dirEntries_eq (hlayout : t.layout = s.layout) (hvals : t.vals = s.vals) :
    t.dirEntries = s.dirEntries := by
  funext p
  rw [BlobStore.dirEntries.eq_def, BlobStore.dirEntries.eq_def, valueSlice,
    valueSlice, hlayout, hvals]

theorem ownedBytes_eq (h : t.dirEntries = s.dirEntries) : ownedBytes t = ownedBytes s := by
  funext p
  rw [ownedBytes, ownedBytes, h]

theorem orphaned_eq (h : t.dirEntries = s.dirEntries) : orphaned t = orphaned s := by
  funext p q
  rw [orphaned, orphaned, h]

/-- In the flat layout a slot owns its blob, all of which dies. -/
theorem flat_bytes (hflat : s.layout = .flat) (p q : Place) :
    ownedBytes s p = alignUp p.len ∧ orphaned s p q = alignUp p.len := by
  have hnone : s.dirEntries p = none := by rw [BlobStore.dirEntries.eq_def, hflat]
  rw [ownedBytes, orphaned, hnone]
  exact ⟨rfl, rfl⟩

/-! ### Appending -/

/-- Appends alone lead from one store to another. -/
structure Extends (s t : BlobStore) : Prop where
  slots : t.slots = s.slots
  layout : t.layout = s.layout
  tombs : t.tombstoneCount = s.tombstoneCount
  vals : t.vals.take s.valueWritePos = s.vals.take s.valueWritePos
  pos : s.valueWritePos ≤ t.valueWritePos

theorem Extends.refl (s : BlobStore) : Extends s s := ⟨rfl, rfl, rfl, rfl, le_rfl⟩

theorem Extends.trans {r : BlobStore} (h : Extends s t) (h' : Extends t r) : Extends s r where
  slots := h'.slots.trans h.slots
  layout := h'.layout.trans h.layout
  tombs := h'.tombs.trans h.tombs
  vals := (take_congr_of_le h'.vals h.pos).trans h.vals
  pos := h.pos.trans h'.pos

theorem extends_appendValue (h : Healthy home s) (happend : appendValue s blob = some (t, q)) :
    Extends s t ∧ Healthy home t ∧
      t.valueWritePos ≤ isizeMax ∧
      logicalBytes t = logicalBytes s + alignUp blob.length ∧
      s.valueWritePos ≤ q.offset ∧ q.stop = t.valueWritePos ∧ q.len = blob.length ∧
      blob.length < 2 ^ 32 ∧ readAt t.vals q.offset q.len = blob := by
  obtain ⟨hhealthy, hslots, hlayout, hvals, hle, hstop, hread⟩ := h.appendValue happend
  obtain ⟨⟨hlen, hmax⟩, heq⟩ := Option.ite_none_right_eq_some.mp happend
  obtain ⟨rfl, rfl⟩ := Prod.ext_iff.mp (Option.some.inj heq)
  refine ⟨⟨hslots, hlayout, rfl, hvals, ?_⟩, hhealthy, hmax, ?_, hle, hstop, rfl, hlen, hread⟩
  · rw [← hstop, Place.stop]
    omega
  · exact alignUp_add s.valueWritePos blob.length

/-- What is intact stays so, and measures the same. -/
theorem Extends.kept (h : Extends s t) (hs : Healthy home s) (ht : Healthy home t)
    (hp : IntactBelow s.layout s.vals s.valueWritePos p) :
    IntactBelow t.layout t.vals t.valueWritePos p ∧ t.dirEntries p = s.dirEntries p := by
  refine ⟨?_, dirEntries_congr hs ht.pos_le hp h.layout h.vals h.pos⟩
  rw [h.layout]
  exact (hp.congr h.vals.symm).1.mono h.pos

theorem Extends.good (h : Extends s t) (hs : Good home s) (ht : Healthy home t)
    (hsmall : t.valueWritePos ≤ isizeMax) : Good home t := by
  refine ⟨ht, fun k p hp es hes => ?_, hsmall⟩
  rw [h.slots] at hp
  rw [(h.kept hs.healthy ht (hs.healthy.intact k p hp)).2] at hes
  exact hs.separate k p hp es hes

theorem Extends.liveBytes (h : Extends s t) (hs : Healthy home s) (ht : Healthy home t) :
    liveBytes t = liveBytes s := by
  rw [BlobAccounting.liveBytes, BlobAccounting.liveBytes, h.slots]
  refine weight_congr fun e he => ?_
  rw [ownedBytes, ownedBytes, (h.kept hs ht (hs.intact e.1 e.2 (mem_entries.mp he))).2]

/-! ### Staged blobs -/

/-- A staged blob of which `n` bytes are new: what the slot will own and what it will orphan is
what it owns and what is new. -/
structure Ready (home : ℕ → ℕ) (s : BlobStore) (slot : ℕ) (p : Place) (n : ℕ) : Prop where
  intact : BlobStore.IntactBelow s.layout s.vals s.valueWritePos p
  separate : Separate s p
  bytes : ownedBytes s p + ((find home s slot).elim 0 fun old => orphaned s old p) =
    (find home s slot).elim 0 (ownedBytes s) + n

/-- Blobs that are staged for slots, of so many new bytes. -/
def Pending (home : ℕ → ℕ) (s : BlobStore) : List (ℕ × Place) → ℕ → Prop
  | [], m => m = 0
  | e :: rest, m => ∃ n k, m = n + k ∧ Ready home s e.1 e.2 n ∧ Pending home s rest k

theorem Ready.extends (h : Ready home s slot p n) (hext : Extends s t) (hs : Healthy home s)
    (ht : Healthy home t) : Ready home t slot p n := by
  obtain ⟨hintact, hsame⟩ := hext.kept hs ht h.intact
  have hfind : find home t slot = find home s slot := by rw [find, find, hext.slots]
  have hbytes := h.bytes
  refine ⟨hintact, fun es hes => h.separate es (hsame ▸ hes), ?_⟩
  rw [hfind]
  cases hold : find home s slot with
  | none =>
    rw [hold] at hbytes
    simpa only [elim_none, ownedBytes, hsame] using hbytes
  | some old =>
    rw [hold] at hbytes
    have hold' := (hext.kept hs ht (hs.intact slot old (hs.find_eq_some_iff.mp hold))).2
    simpa only [elim_some, ownedBytes, orphaned, hsame, hold'] using hbytes

/-- A slot that is staged well. -/
def StagedWell (home : ℕ → ℕ) (s : BlobStore) (slot : ℕ) (r : BlobStore × Place) : Prop :=
  Extends s r.1 ∧ Healthy home r.1 ∧ r.1.valueWritePos ≤ isizeMax ∧
    ∃ n, logicalBytes r.1 = logicalBytes s + n ∧ Ready home r.1 slot r.2 n

/-- **Staging** slots one after another. -/
theorem stage_spec {β : Type} {one : BlobStore → ℕ → β → Option (BlobStore × Place)}
    {xs : List (ℕ × β)} {layout : BlobLayout}
    (hone : ∀ e ∈ xs, ∀ s r, s.layout = layout → Good home s → one s e.1 e.2 = some r →
      StagedWell home s e.1 r) (hlayout : s.layout = layout) (hs : Good home s)
    (h : stage one xs s = some r) : Extends s r.1 ∧ Good home r.1 ∧
      r.2.map Prod.fst = xs.map Prod.fst ∧
      ∃ m, logicalBytes r.1 = logicalBytes s + m ∧ Pending home r.1 r.2 m := by
  induction xs generalizing s r with
  | nil =>
    obtain rfl := Option.some.inj h
    exact ⟨Extends.refl s, hs, rfl, 0, rfl, rfl⟩
  | cons e xs ih =>
    obtain ⟨first, hfirst, hrest⟩ := bind_eq_some_iff.mp h
    obtain ⟨more, hmore, rfl⟩ := map_eq_some_iff.mp hrest
    obtain ⟨hext, hhealthy, hsmall, n, hn, hready⟩ := hone e List.mem_cons_self s first hlayout hs hfirst
    have hgood := hext.good hs hhealthy hsmall
    obtain ⟨hext', hgood', hslots, m, hm, hpending⟩ :=
      ih (fun e he => hone e (List.mem_cons_of_mem _ he)) (hext.layout.trans hlayout) hgood hmore
    refine ⟨hext.trans hext', hgood', ?_, n + m, ?_, n, m, rfl,
      hready.extends hext' hhealthy hgood'.healthy, hpending⟩
    · rw [map_cons, map_cons, hslots]
    · simp only
      omega

/-- A whole value is staged by appending it. -/
theorem stagedWell_blob {r : BlobStore × Place} (hflat : s.layout = .flat) (hs : Good home s)
    (h : appendValue s blob = some r) : StagedWell home s slot r := by
  obtain ⟨hext, hhealthy, hsmall, hlogical, hle, hstop, hlen, -, -⟩ :=
    extends_appendValue hs.healthy h
  have hflat' : r.1.layout = .flat := hext.layout.trans hflat
  refine ⟨hext, hhealthy, hsmall, _, hlogical, ?_⟩
  refine ⟨⟨hstop.le, fun hdir => by rw [hflat'] at hdir; cases hdir⟩, fun es hes => ?_, ?_⟩
  · rw [BlobStore.dirEntries.eq_def, hflat'] at hes
    cases hes
  · rw [(flat_bytes hflat' r.2 r.2).1, hlen]
    cases find home r.1 slot with
    | none => exact Nat.add_comm _ _
    | some old =>
      simp only [elim_some, (flat_bytes hflat' old r.2).1, (flat_bytes hflat' old r.2).2]
      omega

/-! ### Staging a directory -/

variable {es' : List DirEntry}

theorem containerBytes_perm (h : es.Perm es') :
    containerBytes es = containerBytes es' := (h.map _).sum_nat

theorem containerBytes_append (es es' : List DirEntry) :
    containerBytes (es ++ es') = containerBytes es + containerBytes es' := by
  rw [containerBytes, List.map_append, List.sum_append]
  rfl

theorem containerBytes_filter (es : List DirEntry) (keep : DirEntry → Bool) :
    containerBytes es =
      containerBytes (es.filter keep) + containerBytes (es.filter fun e => !keep e) := by
  have hperm : (es.filter keep ++ es.filter fun e => !keep e).Perm es := List.filter_append_perm _ _
  rw [← containerBytes_append, containerBytes_perm hperm]

/-- A container that has been entered in a directory since the write position was `pos`. -/
structure Fresh (pos limit : ℕ) (e : DirEntry) : Prop where
  after : pos ≤ e.offset
  nonempty : 0 < e.len
  inside : e.offset + e.len ≤ limit
  short : e.len < 2 ^ 32
  key : e.key < 2 ^ 128

/-- **Appending containers** enters them in the place of those with their keys. -/
theorem appendContainers_spec {r : BlobStore × List DirEntry} (hs : Healthy home s)
    (hsmall : s.valueWritePos ≤ isizeMax) (hblobs : ∀ c ∈ blobs, c.1 < 2 ^ 128 ∧ c.2 ≠ [])
    (hkeys : blobs.Pairwise fun a b => a.1 < b.1) (hes : SortedMap.Ascending DirEntry.key es)
    (h : appendContainers blobs s es = some r) :
    Extends s r.1 ∧ Healthy home r.1 ∧ r.1.valueWritePos ≤ isizeMax ∧
      SortedMap.Ascending DirEntry.key r.2 ∧
      ∃ fresh, r.2.Perm (fresh ++ es.filter fun e => !(blobs.any fun c => decide (c.1 = e.key))) ∧
        (∀ e ∈ fresh, Fresh s.valueWritePos r.1.valueWritePos e) ∧
        (fresh.Pairwise fun e f => e.offset ≠ f.offset) ∧
        logicalBytes r.1 = logicalBytes s + containerBytes fresh := by
  induction blobs generalizing s es with
  | nil =>
    obtain rfl := Option.some.inj h
    refine ⟨Extends.refl s, hs, hsmall, hes, [], ?_, by simp, .nil, rfl⟩
    simp
  | cons c blobs ih =>
    obtain ⟨key, bytes⟩ := c
    obtain ⟨first, hfirst, hrest⟩ := bind_eq_some_iff.mp h
    obtain ⟨⟨hkey, hbytes⟩, hblobs⟩ := forall_mem_cons.mp hblobs
    obtain ⟨hlt, hkeys⟩ := List.pairwise_cons.mp hkeys
    obtain ⟨hext, hhealthy, hsmall', hlogical, hle, hstop, hlen, hshort, -⟩ :=
      extends_appendValue hs hfirst
    have hkeeps : SortedMap.KeepsKey DirEntry.key key
      (fun _ => (⟨key, first.2.offset, first.2.len⟩ : DirEntry)) := fun _ _ => rfl
    have hperm := SortedMap.upsertBy_perm hkeeps hes
    obtain ⟨hext', hhealthy', hsmall'', hasc, fresh, hfresh, hafter, hplaces, hlogical'⟩ :=
      ih hhealthy hsmall' hblobs hkeys (hes.upsertBy hkeeps) hrest
    refine ⟨hext.trans hext', hhealthy', hsmall'', hasc,
      ⟨key, first.2.offset, first.2.len⟩ :: fresh, ?_, ?_, ?_, ?_⟩
    · -- the entry just made has none of the later keys
      have hnone : (blobs.any fun c => decide (c.1 = key)) = false := by
        rw [List.any_eq_false]
        exact fun c hc => by simpa using (hlt c hc).ne'
      refine hfresh.trans ?_
      have hfilter := hperm.filter fun e => !(blobs.any fun c => decide (c.1 = e.key))
      rw [List.filter_cons_of_pos (by simpa using hnone), List.filter_filter] at hfilter
      refine (hfilter.append_left fresh).trans (List.perm_middle.trans ?_)
      refine List.Perm.cons _ (List.Perm.append_left fresh (List.Perm.of_eq ?_))
      refine filter_congr fun e _ => ?_
      rw [any_cons, Bool.not_or, Bool.and_comm]
      congr 1
      rw [← decide_not]
      exact decide_eq_decide.mpr ne_comm
    · refine forall_mem_cons.mpr ⟨⟨hle, ?_, ?_, ?_, hkey⟩, fun e he => ?_⟩
      · simp only
        rw [hlen]
        exact List.length_pos_iff.mpr hbytes
      · have := hext'.pos
        rw [← hstop] at this
        exact this
      · simp only
        omega
      · have he := hafter e he
        exact { he with after := hext.pos.trans he.after }
    · refine List.pairwise_cons.mpr ⟨fun e he => ?_, hplaces⟩
      have hafter' := (hafter e he).after
      rw [← hstop, Place.stop, hlen] at hafter'
      have hpos : 0 < bytes.length := List.length_pos_iff.mpr hbytes
      exact fun heq : first.2.offset = e.offset => by omega
    · rw [hlogical', hlogical, ← hlen]
      simp only [containerBytes, map_cons, sum_cons]
      omega

/-- A directory as it is stored: in order, of containers that lie apart below the write
position. -/
structure Stored (s : BlobStore) (es : List DirEntry) : Prop where
  ascending : SortedMap.Ascending DirEntry.key es
  fits : ∀ e ∈ es, e.Fits
  inside : ∀ e ∈ es, e.offset + e.len ≤ s.valueWritePos
  nonempty : ∀ e ∈ es, 0 < e.len
  apart : es.Pairwise fun e f => e.offset ≠ f.offset

theorem stored_storedDir (hs : Good home s) (hdir : s.layout = .directory) (slot : ℕ) :
    Stored s (storedDir home s slot) ∧ (find home s slot = none → storedDir home s slot = []) ∧
      ∀ old, find home s slot = some old → s.dirEntries old = some (storedDir home s slot) := by
  cases hfind : find home s slot with
  | none =>
    have hnil : storedDir home s slot = [] := by rw [storedDir, hfind]; rfl
    rw [hnil]
    exact ⟨⟨SortedMap.ascending_nil, by simp, by simp, by simp, .nil⟩, fun _ => rfl, by simp⟩
  | some old =>
    have hhas := hs.healthy.find_eq_some_iff.mp hfind
    obtain ⟨hstop, hentries⟩ := hs.healthy.intact slot old hhas
    obtain ⟨es, hdecode, hinside⟩ := hentries hdir
    have hsome : s.dirEntries old = some es := by
      rw [BlobStore.dirEntries.eq_def, hdir]
      simp only
      rw [valueSlice, if_pos (hstop.trans hs.healthy.pos_le), bind_some, hdecode]
      rfl
    have hstored : storedDir home s slot = es := by
      rw [storedDir, hfind, bind_some, hsome]
      rfl
    obtain ⟨hsorted, hfits, -⟩ := Storage.decodeDir_ok hdecode
    obtain ⟨hnonempty, hapart⟩ := hs.separate slot old hhas es hsome
    rw [hstored]
    refine ⟨⟨hsorted, hfits, hinside, hnonempty, hapart⟩, by simp, fun q hq => ?_⟩
    obtain rfl := Option.some.inj hq
    exact hsome

variable {fresh : List DirEntry} {limit : ℕ}

/-- What is entered and what is kept of a directory lie apart. -/
theorem Stored.apart_append (h : Stored s es) (hfresh : ∀ e ∈ fresh, Fresh s.valueWritePos limit e)
    (hplaces : fresh.Pairwise fun e f => e.offset ≠ f.offset) (keep : DirEntry → Bool) :
    (fresh ++ es.filter keep).Pairwise fun e f => e.offset ≠ f.offset := by
  refine List.pairwise_append.mpr ⟨hplaces, h.apart.sublist List.filter_sublist, fun e he f hf => ?_⟩
  have hafter := (hfresh e he).after
  have hin := h.inside f (mem_filter.mp hf).1
  have hpos := h.nonempty f (mem_filter.mp hf).1
  omega

/-- A container of the old directory is at a place the new one lists if it has been kept. -/
theorem Stored.contains_iff {keep : DirEntry → Bool} (h : Stored s es)
    (hfresh : ∀ e ∈ fresh, Fresh s.valueWritePos limit e)
    (hperm : es'.Perm (fresh ++ es.filter keep)) {e : DirEntry} (he : e ∈ es) :
    (es'.map DirEntry.offset).contains e.offset = keep e := by
  rw [Bool.eq_iff_iff, List.contains_iff_mem, List.mem_map]
  constructor
  · rintro ⟨f, hf, hoff⟩
    rcases List.mem_append.mp (hperm.mem_iff.mp hf) with hf | hf
    · have hafter := (hfresh f hf).after
      have hin := h.inside e he
      have hpos := h.nonempty e he
      omega
    · obtain ⟨hf, hkeep⟩ := mem_filter.mp hf
      have hnodup : (es.map DirEntry.offset).Nodup := List.pairwise_map.mpr h.apart
      exact List.inj_on_of_nodup_map hnodup hf he hoff ▸ hkeep
  · intro hkeep
    exact ⟨e, hperm.mem_iff.mpr (List.mem_append_right _ (mem_filter.mpr ⟨he, hkeep⟩)), rfl⟩

theorem filter_changes (es : List DirEntry) (changes : SlotChanges) :
    ((es.filter fun e => !(changes.any fun c => decide (c.1 = e.key) && c.2.isNone)).filter fun e =>
        !((changes.filterMap fun c => c.2.map fun bytes => (c.1, bytes)).any fun c =>
          decide (c.1 = e.key))) =
      es.filter fun e => !changes.has e.key := by
  rw [List.filter_filter]
  refine filter_congr fun e _ => ?_
  rw [← Bool.not_or]
  congr 1
  induction changes with
  | nil => rfl
  | cons c changes ih =>
    obtain ⟨key, o⟩ := c
    cases o with
    | none =>
      simp only [SlotChanges.has, List.filterMap_cons, Option.map_none, any_cons,
        Option.isNone_none, Bool.and_true] at ih ⊢
      rw [← ih, Bool.or_left_comm]
    | some bytes =>
      simp only [SlotChanges.has, List.filterMap_cons, map_some, any_cons,
        Option.isNone_some, Bool.and_false, Bool.false_or] at ih ⊢
      rw [← ih, Bool.or_assoc]

/-- **A directory is staged** by appending the changed containers and itself. -/
theorem stagedWell_dir {changes : SlotChanges} {r : BlobStore × Place}
    (hdir : s.layout = .directory) (hs : Good home s)
    (hsorted : changes.Pairwise fun a b => a.1 < b.1)
    (hfit : ∀ c ∈ changes, c.1 < 2 ^ 128 ∧ c.2 ≠ some [])
    (h : stageDir home s slot changes = some r) : StagedWell home s slot r := by
  obtain ⟨r₁, hcontainers, happend⟩ := bind_eq_some_iff.mp h
  obtain ⟨hstored, hnone, hsome⟩ := stored_storedDir hs hdir slot
  have hblobs : ∀ c ∈ changes.filterMap fun c => c.2.map fun bytes => (c.1, bytes),
      c.1 < 2 ^ 128 ∧ c.2 ≠ [] := by
    intro c hc
    obtain ⟨d, hd, hmap⟩ := List.mem_filterMap.mp hc
    obtain ⟨bytes, hbytes, rfl⟩ := map_eq_some_iff.mp hmap
    exact ⟨(hfit d hd).1, fun hnil => (hfit d hd).2 (hbytes.trans (congrArg some hnil))⟩
  have hkeys : (changes.filterMap fun c => c.2.map fun bytes => (c.1, bytes)).Pairwise
      fun a b => a.1 < b.1 := by
    refine List.Pairwise.filterMap _ (fun a a' hlt b hb b' hb' => ?_) hsorted
    obtain ⟨_, -, rfl⟩ := map_eq_some_iff.mp hb
    obtain ⟨_, -, rfl⟩ := map_eq_some_iff.mp hb'
    exact hlt
  obtain ⟨hext₁, hhealthy₁, hsmall₁, hasc, fresh, hperm, hfresh, hplaces, hlogical₁⟩ :=
    appendContainers_spec hs.healthy hs.small hblobs hkeys (hstored.ascending.filter _) hcontainers
  rw [filter_changes] at hperm
  generalize storedDir home s slot = es at hstored hnone hsome hperm
  generalize hes' : r₁.2 = es' at hasc hperm happend
  obtain ⟨hext₂, hhealthy, hsmall, hlogical, hle, hstop, hlen, hshort, hread⟩ :=
    extends_appendValue hhealthy₁ happend
  have hext := hext₁.trans hext₂
  have hdir' : r.1.layout = .directory := hext.layout.trans hdir
  have hin : ∀ e ∈ es', e.Fits ∧ e.offset + e.len ≤ r.1.valueWritePos ∧ 0 < e.len := by
    intro e he
    rcases List.mem_append.mp (hperm.mem_iff.mp he) with he | he
    · have hnew := hfresh e he
      have hend := hnew.inside
      have hmax : r₁.1.valueWritePos ≤ isizeMax := hsmall₁
      rw [isizeMax] at hmax
      exact ⟨⟨hnew.key, by omega, hnew.short⟩, hend.trans hext₂.pos, hnew.nonempty⟩
    · have he := (mem_filter.mp he).1
      exact ⟨hstored.fits e he, (hstored.inside e he).trans hext.pos, hstored.nonempty e he⟩
  have hcount : es'.length < 2 ^ 32 := by
    rw [Storage.encodeDir, length_append, Storage.length_dirBody] at hshort
    have hentry : Storage.dirEntry = 28 := rfl
    rw [hentry] at hshort
    omega
  have hdecode : Storage.decodeDir (readAt r.1.vals r.2.offset r.2.len) = .ok es' := by
    rw [hread]
    exact Storage.decodeDir_encodeDir (fun e he => (hin e he).1) hcount hasc
  have hentries : r.1.dirEntries r.2 = some es' := by
    rw [BlobStore.dirEntries.eq_def, hdir']
    simp only
    rw [valueSlice, if_pos (hstop.le.trans hhealthy.pos_le), bind_some, hdecode]
    rfl
  refine ⟨hext, hhealthy, hsmall, containerBytes fresh +
    alignUp (Storage.encodeDir es').length, ?_, ⟨hstop.le, fun _ => ⟨es', hdecode,
      fun e he => (hin e he).2.1⟩⟩, fun es₁ hes₁ => ?_, ?_⟩
  · rw [hlogical, hlogical₁]
    omega
  · obtain rfl := Option.some.inj (hentries.symm.trans hes₁)
    refine ⟨fun e he => (hin e he).2.2, ?_⟩
    exact (hperm.pairwise_iff fun hne => hne.symm).mpr (hstored.apart_append hfresh hplaces _)
  · have howned : ownedBytes r.1 r.2 = alignUp (Storage.encodeDir es').length +
        (containerBytes fresh + containerBytes (es.filter fun e => !changes.has e.key)) := by
      rw [ownedBytes, hentries, hlen, map_some, getD_some, containerBytes_perm hperm,
        containerBytes_append]
    have hfind : find home r.1 slot = find home s slot := by rw [find, find, hext.slots]
    rw [howned, hfind]
    cases hold : find home s slot with
    | none =>
      simp only [hnone hold, List.filter_nil, containerBytes, List.map_nil, List.sum_nil,
        elim_none]
      omega
    | some old =>
      have hkept : r.1.dirEntries old = some es := (hext.kept hs.healthy hhealthy
        (hs.healthy.intact slot old (hs.healthy.find_eq_some_iff.mp hold))).2.trans (hsome old hold)
      have horphans : (es.filter fun e => !(es'.map DirEntry.offset).contains e.offset) =
          es.filter fun e => changes.has e.key := by
        refine filter_congr fun e he => ?_
        rw [hstored.contains_iff hfresh hperm he, Bool.not_not]
      have hsplit := containerBytes_filter es fun e => changes.has e.key
      simp only [elim_some, orphaned, ownedBytes, hkept, hentries, getD_some,
        map_some, horphans]
      omega

/-! ### Commits -/

theorem weight_rehash (h : Healthy home s) (g : ℕ × Place → ℕ) :
    weight g (rehash home s).slots = weight g s.slots ∧
      (rehash home s).slots.countP Cell.isDead = 0 := by
  have hlen := length_entries s.slots
  have hlt := (live_le_used s.slots).trans_lt h.used_lt
  exact weight_rebuild g h.nodup_keys (by omega)

theorem makeRoom_spec (h : Healthy home s) (g : ℕ × Place → ℕ) :
    weight g (makeRoom home s).slots = weight g s.slots ∧ (makeRoom home s).layout = s.layout ∧
      (makeRoom home s).vals = s.vals ∧ (makeRoom home s).valueWritePos = s.valueWritePos ∧
      ∀ reused, s.tombstoneCount = s.slots.countP Cell.isDead + reused →
        (makeRoom home s).tombstoneCount = (makeRoom home s).slots.countP Cell.isDead +
          if s.needsRehash then 0 else reused := by
  rw [makeRoom]
  split_ifs with hfull
  · obtain ⟨hweight, hdead⟩ := weight_rehash h g
    exact ⟨hweight, rfl, rfl, rfl, fun reused _ => by rw [hdead]; rfl⟩
  · exact ⟨rfl, rfl, rfl, rfl, fun reused hreused => hreused⟩

variable {slot' : ℕ} {p' : Place}

/-- The other slots that are staged stay so when one is set; in the flat layout all do. -/
theorem Ready.setSlot (h : Ready home s slot p n) (hs : Healthy home s)
    (hp' : IntactBelow s.layout s.vals s.valueWritePos p')
    (hother : s.layout = .flat ∨ slot ≠ slot') :
    Ready home (BlobTable.setSlot home s slot' p') slot p n := by
  obtain ⟨-, hfind⟩ := hs.setSlot hp' slot'
  obtain ⟨-, hlayout, hvals, hpos, -⟩ := makeRoom_spec hs fun _ => 0
  have hdirs : (BlobTable.setSlot home s slot' p').dirEntries = s.dirEntries :=
    dirEntries_eq hlayout hvals
  have hbytes := h.bytes
  refine ⟨?_, fun es hes => h.separate es (hdirs ▸ hes), ?_⟩
  · have hintact := h.intact
    rw [← hlayout, ← hvals, ← hpos] at hintact
    exact hintact
  · rw [ownedBytes_eq hdirs, orphaned_eq hdirs, hfind]
    split_ifs with heq
    · have hflat := hother.resolve_right fun hne => hne heq
      rw [elim_some, elim_some, (flat_bytes hflat p' p).1, (flat_bytes hflat p' p).2]
      cases hold : find home s slot with
      | none =>
        rw [hold, elim_none, elim_none] at hbytes
        omega
      | some old =>
        rw [hold, elim_some, elim_some, (flat_bytes hflat old p).1,
          (flat_bytes hflat old p).2] at hbytes
        omega
    · exact hbytes

variable {sets : List (ℕ × Place)}

theorem Pending.setSlot (h : Pending home s sets m) (hs : Healthy home s)
    (hp' : IntactBelow s.layout s.vals s.valueWritePos p')
    (hother : s.layout = .flat ∨ slot' ∉ sets.map Prod.fst) :
    Pending home (BlobTable.setSlot home s slot' p') sets m := by
  induction sets generalizing m with
  | nil => exact h
  | cons e rest ih =>
    obtain ⟨n, k, hm, hready, hrest⟩ := h
    rw [map_cons, List.mem_cons, not_or] at hother
    refine ⟨n, k, hm, ?_, ih hrest (hother.imp_right fun hno => hno.2)⟩
    exact hready.setSlot hs hp' (hother.imp_right fun hno => Ne.symm hno.1)

theorem saturatingAdd_of_le {a b : ℕ} (h : a + b ≤ logicalBytes s) (hs : s.valueWritePos ≤ isizeMax) :
    saturatingAdd a b = a + b := by
  rw [logicalBytes, alignUp, valueAlignment] at h
  rw [isizeMax] at hs
  rw [saturatingAdd, min_eq_left]
  omega

/-- **Setting a slot** that is staged makes its new bytes live. -/
theorem Balanced.setSlot (h : Balanced home a tally (n + m)) (hready : Ready home a.store slot p n) :
    Balanced home (setSlot home a slot p)
      { tally with reused := reusedAfterSet home a.store slot tally.reused } m := by
  obtain ⟨⟨hhealthy, hseparate, hsmall⟩, htombs, hbytes⟩ := h
  obtain ⟨hhealthy', hfind'⟩ := hhealthy.setSlot hready.intact slot
  obtain ⟨hroom, -, hhas⟩ := hhealthy.makeRoom
  obtain ⟨hweight, hlayout, hvals, hpos, htombs'⟩ :=
    makeRoom_spec hhealthy fun e => ownedBytes a.store e.2
  have hdirs : (BlobTable.setSlot home a.store slot p).dirEntries = a.store.dirEntries :=
    dirEntries_eq hlayout hvals
  have hdirs' : (makeRoom home a.store).dirEntries = a.store.dirEntries := dirEntries_eq hlayout hvals
  have hfind := hhealthy.find_congr hroom hhas slot
  have hlive := weight_insert home (fun e => ownedBytes a.store e.2) slot p hroom.hasRoom
  rw [hweight] at hlive
  change _ + (find home (makeRoom home a.store) slot).elim 0 (ownedBytes a.store) =
    _ + ownedBytes a.store p at hlive
  rw [hfind] at hlive
  have hlive' : liveBytes (BlobTable.setSlot home a.store slot p) =
      weight (fun e => ownedBytes a.store e.2)
        (insert home (makeRoom home a.store).slots slot p) := by
    rw [liveBytes, ownedBytes_eq hdirs]
    rfl
  have hlogical : logicalBytes (BlobTable.setSlot home a.store slot p) = logicalBytes a.store :=
    congrArg alignUp hpos
  have hnew := hready.bytes
  have hold : liveBytes a.store = weight (fun e => ownedBytes a.store e.2) a.store.slots := rfl
  refine ⟨⟨hhealthy', fun k q hq => ?_, hpos.trans_le hsmall⟩, ?_, ?_⟩
  · intro es hes
    change (BlobTable.setSlot home a.store slot p).dirEntries q = some es at hes
    rw [hdirs] at hes
    have hq' := hhealthy'.find_eq_some_iff.mpr hq
    rw [hfind'] at hq'
    split_ifs at hq' with hk
    · exact hready.separate es (Option.some.inj hq' ▸ hes)
    · exact hseparate k q (hhealthy.find_eq_some_iff.mp hq') es hes
  · have hdead := dead_insert home slot p hroom.hasRoom
    have hroomTombs := htombs' tally.reused htombs
    change (makeRoom home a.store).tombstoneCount =
      (insert home (makeRoom home a.store).slots slot p).countP Cell.isDead +
        reusedAfterSet home a.store slot tally.reused
    have hreuses : reuses home a.store slot = ((makeRoom home a.store).slots.getD
      (probe home (makeRoom home a.store).slots slot).1 .empty).isDead := rfl
    rw [reusedAfterSet, hreuses]
    omega
  · rw [BlobAccounting.setSlot]
    simp only [hfind]
    rw [hlive', hlogical]
    cases hfound : find home a.store slot with
    | none =>
      rw [hfound, elim_none] at hlive
      rw [hfound, elim_none, elim_none] at hnew
      simp only
      omega
    | some old =>
      rw [hfound, elim_some] at hlive
      rw [hfound, elim_some, elim_some] at hnew
      have hsum : a.deadBytes + orphaned a.store old p ≤ logicalBytes a.store := by omega
      simp only [orphaned_eq hdirs', saturatingAdd_of_le hsum hsmall]
      omega

/-- **Removing a key** makes what it owned dead. -/
theorem Balanced.removeKey (h : Balanced home a tally m) (key : ℕ) :
    Balanced home (removeKey home a key) tally m := by
  obtain ⟨⟨hhealthy, hseparate, hsmall⟩, htombs, hbytes⟩ := h
  obtain ⟨hhealthy', hfind'⟩ := hhealthy.removeKey key
  have hlive := weight_erase home (fun e => ownedBytes a.store e.2) a.store.slots key
  have hdead := dead_erase home a.store.slots key
  change _ + (find home a.store key).elim 0 (ownedBytes a.store) = _ at hlive
  have hfiles : (BlobTable.removeKey home a.store key).layout = a.store.layout ∧
      (BlobTable.removeKey home a.store key).vals = a.store.vals ∧
      (BlobTable.removeKey home a.store key).valueWritePos = a.store.valueWritePos ∧
      (BlobTable.removeKey home a.store key).slots = erase home a.store.slots key ∧
      (BlobTable.removeKey home a.store key).tombstoneCount =
        a.store.tombstoneCount + if (probe home a.store.slots key).2 then 1 else 0 := by
    rw [BlobTable.removeKey]
    split_ifs with hfound
    · exact ⟨rfl, rfl, rfl, rfl, rfl⟩
    · exact ⟨rfl, rfl, rfl, by rw [erase, if_neg hfound], rfl⟩
  obtain ⟨hlayout, hvals, hpos, hslots, hcount⟩ := hfiles
  have hdirs : (BlobTable.removeKey home a.store key).dirEntries = a.store.dirEntries :=
    dirEntries_eq hlayout hvals
  have hold : liveBytes a.store = weight (fun e => ownedBytes a.store e.2) a.store.slots := rfl
  have hlive' : liveBytes (BlobTable.removeKey home a.store key) =
      weight (fun e => ownedBytes a.store e.2) (erase home a.store.slots key) := by
    rw [liveBytes, ownedBytes_eq hdirs, hslots]
  have hlogical : logicalBytes (BlobTable.removeKey home a.store key) = logicalBytes a.store :=
    congrArg alignUp hpos
  refine ⟨⟨hhealthy', fun k q hq => ?_, hpos.trans_le hsmall⟩, ?_, ?_⟩
  · intro es hes
    change (BlobTable.removeKey home a.store key).dirEntries q = some es at hes
    rw [hdirs] at hes
    have hq' := hhealthy'.find_eq_some_iff.mpr hq
    rw [hfind'] at hq'
    split_ifs at hq'
    exact hseparate k q (hhealthy.find_eq_some_iff.mp hq') es hes
  · change (BlobTable.removeKey home a.store key).tombstoneCount =
      (BlobTable.removeKey home a.store key).slots.countP Cell.isDead + tally.reused
    rw [hcount, hslots, hdead]
    omega
  · rw [BlobAccounting.removeKey]
    simp only
    rw [hlive', hlogical]
    cases hfound : find home a.store key with
    | none =>
      rw [hfound, elim_none] at hlive
      simp only
      omega
    | some old =>
      rw [hfound, elim_some] at hlive
      have hsum : a.deadBytes + ownedBytes a.store old ≤ logicalBytes a.store := by omega
      simp only [saturatingAdd_of_le hsum hsmall]
      omega

/-- **A commit** makes all that was staged live. -/
theorem Balanced.commit (h : Balanced home a tally m) (hpending : Pending home a.store sets m)
    (hslots : a.store.layout = .flat ∨ (sets.map Prod.fst).Nodup) (removals : List ℕ) :
    Balanced home (commit home a sets removals)
      { tally with reused := reusedAfterSets home sets a.store tally.reused } 0 := by
  have hsets : ∀ (sets : List (ℕ × Place)) (a : Accounted) (tally : Tally) (m : ℕ),
      Balanced home a tally m → Pending home a.store sets m →
      (a.store.layout = .flat ∨ (sets.map Prod.fst).Nodup) →
      Balanced home (sets.foldl (fun a e => BlobAccounting.setSlot home a e.1 e.2) a)
        { tally with reused := reusedAfterSets home sets a.store tally.reused } 0 := by
    intro sets
    induction sets with
    | nil =>
      intro a tally m h hpending _
      obtain rfl : m = 0 := hpending
      exact h
    | cons e rest ih =>
      intro a tally m h hpending hslots
      obtain ⟨n, k, rfl, hready, hrest⟩ := hpending
      rw [map_cons, List.nodup_cons] at hslots
      have hlayout : (BlobAccounting.setSlot home a e.1 e.2).store.layout = a.store.layout :=
        (makeRoom_spec h.good.healthy fun _ => 0).2.1
      refine ih _ _ k (h.setSlot hready) ?_ ?_
      · exact hrest.setSlot h.good.healthy hready.intact (hslots.imp_right And.left)
      · rw [hlayout]
        exact hslots.imp_right And.right
  have hremovals : ∀ (removals : List ℕ) (a : Accounted) (tally : Tally), Balanced home a tally 0 →
      Balanced home (removals.foldl (BlobAccounting.removeKey home) a) tally 0 := by
    intro removals
    induction removals with
    | nil => exact fun a tally h => h
    | cons key rest ih => exact fun a tally h => ih _ _ (h.removeKey key)
  exact hremovals removals _ _ (hsets sets a tally m h hpending hslots)

/-! ### Rebuilding, compaction and reopening -/

theorem Balanced.rehash (h : Balanced home a tally m) :
    Balanced home { a with store := rehash home a.store } { tally with reused := 0 } m := by
  obtain ⟨⟨hhealthy, hseparate, hsmall⟩, -, hbytes⟩ := h
  obtain ⟨hhealthy', hhas⟩ := hhealthy.rehash
  obtain ⟨hweight, hdead⟩ := weight_rehash hhealthy fun e => ownedBytes a.store e.2
  refine ⟨⟨hhealthy', fun k p hp => hseparate k p ((hhas k p).mp hp), hsmall⟩, hdead.symm, ?_⟩
  have hlive : liveBytes (BlobTable.rehash home a.store) = liveBytes a.store := hweight
  simp only [hlive]
  exact hbytes

/-- Copied containers lie one behind the other. -/
theorem moveContainers_places {vals : List UInt8} (buf : List UInt8)
    (hinside : ∀ e ∈ es, e.offset + e.len ≤ vals.length) (hnonempty : ∀ e ∈ es, 0 < e.len) :
    alignUp (moveContainers vals es buf).1.length =
        alignUp buf.length + containerBytes (moveContainers vals es buf).2 ∧
      (∀ e ∈ (moveContainers vals es buf).2, buf.length ≤ e.offset ∧ 0 < e.len) ∧
      (moveContainers vals es buf).2.Pairwise fun e f => e.offset ≠ f.offset := by
  induction es generalizing buf with
  | nil => exact ⟨rfl, by simp [moveContainers], .nil⟩
  | cons e es ih =>
    obtain ⟨hin, hinside⟩ := forall_mem_cons.mp hinside
    obtain ⟨hpos, hnonempty⟩ := forall_mem_cons.mp hnonempty
    have hlen : (readAt vals e.offset e.len).length = e.len := by
      rw [length_readAt]
      omega
    have hle := le_alignUp buf.length
    have hcopied : (appendAligned buf (readAt vals e.offset e.len)).1.length =
        alignUp buf.length + e.len := by
      rw [appendAligned, CrashDisk.resize_of_le hle, length_append,
        length_append, List.length_replicate, hlen]
      omega
    obtain ⟨hbytes, hafter, hplaces⟩ :=
      ih (appendAligned buf (readAt vals e.offset e.len)).1 hinside hnonempty
    rw [hcopied] at hbytes hafter
    refine ⟨?_, forall_mem_cons.mpr ⟨⟨hle, hpos⟩, fun f hf => ?_⟩,
      List.pairwise_cons.mpr ⟨fun f hf => ?_, hplaces⟩⟩
    · rw [alignUp_add] at hbytes
      rw [moveContainers]
      simp only [hbytes, containerBytes, map_cons, sum_cons]
      omega
    · have hf := hafter f hf
      exact ⟨by omega, hf.2⟩
    · have hf := hafter f hf
      intro heq
      have heq' : alignUp buf.length = f.offset := heq
      omega

/-- **A moved blob** fills the value file up to its end. -/
theorem moveBlob_places (hs : Good home s) (hhas : Has s.slots key p) (buf : List UInt8)
    (hlayout : t.layout = s.layout) (hpre : (s.moveBlob p buf).1 <+: t.vals)
    (hfile : (s.moveBlob p buf).1.length ≤ 2 ^ 64) :
    alignUp (s.moveBlob p buf).1.length =
        alignUp buf.length + ownedBytes t (s.moveBlob p buf).2 ∧
      Separate t (s.moveBlob p buf).2 := by
  obtain ⟨hstop, hdir⟩ := hs.healthy.intact key p hhas
  have hpos := hs.healthy.pos_le
  cases hcase : s.layout with
  | flat =>
    have hnone : s.dirEntries p = none := by rw [BlobStore.dirEntries.eq_def, hcase]
    have hflat : t.layout = .flat := hlayout.trans hcase
    have hlen : (readAt s.vals p.offset p.len).length = p.len := by
      rw [Place.stop] at hstop
      rw [length_readAt]
      omega
    have hmove : s.moveBlob p buf = appendAligned buf (readAt s.vals p.offset p.len) := by
      rw [moveBlob, hnone]
    rw [hmove, (flat_bytes hflat _ p).1]
    refine ⟨?_, fun es hes => ?_⟩
    · rw [appendAligned, CrashDisk.resize_of_le (le_alignUp _),
        length_append, length_append, List.length_replicate,
        Nat.add_sub_cancel' (le_alignUp _), alignUp_add]
    · rw [BlobStore.dirEntries.eq_def, hflat] at hes
      cases hes
  | directory =>
    obtain ⟨entries, hdecode, hentries⟩ := hdir hcase
    have hinside : ∀ e ∈ entries, e.offset + e.len ≤ s.vals.length := fun e he =>
      (hentries e he).trans hpos
    have hsome : s.dirEntries p = some entries := by
      rw [BlobStore.dirEntries.eq_def, hcase]
      simp only
      rw [valueSlice, if_pos (hstop.trans hpos), bind_some, hdecode]
      rfl
    obtain ⟨hnonempty, -⟩ := hs.separate key p hhas entries hsome
    obtain ⟨hmove, hdecoded⟩ :=
      moveBlob_dir hcase (hstop.trans hpos) hdecode hinside buf hfile
    obtain ⟨hbytes, hafter, hplaces⟩ := moveContainers_places buf hinside hnonempty
    have hlength : (s.moveBlob p buf).1.length =
        (s.moveBlob p buf).2.offset + (s.moveBlob p buf).2.len := by
      rw [hmove, appendAligned, CrashDisk.resize_of_le (le_alignUp _),
        length_append, length_append, List.length_replicate,
        Nat.add_sub_cancel' (le_alignUp _)]
    have hmoved : t.dirEntries (s.moveBlob p buf).2 =
        some (moveContainers s.vals entries buf).2 := by
      have hend : (s.moveBlob p buf).2.stop ≤ t.vals.length := hlength.ge.trans hpre.length_le
      rw [BlobStore.dirEntries.eq_def, hlayout.trans hcase]
      simp only
      rw [valueSlice, if_pos hend, bind_some,
        readAt_of_isPrefix hpre hlength.ge, hdecoded]
      rfl
    refine ⟨?_, fun es hes => ?_⟩
    · rw [ownedBytes, hmoved, hlength, hmove, appendAligned, alignUp_add, hbytes,
        map_some, getD_some]
      simp only
      omega
    · obtain rfl := Option.some.inj (hmoved.symm.trans hes)
      exact ⟨fun e he => (hafter e he).2, hplaces⟩

/-- **The moved blobs** fill the value file. -/
theorem moveAll_places (hs : Good home s) {list : List (ℕ × Place)}
    (hlist : ∀ e ∈ list, Has s.slots e.1 e.2) (buf : List UInt8) (hlayout : t.layout = s.layout)
    (hpre : (s.moveAll list buf).1 <+: t.vals) (hfile : (s.moveAll list buf).1.length ≤ 2 ^ 64) :
    alignUp (s.moveAll list buf).1.length = alignUp buf.length +
        ((s.moveAll list buf).2.map fun e => ownedBytes t e.2).sum ∧
      ∀ e ∈ (s.moveAll list buf).2, Separate t e.2 := by
  induction list generalizing buf with
  | nil => exact ⟨rfl, by simp [moveAll]⟩
  | cons e list ih =>
    obtain ⟨he, hlist⟩ := forall_mem_cons.mp hlist
    have hfirst : (s.moveBlob e.2 buf).1 <+: (s.moveAll (e :: list) buf).1 :=
      isPrefix_moveAll list _
    obtain ⟨hbytes, hapart⟩ := moveBlob_places hs he buf hlayout (hfirst.trans hpre)
      (hfirst.length_le.trans hfile)
    obtain ⟨hbytes', hapart'⟩ := ih hlist (s.moveBlob e.2 buf).1 hpre hfile
    refine ⟨?_, forall_mem_cons.mpr ⟨hapart, hapart'⟩⟩
    rw [moveAll]
    simp only [map_cons, sum_cons, hbytes', hbytes]
    omega

theorem Balanced.compact (h : Balanced home a tally m)
    (hfile : (compact home a.store).valueWritePos ≤ isizeMax) :
    Balanced home ⟨compact home a.store, 0⟩ ⟨0, 0⟩ 0 := by
  have hgood := h.good
  obtain ⟨hhealthy, -⟩ := hgood.healthy.compact hfile
  obtain ⟨hmoved, hkeys⟩ := hgood.healthy.moveAll hfile
  have hnodup : ((a.store.moveAll (entries a.store.slots) []).2.map Prod.fst).Nodup :=
    hkeys ▸ hgood.healthy.nodup_keys
  have hlen : (a.store.moveAll (entries a.store.slots) []).2.length ≤ a.store.slots.length := by
    have hlt := (live_le_used a.store.slots).trans_lt hgood.healthy.used_lt
    have hcount := hmoved.length_eq
    rw [length_entries] at hcount
    omega
  obtain ⟨hweight, hdead⟩ : weight (fun e => ownedBytes (BlobTable.compact home a.store) e.2)
      (rebuild home a.store.slots.length (a.store.moveAll (entries a.store.slots) []).2) = _ ∧ _ :=
    weight_rebuild _ hnodup hlen
  obtain ⟨-, -, -, -, hhas⟩ : Sound home (rebuild home a.store.slots.length
      (a.store.moveAll (entries a.store.slots) []).2) ∧ _ := rebuild_spec hnodup hlen
  obtain ⟨hbytes, hapart⟩ := moveAll_places (t := BlobTable.compact home a.store) hgood
    (fun e he => mem_entries.mp he) [] rfl (List.prefix_append _ _) (hfile.trans (by decide))
  refine ⟨⟨hhealthy, fun k p hp => hapart _ ((hhas k p).mp hp), hfile⟩, hdead.symm, ?_⟩
  have hlive : liveBytes (BlobTable.compact home a.store) =
      ((a.store.moveAll (entries a.store.slots) []).2.map fun e =>
        ownedBytes (BlobTable.compact home a.store) e.2).sum := hweight
  have hlogical : logicalBytes (BlobTable.compact home a.store) =
      alignUp (a.store.moveAll (entries a.store.slots) []).1.length := rfl
  have hzero : alignUp ([] : List UInt8).length = 0 := rfl
  simp only [hlive, hlogical, hbytes, hzero]
  omega

theorem Balanced.reopen (h : Balanced home a tally 0) :
    Balanced home (reopen a) ⟨0, 0⟩ 0 := by
  obtain ⟨⟨hhealthy, hseparate, hsmall⟩, -, hbytes⟩ := h
  obtain ⟨hslots, hpos, hhealthy'⟩ := hhealthy.reopen
  have hdirs : (BlobTable.reopen a.store).dirEntries = a.store.dirEntries := dirEntries_eq rfl rfl
  have hlive : liveBytes (BlobTable.reopen a.store) = liveBytes a.store := by
    rw [liveBytes, liveBytes, hslots, ownedBytes_eq hdirs]
  have hlogical : logicalBytes (BlobTable.reopen a.store) = logicalBytes a.store :=
    congrArg alignUp hpos
  refine ⟨⟨hhealthy', fun k p hp es hes => ?_, hpos.trans_le hsmall⟩, rfl, ?_⟩
  · exact hseparate k p (hslots ▸ hp) es (hdirs ▸ hes)
  · rw [BlobAccounting.reopen]
    simp only [hlive, hlogical]
    omega

/-! ### Spills -/

/-- **The end of a spill.** -/
theorem Balanced.settle (h : Balanced home a tally 0) (hext : Extends a.store r.1)
    (hgood : Good home r.1)
    (hm : ∃ m, logicalBytes r.1 = logicalBytes a.store + m ∧ Pending home r.1 r.2 m)
    (hslots : r.1.layout = .flat ∨ (r.2.map Prod.fst).Nodup) (removals : List ℕ) (committed : Bool) :
    Balanced home (settle home a r removals committed) (settleTally home a r committed tally) 0 := by
  obtain ⟨m, hlogical, hpending⟩ := hm
  have hlive := hext.liveBytes h.good.healthy hgood.healthy
  have hbytes := h.bytes
  have htombs : r.1.tombstoneCount = r.1.slots.countP Cell.isDead + tally.reused := by
    rw [hext.tombs, hext.slots]
    exact h.tombs
  cases committed with
  | true =>
    have hstaged : Balanced home ⟨r.1, a.deadBytes⟩ tally m :=
      ⟨hgood, htombs, by simp only [hlive, hlogical]; omega⟩
    exact hstaged.commit hpending hslots removals
  | false =>
    refine ⟨hgood, htombs, ?_⟩
    simp only [BlobAccounting.settle, settleTally, Bool.false_eq_true, if_false, hlive, hlogical]
    omega

theorem staged_spec (hs : Good home s) (h : staged home s op = some r) :
    Extends s r.1 ∧ Good home r.1 ∧
      (r.1.layout = .flat ∨ (r.2.map Prod.fst).Nodup) ∧
      ∃ m, logicalBytes r.1 = logicalBytes s + m ∧ Pending home r.1 r.2 m := by
  cases op with
  | spillBlobs blobs removals committed =>
    obtain ⟨hflat, hstage⟩ := Option.ite_none_right_eq_some.mp h
    have hone : ∀ e ∈ blobs, ∀ s r, s.layout = .flat → Good home s →
        appendValue s e.2 = some r → StagedWell home s e.1 r :=
      fun e _ s r hflat hs h => stagedWell_blob hflat hs h
    obtain ⟨hext, hgood, -, hm⟩ := stage_spec hone hflat hs hstage
    exact ⟨hext, hgood, .inl (hext.layout.trans hflat), hm⟩
  | spillDirs changes removals committed =>
    obtain ⟨⟨hdir, hformed⟩, hstage⟩ := Option.ite_none_right_eq_some.mp h
    rw [wellFormed, Bool.and_eq_true, decide_eq_true_eq, List.all_eq_true] at hformed
    obtain ⟨hnodup, hformed⟩ := hformed
    have hone : ∀ e ∈ changes, ∀ s r, s.layout = .directory → Good home s →
        stageDir home s e.1 e.2 = some r → StagedWell home s e.1 r := by
      intro e he s r hdir hs hr
      have hchanges := hformed e he
      rw [Bool.and_eq_true, decide_eq_true_eq, List.all_eq_true] at hchanges
      refine stagedWell_dir hdir hs hchanges.1 (fun c hc => ?_) hr
      have hfit := hchanges.2 c hc
      rw [Bool.and_eq_true, decide_eq_true_eq, bne_iff_ne] at hfit
      exact hfit
    obtain ⟨hext, hgood, hslots, hm⟩ := stage_spec hone hdir hs hstage
    exact ⟨hext, hgood, .inr (hslots ▸ hnodup), hm⟩
  | removeKey key | rehash | compact | reopen => cases h

/-- **One call** keeps the accounts, with what the counters then miss. -/
theorem balanced_step (h : Balanced home a tally 0) (hs : step home a op = some b) :
    Balanced home b (tallyAfter home a op tally) 0 := by
  cases op with
  | spillBlobs blobs removals committed | spillDirs changes removals committed =>
    obtain ⟨r, hr, rfl⟩ := map_eq_some_iff.mp hs
    obtain ⟨hext, hgood, hslots, hm⟩ := staged_spec h.good hr
    rw [tallyAfter, hr]
    exact h.settle hext hgood hm hslots removals committed
  | removeKey key =>
    obtain rfl := Option.some.inj hs
    exact h.removeKey key
  | rehash =>
    obtain rfl := Option.some.inj hs
    exact h.rehash
  | compact =>
    obtain ⟨hfile, rfl⟩ := Option.ite_some_none_eq_some.mp hs
    exact h.compact hfile
  | reopen =>
    obtain rfl := Option.some.inj hs
    exact h.reopen

/-! ### Exactness -/

/-- **The accounts are exact.** -/
structure Exact (a : Accounted) : Prop where
  count : a.store.count = live a.store.slots
  tombs : a.store.tombstoneCount = a.store.slots.countP Cell.isDead
  live_le : liveBytes a.store ≤ logicalBytes a.store
  dead : a.deadBytes = logicalBytes a.store - liveBytes a.store

theorem Balanced.exact_iff_tally (h : Balanced home a tally 0) : Exact a ↔ tally = ⟨0, 0⟩ := by
  obtain ⟨hgood, htombs, hbytes⟩ := h
  obtain ⟨reused, abandoned⟩ := tally
  simp only at htombs hbytes
  constructor
  · rintro ⟨-, htombs', -, hdead⟩
    obtain rfl : reused = 0 := by omega
    obtain rfl : abandoned = 0 := by omega
    rfl
  · intro hzero
    obtain ⟨rfl, rfl⟩ := Tally.mk.inj hzero
    exact ⟨hgood.healthy.count, by omega, by omega, by omega⟩

/-- The call reuses no tombstone that stays counted, and abandons no bytes. -/
def clean (home : ℕ → ℕ) (a : Accounted) (op : Op) : Bool :=
  match op with
  | .spillBlobs blobs _ committed =>
    if committed then (staged home a.store op).all fun r => reusedAfterSets home r.2 r.1 0 == 0
    else blobs.all fun e => e.2.isEmpty
  | .spillDirs changes _ committed =>
    if committed then (staged home a.store op).all fun r => reusedAfterSets home r.2 r.1 0 == 0
    else changes.isEmpty
  | _ => true

theorem logicalBytes_append {r : BlobStore × Place} (h : appendValue s blob = some r) :
    logicalBytes r.1 = logicalBytes s + alignUp blob.length := by
  obtain ⟨-, rfl⟩ := Option.ite_some_none_eq_some.mp h
  exact alignUp_add s.valueWritePos blob.length

/-- Staging values appends nothing exactly if they are all empty. -/
theorem stage_blobs_iff (h : stage (fun s _ blob => appendValue s blob) blobs s = some r) :
    logicalBytes s ≤ logicalBytes r.1 ∧
      (logicalBytes r.1 = logicalBytes s ↔ (blobs.all fun e => e.2.isEmpty) = true) := by
  induction blobs generalizing s r with
  | nil =>
    obtain rfl := Option.some.inj h
    exact ⟨le_rfl, by simp⟩
  | cons e blobs ih =>
    obtain ⟨first, hfirst, hrest⟩ := bind_eq_some_iff.mp h
    obtain ⟨more, hmore, rfl⟩ := map_eq_some_iff.mp hrest
    obtain ⟨hle, hiff⟩ := ih hmore
    have hlogical := logicalBytes_append hfirst
    have hempty : alignUp e.2.length = 0 ↔ e.2.isEmpty = true := by
      rw [List.isEmpty_iff_length_eq_zero]
      simp only [alignUp, valueAlignment]
      omega
    refine ⟨by simp only; omega, ?_⟩
    rw [List.all_cons, Bool.and_eq_true, ← hempty, ← hiff]
    simp only
    omega

theorem appendContainers_le {r : BlobStore × List DirEntry}
    (h : appendContainers blobs s es = some r) : logicalBytes s ≤ logicalBytes r.1 := by
  induction blobs generalizing s es with
  | nil =>
    obtain rfl := Option.some.inj h
    exact le_rfl
  | cons c blobs ih =>
    obtain ⟨key, bytes⟩ := c
    obtain ⟨first, hfirst, hrest⟩ := bind_eq_some_iff.mp h
    have hlogical := logicalBytes_append hfirst
    have hle := ih hrest
    omega

/-- Staging bitmaps appends nothing exactly if there are none. -/
theorem stage_dirs_iff {changes : List (ℕ × SlotChanges)}
    (h : stage (stageDir home) changes s = some r) : logicalBytes s ≤ logicalBytes r.1 ∧
      (logicalBytes r.1 = logicalBytes s ↔ changes.isEmpty = true) := by
  induction changes generalizing s r with
  | nil =>
    obtain rfl := Option.some.inj h
    exact ⟨le_rfl, by simp⟩
  | cons e changes ih =>
    obtain ⟨first, hfirst, hrest⟩ := bind_eq_some_iff.mp h
    obtain ⟨more, hmore, rfl⟩ := map_eq_some_iff.mp hrest
    obtain ⟨containers, hcontainers, happend⟩ := bind_eq_some_iff.mp hfirst
    have hle := (ih hmore).1
    have hle' := appendContainers_le hcontainers
    have hlogical := logicalBytes_append happend
    have hdir : 0 < alignUp (Storage.encodeDir containers.2).length := by
      have hheader : Storage.dirHeader = 8 := rfl
      rw [Storage.encodeDir, length_append, Storage.length_dirBody, hheader]
      simp only [alignUp, valueAlignment]
      omega
    refine ⟨by simp only; omega, ?_⟩
    simp only [List.isEmpty_cons, Bool.false_eq_true, iff_false]
    omega

/-- Bytes are abandoned exactly if some were staged. -/
private theorem abandoned_iff {logical before : ℕ} (hle : before ≤ logical) :
    (⟨0, 0 + (logical - before)⟩ : Tally) = ⟨0, 0⟩ ↔ logical = before := by
  rw [Tally.mk.injEq]
  omega

/-- **A clean call** is one after which the counters miss nothing. -/
theorem clean_iff (hs : step home a op = some b) :
    clean home a op = true ↔ tallyAfter home a op ⟨0, 0⟩ = ⟨0, 0⟩ := by
  cases op with
  | spillBlobs blobs removals committed =>
    obtain ⟨r, hr, -⟩ := map_eq_some_iff.mp hs
    rw [clean, tallyAfter, hr]
    cases committed with
    | true => simp [settleTally]
    | false =>
      obtain ⟨-, hstage⟩ := Option.ite_none_right_eq_some.mp hr
      obtain ⟨hle, hiff⟩ := stage_blobs_iff hstage
      simp only [Bool.false_eq_true, if_false, elim_some, settleTally]
      exact hiff.symm.trans (abandoned_iff hle).symm
  | spillDirs changes removals committed =>
    obtain ⟨r, hr, -⟩ := map_eq_some_iff.mp hs
    rw [clean, tallyAfter, hr]
    cases committed with
    | true => simp [settleTally]
    | false =>
      obtain ⟨-, hstage⟩ := Option.ite_none_right_eq_some.mp hr
      obtain ⟨hle, hiff⟩ := stage_dirs_iff hstage
      simp only [Bool.false_eq_true, if_false, elim_some, settleTally]
      exact hiff.symm.trans (abandoned_iff hle).symm
  | removeKey key | rehash | compact | reopen => exact iff_of_true rfl rfl

/-! ### Main result -/

variable {ops : List Op}

/-- Live slots are counted right in every state. -/
theorem count_run (h : Balanced home a tally 0) (hrun : StepRun.run (step home) a ops = some b) :
    b.store.count = live b.store.slots := by
  induction ops generalizing a tally with
  | nil =>
    obtain rfl := Option.some.inj hrun
    exact h.good.healthy.count
  | cons op ops ih =>
    obtain ⟨c, hc, hrest⟩ := bind_eq_some_iff.mp hrun
    exact ih (balanced_step h hc) hrest

theorem exact_run_iff (h : Balanced home a ⟨0, 0⟩ 0) (hrun : StepRun.run (step home) a ops = some b) :
    (∀ n c, StepRun.run (step home) a (ops.take n) = some c → Exact c) ↔
      StepRun.along (step home) (clean home) a ops = true := by
  induction ops generalizing a with
  | nil =>
    refine iff_of_true (fun n c hc => ?_) rfl
    rw [List.take_nil] at hc
    obtain rfl := Option.some.inj hc
    exact h.exact_iff_tally.mpr rfl
  | cons op ops ih =>
    obtain ⟨c, hc, hrest⟩ := bind_eq_some_iff.mp hrun
    have hstep := balanced_step h hc
    rw [StepRun.along, hc, elim_some, Bool.and_eq_true]
    constructor
    · intro hexact
      have htally := hstep.exact_iff_tally.mp (hexact 1 c (by
        rw [List.take_succ_cons, List.take_zero, StepRun.run_cons, hc]
        rfl))
      refine ⟨(clean_iff hc).mpr htally, (ih (htally ▸ hstep) hrest).mp fun n d hd => ?_⟩
      refine hexact (n + 1) d ?_
      rw [List.take_succ_cons, StepRun.run_cons, hc]
      exact hd
    · rintro ⟨hclean, halong⟩ n d hd
      have htally := (clean_iff hc).mp hclean
      cases n with
      | zero =>
        obtain rfl := Option.some.inj hd
        exact h.exact_iff_tally.mpr rfl
      | succ n =>
        rw [List.take_succ_cons, StepRun.run_cons, hc] at hd
        exact (ih (htally ▸ hstep) hrest).mpr halong n d hd

/-- **Blob store accounting.** In every run the header counts the live slots right. Its tombstones
and the dead bytes are right in every state of the run if and only if no call sets a new key in
the place of a tombstone, unless the same commit rebuilds the table later, and no spill that has
appended bytes is given up. -/
theorem exact_iff (home : ℕ → ℕ) (layout : BlobLayout) (ops : List Op) (a : Accounted)
    (h : StepRun.run (step home) (create layout) ops = some a) :
    a.store.count = live a.store.slots ∧
      ((∀ n b, StepRun.run (step home) (create layout) (ops.take n) = some b → Exact b) ↔
        StepRun.along (step home) (clean home) (create layout) ops = true) :=
  ⟨count_run (balanced_create layout) h, exact_run_iff (balanced_create layout) h⟩

/-- A value is set, removed and set again. -/
def reusingRun : List Op :=
  [.spillBlobs [(1, [7])] [] true, .removeKey 1, .spillBlobs [(1, [8])] [] true]

/-- A spill of one value is given up. -/
def abandoningRun : List Op := [.spillBlobs [(1, [7])] [] false]

theorem exact_iff_reusing :
    let a := (StepRun.run (step BlobStore.hashKey) (create .flat) reusingRun).get (by decide +kernel)
    a.store.count = live a.store.slots ∧
      ((∀ n b, StepRun.run (step BlobStore.hashKey) (create .flat) (reusingRun.take n) = some b →
          Exact b) ↔
        StepRun.along (step BlobStore.hashKey) (clean BlobStore.hashKey) (create .flat) reusingRun =
          true) :=
  exact_iff BlobStore.hashKey .flat reusingRun _ (Option.some_get _).symm

/-- A reused tombstone stays counted, and what a spill abandons is not counted dead. -/
theorem counters_drift :
    (∃ a, StepRun.run (step BlobStore.hashKey) (create .flat) reusingRun = some a ∧
      a.store.tombstoneCount = 1 ∧ a.store.slots.countP Cell.isDead = 0 ∧ ¬ Exact a) ∧
    ∃ a, StepRun.run (step BlobStore.hashKey) (create .flat) abandoningRun = some a ∧
      a.deadBytes = 0 ∧ logicalBytes a.store = 16 ∧ liveBytes a.store = 0 ∧ ¬ Exact a := by
  have hreusing : ((StepRun.run (step BlobStore.hashKey) (create .flat) reusingRun).any fun a =>
      decide (a.store.tombstoneCount = 1 ∧ a.store.slots.countP Cell.isDead = 0)) = true := by
    decide +kernel
  have habandoning : ((StepRun.run (step BlobStore.hashKey) (create .flat) abandoningRun).any
      fun a => decide (a.deadBytes = 0 ∧ logicalBytes a.store = 16 ∧ liveBytes a.store = 0)) =
        true := by
    decide +kernel
  obtain ⟨a, ha, hcounts⟩ := (Option.any_eq_true _ _).mp hreusing
  obtain ⟨b, hb, hbytes⟩ := (Option.any_eq_true _ _).mp habandoning
  obtain ⟨htombs, hdead⟩ := of_decide_eq_true hcounts
  obtain ⟨hzero, hlogical, hlive⟩ := of_decide_eq_true hbytes
  refine ⟨⟨a, ha, htombs, hdead, fun hexact => ?_⟩, b, hb, hzero, hlogical, hlive, fun hexact => ?_⟩
  · have hcounted := hexact.tombs
    omega
  · have hcounted := hexact.dead
    omega

end BlobAccounting

end Minnal
