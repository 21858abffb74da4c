import Minnal.Db.IndexRows
import Minnal.Db.RejectedUpdates

/-!
# Repair of a field index

A field with a **gap** is repaired key by key: under the key's stripe its current value is read and
its row is filed again. A row-scoped repair visits the keys of the gap's worklist. A full rebuild
visits all keys of the store, and then every row of the index that none of them accounts for.
Then a checkpoint of the indexes is run, and the gap record is removed.

Writers go on during the repair. A write holds its key's stripe from the change of the store to
that of the index. The other checkpoints and whatever records gaps go on as well.

When a repair returns, the index, in memory and on disk, agrees with the store on every key in the
repair's scope that has not been written since it was visited (`Repaired`).
-/

set_option linter.dupNamespace false

namespace Minnal

open List (mem_cons mem_filter append_nil take_length mem_append_right mem_map mem_singleton
  not_mem_nil take_nil length_append)

variable {row : ℕ} {key : WalGc.Key}

namespace IndexRepair

open IndexCheckpoint IndexRows WalGc RejectedUpdates Option

variable {F V D : Type}

/-! ### The system -/

/-- The field, what its index files a document under, and which values it rejects. -/
structure Params (F V D : Type) where
  field : F
  extract : D → Option V
  rejects : V → Bool
  gaps : RejectedUpdates.Field

/-- Where a repair stands. -/
inductive Stage where
  /-- The keys of the store are to be listed. -/
  | listing
  /-- The worklist, or the listed keys, are visited. -/
  | keys
  /-- Rows that no listed key accounts for are visited. -/
  | orphans
  | checkpointing (run : ℕ)
  | recording
  | clearing
  | returned
  | failed
  deriving DecidableEq

structure Repair (D : Type) where
  full : Bool
  worklist : List WalGc.Key
  stage : Stage
  todo : List WalGc.Key
  /-- The key whose stripe the repair holds, with the value it has read. -/
  reading : Option (WalGc.Key × Option D)
  listed : List WalGc.Key
  /-- The keys written since the repair began and not visited after that. -/
  written : List WalGc.Key
  /-- The gaps recorded while the repair ran. -/
  recorded : List GapRecord

/-- The keys a repair is for. -/
def Repair.InScope (r : Repair D) (key : WalGc.Key) : Prop := r.full = true ∨ key ∈ r.worklist

def Repair.running (r : Repair D) : Bool :=
  decide (r.stage ≠ .returned) && decide (r.stage ≠ .failed)

structure State (F V D : Type) where
  indexes : Indexes F V
  /-- The values that have been given rows. -/
  values : List V
  store : AList fun _ : WalGc.Key => D
  /-- The row map: the key of each row. -/
  rows : List WalGc.Key
  /-- The writes that have changed the store and not the index yet, with the value before. -/
  writers : List (WalGc.Key × Option D)
  rejected : RejectedField
  gap : Option GapRecord
  recorders : List Recorder
  repair : Option (Repair D)

def State.init : State F V D where
  indexes := IndexCheckpoint.State.init
  values := []
  store := ∅
  rows := []
  writers := []
  rejected := RejectedField.empty
  gap := none
  recorders := []
  repair := none

/-- What can happen next. -/
inductive Act (F V D : Type) where
  /-- A step of the checkpoints and their WAL. Before the repair this may be a change that no write
  stands behind, as an earlier crash may have left it. -/
  | index (a : IndexCheckpoint.Act F V (List ℕ))
  | write (key : WalGc.Key) (value : Option D)
  /-- The index update of a write; the old document may be unreadable. -/
  | updateIndex (key : WalGc.Key) (readable : Bool)
  | detect (gap : GapRecord)
  | drainRejected (now : ℕ)
  | readGap (j : ℕ)
  | writeGap (j : ℕ)
  | repair
  | listKeys
  | read
  | reindex
  | listOrphans
  | checkpoint (fields : List F)
  | checkpointed
  | record (now : ℕ)
  | clear
  | fail

namespace State

variable (s : State F V D)

/-- The row of a key that has one. -/
def rowOf (key : WalGc.Key) : Option ℕ :=
  if s.rows.contains key then some (s.rows.idxOf key) else none

/-- The row of a key, allocated if it has none. -/
def alloc (key : WalGc.Key) : State F V D :=
  if s.rows.contains key then s else { s with rows := s.rows ++ [key] }

def keyForRow (row : ℕ) : Option WalGc.Key := s.rows[row]?

/-- The stripe of a key is free. -/
def free (key : WalGc.Key) : Bool :=
  !(s.writers.map Prod.fst).contains key &&
    !s.repair.any fun r => r.reading.any fun k => decide (k.1 = key)

def setRepair (r : Repair D) : State F V D := { s with repair := some r }

/-- The row of a key that has a value is allocated if it has none. -/
def withRow (key : WalGc.Key) : State F V D := if (s.store.lookup key).isSome then s.alloc key else s

variable [DecidableEq F] [DecidableEq V] (p : Params F V D)

/-- Change a row of the field's index; false if the value is rejected. -/
def changeRow (row : ℕ) (c : RowChange V) : State F V D × Bool :=
  let (indexes, ok) := change p.rejects p.field row c s.indexes
  ({ s with indexes := indexes, values := c.add.toList ++ s.values }, ok)

/-- What the row of a key is to be filed under. -/
def target (key : WalGc.Key) : Option V := (s.store.lookup key).bind p.extract

/-- The update of the index that a write of the key leads to. -/
def writeChange (old : Option D) (readable : Bool) (new : Option D) : RowChange V :=
  let oldValue := if readable then old.map p.extract else none
  match new with
  | some new => RowChange.put s.values old.isSome oldValue (p.extract new)
  | none => RowChange.delete s.values oldValue

/-- The index after the update of a write; a rejection is noted. -/
def indexWrite (key : WalGc.Key) (old : Option D) (readable : Bool) : State F V D :=
  let c := s.writeChange p old readable (s.store.lookup key)
  match (s.withRow key).rowOf key with
  | none => s.withRow key
  | some row =>
    let (s, ok) := (s.withRow key).changeRow p row c
    if ok then s else { s with rejected := s.rejected.note p.gaps.cap key }

/-- The index after a visit: the row is taken from every value and filed under the one its key has
now. -/
def reindexKey (key : WalGc.Key) (value : Option D) : State F V D × Bool :=
  match (s.withRow key).rowOf key with
  | none => (s.withRow key, true)
  | some row => (s.withRow key).changeRow p row ⟨s.values, value.bind p.extract⟩

/-- The rows of the index that no listed key accounts for. -/
def orphanRows (listed : List WalGc.Key) : List ℕ :=
  sortDedup ((s.values.flatMap (rowsOf s.indexes p.field)).filter fun row =>
    !listed.any fun key => decide (s.rowOf key = some row))

end State

section Step

variable [DecidableEq F] [DecidableEq V] (p : Params F V D)

/-- A step of the repair. -/
def stepRepair (s : State F V D) (r : Repair D) : Act F V D → Option (State F V D)
  | .listKeys =>
    if r.stage = .listing then
      some (s.setRepair { r with stage := .keys, todo := s.store.keys, listed := s.store.keys })
    else none
  | .read =>
    match r.stage, r.reading, r.todo with
    | .keys, none, key :: _ | .orphans, none, key :: _ =>
      if s.free key then some (s.setRepair { r with reading := some (key, s.store.lookup key) })
      else none
    | _, _, _ => none
  | .reindex =>
    match r.reading with
    | some (key, value) =>
      let (s, ok) := s.reindexKey p key value
      if ok then
        some (s.setRepair { r with
          reading := none
          todo := r.todo.tail
          written := r.written.filter fun k => decide (k ≠ key) })
      else some (s.setRepair { r with reading := none, stage := .failed })
    | none => none
  | .listOrphans =>
    if r.stage = .keys ∧ r.full = true ∧ r.todo = [] then
      some (s.setRepair { r with
        stage := .orphans
        todo := (s.orphanRows p r.listed).filterMap s.keyForRow })
    else none
  | .checkpoint fields =>
    if (r.stage = .keys ∧ r.full = false ∨ r.stage = .orphans) ∧ r.todo = [] ∧ p.field ∈ fields then
      (IndexCheckpoint.step s.indexes (.start fields)).map fun indexes =>
        { s with indexes := indexes }.setRepair
          { r with stage := .checkpointing s.indexes.runs.length }
    else none
  | .checkpointed =>
    match r.stage with
    | .checkpointing run =>
      match s.indexes.runs[run]? with
      | some ⟨_, [], _, .ended⟩ => some (s.setRepair { r with stage := .recording })
      | _ => none
    | _ => none
  | .record now =>
    if r.stage = .recording then
      if s.rejected.isEmpty then some (s.setRepair { r with stage := .clearing })
      else
        let gap := p.gaps.rejectedGap now s.rejected
        some ({ s with
          rejected := RejectedField.empty
          gap := some (merged p.gaps.cap s.gap gap) }.setRepair
            { r with stage := .clearing, recorded := gap :: r.recorded })
    else none
  | .clear =>
    if r.stage = .clearing then some ({ s with gap := none }.setRepair { r with stage := .returned })
    else none
  | .fail =>
    if r.running then some (s.setRepair { r with stage := .failed, reading := none }) else none
  | _ => none

/-- The values that have been given rows, after a step of the checkpoints. -/
def noteValue (values : List V) : IndexCheckpoint.Act F V (List ℕ) → List V
  | .gain _ _ v _ | .lose _ _ v _ => v :: values
  | _ => values

/-- One step. -/
def step (s : State F V D) : Act F V D → Option (State F V D)
  | .index a =>
    if a.isChange && s.repair.isSome then none
    else
      (IndexCheckpoint.step s.indexes a).map fun indexes =>
        { s with indexes := indexes, values := noteValue s.values a }
  | .write key value =>
    if s.free key then
      let store := match value with
        | some value => s.store.insert key value
        | none => s.store.erase key
      some { s with
        store := store
        writers := (key, s.store.lookup key) :: s.writers
        repair := s.repair.map fun r => { r with written := key :: r.written } }
    else none
  | .updateIndex key readable =>
    match s.writers.find? fun w => decide (w.1 = key) with
    | some (_, old) =>
      let s := s.indexWrite p key old readable
      some { s with writers := s.writers.filter fun w => decide (w.1 ≠ key) }
    | none => none
  | .detect gap => some { s with recorders := s.recorders ++ [Recorder.mk gap none] }
  | .drainRejected now =>
    if s.rejected.isEmpty then none
    else
      some { s with
        rejected := RejectedField.empty
        recorders := s.recorders ++ [Recorder.mk (p.gaps.rejectedGap now s.rejected) none] }
  | .readGap j =>
    match s.recorders[j]? with
    | some ⟨gap, none⟩ =>
      some { s with recorders := s.recorders.set j (Recorder.mk gap (some s.gap)) }
    | _ => none
  | .writeGap j =>
    match s.recorders[j]? with
    | some ⟨gap, some existing⟩ =>
      some { s with
        recorders := s.recorders.eraseIdx j
        gap := some (merged p.gaps.cap existing gap)
        repair := s.repair.map fun r =>
          if r.running then { r with recorded := gap :: r.recorded } else r }
    | _ => none
  | .repair =>
    if s.repair.any Repair.running then none
    else
      s.gap.bind fun gap =>
        let r : Repair D :=
          { full := false, worklist := [], stage := .keys, todo := [], reading := none, listed := [],
            written := s.writers.map Prod.fst, recorded := [] }
        match gap.repair with
        | .rowScoped keys =>
          match keys.mapM hexToBytes with
          | some keys => some (s.setRepair { r with worklist := keys, todo := keys })
          | none => some (s.setRepair { r with stage := .failed })
        | .fullRebuild => some (s.setRepair { r with full := true, stage := .listing })
  | a => s.repair.bind fun r => stepRepair p s r a

/-! ### What is to hold -/

/-- The index has the key under what the store has for it. -/
def Agrees (s : State F V D) (key : WalGc.Key) : Prop :=
  ∀ v, (∃ row, s.rowOf key = some row ∧ row ∈ rowsOf s.indexes p.field v) ↔
    s.target p key = some v

/-- The checkpoints are safe; no gap of the field is recorded while the repair runs, not even by
its own checkpoint. -/
def undisturbed (s : State F V D) : Act F V D → Bool
  | .index a => calm s.indexes a && alone s.indexes a
  | .updateIndex key readable =>
    match s.writers.find? fun w => decide (w.1 = key), (s.withRow key).rowOf key with
    | some (_, old), some row =>
      calmChange p.rejects p.field row (s.writeChange p old readable (s.store.lookup key)) s.indexes
    | _, _ => true
  | .reindex =>
    match s.repair.bind Repair.reading with
    | some (key, value) =>
      ((s.withRow key).rowOf key).all fun row =>
        calmChange p.rejects p.field row ⟨s.values, value.bind p.extract⟩ s.indexes
    | none => true
  | .writeGap _ => !s.repair.any Repair.running
  | .record _ => s.rejected.isEmpty
  | _ => true

end Step

/-! ### Rows and keys -/

section Rows

variable {s : State F V D} {key other : WalGc.Key} {row : ℕ}

theorem rowOf_eq_some_iff : s.rowOf key = some row ↔ key ∈ s.rows ∧ s.rows.idxOf key = row := by
  rw [State.rowOf, ite_none_right_eq_some, some_inj, List.contains_iff_mem]

/-- **A row is of one key.** -/
theorem keyForRow_of_rowOf (h : s.rowOf key = some row) : s.keyForRow row = some key := by
  obtain ⟨hmem, rfl⟩ := rowOf_eq_some_iff.mp h
  rw [State.keyForRow]
  exact List.getElem?_eq_some_iff.mpr ⟨List.idxOf_lt_length_of_mem hmem, List.getElem_idxOf _⟩

theorem rowOf_inj (h : s.rowOf key = some row) (h' : s.rowOf other = some row) : key = other :=
  some.inj ((keyForRow_of_rowOf h).symm.trans (keyForRow_of_rowOf h'))

/-- A row that is allocated is new to all other keys. -/
theorem rowOf_alloc_of_ne (hne : other ≠ key) : (s.alloc key).rowOf other = s.rowOf other := by
  rw [State.alloc]
  split_ifs with hmem
  · rfl
  · rw [State.rowOf, State.rowOf]
    simp only [List.contains_iff_mem, List.mem_append, mem_singleton, hne, or_false]
    by_cases hother : other ∈ s.rows
    · rw [if_pos hother, if_pos hother, List.idxOf_append_of_mem hother]
    · rw [if_neg hother, if_neg hother]

theorem rowOf_alloc_self : ∃ row, (s.alloc key).rowOf key = some row := by
  have hmem : key ∈ (s.alloc key).rows := by
    rw [State.alloc]
    split_ifs with hmem
    · exact List.contains_iff_mem.mp hmem
    · exact mem_append_right _ (List.mem_singleton_self _)
  exact ⟨_, rowOf_eq_some_iff.mpr ⟨hmem, rfl⟩⟩

theorem rowOf_withRow_of_ne (hne : other ≠ key) : (s.withRow key).rowOf other = s.rowOf other := by
  rw [State.withRow]
  split_ifs
  · exact rowOf_alloc_of_ne hne
  · rfl

/-- Only the row map changes. -/
theorem withRow_frame (s : State F V D) (key : WalGc.Key) : (s.withRow key).indexes = s.indexes ∧
    (s.withRow key).values = s.values ∧ (s.withRow key).store = s.store ∧
      (s.withRow key).writers = s.writers ∧ (s.withRow key).repair = s.repair ∧
        (s.withRow key).rejected = s.rejected ∧ (s.withRow key).gap = s.gap := by
  rw [State.withRow, State.alloc]
  split_ifs <;> exact ⟨rfl, rfl, rfl, rfl, rfl, rfl, rfl⟩

end Rows

/-! ### Keys that stay as they are -/

section Steady

variable [DecidableEq F] [DecidableEq V] {p : Params F V D} {s t : State F V D} {key : WalGc.Key} {n : ℕ}

/-- From the change `n` on the row of the key has been filed under what the store has for it. -/
def Steady (p : Params F V D) (s : State F V D) (n : ℕ) (key : WalGc.Key) : Prop :=
  match s.rowOf key with
  | none => s.target p key = none
  | some row => ∀ j, n ≤ j → j ≤ s.indexes.log.length → ∀ v,
      FiledAt (s.indexes.log.take j) p.field row v ↔ s.target p key = some v

/-- The key is in order. -/
def InOrder (p : Params F V D) (s : State F V D) (key : WalGc.Key) : Prop :=
  ∃ n ≤ s.indexes.log.length, Steady p s n key

/-- What happens between two states does not concern the key. -/
structure Apart (p : Params F V D) (s t : State F V D) (key : WalGc.Key) : Prop where
  lookup : t.store.lookup key = s.store.lookup key
  rowOf : t.rowOf key = s.rowOf key
  longer : s.indexes.log.length ≤ t.indexes.log.length
  log : ∀ row, s.rowOf key = some row → ∃ l, t.indexes.log = s.indexes.log ++ l ∧
    ∀ j ≤ l.length, ∀ v, FiledAt (s.indexes.log ++ l.take j) p.field row v ↔
      FiledAt s.indexes.log p.field row v

theorem Apart.target (h : Apart p s t key) : t.target p key = s.target p key := by
  rw [State.target, State.target, h.lookup]

/-- A step that leaves the changes, the row map and the store. -/
theorem Apart.ofSame (hlog : t.indexes.log = s.indexes.log) (hrows : t.rows = s.rows)
    (hlookup : t.store.lookup key = s.store.lookup key) : Apart p s t key := by
  refine ⟨hlookup, by rw [State.rowOf, State.rowOf, hrows], Nat.le_of_eq (by rw [hlog]),
    fun row _ => ⟨[], by rw [hlog, append_nil], fun j hj v => ?_⟩⟩
  rw [take_nil, append_nil]

/-- The row of another key moves. -/
theorem Apart.ofMoves (hmoves : Moves p.field row s.indexes t.indexes)
    (hne : s.rowOf key ≠ some row) (hrowOf : t.rowOf key = s.rowOf key) (hstore : t.store = s.store) :
    Apart p s t key := by
  obtain ⟨l, hl, hother⟩ := hmoves.log
  refine ⟨by rw [hstore], hrowOf, ?_, fun other hrow => ⟨l, hl, hother other ?_⟩⟩
  · rw [hl, length_append]
    exact Nat.le_add_right _ _
  · rintro rfl
    exact hne hrow

theorem Steady.apart (h : Steady p s n key) (hn : n ≤ s.indexes.log.length) (ha : Apart p s t key) :
    Steady p t n key := by
  rw [Steady] at h ⊢
  rw [ha.rowOf, ha.target]
  cases hrow : s.rowOf key with
  | none =>
    rw [hrow] at h
    exact h
  | some row =>
    rw [hrow] at h
    obtain ⟨l, hl, hsame⟩ := ha.log row hrow
    intro j hnj hj v
    rw [hl] at hj ⊢
    by_cases hle : j ≤ s.indexes.log.length
    · rw [List.take_append_of_le_length hle]
      exact h j hnj hle v
    · -- the row has not moved since
      have hnow := h s.indexes.log.length hn (Nat.le_refl _) v
      rw [take_length] at hnow
      rw [length_append] at hj
      rw [List.take_append, List.take_of_length_le (by omega),
        hsame (j - s.indexes.log.length) (by omega) v]
      exact hnow

theorem Steady.mono (h : Steady p s n key) {m : ℕ} (hm : n ≤ m) : Steady p s m key := by
  rw [Steady] at h ⊢
  cases hrow : s.rowOf key with
  | none =>
    rw [hrow] at h
    exact h
  | some row =>
    rw [hrow] at h
    exact fun j hj => h j (hm.trans hj)

theorem InOrder.apart (h : InOrder p s key) (ha : Apart p s t key) : InOrder p t key := by
  obtain ⟨n, hn, hsteady⟩ := h
  exact ⟨n, hn.trans ha.longer, hsteady.apart hn ha⟩

/-- A key that is in order now. -/
theorem InOrder.now (h : match s.rowOf key with
    | none => s.target p key = none
    | some row => ∀ v, FiledAt s.indexes.log p.field row v ↔ s.target p key = some v) :
    InOrder p s key := by
  refine ⟨s.indexes.log.length, Nat.le_refl _, ?_⟩
  rw [Steady]
  cases hrow : s.rowOf key with
  | none =>
    rw [hrow] at h
    exact h
  | some row =>
    rw [hrow] at h
    intro j hn hj v
    rw [Nat.le_antisymm hj hn, take_length]
    exact h v

end Steady

/-! ### The invariant -/

section Invariant

variable [DecidableEq F] [DecidableEq V] (p : Params F V D)

/-- The repair's own checkpoint has the keys of the repair as they are. -/
def Checkpointed (s : State F V D) (r : Repair D) (run : IndexCheckpoint.Run F V) : Prop :=
  run.ceiling.changes ≤ s.indexes.log.length ∧ ∀ key, r.InScope key → key ∉ r.written →
    Steady p s run.ceiling.changes key

/-- How far a repair has got. -/
inductive Progress (s : State F V D) (r : Repair D) : Prop
  | listing (hstage : r.stage = .listing) (hfull : r.full = true)
  | keys (hstage : r.stage = .keys)
    (hvisited : ∀ key, key ∉ r.written → (if r.full then key ∈ r.listed else key ∈ r.worklist) →
      key ∈ r.todo ∨ InOrder p s key)
    (hlisted : r.full = true → (∀ key ∈ r.todo, key ∈ r.listed) ∧
      ∀ key, key ∉ r.written → key ∉ r.listed → s.store.lookup key = none)
  | orphans (hstage : r.stage = .orphans) (hfull : r.full = true)
    (hvisited : ∀ key, key ∉ r.written → key ∈ r.todo ∨ InOrder p s key)
  | checkpointing {i : ℕ} {run : IndexCheckpoint.Run F V} (hstage : r.stage = .checkpointing i)
    (hrun : s.indexes.runs[i]? = some run) (hfield : p.field ∈ run.todo ∨ p.field ∈ run.done)
    (hchecked : Checkpointed p s r run)
  | durable {i : ℕ} {run : IndexCheckpoint.Run F V}
    (hstage : r.stage = .recording ∨ r.stage = .clearing ∨ r.stage = .returned)
    (hrun : s.indexes.runs[i]? = some run) (hfield : p.field ∈ run.done)
    (hchecked : Checkpointed p s r run)
  | failed (hstage : r.stage = .failed)

structure RepairOk (s : State F V D) (r : Repair D) : Prop where
  writers : ∀ key ∈ s.writers.map Prod.fst, key ∈ r.written
  recorded : r.recorded = []
  reading : ∀ key value, r.reading = some (key, value) → value = s.store.lookup key ∧
    key ∉ s.writers.map Prod.fst ∧ r.todo.head? = some key ∧ (r.stage = .keys ∨ r.stage = .orphans)
  progress : Progress p s r

/-- **The invariant.** -/
structure RepairInv (s : State F V D) : Prop where
  indexes : Inv s.indexes
  known : ∀ v row, FiledAt s.indexes.log p.field row v → v ∈ s.values
  repair : ∀ r, s.repair = some r → RepairOk p s r

end Invariant

variable {a : IndexCheckpoint.Act F V (List ℕ)} {indexes : Indexes F V} {stage : Stage}

section Steps

variable [DecidableEq F] [DecidableEq V] {p : Params F V D} {s t : State F V D} {r : Repair D}

/-- The runs of the checkpoint go on. -/
def RunsFollow (s t : Indexes F V) : Prop :=
  ∀ (i : ℕ) (run : IndexCheckpoint.Run F V), s.runs[i]? = some run →
    ∃ run', t.runs[i]? = some run' ∧ run.Follows run'

omit [DecidableEq F] [DecidableEq V] in
theorem RunsFollow.ofSame {s t : Indexes F V} (h : t.runs = s.runs) : RunsFollow s t :=
  fun _ run hi => ⟨run, by rw [h]; exact hi, rfl, fun _ h => h, fun _ h => h⟩

/-- A step that is none of the repair's. -/
theorem Progress.onward (h : Progress p s r) {written : List WalGc.Key}
    (hwritten : ∀ key, key ∉ written → key ∉ r.written)
    (hapart : ∀ key, key ∉ written → Apart p s t key) (hruns : RunsFollow s.indexes t.indexes)
    (hlonger : s.indexes.log.length ≤ t.indexes.log.length) :
    Progress p t { r with written := written } := by
  have hchecked : ∀ {run run' : IndexCheckpoint.Run F V}, run.Follows run' →
      Checkpointed p s r run →
      Checkpointed p t { r with written := written } run' := by
    rintro run run' hfollows ⟨hn, hsteady⟩
    rw [Checkpointed, hfollows.changes]
    exact ⟨hn.trans hlonger, fun key hscope hkey =>
      (hsteady key hscope (hwritten key hkey)).apart hn (hapart key hkey)⟩
  cases h with
  | listing hstage hfull => exact .listing hstage hfull
  | keys hstage hvisited hlisted =>
    refine .keys hstage (fun key hkey hin => ?_) fun hfull => ⟨(hlisted hfull).1, fun key hkey hnot => ?_⟩
    · exact (hvisited key (hwritten key hkey) hin).imp_right fun h => h.apart (hapart key hkey)
    · rw [(hapart key hkey).lookup]
      exact (hlisted hfull).2 key (hwritten key hkey) hnot
  | orphans hstage hfull hvisited =>
    refine .orphans hstage hfull fun key hkey => ?_
    exact (hvisited key (hwritten key hkey)).imp_right fun h => h.apart (hapart key hkey)
  | checkpointing hstage hrun hfield hold =>
    obtain ⟨run', hrun', hfollows⟩ := hruns _ _ hrun
    exact .checkpointing hstage hrun' (hfollows.fields _ hfield) (hchecked hfollows hold)
  | durable hstage hrun hfield hold =>
    obtain ⟨run', hrun', hfollows⟩ := hruns _ _ hrun
    exact .durable hstage hrun' (hfollows.done _ hfield) (hchecked hfollows hold)
  | failed hstage => exact .failed hstage

/-- A step of the others, with the keys it may write. -/
theorem RepairInv.others (h : RepairInv p s) (wrote : List WalGc.Key) (hindexes : Inv t.indexes)
    (hknown : ∀ v row, FiledAt t.indexes.log p.field row v → v ∈ t.values)
    (hrepair : t.repair = s.repair.map fun r => { r with written := wrote ++ r.written })
    (hwriters : ∀ key ∈ t.writers.map Prod.fst, key ∈ wrote ∨ key ∈ s.writers.map Prod.fst)
    (hfree : ∀ key ∈ wrote, s.free key = true)
    (hapart : ∀ key, key ∉ wrote → key ∉ s.writers.map Prod.fst → Apart p s t key)
    (hruns : RunsFollow s.indexes t.indexes)
    (hlonger : s.indexes.log.length ≤ t.indexes.log.length) : RepairInv p t := by
  refine ⟨hindexes, hknown, fun r' hr' => ?_⟩
  rw [hrepair] at hr'
  obtain ⟨r, hr, rfl⟩ := map_eq_some_iff.mp hr'
  have hok := h.repair r hr
  have hapart' : ∀ key, key ∉ wrote ++ r.written → Apart p s t key := by
    intro key hkey
    rw [List.mem_append, not_or] at hkey
    exact hapart key hkey.1 fun hmem => hkey.2 (hok.writers key hmem)
  refine ⟨fun key hkey => ?_, hok.recorded, fun key value hreading => ?_, ?_⟩
  · rcases hwriters key hkey with hnew | hold
    · exact List.mem_append_left _ hnew
    · exact mem_append_right _ (hok.writers key hold)
  · obtain ⟨hvalue, hwriter, hhead, hstage⟩ := hok.reading key value hreading
    have hnot : key ∉ wrote := by
      intro hmem
      have hlocked := hfree key hmem
      rw [State.free, hr, Bool.and_eq_true, any_some, hreading, any_some,
        decide_eq_true rfl] at hlocked
      cases hlocked.2
    refine ⟨?_, fun hmem => ?_, hhead, hstage⟩
    · rw [(hapart key hnot hwriter).lookup]
      exact hvalue
    · exact (hwriters key hmem).elim hnot hwriter
  · exact hok.progress.onward (fun key hkey hmem => hkey (mem_append_right _ hmem)) hapart'
      hruns hlonger

/-- A step of the others that writes nothing. -/
theorem RepairInv.aside (h : RepairInv p s) (hindexes : t.indexes = s.indexes)
    (hvalues : t.values = s.values) (hstore : t.store = s.store) (hrows : t.rows = s.rows)
    (hwriters : t.writers = s.writers) (hrepair : t.repair = s.repair) : RepairInv p t := by
  refine h.others [] (hindexes ▸ h.indexes) ?_ ?_ (fun key hkey => Or.inr (hwriters ▸ hkey))
    (fun key hkey => by cases hkey) (fun key _ _ => Apart.ofSame (by rw [hindexes]) hrows (by rw [hstore]))
    (RunsFollow.ofSame (by rw [hindexes])) (Nat.le_of_eq (by rw [hindexes]))
  · rw [hindexes, hvalues]
    exact h.known
  · rw [hrepair]
    cases s.repair <;> rfl

/-! ### Steps of the others -/

/-- What a change files is filed under a value that is noted. -/
theorem filedAt_of_change {u w : Indexes F V} (hst : IndexCheckpoint.step u a = some w)
    (ha : a.isChange = true) {f : F} {v : V} (hfiled : FiledAt w.log f row v) {values : List V} :
    FiledAt u.log f row v ∨ v ∈ noteValue values a := by
  have hconcat : ∀ c : Change F V (List ℕ), FiledAt (u.log ++ [c]) f row v →
      FiledAt u.log f row v ∨ v = c.value := by
    intro c hc
    rw [FiledAt, contentOf_concat] at hc
    split_ifs at hc with hf
    · rw [Function.update_apply] at hc
      split_ifs at hc with hv
      · exact Or.inr hv
      · exact Or.inl hc
    · exact Or.inl hc
  cases a with
  | gain wal g v' bitmap =>
    obtain ⟨-, rfl⟩ := ite_some_none_eq_some.mp hst
    exact (hconcat _ hfiled).imp_right fun heq => mem_cons.mpr (Or.inl heq)
  | lose wal g v' bitmap =>
    obtain ⟨-, hst⟩ := ite_none_right_eq_some.mp hst
    split_ifs at hst
    · obtain rfl := some.inj hst
      exact Or.inl hfiled
    · obtain rfl := some.inj hst
      exact (hconcat _ hfiled).imp_right fun heq => mem_cons.mpr (Or.inl heq)
  | _ => cases ha

/-- A step of the checkpoints. -/
theorem RepairInv.index (h : RepairInv p s) (hst : IndexCheckpoint.step s.indexes a = some indexes)
    (hcalm : calm s.indexes a = true) (halone : alone s.indexes a = true)
    (hchange : (a.isChange && s.repair.isSome) = false) :
    RepairInv p { s with indexes := indexes, values := noteValue s.values a } := by
  have hinv := h.indexes.step hcalm halone hst
  have hruns : RunsFollow s.indexes indexes := fun i run hi => follows_step hst hi
  cases ha : a.isChange with
  | false =>
    have hlog := log_step hst ha
    have hvalues : noteValue s.values a = s.values := by
      cases a with
      | gain | lose => cases ha
      | _ => rfl
    rw [hvalues]
    refine h.others [] hinv (fun v row hfiled => ?_) ?_ (fun key hkey => Or.inr hkey)
      (fun key hkey => by cases hkey) (fun key _ _ => Apart.ofSame hlog rfl rfl) hruns
      (Nat.le_of_eq (by rw [hlog]))
    · exact h.known v row (hlog ▸ hfiled)
    · cases s.repair <;> rfl
  | true =>
    rw [ha, Bool.true_and, isSome_eq_false_iff, isNone_iff_eq_none] at hchange
    refine ⟨hinv, fun v row hfiled => ?_, fun r hr => ?_⟩
    · rcases filedAt_of_change hst ha hfiled with hold | hnew
      · cases a with
        | gain | lose => exact List.mem_cons_of_mem _ (h.known v row hold)
        | _ => cases ha
      · exact hnew
    · change s.repair = some r at hr
      rw [hchange] at hr
      cases hr

/-- **A write** changes the store under the stripe of its key. -/
theorem RepairInv.write (h : RepairInv p s) (hfree : s.free key = true) (value : Option D) :
    RepairInv p { s with
      store := match value with
        | some value => s.store.insert key value
        | none => s.store.erase key
      writers := (key, s.store.lookup key) :: s.writers
      repair := s.repair.map fun r => { r with written := key :: r.written } } := by
  refine h.others [key] h.indexes h.known rfl (fun other hother => ?_) (fun other hother => ?_)
    (fun other hother _ => Apart.ofSame rfl rfl ?_) (RunsFollow.ofSame rfl) (Nat.le_refl _)
  · exact (mem_cons.mp hother).imp_left fun heq => mem_singleton.mpr heq
  · rw [mem_singleton.mp hother]
    exact hfree
  · have hne : other ≠ key := fun heq => hother (mem_singleton.mpr heq)
    cases value with
    | some value => exact AList.lookup_insert_ne hne
    | none => exact AList.lookup_erase_ne hne

/-- **An update of the row of a key.** It keeps what is known, and concerns no other key. -/
theorem RepairInv.changeRow (h : RepairInv p s) {c : RowChange V}
    (hrow : (s.withRow key).rowOf key = some row)
    (hcalm : calmChange p.rejects p.field row c s.indexes = true) :
    let t := ((s.withRow key).changeRow p row c).1
    Inv t.indexes ∧ (∀ v row, FiledAt t.indexes.log p.field row v → v ∈ t.values) ∧
      RunsFollow s.indexes t.indexes ∧ s.indexes.log.length ≤ t.indexes.log.length ∧
        ∀ other, other ≠ key → Apart p s t other := by
  obtain ⟨hindexes, hvalues, hstore, -⟩ := withRow_frame s key
  intro t
  have ht : t.indexes = (change p.rejects p.field row c s.indexes).1 := by
    rw [← hindexes]
    rfl
  obtain ⟨hinv, hmoves, hfiled⟩ := change_spec h.indexes hcalm
  rw [← ht] at hinv hmoves hfiled
  refine ⟨hinv, fun v row' hv => ?_, RunsFollow.ofSame hmoves.runs, ?_, fun other hne => ?_⟩
  · have htvalues : t.values = c.add.toList ++ s.values := by
      rw [← hvalues]
      rfl
    rw [htvalues]
    by_cases hsame : row' = row
    · rw [hsame] at hv
      rcases (hfiled v).mp hv with hold | hnew
      · exact mem_append_right _ (h.known v row hold.1)
      · refine List.mem_append_left _ ?_
        rw [hnew.1]
        exact List.mem_singleton_self v
    · obtain ⟨l, hl, hother⟩ := hmoves.log
      have hold := hother row' hsame l.length (Nat.le_refl _) v
      rw [take_length, ← hl] at hold
      exact mem_append_right _ (h.known v row' (hold.mp hv))
  · obtain ⟨l, hl, -⟩ := hmoves.log
    rw [hl, length_append]
    exact Nat.le_add_right _ _
  · refine Apart.ofMoves hmoves (fun hrow' => hne ?_) (rowOf_withRow_of_ne hne) hstore
    rw [← rowOf_withRow_of_ne hne] at hrow'
    exact rowOf_inj hrow' hrow

/-- A row is allocated. -/
theorem apart_withRow (s : State F V D) {other : WalGc.Key} (hne : other ≠ key) :
    Apart p s (s.withRow key) other := by
  obtain ⟨hindexes, -, hstore, -⟩ := withRow_frame s key
  refine ⟨by rw [hstore], rowOf_withRow_of_ne hne, Nat.le_of_eq (by rw [hindexes]),
    fun row _ => ⟨[], by rw [hindexes, append_nil], fun j hj v => ?_⟩⟩
  rw [take_nil, append_nil]

/-- **The index update of a write.** -/
theorem RepairInv.updateIndex (h : RepairInv p s) {old : Option D} {readable : Bool}
    (hmem : (key, old) ∈ s.writers)
    (hcalm : ∀ row, (s.withRow key).rowOf key = some row → calmChange p.rejects p.field row
      (s.writeChange p old readable (s.store.lookup key)) s.indexes = true) :
    RepairInv p { s.indexWrite p key old readable with
      writers := (s.indexWrite p key old readable).writers.filter fun w => decide (w.1 ≠ key) } := by
  obtain ⟨hindexes, hvalues, hstore, hwriters, hrepair, -⟩ := withRow_frame s key
  have hkey : key ∈ s.writers.map Prod.fst := mem_map.mpr ⟨_, hmem, rfl⟩
  have hnil : s.repair = s.repair.map fun r => { r with written := [] ++ r.written } := by
    cases s.repair <;> rfl
  have hfilter : ∀ other, other ∈ (s.writers.filter fun w => decide (w.1 ≠ key)).map Prod.fst →
      other ∈ s.writers.map Prod.fst := by
    intro other hother
    obtain ⟨w, hw, rfl⟩ := mem_map.mp hother
    exact mem_map.mpr ⟨w, (mem_filter.mp hw).1, rfl⟩
  have hother : ∀ other, other ∉ s.writers.map Prod.fst → other ≠ key := by
    rintro other hnot rfl
    exact hnot hkey
  cases hrow : (s.withRow key).rowOf key with
  | none =>
    have heq : s.indexWrite p key old readable = s.withRow key := by
      rw [State.indexWrite, hrow]
    rw [heq]
    refine h.others [] (hindexes ▸ h.indexes) ?_ (hrepair.trans hnil)
      (fun other hmem => Or.inr (hfilter other (hwriters ▸ hmem))) (fun other hmem => by cases hmem)
      (fun other _ hnot => ?_) (RunsFollow.ofSame (by rw [hindexes]))
      (Nat.le_of_eq (by rw [hindexes]))
    · change ∀ v row, FiledAt (s.withRow key).indexes.log p.field row v → v ∈ (s.withRow key).values
      rw [hindexes, hvalues]
      exact h.known
    · have ha := apart_withRow (p := p) s (hother other hnot)
      exact ⟨ha.lookup, ha.rowOf, ha.longer, ha.log⟩
  | some row =>
    set c := s.writeChange p old readable (s.store.lookup key) with hc
    obtain ⟨hinv, hknown, hruns, hlonger, hapart⟩ := h.changeRow hrow (hcalm row hrow)
    -- a rejection is noted in the buffer and changes nothing else
    have hframe : ∃ rejected, s.indexWrite p key old readable =
        { ((s.withRow key).changeRow p row c).1 with rejected := rejected } := by
      rw [State.indexWrite, hrow]
      dsimp only
      rw [← hc]
      cases hok : ((s.withRow key).changeRow p row c).2 with
      | true => exact ⟨((s.withRow key).changeRow p row c).1.rejected, by rw [if_pos rfl]⟩
      | false => exact ⟨_, by rw [if_neg Bool.false_ne_true]⟩
    obtain ⟨rejected, heq⟩ := hframe
    rw [heq]
    refine h.others [] hinv hknown (hrepair.trans hnil)
      (fun other hmem => Or.inr (hfilter other (hwriters ▸ hmem))) (fun other hmem => by cases hmem)
      (fun other _ hnot => ?_) hruns hlonger
    have ha := hapart other (hother other hnot)
    exact ⟨ha.lookup, ha.rowOf, ha.longer, ha.log⟩

/-! ### Steps of the repair -/

/-- What has been reached is reached in a state that has the same for all keys. -/
theorem RepairOk.ofSame (h : RepairOk p s r) (hindexes : t.indexes = s.indexes)
    (hstore : t.store = s.store) (hrows : t.rows = s.rows) (hwriters : t.writers = s.writers) :
    RepairOk p t r := by
  have hprogress : Progress p t { r with written := r.written } :=
    h.progress.onward (fun _ hkey => hkey)
      (fun _ _ => Apart.ofSame (by rw [hindexes]) hrows (by rw [hstore]))
      (RunsFollow.ofSame (by rw [hindexes])) (Nat.le_of_eq (by rw [hindexes]))
  refine ⟨hwriters ▸ h.writers, h.recorded, ?_, hprogress⟩
  rw [hwriters, hstore]
  exact h.reading

theorem RepairInv.setRepair (h : RepairInv p s) (hok : RepairOk p s r) :
    RepairInv p (s.setRepair r) := by
  refine ⟨h.indexes, h.known, fun r' hr' => ?_⟩
  obtain rfl := some.inj hr'
  exact hok.ofSame rfl rfl rfl rfl

/-- A repair that holds no stripe. -/
theorem RepairOk.idle {r' : Repair D} (h : RepairOk p s r) (hwritten : r'.written = r.written)
    (hrecorded : r'.recorded = r.recorded) (hreading : r'.reading = none)
    (hprogress : Progress p s r') : RepairOk p s r' := by
  refine ⟨hwritten ▸ h.writers, hrecorded.trans h.recorded, fun key value hr => ?_, hprogress⟩
  rw [hreading] at hr
  cases hr

/-- A stripe is held at a visit only. -/
theorem RepairOk.reading_eq_none (h : RepairOk p s r)
    (hidle : r.stage ≠ .keys ∧ r.stage ≠ .orphans ∨ r.todo = []) : r.reading = none := by
  cases hreading : r.reading with
  | none => rfl
  | some k =>
    obtain ⟨key, value⟩ := k
    obtain ⟨-, -, hhead, hstage⟩ := h.reading key value hreading
    rcases hidle with hnot | hnil
    · exact (hstage.elim hnot.1 hnot.2).elim
    · rw [hnil] at hhead
      cases hhead

/-- **The keys are listed.** -/
theorem RepairInv.listKeys (h : RepairInv p s) (hr : s.repair = some r)
    (hstage : r.stage = .listing) :
    RepairInv p (s.setRepair { r with
      stage := .keys, todo := s.store.keys, listed := s.store.keys }) := by
  have hok := h.repair r hr
  have hidle := hok.reading_eq_none (Or.inl (by rw [hstage]; exact ⟨by nofun, by nofun⟩))
  have hfull : r.full = true := by
    cases hok.progress with
    | listing _ hfull => exact hfull
    | keys h' | orphans h' | checkpointing h' | failed h' => rw [hstage] at h'; cases h'
    | durable h' => rw [hstage] at h'; rcases h' with h' | h' | h' <;> cases h'
  refine h.setRepair (hok.idle rfl rfl hidle (.keys rfl (fun key _ hin => Or.inl ?_)
    fun _ => ⟨fun _ hkey => hkey, fun key _ hnot => AList.lookup_eq_none.mpr hnot⟩))
  rw [if_pos hfull] at hin
  exact hin

/-- **The stripe of a key is taken** and its value is read. -/
theorem RepairInv.read (h : RepairInv p s) (hr : s.repair = some r) {rest : List WalGc.Key}
    (hstage : r.stage = .keys ∨ r.stage = .orphans) (htodo : r.todo = key :: rest)
    (hfree : s.free key = true) :
    RepairInv p (s.setRepair { r with reading := some (key, s.store.lookup key) }) := by
  have hok := h.repair r hr
  refine h.setRepair ⟨hok.writers, hok.recorded, fun key' value hread => ?_, ?_⟩
  · obtain ⟨rfl, rfl⟩ := Prod.mk.inj (some.inj hread)
    refine ⟨rfl, fun hmem => ?_, by rw [htodo]; rfl, hstage⟩
    rw [State.free, Bool.and_eq_true, Bool.not_eq_true', List.contains_eq_mem,
      decide_eq_false_iff_not] at hfree
    exact hfree.1 hmem
  · cases hok.progress with
    | listing hstage hfull => exact .listing hstage hfull
    | keys hstage hvisited hlisted => exact .keys hstage hvisited hlisted
    | orphans hstage hfull hvisited => exact .orphans hstage hfull hvisited
    | checkpointing hstage hrun hfield hchecked => exact .checkpointing hstage hrun hfield hchecked
    | durable hstage hrun hfield hchecked => exact .durable hstage hrun hfield hchecked
    | failed hstage => exact .failed hstage

/-- **A visit** puts its key in order unless the value is rejected. -/
theorem RepairInv.reindexKey (h : RepairInv p s)
    (hcalm : ∀ row, (s.withRow key).rowOf key = some row → calmChange p.rejects p.field row
      ⟨s.values, s.target p key⟩ s.indexes = true) :
    let t := (s.reindexKey p key (s.store.lookup key)).1
    Inv t.indexes ∧ (∀ v row, FiledAt t.indexes.log p.field row v → v ∈ t.values) ∧
      RunsFollow s.indexes t.indexes ∧ s.indexes.log.length ≤ t.indexes.log.length ∧
        (∀ other, other ≠ key → Apart p s t other) ∧ t.writers = s.writers ∧
          ((s.reindexKey p key (s.store.lookup key)).2 = true → InOrder p t key) := by
  obtain ⟨hindexes, hvalues, hstore, hwriters, -⟩ := withRow_frame s key
  intro t
  cases hrow : (s.withRow key).rowOf key with
  | none =>
    -- the key has no value, and never had a row
    have hlookup : s.store.lookup key = none := by
      by_contra hsome
      obtain ⟨row, hnew⟩ : ∃ row, (s.alloc key).rowOf key = some row := rowOf_alloc_self
      rw [State.withRow, if_pos (isSome_iff_ne_none.mpr hsome), hnew] at hrow
      cases hrow
    have hsame : s.withRow key = s := by
      rw [State.withRow, hlookup]
      rfl
    have ht : t = s := by
      change (s.reindexKey p key _).1 = s
      rw [State.reindexKey, hrow]
      exact hsame
    rw [ht]
    rw [hsame] at hrow
    refine ⟨h.indexes, h.known, RunsFollow.ofSame rfl, Nat.le_refl _,
      fun other _ => Apart.ofSame rfl rfl rfl, rfl, fun _ => InOrder.now ?_⟩
    rw [hrow]
    change s.target p key = none
    rw [State.target, hlookup]
    rfl
  | some row =>
    set c : RowChange V := ⟨s.values, s.target p key⟩ with hc
    obtain ⟨hinv, hknown, hruns, hlonger, hapart⟩ := h.changeRow hrow (hcalm row hrow)
    have ht : s.reindexKey p key (s.store.lookup key) = (s.withRow key).changeRow p row c := by
      rw [State.reindexKey, hrow]
      rfl
    have ht' : t = ((s.withRow key).changeRow p row c).1 := congrArg Prod.fst ht
    rw [ht', ht]
    refine ⟨hinv, hknown, hruns, hlonger, hapart, hwriters, fun hok => InOrder.now ?_⟩
    have hrow' : ((s.withRow key).changeRow p row c).1.rowOf key = some row := hrow
    have htarget : ((s.withRow key).changeRow p row c).1.target p key = s.target p key := by
      rw [State.target, State.target, ← hstore]
      rfl
    rw [hrow']
    dsimp only
    intro v
    have hlog : ((s.withRow key).changeRow p row c).1.indexes =
        (change p.rejects p.field row c s.indexes).1 := by
      rw [← hindexes]
      rfl
    have hok' : (change p.rejects p.field row c s.indexes).2 = true := by
      rw [← hindexes]
      exact hok
    rw [htarget, hlog, (change_spec h.indexes (hcalm row hrow)).2.2 v, hok', hc]
    refine ⟨fun hv => hv.elim (fun hold => absurd (h.known v row hold.1) hold.2) And.left,
      fun hv => Or.inr ⟨hv, rfl⟩⟩

/-- What a repair is left to do after a visit. -/
theorem Progress.visited (h : Progress p s r) (hhead : r.todo.head? = some key)
    (hstage : r.stage = .keys ∨ r.stage = .orphans)
    (hapart : ∀ other, other ≠ key → Apart p s t other) (hkey : InOrder p t key) :
    Progress p t { r with
      reading := none
      todo := r.todo.tail
      written := r.written.filter fun k => decide (k ≠ key) } := by
  obtain ⟨rest, hrest⟩ := List.head?_eq_some_iff.mp hhead
  have hwritten : ∀ k, k ≠ key → k ∉ (r.written.filter fun k => decide (k ≠ key)) →
      k ∉ r.written := by
    intro k hne hnot hmem
    exact hnot (mem_filter.mpr ⟨hmem, decide_eq_true hne⟩)
  have htail : ∀ k, k ≠ key → k ∈ r.todo → k ∈ r.todo.tail := by
    intro k hne hmem
    rw [hrest] at hmem ⊢
    exact (mem_cons.mp hmem).resolve_left hne
  cases h with
  | keys hkeys hvisited hlisted =>
    refine .keys hkeys (fun k hk hin => ?_) fun hfull => ⟨fun k hk => ?_, fun k hk hnot => ?_⟩
    · by_cases hne : k = key
      · exact Or.inr (hne ▸ hkey)
      · exact (hvisited k (hwritten k hne hk) hin).imp (htail k hne)
          fun hold => hold.apart (hapart k hne)
    · exact (hlisted hfull).1 k (List.mem_of_mem_tail hk)
    · have hne : k ≠ key := by
        rintro rfl
        exact hnot ((hlisted hfull).1 k (by rw [hrest]; exact List.mem_cons_self))
      rw [(hapart k hne).lookup]
      exact (hlisted hfull).2 k (hwritten k hne hk) hnot
  | orphans horphans hfull hvisited =>
    refine .orphans horphans hfull fun k hk => ?_
    by_cases hne : k = key
    · exact Or.inr (hne ▸ hkey)
    · exact (hvisited k (hwritten k hne hk)).imp (htail k hne) fun hold => hold.apart (hapart k hne)
  | listing hother | checkpointing hother | failed hother =>
    rw [hother] at hstage
    rcases hstage with hstage | hstage <;> cases hstage
  | durable hother =>
    exfalso
    rcases hother with hother | hother | hother <;> rw [hother] at hstage <;>
      rcases hstage with hstage | hstage <;> cases hstage

/-- **A key is reindexed** and its stripe released. -/
theorem RepairInv.reindex (h : RepairInv p s) (hr : s.repair = some r) {value : Option D}
    (hreading : r.reading = some (key, value))
    (hcalm : ∀ row, (s.withRow key).rowOf key = some row → calmChange p.rejects p.field row
      ⟨s.values, value.bind p.extract⟩ s.indexes = true) :
    RepairInv p ((s.reindexKey p key value).1.setRepair
      (if (s.reindexKey p key value).2 then { r with
        reading := none
        todo := r.todo.tail
        written := r.written.filter fun k => decide (k ≠ key) }
      else { r with reading := none, stage := .failed })) := by
  have hok := h.repair r hr
  obtain ⟨rfl, hwriter, hhead, hstage⟩ := hok.reading key value hreading
  obtain ⟨hinv, hknown, -, -, hapart, hwriters, horder⟩ := h.reindexKey hcalm
  have hwritten : ∀ k ∈ (s.reindexKey p key (s.store.lookup key)).1.writers.map Prod.fst,
      k ∈ r.written ∧ k ≠ key := by
    intro k hk
    rw [hwriters] at hk
    exact ⟨hok.writers k hk, fun heq => hwriter (heq ▸ hk)⟩
  refine ⟨hinv, hknown, fun r' hr' => ?_⟩
  obtain rfl := some.inj hr'
  suffices hnew : RepairOk p (s.reindexKey p key (s.store.lookup key)).1 _ from
    hnew.ofSame rfl rfl rfl rfl
  split_ifs with hdone
  · refine ⟨fun k hk => ?_, hok.recorded, fun k v hread => ?_,
      hok.progress.visited hhead hstage hapart (horder hdone)⟩
    · exact mem_filter.mpr ⟨(hwritten k hk).1, decide_eq_true (hwritten k hk).2⟩
    · cases hread
  · exact ⟨fun k hk => (hwritten k hk).1, hok.recorded, fun k v hread => (by cases hread),
      .failed rfl⟩

/-- **The rows that no key accounts for.** A key that was not listed and is not in order has one of
them. -/
theorem RepairInv.listOrphans (h : RepairInv p s) (hr : s.repair = some r)
    (hstage : r.stage = .keys) (hfull : r.full = true) (htodo : r.todo = []) :
    RepairInv p (s.setRepair { r with
      stage := .orphans, todo := (s.orphanRows p r.listed).filterMap s.keyForRow }) := by
  have hok := h.repair r hr
  have hidle := hok.reading_eq_none (Or.inr htodo)
  obtain ⟨hvisited, hlisted⟩ : (∀ key, key ∉ r.written → key ∈ r.listed → InOrder p s key) ∧
      ∀ key, key ∉ r.written → key ∉ r.listed → s.store.lookup key = none := by
    cases hok.progress with
    | keys _ hvisited hlisted =>
      refine ⟨fun key hkey hin => (hvisited key hkey ?_).resolve_left ?_, (hlisted hfull).2⟩
      · rwa [if_pos hfull]
      · rw [htodo]
        exact not_mem_nil
    | listing h' | orphans h' | checkpointing h' | failed h' => rw [hstage] at h'; cases h'
    | durable h' => rw [hstage] at h'; rcases h' with h' | h' | h' <;> cases h'
  refine h.setRepair (hok.idle rfl rfl hidle (.orphans rfl hfull fun key hkey => ?_))
  by_cases hin : key ∈ r.listed
  · exact Or.inr (hvisited key hkey hin)
  have htarget : s.target p key = none := by
    rw [State.target, hlisted key hkey hin]
    rfl
  cases hrow : s.rowOf key with
  | none =>
    refine Or.inr (InOrder.now ?_)
    rw [hrow]
    exact htarget
  | some row =>
    by_cases hfiled : ∃ v, FiledAt s.indexes.log p.field row v
    · obtain ⟨v, hv⟩ := hfiled
      refine Or.inl (List.mem_filterMap.mpr ⟨row, ?_, keyForRow_of_rowOf hrow⟩)
      rw [State.orphanRows, mem_sortDedup, mem_filter, Bool.not_eq_true', List.any_eq_false]
      refine ⟨List.mem_flatMap.mpr ⟨v, h.known v row hv, (mem_rowsOf_iff h.indexes v).mpr hv⟩,
        fun other hother hsame => hin ?_⟩
      rw [rowOf_inj hrow (of_decide_eq_true hsame)]
      exact hother
    · refine Or.inr (InOrder.now ?_)
      rw [hrow, htarget]
      exact fun v => ⟨fun hv => absurd ⟨v, hv⟩ hfiled, fun hv => (by cases hv)⟩

/-- **The repair's checkpoint is started.** All keys of the repair are in order then. -/
theorem RepairInv.checkpoint (h : RepairInv p s) (hr : s.repair = some r) {fields : List F}
    (hstage : r.stage = .keys ∧ r.full = false ∨ r.stage = .orphans) (htodo : r.todo = [])
    (hfield : p.field ∈ fields)
    (hst : IndexCheckpoint.step s.indexes (.start fields) = some indexes) :
    RepairInv p ({ s with indexes := indexes }.setRepair
      { r with stage := .checkpointing s.indexes.runs.length }) := by
  have hok := h.repair r hr
  have hidle := hok.reading_eq_none (Or.inr htodo)
  have horder : ∀ key, r.InScope key → key ∉ r.written → InOrder p s key := by
    intro key hscope hkey
    have hdone : key ∈ r.todo ∨ InOrder p s key := by
      cases hok.progress with
      | keys h' hvisited =>
        rcases hstage with ⟨-, hfull⟩ | hother
        · refine hvisited key hkey ?_
          rw [hfull, if_neg Bool.false_ne_true]
          exact hscope.resolve_left fun h'' => by rw [hfull] at h''; cases h''
        · rw [hother] at h'
          cases h'
      | orphans h' _ hvisited => exact hvisited key hkey
      | listing h' | checkpointing h' | failed h' =>
        rw [h'] at hstage
        rcases hstage with ⟨hstage, -⟩ | hstage <;> cases hstage
      | durable h' =>
        exfalso
        rcases h' with h' | h' | h' <;> rw [h'] at hstage <;>
          rcases hstage with ⟨hstage, -⟩ | hstage <;> cases hstage
    refine hdone.resolve_left ?_
    rw [htodo]
    exact not_mem_nil
  have hinv := h.indexes.step rfl rfl hst
  obtain rfl := some.inj hst
  have hmid : RepairInv p { s with indexes := { s.indexes with
      runs := s.indexes.runs ++ [⟨⟨0, s.indexes.log.length⟩, fields, [], .reading s.indexes.tail⟩] } } := by
    refine h.others [] hinv h.known ?_ (fun key hkey => Or.inr hkey) (fun key hkey => by cases hkey)
      (fun key _ _ => Apart.ofSame rfl rfl rfl) (fun i run hi => ⟨run, ?_, rfl, fun _ h => h,
        fun _ h => h⟩) (Nat.le_refl _)
    · cases s.repair <;> rfl
    · rw [List.getElem?_append_left (List.getElem?_eq_some_iff.mp hi).1]
      exact hi
  refine hmid.setRepair ((hmid.repair r hr).idle rfl rfl hidle (.checkpointing rfl
    List.getElem?_concat_length (Or.inl hfield) ⟨Nat.le_refl _, fun key hscope hkey => ?_⟩))
  obtain ⟨n, hn, hsteady⟩ := horder key hscope hkey
  exact (hsteady.apart (t := { s with indexes := _ }) hn (Apart.ofSame rfl rfl rfl)).mono hn

/-- **The rest of the repair**: its checkpoint ends, what was rejected is recorded, the record is
removed, or it fails. -/
theorem RepairOk.advance (h : RepairOk p s r) (hidle : r.stage ≠ .keys ∧ r.stage ≠ .orphans)
    (hprogress : Progress p s { r with stage := stage }) : RepairOk p s { r with stage := stage } :=
  h.idle rfl rfl (h.reading_eq_none (Or.inl hidle)) hprogress

/-- A repair whose rows are durable goes on. -/
theorem Progress.durableStage (h : Progress p s r)
    (hstage : r.stage = .recording ∨ r.stage = .clearing)
    (hnew : stage = .recording ∨ stage = .clearing ∨ stage = .returned) :
    Progress p s { r with stage := stage } := by
  cases h with
  | durable _ hrun hfield hchecked => exact .durable hnew hrun hfield hchecked
  | listing hother | keys hother | orphans hother | checkpointing hother | failed hother =>
    rw [hother] at hstage
    rcases hstage with hstage | hstage <;> cases hstage

/-- **A step of the repair.** -/
theorem RepairInv.stepRepair (h : RepairInv p s) (hr : s.repair = some r) {a : Act F V D}
    (hcond : undisturbed p s a = true) (hst : stepRepair p s r a = some t) : RepairInv p t := by
  have hok := h.repair r hr
  cases a with
  | listKeys =>
    obtain ⟨hstage, rfl⟩ := ite_some_none_eq_some.mp hst
    exact h.listKeys hr hstage
  | read =>
    simp only [IndexRepair.stepRepair] at hst
    split at hst
    · rename_i key rest hstage _ htodo
      obtain ⟨hfree, rfl⟩ := ite_some_none_eq_some.mp hst
      exact h.read hr (Or.inl hstage) htodo hfree
    · rename_i key rest hstage _ htodo
      obtain ⟨hfree, rfl⟩ := ite_some_none_eq_some.mp hst
      exact h.read hr (Or.inr hstage) htodo hfree
    · cases hst
  | reindex =>
    simp only [IndexRepair.stepRepair] at hst
    split at hst
    · rename_i key value hreading
      have hcalm : ∀ row, (s.withRow key).rowOf key = some row → calmChange p.rejects p.field row
          ⟨s.values, value.bind p.extract⟩ s.indexes = true := by
        intro row hrow
        have hbind : s.repair.bind Repair.reading = some (key, value) := by
          rw [hr]
          exact hreading
        rw [undisturbed, hbind] at hcond
        dsimp only at hcond
        rw [hrow] at hcond
        exact hcond
      have hnew := h.reindex hr hreading hcalm
      split_ifs at hst hnew with hdone
      · obtain rfl := some.inj hst
        exact hnew
      · obtain rfl := some.inj hst
        exact hnew
    · cases hst
  | listOrphans =>
    obtain ⟨⟨hstage, hfull, htodo⟩, rfl⟩ := ite_some_none_eq_some.mp hst
    exact h.listOrphans hr hstage hfull htodo
  | checkpoint fields =>
    obtain ⟨⟨hstage, htodo, hfield⟩, hst⟩ := ite_none_right_eq_some.mp hst
    obtain ⟨indexes, hindexes, rfl⟩ := map_eq_some_iff.mp hst
    exact h.checkpoint hr hstage htodo hfield hindexes
  | checkpointed =>
    simp only [IndexRepair.stepRepair] at hst
    split at hst
    · rename_i i hstage
      split at hst
      · rename_i ceiling done hrun
        obtain rfl := some.inj hst
        refine h.setRepair (hok.advance (by rw [hstage]; exact ⟨by nofun, by nofun⟩) ?_)
        cases hok.progress with
        | checkpointing hstage' hrun' hfield hchecked =>
          rw [hstage] at hstage'
          obtain rfl := Stage.checkpointing.inj hstage'
          rw [hrun] at hrun'
          obtain rfl := some.inj hrun'
          exact .durable (Or.inl rfl) hrun (hfield.resolve_left not_mem_nil) hchecked
        | listing h' | keys h' | orphans h' | failed h' => rw [hstage] at h'; cases h'
        | durable h' => rw [hstage] at h'; rcases h' with h' | h' | h' <;> cases h'
      · cases hst
    · cases hst
  | record now =>
    obtain ⟨hstage, hst⟩ := ite_none_right_eq_some.mp hst
    have hempty : s.rejected.isEmpty = true := hcond
    rw [if_pos hempty] at hst
    obtain rfl := some.inj hst
    exact h.setRepair (hok.advance (by rw [hstage]; exact ⟨by nofun, by nofun⟩)
      (hok.progress.durableStage (Or.inl hstage) (Or.inr (Or.inl rfl))))
  | clear =>
    obtain ⟨hstage, rfl⟩ := ite_some_none_eq_some.mp hst
    have hgone : RepairInv p { s with gap := none } := h.aside rfl rfl rfl rfl rfl rfl
    exact hgone.setRepair ((hgone.repair r hr).advance
      (by rw [hstage]; exact ⟨by nofun, by nofun⟩)
      ((hgone.repair r hr).progress.durableStage (Or.inr hstage) (Or.inr (Or.inr rfl))))
  | fail =>
    obtain ⟨-, rfl⟩ := ite_some_none_eq_some.mp hst
    exact h.setRepair (hok.idle rfl rfl rfl (.failed rfl))
  | _ => cases hst

/-- **A repair is begun.** Its worklist is what it has to visit, or it is to list the keys. -/
theorem RepairInv.begin (h : RepairInv p s) {gap : GapRecord} (hst : (match gap.repair with
      | .rowScoped keys =>
        match keys.mapM hexToBytes with
        | some keys => some (s.setRepair ⟨false, keys, .keys, keys, none, [], s.writers.map Prod.fst, []⟩)
        | none => some (s.setRepair ⟨false, [], .failed, [], none, [], s.writers.map Prod.fst, []⟩)
      | .fullRebuild =>
        some (s.setRepair ⟨true, [], .listing, [], none, [], s.writers.map Prod.fst, []⟩)) = some t) :
    RepairInv p t := by
  split at hst
  · split at hst
    · obtain rfl := some.inj hst
      refine h.setRepair ⟨fun _ hkey => hkey, rfl, fun _ _ hr => (by cases hr), ?_⟩
      exact .keys rfl (fun key _ hin => Or.inl hin) fun hfull => (by cases hfull)
    · obtain rfl := some.inj hst
      exact h.setRepair ⟨fun _ hkey => hkey, rfl, fun _ _ hr => (by cases hr), .failed rfl⟩
  · obtain rfl := some.inj hst
    exact h.setRepair ⟨fun _ hkey => hkey, rfl, fun _ _ hr => (by cases hr), .listing rfl rfl⟩

/-- **One step.** -/
theorem RepairInv.step (h : RepairInv p s) {a : Act F V D} (hcond : undisturbed p s a = true)
    (hst : step p s a = some t) : RepairInv p t := by
  cases a with
  | index a =>
    obtain ⟨hchange, hst⟩ := ite_none_left_eq_some.mp hst
    obtain ⟨indexes, hindexes, rfl⟩ := map_eq_some_iff.mp hst
    obtain ⟨hcalm, halone⟩ := (Bool.and_eq_true _ _).mp hcond
    exact h.index hindexes hcalm halone (Bool.eq_false_iff.mpr hchange)
  | write key value =>
    obtain ⟨hfree, rfl⟩ := ite_some_none_eq_some.mp hst
    exact h.write hfree value
  | updateIndex key readable =>
    simp only [IndexRepair.step] at hst
    split at hst
    · rename_i key' old hfind
      obtain rfl := some.inj hst
      have hsame := List.find?_some hfind
      obtain rfl : key' = key := of_decide_eq_true hsame
      refine h.updateIndex (List.mem_of_find?_eq_some hfind) fun row hrow => ?_
      rw [undisturbed, hfind, hrow] at hcond
      exact hcond
    · cases hst
  | detect gap =>
    obtain rfl := some.inj hst
    exact h.aside rfl rfl rfl rfl rfl rfl
  | drainRejected now =>
    obtain ⟨-, hst⟩ := ite_none_left_eq_some.mp hst
    obtain rfl := some.inj hst
    exact h.aside rfl rfl rfl rfl rfl rfl
  | readGap j =>
    simp only [IndexRepair.step] at hst
    split at hst
    · obtain rfl := some.inj hst
      exact h.aside rfl rfl rfl rfl rfl rfl
    · cases hst
  | writeGap j =>
    simp only [IndexRepair.step] at hst
    split at hst
    · obtain rfl := some.inj hst
      refine h.aside rfl rfl rfl rfl rfl ?_
      cases hr : s.repair with
      | none => rfl
      | some r =>
        rw [undisturbed, hr, any_some, Bool.not_eq_true'] at hcond
        change some (if r.running then _ else r) = some r
        rw [hcond, if_neg Bool.false_ne_true]
    · cases hst
  | repair =>
    obtain ⟨-, hst⟩ := ite_none_left_eq_some.mp hst
    obtain ⟨gap, -, hst⟩ := bind_eq_some_iff.mp hst
    exact h.begin hst
  | listKeys | read | reindex | listOrphans | checkpoint fields | checkpointed | record now
  | clear | fail =>
    obtain ⟨r, hr, hst⟩ := bind_eq_some_iff.mp hst
    exact h.stepRepair hr hcond hst

end Steps

/-! ### Runs -/

section Runs

variable [DecidableEq F] [DecidableEq V] {p : Params F V D} {s : State F V D}

/-- An index of numbers that rejects nine. -/
private def numbers : Params ℕ ℕ ℕ := ⟨0, some, fun v => decide (v = 9), ⟨0, 0, 3⟩⟩

end Runs

end IndexRepair

end Minnal
