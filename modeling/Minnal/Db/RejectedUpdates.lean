import Minnal.Db.BackstopGaps
import Minnal.Library.StepRun

/-!
# Rejected index updates

A field index refuses a value of the wrong type or size. The write goes through all the same, and
the key is noted in a **buffer**. A checkpoint, after it has saved its marker, drains the buffer,
and a **recorder** merges what was drained into the field's gap record. After a crash the WAL is
replayed from the marker on, and what the index refuses then is logged and not noted.

A rejected update is remembered (`Remembered`) if the gap record covers its key, if it is still in
the buffer or with a recorder, or, once the process is gone, if its entry will be replayed.
-/

set_option linter.dupNamespace false

namespace Minnal

namespace RejectedUpdates

open WalGc

/-! ### The buffer -/

/-- The keys a field has refused since the buffer was drained. Past the cap they are given up. -/
structure RejectedField where
  keys : List WalGc.Key
  overflowed : Bool

namespace RejectedField

def empty : RejectedField := ⟨[], false⟩

variable (b : RejectedField)

def isEmpty : Bool := b.keys.isEmpty && !b.overflowed

/-- Record a rejection. -/
def note (cap : ℕ) (key : WalGc.Key) : RejectedField :=
  if b.overflowed then b
  else if cap ≤ b.keys.length then ⟨[], true⟩
  else if key ∈ b.keys then b
  else ⟨key :: b.keys, false⟩

/-- What repairs the keys. -/
def repair : RepairMode :=
  if b.overflowed then .fullRebuild else .rowScoped (b.keys.map bytesToHex)

variable {b}

theorem mem_rows_repair {key : WalGc.Key} :
    bytesToHex key ∈ b.repair.rows ↔ b.overflowed = true ∨ key ∈ b.keys := by
  cases hover : b.overflowed with
  | true => simp [repair, hover, RepairMode.rows]
  | false =>
    have hmem : bytesToHex key ∈ b.keys.map bytesToHex ↔ key ∈ b.keys :=
      List.mem_map_of_injective bytesToHex_injective
    simpa [repair, hover, RepairMode.rows] using hmem

theorem note_self (cap : ℕ) (key : WalGc.Key) : bytesToHex key ∈ (b.note cap key).repair.rows := by
  rw [mem_rows_repair, note]
  split_ifs with hover hcap hmem
  · exact Or.inl hover
  · exact Or.inl rfl
  · exact Or.inr hmem
  · exact Or.inr List.mem_cons_self

/-- A rejection that is noted stays noted. -/
theorem note_mono (cap : ℕ) (key : WalGc.Key) {other : WalGc.Key} (h : bytesToHex other ∈ b.repair.rows) :
    bytesToHex other ∈ (b.note cap key).repair.rows := by
  rw [mem_rows_repair] at h ⊢
  rw [note]
  split_ifs with hover hcap hmem
  · exact Or.inl hover
  · exact Or.inl rfl
  · exact h
  · exact Or.inr (List.mem_cons_of_mem _ (h.resolve_left hover))

end RejectedField

/-! ### The system -/

/-- The field, and how many keys its buffer and its gap record may hold. -/
structure Field where
  namespaceId : ℕ
  fieldId : ℕ
  cap : ℕ

/-- The gap recorded for what the buffer held. -/
def Field.rejectedGap (f : Field) (now : ℕ) (b : RejectedField) : GapRecord where
  namespaceId := f.namespaceId
  fieldId := f.fieldId
  cause := .rejectedUpdate
  fromOffset := 0
  toOffset := 0
  missingSegments := []
  detectedAtMs := now
  repair := b.repair

/-- The gap recorded at open when writes without a WAL entry were outstanding. -/
def Field.noWalGap (f : Field) (now : ℕ) : GapRecord where
  namespaceId := f.namespaceId
  fieldId := f.fieldId
  cause := .noWalWrites
  fromOffset := 0
  toOffset := 0
  missingSegments := []
  detectedAtMs := now
  repair := .fullRebuild

/-- One call of `recordGap`: what it is to record, and what it has read of the record there. -/
structure Recorder where
  gap : GapRecord
  existing : Option (Option GapRecord)
  deriving DecidableEq

/-- What a recorder writes. -/
def merged (cap : ℕ) (existing : Option GapRecord) (gap : GapRecord) : GapRecord :=
  match existing with
  | some existing => existing.merge gap cap
  | none => gap

/-- Where a checkpoint stands: the tail is read; the ceiling is known; the field's marker is saved;
the markers of writes without a WAL entry are cleared; the buffer is drained. -/
inductive Phase where
  | reading (tail : ℕ)
  | ready (ceiling : ℕ)
  | saved
  | cleared
  | ended

inductive Life where
  | down
  /-- The database is open, the field is not active. -/
  | opened
  | active
  deriving DecidableEq

structure State where
  life : Life
  tail : ℕ
  wal : List (ℕ × WalGc.Key)
  inFlight : List ℕ
  buffer : RejectedField
  runs : List Phase
  recorders : List Recorder
  /-- The field's checkpoint file. -/
  marker : Option ℕ
  /-- The field's `gap.json`. -/
  gap : Option GapRecord
  /-- The marker file of writes without a WAL entry. -/
  noWalPending : Bool
  /-- The rejected updates, with the offset of the entry each is for. -/
  refused : List (Option ℕ × WalGc.Key)

def State.init : State where
  life := .active
  tail := 0
  wal := []
  inFlight := []
  buffer := RejectedField.empty
  runs := []
  recorders := []
  marker := none
  gap := none
  noWalPending := false
  refused := []

/-- What can happen next. -/
inductive Act where
  | append (key : WalGc.Key)
  | update (offset : ℕ) (rejected : Bool)
  | release (offset : ℕ)
  | updateNoWal (key : WalGc.Key) (rejected : Bool)
  | start
  | readInFlight (r : ℕ)
  | save (r : ℕ)
  | clearNoWal (r : ℕ)
  | drain (r now : ℕ)
  /-- Another gap of the field is found. -/
  | detect (gap : GapRecord)
  | readGap (j : ℕ)
  | writeGap (j : ℕ) (ok : Bool)
  | crash
  | reopen (now : ℕ) (ok : Bool)
  /-- The replay: these of its keys have a value that the index refuses. -/
  | activate (rejected : List WalGc.Key)

namespace State

variable (s : State)

def setRun (r : ℕ) (phase : Phase) : State := { s with runs := s.runs.set r phase }

/-- An index update for a key, in the memory of the process. -/
def updateIndex (cap : ℕ) (wal : Option ℕ) (key : WalGc.Key) (rejected : Bool) : State :=
  if rejected then
    { s with buffer := s.buffer.note cap key, refused := (wal, key) :: s.refused }
  else s

/-- Where a replay starts. -/
def replayOffset : ℕ := s.marker.getD 0

/-- The entries a replay goes through. -/
def replayed : List (ℕ × WalGc.Key) := s.wal.filter fun e => decide (s.replayOffset ≤ e.1)

end State

/-- The memory of the process is gone. -/
def crash (s : State) : State :=
  { s with
    life := .down
    inFlight := []
    buffer := RejectedField.empty
    runs := []
    recorders := [] }

variable (f : Field)

/-- One step of the running process. -/
def stepActive (s : State) : Act → Option State
  | .append key =>
    some { s with
      tail := s.tail + key.length + 1
      wal := s.wal ++ [(s.tail, key)]
      inFlight := s.inFlight ++ [s.tail] }
  | .update offset rejected =>
    match s.wal.find? fun e => decide (e.1 = offset) with
    | some e =>
      if offset ∈ s.inFlight then some (s.updateIndex f.cap (some offset) e.2 rejected) else none
    | none => none
  | .release offset =>
    if offset ∈ s.inFlight then some { s with inFlight := s.inFlight.erase offset } else none
  | .updateNoWal key rejected =>
    some ({ s with noWalPending := true }.updateIndex f.cap none key rejected)
  | .start => some { s with runs := s.runs ++ [.reading s.tail] }
  | .readInFlight r =>
    match s.runs[r]? with
    | some (.reading tail) => some (s.setRun r (.ready (s.inFlight.foldl min tail)))
    | _ => none
  | .save r =>
    match s.runs[r]? with
    | some (.ready ceiling) => some ({ s with marker := some ceiling }.setRun r .saved)
    | _ => none
  | .clearNoWal r =>
    match s.runs[r]? with
    | some .saved => some ({ s with noWalPending := false }.setRun r .cleared)
    | _ => none
  | .drain r now =>
    match s.runs[r]? with
    | some .cleared =>
      if s.buffer.isEmpty then some (s.setRun r .ended)
      else
        some ({ s with
          buffer := RejectedField.empty
          recorders := s.recorders ++ [Recorder.mk (f.rejectedGap now s.buffer) none] }.setRun r .ended)
    | _ => none
  | .detect gap => some { s with recorders := s.recorders ++ [Recorder.mk gap none] }
  | .readGap j =>
    match s.recorders[j]? with
    | some ⟨gap, none⟩ =>
      some { s with recorders := s.recorders.set j (Recorder.mk gap (some s.gap)) }
    | _ => none
  | .writeGap j ok =>
    match s.recorders[j]? with
    | some ⟨gap, some existing⟩ =>
      let s := { s with recorders := s.recorders.eraseIdx j }
      -- a record that cannot be written is only logged
      if ok then some { s with gap := some (merged f.cap existing gap) } else some s
    | _ => none
  | .crash => some (crash s)
  | _ => none

/-- The database is opened: outstanding writes without a WAL entry leave a gap in a field that has
a checkpoint. -/
def reopen (s : State) (now : ℕ) (ok : Bool) : State :=
  let gap :=
    if s.noWalPending && s.marker.isSome && ok then some (merged f.cap s.gap (f.noWalGap now))
    else s.gap
  { s with life := .opened, noWalPending := false, gap := gap }

/-- The field is activated: the entries from its marker on are replayed. -/
def activate (s : State) (rejected : List WalGc.Key) : State :=
  { s with
    life := .active
    refused :=
      s.refused.filter (fun u => !u.1.any fun offset => decide (s.replayOffset ≤ offset)) ++
        (s.replayed.filter fun e => decide (e.2 ∈ rejected)).map fun e => (some e.1, e.2) }

/-- One step of an open database whose field is not active. -/
def stepOpened (s : State) : Act → Option State
  | .crash => some (crash s)
  | .activate rejected => some (activate s rejected)
  | _ => none

/-- One step. -/
def step (s : State) (a : Act) : Option State :=
  match s.life, a with
  | .active, a => stepActive f s a
  | .opened, a => stepOpened s a
  | .down, .reopen now ok => some (reopen f s now ok)
  | .down, _ => none

/-! ### What is to hold -/

/-- The gap record of the field has the key. -/
def State.covers (s : State) (key : WalGc.Key) : Bool :=
  s.gap.any fun g =>
    match g.repair with
    | .fullRebuild => true
    | .rowScoped keys => decide (bytesToHex key ∈ keys)

/-- The process has the key, in the buffer or with a recorder. -/
def State.InMemory (s : State) (key : WalGc.Key) : Prop :=
  bytesToHex key ∈ s.buffer.repair.rows ∨ ∃ rec ∈ s.recorders, bytesToHex key ∈ rec.gap.repair.rows

/-- What is left without the process will lead to the key: its entry is replayed, or the next open
finds that a write without an entry was outstanding. -/
def State.ahead (s : State) : Option ℕ → Bool
  | some offset => decide (s.replayOffset ≤ offset)
  | none => s.noWalPending && s.marker.isSome

/-- **Remembered.** Every rejected update is covered by the gap record, is in the memory of the
running process, or will be met again. -/
def Remembered (s : State) : Prop :=
  ∀ wal key, (wal, key) ∈ s.refused → s.covers key = true ∨
    if s.life = .active then s.InMemory key else s.ahead wal = true

/-- The process has keys that are neither covered nor met again after a crash. -/
def State.owes (s : State) : Bool :=
  s.refused.any fun u => !s.covers u.2 && !s.ahead u.1 &&
    (s.buffer.overflowed || decide (u.2 ∈ s.buffer.keys) || s.recorders.any fun rec =>
      match rec.gap.repair with
      | .fullRebuild => true
      | .rowScoped keys => decide (bytesToHex u.2 ∈ keys))

/-- No crash while the process owes a key; a gap record is written, and no other one of the field
since it was read; the replay refuses nothing but what is covered. -/
def kept (s : State) : Act → Bool
  | .crash => s.life != .active || !s.owes
  | .writeGap j ok =>
    match s.recorders[j]? with
    | some ⟨_, some existing⟩ => ok && decide (existing = s.gap)
    | _ => true
  | .reopen _ ok => ok || !(s.noWalPending && s.marker.isSome)
  | .activate rejected => s.replayed.all fun e => !decide (e.2 ∈ rejected) || s.covers e.2
  | _ => true

/-! ### Every step -/

variable {j : ℕ} {gap : GapRecord} {a : Act}

section Steps

variable {f : Field} {s t : State}

theorem covers_iff {key : WalGc.Key} :
    s.covers key = true ↔ ∃ g, s.gap = some g ∧ bytesToHex key ∈ g.repair.rows := by
  cases hgap : s.gap with
  | none => simp [State.covers, hgap]
  | some g => cases hrepair : g.repair <;> simp [State.covers, hgap, hrepair, RepairMode.rows]

/-- A recorder writes what it was given and what it has read. -/
theorem mem_rows_merged (cap : ℕ) (existing : Option GapRecord) (gap : GapRecord) {h : HexString}
    (hmem : h ∈ gap.repair.rows ∨ ∃ g, existing = some g ∧ h ∈ g.repair.rows) :
    h ∈ (merged cap existing gap).repair.rows := by
  cases existing with
  | none => exact hmem.resolve_right fun ⟨g, hg, _⟩ => (by cases hg)
  | some g =>
    refine RepairMode.rows_merge cap g.repair gap.repair ?_
    rcases hmem with hnew | ⟨g', hg', hold⟩
    · exact Or.inr hnew
    · obtain rfl := Option.some.inj hg'
      exact Or.inl hold

/-- What the process is to remember through a step of its own. -/
theorem Remembered.onward (h : Remembered s) (hs : s.life = .active) (ht : t.life = .active)
    (hcovers : ∀ key, s.covers key = true → t.covers key = true)
    (hmemory : ∀ key, s.InMemory key → t.covers key = true ∨ t.InMemory key)
    (hrefused : ∀ wal key, (wal, key) ∈ t.refused → (wal, key) ∈ s.refused ∨ t.InMemory key) :
    Remembered t := by
  intro wal key hkey
  rw [if_pos ht]
  rcases hrefused wal key hkey with hold | hnew
  · have hremembered := h wal key hold
    rw [if_pos hs] at hremembered
    rcases hremembered with hgap | hmem
    · exact Or.inl (hcovers key hgap)
    · exact hmemory key hmem
  · exact Or.inr hnew

/-- A step that has nothing to do with rejected updates. -/
theorem Remembered.aside (h : Remembered s) (hs : s.life = .active) (ht : t.life = .active)
    (hgap : t.gap = s.gap) (hbuffer : t.buffer = s.buffer) (hrecorders : t.recorders = s.recorders)
    (hrefused : t.refused = s.refused) : Remembered t := by
  refine h.onward hs ht (fun key hkey => ?_) (fun key hkey => Or.inr ?_) fun wal key hkey =>
    Or.inl (hrefused ▸ hkey)
  · rwa [covers_iff, hgap, ← covers_iff]
  · rwa [State.InMemory, hbuffer, hrecorders]

theorem Remembered.updateIndex (h : Remembered s) (hs : s.life = .active) (cap : ℕ)
    (wal : Option ℕ) (key : WalGc.Key) (rejected : Bool) :
    Remembered (s.updateIndex cap wal key rejected) := by
  rw [State.updateIndex]
  cases rejected with
  | false => exact h
  | true =>
    refine h.onward hs hs (fun other hother => hother) (fun other hother => Or.inr ?_) ?_
    · exact hother.imp_left (RejectedField.note_mono cap key)
    · intro wal' key' hmem
      rcases List.mem_cons.mp hmem with hnew | hold
      · obtain ⟨-, rfl⟩ := Prod.mk.inj hnew
        exact Or.inr (Or.inl (RejectedField.note_self cap key'))
      · exact Or.inl hold

/-- What is drained is with a recorder. -/
theorem Remembered.drain (h : Remembered s) (hs : s.life = .active) (r now : ℕ) :
    Remembered ({ s with
      buffer := RejectedField.empty
      recorders := s.recorders ++ [Recorder.mk (f.rejectedGap now s.buffer) none] }.setRun r .ended) := by
  refine h.onward hs hs (fun key hkey => hkey) (fun key hkey => Or.inr (Or.inr ?_))
    fun wal key hkey => Or.inl hkey
  rcases hkey with hbuffer | ⟨rec, hrec, hmem⟩
  · exact ⟨_, List.mem_append_right _ (List.mem_singleton_self _), hbuffer⟩
  · exact ⟨rec, List.mem_append_left _ hrec, hmem⟩

theorem Remembered.readGap (h : Remembered s) (hs : s.life = .active)
    (hj : s.recorders[j]? = some ⟨gap, none⟩) :
    Remembered { s with recorders := s.recorders.set j (Recorder.mk gap (some s.gap)) } := by
  refine h.onward hs hs (fun key hkey => hkey) (fun key hkey => Or.inr ?_)
    fun wal key hkey => Or.inl hkey
  refine hkey.imp_right fun ⟨rec, hrec, hmem⟩ => ?_
  obtain ⟨i, hi⟩ := List.mem_iff_getElem?.mp hrec
  have hlt := (List.getElem?_eq_some_iff.mp hj).1
  by_cases hij : i = j
  · rw [hij, hj] at hi
    obtain rfl := Option.some.inj hi
    exact ⟨⟨gap, some s.gap⟩, List.mem_set hlt _, hmem⟩
  · refine ⟨rec, List.mem_of_getElem? (i := i) ?_, hmem⟩
    change (s.recorders.set j _)[i]? = some rec
    rw [List.getElem?_set_ne fun hji => hij hji.symm]
    exact hi

/-- A record that is written covers what the recorder had and what was covered before. -/
theorem Remembered.writeGap (h : Remembered s) (hs : s.life = .active)
    (hj : s.recorders[j]? = some ⟨gap, some s.gap⟩) (cap : ℕ) :
    Remembered { s with
      recorders := s.recorders.eraseIdx j
      gap := some (merged cap s.gap gap) } := by
  refine h.onward hs hs (fun key hkey => ?_) (fun key hkey => ?_) fun wal key hkey => Or.inl hkey
  · exact covers_iff.mpr ⟨_, rfl, mem_rows_merged cap _ _ (Or.inr (covers_iff.mp hkey))⟩
  · rcases hkey with hbuffer | ⟨rec, hrec, hmem⟩
    · exact Or.inr (Or.inl hbuffer)
    · obtain ⟨i, hi⟩ := List.mem_iff_getElem?.mp hrec
      by_cases hij : i = j
      · rw [hij, hj] at hi
        obtain rfl := Option.some.inj hi
        exact Or.inl (covers_iff.mpr ⟨_, rfl, mem_rows_merged cap _ _ (Or.inl hmem)⟩)
      · refine Or.inr (Or.inr ⟨rec, ?_, hmem⟩)
        exact List.mem_eraseIdx_iff_getElem?.mpr ⟨i, hij, hi⟩

/-- **A crash.** What the process had will be met again. -/
theorem Remembered.crash (h : Remembered s) (howes : s.life = .active → s.owes = false) :
    Remembered (crash s) := by
  intro wal key hkey
  rw [if_neg (by nofun)]
  by_cases hs : s.life = .active
  · have hremembered := h wal key hkey
    rw [if_pos hs] at hremembered
    rcases hremembered with hgap | hmem
    · exact Or.inl hgap
    · have hnot := List.any_eq_false.mp (howes hs) (wal, key) hkey
      by_contra hlost
      rw [not_or, Bool.not_eq_true, Bool.not_eq_true] at hlost
      refine hnot ?_
      have hahead : s.ahead wal = false := hlost.2
      have hcovers : s.covers key = false := hlost.1
      rw [hcovers, hahead, Bool.not_false, Bool.true_and, Bool.true_and, Bool.or_eq_true,
        Bool.or_eq_true]
      rcases hmem with hbuffer | ⟨rec, hrec, hrows⟩
      · refine Or.inl ?_
        rwa [RejectedField.mem_rows_repair, ← decide_eq_true_iff (p := key ∈ s.buffer.keys)] at hbuffer
      · refine Or.inr (List.any_eq_true.mpr ⟨rec, hrec, ?_⟩)
        cases hrepair : rec.gap.repair with
        | fullRebuild => rfl
        | rowScoped keys =>
          rw [hrepair] at hrows
          exact decide_eq_true hrows
  · have hremembered := h wal key hkey
    rwa [if_neg hs] at hremembered

/-- **The open.** A write without a WAL entry that was outstanding is in the gap it leaves. -/
theorem Remembered.reopen (h : Remembered s) (hs : s.life = .down) (f : Field) (now : ℕ) {ok : Bool}
    (hok : (ok || !(s.noWalPending && s.marker.isSome)) = true) :
    Remembered (reopen f s now ok) := by
  intro wal key hkey
  rw [if_neg (by nofun)]
  have hremembered := h wal key hkey
  rw [if_neg (by rw [hs]; nofun)] at hremembered
  have hgap : (RejectedUpdates.reopen f s now ok).gap =
      if s.noWalPending && s.marker.isSome && ok then some (merged f.cap s.gap (f.noWalGap now))
      else s.gap := rfl
  cases hpending : s.noWalPending && s.marker.isSome with
  | true =>
    rw [hpending, Bool.not_true, Bool.or_false] at hok
    subst hok
    rw [hpending] at hgap
    exact Or.inl (covers_iff.mpr ⟨_, hgap, mem_rows_merged _ _ _ (Or.inl (Set.mem_univ _))⟩)
  | false =>
    rw [hpending] at hgap
    rcases hremembered with hcovers | hahead
    · refine Or.inl ?_
      rw [covers_iff, hgap]
      exact covers_iff.mp hcovers
    · refine Or.inr ?_
      cases wal with
      | some offset => exact hahead
      | none =>
        change (s.noWalPending && s.marker.isSome) = true at hahead
        rw [hpending] at hahead
        cases hahead

/-- **The replay.** -/
theorem Remembered.activate (h : Remembered s) (hs : s.life = .opened) (hpending : s.noWalPending = false)
    {rejected : List WalGc.Key}
    (hcovered : ∀ e ∈ s.replayed, e.2 ∈ rejected → s.covers e.2 = true) :
    Remembered (activate s rejected) := by
  intro wal key hkey
  refine Or.inl ?_
  change s.covers key = true
  rcases List.mem_append.mp hkey with hold | hnew
  · obtain ⟨hmem, hbelow⟩ := List.mem_filter.mp hold
    have hremembered := h wal key hmem
    rw [if_neg (by rw [hs]; nofun)] at hremembered
    refine hremembered.resolve_right fun hahead => ?_
    cases wal with
    | none =>
      rw [State.ahead, hpending] at hahead
      cases hahead
    | some offset =>
      rw [State.ahead] at hahead
      rw [Option.any_some, hahead] at hbelow
      cases hbelow
  · obtain ⟨e, he, heq⟩ := List.mem_map.mp hnew
    obtain ⟨-, rfl⟩ := Prod.mk.inj heq
    obtain ⟨hreplayed, hrejected⟩ := List.mem_filter.mp he
    exact hcovered e hreplayed (of_decide_eq_true hrejected)

theorem Remembered.stepActive (h : Remembered s) (hs : s.life = .active) (hkept : kept s a = true)
    (hst : stepActive f s a = some t) : Remembered t ∧ t.life ≠ .opened := by
  have hactive : s.life ≠ .opened := by
    rw [hs]
    nofun
  cases a with
  | append key | start | detect gap =>
    obtain rfl := Option.some.inj hst
    refine ⟨h.onward hs hs (fun key hkey => hkey) (fun key hkey => Or.inr ?_)
      fun wal key hkey => Or.inl hkey, hactive⟩
    exact hkey.imp_right fun ⟨rec, hrec, hmem⟩ => ⟨rec, by simp [hrec], hmem⟩
  | update offset rejected =>
    simp only [RejectedUpdates.stepActive] at hst
    split at hst
    · rename_i e he
      obtain ⟨-, rfl⟩ := Option.ite_some_none_eq_some.mp hst
      refine ⟨h.updateIndex hs f.cap (some offset) e.2 rejected, ?_⟩
      cases rejected <;> exact hactive
    · cases hst
  | release offset =>
    obtain ⟨-, rfl⟩ := Option.ite_some_none_eq_some.mp hst
    exact ⟨h.aside hs hs rfl rfl rfl rfl, hactive⟩
  | updateNoWal key rejected =>
    obtain rfl := Option.some.inj hst
    have hpending : Remembered { s with noWalPending := true } := h.aside hs hs rfl rfl rfl rfl
    refine ⟨hpending.updateIndex hs f.cap none key rejected, ?_⟩
    cases rejected <;> exact hactive
  | readInFlight r | save r | clearNoWal r =>
    simp only [RejectedUpdates.stepActive] at hst
    split at hst
    · obtain rfl := Option.some.inj hst
      exact ⟨h.aside hs hs rfl rfl rfl rfl, hactive⟩
    · cases hst
  | drain r now =>
    simp only [RejectedUpdates.stepActive] at hst
    split at hst
    · split_ifs at hst
      · obtain rfl := Option.some.inj hst
        exact ⟨h.aside hs hs rfl rfl rfl rfl, hactive⟩
      · obtain rfl := Option.some.inj hst
        exact ⟨h.drain hs r now, hactive⟩
    · cases hst
  | readGap j =>
    simp only [RejectedUpdates.stepActive] at hst
    split at hst
    · rename_i gap hj
      obtain rfl := Option.some.inj hst
      exact ⟨h.readGap hs hj, hactive⟩
    · cases hst
  | writeGap j ok =>
    simp only [RejectedUpdates.stepActive] at hst
    split at hst
    · rename_i gap existing hj
      rw [kept, hj] at hkept
      obtain ⟨rfl, hsame⟩ := (Bool.and_eq_true _ _).mp hkept
      obtain rfl := of_decide_eq_true hsame
      obtain rfl := Option.some.inj hst
      exact ⟨h.writeGap hs hj f.cap, hactive⟩
    · cases hst
  | crash =>
    obtain rfl := Option.some.inj hst
    refine ⟨h.crash fun _ => ?_, by nofun⟩
    rw [kept, hs] at hkept
    exact (Bool.not_eq_true' _).mp hkept
  | reopen now ok | activate rejected => cases hst

/-- **One step.** -/
theorem Remembered.step (h : Remembered s) (hopened : s.life = .opened → s.noWalPending = false)
    (hkept : kept s a = true) (hst : step f s a = some t) :
    Remembered t ∧ (t.life = .opened → t.noWalPending = false) := by
  cases hs : s.life with
  | active =>
    simp only [RejectedUpdates.step, hs] at hst
    obtain ⟨hremembered, hlife⟩ := h.stepActive hs hkept hst
    exact ⟨hremembered, fun hlife' => absurd hlife' hlife⟩
  | opened =>
    simp only [RejectedUpdates.step, hs] at hst
    cases a with
    | crash =>
      obtain rfl := Option.some.inj hst
      exact ⟨h.crash fun hactive => (by rw [hs] at hactive; cases hactive), by nofun⟩
    | activate rejected =>
      obtain rfl := Option.some.inj hst
      refine ⟨h.activate hs (hopened hs) fun e he hrejected => ?_, by nofun⟩
      have hcovered := List.all_eq_true.mp hkept e he
      rwa [decide_eq_true hrejected, Bool.not_true, Bool.false_or] at hcovered
    | _ => cases hst
  | down =>
    simp only [RejectedUpdates.step, hs] at hst
    cases a with
    | reopen now ok =>
      obtain rfl := Option.some.inj hst
      exact ⟨h.reopen hs f now hkept, fun _ => rfl⟩
    | _ => cases hst

end Steps

/-! ### Runs -/

/-- **Rejected updates are remembered** in every run in which no crash comes while the process owes
a key, gap records are written one at a time, and a replay refuses only what is covered. -/
theorem remembered_run (f : Field) {as : List Act} {s : State}
    (hkept : StepRun.along (step f) kept State.init as = true)
    (hrun : StepRun.run (step f) State.init as = some s) : Remembered s := by
  have hinv : Remembered s ∧ (s.life = .opened → s.noWalPending = false) := by
    have hstep : ∀ s a t, Remembered s ∧ (s.life = .opened → s.noWalPending = false) →
        kept s a = true → step f s a = some t →
          Remembered t ∧ (t.life = .opened → t.noWalPending = false) :=
      fun s a t h hk hst => h.1.step h.2 hk hst
    refine StepRun.invariant_along hstep ⟨fun wal key hkey => ?_, by nofun⟩ hkept hrun
    cases hkey
  exact hinv.1

/-- A rejected update is recorded, and one after it is replayed after a crash. -/
private def recorded : List Act :=
  [.append [1], .update 0 true, .release 0, .start, .readInFlight 0, .append [2], .update 2 true,
    .save 0, .clearNoWal 0, .drain 0 7, .detect ⟨0, 0, .backstopReclaim, 0, 2, [], 7, .rowScoped []⟩,
    .readGap 0, .writeGap 0 true, .readGap 0, .writeGap 0 true, .crash, .reopen 8 true, .activate []]

theorem remembered_recorded :
    ∃ s, StepRun.run (step ⟨0, 0, 3⟩) State.init recorded = some s ∧ Remembered s := by
  have hkept : StepRun.along (step ⟨0, 0, 3⟩) kept State.init recorded = true := by decide +kernel
  have hmarker : (StepRun.run (step ⟨0, 0, 3⟩) State.init recorded).map State.marker =
      some (some 2) := by decide +kernel
  obtain ⟨s, hrun, -⟩ := Option.map_eq_some_iff.mp hmarker
  exact ⟨s, hrun, remembered_run _ hkept hrun⟩

/-- The marker is saved past a rejected update, and the process ends before it records the key. -/
private def forgotten : List Act :=
  [.append [1], .update 0 true, .release 0, .start, .readInFlight 0, .save 0, .crash]

/-- **A crash between the marker and the gap record forgets a rejected update.** -/
theorem not_remembered_forgotten :
    ¬ ∀ (f : Field) (as : List Act) (s : State), StepRun.run (step f) State.init as = some s →
      Remembered s := by
  intro hall
  have hend : (StepRun.run (step ⟨0, 0, 3⟩) State.init forgotten).map (fun s =>
      (s.life, decide ((some 0, [1]) ∈ s.refused), s.covers [1], s.ahead (some 0))) =
        some (.down, true, false, false) := by decide +kernel
  obtain ⟨s, hrun, hs⟩ := Option.map_eq_some_iff.mp hend
  obtain ⟨hlife, hs⟩ := Prod.mk.inj hs
  obtain ⟨hrefused, hs⟩ := Prod.mk.inj hs
  obtain ⟨hcovers, hahead⟩ := Prod.mk.inj hs
  have hremembered := hall _ _ s hrun (some 0) [1] (of_decide_eq_true hrefused)
  rw [hcovers, hlife, if_neg (by nofun), hahead] at hremembered
  exact hremembered.elim Bool.false_ne_true Bool.false_ne_true

end RejectedUpdates

end Minnal
