import Mathlib.Data.List.AList
import Minnal.Db.IndexRows

/-!
# Markers of writes without a WAL entry

A write **without a WAL entry** cannot be replayed. Before it is applied, its namespace is put into
a set in memory, and whoever puts it there writes a **marker** file. A checkpoint that has written
all fields of the namespace out drains the set and removes the marker. A marker found when the
database is opened again means that the index files may have missed such writes: every field that
has been checkpointed before gets a gap record, and the marker is removed.

The fields are written out one after another, and a write updates them one after another; nothing
keeps the two apart. What survives a crash of the store is what its memtables had been flushed of.

After a crash and an open, each field has a gap record or files every write that survived
(`Honest`).
-/

set_option linter.dupNamespace false

namespace Minnal

namespace NoWalMarkers

open IndexCheckpoint IndexRows
open List (mem_of_getElem? all_eq_true not_mem_nil mem_cons mem_append)

variable {F V D : Type}

/-! ### The system -/

/-- The indexed fields of a namespace, what they index and which values they reject. -/
structure Params (F V D : Type) where
  fields : List F
  extract : F → D → Option V
  rejects : F → V → Bool
  nodup : fields.Nodup

/-- What a document is filed under. -/
def Params.target (p : Params F V D) (f : F) (d : Option D) : Option V :=
  (d.bind (p.extract f)).filter fun v => !p.rejects f v

/-- Where a write stands. -/
inductive Stage (F D : Type) where
  | noting
  /-- It is to write the marker. -/
  | marking
  | marked
  /-- It is applied; these fields are left to update. -/
  | updating (before : Option D) (todo : List F)

/-- No field is left behind. -/
def Stage.settled : Stage F D → Bool
  | .updating _ (_ :: _) => false
  | _ => true

/-- Where a checkpoint stands. -/
inductive Phase (F : Type) where
  | between
  /-- The first field left is written out by this run of the index checkpoints. -/
  | working (run : ℕ)
  /-- The markers of these fields are left to save. -/
  | saving (left : List F)
  | ended

/-- A checkpoint: the fields left, and those that are written out, each by its run. -/
structure Checkpoint (F : Type) where
  todo : List F
  done : List (F × ℕ)
  phase : Phase F

inductive Life where
  | running
  | crashed
  | reopened
  deriving DecidableEq

structure State (F V D : Type) where
  life : Life
  indexes : Indexes F V
  /-- The values that have been given rows. -/
  values : List V
  /-- The writes that have been applied, the newest first. A key stands by its row. -/
  writes : List (ℕ × Option D)
  /-- Those that are flushed. -/
  flushed : List (ℕ × Option D)
  writers : AList fun _ : ℕ => Option D × Stage F D
  pending : Bool
  markerFile : Bool
  /-- The fields whose checkpoint has ever been saved. -/
  checkpointed : F → Bool
  checkpoints : List (Checkpoint F)
  gap : F → Bool

def State.init : State F V D where
  life := .running
  indexes := IndexCheckpoint.State.init
  values := []
  writes := []
  flushed := []
  writers := ∅
  pending := false
  markerFile := false
  checkpointed _ := false
  checkpoints := []
  gap _ := false

/-- What can happen next. -/
inductive Act (F V D : Type) where
  /-- A step of the index checkpoints' runs or a spill. -/
  | index (a : IndexCheckpoint.Act F V (List ℕ))
  | begin (row : ℕ) (value : Option D)
  | note (row : ℕ)
  | mark (row : ℕ) (ok : Bool)
  | apply (row : ℕ)
  /-- The update of the next field; the document before may be unreadable. -/
  | update (row : ℕ) (readable : Bool)
  | finish (row : ℕ)
  | flush (n : ℕ)
  | start
  | stage (c : ℕ)
  | next (c : ℕ)
  | save (c : ℕ)
  | drain (c : ℕ) (ok : Bool)
  | crash
  /-- The gap records of these fields are not written. -/
  | reopen (failed : List F)

/-- The last write of a row. -/
def latest (writes : List (ℕ × Option D)) (row : ℕ) : Option (Option D) :=
  (writes.find? fun w => decide (w.1 = row)).map Prod.snd

namespace State

variable (s : State F V D)

def stored (row : ℕ) : Option D := (latest s.writes row).join

def setWriter (row : ℕ) (value : Option D) (stage : Stage F D) : State F V D :=
  { s with writers := s.writers.insert row (value, stage) }

def setCheckpoint (c : ℕ) (checkpoint : Checkpoint F) : State F V D :=
  { s with checkpoints := s.checkpoints.set c checkpoint }

end State

section Step

variable [DecidableEq F] [DecidableEq V] (p : Params F V D)

/-- The steps that stage a field for a checkpoint. -/
def stageActs (s : State F V D) (f : F) : List (IndexCheckpoint.Act F V (List ℕ)) :=
  [.start [f], .readInFlight s.indexes.runs.length, .stage s.indexes.runs.length]

/-- What an index update of a write does to its row. -/
def State.rowChange (s : State F V D) (f : F) (before : Option D) (readable : Bool)
    (value : Option D) : RowChange V :=
  RowChange.ofWrite (p.extract f) s.values before readable value

/-- A step of the running database. -/
def stepRunning (s : State F V D) : Act F V D → Option (State F V D)
  | .index a =>
    if a.isChange then none
    else (IndexCheckpoint.step s.indexes a).map fun indexes => { s with indexes := indexes }
  | .begin row value =>
    match s.writers.lookup row with
    | none => some (s.setWriter row value .noting)
    | some _ => none
  | .note row =>
    match s.writers.lookup row with
    | some (value, .noting) =>
      if p.fields.isEmpty || s.pending then some (s.setWriter row value .marked)
      else some ({ s with pending := true }.setWriter row value .marking)
    | _ => none
  | .mark row ok =>
    match s.writers.lookup row with
    | some (value, .marking) =>
      some ({ s with markerFile := s.markerFile || ok }.setWriter row value .marked)
    | _ => none
  | .apply row =>
    match s.writers.lookup row with
    | some (value, .marked) =>
      some ({ s with writes := (row, value) :: s.writes }.setWriter row value
        (.updating (s.stored row) p.fields))
    | _ => none
  | .update row readable =>
    match s.writers.lookup row with
    | some (value, .updating before (f :: todo)) =>
      let c := s.rowChange p f before readable value
      some ({ s with
        indexes := (change (p.rejects f) f row c s.indexes).1
        values := c.add.toList ++ s.values }.setWriter row value (.updating before todo))
    | _ => none
  | .finish row =>
    match s.writers.lookup row with
    | some (_, .updating _ []) => some { s with writers := s.writers.erase row }
    | _ => none
  | .flush n =>
    if s.flushed.length ≤ (s.writes.drop n).length then
      some { s with flushed := s.writes.drop n }
    else none
  | .start => some { s with checkpoints := s.checkpoints ++ [⟨p.fields, [], .between⟩] }
  | .stage c =>
    match s.checkpoints[c]? with
    | some ⟨f :: todo, done, .between⟩ =>
      (StepRun.run IndexCheckpoint.step s.indexes (stageActs s f)).map fun indexes =>
        { s with indexes := indexes }.setCheckpoint c
          ⟨f :: todo, done, .working s.indexes.runs.length⟩
    | _ => none
  | .next c =>
    match s.checkpoints[c]? with
    | some ⟨f :: todo, done, .working r⟩ =>
      if s.indexes.runs[r]?.any fun run => decide (f ∈ run.done) then
        some (s.setCheckpoint c ⟨todo, done ++ [(f, r)], .between⟩)
      else none
    | _ => none
  | .save c =>
    match s.checkpoints[c]? with
    | some ⟨[], done, .between⟩ => some (s.setCheckpoint c ⟨[], done, .saving p.fields⟩)
    | some ⟨[], done, .saving (f :: left)⟩ =>
      some ({ s with checkpointed := Function.update s.checkpointed f true }.setCheckpoint c
        ⟨[], done, .saving left⟩)
    | _ => none
  | .drain c ok =>
    match s.checkpoints[c]? with
    | some ⟨[], done, .saving []⟩ =>
      let s' := if s.pending then
          { s with pending := false, markerFile := s.markerFile && !ok }
        else s
      some (s'.setCheckpoint c ⟨[], done, .ended⟩)
    | _ => none
  | .crash => some { s with life := .crashed }
  | .reopen _ => none

/-- The database is opened again: the store has what was flushed, and the marker becomes a gap
record of every field that has been checkpointed before. -/
def reopen (s : State F V D) (failed : List F) : State F V D :=
  { s with
    life := .reopened
    writes := s.flushed
    writers := ∅
    pending := false
    markerFile := false
    checkpoints := []
    gap := fun f =>
      s.gap f || decide (f ∈ p.fields) && s.markerFile && s.checkpointed f && !decide (f ∈ failed) }

/-- After a crash the database can only be opened again. -/
def stepCrashed (s : State F V D) : Act F V D → Option (State F V D)
  | .reopen failed => some (reopen p s failed)
  | _ => none

/-- One step. -/
def step (s : State F V D) (a : Act F V D) : Option (State F V D) :=
  match s.life with
  | .running => stepRunning p s a
  | .crashed => stepCrashed p s a
  | .reopened => none

/-! ### What is to hold -/

/-- **Honest.** Each field has a gap record or files every write that survived. -/
def Honest (s : State F V D) : Prop :=
  ∀ f ∈ p.fields, s.gap f = true ∨ ∀ row value, latest s.writes row = some value →
    ∀ v, FiledOnDisk s.indexes f row v ↔ p.target f value = some v

/-- Every write that is applied has updated the fields before the checkpoint staged them. -/
def State.covered (s : State F V D) (done : List (F × ℕ)) : Bool :=
  (s.writers.entries.all fun w => w.2.2.settled) && done.all fun fr =>
    s.indexes.runs[fr.2]?.all fun run =>
      (s.indexes.log.drop run.ceiling.changes).all fun d => decide (d.field ≠ fr.1)

/-- The index checkpoints are safe; a write is applied only when the marker is on disk; the marker
is removed only when every write that is applied was staged for every field; at a crash with the
marker every field has been checkpointed, and at one without it no write that survives has been
followed by one that does not; the gap records are written. -/
def careful [DecidableEq D] (s : State F V D) : Act F V D → Bool
  | .index a => calm s.indexes a && alone s.indexes a
  | .apply _ => s.markerFile
  | .update row readable =>
    match s.writers.lookup row with
    | some (value, .updating before (f :: _)) =>
      calmChange (p.rejects f) f row (s.rowChange p f before readable value) s.indexes
    | _ => true
  | .stage c =>
    match s.checkpoints[c]? with
    | some ⟨f :: _, _, _⟩ =>
      StepRun.along IndexCheckpoint.step (fun i a => calm i a && alone i a) s.indexes (stageActs s f)
    | _ => true
  | .drain c ok =>
    match s.checkpoints[c]? with
    | some ⟨_, done, _⟩ => !(s.pending && ok) || s.covered done
    | none => true
  | .crash =>
    if s.markerFile then p.fields.all s.checkpointed || s.flushed.isEmpty
    else s.flushed.all fun w => decide (latest s.flushed w.1 = latest s.writes w.1)
  | .reopen failed => !s.markerFile || failed.isEmpty
  | _ => true

/-! ### The invariant -/

/-- What the field has the row under: the document before, while the write of the row has the
update of the field before it. -/
def State.filedAs (s : State F V D) (f : F) (row : ℕ) : Option D :=
  match s.writers.lookup row with
  | some (_, .updating before todo) => if f ∈ todo then before else s.stored row
  | _ => s.stored row

/-- The first `n` changes, and none of the field after them, are in the synced files. -/
def Durable (s : Indexes F V) (f : F) : Prop :=
  ∃ n, (n = 0 ∨ ∃ (i : ℕ) (run : IndexCheckpoint.Run F V), s.runs[i]? = some run ∧ f ∈ run.done ∧
    run.ceiling.changes = n) ∧ ∀ d ∈ s.log.drop n, d.field ≠ f

structure CheckpointOk (s : State F V D) (c : Checkpoint F) : Prop where
  covers : ∀ f ∈ p.fields, f ∈ c.todo ∨ f ∈ c.done.map Prod.fst
  done : ∀ fr ∈ c.done, ∃ run : IndexCheckpoint.Run F V,
    s.indexes.runs[fr.2]? = some run ∧ fr.1 ∈ run.done

/-- **The invariant** of the running database. -/
structure Inv (s : State F V D) : Prop where
  indexes : IndexCheckpoint.Inv s.indexes
  known : ∀ f row v, FiledAt s.indexes.log f row v → v ∈ s.values
  filed : ∀ f ∈ p.fields, ∀ row v,
    FiledAt s.indexes.log f row v ↔ p.target f (s.filedAs f row) = some v
  updating : ∀ row value before todo, s.writers.lookup row = some (value, .updating before todo) →
    s.stored row = value ∧ todo <:+ p.fields
  clean : s.markerFile = false → (∀ row w, s.writers.lookup row = some w → w.2.settled = true) ∧
    ∀ f ∈ p.fields, Durable s.indexes f
  checkpoints : ∀ c ∈ s.checkpoints, CheckpointOk p s c

/-- What a crash may find. -/
def CrashOk (s : State F V D) : Prop :=
  if s.markerFile then (∀ f ∈ p.fields, s.checkpointed f = true) ∨ s.flushed = []
  else ∀ row value, latest s.flushed row = some value → latest s.writes row = some value

/-- The invariant of the whole life. -/
def LifeInv (s : State F V D) : Prop :=
  match s.life with
  | .running => Inv p s
  | .crashed => Inv p s ∧ CrashOk p s
  | .reopened => Honest p s

end Step

variable {c : ℕ} {value before : Option D} {todo : List F} {done : List (F × ℕ)} {a : Act F V D}
  {indexes : Indexes F V} {r : ℕ}

section Lemmas

variable [DecidableEq F] [DecidableEq V] {p : Params F V D} {s t : State F V D} {f : F} {row : ℕ}

omit [DecidableEq F] [DecidableEq V] in
theorem latest_cons (writes : List (ℕ × Option D)) (row other : ℕ) (value : Option D) :
    latest ((row, value) :: writes) other = if row = other then some value else latest writes other := by
  rw [latest, latest, List.find?_cons]
  split_ifs with h
  · rw [decide_eq_true h]
    rfl
  · rw [decide_eq_false h]

omit [DecidableEq F] [DecidableEq V] in
theorem target_eq_some_iff {d : Option D} {v : V} :
    p.target f d = some v ↔ d.bind (p.extract f) = some v ∧ p.rejects f v = false := by
  rw [Params.target, Option.filter_eq_some_iff, Bool.not_eq_true']

/-- **Durable rows.** -/
theorem Durable.filedOnDisk {s : Indexes F V} (h : Durable s f) (hinv : IndexCheckpoint.Inv s)
    (row : ℕ) (v : V) : FiledOnDisk s f row v ↔ FiledAt s.log f row v := by
  obtain ⟨n, hn, hlast⟩ := h
  have hclaim : ∃ upTo : Horizon,
      Claimed IndexCheckpoint.Run.Synced s f upTo ∧ upTo.changes = n := by
    rcases hn with rfl | ⟨i, run, hi, hdone, hchanges⟩
    · exact ⟨_, Or.inl rfl, rfl⟩
    · exact ⟨_, Or.inr ⟨run, mem_of_getElem? hi, rfl, Or.inl hdone⟩, hchanges⟩
  obtain ⟨upTo, hclaim, rfl⟩ := hclaim
  obtain ⟨k, -, hk, hdisk⟩ := filedOnDisk_iff hinv hclaim v
  rw [hdisk row, filedAt_take hlast hk]

/-- The runs go on and no change is made. -/
structure Quiet (s t : Indexes F V) : Prop where
  log : t.log = s.log
  runs : ∀ (i : ℕ) (run : IndexCheckpoint.Run F V), s.runs[i]? = some run →
    ∃ run', t.runs[i]? = some run' ∧ run.Follows run'

omit [DecidableEq F] [DecidableEq V] in
theorem Quiet.refl (s : Indexes F V) : Quiet s s :=
  ⟨rfl, fun _ run hi => ⟨run, hi, rfl, fun _ h => h, fun _ h => h⟩⟩

omit [DecidableEq F] [DecidableEq V] in
theorem Quiet.trans {s t u : Indexes F V} (h : Quiet s t) (h' : Quiet t u) : Quiet s u := by
  refine ⟨h'.log.trans h.log, fun i run hi => ?_⟩
  obtain ⟨run', hi', hfollows⟩ := h.runs i run hi
  obtain ⟨run'', hi'', hfollows'⟩ := h'.runs i run' hi'
  refine ⟨run'', hi'', hfollows'.changes.trans hfollows.changes, fun f hf => ?_, fun f hf => ?_⟩
  · exact hfollows'.fields f (hfollows.fields f hf)
  · exact hfollows'.done f (hfollows.done f hf)

theorem quiet_step {s t : Indexes F V} {a : IndexCheckpoint.Act F V (List ℕ)}
    (hst : IndexCheckpoint.step s a = some t) (ha : a.isChange = false) : Quiet s t :=
  ⟨log_step hst ha, fun _ _ hi => follows_step hst hi⟩

theorem quiet_run {s t : Indexes F V} {as : List (IndexCheckpoint.Act F V (List ℕ))}
    (hquiet : ∀ a ∈ as, a.isChange = false)
    (hcalm : StepRun.along IndexCheckpoint.step (fun i a => calm i a && alone i a) s as = true)
    (hinv : IndexCheckpoint.Inv s) (hrun : StepRun.run IndexCheckpoint.step s as = some t) :
    IndexCheckpoint.Inv t ∧ Quiet s t := by
  refine ⟨?_, ?_⟩
  · refine StepRun.invariant_along (fun s a t h hc hst => ?_) hinv hcalm hrun
    obtain ⟨hcalm, halone⟩ := (Bool.and_eq_true _ _).mp hc
    exact h.step hcalm halone hst
  · have hstep : ∀ (u : Indexes F V) (a : IndexCheckpoint.Act F V (List ℕ)) (w : Indexes F V),
        Quiet s u → (!a.isChange) = true → IndexCheckpoint.step u a = some w → Quiet s w :=
      fun u a w h ha hst => h.trans (quiet_step hst ((Bool.not_eq_true' _).mp ha))
    refine StepRun.invariant_of_mem hstep (Quiet.refl s) (fun a ha => ?_) hrun
    rw [hquiet a ha]
    rfl

omit [DecidableEq F] [DecidableEq V] in
theorem Durable.quiet {s t : Indexes F V} (h : Durable s f) (hquiet : Quiet s t) : Durable t f := by
  obtain ⟨n, hn, hlast⟩ := h
  refine ⟨n, hn.imp_right ?_, hquiet.log ▸ hlast⟩
  rintro ⟨i, run, hi, hdone, hchanges⟩
  obtain ⟨run', hi', hfollows⟩ := hquiet.runs i run hi
  exact ⟨i, run', hi', hfollows.done f hdone, hfollows.changes.trans hchanges⟩

omit [DecidableEq F] [DecidableEq V] in
/-- What a checkpoint has done stays done. -/
theorem CheckpointOk.runs {c : Checkpoint F} (h : CheckpointOk p s c)
    (hruns : ∀ (i : ℕ) (run : IndexCheckpoint.Run F V), s.indexes.runs[i]? = some run →
      ∃ run', t.indexes.runs[i]? = some run' ∧ run.Follows run') : CheckpointOk p t c := by
  refine ⟨h.covers, fun fr hfr => ?_⟩
  obtain ⟨run, hi, hdone⟩ := h.done fr hfr
  obtain ⟨run', hi', hfollows⟩ := hruns fr.2 run hi
  exact ⟨run', hi', hfollows.done _ hdone⟩

/-! ### Steps of the writes -/

section FiledAs

omit [DecidableEq V]

theorem filedAs_of_waiting (hwaiting : ∀ w, s.writers.lookup row = some w →
    ∀ before todo, w.2 ≠ .updating before todo) : s.filedAs f row = s.stored row := by
  rw [State.filedAs]
  split
  · rename_i hlookup
    exact absurd rfl (hwaiting _ hlookup _ _)
  · rfl

theorem filedAs_of_updating (hlookup : s.writers.lookup row = some (value, .updating before todo)) :
    s.filedAs f row = if f ∈ todo then before else s.stored row := by
  rw [State.filedAs, hlookup]

theorem filedAs_congr (hlookup : t.writers.lookup row = s.writers.lookup row)
    (hstored : t.stored row = s.stored row) : t.filedAs f row = s.filedAs f row := by
  rw [State.filedAs, State.filedAs, hlookup, hstored]

omit [DecidableEq F] in
theorem stored_congr (hwrites : t.writes = s.writes) (row : ℕ) : t.stored row = s.stored row := by
  rw [State.stored, State.stored, hwrites]

end FiledAs

/-- **A write that is not applied yet** takes the stripe, is noted, or has written the marker. -/
theorem Inv.waiting (h : Inv p s) {stage : Stage F D}
    (hbefore : ∀ w, s.writers.lookup row = some w → ∀ before todo, w.2 ≠ .updating before todo)
    (hstage : ∀ before todo, stage ≠ .updating before todo) (hindexes : t.indexes = s.indexes)
    (hvalues : t.values = s.values) (hwrites : t.writes = s.writes)
    (hwriters : t.writers = s.writers.insert row (value, stage))
    (hcheckpoints : t.checkpoints = s.checkpoints)
    (hmarker : t.markerFile = false → s.markerFile = false) : Inv p t := by
  have hself : t.writers.lookup row = some (value, stage) := by
    rw [hwriters, AList.lookup_insert]
  have hother : ∀ other, other ≠ row → t.writers.lookup other = s.writers.lookup other := by
    intro other hne
    rw [hwriters, AList.lookup_insert_ne hne]
  have hnow : ∀ w, t.writers.lookup row = some w → w.2 = stage := by
    intro w hw
    rw [hself] at hw
    rw [← Option.some.inj hw]
  refine ⟨hindexes ▸ h.indexes, ?_, fun f hf other v => ?_,
    fun other value' before todo hlookup => ?_, fun hclear => ?_, fun c hc => ?_⟩
  · rw [hindexes, hvalues]
    exact h.known
  · rw [hindexes, h.filed f hf other v]
    by_cases hne : other = row
    · subst hne
      rw [filedAs_of_waiting hbefore, filedAs_of_waiting, stored_congr hwrites]
      intro w hw
      rw [hnow w hw]
      exact hstage
    · rw [filedAs_congr (hother other hne) (stored_congr hwrites other)]
  · by_cases hne : other = row
    · subst hne
      exact absurd (hnow _ hlookup).symm (hstage before todo)
    · rw [hother other hne] at hlookup
      rw [stored_congr hwrites]
      exact h.updating other value' before todo hlookup
  · obtain ⟨hsettled, hdurable⟩ := h.clean (hmarker hclear)
    refine ⟨fun other w hw => ?_, hindexes ▸ hdurable⟩
    by_cases hne : other = row
    · subst hne
      rw [hnow w hw]
      cases stage with
      | updating before todo => exact absurd rfl (hstage before todo)
      | noting | marking | marked => rfl
    · rw [hother other hne] at hw
      exact hsettled other w hw
  · rw [hcheckpoints] at hc
    refine (h.checkpoints c hc).runs fun i run hi => ?_
    rw [hindexes]
    exact ⟨run, hi, rfl, fun _ h => h, fun _ h => h⟩

/-- **A write is applied** while the marker is on disk. -/
theorem Inv.apply (h : Inv p s) (hlookup : s.writers.lookup row = some (value, .marked))
    (hmarker : s.markerFile = true) :
    Inv p ({ s with writes := (row, value) :: s.writes }.setWriter row value
      (.updating (s.stored row) p.fields)) := by
  set t := { s with writes := (row, value) :: s.writes }.setWriter row value
    (.updating (s.stored row) p.fields) with ht
  have hself : t.writers.lookup row = some (value, .updating (s.stored row) p.fields) :=
    AList.lookup_insert _
  have hother : ∀ other, other ≠ row → t.writers.lookup other = s.writers.lookup other :=
    fun other hne => AList.lookup_insert_ne hne
  have hstored : ∀ other, t.stored other = if row = other then value else s.stored other := by
    intro other
    rw [State.stored, State.stored]
    change (latest ((row, value) :: s.writes) other).join = _
    rw [latest_cons]
    split_ifs <;> rfl
  have hbefore : ∀ w, s.writers.lookup row = some w → ∀ before todo, w.2 ≠ .updating before todo := by
    intro w hw
    rw [hlookup] at hw
    rw [← Option.some.inj hw]
    nofun
  refine ⟨h.indexes, h.known, fun f hf other v => (h.filed f hf other v).trans ?_,
    fun other value' before todo hlookup' => ?_, fun hclear => ?_, fun c hc => ?_⟩
  · by_cases hne : other = row
    · subst hne
      rw [filedAs_of_waiting hbefore, filedAs_of_updating hself, if_pos hf]
    · rw [filedAs_congr (hother other hne)]
      rw [hstored, if_neg fun heq => hne heq.symm]
  · by_cases hne : other = row
    · subst hne
      rw [hself] at hlookup'
      cases hlookup'
      exact ⟨by rw [hstored, if_pos rfl], List.suffix_refl _⟩
    · rw [hother other hne] at hlookup'
      rw [hstored, if_neg fun heq => hne heq.symm]
      exact h.updating other value' before todo hlookup'
  · have hclear' : s.markerFile = false := hclear
    rw [hmarker] at hclear'
    cases hclear'
  · exact (h.checkpoints c hc).runs fun _ run hi => ⟨run, hi, rfl, fun _ h => h, fun _ h => h⟩

/-- **A field is updated.** -/
theorem Inv.update (h : Inv p s) {readable : Bool}
    (hlookup : s.writers.lookup row = some (value, .updating before (f :: todo)))
    (hcalm : calmChange (p.rejects f) f row (s.rowChange p f before readable value) s.indexes = true) :
    Inv p ({ s with
      indexes := (change (p.rejects f) f row (s.rowChange p f before readable value) s.indexes).1
      values := (s.rowChange p f before readable value).add.toList ++ s.values }.setWriter row value
        (.updating before todo)) := by
  set c := s.rowChange p f before readable value with hc
  set t := { s with
    indexes := (change (p.rejects f) f row c s.indexes).1
    values := c.add.toList ++ s.values }.setWriter row value (.updating before todo) with ht
  have hself : t.writers.lookup row = some (value, .updating before todo) := AList.lookup_insert _
  have hother : ∀ other, other ≠ row → t.writers.lookup other = s.writers.lookup other :=
    fun other hne => AList.lookup_insert_ne hne
  obtain ⟨hstored, hsuffix⟩ := h.updating row value before _ hlookup
  have hf : f ∈ p.fields := hsuffix.subset List.mem_cons_self
  have hnot : f ∉ todo := by
    obtain ⟨l, hl⟩ := hsuffix
    have hnodup := p.nodup
    rw [← hl] at hnodup
    exact (List.nodup_cons.mp hnodup.of_append_right).1
  obtain ⟨hinv, hmoves, hfiled⟩ := change_spec h.indexes hcalm
  obtain ⟨l, hl, hfield⟩ := ofField_change s.indexes (p.rejects f) f row c
  -- another field and another row stay as they are
  have hstay : ∀ g other v, g ≠ f ∨ other ≠ row →
      (FiledAt t.indexes.log g other v ↔ FiledAt s.indexes.log g other v) := by
    intro g other v hne
    by_cases hg : g = f
    · obtain ⟨l', hl', hrow⟩ := hmoves.log
      have hlast := hrow other (hne.resolve_left fun h' => h' hg) l'.length (Nat.le_refl _) v
      rw [List.take_length, ← hl'] at hlast
      rw [hg]
      exact hlast
    · change FiledAt (change (p.rejects f) f row c s.indexes).1.log g other v ↔ _
      rw [hl]
      exact filedAt_append fun d hd heq => hg (heq.symm.trans (hfield d hd))
  have hnow : ∀ v, FiledAt t.indexes.log f row v ↔ p.target f value = some v := by
    intro v
    rw [target_eq_some_iff]
    refine filedAt_ofWrite h.indexes hcalm (h.known f row) (fun w => ?_) v
    rw [h.filed f hf row w, filedAs_of_updating hlookup, if_pos List.mem_cons_self,
      target_eq_some_iff]
  refine ⟨hinv, fun g other v hv => ?_, fun g hg other v => ?_,
    fun other value' before' todo' hlookup' => ?_, fun hclear => ?_, fun c' hc' => ?_⟩
  · change v ∈ c.add.toList ++ s.values
    by_cases hsame : g = f ∧ other = row
    · obtain ⟨rfl, rfl⟩ := hsame
      rcases (hfiled v).mp hv with hold | hnew
      · exact List.mem_append_right _ (h.known g other v hold.1)
      · refine List.mem_append_left _ ?_
        rw [hnew.1]
        exact List.mem_singleton_self v
    · rw [not_and_or] at hsame
      exact List.mem_append_right _ (h.known g other v ((hstay g other v hsame).mp hv))
  · by_cases hne : other = row
    · subst hne
      rw [filedAs_of_updating hself]
      have hst : t.stored other = value := hstored
      by_cases hgf : g = f
      · subst hgf
        rw [if_neg hnot, hst]
        exact hnow v
      · rw [hstay g other v (Or.inl hgf), h.filed g hg other v, filedAs_of_updating hlookup]
        have hmem : g ∈ f :: todo ↔ g ∈ todo := mem_cons.trans (or_iff_right hgf)
        rw [if_congr hmem rfl rfl]
        rfl
    · rw [hstay g other v (Or.inr hne), h.filed g hg other v]
      rw [filedAs_congr (hother other hne) rfl]
  · by_cases hne : other = row
    · subst hne
      rw [hself] at hlookup'
      cases hlookup'
      exact ⟨hstored, (List.suffix_cons f _).trans hsuffix⟩
    · rw [hother other hne] at hlookup'
      exact h.updating other value' before' todo' hlookup'
  · have hsettled := (h.clean hclear).1 row _ hlookup
    cases hsettled
  · refine (h.checkpoints c' hc').runs fun i run hi => ⟨run, ?_, rfl, fun _ h => h, fun _ h => h⟩
    change (change (p.rejects f) f row c s.indexes).1.runs[i]? = some run
    rw [hmoves.runs]
    exact hi

/-- **The stripe is released.** -/
theorem Inv.finish (h : Inv p s)
    (hlookup : s.writers.lookup row = some (value, .updating before [])) :
    Inv p { s with writers := s.writers.erase row } := by
  set t : State F V D := { s with writers := s.writers.erase row } with ht
  have hself : t.writers.lookup row = none := AList.lookup_erase _ _
  have hother : ∀ other, other ≠ row → t.writers.lookup other = s.writers.lookup other :=
    fun other hne => AList.lookup_erase_ne hne
  have hold : ∀ other w, t.writers.lookup other = some w → s.writers.lookup other = some w := by
    intro other w hw
    by_cases hne : other = row
    · rw [hne, hself] at hw
      cases hw
    · rwa [hother other hne] at hw
  refine ⟨h.indexes, h.known, fun f hf other v => (h.filed f hf other v).trans ?_,
    fun other value' before' todo hw => h.updating other value' before' todo (hold other _ hw),
    fun hclear => ?_, fun c hc => ?_⟩
  · by_cases hne : other = row
    · subst hne
      rw [filedAs_of_updating hlookup, if_neg not_mem_nil, filedAs_of_waiting]
      · rfl
      · intro w hw
        rw [hself] at hw
        cases hw
    · rw [filedAs_congr (hother other hne) rfl]
  · obtain ⟨hsettled, hdurable⟩ := h.clean hclear
    exact ⟨fun other w hw => hsettled other w (hold other w hw), hdurable⟩
  · exact (h.checkpoints c hc).runs fun _ run hi => ⟨run, hi, rfl, fun _ h => h, fun _ h => h⟩

/-! ### Steps of the checkpoints -/

/-- A step that no write takes. -/
theorem Inv.aside (h : Inv p s) (hindexes : IndexCheckpoint.Inv t.indexes)
    (hquiet : Quiet s.indexes t.indexes) (hvalues : t.values = s.values)
    (hwrites : t.writes = s.writes) (hwriters : t.writers = s.writers)
    (hclean : t.markerFile = false → (∀ row w, s.writers.lookup row = some w → w.2.settled = true) ∧
      ∀ f ∈ p.fields, Durable s.indexes f)
    (hcheckpoints : ∀ c ∈ t.checkpoints, CheckpointOk p t c) : Inv p t := by
  refine ⟨hindexes, ?_, fun f hf row v => ?_, ?_, fun hclear => ?_, hcheckpoints⟩
  · rw [hquiet.log, hvalues]
    exact h.known
  · rw [hquiet.log, h.filed f hf row v, filedAs_congr (by rw [hwriters]) (stored_congr hwrites row)]
  · intro row value before todo hlookup
    rw [hwriters] at hlookup
    rw [stored_congr hwrites]
    exact h.updating row value before todo hlookup
  · obtain ⟨hsettled, hdurable⟩ := hclean hclear
    exact ⟨hwriters ▸ hsettled, fun f hf => (hdurable f hf).quiet hquiet⟩

/-- A step of the runs. -/
theorem Inv.index (h : Inv p s) (hindexes : IndexCheckpoint.Inv indexes)
    (hquiet : Quiet s.indexes indexes) : Inv p { s with indexes := indexes } :=
  h.aside hindexes hquiet rfl rfl rfl h.clean fun c hc => (h.checkpoints c hc).runs hquiet.runs

/-- A checkpoint goes on. -/
theorem Inv.setCheckpoint (h : Inv p s) {checkpoint : Checkpoint F}
    (hok : CheckpointOk p s checkpoint) : Inv p (s.setCheckpoint c checkpoint) := by
  refine h.aside h.indexes (Quiet.refl _) rfl rfl rfl h.clean fun c' hc' => ?_
  rcases List.mem_or_eq_of_mem_set hc' with hold | rfl
  · exact ⟨(h.checkpoints c' hold).covers, (h.checkpoints c' hold).done⟩
  · exact ⟨hok.covers, hok.done⟩

/-- **A field is staged.** -/
theorem Inv.stage (h : Inv p s) (hc : s.checkpoints[c]? = some ⟨f :: todo, done, .between⟩)
    (hcalm : StepRun.along IndexCheckpoint.step (fun i a => calm i a && alone i a) s.indexes
      (stageActs s f) = true)
    (hrun : StepRun.run IndexCheckpoint.step s.indexes (stageActs s f) = some indexes) :
    Inv p ({ s with indexes := indexes }.setCheckpoint c ⟨f :: todo, done, .working r⟩) := by
  have hquiet : ∀ a ∈ stageActs s f, a.isChange = false := by
    intro a ha
    rw [stageActs] at ha
    simp only [mem_cons, not_mem_nil, or_false] at ha
    rcases ha with rfl | rfl | rfl <;> rfl
  obtain ⟨hinv, hq⟩ := quiet_run hquiet hcalm h.indexes hrun
  have hok := (h.checkpoints _ (mem_of_getElem? hc)).runs
    (t := { s with indexes := indexes }) hq.runs
  exact (h.index hinv hq).setCheckpoint ⟨hok.covers, hok.done⟩

/-- **A field is written out.** -/
theorem Inv.next (h : Inv p s) (hc : s.checkpoints[c]? = some ⟨f :: todo, done, .working r⟩)
    (hrun : (s.indexes.runs[r]?.any fun run => decide (f ∈ run.done)) = true) :
    Inv p (s.setCheckpoint c ⟨todo, done ++ [(f, r)], .between⟩) := by
  have hok := h.checkpoints _ (mem_of_getElem? hc)
  obtain ⟨run, hr, hdone⟩ : ∃ run : IndexCheckpoint.Run F V,
      s.indexes.runs[r]? = some run ∧ f ∈ run.done := by
    cases hr : s.indexes.runs[r]? with
    | none =>
      rw [hr] at hrun
      cases hrun
    | some run =>
      rw [hr, Option.any_some] at hrun
      exact ⟨run, rfl, of_decide_eq_true hrun⟩
  refine h.setCheckpoint ⟨fun g hg => ?_, fun fr hfr => ?_⟩
  · rw [List.map_append, mem_append]
    rcases hok.covers g hg with htodo | hold
    · rcases mem_cons.mp htodo with rfl | htodo
      · exact Or.inr (Or.inr (List.mem_singleton_self _))
      · exact Or.inl htodo
    · exact Or.inr (Or.inl hold)
  · rcases mem_append.mp hfr with hold | hnew
    · exact hok.done fr hold
    · rw [List.mem_singleton.mp hnew]
      exact ⟨run, hr, hdone⟩

/-- **The set is drained** and the marker removed, when every write that is applied is written
out. -/
theorem Inv.drain (h : Inv p s) {left : List F} {ok : Bool}
    (hc : s.checkpoints[c]? = some ⟨[], done, .saving left⟩)
    (hcovered : s.pending = true → ok = true → s.covered done = true) {pending marker : Bool}
    (hmarker : marker = false → s.markerFile = false ∨ s.pending = true ∧ ok = true) :
    Inv p { s with pending := pending, markerFile := marker } := by
  have hok := h.checkpoints _ (mem_of_getElem? hc)
  refine h.aside h.indexes (Quiet.refl _) rfl rfl rfl (fun hclear => ?_) fun c' hc' =>
    ⟨(h.checkpoints c' hc').covers, (h.checkpoints c' hc').done⟩
  rcases hmarker hclear with hold | ⟨hpending, rfl⟩
  · exact h.clean hold
  · have hcov := hcovered hpending rfl
    rw [State.covered, Bool.and_eq_true, all_eq_true, all_eq_true] at hcov
    refine ⟨fun row w hw => hcov.1 ⟨row, w⟩ (AList.mem_lookup_iff.mp hw), fun f hf => ?_⟩
    obtain ⟨fr, hfr, rfl⟩ := List.mem_map.mp ((hok.covers f hf).resolve_left not_mem_nil)
    obtain ⟨run, hrun, hdone⟩ := hok.done fr hfr
    have hlast := hcov.2 fr hfr
    rw [hrun, Option.all_some, all_eq_true] at hlast
    exact ⟨_, Or.inr ⟨fr.2, run, hrun, hdone, rfl⟩, fun d hd => of_decide_eq_true (hlast d hd)⟩

/-! ### Runs -/

variable [DecidableEq D]

/-- **A step of the running database.** -/
theorem Inv.stepRunning (h : Inv p s) (hcareful : careful p s a = true) (hrunning : a ≠ .crash)
    (hst : stepRunning p s a = some t) : Inv p t ∧ t.life = s.life := by
  cases a with
  | index a =>
    obtain ⟨hchange, hst⟩ := Option.ite_none_left_eq_some.mp hst
    obtain ⟨indexes, hindexes, rfl⟩ := Option.map_eq_some_iff.mp hst
    obtain ⟨hcalm, halone⟩ := (Bool.and_eq_true _ _).mp hcareful
    exact ⟨h.index (h.indexes.step hcalm halone hindexes)
      (quiet_step hindexes (Bool.eq_false_iff.mpr hchange)), rfl⟩
  | begin row value =>
    simp only [NoWalMarkers.stepRunning] at hst
    split at hst
    · rename_i hnone
      obtain rfl := Option.some.inj hst
      refine ⟨h.waiting (fun w hw => ?_) (by nofun) rfl rfl rfl rfl rfl id, rfl⟩
      rw [hnone] at hw
      cases hw
    · cases hst
  | note row =>
    simp only [NoWalMarkers.stepRunning] at hst
    split at hst
    · rename_i value hlookup
      have hbefore : ∀ w, s.writers.lookup row = some w →
          ∀ before todo, w.2 ≠ .updating before todo := by
        intro w hw
        rw [hlookup] at hw
        rw [← Option.some.inj hw]
        nofun
      split_ifs at hst
      · obtain rfl := Option.some.inj hst
        exact ⟨h.waiting hbefore (by nofun) rfl rfl rfl rfl rfl id, rfl⟩
      · obtain rfl := Option.some.inj hst
        exact ⟨h.waiting hbefore (by nofun) rfl rfl rfl rfl rfl id, rfl⟩
    · cases hst
  | mark row ok =>
    simp only [NoWalMarkers.stepRunning] at hst
    split at hst
    · rename_i value hlookup
      obtain rfl := Option.some.inj hst
      refine ⟨h.waiting (fun w hw => ?_) (by nofun) rfl rfl rfl rfl rfl fun hclear => ?_, rfl⟩
      · rw [hlookup] at hw
        rw [← Option.some.inj hw]
        nofun
      · exact (Bool.or_eq_false_iff.mp hclear).1
    · cases hst
  | apply row =>
    simp only [NoWalMarkers.stepRunning] at hst
    split at hst
    · rename_i value hlookup
      obtain rfl := Option.some.inj hst
      exact ⟨h.apply hlookup hcareful, rfl⟩
    · cases hst
  | update row readable =>
    simp only [NoWalMarkers.stepRunning] at hst
    split at hst
    · rename_i value before f todo hlookup
      obtain rfl := Option.some.inj hst
      rw [careful, hlookup] at hcareful
      exact ⟨h.update hlookup hcareful, rfl⟩
    · cases hst
  | finish row =>
    simp only [NoWalMarkers.stepRunning] at hst
    split at hst
    · rename_i value before hlookup
      obtain rfl := Option.some.inj hst
      exact ⟨h.finish hlookup, rfl⟩
    · cases hst
  | flush n =>
    obtain ⟨-, rfl⟩ := Option.ite_some_none_eq_some.mp hst
    exact ⟨h.aside h.indexes (Quiet.refl _) rfl rfl rfl h.clean fun c hc =>
      ⟨(h.checkpoints c hc).covers, (h.checkpoints c hc).done⟩, rfl⟩
  | start =>
    obtain rfl := Option.some.inj hst
    refine ⟨h.aside h.indexes (Quiet.refl _) rfl rfl rfl h.clean fun c hc => ?_, rfl⟩
    rcases mem_append.mp hc with hold | hnew
    · exact ⟨(h.checkpoints c hold).covers, (h.checkpoints c hold).done⟩
    · rw [List.mem_singleton.mp hnew]
      exact ⟨fun f hf => Or.inl hf, fun fr hfr => (by cases hfr)⟩
  | stage c =>
    simp only [NoWalMarkers.stepRunning] at hst
    split at hst
    · rename_i f todo done hc
      obtain ⟨indexes, hrun, rfl⟩ := Option.map_eq_some_iff.mp hst
      rw [careful, hc] at hcareful
      exact ⟨h.stage hc hcareful hrun, rfl⟩
    · cases hst
  | next c =>
    simp only [NoWalMarkers.stepRunning] at hst
    split at hst
    · rename_i hc
      obtain ⟨hrun, rfl⟩ := Option.ite_some_none_eq_some.mp hst
      exact ⟨h.next hc hrun, rfl⟩
    · cases hst
  | save c =>
    simp only [NoWalMarkers.stepRunning] at hst
    split at hst
    · rename_i done hc
      obtain rfl := Option.some.inj hst
      have hok := h.checkpoints _ (mem_of_getElem? hc)
      exact ⟨h.setCheckpoint ⟨hok.covers, hok.done⟩, rfl⟩
    · rename_i done f left hc
      obtain rfl := Option.some.inj hst
      have hok := h.checkpoints _ (mem_of_getElem? hc)
      have hsaved : Inv p { s with checkpointed := Function.update s.checkpointed f true } :=
        h.aside h.indexes (Quiet.refl _) rfl rfl rfl h.clean fun c' hc' =>
          ⟨(h.checkpoints c' hc').covers, (h.checkpoints c' hc').done⟩
      exact ⟨hsaved.setCheckpoint ⟨hok.covers, hok.done⟩, rfl⟩
    · cases hst
  | drain c ok =>
    simp only [NoWalMarkers.stepRunning] at hst
    split at hst
    · rename_i done hc
      rw [careful, hc] at hcareful
      have hcovered : s.pending = true → ok = true → s.covered done = true := by
        intro hpending hok
        rw [hpending, hok] at hcareful
        exact hcareful
      have hok := h.checkpoints _ (mem_of_getElem? hc)
      split_ifs at hst with hpending
      · obtain rfl := Option.some.inj hst
        refine ⟨(h.drain hc hcovered fun hclear => ?_).setCheckpoint ⟨hok.covers, hok.done⟩, rfl⟩
        rcases Bool.and_eq_false_iff.mp hclear with hold | hfailed
        · exact Or.inl hold
        · exact Or.inr ⟨hpending, (Bool.not_eq_false' _).mp hfailed⟩
      · obtain rfl := Option.some.inj hst
        exact ⟨h.setCheckpoint ⟨hok.covers, hok.done⟩, rfl⟩
    · cases hst
  | crash => exact absurd rfl hrunning
  | reopen failed => cases hst

/-- **A crash.** -/
theorem Inv.crash (h : Inv p s) (hcareful : careful p s .crash = true) :
    Inv p { s with life := .crashed } ∧ CrashOk p { s with life := .crashed } := by
  refine ⟨h.aside h.indexes (Quiet.refl _) rfl rfl rfl h.clean fun c hc =>
    ⟨(h.checkpoints c hc).covers, (h.checkpoints c hc).done⟩, ?_⟩
  rw [careful] at hcareful
  rw [CrashOk]
  change if s.markerFile = true then _ else _
  split_ifs at hcareful ⊢ with hmarker
  · rw [Bool.or_eq_true, all_eq_true, List.isEmpty_iff] at hcareful
    exact hcareful
  · intro row value hlatest
    obtain ⟨w, hfind, hw⟩ := Option.map_eq_some_iff.mp hlatest
    have hrow := List.find?_some hfind
    have hsame := all_eq_true.mp hcareful w (List.mem_of_find?_eq_some hfind)
    rw [of_decide_eq_true hrow] at hsame
    rw [← of_decide_eq_true hsame]
    exact hlatest

/-- **An open** is honest: what the marker stands for is recorded, and without it the index files
have every write that survived. -/
theorem honest_reopen (h : Inv p s) (hcrash : CrashOk p s) {failed : List F}
    (hcareful : careful p s (.reopen failed) = true) : Honest p (reopen p s failed) := by
  intro f hf
  rw [CrashOk] at hcrash
  split_ifs at hcrash with hmarker
  · rcases hcrash with hall | hnone
    · refine Or.inl ?_
      have hfailed : failed = [] := by
        rw [careful, hmarker] at hcareful
        exact List.isEmpty_iff.mp hcareful
      simp [reopen, hmarker, hall f hf, hfailed, hf]
    · refine Or.inr fun row value hlatest => ?_
      change latest s.flushed row = some value at hlatest
      rw [hnone] at hlatest
      cases hlatest
  · refine Or.inr fun row value hlatest v => ?_
    obtain ⟨hsettled, hdurable⟩ := h.clean (Bool.not_eq_true _ ▸ hmarker)
    have hstored : s.stored row = value := by
      rw [State.stored, hcrash row value hlatest]
      rfl
    have hfiledAs : s.filedAs f row = value := by
      rw [State.filedAs]
      split
      · rename_i todo hlookup
        cases todo with
        | nil => rw [if_neg not_mem_nil, hstored]
        | cons g todo => cases hsettled row _ hlookup
      · exact hstored
    rw [← hfiledAs, ← h.filed f hf row v]
    exact (hdurable f hf).filedOnDisk h.indexes row v

/-- **One step.** -/
theorem LifeInv.step (h : LifeInv p s) (hcareful : careful p s a = true) (hst : step p s a = some t)
    : LifeInv p t := by
  rw [LifeInv] at h
  rw [NoWalMarkers.step] at hst
  cases hlife : s.life with
  | running =>
    rw [hlife] at h hst
    dsimp only at h hst
    by_cases hcrash : a = .crash
    · subst hcrash
      obtain rfl := Option.some.inj hst
      exact h.crash hcareful
    · obtain ⟨hinv, hsame⟩ := h.stepRunning hcareful hcrash hst
      rw [LifeInv, hsame, hlife]
      exact hinv
  | crashed =>
    rw [hlife] at h hst
    dsimp only at h hst
    cases a with
    | reopen failed =>
      obtain rfl := Option.some.inj hst
      exact honest_reopen h.1 h.2 hcareful
    | _ => cases hst
  | reopened =>
    rw [hlife] at hst
    cases hst

omit [DecidableEq D] in
theorem lifeInv_init : LifeInv p State.init := by
  refine ⟨inv_init, fun f row v hfiled => (by cases hfiled), fun f hf row v => ?_,
    fun row value before todo hlookup => (by cases hlookup), fun _ => ⟨fun row w hlookup => ?_,
    fun f _ => ⟨0, Or.inl rfl, fun d hd => (by cases hd)⟩⟩, fun c hc => (by cases hc)⟩
  · exact ⟨fun hfiled => (by cases hfiled), fun htarget => (by cases htarget)⟩
  · cases hlookup

/-- **No index is silently stale** in a run in which every write is applied under the marker and
staged for every field before the marker is removed, and whose crash finds the store as far as the
index files are: after the database is opened again each field has a gap record or files every
write that survived. -/
theorem honest_of_careful (p : Params F V D) {as : List (Act F V D)} {s : State F V D}
    (hcareful : StepRun.along (step p) (careful p) State.init as = true)
    (hrun : StepRun.run (step p) State.init as = some s) (hreopened : s.life = .reopened) :
    Honest p s := by
  have hinv : LifeInv p s :=
    StepRun.invariant_along (fun _ _ _ h hc hst => h.step hc hst) lifeInv_init hcareful hrun
  rw [LifeInv, hreopened] at hinv
  exact hinv

end Lemmas

/-- Two fields of numbers. -/
private def numbers : Params ℕ ℕ ℕ := ⟨[0, 1], fun f d => some (d + f), fun _ v => decide (v = 9),
  by decide⟩

/-- A write with all its steps. -/
private def written (row value : ℕ) : List (Act ℕ ℕ ℕ) :=
  [.begin row (some value), .note row, .apply row, .update row true, .update row true, .finish row]

/-- A field is written out by a run, from the stage on. -/
private def writtenOut (r : ℕ) : List (Act ℕ ℕ ℕ) :=
  [.index (.syncValues r true), .index (.commit r), .index (.syncKeys r),
    .index (.finish r false false), .next 0]

/-- A write is written out for both fields; another is noted when the marker is removed. -/
private def covered : List (Act ℕ ℕ ℕ) :=
  [Act.begin 0 (some 5), .note 0, .mark 0 true] ++ (written 0 5).drop 2 ++
    [Act.flush 0, .start, .stage 0] ++ writtenOut 0 ++ [Act.stage 0] ++ writtenOut 1 ++
    [Act.save 0, .save 0, .save 0, .begin 1 (some 8), .note 1, .drain 0 true, .crash, .reopen []]

theorem honest_covered : ∃ s, StepRun.run (step numbers) State.init covered = some s ∧
    s.gap 0 = false ∧ latest s.writes 0 = some (some 5) ∧ Honest numbers s := by
  have hcareful : StepRun.along (step numbers) (careful numbers) State.init covered = true := by
    decide +kernel
  have hend : (StepRun.run (step numbers) State.init covered).map
      (fun s => (s.life, s.gap 0, latest s.writes 0)) = some (.reopened, false, some (some 5)) := by
    decide +kernel
  obtain ⟨s, hrun, hs⟩ := Option.map_eq_some_iff.mp hend
  obtain ⟨hlife, hs⟩ := Prod.mk.inj hs
  obtain ⟨hgap, hlatest⟩ := Prod.mk.inj hs
  exact ⟨s, hrun, hgap, hlatest, honest_of_careful numbers hcareful hrun hlife⟩

/-- A row is written again after the first field is staged and before the marker is removed. -/
private def overtaken : List (Act ℕ ℕ ℕ) :=
  [Act.begin 0 (some 5), .note 0, .mark 0 true] ++ (written 0 5).drop 2 ++ [Act.start, .stage 0] ++
    written 0 6 ++ writtenOut 0 ++ [Act.stage 0] ++ writtenOut 1 ++
    [Act.save 0, .save 0, .save 0, .drain 0 true, .flush 0, .crash, .reopen []]

/-- **A write that comes between a field's stage and the removal of the marker leaves the field
stale**, and no gap is recorded. -/
theorem not_honest_overtaken :
    ¬ ∀ (p : Params ℕ ℕ ℕ) (as : List (Act ℕ ℕ ℕ)) (s : State ℕ ℕ ℕ),
      StepRun.run (step p) State.init as = some s → s.life = .reopened → Honest p s := by
  intro hall
  have hend : (StepRun.run (step numbers) State.init overtaken).map
      (fun s => (s.life, s.gap 0, latest s.writes 0,
        decide ((s.indexes.fields 0).keymap.onDisk 0 = some 5 ∧
          (s.indexes.fields 0).bitmaps.onDisk 0 = some [0]))) =
        some (.reopened, false, some (some 6), true) := by
    decide +kernel
  obtain ⟨s, hrun, hs⟩ := Option.map_eq_some_iff.mp hend
  obtain ⟨hlife, hs⟩ := Prod.mk.inj hs
  obtain ⟨hgap, hs⟩ := Prod.mk.inj hs
  obtain ⟨hlatest, hs⟩ := Prod.mk.inj hs
  obtain ⟨hname, hbitmap⟩ := of_decide_eq_true hs
  rcases hall numbers overtaken s hrun hlife 0 (by decide) with hrecorded | hfiled
  · rw [hgap] at hrecorded
    cases hrecorded
  · have hstale := (hfiled 0 _ hlatest 5).mp ⟨[0], ⟨0, hname, hbitmap⟩, List.mem_singleton_self 0⟩
    revert hstale
    decide

end NoWalMarkers

end Minnal
