import Minnal.Index.StagedSpill
import Minnal.Library.StepRun

/-!
# Index checkpoints

A run of the index checkpoint takes an offset of the WAL, writes every field's buffered changes
out and records the offset in the field's **marker**, from which the field's index replays the
WAL after a crash. The offset is a **ceiling**: the tail, lowered to the oldest write in flight. A
write registers as in flight when it is appended and is released after its index updates.

Writers, spills and any number of runs interleave between the locks a run takes: a field is
staged under its write lock, its values are synced, the stage is committed under the write lock,
the key tables are synced, and its stores may be compacted.

What is to hold of every state (`Safe`): an index answers all its changes; each of its slots
points at a bitmap that is there; and the synced files of a field have every change of a WAL
entry below the field's marker.
-/

set_option linter.dupNamespace false

namespace Minnal

namespace IndexCheckpoint

open FieldSpill Function
open List (mem_of_getElem? mem_singleton mem_append all_eq_true mem_cons length_append)

variable {F V β : Type}

/-! ### Runs of the checkpoint -/

/-- A change of an index: the WAL entry it is for, if any, and what the value has then. -/
structure Change (F V β : Type) where
  wal : Option ℕ
  field : F
  value : V
  bitmap : Option β
  deriving DecidableEq

/-- Where a run stands. The field it works on is the first of `todo`. -/
inductive Phase (F V : Type) where
  /-- The tail is read, the writes in flight are not. -/
  | reading (tail : ℕ)
  | ready
  | staged (st : DynSpillStage V)
  | valuesSynced (st : DynSpillStage V)
  /-- The values did not sync. -/
  | aborting (st : DynSpillStage V)
  | committed
  | keysSynced
  /-- All fields are written; these markers are left. -/
  | saving (left : List F)
  | ended

/-- How far a run reaches: to the changes of the WAL entries below the offset, and to the first
so many changes. -/
structure Horizon where
  offset : ℕ
  changes : ℕ

/-- One run of the checkpoint. -/
structure Run (F V : Type) where
  ceiling : Horizon
  todo : List F
  done : List F
  phase : Phase F V

/-- Go on with the next field, or with the markers. -/
def Run.next (run : Run F V) : Run F V :=
  { run with phase := if run.todo.isEmpty then .saving run.done else .ready }

structure State (F V β : Type) where
  fields : F → DynFieldIndex V β
  tail : ℕ
  /-- The offsets of the writes in flight. -/
  inFlight : List ℕ
  runs : List (Run F V)
  marker : F → Option ℕ
  /-- The changes so far. -/
  log : List (Change F V β)

def State.init : State F V β where
  fields _ := DynFieldIndex.create
  tail := 0
  inFlight := []
  runs := []
  marker _ := none
  log := []

/-- What can happen next. -/
inductive Act (F V β : Type) where
  | append (size : ℕ)
  | release (offset : ℕ)
  | gain (wal : Option ℕ) (f : F) (v : V) (bitmap : β)
  | lose (wal : Option ℕ) (f : F) (v : V) (bitmap : Option β)
  | spill (f : F) (synced : Bool)
  | start (fields : List F)
  | readInFlight (r : ℕ)
  | stage (r : ℕ)
  | syncValues (r : ℕ) (synced : Bool)
  | abort (r : ℕ)
  | commit (r : ℕ)
  | syncKeys (r : ℕ)
  | finish (r : ℕ) (bitmaps keymap : Bool)
  | save (r : ℕ)

variable [DecidableEq F] [DecidableEq V]

namespace State

variable (s : State F V β)

def setField (f : F) (i : DynFieldIndex V β) : State F V β :=
  { s with fields := Function.update s.fields f i }

def setRun (r : ℕ) (run : Run F V) : State F V β := { s with runs := s.runs.set r run }

/-- A change is for a write in flight, or for none. -/
def mayChange (wal : Option ℕ) : Bool := wal.all fun offset => decide (offset ∈ s.inFlight)

def note (wal : Option ℕ) (f : F) (v : V) (bitmap : Option β) : State F V β :=
  { s with log := s.log ++ [⟨wal, f, v, bitmap⟩] }

end State

/-- One step. -/
def step (s : State F V β) : Act F V β → Option (State F V β)
  | .append size =>
    some { s with tail := s.tail + size + 1, inFlight := s.inFlight ++ [s.tail] }
  | .release offset =>
    if offset ∈ s.inFlight then some { s with inFlight := s.inFlight.erase offset } else none
  | .gain wal f v bitmap =>
    if s.mayChange wal then
      some ((s.setField f ((s.fields f).insertMany v bitmap)).note wal f v (some bitmap))
    else none
  | .lose wal f v bitmap =>
    if s.mayChange wal then
      if ((s.fields f).ordering v).isNone then some s
      else some ((s.setField f ((s.fields f).remove v bitmap)).note wal f v bitmap)
    else none
  | .spill f synced => some (s.setField f ((s.fields f).spill synced))
  | .start fields =>
    some { s with runs := s.runs ++ [⟨⟨0, s.log.length⟩, fields, [], .reading s.tail⟩] }
  | .readInFlight r =>
    match s.runs[r]? with
    | some ⟨ceiling, todo, done, .reading tail⟩ =>
      let run : Run F V :=
        ⟨⟨s.inFlight.foldl min tail, ceiling.changes⟩, todo, done, .ready⟩
      some (s.setRun r run.next)
    | _ => none
  | .stage r =>
    match s.runs[r]? with
    | some ⟨ceiling, f :: todo, done, .ready⟩ =>
      let (staged, st) := (s.fields f).stage
      some ((s.setField f staged).setRun r ⟨ceiling, f :: todo, done, .staged st⟩)
    | _ => none
  | .syncValues r synced =>
    match s.runs[r]? with
    | some ⟨ceiling, f :: todo, done, .staged st⟩ =>
      if synced then
        some ((s.setField f (s.fields f).syncValues).setRun r
          ⟨ceiling, f :: todo, done, .valuesSynced st⟩)
      else some (s.setRun r ⟨ceiling, f :: todo, done, .aborting st⟩)
    | _ => none
  | .abort r =>
    match s.runs[r]? with
    | some ⟨ceiling, f :: todo, done, .aborting st⟩ =>
      some ((s.setField f ((s.fields f).abort st)).setRun r ⟨ceiling, f :: todo, done, .ended⟩)
    | _ => none
  | .commit r =>
    match s.runs[r]? with
    | some ⟨ceiling, f :: todo, done, .valuesSynced st⟩ =>
      some ((s.setField f ((s.fields f).commit st)).setRun r ⟨ceiling, f :: todo, done, .committed⟩)
    | _ => none
  | .syncKeys r =>
    match s.runs[r]? with
    | some ⟨ceiling, f :: todo, done, .committed⟩ =>
      some ((s.setField f (s.fields f).syncKeys).setRun r ⟨ceiling, f :: todo, done, .keysSynced⟩)
    | _ => none
  | .finish r bitmaps keymap =>
    match s.runs[r]? with
    | some ⟨ceiling, f :: todo, done, .keysSynced⟩ =>
      let run : Run F V := ⟨ceiling, todo, done ++ [f], .ready⟩
      if bitmaps || keymap then
        some ((s.setField f ((s.fields f).maybeCompact bitmaps keymap).flush).setRun r run.next)
      else some (s.setRun r run.next)
    | _ => none
  | .save r =>
    match s.runs[r]? with
    | some ⟨ceiling, todo, done, .saving (f :: left)⟩ =>
      some ({ s with marker := Function.update s.marker f (some ceiling.offset) }.setRun r
        ⟨ceiling, todo, done, .saving left⟩)
    | some ⟨ceiling, todo, done, .saving []⟩ => some (s.setRun r ⟨ceiling, todo, done, .ended⟩)
    | _ => none

/-! ### What is to hold -/

/-- What a field's values have after these changes. -/
def contentOf (log : List (Change F V β)) (f : F) (v : V) : Option β :=
  log.foldl (fun b c => if c.field = f ∧ c.value = v then c.bitmap else b) none

/-- **Not behind.** For every value this is what it had at a time when all changes the horizon
reaches had been made. -/
def Since (log : List (Change F V β)) (f : F) (upTo : Horizon) (content : V → β → Prop) : Prop :=
  ∀ v, ∃ k ≤ log.length, upTo.changes ≤ k ∧
    (∀ j c o, log[j]? = some c → c.wal = some o → o < upTo.offset → j < k) ∧
      ∀ b, content v b ↔ contentOf (log.take k) f v = some b

/-- **Safe.** No change of an index is lost, every slot points at a bitmap its value has had, and
the synced files of a field are not behind its marker. -/
structure Safe (s : State F V β) : Prop where
  answers : ∀ f v, (s.fields f).rowsOf v = contentOf s.log f v
  points : ∀ f slot p, (s.fields f).bitmaps.slots slot = some p →
    ∃ b, (s.fields f).bitmaps.diskVals p = some b ∧ (s.fields f).bitmaps.vals p = some b
  stored : ∀ f v b, (s.fields f).Stored v b → ∃ k, contentOf (s.log.take k) f v = some b
  marker : ∀ f offset, s.marker f = some offset → Since s.log f ⟨offset, 0⟩ (s.fields f).OnDisk

/-- The stage a run has in flight, and whether its values are synced. -/
def Run.staging (run : Run F V) : Option (F × DynSpillStage V × Bool) :=
  match run.todo, run.phase with
  | f :: _, .staged st | f :: _, .aborting st => some (f, st, false)
  | f :: _, .valuesSynced st => some (f, st, true)
  | _, _ => none

/-- No value that a stage in flight has seen emptied gains rows. -/
def calm (s : State F V β) : Act F V β → Bool
  | .gain _ f v _ => s.runs.all fun run =>
    match run.staging with
    | some (g, st, _) => decide (g ≠ f) ||
        (s.fields f).emptied.all fun e => decide (e.1 ≠ v) || (st.removals e.2).isNone
    | none => true
  | _ => true

/-- No run stages or compacts a field while a stage of it is in flight. -/
def alone (s : State F V β) : Act F V β → Bool
  | .stage r =>
    match s.runs[r]? with
    | some ⟨_, f :: _, _, _⟩ => !(s.fields f).stageInFlight
    | _ => true
  | .finish r bitmaps keymap =>
    match s.runs[r]? with
    | some ⟨_, f :: _, _, _⟩ => !(bitmaps || keymap) || !(s.fields f).stageInFlight
    | _ => true
  | _ => true

/-- The run that acts. -/
def Act.ofRun : Act F V β → Option ℕ
  | .readInFlight r | .stage r | .syncValues r _ | .abort r | .commit r | .syncKeys r
  | .finish r _ _ | .save r => some r
  | _ => none

/-- **One run at a time.** A run starts when no stage is in flight, and from then on no earlier
one acts. -/
def oneAtATime (s : State F V β) (a : Act F V β) : Bool :=
  match a with
  | .start _ => s.runs.all fun run => run.staging.isNone
  | a => a.ofRun.all fun r => decide (r + 1 = s.runs.length)

/-! ### Contents and horizons -/

section Contents

variable {log : List (Change F V β)} {f : F} {upTo : Horizon} {content : V → β → Prop}

theorem contentOf_concat (log : List (Change F V β)) (c : Change F V β) (f : F) :
    contentOf (log ++ [c]) f =
      if c.field = f then update (contentOf log f) c.value c.bitmap
      else contentOf log f := by
  funext v
  have hlast : contentOf (log ++ [c]) f v =
      if c.field = f ∧ c.value = v then c.bitmap else contentOf log f v := by
    rw [contentOf, List.foldl_append]
    rfl
  rw [hlast]
  by_cases hf : c.field = f
  · rw [if_pos hf, update_apply]
    exact if_congr ⟨fun h => h.2.symm, fun h => ⟨hf, h.symm⟩⟩ rfl rfl
  · rw [if_neg hf, if_neg fun h => hf h.1]

/-- What the values have now is not behind anything. -/
theorem since_now (f : F) (hupTo : upTo.changes ≤ log.length) :
    Since log f upTo fun v b => contentOf log f v = some b := by
  refine fun v => ⟨log.length, Nat.le_refl _, hupTo, fun j c o hj _ _ => ?_, fun b => ?_⟩
  · exact (List.getElem?_eq_some_iff.mp hj).1
  · rw [List.take_length]

/-- Before any change there is nothing. -/
theorem since_nil (hupTo : upTo.changes = 0) (hcontent : ∀ v b, ¬ content v b) :
    Since ([] : List (Change F V β)) f upTo content := by
  refine fun v => ⟨0, Nat.le_refl _, Nat.le_of_eq hupTo, fun j c o hj _ _ => ?_,
    fun b => ⟨fun hb => ?_, fun hb => ?_⟩⟩
  · cases hj
  · exact absurd hb (hcontent v b)
  · cases hb

/-- A change for a later entry leaves contents where they are. -/
theorem Since.concat (h : Since log f upTo content) {c : Change F V β}
    (hc : ∀ o, c.wal = some o → upTo.offset ≤ o) : Since (log ++ [c]) f upTo content := by
  intro v
  obtain ⟨k, hk, hchanges, hbefore, hcontent⟩ := h v
  refine ⟨k, by rw [length_append]; exact Nat.le_add_right_of_le hk, hchanges,
    fun j d o hj hd ho => ?_, fun b => ?_⟩
  · by_cases hlt : j < log.length
    · rw [List.getElem?_append_left hlt] at hj
      exact hbefore j d o hj hd ho
    · have hmem := mem_of_getElem? hj
      rw [List.getElem?_append_right (Nat.le_of_not_lt hlt)] at hj
      have hd' : d = c := mem_singleton.mp (mem_of_getElem? hj)
      exact absurd ho (Nat.not_lt_of_le (hc o (hd' ▸ hd)))
  · rw [List.take_append_of_le_length hk]
    exact hcontent b

/-- What is not behind a horizon is not behind its offset. -/
theorem Since.ofOffset (h : Since log f upTo content) : Since log f ⟨upTo.offset, 0⟩ content := by
  intro v
  obtain ⟨k, hk, -, hbefore, hcontent⟩ := h v
  exact ⟨k, hk, Nat.zero_le _, hbefore, hcontent⟩

theorem Since.congr (h : Since log f upTo content) {content' : V → β → Prop}
    (hcontent : ∀ v b, content' v b ↔ content v b) : Since log f upTo content' := by
  intro v
  obtain ⟨k, hk, hchanges, hbefore, hiff⟩ := h v
  exact ⟨k, hk, hchanges, hbefore, fun b => (hcontent v b).trans (hiff b)⟩

end Contents

/-! ### The invariant -/

/-- The run has committed the field. -/
def Run.Committed (run : Run F V) (f : F) : Prop :=
  f ∈ run.done ∨ run.todo.head? = some f ∧ (run.phase = .committed ∨ run.phase = .keysSynced)

/-- The run has committed the field and synced its key tables. -/
def Run.Synced (run : Run F V) (f : F) : Prop :=
  f ∈ run.done ∨ run.todo.head? = some f ∧ run.phase = .keysSynced

/-- A run or the marker claims that the field is written up to there. A field without a marker
is written up to the start. -/
def Claimed (P : Run F V → F → Prop) (s : State F V β) (f : F) (upTo : Horizon) : Prop :=
  ⟨(s.marker f).getD 0, 0⟩ = upTo ∨ ∃ run ∈ s.runs, run.ceiling = upTo ∧ P run f

variable {run : Run F V} {f : F}

omit [DecidableEq F] [DecidableEq V] in
theorem Run.Synced.committed (h : run.Synced f) : run.Committed f :=
  h.imp id fun hhead => ⟨hhead.1, Or.inr hhead.2⟩

omit [DecidableEq F] [DecidableEq V] in
/-- A run between two fields has committed those it is done with. -/
theorem Run.Committed.mem_done (h : run.Committed f) (hcommitted : run.phase ≠ .committed)
    (hsynced : run.phase ≠ .keysSynced) : f ∈ run.done :=
  h.elim id fun hhead => (hhead.2.elim hcommitted hsynced).elim

variable {s : State F V β} {upTo : Horizon}

omit [DecidableEq F] [DecidableEq V] in
theorem Claimed.committed (h : Claimed Run.Synced s f upTo) : Claimed Run.Committed s f upTo :=
  h.imp id fun ⟨run, hrun, hceiling, hsynced⟩ => ⟨run, hrun, hceiling, hsynced.committed⟩

/-- No change that the horizon reaches is to come. -/
def Settled (s : State F V β) (upTo : Horizon) : Prop :=
  upTo.offset ≤ s.tail ∧ (∀ o ∈ s.inFlight, upTo.offset ≤ o) ∧ upTo.changes ≤ s.log.length

/-- A field and the stage of it that is in flight, if there is one. -/
inductive FieldOk (s : State F V β) (f : F) : Prop
  | resting (hflag : (s.fields f).stageInFlight = false)
    (hnone : ∀ (r : ℕ) (run : Run F V) (st : DynSpillStage V) (b : Bool), s.runs[r]? = some run →
      run.staging ≠ some (f, st, b))
    (hsound : (s.fields f).Sound (contentOf s.log f) (fun _ => none) fun _ => false)
  | inStage {r : ℕ} {run : Run F V} {st : DynSpillStage V} {b : Bool} (snap : V → Option β)
    (hflag : (s.fields f).stageInFlight = true) (hr : s.runs[r]? = some run)
    (hstaging : run.staging = some (f, st, b))
    (hsound : (s.fields f).Sound (contentOf s.log f) st.keymapPending st.keymapRemovals)
    (hstaged : (s.fields f).Staged snap b st)
    (hsince : ∀ upTo, Claimed Run.Committed s f upTo ∨ upTo = run.ceiling →
      Since s.log f upTo fun v x => snap v = some x)

/-- **The invariant.** -/
structure Inv (s : State F V β) : Prop where
  single : ∀ (r r' : ℕ) (run run' : Run F V) (f : F) (st st' : DynSpillStage V) (b b' : Bool),
    s.runs[r]? = some run → s.runs[r']? = some run' → run.staging = some (f, st, b) →
      run'.staging = some (f, st', b') → r = r'
  ceilings : ∀ run ∈ s.runs, match run.phase with
    | .reading tail => tail ≤ s.tail ∧ run.done = [] ∧ run.ceiling.changes ≤ s.log.length
    | .saving left => Settled s run.ceiling ∧ ∀ f ∈ left, f ∈ run.done
    | _ => Settled s run.ceiling
  markers : ∀ f offset, s.marker f = some offset → Settled s ⟨offset, 0⟩
  field : ∀ f, FieldOk s f
  kept : ∀ f upTo, Claimed Run.Committed s f upTo → Since s.log f upTo (s.fields f).Stored
  disk : ∀ f upTo, Claimed Run.Synced s f upTo → Since s.log f upTo (s.fields f).OnDisk

variable {r : ℕ} {b : Bool} {i : DynFieldIndex V β} {wal : Option ℕ} {v : V} {run' : Run F V}
  {phase : Phase F V} {ceiling : Horizon} {todo done : List F} {P : Run F V → F → Prop} {g : F}
  {phase' : Phase F V} {tail : ℕ} {left : List F}

section Steps

variable {s t : State F V β} {f : F}

namespace Inv

/-- What is claimed is settled. -/
theorem settled (h : Inv s) (hc : Claimed Run.Committed s f upTo) : Settled s upTo := by
  rcases hc with rfl | ⟨run, hrun, rfl, hcommitted⟩
  · cases hmarker : s.marker f with
    | none => exact ⟨Nat.zero_le _, fun _ _ => Nat.zero_le _, Nat.zero_le _⟩
    | some offset => exact h.markers f offset hmarker
  · have hceiling := h.ceilings run hrun
    cases hphase : run.phase with
    | reading tail =>
      rw [hphase] at hceiling
      have hdone := hcommitted.mem_done (by rw [hphase]; nofun) (by rw [hphase]; nofun)
      rw [hceiling.2.1] at hdone
      cases hdone
    | saving left =>
      rw [hphase] at hceiling
      exact hceiling.1
    | _ =>
      rw [hphase] at hceiling
      exact hceiling

theorem settled_staging (h : Inv s) {st : DynSpillStage V} (hr : s.runs[r]? = some run)
    (hstaging : run.staging = some (f, st, b)) : Settled s run.ceiling := by
  have hceiling := h.ceilings run (mem_of_getElem? hr)
  obtain ⟨ceiling, todo, done, phase⟩ := run
  cases todo with
  | nil => cases hstaging
  | cons g todo =>
    cases phase with
    | staged st | valuesSynced st | aborting st => exact hceiling
    | _ => cases hstaging

end Inv

/-- A field that a step does not touch. -/
theorem FieldOk.transfer (h : FieldOk s f) (hfield : t.fields f = s.fields f)
    (hcontent : contentOf t.log f = contentOf s.log f)
    (hback : ∀ (r : ℕ) (run : Run F V) (st : DynSpillStage V) (b : Bool), t.runs[r]? = some run →
      run.staging = some (f, st, b) → s.runs[r]? = some run)
    (hforth : ∀ (r : ℕ) (run : Run F V) (st : DynSpillStage V) (b : Bool), s.runs[r]? = some run →
      run.staging = some (f, st, b) → t.runs[r]? = some run)
    (hclaims : ∀ upTo, Claimed Run.Committed t f upTo → Claimed Run.Committed s f upTo)
    (hsince : ∀ upTo (x : V → β → Prop), (Claimed Run.Committed s f upTo ∨
      ∃ (r : ℕ) (run : Run F V) (st : DynSpillStage V) (b : Bool), s.runs[r]? = some run ∧
        run.staging = some (f, st, b) ∧ upTo = run.ceiling) →
          Since s.log f upTo x → Since t.log f upTo x) : FieldOk t f := by
  cases h with
  | resting hflag hnone hsound =>
    refine .resting (hfield ▸ hflag) (fun r run st b hr hstaging => ?_) ?_
    · exact hnone r run st b (hback r run st b hr hstaging) hstaging
    · rw [hfield, hcontent]
      exact hsound
  | @inStage r run st b snap hflag hr hstaging hsound hstaged hold =>
    refine .inStage snap (hfield ▸ hflag) (hforth r run st b hr hstaging) hstaging ?_ (hfield ▸ hstaged)
      fun upTo hupTo => ?_
    · rw [hfield, hcontent]
      exact hsound
    · have hupTo' := hupTo.imp_left (hclaims upTo)
      exact hsince upTo _ (hupTo'.imp_right fun heq => ⟨r, run, st, b, hr, hstaging, heq⟩)
        (hold upTo hupTo')

/-! ### The WAL -/

/-- The WAL goes on: nothing that is settled is unsettled. -/
theorem Inv.ofWal (h : Inv s) (hfields : t.fields = s.fields) (hruns : t.runs = s.runs)
    (hmarker : t.marker = s.marker) (hlog : t.log = s.log) (htail : s.tail ≤ t.tail)
    (hsettled : ∀ offset, offset ≤ s.tail → (∀ o ∈ s.inFlight, offset ≤ o) →
      ∀ o ∈ t.inFlight, offset ≤ o) : Inv t := by
  have hsettled' : ∀ upTo, Settled s upTo → Settled t upTo := fun upTo h =>
    ⟨h.1.trans htail, hsettled _ h.1 h.2.1, hlog ▸ h.2.2⟩
  have hclaims : ∀ (P : Run F V → F → Prop) g upTo, Claimed P t g upTo ↔ Claimed P s g upTo := by
    intro P g upTo
    rw [Claimed, Claimed, hruns, hmarker]
  refine ⟨hruns ▸ h.single, fun run hrun => ?_, fun g upTo hg => ?_, fun g => ?_,
    fun g upTo hg => ?_, fun g upTo hg => ?_⟩
  · have hceiling := h.ceilings run (hruns ▸ hrun)
    cases hphase : run.phase <;> rw [hphase] at hceiling
    case reading tail => exact ⟨hceiling.1.trans htail, hceiling.2.1, hlog ▸ hceiling.2.2⟩
    case saving left => exact ⟨hsettled' _ hceiling.1, hceiling.2⟩
    all_goals exact hsettled' _ hceiling
  · exact hsettled' _ (h.markers g upTo (hmarker ▸ hg))
  · exact (h.field g).transfer (congrFun hfields g) (by rw [hlog]) (fun r run st b hr _ => hruns ▸ hr)
      (fun r run st b hr _ => hruns ▸ hr) (fun upTo hg => (hclaims _ g upTo).mp hg)
      fun upTo x _ hx => hlog ▸ hx
  · rw [hlog, hfields]
    exact h.kept g upTo ((hclaims _ g upTo).mp hg)
  · rw [hlog, hfields]
    exact h.disk g upTo ((hclaims _ g upTo).mp hg)

theorem Inv.append (h : Inv s) (size : ℕ) :
    Inv { s with tail := s.tail + size + 1, inFlight := s.inFlight ++ [s.tail] } := by
  have htail : s.tail ≤ s.tail + size + 1 := Nat.le_add_right_of_le (Nat.le_add_right _ _)
  refine h.ofWal rfl rfl rfl rfl htail fun offset hoffset hflight o ho => ?_
  rcases mem_append.mp ho with hold | hnew
  · exact hflight o hold
  · rw [mem_singleton.mp hnew]
    exact hoffset

theorem Inv.release (h : Inv s) (offset : ℕ) :
    Inv { s with inFlight := s.inFlight.erase offset } :=
  h.ofWal rfl rfl rfl rfl (Nat.le_refl _) fun _ _ hflight o ho =>
    hflight o (List.mem_of_mem_erase ho)

/-! ### Changes and spills -/

/-- A change of one field: what is settled has nothing to do with it. -/
theorem Inv.change (h : Inv s) {bitmap : Option β} (hwal : s.mayChange wal = true)
    (hflag : i.stageInFlight = (s.fields f).stageInFlight)
    (hsound : ∀ ns fs, (s.fields f).Sound (contentOf s.log f) ns fs →
      i.Sound (update (contentOf s.log f) v bitmap) ns fs)
    (hstaged : ∀ (r : ℕ) (run : Run F V) (st : DynSpillStage V) (b : Bool) (snap : V → Option β),
      s.runs[r]? = some run → run.staging = some (f, st, b) →
        (s.fields f).Sound (contentOf s.log f) st.keymapPending st.keymapRemovals →
          (s.fields f).Staged snap b st → i.Staged snap b st)
    (hstored : ∀ w b, i.Stored w b ↔ (s.fields f).Stored w b)
    (hdisk : ∀ w b, i.OnDisk w b ↔ (s.fields f).OnDisk w b) :
    Inv ((s.setField f i).note wal f v bitmap) := by
  set t := (s.setField f i).note wal f v bitmap with ht
  have hconcat : ∀ g upTo (x : V → β → Prop), Settled s upTo → Since s.log g upTo x →
      Since t.log g upTo x := by
    intro g upTo x hsettled hx
    refine hx.concat fun o ho => hsettled.2.1 o ?_
    have ho' : wal = some o := ho
    rw [ho', State.mayChange] at hwal
    exact of_decide_eq_true hwal
  have hself : contentOf t.log f = update (contentOf s.log f) v bitmap :=
    (contentOf_concat s.log _ f).trans (if_pos rfl)
  have hfields : t.fields f = i := update_self _ _ _
  have hlonger : s.log.length ≤ t.log.length := by
    rw [ht, State.note, length_append]
    exact Nat.le_add_right _ _
  have hsettled : ∀ upTo, Settled s upTo → Settled t upTo := fun upTo h =>
    ⟨h.1, h.2.1, h.2.2.trans hlonger⟩
  refine ⟨h.single, fun run hrun => ?_, fun g offset hg => hsettled _ (h.markers g offset hg),
    fun g => ?_, fun g upTo hg => ?_, fun g upTo hg => ?_⟩
  · have hceiling := h.ceilings run hrun
    cases hphase : run.phase <;> rw [hphase] at hceiling
    case reading tail => exact ⟨hceiling.1, hceiling.2.1, hceiling.2.2.trans hlonger⟩
    case saving left => exact ⟨hsettled _ hceiling.1, hceiling.2⟩
    all_goals exact hsettled _ hceiling
  · by_cases hg : g = f
    · subst hg
      cases h.field g with
      | resting hrest hnone hold =>
        refine .resting ?_ hnone ?_
        · rw [hfields, hflag, hrest]
        · rw [hfields, hself]
          exact hsound _ _ hold
      | @inStage r run st b snap hbusy hr hstaging hold hst hsince =>
        refine .inStage snap ?_ hr hstaging ?_ ?_ fun upTo hupTo => ?_
        · rw [hfields, hflag, hbusy]
        · rw [hfields, hself]
          exact hsound _ _ hold
        · rw [hfields]
          exact hstaged r run st b snap hr hstaging hold hst
        · refine hconcat g upTo _ ?_ (hsince upTo hupTo)
          rcases hupTo with hclaim | rfl
          · exact h.settled hclaim
          · exact h.settled_staging hr hstaging
    · refine (h.field g).transfer (update_of_ne hg _ _) ?_ (fun _ _ _ _ hr _ => hr)
        (fun _ _ _ _ hr _ => hr) (fun _ hc => hc) fun upTo x hupTo hx => hconcat g upTo x ?_ hx
      · exact (contentOf_concat s.log _ g).trans (if_neg fun heq => hg heq.symm)
      · rcases hupTo with hclaim | ⟨r, run, st, b, hr, hstaging, rfl⟩
        · exact h.settled hclaim
        · exact h.settled_staging hr hstaging
  · have hold := hconcat g upTo _ (h.settled hg) (h.kept g upTo hg)
    by_cases hgf : g = f
    · subst hgf
      rw [hfields]
      exact hold.congr hstored
    · have hsame : t.fields g = s.fields g := update_of_ne hgf _ _
      rw [hsame]
      exact hold
  · have hold := hconcat g upTo _ (h.settled (Claimed.committed hg)) (h.disk g upTo hg)
    by_cases hgf : g = f
    · subst hgf
      rw [hfields]
      exact hold.congr hdisk
    · have hsame : t.fields g = s.fields g := update_of_ne hgf _ _
      rw [hsame]
      exact hold

theorem Inv.gain (h : Inv s) {bitmap : β} (hwal : s.mayChange wal = true)
    (hcalm : calm s (.gain wal f v bitmap) = true) :
    Inv ((s.setField f ((s.fields f).insertMany v bitmap)).note wal f v (some bitmap)) := by
  refine h.change hwal rfl (fun ns fs hsound => hsound.insertMany v bitmap)
    (fun r run st b snap hr hstaging hsound hstaged => hstaged.insertMany hsound (fun slot hmem => ?_) bitmap)
    (fun w b => Iff.rfl) fun w b => Iff.rfl
  have hrun := all_eq_true.mp hcalm run (mem_of_getElem? hr)
  rw [hstaging] at hrun
  simp only [ne_eq, not_true_eq_false, decide_false, Bool.false_or] at hrun
  have hslot := all_eq_true.mp hrun (v, slot) hmem
  simp only [not_true_eq_false, decide_false, Bool.false_or] at hslot
  exact Option.isNone_iff_eq_none.mp hslot

theorem Inv.lose (h : Inv s) {slot : ℕ} (hwal : s.mayChange wal = true)
    (hv : (s.fields f).ordering v = some slot) (bitmap : Option β) :
    Inv ((s.setField f ((s.fields f).remove v bitmap)).note wal f v bitmap) := by
  obtain ⟨hbitmaps, hkeymap, -, -, -, hflag⟩ :=
    DynFieldIndex.frame_remove (i := s.fields f) v bitmap
  refine h.change hwal hflag (fun ns fs hsound => hsound.remove hv bitmap)
    (fun r run st b snap _ _ hsound hstaged => hstaged.remove hsound hv bitmap)
    (fun w b => ?_) fun w b => ?_
  · rw [DynFieldIndex.Stored, hbitmaps, hkeymap]
    rfl
  · rw [DynFieldIndex.OnDisk, hbitmaps, hkeymap]
    rfl

omit [DecidableEq F] [DecidableEq V] in
/-- What a claim is after one run has moved. -/
theorem claimed_setRun (h : Claimed P (s.setRun r run) g upTo) :
    Claimed P s g upTo ∨ upTo = run.ceiling ∧ P run g := by
  rcases h with hmarker | ⟨run', hrun', rfl, hP⟩
  · exact Or.inl (Or.inl hmarker)
  · rcases List.mem_or_eq_of_mem_set hrun' with hold | rfl
    · exact Or.inl (Or.inr ⟨run', hold, rfl, hP⟩)
    · exact Or.inr ⟨rfl, hP⟩

omit [DecidableEq F] [DecidableEq V] in
theorem runs_setRun (hr : s.runs[r]? = some run) (r' : ℕ) :
    (s.setRun r run').runs[r']? = if r' = r then some run' else s.runs[r']? := by
  change (s.runs.set r run')[r']? = _
  have hlt := (List.getElem?_eq_some_iff.mp hr).1
  rw [List.getElem?_set]
  by_cases heq : r = r'
  · rw [if_pos heq, if_pos heq.symm, if_pos hlt]
  · rw [if_neg heq, if_neg fun h => heq h.symm]

/-- The fields a run has nothing to do with. -/
structure Elsewhere (run run' : Run F V) (f : F) : Prop where
  staging : ∀ g st b, run.staging = some (g, st, b) → g = f
  staging' : ∀ g st b, run'.staging = some (g, st, b) → g = f
  ceiling : run'.ceiling = run.ceiling
  committed : ∀ g, g ≠ f → run'.Committed g → run.Committed g
  synced : ∀ g, g ≠ f → run'.Synced g → run.Synced g

/-- **A step of a run.** It works on one field. -/
theorem Inv.work (h : Inv s) (hr : s.runs[r]? = some run) (helse : Elsewhere run run' f)
    (hceilings : match run'.phase with
      | .reading _ => False
      | .saving left => Settled s run'.ceiling ∧ ∀ f ∈ left, f ∈ run'.done
      | _ => Settled s run'.ceiling)
    (hsingle : ∀ r' run'' st st' b b', r' ≠ r → s.runs[r']? = some run'' →
      run''.staging = some (f, st, b) → run'.staging ≠ some (f, st', b'))
    (hfield : FieldOk ((s.setField f i).setRun r run') f)
    (hkept : ∀ upTo, Claimed Run.Committed s f upTo ∨ upTo = run.ceiling ∧ run'.Committed f →
      Since s.log f upTo i.Stored)
    (hdisk : ∀ upTo, Claimed Run.Synced s f upTo ∨ upTo = run.ceiling ∧ run'.Synced f →
      Since s.log f upTo i.OnDisk) : Inv ((s.setField f i).setRun r run') := by
  set t := (s.setField f i).setRun r run' with ht
  have hruns : ∀ r', t.runs[r']? = if r' = r then some run' else s.runs[r']? :=
    fun r' => runs_setRun (s := s.setField f i) hr r'
  have hsame : ∀ g, g ≠ f → t.fields g = s.fields g := fun g hg => update_of_ne hg _ _
  have hself : t.fields f = i := update_self _ _ _
  have hclaims : ∀ g, g ≠ f → ∀ upTo,
      (Claimed Run.Committed t g upTo → Claimed Run.Committed s g upTo) ∧
        (Claimed Run.Synced t g upTo → Claimed Run.Synced s g upTo) := by
    intro g hg upTo
    have hmem := mem_of_getElem? hr
    constructor
    · intro hclaim
      rcases claimed_setRun hclaim with hold | ⟨rfl, hdone⟩
      · exact hold
      · exact Or.inr ⟨run, hmem, helse.ceiling.symm, helse.committed g hg hdone⟩
    · intro hclaim
      rcases claimed_setRun hclaim with hold | ⟨rfl, hdone⟩
      · exact hold
      · exact Or.inr ⟨run, hmem, helse.ceiling.symm, helse.synced g hg hdone⟩
  refine ⟨fun r₁ r₂ run₁ run₂ g st₁ st₂ b₁ b₂ h₁ h₂ hs₁ hs₂ => ?_, fun run₁ hrun₁ => ?_, h.markers,
    fun g => ?_, fun g upTo hg => ?_, fun g upTo hg => ?_⟩
  · rw [hruns] at h₁ h₂
    split_ifs at h₁ h₂ with he₁ he₂ he₂
    · rw [he₁, he₂]
    · obtain rfl := Option.some.inj h₁
      obtain rfl := helse.staging' g st₁ b₁ hs₁
      exact absurd hs₁ (hsingle r₂ run₂ st₂ st₁ b₂ b₁ he₂ h₂ hs₂)
    · obtain rfl := Option.some.inj h₂
      obtain rfl := helse.staging' g st₂ b₂ hs₂
      exact absurd hs₂ (hsingle r₁ run₁ st₁ st₂ b₁ b₂ he₁ h₁ hs₁)
    · exact h.single r₁ r₂ run₁ run₂ g st₁ st₂ b₁ b₂ h₁ h₂ hs₁ hs₂
  · rcases List.mem_or_eq_of_mem_set hrun₁ with hold | rfl
    · exact h.ceilings run₁ hold
    · cases hphase : run₁.phase <;> rw [hphase] at hceilings
      case reading tail => exact hceilings.elim
      all_goals exact hceilings
  · by_cases hg : g = f
    · rw [hg]
      exact hfield
    · refine (h.field g).transfer (hsame g hg) rfl (fun r₁ run₁ st b h₁ hs₁ => ?_)
        (fun r₁ run₁ st b h₁ hs₁ => ?_) (fun upTo => (hclaims g hg upTo).1)
        fun upTo x _ hx => hx
      · rw [hruns] at h₁
        split_ifs at h₁ with he
        · obtain rfl := Option.some.inj h₁
          exact absurd (helse.staging' g st b hs₁) hg
        · exact h₁
      · rw [hruns, if_neg]
        · exact h₁
        · rintro rfl
          obtain rfl := Option.some.inj (hr.symm.trans h₁)
          exact hg (helse.staging g st b hs₁)
  · by_cases hgf : g = f
    · subst hgf
      rw [hself]
      refine hkept upTo ?_
      rcases claimed_setRun hg with hold | ⟨rfl, hdone⟩
      · exact Or.inl hold
      · exact Or.inr ⟨helse.ceiling, hdone⟩
    · rw [hsame g hgf]
      exact h.kept g upTo ((hclaims g hgf upTo).1 hg)
  · by_cases hgf : g = f
    · subst hgf
      rw [hself]
      refine hdisk upTo ?_
      rcases claimed_setRun hg with hold | ⟨rfl, hdone⟩
      · exact Or.inl hold
      · exact Or.inr ⟨helse.ceiling, hdone⟩
    · rw [hsame g hgf]
      exact h.disk g upTo ((hclaims g hgf upTo).2 hg)

/-- The field of a stage in flight. -/
theorem Inv.inStage (h : Inv s) {st : DynSpillStage V} (hr : s.runs[r]? = some run)
    (hstaging : run.staging = some (f, st, b)) :
    ∃ snap, (s.fields f).stageInFlight = true ∧
      (s.fields f).Sound (contentOf s.log f) st.keymapPending st.keymapRemovals ∧
        (s.fields f).Staged snap b st ∧
          ∀ upTo, Claimed Run.Committed s f upTo ∨ upTo = run.ceiling →
            Since s.log f upTo fun v x => snap v = some x := by
  cases h.field f with
  | resting _ hnone _ => exact absurd hstaging (hnone r run st b hr)
  | @inStage r' run' st' b' snap hflag hr' hstaging' hsound hstaged hsince =>
    obtain rfl := h.single r r' run run' f st st' b b' hr hr' hstaging hstaging'
    obtain rfl := Option.some.inj (hr.symm.trans hr')
    obtain ⟨-, hrest⟩ := Prod.mk.inj (Option.some.inj (hstaging.symm.trans hstaging'))
    obtain ⟨rfl, rfl⟩ := Prod.mk.inj hrest
    exact ⟨snap, hflag, hsound, hstaged, hsince⟩

theorem Inv.resting (h : Inv s) (hflag : (s.fields f).stageInFlight = false) :
    (∀ (r : ℕ) (run : Run F V) (st : DynSpillStage V) (b : Bool), s.runs[r]? = some run →
      run.staging ≠ some (f, st, b)) ∧
        (s.fields f).Sound (contentOf s.log f) (fun _ => none) fun _ => false := by
  cases h.field f with
  | resting _ hnone hsound => exact ⟨hnone, hsound⟩
  | inStage snap hbusy =>
    rw [hflag] at hbusy
    cases hbusy

section Work

variable {r : ℕ} {ceiling : Horizon} {todo done : List F} {st : DynSpillStage V}

omit [DecidableEq F] [DecidableEq V] in
theorem staging_field (h : (⟨ceiling, f :: todo, done, phase⟩ : Run F V).staging = some (g, st, b))
    : g = f := by
  cases phase <;> cases h <;> rfl

omit [DecidableEq F] [DecidableEq V] in
/-- A run that goes from one place to another at the same field. -/
theorem elsewhere_of_phase (phase phase' : Phase F V) :
    Elsewhere (⟨ceiling, f :: todo, done, phase⟩ : Run F V) ⟨ceiling, f :: todo, done, phase'⟩ f where
  staging _ _ _ h := staging_field h
  staging' _ _ _ h := staging_field h
  ceiling := rfl
  committed g hg h := by
    rcases h with hdone | ⟨hhead, -⟩
    · exact Or.inl hdone
    · exact absurd (Option.some.inj hhead).symm hg
  synced g hg h := by
    rcases h with hdone | ⟨hhead, -⟩
    · exact Or.inl hdone
    · exact absurd (Option.some.inj hhead).symm hg

omit [DecidableEq F] [DecidableEq V] in
/-- A run that has not committed the field it works on. -/
theorem committed_of_phase (phase' : Phase F V) (hcommitted : phase ≠ .committed)
    (hsynced : phase ≠ .keysSynced) (h : (⟨ceiling, f :: todo, done, phase⟩ : Run F V).Committed f) :
    (⟨ceiling, f :: todo, done, phase'⟩ : Run F V).Committed f :=
  Or.inl (h.mem_done hcommitted hsynced)

omit [DecidableEq F] [DecidableEq V] in
theorem synced_of_phase (phase' : Phase F V) (hsynced : phase ≠ .keysSynced)
    (h : (⟨ceiling, f :: todo, done, phase⟩ : Run F V).Synced f) :
    (⟨ceiling, f :: todo, done, phase'⟩ : Run F V).Synced f :=
  h.imp id fun hhead => (hsynced hhead.2).elim

omit [DecidableEq F] [DecidableEq V] in
/-- A claim that a run makes before and after a step. -/
theorem claimed_of_done (hr : s.runs[r]? = some run) {Q : Prop} (hQ : Q → P run f)
    (h : Claimed P s f upTo ∨ upTo = run.ceiling ∧ Q) : Claimed P s f upTo := by
  rcases h with hclaim | ⟨rfl, hq⟩
  · exact hclaim
  · exact Or.inr ⟨run, mem_of_getElem? hr, rfl, hQ hq⟩

theorem Inv.stage (h : Inv s) (hr : s.runs[r]? = some ⟨ceiling, f :: todo, done, .ready⟩)
    (hflag : (s.fields f).stageInFlight = false) :
    Inv ((s.setField f (s.fields f).stage.1).setRun r
      ⟨ceiling, f :: todo, done, .staged (s.fields f).stage.2⟩) := by
  obtain ⟨hnone, hsound⟩ := h.resting hflag
  have hself : ((s.setField f (s.fields f).stage.1).setRun r
      ⟨ceiling, f :: todo, done, .staged (s.fields f).stage.2⟩).fields f = (s.fields f).stage.1 :=
    update_self _ _ _
  refine h.work hr (elsewhere_of_phase _ _) (h.ceilings _ (mem_of_getElem? hr))
    (fun r' run'' st st' b b' _ hr' hst => absurd hst (hnone r' run'' st b hr')) ?_
    (fun upTo hupTo => ?_) fun upTo hupTo => ?_
  · refine .inStage (contentOf s.log f) (r := r) ?_ ((runs_setRun hr r).trans (if_pos rfl)) rfl ?_ ?_
      fun upTo hupTo => since_now f ?_
    · rw [hself]
      rfl
    · rw [hself]
      exact hsound.stage
    · rw [hself]
      exact hsound.staged
    · -- the stage holds all that the index holds now
      have hsettled : Settled s upTo := by
        rcases hupTo with hclaim | rfl
        · rcases claimed_setRun hclaim with hold | ⟨rfl, -⟩
          · exact h.settled hold
          · exact h.ceilings _ (mem_of_getElem? hr)
        · exact h.ceilings _ (mem_of_getElem? hr)
      exact hsettled.2.2
  · exact (h.kept f upTo (claimed_of_done hr
      (committed_of_phase _ (by nofun) (by nofun)) hupTo)).congr hsound.stored_stage
  · exact h.disk f upTo (claimed_of_done hr (synced_of_phase _ (by nofun)) hupTo)

theorem Inv.syncValues (h : Inv s) (hr : s.runs[r]? = some ⟨ceiling, f :: todo, done, .staged st⟩) :
    Inv ((s.setField f (s.fields f).syncValues).setRun r
      ⟨ceiling, f :: todo, done, .valuesSynced st⟩) := by
  obtain ⟨snap, hflag, hsound, hstaged, hsince⟩ := h.inStage hr rfl
  have hself : ((s.setField f (s.fields f).syncValues).setRun r
      ⟨ceiling, f :: todo, done, .valuesSynced st⟩).fields f = (s.fields f).syncValues :=
    update_self _ _ _
  refine h.work hr (elsewhere_of_phase _ _) (h.ceilings _ (mem_of_getElem? hr))
    (fun r' run'' st' _ b' _ hne hr' hst =>
      absurd (h.single r' r run'' _ f st' st b' false hr' hr hst rfl) hne) ?_
    (fun upTo hupTo => ?_) fun upTo hupTo => ?_
  · refine .inStage snap (r := r) ?_ ((runs_setRun hr r).trans (if_pos rfl)) rfl ?_ ?_
      fun upTo hupTo => hsince upTo ?_
    · rw [hself]
      exact hflag
    · rw [hself]
      exact hsound.syncValues
    · rw [hself]
      exact hstaged.syncValues true
    · rcases hupTo with hclaim | heq
      · refine Or.inl ?_
        rcases claimed_setRun hclaim with hold | ⟨rfl, hdone⟩
        · exact hold
        · exact claimed_of_done hr (committed_of_phase _ (by nofun) (by nofun))
            (Or.inr ⟨rfl, hdone⟩)
      · exact Or.inr heq
  · exact h.kept f upTo (claimed_of_done hr
      (committed_of_phase _ (by nofun) (by nofun)) hupTo)
  · exact (h.disk f upTo (claimed_of_done hr (synced_of_phase _ (by nofun)) hupTo)).congr
      hsound.onDisk_syncValues

/-- The values did not sync: the stage stays in flight until it is aborted. -/
theorem Inv.syncFailed (h : Inv s) (hr : s.runs[r]? = some ⟨ceiling, f :: todo, done, .staged st⟩) :
    Inv (s.setRun r ⟨ceiling, f :: todo, done, .aborting st⟩) := by
  obtain ⟨snap, hflag, hsound, hstaged, hsince⟩ := h.inStage hr rfl
  have hsame : s.setField f (s.fields f) = s := by
    rw [State.setField, update_eq_self]
  have hgoal : Inv ((s.setField f (s.fields f)).setRun r ⟨ceiling, f :: todo, done, .aborting st⟩) := by
    refine h.work hr (elsewhere_of_phase _ _) (h.ceilings _ (mem_of_getElem? hr))
      (fun r' run'' st' _ b' _ hne hr' hst =>
        absurd (h.single r' r run'' _ f st' st b' false hr' hr hst rfl) hne) ?_
      (fun upTo hupTo => ?_) fun upTo hupTo => ?_
    · rw [hsame]
      refine .inStage snap (r := r) hflag ((runs_setRun hr r).trans (if_pos rfl)) rfl hsound hstaged
        fun upTo hupTo => hsince upTo ?_
      rcases hupTo with hclaim | heq
      · refine Or.inl ?_
        rcases claimed_setRun hclaim with hold | ⟨rfl, hdone⟩
        · exact hold
        · exact claimed_of_done hr (committed_of_phase _ (by nofun) (by nofun))
            (Or.inr ⟨rfl, hdone⟩)
      · exact Or.inr heq
    · exact h.kept f upTo (claimed_of_done hr
        (committed_of_phase _ (by nofun) (by nofun)) hupTo)
    · exact h.disk f upTo (claimed_of_done hr (synced_of_phase _ (by nofun)) hupTo)
  rwa [hsame] at hgoal

/-- After the end of a stage no run has one of the field. -/
theorem Inv.endStage (h : Inv s) (hr : s.runs[r]? = some ⟨ceiling, f :: todo, done, phase⟩)
    (hstaging : (⟨ceiling, f :: todo, done, phase⟩ : Run F V).staging = some (f, st, b))
    (hnone : (⟨ceiling, f :: todo, done, phase'⟩ : Run F V).staging = none)
    (hflag : i.stageInFlight = false)
    (hsound : i.Sound (contentOf s.log f) (fun _ => none) fun _ => false) :
    FieldOk ((s.setField f i).setRun r ⟨ceiling, f :: todo, done, phase'⟩) f := by
  have hself : ((s.setField f i).setRun r ⟨ceiling, f :: todo, done, phase'⟩).fields f = i :=
    update_self _ _ _
  refine .resting ?_ (fun r' run' st' b' hr' hst => ?_) ?_
  · rw [hself, hflag]
  · have hruns : ((s.setField f i).setRun r ⟨ceiling, f :: todo, done, phase'⟩).runs[r']? = _ :=
      runs_setRun (s := s.setField f i) hr r'
    rw [hruns] at hr'
    split_ifs at hr' with heq
    · obtain rfl := Option.some.inj hr'
      rw [hnone] at hst
      cases hst
    · exact heq (h.single r' r run' _ f st' st b' b hr' hr hst hstaging)
  · rw [hself]
    exact hsound

theorem Inv.abort (h : Inv s) (hr : s.runs[r]? = some ⟨ceiling, f :: todo, done, .aborting st⟩) :
    Inv ((s.setField f ((s.fields f).abort st)).setRun r ⟨ceiling, f :: todo, done, .ended⟩) := by
  obtain ⟨snap, -, hsound, -, -⟩ := h.inStage hr rfl
  refine h.work hr (elsewhere_of_phase _ _) (h.ceilings _ (mem_of_getElem? hr))
    (fun _ _ _ _ _ _ _ _ _ => by rintro ⟨⟩) (h.endStage hr rfl rfl rfl hsound.abort)
    (fun upTo hupTo => ?_) fun upTo hupTo => ?_
  · exact h.kept f upTo (claimed_of_done hr
      (committed_of_phase _ (by nofun) (by nofun)) hupTo)
  · exact h.disk f upTo (claimed_of_done hr (synced_of_phase _ (by nofun)) hupTo)

/-- A commit puts the stores where the index was at the stage. -/
theorem Inv.commit (h : Inv s)
    (hr : s.runs[r]? = some ⟨ceiling, f :: todo, done, .valuesSynced st⟩) :
    Inv ((s.setField f ((s.fields f).commit st)).setRun r ⟨ceiling, f :: todo, done, .committed⟩) := by
  obtain ⟨snap, -, hsound, hstaged, hsince⟩ := h.inStage hr rfl
  refine h.work hr (elsewhere_of_phase _ _) (h.ceilings _ (mem_of_getElem? hr))
    (fun _ _ _ _ _ _ _ _ _ => by rintro ⟨⟩) (h.endStage hr rfl rfl rfl (hsound.commit hstaged))
    (fun upTo hupTo => ?_) fun upTo hupTo => ?_
  · exact (hsince upTo (hupTo.imp id And.left)).congr (hstaged.stored_commit hsound.slots)
  · exact h.disk f upTo (claimed_of_done hr (synced_of_phase _ (by nofun)) hupTo)

/-- A run without a stage moves on, and the field keeps the stage it may have. -/
theorem FieldOk.afterRun (h : FieldOk s f) (hr : s.runs[r]? = some run) (hnone : run.staging = none)
    (hnone' : run'.staging = none) (hceiling : run'.ceiling = run.ceiling)
    (hcommitted : run'.Committed f → run.Committed f)
    (hflag : i.stageInFlight = (s.fields f).stageInFlight)
    (hsound : ∀ ns fs, (s.fields f).Sound (contentOf s.log f) ns fs →
      i.Sound (contentOf s.log f) ns fs)
    (hstaged : ∀ snap b st, (s.fields f).Staged snap b st → i.Staged snap b st) :
    FieldOk ((s.setField f i).setRun r run') f := by
  have hself : ((s.setField f i).setRun r run').fields f = i := update_self _ _ _
  have hruns : ∀ r', ((s.setField f i).setRun r run').runs[r']? =
      if r' = r then some run' else s.runs[r']? := fun r' => runs_setRun (s := s.setField f i) hr r'
  cases h with
  | resting hrest hother hold =>
    refine .resting ?_ (fun r' run'' st' b' hr' hst => ?_) ?_
    · rw [hself, hflag, hrest]
    · rw [hruns] at hr'
      split_ifs at hr'
      · obtain rfl := Option.some.inj hr'
        rw [hnone'] at hst
        cases hst
      · exact hother r' run'' st' b' hr' hst
    · rw [hself]
      exact hsound _ _ hold
  | @inStage r₀ run₀ st₀ b₀ snap hbusy hr₀ hst₀ hold hstage hsince =>
    refine .inStage snap (r := r₀) ?_ ?_ hst₀ ?_ ?_ fun upTo hupTo => ?_
    · rw [hself, hflag, hbusy]
    · rw [hruns, if_neg]
      · exact hr₀
      · rintro rfl
        obtain rfl := Option.some.inj (hr.symm.trans hr₀)
        rw [hnone] at hst₀
        cases hst₀
    · rw [hself]
      exact hsound _ _ hold
    · rw [hself]
      exact hstaged _ _ _ hstage
    · refine hsince upTo (hupTo.imp_left fun hclaim => ?_)
      rcases claimed_setRun hclaim with hold' | ⟨rfl, hdone⟩
      · exact hold'
      · exact Or.inr ⟨run, mem_of_getElem? hr, hceiling.symm, hcommitted hdone⟩

theorem Inv.syncKeys (h : Inv s) (hr : s.runs[r]? = some ⟨ceiling, f :: todo, done, .committed⟩) :
    Inv ((s.setField f (s.fields f).syncKeys).setRun r ⟨ceiling, f :: todo, done, .keysSynced⟩) := by
  have hmono : (⟨ceiling, f :: todo, done, .keysSynced⟩ : Run F V).Committed f →
      (⟨ceiling, f :: todo, done, .committed⟩ : Run F V).Committed f :=
    fun hdone => hdone.imp id fun _ => ⟨rfl, Or.inl rfl⟩
  have hstored : ∀ v b, (s.fields f).syncKeys.OnDisk v b ↔ (s.fields f).Stored v b := by
    intro v b
    cases h.field f with
    | resting _ _ hsound | inStage _ _ _ _ hsound => exact hsound.onDisk_syncKeys v b
  refine h.work hr (elsewhere_of_phase _ _) (h.ceilings _ (mem_of_getElem? hr))
    (fun _ _ _ _ _ _ _ _ _ => by rintro ⟨⟩)
    ((h.field f).afterRun hr rfl rfl rfl hmono rfl (fun _ _ hsound => hsound.syncKeys)
      fun _ _ _ hstaged => hstaged.syncKeys) (fun upTo hupTo => ?_) fun upTo hupTo => ?_
  · exact h.kept f upTo (claimed_of_done hr hmono hupTo)
  · -- what is committed is synced now
    have hclaim : Claimed Run.Committed s f upTo := by
      rcases hupTo with hold | ⟨rfl, -⟩
      · exact hold.committed
      · exact Or.inr ⟨_, mem_of_getElem? hr, rfl, Or.inr ⟨rfl, Or.inl rfl⟩⟩
    exact (h.kept f upTo hclaim).congr hstored

omit [DecidableEq F] [DecidableEq V] in
/-- A run that has finished a field. -/
theorem elsewhere_finish : Elsewhere (⟨ceiling, f :: todo, done, .keysSynced⟩ : Run F V)
    (Run.next ⟨ceiling, todo, done ++ [f], .ready⟩) f := by
  have hdone : ∀ g, (Run.next (⟨ceiling, todo, done ++ [f], .ready⟩ : Run F V)).Committed g →
      g ≠ f → g ∈ done := by
    intro g hg hne
    have hmem : g ∈ done ++ [f] := by
      rcases hg with hmem | ⟨-, hphase⟩
      · exact hmem
      · cases todo <;> rcases hphase with hx | hx <;> cases hx
    rcases mem_append.mp hmem with hold | hlast
    · exact hold
    · exact absurd (mem_singleton.mp hlast) hne
  refine ⟨fun g st b hst => (by cases hst), fun g st b hst => ?_, rfl,
    fun g hg hcommitted => Or.inl (hdone g hcommitted hg),
    fun g hg hsynced => Or.inl (hdone g hsynced.committed hg)⟩
  cases todo <;> cases hst

omit [DecidableEq F] [DecidableEq V] in
theorem staging_next (run : Run F V) : run.next.staging = none := by
  obtain ⟨ceiling, todo, done, phase⟩ := run
  cases todo <;> rfl

omit [DecidableEq F] [DecidableEq V] in
theorem Inv.ceilings_next (hsettled : Settled s ceiling) (hphase : Phase F V) :
    match (Run.next (⟨ceiling, todo, done, hphase⟩ : Run F V)).phase with
      | .reading _ => False
      | .saving left => Settled s ceiling ∧ ∀ f ∈ left, f ∈ done
      | _ => Settled s ceiling := by
  cases todo with
  | nil => exact ⟨hsettled, fun f hf => hf⟩
  | cons => exact hsettled

/-- **A field is finished** without a compaction. -/
theorem Inv.finish (h : Inv s) (hr : s.runs[r]? = some ⟨ceiling, f :: todo, done, .keysSynced⟩) :
    Inv (s.setRun r (Run.next ⟨ceiling, todo, done ++ [f], .ready⟩)) := by
  have hsame : s.setField f (s.fields f) = s := by
    rw [State.setField, update_eq_self]
  have hgoal : Inv ((s.setField f (s.fields f)).setRun r
      (Run.next ⟨ceiling, todo, done ++ [f], .ready⟩)) := by
    refine h.work hr elsewhere_finish (Inv.ceilings_next (h.ceilings _ (mem_of_getElem? hr)) _)
      (fun _ _ _ _ _ _ _ _ _ => by rw [staging_next]; rintro ⟨⟩)
      ((h.field f).afterRun hr rfl (staging_next _) rfl (fun _ => Or.inr ⟨rfl, Or.inr rfl⟩) rfl
        (fun _ _ hsound => hsound) fun _ _ _ hstaged => hstaged)
      (fun upTo hupTo => ?_) fun upTo hupTo => ?_
    · exact h.kept f upTo (claimed_of_done hr (fun _ => Or.inr ⟨rfl, Or.inr rfl⟩) hupTo)
    · exact h.disk f upTo (claimed_of_done hr (fun _ => Or.inr ⟨rfl, rfl⟩) hupTo)
  rwa [hsame] at hgoal

/-- A field is finished with a compaction. -/
theorem Inv.compact (h : Inv s) (hr : s.runs[r]? = some ⟨ceiling, f :: todo, done, .keysSynced⟩)
    (hflag : (s.fields f).stageInFlight = false) (bitmaps keymap : Bool) :
    Inv ((s.setField f ((s.fields f).maybeCompact bitmaps keymap).flush).setRun r
      (Run.next ⟨ceiling, todo, done ++ [f], .ready⟩)) := by
  obtain ⟨hnone, hsound⟩ := h.resting hflag
  set i := ((s.fields f).maybeCompact bitmaps keymap).flush with hi
  have hself : ((s.setField f i).setRun r
      (Run.next ⟨ceiling, todo, done ++ [f], .ready⟩)).fields f = i := update_self _ _ _
  have hstored := hsound.stored_compact hflag bitmaps keymap
  have hreached : ∀ {upTo : Horizon} {P : Prop}, Claimed Run.Committed s f upTo ∨
      upTo = ceiling ∧ P → Settled s upTo := by
    rintro upTo P (hclaim | ⟨rfl, -⟩)
    · exact h.settled hclaim
    · exact h.ceilings _ (mem_of_getElem? hr)
  refine h.work hr elsewhere_finish (Inv.ceilings_next (h.ceilings _ (mem_of_getElem? hr)) _)
    (fun _ _ _ _ _ _ _ _ _ => by rw [staging_next]; rintro ⟨⟩) ?_
    (fun upTo hupTo => (since_now f (hreached hupTo).2.2).congr fun v b => (hstored v b).1)
    fun upTo hupTo => (since_now f (hreached (hupTo.imp Claimed.committed fun hnew =>
      ⟨hnew.1, hnew.2.committed⟩)).2.2).congr fun v b => (hstored v b).2
  refine .resting ?_ (fun r' run' st' b' hr' hst => ?_) ?_
  · rw [hself]
    exact DynFieldIndex.stageInFlight_spill (i := (s.fields f).maybeCompact bitmaps keymap) true hflag
  · have hruns : ((s.setField f i).setRun r
        (Run.next ⟨ceiling, todo, done ++ [f], .ready⟩)).runs[r']? = _ :=
      runs_setRun (s := s.setField f i) hr r'
    rw [hruns] at hr'
    split_ifs at hr'
    · obtain rfl := Option.some.inj hr'
      rw [staging_next] at hst
      cases hst
    · exact hnone r' run' st' b' hr' hst
  · rw [hself]
    exact (((hsound.maybeCompact bitmaps keymap).spill hflag true).syncValues).syncKeys

end Work

/-- A spill that may go ahead, or does nothing. -/
theorem Inv.spill (h : Inv s) (f : F) (synced : Bool) :
    Inv (s.setField f ((s.fields f).spill synced)) := by
  cases hflag : (s.fields f).stageInFlight with
  | true =>
    have hnothing : (s.fields f).spill synced = s.fields f := by
      rw [DynFieldIndex.spill, if_pos hflag]
    rw [hnothing, State.setField, update_eq_self]
    exact h
  | false =>
    obtain ⟨hnone, hsound⟩ := h.resting hflag
    set i := (s.fields f).spill synced with hi
    have hself : (s.setField f i).fields f = i := update_self _ _ _
    have hother : ∀ g, g ≠ f → (s.setField f i).fields g = s.fields g :=
      fun g hg => update_of_ne hg _ _
    refine ⟨h.single, h.ceilings, h.markers, fun g => ?_, fun g upTo hg => ?_,
      fun g upTo hg => ?_⟩
    · by_cases hg : g = f
      · rw [hg]
        refine .resting ?_ hnone ?_
        · rw [hself]
          exact DynFieldIndex.stageInFlight_spill synced hflag
        · rw [hself]
          exact hsound.spill hflag synced
      · exact (h.field g).transfer (hother g hg) rfl (fun _ _ _ _ hr _ => hr)
          (fun _ _ _ _ hr _ => hr) (fun _ hc => hc) fun _ _ _ hx => hx
    · by_cases hgf : g = f
      · subst hgf
        rw [hself]
        cases synced with
        | true =>
          exact (since_now g (h.settled hg).2.2).congr fun v b =>
            (hsound.stored_spill hflag true v b).1
        | false =>
          exact (h.kept g upTo hg).congr fun v b => (hsound.stored_spill hflag false v b).1
      · rw [hother g hgf]
        exact h.kept g upTo hg
    · by_cases hgf : g = f
      · subst hgf
        rw [hself]
        cases synced with
        | true =>
          exact (since_now g (h.settled (Claimed.committed hg)).2.2).congr fun v b =>
            (hsound.stored_spill hflag true v b).2
        | false =>
          exact (h.disk g upTo hg).congr fun v b => (hsound.stored_spill hflag false v b).2
      · rw [hother g hgf]
        exact h.disk g upTo hg

/-! ### Ceilings and markers -/

/-- **A run moves on by itself.** The fields are where they were, and nothing new is claimed. -/
theorem Inv.ofRuns (h : Inv s) (hfields : t.fields = s.fields) (hlog : t.log = s.log)
    (hstaging : ∀ (r : ℕ) (run : Run F V) (f : F) (st : DynSpillStage V) (b : Bool),
      run.staging = some (f, st, b) → (t.runs[r]? = some run ↔ s.runs[r]? = some run))
    (hceilings : ∀ run ∈ t.runs, match run.phase with
      | .reading tail => tail ≤ t.tail ∧ run.done = [] ∧ run.ceiling.changes ≤ t.log.length
      | .saving left => Settled t run.ceiling ∧ ∀ f ∈ left, f ∈ run.done
      | _ => Settled t run.ceiling)
    (hmarkers : ∀ f offset, t.marker f = some offset → Settled t ⟨offset, 0⟩)
    (hcommitted : ∀ f upTo, Claimed Run.Committed t f upTo → Claimed Run.Committed s f upTo)
    (hsynced : ∀ f upTo, Claimed Run.Synced t f upTo → Claimed Run.Synced s f upTo) :
    Inv t := by
  refine ⟨fun r r' run run' f st st' b b' hr hr' hst hst' => ?_, hceilings, hmarkers, fun f => ?_,
    fun f upTo hf => ?_, fun f upTo hf => ?_⟩
  · exact h.single r r' run run' f st st' b b' ((hstaging r run f st b hst).mp hr)
      ((hstaging r' run' f st' b' hst').mp hr') hst hst'
  · exact (h.field f).transfer (congrFun hfields f) (by rw [hlog])
      (fun r run st b hr hst => (hstaging r run f st b hst).mp hr)
      (fun r run st b hr hst => (hstaging r run f st b hst).mpr hr) (hcommitted f)
      fun upTo x _ hx => hlog ▸ hx
  · rw [hlog, hfields]
    exact h.kept f upTo (hcommitted f upTo hf)
  · rw [hlog, hfields]
    exact h.disk f upTo (hsynced f upTo hf)

omit [DecidableEq F] [DecidableEq V] in
/-- A run without a stage, before and after. -/
theorem staging_setRun (hr : s.runs[r]? = some run) (hnone : run.staging = none)
    (hnone' : run'.staging = none) (r' : ℕ) (run₁ : Run F V) (f : F) (st : DynSpillStage V)
    (b : Bool) (hst : run₁.staging = some (f, st, b)) :
    (s.setRun r run').runs[r']? = some run₁ ↔ s.runs[r']? = some run₁ := by
  rw [runs_setRun hr]
  by_cases heq : r' = r
  · rw [if_pos heq, heq, hr]
    constructor <;> intro hsame
    · obtain rfl := Option.some.inj hsame
      rw [hnone'] at hst
      cases hst
    · obtain rfl := Option.some.inj hsame
      rw [hnone] at hst
      cases hst
  · rw [if_neg heq]

theorem Inv.start (h : Inv s) (fields : List F) :
    Inv { s with runs := s.runs ++ [⟨⟨0, s.log.length⟩, fields, [], .reading s.tail⟩] } := by
  set run₀ : Run F V := ⟨⟨0, s.log.length⟩, fields, [], .reading s.tail⟩ with hrun₀
  have hnone : run₀.staging = none := by
    cases fields <;> rfl
  have hnot : ∀ f, ¬ run₀.Committed f := by
    intro f hcommitted
    cases hcommitted.mem_done (by nofun) (by nofun)
  refine h.ofRuns rfl rfl (fun r run f st b hst => ?_) (fun run hrun => ?_) h.markers
    (fun f upTo hf => ?_) fun f upTo hf => ?_
  · change (s.runs ++ [run₀])[r]? = some run ↔ _
    by_cases hlt : r < s.runs.length
    · rw [List.getElem?_append_left hlt]
    · rw [List.getElem?_append_right (Nat.le_of_not_lt hlt),
        List.getElem?_eq_none (Nat.le_of_not_lt hlt)]
      refine ⟨fun hlast => ?_, fun hlast => by cases hlast⟩
      obtain rfl := mem_singleton.mp (mem_of_getElem? hlast)
      rw [hnone] at hst
      cases hst
  · rcases mem_append.mp hrun with hold | hnew
    · exact h.ceilings run hold
    · obtain rfl := mem_singleton.mp hnew
      exact ⟨Nat.le_refl _, rfl, Nat.le_refl _⟩
  · rcases hf with hmarker | ⟨run, hrun, hceiling, hdone⟩
    · exact Or.inl hmarker
    · rcases mem_append.mp hrun with hold | hnew
      · exact Or.inr ⟨run, hold, hceiling, hdone⟩
      · obtain rfl := mem_singleton.mp hnew
        exact absurd hdone (hnot f)
  · rcases hf with hmarker | ⟨run, hrun, hceiling, hdone⟩
    · exact Or.inl hmarker
    · rcases mem_append.mp hrun with hold | hnew
      · exact Or.inr ⟨run, hold, hceiling, hdone⟩
      · obtain rfl := mem_singleton.mp hnew
        exact absurd hdone.committed (hnot f)

omit [DecidableEq F] [DecidableEq V] in
/-- **The ceiling is settled.** Writes that are appended later are above the tail that was read,
and those before have been released. -/
theorem settled_ceiling {changes : ℕ} (htail : tail ≤ s.tail) (hchanges : changes ≤ s.log.length) :
    Settled s ⟨s.inFlight.foldl min tail, changes⟩ := by
  have hle : ∀ (l : List ℕ) (m : ℕ), l.foldl min m ≤ m ∧ ∀ o ∈ l, l.foldl min m ≤ o := by
    intro l
    induction l with
    | nil => exact fun m => ⟨Nat.le_refl _, fun o ho => by cases ho⟩
    | cons a l ih =>
      intro m
      obtain ⟨hm, hl⟩ := ih (min m a)
      refine ⟨hm.trans (Nat.min_le_left _ _), fun o ho => ?_⟩
      rcases mem_cons.mp ho with rfl | ho
      · exact hm.trans (Nat.min_le_right _ _)
      · exact hl o ho
  exact ⟨(hle _ _).1.trans htail, (hle _ _).2, hchanges⟩

theorem Inv.readInFlight (h : Inv s) (hr : s.runs[r]? = some ⟨ceiling, todo, done, .reading tail⟩) :
    Inv (s.setRun r (Run.next
      ⟨⟨s.inFlight.foldl min tail, ceiling.changes⟩, todo, done, .ready⟩)) := by
  obtain ⟨htail, rfl, hchanges⟩ := h.ceilings _ (mem_of_getElem? hr)
  set run' : Run F V :=
    Run.next ⟨⟨s.inFlight.foldl min tail, ceiling.changes⟩, todo, [], .ready⟩ with hrun'
  have hnot : ∀ f, ¬ run'.Committed f := by
    rintro f (hdone | ⟨-, hphase⟩)
    · cases hdone
    · rw [hrun'] at hphase
      cases todo <;> rcases hphase with hx | hx <;> cases hx
  refine h.ofRuns rfl rfl (staging_setRun hr (by cases todo <;> rfl) (staging_next _))
    (fun run hrun => ?_) h.markers (fun f upTo hf => ?_) fun f upTo hf => ?_
  · rcases List.mem_or_eq_of_mem_set hrun with hold | rfl
    · exact h.ceilings run hold
    · rw [hrun']
      cases todo with
      | nil => exact ⟨settled_ceiling htail hchanges, fun f hf => hf⟩
      | cons => exact settled_ceiling htail hchanges
  · rcases claimed_setRun hf with hold | ⟨-, hdone⟩
    · exact hold
    · exact absurd hdone (hnot f)
  · rcases claimed_setRun hf with hold | ⟨-, hdone⟩
    · exact hold
    · exact absurd hdone.committed (hnot f)

/-- A marker goes to the offset of what is claimed. -/
theorem Inv.mark (h : Inv s) (hclaim : Claimed Run.Synced s f upTo) :
    Inv { s with marker := update s.marker f (some upTo.offset) } := by
  set t : State F V β :=
    { s with marker := update s.marker f (some upTo.offset) } with ht
  have hother : ∀ g, g ≠ f → t.marker g = s.marker g := fun g hg => update_of_ne hg _ _
  have hself : t.marker f = some upTo.offset := update_self _ _ _
  have hclaims : ∀ (P : Run F V → F → Prop) g upTo', Claimed P t g upTo' →
      Claimed P s g upTo' ∨ g = f ∧ upTo' = ⟨upTo.offset, 0⟩ := by
    rintro P g upTo' (hmarker | hrun)
    · by_cases hg : g = f
      · rw [hg, hself] at hmarker
        exact Or.inr ⟨hg, hmarker.symm⟩
      · rw [hother g hg] at hmarker
        exact Or.inl (Or.inl hmarker)
    · exact Or.inl (Or.inr hrun)
  refine ⟨h.single, h.ceilings, fun g offset hg => ?_, fun g => ?_, fun g upTo' hg => ?_,
    fun g upTo' hg => ?_⟩
  · by_cases hgf : g = f
    · rw [hgf, hself] at hg
      obtain rfl := Option.some.inj hg
      obtain ⟨htail, hflight, -⟩ := h.settled hclaim.committed
      exact ⟨htail, hflight, Nat.zero_le _⟩
    · rw [hother g hgf] at hg
      exact h.markers g offset hg
  · cases h.field g with
    | resting hflag hnone hsound => exact .resting hflag hnone hsound
    | inStage snap hflag hr hstaging hsound hstaged hsince =>
      refine .inStage snap hflag hr hstaging hsound hstaged fun upTo' hupTo => ?_
      rcases hupTo with hclaim' | heq
      · rcases hclaims _ g upTo' hclaim' with hold | ⟨rfl, rfl⟩
        · exact hsince upTo' (Or.inl hold)
        · exact (hsince upTo (Or.inl hclaim.committed)).ofOffset
      · exact hsince upTo' (Or.inr heq)
  · rcases hclaims _ g upTo' hg with hold | ⟨rfl, rfl⟩
    · exact h.kept g upTo' hold
    · exact (h.kept g upTo hclaim.committed).ofOffset
  · rcases hclaims _ g upTo' hg with hold | ⟨rfl, rfl⟩
    · exact h.disk g upTo' hold
    · exact (h.disk g upTo hclaim).ofOffset

/-- A run goes on with its markers. -/
theorem Inv.onward (h : Inv s) (hr : s.runs[r]? = some ⟨ceiling, todo, done, .saving left⟩)
    (hphase : phase = .ended ∨ ∃ left', phase = .saving left' ∧ ∀ f ∈ left', f ∈ left) :
    Inv (s.setRun r ⟨ceiling, todo, done, phase⟩) := by
  have hmem := mem_of_getElem? hr
  obtain ⟨hsettled, hleft⟩ := h.ceilings _ hmem
  have hdone : ∀ f, (⟨ceiling, todo, done, phase⟩ : Run F V).Committed f → f ∈ done := by
    intro f hcommitted
    rcases hphase with rfl | ⟨left', rfl, -⟩
    · exact hcommitted.mem_done (by nofun) (by nofun)
    · exact hcommitted.mem_done (by nofun) (by nofun)
  have hnone : (⟨ceiling, todo, done, phase⟩ : Run F V).staging = none := by
    rcases hphase with rfl | ⟨left', rfl, -⟩ <;> cases todo <;> rfl
  refine h.ofRuns rfl rfl (staging_setRun hr (by cases todo <;> rfl) hnone) (fun run hrun => ?_)
    h.markers (fun f upTo hf => ?_) fun f upTo hf => ?_
  · rcases List.mem_or_eq_of_mem_set hrun with hold | rfl
    · exact h.ceilings run hold
    · rcases hphase with rfl | ⟨left', rfl, hless⟩
      · exact hsettled
      · exact ⟨hsettled, fun f hf => hleft f (hless f hf)⟩
  · exact (claimed_setRun hf).elim id fun hnew =>
      Or.inr ⟨_, hmem, hnew.1.symm, Or.inl (hdone f hnew.2)⟩
  · exact (claimed_setRun hf).elim id fun hnew =>
      Or.inr ⟨_, hmem, hnew.1.symm, Or.inl (hdone f hnew.2.committed)⟩

/-- **A marker is saved** at the ceiling of a run that has written the field. -/
theorem Inv.save (h : Inv s) (hr : s.runs[r]? = some ⟨ceiling, todo, done, .saving (f :: left)⟩) :
    Inv ({ s with marker := update s.marker f (some ceiling.offset) }.setRun r
      ⟨ceiling, todo, done, .saving left⟩) := by
  have hmem := mem_of_getElem? hr
  have hf : f ∈ done := (h.ceilings _ hmem).2 f List.mem_cons_self
  have hmarked := h.mark (Or.inr ⟨_, hmem, rfl, Or.inl hf⟩)
  exact hmarked.onward hr (Or.inr ⟨left, rfl, fun g hg => List.mem_cons_of_mem _ hg⟩)

end Steps

/-! ### Runs of the system -/

theorem inv_init : Inv (State.init : State F V β) where
  single _ _ _ _ _ _ _ _ _ h := by cases h
  ceilings _ h := by cases h
  markers _ _ h := by cases h
  field _ := .resting rfl (fun _ _ _ _ h => by cases h) DynFieldIndex.sound_create
  kept f upTo h := by
    rcases h with rfl | ⟨run, hrun, -⟩
    · refine since_nil rfl fun v b => ?_
      rintro ⟨slot, hname, -⟩
      cases hname
    · cases hrun
  disk f upTo h := by
    rcases h with rfl | ⟨run, hrun, -⟩
    · refine since_nil rfl fun v b => ?_
      rintro ⟨slot, hname, -⟩
      cases hname
    · cases hrun

variable {t : State F V β} {a : Act F V β}

/-- **One step.** -/
theorem Inv.step (h : Inv s) (hcalm : calm s a = true) (halone : alone s a = true)
    (hst : step s a = some t) : Inv t := by
  cases a with
  | append size =>
    obtain rfl := Option.some.inj hst
    exact h.append size
  | release offset =>
    obtain ⟨-, rfl⟩ := Option.ite_some_none_eq_some.mp hst
    exact h.release offset
  | gain wal f v bitmap =>
    obtain ⟨hwal, rfl⟩ := Option.ite_some_none_eq_some.mp hst
    exact h.gain hwal hcalm
  | lose wal f v bitmap =>
    obtain ⟨hwal, hst⟩ := Option.ite_none_right_eq_some.mp hst
    cases hv : (s.fields f).ordering v with
    | none =>
      rw [hv] at hst
      obtain rfl := Option.some.inj hst
      exact h
    | some slot =>
      rw [hv] at hst
      obtain rfl := Option.some.inj hst
      exact h.lose hwal hv bitmap
  | spill f synced =>
    obtain rfl := Option.some.inj hst
    exact h.spill f synced
  | start fields =>
    obtain rfl := Option.some.inj hst
    exact h.start fields
  | readInFlight r =>
    simp only [IndexCheckpoint.step] at hst
    split at hst
    · rename_i todo done tail hr
      obtain rfl := Option.some.inj hst
      exact h.readInFlight hr
    · cases hst
  | stage r =>
    simp only [IndexCheckpoint.step] at hst
    split at hst
    · rename_i ceiling f todo done hr
      obtain rfl := Option.some.inj hst
      rw [alone, hr, Bool.not_eq_true'] at halone
      exact h.stage hr halone
    · cases hst
  | syncValues r synced =>
    simp only [IndexCheckpoint.step] at hst
    split at hst
    · rename_i ceiling f todo done st hr
      cases synced with
      | true =>
        obtain rfl := Option.some.inj hst
        exact h.syncValues hr
      | false =>
        obtain rfl := Option.some.inj hst
        exact h.syncFailed hr
    · cases hst
  | abort r =>
    simp only [IndexCheckpoint.step] at hst
    split at hst
    · rename_i ceiling f todo done st hr
      obtain rfl := Option.some.inj hst
      exact h.abort hr
    · cases hst
  | commit r =>
    simp only [IndexCheckpoint.step] at hst
    split at hst
    · rename_i ceiling f todo done st hr
      obtain rfl := Option.some.inj hst
      exact h.commit hr
    · cases hst
  | syncKeys r =>
    simp only [IndexCheckpoint.step] at hst
    split at hst
    · rename_i ceiling f todo done hr
      obtain rfl := Option.some.inj hst
      exact h.syncKeys hr
    · cases hst
  | finish r bitmaps keymap =>
    simp only [IndexCheckpoint.step] at hst
    split at hst
    · rename_i ceiling f todo done hr
      rw [alone, hr] at halone
      cases hover : bitmaps || keymap with
      | false =>
        rw [hover] at hst
        obtain rfl := Option.some.inj hst
        exact h.finish hr
      | true =>
        rw [hover] at hst halone
        obtain rfl := Option.some.inj hst
        rw [Bool.not_true] at halone
        exact h.compact hr ((Bool.not_eq_true' _).mp halone) bitmaps keymap
    · cases hst
  | save r =>
    simp only [IndexCheckpoint.step] at hst
    split at hst
    · rename_i ceiling todo done f left hr
      obtain rfl := Option.some.inj hst
      exact h.save hr
    · rename_i ceiling todo done hr
      obtain rfl := Option.some.inj hst
      exact h.onward hr (Or.inl rfl)
    · cases hst

/-- The invariant is safe. -/
theorem Inv.safe (h : Inv s) : Safe s := by
  have hsound : ∀ f, ∃ ns fs, (s.fields f).Sound (contentOf s.log f) ns fs := by
    intro f
    cases h.field f with
    | resting _ _ hsound | inStage _ _ _ _ hsound => exact ⟨_, _, hsound⟩
  refine ⟨fun f v => ?_, fun f slot p hp => ?_, fun f v b hb => ?_, fun f offset hoffset => ?_⟩
  · obtain ⟨ns, fs, hf⟩ := hsound f
    exact hf.overlay.rowsOf_eq v
  · obtain ⟨ns, fs, hf⟩ := hsound f
    obtain ⟨b, hb⟩ := hf.bitmapsOk.solid slot p hp
    exact ⟨b, hb, hf.bitmapsOk.synced p b hb⟩
  · obtain ⟨k, -, -, -, hcontent⟩ := h.kept f _ (Or.inl rfl) v
    exact ⟨k, (hcontent b).mp hb⟩
  · exact h.disk f ⟨offset, 0⟩ (Or.inl (by rw [hoffset]; rfl))

/-- **Checkpoints are safe** as long as no run stages or compacts a field while another one's
stage of it is in flight, and no value that such a stage has seen emptied gains rows. -/
theorem safe_of_calm_of_alone {as : List (Act F V β)} {s : State F V β}
    (hcond : StepRun.along step (fun s a => calm s a && alone s a) State.init as = true)
    (hrun : StepRun.run step State.init as = some s) : Safe s := by
  have hinv : Inv s := by
    refine StepRun.invariant_along (fun s a t hs hp hst => ?_) inv_init hcond hrun
    obtain ⟨hcalm, halone⟩ := (Bool.and_eq_true _ _).mp hp
    exact hs.step hcalm halone hst
  exact hinv.safe

/-- Two runs that overlap and work on different fields while values come and go. -/
private def twoRuns : List (Act ℕ ℕ ℕ) :=
  [.append 0, .gain (some 0) 0 0 1, .gain (some 0) 1 5 1, .release 0, .start [0, 1], .start [1, 0],
    .readInFlight 0, .readInFlight 1, .stage 0, .stage 1, .append 3, .gain (some 1) 0 0 2,
    .lose (some 1) 1 5 none, .syncValues 0 true, .commit 0, .syncKeys 0, .finish 0 true true,
    .syncValues 1 true, .spill 1 true, .release 1, .commit 1, .syncKeys 1, .finish 1 false false,
    .stage 1, .stage 0, .syncValues 1 false, .abort 1, .spill 0 true, .syncValues 0 true,
    .commit 0, .syncKeys 0, .finish 0 false true, .save 0, .save 0, .save 0]

theorem safe_twoRuns : ∃ s, StepRun.run step State.init twoRuns = some s ∧ Safe s := by
  have hcond : StepRun.along step (fun s a => calm s a && alone s a) State.init twoRuns = true := by
    decide +kernel
  have hmarker : (StepRun.run step State.init twoRuns).map (fun s => s.marker 1) =
      some (some 1) := by decide +kernel
  obtain ⟨s, hrun, -⟩ := Option.map_eq_some_iff.mp hmarker
  exact ⟨s, hrun, safe_of_calm_of_alone hcond hrun⟩

/-- The second run stages a later bitmap and commits it before the first commits an earlier one. -/
private def overlap : List (Act ℕ ℕ ℕ) :=
  [.append 0, .gain (some 0) 0 0 1, .release 0, .start [0], .readInFlight 0, .stage 0,
    .append 0, .gain (some 1) 0 0 2, .release 1, .start [0], .readInFlight 1, .stage 1,
    .syncValues 1 true, .commit 1, .syncKeys 1, .finish 1 false false, .save 1,
    .syncValues 0 true, .commit 0]

/-- **Two stages of a field in flight lose an update.** -/
theorem not_safe_overlap :
    ¬ ∀ (as : List (Act ℕ ℕ ℕ)) (s : State ℕ ℕ ℕ), StepRun.run step State.init as = some s →
      Safe s := by
  intro hall
  have hanswers : (StepRun.run step State.init overlap).map
      (fun s => ((s.fields 0).rowsOf 0, contentOf s.log 0 0)) = some (some 1, some 2) := by
    decide +kernel
  obtain ⟨s, hrun, hs⟩ := Option.map_eq_some_iff.mp hanswers
  obtain ⟨hrows, hcontent⟩ := Prod.mk.inj hs
  have hsafe := (hall overlap s hrun).answers 0 0
  rw [hrows, hcontent] at hsafe
  cases hsafe

/-! ### One run at a time -/

/-- What a run keeps when it moves on. -/
structure Run.Follows (run run' : Run F V) : Prop where
  changes : run'.ceiling.changes = run.ceiling.changes
  fields : ∀ f, f ∈ run.todo ∨ f ∈ run.done → f ∈ run'.todo ∨ f ∈ run'.done
  done : ∀ f ∈ run.done, f ∈ run'.done

omit [DecidableEq F] [DecidableEq V] in
private theorem follows_phase {ceiling' : Horizon} (hchanges : ceiling'.changes = ceiling.changes) :
    Run.Follows ⟨ceiling, todo, done, phase⟩ ⟨ceiling', todo, done, phase'⟩ :=
  ⟨hchanges, fun _ h => h, fun _ h => h⟩

omit [DecidableEq F] [DecidableEq V] in
private theorem follows_finish : Run.Follows ⟨ceiling, f :: todo, done, phase⟩
      (Run.next ⟨ceiling, todo, done ++ [f], .ready⟩) := by
  refine ⟨rfl, fun g hg => ?_, fun g hg => List.mem_append_left _ hg⟩
  rcases hg with hhead | hdone
  · rcases mem_cons.mp hhead with rfl | htodo
    · exact Or.inr (List.mem_append_right _ (List.mem_singleton_self _))
    · exact Or.inl htodo
  · exact Or.inr (List.mem_append_left _ hdone)

/-- What a step does to the list of runs. -/
theorem runs_step (hst : step s a = some t) :
    (∃ fields, a = .start fields ∧
      t.runs = s.runs ++ [⟨⟨0, s.log.length⟩, fields, [], .reading s.tail⟩]) ∨
      (∃ r run run', a.ofRun = some r ∧ s.runs[r]? = some run ∧ t.runs = s.runs.set r run' ∧
        run.Follows run') ∨ a.ofRun = none ∧ t.runs = s.runs := by
  cases a with
  | start fields =>
    obtain rfl := Option.some.inj hst
    exact Or.inl ⟨fields, rfl, rfl⟩
  | append size | spill f synced =>
    obtain rfl := Option.some.inj hst
    exact Or.inr (Or.inr ⟨rfl, rfl⟩)
  | release offset | gain wal f v bitmap =>
    obtain ⟨-, rfl⟩ := Option.ite_some_none_eq_some.mp hst
    exact Or.inr (Or.inr ⟨rfl, rfl⟩)
  | lose wal f v bitmap =>
    obtain ⟨-, hst⟩ := Option.ite_none_right_eq_some.mp hst
    split_ifs at hst <;> obtain rfl := Option.some.inj hst <;> exact Or.inr (Or.inr ⟨rfl, rfl⟩)
  | syncValues r synced =>
    simp only [step] at hst
    split at hst
    · rename_i hr
      cases synced <;> obtain rfl := Option.some.inj hst <;>
        exact Or.inr (Or.inl ⟨r, _, _, rfl, hr, rfl, follows_phase rfl⟩)
    · cases hst
  | finish r bitmaps keymap =>
    simp only [step] at hst
    split at hst
    · rename_i hr
      split_ifs at hst <;> obtain rfl := Option.some.inj hst <;>
        exact Or.inr (Or.inl ⟨r, _, _, rfl, hr, rfl, follows_finish⟩)
    · cases hst
  | save r =>
    simp only [step] at hst
    split at hst
    · rename_i hr
      obtain rfl := Option.some.inj hst
      exact Or.inr (Or.inl ⟨r, _, _, rfl, hr, rfl, follows_phase rfl⟩)
    · rename_i hr
      obtain rfl := Option.some.inj hst
      exact Or.inr (Or.inl ⟨r, _, _, rfl, hr, rfl, follows_phase rfl⟩)
    · cases hst
  | readInFlight r | stage r | abort r | commit r | syncKeys r =>
    simp only [step] at hst
    split at hst
    · rename_i hr
      obtain rfl := Option.some.inj hst
      exact Or.inr (Or.inl ⟨r, _, _, rfl, hr, rfl, follows_phase rfl⟩)
    · cases hst

/-- A run is followed through a step. -/
theorem follows_step (hst : step s a = some t) (hr : s.runs[r]? = some run) :
    ∃ run', t.runs[r]? = some run' ∧ run.Follows run' := by
  have hsame : run.Follows run := ⟨rfl, fun _ h => h, fun _ h => h⟩
  have hlt := (List.getElem?_eq_some_iff.mp hr).1
  rcases runs_step hst with ⟨fields, rfl, hruns⟩ | ⟨r', run₀, run₁, -, hr', hruns, hfollows⟩ |
    ⟨-, hruns⟩
  · refine ⟨run, ?_, hsame⟩
    rw [hruns, List.getElem?_append_left hlt]
    exact hr
  · by_cases heq : r' = r
    · subst heq
      obtain rfl := Option.some.inj (hr.symm.trans hr')
      exact ⟨run₁, by rw [hruns, List.getElem?_set_self hlt], hfollows⟩
    · exact ⟨run, by rw [hruns, List.getElem?_set_ne heq]; exact hr, hsame⟩
  · exact ⟨run, by rw [hruns]; exact hr, hsame⟩

/-- A change of an index. -/
def Act.isChange : Act F V β → Bool
  | .gain _ _ _ _ | .lose _ _ _ _ => true
  | _ => false

/-- What is no change leaves the changes as they are. -/
theorem log_step (hst : step s a = some t) (ha : a.isChange = false) : t.log = s.log := by
  cases a with
  | gain wal f v bitmap | lose wal f v bitmap => cases ha
  | append size | spill f synced | start fields =>
    obtain rfl := Option.some.inj hst
    rfl
  | release offset =>
    obtain ⟨-, rfl⟩ := Option.ite_some_none_eq_some.mp hst
    rfl
  | syncValues r synced =>
    simp only [step] at hst
    split at hst
    · cases synced <;> obtain rfl := Option.some.inj hst <;> rfl
    · cases hst
  | finish r bitmaps keymap =>
    simp only [step] at hst
    split at hst
    · split_ifs at hst <;> obtain rfl := Option.some.inj hst <;> rfl
    · cases hst
  | save r =>
    simp only [step] at hst
    split at hst
    · obtain rfl := Option.some.inj hst
      rfl
    · obtain rfl := Option.some.inj hst
      rfl
    · cases hst
  | readInFlight r | stage r | abort r | commit r | syncKeys r =>
    simp only [step] at hst
    split at hst
    · obtain rfl := Option.some.inj hst
      rfl
    · cases hst

/-- No run but the last has a stage in flight. -/
def LastOnly (s : State F V β) : Prop :=
  ∀ (r : ℕ) (run : Run F V), s.runs[r]? = some run → r + 1 < s.runs.length → run.staging = none

theorem LastOnly.step (h : LastOnly s) (hone : oneAtATime s a = true) (hst : step s a = some t) :
    LastOnly t := by
  intro r run hr hlt
  rcases runs_step hst with ⟨fields, rfl, hruns⟩ | ⟨r', run₀, run', hact, -, hruns, -⟩ | ⟨-, hruns⟩
  · rw [hruns, length_append, List.length_singleton] at hlt
    have hlt' : r < s.runs.length := Nat.lt_of_succ_lt_succ hlt
    rw [hruns, List.getElem?_append_left hlt'] at hr
    have hnone := all_eq_true.mp hone run (mem_of_getElem? hr)
    exact Option.isNone_iff_eq_none.mp hnone
  · have hlast : r' + 1 = s.runs.length := by
      have hone' : a.ofRun.all (fun r => decide (r + 1 = s.runs.length)) = true := by
        cases a <;> first | exact hone | cases hact
      rw [hact] at hone'
      exact of_decide_eq_true hone'
    rw [hruns, List.length_set] at hlt
    rw [hruns, List.getElem?_set_ne] at hr
    · exact h r run hr hlt
    · rintro rfl
      exact Nat.lt_irrefl _ (hlast ▸ hlt)
  · rw [hruns] at hr hlt
    exact h r run hr hlt

/-- The only run that acts has no other one's stage in its way. -/
theorem Inv.alone (h : Inv s) (hlast : LastOnly s) (hone : oneAtATime s a = true)
    (hst : IndexCheckpoint.step s a = some t) : alone s a = true := by
  have hfree : ∀ (r : ℕ) (run : Run F V) (f : F), s.runs[r]? = some run → r + 1 = s.runs.length →
      run.staging = none → (s.fields f).stageInFlight = false := by
    intro r run f hr hlen hnone
    cases h.field f with
    | resting hflag => exact hflag
    | @inStage r' run' st b snap _ hr' hst =>
      have hlt' := (List.getElem?_eq_some_iff.mp hr').1
      have hnone' : run'.staging = none := by
        by_cases heq : r' = r
        · rw [heq] at hr'
          obtain rfl := Option.some.inj (hr.symm.trans hr')
          exact hnone
        · exact hlast r' run' hr' (by omega)
      rw [hnone'] at hst
      cases hst
  cases a with
  | stage r =>
    have hlen := of_decide_eq_true hone
    simp only [IndexCheckpoint.step] at hst
    split at hst
    · rename_i ceiling f todo done hr
      rw [IndexCheckpoint.alone, hr]
      change (!(s.fields f).stageInFlight) = true
      rw [hfree r _ f hr hlen rfl]
      rfl
    · cases hst
  | finish r bitmaps keymap =>
    have hlen := of_decide_eq_true hone
    simp only [IndexCheckpoint.step] at hst
    split at hst
    · rename_i ceiling f todo done hr
      rw [IndexCheckpoint.alone, hr]
      change (!(bitmaps || keymap) || !(s.fields f).stageInFlight) = true
      rw [hfree r _ f hr hlen rfl, Bool.not_false, Bool.or_true]
    · cases hst
  | _ => rfl

/-- **Markers are sound** with one run at a time, as long as no value that its stage has seen
emptied gains rows before the commit. -/
theorem marker_of_calm {as : List (Act F V β)} {s : State F V β}
    (hone : StepRun.along step oneAtATime State.init as = true)
    (hcalm : StepRun.along step calm State.init as = true)
    (hrun : StepRun.run step State.init as = some s) :
    ∀ f offset, s.marker f = some offset → Since s.log f ⟨offset, 0⟩ (s.fields f).OnDisk := by
  have hcond : StepRun.along step (fun s a => oneAtATime s a && calm s a) State.init as = true :=
    StepRun.along_both hone hcalm
  have hinv : Inv s ∧ LastOnly s := by
    have hstep : ∀ (s : State F V β) (a : Act F V β) (t : State F V β), Inv s ∧ LastOnly s →
        (oneAtATime s a && calm s a) = true → step s a = some t → Inv t ∧ LastOnly t := by
      rintro s a t ⟨hs, hlast⟩ hp hst
      obtain ⟨ha, hc⟩ := (Bool.and_eq_true _ _).mp hp
      exact ⟨hs.step hc (hs.alone hlast ha hst) hst, hlast.step ha hst⟩
    exact StepRun.invariant_along hstep ⟨inv_init, fun r run hr => by cases hr⟩ hcond hrun
  exact hinv.1.safe.marker

/-- A run that interleaves with writers and spills. -/
private def oneRun : List (Act ℕ ℕ ℕ) :=
  [.append 0, .gain (some 0) 0 0 1, .release 0, .spill 0 true, .append 4, .lose (some 1) 0 0 none,
    .append 0, .start [0], .release 1, .readInFlight 0, .stage 0, .gain (some 6) 0 3 2, .release 6,
    .spill 0 true, .syncValues 0 true, .commit 0, .syncKeys 0, .finish 0 true false, .save 0]

theorem marker_oneRun : ∃ s, StepRun.run step State.init oneRun = some s ∧ s.marker 0 = some 6 ∧
    Since s.log 0 ⟨6, 0⟩ (s.fields 0).OnDisk := by
  have hone : StepRun.along step oneAtATime State.init oneRun = true := by decide +kernel
  have hcalm : StepRun.along step calm State.init oneRun = true := by decide +kernel
  have hmarker : (StepRun.run step State.init oneRun).map (fun s => s.marker 0) =
      some (some 6) := by decide +kernel
  obtain ⟨s, hrun, hs⟩ := Option.map_eq_some_iff.mp hmarker
  exact ⟨s, hrun, hs, marker_of_calm hone hcalm hrun 0 6 hs⟩

/-- A value is emptied, staged as a removal, and gains rows again before the commit. -/
private def refilled : List (Act ℕ ℕ ℕ) :=
  [.append 0, .gain (some 0) 0 0 1, .release 0, .spill 0 true, .append 0, .lose (some 1) 0 0 none,
    .release 1, .start [0], .readInFlight 0, .stage 0, .append 0, .gain (some 2) 0 0 2, .release 2,
    .syncValues 0 true, .commit 0, .syncKeys 0, .finish 0 false false, .save 0]

/-- **A removal that is not committed is covered by the marker**, and the value's old rows stay on
disk. -/
theorem not_marker_refilled :
    ¬ ∀ (as : List (Act ℕ ℕ ℕ)) (s : State ℕ ℕ ℕ),
      StepRun.along step oneAtATime State.init as = true →
        StepRun.run step State.init as = some s → ∀ f offset, s.marker f = some offset →
          Since s.log f ⟨offset, 0⟩ (s.fields f).OnDisk := by
  intro hall
  have hone : StepRun.along step oneAtATime State.init refilled = true := by decide +kernel
  have hend : (StepRun.run step State.init refilled).map (fun s =>
      (s.marker 0, (s.fields 0).keymap.onDisk 0, (s.fields 0).bitmaps.onDisk 0, s.log)) =
      some (some 2, some 0, some 1, [⟨some 0, 0, 0, some 1⟩, ⟨some 1, 0, 0, none⟩,
        ⟨some 2, 0, 0, some 2⟩]) := by decide +kernel
  obtain ⟨s, hrun, hs⟩ := Option.map_eq_some_iff.mp hend
  obtain ⟨hmarker, hs⟩ := Prod.mk.inj hs
  obtain ⟨hname, hs⟩ := Prod.mk.inj hs
  obtain ⟨hbitmap, hlog⟩ := Prod.mk.inj hs
  obtain ⟨k, hk, -, hbefore, hcontent⟩ := hall refilled s hone hrun 0 2 hmarker 0
  have hold := (hcontent 1).mp ⟨0, hname, hbitmap⟩
  rw [hlog] at hk hbefore hold
  have hlt : 1 < k := hbefore 1 ⟨some 1, 0, 0, none⟩ 1 rfl rfl (by decide)
  -- the removal is among the changes, and no later one brings the old rows back
  obtain rfl | rfl : k = 2 ∨ k = 3 := by
    have hle : k ≤ 3 := hk
    omega
  · cases hold
  · cases hold

end IndexCheckpoint

end Minnal
