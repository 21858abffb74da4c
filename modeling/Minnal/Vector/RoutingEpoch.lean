import Minnal.Vector.DocVectors
import Minnal.Vector.Grace

/-!
# Searches while partition maintenance moves chunks

A vector write and a search run inside the **routing epoch**: they enter, take the current snapshot
and go by it until they leave. Maintenance moves chunks between postings meanwhile. A **drain**
installs a snapshot in which the drained postings take no new chunks, waits out everyone who
entered before, copies every chunk to its destination, waits again, deletes the drained postings'
keys and installs a snapshot without them. A **reassignment** copies single chunks between active
postings, waits and shrinks their sources. Documents are locked one at a time, and an error
sends the operation back to the step its journal record names.

A search reads one key at a time, in any order. The theorem follows every chunk a document is
stored with: while a reader is inside and the document is not written, the chunk has been read, or
it is held by a posting of the reader's snapshot that is still to be read and from which nothing can
take it while the reader is inside (`ReaderInv`).
-/

set_option linter.dupNamespace false

namespace Minnal.RoutingEpoch

inductive PostingState
  | active
  | draining
  | retired
  deriving DecidableEq, Repr

/-- What a `NamespaceIvf` says of each posting. -/
abbrev Snapshot (P : Type*) := P → Option PostingState

section Plans

variable {P D C : Type*} [LinearOrder P]

/-- A search scans the posting. -/
def Snapshot.visible (S : Snapshot P) (p : P) : Bool :=
  S p == some .active || S p == some .draining

/-- The snapshot with these postings changed. -/
def Snapshot.evolve (S : Snapshot P) (changed : List P) (state : PostingState) : Snapshot P :=
  fun p => if p ∈ changed then some state else S p

/-- **A drain**: a split and a merge drain one posting, a rebuild many. -/
structure Drain (P C : Type*) where
  /-- The new postings. -/
  children : List P
  drained : List P
  /-- The active postings chunks may go to. -/
  targets : List P
  /-- `DrainRule::destination`. -/
  destination : C → P
  destination_mem : ∀ x, destination x ∈ targets
  not_drained : ∀ q ∈ targets, q ∉ drained

/-- **A reassignment.** -/
structure Reassignment (P C : Type*) where
  /-- The active postings. -/
  targets : List P
  /-- A chunk in a posting is a candidate and nearer to the nearest active posting. -/
  moves : P → C → Bool
  nearest : C → Option P
  nearest_mem : ∀ x q, nearest x = some q → q ∈ targets

/-- One operation of maintenance. -/
inductive Plan (P C : Type*)
  | drain (d : Drain P C)
  | reassign (r : Reassignment P C)

namespace Plan

/-- The postings that are emptied. -/
def drained : Plan P C → List P
  | .drain d => d.drained
  | .reassign _ => []

def targets : Plan P C → List P
  | .drain d => d.targets
  | .reassign r => r.targets

/-- Where a chunk stored under a posting goes, if it moves. -/
def dest : Plan P C → P → C → Option P
  | .drain d, p, x => if p ∈ d.drained then some (d.destination x) else none
  | .reassign r, p, x => (r.nearest x).filter fun q => q ≠ p && r.moves p x

end Plan

/-- The two walks over documents. -/
inductive Walk
  | copy
  | delete
  deriving DecidableEq, Repr

/-- The waits of an operation. -/
inductive Pause
  | publish
  | barrier
  | retire
  deriving DecidableEq, Repr

/-- A document to be handled, with the postings its chunks are taken from. -/
structure Entry (P D : Type*) where
  sources : List P
  nodup : sources.Nodup
  doc : D

/-- Where an operation is. -/
inductive Phase (P D C : Type*)
  /-- The snapshot is installed, the wait has not begun. -/
  | installed (pause : Pause)
  | waiting (pause : Pause) (waiter : ℕ)
  /-- The postings whose documents are still to be listed, the documents listed, and the one that
  is locked with the writes still to be made. -/
  | walking (walk : Walk) (rest : List P) (todo : List (Entry P D))
      (hand : Option (D × List (VectorWrite P C)))
  /-- The copies are recorded. -/
  | copied

/-- A vector write under way: an upsert of a reader, or a delete. -/
structure Writing (P C : Type*) where
  reader : Option ℕ
  /-- The codes, under the postings they were routed to. -/
  filed : List (P × C)
  pending : List (VectorWrite P C)

/-- A document. -/
structure DocState (P C : Type*) where
  vectors : DocVectors P C
  /-- The codes of the last write that was finished; none while a later one is not. -/
  stored : List C
  writing : Option (Writing P C)

/-- What a reader has. -/
structure ReaderState (P D C : Type*) where
  snapshot : Option (Snapshot P)
  /-- What it read under each posting for each document. -/
  read : P → D → Option (Option (List C))
  /-- The documents that were written since it entered. -/
  touched : D → Bool
  writing : Option D

/-- A reader that has just entered. -/
def ReaderState.fresh : ReaderState P D C := ⟨none, fun _ _ => none, fun _ => false, none⟩

/-- The reader has read a key. -/
def ReaderState.readKey [DecidableEq D] (a : ReaderState P D C) (p : P) (d : D)
    (found : Option (List C)) : ReaderState P D C :=
  { a with read := fun q e => if q = p ∧ e = d then some found else a.read q e }

/-- The namespace. -/
structure State (P D C : Type*) where
  epoch : Grace.State
  /-- The installed snapshot. -/
  current : Snapshot P
  docs : D → DocState P C
  /-- Every document that was ever written: a scan of keys finds documents among these. -/
  known : List D
  readers : ℕ → ReaderState P D C
  op : Option (Plan P C × Phase P D C)

/-- **A partition at rest**: every stored chunk is under a posting that is searched, and its
document has a meta. -/
structure Partition (P D C : Type*) [LinearOrder P] where
  current : Snapshot P
  vectors : D → DocVectors P C
  stored : D → List C
  known : List D
  filed : ∀ d, ∀ x ∈ stored d, ∃ p, current.visible p ∧ (vectors d).Holds p x
  hasMeta : ∀ d, stored d ≠ [] → (vectors d).postings.isSome
  knows : ∀ d, stored d ≠ [] → d ∈ known

/-- The namespace when its partition is loaded. -/
def Partition.open (a : Partition P D C) : State P D C where
  epoch := .init
  current := a.current
  docs d := ⟨a.vectors d, a.stored d, none⟩
  known := a.known
  readers _ := .fresh
  op := none

end Plans

/-- What can happen. -/
inductive Act (P D C : Type*)
  -- a reader of the epoch
  | enter
  | takeSnapshot (r : ℕ)
  | scan (r : ℕ) (p : P) (d : D)
  | leave (r : ℕ)
  | notify (r : ℕ)
  -- vector writes
  | startUpsert (r : ℕ) (d : D) (filed : List (P × C))
  | startDelete (d : D)
  | writeNext (d : D)
  | finishWrite (d : D)
  | abandonWrite (d : D)
  -- maintenance
  | install (drain : Drain P C)
  | startReassign (r : Reassignment P C)
  | beginWait
  | waitStep (i : ℕ)
  | endWait
  | list
  | select (entries : List (Entry P D))
  | take
  | writeHand
  | dropHand
  | recordCopied
  | finish
  | fail

section Steps

variable {P D C : Type*} [LinearOrder P] [DecidableEq D] [DecidableEq C]

/-- What a walk writes for one document. -/
def Plan.writes (plan : Plan P C) (walk : Walk) (v : DocVectors P C) (sources : List P) :
    List (VectorWrite P C) :=
  match walk, plan with
  | .copy, _ => v.copyWrites <|
      sources.flatMap fun p => (v.codes p).filterMap fun x => (plan.dest p x).map (·, x)
  | .delete, .drain _ => sources.flatMap fun p => v.drainDeleteWrites p
  | .delete, .reassign _ => v.shrinkWrites plan.dest sources

/-- The postings a walk lists: a delete walk makes two passes over each. -/
def Plan.walkOver (plan : Plan P C) : Walk → List P
  | .copy => plan.drained
  | .delete => plan.drained.flatMap fun p => [p, p]

namespace State

/-- Maintenance holds the lock of the document. -/
def inHand (s : State P D C) (d : D) : Bool :=
  match s.op with
  | some (_, .walking _ _ _ (some (d', _))) => d' == d
  | _ => false

/-- Someone holds the lock of the document. -/
def locked (s : State P D C) (d : D) : Bool := (s.docs d).writing.isSome || s.inHand d

def setDoc (s : State P D C) (d : D) (x : DocState P C) : State P D C :=
  { s with docs := Function.update s.docs d x }

def setReader (s : State P D C) (r : ℕ) (x : ReaderState P D C) : State P D C :=
  { s with readers := Function.update s.readers r x }

/-- The document is written while the readers inside are there. -/
def touch (s : State P D C) (d : D) : State P D C :=
  { s with readers := fun r =>
      { s.readers r with touched := Function.update (s.readers r).touched d true } }

/-- The write of a document ends with these codes; the lock is released. -/
def release (s : State P D C) (d : D) (stored : List C) : State P D C :=
  let s' := s.setDoc d ⟨(s.docs d).vectors, stored, none⟩
  match (s.docs d).writing.bind Writing.reader with
  | some r => s'.setReader r { s.readers r with writing := none }
  | none => s'

/-- The documents with a key under the posting. -/
def listed (s : State P D C) (p : P) : List (Entry P D) :=
  (s.known.filter fun d => ((s.docs d).vectors.keys p).isSome).map fun d =>
    ⟨[p], List.nodup_singleton p, d⟩

/-! ### What the updates change -/

section Updates

omit [LinearOrder P] [DecidableEq C]

variable {s : State P D C}

omit [DecidableEq D] in
@[simp] theorem readers_setReader_self (r : ℕ) (a : ReaderState P D C) :
    (s.setReader r a).readers r = a := Function.update_self ..

omit [DecidableEq D] in
theorem readers_setReader_of_ne {r j : ℕ} (h : j ≠ r) (a : ReaderState P D C) :
    (s.setReader r a).readers j = s.readers j := Function.update_of_ne h ..

@[simp] theorem docs_setDoc_self (d : D) (x : DocState P C) : (s.setDoc d x).docs d = x :=
  Function.update_self ..

theorem docs_setDoc_of_ne {d e : D} (h : e ≠ d) (x : DocState P C) :
    (s.setDoc d x).docs e = s.docs e := Function.update_of_ne h ..

end Updates

end State

variable (s : State P D C)

/-- `read_epoch`. -/
def enter : State P D C :=
  { s with epoch := s.epoch.enter }.setReader s.epoch.readers.length ReaderState.fresh

/-- `PartitionHandle::snapshot`: the reader goes by it, and has read nothing yet. -/
def takeSnapshot (r : ℕ) : Option (State P D C) :=
  if s.epoch.Inside r ∧ (s.readers r).snapshot.isNone then
    some (s.setReader r { s.readers r with snapshot := some s.current, read := fun _ _ => none })
  else none

/-- Read one key of a posting that the reader's snapshot shows. -/
def scan (r : ℕ) (p : P) (d : D) : Option (State P D C) :=
  (s.readers r).snapshot.bind fun S =>
    if s.epoch.Inside r ∧ S.visible p ∧ (s.readers r).read p d = none then
      some (s.setReader r ((s.readers r).readKey p d ((s.docs d).vectors.keys p)))
    else none

def leave (r : ℕ) : Option (State P D C) :=
  if (s.readers r).writing = none then
    (s.epoch.leave r).map fun epoch => { s with epoch := epoch }
  else none

/-- `upsert_vectors`, of codes routed by the reader's snapshot. -/
def startUpsert (r : ℕ) (d : D) (filed : List (P × C)) : Option (State P D C) :=
  (s.readers r).snapshot.bind fun S =>
    if s.epoch.Inside r ∧ (s.readers r).writing = none ∧ s.locked d = false ∧
        ∀ x ∈ filed, S x.1 = some .active then
      some { (s.setDoc d { s.docs d with
          writing := some ⟨some r, filed, (s.docs d).vectors.upsertWrites filed⟩ }).setReader r
          { s.readers r with writing := some d } with known := d :: s.known }
    else none

/-- `delete_vector`. -/
def startDelete (d : D) : Option (State P D C) :=
  if s.locked d = false then
    some { s.setDoc d { s.docs d with
      writing := some ⟨none, [], (s.docs d).vectors.deleteWrites⟩ } with known := d :: s.known }
  else none

/-- The next write of an upsert or a delete. -/
def writeNext (d : D) : Option (State P D C) :=
  (s.docs d).writing.bind fun job =>
    match job.pending with
    | [] => none
    | w :: ws => some ((s.setDoc d
        ⟨(s.docs d).vectors.write w, [], some { job with pending := ws }⟩).touch d)

/-- Every write is made. -/
def finishWrite (d : D) : Option (State P D C) :=
  (s.docs d).writing.bind fun job =>
    if job.pending = [] then
      some ((s.release d (job.filed.map Prod.snd)).touch d)
    else none

/-- The write fails. -/
def abandonWrite (d : D) : Option (State P D C) :=
  (s.docs d).writing.bind fun _ => some (s.release d (s.docs d).stored)

/-- `publish_drain` installs the snapshot with the new postings and the drained ones draining. -/
def install (drain : Drain P C) : Option (State P D C) :=
  let next := (s.current.evolve drain.children .active).evolve drain.drained .draining
  if s.op.isNone ∧ (∀ p ∈ drain.children, s.current p = none) ∧
      (∀ p ∈ drain.drained, s.current p = some .active) ∧
      ∀ q ∈ drain.targets, next q = some .active then
    some { s with current := next, op := some (.drain drain, .installed .publish) }
  else none

/-- `reassign::run`. -/
def startReassign (r : Reassignment P C) : Option (State P D C) :=
  if s.op.isNone ∧ ∀ q ∈ r.targets, s.current q = some .active then
    some { s with op := some (.reassign r, .walking .copy [] [] none) }
  else none

/-- `epoch_barrier` begins, or the wait of a `publish`. -/
def beginWait : Option (State P D C) :=
  s.op.bind fun (plan, phase) =>
    let wait (pause : Pause) : State P D C :=
      { s with
        epoch := s.epoch.beginWait, op := some (plan, .waiting pause s.epoch.waiters.length) }
    match phase with
    | .installed pause => some (wait pause)
    | .copied => some (wait .barrier)
    | _ => none

/-- The operation goes on when its wait has returned. -/
def endWait : Option (State P D C) :=
  s.op.bind fun (plan, phase) =>
    match phase with
    | .waiting pause i =>
      if s.epoch.Returned i then
        some { s with op := match pause with
          | .publish => some (plan, .walking .copy (plan.walkOver .copy) [] none)
          | .barrier => some (plan, .walking .delete (plan.walkOver .delete) [] none)
          | .retire => none }
      else none
    | _ => none

/-- List the documents of the next posting. -/
def list : Option (State P D C) :=
  s.op.bind fun (plan, phase) =>
    match phase with
    | .walking walk (p :: rest) [] none =>
      some { s with op := some (plan, .walking walk rest (s.listed p) none) }
    | _ => none

/-- A reassignment's `select`: which entries it lists decides only how much it moves. -/
def select (entries : List (Entry P D)) : Option (State P D C) :=
  s.op.bind fun (plan, phase) =>
    match plan, phase with
    | .reassign _, .walking walk [] [] none =>
      some { s with op := some (plan, .walking walk [] entries none) }
    | _, _ => none

/-- Lock the next document and read what there is to write. -/
def take : Option (State P D C) :=
  s.op.bind fun (plan, phase) =>
    match phase with
    | .walking walk rest (e :: todo) none =>
      if (s.docs e.doc).writing.isNone then
        some { s with op := some (plan, .walking walk rest todo
          (some (e.doc, plan.writes walk (s.docs e.doc).vectors e.sources))) }
      else none
    | _ => none

def writeHand : Option (State P D C) :=
  s.op.bind fun (plan, phase) =>
    match phase with
    | .walking walk rest todo (some (d, w :: ws)) =>
      some { s.setDoc d { s.docs d with vectors := (s.docs d).vectors.write w } with
        op := some (plan, .walking walk rest todo (some (d, ws))) }
    | _ => none

def dropHand : Option (State P D C) :=
  s.op.bind fun (plan, phase) =>
    match phase with
    | .walking walk rest todo (some (_, [])) =>
      some { s with op := some (plan, .walking walk rest todo none) }
    | _ => none

/-- The journal record says `Copied`. -/
def recordCopied : Option (State P D C) :=
  s.op.bind fun (plan, phase) =>
    match phase with
    | .walking .copy [] [] none => some { s with op := some (plan, .copied) }
    | _ => none

/-- The deletes are done: a drain installs the snapshot without the drained postings. -/
def finish : Option (State P D C) :=
  s.op.bind fun (plan, phase) =>
    match phase with
    | .walking .delete [] [] none =>
      match plan with
      | .drain d => some { s with
          current := s.current.evolve d.drained .retired, op := some (plan, .installed .retire) }
      | .reassign _ => some { s with op := none }
    | _ => none

/-- A walk fails, and recovery takes the operation up again where its record says. -/
def fail : Option (State P D C) :=
  s.op.bind fun (plan, phase) =>
    match phase with
    | .walking .copy _ _ _ =>
      some { s with op := some (plan, .walking .copy (plan.walkOver .copy) [] none) }
    | .walking .delete _ _ _ => some { s with op := some (plan, .copied) }
    | _ => none

/-- One step. -/
def step (s : State P D C) : Act P D C → Option (State P D C)
  | .enter => some (enter s)
  | .takeSnapshot r => takeSnapshot s r
  | .scan r p d => scan s r p d
  | .leave r => leave s r
  | .notify r => (s.epoch.notify r).map fun epoch => { s with epoch := epoch }
  | .startUpsert r d filed => startUpsert s r d filed
  | .startDelete d => startDelete s d
  | .writeNext d => writeNext s d
  | .finishWrite d => finishWrite s d
  | .abandonWrite d => abandonWrite s d
  | .install drain => install s drain
  | .startReassign r => startReassign s r
  | .beginWait => beginWait s
  | .waitStep i => (s.epoch.waitStep i).map fun epoch => { s with epoch := epoch }
  | .endWait => endWait s
  | .list => list s
  | .select entries => select s entries
  | .take => take s
  | .writeHand => writeHand s
  | .dropHand => dropHand s
  | .recordCopied => recordCopied s
  | .finish => finish s
  | .fail => fail s

abbrev run : State P D C → List (Act P D C) → Option (State P D C) := StepRun.run step

end Steps

end Minnal.RoutingEpoch
