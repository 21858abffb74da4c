import Minnal.Library.StepRun
import Mathlib

/-!
# Bulk reindexing of vectors

Which documents' vectors are out of date is listed in a **queue**, one entry for each key: embed a
text, or clear. A put or a delete writes its entry first and the document second; a worker takes
entries, compares each with its document, writes or deletes vectors, and completes the entry if it
still asks for the same. A bulk reindex removes the entries that were retried too often, and then
goes through the documents and queues an embed of each text.

The reindex decides from **pages it read earlier**: a removal may hit an entry that was written
since (`reindex_overtakes_put`), or the tombstone of a key that no document brings back. And the
worker takes a newer entry that asks for the same as its own for it. Where none of that happens
(`safe`), every key is `Covered`: it has an entry, or its vectors are right, or a reindex still has
to come to it. So once a reindex is done, the queue is empty and no write goes on, every key's
vectors are those of its text (`pending_work_kept`).
-/

set_option linter.dupNamespace false

namespace Minnal

namespace BulkReindex

open StepRun Function
open Option hiding or_assoc

/-! ### The parts -/

/-- What a queue entry asks for. -/
inductive QueueEntryKind (T : Type*) where
  | embed (text : T)
  | clear
  deriving DecidableEq, Repr

/-- A queue entry and how often it has failed. -/
structure QueueEntry (T : Type*) where
  kind : QueueEntryKind T
  retryCount : ℕ
  deriving DecidableEq, Repr

/-- The vectors stored for a key: none, those of a text, or what a write left that failed. -/
inductive Vectors (T : Type*) where
  | absent
  | of (text : T)
  | torn
  deriving DecidableEq, Repr

/-- The vectors for a text, if there is one. -/
def Vectors.holding {T : Type*} : Option T → Vectors T
  | none => .absent
  | some text => .of text

/-- The text whose vectors an entry brings about. -/
def QueueEntryKind.wants {T : Type*} : QueueEntryKind T → Option T
  | .embed text => some text
  | .clear => none

/-- The entry that describes a document's text. -/
def QueueEntryKind.describing {T : Type*} : Option T → QueueEntryKind T
  | some text => .embed text
  | none => .clear

/-- A client's write: a put of a document, whose embedding text may be empty, or a delete. -/
inductive WriteOp (T : Type*) where
  | put (text : Option T)
  | delete
  deriving DecidableEq, Repr

/-- The text the document has after the write. -/
def WriteOp.text {T : Type*} : WriteOp T → Option T
  | .put text => text
  | .delete => none

/-- Where a write stands: begun; it found no queue entry; it has to clear; its entry is queued; its
vectors are dealt with and the document comes next; the document is written; over. -/
inductive WritePhase where
  | begun
  | noEntry
  | mustClear
  | queued
  | cleared
  | stored
  | ended
  deriving DecidableEq, Repr

structure Write (K T : Type*) where
  key : K
  op : WriteOp T
  phase : WritePhase
  deriving DecidableEq, Repr

/-- The entry is queued, or was found to be unnecessary, and the document is still to be written. -/
def Write.pending {K T : Type*} (w : Write K T) : Bool :=
  w.phase = .queued || w.phase = .cleared

/-- Where the worker stands with an entry: it was listed; no write was seen in progress; the
document differs and the entry is to be rewritten; its text is being embedded; its vectors are
written; vectors are being deleted; they are deleted. -/
inductive JobPhase (T : Type*) where
  | taken
  | looked
  | rewriting (current : Option T)
  | embedding (text : T)
  | written
  | clearing
  | deleted
  deriving DecidableEq, Repr

/-- An entry in hand. It comes with the number of queue writes to its key when it was listed. -/
structure Job (T : Type*) where
  entry : QueueEntry T
  version : ℕ
  phase : JobPhase T
  deriving DecidableEq, Repr

/-- A place in a scan of the keys. -/
inductive Position (K : Type*) where
  | start
  | key (k : K)
  | stop
  deriving DecidableEq, Repr

/-- The position a next cursor stands for. -/
def Position.next {K : Type*} : Option K → Position K
  | none => .stop
  | some k => .key k

/-- The key is not passed yet. -/
def Position.ahead {K : Type*} [LinearOrder K] : Position K → K → Bool
  | .start, _ => true
  | .key c, k => decide (c ≤ k)
  | .stop, _ => false

/-- Where a reindex stands: it removes exhausted entries, or queues documents; in both, it has the
rest of a page in hand. An exhausted entry comes with the number of queue writes to its key. -/
inductive Reindex (K T : Type*) where
  | idle
  | clearing (position : Position K) (page : List (K × ℕ))
  | enqueueing (position : Position K) (page : List (K × T))
  | done
  deriving DecidableEq, Repr

/-- A namespace with its queue and its vectors. -/
structure State (K T : Type*) where
  /-- The documents that have embedding text, with it. -/
  docs : AList fun _ : K => T
  queue : AList fun _ : K => QueueEntry T
  vectors : K → Vectors T
  /-- How often a key's queue entry has been written or removed. -/
  version : K → ℕ
  writes : List (Write K T)
  /-- The worker has at most one entry of a key in hand. -/
  job : K → Option (Job T)
  reindex : Reindex K T
  /-- A reindex has removed an entry that was not the one it read. -/
  overtaken : Bool

section Steps

variable {K T : Type*} [LinearOrder K] [DecidableEq T]

namespace State

/-- Write a queue entry. -/
def putEntry (s : State K T) (k : K) (e : QueueEntry T) : State K T :=
  { s with
    queue := s.queue.insert k e
    version := Function.update s.version k (s.version k + 1) }

/-- Remove a queue entry. -/
def removeQueueEntry (s : State K T) (k : K) : State K T :=
  { s with
    queue := s.queue.erase k
    version := Function.update s.version k (s.version k + 1) }

def setVectors (s : State K T) (k : K) (v : Vectors T) : State K T :=
  { s with vectors := Function.update s.vectors k v }

/-- A write or a delete of vectors that gets halfway. There is nothing to tear where there are
none. -/
def tearVectors (s : State K T) (k : K) (deleting : Bool) : State K T :=
  if deleting ∧ s.vectors k = .absent then s else s.setVectors k .torn

def setJob (s : State K T) (k : K) (j : Option (Job T)) : State K T :=
  { s with job := Function.update s.job k j }

/-- Put or delete the document; one without text is as good as none. -/
def storeDoc (s : State K T) (k : K) (text : Option T) : State K T :=
  { s with docs := text.elim (s.docs.erase k) fun t => s.docs.insert k t }

def setPhase (s : State K T) (i : ℕ) (w : Write K T) (phase : WritePhase) : State K T :=
  { s with writes := s.writes.set i { w with phase := phase } }

/-- A write to the key is in progress. -/
def inFlight (s : State K T) (k : K) : Bool :=
  s.writes.any fun w => w.key = k && w.phase ≠ .ended

/-! ### Clients -/

/-- `get_queue_entry`: for a put without text, whether there is anything to clear. -/
def readQueue (s : State K T) (i : ℕ) : Option (State K T) :=
  s.writes[i]?.bind fun w =>
    if w.phase = .begun ∧ w.op = .put none then
      some (s.setPhase i w (if (s.queue.lookup w.key).isSome then .mustClear else .noEntry))
    else none

/-- No entry was found: are there vectors? -/
def readVectors (s : State K T) (i : ℕ) : Option (State K T) :=
  s.writes[i]?.bind fun w =>
    if w.phase = .noEntry ∧ w.op = .put none then
      some (s.setPhase i w (if s.vectors w.key = .absent then .cleared else .mustClear))
    else none

/-- Queue an embed of the text, or a tombstone. -/
def queueWrite (s : State K T) (i : ℕ) : Option (State K T) :=
  s.writes[i]?.bind fun w =>
    match w.op with
    | .put (some text) =>
      if w.phase = .begun then
        some ((s.putEntry w.key ⟨.embed text, 0⟩).setPhase i w .cleared)
      else none
    | .put none =>
      if w.phase = .mustClear then some ((s.putEntry w.key ⟨.clear, 0⟩).setPhase i w .queued)
      else none
    | .delete =>
      if w.phase = .begun then some ((s.putEntry w.key ⟨.clear, 0⟩).setPhase i w .queued)
      else none

/-- `delete_vector` behind the tombstone. -/
def deleteVector (s : State K T) (i : ℕ) : Option (State K T) :=
  s.writes[i]?.bind fun w =>
    if w.phase = .queued ∧ w.op.text = none then
      some ((s.setVectors w.key .absent).setPhase i w .cleared)
    else none

/-- Write the document. -/
def store (s : State K T) (i : ℕ) : Option (State K T) :=
  s.writes[i]?.bind fun w =>
    if w.phase = .cleared then some ((s.storeDoc w.key w.op.text).setPhase i w .stored) else none

def finish (s : State K T) (i : ℕ) : Option (State K T) :=
  s.writes[i]?.bind fun w => if w.phase = .stored then some (s.setPhase i w .ended) else none

/-- The write is cut short, by an error or because its request is dropped; a delete of vectors may
have got halfway. -/
def abort (s : State K T) (i : ℕ) (torn : Bool) : Option (State K T) :=
  s.writes[i]?.bind fun w =>
    if w.phase = .stored ∨ w.phase = .ended then none
    else
      let s := if torn ∧ w.phase = .queued then s.tearVectors w.key true else s
      some (s.setPhase i w .ended)

/-! ### The worker -/

/-- List an entry that is not exhausted. -/
def take (s : State K T) (maxRetries : ℕ) (k : K) : Option (State K T) :=
  if s.job k = none then
    (s.queue.lookup k).bind fun e =>
      if e.retryCount < maxRetries then some (s.setJob k (some ⟨e, s.version k, .taken⟩)) else none
  else none

/-- Skip an entry whose document is being written. -/
def look (s : State K T) (k : K) : Option (State K T) :=
  (s.job k).bind fun j =>
    if j.phase = .taken then
      some (s.setJob k (if s.inFlight k then none else some { j with phase := .looked }))
    else none

/-- Compare the entry with its document. -/
def check (s : State K T) (k : K) : Option (State K T) :=
  (s.job k).bind fun j =>
    if j.phase = .looked then
      let current := s.docs.lookup k
      let phase : JobPhase T :=
        if j.entry.kind.wants = current then
          match j.entry.kind with
          | .embed text => .embedding text
          | .clear => .clearing
        else .rewriting current
      some (s.setJob k (some { j with phase := phase }))
    else none

/-- Rewrite an entry that does not describe its document, if it is still there. -/
def rewrite (s : State K T) (k : K) : Option (State K T) :=
  (s.job k).bind fun j =>
    match j.phase with
    | .rewriting current =>
      let s' := s.setJob k none
      some (if (s.queue.lookup k).map QueueEntry.kind = some j.entry.kind then
        s'.putEntry k ⟨.describing current, 0⟩ else s')
    | _ => none

/-- `upsert_vectors`. -/
def upsertVectors (s : State K T) (k : K) : Option (State K T) :=
  (s.job k).bind fun j =>
    match j.phase with
    | .embedding text =>
      some ((s.setVectors k (.of text)).setJob k (some { j with phase := .written }))
    | _ => none

/-- `delete_vector`, for a tombstone. -/
def clearVectors (s : State K T) (k : K) : Option (State K T) :=
  (s.job k).bind fun j =>
    if j.phase = .clearing then
      some ((s.setVectors k .absent).setJob k (some { j with phase := .deleted }))
    else none

/-- Remove the entry if it still asks for this. -/
def completeEntry (s : State K T) (k : K) (kind : QueueEntryKind T) : State K T :=
  if (s.queue.lookup k).map QueueEntry.kind = some kind then s.removeQueueEntry k else s

/-- After an embed: complete the entry; a tombstone in its place is carried out. After a clear:
complete the tombstone. -/
def complete (s : State K T) (k : K) : Option (State K T) :=
  (s.job k).bind fun j =>
    match j.phase with
    | .written =>
      if (s.queue.lookup k).map QueueEntry.kind = some .clear then
        some (s.setJob k (some { j with phase := .clearing }))
      else some ((s.completeEntry k j.entry.kind).setJob k none)
    | .deleted => some ((s.completeEntry k .clear).setJob k none)
    | _ => none

/-- The attempt fails, and is counted if the entry is still there. A write or a delete of vectors
may have got halfway. -/
def fail (s : State K T) (k : K) (torn : Bool) : Option (State K T) :=
  (s.job k).bind fun j =>
    let s := match j.phase with
      | .embedding _ => if torn then s.tearVectors k false else s
      | .clearing => if torn then s.tearVectors k true else s
      | _ => s
    let s := s.setJob k none
    some ((s.queue.lookup k).elim s fun e =>
      if e.kind = j.entry.kind then s.putEntry k { e with retryCount := e.retryCount + 1 } else s)

/-- The worker leaves the entry for a later pass. -/
def leave (s : State K T) (k : K) : Option (State K T) :=
  (s.job k).bind fun _ => some (s.setJob k none)

/-! ### The reindex -/

def startReindex (s : State K T) : Option (State K T) :=
  if s.reindex = .idle ∨ s.reindex = .done then
    some { s with reindex := .clearing .start [] }
  else none

/-- Read a page of the queue, and keep what is exhausted. -/
def readQueuePage (s : State K T) (maxRetries : ℕ) (next : Option K) : Option (State K T) :=
  match s.reindex with
  | .clearing position [] =>
    if position = .stop then none
    else
      let page := s.queue.entries.filterMap fun e =>
        if position.ahead e.1 ∧ ¬ (Position.next next).ahead e.1 ∧ maxRetries ≤ e.2.retryCount then
          some (e.1, s.version e.1) else none
      some { s with reindex := .clearing (.next next) page }
  | _ => none

/-- Remove an entry that was exhausted when the page was read. -/
def removeExhausted (s : State K T) : Option (State K T) :=
  match s.reindex with
  | .clearing position (x :: page) =>
    let newer := (s.queue.lookup x.1).isSome && decide (s.version x.1 ≠ x.2)
    some { s.removeQueueEntry x.1 with
      reindex := .clearing position page
      overtaken := s.overtaken || newer }
  | _ => none

/-- Go on to the documents. -/
def startDocs (s : State K T) : Option (State K T) :=
  if s.reindex = .clearing .stop [] then some { s with reindex := .enqueueing .start [] } else none

/-- Read a page of the documents. -/
def readDocPage (s : State K T) (next : Option K) : Option (State K T) :=
  match s.reindex with
  | .enqueueing position [] =>
    if position = .stop then none
    else
      let page := s.docs.entries.filterMap fun d =>
        if position.ahead d.1 ∧ ¬ (Position.next next).ahead d.1 then some (d.1, d.2) else none
      some { s with reindex := .enqueueing (.next next) page }
  | _ => none

/-- `enqueue_embed` of a text that was read. -/
def enqueueDoc (s : State K T) : Option (State K T) :=
  match s.reindex with
  | .enqueueing position (x :: page) =>
    some { s.putEntry x.1 ⟨.embed x.2, 0⟩ with reindex := .enqueueing position page }
  | _ => none

/-- The reindex returns. -/
def finishReindex (s : State K T) : Option (State K T) :=
  if s.reindex = .enqueueing .stop [] then some { s with reindex := .done } else none

/-- The reindex fails. -/
def failReindex (s : State K T) : Option (State K T) := some { s with reindex := .idle }

end State

/-! ### Runs -/

inductive Act (K T : Type*) where
  | beginWrite (k : K) (op : WriteOp T)
  | readQueue (i : ℕ)
  | readVectors (i : ℕ)
  | queueWrite (i : ℕ)
  | deleteVector (i : ℕ)
  | store (i : ℕ)
  | finish (i : ℕ)
  | abort (i : ℕ) (torn : Bool)
  | take (k : K)
  | look (k : K)
  | check (k : K)
  | rewrite (k : K)
  | upsertVectors (k : K)
  | clearVectors (k : K)
  | complete (k : K)
  | fail (k : K) (torn : Bool)
  | leave (k : K)
  | startReindex
  | readQueuePage (next : Option K)
  | removeExhausted
  | startDocs
  | readDocPage (next : Option K)
  | enqueueDoc
  | finishReindex
  | failReindex
  deriving DecidableEq, Repr

/-- One step of a client, the worker or the reindex. -/
def step (maxRetries : ℕ) (s : State K T) : Act K T → Option (State K T)
  | .beginWrite k op => some { s with writes := s.writes ++ [⟨k, op, .begun⟩] }
  | .readQueue i => s.readQueue i
  | .readVectors i => s.readVectors i
  | .queueWrite i => s.queueWrite i
  | .deleteVector i => s.deleteVector i
  | .store i => s.store i
  | .finish i => s.finish i
  | .abort i torn => s.abort i torn
  | .take k => s.take maxRetries k
  | .look k => s.look k
  | .check k => s.check k
  | .rewrite k => s.rewrite k
  | .upsertVectors k => s.upsertVectors k
  | .clearVectors k => s.clearVectors k
  | .complete k => s.complete k
  | .fail k torn => s.fail k torn
  | .leave k => s.leave k
  | .startReindex => s.startReindex
  | .readQueuePage next => s.readQueuePage maxRetries next
  | .removeExhausted => s.removeExhausted
  | .startDocs => s.startDocs
  | .readDocPage next => s.readDocPage next
  | .enqueueDoc => s.enqueueDoc
  | .finishReindex => s.finishReindex
  | .failReindex => s.failReindex

/-! ### What is kept -/

/-- A reindex has not come to the key yet. -/
def Reindex.owes : Reindex K T → K → Bool
  | .idle, _ | .clearing .., _ => true
  | .enqueueing position page, k => position.ahead k || page.any fun x => x.1 = k
  | .done, _ => false

namespace State

/-- The texts a key's document may come to have by writes that are past their queue entry. -/
def pendingTexts (s : State K T) (k : K) : List (Option T) :=
  s.writes.filterMap fun w => if w.key = k ∧ w.pending = true then some w.op.text else none

/-- The key's vectors are what every pending write of it calls for, or its document if there is
none. -/
def Settled (s : State K T) (k : K) : Prop :=
  (∀ text ∈ s.pendingTexts k, s.vectors k = .holding text) ∧
    (s.vectors k = .holding (s.docs.lookup k) ∨ s.pendingTexts k ≠ [])

/-- The key has text, and a reindex still has to come to it. -/
def Owed (s : State K T) (k : K) : Prop :=
  (s.docs.lookup k).isSome = true ∧ s.reindex.owes k = true ∧
    ∀ text ∈ s.pendingTexts k, text = none ∧ s.vectors k = .absent

/-- **Nothing is forgotten**: the key has an entry, is settled, or a reindex owes it one. -/
def Covered (s : State K T) (k : K) : Prop :=
  (s.queue.lookup k).isSome = true ∨ s.Settled k ∨ s.Owed k

instance (s : State K T) (k : K) : Decidable (s.Settled k) := inferInstanceAs (Decidable (_ ∧ _))

instance (s : State K T) (k : K) : Decidable (s.Owed k) := inferInstanceAs (Decidable (_ ∧ _ ∧ _))

instance (s : State K T) (k : K) : Decidable (s.Covered k) :=
  inferInstanceAs (Decidable (_ ∨ _ ∨ _))

/-- **A completion that is in order.** An embed: the entry is the one that was listed, not a later
one that asks for the same. A clear: no text is about to be stored, and the document is gone or
about to go. -/
def completesRightly (s : State K T) (k : K) : Bool :=
  match s.job k with
  | some ⟨entry, version, .written⟩ =>
    decide ((s.queue.lookup k).map QueueEntry.kind = some entry.kind → s.version k = version)
  | some ⟨_, _, .deleted⟩ =>
    decide ((s.queue.lookup k).map QueueEntry.kind = some .clear →
      (∀ text ∈ s.pendingTexts k, text = none) ∧ (s.docs.lookup k = none ∨ s.pendingTexts k ≠ []))
  | _ => true

/-- **A removal that is in order.** The entry is the one that was read, and the key does without it:
its vectors are right, or the reindex will find its text. -/
def removesRightly (s : State K T) : Bool :=
  match s.reindex with
  | .clearing _ (x :: _) => (s.queue.lookup x.1).isNone ||
      decide (s.version x.1 = x.2) && decide (s.Settled x.1 ∨ s.Owed x.1)
  | _ => true

/-- **A write that may be cut short.** It has not queued its entry yet, the entry is still there,
or the vectors it leaves are right. -/
def abortsRightly (s : State K T) (i : ℕ) (torn : Bool) : Bool :=
  s.writes[i]?.all fun w => !w.pending || (s.queue.lookup w.key).isSome ||
    !(torn && decide (w.phase = .queued)) &&
      decide (s.vectors w.key = .holding (s.docs.lookup w.key) ∨ s.Owed w.key)

end State

/-- **The steps that go wrong do not happen**: an entry is removed only if it is the one that was
read and its key does without it, and a write is not cut short once its entry is gone. -/
def safe (s : State K T) : Act K T → Bool
  | .removeExhausted => s.removesRightly
  | .complete k => s.completesRightly k
  | .abort i torn => s.abortsRightly i torn
  | _ => true

end Steps

/-! ### The invariant -/

variable {i : ℕ} {phase : WritePhase}

section Invariant

variable {K T : Type*} [LinearOrder K]

/-- **A start.** No writes, no work; vectors of keys without text are not there. -/
structure Start (s : State K T) : Prop where
  queue : s.queue = ∅
  writes : s.writes = []
  job : ∀ k, s.job k = none
  reindex : s.reindex = .idle
  overtaken : s.overtaken = false
  absent : ∀ k, s.docs.lookup k = none → s.vectors k = .absent

/-- No write of the key is past its queue entry or about to do without. -/
def State.Quiet (s : State K T) (k : K) : Prop :=
  ∀ w ∈ s.writes, w.key = k → w.phase = .begun ∨ w.phase = .mustClear ∨ w.phase = .ended

/-- What the worker has made sure of, as long as the entry it has in hand is not replaced. -/
def Fit (s : State K T) (k : K) (j : Job T) : Prop :=
  match j.phase with
  | .taken | .clearing | .deleted => True
  | .looked | .rewriting _ => s.Quiet k
  | .embedding text => s.Quiet k ∧ s.docs.lookup k = some text
  | .written => s.Quiet k ∧ s.vectors k = .holding (s.docs.lookup k)

/-- **A key in hand.** Its entry may have been replaced, but not removed. -/
structure InHand (maxRetries : ℕ) (s : State K T) (k : K) (j : Job T) : Prop where
  entry : ∃ e, s.queue.lookup k = some e ∧ e.retryCount < maxRetries
  version : j.version ≤ s.version k
  fit : s.version k = j.version → Fit s k j
  deleted : j.phase = .deleted → s.vectors k = .absent

/-- **The invariant.** -/
structure Inv (maxRetries : ℕ) (s : State K T) : Prop where
  covered : ∀ k, s.Covered k
  inHand : ∀ k j, s.job k = some j → InHand maxRetries s k j
  /-- An entry that was exhausted when it was read still is if it was not written since. -/
  page : ∀ position page, s.reindex = .clearing position page → ∀ x ∈ page,
    x.2 ≤ s.version x.1 ∧
      (s.version x.1 = x.2 → ∃ e, s.queue.lookup x.1 = some e ∧ maxRetries ≤ e.retryCount)
  overtaken : s.overtaken = false

variable {maxRetries : ℕ} {s t : State K T}

theorem Start.inv (h : Start s) : Inv maxRetries s where
  covered k := by
    right
    rcases hdoc : s.docs.lookup k with _ | text
    · left
      refine ⟨by simp [State.pendingTexts, h.writes], .inl ?_⟩
      rw [hdoc, h.absent k hdoc]
      rfl
    · right
      refine ⟨by rw [hdoc]; rfl, by rw [h.reindex]; rfl, by simp [State.pendingTexts, h.writes]⟩
  inHand k j hj := by
    rw [h.job k] at hj
    cases hj
  page position page hpage := by
    rw [h.reindex] at hpage
    cases hpage
  overtaken := h.overtaken

namespace State

theorem mem_pendingTexts {k : K} {text : Option T} :
    text ∈ s.pendingTexts k ↔ ∃ w ∈ s.writes, w.key = k ∧ w.pending = true ∧ w.op.text = text := by
  simp only [pendingTexts, List.mem_filterMap, ite_none_right_eq_some, some.injEq,
    and_assoc]

theorem lookup_putEntry (s : State K T) (k : K) (e : QueueEntry T) (k' : K) :
    (s.putEntry k e).queue.lookup k' = if k' = k then some e else s.queue.lookup k' := by
  split_ifs with h
  · rw [h]
    exact AList.lookup_insert _
  · exact AList.lookup_insert_ne h

theorem lookup_removeQueueEntry (s : State K T) (k k' : K) :
    (s.removeQueueEntry k).queue.lookup k' = if k' = k then none else s.queue.lookup k' := by
  split_ifs with h
  · rw [h]
    exact AList.lookup_erase _ _
  · exact AList.lookup_erase_ne h

theorem lookup_storeDoc (s : State K T) (k : K) (text : Option T) (k' : K) :
    (s.storeDoc k text).docs.lookup k' = if k' = k then text else s.docs.lookup k' := by
  rcases text with _ | t
  · split_ifs with h
    · rw [h]
      exact AList.lookup_erase _ _
    · exact AList.lookup_erase_ne h
  · split_ifs with h
    · rw [h]
      exact AList.lookup_insert _
    · exact AList.lookup_insert_ne h

/-- A write's phase: the pending texts after it are those before, and its own if it is pending. -/
theorem mem_pendingTexts_of_setPhase {w : Write K T} {k : K} {text : Option T}
    (h : text ∈ (s.setPhase i w phase).pendingTexts k) :
    text ∈ s.pendingTexts k ∨
      (k = w.key ∧ text = w.op.text ∧ ({ w with phase := phase } : Write K T).pending = true) := by
  obtain ⟨w', hw', hkey, hpending, htext⟩ := mem_pendingTexts.mp h
  rcases List.mem_or_eq_of_mem_set hw' with hw' | rfl
  · exact .inl (mem_pendingTexts.mpr ⟨w', hw', hkey, hpending, htext⟩)
  · exact .inr ⟨hkey.symm, htext.symm, hpending⟩

/-- A write's phase: the pending texts before it are still those after, but for its own. -/
theorem mem_pendingTexts_setPhase {w : Write K T} (hw : s.writes[i]? = some w) {k : K}
    {text : Option T} (h : text ∈ s.pendingTexts k) :
    text ∈ (s.setPhase i w phase).pendingTexts k ∨
      (k = w.key ∧ text = w.op.text ∧ w.pending = true ∧
        ({ w with phase := phase } : Write K T).pending = false) := by
  obtain ⟨w', hw', hkey, hpending, htext⟩ := mem_pendingTexts.mp h
  obtain ⟨j, hj⟩ := List.mem_iff_getElem?.mp hw'
  obtain ⟨hlt, -⟩ := List.getElem?_eq_some_iff.mp hw
  by_cases hij : i = j
  · subst hij
    obtain rfl := some.inj (hw.symm.trans hj)
    by_cases hphase : ({ w with phase := phase } : Write K T).pending = true
    · refine .inl (mem_pendingTexts.mpr ⟨{ w with phase := phase }, ?_, hkey, hphase, htext⟩)
      exact List.mem_of_getElem? (List.getElem?_set_self hlt)
    · exact .inr ⟨hkey.symm, htext.symm, hpending, by simpa using hphase⟩
  · refine .inl (mem_pendingTexts.mpr ⟨w', ?_, hkey, hpending, htext⟩)
    exact List.mem_of_getElem? ((List.getElem?_set_ne hij).trans hj)

/-- **Frame.** What a key's cover depends on. -/
theorem Covered.frame {k : K} (h : s.Covered k)
    (hqueue : (s.queue.lookup k).isSome = true → (t.queue.lookup k).isSome = true)
    (hdocs : t.docs.lookup k = s.docs.lookup k) (hvectors : t.vectors k = s.vectors k)
    (howes : s.reindex.owes k = true → t.reindex.owes k = true)
    (hpending : ∀ text, text ∈ t.pendingTexts k ↔ text ∈ s.pendingTexts k) : t.Covered k := by
  rcases h with h | ⟨hall, hsome⟩ | ⟨hdoc, hreindex, hall⟩
  · exact .inl (hqueue h)
  · refine .inr (.inl ⟨fun text htext => ?_, ?_⟩)
    · rw [hvectors]
      exact hall text ((hpending text).mp htext)
    · rw [hvectors, hdocs]
      refine hsome.imp id fun hne => ?_
      obtain ⟨text, htext⟩ := List.exists_mem_of_ne_nil _ hne
      exact List.ne_nil_of_mem ((hpending text).mpr htext)
  · refine .inr (.inr ⟨by rw [hdocs]; exact hdoc, howes hreindex, fun text htext => ?_⟩)
    rw [hvectors]
    exact hall text ((hpending text).mp htext)

theorem Quiet.pendingTexts {k : K} (h : s.Quiet k) : s.pendingTexts k = [] := by
  refine List.eq_nil_iff_forall_not_mem.mpr fun text htext => ?_
  obtain ⟨w, hw, hkey, hpending, -⟩ := mem_pendingTexts.mp htext
  rcases h w hw hkey with hphase | hphase | hphase <;> simp [Write.pending, hphase] at hpending

omit [LinearOrder K] in
/-- Only a write whose phase changes is another one. -/
theorem mem_writes_setPhase {w : Write K T} (hw : s.writes[i]? = some w) (phase : WritePhase)
    {w' : Write K T} (hkey : w'.key ≠ w.key) :
    w' ∈ (s.setPhase i w phase).writes ↔ w' ∈ s.writes := by
  constructor
  · intro hmem
    refine (List.mem_or_eq_of_mem_set hmem).resolve_right ?_
    rintro rfl
    exact hkey rfl
  · intro hmem
    obtain ⟨j, hj⟩ := List.mem_iff_getElem?.mp hmem
    have hij : i ≠ j := by
      rintro rfl
      obtain rfl := some.inj (hw.symm.trans hj)
      exact hkey rfl
    exact List.mem_of_getElem? ((List.getElem?_set_ne hij).trans hj)

end State

variable {k : K} {j : Job T}

/-- **Frame.** What a key in hand depends on. As long as its entry is not replaced, no write
changes its document or its vectors. -/
theorem InHand.frame (h : InHand maxRetries s k j) (hqueue : t.queue.lookup k = s.queue.lookup k)
    (hversion : t.version k = s.version k) (hquiet : s.Quiet k →
      t.Quiet k ∧ t.docs.lookup k = s.docs.lookup k ∧ t.vectors k = s.vectors k)
    (hdeleted : s.vectors k = .absent → t.vectors k = .absent) : InHand maxRetries t k j where
  entry := by
    rw [hqueue]
    exact h.entry
  version := by
    rw [hversion]
    exact h.version
  fit heq := by
    have hfit := h.fit (hversion.symm.trans heq)
    obtain ⟨e, v, phase⟩ := j
    cases phase with
    | taken | clearing | deleted => trivial
    | looked | rewriting current => exact (hquiet hfit).1
    | embedding text =>
      obtain ⟨hq, hdocs, -⟩ := hquiet hfit.1
      exact ⟨hq, hdocs.trans hfit.2⟩
    | written =>
      obtain ⟨hq, hdocs, hvectors⟩ := hquiet hfit.1
      refine ⟨hq, ?_⟩
      rw [hdocs, hvectors]
      exact hfit.2
  deleted hphase := hdeleted (h.deleted hphase)

/-! ### One step -/

/-- Nothing is different but what is about one key. -/
structure SameBut (k₀ : K) (s t : State K T) : Prop where
  reindex : t.reindex = s.reindex
  overtaken : t.overtaken = s.overtaken
  queue : ∀ k, k ≠ k₀ → t.queue.lookup k = s.queue.lookup k
  docs : ∀ k, k ≠ k₀ → t.docs.lookup k = s.docs.lookup k
  vectors : ∀ k, k ≠ k₀ → t.vectors k = s.vectors k
  version : ∀ k, k ≠ k₀ → t.version k = s.version k
  job : ∀ k, k ≠ k₀ → t.job k = s.job k
  writes : ∀ w, w.key ≠ k₀ → (w ∈ t.writes ↔ w ∈ s.writes)

namespace SameBut

variable {k₀ : K}

theorem trans {u : State K T} (h : SameBut k₀ s t) (h' : SameBut k₀ t u) : SameBut k₀ s u where
  reindex := h'.reindex.trans h.reindex
  overtaken := h'.overtaken.trans h.overtaken
  queue k hk := (h'.queue k hk).trans (h.queue k hk)
  docs k hk := (h'.docs k hk).trans (h.docs k hk)
  vectors k hk := (h'.vectors k hk).trans (h.vectors k hk)
  version k hk := (h'.version k hk).trans (h.version k hk)
  job k hk := (h'.job k hk).trans (h.job k hk)
  writes w hw := (h'.writes w hw).trans (h.writes w hw)

theorem refl (k₀ : K) (s : State K T) : SameBut k₀ s s :=
  ⟨rfl, rfl, fun _ _ => rfl, fun _ _ => rfl, fun _ _ => rfl, fun _ _ => rfl, fun _ _ => rfl,
    fun _ _ => Iff.rfl⟩

theorem putEntry (s : State K T) (k : K) (e : QueueEntry T) : SameBut k s (s.putEntry k e) :=
  { refl k s with
    queue := fun k' hk => by rw [State.lookup_putEntry, if_neg hk]
    version := fun _ hk => update_of_ne hk _ _ }

theorem removeQueueEntry (s : State K T) (k : K) : SameBut k s (s.removeQueueEntry k) :=
  { refl k s with
    queue := fun k' hk => by rw [State.lookup_removeQueueEntry, if_neg hk]
    version := fun _ hk => update_of_ne hk _ _ }

theorem setVectors (s : State K T) (k : K) (v : Vectors T) : SameBut k s (s.setVectors k v) :=
  { refl k s with vectors := fun _ hk => update_of_ne hk _ _ }

theorem setJob (s : State K T) (k : K) (j : Option (Job T)) : SameBut k s (s.setJob k j) :=
  { refl k s with job := fun _ hk => update_of_ne hk _ _ }

theorem storeDoc (s : State K T) (k : K) (text : Option T) : SameBut k s (s.storeDoc k text) :=
  { refl k s with docs := fun k' hk => by rw [State.lookup_storeDoc, if_neg hk] }

theorem setPhase {w : Write K T} (hw : s.writes[i]? = some w) (phase : WritePhase) :
    SameBut w.key s (s.setPhase i w phase) :=
  { refl w.key s with writes := fun _ hkey => State.mem_writes_setPhase hw phase hkey }

theorem then_setPhase {w : Write K T} (h : SameBut w.key s t) (hw : t.writes[i]? = some w)
    (phase : WritePhase) : SameBut w.key s (t.setPhase i w phase) :=
  h.trans (setPhase hw phase)

theorem pendingTexts (h : SameBut k₀ s t) (hk : k ≠ k₀) (text : Option T) :
    text ∈ t.pendingTexts k ↔ text ∈ s.pendingTexts k := by
  simp only [State.mem_pendingTexts]
  constructor <;> rintro ⟨w, hw, rfl, hrest⟩
  · exact ⟨w, (h.writes w hk).mp hw, rfl, hrest⟩
  · exact ⟨w, (h.writes w hk).mpr hw, rfl, hrest⟩

theorem quiet (h : SameBut k₀ s t) (hk : k ≠ k₀) (hquiet : s.Quiet k) : t.Quiet k := by
  rintro w hw rfl
  exact hquiet w ((h.writes w hk).mp hw) rfl

theorem inHand (h : SameBut k₀ s t) (hk : k ≠ k₀) (hj : InHand maxRetries s k j) :
    InHand maxRetries t k j :=
  hj.frame (h.queue k hk) (h.version k hk)
    (fun hquiet => ⟨h.quiet hk hquiet, h.docs k hk, h.vectors k hk⟩)
    fun habsent => (h.vectors k hk).trans habsent

end SameBut

/-- **A step at one key** keeps the invariant if it does there. -/
theorem Inv.step_at (h : Inv maxRetries s) {k₀ : K} (hsame : SameBut k₀ s t)
    (hcovered : t.Covered k₀) (hjob : ∀ j, t.job k₀ = some j → InHand maxRetries t k₀ j)
    (hversion : t.version k₀ = s.version k₀ ∧ t.queue.lookup k₀ = s.queue.lookup k₀ ∨
      s.version k₀ < t.version k₀) : Inv maxRetries t where
  covered k := by
    by_cases hk : k = k₀
    · exact hk ▸ hcovered
    · refine (h.covered k).frame ?_ (hsame.docs k hk) (hsame.vectors k hk) ?_
        (hsame.pendingTexts hk)
      · rw [hsame.queue k hk]
        exact id
      · rw [hsame.reindex]
        exact id
  inHand k j hj := by
    by_cases hk : k = k₀
    · subst hk
      exact hjob j hj
    · exact hsame.inHand hk (h.inHand k j ((hsame.job k hk).symm.trans hj))
  page position page hpage x hx := by
    rw [hsame.reindex] at hpage
    obtain ⟨hle, hsince⟩ := h.page position page hpage x hx
    by_cases hk : x.1 = k₀
    · rw [hk] at hle hsince ⊢
      rcases hversion with ⟨hv, hq⟩ | hlt
      · rw [hv, hq]
        exact ⟨hle, hsince⟩
      · exact ⟨hle.trans hlt.le, fun heq => absurd heq (hle.trans_lt hlt).ne'⟩
    · rw [hsame.version x.1 hk, hsame.queue x.1 hk]
      exact ⟨hle, hsince⟩
  overtaken := hsame.overtaken.trans h.overtaken

@[simp]
theorem State.version_putEntry (s : State K T) (k : K) (e : QueueEntry T) :
    (s.putEntry k e).version k = s.version k + 1 :=
  update_self (β := fun _ => ℕ) ..

@[simp]
theorem State.version_removeQueueEntry (s : State K T) (k : K) :
    (s.removeQueueEntry k).version k = s.version k + 1 :=
  update_self (β := fun _ => ℕ) ..

@[simp]
theorem State.vectors_setVectors (s : State K T) (k : K) (v : Vectors T) :
    (s.setVectors k v).vectors k = v :=
  update_self (β := fun _ => Vectors T) ..

@[simp]
theorem State.job_setJob (s : State K T) (k : K) (j : Option (Job T)) : (s.setJob k j).job k = j :=
  update_self (β := fun _ => Option (Job T)) ..

/-- **A write's step.** It leaves the entry alone, and while the key is quiet, its document and
its vectors too. -/
theorem Inv.write_step (h : Inv maxRetries s) (hsame : SameBut k s t)
    (hqueue : t.queue.lookup k = s.queue.lookup k) (hversion : t.version k = s.version k)
    (hjob : t.job k = s.job k) (hcovered : t.Covered k)
    (hquiet : ∀ j, s.job k = some j → s.Quiet k →
      t.Quiet k ∧ t.docs.lookup k = s.docs.lookup k ∧ t.vectors k = s.vectors k)
    (hdeleted : s.vectors k = .absent → t.vectors k = .absent) : Inv maxRetries t := by
  refine h.step_at hsame hcovered (fun j hj => ?_) (.inl ⟨hversion, hqueue⟩)
  rw [hjob] at hj
  exact (h.inHand k j hj).frame hqueue hversion (hquiet j hj) hdeleted

variable {w : Write K T}

/-- A write gets to another phase and nothing else happens. -/
theorem Inv.setPhase (h : Inv maxRetries s) (hw : s.writes[i]? = some w)
    (hcovered : (s.setPhase i w phase).Covered w.key)
    (hquiet : ∀ j, s.job w.key = some j → s.Quiet w.key → (s.setPhase i w phase).Quiet w.key) :
    Inv maxRetries (s.setPhase i w phase) :=
  h.write_step (.setPhase hw phase) rfl rfl rfl hcovered
    (fun j hj hq => ⟨hquiet j hj hq, rfl, rfl⟩) id

omit [LinearOrder K] in
/-- A quiet key has no write in another phase. -/
theorem State.Quiet.elim (h : s.Quiet w.key) (hw : s.writes[i]? = some w)
    (hphase : ¬ (w.phase = .begun ∨ w.phase = .mustClear ∨ w.phase = .ended)) {p : Prop} : p :=
  absurd (h w (List.mem_of_getElem? hw) rfl) hphase

omit [LinearOrder K] in
/-- A write that is quiet stays so when it is over or about to write its entry. -/
theorem State.Quiet.setPhase (h : s.Quiet k)
    (hphase : phase = .begun ∨ phase = .mustClear ∨ phase = .ended) :
    (s.setPhase i w phase).Quiet k := by
  intro w' hw' hkey
  rcases List.mem_or_eq_of_mem_set hw' with hw' | rfl
  · exact h w' hw' hkey
  · exact hphase

/-- A phase that is as pending as the one before. -/
theorem State.Covered.setPhase_same (h : s.Covered k) (hw : s.writes[i]? = some w)
    (hphase : ({ w with phase := phase } : Write K T).pending = w.pending) :
    (s.setPhase i w phase).Covered k := by
  refine h.frame id rfl rfl id fun text => ⟨fun htext => ?_, fun htext => ?_⟩
  · rcases State.mem_pendingTexts_of_setPhase htext with htext | ⟨rfl, rfl, hpending⟩
    · exact htext
    · exact State.mem_pendingTexts.mpr
        ⟨w, List.mem_of_getElem? hw, rfl, hphase ▸ hpending, rfl⟩
  · refine (State.mem_pendingTexts_setPhase hw htext).resolve_right ?_
    rintro ⟨-, -, hpending, hnot⟩
    rw [hphase, hpending] at hnot
    cases hnot

/-- The worker's bookkeeping. -/
theorem Inv.setJob (h : Inv maxRetries s) (k : K) {j : Option (Job T)}
    (hj : ∀ j', j = some j' → InHand maxRetries s k j') : Inv maxRetries (s.setJob k j) := by
  refine h.step_at (.setJob s k j) ((h.covered k).frame id rfl rfl id fun _ => Iff.rfl) ?_
    (.inl ⟨rfl, rfl⟩)
  intro j' hj'
  obtain ⟨hentry, hversion, hfit, hdeleted⟩ := hj j' ((s.job_setJob k j).symm.trans hj')
  exact ⟨hentry, hversion, hfit, hdeleted⟩

/-- The worker is through with a key. -/
theorem Inv.setJob_none (h : Inv maxRetries s) (k : K) : Inv maxRetries (s.setJob k none) :=
  h.setJob k fun _ hnone => by cases hnone

/-- An entry is written, by a client or the reindex, or by the worker as its last act. -/
theorem Inv.putEntry (h : Inv maxRetries s) (k : K) {e : QueueEntry T}
    (he : e.retryCount = 0 ∨ s.job k = none) : Inv maxRetries (s.putEntry k e) := by
  have hlookup : (s.putEntry k e).queue.lookup k = some e := by
    rw [State.lookup_putEntry, if_pos rfl]
  refine h.step_at (.putEntry s k e) (.inl (by rw [hlookup]; rfl)) (fun j hj => ?_) (.inr ?_)
  · obtain ⟨⟨e', -, hlt⟩, hversion, -, hdeleted⟩ := h.inHand k j hj
    refine ⟨⟨e, hlookup, ?_⟩, ?_, fun heq => ?_, hdeleted⟩
    · rcases he with he | he
      · omega
      · exact absurd (he.symm.trans hj) (by simp)
    · rw [State.version_putEntry]
      omega
    · rw [State.version_putEntry] at heq
      omega
  · rw [State.version_putEntry]
    exact Nat.lt_succ_self _

/-- The worker writes or deletes the vectors of a key it has in hand. -/
theorem Inv.setVectors (h : Inv maxRetries s) (hj : s.job k = some j) (v : Vectors T)
    {j' : Option (Job T)} (hj' : ∀ j'', j' = some j'' → InHand maxRetries (s.setVectors k v) k j'') :
    Inv maxRetries ((s.setVectors k v).setJob k j') := by
  obtain ⟨e, hlookup, -⟩ := (h.inHand k j hj).entry
  refine h.step_at ((SameBut.setVectors s k v).trans (.setJob _ k j'))
    (.inl (isSome_iff_exists.mpr ⟨e, hlookup⟩)) (fun j'' hj'' => ?_) (.inl ⟨rfl, rfl⟩)
  obtain ⟨hentry, hversion, hfit, hdeleted⟩ := hj' j'' ((State.job_setJob _ k j').symm.trans hj'')
  exact ⟨hentry, hversion, hfit, hdeleted⟩

/-- An entry goes whose key does without it. -/
theorem Inv.removeQueueEntry (h : Inv maxRetries s) (hjob : s.job k = none)
    (hkey : s.Settled k ∨ s.Owed k) : Inv maxRetries (s.removeQueueEntry k) := by
  refine h.step_at (.removeQueueEntry s k) (.inr hkey) (fun j hj => ?_) (.inr ?_)
  · rw [show (s.removeQueueEntry k).job k = s.job k from rfl, hjob] at hj
    cases hj
  · rw [State.version_removeQueueEntry]
    exact Nat.lt_succ_self _

end Invariant

variable {torn : Bool}

section StepLemmas

variable {K T : Type*} [LinearOrder K] {maxRetries : ℕ} {s t : State K T}

/-! ### The clients' steps -/

theorem Inv.beginWrite (h : Inv maxRetries s) (k : K) (op : WriteOp T) :
    Inv maxRetries { s with writes := s.writes ++ [⟨k, op, .begun⟩] } := by
  have hpending : ∀ k' text, text ∈ State.pendingTexts
      { s with writes := s.writes ++ [⟨k, op, .begun⟩] } k' ↔ text ∈ s.pendingTexts k' := by
    intro k' text
    have hnone : (if k = k' ∧ (⟨k, op, .begun⟩ : Write K T).pending = true
        then some op.text else none) = none := if_neg (by simp [Write.pending])
    simp [State.pendingTexts, hnone]
  refine ⟨fun k' => (h.covered k').frame id rfl rfl id (hpending k'), fun k' j hj => ?_, h.page,
    h.overtaken⟩
  refine (h.inHand k' j hj).frame rfl rfl (fun hquiet => ⟨fun w hw hkey => ?_, rfl, rfl⟩) id
  rcases List.mem_append.mp hw with hw | hw
  · exact hquiet w hw hkey
  · obtain rfl := List.mem_singleton.mp hw
    exact .inl rfl

theorem Inv.readQueue [DecidableEq T] (h : Inv maxRetries s) (hstep : s.readQueue i = some t) :
    Inv maxRetries t := by
  obtain ⟨w, hw, hstep⟩ := bind_eq_some_iff.mp hstep
  obtain ⟨⟨hphase, -⟩, rfl⟩ := ite_some_none_eq_some.mp hstep
  refine h.setPhase hw ((h.covered w.key).setPhase_same hw ?_) fun j hj hquiet => ?_
  · split_ifs <;> simp [Write.pending, hphase]
  · -- the worker has the key in hand, so there is an entry
    obtain ⟨e, hlookup, -⟩ := (h.inHand w.key j hj).entry
    rw [if_pos (by rw [hlookup]; rfl)]
    exact hquiet.setPhase (.inr (.inl rfl))

theorem Inv.readVectors [DecidableEq T] (h : Inv maxRetries s) (hstep : s.readVectors i = some t) :
    Inv maxRetries t := by
  obtain ⟨w, hw, hstep⟩ := bind_eq_some_iff.mp hstep
  obtain ⟨⟨hphase, hop⟩, rfl⟩ := ite_some_none_eq_some.mp hstep
  refine h.setPhase hw ?_ fun j hj hquiet => hquiet.elim hw (by simp [hphase])
  split_ifs with habsent
  · -- the write is pending now, and calls for the vectors that are not there
    have hnew : ∀ text ∈ (s.setPhase i w .cleared).pendingTexts w.key,
        text ∈ s.pendingTexts w.key ∨ text = none := by
      intro text htext
      refine (State.mem_pendingTexts_of_setPhase htext).imp_right fun hown => ?_
      rw [hown.2.1, hop]
      rfl
    have hself : none ∈ (s.setPhase i w .cleared).pendingTexts w.key := by
      obtain ⟨hlt, -⟩ := List.getElem?_eq_some_iff.mp hw
      refine State.mem_pendingTexts.mpr ⟨{ w with phase := .cleared }, ?_, rfl, rfl, ?_⟩
      · exact List.mem_of_getElem? (List.getElem?_set_self hlt)
      · rw [hop]
        rfl
    rcases h.covered w.key with hqueue | ⟨hall, -⟩ | ⟨hdoc, howes, hall⟩
    · exact .inl hqueue
    · refine .inr (.inl ⟨fun text htext => ?_, .inr (List.ne_nil_of_mem hself)⟩)
      rcases hnew text htext with htext | rfl
      · exact hall text htext
      · exact habsent
    · refine .inr (.inr ⟨hdoc, howes, fun text htext => ?_⟩)
      rcases hnew text htext with htext | rfl
      · exact hall text htext
      · exact ⟨rfl, habsent⟩
  · exact (h.covered w.key).setPhase_same hw (by simp [Write.pending, hphase])

variable {w : Write K T}

/-- A write's entry, and its phase. -/
theorem Inv.putEntry_setPhase (h : Inv maxRetries s) (hw : s.writes[i]? = some w)
    (kind : QueueEntryKind T) (phase : WritePhase) :
    Inv maxRetries ((s.putEntry w.key ⟨kind, 0⟩).setPhase i w phase) := by
  have hput : Inv maxRetries (s.putEntry w.key ⟨kind, 0⟩) := h.putEntry w.key (.inl rfl)
  have hlookup : (s.putEntry w.key ⟨kind, 0⟩).queue.lookup w.key = some ⟨kind, 0⟩ := by
    rw [State.lookup_putEntry, if_pos rfl]
  have hlt : s.version w.key < (s.putEntry w.key ⟨kind, 0⟩).version w.key := by
    rw [State.version_putEntry]
    exact Nat.lt_succ_self _
  refine h.step_at ((SameBut.putEntry s w.key ⟨kind, 0⟩).then_setPhase hw phase)
    (.inl (by rw [show ((s.putEntry w.key ⟨kind, 0⟩).setPhase i w phase).queue.lookup w.key
      = some ⟨kind, 0⟩ from hlookup]; rfl)) (fun j hj => ?_) (.inr hlt)
  obtain ⟨hentry, hversion, -, hdeleted⟩ := hput.inHand w.key j hj
  refine ⟨hentry, hversion, fun heq => ?_, hdeleted⟩
  -- the job is about an older entry
  exact absurd heq ((h.inHand w.key j hj).version.trans_lt hlt).ne'

theorem Inv.queueWrite (h : Inv maxRetries s) (hstep : s.queueWrite i = some t) :
    Inv maxRetries t := by
  obtain ⟨w, hw, hstep⟩ := bind_eq_some_iff.mp hstep
  rcases hop : w.op with (_ | text) | _
  all_goals
    rw [hop] at hstep
    obtain ⟨-, rfl⟩ := ite_some_none_eq_some.mp hstep
    exact h.putEntry_setPhase hw _ _

theorem Inv.deleteVector (h : Inv maxRetries s) (hstep : s.deleteVector i = some t) :
    Inv maxRetries t := by
  obtain ⟨w, hw, hstep⟩ := bind_eq_some_iff.mp hstep
  obtain ⟨⟨hphase, htext⟩, rfl⟩ := ite_some_none_eq_some.mp hstep
  have hmem : none ∈ s.pendingTexts w.key := State.mem_pendingTexts.mpr
    ⟨w, List.mem_of_getElem? hw, rfl, by simp [Write.pending, hphase], htext⟩
  have hself : (s.setVectors w.key .absent).vectors w.key = .absent := State.vectors_setVectors ..
  have hcovered : (s.setVectors w.key .absent).Covered w.key := by
    rcases h.covered w.key with hqueue | ⟨hall, -⟩ | ⟨hdoc, howes, hall⟩
    · exact .inl hqueue
    · -- the pending delete calls for no vectors, so there were none
      refine .inr (.inl ⟨fun text htext => ?_, .inr (List.ne_nil_of_mem hmem)⟩)
      rw [hself, ← hall text htext, hall none hmem]
      rfl
    · exact .inr (.inr ⟨hdoc, howes, fun text htext => ⟨(hall text htext).1, hself⟩⟩)
  exact h.write_step ((SameBut.setVectors s w.key .absent).then_setPhase hw .cleared) rfl rfl
    rfl (hcovered.setPhase_same hw (by simp [Write.pending, hphase]))
    (fun j _ hquiet => hquiet.elim hw (by simp [hphase])) fun _ => hself

theorem Inv.store (h : Inv maxRetries s) (hstep : s.store i = some t) : Inv maxRetries t := by
  obtain ⟨w, hw, hstep⟩ := bind_eq_some_iff.mp hstep
  obtain ⟨hphase, rfl⟩ := ite_some_none_eq_some.mp hstep
  have hmem : w.op.text ∈ s.pendingTexts w.key := State.mem_pendingTexts.mpr
    ⟨w, List.mem_of_getElem? hw, rfl, by simp [Write.pending, hphase], rfl⟩
  have hdoc : ((s.storeDoc w.key w.op.text).setPhase i w .stored).docs.lookup w.key
      = w.op.text := by
    change (s.storeDoc w.key w.op.text).docs.lookup w.key = w.op.text
    rw [State.lookup_storeDoc, if_pos rfl]
  have hrest : ∀ text ∈ ((s.storeDoc w.key w.op.text).setPhase i w .stored).pendingTexts w.key,
      text ∈ s.pendingTexts w.key := by
    intro text htext
    refine (State.mem_pendingTexts_of_setPhase htext).resolve_right ?_
    rintro ⟨-, -, hpending⟩
    simp [Write.pending] at hpending
  refine h.write_step ((SameBut.storeDoc s w.key w.op.text).then_setPhase hw .stored) rfl rfl
    rfl ?_ (fun j _ hquiet => hquiet.elim hw (by simp [hphase])) id
  rcases h.covered w.key with hqueue | ⟨hall, -⟩ | ⟨-, -, hall⟩
  · exact .inl hqueue
  · refine .inr (.inl ⟨fun text htext => hall text (hrest text htext), .inl ?_⟩)
    rw [hdoc]
    exact hall _ hmem
  · -- the reindex was to come to the text that is gone, and there are no vectors of it
    refine .inr (.inl ⟨fun text htext => ?_, .inl ?_⟩)
    · obtain ⟨rfl, habsent⟩ := hall text (hrest text htext)
      exact habsent
    · obtain ⟨hnone, habsent⟩ := hall _ hmem
      rw [hdoc, hnone]
      exact habsent

theorem Inv.finish (h : Inv maxRetries s) (hstep : s.finish i = some t) : Inv maxRetries t := by
  obtain ⟨w, hw, hstep⟩ := bind_eq_some_iff.mp hstep
  obtain ⟨hphase, rfl⟩ := ite_some_none_eq_some.mp hstep
  exact h.setPhase hw ((h.covered w.key).setPhase_same hw (by simp [Write.pending, hphase]))
    fun j _ hquiet => hquiet.setPhase (.inr (.inr rfl))

variable {k : K}

/-- A write that is over leaves fewer pending texts. -/
theorem State.pendingTexts_ended {text : Option T}
    (h : text ∈ (s.setPhase i w .ended).pendingTexts k) : text ∈ s.pendingTexts k := by
  refine (State.mem_pendingTexts_of_setPhase h).resolve_right ?_
  rintro ⟨-, -, hpending⟩
  simp [Write.pending] at hpending

theorem Inv.abort [DecidableEq T] (h : Inv maxRetries s) (hsafe : s.abortsRightly i torn = true)
    (hstep : s.abort i torn = some t) : Inv maxRetries t := by
  obtain ⟨w, hw, hdone⟩ := bind_eq_some_iff.mp hstep
  have hsafe : w.pending = false ∨ (s.queue.lookup w.key).isSome = true ∨
      (¬ (torn = true ∧ w.phase = .queued) ∧
        (s.vectors w.key = .holding (s.docs.lookup w.key) ∨ s.Owed w.key)) := by
    simp only [State.abortsRightly, hw, all_some, Bool.or_eq_true, Bool.not_eq_true',
      Bool.and_eq_true, decide_eq_true_eq, or_assoc] at hsafe
    simpa using hsafe
  split_ifs at hdone with hphase htorn
  · obtain rfl := some.inj hdone
    -- a delete of vectors got halfway: the entry is still there
    have hqueue : (s.queue.lookup w.key).isSome = true := by
      rcases hsafe with hpending | hqueue | ⟨hnot, -⟩
      · simp [Write.pending, htorn.2] at hpending
      · exact hqueue
      · exact absurd htorn hnot
    rw [State.tearVectors]
    split_ifs with habsent
    · exact h.setPhase hw (.inl hqueue) fun j _ hquiet => hquiet.elim hw (by simp [htorn.2])
    · exact h.write_step ((SameBut.setVectors s w.key .torn).then_setPhase hw .ended) rfl rfl
        rfl (.inl hqueue) (fun j _ hquiet => hquiet.elim hw (by simp [htorn.2]))
        fun hnone => absurd ⟨rfl, hnone⟩ habsent
  · obtain rfl := some.inj hdone
    refine h.setPhase hw ?_ fun j _ hquiet => hquiet.setPhase (.inr (.inr rfl))
    rcases hsafe with hpending | hqueue | ⟨-, hvectors | ⟨hdoc, howes, hall⟩⟩
    · exact (h.covered w.key).setPhase_same hw (by rw [hpending]; simp [Write.pending])
    · exact .inl hqueue
    · rcases h.covered w.key with hqueue | ⟨hall, -⟩ | ⟨hdoc, howes, hall⟩
      · exact .inl hqueue
      · exact .inr (.inl ⟨fun text htext => hall text (State.pendingTexts_ended htext),
          .inl hvectors⟩)
      · exact .inr (.inr ⟨hdoc, howes, fun text htext =>
          hall text (State.pendingTexts_ended htext)⟩)
    · exact .inr (.inr ⟨hdoc, howes, fun text htext =>
        hall text (State.pendingTexts_ended htext)⟩)

/-! ### The worker's steps -/

theorem Inv.take (h : Inv maxRetries s) (hstep : s.take maxRetries k = some t) :
    Inv maxRetries t := by
  obtain ⟨-, hstep⟩ := ite_none_right_eq_some.mp hstep
  obtain ⟨e, hlookup, hstep⟩ := bind_eq_some_iff.mp hstep
  obtain ⟨hlt, rfl⟩ := ite_some_none_eq_some.mp hstep
  refine h.setJob k fun j hj => ?_
  obtain rfl := some.inj hj
  exact ⟨⟨e, hlookup, hlt⟩, le_rfl, fun _ => trivial, fun hphase => by cases hphase⟩

theorem Inv.look [DecidableEq T] (h : Inv maxRetries s) (hstep : s.look k = some t) :
    Inv maxRetries t := by
  obtain ⟨j, hj, hstep⟩ := bind_eq_some_iff.mp hstep
  obtain ⟨-, rfl⟩ := ite_some_none_eq_some.mp hstep
  split_ifs with hflight
  · exact h.setJob_none k
  · refine h.setJob k fun j' hj' => ?_
    obtain rfl := some.inj hj'
    have hinHand := h.inHand k j hj
    refine ⟨hinHand.entry, hinHand.version, fun _ w hw hkey => ?_, fun hphase => by cases hphase⟩
    -- no write of the key is in progress
    refine .inr (.inr ?_)
    by_contra hended
    exact hflight (List.any_eq_true.mpr ⟨w, hw, by simp [hkey, hended]⟩)

theorem Inv.check [DecidableEq T] (h : Inv maxRetries s) (hstep : s.check k = some t) :
    Inv maxRetries t := by
  obtain ⟨⟨e, v, phase⟩, hj, hstep⟩ := bind_eq_some_iff.mp hstep
  obtain ⟨hphase, hstep⟩ := ite_none_right_eq_some.mp hstep
  obtain rfl : phase = .looked := hphase
  obtain rfl := some.inj hstep
  have hinHand := h.inHand k _ hj
  refine h.setJob k fun j' hj' => ?_
  obtain rfl := some.inj hj'
  refine ⟨hinHand.entry, hinHand.version, fun heq => ?_, fun hphase => ?_⟩
  · have hquiet : s.Quiet k := hinHand.fit heq
    dsimp only
    split_ifs with hwants
    · rcases hkind : e.kind with text | _
      · exact ⟨hquiet, by rw [← hwants, hkind]; rfl⟩
      · trivial
    · exact hquiet
  · dsimp only at hphase
    split_ifs at hphase
    rcases hkind : e.kind with text | _ <;> rw [hkind] at hphase <;> cases hphase

theorem Inv.leave (h : Inv maxRetries s) (hstep : s.leave k = some t) : Inv maxRetries t := by
  obtain ⟨j, hj, hstep⟩ := bind_eq_some_iff.mp hstep
  obtain rfl := some.inj hstep
  exact h.setJob_none k

theorem Inv.rewrite [DecidableEq T] (h : Inv maxRetries s) (hstep : s.rewrite k = some t) :
    Inv maxRetries t := by
  obtain ⟨j, hj, hstep⟩ := bind_eq_some_iff.mp hstep
  split at hstep
  · obtain rfl := some.inj hstep
    split_ifs
    · exact (h.setJob_none k).putEntry k (.inl rfl)
    · exact h.setJob_none k
  · cases hstep

theorem Inv.upsertVectors (h : Inv maxRetries s) (hstep : s.upsertVectors k = some t) :
    Inv maxRetries t := by
  obtain ⟨⟨e, v, phase⟩, hj, hstep⟩ := bind_eq_some_iff.mp hstep
  cases phase with
  | embedding text =>
    obtain rfl := some.inj hstep
    have hinHand := h.inHand k _ hj
    refine h.setVectors hj _ fun j' hj' => ?_
    obtain rfl := some.inj hj'
    refine ⟨hinHand.entry, hinHand.version, fun heq => ?_, fun hphase => by cases hphase⟩
    obtain ⟨hquiet, hdoc⟩ : s.Quiet k ∧ s.docs.lookup k = some text := hinHand.fit heq
    refine ⟨hquiet, ?_⟩
    rw [State.vectors_setVectors]
    exact (congrArg Vectors.holding hdoc).symm
  | _ => cases hstep

theorem Inv.clearVectors [DecidableEq T] (h : Inv maxRetries s) (hstep : s.clearVectors k = some t)
    : Inv maxRetries t := by
  obtain ⟨j, hj, hstep⟩ := bind_eq_some_iff.mp hstep
  obtain ⟨-, rfl⟩ := ite_some_none_eq_some.mp hstep
  have hinHand := h.inHand k j hj
  refine h.setVectors hj _ fun j' hj' => ?_
  obtain rfl := some.inj hj'
  exact ⟨hinHand.entry, hinHand.version, fun _ => trivial, fun _ => State.vectors_setVectors ..⟩

theorem Inv.complete [DecidableEq T] (h : Inv maxRetries s) (hsafe : s.completesRightly k = true)
    (hstep : s.complete k = some t) : Inv maxRetries t := by
  obtain ⟨⟨e, v, phase⟩, hj, hstep⟩ := bind_eq_some_iff.mp hstep
  have hinHand := h.inHand k _ hj
  simp only [State.completesRightly, hj] at hsafe
  -- what `completeEntry` does
  have hcompleted : ∀ kind, ((s.queue.lookup k).map QueueEntry.kind = some kind →
      s.Settled k) → Inv maxRetries ((s.completeEntry k kind).setJob k none) := by
    intro kind hkey
    rw [State.completeEntry]
    split_ifs with hkind
    · exact (h.setJob_none k).removeQueueEntry (State.job_setJob ..) (.inl (hkey hkind))
    · exact h.setJob_none k
  cases phase with
  | written =>
    dsimp only at hstep
    split_ifs at hstep
    · obtain rfl := some.inj hstep
      refine h.setJob k fun j' hj' => ?_
      obtain rfl := some.inj hj'
      exact ⟨hinHand.entry, hinHand.version, fun _ => trivial, fun hphase => by cases hphase⟩
    · obtain rfl := some.inj hstep
      refine hcompleted _ fun hkind => ?_
      obtain ⟨hquiet, hvectors⟩ := hinHand.fit (of_decide_eq_true hsafe hkind)
      exact ⟨by simp [hquiet.pendingTexts], .inl hvectors⟩
  | deleted =>
    obtain rfl := some.inj hstep
    refine hcompleted _ fun hkind => ?_
    obtain ⟨hnone, hgone⟩ := of_decide_eq_true hsafe hkind
    have habsent : s.vectors k = .absent := hinHand.deleted rfl
    refine ⟨fun text htext => ?_, hgone.imp_left fun hdoc => ?_⟩
    · rw [hnone text htext]
      exact habsent
    · rw [hdoc]
      exact habsent
  | _ => cases hstep

/-- The worker tears the vectors of a key and lets go of it. -/
theorem Inv.tearVectors [DecidableEq T] (h : Inv maxRetries s) {j : Job T} (hj : s.job k = some j)
    (deleting : Bool) : Inv maxRetries ((s.tearVectors k deleting).setJob k none) := by
  rw [State.tearVectors]
  split_ifs
  · exact h.setJob_none k
  · exact h.setVectors hj .torn fun _ hnone => by cases hnone

theorem Inv.fail [DecidableEq T] (h : Inv maxRetries s) (hstep : s.fail k torn = some t) :
    Inv maxRetries t := by
  obtain ⟨⟨e, v, phase⟩, hj, hstep⟩ := bind_eq_some_iff.mp hstep
  obtain rfl := some.inj hstep
  -- whatever is left of the vectors, the key has its entry
  have hcounted : ∀ u : State K T, Inv maxRetries (u.setJob k none) →
      Inv maxRetries (((u.setJob k none).queue.lookup k).elim (u.setJob k none) fun e' =>
        if e'.kind = e.kind then
          (u.setJob k none).putEntry k { e' with retryCount := e'.retryCount + 1 }
        else u.setJob k none) := by
    intro u hu
    rcases (u.setJob k none).queue.lookup k with _ | e'
    · exact hu
    · rw [elim_some]
      split_ifs
      · exact hu.putEntry k (.inr (State.job_setJob ..))
      · exact hu
  refine hcounted _ ?_
  cases phase <;> dsimp only
  case embedding => split_ifs; exacts [h.tearVectors hj false, h.setJob_none k]
  case clearing => split_ifs; exacts [h.tearVectors hj true, h.setJob_none k]
  all_goals exact h.setJob_none k

/-! ### The reindex's steps -/

/-- **The reindex gets on.** It does not pass by a key that has text and no entry, and its page is
part of what it was. -/
theorem Inv.setReindex (h : Inv maxRetries s) {r : Reindex K T} {newer : Bool}
    (hnewer : newer = false)
    (howes : ∀ k, (s.docs.lookup k).isSome = true → s.reindex.owes k = true →
      (s.queue.lookup k).isSome = true ∨ r.owes k = true)
    (hpage : ∀ position page, r = .clearing position page → ∀ x ∈ page,
      x.2 ≤ s.version x.1 ∧
        (s.version x.1 = x.2 → ∃ e, s.queue.lookup x.1 = some e ∧ maxRetries ≤ e.retryCount)) :
    Inv maxRetries { s with reindex := r, overtaken := newer } where
  covered k := by
    rcases h.covered k with hqueue | hsettled | ⟨hdoc, hreindex, hall⟩
    · exact .inl hqueue
    · exact .inr (.inl hsettled)
    · exact (howes k hdoc hreindex).imp_right fun howes => .inr ⟨hdoc, howes, hall⟩
  inHand k j hj := (h.inHand k j hj).frame rfl rfl (fun hquiet => ⟨hquiet, rfl, rfl⟩) id
  page := hpage
  overtaken := hnewer

theorem Inv.startReindex [DecidableEq T] (h : Inv maxRetries s)
    (hstep : s.startReindex = some t) : Inv maxRetries t := by
  obtain ⟨-, rfl⟩ := ite_some_none_eq_some.mp hstep
  refine h.setReindex h.overtaken (fun _ _ _ => .inr rfl) fun position page hpage x hx => ?_
  obtain ⟨-, rfl⟩ := Reindex.clearing.inj hpage
  cases hx

theorem Inv.readQueuePage (h : Inv maxRetries s) {next : Option K}
    (hstep : s.readQueuePage maxRetries next = some t) : Inv maxRetries t := by
  rw [State.readQueuePage] at hstep
  split at hstep
  · split_ifs at hstep
    obtain rfl := some.inj hstep
    refine h.setReindex h.overtaken (fun _ _ _ => .inr rfl) fun position page hpage x hx => ?_
    obtain ⟨-, rfl⟩ := Reindex.clearing.inj hpage
    obtain ⟨e, hentry, hx⟩ := List.mem_filterMap.mp hx
    obtain ⟨⟨-, -, hexhausted⟩, rfl⟩ := ite_some_none_eq_some.mp hx
    exact ⟨le_rfl, fun _ => ⟨e.2, AList.mem_lookup_iff.mpr hentry, hexhausted⟩⟩
  · cases hstep

theorem Inv.removeExhausted [DecidableEq T] (h : Inv maxRetries s)
    (hsafe : s.removesRightly = true) (hstep : s.removeExhausted = some t) :
    Inv maxRetries t := by
  rw [State.removeExhausted] at hstep
  split at hstep
  · rename_i position k page hreindex
    obtain rfl := some.inj hstep
    simp only [State.removesRightly, hreindex, Bool.or_eq_true, Bool.and_eq_true,
      decide_eq_true_eq] at hsafe
    have hread := h.page _ _ hreindex
    -- the entry is not the worker's, and its key does without it
    have hkey : s.job k.1 = none ∧ (s.Settled k.1 ∨ s.Owed k.1) := by
      refine ⟨eq_none_iff_forall_ne_some.mpr fun j hj => ?_, ?_⟩
      · obtain ⟨e, hlookup, hlt⟩ := (h.inHand k.1 j hj).entry
        rcases hsafe with hnone | ⟨hversion, -⟩
        · rw [hlookup] at hnone
          cases hnone
        · obtain ⟨e', hlookup', hle⟩ := (hread k (List.mem_cons_self ..)).2 hversion
          obtain rfl := some.inj (hlookup.symm.trans hlookup')
          omega
      · rcases hsafe with hnone | ⟨-, hkey⟩
        · refine (h.covered k.1).resolve_left fun hsome => ?_
          rw [isNone_iff_eq_none] at hnone
          rw [hnone] at hsome
          cases hsome
        · exact hkey
    have hremoved := h.removeQueueEntry hkey.1 hkey.2
    refine hremoved.setReindex ?_ (fun _ _ _ => .inr rfl) fun position' page' hpage x hx => ?_
    · rw [h.overtaken, Bool.false_or, Bool.and_eq_false_iff]
      rcases hsafe with hnone | ⟨hversion, -⟩
      · left
        rw [isNone_iff_eq_none] at hnone
        rw [hnone]
        rfl
      · right
        exact decide_eq_false fun hne => hne hversion
    · obtain ⟨rfl, rfl⟩ := Reindex.clearing.inj hpage
      exact hremoved.page position (k :: page) hreindex x (List.mem_cons_of_mem _ hx)
  · cases hstep

theorem Inv.startDocs [DecidableEq T] (h : Inv maxRetries s) (hstep : s.startDocs = some t) :
    Inv maxRetries t := by
  obtain ⟨-, rfl⟩ := ite_some_none_eq_some.mp hstep
  exact h.setReindex h.overtaken (fun _ _ _ => .inr rfl) fun position page hpage => by cases hpage

theorem Inv.readDocPage (h : Inv maxRetries s) {next : Option K}
    (hstep : s.readDocPage next = some t) : Inv maxRetries t := by
  rw [State.readDocPage] at hstep
  split at hstep
  · rename_i position hreindex
    split_ifs at hstep
    obtain rfl := some.inj hstep
    refine h.setReindex h.overtaken (fun k hdoc howes => .inr ?_) fun _ _ hpage => by cases hpage
    have hahead : position.ahead k = true := by simpa [hreindex, Reindex.owes] using howes
    rw [Reindex.owes, Bool.or_eq_true]
    by_cases hnext : (Position.next next).ahead k = true
    · exact .inl hnext
    · -- the key's text is on the page
      obtain ⟨text, hlookup⟩ := isSome_iff_exists.mp hdoc
      refine .inr (List.any_eq_true.mpr ⟨(k, text), List.mem_filterMap.mpr
        ⟨⟨k, text⟩, AList.mem_lookup_iff.mp hlookup, if_pos ⟨hahead, hnext⟩⟩, ?_⟩)
      exact decide_eq_true rfl
  · cases hstep

theorem Inv.enqueueDoc (h : Inv maxRetries s) (hstep : s.enqueueDoc = some t) :
    Inv maxRetries t := by
  rw [State.enqueueDoc] at hstep
  split at hstep
  · rename_i position x page hreindex
    obtain rfl := some.inj hstep
    have hput : Inv maxRetries (s.putEntry x.1 ⟨.embed x.2, 0⟩) := h.putEntry x.1 (.inl rfl)
    refine hput.setReindex h.overtaken (fun k _ howes => ?_) fun _ _ hpage => by cases hpage
    have howes : position.ahead k = true ∨ x.1 = k ∨ ∃ y ∈ page, y.1 = k := by
      have howes : s.reindex.owes k = true := howes
      simpa [hreindex, Reindex.owes] using howes
    rcases howes with hahead | rfl | ⟨y, hy, rfl⟩
    · exact .inr (by simp [Reindex.owes, hahead])
    · left
      rw [State.lookup_putEntry, if_pos rfl]
      rfl
    · exact .inr (by
        rw [Reindex.owes, Bool.or_eq_true]
        exact .inr (List.any_eq_true.mpr ⟨y, hy, decide_eq_true rfl⟩))
  · cases hstep

theorem Inv.finishReindex [DecidableEq T] (h : Inv maxRetries s)
    (hstep : s.finishReindex = some t) : Inv maxRetries t := by
  obtain ⟨hreindex, rfl⟩ := ite_some_none_eq_some.mp hstep
  refine h.setReindex h.overtaken (fun k _ howes => ?_) fun _ _ hpage => by cases hpage
  rw [hreindex] at howes
  cases howes

theorem Inv.failReindex (h : Inv maxRetries s) (hstep : s.failReindex = some t) :
    Inv maxRetries t := by
  obtain rfl := some.inj hstep
  exact h.setReindex h.overtaken (fun _ _ _ => .inr rfl) fun _ _ hpage => by cases hpage

/-! ### Runs -/

theorem Inv.step [DecidableEq T] (h : Inv maxRetries s) {a : Act K T} (hsafe : safe s a = true)
    (hstep : step maxRetries s a = some t) : Inv maxRetries t := by
  cases a with
  | beginWrite k op =>
    obtain rfl := some.inj hstep
    exact h.beginWrite k op
  | readQueue i => exact h.readQueue hstep
  | readVectors i => exact h.readVectors hstep
  | queueWrite i => exact h.queueWrite hstep
  | deleteVector i => exact h.deleteVector hstep
  | store i => exact h.store hstep
  | finish i => exact h.finish hstep
  | abort i torn => exact h.abort hsafe hstep
  | take k => exact h.take hstep
  | look k => exact h.look hstep
  | check k => exact h.check hstep
  | rewrite k => exact h.rewrite hstep
  | upsertVectors k => exact h.upsertVectors hstep
  | clearVectors k => exact h.clearVectors hstep
  | complete k => exact h.complete hsafe hstep
  | fail k torn => exact h.fail hstep
  | leave k => exact h.leave hstep
  | startReindex => exact h.startReindex hstep
  | readQueuePage next => exact h.readQueuePage hstep
  | removeExhausted => exact h.removeExhausted hsafe hstep
  | startDocs => exact h.startDocs hstep
  | readDocPage next => exact h.readDocPage hstep
  | enqueueDoc => exact h.enqueueDoc hstep
  | finishReindex => exact h.finishReindex hstep
  | failReindex => exact h.failReindex hstep

/-- **A bulk reindex loses no pending work**, in a run without the steps that go wrong: it removes
no entry that was written since, and once it is done, the queue has drained and no write is in
progress, the vectors of every key are those of its text. -/
theorem pending_work_kept [DecidableEq T] (h : Start s) {as : List (Act K T)}
    (hsafe : along (BulkReindex.step maxRetries) safe s as = true)
    (hrun : run (BulkReindex.step maxRetries) s as = some t) :
    t.overtaken = false ∧
      (t.reindex = .done → (∀ k, t.queue.lookup k = none) → (∀ w ∈ t.writes, w.phase = .ended) →
        ∀ k, t.vectors k = .holding (t.docs.lookup k)) := by
  have hinv : Inv maxRetries t :=
    invariant_along (fun _ _ _ hs ha hstep => hs.step ha hstep) h.inv hsafe hrun
  refine ⟨hinv.overtaken, fun hdone hqueue hended k => ?_⟩
  have hpending : t.pendingTexts k = [] :=
    State.Quiet.pendingTexts fun w hw _ => .inr (.inr (hended w hw))
  rcases hinv.covered k with hsome | ⟨-, hsettled⟩ | ⟨-, howes, -⟩
  · rw [hqueue k] at hsome
    cases hsome
  · exact hsettled.resolve_right fun hne => hne hpending
  · rw [hdone] at howes
    cases howes

end StepLemmas

/-! ### Two runs -/

section Examples

/-- One document, which was never embedded. -/
def oneDoc : State ℕ ℕ :=
  { docs := AList.singleton 1 10, queue := ∅, vectors := fun _ => .absent, version := fun _ => 0,
    writes := [], job := fun _ => none, reindex := .idle, overtaken := false }

theorem oneDoc_start : Start oneDoc := ⟨rfl, rfl, fun _ => rfl, rfl, rfl, fun _ _ => rfl⟩

/-- Document 2 is put and its embed is exhausted; a reindex removes the entry and queues both
documents, and the worker embeds them. -/
def reindexed : List (Act ℕ ℕ) :=
  [.beginWrite 2 (.put (some 20)), .queueWrite 0, .store 0, .finish 0,
    .take 2, .look 2, .check 2, .fail 2 false,
    .startReindex, .readQueuePage none, .removeExhausted, .startDocs, .readDocPage none,
    .enqueueDoc, .enqueueDoc, .finishReindex,
    .take 1, .look 1, .check 1, .upsertVectors 1, .complete 1,
    .take 2, .look 2, .check 2, .upsertVectors 2, .complete 2]

theorem pending_work_kept_reindexed :
    ∃ t, run (step 1) oneDoc reindexed = some t ∧ t.reindex = .done ∧ t.queue = ∅ ∧
      t.vectors 1 = .of 10 ∧ t.vectors 2 = .of 20 ∧ t.overtaken = false := by
  have hrun : run (step 1) oneDoc reindexed
      = some ((run (step 1) oneDoc reindexed).get (by decide +kernel)) := (Option.some_get _).symm
  obtain ⟨hovertaken, hvectors⟩ := pending_work_kept oneDoc_start
    (by decide +kernel) hrun
  have hqueue : ((run (step 1) oneDoc reindexed).get (by decide +kernel)).queue = ∅ :=
    AList.ext (by decide +kernel)
  have hall := hvectors (by decide +kernel) (by rw [hqueue]; exact fun _ => rfl)
    (by decide +kernel)
  refine ⟨_, hrun, by decide +kernel, hqueue, ?_, ?_, hovertaken⟩
  · rw [hall 1]
    decide +kernel
  · rw [hall 2]
    decide +kernel

/-- The tombstone of key 2 is exhausted, and a reindex has read it. Then document 2 is put, and the
reindex removes the put's entry and goes through the documents before the put has stored its own. -/
def overtaking : List (Act ℕ ℕ) :=
  [.beginWrite 2 .delete, .queueWrite 0, .deleteVector 0, .store 0, .finish 0,
    .take 2, .look 2, .check 2, .fail 2 false,
    .startReindex, .readQueuePage none, .beginWrite 2 (.put (some 20)), .queueWrite 1,
    .removeExhausted, .startDocs, .readDocPage none, .enqueueDoc, .finishReindex,
    .store 1, .finish 1,
    .take 1, .look 1, .check 1, .upsertVectors 1, .complete 1]

/-- **A put's entry is removed** by a reindex that read the tombstone it replaces, and its document
never gets its vectors. -/
theorem reindex_overtakes_put :
    ∃ t, run (step 1) oneDoc overtaking = some t ∧ t.overtaken = true ∧ t.reindex = .done ∧
      t.queue = ∅ ∧ (∀ w ∈ t.writes, w.phase = .ended) ∧ t.docs.lookup 2 = some 20 ∧
      t.vectors 2 = .absent :=
  ⟨(run (step 1) oneDoc overtaking).get (by decide +kernel), (Option.some_get _).symm,
    by decide +kernel, by decide +kernel, AList.ext (by decide +kernel), by decide +kernel,
    by decide +kernel, by decide +kernel⟩

end Examples

end BulkReindex

end Minnal
