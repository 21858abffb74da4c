import Mathlib.Data.List.Nodup
import Mathlib.Data.Nat.Basic
import Mathlib.Order.Basic
import Minnal.Library.StepRun

/-!
# Writers of one key take turns

Every write to a key holds the key's **stripe**, the outermost lock, from before its sequence is
allocated until it is applied: puts and deletes with and without the WAL, merges, and the deletes
of the TTL worker. The steps below are those between which another thread can run. Inside the
stripe, a logged write takes the WAL lock for its sequence and its append, waits for the commit,
and is applied under the lock of its value-log bucket. The TTL worker picks a record **outside**
the stripe and, inside it, compares the key's record with the one it picked before it allocates
a sequence.

The store keeps of each key the copy with the highest sequence, over its memtable and what lies
below. A memtable may be sealed at any time; sealing leaves out the empty key, which the skip
list reserves for its head.

The order in which operations took their stripes is a **serial order** (`serial`): what a key
holds is what these operations leave when they are run one after another, and each of them acts
on what its predecessor left.
-/

set_option linter.dupNamespace false

namespace Minnal

namespace SerialWrites

open Function
open List (mem_append mem_map mem_singleton mem_append_left map_append append_nil nodup_nil)

/-- An operation is named by the thread that runs it. -/
abbrev Tid := ℕ

/-- A namespace and a key in it. -/
abbrev NsKey := ℕ × List UInt8

variable {ν : Type}

/-! ### Operations -/

/-- The write paths; the epoch is the time a put stores with its value. -/
inductive Op (ν : Type) where
  | putNs (key : NsKey) (value : ν) (epoch : ℕ)
  | putNsNoWal (key : NsKey) (value : ν) (epoch : ℕ)
  | deleteNs (key : NsKey)
  | deleteNsNoWal (key : NsKey)
  | mergeNs (key : NsKey) (mergeFn : Option ν → Except Unit (Option ν)) (epoch : ℕ)
  | mergeNsNoWal (key : NsKey) (mergeFn : Option ν → Except Unit (Option ν)) (epoch : ℕ)
  /-- The TTL worker at one key: which epochs are expired now. -/
  | expireRecord (key : NsKey) (expired : ℕ → Bool)

/-- What a key holds: the value and the operation that wrote it. -/
abbrev Held (ν : Type) := Option (Tid × ν)

/-- What a merge does with the result of its function: nothing on an error, and nothing for a
key that was absent and stays so. -/
def mergeResolve (mergeFn : Option ν → Except Unit (Option ν)) (existing : Option ν) :
    Option (Option ν) :=
  match mergeFn existing with
  | .error _ => none
  | .ok (some value) => some (some value)
  | .ok none => if existing.isSome then some none else none

namespace Op

def key : Op ν → NsKey
  | .putNs key _ _ | .putNsNoWal key _ _ | .deleteNs key | .deleteNsNoWal key
  | .mergeNs key _ _ | .mergeNsNoWal key _ _ | .expireRecord key _ => key

/-- Whether the write goes through the WAL. -/
def logged : Op ν → Bool
  | .putNs .. | .deleteNs .. | .mergeNs .. => true
  | .putNsNoWal .. | .deleteNsNoWal .. | .mergeNsNoWal .. | .expireRecord .. => false

def epoch : Op ν → ℕ
  | .putNs _ _ epoch | .putNsNoWal _ _ epoch | .mergeNs _ _ epoch | .mergeNsNoWal _ _ epoch => epoch
  | .deleteNs _ | .deleteNsNoWal _ | .expireRecord _ _ => 0

/-- Whether the operation reads the key before it decides what to write. -/
def merges : Op ν → Bool
  | .mergeNs .. | .mergeNsNoWal .. => true
  | _ => false

/-- What the operation writes (none: a delete), if it writes; `found` is the writer of the
record an expiry picked. -/
def resolve (op : Op ν) (found : Option Tid) (prev : Held ν) : Option (Option ν) :=
  match op with
  | .putNs _ value _ | .putNsNoWal _ value _ => some (some value)
  | .deleteNs _ | .deleteNsNoWal _ => some none
  | .mergeNs _ mergeFn _ | .mergeNsNoWal _ mergeFn _ => mergeResolve mergeFn (prev.map Prod.snd)
  | .expireRecord _ _ => if prev.isSome ∧ prev.map Prod.fst = found then some none else none

end Op

/-! ### The serial order -/

/-- An operation's turn at its key. -/
structure Turn where
  tid : Tid
  /-- The writer of the record an expiry picked. -/
  found : Option Tid

variable (prog : Tid → Op ν)

/-- What a turn leaves. -/
def Turn.run (t : Turn) (prev : Held ν) : Held ν :=
  match (prog t.tid).resolve t.found prev with
  | none => prev
  | some v => v.map fun x => (t.tid, x)

/-- Run the turns one after another: what a key holds then. -/
def serial (turns : List Turn) (k : NsKey) : Held ν :=
  turns.foldl (fun h t => if (prog t.tid).key = k then t.run prog h else h) none

/-! ### The store and its threads -/

/-- A record in the value log. Records do not change, so what a pointer names is kept with it. -/
structure Located (ν : Type) where
  pointer : ℕ
  writer : Tid
  value : ν
  epoch : ℕ

/-- A copy of a key in the LSM tree; without a record it is a tombstone. -/
structure Version (ν : Type) where
  seq : ℕ
  live : Option (Located ν)

/-- The copy with the higher sequence, on a tie that of the newer layer. -/
def newer (upper lower : Option (Version ν)) : Option (Version ν) :=
  match upper, lower with
  | some u, some l => if u.seq < l.seq then some l else some u
  | some u, none => some u
  | none, l => l

structure WalEntry (ν : Type) where
  tid : Tid
  key : NsKey
  seq : ℕ
  value : Option ν

/-- Where a thread stands. -/
inductive Pc (ν : Type) where
  | idle
  /-- An expiry picked this record. -/
  | judged (r : Located ν)
  /-- The stripe is held from here. -/
  | holding (picked : Option (Located ν))
  | writing (v : Option ν)
  /-- The WAL lock is held. -/
  | logging (v : Option ν)
  | allocated (v : Option ν) (seq : ℕ)
  /-- Appended, the WAL lock is free again. -/
  | appended (v : Option ν) (seq : ℕ)
  | numbered (v : Option ν) (seq : ℕ)
  /-- An expiry found its record in place; the bucket is locked. -/
  | compared
  | finished
  | done

structure State (ν : Type) where
  pc : Tid → Pc ν
  stripes : ℕ → Option Tid
  walLock : Option Tid
  buckets : ℕ → Option Tid
  nextSeq : ℕ
  nextPointer : ℕ
  wal : List (WalEntry ν)
  memtable : NsKey → Option (Version ν)
  lower : NsKey → Option (Version ν)
  /-- The turns so far, in the order the stripes were taken. -/
  turns : List Turn
  /-- The records appended so far. -/
  records : List (Located ν)
  /-- What the merges were given. -/
  saw : List (Tid × Option ν)
  /-- The sequences allocated so far. -/
  taken : List (Tid × ℕ)
  /-- The writes applied so far. -/
  applied : List (NsKey × ℕ)

namespace State

def init : State ν where
  pc _ := .idle
  stripes _ := none
  walLock := none
  buckets _ := none
  nextSeq := 1
  nextPointer := 0
  wal := []
  memtable _ := none
  lower _ := none
  turns := []
  records := []
  saw := []
  taken := []
  applied := []

variable (s : State ν)

/-- The LSM tree's copy of a key. -/
def winner (k : NsKey) : Option (Version ν) := newer (s.memtable k) (s.lower k)

/-- The record a key points at. -/
def live (k : NsKey) : Option (Located ν) := (s.winner k).bind Version.live

def held (k : NsKey) : Held ν := (s.live k).map fun r => (r.writer, r.value)

def get (k : NsKey) : Option ν := (s.live k).map Located.value

def goto (i : Tid) (pc : Pc ν) : State ν := { s with pc := Function.update s.pc i pc }

/-- Allocate a sequence. -/
def alloc (i : Tid) : State ν :=
  { s with nextSeq := s.nextSeq + 1, taken := s.taken ++ [(i, s.nextSeq)] }

/-- Seal a namespace's memtable; the sealed memtable has no empty key. -/
def sealMemtable (ns : ℕ) : State ν :=
  { s with
    memtable := fun k => if k.1 = ns then none else s.memtable k
    lower := fun k => if k.1 = ns ∧ k.2 ≠ [] then newer (s.memtable k) (s.lower k) else s.lower k }

/-- Insert a copy into the memtable, unless that has a newer one. -/
def insertWithSeq (k : NsKey) (v : Version ν) : State ν :=
  { s with memtable := Function.update s.memtable k (newer (some v) (s.memtable k)) }

end State

/-- The locks: the stripe and the bucket of a key. -/
structure Locks where
  stripeOf : NsKey → ℕ
  bucketOf : NsKey → ℕ

variable (l : Locks)

/-- Take the stripe of an operation's key, for its turn. -/
def acquire (s : State ν) (i : Tid) (picked : Option (Located ν)) : Option (State ν) :=
  let stripe := l.stripeOf (prog i).key
  if (s.stripes stripe).isSome then none
  else some ({ s with
    stripes := Function.update s.stripes stripe (some i)
    turns := s.turns ++ [(⟨i, picked.map Located.writer⟩ : Turn)] }.goto i (.holding picked))

/-- Apply a write under the bucket's lock: append the record, insert its pointer. -/
def applyWrite (s : State ν) (i : Tid) (v : Option ν) (seq : ℕ) : State ν :=
  let k := (prog i).key
  let record := v.map fun x => (⟨s.nextPointer, i, x, (prog i).epoch⟩ : Located ν)
  ({ s with
    nextPointer := s.nextPointer + 1
    records := s.records ++ record.toList
    buckets := Function.update s.buckets (l.bucketOf k) none
    applied := s.applied ++ [(k, seq)] }.insertWithSeq k ⟨seq, record⟩).goto i .finished

/-- What a run does next: a thread's next step, or a seal. -/
inductive Act where
  | thread (i : Tid)
  | sealMemtable (ns : ℕ)

/-- The next step of a thread, unless it waits for a lock. -/
def threadStep (s : State ν) (i : Tid) : Option (State ν) :=
  let op := prog i
  let k := op.key
  let bucket := l.bucketOf k
  match s.pc i with
  | .idle =>
    match op with
    | .expireRecord _ expired =>
      match s.live k with
      | none => some (s.goto i .done)
      | some r => some (s.goto i (if expired r.epoch then .judged r else .done))
    | _ => acquire prog l s i none
  | .judged r => acquire prog l s i (some r)
  | .holding (some picked) =>
    if (s.buckets bucket).isSome then none
    else if (s.live k).map Located.pointer = some picked.pointer then
      some ({ s with buckets := Function.update s.buckets bucket (some i) }.goto i .compared)
    else some (s.goto i .finished)
  | .holding none =>
    -- a merge reads the key here; a put or delete does not ask what is there
    let s := if op.merges then { s with saw := s.saw ++ [(i, s.get k)] } else s
    match op.resolve none (s.held k) with
    | none => some (s.goto i .finished)
    | some v => some (s.goto i (.writing v))
  | .writing v =>
    if op.logged then
      if s.walLock.isSome then none else some ({ s with walLock := some i }.goto i (.logging v))
    else some ((s.alloc i).goto i (.numbered v s.nextSeq))
  | .logging v => some ((s.alloc i).goto i (.allocated v s.nextSeq))
  | .allocated v seq =>
    some ({ s with walLock := none, wal := s.wal ++ [(⟨i, k, seq, v⟩ : WalEntry ν)] }.goto
      i (.appended v seq))
  -- a commit covers the entry
  | .appended v seq => some (s.goto i (.numbered v seq))
  | .compared => some ((s.alloc i).goto i (.numbered none s.nextSeq))
  | .numbered v seq =>
    if s.buckets bucket = none ∨ s.buckets bucket = some i then some (applyWrite prog l s i v seq)
    else none
  | .finished =>
    some ({ s with stripes := Function.update s.stripes (l.stripeOf k) none }.goto i .done)
  | .done => none

def step (s : State ν) : Act → Option (State ν)
  | .thread i => threadStep prog l s i
  | .sealMemtable ns => some (s.sealMemtable ns)

/-! ### What a step can do -/

namespace Pc

/-- The thread holds its stripe. -/
def inStripe : Pc ν → Bool
  | .idle | .judged _ | .done => false
  | _ => true

/-- The thread has not had its turn. -/
def waits : Pc ν → Bool
  | .idle | .judged _ => true
  | _ => false

/-- The sequence allocated for a write that is not applied. -/
def seq : Pc ν → Option ℕ
  | .allocated _ n | .appended _ n | .numbered _ n => some n
  | _ => none

end Pc

/-- What a thread does inside its stripe short of applying its write: the state it leaves, and
where it stands then. -/
inductive Work (s : State ν) (i : Tid) : Pc ν → State ν → Pc ν → Prop
  | missed {r : Located ν} (h : (s.live (prog i).key).map Located.pointer ≠ some r.pointer) :
    Work s i (.holding (some r)) s .finished
  | matched {r : Located ν} (h : (s.live (prog i).key).map Located.pointer = some r.pointer) :
    Work s i (.holding (some r))
      { s with buckets := Function.update s.buckets (l.bucketOf (prog i).key) (some i) } .compared
  | silent {saw : List (Tid × Option ν)} (h : (prog i).resolve none (s.held (prog i).key) = none)
    (hsaw : saw = s.saw ∨ saw = s.saw ++ [(i, s.get (prog i).key)]) :
    Work s i (.holding none) { s with saw := saw } .finished
  | decided {saw : List (Tid × Option ν)} {v : Option ν}
    (h : (prog i).resolve none (s.held (prog i).key) = some v)
    (hsaw : saw = s.saw ∨ saw = s.saw ++ [(i, s.get (prog i).key)]) :
    Work s i (.holding none) { s with saw := saw } (.writing v)
  | lockWal {v : Option ν} : Work s i (.writing v) { s with walLock := some i } (.logging v)
  | number {v : Option ν} : Work s i (.writing v) (s.alloc i) (.numbered v s.nextSeq)
  | allocate {v : Option ν} : Work s i (.logging v) (s.alloc i) (.allocated v s.nextSeq)
  | append {v : Option ν} {n : ℕ} : Work s i (.allocated v n)
      { s with walLock := none, wal := s.wal ++ [⟨i, (prog i).key, n, v⟩] } (.appended v n)
  | commit {v : Option ν} {n : ℕ} : Work s i (.appended v n) s (.numbered v n)
  | expire : Work s i .compared (s.alloc i) (.numbered none s.nextSeq)

/-- What a step can do. -/
inductive Move (s : State ν) (i : Tid) : State ν → Prop
  | leave (h : s.pc i = .idle) : Move s i (s.goto i .done)
  | judge {key : NsKey} {expired : ℕ → Bool} {r : Located ν} (h : s.pc i = .idle)
    (hop : prog i = .expireRecord key expired) (hlive : s.live key = some r)
    (hexpired : expired r.epoch = true) : Move s i (s.goto i (.judged r))
  | take {picked : Option (Located ν)} (hfree : s.stripes (l.stripeOf (prog i).key) = none)
    (h : (s.pc i = .idle ∧ picked = none ∧ ∀ key expired, prog i ≠ .expireRecord key expired) ∨
      ∃ r, s.pc i = .judged r ∧ picked = some r) :
    Move s i ({ s with
      stripes := Function.update s.stripes (l.stripeOf (prog i).key) (some i)
      turns := s.turns ++ [(⟨i, picked.map Located.writer⟩ : Turn)] }.goto i (.holding picked))
  | work {s' : State ν} {q : Pc ν} (h : Work prog l s i (s.pc i) s' q) : Move s i (s'.goto i q)
  | applied {v : Option ν} {n : ℕ} (h : s.pc i = .numbered v n) : Move s i (applyWrite prog l s i v n)
  | release (h : s.pc i = .finished) : Move s i
      ({ s with stripes := Function.update s.stripes (l.stripeOf (prog i).key) none }.goto i .done)

variable {prog l} {s t : State ν} {i : Tid}

private theorem acquire_move {picked : Option (Located ν)}
    (h : (s.pc i = .idle ∧ picked = none ∧ ∀ key expired, prog i ≠ .expireRecord key expired) ∨
      ∃ r, s.pc i = .judged r ∧ picked = some r)
    (hstep : acquire prog l s i picked = some t) : Move prog l s i t := by
  rw [acquire] at hstep
  obtain ⟨hfree, heq⟩ := Option.ite_none_left_eq_some.mp hstep
  obtain rfl := Option.some.inj heq
  exact .take (Option.not_isSome_iff_eq_none.mp hfree) h

/-- **One step.** -/
theorem move_of_step (hstep : threadStep prog l s i = some t) : Move prog l s i t := by
  have hwork : ∀ {s' q}, Work prog l s i (s.pc i) s' q → t = s'.goto i q → Move prog l s i t := by
    rintro s' q hw rfl
    exact .work hw
  rw [threadStep] at hstep
  cases hpc : s.pc i with
  | idle =>
    rw [hpc] at hstep
    cases hop : prog i with
    | expireRecord key expired =>
      rw [hop] at hstep
      dsimp only [Op.key] at hstep
      cases hlive : s.live key with
      | none =>
        rw [hlive] at hstep
        obtain rfl := Option.some.inj hstep
        exact .leave hpc
      | some r =>
        rw [hlive] at hstep
        obtain rfl := Option.some.inj hstep
        split_ifs with hexpired
        · exact .judge hpc hop hlive hexpired
        · exact .leave hpc
    | _ =>
      rw [hop] at hstep
      refine acquire_move (Or.inl ⟨hpc, rfl, fun key expired h => ?_⟩) hstep
      rw [hop] at h
      cases h
  | judged r =>
    rw [hpc] at hstep
    exact acquire_move (Or.inr ⟨r, hpc, rfl⟩) hstep
  | holding picked =>
    rw [hpc] at hstep
    cases picked with
    | some r =>
      dsimp only at hstep
      obtain ⟨_, hstep⟩ := Option.ite_none_left_eq_some.mp hstep
      split_ifs at hstep with hlive
      · exact hwork (hpc ▸ .matched hlive) (Option.some.inj hstep).symm
      · exact hwork (hpc ▸ .missed hlive) (Option.some.inj hstep).symm
    | none =>
      dsimp only at hstep
      have hsaw : ∀ b : Bool, (if b then { s with saw := s.saw ++ [(i, s.get (prog i).key)] } else s) =
          { s with saw := if b then s.saw ++ [(i, s.get (prog i).key)] else s.saw } := by
        intro b
        cases b <;> rfl
      have hcases : ∀ b : Bool, (if b then s.saw ++ [(i, s.get (prog i).key)] else s.saw) = s.saw ∨
          (if b then s.saw ++ [(i, s.get (prog i).key)] else s.saw) =
            s.saw ++ [(i, s.get (prog i).key)] := by
        intro b
        cases b
        · exact Or.inl rfl
        · exact Or.inr rfl
      rw [hsaw] at hstep
      have hheld : ∀ saw, State.held { s with saw := saw } (prog i).key = s.held (prog i).key :=
        fun _ => rfl
      rw [hheld] at hstep
      cases hres : (prog i).resolve none (s.held (prog i).key) with
      | none =>
        rw [hres] at hstep
        exact hwork (hpc ▸ .silent hres (hcases _)) (Option.some.inj hstep).symm
      | some v =>
        rw [hres] at hstep
        exact hwork (hpc ▸ .decided hres (hcases _)) (Option.some.inj hstep).symm
  | writing v =>
    rw [hpc] at hstep
    dsimp only at hstep
    split_ifs at hstep
    · exact hwork (hpc ▸ .lockWal) (Option.some.inj hstep).symm
    · exact hwork (hpc ▸ .number) (Option.some.inj hstep).symm
  | logging v =>
    rw [hpc] at hstep
    exact hwork (hpc ▸ .allocate) (Option.some.inj hstep).symm
  | allocated v n =>
    rw [hpc] at hstep
    exact hwork (hpc ▸ .append) (Option.some.inj hstep).symm
  | appended v n =>
    rw [hpc] at hstep
    exact hwork (hpc ▸ .commit) (Option.some.inj hstep).symm
  | numbered v n =>
    rw [hpc] at hstep
    dsimp only at hstep
    obtain ⟨_, rfl⟩ := Option.ite_some_none_eq_some.mp hstep
    exact .applied hpc
  | compared =>
    rw [hpc] at hstep
    exact hwork (hpc ▸ .expire) (Option.some.inj hstep).symm
  | finished =>
    rw [hpc] at hstep
    obtain rfl := Option.some.inj hstep
    exact .release hpc
  | done =>
    rw [hpc] at hstep
    cases hstep

/-! ### The serial order grows -/

theorem serial_append_singleton (ts : List Turn) (u : Turn) (k : NsKey) :
    serial prog (ts ++ [u]) k =
      if (prog u.tid).key = k then u.run prog (serial prog ts k) else serial prog ts k := by
  rw [serial, List.foldl_append]
  rfl

variable {pre post : List Turn} {k : NsKey}

/-- Turns at other keys change nothing. -/
theorem serial_append_other (h : ∀ u ∈ post, (prog u.tid).key ≠ k) :
    serial prog (pre ++ post) k = serial prog pre k := by
  induction post using List.reverseRecOn with
  | nil => rw [append_nil]
  | append_singleton post u ih =>
    rw [← List.append_assoc, serial_append_singleton, if_neg (h u (by simp))]
    exact ih fun w hw => h w (mem_append_left _ hw)

variable {u : Turn}

/-- The last turn at a key decides what the key holds. -/
theorem serial_last (h : ∀ w ∈ post, (prog w.tid).key ≠ (prog u.tid).key) :
    serial prog (pre ++ u :: post) (prog u.tid).key =
      u.run prog (serial prog pre (prog u.tid).key) := by
  rw [List.append_cons, serial_append_other h, serial_append_singleton, if_pos rfl]

/-! ### Turns and locks -/

@[simp] theorem State.pc_goto (s : State ν) (i j : Tid) (q : Pc ν) :
    (s.goto i q).pc j = if j = i then q else s.pc j := by
  rw [State.goto]
  exact update_apply _ _ _ _

/-- How far a turn is: the key holds what the turn before left until the write is applied, and
what is to be written is what the turn writes. -/
def Phase (prog : Tid → Op ν) (u : Turn) (prev now : Held ν) : Pc ν → Prop
  | .holding none => now = prev ∧ u.found = none
  | .holding (some r) => now = prev ∧ u.found = some r.writer
  | .writing v | .logging v | .allocated v _ | .appended v _ | .numbered v _ =>
    now = prev ∧ (prog u.tid).resolve u.found prev = some v
  | .compared => now = prev ∧ (prog u.tid).resolve u.found prev = some none
  | .finished => now = u.run prog prev
  | _ => False

/-- A thread in its stripe has the last turn at its key. -/
def Inflight (prog : Tid → Op ν) (s : State ν) (i : Tid) : Prop :=
  ∃ pre u post, s.turns = pre ++ u :: post ∧ u.tid = i ∧
    (∀ w ∈ post, (prog w.tid).key ≠ (prog i).key) ∧
      ((prog i).key.2 ≠ [] →
        Phase prog u (serial prog pre (prog i).key) (s.held (prog i).key) (s.pc i))

/-- **Turns.** The stripes are held by the threads that are in them, and every key holds what
its turns left. -/
structure Turns (prog : Tid → Op ν) (l : Locks) (s : State ν) : Prop where
  owner : ∀ st i, s.stripes st = some i → (s.pc i).inStripe = true ∧ l.stripeOf (prog i).key = st
  owned : ∀ i, (s.pc i).inStripe = true → s.stripes (l.stripeOf (prog i).key) = some i
  nodup : (s.turns.map Turn.tid).Nodup
  started : ∀ u ∈ s.turns, (s.pc u.tid).waits = false
  quiet : ∀ k : NsKey, k.2 ≠ [] → (∀ i, (s.pc i).inStripe = true → (prog i).key ≠ k) →
    s.held k = serial prog s.turns k
  inflight : ∀ i, (s.pc i).inStripe = true → Inflight prog s i

theorem turns_init (prog : Tid → Op ν) (l : Locks) : Turns prog l State.init where
  owner _ _ h := by cases h
  owned _ h := by cases h
  nodup := nodup_nil
  started _ h := by cases h
  quiet _ _ _ := rfl
  inflight _ h := by cases h

namespace Turns

/-- Two threads in the stripe of one key are one. -/
theorem unique (h : Turns prog l s) {j : Tid} (hi : (s.pc i).inStripe = true)
    (hj : (s.pc j).inStripe = true) (hkey : (prog i).key = (prog j).key) : i = j := by
  have hown := h.owned i hi
  rw [hkey, h.owned j hj] at hown
  exact (Option.some.inj hown).symm

/-- A turn goes on undisturbed while others are added at other keys. -/
theorem inflight_frame {s' : State ν} {j : Tid} {more : List Turn} (h : Inflight prog s j)
    (hturns : s'.turns = s.turns ++ more) (hmore : ∀ w ∈ more, (prog w.tid).key ≠ (prog j).key)
    (hheld : (prog j).key.2 ≠ [] → s'.held (prog j).key = s.held (prog j).key)
    (hpc : s'.pc j = s.pc j) : Inflight prog s' j := by
  obtain ⟨pre, u, post, heq, htid, hpost, hphase⟩ := h
  refine ⟨pre, u, post ++ more, ?_, htid, fun w hw => ?_, fun hne => ?_⟩
  · rw [hturns, heq, List.append_assoc, List.cons_append]
  · exact (mem_append.mp hw).elim (hpost w) (hmore w)
  · rw [hheld hne, hpc]
    exact hphase hne

/-- A thread that has not had its turn looks around or leaves. -/
theorem outside (h : Turns prog l s) {q : Pc ν} (hpc : (s.pc i).waits = true)
    (hq : q.inStripe = false) : Turns prog l (s.goto i q) := by
  have hout : (s.pc i).inStripe = false := by
    cases hi : s.pc i <;> rw [hi] at hpc <;> first | rfl | cases hpc
  have hin : ∀ j, ((s.goto i q).pc j).inStripe = true → j ≠ i ∧ (s.pc j).inStripe = true := by
    intro j hj
    rw [State.pc_goto] at hj
    split_ifs at hj with hji
    · rw [hq] at hj
      cases hj
    · exact ⟨hji, hj⟩
  have hback : ∀ j, (s.pc j).inStripe = true → (s.goto i q).pc j = s.pc j := by
    intro j hj
    rw [State.pc_goto, if_neg]
    rintro rfl
    rw [hout] at hj
    cases hj
  refine ⟨fun st j hst => ?_, fun j hj => h.owned j (hin j hj).2, h.nodup, fun u hu => ?_,
    fun k hk hfree => h.quiet k hk fun j hj => hfree j ((hback j hj).symm ▸ hj), fun j hj => ?_⟩
  · obtain ⟨hj, hstripe⟩ := h.owner st j hst
    exact ⟨(hback j hj).symm ▸ hj, hstripe⟩
  · rw [State.pc_goto, if_neg]
    · exact h.started u hu
    · intro htid
      have hwait := h.started u hu
      rw [htid, hpc] at hwait
      cases hwait
  · exact inflight_frame (h.inflight j (hin j hj).2) (append_nil _).symm
      nofun (fun _ => rfl) (hback j (hin j hj).2)

/-- A thread takes the stripe: its turn is the last. -/
theorem take (h : Turns prog l s) {picked : Option (Located ν)} (hpc : (s.pc i).waits = true)
    (hfree : s.stripes (l.stripeOf (prog i).key) = none) :
    Turns prog l ({ s with
      stripes := update s.stripes (l.stripeOf (prog i).key) (some i)
      turns := s.turns ++ [(⟨i, picked.map Located.writer⟩ : Turn)] }.goto i (.holding picked)) := by
  set s' := State.goto { s with
      stripes := update s.stripes (l.stripeOf (prog i).key) (some i)
      turns := s.turns ++ [(⟨i, picked.map Located.writer⟩ : Turn)] } i (.holding picked) with hs'
  have hpcs : ∀ j, s'.pc j = if j = i then .holding picked else s.pc j := fun j => State.pc_goto _ _ _ _
  have hout : (s.pc i).inStripe = false := by
    cases hi : s.pc i <;> rw [hi] at hpc <;> first | rfl | cases hpc
  -- nobody else is at this key
  have hnobody : ∀ j, (s.pc j).inStripe = true → j ≠ i ∧ (prog j).key ≠ (prog i).key := by
    intro j hj
    refine ⟨?_, fun hkey => ?_⟩
    · rintro rfl
      rw [hout] at hj
      cases hj
    · have hown := h.owned j hj
      rw [hkey, hfree] at hown
      cases hown
  have hback : ∀ j, (s.pc j).inStripe = true → s'.pc j = s.pc j := fun j hj => by
    rw [hpcs, if_neg (hnobody j hj).1]
  have hnew : ∀ u ∈ s.turns, u.tid ≠ i := by
    intro u hu htid
    have hwait := h.started u hu
    rw [htid, hpc] at hwait
    cases hwait
  have hturn : ∀ w ∈ [(⟨i, picked.map Located.writer⟩ : Turn)], w.tid = i := fun w hw => by
    rw [mem_singleton.mp hw]
  refine ⟨fun st j hst => ?_, fun j hj => ?_, ?_, fun u hu => ?_, fun k hk hquiet => ?_, fun j hj => ?_⟩
  · have hst' : update s.stripes (l.stripeOf (prog i).key) (some i) st = some j := hst
    rw [update_apply] at hst'
    split_ifs at hst' with hstripe
    · obtain rfl := Option.some.inj hst'
      rw [hpcs, if_pos rfl]
      exact ⟨rfl, hstripe.symm⟩
    · obtain ⟨hj, hkey⟩ := h.owner st j hst'
      exact ⟨(hback j hj).symm ▸ hj, hkey⟩
  · change update s.stripes (l.stripeOf (prog i).key) (some i) (l.stripeOf (prog j).key) = some j
    rw [hpcs] at hj
    split_ifs at hj with hji
    · rw [hji, update_self]
    · have hown := h.owned j hj
      rw [update_of_ne, hown]
      intro hstripe
      rw [hstripe, hfree] at hown
      cases hown
  · change ((s.turns ++ [_]).map Turn.tid).Nodup
    rw [map_append, List.nodup_append]
    refine ⟨h.nodup, List.nodup_singleton _, ?_⟩
    rintro a ha b hb rfl
    obtain ⟨u, hu, rfl⟩ := mem_map.mp ha
    exact hnew u hu (mem_singleton.mp hb)
  · rw [hpcs]
    split_ifs with hui
    · rfl
    · rcases mem_append.mp hu with hold | hlast
      · exact h.started u hold
      · exact absurd (hturn u hlast) hui
  · have hki : (prog i).key ≠ k := hquiet i (by rw [hpcs, if_pos rfl]; rfl)
    change s.held k = serial prog (s.turns ++ [_]) k
    rw [serial_append_singleton, if_neg hki]
    exact h.quiet k hk fun j hj => hquiet j ((hback j hj).symm ▸ hj)
  · by_cases hji : j = i
    · subst hji
      refine ⟨s.turns, _, [], rfl, rfl, nofun, fun hne => ?_⟩
      rw [hpcs, if_pos rfl]
      have hheld : s'.held (prog j).key = serial prog s.turns (prog j).key :=
        h.quiet _ hne fun m hm => (hnobody m hm).2
      cases picked with
      | none | some r => exact ⟨hheld, rfl⟩
    · rw [hpcs, if_neg hji] at hj
      exact inflight_frame (h.inflight j hj) rfl
        (fun w hw => by rw [hturn w hw]; exact (hnobody j hj).2.symm) (fun _ => rfl) (hback j hj)

/-- A thread leaves the stripe: what the key holds is what its turn left. -/
theorem release (h : Turns prog l s) (hpc : s.pc i = .finished) : Turns prog l
    ({ s with stripes := update s.stripes (l.stripeOf (prog i).key) none }.goto i .done) := by
  set s' := State.goto { s with
      stripes := update s.stripes (l.stripeOf (prog i).key) none } i .done with hs'
  have hpcs : ∀ j, s'.pc j = if j = i then .done else s.pc j := fun j => State.pc_goto _ _ _ _
  have hi : (s.pc i).inStripe = true := by rw [hpc]; rfl
  have hin : ∀ j, (s'.pc j).inStripe = true → j ≠ i ∧ (s.pc j).inStripe = true := by
    intro j hj
    rw [hpcs] at hj
    split_ifs at hj with hji
    · cases hj
    · exact ⟨hji, hj⟩
  refine ⟨fun st j hst => ?_, fun j hj => ?_, h.nodup, fun u hu => ?_, fun k hk hquiet => ?_,
    fun j hj => ?_⟩
  · have hst' : update s.stripes (l.stripeOf (prog i).key) none st = some j := hst
    rw [update_apply] at hst'
    split_ifs at hst' with hstripe
    obtain ⟨hj, hkey⟩ := h.owner st j hst'
    rw [hpcs, if_neg]
    · exact ⟨hj, hkey⟩
    · rintro rfl
      exact hstripe hkey.symm
  · obtain ⟨hji, hj'⟩ := hin j hj
    change update s.stripes (l.stripeOf (prog i).key) none (l.stripeOf (prog j).key) = some j
    have hown := h.owned j hj'
    rw [update_of_ne, hown]
    intro hstripe
    rw [hstripe, h.owned i hi] at hown
    exact hji (Option.some.inj hown).symm
  · rw [hpcs]
    split_ifs
    · rfl
    · exact h.started u hu
  · by_cases hki : (prog i).key = k
    · subst hki
      obtain ⟨pre, u, post, hturns, htid, hpost, hphase⟩ := h.inflight i hi
      have hdone := hphase hk
      rw [hpc] at hdone
      change s.held (prog i).key = serial prog s.turns (prog i).key
      subst htid
      rw [hturns, serial_last hpost]
      exact hdone
    · refine h.quiet k hk fun j hj => ?_
      by_cases hji : j = i
      · rw [hji]
        exact hki
      · exact hquiet j (by rw [hpcs, if_neg hji]; exact hj)
  · obtain ⟨hji, hj'⟩ := hin j hj
    exact inflight_frame (h.inflight j hj') (append_nil _).symm
      nofun (fun _ => rfl) (by rw [hpcs, if_neg hji])

/-- A seal moves copies down; of every key but the empty one the winner stays. -/
theorem winner_sealMemtable (s : State ν) (ns : ℕ) (hk : k.2 ≠ []) :
    (s.sealMemtable ns).winner k = s.winner k := by
  rw [State.winner, State.winner, State.sealMemtable]
  dsimp only
  by_cases hns : k.1 = ns
  · rw [if_pos hns, if_pos ⟨hns, hk⟩]
    rfl
  · rw [if_neg hns, if_neg fun hboth => hns hboth.1]

theorem sealMemtable (h : Turns prog l s) (ns : ℕ) : Turns prog l (s.sealMemtable ns) := by
  have hheld : ∀ k : NsKey, k.2 ≠ [] → (s.sealMemtable ns).held k = s.held k := by
    intro k hk
    rw [State.held, State.held, State.live, State.live, winner_sealMemtable s ns hk]
  exact ⟨h.owner, h.owned, h.nodup, h.started, fun k hk hfree => (hheld k hk).trans (h.quiet k hk hfree),
    fun j hj => inflight_frame (h.inflight j hj) (append_nil _).symm
      nofun (hheld _) rfl⟩

/-- A thread goes on inside its stripe; only its own key may change. -/
theorem inside (h : Turns prog l s) {s' : State ν} {q : Pc ν} (hi : (s.pc i).inStripe = true)
    (hq : q.inStripe = true) (hwaits : q.waits = false) (hpcs : s'.pc = update s.pc i q)
    (hstripes : s'.stripes = s.stripes) (hturns : s'.turns = s.turns)
    (hheld : ∀ k : NsKey, k ≠ (prog i).key → s'.held k = s.held k)
    (hphase : ∀ u prev, u.tid = i → (prog i).key.2 ≠ [] →
      Phase prog u prev (s.held (prog i).key) (s.pc i) → Phase prog u prev (s'.held (prog i).key) q) :
    Turns prog l s' := by
  have hpc : ∀ j, s'.pc j = if j = i then q else s.pc j := fun j => by
    rw [hpcs, update_apply]
  have hsame : ∀ j, (s'.pc j).inStripe = (s.pc j).inStripe := by
    intro j
    rw [hpc]
    split_ifs with hji
    · rw [hji, hi, hq]
    · rfl
  refine ⟨fun st j hst => ?_, fun j hj => ?_, hturns ▸ h.nodup, fun u hu => ?_,
    fun k hk hfree => ?_, fun j hj => ?_⟩
  · rw [hsame]
    exact h.owner st j (hstripes ▸ hst)
  · rw [hstripes]
    exact h.owned j (hsame j ▸ hj)
  · rw [hpc]
    split_ifs
    · exact hwaits
    · exact h.started u (hturns ▸ hu)
  · rw [hheld k (hfree i (by rw [hsame]; exact hi)).symm, hturns]
    exact h.quiet k hk fun j hj => hfree j (by rw [hsame]; exact hj)
  · rw [hsame] at hj
    by_cases hji : j = i
    · subst hji
      obtain ⟨pre, u, post, heq, htid, hpost, hold⟩ := h.inflight j hj
      refine ⟨pre, u, post, hturns.trans heq, htid, hpost, fun hne => ?_⟩
      rw [hpc, if_pos rfl]
      exact hphase u _ htid hne (hold hne)
    · refine inflight_frame (h.inflight j hj) (hturns.trans (append_nil _).symm)
        nofun (fun _ => hheld _ fun hkey => hji ?_)
        (by rw [hpc, if_neg hji])
      exact h.unique hj hi hkey

end Turns

/-- What work inside a stripe leaves as it was. -/
structure Work.Frame (s s' : State ν) : Prop where
  pc : s'.pc = s.pc
  stripes : s'.stripes = s.stripes
  turns : s'.turns = s.turns
  memtable : s'.memtable = s.memtable
  lower : s'.lower = s.lower
  records : s'.records = s.records
  nextPointer : s'.nextPointer = s.nextPointer
  applied : s'.applied = s.applied
  nextSeq : s.nextSeq ≤ s'.nextSeq

namespace Work

variable {s' : State ν} {p q : Pc ν}

theorem frame (h : Work prog l s i p s' q) : Work.Frame s s' := by
  cases h <;> exact ⟨rfl, rfl, rfl, rfl, rfl, rfl, rfl, rfl, by simp [State.alloc]⟩

theorem inStripe (h : Work prog l s i p s' q) :
    p.inStripe = true ∧ q.inStripe = true ∧ q.waits = false := by
  cases h <;> exact ⟨rfl, rfl, rfl⟩

/-- Work keeps the phase of the turn. An expiry compares pointers, which tells the writers
apart. -/
theorem phase (h : Work prog l s i p s' q)
    (hpick : ∀ r, p = .holding (some r) → (∃ k expired, prog i = .expireRecord k expired) ∧
      ∀ r', s.live (prog i).key = some r' → (r'.pointer = r.pointer ↔ r'.writer = r.writer))
    {prev : Held ν} (htid : u.tid = i) (hphase : Phase prog u prev (s.held (prog i).key) p) :
    Phase prog u prev (s.held (prog i).key) q := by
  cases h with
  | @missed r hptr =>
    obtain ⟨⟨k, expired, hop⟩, hsame⟩ := hpick r rfl
    obtain ⟨hprev, hfound⟩ := hphase
    have hres : (prog u.tid).resolve u.found prev = none := by
      rw [htid, hop, Op.resolve, hfound, ← hprev, State.held]
      refine if_neg ?_
      rintro ⟨hsome, hwriter⟩
      obtain ⟨r', hlive⟩ := Option.isSome_iff_exists.mp (Option.isSome_map.symm.trans hsome)
      rw [hlive] at hwriter hptr
      have hr' : r'.writer = r.writer := Option.some.inj hwriter
      exact hptr (congrArg some ((hsame r' hlive).mpr hr'))
    change s.held (prog i).key = u.run prog prev
    rw [Turn.run, hres]
    exact hprev
  | @matched r hptr =>
    obtain ⟨⟨k, expired, hop⟩, hsame⟩ := hpick r rfl
    obtain ⟨hprev, hfound⟩ := hphase
    refine ⟨hprev, ?_⟩
    obtain ⟨r', hlive, heq⟩ := Option.map_eq_some_iff.mp hptr
    rw [htid, hop, Op.resolve, hfound, ← hprev, State.held, hlive]
    exact if_pos ⟨rfl, congrArg some ((hsame r' hlive).mp heq)⟩
  | silent hres _ =>
    obtain ⟨hprev, hfound⟩ := hphase
    change s.held (prog i).key = u.run prog prev
    rw [Turn.run, htid, hfound, ← hprev, hres]
  | decided hres _ =>
    obtain ⟨hprev, hfound⟩ := hphase
    exact ⟨hprev, by rw [htid, hfound, ← hprev]; exact hres⟩
  | lockWal | number | allocate | append | commit | expire => exact hphase

end Work

/-! ### Sequences -/

/-- **Sequences rise.** What is allocated and not applied is above all that was applied at its
key. -/
structure Sequences (prog : Tid → Op ν) (s : State ν) : Prop where
  bound : ∀ x ∈ s.applied, x.2 < s.nextSeq
  pending : ∀ i n, (s.pc i).seq = some n →
    n < s.nextSeq ∧ ∀ x ∈ s.applied, x.1 = (prog i).key → x.2 < n
  copies : ∀ k v, s.memtable k = some v ∨ s.lower k = some v → (k, v.seq) ∈ s.applied
  rising : ∀ k, ((s.applied.filter fun x => decide (x.1 = k)).map Prod.snd).Pairwise (· < ·)

theorem sequences_init (prog : Tid → Op ν) : Sequences prog State.init where
  bound _ h := by cases h
  pending _ _ h := by cases h
  copies _ _ h := by rcases h with h | h <;> cases h
  rising _ := List.Pairwise.nil

/-- A pick of two copies is one of them. -/
theorem newer_cases {a b : Option (Version ν)} {v : Version ν} (h : newer a b = some v) :
    a = some v ∨ b = some v := by
  cases a with
  | none => exact Or.inr h
  | some x =>
    cases b with
    | none => exact Or.inl h
    | some y =>
      rw [newer] at h
      split_ifs at h
      · exact Or.inr h
      · exact Or.inl h

/-- A copy that is not older wins. -/
theorem newer_eq_left {v : Version ν} {b : Option (Version ν)} (h : ∀ w, b = some w → w.seq ≤ v.seq) :
    newer (some v) b = some v := by
  cases b with
  | none => rfl
  | some w =>
    rw [newer, if_neg]
    exact not_lt.mpr (h w rfl)

variable {s' : State ν} {q : Pc ν} {n : ℕ}

theorem Work.seq_cases {p : Pc ν} (h : Work prog l s i p s' q) (hn : q.seq = some n) :
    p.seq = some n ∨ n = s.nextSeq ∧ s'.nextSeq = s.nextSeq + 1 ∧
      s'.taken = s.taken ++ [(i, n)] ∧ (p.seq = none) := by
  cases h with
  | number | allocate | expire =>
    obtain rfl := Option.some.inj hn
    exact Or.inr ⟨rfl, rfl, rfl, rfl⟩
  | append | commit => exact Or.inl hn
  | _ => cases hn

namespace Sequences

/-- A change of a thread's place that allocates nothing. -/
theorem goto (h : Sequences prog s) (hq : q.seq = none) : Sequences prog (s.goto i q) where
  bound := h.bound
  pending j n hj := by
    rw [State.pc_goto] at hj
    split_ifs at hj with hji
    · rw [hq] at hj
      cases hj
    · exact h.pending j n hj
  copies := h.copies
  rising := h.rising

theorem work (h : Sequences prog s) (hw : Work prog l s i (s.pc i) s' q) :
    Sequences prog (s'.goto i q) := by
  have hf := hw.frame
  refine ⟨fun x hx => ?_, fun j n hj => ?_, fun k v hv => ?_, fun k => ?_⟩
  · exact (h.bound x (hf.applied ▸ hx)).trans_le hf.nextSeq
  · have happlied : (s'.goto i q).applied = s.applied := hf.applied
    rw [happlied]
    change n < s'.nextSeq ∧ _
    rw [State.pc_goto, hf.pc] at hj
    split_ifs at hj with hji
    · rcases hw.seq_cases hj with hold | ⟨rfl, hnext, -, -⟩
      · obtain ⟨hlt, habove⟩ := h.pending i n hold
        exact ⟨hlt.trans_le hf.nextSeq, hji ▸ habove⟩
      · exact ⟨hnext ▸ Nat.lt_succ_self _, fun x hx _ => h.bound x hx⟩
    · obtain ⟨hlt, habove⟩ := h.pending j n hj
      exact ⟨hlt.trans_le hf.nextSeq, habove⟩
  · change (k, v.seq) ∈ s'.applied
    rw [hf.applied]
    refine h.copies k v ?_
    have hv' : s'.memtable k = some v ∨ s'.lower k = some v := hv
    rwa [hf.memtable, hf.lower] at hv'
  · change ((s'.applied.filter _).map _).Pairwise _
    rw [hf.applied]
    exact h.rising k

theorem sealMemtable (h : Sequences prog s) (ns : ℕ) : Sequences prog (s.sealMemtable ns) where
  bound := h.bound
  pending := h.pending
  copies k v hv := by
    rcases hv with hmem | hlow
    · have hmem' : (if k.1 = ns then none else s.memtable k) = some v := hmem
      split_ifs at hmem'
      exact h.copies k v (Or.inl hmem')
    · have hlow' : (if k.1 = ns ∧ k.2 ≠ [] then newer (s.memtable k) (s.lower k) else s.lower k) =
          some v := hlow
      split_ifs at hlow'
      · exact h.copies k v (newer_cases hlow')
      · exact h.copies k v (Or.inr hlow')
  rising := h.rising

/-- The stripes and the turns have no sequences. -/
theorem locked (h : Sequences prog s) (stripes : ℕ → Option Tid) (turns : List Turn) :
    Sequences prog { s with stripes := stripes, turns := turns } :=
  ⟨h.bound, h.pending, h.copies, h.rising⟩

/-- The copies of a key are below a sequence that waits for it. -/
theorem copies_lt (h : Sequences prog s) (hn : (s.pc i).seq = some n) {v : Version ν}
    (hv : s.memtable (prog i).key = some v ∨ s.lower (prog i).key = some v) : v.seq < n :=
  (h.pending i n hn).2 _ (h.copies _ v hv) rfl

/-- An applied write is the winner of its key. -/
theorem winner_applyWrite (h : Sequences prog s) {v : Option ν} (hn : (s.pc i).seq = some n) :
    (applyWrite prog l s i v n).winner (prog i).key =
      some ⟨n, v.map fun x => ⟨s.nextPointer, i, x, (prog i).epoch⟩⟩ := by
  have hmem : (applyWrite prog l s i v n).memtable (prog i).key =
      some ⟨n, v.map fun x => ⟨s.nextPointer, i, x, (prog i).epoch⟩⟩ := by
    change update s.memtable (prog i).key _ (prog i).key = _
    rw [update_self]
    exact newer_eq_left fun w hw => (h.copies_lt hn (Or.inl hw)).le
  rw [State.winner, hmem]
  exact newer_eq_left fun w hw => (h.copies_lt hn (Or.inr hw)).le

theorem winner_applyWrite_other (s : State ν) (i : Tid) (v : Option ν) (n : ℕ)
    (hk : k ≠ (prog i).key) : (applyWrite prog l s i v n).winner k = s.winner k := by
  have hmem : (applyWrite prog l s i v n).memtable k = s.memtable k :=
    update_of_ne hk _ _
  rw [State.winner, hmem]
  rfl

theorem applyWrite (h : Sequences prog s) (hturns : Turns prog l s) {v : Option ν}
    (hpc : s.pc i = .numbered v n) : Sequences prog (applyWrite prog l s i v n) := by
  have hi : (s.pc i).inStripe = true := by rw [hpc]; rfl
  have hn : (s.pc i).seq = some n := by rw [hpc]; rfl
  obtain ⟨hlt, habove⟩ := h.pending i n hn
  have hpcs : ∀ j, (SerialWrites.applyWrite prog l s i v n).pc j =
      if j = i then .finished else s.pc j := fun j => State.pc_goto _ _ _ _
  refine ⟨fun x hx => ?_, fun j m hj => ?_, fun k w hw => ?_, fun k => ?_⟩
  · rcases mem_append.mp hx with hold | hnew
    · exact h.bound x hold
    · rw [mem_singleton.mp hnew]
      exact hlt
  · rw [hpcs] at hj
    split_ifs at hj with hji
    · cases hj
    · obtain ⟨hm, hbelow⟩ := h.pending j m hj
      refine ⟨hm, fun x hx hkey => ?_⟩
      rcases mem_append.mp hx with hold | hnew
      · exact hbelow x hold hkey
      · -- two threads would be in one stripe
        rw [mem_singleton.mp hnew] at hkey
        have hj' : (s.pc j).inStripe = true := by
          cases hp : s.pc j <;> rw [hp] at hj <;> first | rfl | cases hj
        exact absurd (hturns.unique hi hj' hkey).symm hji
  · by_cases hk : k = (prog i).key
    · subst hk
      rcases hw with hmem | hlow
      · have hmem' : update s.memtable (prog i).key _ (prog i).key = some w := hmem
        rw [update_self] at hmem'
        rcases newer_cases hmem' with hnew | hold
        · obtain rfl := Option.some.inj hnew
          exact List.mem_append_right _ List.mem_cons_self
        · exact mem_append_left _ (h.copies _ w (Or.inl hold))
      · exact mem_append_left _ (h.copies _ w (Or.inr hlow))
    · refine mem_append_left _ (h.copies k w (hw.imp_left fun hmem => ?_))
      have hmem' : update s.memtable (prog i).key _ k = some w := hmem
      rwa [update_of_ne hk] at hmem'
  · change (((s.applied ++ [((prog i).key, n)]).filter _).map Prod.snd).Pairwise (· < ·)
    rw [List.filter_append, map_append, List.pairwise_append]
    refine ⟨h.rising k, ?_, fun a ha b hb => ?_⟩
    · rw [List.filter_singleton]
      cases decide ((prog i).key = k) <;> simp
    · obtain ⟨x, hx, rfl⟩ := mem_map.mp ha
      obtain ⟨y, hy, rfl⟩ := mem_map.mp hb
      obtain ⟨hxa, hxk⟩ := List.mem_filter.mp hx
      obtain ⟨hyb, hyk⟩ := List.mem_filter.mp hy
      rw [mem_singleton.mp hyb] at hyk ⊢
      exact habove x hxa ((of_decide_eq_true hxk).trans (of_decide_eq_true hyk).symm)

end Sequences

/-- An applied write leaves what its turn leaves. -/
theorem Turns.applyWrite (h : Turns prog l s) (hseq : Sequences prog s) {v : Option ν}
    (hpc : s.pc i = .numbered v n) : Turns prog l (applyWrite prog l s i v n) := by
  have hn : (s.pc i).seq = some n := by rw [hpc]; rfl
  refine h.inside (q := .finished) (by rw [hpc]; rfl) rfl rfl rfl rfl rfl (fun k hk => ?_)
    fun u prev htid _ hphase => ?_
  · rw [State.held, State.live, Sequences.winner_applyWrite_other s i v n hk]
    rfl
  · rw [hpc] at hphase
    change _ = u.run prog prev
    rw [Turn.run, hphase.2, htid, State.held, State.live, hseq.winner_applyWrite hn]
    cases v <;> rfl

/-! ### Records -/

/-- The thread's write is applied. -/
def Pc.past : Pc ν → Bool
  | .finished | .done => true
  | _ => false

/-- The record a thread of an expiry has picked. -/
def Pc.picked : Pc ν → Option (Located ν)
  | .judged r | .holding (some r) => some r
  | _ => none

/-- **Records.** A pointer names one record and a thread writes one; a record an expiry picked
is one of its key, and expired. -/
structure Records (prog : Tid → Op ν) (s : State ν) : Prop where
  pointers : (s.records.map Located.pointer).Nodup
  writers : (s.records.map Located.writer).Nodup
  bound : ∀ r ∈ s.records, r.pointer < s.nextPointer
  written : ∀ r ∈ s.records, (s.pc r.writer).past = true
  made : ∀ r ∈ s.records, r.epoch = (prog r.writer).epoch
  copies : ∀ k v r, s.memtable k = some v ∨ s.lower k = some v → v.live = some r →
    r ∈ s.records ∧ (prog r.writer).key = k
  picked : ∀ i r, (s.pc i).picked = some r → r ∈ s.records ∧ (prog r.writer).key = (prog i).key ∧
    ∃ expired, prog i = .expireRecord (prog i).key expired ∧ expired r.epoch = true

theorem records_init (prog : Tid → Op ν) : Records prog State.init where
  pointers := nodup_nil
  writers := nodup_nil
  bound _ h := by cases h
  written _ h := by cases h
  made _ h := by cases h
  copies _ _ _ h := by rcases h with h | h <;> cases h
  picked _ _ h := by cases h

theorem Work.place {p : Pc ν} (h : Work prog l s i p s' q) : p.past = false ∧ q.picked = none := by
  cases h <;> exact ⟨rfl, rfl⟩

namespace Records

/-- The record a key points at is one of its own. -/
theorem of_live (h : Records prog s) {r : Located ν} (hr : s.live k = some r) :
    r ∈ s.records ∧ (prog r.writer).key = k := by
  obtain ⟨v, hv, hlive⟩ := Option.bind_eq_some_iff.mp hr
  exact h.copies k v r (newer_cases hv) hlive

/-- Pointers tell records apart as their writers do. -/
theorem pointer_eq_iff (h : Records prog s) {r r' : Located ν} (hr : r ∈ s.records)
    (hr' : r' ∈ s.records) : r'.pointer = r.pointer ↔ r'.writer = r.writer :=
  ⟨fun heq => congrArg _ (List.inj_on_of_nodup_map h.pointers hr' hr heq),
    fun heq => congrArg _ (List.inj_on_of_nodup_map h.writers hr' hr heq)⟩

/-- A thread changes its place. -/
theorem goto (h : Records prog s) (hpast : (s.pc i).past = true → q.past = true)
    (hpicked : ∀ r, q.picked = some r → r ∈ s.records ∧ (prog r.writer).key = (prog i).key ∧
      ∃ expired, prog i = .expireRecord (prog i).key expired ∧ expired r.epoch = true) :
    Records prog (s.goto i q) where
  pointers := h.pointers
  writers := h.writers
  bound := h.bound
  written r hr := by
    rw [State.pc_goto]
    split_ifs with hi
    · exact hpast (hi ▸ h.written r hr)
    · exact h.written r hr
  made := h.made
  copies := h.copies
  picked j r hj := by
    rw [State.pc_goto] at hj
    split_ifs at hj with hji
    · subst hji
      exact hpicked r hj
    · exact h.picked j r hj

/-- The stripes and the turns have no records. -/
theorem locked (h : Records prog s) (stripes : ℕ → Option Tid) (turns : List Turn) :
    Records prog { s with stripes := stripes, turns := turns } :=
  ⟨h.pointers, h.writers, h.bound, h.written, h.made, h.copies, h.picked⟩

theorem frame (h : Records prog s) (hf : Work.Frame s s') : Records prog s' where
  pointers := by
    rw [hf.records]
    exact h.pointers
  writers := by
    rw [hf.records]
    exact h.writers
  bound := by
    rw [hf.records, hf.nextPointer]
    exact h.bound
  written := by
    rw [hf.records, hf.pc]
    exact h.written
  made := by
    rw [hf.records]
    exact h.made
  copies := by
    rw [hf.records, hf.memtable, hf.lower]
    exact h.copies
  picked := by
    rw [hf.records, hf.pc]
    exact h.picked

theorem sealMemtable (h : Records prog s) (ns : ℕ) : Records prog (s.sealMemtable ns) where
  pointers := h.pointers
  writers := h.writers
  bound := h.bound
  written := h.written
  made := h.made
  copies k v r hv hlive := by
    rcases hv with hmem | hlow
    · have hmem' : (if k.1 = ns then none else s.memtable k) = some v := hmem
      split_ifs at hmem'
      exact h.copies k v r (Or.inl hmem') hlive
    · have hlow' : (if k.1 = ns ∧ k.2 ≠ [] then newer (s.memtable k) (s.lower k) else s.lower k) =
          some v := hlow
      split_ifs at hlow'
      · exact h.copies k v r (newer_cases hlow') hlive
      · exact h.copies k v r (Or.inr hlow') hlive
  picked := h.picked

theorem applyWrite (h : Records prog s) {v : Option ν} (hpc : s.pc i = .numbered v n) :
    Records prog (applyWrite prog l s i v n) := by
  have hpcs : ∀ j, (SerialWrites.applyWrite prog l s i v n).pc j =
      if j = i then .finished else s.pc j := fun j => State.pc_goto _ _ _ _
  have hnot : ∀ r ∈ s.records, r.writer ≠ i := by
    intro r hr heq
    have hpast := h.written r hr
    rw [heq, hpc] at hpast
    cases hpast
  have hnew : ∀ r ∈ (v.map fun x => (⟨s.nextPointer, i, x, (prog i).epoch⟩ : Located ν)).toList,
      r.pointer = s.nextPointer ∧ r.writer = i ∧ r.epoch = (prog i).epoch := by
    intro r hr
    obtain ⟨x, -, rfl⟩ := Option.map_eq_some_iff.mp (Option.mem_toList.mp hr)
    exact ⟨rfl, rfl, rfl⟩
  have hone : ∀ {β : Type} (f : Located ν → β),
      ((v.map fun x => (⟨s.nextPointer, i, x, (prog i).epoch⟩ : Located ν)).toList.map f).Nodup := by
    intro β f
    cases v with
    | none => exact nodup_nil
    | some x => exact List.nodup_singleton _
  refine ⟨?_, ?_, fun r hr => ?_, fun r hr => ?_, fun r hr => ?_, fun k w r hw hlive => ?_,
    fun j r hj => ?_⟩
  · change ((s.records ++ _).map Located.pointer).Nodup
    rw [map_append, List.nodup_append]
    refine ⟨h.pointers, hone _, ?_⟩
    rintro a ha b hb rfl
    obtain ⟨r, hr, rfl⟩ := mem_map.mp ha
    obtain ⟨r', hr', heq⟩ := mem_map.mp hb
    exact absurd ((hnew r' hr').1.symm.trans heq) (h.bound r hr).ne'
  · change ((s.records ++ _).map Located.writer).Nodup
    rw [map_append, List.nodup_append]
    refine ⟨h.writers, hone _, ?_⟩
    rintro a ha b hb rfl
    obtain ⟨r, hr, rfl⟩ := mem_map.mp ha
    obtain ⟨r', hr', heq⟩ := mem_map.mp hb
    exact hnot r hr (heq.symm.trans (hnew r' hr').2.1)
  · rcases mem_append.mp hr with hold | hlast
    · exact Nat.lt_succ_of_lt (h.bound r hold)
    · rw [(hnew r hlast).1]
      exact Nat.lt_succ_self _
  · rw [hpcs]
    split_ifs with hri
    · rfl
    · rcases mem_append.mp hr with hold | hlast
      · exact h.written r hold
      · exact absurd (hnew r hlast).2.1 hri
  · rcases mem_append.mp hr with hold | hlast
    · exact h.made r hold
    · rw [(hnew r hlast).2.2, (hnew r hlast).2.1]
  · have hcopy : (k = (prog i).key ∧ w.live = v.map fun x => ⟨s.nextPointer, i, x, (prog i).epoch⟩) ∨
        s.memtable k = some w ∨ s.lower k = some w := by
      rcases hw with hmem | hlow
      · have hmem' : update s.memtable (prog i).key _ k = some w := hmem
        rw [update_apply] at hmem'
        split_ifs at hmem' with hk
        · rcases newer_cases hmem' with hlast | hold
          · obtain rfl := Option.some.inj hlast
            exact Or.inl ⟨hk, rfl⟩
          · exact Or.inr (Or.inl (hk ▸ hold))
        · exact Or.inr (Or.inl hmem')
      · exact Or.inr (Or.inr hlow)
    rcases hcopy with ⟨rfl, hw'⟩ | hold
    · rw [hw'] at hlive
      refine ⟨List.mem_append_right _ (Option.mem_toList.mpr hlive), ?_⟩
      rw [(hnew r (Option.mem_toList.mpr hlive)).2.1]
    · obtain ⟨hr, hkey⟩ := h.copies k w r hold hlive
      exact ⟨mem_append_left _ hr, hkey⟩
  · rw [hpcs] at hj
    split_ifs at hj
    · cases hj
    · obtain ⟨hr, hrest⟩ := h.picked j r hj
      exact ⟨mem_append_left _ hr, hrest⟩

end Records

/-! ### What was given, allocated and logged -/

/-- A thread has had its turn, and the turn and what its key held before it are such. -/
def HadTurn (prog : Tid → Op ν) (turns : List Turn) (i : Tid) (P : Turn → Held ν → Prop) : Prop :=
  ∃ pre u post, turns = pre ++ u :: post ∧ u.tid = i ∧ P u (serial prog pre (prog i).key)

theorem HadTurn.append {turns : List Turn} {P : Turn → Held ν → Prop}
    (h : HadTurn prog turns i P) (more : List Turn) : HadTurn prog (turns ++ more) i P := by
  obtain ⟨pre, u, post, rfl, htid, hP⟩ := h
  exact ⟨pre, u, post ++ more, by rw [List.append_assoc, List.cons_append], htid, hP⟩

/-- **Ghosts.** A merge was given what the turn before left; a sequence was allocated in a turn
that writes, and the WAL holds only such; an expiry found an expired record of its key. -/
structure Ghosts (prog : Tid → Op ν) (s : State ν) : Prop where
  saw : ∀ x ∈ s.saw, (prog x.1).key.2 ≠ [] →
    HadTurn prog s.turns x.1 fun _ prev => x.2 = prev.map Prod.snd
  taken : ∀ x ∈ s.taken, (prog x.1).key.2 ≠ [] →
    HadTurn prog s.turns x.1 fun u prev => ((prog x.1).resolve u.found prev).isSome = true
  wal : ∀ e ∈ s.wal, (e.tid, e.seq) ∈ s.taken
  pending : ∀ i n, (s.pc i).seq = some n → (i, n) ∈ s.taken
  expiry : ∀ u ∈ s.turns, ∀ k expired, prog u.tid = .expireRecord k expired →
    ∃ w, u.found = some w ∧ (prog w).key = k ∧ expired (prog w).epoch = true

theorem ghosts_init (prog : Tid → Op ν) : Ghosts prog State.init where
  saw _ h := by cases h
  taken _ h := by cases h
  wal _ h := by cases h
  pending _ _ h := by cases h
  expiry _ h := by cases h

theorem State.get_eq (s : State ν) (k : NsKey) : s.get k = (s.held k).map Prod.snd := by
  rw [State.get, State.held, Option.map_map]
  rfl

namespace Work

variable {s' : State ν} {p q : Pc ν}

theorem saw_cases (h : Work prog l s i p s' q) :
    s'.saw = s.saw ∨ s'.saw = s.saw ++ [(i, s.get (prog i).key)] ∧ p = .holding none := by
  cases h with
  | silent _ hsaw | decided _ hsaw => exact hsaw.imp id fun heq => ⟨heq, rfl⟩
  | _ => exact Or.inl rfl

/-- A sequence is allocated once it is known that there is something to write. -/
theorem taken_cases (h : Work prog l s i p s' q) :
    s'.taken = s.taken ∨ ∃ n, s'.taken = s.taken ++ [(i, n)] ∧ ∀ u prev now,
      Phase prog u prev now p → ((prog u.tid).resolve u.found prev).isSome = true := by
  cases h with
  | number | allocate | expire =>
    refine Or.inr ⟨_, rfl, fun u prev now hphase => ?_⟩
    rw [hphase.2]
    rfl
  | _ => exact Or.inl rfl

theorem wal_cases (h : Work prog l s i p s' q) :
    s'.wal = s.wal ∨ ∃ e : WalEntry ν, s'.wal = s.wal ++ [e] ∧ e.tid = i ∧ p.seq = some e.seq := by
  cases h with
  | append => exact Or.inr ⟨_, rfl, rfl, rfl⟩
  | _ => exact Or.inl rfl

theorem taken_subset (h : Work prog l s i p s' q) : s.taken ⊆ s'.taken := by
  rcases h.taken_cases with heq | ⟨n, heq, -⟩
  · rw [heq]
    exact List.Subset.refl _
  · rw [heq]
    exact List.subset_append_left _ _

end Work

namespace Ghosts

/-- A change of a thread's place that allocates nothing. -/
theorem goto (h : Ghosts prog s) (hq : q.seq = none) : Ghosts prog (s.goto i q) where
  saw := h.saw
  taken := h.taken
  wal := h.wal
  pending j n hj := by
    rw [State.pc_goto] at hj
    split_ifs at hj with hji
    · rw [hq] at hj
      cases hj
    · exact h.pending j n hj
  expiry := h.expiry

theorem take (h : Ghosts prog s) {stripes : ℕ → Option Tid}
    (hu : ∀ k expired, prog u.tid = .expireRecord k expired →
      ∃ w, u.found = some w ∧ (prog w).key = k ∧ expired (prog w).epoch = true) :
    Ghosts prog { s with stripes := stripes, turns := s.turns ++ [u] } where
  saw x hx hk := (h.saw x hx hk).append _
  taken x hx hk := (h.taken x hx hk).append _
  wal := h.wal
  pending := h.pending
  expiry w hw := by
    rcases mem_append.mp hw with hold | hlast
    · exact h.expiry w hold
    · rw [mem_singleton.mp hlast]
      exact hu

/-- What a thread does in its stripe is part of its turn. -/
theorem work (h : Ghosts prog s) (hin : Inflight prog s i) (hw : Work prog l s i (s.pc i) s' q) :
    Ghosts prog (s'.goto i q) := by
  have hf := hw.frame
  obtain ⟨pre, u, post, hturns, htid, -, hphase⟩ := hin
  refine ⟨fun x hx hk => ?_, fun x hx hk => ?_, fun e he => ?_, fun j n hj => ?_, ?_⟩
  · change HadTurn prog s'.turns x.1 _
    rw [hf.turns]
    have hx' : x ∈ s'.saw := hx
    rcases hw.saw_cases with hsame | ⟨hmore, hpc⟩
    · exact h.saw x (hsame ▸ hx') hk
    · rw [hmore] at hx'
      rcases mem_append.mp hx' with hold | hlast
      · exact h.saw x hold hk
      · obtain rfl := mem_singleton.mp hlast
        have hnow := hphase hk
        rw [hpc] at hnow
        exact ⟨pre, u, post, hturns, htid, by rw [State.get_eq, hnow.1]⟩
  · change HadTurn prog s'.turns x.1 _
    rw [hf.turns]
    have hx' : x ∈ s'.taken := hx
    rcases hw.taken_cases with hsame | ⟨n, hmore, hwrites⟩
    · exact h.taken x (hsame ▸ hx') hk
    · rw [hmore] at hx'
      rcases mem_append.mp hx' with hold | hlast
      · exact h.taken x hold hk
      · obtain rfl := mem_singleton.mp hlast
        have hsome := hwrites u _ _ (hphase hk)
        rw [htid] at hsome
        exact ⟨pre, u, post, hturns, htid, hsome⟩
  · have he' : e ∈ s'.wal := he
    rcases hw.wal_cases with hsame | ⟨e', hmore, htid', hseq⟩
    · exact hw.taken_subset (h.wal e (hsame ▸ he'))
    · rw [hmore] at he'
      rcases mem_append.mp he' with hold | hlast
      · exact hw.taken_subset (h.wal e hold)
      · obtain rfl := mem_singleton.mp hlast
        rw [htid']
        exact hw.taken_subset (h.pending i e.seq hseq)
  · rw [State.pc_goto, hf.pc] at hj
    split_ifs at hj with hji
    · subst hji
      rcases hw.seq_cases hj with hold | ⟨-, -, hmore, -⟩
      · exact hw.taken_subset (h.pending j n hold)
      · change (j, n) ∈ s'.taken
        rw [hmore]
        exact List.mem_append_right _ (List.mem_singleton_self _)
    · exact hw.taken_subset (h.pending j n hj)
  · change ∀ u ∈ s'.turns, _
    rw [hf.turns]
    exact h.expiry

theorem applyWrite (h : Ghosts prog s) (v : Option ν) (n : ℕ) :
    Ghosts prog (applyWrite prog l s i v n) where
  saw := h.saw
  taken := h.taken
  wal := h.wal
  pending := (h.goto (i := i) (q := .finished) rfl).pending
  expiry := h.expiry

end Ghosts

/-! ### Every run -/

/-- The invariant of a run. -/
structure Inv (prog : Tid → Op ν) (l : Locks) (s : State ν) : Prop where
  turns : Turns prog l s
  sequences : Sequences prog s
  records : Records prog s
  ghosts : Ghosts prog s

theorem inv_init (prog : Tid → Op ν) (l : Locks) : Inv prog l State.init :=
  ⟨turns_init prog l, sequences_init prog, records_init prog, ghosts_init prog⟩

namespace Inv

theorem leave (h : Inv prog l s) (hpc : s.pc i = .idle) : Inv prog l (s.goto i .done) where
  turns := h.turns.outside (by rw [hpc]; rfl) rfl
  sequences := h.sequences.goto rfl
  records := h.records.goto (fun _ => rfl) fun _ hr => by cases hr
  ghosts := h.ghosts.goto rfl

/-- An expiry picks an expired record. -/
theorem judge (h : Inv prog l s) {key : NsKey} {expired : ℕ → Bool} {r : Located ν}
    (hpc : s.pc i = .idle) (hop : prog i = .expireRecord key expired) (hlive : s.live key = some r)
    (hexpired : expired r.epoch = true) : Inv prog l (s.goto i (.judged r)) where
  turns := h.turns.outside (by rw [hpc]; rfl) rfl
  sequences := h.sequences.goto rfl
  records := by
    refine h.records.goto (fun hpast => by rw [hpc] at hpast; cases hpast) fun r' hr' => ?_
    obtain rfl := Option.some.inj hr'
    obtain ⟨hmem, hkey⟩ := h.records.of_live hlive
    have hown : (prog i).key = key := by rw [hop]; rfl
    exact ⟨hmem, hkey.trans hown.symm, expired, by rw [hown]; exact hop, hexpired⟩
  ghosts := h.ghosts.goto rfl

/-- A thread takes its stripe, an expiry with the record it picked. -/
theorem take (h : Inv prog l s) {picked : Option (Located ν)}
    (hfree : s.stripes (l.stripeOf (prog i).key) = none)
    (hpc : (s.pc i = .idle ∧ picked = none ∧ ∀ key expired, prog i ≠ .expireRecord key expired) ∨
      ∃ r, s.pc i = .judged r ∧ picked = some r) :
    Inv prog l ({ s with
      stripes := update s.stripes (l.stripeOf (prog i).key) (some i)
      turns := s.turns ++ [(⟨i, picked.map Located.writer⟩ : Turn)] }.goto i (.holding picked)) := by
  have hwaits : (s.pc i).waits = true := by
    rcases hpc with ⟨hidle, -⟩ | ⟨r, hjudged, -⟩
    · rw [hidle]; rfl
    · rw [hjudged]; rfl
  have hnotPast : (s.pc i).past = false := by
    rcases hpc with ⟨hidle, -⟩ | ⟨r, hjudged, -⟩
    · rw [hidle]; rfl
    · rw [hjudged]; rfl
  refine ⟨h.turns.take hwaits hfree, ?_, ?_, ?_⟩
  · exact (h.sequences.locked _ _).goto rfl
  · refine (h.records.locked _ _).goto (fun hpast => ?_) fun r hr => ?_
    · change (s.pc i).past = true at hpast
      rw [hnotPast] at hpast
      cases hpast
    · rcases hpc with ⟨-, rfl, -⟩ | ⟨r', hjudged, rfl⟩
      · cases hr
      · obtain rfl := Option.some.inj hr
        exact h.records.picked i r' (by rw [hjudged]; rfl)
  · refine Ghosts.goto (h.ghosts.take fun k expired hop => ?_) rfl
    rcases hpc with ⟨-, -, hnot⟩ | ⟨r, hjudged, rfl⟩
    · exact absurd hop (hnot k expired)
    · obtain ⟨hmem, hkey, expired', hop', hexpired⟩ := h.records.picked i r (by rw [hjudged]; rfl)
      obtain ⟨hk, rfl⟩ := Op.expireRecord.inj (hop.symm.trans hop')
      exact ⟨r.writer, rfl, hkey.trans hk.symm, by rw [← h.records.made r hmem]; exact hexpired⟩

/-- The record an expiry has picked tells the writers of its key apart. -/
theorem pick (h : Inv prog l s) {r : Located ν} (hpc : s.pc i = .holding (some r)) :
    (∃ k expired, prog i = .expireRecord k expired) ∧
      ∀ r', s.live (prog i).key = some r' → (r'.pointer = r.pointer ↔ r'.writer = r.writer) := by
  obtain ⟨hmem, -, expired, hop, -⟩ := h.records.picked i r (by rw [hpc]; rfl)
  exact ⟨⟨_, expired, hop⟩, fun r' hr' => h.records.pointer_eq_iff hmem (h.records.of_live hr').1⟩

theorem work (h : Inv prog l s) (hw : Work prog l s i (s.pc i) s' q) :
    Inv prog l (s'.goto i q) := by
  have hf := hw.frame
  obtain ⟨hpin, hqin, hqwaits⟩ := hw.inStripe
  have hheld : ∀ k, (s'.goto i q).held k = s.held k := by
    intro k
    change Option.map _ ((newer (s'.memtable k) (s'.lower k)).bind Version.live) = _
    rw [hf.memtable, hf.lower]
    rfl
  refine ⟨?_, h.sequences.work hw, ?_, h.ghosts.work (h.turns.inflight i hpin) hw⟩
  · refine h.turns.inside hpin hqin hqwaits ?_ hf.stripes hf.turns (fun k _ => hheld k)
      fun u prev htid _ hphase => ?_
    · change update s'.pc i q = _
      rw [hf.pc]
    · rw [hheld]
      exact hw.phase (fun r hr => h.pick hr) htid hphase
  · refine (h.records.frame hf).goto (fun hpast => ?_) fun r hr => ?_
    · rw [hf.pc, hw.place.1] at hpast
      cases hpast
    · rw [hw.place.2] at hr
      cases hr

theorem release (h : Inv prog l s) (hpc : s.pc i = .finished) : Inv prog l
    ({ s with stripes := update s.stripes (l.stripeOf (prog i).key) none }.goto i .done) := by
  refine ⟨h.turns.release hpc, ?_, ?_, ?_⟩
  · exact (h.sequences.locked _ _).goto rfl
  · refine (h.records.locked _ _).goto (fun _ => rfl) fun r hr => ?_
    cases hr
  · have hghosts : Ghosts prog { s with
        stripes := update s.stripes (l.stripeOf (prog i).key) none } :=
      ⟨h.ghosts.saw, h.ghosts.taken, h.ghosts.wal, h.ghosts.pending, h.ghosts.expiry⟩
    exact hghosts.goto rfl

/-- **One step keeps the invariant.** -/
theorem step {a : Act} (h : Inv prog l s) (hstep : SerialWrites.step prog l s a = some t) :
    Inv prog l t := by
  cases a with
  | thread i =>
    cases move_of_step hstep with
    | leave hpc => exact h.leave hpc
    | judge hpc hop hlive hexpired => exact h.judge hpc hop hlive hexpired
    | take hfree hpc => exact h.take hfree hpc
    | work hw => exact h.work hw
    | applied hpc =>
      exact ⟨h.turns.applyWrite h.sequences hpc, h.sequences.applyWrite h.turns hpc,
        h.records.applyWrite hpc, h.ghosts.applyWrite _ _⟩
    | release hpc => exact h.release hpc
  | sealMemtable ns =>
    obtain rfl := Option.some.inj hstep
    exact ⟨h.turns.sealMemtable ns, h.sequences.sealMemtable ns, h.records.sealMemtable ns,
      ⟨h.ghosts.saw, h.ghosts.taken, h.ghosts.wal, h.ghosts.pending, h.ghosts.expiry⟩⟩

end Inv

/-- Of the turns, only one is a thread's. -/
private theorem turn_unique {turns pre' post' : List Turn} {u' : Turn}
    (hnodup : (turns.map Turn.tid).Nodup) (h : turns = pre ++ u :: post)
    (h' : turns = pre' ++ u' :: post') (htid : u'.tid = u.tid) : pre' = pre ∧ u' = u := by
  have hnot : ∀ w ∈ pre ++ post, w.tid ≠ u'.tid := by
    intro w hw heq
    rw [h, map_append, List.map_cons, List.nodup_middle, List.nodup_cons, ← map_append]
      at hnodup
    exact hnodup.1 (mem_map.mpr ⟨w, hw, heq.trans htid⟩)
  obtain ⟨hpre, hu, -⟩ := (List.append_cons_inj_of_notMem
    (fun hmem => hnot u' (mem_append_left _ hmem) rfl)
    fun hmem => hnot u' (List.mem_append_right _ hmem) rfl).mp (h.symm.trans h')
  exact ⟨hpre.symm, hu.symm⟩

/-- **Serialised.** The turns at a key explain what happened there. -/
structure Serialised (prog : Tid → Op ν) (s : State ν) (k : NsKey) : Prop where
  /-- Once nobody is at the key, it holds what its turns leave. -/
  final : (∀ i, (s.pc i).inStripe = true → (prog i).key ≠ k) →
    s.held k = serial prog s.turns k ∧ s.get k = (serial prog s.turns k).map Prod.snd
  once : (s.turns.map Turn.tid).Nodup
  rising : ((s.applied.filter fun x => decide (x.1 = k)).map Prod.snd).Pairwise (· < ·)
  /-- A merge is given what the turn before left. -/
  merged : ∀ pre (u : Turn) post, s.turns = pre ++ u :: post → (prog u.tid).key = k →
    ∀ v, (u.tid, v) ∈ s.saw → v = (serial prog pre k).map Prod.snd
  /-- An expiry removes the expired record it found, or nothing. -/
  expired : ∀ pre (u : Turn) post, s.turns = pre ++ u :: post → ∀ expired,
    prog u.tid = .expireRecord k expired → serial prog (pre ++ [u]) k = serial prog pre k ∨
      ∃ w x, serial prog pre k = some (w, x) ∧ u.found = some w ∧
        expired (prog w).epoch = true ∧ serial prog (pre ++ [u]) k = none
  /-- A turn without a write, such as that of a merge that fails or finds and leaves nothing,
  allocates and logs nothing. -/
  silent : ∀ pre (u : Turn) post, s.turns = pre ++ u :: post → (prog u.tid).key = k →
    (prog u.tid).resolve u.found (serial prog pre k) = none →
      serial prog (pre ++ [u]) k = serial prog pre k ∧ (∀ n, (u.tid, n) ∉ s.taken) ∧
        ∀ e ∈ s.wal, e.tid ≠ u.tid

theorem Inv.serialised (h : Inv prog l s) (hk : k.2 ≠ []) : Serialised prog s k where
  final hfree := by
    have hheld := h.turns.quiet k hk hfree
    exact ⟨hheld, by rw [State.get_eq, hheld]⟩
  once := h.turns.nodup
  rising := h.sequences.rising k
  merged pre u post hturns hkey v hv := by
    subst hkey
    obtain ⟨pre', u', post', hturns', htid, hsaw⟩ := h.ghosts.saw _ hv hk
    obtain ⟨rfl, -⟩ := turn_unique h.turns.nodup hturns hturns' htid
    exact hsaw
  expired pre u post hturns expired hop := by
    have hkey : (prog u.tid).key = k := by rw [hop]; rfl
    rw [serial_append_singleton, if_pos hkey, Turn.run, hop, Op.resolve]
    by_cases hmatch : (serial prog pre k).isSome = true ∧ (serial prog pre k).map Prod.fst = u.found
    · obtain ⟨w, hfound, -, hexpired⟩ :=
        h.ghosts.expiry u (hturns ▸ List.mem_append_right _ List.mem_cons_self) k expired hop
      obtain ⟨⟨w', x⟩, hheld⟩ := Option.isSome_iff_exists.mp hmatch.1
      obtain rfl : w' = w := by
        have hwriter := hmatch.2
        rw [hheld, hfound] at hwriter
        exact Option.some.inj hwriter
      rw [if_pos hmatch]
      exact Or.inr ⟨w', x, hheld, hfound, hexpired, rfl⟩
    · rw [if_neg hmatch]
      exact Or.inl rfl
  silent pre u post hturns hkey hres := by
    subst hkey
    have hnot : ∀ n, (u.tid, n) ∉ s.taken := by
      intro n hn
      obtain ⟨pre', u', post', hturns', htid, hsome⟩ := h.ghosts.taken _ hn hk
      obtain ⟨rfl, rfl⟩ := turn_unique h.turns.nodup hturns hturns' htid
      rw [hres] at hsome
      cases hsome
    refine ⟨?_, hnot, fun e he htid => hnot e.seq (htid ▸ h.ghosts.wal e he)⟩
    rw [serial_append_singleton, if_pos rfl, Turn.run, hres]

/-- **Writers of one key take turns.** After every interleaving of any operations with each other
and with seals, the turns explain what happened at every key but the empty one. -/
theorem writers_take_turns (prog : Tid → Op ν) (l : Locks) {s : State ν} {as : List Act}
    (h : StepRun.run (step prog l) State.init as = some s) {k : NsKey} (hk : k.2 ≠ []) :
    Serialised prog s k :=
  (StepRun.invariant (fun _ _ _ hinv hstep => Inv.step hinv hstep) (inv_init prog l) h).serialised hk

/-- A lock for everything. -/
private def oneLock : Locks := ⟨fun _ => 0, fun _ => 0⟩

private def putThenMerge : Tid → Op ℕ
  | 0 => .putNs (0, [107]) 5 1
  | _ => .mergeNsNoWal (0, [107]) (fun v => .ok (v.map (· + 1))) 2

theorem writers_take_turns_merge : ∃ s, StepRun.run (step putThenMerge oneLock) State.init
      (List.replicate 8 (.thread 0) ++ [.sealMemtable 0] ++ List.replicate 5 (.thread 1)) = some s ∧
    s.get (0, [107]) = some 6 ∧ Serialised putThenMerge s (0, [107]) := by
  have h : (StepRun.run (step putThenMerge oneLock) State.init (List.replicate 8 (Act.thread 0) ++
      [Act.sealMemtable 0] ++ List.replicate 5 (Act.thread 1))).map (fun s => s.get (0, [107])) =
        some (some 6) := by decide +kernel
  obtain ⟨s, hrun, hget⟩ := Option.map_eq_some_iff.mp h
  exact ⟨s, hrun, hget, writers_take_turns putThenMerge oneLock hrun (by decide)⟩

private def putEmptyKey : Tid → Op ℕ := fun _ => .putNs (0, []) 5 1

/-- The empty key is lost with its memtable's seal. -/
theorem sealed_empty_key_is_lost : ¬ ∀ (prog : Tid → Op ℕ) (l : Locks) (s : State ℕ) (as : List Act)
    (k : NsKey), StepRun.run (step prog l) State.init as = some s → Serialised prog s k := by
  intro hall
  have h : (StepRun.run (step putEmptyKey oneLock) State.init
      (List.replicate 8 (Act.thread 0) ++ [Act.sealMemtable 0])).map (fun s =>
        (s.get (0, []), serial putEmptyKey s.turns (0, []), s.stripes 0)) =
      some (none, some (0, 5), none) := by decide +kernel
  obtain ⟨s, hrun, hs⟩ := Option.map_eq_some_iff.mp h
  obtain ⟨hget, hrest⟩ := Prod.mk.inj hs
  obtain ⟨hserial, hfree⟩ := Prod.mk.inj hrest
  have hinv := StepRun.invariant (fun _ _ _ hinv hstep => Inv.step hinv hstep)
    (inv_init putEmptyKey oneLock) hrun
  have hquiet : ∀ i, (s.pc i).inStripe = true → (putEmptyKey i).key ≠ (0, []) := by
    intro i hi
    have hown := hinv.turns.owned i hi
    change s.stripes 0 = some i at hown
    rw [hown] at hfree
    cases hfree
  have hfinal := ((hall putEmptyKey oneLock s _ (0, []) hrun).final hquiet).2
  rw [hget, hserial] at hfinal
  cases hfinal

end SerialWrites

end Minnal
