import Minnal.Db.BackstopGaps
import Minnal.Library.StepRun

/-!
# Activation of a field index

A field's index is **activated** on a namespace that is written to. The index files are opened,
the WAL tail is read, and for each key with an entry between the field's checkpoint and that tail
the current value is read. The rows of these keys are taken from the index and filed again, and
then the index is **registered**. A write that reaches its index update before that finds no index
to update.

A write holds its key's stripe from its WAL entry to the end of its index update. The stripes are
not taken by the activation.

Once the index is registered it has the rows that the current values give (`activated_exact`), if
no index update came between the tail and the registration for a key the activation would not read
any more and had not read with that value.
-/

set_option linter.dupNamespace false

namespace Minnal

namespace IndexActivation

open WalGc

variable {K D V : Type}

/-! ### Rows of an index -/

/-- The keys filed under each value: a key stands for its row. -/
abbrev Rows (K V : Type) := V → List K

/-- What a field indexes, which values it rejects, and from where on its index needs the WAL. -/
structure Field (D V : Type) where
  extract : D → Option V
  rejects : V → Bool
  /-- The offset up to which the index files are written. -/
  checkpoint : ℕ
  head : ℕ

/-- Replay starts at the checkpoint, or where the WAL does. -/
def Field.replayFrom (f : Field D V) : ℕ := max f.head f.checkpoint

/-- What a document is filed under. -/
def Field.target (f : Field D V) (d : Option D) : Option V :=
  (d.bind f.extract).filter fun v => !f.rejects v

variable {old value before : Option D} {readings : List (K × Option D)}

section Rows

variable [DecidableEq K] [DecidableEq V] (f : Field D V)

/-- Clear these keys from all values. -/
def removeAllForRows (keys : List K) (rows : Rows K V) : Rows K V :=
  fun v => (rows v).filter fun key => decide (key ∉ keys)

def remove (v : V) (key : K) (rows : Rows K V) : Rows K V :=
  Function.update rows v ((rows v).filter fun k => decide (k ≠ key))

/-- A value that is rejected files nothing. -/
def insert (v : V) (key : K) (rows : Rows K V) : Rows K V :=
  if f.rejects v then rows else Function.update rows v ((rows v).insert key)

/-- Make the value the only one of the key. -/
def set (v : V) (key : K) (rows : Rows K V) : Rows K V :=
  insert f v key (removeAllForRows [key] rows)

/-- Move the key from the value it had. -/
def update (old new : Option V) (key : K) (rows : Rows K V) : Rows K V :=
  if old = new then rows
  else
    let rows := match old with
      | some v => remove v key rows
      | none => rows
    match new with
    | some v => insert f v key rows
    | none => rows

/-- The update of a put. The document before is given if it could be read. -/
def updateOnPut (key : K) (value : D) (existed : Bool) (old : Option D) (rows : Rows K V) :
    Rows K V :=
  match existed, old with
  | true, some old => update f (f.extract old) (f.extract value) key rows
  | false, _ =>
    match f.extract value with
    | some v => insert f v key rows
    | none => rows
  | true, none =>
    match f.extract value with
    | some v => set f v key rows
    | none => removeAllForRows [key] rows

/-- The update of a delete. -/
def updateOnDelete (key : K) (old : Option D) (rows : Rows K V) : Rows K V :=
  match old with
  | some old =>
    match f.extract old with
    | some v => remove v key rows
    | none => rows
  | none => removeAllForRows [key] rows

/-- The index update of a write. -/
def updateIndices (key : K) (value before : Option D) (readable : Bool) (rows : Rows K V) :
    Rows K V :=
  let old := if readable then before else none
  match value with
  | some value => updateOnPut f key value before.isSome old rows
  | none => updateOnDelete f key old rows

/-- File a key that was read. -/
def fileReading (rows : Rows K V) (r : K × Option D) : Rows K V :=
  match r.2.bind f.extract with
  | some v => insert f v r.1 rows
  | none => rows

/-- File again the keys that were read, all of them taken out before. -/
def replay (readings : List (K × Option D)) (rows : Rows K V) : Rows K V :=
  readings.foldl (fileReading f) (removeAllForRows (readings.map Prod.fst) rows)

/-- The key is filed as its document says, and not otherwise. -/
def Filed (rows : Rows K V) (key : K) (d : Option D) : Prop :=
  ∀ v, key ∈ rows v ↔ f.target d = some v

/-! ### What the updates do -/

variable {f} {rows : Rows K V} {key other : K} {v w : V} {d : Option D}

omit [DecidableEq V] in
theorem mem_removeAllForRows {keys : List K} :
    key ∈ removeAllForRows keys rows v ↔ key ∈ rows v ∧ key ∉ keys := by
  rw [removeAllForRows, List.mem_filter, decide_eq_true_iff]

theorem mem_remove : other ∈ remove w key rows v ↔ other ∈ rows v ∧ ¬(other = key ∧ v = w) := by
  rw [remove, Function.update_apply]
  split_ifs with hv
  · rw [List.mem_filter, decide_eq_true_iff, hv]
    simp
  · simp [hv]

theorem mem_insert :
    other ∈ insert f w key rows v ↔ other ∈ rows v ∨ other = key ∧ v = w ∧ f.rejects w = false := by
  rw [insert]
  split_ifs with hrejects
  · simp [hrejects]
  · rw [Function.update_apply]
    split_ifs with hv
    · rw [List.mem_insert_iff, hv, or_comm]
      simp [hrejects]
    · simp [hv]

omit [DecidableEq K] [DecidableEq V] in
theorem target_eq_some_iff :
    f.target d = some v ↔ d.bind f.extract = some v ∧ f.rejects v = false := by
  rw [Field.target, Option.filter_eq_some_iff, Bool.not_eq_true']

theorem mem_update {old new : Option V} : other ∈ update f old new key rows v ↔
    if other = key ∧ old ≠ new then
      other ∈ rows v ∧ old ≠ some v ∨ new = some v ∧ f.rejects v = false
    else other ∈ rows v := by
  unfold update
  by_cases hsame : old = new
  · rw [if_pos hsame, if_neg fun h => h.2 hsame]
  · rw [if_neg hsame]
    cases old with
    | none =>
      cases new with
      | none => exact absurd rfl hsame
      | some w =>
        dsimp only
        rw [mem_insert]
        grind
    | some u =>
      cases new with
      | none =>
        dsimp only
        rw [mem_remove]
        grind
      | some w =>
        dsimp only
        rw [mem_insert, mem_remove]
        grind

theorem mem_set : other ∈ set f w key rows v ↔
    other ∈ rows v ∧ other ≠ key ∨ other = key ∧ v = w ∧ f.rejects w = false := by
  rw [set, mem_insert, mem_removeAllForRows, List.mem_singleton]

theorem mem_updateOnPut_of_ne {value : D} {existed : Bool} (hne : other ≠ key) :
    other ∈ updateOnPut f key value existed old rows v ↔ other ∈ rows v := by
  unfold updateOnPut
  split
  · rw [mem_update, if_neg fun h => hne h.1]
  · cases f.extract value with
    | none => exact Iff.rfl
    | some w =>
      dsimp only
      rw [mem_insert]
      simp [hne]
  · cases f.extract value with
    | none =>
      dsimp only
      rw [mem_removeAllForRows]
      simp [hne]
    | some w =>
      dsimp only
      rw [mem_set]
      simp [hne]

theorem mem_updateOnDelete_of_ne (hne : other ≠ key) :
    other ∈ updateOnDelete f key old rows v ↔ other ∈ rows v := by
  unfold updateOnDelete
  cases old with
  | none =>
    dsimp only
    rw [mem_removeAllForRows]
    simp [hne]
  | some old =>
    dsimp only
    cases f.extract old with
    | none => exact Iff.rfl
    | some w =>
      dsimp only
      rw [mem_remove]
      simp [hne]

/-- **An index update is of its key only.** -/
theorem mem_updateIndices_of_ne {readable : Bool} (hne : other ≠ key) :
    other ∈ updateIndices f key value before readable rows v ↔ other ∈ rows v := by
  cases value with
  | some value => exact mem_updateOnPut_of_ne hne
  | none => exact mem_updateOnDelete_of_ne hne

theorem filed_updateOnPut {value : D} (hold : old = before ∨ old = none)
    (h : Filed f rows key before ∨ Filed f rows key (some value)) :
    Filed f (updateOnPut f key value before.isSome old rows) key (some value) := by
  intro v
  have hrow : (key ∈ rows v ↔ before.bind f.extract = some v ∧ f.rejects v = false) ∨
      (key ∈ rows v ↔ f.extract value = some v ∧ f.rejects v = false) :=
    h.imp (fun h => (h v).trans target_eq_some_iff) fun h => (h v).trans target_eq_some_iff
  rw [target_eq_some_iff, Option.bind_some]
  unfold updateOnPut
  cases before with
  | none =>
    rw [Option.isSome_none]
    dsimp only
    cases hvalue : f.extract value with
    | none => grind
    | some w =>
      rw [mem_insert]
      grind
  | some b =>
    rw [Option.isSome_some]
    rcases hold with rfl | rfl
    · dsimp only
      rw [mem_update]
      grind
    · dsimp only
      cases hvalue : f.extract value with
      | none =>
        rw [mem_removeAllForRows]
        grind
      | some w =>
        rw [mem_set]
        grind

theorem filed_updateOnDelete (hold : old = before ∨ old = none)
    (h : Filed f rows key before ∨ Filed f rows key none) :
    Filed f (updateOnDelete f key old rows) key none := by
  intro v
  have hrow : (key ∈ rows v ↔ before.bind f.extract = some v ∧ f.rejects v = false) ∨ key ∉ rows v :=
    h.imp (fun h => (h v).trans target_eq_some_iff) fun h hmem => by cases (h v).mp hmem
  have hnone : ¬ f.target none = some v := by nofun
  rw [iff_false_right hnone]
  unfold updateOnDelete
  cases old with
  | none =>
    rw [mem_removeAllForRows]
    simp
  | some old =>
    obtain rfl : before = some old := hold.elim Eq.symm (by nofun)
    rw [Option.bind_some] at hrow
    dsimp only
    cases hvalue : f.extract old with
    | none => grind
    | some w =>
      rw [mem_remove]
      grind

/-- **An index update files its key under the new document**, whether it was filed under the one
before or under the new one already. -/
theorem filed_updateIndices (readable : Bool) (h : Filed f rows key before ∨ Filed f rows key value) :
    Filed f (updateIndices f key value before readable rows) key value := by
  have hold : (if readable then before else none) = before ∨
      (if readable then before else none) = none := by
    cases readable
    · exact Or.inr rfl
    · exact Or.inl rfl
  cases value with
  | some value => exact filed_updateOnPut hold h
  | none => exact filed_updateOnDelete hold h

theorem mem_fileReadings :
    key ∈ readings.foldl (fileReading f) rows v ↔
      key ∈ rows v ∨ ∃ d, (key, d) ∈ readings ∧ f.target d = some v := by
  induction readings generalizing rows with
  | nil => simp
  | cons r readings ih =>
    have hone : key ∈ fileReading f rows r v ↔ key ∈ rows v ∨ key = r.1 ∧ f.target r.2 = some v := by
      unfold fileReading
      rw [target_eq_some_iff]
      cases r.2.bind f.extract with
      | none => simp
      | some w =>
        dsimp only
        rw [mem_insert]
        grind
    rw [List.foldl_cons, ih, hone, or_assoc]
    refine or_congr_right ⟨?_, ?_⟩
    · rintro (⟨rfl, htarget⟩ | ⟨d, hd, htarget⟩)
      · exact ⟨r.2, List.mem_cons_self, htarget⟩
      · exact ⟨d, List.mem_cons_of_mem _ hd, htarget⟩
    · rintro ⟨d, hd, htarget⟩
      rcases List.mem_cons.mp hd with rfl | hd
      · exact Or.inl ⟨rfl, htarget⟩
      · exact Or.inr ⟨d, hd, htarget⟩

/-- **The replay** files the keys that were read, and no other. -/
theorem filed_replay (hnodup : (readings.map Prod.fst).Nodup)
    (h : (key, d) ∈ readings ∨ key ∉ readings.map Prod.fst ∧ Filed f rows key d) :
    Filed f (replay f readings rows) key d := by
  intro v
  rw [replay, mem_fileReadings, mem_removeAllForRows]
  rcases h with hread | ⟨hnot, hfiled⟩
  · have hkey : key ∈ readings.map Prod.fst := List.mem_map.mpr ⟨_, hread, rfl⟩
    refine ⟨fun h => ?_, fun htarget => Or.inr ⟨d, hread, htarget⟩⟩
    obtain ⟨d', hread', htarget⟩ := h.resolve_left fun h => h.2 hkey
    have hsame := List.inj_on_of_nodup_map hnodup hread hread' rfl
    rw [(Prod.mk.inj hsame).2]
    exact htarget
  · refine ⟨fun h => ?_, fun htarget => Or.inl ⟨(hfiled v).mpr htarget, hnot⟩⟩
    refine h.elim (fun h => (hfiled v).mp h.1) fun ⟨d', hread, _⟩ => ?_
    exact absurd (List.mem_map.mpr ⟨_, hread, rfl⟩) hnot

end Rows

/-! ### The system -/

/-- A write between its WAL entry and the end of its index update. -/
structure Writer (K D : Type) where
  key : K
  value : Option D
  /-- Once it is applied: what was there before, and whether the index update can read it. -/
  applied : Option (Option D × Bool)

/-- An activation that has read the WAL tail. -/
structure Activation (K D V : Type) where
  rows : Rows K V
  todo : List K
  readings : List (K × Option D)

structure State (K D V : Type) where
  tail : ℕ
  /-- The WAL entries of the namespace: offset and key. -/
  entries : List (ℕ × K)
  store : K → Option D
  writers : List (Writer K D)
  /-- What the index files have. -/
  files : Rows K V
  activation : Option (Activation K D V)
  /-- The registered index. -/
  index : Option (Rows K V)

/-- What can happen next. -/
inductive Act (K D : Type) where
  | append (key : K) (value : Option D) (size : ℕ)
  | apply (key : K) (readable : Bool)
  | updateIndex (key : K)
  | activate
  | read
  | register

variable {P : Option D → Prop}

section System

variable [LinearOrder K] [DecidableEq V] (f : Field D V)

/-- The keys with an entry that is to be replayed. -/
def State.affected (s : State K D V) : List K :=
  sortDedup ((s.entries.filter fun e => decide (f.replayFrom ≤ e.1 ∧ e.1 < s.tail)).map Prod.snd)

/-- The write of a key that is under way. -/
def State.writer (s : State K D V) (key : K) : Option (Writer K D) :=
  s.writers.find? fun w => decide (w.key = key)

/-- The other writes. -/
def State.others (s : State K D V) (key : K) : List (Writer K D) :=
  s.writers.filter fun w => decide (w.key ≠ key)

/-- One step. -/
def step (s : State K D V) : Act K D → Option (State K D V)
  | .append key value size =>
    match s.writer key with
    | none => some { s with
        tail := s.tail + size + 1
        entries := s.entries ++ [(s.tail, key)]
        writers := ⟨key, value, none⟩ :: s.writers }
    | some _ => none
  | .apply key readable =>
    match s.writer key with
    | some ⟨_, value, none⟩ => some { s with
        store := Function.update s.store key value
        writers := ⟨key, value, some (s.store key, readable)⟩ :: s.others key }
    | _ => none
  | .updateIndex key =>
    match s.writer key with
    | some ⟨_, value, some (before, readable)⟩ => some { s with
        writers := s.others key
        index := s.index.map (updateIndices f key value before readable) }
    | _ => none
  | .activate =>
    match s.activation, s.index with
    | none, none => some { s with activation := some ⟨s.files, s.affected f, []⟩ }
    | _, _ => none
  | .read =>
    match s.activation with
    | some ⟨rows, key :: todo, readings⟩ =>
      some { s with activation := some ⟨rows, todo, readings ++ [(key, s.store key)]⟩ }
    | _ => none
  | .register =>
    match s.activation with
    | some ⟨rows, [], readings⟩ =>
      some { s with activation := none, index := some (replay f readings rows) }
    | _ => none

/-- A database that has been opened: the index files have the keys no entry of which is to be
replayed. -/
structure Opened (s : State K D V) : Prop where
  tail : f.replayFrom ≤ s.tail
  entries : ∀ e ∈ s.entries, e.1 < s.tail
  writers : s.writers = []
  activation : s.activation = none
  index : s.index = none
  files : ∀ key, (∀ e ∈ s.entries, e.2 = key → e.1 < f.replayFrom) → Filed f s.files key (s.store key)

/-- **A write is seen** by an activation that is under way when it comes to its index update: its
key is still to be read, or has been read with the value written. -/
def seen [DecidableEq D] (s : State K D V) : Act K D → Bool
  | .updateIndex key =>
    match s.activation with
    | some a => decide (key ∈ a.todo) || decide ((key, s.store key) ∈ a.readings)
    | none => true
  | _ => true

/-! ### The invariant -/

/-- **In date**: what holds of the current value of the key, or of the value before while the write
of the key has its index update before it. -/
def InDate (s : State K D V) (key : K) (P : Option D → Prop) : Prop :=
  P (s.store key) ∨ ∃ value before readable,
    s.writer key = some ⟨key, value, some (before, readable)⟩ ∧ P before

/-- The key has an entry that is to be replayed. -/
def Logged (s : State K D V) (key : K) : Prop := ∃ e ∈ s.entries, e.2 = key ∧ f.replayFrom ≤ e.1

/-- How far the activation is. -/
inductive Phase (s : State K D V) : Prop
  | waiting (hactivation : s.activation = none) (hindex : s.index = none)
    (hfiles : ∀ key, ¬ Logged f s key → Filed f s.files key (s.store key))
  | catchingUp {a : Activation K D V} (hactivation : s.activation = some a) (hindex : s.index = none)
    (hnodup : (a.readings.map Prod.fst ++ a.todo).Nodup)
    (hkeys : ∀ key, key ∉ a.todo → (∃ d, (key, d) ∈ a.readings ∧ InDate s key fun d' => d' = d) ∨
      key ∉ a.readings.map Prod.fst ∧ InDate s key (Filed f a.rows key))
  | registered {rows : Rows K V} (hactivation : s.activation = none) (hindex : s.index = some rows)
    (hrows : ∀ key, InDate s key (Filed f rows key))

/-- **The invariant.** -/
structure Inv (s : State K D V) : Prop where
  tail : f.replayFrom ≤ s.tail
  entries : ∀ e ∈ s.entries, e.1 < s.tail
  logged : ∀ key w, s.writer key = some w → Logged f s key
  applied : ∀ key value before, s.writer key = some ⟨key, value, some before⟩ → s.store key = value
  phase : Phase f s

variable {f} {s t : State K D V} {key other : K}

omit [DecidableEq V] in
theorem InDate.mono {Q : Option D → Prop} (h : InDate s key P) (hPQ : ∀ d, P d → Q d) :
    InDate s key Q :=
  h.imp (hPQ _) fun ⟨value, before, readable, hwriter, hP⟩ =>
    ⟨value, before, readable, hwriter, hPQ _ hP⟩

omit [DecidableEq V] in
/-- A step that leaves the value of the key and its write. -/
theorem InDate.ofSame (h : InDate s key P) (hstore : t.store key = s.store key)
    (hwriter : t.writer key = s.writer key) : InDate t key P := by
  rw [InDate, hstore, hwriter]
  exact h

omit [DecidableEq V] in
theorem InDate.current (h : InDate s key P)
    (hwriter : ∀ value before, s.writer key ≠ some ⟨key, value, some before⟩) : P (s.store key) :=
  h.resolve_right fun ⟨value, _, _, hw, _⟩ => hwriter value _ hw

section Writers

omit [DecidableEq V]

theorem key_of_writer {w : Writer K D} (h : s.writer key = some w) : w.key = key := by
  have hkey := List.find?_some h
  exact of_decide_eq_true hkey

theorem find?_others_self :
    (s.others key).find? (fun w => decide (w.key = key)) = none := by
  rw [List.find?_eq_none]
  intro w hw hkey
  exact of_decide_eq_true (List.mem_filter.mp hw).2 (of_decide_eq_true hkey)

theorem find?_others_of_ne (hne : other ≠ key) :
    (s.others key).find? (fun w => decide (w.key = other)) = s.writer other := by
  rw [State.others, State.writer, List.find?_filter]
  congr 1
  funext w
  by_cases hw : w.key = other
  · simp [hw, hne]
  · simp [hw]

end Writers

/-! ### Steps -/

omit [DecidableEq V] in
/-- **A write is logged.** -/
theorem Inv.append (h : Inv f s) (hfree : s.writer key = none) (value : Option D) (size : ℕ) :
    Inv f { s with
      tail := s.tail + size + 1
      entries := s.entries ++ [(s.tail, key)]
      writers := ⟨key, value, none⟩ :: s.writers } := by
  set t : State K D V := { s with
    tail := s.tail + size + 1
    entries := s.entries ++ [(s.tail, key)]
    writers := ⟨key, value, none⟩ :: s.writers } with ht
  have hself : t.writer key = some ⟨key, value, none⟩ := List.find?_cons_of_pos (by simp)
  have hother : ∀ other, other ≠ key → t.writer other = s.writer other := by
    intro other hne
    exact List.find?_cons_of_neg (by simpa using hne.symm)
  have hdate : ∀ other P, InDate s other P → InDate t other P := by
    intro other P hP
    by_cases hne : other = key
    · subst hne
      exact Or.inl (hP.current fun _ _ => by rw [hfree]; nofun)
    · exact hP.ofSame rfl (hother other hne)
  have hlogged : ∀ other, Logged f s other → Logged f t other := by
    rintro other ⟨e, he, hkey, hfrom⟩
    exact ⟨e, List.mem_append_left _ he, hkey, hfrom⟩
  have hnew : Logged f t key :=
    ⟨_, List.mem_append_right _ (List.mem_singleton_self _), rfl, h.tail⟩
  have htail : s.tail < t.tail := by
    rw [ht]
    dsimp only
    omega
  refine ⟨h.tail.trans htail.le, fun e he => ?_, fun other w hw => ?_,
    fun other v before hw => ?_, ?_⟩
  · rcases List.mem_append.mp he with he | he
    · exact (h.entries e he).trans htail
    · rw [List.mem_singleton.mp he]
      exact htail
  · by_cases hne : other = key
    · exact hne ▸ hnew
    · rw [hother other hne] at hw
      exact hlogged other (h.logged other w hw)
  · by_cases hne : other = key
    · subst hne
      rw [hself] at hw
      cases hw
    · rw [hother other hne] at hw
      exact h.applied other v before hw
  · cases h.phase with
    | waiting hactivation hindex hfiles =>
      exact .waiting hactivation hindex fun other hnot =>
        hfiles other fun hlog => hnot (hlogged other hlog)
    | catchingUp hactivation hindex hnodup hkeys =>
      refine .catchingUp hactivation hindex hnodup fun other hnot => (hkeys other hnot).imp ?_ ?_
      · exact fun ⟨d, hd, hdated⟩ => ⟨d, hd, hdate other _ hdated⟩
      · exact fun ⟨hread, hdated⟩ => ⟨hread, hdate other _ hdated⟩
    | registered hactivation hindex hrows =>
      exact .registered hactivation hindex fun other => hdate other _ (hrows other)

omit [DecidableEq V] in
/-- **A write is applied.** -/
theorem Inv.apply (h : Inv f s) (hwriter : s.writer key = some ⟨key, value, none⟩) (readable : Bool) :
    Inv f { s with
      store := Function.update s.store key value
      writers := ⟨key, value, some (s.store key, readable)⟩ :: s.others key } := by
  set t : State K D V := { s with
    store := Function.update s.store key value
    writers := ⟨key, value, some (s.store key, readable)⟩ :: s.others key } with ht
  have hself : t.writer key = some ⟨key, value, some (s.store key, readable)⟩ :=
    List.find?_cons_of_pos (by simp)
  have hother : ∀ other, other ≠ key → t.writer other = s.writer other := by
    intro other hne
    refine (List.find?_cons_of_neg ?_).trans (find?_others_of_ne hne)
    simpa using hne.symm
  have hstore : ∀ other, other ≠ key → t.store other = s.store other :=
    fun other hne => Function.update_of_ne hne _ _
  have hdate : ∀ other P, InDate s other P → InDate t other P := by
    intro other P hP
    by_cases hne : other = key
    · subst hne
      refine Or.inr ⟨value, s.store other, readable, hself, hP.current fun _ _ => ?_⟩
      rw [hwriter]
      nofun
    · exact hP.ofSame (hstore other hne) (hother other hne)
  refine ⟨h.tail, h.entries, fun other w hw => ?_, fun other v before hw => ?_, ?_⟩
  · by_cases hne : other = key
    · exact hne ▸ h.logged key _ hwriter
    · rw [hother other hne] at hw
      exact h.logged other w hw
  · by_cases hne : other = key
    · subst hne
      rw [hself] at hw
      cases hw
      exact Function.update_self _ _ _
    · rw [hother other hne] at hw
      rw [hstore other hne]
      exact h.applied other v before hw
  · cases h.phase with
    | waiting hactivation hindex hfiles =>
      refine .waiting hactivation hindex fun other hnot => ?_
      have hne : other ≠ key := by
        rintro rfl
        exact hnot (h.logged other _ hwriter)
      rw [hstore other hne]
      exact hfiles other hnot
    | catchingUp hactivation hindex hnodup hkeys =>
      refine .catchingUp hactivation hindex hnodup fun other hnot => (hkeys other hnot).imp ?_ ?_
      · exact fun ⟨d, hd, hdated⟩ => ⟨d, hd, hdate other _ hdated⟩
      · exact fun ⟨hread, hdated⟩ => ⟨hread, hdate other _ hdated⟩
    | registered hactivation hindex hrows =>
      exact .registered hactivation hindex fun other => hdate other _ (hrows other)

/-- **An index update.** The registered index is updated; without one the activation has to see the
write. -/
theorem Inv.updateIndex [DecidableEq D] (h : Inv f s) {readable : Bool}
    (hwriter : s.writer key = some ⟨key, value, some (before, readable)⟩)
    (hseen : seen s (.updateIndex key) = true) :
    Inv f { s with
      writers := s.others key
      index := s.index.map (updateIndices f key value before readable) } := by
  set t : State K D V := { s with
    writers := s.others key
    index := s.index.map (updateIndices f key value before readable) } with ht
  have hself : t.writer key = none := find?_others_self
  have hother : ∀ other, other ≠ key → t.writer other = s.writer other :=
    fun other hne => find?_others_of_ne hne
  have hdate : ∀ other, other ≠ key → ∀ P, InDate s other P → InDate t other P :=
    fun other hne P hP => hP.ofSame rfl (hother other hne)
  have hvalue : s.store key = value := h.applied key value _ hwriter
  refine ⟨h.tail, h.entries, fun other w hw => ?_, fun other v b hw => ?_, ?_⟩
  · by_cases hne : other = key
    · rw [hne, hself] at hw
      cases hw
    · rw [hother other hne] at hw
      exact h.logged other w hw
  · by_cases hne : other = key
    · rw [hne, hself] at hw
      cases hw
    · rw [hother other hne] at hw
      exact h.applied other v b hw
  · cases h.phase with
    | waiting hactivation hindex hfiles =>
      exact .waiting hactivation (by rw [ht, hindex]; rfl) hfiles
    | @catchingUp a hactivation hindex hnodup hkeys =>
      refine .catchingUp hactivation (by rw [ht, hindex]; rfl) hnodup fun other hnot => ?_
      by_cases hne : other = key
      · subst hne
        rw [seen, hactivation] at hseen
        have hread := ((Bool.or_eq_true _ _).mp hseen).resolve_left fun hmem =>
          hnot (of_decide_eq_true hmem)
        exact Or.inl ⟨s.store other, of_decide_eq_true hread, Or.inl rfl⟩
      · refine (hkeys other hnot).imp ?_ ?_
        · exact fun ⟨d, hd, hdated⟩ => ⟨d, hd, hdate other hne _ hdated⟩
        · exact fun ⟨hread, hdated⟩ => ⟨hread, hdate other hne _ hdated⟩
    | @registered rows hactivation hindex hrows =>
      refine .registered hactivation (congrArg (Option.map _) hindex) fun other => ?_
      by_cases hne : other = key
      · subst hne
        refine Or.inl ?_
        change Filed f _ other (s.store other)
        rw [hvalue]
        refine filed_updateIndices readable ?_
        rcases hrows other with hnow | ⟨v, b, r, hw, hbefore⟩
        · exact Or.inr (hvalue ▸ hnow)
        · rw [hwriter] at hw
          cases hw
          exact Or.inl hbefore
      · refine hdate other hne _ ((hrows other).mono fun d hd v => ?_)
        rw [mem_updateIndices_of_ne hne]
        exact hd v

omit [DecidableEq V] in
/-- **The tail is read.** A key whose entries are all below the start of the replay is filed in the
index files. -/
theorem Inv.activate (h : Inv f s) (hactivation : s.activation = none) (hindex : s.index = none) :
    Inv f { s with activation := some ⟨s.files, s.affected f, []⟩ } := by
  refine ⟨h.tail, h.entries, h.logged, h.applied, ?_⟩
  cases h.phase with
  | waiting _ _ hfiles =>
    refine .catchingUp rfl hindex (nodup_sortDedup _) fun key hnot => Or.inr ⟨List.not_mem_nil, ?_⟩
    refine Or.inl (hfiles key fun hlogged => hnot ?_)
    obtain ⟨e, he, hkey, hfrom⟩ := hlogged
    refine mem_sortDedup.mpr (List.mem_map.mpr ⟨e, List.mem_filter.mpr ⟨he, ?_⟩, hkey⟩)
    exact decide_eq_true ⟨hfrom, h.entries e he⟩
  | catchingUp hother => rw [hactivation] at hother; cases hother
  | registered _ hother => rw [hindex] at hother; cases hother

omit [DecidableEq V] in
/-- **A key is read.** -/
theorem Inv.read (h : Inv f s) {rows : Rows K V} {todo : List K}
    (hactivation : s.activation = some ⟨rows, key :: todo, readings⟩) :
    Inv f { s with activation := some ⟨rows, todo, readings ++ [(key, s.store key)]⟩ } := by
  refine ⟨h.tail, h.entries, h.logged, h.applied, ?_⟩
  cases h.phase with
  | waiting hother | registered hother => rw [hactivation] at hother; cases hother
  | catchingUp hother hindex hnodup hkeys =>
    rw [hactivation] at hother
    obtain rfl := Option.some.inj hother
    refine .catchingUp rfl hindex ?_ fun other hnot => ?_
    · rw [List.map_append, List.append_assoc]
      exact hnodup
    · by_cases hne : other = key
      · subst hne
        exact Or.inl ⟨s.store other, List.mem_append_right _ (List.mem_singleton_self _), Or.inl rfl⟩
      · refine (hkeys other fun hmem => ?_).imp ?_ ?_
        · exact (List.mem_cons.mp hmem).elim hne hnot
        · exact fun ⟨d, hd, hdated⟩ => ⟨d, List.mem_append_left _ hd, hdated⟩
        · refine fun ⟨hread, hdated⟩ => ⟨fun hmem => ?_, hdated⟩
          rw [List.map_append, List.mem_append] at hmem
          exact hmem.elim hread fun hmem => hne (List.mem_singleton.mp hmem)

/-- **The index is registered.** -/
theorem Inv.register (h : Inv f s) {rows : Rows K V}
    (hactivation : s.activation = some ⟨rows, [], readings⟩) :
    Inv f { s with activation := none, index := some (replay f readings rows) } := by
  refine ⟨h.tail, h.entries, h.logged, h.applied, ?_⟩
  cases h.phase with
  | waiting hother | registered hother => rw [hactivation] at hother; cases hother
  | catchingUp hother hindex hnodup hkeys =>
    rw [hactivation] at hother
    obtain rfl := Option.some.inj hother
    rw [List.append_nil] at hnodup
    refine .registered rfl rfl fun key => ?_
    rcases hkeys key List.not_mem_nil with ⟨d, hd, hdated⟩ | ⟨hread, hdated⟩
    · have hfiled : InDate s key (Filed f (replay f readings rows) key) :=
        hdated.mono fun d' hd' => filed_replay hnodup (Or.inl (hd' ▸ hd))
      exact hfiled.ofSame rfl rfl
    · have hfiled : InDate s key (Filed f (replay f readings rows) key) :=
        hdated.mono fun d' hd' => filed_replay hnodup (Or.inr ⟨hread, hd'⟩)
      exact hfiled.ofSame rfl rfl

/-- **One step.** -/
theorem Inv.step [DecidableEq D] (h : Inv f s) {a : Act K D} (hseen : seen s a = true)
    (hst : step f s a = some t) : Inv f t := by
  cases a with
  | append key value size =>
    simp only [IndexActivation.step] at hst
    split at hst
    · rename_i hfree
      obtain rfl := Option.some.inj hst
      exact h.append hfree value size
    · cases hst
  | apply key readable =>
    simp only [IndexActivation.step] at hst
    split at hst
    · rename_i key' value hwriter
      obtain rfl : key' = key := key_of_writer hwriter
      obtain rfl := Option.some.inj hst
      exact h.apply hwriter readable
    · cases hst
  | updateIndex key =>
    simp only [IndexActivation.step] at hst
    split at hst
    · rename_i key' value before readable hwriter
      obtain rfl : key' = key := key_of_writer hwriter
      obtain rfl := Option.some.inj hst
      exact h.updateIndex hwriter hseen
    · cases hst
  | activate =>
    simp only [IndexActivation.step] at hst
    split at hst
    · rename_i hactivation hindex
      obtain rfl := Option.some.inj hst
      exact h.activate hactivation hindex
    · cases hst
  | read =>
    simp only [IndexActivation.step] at hst
    split at hst
    · rename_i hactivation
      obtain rfl := Option.some.inj hst
      exact h.read hactivation
    · cases hst
  | register =>
    simp only [IndexActivation.step] at hst
    split at hst
    · rename_i hactivation
      obtain rfl := Option.some.inj hst
      exact h.register hactivation
    · cases hst

omit [DecidableEq V] in
theorem Opened.inv (h : Opened f s) : Inv f s := by
  have hfree : ∀ key, s.writer key = none := by
    intro key
    rw [State.writer, h.writers]
    rfl
  refine ⟨h.tail, h.entries, fun key w hw => ?_, fun key value before hw => ?_, ?_⟩
  · rw [hfree key] at hw
    cases hw
  · rw [hfree key] at hw
    cases hw
  · refine .waiting h.activation h.index fun key hnot => h.files key fun e he hkey => ?_
    by_contra hle
    exact hnot ⟨e, he, hkey, Nat.le_of_not_lt hle⟩

/-- **Activation misses no write** if it sees every write that comes to its index update before the
index is registered: for a key that is not being written the index then has what its value gives,
and nothing else. -/
theorem activated_exact [DecidableEq D] (f : Field D V) {s t : State K D V} (hopened : Opened f s)
    {as : List (Act K D)} (hseen : StepRun.along (step f) seen s as = true)
    (hrun : StepRun.run (step f) s as = some t) {rows : Rows K V} (hrows : t.index = some rows)
    {key : K} (hdone : t.writer key = none) (v : V) :
    key ∈ rows v ↔ f.target (t.store key) = some v := by
  have hinv : Inv f t :=
    StepRun.invariant_along (fun _ _ _ hs hc hst => hs.step hc hst) hopened.inv hseen hrun
  cases hinv.phase with
  | waiting _ hother => rw [hrows] at hother; cases hother
  | catchingUp _ hother => rw [hrows] at hother; cases hother
  | registered _ hindex hdated =>
    rw [hrows] at hindex
    obtain rfl := Option.some.inj hindex
    exact (hdated key).current (fun _ _ => by rw [hdone]; nofun) v

end System

/-! ### Examples of runs -/

/-- An index of numbers that rejects nine. -/
private def numbers : Field ℕ ℕ := ⟨some, fun v => decide (v = 9), 3, 0⟩

/-- One key is filed in the index files, the entry of the other is to be replayed. -/
private def opened : State ℕ ℕ ℕ where
  tail := 5
  entries := [(1, 7), (3, 8)]
  store := fun key => if key = 7 then some 70 else if key = 8 then some 80 else none
  writers := []
  files := fun v => if v = 70 then [7] else []
  activation := none
  index := none

private theorem opened_opened : Opened numbers opened := by
  refine ⟨by decide, by decide, rfl, rfl, rfl, fun key hbelow v => ?_⟩
  have hkey : key ≠ 8 := by
    rintro rfl
    exact absurd (hbelow (3, 8) (by decide) rfl) (by decide)
  rw [target_eq_some_iff]
  by_cases hseven : key = 7
  · subst hseven
    by_cases hv : v = 70
    · subst hv
      decide
    · simp [opened, numbers, hv, Ne.symm hv]
  · by_cases hv : v = 70 <;> simp [opened, numbers, hkey, hseven, hv]

/-- Writes begin before the activation and while it reads, and go on after it. -/
private def caughtUp : List (Act ℕ ℕ) :=
  [.append 7 (some 71) 0, .activate, .apply 7 true, .read, .append 8 (some 81) 2, .read,
    .updateIndex 7, .register, .apply 8 false, .updateIndex 8, .append 4 (some 9) 1, .apply 4 true,
    .updateIndex 4]

theorem activated_caughtUp : ∃ t rows, StepRun.run (step numbers) opened caughtUp = some t ∧
    t.index = some rows ∧ 7 ∈ rows 71 ∧ 8 ∈ rows 81 ∧ 4 ∉ rows 9 := by
  have hseen : StepRun.along (step numbers) seen opened caughtUp = true := by decide +kernel
  have hend : (StepRun.run (step numbers) opened caughtUp).map (fun t => (t.index.isSome,
      t.writers.length, [t.store 7, t.store 8, t.store 4])) =
        some (true, 0, [some 71, some 81, some 9]) := by decide +kernel
  obtain ⟨t, hrun, ht⟩ := Option.map_eq_some_iff.mp hend
  obtain ⟨hindex, ht⟩ := Prod.mk.inj ht
  obtain ⟨hwriters, hstore⟩ := Prod.mk.inj ht
  obtain ⟨rows, hrows⟩ := Option.isSome_iff_exists.mp hindex
  have hfree : ∀ key, t.writer key = none := by
    intro key
    rw [State.writer, List.length_eq_zero_iff.mp hwriters]
    rfl
  have hexact := fun key v => activated_exact numbers opened_opened hseen hrun hrows (hfree key) v
  obtain ⟨hseven, height, hfour⟩ : t.store 7 = some 71 ∧ t.store 8 = some 81 ∧ t.store 4 = some 9 := by
    simpa using hstore
  refine ⟨t, rows, hrun, hrows, (hexact 7 71).mpr ?_, (hexact 8 81).mpr ?_, fun hmem => ?_⟩
  · rw [hseven]
    decide
  · rw [height]
    decide
  · have hrejected := (hexact 4 9).mp hmem
    rw [hfour] at hrejected
    revert hrejected
    decide

/-- A write is logged, applied and done between the tail and the registration. -/
private def missed : List (Act ℕ ℕ) :=
  [.activate, .append 4 (some 5) 0, .apply 4 true, .updateIndex 4, .read, .register]

/-- **A write between the tail and the registration is left out.** -/
theorem not_activated_missed :
    ¬ ∀ (f : Field ℕ ℕ) (s t : State ℕ ℕ ℕ) (as : List (Act ℕ ℕ)) (rows : Rows ℕ ℕ),
      Opened f s → StepRun.run (step f) s as = some t → t.index = some rows → t.writers = [] →
        ∀ key v, key ∈ rows v ↔ f.target (t.store key) = some v := by
  intro hall
  have hend : (StepRun.run (step numbers) opened missed).map (fun t =>
      (t.index.map fun rows => rows 5, t.writers.length, t.store 4)) =
        some (some [], 0, some 5) := by decide +kernel
  obtain ⟨t, hrun, ht⟩ := Option.map_eq_some_iff.mp hend
  obtain ⟨hindex, ht⟩ := Prod.mk.inj ht
  obtain ⟨hwriters, hstore⟩ := Prod.mk.inj ht
  obtain ⟨rows, hrows, hnone⟩ := Option.map_eq_some_iff.mp hindex
  have hmem := hall numbers opened t missed rows opened_opened hrun hrows
    (List.length_eq_zero_iff.mp hwriters) 4 5
  rw [hnone, hstore] at hmem
  exact absurd (hmem.mpr (by decide)) List.not_mem_nil

end IndexActivation

end Minnal
