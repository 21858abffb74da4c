import Minnal.Lsm.SkipArena

/-!
# Runs of the skip list

A write either settles the record of its key or, an arena being full, changes nothing a reader
sees. Over a run the record of a key is the fold of the accepted writes to it: the one of
**highest sequence** stays, the later one on a tie. The list iterates in key order, its counters
count what it iterates over, and the dump made when a memtable is sealed has a record for every
key but the empty one, which it takes for the sentinel.
-/

set_option linter.dupNamespace false

namespace Minnal

open SortedMap LinkedTiers

/-! ### Writes as operations -/

/-- A write with its sequence. -/
inductive SkipOp where
  | insert (key : Key) (value seq : ℕ)
  | tombstone (key : Key) (seq : ℕ)
  deriving DecidableEq, Repr

namespace SkipOp

def key : SkipOp → Key
  | insert key _ _ => key
  | tombstone key _ => key

def seq : SkipOp → ℕ
  | insert _ _ seq => seq
  | tombstone _ seq => seq

/-- The record a write leaves where the value bits were `old`. -/
def record : SkipOp → ℕ → KeyValueRecord
  | insert key value seq, _ => ⟨key, value, false, seq⟩
  | tombstone key seq, old => ⟨key, old, true, seq⟩

/-- What stands at the key after the write. -/
def settle (op : SkipOp) : Option KeyValueRecord → KeyValueRecord
  | none => op.record 0
  | some r => if op.seq < r.seq then r else op.record r.value

/-- Make the write; whether it is accepted. -/
def apply (op : SkipOp) (s : SkipArena) : SkipArena × Bool :=
  match op with
  | insert key value seq =>
    let r := s.tryInsertWithSeq key value seq
    (r.1, r.2.isOk)
  | tombstone key seq =>
    let r := s.insertTombstoneWithSeq key seq
    (r.1, r.2.isOk)

/-- Of two writes to a key, the one of highest sequence, the later one on a tie. -/
def keep (best : Option SkipOp) (op : SkipOp) : Option SkipOp :=
  match best with
  | none => some op
  | some b => if b.seq ≤ op.seq then some op else some b

/-- The write that decides a key. -/
def winner (key : Key) (ops : List SkipOp) : Option SkipOp :=
  (ops.filter fun op => decide (op.key = key)).foldl keep none

/-- The entry a deciding write leaves; the value bits of a tombstone mean nothing. -/
def Decides : Option SkipOp → Option (ℕ × ℕ × Bool) → Prop
  | none, e => e = none
  | some (insert _ value seq), e => e = some (value, seq, false)
  | some (tombstone _ seq), e => ∃ value, e = some (value, seq, true)

theorem keepsKey_settle (op : SkipOp) : KeepsKey KeyValueRecord.key op.key op.settle := by
  intro o ho
  have hrecord : ∀ old, (op.record old).key = op.key := fun old => by cases op <;> rfl
  cases o with
  | none => exact hrecord 0
  | some r =>
    rw [settle]
    split_ifs
    · exact ho r rfl
    · exact hrecord r.value

end SkipOp

namespace SkipArena

variable {s : SkipArena} {records : List KeyValueRecord}

/-- Make the writes in order; the accepted ones. -/
def run (s : SkipArena) : List SkipOp → SkipArena × List SkipOp
  | [] => (s, [])
  | op :: ops =>
    let step := op.apply s
    let rest := run step.1 ops
    (rest.1, if step.2 then op :: rest.2 else rest.2)

/-- The arenas hold the records, and the counters count them. -/
structure Represents (s : SkipArena) (records : List KeyValueRecord) : Prop where
  holds : s.Holds records
  live : s.noLiveNodes = records.countP fun r => !r.tombstone
  tombstones : s.noTombstoneNodes = records.countP fun r => r.tombstone

theorem represents_withCapacity (maxCapacity : ℕ) (rng : ℕ → Fin maxLevel) :
    (withCapacity maxCapacity rng).Represents [] :=
  ⟨⟨[], layout_withCapacity maxCapacity rng, tiers_withCapacity maxCapacity rng, rfl⟩, rfl, rfl⟩

/-- Counters are no part of what is held. -/
theorem Holds.counters (h : s.Holds records) (live tombstones : ℕ) :
    ({ s with noLiveNodes := live, noTombstoneNodes := tombstones } : SkipArena).Holds records := by
  obtain ⟨base, hlayout, htiers, hrecords⟩ := h
  have hsame : SameTowers s { s with noLiveNodes := live, noTombstoneNodes := tombstones } :=
    ⟨fun _ => rfl, rfl, List.prefix_rfl, hlayout.links_lt, rfl, rfl, rfl⟩
  exact ⟨base, hsame.layout hlayout, hsame.tiers hlayout htiers, hrecords⟩

private theorem countP_middle (p : KeyValueRecord → Bool) (front back : List KeyValueRecord)
    (r : KeyValueRecord) :
    (front ++ r :: back).countP p = (front ++ back).countP p + (p r).toNat := by
  rw [List.countP_append, List.countP_cons, List.countP_append]
  cases p r <;> simp [Nat.add_assoc]

variable {front back : List KeyValueRecord} {new : KeyValueRecord} {s' : SkipArena}

/-- A record in the place of another one. -/
theorem Represents.replace {old : KeyValueRecord} (h : s.Represents (front ++ old :: back))
    (hholds : s'.Holds (front ++ new :: back))
    (hlive : s'.noLiveNodes = s.noLiveNodes + (!new.tombstone).toNat - (!old.tombstone).toNat)
    (htomb : s'.noTombstoneNodes =
      s.noTombstoneNodes + new.tombstone.toNat - old.tombstone.toNat) :
    s'.Represents (front ++ new :: back) := by
  have hcounted := h.live
  have hcounted' := h.tombstones
  rw [countP_middle] at hcounted hcounted'
  refine ⟨hholds, ?_, ?_⟩
  · rw [countP_middle]
    omega
  · rw [countP_middle]
    omega

/-- A record more. -/
theorem Represents.add (h : s.Represents (front ++ back)) (hholds : s'.Holds (front ++ new :: back))
    (hlive : s'.noLiveNodes = s.noLiveNodes + (!new.tombstone).toNat)
    (htomb : s'.noTombstoneNodes = s.noTombstoneNodes + new.tombstone.toNat) :
    s'.Represents (front ++ new :: back) := by
  refine ⟨hholds, ?_, ?_⟩
  · rw [countP_middle, hlive, h.live]
  · rw [countP_middle, htomb, h.tombstones]

/-- **Insert.** -/
theorem Represents.tryInsertWithSeq (h : s.Represents records) (key : Key) (value seq : ℕ) :
    ∃ s' res, s.tryInsertWithSeq key value seq = (s', res) ∧
      ((∃ err, res = .error err ∧ s'.Represents records) ∨ (∃ o, res = .ok o) ∧
        s'.Represents (upsertBy KeyValueRecord.key key
          (SkipOp.insert key value seq).settle records)) := by
  rw [SkipArena.tryInsertWithSeq]
  cases hpath : s.findPath key with
  | mk found update =>
    have hfst : (s.findPath key).1 = found := by rw [hpath]
    have hsnd : (s.findPath key).2 = update := by rw [hpath]
    cases found with
    | some i =>
      obtain ⟨front, back, rfl, hfront, hkey, hmodify⟩ := h.holds.found hfst
      have hupsert : upsertBy KeyValueRecord.key key (SkipOp.insert key value seq).settle
          (front ++ s.record i :: back) = front ++ (if seq < (s.node i).sequence then s.record i
            else ⟨key, value, false, seq⟩) :: back := by
        rw [upsertBy_append_of_lt hfront, upsertBy_cons_of_eq hkey]
        rfl
      have hdead : (s.record i).tombstone = (s.node i).tombstone := rfl
      rw [hupsert]
      by_cases hstale : seq < (s.node i).sequence
      · refine ⟨s, .ok none, ?_, .inr ⟨⟨none, rfl⟩, ?_⟩⟩
        · simp [seqNewerOrEq, hstale]
        · rwa [if_pos hstale]
      · have hholds := hmodify
          (fun n => { n with value := value, tombstone := false, sequence := seq }) rfl
        rw [if_neg hstale]
        simp only [seqNewerOrEq, not_lt.mp hstale, decide_true, Bool.true_eq_false, if_false]
        cases hnode : (s.node i).tombstone with
        | true =>
          refine ⟨_, _, rfl, .inr ⟨⟨none, rfl⟩, h.replace (hholds.counters _ _) ?_ ?_⟩⟩
          · rw [hdead, hnode]
            rfl
          · rw [hdead, hnode]
            rfl
        | false =>
          refine ⟨_, _, rfl, .inr ⟨⟨_, rfl⟩, h.replace hholds ?_ ?_⟩⟩
          · rw [hdead, hnode]
            rfl
          · rw [hdead, hnode]
            rfl
    | none =>
      obtain ⟨s', res, hsplice, hlive, htomb, hres⟩ := h.holds.splice hfst value false seq
      rw [hsnd] at hsplice
      simp only [hsplice]
      obtain ⟨err, rfl, hholds⟩ | ⟨rfl, front, back, rfl, hfront, hback, hholds⟩ := hres
      · exact ⟨s', _, rfl, .inl ⟨err, rfl, hholds, hlive.trans h.live, htomb.trans h.tombstones⟩⟩
      · rw [upsertBy_append_of_lt hfront, upsertBy_of_gt hback]
        refine ⟨_, _, rfl, .inr ⟨⟨none, rfl⟩, h.add (hholds.counters _ _) ?_ ?_⟩⟩
        · simp only [hlive]
          rfl
        · simp only [htomb]
          rfl

/-- **Delete.** -/
theorem Represents.insertTombstoneWithSeq (h : s.Represents records) (key : Key) (seq : ℕ) :
    ∃ s' res, s.insertTombstoneWithSeq key seq = (s', res) ∧
      ((∃ err, res = .error err ∧ s'.Represents records) ∨ res = .ok () ∧
        s'.Represents (upsertBy KeyValueRecord.key key
          (SkipOp.tombstone key seq).settle records)) := by
  rw [SkipArena.insertTombstoneWithSeq]
  cases hpath : s.findPath key with
  | mk found update =>
    have hfst : (s.findPath key).1 = found := by rw [hpath]
    have hsnd : (s.findPath key).2 = update := by rw [hpath]
    cases found with
    | some i =>
      obtain ⟨front, back, rfl, hfront, hkey, hmodify⟩ := h.holds.found hfst
      have hupsert : upsertBy KeyValueRecord.key key (SkipOp.tombstone key seq).settle
          (front ++ s.record i :: back) = front ++ (if seq < (s.node i).sequence then s.record i
            else ⟨key, (s.node i).value, true, seq⟩) :: back := by
        rw [upsertBy_append_of_lt hfront, upsertBy_cons_of_eq hkey]
        rfl
      have hdead : (s.record i).tombstone = (s.node i).tombstone := rfl
      rw [hupsert]
      by_cases hstale : seq < (s.node i).sequence
      · refine ⟨s, .ok (), ?_, .inr ⟨rfl, ?_⟩⟩
        · simp [seqNewerOrEq, hstale]
        · rwa [if_pos hstale]
      · have hholds := hmodify (fun n => { n with tombstone := true, sequence := seq }) rfl
        rw [if_neg hstale]
        simp only [seqNewerOrEq, not_lt.mp hstale, decide_true, Bool.true_eq_false, if_false]
        cases hnode : (s.node i).tombstone with
        | true =>
          refine ⟨_, _, rfl, .inr ⟨rfl, h.replace hholds ?_ ?_⟩⟩
          · rw [hdead, hnode]
            rfl
          · rw [hdead, hnode]
            rfl
        | false =>
          refine ⟨_, _, rfl, .inr ⟨rfl, h.replace (hholds.counters _ _) ?_ ?_⟩⟩
          · rw [hdead, hnode]
            rfl
          · rw [hdead, hnode]
            rfl
    | none =>
      obtain ⟨s', res, hsplice, hlive, htomb, hres⟩ := h.holds.splice hfst 0 true seq
      rw [hsnd] at hsplice
      simp only [hsplice]
      obtain ⟨err, rfl, hholds⟩ | ⟨rfl, front, back, rfl, hfront, hback, hholds⟩ := hres
      · exact ⟨s', _, rfl, .inl ⟨err, rfl, hholds, hlive.trans h.live, htomb.trans h.tombstones⟩⟩
      · rw [upsertBy_append_of_lt hfront, upsertBy_of_gt hback]
        refine ⟨_, _, rfl, .inr ⟨rfl, h.add (hholds.counters _ _) ?_ ?_⟩⟩
        · simp only [hlive]
          rfl
        · simp only [htomb]
          rfl

/-! ### Runs -/

/-- The records with a write settled among them. -/
def put (records : List KeyValueRecord) (op : SkipOp) : List KeyValueRecord :=
  upsertBy KeyValueRecord.key op.key op.settle records

/-- One write. -/
theorem Represents.apply (h : s.Represents records) (op : SkipOp) :
    (op.apply s).1.Represents (if (op.apply s).2 then put records op else records) := by
  cases op with
  | insert key value seq =>
    obtain ⟨s', res, hres, ⟨err, rfl, hs'⟩ | ⟨⟨o, rfl⟩, hs'⟩⟩ := h.tryInsertWithSeq key value seq
    · rw [SkipOp.apply, hres]
      exact hs'
    · rw [SkipOp.apply, hres]
      exact hs'
  | tombstone key seq =>
    obtain ⟨s', res, hres, ⟨err, rfl, hs'⟩ | ⟨rfl, hs'⟩⟩ := h.insertTombstoneWithSeq key seq
    · rw [SkipOp.apply, hres]
      exact hs'
    · rw [SkipOp.apply, hres]
      exact hs'

/-- **A run** leaves the records of its accepted writes. -/
theorem Represents.run (h : s.Represents records) (ops : List SkipOp) :
    (s.run ops).1.Represents ((s.run ops).2.foldl put records) := by
  induction ops generalizing s records with
  | nil => exact h
  | cons op ops ih =>
    have hstep := ih (h.apply op)
    rw [SkipArena.run]
    simp only
    cases hok : (op.apply s).2 with
    | true => simpa [hok] using hstep
    | false => simpa [hok] using hstep

/-- What is found at a key after the writes: they settle there one after another. -/
theorem findBy_foldl_put (h : Ascending KeyValueRecord.key records) (key : Key)
    (ops : List SkipOp) : findBy KeyValueRecord.key key (ops.foldl put records) =
      (ops.filter fun op => decide (op.key = key)).foldl (fun o op => some (op.settle o))
        (findBy KeyValueRecord.key key records) := by
  induction ops generalizing records with
  | nil => rfl
  | cons op ops ih =>
    have hput : Ascending KeyValueRecord.key (put records op) := h.upsertBy op.keepsKey_settle
    rw [List.foldl_cons, ih hput, put, findBy_upsertBy op.keepsKey_settle h]
    by_cases hkey : op.key = key
    · subst hkey
      rw [if_pos rfl, List.filter_cons_of_pos (by simp), List.foldl_cons]
    · rw [if_neg (Ne.symm hkey), List.filter_cons_of_neg (by simpa using hkey)]

/-- What a record shows a reader. -/
def raw (r : KeyValueRecord) : ℕ × ℕ × Bool := (r.value, r.seq, r.tombstone)

/-- The writes to a key settle what the deciding one leaves. -/
theorem decides_foldl_settle {best : Option SkipOp} {o : Option KeyValueRecord}
    (h : SkipOp.Decides best (o.map raw)) (ops : List SkipOp) :
    SkipOp.Decides (ops.foldl SkipOp.keep best)
      ((ops.foldl (fun o op => some (SkipOp.settle op o)) o).map raw) := by
  induction ops generalizing best o with
  | nil => exact h
  | cons op ops ih =>
    rw [List.foldl_cons, List.foldl_cons]
    refine ih ?_
    have hrecord : ∀ old, SkipOp.Decides (some op) (some (raw (op.record old))) := by
      intro old
      cases op with
      | insert key value seq => rfl
      | tombstone key seq => exact ⟨old, rfl⟩
    cases best with
    | none =>
      have hnone : o = none := Option.map_eq_none_iff.mp h
      rw [hnone]
      exact hrecord 0
    | some b =>
      obtain ⟨r, rfl, hseq⟩ : ∃ r, o = some r ∧ r.seq = b.seq := by
        cases b with
        | insert key value seq =>
          obtain ⟨r, rfl, hr⟩ := Option.map_eq_some_iff.mp h
          exact ⟨r, rfl, congrArg (fun x => x.2.1) hr⟩
        | tombstone key seq =>
          obtain ⟨value, hvalue⟩ := h
          obtain ⟨r, rfl, hr⟩ := Option.map_eq_some_iff.mp hvalue
          exact ⟨r, rfl, congrArg (fun x => x.2.1) hr⟩
      rw [SkipOp.keep, SkipOp.settle, hseq]
      by_cases hstale : op.seq < b.seq
      · rw [if_neg (not_le.mpr hstale), if_pos hstale]
        exact h
      · rw [if_pos (not_lt.mp hstale), if_neg hstale]
        exact hrecord r.value

/-! ### Room in the arenas -/

theorem length_linkAll (new : ℕ) (update : ℕ → ℕ) (l : List ℕ) (s : SkipArena) :
    (l.foldl (linkAt new update) s).links.length = s.links.length ∧
      (l.foldl (linkAt new update) s).keys = s.keys := by
  induction l generalizing s with
  | nil => exact ⟨rfl, rfl⟩
  | cons lvl l ih =>
    obtain ⟨hlinks, hkeys⟩ := ih (linkAt new update s lvl)
    exact ⟨hlinks.trans (by simp [linkAt, setNext]), hkeys⟩

/-- What a new node takes of the arenas at most; with room for it, it is allocated. -/
theorem room_spliceNewNode (s : SkipArena) (key : Key) (value : ℕ) (tombstone : Bool) (seq : ℕ)
    (update : ℕ → ℕ) : ∃ s' res, s.spliceNewNode key value tombstone seq update = (s', res) ∧
      s'.links.length ≤ s.links.length + maxLevel ∧ s'.keys.length ≤ s.keys.length + key.length ∧
      (s.links.length + maxLevel < u32Max → s.keys.length + key.length < u32Max →
        res = .ok ()) := by
  have hheight := (s.rng 0).2
  rw [spliceNewNode]
  simp only [allocateNode]
  by_cases hlinks : u32Max ≤ s.links.length + ((s.rng 0 : ℕ) + 1)
  · rw [if_pos hlinks]
    exact ⟨_, _, rfl, Nat.le_add_right _ _, Nat.le_add_right _ _, by omega⟩
  · rw [if_neg hlinks]
    by_cases hkeys : u32Max ≤ s.keys.length + key.length
    · rw [if_pos hkeys]
      refine ⟨_, _, rfl, ?_, Nat.le_add_right _ _, by omega⟩
      simp only [List.length_append, List.length_replicate]
      omega
    · rw [if_neg hkeys]
      refine ⟨_, _, rfl, ?_, ?_, fun _ _ => rfl⟩
      · refine (length_linkAll _ _ _ _).1.trans_le ?_
        simp only [List.length_append, List.length_replicate]
        omega
      · refine (congrArg List.length (length_linkAll _ _ _ _).2).trans_le ?_
        simp only [List.length_append, le_refl]

theorem room_apply (op : SkipOp) (s : SkipArena) :
    (op.apply s).1.links.length ≤ s.links.length + maxLevel ∧
      (op.apply s).1.keys.length ≤ s.keys.length + op.key.length ∧
      (s.links.length + maxLevel < u32Max → s.keys.length + op.key.length < u32Max →
        (op.apply s).2 = true) := by
  cases op with
  | insert key value seq =>
    rw [SkipOp.apply, tryInsertWithSeq]
    cases s.findPath key with
    | mk found update =>
      cases found with
      | some i =>
        simp only
        split_ifs <;> exact ⟨Nat.le_add_right _ _, Nat.le_add_right _ _, fun _ _ => rfl⟩
      | none =>
        obtain ⟨s', res, hres, hlinks, hkeys, hok⟩ :=
          s.room_spliceNewNode key value false seq update
        simp only [hres]
        cases res with
        | error err => exact ⟨hlinks, hkeys, fun h₁ h₂ => absurd (hok h₁ h₂) (by simp)⟩
        | ok => exact ⟨hlinks, hkeys, fun _ _ => rfl⟩
  | tombstone key seq =>
    rw [SkipOp.apply, insertTombstoneWithSeq]
    cases s.findPath key with
    | mk found update =>
      cases found with
      | some i =>
        simp only
        split_ifs <;> exact ⟨Nat.le_add_right _ _, Nat.le_add_right _ _, fun _ _ => rfl⟩
      | none =>
        obtain ⟨s', res, hres, hlinks, hkeys, hok⟩ := s.room_spliceNewNode key 0 true seq update
        simp only [hres]
        cases res with
        | error err => exact ⟨hlinks, hkeys, fun h₁ h₂ => absurd (hok h₁ h₂) (by simp)⟩
        | ok => exact ⟨hlinks, hkeys, fun _ _ => rfl⟩

/-- With room for all of them every write is accepted. -/
theorem accepted_of_room (s : SkipArena) (ops : List SkipOp)
    (hlinks : s.links.length + ops.length * maxLevel < u32Max)
    (hkeys : s.keys.length + (ops.map fun op => op.key.length).sum < u32Max) :
    (s.run ops).2 = ops := by
  induction ops generalizing s with
  | nil => rfl
  | cons op ops ih =>
    obtain ⟨hl, hk, hok⟩ := room_apply op s
    rw [List.length_cons, Nat.add_one_mul] at hlinks
    rw [List.map_cons, List.sum_cons] at hkeys
    rw [run]
    simp only
    rw [hok (by omega) (by omega), ih _ (by omega) (by omega), if_pos rfl]

/-! ### Refinement -/

/-- The list is the sorted map of the accepted writes. -/
structure Refines (s : SkipArena) (accepted : List SkipOp) : Prop where
  /-- The write of highest sequence decides a key. -/
  entry : ∀ key, SkipOp.Decides (SkipOp.winner key accepted) (s.entry key)
  /-- Iteration is in strictly ascending key order, -/
  ascending : ∀ start, (s.iterRawFrom start).Pairwise fun a b => a.1 < b.1
  /-- and yields the entries from its start on. -/
  iter : ∀ start e, e ∈ s.iterRawFrom start ↔ start ≤ e.1 ∧ s.entry e.1 = some e.2
  live : s.noLiveNodes = (s.iterRawFrom []).countP fun e => !e.2.2.2
  tombstones : s.noTombstoneNodes = (s.iterRawFrom []).countP fun e => e.2.2.2
  /-- The dump has one record for every key but the empty one. -/
  dump : s.collectKeyValueRecords = ((s.iterRawFrom []).filter fun e => decide (e.1 ≠ [])).map
    fun e => ⟨e.1, e.2.1, e.2.2.2, e.2.2.1⟩

theorem Represents.refines {accepted : List SkipOp} (h : s.Represents (accepted.foldl put [])) :
    s.Refines accepted := by
  have hentry := h.holds.entry_eq
  have hiter := h.holds.iterRawFrom_eq
  have hasc := h.holds.ascending
  have hdump := h.holds.collectKeyValueRecords_eq
  have hfind := fun key => findBy_foldl_put ascending_nil key accepted
  have hlive := h.live
  have htombs := h.tombstones
  generalize accepted.foldl put [] = records at *
  have hall : (records.filter fun r => decide ([] ≤ r.key)) = records :=
    List.filter_eq_self.mpr fun r _ => decide_eq_true (ByteCodec.nil_le r.key)
  refine ⟨fun key => ?_, fun start => ?_, fun start e => ?_, ?_, ?_, ?_⟩
  · rw [hentry, hfind]
    have hnone : SkipOp.Decides none ((none : Option KeyValueRecord).map raw) := rfl
    exact decides_foldl_settle hnone _
  · rw [hiter]
    exact List.pairwise_map.mpr (hasc.filter _)
  · obtain ⟨key, value, seq, tombstone⟩ := e
    rw [hiter, hentry, List.mem_map]
    constructor
    · rintro ⟨r, hr, heq⟩
      cases heq
      obtain ⟨hmem, hle⟩ := List.mem_filter.mp hr
      rw [(findBy_eq_some_iff hasc).mpr ⟨hmem, rfl⟩]
      exact ⟨of_decide_eq_true hle, rfl⟩
    · rintro ⟨hle, hsome⟩
      obtain ⟨r, hr, heq⟩ := Option.map_eq_some_iff.mp hsome
      obtain ⟨hmem, hkey⟩ := mem_of_findBy_eq_some hr
      refine ⟨r, List.mem_filter.mpr ⟨hmem, decide_eq_true (hkey ▸ hle)⟩, ?_⟩
      exact Prod.ext hkey heq
  · rw [hiter, hall, List.countP_map, hlive]
    rfl
  · rw [hiter, hall, List.countP_map, htombs]
    rfl
  · rw [hiter, hall, hdump, List.filter_map, List.map_map]
    have hkeys : (fun r : KeyValueRecord => decide (r.key.length ≠ 0)) =
        (fun e : Key × ℕ × ℕ × Bool => decide (e.1 ≠ [])) ∘
          fun r : KeyValueRecord => (r.key, r.value, r.seq, r.tombstone) := by
      funext r
      simp
    rw [hkeys]
    exact (List.map_id _).symm

/-- **The skip list refines a sorted map**, whatever the heights drawn: a run leaves the map of
its accepted writes, and these are all of them as long as the arenas have room. -/
theorem skip_list_refined (maxCapacity : ℕ) (heights : ℕ → Fin maxLevel) (ops : List SkipOp) :
    ((withCapacity maxCapacity heights).run ops).1.Refines
        ((withCapacity maxCapacity heights).run ops).2 ∧
      ((ops.length + 1) * maxLevel < u32Max → (ops.map fun op => op.key.length).sum < u32Max →
        ((withCapacity maxCapacity heights).run ops).2 = ops) := by
  refine ⟨((represents_withCapacity maxCapacity heights).run ops).refines, fun hlinks hkeys => ?_⟩
  refine accepted_of_room _ _ ?_ ?_
  · rw [Nat.add_one_mul] at hlinks
    simpa [withCapacity, Nat.add_comm] using hlinks
  · simpa [withCapacity] using hkeys

/-- Three writes, two of them to one key: all of them are accepted. -/
theorem skip_list_refined_room :
    let ops : List SkipOp := [.insert [1] 5 1, .tombstone [1, 0] 2, .insert [1] 6 3]
    ((withCapacity 8 fun _ => ⟨1, by decide⟩).run ops).2 = ops :=
  (skip_list_refined 8 (fun _ => ⟨1, by decide⟩)
    [.insert [1] 5 1, .tombstone [1, 0] 2, .insert [1] 6 3]).2 (by decide) (by decide)

/-- A list with one write, to the empty key. -/
def holdsEmptyKey : SkipArena :=
  ((withCapacity 8 fun _ => ⟨0, by decide⟩).run [.insert [] 7 1]).1

/-- The empty key is a key of the list, and the dump has no record of it. -/
theorem dump_skips_empty_key :
    ¬ ∀ key, (holdsEmptyKey.entry key).isSome →
      ∃ r ∈ holdsEmptyKey.collectKeyValueRecords, r.key = key := by
  have hentry : holdsEmptyKey.entry [] = some (7, 1, false) := by decide +kernel
  have hdump : holdsEmptyKey.collectKeyValueRecords = [] := by decide +kernel
  intro hall
  obtain ⟨r, hr, -⟩ := hall [] (by rw [hentry]; rfl)
  rw [hdump] at hr
  cases hr

end SkipArena

end Minnal
