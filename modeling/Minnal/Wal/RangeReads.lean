import Minnal.Wal.Deletion
import Minnal.Wal.Recovery

/-!
# Range reads and deletions

A read of `[start, stop)` opens one segment after the other while retired segments are **deleted**
underneath it. Where a segment is gone the read goes on with the oldest one that is left.
`readFrom` asks the directory anew for every segment: it takes a **view**, the directory at each
time it is looked at.

Every segment above the oldest is read from its first record, up to its end marker, and the last one
up to `stop`; so what is handed over is a record of the log exactly if its segment was there when
the read came to it (`range_reads_exact`). `bytesBetween` counts the same records from the ends of
the sealed segments, kept in memory; a deletion drops those of what it deletes, and only the segment
of `stop` is counted without one.
-/

set_option linter.dupNamespace false

namespace Minnal

open ByteCodec CrashDisk
open List (filter_congr length_append filter_eq_nil_iff append_nil map_cons mem_of_getElem?
  mem_append map_append filter_append mem_filter lookup_cons length_singleton mem_range'_1
  append_assoc take_length take_append_drop)
open Option (map_eq_some_iff map_some some_get elim_some)

variable {i j start stop floor id : ℕ} {segments : List (List (List UInt8))} {b : List (List UInt8)}
  {s : RangeLog}

namespace SegmentedLog

variable (k : LogKind)

/-! ### Reading while segments go -/

/-- The loop of a read: `view t` is the directory, in id order, at its `t`-th look. -/
def readFrom (view : ℕ → List (ℕ × List UInt8)) (stop t start id : ℕ) :
    List (ℕ × List UInt8) × Except LogError Unit :=
  if segmentOf stop < id then ([], .ok ())
  else
    match (view t).find? fun x => decide (x.1 = id) with
    | some x =>
      match readSegment k start stop id x.2 with
      | (records, .error e) => (records, .error e)
      | (records, .ok ()) =>
        let more := readFrom view stop (t + 2) start (id + 1)
        (records ++ more.1, more.2)
    | none =>
      -- retired and deleted: skip to the oldest segment still on disk
      match (view (t + 1)).head? with
      | some oldest =>
        if id < oldest.1 then
          readFrom view stop (t + 2) (position oldest.1 segmentHeaderLen) oldest.1
        else ([], .error (.segmentMissing id))
      | none => ([], .error (.segmentMissing id))
termination_by segmentOf stop + 1 - id

/-- Every record in `[start, stop)`, in log order: those handed over and how the read ends. -/
def forEachWith (view : ℕ → List (ℕ × List UInt8)) (start stop : ℕ) :
    List (ℕ × List UInt8) × Except LogError Unit :=
  if stop ≤ start then ([], .ok ()) else readFrom k view stop 0 start (segmentOf start)

/-- Bytes of records in `[start, stop)`; a segment whose end is unknown counts nothing. -/
def bytesBetween (sealedEnds : List (ℕ × ℕ)) (start stop : ℕ) : ℕ :=
  if stop ≤ start then 0
  else
    ((List.range' (segmentOf start) (segmentOf stop + 1 - segmentOf start)).map fun id =>
      let end_ := if id = segmentOf stop then some (byteOf stop) else sealedEnds.lookup id
      end_.elim 0 fun e => e - startIn start id).sum

/-! ### A log in use -/

/-- A log that is written to and deleted from: what it would be if nothing were ever deleted, the
ends of its sealed segments, and the ids of those deleted. -/
structure RangeLog where
  sys : Sys
  sealedEnds : List (ℕ × ℕ)
  deleted : List ℕ

namespace RangeLog

/-- The directory. -/
def dir (s : RangeLog) : List (ℕ × List UInt8) :=
  (files s.sys.disk).filter fun x => decide (x.1 ∉ s.deleted)

/-- A new log. -/
def create (segmentSize : ℕ) : Option RangeLog :=
  (step k Sys.init (.run (.openLog segmentSize))).map fun sys =>
    { sys := sys, sealedEnds := [], deleted := [] }

end RangeLog

/-- What a deletion keeps of the ends, unless it fails before. -/
def retainEnds (active : ℕ) (io : Answers) (found : List (ℕ × List UInt8)) (segmentId : ℕ)
    (sealedEnds : List (ℕ × ℕ)) : List (ℕ × ℕ) :=
  let below := min segmentId active
  if io.listed ∧ ¬(0 < (removeBelow io.remove below found).segments ∧ io.syncDir = false) then
    sealedEnds.filter fun e => decide (below ≤ e.1)
  else sealedEnds

inductive RangeAct where
  | append (body : List UInt8) (prepared : Bool)
  | commit
  | delete (io : Answers) (segmentId : ℕ)

def rangeStep (s : RangeLog) : RangeAct → Option RangeLog
  | .append body prepared =>
    s.sys.log.bind fun log =>
      (step k s.sys (.run (.append body prepared))).map fun sys =>
        -- a rotation seals the active segment where it ends
        let sealedEnds := if log.rotates body then (log.segmentId, log.pos) :: s.sealedEnds
          else s.sealedEnds
        { s with sys := sys, sealedEnds := sealedEnds }
  | .commit => (step k s.sys (.run .commit)).map fun sys => { s with sys := sys }
  | .delete io segmentId =>
    s.sys.log.map fun log =>
      let left := (deleteSegmentsBelow log.segmentId io s.dir segmentId).1
      { s with
        deleted := s.deleted ++
          (s.dir.map Prod.fst).filter fun id => decide (id ∉ left.map Prod.fst)
        sealedEnds := retainEnds log.segmentId io s.dir segmentId s.sealedEnds }

/-- The deletions of a run do not fail. -/
def RangeAct.sound : RangeAct → Prop
  | .delete io _ => io = .sound
  | _ => True

/-- Where a segment or a record starts, or a record ends. -/
def RangeLog.FrameBoundary (s : RangeLog) (pos : ℕ) : Prop :=
  (∃ log, s.sys.log = some log ∧ ∃ id ≤ log.segmentId, pos = position id segmentHeaderLen) ∨
    ∃ r ∈ s.sys.records, pos = r.1 ∨ pos = r.1 + (frameHeaderLen + r.2.length)

/-- The directory at each look of a read, with the deletions made before the look. -/
def viewAfter (active : ℕ) (calls : ℕ → List (Answers × ℕ)) (found : List (ℕ × List UInt8)) :
    ℕ → List (ℕ × List UInt8)
  | 0 => (calls 0).foldl (fun fs c => (deleteSegmentsBelow active c.1 fs c.2).1) found
  | t + 1 => (calls (t + 1)).foldl (fun fs c => (deleteSegmentsBelow active c.1 fs c.2).1)
      (viewAfter active calls found t)

/-! ### One segment -/

variable {k}

section Segment

variable {id : ℕ} {b : List (List UInt8)}

/-- Boundaries in order are frame numbers in order. -/
theorem le_of_endOf_le (hfits : ∀ body ∈ b, Fits body) (hi : i ≤ b.length)
    (h : endOf k (b.take i) ≤ endOf k (b.take j)) : i ≤ j := by
  by_contra hlt
  have hadd := endOf_take_add (k := k) hfits (not_le.mp hlt) (by omega)
  omega

theorem take_append_take_drop (b : List (List UInt8)) (hij : i ≤ j) :
    b.take i ++ (b.take j).drop i = b.take j := by
  have happend := take_append_drop i (b.take j)
  rwa [List.take_take, min_eq_left hij] at happend

/-- **The records of a segment between two boundaries.** -/
theorem segmentRecords_range (hij : i ≤ j) :
    ((segmentRecords id b).filter fun r => decide (position id (endOf k (b.take i)) ≤ r.1 ∧
      r.1 < position id (endOf k (b.take j)))) =
      (recordsFrom (endOf k (b.take i)) ((b.take j).drop i)).map fun r =>
        (position id r.1, r.2) := by
  have hwhole := take_append_take_drop b hij
  -- before, between and behind
  have hsplit : segmentRecords id b = segmentRecords id (b.take i) ++
      ((recordsFrom (endOf k (b.take i)) ((b.take j).drop i)).map fun r =>
        (position id r.1, r.2)) ++
      (recordsFrom (endOf k (b.take j)) (b.drop j)).map fun r => (position id r.1, r.2) := by
    have hfirst : segmentRecords id (b.take j) = segmentRecords id (b.take i) ++
        (recordsFrom (endOf k (b.take i)) ((b.take j).drop i)).map fun r =>
          (position id r.1, r.2) := by
      conv_lhs => rw [← hwhole]
      rw [segmentRecords, recordsFrom_append (k := k), map_append]
      rfl
    rw [← hfirst]
    conv_lhs => rw [← take_append_drop j b]
    rw [segmentRecords, recordsFrom_append (k := k), map_append]
    rfl
  have hge : ∀ (n : ℕ) (bodies : List (List UInt8)),
      ∀ r ∈ (recordsFrom n bodies).map (fun r => (position id r.1, r.2)), position id n ≤ r.1 := by
    intro n bodies r hr
    obtain ⟨x, hx, rfl⟩ := List.mem_map.mp hr
    obtain ⟨a, ha⟩ := List.mem_iff_getElem?.mp hx
    rw [getElem?_recordsFrom (k := k), map_eq_some_iff] at ha
    obtain ⟨body, -, rfl⟩ := ha
    exact position_le_position id (Nat.le_add_right ..)
  have hmid : ∀ r ∈ (recordsFrom (endOf k (b.take i)) ((b.take j).drop i)).map
      (fun r => (position id r.1, r.2)), r.1 < position id (endOf k (b.take j)) := by
    intro r hr
    have hmem : r ∈ segmentRecords id (b.take j) := by
      rw [← hwhole, segmentRecords, recordsFrom_append (k := k), map_append]
      exact List.mem_append_right _ hr
    exact (lt_of_mem_segmentRecords hmem).2
  rw [hsplit, filter_append, filter_append, filter_eq_nil_iff.mpr,
    List.filter_eq_self.mpr, filter_eq_nil_iff.mpr, List.nil_append, append_nil]
  · intro r hr
    have hle := hge _ _ r hr
    rw [decide_eq_true_eq]
    omega
  · intro r hr
    exact decide_eq_true ⟨hge _ _ r hr, hmid r hr⟩
  · intro r hr
    have hlt := (lt_of_mem_segmentRecords (k := k) hr).2
    rw [decide_eq_true_eq]
    omega

/-- Where a read of a segment starts and where it stops, as frame numbers. -/
structure Bounds (k : LogKind) (start stop id : ℕ) (b : List (List UInt8)) (i j : ℕ) : Prop where
  le : i ≤ j
  startIn_eq : startIn start id = endOf k (b.take i)
  start_le : ∀ r ∈ segmentRecords id b,
    start ≤ r.1 ↔ position id (endOf k (b.take i)) ≤ r.1
  lt_stop : ∀ r ∈ segmentRecords id b, r.1 < stop ↔ r.1 < position id (endOf k (b.take j))
  inner : id < segmentOf stop → j = b.length
  last : id = segmentOf stop → byteOf stop = endOf k (b.take j)

/-- **A boundary is a frame number** of its segment, and one behind or before every frame of the
others. -/
theorem exists_bounds (hlt : start < stop) (hfits : ∀ body ∈ b, Fits body)
    (hsmall : endOf k b < 2 ^ 32) (hge : segmentOf start ≤ id) (hle : id ≤ segmentOf stop)
    (hstart : id = segmentOf start → ∃ i ≤ b.length, byteOf start = endOf k (b.take i))
    (hstop : id = segmentOf stop → ∃ j ≤ b.length, byteOf stop = endOf k (b.take j)) :
    ∃ i j, Bounds k start stop id b i j := by
  have hrecord := fun (r : ℕ × List UInt8) (hr : r ∈ segmentRecords id b) =>
    lt_of_mem_segmentRecords (k := k) hr
  have hheader : endOf k (b.take 0) = segmentHeaderLen := by rw [List.take_zero, endOf_nil]
  -- the start
  obtain ⟨i, hi, hin, hfrom, hzero⟩ : ∃ i ≤ b.length, startIn start id = endOf k (b.take i) ∧
      (∀ r ∈ segmentRecords id b, start ≤ r.1 ↔ position id (endOf k (b.take i)) ≤ r.1) ∧
      (segmentOf start < id → i = 0) := by
    rcases hge.eq_or_lt with heq | hgt
    · obtain ⟨i, hi, hbyte⟩ := hstart heq.symm
      have hpos : position id (endOf k (b.take i)) = start := by
        rw [← hbyte, ← heq, position_eq]
      refine ⟨i, hi, ?_, fun r _ => by rw [hpos], fun hgt => absurd hgt heq.not_lt⟩
      have hmin : segmentHeaderLen ≤ endOf k (b.take i) := Nat.le_add_right ..
      rw [startIn, if_pos heq.symm, hbyte, max_eq_left hmin]
    · refine ⟨0, Nat.zero_le _, by rw [startIn, if_neg hgt.ne', hheader], fun r hr => ?_,
        fun _ => rfl⟩
      have hpos := position_lt_position segmentHeaderLen hgt (byteOf_lt start)
      rw [position_eq] at hpos
      have hfirst := (hrecord r hr).1
      rw [hheader]
      omega
  -- the stop
  rcases hle.eq_or_lt with heq | hgt
  · obtain ⟨j, hj, hbyte⟩ := hstop heq
    have hpos : position id (endOf k (b.take j)) = stop := by
      rw [← hbyte, heq, position_eq]
    refine ⟨i, j, ?_, hin, hfrom, fun r _ => by rw [hpos], fun h => absurd h heq.not_lt,
      fun _ => hbyte⟩
    rcases hge.eq_or_lt with hfirst | hfirst
    · refine le_of_endOf_le (k := k) hfits hi ?_
      obtain ⟨a, -, ha⟩ := hstart hfirst.symm
      rw [startIn, if_pos hfirst.symm] at hin
      rw [← hin, ← hbyte, max_le_iff]
      refine ⟨?_, hbyte ▸ Nat.le_add_right ..⟩
      have hs := position_eq start
      have ht := position_eq stop
      simp only [position, ← heq, hfirst] at hs ht
      omega
    · rw [hzero hfirst]
      exact Nat.zero_le _
  · refine ⟨i, b.length, hi, hin, hfrom, fun r hr => ?_, fun _ => rfl, fun h => absurd h hgt.ne⟩
    have hpos := position_lt_position (byteOf stop) hgt hsmall
    rw [position_eq] at hpos
    have hlast := (hrecord r hr).2
    rw [take_length]
    omega

theorem Bounds.filter_eq (h : Bounds k start stop id b i j) :
    ((segmentRecords id b).filter fun r => decide (start ≤ r.1 ∧ r.1 < stop)) =
      (recordsFrom (endOf k (b.take i)) ((b.take j).drop i)).map fun r =>
        (position id r.1, r.2) := by
  rw [← segmentRecords_range h.le]
  refine filter_congr fun r hr => ?_
  rw [decide_eq_decide, h.start_le r hr, h.lt_stop r hr]

/-- **A segment that is there is read exactly**: its records in the range, to its end marker or to
where the read stops. -/
theorem readSegment_exact (h : Bounds k start stop id b i j) {after : List UInt8} {last : WalkStop}
    (hid : id < 2 ^ 32) (hle : id ≤ segmentOf stop) (hfits : ∀ body ∈ b, Fits body)
    (hlast : nextFrame k after = .error last) (hsealed : id < segmentOf stop → last = .sealed) :
    readSegment k start stop id (written k id b ++ after) =
      ((segmentRecords id b).filter fun r => decide (start ≤ r.1 ∧ r.1 < stop), .ok ()) := by
  have hheader : checkHeader k (written k id b ++ after) id = .ok () := by
    rw [written, append_assoc]
    exact checkHeader_headerBytes hid _
  rw [readSegment, h.filter_eq]
  simp only [hheader, h.startIn_eq]
  rcases hle.lt_or_eq with hlt | heq
  · rw [hsealed hlt] at hlast
    simp only [if_neg hlt.ne, walkSegment_written hfits hlast i]
    rw [h.inner hlt, take_length]
  · -- the walk ends at the limit, on a frame boundary
    have hfront : written k id b ++ after =
        written k id (b.take j) ++ (encode k (b.drop j) ++ after) := by
      rw [written, written, append_assoc, append_assoc, ← append_assoc (encode k _),
        ← encode_append, take_append_drop]
    have hlimit : min (byteOf stop) (written k id b ++ after).length = endOf k (b.take j) := by
      rw [h.last heq, hfront, length_append, length_written]
      exact min_eq_left (Nat.le_add_right ..)
    have htake : (written k id b ++ after).take (endOf k (b.take j)) = written k id (b.take j) := by
      rw [hfront, ← length_written (k := k) id, List.take_left]
    have hwalk : walkSegment k (written k id b ++ after) (endOf k (b.take i)) (endOf k (b.take j)) =
        ⟨recordsFrom (endOf k (b.take i)) ((b.take j).drop i),
          endOf k (b.take i) + (encode k ((b.take j).drop i)).length, .unwritten⟩ := by
      refine walkSegment_eq ⟨fun body hb =>
        hfits body (List.mem_of_mem_take (List.mem_of_mem_drop hb)), [], ?_, nextFrame_nil⟩
      have hdrop : (written k id (b.take j) ++ []).drop (endOf k ((b.take j).take i)) =
          encode k ((b.take j).drop i) ++ [] := drop_boundary i []
      rw [List.take_take, min_eq_left h.le, append_nil, append_nil] at hdrop
      rw [htake, hdrop, append_nil]
    simp only [if_pos heq, hlimit, hwalk]
    rw [if_pos (Or.inl heq)]

end Segment

/-! ### The directory during a read -/

/-- **A directory that only loses its oldest files.** -/
structure Shrinking (found : List (ℕ × List UInt8)) (last : ℕ)
    (view : ℕ → List (ℕ × List UInt8)) (floor : ℕ → ℕ) : Prop where
  mono : Monotone floor
  le : ∀ t, floor t ≤ last
  eq : ∀ t, view t = keepFrom (floor t) found

section Directory

variable {found : List (ℕ × List UInt8)}

theorem find?_keepFrom (found : List (ℕ × List UInt8)) (floor id : ℕ) :
    (keepFrom floor found).find? (fun x => decide (x.1 = id)) =
      if floor ≤ id then found.find? fun x => decide (x.1 = id) else none := by
  rw [keepFrom, List.find?_filter]
  split
  · next h =>
    refine congrArg (fun p => found.find? p) (funext fun x => ?_)
    by_cases hx : x.1 = id <;> simp [hx, h]
  · next h =>
    refine List.find?_eq_none.mpr fun x _ => ?_
    simp only [decide_eq_true_eq]
    omega

theorem head?_keepFrom_range {n : ℕ} (hids : found.map Prod.fst = List.range (n + 1))
    (hle : floor ≤ n) : ∃ x, (keepFrom floor found).head? = some x ∧ x.1 = floor := by
  have hmap : ((keepFrom floor found).map Prod.fst).head? = some floor := by
    rw [ids_keepFrom, hids, List.range_eq_range', range'_filter_le, List.head?_range',
      if_neg (by omega), max_eq_right (Nat.zero_le _)]
  rw [List.head?_map, map_eq_some_iff] at hmap
  exact hmap

/-- Calls in turn delete up to where the furthest of them stopped. -/
theorem foldl_deleteSegmentsBelow (active : ℕ) (calls : List (Answers × ℕ))
    (hsorted : (found.map Prod.fst).Pairwise (· < ·)) (hfloor : floor ≤ active) :
    ∃ stop, floor ≤ stop ∧ stop ≤ active ∧
      calls.foldl (fun fs c => (deleteSegmentsBelow active c.1 fs c.2).1) (keepFrom floor found) =
        keepFrom stop found := by
  induction calls generalizing floor with
  | nil => exact ⟨floor, le_rfl, hfloor, rfl⟩
  | cons c calls ih =>
    have hkept : ((keepFrom floor found).map Prod.fst).Pairwise (· < ·) := by
      rw [ids_keepFrom]
      exact hsorted.filter _
    obtain ⟨stop, hstop, hfiles, -⟩ := deleteSegmentsBelow_files active c.1 hkept c.2
    have hboth : keepFrom stop (keepFrom floor found) = keepFrom (max floor stop) found := by
      rw [keepFrom, keepFrom, keepFrom, List.filter_filter]
      refine filter_congr fun x _ => ?_
      rw [← Bool.decide_and, decide_eq_decide]
      omega
    have hmax : max floor stop ≤ active := by omega
    obtain ⟨stop', hge, hle, heq⟩ := ih hmax
    refine ⟨stop', by omega, hle, ?_⟩
    rw [List.foldl_cons, hfiles, hboth, heq]

theorem exists_shrinking {n : ℕ} (hids : found.map Prod.fst = List.range (n + 1))
    (hfloor : floor ≤ n) (calls : ℕ → List (Answers × ℕ)) :
    ∃ floors, floor ≤ floors 0 ∧
      Shrinking found n (viewAfter n calls (keepFrom floor found)) floors := by
  have hsorted : (found.map Prod.fst).Pairwise (· < ·) := by
    rw [hids]
    exact List.pairwise_lt_range
  -- each look finds the directory from its oldest file up
  let floors := fun t => ((viewAfter n calls (keepFrom floor found) t).head?.map Prod.fst).getD 0
  have hfloors : ∀ {t stop : ℕ}, stop ≤ n →
      viewAfter n calls (keepFrom floor found) t = keepFrom stop found → floors t = stop := by
    intro t stop hstop heq
    obtain ⟨x, hx, rfl⟩ := head?_keepFrom_range hids hstop
    simp only [floors, heq, hx, map_some, Option.getD_some]
  have hview : ∀ t, ∃ stop ≤ n,
      viewAfter n calls (keepFrom floor found) t = keepFrom stop found := by
    intro t
    induction t with
    | zero =>
      obtain ⟨stop, -, hle, heq⟩ := foldl_deleteSegmentsBelow n (calls 0) hsorted hfloor
      exact ⟨stop, hle, heq⟩
    | succ t ih =>
      obtain ⟨stop, hle, heq⟩ := ih
      obtain ⟨stop', -, hle', heq'⟩ := foldl_deleteSegmentsBelow n (calls (t + 1)) hsorted hle
      exact ⟨stop', hle', by rw [viewAfter, heq, heq']⟩
  refine ⟨floors, ?_, monotone_nat_of_le_succ fun t => ?_, fun t => ?_, fun t => ?_⟩
  · obtain ⟨stop, hge, hle, heq⟩ := foldl_deleteSegmentsBelow n (calls 0) hsorted hfloor
    rw [hfloors (t := 0) hle heq]
    exact hge
  · obtain ⟨stop, hle, heq⟩ := hview t
    obtain ⟨stop', hge, hle', heq'⟩ := foldl_deleteSegmentsBelow n (calls (t + 1)) hsorted hle
    rw [hfloors hle heq, hfloors hle' (by rw [viewAfter, heq, heq'])]
    exact hge
  · obtain ⟨stop, hle, heq⟩ := hview t
    rw [hfloors hle heq]
    exact hle
  · obtain ⟨stop, hle, heq⟩ := hview t
    rw [hfloors hle heq, heq]

end Directory

/-! ### The whole read -/

/-- The records from a segment up, of a list of segments. -/
theorem recordsOf_filter_segment (hsmall : ∀ c ∈ segments, endOf k c < 2 ^ 32) (id : ℕ) :
    ((recordsOf segments).filter fun r => decide (id ≤ segmentOf r.1)) =
      recordsFromSegment segments id := by
  have hsegment : ∀ x ∈ segments.zipIdx, ∀ r ∈ segmentRecords x.2 x.1, segmentOf r.1 = x.2 := by
    rintro ⟨b, a⟩ hx r hr
    rw [List.mem_zipIdx_iff_getElem?] at hx
    obtain ⟨i, -, hpos⟩ := (mem_segmentRecords (k := k)).mp hr
    rw [hpos]
    exact segmentOf_position ((endOf_take_le b i).trans_lt (hsmall b (mem_of_getElem? hx)))
  have hsplit : recordsOf segments = ((segments.zipIdx.take id).flatMap fun x =>
      segmentRecords x.2 x.1) ++ recordsFromSegment segments id := by
    rw [recordsOf, recordsFromSegment, ← List.flatMap_append, take_append_drop]
  have hindex : ∀ {n : ℕ} {x : List (List UInt8) × ℕ}, segments.zipIdx[n]? = some x → x.2 = n := by
    intro n x hx
    rw [List.getElem?_zipIdx, map_eq_some_iff] at hx
    obtain ⟨b, -, rfl⟩ := hx
    exact Nat.zero_add n
  rw [hsplit, filter_append, filter_eq_nil_iff.mpr, List.filter_eq_self.mpr,
    List.nil_append]
  · intro r hr
    obtain ⟨x, hx, hmem⟩ := List.mem_flatMap.mp hr
    obtain ⟨n, hn⟩ := List.mem_iff_getElem?.mp hx
    rw [List.getElem?_drop] at hn
    rw [decide_eq_true_eq, hsegment x (List.mem_of_mem_drop hx) r hmem, hindex hn]
    exact Nat.le_add_right ..
  · intro r hr
    obtain ⟨x, hx, hmem⟩ := List.mem_flatMap.mp hr
    obtain ⟨n, hn⟩ := List.mem_iff_getElem?.mp hx
    rw [List.getElem?_take] at hn
    obtain ⟨hlt, hn⟩ := Option.ite_none_right_eq_some.mp hn
    rw [decide_eq_true_eq, hsegment x (List.mem_of_mem_take hx) r hmem, hindex hn]
    omega

/-- The records from a segment up that meet a condition: those of the segment, then the rest. -/
theorem recordsOf_filter_next (hsmall : ∀ c ∈ segments, endOf k c < 2 ^ 32)
    (hget : segments[id]? = some b) (p : ℕ × List UInt8 → Prop) [DecidablePred p] :
    ((recordsOf segments).filter fun r => decide (id ≤ segmentOf r.1 ∧ p r)) =
      (segmentRecords id b).filter (fun r => decide (p r)) ++
        (recordsOf segments).filter fun r => decide (id + 1 ≤ segmentOf r.1 ∧ p r) := by
  have hboth : ∀ a, ((recordsOf segments).filter fun r => decide (a ≤ segmentOf r.1 ∧ p r)) =
      (recordsFromSegment segments a).filter fun r => decide (p r) := by
    intro a
    rw [← recordsOf_filter_segment hsmall a, List.filter_filter]
    refine filter_congr fun r _ => ?_
    rw [← Bool.decide_and, decide_eq_decide, and_comm]
  rw [hboth, hboth, recordsFromSegment_eq hget, filter_append]

section Read

variable {s : Sys} {log : Log} {segments : List (List (List UInt8))} {bodies : List (List UInt8)}
  {m : ℕ} {d : Disk} {f : File}

theorem readSegment_congr {start' : ℕ} (h : startIn start id = startIn start' id) (stop : ℕ)
    (file : List UInt8) : readSegment k start stop id file = readSegment k start' stop id file := by
  rw [readSegment, readSegment, h]

theorem startIn_of_ne (h : id ≠ segmentOf start) :
    startIn start id = segmentHeaderLen := if_neg h

theorem startIn_position (id a : ℕ) :
    startIn (position id segmentHeaderLen) a = segmentHeaderLen := by
  have hlt : segmentHeaderLen < 2 ^ 32 := by decide
  rw [startIn, byteOf_position hlt]
  split <;> rfl

theorem OpenSys.small (h : OpenSys k true s log segments bodies m d f) :
    ∀ c ∈ segments ++ [bodies], endOf k c < 2 ^ 32 := by
  intro c hc
  rcases mem_append.mp hc with hc | hc
  · exact (Nat.le_add_right _ _).trans_lt (h.at_.chain.small c hc)
  · rw [List.mem_singleton.mp hc]
    exact (Nat.le_add_right _ _).trans_lt h.at_.active.live.small

theorem OpenSys.ids (h : OpenSys k true s log segments bodies m d f) :
    (files s.disk).map Prod.fst = List.range (segments.length + 1) := by
  rw [h.at_.disk, List.range_succ, ← h.at_.chain.ids, files, List.map_map, map_append]
  rfl

/-- A frame boundary, by frame number. -/
def FrameAt (k : LogKind) (segments : List (List (List UInt8))) (pos : ℕ) : Prop :=
  ∃ b, segments[segmentOf pos]? = some b ∧ ∃ i ≤ b.length, byteOf pos = endOf k (b.take i)

theorem FrameAt.exists {pos : ℕ} {segs : List (List (List UInt8))} (h : FrameAt k segs pos)
    (hget : segs[id]? = some b) (hid : id = segmentOf pos) :
    ∃ i ≤ b.length, byteOf pos = endOf k (b.take i) := by
  obtain ⟨c, hc, hbyte⟩ := h
  rw [← hid, hget] at hc
  rwa [Option.some.inj hc]

/-- **A read hands over the records of every segment that is there when it comes to it**, and skips
only segments that are gone then. -/
theorem OpenSys.readFrom_exact (h : OpenSys k true s log segments bodies m d f)
    {view : ℕ → List (ℕ × List UInt8)} {floor : ℕ → ℕ}
    (hview : Shrinking (files s.disk) segments.length view floor) {start₀ : ℕ} (hlt : start₀ < stop)
    (hstart : FrameAt k (segments ++ [bodies]) start₀)
    (hstop : FrameAt k (segments ++ [bodies]) stop) (n : ℕ) :
    ∀ t start id, segmentOf stop + 1 - id ≤ n → segmentOf start₀ ≤ id →
      (∀ a, id ≤ a → startIn start a = startIn start₀ a) →
      ∃ gone : List ℕ,
        readFrom k view stop t start id =
          ((recordsOf (segments ++ [bodies])).filter fun r => decide (id ≤ segmentOf r.1 ∧
            (start₀ ≤ r.1 ∧ r.1 < stop) ∧ segmentOf r.1 ∉ gone), .ok ()) ∧
        (∀ i ∈ gone, id ≤ i ∧ ∃ u, i < floor u) ∧
        ∀ i, id ≤ i → i ≤ segmentOf stop → i ∉ gone → ∃ u, floor u ≤ i := by
  have hlast : segmentOf stop ≤ segments.length := by
    obtain ⟨b, hget, -⟩ := hstop
    obtain ⟨hlen, -⟩ := List.getElem?_eq_some_iff.mp hget
    rw [length_append, length_singleton] at hlen
    omega
  have hpast : ∀ t start id, segmentOf stop < id → readFrom k view stop t start id =
      ((recordsOf (segments ++ [bodies])).filter fun r => decide (id ≤ segmentOf r.1 ∧
        (start₀ ≤ r.1 ∧ r.1 < stop) ∧ segmentOf r.1 ∉ ([] : List ℕ)), .ok ()) := by
    intro t start id hid
    rw [readFrom, if_pos hid, filter_eq_nil_iff.mpr fun r _ => ?_]
    rw [decide_eq_true_eq]
    rintro ⟨hle, ⟨-, hstop⟩, -⟩
    have hmono : segmentOf r.1 ≤ segmentOf stop := Nat.div_le_div_right hstop.le
    omega
  induction n with
  | zero =>
    intro t start id hn hge _
    exact ⟨[], hpast t start id (by omega), nofun, fun i _ _ _ => by omega⟩
  | succ n ih =>
    intro t start id hn hge hsame
    rcases Nat.lt_or_ge (segmentOf stop) id with hid | hle
    · exact ⟨[], hpast t start id hid, nofun, fun i _ _ _ => by omega⟩
    have hfind := find?_keepFrom (files s.disk) (floor t) id
    rcases Nat.lt_or_ge id (floor t) with hgone | hthere
    · -- deleted: on to the oldest segment that is left
      rw [if_neg (by omega)] at hfind
      obtain ⟨x, hx, hxid⟩ := head?_keepFrom_range h.ids (hview.le (t + 1))
      have hnext : floor t ≤ floor (t + 1) := hview.mono (Nat.le_succ t)
      obtain ⟨gone, hread, hdeleted, hkept⟩ := ih (t + 2) (position x.1 segmentHeaderLen) x.1
        (by omega) (by omega) fun a ha => by
          rw [startIn_position, startIn_of_ne (by omega)]
      refine ⟨gone ++ List.range' id (x.1 - id), ?_, fun i hi => ?_, fun i hi his hnot => ?_⟩
      · rw [readFrom, if_neg (by omega), hview.eq, hfind]
        simp only [hview.eq, hx]
        rw [if_pos (by omega), hread]
        refine congrArg (fun l => (l, Except.ok ())) (filter_congr fun r _ => ?_)
        rw [decide_eq_decide, mem_append, mem_range'_1]
        constructor
        · rintro ⟨hseg, hrange, hnot⟩
          exact ⟨by omega, hrange, by rintro (hmem | hmem); exacts [hnot hmem, by omega]⟩
        · rintro ⟨hseg, hrange, hnot⟩
          refine ⟨?_, hrange, fun hmem => hnot (.inl hmem)⟩
          by_contra hlt
          exact hnot (.inr (by omega))
      · rcases mem_append.mp hi with hi | hi
        · obtain ⟨hle, hu⟩ := hdeleted i hi
          exact ⟨by omega, hu⟩
        · rw [mem_range'_1] at hi
          exact ⟨hi.1, t + 1, by omega⟩
      · rw [mem_append, mem_range'_1] at hnot
        push Not at hnot
        exact hkept i (by omega) his hnot.1
    · rw [if_pos hthere] at hfind
      obtain ⟨file, b, after, last, hfile, hget, rfl, hid, hfits, hlast', hsealed⟩ :=
        h.file (a := id) (by omega)
      rw [hfile] at hfind
      obtain ⟨i, j, hbounds⟩ := exists_bounds (k := k) hlt hfits
        (h.small b (mem_of_getElem? hget)) hge hle (hstart.exists hget) (hstop.exists hget)
      obtain ⟨gone, hread, hdeleted, hkept⟩ := ih (t + 2) start (id + 1) (by omega) (by omega)
        fun a ha => hsame a (by omega)
      have hone := readSegment_exact hbounds hid hle hfits hlast' fun hlt => hsealed (by omega)
      refine ⟨gone, ?_, fun i hi => ?_, fun i hi his hnot => ?_⟩
      · rw [readFrom, if_neg (by omega), hview.eq, hfind]
        simp only [readSegment_congr (hsame id le_rfl), hone, hread]
        rw [recordsOf_filter_next h.small hget]
        refine congrArg (fun l => (l ++ _, Except.ok ())) (filter_congr fun r hr => ?_)
        -- what is read now is in no segment skipped later
        have hseg : segmentOf r.1 = id := by
          obtain ⟨a, -, hpos⟩ := (mem_segmentRecords (k := k)).mp hr
          rw [hpos]
          exact segmentOf_position ((endOf_take_le b a).trans_lt
            (h.small b (mem_of_getElem? hget)))
        rw [decide_eq_decide, hseg]
        exact ⟨fun hrange => ⟨hrange, fun hmem => by have := (hdeleted id hmem).1; omega⟩, And.left⟩
      · obtain ⟨hle, hu⟩ := hdeleted i hi
        exact ⟨by omega, hu⟩
      · rcases hi.eq_or_lt with rfl | hi
        · exact ⟨t, hthere⟩
        · exact hkept i hi his hnot

end Read

/-! ### Counting bytes -/

/-- The bytes a record takes in its segment. -/
def frameLen (r : ℕ × List UInt8) : ℕ := frameHeaderLen + r.2.length

theorem sum_frameLen_recordsFrom (id pos : ℕ) (bodies : List (List UInt8)) :
    (((recordsFrom pos bodies).map fun r => (position id r.1, r.2)).map frameLen).sum =
      (encode k bodies).length := by
  induction bodies generalizing pos with
  | nil => rfl
  | cons body bodies ih =>
    rw [recordsFrom, map_cons, map_cons, List.sum_cons, ih, encode_cons,
      length_append, length_frameBytes]
    rfl

theorem Bounds.sum_eq (h : Bounds k start stop id b i j) :
    (((segmentRecords id b).filter fun r => decide (start ≤ r.1 ∧ r.1 < stop)).map frameLen).sum =
      endOf k (b.take j) - endOf k (b.take i) := by
  have hwhole := take_append_take_drop b h.le
  have hlen : endOf k (b.take j) = endOf k (b.take i) + (encode k ((b.take j).drop i)).length := by
    rw [← hwhole, endOf, endOf, encode_append, length_append, Nat.add_assoc, hwhole]
  rw [h.filter_eq, sum_frameLen_recordsFrom (k := k), hlen, Nat.add_sub_cancel_left]

/-- **Counting is exact** where the ends of the segments are known. -/
theorem bytesBetween_exact (hsmall : ∀ c ∈ segments, endOf k c < 2 ^ 32)
    (hfits : ∀ c ∈ segments, ∀ body ∈ c, Fits body) {sealedEnds : List (ℕ × ℕ)} (forgot : ℕ)
    (hends : ∀ id b, segments[id]? = some b → id + 1 < segments.length →
      sealedEnds.lookup id = if forgot ≤ id then some (endOf k b) else none) (hlt : start < stop)
    (hstart : FrameAt k segments start) (hstop : FrameAt k segments stop) :
    bytesBetween sealedEnds start stop =
      (((recordsOf segments).filter fun r => decide ((start ≤ r.1 ∧ r.1 < stop) ∧
        (forgot ≤ segmentOf r.1 ∨ segmentOf r.1 = segmentOf stop))).map frameLen).sum := by
  have hlast : segmentOf stop < segments.length := by
    obtain ⟨b, hget, -⟩ := hstop
    exact (List.getElem?_eq_some_iff.mp hget).1
  have hmono : segmentOf start ≤ segmentOf stop := Nat.div_le_div_right hlt.le
  have hrun : ∀ n a, segmentOf start ≤ a → a + n = segmentOf stop + 1 →
      ((List.range' a n).map fun id =>
        let end_ := if id = segmentOf stop then some (byteOf stop) else sealedEnds.lookup id
        end_.elim 0 fun e => e - startIn start id).sum =
      (((recordsOf segments).filter fun r => decide (a ≤ segmentOf r.1 ∧
        (start ≤ r.1 ∧ r.1 < stop) ∧
        (forgot ≤ segmentOf r.1 ∨ segmentOf r.1 = segmentOf stop))).map frameLen).sum := by
    intro n
    induction n with
    | zero =>
      intro a _ ha
      rw [filter_eq_nil_iff.mpr fun r _ => ?_]
      · rfl
      rw [decide_eq_true_eq]
      rintro ⟨hle, ⟨-, hstop⟩, -⟩
      have hseg : segmentOf r.1 ≤ segmentOf stop := Nat.div_le_div_right hstop.le
      omega
    | succ n ih =>
      intro a hge ha
      obtain ⟨b, hget⟩ : ∃ b, segments[a]? = some b :=
        ⟨_, List.getElem?_eq_getElem (show a < segments.length by omega)⟩
      have hmem := mem_of_getElem? hget
      obtain ⟨i, j, hbounds⟩ := exists_bounds (k := k) hlt (hfits b hmem) (hsmall b hmem) hge
        (show a ≤ segmentOf stop by omega) (hstart.exists hget) (hstop.exists hget)
      rw [List.range'_succ, map_cons, List.sum_cons, ih (a + 1) (by omega) (by omega),
        recordsOf_filter_next hsmall hget, map_append, List.sum_append]
      congr 1
      have hseg : ∀ r ∈ segmentRecords a b, segmentOf r.1 = a := by
        intro r hr
        obtain ⟨c, -, hpos⟩ := (mem_segmentRecords (k := k)).mp hr
        rw [hpos]
        exact segmentOf_position ((endOf_take_le b c).trans_lt (hsmall b hmem))
      by_cases hknown : forgot ≤ a ∨ a = segmentOf stop
      · have hall : ((segmentRecords a b).filter fun r => decide ((start ≤ r.1 ∧ r.1 < stop) ∧
            (forgot ≤ segmentOf r.1 ∨ segmentOf r.1 = segmentOf stop))) =
            (segmentRecords a b).filter fun r => decide (start ≤ r.1 ∧ r.1 < stop) := by
          refine filter_congr fun r hr => ?_
          rw [decide_eq_decide, hseg r hr]
          exact and_iff_left hknown
        rw [hall, hbounds.sum_eq, hbounds.startIn_eq]
        by_cases hend : a = segmentOf stop
        · simp only [if_pos hend, elim_some, hbounds.last hend]
        · simp only [if_neg hend]
          rw [hends a b hget (by omega), if_pos (hknown.resolve_right hend), elim_some,
            hbounds.inner (by omega), take_length]
      · have hnone : ((segmentRecords a b).filter fun r => decide ((start ≤ r.1 ∧ r.1 < stop) ∧
            (forgot ≤ segmentOf r.1 ∨ segmentOf r.1 = segmentOf stop))) = [] := by
          refine filter_eq_nil_iff.mpr fun r hr => ?_
          rw [decide_eq_true_eq, hseg r hr]
          exact fun hboth => hknown hboth.2
        push Not at hknown
        simp only [if_neg hknown.2]
        rw [hnone, hends a b hget (by omega), if_neg (by omega)]
        rfl
  rw [bytesBetween, if_neg (by omega), hrun _ _ le_rfl (by omega)]
  refine congrArg (fun l : List (ℕ × List UInt8) => (l.map frameLen).sum)
    (filter_congr fun r _ => ?_)
  rw [decide_eq_decide]
  constructor
  · exact And.right
  · exact fun hr => ⟨Nat.div_le_div_right hr.1.1, hr⟩

/-! ### Runs -/

/-- The bodies of the records in a segment. -/
def bodiesIn (records : List (ℕ × List UInt8)) (id : ℕ) : List (List UInt8) :=
  (records.filter fun r => decide (segmentOf r.1 = id)).map Prod.snd

theorem bodiesIn_recordsOf (hsmall : ∀ c ∈ segments, endOf k c < 2 ^ 32)
    (hget : segments[id]? = some b) : bodiesIn (recordsOf segments) id = b := by
  have hbodies : ∀ (pos : ℕ) (c : List (List UInt8)),
      ((recordsFrom pos c).map fun r => (position id r.1, r.2)).map Prod.snd = c := by
    intro pos c
    induction c generalizing pos with
    | nil => rfl
    | cons body c ih => rw [recordsFrom, map_cons, map_cons, ih]
  have hcond : (recordsOf segments).filter (fun r => decide (segmentOf r.1 = id)) =
      (recordsOf segments).filter fun r => decide (id ≤ segmentOf r.1 ∧ segmentOf r.1 = id) := by
    refine filter_congr fun r _ => ?_
    rw [decide_eq_decide]
    exact ⟨fun h => ⟨h.ge, h⟩, And.right⟩
  have hseg : ∀ r ∈ segmentRecords id b, segmentOf r.1 = id := by
    intro r hr
    obtain ⟨c, -, hpos⟩ := (mem_segmentRecords (k := k)).mp hr
    rw [hpos]
    exact segmentOf_position ((endOf_take_le b c).trans_lt
      (hsmall b (mem_of_getElem? hget)))
  rw [bodiesIn, hcond, recordsOf_filter_next hsmall hget, List.filter_eq_self.mpr,
    filter_eq_nil_iff.mpr, append_nil]
  · exact hbodies _ b
  · intro r _
    rw [decide_eq_true_eq]
    omega
  · exact fun r hr => decide_eq_true (hseg r hr)

theorem bodiesIn_append (records : List (ℕ × List UInt8)) (r : ℕ × List UInt8)
    (h : segmentOf r.1 ≠ id) : bodiesIn (records ++ [r]) id = bodiesIn records id := by
  rw [bodiesIn, filter_append, List.filter_cons_of_neg (by rwa [decide_eq_true_eq]),
    List.filter_nil, append_nil]
  rfl

/-- What is known of a log in use: the segments below `floor` are deleted, and the ends of the
sealed ones from `forgot` up are known. -/
structure RangeInv (k : LogKind) (s : RangeLog) (log : Log) (floor forgot : ℕ) : Prop where
  log_eq : s.sys.log = some log
  inv : Inv k true s.sys
  saved : s.sys.saved = none
  floor_le : floor ≤ log.segmentId
  deleted : ∀ i, i ∈ s.deleted ↔ i < floor
  ends : ∀ i < log.segmentId, s.sealedEnds.lookup i =
    if forgot ≤ i then some (endOf k (bodiesIn s.sys.records i)) else none
  forgot_le : forgot ≤ log.segmentId

theorem lookup_filter_le (sealedEnds : List (ℕ × ℕ)) (below i : ℕ) :
    (sealedEnds.filter fun e => decide (below ≤ e.1)).lookup i =
      if below ≤ i then sealedEnds.lookup i else none := by
  induction sealedEnds with
  | nil => simp
  | cons e sealedEnds ih =>
    obtain ⟨id, pos⟩ := e
    by_cases hid : i = id
    · subst hid
      by_cases hle : below ≤ i
      · rw [List.filter_cons_of_pos (by rwa [decide_eq_true_eq]), List.lookup_cons_self,
          List.lookup_cons_self, if_pos hle]
      · rw [List.filter_cons_of_neg (by rwa [decide_eq_true_eq]), ih, if_neg hle, if_neg hle]
    · have hne : (i == id) = false := beq_false_of_ne hid
      by_cases hle : below ≤ id
      · rw [List.filter_cons_of_pos (by rwa [decide_eq_true_eq]), lookup_cons,
          lookup_cons, hne]
        exact ih
      · rw [List.filter_cons_of_neg (by rwa [decide_eq_true_eq]), ih, lookup_cons, hne]

section Steps

variable {s t : RangeLog} {log : Log} {floor forgot : ℕ}

theorem RangeInv.segmentOf_tail (h : RangeInv k s log floor forgot) :
    log.pos < 2 ^ 32 ∧ log.pos = endOf k (bodiesIn s.sys.records log.segmentId) := by
  obtain ⟨segments, bodies, m, d, f, hopen⟩ := h.inv.isOpen log h.log_eq
  have hget : (segments ++ [bodies])[log.segmentId]? = some bodies := by
    rw [hopen.at_.segmentId]
    exact List.getElem?_concat_length
  have hpos : log.pos = endOf k bodies := hopen.at_.pos
  rw [hopen.records, bodiesIn_recordsOf hopen.small hget]
  exact ⟨hpos ▸ hopen.small bodies (by simp), hpos⟩

theorem rangeInv_append (h : RangeInv k s log floor forgot) {body : List UInt8} {prepared : Bool}
    (ht : rangeStep k s (.append body prepared) = some t) :
    ∃ log', RangeInv k t log' floor forgot := by
  obtain ⟨log₀, hlog, ht⟩ := Option.bind_eq_some_iff.mp ht
  obtain rfl := Option.some.inj (h.log_eq.symm.trans hlog)
  obtain ⟨sys, hsys, rfl⟩ := map_eq_some_iff.mp ht
  obtain ⟨hinv, hsaved⟩ := inv_step h.inv ⟨fun _ => rfl, fun hf => absurd hf (by decide)⟩ hsys
  obtain ⟨⟨steps, done⟩, hexec, rfl⟩ := map_eq_some_iff.mp hsys
  rw [exec] at hexec
  split_ifs at hexec
  rw [h.log_eq, Option.bind_some] at hexec
  rcases hroom : log.makeRoom k body prepared with ⟨first, e | room⟩
  · simp [hroom] at hexec
  simp only [hroom, Option.some.injEq, Prod.mk.injEq] at hexec
  obtain ⟨-, rfl⟩ := hexec
  obtain ⟨hsmall, hend⟩ := h.segmentOf_tail
  have hfloor := h.floor_le
  have hforgot := h.forgot_le
  obtain ⟨-, ⟨hrot, rfl, -⟩ | ⟨hrot, -, rfl, -⟩⟩ := makeRoom_cases hroom
  · refine ⟨_, rfl, hinv, (hsaved rfl).trans h.saved, hfloor, h.deleted, fun i hi => ?_, hforgot⟩
    have hseg : segmentOf room.tail ≠ i := by
      rw [Log.tail, segmentOf_position hsmall]
      exact (show i < room.segmentId from hi).ne'
    simp only [hrot, Bool.false_eq_true, if_false]
    rw [bodiesIn_append _ _ hseg]
    exact h.ends i hi
  · refine ⟨_, rfl, hinv, (hsaved rfl).trans h.saved, Nat.le_succ_of_le hfloor, h.deleted,
      fun i hi => ?_, Nat.le_succ_of_le hforgot⟩
    change i < log.segmentId + 1 at hi
    have hseg : segmentOf (Log.tail { log with
        segmentId := log.segmentId + 1, pos := segmentHeaderLen }) ≠ i := by
      have hlt : segmentHeaderLen < 2 ^ 32 := by decide
      rw [Log.tail, segmentOf_position hlt]
      exact hi.ne'
    simp only [hrot, if_true]
    rw [bodiesIn_append _ _ hseg]
    rcases (Nat.lt_succ_iff.mp hi).eq_or_lt with rfl | hlt
    · rw [List.lookup_cons_self, if_pos hforgot, hend]
    · rw [lookup_cons, beq_false_of_ne hlt.ne]
      exact h.ends i hlt

theorem rangeInv_commit (h : RangeInv k s log floor forgot)
    (ht : rangeStep k s .commit = some t) : ∃ log', RangeInv k t log' floor forgot := by
  obtain ⟨sys, hsys, rfl⟩ := map_eq_some_iff.mp ht
  obtain ⟨hinv, hsaved⟩ := inv_step h.inv ⟨fun _ => rfl, fun hf => absurd hf (by decide)⟩ hsys
  obtain ⟨⟨steps, done⟩, hexec, rfl⟩ := map_eq_some_iff.mp hsys
  rw [exec, h.log_eq, map_some, Option.some.injEq, Prod.mk.injEq] at hexec
  obtain ⟨-, rfl⟩ := hexec
  exact ⟨log, rfl, hinv, (hsaved rfl).trans h.saved, h.floor_le, h.deleted, h.ends, h.forgot_le⟩

/-- The directory of a log in use: its files from the floor up. -/
theorem RangeInv.dir_eq (h : RangeInv k s log floor forgot) :
    s.dir = keepFrom floor (files s.sys.disk) := by
  refine filter_congr fun x _ => ?_
  rw [decide_eq_decide, h.deleted, not_lt]

theorem RangeInv.ids (h : RangeInv k s log floor forgot) :
    (files s.sys.disk).map Prod.fst = List.range (log.segmentId + 1) := by
  obtain ⟨segments, bodies, m, d, f, hopen⟩ := h.inv.isOpen log h.log_eq
  rw [hopen.ids, hopen.at_.segmentId]

/-- **A deletion** deletes more of the oldest, and forgets the ends of what it was told to delete;
without a failure these are the same. -/
theorem rangeInv_delete (h : RangeInv k s log floor forgot) {io : Answers} {segmentId : ℕ}
    (ht : rangeStep k s (.delete io segmentId) = some t) :
    ∃ floor' forgot', RangeInv k t log floor' forgot' ∧
      (io = .sound → forgot = floor → forgot' = floor') := by
  rw [rangeStep, h.log_eq, map_some] at ht
  have ht := (Option.some.inj ht).symm
  have hids := h.ids
  have hfloor := h.floor_le
  have hforgot := h.forgot_le
  have hdir : s.dir.map Prod.fst = List.range' floor (log.segmentId + 1 - floor) := by
    rw [h.dir_eq, ids_keepFrom, hids, List.range_eq_range', range'_filter_le, Nat.zero_max,
      Nat.sub_zero]
  have hsorted : (s.dir.map Prod.fst).Pairwise (· < ·) := by
    rw [hdir]
    exact List.pairwise_lt_range' ..
  obtain ⟨stop, hle, hleft, hsound⟩ := deleteSegmentsBelow_files log.segmentId io hsorted segmentId
  rw [hleft] at ht
  have hgone : ∀ i, i ∈ t.deleted ↔ i < max floor stop := by
    intro i
    rw [ht]
    simp only [mem_append, h.deleted, mem_filter, decide_eq_true_eq, ids_keepFrom, hdir,
      mem_range'_1]
    omega
  -- which ends are dropped
  obtain ⟨below, hbelow, hends, hall⟩ : ∃ below ≤ log.segmentId,
      (∀ i, t.sealedEnds.lookup i = if below ≤ i then s.sealedEnds.lookup i else none) ∧
      (io = .sound → below = min segmentId log.segmentId) := by
    rw [ht]
    dsimp only
    unfold retainEnds
    dsimp only
    split
    · exact ⟨_, min_le_right .., lookup_filter_le _ _, fun _ => rfl⟩
    · next hfailed =>
      refine ⟨0, Nat.zero_le _, fun i => (if_pos (Nat.zero_le i)).symm, ?_⟩
      rintro rfl
      exact absurd ⟨rfl, fun hf => absurd hf.2 (by decide)⟩ hfailed
  have hsys : t.sys = s.sys := by rw [ht]
  refine ⟨max floor stop, max forgot below, ⟨?_, ?_, ?_, by omega, hgone, fun i hi => ?_, by omega⟩,
    fun hio heq => ?_⟩
  · rw [hsys, h.log_eq]
  · rw [hsys]
    exact h.inv
  · rw [hsys, h.saved]
  · rw [hends, h.ends i hi, hsys]
    by_cases hb : below ≤ i
    · rw [if_pos hb]
      exact if_congr (by omega) rfl rfl
    · rw [if_neg hb, if_neg (by omega)]
  · rw [hall hio, hsound hio, heq]

end Steps

theorem rangeInv_create {segmentSize : ℕ} (h : RangeLog.create k segmentSize = some s) :
    ∃ log, RangeInv k s log 0 0 := by
  obtain ⟨sys, hsys, rfl⟩ := map_eq_some_iff.mp h
  have hempty : Inv k true Sys.init := inv_init
  obtain ⟨hinv, hsaved⟩ := inv_step hempty
    ⟨fun _ => rfl, fun hf => absurd hf (by decide)⟩ hsys
  obtain ⟨⟨steps, done⟩, hexec, rfl⟩ := map_eq_some_iff.mp hsys
  rw [exec] at hexec
  split_ifs at hexec
  obtain ⟨log, hlog, hid⟩ : ∃ log, done.log = some log ∧ log.segmentId = 0 := by
    obtain ⟨-, rfl⟩ := Prod.mk.inj (Option.some.inj hexec)
    exact ⟨_, rfl, rfl⟩
  exact ⟨log, hlog, hinv, hsaved rfl, Nat.zero_le _, fun i => by simp,
    fun i hi => absurd hi (by omega), Nat.zero_le _⟩

theorem rangeInv_run {segmentSize : ℕ} {s₀ : RangeLog}
    (h₀ : RangeLog.create k segmentSize = some s₀) {acts : List RangeAct}
    (hrun : StepRun.run (rangeStep k) s₀ acts = some s) :
    ∃ log floor forgot, RangeInv k s log floor forgot ∧
      ((∀ a ∈ acts, a.sound) → forgot = floor) := by
  obtain ⟨log₀, hinit⟩ := rangeInv_create h₀
  have hfirst : ∃ log floor forgot, RangeInv k s₀ log floor forgot ∧
      ((∀ a ∈ ([] : List RangeAct), a.sound) → forgot = floor) :=
    ⟨log₀, 0, 0, hinit, fun _ => rfl⟩
  have hstep : ∀ as t a u, StepRun.run (rangeStep k) s₀ as = some t →
      (∃ log floor forgot, RangeInv k t log floor forgot ∧
        ((∀ b ∈ as, b.sound) → forgot = floor)) → rangeStep k t a = some u →
      ∃ log floor forgot, RangeInv k u log floor forgot ∧
        ((∀ b ∈ as ++ [a], b.sound) → forgot = floor) := by
    rintro as t a u _ ⟨log, floor, forgot, h, hsame⟩ hu
    have hbefore : (∀ b ∈ as ++ [a], b.sound) → forgot = floor := fun hall =>
      hsame fun b hb => hall b (List.mem_append_left _ hb)
    cases a with
    | append body prepared =>
      obtain ⟨log', h'⟩ := rangeInv_append h hu
      exact ⟨log', floor, forgot, h', hbefore⟩
    | commit =>
      obtain ⟨log', h'⟩ := rangeInv_commit h hu
      exact ⟨log', floor, forgot, h', hbefore⟩
    | delete io segmentId =>
      obtain ⟨floor', forgot', h', heq⟩ := rangeInv_delete h hu
      refine ⟨log, floor', forgot', h', fun hall => heq ?_ (hbefore hall)⟩
      exact hall _ (List.mem_append_right _ (List.mem_singleton_self _))
  exact StepRun.history_invariant hfirst hstep hrun

theorem OpenSys.frameAt {log : Log} {bodies : List (List UInt8)} {m : ℕ} {d : Disk} {f : File}
    (h : OpenSys k true s.sys log segments bodies m d f) (hlog : s.sys.log = some log) {pos : ℕ}
    (hpos : s.FrameBoundary pos) : FrameAt k (segments ++ [bodies]) pos := by
  have hplace : ∀ {id i : ℕ} {b : List (List UInt8)}, (segments ++ [bodies])[id]? = some b →
      i ≤ b.length → FrameAt k (segments ++ [bodies]) (position id (endOf k (b.take i))) := by
    intro id i b hget hi
    have hlt := (endOf_take_le (k := k) b i).trans_lt (h.small b (mem_of_getElem? hget))
    exact ⟨b, by rw [segmentOf_position hlt, hget], i, hi, byteOf_position hlt⟩
  rcases hpos with ⟨log', hlog', id, hid, rfl⟩ | ⟨r, hr, hpos⟩
  · obtain rfl := Option.some.inj (hlog.symm.trans hlog')
    rw [h.at_.segmentId] at hid
    have hlen : id < (segments ++ [bodies]).length := by
      rw [length_append, length_singleton]
      omega
    have hstart := hplace (List.getElem?_eq_getElem hlen) (Nat.zero_le _)
    rwa [List.take_zero, endOf_nil] at hstart
  · rw [h.records] at hr
    obtain ⟨id, b, hget, hmem⟩ := mem_recordsOf.mp hr
    obtain ⟨i, hi, hr⟩ := (mem_segmentRecords (k := k)).mp hmem
    obtain ⟨hlt, hbody⟩ := List.getElem?_eq_some_iff.mp hi
    rcases hpos with rfl | rfl
    · rw [hr]
      exact hplace hget hlt.le
    · have hnext : r.1 + (frameHeaderLen + r.2.length) =
          position id (endOf k (b.take (i + 1))) := by
        have htake : b.take (i + 1) = b.take i ++ [b[i]] := (List.take_concat_get' ..).symm
        rw [htake, endOf_concat, hr, hbody, position, position]
        omega
      rw [hnext]
      exact hplace hget hlt

/-- **Range reads are exact.** For every log made by appends, rotations and deletions, all frame
boundaries and any deletions during the read: it hands over, in order and once each, the records of
the range but those in segments that are gone, and a segment is passed over only if it is not there
at some look, and read only if it is there at some look. The bytes counted, after deletions that
did not fail, are those of the records of the range that are not deleted, or in the segment of the
range's end. -/
theorem range_reads_exact (k : LogKind) {segmentSize : ℕ} {s₀ s : RangeLog}
    (h₀ : RangeLog.create k segmentSize = some s₀) (acts : List RangeAct)
    (hrun : StepRun.run (rangeStep k) s₀ acts = some s) {log : Log} (hlog : s.sys.log = some log)
    {start stop : ℕ} (hstart : s.FrameBoundary start) (hstop : s.FrameBoundary stop)
    (calls : ℕ → List (Answers × ℕ)) :
    (∃ gone : List ℕ,
      forEachWith k (viewAfter log.segmentId calls s.dir) start stop =
        (s.sys.records.filter fun r =>
          decide ((start ≤ r.1 ∧ r.1 < stop) ∧ segmentOf r.1 ∉ gone), .ok ()) ∧
      (∀ i ∈ gone, ∃ t, i ∉ (viewAfter log.segmentId calls s.dir t).map Prod.fst) ∧
      ∀ i, segmentOf start ≤ i → i ≤ segmentOf stop → i ∉ gone →
        ∃ t, i ∈ (viewAfter log.segmentId calls s.dir t).map Prod.fst) ∧
    ((∀ a ∈ acts, a.sound) → bytesBetween s.sealedEnds start stop =
      ((s.sys.records.filter fun r => decide ((start ≤ r.1 ∧ r.1 < stop) ∧
        (segmentOf r.1 ∉ s.deleted ∨ segmentOf r.1 = segmentOf stop))).map frameLen).sum) := by
  obtain ⟨log', floor, forgot, h, hsame⟩ := rangeInv_run h₀ hrun
  obtain rfl := Option.some.inj (hlog.symm.trans h.log_eq)
  obtain ⟨segments, bodies, m, d, f, hopen⟩ := h.inv.isOpen log hlog
  have hfirst := hopen.frameAt hlog hstart
  have hlast := hopen.frameAt hlog hstop
  rcases Nat.lt_or_ge start stop with hlt | hge
  · refine ⟨?_, fun hsound => ?_⟩
    · obtain ⟨floors, -, hview⟩ := exists_shrinking h.ids h.floor_le calls
      have hids := h.ids
      have hview' := hview
      rw [hopen.at_.segmentId] at hview'
      obtain ⟨gone, hread, hdeleted, hkept⟩ := hopen.readFrom_exact hview' hlt hfirst hlast
        (segmentOf stop + 1) 0 start (segmentOf start) (by omega) le_rfl fun a _ => rfl
      have hmem : ∀ t i, i ≤ log.segmentId →
          (i ∈ (viewAfter log.segmentId calls s.dir t).map Prod.fst ↔ floors t ≤ i) := by
        intro t i hi
        rw [h.dir_eq, hview.eq, ids_keepFrom, hids, mem_filter, List.mem_range,
          decide_eq_true_eq]
        omega
      refine ⟨gone, ?_, fun i hi => ?_, fun i hi his hnot => ?_⟩
      · rw [forEachWith, if_neg (by omega), h.dir_eq, hopen.at_.segmentId, hread, hopen.records]
        refine congrArg (fun l => (l, Except.ok ())) (filter_congr fun r _ => ?_)
        rw [decide_eq_decide]
        exact ⟨And.right, fun hr => ⟨Nat.div_le_div_right hr.1.1, hr⟩⟩
      · obtain ⟨-, t, ht⟩ := hdeleted i hi
        have hle := hview.le t
        exact ⟨t, fun hin => absurd ((hmem t i (by omega)).mp hin) (by omega)⟩
      · obtain ⟨t, ht⟩ := hkept i hi his hnot
        have hle : segmentOf stop ≤ log.segmentId := by
          obtain ⟨b, hget, -⟩ := hlast
          obtain ⟨hlen, -⟩ := List.getElem?_eq_some_iff.mp hget
          rw [length_append, length_singleton, ← hopen.at_.segmentId] at hlen
          omega
        exact ⟨t, (hmem t i (by omega)).mpr ht⟩
    · have hfits : ∀ c ∈ segments ++ [bodies], ∀ body ∈ c, Fits body := by
        intro c hc
        obtain ⟨i, hi⟩ := List.mem_iff_getElem?.mp hc
        obtain ⟨hlen, -⟩ := List.getElem?_eq_some_iff.mp hi
        rw [length_append, length_singleton] at hlen
        obtain ⟨-, b, -, -, -, hget, -, -, hfits, -⟩ := hopen.file (a := i) (by omega)
        rw [hi] at hget
        rwa [Option.some.inj hget]
      rw [bytesBetween_exact hopen.small hfits forgot (fun id b hget hid => ?_) hlt hfirst hlast,
        hopen.records]
      · refine congrArg (fun l : List (ℕ × List UInt8) => (l.map frameLen).sum)
          (filter_congr fun r _ => ?_)
        rw [decide_eq_decide, h.deleted, hsame hsound, not_lt]
      · rw [length_append, length_singleton, ← hopen.at_.segmentId] at hid
        rw [h.ends id (by omega), hopen.records, bodiesIn_recordsOf hopen.small hget]
  · have hnone : ∀ (q : ℕ × List UInt8 → Prop) [DecidablePred q],
        (s.sys.records.filter fun r => decide ((start ≤ r.1 ∧ r.1 < stop) ∧ q r)) = [] := by
      intro q _
      refine filter_eq_nil_iff.mpr fun r _ => ?_
      rw [decide_eq_true_eq]
      omega
    refine ⟨⟨(List.range (segmentOf stop + 1)).filter fun i =>
      decide (i ∉ (viewAfter log.segmentId calls s.dir 0).map Prod.fst), ?_, fun i hi => ?_,
      fun i _ his hnot => ?_⟩, fun _ => ?_⟩
    · rw [forEachWith, if_pos hge, hnone]
    · rw [mem_filter, decide_eq_true_eq] at hi
      exact ⟨0, hi.2⟩
    · rw [mem_filter, List.mem_range, decide_eq_true_eq] at hnot
      refine ⟨0, ?_⟩
      by_contra hout
      exact hnot ⟨by omega, hout⟩
    · rw [bytesBetween, if_pos hge, hnone]
      rfl

/-- Three records, one a segment, the first two segments deleted. -/
def threeSegments : List RangeAct :=
  [.append (List.replicate 30 1) false, .append (List.replicate 30 2) false,
    .append (List.replicate 30 3) false, .delete .sound 2]

def newLog : RangeLog := (RangeLog.create walKind 64).get rfl

def threeSegmentsLog : RangeLog := (StepRun.run (rangeStep walKind) newLog threeSegments).get rfl

theorem threeSegmentsLog_log : threeSegmentsLog.sys.log = some ⟨64, 2, 54⟩ := rfl

/-- A read from the first record on finds its segment gone and goes on with the third. -/
theorem range_reads_exact_three :
    ∃ gone : List ℕ, forEachWith walKind (viewAfter 2 (fun _ => []) threeSegmentsLog.dir)
      (position 0 16) (position 2 16) =
      (threeSegmentsLog.sys.records.filter fun r =>
        decide ((position 0 16 ≤ r.1 ∧ r.1 < position 2 16) ∧ segmentOf r.1 ∉ gone), .ok ()) := by
  obtain ⟨⟨gone, hread, -⟩, -⟩ := range_reads_exact walKind (some_get _).symm threeSegments
    (some_get _).symm threeSegmentsLog_log
    (.inl ⟨_, threeSegmentsLog_log, 0, by decide, rfl⟩)
    (.inl ⟨_, threeSegmentsLog_log, 2, by decide, rfl⟩) fun _ => []
  exact ⟨gone, hread⟩

/-- The bytes of a record whose segment is deleted are counted when the range ends in that
segment. -/
theorem bytesBetween_counts_deleted :
    threeSegmentsLog.FrameBoundary (position 1 16) ∧
      threeSegmentsLog.FrameBoundary (position 1 54) ∧ 1 ∈ threeSegmentsLog.deleted ∧
      bytesBetween threeSegmentsLog.sealedEnds (position 1 16) (position 1 54) = 38 ∧
      ((threeSegmentsLog.sys.records.filter fun r =>
        decide ((position 1 16 ≤ r.1 ∧ r.1 < position 1 54) ∧
          segmentOf r.1 ∉ threeSegmentsLog.deleted)).map frameLen).sum = 0 := by
  have hmem : (position 1 16, List.replicate 30 2) ∈ threeSegmentsLog.sys.records := by
    decide +kernel
  exact ⟨.inl ⟨_, threeSegmentsLog_log, 1, by decide, rfl⟩, .inr ⟨_, hmem, .inr rfl⟩,
    by decide +kernel, by decide +kernel, by decide +kernel⟩

end SegmentedLog

end Minnal
