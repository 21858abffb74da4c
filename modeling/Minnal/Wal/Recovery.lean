import Minnal.Lsm.Archive
import Minnal.Wal.Reopen

/-!
# Runs of the log

Over any run of opens, appends, commits and power losses the directory is one a power loss may
hit, in the middle of any operation (`Inv`, `inv_step`). The argument is made once for two kinds
of runs. In a **tidy** run no append fails; then nothing but zeros lies behind the records, and
every reopen succeeds, unless saved progress stops it. In any other run no saved progress is
taken into account, and what a failed append leaves must not spell a frame where a record ends
(`leftoversSafe`).

The results are `power_loss_recovers` (tidy runs without saved progress) and
`failed_append_stays_out` (runs with failed appends).
-/

set_option linter.dupNamespace false

namespace Minnal

open ByteCodec CrashDisk
open List (mem_append mem_singleton prefix_append take_zero mem_map append_assoc append_nil map_map)
open Option (map_eq_some_iff all_some bind_eq_some_iff elim_none)

variable {id start : ℕ} {body : List UInt8} {prepared : Bool} {steps : List Step} {room log : Log}
  {s : Sys} {b : List (List UInt8)}

namespace SegmentedLog

variable (k : LogKind)

/-! ### What a failed append leaves -/

/-- No frame is parsed from these bytes. -/
def spellsNoFrame (rest : List UInt8) : Bool :=
  match nextFrame k rest with
  | .ok _ => false
  | .error _ => true

/-- Whether an append of this length goes to the next segment. -/
def Log.rotates (log : Log) (body : List UInt8) : Bool :=
  decide (log.segmentSize < log.pos + (frameHeaderLen + body.length) + endMarkerLen)

/-- **Leftovers spell no frame.** Where the frame of an append will end, none of the contents the
active segment has had since its last fsync has a whole frame; and a failed append leaves no
whole frame at the tail. -/
def leftoversSafe (s : Sys) : Op → Bool
  | .append body _ => s.log.all fun log => log.rotates body ||
      s.disk.all fun x => decide (x.1 ≠ log.segmentId) ||
        x.2.contents.all fun c => spellsNoFrame k (c.drop (log.pos + (frameHeaderLen + body.length)))
  | .failAppend body _ written => s.log.all fun log =>
      let bytes := (frameBytes k body).take written
      if log.rotates body then
        spellsNoFrame k (bytes ++ List.replicate (log.segmentSize - segmentHeaderLen - written) 0)
      else
        s.disk.all fun x => decide (x.1 ≠ log.segmentId) ||
          spellsNoFrame k (bytes ++ x.2.data.drop (log.pos + written))
  | _ => true

/-- The operation an action runs, whole or in part. -/
def Act.op : Act → Option Op
  | .run op => some op
  | .crash op _ _ => some op
  | .save _ => none

/-- The action is no append that fails. -/
def Act.noFailure (a : Act) : Bool :=
  match a.op with
  | some (.failAppend _ _ _) => false
  | _ => true

/-- The action saves no progress. -/
def Act.noSave : Act → Bool
  | .save _ => false
  | _ => true

variable {k} {tidy : Bool} {rest : List UInt8}

theorem noFrame_of_spellsNoFrame (h : spellsNoFrame k rest = true) : NoFrame k rest := by
  intro body after hnext
  rw [spellsNoFrame, hnext] at h
  cases h

/-! ### The invariant -/

/-- What the log is supposed to hold. -/
def Sys.ledger (s : Sys) : Ledger := ⟨s.records, s.committed, namedBy s.saved⟩

/-- An open log holds exactly its records, those below the committed position are durable, and
its tail is at or above every position saved. -/
structure OpenSys (k : LogKind) (tidy : Bool) (s : Sys) (log : Log)
    (segments : List (List (List UInt8))) (bodies : List (List UInt8)) (m : ℕ) (sealed : Disk)
    (f : File) : Prop where
  at_ : LogAt k tidy s.disk log segments bodies m sealed f
  records : s.records = recordsOf (segments ++ [bodies])
  placed : ∀ x ∈ namedBy s.saved, Placed k (segments ++ [bodies]) x
  le_tail : ∀ x ∈ namedBy s.saved, x ≤ log.tail
  committed_le : s.committed ≤ log.tail
  durable : ∀ r ∈ s.records, r.1 < s.committed →
    r.1 < position segments.length (endOf k (bodies.take m))

/-- **The invariant**: a closed log can be reopened, an open one is on its disk. -/
structure Inv (k : LogKind) (tidy : Bool) (s : Sys) : Prop where
  untidy : tidy = false → s.saved = none
  closed : s.log = none → ∃ images, s.disk = restart images ∧ Recoverable k tidy s.ledger images
  isOpen : ∀ log, s.log = some log →
    ∃ segments bodies m sealed f, OpenSys k tidy s log segments bodies m sealed f

theorem inv_init : Inv k tidy Sys.init where
  untidy := fun _ => rfl
  closed := fun _ => ⟨[], rfl, .allSealed .nil ⟨by simp [Sys.ledger, Sys.init, namedBy], [], rfl, by simp⟩⟩
  isOpen := fun log hlog => by cases hlog

variable {x : ℕ}

section Open

variable {s : Sys} {log : Log} {segments : List (List (List UInt8))} {bodies : List (List UInt8)}
  {m : ℕ} {d : Disk} {f : File}

theorem LogAt.tail_eq (h : LogAt k tidy s.disk log segments bodies m d f) :
    log.tail = position segments.length (endOf k bodies) := by
  rw [Log.tail, h.segmentId, h.pos]

/-- Where a record or a segment starts, or the records of a segment end. -/
def Boundary (k : LogKind) (segments : List (List (List UInt8))) (pos : ℕ) : Prop :=
  ∃ bodies, segments[segmentOf pos]? = some bodies ∧
    ∃ i, max (byteOf pos) segmentHeaderLen = endOf k (bodies.take i)

theorem boundary_position (hget : segments[id]? = some bodies) (hsmall : endOf k bodies < 2 ^ 32)
    (i : ℕ) : Boundary k segments (position id (endOf k (bodies.take i))) := by
  have hlt : endOf k (bodies.take i) < 2 ^ 32 := (endOf_take_le bodies i).trans_lt hsmall
  have hge : segmentHeaderLen ≤ endOf k (bodies.take i) := Nat.le_add_right _ _
  refine ⟨bodies, by rw [segmentOf_position hlt, hget], i, ?_⟩
  rw [byteOf_position hlt, max_eq_left hge]

/-- Positions that progress may name: boundaries, and those named before. -/
theorem OpenSys.nameable_cases (h : OpenSys k tidy s log segments bodies m d f)
    (hx : s.nameable log x = true) :
    x ≤ log.tail ∧ (Boundary k (segments ++ [bodies]) x ∨ x ∈ namedBy s.saved) := by
  simp only [Sys.nameable, Bool.and_eq_true, Bool.or_eq_true, decide_eq_true_eq, List.any_eq_true]
    at hx
  obtain ⟨hle, hx⟩ := hx
  have hsmall : ∀ b ∈ segments ++ [bodies], endOf k b < 2 ^ 32 := by
    intro b hb
    rcases mem_append.mp hb with hb | hb
    · exact (Nat.le_add_right _ _).trans_lt (h.at_.chain.small b hb)
    · rw [mem_singleton.mp hb]
      exact (Nat.le_add_right _ _).trans_lt h.at_.active.live.small
  have hlast : (segments ++ [bodies])[segments.length]? = some bodies := List.getElem?_concat_length
  refine ⟨hle, ?_⟩
  rcases hx with ((hstart | rfl) | ⟨r, hr, rfl⟩) | hsaved
  · -- where a segment starts
    rw [h.at_.tail_eq] at hle
    have hid : segmentOf x < (segments ++ [bodies]).length := by
      by_contra hge
      rw [List.length_append, List.length_singleton, not_lt] at hge
      have hpos := position_lt_position (byteOf x) (Nat.lt_of_succ_le hge) (hsmall bodies (by simp))
      rw [position_eq] at hpos
      omega
    refine .inl ⟨_, List.getElem?_eq_getElem hid, 0, ?_⟩
    rw [take_zero, endOf_nil, max_eq_right hstart]
  · rw [h.at_.tail_eq]
    have hboundary := boundary_position hlast (hsmall bodies (by simp)) bodies.length
    rw [List.take_length] at hboundary
    exact .inl hboundary
  · rw [h.records] at hr
    obtain ⟨id, b, hget, hmem⟩ := mem_recordsOf.mp hr
    obtain ⟨i, -, hpos⟩ := (mem_segmentRecords (k := k)).mp hmem
    rw [hpos]
    exact .inl (boundary_position hget (hsmall b (List.mem_of_getElem? hget)) i)
  · right
    cases hp : s.saved with
    | none => simp [hp] at hsaved
    | some p => simpa [hp, namedBy] using hsaved

theorem OpenSys.nameable (h : OpenSys k tidy s log segments bodies m d f)
    (hx : s.nameable log x = true) : Placed k (segments ++ [bodies]) x ∧ x ≤ log.tail := by
  obtain ⟨hle, ⟨b, hget, hboundary⟩ | hsaved⟩ := h.nameable_cases hx
  · exact ⟨⟨b, hget, .inl hboundary⟩, hle⟩
  · exact ⟨h.placed x hsaved, hle⟩

theorem OpenSys.accounts (h : OpenSys k tidy s log segments bodies m d f) (limit : ℕ) :
    Accounts k s.ledger (segments ++ [bodies]) limit :=
  accounts_of_eq h.placed h.records

/-- While the log is idle, a power loss may hit. -/
theorem OpenSys.holds (h : OpenSys k tidy s log segments bodies m d f) :
    Holds k tidy s.ledger s.disk := by
  rw [h.at_.disk]
  exact h.at_.active.holds h.at_.chain (h.accounts _) h.durable

/-! ### Operations -/

/-- Making room: the frame fits, or the segment is rotated. -/
theorem makeRoom_cases (h : log.makeRoom k body prepared = (steps, .ok room)) :
    frameHeaderLen + body.length ≤ log.maxFrameLen ∧
      ((log.rotates body = false ∧ room = log ∧ steps = []) ∨
        (log.rotates body = true ∧ log.segmentId + 1 < 2 ^ 32 ∧
          room = { log with segmentId := log.segmentId + 1, pos := segmentHeaderLen } ∧
          ∃ creating, (creating = createSegment k (log.segmentId + 1) log.segmentSize ∨ creating =
              [.install (log.segmentId + 1)
                (resize (headerBytes k (log.segmentId + 1)) log.segmentSize), .syncDir]) ∧
            steps = [Step.write log.segmentId log.pos endMarkerBytes, .sync log.segmentId] ++
              creating)) := by
  rw [Log.makeRoom] at h
  split_ifs at h with hlarge hfull
  · cases h
  · rw [Log.rotate] at h
    refine ⟨not_lt.mp hlarge, .inr ⟨decide_eq_true hfull, ?_⟩⟩
    rcases Nat.lt_or_ge (log.segmentId + 1) (2 ^ 32) with hid | hid
    · simp only [checkSegmentId_ok hid, Prod.mk.injEq, Except.ok.injEq] at h
      obtain ⟨rfl, rfl⟩ := h
      refine ⟨hid, rfl, _, ?_, rfl⟩
      cases prepared
      · exact .inl rfl
      · exact .inr rfl
    · simp only [checkSegmentId_error hid, Prod.mk.injEq] at h
      exact nomatch h.2
  · simp only [Prod.mk.injEq, Except.ok.injEq] at h
    obtain ⟨rfl, rfl⟩ := h
    exact ⟨not_lt.mp hlarge, .inl ⟨decide_eq_false hfull, rfl, rfl⟩⟩

/-- **Making room** leaves an open log with the same records. A power loss on the way leaves a
log that can be reopened, also when the record it is made for counts as appended. -/
theorem OpenSys.makeRoom (h : OpenSys k tidy s log segments bodies m d f)
    (hroom : log.makeRoom k body prepared = (steps, .ok room)) (extra : List (ℕ × List UInt8))
    (hextra : ∀ r ∈ extra, r.1 = room.tail) :
    let committed := if room = log then s.committed else log.tail
    (∀ n < steps.length, Holds k tidy
        ⟨s.records ++ extra, if n < 2 then s.committed else committed, namedBy s.saved⟩
        (applyAll s.disk (steps.take n))) ∧
      ∃ segments' bodies' m' d' f', OpenSys k tidy
        { s with disk := applyAll s.disk steps, log := some room, committed := committed } room
        segments' bodies' m' d' f' ∧
        (log.rotates body = false → segments' = segments ∧ bodies' = bodies ∧ f' = f) ∧
        (log.rotates body = true → bodies' = [] ∧
          f' = .durable (headerBytes k room.segmentId ++
            List.replicate (log.segmentSize - segmentHeaderLen) 0)) := by
  intro committed
  obtain ⟨-, ⟨hfits, rfl, rfl⟩ | ⟨hrotates, hid, rfl, creating, hcreating, rfl⟩⟩ := makeRoom_cases hroom
  · refine ⟨fun n hn => absurd hn (Nat.not_lt_zero n), segments, bodies, m, d, f, ?_,
      fun _ => ⟨rfl, rfl, rfl⟩, fun hrot => absurd (hfits.symm.trans hrot) (by decide)⟩
    have hsame : committed = s.committed := if_pos rfl
    exact
      { at_ := h.at_
        records := h.records
        placed := h.placed
        le_tail := h.le_tail
        committed_le := hsame.trans_le h.committed_le
        durable := by
          rw [hsame]
          exact h.durable }
  obtain ⟨hdisk, hchain, hactive, hsegment, hpos, hge, hlt⟩ := h.at_
  have htail : log.tail = position segments.length (endOf k bodies) := h.at_.tail_eq
  have hnext : ({ log with segmentId := log.segmentId + 1, pos := segmentHeaderLen } : Log).tail =
      position (segments.length + 1) segmentHeaderLen := by
    rw [Log.tail, hsegment]
  rw [hnext] at hextra
  have hcommitted : committed = log.tail := by
    refine if_neg fun heq => ?_
    have hne := congrArg Log.segmentId heq
    simp only at hne
    omega
  have hheader : segmentHeaderLen ≤ log.segmentSize := le_trans (by decide) hge
  have hle : log.tail ≤ position (segments.length + 1) segmentHeaderLen :=
    htail.trans_le hactive.position_le
  have haccounts : ∀ c ≤ log.tail, ∀ limit ≤ position (segments.length + 1) segmentHeaderLen,
      Accounts k ⟨s.records ++ extra, c, namedBy s.saved⟩ (segments ++ [bodies]) limit := by
    intro c hc limit hlimit
    refine ⟨h.placed, extra, by rw [h.records], fun r hr => ?_⟩
    rw [hextra r hr]
    exact ⟨hc.trans hle, hlimit⟩
  have hdurable : ∀ r ∈ s.records ++ extra, r.1 < s.committed →
      r.1 < position segments.length (endOf k (bodies.take m)) := by
    intro r hr hrc
    rcases mem_append.mp hr with hr | hr
    · exact h.durable r hr hrc
    · rw [hextra r hr] at hrc
      exact absurd hrc (not_lt.mpr (h.committed_le.trans hle))
  rw [hsegment] at hid hcreating
  obtain ⟨hsealing, g, happly, hfile⟩ := hactive.sealing hchain hid
    (haccounts _ h.committed_le _ hactive.position_le) hdurable
  have hlen : (segments ++ [bodies]).length = segments.length + 1 := by simp
  rw [← hlen] at hcreating hid
  have hcreate : ∀ {l : Ledger}, Accounts k l (segments ++ [bodies])
      (position (segments ++ [bodies]).length segmentHeaderLen) → _ := fun haccounts =>
    creating_holds (l := _) (hchain.concat hfile) hid haccounts hheader hcreating
  rw [← hdisk, ← hsegment, ← hpos] at hsealing happly
  constructor
  · intro n hn
    rcases Nat.lt_or_ge n 2 with hlt2 | hge2
    · -- before the segment is sealed and durable
      rw [if_pos hlt2, List.take_append_of_le_length (by simpa using hlt2.le)]
      exact hsealing n
    · have htake : ([Step.write log.segmentId log.pos endMarkerBytes, .sync log.segmentId] ++
          creating).take n = [Step.write log.segmentId log.pos endMarkerBytes,
            .sync log.segmentId] ++ creating.take (n - 2) := by
        rw [List.take_append, List.take_of_length_le (by simpa using hge2)]
        rfl
      rw [if_neg hge2.not_gt, hcommitted, htake, applyAll_append, happly, hsegment]
      exact (hcreate (haccounts _ le_rfl _ (by rw [hlen]))).1 (n - 2)
  · have hfinal := (hcreate (haccounts log.tail le_rfl _ (by rw [hlen]))).2
    have hsame : recordsOf (segments ++ [bodies] ++ [[]]) = recordsOf (segments ++ [bodies]) := by
      rw [recordsOf_concat _ [], segmentRecords_nil, append_nil]
    refine ⟨segments ++ [bodies], [], 0, _, _, ⟨⟨?_, hchain.concat hfile,
        .new hid (log.segmentSize - segmentHeaderLen), ?_, rfl, hge, hlt⟩,
      ?_, fun x hx => (h.placed x hx).concat [], fun x hx => ?_, ?_, fun r hr _ => ?_⟩,
      fun hrot => absurd (hrotates.symm.trans hrot) (by decide), fun _ => ⟨rfl, ?_⟩⟩
    · rw [applyAll_append, happly, hsegment]
      exact hfinal
    · rw [hlen, hsegment]
    · rw [hsame]
      exact h.records
    · rw [hnext]
      exact (h.le_tail x hx).trans hle
    · rw [hnext, hcommitted]
      exact hle
    · simp only at hr
      rw [h.records] at hr
      rw [take_zero, endOf_nil, hlen]
      exact (lt_of_mem_recordsOf hchain.small hr).trans_le hactive.position_le
    · rw [hlen, hsegment]

/-- **Writing the frame** of a record, where no leftovers spell a frame. -/
theorem OpenSys.write (h : OpenSys k tidy s log segments bodies m d f) (hfits : Fits body)
    (hsmall : endOf k (bodies ++ [body]) + endMarkerLen < 2 ^ 32)
    (hclean : ∀ c ∈ f.contents, NoFrame k (c.drop (endOf k (bodies ++ [body])))) :
    Throughout
        (Holds k tidy ⟨s.records ++ [(log.tail, body)], s.committed, namedBy s.saved⟩) s.disk
        [.write log.segmentId log.pos (frameBytes k body)] ∧
      ∃ f', OpenSys k tidy
        { s with
          disk := applyAll s.disk [.write log.segmentId log.pos (frameBytes k body)]
          log := some (log.advance body)
          records := s.records ++ [(log.tail, body)] }
        (log.advance body) segments (bodies ++ [body]) m d f' := by
  obtain ⟨hdisk, hchain, hactive, hsegment, hpos, hge, hlt⟩ := h.at_
  have htail : log.tail = position segments.length (endOf k bodies) := h.at_.tail_eq
  have hnew := hactive.append hfits hsmall hclean
  have hsub : f.contents ⊆ (f.change (writeAt f.data (endOf k bodies) (frameBytes k body))).contents :=
    List.subset_cons_self _ _
  have hrecords : s.records ++ [(log.tail, body)] = recordsOf (segments ++ [bodies ++ [body]]) := by
    rw [h.records, recordsOf_concat, recordsOf_concat, segmentRecords_concat (k := k), htail,
      append_assoc]
  have hplaced : ∀ x ∈ namedBy s.saved, Placed k (segments ++ [bodies ++ [body]]) x := by
    intro x hx
    obtain ⟨b, hget, hb⟩ := h.placed x hx
    have hle := h.le_tail x hx
    rcases lt_trichotomy (segmentOf x) segments.length with hlt' | heq | hgt
    · rw [List.getElem?_append_left hlt'] at hget
      exact ⟨b, by rw [List.getElem?_append_left hlt', hget], hb⟩
    · rw [heq, List.getElem?_concat_length, Option.some.injEq] at hget
      obtain rfl := hget
      refine ⟨bodies ++ [body], by rw [heq, List.getElem?_concat_length], .inl ?_⟩
      rcases hb with ⟨i, hi⟩ | hgap
      · rcases Nat.lt_or_ge i bodies.length with hin | hout
        · exact ⟨i, by rw [hi, List.take_append_of_le_length hin.le]⟩
        · refine ⟨bodies.length, ?_⟩
          rw [hi, List.take_of_length_le hout, List.take_left]
      · -- a position behind the last record would be above the tail
        have hposition := position_eq x
        rw [heq] at hposition
        rw [htail] at hle
        simp only [position] at hposition hle
        omega
    · rw [List.getElem?_eq_none (by simpa using hgt)] at hget
      cases hget
  have hdurable : ∀ r ∈ s.records ++ [(log.tail, body)], r.1 < s.committed →
      r.1 < position segments.length (endOf k ((bodies ++ [body]).take m)) := by
    intro r hr hrc
    rw [List.take_append_of_le_length hactive.m_le]
    rcases mem_append.mp hr with hr | hr
    · exact h.durable r hr hrc
    · rw [mem_singleton.mp hr] at hrc
      exact absurd hrc (not_lt.mpr h.committed_le)
  have happly : apply s.disk (.write log.segmentId log.pos (frameBytes k body)) =
      d ++ [(segments.length, f.change (writeAt f.data (endOf k bodies) (frameBytes k body)))] := by
    rw [hdisk, hsegment, hpos, write_last hchain.ne_of_mem]
  have haccounts : ∀ limit, Accounts k
      ⟨s.records ++ [(log.tail, body)], s.committed, namedBy s.saved⟩
      (segments ++ [bodies ++ [body]]) limit := fun _ => accounts_of_eq hplaced hrecords
  have hadvance : (log.advance body).tail = position segments.length (endOf k (bodies ++ [body])) := by
    rw [Log.tail, Log.advance, hsegment, hpos, endOf_concat]
  have hmono : log.tail ≤ (log.advance body).tail := by
    rw [htail, hadvance]
    exact position_le_position _ (endOf_mono (prefix_append _ _))
  refine ⟨throughout_cons ?_ (throughout_nil ?_), _, ⟨?_, hchain, hnew, hsegment, ?_, hge, hlt⟩,
    hrecords, hplaced, fun x hx => (h.le_tail x hx).trans hmono, h.committed_le.trans hmono, hdurable⟩
  · rw [hdisk]
    exact .live hchain hactive.named (hnew.live.subset hsub) (fun ht => (hnew.tame ht).subset hsub)
      (haccounts _) hdurable
  · rw [happly]
    exact hnew.holds hchain (haccounts _) hdurable
  · rw [applyAll_cons, happly, applyAll_nil]
  · rw [Log.advance, hpos, endOf_concat]

/-- **Part of a frame** is written, which with what lies behind spells no frame. -/
theorem OpenSys.writePart (h : OpenSys k false s log segments bodies m d f) {bytes : List UInt8}
    (hclean : NoFrame k (bytes ++ f.data.drop (endOf k bodies + bytes.length))) :
    Throughout (Holds k false s.ledger) s.disk [.write log.segmentId log.pos bytes] ∧
      ∃ f', OpenSys k false
        { s with
          disk := applyAll s.disk [.write log.segmentId log.pos bytes]
          log := some log } log segments bodies m d f' := by
  obtain ⟨hdisk, hchain, hactive, hsegment, hpos, hge, hlt⟩ := h.at_
  have hnew := hactive.writePart hclean
  have happly : apply s.disk (.write log.segmentId log.pos bytes) =
      d ++ [(segments.length, f.change (writeAt f.data (endOf k bodies) bytes))] := by
    rw [hdisk, hsegment, hpos, write_last hchain.ne_of_mem]
  refine ⟨throughout_cons h.holds (throughout_nil ?_), _, ⟨?_, hchain, hnew, hsegment, hpos, hge, hlt⟩,
    h.records, h.placed, h.le_tail, h.committed_le, h.durable⟩
  · rw [happly]
    exact hnew.holds hchain (h.accounts _) h.durable
  · rw [applyAll_cons, happly, applyAll_nil]

/-- **A commit** makes every record durable. -/
theorem OpenSys.commit (h : OpenSys k tidy s log segments bodies m d f) :
    ∃ f', OpenSys k tidy
      { s with disk := applyAll s.disk [.sync log.segmentId], committed := log.tail } log segments
      bodies bodies.length d f' := by
  obtain ⟨hdisk, hchain, hactive, hsegment, hpos, hge, hlt⟩ := h.at_
  refine ⟨_, ⟨?_, hchain, hactive.sync, hsegment, hpos, hge, hlt⟩, h.records, h.placed, h.le_tail,
    le_rfl, fun r hr _ => ?_⟩
  · rw [applyAll_cons, hdisk, hsegment, sync_last hchain.ne_of_mem, applyAll_nil]
  · simp only at hr
    rw [h.records] at hr
    rw [List.take_length]
    exact lt_of_mem_recordsOf hchain.small hr

end Open

variable {segments : List (List (List UInt8))} {bodies : List (List UInt8)} {d : Disk} {f : File}
  {n : ℕ}

section Exec

variable {s done : Sys} {steps : List Step}

theorem Inv.of_open {m : ℕ} (hlog : s.log = some log) (huntidy : tidy = false → s.saved = none)
    (h : OpenSys k tidy s log segments bodies m d f) : Inv k tidy s where
  untidy := huntidy
  closed := fun hnone => nomatch hlog.symm.trans hnone
  isOpen := fun log' hlog' => by
    obtain rfl := Option.some.inj (hlog.symm.trans hlog')
    exact ⟨_, _, _, _, _, h⟩

/-- A power loss anywhere in a list of calls whose first part is `first`. -/
theorem applyAll_take_append (d : Disk) (first rest : List Step) (n : ℕ) (hn : first.length ≤ n) :
    applyAll d ((first ++ rest).take n) = applyAll (applyAll d first) (rest.take (n - first.length)) := by
  rw [List.take_append, List.take_of_length_le hn, applyAll_append]

/-- **Opening** a log that can be reopened. -/
theorem exec_openLog (h : Inv k tidy s) {size : ℕ}
    (hexec : exec k s (.openLog size) = some (steps, done)) :
    Inv k tidy done ∧ done.saved = s.saved ∧ ∀ n, Holds k tidy
      ⟨done.records, done.committed, namedBy s.saved⟩ (applyAll s.disk (steps.take n)) := by
  rw [exec] at hexec
  split_ifs at hexec with hno
  push Not at hno
  obtain ⟨hclosed, hsize⟩ := hno
  rw [ne_eq, Bool.not_eq_true, Option.isSome_eq_false_iff, Option.isNone_iff_eq_none] at hclosed
  obtain ⟨images, hdisk, hrec⟩ := h.closed hclosed
  rw [hdisk, files_restart] at hexec
  obtain ⟨steps', e, hopen, -⟩ | ⟨steps', o, segments, bodies, d, f, hopen, -, hout⟩ :=
    openLog_cases hrec rfl h.untidy hsize
  · simp [hopen] at hexec
  simp only [hopen, Option.some.injEq, Prod.mk.injEq] at hexec
  obtain ⟨rfl, rfl⟩ := hexec
  have hkept : (s.records.filter fun r => decide (r.1 < o.recordsEnd)) =
      recordsOf (segments ++ [bodies]) := hout.kept
  refine ⟨Inv.of_open rfl h.untidy ⟨hout.at_, hkept, hout.placed, hout.le_tail, le_rfl, ?_⟩, rfl, ?_⟩
  · intro r hr _
    rw [List.take_length]
    exact lt_of_mem_recordsOf hout.at_.chain.small (hkept ▸ hr)
  · rw [hdisk]
    exact hout.through _ rfl hkept

theorem fits_of_room (hroom : log.makeRoom k body prepared = (steps, .ok room))
    (hge : minSegmentSize ≤ log.segmentSize) (hlt : log.segmentSize < 2 ^ 32) (hne : body ≠ []) :
    Fits body ∧ room.pos + (frameHeaderLen + body.length) + endMarkerLen < 2 ^ 32 := by
  obtain ⟨hmax, hcases⟩ := makeRoom_cases hroom
  have hpos : 0 < body.length := List.length_pos_iff.mpr hne
  rw [Log.maxFrameLen, segmentHeaderLen, endMarkerLen, frameHeaderLen] at hmax
  rw [minSegmentSize] at hge
  refine ⟨⟨hpos, ?_⟩, ?_⟩
  · rw [endMarker]
    omega
  · rw [endMarkerLen, frameHeaderLen]
    obtain ⟨hfits, rfl, -⟩ | ⟨-, -, rfl, -⟩ := hcases
    · rw [Log.rotates, decide_eq_false_iff_not, frameHeaderLen, endMarkerLen] at hfits
      omega
    · simp only [segmentHeaderLen]
      omega

/-- Once there is room, what making it commits is committed. -/
theorem committed_of_room {c : ℕ} (hroom : log.makeRoom k body prepared = (steps, .ok room))
    (hn : steps.length ≤ n) :
    (if n < 2 then c else if room = log then c else log.tail) =
      if room = log then c else log.tail := by
  obtain ⟨-, ⟨-, rfl, -⟩ | ⟨-, -, -, creating, -, rfl⟩⟩ := makeRoom_cases hroom
  · simp
  · rw [if_neg]
    simp only [List.length_append, List.length_cons, List.length_nil] at hn
    omega

/-- **An append.** -/
theorem exec_append (h : Inv k tidy s)
    (hsafe : tidy = false → leftoversSafe k s (.append body prepared) = true)
    (hexec : exec k s (.append body prepared) = some (steps, done)) :
    Inv k tidy done ∧ done.saved = s.saved ∧ ∀ n, Holds k tidy
      ⟨done.records, if n < 2 then s.committed else done.committed, namedBy s.saved⟩
      (applyAll s.disk (steps.take n)) := by
  rw [exec] at hexec
  split_ifs at hexec with hempty
  obtain ⟨log, hlog, hexec⟩ := bind_eq_some_iff.mp hexec
  obtain ⟨segments, bodies, m, d, f, hopen⟩ := h.isOpen log hlog
  rcases hroom : log.makeRoom k body prepared with ⟨first, e | room⟩
  · simp [hroom] at hexec
  simp only [hroom, Option.some.injEq, Prod.mk.injEq] at hexec
  obtain ⟨rfl, rfl⟩ := hexec
  obtain ⟨hfits, hsmall⟩ := fits_of_room hroom hopen.at_.le_size hopen.at_.size_lt hempty
  obtain ⟨hbefore, segments', bodies', m', d', f', hmade, hstay, hmove⟩ :=
    hopen.makeRoom hroom [(room.tail, body)] fun r hr => by rw [mem_singleton.mp hr]
  rw [hmade.at_.pos, ← endOf_concat] at hsmall
  have hclean : ∀ c ∈ f'.contents, NoFrame k (c.drop (endOf k (bodies' ++ [body]))) := by
    intro c hc
    have hmono : endOf k bodies' ≤ endOf k (bodies' ++ [body]) := endOf_mono (prefix_append _ _)
    cases htidy : tidy with
    | true => exact ((hmade.at_.active.tidy_zeros htidy c hc).mono hmono).noFrame
    | false =>
      cases hrot : log.rotates body with
      | true =>
        -- a new segment has zeros behind its header
        obtain ⟨rfl, rfl⟩ := hmove hrot
        rw [mem_singleton.mp hc]
        refine ZerosFrom.noFrame (ZerosFrom.mono ?_ hmono)
        rw [endOf_nil, ← length_headerBytes (k := k) room.segmentId]
        exact zerosFrom_append fun b hb => List.eq_of_mem_replicate hb
      | false =>
        obtain ⟨rfl, rfl, rfl⟩ := hstay hrot
        have hall := hsafe htidy
        simp only [leftoversSafe, hlog, all_some, hrot, Bool.false_or, List.all_eq_true,
          Bool.or_eq_true, decide_eq_true_eq] at hall
        have hmem : (segments'.length, f') ∈ s.disk := by
          rw [hopen.at_.disk]
          simp
        rcases hall _ hmem with hne | hspell
        · exact absurd hopen.at_.segmentId.symm hne
        · rw [endOf_concat, ← hopen.at_.pos]
          exact noFrame_of_spellsNoFrame (hspell c hc)
  obtain ⟨hthrough, f'', hdone⟩ := hmade.write hfits hsmall hclean
  rw [← applyAll_append] at hdone
  refine ⟨Inv.of_open rfl h.untidy hdone, rfl, fun n => ?_⟩
  rcases Nat.lt_or_ge n first.length with hlt | hge
  · rw [List.take_append_of_le_length hlt.le]
    exact hbefore n hlt
  · rw [applyAll_take_append _ _ _ _ hge]
    simp only [committed_of_room hroom hge]
    exact hthrough (n - first.length)

/-- **An append that fails.** -/
theorem exec_failAppend (h : Inv k false s) {written : ℕ}
    (hsafe : leftoversSafe k s (.failAppend body prepared written) = true)
    (hexec : exec k s (.failAppend body prepared written) = some (steps, done)) :
    Inv k false done ∧ done.saved = s.saved ∧ ∀ n, Holds k false
      ⟨done.records, if n < 2 then s.committed else done.committed, namedBy s.saved⟩
      (applyAll s.disk (steps.take n)) := by
  rw [exec] at hexec
  split_ifs at hexec with hwhole
  obtain ⟨log, hlog, hexec⟩ := bind_eq_some_iff.mp hexec
  obtain ⟨segments, bodies, m, d, f, hopen⟩ := h.isOpen log hlog
  rcases hroom : log.makeRoom k body prepared with ⟨first, e | room⟩
  · simp [hroom] at hexec
  simp only [hroom, Option.some.injEq, Prod.mk.injEq] at hexec
  obtain ⟨rfl, rfl⟩ := hexec
  obtain ⟨hbefore, segments', bodies', m', d', f', hmade, hstay, hmove⟩ :=
    hopen.makeRoom hroom [] (by simp)
  rw [append_nil] at hbefore
  have hlen : ((frameBytes k body).take written).length = written := by
    rw [List.length_take, length_frameBytes]
    omega
  have hclean : NoFrame k ((frameBytes k body).take written ++
      f'.data.drop (endOf k bodies' + ((frameBytes k body).take written).length)) := by
    rw [hlen]
    cases hrot : log.rotates body with
    | true =>
      obtain ⟨rfl, rfl⟩ := hmove hrot
      simp only [leftoversSafe, hlog, all_some, hrot, if_true] at hsafe
      have hdrop : (File.durable (headerBytes k room.segmentId ++
          List.replicate (log.segmentSize - segmentHeaderLen) 0)).data.drop
            (endOf k [] + written) =
          List.replicate (log.segmentSize - segmentHeaderLen - written) 0 := by
        rw [endOf_nil, ← List.drop_drop, File.durable,
          List.drop_left' (length_headerBytes (k := k) room.segmentId), List.drop_replicate]
      rw [hdrop]
      exact noFrame_of_spellsNoFrame hsafe
    | false =>
      obtain ⟨rfl, rfl, rfl⟩ := hstay hrot
      simp only [leftoversSafe, hlog, all_some, hrot, Bool.false_eq_true, if_false,
        List.all_eq_true, Bool.or_eq_true, decide_eq_true_eq] at hsafe
      have hmem : (segments'.length, f') ∈ s.disk := by
        rw [hopen.at_.disk]
        simp
      rcases hsafe _ hmem with hne | hspell
      · exact absurd hopen.at_.segmentId.symm hne
      · rw [← hopen.at_.pos]
        exact noFrame_of_spellsNoFrame hspell
  obtain ⟨hthrough, f'', hdone⟩ := hmade.writePart hclean
  rw [← applyAll_append] at hdone
  refine ⟨Inv.of_open rfl h.untidy hdone, rfl, fun n => ?_⟩
  rcases Nat.lt_or_ge n first.length with hlt | hge
  · rw [List.take_append_of_le_length hlt.le]
    exact hbefore n hlt
  · rw [applyAll_take_append _ _ _ _ hge]
    simp only [committed_of_room hroom hge]
    exact hthrough (n - first.length)

/-- **A commit.** -/
theorem exec_commit (h : Inv k tidy s) (hexec : exec k s .commit = some (steps, done)) :
    Inv k tidy done ∧ done.saved = s.saved ∧ ∀ n, Holds k tidy
      ⟨done.records, if n < 1 then s.committed else done.committed, namedBy s.saved⟩
      (applyAll s.disk (steps.take n)) := by
  rw [exec] at hexec
  obtain ⟨log, hlog, heq⟩ := map_eq_some_iff.mp hexec
  rw [Prod.mk.injEq] at heq
  obtain ⟨rfl, rfl⟩ := heq
  obtain ⟨segments, bodies, m, d, f, hopen⟩ := h.isOpen log hlog
  obtain ⟨f', hdone⟩ := hopen.commit
  refine ⟨Inv.of_open hlog h.untidy hdone, rfl, fun n => ?_⟩
  cases n with
  | zero => exact hopen.holds
  | succ n =>
    rw [if_neg (by omega), List.take_of_length_le (by simp)]
    exact hdone.holds

/-- Every operation, whole or cut off anywhere. -/
theorem exec_spec (h : Inv k tidy s) {op : Op} (htidy : tidy = true → (Act.run op).noFailure = true)
    (hsafe : tidy = false → leftoversSafe k s op = true)
    (hexec : exec k s op = some (steps, done)) :
    Inv k tidy done ∧ done.saved = s.saved ∧ ∀ n, Holds k tidy
      ⟨done.records, if n < op.settled then s.committed else done.committed, namedBy s.saved⟩
      (applyAll s.disk (steps.take n)) := by
  cases op with
  | openLog size =>
    obtain ⟨hinv, hsaved, hholds⟩ := exec_openLog h hexec
    exact ⟨hinv, hsaved, fun n => by simpa [Op.settled] using hholds n⟩
  | append body prepared => exact exec_append h hsafe hexec
  | failAppend body prepared written =>
    cases tidy with
    | true => exact nomatch htidy rfl
    | false => exact exec_failAppend h (hsafe rfl) hexec
  | commit => exact exec_commit h hexec

end Exec

/-- An action whose appends meet no leftovers that spell a frame. -/
def Act.leftoversSafe (k : LogKind) (s : Sys) (a : Act) : Bool := a.op.all (SegmentedLog.leftoversSafe k s)

/-- The actions a kind of run is made of. -/
def Allowed (k : LogKind) (tidy : Bool) (s : Sys) (a : Act) : Prop :=
  (tidy = true → a.noFailure = true) ∧
    (tidy = false → a.noSave = true ∧ a.leftoversSafe k s = true)

/-- **One step** keeps the invariant, a power loss in the middle of any operation included. -/
theorem inv_step {t : Sys} {a : Act} (h : Inv k tidy s) (hallowed : Allowed k tidy s a)
    (hstep : step k s a = some t) : Inv k tidy t ∧ (a.noSave = true → t.saved = s.saved) := by
  obtain ⟨htidy, huntidy⟩ := hallowed
  cases a with
  | run op =>
    obtain ⟨⟨steps, done⟩, hexec, rfl⟩ := map_eq_some_iff.mp hstep
    obtain ⟨hinv, hsaved, -⟩ := exec_spec h htidy (fun hf => (huntidy hf).2) hexec
    exact ⟨hinv, fun _ => hsaved⟩
  | crash op calls images =>
    obtain ⟨⟨steps, done⟩, hexec, hcrash⟩ := bind_eq_some_iff.mp hstep
    obtain ⟨hloss, hdone⟩ := Option.ite_none_right_eq_some.mp hcrash
    rw [Bool.and_eq_true] at hloss
    obtain ⟨-, hsaved, hholds⟩ := exec_spec h htidy (fun hf => (huntidy hf).2) hexec
    obtain rfl := Option.some.inj hdone
    have hrec := (hholds calls).powerLoss hloss.1 hloss.2
    refine ⟨⟨fun hf => hsaved.trans (h.untidy hf), fun _ => ⟨images, rfl, ?_⟩,
      fun log hlog => by cases hlog⟩, fun _ => hsaved⟩
    rw [Sys.ledger]
    simp only [hsaved]
    exact hrec
  | save p =>
    obtain ⟨log, hlog, hsave⟩ := bind_eq_some_iff.mp hstep
    split_ifs at hsave with hnamed
    obtain rfl := Option.some.inj hsave
    obtain ⟨segments, bodies, m, d, f, hopen⟩ := h.isOpen log hlog
    rw [List.all_eq_true] at hnamed
    have hstill : OpenSys k tidy { s with saved := some p } log segments bodies m d f :=
      ⟨hopen.at_, hopen.records, fun x hx => (hopen.nameable (hnamed x hx)).1,
        fun x hx => (hopen.nameable (hnamed x hx)).2, hopen.committed_le, hopen.durable⟩
    exact ⟨Inv.of_open hlog (fun hf => absurd (huntidy hf).1 Bool.false_ne_true) hstill,
      fun hno => absurd hno Bool.false_ne_true⟩

variable {acts : List Act}

/-- **Tidy runs** keep the invariant. -/
theorem inv_run (hrun : StepRun.run (step k) Sys.init acts = some s)
    (hacts : ∀ a ∈ acts, a.noFailure = true) : Inv k true s := by
  have halong : StepRun.along (step k) (fun _ a => a.noFailure) Sys.init acts = true := by
    have htrue : ∀ (as : List Act) (s : Sys),
        StepRun.along (step k) (fun _ _ => true) s as = true := by
      intro as
      induction as with
      | nil => exact fun _ => rfl
      | cons a as ih =>
        intro s
        rw [StepRun.along, Bool.true_and]
        cases step k s a with
        | none => rfl
        | some t => exact ih t
    exact StepRun.along_and (htrue acts Sys.init) hacts
  have hstep : ∀ s a t, Inv k true s → a.noFailure = true → step k s a = some t → Inv k true t :=
    fun s a t hs ha ht => (inv_step hs ⟨fun _ => ha, fun hf => absurd hf (by decide)⟩ ht).1
  exact StepRun.invariant_along hstep inv_init halong hrun

/-! ### Reading -/

variable {a i : ℕ} {found : List (List UInt8)} {stop : WalkStop}

section Read

variable {s : Sys} {log : Log} {segments : List (List (List UInt8))} {bodies : List (List UInt8)}
  {m : ℕ} {d : Disk} {f : File}

/-- A walk that is stopped earlier finds fewer records. -/
theorem Walks.isPrefix_take {stop' : WalkStop} (h : Walks k rest bodies stop)
    (h' : Walks k (rest.take n) found stop') : found <+: bodies := by
  obtain ⟨hfits, after, hafter, -⟩ := h'
  obtain ⟨more, last, hall, tail, htail, hlast⟩ := exists_walks (k := k) (after ++ rest.drop n)
  have hrest : Walks k rest (found ++ more) last := by
    refine ⟨fun body hb => (mem_append.mp hb).elim (hfits body) (hall body), tail, ?_, hlast⟩
    rw [encode_append, append_assoc, ← htail, ← append_assoc, ← hafter,
      List.take_append_drop]
  rw [(h.unique hrest).1]
  exact prefix_append _ _

theorem recordsFrom_isPrefix (k : LogKind) (pos : ℕ) (h : found <+: bodies) :
    recordsFrom pos found <+: recordsFrom pos bodies := by
  obtain ⟨more, rfl⟩ := h
  rw [recordsFrom_append (k := k)]
  exact prefix_append _ _

/-- A walk from a boundary up to any limit. -/
theorem walkSegment_limit {after : List UInt8} (hfits : ∀ body ∈ bodies, Fits body)
    (hstop : nextFrame k after = .error stop) (i limit : ℕ) :
    (walkSegment k (written k id bodies ++ after) (endOf k (bodies.take i)) limit).records <+:
      recordsFrom (endOf k (bodies.take i)) (bodies.drop i) := by
  have hall : Walks k ((written k id bodies ++ after).drop (endOf k (bodies.take i)))
      (bodies.drop i) stop := by
    rw [drop_boundary]
    exact ⟨fun body hb => hfits body (List.mem_of_mem_drop hb), after, rfl, hstop⟩
  obtain ⟨found, stop', hwalk⟩ :=
    exists_walks (k := k) (((written k id bodies ++ after).take limit).drop (endOf k (bodies.take i)))
  rw [walkSegment_eq hwalk]
  rw [List.drop_take] at hwalk
  exact recordsFrom_isPrefix k _ (hall.isPrefix_take hwalk)

/-- The records of the segments from `a` on. -/
def recordsFromSegment (segments : List (List (List UInt8))) (a : ℕ) : List (ℕ × List UInt8) :=
  (segments.zipIdx.drop a).flatMap fun x => segmentRecords x.2 x.1

theorem recordsFromSegment_eq (h : segments[a]? = some b) :
    recordsFromSegment segments a = segmentRecords a b ++ recordsFromSegment segments (a + 1) := by
  obtain ⟨hlt, rfl⟩ := List.getElem?_eq_some_iff.mp h
  have hlen : a < segments.zipIdx.length := by simpa using hlt
  rw [recordsFromSegment, List.drop_eq_getElem_cons hlen, List.flatMap_cons, recordsFromSegment]
  simp

/-- Segments before the one a read starts in have no record to read. -/
theorem recordsFromSegment_filter (hsmall : ∀ c ∈ segments, endOf k c < 2 ^ 32) :
    ((recordsFromSegment segments (segmentOf start)).filter fun r => decide (start ≤ r.1)) =
      (recordsOf segments).filter fun r => decide (start ≤ r.1) := by
  have hsplit : recordsOf segments = ((segments.zipIdx.take (segmentOf start)).flatMap fun x =>
      segmentRecords x.2 x.1) ++ recordsFromSegment segments (segmentOf start) := by
    rw [recordsOf, recordsFromSegment, ← List.flatMap_append, List.take_append_drop]
  have hnone : (((segments.zipIdx.take (segmentOf start)).flatMap fun x =>
      segmentRecords x.2 x.1).filter fun r => decide (start ≤ r.1)) = [] := by
    rw [List.filter_eq_nil_iff]
    intro r hr
    obtain ⟨x, hx, hmem⟩ := List.mem_flatMap.mp hr
    obtain ⟨j, hj, rfl⟩ := List.mem_take_iff_getElem.mp hx
    rw [lt_min_iff, List.length_zipIdx] at hj
    have hget : segments.zipIdx[j] = (segments[j], j) := by simp
    rw [hget] at hmem
    have hpos := (lt_of_mem_segmentRecords (k := k) hmem).2.trans
      (position_lt_position (byteOf start) hj.1 (hsmall _ (List.getElem_mem hj.2)))
    rw [position_eq] at hpos
    rw [decide_eq_true_eq, not_le]
    exact hpos
  rw [hsplit, List.filter_append, hnone, List.nil_append]

/-- A boundary is where reading starts in its segment. -/
theorem segmentRecords_filter (hid : id = segmentOf start)
    (hi : max (byteOf start) segmentHeaderLen = endOf k (b.take i)) :
    (recordsFrom (endOf k (b.take i)) (b.drop i)).map (fun r => (position id r.1, r.2)) =
      (segmentRecords id b).filter fun r => decide (start ≤ r.1) := by
  rw [← visitFromCut_boundary hid hi, visitFromCut, eq_comm, List.filter_eq_self]
  intro r hr
  obtain ⟨x, hx, rfl⟩ := mem_map.mp hr
  obtain ⟨j, hj⟩ := List.mem_iff_getElem?.mp hx
  rw [getElem?_recordsFrom (k := k), map_eq_some_iff] at hj
  obtain ⟨body, -, rfl⟩ := hj
  have hpos := position_eq start
  rw [← hid] at hpos
  rw [decide_eq_true_eq, ← hi]
  simp only [position] at hpos ⊢
  omega

theorem SealedChain.of_mem (h : SealedChain k tidy segments d) {x : ℕ × File} (hx : x ∈ d) :
    ∃ b, segments[x.1]? = some b ∧ SealedFile k tidy x.1 b x.2 := by
  induction h with
  | nil => cases hx
  | @concat segments d bodies f chain file ih =>
    rcases mem_append.mp hx with hx | hx
    · obtain ⟨b, hget, hfile⟩ := ih hx
      obtain ⟨hlt, -⟩ := List.getElem?_eq_some_iff.mp hget
      exact ⟨b, by rw [List.getElem?_append_left hlt, hget], hfile⟩
    · rw [mem_singleton.mp hx]
      exact ⟨bodies, List.getElem?_concat_length, file⟩

/-- The file of a segment of an open log: its records, and an end marker if it is not the last. -/
theorem OpenSys.file (h : OpenSys k tidy s log segments bodies m d f) (ha : a ≤ segments.length) :
    ∃ file b after stop,
      (files s.disk).find? (fun x => decide (x.1 = a)) = some (a, file) ∧
      (segments ++ [bodies])[a]? = some b ∧ file = written k a b ++ after ∧ a < 2 ^ 32 ∧
      (∀ body ∈ b, Fits body) ∧ nextFrame k after = .error stop ∧
      (a < segments.length → stop = .sealed) := by
  have hids : (files s.disk).map Prod.fst = List.range (segments.length + 1) := by
    rw [h.at_.disk, List.range_succ, ← h.at_.chain.ids, files, map_map, List.map_append]
    rfl
  have hmem : a ∈ (files s.disk).map Prod.fst := by
    rw [hids, List.mem_range]
    omega
  obtain ⟨x, hx, rfl⟩ := mem_map.mp hmem
  obtain ⟨y, hy⟩ : ∃ y, (files s.disk).find? (fun y => decide (y.1 = x.1)) = some y := by
    rw [← Option.isSome_iff_exists, List.find?_isSome]
    exact ⟨x, hx, decide_eq_true rfl⟩
  have hid : y.1 = x.1 := by simpa using List.find?_some hy
  obtain ⟨z, hz, rfl⟩ := mem_map.mp (List.mem_of_find?_eq_some hy)
  rw [hy, ← hid]
  rw [h.at_.disk] at hz
  rcases mem_append.mp hz with hz | hz
  · obtain ⟨b, hget, hfile⟩ := h.at_.chain.of_mem hz
    obtain ⟨hlt, -⟩ := List.getElem?_eq_some_iff.mp hget
    obtain ⟨junk, hjunk⟩ := hfile.eq_written
    exact ⟨_, b, _, _, rfl, by rw [List.getElem?_append_left hlt, hget], hjunk, hfile.id_lt, hfile.fits,
      nextFrame_endMarker junk, fun _ => rfl⟩
  · obtain rfl := mem_singleton.mp hz
    obtain ⟨rest, hrest⟩ := h.at_.active.eq_written
    have hno : NoFrame k rest := by
      intro body after hnext
      have hstray := h.at_.active.live.noStray f.data (mem_contents f) bodies.length body after
      rw [hrest, drop_boundary, List.drop_length, encode_nil, List.nil_append] at hstray
      simpa using hstray hnext
    obtain ⟨stop, hstop⟩ := exists_stop_of_noFrame hno
    exact ⟨_, bodies, rest, stop, rfl, List.getElem?_concat_length, hrest, h.at_.active.live.id_lt,
      h.at_.active.live.fits, hstop, fun hlt => absurd hlt (Nat.lt_irrefl _)⟩

/-- A read from a boundary on hands over records of the log, in order. -/
theorem OpenSys.readSegments_isPrefix (h : OpenSys k tidy s log segments bodies m d f) {stop : ℕ}
    (hstart : (segments ++ [bodies])[segmentOf start]? = some b)
    (hi : max (byteOf start) segmentHeaderLen = endOf k (b.take i))
    (hstop : segmentOf stop ≤ segments.length) :
    ∀ n a, segmentOf start ≤ a → a + n = segmentOf stop + 1 →
      (readSegments k (files s.disk) start stop (List.range' a n)).1 <+:
        (recordsFromSegment (segments ++ [bodies]) a).filter fun r => decide (start ≤ r.1) := by
  intro n
  induction n with
  | zero => exact fun a _ _ => List.nil_prefix
  | succ n ih =>
    intro a hge hn
    obtain ⟨file, c, after, last, hfind, hget, rfl, hid, hfits, hlast, hsealed⟩ :=
      h.file (a := a) (by omega)
    have hheader : checkHeader k (written k a c ++ after) a = .ok () := by
      rw [written, append_assoc]
      exact checkHeader_headerBytes hid _
    -- where reading starts in this segment, and what is there
    obtain ⟨j, hj, hall⟩ : ∃ j, startIn start a = endOf k (c.take j) ∧
        (recordsFrom (endOf k (c.take j)) (c.drop j)).map (fun r => (position a r.1, r.2)) =
          (segmentRecords a c).filter fun r => decide (start ≤ r.1) := by
      rcases hge.eq_or_lt with rfl | hgt
      · obtain rfl := Option.some.inj (hstart.symm.trans hget)
        exact ⟨i, by rw [startIn, if_pos rfl, hi], segmentRecords_filter rfl hi⟩
      · refine ⟨0, by rw [startIn, if_neg hgt.ne', take_zero, endOf_nil], ?_⟩
        rw [take_zero, endOf_nil, List.drop_zero, eq_comm, List.filter_eq_self.mpr]
        · rfl
        intro r hr
        have hpos := (lt_of_mem_segmentRecords (k := k) hr).1
        have hlt := position_lt_position segmentHeaderLen hgt (byteOf_lt start)
        rw [position_eq] at hlt
        exact decide_eq_true (hlt.le.trans hpos)
    rw [List.range'_succ, readSegments, hfind, recordsFromSegment_eq hget, List.filter_append, ← hall]
    have hread : (readSegment k start stop a (written k a c ++ after)).1 <+:
        (recordsFrom (endOf k (c.take j)) (c.drop j)).map fun r => (position a r.1, r.2) := by
      rw [readSegment]
      simp only [hheader, hj]
      exact (walkSegment_limit hfits hlast j _).map _
    rcases Nat.lt_or_ge a (segmentOf stop) with hlt | hend
    · -- a sealed segment, read to its end marker
      have hwhole : readSegment k start stop a (written k a c ++ after) =
          ((recordsFrom (endOf k (c.take j)) (c.drop j)).map fun r => (position a r.1, r.2), .ok ()) := by
        rw [hsealed (by omega)] at hlast
        rw [readSegment]
        simp only [hheader, hj, if_neg hlt.ne, walkSegment_written hfits hlast j]
      simp only [hwhole]
      exact (List.prefix_append_right_inj _).mpr (ih (a + 1) (by omega) (by omega))
    · obtain rfl : n = 0 := by omega
      simp only [List.range'_zero, readSegments]
      rcases hres : readSegment k start stop a (written k a c ++ after) with ⟨records, e | u⟩
      · rw [hres] at hread
        exact hread.trans (prefix_append _ _)
      · rw [hres] at hread
        simp only [append_nil]
        exact hread.trans (prefix_append _ _)

/-- **A range read** from where a record or a segment starts, up to anywhere below the tail,
hands over records of the log, in order. -/
theorem OpenSys.forEach_isPrefix (h : OpenSys k tidy s log segments bodies m d f)
    (hsaved : s.saved = none) {stop : ℕ} (hstart : s.nameable log start = true)
    (hstop : stop ≤ log.tail) :
    (forEach k (files s.disk) start stop).1 <+:
      s.records.filter fun r => decide (start ≤ r.1) := by
  rw [forEach]
  split_ifs with hempty
  · exact List.nil_prefix
  obtain ⟨b, hget, i, hi⟩ : Boundary k (segments ++ [bodies]) start := by
    refine (h.nameable_cases hstart).2.resolve_right ?_
    rw [hsaved]
    exact List.not_mem_nil
  have hids : (files s.disk).map Prod.fst = List.range (files s.disk).length := by
    have hlen : (files s.disk).length = segments.length + 1 := by
      rw [files, List.length_map, h.at_.disk, List.length_append, h.at_.chain.length_eq]
      rfl
    rw [hlen, h.at_.disk, List.range_succ, ← h.at_.chain.ids, files, map_map, List.map_append]
    rfl
  rw [(checkSegments_ok hids none).1]
  have hsmall : endOf k bodies < 2 ^ 32 := (Nat.le_add_right _ _).trans_lt h.at_.active.live.small
  have hlast : segmentOf stop ≤ segments.length := by
    rw [h.at_.tail_eq] at hstop
    have hmono : segmentOf stop ≤ segmentOf (position segments.length (endOf k bodies)) :=
      Nat.div_le_div_right hstop
    rwa [segmentOf_position hsmall] at hmono
  have hall := h.readSegments_isPrefix hget hi hlast (segmentOf stop + 1 - segmentOf start)
    (segmentOf start) le_rfl (by
      have hmono : segmentOf start ≤ segmentOf stop := Nat.div_le_div_right (not_le.mp hempty).le
      omega)
  have hfit : ∀ c ∈ segments ++ [bodies], endOf k c < 2 ^ 32 := by
    intro c hc
    rcases mem_append.mp hc with hc | hc
    · exact (Nat.le_add_right _ _).trans_lt (h.at_.chain.small c hc)
    · rwa [mem_singleton.mp hc]
  rwa [recordsFromSegment_filter hfit, ← h.records] at hall

end Read

/-! ### The results -/

/-- Tidy runs in which no progress is saved. -/
theorem unsaved_run (hrun : StepRun.run (step k) Sys.init acts = some s)
    (hacts : ∀ a ∈ acts, a.noFailure = true ∧ a.noSave = true) : Inv k true s ∧ s.saved = none := by
  have hstep : ∀ as t a u, StepRun.run (step k) Sys.init as = some t →
      ((∀ b ∈ as, b.noFailure = true ∧ b.noSave = true) → Inv k true t ∧ t.saved = none) →
        step k t a = some u →
          (∀ b ∈ as ++ [a], b.noFailure = true ∧ b.noSave = true) → Inv k true u ∧ u.saved = none := by
    intro as t a u _ ih hstep hall
    obtain ⟨hinv, hnone⟩ := ih fun b hb => hall b (List.mem_append_left _ hb)
    obtain ⟨hfail, hsave⟩ := hall a (by simp)
    obtain ⟨hinv', hsame⟩ := inv_step hinv ⟨fun _ => hfail, fun hf => absurd hf (by decide)⟩ hstep
    exact ⟨hinv', (hsame hsave).trans hnone⟩
  exact StepRun.history_invariant (fun _ => ⟨inv_init, rfl⟩) hstep hrun hacts

/-- What a reopen from the first record on yields. -/
theorem Reopened.visited_all {l : Ledger} {images : List (ℕ × List UInt8)} {o : Opened}
    (h : Reopened k tidy l images 0 steps o segments bodies d f) :
    o.visited <+: l.records ∧ ∀ r ∈ l.records, r.1 < l.committed → r ∈ o.visited := by
  have hvisited : o.visited = recordsOf (segments ++ [bodies]) :=
    h.visited.trans (List.filter_eq_self.mpr fun r _ => decide_eq_true (Nat.zero_le _))
  rw [hvisited]
  exact ⟨h.isPrefix, h.committed⟩

/-- **Power-loss recovery.** In every run of opens (with any segment sizes), appends, rotations,
commits and power losses: a log that is closed reopens, and yields a part of the appended records
from the first one on, with every record below the committed position in it; and a range read of
an open log hands over only its records. -/
theorem power_loss_recovers (k : LogKind) {acts : List Act} {s : Sys}
    (hrun : StepRun.run (step k) Sys.init acts = some s)
    (hacts : ∀ a ∈ acts, a.noFailure = true ∧ a.noSave = true) :
    (s.log = none → ∀ size < 2 ^ 32, ∃ steps o,
      openLog k (files s.disk) size (Progress.openFrom none) = (steps, .ok o) ∧
        o.visited <+: s.records ∧ ∀ r ∈ s.records, r.1 < s.committed → r ∈ o.visited) ∧
      ∀ log, s.log = some log → ∀ start stop, s.nameable log start = true → stop ≤ log.tail →
        (forEach k (files s.disk) start stop).1 <+:
          s.records.filter fun r => decide (start ≤ r.1) := by
  obtain ⟨hinv, hsaved⟩ := unsaved_run hrun hacts
  constructor
  · intro hclosed size hsize
    obtain ⟨images, hdisk, hrec⟩ := hinv.closed hclosed
    rw [hdisk, files_restart]
    have hnamed : s.ledger.named = namedBy none := by rw [Sys.ledger, hsaved]
    obtain ⟨steps, e, -, hstuck⟩ | ⟨steps, o, segments, bodies, d, f, hopen, -, hout⟩ :=
      openLog_cases hrec hnamed (fun _ => rfl) hsize
    · -- with no progress saved nothing stops an open
      have hgap : ∀ x, shortGap k 0 x = false := by
        intro x
        have hzero : ¬ (walkSegment k x.2 segmentHeaderLen x.2.length).pos < byteOf 0 :=
          Nat.not_lt_zero _
        rw [shortGap, decide_eq_false hzero, Bool.and_false, Bool.false_and, Bool.false_and]
      have hid : noIdLeft k 0 images = false := by
        rw [noIdLeft]
        cases images.getLast? with
        | none => rfl
        | some x => simp
      have hnot : stuck k none images = false := by
        rw [stuck, elim_none, elim_none, hid, Bool.or_false, List.any_eq_false]
        intro x _
        rw [hgap x]
        exact Bool.false_ne_true
      exact absurd (hnot.symm.trans (hstuck rfl)) (by decide)
    · exact ⟨steps, o, hopen, hout.visited_all⟩
  · intro log hlog start stop hstart hstop
    obtain ⟨segments, bodies, m, d, f, hopen⟩ := hinv.isOpen log hlog
    exact hopen.forEach_isPrefix hsaved hstart hstop

/-- The main WAL: its format and checksum. -/
def walKind : LogKind where
  format := ⟨[0x4D, 0x57, 0x41, 0x4C], 1, rfl, by decide, by decide⟩
  crc32 := crc32fast

/-- A power loss in the middle of the third append: its frame is there but for the last byte. -/
def tornThirdFrame : List Act :=
  [.run (.openLog 64), .run (.append [7] false), .run .commit, .run (.append [1, 2] false),
    .crash (.append [5, 6] false) 1 [(0, resize (headerBytes walKind 0 ++
      encode walKind [[7], [1, 2]] ++ (frameBytes walKind [5, 6]).take 9) 64)]]

theorem power_loss_recovers_tornThirdFrame :
    ∃ s, StepRun.run (step walKind) Sys.init tornThirdFrame = some s ∧
      ∃ steps o, openLog walKind (files s.disk) 128 (Progress.openFrom none) = (steps, .ok o) ∧
        o.visited <+: s.records ∧ ∀ r ∈ s.records, r.1 < s.committed → r ∈ o.visited := by
  have hclosed : (StepRun.run (step walKind) Sys.init tornThirdFrame).map Sys.log = some none := by
    decide +kernel
  obtain ⟨s, hrun, hlog⟩ := map_eq_some_iff.mp hclosed
  exact ⟨s, hrun, (power_loss_recovers walKind hrun (by decide)).1 hlog 128 (by decide)⟩

/-- **A failed append never becomes a record**, as long as the bytes it leaves spell no frame
where a record ends: then a reopen yields only records whose append returned (or was cut off by
the power loss itself). -/
theorem failed_append_stays_out (k : LogKind) {acts : List Act} {s : Sys}
    (hrun : StepRun.run (step k) Sys.init acts = some s)
    (hacts : ∀ a ∈ acts, a.noSave = true)
    (hsafe : StepRun.along (step k) (fun s a => a.leftoversSafe k s) Sys.init acts = true) :
    s.log = none → ∀ size < 2 ^ 32, ∀ steps o,
      openLog k (files s.disk) size (Progress.openFrom none) = (steps, .ok o) →
        o.visited <+: s.records ∧ ∀ r ∈ s.records, r.1 < s.committed → r ∈ o.visited := by
  have hstep : ∀ s a t, Inv k false s → (a.leftoversSafe k s && a.noSave) = true →
      step k s a = some t → Inv k false t := by
    intro s a t hs ha ht
    rw [Bool.and_eq_true] at ha
    exact (inv_step hs ⟨fun hf => absurd hf (by decide), fun _ => ⟨ha.2, ha.1⟩⟩ ht).1
  have hinv : Inv k false s :=
    StepRun.invariant_along hstep inv_init (StepRun.along_and hsafe hacts) hrun
  intro hclosed size hsize steps o hopen
  obtain ⟨images, hdisk, hrec⟩ := hinv.closed hclosed
  rw [hdisk, files_restart] at hopen
  have hnamed : s.ledger.named = namedBy none := by rw [Sys.ledger, hinv.untidy rfl]
  obtain ⟨steps', e, herror, -⟩ | ⟨steps', o', segments, bodies, d, f, hopen', -, hout⟩ :=
    openLog_cases hrec hnamed (fun _ => rfl) hsize
  · rw [herror] at hopen
    exact nomatch (Prod.mk.inj hopen).2
  rw [hopen'] at hopen
  obtain rfl := Except.ok.inj (Prod.mk.inj hopen).2
  exact hout.visited_all

/-- A failed append leaves five bytes, which the next one covers. -/
def coveredLeftover : List Act :=
  [.run (.openLog 64), .run (.failAppend [1, 2, 3] false 5), .run (.append [7] false), .run .commit,
    .crash .commit 0 [(0, resize (headerBytes walKind 0 ++ frameBytes walKind [7]) 64)]]

theorem failed_append_stays_out_covered :
    ∃ s, StepRun.run (step walKind) Sys.init coveredLeftover = some s ∧
      ∀ steps o, openLog walKind (files s.disk) 64 (Progress.openFrom none) = (steps, .ok o) →
        o.visited <+: s.records ∧ ∀ r ∈ s.records, r.1 < s.committed → r ∈ o.visited := by
  have hclosed : (StepRun.run (step walKind) Sys.init coveredLeftover).map Sys.log = some none := by
    decide +kernel
  obtain ⟨s, hrun, hlog⟩ := map_eq_some_iff.mp hclosed
  exact ⟨s, hrun, failed_append_stays_out walKind hrun (by decide) (by decide +kernel) hlog 64
    (by decide)⟩

/-- A failed append leaves a whole frame behind where the next, shorter one ends. -/
def leftoverFrame : List Act :=
  [.run (.openLog 128), .run (.failAppend (0 :: frameBytes walKind [0x99] ++ [5]) false 18),
    .run (.append [7] false),
    .crash .commit 0 [(0, resize (headerBytes walKind 0 ++ encode walKind [[7], [0x99]]) 128)]]

/-- The reopen yields a record no append wrote. -/
theorem leftover_becomes_record :
    ∃ s, StepRun.run (step walKind) Sys.init leftoverFrame = some s ∧ s.records = [(16, [7])] ∧
      (openLog walKind (files s.disk) 128 (Progress.openFrom none)).2.toOption.map Opened.visited =
        some [(16, [7]), (25, [0x99])] := by
  have hyields : (StepRun.run (step walKind) Sys.init leftoverFrame).map (fun s => (s.records,
      (openLog walKind (files s.disk) 128 (Progress.openFrom none)).2.toOption.map Opened.visited)) =
      some ([(16, [7])], some [(16, [7]), (25, [0x99])]) := by
    decide +kernel
  obtain ⟨s, hrun, heq⟩ := map_eq_some_iff.mp hyields
  rw [Prod.mk.injEq] at heq
  exact ⟨s, hrun, heq⟩

end SegmentedLog

end Minnal
