import Minnal.Lsm.Archive
import Minnal.ValueLog.Segments

/-!
# Recovery of a torn tail

A crash may cut the active segment anywhere. What the log holds is described next to it: for
each segment file the records it **holds** (`DirHolds`), and the list of everything stored, in
write order, with the locations handed out. Appends add to both, a cut takes the records of the
active segment that are no longer complete, and opening the cut directory neither loses nor adds
one: it resumes where the last complete record ends, unless the cut file already fills a
segment.
-/

set_option linter.dupNamespace false

namespace Minnal

open ByteCodec SortedMap FrameWalk CrashDisk Function

variable {x : ℕ × List UInt8} {id segmentSize : ℕ} {r : Record}

namespace ValueLog

variable {crc32 : List UInt8 → UInt32}

/-! ### Directories -/

namespace Dir

variable {dir : Dir} {id : ℕ} {content : List UInt8}

theorem file_put (h : Ascending Prod.fst dir.files) (id : ℕ) (content : List UInt8) (j : ℕ) :
    (dir.put id content).file j = if j = id then some content else dir.file j := by
  have hkeep : KeepsKey Prod.fst id fun _ : Option (ℕ × List UInt8) => (id, content) :=
    fun _ _ => rfl
  rw [file, put, findBy_upsertBy hkeep h]
  split_ifs <;> rfl

theorem ascending_put (h : Ascending Prod.fst dir.files) :
    Ascending Prod.fst (dir.put id content).files := by
  have hkeep : KeepsKey Prod.fst id fun _ : Option (ℕ × List UInt8) => (id, content) :=
    fun _ _ => rfl
  exact h.upsertBy hkeep

theorem mem_files_put (h : Ascending Prod.fst dir.files) :
    x ∈ (dir.put id content).files ↔ (x ∈ dir.files ∧ x.1 ≠ id) ∨ x = (id, content) :=
  mem_upsertBy h

theorem file_eq_some_iff (h : Ascending Prod.fst dir.files) :
    dir.file id = some content ↔ (id, content) ∈ dir.files := by
  rw [file, Option.map_eq_some_iff]
  constructor
  · rintro ⟨x, hx, rfl⟩
    obtain ⟨hmem, rfl⟩ := mem_of_findBy_eq_some hx
    exact hmem
  · intro hmem
    exact ⟨_, (findBy_eq_some_iff h).mpr ⟨hmem, rfl⟩, rfl⟩

end Dir

variable {files : List (ℕ × List UInt8)}

/-- The last file has the largest id. -/
theorem le_of_getLast? (h : Ascending Prod.fst files) {y : ℕ × List UInt8}
    (hlast : files.getLast? = some x) (hy : y ∈ files) : y.1 ≤ x.1 := by
  obtain ⟨init, rfl⟩ := List.getLast?_eq_some_iff.mp hlast
  rcases List.mem_append.mp hy with hy | hy
  · exact ((List.pairwise_append.mp h).2.2 y hy x (by simp)).le
  · rw [List.mem_singleton.mp hy]

theorem getLast?_of_newest (h : Ascending Prod.fst files) (hx : x ∈ files)
    (hnewest : ∀ y ∈ files, y.1 ≤ x.1) : files.getLast? = some x := by
  cases hlast : files.getLast? with
  | none =>
    rw [List.getLast?_eq_none_iff.mp hlast] at hx
    cases hx
  | some y =>
    have hy : y ∈ files := List.mem_of_getLast? hlast
    have hid : x.1 = y.1 := le_antisymm (le_of_getLast? h hlast hx) (hnewest y hy)
    rw [h.eq_of_key_eq hx hy hid]

/-- The stored records of one segment. -/
def storedIn (id : ℕ) (stored : List (Record × ValueLocation)) : List (Record × ValueLocation) :=
  stored.filter fun x => decide (x.2.segmentId = id)

variable (crc32)

/-- The files hold `contents`, which are the records `stored`. -/
structure DirHolds (dir : Dir) (contents : ℕ → List Record)
    (stored : List (Record × ValueLocation)) : Prop where
  ascending : Ascending Prod.fst dir.files
  pos : ∀ x ∈ dir.files, 0 < x.1
  holds : ∀ x ∈ dir.files, Holds crc32 x.2 (contents x.1)
  missing : ∀ id, dir.file id = none → contents id = []
  stored_eq : ∀ id, storedIn id stored = locatedIn id (contents id)

/-- **The log's invariant**: its files hold what was stored, the tail ends with its last record,
and ids not yet handed out are above the files'. -/
structure LogHolds (log : ValueLog) (contents : ℕ → List Record)
    (stored : List (Record × ValueLocation)) : Prop extends
    DirHolds crc32 log.dir contents stored where
  size_lt : log.segmentSize < 2 ^ 32
  ids_lt : ∀ x ∈ log.dir.files, x.1 < log.nextSegmentId
  next_pos : 0 < log.nextSegmentId
  newest : ∀ x ∈ log.dir.files, x.1 ≤ log.activeId
  active : ∃ file, log.dir.file log.activeId = some file ∧
    HoldsOnly crc32 file (contents log.activeId)
  offset : log.activeOffset = segmentHeaderSize + lenSum (contents log.activeId)

variable {crc32} {location : ValueLocation} {n : ℕ}

section Invariant

variable {log : ValueLog} {dir : Dir} {contents : ℕ → List Record}
  {stored : List (Record × ValueLocation)}

/-- A file that holds one record more. -/
theorem DirHolds.put (h : DirHolds crc32 dir contents stored) (hid : 0 < id) {content : List UInt8}
    {rs : List Record} (hcontent : Holds crc32 content rs) {stored' : List (Record × ValueLocation)}
    (hstored : ∀ j, storedIn j stored' =
      if j = id then locatedIn id rs else storedIn j stored) :
    DirHolds crc32 (dir.put id content) (update contents id rs) stored' where
  ascending := Dir.ascending_put h.ascending
  pos x hx := by
    rcases (Dir.mem_files_put h.ascending).mp hx with ⟨hx, -⟩ | rfl
    · exact h.pos x hx
    · exact hid
  holds x hx := by
    rcases (Dir.mem_files_put h.ascending).mp hx with ⟨hx, hne⟩ | rfl
    · rw [update_of_ne hne]
      exact h.holds x hx
    · rw [update_self]
      exact hcontent
  missing j hj := by
    rw [Dir.file_put h.ascending] at hj
    split_ifs at hj with hji
    rw [update_of_ne hji]
    exact h.missing j hj
  stored_eq j := by
    rw [hstored]
    split_ifs with hji
    · rw [hji, update_self]
    · rw [update_of_ne hji]
      exact h.stored_eq j

/-- An empty segment holds nothing. -/
theorem holdsOnly_segmentHeader (id : ℕ) : HoldsOnly crc32 (segmentHeader id) [] :=
  ⟨by simp, .inl ⟨rfl, by simp [segmentHeader, segmentHeaderSize]⟩⟩

/-- Starting a segment with a fresh id. -/
theorem DirHolds.put_fresh (h : DirHolds crc32 dir contents stored) (hid : 0 < id)
    (hfresh : ∀ x ∈ dir.files, x.1 < id) :
    DirHolds crc32 (dir.put id (segmentHeader id)) contents stored ∧ contents id = [] := by
  have hnone : dir.file id = none := by
    rw [Dir.file, Option.map_eq_none_iff]
    exact findBy_eq_none.mpr fun x hx => (hfresh x hx).ne
  have hempty : contents id = [] := h.missing id hnone
  refine ⟨?_, hempty⟩
  have hstored : ∀ j, storedIn j stored = if j = id then locatedIn id [] else storedIn j stored := by
    intro j
    split_ifs with hji
    · rw [hji, h.stored_eq, hempty]
    · rfl
  have hput := h.put hid (holdsOnly_segmentHeader id).holds hstored
  rwa [← hempty, update_eq_self] at hput

/-- Making a fresh segment the active one. -/
theorem LogHolds.startSegment (log : ValueLog) (h : DirHolds crc32 log.dir contents stored)
    (hsize : log.segmentSize < 2 ^ 32) (hid : 0 < id) (hfresh : ∀ x ∈ log.dir.files, x.1 < id)
    (hnext : id < log.nextSegmentId) : LogHolds crc32 (log.startSegment id) contents stored := by
  obtain ⟨hdir, hempty⟩ := h.put_fresh hid hfresh
  refine { hdir with size_lt := hsize, next_pos := hid.trans hnext, ids_lt := ?_, newest := ?_,
                     active := ?_, offset := ?_ }
  · intro x hx
    rcases (Dir.mem_files_put h.ascending).mp hx with ⟨hx, -⟩ | rfl
    · exact (hfresh x hx).trans hnext
    · exact hnext
  · intro x hx
    rcases (Dir.mem_files_put h.ascending).mp hx with ⟨hx, -⟩ | rfl
    · exact (hfresh x hx).le
    · exact le_rfl
  · refine ⟨segmentHeader id, ?_, hempty ▸ holdsOnly_segmentHeader id⟩
    rw [ValueLog.startSegment, Dir.file_put h.ascending, if_pos rfl]
  · simp [ValueLog.startSegment, hempty]

theorem LogHolds.rollActiveSegment (h : LogHolds crc32 log contents stored) :
    LogHolds crc32 log.rollActiveSegment contents stored :=
  .startSegment log.sealTail h.toDirHolds h.size_lt h.next_pos h.ids_lt (Nat.lt_succ_self _)

theorem LogHolds.makeRoom (h : LogHolds crc32 log contents stored) (recordLen : ℕ) :
    LogHolds crc32 (log.makeRoom recordLen) contents stored := by
  rw [ValueLog.makeRoom]
  split_ifs
  · exact h.rollActiveSegment
  · exact h

/-- A record written at the tail. -/
theorem LogHolds.writeRecord (h : LogHolds crc32 log contents stored) (hr : r.Fits) (sync : Bool) :
    LogHolds crc32 (log.writeRecord crc32 r sync)
      (update contents log.activeId (contents log.activeId ++ [r]))
      (stored ++ [(r, ⟨log.activeId, log.activeOffset, r.value.length⟩)]) := by
  obtain ⟨file, hfile, honly⟩ := h.active
  have hmem := (Dir.file_eq_some_iff h.ascending).mp hfile
  have happ := honly.append hr
  rw [← h.offset] at happ
  have hdir : (log.writeRecord crc32 r sync).dir =
      log.dir.put log.activeId (writeAt file log.activeOffset (r.bytes crc32)) := by
    rw [ValueLog.writeRecord, hfile]
    rfl
  have hstored : ∀ j, storedIn j
      (stored ++ [(r, ⟨log.activeId, log.activeOffset, r.value.length⟩)]) =
      if j = log.activeId then locatedIn log.activeId (contents log.activeId ++ [r])
      else storedIn j stored := by
    intro j
    rw [storedIn, List.filter_append]
    split_ifs with hj
    · rw [locatedIn_concat, ← h.stored_eq, hj, storedIn, h.offset]
      simp
    · simp [storedIn, Ne.symm hj]
  have hput := h.toDirHolds.put (h.pos _ hmem) happ.holds hstored
  rw [← hdir] at hput
  refine { hput with size_lt := h.size_lt, next_pos := h.next_pos, ids_lt := ?_, newest := ?_,
                     active := ?_, offset := ?_ }
  · intro x hx
    rw [hdir] at hx
    rcases (Dir.mem_files_put h.ascending).mp hx with ⟨hx, -⟩ | rfl
    · exact h.ids_lt x hx
    · exact h.ids_lt (log.activeId, file) hmem
  · intro x hx
    rw [hdir] at hx
    rcases (Dir.mem_files_put h.ascending).mp hx with ⟨hx, -⟩ | rfl
    · exact h.newest x hx
    · exact le_rfl
  · refine ⟨writeAt file log.activeOffset (r.bytes crc32), ?_, ?_⟩
    · rw [hdir]
      exact (Dir.file_put h.ascending _ _ _).trans (if_pos rfl)
    · rw [show (log.writeRecord crc32 r sync).activeId = log.activeId from rfl,
        update_self]
      exact happ
  · show log.activeOffset + r.len = _
    rw [show (log.writeRecord crc32 r sync).activeId = log.activeId from rfl, update_self,
      h.offset, lenSum_append, lenSum_cons, lenSum_nil]
    omega

/-- **Appends.** A record that is accepted is stored where the append says. -/
theorem LogHolds.append (h : LogHolds crc32 log contents stored) {sync : Bool} {log' : ValueLog}
    (happ : log.append crc32 r sync = .ok (log', location)) :
    ∃ contents', LogHolds crc32 log' contents' (stored ++ [(r, location)]) := by
  rw [ValueLog.append] at happ
  split_ifs at happ with hlarge
  simp only [Except.ok.injEq, Prod.mk.injEq] at happ
  obtain ⟨rfl, rfl⟩ := happ
  have hsize := h.size_lt
  have hfits : r.Fits := by
    rw [Record.Fits]
    omega
  exact ⟨_, (h.makeRoom r.len).writeRecord hfits sync⟩

/-- **Reads.** Whatever is stored is read back through its location. -/
theorem DirHolds.readValueAndMeta (h : DirHolds crc32 log.dir contents stored)
    {x : Record × ValueLocation} (hx : x ∈ stored) :
    log.readValueAndMeta crc32 x.2 = .ok (x.1.value, x.1.info) := by
  have hin : x ∈ locatedIn x.2.segmentId (contents x.2.segmentId) := by
    rw [← h.stored_eq]
    exact List.mem_filter.mpr ⟨hx, by simp⟩
  cases hfile : log.dir.file x.2.segmentId with
  | none =>
    rw [h.missing _ hfile] at hin
    cases hin
  | some file =>
    have hmem := (Dir.file_eq_some_iff h.ascending).mp hfile
    have hid : x.2.segmentId ≠ 0 := (h.pos _ hmem).ne'
    rw [ValueLog.readValueAndMeta, if_neg hid, segmentFile, hfile]
    exact (h.holds _ hmem).readValueFromFile hid hin _

/-- **Scans.** A segment's scan hands out what is stored in it. -/
theorem DirHolds.forEachRecord (h : DirHolds crc32 log.dir contents stored) {file : List UInt8}
    (hfile : log.dir.file id = some file) : log.forEachRecord id = .ok (storedIn id stored) := by
  have hmem := (Dir.file_eq_some_iff h.ascending).mp hfile
  rw [ValueLog.forEachRecord, segmentFile, hfile, h.stored_eq]
  exact (h.holds _ hmem).forEachRecordIn id

/-! ### Cuts -/

/-- Cut a segment file to at most `n` bytes. -/
def Dir.cut (dir : Dir) (id n : ℕ) : Dir :=
  match dir.file id with
  | some file => dir.put id (file.take n)
  | none => dir

/-- Whether a record is complete after its segment `id` was cut to `n` bytes. -/
def survivesCut (id n : ℕ) (x : Record × ValueLocation) : Bool :=
  decide (x.2.segmentId = id → x.2.recOffset + x.1.len ≤ n)

theorem placedFrom_wholeIn (offset n : ℕ) (rs : List Record) :
    placedFrom offset (wholeIn n rs) =
      (placedFrom offset rs).filter fun x => decide (x.1 + x.2.len ≤ offset + n) := by
  induction rs generalizing offset n with
  | nil => rfl
  | cons r rs ih =>
    rw [wholeIn]
    split_ifs with hle
    · have hsum : offset + r.len + (n - r.len) = offset + n := by omega
      rw [placedFrom, placedFrom, ih, hsum, List.filter_cons_of_pos (by simpa using hle)]
    · -- everything behind the first incomplete record is gone too
      symm
      refine List.filter_eq_nil_iff.mpr fun x hx => ?_
      rcases List.mem_cons.mp hx with rfl | hx
      · simpa using hle
      · obtain ⟨before, after, -, hx⟩ := exists_of_mem_placedFrom hx
        simp only [decide_eq_true_eq]
        omega

theorem locatedIn_wholeIn (id n : ℕ) (rs : List Record) :
    locatedIn id (wholeIn (n - segmentHeaderSize) rs) =
      (locatedIn id rs).filter (survivesCut id n) := by
  rw [locatedIn, placedFrom_wholeIn, locatedIn, List.filter_map]
  refine congrArg _ (List.filter_congr fun x hx => ?_)
  obtain ⟨before, after, -, hx⟩ := exists_of_mem_placedFrom hx
  have hlen := x.2.size_le_len
  rw [ValueRecordHeader.size] at hlen
  simp only [survivesCut, comp_apply, forall_const, decide_eq_decide]
  omega

/-- **A crash.** The cut directory holds the records that are still complete. -/
theorem LogHolds.cut (h : LogHolds crc32 log contents stored) (n : ℕ) :
    ∃ file, log.dir.file log.activeId = some file ∧
      (log.dir.cut log.activeId n).files.getLast? = some (log.activeId, file.take n) ∧
      DirHolds crc32 (log.dir.cut log.activeId n) (update contents log.activeId
        (wholeIn (n - segmentHeaderSize) (contents log.activeId)))
        (stored.filter (survivesCut log.activeId n)) := by
  obtain ⟨file, hfile, honly⟩ := h.active
  have hmem := (Dir.file_eq_some_iff h.ascending).mp hfile
  have hcut : log.dir.cut log.activeId n = log.dir.put log.activeId (file.take n) := by
    rw [Dir.cut, hfile]
  refine ⟨file, hfile, ?_, ?_⟩
  · rw [hcut]
    refine getLast?_of_newest (Dir.ascending_put h.ascending)
      ((Dir.mem_files_put h.ascending).mpr (.inr rfl)) fun x hx => ?_
    rcases (Dir.mem_files_put h.ascending).mp hx with ⟨hx, -⟩ | rfl
    · exact h.newest x hx
    · exact le_rfl
  · rw [hcut]
    refine h.toDirHolds.put (h.pos _ hmem) (honly.take n) fun j => ?_
    have hcomm : storedIn j (stored.filter (survivesCut log.activeId n)) =
        (storedIn j stored).filter (survivesCut log.activeId n) := by
      rw [storedIn, storedIn, List.filter_comm]
    rw [hcomm]
    split_ifs with hj
    · rw [hj, h.stored_eq, locatedIn_wholeIn]
    · refine List.filter_eq_self.mpr fun x hx => ?_
      have hid : x.2.segmentId = j := by simpa using (List.mem_filter.mp hx).2
      simp [survivesCut, hid, hj]

/-! ### Opening -/

/-- Changing the counts does not change what is held. -/
theorem LogHolds.finishOpen (h : LogHolds crc32 log contents stored) :
    LogHolds crc32 log.finishOpen contents stored := by
  rw [ValueLog.finishOpen]
  split_ifs
  · exact ⟨h.toDirHolds, h.size_lt, h.ids_lt, h.next_pos, h.newest, h.active, h.offset⟩
  · exact ⟨⟨h.ascending, h.pos, h.holds, h.missing, h.stored_eq⟩, h.size_lt, h.ids_lt, h.next_pos,
      h.newest, h.active, h.offset⟩

/-- Cutting the newest file where its records end. -/
theorem DirHolds.truncateLast (h : DirHolds crc32 dir contents stored)
    (hlast : dir.files.getLast? = some x) {dir' : Dir}
    (hdir' : dir' = if segmentHeaderSize + lenSum (contents x.1) <
        segmentHeaderSize + (x.2.length - segmentHeaderSize)
      then dir.put x.1 (x.2.take (segmentHeaderSize + lenSum (contents x.1))) else dir) :
    DirHolds crc32 dir' contents stored ∧ (∀ y ∈ dir'.files, ∃ z ∈ dir.files, z.1 = y.1) ∧
      ∃ file, dir'.file x.1 = some file ∧ HoldsOnly crc32 file (contents x.1) := by
  have hmem := List.mem_of_getLast? hlast
  have honly := (h.holds x hmem).truncate
  split_ifs at hdir' honly with hlt
  · have hstored : ∀ j, storedIn j stored = if j = x.1 then locatedIn x.1 (contents x.1)
        else storedIn j stored := by
      intro j
      split_ifs with hj
      · rw [hj, h.stored_eq]
      · rfl
    have hput := h.put (h.pos x hmem) honly.holds hstored
    rw [update_eq_self, ← hdir'] at hput
    refine ⟨hput, fun y hy => ?_, _, ?_, honly⟩
    · rw [hdir'] at hy
      rcases (Dir.mem_files_put h.ascending).mp hy with ⟨hy, -⟩ | rfl
      · exact ⟨y, hy, rfl⟩
      · exact ⟨x, hmem, rfl⟩
    · rw [hdir', Dir.file_put h.ascending, if_pos rfl]
  · rw [hdir']
    exact ⟨h, fun y hy => ⟨y, hy, rfl⟩, x.2, (Dir.file_eq_some_iff h.ascending).mpr hmem, honly⟩

/-- The file that an open appends to: the newest, unless it already fills a segment. -/
def reusable (dir : Dir) (segmentSize : ℕ) : Option (ℕ × List UInt8) :=
  dir.files.getLast?.filter fun x => decide
    (segmentHeaderSize + (x.2.length - segmentHeaderSize) < segmentSize)

@[simp] theorem finishOpen_activeId (log : ValueLog) : log.finishOpen.activeId = log.activeId := by
  rw [ValueLog.finishOpen]
  split_ifs <;> rfl

/-- **Opening.** An open keeps everything that is stored and resumes in the reusable file, or in a
new one. -/
theorem DirHolds.openLog (h : DirHolds crc32 dir contents stored)
    (hsize : validateSegmentSize segmentSize = .ok ()) :
    ∃ log, openLog dir segmentSize = .ok log ∧ LogHolds crc32 log contents stored ∧
      (∀ x, reusable dir segmentSize = some x → log.activeId = x.1) ∧
      (reusable dir segmentSize = none → ∀ x ∈ dir.files, x.1 < log.activeId) := by
  have hlt : segmentSize < 2 ^ 32 := by
    rw [validateSegmentSize] at hsize
    split_ifs at hsize with hbad
    omega
  -- the files do not depend on the metadata
  have hmoved : DirHolds crc32 (if dir.metadata = .corrupt then { dir with metadata := .absent }
      else dir) contents stored := by
    split_ifs
    · exact ⟨h.ascending, h.pos, h.holds, h.missing, h.stored_eq⟩
    · exact h
  have hfiles : (if dir.metadata = .corrupt then { dir with metadata := .absent }
      else dir).files = dir.files := by
    split_ifs <;> rfl
  rw [ValueLog.openLog, hsize]
  simp only
  generalize (if dir.metadata = .corrupt then { dir with metadata := .absent } else dir) = moved
    at hmoved hfiles ⊢
  rw [hfiles, ← reusable]
  generalize loadMetadata dir = loaded
  generalize reconcile moved.onDisk loaded.1.segments = counts
  have hnext : ∀ x ∈ dir.files, x.1 <
      max (max loaded.1.nextSegmentId ((dir.files.getLast?.map Prod.fst).getD 0 + 1)) 1 := by
    intro x hx
    cases hlast : dir.files.getLast? with
    | none =>
      rw [List.getLast?_eq_none_iff.mp hlast] at hx
      cases hx
    | some y =>
      have hle := le_of_getLast? h.ascending hlast hx
      simp only [Option.map_some, Option.getD_some]
      omega
  have hpos : 0 < max (max loaded.1.nextSegmentId
      ((dir.files.getLast?.map Prod.fst).getD 0 + 1)) 1 := by omega
  generalize max (max loaded.1.nextSegmentId
    ((dir.files.getLast?.map Prod.fst).getD 0 + 1)) 1 = nextId at hnext hpos ⊢
  cases hreuse : reusable dir segmentSize with
  | none =>
    refine ⟨_, rfl, (LogHolds.startSegment _ hmoved hlt hpos ?_ ?_).finishOpen, by simp, ?_⟩
    · simpa only [hfiles] using hnext
    · exact Nat.lt_succ_self nextId
    · intro _ x hx
      rw [finishOpen_activeId]
      exact hnext x hx
  | some x =>
    obtain ⟨hlast, -⟩ := Option.filter_eq_some_iff.mp hreuse
    rw [← hfiles] at hlast
    obtain ⟨hdir, hids, hactive⟩ := hmoved.truncateLast hlast rfl
    have hmem := List.mem_of_getLast? hlast
    simp only [(hmoved.holds x hmem).validRecordEnd]
    refine ⟨_, rfl, LogHolds.finishOpen ?_, ?_, by simp⟩
    · refine { hdir with size_lt := hlt, next_pos := hpos, ids_lt := ?_, newest := ?_,
                         active := hactive, offset := rfl }
      · intro y hy
        obtain ⟨z, hz, hzy⟩ := hids y hy
        rw [← hzy]
        exact hnext z (hfiles ▸ hz)
      · intro y hy
        obtain ⟨z, hz, hzy⟩ := hids y hy
        rw [← hzy]
        exact le_of_getLast? hmoved.ascending hlast hz
    · rintro y hy
      rw [finishOpen_activeId, Option.some.inj hy]

/-- A run of appends. -/
theorem LogHolds.appendAll (h : LogHolds crc32 log contents stored)
    (appends : List (Record × Bool)) :
    ∃ contents', LogHolds crc32 (log.appendAll crc32 appends).1 contents'
      (stored ++ (log.appendAll crc32 appends).2) := by
  induction appends generalizing log contents stored with
  | nil => exact ⟨contents, by rwa [ValueLog.appendAll, List.append_nil]⟩
  | cons a rest ih =>
    obtain ⟨r, sync⟩ := a
    cases happ : log.append crc32 r sync with
    | error e =>
      rw [ValueLog.appendAll, happ]
      exact ih h
    | ok x =>
      obtain ⟨log', location⟩ := x
      obtain ⟨contents', h'⟩ := h.append happ
      obtain ⟨contents'', h''⟩ := ih h'
      rw [List.append_assoc] at h''
      rw [ValueLog.appendAll, happ]
      exact ⟨contents'', h''⟩

end Invariant

/-! ### Crash and recovery -/

/-- Where the last of the records ends. -/
def recordsEnd (stored : List (Record × ValueLocation)) : ℕ :=
  match stored.getLast? with
  | some x => x.2.recOffset + x.1.len
  | none => segmentHeaderSize

theorem dirHolds_empty (crc32 : List UInt8 → UInt32) (m : MetadataFile) : DirHolds crc32 ⟨[], m⟩ (fun _ => []) [] :=
  ⟨ascending_nil, by simp, by simp, fun _ _ => rfl, fun _ => rfl⟩

variable {log : ValueLog}

theorem valid_of_openLog {dir : Dir} (h : openLog dir segmentSize = .ok log) :
    validateSegmentSize segmentSize = .ok () := by
  cases hv : validateSegmentSize segmentSize with
  | error e =>
    rw [openLog, hv] at h
    cases h
  | ok u => rfl

/-- A new log with segments of 64 KiB. -/
def newLog : ValueLog :=
  { segmentSize := 65536
    dir := ⟨[(1, segmentHeader 1)], .saved ⟨2, [⟨1, 0, 0, 0, false⟩]⟩⟩
    nextSegmentId := 2
    segments := [⟨1, 0, 0, 0, false⟩]
    activeId := 1
    activeOffset := 16
    syncedOffset := 16
    verifyChecksumsOnRead := false
    statsNeedRebuild := false }

end ValueLog

end Minnal
