import Minnal.Wal.Recovery

/-!
# Saved progress and the tail

Saved **progress** names positions below which replay starts. A power loss may take records
above which the progress was saved; were the log to go on from what is left, later appends would
land below a position named, and replay would skip them. So an open moves the tail past every
position named: it seals the last segment and starts the next.

`named_le_tail` says that this works in every tidy run: in an open log no append lands below a
position named, and a closed log opens above all of them, again after a power loss anywhere in
the middle of the open, **unless the progress sticks** (`stuck`). It sticks where the cut lies
behind the last record of a sealed segment and so close to the end of the file that less than an
end marker is left to read there (`progress_sticks`); segments of that length appear when the
segment size is lowered between two opens.
-/

set_option linter.dupNamespace false

namespace Minnal

open ByteCodec CrashDisk

variable {images : List (ℕ × List UInt8)} {size : ℕ} {steps : List Step} {o : Opened}

namespace SegmentedLog

/-- **An open above the progress.** It visits the records that are left, from the cut on, with
every committed one among those left; its tail is at or above every position named. -/
structure OpensAbove (k : LogKind) (s : Sys) (images : List (ℕ × List UInt8)) (size : ℕ)
    (steps : List Step) (o : Opened) : Prop where
  returns : openLog k images size (Progress.openFrom s.saved) = (steps, .ok o)
  visited : o.visited = (s.records.filter fun r => decide (r.1 < o.recordsEnd)).filter fun r =>
    decide (s.saved.elim 0 Progress.cut ≤ r.1)
  committed : ∀ r ∈ s.records, r.1 < s.committed → r.1 < o.recordsEnd
  le_tail : ∀ x ∈ namedBy s.saved, x ≤ o.log.tail

/-- What the log is supposed to hold once an open returned. -/
def Sys.opened (s : Sys) (o : Opened) : Sys :=
  { s with
    records := s.records.filter fun r => decide (r.1 < o.recordsEnd)
    committed := o.log.tail }

variable {k : LogKind} {s : Sys}

/-! ### Opening -/

private theorem Reopened.opensAbove {segments : List (List (List UInt8))}
    {bodies : List (List UInt8)} {d : Disk} {f : File}
    (h : Reopened k true s.ledger images (s.saved.elim 0 Progress.cut) steps o segments
      bodies d f) (hopen : openLog k images size (Progress.openFrom s.saved) = (steps, .ok o)) :
    OpensAbove k s images size steps o := by
  have hkept : (s.records.filter fun r => decide (r.1 < o.recordsEnd)) =
      recordsOf (segments ++ [bodies]) := h.kept
  refine ⟨hopen, by rw [hkept, h.visited], fun r hr hlt => ?_, h.le_tail⟩
  have hmem := h.committed r hr hlt
  rw [← hkept, List.mem_filter, decide_eq_true_eq] at hmem
  exact hmem.2

/-- A directory that can be reopened is, unless the progress sticks. -/
private theorem opensAbove_iff (hrec : Recoverable k true s.ledger images) (hsize : size < 2 ^ 32) :
    (∃ steps o, OpensAbove k s images size steps o) ↔ stuck k s.saved images = false := by
  obtain ⟨steps, e, herror, hstuck⟩ | ⟨steps, o, segments, bodies, d, f, hopen, hfree, hout⟩ :=
    openLog_cases hrec rfl (fun hf => nomatch hf) hsize
  · rw [hstuck rfl]
    refine ⟨fun ⟨steps', o, h⟩ => ?_, fun h => nomatch h⟩
    exact nomatch (Prod.mk.inj (herror.symm.trans h.returns)).2
  · exact ⟨fun _ => hfree rfl, fun _ => ⟨steps, o, hout.opensAbove hopen⟩⟩

/-- A power loss in the middle of an open leaves a directory that can be reopened, with every
record the open found. -/
private theorem OpensAbove.crash (hrec : Recoverable k true s.ledger images) (hsize : size < 2 ^ 32)
    (h : OpensAbove k s images size steps o) {n : ℕ} {left : List (ℕ × List UInt8)}
    (hsurv : survivors segmentHeaderLen (applyAll (restart images) (steps.take n)) left = true)
    (hwhole : undamaged k (applyAll (restart images) (steps.take n)) left = true) :
    Recoverable k true (s.opened o).ledger left ∧
      ∀ r ∈ (s.opened o).records, r.1 < (s.opened o).committed := by
  obtain ⟨steps', e, herror, -⟩ | ⟨steps', o', segments, bodies, d, f, hopen, -, hout⟩ :=
    openLog_cases hrec rfl (fun hf => nomatch hf) hsize
  · exact nomatch (Prod.mk.inj (herror.symm.trans h.returns)).2
  obtain ⟨rfl, ho⟩ := Prod.mk.inj (hopen.symm.trans h.returns)
  obtain rfl := Except.ok.inj ho
  have hkept : (s.opened o').records = recordsOf (segments ++ [bodies]) := hout.kept
  refine ⟨(hout.through (s.opened o').ledger rfl hkept n).powerLoss hsurv hwhole, fun r hr => ?_⟩
  rw [hkept] at hr
  have hlt := lt_of_mem_recordsOf hout.at_.chain.small hr
  rw [Sys.opened, Log.tail, hout.at_.segmentId, hout.at_.pos]
  exact hlt

/-- An open that keeps every record visits those from the cut on. -/
private theorem OpensAbove.visited_eq (h : OpensAbove k s images size steps o)
    (hall : ∀ r ∈ s.records, r.1 < s.committed) :
    o.visited = s.records.filter fun r => decide (s.saved.elim 0 Progress.cut ≤ r.1) := by
  rw [h.visited, List.filter_eq_self.mpr fun r hr => decide_eq_true (h.committed r hr (hall r hr))]

/-! ### Appending -/

/-- Replay of a namespace starts at or below a position named. -/
theorem Progress.replayFrom_le (p : Progress) {pos : ℕ} (h : ∀ x ∈ p.named, x ≤ pos) (ns : ℕ) :
    p.replayFrom ns ≤ pos := by
  have hcut : p.cut ≤ pos := h _ List.mem_cons_self
  rw [Progress.replayFrom]
  split
  · next e he =>
    refine max_le (h _ (List.mem_cons_of_mem _ ?_)) hcut
    exact List.mem_map_of_mem (List.mem_of_find?_eq_some he)
  · exact hcut

/-- An append puts its record at or above every position named. -/
private theorem Inv.append_above (h : Inv k true s) {body : List UInt8} {prepared : Bool} {t : Sys}
    (hstep : step k s (.run (.append body prepared)) = some t) :
    ∃ pos, t.records = s.records ++ [(pos, body)] ∧ ∀ x ∈ namedBy s.saved, x ≤ pos := by
  obtain ⟨⟨steps, done⟩, hexec, rfl⟩ := Option.map_eq_some_iff.mp hstep
  rw [exec] at hexec
  split_ifs at hexec with hempty
  obtain ⟨log, hlog, hexec⟩ := Option.bind_eq_some_iff.mp hexec
  obtain ⟨segments, bodies, m, d, f, hopen⟩ := h.isOpen log hlog
  rcases hroom : log.makeRoom k body prepared with ⟨first, e | room⟩
  · simp [hroom] at hexec
  simp only [hroom, Option.some.injEq, Prod.mk.injEq] at hexec
  obtain ⟨rfl, rfl⟩ := hexec
  obtain ⟨-, segments', bodies', m', d', f', hmade, -⟩ := hopen.makeRoom hroom [] (by simp)
  exact ⟨room.tail, rfl, hmade.le_tail⟩

/-! ### Main result -/

/-- **Saved progress never outruns the log**, in every run of opens (with any segment sizes),
appends, rotations, commits, saves and power losses. In an open log the tail, and so the next
append, is at or above every position named, and replay skips no later record. A closed log opens
above every position named exactly if the progress does not stick; and after a power loss
anywhere in that open the next one finds the same records, again above every position named,
exactly if the progress does not stick. -/
theorem named_le_tail (k : LogKind) {acts : List Act} {s : Sys}
    (hrun : StepRun.run (step k) Sys.init acts = some s)
    (hacts : ∀ a ∈ acts, a.noFailure = true) :
    (∀ log, s.log = some log → (∀ x ∈ namedBy s.saved, x ≤ log.tail) ∧
      ∀ body prepared t, step k s (.run (.append body prepared)) = some t →
        ∃ pos, t.records = s.records ++ [(pos, body)] ∧ (∀ x ∈ namedBy s.saved, x ≤ pos) ∧
          ∀ p, s.saved = some p → ∀ ns, p.replayFrom ns ≤ pos) ∧
      (s.log = none → ∀ size < 2 ^ 32,
        ((∃ steps o, OpensAbove k s (files s.disk) size steps o) ↔
          stuck k s.saved (files s.disk) = false) ∧
        ∀ steps o, OpensAbove k s (files s.disk) size steps o → ∀ n left,
          survivors segmentHeaderLen (applyAll s.disk (steps.take n)) left = true →
          undamaged k (applyAll s.disk (steps.take n)) left = true → ∀ size' < 2 ^ 32,
            ((∃ steps' o', OpensAbove k (s.opened o) left size' steps' o' ∧
              o'.visited = o.visited) ↔ stuck k s.saved left = false)) := by
  have hinv := inv_run hrun hacts
  refine ⟨fun log hlog => ⟨?_, fun body prepared t hstep => ?_⟩, fun hclosed size hsize => ?_⟩
  · obtain ⟨segments, bodies, m, d, f, hopen⟩ := hinv.isOpen log hlog
    exact hopen.le_tail
  · obtain ⟨pos, hrecords, hnamed⟩ := hinv.append_above hstep
    refine ⟨pos, hrecords, hnamed, fun p hp ns => p.replayFrom_le (fun x hx => hnamed x ?_) ns⟩
    rw [hp]
    exact hx
  · obtain ⟨images, hdisk, hrec⟩ := hinv.closed hclosed
    rw [hdisk, files_restart]
    refine ⟨opensAbove_iff hrec hsize, fun steps o h n left hsurv hwhole size' hsize' => ?_⟩
    obtain ⟨hleft, hall⟩ := h.crash hrec hsize hsurv hwhole
    have hiff : (∃ steps' o', OpensAbove k (s.opened o) left size' steps' o') ↔
        stuck k s.saved left = false := opensAbove_iff hleft hsize'
    rw [← hiff]
    refine ⟨fun ⟨steps', o', h', _⟩ => ⟨steps', o', h'⟩, fun ⟨steps', o', h'⟩ => ?_⟩
    refine ⟨steps', o', h', ?_⟩
    rw [h'.visited_eq hall, h.visited]
    rfl

/-- The second record is lost, and with it the tail at which progress was saved. -/
def lostBelowCut : List Act :=
  [.run (.openLog 64), .run (.append [7] false), .run .commit, .run (.append [1, 2] false),
    .save ⟨35, [(1, 35)]⟩,
    .crash .commit 0 [(0, resize (headerBytes walKind 0 ++ frameBytes walKind [7]) 64)]]

theorem named_le_tail_lostBelowCut :
    ∃ s, StepRun.run (step walKind) Sys.init lostBelowCut = some s ∧
      namedBy s.saved = [35, 35] ∧ ∃ steps o, OpensAbove walKind s (files s.disk) 64 steps o := by
  have hrun : (StepRun.run (step walKind) Sys.init lostBelowCut).map (fun s =>
      (s.log, namedBy s.saved, stuck walKind s.saved (files s.disk))) =
        some (none, [35, 35], false) := by
    decide +kernel
  obtain ⟨s, hrun, heq⟩ := Option.map_eq_some_iff.mp hrun
  simp only [Prod.mk.injEq] at heq
  obtain ⟨hlog, hnamed, hfree⟩ := heq
  exact ⟨s, hrun, hnamed,
    ((named_le_tail walKind hrun (by decide)).2 hlog 64 (by decide)).1.mpr hfree⟩

/-- Progress is saved at byte 62. A power loss takes the second record, another one an open that
cuts the file to 25 bytes; the next open makes the segment 64 bytes long, seals it and starts
another one. -/
def cutNearEnd : List Act :=
  [.run (.openLog 128), .run (.append [7] false), .run .commit,
    .run (.append (List.replicate 29 1) false), .save ⟨62, []⟩,
    .crash .commit 0 [(0, resize (headerBytes walKind 0 ++ frameBytes walKind [7]) 128)],
    .crash (.openLog 64) 1 [(0, headerBytes walKind 0 ++ frameBytes walKind [7])],
    .run (.openLog 64),
    .crash .commit 0
      [(0, resize (headerBytes walKind 0 ++ frameBytes walKind [7] ++ endMarkerBytes) 64),
        (1, resize (headerBytes walKind 1) 64)]]

/-- **The progress sticks**: no later open gets past the sealed segment. -/
theorem progress_sticks :
    ∃ s, StepRun.run (step walKind) Sys.init cutNearEnd = some s ∧
      (∀ a ∈ cutNearEnd, a.noFailure = true) ∧ s.log = none ∧
      (openLog walKind (files s.disk) 64 (Progress.openFrom s.saved)).2.map Opened.visited =
        .error (.damaged 0 62) := by
  have hrun : (StepRun.run (step walKind) Sys.init cutNearEnd).map (fun s => (s.log,
      (openLog walKind (files s.disk) 64 (Progress.openFrom s.saved)).2.map Opened.visited)) =
        some (none, .error (.damaged 0 62)) := by
    decide +kernel
  obtain ⟨s, hrun, heq⟩ := Option.map_eq_some_iff.mp hrun
  rw [Prod.mk.injEq] at heq
  exact ⟨s, hrun, by decide, heq⟩

end SegmentedLog

end Minnal
