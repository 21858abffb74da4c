import Minnal.Db.VectorWal
import Minnal.Db.WalRetirement

/-!
# What a step does to the vector index WAL

The bounds in the argument that retirement is sound all have one form: every record of a namespace
below a position is **settled**, in one of four senses (`Below`). A record that is settled stays
so, and a new record starts at the tail, so a bound that is at most the tail is kept by any step
(`Follows`).

Three invariants come before the marker: what a writer still holds or has had tracked
(`Writers`), which level-0 files there are (`Flushes`), and that every record below the ceiling of
a seal record is in the memtable that was sealed or an older one (`Records`).
-/

set_option linter.dupNamespace false

namespace Minnal

open StepRun Function
open Option (ite_some_none_eq_some some_ne_none mem_def)
open List (mem_map mem_filter mem_cons_of_mem mem_append find?_some mem_singleton)

variable {s t : Sys} {r r' : Logged} {a : Act} {ns c version : ℕ} {e : Option Event}
  {ok : Sys → Logged → Prop} {seals : Seals} {k : ℕ × ℕ} {p : PendingFlush}

namespace VectorWal

open SegmentedLog (Progress)
open WalProgress (walCutCeiling walCutCeiling_le notMem_of_lt_walCutCeiling)

/-! ### What a step does -/

/-- The effect of one step. -/
inductive Step (s : Sys) : Act → Sys → Prop where
  | append {ns seq start len : ℕ} (hopen : s.recovering = false)
      (hfree : ∀ r ∈ s.log, r.stage ≠ .appended ∧ r.seq ≠ seq) (htail : s.tail ≤ start)
      (hlen : 0 < len) :
      Step s (.append ns seq start len) { s with
        log := s.log ++ [⟨seq, ns, start, start + len, .appended, true, false, true⟩] }
  | publish {r : Logged} (hr : r ∈ s.log) (hstage : r.stage = .appended) :
      Step s (.publish r.seq) { s.set { r with stage := .published } with tail := r.stop }
  | track {r : Logged} (hr : r ∈ s.log) (hstage : r.stage = .published) :
      Step s (.track r.seq) { s.set { r with stage := .tracked } with
        lastWrite :=
          if r.ns ∈ s.forgotten then s.lastWrite
          else s.lastWrite.insert r.ns (max ((s.lastWrite.lookup r.ns).getD r.stop) r.stop) }
  | apply {r : Logged} (hr : r ∈ s.log) (hstage : r.stage = .tracked)
      (hfree : s.sealing r.ns = none) :
      Step s (.apply r.seq) (s.set { r with stage := .applied (s.version r.ns) })
  | release {r : Logged} (hr : r ∈ s.log)
      (hstage : r.stage.isApplied = true ∨ (r.stage = .tracked ∧ r.ns ∈ s.dropped)) :
      Step s (.release r.seq) (s.set { r with registered := false })
  | sync {upTo : ℕ} (hle : upTo ≤ s.tail) :
      Step s (.sync upTo) { s with durable := max s.durable upTo }
  | swap {ns : ℕ} (hopen : s.recovering = false) (hfree : s.sealing ns = none) :
      Step s (.swap ns) { s.setSealing ns (some (.swapped (s.version ns))) with
        version := Function.update s.version ns (s.version ns + 1) }
  | sealReadTail {ns v : ℕ} (hns : s.sealing ns = some (.swapped v)) :
      Step s (.sealReadTail ns) (s.setSealing ns
        (if (s.lastWrite.lookup ns).isSome then some (.tailRead v s.tail) else none))
  | sealRecord {ns v tail : ℕ} (hns : s.sealing ns = some (.tailRead v tail)) :
      Step s (.sealRecord ns) { s.setSealing ns none with
        seals :=
          if (s.seals.lookup (ns, v)).isSome then s.seals
          else s.seals.insert (ns, v) ⟨walCutCeiling tail (s.inFlight (some ns)), false⟩ }
  | flushCheck {ns : ℕ} (hfree : s.flushing ns = none) (hlt : s.flushed ns < s.version ns)
      (hdurable : ∀ last, s.lastWrite.lookup ns = some last → last ≤ s.durable) :
      Step s (.flushCheck ns) (s.setFlushing ns (some .checked))
  | store {r : Logged} (hr : r ∈ s.log)
      (hplace : (s.flushing r.ns = some .checked ∧ r.stage = .applied (s.flushed r.ns)) ∨
        (s.recovering = true ∧ s.replays r = true)) :
      Step s (.store r.seq) (s.set { r with stored := true })
  | written {ns : ℕ} (hns : s.flushing ns = some .checked)
      (hstored : ∀ r ∈ s.log, r.ns = ns → r.stage = .applied (s.flushed ns) → r.stored = true) :
      Step s (.written ns) (s.setFlushing ns (some .written))
  | abandon {ns : ℕ} {keep : List ℕ}
      (hns : s.flushing ns = some .checked ∨ s.flushing ns = some .written) :
      Step s (.abandon ns keep) ((s.unstore ns keep).setFlushing ns none)
  | mark {ns : ℕ} (hns : s.flushing ns = some .written) (hfree : s.event = none) :
      Step s (.mark ns) (s.mark ns)
  | markUntracked {ns : ℕ} (hns : s.flushing ns = some .written) (hfree : s.event = none)
      (hnone : s.lastWrite.lookup ns = none) :
      Step s (.mark ns) { s.register ns with seals := s.seals.erase (ns, s.flushed ns) }
  | readTail {job : Job} (he : s.event = some ⟨job, .marked⟩) :
      Step s .readTail { s with event := some ⟨job, .tailRead s.tail⟩ }
  | readInFlight {job : Job} {tail : ℕ} (he : s.event = some ⟨job, .tailRead tail⟩) :
      Step s .readInFlight
        { s with event := some ⟨job, .ceiling (walCutCeiling tail (s.inFlight none))⟩ }
  | compute {job : Job} {c : ℕ} (he : s.event = some ⟨job, .ceiling c⟩) :
      Step s .compute { s with event := some ⟨job, .computed (s.progress c)⟩ }
  | skip {job : Job} (he : s.event = some ⟨job, .computed s.written⟩) :
      Step s .skip { s with event := some ⟨job, .done⟩ }
  | saveOk {job : Job} {next : Progress} (he : s.event = some ⟨job, .computed next⟩) :
      Step s (.save .ok) { s with
        marker := next, written := next, retiredCut := next.cut, event := some ⟨job, .done⟩ }
  | saveFailed {job : Job} {next : Progress} (he : s.event = some ⟨job, .computed next⟩) :
      Step s (.save .failed) { s with event := some ⟨job, .failed⟩ }
  | saveHalfway {job : Job} {next : Progress} (he : s.event = some ⟨job, .computed next⟩) :
      Step s (.save .halfway) { s with marker := next, event := some ⟨job, .failed⟩ }
  | finish {e : Event} (he : s.event = some e) (hdone : e.phase = .done) :
      Step s .finish (s.finish e)
  | undo {e : Event} {keep : List ℕ} (he : s.event = some e) (hfailed : e.phase = .failed) :
      Step s (.undo keep) (s.undo e keep)
  | drop {ns : ℕ} (hopen : s.recovering = false) :
      Step s (.drop ns) { s with dropped := ns :: s.dropped }
  | forget {ns : ℕ} (hns : ns ∈ s.dropped) (hfree : s.event = none) :
      Step s (.forget ns) (s.forget ns)
  | collect {upTo : ℕ} (hle : upTo ≤ s.retiredCut) :
      Step s (.collect upTo) { s with
        log := s.log.map fun r => if r.stop ≤ upTo then { r with inLog := false } else r }
  | crash {kept gap : ℕ} (hkept : s.durable ≤ kept) : Step s (.crash kept gap) (s.reopen kept gap)
  | retireNone (hopen : s.recovering = true) (hfree : s.event = none)
      (hflushed : s.replayFlushed = true) (hnone : s.holding = []) :
      Step s .retire { s with recovering := false }
  | retireSame (hopen : s.recovering = true) (hfree : s.event = none)
      (hflushed : s.replayFlushed = true) (hsame : s.raised.progress s.tail = s.written) :
      Step s .retire { s.raised with recovering := false }
  | retire (hopen : s.recovering = true) (hfree : s.event = none)
      (hflushed : s.replayFlushed = true) :
      Step s .retire { s.raised with
        recovering := false
        marker := s.raised.progress s.tail
        written := s.raised.progress s.tail
        retiredCut := (s.raised.progress s.tail).cut }
  | retireFails {renamed : Bool} {kept gap : ℕ} (hopen : s.recovering = true)
      (hfree : s.event = none) (hflushed : s.replayFlushed = true) (hkept : s.durable ≤ kept) :
      Step s (.retireFails renamed kept gap)
        ({ s with marker := if renamed then s.raised.progress s.tail else s.marker }.reopen
          kept gap)

theorem find_mem {seq : ℕ} (h : s.find seq = some r) : r ∈ s.log ∧ r.seq = seq :=
  have hseq := find?_some h
  ⟨List.mem_of_find?_eq_some h, of_decide_eq_true hseq⟩

theorem step_cases (h : step s a = some t) : Step s a t := by
  cases a with
  | append ns seq start len =>
    obtain ⟨⟨hopen, hfree, htail, hlen⟩, rfl⟩ := ite_some_none_eq_some.mp h
    exact .append hopen hfree htail hlen
  | publish seq =>
    simp only [step] at h
    split at h
    · rename_i r hr
      obtain ⟨hmem, rfl⟩ := find_mem hr
      obtain ⟨hstage, rfl⟩ := ite_some_none_eq_some.mp h
      exact .publish hmem hstage
    · cases h
  | track seq =>
    simp only [step] at h
    split at h
    · rename_i r hr
      obtain ⟨hmem, rfl⟩ := find_mem hr
      obtain ⟨hstage, rfl⟩ := ite_some_none_eq_some.mp h
      exact .track hmem hstage
    · cases h
  | apply seq =>
    simp only [step] at h
    split at h
    · rename_i r hr
      obtain ⟨hmem, rfl⟩ := find_mem hr
      obtain ⟨⟨hstage, hfree⟩, rfl⟩ := ite_some_none_eq_some.mp h
      exact .apply hmem hstage hfree
    · cases h
  | release seq =>
    simp only [step] at h
    split at h
    · rename_i r hr
      obtain ⟨hmem, rfl⟩ := find_mem hr
      obtain ⟨hstage, rfl⟩ := ite_some_none_eq_some.mp h
      exact .release hmem hstage
    · cases h
  | sync upTo =>
    obtain ⟨hle, rfl⟩ := ite_some_none_eq_some.mp h
    exact .sync hle
  | swap ns =>
    obtain ⟨⟨hopen, hfree⟩, rfl⟩ := ite_some_none_eq_some.mp h
    exact .swap hopen hfree
  | sealReadTail ns =>
    simp only [step] at h
    split at h
    · rename_i v hns
      obtain rfl := Option.some.inj h
      exact .sealReadTail hns
    · cases h
  | sealRecord ns =>
    simp only [step] at h
    split at h
    · rename_i v tail hns
      obtain rfl := Option.some.inj h
      exact .sealRecord hns
    · cases h
  | flushCheck ns =>
    obtain ⟨⟨hfree, hlt, hall⟩, rfl⟩ := ite_some_none_eq_some.mp h
    refine .flushCheck hfree hlt fun last hlast => ?_
    rw [hlast] at hall
    exact of_decide_eq_true hall
  | store seq =>
    simp only [step] at h
    split at h
    · rename_i r hr
      obtain ⟨hmem, rfl⟩ := find_mem hr
      obtain ⟨hplace, rfl⟩ := ite_some_none_eq_some.mp h
      exact .store hmem hplace
    · cases h
  | written ns =>
    obtain ⟨⟨hns, hstored⟩, rfl⟩ := ite_some_none_eq_some.mp h
    exact .written hns hstored
  | abandon ns keep =>
    obtain ⟨hns, rfl⟩ := ite_some_none_eq_some.mp h
    exact .abandon hns
  | mark ns =>
    simp only [step] at h
    obtain ⟨⟨hns, hfree⟩, h⟩ := Option.ite_none_right_eq_some.mp h
    split_ifs at h with hsome
    · obtain rfl := Option.some.inj h
      exact .mark hns hfree
    · obtain rfl := Option.some.inj h
      rw [Bool.not_eq_true, Option.isSome_eq_false_iff, Option.isNone_iff_eq_none] at hsome
      exact .markUntracked hns hfree hsome
  | readTail =>
    simp only [step] at h
    split at h
    · rename_i job he
      obtain rfl := Option.some.inj h
      exact .readTail he
    · cases h
  | readInFlight =>
    simp only [step] at h
    split at h
    · rename_i job tail he
      obtain rfl := Option.some.inj h
      exact .readInFlight he
    · cases h
  | compute =>
    simp only [step] at h
    split at h
    · rename_i job c he
      obtain rfl := Option.some.inj h
      exact .compute he
    · cases h
  | skip =>
    simp only [step] at h
    split at h
    · rename_i job next he
      obtain ⟨rfl, rfl⟩ := ite_some_none_eq_some.mp h
      exact .skip he
    · cases h
  | save outcome =>
    simp only [step] at h
    split at h
    · rename_i job next he
      obtain ⟨-, h⟩ := Option.ite_none_left_eq_some.mp h
      cases outcome with
      | ok =>
        obtain rfl := Option.some.inj h
        exact .saveOk he
      | failed =>
        obtain rfl := Option.some.inj h
        exact .saveFailed he
      | halfway =>
        obtain rfl := Option.some.inj h
        exact .saveHalfway he
    · cases h
  | finish =>
    simp only [step] at h
    split at h
    · rename_i job he
      obtain rfl := Option.some.inj h
      exact .finish he rfl
    · cases h
  | undo keep =>
    simp only [step] at h
    split at h
    · rename_i job he
      obtain rfl := Option.some.inj h
      exact .undo he rfl
    · cases h
  | drop ns =>
    obtain ⟨hopen, rfl⟩ := ite_some_none_eq_some.mp h
    exact .drop hopen
  | forget ns =>
    obtain ⟨⟨hns, hfree⟩, rfl⟩ := ite_some_none_eq_some.mp h
    exact .forget hns hfree
  | collect upTo =>
    obtain ⟨hle, rfl⟩ := ite_some_none_eq_some.mp h
    exact .collect hle
  | crash kept gap =>
    obtain ⟨hkept, rfl⟩ := ite_some_none_eq_some.mp h
    exact .crash hkept
  | retire =>
    simp only [step] at h
    obtain ⟨⟨hopen, hfree, hflushed⟩, h⟩ := Option.ite_none_right_eq_some.mp h
    split_ifs at h with hnone hsame
    · obtain rfl := Option.some.inj h
      exact .retireNone hopen hfree hflushed hnone
    · obtain rfl := Option.some.inj h
      exact .retireSame hopen hfree hflushed hsame
    · obtain rfl := Option.some.inj h
      exact .retire hopen hfree hflushed
  | retireFails renamed kept gap =>
    obtain ⟨⟨hopen, hfree, hflushed, hkept⟩, rfl⟩ := ite_some_none_eq_some.mp h
    exact .retireFails hopen hfree hflushed hkept

/-! ### Records move forward -/

theorem mem_set {a : Logged} (h : a ∈ (s.set r).log) : a = r ∨ (a ∈ s.log ∧ a.seq ≠ r.seq) := by
  obtain ⟨b, hb, rfl⟩ := mem_map.mp h
  by_cases hseq : b.seq = r.seq
  · exact .inl (if_pos hseq)
  · rw [if_neg hseq]
    exact .inr ⟨hb, hseq⟩

/-- What a step can do to a record. -/
structure Moves (s t : Sys) (r r' : Logged) : Prop where
  ns : r'.ns = r.ns
  start : r'.start = r.start
  stop : r'.stop = r.stop
  applied : ∀ v, r.stage = .applied v → r'.stage = .applied v
  found : r'.stage = .found ↔ r.stage = .found
  registered : r.registered = false → r'.registered = false
  /-- Only the files of a flush that fails are deleted. -/
  stored : r.stored = true → r'.stored = true ∨ (r.stage = .applied (s.flushed r.ns) ∧
    t.flushing r.ns = none ∧ t.flushed r.ns = s.flushed r.ns)
  /-- Only segments below the cut are deleted. -/
  inLog : r'.inLog = false → r.inLog = false ∨ r.stop ≤ s.retiredCut

theorem Moves.refl (s t : Sys) (r : Logged) : Moves s t r r :=
  ⟨rfl, rfl, rfl, fun _ => id, .rfl, id, .inl, .inl⟩

/-- The records of a state come from those of another, or are appended at its tail. -/
structure Follows (s t : Sys) : Prop where
  tail : s.tail ≤ t.tail
  dropped : ∀ ns ∈ s.dropped, ns ∈ t.dropped
  flushed : ∀ ns, s.flushed ns ≤ t.flushed ns
  log : ∀ r' ∈ t.log, (s.tail ≤ r'.start ∧ r'.stage = .appended ∧ r'.inLog = true) ∨
    ∃ r ∈ s.log, Moves s t r r'

/-- A step that only changes one record. -/
theorem Follows.set (hr : r ∈ s.log) (hlog : t.log = (s.set r').log) (hmoves : Moves s t r r')
    (htail : s.tail ≤ t.tail) (hdropped : t.dropped = s.dropped) (hflushed : t.flushed = s.flushed)
    : Follows s t := by
  refine ⟨htail, fun ns => hdropped ▸ id, fun ns => (congrFun hflushed ns).ge, fun a ha => ?_⟩
  obtain rfl | ⟨ha, -⟩ := mem_set (hlog ▸ ha)
  · exact .inr ⟨r, hr, hmoves⟩
  · exact .inr ⟨a, ha, .refl s t a⟩

/-- A step that changes no record. -/
theorem Follows.same (hlog : t.log = s.log) (htail : t.tail = s.tail)
    (hdropped : ∀ ns ∈ s.dropped, ns ∈ t.dropped) (hflushed : ∀ ns, s.flushed ns ≤ t.flushed ns) :
    Follows s t :=
  ⟨htail.ge, hdropped, hflushed, fun r hr => .inr ⟨r, hlog ▸ hr, .refl s t r⟩⟩

theorem register_flushed (s : Sys) (ns n : ℕ) : s.flushed n ≤ (s.register ns).flushed n := by
  by_cases h : n = ns
  · subst h
    simp [Sys.register]
  · simp [Sys.register, update_of_ne h]

/-- The files of a flush that fails are deleted. -/
theorem Follows.unstore {keep : List ℕ} (hlog : t.log = (s.unstore ns keep).log)
    (htail : t.tail = s.tail) (hdropped : t.dropped = s.dropped) (hflushed : t.flushed = s.flushed)
    (hnone : t.flushing ns = none) : Follows s t := by
  refine ⟨htail.ge, fun n => hdropped ▸ id, fun n => (congrFun hflushed n).ge, fun r' hr' => ?_⟩
  rw [hlog] at hr'
  obtain ⟨r, hr, rfl⟩ := mem_map.mp hr'
  refine .inr ⟨r, hr, ?_⟩
  split_ifs with hplace
  · obtain ⟨rfl, hstage, -⟩ := hplace
    exact ⟨rfl, rfl, rfl, fun _ => id, .rfl, id,
      fun _ => .inr ⟨hstage, hnone, congrFun hflushed _⟩, .inl⟩
  · exact .refl s t r

/-- The actions with which an open starts over. -/
def Act.reopens : Act → Bool
  | .crash _ _ => true
  | .retireFails _ _ _ => true
  | _ => false

/-! ### Writers -/

/-- What is known of the writes under way, the memtables and what is tracked. -/
structure Writers (s : Sys) : Prop where
  lt : ∀ r ∈ s.log, r.start < r.stop
  one : ∀ a ∈ s.log, ∀ b ∈ s.log, a.stage = .appended → b.stage = .appended → a.seq = b.seq
  appended : ∀ r ∈ s.log, r.stage = .appended → s.tail ≤ r.start ∧ r.registered = true
  published : ∀ r ∈ s.log, r.stage = .published → r.registered = true
  inFlight : ∀ r ∈ s.log, r.stage = .tracked → r.ns ∉ s.dropped → r.registered = true
  last : ∀ r ∈ s.log, r.ns ∉ s.dropped → r.stage = .tracked ∨ r.stage.isApplied = true ∨
    (r.stage = .found ∧ r.stored = false) → ∃ l, s.lastWrite.lookup r.ns = some l ∧ r.stop ≤ l
  version : ∀ r ∈ s.log, ∀ v, r.stage = .applied v →
    v ≤ s.version r.ns ∧ (s.sealing r.ns ≠ none → v < s.version r.ns)
  found : ∀ r ∈ s.log, r.stage = .found → r.registered = false
  replaying : s.recovering = true → ∀ r ∈ s.log, r.stage = .found
  unsealed : s.recovering = true → ∀ ns, s.sealing ns = none
  forgotten : ∀ ns ∈ s.forgotten, ns ∈ s.dropped
  sealing : ∀ ns x, s.sealing ns = some x → x.version + 1 = s.version ns

/-- What is known of one write. -/
structure Known (s : Sys) (r : Logged) : Prop where
  lt : r.start < r.stop
  appended : r.stage = .appended → s.tail ≤ r.start ∧ r.registered = true
  published : r.stage = .published → r.registered = true
  inFlight : r.stage = .tracked → r.ns ∉ s.dropped → r.registered = true
  last : r.ns ∉ s.dropped → r.stage = .tracked ∨ r.stage.isApplied = true ∨
    (r.stage = .found ∧ r.stored = false) → ∃ l, s.lastWrite.lookup r.ns = some l ∧ r.stop ≤ l
  version : ∀ v, r.stage = .applied v →
    v ≤ s.version r.ns ∧ (s.sealing r.ns ≠ none → v < s.version r.ns)
  found : r.stage = .found → r.registered = false
  replaying : s.recovering = true → r.stage = .found

namespace Writers

variable {s : Sys}

theorem known (h : Writers s) (hr : r ∈ s.log) : Known s r :=
  ⟨h.lt r hr, h.appended r hr, h.published r hr, h.inFlight r hr, h.last r hr, h.version r hr,
    h.found r hr, fun hrec => h.replaying hrec r hr⟩

theorem of_known (hknown : ∀ r ∈ s.log, Known s r)
    (hone : ∀ a ∈ s.log, ∀ b ∈ s.log, a.stage = .appended → b.stage = .appended → a.seq = b.seq)
    (hunsealed : s.recovering = true → ∀ ns, s.sealing ns = none)
    (hforgotten : ∀ ns ∈ s.forgotten, ns ∈ s.dropped)
    (hsealing : ∀ ns x, s.sealing ns = some x → x.version + 1 = s.version ns) : Writers s where
  lt r hr := (hknown r hr).lt
  one := hone
  appended r hr := (hknown r hr).appended
  published r hr := (hknown r hr).published
  inFlight r hr := (hknown r hr).inFlight
  last r hr := (hknown r hr).last
  version r hr := (hknown r hr).version
  found r hr := (hknown r hr).found
  replaying hrec r hr := (hknown r hr).replaying hrec
  unsealed := hunsealed
  forgotten := hforgotten
  sealing := hsealing

/-- After one record has changed, no other is appended besides those that were. -/
theorem one_set (h : Writers s) (hr : r ∈ s.log) (hseq : r'.seq = r.seq)
    (hstage : r'.stage = .appended → r.stage = .appended) : ∀ a ∈ (s.set r').log,
      ∀ b ∈ (s.set r').log, a.stage = .appended → b.stage = .appended → a.seq = b.seq := by
  have hold : ∀ a ∈ (s.set r').log, a.stage = .appended →
      ∃ b ∈ s.log, b.stage = .appended ∧ b.seq = a.seq := by
    intro a ha hsa
    obtain rfl | ⟨ha, -⟩ := mem_set ha
    · exact ⟨r, hr, hstage hsa, hseq.symm⟩
    · exact ⟨a, ha, hsa, rfl⟩
  intro a ha b hb hsa hsb
  obtain ⟨a', ha', hsa', heqa⟩ := hold a ha hsa
  obtain ⟨b', hb', hsb', heqb⟩ := hold b hb hsb
  rw [← heqa, ← heqb]
  exact h.one a' ha' b' hb' hsa' hsb'

/-- A record changes; the tail does not. -/
theorem set (h : Writers s) (hr : r ∈ s.log) (hseq : r'.seq = r.seq)
    (hstage' : r'.stage ≠ .appended) (hknown : Known s r') : Writers (s.set r') := by
  refine of_known (fun a ha => ?_) (h.one_set hr hseq fun hs => absurd hs hstage') h.unsealed
    h.forgotten h.sealing
  obtain rfl | ⟨ha, -⟩ := mem_set ha
  · exact { hknown with }
  · exact { h.known ha with }

/-- Nothing a writer sees changes but flags of the records. -/
theorem map (h : Writers s) {f : Logged → Logged}
    (hsame : ∀ r, (f r).seq = r.seq ∧ (f r).ns = r.ns ∧ (f r).start = r.start ∧
      (f r).stop = r.stop ∧ (f r).stage = r.stage ∧ (f r).registered = r.registered)
    (hstored : ∀ r, r.stage = .found → (f r).stored = false → r.stored = false) :
    Writers { s with log := s.log.map f } := by
  refine of_known (fun a ha => ?_) (fun a ha b hb hsa hsb => ?_) h.unsealed h.forgotten h.sealing
  · obtain ⟨r, hr, rfl⟩ := mem_map.mp ha
    obtain ⟨-, hns, hstart, hstop, hstage, hreg⟩ := hsame r
    have hknown := h.known hr
    refine ⟨?_, ?_, ?_, ?_, fun hlive hs => ?_, ?_, ?_, ?_⟩ <;> rw [hstage] at *
    · rw [hstart, hstop]
      exact hknown.lt
    · rw [hstart, hreg]
      exact hknown.appended
    · rw [hreg]
      exact hknown.published
    · rw [hns, hreg]
      exact hknown.inFlight
    · rw [hns] at hlive ⊢
      rw [hstop]
      exact hknown.last hlive
        (hs.imp_right (Or.imp_right fun hf => ⟨hf.1, hstored r hf.1 hf.2⟩))
    · rw [hns]
      exact hknown.version
    · rw [hreg]
      exact hknown.found
    · exact hknown.replaying
  · obtain ⟨r, hr, rfl⟩ := mem_map.mp ha
    obtain ⟨r', hr', rfl⟩ := mem_map.mp hb
    rw [(hsame r).1, (hsame r').1]
    exact h.one r hr r' hr' ((hsame r).2.2.2.2.1 ▸ hsa) ((hsame r').2.2.2.2.1 ▸ hsb)

/-- The files of a flush that fails are deleted. -/
theorem unstore (h : Writers s) (ns : ℕ) (keep : List ℕ) : Writers (s.unstore ns keep) := by
  refine h.map (fun r => ?_) (fun r hf hs => ?_)
  · split_ifs <;> exact ⟨rfl, rfl, rfl, rfl, rfl, rfl⟩
  · rw [hf] at hs
    simpa using hs

/-- A seal that goes on or ends keeps what is known of it. -/
theorem setSealing (h : Writers s) {ns : ℕ} {old : Sealing} {new : Option Sealing}
    (hns : s.sealing ns = some old) (hnew : ∀ x, new = some x → x.version = old.version) :
    Writers (s.setSealing ns new) where
  __ := h
  version r hr v hv := by
    obtain ⟨hle, hlt⟩ := h.version r hr v hv
    refine ⟨hle, fun hne => hlt ?_⟩
    by_cases heq : r.ns = ns
    · rw [heq, hns]
      exact some_ne_none _
    · simpa [Sys.setSealing, update_of_ne heq] using hne
  sealing n x hx := by
    by_cases heq : n = ns
    · subst heq
      simp only [Sys.setSealing, update_self] at hx
      exact hnew x hx ▸ h.sealing n old hns
    · simp only [Sys.setSealing, update_of_ne heq] at hx
      exact h.sealing n x hx
  unsealed hrec := absurd (hns.symm.trans (h.unsealed hrec ns)) (some_ne_none _)

end Writers

theorem writers_step (h : Writers s) (hst : Step s a t) (ha : a.reopens = false) : Writers t := by
  cases hst with
  | @append ns seq start len hopen hfree htail hlen =>
    have hmem : ∀ r ∈ s.log ++ [(⟨seq, ns, start, start + len, .appended, true, false, true⟩ :
        Logged)], r ∈ s.log ∨ r = ⟨seq, ns, start, start + len, .appended, true, false, true⟩ :=
      fun r hr => (mem_append.mp hr).imp_right mem_singleton.mp
    refine Writers.of_known (fun r hr => ?_) (fun a ha b hb hsa hsb => ?_)
      h.unsealed h.forgotten h.sealing
    · obtain hr | rfl := hmem r hr
      · exact { h.known hr with }
      · exact
          { lt := Nat.lt_add_of_pos_right hlen
            appended := fun _ => ⟨htail, rfl⟩
            published := fun hs => by cases hs
            inFlight := fun hs => by cases hs
            last := fun _ hs => by simp [Stage.isApplied] at hs
            version := fun v hs => by cases hs
            found := fun hs => by cases hs
            replaying := fun hrec => absurd (hopen.symm.trans hrec) Bool.noConfusion }
    · obtain ha | rfl := hmem a ha
      · exact absurd hsa (hfree a ha).1
      · obtain hb | rfl := hmem b hb
        · exact absurd hsb (hfree b hb).1
        · rfl
  | @publish r hr hstage =>
    obtain ⟨-, hreg⟩ := h.appended r hr hstage
    refine Writers.of_known (fun a ha => ?_) (h.one_set hr rfl fun hs => by cases hs)
      h.unsealed h.forgotten h.sealing
    obtain rfl | ⟨ha, hne⟩ := mem_set ha
    · exact { h.known hr with
        appended := fun hs => by cases hs
        published := fun _ => hreg
        inFlight := fun hs => by cases hs
        last := fun _ hs => by simp [Stage.isApplied] at hs
        version := fun v hs => by cases hs
        found := fun hs => by cases hs
        replaying := fun hrec =>
          absurd (h.replaying hrec r hr) (by rw [hstage]; exact Stage.noConfusion) }
    · -- the tail moves, and no other record is appended
      exact { h.known ha with
        appended := fun hs => absurd (h.one a ha r hr hs hstage) hne }
  | @track r hr hstage =>
    have hreg := h.published r hr hstage
    -- the end of the namespace's latest record only grows
    have hlast : ∀ ns l, s.lastWrite.lookup ns = some l → ∃ l', (if r.ns ∈ s.forgotten then
        s.lastWrite else s.lastWrite.insert r.ns
          (max ((s.lastWrite.lookup r.ns).getD r.stop) r.stop)).lookup ns = some l' ∧ l ≤ l' := by
      intro ns l hl
      split_ifs
      · exact ⟨l, hl, le_rfl⟩
      · by_cases hns : ns = r.ns
        · subst hns
          rw [AList.lookup_insert, hl]
          exact ⟨_, rfl, le_max_left _ _⟩
        · rw [AList.lookup_insert_ne hns]
          exact ⟨l, hl, le_rfl⟩
    refine Writers.of_known (fun a ha => ?_) (h.one_set hr rfl fun hs => by cases hs)
      h.unsealed h.forgotten h.sealing
    obtain rfl | ⟨ha, -⟩ := mem_set ha
    · exact { h.known hr with
        appended := fun hs => by cases hs
        published := fun hs => by cases hs
        inFlight := fun _ _ => hreg
        last := fun hlive _ => by
          have hkept : r.ns ∉ s.forgotten := fun hmem => hlive (h.forgotten _ hmem)
          refine ⟨max ((s.lastWrite.lookup r.ns).getD r.stop) r.stop, ?_, le_max_right _ _⟩
          dsimp only
          rw [if_neg hkept, AList.lookup_insert]
        version := fun v hs => by cases hs
        found := fun hs => by cases hs
        replaying := fun hrec =>
          absurd (h.replaying hrec r hr) (by rw [hstage]; exact Stage.noConfusion) }
    · exact { h.known ha with
        last := fun hlive hs => by
          obtain ⟨l, hl, hle⟩ := h.last a ha hlive hs
          obtain ⟨l', hl', hle'⟩ := hlast a.ns l hl
          exact ⟨l', hl', hle.trans hle'⟩ }
  | @apply r hr hstage hfree =>
    refine h.set hr rfl Stage.noConfusion { h.known hr with
      appended := fun hs => by cases hs
      published := fun hs => by cases hs
      inFlight := fun hs => by cases hs
      last := fun hlive _ => h.last r hr hlive (.inl hstage)
      version := fun v hv => ?_
      found := fun hs => by cases hs
      replaying := fun hrec =>
        absurd (h.replaying hrec r hr) (by rw [hstage]; exact Stage.noConfusion) }
    obtain rfl := Stage.applied.inj hv
    exact ⟨le_rfl, fun hne => absurd hfree hne⟩
  | @release r hr hstage =>
    have hne : r.stage ≠ .appended := by
      rintro heq
      simp [heq, Stage.isApplied] at hstage
    refine h.set hr rfl hne { h.known hr with
      appended := fun hs => absurd hs hne
      published := fun hs => ?_
      inFlight := fun hs hlive => ?_
      found := fun _ => rfl }
    · dsimp only at hs
      simp [hs, Stage.isApplied] at hstage
    · dsimp only at hs hlive
      simp [hs, Stage.isApplied] at hstage
      exact absurd hstage hlive
  | @swap ns hopen hfree =>
    refine { h with
      version := ?_
      sealing := ?_
      unsealed := fun hrec => absurd (hopen.symm.trans hrec) Bool.noConfusion }
    · intro r hr v hv
      obtain ⟨hle, hlt⟩ := h.version r hr v hv
      by_cases hns : r.ns = ns
      · subst hns
        simp only [update_self]
        exact ⟨by omega, fun _ => by omega⟩
      · simp only [update_of_ne hns, Sys.setSealing]
        exact ⟨hle, hlt⟩
    · intro n x hx
      by_cases hns : n = ns
      · subst hns
        simp only [Sys.setSealing, update_self, Option.some.injEq] at hx
        subst hx
        simp [Sealing.version]
      · simp only [Sys.setSealing, update_of_ne hns] at hx ⊢
        exact h.sealing n x hx
  | @sealReadTail ns v hns =>
    refine h.setSealing hns fun x hx => ?_
    split_ifs at hx
    obtain rfl := Option.some.inj hx
    rfl
  | @sealRecord ns v tail hns =>
    have hended : Writers (s.setSealing ns none) :=
      h.setSealing hns fun _ hx => by cases hx
    exact { hended with }
  | @store r hr hplace =>
    have hstage : r.stage ≠ .appended := by
      obtain ⟨-, hs⟩ | ⟨hrec, -⟩ := hplace
      · rw [hs]
        exact Stage.noConfusion
      · rw [h.replaying hrec r hr]
        exact Stage.noConfusion
    refine h.set hr rfl hstage { h.known hr with
      last := fun hlive hs => h.last r hr hlive (hs.imp_right (Or.imp_right fun hf => ?_)) }
    exact absurd hf.2 Bool.noConfusion
  | @abandon ns keep hns => exact { h.unstore ns keep with }
  | @undo e keep he hfailed =>
    obtain ⟨job, phase⟩ := e
    cases job with
    | written ns => exact { h.unstore ns keep with }
    | forget => exact { h with }
  | @finish e he hdone =>
    obtain ⟨job, phase⟩ := e
    cases job <;> exact { h with }
  | drop =>
    refine { h with inFlight := ?_, last := ?_, forgotten := ?_ }
    · exact fun r hr hs hlive => h.inFlight r hr hs fun hmem => hlive (mem_cons_of_mem _ hmem)
    · exact fun r hr hlive => h.last r hr fun hmem => hlive (mem_cons_of_mem _ hmem)
    · exact fun n hn => mem_cons_of_mem _ (h.forgotten n hn)
  | @forget ns hns hfree =>
    refine { h with last := ?_, forgotten := ?_ }
    · intro r hr hlive hs
      have hne : r.ns ≠ ns := fun heq => hlive (heq ▸ hns)
      simp only [Sys.forget, AList.lookup_erase_ne hne]
      exact h.last r hr hlive hs
    · intro n hn
      obtain rfl | hn := List.mem_cons.mp hn
      · exact hns
      · exact h.forgotten n hn
  | collect =>
    refine h.map (fun r => ?_) (fun r hf hs => ?_)
    · split_ifs <;> exact ⟨rfl, rfl, rfl, rfl, rfl, rfl⟩
    · split_ifs at hs <;> exact hs
  | crash => cases ha
  | retireFails => cases ha
  | retireNone | retireSame | retire =>
    exact { h with
      replaying := fun hrec => Bool.noConfusion hrec
      unsealed := fun hrec => Bool.noConfusion hrec }
  | _ => exact { h with }

theorem follows_step (h : Writers s) (hst : Step s a t) (ha : a.reopens = false) : Follows s t := by
  cases hst with
  | append hopen hfree htail hlen =>
    refine ⟨le_rfl, fun _ => id, fun _ => le_rfl, fun r hr => ?_⟩
    obtain hr | hr := mem_append.mp hr
    · exact .inr ⟨r, hr, .refl s _ r⟩
    · obtain rfl := mem_singleton.mp hr
      exact .inl ⟨htail, rfl, rfl⟩
  | @publish r hr hstage =>
    refine .set hr rfl ?_ ((h.appended r hr hstage).1.trans (h.lt r hr).le) rfl rfl
    exact ⟨rfl, rfl, rfl, fun _ hv => by simp [hstage] at hv, by simp [hstage], id, .inl, .inl⟩
  | @track r hr hstage | @apply r hr hstage hfree =>
    refine .set hr rfl ?_ le_rfl rfl rfl
    exact ⟨rfl, rfl, rfl, fun _ hv => by simp [hstage] at hv, by simp [hstage], id, .inl, .inl⟩
  | release hr hstage =>
    exact .set hr rfl ⟨rfl, rfl, rfl, fun _ => id, .rfl, fun _ => rfl, .inl, .inl⟩ le_rfl rfl rfl
  | store hr hplace =>
    exact .set hr rfl ⟨rfl, rfl, rfl, fun _ => id, .rfl, id, fun _ => .inl rfl, .inl⟩ le_rfl rfl rfl
  | abandon hns => exact .unstore rfl rfl rfl rfl (update_self ..)
  | @markUntracked ns => exact .same rfl rfl (fun _ => id) (register_flushed s ns)
  | @finish e he hdone =>
    obtain ⟨job, phase⟩ := e
    cases job with
    | written ns => exact .same rfl rfl (fun _ => id) (register_flushed s ns)
    | forget => exact .same rfl rfl (fun _ => id) fun _ => le_rfl
  | @undo e keep he hfailed =>
    obtain ⟨job, phase⟩ := e
    cases job with
    | written ns => exact .unstore rfl rfl rfl rfl (update_self ..)
    | forget => exact .same rfl rfl (fun _ => id) fun _ => le_rfl
  | drop => exact .same rfl rfl (fun _ => mem_cons_of_mem _) fun _ => le_rfl
  | collect hle =>
    refine ⟨le_rfl, fun _ => id, fun _ => le_rfl, fun r' hr' => ?_⟩
    obtain ⟨r, hr, rfl⟩ := mem_map.mp hr'
    refine .inr ⟨r, hr, ?_⟩
    split_ifs with hstop
    · exact ⟨rfl, rfl, rfl, fun _ => id, .rfl, id, .inl, fun _ => .inr (hstop.trans hle)⟩
    · exact .refl s _ r
  | crash => cases ha
  | retireFails => cases ha
  | _ => exact .same rfl rfl (fun _ => id) fun _ => le_rfl

/-! ### Flushes -/

/-- What is known of the level-0 files. -/
structure Flushes (s : Sys) : Prop where
  le : ∀ ns, s.flushed ns ≤ s.version ns
  lt : ∀ ns, s.flushing ns ≠ none → s.flushed ns < s.version ns
  stored : ∀ r ∈ s.log, ∀ v, r.stage = .applied v → v < s.flushed r.ns → r.stored = true
  written : ∀ r ∈ s.log, s.flushing r.ns = some .written ∨ s.flushing r.ns = some .reporting →
    r.stage = .applied (s.flushed r.ns) → r.stored = true
  event : ∀ ns v recorded folded before phase,
    s.event = some ⟨.written ns v recorded folded before, phase⟩ →
      v = s.flushed ns ∧ s.flushing ns = some .reporting
  reporting : ∀ ns, s.flushing ns = some .reporting → ∃ v recorded folded before phase,
    s.event = some ⟨.written ns v recorded folded before, phase⟩
  closed : s.recovering = true → s.event = none ∨ ∃ phase, s.event = some ⟨.forget, phase⟩
  idle : s.recovering = true → ∀ ns, s.version ns = s.flushed ns

namespace Flushes

variable {s : Sys}

/-- What is in level 0 is stored. -/
theorem log (h : Flushes s) (hr : r ∈ s.log) (v : ℕ) (hv : r.stage = .applied v)
    (hplace : v < s.flushed r.ns ∨ (v = s.flushed r.ns ∧ (s.flushing r.ns = some .written ∨
      s.flushing r.ns = some .reporting))) : r.stored = true := by
  obtain hlt | ⟨rfl, hflush⟩ := hplace
  · exact h.stored r hr v hv hlt
  · exact h.written r hr hflush hv

/-- The records change. -/
theorem of_log (h : Flushes s) {log : List Logged}
    (hlog : ∀ r' ∈ log, ∀ v, r'.stage = .applied v → v < s.flushed r'.ns ∨
      (v = s.flushed r'.ns ∧ (s.flushing r'.ns = some .written ∨
        s.flushing r'.ns = some .reporting)) → r'.stored = true) : Flushes { s with log := log } :=
  { h with
    stored := fun r hr v hv hlt => hlog r hr v hv (.inl hlt)
    written := fun r hr hflush hstage => hlog r hr _ hstage (.inr ⟨rfl, hflush⟩) }

/-- One record changes. -/
theorem set (h : Flushes s) (hr' : ∀ v, r'.stage = .applied v → v < s.flushed r'.ns ∨
      (v = s.flushed r'.ns ∧ (s.flushing r'.ns = some .written ∨
        s.flushing r'.ns = some .reporting)) → r'.stored = true) : Flushes (s.set r') := by
  refine h.of_log fun a ha v hv hplace => ?_
  obtain rfl | ⟨ha, -⟩ := mem_set ha
  · exact hr' v hv hplace
  · exact h.log ha v hv hplace

/-- A flush of a namespace moves on. -/
theorem setFlushing (h : Flushes s) {x : Flushing} (hlt : s.flushed ns < s.version ns)
    (hns : s.flushing ns ≠ some .reporting) (hx : x ≠ .reporting)
    (hwritten : x = .written → ∀ r ∈ s.log, r.ns = ns → r.stage = .applied (s.flushed ns) →
      r.stored = true) : Flushes (s.setFlushing ns (some x)) := by
  refine ⟨h.le, ?_, h.stored, ?_, ?_, ?_, h.closed, h.idle⟩
  · intro n hn
    by_cases heq : n = ns
    · exact heq ▸ hlt
    · rw [Sys.flushing_setFlushing, update_of_ne heq] at hn
      exact h.lt n hn
  · intro r hr hflush hstage
    by_cases heq : r.ns = ns
    · rw [heq, Sys.flushing_setFlushing, update_self, Option.some.injEq, Option.some.injEq] at hflush
      obtain hflush | hflush := hflush
      · exact hwritten hflush r hr heq (heq ▸ hstage)
      · exact absurd hflush hx
    · rw [Sys.flushing_setFlushing, update_of_ne heq] at hflush
      exact h.written r hr hflush hstage
  · intro n v recorded folded before phase he
    obtain ⟨hv, hflush⟩ := h.event n v recorded folded before phase he
    have hne : n ≠ ns := by
      rintro rfl
      exact hns hflush
    exact ⟨hv, (update_of_ne hne ..).trans hflush⟩
  · intro n hflush
    by_cases heq : n = ns
    · rw [heq, Sys.flushing_setFlushing, update_self, Option.some.injEq] at hflush
      exact absurd hflush hx
    · rw [Sys.flushing_setFlushing, update_of_ne heq] at hflush
      exact h.reporting n hflush

/-- While no event runs, no flush reports. -/
theorem not_reporting (h : Flushes s)
    (hfree : ∀ ns v recorded folded before phase,
      s.event ≠ some ⟨.written ns v recorded folded before, phase⟩) (n : ℕ) :
    s.flushing n ≠ some .reporting := by
  intro hn
  obtain ⟨v, recorded, folded, before, phase, he⟩ := h.reporting n hn
  exact hfree _ _ _ _ _ _ he

variable {phase : Phase}

/-- A flush that reports is the one of the event. -/
theorem eq_of_reporting (h : Flushes s) {n v : ℕ} {recorded : Bool} {folded : List ℕ}
    {before : Option ℕ} (he : s.event = some ⟨.written ns v recorded folded before, phase⟩)
    (hn : s.flushing n = some .reporting) : n = ns := by
  obtain ⟨v', recorded', folded', before', phase', he'⟩ := h.reporting n hn
  rw [he] at he'
  cases he'
  rfl

/-- A flush fails: some of its files are deleted. -/
theorem abandon (h : Flushes s) (keep : List ℕ)
    (hevent : e = s.event ∧ s.flushing ns ≠ some .reporting ∨ e = none ∧
      ∃ v recorded folded before phase,
        s.event = some ⟨.written ns v recorded folded before, phase⟩) :
    Flushes { (s.unstore ns keep).setFlushing ns none with event := e } := by
  have hother : ∀ n, n ≠ ns → update s.flushing ns none n = s.flushing n :=
    fun n hn => update_of_ne hn ..
  have hself : update s.flushing ns none ns = none := update_self ..
  have hstored : ∀ r' ∈ (s.unstore ns keep).log, ∃ r ∈ s.log, r'.ns = r.ns ∧ r'.stage = r.stage ∧
      (r'.stored = r.stored ∨ r.ns = ns ∧ r.stage = .applied (s.flushed ns)) := by
    intro r' hr'
    obtain ⟨r, hr, rfl⟩ := mem_map.mp hr'
    refine ⟨r, hr, ?_⟩
    split_ifs with hplace
    · exact ⟨rfl, rfl, .inr ⟨hplace.1, hplace.2.1⟩⟩
    · exact ⟨rfl, rfl, .inl rfl⟩
  have hne : ∀ {n x}, update s.flushing ns none n = some x → n ≠ ns := by
    rintro n x hflush rfl
    rw [hself] at hflush
    cases hflush
  refine ⟨h.le, fun n hn => ?_, fun r' hr' v hv hlt => ?_, fun r' hr' hflush hstage' => ?_,
    fun n v recorded folded before phase he => ?_, fun n hflush => ?_, ?_, h.idle⟩
  · by_cases heq : n = ns
    · exact absurd (heq ▸ hself) hn
    · exact h.lt n (hother n heq ▸ hn)
  · obtain ⟨r, hr, hns, hstage, hst⟩ := hstored r' hr'
    rw [hns] at hlt
    rw [hstage] at hv
    obtain hst | ⟨rfl, hst⟩ := hst
    · rw [hst]
      exact h.stored r hr v hv hlt
    · rw [hv] at hst
      obtain rfl := Stage.applied.inj hst
      exact absurd hlt (lt_irrefl _)
  · obtain ⟨r, hr, hns, hstage, hst⟩ := hstored r' hr'
    have hne' : r'.ns ≠ ns := hflush.elim hne hne
    rw [hstage, hns] at hstage'
    obtain hst | ⟨rfl, -⟩ := hst
    · rw [hst]
      refine h.written r hr ?_ hstage'
      rw [← hns, ← hother _ hne']
      exact hflush
    · exact absurd hns hne'
  · obtain ⟨rfl, hns⟩ | ⟨rfl, -⟩ := hevent
    · obtain ⟨hv, hflush⟩ := h.event n v recorded folded before phase he
      exact ⟨hv, (hother n fun heq => hns (heq ▸ hflush)).trans hflush⟩
    · cases he
  · have hns := hne hflush
    have hold := (hother n hns).symm.trans hflush
    obtain ⟨rfl, -⟩ | ⟨-, v', recorded', folded', before', phase', he'⟩ := hevent
    · exact h.reporting n hold
    · exact absurd (h.eq_of_reporting he' hold) hns
  · obtain ⟨rfl, -⟩ | ⟨rfl, -⟩ := hevent
    · exact h.closed
    · exact fun _ => .inl rfl

/-- A flush is over. -/
theorem register (h : Flushes s)
    (hns : s.flushing ns = some .written ∨ s.flushing ns = some .reporting) (hnone : e = none)
    (hevent : ∀ n, s.flushing n = some .reporting → n = ns) :
    Flushes { s.register ns with event := e } := by
  have hother : ∀ n, n ≠ ns → update s.flushing ns none n = s.flushing n :=
    fun n hn => update_of_ne hn ..
  have hself : update s.flushing ns none ns = none := update_self ..
  have hnext : ∀ n, n ≠ ns → update s.flushed ns (s.flushed ns + 1) n = s.flushed n :=
    fun n hn => update_of_ne hn ..
  have hone : update s.flushed ns (s.flushed ns + 1) ns = s.flushed ns + 1 :=
    update_self ..
  have hlt : s.flushed ns < s.version ns := h.lt ns (by obtain hns | hns := hns <;> simp [hns])
  have hne : ∀ {n x}, update s.flushing ns none n = some x → n ≠ ns := by
    rintro n x hflush rfl
    rw [hself] at hflush
    cases hflush
  subst hnone
  refine ⟨fun n => ?_, fun n hn => ?_, fun r hr v hv hv' => ?_, fun r hr hflush hstage => ?_,
    fun _ _ _ _ _ _ he => (by cases he), fun n hflush => ?_, fun _ => .inl rfl, fun hrec => ?_⟩
  · change update s.flushed ns _ n ≤ s.version n
    by_cases heq : n = ns
    · rw [heq, hone]
      exact hlt
    · rw [hnext n heq]
      exact h.le n
  · change update s.flushed ns _ n < s.version n
    have heq : n ≠ ns := fun heq => hn (heq ▸ hself)
    rw [hnext n heq]
    exact h.lt n (hother n heq ▸ hn)
  · change v < update s.flushed ns _ r.ns at hv'
    by_cases heq : r.ns = ns
    · rw [heq, hone, Nat.lt_succ_iff_lt_or_eq] at hv'
      exact h.log hr v hv (hv'.imp (heq ▸ ·) fun hv => ⟨heq ▸ hv, heq ▸ hns⟩)
    · rw [hnext _ heq] at hv'
      exact h.stored r hr v hv hv'
  · have heq : r.ns ≠ ns := hflush.elim hne hne
    refine h.written r hr ?_ ?_
    · rw [← hother _ heq]
      exact hflush
    · rw [← hnext _ heq]
      exact hstage
  · exact absurd (hevent n ((hother n (hne hflush)).symm.trans hflush)) (hne hflush)
  · exact absurd (h.idle hrec ns) hlt.ne'

/-- A written event begins. -/
theorem mark (h : Flushes s) (hns : s.flushing ns = some .written) (hfree : s.event = none) :
    Flushes (s.mark ns) := by
  have hother : ∀ n, n ≠ ns → (s.mark ns).flushing n = s.flushing n :=
    fun n hn => update_of_ne hn ..
  have hnone := h.not_reporting (by simp [hfree])
  have hlt : s.flushed ns < s.version ns := h.lt ns (by simp [hns])
  refine { h with lt := fun n hn => ?_, written := fun r hr hflush hstage => ?_, event := ?_,
                  reporting := fun n hn => ?_, closed := ?_, idle := ?_ }
  · by_cases heq : n = ns
    · exact heq ▸ hlt
    · exact h.lt n (hother n heq ▸ hn)
  · by_cases heq : r.ns = ns
    · exact h.written r hr (.inl (heq ▸ hns)) hstage
    · rw [hother _ heq] at hflush
      exact h.written r hr hflush hstage
  · rintro n v recorded folded before phase he
    cases he
    exact ⟨rfl, update_self ..⟩
  · by_cases heq : n = ns
    · exact heq ▸ ⟨_, _, _, _, _, rfl⟩
    · exact absurd (hother n heq ▸ hn) (hnone n)
  · exact fun hrec => absurd (h.idle hrec ns) hlt.ne'
  · exact fun hrec => absurd (h.idle hrec ns) hlt.ne'

/-- The event moves on. -/
theorem setEvent (h : Flushes s) {job : Job} (phase' : Phase) (he : s.event = some ⟨job, phase⟩) :
    Flushes { s with event := some ⟨job, phase'⟩ } := by
  refine { h with event := fun ns v recorded folded before ph heq => ?_,
                  reporting := fun ns hns => ?_, closed := fun hrec => ?_ }
  · cases heq
    exact h.event ns v recorded folded before phase he
  · obtain ⟨v, recorded, folded, before, ph, heq⟩ := h.reporting ns hns
    rw [he] at heq
    cases heq
    exact ⟨v, recorded, folded, before, phase', rfl⟩
  · obtain hnone | ⟨ph, heq⟩ := h.closed hrec
    · rw [he] at hnone
      cases hnone
    · rw [he] at heq
      cases heq
      exact .inr ⟨phase', rfl⟩

/-- An event of a namespace that is forgotten begins, ends or fails. -/
theorem forgetting (h : Flushes s) (hfree : ∀ ns v recorded folded before phase,
      s.event ≠ some ⟨.written ns v recorded folded before, phase⟩)
    (hnew : e = none ∨ ∃ phase, e = some ⟨.forget, phase⟩) : Flushes { s with event := e } :=
  { h with
    event := fun ns v recorded folded before phase he => by
      change e = _ at he
      obtain rfl | ⟨phase', rfl⟩ := hnew <;> cases he
    reporting := fun n hn => absurd hn (h.not_reporting hfree n)
    closed := fun _ => hnew }

end Flushes

theorem flushes_step (h : Flushes s) (hst : Step s a t) (ha : a.reopens = false) : Flushes t := by
  cases hst with
  | append hopen hfree htail hlen =>
    refine h.of_log fun r hr v hv hplace => ?_
    obtain hr | hr := mem_append.mp hr
    · exact h.log hr v hv hplace
    · obtain rfl := mem_singleton.mp hr
      cases hv
  | @publish r hr hstage =>
    have hset : Flushes (s.set { r with stage := .published }) := h.set fun v hv => by cases hv
    exact { hset with }
  | @track r hr hstage =>
    have hset : Flushes (s.set { r with stage := .tracked }) := h.set fun v hv => by cases hv
    exact { hset with }
  | @apply r hr hstage hfree =>
    refine h.set fun v hv hplace => ?_
    obtain rfl := Stage.applied.inj hv
    -- no flush has come to the active memtable
    obtain hlt | ⟨heq, hflush⟩ := hplace
    · exact absurd hlt (h.le r.ns).not_gt
    · have hlt := h.lt r.ns (by obtain hflush | hflush := hflush <;> simp [hflush])
      exact absurd heq hlt.ne'
  | @release r hr hstage => exact h.set fun v hv => h.log hr v hv
  | @store r hr hplace => exact h.set fun _ _ _ => rfl
  | @swap ns hopen hfree =>
    have hle : ∀ n, s.version n ≤ update s.version ns (s.version ns + 1) n := by
      intro n
      by_cases heq : n = ns
      · rw [heq, update_self]
        exact Nat.le_succ _
      · rw [update_of_ne heq]
    exact { h with
      le := fun n => (h.le n).trans (hle n)
      lt := fun n hn => (h.lt n hn).trans_le (hle n)
      idle := fun hrec => absurd (hopen.symm.trans hrec) Bool.noConfusion }
  | flushCheck hfree hlt hdurable =>
    exact h.setFlushing hlt (by simp [hfree]) Flushing.noConfusion fun hx => Flushing.noConfusion hx
  | @written ns hns hstored =>
    exact h.setFlushing (h.lt ns (by simp [hns])) (by simp [hns]) Flushing.noConfusion
      fun _ => hstored
  | @abandon ns keep hns =>
    refine h.abandon keep (.inl ⟨rfl, ?_⟩)
    obtain hns | hns := hns <;> simp [hns]
  | @mark ns hns hfree => exact h.mark hns hfree
  | @markUntracked ns hns hfree hnone =>
    exact { h.register (.inl hns) hfree fun n hn =>
      absurd hn (h.not_reporting (by simp [hfree]) n) with }
  | readTail he | readInFlight he | compute he | skip he | saveOk he | saveFailed he
    | saveHalfway he => exact { h.setEvent _ he with }
  | @finish e he hdone =>
    obtain ⟨job, phase⟩ := e
    cases job with
    | written ns v recorded folded before =>
      obtain ⟨-, hns⟩ := h.event ns v recorded folded before phase he
      exact { h.register (.inr hns) rfl fun n hn => h.eq_of_reporting he hn with }
    | forget => exact h.forgetting (by simp [he]) (.inl rfl)
  | @undo e keep he hfailed =>
    obtain ⟨job, phase⟩ := e
    cases job with
    | written ns v recorded folded before =>
      exact { h.abandon keep (.inr ⟨rfl, v, recorded, folded, before, phase, he⟩) with }
    | forget => exact h.forgetting (by simp [he]) (.inl rfl)
  | forget hns hfree =>
    exact { h.forgetting (by simp [hfree]) (.inr ⟨.marked, rfl⟩) with }
  | collect =>
    refine h.of_log fun r' hr' v hv hplace => ?_
    obtain ⟨r, hr, rfl⟩ := mem_map.mp hr'
    split_ifs at hv hplace ⊢ <;> exact h.log (r := r) hr v hv hplace
  | crash => cases ha
  | retireFails => cases ha
  | retireNone | retireSame | retire =>
    exact { h with
      closed := fun hrec => Bool.noConfusion hrec
      idle := fun hrec => Bool.noConfusion hrec }
  | _ => exact { h with }

/-! ### What is below a bound -/

/-- The write is in registered level-0 files, or in some that the last open has registered. -/
def Settled (s : Sys) (r : Logged) : Prop :=
  r.stored = true ∧ (r.stage = .found ∨ ∃ v < s.flushed r.ns, r.stage = .applied v)

/-- The write is settled, or in the memtable of the written event under way. -/
def Covered (s : Sys) (r : Logged) : Prop :=
  Settled s r ∨ (r.stage = .applied (s.flushed r.ns) ∧ s.flushing r.ns = some .reporting)

/-- The write is settled, or in a memtable of at most this version. -/
def Placed (version : ℕ) (s : Sys) (r : Logged) : Prop :=
  Settled s r ∨ ∃ v ≤ version, r.stage = .applied v

/-- The write is settled, or in the memtable of a written event whose marker is saved. -/
def Retired (s : Sys) (r : Logged) : Prop :=
  Settled s r ∨ (r.stage = .applied (s.flushed r.ns) ∧ s.retiring r.ns = true)

/-- Every record of a namespace below a position, which the tail has passed, is settled in some
sense. -/
def Below (ok : Sys → Logged → Prop) (s : Sys) (ns c : ℕ) : Prop :=
  c ≤ s.tail ∧ ∀ r ∈ s.log, r.ns = ns → r.start < c → ok s r

theorem Below.zero (ok : Sys → Logged → Prop) (s : Sys) (ns : ℕ) : Below ok s ns 0 :=
  ⟨Nat.zero_le _, fun _ _ _ hlt => absurd hlt (Nat.not_lt_zero _)⟩

theorem Below.max {d : ℕ} (hc : Below ok s ns c) (hd : Below ok s ns d) : Below ok s ns (max c d) :=
  ⟨max_le hc.1 hd.1, fun r hr hns hlt =>
    (lt_max_iff.mp hlt).elim (hc.2 r hr hns) (hd.2 r hr hns)⟩

variable {ok' : Sys → Logged → Prop}

theorem Below.mono (h : Below ok s ns c) (hok : ∀ r ∈ s.log, r.ns = ns → ok s r → ok' s r) :
    Below ok' s ns c :=
  ⟨h.1, fun r hr hns hlt => hok r hr hns (h.2 r hr hns hlt)⟩

/-- **A step keeps a bound**, if it keeps what the bound says of a record. -/
theorem Below.follows (h : Below ok s ns c) (hf : Follows s t)
    (hok : ∀ r ∈ s.log, r.ns = ns → ∀ r', Moves s t r r' → ok s r → ok' t r') :
    Below ok' t ns c := by
  refine ⟨h.1.trans hf.tail, fun r' hr' hns hlt => ?_⟩
  obtain ⟨htail, -⟩ | ⟨r, hr, hmoves⟩ := hf.log r' hr'
  · exact absurd (hlt.trans_le h.1) (not_lt.mpr htail)
  · rw [hmoves.ns] at hns
    rw [hmoves.start] at hlt
    exact hok r hr hns r' hmoves (h.2 r hr hns hlt)

theorem Moves.settled (h : Moves s t r r') (hf : Follows s t) (hr : Settled s r) :
    Settled t r' := by
  obtain ⟨hstored, hstage⟩ := hr
  obtain hstored' | ⟨hplace, -⟩ := h.stored hstored
  · refine ⟨hstored', hstage.imp h.found.mpr ?_⟩
    rintro ⟨v, hv, hstage⟩
    exact ⟨v, h.ns ▸ hv.trans_le (hf.flushed r.ns), h.applied v hstage⟩
  · obtain hstage | ⟨v, hv, hstage⟩ := hstage
    · rw [hplace] at hstage
      cases hstage
    · rw [hplace] at hstage
      obtain rfl := Stage.applied.inj hstage
      exact absurd hv (lt_irrefl _)

theorem Moves.placed (h : Moves s t r r') (hf : Follows s t) (hr : Placed version s r) :
    Placed version t r' :=
  hr.imp (h.settled hf) fun ⟨v, hv, hstage⟩ => ⟨v, hv, h.applied v hstage⟩

/-- A written event under way that is not undone goes on or has registered its files. -/
theorem Moves.covered (h : Moves s t r r') (hf : Follows s t) (hflushes : Flushes s)
    (hmem : r ∈ s.log) (hns : s.flushing r.ns = some .reporting →
      (t.flushed r.ns = s.flushed r.ns ∧ t.flushing r.ns = some .reporting) ∨
        s.flushed r.ns < t.flushed r.ns) (hr : Covered s r) : Covered t r' := by
  obtain hr | ⟨hstage, hflush⟩ := hr
  · exact .inl (h.settled hf hr)
  · have hstage' := h.applied _ hstage
    obtain ⟨hsame, hflush'⟩ | hlt := hns hflush
    · refine .inr ⟨?_, h.ns ▸ hflush'⟩
      rw [h.ns, hsame]
      exact hstage'
    · obtain hst | ⟨-, -, hsame⟩ := h.stored (hflushes.written r hmem (.inr hflush) hstage)
      · exact .inl ⟨hst, .inr ⟨_, h.ns ▸ hlt, hstage'⟩⟩
      · exact absurd hsame hlt.ne'

theorem retiring_spec (h : s.retiring ns = true) :
    ∃ v recorded folded before, s.event = some ⟨.written ns v recorded folded before, .done⟩ := by
  unfold Sys.retiring at h
  split at h
  · rename_i n v recorded folded before he
    obtain rfl := of_decide_eq_true h
    exact ⟨v, recorded, folded, before, he⟩
  · cases h

theorem Retired.covered (hf : Flushes s) (h : Retired s r) : Covered s r := by
  refine h.imp_right fun ⟨hstage, hretiring⟩ => ⟨hstage, ?_⟩
  obtain ⟨v, recorded, folded, before, he⟩ := retiring_spec hretiring
  exact (hf.event _ _ _ _ _ _ he).2

theorem retired_iff (hf : Flushes s) (hr : r ∈ s.log) : s.inLevel0 r = true ↔ Retired s r := by
  unfold Sys.inLevel0
  constructor
  · intro h
    obtain ⟨hstored, hstage⟩ := (Bool.and_eq_true _ _).mp h
    split at hstage
    · rename_i hfound
      exact .inl ⟨hstored, .inl hfound⟩
    · rename_i v hv
      obtain hlt | hlast := (Bool.or_eq_true _ _).mp hstage
      · exact .inl ⟨hstored, .inr ⟨v, of_decide_eq_true hlt, hv⟩⟩
      · obtain ⟨heq, hretiring⟩ := (Bool.and_eq_true _ _).mp hlast
        obtain rfl := of_decide_eq_true heq
        exact .inr ⟨hv, hretiring⟩
    · cases hstage
  · rintro (⟨hstored, hfound | ⟨v, hlt, hv⟩⟩ | ⟨hv, hretiring⟩)
    · simp [hstored, hfound]
    · simp [hstored, hv, hlt]
    · obtain ⟨v, recorded, folded, before, he⟩ := retiring_spec hretiring
      have hstored := hf.written r hr (.inr (hf.event _ _ _ _ _ _ he).2) hv
      simp [hstored, hv, hretiring]

/-- A written event goes on until it has registered its files, or is undone. -/
theorem reporting_step (h : Flushes s) (hst : Step s a t) (ha : a.reopens = false)
    (hns : s.flushing ns = some .reporting) :
    (t.flushed ns = s.flushed ns ∧ t.flushing ns = some .reporting) ∨
      s.flushed ns < t.flushed ns ∨
      ∃ v recorded folded before, s.event = some ⟨.written ns v recorded folded before, .failed⟩ ∧
        t.event = none := by
  obtain ⟨v, recorded, folded, before, phase, he⟩ := h.reporting ns hns
  have hother : ∀ n, s.flushing n ≠ some .reporting → ∀ x,
      (update s.flushing n x) ns = some .reporting := by
    intro n hn x
    have hne : ns ≠ n := fun heq => hn (heq ▸ hns)
    rw [update_of_ne hne]
    exact hns
  cases hst with
  | flushCheck hfree hlt hdurable => exact .inl ⟨rfl, hother _ (by simp [hfree]) _⟩
  | written hchecked hstored => exact .inl ⟨rfl, hother _ (by simp [hchecked]) _⟩
  | abandon hflush =>
    refine .inl ⟨rfl, hother _ ?_ _⟩
    obtain hflush | hflush := hflush <;> simp [hflush]
  | mark hwritten hfree | markUntracked hwritten hfree =>
    rw [hfree] at he
    cases he
  | finish he' hdone =>
    rw [he] at he'
    obtain rfl := Option.some.inj he'
    refine .inr (.inl ?_)
    simp [Sys.finish, Sys.register]
  | undo he' hfailed =>
    rw [he] at he'
    obtain rfl := Option.some.inj he'
    dsimp only at hfailed
    subst hfailed
    exact .inr (.inr ⟨v, recorded, folded, before, he, rfl⟩)
  | crash => cases ha
  | retireFails => cases ha
  | _ => exact .inl ⟨rfl, hns⟩

/-- A step keeps a bound on what is settled. -/
theorem Below.settled (h : Below Settled s ns c) (hf : Follows s t) : Below Settled t ns c :=
  h.follows hf fun _ _ _ _ hmoves => hmoves.settled hf

/-- A step keeps a bound on what is covered, if it does not undo the event. -/
theorem Below.covered (h : Below Covered s ns c) (hflushes : Flushes s) (hf : Follows s t)
    (hst : Step s a t) (ha : a.reopens = false) (hkeep : ∀ v recorded folded before,
      s.event = some ⟨.written ns v recorded folded before, .failed⟩ → t.event ≠ none) :
    Below Covered t ns c := by
  refine h.follows hf fun r hr hns r' hmoves => hmoves.covered hf hflushes hr fun hflush => ?_
  subst hns
  obtain hon | hlt | ⟨v, recorded, folded, before, he, hnone⟩ :=
    reporting_step hflushes hst ha hflush
  · exact .inl hon
  · exact .inr hlt
  · exact absurd hnone (hkeep v recorded folded before he)

/-- An event whose marker is saved stays until it has registered its files. -/
theorem retiring_step (hst : Step s a t) (ha : a.reopens = false) (hns : s.retiring ns = true) :
    (t.flushed ns = s.flushed ns ∧ t.retiring ns = true) ∨ s.flushed ns < t.flushed ns := by
  obtain ⟨v, recorded, folded, before, he⟩ := retiring_spec hns
  cases hst with
  | finish he' hdone =>
    rw [he] at he'
    obtain rfl := Option.some.inj he'
    refine .inr ?_
    simp [Sys.finish, Sys.register]
  | undo he' hfailed =>
    rw [he] at he'
    obtain rfl := Option.some.inj he'
    cases hfailed
  | mark hwritten hfree | markUntracked hwritten hfree | forget hdropped hfree =>
    rw [hfree] at he
    cases he
  | readTail he' | readInFlight he' | compute he' | skip he' | saveOk he' | saveFailed he'
    | saveHalfway he' =>
    rw [he] at he'
    cases he'
  | crash => cases ha
  | retireFails => cases ha
  | _ => exact .inl ⟨rfl, hns⟩

/-- What is retired stays so. -/
theorem Moves.retired (h : Moves s t r r') (hflushes : Flushes s) (hf : Follows s t)
    (hst : Step s a t) (ha : a.reopens = false) (hr : r ∈ s.log) (hret : Retired s r) :
    Retired t r' := by
  obtain hset | ⟨hstage, hretiring⟩ := hret
  · exact .inl (h.settled hf hset)
  · have hstage' := h.applied _ hstage
    obtain ⟨hsame, hon⟩ | hlt := retiring_step hst ha hretiring
    · refine .inr ⟨?_, h.ns ▸ hon⟩
      rw [h.ns, hsame]
      exact hstage'
    · obtain ⟨v, recorded, folded, before, he⟩ := retiring_spec hretiring
      have hstored := hflushes.written r hr (.inr (hflushes.event _ _ _ _ _ _ he).2) hstage
      obtain hst | ⟨-, -, hsame⟩ := h.stored hstored
      · exact .inl ⟨hst, .inr ⟨_, h.ns ▸ hlt, hstage'⟩⟩
      · exact absurd hsame hlt.ne'

/-- A step keeps a bound on what is retired. -/
theorem Below.retired (h : Below Retired s ns c) (hflushes : Flushes s) (hf : Follows s t)
    (hst : Step s a t) (ha : a.reopens = false) : Below Retired t ns c :=
  h.follows hf fun _ hr _ _ hmoves => hmoves.retired hflushes hf hst ha hr

/-! ### Seal records -/

theorem mem_sealsOf {e : ℕ × PendingFlush} :
    e ∈ sealsOf seals ns ↔ seals.lookup (ns, e.1) = some e.2 := by
  rw [sealsOf, List.mem_insertionSort, mem_map, ← mem_def, AList.mem_lookup_iff]
  constructor
  · rintro ⟨x, hx, rfl⟩
    obtain ⟨hmem, hns⟩ := mem_filter.mp hx
    obtain rfl := of_decide_eq_true hns
    exact hmem
  · exact fun h => ⟨_, mem_filter.mpr ⟨h, decide_eq_true rfl⟩, rfl⟩

theorem mem_fold {e : ℕ × PendingFlush} (h : e ∈ fold seals ns) :
    seals.lookup (ns, e.1) = some e.2 ∧ e.2.flushed = true :=
  have hflushed := List.mem_takeWhile_imp (p := fun e : ℕ × PendingFlush => e.2.flushed) h
  ⟨mem_sealsOf.mp ((List.takeWhile_sublist _).subset h), hflushed⟩

theorem lookup_eraseAll {keys : List (ℕ × ℕ)} (h : (eraseAll seals keys).lookup k = some p) :
    seals.lookup k = some p ∧ k ∉ keys := by
  induction keys generalizing seals with
  | nil => exact ⟨h, List.not_mem_nil⟩
  | cons key keys ih =>
    have herased : (eraseAll (seals.erase key) keys).lookup k = some p := h
    obtain ⟨hlookup, hkeys⟩ := ih herased
    by_cases hk : k = key
    · subst hk
      rw [AList.lookup_erase] at hlookup
      cases hlookup
    · rw [AList.lookup_erase_ne hk] at hlookup
      exact ⟨hlookup, by simp [hk, hkeys]⟩

theorem lookup_markFlushed (h : (markFlushed seals ns version).lookup k = some p) :
    (k ≠ (ns, version) ∧ seals.lookup k = some p) ∨
      (k = (ns, version) ∧ p = { (seals.lookup k).getD ⟨0, false⟩ with flushed := true }) := by
  rw [markFlushed] at h
  by_cases hk : k = (ns, version)
  · subst hk
    rw [AList.lookup_insert] at h
    exact .inr ⟨rfl, (Option.some.inj h).symm⟩
  · rw [AList.lookup_insert_ne hk] at h
    exact .inl ⟨hk, h⟩

theorem lookup_unmark {recorded : Bool} (h : (unmark seals ns version recorded).lookup k = some p) :
    ∃ q, seals.lookup k = some q ∧ q.ceiling = p.ceiling ∧
      (p.flushed = true → k ≠ (ns, version) ∧ q.flushed = true) := by
  rw [unmark] at h
  by_cases hk : k = (ns, version)
  · subst hk
    split_ifs at h
    · cases hseal : seals.lookup (ns, version) with
      | none =>
        simp only [hseal] at h
        cases h
      | some q =>
        simp only [hseal] at h
        rw [AList.lookup_insert] at h
        obtain rfl := Option.some.inj h
        exact ⟨q, rfl, rfl, fun hflushed => absurd hflushed Bool.noConfusion⟩
    · rw [AList.lookup_erase] at h
      cases h
  · have hsame : seals.lookup k = some p := by
      split_ifs at h
      · split at h
        · rwa [AList.lookup_insert_ne hk] at h
        · exact h
      · rwa [AList.lookup_erase_ne hk] at h
    exact ⟨p, hsame, rfl, fun hflushed => ⟨hk, hflushed⟩⟩

/-- What is known of the seal records. -/
structure Records (s : Sys) : Prop where
  tailRead : ∀ ns v tail, s.sealing ns = some (.tailRead v tail) → tail ≤ s.tail
  /-- Every record of the namespace below the ceiling is in the memtable that was sealed, or an
  older one. -/
  below : ∀ ns v p, s.seals.lookup (ns, v) = some p → ns ∉ s.dropped →
    Below (Placed v) s ns p.ceiling
  flushed : ∀ ns v p, s.seals.lookup (ns, v) = some p → p.flushed = true →
    v < s.flushed ns ∨ (v = s.flushed ns ∧ s.flushing ns = some .reporting)

namespace Records

variable {s : Sys}

/-- A step that makes no seal record. -/
theorem follows (h : Records s) (hf : Follows s t)
    (hsealing : ∀ ns v tail, t.sealing ns = some (.tailRead v tail) → tail ≤ t.tail)
    (hseals : ∀ ns v p, t.seals.lookup (ns, v) = some p →
      ∃ q, s.seals.lookup (ns, v) = some q ∧ q.ceiling = p.ceiling ∧ (p.flushed = true →
        v < t.flushed ns ∨ (v = t.flushed ns ∧ t.flushing ns = some .reporting))) : Records t := by
  refine ⟨hsealing, ?_, ?_⟩
  · intro ns v p hp hlive
    obtain ⟨q, hq, hceiling, -⟩ := hseals ns v p hp
    rw [← hceiling]
    exact (h.below ns v q hq fun hmem => hlive (hf.dropped _ hmem)).follows hf
      fun _ _ _ _ hmoves => hmoves.placed hf
  · intro ns v p hp
    obtain ⟨q, -, -, hfl⟩ := hseals ns v p hp
    exact hfl

/-- A step that changes no seal record. -/
theorem same (h : Records s) (hf : Follows s t) (hseals : t.seals = s.seals)
    (hsealing : ∀ ns v tail, t.sealing ns = some (.tailRead v tail) → tail ≤ t.tail)
    (hflushed : ∀ ns, s.flushing ns = some .reporting →
      (t.flushed ns = s.flushed ns ∧ t.flushing ns = some .reporting) ∨
        s.flushed ns < t.flushed ns) : Records t := by
  refine h.follows hf hsealing fun ns v p hp => ?_
  rw [hseals] at hp
  refine ⟨p, hp, rfl, fun hfl => ?_⟩
  obtain hlt | ⟨rfl, hflush⟩ := h.flushed ns v p hp hfl
  · exact .inl (hlt.trans_le (hf.flushed ns))
  · obtain ⟨hsame, hon⟩ | hlt := hflushed ns hflush
    · exact .inr ⟨hsame.symm, hon⟩
    · exact .inl hlt

end Records

/-- While a seal holds the memtable's lock, every record of the namespace below the ceiling is in
the memtable that is sealed or an older one. -/
theorem Writers.placed (h : Writers s)
    (hreplayed : s.recovering = false → ∀ r ∈ s.log, r.ns ∉ s.dropped → r.stage = .found →
      r.stored = true) {v tail : ℕ} (hns : s.sealing ns = some (.tailRead v tail))
    (htail : tail ≤ s.tail) (hr : r ∈ s.log) (hrns : r.ns = ns) (hlive : r.ns ∉ s.dropped)
    (hlt : r.start < walCutCeiling tail (s.inFlight (some ns))) : Placed v s r := by
  have hreg : r.registered = false := by
    refine Bool.eq_false_iff.mpr fun hreg => notMem_of_lt_walCutCeiling hlt ?_
    exact mem_map.mpr ⟨r, mem_filter.mpr ⟨hr, by simp [hreg, hrns]⟩, rfl⟩
  cases hstage : r.stage with
  | appended =>
    have hle := (h.appended r hr hstage).1
    exact absurd ((hlt.trans_le (walCutCeiling_le _ _)).trans_le htail) (not_lt.mpr hle)
  | published => exact absurd (hreg.symm.trans (h.published r hr hstage)) Bool.noConfusion
  | tracked => exact absurd (hreg.symm.trans (h.inFlight r hr hstage hlive)) Bool.noConfusion
  | applied u =>
    have hu := (h.version r hr u hstage).2 (by simp [hrns, hns])
    have hversion := h.sealing ns _ hns
    rw [hrns, ← hversion] at hu
    exact .inr ⟨u, Nat.lt_succ_iff.mp hu, hstage⟩
  | found =>
    have hopen : s.recovering = false := by
      refine Bool.eq_false_iff.mpr fun hrec => ?_
      rw [h.unsealed hrec ns] at hns
      cases hns
    exact .inl ⟨hreplayed hopen r hr hlive hstage, .inl hstage⟩

theorem records_step (hw : Writers s) (hflushes : Flushes s) (h : Records s)
    (hreplayed : s.recovering = false → ∀ r ∈ s.log, r.ns ∉ s.dropped → r.stage = .found →
      r.stored = true) (hst : Step s a t) (ha : a.reopens = false) : Records t := by
  have hf := follows_step hw hst ha
  have hreporting : ∀ ns, s.flushing ns = some .reporting →
      (∀ v recorded folded before, s.event = some ⟨.written ns v recorded folded before, .failed⟩ →
        t.event ≠ none) →
      (t.flushed ns = s.flushed ns ∧ t.flushing ns = some .reporting) ∨
        s.flushed ns < t.flushed ns := by
    intro ns hns hkeep
    obtain hon | hlt | ⟨v, recorded, folded, before, he, hnone⟩ :=
      reporting_step hflushes hst ha hns
    · exact .inl hon
    · exact .inr hlt
    · exact absurd hnone (hkeep v recorded folded before he)
  have htailRead : t.sealing = s.sealing →
      ∀ ns v tail, t.sealing ns = some (.tailRead v tail) → tail ≤ t.tail := by
    intro hsame ns v tail hns
    exact (h.tailRead ns v tail (hsame ▸ hns)).trans hf.tail
  cases hst with
  | @swap ns hopen hfree =>
    refine h.same hf rfl (fun n v tail hn => ?_) fun n hn => .inl ⟨rfl, hn⟩
    by_cases heq : n = ns
    · subst heq
      simp at hn
    · simp only [Sys.sealing_setSealing, update_of_ne heq] at hn
      exact h.tailRead n v tail hn
  | @sealReadTail ns v hns =>
    refine h.same hf rfl (fun n u tail hn => ?_) fun n hn => .inl ⟨rfl, hn⟩
    by_cases heq : n = ns
    · subst heq
      simp only [Sys.sealing_setSealing, update_self] at hn
      split_ifs at hn
      obtain ⟨-, rfl⟩ := Sealing.tailRead.inj (Option.some.inj hn)
      exact le_rfl
    · simp only [Sys.sealing_setSealing, update_of_ne heq] at hn
      exact h.tailRead n u tail hn
  | @sealRecord ns v tail hns =>
    have htail := h.tailRead ns v tail hns
    have hlookup : ∀ n u p, (if (s.seals.lookup (ns, v)).isSome then s.seals
        else s.seals.insert (ns, v) ⟨walCutCeiling tail (s.inFlight (some ns)), false⟩).lookup
          (n, u) = some p → s.seals.lookup (n, u) = some p ∨
        (n = ns ∧ u = v ∧ p = ⟨walCutCeiling tail (s.inFlight (some ns)), false⟩) := by
      intro n u p hp
      split_ifs at hp
      · exact .inl hp
      · by_cases heq : (n, u) = (ns, v)
        · obtain ⟨rfl, rfl⟩ := Prod.mk.inj heq
          rw [AList.lookup_insert] at hp
          exact .inr ⟨rfl, rfl, (Option.some.inj hp).symm⟩
        · rw [AList.lookup_insert_ne heq] at hp
          exact .inl hp
    refine ⟨fun n u tl hn => ?_, fun n u p hp hlive => ?_, fun n u p hp hfl => ?_⟩
    · by_cases heq : n = ns
      · subst heq
        simp at hn
      · simp only [Sys.sealing_setSealing, update_of_ne heq] at hn
        exact h.tailRead n u tl hn
    · obtain hp | ⟨rfl, rfl, rfl⟩ := hlookup n u p hp
      · exact (h.below n u p hp hlive).follows hf fun _ _ _ _ hmoves => hmoves.placed hf
      · exact ⟨(walCutCeiling_le _ _).trans htail, fun r hr hrns hlt =>
          hw.placed hreplayed hns htail hr hrns (hrns ▸ hlive) hlt⟩
    · obtain hp | ⟨rfl, rfl, rfl⟩ := hlookup n u p hp
      · exact h.flushed n u p hp hfl
      · cases hfl
  | @mark ns hns hfree =>
    have hold : ∀ n v p, s.seals.lookup (n, v) = some p → p.flushed = true →
        v < s.flushed n := by
      intro n v p hp hfl
      obtain hlt | ⟨-, hflush⟩ := h.flushed n v p hp hfl
      · exact hlt
      · obtain ⟨_, _, _, _, _, he⟩ := hflushes.reporting n hflush
        rw [hfree] at he
        cases he
    refine ⟨htailRead rfl, fun n v p hp hlive => ?_, fun n v p hp hfl => ?_⟩
    · have hceiling : ∃ q, (s.seals.lookup (n, v) = some q ∨ q.ceiling = 0) ∧
          q.ceiling = p.ceiling := by
        obtain ⟨-, hp⟩ | ⟨-, hp⟩ := lookup_markFlushed hp
        · exact ⟨p, .inl hp, rfl⟩
        · cases hseal : s.seals.lookup (n, v) with
          | none => exact ⟨⟨0, false⟩, .inr rfl, by rw [hp, hseal]; rfl⟩
          | some q => exact ⟨q, .inl rfl, by rw [hp, hseal]; rfl⟩
      obtain ⟨q, hq | hq, heq⟩ := hceiling
      · rw [← heq]
        exact (h.below n v q hq hlive).follows hf fun _ _ _ _ hmoves => hmoves.placed hf
      · rw [← heq, hq]
        exact .zero _ _ _
    · obtain ⟨-, hp⟩ | ⟨hkey, -⟩ := lookup_markFlushed hp
      · exact .inl (hold n v p hp hfl)
      · obtain ⟨rfl, rfl⟩ := Prod.mk.inj hkey
        exact .inr ⟨rfl, update_self ..⟩
  | @markUntracked ns hns hfree hnone =>
    refine h.follows hf (htailRead rfl) fun n v p hp => ?_
    have hne : (n, v) ≠ (ns, s.flushed ns) := by
      intro heq
      rw [heq] at hp
      simp at hp
    simp only [AList.lookup_erase_ne hne] at hp
    refine ⟨p, hp, rfl, fun hfl => ?_⟩
    obtain hlt | ⟨rfl, hflush⟩ := h.flushed n v p hp hfl
    · exact .inl (hlt.trans_le (hf.flushed n))
    · obtain ⟨_, _, _, _, _, he⟩ := hflushes.reporting n hflush
      rw [hfree] at he
      cases he
  | @finish e he hdone =>
    obtain ⟨job, phase⟩ := e
    cases job with
    | written ns u recorded folded before =>
      refine h.follows hf (htailRead rfl) fun n v p hp => ?_
      obtain ⟨hp, -⟩ := lookup_eraseAll hp
      refine ⟨p, hp, rfl, fun hfl => ?_⟩
      obtain hlt | ⟨rfl, hflush⟩ := h.flushed n v p hp hfl
      · exact .inl (hlt.trans_le (hf.flushed n))
      · obtain ⟨hsame, hon⟩ | hlt := hreporting n hflush fun _ _ _ _ he' => by
          rw [he] at he'
          cases he'
          cases hdone
        · exact .inr ⟨hsame.symm, hon⟩
        · exact .inl hlt
    | forget =>
      exact h.same hf rfl (htailRead rfl) fun n hn => .inl ⟨rfl, hn⟩
  | @undo e keep he hfailed =>
    obtain ⟨job, phase⟩ := e
    cases job with
    | written ns u recorded folded before =>
      obtain ⟨rfl, hns⟩ := hflushes.event _ _ _ _ _ _ he
      refine h.follows hf (htailRead rfl) fun n v p hp => ?_
      obtain ⟨q, hq, hceiling, hfl⟩ := lookup_unmark hp
      refine ⟨q, hq, hceiling, fun hp => ?_⟩
      obtain ⟨hne, hqfl⟩ := hfl hp
      obtain hlt | ⟨rfl, hflush⟩ := h.flushed n v q hq hqfl
      · exact .inl hlt
      · obtain ⟨_, _, _, _, _, he'⟩ := hflushes.reporting n hflush
        rw [he] at he'
        cases he'
        exact absurd rfl hne
    | forget => exact h.same hf rfl (htailRead rfl) fun n hn => .inl ⟨rfl, hn⟩
  | @forget ns hns hfree =>
    refine h.follows hf (htailRead rfl) fun n v p hp => ?_
    exact ⟨p, (lookup_eraseAll hp).1, rfl, h.flushed n v p (lookup_eraseAll hp).1⟩
  | crash => cases ha
  | retireFails => cases ha
  | readTail he | readInFlight he | compute he | skip he | saveOk he | saveFailed he
    | saveHalfway he =>
    exact h.same hf rfl (htailRead rfl) fun ns hns => hreporting ns hns (by simp)
  | _ =>
    refine h.same hf rfl (htailRead rfl) fun ns hns => hreporting ns hns fun v r f b he => ?_
    exact fun hnone => some_ne_none _ (he.symm.trans hnone)

/-! ### Markers -/

/-- A marker as it is written: every listed safe offset is above the cut, one for a namespace. -/
structure WellFormed (p : Progress) : Prop where
  above : ∀ e ∈ p.safe, p.cut < e.2
  nodup : (p.safe.map Prod.fst).Nodup

theorem cut_le_replayFrom (p : Progress) (ns : ℕ) : p.cut ≤ p.replayFrom ns := by
  unfold Progress.replayFrom
  split
  · exact le_max_right _ _
  · exact le_rfl

theorem replayFrom_le_furthest (p : Progress) (ns : ℕ) : p.replayFrom ns ≤ p.furthest := by
  have hcut := p.le_furthest p.cut List.mem_cons_self
  unfold Progress.replayFrom
  split
  · rename_i e he
    refine max_le (p.le_furthest e.2 (mem_cons_of_mem _ ?_)) hcut
    exact mem_map.mpr ⟨e, List.mem_of_find?_eq_some he, rfl⟩
  · exact hcut

variable {x : ℕ}

theorem WellFormed.replayFrom_of_mem {p : Progress} (h : WellFormed p) (hmem : (ns, x) ∈ p.safe) :
    p.replayFrom ns = x := by
  unfold Progress.replayFrom
  split
  · rename_i e he
    have hkey := find?_some he
    obtain rfl := of_decide_eq_true hkey
    have heq := List.inj_on_of_nodup_map h.nodup (List.mem_of_find?_eq_some he) hmem rfl
    rw [heq]
    exact max_eq_left (h.above _ hmem).le
  · rename_i hnone
    have hkey := List.find?_eq_none.mp hnone _ hmem
    exact absurd (decide_eq_true rfl) hkey

/-- Replay starts at the listed safe offset, or at the cut. -/
theorem WellFormed.replayFrom_cases {p : Progress} (h : WellFormed p) (ns : ℕ) :
    (ns, p.replayFrom ns) ∈ p.safe ∨ p.replayFrom ns = p.cut := by
  cases hfind : p.safe.find? fun e => decide (e.1 = ns) with
  | none =>
    right
    unfold Progress.replayFrom
    rw [hfind]
  | some e =>
    have hkey := find?_some hfind
    obtain rfl := of_decide_eq_true hkey
    have hmem : (e.1, e.2) ∈ p.safe := List.mem_of_find?_eq_some hfind
    exact .inl ((h.replayFrom_of_mem hmem).symm ▸ hmem)

section Progress

variable {s : Sys} {c : ℕ}

theorem mem_progress {e : ℕ × ℕ} :
    e ∈ (s.progress c).safe ↔ s.safe.lookup e.1 = some e.2 ∧ (s.progress c).cut < e.2 := by
  have hsafe : (s.progress c).safe = ((s.safe.entries.filter fun e =>
      decide ((s.progress c).cut < e.2)).map fun e => (e.1, e.2)).insertionSort
        fun a b => a.1 < b.1 ∨ (a.1 = b.1 ∧ a.2 ≤ b.2) := rfl
  rw [hsafe, List.mem_insertionSort, mem_map, ← mem_def, AList.mem_lookup_iff]
  constructor
  · rintro ⟨x, hx, rfl⟩
    obtain ⟨hmem, hlt⟩ := mem_filter.mp hx
    exact ⟨hmem, of_decide_eq_true hlt⟩
  · rintro ⟨hmem, hlt⟩
    exact ⟨_, mem_filter.mpr ⟨hmem, decide_eq_true hlt⟩, rfl⟩

theorem wellFormed_progress : WellFormed (s.progress c) := by
  refine ⟨fun e he => (mem_progress.mp he).2, ?_⟩
  have hperm := (List.perm_insertionSort (fun a b : ℕ × ℕ => a.1 < b.1 ∨ (a.1 = b.1 ∧ a.2 ≤ b.2))
    ((s.safe.entries.filter fun e => decide ((s.progress c).cut < e.2)).map fun e => (e.1, e.2))).map
      Prod.fst
  refine hperm.nodup_iff.mpr ?_
  rw [List.map_map]
  exact s.safe.nodupKeys.sublist List.filter_sublist

theorem retiredCut_le_progress : s.retiredCut ≤ (s.progress c).cut := le_max_right _ _

theorem progress_cut_le (hc : c ≤ s.tail) (hcut : s.retiredCut ≤ s.tail) :
    (s.progress c).cut ≤ s.tail := by
  unfold Sys.progress
  refine max_le ?_ hcut
  split
  · exact (min_le_right _ _).trans hc
  · exact hc

theorem mem_holders {last : ℕ} (hlast : s.lastWrite.lookup ns = some last)
    (hlt : (s.safe.lookup ns).getD 0 < last) : (ns, (s.safe.lookup ns).getD 0) ∈ s.holders := by
  refine List.mem_filterMap.mpr ⟨⟨ns, last⟩, AList.mem_lookup_iff.mp hlast, ?_⟩
  exact if_pos hlt

/-- What is below the cut is below the ceiling and below every holder's safe offset, or was
below the cut before. -/
theorem lt_progress_cut (hx : x < (s.progress c).cut) :
    x < s.retiredCut ∨ (x < c ∧ ∀ e ∈ s.holders, x < e.2) := by
  unfold Sys.progress at hx
  dsimp only at hx
  obtain hx | hx := lt_max_iff.mp hx
  · right
    split at hx
    · rename_i safe hmin
      obtain ⟨hsafe, hceiling⟩ := lt_min_iff.mp hx
      refine ⟨hceiling, fun e he => hsafe.trans_le ?_⟩
      exact (List.min?_eq_some_iff.mp hmin).2 e.2 (mem_map.mpr ⟨e, he, rfl⟩)
    · rename_i hnone
      rw [List.min?_eq_none_iff, List.map_eq_nil_iff] at hnone
      exact ⟨hx, fun e he => by simp [hnone] at he⟩
  · exact .inl hx

end Progress

end VectorWal

end Minnal
