import Minnal.Db.VectorWalRecords

/-!
# Retirement of the vector index WAL is sound

A write of a live namespace that is not in level 0 lies at or above where the **marker** on disk
has its replay start, and its segment is not below the cut: in every state of every run, across
crashes and reopens, as long as no marker write fails after its rename took effect
(`retirement_sound`). The cut and the safe offsets only move forward, and a written event that
fails leaves everything as it was.

Where bounds come from: the safe offset of a written event from the ceilings of the versions it
completes; the cut from the ceiling of the event with the holders read after it, since a record no
longer in flight has been tracked; what an open tracks from the marker it reads.
-/

set_option linter.dupNamespace false

namespace Minnal

open StepRun AList
open List (mem_map mem_filter mem_cons map_map mem_cons_self)

variable {s t : Sys} {r : Logged} {job : Job} {ns tail : ℕ} {e : Event} {as : List Act}

namespace VectorWal

open SegmentedLog (Progress)
open WalProgress (walCutCeiling walCutCeiling_le notMem_of_lt_walCutCeiling foldl_max_induction)

/-! ### Progress -/

/-- A marker that may be saved next. -/
structure NextOk (s : Sys) (next : Progress) : Prop where
  below : ∀ ns ∉ s.dropped, Below Covered s ns (next.replayFrom ns)
  wf : WellFormed next
  cut : s.marker.cut ≤ next.cut
  onward : ∀ ns ∉ s.dropped, s.marker.replayFrom ns ≤ next.replayFrom ns
  listed : ∀ e ∈ next.safe, s.safe.lookup e.1 = some e.2

/-- What is known of the safe offsets and the marker. -/
structure Saves (s : Sys) : Prop where
  safe : ∀ ns l, s.safe.lookup ns = some l → ns ∉ s.dropped → Below Covered s ns l
  marker : ∀ ns ∉ s.dropped, Below Retired s ns (s.marker.replayFrom ns)
  wf : WellFormed s.marker
  written : s.written = s.marker
  cut : s.retiredCut = s.marker.cut
  listed : ∀ e ∈ s.marker.safe, e.1 ∉ s.dropped → ∃ l, s.safe.lookup e.1 = some l ∧ e.2 ≤ l
  /-- What an event that fails goes back to. -/
  before : ∀ ns v recorded folded before phase,
    s.event = some ⟨.written ns v recorded folded before, phase⟩ → ns ∉ s.dropped →
      (∀ l, before = some l → Below Settled s ns l) ∧ (phase ≠ .done →
        ∀ x, (ns, x) ∈ s.marker.safe → ∃ l, before = some l ∧ x ≤ l)
  tailRead : ∀ job tail, s.event = some ⟨job, .tailRead tail⟩ → tail ≤ s.tail
  ceiling : ∀ job c, s.event = some ⟨job, .ceiling c⟩ →
    c ≤ s.tail ∧ ∀ r ∈ s.log, r.start < c → r.registered = false
  computed : ∀ job next, s.event = some ⟨job, .computed next⟩ → NextOk s next
  lost : ∀ r ∈ s.log, r.ns ∉ s.dropped → r.inLog = false → Retired s r
  replayed : s.recovering = false → ∀ r ∈ s.log, r.ns ∉ s.dropped → r.stage = .found →
    r.stored = true
  opened : s.recovering = true → ∀ ns ∉ s.dropped,
    Below Settled s ns (s.openedProgress.replayFrom ns)

/-- A record that is not in flight, and that no safe offset covers, holds the cut back. -/
theorem exists_holder (hw : Writers s) (hr : r ∈ s.log) (hlive : r.ns ∉ s.dropped)
    (hreg : r.registered = false) (hset : ¬ (r.stage = .found ∧ r.stored = true))
    (hsafe : (s.safe.lookup r.ns).getD 0 ≤ r.start) :
    (r.ns, (s.safe.lookup r.ns).getD 0) ∈ s.holders := by
  have hstage : r.stage = .tracked ∨ r.stage.isApplied = true ∨
      (r.stage = .found ∧ r.stored = false) := by
    cases hstage : r.stage with
    | appended => exact absurd (hreg.symm.trans (hw.appended r hr hstage).2) Bool.noConfusion
    | published => exact absurd (hreg.symm.trans (hw.published r hr hstage)) Bool.noConfusion
    | tracked => exact .inl rfl
    | applied v => exact .inr (.inl rfl)
    | found =>
      refine .inr (.inr ⟨rfl, ?_⟩)
      exact Bool.eq_false_iff.mpr fun hstored => hset ⟨hstage, hstored⟩
  obtain ⟨last, hlast, hstop⟩ := hw.last r hr hlive hstage
  exact mem_holders hlast (hsafe.trans_lt ((hw.lt r hr).trans_le hstop))

/-- **The next marker.** The ceiling is one that no record in flight is below; the holders are
read after it. -/
theorem nextOk_progress (hw : Writers s) (hflushes : Flushes s)
    (hsafe : ∀ ns l, s.safe.lookup ns = some l → ns ∉ s.dropped → Below Covered s ns l)
    (hmarker : ∀ ns ∉ s.dropped, Below Retired s ns (s.marker.replayFrom ns))
    (hwf : WellFormed s.marker) (hcut : s.retiredCut = s.marker.cut)
    (hlisted : ∀ e ∈ s.marker.safe, e.1 ∉ s.dropped →
      ∃ l, s.safe.lookup e.1 = some l ∧ e.2 ≤ l) {c : ℕ} (hc : c ≤ s.tail)
    (hreg : ∀ r ∈ s.log, r.start < c → r.registered = false) : NextOk s (s.progress c) := by
  have hwf' : WellFormed (s.progress c) := wellFormed_progress
  have honward : s.marker.cut ≤ (s.progress c).cut := hcut ▸ retiredCut_le_progress
  refine ⟨fun ns hlive => ?_, hwf', honward, fun ns hlive => ?_, fun e he => (mem_progress.mp he).1⟩
  · obtain hmem | heq := hwf'.replayFrom_cases ns
    · exact hsafe ns _ (mem_progress.mp hmem).1 hlive
    · rw [heq]
      have hold := hmarker ns hlive
      have htail : s.retiredCut ≤ s.tail :=
        hcut ▸ (cut_le_replayFrom s.marker ns).trans hold.1
      refine ⟨progress_cut_le hc htail, fun r hr hns hlt => ?_⟩
      subst hns
      obtain hlt | ⟨hceiling, hholders⟩ := lt_progress_cut hlt
      · rw [hcut] at hlt
        exact (hold.2 r hr rfl (hlt.trans_le (cut_le_replayFrom _ _))).covered hflushes
      · by_cases hset : r.stage = .found ∧ r.stored = true
        · exact .inl ⟨hset.2, .inl hset.1⟩
        · cases hlookup : s.safe.lookup r.ns with
          | none =>
            have hholder := exists_holder hw hr hlive (hreg r hr hceiling) hset
              (by rw [hlookup]; exact Nat.zero_le _)
            rw [hlookup] at hholder
            exact absurd (hholders _ hholder) (Nat.not_lt_zero _)
          | some l =>
            by_cases hle : l ≤ r.start
            · have hholder := exists_holder hw hr hlive (hreg r hr hceiling) hset
                (by rw [hlookup]; exact hle)
              rw [hlookup] at hholder
              exact absurd (hholders _ hholder) (not_lt.mpr hle)
            · exact (hsafe r.ns l hlookup hlive).2 r hr rfl (not_le.mp hle)
  · obtain hmem | heq := hwf.replayFrom_cases ns
    · obtain ⟨l, hl, hle⟩ := hlisted _ hmem hlive
      refine hle.trans ?_
      by_cases hlt : (s.progress c).cut < l
      · exact (hwf'.replayFrom_of_mem (mem_progress.mpr ⟨hl, hlt⟩)).ge
      · exact (not_lt.mp hlt).trans (cut_le_replayFrom _ _)
    · rw [heq]
      exact honward.trans (cut_le_replayFrom _ _)

section SavesStep

variable {s t : Sys} {a : Act}

/-- A step that saves no marker. -/
theorem Saves.unsaved (h : Saves s) (hw : Writers s) (hflushes : Flushes s) (hf : Follows s t)
    (hst : Step s a t) (ha : a.reopens = false) (hmarker : t.marker = s.marker) (hwritten : t.written = s.written)
    (hcut : t.retiredCut = s.retiredCut) (hopened : t.openedProgress = s.openedProgress)
    (hrecovering : t.recovering = s.recovering)
    (hsafe : ∀ ns l, t.safe.lookup ns = some l → ns ∉ t.dropped → Below Covered t ns l)
    (hlisted : ∀ e ∈ s.marker.safe, e.1 ∉ t.dropped →
      ∃ l, t.safe.lookup e.1 = some l ∧ e.2 ≤ l)
    (hbefore : ∀ ns v recorded folded before phase,
      t.event = some ⟨.written ns v recorded folded before, phase⟩ → ns ∉ t.dropped →
        (∀ l, before = some l → Below Settled t ns l) ∧ (phase ≠ .done →
          ∀ x, (ns, x) ∈ s.marker.safe → ∃ l, before = some l ∧ x ≤ l))
    (htailRead : ∀ job tail, t.event = some ⟨job, .tailRead tail⟩ → tail ≤ t.tail)
    (hceiling : ∀ job c, t.event = some ⟨job, .ceiling c⟩ →
      c ≤ t.tail ∧ ∀ r ∈ t.log, r.start < c → r.registered = false)
    (hcomputed : ∀ job next, t.event = some ⟨job, .computed next⟩ → NextOk t next) : Saves t := by
  have hlive : ∀ ns, ns ∉ t.dropped → ns ∉ s.dropped := fun ns hns hmem => hns (hf.dropped _ hmem)
  refine ⟨hsafe, ?_, ?_, ?_, ?_, ?_, ?_, htailRead, hceiling, hcomputed, ?_, ?_, ?_⟩
  · intro ns hns
    rw [hmarker]
    exact (h.marker ns (hlive ns hns)).retired hflushes hf hst ha
  · rw [hmarker]
    exact h.wf
  · rw [hwritten, hmarker]
    exact h.written
  · rw [hcut, hmarker]
    exact h.cut
  · rw [hmarker]
    exact hlisted
  · rw [hmarker]
    exact hbefore
  · intro r' hr' hns hlog
    obtain ⟨-, -, hin⟩ | ⟨r, hr, hmoves⟩ := hf.log r' hr'
    · exact absurd (hlog.symm.trans hin) Bool.noConfusion
    · rw [hmoves.ns] at hns
      refine hmoves.retired hflushes hf hst ha hr ?_
      obtain hlog | hstop := hmoves.inLog hlog
      · exact h.lost r hr (hlive _ hns) hlog
      · rw [h.cut] at hstop
        exact (h.marker r.ns (hlive _ hns)).2 r hr rfl
          (((hw.lt r hr).trans_le hstop).trans_le (cut_le_replayFrom _ _))
  · intro hrec r' hr' hns hfound
    obtain ⟨-, hstage, -⟩ | ⟨r, hr, hmoves⟩ := hf.log r' hr'
    · rw [hfound] at hstage
      cases hstage
    · have hstage := hmoves.found.mp hfound
      have hstored := h.replayed (hrecovering ▸ hrec) r hr (hlive _ (hmoves.ns ▸ hns)) hstage
      obtain hst' | ⟨hplace, -⟩ := hmoves.stored hstored
      · exact hst'
      · rw [hstage] at hplace
        cases hplace
  · intro hrec ns hns
    rw [hopened]
    exact (h.opened (hrecovering ▸ hrec) ns (hlive ns hns)).settled hf

/-- A step of a writer, a seal or a flush before its event. -/
theorem Saves.aside (h : Saves s) (hw : Writers s) (hflushes : Flushes s) (hf : Follows s t)
    (hst : Step s a t) (ha : a.reopens = false) (hmarker : t.marker = s.marker) (hwritten : t.written = s.written)
    (hcut : t.retiredCut = s.retiredCut) (hopened : t.openedProgress = s.openedProgress)
    (hrecovering : t.recovering = s.recovering) (hsafe : t.safe = s.safe)
    (hevent : t.event = s.event) : Saves t := by
  have hlive : ∀ ns, ns ∉ t.dropped → ns ∉ s.dropped := fun ns hns hmem => hns (hf.dropped _ hmem)
  have hcovered : ∀ ns c, Below Covered s ns c → Below Covered t ns c := fun ns c hb =>
    hb.covered hflushes hf hst ha fun _ _ _ _ he => by
      rw [hevent, he]
      exact Option.some_ne_none _
  refine h.unsaved hw hflushes hf hst ha hmarker hwritten hcut hopened hrecovering ?_ ?_ ?_ ?_ ?_ ?_
  · intro ns l hl hns
    exact hcovered ns l (h.safe ns l (hsafe ▸ hl) (hlive ns hns))
  · intro e he hns
    rw [hsafe]
    exact h.listed e he (hlive _ hns)
  · intro ns v recorded folded before phase he hns
    obtain ⟨hbelow, hmem⟩ := h.before ns v recorded folded before phase (hevent ▸ he) (hlive ns hns)
    exact ⟨fun l hl => (hbelow l hl).settled hf, hmem⟩
  · intro job tail he
    exact (h.tailRead job tail (hevent ▸ he)).trans hf.tail
  · intro job c he
    obtain ⟨hle, hreg⟩ := h.ceiling job c (hevent ▸ he)
    refine ⟨hle.trans hf.tail, fun r' hr' hlt => ?_⟩
    obtain ⟨htail, -⟩ | ⟨r, hr, hmoves⟩ := hf.log r' hr'
    · exact absurd (hlt.trans_le hle) (not_lt.mpr htail)
    · rw [hmoves.start] at hlt
      exact hmoves.registered (hreg r hr hlt)
  · intro job next he
    have hnext := h.computed job next (hevent ▸ he)
    refine ⟨fun ns hns => hcovered ns _ (hnext.below ns (hlive ns hns)), hnext.wf, ?_, ?_, ?_⟩
    · rw [hmarker]
      exact hnext.cut
    · intro ns hns
      rw [hmarker]
      exact hnext.onward ns (hlive ns hns)
    · rw [hsafe]
      exact hnext.listed

/-- The event moves on, and saves no marker. -/
theorem Saves.setPhase (h : Saves s) (hw : Writers s) (hflushes : Flushes s) {phase phase' : Phase}
    (he : s.event = some ⟨job, phase⟩) (ht : t = { s with event := some ⟨job, phase'⟩ })
    (hst : Step s a t) (ha : a.reopens = false) (hf : Follows s t) (hdone : phase ≠ .done)
    (htailRead : ∀ tail, phase' = .tailRead tail → tail ≤ s.tail)
    (hceiling : ∀ c, phase' = .ceiling c →
      c ≤ s.tail ∧ ∀ r ∈ s.log, r.start < c → r.registered = false)
    (hcomputed : ∀ next, phase' = .computed next → NextOk s next) : Saves t := by
  subst ht
  refine h.unsaved hw hflushes hf hst ha rfl rfl rfl rfl rfl ?_ h.listed ?_ ?_ ?_ ?_
  · exact fun ns l hl hns => (h.safe ns l hl hns).mono fun _ _ _ => id
  · intro ns v recorded folded before ph he' hns
    obtain ⟨rfl, rfl⟩ := Event.mk.inj (Option.some.inj he')
    obtain ⟨hbelow, hmem⟩ := h.before ns v recorded folded before phase he hns
    exact ⟨fun l hl => (hbelow l hl).settled hf, fun _ => hmem hdone⟩
  · intro job' tail he'
    exact htailRead tail (Event.mk.inj (Option.some.inj he')).2
  · intro job' c he'
    exact hceiling c (Event.mk.inj (Option.some.inj he')).2
  · intro job' next he'
    have hnext := hcomputed next (Event.mk.inj (Option.some.inj he')).2
    exact ⟨fun ns hns => (hnext.below ns hns).mono fun _ _ _ => id, hnext.wf, hnext.cut,
      hnext.onward, hnext.listed⟩

/-- While no written event is under way, what is covered is settled. -/
theorem Below.settled_of_covered {c : ℕ} (h : Below Covered s ns c)
    (hns : s.flushing ns ≠ some .reporting) : Below Settled s ns c := by
  refine h.mono fun r _ hr hcov => ?_
  obtain hset | ⟨-, hflush⟩ := hcov
  · exact hset
  · rw [hr] at hflush
    exact absurd hflush hns

/-- A written event begins. -/
theorem Saves.mark (h : Saves s) (hw : Writers s) (hflushes : Flushes s) (hrecords : Records s)
    (hst : Step s (.mark ns) (s.mark ns)) (hns : s.flushing ns = some .written)
    (hfree : s.event = none) : Saves (s.mark ns) := by
  have hf := follows_step hw hst rfl
  have hself : (s.mark ns).flushing ns = some .reporting := Function.update_self ..
  have hnone := hflushes.not_reporting (by simp [hfree])
  have hcovered : ∀ n c, Below Covered s n c → Below Covered (s.mark ns) n c := fun n c hb =>
    hb.covered hflushes hf hst rfl fun _ _ _ _ he => by
      rw [hfree] at he
      cases he
  -- the versions that are completed are in level 0 or in the memtable that is reported
  have hfolded : ∀ e ∈ fold (markFlushed s.seals ns (s.flushed ns)) ns, ns ∉ s.dropped →
      Below Covered (s.mark ns) ns e.2.ceiling := by
    intro e he hlive
    obtain ⟨hlookup, hflushed⟩ := mem_fold he
    have hrec' := records_step hw hflushes hrecords h.replayed hst rfl
    obtain hlt := hrec'.flushed ns e.1 e.2 hlookup hflushed
    refine (hrec'.below ns e.1 e.2 hlookup hlive).mono fun r hr hrns hplaced => ?_
    obtain hset | ⟨u, hu, hstage⟩ := hplaced
    · exact .inl hset
    · have hle : e.1 ≤ s.flushed ns := hlt.elim le_of_lt fun heq => heq.1.le
      obtain hlt' | rfl := (hu.trans hle).lt_or_eq
      · refine .inl ⟨hflushes.stored r hr u hstage (hrns ▸ hlt'), .inr ⟨u, ?_, hstage⟩⟩
        exact hrns ▸ hlt'
      · exact .inr ⟨hrns ▸ hstage, hrns ▸ hself⟩
  have hhighest : ns ∉ s.dropped → Below Covered (s.mark ns) ns
      (highest (fold (markFlushed s.seals ns (s.flushed ns)) ns)) := by
    intro hlive
    refine foldl_max_induction (P := fun c => Below Covered (s.mark ns) ns c)
      (fun _ _ => Below.max) _ _ (.zero _ _ _) fun c hc => ?_
    obtain ⟨e, he, rfl⟩ := mem_map.mp hc
    exact hfolded e he hlive
  refine h.unsaved hw hflushes hf hst rfl rfl rfl rfl rfl rfl ?_ ?_ ?_ ?_ ?_ ?_
  · intro n l hl hlive
    by_cases heq : n = ns
    · subst heq
      simp only [Sys.mark, lookup_insert, Option.some.injEq] at hl
      subst hl
      refine .max ?_ (hhighest hlive)
      cases hbefore : s.safe.lookup n with
      | none => exact .zero _ _ _
      | some b => exact hcovered n b (h.safe n b hbefore hlive)
    · simp only [Sys.mark, lookup_insert_ne heq] at hl
      exact hcovered n l (h.safe n l hl hlive)
  · intro e he hlive
    obtain ⟨l, hl, hle⟩ := h.listed e he hlive
    by_cases heq : e.1 = ns
    · subst heq
      simp only [Sys.mark, lookup_insert, hl]
      exact ⟨_, rfl, hle.trans (le_max_left _ _)⟩
    · simp only [Sys.mark, lookup_insert_ne heq]
      exact ⟨l, hl, hle⟩
  · intro n v recorded folded before phase he hlive
    simp only [Sys.mark, Option.some.injEq, Event.mk.injEq, Job.written.injEq] at he
    obtain ⟨⟨rfl, -, -, -, rfl⟩, rfl⟩ := he
    refine ⟨fun l hl => ?_, fun _ x hx => h.listed _ hx hlive⟩
    exact ((h.safe _ l hl hlive).settled_of_covered (hnone _)).settled hf
  · intro job tail he
    simp [Sys.mark] at he
  · intro job c he
    simp [Sys.mark] at he
  · intro job next he
    simp [Sys.mark] at he

/-- The marker of an event is saved. -/
theorem Saves.saveOk (h : Saves s) (hflushes : Flushes s) {next : Progress}
    (he : s.event = some ⟨job, .computed next⟩) :
    Saves { s with marker := next, written := next, retiredCut := next.cut,
                   event := some ⟨job, .done⟩ } := by
  have hnext := h.computed job next he
  have hretired : ∀ r ∈ s.log, Covered s r → Retired { s with
      marker := next, written := next, retiredCut := next.cut, event := some ⟨job, .done⟩ } r := by
    intro r hr hcov
    obtain hset | ⟨hstage, hflush⟩ := hcov
    · exact .inl hset
    · obtain ⟨v, recorded, folded, before, phase, he'⟩ := hflushes.reporting _ hflush
      rw [he] at he'
      cases he'
      exact .inr ⟨hstage, by simp [Sys.retiring]⟩
  refine ⟨h.safe, ?_, hnext.wf, rfl, rfl, ?_, ?_, ?_, ?_, ?_, ?_, h.replayed, h.opened⟩
  · intro ns hlive
    obtain ⟨htail, hbelow⟩ := hnext.below ns hlive
    exact ⟨htail, fun r hr hns hlt => hretired r hr (hbelow r hr hns hlt)⟩
  · exact fun e hmem _ => ⟨e.2, hnext.listed e hmem, le_rfl⟩
  · intro ns v recorded folded before phase he' hlive
    obtain ⟨rfl, rfl⟩ := Event.mk.inj (Option.some.inj he')
    obtain ⟨hbelow, -⟩ := h.before ns v recorded folded before _ he hlive
    exact ⟨hbelow, fun hne => absurd rfl hne⟩
  · exact fun job' tail he' => by cases he'
  · exact fun job' c he' => by cases he'
  · exact fun job' next' he' => by cases he'
  · exact fun r hr hlive hlog => hretired r hr ((h.lost r hr hlive hlog).covered hflushes)

/-- An event whose marker is saved returns. -/
theorem Saves.finish (h : Saves s) (hw : Writers s) (hflushes : Flushes s)
    (hst : Step s .finish (s.finish e)) (he : s.event = some e) (hdone : e.phase = .done) :
    Saves (s.finish e) := by
  have hf := follows_step hw hst rfl
  obtain ⟨job, phase⟩ := e
  dsimp only at hdone
  subst hdone
  have hcovered : ∀ n c, Below Covered s n c → Below Covered (s.finish ⟨job, .done⟩) n c :=
    fun n c hb => hb.covered hflushes hf hst rfl fun _ _ _ _ he' => by
      rw [he] at he'
      cases he'
  cases job with
  | written ns v recorded folded before | forget =>
    exact h.unsaved hw hflushes hf hst rfl rfl rfl rfl rfl rfl
      (fun n l hl hlive => hcovered n l (h.safe n l hl hlive)) h.listed
      (fun _ _ _ _ _ _ he' => by cases he') (fun _ _ he' => by cases he')
      (fun _ _ he' => by cases he') fun _ _ he' => by cases he'

/-- An event that has failed goes back to the safe offset before. -/
theorem Saves.undo (h : Saves s) (hw : Writers s) (hflushes : Flushes s) {keep : List ℕ}
    (hst : Step s (.undo keep) (s.undo e keep)) (he : s.event = some e)
    (hfailed : e.phase = .failed) : Saves (s.undo e keep) := by
  have hf := follows_step hw hst rfl
  obtain ⟨job, phase⟩ := e
  dsimp only at hfailed
  subst hfailed
  cases job with
  | written ns v recorded folded before =>
    have hother : ∀ n, n ≠ ns → (s.undo ⟨.written ns v recorded folded before, .failed⟩
        keep).safe.lookup n = s.safe.lookup n := by
      intro n hn
      simp only [Sys.undo]
      cases before with
      | none => exact lookup_erase_ne hn
      | some l => exact lookup_insert_ne hn
    have hself : (s.undo ⟨.written ns v recorded folded before, .failed⟩
        keep).safe.lookup ns = before := by
      simp only [Sys.undo]
      cases before with
      | none => exact lookup_erase ..
      | some l => exact lookup_insert ..
    refine h.unsaved hw hflushes hf hst rfl rfl rfl rfl rfl rfl ?_ ?_
      (fun _ _ _ _ _ _ he' => by cases he') (fun _ _ he' => by cases he')
      (fun _ _ he' => by cases he') fun _ _ he' => by cases he'
    · intro n l hl hlive
      by_cases heq : n = ns
      · subst heq
        rw [hself] at hl
        obtain ⟨hbelow, -⟩ := h.before n v recorded folded before _ he hlive
        exact ((hbelow l hl).settled hf).mono fun _ _ _ => .inl
      · rw [hother n heq] at hl
        refine (h.safe n l hl hlive).covered hflushes hf hst rfl fun _ _ _ _ he' => ?_
        rw [he] at he'
        cases he'
        exact absurd rfl heq
    · intro e' hmem hlive
      by_cases heq : e'.1 = ns
      · obtain ⟨-, hlisted⟩ := h.before ns v recorded folded before _ he (heq ▸ hlive)
        obtain ⟨l, hl, hle⟩ := hlisted Phase.noConfusion e'.2 (heq ▸ hmem)
        exact ⟨l, by rw [heq, hself, hl], hle⟩
      · rw [hother _ heq]
        exact h.listed e' hmem hlive
  | forget =>
    refine h.unsaved hw hflushes hf hst rfl rfl rfl rfl rfl rfl ?_ h.listed
      (fun _ _ _ _ _ _ he' => by cases he') (fun _ _ he' => by cases he')
      (fun _ _ he' => by cases he') fun _ _ he' => by cases he'
    intro n l hl hlive
    refine (h.safe n l hl hlive).covered hflushes hf hst rfl fun _ _ _ _ he' => ?_
    rw [he] at he'
    cases he'

/-- A dropped namespace is forgotten. -/
theorem Saves.forget (h : Saves s) (hw : Writers s) (hflushes : Flushes s)
    (hst : Step s (.forget ns) (s.forget ns)) (hns : ns ∈ s.dropped) (hfree : s.event = none) :
    Saves (s.forget ns) := by
  have hf := follows_step hw hst rfl
  have hother : ∀ n, n ∉ s.dropped → (s.forget ns).safe.lookup n = s.safe.lookup n := by
    intro n hlive
    have hne : n ≠ ns := fun heq => hlive (heq ▸ hns)
    exact lookup_erase_ne hne
  refine h.unsaved hw hflushes hf hst rfl rfl rfl rfl rfl rfl ?_ ?_
    (fun _ _ _ _ _ _ he' => by cases he') (fun _ _ he' => by cases he')
    (fun _ _ he' => by cases he') fun _ _ he' => by cases he'
  · intro n l hl hlive
    rw [hother n hlive] at hl
    refine (h.safe n l hl hlive).covered hflushes hf hst rfl fun _ _ _ _ he' => ?_
    rw [hfree] at he'
    cases he'
  · intro e he hlive
    rw [hother _ hlive]
    exact h.listed e he hlive

/-! ### The end of recovery -/

theorem mem_holding : ns ∈ s.holding ↔ (∃ l, (ns, l) ∈ s.holders) ∧ ns ∉ s.dropped := by
  simp [Sys.holding]

/-- **Recovery flushes everything it has replayed**: all of it is in namespaces that hold the
cut. -/
theorem Saves.all_stored (h : Saves s) (hw : Writers s) (hflushes : Flushes s)
    (hopen : s.recovering = true) (hflushed : s.replayFlushed = true) :
    ∀ r ∈ s.log, r.ns ∉ s.dropped → r.stored = true := by
  intro r hr hlive
  by_contra hstored
  have hnone := hflushes.not_reporting fun _ _ _ _ _ => by
    obtain hnone | ⟨_, hforget⟩ := hflushes.closed hopen <;> simp [*]
  have hfound := hw.replaying hopen r hr
  have hlog : r.inLog = true := by
    by_contra hlog
    obtain hret | ⟨hstage, -⟩ := h.lost r hr hlive (Bool.eq_false_iff.mpr hlog)
    · exact hstored hret.1
    · rw [hfound] at hstage
      cases hstage
  have hfrom : s.openedProgress.replayFrom r.ns ≤ r.start := by
    by_contra hlt
    exact hstored ((h.opened hopen r.ns hlive).2 r hr rfl (not_le.mp hlt)).1
  have hsafe : (s.safe.lookup r.ns).getD 0 ≤ r.start := by
    cases hlookup : s.safe.lookup r.ns with
    | none => exact Nat.zero_le _
    | some l =>
      by_contra hlt
      have hbelow := (h.safe r.ns l hlookup hlive).settled_of_covered (hnone _)
      exact hstored (hbelow.2 r hr rfl (not_le.mp hlt)).1
  have hholder := exists_holder hw hr hlive (hw.found r hr hfound) (fun hset => hstored hset.2) hsafe
  have hmem : r.ns ∈ s.holding := mem_holding.mpr ⟨⟨_, hholder⟩, hlive⟩
  have hall := List.all_eq_true.mp hflushed r hr
  simp [Sys.replays, hlog, hlive, hfrom, hmem, hstored] at hall

theorem lookup_raise {l : ℕ} : ∀ {nss : List ℕ} {m : AList fun _ : ℕ => ℕ},
    (nss.foldl (fun m n => m.insert n (max ((m.lookup n).getD 0) tail)) m).lookup ns = some l →
      (m.lookup ns = some l) ∨ (ns ∈ nss ∧ l = max ((m.lookup ns).getD 0) tail)
  | [], _, h => .inl h
  | n :: nss, m, h => by
    obtain hl | ⟨hmem, hl⟩ := lookup_raise (List.foldl_cons .. ▸ h)
    · by_cases heq : ns = n
      · subst heq
        rw [lookup_insert] at hl
        exact .inr ⟨mem_cons_self, (Option.some.inj hl).symm⟩
      · rw [lookup_insert_ne heq] at hl
        exact .inl hl
    · refine .inr ⟨List.mem_cons_of_mem _ hmem, ?_⟩
      by_cases heq : ns = n
      · subst heq
        rw [lookup_insert, Option.getD_some] at hl
        omega
      · rwa [lookup_insert_ne heq] at hl

theorem le_lookup_raise {l : ℕ} : ∀ {nss : List ℕ} {m : AList fun _ : ℕ => ℕ},
    m.lookup ns = some l → ∃ l', (nss.foldl (fun m n =>
      m.insert n (max ((m.lookup n).getD 0) tail)) m).lookup ns = some l' ∧ l ≤ l'
  | [], _, h => ⟨l, h, le_rfl⟩
  | n :: nss, m, h => by
    by_cases heq : ns = n
    · subst heq
      have hself : (m.insert ns (max ((m.lookup ns).getD 0) tail)).lookup ns =
          some (max l tail) := by
        rw [lookup_insert, h, Option.getD_some]
      obtain ⟨l', hl', hle⟩ := le_lookup_raise hself
      exact ⟨l', hl', (le_max_left _ _).trans hle⟩
    · have hother : (m.insert n (max ((m.lookup n).getD 0) tail)).lookup ns = some l :=
        (lookup_insert_ne heq).trans h
      rw [List.foldl_cons]
      exact le_lookup_raise hother

/-- What recovery has flushed is safe up to the tail. -/
theorem Saves.raised (h : Saves s) (hw : Writers s) (hflushes : Flushes s)
    (hopen : s.recovering = true) (hflushed : s.replayFlushed = true) :
    (∀ ns l, s.raised.safe.lookup ns = some l → ns ∉ s.dropped → Below Covered s.raised ns l) ∧
      ∀ e ∈ s.marker.safe, e.1 ∉ s.dropped → ∃ l, s.raised.safe.lookup e.1 = some l ∧ e.2 ≤ l := by
  refine ⟨fun ns l hl hlive => ?_, fun e he hlive => ?_⟩
  · have hold : ∀ l, s.safe.lookup ns = some l → Below Covered s.raised ns l := by
      intro l hl
      exact (h.safe ns l hl hlive).mono fun _ _ _ => id
    obtain hl | ⟨-, rfl⟩ := lookup_raise hl
    · exact hold l hl
    · refine .max ?_ ⟨le_rfl, fun r hr hns _ => ?_⟩
      · cases hlookup : s.safe.lookup ns with
        | none => exact .zero _ _ _
        | some l => exact hold l hlookup
      · have hstored := h.all_stored hw hflushes hopen hflushed r hr (hns ▸ hlive)
        exact .inl ⟨hstored, .inl (hw.replaying hopen r hr)⟩
  · obtain ⟨l, hl, hle⟩ := h.listed e he hlive
    have hraised : ∃ l', s.raised.safe.lookup e.1 = some l' ∧ l ≤ l' := le_lookup_raise hl
    obtain ⟨l', hl', hle'⟩ := hraised
    exact ⟨l', hl', hle.trans hle'⟩

/-- The marker at the end of recovery. -/
theorem Saves.nextOk_raised (h : Saves s) (hw : Writers s) (hflushes : Flushes s)
    (hopen : s.recovering = true) (hflushed : s.replayFlushed = true) :
    NextOk s.raised (s.raised.progress s.tail) := by
  obtain ⟨hsafe, hlisted⟩ := h.raised hw hflushes hopen hflushed
  refine nextOk_progress (s := s.raised) { hw with } { hflushes with } hsafe
    (fun ns hlive => (h.marker ns hlive).mono fun _ _ _ => id) h.wf h.cut hlisted le_rfl
    fun r hr _ => hw.found r hr (hw.replaying hopen r hr)

/-- Recovery ends without a new marker. -/
theorem Saves.retireSame (h : Saves s) (hw : Writers s) (hflushes : Flushes s)
    (hopen : s.recovering = true) (hfree : s.event = none) (hflushed : s.replayFlushed = true) :
    Saves { s.raised with recovering := false } := by
  obtain ⟨hsafe, hlisted⟩ := h.raised hw hflushes hopen hflushed
  refine ⟨?_, ?_, h.wf, h.written, h.cut, hlisted, ?_, ?_, ?_, ?_, ?_, ?_, ?_⟩
  · exact fun ns l hl hlive => (hsafe ns l hl hlive).mono fun _ _ _ => id
  · exact fun ns hlive => (h.marker ns hlive).mono fun _ _ _ => id
  · exact fun _ _ _ _ _ _ he => nomatch hfree.symm.trans he
  · exact fun _ _ he => nomatch hfree.symm.trans he
  · exact fun _ _ he => nomatch hfree.symm.trans he
  · exact fun _ _ he => nomatch hfree.symm.trans he
  · exact h.lost
  · exact fun _ r hr hlive _ => h.all_stored hw hflushes hopen hflushed r hr hlive
  · exact fun hrec => Bool.noConfusion hrec

/-- Recovery ends. -/
theorem Saves.retire (h : Saves s) (hw : Writers s) (hflushes : Flushes s)
    (hopen : s.recovering = true) (hfree : s.event = none) (hflushed : s.replayFlushed = true) :
    Saves { s.raised with
      recovering := false
      marker := s.raised.progress s.tail
      written := s.raised.progress s.tail
      retiredCut := (s.raised.progress s.tail).cut } := by
  obtain ⟨hsafe, -⟩ := h.raised hw hflushes hopen hflushed
  have hnext := h.nextOk_raised hw hflushes hopen hflushed
  have hstored := h.all_stored hw hflushes hopen hflushed
  refine ⟨?_, ?_, hnext.wf, rfl, rfl, ?_, ?_, ?_, ?_, ?_, ?_, ?_, ?_⟩
  · exact fun ns l hl hlive => (hsafe ns l hl hlive).mono fun _ _ _ => id
  · intro ns hlive
    refine ⟨(hnext.below ns hlive).1, fun r hr hns _ => ?_⟩
    exact .inl ⟨hstored r hr (hns ▸ hlive), .inl (hw.replaying hopen r hr)⟩
  · exact fun e he _ => ⟨e.2, hnext.listed e he, le_rfl⟩
  · exact fun _ _ _ _ _ _ he => nomatch hfree.symm.trans he
  · exact fun _ _ he => nomatch hfree.symm.trans he
  · exact fun _ _ he => nomatch hfree.symm.trans he
  · exact fun _ _ he => nomatch hfree.symm.trans he
  · exact fun r hr hlive _ => .inl ⟨hstored r hr hlive, .inl (hw.replaying hopen r hr)⟩
  · exact fun _ r hr hlive _ => hstored r hr hlive
  · exact fun hrec => Bool.noConfusion hrec

/-- Recovery ends with nothing to retire. -/
theorem Saves.retireNone (h : Saves s) (hw : Writers s) (hflushes : Flushes s)
    (hopen : s.recovering = true) (hflushed : s.replayFlushed = true) :
    Saves { s with recovering := false } :=
  { h with
    safe := fun ns l hl hlive => (h.safe ns l hl hlive).mono fun _ _ _ => id
    marker := fun ns hlive => (h.marker ns hlive).mono fun _ _ _ => id
    computed := fun job next he =>
      have hnext := h.computed job next he
      ⟨fun ns hlive => (hnext.below ns hlive).mono fun _ _ _ => id, hnext.wf, hnext.cut,
        hnext.onward, hnext.listed⟩
    replayed := fun _ r hr hlive _ => h.all_stored hw hflushes hopen hflushed r hr hlive
    opened := fun hrec => Bool.noConfusion hrec }

theorem saves_step (h : Saves s) (hw : Writers s) (hflushes : Flushes s) (hrecords : Records s)
    (hst : Step s a t) (ha : a.reopens = false) (hcareful : a.careful = true) : Saves t := by
  have hf := follows_step hw hst ha
  have hst' := hst
  cases hst with
  | mark hns hfree => exact h.mark hw hflushes hrecords hst' hns hfree
  | readTail he =>
    refine h.setPhase hw hflushes he rfl hst' ha hf Phase.noConfusion (fun tail heq => ?_)
      (fun _ heq => by cases heq) fun _ heq => by cases heq
    exact (Phase.tailRead.inj heq).ge
  | @readInFlight job tail he =>
    have htail := h.tailRead job tail he
    refine h.setPhase hw hflushes he rfl hst' ha hf Phase.noConfusion (fun _ heq => by cases heq)
      (fun c heq => ?_) fun _ heq => by cases heq
    obtain rfl := Phase.ceiling.inj heq
    refine ⟨(walCutCeiling_le _ _).trans htail, fun r hr hlt => ?_⟩
    refine Bool.eq_false_iff.mpr fun hreg => notMem_of_lt_walCutCeiling hlt ?_
    exact mem_map.mpr ⟨r, mem_filter.mpr ⟨hr, by simp [hreg]⟩, rfl⟩
  | @compute job c he =>
    obtain ⟨hc, hreg⟩ := h.ceiling job c he
    refine h.setPhase hw hflushes he rfl hst' ha hf Phase.noConfusion (fun _ heq => by cases heq)
      (fun _ heq => by cases heq) fun next heq => ?_
    obtain rfl := Phase.computed.inj heq
    exact nextOk_progress hw hflushes h.safe h.marker h.wf h.cut h.listed hc hreg
  | skip he =>
    exact h.setPhase hw hflushes he rfl hst' ha hf Phase.noConfusion (fun _ heq => by cases heq)
      (fun _ heq => by cases heq) fun _ heq => by cases heq
  | saveOk he => exact h.saveOk hflushes he
  | saveFailed he =>
    exact h.setPhase hw hflushes he rfl hst' ha hf Phase.noConfusion (fun _ heq => by cases heq)
      (fun _ heq => by cases heq) fun _ heq => by cases heq
  | saveHalfway he => cases hcareful
  | finish he hdone => exact h.finish hw hflushes hst' he hdone
  | undo he hfailed => exact h.undo hw hflushes hst' he hfailed
  | forget hns hfree => exact h.forget hw hflushes hst' hns hfree
  | crash => cases ha
  | retireFails => cases ha
  | retireNone hopen hfree hflushed hnone => exact h.retireNone hw hflushes hopen hflushed
  | retireSame hopen hfree hflushed hsame => exact h.retireSame hw hflushes hopen hfree hflushed
  | retire hopen hfree hflushed => exact h.retire hw hflushes hopen hfree hflushed
  | _ => exact h.aside hw hflushes hf hst' ha rfl rfl rfl rfl rfl rfl rfl

end SavesStep

/-! ### Opening the log -/

section Opened

variable {log : List Logged} {p : Progress}

theorem lookup_lastEnds_foldl {l : List Logged} {m : AList fun _ : ℕ => ℕ} :
    (∀ ns x, m.lookup ns = some x → ∃ y, (l.foldl (fun m r => m.insert r.ns
      (max ((m.lookup r.ns).getD r.stop) r.stop)) m).lookup ns = some y ∧ x ≤ y) ∧
    ∀ r ∈ l, ∃ y, (l.foldl (fun m r => m.insert r.ns
      (max ((m.lookup r.ns).getD r.stop) r.stop)) m).lookup r.ns = some y ∧ r.stop ≤ y := by
  induction l generalizing m with
  | nil => exact ⟨fun ns x hx => ⟨x, hx, le_rfl⟩, nofun⟩
  | cons a l ih =>
    obtain ⟨hold, hnew⟩ := ih (m := m.insert a.ns (max ((m.lookup a.ns).getD a.stop) a.stop))
    refine ⟨fun ns x hx => ?_, fun r hr => ?_⟩
    · by_cases hns : ns = a.ns
      · subst hns
        obtain ⟨y, hy, hle⟩ := hold a.ns _ (lookup_insert m)
        rw [hx, Option.getD_some] at hle
        exact ⟨y, hy, (le_max_left _ _).trans hle⟩
      · exact hold ns x (by rw [lookup_insert_ne hns]; exact hx)
    · obtain rfl | hr := mem_cons.mp hr
      · obtain ⟨y, hy, hle⟩ := hold r.ns _ (lookup_insert m)
        exact ⟨y, hy, (le_max_right _ _).trans hle⟩
      · exact hnew r hr

theorem nodup_unretired : ((unretired p log).map Prod.fst).Nodup := by
  have hmap : (((lastEnds p.cut log).entries.map fun e => (e.1, e.2)).map Prod.fst).Nodup := by
    rw [map_map]
    exact (lastEnds p.cut log).nodupKeys
  exact hmap.sublist (List.filter_sublist.map _)

/-- A record at or above where its namespace's replay starts is known. -/
theorem mem_unretired (hr : r ∈ log) (hlog : r.inLog = true) (hlt : r.start < r.stop)
    (hfrom : p.replayFrom r.ns ≤ r.start) : ∃ l, (r.ns, l) ∈ unretired p log ∧ r.stop ≤ l := by
  have hcut := (cut_le_replayFrom p r.ns).trans hfrom
  have hmem : r ∈ log.filter fun r => r.inLog && decide (p.cut ≤ r.start) :=
    mem_filter.mpr ⟨hr, by simp [hlog, hcut]⟩
  obtain ⟨l, hl, hle⟩ := (lookup_lastEnds_foldl (m := ∅)).2 r hmem
  refine ⟨l, mem_filter.mpr ⟨mem_map.mpr ⟨_, mem_lookup_iff.mp hl, rfl⟩, ?_⟩, hle⟩
  exact decide_eq_true (hfrom.trans_lt (hlt.trans_le hle))

theorem lookup_foldl_insert : ∀ {l : List (ℕ × ℕ)} {m : AList fun _ : ℕ => ℕ} {ns x : ℕ},
    (l.map Prod.fst).Nodup → ((ns, x) ∈ l ∨ (ns ∉ l.map Prod.fst ∧ m.lookup ns = some x)) →
      (l.foldl (fun m e => m.insert e.1 e.2) m).lookup ns = some x
  | [], _, _, _, _, h => by simpa using h
  | e :: l, m, ns, x, hnodup, h => by
    obtain ⟨hhead, htail⟩ := List.nodup_cons.mp hnodup
    refine lookup_foldl_insert (m := m.insert e.1 e.2) htail ?_
    obtain hmem | ⟨hnot, hx⟩ := h
    · obtain rfl | hmem := mem_cons.mp hmem
      · exact .inr ⟨hhead, lookup_insert m⟩
      · exact .inl hmem
    · rw [List.map_cons, mem_cons, not_or] at hnot
      exact .inr ⟨hnot.2, by rw [lookup_insert_ne hnot.1]; exact hx⟩

theorem mem_of_lookup_foldl_insert : ∀ {l : List (ℕ × ℕ)} {m : AList fun _ : ℕ => ℕ} {ns x : ℕ},
    (l.foldl (fun m e => m.insert e.1 e.2) m).lookup ns = some x →
      (ns, x) ∈ l ∨ m.lookup ns = some x
  | [], _, _, _, h => .inr h
  | e :: l, m, ns, x, h => by
    obtain hmem | hx := mem_of_lookup_foldl_insert (l := l) h
    · exact .inl (List.mem_cons_of_mem _ hmem)
    · by_cases hns : ns = e.1
      · subst hns
        rw [lookup_insert] at hx
        obtain rfl := Option.some.inj hx
        exact .inl mem_cons_self
      · rw [lookup_insert_ne hns] at hx
        exact .inr hx

theorem lookup_foldl_missing {f : ℕ → ℕ} : ∀ {l : List (ℕ × ℕ)} {m : AList fun _ : ℕ => ℕ},
    (∀ ns x, m.lookup ns = some x → (l.foldl (fun m e =>
      if (m.lookup e.1).isSome then m else m.insert e.1 (f e.1)) m).lookup ns = some x) ∧
    ∀ ns x, (l.foldl (fun m e =>
      if (m.lookup e.1).isSome then m else m.insert e.1 (f e.1)) m).lookup ns = some x →
        m.lookup ns = some x ∨ x = f ns
  | [], _ => ⟨fun _ _ => id, fun _ _ => .inl⟩
  | e :: l, m => by
    obtain ⟨hold, hnew⟩ := lookup_foldl_missing (f := f) (l := l)
      (m := if (m.lookup e.1).isSome then m else m.insert e.1 (f e.1))
    refine ⟨fun ns x hx => hold ns x ?_, fun ns x hx => ?_⟩
    · split_ifs with hsome
      · exact hx
      · have hns : ns ≠ e.1 := fun heq => hsome (by rw [← heq, hx]; rfl)
        rw [lookup_insert_ne hns]
        exact hx
    · obtain hx | hx := hnew ns x hx
      · split_ifs at hx
        · exact .inl hx
        · by_cases hns : ns = e.1
          · subst hns
            rw [lookup_insert] at hx
            exact .inr (Option.some.inj hx).symm
          · rw [lookup_insert_ne hns] at hx
            exact .inl hx
      · exact .inr hx

/-- What an open can rely on: a write of a live namespace that replay skips, or that the log does
not have, is in level 0. -/
structure OnDisk (log : List Logged) (p : Progress) (dropped : List ℕ) : Prop where
  lt : ∀ r ∈ log, r.start < r.stop
  wf : WellFormed p
  below : ∀ r ∈ log, r.ns ∉ dropped → r.start < p.replayFrom r.ns → r.stored = true
  lost : ∀ r ∈ log, r.ns ∉ dropped → r.inLog = false → r.stored = true

end Opened

/-- The invariant. -/
structure Inv (s : Sys) : Prop where
  writers : Writers s
  flushes : Flushes s
  records : Records s
  saves : Saves s

theorem inv_opened {log : List Logged} {p : Progress} {dropped : List ℕ} (h : OnDisk log p dropped)
    (hfound : ∀ r ∈ log, r.stage = .found ∧ r.registered = false) (htail : p.furthest ≤ tail) :
    Inv (opened log tail p dropped) := by
  have hbelow : ∀ ns ∉ dropped, Below Settled (opened log tail p dropped) ns (p.replayFrom ns) :=
    fun ns hlive => ⟨(replayFrom_le_furthest p ns).trans htail, fun r hr hns hlt =>
      ⟨h.below r hr (hns ▸ hlive) (hns ▸ hlt), .inl (hfound r hr).1⟩⟩
  have hstage : ∀ r ∈ log, ∀ st, r.stage = st → st = .found :=
    fun r hr st hst => hst ▸ (hfound r hr).1
  have hsafe : ∀ ns l, (opened log tail p dropped).safe.lookup ns = some l →
      l = p.replayFrom ns := by
    intro ns l hl
    obtain hl | hl := lookup_foldl_missing.2 ns l hl
    · obtain hmem | hl := mem_of_lookup_foldl_insert hl
      · exact (h.wf.replayFrom_of_mem hmem).symm
      · cases hl
    · exact hl
  refine ⟨?_, ?_, ?_, ?_⟩
  · refine ⟨h.lt, ?_, ?_, ?_, ?_, ?_, ?_, ?_, ?_, ?_, ?_, ?_⟩
    · exact fun a ha b hb hsa _ => absurd (hstage a ha _ hsa) Stage.noConfusion
    · exact fun r hr hs => absurd (hstage r hr _ hs) Stage.noConfusion
    · exact fun r hr hs => absurd (hstage r hr _ hs) Stage.noConfusion
    · exact fun r hr hs => absurd (hstage r hr _ hs) Stage.noConfusion
    · intro r hr hlive hs
      have hstored : r.stored = false := by
        simpa [(hfound r hr).1, Stage.isApplied] using hs
      have hlog : r.inLog = true := by
        by_contra hlog
        exact absurd (hstored.symm.trans (h.lost r hr hlive (Bool.eq_false_iff.mpr hlog)))
          Bool.noConfusion
      have hfrom : p.replayFrom r.ns ≤ r.start := by
        by_contra hlt
        exact absurd (hstored.symm.trans (h.below r hr hlive (not_le.mp hlt))) Bool.noConfusion
      obtain ⟨l, hl, hle⟩ := mem_unretired hr hlog (h.lt r hr) hfrom
      exact ⟨l, lookup_foldl_insert nodup_unretired (.inl hl), hle⟩
    · exact fun r hr v hs => absurd (hstage r hr _ hs) Stage.noConfusion
    · exact fun r hr _ => (hfound r hr).2
    · exact fun _ r hr => (hfound r hr).1
    · exact fun _ _ => rfl
    · exact fun ns hns => absurd hns List.not_mem_nil
    · exact fun ns x hx => by cases hx
  · refine ⟨fun _ => le_rfl, fun ns hns => absurd rfl hns, ?_, ?_, ?_, ?_, fun _ => .inl rfl,
      fun _ _ => rfl⟩
    · exact fun r hr v hs => absurd (hstage r hr _ hs) Stage.noConfusion
    · exact fun r hr _ hs => absurd (hstage r hr _ hs) Stage.noConfusion
    · exact fun _ _ _ _ _ _ he => by cases he
    · exact fun ns hns => by cases hns
  · refine ⟨fun ns v tl hns => ?_, fun ns v q hq => ?_, fun ns v q hq => ?_⟩
    · cases hns
    · cases hq
    · cases hq
  · refine ⟨?_, ?_, h.wf, rfl, rfl, ?_, ?_, ?_, ?_, ?_, ?_, ?_, ?_⟩
    · intro ns l hl hlive
      rw [hsafe ns l hl]
      exact (hbelow ns hlive).mono fun _ _ _ => .inl
    · exact fun ns hlive => (hbelow ns hlive).mono fun _ _ _ => .inl
    · intro e he _
      refine ⟨e.2, lookup_foldl_missing.1 e.1 e.2 ?_, le_rfl⟩
      exact lookup_foldl_insert h.wf.nodup (.inl he)
    · exact fun _ _ _ _ _ _ he => by cases he
    · exact fun _ _ he => by cases he
    · exact fun _ _ he => by cases he
    · exact fun _ _ he => by cases he
    · exact fun r hr hlive hlog => .inl ⟨h.lost r hr hlive hlog, .inl (hfound r hr).1⟩
    · exact fun hrec => by cases hrec
    · exact fun _ => hbelow

theorem Retired.stored (hflushes : Flushes s) (hr : r ∈ s.log) (h : Retired s r) :
    r.stored = true := by
  obtain hset | ⟨hstage, hretiring⟩ := h
  · exact hset.1
  · obtain ⟨v, recorded, folded, before, he⟩ := retiring_spec hretiring
    exact hflushes.written r hr (.inr (hflushes.event _ _ _ _ _ _ he).2) hstage

/-- The state on disk that a crash leaves, with a marker that skips only what is in level 0. -/
theorem onDisk_survivors (h : Inv s) {p : Progress} (hwf : WellFormed p)
    (hp : ∀ r ∈ s.log, r.ns ∉ s.dropped → r.start < p.replayFrom r.ns → r.stored = true) (kept : ℕ) :
    OnDisk ((s.log.filter fun r => r.stored || (r.inLog && decide (r.stop ≤ kept))).map
      (Sys.survivor kept)) p s.dropped := by
  have hmem : ∀ r' ∈ (s.log.filter fun r => r.stored || (r.inLog && decide (r.stop ≤ kept))).map
      (Sys.survivor kept), ∃ r ∈ s.log, (r.stored = true ∨ (r.inLog = true ∧ r.stop ≤ kept)) ∧
        r' = Sys.survivor kept r := by
    intro r' hr'
    obtain ⟨r, hr, rfl⟩ := mem_map.mp hr'
    obtain ⟨hr, hkept⟩ := mem_filter.mp hr
    exact ⟨r, hr, by simpa using hkept, rfl⟩
  refine ⟨?_, hwf, ?_, ?_⟩
  · intro r' hr'
    obtain ⟨r, hr, -, rfl⟩ := hmem r' hr'
    exact h.writers.lt r hr
  · intro r' hr' hlive hlt
    obtain ⟨r, hr, -, rfl⟩ := hmem r' hr'
    exact hp r hr hlive hlt
  · intro r' hr' hlive hlog
    obtain ⟨r, hr, hkept, rfl⟩ := hmem r' hr'
    obtain hstored | ⟨hin, hstop⟩ := hkept
    · exact hstored
    · simp [Sys.survivor, hin, hstop] at hlog

theorem inv_reopen (h : Inv s) (hlog : t.log = s.log) (hdropped : t.dropped = s.dropped)
    (hwf : WellFormed t.marker)
    (hmarker : ∀ r ∈ s.log, r.ns ∉ s.dropped → r.start < t.marker.replayFrom r.ns →
      r.stored = true) (kept gap : ℕ) : Inv (t.reopen kept gap) := by
  unfold Sys.reopen
  rw [hlog, hdropped]
  refine inv_opened (onDisk_survivors h hwf hmarker kept) (fun r hr => ?_)
    ((le_max_right _ _).trans (Nat.le_add_right _ _))
  obtain ⟨r, -, rfl⟩ := mem_map.mp hr
  exact ⟨rfl, rfl⟩

theorem inv_init : Inv init :=
  inv_opened ⟨nofun, ⟨by simp, by simp⟩,
    nofun, nofun⟩
    nofun (Nat.zero_le _)

theorem inv_step {a : Act} (h : Inv s) (hcareful : a.careful = true) (hst : Step s a t) :
    Inv t := by
  by_cases ha : a.reopens = false
  · exact ⟨writers_step h.writers hst ha, flushes_step h.flushes hst ha,
      records_step h.writers h.flushes h.records h.saves.replayed hst ha,
      saves_step h.saves h.writers h.flushes h.records hst ha hcareful⟩
  have hmarker : ∀ r ∈ s.log, r.ns ∉ s.dropped → r.start < s.marker.replayFrom r.ns →
      r.stored = true := fun r hr hlive hlt =>
    ((h.saves.marker r.ns hlive).2 r hr rfl hlt).stored h.flushes hr
  cases hst with
  | crash hkept => exact inv_reopen h rfl rfl h.saves.wf hmarker _ _
  | @retireFails renamed kept gap hopen hfree hflushed hkept =>
    refine inv_reopen (t := { s with marker := if renamed then s.raised.progress s.tail
                                               else s.marker }) h rfl rfl ?_
      (fun r hr hlive hlt => ?_) _ _
    · dsimp only
      split_ifs
      · exact wellFormed_progress
      · exact h.saves.wf
    · exact h.saves.all_stored h.writers h.flushes hopen hflushed r hr hlive
  | _ => exact absurd rfl ha

/-! ### What a failed event leaves -/

/-- The versions that a written event of the namespace's oldest memtable completes, with their
ceilings. -/
def Sys.completes (s : Sys) (ns : ℕ) : List (ℕ × PendingFlush) :=
  fold (markFlushed s.seals ns (s.flushed ns)) ns

/-- The retirement of `t` and its marker are as they were in `s`, but for seals of other memtables
since, and the next written event of the namespace does what it would have done in `s`. -/
structure AsBefore (s t : Sys) (ns : ℕ) : Prop where
  safe : ∀ n, t.safe.lookup n = s.safe.lookup n
  written : t.written = s.written
  cut : t.retiredCut = s.retiredCut
  marker : t.marker = s.marker
  event : t.event = none
  seals : ∀ k p, s.seals.lookup k = some p → t.seals.lookup k = some p
  flushed : t.flushed ns = s.flushed ns
  completes : t.completes ns = s.completes ns

/-- The action neither takes nor gives back the retirement lock, and the process goes on. -/
def Act.keepsLock : Act → Bool
  | .mark _ | .forget _ | .finish | .undo _ | .crash _ _ | .retireFails _ _ _ => false
  | _ => true

theorem nodup_sealsOf (seals : Seals) (ns : ℕ) : ((sealsOf seals ns).map Prod.fst).Nodup := by
  have hperm := (List.perm_insertionSort (fun a b : ℕ × PendingFlush => a.1 ≤ b.1)
    ((seals.entries.filter fun e => decide (e.1.1 = ns)).map fun e => (e.1.2, e.2))).map Prod.fst
  refine hperm.nodup_iff.mpr ?_
  rw [map_map]
  have hkeys : ((seals.entries.filter fun e => decide (e.1.1 = ns)).map Sigma.fst).Nodup :=
    seals.nodupKeys.sublist List.filter_sublist
  have hfst : ∀ k ∈ (seals.entries.filter fun e => decide (e.1.1 = ns)).map Sigma.fst,
      k.1 = ns := by
    intro k hk
    obtain ⟨e, he, rfl⟩ := mem_map.mp hk
    exact of_decide_eq_true (mem_filter.mp he).2
  have hmap := List.Nodup.map_on (f := Prod.snd)
    (fun a ha b hb hab => Prod.ext ((hfst a ha).trans (hfst b hb).symm) hab) hkeys
  rwa [map_map] at hmap

theorem sorted_sealsOf (seals : Seals) (ns : ℕ) :
    (sealsOf seals ns).Pairwise fun a b => a.1 < b.1 := by
  have hle : (sealsOf seals ns).Pairwise fun a b => a.1 ≤ b.1 :=
    List.pairwise_insertionSort (fun a b : ℕ × PendingFlush => a.1 ≤ b.1) _
  have hne := List.pairwise_map.mp (nodup_sealsOf seals ns)
  exact (hle.and hne).imp fun hab => lt_of_le_of_ne hab.1 hab.2

theorem takeWhile_sorted {v : ℕ} : ∀ {l : List (ℕ × PendingFlush)},
    (l.Pairwise fun a b => a.1 < b.1) → (∀ e ∈ l, v < e.1 → e.2.flushed = false) →
      l.takeWhile (fun e => e.2.flushed) =
        (l.filter fun e => decide (e.1 ≤ v)).takeWhile fun e => e.2.flushed
  | [], _, _ => rfl
  | e :: l, hsorted, hlate => by
    obtain ⟨hhead, htail⟩ := List.pairwise_cons.mp hsorted
    by_cases hle : e.1 ≤ v
    · rw [List.filter_cons_of_pos (by simpa using hle), List.takeWhile_cons, List.takeWhile_cons,
        takeWhile_sorted htail fun a ha => hlate a (List.mem_cons_of_mem _ ha)]
    · have hnone : (e :: l).filter (fun a => decide (a.1 ≤ v)) = [] := by
        refine List.filter_eq_nil_iff.mpr fun a ha => ?_
        obtain rfl | ha := mem_cons.mp ha
        · simpa using hle
        · have hlt := hhead a ha
          simp only [decide_eq_true_eq]
          omega
      rw [hnone, List.takeWhile_cons, hlate e mem_cons_self (not_le.mp hle)]
      rfl

/-- Two lists of seal records that agree up to a version, and whose later versions are not
flushed, complete the same versions. -/
theorem fold_congr {A B : Seals} {v : ℕ} (hsame : ∀ w ≤ v, A.lookup (ns, w) = B.lookup (ns, w))
    (hA : ∀ w p, v < w → A.lookup (ns, w) = some p → p.flushed = false)
    (hB : ∀ w p, v < w → B.lookup (ns, w) = some p → p.flushed = false) :
    fold A ns = fold B ns := by
  have hcut : (sealsOf A ns).filter (fun e => decide (e.1 ≤ v)) =
      (sealsOf B ns).filter fun e => decide (e.1 ≤ v) := by
    have hsorted : ∀ S : Seals, ((sealsOf S ns).filter fun e => decide (e.1 ≤ v)).Pairwise
        fun a b => a.1 < b.1 := fun S => (sorted_sealsOf S ns).sublist List.filter_sublist
    have hnodup : ∀ S : Seals, ((sealsOf S ns).filter fun e => decide (e.1 ≤ v)).Nodup :=
      fun S => (List.Nodup.of_map _ (nodup_sealsOf S ns)).filter _
    refine List.Perm.eq_of_pairwise (fun a b _ _ hab hba => absurd hab hba.asymm)
      (hsorted A) (hsorted B) ((List.perm_ext_iff_of_nodup (hnodup A) (hnodup B)).mpr fun e => ?_)
    simp only [mem_filter, mem_sealsOf, decide_eq_true_eq]
    exact and_congr_left fun hle => by rw [hsame e.1 hle]
  unfold fold
  rw [takeWhile_sorted (v := v) (sorted_sealsOf A ns) fun e he hlt =>
      hA e.1 e.2 hlt (mem_sealsOf.mp he),
    takeWhile_sorted (v := v) (sorted_sealsOf B ns) fun e he hlt =>
      hB e.1 e.2 hlt (mem_sealsOf.mp he), hcut]

/-- What is known while a written event that began in `s` is under way. -/
structure During (s u : Sys) (ns : ℕ) : Prop where
  event : ∃ folded phase, u.event = some ⟨.written ns (s.flushed ns)
    (s.seals.lookup (ns, s.flushed ns)).isSome folded (s.safe.lookup ns), phase⟩ ∧
    (phase ≠ .done → u.marker = s.marker ∧ u.written = s.written ∧ u.retiredCut = s.retiredCut)
  safe : u.safe = (s.mark ns).safe
  flushed : u.flushed ns = s.flushed ns
  recovering : u.recovering = false
  kept : ∀ k, k ≠ (ns, s.flushed ns) → ∀ p, s.seals.lookup k = some p → u.seals.lookup k = some p
  marked : u.seals.lookup (ns, s.flushed ns) =
    some { (s.seals.lookup (ns, s.flushed ns)).getD ⟨0, false⟩ with flushed := true }
  added : ∀ k, k ≠ (ns, s.flushed ns) → ∀ p, u.seals.lookup k = some p →
    s.seals.lookup k = some p ∨ (p.flushed = false ∧ (k.1 = ns → s.flushed ns < k.2))

section During

variable {s u w : Sys} {ns : ℕ} {a : Act}

theorem During.mark (hflushes : Flushes s) (hns : s.flushing ns = some .written) :
    During s (s.mark ns) ns := by
  refine ⟨⟨_, _, rfl, fun _ => ⟨rfl, rfl, rfl⟩⟩, rfl, rfl, ?_, ?_, ?_, ?_⟩
  · refine Bool.eq_false_iff.mpr fun hrec => ?_
    have hlt := hflushes.lt ns (by simp [hns])
    exact absurd (hflushes.idle hrec ns) hlt.ne'
  · intro k hk p hp
    exact (lookup_insert_ne hk).trans hp
  · exact lookup_insert ..
  · intro k hk p hp
    obtain ⟨-, hp⟩ | ⟨heq, -⟩ := lookup_markFlushed hp
    · exact .inl hp
    · exact absurd heq hk

/-- A step that leaves the event and the seal records alone. -/
theorem During.aside (h : During s u ns) (hevent : w.event = u.event)
    (hmarker : w.marker = u.marker) (hwritten : w.written = u.written)
    (hcut : w.retiredCut = u.retiredCut) (hsafe : w.safe = u.safe)
    (hflushed : w.flushed = u.flushed) (hrecovering : w.recovering = u.recovering)
    (hseals : w.seals = u.seals) : During s w ns := by
  refine ⟨?_, hsafe.trans h.safe, (congrFun hflushed ns).trans h.flushed,
    hrecovering.trans h.recovering, ?_, ?_, ?_⟩
  · rw [hevent, hmarker, hwritten, hcut]
    exact h.event
  · rw [hseals]
    exact h.kept
  · rw [hseals]
    exact h.marked
  · rw [hseals]
    exact h.added

/-- The event moves on. -/
theorem During.setPhase (h : During s u ns) {phase phase' : Phase}
    (he : u.event = some ⟨job, phase⟩) (he' : w.event = some ⟨job, phase'⟩)
    (hmarker : phase' ≠ .done → phase ≠ .done ∧ w.marker = u.marker ∧ w.written = u.written ∧
      w.retiredCut = u.retiredCut) (hsafe : w.safe = u.safe) (hflushed : w.flushed = u.flushed)
    (hrecovering : w.recovering = u.recovering) (hseals : w.seals = u.seals) : During s w ns := by
  refine ⟨?_, hsafe.trans h.safe, (congrFun hflushed ns).trans h.flushed,
    hrecovering.trans h.recovering, ?_, ?_, ?_⟩
  · obtain ⟨folded, ph, heq, hsame⟩ := h.event
    rw [he] at heq
    cases heq
    refine ⟨folded, phase', he', fun hne => ?_⟩
    obtain ⟨hne', hm, hw, hc⟩ := hmarker hne
    obtain ⟨hm', hw', hc'⟩ := hsame hne'
    exact ⟨hm.trans hm', hw.trans hw', hc.trans hc'⟩
  · rw [hseals]
    exact h.kept
  · rw [hseals]
    exact h.marked
  · rw [hseals]
    exact h.added

theorem during_step (h : During s u ns) (hinv : Inv u) (hlock : a.keepsLock = true)
    (hcareful : a.careful = true) (hst : Step u a w) : During s w ns := by
  obtain ⟨folded, phase, he, hsame⟩ := h.event
  cases hst with
  | @sealRecord n v tail hn =>
    have hversion := hinv.writers.sealing n _ hn
    have hnew : n = ns → v ≠ s.flushed ns → s.flushed ns < v := by
      rintro rfl hne
      obtain ⟨-, hreporting⟩ := hinv.flushes.event _ _ _ _ _ _ he
      have hlt := hinv.flushes.lt n (by simp [hreporting])
      rw [h.flushed, ← hversion] at hlt
      simp only [Sealing.version] at hlt
      omega
    have hmarked := h.marked
    refine ⟨⟨folded, phase, he, hsame⟩, h.safe, h.flushed, h.recovering, ?_, ?_, ?_⟩
    · intro k hk p hp
      have hold := h.kept k hk p hp
      dsimp only
      split_ifs with hsome
      · exact hold
      · have hne : k ≠ (n, v) := fun heq => hsome (by rw [← heq, hold]; rfl)
        rw [lookup_insert_ne hne]
        exact hold
    · dsimp only
      split_ifs with hsome
      · exact hmarked
      · have hne : (ns, s.flushed ns) ≠ (n, v) := fun heq => hsome (by rw [← heq, hmarked]; rfl)
        rw [lookup_insert_ne hne]
        exact hmarked
    · intro k hk p hp
      dsimp only at hp
      split_ifs at hp with hsome
      · exact h.added k hk p hp
      · by_cases heq : k = (n, v)
        · subst heq
          rw [lookup_insert] at hp
          obtain rfl := Option.some.inj hp
          refine .inr ⟨rfl, fun hns => hnew hns fun hv => hk ?_⟩
          exact Prod.ext hns hv
        · rw [lookup_insert_ne heq] at hp
          exact h.added k hk p hp
  | readTail he' | readInFlight he' | compute he' =>
    exact h.setPhase he' rfl (fun _ => ⟨Phase.noConfusion, rfl, rfl, rfl⟩) rfl rfl rfl rfl
  | skip he' | saveOk he' => exact h.setPhase he' rfl (fun hne => absurd rfl hne) rfl rfl rfl rfl
  | saveFailed he' =>
    exact h.setPhase he' rfl (fun _ => ⟨Phase.noConfusion, rfl, rfl, rfl⟩) rfl rfl rfl rfl
  | saveHalfway he' => cases hcareful
  | mark | markUntracked | finish | undo | forget | crash | retireFails => cases hlock
  | retireNone hopen | retireSame hopen | retire hopen =>
    exact absurd (h.recovering.symm.trans hopen) Bool.noConfusion
  | _ => exact h.aside rfl rfl rfl rfl rfl rfl rfl rfl

/-- **A written event that fails leaves everything as it was.** -/
theorem During.undo (h : During s u ns) (hrecords : Records s) (hfree : s.event = none)
    (hflushes : Flushes s) (he : u.event = some e) (hfailed : e.phase = .failed) (keep : List ℕ) :
    AsBefore s (u.undo e keep) ns := by
  obtain ⟨folded, phase, heq, hsame⟩ := h.event
  rw [he] at heq
  obtain rfl := Option.some.inj heq
  dsimp only at hfailed
  subst hfailed
  obtain ⟨hmarker, hwritten, hcut⟩ := hsame Phase.noConfusion
  have hunflushed : ∀ v p, s.flushed ns ≤ v → s.seals.lookup (ns, v) = some p →
      p.flushed = false := by
    intro v p hv hp
    refine Bool.eq_false_iff.mpr fun hfl => ?_
    obtain hlt | ⟨-, hreporting⟩ := hrecords.flushed ns v p hp hfl
    · omega
    · exact hflushes.not_reporting (by simp [hfree]) ns hreporting
  -- the seal record of the memtable is what it was
  have hself : ∀ q, (unmark u.seals ns (s.flushed ns)
      (s.seals.lookup (ns, s.flushed ns)).isSome).lookup (ns, s.flushed ns) = q →
        q = s.seals.lookup (ns, s.flushed ns) := by
    rintro q rfl
    unfold unmark
    cases hold : s.seals.lookup (ns, s.flushed ns) with
    | none =>
      rw [Option.isSome_none]
      exact lookup_erase ..
    | some p =>
      have hmarked := h.marked
      rw [hold, Option.getD_some] at hmarked
      rw [Option.isSome_some, if_pos rfl, hmarked]
      dsimp only
      rw [lookup_insert]
      have hfl := hunflushed _ p le_rfl hold
      cases p
      simp_all
  have hother : ∀ k, k ≠ (ns, s.flushed ns) → (unmark u.seals ns (s.flushed ns)
      (s.seals.lookup (ns, s.flushed ns)).isSome).lookup k = u.seals.lookup k := by
    intro k hk
    unfold unmark
    split_ifs
    · split
      · exact lookup_insert_ne hk
      · rfl
    · exact lookup_erase_ne hk
  refine ⟨fun n => ?_, hwritten, hcut, hmarker, rfl, fun k p hp => ?_, h.flushed, ?_⟩
  · simp only [Sys.undo, Sys.setFlushing]
    have hsafe := h.safe
    simp only [Sys.mark] at hsafe
    by_cases hn : n = ns
    · subst hn
      cases hbefore : s.safe.lookup n with
      | none => exact lookup_erase ..
      | some l => exact lookup_insert ..
    · cases hbefore : s.safe.lookup ns with
      | none =>
        dsimp only
        rw [lookup_erase_ne hn]
        simp only [hsafe]
        exact lookup_insert_ne hn
      | some l =>
        dsimp only
        rw [lookup_insert_ne hn]
        simp only [hsafe]
        exact lookup_insert_ne hn
  · by_cases hk : k = (ns, s.flushed ns)
    · subst hk
      exact (hself _ rfl).trans hp
    · exact (hother k hk).trans (h.kept k hk p hp)
  · unfold Sys.completes
    have hflushed : (u.undo ⟨.written ns (s.flushed ns)
        (s.seals.lookup (ns, s.flushed ns)).isSome folded (s.safe.lookup ns), .failed⟩
        keep).flushed ns = s.flushed ns := h.flushed
    rw [hflushed]
    refine fold_congr (v := s.flushed ns) (fun v hv => ?_) (fun v p hv hp => ?_)
      fun v p hv hp => ?_
    · unfold markFlushed
      by_cases hk : (ns, v) = (ns, s.flushed ns)
      · obtain ⟨-, rfl⟩ := Prod.mk.inj hk
        rw [lookup_insert, lookup_insert]
        exact congrArg (fun q : Option PendingFlush => some { q.getD ⟨0, false⟩ with
          flushed := true }) (hself _ rfl)
      · rw [lookup_insert_ne hk, lookup_insert_ne hk]
        refine (hother _ hk).trans ?_
        cases hnew : u.seals.lookup (ns, v) with
        | none =>
          cases hold : s.seals.lookup (ns, v) with
          | none => rfl
          | some p => exact absurd (hnew.symm.trans (h.kept _ hk p hold)) (by simp)
        | some p =>
          obtain hold | ⟨-, hlate⟩ := h.added _ hk p hnew
          · exact hold.symm
          · exact absurd (hlate rfl) (not_lt.mpr hv)
    · have hk : (ns, v) ≠ (ns, s.flushed ns) := fun heq => hv.ne' (Prod.mk.inj heq).2
      obtain ⟨-, hp⟩ | ⟨heq, -⟩ := lookup_markFlushed hp
      · obtain hold | ⟨hfl, -⟩ := h.added _ hk p ((hother _ hk).symm.trans hp)
        · exact hunflushed v p hv.le hold
        · exact hfl
      · exact absurd heq hk
    · have hk : (ns, v) ≠ (ns, s.flushed ns) := fun heq => hv.ne' (Prod.mk.inj heq).2
      obtain ⟨-, hp⟩ | ⟨heq, -⟩ := lookup_markFlushed hp
      · exact hunflushed v p hv.le hp
      · exact absurd heq hk

end During

/-! ### Retirement is sound -/

/-- A write of a live namespace that is not in level 0 is in the log, where replay applies it, and
its segment is not below the cut. -/
def Replayable (s : Sys) : Prop :=
  ∀ r ∈ s.log, r.ns ∉ s.dropped → s.inLevel0 r = false →
    r.inLog = true ∧ s.marker.replayFrom r.ns ≤ r.start ∧ s.marker.cut ≤ r.start ∧
      s.retiredCut ≤ r.start

/-- The cut on disk, and where the replay of each namespace that is still live starts, only move
forward. -/
def Onward (s t : Sys) : Prop :=
  s.marker.cut ≤ t.marker.cut ∧
    ∀ ns ∉ t.dropped, s.marker.replayFrom ns ≤ t.marker.replayFrom ns

theorem Inv.replayable (h : Inv s) : Replayable s := by
  intro r hr hlive hlevel0
  have hret : ¬ Retired s r := fun hret =>
    absurd (hlevel0.symm.trans ((retired_iff h.flushes hr).mpr hret)) Bool.noConfusion
  have hfrom : s.marker.replayFrom r.ns ≤ r.start := by
    by_contra hlt
    exact hret ((h.saves.marker r.ns hlive).2 r hr rfl (not_le.mp hlt))
  have hcut := (cut_le_replayFrom s.marker r.ns).trans hfrom
  refine ⟨?_, hfrom, hcut, h.saves.cut ▸ hcut⟩
  by_contra hlog
  exact hret (h.saves.lost r hr hlive (Bool.eq_false_iff.mpr hlog))

theorem onward_step {a : Act} (h : Inv s) (hcareful : a.careful = true) (hst : Step s a t) :
    Onward s t ∧ ∀ ns ∈ s.dropped, ns ∈ t.dropped := by
  have hsame : ∀ {t : Sys}, t.marker = s.marker → Onward s t := by
    intro t hm
    unfold Onward
    rw [hm]
    exact ⟨le_rfl, fun _ _ => le_rfl⟩
  by_cases ha : a.reopens = false
  · refine ⟨?_, (follows_step h.writers hst ha).dropped⟩
    cases hst with
    | saveOk he =>
      have hnext := h.saves.computed _ _ he
      exact ⟨hnext.cut, hnext.onward⟩
    | saveHalfway he => cases hcareful
    | retire hopen hfree hflushed =>
      have hnext := h.saves.nextOk_raised h.writers h.flushes hopen hflushed
      exact ⟨hnext.cut, hnext.onward⟩
    | @finish e he hdone | @undo e keep he hfailed =>
      obtain ⟨job, phase⟩ := e
      cases job <;> exact hsame rfl
    | crash => cases ha
    | retireFails => cases ha
    | _ => exact hsame rfl
  · cases hst with
    | crash hkept => exact ⟨hsame rfl, fun _ => id⟩
    | @retireFails renamed kept gap hopen hfree hflushed hkept =>
      have hnext := h.saves.nextOk_raised h.writers h.flushes hopen hflushed
      refine ⟨?_, fun _ => id⟩
      cases renamed with
      | false => exact hsame rfl
      | true => exact ⟨hnext.cut, hnext.onward⟩
    | _ => exact absurd rfl ha

theorem inv_run (h : Inv s) (hcareful : ∀ a ∈ as, a.careful = true) (hrun : run step s as = some t)
    : Inv t :=
  invariant_of_mem (q := Act.careful) (fun _ _ _ hs hq hst => inv_step hs hq (step_cases hst)) h
    hcareful hrun

theorem onward_run (h : Inv s) (hcareful : ∀ a ∈ as, a.careful = true)
    (hrun : run step s as = some t) : Onward s t := by
  have hstep : ∀ u a w, Inv u ∧ Onward s u → a.careful = true → step u a = some w →
      Inv w ∧ Onward s w := by
    rintro u a w ⟨hu, hcut, hfrom⟩ hq hst
    obtain ⟨⟨hcut', hfrom'⟩, hdropped⟩ := onward_step hu hq (step_cases hst)
    exact ⟨inv_step hu hq (step_cases hst), hcut.trans hcut', fun ns hlive =>
      (hfrom ns fun hmem => hlive (hdropped ns hmem)).trans (hfrom' ns hlive)⟩
  exact (invariant_of_mem hstep ⟨h, le_rfl, fun _ _ => le_rfl⟩ hcareful hrun).2

/-- While the lock is free and no action takes it, no event fails. -/
theorem event_none_run (h : s.event = none) (hlock : ∀ a ∈ as, a.keepsLock = true)
    (hrun : run step s as = some t) : t.event = none := by
  have hstep : ∀ u a w, u.event = none → a.keepsLock = true → step u a = some w →
      w.event = none := by
    intro u a w hu hq hst
    cases step_cases hst with
    | readTail he | readInFlight he | compute he | skip he | saveOk he | saveFailed he
      | saveHalfway he => exact absurd (hu.symm.trans he) (by simp)
    | mark | markUntracked | finish | undo | forget | crash | retireFails => cases hq
    | _ => exact hu
  exact invariant_of_mem hstep h hlock hrun

theorem asBefore_run {keep : List ℕ} (h : Inv s)
    (hlock : ∀ a ∈ as, a.keepsLock = true ∧ a.careful = true)
    (hrun : run step s (.mark ns :: as ++ [Act.undo keep]) = some t) : AsBefore s t ns := by
  obtain ⟨u, hu, hlast⟩ := exists_of_run_append hrun
  obtain ⟨v, hv, hrest⟩ := Option.bind_eq_some_iff.mp hu
  obtain ⟨t', ht, htt⟩ := Option.bind_eq_some_iff.mp hlast
  obtain rfl := Option.some.inj htt
  have hundo : ∀ e, u.event = some e → e.phase = .failed → t' = u.undo e keep → u.event ≠ none :=
    fun e he _ _ hnone => Option.some_ne_none _ (he.symm.trans hnone)
  cases step_cases ht with
  | @undo e _ he hfailed =>
    cases step_cases hv with
    | mark hns hfree =>
      have hinv := inv_step h rfl (step_cases hv)
      have hstep : ∀ w a x, Inv w ∧ During s w ns → (a.keepsLock && a.careful) = true →
          step w a = some x → Inv x ∧ During s x ns := by
        rintro w a x ⟨hw, hduring⟩ hq hst
        obtain ⟨hk, hc⟩ := (Bool.and_eq_true _ _).mp hq
        exact ⟨inv_step hw hc (step_cases hst), during_step hduring hw hk hc (step_cases hst)⟩
      have hduring := invariant_of_mem hstep ⟨hinv, .mark h.flushes hns⟩
        (fun a ha => by simp [hlock a ha]) hrest
      exact hduring.2.undo h.records hfree h.flushes he hfailed keep
    | markUntracked hns hfree hnone =>
      have hnone' := event_none_run (s := { s.register ns with
        seals := s.seals.erase (ns, s.flushed ns) }) hfree (fun a ha => (hlock a ha).1) hrest
      exact absurd hnone' (hundo e he hfailed rfl)

/-- **Retirement is sound**, in every run in which no marker is written halfway: what is not in
level 0 is replayed, the progress on disk only moves forward, and a written event that fails leaves
everything as it was. -/
theorem retirement_sound {as : List Act} {s : Sys} (hrun : run step init as = some s)
    (hcareful : ∀ a ∈ as, a.careful = true) :
    Replayable s ∧
      (∀ bs t, (∀ b ∈ bs, b.careful = true) → run step s bs = some t → Onward s t) ∧
      ∀ ns bs keep t, (∀ b ∈ bs, b.keepsLock = true ∧ b.careful = true) →
        run step s (.mark ns :: bs ++ [.undo keep]) = some t → AsBefore s t ns := by
  have h := inv_run inv_init hcareful hrun
  exact ⟨h.replayable, fun bs t hbs ht => onward_run h hbs ht,
    fun ns bs keep t hbs ht => asBefore_run h hbs ht⟩

/-- A logged write of ten bytes. -/
def write (ns seq start : ℕ) : List Act :=
  [.append ns seq start 10, .publish seq, .track seq, .apply seq, .release seq]

/-- A flush of the namespace's memtable, which holds one write, up to its written event. -/
def flushToMark (ns seq : ℕ) : List Act :=
  [.swap ns, .sealReadTail ns, .sealRecord ns, .flushCheck ns, .store seq, .written ns]

/-- A written event up to the save of its marker. -/
def eventToSave (ns : ℕ) : List Act := [.mark ns, .readTail, .readInFlight, .compute]

/-- Two namespaces are written to; the flush of one fails at its marker and is retried. -/
def retried : List Act :=
  .retire :: write 1 0 28 ++ write 2 1 38 ++ [Act.sync 48] ++ flushToMark 1 0 ++ eventToSave 1 ++
    [Act.save .failed, .undo []] ++ [Act.flushCheck 1, .store 0, .written 1] ++ eventToSave 1 ++
    [Act.save .ok, .finish]

theorem retirement_sound_retried : ∃ s, run step init retried = some s ∧
    s.marker = ⟨0, [(1, 48)]⟩ ∧ Replayable s := by
  have hend : (run step init retried).map (fun s => s.marker) = some ⟨0, [(1, 48)]⟩ := by
    decide +kernel
  obtain ⟨s, hrun, hmarker⟩ := Option.map_eq_some_iff.mp hend
  exact ⟨s, hrun, hmarker, (retirement_sound hrun (by decide)).1⟩

/-- The marker of a flush takes effect on disk, and its write fails all the same: the flush is
undone. -/
def halfway : List Act :=
  .retire :: write 1 0 28 ++ [Act.sync 38] ++ flushToMark 1 0 ++ eventToSave 1 ++
    [Act.save .halfway, .undo []]

/-- **A marker that takes effect and fails retires a write that is in no file.** -/
theorem not_replayable_halfway :
    ¬ ∀ (as : List Act) (s : Sys), run step init as = some s → Replayable s := by
  intro hall
  have hend : (run step init halfway).map (fun s => (s.marker, s.log.map fun r =>
      (r.ns, r.start, s.inLevel0 r), s.dropped)) = some (⟨38, []⟩, [(1, 28, false)], []) := by
    decide +kernel
  obtain ⟨s, hrun, hs⟩ := Option.map_eq_some_iff.mp hend
  obtain ⟨hmarker, hs⟩ := Prod.mk.inj hs
  obtain ⟨hlog, hdropped⟩ := Prod.mk.inj hs
  obtain ⟨r, hr, hr'⟩ := mem_map.mp (hlog ▸ List.mem_singleton_self (1, 28, false))
  obtain ⟨hns, hr'⟩ := Prod.mk.inj hr'
  obtain ⟨hstart, hlevel0⟩ := Prod.mk.inj hr'
  obtain ⟨-, -, hcut, -⟩ := hall halfway s hrun r hr (by rw [hdropped]; simp) hlevel0
  rw [hmarker, hstart] at hcut
  revert hcut
  decide

end VectorWal

end Minnal
