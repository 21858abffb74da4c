import Minnal.Db.VectorWalRetirement

/-!
# What survives a crash of the vector index WAL is a prefix

A flush writes no level-0 file before the log is durable up to the namespace's latest record, and
that is raised before the write is applied. So an **L0 file** never holds a write the log could
still lose (`Durable`), and what is visible after a crash, from level 0 and from the replay
together, is the part of the log below the position the crash has kept (`prefix_survives`). The
other half is that retirement is sound: what the replay skips is in level 0.
-/

set_option linter.dupNamespace false

namespace Minnal

open StepRun Function
open List (map_map mem_map map_congr_left mem_filter map_id pairwise_map mem_singleton)

namespace VectorWal

/-! ### Level 0 stays behind the log -/

/-- The action drops no namespace. -/
def Act.keepsAll : Act → Bool
  | .drop _ => false
  | _ => true

/-- The records lie one after another, and none that is in level 0, or is on its way, is past the
durable tail. -/
structure Durable (s : Sys) : Prop where
  nodup : (s.log.map Logged.seq).Nodup
  order : s.log.Pairwise fun a b => a.stop ≤ b.start
  stop_le : ∀ r ∈ s.log, r.stage ≠ .appended → r.stop ≤ s.tail
  stored : ∀ r ∈ s.log, r.stored = true → r.stop ≤ s.durable
  flushing : ∀ r ∈ s.log, s.flushing r.ns ≠ none → r.stage = .applied (s.flushed r.ns) →
    r.stop ≤ s.durable
  replaying : s.recovering = true → s.durable = s.tail
  dropped : s.dropped = []

namespace Durable

variable {s t : Sys}

/-- The records change, but not where they lie. -/
theorem map (h : Durable s) {f : Logged → Logged} (hlog : t.log = s.log.map f)
    (hf : ∀ r ∈ s.log, (f r).seq = r.seq ∧ (f r).ns = r.ns ∧ (f r).start = r.start ∧
      (f r).stop = r.stop ∧ ((f r).stage = .appended ↔ r.stage = .appended) ∧
      ((f r).stored = true → r.stored = true ∨ r.stop ≤ s.durable) ∧
      (t.flushing r.ns ≠ none → (f r).stage = .applied (t.flushed r.ns) → r.stop ≤ t.durable))
    (htail : t.tail = s.tail) (hdurable : s.durable ≤ t.durable)
    (hreplaying : t.recovering = true → t.durable = t.tail) (hdropped : t.dropped = s.dropped) :
    Durable t := by
  have hmem : ∀ r' ∈ t.log, ∃ r ∈ s.log, r' = f r := by
    intro r' hr'
    rw [hlog] at hr'
    obtain ⟨r, hr, rfl⟩ := mem_map.mp hr'
    exact ⟨r, hr, rfl⟩
  refine ⟨?_, ?_, ?_, ?_, ?_, hreplaying, hdropped.trans h.dropped⟩
  · have hseqs : s.log.map (Logged.seq ∘ f) = s.log.map Logged.seq :=
      map_congr_left fun r hr => (hf r hr).1
    rw [hlog, map_map, hseqs]
    exact h.nodup
  · rw [hlog, pairwise_map]
    refine h.order.imp_of_mem fun ha hb hab => ?_
    obtain ⟨-, -, -, hstop, -⟩ := hf _ ha
    obtain ⟨-, -, hstart, -⟩ := hf _ hb
    rw [hstop, hstart]
    exact hab
  · intro r' hr' hstage
    obtain ⟨r, hr, rfl⟩ := hmem r' hr'
    obtain ⟨-, -, -, hstop, happended, -⟩ := hf r hr
    rw [hstop, htail]
    exact h.stop_le r hr fun hs => hstage (happended.mpr hs)
  · intro r' hr' hstored
    obtain ⟨r, hr, rfl⟩ := hmem r' hr'
    obtain ⟨-, -, -, hstop, -, hst, -⟩ := hf r hr
    rw [hstop]
    exact ((hst hstored).elim (h.stored r hr) id).trans hdurable
  · intro r' hr' hflush hstage
    obtain ⟨r, hr, rfl⟩ := hmem r' hr'
    obtain ⟨-, hns, -, hstop, -, -, hfl⟩ := hf r hr
    rw [hstop]
    rw [hns] at hflush hstage
    exact hfl hflush hstage

/-- No record changes. -/
theorem same (h : Durable s) (hlog : t.log = s.log) (htail : t.tail = s.tail)
    (hdurable : t.durable = s.durable) (hrecovering : t.recovering = true → s.recovering = true)
    (hdropped : t.dropped = s.dropped)
    (hflush : ∀ r ∈ s.log, t.flushing r.ns ≠ none → r.stage = .applied (t.flushed r.ns) →
      r.stop ≤ s.durable) : Durable t := by
  refine h.map (f := id) (hlog.trans (map_id _).symm) (fun r hr => ?_) htail hdurable.ge
    (fun hrec => ?_) hdropped
  · refine ⟨rfl, rfl, rfl, rfl, .rfl, .inl, fun hfl hs => ?_⟩
    rw [hdurable]
    exact hflush r hr hfl hs
  · rw [hdurable, htail]
    exact h.replaying (hrecovering hrec)

/-- One record changes. -/
theorem set (h : Durable s) {r r' : Logged} (hr : r ∈ s.log) (hlog : t.log = (s.set r').log)
    (hseq : r'.seq = r.seq) (hns : r'.ns = r.ns) (hstart : r'.start = r.start)
    (hstop : r'.stop = r.stop) (happended : r'.stage = .appended ↔ r.stage = .appended)
    (hstored : r'.stored = true → r.stored = true ∨ r.stop ≤ s.durable)
    (hflush : s.flushing r.ns ≠ none → r'.stage = .applied (s.flushed r.ns) → r.stop ≤ s.durable)
    (htail : t.tail = s.tail) (hdurable : t.durable = s.durable)
    (hrecovering : t.recovering = s.recovering) (hdropped : t.dropped = s.dropped)
    (hflushing : t.flushing = s.flushing) (hflushed : t.flushed = s.flushed) : Durable t := by
  refine h.map hlog (fun a ha => ?_) htail hdurable.ge (fun hrec => ?_) hdropped
  · by_cases heq : a.seq = r'.seq
    · obtain rfl := List.inj_on_of_nodup_map h.nodup ha hr (heq.trans hseq)
      rw [if_pos heq, hflushing, hflushed, hdurable]
      exact ⟨hseq, hns, hstart, hstop, happended, hstored, hflush⟩
    · rw [if_neg heq, hflushing, hflushed, hdurable]
      exact ⟨rfl, rfl, rfl, rfl, .rfl, .inl, h.flushing a ha⟩
  · rw [hdurable, htail]
    exact h.replaying (hrecovering ▸ hrec)

/-- The files of a flush that fails are deleted. -/
theorem unstore (h : Durable s) {ns : ℕ} {keep : List ℕ} (hlog : t.log = (s.unstore ns keep).log)
    (htail : t.tail = s.tail) (hdurable : t.durable = s.durable)
    (hrecovering : t.recovering = s.recovering) (hdropped : t.dropped = s.dropped)
    (hflushing : t.flushing = update s.flushing ns none)
    (hflushed : t.flushed = s.flushed) : Durable t := by
  refine h.map hlog (fun r hr => ?_) htail hdurable.ge (fun hrec => ?_) hdropped
  · have hfl : t.flushing r.ns ≠ none → r.stage = .applied (t.flushed r.ns) →
        r.stop ≤ t.durable := by
      rw [hflushing, hflushed, hdurable]
      by_cases heq : r.ns = ns
      · rw [heq, update_self]
        exact fun hne => absurd rfl hne
      · rw [update_of_ne heq]
        exact h.flushing r hr
    split_ifs
    · exact ⟨rfl, rfl, rfl, rfl, .rfl, (fun hst => by cases hst), hfl⟩
    · exact ⟨rfl, rfl, rfl, rfl, .rfl, .inl, hfl⟩
  · rw [hdurable, htail]
    exact h.replaying (hrecovering ▸ hrec)

/-- A flush of a namespace is over. -/
theorem register (h : Durable s) (ns : ℕ) (hlog : t.log = s.log) (htail : t.tail = s.tail)
    (hdurable : t.durable = s.durable) (hrecovering : t.recovering = s.recovering)
    (hdropped : t.dropped = s.dropped) (hflushing : t.flushing = (s.register ns).flushing)
    (hflushed : t.flushed = (s.register ns).flushed) : Durable t := by
  refine h.same hlog htail hdurable (hrecovering ▸ id) hdropped fun r hr => ?_
  rw [hflushing, hflushed]
  simp only [Sys.register, Sys.flushing_setFlushing]
  by_cases heq : r.ns = ns
  · rw [heq, update_self]
    exact fun hne => absurd rfl hne
  · rw [update_of_ne heq, update_of_ne heq]
    exact h.flushing r hr

/-- What an open finds. -/
theorem reopen (h : Durable s) (hlog : t.log = s.log) (hdropped : t.dropped = s.dropped)
    {kept : ℕ} (hkept : s.durable ≤ kept) (gap : ℕ) : Durable (t.reopen kept gap) := by
  have hmem : ∀ r' ∈ (t.reopen kept gap).log, ∃ r ∈ s.log,
      (r.stored = true ∨ (r.inLog = true ∧ r.stop ≤ kept)) ∧ r' = Sys.survivor kept r := by
    intro r' hr'
    obtain ⟨r, hr, rfl⟩ := mem_map.mp hr'
    obtain ⟨hr, hst⟩ := mem_filter.mp hr
    exact ⟨r, hlog ▸ hr, by simpa using hst, rfl⟩
  have hle : kept ≤ (t.reopen kept gap).tail := (le_max_left _ _).trans (Nat.le_add_right _ _)
  have hstop : ∀ r ∈ (t.reopen kept gap).log, r.stop ≤ (t.reopen kept gap).tail := by
    intro r' hr'
    obtain ⟨r, hr, hst, rfl⟩ := hmem r' hr'
    refine le_trans ?_ hle
    exact hst.elim (fun hst => (h.stored r hr hst).trans hkept) fun hst => hst.2
  refine ⟨?_, ?_, fun r hr _ => hstop r hr, fun r hr _ => hstop r hr, fun r hr hne => ?_,
    fun _ => rfl, hdropped.trans h.dropped⟩
  · have hmap : (t.reopen kept gap).log.map Logged.seq = (s.log.filter fun r =>
        r.stored || (r.inLog && decide (r.stop ≤ kept))).map Logged.seq := by
      rw [← hlog]
      exact map_map
    rw [hmap]
    exact h.nodup.sublist (List.filter_sublist.map _)
  · have hfilter := h.order.sublist (List.filter_sublist (l := s.log)
      (p := fun r => r.stored || (r.inLog && decide (r.stop ≤ kept))))
    rw [← hlog] at hfilter
    exact pairwise_map.mpr hfilter
  · exact absurd rfl hne

end Durable

variable {s t : Sys} {a : Act}

theorem durable_step (h : Durable s) (hinv : Inv s) (hall : a.keepsAll = true) (hst : Step s a t) :
    Durable t := by
  have hlive : ∀ ns, ns ∉ s.dropped := by simp [h.dropped]
  -- a flush that moves on has checked the log before
  have hmoves : ∀ {ns : ℕ} {x : Flushing}, s.flushing ns ≠ none →
      ∀ r ∈ s.log, (s.setFlushing ns (some x)).flushing r.ns ≠ none →
        r.stage = .applied (s.flushed r.ns) → r.stop ≤ s.durable := by
    intro ns x hns r hr hne
    refine h.flushing r hr ?_
    by_cases heq : r.ns = ns
    · exact heq ▸ hns
    · rwa [Sys.flushing_setFlushing, update_of_ne heq] at hne
  cases hst with
  | @append ns seq start len hopen hfree htail hlen =>
    have hstop : ∀ r ∈ s.log, r.stop ≤ s.tail := fun r hr => h.stop_le r hr (hfree r hr).1
    have hmem : ∀ r ∈ s.log ++ [(⟨seq, ns, start, start + len, .appended, true, false, true⟩ :
        Logged)], r ∈ s.log ∨ r = ⟨seq, ns, start, start + len, .appended, true, false, true⟩ :=
      fun r hr => (List.mem_append.mp hr).imp_right mem_singleton.mp
    refine ⟨?_, ?_, ?_, ?_, ?_, h.replaying, h.dropped⟩
    · simp only [List.map_append, List.map_cons, List.map_nil]
      refine h.nodup.append (List.nodup_singleton _) fun x hx hx' => ?_
      obtain ⟨r, hr, rfl⟩ := mem_map.mp hx
      exact (hfree r hr).2 (mem_singleton.mp hx')
    · refine List.pairwise_append.mpr ⟨h.order, List.pairwise_singleton _ _, fun a ha b hb => ?_⟩
      obtain rfl := mem_singleton.mp hb
      exact (hstop a ha).trans htail
    · intro r hr hstage
      obtain hr | rfl := hmem r hr
      · exact hstop r hr
      · exact absurd rfl hstage
    · intro r hr hst
      obtain hr | rfl := hmem r hr
      · exact h.stored r hr hst
      · cases hst
    · intro r hr hfl hstage
      obtain hr | rfl := hmem r hr
      · exact h.flushing r hr hfl hstage
      · cases hstage
  | @publish r hr hstage =>
    obtain ⟨htail, -⟩ := hinv.writers.appended r hr hstage
    have hlt := hinv.writers.lt r hr
    have hone : ∀ a ∈ s.log, a.seq ≠ r.seq → a.stage ≠ .appended := fun a ha hne hsa =>
      hne (hinv.writers.one a ha r hr hsa hstage)
    have hseqs : ((s.set { r with stage := .published }).log.map Logged.seq) =
        s.log.map Logged.seq := by
      simp only [Sys.set, map_map]
      refine map_congr_left fun a ha => ?_
      simp only [comp]
      split_ifs with heq
      · exact heq.symm
      · rfl
    refine ⟨hseqs ▸ h.nodup, ?_, ?_, ?_, ?_, ?_, h.dropped⟩
    · refine pairwise_map.mpr (h.order.imp_of_mem fun {a b} ha hb hab => ?_)
      have hsame : ∀ a ∈ s.log, (if a.seq = r.seq then { r with stage := .published } else a).start =
          a.start ∧ (if a.seq = r.seq then { r with stage := .published } else a).stop = a.stop := by
        intro a ha
        split_ifs with heq
        · obtain rfl := List.inj_on_of_nodup_map h.nodup ha hr heq
          exact ⟨rfl, rfl⟩
        · exact ⟨rfl, rfl⟩
      dsimp only
      rw [(hsame a ha).2, (hsame b hb).1]
      exact hab
    · intro a ha hsa
      obtain rfl | ⟨ha, hne⟩ := mem_set ha
      · exact le_rfl
      · exact ((h.stop_le a ha (hone a ha hne)).trans htail).trans hlt.le
    · intro a ha hst
      obtain rfl | ⟨ha, -⟩ := mem_set ha
      · exact h.stored r hr hst
      · exact h.stored a ha hst
    · intro a ha hfl hsa
      obtain rfl | ⟨ha, -⟩ := mem_set ha
      · cases hsa
      · exact h.flushing a ha hfl hsa
    · intro hrec
      exact absurd (hinv.writers.replaying hrec r hr) (by rw [hstage]; exact Stage.noConfusion)
  | @track r hr hstage =>
    exact h.set hr rfl rfl rfl rfl rfl (by simp [hstage]) .inl (fun _ hs => by cases hs) rfl rfl
      rfl rfl rfl rfl
  | @apply r hr hstage hfree =>
    refine h.set hr rfl rfl rfl rfl rfl (by simp [hstage]) .inl (fun hfl hs => ?_) rfl rfl rfl rfl
      rfl rfl
    have hlt := hinv.flushes.lt r.ns hfl
    exact absurd (Stage.applied.inj hs) hlt.ne'
  | @release r hr hstage =>
    exact h.set hr rfl rfl rfl rfl rfl .rfl .inl (h.flushing r hr) rfl rfl rfl rfl rfl rfl
  | @store r hr hplace =>
    refine h.set hr rfl rfl rfl rfl rfl .rfl (fun _ => .inr ?_) (h.flushing r hr) rfl rfl rfl rfl
      rfl rfl
    obtain ⟨hfl, hs⟩ | ⟨hrec, -⟩ := hplace
    · exact h.flushing r hr (by simp [hfl]) hs
    · rw [h.replaying hrec]
      exact h.stop_le r hr (by rw [hinv.writers.replaying hrec r hr]; exact Stage.noConfusion)
  | @sync upTo hle =>
    refine h.map (f := id) (map_id _).symm (fun r hr => ?_) rfl (le_max_left _ _)
      (fun hrec => ?_) rfl
    · exact ⟨rfl, rfl, rfl, rfl, .rfl, .inl, fun hfl hs =>
        (h.flushing r hr hfl hs).trans (le_max_left _ _)⟩
    · have heq := h.replaying hrec
      dsimp only
      rw [heq]
      exact max_eq_left hle
  | @flushCheck ns hfree hlt hdurable =>
    refine h.same rfl rfl rfl id rfl fun r hr hne hs => ?_
    by_cases heq : r.ns = ns
    · obtain ⟨l, hl, hstop⟩ := hinv.writers.last r hr (hlive _) (.inr (.inl (by
        rw [hs]
        rfl)))
      exact hstop.trans (hdurable l (heq ▸ hl))
    · rw [Sys.flushing_setFlushing, update_of_ne heq] at hne
      exact h.flushing r hr hne hs
  | @written ns hns hstored => exact h.same rfl rfl rfl id rfl (hmoves (by simp [hns]))
  | abandon hns => exact h.unstore rfl rfl rfl rfl rfl rfl rfl
  | @mark ns hns hfree => exact h.same rfl rfl rfl id rfl (hmoves (by simp [hns]))
  | @markUntracked ns hns hfree hnone => exact h.register ns rfl rfl rfl rfl rfl rfl rfl
  | @finish e he hdone =>
    obtain ⟨job, phase⟩ := e
    cases job with
    | written ns => exact h.register ns rfl rfl rfl rfl rfl rfl rfl
    | forget => exact h.same rfl rfl rfl id rfl h.flushing
  | @undo e keep he hfailed =>
    obtain ⟨job, phase⟩ := e
    cases job with
    | written ns => exact h.unstore rfl rfl rfl rfl rfl rfl rfl
    | forget => exact h.same rfl rfl rfl id rfl h.flushing
  | drop => cases hall
  | collect hle =>
    refine h.map rfl (fun r hr => ?_) rfl le_rfl h.replaying rfl
    split_ifs
    · exact ⟨rfl, rfl, rfl, rfl, .rfl, .inl, h.flushing r hr⟩
    · exact ⟨rfl, rfl, rfl, rfl, .rfl, .inl, h.flushing r hr⟩
  | crash hkept => exact h.reopen rfl rfl hkept _
  | @retireFails renamed kept gap hopen hfree hflushed hkept =>
    exact h.reopen (t := { s with marker := if renamed then s.raised.progress s.tail
                                            else s.marker }) rfl rfl hkept gap
  | retireNone | retireSame | retire =>
    exact h.same rfl rfl rfl (fun hrec => Bool.noConfusion hrec) rfl h.flushing
  | _ => exact h.same rfl rfl rfl id rfl h.flushing

theorem durable_init : Durable init :=
  ⟨List.nodup_nil, List.Pairwise.nil, nofun,
    nofun, nofun, fun _ => rfl,
    rfl⟩

/-! ### The prefix -/

/-- What a record says and where it lies. -/
def Logged.write (r : Logged) : ℕ × ℕ × ℕ × ℕ := (r.ns, r.seq, r.start, r.stop)

theorem filter_stop_le {l : List Logged} (hlt : ∀ r ∈ l, r.start < r.stop)
    (horder : l.Pairwise fun a b => a.stop ≤ b.start) (kept : ℕ) :
    ∃ n, (l.filter fun r => decide (r.stop ≤ kept)) = l.take n := by
  induction l with
  | nil => exact ⟨0, rfl⟩
  | cons a l ih =>
    obtain ⟨hhead, htail⟩ := List.pairwise_cons.mp horder
    by_cases hle : a.stop ≤ kept
    · obtain ⟨n, hn⟩ := ih (fun r hr => hlt r (List.mem_cons_of_mem _ hr)) htail
      exact ⟨n + 1, by rw [List.filter_cons_of_pos (by simpa using hle), hn, List.take_succ_cons]⟩
    · refine ⟨0, List.filter_eq_nil_iff.mpr fun r hr => ?_⟩
      obtain rfl | hr := List.mem_cons.mp hr
      · simpa using hle
      · have hafter := hhead r hr
        have hr' := hlt r (List.mem_cons_of_mem _ hr)
        simp only [decide_eq_true_eq]
        omega

/-- After a crash, the visible records are those below the position the crash has kept. -/
theorem visible_reopen (hinv : Inv s) (h : Durable s) {kept : ℕ} (gap : ℕ)
    (hkept : s.durable ≤ kept) :
    (s.reopen kept gap).visible =
        (s.log.filter fun r => decide (r.stop ≤ kept)).map (Sys.survivor kept) ∧
      (s.reopen kept gap).log = (s.reopen kept gap).visible := by
  have hlive : ∀ ns, ns ∉ s.dropped := by simp [h.dropped]
  have hkeep : ∀ r ∈ s.log, (r.stored || (r.inLog && decide (r.stop ≤ kept))) =
      decide (r.stop ≤ kept) := by
    intro r hr
    by_cases hle : r.stop ≤ kept
    · by_cases hst : r.stored = true
      · simp [hle, hst]
      · have hlog := (hinv.replayable r hr (hlive _) (by simp [Sys.inLevel0, hst])).1
        simp [hle, hlog]
    · have hst : r.stored = false :=
        Bool.eq_false_iff.mpr fun hst => hle ((h.stored r hr hst).trans hkept)
      simp [hle, hst]
  have hlog : (s.reopen kept gap).log =
      (s.log.filter fun r => decide (r.stop ≤ kept)).map (Sys.survivor kept) := by
    have hfilter := List.filter_congr hkeep
    exact congrArg (List.map (Sys.survivor kept)) hfilter
  have hall : (s.reopen kept gap).visible = (s.reopen kept gap).log := by
    refine List.filter_eq_self.mpr fun r' hr' => ?_
    rw [hlog] at hr'
    obtain ⟨r, hr, rfl⟩ := mem_map.mp hr'
    obtain ⟨hr, hle⟩ := mem_filter.mp hr
    have hdropped : (s.reopen kept gap).dropped = [] := h.dropped
    by_cases hst : r.stored = true
    · simp [Sys.survivor, hdropped, hst]
    · obtain ⟨hin, hfrom, -⟩ := hinv.replayable r hr (hlive _) (by simp [Sys.inLevel0, hst])
      have hreplays : (s.reopen kept gap).replays (Sys.survivor kept r) = true := by
        simp only [Sys.replays, Bool.and_eq_true, decide_eq_true_eq]
        refine ⟨?_, by simp [hdropped], hfrom⟩
        simpa [Sys.survivor, hin] using hle
      simp [hdropped, hreplays]
  exact ⟨hall.trans hlog, hall.symm⟩

/-- An action of recovery before its end. -/
def Act.recovers : Act → Bool
  | .retire | .drop _ | .crash _ _ | .retireFails _ _ _ | .save .halfway => false
  | _ => true

theorem writes_step (h : Durable s) (hopen : s.recovering = true) (ha : a.recovers = true)
    (hst : Step s a t) : t.recovering = true ∧ t.log.map Logged.write = s.log.map Logged.write := by
  have hset : ∀ {r r' : Logged}, r ∈ s.log → r'.seq = r.seq → r'.write = r.write →
      (s.set r').log.map Logged.write = s.log.map Logged.write := by
    intro r r' hr hseq hwrite
    simp only [Sys.set, map_map]
    refine map_congr_left fun a ha => ?_
    simp only [comp]
    split_ifs with heq
    · obtain rfl := List.inj_on_of_nodup_map h.nodup ha hr (heq.trans hseq)
      exact hwrite
    · rfl
  have hunstore : ∀ ns keep, (s.unstore ns keep).log.map Logged.write =
      s.log.map Logged.write := by
    intro ns keep
    simp only [Sys.unstore, map_map]
    refine map_congr_left fun a _ => ?_
    simp only [comp]
    split_ifs <;> rfl
  cases hst with
  | append hclosed => exact absurd (hclosed.symm.trans hopen) Bool.noConfusion
  | publish hr hstage | track hr hstage | apply hr hstage hfree | release hr hstage
    | store hr hplace => exact ⟨hopen, hset hr rfl rfl⟩
  | abandon => exact ⟨hopen, hunstore _ _⟩
  | @finish e he hdone =>
    obtain ⟨job, phase⟩ := e
    cases job <;> exact ⟨hopen, rfl⟩
  | @undo e keep he hfailed =>
    obtain ⟨job, phase⟩ := e
    cases job with
    | written ns => exact ⟨hopen, hunstore _ _⟩
    | forget => exact ⟨hopen, rfl⟩
  | collect =>
    refine ⟨hopen, ?_⟩
    simp only [map_map]
    refine map_congr_left fun a _ => ?_
    simp only [comp]
    split_ifs <;> rfl
  | drop | crash | retireFails | retireNone | retireSame | retire => cases ha
  | _ => exact ⟨hopen, rfl⟩

/-- The action neither drops a namespace nor writes a marker halfway. -/
def Act.plain (a : Act) : Bool := a.careful && a.keepsAll

theorem survivors_run {as : List Act} (hinv : Inv s) (h : Durable s)
    (hplain : ∀ a ∈ as, a.plain = true) (hrun : run step s as = some t) : Inv t ∧ Durable t := by
  have hstep : ∀ u a w, Inv u ∧ Durable u → a.plain = true → step u a = some w →
      Inv w ∧ Durable w := by
    rintro u a w ⟨hu, hd⟩ hq hst
    obtain ⟨hcareful, hall⟩ := (Bool.and_eq_true _ _).mp hq
    exact ⟨inv_step hu hcareful (step_cases hst), durable_step hd hu hall (step_cases hst)⟩
  exact invariant_of_mem hstep ⟨hinv, h⟩ hplain hrun

/-- **What survives a crash is a prefix.** In a run in which no marker is written halfway, a crash
leaves visible the first records of the log, all that were synced among them; the recovery that
follows brings just these into level 0. -/
theorem prefix_survives {as : List Act} {s t : Sys} {kept gap : ℕ}
    (hrun : run step init as = some s) (hplain : ∀ a ∈ as, a.plain = true)
    (hcrash : step s (.crash kept gap) = some t) :
    ∃ n, t.visible.map Logged.write = (s.log.take n).map Logged.write ∧
      (∀ r ∈ s.log, r.stop ≤ s.durable → r ∈ s.log.take n) ∧
      ∀ bs u, (∀ b ∈ bs, b.recovers = true) → run step t (bs ++ [.retire]) = some u →
        u.log.map Logged.write = t.visible.map Logged.write ∧
          ∀ r ∈ u.log, u.inLevel0 r = true := by
  obtain ⟨hinv, h⟩ := survivors_run inv_init durable_init hplain hrun
  cases step_cases hcrash with
  | crash hkept =>
    obtain ⟨hvisible, hlog⟩ := visible_reopen hinv h gap hkept
    obtain ⟨n, hn⟩ := filter_stop_le hinv.writers.lt h.order kept
    refine ⟨n, ?_, fun r hr hle => ?_, fun bs u hbs hrec => ?_⟩
    · rw [hvisible, hn, map_map]
      rfl
    · rw [← hn]
      exact mem_filter.mpr ⟨hr, decide_eq_true (hle.trans hkept)⟩
    · obtain ⟨v, hv, hlast⟩ := exists_of_run_append hrec
      obtain ⟨u', hu, huu⟩ := Option.bind_eq_some_iff.mp hlast
      obtain rfl := Option.some.inj huu
      have hcareful : ∀ b : Act, b.recovers = true → b.plain = true := by
        intro b hb
        cases b with
        | save outcome => cases outcome <;> first | rfl | cases hb
        | drop => cases hb
        | _ => rfl
      have hstep : ∀ w b x, (Inv w ∧ Durable w) ∧ w.recovering = true ∧
          w.log.map Logged.write = (s.reopen kept gap).log.map Logged.write →
          b.recovers = true → step w b = some x → (Inv x ∧ Durable x) ∧ x.recovering = true ∧
          x.log.map Logged.write = (s.reopen kept gap).log.map Logged.write := by
        rintro w b x ⟨⟨hw, hd⟩, hopen, hwrites⟩ hq hst
        obtain ⟨hc, hk⟩ := (Bool.and_eq_true _ _).mp (hcareful b hq)
        obtain ⟨hopen', hsame⟩ := writes_step hd hopen hq (step_cases hst)
        exact ⟨⟨inv_step hw hc (step_cases hst), durable_step hd hw hk (step_cases hst)⟩, hopen',
          hsame.trans hwrites⟩
      have hstart : Inv (s.reopen kept gap) ∧ Durable (s.reopen kept gap) :=
        ⟨inv_step hinv rfl (.crash hkept), durable_step h hinv rfl (.crash hkept)⟩
      obtain ⟨⟨hinvv, hdv⟩, hopen, hwrites⟩ := invariant_of_mem hstep ⟨hstart, rfl, rfl⟩ hbs hv
      have hlive : ∀ ns, ns ∉ v.dropped := by simp [hdv.dropped]
      have hflushed : v.replayFlushed = true := by
        cases step_cases hu with
        | retireNone _ _ hflushed => exact hflushed
        | retireSame _ _ hflushed => exact hflushed
        | retire _ _ hflushed => exact hflushed
      have hsame : u'.log = v.log := by
        cases step_cases hu <;> rfl
      refine ⟨by rw [hsame, hwrites, hlog], fun r hr => ?_⟩
      rw [hsame] at hr
      have hstored := hinvv.saves.all_stored hinvv.writers hinvv.flushes hopen hflushed r hr
        (hlive _)
      simp [Sys.inLevel0, hstored, hinvv.writers.replaying hopen r hr]

/-- Two namespaces are written to, and one of them flushes; the last write is not synced. -/
def flushedBehind : List Act :=
  .retire :: write 1 0 28 ++ write 2 1 38 ++ [Act.sync 48] ++ flushToMark 2 1 ++ eventToSave 2 ++
    [Act.save .ok, .finish] ++ write 1 2 48

theorem prefix_survives_flushedBehind : ∃ s t n, run step init flushedBehind = some s ∧
    step s (.crash 50 0) = some t ∧
    t.visible.map Logged.write = (s.log.take n).map Logged.write ∧
    t.visible.map Logged.write = [(1, 0, 28, 38), (2, 1, 38, 48)] := by
  have hend : ((run step init flushedBehind).bind fun s =>
      (step s (.crash 50 0)).map fun t => t.visible.map Logged.write) =
        some [(1, 0, 28, 38), (2, 1, 38, 48)] := by
    decide +kernel
  obtain ⟨s, hrun, hs⟩ := Option.bind_eq_some_iff.mp hend
  obtain ⟨t, hcrash, ht⟩ := Option.map_eq_some_iff.mp hs
  obtain ⟨n, hn, -⟩ := prefix_survives hrun (by decide) hcrash
  exact ⟨s, t, n, hrun, hcrash, hn, ht⟩

/-- **A marker that takes effect and fails loses a write that was synced**, once the log is opened
again. -/
theorem not_prefix_survives_halfway :
    ¬ ∀ (as : List Act) (s t : Sys) (kept gap : ℕ), run step init as = some s →
      (∀ a ∈ as, a.keepsAll = true) → step s (.crash kept gap) = some t →
      ∃ n, t.visible.map Logged.write = (s.log.take n).map Logged.write ∧
        ∀ r ∈ s.log, r.stop ≤ s.durable → r ∈ s.log.take n := by
  intro hall
  have hend : ((run step init halfway).bind fun s => (step s (.crash 38 0)).map fun t =>
      decide (t.visible.map Logged.write = [] ∧ s.log.map Logged.write = [(1, 0, 28, 38)] ∧
        s.durable = 38)) = some true := by
    decide +kernel
  obtain ⟨s, hrun, hs⟩ := Option.bind_eq_some_iff.mp hend
  obtain ⟨t, hcrash, ht⟩ := Option.map_eq_some_iff.mp hs
  obtain ⟨hvisible, hlog, hdurable⟩ := of_decide_eq_true ht
  obtain ⟨n, hn, hsynced⟩ := hall halfway s t 38 0 hrun (by decide) hcrash
  obtain ⟨r, hr, hwrite⟩ := mem_map.mp (hlog ▸ List.mem_singleton_self (1, 0, 28, 38))
  have hstop : r.stop = 38 := congrArg (fun w => w.2.2.2) hwrite
  have hmem := List.mem_map_of_mem (f := Logged.write) (hsynced r hr (by rw [hstop, hdurable]))
  rw [← hn, hvisible] at hmem
  cases hmem

end VectorWal

end Minnal
