import Minnal.Db.WalProgress

/-!
# What the retirement of the main WAL keeps

A saved position **covers** a namespace when every write of the namespace below it is in level 0.
The invariant says so of everything that is saved or may be: the safe offsets, the seal records,
the progress a save has cloned and the snapshot it computes.

Two schedules break it. A write may be noted and applied after a save cloned the progress and drop
its registration before the save reads the writes in flight: it is then in neither, and the cut
passes it. And a flush that ran ahead of its memtable's seal record takes the record with it when
it is undone, so a retry takes the ceiling of its own time. `raceFree` is the condition on a step
that excludes both. A write whose apply failed drops its registration too, so the next seal of
its namespace passes it; `keepsFailed` excludes that.
-/

set_option linter.dupNamespace false

namespace Minnal

open StepRun Function
open List (mem_filter mem_cons_of_mem mem_map mem_singleton mem_cons_self mem_append mem_cons)

variable {s t : Sys} {start tail n ns c v : ℕ} {w : Logged} {a : Act} {log log' : List Logged}
  {progress : NsProgress} {x : Sealing} {r : WalFlushState} {fresh : Bool}

namespace WalProgress

open SegmentedLog (Progress)

/-! ### Conditions on a step -/

/-- The progress knows of the write. -/
def noted (progress : NsProgress) (w : Logged) : Bool :=
  progress.any fun e => decide (e.1 = w.ns ∧ w.stop ≤ e.2.lastWriteOffset)

/-- **No race.** A write is released only when no save stands between a clone that misses the
write and its reading of the writes in flight, unless that save read the tail before the write.
A flush without a seal record is prepared only while the memtable's seal is under way. A save
that is aborted is put back. -/
def raceFree (s : Sys) : Act → Bool
  | .release start =>
    match s.find start, s.saving with
    | some w, some (.cloned _ progress) => decide (w.ns ∈ s.dropped) || noted progress w
    | some w, some (.tailRead _ progress tail) =>
      decide (w.ns ∈ s.dropped) || noted progress w || decide (tail ≤ w.start)
    | _, _ => true
  | .mark ns =>
    (s.sealRecord ns (s.flushed ns)).isSome ||
      decide ((s.sealing ns).map Sealing.version = some (s.flushed ns))
  | .abort ok => ok
  | _ => true

/-- **No failed write is passed.** The ceiling a seal reads, or a flush without a seal record
uses, is at or below every failed write of its namespace. -/
def keepsFailed (s : Sys) : Act → Bool
  | .sealReadInFlight ns =>
    match s.sealing ns with
    | some (.tailRead _ tail) =>
      decide (ns ∈ s.dropped) || s.log.all fun w =>
        decide (w.ns = ns → w.stage = .failed → walCutCeiling tail s.inFlight ≤ w.start)
    | _ => true
  | .mark ns =>
    match s.flushing ns with
    | some (.ceiling c) =>
      decide (ns ∈ s.dropped) || (s.sealRecord ns (s.flushed ns)).isSome || s.log.all fun w =>
        decide (w.ns = ns → w.stage = .failed → c ≤ w.start)
    | _ => true
  | _ => true

/-! ### How the log grows -/

/-- Applied, or given up for good. -/
def Stage.final : Stage → Bool
  | .applied _ => true
  | .failed => true
  | _ => false

/-- The log has grown: what was final is as it was, and what is new starts at the old tail. -/
def Follows (tail : ℕ) (log log' : List Logged) : Prop :=
  ∀ w' ∈ log', (∃ w ∈ log, w.ns = w'.ns ∧ w.start = w'.start ∧
    (w.stage.final = true → w'.stage = w.stage)) ∨ tail ≤ w'.start

theorem Follows.refl (tail : ℕ) (log : List Logged) : Follows tail log log :=
  fun w hw => .inl ⟨w, hw, rfl, rfl, fun _ => rfl⟩

theorem find_mem (h : s.find start = some w) : w ∈ s.log ∧ w.start = start :=
  ⟨List.mem_of_find?_eq_some h, by simpa using List.find?_some h⟩

theorem mem_set {a : Logged} (h : a ∈ (s.set start w).log) :
    a = w ∨ a ∈ s.log ∧ a.start ≠ start := by
  obtain ⟨b, hb, rfl⟩ := mem_map.mp h
  by_cases hstart : b.start = start
  · exact .inl (if_pos hstart)
  · rw [if_neg hstart]
    exact .inr ⟨hb, hstart⟩

/-- A write that is replaced keeps its place. -/
theorem ordered_set (h : w.start = start) (hlog : (s.log.map Logged.start).Pairwise (· < ·)) :
    ((s.set start w).log.map Logged.start).Pairwise (· < ·) := by
  have hsame : (s.set start w).log.map Logged.start = s.log.map Logged.start := by
    rw [Sys.set, List.map_map]
    refine List.map_congr_left fun a _ => ?_
    by_cases hstart : a.start = start
    · rw [comp_apply, if_pos hstart, h, hstart]
    · rw [comp_apply, if_neg hstart]
  rwa [hsame]

theorem Follows.set {w' : Logged} (hw : s.find start = some w) (hns : w.ns = w'.ns)
    (hstart : w.start = w'.start) (hfinal : w.stage.final = true → w'.stage = w.stage) :
    Follows tail s.log (s.set start w').log := by
  intro a ha
  obtain rfl | ⟨ha, -⟩ := mem_set ha
  · exact .inl ⟨w, (find_mem hw).1, hns, hstart, hfinal⟩
  · exact Follows.refl tail s.log a ha

theorem Follows.move (hw : s.find start = some w) (hopen : w.stage.final = false) (stage : Stage) :
    Follows tail s.log (s.move w stage).log := by
  have hfind : s.find w.start = some w := (find_mem hw).2.symm ▸ hw
  exact Follows.set hfind rfl rfl fun hfinal => absurd hfinal (by simp [hopen])

theorem follows_step (h : Step s a t) : s.tail ≤ t.tail ∧ Follows s.tail s.log t.log := by
  cases h with
  | append hstart hlen =>
    refine ⟨by simp only; omega, fun w hw => ?_⟩
    rcases mem_append.mp hw with hw | hw
    · exact Follows.refl _ _ w hw
    · obtain rfl := mem_singleton.mp hw
      exact .inr hstart
  | note hw hstage | sync hw hstage | apply hw hstage hfree | failApply hw hstage
    | refuse hw hstage hdropped => exact ⟨le_rfl, Follows.move hw (by rw [hstage]; rfl) _⟩
  | release hw happended hnoted hsynced =>
    exact ⟨le_rfl, Follows.set hw rfl rfl fun _ => rfl⟩
  | _ => exact ⟨le_rfl, Follows.refl _ _⟩

/-! ### Positions that cover a namespace -/

/-- Every write of the namespace below `c` is at such a stage. -/
def Below (ok : Stage → Prop) (log : List Logged) (ns c : ℕ) : Prop :=
  ∀ w ∈ log, w.ns = ns → w.start < c → ok w.stage

/-- In a memtable below version `n`. -/
def InVersions (n : ℕ) (st : Stage) : Prop := ∃ v < n, st = .applied v

/-- In a memtable below version `n`, or failed. -/
def Settled (n : ℕ) (st : Stage) : Prop := InVersions n st ∨ st = .failed

theorem InVersions.final {st : Stage} (h : InVersions n st) : st.final = true := by
  obtain ⟨v, -, rfl⟩ := h
  rfl

theorem Settled.final {st : Stage} (h : Settled n st) : st.final = true := by
  obtain h | rfl := h
  · exact h.final
  · rfl

/-- A position that covers a namespace goes on covering it. -/
theorem Below.follows {ok : Stage → Prop} (hok : ∀ st, ok st → st.final = true)
    (h : Below ok log ns c) (hc : c ≤ tail) (hlog : Follows tail log log') :
    Below ok log' ns c := by
  intro w' hw' hns hlt
  obtain ⟨w, hw, hwns, hwstart, hkeep⟩ | hnew := hlog w' hw'
  · have hst := h w hw (hwns.trans hns) (hwstart ▸ hlt)
    rw [hkeep (hok _ hst)]
    exact hst
  · omega

theorem Below.mono {m : ℕ} (hnm : n ≤ m) (h : Below (InVersions n) log ns c) :
    Below (InVersions m) log ns c := by
  intro w hw hns hlt
  obtain ⟨v, hv, hst⟩ := h w hw hns hlt
  exact ⟨v, hv.trans_le hnm, hst⟩

/-- The higher of two positions that cover a namespace covers it. -/
theorem Below.max {ok : Stage → Prop} {d : ℕ} (hc : Below ok log ns c) (hd : Below ok log ns d) :
    Below ok log ns (max c d) := by
  intro w hw hns hlt
  obtain hlt | hlt := lt_max_iff.mp hlt
  · exact hc w hw hns hlt
  · exact hd w hw hns hlt

theorem Below.zero (ok : Stage → Prop) (log : List Logged) (ns : ℕ) : Below ok log ns 0 :=
  fun _ _ _ h => absurd h (Nat.not_lt_zero _)

/-! ### The progress map -/

theorem noted_iff :
    noted progress w = true ↔ ∃ e ∈ progress, e.1 = w.ns ∧ w.stop ≤ e.2.lastWriteOffset := by
  simp [noted]

theorem mem_entry {f : NsFlushProgress → NsFlushProgress} {e : ℕ × NsFlushProgress}
    (h : e ∈ entry ns f progress) :
    e ∈ progress ∨ ∃ p, e = (ns, f p) ∧ ((ns, p) ∈ progress ∨ p = .default) := by
  induction progress with
  | nil =>
    obtain rfl := mem_singleton.mp h
    exact .inr ⟨_, rfl, .inr rfl⟩
  | cons x rest ih =>
    obtain ⟨n, p⟩ := x
    rw [entry] at h
    split_ifs at h with hn
    · subst hn
      rcases mem_cons.mp h with rfl | h
      · exact .inr ⟨p, rfl, .inl mem_cons_self⟩
      · exact .inl (mem_cons_of_mem _ h)
    · rcases mem_cons.mp h with rfl | h
      · exact .inl mem_cons_self
      · obtain h | ⟨q, rfl, hq⟩ := ih h
        · exact .inl (mem_cons_of_mem _ h)
        · exact .inr ⟨q, rfl, hq.imp_left (mem_cons_of_mem _)⟩

theorem exists_mem_entry (ns : ℕ) (f : NsFlushProgress → NsFlushProgress)
    (progress : NsProgress) : ∃ p, (ns, f p) ∈ entry ns f progress := by
  induction progress with
  | nil => exact ⟨_, mem_singleton.mpr rfl⟩
  | cons x rest ih =>
    obtain ⟨n, p⟩ := x
    rw [entry]
    split_ifs with hn
    · exact ⟨p, hn ▸ mem_cons_self⟩
    · obtain ⟨q, hq⟩ := ih
      exact ⟨q, mem_cons_of_mem _ hq⟩

/-- An entry is kept, or changed. -/
theorem mem_entry_of_mem (ns : ℕ) (f : NsFlushProgress → NsFlushProgress) {e : ℕ × NsFlushProgress}
    (h : e ∈ progress) : e ∈ entry ns f progress ∨ (e.1, f e.2) ∈ entry ns f progress := by
  induction progress with
  | nil => cases h
  | cons x rest ih =>
    obtain ⟨n, p⟩ := x
    rw [entry]
    split_ifs with hn
    · rcases mem_cons.mp h with rfl | h
      · exact .inr mem_cons_self
      · exact .inl (mem_cons_of_mem _ h)
    · rcases mem_cons.mp h with rfl | h
      · exact .inl mem_cons_self
      · exact (ih h).imp (mem_cons_of_mem _) (mem_cons_of_mem _)

theorem noted_entry {f : NsFlushProgress → NsFlushProgress} (h : noted progress w = true)
    (hf : ∀ p, p.lastWriteOffset ≤ (f p).lastWriteOffset) :
    noted (entry ns f progress) w = true := by
  obtain ⟨e, he, hns, hstop⟩ := noted_iff.mp h
  obtain he' | he' := mem_entry_of_mem ns f he
  · exact noted_iff.mpr ⟨e, he', hns, hstop⟩
  · exact noted_iff.mpr ⟨_, he', hns, hstop.trans (hf e.2)⟩

theorem noted_raise (job : Job) (h : noted progress w = true) :
    noted (job.raise progress) w = true := by
  cases job with
  | written ns v fresh folded newSafe previous =>
    rw [Job.raise]
    split_ifs
    · exact noted_entry h fun _ => le_rfl
    · exact h
  | forget => exact h

/-! ### Writers -/

/-- What holds of the writes and their registrations. -/
structure Writers (s : Sys) : Prop where
  tail_pos : 0 < s.tail
  inFlight_pos : ∀ x ∈ s.inFlight, 0 < x
  /-- The log is in order. -/
  ordered : (s.log.map Logged.start).Pairwise (· < ·)
  start_lt : ∀ w ∈ s.log, w.start < w.stop
  stop_le : ∀ w ∈ s.log, w.stop ≤ s.tail
  /-- A registered write is in flight. -/
  inFlight : ∀ w ∈ s.log, w.registered = true → w.start ∈ s.inFlight
  /-- A write that is not registered has been applied, or has failed. -/
  settled : ∀ w ∈ s.log, w.registered = false → w.ns ∉ s.dropped → w.stage.final = true
  refused : ∀ w ∈ s.log, w.stage = .refused → w.ns ∈ s.dropped
  noted : ∀ w ∈ s.log, w.stage ≠ .appended → w.ns ∉ s.dropped → noted s.progress w = true
  /-- While a seal holds its lock, the active memtable is empty. -/
  version : ∀ w ∈ s.log, ∀ v, w.stage = .applied v →
    v < s.version w.ns ∨ v = s.version w.ns ∧ s.sealing w.ns = none

/-- What holds of one write. -/
structure WriteOk (s : Sys) (w : Logged) : Prop where
  start_lt : w.start < w.stop
  stop_le : w.stop ≤ s.tail
  inFlight : w.registered = true → w.start ∈ s.inFlight
  settled : w.registered = false → w.ns ∉ s.dropped → w.stage.final = true
  refused : w.stage = .refused → w.ns ∈ s.dropped
  noted : w.stage ≠ .appended → w.ns ∉ s.dropped → WalProgress.noted s.progress w = true
  version : ∀ v, w.stage = .applied v →
    v < s.version w.ns ∨ v = s.version w.ns ∧ s.sealing w.ns = none

theorem Writers.writeOk (h : Writers s) (hw : w ∈ s.log) : WriteOk s w :=
  ⟨h.start_lt w hw, h.stop_le w hw, h.inFlight w hw, h.settled w hw, h.refused w hw, h.noted w hw,
    h.version w hw⟩

theorem Writers.of_writeOk (htail : 0 < s.tail) (hinFlight : ∀ x ∈ s.inFlight, 0 < x)
    (hordered : (s.log.map Logged.start).Pairwise (· < ·)) (hok : ∀ w ∈ s.log, WriteOk s w) :
    Writers s :=
  ⟨htail, hinFlight, hordered, fun w hw => (hok w hw).start_lt, fun w hw => (hok w hw).stop_le,
    fun w hw => (hok w hw).inFlight, fun w hw => (hok w hw).settled,
    fun w hw => (hok w hw).refused, fun w hw => (hok w hw).noted, fun w hw => (hok w hw).version⟩

/-- A writer moves on: what holds of its write after the move, holds of every write. -/
theorem Writers.move (h : Writers s) {stage : Stage} (hw : s.find start = some w)
    (hopen : w.stage ≠ .appended) (hnfinal : w.stage.final = false)
    (hrefused : stage = .refused → w.ns ∈ s.dropped)
    (hversion : ∀ v, stage = .applied v → v = s.version w.ns ∧ s.sealing w.ns = none) :
    Writers (s.move w stage) := by
  obtain ⟨hmem, -⟩ := find_mem hw
  refine .of_writeOk h.tail_pos h.inFlight_pos (ordered_set rfl h.ordered) fun a ha => ?_
  obtain rfl | ⟨ha, -⟩ := mem_set ha
  · exact { h.writeOk hmem with
      settled := fun hreg hns => absurd (h.settled w hmem hreg hns) (by simp [hnfinal])
      refused := hrefused
      noted := fun _ => h.noted w hmem hopen
      version := fun v hst => .inr (hversion v hst) }
  · exact { h.writeOk ha with }

/-- A seal that holds the lock moves on. -/
theorem Writers.setSealing (h : Writers s) (hns : s.sealing ns = some x) (y : Option Sealing) :
    Writers (s.setSealing ns y) := by
  refine { h with version := fun w hw v hst => ?_ }
  have hold := h.version w hw v hst
  by_cases hwns : w.ns = ns
  · rw [hwns, hns] at hold
    exact .inl (by simpa [hwns, Sys.setSealing] using hold)
  · simpa [Sys.setSealing, update_of_ne hwns] using hold

theorem writers_step (h : Writers s) (hst : Step s a t) : Writers t := by
  cases hst with
  | @append ns start len key value hstart hlen =>
    refine .of_writeOk (by simp only; omega) ?_ ?_ fun w hw => ?_
    · intro x hx
      rcases mem_cons.mp hx with rfl | hx
      · exact h.tail_pos.trans_le hstart
      · exact h.inFlight_pos x hx
    · rw [List.map_append, List.pairwise_append]
      refine ⟨h.ordered, List.pairwise_singleton _ _, fun x hx y hy => ?_⟩
      obtain ⟨w, hw, rfl⟩ := mem_map.mp hx
      obtain rfl := mem_singleton.mp hy
      exact (h.start_lt w hw).trans_le ((h.stop_le w hw).trans hstart)
    · rcases mem_append.mp hw with hw | hw
      · exact { h.writeOk hw with
          stop_le := (h.stop_le w hw).trans (hstart.trans (Nat.le_add_right _ _))
          inFlight := fun hreg => mem_cons_of_mem _ (h.inFlight w hw hreg) }
      · obtain rfl := mem_singleton.mp hw
        exact
          { start_lt := Nat.lt_add_of_pos_right hlen
            stop_le := le_rfl
            inFlight := fun _ => mem_cons_self
            settled := fun hreg => by cases hreg
            refused := fun hst => by cases hst
            noted := fun hst => absurd rfl hst
            version := fun v hst => by cases hst }
  | @note start w hw hstage =>
    obtain ⟨hmem, -⟩ := find_mem hw
    refine .of_writeOk h.tail_pos h.inFlight_pos (ordered_set rfl h.ordered) fun a ha => ?_
    obtain rfl | ⟨ha, -⟩ := mem_set ha
    · exact { h.writeOk hmem with
        settled := fun hreg hns =>
          absurd (h.settled w hmem hreg hns) (by simp [hstage, Stage.final])
        refused := fun hst => by cases hst
        noted := fun _ _ => by
          obtain ⟨p, hp⟩ := exists_mem_entry w.ns
            (fun p => { p with lastWriteOffset := max p.lastWriteOffset w.stop }) s.progress
          exact noted_iff.mpr ⟨_, hp, rfl, le_max_right _ _⟩
        version := fun v hst => by cases hst }
    · exact { h.writeOk ha with
        noted := fun hst hns => noted_entry (h.noted a ha hst hns) fun p => le_max_left _ _ }
  | @sync start w hw hstage =>
    exact h.move hw (by simp [hstage]) (by rw [hstage]; rfl) (by simp) (by simp)
  | @apply start w hw hstage hfree =>
    refine h.move hw (by simp [hstage]) (by rw [hstage]; rfl) (by simp) fun v hv => ?_
    exact ⟨(Stage.applied.inj hv).symm, hfree⟩
  | @failApply start w hw hstage =>
    exact h.move hw (by simp [hstage]) (by rw [hstage]; rfl) (by simp) (by simp)
  | @refuse start w hw hstage hdropped =>
    exact h.move hw (by simp [hstage]) (by rw [hstage]; rfl) (fun _ => hdropped) (by simp)
  | @release start w hw happended hnoted hsynced =>
    obtain ⟨hmem, hstart⟩ := find_mem hw
    refine .of_writeOk h.tail_pos (fun x hx => h.inFlight_pos x (List.mem_of_mem_erase hx))
      (ordered_set hstart h.ordered) fun a ha => ?_
    obtain rfl | ⟨ha, hne⟩ := mem_set ha
    · refine { h.writeOk hmem with
        inFlight := fun hreg => by cases hreg
        settled := fun _ hns => ?_ }
      have hrefused : w.stage ≠ .refused := fun hst => hns (h.refused w hmem hst)
      cases hst : w.stage <;> simp_all [Stage.final]
    · exact { h.writeOk ha with
        inFlight := fun hreg => (List.mem_erase_of_ne hne).mpr (h.inFlight a ha hreg) }
  | @swap ns hfree =>
    refine { h with version := fun w hw v hst => ?_ }
    have hold := h.version w hw v hst
    by_cases hns : w.ns = ns
    · rw [hns] at hold
      refine .inl ?_
      simp only [hns, update_self]
      omega
    · simpa [Sys.setSealing, update_of_ne hns] using hold
  | sealReadTail hns | sealReadInFlight hns | sealAgain hns hr => exact h.setSealing hns _
  | sealRecord hns hr => exact { h.setSealing hns none with }
  | @commit ns v newSafe fresh folded previous snapshot hsaving =>
    refine { h with noted := fun w hw hst hns => ?_ }
    exact noted_raise (.written ns v fresh folded newSafe previous) (h.noted w hw hst hns)
  | drop =>
    exact { h with
      settled := fun w hw hreg hns => h.settled w hw hreg fun hmem => hns (mem_cons_of_mem _ hmem)
      refused := fun w hw hst => mem_cons_of_mem _ (h.refused w hw hst)
      noted := fun w hw hst hns => h.noted w hw hst fun hmem => hns (mem_cons_of_mem _ hmem) }
  | @forget ns hfree hns =>
    refine { h with noted := fun w hw hst hwns => ?_ }
    obtain ⟨e, he, hens, hstop⟩ := noted_iff.mp (h.noted w hw hst hwns)
    have hne : e.1 ≠ ns := fun heq => hwns (hens ▸ heq ▸ hns)
    exact noted_iff.mpr ⟨e, mem_filter.mpr ⟨he, decide_eq_true hne⟩, hens, hstop⟩
  | _ => exact { h with }

/-! ### Ceilings -/

theorem walCutCeiling_le (tail : ℕ) (inFlight : List ℕ) : walCutCeiling tail inFlight ≤ tail := by
  rw [walCutCeiling]
  split
  · exact min_le_left _ _
  · exact le_rfl

theorem walCutCeiling_pos {inFlight : List ℕ} (htail : 0 < tail) (hpos : ∀ x ∈ inFlight, 0 < x) :
    0 < walCutCeiling tail inFlight := by
  rw [walCutCeiling]
  split
  · rename_i oldest hmin
    exact lt_min htail (hpos oldest (List.min?_mem hmin))
  · exact htail

/-- No write in flight is below the ceiling. -/
theorem notMem_of_lt_walCutCeiling {x : ℕ} {inFlight : List ℕ} (h : x < walCutCeiling tail inFlight)
    : x ∉ inFlight := by
  intro hmem
  rw [walCutCeiling] at h
  split at h
  · rename_i oldest hmin
    have hle := (List.min?_eq_some_iff.mp hmin).2 x hmem
    have hlt := lt_min_iff.mp h
    omega
  · rename_i hmin
    rw [List.min?_eq_none_iff] at hmin
    rw [hmin] at hmem
    cases hmem

/-- While a seal holds the memtable's lock, every write of the namespace below the ceiling is in
the memtable that is sealed or an older one, or has failed. -/
theorem Writers.below_ceiling (h : Writers s) (hns : s.sealing ns = some x)
    (hversion : s.version ns = x.version + 1) (hkept : ns ∉ s.dropped) (tail : ℕ) :
    Below (Settled (x.version + 1)) s.log ns (walCutCeiling tail s.inFlight) := by
  intro w hw hwns hlt
  have hreg : w.registered = false := by
    refine Bool.eq_false_iff.mpr fun hreg => ?_
    exact notMem_of_lt_walCutCeiling hlt (h.inFlight w hw hreg)
  have hfinal := h.settled w hw hreg (hwns ▸ hkept)
  cases hst : w.stage with
  | applied v =>
    have hv := h.version w hw v hst
    rw [hwns, hns, hversion] at hv
    exact .inl ⟨v, by simpa using hv, rfl⟩
  | failed => exact .inr rfl
  | _ => simp [hst, Stage.final] at hfinal

theorem Below.of_settled (h : Below (Settled n) log ns c)
    (hfailed : ∀ w ∈ log, w.ns = ns → w.stage = .failed → c ≤ w.start) :
    Below (InVersions n) log ns c := by
  intro w hw hns hlt
  obtain hin | hst := h w hw hns hlt
  · exact hin
  · exact absurd (hfailed w hw hns hst) (not_le.mpr hlt)

/-! ### Seal records -/

/-- What a save is for. -/
def Saving.job : Saving → Job
  | .marked job => job
  | .cloned job _ => job
  | .tailRead job _ _ => job
  | .computed job _ => job
  | .saved job _ => job

/-- The memtables that are in level 0 as far as a save is concerned, its own included. -/
def Job.levels (job : Job) (flushed : ℕ → ℕ) : ℕ → ℕ :=
  match job with
  | .written ns v _ _ _ _ => Function.update flushed ns (v + 1)
  | .forget => flushed

def Sys.levels (s : Sys) : ℕ → ℕ :=
  match s.saving with
  | some x => x.job.levels s.flushed
  | none => s.flushed

/-- What holds of seals, flushes and seal records. -/
structure Records (s : Sys) : Prop where
  sealing : ∀ ns x, s.sealing ns = some x → s.version ns = x.version + 1
  sealTail : ∀ ns v tail, s.sealing ns = some (.tailRead v tail) → 0 < tail ∧ tail ≤ s.tail
  sealCeiling : ∀ ns v c, s.sealing ns = some (.ceiling v c) →
    0 < c ∧ c ≤ s.tail ∧ (ns ∉ s.dropped → Below (InVersions (v + 1)) s.log ns c)
  flushing : ∀ ns x, s.flushing ns = some x → s.flushed ns < s.version ns
  flushTail : ∀ ns tail, s.flushing ns = some (.tailRead tail) → 0 < tail ∧ tail ≤ s.tail
  /-- The ceiling of a flush is worth something while the seal of its memtable is under way. -/
  flushCeiling : ∀ ns c, s.flushing ns = some (.ceiling c) → 0 < c ∧ c ≤ s.tail ∧
    ∀ x, s.sealing ns = some x → x.version = s.flushed ns → ns ∉ s.dropped →
      Below (Settled (s.flushed ns + 1)) s.log ns c
  pending : ∀ r ∈ s.pending, 0 < r.tail ∧ r.tail ≤ s.tail ∧
    (r.ns ∉ s.dropped → Below (InVersions (r.version + 1)) s.log r.ns r.tail)
  flushed : ∀ r ∈ s.pending, r.flushed = true → r.version < s.levels r.ns

/-- The records hold as the log grows. -/
theorem Records.follows (h : Records s) (htail : s.tail ≤ tail) (hlog : Follows s.tail s.log log)
    (inFlight : List ℕ) (progress : NsProgress) :
    Records { s with tail := tail, log := log, inFlight := inFlight, progress := progress } where
  sealing := h.sealing
  sealTail ns v t hns := ⟨(h.sealTail ns v t hns).1, (h.sealTail ns v t hns).2.trans htail⟩
  sealCeiling ns v c hns := by
    obtain ⟨hpos, hle, hbelow⟩ := h.sealCeiling ns v c hns
    exact ⟨hpos, hle.trans htail, fun hkept =>
      (hbelow hkept).follows (fun _ => InVersions.final) hle hlog⟩
  flushing := h.flushing
  flushTail ns t hns := ⟨(h.flushTail ns t hns).1, (h.flushTail ns t hns).2.trans htail⟩
  flushCeiling ns c hns := by
    obtain ⟨hpos, hle, hbelow⟩ := h.flushCeiling ns c hns
    exact ⟨hpos, hle.trans htail, fun x hx hv hkept =>
      (hbelow x hx hv hkept).follows (fun _ => Settled.final) hle hlog⟩
  pending r hr := by
    obtain ⟨hpos, hle, hbelow⟩ := h.pending r hr
    exact ⟨hpos, hle.trans htail, fun hkept =>
      (hbelow hkept).follows (fun _ => InVersions.final) hle hlog⟩
  flushed := h.flushed

/-- A seal that holds the lock moves on. -/
theorem Records.setSealing (h : Records s) {y : Option Sealing} (hns : s.sealing ns = some x)
    (hversion : ∀ z, y = some z → z.version = x.version)
    (htail : ∀ v tail, y = some (.tailRead v tail) → 0 < tail ∧ tail ≤ s.tail)
    (hceiling : ∀ v c, y = some (.ceiling v c) →
      0 < c ∧ c ≤ s.tail ∧ (ns ∉ s.dropped → Below (InVersions (v + 1)) s.log ns c)) :
    Records (s.setSealing ns y) := by
  refine { h with sealing := ?_, sealTail := ?_, sealCeiling := ?_, flushCeiling := ?_ }
  · intro ns' z hz
    by_cases heq : ns' = ns
    · subst heq
      rw [Sys.sealing_setSealing_self] at hz
      exact (h.sealing ns' x hns).trans (by rw [hversion z hz])
    · rw [Sys.sealing_setSealing_of_ne s heq] at hz
      exact h.sealing ns' z hz
  · intro ns' v tail hz
    by_cases heq : ns' = ns
    · subst heq
      rw [Sys.sealing_setSealing_self] at hz
      exact htail v tail hz
    · rw [Sys.sealing_setSealing_of_ne s heq] at hz
      exact h.sealTail ns' v tail hz
  · intro ns' v c hz
    by_cases heq : ns' = ns
    · subst heq
      rw [Sys.sealing_setSealing_self] at hz
      exact hceiling v c hz
    · rw [Sys.sealing_setSealing_of_ne s heq] at hz
      exact h.sealCeiling ns' v c hz
  · intro ns' c hc
    obtain ⟨hpos, hle, hbelow⟩ := h.flushCeiling ns' c hc
    refine ⟨hpos, hle, fun z hz hv hkept => ?_⟩
    by_cases heq : ns' = ns
    · subst heq
      rw [Sys.sealing_setSealing_self] at hz
      exact hbelow x hns ((hversion z hz).symm.trans hv) hkept
    · rw [Sys.sealing_setSealing_of_ne s heq] at hz
      exact hbelow z hz hv hkept

/-- A flush moves on. -/
theorem Records.setFlushing (h : Records s) {y : Option Flushing}
    (hversion : ∀ z, y = some z → s.flushed ns < s.version ns)
    (htail : ∀ tail, y = some (.tailRead tail) → 0 < tail ∧ tail ≤ s.tail)
    (hceiling : ∀ c, y = some (.ceiling c) → 0 < c ∧ c ≤ s.tail ∧
      ∀ x, s.sealing ns = some x → x.version = s.flushed ns → ns ∉ s.dropped →
        Below (Settled (s.flushed ns + 1)) s.log ns c) : Records (s.setFlushing ns y) := by
  refine { h with flushing := ?_, flushTail := ?_, flushCeiling := ?_ }
  · intro ns' z hz
    by_cases heq : ns' = ns
    · subst heq
      rw [Sys.flushing_setFlushing_self] at hz
      exact hversion z hz
    · rw [Sys.flushing_setFlushing_of_ne s heq] at hz
      exact h.flushing ns' z hz
  · intro ns' tail hz
    by_cases heq : ns' = ns
    · subst heq
      rw [Sys.flushing_setFlushing_self] at hz
      exact htail tail hz
    · rw [Sys.flushing_setFlushing_of_ne s heq] at hz
      exact h.flushTail ns' tail hz
  · intro ns' c hz
    by_cases heq : ns' = ns
    · subst heq
      rw [Sys.flushing_setFlushing_self] at hz
      exact hceiling c hz
    · rw [Sys.flushing_setFlushing_of_ne s heq] at hz
      exact h.flushCeiling ns' c hz

/-- A new memtable. -/
theorem Records.swap (h : Records s) (hfree : s.sealing ns = none) :
    Records { s.setSealing ns (some (.swapped (s.version ns))) with
      version := update s.version ns (s.version ns + 1) } := by
  refine { h with sealing := ?_, sealTail := ?_, sealCeiling := ?_, flushing := ?_,
                  flushCeiling := ?_ }
  · intro ns' z hz
    by_cases heq : ns' = ns
    · subst heq
      simp only [Sys.setSealing, update_self, Option.some.injEq] at hz ⊢
      rw [← hz]
      rfl
    · simp only [Sys.setSealing, update_of_ne heq] at hz ⊢
      exact h.sealing ns' z hz
  · intro ns' v tail hz
    by_cases heq : ns' = ns
    · subst heq
      simp [Sys.setSealing] at hz
    · simp only [Sys.setSealing, update_of_ne heq] at hz
      exact h.sealTail ns' v tail hz
  · intro ns' v c hz
    by_cases heq : ns' = ns
    · subst heq
      simp [Sys.setSealing] at hz
    · simp only [Sys.setSealing, update_of_ne heq] at hz
      exact h.sealCeiling ns' v c hz
  · intro ns' z hz
    have hlt := h.flushing ns' z hz
    by_cases heq : ns' = ns
    · subst heq
      simp only [update_self]
      exact hlt.trans (Nat.lt_succ_self _)
    · simp only [update_of_ne heq]
      exact hlt
  · intro ns' c hc
    obtain ⟨hpos, hle, hbelow⟩ := h.flushCeiling ns' c hc
    refine ⟨hpos, hle, fun z hz hv hkept => ?_⟩
    by_cases heq : ns' = ns
    · subst heq
      -- the memtable flushed is older than the one sealed now
      have hlt := h.flushing ns' _ hc
      simp only [Sys.setSealing, update_self, Option.some.injEq] at hz
      rw [← hz] at hv
      exact absurd hv hlt.ne'
    · simp only [Sys.setSealing, update_of_ne heq] at hz
      exact hbelow z hz hv hkept

/-! ### Saves -/

section Safe

variable (levels : ℕ → ℕ) (dropped : List ℕ) (tail : ℕ) (log : List Logged)

/-- Every position of the progress covers what it is for: the cut all namespaces, a safe offset
its own. -/
structure Safe (p : Progress) : Prop where
  cut_le : p.cut ≤ tail
  safe_le : ∀ e ∈ p.safe, e.2 ≤ tail
  cut : ∀ ns, ns ∉ dropped → Below (InVersions (levels ns)) log ns p.cut
  safe : ∀ e ∈ p.safe, e.1 ∉ dropped → Below (InVersions (levels e.1)) log e.1 e.2

/-- Every safe offset of the map covers its namespace. -/
def SafeMap (progress : NsProgress) : Prop :=
  ∀ e ∈ progress, e.2.safeOffset ≤ tail ∧
    (e.1 ∉ dropped → Below (InVersions (levels e.1)) log e.1 e.2.safeOffset)

variable {levels dropped tail log}

theorem Safe.follows {p : Progress} (h : Safe levels dropped tail log p) {tail' : ℕ}
    (htail : tail ≤ tail') (hlog : Follows tail log log') :
    Safe levels dropped tail' log' p where
  cut_le := h.cut_le.trans htail
  safe_le e he := (h.safe_le e he).trans htail
  cut ns hns := (h.cut ns hns).follows (fun _ => InVersions.final) h.cut_le hlog
  safe e he hns := (h.safe e he hns).follows (fun _ => InVersions.final) (h.safe_le e he) hlog

theorem SafeMap.follows (h : SafeMap levels dropped tail log progress) {tail' : ℕ}
    (htail : tail ≤ tail') (hlog : Follows tail log log') :
    SafeMap levels dropped tail' log' progress := by
  intro e he
  obtain ⟨hle, hbelow⟩ := h e he
  exact ⟨hle.trans htail, fun hns => (hbelow hns).follows (fun _ => InVersions.final) hle hlog⟩

theorem Safe.mono {p : Progress} (h : Safe levels dropped tail log p) {levels' : ℕ → ℕ}
    {dropped' : List ℕ} (hlevels : ∀ ns, levels ns ≤ levels' ns)
    (hdropped : ∀ ns, ns ∉ dropped' → ns ∉ dropped) : Safe levels' dropped' tail log p where
  cut_le := h.cut_le
  safe_le := h.safe_le
  cut ns hns := (h.cut ns (hdropped ns hns)).mono (hlevels ns)
  safe e he hns := (h.safe e he (hdropped e.1 hns)).mono (hlevels e.1)

theorem SafeMap.mono (h : SafeMap levels dropped tail log progress) {levels' : ℕ → ℕ}
    {dropped' : List ℕ} (hlevels : ∀ ns, levels ns ≤ levels' ns)
    (hdropped : ∀ ns, ns ∉ dropped' → ns ∉ dropped) :
    SafeMap levels' dropped' tail log progress := by
  intro e he
  obtain ⟨hle, hbelow⟩ := h e he
  exact ⟨hle, fun hns => (hbelow (hdropped e.1 hns)).mono (hlevels e.1)⟩

/-- A safe offset is raised to a position that covers the namespace. -/
theorem SafeMap.raise (h : SafeMap levels dropped tail log progress) {newSafe : ℕ}
    (hle : newSafe ≤ tail) (hbelow : ns ∉ dropped → Below (InVersions (levels ns)) log ns newSafe) :
    SafeMap levels dropped tail log
      (entry ns (fun p => { p with safeOffset := max p.safeOffset newSafe }) progress) := by
  intro e he
  obtain he | ⟨p, rfl, hp | rfl⟩ := mem_entry he
  · exact h e he
  · obtain ⟨hple, hpbelow⟩ := h _ hp
    exact ⟨max_le hple hle, fun hns => (hpbelow hns).max (hbelow hns)⟩
  · exact ⟨max_le (Nat.zero_le _) hle, fun hns => (Below.zero _ _ _).max (hbelow hns)⟩

theorem SafeMap.note (h : SafeMap levels dropped tail log progress) (ns stop : ℕ) :
    SafeMap levels dropped tail log
      (entry ns (fun p => { p with lastWriteOffset := max p.lastWriteOffset stop }) progress) := by
  intro e he
  obtain he | ⟨p, rfl, hp | rfl⟩ := mem_entry he
  · exact h e he
  · exact h (ns, p) hp
  · exact ⟨Nat.zero_le _, fun _ => Below.zero _ _ _⟩

/-- **The cut.** A snapshot of a progress that covers what it is for, and that knows of every
write no longer in flight below the tail that was read, covers what it is for. -/
theorem Safe.snapshot (h : Writers s) {t : ℕ} {live : Progress}
    (hmap : SafeMap levels s.dropped s.tail s.log progress)
    (hlive : Safe levels s.dropped s.tail s.log live) (ht : t ≤ s.tail)
    (hknown : ∀ w ∈ s.log, w.registered = false → w.ns ∉ s.dropped →
      noted progress w = true ∨ t ≤ w.start) :
    Safe levels s.dropped s.tail s.log
      (progressSnapshot progress (walCutCeiling t s.inFlight) live.cut) := by
  have hceil := (walCutCeiling_le t s.inFlight).trans ht
  have hcut : computeCut progress (walCutCeiling t s.inFlight) live.cut ≤ s.tail := by
    rw [computeCut]
    refine max_le ?_ hlive.cut_le
    split
    · exact (min_le_right _ _).trans hceil
    · exact hceil
  have hsafe : ∀ e ∈ (progressSnapshot progress (walCutCeiling t s.inFlight) live.cut).safe,
      ∃ p, (e.1, p) ∈ progress ∧ e.2 = p.safeOffset := by
    intro e he
    simp only [progressSnapshot, List.mem_insertionSort, mem_map, mem_filter] at he
    obtain ⟨⟨ns, p⟩, ⟨hp, -⟩, rfl⟩ := he
    exact ⟨p, hp, rfl⟩
  refine ⟨hcut, ?_, ?_, ?_⟩
  · intro e he
    obtain ⟨p, hp, heq⟩ := hsafe e he
    rw [heq]
    exact (hmap _ hp).1
  · intro ns hns w hw hwns hlt
    subst hwns
    simp only [progressSnapshot, computeCut] at hlt
    obtain hlt | hlt := lt_max_iff.mp hlt
    swap
    · exact hlive.cut w.ns hns w hw rfl hlt
    -- the write is below the ceiling, so no longer in flight
    have hbelow : w.start < walCutCeiling t s.inFlight := by
      split at hlt
      · exact hlt.trans_le (min_le_right _ _)
      · exact hlt
    have hreg : w.registered = false := by
      refine Bool.eq_false_iff.mpr fun hreg => ?_
      exact notMem_of_lt_walCutCeiling hbelow (h.inFlight w hw hreg)
    obtain hnoted | hlate := hknown w hw hreg hns
    swap
    · exact absurd (hbelow.trans_le (walCutCeiling_le _ _)) (not_lt.mpr hlate)
    -- so its namespace's entry knows of it, and holds the cut back until it is flushed
    obtain ⟨e, he, hens, hstop⟩ := noted_iff.mp hnoted
    have hstart := h.start_lt w hw
    have hcovered : w.start < e.2.safeOffset := by
      by_cases hun : e.2.hasUnflushed = true
      · split at hlt
        · rename_i offset hmin
          have hle := (List.min?_eq_some_iff.mp hmin).2 e.2.safeOffset
            (mem_map.mpr ⟨e, mem_filter.mpr ⟨he, hun⟩, rfl⟩)
          exact (hlt.trans_le (min_le_left _ _)).trans_le hle
        · rename_i hmin
          rw [List.min?_eq_none_iff, List.map_eq_nil_iff, List.filter_eq_nil_iff] at hmin
          exact absurd hun (hmin e he)
      · simp only [NsFlushProgress.hasUnflushed, decide_eq_true_eq, not_lt] at hun
        omega
    have hcov := (hmap e he).2 (hens ▸ hns) w hw hens.symm hcovered
    rwa [hens] at hcov
  · intro e he hns
    obtain ⟨p, hp, heq⟩ := hsafe e he
    rw [heq]
    exact (hmap _ hp).2 hns

end Safe

/-- The flush a save is for holds its place, and its new safe offset covers the namespace. -/
def JobOk (s : Sys) : Job → Prop
  | .written ns v _ _ newSafe previous =>
    s.flushing ns = some .preparing ∧ s.flushed ns = v ∧ previous = s.live ∧ newSafe ≤ s.tail ∧
      (ns ∉ s.dropped → Below (InVersions (v + 1)) s.log ns newSafe)
  | .forget => True

/-- Every write no longer in flight is known to the progress, or starts at or above `from_`. -/
def Known (dropped : List ℕ) (log : List Logged) (progress : NsProgress) (from_ : ℕ → Prop) : Prop :=
  ∀ w ∈ log, w.registered = false → w.ns ∉ dropped → noted progress w = true ∨ from_ w.start

/-- What holds of the progress in memory, of a save under way and of what is on disk. -/
structure Saves (s : Sys) : Prop where
  progress : SafeMap s.flushed s.dropped s.tail s.log s.progress
  live : Safe s.flushed s.dropped s.tail s.log s.live
  job : ∀ x, s.saving = some x → JobOk s x.job
  cloned : ∀ job progress, s.saving = some (.cloned job progress) →
    SafeMap s.levels s.dropped s.tail s.log progress ∧
      Known s.dropped s.log progress fun _ => False
  tailRead : ∀ job progress tail, s.saving = some (.tailRead job progress tail) →
    SafeMap s.levels s.dropped s.tail s.log progress ∧ tail ≤ s.tail ∧
      Known s.dropped s.log progress fun start => tail ≤ start
  computed : ∀ job p, s.saving = some (.computed job p) →
    Safe s.levels s.dropped s.tail s.log p
  saved : ∀ job p, s.saving = some (.saved job p) →
    s.saved = p ∧ Safe s.levels s.dropped s.tail s.log p
  unsaved : (∀ job p, s.saving ≠ some (.saved job p)) → s.saved = s.live

theorem Job.flushed_le_levels {job : Job} (h : JobOk s job) (ns : ℕ) :
    s.flushed ns ≤ job.levels s.flushed ns := by
  cases job with
  | written ns' v fresh folded newSafe previous =>
    obtain ⟨-, hv, -⟩ := h
    by_cases heq : ns = ns'
    · subst heq
      rw [Job.levels, update_self]
      omega
    · rw [Job.levels, update_of_ne heq]
  | forget => exact le_rfl

theorem levels_eq {x : Saving} (h : s.saving = some x) : s.levels = x.job.levels s.flushed := by
  rw [Sys.levels, h]

theorem levels_eq_flushed (h : s.saving = none) : s.levels = s.flushed := by
  rw [Sys.levels, h]

theorem Saves.flushed_le_levels (h : Saves s) (ns : ℕ) : s.flushed ns ≤ s.levels ns := by
  cases hx : s.saving with
  | some x =>
    rw [levels_eq hx]
    exact Job.flushed_le_levels (h.job x hx) ns
  | none => rw [levels_eq_flushed hx]

/-- What is on disk covers what it is for, the flush under way included. -/
theorem Saves.safe_saved (h : Saves s) : Safe s.levels s.dropped s.tail s.log s.saved := by
  by_cases hsaved : ∃ job p, s.saving = some (.saved job p)
  · obtain ⟨job, p, hx⟩ := hsaved
    obtain ⟨heq, hsafe⟩ := h.saved job p hx
    rw [heq]
    exact hsafe
  · push Not at hsaved
    rw [h.unsaved hsaved]
    exact h.live.mono h.flushed_le_levels fun _ => id

/-- A log whose released writes were released before. -/
def SameReleased (log log' : List Logged) : Prop :=
  ∀ w' ∈ log', w'.registered = false → ∃ w ∈ log, w.registered = false ∧ w.ns = w'.ns ∧
    w.start = w'.start ∧ w.stop = w'.stop

theorem Known.of_sameReleased {dropped : List ℕ} {from_ : ℕ → Prop}
    (h : Known dropped log progress from_) (hlog : SameReleased log log') :
    Known dropped log' progress from_ := by
  intro w' hw' hreg hns
  obtain ⟨w, hw, hwreg, hwns, hwstart, hwstop⟩ := hlog w' hw' hreg
  have hknown := h w hw hwreg (hwns ▸ hns)
  rwa [hwstart, noted, hwns, hwstop] at hknown

theorem SameReleased.move (hw : s.find start = some w) (stage : Stage) :
    SameReleased s.log (s.move w stage).log := by
  intro a ha hreg
  obtain rfl | ⟨ha, -⟩ := mem_set ha
  · exact ⟨w, (find_mem hw).1, hreg, rfl, rfl, rfl⟩
  · exact ⟨a, ha, hreg, rfl, rfl, rfl⟩

/-- The saves hold as the log grows, where what is cloned goes on knowing what was released. -/
theorem Saves.follows (h : Saves s) (htail : s.tail ≤ tail) (hlog : Follows s.tail s.log log)
    (inFlight : List ℕ) (hprogress : SafeMap s.flushed s.dropped s.tail s.log progress)
    (hcloned : ∀ job progress, s.saving = some (.cloned job progress) →
      Known s.dropped log progress fun _ => False)
    (htailRead : ∀ job progress t, s.saving = some (.tailRead job progress t) →
      Known s.dropped log progress fun start => t ≤ start) :
    Saves { s with tail := tail, log := log, inFlight := inFlight, progress := progress } where
  progress := hprogress.follows htail hlog
  live := h.live.follows htail hlog
  job x hx := by
    have hjob := h.job x hx
    cases hx' : x.job with
    | written ns v fresh folded newSafe previous =>
      rw [hx'] at hjob
      obtain ⟨hflushing, hv, hprevious, hle, hbelow⟩ := hjob
      exact ⟨hflushing, hv, hprevious, hle.trans htail, fun hns =>
        (hbelow hns).follows (fun _ => InVersions.final) hle hlog⟩
    | forget => trivial
  cloned job progress hx := ⟨(h.cloned job progress hx).1.follows htail hlog, hcloned job progress hx⟩
  tailRead job progress t hx := by
    obtain ⟨hmap, hle, -⟩ := h.tailRead job progress t hx
    exact ⟨hmap.follows htail hlog, hle.trans htail, htailRead job progress t hx⟩
  computed job p hx := (h.computed job p hx).follows htail hlog
  saved job p hx := ⟨(h.saved job p hx).1, (h.saved job p hx).2.follows htail hlog⟩
  unsaved := h.unsaved

/-- A writer that keeps its registration does not matter to a save. -/
theorem Saves.sameReleased (h : Saves s) (htail : s.tail ≤ tail) (hlog : Follows s.tail s.log log)
    (hrel : SameReleased s.log log) (inFlight : List ℕ)
    (hprogress : SafeMap s.flushed s.dropped s.tail s.log progress) :
    Saves { s with tail := tail, log := log, inFlight := inFlight, progress := progress } :=
  h.follows htail hlog inFlight hprogress
    (fun job progress hx => (h.cloned job progress hx).2.of_sameReleased hrel)
    fun job progress t hx => (h.tailRead job progress t hx).2.2.of_sameReleased hrel

/-! ### Marking a flush -/

theorem mem_fold {pending : List WalFlushState} (h : r ∈ fold pending ns) :
    r ∈ pending ∧ r.ns = ns ∧ r.flushed = true := by
  have hmem := (List.takeWhile_sublist _).subset h
  rw [List.mem_insertionSort, mem_filter, decide_eq_true_eq] at hmem
  exact ⟨hmem.1, hmem.2, List.mem_takeWhile_imp h⟩

theorem mem_markFlushed {pending : List WalFlushState} (h : r ∈ markFlushed pending ns v c) :
    r ∈ pending ∧ ¬ (r.ns = ns ∧ r.version = v) ∨ r.ns = ns ∧ r.version = v ∧
      ((∃ a ∈ pending, a.ns = ns ∧ a.version = v ∧
        r.tail = if a.tail = 0 then c else a.tail) ∨
      r.tail = c ∧ ∀ a ∈ pending, ¬ (a.ns = ns ∧ a.version = v)) := by
  rw [markFlushed] at h
  split_ifs at h with hany
  · obtain ⟨a, ha, rfl⟩ := mem_map.mp h
    by_cases hkey : a.ns = ns ∧ a.version = v
    · rw [if_pos hkey]
      exact .inr ⟨hkey.1, hkey.2, .inl ⟨a, ha, hkey.1, hkey.2, rfl⟩⟩
    · rw [if_neg hkey]
      exact .inl ⟨ha, hkey⟩
  · have hnone : ∀ a ∈ pending, ¬ (a.ns = ns ∧ a.version = v) := by simpa using hany
    rcases mem_append.mp h with h | h
    · exact .inl ⟨h, hnone r h⟩
    · obtain rfl := mem_singleton.mp h
      exact .inr ⟨rfl, rfl, .inr ⟨rfl, hnone⟩⟩

theorem foldl_max_induction {P : ℕ → Prop} (hmax : ∀ a b, P a → P b → P (max a b)) :
    ∀ (l : List ℕ) (a : ℕ), P a → (∀ b ∈ l, P b) → P (l.foldl max a)
  | [], _, ha, _ => ha
  | b :: l, a, ha, hl =>
    foldl_max_induction hmax l (max a b) (hmax a b ha (hl b mem_cons_self)) fun x hx =>
      hl x (mem_cons_of_mem _ hx)

section Mark

variable {s : Sys} {ns c : ℕ}

/-- What a flush uses as its record is covered: the seal's own, or while the seal is under way
the ceiling the flush read. -/
theorem pending_markFlushed (h : Records s) (hns : s.flushing ns = some (.ceiling c))
    (hrace : raceFree s (.mark ns) = true) (hkeep : keepsFailed s (.mark ns) = true) :
    ∀ r ∈ markFlushed s.pending ns (s.flushed ns) c, 0 < r.tail ∧ r.tail ≤ s.tail ∧
      (r.ns ∉ s.dropped → Below (InVersions (r.version + 1)) s.log r.ns r.tail) := by
  intro r hr
  obtain ⟨hr, -⟩ | ⟨rfl, hversion, ⟨a, ha, hans, hav, htail⟩ | ⟨htail, hnone⟩⟩ := mem_markFlushed hr
  · exact h.pending r hr
  · obtain ⟨hpos, hle, hbelow⟩ := h.pending a ha
    rw [if_neg hpos.ne'] at htail
    rw [htail, hversion, ← hav, ← hans]
    exact ⟨hpos, hle, hbelow⟩
  · obtain ⟨hpos, hle, hbelow⟩ := h.flushCeiling r.ns c hns
    have hrecord : s.sealRecord r.ns (s.flushed r.ns) = none := by
      rw [Sys.sealRecord, List.find?_eq_none]
      simpa using hnone
    rw [htail, hversion]
    refine ⟨hpos, hle, fun hkept => ?_⟩
    simp only [raceFree, hrecord, Option.isSome_none, Bool.false_or, decide_eq_true_eq,
      Option.map_eq_some_iff] at hrace
    obtain ⟨x, hx, hv⟩ := hrace
    refine (hbelow x hx hv hkept).of_settled fun w hw hwns hst => ?_
    simp only [keepsFailed, hns, hrecord, Option.isSome_none, Bool.or_false, Bool.or_eq_true,
      decide_eq_true_eq, hkept, false_or, List.all_eq_true] at hkeep
    exact hkeep w hw hwns hst

/-- The safe offset a flush arrives at is covered. -/
theorem jobOk_mark (h : Records s) (hns : s.flushing ns = some (.ceiling c))
    (hfree : s.saving = none) (hrace : raceFree s (.mark ns) = true)
    (hkeep : keepsFailed s (.mark ns) = true) :
    ((fold (markFlushed s.pending ns (s.flushed ns) c) ns).map fun r => r.tail).foldl max 0 ≤ s.tail ∧
      (ns ∉ s.dropped → Below (InVersions (s.flushed ns + 1)) s.log ns
        (((fold (markFlushed s.pending ns (s.flushed ns) c) ns).map fun r => r.tail).foldl max 0)) := by
  have hpending := pending_markFlushed h hns hrace hkeep
  constructor
  · refine foldl_max_induction (P := fun x : ℕ => x ≤ s.tail) (fun a b ha hb => max_le ha hb) _ 0
      (Nat.zero_le _) fun t ht => ?_
    obtain ⟨r, hr, rfl⟩ := mem_map.mp ht
    exact (hpending r (mem_fold hr).1).2.1
  · intro hkept
    refine foldl_max_induction (fun a b ha hb => Below.max ha hb) _ 0 (Below.zero _ _ _)
      fun t ht => ?_
    obtain ⟨r, hr, rfl⟩ := mem_map.mp ht
    obtain ⟨hr, hrns, hflushed⟩ := mem_fold hr
    have hbelow := (hpending r hr).2.2 (hrns ▸ hkept)
    rw [hrns] at hbelow
    -- a record that is flushed is this flush's, or one of an older memtable
    refine hbelow.mono ?_
    obtain ⟨hr, -⟩ | ⟨-, hversion, -⟩ := mem_markFlushed hr
    · have hlt := h.flushed r hr hflushed
      rw [levels_eq_flushed hfree, hrns] at hlt
      omega
    · omega

end Mark

/-! ### Every step keeps the invariant -/

theorem flushed_withdraw (h : r ∈ (s.withdraw ns v fresh).pending) (hflushed : r.flushed = true) :
    r ∈ s.pending ∧ ¬ (r.ns = ns ∧ r.version = v) := by
  rw [Sys.withdraw] at h
  cases fresh with
  | true =>
    obtain ⟨hr, hkey⟩ := mem_filter.mp h
    exact ⟨hr, of_decide_eq_true hkey⟩
  | false =>
    obtain ⟨a, ha, rfl⟩ := mem_map.mp h
    by_cases hkey : a.ns = ns ∧ a.version = v
    · rw [if_pos hkey] at hflushed
      cases hflushed
    · rw [if_neg hkey]
      exact ⟨ha, hkey⟩

theorem mem_withdraw (h : r ∈ (s.withdraw ns v fresh).pending) :
    ∃ a ∈ s.pending, a.ns = r.ns ∧ a.version = r.version ∧ a.tail = r.tail := by
  rw [Sys.withdraw] at h
  cases fresh with
  | true => exact ⟨r, (mem_filter.mp h).1, rfl, rfl, rfl⟩
  | false =>
    obtain ⟨a, ha, rfl⟩ := mem_map.mp h
    refine ⟨a, ha, ?_⟩
    split_ifs <;> exact ⟨rfl, rfl, rfl⟩

/-- A flush is undone. -/
theorem Records.undo (h : Records s) {newSafe : ℕ} {folded : List (ℕ × ℕ)} {previous : Progress}
    {x : Saving} (hx : s.saving = some x)
    (hjob : x.job = .written ns v fresh folded newSafe previous) (hv : s.flushed ns = v) :
    Records (s.undo ns v fresh) := by
  have hset : Records (s.setFlushing ns none) :=
    h.setFlushing (by simp) (by simp) (by simp)
  refine { hset with pending := ?_, flushed := ?_ }
  · intro r hr
    obtain ⟨a, ha, hns, hversion, htail⟩ := mem_withdraw hr
    rw [← hns, ← hversion, ← htail]
    exact h.pending a ha
  · intro r hr hflushed
    obtain ⟨hr, hkey⟩ := flushed_withdraw hr hflushed
    have hlt := h.flushed r hr hflushed
    rw [levels_eq hx, hjob, Job.levels] at hlt
    by_cases heq : r.ns = ns
    · rw [heq, update_self] at hlt
      have hne : r.version ≠ v := fun hrv => hkey ⟨heq, hrv⟩
      change r.version < s.flushed r.ns
      rw [heq]
      omega
    · rwa [update_of_ne heq] at hlt

theorem records_step (hw : Writers s) (h : Records s) (hs : Saves s) (hrace : raceFree s a = true)
    (hkeep : keepsFailed s a = true) (hst : Step s a t) : Records t := by
  have hfollows := follows_step hst
  cases hst with
  | append hstart hlen => exact h.follows hfollows.1 hfollows.2 _ s.progress
  | note hfind hstage => exact h.follows hfollows.1 hfollows.2 s.inFlight _
  | sync hfind hstage | apply hfind hstage hfree | failApply hfind hstage
    | refuse hfind hstage hdropped => exact h.follows hfollows.1 hfollows.2 s.inFlight s.progress
  | release hfind happended hnoted hsynced => exact h.follows hfollows.1 hfollows.2 _ s.progress
  | swap hfree => exact h.swap hfree
  | @sealReadTail ns v hns =>
    refine h.setSealing hns (by rintro z ⟨⟩; rfl) ?_ (by simp)
    rintro v' tail ⟨⟩
    exact ⟨hw.tail_pos, le_rfl⟩
  | @sealReadInFlight ns v tail hns =>
    refine h.setSealing hns (by rintro z ⟨⟩; rfl) (by simp) ?_
    rintro v' c ⟨⟩
    obtain ⟨hpos, hle⟩ := h.sealTail ns v tail hns
    refine ⟨walCutCeiling_pos hpos hw.inFlight_pos, (walCutCeiling_le _ _).trans hle,
      fun hkept => ?_⟩
    refine (hw.below_ceiling hns (h.sealing ns _ hns) hkept tail).of_settled fun w hmem hwns hst => ?_
    simp only [keepsFailed, hns, Bool.or_eq_true, decide_eq_true_eq, hkept, false_or,
      List.all_eq_true] at hkeep
    exact hkeep w hmem hwns hst
  | @sealAgain ns v c r hns hr =>
    exact h.setSealing hns (by simp) (by simp) (by simp)
  | @sealRecord ns v c hns hr =>
    have hset : Records (s.setSealing ns none) := h.setSealing hns (by simp) (by simp) (by simp)
    refine { hset with pending := ?_, flushed := ?_ }
    · intro r hr
      rcases mem_append.mp hr with hr | hr
      · exact h.pending r hr
      · obtain rfl := mem_singleton.mp hr
        exact h.sealCeiling ns v c hns
    · intro r hr hflushed
      rcases mem_append.mp hr with hr | hr
      · exact h.flushed r hr hflushed
      · obtain rfl := mem_singleton.mp hr
        cases hflushed
  | @writeLevel0 ns hfree hv => exact h.setFlushing (fun _ _ => hv) (by simp) (by simp)
  | @flushReadTail ns hns =>
    refine h.setFlushing (fun _ _ => h.flushing ns _ hns) ?_ (by simp)
    rintro tail ⟨⟩
    exact ⟨hw.tail_pos, le_rfl⟩
  | @flushReadInFlight ns tail hns =>
    refine h.setFlushing (fun _ _ => h.flushing ns _ hns) (by simp) ?_
    rintro c ⟨⟩
    obtain ⟨hpos, hle⟩ := h.flushTail ns tail hns
    refine ⟨walCutCeiling_pos hpos hw.inFlight_pos, (walCutCeiling_le _ _).trans hle,
      fun x hx hv hkept => ?_⟩
    rw [← hv]
    exact hw.below_ceiling hx (h.sealing ns x hx) hkept tail
  | abandon hns => exact h.setFlushing (by simp) (by simp) (by simp)
  | @mark ns c pending folded hns hfree hpending hfolded =>
    subst hpending
    have hset : Records (s.setFlushing ns (some .preparing)) :=
      h.setFlushing (fun _ _ => h.flushing ns _ hns) (by simp) (by simp)
    refine { hset with pending := pending_markFlushed h hns hrace hkeep, flushed := ?_ }
    intro r hr hflushed
    change r.version < update s.flushed ns (s.flushed ns + 1) r.ns
    obtain ⟨hr, hkey⟩ | ⟨hrns, hversion, -⟩ := mem_markFlushed hr
    · have hlt := h.flushed r hr hflushed
      rw [levels_eq_flushed hfree] at hlt
      by_cases heq : r.ns = ns
      · rw [heq] at hlt ⊢
        rw [update_self]
        omega
      · rwa [update_of_ne heq]
    · rw [hrns, hversion, update_self]
      omega
  | clone hsaving => exact { h with flushed := by have := h.flushed; rwa [levels_eq hsaving] at this }
  | readTail hsaving | readInFlight hsaving =>
    exact { h with flushed := by have := h.flushed; rwa [levels_eq hsaving] at this }
  | save hsaving => exact { h with flushed := by have := h.flushed; rwa [levels_eq hsaving] at this }
  | failSave hsaving => exact h.undo hsaving rfl (hs.job _ hsaving).2.1
  | saveForget hsaving | failSaveForget hsaving =>
    exact { h with flushed := by have := h.flushed; rwa [levels_eq hsaving] at this }
  | @commit ns v newSafe fresh folded previous snapshot hsaving =>
    have hset : Records (s.setFlushing ns none) := h.setFlushing (by simp) (by simp) (by simp)
    refine { hset with flushing := ?_, flushCeiling := ?_, pending := ?_, flushed := ?_ }
    · intro ns' x hx
      by_cases heq : ns' = ns
      · subst heq
        simp [Sys.setFlushing] at hx
      · have hlt := hset.flushing ns' x hx
        simp only [update_of_ne heq]
        exact hlt
    · intro ns' c hx
      by_cases heq : ns' = ns
      · subst heq
        simp [Sys.setFlushing] at hx
      · have hold := hset.flushCeiling ns' c hx
        simp only [update_of_ne heq]
        exact hold
    · intro r hr
      exact h.pending r (mem_filter.mp hr).1
    · intro r hr hflushed
      have hlt := h.flushed r (mem_filter.mp hr).1 hflushed
      rwa [levels_eq hsaving] at hlt
  | abort hsaving => exact { h.undo hsaving rfl (hs.job _ hsaving).2.1 with }
  | failAbort hsaving => exact absurd hrace (by simp [raceFree])
  | drop =>
    have hkept : ∀ {ns ns' : ℕ}, ns' ∉ ns :: s.dropped → ns' ∉ s.dropped := fun hns hmem =>
      hns (mem_cons_of_mem _ hmem)
    refine { h with sealCeiling := ?_, flushCeiling := ?_, pending := ?_ }
    · intro ns' v c hc
      obtain ⟨hpos, hle, hbelow⟩ := h.sealCeiling ns' v c hc
      exact ⟨hpos, hle, fun hns => hbelow (hkept hns)⟩
    · intro ns' c hc
      obtain ⟨hpos, hle, hbelow⟩ := h.flushCeiling ns' c hc
      exact ⟨hpos, hle, fun x hx hv hns => hbelow x hx hv (hkept hns)⟩
    · intro r hr
      obtain ⟨hpos, hle, hbelow⟩ := h.pending r hr
      exact ⟨hpos, hle, fun hns => hbelow (hkept hns)⟩
  | @forget ns hfree hns =>
    refine { h with pending := fun r hr => h.pending r (mem_filter.mp hr).1, flushed := ?_ }
    intro r hr hflushed
    have hlt := h.flushed r (mem_filter.mp hr).1 hflushed
    rwa [levels_eq_flushed hfree] at hlt

/-- A flush that no save is for moves on. -/
theorem Saves.setFlushing (h : Saves s) (hns : s.flushing ns ≠ some .preparing)
    (y : Option Flushing) : Saves (s.setFlushing ns y) := by
  refine { h with job := fun x hx => ?_ }
  have hjob := h.job x hx
  cases hx' : x.job with
  | written ns' v fresh folded newSafe previous =>
    rw [hx'] at hjob
    obtain ⟨hflushing, hrest⟩ := hjob
    have hne : ns' ≠ ns := fun heq => hns (heq ▸ hflushing)
    exact ⟨(Sys.flushing_setFlushing_of_ne s hne y).trans hflushing, hrest⟩
  | forget => trivial

/-- Nothing is under way: what is on disk is what is in memory. -/
theorem Saves.idle (hprogress : SafeMap s.flushed s.dropped s.tail s.log s.progress)
    (hlive : Safe s.flushed s.dropped s.tail s.log s.live) (hsaving : s.saving = none)
    (hsaved : s.saved = s.live) : Saves s where
  progress := hprogress
  live := hlive
  job x hx := by rw [hsaving] at hx; cases hx
  cloned job progress hx := by rw [hsaving] at hx; cases hx
  tailRead job progress t hx := by rw [hsaving] at hx; cases hx
  computed job p hx := by rw [hsaving] at hx; cases hx
  saved job p hx := by rw [hsaving] at hx; cases hx
  unsaved _ := hsaved

theorem saves_step (hw : Writers s) (hr : Records s) (h : Saves s) (hrace : raceFree s a = true)
    (hkeep : keepsFailed s a = true) (hst : Step s a t) : Saves t := by
  have hfollows := follows_step hst
  cases hst with
  | append hstart hlen =>
    refine h.sameReleased hfollows.1 hfollows.2 (fun w hmem hreg => ?_) _ h.progress
    rcases mem_append.mp hmem with hmem | hmem
    · exact ⟨w, hmem, hreg, rfl, rfl, rfl⟩
    · obtain rfl := mem_singleton.mp hmem
      cases hreg
  | note hfind hstage =>
    exact h.sameReleased hfollows.1 hfollows.2 (SameReleased.move hfind _) s.inFlight
      (h.progress.note _ _)
  | sync hfind hstage | apply hfind hstage hfree | failApply hfind hstage
    | refuse hfind hstage hdropped =>
    exact h.sameReleased hfollows.1 hfollows.2 (SameReleased.move hfind _) s.inFlight h.progress
  | @release start w hfind happended hnoted hsynced =>
    refine h.follows hfollows.1 hfollows.2 _ h.progress ?_ ?_
    · intro job progress hx a ha hreg hns
      obtain rfl | ⟨ha, -⟩ := mem_set ha
      · simp only [raceFree, hfind, hx, Bool.or_eq_true, decide_eq_true_eq] at hrace
        exact .inl (hrace.resolve_left hns)
      · exact (h.cloned job progress hx).2 a ha hreg hns
    · intro job progress tail hx a ha hreg hns
      obtain rfl | ⟨ha, -⟩ := mem_set ha
      · simp only [raceFree, hfind, hx, Bool.or_eq_true, decide_eq_true_eq] at hrace
        obtain (hdropped | hknown) | hlate := hrace
        · exact absurd hdropped hns
        · exact .inl hknown
        · exact .inr hlate
      · exact (h.tailRead job progress tail hx).2.2 a ha hreg hns
  | swap hfree | sealReadTail hns | sealReadInFlight hns | sealAgain hns hrec
    | sealRecord hns hrec => exact { h with }
  | writeLevel0 hfree hv => exact h.setFlushing (by simp [hfree]) _
  | flushReadTail hns | flushReadInFlight hns | abandon hns => exact h.setFlushing (by simp [hns]) _
  | @mark ns c pending folded hns hfree hpending hfolded =>
    subst hpending hfolded
    obtain ⟨hle, hbelow⟩ := jobOk_mark hr hns hfree hrace hkeep
    refine { h with job := ?_, cloned := ?_, tailRead := ?_, computed := ?_, saved := ?_,
                    unsaved := fun _ => h.unsaved (by simp [hfree]) }
    · rintro x ⟨⟩
      exact ⟨Sys.flushing_setFlushing_self s ns _, rfl, rfl, hle, hbelow⟩
    · rintro job progress ⟨⟩
    · rintro job progress tail ⟨⟩
    · rintro job p ⟨⟩
    · rintro job p ⟨⟩
  | @clone job hsaving =>
    have hjob := h.job _ hsaving
    have hmap := h.progress.mono (Job.flushed_le_levels hjob) fun _ => id
    refine { h with job := ?_, cloned := ?_, tailRead := ?_, computed := ?_, saved := ?_,
                    unsaved := fun _ => h.unsaved (by simp [hsaving]) }
    · rintro x ⟨⟩
      exact hjob
    · rintro job' progress ⟨⟩
      refine ⟨?_, fun w hmem hreg hns => .inl (noted_raise job ?_)⟩
      · cases job with
        | written ns v fresh folded newSafe previous =>
          obtain ⟨-, -, -, hle, hbelow⟩ := hjob
          change SafeMap (update s.flushed ns (v + 1)) _ _ _ _
          rw [Job.raise]
          split_ifs
          · refine SafeMap.raise hmap hle fun hns => ?_
            rw [Saving.job, Job.levels, update_self]
            exact hbelow hns
          · exact hmap
        | forget => exact hmap
      · refine hw.noted w hmem (fun hst => ?_) hns
        -- a write that is not noted yet is still in flight
        exact absurd (hw.settled w hmem hreg hns) (by simp [hst, Stage.final])
    · rintro job' progress tail ⟨⟩
    · rintro job' p ⟨⟩
    · rintro job' p ⟨⟩
  | @readTail job progress hsaving =>
    have hjob := h.job _ hsaving
    obtain ⟨hmap, hknown⟩ := h.cloned job progress hsaving
    rw [levels_eq hsaving] at hmap
    refine { h with job := ?_, cloned := ?_, tailRead := ?_, computed := ?_, saved := ?_,
                    unsaved := fun _ => h.unsaved (by simp [hsaving]) }
    · rintro x ⟨⟩
      exact hjob
    · rintro job' progress ⟨⟩
    · rintro job' progress tail ⟨⟩
      exact ⟨hmap, le_rfl, fun w hmem hreg hns => (hknown w hmem hreg hns).imp_right False.elim⟩
    · rintro job' p ⟨⟩
    · rintro job' p ⟨⟩
  | @readInFlight job progress tail hsaving =>
    have hjob := h.job _ hsaving
    obtain ⟨hmap, hle, hknown⟩ := h.tailRead job progress tail hsaving
    have hlive := h.live.mono h.flushed_le_levels fun _ => id
    have hsafe := Safe.snapshot hw hmap hlive hle hknown
    rw [levels_eq hsaving] at hsafe
    refine { h with job := ?_, cloned := ?_, tailRead := ?_, computed := ?_, saved := ?_,
                    unsaved := fun _ => h.unsaved (by simp [hsaving]) }
    · rintro x ⟨⟩
      exact hjob
    · rintro job' progress ⟨⟩
    · rintro job' progress tail ⟨⟩
    · rintro job' p ⟨⟩
      exact hsafe
    · rintro job' p ⟨⟩
  | @save ns v newSafe fresh folded previous snapshot hsaving =>
    have hjob := h.job _ hsaving
    have hsafe := h.computed _ _ hsaving
    rw [levels_eq hsaving] at hsafe
    refine { h with job := ?_, cloned := ?_, tailRead := ?_, computed := ?_, saved := ?_,
                    unsaved := fun hnone => absurd rfl (hnone _ _) }
    · rintro x ⟨⟩
      exact hjob
    · rintro job' progress ⟨⟩
    · rintro job' progress tail ⟨⟩
    · rintro job' p ⟨⟩
    · rintro job' p ⟨⟩
      exact ⟨rfl, hsafe⟩
  | failSave hsaving => exact .idle h.progress h.live rfl (h.unsaved (by simp [hsaving]))
  | saveForget hsaving =>
    have hsafe := h.computed _ _ hsaving
    rw [levels_eq hsaving] at hsafe
    exact .idle h.progress hsafe rfl rfl
  | failSaveForget hsaving => exact .idle h.progress h.live rfl (h.unsaved (by simp [hsaving]))
  | @commit ns v newSafe fresh folded previous snapshot hsaving =>
    obtain ⟨hsaved, hsafe⟩ := h.saved _ _ hsaving
    rw [levels_eq hsaving] at hsafe
    have hjob := h.job _ hsaving
    have hmap := h.progress.mono (Job.flushed_le_levels hjob) fun _ => id
    refine .idle ?_ hsafe rfl hsaved
    obtain ⟨-, -, -, hle, hbelow⟩ := hjob
    change SafeMap (update s.flushed ns (v + 1)) _ _ _ _
    simp only [Job.raise]
    split_ifs
    · refine SafeMap.raise hmap hle fun hns => ?_
      rw [Saving.job, Job.levels, update_self]
      exact hbelow hns
    · exact hmap
  | abort hsaving => exact .idle h.progress h.live rfl (h.job _ hsaving).2.2.1
  | failAbort hsaving => exact absurd hrace (by simp [raceFree])
  | @drop ns =>
    have hkept : ∀ ns', ns' ∉ ns :: s.dropped → ns' ∉ s.dropped := fun _ hns hmem =>
      hns (mem_cons_of_mem _ hmem)
    refine { h with progress := ?_, live := ?_, job := ?_, cloned := ?_, tailRead := ?_,
                    computed := ?_, saved := ?_ }
    · exact h.progress.mono (fun _ => le_rfl) hkept
    · exact h.live.mono (fun _ => le_rfl) hkept
    · intro x hx
      have hjob := h.job x hx
      cases hx' : x.job with
      | written ns' v fresh folded newSafe previous =>
        rw [hx'] at hjob
        obtain ⟨hflushing, hv, hprevious, hle, hbelow⟩ := hjob
        exact ⟨hflushing, hv, hprevious, hle, fun hns => hbelow (hkept ns' hns)⟩
      | forget => trivial
    · intro job progress hx
      obtain ⟨hmap, hknown⟩ := h.cloned job progress hx
      exact ⟨hmap.mono (fun _ => le_rfl) hkept, fun w hmem hreg hns =>
        hknown w hmem hreg (hkept _ hns)⟩
    · intro job progress tail hx
      obtain ⟨hmap, hle, hknown⟩ := h.tailRead job progress tail hx
      exact ⟨hmap.mono (fun _ => le_rfl) hkept, hle, fun w hmem hreg hns =>
        hknown w hmem hreg (hkept _ hns)⟩
    · exact fun job p hx => (h.computed job p hx).mono (fun _ => le_rfl) hkept
    · exact fun job p hx => ⟨(h.saved job p hx).1, (h.saved job p hx).2.mono (fun _ => le_rfl) hkept⟩
  | @forget ns hfree hns =>
    refine { h with progress := ?_, job := ?_, cloned := ?_, tailRead := ?_, computed := ?_,
                    saved := ?_, unsaved := ?_ }
    · exact fun e he => h.progress e (mem_filter.mp he).1
    · rintro x ⟨⟩
      trivial
    · rintro job progress ⟨⟩
    · rintro job progress tail ⟨⟩
    · rintro job p ⟨⟩
    · rintro job p ⟨⟩
    · exact fun _ => h.unsaved (by simp [hfree])

/-- The invariant. -/
structure Inv (s : Sys) : Prop where
  writers : Writers s
  records : Records s
  saves : Saves s

theorem inv_opened (p : Progress) (past : ℕ) : Inv (opened p past) where
  writers := by
    refine ⟨?_, by simp [opened], List.Pairwise.nil, by simp [opened], by simp [opened],
      by simp [opened], by simp [opened], by simp [opened], by simp [opened], by simp [opened]⟩
    have hheader : 0 < SegmentedLog.segmentHeaderLen := by decide
    simp only [opened]
    omega
  records := by constructor <;> simp [opened]
  saves := by
    have hle : ∀ x ∈ p.named, x ≤ (opened p past).tail := by
      intro x hx
      have hfurthest := p.le_furthest x hx
      simp only [opened]
      omega
    refine .idle (by simp [SafeMap, opened]) ⟨?_, ?_, ?_, ?_⟩ rfl rfl
    · exact hle _ mem_cons_self
    · exact fun e he => hle _ (mem_cons_of_mem _ (List.mem_map_of_mem he))
    · exact fun ns _ w hw => absurd hw List.not_mem_nil
    · exact fun e _ _ w hw => absurd hw List.not_mem_nil

theorem inv_step (h : Inv s) (hrace : raceFree s a = true) (hkeep : keepsFailed s a = true)
    (hst : step s a = some t) : Inv t := by
  have hcase := step_cases hst
  exact ⟨writers_step h.writers hcase, records_step h.writers h.records h.saves hrace hkeep hcase,
    saves_step h.writers h.records h.saves hrace hkeep hcase⟩

/-! ### What a crash finds -/

/-- A write in the memtables a save counts on is in durable level-0 files. -/
theorem inLevel0_of_inVersions (h : Saves s) (hw : InVersions (s.levels w.ns) w.stage) :
    s.inLevel0 w = true := by
  obtain ⟨v, hv, hst⟩ := hw
  rw [Sys.inLevel0, hst]
  simp only [Bool.or_eq_true, Bool.and_eq_true, decide_eq_true_eq]
  cases hx : s.saving with
  | none =>
    rw [levels_eq_flushed hx] at hv
    exact .inl hv
  | some x =>
    have hjob := h.job x hx
    rw [levels_eq hx] at hv
    cases hx' : x.job with
    | forget =>
      rw [hx'] at hv
      exact .inl hv
    | written ns v' fresh folded newSafe previous =>
      rw [hx'] at hv hjob
      obtain ⟨hflushing, hv', -⟩ := hjob
      by_cases heq : w.ns = ns
      · rw [heq, Job.levels, update_self] at hv
        rw [heq, hflushing]
        obtain hlt | hlast := Nat.lt_succ_iff_lt_or_eq.mp hv
        · exact .inl (hv' ▸ hlt)
        · exact .inr ⟨hlast.trans hv'.symm, rfl⟩
      · rw [Job.levels, update_of_ne heq] at hv
        exact .inl hv

/-- What is saved is at or below every write that is not in level 0. -/
theorem Inv.saved_le (h : Inv s) (hw : w ∈ s.log) (hns : w.ns ∉ s.dropped)
    (hlevel0 : s.inLevel0 w = false) :
    s.saved.cut ≤ w.start ∧ ∀ e ∈ s.saved.safe, e.1 = w.ns → e.2 ≤ w.start := by
  have hsafe := h.saves.safe_saved
  have hnot : ¬ InVersions (s.levels w.ns) w.stage := fun hin => by
    simp [inLevel0_of_inVersions h.saves hin] at hlevel0
  constructor
  · refine not_lt.mp fun hlt => hnot ?_
    exact hsafe.cut w.ns hns w hw rfl hlt
  · intro e he hens
    refine not_lt.mp fun hlt => hnot ?_
    have hin := hsafe.safe e he (hens ▸ hns) w hw hens.symm hlt
    rwa [hens] at hin

/-- So recovery replays it. -/
theorem Inv.replays (h : Inv s) (hw : w ∈ s.log) (hns : w.ns ∉ s.dropped)
    (hlevel0 : s.inLevel0 w = false) : s.replays w = true := by
  obtain ⟨hcut, hsafe⟩ := h.saved_le hw hns hlevel0
  rw [Sys.replays, decide_eq_true_eq]
  refine ⟨hns, ?_⟩
  rw [Progress.replayFrom]
  split
  · rename_i e he
    have hens : e.1 = w.ns := by simpa using List.find?_some he
    exact max_le (hsafe e (List.mem_of_find?_eq_some he) hens) hcut
  · exact hcut

/-- No apply has failed. -/
def NoneFailed (s : Sys) : Prop := ∀ w ∈ s.log, w.stage ≠ .failed

theorem NoneFailed.keepsFailed (h : NoneFailed s) (a : Act) : keepsFailed s a = true := by
  have hall : ∀ ns c : ℕ, (s.log.all fun w =>
      decide (w.ns = ns → w.stage = .failed → c ≤ w.start)) = true := by
    intro ns c
    refine List.all_eq_true.mpr fun w hw => decide_eq_true fun _ hst => ?_
    exact absurd hst (h w hw)
  cases a with
  | sealReadInFlight ns | mark ns =>
    rw [WalProgress.keepsFailed]
    split
    · rw [hall, Bool.or_true]
    · rfl
  | _ => rfl

/-- A write from its append to the return of the call. -/
def write (ns : ℕ) (key value : List UInt8) (start len : ℕ) : List Act :=
  [.append ns key (some value) start len, .note start, .sync start, .apply start, .release start]

/-- A seal, and a flush up to the mark of its record. -/
def flushToMark (ns : ℕ) : List Act :=
  [.swap ns, .sealReadTail ns, .sealReadInFlight ns, .sealRecord ns, .writeLevel0 ns,
    .flushReadTail ns, .flushReadInFlight ns, .mark ns]

end WalProgress

end Minnal
