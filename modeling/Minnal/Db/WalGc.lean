import Minnal.Db.BackstopGaps
import Minnal.Wal.Deletion
import Minnal.Wal.Reopen

/-!
# What garbage collection reclaims

A pass **plans** from a snapshot of the metadata which segments to reclaim (`planWalGc`), and then
deletes everything below the last of them. Three limits meet in the plan: the active segment, the
segment of the cut, and the **watermark**, the oldest segment an active field index still replays
from. Past a cap on the segments the watermark pins, the oldest of them are reclaimed anyway; these
are the **forced** ones. A cap of 0 turns that off.

Between the plan and the deletion the log may rotate and the cut may move, and a deletion may stop
halfway. In every state of a run what is on disk is one run of segments, none of them missing, that
starts no later than the segment of the cut (`Live`), and a pass deletes exactly what its plan
selected (`wal_gc_reclaims_only_what_it_may`).
-/

set_option linter.dupNamespace false

namespace Minnal

open SegmentedLog
open List (mem_range'_1 pairwise_lt_range' mem_filter length_range' map_cons)

variable {s t : State} {oldest head stop : ℕ} {plan : WalGcPlan} {consumers : Consumers}

namespace WalGc

/-! ### The plan -/

/-- The retired segments: from the head's up to the active one or the cut's. -/
def ready (head cut currentSegment : ℕ) : List ℕ :=
  List.range' (segmentOf head) (min currentSegment (segmentOf cut) - segmentOf head)

/-- The segments the watermark pins, of the retired ones. -/
def pinnedFrom (head cut currentSegment watermark : ℕ) : List ℕ :=
  (ready head cut currentSegment).filter fun s => decide (watermark ≤ s)

/-- How many pinned segments the backstop reclaims: those past the cap, the oldest first. -/
def forceCount (maxPinned pinned : ℕ) : ℕ := if maxPinned = 0 then 0 else pinned - maxPinned

theorem forceCount_le (maxPinned pinned : ℕ) : forceCount maxPinned pinned ≤ pinned := by
  unfold forceCount
  split <;> omega

/-- **What is reclaimed is one run from the head up**, and the forced segments are its end. -/
theorem planWalGc_some (maxPinned head cut currentSegment watermark : ℕ) :
    planWalGc head cut currentSegment maxPinned (some watermark) =
      let pinned := pinnedFrom head cut currentSegment watermark
      let free := min currentSegment (min (segmentOf cut) watermark) - segmentOf head
      let force := forceCount maxPinned pinned.length
      { reclaim := List.range' (segmentOf head) (free + force)
        deferred := pinned.length - force
        forced := pinned.take force } := by
  have hfree : ((ready head cut currentSegment).filter fun s => !decide (watermark ≤ s)) =
      List.range' (segmentOf head)
        (min currentSegment (min (segmentOf cut) watermark) - segmentOf head) := by
    have hnot : (fun s => !decide (watermark ≤ s)) = fun s => decide (s < watermark) := by
      funext s
      rw [← decide_not, decide_eq_decide, not_le]
    rw [hnot, ready, range'_filter_lt]
    congr 1
    omega
  have hpinned : pinnedFrom head cut currentSegment watermark =
      List.range' (max (segmentOf head) watermark)
        (min currentSegment (segmentOf cut) - segmentOf head - (watermark - segmentOf head)) :=
    range'_filter_le ..
  have hforce := forceCount_le maxPinned (pinnedFrom head cut currentSegment watermark).length
  have hlen := congrArg List.length hpinned
  rw [length_range'] at hlen
  -- the free segments end where the pinned ones begin, if any of these is taken
  have hrun : (List.range' (segmentOf head)
      (min currentSegment (min (segmentOf cut) watermark) - segmentOf head)) ++
      (pinnedFrom head cut currentSegment watermark).take
        (forceCount maxPinned (pinnedFrom head cut currentSegment watermark).length) =
      List.range' (segmentOf head) (min currentSegment (min (segmentOf cut) watermark) -
        segmentOf head + forceCount maxPinned
          (pinnedFrom head cut currentSegment watermark).length) := by
    generalize forceCount maxPinned (pinnedFrom head cut currentSegment watermark).length = force
      at hforce
    rcases Nat.eq_zero_or_pos force with rfl | hpos
    · rw [List.take_zero, List.append_nil, Nat.add_zero]
    · rw [hpinned, List.take_range'_of_length_ge (by omega), ← List.range'_append_1]
      congr 2
      omega
  unfold planWalGc
  simp only [WalGcPlan.mk.injEq]
  refine ⟨?_, rfl, rfl⟩
  change (List.filter (fun s => !decide (watermark ≤ s)) (ready head cut currentSegment) ++
    (pinnedFrom head cut currentSegment watermark).take (forceCount maxPinned
      (pinnedFrom head cut currentSegment watermark).length)).insertionSort (· ≤ ·) = _
  rw [hfree, hrun, List.Pairwise.insertionSort_eq]
  exact (pairwise_lt_range' ..).imp Nat.le_of_lt

/-! ### Passes over a log in use -/

/-- The log's files in id order, its metadata, and the pass in progress: its plan and the head of
its snapshot. -/
structure State where
  files : List (ℕ × List UInt8)
  active : ℕ
  head : ℕ
  cut : ℕ
  totalGcRuns : ℕ
  totalBytesReclaimed : ℕ
  pass : Option (WalGcPlan × ℕ)

inductive Act where
  /-- The active file changes. -/
  | write (file : List UInt8)
  /-- The next segment is created. -/
  | rotate (file : List UInt8)
  /-- A flush moves the cut forward. -/
  | retire (cut : ℕ)
  /-- A pass takes its snapshot and plans, with what the field indices replay from. -/
  | plan (consumers : Consumers)
  /-- The pass deletes and moves the head. -/
  | collect (io : Answers)

/-- Saturating `u64` addition. -/
def saturatingAdd (a b : ℕ) : ℕ := min (a + b) (2 ^ 64 - 1)

/-- The rest of a pass, after its plan. -/
def collect (s : State) (io : Answers) (plan : WalGcPlan) (head : ℕ) : State :=
  let (files, deleted) := match plan.reclaim.getLast? with
    | some last => deleteSegmentsBelow s.active io s.files (last + 1)
    | none => (s.files, some (0, 0))
  match deleted with
  | none => { s with files := files, pass := none }
  | some (_, bytes) =>
    if io.listedAfter then
      let newHead := match files.head? with
        | some oldest => max (position oldest.1 segmentHeaderLen) head
        | none => head
      { s with
        files := files
        head := max s.head newHead
        totalGcRuns := saturatingAdd s.totalGcRuns 1
        totalBytesReclaimed := saturatingAdd s.totalBytesReclaimed bytes
        pass := none }
    else { s with files := files, pass := none }

def step (maxPinned : ℕ) (s : State) : Act → Option State
  | .write file =>
    some { s with files := s.files.map fun x => if x.1 = s.active then (x.1, file) else x }
  | .rotate file =>
    some { s with files := s.files ++ [(s.active + 1, file)], active := s.active + 1 }
  | .retire cut => if s.cut ≤ cut then some { s with cut := cut } else none
  | .plan consumers =>
    if s.pass.isNone then
      some { s with pass := some (planWalGc s.head s.cut s.active maxPinned
        (indexReplayWatermarkSegment consumers), s.head) }
    else none
  | .collect io => s.pass.map fun p => collect s io p.1 p.2

/-! ### One run of segments -/

/-- The segments on disk. -/
def State.ids (s : State) : List ℕ := s.files.map Prod.fst

/-- **One run of segments** up to the active one, which starts no later than the segment of the cut
and no earlier than the segment of the head. -/
structure Live (s : State) (oldest : ℕ) : Prop where
  ids : s.ids = List.range' oldest (s.active + 1 - oldest)
  le_active : oldest ≤ s.active
  le_cut : oldest ≤ segmentOf s.cut
  head_le : segmentOf s.head ≤ oldest

/-- A plan reclaims a run from a head, below the active segment and below the cut's. -/
structure Planned (s : State) (plan : WalGcPlan) (head : ℕ) : Prop where
  run : ∃ n, plan.reclaim = List.range' (segmentOf head) n ∧
    (n = 0 ∨ segmentOf head + n ≤ s.active ∧ segmentOf head + n ≤ segmentOf s.cut)
  head_le : head ≤ s.head

theorem planned_planWalGc (maxPinned : ℕ) (s : State) (watermark : Option ℕ) :
    Planned s (planWalGc s.head s.cut s.active maxPinned watermark) s.head := by
  refine ⟨?_, le_rfl⟩
  cases watermark with
  | none =>
    refine ⟨_, rfl, ?_⟩
    omega
  | some watermark =>
    rw [planWalGc_some]
    refine ⟨_, rfl, ?_⟩
    have hforce := forceCount_le maxPinned (pinnedFrom s.head s.cut s.active watermark).length
    have hlen : (pinnedFrom s.head s.cut s.active watermark).length =
        min s.active (segmentOf s.cut) - segmentOf s.head - (watermark - segmentOf s.head) := by
      rw [pinnedFrom, ready, range'_filter_le, length_range']
    omega

/-! ### Every state of a run -/

theorem segmentOf_mono {a b : ℕ} (h : a ≤ b) : segmentOf a ≤ segmentOf b := Nat.div_le_div_right h

theorem Live.sorted (h : Live s oldest) : (s.files.map Prod.fst).Pairwise (· < ·) := by
  have hids := h.ids
  rw [State.ids] at hids
  rw [hids]
  exact pairwise_lt_range' ..

theorem Live.mem_ids (h : Live s oldest) {i : ℕ} : i ∈ s.ids ↔ oldest ≤ i ∧ i ≤ s.active := by
  have hle := h.le_active
  rw [h.ids, mem_range'_1]
  omega

/-- What a pass leaves on disk: what stands from somewhere up, no further than its plan. -/
theorem collect_files (h : Live s oldest) (hp : Planned s plan head) (io : Answers) :
    ∃ stop ≤ min s.active (segmentOf s.cut),
      (collect s io plan head).files = keepFrom stop s.files ∧
      (∀ i, oldest ≤ i → i < stop → i ∈ plan.reclaim) ∧
      (io = .sound → ∀ i ∈ plan.reclaim, i < stop) := by
  obtain ⟨n, hrun, hbound⟩ := hp.run
  have hkeep : keepFrom 0 s.files = s.files :=
    List.filter_eq_self.mpr fun x _ => decide_eq_true (Nat.zero_le _)
  have hhead := h.head_le
  have hfiles : (collect s io plan head).files = (match plan.reclaim.getLast? with
      | some last => deleteSegmentsBelow s.active io s.files (last + 1)
      | none => (s.files, some (0, 0))).1 := by
    unfold collect
    dsimp only
    split
    · rfl
    · split <;> rfl
  rw [hfiles, hrun]
  rcases n with - | n
  · exact ⟨0, Nat.zero_le _, hkeep.symm, fun i _ hi => absurd hi (Nat.not_lt_zero i),
      fun _ => nofun⟩
  · have hlast : (List.range' (segmentOf head) (n + 1)).getLast? = some (segmentOf head + n) := by
      rw [List.range'_1_concat, List.getLast?_concat]
    obtain ⟨stop, hle, hstop, hall⟩ :=
      deleteSegmentsBelow_files s.active io h.sorted (segmentOf head + n + 1)
    have hmono := segmentOf_mono hp.head_le
    rw [hlast]
    refine ⟨stop, by omega, hstop, fun i hi hlt => ?_, fun hio i hi => ?_⟩
    · rw [mem_range'_1]
      omega
    · rw [hall hio]
      rw [mem_range'_1] at hi
      omega

/-- **Every step keeps one run of segments**, and keeps a plan in progress within its limits. -/
structure Inv (s : State) : Prop where
  live : ∃ oldest, Live s oldest
  pass : ∀ plan head, s.pass = some (plan, head) → Planned s plan head

theorem Planned.mono (h : Planned s plan head) (hactive : s.active ≤ t.active)
    (hcut : s.cut ≤ t.cut) (hhead : s.head ≤ t.head) : Planned t plan head := by
  obtain ⟨n, hrun, hbound⟩ := h.run
  have hmono := segmentOf_mono hcut
  exact ⟨⟨n, hrun, by omega⟩, h.head_le.trans hhead⟩

theorem segmentOf_max (a b : ℕ) : segmentOf (max a b) = max (segmentOf a) (segmentOf b) := by
  rcases le_total a b with h | h
  · rw [max_eq_right h, max_eq_right (segmentOf_mono h)]
  · rw [max_eq_left h, max_eq_left (segmentOf_mono h)]

theorem Live.keepFrom (h : Live s oldest) (hstop : stop ≤ min s.active (segmentOf s.cut))
    (hfiles : t.files = keepFrom stop s.files) (hactive : t.active = s.active)
    (hcut : t.cut = s.cut) (hhead : segmentOf t.head ≤ max oldest stop) :
    Live t (max oldest stop) := by
  have hle := h.le_active
  have hlecut := h.le_cut
  refine ⟨?_, by omega, by rw [hcut]; omega, hhead⟩
  have hids := h.ids
  rw [State.ids] at hids ⊢
  rw [hfiles, ids_keepFrom, hids, range'_filter_le, hactive]
  congr 1
  omega

theorem head?_keepFrom (h : Live s oldest) (hstop : stop ≤ min s.active (segmentOf s.cut)) :
    (SegmentedLog.keepFrom stop s.files).head?.map Prod.fst = some (max oldest stop) := by
  have hle := h.le_active
  have hids := h.ids
  rw [State.ids] at hids
  have hmap : ((SegmentedLog.keepFrom stop s.files).map Prod.fst).head? = some (max oldest stop) := by
    rw [ids_keepFrom, hids, range'_filter_le, List.head?_range', if_neg (by omega)]
  rwa [List.head?_map] at hmap

theorem collect_active (s : State) (io : Answers) (plan : WalGcPlan) (head : ℕ) :
    (collect s io plan head).active = s.active ∧ (collect s io plan head).cut = s.cut ∧
      (collect s io plan head).pass = none := by
  unfold collect
  dsimp only
  split
  · exact ⟨rfl, rfl, rfl⟩
  · split <;> exact ⟨rfl, rfl, rfl⟩

/-- The head moves to the oldest segment left, and never past it. -/
theorem collect_head (h : Live s oldest) (hp : Planned s plan head) (io : Answers)
    (hstop : stop ≤ min s.active (segmentOf s.cut))
    (hfiles : (collect s io plan head).files = keepFrom stop s.files) :
    segmentOf (collect s io plan head).head ≤ max oldest stop := by
  have hs := h.head_le
  have hmono := segmentOf_mono hp.head_le
  have hfirst := head?_keepFrom h hstop
  rw [← hfiles] at hfirst
  revert hfirst
  unfold collect
  dsimp only
  split
  · intro _
    exact hs.trans (le_max_left ..)
  · split
    · intro hfirst
      dsimp only at hfirst ⊢
      obtain ⟨x, hx, hxid⟩ := Option.map_eq_some_iff.mp hfirst
      have hpos : segmentOf (position x.1 segmentHeaderLen) = x.1 :=
        segmentOf_position (by decide)
      rw [hx]
      dsimp only
      rw [segmentOf_max, segmentOf_max, hpos]
      omega
    · intro _
      exact hs.trans (le_max_left ..)

theorem inv_collect (h : Inv s) (hpass : s.pass = some (plan, head)) (io : Answers) :
    Inv (collect s io plan head) := by
  obtain ⟨oldest, hlive⟩ := h.live
  have hp := h.pass plan head hpass
  obtain ⟨stop, hstop, hfiles, -, -⟩ := collect_files hlive hp io
  obtain ⟨hactive, hcut, hnone⟩ := collect_active s io plan head
  refine ⟨⟨_, hlive.keepFrom hstop hfiles hactive hcut (collect_head hlive hp io hstop hfiles)⟩, ?_⟩
  intro plan head hsome
  rw [hnone] at hsome
  cases hsome

theorem inv_step (maxPinned : ℕ) (s : State) (a : Act) (t : State) (h : Inv s)
    (hs : step maxPinned s a = some t) : Inv t := by
  obtain ⟨oldest, hlive⟩ := h.live
  cases a with
  | write file =>
    obtain rfl := Option.some.inj hs
    have hids : ({ s with files := s.files.map fun x =>
        if x.1 = s.active then (x.1, file) else x } : State).ids = s.ids := by
      rw [State.ids, State.ids, List.map_map]
      refine List.map_congr_left fun x _ => ?_
      rw [Function.comp_apply]
      split <;> rfl
    refine ⟨⟨oldest, ⟨?_, hlive.le_active, hlive.le_cut, hlive.head_le⟩⟩, fun plan head hp =>
      (h.pass plan head hp).mono le_rfl le_rfl le_rfl⟩
    rw [hids]
    exact hlive.ids
  | rotate file =>
    obtain rfl := Option.some.inj hs
    have hle := hlive.le_active
    refine ⟨⟨oldest, ⟨?_, Nat.le_succ_of_le hle, hlive.le_cut, hlive.head_le⟩⟩, fun plan head hp =>
      (h.pass plan head hp).mono (Nat.le_succ _) le_rfl le_rfl⟩
    have hids := hlive.ids
    rw [State.ids] at hids ⊢
    have hlen : s.active + 1 + 1 - oldest = s.active + 1 - oldest + 1 := by omega
    have hnext : oldest + (s.active + 1 - oldest) = s.active + 1 := by omega
    rw [List.map_append, hids, hlen, List.range'_1_concat, hnext]
    rfl
  | retire cut =>
    obtain ⟨hcut, rfl⟩ := Option.ite_some_none_eq_some.mp hs
    exact ⟨⟨oldest, hlive.ids, hlive.le_active, hlive.le_cut.trans (segmentOf_mono hcut),
      hlive.head_le⟩, fun plan head hp => (h.pass plan head hp).mono le_rfl hcut le_rfl⟩
  | plan consumers =>
    obtain ⟨-, rfl⟩ := Option.ite_some_none_eq_some.mp hs
    refine ⟨⟨oldest, hlive.ids, hlive.le_active, hlive.le_cut, hlive.head_le⟩,
      fun plan head hp => ?_⟩
    obtain ⟨rfl, rfl⟩ := Prod.mk.inj (Option.some.inj hp)
    exact (planned_planWalGc maxPinned s _).mono le_rfl le_rfl le_rfl
  | collect io =>
    obtain ⟨⟨plan, head⟩, hpass, rfl⟩ := Option.map_eq_some_iff.mp hs
    exact inv_collect h hpass io

theorem inv_run {maxPinned : ℕ} {s₀ : State} (h₀ : ∃ oldest, Live s₀ oldest)
    (hpass : s₀.pass = none) {acts : List Act}
    (hrun : StepRun.run (step maxPinned) s₀ acts = some s) : Inv s := by
  refine StepRun.invariant (inv_step maxPinned) ⟨h₀, fun plan head hp => ?_⟩ hrun
  rw [hpass] at hp
  cases hp

/-! ### A reopen -/

section
variable (k : LogKind)

theorem walkAllSealed_append (cut : ℕ) (first rest : List (ℕ × List UInt8))
    {v : List (ℕ × List UInt8)}
    (h : walkAllSealed k cut (first ++ rest) = .ok v) (hbelow : ∀ x ∈ first, x.1 < segmentOf cut) :
    walkAllSealed k cut rest = .ok v := by
  induction first with
  | nil => exact h
  | cons x first ih =>
    obtain ⟨id, file⟩ := x
    have hid : id < segmentOf cut := hbelow _ List.mem_cons_self
    rw [List.cons_append, walkAllSealed] at h
    -- a segment below the cut's is not read past its header
    have hwalk : ∀ visited, walkSealed k cut id file = .ok visited → visited = [] := by
      intro visited hv
      unfold walkSealed at hv
      split at hv
      · cases hv
      · split at hv
        · cases hv
        · exact (Except.ok.inj hv).symm
    refine ih ?_ fun x hx => hbelow x (List.mem_cons_of_mem _ hx)
    split at h
    · cases h
    · next visited hv =>
      obtain rfl := hwalk visited hv
      rcases hrest : walkAllSealed k cut (first ++ rest) with e | more
      · rw [hrest] at h
        cases h
      · rw [hrest] at h
        exact congrArg _ (Except.ok.inj h)

/-- Neighbours in a run of segments follow each other. -/
theorem no_gap {files : List (ℕ × List UInt8)} {a n : ℕ}
    (h : files.map Prod.fst = List.range' a n) :
    ((files.zip files.tail).find? fun w => decide (w.2.1 ≠ w.1.1 + 1)) = none := by
  induction files generalizing a n with
  | nil => rfl
  | cons x files ih =>
    rcases n with - | n
    · cases h
    · rw [map_cons, List.range'_succ] at h
      obtain ⟨rfl, hrest⟩ := List.cons.inj h
      cases files with
      | nil => rfl
      | cons y files =>
        have hnext : y.1 = x.1 + 1 := by
          rcases n with - | n
          · cases hrest
          · exact (List.cons.inj hrest).1
        have htail := ih hrest
        rw [List.tail_cons, List.zip_cons_cons, List.find?_cons_of_neg (by simp [hnext])]
        exact htail

/-- **A reopen accepts what is on disk**: no segment is missing, and the cut is not below them. -/
theorem Live.checkSegments (h : Live s oldest) {cut : ℕ} (hcut : s.cut ≤ cut) :
    SegmentedLog.checkSegments (some cut) s.files = .ok () := by
  have hids := h.ids
  have hle := h.le_active
  rw [State.ids] at hids
  unfold SegmentedLog.checkSegments
  rw [no_gap hids]
  cases hfiles : s.files with
  | nil => rfl
  | cons x files =>
    rw [hfiles, map_cons] at hids
    have hlen : s.active + 1 - oldest = s.active - oldest + 1 := by omega
    rw [hlen, List.range'_succ] at hids
    obtain ⟨hx, -⟩ := List.cons.inj hids
    have hmono := segmentOf_mono hcut
    have hlecut := h.le_cut
    rw [List.head?_cons]
    dsimp only
    rw [if_neg (by omega)]

/-- Deleting segments below the cut's changes nothing for a reopen that reads the rest. -/
theorem openLog_keepFrom (h : Live s oldest) (hstop : stop ≤ min s.active (segmentOf s.cut))
    (hfiles : t.files = SegmentedLog.keepFrom stop s.files) (ht : Live t (max oldest stop))
    (htcut : t.cut = s.cut) {size furthest : ℕ} {o : Opened}
    (hok : (openLog k s.files size ⟨some s.cut, furthest⟩).2 = .ok o) :
    openLog k t.files size ⟨some s.cut, furthest⟩ =
      openLog k s.files size ⟨some s.cut, furthest⟩ := by
  have hsort : ∀ {u : State} {i : ℕ}, Live u i →
      (u.files.insertionSort fun a b => a.1 ≤ b.1) = u.files := by
    intro u i hu
    refine List.Pairwise.insertionSort_eq ?_
    exact (List.pairwise_map.mp hu.sorted).imp Nat.le_of_lt
  have hsplit := below_append_keepFrom stop h.sorted
  rw [← hfiles] at hsplit
  have hne : t.files ≠ [] := by
    intro hnil
    have hids := ht.ids
    have hle := ht.le_active
    rw [State.ids, hnil, List.map_nil, eq_comm, List.range'_eq_nil_iff] at hids
    omega
  have hlast : s.files.getLast? = t.files.getLast? := by
    rw [← hsplit, List.getLast?_append_of_ne_nil _ hne]
  have hcheckt : SegmentedLog.checkSegments (some s.cut) t.files = .ok () :=
    ht.checkSegments htcut.le
  unfold openLog at hok ⊢
  simp only [hsort h, hsort ht, h.checkSegments le_rfl, hcheckt, Option.getD_some] at hok ⊢
  cases hwalk : walkAllSealed k s.cut s.files.dropLast with
  | error e =>
    rw [hwalk] at hok
    cases hok
  | ok visited =>
    have hrest : walkAllSealed k s.cut t.files.dropLast = .ok visited := by
      rw [← hsplit, List.dropLast_append_of_ne_nil hne] at hwalk
      refine walkAllSealed_append k s.cut _ _ hwalk fun x hx => ?_
      rw [mem_filter, decide_eq_true_eq] at hx
      omega
    rw [hrest, hlast]

end

/-! ### What a pass may reclaim -/

/-- A field index still replays a segment. -/
def Needed (consumers : Consumers) (i : ℕ) : Prop :=
  ∃ f ∈ fieldReplayOffsets consumers, segmentOf f.2 ≤ i

instance (consumers : Consumers) : DecidablePred (Needed consumers) := fun i =>
  inferInstanceAs (Decidable (∃ f ∈ fieldReplayOffsets consumers, segmentOf f.2 ≤ i))

/-- The segments on disk that are retired and that a field index still replays, oldest first. -/
def State.pinned (s : State) (consumers : Consumers) : List ℕ :=
  s.ids.filter fun i => decide (i < s.active ∧ i < segmentOf s.cut ∧ Needed consumers i)

theorem needed_iff {i : ℕ} :
    Needed consumers i ↔ ∃ w, indexReplayWatermarkSegment consumers = some w ∧ w ≤ i := by
  unfold Needed indexReplayWatermarkSegment
  constructor
  · rintro ⟨f, hf, hle⟩
    cases hmin : ((fieldReplayOffsets consumers).map fun f => segmentOf f.2).min? with
    | none =>
      rw [List.min?_eq_none_iff, List.map_eq_nil_iff] at hmin
      rw [hmin] at hf
      cases hf
    | some w =>
      have hle' := (List.min?_eq_some_iff.mp hmin).2 _ (List.mem_map_of_mem hf)
      exact ⟨w, rfl, hle'.trans hle⟩
  · rintro ⟨w, hmin, hle⟩
    obtain ⟨f, hf, rfl⟩ := List.mem_map.mp (List.min?_eq_some_iff.mp hmin).1
    exact ⟨f, hf, hle⟩

/-- **A plan reclaims only what it may.** The active segment and those from the cut's up are spared;
what a field index needs is reclaimed only as forced; the forced segments on disk are the oldest of
the pinned ones, as many as there are past the cap; and what is selected of the segments on disk is
a run from the oldest. -/
structure PlanSafe (maxPinned : ℕ) (s : State) (consumers : Consumers) (plan : WalGcPlan) :
    Prop where
  active : s.active ∉ plan.reclaim
  below_cut : ∀ i ∈ plan.reclaim, i < segmentOf s.cut
  needed : ∀ i ∈ plan.reclaim, Needed consumers i → i ∈ plan.forced
  forced : plan.forced.filter (fun i => decide (i ∈ s.ids)) =
    if maxPinned = 0 then []
    else (s.pinned consumers).take ((s.pinned consumers).length - maxPinned)
  from_oldest : plan.reclaim.filter (fun i => decide (i ∈ s.ids)) <+: s.ids

theorem pinnedFrom_eq (head cut currentSegment watermark : ℕ) :
    pinnedFrom head cut currentSegment watermark =
      List.range' (max (segmentOf head) watermark)
        (min currentSegment (segmentOf cut) - max (segmentOf head) watermark) := by
  rw [pinnedFrom, ready, range'_filter_le]
  congr 1
  omega

theorem Live.pinned_eq (h : Live s oldest) {w : ℕ}
    (hw : indexReplayWatermarkSegment consumers = some w) :
    s.pinned consumers =
      List.range' (max oldest w) (min s.active (segmentOf s.cut) - max oldest w) := by
  have hsorted := h.ids
  refine eq_of_ascending (.filter _ ?_) (pairwise_lt_range' ..) fun i => ?_
  · rw [hsorted]
    exact pairwise_lt_range' ..
  · have hneeded : Needed consumers i ↔ w ≤ i := by
      rw [needed_iff, hw]
      simp
    rw [State.pinned, mem_filter, h.mem_ids, decide_eq_true_eq, hneeded, mem_range'_1]
    omega

theorem Live.pinned_nil (hw : indexReplayWatermarkSegment consumers = none) :
    s.pinned consumers = [] := by
  refine List.filter_eq_nil_iff.mpr fun i _ => ?_
  rw [decide_eq_true_eq, needed_iff, hw]
  simp

theorem planSafe (h : Live s oldest) (maxPinned : ℕ) (consumers : Consumers) :
    PlanSafe maxPinned s consumers (planWalGc s.head s.cut s.active maxPinned
      (indexReplayWatermarkSegment consumers)) := by
  obtain ⟨n, hrun, hbound⟩ :=
    (planned_planWalGc maxPinned s (indexReplayWatermarkSegment consumers)).run
  have hmem : ∀ i, i ∈ (planWalGc s.head s.cut s.active maxPinned
      (indexReplayWatermarkSegment consumers)).reclaim ↔
      segmentOf s.head ≤ i ∧ i < segmentOf s.head + n := by
    intro i
    rw [hrun, mem_range'_1]
  have hhead := h.head_le
  have hle := h.le_active
  refine ⟨?_, ?_, ?_, ?_, ?_⟩
  · rw [hmem]
    omega
  · intro i hi
    rw [hmem] at hi
    omega
  · intro i hi hneed
    obtain ⟨w, hw, hwi⟩ := needed_iff.mp hneed
    rw [hw] at hi ⊢
    have hforce := forceCount_le maxPinned (pinnedFrom s.head s.cut s.active w).length
    rw [planWalGc_some] at hi ⊢
    dsimp only at hi ⊢
    generalize forceCount maxPinned (pinnedFrom s.head s.cut s.active w).length = force
      at hi hforce ⊢
    rw [pinnedFrom_eq, length_range'] at hforce
    rw [mem_range'_1] at hi
    rw [pinnedFrom_eq, List.take_range'_of_length_ge hforce, mem_range'_1]
    omega
  · cases hw : indexReplayWatermarkSegment consumers with
    | none =>
      rw [Live.pinned_nil hw, List.take_nil, ite_self]
      rfl
    | some w =>
      have hforce := forceCount_le maxPinned
        (min s.active (segmentOf s.cut) - max (segmentOf s.head) w)
      rw [planWalGc_some, h.pinned_eq hw, length_range',
        List.take_range'_of_length_ge (Nat.sub_le ..)]
      dsimp only
      rw [pinnedFrom_eq, length_range', List.take_range'_of_length_ge hforce, forceCount]
      by_cases hcap : maxPinned = 0
      · rw [if_pos hcap, if_pos hcap]
        rfl
      · rw [if_neg hcap, if_neg hcap]
        refine eq_of_ascending (.filter _ (pairwise_lt_range' ..))
          (pairwise_lt_range' ..) fun i => ?_
        rw [mem_filter, decide_eq_true_eq, h.mem_ids, mem_range'_1, mem_range'_1]
        omega
  · have hlive : (planWalGc s.head s.cut s.active maxPinned
        (indexReplayWatermarkSegment consumers)).reclaim.filter (fun i => decide (i ∈ s.ids)) =
        List.range' oldest (segmentOf s.head + n - oldest) := by
      refine eq_of_ascending (.filter _ ?_) (pairwise_lt_range' ..) fun i => ?_
      · rw [hrun]
        exact pairwise_lt_range' ..
      · rw [mem_filter, decide_eq_true_eq, hmem, h.mem_ids, mem_range'_1]
        omega
    refine ⟨List.range' (oldest + (segmentOf s.head + n - oldest))
      (s.active + 1 - oldest - (segmentOf s.head + n - oldest)), ?_⟩
    rw [hlive, h.ids, List.range'_append_1]
    congr 1
    omega

/-- **A pass deletes exactly what its plan selected**, a run from the oldest of it when a deletion
fails, and a reopen that accepts the log before the pass reads the same after it. -/
structure PassExact (s : State) (io : Answers) (plan : WalGcPlan) (head : ℕ) : Prop where
  exactly : io = .sound → (collect s io plan head).files =
    s.files.filter fun x => decide (x.1 ∉ plan.reclaim)
  oldest_first : ∃ gone, s.files = gone ++ (collect s io plan head).files ∧
    ∀ x ∈ gone, x.1 ∈ plan.reclaim
  reopens : ∀ (k : LogKind) (size furthest : ℕ) (o : Opened),
    (openLog k s.files size ⟨some s.cut, furthest⟩).2 = .ok o →
    openLog k (collect s io plan head).files size ⟨some s.cut, furthest⟩ =
      openLog k s.files size ⟨some s.cut, furthest⟩

theorem passExact (h : Inv s) (hpass : s.pass = some (plan, head)) (io : Answers) :
    PassExact s io plan head := by
  obtain ⟨oldest, hlive⟩ := h.live
  have hp := h.pass plan head hpass
  obtain ⟨stop, hstop, hfiles, hgone, hall⟩ := collect_files hlive hp io
  have hids : ∀ x ∈ s.files, oldest ≤ x.1 := fun x hx =>
    (hlive.mem_ids.mp (List.mem_map_of_mem hx)).1
  obtain ⟨hactive, hcut, -⟩ := collect_active s io plan head
  refine ⟨fun hio => ?_, ⟨s.files.filter fun x => decide (x.1 < stop), ?_, fun x hx => ?_⟩, ?_⟩
  · rw [hfiles]
    refine List.filter_congr fun x hx => ?_
    rw [decide_eq_decide]
    constructor
    · intro hge hmem
      have hlt := hall hio x.1 hmem
      omega
    · intro hnot
      by_contra hlt
      exact hnot (hgone x.1 (hids x hx) (by omega))
  · rw [hfiles]
    exact (below_append_keepFrom stop hlive.sorted).symm
  · rw [mem_filter, decide_eq_true_eq] at hx
    exact hgone x.1 (hids x hx.1) hx.2
  · intro k size furthest o hok
    have hhead := collect_head hlive hp io hstop hfiles
    exact openLog_keepFrom k hlive hstop hfiles
      (hlive.keepFrom hstop hfiles hactive hcut hhead) hcut hok

/-- **Garbage collection reclaims only what it may**, in every state of a run of rotations,
flushes that move the cut and passes: every plan is safe, every pass deletes exactly what it
planned, and what is on disk is one run of segments that a reopen accepts. -/
theorem wal_gc_reclaims_only_what_it_may (maxPinned : ℕ) {s₀ s : State}
    (h₀ : ∃ oldest, Live s₀ oldest) (hpass : s₀.pass = none) (acts : List Act)
    (hrun : StepRun.run (step maxPinned) s₀ acts = some s) :
    (∀ consumers, PlanSafe maxPinned s consumers (planWalGc s.head s.cut s.active maxPinned
      (indexReplayWatermarkSegment consumers))) ∧
    (∀ plan head, s.pass = some (plan, head) → ∀ io, PassExact s io plan head) ∧
    ∀ cut, s.cut ≤ cut → checkSegments (some cut) s.files = .ok () := by
  have h := inv_run h₀ hpass hrun
  obtain ⟨oldest, hlive⟩ := h.live
  exact ⟨planSafe hlive maxPinned, fun plan head hp io => passExact h hp io, fun cut hcut =>
    hlive.checkSegments hcut⟩

/-- Four segments, the last one active and the cut in it. -/
def fourSegments : State :=
  { files := [(0, []), (1, []), (2, []), (3, [])], active := 3, head := position 0 16,
    cut := position 3 16, totalGcRuns := 0, totalBytesReclaimed := 0, pass := none }

theorem live_fourSegments : Live fourSegments 0 where
  ids := rfl
  le_active := by decide
  le_cut := by decide
  head_le := by decide

/-- An index that replays from the second segment. -/
def fromSecond : Consumers := ⟨[⟨0, 0, some (position 1 40), true⟩], by decide⟩

/-- With a cap of one, the first two segments are reclaimed, the second of them as forced. -/
theorem wal_gc_reclaims_only_what_it_may_four :
    (planWalGc fourSegments.head fourSegments.cut fourSegments.active 1
      (indexReplayWatermarkSegment fromSecond)) = ⟨[0, 1], 1, [1]⟩ ∧
    ∃ s, StepRun.run (step 1) fourSegments [.plan fromSecond, .collect .sound] = some s ∧
      s.ids = [2, 3] ∧ checkSegments (some s.cut) s.files = .ok () :=
  ⟨rfl, _, rfl, rfl,
    (wal_gc_reclaims_only_what_it_may 1 ⟨0, live_fourSegments⟩ rfl
      [.plan fromSecond, .collect .sound] rfl).2.2 _ le_rfl⟩

/-- With a cap of 0 nothing is forced, however many segments are pinned. -/
theorem cap_zero_forces_nothing :
    Live fourSegments 0 ∧
    (planWalGc fourSegments.head fourSegments.cut fourSegments.active 0
      (indexReplayWatermarkSegment fromSecond)).forced ≠
      (fourSegments.pinned fromSecond).take ((fourSegments.pinned fromSecond).length - 0) :=
  ⟨live_fourSegments, by decide⟩

end WalGc

end Minnal
