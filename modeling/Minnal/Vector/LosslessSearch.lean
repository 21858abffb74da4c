import Minnal.Vector.RoutingEpoch

/-!
# Searches lose no chunk

The invariant says where a stored chunk may be found, phase by phase. Until its copies are recorded
an operation takes nothing away, so any key that holds the chunk will do; while it copies, a chunk
in a drained posting is copied already or still to be copied. From then on the chunk has a **spared**
place, one the operation does not take it from (`Safe`). What a reader has still to read is judged
likewise, but a reader that entered before the barrier may still rely on what is about to be taken,
because the barrier waits for it (`Lasting`).
-/

set_option linter.dupNamespace false

namespace Minnal.RoutingEpoch

open State DocVectors
open Option hiding or_self

section Places

variable {P D C : Type*} [LinearOrder P]

/-- The chunk is under the posting, and the operation does not take it from there. -/
def Plan.Spared (plan : Plan P C) (v : DocVectors P C) (p : P) (x : C) : Prop :=
  match plan with
  | .drain d => v.Holds p x ∧ p ∉ d.drained
  | .reassign _ => v.Stays plan.dest p x

variable {v : DocVectors P C} {p : P} {x : C}

theorem Plan.Spared.holds {plan : Plan P C} (h : plan.Spared v p x) : v.Holds p x := by
  cases plan with
  | drain d => exact h.1
  | reassign r => exact Stays.holds h

variable {q : P}

/-- A chunk that has arrived does not go on. -/
theorem Plan.dest_final (plan : Plan P C) (h : plan.dest p x = some q) : plan.dest q x = none := by
  cases plan with
  | drain d =>
    obtain ⟨-, rfl⟩ := ite_some_none_eq_some.mp h
    exact if_neg (d.not_drained _ (d.destination_mem x))
  | reassign r =>
    obtain ⟨hq, -⟩ := filter_eq_some_iff.mp h
    change (r.nearest x).filter _ = none
    rw [hq]
    simp

theorem Plan.dest_mem_targets (plan : Plan P C) (h : plan.dest p x = some q) :
    q ∈ plan.targets := by
  cases plan with
  | drain d =>
    obtain ⟨-, rfl⟩ := ite_some_none_eq_some.mp h
    exact d.destination_mem x
  | reassign r => exact r.nearest_mem x q (filter_eq_some_iff.mp h).1

/-- **What is not drained has a spared place**, where it is or at its destination. -/
theorem Plan.exists_spared (plan : Plan P C) (h : v.Holds p x) (hp : p ∉ plan.drained) :
    ∃ q, (q = p ∨ q ∈ plan.targets) ∧ plan.Spared v q x := by
  cases plan with
  | drain d => exact ⟨p, .inl rfl, h, hp⟩
  | reassign r =>
    have hfinal : ∀ p x q, (Plan.reassign r).dest p x = some q → (Plan.reassign r).dest q x = none :=
      fun _ _ _ hdest => Plan.dest_final _ hdest
    obtain ⟨q, hq, hstays⟩ := exists_stays hfinal h
    exact ⟨q, hq.imp id fun hdest => Plan.dest_mem_targets (.reassign r) hdest, hstays⟩

/-- What every write of a walk keeps. -/
structure Plan.Keeps (plan : Plan P C) (walk : Walk) (v : DocVectors P C) (w : VectorWrite P C) :
    Prop where
  copying : walk = .copy → ∀ p x, v.Holds p x → (v.write w).Holds p x
  deleting : walk = .delete → ∀ p x, plan.Spared v p x → plan.Spared (v.write w) p x
  keepsMeta : w.keepsMeta = true

/-- What the entries of a walk may name. -/
def Plan.Sources (plan : Plan P C) (sources : List P) : Prop :=
  ∀ d, plan = .drain d → ∃ p ∈ d.drained, sources = [p]

variable [DecidableEq C] {sources : List P}

/-- **Every walk keeps what it must.** -/
theorem Plan.along_writes (plan : Plan P C) (walk : Walk) (v : DocVectors P C)
    (hnodup : sources.Nodup) (hsources : plan.Sources sources) :
    Along (plan.Keeps walk) v (plan.writes walk v sources) := by
  cases walk with
  | copy =>
    exact (along_copyWrites v _).mono fun u w hw =>
      ⟨fun _ => hw.holds, nofun, hw.keepsMeta⟩
  | delete =>
    cases plan with
    | drain d =>
      obtain ⟨p, hp, rfl⟩ := hsources d rfl
      change Along _ v (v.drainDeleteWrites p ++ [])
      rw [List.append_nil]
      refine (along_drainDeleteWrites v p).mono fun u w hw => ⟨nofun, fun _ q x hx => ?_,
        hw.keepsMeta⟩
      exact ⟨hw.holds q (fun h => hx.2 (h ▸ hp)) x hx.1, hx.2⟩
    | reassign r =>
      have hfinal : ∀ p x q, (Plan.reassign r).dest p x = some q →
          (Plan.reassign r).dest q x = none := fun _ _ _ hdest => Plan.dest_final _ hdest
      exact (along_shrinkWrites v hfinal hnodup).mono fun u w hw =>
        ⟨nofun, fun _ => hw.stays, hw.keepsMeta⟩

/-- A copy from a drained posting puts its chunks somewhere that is not drained. -/
theorem Plan.holds_copy (plan : Plan P C) (hmeta : v.postings.isSome) (hp : p ∈ sources)
    (hdrained : p ∈ plan.drained) (h : v.Holds p x) :
    ∃ q ∈ plan.targets, q ∉ plan.drained ∧
      (v.writeAll (plan.writes .copy v sources)).Holds q x := by
  cases plan with
  | drain d =>
    refine ⟨d.destination x, d.destination_mem x, d.not_drained _ (d.destination_mem x), ?_⟩
    refine holds_copyWrites hmeta (List.mem_flatMap.mpr ⟨p, hp, ?_⟩)
    have hdest : (Plan.drain d).dest p x = some (d.destination x) := if_pos hdrained
    exact List.mem_filterMap.mpr ⟨x, h, by rw [hdest, map_some]⟩
  | reassign r => cases hdrained

end Places

/-! ### The invariant -/

variable {epoch e : Grace.State} {r : ℕ} {walk : Walk} {i : ℕ} {state : PostingState}

section Invariant

variable {P D C : Type*} [LinearOrder P]

/-- The copies are recorded: chunks may be taken, or have been. -/
def Phase.spares : Phase P D C → Bool
  | .installed .publish => false
  | .waiting .publish _ => false
  | .walking .copy _ _ _ => false
  | _ => true

/-- The snapshot without the drained postings is installed. -/
def Phase.retires : Phase P D C → Bool
  | .installed .retire => true
  | .waiting .retire _ => true
  | _ => false

/-- A chunk in a drained posting is still to be copied: the posting or the document is to come, or
the writes in hand put it somewhere else. -/
def ToCopy (S : Snapshot P) (plan : Plan P C) (rest : List P) (todo : List (Entry P D))
    (hand : Option (D × List (VectorWrite P C))) (d : D) (v : DocVectors P C) (p : P) (x : C) :
    Prop :=
  p ∈ rest ∨ (∃ e ∈ todo, e.doc = d ∧ p ∈ e.sources) ∨
    ∃ ws q, hand = some (d, ws) ∧ S.visible q ∧ q ∉ plan.drained ∧ (v.writeAll ws).Holds q x

/-- **Where a stored chunk is.** -/
def Safe (S : Snapshot P) (op : Option (Plan P C × Phase P D C)) (d : D) (v : DocVectors P C)
    (x : C) : Prop :=
  match op with
  | none => ∃ p, S.visible p ∧ v.Holds p x
  | some (plan, .walking .copy rest todo hand) =>
    (∃ q, S.visible q ∧ q ∉ plan.drained ∧ v.Holds q x) ∨
      ∃ p ∈ plan.drained, v.Holds p x ∧ ToCopy S plan rest todo hand d v p x
  | some (plan, phase) =>
    if phase.spares then ∃ p, S.visible p ∧ plan.Spared v p x else ∃ p, S.visible p ∧ v.Holds p x

/-- **A place that lasts** while the reader is inside. -/
def Lasting (epoch : Grace.State) (op : Option (Plan P C × Phase P D C)) (r : ℕ)
    (v : DocVectors P C) (p : P) (x : C) : Prop :=
  match op with
  | some (plan, .waiting .barrier i) =>
    v.Holds p x ∧ (r < epoch.entered i ∨ plan.Spared v p x)
  | some (_, .copied) => v.Holds p x
  | some (plan, phase) => if phase.spares then plan.Spared v p x else v.Holds p x
  | none => v.Holds p x

/-- The reader may go by the snapshot that was installed before. -/
def Behind (epoch : Grace.State) (op : Option (Plan P C × Phase P D C)) (r : ℕ) : Prop :=
  match op with
  | some (_, .installed .publish) => True
  | some (_, .waiting .publish i) => r < epoch.entered i
  | _ => False

variable [DecidableEq D]

/-- What holds of a walk. -/
structure WalkInv (s : State P D C) (plan : Plan P C) (walk : Walk) (rest : List P)
    (todo : List (Entry P D)) (hand : Option (D × List (VectorWrite P C))) : Prop where
  rest : ∀ p ∈ rest, p ∈ plan.drained
  todo : ∀ e ∈ todo, plan.Sources e.sources
  hand : ∀ d ws, hand = some (d, ws) →
    (s.docs d).writing = none ∧ DocVectors.Along (plan.Keeps walk) (s.docs d).vectors ws

/-- What holds of an operation. -/
structure OpInv (s : State P D C) (plan : Plan P C) (phase : Phase P D C) : Prop where
  targets : ∀ q ∈ plan.targets, s.current q = some .active
  drained : ∀ p ∈ plan.drained, s.current p = some (if phase.retires then .retired else .draining)
  waiter : ∀ pause i, phase = .waiting pause i → i < s.epoch.waiters.length
  walking : ∀ walk rest todo hand, phase = .walking walk rest todo hand →
    WalkInv s plan walk rest todo hand

/-- What holds of a vector write. -/
structure WritingInv (s : State P D C) (d : D) (job : Writing P C) : Prop where
  free : s.inHand d = false
  /-- Once every write is made, every code is under its posting. -/
  holds : ∀ y ∈ job.filed, ((s.docs d).vectors.writeAll job.pending).Holds y.1 y.2
  hasMeta : job.filed ≠ [] → ((s.docs d).vectors.writeAll job.pending).postings.isSome
  byReader : job.filed ≠ [] → job.reader.isSome
  inside : ∀ r, job.reader = some r → s.epoch.Inside r ∧ (s.readers r).writing = some d ∧
    ∃ S, (s.readers r).snapshot = some S ∧ ∀ y ∈ job.filed, S y.1 = some .active

/-- What holds of a document. -/
structure DocInv (s : State P D C) (d : D) : Prop where
  hasMeta : (s.docs d).stored ≠ [] → (s.docs d).vectors.postings.isSome
  known : (s.docs d).stored ≠ [] ∨ (s.docs d).writing.isSome → d ∈ s.known
  safe : ∀ x ∈ (s.docs d).stored, Safe s.current s.op d (s.docs d).vectors x
  writing : ∀ job, (s.docs d).writing = some job → WritingInv s d job

/-- The reader has read the chunk. -/
def Seen (a : ReaderState P D C) (S : Snapshot P) (d : D) (x : C) : Prop :=
  ∃ p codes, S.visible p ∧ a.read p d = some (some codes) ∧ x ∈ codes

/-- What holds of a reader inside that has its snapshot. -/
structure ReaderInv (s : State P D C) (r : ℕ) (S : Snapshot P) : Prop where
  active : ∀ p, S p = some .active →
    s.current p = some .active ∨ s.current p = some .draining ∧ Behind s.epoch s.op r
  /-- **Nothing is lost**: a chunk of a document that was not written is read, or still to read. -/
  finds : ∀ d, (s.readers r).touched d = false → ∀ x ∈ (s.docs d).stored,
    Seen (s.readers r) S d x ∨ ∃ p, S.visible p ∧ (s.readers r).read p d = none ∧
      Lasting s.epoch s.op r (s.docs d).vectors p x

/-- **The invariant.** -/
structure Inv (s : State P D C) : Prop where
  epoch : Grace.Inv s.epoch
  op : ∀ plan phase, s.op = some (plan, phase) → OpInv s plan phase
  docs : ∀ d, DocInv s d
  readers : ∀ r S, s.epoch.Inside r → (s.readers r).snapshot = some S → ReaderInv s r S

variable {op : Option (Plan P C × Phase P D C)} {v : DocVectors P C} {p : P} {x : C}

omit [DecidableEq D] in
theorem Lasting.holds (h : Lasting epoch op r v p x) : v.Holds p x := by
  unfold Lasting at h
  split at h
  · exact h.1
  · exact h
  · split at h
    · exact h.holds
    · exact h
  · exact h

omit [LinearOrder P] [DecidableEq D] in
/-- Who is behind is judged by whom the wait waits for. -/
theorem Behind.of_entered (h : Behind epoch op r)
    (hentered : ∀ plan pause i, op = some (plan, .waiting pause i) →
      e.entered i = epoch.entered i) : Behind e op r := by
  rcases op with _ | ⟨plan, pause | ⟨pause, i⟩ | _ | _⟩
  · exact h
  · cases pause <;> exact h
  · have heq := hentered plan pause i rfl
    cases pause with
    | publish => exact (show r < e.entered i by rw [heq]; exact h)
    | barrier => exact h
    | retire => exact h
  · exact h
  · exact h

omit [DecidableEq D] in
/-- So is which places last. -/
theorem Lasting.of_entered (h : Lasting epoch op r v p x)
    (hentered : ∀ plan pause i, op = some (plan, .waiting pause i) →
      e.entered i = epoch.entered i) : Lasting e op r v p x := by
  rcases op with _ | ⟨plan, pause | ⟨pause, i⟩ | _ | _⟩
  · exact h
  · exact h
  · have heq := hentered plan pause i rfl
    cases pause with
    | publish => exact h
    | barrier => exact ⟨h.1, heq ▸ h.2⟩
    | retire => exact h
  · exact h
  · exact h

variable {s t : State P D C} {d : D}

omit [LinearOrder P] in
theorem State.inHand_eq_false : s.inHand d = false ↔
    ∀ plan walk rest todo d' ws, s.op = some (plan, .walking walk rest todo (some (d', ws))) →
      d' ≠ d := by
  unfold inHand
  constructor
  · intro h plan walk rest todo d' ws hop
    rw [hop] at h
    exact beq_eq_false_iff_ne.mp h
  · intro h
    split
    · next hop => exact beq_eq_false_iff_ne.mpr (h _ _ _ _ _ _ hop)
    · rfl

/-! ### Steps of the epoch -/

/-- Readers and waits may move on: the waits know whom they wait for, and a reader that writes
stays. -/
theorem Inv.of_epoch (h : Inv s) (he : Grace.Inv e)
    (hwaiters : s.epoch.waiters.length ≤ e.waiters.length)
    (hentered : ∀ plan pause i, s.op = some (plan, .waiting pause i) →
      e.entered i = s.epoch.entered i) (hinside : ∀ r, e.Inside r → s.epoch.Inside r)
    (hwriting : ∀ r, s.epoch.Inside r → (s.readers r).writing ≠ none → e.Inside r) :
    Inv { s with epoch := e } where
  epoch := he
  op plan phase hop := by
    have hold := h.op plan phase hop
    refine ⟨hold.targets, hold.drained, fun pause i hphase => ?_, fun walk rest todo hand hphase => ?_⟩
    · exact (hold.waiter pause i hphase).trans_le hwaiters
    · exact ⟨(hold.walking _ _ _ _ hphase).rest, (hold.walking _ _ _ _ hphase).todo,
        (hold.walking _ _ _ _ hphase).hand⟩
  docs d := by
    have hold := h.docs d
    refine ⟨hold.hasMeta, hold.known, hold.safe, fun job hjob => ?_⟩
    have hw := hold.writing job hjob
    refine ⟨hw.free, hw.holds, hw.hasMeta, hw.byReader, fun r hr => ?_⟩
    obtain ⟨hin, hdoc, hsnapshot⟩ := hw.inside r hr
    exact ⟨hwriting r hin (by rw [hdoc]; exact some_ne_none d), hdoc, hsnapshot⟩
  readers r S hin hS := by
    have hold := h.readers r S (hinside r hin) hS
    exact ⟨fun p hp => (hold.active p hp).imp_right fun hb => ⟨hb.1, hb.2.of_entered hentered⟩,
      fun d hd x hx => (hold.finds d hd x hx).imp_right fun ⟨p, hp, hread, hlasting⟩ =>
        ⟨p, hp, hread, hlasting.of_entered hentered⟩⟩

theorem Inv.leave (h : Inv s) (hs : RoutingEpoch.leave s r = some t) : Inv t := by
  obtain ⟨hwriting, hs⟩ := ite_none_right_eq_some.mp hs
  obtain ⟨e, he, rfl⟩ := map_eq_some_iff.mp hs
  have hinside := Grace.State.inside_leave he
  obtain ⟨a, -, -, heq⟩ := Grace.State.leave_eq he
  refine h.of_epoch (h.epoch.leave he) (by rw [heq]) (fun _ _ i _ => by rw [heq]; rfl)
    (fun j hj => ((hinside j).mp hj).2) fun j hj hw => (hinside j).mpr ⟨?_, hj⟩
  rintro rfl
  exact hw hwriting

theorem Inv.notify (h : Inv s) (he : s.epoch.notify r = some e) : Inv { s with epoch := e } := by
  have hinside := Grace.State.inside_notify he
  obtain ⟨a, -, -, heq⟩ := Grace.State.notify_eq he
  refine h.of_epoch (h.epoch.notify he) (by rw [heq]; simp)
    (fun _ _ i _ => Grace.State.entered_notify he i) (fun j hj => (hinside j).mp hj)
    fun j hj _ => (hinside j).mpr hj

theorem Inv.waitStep (h : Inv s) (he : s.epoch.waitStep i = some e) :
    Inv { s with epoch := e } := by
  obtain ⟨w, p, -, -, heq⟩ := Grace.State.waitStep_eq he
  refine h.of_epoch (h.epoch.waitStep he) (by rw [heq]; simp)
    (fun _ _ j _ => Grace.State.entered_waitStep he j) (fun j hj => ?_) fun j hj _ => ?_
  · rw [heq] at hj
    exact hj
  · rw [heq]
    exact hj

/-- **A reader enters**: it has nothing yet, and no wait knows it. -/
theorem Inv.enter (h : Inv s) : Inv (RoutingEpoch.enter s) := by
  have hother : ∀ r, s.epoch.Inside r →
      (RoutingEpoch.enter s).readers r = s.readers r := fun r hr =>
    Function.update_of_ne hr.lt_length.ne ..
  refine ⟨h.epoch.enter, fun plan phase hop => ?_, fun d => ?_, fun r S hin hS => ?_⟩
  · have hold := h.op plan phase hop
    exact ⟨hold.targets, hold.drained, hold.waiter, fun _ _ _ _ hphase =>
      ⟨(hold.walking _ _ _ _ hphase).rest, (hold.walking _ _ _ _ hphase).todo,
        (hold.walking _ _ _ _ hphase).hand⟩⟩
  · have hold := h.docs d
    refine ⟨hold.hasMeta, hold.known, hold.safe, fun job hjob => ?_⟩
    have hw := hold.writing job hjob
    refine ⟨hw.free, hw.holds, hw.hasMeta, hw.byReader, fun r hr => ?_⟩
    obtain ⟨hin, hrest⟩ := hw.inside r hr
    exact ⟨Grace.State.inside_enter.mpr (.inl hin), (hother r hin).symm ▸ hrest⟩
  · rcases Grace.State.inside_enter.mp hin with hin | rfl
    · rw [hother r hin] at hS
      have hold := h.readers r S hin hS
      refine ⟨hold.active, fun d hd => ?_⟩
      rw [hother r hin] at hd ⊢
      exact hold.finds d hd
    · have hfresh : (RoutingEpoch.enter s).readers s.epoch.readers.length = ReaderState.fresh :=
        Function.update_self ..
      rw [hfresh] at hS
      cases hS

/-! ### Steps of a reader -/

/-- One reader changes in what it has seen only. -/
theorem Inv.of_reader (h : Inv s) {a : ReaderState P D C}
    (hwriting : a.writing = (s.readers r).writing)
    (hsnapshot : ∀ S, (s.readers r).snapshot = some S → a.snapshot = some S)
    (hreader : ∀ S, a.snapshot = some S → s.epoch.Inside r → ReaderInv (s.setReader r a) r S) :
    Inv (s.setReader r a) := by
  refine ⟨h.epoch, fun plan phase hop => ?_, fun d => ?_, fun j S hin hS => ?_⟩
  · have hold := h.op plan phase hop
    exact ⟨hold.targets, hold.drained, hold.waiter, fun _ _ _ _ hphase =>
      ⟨(hold.walking _ _ _ _ hphase).rest, (hold.walking _ _ _ _ hphase).todo,
        (hold.walking _ _ _ _ hphase).hand⟩⟩
  · have hold := h.docs d
    refine ⟨hold.hasMeta, hold.known, hold.safe, fun job hjob => ?_⟩
    have hw := hold.writing job hjob
    refine ⟨hw.free, hw.holds, hw.hasMeta, hw.byReader, fun j hj => ?_⟩
    obtain ⟨hin, hdoc, S, hS, hfiled⟩ := hw.inside j hj
    by_cases hjr : j = r
    · subst hjr
      rw [readers_setReader_self]
      exact ⟨hin, hwriting.trans hdoc, S, hsnapshot S hS, hfiled⟩
    · rw [readers_setReader_of_ne hjr]
      exact ⟨hin, hdoc, S, hS, hfiled⟩
  · by_cases hjr : j = r
    · subst hjr
      rw [readers_setReader_self] at hS
      exact hreader S hS hin
    · rw [readers_setReader_of_ne hjr] at hS
      have hold := h.readers j S hin hS
      refine ⟨hold.active, fun d hd => ?_⟩
      rw [readers_setReader_of_ne hjr] at hd ⊢
      exact hold.finds d hd

/-- A stored chunk has a place that the current snapshot shows and that lasts. -/
theorem Inv.exists_lasting (h : Inv s) (hx : x ∈ (s.docs d).stored) (r : ℕ) :
    ∃ p, s.current.visible p ∧ Lasting s.epoch s.op r (s.docs d).vectors p x := by
  have hsafe := (h.docs d).safe x hx
  unfold Safe at hsafe
  unfold Lasting
  rcases hop : s.op with _ | ⟨plan, phase⟩ <;> rw [hop] at hsafe
  · exact hsafe
  · rcases phase with pause | ⟨pause, i⟩ | ⟨walk, rest, todo, hand⟩ | _
    · cases pause <;> exact hsafe
    · cases pause with
      | publish => exact hsafe
      | barrier =>
        obtain ⟨p, hp, hspared⟩ := hsafe
        exact ⟨p, hp, hspared.holds, .inr hspared⟩
      | retire => exact hsafe
    · cases walk with
      | delete => exact hsafe
      | copy =>
        rcases hsafe with ⟨q, hq, -, hholds⟩ | ⟨p, hp, hholds, -⟩
        · exact ⟨q, hq, hholds⟩
        · -- a drained posting is still searched
          have hdraining := (h.op _ _ hop).drained p hp
          exact ⟨p, by simp [Snapshot.visible, hdraining, Phase.retires], hholds⟩
    · obtain ⟨p, hp, hspared⟩ := hsafe
      exact ⟨p, hp, hspared.holds⟩

theorem Inv.takeSnapshot (h : Inv s) (hs : RoutingEpoch.takeSnapshot s r = some t) : Inv t := by
  obtain ⟨⟨-, hnone⟩, rfl⟩ := ite_some_none_eq_some.mp hs
  refine h.of_reader rfl (fun S hS => ?_) fun S hS _ => ?_
  · rw [hS] at hnone
    cases hnone
  · obtain rfl := some.inj hS
    refine ⟨fun p hp => .inl hp, fun d _ x hx => .inr ?_⟩
    obtain ⟨p, hp, hlasting⟩ := h.exists_lasting hx r
    refine ⟨p, hp, ?_, hlasting⟩
    rw [readers_setReader_self]

/-- **A key is read**: what it holds is seen, and everything else is still to be read. -/
theorem Inv.scan (h : Inv s) (hs : RoutingEpoch.scan s r p d = some t) : Inv t := by
  obtain ⟨S, hS, hs⟩ := bind_eq_some_iff.mp hs
  obtain ⟨⟨-, hvisible, hunread⟩, rfl⟩ := ite_some_none_eq_some.mp hs
  refine h.of_reader rfl (fun _ => id) fun S' hS' hin => ?_
  obtain rfl := some.inj (hS.symm.trans hS')
  have hold := h.readers r S hin hS
  refine ⟨hold.active, fun d' hd x hx => ?_⟩
  rw [readers_setReader_self] at hd ⊢
  have hkept : ∀ q e, ¬(q = p ∧ e = d) →
      ((s.readers r).readKey p d ((s.docs d).vectors.keys p)).read q e = (s.readers r).read q e :=
    fun q e hne => if_neg hne
  rcases hold.finds d' hd x hx with ⟨q, codes, hq, hread, hmem⟩ | ⟨q, hq, hread, hlasting⟩
  · refine .inl ⟨q, codes, hq, ?_, hmem⟩
    rw [hkept q d' fun he => ?_]
    · exact hread
    · rw [he.1, he.2, hunread] at hread
      cases hread
  · by_cases he : q = p ∧ d' = d
    · -- the place it was still to be found in is read now
      obtain ⟨rfl, rfl⟩ := he
      have hholds := hlasting.holds
      unfold Holds DocVectors.codes at hholds
      rcases hkeys : (s.docs d').vectors.keys q with _ | codes <;> rw [hkeys] at hholds
      · cases hholds
      · exact .inl ⟨q, codes, hq, if_pos ⟨rfl, rfl⟩, hholds⟩
    · exact .inr ⟨q, hq, (hkept q d' he).trans hread, hlasting⟩

/-! ### Steps of an operation -/

variable {o : Option (Plan P C × Phase P D C)}

/-- The operation moves on: what its new phase promises follows from what the old one did. -/
theorem Inv.of_op (h : Inv s)
    (hop : ∀ plan phase, o = some (plan, phase) → OpInv { s with op := o } plan phase)
    (hsafe : ∀ d, ∀ x ∈ (s.docs d).stored, Safe s.current o d (s.docs d).vectors x)
    (hlasting : ∀ r (v : DocVectors P C) p x, s.epoch.Inside r → Lasting s.epoch s.op r v p x →
      Lasting s.epoch o r v p x)
    (hbehind : ∀ r, s.epoch.Inside r → Behind s.epoch s.op r → Behind s.epoch o r)
    (hhand : ∀ d, (s.docs d).writing.isSome → inHand { s with op := o } d = false) :
    Inv { s with op := o } where
  epoch := h.epoch
  op := hop
  docs d := by
    have hold := h.docs d
    refine ⟨hold.hasMeta, hold.known, hsafe d, fun job hjob => ?_⟩
    have hw := hold.writing job hjob
    exact ⟨hhand d (isSome_iff_exists.mpr ⟨job, hjob⟩), hw.holds, hw.hasMeta, hw.byReader,
      hw.inside⟩
  readers r S hin hS := by
    have hold := h.readers r S hin hS
    exact ⟨fun p hp => (hold.active p hp).imp_right fun hb => ⟨hb.1, hbehind r hin hb.2⟩,
      fun d hd x hx => (hold.finds d hd x hx).imp_right fun ⟨p, hp, hread, hl⟩ =>
        ⟨p, hp, hread, hlasting r _ p x hin hl⟩⟩

variable {plan : Plan P C} {rest : List P} {todo : List (Entry P D)}

omit [DecidableEq D] in
/-- What holds of a walk with nothing in hand. -/
theorem WalkInv.of_rest (hrest : ∀ p ∈ rest, p ∈ plan.drained)
    (htodo : ∀ e ∈ todo, plan.Sources e.sources) : WalkInv s plan walk rest todo none :=
  ⟨hrest, htodo, nofun⟩

variable {hand : Option (D × List (VectorWrite P C))}

omit [DecidableEq D] in
/-- An operation that goes on with a walk. -/
theorem OpInv.of_walking {phase : Phase P D C} (h : OpInv s plan phase)
    (hretires : phase.retires = false) (hwalk : WalkInv s plan walk rest todo hand) :
    OpInv { s with op := o } plan (.walking walk rest todo hand) where
  targets := h.targets
  drained p hp := by
    have hold := h.drained p hp
    rw [hretires] at hold
    exact hold
  waiter := nofun
  walking walk' rest' todo' hand' heq := by
    obtain ⟨rfl, rfl, rfl, rfl⟩ := Phase.walking.inj heq
    exact ⟨hwalk.rest, hwalk.todo, hwalk.hand⟩

omit [LinearOrder P] in
theorem mem_walkOver (plan : Plan P C) (walk : Walk) (hp : p ∈ plan.walkOver walk) :
    p ∈ plan.drained := by
  cases walk with
  | copy => exact hp
  | delete =>
    obtain ⟨q, hq, hp⟩ := List.mem_flatMap.mp hp
    simp only [List.mem_cons, List.not_mem_nil, or_false, or_self] at hp
    exact hp ▸ hq

theorem Inv.startReassign (h : Inv s) {r : Reassignment P C}
    (hs : RoutingEpoch.startReassign s r = some t) : Inv t := by
  obtain ⟨⟨hnone, htargets⟩, rfl⟩ := ite_some_none_eq_some.mp hs
  have hop : s.op = none := isNone_iff_eq_none.mp hnone
  refine h.of_op (fun plan phase heq => ?_) (fun d x hx => ?_) (fun j v p x _ hl => ?_)
    (fun j _ hb => ?_) fun d _ => rfl
  · obtain ⟨rfl, rfl⟩ := Prod.mk.inj (some.inj heq)
    exact ⟨htargets, nofun, nofun, fun _ _ _ _ heq => by
      obtain ⟨rfl, rfl, rfl, rfl⟩ := Phase.walking.inj heq
      exact .of_rest nofun nofun⟩
  · have hsafe := (h.docs d).safe x hx
    rw [hop] at hsafe
    obtain ⟨p, hp, hholds⟩ := hsafe
    exact .inl ⟨p, hp, List.not_mem_nil, hholds⟩
  · rw [hop] at hl
    exact hl
  · rw [hop] at hb
    exact hb

theorem Inv.beginWait (h : Inv s) (hs : RoutingEpoch.beginWait s = some t) : Inv t := by
  obtain ⟨⟨plan, phase⟩, hop, hs⟩ := bind_eq_some_iff.mp hs
  have hwait : ∀ pause, (phase = .installed pause ∨ phase = .copied ∧ pause = .barrier) →
      t = { s with
        epoch := s.epoch.beginWait, op := some (plan, .waiting pause s.epoch.waiters.length) } →
      Inv t := by
    rintro pause hphase rfl
    -- first the generation, then the phase
    have hepoch : Inv { s with epoch := s.epoch.beginWait } := by
      refine h.of_epoch h.epoch.beginWait ?_ (fun plan' pause' i hop' => ?_) (fun _ => id)
        fun _ hin _ => hin
      · simp [Grace.State.beginWait]
      · exact Grace.State.entered_beginWait_of_lt ((h.op _ _ hop').waiter pause' i rfl)
    have hinside : ∀ r, s.epoch.beginWait.Inside r →
        r < s.epoch.beginWait.entered s.epoch.waiters.length := fun r hr => by
      rw [Grace.State.entered_beginWait]
      exact Grace.State.Inside.lt_length hr
    have hold := h.op plan phase hop
    refine hepoch.of_op (fun plan' phase' heq => ?_) (fun d x hx => ?_) (fun j v p x hin hl => ?_)
      (fun j hin hb => ?_) fun d _ => rfl
    · obtain ⟨rfl, rfl⟩ := Prod.mk.inj (some.inj heq)
      refine ⟨hold.targets, fun p hp => ?_, fun pause' i heq => ?_,
        fun _ _ _ _ heq => by cases heq⟩
      · have hd := hold.drained p hp
        rcases hphase with rfl | ⟨rfl, rfl⟩
        · cases pause <;> exact hd
        · exact hd
      · obtain ⟨-, rfl⟩ := Phase.waiting.inj heq
        simp [Grace.State.beginWait]
    · have hsafe := (h.docs d).safe x hx
      rw [hop] at hsafe
      rcases hphase with rfl | ⟨rfl, rfl⟩
      · cases pause <;> exact hsafe
      · exact hsafe
    · change Lasting s.epoch.beginWait s.op j v p x at hl
      rw [hop] at hl
      rcases hphase with rfl | ⟨rfl, rfl⟩
      · cases pause with
        | publish => exact hl
        | barrier => exact ⟨Plan.Spared.holds hl, .inr hl⟩
        | retire => exact hl
      · -- the barrier waits for everyone who may still rely on what is to be taken
        exact ⟨hl, .inl (hinside j hin)⟩
    · change Behind s.epoch.beginWait s.op j at hb
      rw [hop] at hb
      rcases hphase with rfl | ⟨rfl, rfl⟩
      · cases pause with
        | publish => exact hinside j hin
        | barrier | retire => exact hb
      · exact hb
  rcases phase with pause | _ | _ | _
  · exact hwait pause (.inl rfl) (some.inj hs).symm
  · cases hs
  · cases hs
  · exact hwait .barrier (.inr ⟨rfl, rfl⟩) (some.inj hs).symm

/-- **A wait is over**: nobody inside entered before it. -/
theorem Inv.endWait (h : Inv s) (hs : RoutingEpoch.endWait s = some t) : Inv t := by
  obtain ⟨⟨plan, phase⟩, hop, hs⟩ := bind_eq_some_iff.mp hs
  rcases phase with _ | ⟨pause, i⟩ | _ | _
  · cases hs
  · obtain ⟨hreturned, rfl⟩ := ite_some_none_eq_some.mp hs
    have hlate : ∀ r, s.epoch.Inside r → ¬r < s.epoch.entered i := fun r hin hr =>
      h.epoch.not_inside hreturned hr hin
    have hold := h.op _ _ hop
    have hwalk : ∀ walk, pause ≠ .retire → OpInv { s with
        op := some (plan, .walking walk (plan.walkOver walk) [] none) } plan
        (.walking walk (plan.walkOver walk) [] none) := fun walk hne =>
      hold.of_walking (by cases pause <;> first | rfl | exact absurd rfl hne)
        (.of_rest (fun p hp => mem_walkOver plan walk hp) nofun)
    cases pause with
    | publish =>
      refine h.of_op (fun plan' phase' heq => ?_) (fun d x hx => ?_) (fun j v p x _ hl => ?_)
        (fun j hin hb => ?_) fun d _ => rfl
      · obtain ⟨rfl, rfl⟩ := Prod.mk.inj (some.inj heq)
        exact hwalk .copy (by decide)
      · have hsafe := (h.docs d).safe x hx
        rw [hop] at hsafe
        obtain ⟨p, hp, hholds⟩ := hsafe
        by_cases hdrained : p ∈ plan.drained
        · exact .inr ⟨p, hdrained, hholds, .inl hdrained⟩
        · exact .inl ⟨p, hp, hdrained, hholds⟩
      · rw [hop] at hl
        exact hl
      · rw [hop] at hb
        exact hlate j hin hb
    | barrier =>
      refine h.of_op (fun plan' phase' heq => ?_) (fun d x hx => ?_) (fun j v p x hin hl => ?_)
        (fun j hin hb => ?_) fun d _ => rfl
      · obtain ⟨rfl, rfl⟩ := Prod.mk.inj (some.inj heq)
        exact hwalk .delete (by decide)
      · have hsafe := (h.docs d).safe x hx
        rw [hop] at hsafe
        exact hsafe
      · rw [hop] at hl
        exact hl.2.resolve_left (hlate j hin)
      · rw [hop] at hb
        exact hb
    | retire =>
      refine h.of_op (fun _ _ heq => by cases heq) (fun d x hx => ?_) (fun j v p x hin hl => ?_)
        (fun j hin hb => ?_) fun d _ => rfl
      · have hsafe := (h.docs d).safe x hx
        rw [hop] at hsafe
        obtain ⟨p, hp, hspared⟩ := hsafe
        exact ⟨p, hp, hspared.holds⟩
      · rw [hop] at hl
        exact Plan.Spared.holds hl
      · rw [hop] at hb
        exact hb
  · cases hs
  · cases hs

/-- A walk goes on: with what it has in hand and still to do, a copy walk loses nothing. -/
theorem Inv.of_walk (h : Inv s) {rest' : List P} {todo' : List (Entry P D)}
    {hand' : Option (D × List (VectorWrite P C))}
    (hop : s.op = some (plan, .walking walk rest todo hand))
    (hwalk : WalkInv s plan walk rest' todo' hand')
    (hcopy : walk = .copy → ∀ d p x, x ∈ (s.docs d).stored → p ∈ plan.drained →
      (s.docs d).vectors.Holds p x → ToCopy s.current plan rest todo hand d (s.docs d).vectors p x →
      (∃ q, s.current.visible q ∧ q ∉ plan.drained ∧ (s.docs d).vectors.Holds q x) ∨
        ToCopy s.current plan rest' todo' hand' d (s.docs d).vectors p x)
    (hhand : ∀ d ws, hand' = some (d, ws) → (s.docs d).writing = none) :
    Inv { s with op := some (plan, .walking walk rest' todo' hand') } := by
  refine h.of_op (fun plan' phase' heq => ?_) (fun d x hx => ?_) (fun j v p x _ hl => ?_)
    (fun j _ hb => ?_) fun d hd => ?_
  · obtain ⟨rfl, rfl⟩ := Prod.mk.inj (some.inj heq)
    exact (h.op _ _ hop).of_walking rfl hwalk
  · have hsafe := (h.docs d).safe x hx
    rw [hop] at hsafe
    cases walk with
    | delete => exact hsafe
    | copy =>
      rcases hsafe with hfiled | ⟨p, hp, hholds, hto⟩
      · exact .inl hfiled
      · exact (hcopy rfl d p x hx hp hholds hto).imp_right fun hto' => ⟨p, hp, hholds, hto'⟩
  · rw [hop] at hl
    cases walk <;> exact hl
  · rw [hop] at hb
    exact hb
  · rw [inHand_eq_false]
    intro plan' walk' rest'' todo'' d' ws heq
    obtain ⟨-, hphase⟩ := Prod.mk.inj (some.inj heq)
    obtain ⟨-, -, -, rfl⟩ := Phase.walking.inj hphase
    rintro rfl
    rw [hhand d' ws rfl] at hd
    cases hd

omit [LinearOrder P] [DecidableEq D] in
theorem mem_listed (hd : d ∈ s.known) (hp : ((s.docs d).vectors.keys p).isSome) :
    ∃ e ∈ s.listed p, e.doc = d ∧ p ∈ e.sources :=
  ⟨_, List.mem_map.mpr ⟨d, List.mem_filter.mpr ⟨hd, hp⟩, rfl⟩, rfl, List.mem_singleton_self p⟩

theorem Inv.list (h : Inv s) (hs : RoutingEpoch.list s = some t) : Inv t := by
  obtain ⟨⟨plan, phase⟩, hop, hs⟩ := bind_eq_some_iff.mp hs
  rcases phase with _ | _ | ⟨walk, _ | ⟨p, rest⟩, _ | _, _ | _⟩ | _ <;> try cases hs
  have hwalk := (h.op _ _ hop).walking _ _ _ _ rfl
  refine h.of_walk hop (.of_rest (fun q hq => hwalk.rest q (List.mem_cons_of_mem p hq))
    fun e he => ?_) (fun _ d q x hx _ hholds hto => .inr ?_) nofun
  · obtain ⟨d, -, rfl⟩ := List.mem_map.mp he
    rintro drain rfl
    exact ⟨p, hwalk.rest p List.mem_cons_self, rfl⟩
  · rcases hto with hq | ⟨e, he, -⟩ | ⟨_, _, hhand, -⟩
    · rcases List.mem_cons.mp hq with rfl | hq
      · -- the posting that is listed has the document
        refine .inr (.inl (mem_listed ((h.docs d).known (.inl (List.ne_nil_of_mem hx))) ?_))
        unfold Holds DocVectors.codes at hholds
        cases hkeys : (s.docs d).vectors.keys q with
        | some codes => rfl
        | none =>
          rw [hkeys] at hholds
          cases hholds
      · exact .inl hq
    · cases he
    · cases hhand

theorem Inv.select (h : Inv s) {entries : List (Entry P D)}
    (hs : RoutingEpoch.select s entries = some t) : Inv t := by
  obtain ⟨⟨plan, phase⟩, hop, hs⟩ := bind_eq_some_iff.mp hs
  rcases plan with drain | r <;>
    rcases phase with _ | _ | ⟨walk, _ | _, _ | _, _ | _⟩ | _ <;> try cases hs
  refine h.of_walk hop (.of_rest nofun fun e _ drain heq => by cases heq)
    (fun _ d q x hx hq => ?_) nofun
  cases hq

theorem Inv.dropHand (h : Inv s) (hs : RoutingEpoch.dropHand s = some t) : Inv t := by
  obtain ⟨⟨plan, phase⟩, hop, hs⟩ := bind_eq_some_iff.mp hs
  rcases phase with _ | _ | ⟨walk, rest, todo, _ | ⟨d, _ | ⟨w, ws⟩⟩⟩ | _ <;> try cases hs
  have hwalk := (h.op _ _ hop).walking _ _ _ _ rfl
  refine h.of_walk hop (.of_rest hwalk.rest hwalk.todo) (fun _ e q x _ _ _ hto => ?_) nofun
  rcases hto with hq | he | ⟨ws, q', hhand, hvisible, hnot, hholds⟩
  · exact .inr (.inl hq)
  · exact .inr (.inr (.inl he))
  · -- every write is made
    obtain ⟨rfl, rfl⟩ := Prod.mk.inj (some.inj hhand)
    exact .inl ⟨q', hvisible, hnot, hholds⟩

theorem Inv.recordCopied (h : Inv s) (hs : RoutingEpoch.recordCopied s = some t) : Inv t := by
  obtain ⟨⟨plan, phase⟩, hop, hs⟩ := bind_eq_some_iff.mp hs
  rcases phase with _ | _ | ⟨_ | _, _ | _, _ | _, _ | _⟩ | _ <;> try cases hs
  have hold := h.op _ _ hop
  refine h.of_op (fun plan' phase' heq => ?_) (fun d x hx => ?_) (fun j v p x _ hl => ?_)
    (fun j _ hb => ?_) fun d _ => rfl
  · obtain ⟨rfl, rfl⟩ := Prod.mk.inj (some.inj heq)
    exact ⟨hold.targets, hold.drained, nofun, nofun⟩
  · have hsafe := (h.docs d).safe x hx
    rw [hop] at hsafe
    rcases hsafe with ⟨p, hp, hnot, hholds⟩ | ⟨p, -, -, hq | ⟨e, he, -⟩ | ⟨_, _, hhand, -⟩⟩
    · obtain ⟨q, hq, hspared⟩ := plan.exists_spared hholds hnot
      refine ⟨q, ?_, hspared⟩
      rcases hq with rfl | hq
      · exact hp
      · simp [Snapshot.visible, hold.targets q hq]
    · cases hq
    · cases he
    · cases hhand
  · rw [hop] at hl
    exact hl
  · rw [hop] at hb
    exact hb

theorem Inv.fail (h : Inv s) (hs : RoutingEpoch.fail s = some t) : Inv t := by
  obtain ⟨⟨plan, phase⟩, hop, hs⟩ := bind_eq_some_iff.mp hs
  rcases phase with _ | _ | ⟨_ | _, rest, todo, hand⟩ | _ <;> try cases hs
  · -- the copies are made again, from the first posting on
    exact h.of_walk hop (.of_rest (fun p hp => mem_walkOver plan .copy hp) nofun)
      (fun _ d p x _ hp _ _ => .inr (.inl hp)) nofun
  · have hold := h.op _ _ hop
    refine h.of_op (fun plan' phase' heq => ?_) (fun d x hx => ?_) (fun j v p x _ hl => ?_)
      (fun j _ hb => ?_) fun d _ => rfl
    · obtain ⟨rfl, rfl⟩ := Prod.mk.inj (some.inj heq)
      exact ⟨hold.targets, hold.drained, nofun, nofun⟩
    · have hsafe := (h.docs d).safe x hx
      rw [hop] at hsafe
      exact hsafe
    · rw [hop] at hl
      exact Plan.Spared.holds hl
    · rw [hop] at hb
      exact hb

variable {S : Snapshot P}

/-- **A snapshot is installed**, while nobody is behind. -/
theorem Inv.of_install (h : Inv s) {pause : Pause}
    (hop : OpInv { s with current := S, op := some (plan, .installed pause) } plan (.installed pause))
    (hsafe : ∀ d, ∀ x ∈ (s.docs d).stored,
      Safe S (some (plan, .installed pause)) d (s.docs d).vectors x)
    (hnobody : ∀ r, ¬Behind s.epoch s.op r) (hactive : ∀ p, s.current p = some .active →
      S p = some .active ∨ S p = some .draining ∧ pause = .publish)
    (hlasting : ∀ r (v : DocVectors P C) p x, Lasting s.epoch s.op r v p x →
      Lasting s.epoch (some (plan, (.installed pause : Phase P D C))) r v p x) :
    Inv { s with current := S, op := some (plan, .installed pause) } where
  epoch := h.epoch
  op plan' phase heq := by
    obtain ⟨rfl, rfl⟩ := Prod.mk.inj (some.inj heq)
    exact hop
  docs d := by
    have hold := h.docs d
    refine ⟨hold.hasMeta, hold.known, hsafe d, fun job hjob => ?_⟩
    have hw := hold.writing job hjob
    exact ⟨rfl, hw.holds, hw.hasMeta, hw.byReader, hw.inside⟩
  readers r S' hin hS := by
    have hold := h.readers r S' hin hS
    refine ⟨fun p hp => ?_, fun d hd x hx => (hold.finds d hd x hx).imp_right
      fun ⟨p, hp, hread, hl⟩ => ⟨p, hp, hread, hlasting r _ p x hl⟩⟩
    rcases hold.active p hp with hp | ⟨-, hb⟩
    · refine (hactive p hp).imp_right fun ⟨hdraining, hpause⟩ => ⟨hdraining, ?_⟩
      subst hpause
      trivial
    · exact absurd hb (hnobody r)

variable {ps : List P}

omit [DecidableEq D] in
theorem evolve_of_mem (h : p ∈ ps) :
    S.evolve ps state p = some state := if_pos h

omit [DecidableEq D] in
theorem evolve_of_not_mem (h : p ∉ ps) :
    S.evolve ps state p = S p := if_neg h

theorem Inv.install (h : Inv s) {drain : Drain P C} (hs : RoutingEpoch.install s drain = some t) :
    Inv t := by
  obtain ⟨⟨hnone, hchildren, hdrained, htargets⟩, rfl⟩ := ite_some_none_eq_some.mp hs
  have hop : s.op = none := isNone_iff_eq_none.mp hnone
  -- what was searched still is, and what was active is active or draining
  have hactive : ∀ p, s.current p = some .active →
      (s.current.evolve drain.children .active).evolve drain.drained .draining p = some .active ∨
      (s.current.evolve drain.children .active).evolve drain.drained .draining p =
        some .draining := by
    intro p hp
    by_cases hd : p ∈ drain.drained
    · exact .inr (evolve_of_mem hd)
    · rw [evolve_of_not_mem hd]
      by_cases hc : p ∈ drain.children
      · exact .inl (evolve_of_mem hc)
      · exact .inl ((evolve_of_not_mem hc).trans hp)
  refine h.of_install ⟨htargets, fun p hp => evolve_of_mem hp, nofun, nofun⟩ (fun d x hx => ?_)
    (fun r hb => ?_) (fun p hp => (hactive p hp).imp_right fun hd => ⟨hd, rfl⟩)
    fun r v p x hl => ?_
  · have hsafe := (h.docs d).safe x hx
    rw [hop] at hsafe
    obtain ⟨p, hp, hholds⟩ := hsafe
    refine ⟨p, ?_, hholds⟩
    simp only [Snapshot.visible, Bool.or_eq_true, beq_iff_eq] at hp ⊢
    rcases hp with hp | hp
    · exact hactive p hp
    · by_cases hd : p ∈ drain.drained
      · exact .inr (evolve_of_mem hd)
      · rw [evolve_of_not_mem hd]
        by_cases hc : p ∈ drain.children
        · exact .inl (evolve_of_mem hc)
        · exact .inr ((evolve_of_not_mem hc).trans hp)
  · rw [hop] at hb
    exact hb
  · rw [hop] at hl
    exact hl

theorem Inv.finish (h : Inv s) (hs : RoutingEpoch.finish s = some t) : Inv t := by
  obtain ⟨⟨plan, phase⟩, hop, hs⟩ := bind_eq_some_iff.mp hs
  rcases phase with _ | _ | ⟨_ | _, _ | _, _ | _, _ | _⟩ | _ <;> try cases hs
  have hold := h.op _ _ hop
  have hspared : ∀ d, ∀ x ∈ (s.docs d).stored,
      ∃ p, s.current.visible p ∧ plan.Spared (s.docs d).vectors p x := fun d x hx => by
    have hsafe := (h.docs d).safe x hx
    rw [hop] at hsafe
    exact hsafe
  cases plan with
  | drain drain =>
    obtain rfl := some.inj hs
    have hsame : ∀ p, p ∉ drain.drained → s.current.evolve drain.drained .retired p = s.current p :=
      fun p hp => evolve_of_not_mem hp
    refine h.of_install ⟨fun q hq => ?_, fun p hp => evolve_of_mem hp, nofun, nofun⟩
      (fun d x hx => ?_) (fun r hb => ?_) (fun p hp => .inl ?_) fun r v p x hl => ?_
    · exact (hsame q (drain.not_drained q hq)).trans (hold.targets q hq)
    · obtain ⟨p, hp, hs⟩ := hspared d x hx
      refine ⟨p, ?_, hs⟩
      unfold Snapshot.visible at hp ⊢
      rw [hsame p hs.2]
      exact hp
    · rw [hop] at hb
      exact hb
    · refine (hsame p fun hd => ?_).trans hp
      have hdraining := hold.drained p hd
      rw [hp] at hdraining
      cases hdraining
    · rw [hop] at hl
      exact hl
  | reassign r =>
    obtain rfl := some.inj hs
    refine h.of_op (fun _ _ heq => by cases heq) (fun d x hx => ?_) (fun j v p x _ hl => ?_)
      (fun j _ hb => ?_) fun d _ => rfl
    · obtain ⟨p, hp, hs⟩ := hspared d x hx
      exact ⟨p, hp, hs.holds⟩
    · rw [hop] at hl
      have hspares : Plan.Spared (.reassign r) v p x := hl
      exact hspares.holds
    · rw [hop] at hb
      exact hb

/-! ### Steps at a document -/

/-- One document has changed. -/
structure DocStep (s t : State P D C) (d : D) (x : DocState P C) : Prop where
  epoch : t.epoch = s.epoch
  current : t.current = s.current
  doc : t.docs d = x
  other : ∀ e ≠ d, t.docs e = s.docs e
  known : ∀ e ∈ s.known, e ∈ t.known
  snapshot : ∀ r, (t.readers r).snapshot = (s.readers r).snapshot
  read : ∀ r, (t.readers r).read = (s.readers r).read
  touched : ∀ r e, (t.readers r).touched e = false → (s.readers r).touched e = false

omit [LinearOrder P] [DecidableEq D] in
theorem DocStep.seen {x : DocState P C} (hst : DocStep s t d x) {e : D} {y : C} :
    Seen (t.readers r) S e y ↔ Seen (s.readers r) S e y := by
  unfold Seen
  rw [hst.read]

/-- **Maintenance writes**: what a copy has put stays, and what is spared stays. -/
theorem Inv.writeHand (h : Inv s) (hs : RoutingEpoch.writeHand s = some t) : Inv t := by
  obtain ⟨⟨plan, phase⟩, hop, hs⟩ := bind_eq_some_iff.mp hs
  rcases phase with _ | _ | ⟨walk, rest, todo, _ | ⟨d, _ | ⟨w, ws⟩⟩⟩ | _ <;> try (cases hs; done)
  have hold := h.op _ _ hop
  have hwalk := hold.walking _ _ _ _ rfl
  obtain ⟨hfree, hkeeps, halong⟩ := hwalk.hand d _ rfl
  have hst : DocStep s t d { s.docs d with vectors := (s.docs d).vectors.write w } := by
    obtain rfl := some.inj hs
    exact ⟨rfl, rfl, docs_setDoc_self .., fun e he => docs_setDoc_of_ne he _,
      fun _ => id, fun _ => rfl, fun _ => rfl, fun _ _ => id⟩
  have htop : t.op = some (plan, .walking walk rest todo (some (d, ws))) := by
    obtain rfl := some.inj hs
    rfl
  have hreaders : ∀ r, t.readers r = s.readers r := by
    obtain rfl := some.inj hs
    exact fun _ => rfl
  -- places of the document that is written
  have hsafe : ∀ x ∈ (s.docs d).stored, Safe t.current t.op d ((s.docs d).vectors.write w) x := by
    intro x hx
    have hsafe := (h.docs d).safe x hx
    rw [hop] at hsafe
    rw [htop, hst.current]
    cases walk with
    | copy =>
      have hkept := hkeeps.copying rfl
      rcases hsafe with ⟨q, hq, hnot, hholds⟩ | ⟨p, hp, hholds, hto⟩
      · exact .inl ⟨q, hq, hnot, hkept q x hholds⟩
      · refine .inr ⟨p, hp, hkept p x hholds, hto.imp_right fun hto => hto.imp_right ?_⟩
        rintro ⟨ws', q, heq, hq⟩
        obtain ⟨-, rfl⟩ := Prod.mk.inj (some.inj heq)
        exact ⟨ws, q, rfl, hq⟩
    | delete =>
      obtain ⟨p, hp, hspared⟩ := hsafe
      exact ⟨p, hp, hkeeps.deleting rfl p x hspared⟩
  have hlasting : ∀ r p x, Lasting s.epoch s.op r (s.docs d).vectors p x →
      Lasting t.epoch t.op r ((s.docs d).vectors.write w) p x := by
    intro r p x hl
    rw [hop] at hl
    rw [htop]
    cases walk with
    | copy => exact hkeeps.copying rfl p x hl
    | delete => exact hkeeps.deleting rfl p x hl
  refine ⟨hst.epoch ▸ h.epoch, fun plan' phase' heq => ?_, fun e => ?_, fun r S hin hS => ?_⟩
  · rw [htop] at heq
    obtain ⟨rfl, rfl⟩ := Prod.mk.inj (some.inj heq)
    refine ⟨by rw [hst.current]; exact hold.targets, by rw [hst.current]; exact hold.drained, nofun,
      fun _ _ _ _ heq => ?_⟩
    obtain ⟨rfl, rfl, rfl, rfl⟩ := Phase.walking.inj heq
    refine ⟨hwalk.rest, hwalk.todo, fun e ws' heq => ?_⟩
    obtain ⟨rfl, rfl⟩ := Prod.mk.inj (some.inj heq)
    rw [hst.doc]
    exact ⟨hfree, halong⟩
  · by_cases he : e = d
    · subst he
      have hdoc := h.docs e
      constructor <;> rw [hst.doc]
      · exact fun hne => isSome_postings_write hkeeps.keepsMeta (hdoc.hasMeta hne)
      · exact fun hk => hst.known e (hdoc.known hk)
      · exact hsafe
      · intro job hjob
        change (s.docs e).writing = some job at hjob
        rw [hfree] at hjob
        cases hjob
    · have hdoc := h.docs e
      refine ⟨?_, ?_, fun x hx => ?_, fun job hjob => ?_⟩
      · rw [hst.other e he]
        exact hdoc.hasMeta
      · rw [hst.other e he]
        exact fun hk => hst.known e (hdoc.known hk)
      · rw [hst.other e he] at hx ⊢
        have hold := hdoc.safe x hx
        rw [hop] at hold
        rw [htop, hst.current]
        cases walk with
        | delete => exact hold
        | copy =>
          -- the writes in hand are not this document's
          refine hold.imp_right fun ⟨p, hp, hholds, hto⟩ => ⟨p, hp, hholds,
            hto.imp_right fun hto => hto.imp_right ?_⟩
          rintro ⟨ws', q, heq, -⟩
          exact absurd (Prod.mk.inj (some.inj heq)).1.symm he
      · rw [hst.other e he] at hjob
        have hw := hdoc.writing job hjob
        constructor
        · refine inHand_eq_false.mpr fun _ _ _ _ d' _ heq => ?_
          rw [htop] at heq
          simp only [some.injEq, Prod.mk.injEq, Phase.walking.injEq] at heq
          exact heq.2.2.2.2.1 ▸ Ne.symm he
        · rw [hst.other e he]
          exact hw.holds
        · rw [hst.other e he]
          exact hw.hasMeta
        · exact hw.byReader
        · intro r hr
          rw [hst.epoch, hreaders r]
          exact hw.inside r hr
  · rw [hst.epoch] at hin
    rw [hst.snapshot] at hS
    have hreader := h.readers r S hin hS
    constructor
    · intro p hp
      rw [hst.current]
      refine (hreader.active p hp).imp_right fun hd => ⟨hd.1, ?_⟩
      have hb := hd.2
      rw [hop] at hb
      exact hb.elim
    · intro e he x hx
      rw [hst.seen, hst.read]
      by_cases hed : e = d
      · subst hed
        rw [hst.doc] at hx ⊢
        exact (hreader.finds e (hst.touched r e he) x hx).imp_right fun ⟨p, hp, hread, hl⟩ =>
          ⟨p, hp, hread, hlasting r p x hl⟩
      · rw [hst.other e hed] at hx ⊢
        refine (hreader.finds e (hst.touched r e he) x hx).imp_right fun ⟨p, hp, hread, hl⟩ =>
          ⟨p, hp, hread, ?_⟩
        rw [hop] at hl
        rw [htop]
        cases walk <;> exact hl

/-- **A vector write** concerns its document, and the readers inside know it was written. -/
theorem Inv.of_doc (h : Inv s) {x : DocState P C} (hst : DocStep s t d x) (hop : t.op = s.op)
    (hfree : s.inHand d = false) (hdoc : DocInv t d)
    (htouched : ∀ r, (t.readers r).touched d = false →
      x.vectors = (s.docs d).vectors ∧ x.stored = (s.docs d).stored)
    (hwriting : ∀ r e, e ≠ d → (s.readers r).writing = some e → (t.readers r).writing = some e) :
    Inv t := by
  refine ⟨hst.epoch ▸ h.epoch, fun plan phase heq => ?_, fun e => ?_, fun r S hin hS => ?_⟩
  · rw [hop] at heq
    have hold := h.op plan phase heq
    refine ⟨by rw [hst.current]; exact hold.targets, by rw [hst.current]; exact hold.drained,
      by rw [hst.epoch]; exact hold.waiter, fun walk rest todo hand hphase => ?_⟩
    have hwalk := hold.walking walk rest todo hand hphase
    refine ⟨hwalk.rest, hwalk.todo, fun e ws hhand => ?_⟩
    have hne : e ≠ d := by
      subst hphase hhand
      exact inHand_eq_false.mp hfree _ _ _ _ _ _ heq
    rw [hst.other e hne]
    exact hwalk.hand e ws hhand
  · by_cases he : e = d
    · exact he ▸ hdoc
    · have hold := h.docs e
      constructor
      · rw [hst.other e he]
        exact hold.hasMeta
      · rw [hst.other e he]
        exact fun hk => hst.known e (hold.known hk)
      · rw [hst.other e he, hst.current, hop]
        exact hold.safe
      · intro job hjob
        rw [hst.other e he] at hjob
        have hw := hold.writing job hjob
        constructor
        · unfold inHand
          rw [hop]
          exact hw.free
        · rw [hst.other e he]
          exact hw.holds
        · rw [hst.other e he]
          exact hw.hasMeta
        · exact hw.byReader
        · intro r hr
          obtain ⟨hin, hr, hS⟩ := hw.inside r hr
          rw [hst.epoch, hst.snapshot]
          exact ⟨hin, hwriting r e he hr, hS⟩
  · rw [hst.epoch] at hin
    rw [hst.snapshot] at hS
    have hold := h.readers r S hin hS
    constructor
    · rw [hst.current, hst.epoch, hop]
      exact hold.active
    · intro e he y hy
      rw [hst.seen, hst.read, hst.epoch, hop]
      by_cases hed : e = d
      · subst hed
        obtain ⟨hv, hstored⟩ := htouched r he
        rw [hst.doc] at hy ⊢
        rw [hv]
        rw [hstored] at hy
        exact hold.finds e (hst.touched r e he) y hy
      · rw [hst.other e hed] at hy ⊢
        exact hold.finds e (hst.touched r e he) y hy

omit [LinearOrder P] in
theorem State.locked_eq_false (h : s.locked d = false) :
    (s.docs d).writing = none ∧ s.inHand d = false := by
  obtain ⟨hw, hh⟩ := Bool.or_eq_false_iff.mp h
  exact ⟨not_isSome_iff_eq_none.mp (by rw [hw]; decide), hh⟩

omit [LinearOrder P] in
theorem State.inHand_congr (h : t.op = s.op) (d : D) : t.inHand d = s.inHand d := by
  unfold inHand
  rw [h]

theorem Inv.startUpsert (h : Inv s) {filed : List (P × C)}
    (hs : RoutingEpoch.startUpsert s r d filed = some t) : Inv t := by
  obtain ⟨S, hS, hs⟩ := bind_eq_some_iff.mp hs
  obtain ⟨⟨hin, hidle, hlocked, hfiled⟩, hs⟩ := ite_none_right_eq_some.mp hs
  have ht := (some.inj hs).symm
  obtain ⟨-, hfree⟩ := locked_eq_false hlocked
  have hold := h.docs d
  have hreader : ∀ j, t.readers j =
      if j = r then { s.readers r with writing := some d } else s.readers j := fun j => by
    rw [ht]
    exact Function.update_apply ..
  have hop : t.op = s.op := by rw [ht]; rfl
  have hst : DocStep s t d { s.docs d with
      writing := some ⟨some r, filed, (s.docs d).vectors.upsertWrites filed⟩ } := by
    refine ⟨by rw [ht]; rfl, by rw [ht]; rfl, by rw [ht]; exact docs_setDoc_self ..,
      fun e he => by rw [ht]; exact docs_setDoc_of_ne he _,
      fun e he => by rw [ht]; exact List.mem_cons_of_mem d he, fun j => ?_, fun j => ?_,
      fun j e => ?_⟩ <;> rw [hreader j] <;> split <;> first | rfl | exact id | (subst j; rfl) |
      (subst j; exact id)
  refine h.of_doc hst hop hfree ?_ (fun _ _ => ⟨rfl, rfl⟩) fun j e he hj => ?_
  · constructor
    · rw [hst.doc]
      exact hold.hasMeta
    · exact fun _ => by rw [ht]; exact List.mem_cons_self
    · rw [hst.doc, hst.current, hop]
      exact hold.safe
    · intro job hjob
      rw [hst.doc] at hjob
      obtain rfl := some.inj hjob
      constructor
      · rw [inHand_congr hop]
        exact hfree
      · rw [hst.doc]
        exact fun y hy => holds_upsertWrites hy
      · rw [hst.doc]
        exact fun _ => isSome_upsertWrites filed
      · exact fun _ => rfl
      · intro j hj
        obtain rfl := some.inj hj
        rw [hst.epoch, hst.snapshot, hreader, if_pos rfl]
        exact ⟨hin, rfl, S, hS, hfiled⟩
  · rw [hreader]
    split
    · next hjr =>
      rw [hjr, hidle] at hj
      cases hj
    · exact hj

theorem Inv.startDelete (h : Inv s) (hs : RoutingEpoch.startDelete s d = some t) : Inv t := by
  obtain ⟨hlocked, hs⟩ := ite_none_right_eq_some.mp hs
  have ht := (some.inj hs).symm
  obtain ⟨-, hfree⟩ := locked_eq_false hlocked
  have hold := h.docs d
  have hop : t.op = s.op := by rw [ht]; rfl
  have hreader : t.readers = s.readers := by rw [ht]; rfl
  have hst : DocStep s t d { s.docs d with
      writing := some ⟨none, [], (s.docs d).vectors.deleteWrites⟩ } := by
    refine ⟨by rw [ht]; rfl, by rw [ht]; rfl, by rw [ht]; exact docs_setDoc_self ..,
      fun e he => by rw [ht]; exact docs_setDoc_of_ne he _,
      fun e he => by rw [ht]; exact List.mem_cons_of_mem d he, fun j => by rw [hreader],
      fun j => by rw [hreader], fun j e => by rw [hreader]; exact id⟩
  refine h.of_doc hst hop hfree ?_ (fun _ _ => ⟨rfl, rfl⟩) fun j e he hj => by rw [hreader]; exact hj
  constructor
  · rw [hst.doc]
    exact hold.hasMeta
  · exact fun _ => by rw [ht]; exact List.mem_cons_self
  · rw [hst.doc, hst.current, hop]
    exact hold.safe
  · intro job hjob
    rw [hst.doc] at hjob
    obtain rfl := some.inj hjob
    exact ⟨by rw [inHand_congr hop]; exact hfree, nofun, fun hne => absurd rfl hne,
      fun hne => absurd rfl hne, nofun⟩

omit [LinearOrder P] in
private theorem touch_touched {e : D} (h : ((s.touch d).readers r).touched e = false) :
    e ≠ d ∧ (s.readers r).touched e = false := by
  have hne : e ≠ d := by
    rintro rfl
    change Function.update (s.readers r).touched e true e = false at h
    rw [Function.update_self] at h
    cases h
  refine ⟨hne, ?_⟩
  change Function.update (s.readers r).touched d true e = false at h
  rwa [Function.update_of_ne hne] at h

theorem Inv.writeNext (h : Inv s) (hs : RoutingEpoch.writeNext s d = some t) : Inv t := by
  obtain ⟨job, hjob, hs⟩ := bind_eq_some_iff.mp hs
  rcases hpending : job.pending with _ | ⟨w, ws⟩ <;> rw [hpending] at hs
  · cases hs
  · have ht := (some.inj hs).symm
    have hw := (h.docs d).writing job hjob
    have hop : t.op = s.op := by rw [ht]; rfl
    have hreaders : ∀ r, (t.readers r).snapshot = (s.readers r).snapshot ∧
        (t.readers r).read = (s.readers r).read ∧
        (t.readers r).writing = (s.readers r).writing := fun r => by
      rw [ht]
      exact ⟨rfl, rfl, rfl⟩
    have htouched : ∀ r e, (t.readers r).touched e = false →
        e ≠ d ∧ (s.readers r).touched e = false := fun r e he => by
      rw [ht] at he
      exact touch_touched he
    have hst : DocStep s t d
        ⟨(s.docs d).vectors.write w, [], some { job with pending := ws }⟩ :=
      ⟨by rw [ht]; rfl, by rw [ht]; rfl, by rw [ht]; exact docs_setDoc_self ..,
        fun e he => by rw [ht]; exact docs_setDoc_of_ne he _,
        fun e he => by rw [ht]; exact he, fun r => (hreaders r).1, fun r => (hreaders r).2.1,
        fun r e he => (htouched r e he).2⟩
    refine h.of_doc hst hop hw.free ?_ (fun r hr => absurd rfl (htouched r d hr).1)
      fun r e _ hr => (hreaders r).2.2.trans hr
    constructor
    · rw [hst.doc]
      exact fun hne => absurd rfl hne
    · intro _
      refine hst.known d ((h.docs d).known (.inr ?_))
      rw [hjob]
      rfl
    · rw [hst.doc]
      nofun
    · intro job' hjob'
      rw [hst.doc] at hjob'
      obtain rfl := some.inj hjob'
      have hholds := hw.holds
      have hhasMeta := hw.hasMeta
      rw [hpending] at hholds hhasMeta
      constructor
      · rw [inHand_congr hop]
        exact hw.free
      · rw [hst.doc]
        exact hholds
      · rw [hst.doc]
        exact hhasMeta
      · exact hw.byReader
      · intro r hr
        rw [hst.epoch, hst.snapshot, (hreaders r).2.2]
        exact hw.inside r hr

/-- What releasing a document changes. -/
private theorem release_step (h : Inv s) {job : Writing P C} (hjob : (s.docs d).writing = some job)
    (stored : List C) :
    DocStep s (s.release d stored) d ⟨(s.docs d).vectors, stored, none⟩ ∧
      (s.release d stored).op = s.op ∧
      ∀ r e, e ≠ d → (s.readers r).writing = some e →
        ((s.release d stored).readers r).writing = some e := by
  have hw := (h.docs d).writing job hjob
  cases hr : job.reader with
  | none =>
    have heq : s.release d stored = s.setDoc d ⟨(s.docs d).vectors, stored, none⟩ := by
      unfold release
      rw [hjob, bind_some, hr]
    rw [heq]
    exact ⟨⟨rfl, rfl, docs_setDoc_self .., fun e he => docs_setDoc_of_ne he _,
      fun _ => id, fun _ => rfl, fun _ => rfl, fun _ _ => id⟩, rfl, fun _ _ _ => id⟩
  | some r =>
    obtain ⟨-, hdoc, -⟩ := hw.inside r hr
    have heq : s.release d stored = (s.setDoc d ⟨(s.docs d).vectors, stored, none⟩).setReader r
        { s.readers r with writing := none } := by
      unfold release
      rw [hjob, bind_some, hr]
    have hreader : ∀ j, (s.release d stored).readers j =
        if j = r then { s.readers r with writing := none } else s.readers j := fun j => by
      rw [heq]
      exact Function.update_apply ..
    refine ⟨⟨by rw [heq]; rfl, by rw [heq]; rfl, by rw [heq]; exact docs_setDoc_self ..,
      fun e he => by rw [heq]; exact docs_setDoc_of_ne he _,
      fun e he => by rw [heq]; exact he, fun j => ?_, fun j => ?_, fun j e => ?_⟩,
      by rw [heq]; rfl, fun j e he hj => ?_⟩
    · rw [hreader]
      split
      · next hjr => rw [hjr]
      · rfl
    · rw [hreader]
      split
      · next hjr => rw [hjr]
      · rfl
    · rw [hreader]
      split
      · next hjr =>
        rw [hjr]
        exact id
      · exact id
    · rw [hreader]
      split
      · next hjr =>
        rw [hjr, hdoc] at hj
        exact absurd (some.inj hj).symm he
      · exact hj

/-- **Codes filed by a reader inside are safe**: the reader goes by postings that are active, or
were until the snapshot that the next wait is for. -/
theorem Inv.safe_of_filed (h : Inv s) (hin : s.epoch.Inside r)
    (hS : (s.readers r).snapshot = some S) (hp : S p = some .active) (hx : v.Holds p x) :
    Safe s.current s.op d v x := by
  have hactive := (h.readers r S hin hS).active p hp
  have hvisible : s.current.visible p := by
    simp only [Snapshot.visible, Bool.or_eq_true, beq_iff_eq]
    exact hactive.imp id And.left
  -- nobody is behind any more once the copies begin
  have hnot : ∀ plan phase, s.op = some (plan, phase) → ¬Behind s.epoch s.op r →
      p ∉ plan.drained := by
    intro plan phase hop hb hd
    have hdrained := (h.op plan phase hop).drained p hd
    rw [hactive.resolve_right fun hb' => hb hb'.2] at hdrained
    split at hdrained <;> cases hdrained
  have hspared : ∀ plan phase, s.op = some (plan, phase) → ¬Behind s.epoch s.op r →
      ∃ q, s.current.visible q ∧ plan.Spared v q x := by
    intro plan phase hop hb
    obtain ⟨q, hq, hspared⟩ := plan.exists_spared hx (hnot plan phase hop hb)
    refine ⟨q, ?_, hspared⟩
    rcases hq with rfl | hq
    · exact hvisible
    · simp [Snapshot.visible, (h.op plan phase hop).targets q hq]
  rcases hop : s.op with _ | ⟨plan, pause | ⟨pause, i⟩ | ⟨walk, rest, todo, hand⟩ | _⟩
  · exact ⟨p, hvisible, hx⟩
  · cases pause with
    | publish => exact ⟨p, hvisible, hx⟩
    | barrier | retire => exact hspared _ _ hop (by rw [hop]; exact id)
  · cases pause with
    | publish => exact ⟨p, hvisible, hx⟩
    | barrier | retire => exact hspared _ _ hop (by rw [hop]; exact id)
  · cases walk with
    | copy => exact .inl ⟨p, hvisible, hnot _ _ hop (by rw [hop]; exact id), hx⟩
    | delete => exact hspared _ _ hop (by rw [hop]; exact id)
  · exact hspared _ _ hop (by rw [hop]; exact id)

theorem Inv.abandonWrite (h : Inv s) (hs : RoutingEpoch.abandonWrite s d = some t) : Inv t := by
  obtain ⟨job, hjob, hs⟩ := bind_eq_some_iff.mp hs
  obtain rfl := some.inj hs
  obtain ⟨hst, hop, hwriting⟩ := release_step h hjob (s.docs d).stored
  have hold := h.docs d
  refine h.of_doc hst hop (hold.writing job hjob).free ?_ (fun _ _ => ⟨rfl, rfl⟩) hwriting
  constructor
  · rw [hst.doc]
    exact hold.hasMeta
  · rw [hst.doc]
    exact fun hk => hst.known d (hold.known (hk.imp_right nofun))
  · rw [hst.doc, hst.current, hop]
    exact hold.safe
  · rw [hst.doc]
    nofun

theorem Inv.finishWrite (h : Inv s) (hs : RoutingEpoch.finishWrite s d = some t) : Inv t := by
  obtain ⟨job, hjob, hs⟩ := bind_eq_some_iff.mp hs
  obtain ⟨hdone, hs⟩ := ite_none_right_eq_some.mp hs
  have ht := (some.inj hs).symm
  obtain ⟨hrel, hop, hwriting⟩ := release_step h hjob (job.filed.map Prod.snd)
  have htouched : ∀ r e, (t.readers r).touched e = false →
      e ≠ d ∧ (s.readers r).touched e = false := fun r e he => by
    rw [ht] at he
    exact (touch_touched he).imp_right (hrel.touched r e)
  have hst : DocStep s t d ⟨(s.docs d).vectors, job.filed.map Prod.snd, none⟩ := by
    refine ⟨?_, ?_, ?_, fun e he => ?_, fun e he => ?_, fun r => ?_, fun r => ?_,
      fun r e he => (htouched r e he).2⟩ <;> rw [ht]
    · exact hrel.epoch
    · exact hrel.current
    · exact hrel.doc
    · exact hrel.other e he
    · exact hrel.known e he
    · exact hrel.snapshot r
    · exact hrel.read r
  have hop' : t.op = s.op := by
    rw [ht]
    exact hop
  have hold := h.docs d
  have hw := hold.writing job hjob
  have hholds := hw.holds
  have hhasMeta := hw.hasMeta
  rw [hdone] at hholds hhasMeta
  refine h.of_doc hst hop' hw.free ?_ (fun r hr => absurd rfl (htouched r d hr).1)
    fun r e he hr => by rw [ht]; exact hwriting r e he hr
  constructor
  · rw [hst.doc]
    exact fun hne => hhasMeta fun hnil => hne (by rw [hnil]; rfl)
  · exact fun _ => hst.known d (hold.known (.inr (by rw [hjob]; rfl)))
  · rw [hst.doc, hst.current, hop']
    intro x hx
    obtain ⟨y, hy, rfl⟩ := List.mem_map.mp hx
    obtain ⟨r, hr⟩ := isSome_iff_exists.mp (hw.byReader (List.ne_nil_of_mem hy))
    obtain ⟨hin, -, S, hS, hactive⟩ := hw.inside r hr
    exact h.safe_of_filed hin hS (hactive y hy) (hholds y hy)
  · rw [hst.doc]
    nofun

/-! ### Every step keeps the invariant -/

theorem inv_open (a : Partition P D C) : Inv a.open where
  epoch := Grace.inv_init
  op := nofun
  docs d := ⟨a.hasMeta d, fun hk => a.knows d (hk.resolve_right nofun), a.filed d, nofun⟩
  readers r S hin := by
    obtain ⟨b, hb, -⟩ := hin
    cases hb

variable [DecidableEq C]

/-- The entry on top of the list is locked, and what there is to write is read under the lock. -/
theorem Inv.take (h : Inv s) (hs : RoutingEpoch.take s = some t) : Inv t := by
  obtain ⟨⟨plan, phase⟩, hop, hs⟩ := bind_eq_some_iff.mp hs
  rcases phase with _ | _ | ⟨walk, rest, _ | ⟨e, todo⟩, _ | _⟩ | _ <;> try cases hs
  obtain ⟨hfree, rfl⟩ := ite_some_none_eq_some.mp hs
  have hwalk := (h.op _ _ hop).walking _ _ _ _ rfl
  have hnone : (s.docs e.doc).writing = none := isNone_iff_eq_none.mp hfree
  refine h.of_walk hop ⟨hwalk.rest, fun f hf => hwalk.todo f (List.mem_cons_of_mem e hf),
    fun d ws heq => ?_⟩ (fun hcopy d p x hx hp hholds hto => .inr ?_) fun d ws heq => ?_
  · obtain ⟨rfl, rfl⟩ := Prod.mk.inj (some.inj heq)
    exact ⟨hnone, plan.along_writes walk _ e.nodup (hwalk.todo e List.mem_cons_self)⟩
  · rcases hto with hq | ⟨f, hf, rfl, hsource⟩ | ⟨_, _, hhand, -⟩
    · exact .inl hq
    · rcases List.mem_cons.mp hf with rfl | hf
      · -- the document now in hand will have the chunk somewhere else
        obtain ⟨q, hq, hnot, hmoved⟩ := plan.holds_copy
          ((h.docs _).hasMeta (List.ne_nil_of_mem hx)) hsource hp hholds
        subst hcopy
        exact .inr (.inr ⟨_, q, rfl, by
          simp [Snapshot.visible, (h.op _ _ hop).targets q hq], hnot, hmoved⟩)
      · exact .inr (.inl ⟨f, hf, rfl, hsource⟩)
    · cases hhand
  · obtain ⟨rfl, -⟩ := Prod.mk.inj (some.inj heq)
    exact hnone

/-- **The step lemma.** -/
theorem Inv.step (h : Inv s) {a : Act P D C} (hs : RoutingEpoch.step s a = some t) : Inv t := by
  cases a with
  | enter =>
    obtain rfl := some.inj hs
    exact h.enter
  | takeSnapshot r => exact h.takeSnapshot hs
  | scan r p d => exact h.scan hs
  | leave r => exact h.leave hs
  | notify r =>
    obtain ⟨e, he, rfl⟩ := map_eq_some_iff.mp hs
    exact h.notify he
  | startUpsert r d filed => exact h.startUpsert hs
  | startDelete d => exact h.startDelete hs
  | writeNext d => exact h.writeNext hs
  | finishWrite d => exact h.finishWrite hs
  | abandonWrite d => exact h.abandonWrite hs
  | install drain => exact h.install hs
  | startReassign r => exact h.startReassign hs
  | beginWait => exact h.beginWait hs
  | waitStep i =>
    obtain ⟨e, he, rfl⟩ := map_eq_some_iff.mp hs
    exact h.waitStep he
  | endWait => exact h.endWait hs
  | list => exact h.list hs
  | select entries => exact h.select hs
  | take => exact h.take hs
  | writeHand => exact h.writeHand hs
  | dropHand => exact h.dropHand hs
  | recordCopied => exact h.recordCopied hs
  | finish => exact h.finish hs
  | fail => exact h.fail hs

/-- **The run lemma.** -/
theorem inv_run {a : Partition P D C} {acts : List (Act P D C)}
    (hrun : RoutingEpoch.run a.open acts = some t) : Inv t :=
  StepRun.invariant (fun _ _ _ h hs => h.step hs) (inv_open a) hrun

/-- A wait's own steps are steps of the namespace. -/
theorem run_waitStep {n : ℕ}
    (h : StepRun.run (fun s (_ : Unit) => s.waitStep i) s.epoch (List.replicate n ()) = some e) :
    RoutingEpoch.run s (List.replicate n (.waitStep i)) = some { s with epoch := e } := by
  induction n generalizing s with
  | zero =>
    obtain rfl := some.inj h
    rfl
  | succ n ih =>
    obtain ⟨m, hm, h⟩ := bind_eq_some_iff.mp h
    refine bind_eq_some_iff.mpr ⟨{ s with epoch := m }, ?_, ih h⟩
    exact map_eq_some_iff.mpr ⟨m, hm, rfl⟩

/-- **Maintenance loses no chunk and no wake-up.** In every state that readers, writes and
maintenance can reach: a wait that has returned outlasted every reader that entered before it; a
wait that sleeps unwoken has such a reader that is still inside or has still to notify it, and once
all of them are gone it returns within three steps of its own; and a reader inside that has read a
document's key under every posting its snapshot shows has seen every chunk the document is stored
with, unless the document was written since it entered. -/
theorem search_complete (a : Partition P D C) (acts : List (Act P D C)) (t : State P D C)
    (hrun : RoutingEpoch.run a.open acts = some t) :
    (∀ i, t.epoch.Returned i → ∀ r < t.epoch.entered i, ¬t.epoch.Inside r) ∧
    (∀ w ∈ t.epoch.waiters, w.phase = .sleeping false →
      ∃ r < w.entered, ∃ b, t.epoch.readers[r]? = some b ∧ b.phase ≠ .gone) ∧
    (∀ i < t.epoch.waiters.length,
      (∀ r < t.epoch.entered i, ∀ b, t.epoch.readers[r]? = some b → b.phase = .gone) →
      ∃ n ≤ 3, ∃ u, RoutingEpoch.run t (List.replicate n (.waitStep i)) = some u ∧
        u.epoch.Returned i) ∧
    ∀ r S, t.epoch.Inside r → (t.readers r).snapshot = some S →
      ∀ d, (t.readers r).touched d = false →
        (∀ p, S.visible p → (t.readers r).read p d ≠ none) →
        ∀ x ∈ (t.docs d).stored, Seen (t.readers r) S d x := by
  have h := inv_run hrun
  refine ⟨fun i hi r hr => h.epoch.not_inside hi hr, fun w hw => (h.epoch.waits w hw).wakes,
    fun i hi hgone => ?_, fun r S hin hS d hd hall x hx => ?_⟩
  · have hw : t.epoch.waiters[i]? = some t.epoch.waiters[i] := List.getElem?_eq_getElem hi
    have hentered : t.epoch.entered i = t.epoch.waiters[i].entered := by
      rw [Grace.State.entered, hw]
      rfl
    obtain ⟨n, hn, e, he, hreturned⟩ := h.epoch.can_return hw (hentered ▸ hgone)
    exact ⟨n, hn, _, run_waitStep he, hreturned⟩
  · rcases (h.readers r S hin hS).finds d hd x hx with hseen | ⟨p, hp, hread, -⟩
    · exact hseen
    · exact absurd hread (hall p hp)

end Invariant

/-- One posting that holds the one chunk of one document. -/
def rootPosting : Partition ℕ ℕ ℕ where
  current p := if p = 0 then some .active else none
  vectors d :=
    if d = 0 then ⟨some [(0, 1)], fun p => if p = 0 then some [5] else none⟩ else .empty
  stored d := if d = 0 then [5] else []
  known := [0]
  filed d x hx := by
    by_cases hd : d = 0
    · subst hd
      exact ⟨0, rfl, hx⟩
    · rw [if_neg hd] at hx
      cases hx
  hasMeta d hd := by
    by_cases h : d = 0
    · rw [if_pos h]
      rfl
    · exact absurd (if_neg h) hd
  knows d hd := by
    by_contra h
    exact hd (if_neg fun hzero => h (List.mem_singleton.mpr hzero))

/-- The root posting is split in two, and every chunk goes to the first half. -/
def split : Drain ℕ ℕ where
  children := [1, 2]
  drained := [0]
  targets := [1, 2]
  destination _ := 1
  destination_mem _ := List.mem_cons_self
  not_drained := by decide

/-- A search begins before the chunk is copied to its half and reads the half first; the barrier
waits for it. -/
def splitWhileSearching : List (Act ℕ ℕ ℕ) :=
  [.install split, .beginWait, .waitStep 0, .waitStep 0, .endWait,
    .enter, .takeSnapshot 0, .scan 0 1 0,
    .list, .take, .writeHand, .writeHand, .dropHand, .recordCopied,
    .beginWait, .waitStep 1, .waitStep 1, .scan 0 0 0, .scan 0 2 0]

theorem search_complete_splitWhileSearching :
    ∃ t S, run rootPosting.open splitWhileSearching = some t ∧ t.epoch.Inside 0 ∧
      (t.readers 0).snapshot = some S ∧ S.visible 0 ∧ S.visible 1 ∧ S.visible 2 ∧
      (t.docs 0).stored = [5] ∧ Seen (t.readers 0) S 0 5 := by
  have hrun : run rootPosting.open splitWhileSearching =
      some ((run rootPosting.open splitWhileSearching).get (by decide +kernel)) :=
    (Option.some_get _).symm
  have hread : ∀ p d, (((run rootPosting.open splitWhileSearching).get
      (by decide +kernel)).readers 0).read p d =
      if p = 2 ∧ d = 0 then some none else if p = 0 ∧ d = 0 then some (some [5]) else
        if p = 1 ∧ d = 0 then some none else none := fun _ _ => rfl
  have hsnapshot : (((run rootPosting.open splitWhileSearching).get
      (by decide +kernel)).readers 0).snapshot =
      some ((rootPosting.current.evolve [1, 2] .active).evolve [0] .draining) := rfl
  refine ⟨_, _, hrun, by decide +kernel, hsnapshot, by decide, by decide, by decide,
    by decide +kernel, ?_⟩
  obtain ⟨-, -, -, hfinds⟩ := search_complete rootPosting splitWhileSearching _ hrun
  refine hfinds 0 _ (by decide +kernel) hsnapshot 0 (by decide +kernel) (fun p hp => ?_) 5
    (by decide +kernel)
  rw [hread]
  -- the snapshot shows the three postings, and each was read
  by_cases h0 : p = 0
  · simp [h0]
  · by_cases h1 : p = 1
    · simp [h1]
    · by_cases h2 : p = 2
      · simp [h2]
      · simp [Snapshot.visible, Snapshot.evolve, rootPosting, h0, h1, h2] at hp

end Minnal.RoutingEpoch
