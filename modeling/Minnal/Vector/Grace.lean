import Mathlib.Data.List.Count
import Mathlib.Data.Nat.Basic
import Mathlib.Order.Basic
import Minnal.Library.StepRun

/-!
# Grace periods

Readers register in the **current generation** and never wait. A **wait** starts a new generation
and lasts until no reader of an earlier one is left. The guard of a reader is dropped in two steps,
first the count under the lock, then the notification, and a wait is a loop that registers for a
notification, checks the counts and sleeps. A notification wakes the waits that are registered
then, and no others.

A wait that has **returned** has seen every reader that entered before it leave (`Inv.returned`).
A wait that **sleeps** and has not been woken still has such a reader before its notification
(`Inv.wakes`), so once the last one is gone the wait returns by its own steps (`can_return`).
-/

set_option linter.dupNamespace false

namespace Minnal.Grace

/-- How far a reader is: **inside**, its count given back, or its notification sent as well. -/
inductive Phase
  | inside
  | leaving
  | gone
  deriving DecidableEq, Repr

/-- An `EpochGuard`: the generation it entered in. -/
structure Reader where
  generation : ℕ
  phase : Phase
  deriving DecidableEq, Repr

/-- Where the loop of a wait is. The flag says whether a notification has come since it
registered. -/
inductive WaitPhase
  | starting
  | registered (woken : Bool)
  | sleeping (woken : Bool)
  | returned
  deriving DecidableEq, Repr

/-- What `notify_waiters` does to one wait. -/
def WaitPhase.notified : WaitPhase → WaitPhase
  | .registered _ => .registered true
  | .sleeping _ => .sleeping true
  | .starting => .starting
  | .returned => .returned

/-- A call of `wait`. -/
structure Waiter where
  /-- The generation that was current when it began. -/
  last : ℕ
  /-- How many readers had entered by then. -/
  entered : ℕ
  phase : WaitPhase
  deriving DecidableEq, Repr

/-- The shared state, with the history of readers and waits. -/
structure State where
  generation : ℕ
  /-- Readers still running, by the generation they started in. -/
  count : ℕ → ℕ
  readers : List Reader
  waiters : List Waiter

namespace State

/-- No reader, no wait. -/
def init : State := ⟨0, fun _ => 0, [], []⟩

/-- The reader has entered and has not left. -/
def Inside (s : State) (r : ℕ) : Prop := ∃ a, s.readers[r]? = some a ∧ a.phase = .inside

instance (s : State) (r : ℕ) : Decidable (s.Inside r) :=
  decidable_of_iff ((s.readers[r]?).any (·.phase == .inside)) (by
    simp [Inside, Option.any_eq_true])

/-- No reader of the generation or an earlier one is left. -/
def clear (s : State) (last : ℕ) : Bool := (List.range (last + 1)).all fun g => s.count g == 0

/-- `Grace::enter`. -/
def enter (s : State) : State :=
  { s with
    count := Function.update s.count s.generation (s.count s.generation + 1)
    readers := s.readers ++ [⟨s.generation, .inside⟩] }

/-- The first half of `EpochGuard::drop`: give back the count. -/
def leave (s : State) (r : ℕ) : Option State :=
  s.readers[r]?.bind fun a =>
    if a.phase = .inside then
      some { s with
        count := Function.update s.count a.generation (s.count a.generation - 1)
        readers := s.readers.set r { a with phase := .leaving } }
    else none

/-- The second half of `EpochGuard::drop`: wake every registered wait. -/
def notify (s : State) (r : ℕ) : Option State :=
  s.readers[r]?.bind fun a =>
    if a.phase = .leaving then
      some { s with
        readers := s.readers.set r { a with phase := .gone }
        waiters := s.waiters.map fun w => { w with phase := w.phase.notified } }
    else none

/-- The start of `Grace::wait`: a new generation. -/
def beginWait (s : State) : State :=
  { s with
    generation := s.generation + 1
    waiters := s.waiters ++ [⟨s.generation, s.readers.length, .starting⟩] }

/-- The next step of the loop of a wait. A sleeping wait has none until it is woken. -/
def waitStep (s : State) (i : ℕ) : Option State :=
  s.waiters[i]?.bind fun w =>
    let goto (p : WaitPhase) : State := { s with waiters := s.waiters.set i { w with phase := p } }
    match w.phase with
    | .starting => some (goto (.registered false))
    | .registered woken => some (goto (if s.clear w.last then .returned else .sleeping woken))
    | .sleeping true => some (goto .starting)
    | .sleeping false => none
    | .returned => none

end State

/-! ### The invariant -/

/-- The reader counts in the generation. -/
def Reader.countsIn (g : ℕ) (a : Reader) : Bool := a.generation == g && a.phase == .inside

/-- What holds of one wait. -/
structure WaitInv (s : State) (w : Waiter) : Prop where
  last_lt : w.last < s.generation
  entered_le : w.entered ≤ s.readers.length
  /-- The generation tells the readers that entered before the wait from those after. -/
  earlier : ∀ r a, s.readers[r]? = some a → (r < w.entered ↔ a.generation ≤ w.last)
  returned : w.phase = .returned → ∀ r < w.entered, ¬s.Inside r
  /-- **No lost wake-up.** A wait that sleeps unwoken has a notification still to come. -/
  wakes : w.phase = .sleeping false → ∃ r < w.entered, ∃ a, s.readers[r]? = some a ∧ a.phase ≠ .gone

/-- **The invariant** of readers and waits. -/
structure Inv (s : State) : Prop where
  counted : ∀ g, s.count g = s.readers.countP (Reader.countsIn g)
  generation_le : ∀ a ∈ s.readers, a.generation ≤ s.generation
  waits : ∀ w ∈ s.waiters, WaitInv s w

theorem inv_init : Inv State.init where
  counted _ := rfl
  generation_le _ ha := by cases ha
  waits _ hw := by cases hw

variable {s t : State} {r : ℕ}

theorem State.Inside.lt_length (h : s.Inside r) : r < s.readers.length := by
  obtain ⟨a, ha, -⟩ := h
  exact (List.getElem?_eq_some_iff.mp ha).1

theorem State.inside_enter : s.enter.Inside r ↔ s.Inside r ∨ r = s.readers.length := by
  unfold State.Inside State.enter
  rcases Nat.lt_trichotomy r s.readers.length with hr | rfl | hr
  · simp [List.getElem?_append_left hr, hr.ne]
  · simp
  · have h1 : s.readers[r]? = none := List.getElem?_eq_none hr.le
    have h2 : (s.readers ++ [⟨s.generation, .inside⟩])[r]? = none :=
      List.getElem?_eq_none (by rw [List.length_append, List.length_singleton]; omega)
    simp [h1, h2, hr.ne']

theorem Inv.enter (h : Inv s) : Inv s.enter where
  counted g := by
    change Function.update s.count s.generation _ g = List.countP _ (s.readers ++ [_])
    rw [List.countP_append, ← h.counted g, Function.update_apply]
    by_cases hg : g = s.generation
    · subst hg
      simp [Reader.countsIn]
    · simp [Reader.countsIn, hg, Ne.symm hg]
  generation_le a ha := by
    rcases List.mem_append.mp ha with ha | ha
    · exact h.generation_le a ha
    · rw [List.mem_singleton.mp ha]
      exact le_rfl
  waits w hw := by
    have hold := h.waits w hw
    refine ⟨hold.last_lt, ?_, fun r a ha => ?_, fun hp r hr hin => ?_, fun hp => ?_⟩
    · change w.entered ≤ (s.readers ++ [_]).length
      rw [List.length_append]
      exact hold.entered_le.trans (Nat.le_add_right ..)
    · change (s.readers ++ [_])[r]? = some a at ha
      rcases Nat.lt_or_ge r s.readers.length with hr | hr
      · rw [List.getElem?_append_left hr] at ha
        exact hold.earlier r a ha
      · -- the reader that has just entered is of a later generation
        rw [List.getElem?_append_right hr, List.getElem?_singleton] at ha
        obtain ⟨-, rfl⟩ : r - s.readers.length = 0 ∧ _ = a := by simpa using ha
        have h1 := hold.entered_le
        have h2 := hold.last_lt
        exact ⟨fun h' => by omega, fun h' => by change s.generation ≤ w.last at h'; omega⟩
    · rcases State.inside_enter.mp hin with hin | rfl
      · exact hold.returned hp r hr hin
      · exact absurd hold.entered_le hr.not_ge
    · obtain ⟨r, hr, a, ha, hgone⟩ := hold.wakes hp
      refine ⟨r, hr, a, ?_, hgone⟩
      change (s.readers ++ [_])[r]? = some a
      rw [List.getElem?_append_left (hr.trans_le hold.entered_le)]
      exact ha

variable {w : Waiter} {a : Reader}

/-- Readers and waits are where they were, but for one reader that has moved on. -/
private theorem WaitInv.of_set (h : WaitInv s w) (ha : s.readers[r]? = some a) {p : Phase}
    (hp : p ≠ .inside) (hreaders : t.readers = s.readers.set r { a with phase := p })
    (hgeneration : t.generation = s.generation) (hwakes : w.phase = .sleeping false → p ≠ .gone) :
    WaitInv t w := by
  have hget : ∀ (r' : ℕ) (a' : Reader), t.readers[r']? = some a' → ∃ b, s.readers[r']? = some b ∧
      a'.generation = b.generation ∧ (a'.phase = .inside → b.phase = .inside) := by
    intro r' a' ha'
    rw [hreaders] at ha'
    by_cases hr : r = r'
    · subst hr
      rw [List.getElem?_set_self (List.getElem?_eq_some_iff.mp ha).1] at ha'
      obtain rfl := Option.some.inj ha'
      exact ⟨a, ha, rfl, fun h' => absurd h' hp⟩
    · rw [List.getElem?_set_ne hr] at ha'
      exact ⟨a', ha', rfl, id⟩
  refine ⟨hgeneration ▸ h.last_lt, ?_, fun r' a' ha' => ?_, fun hw r' hr' ⟨a', ha', hin⟩ => ?_,
    fun hw => ?_⟩
  · rw [hreaders, List.length_set]
    exact h.entered_le
  · obtain ⟨b, hb, hgen, -⟩ := hget r' a' ha'
    rw [h.earlier r' b hb, hgen]
  · obtain ⟨b, hb, -, hb'⟩ := hget r' a' ha'
    exact h.returned hw r' hr' ⟨b, hb, hb' hin⟩
  · obtain ⟨r', hr', a', ha', hgone⟩ := h.wakes hw
    rw [hreaders]
    by_cases hr : r = r'
    · subst hr
      exact ⟨r, hr', _, List.getElem?_set_self (List.getElem?_eq_some_iff.mp ha).1, hwakes hw⟩
    · exact ⟨r', hr', a', by rw [List.getElem?_set_ne hr]; exact ha', hgone⟩

theorem State.leave_eq (h : s.leave r = some t) :
    ∃ a, s.readers[r]? = some a ∧ a.phase = .inside ∧ t = { s with
      count := Function.update s.count a.generation (s.count a.generation - 1)
      readers := s.readers.set r { a with phase := .leaving } } := by
  obtain ⟨a, ha, h⟩ := Option.bind_eq_some_iff.mp h
  obtain ⟨hin, h⟩ := Option.ite_none_right_eq_some.mp h
  exact ⟨a, ha, hin, (Option.some.inj h).symm⟩

theorem State.notify_eq (h : s.notify r = some t) :
    ∃ a, s.readers[r]? = some a ∧ a.phase = .leaving ∧ t = { s with
      readers := s.readers.set r { a with phase := .gone }
      waiters := s.waiters.map fun w => { w with phase := w.phase.notified } } := by
  obtain ⟨a, ha, h⟩ := Option.bind_eq_some_iff.mp h
  obtain ⟨hin, h⟩ := Option.ite_none_right_eq_some.mp h
  exact ⟨a, ha, hin, (Option.some.inj h).symm⟩

/-- How many readers count in a generation, after one has moved on. -/
private theorem countP_set {b : Reader} (ha : s.readers[r]? = some a) (hb : b.phase ≠ .inside)
    (g : ℕ) :
    (s.readers.set r b).countP (Reader.countsIn g) =
      s.readers.countP (Reader.countsIn g) - if Reader.countsIn g a then 1 else 0 := by
  obtain ⟨hr, rfl⟩ := List.getElem?_eq_some_iff.mp ha
  have hnot : Reader.countsIn g b = false := by simp [Reader.countsIn, hb]
  rw [List.countP_set hr, hnot]
  rfl

theorem Inv.leave (h : Inv s) (hs : s.leave r = some t) : Inv t := by
  obtain ⟨a, ha, hin, rfl⟩ := State.leave_eq hs
  refine ⟨fun g => ?_, fun b hb => ?_, fun w hw => ?_⟩
  · change Function.update s.count _ _ g = List.countP _ (s.readers.set r _)
    rw [countP_set ha (by simp), ← h.counted g, Function.update_apply]
    by_cases hg : g = a.generation
    · subst hg
      simp [Reader.countsIn, hin]
    · simp [Reader.countsIn, hg, Ne.symm hg]
  · rcases List.mem_or_eq_of_mem_set hb with hb | rfl
    · exact h.generation_le b hb
    · exact h.generation_le a (List.mem_of_getElem? ha)
  · exact (h.waits w hw).of_set ha (by decide) rfl rfl fun _ => by decide

theorem Inv.notify (h : Inv s) (hs : s.notify r = some t) : Inv t := by
  obtain ⟨a, ha, hleaving, rfl⟩ := State.notify_eq hs
  refine ⟨fun g => ?_, fun b hb => ?_, fun w hw => ?_⟩
  · change s.count g = List.countP _ (s.readers.set r _)
    rw [countP_set ha (by simp), ← h.counted g]
    simp [Reader.countsIn, hleaving]
  · rcases List.mem_or_eq_of_mem_set hb with hb | rfl
    · exact h.generation_le b hb
    · exact h.generation_le a (List.mem_of_getElem? ha)
  · obtain ⟨v, hv, rfl⟩ := List.mem_map.mp hw
    have hold := h.waits v hv
    -- whoever slept has been woken
    have hawake : v.phase.notified ≠ .sleeping false := by cases v.phase <;> simp [WaitPhase.notified]
    have hreturned : v.phase.notified = .returned → v.phase = .returned := by
      cases v.phase <;> simp [WaitPhase.notified]
    have hnew : WaitInv s { v with phase := v.phase.notified } :=
      ⟨hold.last_lt, hold.entered_le, hold.earlier, fun hp => hold.returned (hreturned hp),
        fun hp => absurd hp hawake⟩
    exact hnew.of_set ha (by decide) rfl rfl fun hp => absurd hp hawake

theorem Inv.beginWait (h : Inv s) : Inv s.beginWait where
  counted := h.counted
  generation_le a ha := (h.generation_le a ha).trans (Nat.le_succ _)
  waits w hw := by
    rcases List.mem_append.mp hw with hw | hw
    · have hold := h.waits w hw
      exact ⟨hold.last_lt.trans (Nat.lt_succ_self _), hold.entered_le, hold.earlier, hold.returned,
        hold.wakes⟩
    · obtain rfl := List.mem_singleton.mp hw
      refine ⟨Nat.lt_succ_self _, le_rfl, fun r a ha => ?_, nofun, nofun⟩
      exact iff_of_true (List.getElem?_eq_some_iff.mp ha).1
        (h.generation_le a (List.mem_of_getElem? ha))

/-- What the loop goes on with. -/
def State.next (s : State) (w : Waiter) : WaitPhase → Option WaitPhase
  | .starting => some (.registered false)
  | .registered woken => some (if s.clear w.last then .returned else .sleeping woken)
  | .sleeping true => some .starting
  | .sleeping false => none
  | .returned => none

variable {i : ℕ}

theorem State.waitStep_eq (h : s.waitStep i = some t) :
    ∃ w p, s.waiters[i]? = some w ∧ s.next w w.phase = some p ∧
      t = { s with waiters := s.waiters.set i { w with phase := p } } := by
  obtain ⟨w, hw, h⟩ := Option.bind_eq_some_iff.mp h
  refine ⟨w, ?_⟩
  cases hp : w.phase with
  | starting | registered woken => simp_all [State.next]
  | sleeping woken => cases woken <;> simp_all [State.next]
  | returned => simp_all

/-- The counts are those of the readers inside. -/
theorem Inv.clear_iff (h : Inv s) {last : ℕ} : s.clear last = true ↔
    ∀ (r : ℕ) (a : Reader), s.readers[r]? = some a → a.generation ≤ last → a.phase ≠ .inside := by
  simp only [State.clear, List.all_eq_true, List.mem_range, beq_iff_eq, h.counted,
    List.countP_eq_zero, Reader.countsIn, Bool.and_eq_true, not_and]
  constructor
  · intro hzero r a ha hle
    exact hzero a.generation (Nat.lt_succ_of_le hle) a (List.mem_of_getElem? ha) rfl
  · rintro hout g hg a ha rfl
    obtain ⟨r, hr⟩ := List.getElem?_of_mem ha
    exact hout r a hr (Nat.le_of_lt_succ hg)

theorem Inv.waitStep (h : Inv s) (hs : s.waitStep i = some t) : Inv t := by
  obtain ⟨w, p, hw, hp, rfl⟩ := State.waitStep_eq hs
  have hold := h.waits w (List.mem_of_getElem? hw)
  refine ⟨h.counted, h.generation_le, fun w' hw' => ?_⟩
  rcases List.mem_or_eq_of_mem_set hw' with hw' | rfl
  · have hsame := h.waits w' hw'
    exact ⟨hsame.last_lt, hsame.entered_le, hsame.earlier, hsame.returned, hsame.wakes⟩
  · refine ⟨hold.last_lt, hold.entered_le, hold.earlier, fun hreturned r hr hin => ?_,
      fun hsleeping => ?_⟩
    · -- it has just seen the counts clear, or it had returned before
      change p = .returned at hreturned
      obtain ⟨a, ha, hinside⟩ := hin
      have hclear : s.clear w.last = true := by
        cases hphase : w.phase <;> simp_all [State.next]
        split at hp <;> simp_all
      exact h.clear_iff.mp hclear r a ha ((hold.earlier r a ha).mp hr) hinside
    · -- it has just seen a count, so a reader is inside
      change p = .sleeping false at hsleeping
      have hclear : ¬s.clear w.last = true := by
        intro hc
        cases hphase : w.phase <;> simp_all [State.next]
        split at hp <;> simp_all
      rw [h.clear_iff] at hclear
      push Not at hclear
      obtain ⟨r, a, ha, hle, hinside⟩ := hclear
      exact ⟨r, (hold.earlier r a ha).mpr hle, a, ha, by rw [hinside]; decide⟩

/-! ### Waits return -/

/-- The wait has returned. -/
def State.Returned (s : State) (i : ℕ) : Prop := ∃ w, s.waiters[i]? = some w ∧ w.phase = .returned

instance (s : State) (i : ℕ) : Decidable (s.Returned i) :=
  decidable_of_iff ((s.waiters[i]?).any (·.phase == .returned)) (by
    simp [State.Returned, Option.any_eq_true])

/-- How many readers had entered when the wait began. -/
def State.entered (s : State) (i : ℕ) : ℕ := (s.waiters[i]?).elim 0 Waiter.entered

/-- **A wait returns** only after every reader that entered before it has left. -/
theorem Inv.not_inside (h : Inv s) (hi : s.Returned i) (hr : r < s.entered i) : ¬s.Inside r := by
  obtain ⟨w, hw, hreturned⟩ := hi
  rw [State.entered, hw] at hr
  exact (h.waits w (List.mem_of_getElem? hw)).returned hreturned r hr

theorem State.entered_beginWait (s : State) :
    s.beginWait.entered s.waiters.length = s.readers.length := by
  simp [State.entered, State.beginWait]

theorem State.entered_beginWait_of_lt (h : i < s.waiters.length) :
    s.beginWait.entered i = s.entered i := by
  simp [State.entered, State.beginWait, List.getElem?_append_left h]

theorem State.entered_waitStep (h : s.waitStep i = some t) (j : ℕ) : t.entered j = s.entered j := by
  obtain ⟨w, p, hw, -, rfl⟩ := State.waitStep_eq h
  unfold State.entered
  by_cases hij : i = j
  · subst hij
    rw [List.getElem?_set_self (List.getElem?_eq_some_iff.mp hw).1, hw]
    rfl
  · rw [List.getElem?_set_ne hij]

theorem State.entered_notify (h : s.notify r = some t) (j : ℕ) : t.entered j = s.entered j := by
  obtain ⟨a, -, -, rfl⟩ := State.notify_eq h
  unfold State.entered
  rw [List.getElem?_map]
  cases s.waiters[j]? <;> rfl

theorem State.inside_set {b : Reader} (ha : s.readers[r]? = some a) (hb : b.phase ≠ .inside)
    (ht : t.readers = s.readers.set r b) (j : ℕ) : t.Inside j ↔ j ≠ r ∧ s.Inside j := by
  unfold State.Inside
  rw [ht]
  by_cases hj : r = j
  · subst hj
    rw [List.getElem?_set_self (List.getElem?_eq_some_iff.mp ha).1]
    simp [hb]
  · rw [List.getElem?_set_ne hj]
    simp [Ne.symm hj]

theorem State.inside_leave (h : s.leave r = some t) (j : ℕ) : t.Inside j ↔ j ≠ r ∧ s.Inside j := by
  obtain ⟨a, ha, -, rfl⟩ := State.leave_eq h
  exact State.inside_set ha (by simp) rfl j

theorem State.inside_notify (h : s.notify r = some t) (j : ℕ) : t.Inside j ↔ s.Inside j := by
  obtain ⟨a, ha, hleaving, rfl⟩ := State.notify_eq h
  rw [State.inside_set ha (by simp) rfl j]
  refine ⟨And.right, fun hin => ⟨?_, hin⟩⟩
  rintro rfl
  obtain ⟨b, hb, hinside⟩ := hin
  rw [ha] at hb
  obtain rfl := Option.some.inj hb
  rw [hleaving] at hinside
  cases hinside

/-- Nothing but the phase of one wait has changed. -/
private theorem waitStep_of_next {p : WaitPhase} (hw : s.waiters[i]? = some w)
    (hp : s.next w w.phase = some p) :
    s.waitStep i = some { s with waiters := s.waiters.set i { w with phase := p } } := by
  unfold State.waitStep
  rw [hw, Option.bind_some]
  rcases hphase : w.phase with _ | woken | (_ | _) | _ <;> simp_all [State.next]

/-- **A wait can return.** Once every reader that entered before it has left and notified, at most
three steps of its own take it there, whatever state its loop is in. -/
theorem Inv.can_return (h : Inv s) (hw : s.waiters[i]? = some w)
    (hgone : ∀ r < w.entered, ∀ a, s.readers[r]? = some a → a.phase = .gone) :
    ∃ n ≤ 3, ∃ t, StepRun.run (fun s (_ : Unit) => s.waitStep i) s (List.replicate n ()) = some t ∧
      t.Returned i := by
  have hinv := h.waits w (List.mem_of_getElem? hw)
  have hi := (List.getElem?_eq_some_iff.mp hw).1
  have hclear : s.clear w.last = true := by
    refine h.clear_iff.mpr fun r a ha hle => ?_
    rw [hgone r ((hinv.earlier r a ha).mpr hle) a ha]
    decide
  -- the loop from each of its places, the nearest to the return first
  have hregistered : ∀ (u : State) (woken : Bool), u.waiters[i]? = some { w with phase := .registered woken } →
      (∀ g, u.count g = s.count g) → ∃ t : State, u.waitStep i = some t ∧ t.Returned i := by
    intro u woken hu hcount
    have hsame : u.clear w.last = true := by
      unfold State.clear
      simp only [hcount]
      exact hclear
    refine ⟨_, waitStep_of_next hu (p := .returned) ?_, _,
      List.getElem?_set_self (List.getElem?_eq_some_iff.mp hu).1, rfl⟩
    simp [State.next, hsame]
  have hstarting : ∀ u : State, u.waiters[i]? = some { w with phase := .starting } →
      (∀ g, u.count g = s.count g) → ∃ v t : State, u.waitStep i = some v ∧ v.waitStep i = some t ∧
        t.Returned i := by
    intro u hu hcount
    have hlt := (List.getElem?_eq_some_iff.mp hu).1
    obtain ⟨t, ht, hreturned⟩ := hregistered
      { u with waiters := u.waiters.set i { w with phase := .registered false } } false
      (List.getElem?_set_self hlt) hcount
    exact ⟨_, t, waitStep_of_next hu rfl, ht, hreturned⟩
  have hself : ∀ p, w.phase = p → s.waiters[i]? = some { w with phase := p } := by
    rintro p rfl
    exact hw
  rcases hphase : w.phase with _ | woken | (_ | _) | _
  · obtain ⟨v, t, hv, ht, hreturned⟩ := hstarting s (hself _ hphase) fun _ => rfl
    exact ⟨2, by decide, t, by simp [StepRun.run, hv, ht], hreturned⟩
  · obtain ⟨t, ht, hreturned⟩ := hregistered s woken (hself _ hphase) fun _ => rfl
    exact ⟨1, by decide, t, by simp [StepRun.run, ht], hreturned⟩
  · -- unwoken it would have a notification still to come
    obtain ⟨r, hr, a, ha, hnot⟩ := hinv.wakes hphase
    exact absurd (hgone r hr a ha) hnot
  · obtain ⟨v, t, hv, ht, hreturned⟩ := hstarting
      { s with waiters := s.waiters.set i { w with phase := .starting } }
      (List.getElem?_set_self hi) fun _ => rfl
    have hwake := waitStep_of_next hw (p := .starting) (by rw [hphase]; rfl)
    exact ⟨3, le_rfl, t, by simp [StepRun.run, hwake, hv, ht], hreturned⟩
  · exact ⟨0, by decide, s, rfl, w, hw, hphase⟩

end Minnal.Grace
